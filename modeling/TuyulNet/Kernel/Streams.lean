import TuyulNet.Kernel.Sound

namespace TuyulNet.Kernel

open Framework

variable {k k' : Kernel} {r : Reply}

theorem close_pipe (fd : Fd) (c : ConnId) : ((k.close fd).conns c).pipe=(k.conns c).pipe := by
  unfold close
  split
  · rfl
  · rename_i f _
    cases f with
    | conn d a => by_cases hc : c=d <;> simp [hc]
    | _ => rfl

theorem close_born (fd : Fd) : (k.close fd).born=k.born := by
  unfold close
  split <;> rfl

theorem accept_conns (l n : Fd) (c d : ConnId) :
    ((k.accept l n c).conns d).pipe=(k.conns d).pipe ∧
      ((k.accept l n c).conns d).fd=if d=c then some n else (k.conns d).fd := by
  by_cases hd : d=c <;> simp [accept,hd]

theorem wake_conns (c : ConnId) : (k.wake c).conns=k.conns := by
  unfold wake
  split <;> rfl

theorem wake_born (c : ConnId) : (k.wake c).born=k.born := by
  unfold wake
  split <;> rfl

theorem setPipe_pipe (c d : ConnId) (p : Pipe Byte) :
    ((k.setPipe c p).conns d).pipe=if d=c then p else (k.conns d).pipe := by
  by_cases hd : d=c <;> simp [setPipe,setConn,hd]

theorem setPipe_fd (c d : ConnId) (p : Pipe Byte) :
    ((k.setPipe c p).conns d).fd=(k.conns d).fd := by
  by_cases hd : d=c <;> simp [setPipe,setConn,hd]

/-- Calls change a stream only by reading from it. -/
theorem answer_pipe (hw : k.Wf) {c : Call} (h : k.answer c r=some k') (d : ConnId) :
    (k'.conns d).pipe=(k.conns d).pipe ∨ ∃ fd count bs f,c=.read fd count ∧ r=.data bs ∧
      bs≠[] ∧ bs.length ≤ count ∧ k.table fd=some (.conn d f) ∧
      (k.conns d).pipe.take bs=some (k'.conns d).pipe := by
  cases answer_answers h with
  | @read fd count a bs c p file more fits take =>
    by_cases hd : d=c
    · subst d
      refine .inr ⟨fd,count,bs,a,rfl,rfl,more,fits,file,?_⟩
      rw [take,setPipe_pipe,if_pos rfl]
    · exact .inl (by rw [setPipe_pipe,if_neg hd])
  | accept => exact .inl (accept_conns _ _ _ d).1
  | @write _ _ _ _ c => by_cases hd : d=c <;> simp [setConn,hd]
  | close => exact .inl (close_pipe _ d)
  | connect =>
    left
    by_cases hd : d=k.born
    · simp [hd,hw.unborn k.born le_rfl]
    · simp [hd]
  | _ => exact .inl rfl

/-- What only `accept`, `connect` and `close` change. -/
def Fixed (k l : Kernel) : Prop :=
  (∀ d,(l.conns d).fd=(k.conns d).fd) ∧ l.born=k.born ∧ l.backlog=k.backlog

theorem answer_fixed {c : Call} (hc : c.attaches=false) (h : k.answer c r=some k') :
    k.Fixed k' := by
  cases answer_answers h with
  | accept | connect | close => cases hc
  | read => exact ⟨fun d => setPipe_fd _ d _,rfl,rfl⟩
  | @write _ _ _ _ c =>
    refine ⟨fun d => ?_,rfl,rfl⟩
    by_cases hd : d=c <;> simp [setConn,hd]
  | _ => exact ⟨fun _ => rfl,rfl,rfl⟩

/-- Nothing outside the process takes bytes from a stream or takes back any. -/
theorem env_pipe (hw : k.Wf) (e : Env) (h : k.env e=some k') (d : ConnId) :
    (k.conns d).pipe.Grows (k'.conns d).pipe ∧
      (k'.conns d).pipe.taken=(k.conns d).pipe.taken ∧ (k'.conns d).fd=(k.conns d).fd := by
  have refl := Pipe.Grows.refl (k.conns d).pipe
  have update {c : ConnId} {p : Pipe Byte} (hg : (k.conns c).pipe.Grows p)
      (ht : p.taken=(k.conns c).pipe.taken) :
      (k.conns d).pipe.Grows ((k.setPipe c p).conns d).pipe ∧
        ((k.setPipe c p).conns d).pipe.taken=(k.conns d).pipe.taken ∧
        ((k.setPipe c p).conns d).fd=(k.conns d).fd := by
    rw [setPipe_pipe,setPipe_fd]
    by_cases hd : d=c
    · subst d
      simpa using ⟨hg,ht⟩
    · simpa [hd] using refl
  cases env_evolves h with
  | connect =>
    by_cases hd : d=k.born
    · have young := hw.unborn k.born le_rfl
      subst d
      simpa [notify,young] using Pipe.Grows.refl _
    · simpa [notify,hd] using refl
  | send _ pipe => exact update (Pipe.send_grows pipe) (Pipe.send_spec _ _ _ pipe).2.2.2.2.2.2.2
  | shut => exact update (Pipe.shut_grows _) rfl
  | arrive _ pipe =>
    rw [wake_conns]
    exact update (Pipe.arrive_grows pipe) (Pipe.arrive_spec _ _ _ pipe).2.2.2.2.2.2
  | finish _ pipe =>
    rw [wake_conns]
    exact update (Pipe.finish_grows pipe) (Pipe.finish_spec _ _ pipe).2.2.2.2.2.2.2
  | tear =>
    rw [wake_conns]
    exact update (Pipe.tear_grows _ _) rfl
  | prune | openForeign => exact ⟨refl,rfl,rfl⟩
  | @closeForeign n file =>
    have other : (k.conns d).fd≠some n := by
      intro hd
      obtain ⟨f,hf⟩ := hw.owner d n hd
      rw [file] at hf
      cases hf
    rw [close_pipe,close_fd hw,if_neg other]
    exact ⟨refl,rfl,rfl⟩

/-- What the outside does to the stream of a connection that is there. -/
theorem env_shifts (e : Env) (h : k.env e=some k') {d : ConnId} (hd : d<k.born) :
    (k'.conns d).pipe=(k.conns d).pipe ∨ (k.conns d).pipe.Shifts (k'.conns d).pipe := by
  have update {c : ConnId} {p : Pipe Byte} (hp : (k.conns c).pipe.Shifts p) :
      ((k.setPipe c p).conns d).pipe=(k.conns d).pipe ∨
        (k.conns d).pipe.Shifts ((k.setPipe c p).conns d).pipe := by
    rw [setPipe_pipe]
    by_cases hc : d=c
    · subst d
      exact .inr (by simpa using hp)
    · exact .inl (if_neg hc)
  cases env_evolves h with
  | connect =>
    left
    simp [notify,Nat.ne_of_lt hd]
  | send _ pipe => exact update (.send pipe)
  | shut => exact update .shut
  | arrive _ pipe =>
    rw [wake_conns]
    exact update (.arrive pipe)
  | finish _ pipe =>
    rw [wake_conns]
    exact update (.finish pipe)
  | tear =>
    rw [wake_conns]
    exact update (.tear _)
  | prune | openForeign => exact .inl rfl
  | closeForeign => exact .inl (close_pipe _ d)

/-- Only a reset breaks a stream. -/
theorem env_unbroken (e : Env) (h : k.env e=some k') {d : ConnId} (hd : d<k.born)
    (calm : ∀ n,e≠.tear d n) (whole : (k.conns d).pipe.ending≠.broken) :
    (k'.conns d).pipe.ending≠.broken := by
  have update {c : ConnId} {p : Pipe Byte} (hp : d=c → p.ending≠.broken) :
      ((k.setPipe c p).conns d).pipe.ending≠.broken := by
    rw [setPipe_pipe]
    split
    · rename_i hc
      exact hp hc
    · exact whole
  cases env_evolves h with
  | connect => simpa [notify,Nat.ne_of_lt hd] using whole
  | send _ pipe => exact update fun _ => by simp [(Pipe.send_spec _ _ _ pipe).2.2.1]
  | shut => exact update fun hc => hc ▸ whole
  | arrive _ pipe =>
    rw [wake_conns]
    exact update fun _ => by simp [(Pipe.arrive_spec _ _ _ pipe).2.1]
  | finish _ pipe =>
    rw [wake_conns]
    exact update fun _ => by simp [(Pipe.finish_spec _ _ pipe).2.2.1]
  | @tear c n =>
    rw [wake_conns]
    exact update fun hc => absurd (congrArg (Env.tear · n) hc.symm) (calm n)
  | prune | openForeign => exact whole
  | closeForeign =>
    rw [close_pipe]
    exact whole

/-- Only what arrives adds to what there is to read. -/
theorem env_unread (e : Env) (h : k.env e=some k') {d : ConnId} (hd : d<k.born)
    (ha : ∀ n,e≠.arrive d n) :
    (k'.conns d).pipe.unread.length≤(k.conns d).pipe.unread.length := by
  have update {c : ConnId} {p : Pipe Byte}
      (hp : d=c → p.unread.length≤(k.conns c).pipe.unread.length) :
      ((k.setPipe c p).conns d).pipe.unread.length≤(k.conns d).pipe.unread.length := by
    rw [setPipe_pipe]
    split
    · rename_i hc
      subst d
      exact hp rfl
    · exact le_rfl
  cases env_evolves h with
  | connect => simp [notify,Nat.ne_of_lt hd]
  | send _ pipe => exact update fun _ => by rw [(Pipe.send_spec _ _ _ pipe).2.2.2.2.2.2.1]
  | shut => exact update fun _ => le_rfl
  | @arrive c n =>
    rw [wake_conns]
    exact update fun hc => absurd (by rw [hc]) (ha n)
  | finish _ pipe =>
    rw [wake_conns]
    exact update fun _ => by rw [(Pipe.finish_spec _ _ pipe).2.2.2.2.2.2.1]
  | @tear c n =>
    rw [wake_conns]
    refine update fun _ => ?_
    show ((k.conns c).pipe.unread.take n).length≤_
    rw [List.length_take]
    exact min_le_right _ _
  | prune | openForeign => exact le_rfl
  | closeForeign => rw [close_pipe]

/-- Nobody watches -1, so nothing changes when its entry is dropped. -/
theorem env_idle (hw : k.Wf) : k.env (.prune 0 (-1))=some k := by
  have closed := hw.minus_one
  have absent : (-1 : Fd)∉(k.polls 0).ready := fun hm =>
    hw.watched 0 (-1) ((k.polls 0).registered _ hm) closed
  have same : (k.polls 0).prune (-1)=k.polls 0 := by
    simp [Poll.prune,Finset.erase_eq_of_notMem absent]
  simp [env,readable,closed,same]

/-- Two connections are never open under one number. -/
theorem sole_connection (hw : k.Wf) {fd : Fd} {c : ConnId} {f : Nat}
    (hc : k.table fd=some (.conn c f)) :
    (k.conns c).fd=some fd ∧ ∀ d,(k.conns d).fd=some fd → d=c := by
  refine ⟨(hw.attached fd c f hc).1,fun d hd => ?_⟩
  obtain ⟨g,hg⟩ := hw.owner d fd hd
  rw [hc] at hg
  cases hg
  rfl

/-- Who waits in the backlog of a listening socket waits until accepted, or until the socket is
closed. -/
theorem answer_queued {c : Call} (h : k.answer c r=some k') {l : Fd} {f : Nat} {d : ConnId}
    (file : k.table l=some (.listener f)) (queued : d∈k.backlog l) :
    (∃ f,k'.table l=some (.listener f)) ∧ d∈k'.backlog l ∨ c=.close l ∨
      c=.accept l ∧ ∃ n,r=.conn n d := by
  have away {n : Fd} (fresh : k.fresh n=true) : l≠n := by
    rintro rfl
    rw [((k.fresh_iff l).mp fresh).2] at file
    cases file
  cases answer_answers h with
  | same | epollAdd | epollDel | harvest | read | write => exact .inl ⟨⟨f,file⟩,queued⟩
  | socket fresh | epollCreate fresh => exact .inl ⟨⟨f,by simp [away fresh,file]⟩,queued⟩
  | @setFlags x n g other =>
    refine .inl ⟨?_,queued⟩
    by_cases hx : l=x
    · subst x
      rw [file] at other
      cases other
      exact ⟨n,by simp [File.withFlags]⟩
    · exact ⟨f,by simp [hx,file]⟩
  | @listen x g _ _ =>
    refine .inl ⟨?_,queued⟩
    by_cases hx : l=x
    · exact ⟨g,by simp [hx]⟩
    · exact ⟨f,by simp [hx,file]⟩
  | @accept x n c fresh head =>
    by_cases hx : x=l
    · subst x
      by_cases hd : c=d
      · exact .inr (.inr ⟨rfl,n,by rw [hd]⟩)
      · refine .inl ⟨⟨f,by simp [away fresh,file]⟩,?_⟩
        cases hq : k.backlog l with
        | nil =>
          rw [hq] at queued
          cases queued
        | cons b rest =>
          rw [hq] at head queued
          obtain rfl : b=c := by simpa using head
          have later : d∈rest := (List.mem_cons.mp queued).resolve_left (Ne.symm hd)
          simpa [Kernel.accept,hq] using later
    · exact .inl ⟨⟨f,by simp [away fresh,file]⟩,by simpa [Kernel.accept,Ne.symm hx] using queued⟩
  | @close x =>
    by_cases hx : x=l
    · exact .inr (.inl (by rw [hx]))
    · refine .inl ⟨⟨f,by rw [close_table,if_neg (Ne.symm hx),file]⟩,?_⟩
      unfold close
      split
      · exact queued
      · simpa [Ne.symm hx] using queued
  | @connect x _ _ other =>
    have out : l≠x := by
      rintro rfl
      rw [file] at other
      cases other
    exact .inl ⟨⟨f,by simp [out,file]⟩,queued⟩

theorem env_queued (e : Env) (h : k.env e=some k') {l : Fd} {f : Nat} {d : ConnId}
    (file : k.table l=some (.listener f)) (queued : d∈k.backlog l) :
    k'.table l=some (.listener f) ∧ d∈k'.backlog l := by
  cases env_evolves h with
  | @connect x =>
    refine ⟨file,?_⟩
    by_cases hx : l=x
    · subst x
      simp [notify,queued]
    · simpa [notify,hx] using queued
  | send | shut | prune => exact ⟨file,queued⟩
  | arrive | finish | tear =>
    unfold wake
    split <;> exact ⟨file,queued⟩
  | @openForeign x fresh =>
    have out : l≠x := by
      rintro rfl
      rw [((k.fresh_iff l).mp fresh).2] at file
      cases file
    exact ⟨by simp [out,file],queued⟩
  | @closeForeign x foreign =>
    have out : l≠x := by
      rintro rfl
      rw [file] at foreign
      cases foreign
    refine ⟨by rw [close_table,if_neg out,file],?_⟩
    simpa [close,foreign,out] using queued

/-- Peers wait at listening sockets only. -/
def Queues (k : Kernel) : Prop := ∀ l c,c∈k.backlog l → ∃ f,k.table l=some (.listener f)

theorem boot_queues (foreign : List Fd) : (boot foreign).Queues := by
  intro l c hc
  cases hc

/-- A descriptor at which nobody waits may become anything. -/
theorem Queues.update (h : k.Queues) {n : Fd} {g : Option File}
    (hn : ∀ f,k.table n=some (.listener f) → ∃ f,g=some (.listener f)) :
    ∀ l c,c∈k.backlog l → ∃ f,Function.update k.table n g l=some (.listener f) := by
  intro l c hc
  obtain ⟨f,hf⟩ := h l c hc
  by_cases hl : l=n
  · subst l
    simpa using hn f hf
  · exact ⟨f,by simp [hl,hf]⟩

theorem Queues.close (h : k.Queues) (n : Fd) : (k.close n).Queues := by
  intro l c hc
  unfold Kernel.close at hc ⊢
  split at hc
  · exact h l c hc
  · by_cases hl : l=n
    · simp [hl] at hc
    · obtain ⟨f,hf⟩ := h l c (by simpa [hl] using hc)
      exact ⟨f,by simp [hl,hf]⟩

theorem Queues.nobody (h : k.Queues) {l : Fd} (hl : ∀ f,k.table l≠some (.listener f)) :
    k.backlog l=[] := by
  apply List.eq_nil_iff_forall_not_mem.mpr
  intro c hc
  obtain ⟨f,hf⟩ := h l c hc
  exact hl f hf

theorem Queues.close_backlog (h : k.Queues) (n l : Fd) :
    (k.close n).backlog l=if l=n then [] else k.backlog l := by
  by_cases hl : l=n
  · subst l
    rw [if_pos rfl]
    refine (h.close n).nobody ?_
    intro f hf
    rw [close_table,if_pos rfl] at hf
    cases hf
  · rw [if_neg hl]
    unfold Kernel.close
    split
    · rfl
    · simp [hl]

theorem answer_queues (h : k.Queues) {c : Call} (hk : k.answer c r=some k') : k'.Queues := by
  have new {n : Fd} (fresh : k.fresh n=true) {g : Option File} :
      ∀ f,k.table n=some (.listener f) → ∃ f,g=some (.listener f) := by
    intro f hf
    rw [((k.fresh_iff n).mp fresh).2] at hf
    cases hf
  cases answer_answers hk with
  | same | epollAdd | epollDel | harvest | read | write => exact h
  | socket fresh | epollCreate fresh => exact h.update (new fresh)
  | setFlags file =>
    refine h.update ?_
    intro f hf
    rw [file] at hf
    cases hf
    exact ⟨_,rfl⟩
  | listen => exact h.update fun f _ => ⟨_,rfl⟩
  | @accept l n c fresh head =>
    intro x d hd
    refine h.update (new fresh) x d ?_
    by_cases hx : x=l
    · subst x
      simp only [Kernel.accept,Function.update_self] at hd
      exact List.mem_of_mem_tail hd
    · simpa [Kernel.accept,hx] using hd
  | close => exact h.close _
  | connect file =>
    refine h.update ?_
    intro f hf
    rw [file] at hf
    cases hf

theorem env_queues (h : k.Queues) (e : Env) (hk : k.env e=some k') : k'.Queues := by
  cases env_evolves hk with
  | @connect l f file =>
    intro x d hd
    by_cases hx : x=l
    · exact ⟨f,hx ▸ file⟩
    · exact h x d (by simpa [notify,hx] using hd)
  | send | shut | prune => exact h
  | arrive | finish | tear =>
    unfold wake
    split <;> exact h
  | openForeign fresh =>
    refine h.update ?_
    intro f hf
    rw [((k.fresh_iff _).mp fresh).2] at hf
    cases hf
  | closeForeign => exact h.close _

/-- Nobody listens in this process. -/
def Unlistening (k : Kernel) : Prop := ∀ fd f,k.table fd≠some (.listener f)

theorem boot_unlistening (foreign : List Fd) : (boot foreign).Unlistening := by
  intro fd f
  simp [boot]

theorem install_unlistening (hl : k.Unlistening) (n : Fd) {g : File} (hg : ∀ f,g≠.listener f) :
    (k.install n g).Unlistening := by
  intro fd f hf
  by_cases hx : fd=n
  · simp only [install_table,if_pos hx,Option.some.injEq] at hf
    exact hg f hf
  · simp only [install_table,if_neg hx] at hf
    exact hl fd f hf

theorem close_unlistening (hl : k.Unlistening) (n : Fd) : (k.close n).Unlistening := by
  intro fd f hf
  rw [close_table] at hf
  split at hf
  · cases hf
  · exact hl fd f hf

theorem answer_unlistening (hl : k.Unlistening) {c : Call} (hc : ∀ fd,c≠.listen fd)
    (h : k.answer c r=some k') : k'.Unlistening := by
  cases answer_answers h with
  | same | epollAdd | epollDel | harvest | read | write => exact hl
  | socket | epollCreate => exact install_unlistening hl _ (by simp)
  | @setFlags fd n f file =>
    apply install_unlistening hl
    intro g hg
    cases f with
    | listener a => exact hl fd a file
    | _ => cases hg
  | listen => exact absurd rfl (hc _)
  | accept => exact install_unlistening hl _ (g := .conn _ 0) (by simp)
  | close => exact close_unlistening hl _
  | connect => exact install_unlistening hl _ (g := .conn k.born _) (by simp)

/-- Without a listening socket nobody connects from outside. -/
theorem env_unlistening (hl : k.Unlistening) (e : Env) (h : k.env e=some k') :
    k'.Unlistening ∧ k'.born=k.born := by
  cases env_evolves h with
  | connect file => exact absurd file (hl _ _)
  | send | shut | prune => exact ⟨hl,rfl⟩
  | arrive | finish | tear =>
    refine ⟨?_,?_⟩
    · intro fd f
      rw [wake_table]
      exact hl fd f
    · exact wake_born _
  | openForeign => exact ⟨install_unlistening hl _ (by simp),rfl⟩
  | @closeForeign n file =>
    refine ⟨close_unlistening hl n,?_⟩
    unfold close
    split <;> rfl

end TuyulNet.Kernel
