import TuyulNet.Server.Outcomes

namespace TuyulNet.Server

open Framework Kernel

/-- The client that has been accepted and not yet put into the epoll set. -/
def Pc.newcomer : Pc → Option Fd
  | .getFl fd (.client _) | .setFl fd _ (.client _) | .addClient fd _ | .reject fd _ => some fd
  | _ => none

/-- In a batch that began in `k`: pending events still belong to the connections that they
were returned for, and what is accepted was not connected before. -/
structure Along (k : Kernel) (i : Impl) (s : State) : Prop where
  owned : Owned s
  began : k.Wf ∧ k.connection i.serverFd=none
  impl : s.impl=i
  epoll : i.epollFd≠-1
  inBatch : s.pc.inBatch=true
  listener : ∃ f,s.kernel.table i.serverFd=some (.listener f) ∧ nonblocking f=true
  kept : ∀ fd∈s.pc.pending,fd≠i.serverFd →
    ∃ c,(k.conns c).fd=some fd ∧ (s.kernel.conns c).fd=some fd
  fds : ∀ c fd,(k.conns c).fd=some fd →
    (s.kernel.conns c).fd=none ∨ (s.kernel.conns c).fd=some fd
  guests : ∀ c∈s.kernel.backlog i.serverFd,(k.conns c).fd=none
  newcomer : ∀ fd,s.pc.newcomer=some fd → s.kernel.watch i.epollFd fd=none ∧
    ∃ c,(s.kernel.conns c).fd=some fd ∧ (k.conns c).fd=none
  once : ((s.pc.agenda k.connection s.kernel.connection).map Prod.fst).Nodup

theorem inBatch_fresh {pc : Pc} (h : pc.inBatch=true) : pc.staleEpoll=false := by
  cases pc with
  | cleanup stage code => cases h
  | _ => rfl

section steps

variable {k k' : Kernel} {i : Impl} {s t : State} {q : Pc} {r : Reply} {trace : Trace} {fd : Fd}
  {rest : List Fd} {lines : Trace} {count : Nat} {o : Outcomes count} {n : List (ConnId × Notice)}

/-- A client is not the listening socket. -/
theorem Along.client_ne (h : Along k i s) (hp : s.pc.client=some fd) : fd≠i.serverFd := by
  rintro rfl
  obtain ⟨f,hf,-⟩ := h.listener
  obtain ⟨c,g,hg⟩ := h.owned.shape.client _ hp
  rw [hf] at hg
  cases hg

/-- The listening socket stays what it is. -/
theorem Along.listens (h : Along k i s) (hk : s.kernel.answer (s.pc.call s.impl) r=some k') :
    ∃ f,k'.table i.serverFd=some (.listener f) ∧ nonblocking f=true := by
  obtain ⟨f,hf,hb⟩ := h.listener
  refine ⟨f,?_,hb⟩
  have client {fd : Fd} (hp : s.pc.client=some fd) : i.serverFd≠fd := (h.client_ne hp).symm
  have epoll : i.serverFd≠s.impl.epollFd := by
    intro e
    have instance' := h.owned.shape.epoll (by rw [h.impl]; exact h.epoll)
      (inBatch_fresh h.inBatch)
    rw [← e,hf] at instance'
    cases instance'
  have elsewhere (names : i.serverFd∉(s.pc.call s.impl).names) :
      k'.table i.serverFd=some (.listener f) :=
    ((answer_elsewhere h.owned.wf hk names (by simp [hf])).1).trans hf
  have inside := h.inBatch
  cases hp : s.pc with
  | accept rest =>
    rw [hp] at hk
    rcases answerAccept_cases hk with ⟨m,c,f',-,-,fresh,-,rfl⟩|⟨e,-,rfl,-⟩
    · have other : i.serverFd≠m := by
        rintro rfl
        rw [((s.kernel.fresh_iff _).mp fresh).2] at hf
        cases hf
      simpa [other] using hf
    · exact hf
  | getFl fd caller | setFl fd flags caller =>
    rw [hp] at inside
    cases caller with
    | setup => cases inside
    | client rest =>
      have other : i.serverFd≠fd := client (by rw [hp]; rfl)
      apply elsewhere
      simp [hp,Pc.call,Call.names,other]
  | read fd rest | closeClient fd rest | reject fd rest =>
    have other : i.serverFd≠fd := client (by rw [hp]; rfl)
    apply elsewhere
    simp [hp,Pc.call,Call.names,other]
  | addClient fd rest | delClient fd rest =>
    have other : i.serverFd≠fd := client (by rw [hp]; rfl)
    apply elsewhere
    simp [hp,Pc.call,Call.names,other,epoll]
  | batch fds =>
    apply elsewhere
    simp [hp,Pc.call,Call.names]
  | deliver fd bs rest =>
    apply elsewhere
    simp [hp,Pc.call,Call.names]
  | _ =>
    rw [hp] at inside
    cases inside

theorem Along.turns {key : Option ConnId} {stage stage' : Stage}
    {l : List (Option ConnId × Stage)} (h : Along k i s)
    (before : s.pc.agenda k.connection s.kernel.connection=(key,stage)::l)
    (after : t.pc.agenda k.connection t.kernel.connection=(key,stage')::l ∨
      stage'=.idle ∧ t.pc.agenda k.connection t.kernel.connection=l) :
    Turns k s t key stage stage' ∧
      ((t.pc.agenda k.connection t.kernel.connection).map Prod.fst).Nodup := by
  have once := h.once
  rw [before] at once
  obtain ⟨alone,others⟩ := List.nodup_cons.mp once
  rcases after with after|⟨done,after⟩
  · refine ⟨⟨l,before,.inl after⟩,?_⟩
    rw [after]
    exact once
  · refine ⟨⟨l,before,.inr ⟨done,alone,after⟩⟩,?_⟩
    rw [after]
    exact others

/-- A step that attaches no descriptor to a connection and detaches none. -/
theorem Along.goto (h : Along k i s) (owned : Owned t)
    (listener : ∃ f,t.kernel.table i.serverFd=some (.listener f) ∧ nonblocking f=true)
    (impl : t.impl=s.impl) (inBatch : t.pc.inBatch=true)
    (fds : ∀ d,(t.kernel.conns d).fd=(s.kernel.conns d).fd)
    (backlog : t.kernel.backlog=s.kernel.backlog)
    (once : ((t.pc.agenda k.connection t.kernel.connection).map Prod.fst).Nodup)
    (pending : ∀ fd∈t.pc.pending,fd∈s.pc.pending)
    (newcomer : ∀ fd,t.pc.newcomer=some fd →
      s.pc.newcomer=some fd ∧ t.kernel.watch i.epollFd fd=s.kernel.watch i.epollFd fd) :
    Along k i t := by
  refine ⟨owned,h.began,impl.trans h.impl,h.epoll,inBatch,listener,?_,?_,?_,?_,once⟩
  · intro fd hm hne
    obtain ⟨c,began,now⟩ := h.kept fd (pending fd hm) hne
    exact ⟨c,began,(fds c).trans now⟩
  · intro c fd began
    rw [fds]
    exact h.fds c fd began
  · intro c hc
    rw [backlog] at hc
    exact h.guests c hc
  · intro fd hq
    obtain ⟨hp,hw⟩ := newcomer fd hq
    obtain ⟨unhooked,c,now,guest⟩ := h.newcomer fd hp
    exact ⟨hw.trans unhooked,c,(fds c).trans now,guest⟩

/-- A step that changes no connection. -/
theorem Along.still {key : Option ConnId} {stage : Stage} {l : List (Option ConnId × Stage)}
    (h : Along k i s) (stage' : Stage) (owned : Owned t)
    (listener : ∃ f,t.kernel.table i.serverFd=some (.listener f) ∧ nonblocking f=true)
    (impl : t.impl=s.impl) (inBatch : t.pc.inBatch=true)
    (same : ∀ d,(t.kernel.conns d).pipe=(s.kernel.conns d).pipe ∧
      (t.kernel.conns d).fd=(s.kernel.conns d).fd)
    (backlog : t.kernel.backlog=s.kernel.backlog)
    (before : s.pc.agenda k.connection s.kernel.connection=(key,stage)::l)
    (after : t.pc.agenda k.connection t.kernel.connection=(key,stage')::l ∨
      stage'=.idle ∧ t.pc.agenda k.connection t.kernel.connection=l)
    (pending : ∀ fd∈t.pc.pending,fd∈s.pc.pending)
    (newcomer : ∀ fd,t.pc.newcomer=some fd →
      s.pc.newcomer=some fd ∧ t.kernel.watch i.epollFd fd=s.kernel.watch i.epollFd fd)
    (next : ∀ x : Part,x.stage=stage → (∀ c,owner k c=key → x.seats c=s.seat n c) →
      (key=none → x.queue=s.kernel.backlog i.serverFd) →
      (parts o i.dataCb).next key x=some (x.goto stage')) :
    Along k i t ∧ (parts o i.dataCb).Moves (s.part k n) (t.part k n) := by
  obtain ⟨turns,once⟩ := h.turns before after
  refine ⟨h.goto owned listener impl inBatch (fun d => (same d).2) backlog once pending newcomer,?_⟩
  apply turns.still (by rw [backlog,impl]) fun d => by simp [State.seat,same d]
  rw [h.impl]
  exact next

/-- The next event is taken up. -/
theorem take_up (h : Along k i s) (hp : s.pc=.batch (fd::rest))
    (hq : q=if fd=s.impl.serverFd then .accept rest else .read fd rest)
    (owned : Owned ⟨s.impl,q,s.kernel,trace⟩) : Along k i ⟨s.impl,q,s.kernel,trace⟩ ∧
      (parts o i.dataCb).Moves (s.part k n) (State.part k ⟨s.impl,q,s.kernel,trace⟩ n) := by
  have impl := h.impl
  have before : s.pc.agenda k.connection s.kernel.connection=
      (k.connection fd,.queued fd)::queued k.connection rest := by rw [hp]; rfl
  by_cases hfd : fd=s.impl.serverFd
  · have door : k.connection fd=none := by rw [hfd,impl]; exact h.began.2
    rw [if_pos hfd] at hq
    subst hq
    rw [door] at before
    apply h.still .accepting owned h.listener rfl rfl (fun _ => ⟨rfl,rfl⟩) rfl before (.inl rfl)
    · intro x hx
      rw [hp]
      exact List.mem_cons_of_mem _ hx
    · simp [Pc.newcomer]
    · intro x hx _ _
      simp [parts,doorNext,hx]
  · obtain ⟨c,began,-⟩ := h.kept fd (by rw [hp]; exact List.mem_cons_self) (impl ▸ hfd)
    have client : k.connection fd=some c := h.began.1.connection.mpr began
    rw [if_neg hfd] at hq
    subst hq
    apply h.still (.reading fd) owned h.listener rfl rfl (fun _ => ⟨rfl,rfl⟩) rfl before (.inl rfl)
    · intro x hx
      rw [hp]
      exact hx
    · simp [Pc.newcomer]
    · intro x hx _ _
      simp [client,parts,clientNext,hx]

/-- The connection behind the event that is being handled is the one it was returned for. -/
theorem Along.client (h : Along k i s) (hp : s.pc.client=some fd)
    (hm : ∃ rest,s.pc.pending=fd::rest) :
    ∃ c f,k.connection fd=some c ∧ owner k c=some c ∧ (s.kernel.conns c).fd=some fd ∧
      s.kernel.table fd=some (.conn c f) := by
  obtain ⟨rest,hm⟩ := hm
  obtain ⟨c,began,now⟩ := h.kept fd (by rw [hm]; exact List.mem_cons_self) (h.client_ne hp)
  obtain ⟨f,hf⟩ := h.owned.wf.owner c fd now
  exact ⟨c,f,h.began.1.connection.mpr began,by simp [owner,began],now,hf⟩

/-- A read takes the front of the stream, or changes nothing. -/
theorem read_along (h : Along k i s) (hp : s.pc=.read fd rest) (hf : Follows o s r)
    {size : Nat} (hk : s.kernel.answer (.read fd size) r=some k')
    (hn : drainNext s.impl (.read fd rest) r=some (s.impl,q,lines))
    (owned : Owned ⟨s.impl,q,k',trace⟩)
    (listener : ∃ f,k'.table i.serverFd=some (.listener f) ∧ nonblocking f=true) :
    Along k i ⟨s.impl,q,k',trace⟩ ∧
      (parts o i.dataCb).Moves (s.part k n) (State.part k ⟨s.impl,q,k',trace⟩ n) := by
  obtain ⟨c,f,client,own,now,file⟩ := h.client (by rw [hp]; rfl) ⟨rest,by rw [hp]; rfl⟩
  have foreseen : r=o.read c (s.kernel.conns c).pipe :=
    hf.here hp c (h.owned.wf.connection.mpr now)
  have before : s.pc.agenda k.connection s.kernel.connection=
      (some c,.reading fd)::queued k.connection rest := by rw [hp,← client]; rfl
  have fds : ∀ fd',fd'∈rest → fd'∈s.pc.pending := by
    intro x hx
    rw [hp]
    exact List.mem_cons_of_mem _ hx
  have pending : ∀ x∈fd::rest,x∈s.pc.pending := by
    intro x hx
    rw [hp]
    exact hx
  have hk : s.kernel.answerRead fd size r=some k' := hk
  rcases answerRead_cases file hk with ⟨bs,rfl,more,-,p,take,rfl⟩|⟨rfl,rfl,-⟩|⟨e,rfl,rfl,-⟩
  · simp only [drainNext,if_neg more,Option.some.injEq,Prod.mk.injEq,true_and] at hn
    -- the data goes to the callback if there is one
    have gone : q.inBatch=true ∧ q.pending=fd::rest ∧ q.newcomer=none ∧
        q.agenda k.connection (s.kernel.setPipe c p).connection=
          (some c,if i.dataCb=true then .delivering fd bs else .reading fd)::
            queued k.connection rest := by
      rw [← hn.1,h.impl,← client]
      split <;> exact ⟨rfl,rfl,rfl,rfl⟩
    obtain ⟨inBatch,same,settled,after⟩ := gone
    obtain ⟨turns,once⟩ := h.turns (t := ⟨s.impl,q,s.kernel.setPipe c p,trace⟩) before (.inl after)
    refine ⟨h.goto owned listener rfl inBatch (fun d => setPipe_fd c d p) rfl once ?_ ?_,?_⟩
    · intro x hx
      exact pending x (same ▸ hx)
    · intro x hx
      rw [show q.newcomer=some x from hx] at settled
      cases settled
    · apply turns.changes c own (fun _ => rfl)
      · intro d hd
        simp [State.seat,setPipe_pipe,setPipe_fd,hd]
      · intro x hx seat _
        simp [parts,clientNext,hx,seat,State.seat,← foreseen,more,take,setPipe_pipe,setPipe_fd]
  · cases hn
    apply h.still (.leaving fd) owned listener rfl rfl (fun _ => ⟨rfl,rfl⟩) rfl before
      (.inl (by rw [← client]; rfl)) pending (by simp [Pc.newcomer])
    intro x hx seats _
    simp [parts,clientNext,hx,seats c own,State.seat,← foreseen]
  · simp only [drainNext] at hn
    split at hn
    · rename_i block
      cases hn
      apply h.still .idle owned listener rfl rfl (fun _ => ⟨rfl,rfl⟩) rfl before
        (.inr ⟨rfl,rfl⟩) fds (by simp [Pc.newcomer])
      intro x hx seats _
      simp [parts,clientNext,hx,seats c own,State.seat,← foreseen,block]
    · rename_i hard
      cases hn
      apply h.still (.leaving fd) owned listener rfl rfl (fun _ => ⟨rfl,rfl⟩) rfl before
        (.inl (by rw [← client]; rfl)) pending (by simp [Pc.newcomer])
      intro x hx seats _
      simp [parts,clientNext,hx,seats c own,State.seat,← foreseen,hard]

/-- The data callback is called for the connection that was read. -/
theorem deliver_along {bs : Bytes} (h : Along k i s) (hp : s.pc=.deliver fd bs rest)
    (owned : Owned ⟨s.impl,.read fd rest,s.kernel,trace⟩) :
    Along k i ⟨s.impl,.read fd rest,s.kernel,trace⟩ ∧
      (parts o i.dataCb).Moves (s.part k n) (State.part k
        ⟨s.impl,.read fd rest,s.kernel,trace⟩ (s.notices (.reactor r)++n)) := by
  obtain ⟨c,f,client,own,now,file⟩ := h.client (by rw [hp]; rfl) ⟨rest,by rw [hp]; rfl⟩
  have before : s.pc.agenda k.connection s.kernel.connection=
      (some c,.delivering fd bs)::queued k.connection rest := by rw [hp,← client]; rfl
  have noted : s.notices (.reactor r)=[(c,.data fd bs)] := by
    simp [State.notices,hp,h.owned.wf.connection.mpr now]
  have after : (Pc.read fd rest).agenda k.connection s.kernel.connection=
      (some c,.reading fd)::queued k.connection rest := by rw [← client]; rfl
  obtain ⟨turns,once⟩ := h.turns (t := ⟨s.impl,.read fd rest,s.kernel,trace⟩) before (.inl after)
  refine ⟨h.goto owned h.listener rfl rfl (fun _ => rfl) rfl once ?_ (by simp [Pc.newcomer]),?_⟩
  · intro x hx
    rw [hp]
    exact hx
  · rw [noted]
    apply turns.changes c own (fun _ => rfl)
    · intro d hd
      simp [State.seat,Ne.symm hd]
    · intro x hx seat _
      simp [parts,clientNext,hx,seat,State.seat]

/-- The descriptor of a connection is closed. -/
theorem close_along {key : Option ConnId} {stage stage' : Stage}
    {l : List (Option ConnId × Stage)} {c : ConnId} {f : Nat} (h : Along k i s)
    (file : s.kernel.table fd=some (.conn c f)) (own : owner k c=key)
    (pending : ∀ x∈q.pending,x∈s.pc.pending ∧ x≠fd) (inBatch : q.inBatch=true)
    (settled : q.newcomer=none) (noted : s.notices (.reactor r)=[(c,.closed)])
    (owned : Owned ⟨s.impl,q,s.kernel.close fd,trace⟩)
    (listener : ∃ f,(s.kernel.close fd).table i.serverFd=some (.listener f) ∧ nonblocking f=true)
    (before : s.pc.agenda k.connection s.kernel.connection=(key,stage)::l)
    (after : q.agenda k.connection (s.kernel.close fd).connection=(key,stage')::l ∨
      stage'=.idle ∧ q.agenda k.connection (s.kernel.close fd).connection=l)
    (next : ∀ x : Part,x.stage=stage → (parts o i.dataCb).next key x=some ((x.put c
      { x.seats c with attached := false,noted := .closed::(x.seats c).noted }).goto stage')) :
    Along k i ⟨s.impl,q,s.kernel.close fd,trace⟩ ∧
      (parts o i.dataCb).Moves (s.part k n) (State.part k
        ⟨s.impl,q,s.kernel.close fd,trace⟩ (s.notices (.reactor r)++n)) := by
  have wf := h.owned.wf
  obtain ⟨now,alone⟩ := sole_connection wf file
  have fds (d : ConnId) : ((s.kernel.close fd).conns d).fd=
      if d=c then none else (s.kernel.conns d).fd := by
    rw [close_fd wf]
    by_cases hd : d=c
    · rw [hd,if_pos rfl,if_pos now]
    · rw [if_neg hd,if_neg fun e => hd (alone d e)]
  have backlog : (s.kernel.close fd).backlog i.serverFd=s.kernel.backlog i.serverFd := by
    obtain ⟨g,hg,-⟩ := listener
    have other : i.serverFd≠fd := by
      rintro e
      rw [close_table,if_pos e] at hg
      cases hg
    simp [Kernel.close,file,other]
  obtain ⟨turns,once⟩ := h.turns (t := ⟨s.impl,q,s.kernel.close fd,trace⟩) before after
  refine ⟨⟨owned,h.began,h.impl,h.epoll,inBatch,listener,?_,?_,?_,?_,once⟩,?_⟩
  · intro x hm hne
    obtain ⟨old,other⟩ := pending x hm
    obtain ⟨d,began,still⟩ := h.kept x old hne
    have hd : d≠c := by
      rintro rfl
      rw [now] at still
      exact other (Option.some.inj still).symm
    exact ⟨d,began,by rw [fds,if_neg hd,still]⟩
  · intro d x began
    rw [fds]
    split
    · exact .inl rfl
    · exact h.fds d x began
  · intro d hd
    rw [backlog] at hd
    exact h.guests d hd
  · intro x hx
    rw [show q.newcomer=some x from hx] at settled
    cases settled
  · rw [noted]
    apply turns.changes c own
    · exact fun _ => h.impl ▸ backlog
    · intro d hd
      simp [State.seat,close_pipe,fds,hd,Ne.symm hd]
    · intro x hx seat queue
      have same : x.wait (if key=none then (s.kernel.close fd).backlog s.impl.serverFd
          else x.queue)=x := by
        split
        · rename_i hk
          rw [h.impl,backlog,← h.impl,← queue hk,Part.wait_queue]
        · exact Part.wait_queue x
      rw [next x hx,seat,same]
      simp [State.seat,close_pipe,fds]

/-- The oldest pending connection gets a number that is not in use. -/
theorem accept_along {m : Fd} {c : ConnId} (h : Along k i s) (hp : s.pc=.accept rest)
    (hf : Follows o s (.conn m c)) (fresh : s.kernel.fresh m=true)
    (head : (s.kernel.backlog s.impl.serverFd).head?=some c)
    (owned : Owned ⟨s.impl,.getFl m (.client rest),s.kernel.accept s.impl.serverFd m c,trace⟩)
    (listener : ∃ f,(s.kernel.accept s.impl.serverFd m c).table i.serverFd=some (.listener f) ∧
      nonblocking f=true) :
    Along k i ⟨s.impl,.getFl m (.client rest),s.kernel.accept s.impl.serverFd m c,trace⟩ ∧
      (parts o i.dataCb).Moves (s.part k n) (State.part k
        ⟨s.impl,.getFl m (.client rest),s.kernel.accept s.impl.serverFd m c,trace⟩ n) := by
  have wf := h.owned.wf
  have unused : s.kernel.table m=none := ((s.kernel.fresh_iff m).mp fresh).2
  have fds (d : ConnId) := (accept_conns (k := s.kernel) s.impl.serverFd m c d).2
  have pipes (d : ConnId) := (accept_conns (k := s.kernel) s.impl.serverFd m c d).1
  obtain ⟨waiting,queue⟩ : ∃ waiting,s.kernel.backlog s.impl.serverFd=c::waiting := by
    cases hb : s.kernel.backlog s.impl.serverFd with
    | nil =>
      rw [hb] at head
      cases head
    | cons d waiting =>
      rw [hb] at head
      cases head
      exact ⟨waiting,rfl⟩
  have oldest : c∈s.kernel.backlog s.impl.serverFd := by rw [queue]; exact List.mem_cons_self
  have idle : (s.kernel.conns c).fd=none := (wf.queued _ c oldest).1
  have guest : (k.conns c).fd=none := h.guests c (h.impl ▸ oldest)
  have rest' : (s.kernel.accept s.impl.serverFd m c).backlog s.impl.serverFd=waiting := by
    simp [Kernel.accept,queue]
  have known : (s.kernel.accept s.impl.serverFd m c).connection m=some c := by
    simp [Kernel.connection]
  have before : s.pc.agenda k.connection s.kernel.connection=
      (none,.accepting)::queued k.connection rest := by rw [hp]; rfl
  have after : (Pc.getFl m (.client rest)).agenda k.connection
      (s.kernel.accept s.impl.serverFd m c).connection=
        (none,.flags c)::queued k.connection rest := by
    simp only [Pc.agenda,known,Option.elim_some]
  obtain ⟨turns,once⟩ := h.turns
    (t := ⟨s.impl,.getFl m (.client rest),s.kernel.accept s.impl.serverFd m c,trace⟩) before
    (.inl after)
  refine ⟨⟨owned,h.began,h.impl,h.epoll,rfl,listener,?_,?_,?_,?_,once⟩,?_⟩
  · intro x hm hne
    obtain ⟨d,began,still⟩ := h.kept x (by rw [hp]; exact hm) hne
    have hd : d≠c := by
      rintro rfl
      rw [guest] at began
      cases began
    exact ⟨d,began,by rw [fds,if_neg hd,still]⟩
  · intro d x began
    have hd : d≠c := by
      rintro rfl
      rw [guest] at began
      cases began
    rw [fds,if_neg hd]
    exact h.fds d x began
  · intro d hd
    rw [← h.impl,rest'] at hd
    apply h.guests d
    rw [← h.impl,queue]
    exact List.mem_cons_of_mem _ hd
  · intro x hx
    cases hx
    refine ⟨?_,c,by rw [fds,if_pos rfl],guest⟩
    by_contra watched
    exact wf.watched i.epollFd m watched unused
  · have allowed : o.accept (some c)=none := head ▸ (hf.here hp).symm
    apply turns.changes c (by simp [owner,guest]) (fun hn => absurd rfl hn)
    · intro d hd
      simp [State.seat,pipes,fds,hd]
    · intro x hx seat waits
      simp [parts,doorNext,hx,seat,waits rfl,queue,allowed,rest',State.seat,pipes,fds]

/-- Setting up a client that was accepted, or giving it up. -/
theorem setup_along (h : Along k i s) (stage : ConnId → Stage) (rest : List Fd)
    (hp : s.pc.newcomer=some fd)
    (before : s.pc.agenda k.connection s.kernel.connection=
      (none,(s.kernel.connection fd).elim .idle stage)::queued k.connection rest)
    (pending : s.pc.pending=rest) (owned : Owned ⟨s.impl,q,k',trace⟩)
    (listener : ∃ f,k'.table i.serverFd=some (.listener f) ∧ nonblocking f=true)
    (same : ∀ d,(k'.conns d).pipe=(s.kernel.conns d).pipe ∧
      (k'.conns d).fd=(s.kernel.conns d).fd)
    (backlog : k'.backlog=s.kernel.backlog)
    (later : q.inBatch=true ∧ q.pending=rest)
    (hooked : ∀ x,q.newcomer=some x → x=fd ∧ k'.watch i.epollFd fd=s.kernel.watch i.epollFd fd)
    (stage' : ConnId → Stage)
    (after : ∀ c,k'.connection fd=some c → q.agenda k.connection k'.connection=
      (none,stage' c)::queued k.connection rest)
    (next : ∀ c,s.kernel.connection fd=some c → ∀ x : Part,x.stage=stage c →
      doorNext o x=some (x.goto (stage' c))) :
    Along k i ⟨s.impl,q,k',trace⟩ ∧
      (parts o i.dataCb).Moves (s.part k n) (State.part k ⟨s.impl,q,k',trace⟩ n) := by
  obtain ⟨-,c,now,-⟩ := h.newcomer fd hp
  have known := h.owned.wf.connection.mpr now
  have known' : k'.connection fd=some c := owned.wf.connection.mpr ((same c).2.trans now)
  rw [known,Option.elim_some] at before
  apply h.still (stage' c) owned listener rfl later.1 same backlog before (.inl (after c known'))
  · intro x hx
    rw [pending,← later.2]
    exact hx
  · intro x hx
    obtain ⟨rfl,hw⟩ := hooked x hx
    exact ⟨hp,hw⟩
  · intro x hx _ _
    exact next c known x hx

/-- A client that could not be set up will be closed. -/
theorem refuse_along {out : ConnId → Option Errno} {e : Errno} (h : Along k i s)
    (stage : ConnId → Stage) (hp : s.pc.newcomer=some fd)
    (before : s.pc.agenda k.connection s.kernel.connection=
      (none,(s.kernel.connection fd).elim .idle stage)::queued k.connection rest)
    (pending : s.pc.pending=rest) (owned : Owned ⟨s.impl,.reject fd rest,s.kernel,trace⟩)
    (foreseen : ∀ c∈s.kernel.connection fd,some e=out c)
    (next : ∀ c (x : Part),x.stage=stage c → out c=some e →
      doorNext o x=some (x.goto (.rejecting c))) :
    Along k i ⟨s.impl,.reject fd rest,s.kernel,trace⟩ ∧
      (parts o i.dataCb).Moves (s.part k n) (State.part k
        ⟨s.impl,.reject fd rest,s.kernel,trace⟩ n) := by
  apply setup_along h stage rest hp before pending owned h.listener (fun _ => ⟨rfl,rfl⟩) rfl
    ⟨rfl,rfl⟩ _ .rejecting
  · intro c known
    simp only [Pc.agenda,known,Option.elim_some]
  · intro c known x hx
    exact next c x hx (foreseen c known).symm
  · intro x hx
    exact ⟨(Option.some.inj hx).symm,rfl⟩

/-- `make_socket_non_blocking` and `epoll_ctl` for a client that was accepted. -/
theorem hook_along (h : Along k i s) (hp : (∃ caller,s.pc=.getFl fd caller) ∨
      (∃ flags caller,s.pc=.setFl fd flags caller) ∨ ∃ rest,s.pc=.addClient fd rest)
    (hf : Follows o s r) (hk : s.kernel.answer (s.pc.call s.impl) r=some k')
    (hn : s.pc.next s.impl r=some (s.impl,q,lines)) (owned : Owned ⟨s.impl,q,k',trace⟩)
    (listener : ∃ f,k'.table i.serverFd=some (.listener f) ∧ nonblocking f=true) :
    Along k i ⟨s.impl,q,k',trace⟩ ∧
      (parts o i.dataCb).Moves (s.part k n) (State.part k ⟨s.impl,q,k',trace⟩ n) := by
  have inside := h.inBatch
  rcases hp with ⟨caller,hp⟩|⟨flags,caller,hp⟩|⟨rest,hp⟩
  · cases caller with
    | setup =>
      rw [hp] at inside
      cases inside
    | client rest =>
      have foreseen : ∀ c∈s.kernel.connection fd,r.failure=o.getFlags c := hf.here hp
      rw [hp] at hk hn
      cases r with
      | flags a =>
        cases hn
        simp only [Pc.call,answer,Option.ite_none_right_eq_some,Option.some.injEq] at hk
        obtain ⟨-,rfl⟩ := hk
        apply setup_along h .flags rest (by rw [hp]; rfl) (by rw [hp]; rfl) (by rw [hp]; rfl)
          owned listener (fun _ => ⟨rfl,rfl⟩) rfl ⟨rfl,rfl⟩ _ .setting
        · intro c known
          simp only [Pc.agenda,known,Option.elim_some]
        · intro c known x hx
          simp [doorNext,hx,← foreseen c known,Reply.failure]
        · intro x hx
          exact ⟨(Option.some.inj hx).symm,rfl⟩
      | fail e =>
        rw [answer_fail (by simp [Pc.call]) hk] at owned ⊢
        cases hn
        apply refuse_along h .flags (by rw [hp]; rfl) (by rw [hp]; rfl) (by rw [hp]; rfl)
          owned foreseen
        intro c x hx out
        simp [doorNext,hx,out]
      | _ => cases hn
  · cases caller with
    | setup =>
      rw [hp] at inside
      cases inside
    | client rest =>
      have foreseen : ∀ c∈s.kernel.connection fd,r.failure=o.setFlags c := hf.here hp
      rw [hp] at hk hn
      cases r with
      | ok =>
        cases hn
        obtain ⟨f,-,rfl⟩ := Option.map_eq_some_iff.mp hk
        apply setup_along h .setting rest (by rw [hp]; rfl) (by rw [hp]; rfl)
          (by rw [hp]; rfl) owned listener (fun _ => ⟨rfl,rfl⟩) rfl ⟨rfl,rfl⟩ _ .hooking
        · intro c known
          simp only [Pc.agenda,known,Option.elim_some]
        · intro c known x hx
          simp [doorNext,hx,← foreseen c known,Reply.failure]
        · intro x hx
          exact ⟨(Option.some.inj hx).symm,install_watch _ _ _ _⟩
      | fail e =>
        rw [answer_fail (by simp [Pc.call]) hk] at owned ⊢
        cases hn
        apply refuse_along h .setting (by rw [hp]; rfl) (by rw [hp]; rfl)
          (by rw [hp]; rfl) owned foreseen
        intro c x hx out
        simp [doorNext,hx,out]
      | _ => cases hn
  · have foreseen : ∀ c∈s.kernel.connection fd,r.failure=o.add c := hf.here hp
    rw [hp] at hk hn
    cases r with
    | ok =>
      cases hn
      rw [epollAdd_cases hk] at owned listener ⊢
      apply setup_along h .hooking rest (by rw [hp]; rfl) (by rw [hp]; rfl)
        (by rw [hp]; rfl) owned listener (fun _ => ⟨rfl,rfl⟩) rfl ⟨rfl,rfl⟩ _ fun _ => .accepting
      · exact fun _ _ => rfl
      · intro c known x hx
        simp [doorNext,hx,← foreseen c known,Reply.failure]
      · simp [Pc.newcomer]
    | fail e =>
      rw [answer_fail (by simp [Pc.call]) hk] at owned ⊢
      cases hn
      apply refuse_along h .hooking (by rw [hp]; rfl) (by rw [hp]; rfl)
        (by rw [hp]; rfl) owned foreseen
      intro c x hx out
      simp [doorNext,hx,out]
    | _ => cases hn

/-- The accept loop ends. -/
theorem exhaust_along {e : Errno} (h : Along k i s) (hp : s.pc=.accept rest)
    (hf : Follows o s (.fail e)) (owned : Owned ⟨s.impl,.batch rest,s.kernel,trace⟩) :
    Along k i ⟨s.impl,.batch rest,s.kernel,trace⟩ ∧
      (parts o i.dataCb).Moves (s.part k n) (State.part k
        ⟨s.impl,.batch rest,s.kernel,trace⟩ n) := by
  have refused : some e=o.accept (s.kernel.backlog s.impl.serverFd).head? := hf.here hp
  have before : s.pc.agenda k.connection s.kernel.connection=
      (none,.accepting)::queued k.connection rest := by rw [hp]; rfl
  apply h.still .idle owned h.listener rfl rfl (fun _ => ⟨rfl,rfl⟩) rfl before (.inr ⟨rfl,rfl⟩)
  · intro x hx
    rw [hp]
    exact hx
  · simp [Pc.newcomer]
  · intro x hx _ queue
    simp [parts,doorNext,hx,queue rfl,← h.impl,← refused]

/-- A client that is done leaves the epoll set, or not; nobody else notices. -/
theorem unhook_along (h : Along k i s) (hp : s.pc=.delClient fd rest) {ep : Fd}
    (hk : s.kernel.answer (.epollDel ep fd) r=some k')
    (owned : Owned ⟨s.impl,.closeClient fd rest,k',trace⟩)
    (listener : ∃ f,k'.table i.serverFd=some (.listener f) ∧ nonblocking f=true) :
    Along k i ⟨s.impl,.closeClient fd rest,k',trace⟩ ∧
      (parts o i.dataCb).Moves (s.part k n) (State.part k
        ⟨s.impl,.closeClient fd rest,k',trace⟩ n) := by
  obtain ⟨c,f,client,own,now,file⟩ := h.client (by rw [hp]; rfl) ⟨rest,by rw [hp]; rfl⟩
  have before : s.pc.agenda k.connection s.kernel.connection=
      (some c,.leaving fd)::queued k.connection rest := by rw [hp,← client]; rfl
  have fixed : s.kernel.Fixed k' := answer_fixed rfl hk
  have pipes (d : ConnId) : (k'.conns d).pipe=(s.kernel.conns d).pipe := by
    rcases answer_pipe h.owned.wf hk d with same|⟨x,a,bs,g,hc,-⟩
    · exact same
    · cases hc
  apply h.still (.closing fd) owned listener rfl rfl (fun d => ⟨pipes d,fixed.1 d⟩) fixed.2.2 before
    (.inl (by rw [← client]; rfl))
  · intro x hx
    rw [hp]
    exact hx
  · simp [Pc.newcomer]
  · intro x hx _ _
    simp [parts,clientNext,hx]

/-- A client that is done is closed. -/
theorem leave_along (h : Along k i s) (hp : s.pc=.closeClient fd rest)
    (owned : Owned ⟨s.impl,.batch rest,s.kernel.close fd,trace⟩)
    (listener : ∃ f,(s.kernel.close fd).table i.serverFd=some (.listener f) ∧ nonblocking f=true) :
    Along k i ⟨s.impl,.batch rest,s.kernel.close fd,trace⟩ ∧
      (parts o i.dataCb).Moves (s.part k n) (State.part k
        ⟨s.impl,.batch rest,s.kernel.close fd,trace⟩ (s.notices (.reactor r)++n)) := by
  obtain ⟨c,f,client,own,now,file⟩ := h.client (by rw [hp]; rfl) ⟨rest,by rw [hp]; rfl⟩
  have before : s.pc.agenda k.connection s.kernel.connection=
      (some c,.closing fd)::queued k.connection rest := by rw [hp,← client]; rfl
  have noted : s.notices (.reactor r)=[(c,.closed)] := by
    simp [State.notices,hp,h.owned.wf.connection.mpr now]
  have alone : fd∉rest := by
    have distinct := h.owned.shape.distinct
    rw [hp] at distinct
    exact (List.nodup_cons.mp distinct).1
  apply close_along h file own _ rfl rfl noted owned listener before (.inr ⟨rfl,rfl⟩)
  · intro x hx
    simp [parts,clientNext,hx]
  · intro x hx
    rw [hp]
    exact ⟨List.mem_cons_of_mem _ hx,fun e => alone (e ▸ hx)⟩

/-- A client that could not be set up is closed. -/
theorem reject_along (h : Along k i s) (hp : s.pc=.reject fd rest)
    (owned : Owned ⟨s.impl,.accept rest,s.kernel.close fd,trace⟩)
    (listener : ∃ f,(s.kernel.close fd).table i.serverFd=some (.listener f) ∧ nonblocking f=true) :
    Along k i ⟨s.impl,.accept rest,s.kernel.close fd,trace⟩ ∧
      (parts o i.dataCb).Moves (s.part k n) (State.part k
        ⟨s.impl,.accept rest,s.kernel.close fd,trace⟩ (s.notices (.reactor r)++n)) := by
  obtain ⟨-,c,now,guest⟩ := h.newcomer fd (by rw [hp]; rfl)
  obtain ⟨f,file⟩ := h.owned.wf.owner c fd now
  have known := h.owned.wf.connection.mpr now
  have before : s.pc.agenda k.connection s.kernel.connection=
      (none,.rejecting c)::queued k.connection rest := by
    simp only [hp,Pc.agenda,known,Option.elim_some]
  have noted : s.notices (.reactor r)=[(c,.closed)] := by
    simp [State.notices,hp,known]
  have alone : fd∉rest := by
    have distinct := h.owned.shape.distinct
    rw [hp] at distinct
    exact (List.nodup_cons.mp distinct).1
  apply close_along h file (by simp [owner,guest]) _ rfl rfl noted owned listener before (.inl rfl)
  · intro x hx
    simp [parts,doorNext,hx]
  · intro x hx
    rw [hp]
    exact ⟨hx,fun e => alone (e ▸ hx)⟩

/-- Whatever the reactor does next in its batch is a move of one part. -/
theorem step_along (h : Along k i s) (hf : Proceeds o s (.reactor r)) (hs : s.reactor r=some t) :
    Along k i t ∧
      (parts o i.dataCb).Moves (s.part k n) (t.part k (s.notices (.reactor r)++n)) := by
  have owned := step_owned s (.reactor r) t h.owned trivial hs
  obtain ⟨on,hf⟩ := hf
  obtain ⟨k',j,q,lines,hk,hn,rfl⟩ := reactor_cases hs
  have listener := h.listens hk
  have inside := h.inBatch
  obtain ⟨rfl,-⟩ := next_work inside hn
  generalize lines++.call (s.pc.call s.impl) r::s.trace=trace at owned ⊢
  cases hp : s.pc with
  | batch fds =>
    rw [show s.notices (.reactor r)++n=n by simp [State.notices,hp]]
    rw [hp] at hk hn on
    cases fds with
    | nil => exact absurd rfl on
    | cons fd rest =>
      cases r with
      | ok =>
        cases hk
        cases hn
        exact take_up h hp rfl owned
      | _ => cases hn
  | accept rest =>
    rw [show s.notices (.reactor r)++n=n by simp [State.notices,hp]]
    rw [hp] at hk hn
    rcases answerAccept_cases hk with ⟨m,c,f,rfl,-,fresh,head,rfl⟩|⟨e,rfl,rfl,-⟩
    · cases hn
      exact accept_along h hp hf fresh head owned listener
    · cases hn
      exact exhaust_along h hp hf owned
  | getFl fd caller =>
    rw [show s.notices (.reactor r)++n=n by simp [State.notices,hp]]
    exact hook_along h (.inl ⟨caller,hp⟩) hf hk hn owned listener
  | setFl fd flags caller =>
    rw [show s.notices (.reactor r)++n=n by simp [State.notices,hp]]
    exact hook_along h (.inr (.inl ⟨flags,caller,hp⟩)) hf hk hn owned listener
  | addClient fd rest =>
    rw [show s.notices (.reactor r)++n=n by simp [State.notices,hp]]
    exact hook_along h (.inr (.inr ⟨rest,hp⟩)) hf hk hn owned listener
  | read fd rest =>
    rw [show s.notices (.reactor r)++n=n by simp [State.notices,hp]]
    rw [hp] at hk hn
    exact read_along h hp hf hk hn owned listener
  | deliver fd bs rest =>
    rw [hp] at hk hn
    cases r with
    | ok =>
      cases hk
      cases hn
      exact deliver_along h hp owned
    | _ => cases hn
  | delClient fd rest =>
    rw [show s.notices (.reactor r)++n=n by simp [State.notices,hp]]
    rw [hp] at hk hn
    have left : q=.closeClient fd rest := by cases r <;> cases hn <;> rfl
    subst left
    exact unhook_along h hp hk owned listener
  | closeClient fd rest =>
    rw [hp] at hk hn
    obtain ⟨rfl,-⟩ := answerClose_cases hk
    have left : q=.batch rest := by cases r <;> cases hn <;> rfl
    subst left
    exact leave_along h hp owned listener
  | reject fd rest =>
    rw [hp] at hk hn
    obtain ⟨rfl,-⟩ := answerClose_cases hk
    have left : q=.accept rest := by cases r <;> cases hn <;> rfl
    subst left
    exact reject_along h hp owned listener
  | _ =>
    rw [hp] at inside
    cases inside

end steps

end TuyulNet.Server
