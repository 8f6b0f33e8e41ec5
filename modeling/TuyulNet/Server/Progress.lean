import TuyulNet.Server.Liveness
import TuyulNet.Server.Restart

namespace TuyulNet.Server

open Framework Kernel

/-- Connection `c` is open as `fd`, and `fd` is in the epoll set. -/
structure Hooked (c : ConnId) (fd : Fd) (s : State) : Prop where
  client : s.kernel.connection fd=some c
  watched : s.kernel.watch s.impl.epollFd fd≠none

/-- The client whose connection is being closed. -/
def Pc.leaver : Pc → Option Fd
  | .delClient fd _ | .closeClient fd _ => some fd
  | _ => none

/-- All along a run without `stop()`: no readiness is lost, and what has just been accepted is
not in the epoll set yet. -/
structure Attentive (s : State) : Prop where
  base : Undisturbed s
  watched : Watched s
  newcomer : ∀ fd,s.pc.newcomer=some fd → s.kernel.watch s.impl.epollFd fd=none

/-- Who is being closed has given a reason. -/
def Parting (s : State) : Prop := ∀ fd c,s.pc.leaver=some fd → s.kernel.connection fd=some c →
  sawEnd c s.trace=true ∨ sawError c s.trace=true

section steps

variable {i j : Impl} {pc q : Pc} {k k' : Kernel} {r : Reply} {lines : Trace} {s t : State}
  {a : Action} {c : ConnId} {fd : Fd}

/-- A newcomer comes from `accept`, or it is still on its way. -/
theorem next_newcomer (hn : pc.next i r=some (j,q,lines)) (hq : q.newcomer=some fd) :
    j=i ∧ ((∃ rest c,pc=.accept rest ∧ r=.conn fd c) ∨ pc.newcomer=some fd ∧
      ((pc.call i).quiet=true ∨ (∃ flags,pc.call i=.setFlags fd flags) ∨
        ∃ e,r=.fail e ∧ ∀ x,pc.call i≠.close x)) := by
  cases pc with
  | accept rest =>
    cases r with
    | conn n c =>
      cases hn
      exact ⟨rfl,.inl ⟨rest,c,rfl,by rw [Option.some.inj hq]⟩⟩
    | fail e =>
      cases hn
      cases hq
    | _ => cases hn
  | getFl x caller =>
    cases caller with
    | setup => cases r <;> cases hn <;> cases hq
    | client rest => cases r <;> cases hn <;> exact ⟨rfl,.inr ⟨hq,.inl rfl⟩⟩
  | setFl x flags caller =>
    cases caller with
    | setup => cases r <;> cases hn <;> cases hq
    | client rest =>
      cases r <;> cases hn <;> cases hq <;> exact ⟨rfl,.inr ⟨rfl,.inr (.inl ⟨_,rfl⟩)⟩⟩
  | addClient x rest =>
    cases r with
    | ok =>
      cases hn
      cases hq
    | fail e =>
      cases hn
      exact ⟨rfl,.inr ⟨hq,.inr (.inr ⟨e,rfl,by simp [Pc.call]⟩)⟩⟩
    | _ => cases hn
  | reject x rest => cases r <;> cases hn <;> cases hq
  | read x rest =>
    simp only [Pc.next,drainNext] at hn
    split at hn <;> (try split at hn) <;> cases hn <;> (try split at hq) <;> cases hq
  | loopHead | epollWait | waiting | batch =>
    simp only [Pc.next] at hn
    unfold loopNext at hn
    split at hn <;> (try split at hn) <;> cases hn <;> cases hq
  | deliver | delClient | closeClient => cases r <;> cases hn <;> cases hq
  | cleanup stage code =>
    simp only [Pc.next] at hn
    unfold cleanupNext at hn
    split at hn <;> cases hn <;> cases hq
  | returned | threw => cases hn
  | _ =>
    simp only [Pc.next] at hn
    unfold setupNext bail at hn
    split at hn <;> cases hn <;> (try split at hq) <;> cases hq

theorem step_attentive (s : State) (a : Action) (t : State) (h : Attentive s)
    (ha : a.isStop=false) (hs : machine.step s a=some t) : Attentive t := by
  obtain ⟨base,watched⟩ := step_watched s a t ⟨h.base,h.watched⟩ ha hs
  refine ⟨base,watched,?_⟩
  obtain ⟨e,k,rfl,hk,rfl⟩|⟨r,rfl,hr⟩ := step_reactor hs ha
  · intro fd hq
    rcases env_watch h.base.owned.wf e hk s.impl.epollFd fd with same|⟨gone,-⟩
    · exact same.trans (h.newcomer fd hq)
    · exact gone
  · obtain ⟨k,i,pc,lines,hk,hn,rfl⟩ := reactor_cases hr
    intro fd hq
    obtain ⟨rfl,⟨rest,c,hp,rfl⟩|⟨hp,hc⟩⟩ := next_newcomer hn hq
    · -- nobody watches a number that is not in use
      rw [hp] at hk
      have hk : s.kernel.answerAccept s.impl.serverFd (.conn fd c)=some k := hk
      rcases answerAccept_cases hk with ⟨n,d,f,reply,-,fresh,-,rfl⟩|⟨e,reply,-⟩
      · cases reply
        by_contra watched
        exact h.base.owned.wf.watched _ _ watched ((s.kernel.fresh_iff _).mp fresh).2
      · cases reply
    · rcases hc with quiet|⟨flags,hc⟩|⟨e,rfl,hc⟩
      · exact ((answer_quiet quiet hk).2 _ _).trans (h.newcomer fd hp)
      · rw [hc] at hk
        rcases answerUnit_cases hk with ⟨-,hk⟩|⟨e,-,rfl⟩
        · obtain ⟨f,-,rfl⟩ := Option.map_eq_some_iff.mp hk
          exact h.newcomer fd hp
        · exact h.newcomer fd hp
      · rw [answer_fail hc hk]
        exact h.newcomer fd hp

/-- Where a client is hooked in, its connection has been made. -/
theorem Hooked.born (h : Hooked c fd s) (hw : s.kernel.Wf) : c<s.kernel.born := by
  obtain ⟨f,file⟩ := connection_some.mp h.client
  exact (hw.attached fd c f file).2

theorem Hooked.readable (h : Hooked c fd s) (hr : (s.kernel.conns c).pipe.readable=true) :
    s.kernel.readable fd=true := by
  obtain ⟨f,file⟩ := connection_some.mp h.client
  simp only [Kernel.readable,file]
  exact hr

/-- A client that is hooked in stays so until its connection is closed. -/
theorem Hooked.step (h : Hooked c fd s) (ha : Attentive s) (going : s.pc.ended=false)
    (nostop : a.isStop=false) (hs : machine.step s a=some t) :
    Hooked c fd t ∨ s.pc.leaver=some fd := by
  obtain ⟨f,file⟩ := connection_some.mp h.client
  obtain ⟨e,k,rfl,hk,rfl⟩|⟨r,rfl,hr⟩ := step_reactor hs nostop
  · refine .inl ⟨(env_connection e hk fd).trans h.client,?_⟩
    rcases env_watch ha.base.owned.wf e hk s.impl.epollFd fd with same|⟨-,foreign⟩
    · exact same ▸ h.watched
    · rw [file] at foreign
      cases foreign
  · obtain ⟨k,i,pc,lines,hk,hn,rfl⟩ := reactor_cases hr
    have setup : s.pc.setup=false := by
      by_contra hp
      exact ha.base.owned.shape.early (by simpa using hp) fd c f file
    obtain rfl := next_fields setup going hn
    have call (hc : s.pc.call s.impl=.epollDel s.impl.epollFd fd ∨ s.pc.call s.impl=.close fd) :
        s.pc.leaver=some fd := by
      cases hp : s.pc with
      | delClient x rest | closeClient x rest => simpa [hp,Pc.call,Pc.leaver] using hc
      | reject x rest =>
        -- whom `start` turns away is not watched
        rw [hp] at hc
        obtain rfl : x=fd := by simpa [Pc.call] using hc
        exact absurd (ha.newcomer x (by rw [hp]; rfl)) h.watched
      | cleanup =>
        rw [hp] at going
        cases going
      | _ => simp [hp,Pc.call] at hc
    have created : s.pc.call s.impl≠.epollCreate := by
      intro hc
      cases hp : s.pc with
      | epollCreate =>
        rw [hp] at setup
        cases setup
      | cleanup =>
        rw [hp] at going
        cases going
      | _ => simp [hp,Pc.call] at hc
    rcases answer_watched ha.base.owned.wf created (call_not_connect s.impl s.pc) hk h.watched with
      ⟨watched,same⟩|hc
    · exact .inl ⟨same.trans h.client,watched⟩
    · exact .inr (call hc)

/-- The entries that `epoll_wait` returns are what is to be dealt with. -/
theorem next_events {es : List PollEvent} (hn : pc.next i (.events es)=some (j,q,lines)) :
    q.pending=es.map PollEvent.fd := by
  cases pc with
  | waiting ep =>
    cases hn
    split
    · rename_i he
      rw [he]
      rfl
    · rfl
  | getFl fd caller | setFl fd flags caller => cases caller <;> cases hn
  | batch fds => cases fds <;> cases hn
  | cleanup stage code => cases stage <;> cases hn
  | _ => cases hn

/-- Only a read that ends the stream leads to the closing of a connection. -/
theorem next_leaver (hn : pc.next i r=some (j,q,lines)) (hq : q.leaver=some fd) :
    pc.leaver=some fd ∨ ∃ rest,pc=.read fd rest ∧ r.endsStream=true := by
  rcases next_cases hn with hn|hn|hn|hn|hn|hn
  · unfold setupNext bail at hn
    split at hn <;> cases hn <;> (try split at hq) <;> cases hq
  · unfold flagsNext blockingFailed bail at hn
    split at hn <;> (try split at hn) <;> cases hn <;> cases hq
  · unfold loopNext at hn
    split at hn <;> (try split at hn) <;> cases hn <;> cases hq
  · unfold acceptNext at hn
    split at hn <;> cases hn <;> cases hq
  · cases pc with
    | read x rest =>
      right
      cases r with
      | data bs =>
        simp only [drainNext] at hn
        split at hn <;> cases hn
        · rename_i hb
          exact ⟨rest,by rw [Option.some.inj hq],by simp [Reply.endsStream,hb]⟩
        · split at hq <;> cases hq
      | fail e =>
        simp only [drainNext] at hn
        split at hn <;> cases hn
        · cases hq
        · rename_i hard
          exact ⟨rest,by rw [Option.some.inj hq],by simp [Reply.endsStream,hard]⟩
      | _ => cases hn
    | delClient => cases r <;> cases hn <;> exact .inl hq
    | deliver | closeClient => cases r <;> cases hn <;> cases hq
    | _ => cases hn
  · unfold cleanupNext at hn
    split at hn <;> cases hn <;> cases hq

section traces

variable {t u : Trace} {e : Event}

theorem sawEnd_cons (h : sawEnd c t=true) : sawEnd c (e::t)=true := by
  unfold sawEnd
  split
  · simp_all
  · simp_all
  · simp_all

theorem sawError_cons (h : sawError c t=true) : sawError c (e::t)=true := by
  unfold sawError
  split <;> simp_all

theorem sawEnd_suffix (h : t<:+u) (saw : sawEnd c t=true) : sawEnd c u=true := by
  obtain ⟨l,rfl⟩ := h
  induction l with
  | nil => exact saw
  | cons e l ih => exact sawEnd_cons ih

theorem sawError_suffix (h : t<:+u) (saw : sawError c t=true) : sawError c u=true := by
  obtain ⟨l,rfl⟩ := h
  induction l with
  | nil => exact saw
  | cons e l ih => exact sawError_cons ih

end traces

theorem step_suffix (nostop : a.isStop=false) (hs : machine.step s a=some t) :
    s.trace<:+t.trace := by
  obtain ⟨e,k,rfl,-,rfl⟩|⟨r,rfl,hr⟩ := step_reactor hs nostop
  · exact List.suffix_refl _
  · obtain ⟨k,i,pc,lines,-,-,rfl⟩ := reactor_cases hr
    exact (List.suffix_cons _ _).trans (List.suffix_append _ _)

theorem step_parting {options : TcpOptions} (h : Faithful options s) (hp : Parting s)
    (ha : a.isStop=false) (hs : machine.step s a=some t) : Parting t := by
  intro fd c hq client
  obtain ⟨e,k,rfl,hk,rfl⟩|⟨r,rfl,hr⟩ := step_reactor hs ha
  · exact hp fd c hq ((env_connection e hk fd).symm.trans client)
  · obtain ⟨k,i,pc,lines,hk,hn,rfl⟩ := reactor_cases hr
    have logs := next_lines hn
    show sawEnd c (lines++_)=true ∨ sawError c (lines++_)=true
    rw [logs.skip (f := sawEnd c) fun _ _ _ => rfl,logs.skip (f := sawError c) fun _ _ _ => rfl]
    have source := next_leaver hn hq
    have before : s.kernel.connection fd=some c := by
      have accepts (l : Fd) : s.pc.call s.impl≠.accept l := by
        rcases source with hl|⟨rest,hr,-⟩
        · cases hpc : s.pc <;> rw [hpc] at hl <;> cases hl <;> simp [Pc.call]
        · simp [hr,Pc.call]
      rcases answer_connection accepts (fun x y e => absurd e (call_not_connect _ _ x y)) hk fd with
        gone|same
      · exact absurd (gone.symm.trans client) (by simp)
      · exact same.symm.trans client
    rcases source with hl|⟨rest,hpc,ends⟩
    · exact (hp fd c hl before).imp sawEnd_cons sawError_cons
    · have opened : openAs c s.trace=some fd :=
        (h.fds c).symm.trans (h.base.owned.wf.connection.mp before)
      rw [hpc]
      cases r with
      | data bs =>
        obtain rfl : bs=[] := by simpa [Reply.endsStream] using ends
        exact .inl (by simp [Pc.call,sawEnd,opened])
      | fail e =>
        have hard : e.wouldBlock=false := by simpa [Reply.endsStream] using ends
        exact .inr (by simp [Pc.call,sawError,opened,hard])
      | _ => cases ends

/-- The three ways in which an entry of a batch is dealt with. -/
theorem dealt_with (going : t.pc.ended=false) (nostop : a.isStop=false)
    (hs : machine.step s a=some t) (hm : fd∈s.pc.pending) (hd : fd∉t.pc.pending) :
    (∃ rest,s.pc=.batch (fd::rest) ∧ fd=s.impl.serverFd ∧ t.pc=.accept rest) ∨
      (∃ rest e,s.pc=.read fd rest ∧ a=.reactor (.fail e) ∧ e.wouldBlock=true) ∨
      ∃ rest,s.pc=.closeClient fd rest := by
  rcases step_point hs (.of_nostop nostop) with ⟨-,-,same⟩|⟨r,lines,rfl,hn⟩
  · exact absurd (same ▸ hm) hd
  · have head {x : Fd} {rest : List Fd} (before : s.pc.pending=x::rest)
        (after : t.pc.pending=rest) : x=fd := by
      rw [before] at hm
      rw [after] at hd
      exact ((List.mem_cons.mp hm).resolve_right hd).symm
    rcases next_pending hn with inactive|setup|⟨-,⟨ep,hp,-⟩|⟨-,hr⟩⟩
    · cases hq : t.pc with
      | socket => exact absurd hq (next_entered hn)
      | cleanup | returned =>
        rw [hq] at going
        cases going
      | _ =>
        rw [hq] at inactive
        cases inactive
    · cases hp : s.pc with
      | getFl x caller | setFl x flags caller =>
        rw [hp] at setup hm
        cases caller with
        | setup => cases hm
        | client rest => cases setup
      | socket | setsockopt | bind | listen | epollCreate | epollAdd | setRunning =>
        rw [hp] at hm
        cases hm
      | _ =>
        rw [hp] at setup
        cases setup
    · rw [hp] at hm
      cases hm
    · rcases hr with same|⟨rest,hp,after⟩|⟨x,rest,e,hp,rfl,block,after⟩|⟨x,rest,hp,after⟩
      · exact absurd (same ▸ hm) hd
      · obtain rfl := head (by rw [hp]; rfl) after
        refine .inl ⟨rest,hp,rfl,?_⟩
        rw [hp] at hn
        generalize t.pc=q,t.impl=j at hn
        cases r with
        | ok =>
          cases hn
          exact if_pos rfl
        | _ => cases hn
      · obtain rfl := head (by rw [hp]; rfl) after
        exact .inr (.inl ⟨rest,e,hp,rfl,block⟩)
      · obtain rfl := head (by rw [hp]; rfl) after
        exact .inr (.inr ⟨rest,hp⟩)

/-- A client with something to read is not done with before its connection is closed. -/
theorem Hooked.attended (h : Hooked c fd s) (ha : Attentive s)
    (readable : s.kernel.readable fd=true) (going : t.pc.ended=false) (nostop : a.isStop=false)
    (hs : machine.step s a=some t) (hm : fd∈s.pc.pending) (hd : fd∉t.pc.pending) :
    s.pc.leaver=some fd := by
  obtain ⟨f,file⟩ := connection_some.mp h.client
  rcases dealt_with going nostop hs hm hd with ⟨rest,hp,rfl,-⟩|⟨rest,e,hp,rfl,block⟩|⟨rest,hp⟩
  · -- a client is not the listening socket
    have server := ha.base.live.server (by rw [hp]; rfl)
    obtain ⟨g,listener⟩ := ha.base.owned.shape.listener (by rw [hp]; rfl) server
    rw [file] at listener
    cases listener
  · -- `EAGAIN` means that there is nothing
    obtain ⟨k,i,pc,lines,hk,-,-⟩ := reactor_cases hs
    rw [hp] at hk
    have hk : s.kernel.answerRead fd s.impl.options.bufferSize (.fail e)=some k := hk
    rcases answerRead_cases file hk with ⟨bs,hx,-⟩|⟨hx,-⟩|⟨e',hx,-,dry⟩
    · cases hx
    · cases hx
    · cases hx
      obtain ⟨hu,he⟩ := dry block
      simp [Kernel.readable,file,Pipe.readable,hu,he] at readable
  · rw [hp]
    rfl

/-- On the way out of its connection a client gets rid of its descriptor. -/
theorem leaver_step (h : Attentive s) (hp : s.pc.leaver=some fd)
    (client : s.kernel.connection fd=some c) (nostop : a.isStop=false)
    (hs : machine.step s a=some t) :
    t.pc.leaver=some fd ∧ t.kernel.connection fd=some c ∨ (t.kernel.conns c).fd=none := by
  obtain ⟨e,k,rfl,hk,rfl⟩|⟨r,rfl,hr⟩ := step_reactor hs nostop
  · exact .inl ⟨hp,(env_connection e hk fd).trans client⟩
  · obtain ⟨k,i,pc,lines,hk,hn,rfl⟩ := reactor_cases hr
    cases hpc : s.pc with
    | delClient x rest =>
      left
      rw [hpc] at hk hn hp
      have gone : pc.leaver=some fd := by
        cases r <;> cases hn <;> exact hp
      refine ⟨gone,?_⟩
      rcases answerUnit_cases hk with ⟨-,hk⟩|⟨e,-,rfl⟩
      · split at hk <;> cases hk
        exact client
      · exact client
    | closeClient x rest =>
      right
      rw [hpc] at hk hp
      cases hp
      show (k.conns c).fd=none
      rw [(answerClose_cases hk).1,close_fd h.base.owned.wf,
        if_pos (h.base.owned.wf.connection.mp client)]
    | _ =>
      rw [hpc] at hp
      cases hp

theorem step_onward (h : Undisturbed s) (nostop : a.isStop=false) (hs : machine.step s a=some t)
    (c : ConnId) : s.kernel.Onward t.kernel c := by
  obtain ⟨e,k,rfl,hk,rfl⟩|⟨r,rfl,hr⟩ := step_reactor hs nostop
  · exact env_onward h.owned.wf e hk c
  · obtain ⟨k,i,pc,lines,hk,hn,rfl⟩ := reactor_cases hr
    exact answer_onward h.owned.wf hk c

end steps

/-- An infinite run of `start` in which nobody calls `stop()` and the reactor is treated
fairly. -/
structure FairRun (port : Int) (options : TcpOptions) (loggerCb dataCb : Bool)
    (foreign : List Fd) (σ : Nat → State) (α : Nat → Action) : Prop where
  runs : machine.Runs σ α
  start : σ 0=.boot port options loggerCb dataCb foreign
  nostop : ∀ n,(α n).isStop=false
  fair : Fair σ α

namespace FairRun

variable {port : Int} {options : TcpOptions} {loggerCb dataCb : Bool} {foreign : List Fd}
  {σ : Nat → State} {α : Nat → Action} {c : ConnId} {fd : Fd} {n : Nat}

theorem attentive (run : FairRun port options loggerCb dataCb foreign σ α) (n : Nat) :
    Attentive (σ n) := by
  have booted : Attentive (σ 0) := by
    rw [run.start]
    exact ⟨boot_undisturbed port options loggerCb dataCb foreign,
      ⟨by simp [State.boot,Pc.active],by simp [State.boot]⟩,by simp [State.boot,Pc.newcomer]⟩
  exact run.runs.keeps (fun p t hp ht => step_attentive _ _ t hp (run.nostop p) ht) booted n
    n.zero_le

theorem suffix (run : FairRun port options loggerCb dataCb foreign σ α) {p : Nat} (hp : n ≤ p) :
    (σ n).trace<:+(σ p).trace :=
  run.runs.keeps (n := n) (I := fun s => (σ n).trace<:+s.trace)
    (fun p _ h ht => h.trans (step_suffix (run.nostop p) ht)) (List.suffix_refl _) p hp

/-- A finite run that ends in `epoll_wait` with nothing ready is the beginning of a fair one. -/
theorem of_run {as : List Action} {r : Reply} {t : State}
    (hr : machine.run (.boot port options loggerCb dataCb foreign) (as++[Action.reactor r])=some t)
    (hn : ∀ a∈as,a.isStop=false) (waits : ∃ ep,t.pc=.waiting ep) (empty : t.ready=∅) :
    ∃ σ α,FairRun port options loggerCb dataCb foreign σ α ∧
      (∀ n,α n=(as++[Action.reactor r]).getD n (.env (.prune 0 (-1)))) ∧
      ∀ n,machine.run (.boot port options loggerCb dataCb foreign)
        ((as++[Action.reactor r]).take n)=some (σ n) := by
  have nostop : ∀ a∈as++[Action.reactor r],a.isStop=false := by
    intro a ha
    rcases List.mem_append.mp ha with ha|ha
    · exact hn a ha
    · rw [List.mem_singleton.mp ha]
      rfl
  have h := (run_watched port options loggerCb dataCb foreign nostop hr).1
  obtain ⟨σ,α,runs,states,actions,meets⟩ := machine.idles hr (idle_step h.owned)
  have start : σ 0=.boot port options loggerCb dataCb foreign := by
    simpa using (states 0).symm
  refine ⟨σ,α,⟨runs,start,?_,?_⟩,actions,states⟩
  · exact meets (fun _ a => a.isStop=false) (Machine.Meets.of_actions machine _ nostop _) rfl
  · apply Fair.of_rest (n := as.length)
    · rw [actions]
      simp [Action.isReactor]
    · intro p hp
      have here := states p
      rw [List.take_of_length_le (by rw [List.length_append]; exact hp),hr] at here
      rw [← Option.some.inj here]
      exact ⟨waits,empty⟩

theorem undisturbing (run : FairRun port options loggerCb dataCb foreign σ α) (n : Nat) :
    Undisturbing (σ n) (α n) :=
  .of_nostop (run.nostop n)

theorem going (run : FairRun port options loggerCb dataCb foreign σ α) (n : Nat) :
    (σ n).pc.ended=false :=
  never_ends run.runs run.undisturbing run.fair n

theorem batch_ends (run : FairRun port options loggerCb dataCb foreign σ α) :
    LeadsTo σ (fun s => s.pc.inBatch=true) fun s => s.pc=.loopHead :=
  batch_leads run.runs (fun p => (run.attentive p).base.owned) run.undisturbing
    run.fair.batch_moves run.fair.paced

/-- What is readable and watched for good comes up in a batch. -/
theorem comes_up (run : FairRun port options loggerCb dataCb foreign σ α)
    (demand : ∀ p≥n,(σ p).kernel.readable fd=true ∧
      (σ p).kernel.watch (σ p).impl.epollFd fd≠none) : ∃ p≥n,fd∈(σ p).pc.pending := by
  by_contra never
  have outside (p : Nat) (hp : n≤p) : fd∉(σ p).pc.pending := fun hm => never ⟨p,hp,hm⟩
  have ready (p : Nat) (hp : n≤p) : fd∈(σ p).ready := by
    obtain ⟨readable,watched⟩ := demand p hp
    have h := run.attentive p
    have active : (σ p).pc.active=true := by
      have going := run.going p
      cases hpc : (σ p).pc with
      | socket =>
        refine absurd (h.base.owned.shape.unwatched ?_ ?_ _ fd) watched <;> rw [hpc]
        · rfl
        · simp
      | cleanup | returned =>
        rw [hpc] at going
        cases going
      | _ => rfl
    exact ((h.watched.awake active).covers fd watched readable).resolve_right (outside p hp)
  by_cases live : ∀ p,∃ q≥p,(α q).isReactor=true
  · obtain ⟨p,hp,es,reply,hm⟩ := run.fair.reported n fd ready
      (asks_again run.runs (fun p => (run.attentive p).base.owned) run.undisturbing run.fair live)
    have step := run.runs p
    rw [reply] at step
    obtain ⟨k,i,pc,lines,-,next,after⟩ := reactor_cases step
    have pending : (σ (p+1)).pc.pending=es.map PollEvent.fd := by
      rw [after]
      exact next_events next
    exact outside (p+1) (Nat.le_succ_of_le hp) (pending ▸ hm)
  · obtain ⟨p,held⟩ := not_forall.mp live
    have idle (q : Nat) (hq : max n p≤q) : (α q).isReactor=false := by
      by_contra moves
      exact held ⟨q,(le_max_right n p).trans hq,by simpa using moves⟩
    have empty := (run.fair.scheduled (max n p) idle).2 (max n p) le_rfl
    have here := ready (max n p) (le_max_left n p)
    rw [empty] at here
    exact absurd here (Finset.notMem_empty fd)

/-- An entry of a batch is dealt with some time. -/
theorem passes (run : FairRun port options loggerCb dataCb foreign σ α)
    (hm : fd∈(σ n).pc.pending) : ∃ p≥n,fd∈(σ p).pc.pending ∧ fd∉(σ (p+1)).pc.pending := by
  have inside : (σ n).pc.inBatch=true := by
    cases hp : (σ n).pc with
    | getFl x caller | setFl x flags caller =>
      rw [hp] at hm
      cases caller with
      | setup => cases hm
      | client rest => rfl
    | batch | accept | addClient | reject | read | deliver | delClient | closeClient => rfl
    | _ =>
      rw [hp] at hm
      cases hm
  obtain ⟨p,hp,head⟩ := run.batch_ends n inside
  obtain ⟨q,hq,-,there,gone⟩ := ends_before (P := fun p => fd∈(σ p).pc.pending) hp hm
    (by rw [head]; simp [Pc.pending])
  exact ⟨q,hq,there,gone⟩

/-- A connection that is being closed gets closed. -/
theorem leaver_leads (run : FairRun port options loggerCb dataCb foreign σ α) :
    LeadsTo σ (fun s => s.pc.leaver=some fd ∧ s.kernel.connection fd=some c)
      fun s => (s.kernel.conns c).fd=none := by
  intro n hp
  have inside : (σ n).pc.inBatch=true := by
    cases hq : (σ n).pc with
    | delClient | closeClient => rfl
    | _ =>
      rw [hq] at hp
      cases hp.1
  obtain ⟨p,hn,head⟩ := run.batch_ends n inside
  obtain ⟨q,hq,-,leaving,left⟩ := ends_before
    (P := fun p => (σ p).pc.leaver=some fd ∧ (σ p).kernel.connection fd=some c) hn hp (by
      rintro ⟨there,-⟩
      rw [head] at there
      cases there)
  exact ⟨q+1,Nat.le_succ_of_le hq,
    (leaver_step (run.attentive q) leaving.1 leaving.2 (run.nostop q) (run.runs q)).resolve_left
      left⟩

/-- A client that is hooked in and always has something to read is on its way out some time. -/
theorem hooked_leads (run : FairRun port options loggerCb dataCb foreign σ α)
    (hooked : Hooked c fd (σ n))
    (readable : ∀ p≥n,Hooked c fd (σ p) → (σ p).kernel.readable fd=true) :
    ∃ p≥n,(σ p).pc.leaver=some fd ∧ Hooked c fd (σ p) := by
  rcases lasts_or_ends (P := fun p => Hooked c fd (σ p)) hooked with lasts|⟨p,hp,here,gone⟩
  · obtain ⟨p,hp,pending⟩ := run.comes_up fun p hp =>
      ⟨readable p hp (lasts p hp),(lasts p hp).watched⟩
    obtain ⟨q,hq,pending,dealt⟩ := run.passes pending
    have there := lasts q (hp.trans hq)
    exact ⟨q,hp.trans hq,there.attended (run.attentive q) (readable q (hp.trans hq) there)
      (run.going (q+1)) (run.nostop q) (run.runs q) pending dealt,there⟩
  · exact ⟨p,hp,(here.step (run.attentive p) (run.going p) (run.nostop p) (run.runs p)).resolve_left
      gone,here⟩

section hearsOne

/-- The client sends a byte and leaves; then all is quiet. -/
def hearsOne : List Action :=
  oneClient++[.env (.send 0 [65]),.env (.arrive 0 1),.env (.shut 0),.reactor .ok,
    .reactor (.events [⟨5,⟨true,false,false⟩⟩]),.reactor .ok,.reactor (.data [65]),.reactor .ok,
    .env (.finish 0),.reactor (.data []),.reactor .ok,.reactor .ok,.reactor .ok,.reactor .ok,
    .env (.prune 4 3)]

theorem hearsOne_fair : ∃ σ α,FairRun 8080 {} false true [] σ α ∧
    ∀ n,machine.run (.boot 8080 {} false true [])
      ((hearsOne++[Action.reactor .ok]).take n)=some (σ n) := by
  have run : (machine.run (.boot 8080 {} false true []) (hearsOne++[Action.reactor .ok])).map
      (fun t => (t.pc,decide (t.ready=∅)))=some (.waiting 4,true) := by
    decide +kernel
  obtain ⟨t,ht,heq⟩ := Option.map_eq_some_iff.mp run
  obtain ⟨hp,he⟩ := Prod.mk.injEq .. ▸ heq
  obtain ⟨σ,α,run,-,states⟩ := of_run ht (by decide +kernel) ⟨4,hp⟩ (by simpa using he)
  exact ⟨σ,α,run,states⟩

/-- What can be computed of a state of the run. -/
theorem hearsOne_state {σ : Nat → State} (states : ∀ n,machine.run (.boot 8080 {} false true [])
    ((hearsOne++[Action.reactor .ok]).take n)=some (σ n)) {β : Type} (f : State → β) (n : Nat)
    {b : β} (run : (machine.run (.boot 8080 {} false true [])
      ((hearsOne++[Action.reactor .ok]).take n)).map f=some b) : f (σ n)=b := by
  rw [states] at run
  exact Option.some.inj run

end hearsOne

theorem faithful (run : FairRun port options loggerCb true foreign σ α)
    (hb : 1≤options.networkBufferSize) (n : Nat) : Faithful options (σ n) ∧ Parting (σ n) := by
  have ho : 0<options.bufferSize := by
    unfold TcpOptions.bufferSize
    omega
  have booted : Faithful options (σ 0) ∧ Parting (σ 0) := by
    rw [run.start]
    exact ⟨boot_faithful port options loggerCb foreign,by simp [Parting,State.boot,Pc.leaver]⟩
  exact run.runs.keeps (I := fun s => Faithful options s ∧ Parting s) (fun p t hp ht =>
    ⟨step_faithful ho _ _ t hp.1 (run.nostop p) ht,step_parting hp.1 hp.2 (run.nostop p) ht⟩)
    booted n n.zero_le

/-- A connection whose stream is over is closed, and then the data callback has got everything
that its peer has sent, or else a read has failed. -/
theorem ended_closed (run : FairRun port options loggerCb dataCb foreign σ α)
    (hooked : Hooked c fd (σ n)) (ends : ((σ n).kernel.conns c).pipe.ending≠.flowing) :
    ∃ m≥n,((σ m).kernel.conns c).fd=none ∧ (dataCb=true → 1≤options.networkBufferSize →
      (payloads c (σ m).trace).flatten=((σ m).kernel.conns c).pipe.sent ∨
        sawError c (σ m).trace=true) := by
  have born : c<(σ n).kernel.born := hooked.born (run.attentive n).base.owned.wf
  have stays := run.runs.keeps (n := n)
    (I := fun s => c<s.kernel.born ∧ (s.kernel.conns c).pipe.ending≠.flowing)
    (fun p t hp ht =>
      have onward := step_onward (run.attentive p).base (run.nostop p) ht c
      ⟨onward.born hp.1,onward.ends hp.1 hp.2⟩) ⟨born,ends⟩
  obtain ⟨p,hp,leaving,there⟩ := run.hooked_leads hooked fun p hp there =>
    there.readable (by simp [Pipe.readable,(stays p hp).2])
  obtain ⟨q,hq,closed⟩ := run.leaver_leads p ⟨leaving,there.client⟩
  refine ⟨q,hp.trans hq,closed,fun callback hb => ?_⟩
  subst callback
  rcases (run.faithful hb p).2 fd c leaving there.client with ended|failed
  · exact .inl ((run.faithful hb q).1.all_given (sawEnd_suffix (run.suffix hq) ended))
  · exact .inr (sawError_suffix (run.suffix hq) failed)

theorem ended_closed_hears_one : ∃ σ α,FairRun 8080 {} false true [] σ α ∧ Hooked 0 5 (σ 31) ∧
    ∃ m≥31,((σ m).kernel.conns 0).fd=none ∧
      ((payloads 0 (σ m).trace).flatten=((σ m).kernel.conns 0).pipe.sent ∨
        sawError 0 (σ m).trace=true) := by
  obtain ⟨σ,α,run,states⟩ := hearsOne_fair
  obtain ⟨client,watched,ends⟩ := Prod.mk.injEq .. ▸ Prod.mk.injEq .. ▸ hearsOne_state states
    (fun s => (s.kernel.connection 5,s.kernel.watch s.impl.epollFd 5,
      decide ((s.kernel.conns 0).pipe.ending=Ending.finished))) 31
    (b := (some 0,some .edge,true)) (by decide +kernel)
  have hooked : Hooked 0 5 (σ 31) := ⟨client,by simp [watched]⟩
  have finished : ((σ 31).kernel.conns 0).pipe.ending=.finished := by simpa using ends
  obtain ⟨m,hm,closed,given⟩ := run.ended_closed hooked (by simp [finished])
  exact ⟨σ,α,run,hooked,m,hm,closed,given rfl (by decide)⟩

/-- What has been taken from a stream is handed to the callback in the same batch. -/
theorem taken_delivered (run : FairRun port options loggerCb true foreign σ α)
    (hb : 1≤options.networkBufferSize) (c : ConnId) (n : Nat) : ∃ m≥n,
    ((σ n).kernel.conns c).pipe.taken<+:(payloads c (σ m).trace).flatten := by
  obtain ⟨m,hm,out⟩ : ∃ m≥n,∀ o,(σ m).pc.inhand o=[] := by
    cases inside : (σ n).pc.inBatch with
    | true =>
      obtain ⟨m,hm,head⟩ := run.batch_ends n inside
      exact ⟨m,hm,by simp [head,Pc.inhand]⟩
    | false =>
      refine ⟨n,le_rfl,fun o => ?_⟩
      cases hp : (σ n).pc with
      | deliver =>
        rw [hp] at inside
        cases inside
      | _ => rfl
  have grown := run.runs.keeps (n := n)
    (I := fun s => ((σ n).kernel.conns c).pipe.taken<+:(s.kernel.conns c).pipe.taken)
    (fun p t hp ht => hp.trans (step_onward (run.attentive p).base (run.nostop p) ht c).grows.taken)
    (List.prefix_refl _) m hm
  have bytes := (run.faithful hb m).1.bytes c
  rw [out,List.append_nil] at bytes
  exact ⟨m,hm,bytes ▸ grown⟩

/-- What was sent some time, and is as much as has been taken later, is handed to the callback. -/
theorem sent_given (run : FairRun port options loggerCb true foreign σ α)
    (hb : 1≤options.networkBufferSize) {l : Bytes} (sent : l<+:((σ n).kernel.conns c).pipe.sent)
    {p : Nat} (hp : n≤p) (all : l.length≤((σ p).kernel.conns c).pipe.taken.length) :
    ∃ m≥p,l<+:(payloads c (σ m).trace).flatten := by
  have grown := run.runs.keeps (n := n) (I := fun s => l<+:(s.kernel.conns c).pipe.sent)
    (fun p t hp ht => hp.trans (step_onward (run.attentive p).base (run.nostop p) ht c).grows.sent)
    sent p hp
  obtain ⟨m,hm,given⟩ := run.taken_delivered hb c p
  exact ⟨m,hm,(List.prefix_of_prefix_length_le grown (Pipe.taken_prefix _) all).trans given⟩

/-- What is owed to a client that is hooked in is taken, or else a read fails. -/
theorem debt_paid (run : FairRun port options loggerCb true foreign σ α)
    (hb : 1≤options.networkBufferSize) (hooked : Hooked c fd (σ n)) {k : Nat}
    (owed : ((σ n).kernel.conns c).pipe.Owes k) :
    ∃ m≥n,k≤((σ m).kernel.conns c).pipe.taken.length ∨ sawError c (σ m).trace=true := by
  by_cases reached : ∃ p≥n,k≤((σ p).kernel.conns c).pipe.taken.length
  · obtain ⟨p,hp,all⟩ := reached
    exact ⟨p,hp,.inl all⟩
  · -- the debt would stay for ever
    have born : c<(σ n).kernel.born := hooked.born (run.attentive n).base.owned.wf
    have owes (p : Nat) (hp : n≤p) :
        c<(σ p).kernel.born ∧ ((σ p).kernel.conns c).pipe.Owes k := by
      induction p,hp using Nat.le_induction with
      | base => exact ⟨born,owed⟩
      | succ p hp ih =>
        have onward := step_onward (run.attentive p).base (run.nostop p) (run.runs p) c
        refine ⟨onward.born ih.1,?_⟩
        exact (onward.owes _ ih.1 ih.2).resolve_right fun all =>
          reached ⟨p+1,Nat.le_succ_of_le hp,all⟩
    obtain ⟨p,hp,leaving,there⟩ := run.hooked_leads hooked fun p hp there =>
      there.readable (owes p hp).2.readable
    obtain ⟨faithful,parting⟩ := run.faithful hb p
    rcases parting fd c leaving there.client with ended|error
    · exact absurd (faithful.ended c ended).1 (owes p hp).2.incomplete
    · exact ⟨p,hp,.inr error⟩

/-- What has arrived at a client that is hooked in is handed to the data callback, or else a
read fails. -/
theorem arrived_delivered (run : FairRun port options loggerCb true foreign σ α)
    (hb : 1≤options.networkBufferSize) (hooked : Hooked c fd (σ n)) : ∃ m≥n,
    ((σ n).kernel.conns c).pipe.taken++((σ n).kernel.conns c).pipe.unread<+:
      (payloads c (σ m).trace).flatten ∨ sawError c (σ m).trace=true := by
  by_cases more : ((σ n).kernel.conns c).pipe.unread=[]
  · obtain ⟨m,hm,given⟩ := run.taken_delivered hb c n
    exact ⟨m,hm,.inl (by rwa [more,List.append_nil])⟩
  have owed := ((σ n).kernel.conns c).pipe.owes_arrived more
  obtain ⟨p,hp,all|failed⟩ := run.debt_paid hb hooked owed
  · obtain ⟨m,hm,given⟩ := run.sent_given hb (Pipe.arrived_prefix _) hp all
    exact ⟨m,hp.trans hm,.inl given⟩
  · exact ⟨p,hp,.inr failed⟩

theorem arrived_delivered_hears_one : ∃ σ α,FairRun 8080 {} false true [] σ α ∧
    Hooked 0 5 (σ 24) ∧ ∃ m≥24,
      [65]<+:(payloads 0 (σ m).trace).flatten ∨ sawError 0 (σ m).trace=true := by
  obtain ⟨σ,α,run,states⟩ := hearsOne_fair
  obtain ⟨client,watched,arrived⟩ := Prod.mk.injEq .. ▸ Prod.mk.injEq .. ▸ hearsOne_state states
    (fun s => (s.kernel.connection 5,s.kernel.watch s.impl.epollFd 5,
      (s.kernel.conns 0).pipe.taken++(s.kernel.conns 0).pipe.unread)) 24
    (b := (some 0,some .edge,[65])) (by decide +kernel)
  have hooked : Hooked 0 5 (σ 24) := ⟨client,by simp [watched]⟩
  have served := run.arrived_delivered (by decide) hooked
  rw [arrived] at served
  exact ⟨σ,α,run,hooked,served⟩

end FairRun

end TuyulNet.Server
