import TuyulNet.Client.Descriptors
import TuyulNet.Client.Lifecycle
import TuyulNet.Kernel.Streams

namespace TuyulNet.Client

open Framework Kernel

/-- A call of `connect_to`. -/
def Action.dials : Action → Bool
  | .request (.connect _ _) => true
  | _ => false

/-- Inside `connect_to`, up to the start of the thread. -/
def App.dialing : App → Bool
  | .testConnected _ _ | .lookup _ _ | .socket _ | .freeFailed _ | .connect _ | .closeRefused _
  | .clearRefused _ | .freeRefused _ | .freeConnected _ | .getFl _ | .setFl _ _ | .epollCreate
  | .epollAdd | .setConnected | .spawn => true
  | _ => false

/-- The number of data callbacks started so far. -/
def deliveries : Trace → Nat
  | [] => 0
  | .call (.deliver _ _) _::t => deliveries t+1
  | _::t => deliveries t

/-- `fd` is open and has not been closed since `s`. -/
def OpenSince (s t : State) (fd : Fd) : Prop :=
  Ledger.held fd (ledger t.trace)=true ∧
    Ledger.released fd (ledger t.trace)=Ledger.released fd (ledger s.trace)

/-- The connection that a worker was started for in `s` is still the one in the
fields, as long as the worker is not joined. -/
structure Attends (s t : State) : Prop where
  dialing : t.app.dialing=false
  client : t.worker≠.none → t.impl.clientFd=s.impl.clientFd
  epoll : t.worker≠.none → t.impl.epollFd=s.impl.epollFd
  released : t.worker≠.none → ∀ fd,
    Ledger.released fd (ledger t.trace)=Ledger.released fd (ledger s.trace)
  conn : t.worker≠.none → ∀ c,(t.kernel.conns c).fd=(s.kernel.conns c).fd

section steps

variable {i j : Impl} {a b : App} {w : Worker} {r : Reply} {lines : Trace}

theorem resume_dialing (purpose : Purpose) : purpose.resume.dialing=false := by
  cases purpose with
  | connect code => rfl
  | disconnect destroying => cases destroying <;> rfl

/-- Outside `connect_to` nothing leads back into it or raises the flag. -/
theorem next_dialing (ha : a.dialing=false) (hn : a.next i r=some (j,b,lines)) :
    b.dialing=false ∧ (j.isConnected=true → i.isConnected=true) := by
  cases a with
  | assign | destroyImpl =>
    cases r <;> cases hn
    exact ⟨rfl,id⟩
  | testDisconnect destroying =>
    cases r <;> cases hn
    refine ⟨?_,id⟩
    split
    · rfl
    · split <;> rfl
  | send s =>
    obtain ⟨⟨more,lines⟩,hs,heq⟩ := Option.map_eq_some_iff.mp hn
    cases heq
    cases more <;> exact ⟨rfl,id⟩
  | shutdown stage purpose =>
    have resume := resume_dialing purpose
    obtain ⟨⟨j,more,lines⟩,hs,heq⟩ := Option.map_eq_some_iff.mp hn
    cases heq
    constructor
    · cases more with
      | none => exact resume
      | some stage => rfl
    · unfold Shutdown.next at hs
      split at hs <;> cases hs <;> simp
  | idle | gone => cases hn
  | _ => cases ha

theorem dialing_opening (hp : a.phase=.opening) : a.dialing=true := by
  cases a with
  | idle last => cases last with
    | none => cases hp
    | some o => cases o <;> cases hp
  | shutdown stage purpose => cases stage <;> cases hp
  | assign | destroyImpl | testDisconnect | send | gone => cases hp
  | _ => rfl

end steps

theorem step_attends (s t : State) (a : Action) (u : State) (h : Sound t) (ha : Attends s t)
    (hc : a.civil=true) (hd : a.dials=false) (hs : machine.step t a=some u) : Attends s u := by
  obtain ⟨-,⟨q,last,rfl,hp,rfl⟩|⟨r,rfl,ht⟩|⟨r,rfl,ht⟩|⟨c,rest,rfl,hw,rfl⟩|⟨e,k,rfl,hk,rfl⟩⟩ :=
    step_cases hs
  · have entry : q.entry.dialing=false := by
      cases q with
      | connect host port => cases hd
      | _ => rfl
    exact { ha with dialing := entry }
  · have ledger := appStep_ledger ht
    obtain ⟨-,k,i,app,lines,hk,hn,rfl⟩ := appStep_cases ht
    obtain ⟨place,-⟩ := next_dialing ha.dialing hn
    rcases next_keeps hn with opening|closing|⟨quiet,client,epoll⟩
    · have outside := ha.dialing
      rw [dialing_opening opening] at outside
      cases outside
    · -- after the join there is no worker
      have gone : t.worker=.none := by
        by_contra hw
        rcases h.control.joined hw with hj|hp
        · rw [h.control.closing closing] at hj
          cases hj
        · rw [closing] at hp
          cases hp
      have still : t.app.thread t.impl r t.worker=.none := by
        unfold App.thread
        split
        · rename_i hp
          rw [hp] at closing
          cases closing
        · rfl
        · exact gone
      constructor
      · exact place
      all_goals exact fun hw => absurd still hw
    · have steady := quiet_steady quiet
      have was (hw : t.app.thread t.impl r t.worker≠.none) : t.worker≠.none := by
        unfold App.thread at hw
        split at hw
        · rename_i hp
          have dialing := ha.dialing
          rw [hp] at dialing
          cases dialing
        · exact absurd rfl hw
        · exact hw
      constructor
      · exact place
      · exact fun hw => client.trans (ha.client (was hw))
      · exact fun hw => epoll.trans (ha.epoll (was hw))
      · intro hw fd
        rw [ledger,steady_entries steady,released_touches]
        exact ha.released (was hw) fd
      · intro hw c
        exact ((answer_fixed (steady_attaches steady) hk).1 c).trans (ha.conn (was hw) c)
  · have ledger := workerStep_ledger ht
    obtain ⟨k,i,worker,lines,hk,hn,rfl⟩ := workerStep_cases ht
    obtain ⟨quiet,client,epoll,-⟩ := worker_keeps h.control.outside hn
    have steady := quiet_steady quiet
    obtain ⟨was,-⟩ := worker_moves h.control.outside hn
    constructor
    · exact ha.dialing
    · exact fun _ => client.trans (ha.client was)
    · exact fun _ => epoll.trans (ha.epoll was)
    · intro _ fd
      rw [ledger,steady_entries steady,released_touches]
      exact ha.released was fd
    · intro _ c
      exact ((answer_fixed (steady_attaches steady) hk).1 c).trans (ha.conn was c)
  · have was : t.worker≠.none := by simp [hw]
    exact ⟨ha.dialing,fun _ => ha.client was,fun _ => ha.epoll was,fun _ => ha.released was,
      fun _ => ha.conn was⟩
  · exact { ha with conn := fun hw c => (env_pipe h.wf e hk c).2.2.trans (ha.conn hw c) }

/-- No worker is inside its loop, and none can get there. -/
structure Quiet (t : State) : Prop where
  dialing : t.app.dialing=false
  flag : t.impl.isConnected=false
  parked : t.worker.busy=false

theorem app_deliveries (a : App) (i : Impl) (r : Reply) (t : Trace) :
    deliveries (.call (a.call i) r::t)=deliveries t := by
  cases a with
  | shutdown stage purpose => cases stage <;> rfl
  | send s => cases s <;> rfl
  | _ => rfl

theorem worker_deliveries {w : Worker} (hw : w.busy=false) (i : Impl) (r : Reply) (t : Trace) :
    deliveries (.call (w.call i) r::t)=deliveries t := by
  cases w with
  | none | start | loopHead | finished => rfl
  | _ => cases hw

theorem step_quiet (t : State) (a : Action) (u : State) (h : Quiet t) (hd : a.dials=false)
    (hs : machine.step t a=some u) :
    Quiet u ∧ deliveries u.trace=deliveries t.trace := by
  obtain ⟨-,⟨q,last,rfl,hp,rfl⟩|⟨r,rfl,ht⟩|⟨r,rfl,ht⟩|⟨c,rest,rfl,hw,rfl⟩|⟨e,k,rfl,hk,rfl⟩⟩ :=
    step_cases hs
  · have entry : q.entry.dialing=false := by
      cases q with
      | connect host port => cases hd
      | _ => rfl
    exact ⟨⟨entry,h.flag,h.parked⟩,rfl⟩
  · obtain ⟨-,k,i,app,lines,-,hn,rfl⟩ := appStep_cases ht
    have skip := (app_lines hn).skip (f := deliveries) (fun _ _ _ => rfl)
      (.call (t.app.call t.impl) r::t.trace)
    obtain ⟨place,flag⟩ := next_dialing h.dialing hn
    refine ⟨⟨place,?_,?_⟩,skip.trans (app_deliveries _ _ _ _)⟩
    · by_contra hi
      have was := flag (by simpa using hi)
      rw [h.flag] at was
      cases was
    · by_contra hb
      have was : t.worker.busy=true :=
        thread_busy (i := t.impl) (a := t.app) (r := r) (by simpa using hb)
      rw [h.parked] at was
      cases was
  · obtain ⟨k,i,worker,lines,-,hn,rfl⟩ := workerStep_cases ht
    have skip := (worker_lines hn).skip (f := deliveries) (fun _ _ _ => rfl)
      (.call (t.worker.call t.impl) r::t.trace)
    have out : t.worker.shutting=false := by
      have parked := h.parked
      cases hw : t.worker with
      | shutdown stage rest =>
        rw [hw] at parked
        cases parked
      | _ => rfl
    obtain ⟨-,-,-,busy,flag,-⟩ := worker_moves out hn
    refine ⟨⟨h.dialing,?_,?_⟩,skip.trans (worker_deliveries h.parked _ _ _)⟩
    · rcases flag with flag|⟨-,flag,-⟩
      · exact flag.trans h.flag
      · exact flag
    · by_contra hb
      rcases busy (by simpa using hb) with hw|hi
      · rw [h.parked] at hw
        cases hw
      · rw [h.flag] at hi
        cases hi
  · have parked := h.parked
    rw [hw] at parked
    cases parked
  · exact ⟨⟨h.dialing,h.flag,h.parked⟩,rfl⟩

/-- When `disconnect` has returned, the worker is past its last data callback. -/
theorem released_quiet {t : State} (h : Sound t) (ha : t.app=.idle (some .disconnect)) :
    Quiet t := by
  have phase : t.app.phase=.released := by rw [ha]; rfl
  obtain ⟨flag,parked⟩ := Control.alone h.control (by rw [phase]; rfl) (by simp [phase])
  exact ⟨by rw [ha]; rfl,flag,parked⟩

section runs

variable (options : TcpOptions) (loggerCb dataCb pipeSignal : Bool) (foreign : List Fd)

theorem run_attends {s : State} (h : Sound s) (ha : Attends s s) {as : List Action} {t : State}
    (hn : ∀ a∈as,a.civil=true ∧ a.dials=false) (hr : machine.run s as=some t) :
    Sound t ∧ Attends s t := by
  apply machine.invariant _ as s t ⟨h,ha⟩
    (Machine.Meets.of_actions machine as hn s) hr
  intro u a v hu hc hs
  exact ⟨step_sound u a v hu.1 hc.1 hs,step_attends s u a v hu.1 hu.2 hc.1 hc.2 hs⟩

theorem run_quiet {t : State} (h : Quiet t) {as : List Action} {u : State}
    (hn : ∀ a∈as,a.dials=false) (hr : machine.run t as=some u) :
    deliveries u.trace=deliveries t.trace := by
  have both : Quiet u ∧ deliveries u.trace=deliveries t.trace := by
    apply machine.invariant _ as t u ⟨h,rfl⟩ (Machine.Meets.of_actions machine as hn t) hr
    intro v a w hv hd hs
    obtain ⟨quiet,same⟩ := step_quiet v a w hv.1 hd hs
    exact ⟨quiet,same.trans hv.2⟩
  exact both.2

/-- From the start of a worker on, with no further `connect_to`: what the worker
waits on and reads from is its own connection and still open, nothing of it is
closed before the join, and a `disconnect` that has returned is the end of the
data callbacks. -/
theorem quiescence (before : List Action) (s₀ s : State) (as : List Action) (t : State)
    (hb : ∀ a∈before,a.civil=true)
    (h₀ : machine.run (.boot options loggerCb dataCb pipeSignal foreign) before=some s₀)
    (hp : s₀.app=.spawn) (hs : machine.step s₀ (.app .ok)=some s)
    (hn : ∀ a∈as,a.civil=true ∧ a.dials=false) (hr : machine.run s as=some t) :
    (t.worker=.epollWait → t.impl.epollFd=s.impl.epollFd ∧ OpenSince s t s.impl.epollFd) ∧
    (∀ ep,t.worker=.waiting ep → ep=s.impl.epollFd ∧ OpenSince s t s.impl.epollFd) ∧
    (∀ rest,t.worker=.read rest → t.impl.clientFd=s.impl.clientFd ∧
      OpenSince s t s.impl.clientFd ∧ ∃ c,(s.kernel.conns c).fd=some s.impl.clientFd ∧
        (t.kernel.conns c).fd=some s.impl.clientFd) ∧
    (∀ stage purpose,t.app=.shutdown stage purpose → stage=.closeEpoll ∨ stage=.closeClient →
      t.worker=.none) ∧
    (t.app=.idle (some .disconnect) → ∀ later u,
      (∀ a∈later,a.civil=true ∧ a.dials=false) → machine.run t later=some u →
        deliveries u.trace=deliveries t.trace) := by
  have sound₀ := run_sound options loggerCb dataCb pipeSignal foreign hb h₀
  have sound : Sound s := step_sound s₀ _ s sound₀ rfl hs
  have start : s.app=.assign := by
    obtain ⟨-,k,i,app,lines,-,next,rfl⟩ := appStep_cases (appStep_of_step hs)
    rw [hp] at next
    cases next
    rfl
  have attends : Attends s s :=
    ⟨by rw [start]; rfl,fun _ => rfl,fun _ => rfl,fun _ _ => rfl,fun _ _ => rfl⟩
  obtain ⟨h,own⟩ := run_attends sound attends hn hr
  have busy (hw : t.worker.busy=true) : t.impl.clientFd=s.impl.clientFd ∧
      t.impl.epollFd=s.impl.epollFd ∧ OpenSince s t s.impl.clientFd ∧
      OpenSince s t s.impl.epollFd := by
    have was : t.worker≠.none := by
      intro e
      rw [e] at hw
      cases hw
    have client := own.client was
    have epoll := own.epoll was
    have attached := h.fields.linked (.inr (.inr hw))
    have polled := h.fields.polled (.inr (.inr hw))
    rw [client] at attached
    rw [epoll] at polled
    exact ⟨client,epoll,⟨(h.agrees _).mpr (attached_owns attached),own.released was _⟩,
      (h.agrees _).mpr polled,own.released was _⟩
  refine ⟨?_,?_,?_,?_,?_⟩
  · intro hw
    obtain ⟨-,epoll,-,since⟩ := busy (by rw [hw]; rfl)
    exact ⟨epoll,since⟩
  · intro ep hw
    obtain ⟨-,epoll,-,since⟩ := busy (by rw [hw]; rfl)
    exact ⟨(h.fields.waiting ep hw).trans epoll,since⟩
  · intro rest hw
    obtain ⟨client,-,since,-⟩ := busy (by rw [hw]; rfl)
    have attached := h.fields.linked (.inr (.inr (by rw [hw]; rfl)))
    rw [client] at attached
    obtain ⟨c,f,hf⟩ := attached
    have link := (h.wf.attached _ c f hf).1
    exact ⟨client,since,c,(own.conn (by simp [hw]) c).symm.trans link,link⟩
  · intro stage purpose ha hstage
    have closing : t.app.phase=.closing := by
      rw [ha]
      rcases hstage with rfl|rfl <;> rfl
    by_contra hw
    rcases h.control.joined hw with hj|hp
    · rw [h.control.closing closing] at hj
      cases hj
    · rw [closing] at hp
      cases hp
  · intro ha later u hl hu
    exact run_quiet (released_quiet h ha) (fun a hm => (hl a hm).2) hu

/-- From the start of the worker: an event is reported, `disconnect` clears the flag and waits in
`join`, the worker reads a byte and hands it over before it sees the flag, and both descriptors
are closed after it. -/
def lastByte : List Action :=
  [.app .ok,.worker .ok,.worker .ok,.worker .ok,.env (.send 0 [65]),.env (.arrive 0 1),
    .worker (.events [⟨3,⟨true,false,false⟩⟩]),.request .disconnect,.app .ok,.app .ok,.app .ok,
    .worker .ok,.worker (.data [65]),.worker .ok,.callback .finish,.worker (.fail .eagain),
    .worker .ok,.worker .ok,.app .ok,.app .ok,.app .ok,.app .ok,.app .ok,.app .ok,.app .ok]

theorem quiescence_last_byte : ∃ s₀ s u t,
    machine.run (.boot {} false true true []) (dialed.take 11)=some s₀ ∧
    machine.step s₀ (.app .ok)=some s ∧ machine.run s (lastByte.take 12)=some u ∧
    u.impl.isConnected=false ∧ u.app=.shutdown .join (.disconnect false) ∧ u.worker=.read [] ∧
    OpenSince s u s.impl.clientFd ∧ machine.run s lastByte=some t ∧
    t.app=.idle (some .disconnect) ∧ ∀ later v,(∀ a∈later,a.civil=true ∧ a.dials=false) →
      machine.run t later=some v → deliveries v.trace=1 := by
  have run : ((machine.run (.boot {} false true true []) (dialed.take 11)).bind fun s₀ =>
      (machine.step s₀ (.app .ok)).bind fun s => (machine.run s (lastByte.take 12)).bind fun u =>
        (machine.run u (lastByte.drop 12)).map fun t => ((s₀.app,u.impl.isConnected,u.app,u.worker),
          t.app,deliveries t.trace))=
      some ((.spawn,false,.shutdown .join (.disconnect false),.read []),
        .idle (some .disconnect),1) := by
    decide +kernel
  obtain ⟨s₀,h₀,run⟩ := Option.bind_eq_some_iff.mp run
  obtain ⟨s,hs,run⟩ := Option.bind_eq_some_iff.mp run
  obtain ⟨u,hu,run⟩ := Option.bind_eq_some_iff.mp run
  obtain ⟨t,ht,run⟩ := Option.map_eq_some_iff.mp run
  simp only [Prod.mk.injEq] at run
  obtain ⟨⟨hp,down,waits,reads⟩,left,one⟩ := run
  have whole : machine.run s lastByte=some t :=
    (machine.run_append s t _ _).mpr ⟨u,hu,ht⟩
  have early := quiescence {} false true true [] (dialed.take 11) s₀ s (lastByte.take 12) u
    (by decide +kernel) h₀ hp hs (by decide +kernel) hu
  have late := quiescence {} false true true [] (dialed.take 11) s₀ s lastByte t
    (by decide +kernel) h₀ hp hs (by decide +kernel) whole
  obtain ⟨-,since,-⟩ := early.2.2.1 [] reads
  exact ⟨s₀,s,u,t,h₀,hs,hu,down,waits,reads,since,whole,left,fun later v calm hv =>
    (late.2.2.2.2 left later v calm hv).trans one⟩

end runs

end TuyulNet.Client
