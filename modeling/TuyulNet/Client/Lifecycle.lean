import TuyulNet.Client.Control

namespace TuyulNet.Client

open Framework Kernel

/-- `connect_to` starts its thread, and the `Impl` is destroyed, only when the
worker has not dropped a connection that was not torn down since; the data
callback calls `disconnect` only when `is_connected` is already false. -/
def Calm (s : State) : Action → Prop
  | .app r => s.app=.spawn ∧ r=.ok ∨ s.app=.destroyImpl → dropPending s.trace=false
  | a => Polite s a

instance (s : State) : ∀ a,Decidable (Calm s a)
  | .app _ => inferInstanceAs (Decidable (_ → _))
  | .request q => inferInstanceAs (Decidable (Polite s (.request q)))
  | .worker r => inferInstanceAs (Decidable (Polite s (.worker r)))
  | .callback c => inferInstanceAs (Decidable (Polite s (.callback c)))
  | .env e => inferInstanceAs (Decidable (Polite s (.env e)))

theorem Calm.polite {s : State} {a : Action} (h : Calm s a) : Polite s a := by
  cases a with
  | app r => trivial
  | _ => exact h

section fates

variable {s t : State} {r : Reply}

theorem writeFate_lifecycle (signal : Bool) (c : Call) (r : Reply) :
    (writeFate signal c r).lifecycle=false := by
  unfold writeFate
  split <;> (try split) <;> rfl

/-- The handle is free where a thread starts and where the `Impl` is destroyed. -/
theorem app_fate {i : Impl} {a : App} {signal : Bool}
    (spawn : a=.spawn → r=.ok → i.joinable=false) (destroy : a=.destroyImpl → i.joinable=false) :
    (a.fate i signal r).lifecycle=false := by
  unfold App.fate
  split
  · simp [spawn rfl rfl,Fate.lifecycle]
  · simp [destroy rfl,Fate.lifecycle]
  · exact writeFate_lifecycle _ _ _

theorem calm_fate (h : s.Controlled) (hc : Calm s (.app r)) :
    (s.app.fate s.impl s.pipeSignal r).lifecycle=false := by
  apply app_fate
  · intro ha hr
    have quiet := hc (.inl ⟨ha,hr⟩)
    by_contra hj
    have pending := (h.starting (by rw [ha]; rfl)).1 (by simpa using hj)
    rw [quiet] at pending
    cases pending
  · intro ha
    exact h.free (h.unset (by rw [ha]; rfl)) (hc (.inr ha)) (by simp [ha,App.phase])

theorem worker_fate {i : Impl} {w : Worker} {signal : Bool} (outside : w.shutting=false) :
    (w.fate i signal r).lifecycle=false := by
  unfold Worker.fate
  split
  · split <;> rfl
  · cases outside
  · exact writeFate_lifecycle _ _ _

end fates

theorem step_fate (s : State) (a : Action) (t : State)
    (h : s.Controlled ∧ s.fate.lifecycle=false) (hc : Calm s a) (hs : machine.step s a=some t) :
    t.Controlled ∧ t.fate.lifecycle=false := by
  refine ⟨step_controlled s a t h.1 hc.polite hs,?_⟩
  obtain ⟨-,⟨q,last,rfl,ha,rfl⟩|⟨r,rfl,ht⟩|⟨r,rfl,ht⟩|⟨c,rest,rfl,hw,rfl⟩|⟨e,k,rfl,-,rfl⟩⟩ :=
    step_cases hs
  · exact h.2
  · obtain ⟨-,k,i,app,lines,-,-,rfl⟩ := appStep_cases ht
    exact calm_fate h.1 hc
  · obtain ⟨k,i,worker,lines,-,-,rfl⟩ := workerStep_cases ht
    exact worker_fate h.1.outside
  · exact h.2
  · exact h.2

/-- `connect_to` succeeds with descriptor 3 and epoll instance 4. -/
def dialed : List Action :=
  [.request (.connect "localhost" 8080),.app .ok,.app (.addr 0),.app (.fd 3),.app .ok,.app .ok,
    .app (.flags 2),.app .ok,.app (.fd 4),.app .ok,.app .ok,.app .ok,.app .ok]

/-- The server closes that connection, and the worker sees it and leaves its loop. -/
def dropped : List Action :=
  dialed++[.worker .ok,.worker .ok,.worker .ok,.env (.shut 0),.env (.finish 0),
    .worker (.events [⟨3,⟨true,false,false⟩⟩]),.worker .ok,.worker (.data []),.worker .ok,
    .worker .ok]

/-- `disconnect` while the worker is about to start, then the destructor. -/
def hungUp : List Action :=
  dialed++[.request .disconnect,.app .ok,.app .ok,.app .ok,.worker .ok,.worker .ok,.app .ok,
    .app .ok,.app .ok,.app .ok,.app .ok,.app .ok,.app .ok,.request .destroy,.app .ok,.app .ok]

/-- In a calm run the handle of the worker never ends the process. -/
theorem lifecycle_safe (options : TcpOptions) (loggerCb dataCb pipeSignal : Bool)
    (foreign : List Fd) (as : List Action) (t : State)
    (hc : machine.Meets Calm (.boot options loggerCb dataCb pipeSignal foreign) as)
    (hr : machine.run (.boot options loggerCb dataCb pipeSignal foreign) as=some t) :
    t.fate.lifecycle=false :=
  (machine.invariant step_fate as _ t
    ⟨boot_controlled options loggerCb dataCb pipeSignal foreign,rfl⟩ hc hr).2

theorem lifecycle_safe_hung_up : ∃ t,machine.run (.boot {} false true true []) hungUp=some t ∧
    t.app=.gone ∧ t.fate.lifecycle=false := by
  have run : (machine.run (.boot {} false true true []) hungUp).map State.app=some .gone := by
    decide +kernel
  obtain ⟨t,ht,ha⟩ := Option.map_eq_some_iff.mp run
  exact ⟨t,ht,ha,lifecycle_safe {} false true true [] hungUp t (by decide +kernel) ht⟩

/-- The destructor of a client that was dropped by its server. -/
theorem drop_kills_process : ¬∀ as t,machine.run (.boot {} false true true []) as=some t →
    t.fate.lifecycle=false := by
  intro h
  have run : (machine.run (.boot {} false true true [])
      (dropped++[.request .destroy,.app .ok,.app .ok])).map State.fate=
        some .destroyedJoinable := by
    decide +kernel
  obtain ⟨t,ht,hf⟩ := Option.map_eq_some_iff.mp run
  have safe := h _ t ht
  rw [hf] at safe
  cases safe

end TuyulNet.Client
