import TuyulNet.Server.StopRequest

namespace TuyulNet.Server

open Framework

/-- At `epoll_wait`. -/
def Pc.waits : Pc → Bool
  | .epollWait | .waiting _ => true
  | _ => false

def Pc.returns : Pc → Bool
  | .returned _ => true
  | _ => false

/-- A fatal failure of `epoll_wait`. -/
def Breaks (s : State) : Action → Prop
  | .reactor (.fail e) => s.pc.waits=true ∧ e≠.eintr
  | _ => False

instance (s : State) : ∀ a,Decidable (Breaks s a)
  | .reactor (.fail _) => inferInstanceAs (Decidable (_ ∧ _))
  | .reactor .ok | .reactor (.fd _) | .reactor (.conn _ _) | .reactor (.flags _)
  | .reactor (.events _) | .reactor (.data _) | .reactor (.wrote _) | .reactor (.addr _)
  | .env _ | .stop _ => isFalse id

/-- `stop()` while `start` has not returned yet. -/
def Stops (s : State) (a : Action) : Prop := a.isStop=true ∧ s.pc.returns=false

instance (s : State) (a : Action) : Decidable (Stops s a) := inferInstanceAs (Decidable (_ ∧ _))

/-- What the code that `start` returns should tell about a run that begins where
the setup has succeeded. -/
structure Truthful (s : State) (as : List Action) (code : ErrorCode) : Prop where
  success : code=.success ↔ machine.Occurs Stops s as
  failure : machine.Precedes Breaks Stops s as → code≠.success

/-- Once the setup has succeeded there is one code left to return. -/
structure Settled (s : State) : Prop where
  setup : s.pc.setup=false
  cleanup : ∀ stage code,s.pc=.cleanup stage code → code=.success
  returned : ∀ code,s.pc=.returned code → code=.success

/-- In the loop, the flag still up. -/
structure Looping (s : State) : Prop where
  setup : s.pc.setup=false
  active : s.pc.active=true
  running : s.impl.isRunning=true

section steps

variable {i j : Impl} {pc q : Pc} {r : Reply} {lines : Trace}

/-- The codes of `cleanup` and of the return are those of the exits taken. -/
theorem next_code (hp : pc.setup=false) (hn : pc.next i r=some (j,q,lines)) :
    (∀ stage code,q=.cleanup stage code →
      code=.success ∨ ∃ stage,pc=.cleanup stage code) ∧
    ∀ code,q=.returned code → ∃ stage,pc=.cleanup stage code := by
  rcases next_cases hn with hn|hn|hn|hn|hn|hn
  · cases pc with
    | allocate =>
      cases r with
      | ok =>
        cases hn
        split <;> simp
      | _ => cases hn
    | _ => first | cases hn | cases hp
  · cases pc with
    | getFl fd caller =>
      cases caller with
      | setup => cases hp
      | client rest => cases r <;> cases hn <;> simp
    | setFl fd flags caller =>
      cases caller with
      | setup => cases hp
      | client rest => cases r <;> cases hn <;> simp
    | _ => cases hn
  · unfold loopNext at hn
    split at hn <;> (try split at hn) <;> cases hn <;> simp
  · unfold acceptNext at hn
    split at hn <;> cases hn <;> simp
  · unfold drainNext at hn
    split at hn <;> (try split at hn) <;> cases hn <;> (try split) <;> simp
  · unfold cleanupNext at hn
    split at hn <;> cases hn <;> simp_all

theorem step_settled (s : State) (a : Action) (t : State) (h : Settled s)
    (hs : machine.step s a=some t) : Settled t := by
  cases a with
  | reactor r =>
    obtain ⟨k,i,pc,lines,-,hn,rfl⟩ := reactor_cases hs
    obtain ⟨cleanup,returned⟩ := next_code h.setup hn
    refine ⟨((next_flag hn).2 h.setup).1,?_,?_⟩
    · intro stage code hq
      rcases cleanup stage code hq with rfl|⟨stage,hp⟩
      · rfl
      · exact h.cleanup stage code hp
    · intro code hq
      obtain ⟨stage,hp⟩ := returned code hq
      exact h.cleanup stage code hp
  | env e =>
    obtain ⟨k,-,rfl⟩ := Option.map_eq_some_iff.mp hs
    exact ⟨h.setup,h.cleanup,h.returned⟩
  | stop nested =>
    cases hs
    exact ⟨h.setup,h.cleanup,h.returned⟩

/-- The loop goes on unless `epoll_wait` fails for good. -/
theorem next_looping (hp : pc.setup=false) (ha : pc.active=true) (hr : i.isRunning=true)
    (hn : pc.next i r=some (j,q,lines)) :
    j.isRunning=true ∧ (q.active=true ∨
      pc.waits=true ∧ ∃ e,r=.fail e ∧ e≠.eintr) := by
  rcases next_cases hn with hn|hn|hn|hn|hn|hn
  · cases pc with
    | allocate =>
      cases r with
      | ok =>
        cases hn
        exact ⟨hr,.inl (by split <;> rfl)⟩
      | _ => cases hn
    | _ => first | cases hn | cases hp
  · cases pc with
    | getFl fd caller =>
      cases caller with
      | setup => cases hp
      | client rest => cases r <;> cases hn <;> simp [hr,Pc.active]
    | setFl fd flags caller =>
      cases caller with
      | setup => cases hp
      | client rest => cases r <;> cases hn <;> simp [hr,Pc.active]
    | _ => cases hn
  · unfold loopNext at hn
    split at hn <;> (try split at hn) <;> cases hn <;> simp_all [Pc.active,Pc.waits]
  · unfold acceptNext at hn
    split at hn <;> cases hn <;> simp [hr,Pc.active]
  · unfold drainNext at hn
    split at hn <;> (try split at hn) <;> cases hn <;> (try split) <;> simp [hr,Pc.active]
  · cases pc with
    | cleanup stage code => cases ha
    | _ => cases hn

theorem step_looping (s : State) (a : Action) (t : State) (h : Looping s) (hb : ¬Breaks s a)
    (hc : ¬Stops s a) (hs : machine.step s a=some t) : Looping t := by
  cases a with
  | reactor r =>
    obtain ⟨k,i,pc,lines,-,hn,rfl⟩ := reactor_cases hs
    obtain ⟨running,goes⟩ := next_looping h.setup h.active h.running hn
    refine ⟨((next_flag hn).2 h.setup).1,?_,running⟩
    rcases goes with active|⟨waits,e,rfl,he⟩
    · exact active
    · exact absurd ⟨waits,he⟩ hb
  | env e =>
    obtain ⟨k,-,rfl⟩ := Option.map_eq_some_iff.mp hs
    exact ⟨h.setup,h.active,h.running⟩
  | stop nested =>
    refine absurd ⟨rfl,?_⟩ hc
    have active := h.active
    cases hp : s.pc with
    | returned code =>
      rw [hp] at active
      cases active
    | _ => rfl

end steps

section runs

variable (port : Int) (options : TcpOptions) (loggerCb dataCb : Bool) (foreign : List Fd)

/-- The setup of `start` has just succeeded: `is_running = true` was the last step. -/
def SetUp (s : State) : Prop :=
  ∃ as u,machine.run (.boot port options loggerCb dataCb foreign) as=some u ∧
    u.pc=.setRunning ∧ u.reactor .ok=some s

theorem setUp_looping {s : State} (h : SetUp port options loggerCb dataCb foreign s) :
    s.pc=.allocate ∧ Looping s := by
  obtain ⟨as,u,-,hp,hs⟩ := h
  obtain ⟨k,i,pc,lines,-,hn,rfl⟩ := reactor_cases hs
  rw [hp] at hn
  cases hn
  exact ⟨rfl,rfl,rfl,rfl⟩

/-- `start` tells the truth about its end exactly when `epoll_wait` does not
break the loop before `stop()` is called. -/
theorem start_verdict (s t : State) (as : List Action) (code : ErrorCode)
    (hu : SetUp port options loggerCb dataCb foreign s) (hr : machine.run s as=some t)
    (hc : t.pc=.returned code) :
    Truthful s as code ↔ ¬machine.Precedes Breaks Stops s as := by
  obtain ⟨hp,looping⟩ := setUp_looping port options loggerCb dataCb foreign hu
  have settled : Settled s := ⟨looping.setup,by simp [hp],by simp [hp]⟩
  have success : code=.success := (machine.always step_settled as s t settled hr).returned code hc
  have returned : ¬Looping t := by
    intro h
    have active := h.active
    rw [hc] at active
    cases active
  have left := machine.left_by step_looping as s t looping hr returned
  constructor
  · intro h broken
    exact h.failure broken success
  · intro whole
    have stopped := left.resolve_left whole
    exact ⟨⟨fun _ => stopped,fun _ => success⟩,fun broken => absurd broken whole⟩

end runs

section ends

/-- From the end of the setup with `max_epoll_events = 0`: the first `epoll_wait` fails with
`EINVAL`, and `start` cleans up. -/
def invalidWait : List Action :=
  [.reactor .ok,.reactor .ok,.reactor (.fail .einval),.reactor .ok,.reactor .ok,.reactor .ok,
    .reactor .ok,.reactor .ok,.reactor .ok,.reactor .ok]

/-- From the end of the setup: `stop()` before the first `epoll_wait`. -/
def stoppedWait : List Action :=
  [.reactor .ok,.reactor .ok,.stop 0,.reactor (.fail .ebadf),.reactor .ok,.reactor .ok,
    .reactor .ok]

/-- A run to the end of the setup and on from there. -/
theorem setUp_runs (options : TcpOptions) (as : List Action) (pc : Pc) (broken : Bool)
    (run : ((machine.run (.boot 8080 options false true []) (oneClient.take 8)).bind fun u =>
      (u.reactor .ok).bind fun s => (machine.run s as).map fun t =>
        (u.pc,t.pc,decide (machine.Precedes Breaks Stops s as)))=some (.setRunning,pc,broken)) :
    ∃ s t,SetUp 8080 options false true [] s ∧ machine.run s as=some t ∧ t.pc=pc ∧
      (machine.Precedes Breaks Stops s as ↔ broken=true) := by
  obtain ⟨u,hu,run⟩ := Option.bind_eq_some_iff.mp run
  obtain ⟨s,hs,run⟩ := Option.bind_eq_some_iff.mp run
  obtain ⟨t,ht,run⟩ := Option.map_eq_some_iff.mp run
  simp only [Prod.mk.injEq] at run
  obtain ⟨hp,hq,rfl⟩ := run
  exact ⟨s,t,⟨_,u,hu,hp,hs⟩,ht,hq,by simp⟩

theorem noEvents_runs : ∃ s t,SetUp 8080 { maxEpollEvents := 0 } false true [] s ∧
    machine.run s invalidWait=some t ∧ t.pc=.returned .success ∧
    machine.Precedes Breaks Stops s invalidWait := by
  obtain ⟨s,t,hs,ht,hc,broken⟩ := setUp_runs { maxEpollEvents := 0 } invalidWait
    (.returned .success) true (by decide +kernel)
  exact ⟨s,t,hs,ht,hc,broken.mpr rfl⟩

theorem stoppedWait_runs : ∃ s t,SetUp 8080 {} false true [] s ∧
    machine.run s stoppedWait=some t ∧ t.pc=.returned .success ∧
    ¬machine.Precedes Breaks Stops s stoppedWait := by
  obtain ⟨s,t,hs,ht,hc,broken⟩ := setUp_runs {} stoppedWait (.returned .success) false
    (by decide +kernel)
  exact ⟨s,t,hs,ht,hc,by simpa using broken⟩

end ends

/-- A broken loop is reported as success. -/
theorem broken_loop_succeeds : ¬∀ port options loggerCb dataCb foreign s t as code,
    0 ≤ options.maxEpollEvents → 0 ≤ options.networkBufferSize →
    SetUp port options loggerCb dataCb foreign s → machine.run s as=some t →
    t.pc=.returned code → Truthful s as code := by
  intro h
  obtain ⟨s,t,hs,ht,hc,broken⟩ := noEvents_runs
  have truthful := h 8080 { maxEpollEvents := 0 } false true [] s t invalidWait .success
    (by decide) (by decide) hs ht hc
  exact truthful.failure broken rfl

theorem start_verdict_both_ends :
    (∃ s,SetUp 8080 { maxEpollEvents := 0 } false true [] s ∧ ¬Truthful s invalidWait .success) ∧
    ∃ s,SetUp 8080 {} false true [] s ∧ Truthful s stoppedWait .success := by
  constructor
  · obtain ⟨s,t,hs,ht,hc,broken⟩ := noEvents_runs
    have verdict := start_verdict 8080 { maxEpollEvents := 0 } false true [] s t invalidWait
      .success hs ht hc
    exact ⟨s,hs,fun truthful => verdict.mp truthful broken⟩
  · obtain ⟨s,t,hs,ht,hc,whole⟩ := stoppedWait_runs
    exact ⟨s,hs,(start_verdict 8080 {} false true [] s t stoppedWait .success hs ht hc).mpr whole⟩

end TuyulNet.Server
