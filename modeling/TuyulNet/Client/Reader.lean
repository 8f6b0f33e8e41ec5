import TuyulNet.Client.Lifecycle

namespace TuyulNet.Client

open Framework

/-- A worker was started, and not joined, since a socket was last hooked into an
epoll set. -/
def started : Trace → Bool
  | [] => false
  | .call .threadStart .ok::_ => true
  | .call .threadJoin _::_ => false
  | .call (.epollAdd _ _ _) .ok::_ => false
  | _::t => started t

/-- The worker of the current connection is there and still in its function. -/
def State.Reads (s : State) : Prop :=
  started s.trace=true ∧ s.worker≠.none ∧ s.worker≠.finished

/-- If the flag is up here, its worker is about to be started or the flag is
about to be cleared. -/
def App.turning : App → Bool
  | .spawn | .testDisconnect _ | .shutdown .clearFlag _ => true
  | _ => false

/-- At `epoll_wait`. -/
def Worker.waits : Worker → Bool
  | .epollWait | .waiting _ => true
  | _ => false

/-- The thread can be started, and `epoll_wait` does not fail for good under a
flag that is there to stay. -/
def Serves (s : State) : Action → Prop
  | .app (.fail _) => s.app≠.spawn
  | .worker (.fail e) => s.worker.waits=true → e≠.eintr →
    s.impl.isConnected=false ∨ s.app.turning=true
  | _ => True

instance (s : State) : ∀ a,Decidable (Serves s a)
  | .app r => match r with
    | .fail _ => inferInstanceAs (Decidable (_≠_))
    | .ok | .fd _ | .conn _ _ | .flags _ | .events _ | .data _ | .wrote _ | .addr _ =>
      isTrue trivial
  | .worker r => match r with
    | .fail _ => inferInstanceAs (Decidable (_ → _ → _))
    | .ok | .fd _ | .conn _ _ | .flags _ | .events _ | .data _ | .wrote _ | .addr _ =>
      isTrue trivial
  | .request _ | .callback _ | .env _ => isTrue trivial

/-- The flag is down where `connect_to` and `shutdown_pipeline` rely on it, and
elsewhere it stands for a worker that reads. -/
structure Manned (s : State) : Prop where
  unset : s.app.phase.unset=true → s.impl.isConnected=false
  reader : s.fate=.alive → s.impl.isConnected=true → s.app.turning=true ∨ s.Reads

section steps

variable {i j : Impl} {r : Reply} {lines : Trace}

/-- The flag stays up only where it was up, or comes up right before the thread
is started. -/
theorem app_turning {a b : App} (h : a.next i r=some (j,b,lines)) (up : j.isConnected=true)
    (start : a=.spawn → ∀ e,r≠.fail e) :
    b.turning=true ∨ a=.spawn ∧ r=.ok ∨ a.turning=false ∧ i.isConnected=true := by
  have dial : dialNext i a r=some (j,b,lines) → b.turning=true ∨ a=.spawn ∧ r=.ok ∨
      a.turning=false ∧ i.isConnected=true := by
    intro h
    unfold dialNext at h
    split at h <;> (try split at h) <;> cases h <;> simp_all [App.turning]
  have hook : hookNext i a r=some (j,b,lines) → b.turning=true ∨ a=.spawn ∧ r=.ok ∨
      a.turning=false ∧ i.isConnected=true := by
    intro h
    unfold hookNext bail at h
    split at h <;> cases h <;> simp_all [App.turning]
  cases a with
  | idle | gone => cases h
  | shutdown stage purpose =>
    obtain ⟨⟨j,more,lines⟩,hs,heq⟩ := Option.map_eq_some_iff.mp h
    cases heq
    cases stage <;> cases r <;> cases hs <;> first
      | cases up
      | exact .inr (.inr ⟨rfl,up⟩)
  | send s =>
    obtain ⟨⟨more,lines⟩,hs,heq⟩ := Option.map_eq_some_iff.mp h
    cases heq
    exact .inr (.inr ⟨rfl,up⟩)
  | testDisconnect destroying =>
    cases r <;> cases h
    rw [if_pos up]
    exact .inl rfl
  | destroyImpl =>
    cases r <;> cases h
    exact .inr (.inr ⟨rfl,up⟩)
  | getFl | setFl | epollCreate | epollAdd | setConnected | spawn | assign => exact hook h
  | _ => exact dial h

theorem Moves.unset {p q : Phase} (mv : Moves i j r p q)
    (h : p.unset=true → i.isConnected=false) (hq : q.unset=true) : j.isConnected=false := by
  cases p with
  | rest | released =>
    obtain ⟨flag,-,rfl|rfl|⟨down,-⟩⟩ := mv
    · cases hq
    · cases hq
    · exact flag.trans down
  | opening =>
    obtain ⟨-,⟨rfl,-⟩|⟨flag,-⟩⟩ := mv
    · cases hq
    · exact flag.trans (h rfl)
  | started =>
    obtain ⟨-,-,⟨rfl,-⟩|⟨rfl,-⟩⟩ := mv <;> cases hq
  | assigning =>
    obtain ⟨-,-,rfl⟩ := mv
    cases hq
  | clearing => exact mv.1
  | joining | closing | destroying => exact mv.1.trans (h rfl)

/-- Under a raised flag the application thread leaves the worker alone. -/
theorem app_started {a : App} (hu : a.phase.unset=false) (hs : a≠.spawn) (i : Impl) (r : Reply)
    (w : Worker) (t : Trace) :
    a.thread i r w=w ∧ started (.call (a.call i) r::t)=started t := by
  cases a with
  | spawn => exact absurd rfl hs
  | shutdown stage purpose =>
    cases stage <;> first
      | exact ⟨rfl,rfl⟩
      | cases hu
  | send s => cases s <;> exact ⟨rfl,rfl⟩
  | epollAdd => cases hu
  | _ => exact ⟨rfl,rfl⟩

/-- The worker never raises the flag, and under a raised flag only a fatal failure
of `epoll_wait` makes it leave its loop. -/
theorem worker_reads {w v : Worker} (h : w.next i r=some (j,v,lines)) (up : j.isConnected=true) :
    i.isConnected=true ∧ v≠.none ∧
      (v=.finished → w.waits=true ∧ ∃ e,r=.fail e ∧ e≠.eintr) := by
  have loop : loopNext i w r=some (j,v,lines) → i.isConnected=true ∧ v≠.none ∧
      (v=.finished → w.waits=true ∧ ∃ e,r=.fail e ∧ e≠.eintr) := by
    intro h
    unfold loopNext at h
    split at h <;> (try split at h) <;> cases h <;> (try split) <;> simp_all [Worker.waits]
  cases w with
  | shutdown stage rest =>
    obtain ⟨⟨j,more,lines⟩,hs,heq⟩ := Option.map_eq_some_iff.mp h
    cases heq
    cases stage <;> cases r <;> cases hs <;> first
      | cases up
      | exact ⟨up,by split <;> simp,by split <;> simp⟩
  | send s rest =>
    obtain ⟨⟨more,lines⟩,hs,heq⟩ := Option.map_eq_some_iff.mp h
    cases heq
    exact ⟨up,by cases more <;> simp,by cases more <;> simp⟩
  | testDisconnect rest =>
    cases r <;> cases h
    exact ⟨up,by split <;> simp,by split <;> simp⟩
  | _ => exact loop h

theorem worker_started (w : Worker) (i : Impl) (r : Reply) (t : Trace) :
    (∃ rest,w=.shutdown .join rest) ∨ started (.call (w.call i) r::t)=started t := by
  cases w with
  | shutdown stage rest =>
    cases stage <;> first
      | exact .inl ⟨rest,rfl⟩
      | exact .inr rfl
  | send s rest => cases s <;> exact .inr rfl
  | _ => exact .inr rfl

theorem step_manned (s : State) (a : Action) (t : State) (h : Manned s) (hc : Serves s a)
    (hs : machine.step s a=some t) : Manned t := by
  obtain ⟨alive,⟨q,last,rfl,ha,rfl⟩|⟨r,rfl,ht⟩|⟨r,rfl,ht⟩|⟨c,rest,rfl,hw,rfl⟩|⟨e,k,rfl,-,rfl⟩⟩ :=
    step_cases hs
  · refine ⟨?_,?_⟩
    · intro hu
      cases q <;> cases hu
    · intro _ up
      have reads := h.reader alive up
      rw [ha] at reads
      exact .inr (reads.resolve_left (by simp [App.turning]))
  · obtain ⟨runs,k,i,app,lines,hk,hn,rfl⟩ := appStep_cases ht
    have skip := (app_lines hn).skip (f := started) (fun _ _ _ => rfl)
      (.call (s.app.call s.impl) r::s.trace)
    refine ⟨(app_moves hn).unset h.unset,?_⟩
    intro fate up
    have start : s.app=.spawn → ∀ e,r≠.fail e := by
      rintro ha e rfl
      exact hc ha
    rcases app_turning hn up start with turning|⟨ha,rfl⟩|⟨still,was⟩
    · exact .inl turning
    · have free : s.impl.joinable=false := by
        cases hj : s.impl.joinable with
        | false => rfl
        | true => simp [ha,App.fate,hj] at fate
      have begun : started (lines++.call (s.app.call s.impl) .ok::s.trace)=true := by
        rw [skip,ha]
        rfl
      exact .inr ⟨begun,by simp [ha,App.thread,free],by simp [ha,App.thread,free]⟩
    · have reads := (h.reader alive was).resolve_left (by simp [still])
      have raised : s.app.phase.unset=false := by
        by_contra hu
        rw [h.unset (by simpa using hu)] at was
        cases was
      have apart : s.app≠.spawn := by
        intro ha
        rw [ha] at still
        cases still
      obtain ⟨same,kept⟩ := app_started raised apart s.impl r s.worker s.trace
      refine .inr ⟨?_,?_⟩
      · show started (lines++_)=true
        rw [skip,kept]
        exact reads.1
      · show s.app.thread s.impl r s.worker≠.none ∧ s.app.thread s.impl r s.worker≠.finished
        rw [same]
        exact reads.2
  · obtain ⟨k,i,worker,lines,hk,hn,rfl⟩ := workerStep_cases ht
    have skip := (worker_lines hn).skip (f := started) (fun _ _ _ => rfl)
      (.call (s.worker.call s.impl) r::s.trace)
    refine ⟨?_,?_⟩
    · intro hu
      by_contra up
      have was := (worker_reads hn (by simpa using up)).1
      rw [h.unset hu] at was
      cases was
    · intro fate up
      obtain ⟨was,present,leaves⟩ := worker_reads hn up
      by_cases turning : s.app.turning=true
      · exact .inl turning
      · have reads := (h.reader alive was).resolve_left turning
        refine .inr ⟨?_,present,?_⟩
        · show started (lines++_)=true
          rw [skip]
          rcases worker_started s.worker s.impl r s.trace with ⟨rest,hw⟩|kept
          · simp [hw,Worker.fate] at fate
          · rw [kept]
            exact reads.1
        · intro left
          obtain ⟨waits,e,rfl,he⟩ := leaves left
          rcases hc waits he with down|up
          · rw [was] at down
            cases down
          · exact turning up
  · refine ⟨h.unset,?_⟩
    intro _ up
    rcases h.reader alive up with turning|⟨on,-,-⟩
    · exact .inl turning
    · exact .inr ⟨on,by cases c <;> simp [Callback.entry],by cases c <;> simp [Callback.entry]⟩
  · exact ⟨h.unset,h.reader⟩

end steps

/-- In a run that serves its connections, a raised flag between two calls of the
application stands for a worker that reads the current connection. -/
theorem live_reader (options : TcpOptions) (loggerCb dataCb pipeSignal : Bool)
    (foreign : List Fd) (as : List Action) (s : State) (last : Option Outcome)
    (hc : machine.Meets Serves (.boot options loggerCb dataCb pipeSignal foreign) as)
    (hr : machine.run (.boot options loggerCb dataCb pipeSignal foreign) as=some s)
    (alive : s.fate=.alive) (idle : s.app=.idle last) (up : s.impl.isConnected=true) :
    s.Reads := by
  have boot : Manned (.boot options loggerCb dataCb pipeSignal foreign) :=
    ⟨fun _ => rfl,by simp [State.boot]⟩
  have manned : Manned s := machine.invariant step_manned as _ s boot hc hr
  exact (manned.reader alive up).resolve_left (by simp [idle,App.turning])

/-- A signal interrupts `epoll_wait`, and then a byte is read and handed over. -/
def interrupted : List Action :=
  dialed++[.worker .ok,.worker .ok,.worker .ok,.worker (.fail .eintr),.worker .ok,.worker .ok,
    .env (.send 0 [65]),.env (.arrive 0 1),.worker (.events [⟨3,⟨true,false,false⟩⟩]),
    .worker .ok,.worker (.data [65]),.worker .ok,.callback .finish]

theorem live_reader_interrupted : ∃ s,
    machine.run (.boot {} false true true []) interrupted=some s ∧
    s.impl.isConnected=true ∧ s.Reads := by
  have run : (machine.run (.boot {} false true true []) interrupted).map
      (fun s => (s.fate,s.app,s.impl.isConnected))=
        some (.alive,.idle (some (.connect .success)),true) := by
    decide +kernel
  obtain ⟨s,hs,heq⟩ := Option.map_eq_some_iff.mp run
  simp only [Prod.mk.injEq] at heq
  obtain ⟨alive,idle,up⟩ := heq
  have reads := live_reader {} false true true [] interrupted s _ (by decide +kernel) hs alive idle
    up
  exact ⟨s,hs,up,reads⟩

/-- With `max_epoll_events = 0` the worker leaves its loop and `is_connected` stays
true. -/
theorem deserted_connection : ¬∀ options loggerCb dataCb pipeSignal foreign as s last,
    machine.run (.boot options loggerCb dataCb pipeSignal foreign) as=some s →
    s.fate=.alive → s.app=.idle last → s.impl.isConnected=true → s.Reads := by
  intro h
  have run : (machine.run (.boot { maxEpollEvents := 0 } false true true [])
      (dialed++[.worker .ok,.worker .ok,.worker (.fail .einval)])).map
      (fun s => (s.fate,s.app,s.impl.isConnected,s.worker))=
        some (.alive,.idle (some (.connect .success)),true,.finished) := by
    decide +kernel
  obtain ⟨s,hs,heq⟩ := Option.map_eq_some_iff.mp run
  simp only [Prod.mk.injEq] at heq
  obtain ⟨alive,idle,up,left⟩ := heq
  exact (h _ false true true [] _ s _ hs alive idle up).2.2 left

end TuyulNet.Client
