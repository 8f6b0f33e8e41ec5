import TuyulNet.Client.System

namespace TuyulNet.Client

open Framework Kernel

/-- Where the application thread is in the life of a connection. -/
inductive Phase
  | rest | opening | started | assigning | clearing | joining | closing | destroying | released
  deriving DecidableEq

/-- `released` is the return of `disconnect`. -/
def App.phase : App → Phase
  | .idle (some .disconnect) => .released
  | .idle _ | .testConnected _ _ | .send _ | .testDisconnect _ | .gone => .rest
  | .spawn => .started
  | .assign => .assigning
  | .shutdown .clearFlag _ => .clearing
  | .shutdown .testJoin _ | .shutdown .join _ => .joining
  | .shutdown _ _ => .closing
  | .destroyImpl => .destroying
  | _ => .opening

/-- Phases in which `is_connected` is false. -/
def Phase.unset : Phase → Bool
  | .opening | .joining | .closing | .destroying | .released => true
  | _ => false

/-- Past the test of `is_connected` at the head of the loop. -/
def Worker.busy : Worker → Bool
  | .none | .start | .loopHead | .finished => false
  | _ => true

def Worker.shutting : Worker → Bool
  | .shutdown _ _ => true
  | _ => false

/-- The data callback has just called `disconnect`. -/
def Worker.asksDisconnect : Worker → Bool
  | .testDisconnect _ => true
  | _ => false

/-- What a step of the application thread can do to the flags and the phase. -/
def Moves (i j : Impl) (r : Reply) : Phase → Phase → Prop
  | .rest,p | .released,p => j.isConnected=i.isConnected ∧ j.joinable=i.joinable ∧
    (p=.rest ∨ p=.clearing ∨ i.isConnected=false ∧ (p=.opening ∨ p=.destroying ∨ p=.released))
  | .opening,p => j.joinable=i.joinable ∧
    (p=.started ∧ j.isConnected=true ∨
      j.isConnected=i.isConnected ∧ (p=.opening ∨ p=.rest ∨ p=.clearing))
  | .started,p => j.isConnected=i.isConnected ∧ j.joinable=i.joinable ∧
    (p=.assigning ∧ r=.ok ∨ p=.rest ∧ r≠.ok)
  | .assigning,p => j.isConnected=i.isConnected ∧ j.joinable=true ∧ p=.rest
  | .clearing,p => j.isConnected=false ∧ j.joinable=i.joinable ∧ p=.joining
  | .joining,p => j.isConnected=i.isConnected ∧
    (p=.joining ∧ j.joinable=i.joinable ∨ p=.closing ∧ j.joinable=false)
  | .closing,p => j.isConnected=i.isConnected ∧ j.joinable=i.joinable ∧
    (p=.closing ∨ p=.rest ∨ p=.destroying ∨ p=.released)
  | .destroying,p => j.isConnected=i.isConnected ∧ j.joinable=i.joinable ∧ p=.rest

section moves

variable {i j : Impl} {r : Reply} {lines : Trace}

theorem resume_phase (purpose : Purpose) : purpose.resume.phase=.rest ∨
    purpose.resume.phase=.destroying ∨ purpose.resume.phase=.released := by
  cases purpose with
  | connect code => exact .inl rfl
  | disconnect destroying => cases destroying <;> simp [Purpose.resume,App.phase]

theorem shutdown_moves {stage : Shutdown} {purpose : Purpose} {b : App}
    (h : callNext i (.shutdown stage purpose) r=some (j,b,lines)) :
    Moves i j r (App.shutdown stage purpose).phase b.phase := by
  have resume := resume_phase purpose
  obtain ⟨⟨j,more,lines⟩,hs,heq⟩ := Option.map_eq_some_iff.mp h
  cases heq
  cases stage with
  | clearFlag =>
    cases r <;> cases hs
    exact ⟨rfl,rfl,rfl⟩
  | testJoin =>
    cases r <;> cases hs
    by_cases hj : i.joinable=true
    · simp [App.phase,Moves,hj]
    · simp [App.phase,Moves,hj]
  | join =>
    cases r <;> cases hs
    exact ⟨rfl,.inr ⟨rfl,rfl⟩⟩
  | testEpoll =>
    cases r <;> cases hs
    by_cases he : 0 ≤ i.epollFd <;> simp [App.phase,Moves,he]
  | closeEpoll | clearEpoll | closeClient =>
    cases r <;> cases hs <;> exact ⟨rfl,rfl,.inl rfl⟩
  | testClient =>
    cases r <;> cases hs
    by_cases hc : 0 ≤ i.clientFd
    · simp [App.phase,Moves,hc]
    · rw [if_neg hc]
      exact ⟨rfl,rfl,.inr resume⟩
  | clearClient =>
    cases r <;> cases hs
    exact ⟨rfl,rfl,.inr resume⟩

theorem app_moves {a b : App} (h : a.next i r=some (j,b,lines)) : Moves i j r a.phase b.phase := by
  have dial : dialNext i a r=some (j,b,lines) → Moves i j r a.phase b.phase := by
    intro h
    unfold dialNext at h
    split at h <;> (try split at h) <;> cases h <;> simp_all [App.phase,Moves]
  have hook : hookNext i a r=some (j,b,lines) → Moves i j r a.phase b.phase := by
    intro h
    unfold hookNext bail at h
    split at h <;> cases h <;> simp [App.phase,Moves]
  cases a with
  | idle | gone => cases h
  | shutdown stage purpose => exact shutdown_moves h
  | send s =>
    obtain ⟨⟨more,lines⟩,hs,heq⟩ := Option.map_eq_some_iff.mp h
    cases heq
    cases more <;> exact ⟨rfl,rfl,.inl rfl⟩
  | testDisconnect destroying =>
    cases r <;> cases h
    by_cases hc : i.isConnected=true
    · simp [App.phase,Moves,hc]
    · cases destroying <;> simp [App.phase,Moves,hc]
  | destroyImpl =>
    cases r <;> cases h
    exact ⟨rfl,rfl,rfl⟩
  | getFl | setFl | epollCreate | epollAdd | setConnected | spawn | assign => exact hook h
  | _ => exact dial h

/-- What a step of the worker outside `shutdown_pipeline` can do to the flags and
to its own place. -/
theorem worker_moves {w v : Worker} (hw : w.shutting=false)
    (h : w.next i r=some (j,v,lines)) :
    w≠.none ∧ v≠.none ∧ j.joinable=i.joinable ∧
    (v.busy=true → w.busy=true ∨ i.isConnected=true) ∧
    (j.isConnected=i.isConnected ∨ w=.drop ∧ j.isConnected=false ∧ v=.loopHead) ∧
    (v=.drop → (∃ rest,w=.read rest) ∧ r.endsStream=true) ∧
    (v.shutting=true → w.asksDisconnect=true ∧ i.isConnected=true) := by
  have loop : loopNext i w r=some (j,v,lines) → w≠.none ∧ v≠.none ∧ j.joinable=i.joinable ∧
      (v.busy=true → w.busy=true ∨ i.isConnected=true) ∧
      (j.isConnected=i.isConnected ∨ w=.drop ∧ j.isConnected=false ∧ v=.loopHead) ∧
      (v=.drop → (∃ rest,w=.read rest) ∧ r.endsStream=true) ∧
      (v.shutting=true → w.asksDisconnect=true ∧ i.isConnected=true) := by
    intro h
    unfold loopNext at h
    split at h <;> (try split at h) <;> cases h <;> (try split) <;>
      simp_all [Worker.busy,Worker.shutting,Worker.asksDisconnect,Reply.endsStream]
  cases w with
  | shutdown stage rest => cases hw
  | send s rest =>
    obtain ⟨⟨more,lines⟩,hs,heq⟩ := Option.map_eq_some_iff.mp h
    cases heq
    cases more <;> simp [Worker.busy,Worker.shutting]
  | testDisconnect rest =>
    cases r <;> cases h
    by_cases hc : i.isConnected=true <;>
      simp [Worker.busy,Worker.shutting,Worker.asksDisconnect,hc]
  | _ => exact loop h

end moves

/-- The data callback calls `disconnect` only when `is_connected` is already false. -/
def Polite (s : State) : Action → Prop
  | .worker _ => s.worker.asksDisconnect=true → s.impl.isConnected=false
  | _ => True

instance (s : State) : ∀ a,Decidable (Polite s a)
  | .worker _ => inferInstanceAs (Decidable (_ → _))
  | .request _ | .app _ | .callback _ | .env _ => isTrue trivial

/-- How the flag, the handle of the worker, the place of the worker and the news
of a drop fit. -/
structure Control (i : Impl) (p : Phase) (w : Worker) (pending : Bool) : Prop where
  joined : w≠.none → i.joinable=true ∨ p=.assigning
  parked : w.busy=true → i.isConnected=true ∨ p=.clearing ∨ p=.joining
  unset : p.unset=true → i.isConnected=false
  closing : p=.closing → i.joinable=false
  outside : w.shutting=false
  dropped : i.joinable=true ∨ p=.assigning → i.isConnected=false → p≠.clearing → p≠.joining →
    pending=true
  starting : p=.started → (i.joinable=true → pending=true) ∧ (i.isConnected=true ∨ pending=true)
  dropping : w=.drop → pending=true

def State.Controlled (s : State) : Prop :=
  Control s.impl s.app.phase s.worker (dropPending s.trace)

section control

variable {i j : Impl} {p q : Phase} {w v : Worker} {pending : Bool} {r : Reply}

theorem Control.assign (h : Control i p w pending) (hp : p=.started)
    (flag : j.isConnected=i.isConnected) : Control j .assigning .start pending where
  joined := fun _ => .inr rfl
  parked := by simp [Worker.busy]
  unset := by simp [Phase.unset]
  closing := by simp
  outside := rfl
  dropped := by
    intro _ hc _ _
    have start := (h.starting hp).2
    rw [← flag,hc] at start
    exact start.resolve_left (by simp)
  starting := by simp
  dropping := by simp

theorem Control.join (h : Control i p w pending) (hp : p=.joining)
    (flag : j.isConnected=i.isConnected) (handle : j.joinable=false) :
    Control j .closing .none false where
  joined := by simp
  parked := by simp [Worker.busy]
  unset := fun _ => flag.trans (h.unset (by rw [hp]; rfl))
  closing := fun _ => handle
  outside := rfl
  dropped := by simp [handle]
  starting := by simp
  dropping := by simp

theorem Control.weaken {pending' : Bool} (h : Control i p w pending)
    (more : pending=true → pending'=true) : Control i p w pending' where
  joined := h.joined
  parked := h.parked
  unset := h.unset
  closing := h.closing
  outside := h.outside
  dropped := fun hj hc h1 h2 => more (h.dropped hj hc h1 h2)
  starting := fun hp => ⟨fun hj => more ((h.starting hp).1 hj),(h.starting hp).2.imp_right more⟩
  dropping := fun hw => more (h.dropping hw)

/-- No thread is there while its handle stands for none, but for the moment in which `connect_to`
has started one. -/
theorem Control.unmanned (h : Control i p w pending) (hp : p≠.assigning)
    (free : i.joinable=false) : w=.none := by
  by_contra hw
  rcases h.joined hw with hj|ha
  · rw [free] at hj
    cases hj
  · exact hp ha

/-- With no news of a drop, and no teardown on its way, a lowered flag comes with a free handle. -/
theorem Control.free (h : Control i p w pending) (flag : i.isConnected=false)
    (quiet : pending=false) (place : p≠.clearing ∧ p≠.joining) : i.joinable=false := by
  by_contra hj
  have drop := h.dropped (.inl (by simpa using hj)) flag place.1 place.2
  rw [quiet] at drop
  cases drop

/-- A step that writes neither the flag nor the handle and belongs to no start and no join. -/
theorem Control.stay (h : Control i p w pending) (flag : j.isConnected=i.isConnected)
    (handle : j.joinable=i.joinable) (leaves : p≠.assigning ∧ p≠.clearing ∧ p≠.joining)
    (enters : q≠.started ∧ q≠.assigning ∧ q≠.joining) (closed : q=.closing → p=.closing)
    (unset : q.unset=true → i.isConnected=false) : Control j q w pending where
  joined := fun hw => .inl (handle ▸ (h.joined hw).resolve_right leaves.1)
  parked := fun hw => .inl (flag ▸ (h.parked hw).resolve_right (by simp [leaves]))
  unset := fun hq => flag.trans (unset hq)
  closing := fun hq => handle.trans (h.closing (closed hq))
  outside := h.outside
  dropped := by
    intro hj hc _ _
    have joinable := handle ▸ hj.resolve_right enters.2.1
    exact h.dropped (.inl joinable) (flag ▸ hc) leaves.2.1 leaves.2.2
  starting := fun hq => absurd hq enters.1
  dropping := h.dropping

/-- Every other step of the application thread leaves the worker alone. -/
theorem Control.move (h : Control i p w pending) (mv : Moves i j r p q)
    (hj : p=.joining → q=.closing → i.joinable=false) : Control j q w pending := by
  have joined (hp : p≠.assigning) (handle : j.joinable=i.joinable) (hw : w≠.none) :
      j.joinable=true := handle ▸ (h.joined hw).resolve_right hp
  cases p with
  | rest | released =>
    obtain ⟨flag,handle,place⟩ := mv
    apply h.stay flag handle (by simp) <;>
      rcases place with rfl|rfl|⟨hc,rfl|rfl|rfl⟩ <;> simp_all [Phase.unset]
  | opening =>
    obtain ⟨handle,⟨rfl,flag⟩|⟨flag,place⟩⟩ := mv
    · -- `is_connected = true`, with the news of the handle that `connect_to` found
      have drop (hj : i.joinable=true) := h.dropped (.inl hj) (h.unset rfl) (by simp) (by simp)
      exact {
        joined := fun hw => .inl (joined (by simp) handle hw)
        parked := fun _ => .inl flag
        unset := by simp [Phase.unset]
        closing := by simp
        outside := h.outside
        dropped := by simp [flag]
        starting := fun _ => ⟨fun hj => drop (handle ▸ hj),.inl flag⟩
        dropping := h.dropping }
    · have unset := h.unset rfl
      apply h.stay flag handle (by simp) <;> rcases place with rfl|rfl|rfl <;>
        simp_all [Phase.unset]
  | started =>
    obtain ⟨flag,handle,⟨rfl,-⟩|⟨rfl,-⟩⟩ := mv
    · exact {
        joined := fun _ => .inr rfl
        parked := fun hw => .inl (flag ▸ (h.parked hw).resolve_right (by simp))
        unset := by simp [Phase.unset]
        closing := by simp
        outside := h.outside
        dropped := fun _ hc _ _ => (h.starting rfl).2.resolve_left (by simp [← flag,hc])
        starting := by simp
        dropping := h.dropping }
    · apply h.stay flag handle <;> simp [Phase.unset]
  | assigning =>
    obtain ⟨flag,handle,rfl⟩ := mv
    exact {
      joined := fun _ => .inl handle
      parked := fun hw => .inl (flag ▸ (h.parked hw).resolve_right (by simp))
      unset := by simp [Phase.unset]
      closing := by simp
      outside := h.outside
      dropped := fun _ hc _ _ => h.dropped (.inr rfl) (flag ▸ hc) (by simp) (by simp)
      starting := by simp
      dropping := h.dropping }
  | clearing =>
    obtain ⟨flag,handle,rfl⟩ := mv
    exact {
      joined := fun hw => .inl (joined (by simp) handle hw)
      parked := fun _ => .inr (.inr rfl)
      unset := fun _ => flag
      closing := by simp
      outside := h.outside
      dropped := by simp
      starting := by simp
      dropping := h.dropping }
  | joining =>
    obtain ⟨flag,⟨rfl,handle⟩|⟨rfl,handle⟩⟩ := mv
    · exact {
        joined := fun hw => .inl (joined (by simp) handle hw)
        parked := fun _ => .inr (.inr rfl)
        unset := fun _ => flag.trans (h.unset rfl)
        closing := by simp
        outside := h.outside
        dropped := by simp
        starting := by simp
        dropping := h.dropping }
    · -- there was nobody to wait for
      have gone := h.unmanned (by simp) (hj rfl rfl)
      exact {
        joined := by simp [gone]
        parked := by simp [gone,Worker.busy]
        unset := fun _ => flag.trans (h.unset rfl)
        closing := fun _ => handle
        outside := h.outside
        dropped := by simp [handle]
        starting := by simp
        dropping := h.dropping }
  | closing =>
    obtain ⟨flag,handle,place⟩ := mv
    have unset := h.unset rfl
    apply h.stay flag handle (by simp) <;> rcases place with rfl|rfl|rfl|rfl <;>
      simp_all [Phase.unset]
  | destroying =>
    obtain ⟨flag,handle,rfl⟩ := mv
    apply h.stay flag handle <;> simp [Phase.unset]

/-- The worker only adds news of a drop, and clears the flag only after that. -/
theorem Control.work {pending' : Bool} (h : Control i p w pending) (was : w≠.none)
    (handle : j.joinable=i.joinable) (busy : v.busy=true → w.busy=true ∨ i.isConnected=true)
    (flag : j.isConnected=i.isConnected ∨ w=.drop ∧ j.isConnected=false ∧ v=.loopHead)
    (drop : v=.drop → pending'=true) (more : pending=true → pending'=true)
    (out : v.shutting=false) : Control j p v pending' where
  joined := fun _ => handle ▸ h.joined was
  parked := by
    intro hv
    rcases flag with flag|⟨-,-,rfl⟩
    · rw [flag]
      rcases busy hv with hw|hc
      · exact h.parked hw
      · exact .inl hc
    · cases hv
  unset := by
    intro hp
    rcases flag with flag|⟨-,flag,-⟩
    · exact flag.trans (h.unset hp)
    · exact flag
  closing := fun hp => handle.trans (h.closing hp)
  outside := out
  dropped := by
    intro hj hc h1 h2
    apply more
    rcases flag with flag|⟨hw,-⟩
    · exact h.dropped (handle ▸ hj) (flag ▸ hc) h1 h2
    · exact h.dropping hw
  starting := by
    intro hp
    obtain ⟨joinable,start⟩ := h.starting hp
    refine ⟨fun hj => more (joinable (handle ▸ hj)),?_⟩
    rcases flag with flag|⟨hw,-⟩
    · rw [flag]
      exact start.imp_right more
    · exact .inr (more (h.dropping hw))
  dropping := drop

end control

section steps

variable {s t : State} {r : Reply}

/-- Besides its call a step of the application thread can start the worker, or end
a join, after which nothing is pending. -/
theorem app_thread (a : App) (i : Impl) (r : Reply) (w : Worker) (t : Trace) :
    (a=.spawn ∧ r=.ok ∧ i.joinable=false ∧ a.thread i r w=.start ∧
      dropPending (.call (a.call i) r::t)=dropPending t) ∨
    ((∃ purpose,a=.shutdown .join purpose) ∧ a.thread i r w=.none ∧
      dropPending (.call (a.call i) r::t)=false) ∨
    (∀ purpose,a≠.shutdown .join purpose) ∧ a.thread i r w=w ∧
      dropPending (.call (a.call i) r::t)=dropPending t := by
  cases a with
  | spawn =>
    cases r <;> (try simp [App.thread,App.call,dropPending])
    cases i.joinable <;> simp
  | shutdown stage purpose =>
    cases stage <;> simp [App.thread,App.call,Shutdown.call,dropPending]
  | send s => cases s <;> simp [App.thread,App.call,Sending.call,dropPending]
  | _ => simp [App.thread,App.call,dropPending]

theorem worker_pending {w : Worker} (hw : w.shutting=false) (i : Impl) (r : Reply) (t : Trace) :
    dropPending (.call (w.call i) r::t)=true ↔
      (∃ rest,w=.read rest) ∧ r.endsStream=true ∨ dropPending t=true := by
  cases w with
  | shutdown stage rest => cases hw
  | send s rest => cases s <;> simp [Worker.call,Sending.call,dropPending]
  | _ => simp [Worker.call,dropPending]

theorem joining_iff (a : App) : a.phase=.joining ↔
    ∃ purpose,a=.shutdown .testJoin purpose ∨ a=.shutdown .join purpose := by
  cases a with
  | idle last => cases last with
    | none => simp [App.phase]
    | some o => cases o <;> simp [App.phase]
  | shutdown stage purpose => cases stage <;> simp [App.phase]
  | _ => simp [App.phase]

/-- What a step of the application thread leaves; only a join may drop the pending news. -/
theorem Control.app {i j : Impl} {a b : App} {w : Worker} {lines : Trace} {pending pending' : Bool}
    (h : Control i a.phase w pending) (hn : a.next i r=some (j,b,lines))
    (more : (∀ purpose,a≠.shutdown .join purpose) → pending=true → pending'=true) :
    Control j b.phase (a.thread i r w) pending' := by
  have mv := app_moves hn
  rcases app_thread a i r w [] with ⟨rfl,rfl,-,hw,-⟩|⟨⟨purpose,rfl⟩,hw,-⟩|⟨hj,hw,-⟩
  · cases hn
    rw [hw]
    exact (h.assign rfl rfl).weaken (more (by simp))
  · have next : j.joinable=false ∧ j.isConnected=i.isConnected ∧ b.phase=.closing := by
      cases r <;> cases hn
      exact ⟨rfl,rfl,rfl⟩
    obtain ⟨handle,flag,phase⟩ := next
    rw [hw,phase]
    exact (h.join rfl flag handle).weaken (by simp)
  · rw [hw]
    refine Control.weaken ?_ (more hj)
    apply h.move mv
    intro hp hq
    obtain ⟨purpose,rfl|ha⟩ := (joining_iff _).mp hp
    · cases r <;> cases hn
      cases free : i.joinable with
      | false => rfl
      | true =>
        rw [free] at hq
        cases hq
    · exact absurd ha (hj purpose)

theorem app_control (h : s.Controlled) (hs : s.appStep r=some t) : t.Controlled := by
  obtain ⟨runs,k,i,app,lines,hk,hn,rfl⟩ := appStep_cases hs
  have skip := (app_lines hn).skip (f := dropPending) (fun _ _ _ => rfl)
    (.call (s.app.call s.impl) r::s.trace)
  show Control i app.phase (s.app.thread s.impl r s.worker) (dropPending (lines++_))
  rw [skip]
  refine Control.app h hn fun hj hp => ?_
  rcases app_thread s.app s.impl r s.worker s.trace with ⟨-,-,-,-,hd⟩|⟨⟨purpose,ha⟩,-⟩|⟨-,-,hd⟩
  · exact hd ▸ hp
  · exact absurd ha (hj purpose)
  · exact hd ▸ hp

theorem worker_control (h : s.Controlled) (hp : Polite s (.worker r))
    (hs : s.workerStep r=some t) : t.Controlled := by
  obtain ⟨k,i,worker,lines,hk,hn,rfl⟩ := workerStep_cases hs
  obtain ⟨was,still,handle,busy,flag,drop,shut⟩ := worker_moves h.outside hn
  have skip := (worker_lines hn).skip (f := dropPending) (fun _ _ _ => rfl)
    (.call (s.worker.call s.impl) r::s.trace)
  have pending := worker_pending h.outside s.impl r s.trace
  show Control i s.app.phase worker (dropPending (lines++_))
  rw [skip]
  apply Control.work h was handle busy flag
  · exact fun hv => pending.mpr (.inl (drop hv))
  · exact fun hd => pending.mpr (.inr hd)
  · by_contra hv
    obtain ⟨hw,hc⟩ := shut (by simpa using hv)
    rw [hp hw] at hc
    cases hc

theorem step_controlled (s : State) (a : Action) (t : State) (h : s.Controlled) (hp : Polite s a)
    (hs : machine.step s a=some t) : t.Controlled := by
  obtain ⟨-,⟨q,last,rfl,ha,rfl⟩|⟨r,rfl,ht⟩|⟨r,rfl,ht⟩|⟨c,rest,rfl,hw,rfl⟩|⟨e,k,rfl,-,rfl⟩⟩ :=
    step_cases hs
  · have idle : s.app.phase=.rest ∨ s.app.phase=.released := by
      rw [ha]
      cases last with
      | none => exact .inl rfl
      | some o => cases o <;> simp [App.phase]
    have entry : q.entry.phase=.rest := by cases q <;> rfl
    show Control s.impl q.entry.phase s.worker (dropPending s.trace)
    rw [entry]
    apply Control.move (r := .ok) h
    · rcases idle with hp|hp <;> rw [hp] <;> exact ⟨rfl,rfl,.inl rfl⟩
    · simp
  · exact app_control h ht
  · exact worker_control h hp ht
  · apply Control.work h
    · simp [hw]
    · rfl
    · exact fun _ => .inl (by rw [hw]; rfl)
    · exact .inl rfl
    · cases c <;> simp [Callback.entry]
    · exact id
    · cases c <;> rfl
  · exact h

theorem boot_controlled (options : TcpOptions) (loggerCb dataCb pipeSignal : Bool)
    (foreign : List Fd) :
    (State.boot options loggerCb dataCb pipeSignal foreign).Controlled := by
  constructor <;> simp [State.boot,Worker.busy,Phase.unset,App.phase,Worker.shutting]

end steps

end TuyulNet.Client
