import TuyulNet.Client.Liveness

namespace TuyulNet.Client

open Framework Kernel

def Shutdown.left : Shutdown → Nat
  | .clearFlag => 11
  | .testJoin => 10
  | .join => 9
  | .testEpoll => 8
  | .closeEpoll => 7
  | .clearEpoll => 6
  | .testClient => 5
  | .closeClient => 4
  | .clearClient => 3

/-- Bytes that `send_data` still has to hand over, its entry check and its return. -/
def Sending.left : Sending → Nat
  | .test payload => payload.length+2
  | .write _ _ left => left+1

/-- Statements on the way to the end of the call, or bytes for `send_data`. -/
def App.way : App → Nat
  | .idle _ | .gone => 0
  | .destroyImpl => 1
  | .shutdown stage _ => stage.left
  | .testDisconnect _ => 12
  | .assign => 12
  | .spawn => 13
  | .setConnected => 14
  | .epollAdd => 15
  | .epollCreate => 16
  | .setFl _ _ => 17
  | .getFl _ => 18
  | .freeConnected _ | .freeRefused _ => 19
  | .clearRefused _ => 20
  | .closeRefused _ => 21
  | .connect _ | .freeFailed _ => 22
  | .socket _ => 23
  | .lookup _ _ => 24
  | .testConnected _ _ => 25
  | .send x => x.left

/-- Whoever can be joined is there, and only such a thread is joined. -/
structure Threaded (s : State) : Prop where
  thread : s.impl.joinable=true ∨ s.app=.assign → s.worker≠.none
  joins : ∀ purpose,s.app=.shutdown .join purpose → s.impl.joinable=true

section steps

variable {i j : Impl} {a b : App} {w v : Worker} {k l : Kernel} {r : Reply} {lines : Trace}
  {s t : State} {act : Action}

theorem resume_way (purpose : Purpose) :
    purpose.resume.sending=none ∧ purpose.resume.way≤1 := by
  cases purpose with
  | connect code => exact ⟨rfl,Nat.zero_le 1⟩
  | disconnect destroying => cases destroying <;> simp [Purpose.resume,App.sending,App.way]

theorem shutdown_left {stage : Shutdown} {more : Option Shutdown}
    (hn : stage.next i r=some (j,more,lines)) :
    1 < stage.left ∧ ∀ next,more=some next → next.left<stage.left := by
  unfold Shutdown.next at hn
  split at hn <;> cases hn <;> (try split) <;> simp [Shutdown.left]

/-- Outside `send_data` each statement brings a call nearer to its end. -/
theorem next_way (hs : a.sending=none) (hn : a.next i r=some (j,b,lines)) :
    b.sending=none ∧ b.way<a.way := by
  have dial : dialNext i a r=some (j,b,lines) → b.sending=none ∧ b.way<a.way := by
    intro h
    unfold dialNext at h
    split at h <;> (try split at h) <;> cases h <;> simp [App.sending,App.way]
  have hook : hookNext i a r=some (j,b,lines) → b.sending=none ∧ b.way<a.way := by
    intro h
    unfold hookNext bail at h
    split at h <;> cases h <;> simp [App.sending,App.way,Shutdown.left]
  cases a with
  | idle | gone => cases hn
  | send x => cases hs
  | shutdown stage purpose =>
    obtain ⟨⟨j,more,lines⟩,h,heq⟩ := Option.map_eq_some_iff.mp hn
    cases heq
    obtain ⟨away,less⟩ := shutdown_left h
    obtain ⟨silent,short⟩ := resume_way purpose
    cases more with
    | none => exact ⟨silent,short.trans_lt away⟩
    | some next => exact ⟨rfl,less next rfl⟩
  | testDisconnect destroying =>
    cases r <;> cases hn
    split
    · exact ⟨rfl,by simp [App.way,Shutdown.left]⟩
    · cases destroying <;> simp [App.sending,App.way]
  | destroyImpl =>
    cases r <;> cases hn
    simp [App.sending,App.way]
  | getFl | setFl | epollCreate | epollAdd | setConnected | spawn | assign => exact hook hn
  | _ => exact dial hn

/-- Where `send_data` goes on, it has handed over some bytes or was told to wait. -/
theorem send_left {x y : Sending} (hk : k.answer (x.call i) r=some l)
    (hn : x.next i r=some (.inl y,lines)) :
    y.left<x.left ∨ y=x ∧ ∃ e,r=.fail e ∧ e.wouldBlock=true := by
  have loop {payload : Bytes} {pos left : Nat} (h : Sending.loop payload pos left=.inl y) :
      y.left=left+1 := by
    unfold Sending.loop at h
    split at h <;> cases h
    rfl
  cases x with
  | test payload =>
    cases r <;> (try cases hn)
    have hn : (if i.isConnected=false ∨ i.clientFd<0 then _ else _)=_ := hn
    split at hn
    · cases hn
    · have more := loop (congrArg Prod.fst (Option.some.inj hn))
      exact .inl (by rw [more]; exact Nat.lt_succ_self _)
  | write payload pos left =>
    cases r with
    | wrote n =>
      have more := loop (congrArg Prod.fst (Option.some.inj hn))
      obtain ⟨-,some_taken,fits⟩ := write_lands hk
      rw [List.length_take] at fits
      left
      show y.left<left+1
      omega
    | fail e =>
      simp only [Sending.next] at hn
      split at hn <;> cases hn
      rename_i block
      exact .inr ⟨rfl,e,rfl,block⟩
    | _ => cases hn

/-- A step never takes a call farther from its end, and one of the application thread brings it
nearer, unless the socket is full. -/
theorem call_step (hr : s.app.rests=false) (hs : machine.step s act=some t) :
    t.app.way≤ s.app.way ∧ (act.fromApp=true → (act.stalled=true → s.app.sending=none) →
      t.app.way<s.app.way) := by
  obtain ⟨-,⟨q,last,rfl,hp,rfl⟩|⟨r,rfl,ht⟩|⟨r,rfl,ht⟩|⟨c,rest,rfl,hp,rfl⟩|⟨e,k,rfl,hk,rfl⟩⟩ :=
    step_cases hs
  · rw [hp] at hr
    cases hr
  · obtain ⟨-,k,i,app,lines,hk,hn,rfl⟩ := appStep_cases ht
    show app.way≤_ ∧ (_ → _ → app.way<_)
    cases hx : s.app with
    | send x =>
      rw [hx] at hk hn
      obtain ⟨⟨more,lines⟩,hs,heq⟩ := Option.map_eq_some_iff.mp hn
      cases heq
      cases more with
      | inl y =>
        rcases send_left hk hs with less|⟨rfl,e,rfl,block⟩
        · exact ⟨less.le,fun _ _ => less⟩
        · exact ⟨le_rfl,fun _ full => by cases full block⟩
      | inr code =>
        refine ⟨Nat.zero_le _,fun _ _ => ?_⟩
        cases x <;> exact Nat.succ_pos _
    | _ =>
      rw [hx] at hn
      have nearer := (next_way rfl hn).2
      exact ⟨nearer.le,fun _ _ => nearer⟩
  · obtain ⟨k,i,v,lines,-,-,rfl⟩ := workerStep_cases ht
    exact ⟨le_rfl,by simp [Action.fromApp]⟩
  · exact ⟨le_rfl,by simp [Action.fromApp]⟩
  · exact ⟨le_rfl,by simp [Action.fromApp]⟩

/-- What `connect_to` and `shutdown_pipeline` do about the handle of the thread. -/
theorem next_handle (hn : a.next i r=some (j,b,lines)) :
    (b=.assign → a=.spawn ∧ r=.ok) ∧ (j.joinable=true → i.joinable=true ∨ a=.assign) ∧
      ∀ purpose,b=.shutdown .join purpose → j.joinable=true := by
  have dial : dialNext i a r=some (j,b,lines) → (b=.assign → a=.spawn ∧ r=.ok) ∧
      (j.joinable=true → i.joinable=true ∨ a=.assign) ∧
        ∀ purpose,b=.shutdown .join purpose → j.joinable=true := by
    intro h
    unfold dialNext at h
    split at h <;> (try split at h) <;> cases h <;> simp +contextual
  have hook : hookNext i a r=some (j,b,lines) → (b=.assign → a=.spawn ∧ r=.ok) ∧
      (j.joinable=true → i.joinable=true ∨ a=.assign) ∧
        ∀ purpose,b=.shutdown .join purpose → j.joinable=true := by
    intro h
    unfold hookNext bail at h
    split at h <;> cases h <;> simp +contextual
  cases a with
  | idle | gone => cases hn
  | send x =>
    obtain ⟨⟨more,lines⟩,-,heq⟩ := Option.map_eq_some_iff.mp hn
    cases heq
    cases more <;> simp +contextual
  | shutdown stage purpose =>
    obtain ⟨⟨j,more,lines⟩,hs,heq⟩ := Option.map_eq_some_iff.mp hn
    cases heq
    have resume : purpose.resume≠.assign ∧ ∀ other,purpose.resume≠.shutdown .join other := by
      cases purpose with
      | connect code => simp [Purpose.resume]
      | disconnect destroying => cases destroying <;> simp [Purpose.resume]
    cases stage with
    | testJoin =>
      cases r <;> cases hs
      cases i.joinable <;> simp
    | testEpoll =>
      cases r <;> cases hs
      by_cases he : 0 ≤ i.epollFd <;> simp +contextual [he]
    | testClient =>
      cases r <;> cases hs
      by_cases hc : 0 ≤ i.clientFd <;> simp +contextual [hc,resume]
    | _ => cases r <;> cases hs <;> simp +contextual [resume]
  | testDisconnect destroying =>
    cases r <;> cases hn
    split <;> (try split) <;> simp +contextual
  | destroyImpl =>
    cases r <;> cases hn
    simp +contextual
  | getFl | setFl | epollCreate | epollAdd | setConnected | spawn | assign => exact hook hn
  | _ => exact dial hn

theorem app_threaded (ht : Threaded s) (hs : s.appStep r=some t) : Threaded t := by
  obtain ⟨-,k,i,app,lines,-,hn,rfl⟩ := appStep_cases hs
  obtain ⟨starts,keeps,joins⟩ := next_handle hn
  refine ⟨fun owner => ?_,joins⟩
  show s.app.thread s.impl r s.worker≠.none
  rcases app_thread s.app s.impl r s.worker [] with ⟨-,-,-,start,-⟩|⟨⟨purpose,hp⟩,-⟩|⟨-,same,-⟩
  · rw [start]
    simp
  · rw [hp] at hn
    cases r <;> cases hn
    rcases owner with hj|ha <;> contradiction
  · rcases owner with hj|ha
    · rw [same]
      exact ht.thread (keeps hj)
    · obtain ⟨hp,rfl⟩ := starts ha
      cases hj : s.impl.joinable with
      | true =>
        rw [same]
        exact ht.thread (.inl hj)
      | false => simp [hp,App.thread,hj]

theorem step_threaded (h : Sound s) (ht : Threaded s) (hs : machine.step s act=some t) :
    Threaded t := by
  obtain ⟨-,⟨q,last,rfl,hp,rfl⟩|⟨r,rfl,happ⟩|⟨r,rfl,hw⟩|⟨c,rest,rfl,hp,rfl⟩|⟨e,k,rfl,hk,rfl⟩⟩ :=
    step_cases hs
  · refine ⟨fun owner => ht.thread (owner.imp_right fun ha => ?_),fun purpose ha => ?_⟩
    · cases q <;> cases ha
    · cases q <;> cases ha
  · exact app_threaded ht happ
  · obtain ⟨k,i,worker,lines,-,hn,rfl⟩ := workerStep_cases hw
    obtain ⟨-,there,handle,-⟩ := worker_moves h.control.outside hn
    exact ⟨fun _ => there,fun purpose ha => handle.trans (ht.joins purpose ha)⟩
  · exact ⟨fun _ => by cases c <;> simp [Callback.entry],ht.joins⟩
  · exact ⟨ht.thread,ht.joins⟩

/-- The options are those of the constructor. -/
theorem step_kept (h : Sound s) (hs : machine.step s act=some t) :
    t.impl.options=s.impl.options := by
  obtain ⟨-,⟨q,last,rfl,hp,rfl⟩|⟨r,rfl,happ⟩|⟨r,rfl,hw⟩|⟨c,rest,rfl,hp,rfl⟩|⟨e,k,rfl,hk,rfl⟩⟩ :=
    step_cases hs
  · rfl
  · obtain ⟨-,k,i,app,lines,-,hn,rfl⟩ := appStep_cases happ
    exact (next_options hn).1
  · obtain ⟨k,i,worker,lines,-,hn,rfl⟩ := workerStep_cases hw
    exact (worker_options h.control.outside hn).1
  · rfl
  · rfl

end steps

namespace FairRun

variable {options : TcpOptions} {loggerCb dataCb pipeSignal : Bool} {foreign : List Fd}
  {σ : Nat → State} {α : Nat → Action} {n : Nat}

theorem threaded (run : FairRun options loggerCb dataCb pipeSignal foreign σ α) (n : Nat) :
    Threaded (σ n) :=
  run.runs.keeps (I := Threaded) (fun p _ h ht => step_threaded (run.sound p) h ht)
    (by rw [run.start]; exact ⟨by simp [State.boot],by simp [State.boot]⟩) n n.zero_le

theorem kept (run : FairRun options loggerCb dataCb pipeSignal foreign σ α) (n : Nat) :
    (σ n).impl.options=options :=
  run.runs.keeps (I := fun s => s.impl.options=options)
    (fun p _ h ht => (step_kept (run.sound p) ht).trans h) (by rw [run.start]; rfl) n n.zero_le

/-- With a timeout every `epoll_wait` ends. -/
theorem alert (run : FairRun options loggerCb dataCb pipeSignal foreign σ α)
    (timed : 0 ≤ options.watchdogTimeoutMs) : Alert σ α := by
  intro n inside
  by_contra held
  have idle (p : Nat) (hp : p≥n) : (α p).fromWorker=false := by
    by_contra moves
    exact held ⟨p,hp,by simpa using moves⟩
  rcases run.fair.worker n idle with rests|⟨-,forever,-⟩
  · rw [inside n le_rfl] at rests
    cases rests
  · rw [run.kept n] at forever
    omega

/-- No `join` waits for ever: the flag is down, and the worker is there to see it. -/
theorem join_ends (run : FairRun options loggerCb dataCb pipeSignal foreign σ α)
    (timed : 0 ≤ options.watchdogTimeoutMs) (n : Nat) :
    ∃ p≥n,(σ p).app.waits (σ p).worker=false := by
  by_contra never
  have waits (p : Nat) (hp : n≤p) : (∃ purpose,(σ p).app=.shutdown .join purpose) ∧
      (σ p).worker≠.finished := by
    have held : (σ p).app.waits (σ p).worker=true := by
      by_contra runs
      exact never ⟨p,hp,by simpa using runs⟩
    unfold App.waits at held
    split at held
    · rename_i purpose ha
      exact ⟨⟨purpose,ha⟩,by simpa using held⟩
    · cases held
  obtain ⟨⟨purpose,joins⟩,here⟩ := waits n le_rfl
  have there := (run.threaded n).thread (.inl ((run.threaded n).joins purpose joins))
  have inside : (σ n).worker.rests=false := by
    cases hw : (σ n).worker with
    | none => exact absurd hw there
    | finished => exact absurd hw here
    | _ => rfl
  obtain ⟨p,hp,⟨-,up⟩|done⟩ := worker_leads run.runs run.sound run.fair (run.alert timed) n inside
  · obtain ⟨⟨purpose,ha⟩,-⟩ := waits p hp
    have down := (run.sound p).control.unset (by rw [ha]; rfl)
    rw [up] at down
    cases down
  · exact (waits p hp).2 done

/-- As long as a call lasts, the application thread comes to its next step in it. -/
theorem acts (run : FairRun options loggerCb dataCb pipeSignal foreign σ α)
    (timed : 0 ≤ options.watchdogTimeoutMs) (calling : ∀ p≥n,(σ p).app.rests=false) :
    ∃ p≥n,(α p).fromApp=true ∧ ((α p).stalled=true → (σ p).app.sending=none) := by
  by_contra never
  by_cases sends : ∀ p≥n,(σ p).app.sending≠none
  · obtain ⟨p,hp,act,free⟩ := run.fair.writable n sends
    exact never ⟨p,hp,act,by simp [free]⟩
  · obtain ⟨p,hp,silent⟩ : ∃ p≥n,(σ p).app.sending=none := by
      by_contra busy
      exact sends fun p hp hn => busy ⟨p,hp,hn⟩
    -- from here on the application thread would not move
    have next (q : Nat) (hq : p≤q) (same : (σ q).app=(σ p).app) :
        (α q).fromApp=false ∧ (σ (q+1)).app=(σ p).app := by
      have held : (α q).fromApp=false := by
        by_contra act
        exact never ⟨q,hp.trans hq,by simpa using act,fun _ => by rw [same,silent]⟩
      exact ⟨held,(app_stays held (run.runs q)).trans same⟩
    have still (q : Nat) (hq : p≤q) : (σ q).app=(σ p).app := by
      induction q,hq using Nat.le_induction with
      | base => rfl
      | succ q hq ih => exact (next q hq ih).2
    rcases run.fair.app p fun q hq => (next q hq (still q hq)).1 with rests|waits
    · rw [calling p hp] at rests
      cases rests
    · obtain ⟨q,hq,runs⟩ := run.join_ends timed p
      rw [waits q hq] at runs
      cases runs

/-- Every call of `connect_to`, `send_data` and `disconnect` returns, and so does the destructor. -/
theorem calls_return (run : FairRun options loggerCb dataCb pipeSignal foreign σ α)
    (timed : 0 ≤ options.watchdogTimeoutMs) (n : Nat) : ∃ m≥n,(σ m).app.rests=true := by
  have leads : LeadsTo σ (fun s => s.app.rests=false) fun s => s.app.rests=true := by
    apply run.runs.variant (fun s => s.app.way)
      (fun s a => a.fromApp=true ∧ (a.stalled=true → s.app.sending=none))
    · exact fun p calling => run.acts timed calling
    · intro p t calling ht
      obtain ⟨less,strict⟩ := call_step calling ht
      cases hr : t.app.rests with
      | true => exact .inl rfl
      | false => exact .inr ⟨rfl,less,fun ⟨act,free⟩ => strict act free⟩
  cases hr : (σ n).app.rests with
  | true => exact ⟨n,le_rfl,hr⟩
  | false => exact leads n hr

/-- The worker is waiting, and nothing arrives, when `disconnect` is called. -/
def hangsUp : List Action :=
  dialed++[.worker .ok,.worker .ok,.worker .ok,.request .disconnect,.app .ok,.app .ok,.app .ok,
    .worker (.events []),.worker .ok,.app .ok,.app .ok,.app .ok,.app .ok,.app .ok,.app .ok,
    .app .ok]

theorem calls_return_hangs_up : ∃ σ α,FairRun {} false true true [] σ α ∧
    (σ 20).app=.shutdown .join (.disconnect false) ∧ ∃ m≥20,(σ m).app.rests=true := by
  have run : (machine.run (.boot {} false true true []) hangsUp).map State.fate=some .alive := by
    decide +kernel
  obtain ⟨t,ht,alive⟩ := Option.map_eq_some_iff.mp run
  obtain ⟨σ,α,run,states,-⟩ := of_run ht alive (m := 28) (n := 21) (by decide) (by decide)
    (by decide) (by decide +kernel) (by decide +kernel)
  have waits : (machine.run (.boot {} false true true []) (hangsUp.take 20)).map State.app=
      some (.shutdown .join (.disconnect false)) := by
    decide +kernel
  rw [states] at waits
  exact ⟨σ,α,run,Option.some.inj waits,run.calls_return (by decide) 20⟩

end FairRun

end TuyulNet.Client
