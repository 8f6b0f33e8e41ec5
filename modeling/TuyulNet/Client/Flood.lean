import TuyulNet.Client.Streams
import TuyulNet.Kernel.Supply

namespace TuyulNet

/-- Calls that move payload over a connection. -/
def Call.transfers : Call → Bool
  | .read _ _ | .write _ _ => true
  | _ => false

namespace Client

open Framework Kernel

/-- `disconnect` has cleared `is_connected`, and its `join` is still to come. -/
def App.stopping : App → Bool
  | .shutdown .testJoin (.disconnect _) | .shutdown .join (.disconnect _) => true
  | _ => false

/-- In every run, at most `bound` calls of `read` and `write` follow from the moment
`disconnect` clears `is_connected` until it has joined the worker. -/
def Bounded (options : TcpOptions) (bound : Nat) : Prop :=
  ∀ loggerCb dataCb pipeSignal foreign as s destroying t later u,
    machine.run (.boot options loggerCb dataCb pipeSignal foreign) as=some s →
    s.app=.shutdown .clearFlag (.disconnect destroying) → machine.step s (.app .ok)=some t →
    machine.run t later=some u → machine.Meets (fun v _ => v.app.stopping=true) t later →
    issued Call.transfers u.trace ≤ issued Call.transfers t.trace+bound

/-- Calls of `read` to come in this batch, or in one that `epoll_wait` is about to return, if
each event is read for once. -/
def Worker.polling (most : Nat) : Worker → Nat
  | .batch es => es.length
  | .read rest => rest.length+1
  | .epollWait | .waiting _ => most
  | _ => 0

/-- The worker has handed data to the application. -/
def Worker.given : Worker → Bool
  | .deliver _ _ | .user _ | .testDisconnect _ | .shutdown _ _ | .send _ _ => true
  | _ => false

section exit

variable {i j : Impl} {w v : Worker} {a b : App} {k l : Kernel} {r : Reply} {lines : Trace}

/-- A read uses up one of those to come, unless it has brought data; new ones come with
`epoll_wait` only. -/
theorem worker_polling (hk : k.answer (w.call i) r=some l) (hg : w.given=false)
    (hn : w.next i r=some (j,v,lines)) :
    v.given=false ∧ (w.call i).transfers.toNat+v.polling i.options.maxEpollEvents.toNat ≤
      w.polling i.options.maxEpollEvents.toNat ∨
    w=.loopHead ∧ i.isConnected=true ∧ v=.epollWait ∨
    ∃ rest bs,w=.read rest ∧ r=.data bs ∧ bs≠[] := by
  cases w with
  | none | finished => cases hn
  | deliver | user | testDisconnect | shutdown | send => cases hg
  | start | drop =>
    cases r <;> cases hn
    exact .inl ⟨rfl,le_rfl⟩
  | loopHead =>
    cases r <;> cases hn
    cases hc : i.isConnected
    · exact .inl ⟨rfl,le_rfl⟩
    · exact .inr (.inl ⟨rfl,rfl,rfl⟩)
  | epollWait =>
    cases r with
    | ok =>
      cases hn
      exact .inl ⟨rfl,(Nat.zero_add _).le⟩
    | fail e =>
      cases hn
      left
      split <;> exact ⟨rfl,Nat.zero_le _⟩
    | _ => cases hn
  | waiting ep =>
    cases r with
    | events es =>
      cases hn
      left
      split
      · exact ⟨rfl,Nat.zero_le _⟩
      · exact ⟨rfl,by simpa [Worker.call,Call.transfers,Worker.polling] using harvest_length hk⟩
    | fail e =>
      cases hn
      left
      split <;> exact ⟨rfl,Nat.zero_le _⟩
    | _ => cases hn
  | batch es =>
    cases es with
    | nil =>
      cases r <;> cases hn
      exact .inl ⟨rfl,le_rfl⟩
    | cons e rest =>
      cases r <;> cases hn
      left
      split
      · exact ⟨rfl,(Nat.zero_add _).le⟩
      · exact ⟨rfl,by simp [Worker.call,Call.transfers,Worker.polling]⟩
  | read rest =>
    cases r with
    | data bs =>
      by_cases hb : bs=[]
      · simp only [Worker.next,loopNext,if_pos hb] at hn
        cases hn
        exact .inl ⟨rfl,by simp [Worker.call,Call.transfers,Worker.polling]⟩
      · exact .inr (.inr ⟨rest,bs,rfl,rfl,hb⟩)
    | fail e =>
      simp only [Worker.next,loopNext] at hn
      split at hn <;> cases hn <;>
        exact .inl ⟨rfl,by simp [Worker.call,Call.transfers,Worker.polling,Nat.add_comm]⟩
    | _ => cases hn

theorem worker_down (hg : w.given=false) (hd : i.isConnected=false)
    (hn : w.next i r=some (j,v,lines)) : j.isConnected=false := by
  cases w with
  | deliver | user | shutdown | send | testDisconnect => cases hg
  | none | finished => cases hn
  | _ =>
    simp only [Worker.next,loopNext] at hn
    split at hn <;> (try split at hn) <;> cases hn <;> first
      | exact hd
      | rfl

/-- What is known of the worker's batches in every run. -/
structure Sized (options : TcpOptions) (s : State) : Prop where
  kept : s.impl.options=options
  own : s.worker.given=false
  sized : s.worker.polling options.maxEpollEvents.toNat ≤ options.maxEpollEvents.toNat

variable {options : TcpOptions}

theorem thread_sized (i : Impl) (a : App) (r : Reply) (hg : w.given=false) {most : Nat}
    (hp : w.polling most ≤ most) :
    (a.thread i r w).given=false ∧ (a.thread i r w).polling most ≤ most := by
  unfold App.thread
  split
  · split
    · exact ⟨hg,hp⟩
    · exact ⟨rfl,Nat.zero_le _⟩
  · exact ⟨rfl,Nat.zero_le _⟩
  · exact ⟨hg,hp⟩

/-- Without room for events or for data no read brings any. -/
theorem starved {most : Nat} {rest : List PollEvent} {bs : Bytes}
    (ho : i.options.bufferSize=0 ∨ most=0)
    (hk : k.answer (Worker.call i (.read rest)) (.data bs)=some l)
    (hp : (Worker.read rest).polling most ≤ most) : bs=[] := by
  rcases ho with empty|none
  · have hk : k.answer (.read i.clientFd i.options.bufferSize) (.data bs)=some l := hk
    rw [empty] at hk
    exact read_nothing hk
  · rw [none] at hp
    exact absurd hp (Nat.not_succ_le_zero _)

theorem step_sized (ho : options.bufferSize=0 ∨ options.maxEpollEvents.toNat=0) (s : State)
    (a : Action) (t : State) (h : Sized options s) (hs : machine.step s a=some t) :
    Sized options t := by
  obtain ⟨-,⟨q,last,-,-,rfl⟩|⟨r,-,happ⟩|⟨r,-,hw⟩|⟨c,rest,-,hp,-⟩|⟨e,k,-,-,rfl⟩⟩ := step_cases hs
  · exact ⟨h.kept,h.own,h.sized⟩
  · obtain ⟨-,k,i,app,lines,-,hn,rfl⟩ := appStep_cases happ
    obtain ⟨own,sized⟩ := thread_sized s.impl s.app r h.own h.sized
    exact ⟨(next_options hn).1.trans h.kept,own,sized⟩
  · obtain ⟨k,i,v,lines,hk,hn,rfl⟩ := workerStep_cases hw
    have outside : s.worker.shutting=false := by
      have own := h.own
      cases hp : s.worker <;> simp_all [Worker.given,Worker.shutting]
    have kept := (worker_options outside hn).1.trans h.kept
    rcases h.kept ▸ worker_polling hk h.own hn with ⟨own,fewer⟩|⟨-,-,rfl⟩|⟨rest,bs,hp,rfl,hb⟩
    · exact ⟨kept,own,(Nat.le_add_left _ _).trans (fewer.trans h.sized)⟩
    · exact ⟨kept,rfl,le_rfl⟩
    · have sized := h.sized
      rw [hp] at hk sized
      exact absurd (starved (h.kept.symm ▸ ho) hk sized) hb
  · have own := h.own
    rw [hp] at own
    cases own
  · exact ⟨h.kept,h.own,h.sized⟩

theorem stopping_moves (hc : a.stopping=true) (hn : a.next i r=some (j,b,lines)) (w : Worker) :
    (a.call i).transfers=false ∧ j.isConnected=i.isConnected ∧
      (b.stopping=true → a.thread i r w=w) := by
  unfold App.stopping at hc
  split at hc
  · cases r <;> cases hn
    exact ⟨rfl,rfl,fun _ => rfl⟩
  · cases r <;> cases hn
    exact ⟨rfl,rfl,fun hb => by cases hb⟩
  · cases hc

/-- While `disconnect` waits, with the transfers still to come. -/
structure Winding (options : TcpOptions) (transfers : Nat) (s : State) : Prop where
  known : Sized options s
  down : s.app.stopping=true → s.impl.isConnected=false
  paid : issued Call.transfers s.trace+
    (if s.app.stopping then s.worker.polling options.maxEpollEvents.toNat else 0) ≤ transfers

theorem step_winding (ho : options.bufferSize=0 ∨ options.maxEpollEvents.toNat=0)
    {transfers : Nat} (s : State) (a : Action) (t : State) (h : Winding options transfers s)
    (hc : s.app.stopping=true) (hs : machine.step s a=some t) : Winding options transfers t := by
  have known := step_sized ho s a t h.known hs
  have down := h.down hc
  have paid := h.paid
  rw [if_pos hc] at paid
  obtain ⟨-,⟨q,last,-,hp,rfl⟩|⟨r,-,happ⟩|⟨r,-,hw⟩|⟨c,rest,-,hp,-⟩|⟨e,k,-,-,rfl⟩⟩ := step_cases hs
  · rw [hp] at hc
    cases hc
  · obtain ⟨runs,k,i,app,lines,-,hn,rfl⟩ := appStep_cases happ
    obtain ⟨still,flag,same⟩ := stopping_moves hc hn s.worker
    refine ⟨known,fun _ => flag.trans down,?_⟩
    rw [(app_lines hn).skip (issued_log Call.transfers),issued_call,still]
    split
    · rename_i hb
      rw [same hb]
      exact paid
    · exact (Nat.le_add_right _ _).trans paid
  · obtain ⟨k,i,v,lines,hk,hn,rfl⟩ := workerStep_cases hw
    have fewer : (s.worker.call s.impl).transfers.toNat+
        v.polling options.maxEpollEvents.toNat ≤
          s.worker.polling options.maxEpollEvents.toNat := by
      rcases h.known.kept ▸ worker_polling hk h.known.own hn with ⟨-,fewer⟩|⟨-,up,-⟩|
        ⟨rest,bs,hp,rfl,hb⟩
      · exact fewer
      · rw [down] at up
        cases up
      · have sized := h.known.sized
        rw [hp] at hk sized
        exact absurd (starved (h.known.kept.symm ▸ ho) hk sized) hb
    refine ⟨known,fun _ => ?_,?_⟩
    · exact worker_down h.known.own down hn
    · rw [(worker_lines hn).skip (issued_log Call.transfers),issued_call,if_pos hc]
      show _+_+v.polling _ ≤ _
      omega
  · have own := h.known.own
    rw [hp] at own
    cases own
  · exact ⟨known,h.down,h.paid⟩

/-- Without room for events or for data the work that `disconnect` waits for is bounded. -/
theorem bounded_exit (ho : options.bufferSize=0 ∨ options.maxEpollEvents.toNat=0) :
    Bounded options options.maxEpollEvents.toNat := by
  intro loggerCb dataCb pipeSignal foreign as s destroying t later u hr hp hs hu hc
  have h : Sized options s :=
    machine.always (step_sized ho) as _ s ⟨rfl,rfl,Nat.zero_le _⟩ hr
  have known := step_sized ho s _ t h hs
  have down : t.impl.isConnected=false := by
    obtain ⟨-,k,i,app,lines,-,hn,rfl⟩ := appStep_cases (appStep_of_step hs)
    rw [hp] at hn
    cases hn
    rfl
  have winding :
      Winding options (issued Call.transfers t.trace+options.maxEpollEvents.toNat) t := by
    refine ⟨known,fun _ => down,Nat.add_le_add_left ?_ _⟩
    split
    · exact known.sized
    · exact Nat.zero_le _
  have done := machine.invariant (step_winding ho) later t u winding hc hu
  exact (Nat.le_add_right _ _).trans done.paid

end exit

section flood

/-- The worker is reading from connection `c`, has taken everything that there is so far, and
the server can go on. -/
structure Flooded (c : ConnId) (s : State) : Prop where
  alive : s.fate=.alive
  stopping : s.app.stopping=true
  reading : ∃ rest,s.worker=.read rest
  room : 0 < s.impl.options.bufferSize
  callback : s.impl.dataCb=true
  file : ∃ f,s.kernel.table s.impl.clientFd=some (.conn c f)
  dry : s.kernel.Dry c

/-- Steps of the application thread. -/
def Action.fromApp : Action → Bool
  | .request _ | .app _ => true
  | _ => false

def Action.byWorker : Action → Bool
  | .worker _ => true
  | _ => false

theorem app_stays {s t : State} {a : Action} (ha : a.fromApp=false)
    (hs : machine.step s a=some t) : t.app=s.app := by
  obtain ⟨-,⟨q,last,rfl,-,-⟩|⟨r,rfl,-⟩|⟨r,-,hw⟩|⟨c,rest,-,-,rfl⟩|⟨e,k,-,-,rfl⟩⟩ := step_cases hs
  · cases ha
  · cases ha
  · obtain ⟨k,i,v,lines,-,-,rfl⟩ := workerStep_cases hw
    rfl
  · rfl
  · rfl

theorem worker_of {s : State} {r : Reply} {k : Kernel} {i : Impl} {w : Worker} {lines : Trace}
    (alive : s.fate=.alive) (hk : s.kernel.answer (s.worker.call s.impl) r=some k)
    (hn : s.worker.next s.impl r=some (i,w,lines)) :
    machine.step s (.worker r)=some ⟨i,s.app,w,k,lines++.call (s.worker.call s.impl) r::s.trace,
      s.worker.fate s.impl s.pipeSignal r,s.pipeSignal⟩ := by
  show step s (.worker r)=_
  unfold step
  rw [if_pos alive]
  show s.workerStep r=_
  unfold State.workerStep
  rw [hk,hn]

theorem app_of {s : State} {r : Reply} {k : Kernel} {i : Impl} {a : App} {lines : Trace}
    (alive : s.fate=.alive) (runs : s.app.waits s.worker=false)
    (hk : s.kernel.answer (s.app.call s.impl) r=some k)
    (hn : s.app.next s.impl r=some (i,a,lines)) :
    machine.step s (.app r)=some ⟨i,a,s.app.thread s.impl r s.worker,k,
      lines++.call (s.app.call s.impl) r::s.trace,s.app.fate s.impl s.pipeSignal r,
      s.pipeSignal⟩ := by
  show step s (.app r)=_
  unfold step
  rw [if_pos alive]
  show s.appStep r=_
  unfold State.appStep
  rw [if_neg (by simpa using runs),hk,hn]

variable {c : ConnId} {s : State}

/-- One more byte comes in, is read and delivered. -/
theorem flood_once (h : Flooded c s) : ∃ later t,machine.run s later=some t ∧
    (∀ a∈later,a.fromApp=false) ∧ Flooded c t ∧
    issued Call.transfers t.trace=issued Call.transfers s.trace+1 := by
  obtain ⟨i,a,w,k,trace,fate,signal⟩ := s
  obtain ⟨alive,stopping,⟨rest,hw⟩,room,callback,⟨f,file⟩,dry⟩ := h
  simp only at alive stopping hw room callback file dry
  subst hw alive
  obtain ⟨l,m,n,sent,arrived,taken,dry,table⟩ := dry.round 0 file room
  let traceR : Trace := .call (.read i.clientFd i.options.bufferSize) (.data [0])::trace
  let traceD : Trace := .call (.deliver i.clientFd [0]) .ok::traceR
  have taken' : Worker.next i (.read rest) (.data [0])=some (i,.deliver [0] rest,[]) := by
    show some (i,if i.dataCb then Worker.deliver [0] rest else .read rest,[])=_
    rw [if_pos callback]
  have delivered : Worker.next i (.deliver [0] rest) .ok=some (i,.user rest,[]) := rfl
  have read : machine.step ⟨i,a,.read rest,m,trace,.alive,signal⟩ (.worker (.data [0]))=
      some ⟨i,a,.deliver [0] rest,n,traceR,.alive,signal⟩ :=
    worker_of (s := ⟨i,a,.read rest,m,trace,.alive,signal⟩) rfl taken taken'
  have deliver : machine.step ⟨i,a,.deliver [0] rest,n,traceR,.alive,signal⟩ (.worker .ok)=
      some ⟨i,a,.user rest,n,traceD,.alive,signal⟩ :=
    worker_of (s := ⟨i,a,.deliver [0] rest,n,traceR,.alive,signal⟩) rfl rfl delivered
  refine ⟨[.env (.send c [0]),.env (.arrive c 1),.worker (.data [0]),.worker .ok,
    .callback .finish],⟨i,a,.read rest,n,traceD,.alive,signal⟩,?_,by simp [Action.fromApp],
    ⟨rfl,stopping,⟨rest,rfl⟩,room,callback,⟨f,table ▸ file⟩,dry⟩,?_⟩
  · refine (machine.run_cons _ _ _ _).mpr ⟨⟨i,a,.read rest,l,trace,.alive,signal⟩,?_,?_⟩
    · simp [step,sent]
    refine (machine.run_cons _ _ _ _).mpr ⟨⟨i,a,.read rest,m,trace,.alive,signal⟩,?_,?_⟩
    · simp [step,arrived]
    refine (machine.run_cons _ _ _ _).mpr ⟨_,read,(machine.run_cons _ _ _ _).mpr ⟨_,deliver,?_⟩⟩
    rfl
  · simp [traceD,traceR,Call.transfers]

/-- As long as the server goes on, so does the drain loop. -/
theorem flood_more (h : Flooded c s) (n : Nat) : ∃ later t,machine.run s later=some t ∧
    (∀ a∈later,a.fromApp=false) ∧ Flooded c t ∧
    issued Call.transfers t.trace=issued Call.transfers s.trace+n :=
  machine.rounds (fun s => issued Call.transfers s.trace) (fun _ => flood_once) n s h

end flood

section widening

variable {i : Impl} {a : App} {w : Worker} {r : Reply} {k l : Kernel} (o : TcpOptions)

theorem shutdown_widened (i : Impl) (stage : Shutdown) (r : Reply) :
    stage.call { i with options := o }=stage.call i ∧ stage.next { i with options := o } r=
      (stage.next i r).map fun (j,more,lines) => ({ j with options := o },more,lines) := by
  cases stage <;> cases r <;> exact ⟨rfl,rfl⟩

theorem sending_widened (i : Impl) (s : Sending) (r : Reply) :
    s.call { i with options := o }=s.call i ∧ s.next { i with options := o } r=s.next i r := by
  cases s <;> cases r <;> exact ⟨rfl,rfl⟩

theorem app_widened (i : Impl) (a : App) (r : Reply) :
    a.call { i with options := o }=a.call i ∧ a.next { i with options := o } r=
      (a.next i r).map fun (j,b,lines) => ({ j with options := o },b,lines) := by
  cases a with
  | shutdown stage purpose =>
    obtain ⟨call,next⟩ := shutdown_widened o i stage r
    refine ⟨call,?_⟩
    show (stage.next { i with options := o } r).map _=((stage.next i r).map _).map _
    rw [next,Option.map_map,Option.map_map]
    rfl
  | send s =>
    obtain ⟨call,next⟩ := sending_widened o i s r
    refine ⟨call,?_⟩
    show (s.next { i with options := o } r).map _=((s.next i r).map _).map _
    rw [next,Option.map_map]
    rfl
  | testConnected host port =>
    cases r with
    | ok =>
      refine ⟨rfl,?_⟩
      simp only [App.next,dialNext]
      split <;> rfl
    | _ => exact ⟨rfl,rfl⟩
  | _ => cases r <;> exact ⟨rfl,rfl⟩

theorem worker_widened (i : Impl) (w : Worker) (r : Reply) : w.next { i with options := o } r=
    (w.next i r).map fun (j,v,lines) => ({ j with options := o },v,lines) := by
  cases w with
  | shutdown stage rest =>
    show (stage.next { i with options := o } r).map _=((stage.next i r).map _).map _
    rw [(shutdown_widened o i stage r).2,Option.map_map,Option.map_map]
    rfl
  | send s rest =>
    show (s.next { i with options := o } r).map _=((s.next i r).map _).map _
    rw [(sending_widened o i s r).2,Option.map_map]
    rfl
  | batch es => cases es <;> cases r <;> rfl
  | read rest =>
    cases r with
    | data bs | fail e =>
      simp only [Worker.next,loopNext]
      split <;> rfl
    | _ => rfl
  | _ => cases r <;> rfl

variable {o}

theorem answer_widened (h : i.options.Within o)
    (hk : k.answer (w.call i) r=some l) : k.answer (w.call { i with options := o }) r=some l := by
  cases w with
  | shutdown stage rest => cases stage <;> exact hk
  | send s rest => cases s <;> exact hk
  | epollWait => exact epollWait_more h.events hk
  | waiting ep => exact epollReturn_more h.events hk
  | read rest => exact read_more h.bytes hk
  | _ => exact hk

theorem worker_kept {j : Impl} {v : Worker} {lines : Trace}
    (hn : w.next i r=some (j,v,lines)) : j.options=i.options := by
  cases w with
  | shutdown stage rest =>
    obtain ⟨⟨j,more,lines⟩,hs,heq⟩ := Option.map_eq_some_iff.mp hn
    cases heq
    unfold Shutdown.next at hs
    split at hs <;> cases hs <;> rfl
  | _ => exact (worker_options rfl hn).1

def State.widen (s : State) (o : TcpOptions) (trace : Trace) : State :=
  { s with impl := { s.impl with options := o },trace }

variable {small : TcpOptions}

/-- A step that is possible with small limits is possible with larger ones. Only the worker
looks at them. -/
theorem step_widened {s t : State} {b : Action} (h : b.byWorker=true → small.Within o)
    (ho : s.impl.options=small) (hs : machine.step s b=some t) (trace : Trace) :
    t.impl.options=small ∧
      ∃ trace',machine.step (s.widen o trace) b=some (t.widen o trace') := by
  obtain ⟨alive,⟨q,last,rfl,hp,rfl⟩|⟨r,rfl,happ⟩|⟨r,rfl,hw⟩|⟨c,rest,rfl,hp,rfl⟩|⟨e,k,rfl,hk,rfl⟩⟩ :=
    step_cases hs
  · exact ⟨ho,trace,by simp [step,State.widen,alive,hp]⟩
  · obtain ⟨runs,k,i,app,lines,hk,hn,rfl⟩ := appStep_cases happ
    obtain ⟨call,next⟩ := app_widened o s.impl s.app r
    rw [hn] at next
    have step := app_of (s := s.widen o trace) alive runs (call.symm ▸ hk) next
    have fate : (s.widen o trace).app.fate (s.widen o trace).impl (s.widen o trace).pipeSignal r=
        s.app.fate s.impl s.pipeSignal r := by
      show s.app.fate { s.impl with options := o } s.pipeSignal r=_
      unfold App.fate
      split
      · rfl
      · rfl
      · rw [call]
    rw [fate] at step
    exact ⟨(next_options hn).1.trans ho,_,step⟩
  · have h := h rfl
    obtain ⟨k,i,v,lines,hk,hn,rfl⟩ := workerStep_cases hw
    have wide : s.worker.next { s.impl with options := o } r=
        some ({ i with options := o },v,lines) := by
      rw [worker_widened,hn]
      rfl
    have step := worker_of (s := s.widen o trace) alive
      (answer_widened (w := s.worker) (ho ▸ h) hk) wide
    have fate : (s.widen o trace).worker.fate (s.widen o trace).impl (s.widen o trace).pipeSignal
        r=s.worker.fate s.impl s.pipeSignal r := by
      show s.worker.fate { s.impl with options := o } s.pipeSignal r=_
      cases s.worker with
      | start =>
        simp only [Worker.fate]
        rw [ho,h.allocates]
      | shutdown stage rest => cases stage <;> rfl
      | send x rest => cases x <;> rfl
      | read rest => cases r <;> rfl
      | _ => rfl
    rw [fate] at step
    exact ⟨(worker_kept hn).trans ho,_,step⟩
  · exact ⟨ho,trace,by simp [step,State.widen,alive,hp]⟩
  · exact ⟨ho,trace,by simp [step,State.widen,alive,hk]⟩

theorem run_widened (as : List Action) (h : ∀ a∈as,a.byWorker=true → small.Within o)
    (s t : State) (ho : s.impl.options=small) (ht : machine.run s as=some t) (trace : Trace) :
    t.impl.options=small ∧ ∃ trace',machine.run (s.widen o trace) as=some (t.widen o trace') := by
  have step (u u' : State) (a : Action) (v : State)
      (hw : u.impl.options=small ∧ ∃ trace,u'=u.widen o trace)
      (h : a.byWorker=true → small.Within o) (hu : machine.step u a=some v) :
      ∃ v',machine.step u' a=some v' ∧ v.impl.options=small ∧ ∃ trace,v'=v.widen o trace := by
    obtain ⟨ho,trace,rfl⟩ := hw
    obtain ⟨ho,trace',first⟩ := step_widened h ho hu trace
    exact ⟨_,first,ho,trace',rfl⟩
  obtain ⟨_,wide,kept,trace',rfl⟩ :=
    machine.simulates machine step as h s _ t ⟨ho,trace,rfl⟩ ht
  exact ⟨kept,trace',wide⟩

end widening

/-- The server sends a byte, and `disconnect` is called while the worker is about to look for
more. -/
def oneByte : List Action :=
  dialed++[.worker .ok,.worker .ok,.worker .ok,.env (.send 0 [65]),.env (.arrive 0 1),
    .worker (.events [⟨3,⟨true,false,false⟩⟩]),.worker .ok,.worker (.data [65]),.worker .ok,
    .callback .finish,.request .disconnect,.app .ok]

/-- Where one event and one byte can be taken, a server keeps `disconnect` waiting for as long
as it likes. -/
theorem not_bounded {o : TcpOptions} (hm : 1 ≤ o.maxEpollEvents) (hb : 1 ≤ o.networkBufferSize)
    (bound : Nat) : ¬Bounded o bound := by
  intro h
  have run : ((machine.run (.boot ⟨1,1,5000⟩ false true true []) oneByte).bind fun s =>
      (machine.step s (.app .ok)).map fun t => (s.app,t.app,t.impl,decide (t.fate=.alive ∧
        t.worker=.read [] ∧ t.kernel.table 3=some (.conn 0 (2 ||| oNonblock)) ∧ t.kernel.Dry 0)))=
      some (.shutdown .clearFlag (.disconnect false),.shutdown .testJoin (.disconnect false),
        ⟨⟨1,1,5000⟩,3,4,false,true,false,true⟩,true) := by
    decide +kernel
  obtain ⟨s,hs,hq⟩ := Option.bind_eq_some_iff.mp run
  obtain ⟨t,ht,seen⟩ := Option.map_eq_some_iff.mp hq
  simp only [Prod.mk.injEq] at seen
  obtain ⟨here,app,impl,known⟩ := seen
  obtain ⟨alive,worker,file,dry⟩ := of_decide_eq_true known
  have room : 1 ≤ o.networkBufferSize.toNat := by omega
  have within : TcpOptions.Within ⟨1,1,5000⟩ o := by
    refine ⟨?_,hm,.inr ⟨by decide,room⟩⟩
    simp [TcpOptions.allocates]
    omega
  obtain ⟨ho,trace,hs⟩ := run_widened oneByte (fun _ _ _ => within)
    (.boot ⟨1,1,5000⟩ false true true []) s rfl hs []
  obtain ⟨-,trace',ht⟩ := step_widened (fun _ => within) ho ht trace
  have flooded : Flooded 0 (t.widen o trace') :=
    ⟨alive,by simp [State.widen,app,App.stopping],⟨[],worker⟩,room,by simp [State.widen,impl],
      ⟨2 ||| oNonblock,by simp [State.widen,impl,file]⟩,dry⟩
  obtain ⟨later,u,hu,aside,-,count⟩ := flood_more flooded (bound+1)
  have meets : machine.Meets (fun v _ => v.app.stopping=true) (t.widen o trace') later := by
    refine Machine.Meets.stays machine (fun v a w hv ha hw => ?_) later aside _ flooded.stopping
    rwa [app_stays ha hw]
  have few := h false true true [] oneByte _ false _ later u hs here ht hu meets
  omega

/-- The work that `disconnect` waits for has a bound exactly when no event can be polled or no
byte be read. -/
theorem bounded_disconnect (o : TcpOptions) :
    (∃ bound,Bounded o bound) ↔ o.maxEpollEvents<1 ∨ o.networkBufferSize<1 := by
  constructor
  · rintro ⟨bound,h⟩
    by_contra hn
    exact not_bounded (by omega) (by omega) bound h
  · intro ho
    refine ⟨_,bounded_exit ?_⟩
    unfold TcpOptions.bufferSize
    omega

/-- With the default options there is none. -/
theorem flood_outlasts_disconnect : ¬∀ o,∃ bound,Bounded o bound := by
  intro h
  obtain ⟨bound,hb⟩ := h {}
  exact not_bounded (by decide) (by decide) bound hb

end Client

end TuyulNet
