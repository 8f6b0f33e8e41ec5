import TuyulNet.Client.Threads
import TuyulNet.Framework.Machine
import TuyulNet.Kernel.Sound

namespace TuyulNet.Client

open Framework

/-- Whether the process is still there, and what ended it if not. -/
inductive Fate
  | alive
  | assignedJoinable
  | destroyedJoinable
  | selfJoined
  | workerThrew
  | sigpipe
  deriving DecidableEq

/-- `std::terminate` because of `worker_thread`, or a thread that joins itself. -/
def Fate.lifecycle : Fate → Bool
  | .assignedJoinable | .destroyedJoinable | .selfJoined => true
  | _ => false

/-- One `TcpClient` inside its process: the application thread, the worker, the
kernel, and everything that was called or logged so far. `pipeSignal` says that
`SIGPIPE` has its default action. -/
structure State where
  impl : Impl
  app : App
  worker : Worker
  kernel : Kernel
  trace : Trace
  fate : Fate
  pipeSignal : Bool

/-- A freshly constructed client. -/
def State.boot (options : TcpOptions) (loggerCb dataCb pipeSignal : Bool) (foreign : List Fd) :
    State where
  impl := { options,loggerCb,dataCb }
  app := .idle none
  worker := .none
  kernel := .boot foreign
  trace := []
  fate := .alive
  pipeSignal := pipeSignal

/-- What `write` on a connection that the peer has left does to the process. -/
def writeFate (pipeSignal : Bool) : Call → Reply → Fate
  | .write _ _,.fail .epipe => if pipeSignal then .sigpipe else .alive
  | _,_ => .alive

/-- Assigning to a joinable `worker_thread` or destroying it ends the process. The
assignment follows the start of the new thread at once, so its verdict is given
there, and the new thread takes no step. -/
def App.fate (i : Impl) (pipeSignal : Bool) (a : App) (r : Reply) : Fate :=
  match a,r with
  | .spawn,.ok => if i.joinable then .assignedJoinable else .alive
  | .destroyImpl,_ => if i.joinable then .destroyedJoinable else .alive
  | _,_ => writeFate pipeSignal (a.call i) r

/-- The worker throws if its vectors cannot be allocated, and a `join` on itself
throws as well; neither exception is caught. -/
def Worker.fate (i : Impl) (pipeSignal : Bool) (w : Worker) (r : Reply) : Fate :=
  match w with
  | .start => if i.options.allocates then .alive else .workerThrew
  | .shutdown .join _ => .selfJoined
  | _ => writeFate pipeSignal (w.call i) r

/-- `join` waits until the worker has left its function. -/
def App.waits (a : App) (w : Worker) : Bool :=
  match a with
  | .shutdown .join _ => w≠.finished
  | _ => false

/-- The worker after a step of the application thread. -/
def App.thread (i : Impl) (a : App) (r : Reply) (w : Worker) : Worker :=
  match a,r with
  | .spawn,.ok => if i.joinable then w else .start
  | .shutdown .join _,_ => .none
  | _,_ => w

/-- The application thread takes the reply `r` to the call at its program point. -/
def State.appStep (s : State) (r : Reply) : Option State :=
  if s.app.waits s.worker then none
  else match s.kernel.answer (s.app.call s.impl) r,s.app.next s.impl r with
    | some kernel,some (impl,app,lines) =>
      some { s with
        impl,app,kernel
        worker := s.app.thread s.impl r s.worker
        trace := lines++.call (s.app.call s.impl) r::s.trace
        fate := s.app.fate s.impl s.pipeSignal r }
    | _,_ => none

/-- The worker takes the reply `r` to the call at its program point. -/
def State.workerStep (s : State) (r : Reply) : Option State :=
  match s.kernel.answer (s.worker.call s.impl) r,s.worker.next s.impl r with
  | some kernel,some (impl,worker,lines) =>
    some { s with
      impl,worker,kernel
      trace := lines++.call (s.worker.call s.impl) r::s.trace
      fate := s.worker.fate s.impl s.pipeSignal r }
  | _,_ => none

/-- What the application does between two calls. -/
inductive Request
  | connect (host : String) (port : Int)
  | send (payload : Bytes)
  | disconnect
  | destroy
  deriving DecidableEq

def Request.entry : Request → App
  | .connect host port => .testConnected host port
  | .send payload => .send (.test payload)
  | .disconnect => .testDisconnect false
  | .destroy => .testDisconnect true

/-- What the code in the data callback does next. -/
inductive Callback
  | disconnect
  | send (payload : Bytes)
  | finish
  deriving DecidableEq

def Callback.entry (rest : List PollEvent) : Callback → Worker
  | .disconnect => .testDisconnect rest
  | .send payload => .send (.test payload) rest
  | .finish => .read rest

inductive Action
  | request (q : Request)
  | app (r : Reply)
  | worker (r : Reply)
  | callback (c : Callback)
  | env (e : Kernel.Env)
  deriving DecidableEq

def step (s : State) (a : Action) : Option State :=
  if s.fate=.alive then
    match a with
    | .request q =>
      match s.app with
      | .idle _ => some { s with app := q.entry }
      | _ => none
    | .app r => s.appStep r
    | .worker r => s.workerStep r
    | .callback c =>
      match s.worker with
      | .user rest => some { s with worker := c.entry rest }
      | _ => none
    | .env e => (s.kernel.env e).map fun k => { s with kernel := k }
  else none

def machine : Machine State Action := ⟨step⟩

@[simp] theorem machine_step : machine.step=step := rfl

/-- The worker has seen the end of the connection, or an error on it, and has not
been joined since. -/
def dropPending : Trace → Bool
  | [] => false
  | .call (.read _ _) r::t => r.endsStream || dropPending t
  | .call .threadJoin _::_ => false
  | _::t => dropPending t

section cases

variable {s t : State} {r : Reply}

/-- Every step a live process can take, with all that it changes. -/
theorem step_cases {a : Action} (h : step s a=some t) : s.fate=.alive ∧
    ((∃ q last,a=.request q ∧ s.app=.idle last ∧ t={ s with app := q.entry }) ∨
    (∃ r,a=.app r ∧ s.appStep r=some t) ∨
    (∃ r,a=.worker r ∧ s.workerStep r=some t) ∨
    (∃ c rest,a=.callback c ∧ s.worker=.user rest ∧ t={ s with worker := c.entry rest }) ∨
    ∃ e k,a=.env e ∧ s.kernel.env e=some k ∧ t={ s with kernel := k }) := by
  unfold step at h
  split at h
  · rename_i alive
    refine ⟨alive,?_⟩
    cases a with
    | request q =>
      cases hp : s.app with
      | idle last =>
        simp only [hp] at h
        exact .inl ⟨q,last,rfl,rfl,(Option.some.inj h).symm⟩
      | _ =>
        simp only [hp] at h
        cases h
    | app r => exact .inr (.inl ⟨r,rfl,h⟩)
    | worker r => exact .inr (.inr (.inl ⟨r,rfl,h⟩))
    | callback c =>
      cases hp : s.worker with
      | user rest =>
        simp only [hp] at h
        exact .inr (.inr (.inr (.inl ⟨c,rest,rfl,rfl,(Option.some.inj h).symm⟩)))
      | _ =>
        simp only [hp] at h
        cases h
    | env e =>
      obtain ⟨k,hk,rfl⟩ := Option.map_eq_some_iff.mp h
      exact .inr (.inr (.inr (.inr ⟨e,k,rfl,hk,rfl⟩)))
  · cases h

theorem appStep_of_step (h : step s (.app r)=some t) : s.appStep r=some t := by
  obtain ⟨-,⟨q,last,ha,-⟩|⟨r,ha,hs⟩|⟨r,ha,-⟩|⟨c,rest,ha,-⟩|⟨e,k,ha,-⟩⟩ := step_cases h
  · cases ha
  · cases ha
    exact hs
  · cases ha
  · cases ha
  · cases ha

theorem workerStep_of_step (h : step s (.worker r)=some t) : s.workerStep r=some t := by
  obtain ⟨-,⟨q,last,ha,-⟩|⟨r,ha,-⟩|⟨r,ha,hs⟩|⟨c,rest,ha,-⟩|⟨e,k,ha,-⟩⟩ := step_cases h
  · cases ha
  · cases ha
  · cases ha
    exact hs
  · cases ha
  · cases ha

theorem appStep_cases (h : s.appStep r=some t) : s.app.waits s.worker=false ∧
    ∃ k i app lines,s.kernel.answer (s.app.call s.impl) r=some k ∧
      s.app.next s.impl r=some (i,app,lines) ∧
      t=⟨i,app,s.app.thread s.impl r s.worker,k,lines++.call (s.app.call s.impl) r::s.trace,
        s.app.fate s.impl s.pipeSignal r,s.pipeSignal⟩ := by
  unfold State.appStep at h
  split at h
  · cases h
  · rename_i runs
    split at h
    · rename_i k i app lines hk hn
      exact ⟨by simpa using runs,k,i,app,lines,hk,hn,(Option.some.inj h).symm⟩
    · cases h

theorem workerStep_cases (h : s.workerStep r=some t) :
    ∃ k i worker lines,s.kernel.answer (s.worker.call s.impl) r=some k ∧
      s.worker.next s.impl r=some (i,worker,lines) ∧
      t=⟨i,s.app,worker,k,lines++.call (s.worker.call s.impl) r::s.trace,
        s.worker.fate s.impl s.pipeSignal r,s.pipeSignal⟩ := by
  unfold State.workerStep at h
  split at h
  · rename_i k i worker lines hk hn
    exact ⟨k,i,worker,lines,hk,hn,(Option.some.inj h).symm⟩
  · cases h

end cases

section lines

variable {i j : Impl} {lines : Trace} {r : Reply}

theorem shutdown_lines {stage : Shutdown} {more : Option Shutdown}
    (h : stage.next i r=some (j,more,lines)) : Logs lines := by
  unfold Shutdown.next at h
  split at h <;> cases h <;> simp

theorem sending_lines {s : Sending} {more : Sending ⊕ ErrorCode}
    (h : s.next i r=some (more,lines)) : Logs lines := by
  unfold Sending.next at h
  split at h <;> (try split at h) <;> cases h <;> simp

/-- Apart from its call a step leaves only log lines in the trace. -/
theorem app_lines {a b : App} (h : a.next i r=some (j,b,lines)) : Logs lines := by
  have dial : dialNext i a r=some (j,b,lines) → Logs lines := by
    intro h
    unfold dialNext at h
    split at h <;> (try split at h) <;> cases h <;> simp
  have hook : hookNext i a r=some (j,b,lines) → Logs lines := by
    intro h
    unfold hookNext bail at h
    split at h <;> cases h <;> simp
  have call : callNext i a r=some (j,b,lines) → Logs lines := by
    intro h
    cases a with
    | shutdown stage purpose =>
      obtain ⟨⟨j,more,lines⟩,hs,heq⟩ := Option.map_eq_some_iff.mp h
      cases heq
      exact shutdown_lines hs
    | send s =>
      obtain ⟨⟨more,lines⟩,hs,heq⟩ := Option.map_eq_some_iff.mp h
      cases heq
      exact sending_lines hs
    | testDisconnect | destroyImpl =>
      cases r <;> cases h
      simp
    | _ => cases h
  cases a <;> first
    | exact dial h
    | exact hook h
    | exact call h

theorem worker_lines {w v : Worker} (h : w.next i r=some (j,v,lines)) : Logs lines := by
  have loop : loopNext i w r=some (j,v,lines) → Logs lines := by
    intro h
    unfold loopNext at h
    split at h <;> (try split at h) <;> cases h <;> simp
  cases w with
  | shutdown stage rest =>
    obtain ⟨⟨j,more,lines⟩,hs,heq⟩ := Option.map_eq_some_iff.mp h
    cases heq
    exact shutdown_lines hs
  | send s rest =>
    obtain ⟨⟨more,lines⟩,hs,heq⟩ := Option.map_eq_some_iff.mp h
    cases heq
    exact sending_lines hs
  | testDisconnect rest =>
    cases r <;> cases h
    simp
  | _ => exact loop h

end lines

theorem appStep_ledger {s t : State} {r : Reply} (h : s.appStep r=some t) :
    ledger t.trace=(s.app.call s.impl).entries r++ledger s.trace := by
  obtain ⟨-,k,i,app,lines,-,hn,rfl⟩ := appStep_cases h
  exact (app_lines hn).skip ledger_log _

theorem workerStep_ledger {s t : State} {r : Reply} (h : s.workerStep r=some t) :
    ledger t.trace=(s.worker.call s.impl).entries r++ledger s.trace := by
  obtain ⟨k,i,worker,lines,-,hn,rfl⟩ := workerStep_cases h
  exact (worker_lines hn).skip ledger_log _

end TuyulNet.Client
