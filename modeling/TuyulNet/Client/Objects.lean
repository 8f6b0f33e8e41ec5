import TuyulNet.Client.Lifecycle

namespace TuyulNet.Client

open Framework

/-- Storage for a `TcpClient`, which several objects may use one after the other. -/
abbrev Object := Nat

/-- Where an `Impl` is on the heap. -/
abbrev Pointer := Nat

/-- The thread that was started for the connection of an `Impl`. Its function has captured
the address of an object, not of the `Impl`. No code reads `dropped`: the thread has read the end
of its connection, or an error on it, and has not been joined since. -/
structure Thread where
  worker : Worker := .none
  this : Object := 0
  dropped : Bool := false
  deriving DecidableEq

/-- Whose access through an empty `m_impl`, or through an object that is gone, ended the
process. -/
inductive Crash
  | none | application | worker
  deriving DecidableEq

/-- `TcpClient` objects of one application thread, their `Impl`s and their threads. An object
that has been moved from is `some none`; `call` is the object and the place of the member
function in progress. -/
structure Process where
  objects : Object → Option (Option Pointer)
  heap : Pointer → Option Impl
  born : Pointer
  threads : Pointer → Thread
  call : Option (Object × App)
  kernel : Kernel
  trace : Trace
  fate : Fate
  crash : Crash
  pipeSignal : Bool

/-- The thread still has steps to take. -/
def Worker.running (w : Worker) : Bool := w≠.none && w≠.finished

/-- The next step goes through `m_impl`; the others have what they need in local variables, or
are code of the application. -/
def Worker.derefs : Worker → Bool
  | .waiting _ | .batch _ | .user _ => false
  | w => w.running

/-- With the reply `r` the worker learns that its connection is over. -/
def Worker.drops (w : Worker) (r : Reply) : Bool :=
  match w with
  | .read _ => r.endsStream
  | _ => false

/-- The call on `o` that goes on at a place, if it does. -/
def App.within (o : Object) : App → Option (Object × App)
  | .idle _ | .gone => none
  | a => some (o,a)

namespace Process

def boot (pipeSignal : Bool) (foreign : List Fd) : Process where
  objects := fun _ => none
  heap := fun _ => none
  born := 0
  threads := fun _ => {}
  call := none
  kernel := .boot foreign
  trace := []
  fate := .alive
  crash := .none
  pipeSignal := pipeSignal

/-- `m_impl.get()` -/
def owner (s : Process) (o : Object) : Option Pointer := (s.objects o).join

/-- Where the application thread is in the code of the `Impl` at `p`. -/
def place (s : Process) (p : Pointer) : App :=
  match s.call with
  | some (o,a) => if s.owner o=some p then a else .idle none
  | none => .idle none

/-- One `Impl` with the thread `w`, as the code of a single client sees it. -/
def view (s : Process) (p : Pointer) (i : Impl) (w : Worker) : State :=
  ⟨i,s.place p,w,s.kernel,s.trace,s.fate,s.pipeSignal⟩

/-- `~Impl`: a joinable `worker_thread` ends the process, and no descriptor is closed. -/
def delete (s : Process) (p : Pointer) : Process :=
  { s with
    heap := Function.update s.heap p none
    fate := if (s.heap p).any Impl.joinable then .destroyedJoinable else s.fate }

/-- A step of the application thread inside a member function of `o`. -/
def appStep (s : Process) (r : Reply) : Option Process :=
  match s.call with
  | some (o,a) =>
    (s.owner o).bind fun p => (s.heap p).bind fun i =>
      ((s.view p i (s.threads p).worker).appStep r).map fun t =>
        { s with
          objects := if t.app=.gone then Function.update s.objects o none else s.objects
          heap := Function.update s.heap p (if t.app=.gone then none else some t.impl)
          threads := Function.update s.threads p
            { worker := t.worker
              this := if a=.spawn then o else (s.threads p).this
              dropped := a.call i≠.threadJoin && (s.threads p).dropped }
          call := t.app.within o
          kernel := t.kernel
          trace := t.trace
          fate := t.fate }
  | none => none

/-- The `Impl` that a step of the thread for `p` works on. -/
def target (s : Process) (p : Pointer) : Option Pointer :=
  if (s.threads p).worker.derefs then s.owner (s.threads p).this else some p

/-- A step of the thread for `p`. -/
def workerStep (s : Process) (p : Pointer) (r : Reply) : Option Process :=
  match s.target p with
  | some q =>
    (s.heap q).bind fun i => ((s.view q i (s.threads p).worker).workerStep r).map fun t =>
      { s with
        heap := Function.update s.heap q (some t.impl)
        threads := Function.update s.threads p { s.threads p with
          worker := t.worker
          dropped := (s.threads p).worker.drops r || (s.threads p).dropped }
        kernel := t.kernel
        trace := t.trace
        fate := t.fate }
  | none => some { s with crash := .worker }

/-- What the application does between two calls; `request` is a call of a member function, or
the destructor. -/
inductive Action
  | construct (o : Object) (options : TcpOptions) (loggerCb dataCb : Bool)
  | moveConstruct (o src : Object)
  | moveAssign (o src : Object)
  | request (o : Object) (q : Request)
  | app (r : Reply)
  | worker (p : Pointer) (r : Reply)
  | callback (p : Pointer)
  | env (e : Kernel.Env)
  deriving DecidableEq

def construct (s : Process) (o : Object) (i : Impl) : Option Process :=
  if s.objects o=none then
    some { s with
      objects := Function.update s.objects o (some (some s.born))
      heap := Function.update s.heap s.born (some i)
      born := s.born+1 }
  else none

/-- `std::unique_ptr` hands its pointer over and is empty afterwards. -/
def transfer (s : Process) (o src : Object) (m : Option Pointer) : Process :=
  { s with objects := Function.update (Function.update s.objects src (some none)) o (some m) }

def moveConstruct (s : Process) (o src : Object) : Option Process :=
  match s.objects o,s.objects src with
  | none,some m => some (s.transfer o src m)
  | _,_ => none

/-- The pointer of `src` is released first, so that an object moved to itself stays as it is;
the `Impl` that `o` had is deleted last. -/
def moveAssign (s : Process) (o src : Object) : Option Process :=
  match s.objects o,s.objects src with
  | some old,some m =>
    if o=src then some s
    else match old with
      | some p => some ((s.transfer o src m).delete p)
      | none => some (s.transfer o src m)
  | _,_ => none

/-- `disconnect` tests `m_impl` before it uses it; `connect_to` and `send_data` do not. -/
def request (s : Process) (o : Object) (q : Request) : Option Process :=
  match s.objects o with
  | some (some _) => some { s with call := some (o,q.entry) }
  | some none => match q with
    | .disconnect => some s
    | .destroy => some { s with objects := Function.update s.objects o none }
    | _ => some { s with crash := .application }
  | none => none

def step (s : Process) (a : Action) : Option Process :=
  if s.fate=.alive ∧ s.crash=.none then
    match a with
    | .construct o options loggerCb dataCb =>
      if s.call=none then s.construct o { options,loggerCb,dataCb } else none
    | .moveConstruct o src => if s.call=none then s.moveConstruct o src else none
    | .moveAssign o src => if s.call=none then s.moveAssign o src else none
    | .request o q => if s.call=none then s.request o q else none
    | .app r => s.appStep r
    | .worker p r => s.workerStep p r
    | .callback p => match (s.threads p).worker with
      | .user rest => some { s with
          threads := Function.update s.threads p { s.threads p with worker := .read rest } }
      | _ => none
    | .env e => (s.kernel.env e).map fun k => { s with kernel := k }
  else none

def machine : Machine Process Action := ⟨step⟩

@[simp] theorem machine_step : machine.step=step := rfl

end Process

end TuyulNet.Client
