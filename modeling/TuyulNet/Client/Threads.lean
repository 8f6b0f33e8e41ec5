import TuyulNet.Options
import TuyulNet.Kernel.Call

namespace TuyulNet.Client

open Framework

/-- `TcpClient::Impl`; `joinable` is `worker_thread.joinable()`. Of the two
callbacks only their presence matters here. -/
structure Impl where
  options : TcpOptions
  clientFd : Fd := -1
  epollFd : Fd := -1
  isConnected : Bool := false
  joinable : Bool := false
  loggerCb : Bool := false
  dataCb : Bool := false
  deriving DecidableEq

def Impl.log (i : Impl) (level message : String) : Trace :=
  if i.loggerCb then [.log level message] else []

@[simp] theorem logs_log (i : Impl) (level message : String) : Logs (i.log level message) := by
  unfold Impl.log
  split <;> simp

/-- The statements of `Impl::shutdown_pipeline`, in order. -/
inductive Shutdown
  | clearFlag | testJoin | join | testEpoll | closeEpoll | clearEpoll
  | testClient | closeClient | clearClient
  deriving DecidableEq

def Shutdown.call (i : Impl) : Shutdown → Call
  | .join => .threadJoin
  | .closeEpoll => .close i.epollFd
  | .closeClient => .close i.clientFd
  | _ => .internal

/-- One statement of `shutdown_pipeline`; no next stage means that it returns. -/
def Shutdown.next (i : Impl) : Shutdown → Reply → Option (Impl × Option Shutdown × Trace)
  | .clearFlag,.ok => some ({ i with isConnected := false },some .testJoin,[])
  | .testJoin,.ok => some (i,some (if i.joinable then .join else .testEpoll),[])
  | .join,.ok => some ({ i with joinable := false },some .testEpoll,[])
  | .testEpoll,.ok => some (i,some (if 0 ≤ i.epollFd then .closeEpoll else .testClient),[])
  | .closeEpoll,.ok | .closeEpoll,.fail _ => some (i,some .clearEpoll,[])
  | .clearEpoll,.ok => some ({ i with epollFd := -1 },some .testClient,[])
  | .testClient,.ok => some (i,if 0 ≤ i.clientFd then some .closeClient else none,[])
  | .closeClient,.ok | .closeClient,.fail _ =>
    some (i,some .clearClient,
      i.log "INFO" "Client communication network socket gracefully dismantled.")
  | .clearClient,.ok => some ({ i with clientFd := -1 },none,[])
  | _,_ => none

/-- Program points of `send_data`: the entry check, and the retry loop with
`data_ptr` as a position in the payload and `bytes_left`. -/
inductive Sending
  | test (payload : Bytes)
  | write (payload : Bytes) (pos left : Nat)
  deriving DecidableEq

def Sending.call (i : Impl) : Sending → Call
  | .test _ => .internal
  | .write payload pos left => .write i.clientFd ((payload.drop pos).take left)

/-- The loop ends when `bytes_left` is 0. -/
def Sending.loop (payload : Bytes) (pos left : Nat) : Sending ⊕ ErrorCode :=
  if 0<left then .inl (.write payload pos left) else .inr .success

def Sending.next (i : Impl) : Sending → Reply → Option ((Sending ⊕ ErrorCode) × Trace)
  | .test payload,.ok =>
    if i.isConnected=false ∨ i.clientFd<0 then
      some (.inr .readFailed,i.log "WARN"
        "Data transmission request rejected: socket descriptor channel is closed.")
    else some (loop payload 0 payload.length,[])
  | .write payload pos left,.wrote n => some (loop payload (pos+n) (left-n),[])
  | .write payload pos left,.fail e =>
    if e.wouldBlock then some (.inl (.write payload pos left),[])
    else
      some (.inr .readFailed,i.log "ERROR"
        "Fatal transaction fault encountered while dispatching packet bytes down the link channel.")
  | _,_ => none

/-- How the last call of the application thread ended. -/
inductive Outcome
  | connect (code : ErrorCode)
  | send (code : ErrorCode)
  | disconnect
  | threw
  deriving DecidableEq

/-- Who called `shutdown_pipeline`: `connect_to` with the code that it returns,
or `disconnect`, possibly for the destructor. -/
inductive Purpose
  | connect (code : ErrorCode)
  | disconnect (destroying : Bool)
  deriving DecidableEq

/-- Program points of the application thread between two of its steps, with the
local variables that are still needed. -/
inductive App
  | idle (last : Option Outcome)
  | testConnected (host : String) (port : Int)
  | lookup (host : String) (port : Int)
  | socket (res : Nat)
  | freeFailed (res : Nat)
  | connect (res : Nat)
  | closeRefused (res : Nat) | clearRefused (res : Nat) | freeRefused (res : Nat)
  | freeConnected (res : Nat)
  | getFl (fd : Fd)
  | setFl (fd : Fd) (flags : Nat)
  | epollCreate | epollAdd | setConnected | spawn | assign
  | shutdown (stage : Shutdown) (purpose : Purpose)
  | send (s : Sending)
  | testDisconnect (destroying : Bool)
  | destroyImpl
  | gone
  deriving DecidableEq

/-- Where the application thread goes on after `shutdown_pipeline`. -/
def Purpose.resume : Purpose → App
  | .connect code => .idle (some (.connect code))
  | .disconnect true => .destroyImpl
  | .disconnect false => .idle (some .disconnect)

/-- The call issued at a program point of the application thread. -/
def App.call (i : Impl) : App → Call
  | .lookup host port => .getaddrinfo host (toString port)
  | .socket _ => .socket
  | .connect res => .connect i.clientFd res
  | .closeRefused _ => .close i.clientFd
  | .freeFailed res | .freeRefused res | .freeConnected res => .freeaddrinfo res
  | .getFl fd => .getFlags fd
  | .setFl fd flags => .setFlags fd (flags ||| oNonblock)
  | .epollCreate => .epollCreate
  | .epollAdd => .epollAdd i.epollFd i.clientFd .edge
  | .spawn => .threadStart
  | .shutdown stage _ => stage.call i
  | .send s => s.call i
  | _ => .internal

abbrev AppNext := Option (Impl × App × Trace)

/-- An error exit of `connect_to` that tears the pipeline down. -/
def bail (i : Impl) (code : ErrorCode) (message : String) : AppNext :=
  some (i,.shutdown .clearFlag (.connect code),i.log "ERROR" message)

/-- `connect_to` up to the connected socket. -/
def dialNext (i : Impl) : App → Reply → AppNext
  | .testConnected host port,.ok =>
    if i.isConnected then
      some (i,.idle (some (.connect .success)),i.log "WARN"
        "Client socket connection request ignored: instance already tied to a host link.")
    else some (i,.lookup host port,[])
  | .lookup _ _,.addr res => some (i,.socket res,[])
  | .lookup _ _,.fail _ =>
    some (i,.idle (some (.connect .socketCreationFailed)),
      i.log "ERROR" "Host network domain translation address lookup failed.")
  | .socket res,.fd n => some ({ i with clientFd := n },.connect res,[])
  | .socket res,.fail _ =>
    some ({ i with clientFd := -1 },.freeFailed res,
      i.log "ERROR" "Operating system failed to allocate raw client stream descriptor.")
  | .freeFailed _,.ok => some (i,.idle (some (.connect .socketCreationFailed)),[])
  | .connect res,.ok => some (i,.freeConnected res,[])
  | .connect res,.fail _ =>
    some (i,.closeRefused res,i.log "ERROR"
      "Network handshake connection request rejected by remote host interface endpoint.")
  | .closeRefused res,.ok | .closeRefused res,.fail _ => some (i,.clearRefused res,[])
  | .clearRefused res,.ok => some ({ i with clientFd := -1 },.freeRefused res,[])
  | .freeRefused _,.ok => some (i,.idle (some (.connect .bindFailed)),[])
  | .freeConnected _,.ok => some (i,.getFl i.clientFd,[])
  | _,_ => none

/-- `connect_to` from the connected socket to the running worker. The exception
of a thread that cannot be started leaves `connect_to`. -/
def hookNext (i : Impl) : App → Reply → AppNext
  | .getFl fd,.flags n => some (i,.setFl fd n,[])
  | .setFl _ _,.ok => some (i,.epollCreate,[])
  | .getFl _,.fail _ | .setFl _ _,.fail _ =>
    bail i .setOptionFailed
      "Failed to transform connected client socket into a non-blocking execution block."
  | .epollCreate,.fd n => some ({ i with epollFd := n },.epollAdd,[])
  | .epollCreate,.fail _ =>
    bail { i with epollFd := -1 } .epollCreationFailed
      "Linux kernel failed to allocate native client epoll core multiplexer instance."
  | .epollAdd,.ok => some (i,.setConnected,[])
  | .epollAdd,.fail _ =>
    bail i .epollCreationFailed
      "Failed to register active channel descriptor into client epoll reactor array."
  | .setConnected,.ok =>
    some ({ i with isConnected := true },.spawn,i.log "INFO"
      "Successfully hooked asynchronous transport link channel connection to remote server.")
  | .spawn,.ok => some (i,.assign,[])
  | .spawn,.fail _ => some (i,.idle (some .threw),[])
  | .assign,.ok => some ({ i with joinable := true },.idle (some (.connect .success)),[])
  | _,_ => none

/-- `disconnect`, the destructor and `send_data` of the application thread. -/
def callNext (i : Impl) : App → Reply → AppNext
  | .testDisconnect destroying,.ok =>
    some (i,if i.isConnected then .shutdown .clearFlag (.disconnect destroying)
      else if destroying then .destroyImpl else .idle (some .disconnect),[])
  | .destroyImpl,.ok => some (i,.gone,[])
  | .shutdown stage purpose,r =>
    (stage.next i r).map fun (j,more,lines) =>
      (j,match more with
        | some stage => .shutdown stage purpose
        | none => purpose.resume,lines)
  | .send s,r =>
    (s.next i r).map fun (more,lines) =>
      (i,match more with
        | .inl s => .send s
        | .inr code => .idle (some (.send code)),lines)
  | _,_ => none

/-- What the application thread does with the reply to its call. -/
def App.next (i : Impl) (a : App) (r : Reply) : AppNext :=
  match a with
  | .testConnected _ _ | .lookup _ _ | .socket _ | .freeFailed _ | .connect _ | .closeRefused _
  | .clearRefused _ | .freeRefused _ | .freeConnected _ => dialNext i a r
  | .getFl _ | .setFl _ _ | .epollCreate | .epollAdd | .setConnected | .spawn | .assign =>
    hookNext i a r
  | .testDisconnect _ | .destroyImpl | .shutdown _ _ | .send _ => callNext i a r
  | .idle _ | .gone => none

/-- Program points of the worker thread; `batch` and what comes after it carry
the events that the `for` loop has not reached. In `user` the data callback
runs code of the application, which may itself call `disconnect` or `send_data`. -/
inductive Worker
  | none
  | start | loopHead | epollWait
  | waiting (ep : Fd)
  | batch (es : List PollEvent)
  | read (rest : List PollEvent)
  | deliver (payload : Bytes) (rest : List PollEvent)
  | user (rest : List PollEvent)
  | testDisconnect (rest : List PollEvent)
  | shutdown (stage : Shutdown) (rest : List PollEvent)
  | send (s : Sending) (rest : List PollEvent)
  | drop
  | finished
  deriving DecidableEq

/-- The call issued at a program point of the worker. -/
def Worker.call (i : Impl) : Worker → Call
  | .epollWait => .epollWait i.epollFd i.options.maxEpollEvents i.options.watchdogTimeoutMs
  | .waiting ep => .epollReturn ep i.options.maxEpollEvents
  | .read _ => .read i.clientFd i.options.bufferSize
  | .deliver payload _ => .deliver i.clientFd payload
  | .shutdown stage _ => stage.call i
  | .send s _ => s.call i
  | _ => .internal

abbrev WorkerNext := Option (Impl × Worker × Trace)

/-- The loop of the worker, without what the data callback does. -/
def loopNext (i : Impl) : Worker → Reply → WorkerNext
  | .start,.ok => some (i,.loopHead,[])
  | .loopHead,.ok => some (i,if i.isConnected then .epollWait else .finished,[])
  | .epollWait,.ok => some (i,.waiting i.epollFd,[])
  | .waiting _,.events es => some (i,if es=[] then .loopHead else .batch es,[])
  | .epollWait,.fail e | .waiting _,.fail e =>
    some (i,if e=.eintr then .loopHead else .finished,[])
  | .batch [],.ok => some (i,.loopHead,[])
  | .batch (e::rest),.ok => some (i,if e.mask.input then .read rest else .batch rest,[])
  | .read rest,.data bs =>
    if bs=[] then
      some (i,.drop,i.log "INFO"
        "Remote server terminated communication pipeline channel gracefully.")
    else some (i,if i.dataCb then .deliver bs rest else .read rest,[])
  | .read rest,.fail e =>
    if e.wouldBlock then some (i,.batch rest,[])
    else
      some (i,.drop,i.log "WARN"
        "Encountered processing fault while ingesting incoming server stream packet arrays.")
  | .deliver _ rest,.ok => some (i,.user rest,[])
  | .drop,.ok => some ({ i with isConnected := false },.loopHead,[])
  | _,_ => none

/-- Calls on the client from inside the data callback. -/
def userNext (i : Impl) : Worker → Reply → WorkerNext
  | .testDisconnect rest,.ok =>
    some (i,if i.isConnected then .shutdown .clearFlag rest else .user rest,[])
  | .shutdown stage rest,r =>
    (stage.next i r).map fun (j,more,lines) =>
      (j,match more with
        | some stage => .shutdown stage rest
        | none => .user rest,lines)
  | .send s rest,r =>
    (s.next i r).map fun (more,lines) =>
      (i,match more with
        | .inl s => .send s rest
        | .inr _ => .user rest,lines)
  | _,_ => none

/-- What the worker does with the reply to its call. -/
def Worker.next (i : Impl) (w : Worker) (r : Reply) : WorkerNext :=
  match w with
  | .testDisconnect _ | .shutdown _ _ | .send _ _ => userNext i w r
  | _ => loopNext i w r

end TuyulNet.Client
