import TuyulNet.Options
import TuyulNet.Kernel.Call

namespace TuyulNet.Server

open Framework

/-- `TcpServer::Impl`. Of the two callbacks only their presence matters here. -/
structure Impl where
  port : Int
  options : TcpOptions
  serverFd : Fd := -1
  epollFd : Fd := -1
  isRunning : Bool := false
  loggerCb : Bool := false
  dataCb : Bool := false
  deriving DecidableEq

def Impl.log (i : Impl) (level message : String) : Trace :=
  if i.loggerCb then [.log level message] else []

@[simp] theorem logs_log (i : Impl) (level message : String) : Logs (i.log level message) := by
  unfold Impl.log
  split <;> simp

/-- The statements of `Impl::cleanup`, in order. -/
inductive Cleanup
  | testEpoll | closeEpoll | clearEpoll | testServer | closeServer | clearServer | finish
  deriving DecidableEq

/-- Who called `make_socket_non_blocking`; an accepted client comes with the
rest of the batch. -/
inductive Caller
  | setup
  | client (rest : List Fd)
  deriving DecidableEq

/-- Program points of `TcpServer::start` between two of its steps, with the
local variables that are still needed. `batch`, `accept` and the client points
carry the descriptors of the events that the `for` loop has not reached. -/
inductive Pc
  | socket | setsockopt
  | getFl (fd : Fd) (caller : Caller)
  | setFl (fd : Fd) (flags : Nat) (caller : Caller)
  | bind | listen | epollCreate | epollAdd | setRunning | allocate
  | loopHead | epollWait
  | waiting (ep : Fd)
  | batch (fds : List Fd)
  | accept (rest : List Fd)
  | addClient (fd : Fd) (rest : List Fd)
  | reject (fd : Fd) (rest : List Fd)
  | read (fd : Fd) (rest : List Fd)
  | deliver (fd : Fd) (payload : Bytes) (rest : List Fd)
  | delClient (fd : Fd) (rest : List Fd)
  | closeClient (fd : Fd) (rest : List Fd)
  | cleanup (stage : Cleanup) (code : ErrorCode)
  | returned (code : ErrorCode)
  | threw
  deriving DecidableEq

/-- The call issued at a program point. -/
def Pc.call (i : Impl) : Pc → Call
  | .socket => .socket
  | .setsockopt => .setsockopt i.serverFd
  | .getFl fd _ => .getFlags fd
  | .setFl fd flags _ => .setFlags fd (flags ||| oNonblock)
  | .bind => .bind i.serverFd (i.port%65536).toNat
  | .listen => .listen i.serverFd
  | .epollCreate => .epollCreate
  | .epollAdd => .epollAdd i.epollFd i.serverFd .level
  | .epollWait => .epollWait i.epollFd i.options.maxEpollEvents i.options.watchdogTimeoutMs
  | .waiting ep => .epollReturn ep i.options.maxEpollEvents
  | .accept _ => .accept i.serverFd
  | .addClient fd _ => .epollAdd i.epollFd fd .edge
  | .read fd _ => .read fd i.options.bufferSize
  | .deliver fd payload _ => .deliver fd payload
  | .delClient fd _ => .epollDel i.epollFd fd
  | .reject fd _ | .closeClient fd _ => .close fd
  | .cleanup .closeEpoll _ => .close i.epollFd
  | .cleanup .closeServer _ => .close i.serverFd
  | _ => .internal

abbrev Next := Option (Impl × Pc × Trace)

/-- An error exit of the setup: log, clean up, return `code`. -/
def bail (i : Impl) (code : ErrorCode) (message : String) : Next :=
  some (i,.cleanup .testEpoll code,i.log "ERROR" message)

/-- `make_socket_non_blocking` returned false. -/
def blockingFailed (i : Impl) (fd : Fd) : Caller → Next
  | .setup =>
    bail i .setOptionFailed "Failed to transition master socket into non-blocking context."
  | .client rest => some (i,.reject fd rest,[])

/-- `TcpServer::start` up to the first test of the loop. -/
def setupNext (i : Impl) : Pc → Reply → Next
  | .socket,.fd n => some ({ i with serverFd := n },.setsockopt,[])
  | .socket,.fail _ =>
    some ({ i with serverFd := -1 },.returned .socketCreationFailed,
      i.log "ERROR" "Failed to allocate master system socket descriptor.")
  | .setsockopt,.ok => some (i,.getFl i.serverFd .setup,[])
  | .setsockopt,.fail _ =>
    bail i .setOptionFailed "Failed to configure SO_REUSEADDR socket option."
  | .bind,.ok => some (i,.listen,[])
  | .bind,.fail _ =>
    bail i .bindFailed "Port binding configuration failed. Interface might be busy."
  | .listen,.ok => some (i,.epollCreate,[])
  | .listen,.fail _ =>
    bail i .listenFailed "Failed to transition server socket into operational listening phase."
  | .epollCreate,.fd n => some ({ i with epollFd := n },.epollAdd,[])
  | .epollCreate,.fail _ =>
    bail { i with epollFd := -1 } .epollCreationFailed
      "Failed to spawn native Linux epoll orchestration instance."
  | .epollAdd,.ok => some (i,.setRunning,[])
  | .epollAdd,.fail _ =>
    bail i .epollCreationFailed "Failed to link server socket event framework into epoll loop."
  | .setRunning,.ok =>
    some ({ i with isRunning := true },.allocate,
      i.log "INFO" "Tuyul Net network reactor core started successfully.")
  | .allocate,.ok => some (i,if i.options.allocates then .loopHead else .threw,[])
  | _,_ => none

/-- `make_socket_non_blocking`, for the listener and for accepted clients. -/
def flagsNext (i : Impl) : Pc → Reply → Next
  | .getFl fd caller,.flags n => some (i,.setFl fd n caller,[])
  | .getFl fd caller,.fail _ => blockingFailed i fd caller
  | .setFl _ _ .setup,.ok => some (i,.bind,[])
  | .setFl fd _ (.client rest),.ok => some (i,.addClient fd rest,[])
  | .setFl fd _ caller,.fail _ => blockingFailed i fd caller
  | _,_ => none

/-- The event loop: its head, `epoll_wait`, and the head of the `for` loop with
the comparison against the listening descriptor. -/
def loopNext (i : Impl) : Pc → Reply → Next
  | .loopHead,.ok =>
    some (i,if i.isRunning then .epollWait else .cleanup .testEpoll .success,[])
  | .epollWait,.ok => some (i,.waiting i.epollFd,[])
  | .waiting _,.events es =>
    some (i,if es=[] then .loopHead else .batch (es.map PollEvent.fd),[])
  | .epollWait,.fail e | .waiting _,.fail e =>
    if e=.eintr then some (i,.loopHead,[])
    else
      some (i,.cleanup .testEpoll .success,
        i.log "ERROR" "Critical failure encountered during epoll_wait event cycles.")
  | .batch [],.ok => some (i,.loopHead,[])
  | .batch (fd::rest),.ok =>
    some (i,if fd=i.serverFd then .accept rest else .read fd rest,[])
  | _,_ => none

/-- The accept loop. -/
def acceptNext (i : Impl) : Pc → Reply → Next
  | .accept rest,.conn n _ => some (i,.getFl n (.client rest),[])
  | .accept rest,.fail e =>
    some (i,.batch rest,
      if e.wouldBlock then []
      else i.log "WARN" "Encountered anomalous failure during accept processing cycle.")
  | .addClient _ rest,.ok =>
    some (i,.accept rest,
      i.log "INFO" "New client connection accepted and hooked into reactor loop.")
  | .addClient fd rest,.fail _ =>
    some (i,.reject fd rest,
      i.log "WARN" "Failed to register new client socket into epoll reactor.")
  | .reject _ rest,.ok | .reject _ rest,.fail _ => some (i,.accept rest,[])
  | _,_ => none

/-- The drain loop of one client and the closing of a finished connection. -/
def drainNext (i : Impl) : Pc → Reply → Next
  | .read fd rest,.data bs =>
    if bs=[] then
      some (i,.delClient fd rest,
        i.log "INFO" "Client disconnected gracefully from the socket stream.")
    else some (i,if i.dataCb then .deliver fd bs rest else .read fd rest,[])
  | .read fd rest,.fail e =>
    if e.wouldBlock then some (i,.batch rest,[])
    else
      some (i,.delClient fd rest,
        i.log "WARN" "Error encountered while reading network packet streams from descriptor.")
  | .deliver fd _ rest,.ok => some (i,.read fd rest,[])
  | .delClient fd rest,.ok | .delClient fd rest,.fail _ => some (i,.closeClient fd rest,[])
  | .closeClient _ rest,.ok | .closeClient _ rest,.fail _ => some (i,.batch rest,[])
  | _,_ => none

/-- `Impl::cleanup` when `start` itself calls it, one statement a step. -/
def cleanupNext (i : Impl) : Pc → Reply → Next
  | .cleanup .testEpoll c,.ok =>
    some (i,.cleanup (if 0 ≤ i.epollFd then .closeEpoll else .testServer) c,[])
  | .cleanup .closeEpoll c,.ok | .cleanup .closeEpoll c,.fail _ =>
    some (i,.cleanup .clearEpoll c,[])
  | .cleanup .clearEpoll c,.ok => some ({ i with epollFd := -1 },.cleanup .testServer c,[])
  | .cleanup .testServer c,.ok =>
    some (i,.cleanup (if 0 ≤ i.serverFd then .closeServer else .finish) c,[])
  | .cleanup .closeServer c,.ok | .cleanup .closeServer c,.fail _ =>
    some (i,.cleanup .clearServer c,i.log "INFO" "Network server socket successfully closed.")
  | .cleanup .clearServer c,.ok => some ({ i with serverFd := -1 },.cleanup .finish c,[])
  | .cleanup .finish c,.ok => some ({ i with isRunning := false },.returned c,[])
  | _,_ => none

/-- What `start` does with the reply to the call at its program point. -/
def Pc.next (i : Impl) (pc : Pc) (r : Reply) : Next :=
  match pc with
  | .socket | .setsockopt | .bind | .listen | .epollCreate | .epollAdd | .setRunning
  | .allocate => setupNext i pc r
  | .getFl _ _ | .setFl _ _ _ => flagsNext i pc r
  | .loopHead | .epollWait | .waiting _ | .batch _ => loopNext i pc r
  | .accept _ | .addClient _ _ | .reject _ _ => acceptNext i pc r
  | .read _ _ | .deliver _ _ _ | .delClient _ _ | .closeClient _ _ => drainNext i pc r
  | .cleanup _ _ => cleanupNext i pc r
  | .returned _ | .threw => none

/-- What one atomic `stop()` does to the outside, in order. -/
inductive Effect
  | close (fd : Fd)
  | log (level message : String)
  deriving DecidableEq

def Impl.closed (i : Impl) : List Effect :=
  if i.loggerCb then [.log "INFO" "Network server socket successfully closed."] else []

/-- `Impl::cleanup` as part of one atomic `stop()`. While it logs between
closing the listening socket and resetting `server_fd`, the logger callback may
itself call `stop()`; `nested` says how deep that goes. -/
def Impl.cleanup : Nat → Impl → Impl × List Effect
  | nested,i =>
    let epoll : List Effect := if 0 ≤ i.epollFd then [.close i.epollFd] else []
    let i := if 0 ≤ i.epollFd then { i with epollFd := -1 } else i
    if 0 ≤ i.serverFd then
      let inner :=
        match nested with
        | n+1 => if i.loggerCb && i.isRunning then Impl.cleanup n i else (i,[])
        | 0 => (i,[])
      ({ inner.1 with serverFd := -1,isRunning := false },
        epoll++.close i.serverFd::i.closed++inner.2)
    else ({ i with isRunning := false },epoll)

/-- `TcpServer::stop` -/
def Impl.stop (nested : Nat) (i : Impl) : Impl × List Effect :=
  if i.isRunning then i.cleanup nested else (i,[])

end TuyulNet.Server
