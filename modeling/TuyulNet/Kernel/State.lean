import TuyulNet.Framework.Pipe
import TuyulNet.Kernel.Call
import Mathlib.Logic.Function.Basic

namespace TuyulNet

open Framework

/-- What an open descriptor refers to. Everything that the modelled object has
not opened itself is `foreign`. -/
inductive File
  | sock (flags : Nat)
  | listener (flags : Nat)
  | conn (c : ConnId) (flags : Nat)
  | epoll
  | foreign
  deriving DecidableEq

def File.flags : File → Nat
  | .sock f | .listener f | .conn _ f => f
  | _ => 0

/-- The flags without the two bits of the access mode, which `F_GETFL` reports as well. -/
def File.status (f : File) : Nat := f.flags/4

def File.withFlags : File → Nat → File
  | .sock _,f => .sock f
  | .listener _,f => .listener f
  | .conn c _,f => .conn c f
  | g,_ => g

/-- One TCP connection as this host sees it: the peer's stream, the descriptor
it is attached to, and the bytes accepted for sending. -/
structure Conn where
  pipe : Pipe Byte
  fd : Option Fd
  out : Bytes

def Conn.new : Conn := ⟨.empty,none,[]⟩

/-- Descriptors, readiness queues and connections of one process. An epoll
instance is named by the number it was created under. -/
structure Kernel where
  table : Fd → Option File
  polls : Fd → Poll Fd
  backlog : Fd → List ConnId
  conns : ConnId → Conn
  born : Nat

namespace Kernel

/-- The descriptors in `foreign` are already open. -/
def boot (foreign : List Fd) : Kernel where
  table := fun fd => if 0≤fd ∧ fd∈foreign then some .foreign else none
  polls := fun _ => .empty
  backlog := fun _ => []
  conns := fun _ => .new
  born := 0

def fresh (k : Kernel) (n : Fd) : Bool := 0≤n && (k.table n).isNone

def install (k : Kernel) (n : Fd) (f : File) : Kernel :=
  { k with table := Function.update k.table n (some f) }

def setConn (k : Kernel) (c : ConnId) (x : Conn) : Kernel :=
  { k with conns := Function.update k.conns c x }

/-- Descriptors open in this process that the modelled object obtained. -/
def Owns (k : Kernel) (fd : Fd) : Prop := ∃ f,k.table fd=some f ∧ f≠.foreign

instance (k : Kernel) (fd : Fd) : Decidable (k.Owns fd) :=
  match h : k.table fd with
  | none => isFalse (by simp [Owns,h])
  | some f => decidable_of_iff (f≠.foreign) (by simp [Owns,h])

/-- Descriptors of connections. -/
def Attached (k : Kernel) (fd : Fd) : Prop := ∃ c f,k.table fd=some (.conn c f)

/-- The interest set of the epoll instance created under `ep`. -/
def watch (k : Kernel) (ep fd : Fd) : Option Trigger := (k.polls ep).interest fd

def readable (k : Kernel) (fd : Fd) : Bool :=
  match k.table fd with
  | some (.conn c _) => (k.conns c).pipe.readable
  | some (.listener _) => !(k.backlog fd).isEmpty
  | _ => false

def notify (k : Kernel) (fd : Fd) : Kernel :=
  { k with polls := fun p => (k.polls p).notify fd }

/-- Connection `c` has news for whoever watches its descriptor. -/
def wake (k : Kernel) (c : ConnId) : Kernel :=
  match (k.conns c).fd with
  | some fd => k.notify fd
  | none => k

def setPipe (k : Kernel) (c : ConnId) (p : Pipe Byte) : Kernel :=
  k.setConn c { k.conns c with pipe := p }

/-- The number is free afterwards, whatever `close` returns. -/
def close (k : Kernel) (fd : Fd) : Kernel :=
  match k.table fd with
  | none => k
  | some f =>
    { k with
      table := Function.update k.table fd none
      polls := fun p => (k.polls p).del fd
      backlog := Function.update k.backlog fd []
      conns := match f with
        | .conn c _ => Function.update k.conns c { k.conns c with fd := none }
        | _ => k.conns }

def accept (k : Kernel) (l n : Fd) (c : ConnId) : Kernel :=
  { k with
    table := Function.update k.table n (some (.conn c 0))
    backlog := Function.update k.backlog l (k.backlog l).tail
    conns := Function.update k.conns c { k.conns c with fd := some n } }

/-- Readable data, end of stream (`[]`) or nothing yet, as `read` on a
connection reports it. -/
def readConn (k : Kernel) (c : ConnId) (count : Nat) (bs : Bytes) : Option Kernel :=
  if bs=[] then
    if count=0 ∨ ((k.conns c).pipe.unread=[] ∧ (k.conns c).pipe.ending=.finished) then some k
    else none
  else if bs.length ≤ count then ((k.conns c).pipe.take bs).map (k.setPipe c)
  else none

def drained (k : Kernel) (c : ConnId) : Prop :=
  (k.conns c).pipe.unread=[] ∧ (k.conns c).pipe.ending=.flowing

instance (k : Kernel) (c : ConnId) : Decidable (k.drained c) :=
  inferInstanceAs (Decidable (_ ∧ _))

def answerRead (k : Kernel) (fd : Fd) (count : Nat) : Reply → Option Kernel
  | .data bs =>
    match k.table fd with
    | some (.conn c _) => k.readConn c count bs
    | some .foreign => if bs.length ≤ count then some k else none
    | _ => none
  | .fail e =>
    if e.wouldBlock then
      match k.table fd with
      | some (.conn c f) =>
        if nonblocking f=true ∧ 0 < count ∧ k.drained c then some k else none
      | some .foreign => some k
      | _ => none
    else some k
  | _ => none

def answerAccept (k : Kernel) (l : Fd) : Reply → Option Kernel
  | .conn n c =>
    match k.table l with
    | some (.listener _) =>
      if k.fresh n=true ∧ (k.backlog l).head?=some c then some (k.accept l n c) else none
    | _ => none
  | .fail e =>
    if e.wouldBlock then
      match k.table l with
      | some (.listener f) => if nonblocking f=true ∧ k.backlog l=[] then some k else none
      | _ => none
    else some k
  | _ => none

/-- A call that only succeeds or fails. -/
def answerUnit (k : Kernel) (ok : Option Kernel) : Reply → Option Kernel
  | .ok => ok
  | .fail _ => some k
  | _ => none

def answerOpen (k : Kernel) (f : File) : Reply → Option Kernel
  | .fd n => if k.fresh n then some (k.install n f) else none
  | .fail _ => some k
  | _ => none

def answerEpollCreate (k : Kernel) : Reply → Option Kernel
  | .fd n =>
    if k.fresh n then
      some { k.install n .epoll with polls := Function.update k.polls n .empty }
    else none
  | .fail _ => some k
  | _ => none

def answerEvents (k : Kernel) (ep : Fd) (maxEvents : Int) : Reply → Option Kernel
  | .events es =>
    if (es.map PollEvent.fd).Nodup ∧ (es.length : Int) ≤ maxEvents ∧
        ∀ e∈es,e.fd∈(k.polls ep).ready ∧ e.mask.nonempty=true then
      some { k with polls :=
        Function.update k.polls ep ((k.polls ep).harvest (es.map PollEvent.fd)) }
    else none
  | .fail _ => some k
  | _ => none

def answerClose (k : Kernel) (fd : Fd) (r : Reply) : Option Kernel :=
  match k.table fd,r with
  | none,.fail _ => some k
  | some _,.ok | some _,.fail _ => some (k.close fd)
  | _,_ => none

def register (k : Kernel) (ep fd : Fd) (t : Trigger) : Kernel :=
  { k with polls := Function.update k.polls ep ((k.polls ep).add fd t (k.readable fd)) }

def deregister (k : Kernel) (ep fd : Fd) : Kernel :=
  { k with polls := Function.update k.polls ep ((k.polls ep).del fd) }

/-- The replies the kernel may give to a call and what each does to its state.
Every system call may fail at any time with any error that is not `EAGAIN`. -/
def answer (k : Kernel) (c : Call) (r : Reply) : Option Kernel :=
  match c with
  | .internal | .deliver _ _ | .threadJoin | .freeaddrinfo _ =>
    if r=.ok then some k else none
  | .threadStart => k.answerUnit (some k) r
  | .socket => k.answerOpen (.sock 0) r
  | .setsockopt fd | .bind fd _ => k.answerUnit (if (k.table fd).isSome then some k else none) r
  | .getFlags fd =>
    match r with
    | .flags n => if (k.table fd).map File.status=some (n/4) then some k else none
    | .fail _ => some k
    | _ => none
  | .setFlags fd n =>
    k.answerUnit ((k.table fd).map fun f => k.install fd (f.withFlags n)) r
  | .listen fd =>
    k.answerUnit (match k.table fd with
      | some (.sock f) | some (.listener f) => some (k.install fd (.listener f))
      | _ => none) r
  | .epollCreate => k.answerEpollCreate r
  | .epollAdd ep fd t =>
    k.answerUnit (if k.table ep=some .epoll ∧ (k.table fd).isSome=true ∧
        (k.polls ep).interest fd=none then some (k.register ep fd t) else none) r
  | .epollDel ep fd =>
    k.answerUnit (if k.table ep=some .epoll ∧ (k.polls ep).interest fd≠none then
      some (k.deregister ep fd) else none) r
  | .epollWait ep maxEvents _ =>
    k.answerUnit (if k.table ep=some .epoll ∧ 0 < maxEvents then some k else none) r
  | .epollReturn ep maxEvents => k.answerEvents ep maxEvents r
  | .accept l => k.answerAccept l r
  | .read fd count => k.answerRead fd count r
  | .write fd payload =>
    match r with
    | .wrote n =>
      match k.table fd with
      | some (.conn c _) =>
        if 0<n ∧ n≤payload.length then
          some (k.setConn c { k.conns c with out := (k.conns c).out++payload.take n })
        else none
      | _ => none
    | .fail _ => some k
    | _ => none
  | .close fd => k.answerClose fd r
  | .getaddrinfo _ _ =>
    match r with
    | .addr _ | .fail _ => some k
    | _ => none
  | .connect fd _ =>
    k.answerUnit (match k.table fd with
      | some (.sock f) =>
        some { k with
          table := Function.update k.table fd (some (.conn k.born f))
          conns := Function.update k.conns k.born { Conn.new with fd := some fd }
          born := k.born+1 }
      | _ => none) r

/-- What peers, the network and the rest of the process may do at any time. -/
inductive Env
  | connect (l : Fd)
  | send (c : ConnId) (bs : Bytes)
  | shut (c : ConnId)
  | arrive (c : ConnId) (n : Nat)
  | finish (c : ConnId)
  | tear (c : ConnId) (n : Nat)
  | prune (ep fd : Fd)
  | openForeign (fd : Fd)
  | closeForeign (fd : Fd)
  deriving DecidableEq

def env (k : Kernel) : Env → Option Kernel
  | .connect l =>
    match k.table l with
    | some (.listener _) =>
      some (notify { k with
        backlog := Function.update k.backlog l (k.backlog l++[k.born])
        conns := Function.update k.conns k.born .new
        born := k.born+1 } l)
    | _ => none
  | .send c bs =>
    if c<k.born then ((k.conns c).pipe.send bs).map (k.setPipe c) else none
  | .shut c => if c<k.born then some (k.setPipe c (k.conns c).pipe.shut) else none
  | .arrive c n =>
    if c<k.born ∧ 0<n ∧ n≤(k.conns c).pipe.flight.length then
      ((k.conns c).pipe.arrive n).map fun p => (k.setPipe c p).wake c
    else none
  | .finish c =>
    if c<k.born then (k.conns c).pipe.finish.map fun p => (k.setPipe c p).wake c else none
  | .tear c n =>
    if c<k.born then some ((k.setPipe c ((k.conns c).pipe.tear n)).wake c) else none
  | .prune ep fd =>
    if k.readable fd then none
    else some { k with polls := Function.update k.polls ep ((k.polls ep).prune fd) }
  | .openForeign fd => if k.fresh fd then some (k.install fd .foreign) else none
  | .closeForeign fd => if k.table fd=some .foreign then some (k.close fd) else none

end Kernel

end TuyulNet
