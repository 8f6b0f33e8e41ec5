import TuyulNet.Framework.Ledger
import TuyulNet.Framework.Poll

namespace TuyulNet

open Framework

abbrev Fd := Int
abbrev ConnId := Nat
abbrev Byte := UInt8
abbrev Bytes := List Byte

inductive Errno
  | eagain | ewouldblock | eintr | ebadf | einval | epipe | econnreset
  | other (code : Nat)
  deriving DecidableEq

/-- `errno == EAGAIN || errno == EWOULDBLOCK` -/
def Errno.wouldBlock : Errno → Bool
  | .eagain | .ewouldblock => true
  | _ => false

def oNonblock : Nat := 2048

def nonblocking (flags : Nat) : Bool := flags.testBit 11

theorem nonblocking_set (flags : Nat) : nonblocking (flags ||| oNonblock)=true := by
  have bit : Nat.testBit 2048 11=true := by decide
  simp [nonblocking,oNonblock,Nat.testBit_or,bit]

/-- The bits `EPOLLIN`, `EPOLLERR` and `EPOLLHUP` of an event mask. -/
structure Mask where
  input : Bool
  error : Bool
  hangup : Bool
  deriving DecidableEq

def Mask.nonempty (m : Mask) : Bool := m.input || m.error || m.hangup

structure PollEvent where
  fd : Fd
  mask : Mask
  deriving DecidableEq

/-- What a thread asks for at one of its steps, with the argument values that
it reads at that moment. -/
inductive Call
  | internal
  | socket
  | setsockopt (fd : Fd)
  | getFlags (fd : Fd)
  | setFlags (fd : Fd) (flags : Nat)
  | bind (fd : Fd) (port : Nat)
  | listen (fd : Fd)
  | epollCreate
  | epollAdd (ep fd : Fd) (trigger : Trigger)
  | epollDel (ep fd : Fd)
  | epollWait (ep : Fd) (maxEvents timeout : Int)
  | epollReturn (ep : Fd) (maxEvents : Int)
  | accept (fd : Fd)
  | read (fd : Fd) (count : Nat)
  | write (fd : Fd) (payload : Bytes)
  | close (fd : Fd)
  | getaddrinfo (host service : String)
  | freeaddrinfo (res : Nat)
  | connect (fd : Fd) (res : Nat)
  | deliver (fd : Fd) (payload : Bytes)
  | threadStart
  | threadJoin
  deriving DecidableEq

/-- `conn n c` is `accept` returning the number `n` for connection `c`; the
program sees the number only. `data []` is `read` returning 0. -/
inductive Reply
  | ok
  | fail (e : Errno)
  | fd (n : Fd)
  | conn (n : Fd) (c : ConnId)
  | flags (n : Nat)
  | events (es : List PollEvent)
  | data (bs : Bytes)
  | wrote (n : Nat)
  | addr (res : Nat)
  deriving DecidableEq

/-- The stream is over for the reader: `read` returned 0, or failed with an
error other than `EAGAIN`. -/
def Reply.endsStream : Reply → Bool
  | .data bs => bs.isEmpty
  | .fail e => !e.wouldBlock
  | _ => false

inductive Event
  | call (c : Call) (r : Reply)
  | log (level message : String)
  | stop
  deriving DecidableEq

/-- What has happened so far, newest first. -/
abbrev Trace := List Event

/-- The descriptors that a call names. -/
def Call.names : Call → List Fd
  | .setsockopt fd | .getFlags fd | .setFlags fd _ | .bind fd _ | .listen fd
  | .accept fd | .read fd _ | .write fd _ | .close fd | .connect fd _ => [fd]
  | .epollAdd ep fd _ | .epollDel ep fd => [ep,fd]
  | .epollWait ep _ _ => [ep]
  | _ => []

/-- Calls that change no descriptor and no interest set, whatever the reply. -/
def Call.quiet : Call → Bool
  | .internal | .setsockopt _ | .getFlags _ | .bind _ _ | .epollWait _ _ _ | .epollReturn _ _
  | .read _ _ | .write _ _ | .getaddrinfo _ _ | .freeaddrinfo _ | .deliver _ _ | .threadStart
  | .threadJoin => true
  | _ => false

/-- Calls that can attach a descriptor to a connection or detach it. -/
def Call.attaches : Call → Bool
  | .accept _ | .connect _ _ | .close _ => true
  | _ => false

/-- Calls that neither open a descriptor nor close or connect one. -/
def Call.steady : Call → Bool
  | .socket | .epollCreate | .accept _ | .close _ | .connect _ _ => false
  | _ => true

/-- Calls that can make a descriptor readable or drop entries of a ready list
that nobody has asked for. -/
def Call.renews : Call → Bool
  | .listen _ | .epollCreate | .epollReturn _ _ | .connect _ _ => true
  | _ => false

/-- Calls that neither move payload nor deal with a listening socket. -/
def Call.plain : Call → Bool
  | .listen _ | .accept _ | .read _ _ | .deliver _ _ => false
  | _ => true

/-- -1 is never a descriptor, so a call on it touches nothing. -/
def touches (fds : List Fd) : Ledger Fd := (fds.filter (·≠-1)).map .touch

theorem held_touches (fd : Fd) (fds : List Fd) (t : Ledger Fd) :
    Ledger.held fd (touches fds++t)=Ledger.held fd t := by
  unfold touches
  induction fds.filter (·≠-1) with
  | nil => rfl
  | cons a l ih => simpa using ih

theorem disciplined_touches (fds : List Fd) (t : Ledger Fd) :
    Ledger.Disciplined (touches fds++t) ↔
      (∀ fd∈fds,fd≠-1 → Ledger.held fd t=true) ∧ Ledger.Disciplined t := by
  induction fds with
  | nil => simp [touches]
  | cons a l ih =>
    by_cases ha : a=-1
    · simpa [touches,ha] using ih
    · have heq : touches (a::l)=.touch a::touches l := by simp [touches,ha]
      rw [heq,List.cons_append,Ledger.disciplined_touch,held_touches,ih]
      simp [ha,and_assoc]

/-- The descriptor history of one call. -/
def Call.entries : Call → Reply → Ledger Fd
  | .socket,.fd n | .epollCreate,.fd n => [.acquire n]
  | .accept l,.conn n _ => .acquire n::touches [l]
  | .close fd,_ => if fd=-1 then [] else [.release fd]
  | c,_ => touches c.names

theorem quiet_steady {c : Call} (hc : c.quiet=true) : c.steady=true := by
  cases c <;> first | rfl | cases hc

theorem steady_attaches {c : Call} (hc : c.steady=true) : c.attaches=false := by
  cases c <;> first | rfl | cases hc

/-- A call that neither opens nor closes a descriptor only touches what it names. -/
theorem steady_entries {c : Call} (hc : c.steady=true) (r : Reply) :
    c.entries r=touches c.names := by
  cases c <;> first | rfl | cases hc

theorem released_touches (fd : Fd) (fds : List Fd) (t : Ledger Fd) :
    Ledger.released fd (touches fds++t)=Ledger.released fd t := by
  unfold touches Ledger.released
  rw [List.count_append,List.count_eq_zero.mpr (by simp),Nat.zero_add]

/-- A disciplined history has every call name held descriptors, or -1. -/
theorem disciplined_names {c : Call} {r : Reply} {t : Ledger Fd}
    (h : Ledger.Disciplined (c.entries r++t)) : ∀ fd∈c.names,fd=-1 ∨ Ledger.held fd t=true := by
  have touched (hd : Ledger.Disciplined (touches c.names++t)) :
      ∀ fd∈c.names,fd=-1 ∨ Ledger.held fd t=true := by
    intro fd hm
    by_cases hfd : fd=-1
    · exact .inl hfd
    · exact .inr (((disciplined_touches c.names t).mp hd).1 fd hm hfd)
  unfold Call.entries at h
  split at h
  · intro fd hm
    cases hm
  · intro fd hm
    cases hm
  · exact touched h.tail
  · intro fd hm
    cases List.mem_singleton.mp hm
    split at h
    · rename_i hfd
      exact .inl hfd
    · exact .inr h.1
  · exact touched h

def Event.entries : Event → Ledger Fd
  | .call c r => c.entries r
  | _ => []

def ledger (t : Trace) : Ledger Fd := t.flatMap Event.entries

@[simp] theorem ledger_nil : ledger []=[] := rfl
@[simp] theorem ledger_call (c : Call) (r : Reply) (t : Trace) :
    ledger (.call c r::t)=c.entries r++ledger t := rfl
@[simp] theorem ledger_log (a b : String) (t : Trace) : ledger (.log a b::t)=ledger t := rfl
@[simp] theorem ledger_stop (t : Trace) : ledger (.stop::t)=ledger t := rfl
@[simp] theorem ledger_append (s t : Trace) : ledger (s++t)=ledger s++ledger t := by
  simp [ledger]

/-- How many calls of a kind have been issued. -/
def issued (kind : Call → Bool) (t : Trace) : Nat :=
  t.countP fun
    | .call c _ => kind c
    | _ => false

@[simp] theorem issued_call (kind : Call → Bool) (c : Call) (r : Reply) (t : Trace) :
    issued kind (.call c r::t)=issued kind t+(kind c).toNat := by
  cases hc : kind c <;> simp [issued,hc]
@[simp] theorem issued_log (kind : Call → Bool) (a b : String) (t : Trace) :
    issued kind (.log a b::t)=issued kind t := by simp [issued]
@[simp] theorem issued_stop (kind : Call → Bool) (t : Trace) :
    issued kind (.stop::t)=issued kind t := by simp [issued]

/-- Only lines of log. -/
def Logs (t : Trace) : Prop := ∀ e∈t,∃ level message,e=.log level message

@[simp] theorem logs_nil : Logs [] := by simp [Logs]
@[simp] theorem logs_cons (level message : String) (t : Trace) :
    Logs (.log level message::t) ↔ Logs t := by simp [Logs]

/-- What log lines leave alone. -/
theorem Logs.skip {α : Type*} {f : Trace → α} (hf : ∀ a b t,f (.log a b::t)=f t) {lines : Trace}
    (h : Logs lines) (t : Trace) : f (lines++t)=f t := by
  induction lines with
  | nil => rfl
  | cons e lines ih =>
    obtain ⟨a,b,rfl⟩ := h e (by simp)
    exact (hf a b _).trans (ih ((logs_cons a b lines).mp h))

end TuyulNet
