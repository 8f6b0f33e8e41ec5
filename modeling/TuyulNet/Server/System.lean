import TuyulNet.Framework.Machine
import TuyulNet.Kernel.Sound
import TuyulNet.Server.Reactor

namespace TuyulNet.Server

open Framework

/-- One `TcpServer` inside its process: a `start` call in progress, the kernel,
and everything that was called or logged so far. -/
structure State where
  impl : Impl
  pc : Pc
  kernel : Kernel
  trace : Trace

/-- `start` has just been entered on an idle object. -/
def State.boot (port : Int) (options : TcpOptions) (loggerCb dataCb : Bool)
    (foreign : List Fd) : State where
  impl := { port,options,loggerCb,dataCb }
  pc := .socket
  kernel := .boot foreign
  trace := []

/-- The reactor takes the reply `r` to the call at its program point. -/
def State.reactor (s : State) (r : Reply) : Option State :=
  match s.kernel.answer (s.pc.call s.impl) r,s.pc.next s.impl r with
  | some kernel,some (impl,pc,lines) =>
    some ⟨impl,pc,kernel,lines++.call (s.pc.call s.impl) r::s.trace⟩
  | _,_ => none

/-- The line that a close leaves in the trace. -/
def closeLine (k : Kernel) (fd : Fd) : Event :=
  .call (.close fd) (if (k.table fd).isSome then .ok else .fail .ebadf)

def Effect.apply (kt : Kernel × Trace) : Effect → Kernel × Trace
  | .close fd => (kt.1.close fd,closeLine kt.1 fd::kt.2)
  | .log level message => (kt.1,.log level message::kt.2)

/-- `stop()` as one atomic step of another thread or of a callback. -/
def State.stop (s : State) (nested : Nat) : State :=
  let out := s.impl.stop nested
  let kt := out.2.foldl Effect.apply (s.kernel,.stop::s.trace)
  { s with impl := out.1,kernel := kt.1,trace := kt.2 }

inductive Action
  | reactor (r : Reply)
  | env (e : Kernel.Env)
  | stop (nested : Nat)
  deriving DecidableEq

def Action.isStop : Action → Bool
  | .stop _ => true
  | _ => false

def Action.isReactor : Action → Bool
  | .reactor _ => true
  | _ => false

def step (s : State) : Action → Option State
  | .reactor r => s.reactor r
  | .env e => (s.kernel.env e).map fun k => { s with kernel := k }
  | .stop nested => some (s.stop nested)

def machine : Machine State Action := ⟨step⟩

@[simp] theorem machine_step : machine.step=step := rfl

theorem reactor_cases {s t : State} {r : Reply} (h : s.reactor r=some t) :
    ∃ k i pc lines,s.kernel.answer (s.pc.call s.impl) r=some k ∧
      s.pc.next s.impl r=some (i,pc,lines) ∧
      t=⟨i,pc,k,lines++.call (s.pc.call s.impl) r::s.trace⟩ := by
  unfold State.reactor at h
  split at h
  · rename_i k i pc lines hk hn
    exact ⟨k,i,pc,lines,hk,hn,(Option.some.inj h).symm⟩
  · cases h

theorem next_cases {i : Impl} {pc : Pc} {r : Reply} {x : Impl × Pc × Trace}
    (h : pc.next i r=some x) :
    setupNext i pc r=some x ∨ flagsNext i pc r=some x ∨ loopNext i pc r=some x ∨
      acceptNext i pc r=some x ∨ drainNext i pc r=some x ∨ cleanupNext i pc r=some x := by
  cases pc <;> simp_all [Pc.next]

/-- Apart from its call a step leaves only log lines in the trace. -/
theorem next_lines {i j : Impl} {pc q : Pc} {r : Reply} {lines : Trace}
    (h : pc.next i r=some (j,q,lines)) : Logs lines := by
  rcases next_cases h with h|h|h|h|h|h
  · unfold setupNext bail at h
    split at h <;> cases h <;> simp
  · unfold flagsNext blockingFailed bail at h
    split at h <;> (try split at h) <;> cases h <;> simp
  · unfold loopNext at h
    split at h <;> (try split at h) <;> cases h <;> simp
  · unfold acceptNext at h
    split at h <;> cases h <;> (try split) <;> simp
  · unfold drainNext at h
    split at h <;> (try split at h) <;> cases h <;> simp
  · unfold cleanupNext at h
    split at h <;> cases h <;> simp

theorem reactor_ledger {s t : State} {r : Reply} (h : s.reactor r=some t) :
    ledger t.trace=(s.pc.call s.impl).entries r++ledger s.trace := by
  obtain ⟨k,i,pc,lines,-,hn,rfl⟩ := reactor_cases h
  exact (next_lines hn).skip ledger_log _

section stopping

/-- The descriptors that a list of effects closes, in order. -/
def closing (effects : List Effect) : List Fd :=
  effects.filterMap fun
    | .close fd => some fd
    | .log _ _ => none

@[simp] theorem closing_nil : closing []=[] := rfl
@[simp] theorem closing_close (fd : Fd) (l : List Effect) :
    closing (.close fd::l)=fd::closing l := rfl
@[simp] theorem closing_log (a b : String) (l : List Effect) :
    closing (.log a b::l)=closing l := rfl
@[simp] theorem closing_append (l m : List Effect) : closing (l++m)=closing l++closing m := by
  simp [closing]
@[simp] theorem closing_closed (i : Impl) : closing i.closed=[] := by
  unfold Impl.closed
  split <;> rfl

theorem cleanup_closing (nested : Nat) (i : Impl) (x : Fd) :
    x∈closing (i.cleanup nested).2 ↔
      (0 ≤ i.epollFd ∧ x=i.epollFd) ∨ (0 ≤ i.serverFd ∧ x=i.serverFd) := by
  induction nested generalizing i with
  | zero =>
    by_cases he : 0 ≤ i.epollFd <;> by_cases hs : 0 ≤ i.serverFd <;> simp [Impl.cleanup,he,hs]
  | succ n ih =>
    by_cases he : 0 ≤ i.epollFd <;> by_cases hs : 0 ≤ i.serverFd <;>
      by_cases hl : i.loggerCb=true ∧ i.isRunning=true <;> simp [Impl.cleanup,he,hs,hl,ih]

theorem cleanup_impl (nested : Nat) (i : Impl) :
    (i.cleanup nested).1={ i with
      epollFd := if 0 ≤ i.epollFd then -1 else i.epollFd
      serverFd := if 0 ≤ i.serverFd then -1 else i.serverFd
      isRunning := false } := by
  induction nested generalizing i with
  | zero =>
    by_cases he : 0 ≤ i.epollFd <;> by_cases hs : 0 ≤ i.serverFd <;> simp [Impl.cleanup,he,hs]
  | succ n ih =>
    by_cases he : 0 ≤ i.epollFd <;> by_cases hs : 0 ≤ i.serverFd <;>
      by_cases hl : i.loggerCb=true ∧ i.isRunning=true <;> simp [Impl.cleanup,he,hs,hl,ih]

/-- Without a nested call each field is closed once. -/
theorem cleanup_once {nested : Nat} {i : Impl} (hn : nested=0 ∨ i.loggerCb=false) :
    closing (i.cleanup nested).2=
      (if 0 ≤ i.epollFd then [i.epollFd] else [])++if 0 ≤ i.serverFd then [i.serverFd] else [] := by
  cases nested with
  | zero =>
    by_cases he : 0 ≤ i.epollFd <;> by_cases hs : 0 ≤ i.serverFd <;> simp [Impl.cleanup,he,hs]
  | succ n =>
    have hl : i.loggerCb=false := hn.resolve_left (Nat.succ_ne_zero n)
    by_cases he : 0 ≤ i.epollFd <;> by_cases hs : 0 ≤ i.serverFd <;> simp [Impl.cleanup,he,hs,hl]

variable {k : Kernel} {t : Trace}

theorem effects_kernel (effects : List Effect) :
    (effects.foldl Effect.apply (k,t)).1=(closing effects).foldl Kernel.close k := by
  induction effects generalizing k t with
  | nil => rfl
  | cons e effects ih => cases e <;> exact ih

theorem closes_table (fds : List Fd) (x : Fd) :
    (fds.foldl Kernel.close k).table x=if x∈fds then none else k.table x := by
  induction fds generalizing k with
  | nil => simp
  | cons fd fds ih =>
    rw [List.foldl_cons,ih,Kernel.close_table]
    by_cases hx : x=fd <;> simp [hx]

theorem closes_wf (hw : k.Wf) (fds : List Fd) : (fds.foldl Kernel.close k).Wf := by
  induction fds generalizing k with
  | nil => exact hw
  | cons fd fds ih => exact ih (Kernel.close_wf hw fd)

theorem closes_watch (hw : k.Wf) (fds : List Fd) (p x : Fd) :
    (fds.foldl Kernel.close k).watch p x=if x∈fds then none else k.watch p x := by
  induction fds generalizing k with
  | nil => simp
  | cons fd fds ih =>
    rw [List.foldl_cons,ih (Kernel.close_wf hw fd),Kernel.close_watch hw]
    by_cases hx : x=fd <;> simp [hx]

theorem closeLine_agrees (hw : k.Wf) (ha : k.Agrees (ledger t)) (fd : Fd) :
    (k.close fd).Agrees (ledger (closeLine k fd::t)) := by
  unfold closeLine
  rw [ledger_call]
  exact ha.close hw fd _

theorem effects_agrees (hw : k.Wf) (ha : k.Agrees (ledger t)) (effects : List Effect) :
    (effects.foldl Effect.apply (k,t)).1.Agrees
      (ledger (effects.foldl Effect.apply (k,t)).2) := by
  induction effects generalizing k t with
  | nil => exact ha
  | cons e effects ih =>
    cases e with
    | close fd => exact ih (Kernel.close_wf hw fd) (closeLine_agrees hw ha fd)
    | log a b => exact ih hw ha

theorem effects_disciplined (hw : k.Wf) (ha : k.Agrees (ledger t))
    (hd : Ledger.Disciplined (ledger t)) (effects : List Effect)
    (hn : (closing effects).Nodup) (ho : ∀ fd∈closing effects,k.Owns fd) :
    Ledger.Disciplined (ledger (effects.foldl Effect.apply (k,t)).2) := by
  induction effects generalizing k t with
  | nil => exact hd
  | cons e effects ih =>
    cases e with
    | close fd =>
      obtain ⟨alone,hn⟩ := List.nodup_cons.mp hn
      have owned : k.Owns fd := ho fd (by simp)
      have ne : fd≠-1 := by
        intro hm
        have h0 := Kernel.owns_nonneg hw owned
        rw [hm] at h0
        exact absurd h0 (by decide)
      apply ih (Kernel.close_wf hw fd) (closeLine_agrees hw ha fd)
      · simpa [closeLine,Call.entries,ne] using And.intro ((ha fd).mpr owned) hd
      · exact hn
      · intro x hx
        apply (Kernel.close_owns fd x).mpr
        exact ⟨fun e => alone (e ▸ hx),ho x (by simp [hx])⟩
    | log a b => exact ih hw ha hd hn ho

end stopping

end TuyulNet.Server
