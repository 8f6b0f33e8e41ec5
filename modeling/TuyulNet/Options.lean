import Mathlib.Tactic.Basic

namespace TuyulNet

/-- `enum class ErrorCode` -/
inductive ErrorCode
  | success | socketCreationFailed | setOptionFailed | bindFailed | listenFailed
  | epollCreationFailed | acceptFailed | readFailed | clientDisconnected | timeout
  deriving DecidableEq

/-- `struct TcpOptions`; the constructors take any `int` in each field. -/
structure TcpOptions where
  maxEpollEvents : Int := 64
  networkBufferSize : Int := 4096
  watchdogTimeoutMs : Int := 5000
  deriving DecidableEq

/-- Both vectors of a loop can be allocated: a negative `int` becomes a
`size_t` above every vector's maximum, and the constructor throws. -/
def TcpOptions.allocates (o : TcpOptions) : Bool :=
  0≤o.maxEpollEvents && 0≤o.networkBufferSize

/-- `buffer.size()` -/
def TcpOptions.bufferSize (o : TcpOptions) : Nat := o.networkBufferSize.toNat

/-- Neither size is negative, and there is room for a byte if there is room for an event. -/
def TcpOptions.Workable (o : TcpOptions) : Prop :=
  0 ≤ o.maxEpollEvents ∧ 0 ≤ o.networkBufferSize ∧ (o.maxEpollEvents=0 ∨ 1 ≤ o.networkBufferSize)

/-- The two ways in which options can be unworkable. -/
theorem TcpOptions.workable_iff {P : Prop} (o : TcpOptions) (negative : o.allocates=false → ¬P)
    (empty : 1 ≤ o.maxEpollEvents → o.networkBufferSize=0 → ¬P) (within : o.Workable → P) :
    P ↔ o.Workable := by
  refine ⟨fun h => ?_,within⟩
  have ho : o.allocates=true := Bool.of_not_eq_false fun hn => negative hn h
  simp only [allocates,Bool.and_eq_true,decide_eq_true_eq] at ho
  refine ⟨ho.1,ho.2,?_⟩
  have room : ¬(1 ≤ o.maxEpollEvents ∧ o.networkBufferSize=0) := fun hn => empty hn.1 hn.2 h
  omega

/-- Whatever `small` leaves room for, `o` does too, and both loops start or neither. -/
structure TcpOptions.Within (small o : TcpOptions) : Prop where
  allocates : small.allocates=o.allocates
  events : small.maxEpollEvents ≤ o.maxEpollEvents
  bytes : small.bufferSize=o.bufferSize ∨ 0 < small.bufferSize ∧ small.bufferSize ≤ o.bufferSize

/-- One event and no byte. -/
theorem TcpOptions.within_empty {o : TcpOptions} (hm : 1 ≤ o.maxEpollEvents)
    (hb : o.networkBufferSize=0) : o.bufferSize=0 ∧ TcpOptions.Within ⟨1,0,5000⟩ o := by
  have empty : o.bufferSize=0 := by simp [bufferSize,hb]
  refine ⟨empty,?_,hm,.inl empty.symm⟩
  simp [allocates,hb]
  omega

end TuyulNet
