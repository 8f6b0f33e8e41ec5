import Mathlib.Logic.Function.Basic
import Mathlib.Logic.Relation

namespace Framework

/-- Parts that move one at a time, each by a rule that looks at this part only. -/
structure Independent (K X : Type*) where
  next : K → X → Option X

namespace Independent

variable {K X : Type*} [DecidableEq K] (m : Independent K X)

def Moves (σ τ : K → X) : Prop := ∃ k x,m.next k (σ k)=some x ∧ τ=Function.update σ k x

/-- Any number of moves, of whichever parts. -/
def Reaches : (K → X) → (K → X) → Prop := Relation.ReflTransGen m.Moves

def Settled (σ : K → X) : Prop := ∀ k,m.next k (σ k)=none

variable {m} {σ τ τ' : K → X}

/-- What the others do in between does not show in a part. -/
theorem Reaches.part (h : m.Reaches σ τ) (k : K) :
    Relation.ReflTransGen (fun x y => m.next k x=some y) (σ k) (τ k) := by
  induction h with
  | refl => exact .refl
  | tail _ move ih =>
    obtain ⟨l,x,hx,rfl⟩ := move
    by_cases hk : k=l
    · subst k
      rw [Function.update_self]
      exact ih.tail hx
    · rw [Function.update_of_ne hk]
      exact ih

/-- In whichever order the parts are moved, they can come to rest in one way only. -/
theorem settles_once (h : m.Reaches σ τ) (h' : m.Reaches σ τ') (hs : m.Settled τ)
    (hs' : m.Settled τ') : τ=τ' := by
  have rests {k : K} {x y : X} (hx : m.next k x=none)
      (hr : Relation.ReflTransGen (fun x y => m.next k x=some y) x y) : x=y := by
    rcases hr.cases_head with same|⟨z,hz,-⟩
    · exact same
    · rw [hx] at hz
      cases hz
  funext k
  have once : Relator.RightUnique fun x y => m.next k x=some y := by
    intro x y z hy hz
    exact Option.some.inj (hy.symm.trans hz)
  rcases (h.part k).total_of_right_unique once (h'.part k) with forth|back
  · exact rests (hs k) forth
  · exact (rests (hs' k) back).symm

end Independent

end Framework
