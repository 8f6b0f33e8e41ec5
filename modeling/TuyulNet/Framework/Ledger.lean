import Mathlib.Data.List.Basic
import Mathlib.Tactic.Basic

namespace Framework

/-- One line of a resource history. -/
inductive Entry (α : Type*)
  | acquire (a : α)
  | release (a : α)
  | touch (a : α)
  deriving DecidableEq

/-- A history of named resources, newest entry first. Names may be handed out
again after a release. -/
abbrev Ledger (α : Type*) := List (Entry α)

namespace Ledger

variable {α : Type*} [DecidableEq α]

def held (a : α) : Ledger α → Bool
  | [] => false
  | .acquire b::t => b=a || held a t
  | .release b::t => b≠a && held a t
  | .touch _::t => held a t

def acquired (a : α) (t : Ledger α) : Nat := t.count (.acquire a)
def released (a : α) (t : Ledger α) : Nat := t.count (.release a)

/-- Only free names are acquired, only held names are released or touched. -/
def Disciplined : Ledger α → Prop
  | [] => True
  | .acquire a::t => held a t=false ∧ Disciplined t
  | .release a::t => held a t=true ∧ Disciplined t
  | .touch a::t => held a t=true ∧ Disciplined t

instance Disciplined.decidable : ∀ t : Ledger α,Decidable (Disciplined t)
  | [] => isTrue trivial
  | .acquire _::t | .release _::t | .touch _::t =>
    have := Disciplined.decidable t
    inferInstanceAs (Decidable (_ ∧ _))

@[simp] theorem held_nil (a : α) : held a []=false := rfl
@[simp] theorem held_acquire (a b : α) (t : Ledger α) :
    held a (.acquire b::t)=(decide (b=a) || held a t) := rfl
@[simp] theorem held_release (a b : α) (t : Ledger α) :
    held a (.release b::t)=(decide (b≠a) && held a t) := rfl
@[simp] theorem held_touch (a b : α) (t : Ledger α) :
    held a (.touch b::t)=held a t := rfl

@[simp] theorem disciplined_nil : Disciplined ([] : Ledger α) := trivial
@[simp] theorem disciplined_acquire (a : α) (t : Ledger α) :
    Disciplined (.acquire a::t) ↔ held a t=false ∧ Disciplined t := Iff.rfl
@[simp] theorem disciplined_release (a : α) (t : Ledger α) :
    Disciplined (.release a::t) ↔ held a t=true ∧ Disciplined t := Iff.rfl
@[simp] theorem disciplined_touch (a : α) (t : Ledger α) :
    Disciplined (.touch a::t) ↔ held a t=true ∧ Disciplined t := Iff.rfl

theorem Disciplined.tail {e : Entry α} {t : Ledger α} (h : Disciplined (e::t)) :
    Disciplined t := by
  cases e <;> exact h.2

theorem Disciplined.suffix {s t : Ledger α} (h : Disciplined (s++t)) : Disciplined t := by
  induction s with
  | nil => exact h
  | cons e s ih => exact ih h.tail

/-- Exactly one release per acquisition that is over, none for one that lasts. -/
theorem balance (a : α) (t : Ledger α) (h : Disciplined t) :
    acquired a t=released a t+(held a t).toNat := by
  induction t with
  | nil => simp [acquired,released]
  | cons e t ih =>
    have tail := ih h.tail
    unfold acquired released at tail ⊢
    cases e with
    | acquire b =>
      by_cases hb : b=a
      · have free : held a t=false := hb ▸ h.1
        simp only [free,Bool.toNat_false] at tail
        simp [hb,tail]
      · simp [hb,tail]
    | release b =>
      by_cases hb : b=a
      · have owned : held a t=true := hb ▸ h.1
        simp only [owned,Bool.toNat_true] at tail
        simp [hb,tail]
      · simp [hb,tail]
    | touch b => simpa using tail

theorem released_of_free (a : α) (t : Ledger α) (h : Disciplined t)
    (hf : held a t=false) : released a t=acquired a t := by
  simpa [hf] using (balance a t h).symm

/-- What is held, or acquired, and not released stays held. -/
theorem held_append {a : α} {s t : Ledger α} (hr : .release a∉s)
    (h : .acquire a∈s ∨ held a t=true) : held a (s++t)=true := by
  induction s with
  | nil => simpa using h
  | cons e s ih =>
    obtain ⟨he,hs⟩ := not_or.mp (mt List.mem_cons.mpr hr)
    rw [List.mem_cons,or_assoc] at h
    rcases h with rfl|h
    · simp
    · have rest := ih hs h
      rw [List.cons_append]
      cases e with
      | acquire b => simp [rest]
      | release b =>
        have hb : b≠a := fun e => he (by rw [e])
        simp [hb,rest]
      | touch b => simpa using rest

/-- A name that was released is not held again before it is acquired again. -/
theorem held_since {a : α} {s t : Ledger α} (h : held a (s++.release a::t)=true) :
    .acquire a∈s := by
  induction s with
  | nil => simp at h
  | cons e s ih =>
    rw [List.mem_cons]
    cases e with
    | acquire b =>
      by_cases hb : b=a
      · exact .inl (by rw [hb])
      · exact .inr (ih (by simpa [hb] using h))
    | release b => exact .inr (ih (Bool.and_eq_true_iff.mp h).2)
    | touch b => exact .inr (ih h)

/-- After its acquisition a name lasts to the end, or it is released before anybody
acquires it again. -/
theorem Disciplined.released_first {a : α} {newer older : Ledger α}
    (h : Disciplined (newer++.acquire a::older)) :
    held a (newer++.acquire a::older)=true ∧ .acquire a∉newer ∧ .release a∉newer ∨
      ∃ after before,newer=after++.release a::before ∧ .acquire a∉before ∧
        .release a∉before := by
  induction newer with
  | nil => exact .inl (by simp)
  | cons e newer ih =>
    rcases ih h.tail with ⟨held,hn,hr⟩|⟨after,before,rfl,hn,hr⟩
    · by_cases hd : e=.release a
      · exact .inr ⟨[],newer,by rw [hd]; rfl,hn,hr⟩
      · have ha : e≠.acquire a := by
          rintro rfl
          have free := h.1
          rw [List.append_eq,held] at free
          cases free
        refine .inl ⟨?_,by simp [ha.symm,hn],by simp [Ne.symm hd,hr]⟩
        rw [List.cons_append]
        cases e with
        | acquire b => simp [held]
        | release b =>
          have hb : b≠a := fun e => hd (by rw [e])
          simp [held,hb]
        | touch b => simpa using held
    · exact .inr ⟨e::after,before,rfl,hn,hr⟩

end Ledger

end Framework
