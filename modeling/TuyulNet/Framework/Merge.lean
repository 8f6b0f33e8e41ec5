import Mathlib.Data.List.Basic
import Mathlib.Logic.Function.Basic
import Mathlib.Tactic.Basic

namespace Framework

variable {ι α : Type*} [DecidableEq ι]

/-- `whole` is an interleaving of the lists `parts i`, each in its own order. -/
def Merges (parts : ι → List α) (whole : List α) : Prop :=
  ∃ tagged : List (ι × α),tagged.map Prod.snd=whole ∧
    ∀ i,(tagged.filter (·.1=i)).map Prod.snd=parts i

theorem merges_nil : Merges (fun _ : ι => ([] : List α)) [] := ⟨[],rfl,fun _ => rfl⟩

/-- One part goes on, at the end of the whole. -/
theorem Merges.append {parts : ι → List α} {whole : List α} (h : Merges parts whole) (i : ι)
    (xs : List α) : Merges (Function.update parts i (parts i++xs)) (whole++xs) := by
  obtain ⟨tagged,hw,hp⟩ := h
  have own : (xs.map (Prod.mk i)).filter (·.1=i)=xs.map (Prod.mk i) :=
    List.filter_eq_self.mpr (by simp)
  refine ⟨tagged++xs.map (Prod.mk i),by simp [hw,Function.comp_def],fun j => ?_⟩
  rw [List.filter_append,List.map_append,hp]
  by_cases hj : j=i
  · subst j
    rw [own]
    simp [Function.comp_def]
  · have others : (xs.map (Prod.mk i)).filter (·.1=j)=[] :=
      List.filter_eq_nil_iff.mpr (by simp [Ne.symm hj])
    simp [others,hj]

theorem Merges.congr {parts parts' : ι → List α} {whole : List α} (h : Merges parts whole)
    (hp : ∀ i,parts' i=parts i) : Merges parts' whole := by
  obtain rfl : parts'=parts := funext hp
  exact h

end Framework
