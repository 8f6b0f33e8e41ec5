import TuyulNet.Kernel.Sound

namespace TuyulNet

open Framework

namespace Kernel

/-- The table as it looks when the descriptors of `F` count as the rest of the process. -/
def veil (F : Fd → Bool) (k : Kernel) (fd : Fd) : Option File :=
  if F fd then some .foreign else k.table fd

/-- The interest sets without the descriptors of `F`. -/
def veilWatch (F : Fd → Bool) (k : Kernel) (p fd : Fd) : Option Trigger :=
  if F fd then none else k.watch p fd

section veil

variable {F : Fd → Bool} {k l : Kernel}

@[simp] theorem veil_none : k.veil (fun _ => false)=k.table := rfl
@[simp] theorem veilWatch_none : k.veilWatch (fun _ => false)=k.watch := rfl

theorem veil_own {fd : Fd} (h : F fd=false) : k.veil F fd=k.table fd := by simp [veil,h]

theorem veil_file {fd : Fd} {f : File} (hf : k.veil F fd=some f) (hn : f≠.foreign) :
    F fd=false ∧ k.table fd=some f := by
  cases hF : F fd with
  | false => exact ⟨rfl,veil_own hF ▸ hf⟩
  | true =>
    simp only [veil,hF,if_true,Option.some.injEq] at hf
    exact absurd hf.symm hn

theorem veil_same (hT : ∀ x,l.table x=k.table x) (x : Fd) : l.veil F x=k.veil F x := by
  unfold veil
  rw [hT]

theorem veilWatch_same (hW : ∀ p x,l.watch p x=k.watch p x) (p x : Fd) :
    l.veilWatch F p x=k.veilWatch F p x := by
  unfold veilWatch
  rw [hW]

/-- What happens to a descriptor outside `F` can be seen. -/
theorem veil_put {n : Fd} {v : Option File} (hn : F n=false)
    (hT : ∀ x,l.table x=if x=n then v else k.table x) (x : Fd) :
    l.veil F x=if x=n then v else k.veil F x := by
  unfold veil
  by_cases hx : x=n
  · simp [hx,hn,hT]
  · simp [hx,hT]

theorem veilWatch_put {C : Fd → Fd → Prop} [∀ p x,Decidable (C p x)] {t : Option Trigger}
    (ht : t=none ∨ ∀ p x,C p x → F x=false)
    (hW : ∀ p x,l.watch p x=if C p x then t else k.watch p x) (p x : Fd) :
    l.veilWatch F p x=if C p x then t else k.veilWatch F p x := by
  unfold veilWatch
  by_cases hF : F x=true
  · rcases ht with rfl|ht
    · simp [hF]
    · have out : ¬C p x := by
        intro hc
        rw [ht p x hc] at hF
        cases hF
      simp [hF,out]
  · simp [hF,hW]

theorem veil_quiet {c : Call} {r : Reply} (hc : c.quiet=true) (h : k.answer c r=some l) :
    (∀ x,l.veil F x=k.veil F x) ∧ ∀ p x,l.veilWatch F p x=k.veilWatch F p x := by
  obtain ⟨hT,hW⟩ := answer_quiet hc h
  exact ⟨veil_same hT,veilWatch_same hW⟩

theorem veil_close {fd : Fd} {r : Reply} (hw : k.Wf) (hF : F fd=false)
    (h : k.answer (.close fd) r=some l) :
    (∀ x,l.veil F x=if x=fd then none else k.veil F x) ∧
      ∀ p x,l.veilWatch F p x=if x=fd then none else k.veilWatch F p x := by
  obtain ⟨hT,hW⟩ := answer_close hw h
  exact ⟨veil_put hF hT,veilWatch_put (.inl rfl) hW⟩

/-- A call leaves open descriptors that it does not name alone, but for the epoll set
that it empties. -/
theorem answer_elsewhere {c : Call} {r : Reply} (hw : k.Wf) (h : k.answer c r=some l) {x : Fd}
    (hx : x∉c.names) (open' : k.table x≠none) :
    l.table x=k.table x ∧ ∀ p,l.watch p x=k.watch p x ∨ l.watch p x=none := by
  have away {n : Fd} (fresh : k.fresh n=true) : x≠n := by
    rintro rfl
    exact open' ((k.fresh_iff x).mp fresh).2
  cases answer_answers h with
  | same | read | write => exact ⟨rfl,fun _ => .inl rfl⟩
  | socket fresh => exact ⟨by simp [away fresh],fun _ => .inl rfl⟩
  | accept fresh => exact ⟨by simp [away fresh],fun _ => .inl rfl⟩
  | setFlags | listen =>
    have away : x≠_ := fun e => hx (List.mem_singleton.mpr e)
    exact ⟨by simp [away],fun _ => .inl rfl⟩
  | connect =>
    have away : x≠_ := fun e => hx (List.mem_singleton.mpr e)
    exact ⟨by simp [away],fun _ => .inl rfl⟩
  | @epollCreate n fresh =>
    refine ⟨by simp [away fresh],fun p => ?_⟩
    have row := update_poll_watch (k := k) n p x .empty
    by_cases hp : p=n
    · exact .inr (row.trans (if_pos hp))
    · exact .inl (row.trans (if_neg hp))
  | @epollAdd ep fd t =>
    refine ⟨rfl,fun p => .inl ?_⟩
    have out : ¬(p=ep ∧ x=fd) := fun e => hx (by simp [Call.names,e.2])
    rw [register_watch,if_neg out]
  | @epollDel ep fd =>
    refine ⟨rfl,fun p => .inl ?_⟩
    have out : ¬(p=ep ∧ x=fd) := fun e => hx (by simp [Call.names,e.2])
    rw [deregister_watch,if_neg out]
  | @harvest ep _ es =>
    refine ⟨rfl,fun p => .inl ?_⟩
    rw [update_poll_watch]
    split
    · rename_i hp
      rw [hp]
      rfl
    · rfl
  | @close fd =>
    have away : x≠fd := fun e => hx (List.mem_singleton.mpr e)
    rw [close_table,if_neg away]
    exact ⟨rfl,fun p => .inl (by rw [close_watch hw,if_neg away])⟩

end veil

end Kernel

end TuyulNet
