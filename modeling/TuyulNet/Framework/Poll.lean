import Mathlib.Data.Finset.Basic
import Mathlib.Data.Finset.SDiff
import Mathlib.Data.Finset.Filter
import Mathlib.Tactic.Basic

namespace Framework

inductive Trigger
  | level | edge
  deriving DecidableEq

/-- A readiness queue. Only registered sources are ever queued. -/
structure Poll (α : Type*) [DecidableEq α] where
  interest : α → Option Trigger
  ready : Finset α
  registered : ∀ a∈ready,interest a≠none

namespace Poll

variable {α : Type*} [DecidableEq α]

def empty : Poll α := ⟨fun _ => none,∅,by simp⟩

instance : Inhabited (Poll α) := ⟨empty⟩

/-- Something happened at the source: queue it, if anybody asked for it. -/
def notify (p : Poll α) (a : α) : Poll α where
  interest := p.interest
  ready := if p.interest a=none then p.ready else insert a p.ready
  registered := by
    intro b hb
    split at hb
    · exact p.registered b hb
    · rcases Finset.mem_insert.mp hb with rfl|hb
      · assumption
      · exact p.registered b hb

/-- Registration queues a source that is already readable. -/
def add (p : Poll α) (a : α) (t : Trigger) (readable : Bool) : Poll α where
  interest := Function.update p.interest a (some t)
  ready := if readable then insert a p.ready else p.ready
  registered := by
    intro b hb
    by_cases hba : b=a
    · simp [hba]
    · rw [Function.update_of_ne hba]
      refine p.registered b ?_
      split at hb
      · exact Finset.mem_of_mem_insert_of_ne hb hba
      · exact hb

def del (p : Poll α) (a : α) : Poll α where
  interest := Function.update p.interest a none
  ready := p.ready.erase a
  registered := by
    intro b hb
    rw [Function.update_of_ne (Finset.ne_of_mem_erase hb)]
    exact p.registered b (Finset.mem_of_mem_erase hb)

/-- A wait returns `es`: edge-triggered sources leave the queue, level-triggered
ones stay until they are seen not to be readable. -/
def harvest (p : Poll α) (es : List α) : Poll α where
  interest := p.interest
  ready := p.ready.filter fun a => ¬(a∈es ∧ p.interest a=some .edge)
  registered := fun a ha => p.registered a (Finset.mem_filter.mp ha).1

/-- A wait finds that the source is not readable and drops its entry. -/
def prune (p : Poll α) (a : α) : Poll α where
  interest := p.interest
  ready := p.ready.erase a
  registered := fun b hb => p.registered b (Finset.mem_of_mem_erase hb)

@[simp] theorem empty_interest (a : α) : (empty : Poll α).interest a=none := rfl
@[simp] theorem notify_interest (p : Poll α) (a b : α) :
    (p.notify a).interest b=p.interest b := rfl
@[simp] theorem harvest_interest (p : Poll α) (es : List α) (b : α) :
    (p.harvest es).interest b=p.interest b := rfl
@[simp] theorem prune_interest (p : Poll α) (a b : α) :
    (p.prune a).interest b=p.interest b := rfl
theorem add_interest (p : Poll α) (a b : α) (t : Trigger) (r : Bool) :
    (p.add a t r).interest b=if b=a then some t else p.interest b := by
  simp [add,Function.update_apply]
theorem del_interest (p : Poll α) (a b : α) :
    (p.del a).interest b=if b=a then none else p.interest b := by
  simp [del,Function.update_apply]

/-- Every registered readable source is queued or among the `pending` entries
that a wait has returned and nobody has dealt with yet. -/
def Covers (p : Poll α) (readable : α → Prop) (pending : List α) : Prop :=
  ∀ a,p.interest a≠none → readable a → a∈p.ready ∨ a∈pending

/-- Level-triggered sources do not even need the pending entries. -/
def LevelCovers (p : Poll α) (readable : α → Prop) : Prop :=
  ∀ a,p.interest a=some .level → readable a → a∈p.ready

variable {p : Poll α} {R Q : α → Prop} {l : List α}

/-- Notifying covers whatever became readable at the notified source. -/
theorem Covers.notify (h : p.Covers R l) (a : α) (hq : ∀ b,Q b → R b ∨ b=a) :
    (p.notify a).Covers Q l := by
  intro b hi hb
  rcases hq b hb with hr|rfl
  · rcases h b hi hr with hm|hm
    · left
      unfold Poll.notify
      split
      · exact hm
      · exact Finset.mem_insert_of_mem hm
    · exact .inr hm
  · left
    have asked : p.interest b≠none := hi
    simp [Poll.notify,asked]

theorem Covers.mono (h : p.Covers R l) (hq : ∀ b,p.interest b≠none → Q b → R b) :
    p.Covers Q l :=
  fun b hi hb => h b hi (hq b hi hb)

theorem Covers.add (h : p.Covers R l) (a : α) (t : Trigger) (readable : Bool)
    (hr : R a → readable=true) : (p.add a t readable).Covers R l := by
  intro b hi hb
  by_cases hba : b=a
  · subst b
    left
    simp [Poll.add,hr hb]
  · rw [add_interest,if_neg hba] at hi
    rcases h b hi hb with hm|hm
    · left
      unfold Poll.add
      split
      · exact Finset.mem_insert_of_mem hm
      · exact hm
    · exact .inr hm

theorem Covers.del (h : p.Covers R l) (a : α) : (p.del a).Covers R l := by
  intro b hi hb
  by_cases hba : b=a
  · simp [del_interest,hba] at hi
  · rw [del_interest,if_neg hba] at hi
    rcases h b hi hb with hm|hm
    · exact .inl (Finset.mem_erase.mpr ⟨hba,hm⟩)
    · exact .inr hm

/-- The returned entries become the pending ones. -/
theorem Covers.harvest (h : p.Covers R []) (es : List α) : (p.harvest es).Covers R es := by
  intro b hi hb
  rcases h b hi hb with hm|hm
  · by_cases he : b∈es
    · exact .inr he
    · exact .inl (Finset.mem_filter.mpr ⟨hm,fun hh => he hh.1⟩)
  · cases hm

theorem Covers.prune (h : p.Covers R l) (a : α) (ha : ¬R a) : (p.prune a).Covers R l := by
  intro b hi hb
  rcases h b hi hb with hm|hm
  · left
    refine Finset.mem_erase.mpr ⟨?_,hm⟩
    rintro rfl
    exact ha hb
  · exact .inr hm

/-- A pending entry is dealt with once its source is drained or deregistered. -/
theorem Covers.settle {a : α} (h : p.Covers R (a::l))
    (ha : p.interest a=none ∨ ¬R a) : p.Covers R l := by
  intro b hi hb
  rcases h b hi hb with hm|hm
  · exact .inl hm
  · rcases List.mem_cons.mp hm with rfl|hm
    · rcases ha with ha|ha
      · exact absurd ha hi
      · exact absurd hb ha
    · exact .inr hm

/-- Level-triggered sources may be settled without being drained. -/
theorem Covers.settle_level {a : α} (h : p.Covers R (a::l)) (hl : p.LevelCovers R)
    (ha : p.interest a=some .level) : p.Covers R l := by
  intro b hi hb
  rcases h b hi hb with hm|hm
  · exact .inl hm
  · rcases List.mem_cons.mp hm with rfl|hm
    · exact .inl (hl b ha hb)
    · exact .inr hm

theorem LevelCovers.notify (h : p.LevelCovers R) (a : α) (hq : ∀ b,Q b → R b ∨ b=a) :
    (p.notify a).LevelCovers Q := by
  intro b hi hb
  unfold Poll.notify
  rcases hq b hb with hr|rfl
  · have hm := h b hi hr
    split
    · exact hm
    · exact Finset.mem_insert_of_mem hm
  · have asked : p.interest b=some .level := hi
    simp [asked]

theorem LevelCovers.mono (h : p.LevelCovers R) (hq : ∀ b,p.interest b=some .level → Q b → R b) :
    p.LevelCovers Q :=
  fun b hi hb => h b hi (hq b hi hb)

theorem LevelCovers.add (h : p.LevelCovers R) (a : α) (t : Trigger) (readable : Bool)
    (hr : R a → readable=true) : (p.add a t readable).LevelCovers R := by
  intro b hi hb
  by_cases hba : b=a
  · subst b
    simp [Poll.add,hr hb]
  · rw [add_interest,if_neg hba] at hi
    unfold Poll.add
    split
    · exact Finset.mem_insert_of_mem (h b hi hb)
    · exact h b hi hb

theorem LevelCovers.del (h : p.LevelCovers R) (a : α) : (p.del a).LevelCovers R := by
  intro b hi hb
  by_cases hba : b=a
  · simp [del_interest,hba] at hi
  · rw [del_interest,if_neg hba] at hi
    exact Finset.mem_erase.mpr ⟨hba,h b hi hb⟩

theorem LevelCovers.harvest (h : p.LevelCovers R) (es : List α) :
    (p.harvest es).LevelCovers R := by
  intro b hi hb
  refine Finset.mem_filter.mpr ⟨h b hi hb,?_⟩
  rintro ⟨-,he⟩
  have hl : p.interest b=some .level := hi
  simp [hl] at he

theorem LevelCovers.prune (h : p.LevelCovers R) (a : α) (ha : ¬R a) :
    (p.prune a).LevelCovers R := by
  intro b hi hb
  refine Finset.mem_erase.mpr ⟨?_,h b hi hb⟩
  rintro rfl
  exact ha hb

end Poll

end Framework
