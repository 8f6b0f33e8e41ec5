import Mathlib.Data.Option.Basic
import Mathlib.Algebra.BigOperators.Group.List.Basic
import Mathlib.Algebra.GroupWithZero.Nat
import Mathlib.Tactic.Basic

namespace Framework

/-- A guarded deterministic machine. All nondeterminism sits in the action;
`none` says that the action cannot happen in the given state. -/
structure Machine (S A : Type*) where
  step : S → A → Option S

namespace Machine

variable {S A : Type*} (m : Machine S A)

def run : S → List A → Option S
  | s,[] => some s
  | s,a::as => (m.step s a).bind fun t => run t as

/-- Every action of the list that is reached satisfies `C` in the state
just before it. -/
def Meets (C : S → A → Prop) : S → List A → Prop
  | _,[] => True
  | s,a::as => C s a ∧ ∀ t∈m.step s a,Meets C t as

instance Meets.decidable (C : S → A → Prop) [∀ s a,Decidable (C s a)] :
    ∀ s as,Decidable (m.Meets C s as)
  | _,[] => isTrue trivial
  | s,a::as =>
    match h : m.step s a with
    | none => decidable_of_iff (C s a) (by simp [Meets,h])
    | some t =>
      have := Meets.decidable C t as
      decidable_of_iff (C s a ∧ m.Meets C t as) (by simp [Meets,h])

@[simp] theorem run_nil (s : S) : m.run s []=some s := rfl

theorem run_cons (s t : S) (a : A) (as : List A) :
    m.run s (a::as)=some t ↔ ∃ u,m.step s a=some u ∧ m.run u as=some t := by
  simp [run,Option.bind_eq_some_iff]

theorem run_append (s t : S) (as bs : List A) :
    m.run s (as++bs)=some t ↔ ∃ u,m.run s as=some u ∧ m.run u bs=some t := by
  induction as generalizing s with
  | nil => simp
  | cons a as ih =>
    rw [List.cons_append,run_cons]
    constructor
    · rintro ⟨u,hu,h⟩
      obtain ⟨v,hv,ht⟩ := (ih u).mp h
      exact ⟨v,(m.run_cons s v a as).mpr ⟨u,hu,hv⟩,ht⟩
    · rintro ⟨v,h,ht⟩
      obtain ⟨u,hu,hv⟩ := (m.run_cons s v a as).mp h
      exact ⟨u,hu,(ih u).mpr ⟨v,hv,ht⟩⟩

theorem run_single (s t : S) (a : A) : m.run s [a]=some t ↔ m.step s a=some t := by
  simp [run_cons]

/-- A predicate that every step meeting `C` preserves holds at the end of
every run whose steps meet `C`. -/
theorem invariant {I : S → Prop} {C : S → A → Prop}
    (hstep : ∀ s a t,I s → C s a → m.step s a=some t → I t) (as : List A) :
    ∀ s t,I s → m.Meets C s as → m.run s as=some t → I t := by
  induction as with
  | nil =>
    intro s t hi _ hr
    cases hr
    exact hi
  | cons a as ih =>
    intro s t hi hc hr
    obtain ⟨u,hu,hr⟩ := (m.run_cons s t a as).mp hr
    exact ih u t (hstep s a u hi hc.1 hu) (hc.2 u hu) hr

/-- The unconditional case of `invariant`. -/
theorem always {I : S → Prop} (hstep : ∀ s a t,I s → m.step s a=some t → I t)
    (as : List A) (s t : S) (hi : I s) (hr : m.run s as=some t) : I t := by
  induction as generalizing s with
  | nil =>
    cases hr
    exact hi
  | cons a as ih =>
    obtain ⟨u,hu,hr⟩ := (m.run_cons s t a as).mp hr
    exact ih u (hstep s a u hi hu) hr

/-- A machine that dies of the actions that violate `C`, and of no others, is alive at the end of
a run exactly if the run has no such action. -/
theorem alive_iff {I Dead : S → Prop} {C D : S → A → Prop}
    (hstep : ∀ s a t,I s → D s a → m.step s a=some t → I t ∧ (Dead t ↔ ¬C s a))
    (hdead : ∀ s a,Dead s → m.step s a=none) (as : List A) :
    ∀ s t,I s → ¬Dead s → m.Meets D s as → m.run s as=some t → (¬Dead t ↔ m.Meets C s as) := by
  induction as with
  | nil =>
    intro s t _ alive _ hr
    cases hr
    exact iff_of_true alive trivial
  | cons a as ih =>
    intro s t hi alive hd hr
    obtain ⟨u,hu,hr⟩ := (m.run_cons s t a as).mp hr
    obtain ⟨hi',died⟩ := hstep s a u hi hd.1 hu
    by_cases hc : C s a
    · rw [ih u t hi' (fun dead => died.mp dead hc) (hd.2 u hu) hr]
      refine ⟨fun rest => ⟨hc,fun v hv => ?_⟩,fun meets => meets.2 u hu⟩
      rw [hu] at hv
      cases hv
      exact rest
    · -- nothing comes after the death
      have dead := died.mpr hc
      cases as with
      | nil =>
        cases hr
        exact iff_of_false (fun alive => alive dead) fun meets => hc meets.1
      | cons b bs =>
        obtain ⟨v,hv,-⟩ := (m.run_cons u t b bs).mp hr
        rw [hdead u b dead] at hv
        cases hv

section history

variable {E : Type*}

/-- What is noted at each step of a run, newest first. -/
def history (note : S → A → List E) : S → List A → List E
  | _,[] => []
  | s,a::as => ((m.step s a).elim [] fun t => history note t as)++note s a

/-- An invariant of the state and of what was noted so far, beginning with `n`. -/
theorem history_invariant {I : S → List E → Prop} {C : S → A → Prop} (note : S → A → List E)
    (hstep : ∀ s n a t,I s n → C s a → m.step s a=some t → I t (note s a++n)) (as : List A) :
    ∀ s n t,I s n → m.Meets C s as → m.run s as=some t → I t (m.history note s as++n) := by
  induction as with
  | nil =>
    intro s n t hi _ hr
    cases hr
    exact hi
  | cons a as ih =>
    intro s n t hi hc hr
    obtain ⟨u,hu,hr⟩ := (m.run_cons s t a as).mp hr
    have next := hstep s n a u hi hc.1 hu
    have rest := ih u _ t next (hc.2 u hu) hr
    rw [history,hu,Option.elim_some,List.append_assoc]
    exact rest

end history

/-- Some action of the list that is reached satisfies `C`, and none before it
satisfies `D`. -/
def Precedes (C D : S → A → Prop) : S → List A → Prop
  | _,[] => False
  | s,a::as => C s a ∨ ¬D s a ∧ ∃ t∈m.step s a,Precedes C D t as

instance Precedes.decidable (C D : S → A → Prop) [∀ s a,Decidable (C s a)]
    [∀ s a,Decidable (D s a)] : ∀ s as,Decidable (m.Precedes C D s as)
  | _,[] => isFalse id
  | s,a::as =>
    match h : m.step s a with
    | none => decidable_of_iff (C s a) (by simp [Precedes,h])
    | some t =>
      have := Precedes.decidable C D t as
      decidable_of_iff (C s a ∨ ¬D s a ∧ m.Precedes C D t as) (by simp [Precedes,h])

def Occurs (C : S → A → Prop) : S → List A → Prop := m.Precedes C fun _ _ => False

theorem occurs_cons (C : S → A → Prop) (s : S) (a : A) (as : List A) :
    m.Occurs C s (a::as) ↔ C s a ∨ ∃ t∈m.step s a,m.Occurs C t as := by
  simp [Occurs,Precedes]

/-- A region that only `C` and `D` lead out of is left after the one or the other. -/
theorem left_by {I : S → Prop} {C D : S → A → Prop}
    (hstep : ∀ s a t,I s → ¬C s a → ¬D s a → m.step s a=some t → I t) (as : List A) :
    ∀ s t,I s → m.run s as=some t → ¬I t → m.Precedes C D s as ∨ m.Occurs D s as := by
  induction as with
  | nil =>
    intro s t hi hr hn
    cases hr
    exact absurd hi hn
  | cons a as ih =>
    intro s t hi hr hn
    obtain ⟨u,hu,hr⟩ := (m.run_cons s t a as).mp hr
    rw [occurs_cons]
    by_cases hd : D s a
    · exact .inr (.inl hd)
    · by_cases hc : C s a
      · exact .inl (.inl hc)
      · rcases ih u t (hstep s a u hi hc hd hu) hr hn with h|h
        · exact .inl (.inr ⟨hd,u,hu,h⟩)
        · exact .inr (.inr ⟨u,hu,h⟩)

theorem Meets.of_actions {C : A → Prop} (as : List A) (h : ∀ a∈as,C a) (s : S) :
    m.Meets (fun _ a => C a) s as := by
  induction as generalizing s with
  | nil => trivial
  | cons a as ih =>
    exact ⟨h a (by simp),fun t _ => ih (fun b hb => h b (by simp [hb])) t⟩

theorem Meets.mono {C D : S → A → Prop} (h : ∀ s a,C s a → D s a) (as : List A) :
    ∀ s,m.Meets C s as → m.Meets D s as := by
  induction as with
  | nil => exact fun _ _ => trivial
  | cons a as ih => exact fun s hc => ⟨h s a hc.1,fun t ht => ih t (hc.2 t ht)⟩

/-- Actions that keep a predicate meet it all along. -/
theorem Meets.stays {I : S → Prop} {C : A → Prop}
    (hstep : ∀ s a t,I s → C a → m.step s a=some t → I t) (as : List A) (hc : ∀ a∈as,C a) :
    ∀ s,I s → m.Meets (fun s _ => I s) s as := by
  induction as with
  | nil => exact fun _ _ => trivial
  | cons a as ih =>
    intro s hi
    refine ⟨hi,fun t ht => ?_⟩
    exact ih (fun b hb => hc b (by simp [hb])) t (hstep s a t hi (hc a (by simp)) ht)

/-- What one machine does in states related by `R` the other can do as well. -/
theorem simulates {S' : Type*} (m' : Machine S' A) {R : S → S' → Prop} {C : A → Prop}
    (hstep : ∀ s s' a t,R s s' → C a → m.step s a=some t → ∃ t',m'.step s' a=some t' ∧ R t t')
    (as : List A) (hc : ∀ a∈as,C a) :
    ∀ s s' t,R s s' → m.run s as=some t → ∃ t',m'.run s' as=some t' ∧ R t t' := by
  induction as with
  | nil =>
    intro s s' t h hr
    cases hr
    exact ⟨s',rfl,h⟩
  | cons a as ih =>
    intro s s' t h hr
    obtain ⟨u,hu,hr⟩ := (m.run_cons s t a as).mp hr
    obtain ⟨u',hu',h⟩ := hstep s s' a u h (hc a (by simp)) hu
    obtain ⟨t',ht',h⟩ := ih (fun b hb => hc b (by simp [hb])) u u' t h hr
    exact ⟨t',(m'.run_cons s' t' a as).mpr ⟨u',hu',ht'⟩,h⟩

/-- A view of the state that `own` actions change as `m'` does, and no others. -/
theorem projects {S' : Type*} (m' : Machine S' A) (view : S → S') (own : A → Bool)
    {I : S → Prop} {C : S → A → Prop} (hinv : ∀ s a t,I s → C s a → m.step s a=some t → I t)
    (hown : ∀ s a t,I s → C s a → m.step s a=some t → own a=true →
      m'.step (view s) a=some (view t))
    (hother : ∀ s a t,m.step s a=some t → own a=false → view t=view s) (as : List A) :
    ∀ s t,I s → m.Meets C s as → m.run s as=some t →
      m'.run (view s) (as.filter own)=some (view t) := by
  induction as with
  | nil =>
    intro s t _ _ hr
    cases hr
    rfl
  | cons a as ih =>
    intro s t hi hc hr
    obtain ⟨u,hu,hr⟩ := (m.run_cons s t a as).mp hr
    have rest := ih u t (hinv s a u hi hc.1 hu) (hc.2 u hu) hr
    cases ho : own a with
    | true =>
      rw [List.filter_cons_of_pos ho]
      exact (m'.run_cons _ _ a _).mpr ⟨view u,hown s a u hi hc.1 hu ho,rest⟩
    | false =>
      rw [List.filter_cons_of_neg (by simp [ho]),← hother s a u hu ho]
      exact rest

section labels

variable {B : Type*}

/-- What the steps of a run show to the outside, oldest first. -/
def shows (image : S → A → List B) : S → List A → List B
  | _,[] => []
  | s,a::as => image s a++(m.step s a).elim [] fun t => shows image t as

/-- Forward simulation: `m'` does in the steps that `m` shows what `m` does. -/
theorem refines {S' : Type*} (m' : Machine S' B) (image : S → A → List B) {R : S → S' → Prop}
    {C : S → A → Prop}
    (hstep : ∀ s x a t,R s x → C s a → m.step s a=some t →
      ∃ y,m'.run x (image s a)=some y ∧ R t y) (as : List A) :
    ∀ s x t,R s x → m.Meets C s as → m.run s as=some t →
      ∃ y,m'.run x (m.shows image s as)=some y ∧ R t y := by
  induction as with
  | nil =>
    intro s x t h _ hr
    cases hr
    exact ⟨x,rfl,h⟩
  | cons a as ih =>
    intro s x t h hc hr
    obtain ⟨u,hu,hr⟩ := (m.run_cons s t a as).mp hr
    obtain ⟨y,hy,h⟩ := hstep s x a u h hc.1 hu
    obtain ⟨z,hz,h⟩ := ih u y t h (hc.2 u hu) hr
    refine ⟨z,?_,h⟩
    rw [shows,hu,Option.elim_some]
    exact (m'.run_append x z _ _).mpr ⟨y,hy,hz⟩

end labels

/-- A round that adds one to a count and can be made again can be made any number of times. -/
theorem rounds {I : S → Prop} {C : A → Prop} (count : S → Nat)
    (round : ∀ s,I s → ∃ as t,m.run s as=some t ∧ (∀ a∈as,C a) ∧ I t ∧ count t=count s+1)
    (n : Nat) (s : S) (hi : I s) :
    ∃ as t,m.run s as=some t ∧ (∀ a∈as,C a) ∧ I t ∧ count t=count s+n := by
  induction n with
  | zero => exact ⟨[],s,rfl,by simp,hi,rfl⟩
  | succ n ih =>
    obtain ⟨as,t,ht,fits,hi,counted⟩ := ih
    obtain ⟨bs,u,hu,fits',hi,counted'⟩ := round t hi
    refine ⟨as++bs,u,(m.run_append s u as bs).mpr ⟨t,ht,hu⟩,?_,hi,?_⟩
    · intro a ha
      rcases List.mem_append.mp ha with ha|ha
      · exact fits a ha
      · exact fits' a ha
    · rw [counted',counted,Nat.add_assoc]

/-- Potential argument: when every step in the region pays its cost out of
the potential plus what the action brings in, the total cost of a run that
stays in the region is bounded by the initial potential and the income. -/
theorem bounded_cost {C : S → A → Prop} {I : S → Prop} (potential : S → Nat)
    (cost income : A → Nat) (hinv : ∀ s a t,I s → C s a → m.step s a=some t → I t)
    (hpay : ∀ s a t,I s → C s a → m.step s a=some t →
      potential t+cost a≤potential s+income a) (as : List A) :
    ∀ s t,I s → m.Meets C s as → m.run s as=some t →
      potential t+(as.map cost).sum≤potential s+(as.map income).sum := by
  induction as with
  | nil =>
    intro s t _ _ hr
    cases hr
    simp
  | cons a as ih =>
    intro s t hi hc hr
    obtain ⟨u,hu,hr⟩ := (m.run_cons s t a as).mp hr
    have head := hpay s a u hi hc.1 hu
    have tail := ih u t (hinv s a u hi hc.1 hu) (hc.2 u hu) hr
    simp only [List.map_cons,List.sum_cons]
    omega

section infinite

/-- An infinite run: the states and the actions between them. -/
def Runs (σ : Nat → S) (α : Nat → A) : Prop := ∀ n,m.step (σ n) (α n)=some (σ (n+1))

theorem Runs.take {σ : Nat → S} {α : Nat → A} (h : m.Runs σ α) (n : Nat) :
    m.run (σ 0) ((List.range n).map α)=some (σ n) := by
  induction n with
  | zero => rfl
  | succ n ih =>
    rw [List.range_succ,List.map_append,run_append]
    exact ⟨σ n,ih,(m.run_single _ _ _).mpr (h n)⟩

theorem Runs.meets {σ : Nat → S} {α : Nat → A} (h : m.Runs σ α) {C : S → A → Prop}
    (hc : ∀ n,C (σ n) (α n)) (n : Nat) : m.Meets C (σ 0) ((List.range n).map α) := by
  have from' : ∀ n k,m.Meets C (σ k) ((List.range' k n).map α) := by
    intro n
    induction n with
    | zero => exact fun _ => trivial
    | succ n ih =>
      intro k
      refine ⟨hc k,?_⟩
      intro t ht
      rw [h k] at ht
      cases ht
      exact ih (k+1)
  rw [List.range_eq_range']
  exact from' n 0

theorem cost_unbounded {α : Nat → A} {cost : A → Nat} (hf : ∀ n,∃ m≥n,0 < cost (α m)) (N : Nat) :
    ∃ n,N≤(((List.range n).map α).map cost).sum := by
  induction N with
  | zero => exact ⟨0,Nat.zero_le _⟩
  | succ N ih =>
    obtain ⟨n,hn⟩ := ih
    obtain ⟨p,hp,hc⟩ := hf n
    have grows : (((List.range n).map α).map cost).sum≤(((List.range p).map α).map cost).sum := by
      obtain ⟨d,rfl⟩ := Nat.exists_eq_add_of_le hp
      rw [List.range_add,List.map_append,List.map_append,List.sum_append]
      exact Nat.le_add_right _ _
    refine ⟨p+1,?_⟩
    rw [List.range_succ,List.map_append,List.map_append,List.sum_append]
    simp only [List.map_cons,List.map_nil,List.sum_cons,List.sum_nil]
    omega

/-- A region that costs are paid in, out of a bounded income, is left in the end. -/
theorem leaves {C : S → A → Prop} {I : S → Prop} (potential : S → Nat) (cost income : A → Nat)
    (hinv : ∀ s a t,I s → C s a → m.step s a=some t → I t)
    (hpay : ∀ s a t,I s → C s a → m.step s a=some t →
      potential t+cost a≤potential s+income a) {σ : Nat → S} {α : Nat → A} (h : m.Runs σ α)
    (hi : I (σ 0)) (hf : ∀ n,∃ p≥n,0 < cost (α p)) (bound : Nat)
    (hb : ∀ n,(((List.range n).map α).map income).sum≤bound) : ∃ n,¬C (σ n) (α n) := by
  by_contra hc
  have stays : ∀ n,C (σ n) (α n) := fun n => by_contra fun hn => hc ⟨n,hn⟩
  obtain ⟨n,hn⟩ := cost_unbounded hf (potential (σ 0)+bound+1)
  have paid := m.bounded_cost potential cost income hinv hpay ((List.range n).map α) (σ 0) (σ n)
    hi (h.meets m stays n) (h.take m n)
  have received := hb n
  omega

end infinite

end Machine

end Framework
