import Mathlib.Data.Nat.Basic
import Mathlib.Data.Nat.Init
import TuyulNet.Framework.Machine

namespace Framework

/-- Wherever `P` holds, `Q` holds sooner or later. -/
def LeadsTo {S : Type*} (σ : Nat → S) (P Q : S → Prop) : Prop := ∀ n,P (σ n) → ∃ p≥n,Q (σ p)

section sequences

variable {S : Type*} {σ : Nat → S} {P Q R : S → Prop}

theorem LeadsTo.of_imp (h : ∀ n,P (σ n) → Q (σ n)) : LeadsTo σ P Q :=
  fun n hp => ⟨n,le_rfl,h n hp⟩

theorem LeadsTo.trans (h : LeadsTo σ P Q) (h' : LeadsTo σ Q R) : LeadsTo σ P R := by
  intro n hp
  obtain ⟨p,hn,hq⟩ := h n hp
  obtain ⟨q,hp',hr⟩ := h' p hq
  exact ⟨q,hn.trans hp',hr⟩

theorem LeadsTo.either (h : LeadsTo σ P R) (h' : LeadsTo σ Q R) :
    LeadsTo σ (fun s => P s ∨ Q s) R :=
  fun n hpq => hpq.elim (h n) (h' n)

/-- A predicate lasts for ever, or there is a step that ends it. -/
theorem lasts_or_ends {P : Nat → Prop} {n : Nat} (h : P n) :
    (∀ p≥n,P p) ∨ ∃ p≥n,P p ∧ ¬P (p+1) := by
  by_cases ends : ∃ p≥n,P p ∧ ¬P (p+1)
  · exact .inr ends
  · left
    intro p hp
    induction p,hp using Nat.le_induction with
    | base => exact h
    | succ p hp ih => exact by_contra fun hn => ends ⟨p,hp,ih,hn⟩

/-- What comes after something that does not last comes after a first step. -/
theorem ends_before {P : Nat → Prop} {n p : Nat} (hp : n≤p) (h : P n) (hn : ¬P p) :
    ∃ q≥n,q<p ∧ P q ∧ ¬P (q+1) := by
  induction p,hp using Nat.le_induction with
  | base => exact absurd h hn
  | succ p hp ih =>
    by_cases here : P p
    · exact ⟨p,hp,Nat.lt_succ_self p,here,hn⟩
    · obtain ⟨q,hq,before,hP,ended⟩ := ih here
      exact ⟨q,hq,before.trans (Nat.lt_succ_self p),hP,ended⟩

end sequences

namespace Machine

variable {S A : Type*} {m : Machine S A} {σ : Nat → S} {α : Nat → A}

/-- An infinite run, seen from its step `n` on. -/
theorem Runs.drop (h : m.Runs σ α) (n : Nat) :
    m.Runs (fun p => σ (n+p)) fun p => α (n+p) :=
  fun p => h (n+p)

/-- What every step keeps holds from where it holds on. -/
theorem Runs.keeps (h : m.Runs σ α) {I : S → Prop}
    (hstep : ∀ n t,I (σ n) → m.step (σ n) (α n)=some t → I t) {n : Nat} (hi : I (σ n)) :
    ∀ p≥n,I (σ p) := by
  intro p hp
  induction p,hp using Nat.le_induction with
  | base => exact hi
  | succ p hp ih => exact hstep p _ ih (h p)

/-- A finite run that ends where some action changes nothing goes on for ever. -/
theorem idles {s t : S} {as : List A} {a : A} (hr : m.run s as=some t) (ha : m.step t a=some t) :
    ∃ σ α,m.Runs σ α ∧ (∀ n,m.run s (as.take n)=some (σ n)) ∧ (∀ n,α n=as.getD n a) ∧
      ∀ C : S → A → Prop,m.Meets C s as → C t a → ∀ n,C (σ n) (α n) := by
  induction as generalizing s with
  | nil =>
    cases hr
    exact ⟨fun _ => t,fun _ => a,fun _ => ha,by simp,by simp,fun C _ hc _ => hc⟩
  | cons b as ih =>
    obtain ⟨u,hs,hr⟩ := (m.run_cons s t b as).mp hr
    obtain ⟨σ,α,runs,states,actions,meets⟩ := ih hr
    have start : σ 0=u := by simpa using (states 0).symm
    refine ⟨fun n => n.casesOn s σ,fun n => n.casesOn b α,?_,?_,?_,?_⟩
    · intro n
      cases n with
      | zero => exact hs.trans (congrArg some start.symm)
      | succ n => exact runs n
    · intro n
      cases n with
      | zero => rfl
      | succ n => exact (m.run_cons ..).mpr ⟨u,hs,states n⟩
    · intro n
      cases n with
      | zero => rfl
      | succ n => exact actions n
    · intro C hm hc n
      cases n with
      | zero => exact hm.1
      | succ n => exact meets C (hm.2 u hs) hc n

/-- Steps that `own` marks come again and again while the run stays in a region, and each of them
brings it nearer to `Q`, which no other step of the region takes it away from. -/
theorem Runs.variant (h : m.Runs σ α) {P Q : S → Prop} (rank : S → Nat) (own : S → A → Prop)
    (fair : ∀ n,(∀ p≥n,P (σ p)) → ∃ p≥n,own (σ p) (α p))
    (hstep : ∀ n t,P (σ n) → m.step (σ n) (α n)=some t →
      Q t ∨ P t ∧ rank t≤rank (σ n) ∧ (own (σ n) (α n) → rank t<rank (σ n))) :
    LeadsTo σ P Q := by
  intro n hp
  by_contra never
  have outside (p : Nat) (hn : n≤p) : ¬Q (σ p) := fun hq => never ⟨p,hn,hq⟩
  have next (p : Nat) (hn : n≤p) (hp : P (σ p)) : P (σ (p+1)) ∧ rank (σ (p+1))≤rank (σ p) ∧
      (own (σ p) (α p) → rank (σ (p+1))<rank (σ p)) :=
    (hstep p _ hp (h p)).resolve_left (outside (p+1) (hn.trans (Nat.le_succ p)))
  have stays (p : Nat) (hn : n≤p) : P (σ p) := by
    induction p,hn using Nat.le_induction with
    | base => exact hp
    | succ p hn ih => exact (next p hn ih).1
  have falls (p q : Nat) (hn : n≤p) (hpq : p≤q) : rank (σ q)≤rank (σ p) := by
    induction q,hpq using Nat.le_induction with
    | base => exact le_rfl
    | succ q hpq ih => exact (next q (hn.trans hpq) (stays q (hn.trans hpq))).2.1.trans ih
  -- each marked step takes one from the rank
  have sinks (k : Nat) : ∃ p≥n,rank (σ p)+k≤rank (σ n) := by
    induction k with
    | zero => exact ⟨n,le_rfl,le_rfl⟩
    | succ k ih =>
      obtain ⟨p,hn,hk⟩ := ih
      obtain ⟨q,hq,marked⟩ := fair p fun q hq => stays q (hn.trans hq)
      have less := (next q (hn.trans hq) (stays q (hn.trans hq))).2.2 marked
      have low := falls p q hn hq
      exact ⟨q+1,(hn.trans hq).trans (Nat.le_succ q),by omega⟩
  obtain ⟨p,-,hk⟩ := sinks (rank (σ n)+1)
  omega

end Machine

end Framework
