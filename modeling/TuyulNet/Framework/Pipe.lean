import Mathlib.Data.List.Basic
import Mathlib.Tactic.Basic

namespace Framework

/-- What the receiving end has learned about the end of a stream. -/
inductive Ending
  | flowing | finished | broken
  deriving DecidableEq

/-- A one-way reliable stream between a sender and a reader. Every element is
under way, unread or taken; a broken stream may have lost a tail. -/
@[ext] structure Pipe (α : Type*) where
  sent : List α
  flight : List α
  unread : List α
  taken : List α
  closed : Bool
  ending : Ending
  conserved : ending≠.broken → taken++unread++flight=sent
  torn : ending=.broken → taken++unread<+:sent
  orderly : ending=.finished → closed=true ∧ flight=[]

namespace Pipe

variable {α : Type*}

def empty : Pipe α where
  sent := []
  flight := []
  unread := []
  taken := []
  closed := false
  ending := .flowing
  conserved := by simp
  torn := by simp
  orderly := by simp

instance : Inhabited (Pipe α) := ⟨empty⟩

/-- Something for the reader: an element, the end of the stream or an error. -/
def readable (p : Pipe α) : Bool := !p.unread.isEmpty || p.ending≠.flowing

/-- The sender hands over more elements. -/
def send (p : Pipe α) (xs : List α) : Option (Pipe α) :=
  if h : p.closed=false ∧ p.ending=.flowing then
    some { p with
      sent := p.sent++xs
      flight := p.flight++xs
      conserved := by
        intro hb
        rw [← p.conserved hb]
        simp
      torn := by simp [h.2]
      orderly := by simp [h.2] }
  else none

/-- The sender closes its end; nothing is sent after that. -/
def shut (p : Pipe α) : Pipe α :=
  { p with
    closed := true
    orderly := fun h => ⟨rfl,(p.orderly h).2⟩ }

/-- The oldest `n` elements under way reach the reader's end. -/
def arrive (p : Pipe α) (n : Nat) : Option (Pipe α) :=
  if h : p.ending=.flowing then
    some { p with
      flight := p.flight.drop n
      unread := p.unread++p.flight.take n
      conserved := by
        intro hb
        rw [← p.conserved hb]
        simp [List.append_assoc]
      torn := by simp [h]
      orderly := by simp [h] }
  else none

/-- The end of the stream reaches the reader, after all elements. -/
def finish (p : Pipe α) : Option (Pipe α) :=
  if h : p.closed=true ∧ p.flight=[] ∧ p.ending=.flowing then
    some { p with
      ending := .finished
      conserved := fun _ => p.conserved (by simp [h.2.2])
      torn := by simp
      orderly := fun _ => ⟨h.1,h.2.1⟩ }
  else none

/-- The stream breaks: what is under way is lost, and the reader's end keeps
only the first `n` unread elements. -/
def tear (p : Pipe α) (n : Nat) : Pipe α :=
  { p with
    flight := []
    unread := p.unread.take n
    ending := .broken
    conserved := by simp
    torn := by
      intro _
      have cut : p.taken++p.unread.take n<+:p.taken++p.unread :=
        (List.prefix_append_right_inj _).mpr (List.take_prefix n _)
      by_cases hb : p.ending=.broken
      · exact cut.trans (p.torn hb)
      · exact cut.trans ⟨p.flight,p.conserved hb⟩
    orderly := by simp }

/-- The reader takes `xs` from the front of what is unread. -/
def take [DecidableEq α] (p : Pipe α) (xs : List α) : Option (Pipe α) :=
  if h : xs<+:p.unread then
    some { p with
      unread := p.unread.drop xs.length
      taken := p.taken++xs
      conserved := by
        intro hb
        obtain ⟨ys,hy⟩ := h
        rw [← p.conserved hb,← hy]
        simp
      torn := by
        intro hb
        obtain ⟨ys,hy⟩ := h
        have ht := p.torn hb
        rw [← hy] at ht ⊢
        simpa using ht }
  else none

theorem taken_prefix (p : Pipe α) : p.taken<+:p.sent := by
  by_cases hb : p.ending=.broken
  · exact (List.prefix_append _ _).trans (p.torn hb)
  · exact ⟨p.unread++p.flight,by rw [← p.conserved hb,List.append_assoc]⟩

theorem arrived_prefix (p : Pipe α) : p.taken++p.unread<+:p.sent := by
  by_cases hb : p.ending=.broken
  · exact p.torn hb
  · exact ⟨p.flight,p.conserved hb⟩

/-- An orderly end with nothing unread means that the reader has it all. -/
theorem taken_all (p : Pipe α) (hf : p.ending=.finished) (hu : p.unread=[]) :
    p.taken=p.sent := by
  have whole := p.conserved (by simp [hf])
  simpa [hu,(p.orderly hf).2] using whole

theorem not_readable (p : Pipe α) (hu : p.unread=[]) (hf : p.ending=.flowing) :
    p.readable=false := by
  simp [readable,hu,hf]

theorem send_spec (p q : Pipe α) (xs : List α) (h : p.send xs=some q) :
    p.closed=false ∧ p.ending=.flowing ∧ q.ending=.flowing ∧ q.closed=false ∧
      q.sent=p.sent++xs ∧ q.flight=p.flight++xs ∧ q.unread=p.unread ∧ q.taken=p.taken := by
  unfold send at h
  split at h
  · rename_i hc
    cases h
    exact ⟨hc.1,hc.2,hc.2,hc.1,rfl,rfl,rfl,rfl⟩
  · cases h

theorem arrive_spec (p q : Pipe α) (n : Nat) (h : p.arrive n=some q) :
    p.ending=.flowing ∧ q.ending=.flowing ∧ q.closed=p.closed ∧ q.sent=p.sent ∧
      q.flight=p.flight.drop n ∧ q.unread=p.unread++p.flight.take n ∧ q.taken=p.taken := by
  unfold arrive at h
  split at h
  · rename_i hc
    cases h
    exact ⟨hc,hc,rfl,rfl,rfl,rfl,rfl⟩
  · cases h

theorem finish_spec (p q : Pipe α) (h : p.finish=some q) :
    p.ending=.flowing ∧ p.closed=true ∧ q.ending=.finished ∧ q.closed=true ∧
      q.sent=p.sent ∧ q.flight=p.flight ∧ q.unread=p.unread ∧ q.taken=p.taken := by
  unfold finish at h
  split at h
  · rename_i hc
    cases h
    exact ⟨hc.2.2,hc.1,rfl,hc.1,rfl,rfl,rfl,rfl⟩
  · cases h

theorem take_spec [DecidableEq α] (p q : Pipe α) (xs : List α) (h : p.take xs=some q) :
    xs<+:p.unread ∧ q.unread=p.unread.drop xs.length ∧ q.taken=p.taken++xs ∧
      q.sent=p.sent ∧ q.ending=p.ending ∧ q.closed=p.closed ∧ q.flight=p.flight := by
  unfold take at h
  split at h
  · rename_i hc
    cases h
    exact ⟨hc,rfl,rfl,rfl,rfl,rfl,rfl⟩
  · cases h

/-- What only grows on a stream, whatever happens to it. -/
structure Grows (p q : Pipe α) : Prop where
  sent : p.sent<+:q.sent
  taken : p.taken<+:q.taken
  closed : p.closed=true → q.closed=true ∧ q.sent=p.sent

theorem Grows.refl (p : Pipe α) : p.Grows p :=
  ⟨List.prefix_refl _,List.prefix_refl _,fun h => ⟨h,rfl⟩⟩

theorem send_grows {p q : Pipe α} {xs : List α} (h : p.send xs=some q) : p.Grows q := by
  obtain ⟨hc,-,-,-,hs,-,-,ht⟩ := send_spec p q xs h
  refine ⟨⟨xs,hs.symm⟩,ht ▸ List.prefix_refl _,?_⟩
  intro h
  rw [hc] at h
  cases h

theorem shut_grows (p : Pipe α) : p.Grows p.shut :=
  ⟨List.prefix_refl _,List.prefix_refl _,fun _ => ⟨rfl,rfl⟩⟩

theorem arrive_grows {p q : Pipe α} {n : Nat} (h : p.arrive n=some q) : p.Grows q := by
  obtain ⟨-,-,hc,hs,-,-,ht⟩ := arrive_spec p q n h
  exact ⟨hs ▸ List.prefix_refl _,ht ▸ List.prefix_refl _,fun h => ⟨hc.trans h,hs⟩⟩

theorem finish_grows {p q : Pipe α} (h : p.finish=some q) : p.Grows q := by
  obtain ⟨-,-,-,hc,hs,-,-,ht⟩ := finish_spec p q h
  exact ⟨hs ▸ List.prefix_refl _,ht ▸ List.prefix_refl _,fun _ => ⟨hc,hs⟩⟩

theorem tear_grows (p : Pipe α) (n : Nat) : p.Grows (p.tear n) :=
  ⟨List.prefix_refl _,List.prefix_refl _,fun h => ⟨h,rfl⟩⟩

theorem take_grows [DecidableEq α] {p q : Pipe α} {xs : List α} (h : p.take xs=some q) :
    p.Grows q := by
  obtain ⟨-,-,ht,hs,-,hc,-⟩ := take_spec p q xs h
  exact ⟨hs ▸ List.prefix_refl _,⟨xs,ht.symm⟩,fun h => ⟨hc.trans h,hs⟩⟩

/-- The sender is done and the reader has everything. -/
def Complete (p : Pipe α) : Prop := p.closed=true ∧ p.taken=p.sent

theorem Complete.grows {p q : Pipe α} (h : p.Complete) (hg : p.Grows q) : q.Complete := by
  obtain ⟨hc,hs⟩ := hg.closed h.1
  refine ⟨hc,?_⟩
  apply q.taken_prefix.eq_of_length_le
  rw [hs,← h.2]
  exact hg.taken.length_le

/-- A reader that has seen the orderly end has everything. -/
theorem complete_of_end (p : Pipe α) (hf : p.ending=.finished) (hu : p.unread=[]) :
    p.Complete :=
  ⟨(p.orderly hf).1,p.taken_all hf hu⟩

/-- What can happen to a stream apart from its reader. -/
inductive Shifts (p : Pipe α) : Pipe α → Prop
  | send {xs : List α} {q : Pipe α} (h : p.send xs=some q) : Shifts p q
  | shut : Shifts p p.shut
  | arrive {n : Nat} {q : Pipe α} (h : p.arrive n=some q) : Shifts p q
  | finish {q : Pipe α} (h : p.finish=some q) : Shifts p q
  | tear (n : Nat) : Shifts p (p.tear n)

/-- A stream that is over stays over. -/
theorem Shifts.over {p q : Pipe α} (h : p.Shifts q) (hp : p.ending≠.flowing) :
    q.ending≠.flowing := by
  cases h with
  | send h => exact absurd (send_spec p q _ h).2.1 hp
  | shut => exact hp
  | arrive h => exact absurd (arrive_spec p q _ h).1 hp
  | finish h => exact absurd (finish_spec p q h).1 hp
  | tear n => simp [Pipe.tear]

/-- What has reached the reader's end stays there, unless the stream breaks. -/
theorem Shifts.arrived {p q : Pipe α} (h : p.Shifts q) (whole : q.ending≠.broken) :
    p.taken++p.unread<+:q.taken++q.unread := by
  cases h with
  | send h =>
    obtain ⟨-,-,-,-,-,-,hu,ht⟩ := send_spec p q _ h
    exact hu ▸ ht ▸ List.prefix_refl _
  | shut => exact List.prefix_refl _
  | arrive h =>
    obtain ⟨-,-,-,-,-,hu,ht⟩ := arrive_spec p q _ h
    rw [hu,ht]
    exact (List.prefix_append_right_inj _).mpr (List.prefix_append _ _)
  | finish h =>
    obtain ⟨-,-,-,-,-,-,hu,ht⟩ := finish_spec p q h
    exact hu ▸ ht ▸ List.prefix_refl _
  | tear n => exact absurd rfl whole

theorem take_arrived [DecidableEq α] {p q : Pipe α} {xs : List α} (h : p.take xs=some q) :
    q.taken++q.unread=p.taken++p.unread := by
  obtain ⟨⟨ys,hy⟩,hu,ht,-⟩ := take_spec p q xs h
  rw [hu,ht,← hy,List.drop_left,List.append_assoc]

/-- The first `n` elements have reached the reader's end, or are lost, and not all of them
are taken. -/
structure Owes (p : Pipe α) (n : Nat) : Prop where
  untaken : p.taken.length<n
  sent : n≤p.sent.length
  arrived : p.ending=.broken ∨ n≤p.taken.length+p.unread.length

section owes

variable {p q : Pipe α} {n : Nat}

theorem Owes.readable (h : p.Owes n) : p.readable=true := by
  unfold Pipe.readable
  rcases h.arrived with he|hu
  · simp [he]
  · have untaken := h.untaken
    cases hp : p.unread with
    | nil =>
      rw [hp] at hu
      simp only [List.length_nil] at hu
      omega
    | cons x xs => rfl

theorem Owes.incomplete (h : p.Owes n) : ¬p.Complete := by
  intro full
  have untaken := h.untaken
  rw [full.2] at untaken
  exact absurd h.sent (Nat.not_le.mpr untaken)

/-- What grows on a stream leaves the debt to the reader, unless the reader takes something. -/
theorem Owes.grows (h : p.Owes n) (hg : p.Grows q) (taken : q.taken=p.taken)
    (arrived : q.ending=.broken ∨ p.ending≠.broken ∧ p.unread.length≤q.unread.length) :
    q.Owes n where
  untaken := taken ▸ h.untaken
  sent := Nat.le_trans h.sent hg.sent.length_le
  arrived := by
    rcases arrived with broken|⟨whole,more⟩
    · exact .inl broken
    · have here := h.arrived.resolve_left whole
      rw [taken]
      exact .inr (by omega)

/-- Nothing outside the reader settles the debt. -/
theorem Owes.shifts (h : p.Owes n) (hs : p.Shifts q) : q.Owes n := by
  cases hs with
  | send hp =>
    obtain ⟨-,he,-,-,-,-,hu,ht⟩ := send_spec p q _ hp
    exact h.grows (send_grows hp) ht (.inr (by simp [he,hu]))
  | shut => exact ⟨h.untaken,h.sent,h.arrived⟩
  | arrive hp =>
    obtain ⟨he,-,-,-,-,hu,ht⟩ := arrive_spec p q _ hp
    exact h.grows (arrive_grows hp) ht (.inr (by simp [he,hu]))
  | finish hp =>
    obtain ⟨he,-,-,-,-,-,hu,ht⟩ := finish_spec p q hp
    exact h.grows (finish_grows hp) ht (.inr (by simp [he,hu]))
  | tear k => exact h.grows (tear_grows p k) rfl (.inl rfl)

/-- Only by taking elements does the reader get nearer to having all `n`. -/
theorem Owes.take [DecidableEq α] {xs : List α} (h : p.Owes n) (hp : p.take xs=some q) :
    q.Owes n ∨ n≤q.taken.length := by
  obtain ⟨front,hu,ht,hs,he,-,-⟩ := take_spec p q xs hp
  have fits := front.length_le
  by_cases all : n≤q.taken.length
  · exact .inr all
  · refine .inl ⟨Nat.lt_of_not_le all,hs ▸ h.sent,?_⟩
    rw [he,hu,ht,List.length_append,List.length_drop]
    exact h.arrived.imp_right fun here => by omega

/-- What has arrived and is not taken is owed. -/
theorem owes_arrived (p : Pipe α) (hu : p.unread≠[]) :
    p.Owes (p.taken++p.unread).length where
  untaken := by
    have more := List.length_pos_iff.mpr hu
    rw [List.length_append]
    omega
  sent := p.arrived_prefix.length_le
  arrived := .inr (Nat.le_of_eq List.length_append)

end owes

end Pipe

end Framework
