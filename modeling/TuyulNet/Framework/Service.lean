import Mathlib.Data.List.Nodup
import Mathlib.Logic.Function.Basic
import TuyulNet.Framework.Machine

namespace Framework

/-- What happens to a guest `c` of a service that hands out pieces `p`. -/
inductive Visit (ι π : Type*)
  | arrive (c : ι)
  | enter (c : ι)
  | turnAway (c : ι)
  | give (c : ι) (p : π)
  | depart (c : ι)
  deriving DecidableEq

/-- A service whose guests wait in a queue until they are admitted or turned away. `known`
are all who have ever come. -/
structure Service (ι π : Type*) where
  waiting : List ι
  inside : List ι
  known : List ι
  given : ι → List π

namespace Visit

variable {ι π : Type*}

def guest : Visit ι π → ι
  | arrive c | enter c | turnAway c | give c _ | depart c => c

/-- Who comes. -/
def comes : Visit ι π → Option ι
  | arrive c => some c
  | _ => none

/-- Whose turn it is at the head of the queue. -/
def taken : Visit ι π → Option ι
  | enter c | turnAway c => some c
  | _ => none

/-- What `c` is given. -/
def piece [DecidableEq ι] (c : ι) : Visit ι π → Option π
  | give d p => if d=c then some p else none
  | _ => none

end Visit

/-- How far a guest has come. -/
inductive Stay
  | away | waiting | inside | gone
  deriving DecidableEq

/-- A visit is `arrive`, then `turnAway` or `enter`, then any number of pieces, then `depart`. -/
def Stay.next {ι π : Type*} : Stay → Visit ι π → Option Stay
  | away,.arrive _ => some waiting
  | waiting,.turnAway _ => some gone
  | waiting,.enter _ => some inside
  | inside,.give _ _ => some inside
  | inside,.depart _ => some gone
  | _,_ => none

def stays (ι π : Type*) : Machine Stay (Visit ι π) := ⟨Stay.next⟩

namespace Service

variable {ι π : Type*}

def empty : Service ι π := ⟨[],[],[],fun _ => []⟩

/-- Every guest is in one place. -/
structure Sound (x : Service ι π) : Prop where
  queue : x.waiting.Nodup
  party : x.inside.Nodup
  apart : ∀ c∈x.waiting,c∉x.inside
  known : ∀ c,c∈x.waiting ∨ c∈x.inside → c∈x.known

theorem empty_sound : (empty : Service ι π).Sound :=
  ⟨List.nodup_nil,List.nodup_nil,by simp [empty],by simp [empty]⟩

variable [DecidableEq ι]

def step (x : Service ι π) : Visit ι π → Option (Service ι π)
  | .arrive c =>
    if c∈x.known then none else some { x with waiting := x.waiting++[c],known := c::x.known }
  | .enter c =>
    if x.waiting.head?=some c then
      some { x with waiting := x.waiting.tail,inside := c::x.inside }
    else none
  | .turnAway c =>
    if x.waiting.head?=some c then some { x with waiting := x.waiting.tail } else none
  | .give c p =>
    if c∈x.inside then some { x with given := Function.update x.given c (x.given c++[p]) }
    else none
  | .depart c => if c∈x.inside then some { x with inside := x.inside.erase c } else none

def machine (ι π : Type*) [DecidableEq ι] : Machine (Service ι π) (Visit ι π) := ⟨step⟩

def stay (x : Service ι π) (c : ι) : Stay :=
  if c∈x.waiting then .waiting else if c∈x.inside then .inside
  else if c∈x.known then .gone else .away

section steps

variable {x y : Service ι π} {v : Visit ι π} {c : ι}

inductive Steps (x : Service ι π) : Visit ι π → Service ι π → Prop
  | arrive {c : ι} (unknown : c∉x.known) :
    Steps x (.arrive c) { x with waiting := x.waiting++[c],known := c::x.known }
  | enter {c : ι} {rest : List ι} (head : x.waiting=c::rest) :
    Steps x (.enter c) { x with waiting := rest,inside := c::x.inside }
  | turnAway {c : ι} {rest : List ι} (head : x.waiting=c::rest) :
    Steps x (.turnAway c) { x with waiting := rest }
  | give {c : ι} {p : π} (inside : c∈x.inside) :
    Steps x (.give c p) { x with given := Function.update x.given c (x.given c++[p]) }
  | depart {c : ι} (inside : c∈x.inside) :
    Steps x (.depart c) { x with inside := x.inside.erase c }

theorem step_steps (h : x.step v=some y) : x.Steps v y := by
  have queue {c : ι} (head : x.waiting.head?=some c) : x.waiting=c::x.waiting.tail :=
    (List.cons_head?_tail head).symm
  cases v with
  | arrive c =>
    simp only [step] at h
    split at h <;> cases h
    exact .arrive (by assumption)
  | enter c =>
    simp only [step] at h
    split at h <;> cases h
    exact .enter (queue (by assumption))
  | turnAway c =>
    simp only [step] at h
    split at h <;> cases h
    exact .turnAway (queue (by assumption))
  | give c p =>
    simp only [step] at h
    split at h <;> cases h
    exact .give (by assumption)
  | depart c =>
    simp only [step] at h
    split at h <;> cases h
    exact .depart (by assumption)

theorem step_sound (h : x.Sound) (hs : x.step v=some y) : y.Sound := by
  obtain ⟨queue,party,apart,known⟩ := h
  cases step_steps hs with
  | @arrive c unknown =>
    have out : c∉x.waiting := fun hc => unknown (known c (.inl hc))
    have outside : c∉x.inside := fun hc => unknown (known c (.inr hc))
    refine ⟨?_,party,?_,?_⟩
    · exact List.nodup_append.mpr ⟨queue,List.nodup_singleton c,by
        intro a ha b hb
        obtain rfl := List.mem_singleton.mp hb
        exact fun e => out (e ▸ ha)⟩
    · intro d hd
      rcases List.mem_append.mp hd with hd|hd
      · exact apart d hd
      · obtain rfl := List.mem_singleton.mp hd
        exact outside
    · intro d hd
      rcases hd with hd|hd
      · rcases List.mem_append.mp hd with hd|hd
        · exact List.mem_cons_of_mem c (known d (.inl hd))
        · obtain rfl := List.mem_singleton.mp hd
          exact List.mem_cons_self
      · exact List.mem_cons_of_mem c (known d (.inr hd))
  | @enter c rest head =>
    rw [head] at queue apart known
    obtain ⟨alone,queue⟩ := List.nodup_cons.mp queue
    refine ⟨queue,List.nodup_cons.mpr ⟨apart c List.mem_cons_self,party⟩,?_,?_⟩
    · intro d hd hi
      rcases List.mem_cons.mp hi with rfl|hi
      · exact alone hd
      · exact apart d (List.mem_cons_of_mem c hd) hi
    · intro d hd
      rcases hd with hd|hd
      · exact known d (.inl (List.mem_cons_of_mem c hd))
      · rcases List.mem_cons.mp hd with rfl|hd
        · exact known d (.inl List.mem_cons_self)
        · exact known d (.inr hd)
  | @turnAway c rest head =>
    rw [head] at queue apart known
    refine ⟨(List.nodup_cons.mp queue).2,party,?_,?_⟩
    · exact fun d hd => apart d (List.mem_cons_of_mem c hd)
    · exact fun d hd => known d (hd.imp_left (List.mem_cons_of_mem c))
  | give => exact ⟨queue,party,apart,known⟩
  | @depart c =>
    refine ⟨queue,party.erase c,?_,?_⟩
    · exact fun d hd hi => apart d hd (List.mem_of_mem_erase hi)
    · exact fun d hd => known d (hd.imp_right List.mem_of_mem_erase)

/-- What one visit is for the guest who makes it. -/
theorem stay_own (h : x.Sound) (hs : x.step v=some y) :
    (x.stay v.guest).next v=some (y.stay v.guest) := by
  obtain ⟨queue,party,apart,known⟩ := h
  cases step_steps hs with
  | @arrive c unknown =>
    have out : c∉x.waiting := fun hc => unknown (known c (.inl hc))
    have outside : c∉x.inside := fun hc => unknown (known c (.inr hc))
    simp [Visit.guest,stay,out,outside,unknown,Stay.next]
  | @enter c rest head =>
    rw [head] at queue
    have later : c∉rest := (List.nodup_cons.mp queue).1
    simp [Visit.guest,stay,head,later,Stay.next]
  | @turnAway c rest head =>
    rw [head] at queue
    have later : c∉rest := (List.nodup_cons.mp queue).1
    have outside : c∉x.inside := apart c (by simp [head])
    have come : c∈x.known := known c (.inl (by simp [head]))
    simp [Visit.guest,stay,head,later,outside,come,Stay.next]
  | @give c p inside =>
    have out : c∉x.waiting := fun hc => apart c hc inside
    simp [Visit.guest,stay,out,inside,Stay.next]
  | @depart c inside =>
    have out : c∉x.waiting := fun hc => apart c hc inside
    have come : c∈x.known := known c (.inr inside)
    have left : c∉x.inside.erase c := party.not_mem_erase
    simp [Visit.guest,stay,out,inside,left,come,Stay.next]

/-- Nobody else is moved by it. -/
theorem stay_other (hs : x.step v=some y) (hc : v.guest≠c) : y.stay c=x.stay c := by
  cases step_steps hs with
  | arrive | turnAway =>
    simp_all [Visit.guest,stay,eq_comm]
  | enter head =>
    simp_all [Visit.guest,stay,eq_comm]
  | give => rfl
  | @depart d inside =>
    have hc : d≠c := hc
    simp [stay,List.mem_erase_of_ne hc.symm]

theorem Sound.stay_inside (h : x.Sound) : x.stay c=.inside ↔ c∈x.inside := by
  unfold stay
  split
  · rename_i hw
    simpa using h.apart c hw
  · split
    · rename_i hi
      simp [hi]
    · rename_i hi
      split <;> simp [hi]

end steps

section runs

variable {x y : Service ι π} {vs : List (Visit ι π)}

theorem run_sound (h : x.Sound) (hr : (machine ι π).run x vs=some y) : y.Sound :=
  (machine ι π).always (fun _ _ _ => step_sound) vs x y h hr

/-- The visits of one guest are those of a guest who is alone. -/
theorem run_stay (h : x.Sound) (hr : (machine ι π).run x vs=some y) (c : ι) :
    (stays ι π).run (x.stay c) (vs.filter fun v => v.guest=c)=some (y.stay c) := by
  apply (machine ι π).projects (stays ι π) (fun x => x.stay c) (fun v => decide (v.guest=c))
    (I := Sound) (C := fun _ _ => True)
  · exact fun _ _ _ h _ hs => step_sound h hs
  · intro x v y h _ hs own
    obtain rfl : v.guest=c := by simpa using own
    exact stay_own h hs
  · intro x v y hs other
    exact stay_other hs (by simpa using other)
  · exact h
  · exact Machine.Meets.of_actions _ vs (fun _ _ => trivial) x
  · exact hr

/-- First come, first served: whoever waited or came has had his turn in this order, or
still waits. -/
theorem run_queue (hr : (machine ι π).run x vs=some y) :
    x.waiting++vs.filterMap Visit.comes=vs.filterMap Visit.taken++y.waiting := by
  induction vs generalizing x with
  | nil =>
    cases hr
    simp
  | cons v vs ih =>
    obtain ⟨u,hu,hr⟩ := ((machine ι π).run_cons x y v vs).mp hr
    have rest := ih hr
    cases step_steps hu with
    | arrive => simpa [List.filterMap_cons,Visit.comes,Visit.taken] using rest
    | enter head | turnAway head =>
      simpa [List.filterMap_cons,Visit.comes,Visit.taken,head] using rest
    | give | depart => simpa [List.filterMap_cons,Visit.comes,Visit.taken] using rest

/-- What a guest has is what he was given. -/
theorem run_given (hr : (machine ι π).run x vs=some y) (c : ι) :
    y.given c=x.given c++vs.filterMap (Visit.piece c) := by
  induction vs generalizing x with
  | nil =>
    cases hr
    simp
  | cons v vs ih =>
    obtain ⟨u,hu,hr⟩ := ((machine ι π).run_cons x y v vs).mp hr
    rw [ih hr]
    cases step_steps hu with
    | @give d p =>
      by_cases hd : d=c
      · subst d
        simp [Visit.piece]
      · have other : c≠d := fun e => hd e.symm
        simp [Visit.piece,hd,other]
    | _ => simp [List.filterMap_cons,Visit.piece]

/-- A whole queue is turned away. -/
theorem run_dismiss (x : Service ι π) :
    (machine ι π).run x (x.waiting.map .turnAway)=some { x with waiting := [] } := by
  obtain ⟨waiting,inside,known,given⟩ := x
  induction waiting with
  | nil => rfl
  | cons c l ih =>
    have first : step ⟨c::l,inside,known,given⟩ (.turnAway c)=some ⟨l,inside,known,given⟩ := by
      simp [step]
    exact ((machine ι π).run_cons _ _ _ _).mpr ⟨_,first,ih⟩

end runs

end Service

end Framework
