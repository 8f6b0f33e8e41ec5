import TuyulNet.Client.Holding
import TuyulNet.Client.Objects

namespace TuyulNet.Client

open Framework Kernel

namespace Process

def impl (s : Process) (o : Object) : Option Impl := (s.owner o).bind s.heap

/-- No thread is running for the connection of `o`. -/
def parted (s : Process) (o : Object) : Bool :=
  (s.owner o).all fun p => !(s.threads p).worker.running

/-- The worker of `o` has read the end of its connection, or an error on it, and has not been
joined since. -/
def dropped (s : Process) (o : Object) : Bool :=
  (s.owner o).any fun p => (s.threads p).dropped

/-- `is_connected` is false, and no drop is pending. -/
def vacant (s : Process) (o : Object) : Bool :=
  (s.impl o).all (fun i => !i.isConnected) && !s.dropped o

/-- Neither does `connect_to` open a socket, nor is the `Impl` destroyed, while a drop is
pending. -/
def collected (s : Process) : Bool :=
  match s.call with
  | some (o,a) => !(a.opens || a=.destroyImpl) || !s.dropped o
  | none => true

/-- An object is moved from only when no thread runs for it, and moved to only when it has no
connection; what the server has dropped is not used for the next connection or destroyed. -/
def Careful (s : Process) : Action → Prop
  | .moveConstruct _ src => s.parted src=true
  | .moveAssign o src => o=src ∨ s.parted src=true ∧ s.vacant o=true
  | .app _ => s.collected=true
  | _ => True

instance (s : Process) : ∀ a,Decidable (Careful s a)
  | .moveConstruct _ _ | .app _ => inferInstanceAs (Decidable (_=true))
  | .moveAssign _ _ => inferInstanceAs (Decidable (_ ∨ _))
  | .construct _ _ _ _ | .request _ _ | .worker _ _ | .callback _ | .env _ => isTrue trivial

/-- Every thread that runs finds its own `Impl` behind the object that it has captured. -/
def Loyal (s : Process) : Prop :=
  ∀ p,(s.threads p).worker.running=true →
    s.owner (s.threads p).this=some p ∧ (s.heap p).isSome=true

/-- Two `Impl`s share no descriptor. -/
def Apart (i j : Impl) : Prop := ∀ fd∈i.fds,fd∈j.fds → fd=-1

/-- Who owns what, between any two steps. -/
structure Orderly (s : Process) : Prop where
  wf : s.kernel.Wf
  agrees : s.kernel.Agrees (ledger s.trace)
  disciplined : Ledger.Disciplined (ledger s.trace)
  owned : ∀ o p,s.owner o=some p → (s.heap p).isSome=true
  owner : ∀ p,(s.heap p).isSome=true → ∃ o,s.owner o=some p
  sole : ∀ o o' p,s.owner o=some p → s.owner o'=some p → o=o'
  fresh : ∀ p,s.born ≤ p → s.heap p=none
  inside : ∀ o a,s.call=some (o,a) → (s.owner o).isSome=true
  seated : ∀ p i,s.heap p=some i →
    Seated i (s.place p) (s.threads p).worker s.kernel (s.threads p).dropped
  unmanned : ∀ p,s.heap p=none → (s.threads p).worker=.none
  apart : ∀ p q i j,p≠q → s.heap p=some i → s.heap q=some j → Apart i j
  only : ∀ fd,s.kernel.Owns fd → ∃ p i,s.heap p=some i ∧ fd∈i.fds
  loyal : ∀ p,(s.threads p).worker.running=true → s.owner (s.threads p).this=some p
  fate : s.fate.lifecycle=false
  crash : s.crash≠.worker

section orderly

variable {s t : Process}

theorem Orderly.loyal' (h : Orderly s) : s.Loyal := by
  intro p hp
  exact ⟨h.loyal p hp,h.owned _ p (h.loyal p hp)⟩

theorem boot_orderly (pipeSignal : Bool) (foreign : List Fd) :
    Orderly (boot pipeSignal foreign) where
  wf := boot_wf foreign
  agrees := boot_agrees foreign
  disciplined := trivial
  owned := by simp [boot,Process.owner]
  owner := by simp [boot]
  sole := by simp [boot,Process.owner]
  fresh := fun _ _ => rfl
  inside := by simp [boot]
  seated := by simp [boot]
  unmanned := fun _ _ => rfl
  apart := by simp [boot]
  only := by
    rintro fd ⟨f,hf,hne⟩
    simp only [boot,Kernel.boot] at hf
    split at hf <;> cases hf
    exact absurd rfl hne
  loyal := by simp [boot,Worker.running]
  fate := rfl
  crash := by simp [boot]

/-- An application thread that is in no call, or in a call on another object. -/
theorem place_rest {p : Pointer} (h : ∀ o a,s.call=some (o,a) → s.owner o≠some p) :
    s.place p=.idle none := by
  unfold place
  split
  · rename_i o a hc
    rw [if_neg (h o a hc)]
  · rfl

theorem place_inside {o : Object} {a : App} {p : Pointer} (hc : s.call=some (o,a))
    (ho : s.owner o=some p) : s.place p=a := by
  unfold place
  rw [hc]
  exact if_pos ho

/-- One `Impl` and its thread have taken a step; everybody else is where they were. -/
theorem Orderly.advance {p : Pointer} {i j : Impl} {th : Thread} (h : Orderly s)
    (hp : s.heap p=some i) (objects : t.objects=s.objects)
    (heap : t.heap=Function.update s.heap p (some j)) (born : t.born=s.born)
    (threads : t.threads=Function.update s.threads p th) (wf : t.kernel.Wf)
    (agrees : t.kernel.Agrees (ledger t.trace))
    (disciplined : Ledger.Disciplined (ledger t.trace))
    (inside : ∀ o a,t.call=some (o,a) → (s.owner o).isSome=true)
    (mine : Seated j (t.place p) th.worker t.kernel th.dropped)
    (others : ∀ q i',q≠p → s.heap q=some i' →
      Seated i' (t.place q) (s.threads q).worker t.kernel (s.threads q).dropped ∧ Apart j i')
    (only : ∀ fd,t.kernel.Owns fd → fd∈j.fds ∨ s.kernel.Owns fd ∧ fd∉i.fds)
    (loyal : th.worker.running=true → s.owner th.this=some p) (fate : t.fate.lifecycle=false)
    (crash : t.crash=s.crash) : Orderly t := by
  have same (o : Object) : t.owner o=s.owner o := by rw [Process.owner,objects,Process.owner]
  have here : t.heap p=some j := by simp [heap]
  have there {q : Pointer} (hq : q≠p) : t.heap q=s.heap q := by simp [heap,hq]
  have present (q : Pointer) : (t.heap q).isSome=(s.heap q).isSome := by
    by_cases hq : q=p
    · rw [hq,here,hp]
      rfl
    · rw [there hq]
  constructor
  · exact wf
  · exact agrees
  · exact disciplined
  · intro o q ho
    rw [present]
    exact h.owned o q (same o ▸ ho)
  · intro q hq
    obtain ⟨o,ho⟩ := h.owner q (present q ▸ hq)
    exact ⟨o,(same o).trans ho⟩
  · intro o o' q ho ho'
    exact h.sole o o' q (same o ▸ ho) (same o' ▸ ho')
  · intro q hq
    have free := h.fresh q (born ▸ hq)
    rw [there (fun e => by rw [e,hp] at free; cases free)]
    exact free
  · intro o a ho
    rw [same]
    exact inside o a ho
  · intro q i' hq
    by_cases e : q=p
    · rw [e,here] at hq
      cases hq
      rw [e,threads,Function.update_self]
      exact mine
    · rw [there e] at hq
      rw [threads,Function.update_of_ne e]
      exact (others q i' e hq).1
  · intro q hq
    by_cases e : q=p
    · rw [e,here] at hq
      cases hq
    · rw [threads,Function.update_of_ne e]
      exact h.unmanned q (there e ▸ hq)
  · intro q q' i1 i2 ne h1 h2
    by_cases e : q=p
    · have e' : q'≠p := fun e' => ne (e.trans e'.symm)
      rw [e,here] at h1
      cases h1
      exact (others q' i2 e' (there e' ▸ h2)).2
    · by_cases e' : q'=p
      · rw [e',here] at h2
        cases h2
        intro fd h1' h2'
        exact (others q i1 e (there e ▸ h1)).2 fd h2' h1'
      · exact h.apart q q' i1 i2 ne (there e ▸ h1) (there e' ▸ h2)
  · intro fd ho
    rcases only fd ho with hm|⟨ho,hm⟩
    · exact ⟨p,j,here,hm⟩
    · obtain ⟨q,i',hq,hm'⟩ := h.only fd ho
      by_cases e : q=p
      · rw [e,hp] at hq
        cases hq
        exact absurd hm' hm
      · exact ⟨q,i',(there e).trans hq,hm'⟩
  · intro q hq
    rw [same]
    by_cases e : q=p
    · rw [e,threads,Function.update_self] at hq ⊢
      exact loyal hq
    · rw [threads,Function.update_of_ne e] at hq ⊢
      exact h.loyal q hq
  · exact fate
  · rw [crash]
    exact h.crash

/-- Nothing has happened to any `Impl`. -/
theorem Orderly.stay (h : Orderly s) (owner : ∀ o,t.owner o=s.owner o) (heap : t.heap=s.heap)
    (born : t.born=s.born) (threads : t.threads=s.threads) (kernel : s.kernel.Keeps t.kernel)
    (wf : t.kernel.Wf) (trace : t.trace=s.trace)
    (inside : ∀ o a,t.call=some (o,a) → (s.owner o).isSome=true)
    (seated : ∀ p i,s.heap p=some i →
      Seated i (t.place p) (s.threads p).worker t.kernel (s.threads p).dropped)
    (fate : t.fate=s.fate) (crash : t.crash≠.worker) : Orderly t where
  wf := wf
  agrees := by
    rw [trace]
    exact h.agrees.congr fun fd => (kernel fd).1
  disciplined := by
    rw [trace]
    exact h.disciplined
  owned := by
    intro o p ho
    rw [heap]
    exact h.owned o p (owner o ▸ ho)
  owner := by
    intro p hp
    obtain ⟨o,ho⟩ := h.owner p (heap ▸ hp)
    exact ⟨o,(owner o).trans ho⟩
  sole := fun o o' p ho ho' => h.sole o o' p (owner o ▸ ho) (owner o' ▸ ho')
  fresh := by
    rw [heap,born]
    exact h.fresh
  inside := by
    intro o a hc
    rw [owner]
    exact inside o a hc
  seated := by
    rw [heap,threads]
    exact seated
  unmanned := by
    rw [heap,threads]
    exact h.unmanned
  apart := by
    rw [heap]
    exact h.apart
  only := by
    intro fd ho
    rw [heap]
    exact h.only fd ((kernel fd).1.mp ho)
  loyal := by
    intro p hp
    rw [threads] at hp ⊢
    rw [owner]
    exact h.loyal p hp
  fate := by
    rw [fate]
    exact h.fate
  crash := crash

/-- The `Impl` of `o` is gone, and nobody misses it. -/
theorem Orderly.drop {o : Object} {p : Pointer} {i : Impl} {x : Option (Option Pointer)}
    (h : Orderly s) (ho : s.owner o=some p) (hp : s.heap p=some i)
    (objects : t.objects=Function.update s.objects o x) (hx : x.join=none)
    (heap : t.heap=Function.update s.heap p none) (born : t.born=s.born)
    (threads : ∀ q,q≠p → t.threads q=s.threads q) (gone : (t.threads p).worker=.none)
    (kernel : s.kernel.Keeps t.kernel) (wf : t.kernel.Wf)
    (agrees : t.kernel.Agrees (ledger t.trace))
    (disciplined : Ledger.Disciplined (ledger t.trace)) (call : t.call=none)
    (rest : ∀ q,q≠p → s.place q=.idle none) (empty : ∀ fd∈i.fds,¬s.kernel.Owns fd)
    (fate : t.fate.lifecycle=false) (crash : t.crash=s.crash) : Orderly t := by
  have owner (o' : Object) : t.owner o'=if o'=o then none else s.owner o' := by
    unfold Process.owner
    rw [objects]
    by_cases e : o'=o
    · simp [e,hx]
    · simp [e]
  have kept {o' : Object} {q : Pointer} (hq : t.owner o'=some q) : s.owner o'=some q ∧ q≠p := by
    rw [owner] at hq
    split at hq
    · cases hq
    · rename_i ne
      exact ⟨hq,fun e => ne (h.sole o' o p (e ▸ hq) ho)⟩
  have there {q : Pointer} (hq : q≠p) : t.heap q=s.heap q := by simp [heap,hq]
  have left {q : Pointer} {j : Impl} (hq : t.heap q=some j) : q≠p ∧ s.heap q=some j := by
    have ne : q≠p := by
      rintro rfl
      simp [heap] at hq
    exact ⟨ne,there ne ▸ hq⟩
  constructor
  · exact wf
  · exact agrees
  · exact disciplined
  · intro o' q hq
    obtain ⟨hq,ne⟩ := kept hq
    rw [there ne]
    exact h.owned o' q hq
  · intro q hq
    obtain ⟨j,hj⟩ := Option.isSome_iff_exists.mp hq
    obtain ⟨ne,hj⟩ := left hj
    obtain ⟨o',ho'⟩ := h.owner q (by simp [hj])
    refine ⟨o',?_⟩
    rw [owner,if_neg]
    · exact ho'
    · rintro rfl
      exact ne (Option.some.inj (ho'.symm.trans ho))
  · exact fun o1 o2 q h1 h2 => h.sole o1 o2 q (kept h1).1 (kept h2).1
  · intro q hq
    by_cases e : q=p
    · simp [heap,e]
    · exact (there e).trans (h.fresh q (born ▸ hq))
  · simp [call]
  · intro q j hq
    obtain ⟨ne,hq⟩ := left hq
    have seated := h.seated q j hq
    rw [rest q ne] at seated
    rw [threads q ne,place_rest (by simp [call])]
    exact seated.keeps kernel
  · intro q hq
    by_cases e : q=p
    · rw [e]
      exact gone
    · rw [threads q e]
      exact h.unmanned q (there e ▸ hq)
  · intro q q' i1 i2 ne h1 h2
    exact h.apart q q' i1 i2 ne (left h1).2 (left h2).2
  · intro fd hfd
    have before := (kernel fd).1.mp hfd
    obtain ⟨q,j,hq,hm⟩ := h.only fd before
    by_cases e : q=p
    · rw [e,hp] at hq
      cases hq
      exact absurd before (empty fd hm)
    · exact ⟨q,j,(there e).trans hq,hm⟩
  · intro q hq
    have ne : q≠p := by
      rintro rfl
      rw [gone] at hq
      cases hq
    rw [threads q ne] at hq ⊢
    have mine := h.loyal q hq
    rw [owner,if_neg]
    · exact mine
    · intro e
      rw [e] at mine
      exact ne (Option.some.inj (mine.symm.trans ho))
  · exact fate
  · rw [crash]
    exact h.crash

/-- An `Impl` that no thread runs for changes its object. -/
theorem Orderly.transfer {o src : Object} {m : Option Pointer} (h : Orderly s)
    (hs : s.objects src=some m) (ho : s.owner o=none) (ne : o≠src) (call : s.call=none)
    (parted : s.parted src=true) : Orderly (s.transfer o src m) := by
  have whose : s.owner src=m := by simp [Process.owner,hs]
  have owner (x : Object) : (s.transfer o src m).owner x=
      if x=o then m else if x=src then none else s.owner x := by
    unfold Process.owner Process.transfer
    by_cases e : x=o
    · simp [e]
    · by_cases e' : x=src <;> simp [e,e',ne.symm]
  have kept {x : Object} {q : Pointer} (hq : (s.transfer o src m).owner x=some q) :
      ∃ y,s.owner y=some q ∧ (x=o ∧ y=src ∨ x≠o ∧ x=y ∧ y≠src) := by
    rw [owner] at hq
    split at hq
    · rename_i e
      exact ⟨src,whose.trans hq,.inl ⟨e,rfl⟩⟩
    · rename_i e
      split at hq
      · cases hq
      · rename_i e'
        exact ⟨x,hq,.inr ⟨e,rfl,e'⟩⟩
  have call' : (s.transfer o src m).call=none := call
  constructor
  · exact h.wf
  · exact h.agrees
  · exact h.disciplined
  · intro x q hq
    obtain ⟨y,hy,-⟩ := kept hq
    exact h.owned y q hy
  · intro q hq
    obtain ⟨x,hx⟩ := h.owner q hq
    by_cases e : x=src
    · exact ⟨o,by rw [owner,if_pos rfl,← whose,← e,hx]⟩
    · refine ⟨x,?_⟩
      rw [owner,if_neg,if_neg e]
      · exact hx
      · rintro rfl
        rw [ho] at hx
        cases hx
  · intro x x' q hq hq'
    obtain ⟨y,hy,place⟩ := kept hq
    obtain ⟨y',hy',place'⟩ := kept hq'
    have same := h.sole y y' q hy hy'
    rcases place with ⟨ex,ey⟩|⟨nx,ex,ny⟩ <;> rcases place' with ⟨ex',ey'⟩|⟨nx',ex',ny'⟩
    · exact ex.trans ex'.symm
    · exact absurd (same.symm.trans ey) ny'
    · exact absurd (same.trans ey') ny
    · exact ex.trans (same.trans ex'.symm)
  · exact h.fresh
  · rw [call']
    simp
  · intro q j hq
    have seated := h.seated q j hq
    rw [place_rest (by simp [call])] at seated
    rw [place_rest (by simp [call'])]
    exact seated
  · exact h.unmanned
  · exact h.apart
  · exact h.only
  · intro q hq
    have mine := h.loyal q hq
    have apart : (s.threads q).this≠src := by
      intro e
      rw [e] at mine
      have idle : (s.threads q).worker.running=false := by simpa [Process.parted,mine] using parted
      exact absurd hq (by rw [show (s.transfer o src m).threads=s.threads from rfl,idle]; simp)
    show (s.transfer o src m).owner (s.threads q).this=some q
    rw [owner,if_neg,if_neg apart]
    · exact mine
    · intro e
      rw [e,ho] at mine
      cases mine
  · exact h.fate
  · exact h.crash

theorem construct_orderly {o : Object} {options : TcpOptions} {loggerCb dataCb : Bool}
    (h : Orderly s) (call : s.call=none)
    (hs : s.construct o { options,loggerCb,dataCb }=some t) : Orderly t := by
  unfold Process.construct at hs
  split at hs
  · rename_i free
    cases hs
    have none' : s.owner o=none := by simp [Process.owner,free]
    have unborn := h.fresh s.born le_rfl
    have owner (x : Object) : Process.owner { s with
        objects := Function.update s.objects o (some (some s.born))
        heap := Function.update s.heap s.born (some { options,loggerCb,dataCb })
        born := s.born+1 } x=if x=o then some s.born else s.owner x := by
      unfold Process.owner
      by_cases e : x=o <;> simp [e]
    have old {x : Object} {q : Pointer} (hx : s.owner x=some q) : q≠s.born := by
      rintro rfl
      have present := h.owned x _ hx
      rw [unborn] at present
      cases present
    constructor
    · exact h.wf
    · exact h.agrees
    · exact h.disciplined
    · intro x q hq
      rw [owner] at hq
      split at hq
      · cases hq
        simp
      · simp [old hq,h.owned x q hq]
    · intro q hq
      by_cases e : q=s.born
      · exact ⟨o,by rw [owner,if_pos rfl,e]⟩
      · obtain ⟨x,hx⟩ := h.owner q (by simpa [e] using hq)
        refine ⟨x,?_⟩
        rw [owner,if_neg]
        · exact hx
        · rintro rfl
          rw [none'] at hx
          cases hx
    · intro x x' q hq hq'
      rw [owner] at hq hq'
      split at hq
      · rename_i e
        cases hq
        split at hq'
        · rename_i e'
          exact e.trans e'.symm
        · exact absurd rfl (old hq')
      · split at hq'
        · cases hq'
          exact absurd rfl (old hq)
        · exact h.sole x x' q hq hq'
    · intro q hq
      have ne : q≠s.born := Nat.ne_of_gt hq
      simpa [ne] using h.fresh q (Nat.le_of_succ_le hq)
    · simp [call]
    · intro q j hq
      rw [place_rest (by simp [call])]
      by_cases e : q=s.born
      · have idle := h.unmanned s.born unborn
        simp only [e,Function.update_self,Option.some.injEq] at hq ⊢
        rw [← hq,idle]
        exact Seated.fresh options loggerCb dataCb s.kernel _
      · have seated := h.seated q j (by simpa [e] using hq)
        rw [place_rest (by simp [call])] at seated
        exact seated
    · intro q hq
      by_cases e : q=s.born
      · simp [e] at hq
      · exact h.unmanned q (by simpa [e] using hq)
    · have bare : ({ options,loggerCb,dataCb } : Impl).fds=[-1,-1] := rfl
      intro q q' i1 i2 ne h1 h2
      by_cases e : q=s.born
      · simp only [e,Function.update_self,Option.some.injEq] at h1
        rw [← h1]
        intro fd hm _
        simpa [bare] using hm
      · by_cases e' : q'=s.born
        · simp only [e',Function.update_self,Option.some.injEq] at h2
          rw [← h2]
          intro fd _ hm
          simpa [bare] using hm
        · exact h.apart q q' i1 i2 ne (by simpa [e] using h1) (by simpa [e'] using h2)
    · intro fd ho
      obtain ⟨q,j,hq,hm⟩ := h.only fd ho
      refine ⟨q,j,?_,hm⟩
      have e : q≠s.born := by
        rintro rfl
        rw [unborn] at hq
        cases hq
      simpa [e] using hq
    · intro q hq
      have mine := h.loyal q hq
      rw [owner,if_neg]
      · exact mine
      · intro e
        rw [e,none'] at mine
        cases mine
    · exact h.fate
    · exact h.crash
  · cases hs

/-- An `Impl` that stands for no connection has nothing to release. -/
theorem Orderly.vacant (h : Orderly s) {o : Object} {p : Pointer} {i : Impl} (call : s.call=none)
    (ho : s.owner o=some p) (hp : s.heap p=some i) (hv : s.vacant o=true) :
    i.joinable=false ∧ (s.threads p).worker=.none ∧ ∀ fd∈i.fds,¬s.kernel.Owns fd := by
  have unset : i.isConnected=false ∧ (s.threads p).dropped=false := by
    simpa [Process.vacant,Process.dropped,Process.impl,ho,hp] using hv
  have seated := h.seated p i hp
  rw [place_rest (by simp [call])] at seated
  have free := seated.control.free unset.1 unset.2 (by simp [App.phase])
  obtain ⟨client,epoll⟩ := seated.holds.settled rfl unset.1 free
  refine ⟨free,seated.control.unmanned (by simp [App.phase]) free,?_⟩
  intro fd hm
  have e : fd=-1 := by simpa [Impl.fds,client,epoll] using hm
  rw [e]
  exact minus_one_free h.wf

/-- The target of a move, without the `Impl` that it had. -/
theorem drop_orderly {o : Object} {p : Pointer} (h : Orderly s) (call : s.call=none)
    (ho : s.owner o=some p) (hv : s.vacant o=true) :
    Orderly { s with
      objects := Function.update s.objects o (some none)
      heap := Function.update s.heap p none } := by
  obtain ⟨i,hp⟩ := Option.isSome_iff_exists.mp (h.owned o p ho)
  obtain ⟨-,idle,empty⟩ := h.vacant call ho hp hv
  exact h.drop ho hp rfl rfl rfl rfl (fun _ _ => rfl) idle (Keeps.refl _) h.wf h.agrees
    h.disciplined call (fun _ _ => place_rest (by simp [call])) empty h.fate rfl

theorem moveAssign_orderly {o src : Object} (h : Orderly s) (call : s.call=none)
    (hc : Careful s (.moveAssign o src)) (hs : s.moveAssign o src=some t) : Orderly t := by
  unfold Process.moveAssign at hs
  split at hs
  · rename_i old m hold hsrc
    split at hs
    · cases hs
      exact h
    · rename_i ne
      obtain ⟨parted,vacant⟩ := hc.resolve_left ne
      cases old with
      | none =>
        cases hs
        exact h.transfer hsrc (by simp [Process.owner,hold]) ne call parted
      | some p =>
        cases hs
        have ho : s.owner o=some p := by simp [Process.owner,hold]
        obtain ⟨i,hp⟩ := Option.isSome_iff_exists.mp (h.owned o p ho)
        obtain ⟨free,-⟩ := h.vacant call ho hp vacant
        have dropped := drop_orderly h call ho vacant
        have whose : Process.owner { s with
            objects := Function.update s.objects o (some none)
            heap := Function.update s.heap p none } src=s.owner src := by
          simp [Process.owner,Ne.symm ne]
        have moved := dropped.transfer (o := o) (m := m) (by simp [Ne.symm ne,hsrc])
          (by simp [Process.owner]) ne call (by simpa [Process.parted,whose] using parted)
        have same : Function.update (Function.update (Function.update s.objects o (some none)) src
            (some none)) o (some m)=
            Function.update (Function.update s.objects src (some none)) o (some m) := by
          funext x
          rcases eq_or_ne x o with rfl|e
          · simp
          · rcases eq_or_ne x src with rfl|e' <;> simp [*]
        convert moved using 1
        simp [Process.delete,Process.transfer,hp,free,same]
  · cases hs

theorem request_orderly {o : Object} {q : Request} (h : Orderly s) (call : s.call=none)
    (hs : s.request o q=some t) : Orderly t := by
  have rest (p : Pointer) : s.place p=.idle none := place_rest (by simp [call])
  unfold Process.request at hs
  split at hs
  · rename_i p hp
    cases hs
    have ho : s.owner o=some p := by simp [Process.owner,hp]
    refine h.stay (fun _ => rfl) rfl rfl rfl (Keeps.refl _) h.wf rfl ?_ ?_ rfl h.crash
    · rintro o' a hc
      cases hc
      simp [ho]
    · intro p' i hi
      have seated := h.seated p' i hi
      rw [rest] at seated
      by_cases e : p'=p
      · have here : Process.place { s with call := some (o,q.entry) } p=q.entry :=
          place_inside rfl ho
        rw [e,here]
        exact e ▸ seated.enter q
      · rw [place_rest]
        · exact seated
        · rintro o' a hc hp'
          cases hc
          exact e (Option.some.inj (hp'.symm.trans ho))
  · rename_i hp
    have bare : s.owner o=none := by simp [Process.owner,hp]
    cases q with
    | disconnect =>
      cases hs
      exact h
    | destroy =>
      cases hs
      refine h.stay (fun x => ?_) rfl rfl rfl (Keeps.refl _) h.wf rfl (by simp [call]) ?_ rfl
        h.crash
      · unfold Process.owner
        rcases eq_or_ne x o with rfl|e
        · simp [hp]
        · simp [e]
      · intro p i hi
        have seated := h.seated p i hi
        rw [rest] at seated
        rwa [place_rest (by simp [call])]
    | connect | send =>
      cases hs
      exact h.stay (fun _ => rfl) rfl rfl rfl (Keeps.refl _) h.wf rfl (by simp [call]) h.seated rfl
        (by simp)
  · cases hs

theorem derefs_running {w : Worker} (h : w.derefs=true) : w.running=true := by
  cases w with
  | waiting | batch | user => cases h
  | _ => exact h

theorem next_running {i j : Impl} {w v : Worker} {r : Reply} {lines : Trace}
    (hn : w.next i r=some (j,v,lines)) : w.running=true := by
  cases w with
  | none | finished => cases hn
  | _ => simp [Worker.running]

/-- A step of a thread is one of its own `Impl`. -/
theorem Orderly.at_home (h : Orderly s) (p : Pointer) : s.target p=some p := by
  unfold Process.target
  split
  · rename_i deref
    exact h.loyal p (derefs_running deref)
  · rfl

theorem workerStep_orderly {p : Pointer} {r : Reply} (h : Orderly s)
    (hs : s.workerStep p r=some t) : Orderly t := by
  unfold Process.workerStep at hs
  rw [h.at_home] at hs
  obtain ⟨i,hp,hs⟩ := Option.bind_eq_some_iff.mp hs
  obtain ⟨u,hu,rfl⟩ := Option.map_eq_some_iff.mp hs
  obtain ⟨k,j,v,lines,hk,hn,rfl⟩ := workerStep_cases hu
  have ledger := workerStep_ledger hu
  have hk : s.kernel.answer ((s.threads p).worker.call i) r=some k := hk
  have hn : (s.threads p).worker.next i r=some (j,v,lines) := hn
  have seated := h.seated p i hp
  have news : (∃ rest,(s.threads p).worker=.read rest) ∧ r.endsStream=true →
      ((s.threads p).worker.drops r || (s.threads p).dropped)=true := by
    rintro ⟨⟨rest,hw⟩,ends⟩
    simp [hw,Worker.drops,ends]
  obtain ⟨next,keeps,fds⟩ := seated.worker news (fun old => by simp [old]) hk hn
  refine h.advance hp rfl rfl rfl rfl (answer_wf h.wf _ r hk) ?_ ?_ h.inside next ?_ ?_ ?_ ?_ rfl
  · show k.Agrees (TuyulNet.ledger _)
    rw [ledger]
    exact answer_agrees h.wf h.agrees _ r hk
  · rw [ledger]
    exact answer_disciplined h.wf h.agrees h.disciplined _ r
      (worker_names seated.fields seated.control.outside) hk
  · intro q i' ne hq
    refine ⟨(h.seated q i' hq).keeps keeps,?_⟩
    unfold Apart
    rw [fds]
    exact h.apart p q i i' (Ne.symm ne) hp hq
  · intro fd ho
    rw [fds]
    by_cases hm : fd∈i.fds
    · exact .inl hm
    · exact .inr ⟨(keeps fd).1.mp ho,hm⟩
  · exact fun _ => h.loyal p (next_running hn)
  · exact worker_fate seated.control.outside

theorem callback_orderly {p : Pointer} {rest : List PollEvent} (h : Orderly s)
    (hw : (s.threads p).worker=.user rest) : Orderly { s with
      threads := Function.update s.threads p { s.threads p with worker := .read rest } } := by
  obtain ⟨i,hp⟩ : ∃ i,s.heap p=some i := by
    by_contra hn
    have idle := h.unmanned p (by simpa [Option.eq_none_iff_forall_ne_some] using hn)
    rw [hw] at idle
    cases idle
  have seated := h.seated p i hp
  rw [hw] at seated
  refine h.advance hp rfl (by simp [hp]) rfl rfl h.wf h.agrees h.disciplined h.inside
    seated.callback ?_ ?_ ?_ h.fate rfl
  · exact fun q i' ne hq => ⟨h.seated q i' hq,h.apart p q i i' (Ne.symm ne) hp hq⟩
  · intro fd ho
    by_cases hm : fd∈i.fds
    · exact .inl hm
    · exact .inr ⟨ho,hm⟩
  · exact fun _ => h.loyal p (by simp [hw,Worker.running])

/-- What the application thread has in hand in the call on `o`. -/
theorem Orderly.in_call {o : Object} {a : App} {p : Pointer} {i : Impl} (h : Orderly s)
    (hc : s.collected=true) (call : s.call=some (o,a)) (ho : s.owner o=some p)
    (hp : s.heap p=some i) :
    Seated i a (s.threads p).worker s.kernel (s.threads p).dropped ∧
      (a.opens=true ∨ a=.destroyImpl → i.joinable=false) := by
  have seated := h.seated p i hp
  rw [place_inside call ho] at seated
  refine ⟨seated,fun ha => ?_⟩
  have quiet : (s.threads p).dropped=false := by
    have place : (a.opens || decide (a=.destroyImpl))=true := by simpa using ha
    simpa [Process.collected,Process.dropped,call,ho,place] using hc
  rw [quiet] at seated
  exact seated.free ha

/-- Only the destruction of the `Impl` ends an object. -/
theorem next_gone {i j : Impl} {a : App} {r : Reply} {lines : Trace}
    (hn : a.next i r=some (j,.gone,lines)) : a=.destroyImpl ∧ j=i := by
  cases a with
  | idle | gone => cases hn
  | destroyImpl =>
    cases r <;> cases hn
    exact ⟨rfl,rfl⟩
  | shutdown stage purpose =>
    obtain ⟨⟨j,more,lines⟩,-,heq⟩ := Option.map_eq_some_iff.mp hn
    have last := congrArg (fun x : Impl × App × Trace => x.2.1) heq
    cases more with
    | some stage => cases last
    | none =>
      cases purpose with
      | connect code => cases last
      | disconnect destroying => cases destroying <;> cases last
  | send x =>
    obtain ⟨⟨more,lines⟩,-,heq⟩ := Option.map_eq_some_iff.mp hn
    have last := congrArg (fun x : Impl × App × Trace => x.2.1) heq
    cases more <;> cases last
  | testDisconnect destroying =>
    cases r with
    | ok =>
      have last := congrArg (fun x : Impl × App × Trace => x.2.1) (Option.some.inj hn)
      simp only at last
      (repeat' split at last) <;> cases last
    | _ => cases hn
  | testConnected host port =>
    cases r with
    | ok =>
      simp only [App.next,dialNext] at hn
      split at hn <;> cases hn
    | _ => cases hn
  | _ => cases r <;> cases hn

/-- A call goes on, or has returned to its caller. -/
theorem goes_within {o : Object} {b : App} (hb : b≠.gone) :
    (∃ last,b=.idle last) ∨ b.within o=some (o,b) := by
  cases b with
  | idle last => exact .inl ⟨last,rfl⟩
  | gone => exact absurd rfl hb
  | _ => exact .inr rfl

/-- The `Impl`s of the other objects do not notice. -/
theorem Orderly.bystander {o : Object} {a : App} {p q : Pointer} {i i' j : Impl} {k : Kernel}
    (h : Orderly s) (call : s.call=some (o,a)) (ho : s.owner o=some p) (hp : s.heap p=some i)
    (ne : q≠p) (hq : s.heap q=some i') (passes : Passes i j s.kernel k) :
    Seated i' (.idle none) (s.threads q).worker k (s.threads q).dropped ∧ Apart j i' := by
  have rest : s.place q=.idle none := by
    apply place_rest
    intro o' a' hc ho'
    rw [call] at hc
    cases hc
    exact ne (Option.some.inj (ho'.symm.trans ho))
  have seated := h.seated q i' hq
  rw [rest] at seated
  have apart := h.apart p q i i' ne.symm hp hq
  constructor
  · apply seated.apart
    intro fd hm
    by_cases hi : fd∈i.fds
    · have free : ¬s.kernel.Owns fd := by
        rw [apart fd hi hm]
        exact minus_one_free h.wf
      exact ⟨fun ho => absurd ho free,fun ha => absurd (attached_owns ha) free⟩
    · exact passes.others fd hi
  · intro fd hj hm
    rcases passes.fresh fd hj with hi|e|free
    · exact apart fd hi hm
    · exact e
    · rcases mem_fds.mp hm with rfl|rfl
      · exact (seated.fields.client rfl).resolve_right free
      · exact (seated.fields.epoll rfl).resolve_right free

/-- Only `shutdown_pipeline` joins. -/
theorem join_only {i : Impl} {a : App} (away : ∀ purpose,a≠.shutdown .join purpose) :
    a.call i≠.threadJoin := by
  cases a with
  | shutdown stage purpose =>
    cases stage with
    | join => exact absurd rfl (away purpose)
    | _ => simp [App.call,Shutdown.call]
  | send x => cases x <;> simp [App.call,Sending.call]
  | _ => simp [App.call]

theorem appStep_orderly {r : Reply} (h : Orderly s) (hc : s.collected=true)
    (hs : s.appStep r=some t) : Orderly t := by
  unfold Process.appStep at hs
  split at hs
  · rename_i o a call
    obtain ⟨p,ho,hs⟩ := Option.bind_eq_some_iff.mp hs
    obtain ⟨i,hp,hs⟩ := Option.bind_eq_some_iff.mp hs
    obtain ⟨u,hu,rfl⟩ := Option.map_eq_some_iff.mp hs
    have ledger := appStep_ledger hu
    obtain ⟨runs,k,j,b,lines,hk,hn,rfl⟩ := appStep_cases hu
    have inside : s.place p=a := place_inside call ho
    simp only [Process.view,inside] at runs hk hn ledger ⊢
    obtain ⟨seated,free⟩ := h.in_call hc call ho hp
    have news (away : ∀ purpose,a≠.shutdown .join purpose) (old : (s.threads p).dropped=true) :
        (a.call i≠.threadJoin && (s.threads p).dropped)=true := by
      simp [old,join_only away]
    obtain ⟨next,passes⟩ := seated.app h.wf (fun ha => free (.inl ha)) news hk hn
    have wf := answer_wf h.wf _ r hk
    have agrees : k.Agrees (TuyulNet.ledger (lines++.call (a.call i) r::s.trace)) := by
      rw [ledger]
      exact answer_agrees h.wf h.agrees _ r hk
    have disciplined :
        Ledger.Disciplined (TuyulNet.ledger (lines++.call (a.call i) r::s.trace)) := by
      rw [ledger]
      exact answer_disciplined h.wf h.agrees h.disciplined _ r (app_names seated.fields) hk
    have fate : (a.fate i s.pipeSignal r).lifecycle=false :=
      app_fate (fun ha _ => seated.holds.unjoined (by rw [ha]; rfl)) fun ha => free (.inr ha)
    by_cases hb : b=.gone
    · subst hb
      obtain ⟨rfl,rfl⟩ := next_gone hn
      have unset := seated.control.unset rfl
      have spare := free (.inr rfl)
      obtain ⟨client,epoll⟩ := seated.holds.settled rfl unset spare
      refine h.drop (x := none) ho hp (by simp) rfl (by simp) rfl ?_ ?_ (answer_keeps rfl hk) wf
        agrees disciplined rfl ?_ ?_ fate rfl
      · exact fun q hq => Function.update_of_ne hq _ _
      · simpa [App.thread] using seated.control.unmanned (by simp [App.phase]) spare
      · intro q hq
        apply place_rest
        intro o' a' hc ho'
        rw [call] at hc
        cases hc
        exact hq (Option.some.inj (ho'.symm.trans ho))
      · intro fd hm
        have e : fd=-1 := by simpa [Impl.fds,client,epoll] using hm
        rw [e]
        exact minus_one_free h.wf
    · have goes := goes_within (o := o) hb
      refine h.advance hp (if_neg hb) (by simp [hb]) rfl rfl wf agrees disciplined ?_ ?_ ?_
        passes.only ?_ fate rfl
      · intro o' a' hc
        rcases goes with ⟨last,rfl⟩|goes
        · cases hc
        · have hc := goes.symm.trans hc
          cases hc
          simp [ho]
      · rcases goes with ⟨last,rfl⟩|goes
        · rw [place_rest (by simp [App.within])]
          exact next.rest
        · rw [place_inside goes (by simpa [Process.owner,hb] using ho)]
          exact next
      · intro q i' ne hq
        obtain ⟨rest,apart⟩ := h.bystander call ho hp ne hq passes
        refine ⟨?_,apart⟩
        rw [place_rest]
        · exact rest
        · intro o' a' hc ho'
          rcases goes with ⟨last,rfl⟩|goes
          · cases hc
          · have hc := goes.symm.trans hc
            cases hc
            have ho' : s.owner o=some q := by simpa [Process.owner,hb] using ho'
            exact ne (Option.some.inj (ho'.symm.trans ho))
      · intro hr
        by_cases ha : a=.spawn
        · simpa [ha] using ho
        · simp only [if_neg ha]
          apply h.loyal
          rcases app_thread a i r (s.threads p).worker [] with ⟨e,-⟩|⟨-,hw,-⟩|⟨-,hw,-⟩
          · exact absurd e ha
          · rw [hw] at hr
            cases hr
          · exact hw ▸ hr
  · cases hs

theorem step_orderly (s : Process) (a : Action) (t : Process) (h : Orderly s) (hc : Careful s a)
    (hs : machine.step s a=some t) : Orderly t := by
  simp only [machine_step,step] at hs
  split at hs
  · cases a with
    | construct o options loggerCb dataCb =>
      rw [Option.ite_none_right_eq_some] at hs
      exact construct_orderly h hs.1 hs.2
    | moveConstruct o src =>
      rw [Option.ite_none_right_eq_some] at hs
      obtain ⟨call,hs⟩ := hs
      unfold Process.moveConstruct at hs
      split at hs
      · rename_i m ho hsrc
        cases hs
        refine h.transfer hsrc (by simp [Process.owner,ho]) ?_ call hc
        rintro rfl
        rw [ho] at hsrc
        cases hsrc
      · cases hs
    | moveAssign o src =>
      rw [Option.ite_none_right_eq_some] at hs
      exact moveAssign_orderly h hs.1 hc hs.2
    | request o q =>
      rw [Option.ite_none_right_eq_some] at hs
      exact request_orderly h hs.1 hs.2
    | app r => exact appStep_orderly h hc hs
    | worker p r => exact workerStep_orderly h hs
    | callback p =>
      simp only at hs
      split at hs
      · rename_i rest hw
        cases hs
        exact callback_orderly h hw
      · cases hs
    | env e =>
      obtain ⟨k,hk,rfl⟩ := Option.map_eq_some_iff.mp hs
      exact h.stay (fun _ => rfl) rfl rfl rfl (env_keeps e hk) (env_wf h.wf e hk) rfl h.inside
        (fun p i hp => (h.seated p i hp).keeps (env_keeps e hk)) rfl h.crash
  · cases hs

/-- What a move leaves of the connection that its target had. -/
def Replaced (s u : Process) (o : Object) : Prop :=
  u.fate=.alive ∧ ∀ p∈s.owner o,∀ i∈s.heap p,i.joinable=false ∧ (u.threads p).worker=.none ∧
    ∀ fd∈i.fds,¬u.kernel.Owns fd

theorem moveAssign_replaces {o src : Object} (h : Orderly s) (hc : Careful s (.moveAssign o src))
    (ne : o≠src) (hs : machine.step s (.moveAssign o src)=some t) : Replaced s t o := by
  simp only [machine_step,step] at hs
  split at hs
  · rename_i alive
    rw [Option.ite_none_right_eq_some] at hs
    obtain ⟨call,hs⟩ := hs
    obtain ⟨-,vacant⟩ := hc.resolve_left ne
    unfold Process.moveAssign at hs
    split at hs
    · rename_i old m hold hsrc
      rw [if_neg ne] at hs
      cases old with
      | none =>
        cases hs
        refine ⟨alive.1,fun p hp => ?_⟩
        simp [Process.owner,hold] at hp
      | some p =>
        cases hs
        have ho : s.owner o=some p := by simp [Process.owner,hold]
        obtain ⟨i,hp⟩ := Option.isSome_iff_exists.mp (h.owned o p ho)
        have empty := h.vacant call ho hp vacant
        constructor
        · simp [Process.delete,Process.transfer,hp,empty.1,alive.1]
        · intro q hq j hj
          cases Option.some.inj (ho.symm.trans hq)
          cases Option.some.inj (hp.symm.trans hj)
          exact empty
    · cases hs
  · cases hs

end orderly

/-- In a careful run no thread loses its `Impl`, none is left in a handle that is destroyed or
overwritten, a move onto an object leaves nothing of what it had, and when all objects are gone
every descriptor has been closed as often as it was obtained. -/
theorem moves_keep_whole (pipeSignal : Bool) (foreign : List Fd) (as : List Action) (t : Process)
    (hc : machine.Meets Careful (boot pipeSignal foreign) as)
    (hr : machine.run (boot pipeSignal foreign) as=some t) :
    (t.Loyal ∧ t.crash≠.worker ∧ t.fate.lifecycle=false) ∧
      (∀ o src u,o≠src → Careful t (.moveAssign o src) →
        machine.step t (.moveAssign o src)=some u → Replaced t u o) ∧
      Ledger.Disciplined (ledger t.trace) ∧
      ((∀ o,t.objects o=none) → ∀ fd,Ledger.held fd (ledger t.trace)=false ∧
        Ledger.released fd (ledger t.trace)=Ledger.acquired fd (ledger t.trace)) := by
  have h := machine.invariant step_orderly as _ t (boot_orderly pipeSignal foreign) hc hr
  refine ⟨⟨h.loyal',h.crash,h.fate⟩,fun o src u ne ha hs => moveAssign_replaces h ha ne hs,
    h.disciplined,fun gone fd => ?_⟩
  have free : Ledger.held fd (ledger t.trace)=false := by
    by_contra hh
    obtain ⟨p,i,hp,-⟩ := h.only fd ((h.agrees fd).mp (by simpa using hh))
    obtain ⟨o,ho⟩ := h.owner p (by simp [hp])
    simp [Process.owner,gone o] at ho
  exact ⟨free,Ledger.released_of_free fd _ h.disciplined free⟩

/-- Object 0 connects, with descriptor 3 and epoll instance 4. -/
def dialed : List Action :=
  [.construct 0 {} false true,.request 0 (.connect "localhost" 8080),.app .ok,.app (.addr 0),
    .app (.fd 3),.app .ok,.app .ok,.app (.flags 2),.app .ok,.app (.fd 4),.app .ok,.app .ok,
    .app .ok,.app .ok]

/-- It disconnects, hands its `Impl` on twice, and all three objects go. -/
def handedOn : List Action :=
  dialed++[.request 0 .disconnect,.app .ok,.app .ok,.app .ok,.worker 0 .ok,.worker 0 .ok,
    .app .ok,.app .ok,.app .ok,.app .ok,.app .ok,.app .ok,.app .ok,.moveConstruct 1 0,
    .construct 2 {} false true,.moveAssign 2 1,.request 0 .destroy,.request 1 .destroy,
    .request 2 .destroy,.app .ok,.app .ok]

/-- The object that an action brings into being. -/
def Action.makes : Action → Option Object
  | .construct o _ _ _ | .moveConstruct o _ => some o
  | _ => none

theorem step_objects {s t : Process} {a : Action} {o : Object} (h : s.objects o=none)
    (ha : a.makes≠some o) (hs : machine.step s a=some t) : t.objects o=none := by
  have other {x : Object} {y : Option (Option Pointer)} {z : Option Pointer}
      (hx : s.objects x=some z) : Function.update s.objects x y o=none := by
    rw [Function.update_of_ne]
    · exact h
    · rintro rfl
      rw [h] at hx
      cases hx
  simp only [machine_step,step] at hs
  split at hs
  · cases a with
    | construct x options loggerCb dataCb =>
      simp only [Process.construct,Option.ite_none_right_eq_some] at hs
      obtain ⟨-,-,hs⟩ := hs
      cases hs
      exact (Function.update_of_ne (fun e => ha (by rw [e]; rfl)) ..).trans h
    | moveConstruct x src =>
      rw [Option.ite_none_right_eq_some] at hs
      unfold Process.moveConstruct at hs
      split at hs
      · rename_i m hx hsrc
        cases hs.2
        exact (Function.update_of_ne (fun e => ha (by rw [e]; rfl)) ..).trans (other hsrc)
      · cases hs.2
    | moveAssign x src =>
      rw [Option.ite_none_right_eq_some] at hs
      unfold Process.moveAssign at hs
      split at hs
      · rename_i old m hx hsrc
        have ne : o≠x := by
          rintro rfl
          rw [h] at hx
          cases hx
        have moved : (s.transfer x src m).objects o=none :=
          (Function.update_of_ne ne ..).trans (other hsrc)
        obtain ⟨-,hs⟩ := hs
        split at hs
        · cases hs
          exact h
        · cases old <;> cases hs <;> exact moved
      · cases hs.2
    | request x q =>
      rw [Option.ite_none_right_eq_some] at hs
      obtain ⟨-,hs⟩ := hs
      unfold Process.request at hs
      split at hs
      · cases hs
        exact h
      · rename_i hx
        cases q <;> cases hs <;> first
          | exact h
          | exact other hx
      · cases hs
    | app r =>
      have hs : s.appStep r=some t := hs
      unfold Process.appStep at hs
      split at hs
      · rename_i x place hc
        obtain ⟨p,hp,hs⟩ := Option.bind_eq_some_iff.mp hs
        obtain ⟨i,-,hs⟩ := Option.bind_eq_some_iff.mp hs
        obtain ⟨u,-,rfl⟩ := Option.map_eq_some_iff.mp hs
        show (if u.app=.gone then _ else s.objects) o=none
        obtain ⟨m,hm⟩ : ∃ m,s.objects x=some m := by
          cases hx : s.objects x with
          | none => simp [Process.owner,hx] at hp
          | some m => exact ⟨m,rfl⟩
        split
        · exact other hm
        · exact h
      · cases hs
    | worker p r =>
      have hs : s.workerStep p r=some t := hs
      unfold Process.workerStep at hs
      split at hs
      · obtain ⟨i,-,hs⟩ := Option.bind_eq_some_iff.mp hs
        obtain ⟨u,-,rfl⟩ := Option.map_eq_some_iff.mp hs
        exact h
      · cases hs
        exact h
    | callback p =>
      simp only at hs
      split at hs <;> cases hs
      exact h
    | env e =>
      obtain ⟨k,-,rfl⟩ := Option.map_eq_some_iff.mp hs
      exact h
  · cases hs

theorem moves_keep_whole_handed_on : ∃ t,machine.run (boot true []) handedOn=some t ∧
    (∀ o,t.objects o=none) ∧ Ledger.acquired 3 (ledger t.trace)=1 ∧
    Ledger.released 3 (ledger t.trace)=1 ∧ Ledger.held 3 (ledger t.trace)=false := by
  have run : (machine.run (boot true []) handedOn).map (fun t =>
      ((t.objects 0,t.objects 1,t.objects 2),Ledger.acquired 3 (ledger t.trace)))=
        some ((none,none,none),1) := by
    decide +kernel
  obtain ⟨t,ht,seen⟩ := Option.map_eq_some_iff.mp run
  obtain ⟨objects,once⟩ := Prod.mk.injEq .. ▸ seen
  obtain ⟨first,second,third⟩ := Prod.mk.injEq .. ▸ Prod.mk.injEq .. ▸ objects
  have gone (o : Object) : t.objects o=none := by
    match o with
    | 0 => exact first
    | 1 => exact second
    | 2 => exact third
    | o+3 =>
      refine machine.invariant (I := fun s => s.objects (o+3)=none)
        (C := fun _ a => a.makes≠some (o+3)) (fun s a t h ha hs => step_objects h ha hs)
        handedOn _ t rfl ?_ ht
      refine Machine.Meets.of_actions machine _ (fun a ha => ?_) _
      have small : ∀ a∈handedOn,∀ x∈a.makes,x<3 := by decide
      exact fun hx => absurd (small a ha _ hx) (Nat.not_lt.mpr (Nat.le_add_left 3 o))
  obtain ⟨-,-,-,closed⟩ := moves_keep_whole true [] handedOn t (by decide +kernel) ht
  obtain ⟨free,balanced⟩ := closed gone 3
  exact ⟨t,ht,gone,once,balanced.trans once,free⟩

/-- A client that is moved while it is connected leaves its thread behind, and one that is moved
to takes the process with it. -/
theorem move_strands_worker :
    (¬∀ as t,machine.run (boot true []) as=some t → t.Loyal) ∧
      ¬∀ as t,machine.run (boot true []) as=some t → t.fate.lifecycle=false := by
  constructor
  · intro h
    have run : (machine.run (boot true []) (dialed++[.moveConstruct 1 0])).map (fun t =>
        ((t.threads 0).worker.running,t.owner (t.threads 0).this))=some (true,none) := by
      decide +kernel
    obtain ⟨t,ht,seen⟩ := Option.map_eq_some_iff.mp run
    obtain ⟨running,lost⟩ := Prod.mk.injEq .. ▸ seen
    have mine := (h _ t ht 0 running).1
    rw [lost] at mine
    cases mine
  · intro h
    have run : (machine.run (boot true [])
        (dialed++[.construct 1 {} false true,.moveAssign 0 1])).map Process.fate=
          some .destroyedJoinable := by
      decide +kernel
    obtain ⟨t,ht,seen⟩ := Option.map_eq_some_iff.mp run
    have safe := h _ t ht
    rw [seen] at safe
    cases safe

end Process

end TuyulNet.Client
