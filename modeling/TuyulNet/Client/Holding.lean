import TuyulNet.Client.Descriptors

namespace TuyulNet.Client

open Framework Kernel

/-- Between calls, and in the steps that neither open nor close anything. -/
def App.settled : App → Bool
  | .idle _ | .testConnected _ _ | .lookup _ _ | .socket _ | .freeFailed _ | .freeRefused _
  | .send _ | .testDisconnect _ | .destroyImpl | .gone => true
  | _ => false

/-- There is no epoll instance yet, or it is gone already. -/
def App.unpolled : App → Bool
  | .connect _ | .closeRefused _ | .clearRefused _ | .freeConnected _ | .getFl _ | .setFl _ _
  | .epollCreate | .shutdown .testClient _ | .shutdown .closeClient _
  | .shutdown .clearClient _ => true
  | _ => false

def App.opens : App → Bool
  | .socket _ => true
  | _ => false

/-- `connect_to` from the call of `socket` on; there is no thread yet. -/
def App.dialed : App → Bool
  | .freeFailed _ | .connect _ | .closeRefused _ | .clearRefused _ | .freeRefused _
  | .freeConnected _ | .getFl _ | .setFl _ _ | .epollCreate | .epollAdd | .setConnected
  | .spawn => true
  | _ => false

/-- What one `Impl` knows of its descriptors, whatever else is open in the process. -/
structure Holds (i : Impl) (a : App) (k : Kernel) : Prop where
  client : a.clearsClient=true → ¬k.Owns i.clientFd
  epoll : a.clearsEpoll=true → ¬k.Owns i.epollFd
  settled : a.settled=true → i.isConnected=false → i.joinable=false →
    i.clientFd=-1 ∧ i.epollFd=-1
  unpolled : a.unpolled=true → i.epollFd=-1
  unjoined : a.dialed=true → i.joinable=false
  armed : a=.spawn → i.isConnected=true

/-- The numbers that the two fields hold. -/
def Impl.fds (i : Impl) : List Fd := [i.clientFd,i.epollFd]

/-- What a step in the code of one `Impl` does to the descriptors of the process. -/
structure Passes (i j : Impl) (k l : Kernel) : Prop where
  others : ∀ fd,fd∉i.fds → (k.Owns fd → l.Owns fd) ∧ (k.Attached fd → l.Attached fd)
  only : ∀ fd,l.Owns fd → fd∈j.fds ∨ k.Owns fd ∧ fd∉i.fds
  fresh : ∀ fd∈j.fds,fd∈i.fds ∨ fd=-1 ∨ ¬k.Owns fd

section holding

variable {i j : Impl} {a b : App} {w v : Worker} {k l : Kernel} {r : Reply} {lines : Trace}
  {pending pending' : Bool}

theorem minus_one_free (hw : k.Wf) : ¬k.Owns (-1) :=
  fun ho => absurd (owns_nonneg hw ho) (by decide)

theorem close_free (x : Fd) : ¬(k.close x).Owns x := fun ho => ((close_owns x x).mp ho).1 rfl

theorem mem_fds {fd : Fd} : fd∈i.fds ↔ fd=i.clientFd ∨ fd=i.epollFd := by simp [Impl.fds]

theorem fds_congr (hc : j.clientFd=i.clientFd) (he : j.epollFd=i.epollFd) : j.fds=i.fds := by
  rw [Impl.fds,hc,he,Impl.fds]

theorem Passes.keeps (hk : k.Keeps l) (hf : j.fds=i.fds) : Passes i j k l where
  others := fun fd _ => ⟨(hk fd).1.mpr,(hk fd).2.mpr⟩
  only := by
    intro fd ho
    rw [hf]
    by_cases h : fd∈i.fds
    · exact .inl h
    · exact .inr ⟨(hk fd).1.mp ho,h⟩
  fresh := fun fd h => .inl (hf ▸ h)

/-- Forgetting descriptors that are not open any more. -/
theorem Passes.forget (hc : j.clientFd=i.clientFd ∨ j.clientFd=-1 ∧ ¬k.Owns i.clientFd)
    (he : j.epollFd=i.epollFd ∨ j.epollFd=-1 ∧ ¬k.Owns i.epollFd) : Passes i j k k where
  others := fun _ _ => ⟨id,id⟩
  only := by
    intro fd ho
    by_cases h : fd∈i.fds
    · left
      rcases mem_fds.mp h with rfl|rfl
      · exact mem_fds.mpr (.inl (hc.resolve_right fun free => free.2 ho).symm)
      · exact mem_fds.mpr (.inr (he.resolve_right fun free => free.2 ho).symm)
    · exact .inr ⟨ho,h⟩
  fresh := by
    intro fd h
    rcases mem_fds.mp h with rfl|rfl
    · rcases hc with hc|⟨hc,-⟩
      · exact .inl (mem_fds.mpr (.inl hc))
      · exact .inr (.inl hc)
    · rcases he with he|⟨he,-⟩
      · exact .inl (mem_fds.mpr (.inr he))
      · exact .inr (.inl he)

theorem Passes.close {x : Fd} (hx : x∈i.fds) : Passes i i k (k.close x) where
  others := by
    intro fd h
    have ne : fd≠x := fun e => h (e ▸ hx)
    exact ⟨fun ho => (close_owns x fd).mpr ⟨ne,ho⟩,fun ha => (close_attached x fd).mpr ⟨ne,ha⟩⟩
  only := by
    intro fd ho
    by_cases h : fd∈i.fds
    · exact .inl h
    · exact .inr ⟨((close_owns x fd).mp ho).2,h⟩
  fresh := fun _ h => .inl h

/-- Nothing happened to the descriptors of the process. -/
theorem Holds.keeps (h : Holds i a k) (hk : k.Keeps l) : Holds i a l :=
  { h with
    client := fun hc ho => h.client hc ((hk _).1.mp ho)
    epoll := fun hc ho => h.epoll hc ((hk _).1.mp ho) }

/-- Between two calls, or at the first statement of one. -/
theorem Holds.between (h : Holds i a k) (ha : a.settled=true)
    (clears : b.clearsClient=false ∧ b.clearsEpoll=false)
    (plain : b.unpolled=false ∧ b.dialed=false ∧ b≠.spawn) : Holds i b k where
  client := by simp [clears]
  epoll := by simp [clears]
  settled := fun _ => h.settled ha
  unpolled := by simp [plain]
  unjoined := by simp [plain]
  armed := fun e => absurd e plain.2.2

theorem entry_plain (q : Request) : (q.entry.clearsClient=false ∧ q.entry.clearsEpoll=false) ∧
    q.entry.unpolled=false ∧ q.entry.dialed=false ∧ q.entry≠.spawn := by
  cases q <;> exact ⟨⟨rfl,rfl⟩,rfl,rfl,by simp [Request.entry]⟩

/-- A step that leaves both fields alone. -/
theorem Holds.goto (h : Holds i a k) (hk : k.Keeps l) (hc : j.clientFd=i.clientFd)
    (he : j.epollFd=i.epollFd) (clears : b.clearsClient=false ∧ b.clearsEpoll=false)
    (settle : b.settled=true → j.isConnected=false → j.joinable=false →
      a.settled=true ∧ i.isConnected=false ∧ i.joinable=false)
    (poll : b.unpolled=true → i.epollFd=-1) (dial : b.dialed=true → j.joinable=false)
    (arm : b=.spawn → j.isConnected=true) : Holds j b l ∧ Passes i j k l := by
  refine ⟨?_,.keeps hk (fds_congr hc he)⟩
  constructor
  · simp [clears]
  · simp [clears]
  · rw [hc,he]
    intro hb hj hf
    obtain ⟨ha,hi,hg⟩ := settle hb hj hf
    exact h.settled ha hi hg
  · rwa [he]
  · exact dial
  · exact arm

/-- A step to a place where only the fields matter. -/
theorem Holds.unset (hc : b.clearsClient=true → ¬k.Owns i.clientFd)
    (he : b.clearsEpoll=true → ¬k.Owns i.epollFd)
    (settle : b.settled=true → i.clientFd=-1 ∧ i.epollFd=-1)
    (poll : b.unpolled=true → i.epollFd=-1) (dial : b.dialed=true → i.joinable=false)
    (hb : b≠.spawn) : Holds i b k where
  client := hc
  epoll := he
  settled := fun hs _ _ => settle hs
  unpolled := poll
  unjoined := dial
  armed := fun e => absurd e hb

theorem socket_holds {res : Nat} (h : Holds i (.socket res) k) (hw : k.Wf)
    (flag : i.isConnected=false) (free : i.joinable=false) (hk : k.answer .socket r=some l)
    (hn : dialNext i (.socket res) r=some (j,b,lines)) : Holds j b l ∧ Passes i j k l := by
  obtain ⟨client,epoll⟩ := h.settled rfl flag free
  have gone (fd : Fd) (ho : k.Owns fd) : fd∉i.fds := by
    rw [Impl.fds,client,epoll]
    rintro h
    have e : fd=-1 := by simpa using h
    exact minus_one_free hw (e ▸ ho)
  rcases answerOpen_cases hk with ⟨n,rfl,hf,rfl⟩|⟨e,rfl,rfl⟩
  · cases hn
    have unused : k.table n=none := ((k.fresh_iff n).mp hf).2
    have owns := install_owns (k := k) (n := n) (f := .sock 0) (by simp)
    constructor
    · apply Holds.unset <;> simp [App.clearsClient,App.clearsEpoll,App.settled,epoll,free]
    · constructor
      · intro fd _
        refine ⟨fun ho => (owns fd).mpr (.inr ho),?_⟩
        exact (install_attached (by simp [unused]) (by simp) fd).mpr
      · intro fd ho
        rcases (owns fd).mp ho with e|ho
        · exact .inl (mem_fds.mpr (.inl e))
        · exact .inr ⟨ho,gone fd ho⟩
      · intro fd h
        rcases mem_fds.mp h with rfl|rfl
        · right; right
          rintro ⟨f,hf,-⟩
          rw [unused] at hf
          cases hf
        · exact .inl (mem_fds.mpr (.inr rfl))
  · cases hn
    refine ⟨?_,.forget (.inr ⟨rfl,?_⟩) (.inl rfl)⟩
    · apply Holds.unset <;>
        simp [App.clearsClient,App.clearsEpoll,App.settled,App.unpolled,epoll,free]
    · rw [client]
      exact minus_one_free hw

theorem connect_holds {res : Nat} (h : Holds i (.connect res) k)
    (hk : k.answer (.connect i.clientFd res) r=some l)
    (hn : dialNext i (.connect res) r=some (j,b,lines)) : Holds j b l ∧ Passes i j k l := by
  have epoll := h.unpolled rfl
  have free := h.unjoined rfl
  rcases connect_cases hk with ⟨rfl,-⟩|⟨e,rfl,rfl⟩
  · cases hn
    obtain ⟨owns,attached⟩ := connect_attached hk
    constructor
    · apply Holds.unset <;> simp [App.clearsClient,App.clearsEpoll,App.settled,epoll,free]
    · constructor
      · exact fun fd _ => ⟨(owns fd).mpr,fun ha => (attached fd).mpr (.inr ha)⟩
      · intro fd ho
        by_cases h : fd∈i.fds
        · exact .inl h
        · exact .inr ⟨(owns fd).mp ho,h⟩
      · exact fun _ h => .inl h
  · cases hn
    refine ⟨?_,.keeps (Keeps.refl _) rfl⟩
    apply Holds.unset <;> simp [App.clearsClient,App.clearsEpoll,App.settled,epoll,free]

theorem refused_holds {res : Nat} (h : Holds i (.closeRefused res) k)
    (hk : k.answer (.close i.clientFd) r=some l)
    (hn : dialNext i (.closeRefused res) r=some (j,b,lines)) : Holds j b l ∧ Passes i j k l := by
  have next : j=i ∧ b=.clearRefused res := by
    cases r <;> cases hn <;> exact ⟨rfl,rfl⟩
  obtain ⟨rfl,rfl⟩ := next
  have epoll := h.unpolled rfl
  have free := h.unjoined rfl
  rw [(answerClose_cases hk).1]
  refine ⟨?_,.close (mem_fds.mpr (.inl rfl))⟩
  apply Holds.unset
  · exact fun _ => close_free _
  all_goals simp [App.clearsEpoll,App.settled,epoll,free]

theorem epoll_holds (h : Holds i .epollCreate k) (hw : k.Wf)
    (hk : k.answer .epollCreate r=some l)
    (hn : hookNext i .epollCreate r=some (j,b,lines)) : Holds j b l ∧ Passes i j k l := by
  have epoll := h.unpolled rfl
  have free := h.unjoined rfl
  rcases answerEpollCreate_cases hk with ⟨n,rfl,hf,rfl⟩|⟨e,rfl,rfl⟩
  · cases hn
    have unused : k.table n=none := ((k.fresh_iff n).mp hf).2
    have owns (x : Fd) : ({ k.install n .epoll with
        polls := Function.update k.polls n .empty } : Kernel).Owns x ↔ x=n ∨ k.Owns x :=
      install_owns (by simp) x
    constructor
    · apply Holds.unset <;> simp [App.clearsClient,App.clearsEpoll,App.settled,App.unpolled,free]
    · constructor
      · intro fd _
        refine ⟨fun ho => (owns fd).mpr (.inr ho),?_⟩
        exact (install_attached (n := n) (f := .epoll) (by simp [unused]) (by simp) fd).mpr
      · intro fd ho
        rcases (owns fd).mp ho with e|ho
        · exact .inl (mem_fds.mpr (.inr e))
        · by_cases h : fd∈i.fds
          · rcases mem_fds.mp h with e|e
            · exact .inl (mem_fds.mpr (.inl e))
            · rw [e,epoll] at ho
              exact absurd ho (minus_one_free hw)
          · exact .inr ⟨ho,h⟩
      · intro fd h
        rcases mem_fds.mp h with rfl|rfl
        · exact .inl (mem_fds.mpr (.inl rfl))
        · right; right
          rintro ⟨f,hf,-⟩
          rw [unused] at hf
          cases hf
  · cases hn
    refine ⟨?_,.forget (.inl rfl) (.inr ⟨rfl,?_⟩)⟩
    · apply Holds.unset <;>
        simp [App.clearsClient,App.clearsEpoll,App.settled,App.unpolled,App.dialed]
    · rw [epoll]
      exact minus_one_free hw

/-- The fields as they are at the end of `shutdown_pipeline`, or on the way there. -/
theorem closing_holds {stage : Shutdown} {purpose : Purpose}
    (h : Holds i (.shutdown stage purpose) k) (hw : k.Wf)
    (hf : Fields i (.shutdown stage purpose) w k)
    (closing : (App.shutdown stage purpose).phase=.closing)
    (hk : k.answer (stage.call i) r=some l)
    (hn : callNext i (.shutdown stage purpose) r=some (j,b,lines)) :
    Holds j b l ∧ Passes i j k l := by
  obtain ⟨clearsC,clearsE,-,-,-⟩ := resume_plain purpose
  have plain : purpose.resume.unpolled=false ∧ purpose.resume.dialed=false ∧
      purpose.resume≠.spawn := by
    cases purpose with
    | connect code => exact ⟨rfl,rfl,by simp [Purpose.resume]⟩
    | disconnect destroying => cases destroying <;> exact ⟨rfl,rfl,by simp [Purpose.resume]⟩
  obtain ⟨⟨j,more,lines⟩,hs,heq⟩ := Option.map_eq_some_iff.mp hn
  cases heq
  have stop {x : Fd} (hx : x=-1 ∨ k.Owns x) (h0 : ¬0≤x) : x=-1 :=
    hx.resolve_right fun ho => h0 (owns_nonneg hw ho)
  cases stage with
  | clearFlag | testJoin | join => cases closing
  | testEpoll =>
    cases r <;> cases hs
    cases hk
    refine ⟨?_,.keeps (Keeps.refl _) rfl⟩
    by_cases he : 0 ≤ i.epollFd
    · rw [if_pos he]
      apply Holds.unset <;>
        simp [App.clearsClient,App.clearsEpoll,App.settled,App.unpolled,App.dialed]
    · rw [if_neg he]
      apply Holds.unset <;> simp [App.clearsClient,App.clearsEpoll,App.settled,App.dialed]
      exact fun _ => stop (hf.epoll rfl) he
  | closeEpoll =>
    rw [(answerClose_cases hk).1]
    have next : j=i ∧ more=some .clearEpoll := by
      cases r <;> cases hs <;> exact ⟨rfl,rfl⟩
    obtain ⟨rfl,rfl⟩ := next
    refine ⟨?_,.close (mem_fds.mpr (.inr rfl))⟩
    apply Holds.unset
    · simp [App.clearsClient]
    · exact fun _ => close_free _
    all_goals simp [App.settled,App.unpolled,App.dialed]
  | clearEpoll =>
    cases r <;> cases hs
    cases hk
    refine ⟨?_,.forget (.inl rfl) (.inr ⟨rfl,h.epoll rfl⟩)⟩
    apply Holds.unset <;> simp [App.clearsClient,App.clearsEpoll,App.settled,App.dialed]
  | testClient =>
    cases r <;> cases hs
    cases hk
    have epoll := h.unpolled rfl
    refine ⟨?_,.keeps (Keeps.refl _) rfl⟩
    by_cases hc : 0 ≤ i.clientFd
    · rw [if_pos hc]
      apply Holds.unset <;> simp [App.clearsClient,App.clearsEpoll,App.settled,App.dialed,epoll]
    · rw [if_neg hc]
      apply Holds.unset <;> simp [clearsC,clearsE,plain,epoll]
      exact fun _ => stop (hf.client rfl) hc
  | closeClient =>
    rw [(answerClose_cases hk).1]
    have next : j=i ∧ more=some .clearClient := by
      cases r <;> cases hs <;> exact ⟨rfl,rfl⟩
    obtain ⟨rfl,rfl⟩ := next
    have epoll := h.unpolled rfl
    refine ⟨?_,.close (mem_fds.mpr (.inl rfl))⟩
    apply Holds.unset
    · exact fun _ => close_free _
    all_goals simp [App.clearsEpoll,App.settled,App.dialed,epoll]
  | clearClient =>
    cases r <;> cases hs
    cases hk
    have epoll := h.unpolled rfl
    refine ⟨?_,.forget (.inr ⟨rfl,h.client rfl⟩) (.inl rfl)⟩
    apply Holds.unset <;> simp [clearsC,clearsE,plain,epoll]

theorem app_holds (hw : k.Wf) (hf : Fields i a w k) (h : Holds i a k)
    (hc : Control i a.phase w true) (opens : a.opens=true → i.joinable=false)
    (hk : k.answer (a.call i) r=some l) (hn : a.next i r=some (j,b,lines)) :
    Holds j b l ∧ Passes i j k l := by
  cases a with
  | idle | gone => cases hn
  | testConnected host port =>
    cases r <;> (try cases hn)
    have hn : (if i.isConnected=true then _ else _)=_ := hn
    split at hn <;> cases hn <;> apply h.goto (answer_keeps rfl hk) rfl rfl ⟨rfl,rfl⟩ <;>
      simp_all [App.settled,App.unpolled,App.dialed]
  | socket res => exact socket_holds h hw (hc.unset rfl) (opens rfl) hk hn
  | connect res => exact connect_holds h hk hn
  | closeRefused res => exact refused_holds h hk hn
  | clearRefused res =>
    cases r <;> cases hn
    cases hk
    have epoll := h.unpolled rfl
    have free := h.unjoined rfl
    refine ⟨?_,.forget (.inr ⟨rfl,h.client rfl⟩) (.inl rfl)⟩
    apply Holds.unset <;>
      simp [App.clearsClient,App.clearsEpoll,App.settled,App.unpolled,epoll,free]
  | epollCreate => exact epoll_holds h hw hk hn
  | lookup host port | freeFailed res | freeRefused res | destroyImpl =>
    cases r <;> cases hn <;> apply h.goto (answer_keeps rfl hk) rfl rfl ⟨rfl,rfl⟩ <;>
      simp_all [App.settled,App.unpolled,App.dialed]
  | freeConnected res | getFl fd | setFl fd flags =>
    have epoll := h.unpolled rfl
    have free := h.unjoined rfl
    cases r <;> cases hn <;> apply h.goto (answer_keeps rfl hk) rfl rfl ⟨rfl,rfl⟩ <;>
      simp_all [App.settled,App.dialed]
  | epollAdd =>
    have free := h.unjoined rfl
    cases r <;> cases hn <;> apply h.goto (answer_keeps rfl hk) rfl rfl ⟨rfl,rfl⟩ <;>
      simp_all [App.settled,App.unpolled,App.dialed]
  | setConnected =>
    have free := h.unjoined rfl
    cases r <;> cases hn
    refine h.goto (answer_keeps rfl hk) ?_ ?_ ⟨rfl,rfl⟩ ?_ ?_ ?_ ?_ <;>
      simp_all [App.settled,App.unpolled,App.dialed]
  | spawn =>
    have up := h.armed rfl
    cases r <;> cases hn <;> apply h.goto (answer_keeps rfl hk) rfl rfl ⟨rfl,rfl⟩ <;>
      simp_all [App.settled,App.unpolled,App.dialed]
  | assign =>
    cases r <;> cases hn
    refine h.goto (answer_keeps rfl hk) ?_ ?_ ⟨rfl,rfl⟩ ?_ ?_ ?_ ?_ <;>
      simp_all [App.settled,App.unpolled,App.dialed]
  | testDisconnect destroying =>
    cases r <;> cases hn
    apply h.goto (answer_keeps rfl hk) rfl rfl <;> (repeat' split) <;>
      simp_all [App.settled,App.unpolled,App.dialed,App.clearsClient,App.clearsEpoll]
  | send x =>
    obtain ⟨⟨more,lines⟩,hs,heq⟩ := Option.map_eq_some_iff.mp hn
    cases heq
    have steady : (x.call i).steady=true := by cases x <;> rfl
    cases more <;> apply h.goto (answer_keeps steady hk) rfl rfl ⟨rfl,rfl⟩ <;>
      simp_all [App.settled,App.unpolled,App.dialed]
  | shutdown stage purpose =>
    by_cases hp : (App.shutdown stage purpose).phase=.closing
    · exact closing_holds h hw hf hp hk hn
    · cases stage with
      | clearFlag | join =>
        cases r <;> cases hn
        refine h.goto (answer_keeps rfl hk) ?_ ?_ ⟨rfl,rfl⟩ ?_ ?_ ?_ ?_ <;>
          simp_all [App.settled,App.unpolled,App.dialed]
      | testJoin =>
        cases r <;> cases hn
        by_cases hj : i.joinable=true
        · rw [if_pos hj]
          apply h.goto (answer_keeps rfl hk) rfl rfl ⟨rfl,rfl⟩ <;>
            simp [App.settled,App.unpolled,App.dialed]
        · rw [if_neg hj]
          apply h.goto (answer_keeps rfl hk) rfl rfl ⟨rfl,rfl⟩ <;>
            simp [App.settled,App.unpolled,App.dialed]
      | _ => exact absurd rfl hp

theorem settled_phase (ha : a.settled=true) :
    a.phase≠.assigning ∧ a.phase≠.clearing ∧ a.phase≠.joining := by
  cases a with
  | idle last => cases last with
    | none => simp [App.phase]
    | some o => cases o <;> simp [App.phase]
  | shutdown stage purpose => cases ha
  | assign => cases ha
  | _ => simp [App.phase]

/-- The worker opens and closes nothing, and clears the flag only while its handle stands for
it. -/
theorem worker_holds (h : Holds i a k) (hc : Control i a.phase w true)
    (hk : k.answer (w.call i) r=some l) (hn : w.next i r=some (j,v,lines)) :
    Holds j a l ∧ k.Keeps l ∧ j.fds=i.fds := by
  obtain ⟨quiet,client,epoll,-⟩ := worker_keeps hc.outside hn
  obtain ⟨was,-,handle,-,flag,-⟩ := worker_moves hc.outside hn
  have keeps := answer_keeps (quiet_steady quiet) hk
  have manned (hp : a.phase≠.assigning) : i.joinable=true := by
    by_contra hj
    exact was (hc.unmanned hp (by simpa using hj))
  refine ⟨?_,keeps,fds_congr client epoll⟩
  constructor
  · rw [client]
    exact fun hb ho => h.client hb ((keeps _).1.mp ho)
  · rw [epoll]
    exact fun hb ho => h.epoll hb ((keeps _).1.mp ho)
  · intro ha hi hj
    rw [← handle,hj] at manned
    cases manned (settled_phase ha).1
  · rw [epoll]
    exact h.unpolled
  · rw [handle]
    exact h.unjoined
  · rintro rfl
    have up := manned (by simp [App.phase])
    rw [h.unjoined rfl] at up
    cases up

/-- What is known of an `Impl` and its thread between any two steps, and of the news of a drop. -/
structure Seated (i : Impl) (a : App) (w : Worker) (k : Kernel) (pending : Bool) : Prop where
  control : Control i a.phase w pending
  asks : w.asksDisconnect=false
  fields : Fields i a w k
  holds : Holds i a k

theorem Seated.fresh (options : TcpOptions) (loggerCb dataCb : Bool) (k : Kernel)
    (pending : Bool) : Seated { options,loggerCb,dataCb } (.idle none) .none k pending := by
  refine ⟨?_,rfl,?_,?_⟩
  · constructor <;> simp [Worker.busy,Phase.unset,App.phase,Worker.shutting]
  · constructor <;> simp [App.linked,App.polled,App.copied,Worker.busy]
  · constructor <;> simp [App.clearsClient,App.clearsEpoll,App.unpolled,App.dialed]

theorem Seated.app (h : Seated i a w k pending) (hw : k.Wf)
    (opens : a.opens=true → i.joinable=false)
    (more : (∀ purpose,a≠.shutdown .join purpose) → pending=true → pending'=true)
    (hk : k.answer (a.call i) r=some l) (hn : a.next i r=some (j,b,lines)) :
    Seated j b (a.thread i r w) l pending' ∧ Passes i j k l := by
  have control := h.control.weaken fun _ => rfl
  obtain ⟨holds,passes⟩ := app_holds hw h.fields h.holds control opens hk hn
  refine ⟨⟨h.control.app hn more,?_,app_fields hw h.fields control hk hn,holds⟩,passes⟩
  unfold App.thread
  split
  · split
    · exact h.asks
    · rfl
  · rfl
  · exact h.asks

/-- Without news of a drop no thread is left behind where a socket is opened, or where the `Impl`
is destroyed. -/
theorem Seated.free (h : Seated i a w k false) (place : a.opens=true ∨ a=.destroyImpl) :
    i.joinable=false := by
  have phase : a.phase.unset=true ∧ a.phase≠.clearing ∧ a.phase≠.joining := by
    rcases place with ho|rfl
    · cases a <;> first | exact ⟨rfl,by simp [App.phase]⟩ | cases ho
    · exact ⟨rfl,by simp [App.phase]⟩
  exact h.control.free (h.control.unset phase.1) rfl phase.2

theorem Seated.worker (h : Seated i a w k pending)
    (news : (∃ rest,w=.read rest) ∧ r.endsStream=true → pending'=true)
    (more : pending=true → pending'=true) (hk : k.answer (w.call i) r=some l)
    (hn : w.next i r=some (j,v,lines)) :
    Seated j a v l pending' ∧ k.Keeps l ∧ j.fds=i.fds := by
  obtain ⟨holds,keeps,fds⟩ := worker_holds h.holds (h.control.weaken fun _ => rfl) hk hn
  obtain ⟨was,-,handle,busy,flag,drop,shut⟩ := worker_moves h.control.outside hn
  have asks := (worker_keeps h.control.outside hn).2.2.2.1
  refine ⟨⟨?_,asks,worker_fields h.fields h.control.outside hk hn,holds⟩,keeps,fds⟩
  apply h.control.work was handle busy flag (fun hv => news (drop hv)) more
  · by_contra hv
    have asked := (shut (by simpa using hv)).1
    rw [h.asks] at asked
    cases asked

/-- The application's code in the data callback has returned. -/
theorem Seated.callback {rest : List PollEvent} (h : Seated i a (.user rest) k pending) :
    Seated i a (.read rest) k pending := by
  refine ⟨?_,rfl,?_,h.holds⟩
  · apply h.control.work (v := .read rest) <;> simp [Worker.busy,Worker.shutting]
  · apply h.fields.work (v := .read rest) (Keeps.refl _) rfl rfl id <;> simp [Worker.busy]

/-- Nothing happened to the descriptors of the process. -/
theorem Seated.keeps (h : Seated i a w k pending) (hk : k.Keeps l) : Seated i a w l pending :=
  ⟨h.control,h.asks,h.fields.frame hk,h.holds.keeps hk⟩

/-- Between two calls an `Impl` needs to know only that its own descriptors stay. -/
theorem Seated.apart (h : Seated i (.idle none) w k pending)
    (hk : ∀ fd∈i.fds,(k.Owns fd → l.Owns fd) ∧ (k.Attached fd → l.Attached fd)) :
    Seated i (.idle none) w l pending where
  control := h.control
  asks := h.asks
  fields := { h.fields with
    client := fun hc => (h.fields.client hc).imp_right (hk _ (mem_fds.mpr (.inl rfl))).1
    epoll := fun hc => (h.fields.epoll hc).imp_right (hk _ (mem_fds.mpr (.inr rfl))).1
    linked := fun hl => (hk _ (mem_fds.mpr (.inl rfl))).2 (h.fields.linked hl)
    polled := fun hp => (hk _ (mem_fds.mpr (.inr rfl))).1 (h.fields.polled hp) }
  holds := { h.holds with
    client := by simp [App.clearsClient]
    epoll := by simp [App.clearsEpoll] }

/-- A member function has returned. -/
theorem Seated.rest {last : Option Outcome} (h : Seated i (.idle last) w k pending) :
    Seated i (.idle none) w k pending := by
  have control : Control i .rest w pending := by
    obtain ⟨joined,parked,-,-,outside,dropped,-,dropping⟩ := h.control
    constructor <;> cases last with
    | none => simp_all [App.phase,Phase.unset]
    | some o => cases o <;> simp_all [App.phase,Phase.unset]
  have fields := h.fields
  exact ⟨control,h.asks,
    ⟨fields.client,fields.epoll,fields.apart,fields.linked,fields.polled,fields.copied,
      fields.waiting⟩,
    h.holds.between rfl ⟨rfl,rfl⟩ ⟨rfl,rfl,by simp⟩⟩

/-- A member function is called. -/
theorem Seated.enter (h : Seated i (.idle none) w k pending) (q : Request) :
    Seated i q.entry w k pending := by
  have entry : q.entry.phase=.rest ∧ q.entry.linked=false ∧ q.entry.polled=false ∧
      q.entry.copied=none := by
    cases q <;> exact ⟨rfl,rfl,rfl,rfl⟩
  obtain ⟨phase,linked,polled,copied⟩ := entry
  obtain ⟨clears,plain⟩ := entry_plain q
  refine ⟨phase ▸ h.control,h.asks,?_,h.holds.between rfl clears plain⟩
  exact h.fields.goto rfl rfl ⟨rfl,rfl⟩ (by simp [linked]) (by simp [polled]) .inl .inl
    (by simp [copied]) h.fields.waiting

end holding

end TuyulNet.Client
