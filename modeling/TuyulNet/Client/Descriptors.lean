import TuyulNet.Client.Control

namespace TuyulNet.Client

open Framework Kernel

/-- `client_fd` names a descriptor that has just been closed. -/
def App.clearsClient : App → Bool
  | .clearRefused _ | .shutdown .clearClient _ => true
  | _ => false

/-- `epoll_fd` names a descriptor that has just been closed. -/
def App.clearsEpoll : App → Bool
  | .shutdown .clearEpoll _ => true
  | _ => false

/-- `connect_to` has a connected socket. -/
def App.linked : App → Bool
  | .freeConnected _ | .getFl _ | .setFl _ _ | .epollCreate | .epollAdd | .setConnected
  | .spawn | .assign => true
  | _ => false

/-- `connect_to` has an epoll instance as well. -/
def App.polled : App → Bool
  | .epollAdd | .setConnected | .spawn | .assign => true
  | _ => false

/-- The descriptor that `set_fd_non_blocking` was called with. -/
def App.copied : App → Option Fd
  | .getFl fd | .setFl fd _ => some fd
  | _ => none

/-- What the two descriptor fields are worth at each program point. -/
structure Fields (i : Impl) (a : App) (w : Worker) (k : Kernel) : Prop where
  client : a.clearsClient=false → i.clientFd=-1 ∨ k.Owns i.clientFd
  epoll : a.clearsEpoll=false → i.epollFd=-1 ∨ k.Owns i.epollFd
  apart : i.clientFd=i.epollFd → i.clientFd=-1
  linked : a.linked=true ∨ i.isConnected=true ∨ w.busy=true → k.Attached i.clientFd
  polled : a.polled=true ∨ i.isConnected=true ∨ w.busy=true → k.Owns i.epollFd
  copied : ∀ fd,a.copied=some fd → fd=i.clientFd
  waiting : ∀ ep,w=.waiting ep → ep=i.epollFd

structure Sound (s : State) : Prop where
  control : s.Controlled
  asks : s.worker.asksDisconnect=false
  wf : s.kernel.Wf
  agrees : s.kernel.Agrees (ledger s.trace)
  disciplined : Ledger.Disciplined (ledger s.trace)
  fields : Fields s.impl s.app s.worker s.kernel

section fields

variable {i j : Impl} {a b : App} {w v : Worker} {k l : Kernel}

theorem Fields.frame (h : Fields i a w k) (hk : k.Keeps l) : Fields i a w l where
  client := fun hc => (h.client hc).imp_right (hk _).1.mpr
  epoll := fun hc => (h.epoll hc).imp_right (hk _).1.mpr
  apart := h.apart
  linked := fun hl => (hk _).2.mpr (h.linked hl)
  polled := fun hp => (hk _).1.mpr (h.polled hp)
  copied := h.copied
  waiting := h.waiting

/-- A step that leaves both fields alone. -/
theorem Fields.goto (h : Fields i a w k) (hc : j.clientFd=i.clientFd) (he : j.epollFd=i.epollFd)
    (clears : a.clearsClient=false ∧ a.clearsEpoll=false)
    (link : b.linked=true → a.linked=true) (poll : b.polled=true → a.polled=true)
    (flag : j.isConnected=true → i.isConnected=true ∨ a.linked=true ∧ a.polled=true)
    (busy : v.busy=true → w.busy=true ∨ i.isConnected=true)
    (copy : ∀ fd,b.copied=some fd → fd=i.clientFd)
    (wait : ∀ ep,v=.waiting ep → ep=i.epollFd) : Fields j b v k where
  client := by
    rw [hc]
    exact fun _ => h.client clears.1
  epoll := by
    rw [he]
    exact fun _ => h.epoll clears.2
  apart := by
    rw [hc,he]
    exact h.apart
  linked := by
    rw [hc]
    intro hl
    apply h.linked
    rcases hl with hl|hl|hl
    · exact .inl (link hl)
    · rcases flag hl with hi|hi
      · exact .inr (.inl hi)
      · exact .inl hi.1
    · exact .inr (busy hl).symm
  polled := by
    rw [he]
    intro hl
    apply h.polled
    rcases hl with hl|hl|hl
    · exact .inl (poll hl)
    · rcases flag hl with hi|hi
      · exact .inr (.inl hi)
      · exact .inl hi.2
    · exact .inr (busy hl).symm
  copied := by
    rw [hc]
    exact copy
  waiting := by
    rw [he]
    exact wait

/-- While the flag is false and the worker is parked, the fields may change to
anything that is open or -1. -/
theorem Fields.unset (hc : b.clearsClient=false → i.clientFd=-1 ∨ k.Owns i.clientFd)
    (he : b.clearsEpoll=false → i.epollFd=-1 ∨ k.Owns i.epollFd)
    (apart : i.clientFd=i.epollFd → i.clientFd=-1)
    (link : b.linked=true → k.Attached i.clientFd) (poll : b.polled=true → k.Owns i.epollFd)
    (copy : b.copied=none) (flag : i.isConnected=false) (busy : w.busy=false) :
    Fields i b w k where
  client := hc
  epoll := he
  apart := apart
  linked := by
    simp only [flag,busy]
    simpa using link
  polled := by
    simp only [flag,busy]
    simpa using poll
  copied := by simp [copy]
  waiting := by
    intro ep hw
    rw [hw] at busy
    cases busy

theorem thread_busy {r : Reply} (hb : (a.thread i r w).busy=true) : w.busy=true := by
  unfold App.thread at hb
  split at hb
  · split at hb
    · exact hb
    · cases hb
  · cases hb
  · exact hb

theorem thread_waiting {r : Reply} {ep : Fd} (hw : a.thread i r w=.waiting ep) : w=.waiting ep := by
  unfold App.thread at hw
  split at hw
  · split at hw
    · exact hw
    · cases hw
  · cases hw
  · exact hw

/-- The descriptors that a call of the application thread names. -/
theorem app_names (h : Fields i a w k) : ∀ fd∈(a.call i).names,fd=-1 ∨ k.Owns fd := by
  intro fd hm
  cases a with
  | connect res | closeRefused res =>
    cases List.mem_singleton.mp hm
    exact h.client rfl
  | getFl n | setFl n flags =>
    cases List.mem_singleton.mp hm
    rw [h.copied fd rfl]
    exact h.client rfl
  | epollAdd =>
    rcases List.mem_cons.mp hm with rfl|hm
    · exact h.epoll rfl
    · cases List.mem_singleton.mp hm
      exact h.client rfl
  | shutdown stage purpose =>
    cases stage with
    | closeEpoll =>
      cases List.mem_singleton.mp hm
      exact h.epoll rfl
    | closeClient =>
      cases List.mem_singleton.mp hm
      exact h.client rfl
    | _ => cases hm
  | send s =>
    cases s with
    | test payload => cases hm
    | write payload pos left =>
      cases List.mem_singleton.mp hm
      exact h.client rfl
  | _ => cases hm

/-- The descriptors that a call of the worker names. -/
theorem worker_names (h : Fields i a w k) (hw : w.shutting=false) :
    ∀ fd∈(w.call i).names,fd=-1 ∨ k.Owns fd := by
  intro fd hm
  cases w with
  | epollWait =>
    cases List.mem_singleton.mp hm
    exact .inr (h.polled (.inr (.inr rfl)))
  | read rest =>
    cases List.mem_singleton.mp hm
    exact .inr (attached_owns (h.linked (.inr (.inr rfl))))
  | send s rest =>
    cases s with
    | test payload => cases hm
    | write payload pos left =>
      cases List.mem_singleton.mp hm
      exact .inr (attached_owns (h.linked (.inr (.inr rfl))))
  | shutdown stage rest => cases hw
  | _ => cases hm

end fields

section steps

variable {i j : Impl} {a b : App} {w v : Worker} {k l : Kernel} {r : Reply} {lines : Trace}
  {pending : Bool}

/-- The steps between two calls of `socket` and `epoll_create1` or `close`. -/
theorem steady_fields (h : Fields i a w k) (hk : k.answer (a.call i) r=some l)
    (hs : (a.call i).steady=true) (hc : j.clientFd=i.clientFd) (he : j.epollFd=i.epollFd)
    (clears : a.clearsClient=false ∧ a.clearsEpoll=false)
    (link : b.linked=true → a.linked=true) (poll : b.polled=true → a.polled=true)
    (flag : j.isConnected=true → i.isConnected=true ∨ a.linked=true ∧ a.polled=true)
    (copy : ∀ fd,b.copied=some fd → fd=i.clientFd) : Fields j b (a.thread i r w) l :=
  (h.frame (answer_keeps hs hk)).goto hc he clears link poll flag
    (fun hb => .inl (thread_busy hb)) copy fun ep hw => h.waiting ep (thread_waiting hw)

theorem socket_fields {res : Nat} (h : Fields i (.socket res) w k)
    (hw : k.Wf) (flag : i.isConnected=false) (busy : w.busy=false)
    (hk : k.answer .socket r=some l) (hn : dialNext i (.socket res) r=some (j,b,lines)) :
    Fields j b w l := by
  rcases answerOpen_cases hk with ⟨n,rfl,hf,rfl⟩|⟨e,rfl,rfl⟩
  · cases hn
    have owns := install_owns (k := k) (n := n) (f := .sock 0) (by simp)
    obtain ⟨h0,free⟩ := (k.fresh_iff n).mp hf
    apply Fields.unset
    · exact fun _ => .inr ((owns n).mpr (.inl rfl))
    · exact fun _ => (h.epoll rfl).imp_right fun ho => (owns _).mpr (.inr ho)
    · intro e
      have e : n=i.epollFd := e
      rcases h.epoll rfl with hm|⟨f,ho,-⟩
      · exact e.trans hm
      · rw [← e,free] at ho
        cases ho
    · simp [App.linked]
    · simp [App.polled]
    · rfl
    · exact flag
    · exact busy
  · cases hn
    apply Fields.unset
    · exact fun _ => .inl rfl
    · exact fun _ => h.epoll rfl
    · exact fun _ => rfl
    · simp [App.linked]
    · simp [App.polled]
    · rfl
    · exact flag
    · exact busy

theorem connect_fields {res : Nat} (h : Fields i (.connect res) w k)
    (flag : i.isConnected=false) (busy : w.busy=false)
    (hk : k.answer (.connect i.clientFd res) r=some l)
    (hn : dialNext i (.connect res) r=some (j,b,lines)) : Fields j b w l := by
  rcases connect_cases hk with ⟨rfl,-⟩|⟨e,rfl,rfl⟩
  · cases hn
    obtain ⟨owns,attached⟩ := connect_attached hk
    apply Fields.unset
    · exact fun _ => (h.client rfl).imp_right (owns _).mpr
    · exact fun _ => (h.epoll rfl).imp_right (owns _).mpr
    · exact h.apart
    · exact fun _ => (attached _).mpr (.inl rfl)
    · simp [App.polled]
    · rfl
    · exact flag
    · exact busy
  · cases hn
    apply Fields.unset
    · exact fun _ => h.client rfl
    · exact fun _ => h.epoll rfl
    · exact h.apart
    · simp [App.linked]
    · simp [App.polled]
    · rfl
    · exact flag
    · exact busy

/-- Closing the descriptor of one field leaves the other one open. -/
theorem close_other {x y : Fd} (hx : y=x → y=-1) (hy : y=-1 ∨ k.Owns y) :
    y=-1 ∨ (k.close x).Owns y := by
  rcases hy with hy|hy
  · exact .inl hy
  · by_cases e : y=x
    · exact .inl (hx e)
    · exact .inr ((close_owns x y).mpr ⟨e,hy⟩)

theorem Fields.apart' (h : Fields i a w k) (e : i.epollFd=i.clientFd) : i.epollFd=-1 :=
  e.trans (h.apart e.symm)

theorem refused_fields {res : Nat} (h : Fields i (.closeRefused res) w k)
    (flag : i.isConnected=false) (busy : w.busy=false)
    (hk : k.answer (.close i.clientFd) r=some l)
    (hn : dialNext i (.closeRefused res) r=some (j,b,lines)) : Fields j b w l := by
  have next : j=i ∧ b=.clearRefused res := by
    cases r <;> cases hn <;> exact ⟨rfl,rfl⟩
  obtain ⟨rfl,rfl⟩ := next
  rw [(answerClose_cases hk).1]
  apply Fields.unset
  · simp [App.clearsClient]
  · exact fun _ => close_other h.apart' (h.epoll rfl)
  · exact h.apart
  · simp [App.linked]
  · simp [App.polled]
  · rfl
  · exact flag
  · exact busy

theorem epoll_fields (h : Fields i .epollCreate w k) (flag : i.isConnected=false)
    (busy : w.busy=false) (hk : k.answer .epollCreate r=some l)
    (hn : hookNext i .epollCreate r=some (j,b,lines)) : Fields j b w l := by
  have attached := h.linked (.inl rfl)
  rcases answerEpollCreate_cases hk with ⟨n,rfl,hf,rfl⟩|⟨e,rfl,rfl⟩
  · cases hn
    have owns (x : Fd) : ({ k.install n .epoll with
        polls := Function.update k.polls n .empty } : Kernel).Owns x ↔ x=n ∨ k.Owns x :=
      install_owns (by simp) x
    have free := ((k.fresh_iff n).mp hf).2
    have ne : i.clientFd≠n := by
      intro e
      obtain ⟨c,f,ha⟩ := attached
      rw [e,free] at ha
      cases ha
    apply Fields.unset
    · exact fun _ => .inr ((owns _).mpr (.inr (attached_owns attached)))
    · exact fun _ => .inr ((owns n).mpr (.inl rfl))
    · exact fun e => absurd e ne
    · intro _
      obtain ⟨c,f,ha⟩ := attached
      exact ⟨c,f,by simp [ne,ha]⟩
    · exact fun _ => (owns n).mpr (.inl rfl)
    · rfl
    · exact flag
    · exact busy
  · cases hn
    apply Fields.unset
    · exact fun _ => .inr (attached_owns attached)
    · exact fun _ => .inl rfl
    · exact id
    · simp [App.linked]
    · simp [App.polled]
    · rfl
    · exact flag
    · exact busy

theorem resume_plain (purpose : Purpose) : purpose.resume.clearsClient=false ∧
    purpose.resume.clearsEpoll=false ∧ purpose.resume.linked=false ∧
    purpose.resume.polled=false ∧ purpose.resume.copied=none := by
  cases purpose with
  | connect code => exact ⟨rfl,rfl,rfl,rfl,rfl⟩
  | disconnect destroying => cases destroying <;> exact ⟨rfl,rfl,rfl,rfl,rfl⟩

/-- `shutdown_pipeline` after the join, when nobody else uses the fields. -/
theorem closing_fields {stage : Shutdown} {purpose : Purpose}
    (h : Fields i (.shutdown stage purpose) w k) (flag : i.isConnected=false)
    (busy : w.busy=false) (hp : (App.shutdown stage purpose).phase=.closing)
    (hk : k.answer (stage.call i) r=some l)
    (hn : callNext i (.shutdown stage purpose) r=some (j,b,lines)) : Fields j b w l := by
  obtain ⟨clearsC,clearsE,link,poll,copy⟩ := resume_plain purpose
  obtain ⟨⟨j,more,lines⟩,hs,heq⟩ := Option.map_eq_some_iff.mp hn
  cases heq
  have stay {b : App} (hl : b.linked=false) (hp : b.polled=false) (hc : b.copied=none)
      (client : i.clientFd=-1 ∨ k.Owns i.clientFd) (epoll : i.epollFd=-1 ∨ k.Owns i.epollFd) :
      Fields i b w k := by
    apply Fields.unset
    · exact fun _ => client
    · exact fun _ => epoll
    · exact h.apart
    · simp [hl]
    · simp [hp]
    · exact hc
    · exact flag
    · exact busy
  cases stage with
  | clearFlag | testJoin | join => cases hp
  | testEpoll =>
    cases r <;> cases hs
    cases hk
    by_cases he : 0 ≤ i.epollFd
    · rw [if_pos he]
      exact stay rfl rfl rfl (h.client rfl) (h.epoll rfl)
    · rw [if_neg he]
      exact stay rfl rfl rfl (h.client rfl) (h.epoll rfl)
  | testClient =>
    cases r <;> cases hs
    cases hk
    by_cases hc : 0 ≤ i.clientFd
    · rw [if_pos hc]
      exact stay rfl rfl rfl (h.client rfl) (h.epoll rfl)
    · rw [if_neg hc]
      exact stay link poll copy (h.client rfl) (h.epoll rfl)
  | closeEpoll =>
    rw [(answerClose_cases hk).1]
    cases r <;> cases hs <;> apply Fields.unset <;> first
      | exact fun _ => close_other h.apart (h.client rfl)
      | exact h.apart
      | exact flag
      | exact busy
      | simp [App.linked,App.polled,App.copied,App.clearsEpoll]
  | clearEpoll =>
    cases r <;> cases hs
    cases hk
    apply Fields.unset <;> first
      | exact fun _ => h.client rfl
      | exact fun _ => .inl rfl
      | exact id
      | exact flag
      | exact busy
      | simp [App.linked,App.polled,App.copied]
  | closeClient =>
    rw [(answerClose_cases hk).1]
    cases r <;> cases hs <;> apply Fields.unset <;> first
      | exact fun _ => close_other h.apart' (h.epoll rfl)
      | exact h.apart
      | exact flag
      | exact busy
      | simp [App.linked,App.polled,App.copied,App.clearsClient]
  | clearClient =>
    cases r <;> cases hs
    cases hk
    apply Fields.unset
    · exact fun _ => .inl rfl
    · exact fun _ => h.epoll rfl
    · exact fun _ => rfl
    · simp [link]
    · simp [poll]
    · exact copy
    · exact flag
    · exact busy

/-- In these phases nobody else looks at the fields. -/
theorem Control.alone {p : Phase} (hc : Control i p w pending) (hp : p.unset=true)
    (hj : p≠.joining) : i.isConnected=false ∧ w.busy=false := by
  have flag := hc.unset hp
  refine ⟨flag,?_⟩
  by_contra hb
  rcases hc.parked (by simpa using hb) with hi|hi|hi
  · rw [flag] at hi
    cases hi
  · rw [hi] at hp
    cases hp
  · exact hj hi

theorem app_fields (hw : k.Wf) (h : Fields i a w k) (hc : Control i a.phase w pending)
    (hk : k.answer (a.call i) r=some l) (hn : a.next i r=some (j,b,lines)) :
    Fields j b (a.thread i r w) l := by
  cases a with
  | idle | gone => cases hn
  | testConnected host port =>
    cases r <;> (try cases hn)
    by_cases hi : i.isConnected=true
    · have hn : (if i.isConnected=true then _ else _)=_ := hn
      rw [if_pos hi] at hn
      cases hn
      apply steady_fields h hk rfl rfl rfl ⟨rfl,rfl⟩ <;> simp [App.linked,App.polled,App.copied]
    · have hn : (if i.isConnected=true then _ else _)=_ := hn
      rw [if_neg hi] at hn
      cases hn
      apply steady_fields h hk rfl rfl rfl ⟨rfl,rfl⟩ <;> simp [App.linked,App.polled,App.copied]
  | socket res =>
    obtain ⟨flag,busy⟩ := hc.alone rfl (by simp [App.phase])
    exact socket_fields h hw flag busy hk hn
  | connect res =>
    obtain ⟨flag,busy⟩ := hc.alone rfl (by simp [App.phase])
    exact connect_fields h flag busy hk hn
  | closeRefused res =>
    obtain ⟨flag,busy⟩ := hc.alone rfl (by simp [App.phase])
    exact refused_fields h flag busy hk hn
  | clearRefused res =>
    obtain ⟨flag,busy⟩ := hc.alone rfl (by simp [App.phase])
    cases r <;> cases hn
    cases hk
    apply Fields.unset
    · exact fun _ => .inl rfl
    · exact fun _ => h.epoll rfl
    · exact fun _ => rfl
    · simp [App.linked]
    · simp [App.polled]
    · rfl
    · exact flag
    · exact busy
  | epollCreate =>
    obtain ⟨flag,busy⟩ := hc.alone rfl (by simp [App.phase])
    exact epoll_fields h flag busy hk hn
  | getFl fd =>
    have own := h.copied fd rfl
    cases r <;> cases hn <;> apply steady_fields h hk rfl rfl rfl ⟨rfl,rfl⟩ <;>
      simp [App.linked,App.polled,App.copied,own]
  | setConnected | assign =>
    cases r <;> cases hn
    refine steady_fields h hk rfl ?_ ?_ ⟨rfl,rfl⟩ ?_ ?_ ?_ ?_ <;>
      simp [App.linked,App.polled,App.copied]
  | lookup | freeFailed | freeRefused | freeConnected | setFl | epollAdd | spawn | destroyImpl =>
    cases r <;> cases hn <;> apply steady_fields h hk rfl rfl rfl ⟨rfl,rfl⟩ <;>
      simp [App.linked,App.polled,App.copied]
  | testDisconnect destroying =>
    cases r <;> cases hn
    by_cases hi : i.isConnected=true
    · rw [if_pos hi]
      apply steady_fields h hk rfl rfl rfl ⟨rfl,rfl⟩ <;> simp [App.linked,App.polled,App.copied]
    · rw [if_neg hi]
      cases destroying <;> apply steady_fields h hk rfl rfl rfl ⟨rfl,rfl⟩ <;>
        simp [App.linked,App.polled,App.copied]
  | send s =>
    obtain ⟨⟨more,lines⟩,hs,heq⟩ := Option.map_eq_some_iff.mp hn
    cases heq
    have steady : (s.call i).steady=true := by cases s <;> rfl
    cases more <;> apply steady_fields h hk steady rfl rfl ⟨rfl,rfl⟩ <;>
      simp [App.linked,App.polled,App.copied]
  | shutdown stage purpose =>
    by_cases hp : (App.shutdown stage purpose).phase=.closing
    · obtain ⟨flag,busy⟩ := hc.alone (by rw [hp]; rfl) (by simp [hp])
      have idle : (App.shutdown stage purpose).thread i r w=w := by
        cases stage with
        | join => cases hp
        | _ => rfl
      rw [idle]
      exact closing_fields h flag busy hp hk hn
    · cases stage with
      | clearFlag | testJoin | join =>
        cases r <;> cases hn
        refine steady_fields h hk rfl ?_ ?_ ⟨rfl,rfl⟩ ?_ ?_ ?_ ?_ <;>
          simp [App.linked,App.polled,App.copied]
      | _ => exact absurd rfl hp

theorem Fields.work (h : Fields i a w k) (hk : k.Keeps l) (hc : j.clientFd=i.clientFd)
    (he : j.epollFd=i.epollFd) (flag : j.isConnected=true → i.isConnected=true)
    (busy : v.busy=true → w.busy=true ∨ i.isConnected=true)
    (wait : ∀ ep,v=.waiting ep → ep=i.epollFd) : Fields j a v l := by
  have live (hl : j.isConnected=true ∨ v.busy=true) : i.isConnected=true ∨ w.busy=true := by
    rcases hl with hl|hl
    · exact .inl (flag hl)
    · exact (busy hl).symm
  obtain ⟨client,epoll,apart,linked,polled,copied,-⟩ := h.frame hk
  constructor
  · rwa [hc]
  · rwa [he]
  · rwa [hc,he]
  · rw [hc]
    exact fun hl => linked (hl.imp_right live)
  · rw [he]
    exact fun hl => polled (hl.imp_right live)
  · rwa [hc]
  · rwa [he]

/-- Where the application thread opens, closes or forgets a descriptor. -/
theorem next_keeps (hn : a.next i r=some (j,b,lines)) :
    a.phase=.opening ∨ a.phase=.closing ∨
      (a.call i).quiet=true ∧ j.clientFd=i.clientFd ∧ j.epollFd=i.epollFd := by
  cases a with
  | idle | gone => cases hn
  | assign | spawn | destroyImpl =>
    cases r <;> cases hn <;> exact .inr (.inr ⟨rfl,rfl,rfl⟩)
  | testConnected host port =>
    cases r <;> (try cases hn)
    have hn : (if i.isConnected=true then _ else _)=_ := hn
    split at hn <;> cases hn <;> exact .inr (.inr ⟨rfl,rfl,rfl⟩)
  | testDisconnect destroying =>
    cases r <;> cases hn
    exact .inr (.inr ⟨rfl,rfl,rfl⟩)
  | send x =>
    obtain ⟨⟨more,lines⟩,-,heq⟩ := Option.map_eq_some_iff.mp hn
    cases heq
    exact .inr (.inr ⟨by cases x <;> rfl,rfl,rfl⟩)
  | shutdown stage purpose =>
    cases stage with
    | clearFlag | testJoin | join =>
      cases r <;> cases hn
      exact .inr (.inr ⟨rfl,rfl,rfl⟩)
    | _ => exact .inr (.inl rfl)
  | _ => exact .inl rfl

theorem worker_keeps (hw : w.shutting=false) (hn : w.next i r=some (j,v,lines)) :
    (w.call i).quiet=true ∧ j.clientFd=i.clientFd ∧ j.epollFd=i.epollFd ∧
      v.asksDisconnect=false ∧ ∀ ep,v=.waiting ep → ep=i.epollFd := by
  have loop : loopNext i w r=some (j,v,lines) → j.clientFd=i.clientFd ∧ j.epollFd=i.epollFd ∧
      v.asksDisconnect=false ∧ ∀ ep,v=.waiting ep → ep=i.epollFd := by
    intro h
    unfold loopNext at h
    split at h <;> (try split at h) <;> cases h <;> (try split) <;>
      simp_all [Worker.asksDisconnect]
  cases w with
  | shutdown stage rest => cases hw
  | send s rest =>
    obtain ⟨⟨more,lines⟩,hs,heq⟩ := Option.map_eq_some_iff.mp hn
    cases heq
    refine ⟨by cases s <;> rfl,rfl,rfl,?_⟩
    cases more <;> simp [Worker.asksDisconnect]
  | testDisconnect rest =>
    cases r <;> cases hn
    refine ⟨rfl,rfl,rfl,?_⟩
    split <;> simp [Worker.asksDisconnect]
  | _ => exact ⟨rfl,loop hn⟩

theorem worker_fields (h : Fields i a w k) (hw : w.shutting=false)
    (hk : k.answer (w.call i) r=some l) (hn : w.next i r=some (j,v,lines)) : Fields j a v l := by
  obtain ⟨quiet,client,epoll,-,wait⟩ := worker_keeps hw hn
  obtain ⟨-,-,-,busy,flag,-⟩ := worker_moves hw hn
  apply h.work (answer_keeps (quiet_steady quiet) hk) client epoll _ busy wait
  intro hj
  rcases flag with flag|⟨-,flag,-⟩
  · exact flag ▸ hj
  · rw [flag] at hj
    cases hj

end steps

/-- A step that is no call of `disconnect` in the data callback. -/
def Action.civil (a : Action) : Bool := a≠.callback .disconnect

theorem step_sound (s : State) (a : Action) (t : State) (h : Sound s) (ha : a.civil=true)
    (hs : machine.step s a=some t) : Sound t := by
  have polite : Polite s a := by
    cases a with
    | worker r =>
      intro asks
      rw [h.asks] at asks
      cases asks
    | _ => trivial
  have control := step_controlled s a t h.control polite hs
  obtain ⟨-,⟨q,last,rfl,hp,rfl⟩|⟨r,rfl,ht⟩|⟨r,rfl,ht⟩|⟨c,rest,rfl,hw,rfl⟩|⟨e,k,rfl,hk,rfl⟩⟩ :=
    step_cases hs
  · refine ⟨control,h.asks,h.wf,h.agrees,h.disciplined,?_⟩
    have fields := h.fields
    rw [hp] at fields
    have plain : q.entry.linked=false ∧ q.entry.polled=false ∧ q.entry.copied=none := by
      cases q <;> exact ⟨rfl,rfl,rfl⟩
    apply fields.goto rfl rfl ⟨rfl,rfl⟩
    · simp [plain]
    · simp [plain]
    · exact .inl
    · exact .inl
    · simp [plain]
    · exact fields.waiting
  · have ledger := appStep_ledger ht
    obtain ⟨-,k,i,app,lines,hk,hn,rfl⟩ := appStep_cases ht
    refine ⟨control,?_,answer_wf h.wf _ r hk,?_,?_,app_fields h.wf h.fields h.control hk hn⟩
    · show (s.app.thread s.impl r s.worker).asksDisconnect=false
      unfold App.thread
      split
      · split
        · exact h.asks
        · rfl
      · rfl
      · exact h.asks
    · rw [ledger]
      exact answer_agrees h.wf h.agrees _ r hk
    · rw [ledger]
      exact answer_disciplined h.wf h.agrees h.disciplined _ r (app_names h.fields) hk
  · have ledger := workerStep_ledger ht
    obtain ⟨k,i,worker,lines,hk,hn,rfl⟩ := workerStep_cases ht
    have outside := h.control.outside
    refine ⟨control,?_,answer_wf h.wf _ r hk,?_,?_,worker_fields h.fields outside hk hn⟩
    · exact (worker_keeps outside hn).2.2.2.1
    · rw [ledger]
      exact answer_agrees h.wf h.agrees _ r hk
    · rw [ledger]
      exact answer_disciplined h.wf h.agrees h.disciplined _ r (worker_names h.fields outside) hk
  · refine ⟨control,?_,h.wf,h.agrees,h.disciplined,?_⟩
    · cases c with
      | disconnect => cases ha
      | _ => rfl
    · apply h.fields.work (Keeps.refl _) rfl rfl id
      · exact fun _ => .inl (by rw [hw]; rfl)
      · cases c <;> simp [Callback.entry]
  · refine ⟨control,h.asks,env_wf h.wf e hk,env_agrees h.agrees e hk,h.disciplined,?_⟩
    exact h.fields.frame (env_keeps e hk)

section runs

variable (options : TcpOptions) (loggerCb dataCb pipeSignal : Bool) (foreign : List Fd)

theorem boot_sound : Sound (.boot options loggerCb dataCb pipeSignal foreign) where
  control := boot_controlled options loggerCb dataCb pipeSignal foreign
  asks := rfl
  wf := boot_wf foreign
  agrees := boot_agrees foreign
  disciplined := trivial
  fields := by
    constructor <;> simp [State.boot,App.linked,App.polled,App.copied,Worker.busy]

theorem run_sound {as : List Action} {t : State} (hn : ∀ a∈as,a.civil=true)
    (hr : machine.run (.boot options loggerCb dataCb pipeSignal foreign) as=some t) : Sound t :=
  machine.invariant step_sound as _ t (boot_sound options loggerCb dataCb pipeSignal foreign)
    (Machine.Meets.of_actions machine as hn _) hr

end runs

end TuyulNet.Client
