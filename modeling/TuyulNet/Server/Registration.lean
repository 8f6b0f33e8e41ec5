import TuyulNet.Server.Release

namespace TuyulNet.Server

open Framework Kernel

/-- `accept` returned `fd`, and `start` has not closed it since. -/
def accepted (fd : Fd) : Trace → Bool
  | [] => false
  | .call (.accept _) (.conn n _)::t => n=fd || accepted fd t
  | .call (.close n) _::t => n≠fd && accepted fd t
  | _::t => accepted fd t

/-- Neither before `socket` nor in or after `cleanup`. -/
def Pc.active : Pc → Bool
  | .socket | .cleanup _ _ | .returned _ => false
  | _ => true

/-- What the fields hold in a run that nobody stops. -/
structure Live (i : Impl) (pc : Pc) : Prop where
  server : pc.active=true → i.serverFd≠-1
  epoll : pc.active=true → pc.bare=false → i.epollFd≠-1
  running : pc.active=true → pc.setup=false → i.isRunning=true

section live

variable {i j : Impl} {pc q : Pc} {k k' : Kernel} {r : Reply} {lines : Trace}

theorem Live.goto (h : Live i pc) (ha : q.active=true → pc.active=true)
    (hb : q.active=true → q.bare=false → pc.bare=false)
    (hs : q.active=true → q.setup=false → pc.setup=false) : Live i q :=
  ⟨fun e => h.server (ha e),fun e b => h.epoll (ha e) (hb e b),
    fun e s => h.running (ha e) (hs e s)⟩

theorem fresh_ne {n : Fd} (h : k.fresh n=true) : n≠-1 := by
  intro e
  have h0 := ((k.fresh_iff n).mp h).1
  rw [e] at h0
  exact absurd h0 (by decide)

theorem setup_live (h : Live i pc) (hk : k.answer (pc.call i) r=some k')
    (hn : setupNext i pc r=some (j,q,lines)) : Live j q := by
  cases pc with
  | socket =>
    rcases answerOpen_cases hk with ⟨n,rfl,hf,-⟩|⟨e,rfl,-⟩
    · cases hn
      exact ⟨fun _ => fresh_ne hf,by simp [Pc.bare],by simp [Pc.setup]⟩
    · cases hn
      exact ⟨by simp [Pc.active],by simp [Pc.active],by simp [Pc.active]⟩
  | epollCreate =>
    rcases answerEpollCreate_cases hk with ⟨n,rfl,hf,-⟩|⟨e,rfl,-⟩
    · cases hn
      exact ⟨fun e => h.server e,fun _ _ => fresh_ne hf,by simp [Pc.setup]⟩
    · cases hn
      exact ⟨by simp [Pc.active],by simp [Pc.active],by simp [Pc.active]⟩
  | setRunning =>
    cases r with
    | ok =>
      cases hn
      exact ⟨fun e => h.server e,fun e b => h.epoll e rfl,fun _ _ => rfl⟩
    | _ => cases hn
  | allocate =>
    cases r with
    | ok =>
      cases hn
      split
      · exact h.goto (fun _ => rfl) (fun _ _ => rfl) fun _ _ => rfl
      · exact h.goto (fun _ => rfl) (fun _ _ => rfl) fun _ _ => rfl
    | _ => cases hn
  | setsockopt | bind | listen | epollAdd =>
    cases r with
    | ok | fail e =>
      cases hn
      apply h.goto <;> simp [Pc.active,Pc.bare,Pc.setup]
    | _ => cases hn
  | _ => cases hn

theorem next_live (h : Live i pc) (hk : k.answer (pc.call i) r=some k')
    (hn : pc.next i r=some (j,q,lines)) : Live j q := by
  rcases next_cases hn with hn|hn|hn|hn|hn|hn
  · exact setup_live h hk hn
  · cases pc with
    | getFl fd caller =>
      cases caller <;> cases r <;> cases hn <;> apply h.goto <;>
        simp [Pc.active,Pc.bare,Pc.setup]
    | setFl fd flags caller =>
      cases caller <;> cases r <;> cases hn <;> apply h.goto <;>
        simp [Pc.active,Pc.bare,Pc.setup]
    | _ => cases hn
  · unfold loopNext at hn
    split at hn <;> (try split at hn) <;> cases hn <;> apply h.goto <;>
      simp [Pc.active,Pc.bare,Pc.setup]
  · unfold acceptNext at hn
    split at hn <;> cases hn <;> apply h.goto <;> simp [Pc.active,Pc.bare,Pc.setup]
  · unfold drainNext at hn
    split at hn <;> (try split at hn) <;> cases hn <;> (try split) <;> apply h.goto <;>
      simp [Pc.active,Pc.bare,Pc.setup]
  · unfold cleanupNext at hn
    split at hn <;> cases hn <;> constructor <;> simp [Pc.active]

end live

theorem accepted_attached {k k' : Kernel} {t : Trace} {c : Call} {r : Reply}
    (hc : ∀ fd res,c≠.connect fd res) (hk : k.answer c r=some k')
    (h : ∀ fd,accepted fd t=true ↔ k.Attached fd) (fd : Fd) :
    accepted fd (.call c r::t)=true ↔ k'.Attached fd := by
  by_cases ha : c.attaches=true
  · cases c with
    | accept l =>
      rcases answerAccept_cases hk with ⟨n,c,f,rfl,-,hf,-,rfl⟩|⟨e,rfl,rfl,-⟩
      · have att : (k.accept l n c).Attached fd ↔ fd=n ∨ k.Attached fd := by
          unfold Attached
          by_cases hx : fd=n <;> simp [hx]
        show (decide (n=fd) || accepted fd t)=true ↔ _
        rw [att,← h fd,Bool.or_eq_true,decide_eq_true_eq,eq_comm]
      · exact h fd
    | close x =>
      show (decide (x≠fd) && accepted fd t)=true ↔ _
      rw [(answerClose_cases hk).1,close_attached,← h fd,Bool.and_eq_true,decide_eq_true_eq,
        ne_comm]
    | connect x res => exact absurd rfl (hc x res)
    | _ => cases ha
  · have idle : c.attaches=false := by simpa using ha
    rw [answer_attached idle hk,← h fd]
    cases c with
    | accept | close => cases idle
    | _ => rfl

theorem call_not_connect (i : Impl) (pc : Pc) (fd : Fd) (res : Nat) :
    pc.call i≠.connect fd res := by
  cases pc with
  | cleanup stage code => cases stage <;> simp [Pc.call]
  | _ => simp [Pc.call]

theorem reactor_accepted {s t : State} {r : Reply}
    (h : ∀ fd,accepted fd s.trace=true ↔ s.kernel.Attached fd) (hs : s.reactor r=some t) (fd : Fd) :
    accepted fd t.trace=true ↔ t.kernel.Attached fd := by
  obtain ⟨k,i,pc,lines,hk,hn,rfl⟩ := reactor_cases hs
  have skip := (next_lines hn).skip (f := accepted fd) (fun _ _ _ => rfl)
    (.call (s.pc.call s.impl) r::s.trace)
  rw [skip]
  exact accepted_attached (call_not_connect s.impl s.pc) hk h fd

/-- The invariant of runs without `stop()`. -/
structure Undisturbed (s : State) : Prop where
  owned : Owned s
  disciplined : Ledger.Disciplined (ledger s.trace)
  live : Live s.impl s.pc
  accepted : ∀ fd,accepted fd s.trace=true ↔ s.kernel.Attached fd

theorem step_undisturbed (s : State) (a : Action) (t : State) (h : Undisturbed s)
    (ha : a.isStop=false) (hs : machine.step s a=some t) : Undisturbed t := by
  have clean : Clean s a := by
    cases a with
    | stop nested => cases ha
    | reactor r => exact ⟨trivial,by simp⟩
    | env e => exact ⟨trivial,by simp⟩
  obtain ⟨housed,disciplined⟩ := step_disciplined s a t ⟨h.owned.housed,h.disciplined⟩ clean hs
  have owned := housed.owned
  refine ⟨owned,disciplined,?_,?_⟩
  · cases a with
    | reactor r =>
      obtain ⟨k,i,pc,lines,hk,hn,rfl⟩ := reactor_cases hs
      exact next_live h.live hk hn
    | env e =>
      obtain ⟨k,-,rfl⟩ := Option.map_eq_some_iff.mp hs
      exact h.live
    | stop nested => cases ha
  · cases a with
    | reactor r => exact reactor_accepted h.accepted hs
    | env e =>
      obtain ⟨k,hk,rfl⟩ := Option.map_eq_some_iff.mp hs
      exact fun fd => (h.accepted fd).trans (env_attached e hk fd).symm
    | stop nested => cases ha

section runs

variable (port : Int) (options : TcpOptions) (loggerCb dataCb : Bool) (foreign : List Fd)

theorem boot_undisturbed : Undisturbed (.boot port options loggerCb dataCb foreign) where
  owned := boot_owned port options loggerCb dataCb foreign
  disciplined := trivial
  live := ⟨by simp [State.boot,Pc.active],by simp [State.boot,Pc.active],by
    simp [State.boot,Pc.active]⟩
  accepted := by
    intro fd
    simp [State.boot,Server.accepted,Attached,Kernel.boot]

theorem run_undisturbed {as : List Action} {t : State} (hn : ∀ a∈as,a.isStop=false)
    (hr : machine.run (.boot port options loggerCb dataCb foreign) as=some t) :
    Undisturbed t :=
  machine.invariant step_undisturbed as _ t
    (boot_undisturbed port options loggerCb dataCb foreign)
    (Machine.Meets.of_actions machine as hn _) hr

/-- At every loop head of a run without `stop()`, what is open is the listening
socket, the epoll instance and the registered clients, and what is registered is
the listening socket and the accepted clients, each once. -/
theorem loop_head_registered (as : List Action) (t : State) (hn : ∀ a∈as,a.isStop=false)
    (hr : machine.run (.boot port options loggerCb dataCb foreign) as=some t)
    (hp : t.pc=.loopHead) :
    (∀ fd,Ledger.held fd (ledger t.trace)=true ↔ fd=t.impl.serverFd ∨ fd=t.impl.epollFd ∨
      accepted fd t.trace=true ∧ t.kernel.watch t.impl.epollFd fd≠none) ∧
    (∀ fd,t.kernel.watch t.impl.epollFd fd≠none ↔
      fd=t.impl.serverFd ∨ accepted fd t.trace=true) ∧
    (∀ fd,accepted fd t.trace=true → t.kernel.watch t.impl.epollFd fd=some .edge ∧
      ∃ c f,t.kernel.table fd=some (.conn c f) ∧ nonblocking f=true) ∧
    (t.impl.serverFd≠t.impl.epollFd ∧
      ∀ fd,accepted fd t.trace=true → fd≠t.impl.serverFd ∧ fd≠t.impl.epollFd) ∧
    (∀ fd fd' c f f',t.kernel.table fd=some (.conn c f) → t.kernel.table fd'=some (.conn c f') →
      fd=fd') ∧
    ∀ fd,Ledger.acquired fd (ledger t.trace)=
      Ledger.released fd (ledger t.trace)+(Ledger.held fd (ledger t.trace)).toNat := by
  have h := run_undisturbed port options loggerCb dataCb foreign hn hr
  have shape := h.owned.shape
  have active : t.pc.active=true := by rw [hp]; rfl
  have server := h.live.server active
  have epoll := h.live.epoll active (by rw [hp]; rfl)
  have armed := shape.armed (by rw [hp]; rfl) server epoll
  have master : ∃ f,t.kernel.table t.impl.serverFd=some (.listener f) :=
    shape.listener (by rw [hp]; rfl) server
  have instance' := shape.epoll epoll (by rw [hp]; rfl)
  have edge (fd : Fd) (ha : accepted fd t.trace=true) :
      t.kernel.watch t.impl.epollFd fd=some .edge ∧
        ∃ c f,t.kernel.table fd=some (.conn c f) ∧ nonblocking f=true := by
    obtain ⟨c,f,hc⟩ := (h.accepted fd).mp ha
    have watched : t.kernel.watch t.impl.epollFd fd=some .edge := by
      rcases shape.clients epoll (by rw [hp]; rfl) fd c f hc with hl|hw
      · rw [hp] at hl
        cases hl
      · exact hw
    refine ⟨watched,?_⟩
    rcases shape.registered _ fd _ watched with ⟨ht,-⟩|⟨-,hb⟩
    · cases ht
    · exact hb
  refine ⟨?_,?_,edge,⟨?_,?_⟩,?_,fun fd => Ledger.balance fd _ h.disciplined⟩
  · intro fd
    rw [h.owned.agrees fd]
    constructor
    · rintro ⟨f,hf,hne⟩
      cases f with
      | sock a | listener a => exact .inl (shape.serverOnly fd _ hf rfl).1
      | epoll => exact .inr (.inl (shape.epollOnly fd hf).1)
      | conn c a =>
        have ha := (h.accepted fd).mpr ⟨c,a,hf⟩
        exact .inr (.inr ⟨ha,by simp [(edge fd ha).1]⟩)
      | foreign => exact absurd rfl hne
    · intro hfd
      rcases hfd with rfl|rfl|⟨ha,-⟩
      · obtain ⟨f,hf⟩ := master
        exact ⟨_,hf,by simp⟩
      · exact ⟨_,instance',by simp⟩
      · obtain ⟨c,f,hc⟩ := (h.accepted fd).mp ha
        exact ⟨_,hc,by simp⟩
  · intro fd
    constructor
    · intro hw
      obtain ⟨trigger,ht⟩ := Option.ne_none_iff_exists'.mp hw
      rcases shape.registered _ fd trigger ht with ⟨-,hs,-⟩|⟨-,c,f,hc,-⟩
      · exact .inl hs
      · exact .inr ((h.accepted fd).mpr ⟨c,f,hc⟩)
    · intro hfd
      rcases hfd with rfl|ha
      · simp [armed]
      · simp [(edge fd ha).1]
  · intro e
    obtain ⟨f,hf⟩ := master
    rw [e,instance'] at hf
    cases hf
  · intro fd ha
    obtain ⟨c,f,hc⟩ := (h.accepted fd).mp ha
    constructor
    · intro e
      obtain ⟨g,hg⟩ := master
      rw [← e,hc] at hg
      cases hg
    · intro e
      rw [← e,hc] at instance'
      cases instance'
  · intro fd fd' c f f' hc hc'
    have own := (h.owned.wf.attached fd c f hc).1
    rw [(h.owned.wf.attached fd' c f' hc').1] at own
    exact (Option.some.inj own).symm

end runs

theorem loop_head_registered_one_client : ∃ t,
    machine.run (.boot 8080 {} false true []) (oneClient.take 21)=some t ∧
    ∀ fd,t.kernel.watch t.impl.epollFd fd≠none ↔
      fd=t.impl.serverFd ∨ accepted fd t.trace=true := by
  have run : (machine.run (.boot 8080 {} false true []) (oneClient.take 21)).map State.pc=
      some .loopHead := by
    decide +kernel
  obtain ⟨t,ht,hp⟩ := Option.map_eq_some_iff.mp run
  exact ⟨t,ht,(loop_head_registered 8080 {} false true [] _ t (by decide +kernel) ht hp).2.1⟩

end TuyulNet.Server
