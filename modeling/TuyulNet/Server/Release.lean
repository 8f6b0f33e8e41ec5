import TuyulNet.Server.Ownership

namespace TuyulNet.Server

open Framework Kernel

/-- What one call tells about a client: it is hooked into the epoll set, or a
read reports the end of its stream or an error. -/
def hears (fd : Fd) : Call → Reply → Bool → Bool
  | .epollAdd _ n .edge,.ok,b => n=fd || b
  | .read n _,r,b => !(n=fd && r.endsStream) && b
  | _,_,b => b

/-- `fd` was hooked into the epoll set, and no read on it has since reported the
end of its stream or an error. -/
def connected (fd : Fd) : Trace → Bool
  | [] => false
  | .call c r::t => hears fd c r (connected fd t)
  | _::t => connected fd t

/-- The client descriptor that is not, or no longer, in the epoll set. -/
def Pc.unlinked : Pc → Option Fd
  | .delClient fd _ => some fd
  | pc => pc.loose

section discipline

/-- A well placed `stop()` closes each of the two fields once, while they are open. -/
theorem stop_closes {F : Fd → Bool} {s : State} (h : Housed F s) (nested : Nat)
    (hc : Clean s (.stop nested)) (hr : s.impl.isRunning=true) :
    (closing (s.impl.stop nested).2).Nodup ∧
      ∀ fd∈closing (s.impl.stop nested).2,s.kernel.Owns fd := by
  obtain ⟨-,hst⟩ := hc.1 hr
  have ne {x : Fd} (h0 : 0 ≤ x) : x≠-1 := fun e => absurd (e ▸ h0) (by decide)
  have once := cleanup_once (hc.2 nested rfl hr)
  have heq : s.impl.stop nested=s.impl.cleanup nested := by simp [Impl.stop,hr]
  have own := h.closes hst nested
  rw [heq]
  constructor
  · rw [once]
    by_cases he : 0 ≤ s.impl.epollFd <;> by_cases hl : 0 ≤ s.impl.serverFd <;> simp [he,hl]
    exact (h.shape.apart ⟨hst.2,hst.1⟩ (ne hl) (ne he)).symm
  · intro fd hm
    rcases (own fd hm).2 with ⟨-,-,hf⟩|⟨-,-,f,hf,hm⟩
    · exact ⟨_,hf,by simp⟩
    · refine ⟨f,hf,?_⟩
      rintro rfl
      cases hm

theorem stop_disciplined {F : Fd → Bool} {s : State} (h : Housed F s)
    (hd : Ledger.Disciplined (ledger s.trace)) (nested : Nat) (hc : Clean s (.stop nested)) :
    Ledger.Disciplined (ledger (s.stop nested).trace) := by
  by_cases hr : s.impl.isRunning=true
  · obtain ⟨once,own⟩ := stop_closes h nested hc hr
    exact effects_disciplined (t := .stop::s.trace) h.wf h.agrees hd (s.impl.stop nested).2 once own
  · rw [stop_idle (by simpa using hr)]
    exact hd

theorem step_disciplined {F : Fd → Bool} (s : State) (a : Action) (t : State)
    (h : Housed F s ∧ Ledger.Disciplined (ledger s.trace)) (hc : Clean s a)
    (hs : machine.step s a=some t) : Housed F t ∧ Ledger.Disciplined (ledger t.trace) := by
  refine ⟨step_housed s a t h.1 hc.1 hs,?_⟩
  cases a with
  | reactor r =>
    rw [reactor_ledger hs]
    obtain ⟨k,i,pc,lines,hk,-,-⟩ := reactor_cases hs
    exact answer_disciplined h.1.wf h.1.agrees h.2 _ _ h.1.names_owned hk
  | env e =>
    obtain ⟨k,hk,rfl⟩ := Option.map_eq_some_iff.mp hs
    exact h.2
  | stop nested =>
    cases hs
    exact stop_disciplined h.1 h.2 nested hc

end discipline

section clients

variable {i j : Impl} {pc q : Pc} {k k' : Kernel} {r : Reply} {lines : Trace} {C C' : Fd → Bool}

/-- The connected clients are the open ones that are not being set up or
dismissed. -/
def Links (C : Fd → Bool) (k : Kernel) (pc : Pc) : Prop :=
  ∀ fd,C fd=true ↔ k.Attached fd ∧ pc.unlinked≠some fd

def Linked (s : State) : Prop := Links (connected · s.trace) s.kernel s.pc

/-- Setup, flags and loop control leave every client alone. -/
theorem idle_next (h : setupNext i pc r=some (j,q,lines) ∨ flagsNext i pc r=some (j,q,lines) ∨
      loopNext i pc r=some (j,q,lines)) :
    (∀ fd b,hears fd (pc.call i) r b=b) ∧ (pc.call i).attaches=false ∧
      q.unlinked=pc.unlinked := by
  rcases h with h|h|h
  · unfold setupNext bail at h
    split at h <;> cases h <;> (try split) <;> exact ⟨fun _ _ => rfl,rfl,rfl⟩
  · cases pc with
    | getFl fd caller =>
      cases caller <;> cases r <;> cases h <;> exact ⟨fun _ _ => rfl,rfl,rfl⟩
    | setFl fd flags caller =>
      cases caller <;> cases r <;> cases h <;> exact ⟨fun _ _ => rfl,rfl,rfl⟩
    | _ => cases h
  · unfold loopNext at h
    split at h <;> (try split at h) <;> cases h <;> exact ⟨fun _ _ => rfl,rfl,rfl⟩

theorem idle_linked (hl : Links C k pc) (hC : ∀ fd,C' fd=hears fd (pc.call i) r (C fd))
    (hk : k.answer (pc.call i) r=some k')
    (hi : (∀ fd b,hears fd (pc.call i) r b=b) ∧ (pc.call i).attaches=false ∧
      q.unlinked=pc.unlinked) : Links C' k' q := by
  intro fd
  rw [hC,hi.1,answer_attached hi.2.1 hk,hi.2.2]
  exact hl fd

theorem accept_linked (h : Shape i pc k.table k.watch) (hl : Links C k pc)
    (hC : ∀ fd,C' fd=hears fd (pc.call i) r (C fd))
    (hk : k.answer (pc.call i) r=some k') (hn : acceptNext i pc r=some (j,q,lines)) :
    Links C' k' q := by
  intro fd
  have before := hl fd
  rw [hC]
  cases pc with
  | accept rest =>
    rcases answerAccept_cases hk with ⟨n,c,f,rfl,-,hf,-,rfl⟩|⟨e,rfl,rfl,-⟩
    · cases hn
      have free : ¬k.Attached n := by
        simp [Attached,((k.fresh_iff n).mp hf).2]
      have att : (k.accept i.serverFd n c).Attached fd ↔ fd=n ∨ k.Attached fd := by
        unfold Attached
        by_cases hx : fd=n <;> simp [hx]
      rw [att]
      grind [Pc.unlinked,Pc.loose,Pc.call,hears]
    · cases hn
      exact before
  | addClient x rest =>
    cases r with
    | ok =>
      have own : k.Attached x := h.client x rfl
      cases hn
      rw [answer_attached rfl hk fd]
      grind [Pc.unlinked,Pc.loose,Pc.call,hears]
    | fail e =>
      rw [answer_fail (by simp [Pc.call]) hk]
      cases hn
      exact before
    | _ => cases hn
  | reject x rest =>
    rw [(answerClose_cases hk).1,close_attached]
    cases r with
    | ok | fail e =>
      cases hn
      grind [Pc.unlinked,Pc.loose,Pc.call,hears]
    | _ => cases hn
  | _ => cases hn

theorem drain_linked (hl : Links C k pc) (hC : ∀ fd,C' fd=hears fd (pc.call i) r (C fd))
    (hk : k.answer (pc.call i) r=some k') (hn : drainNext i pc r=some (j,q,lines)) :
    Links C' k' q := by
  intro fd
  have before := hl fd
  rw [hC]
  cases pc with
  | read x rest =>
    rw [answer_attached rfl hk fd]
    cases r with
    | data bs =>
      simp only [drainNext] at hn
      split at hn
      · cases hn
        grind [Pc.unlinked,Pc.loose,Pc.call,hears,Reply.endsStream]
      · cases hn
        grind [Pc.unlinked,Pc.loose,Pc.call,hears,Reply.endsStream]
    | fail e =>
      simp only [drainNext] at hn
      split at hn <;> cases hn <;>
        grind [Pc.unlinked,Pc.loose,Pc.call,hears,Reply.endsStream]
    | _ => cases hn
  | deliver x payload rest =>
    rw [answer_attached rfl hk fd]
    cases r with
    | ok =>
      cases hn
      exact before
    | _ => cases hn
  | delClient x rest =>
    rw [answer_attached rfl hk fd]
    cases r with
    | ok | fail e =>
      cases hn
      exact before
    | _ => cases hn
  | closeClient x rest =>
    rw [(answerClose_cases hk).1,close_attached]
    cases r with
    | ok | fail e =>
      cases hn
      grind [Pc.unlinked,Pc.loose,Pc.call,hears]
    | _ => cases hn
  | _ => cases hn

theorem cleanup_linked (h : Shape i pc k.table k.watch) (hw : k.Wf) (hl : Links C k pc)
    (hC : ∀ fd,C' fd=hears fd (pc.call i) r (C fd))
    (hk : k.answer (pc.call i) r=some k') (hn : cleanupNext i pc r=some (j,q,lines)) :
    Links C' k' q := by
  have closing {x : Fd} (hx : pc.call i=.close x) (ha : ¬k.Attached x)
      (hu : q.unlinked=pc.unlinked) : Links C' k' q := by
    intro fd
    rw [hx] at hk
    rw [hC,hx,(answerClose_cases hk).1,close_attached,hu]
    refine (hl fd).trans ⟨fun hf => ⟨⟨?_,hf.1⟩,hf.2⟩,fun hf => ⟨hf.1.2,hf.2⟩⟩
    intro e
    exact ha (e ▸ hf.1)
  cases pc with
  | cleanup stage code =>
    cases stage with
    | closeEpoll =>
      have own : ¬k.Attached i.epollFd := by
        rintro ⟨c,f,hf⟩
        by_cases he : i.epollFd=-1
        · rw [he,hw.minus_one] at hf
          cases hf
        · rw [h.epoll he rfl] at hf
          cases hf
      cases r with
      | ok | fail e =>
        cases hn
        exact closing rfl own rfl
      | _ => cases hn
    | closeServer =>
      have own : ¬k.Attached i.serverFd := by
        rintro ⟨c,f,hf⟩
        by_cases hs : i.serverFd=-1
        · rw [hs,hw.minus_one] at hf
          cases hf
        · obtain ⟨g,hg,hm⟩ := h.server hs rfl
          rw [hf] at hg
          cases hg
          cases hm
      cases r with
      | ok | fail e =>
        cases hn
        exact closing rfl own rfl
      | _ => cases hn
    | _ =>
      cases r with
      | ok =>
        cases hn
        exact idle_linked hl hC hk ⟨fun _ _ => rfl,rfl,rfl⟩
      | _ => cases hn
  | _ => cases hn

theorem reactor_linked {s t : State} (h : Owned s) (hl : Linked s) (hs : s.reactor r=some t) :
    Linked t := by
  obtain ⟨k,i,pc,lines,hk,hn,rfl⟩ := reactor_cases hs
  have trace (fd : Fd) : connected fd (lines++.call (s.pc.call s.impl) r::s.trace)=
      hears fd (s.pc.call s.impl) r (connected fd s.trace) :=
    (next_lines hn).skip (fun _ _ _ => rfl) _
  rcases next_cases hn with hn|hn|hn|hn|hn|hn
  · exact idle_linked hl trace hk (idle_next (.inl hn))
  · exact idle_linked hl trace hk (idle_next (.inr (.inl hn)))
  · exact idle_linked hl trace hk (idle_next (.inr (.inr hn)))
  · exact accept_linked h.shape hl trace hk hn
  · exact drain_linked hl trace hk hn
  · exact cleanup_linked h.shape h.wf hl trace hk hn

theorem effects_connected (effects : List Effect) (k : Kernel) (t : Trace) (fd : Fd) :
    connected fd (effects.foldl Effect.apply (k,t)).2=connected fd t := by
  induction effects generalizing k t with
  | nil => rfl
  | cons e effects ih => cases e <;> exact ih _ _

theorem closes_attached {fds : List Fd} (ha : ∀ fd∈fds,¬k.Attached fd) (x : Fd) :
    (fds.foldl Kernel.close k).Attached x ↔ k.Attached x := by
  unfold Attached
  rw [closes_table]
  split
  · rename_i hx
    simpa [Attached] using ha x hx
  · rfl

theorem stop_linked {s : State} (h : Owned s) (hl : Linked s) (nested : Nat)
    (hp : Placed s (.stop nested)) : Linked (s.stop nested) := by
  by_cases hr : s.impl.isRunning=true
  · obtain ⟨-,he,hs⟩ := hp hr
    have heq : s.impl.stop nested=s.impl.cleanup nested := by simp [Impl.stop,hr]
    have kernel : (s.stop nested).kernel=
        (closing (s.impl.cleanup nested).2).foldl Kernel.close s.kernel := by
      simp only [State.stop,heq]
      exact effects_kernel _
    have apart : ∀ x∈closing (s.impl.cleanup nested).2,¬s.kernel.Attached x := by
      rintro x hx ⟨c,f,hf⟩
      rcases (cleanup_closing nested s.impl x).mp hx with ⟨h0,rfl⟩|⟨h0,rfl⟩
      · have ne : s.impl.epollFd≠-1 := fun e => absurd (e ▸ h0) (by decide)
        rw [h.shape.epoll ne he] at hf
        cases hf
      · have ne : s.impl.serverFd≠-1 := fun e => absurd (e ▸ h0) (by decide)
        obtain ⟨g,hg,hm⟩ := h.shape.server ne hs
        rw [hf] at hg
        cases hg
        cases hm
    intro fd
    show connected fd (s.stop nested).trace=true ↔ (s.stop nested).kernel.Attached fd ∧ _
    rw [kernel,closes_attached apart]
    exact (iff_of_eq (congrArg (·=true) (effects_connected _ _ _ fd))).trans (hl fd)
  · rw [stop_idle (by simpa using hr)]
    exact hl

theorem step_linked (s : State) (a : Action) (t : State) (h : Owned s ∧ Linked s)
    (hp : Placed s a) (hs : machine.step s a=some t) : Owned t ∧ Linked t := by
  refine ⟨step_owned s a t h.1 hp hs,?_⟩
  cases a with
  | reactor r => exact reactor_linked h.1 h.2 hs
  | env e =>
    obtain ⟨k,hk,rfl⟩ := Option.map_eq_some_iff.mp hs
    exact fun fd => (h.2 fd).trans (and_congr_left' (env_attached e hk fd).symm)
  | stop nested =>
    cases hs
    exact stop_linked h.1 h.2 nested hp

end clients

section exit

/-- `cleanup` is done with the epoll instance. -/
def Pc.epollDone : Pc → Bool
  | .cleanup .testServer _ | .cleanup .closeServer _ | .cleanup .clearServer _
  | .cleanup .finish _ | .returned _ => true
  | _ => false

/-- `cleanup` is done with the listening socket too. -/
def Pc.serverDone : Pc → Bool
  | .cleanup .finish _ | .returned _ => true
  | _ => false

/-- What `cleanup` has reset so far. -/
structure Cleared (i : Impl) (pc : Pc) : Prop where
  epoll : pc.epollDone=true → i.epollFd=-1
  server : pc.serverDone=true → i.serverFd=-1

theorem next_cleared {i j : Impl} {pc q : Pc} {r : Reply} {lines : Trace}
    (hf : (i.serverFd=-1 ∨ 0 ≤ i.serverFd) ∧ (i.epollFd=-1 ∨ 0 ≤ i.epollFd))
    (hu : pc=.socket → i.epollFd=-1) (h : Cleared i pc) (hn : pc.next i r=some (j,q,lines)) :
    Cleared j q := by
  have early {j : Impl} {q : Pc} (hq : q.epollDone=false ∧ q.serverDone=false) : Cleared j q :=
    ⟨fun e => absurd e (by simp [hq.1]),fun e => absurd e (by simp [hq.2])⟩
  rcases next_cases hn with hn|hn|hn|hn|hn|hn
  · unfold setupNext bail at hn
    split at hn <;> cases hn <;> (try split) <;> try exact early ⟨rfl,rfl⟩
    exact ⟨fun _ => hu rfl,fun _ => rfl⟩
  · unfold flagsNext blockingFailed bail at hn
    split at hn <;> (try split at hn) <;> cases hn <;> exact early ⟨rfl,rfl⟩
  · unfold loopNext at hn
    split at hn <;> (try split at hn) <;> cases hn <;> exact early ⟨rfl,rfl⟩
  · unfold acceptNext at hn
    split at hn <;> cases hn <;> exact early ⟨rfl,rfl⟩
  · unfold drainNext at hn
    split at hn <;> (try split at hn) <;> cases hn <;> (try split) <;> exact early ⟨rfl,rfl⟩
  · have epoll := h.epoll
    have server := h.server
    unfold cleanupNext at hn
    split at hn <;> cases hn <;> (try split) <;> constructor <;>
      grind [Pc.epollDone,Pc.serverDone]

theorem stop_cleared {i : Impl} {pc : Pc} (h : Cleared i pc) (nested : Nat) :
    Cleared (i.stop nested).1 pc := by
  unfold Impl.stop
  split
  · rw [cleanup_impl]
    constructor
    · intro e
      simp [h.epoll e]
    · intro e
      simp [h.server e]
  · exact h

theorem step_cleared {F : Fd → Bool} (s : State) (a : Action) (t : State)
    (h : Housed F s ∧ Cleared s.impl s.pc) (hp : Placed s a) (hs : machine.step s a=some t) :
    Housed F t ∧ Cleared t.impl t.pc := by
  refine ⟨step_housed s a t h.1 hp hs,?_⟩
  cases a with
  | reactor r =>
    obtain ⟨k,i,pc,lines,-,hn,rfl⟩ := reactor_cases hs
    refine next_cleared h.1.shape.fields ?_ h.2 hn
    intro e
    apply h.1.shape.unopened.2
    rw [e]
    rfl
  | env e =>
    obtain ⟨k,-,rfl⟩ := Option.map_eq_some_iff.mp hs
    exact h.2
  | stop nested =>
    cases hs
    exact stop_cleared h.2 nested

/-- After `start` has returned, whatever it still owns is a connection. -/
theorem returned_owns {F : Fd → Bool} {s : State} (h : Housed F s) (hc : Cleared s.impl s.pc)
    {code : ErrorCode} (hp : s.pc=.returned code) (fd : Fd) :
    s.kernel.Owns fd ↔ s.kernel.Attached fd := by
  have server : s.impl.serverFd=-1 := hc.server (by rw [hp]; rfl)
  have epoll : s.impl.epollFd=-1 := hc.epoll (by rw [hp]; rfl)
  refine ⟨?_,attached_owns⟩
  rintro ⟨f,hf,hne⟩
  have h0 : fd≠-1 := by
    intro e
    have h0 := owns_nonneg h.wf ⟨f,hf,hne⟩
    rw [e] at h0
    exact absurd h0 (by decide)
  cases hF : F fd with
  | true => exact h.aside.attached fd hF
  | false =>
    have known := (veil_own hF).trans hf
    cases f with
    | conn c a => exact ⟨c,a,hf⟩
    | sock a | listener a => exact absurd ((h.shape.serverOnly fd _ known rfl).1.trans server) h0
    | epoll => exact absurd ((h.shape.epollOnly fd known).1.trans epoll) h0
    | foreign => exact absurd rfl hne

/-- After `start` has returned, what is left open are the connected clients. -/
theorem returned_held {s : State} (h : Owned s) (hl : Linked s) (hc : Cleared s.impl s.pc)
    {code : ErrorCode} (hp : s.pc=.returned code) (fd : Fd) :
    Ledger.held fd (ledger s.trace)=connected fd s.trace := by
  apply Bool.eq_iff_iff.mpr
  rw [h.agrees fd,hl fd,returned_owns h.housed hc hp,hp]
  simp [Pc.unlinked,Pc.loose]

end exit

/-- One client connects, is accepted as descriptor 5 and hooked into the epoll
set; the listening socket is 3, the epoll instance 4. -/
def oneClient : List Action :=
  [.reactor (.fd 3),.reactor .ok,.reactor (.flags 2),.reactor .ok,.reactor .ok,.reactor .ok,
    .reactor (.fd 4),.reactor .ok,.reactor .ok,.reactor .ok,.reactor .ok,.env (.connect 3),
    .reactor .ok,.reactor (.events [⟨3,⟨true,false,false⟩⟩]),.reactor .ok,.reactor (.conn 5 0),
    .reactor (.flags 2),.reactor .ok,.reactor .ok,.reactor (.fail .eagain),.reactor .ok,
    .reactor .ok]

/-- `stop()` at the head of the loop while that client is connected. -/
def stopConnected : List Action :=
  oneClient++[.stop 0,.reactor (.fail .ebadf),.reactor .ok,.reactor .ok,.reactor .ok]

/-- The client sends a byte and leaves, and `stop()` comes before the next `epoll_wait`. -/
def stopDeserted : List Action :=
  oneClient++[.env (.send 0 [65]),.env (.arrive 0 1),.env (.shut 0),.env (.finish 0),.reactor .ok,
    .reactor (.events [⟨5,⟨true,false,false⟩⟩]),.reactor .ok,.reactor (.data [65]),.reactor .ok,
    .reactor (.data []),.reactor .ok,.reactor .ok,.reactor .ok,.reactor .ok,.stop 0,
    .reactor (.fail .ebadf),.reactor .ok,.reactor .ok,.reactor .ok]

/-- A byte and a second connection arrive in one batch, and the data callback
calls `stop()` while the entry of the listening socket is still pending. -/
def stopPending : List Action :=
  oneClient++[.env (.send 0 [65]),.env (.arrive 0 1),.env (.connect 3),.reactor .ok,
    .reactor (.events [⟨5,⟨true,false,false⟩⟩,⟨3,⟨true,false,false⟩⟩]),.reactor .ok,
    .reactor (.data [65]),.reactor .ok,.stop 0,.reactor (.fail .eagain),.reactor .ok,
    .reactor (.fail .ebadf)]

section runs

variable (port : Int) (options : TcpOptions) (loggerCb dataCb : Bool) (foreign : List Fd)

/-- Before the first batch, or between two batches. -/
def Pc.boundary : Pc → Bool
  | .allocate | .loopHead | .epollWait | .waiting _ => true
  | _ => false

/-- `stop()` takes effect before the loop, at its head or around `epoll_wait`. -/
def AtBoundary (s : State) : Action → Prop
  | .stop _ => s.impl.isRunning=true → s.pc.boundary=true
  | _ => True

instance (s : State) : ∀ a,Decidable (AtBoundary s a)
  | .stop _ => inferInstanceAs (Decidable (_ → _))
  | .reactor _ | .env _ => isTrue trivial

theorem AtBoundary.placed {s : State} {a : Action} (h : AtBoundary s a) : Placed s a := by
  cases a with
  | stop nested =>
    intro hr
    have hb := h hr
    cases hp : s.pc with
    | allocate | loopHead | epollWait | waiting =>
      simp [Pc.pending,Pc.staleEpoll,Pc.staleServer]
    | _ =>
      rw [hp] at hb
      cases hb
  | _ => trivial

theorem boot_linked : Linked (.boot port options loggerCb dataCb foreign) := by
  intro fd
  have none : ¬(Kernel.boot foreign).Attached fd := by
    rintro ⟨c,f,hf⟩
    simp [Kernel.boot] at hf
  simp [State.boot,connected,none]

theorem run_exit {as : List Action} {t : State}
    (hp : machine.Meets Placed (.boot port options loggerCb dataCb foreign) as)
    (hr : machine.run (.boot port options loggerCb dataCb foreign) as=some t) :
    Owned t ∧ Linked t ∧ Cleared t.impl t.pc := by
  have boot := boot_owned port options loggerCb dataCb foreign
  have linked := machine.invariant step_linked as _ t
    ⟨boot,boot_linked port options loggerCb dataCb foreign⟩ hp hr
  have cleared := machine.invariant step_cleared as _ t ⟨boot.housed,⟨by simp [State.boot],by
    simp [State.boot]⟩⟩ hp hr
  exact ⟨linked.1,linked.2,cleared.2⟩

/-- `stop()` keeps the reactor to its own descriptors, and every number is closed
once per allocation, except for clients still connected when `start` returns. -/
theorem stop_keeps_discipline (as : List Action) (t : State)
    (hc : machine.Meets Clean (.boot port options loggerCb dataCb foreign) as)
    (hr : machine.run (.boot port options loggerCb dataCb foreign) as=some t) :
    (∀ newer c r older,t.trace=newer++.call c r::older →
      ∀ fd∈c.names,fd=-1 ∨ Ledger.held fd (ledger older)=true) ∧
    (∀ fd,Ledger.acquired fd (ledger t.trace)=
      Ledger.released fd (ledger t.trace)+(Ledger.held fd (ledger t.trace)).toNat) ∧
    ∀ code,t.pc=.returned code → ∀ fd,connected fd t.trace=false →
      Ledger.released fd (ledger t.trace)=Ledger.acquired fd (ledger t.trace) := by
  have discipline := (machine.invariant step_disciplined as _ t
    ⟨(boot_owned port options loggerCb dataCb foreign).housed,trivial⟩ hc hr).2
  obtain ⟨owned,linked,cleared⟩ := run_exit port options loggerCb dataCb foreign
    (Machine.Meets.mono machine (fun _ _ h => h.1) as _ hc) hr
  refine ⟨?_,fun fd => Ledger.balance fd _ discipline,?_⟩
  · intro newer c r older ht
    rw [ht,ledger_append,ledger_call] at discipline
    exact disciplined_names discipline.suffix
  · intro code hp fd hfd
    apply Ledger.released_of_free fd _ discipline
    rw [returned_held owned linked cleared hp fd]
    exact hfd

theorem stop_keeps_discipline_connected : ∃ t,
    machine.run (.boot 8080 {} false true []) stopConnected=some t ∧
    ∀ fd,Ledger.acquired fd (ledger t.trace)=
      Ledger.released fd (ledger t.trace)+(Ledger.held fd (ledger t.trace)).toNat := by
  have run : (machine.run (.boot 8080 {} false true []) stopConnected).isSome=true := by
    decide +kernel
  obtain ⟨t,ht⟩ := Option.isSome_iff_exists.mp run
  exact ⟨t,ht,(stop_keeps_discipline 8080 {} false true [] stopConnected t (by decide +kernel)
    ht).2.1⟩

theorem stop_misroutes_listener : ¬∀ as t,
    machine.run (.boot 8080 {} false true []) as=some t →
    ∀ newer c r older,t.trace=newer++.call c r::older →
      ∀ fd∈c.names,fd=-1 ∨ Ledger.held fd (ledger older)=true := by
  intro h
  have run : (machine.run (.boot 8080 {} false true []) stopPending).map (fun t =>
      (t.trace.head?,Ledger.held 3 (ledger t.trace.tail)))=
        some (some (.call (.read 3 4096) (.fail .ebadf)),false) := by
    decide +kernel
  obtain ⟨t,ht,heq⟩ := Option.map_eq_some_iff.mp run
  obtain ⟨last,free⟩ := Prod.mk.injEq .. ▸ heq
  have split := List.eq_cons_of_mem_head? last
  rcases h stopPending t ht [] _ _ _ split 3 (by decide) with hm|hm
  · cases hm
  · rw [free] at hm
    cases hm

/-- When `start` returns, everything it opened is closed if and only if no client
is still connected. -/
theorem start_releases (as : List Action) (t : State)
    (hb : machine.Meets AtBoundary (.boot port options loggerCb dataCb foreign) as)
    (hr : machine.run (.boot port options loggerCb dataCb foreign) as=some t) (code : ErrorCode)
    (hp : t.pc=.returned code) :
    (∀ fd,Ledger.held fd (ledger t.trace)=false) ↔ ∀ fd,connected fd t.trace=false := by
  obtain ⟨owned,linked,cleared⟩ := run_exit port options loggerCb dataCb foreign
    (Machine.Meets.mono machine (fun _ _ h => h.placed) as _ hb) hr
  exact forall_congr' fun fd => by rw [returned_held owned linked cleared hp fd]

theorem start_releases_deserted : ∃ t,
    machine.run (.boot 8080 {} false true []) stopDeserted=some t ∧ t.pc=.returned .success ∧
    (∀ fd∈[3,4,5],Ledger.held fd (ledger t.trace)=false) ∧
    ((∀ fd,Ledger.held fd (ledger t.trace)=false) ↔ ∀ fd,connected fd t.trace=false) := by
  have boundary : machine.Meets AtBoundary (.boot 8080 {} false true []) stopDeserted := by
    decide +kernel
  have run : (machine.run (.boot 8080 {} false true []) stopDeserted).map (fun t =>
      (t.pc,[3,4,5].map fun fd => Ledger.held fd (ledger t.trace)))=
        some (.returned .success,[false,false,false]) := by
    decide +kernel
  obtain ⟨t,ht,heq⟩ := Option.map_eq_some_iff.mp run
  obtain ⟨hp,free⟩ := Prod.mk.injEq .. ▸ heq
  have released := start_releases 8080 {} false true [] stopDeserted t boundary ht .success hp
  exact ⟨t,ht,hp,by simpa using free,released⟩

theorem start_leaks_client : ¬∀ as t code,
    machine.Meets AtBoundary (.boot 8080 {} false true []) as →
    machine.run (.boot 8080 {} false true []) as=some t → t.pc=.returned code →
    ∀ fd,Ledger.held fd (ledger t.trace)=false := by
  intro h
  have boundary : machine.Meets AtBoundary (.boot 8080 {} false true []) stopConnected := by
    decide +kernel
  have run : (machine.run (.boot 8080 {} false true []) stopConnected).map (fun t =>
      (t.pc,Ledger.held 5 (ledger t.trace)))=some (.returned .success,true) := by
    decide +kernel
  obtain ⟨t,ht,heq⟩ := Option.map_eq_some_iff.mp run
  obtain ⟨hp,hh⟩ := Prod.mk.injEq .. ▸ heq
  have closed := h stopConnected t .success boundary ht hp 5
  rw [hh] at closed
  cases closed

end runs

end TuyulNet.Server
