import TuyulNet.Client.Holding
import TuyulNet.Client.Lifecycle

namespace TuyulNet.Client

open Framework Kernel

/-- No descriptor but those in the fields, and none at all once a connection is
torn down. -/
structure Tidied (i : Impl) (a : App) (w : Worker) (k : Kernel) (pending : Bool) : Prop where
  only : ∀ fd,k.Owns fd → fd=i.clientFd ∨ fd=i.epollFd
  client : a.clearsClient=true → ¬k.Owns i.clientFd
  epoll : a.clearsEpoll=true → ¬k.Owns i.epollFd
  settled : a.settled=true → i.isConnected=false → pending=false →
    i.clientFd=-1 ∧ i.epollFd=-1
  unpolled : a.unpolled=true → i.epollFd=-1
  unjoined : pending=true → w≠.none
  released : a=.idle (some .disconnect) → pending=false

/-- A connection that the worker has dropped is torn down before the next
`connect_to` opens a socket, and `disconnect` does not come after such a drop. -/
def Tidy (s : State) : Action → Prop
  | .app _ => (s.app.opens=true → dropPending s.trace=false) ∧
    (s.app=.testDisconnect false → s.impl.isConnected=false → dropPending s.trace=false)
  | a => a.civil=true

instance (s : State) : ∀ a,Decidable (Tidy s a)
  | .app _ => inferInstanceAs (Decidable (_ ∧ _))
  | .request _ | .worker _ | .callback _ | .env _ => inferInstanceAs (Decidable (_=true))

section tidy

variable {i j : Impl} {a b : App} {w v : Worker} {k l : Kernel} {r : Reply} {lines : Trace}
  {pending pending' : Bool}

/-- `disconnect` returns from `shutdown_pipeline`, or finds `is_connected` false. -/
theorem next_released (hn : a.next i r=some (j,.idle (some .disconnect),lines)) :
    a.phase=.closing ∨ a=.testDisconnect false ∧ i.isConnected=false := by
  cases a with
  | idle | gone => cases hn
  | shutdown stage purpose =>
    have mv := app_moves hn
    cases stage with
    | clearFlag | testJoin | join => simp [App.phase,Moves] at mv
    | _ => exact .inl rfl
  | send x =>
    obtain ⟨⟨more,lines⟩,-,heq⟩ := Option.map_eq_some_iff.mp hn
    have last := congrArg (fun x : Impl × App × Trace => x.2.1) heq
    cases more <;> cases last
  | testDisconnect destroying =>
    cases r <;> (try cases hn)
    have last := congrArg (fun x : Impl × App × Trace => x.2.1) (Option.some.inj hn)
    by_cases hi : i.isConnected=true
    · simp [hi] at last
    · cases destroying with
      | false => exact .inr ⟨rfl,by simpa using hi⟩
      | true => simp [hi] at last
  | testConnected host port =>
    cases r <;> (try cases hn)
    have hn : (if i.isConnected=true then _ else _)=_ := hn
    split at hn <;> cases hn
  | _ => cases r <;> cases hn

/-- What the one `Impl` of the process holds is all that is open. -/
theorem Tidied.step (h : Tidied i a w k pending) (holds : Holds j b l) (passes : Passes i j k l)
    (hc : Control j b.phase v pending') (joined : pending'=true → v≠.none)
    (release : b=.idle (some .disconnect) → pending'=false) : Tidied j b v l pending' where
  only := by
    intro fd ho
    rcases passes.only fd ho with hm|⟨ho,hm⟩
    · exact mem_fds.mp hm
    · exact absurd (mem_fds.mpr (h.only fd ho)) hm
  client := holds.client
  epoll := holds.epoll
  settled := by
    intro hb hj hp
    exact holds.settled hb hj (hc.free hj hp (settled_phase hb).2)
  unpolled := holds.unpolled
  unjoined := joined
  released := release

end tidy

def State.Tidied (s : State) : Prop :=
  Client.Tidied s.impl s.app s.worker s.kernel (dropPending s.trace)

section steps

variable {s t : State} {r : Reply}

theorem appStep_tidied (h : Sound s) (ht : s.Tidied) (hh : Holds s.impl s.app s.kernel)
    (hc : Tidy s (.app r)) (hs : s.appStep r=some t) :
    t.Tidied ∧ Holds t.impl t.app t.kernel := by
  have control := app_control h.control hs
  obtain ⟨-,k,i,app,lines,hk,hn,rfl⟩ := appStep_cases hs
  have opens : s.app.opens=true → s.impl.joinable=false := by
    intro ho
    have phase : s.app.phase=.opening := by
      cases ha : s.app <;> rw [ha] at ho <;> first | rfl | cases ho
    exact h.control.free (h.control.unset (by rw [phase]; rfl)) (hc.1 ho) (by simp [phase])
  obtain ⟨holds,passes⟩ :=
    app_holds h.wf h.fields hh (h.control.weaken fun _ => rfl) opens hk hn
  have skip := (app_lines hn).skip (f := dropPending) (fun _ _ _ => rfl)
    (.call (s.app.call s.impl) r::s.trace)
  have thread := app_thread s.app s.impl r s.worker s.trace
  refine ⟨Tidied.step ht holds passes control ?_ ?_,holds⟩
  · show dropPending (lines++_)=true → _
    rw [skip]
    rcases thread with ⟨-,-,-,hw,hd⟩|⟨-,hw,hd⟩|⟨-,hw,hd⟩
    · simp [hw]
    · simp [hd]
    · rw [hw,hd]
      exact ht.unjoined
  · rintro rfl
    show dropPending (lines++_)=false
    rw [skip]
    have quiet : dropPending s.trace=false := by
      rcases next_released hn with hp|⟨ha,hi⟩
      · have free := h.control.closing hp
        by_contra hd
        exact ht.unjoined (by simpa using hd) (h.control.unmanned (by simp [hp]) free)
      · exact hc.2 ha hi
    rcases thread with ⟨-,-,-,-,hd⟩|⟨-,-,hd⟩|⟨-,-,hd⟩
    · exact hd.trans quiet
    · exact hd
    · exact hd.trans quiet

theorem workerStep_tidied (h : Sound s) (ht : s.Tidied) (hh : Holds s.impl s.app s.kernel)
    (hs : s.workerStep r=some t) : t.Tidied ∧ Holds t.impl t.app t.kernel := by
  have control := worker_control h.control (by simp [Polite,h.asks]) hs
  obtain ⟨k,i,worker,lines,hk,hn,rfl⟩ := workerStep_cases hs
  obtain ⟨holds,keeps,fds⟩ := worker_holds hh (h.control.weaken fun _ => rfl) hk hn
  obtain ⟨was,still,-⟩ := worker_moves h.control.outside hn
  refine ⟨Tidied.step ht holds (.keeps keeps fds) control (fun _ => still) ?_,holds⟩
  -- after `disconnect` there is no worker
  intro ha
  have phase : s.app.phase=.released := by rw [show s.app=_ from ha]; rfl
  have flag := h.control.unset (by rw [phase]; rfl)
  have free := h.control.free flag (ht.released ha) (by simp [phase])
  exact absurd (h.control.unmanned (by simp [phase]) free) was

theorem step_tidied (s : State) (a : Action) (t : State)
    (h : Sound s ∧ s.Tidied ∧ Holds s.impl s.app s.kernel) (hc : Tidy s a)
    (hs : machine.step s a=some t) :
    Sound t ∧ t.Tidied ∧ Holds t.impl t.app t.kernel := by
  have civil : a.civil=true := by
    cases a with
    | app r => rfl
    | _ => exact hc
  have sound := step_sound s a t h.1 civil hs
  refine ⟨sound,?_⟩
  obtain ⟨h,tidied,holds⟩ := h
  obtain ⟨-,⟨q,last,rfl,ha,rfl⟩|⟨r,rfl,ht⟩|⟨r,rfl,ht⟩|⟨c,rest,rfl,hw,rfl⟩|⟨e,k,rfl,hk,rfl⟩⟩ :=
    step_cases hs
  · obtain ⟨clears,plain⟩ := entry_plain q
    have next : Holds s.impl q.entry s.kernel := by
      rw [ha] at holds
      exact holds.between rfl clears plain
    refine ⟨Tidied.step tidied next (.keeps (Keeps.refl _) rfl) sound.control tidied.unjoined ?_,
      next⟩
    cases q <;> simp [Request.entry]
  · exact appStep_tidied h tidied holds hc ht
  · exact workerStep_tidied h tidied holds ht
  · refine ⟨{ tidied with unjoined := ?_ },holds⟩
    cases c <;> simp [Callback.entry]
  · have keeps := env_keeps e hk
    have next := holds.keeps keeps
    exact ⟨Tidied.step tidied next (.keeps keeps rfl) sound.control tidied.unjoined
      tidied.released,next⟩

end steps

section runs

variable (options : TcpOptions) (loggerCb dataCb pipeSignal : Bool) (foreign : List Fd)

theorem boot_tidied : (State.boot options loggerCb dataCb pipeSignal foreign).Tidied := by
  constructor
  · rintro fd ⟨f,hf,hne⟩
    simp only [State.boot,Kernel.boot] at hf
    split at hf <;> cases hf
    exact absurd rfl hne
  all_goals simp [State.boot,App.clearsClient,App.clearsEpoll,App.unpolled,dropPending]

/-- Everything that is open is in one of the two fields. -/
def Accounted (s : State) : Prop :=
  ∀ fd,Ledger.held fd (ledger s.trace)=true → fd=s.impl.clientFd ∨ fd=s.impl.epollFd

/-- The idle state: nothing is left of any connection. -/
structure Released (s : State) : Prop where
  flag : s.impl.isConnected=false
  client : s.impl.clientFd=-1
  epoll : s.impl.epollFd=-1
  handle : s.impl.joinable=false
  closed : ∀ fd,Ledger.held fd (ledger s.trace)=false ∧
    Ledger.released fd (ledger s.trace)=Ledger.acquired fd (ledger s.trace)

/-- Between calls nothing is open but what the fields name, and `disconnect` leaves
the idle state. -/
theorem disconnect_releases (as : List Action) (t : State)
    (hc : machine.Meets Tidy (.boot options loggerCb dataCb pipeSignal foreign) as)
    (hr : machine.run (.boot options loggerCb dataCb pipeSignal foreign) as=some t) :
    (∀ last,t.app=.idle last → Accounted t) ∧
      (t.app=.idle (some .disconnect) → Released t) := by
  have booted : Holds { options,loggerCb,dataCb } (.idle none) (Kernel.boot foreign) := by
    constructor <;> simp [App.clearsClient,App.clearsEpoll,App.unpolled,App.dialed]
  obtain ⟨h,tidied,-⟩ := machine.invariant step_tidied as _ t
    ⟨boot_sound options loggerCb dataCb pipeSignal foreign,
      boot_tidied options loggerCb dataCb pipeSignal foreign,booted⟩ hc hr
  refine ⟨fun last ha fd hh => tidied.only fd ((h.agrees fd).mp hh),?_⟩
  intro ha
  have phase : t.app.phase=.released := by rw [ha]; rfl
  have flag := h.control.unset (by rw [phase]; rfl)
  have quiet := tidied.released ha
  obtain ⟨client,epoll⟩ := tidied.settled (by rw [ha]; rfl) flag quiet
  have free := h.control.free flag quiet (by simp [phase])
  refine ⟨flag,client,epoll,free,fun fd => ?_⟩
  have none : Ledger.held fd (ledger t.trace)=false := by
    by_contra hh
    have owns := (h.agrees fd).mp (by simpa using hh)
    apply minus_one_free h.wf
    rcases tidied.only fd owns with e|e
    · rwa [← client,← e]
    · rwa [← epoll,← e]
  exact ⟨none,Ledger.released_of_free fd _ h.disciplined none⟩

theorem disconnect_releases_hung_up : ∃ t,
    machine.run (.boot {} false true true []) (hungUp.take 26)=some t ∧
    t.app=.idle (some .disconnect) ∧ Released t := by
  have run : (machine.run (.boot {} false true true []) (hungUp.take 26)).map State.app=
      some (.idle (some .disconnect)) := by
    decide +kernel
  obtain ⟨t,ht,ha⟩ := Option.map_eq_some_iff.mp run
  exact ⟨t,ht,ha,(disconnect_releases {} false true true [] _ t (by decide +kernel) ht).2 ha⟩

/-- A connection that was dropped keeps its descriptors through `disconnect`. -/
theorem disconnect_after_drop : ¬∀ as t,(∀ a∈as,a.civil=true) →
    machine.run (.boot {} false true true []) as=some t →
    (∀ last,t.app=.idle last → Accounted t) ∧
      (t.app=.idle (some .disconnect) → Released t) := by
  intro h
  have run : (machine.run (.boot {} false true true [])
      (dropped++[.request .disconnect,.app .ok])).map (fun t => (t.app,t.impl.clientFd))=
        some (.idle (some .disconnect),3) := by
    decide +kernel
  obtain ⟨t,ht,heq⟩ := Option.map_eq_some_iff.mp run
  obtain ⟨ha,hc⟩ := Prod.mk.injEq .. ▸ heq
  have client := ((h _ t (by decide +kernel) ht).2 ha).client
  rw [hc] at client
  exact absurd client (by decide)

end runs

end TuyulNet.Client
