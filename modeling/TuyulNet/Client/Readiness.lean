import TuyulNet.Client.Descriptors
import TuyulNet.Client.Lifecycle
import TuyulNet.Kernel.Readiness

namespace TuyulNet.Client

open Framework Kernel

/-- The entries of the last batch that the worker has yet to deal with; while it
drains, the entry of `fd` is one of them. -/
def Worker.remaining (fd : Fd) : Worker → List Fd
  | .batch es => es.map PollEvent.fd
  | .read rest | .deliver _ rest | .user rest | .testDisconnect rest | .shutdown _ rest
  | .send _ rest => fd::rest.map PollEvent.fd
  | .drop => [fd]
  | _ => []

/-- About to pass over an event without `EPOLLIN`. -/
def Worker.skips : Worker → Bool
  | .batch (e::_) => !e.mask.input
  | _ => false

/-- Somebody will hear of what can be read from the socket. -/
def State.Queued (s : State) : Prop :=
  s.kernel.readable s.impl.clientFd=true →
    s.impl.clientFd∈(s.kernel.polls s.impl.epollFd).ready

instance (s : State) : Decidable s.Queued := inferInstanceAs (Decidable (_ → _))

/-- An event without `EPOLLIN` is passed over only if there is nothing to read, or
if the socket has been queued again. -/
def Heeds (s : State) : Action → Prop
  | .worker _ => s.worker.skips=true → s.impl.isConnected=true → s.Queued
  | _ => True

instance (s : State) : ∀ a,Decidable (Heeds s a)
  | .worker _ => inferInstanceAs (Decidable (_ → _ → _))
  | .request _ | .app _ | .callback _ | .env _ => isTrue trivial

/-- `fd` is all that `ep` watches, and no readiness of it is lost. -/
structure Watching (k : Kernel) (ep fd : Fd) (l : List Fd) : Prop where
  hooked : k.watch ep fd≠none
  only : ∀ x,k.watch ep x≠none → x=fd
  awake : k.Awake ep l

structure Heard (s : State) : Prop where
  fresh : s.app=.epollAdd → ∀ x,s.kernel.watch s.impl.epollFd x=none
  watching : s.app=.setConnected ∨ s.impl.isConnected=true →
    Watching s.kernel s.impl.epollFd s.impl.clientFd (s.worker.remaining s.impl.clientFd)

section watching

variable {k l : Kernel} {ep fd : Fd} {m n : List Fd} {c : Call} {r : Reply}

theorem Watching.entry (h : Watching k ep fd m) (hn : fd∈n) : Watching k ep fd n :=
  ⟨h.hooked,h.only,h.awake.entry h.only hn⟩

theorem Watching.answer (h : Watching k ep fd m) (hw : k.Wf) (quiet : c.quiet=true)
    (renews : c.renews=false) (hk : k.answer c r=some l) : Watching l ep fd m where
  hooked := by
    rw [(answer_quiet quiet hk).2]
    exact h.hooked
  only := by
    intro x hx
    rw [(answer_quiet quiet hk).2] at hx
    exact h.only x hx
  awake := answer_awake hw h.awake renews hk

theorem Watching.env (h : Watching k ep fd m) (hw : k.Wf) (own : k.Owns fd) (e : Env)
    (hk : k.env e=some l) : Watching l ep fd m where
  hooked := by
    rcases env_watch hw e hk ep fd with same|⟨-,foreign⟩
    · rw [same]
      exact h.hooked
    · obtain ⟨f,hf,hn⟩ := own
      rw [foreign] at hf
      exact absurd (Option.some.inj hf).symm hn
  only := by
    intro x hx
    rcases env_watch hw e hk ep x with same|⟨none,-⟩
    · exact h.only x (same ▸ hx)
    · exact absurd none hx
  awake := env_awake hw h.awake e hk

theorem Watching.harvest (h : Watching k ep fd []) (es : List Fd) :
    Watching { k with polls := Function.update k.polls ep ((k.polls ep).harvest es) } ep fd es where
  hooked := by
    rw [update_poll_watch,if_pos rfl]
    exact h.hooked
  only := by
    intro x hx
    rw [update_poll_watch,if_pos rfl] at hx
    exact h.only x hx
  awake := h.awake.harvest es

/-- No entry is needed for a socket that is not readable or queued anyway. -/
theorem Watching.settle (h : Watching k ep fd m)
    (hq : k.readable fd=true → fd∈(k.polls ep).ready) : Watching k ep fd n where
  hooked := h.hooked
  only := h.only
  awake := by
    refine ⟨?_,h.awake.level⟩
    intro x hx hr
    have own := h.only x hx
    subst x
    exact .inl (hq hr)

/-- A socket that is hooked into a new epoll set. -/
theorem Watching.hook (hn : ∀ x,k.watch ep x=none) (t : Trigger) :
    Watching (k.register ep fd t) ep fd m where
  hooked := by simp [register_watch]
  only := by
    intro x hx
    by_contra hne
    rw [register_watch,if_neg (fun e => hne e.2),hn] at hx
    exact hx rfl
  awake := Awake.add (.of_unwatched hn) fd t

end watching

section steps

variable {i j : Impl} {a b : App} {w v : Worker} {k l : Kernel} {r : Reply} {lines : Trace}

/-- How the application thread gets a socket watched. -/
theorem app_hooks (hn : a.next i r=some (j,b,lines)) :
    (b=.epollAdd → a=.epollCreate ∧ r=.fd j.epollFd) ∧
    (b=.setConnected → a=.epollAdd ∧ r=.ok ∧ j=i) ∧
    (j.isConnected=true → i.isConnected=true ∨
      a=.setConnected ∧ r=.ok ∧ j.clientFd=i.clientFd ∧ j.epollFd=i.epollFd) := by
  have dial : dialNext i a r=some (j,b,lines) → b≠.epollAdd ∧ b≠.setConnected ∧
      j.isConnected=i.isConnected := by
    intro h
    unfold dialNext at h
    split at h <;> (try split at h) <;> cases h <;> simp
  have hook : hookNext i a r=some (j,b,lines) →
      (b=.epollAdd → a=.epollCreate ∧ r=.fd j.epollFd) ∧
      (b=.setConnected → a=.epollAdd ∧ r=.ok ∧ j=i) ∧
      (j.isConnected=true → i.isConnected=true ∨
        a=.setConnected ∧ r=.ok ∧ j.clientFd=i.clientFd ∧ j.epollFd=i.epollFd) := by
    intro h
    unfold hookNext bail at h
    split at h <;> cases h <;> simp_all
  have plain (h : b≠.epollAdd ∧ b≠.setConnected ∧
      (j.isConnected=true → i.isConnected=true)) :
      (b=.epollAdd → a=.epollCreate ∧ r=.fd j.epollFd) ∧
      (b=.setConnected → a=.epollAdd ∧ r=.ok ∧ j=i) ∧
      (j.isConnected=true → i.isConnected=true ∨
        a=.setConnected ∧ r=.ok ∧ j.clientFd=i.clientFd ∧ j.epollFd=i.epollFd) :=
    ⟨fun hb => absurd hb h.1,fun hb => absurd hb h.2.1,fun up => .inl (h.2.2 up)⟩
  cases a with
  | idle | gone => cases hn
  | shutdown stage purpose =>
    obtain ⟨⟨j,more,lines⟩,hs,heq⟩ := Option.map_eq_some_iff.mp hn
    cases heq
    have resume : purpose.resume≠.epollAdd ∧ purpose.resume≠.setConnected := by
      cases purpose with
      | connect code => simp [Purpose.resume]
      | disconnect destroying => cases destroying <;> simp [Purpose.resume]
    have flag : j.isConnected=true → i.isConnected=true := by
      unfold Shutdown.next at hs
      split at hs <;> cases hs <;> simp
    cases more with
    | none => exact plain ⟨resume.1,resume.2,flag⟩
    | some stage => exact plain ⟨by simp,by simp,flag⟩
  | send s =>
    obtain ⟨⟨more,lines⟩,hs,heq⟩ := Option.map_eq_some_iff.mp hn
    cases heq
    cases more <;> exact plain ⟨by simp,by simp,id⟩
  | testDisconnect destroying =>
    cases r <;> cases hn
    refine plain ⟨?_,?_,id⟩ <;> split <;> (try split) <;> simp
  | destroyImpl =>
    cases r <;> cases hn
    exact plain ⟨by simp,by simp,id⟩
  | getFl | setFl | epollCreate | epollAdd | setConnected | spawn | assign => exact hook hn
  | _ =>
    obtain ⟨h1,h2,flag⟩ := dial hn
    exact plain ⟨h1,h2,flag ▸ id⟩

theorem app_renews (a : App) (i : Impl) (hq : (a.call i).quiet=true) :
    (a.call i).renews=false := by
  cases a with
  | shutdown stage purpose => cases stage <;> rfl
  | send s => cases s <;> rfl
  | _ => first | rfl | cases hq

/-- What a step of the worker does to the entries that it has yet to deal with. -/
theorem worker_remaining (hw : w.shutting=false) (hd : w≠.drop) (fd : Fd)
    (hn : w.next i r=some (j,v,lines)) :
    (∃ ep,w=.waiting ep ∧ ((∃ es,r=.events es ∧ v.remaining fd=es.map PollEvent.fd) ∨
      ∃ e,r=.fail e ∧ v.remaining fd=[])) ∨
    (w.call i).renews=false ∧ (v.remaining fd=w.remaining fd ∨ fd∈v.remaining fd ∨
      (∃ e rest,w=.batch (e::rest) ∧ w.skips=true ∧ v=.batch rest) ∨
      ∃ rest e,w=.read rest ∧ r=.fail e ∧ e.wouldBlock=true ∧ v=.batch rest) := by
  cases w with
  | shutdown stage rest => cases hw
  | none | finished | user => cases r <;> cases hn
  | drop => exact absurd rfl hd
  | start =>
    cases r <;> cases hn
    exact .inr ⟨rfl,.inl rfl⟩
  | loopHead =>
    cases r <;> cases hn
    exact .inr ⟨rfl,.inl (by split <;> rfl)⟩
  | epollWait =>
    cases r <;> cases hn
    · exact .inr ⟨rfl,.inl rfl⟩
    · exact .inr ⟨rfl,.inl (by split <;> rfl)⟩
  | waiting ep =>
    cases r <;> cases hn
    · exact .inl ⟨ep,rfl,.inr ⟨_,rfl,by split <;> rfl⟩⟩
    · refine .inl ⟨ep,rfl,.inl ⟨_,rfl,?_⟩⟩
      split
      · rename_i he
        rw [he]
        rfl
      · rfl
  | batch es =>
    cases es with
    | nil =>
      cases r <;> cases hn
      exact .inr ⟨rfl,.inl rfl⟩
    | cons e rest =>
      cases r <;> cases hn
      refine .inr ⟨rfl,.inr ?_⟩
      split
      · exact .inl (by simp [Worker.remaining])
      · rename_i skip
        exact .inr (.inl ⟨e,rest,rfl,by simpa [Worker.skips] using skip,rfl⟩)
  | read rest =>
    cases r with
    | data bs =>
      simp only [Worker.next,loopNext] at hn
      split at hn <;> cases hn
      · exact .inr ⟨rfl,.inr (.inl (by simp [Worker.remaining]))⟩
      · exact .inr ⟨rfl,.inl (by split <;> rfl)⟩
    | fail e =>
      simp only [Worker.next,loopNext] at hn
      split at hn
      · rename_i hb
        cases hn
        exact .inr ⟨rfl,.inr (.inr (.inr ⟨rest,e,rfl,rfl,hb,rfl⟩))⟩
      · cases hn
        exact .inr ⟨rfl,.inr (.inl (by simp [Worker.remaining]))⟩
    | _ => cases hn
  | deliver payload rest =>
    cases r <;> cases hn
    exact .inr ⟨rfl,.inl rfl⟩
  | testDisconnect rest =>
    cases r <;> cases hn
    exact .inr ⟨rfl,.inl (by split <;> rfl)⟩
  | send s rest =>
    obtain ⟨⟨more,lines⟩,hs,heq⟩ := Option.map_eq_some_iff.mp hn
    cases heq
    refine .inr ⟨by cases s <;> rfl,.inl ?_⟩
    cases more <;> rfl

variable {s t : State}

/-- Under a raised flag the application thread leaves the worker alone, unless the
process ends. -/
theorem Control.steadfast {pending : Bool} (hc : Control i a.phase w pending)
    (up : i.isConnected=true) (fd : Fd) :
    (a.thread i r w).remaining fd=w.remaining fd := by
  unfold App.thread
  split
  · split
    · rfl
    · rename_i free
      have gone : w=.none := by
        by_contra hw
        rcases hc.joined hw with hj|hp
        · exact free hj
        · cases hp
      rw [gone]
      rfl
  · have down := hc.unset rfl
    rw [up] at down
    cases down
  · rfl

theorem app_heard (h : Sound s) (hh : Heard s) (hs : s.appStep r=some t) : Heard t := by
  obtain ⟨-,k,i,app,lines,hk,hn,rfl⟩ := appStep_cases hs
  obtain ⟨create,add,raise⟩ := app_hooks hn
  constructor
  · intro hb x
    obtain ⟨ha,hr⟩ := create hb
    have hk : s.kernel.answerEpollCreate r=some k := by
      rw [ha] at hk
      exact hk
    rcases answerEpollCreate_cases hk with ⟨n,he,-,rfl⟩|⟨e,he,-⟩
    · rw [hr] at he
      cases he
      show Kernel.watch _ i.epollFd x=none
      simp [watch]
    · rw [hr] at he
      cases he
  · rintro (hb|up)
    · obtain ⟨ha,rfl,rfl⟩ := add hb
      have fresh := hh.fresh ha
      have hk : s.kernel.answer (.epollAdd s.impl.epollFd s.impl.clientFd .edge) .ok=some k := by
        rw [ha] at hk
        exact hk
      rw [epollAdd_cases hk]
      exact .hook fresh .edge
    · rcases raise up with was|⟨ha,rfl,client,epoll⟩
      · have place : s.app.phase.unset=false := by
          by_contra hu
          have down := h.control.unset (by simpa using hu)
          rw [was] at down
          cases down
        rcases next_keeps hn with hp|hp|⟨quiet,client,epoll⟩
        · rw [hp] at place
          cases place
        · rw [hp] at place
          cases place
        · show Watching k i.epollFd i.clientFd ((s.app.thread s.impl r s.worker).remaining _)
          rw [client,epoll,h.control.steadfast was]
          exact (hh.watching (.inr was)).answer h.wf quiet (app_renews _ _ quiet) hk
      · show Watching k i.epollFd i.clientFd ((s.app.thread s.impl .ok s.worker).remaining _)
        rw [client,epoll]
        rw [ha] at hk ⊢
        cases hk
        exact hh.watching (.inl ha)

theorem worker_heard (h : Sound s) (hh : Heard s) (hc : Heeds s (.worker r))
    (hs : s.workerStep r=some t) : Heard t := by
  obtain ⟨k,i,worker,lines,hk,hn,rfl⟩ := workerStep_cases hs
  have outside := h.control.outside
  obtain ⟨quiet,client,epoll,-,-⟩ := worker_keeps outside hn
  obtain ⟨-,-,-,-,flag,-⟩ := worker_moves outside hn
  constructor
  · intro ha x
    show k.watch i.epollFd x=none
    rw [(answer_quiet quiet hk).2,epoll]
    exact hh.fresh ha x
  · intro hl
    have hl : s.app=.setConnected ∨ i.isConnected=true := hl
    -- the worker is at work only under a raised flag
    have parked (ha : s.app=.setConnected) : s.worker.busy=false :=
      (Control.alone h.control (by rw [ha]; rfl) (by simp [ha,App.phase])).2
    have lasts : i.isConnected=true → s.impl.isConnected=true ∧ s.worker≠.drop := by
      intro up
      refine ⟨?_,?_⟩
      · rcases flag with flag|⟨-,down,-⟩
        · exact flag ▸ up
        · rw [up] at down
          cases down
      · intro hw
        rw [hw] at hn
        cases r <;> cases hn
        cases up
    have stays : s.worker≠.drop := by
      rcases hl with ha|up
      · intro hw
        have idle := parked ha
        rw [hw] at idle
        cases idle
      · exact (lasts up).2
    have raised (hw : s.worker.busy=true) : s.impl.isConnected=true := by
      rcases hl with ha|up
      · rw [parked ha] at hw
        cases hw
      · exact (lasts up).1
    have before := hh.watching (hl.imp_right fun up => (lasts up).1)
    show Watching k i.epollFd i.clientFd (worker.remaining i.clientFd)
    rw [client,epoll]
    rcases worker_remaining outside stays s.impl.clientFd hn with ⟨ep,hw,hr⟩|⟨renews,hr⟩
    · have own := h.fields.waiting ep hw
      rw [hw] at hk before
      rw [own] at hk
      rcases hr with ⟨es,rfl,hr⟩|⟨e,rfl,hr⟩
      · have hk : s.kernel.answerEvents s.impl.epollFd s.impl.options.maxEpollEvents
            (.events es)=some k := hk
        rcases answerEvents_cases hk with ⟨fs,he,-,-,-,rfl⟩|⟨e,he,-⟩
        · cases he
          rw [hr]
          exact before.harvest _
        · cases he
      · rw [hr,answer_fail (by simp [Worker.call]) hk]
        exact before
    · have after := before.answer h.wf quiet renews hk
      rcases hr with same|entry|⟨e,rest,hw,skip,rfl⟩|⟨rest,e,hw,rfl,hb,rfl⟩
      · rw [same]
        exact after
      · exact after.entry entry
      · -- an event without `EPOLLIN`
        have queued := hc skip (raised (by rw [hw]; rfl))
        have same : k=s.kernel := by
          rw [hw] at hk
          simp only [Worker.call,answer,Option.ite_none_right_eq_some,Option.some.injEq] at hk
          exact hk.2.symm
        rw [same] at after ⊢
        exact after.settle queued
      · -- the socket is drained
        obtain ⟨c,f,hf⟩ := h.fields.linked (.inr (.inr (by rw [hw]; rfl)))
        have hk :
            s.kernel.answerRead s.impl.clientFd s.impl.options.bufferSize (.fail e)=some k := by
          rw [hw] at hk
          exact hk
        rcases answerRead_cases hf hk with ⟨bs,he,-⟩|⟨he,-⟩|⟨e',he,rfl,dry⟩
        · cases he
        · cases he
        · cases he
          apply after.settle
          intro hr
          obtain ⟨hu,he⟩ := dry hb
          have quiet := Pipe.not_readable _ hu he
          simp only [readable,hf] at hr
          rw [quiet] at hr
          cases hr

theorem step_heard (s : State) (a : Action) (t : State) (h : Sound s ∧ Heard s)
    (hc : a.civil=true ∧ Heeds s a) (hs : machine.step s a=some t) : Sound t ∧ Heard t := by
  refine ⟨step_sound s a t h.1 hc.1 hs,?_⟩
  obtain ⟨sound,heard⟩ := h
  obtain ⟨-,⟨q,last,rfl,hp,rfl⟩|⟨r,rfl,ht⟩|⟨r,rfl,ht⟩|⟨c,rest,rfl,hw,rfl⟩|⟨e,k,rfl,hk,rfl⟩⟩ :=
    step_cases hs
  · refine ⟨?_,?_⟩
    · intro hq
      cases q <;> cases hq
    · rintro (hq|up)
      · cases q <;> cases hq
      · exact heard.watching (.inr up)
  · exact app_heard sound heard ht
  · exact worker_heard sound heard hc.2 ht
  · refine ⟨heard.fresh,fun hl => ?_⟩
    have before := heard.watching hl
    rw [hw] at before
    cases c <;> exact before
  · refine ⟨fun ha x => ?_,fun hl => ?_⟩
    · rcases env_watch sound.wf e hk s.impl.epollFd x with same|⟨none,-⟩
      · exact same.trans (heard.fresh ha x)
      · exact none
    · have own : s.kernel.Owns s.impl.clientFd := by
        apply attached_owns
        apply sound.fields.linked
        rcases hl with ha|up
        · have ha : s.app=.setConnected := ha
          exact .inl (by rw [ha]; rfl)
        · exact .inr (.inl up)
      exact (heard.watching hl).env sound.wf own e hk

end steps

/-- In a run that heeds its events, the worker waits with its flag up only where
the socket has nothing to read or its entry is in the ready list. -/
theorem no_swallowed_edge (options : TcpOptions) (loggerCb dataCb pipeSignal : Bool)
    (foreign : List Fd) (as : List Action) (s : State)
    (hc : machine.Meets (fun s a => a.civil=true ∧ Heeds s a)
      (.boot options loggerCb dataCb pipeSignal foreign) as)
    (hr : machine.run (.boot options loggerCb dataCb pipeSignal foreign) as=some s)
    (hw : s.worker=.epollWait) (up : s.impl.isConnected=true) : s.Queued := by
  have boot : Sound (.boot options loggerCb dataCb pipeSignal foreign) ∧
      Heard (.boot options loggerCb dataCb pipeSignal foreign) :=
    ⟨boot_sound options loggerCb dataCb pipeSignal foreign,
      by simp [State.boot],by simp [State.boot]⟩
  obtain ⟨-,heard⟩ := machine.invariant step_heard as _ s boot hc hr
  have watching := heard.watching (.inr up)
  rw [hw] at watching
  intro readable
  exact (watching.awake.covers _ watching.hooked readable).resolve_right
    (by simp [Worker.remaining])

/-- Two bytes arrive, and the worker takes them one at a time before it waits again. -/
def halfRead : List Action :=
  dialed++[.worker .ok,.worker .ok,.env (.send 0 [65,66]),.env (.arrive 0 2),.worker .ok,
    .worker (.events [⟨3,⟨true,false,false⟩⟩]),.worker .ok,.worker (.data [65]),.worker .ok,
    .callback .finish,.worker (.data [66]),.worker .ok,.callback .finish,.worker (.fail .eagain),
    .worker .ok,.worker .ok]

theorem no_swallowed_edge_half_read :
    ∃ s,machine.run (.boot {} false true true []) halfRead=some s ∧ s.worker=.epollWait ∧
      s.Queued := by
  have run : (machine.run (.boot {} false true true []) halfRead).map
      (fun s => (s.worker,s.impl.isConnected))=some (.epollWait,true) := by
    decide +kernel
  obtain ⟨s,hs,heq⟩ := Option.map_eq_some_iff.mp run
  obtain ⟨hw,up⟩ := Prod.mk.injEq .. ▸ heq
  exact ⟨s,hs,hw,no_swallowed_edge {} false true true [] halfRead s (by decide +kernel) hs hw up⟩

/-- The connection breaks, and `epoll_wait` reports `EPOLLERR` alone: the worker
passes over the event and waits. -/
theorem error_event_swallowed : ¬∀ options loggerCb dataCb pipeSignal foreign as s,
    (∀ a∈as,a.civil=true) →
    machine.run (.boot options loggerCb dataCb pipeSignal foreign) as=some s →
    s.worker=.epollWait → s.impl.isConnected=true → s.Queued := by
  intro h
  have run : (machine.run (.boot {} false true true [])
      (dialed++[.worker .ok,.worker .ok,.worker .ok,.env (.tear 0 0),
        .worker (.events [⟨3,⟨false,true,false⟩⟩]),.worker .ok,.worker .ok,.worker .ok])).map
      (fun s => (s.worker,s.impl.isConnected,decide s.Queued))=some (.epollWait,true,false) := by
    decide +kernel
  obtain ⟨s,hs,heq⟩ := Option.map_eq_some_iff.mp run
  simp only [Prod.mk.injEq,decide_eq_false_iff_not] at heq
  obtain ⟨hw,up,lost⟩ := heq
  exact lost (h {} false true true [] _ s (by decide) hs hw up)

end TuyulNet.Client
