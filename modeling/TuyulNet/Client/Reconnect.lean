import TuyulNet.Client.Connection
import TuyulNet.Client.Senders

namespace TuyulNet.Client

open Framework Kernel

/-- `connect_to` gets its socket connected. -/
def State.gains (s : State) : Action → Bool
  | .app .ok => match s.app with
    | .connect _ => true
    | _ => false
  | _ => false

/-- The connection that `client_fd` stands for. -/
def State.link (s : State) : Option ConnId := s.kernel.connection s.impl.clientFd

section link

variable {i j : Impl} {a b : App} {w v : Worker} {k : Kernel} {r : Reply} {lines : Trace}

theorem worker_client (hn : w.next i r=some (j,v,lines)) :
    j.clientFd=i.clientFd ∨ j.clientFd=-1 := by
  cases w with
  | shutdown stage rest =>
    obtain ⟨⟨j,more,lines⟩,hs,heq⟩ := Option.map_eq_some_iff.mp hn
    cases heq
    exact shutdown_client hs
  | _ => exact .inl (worker_keeps rfl hn).2.1

theorem app_dials (i : Impl) (a : App) : (∀ l,a.call i≠.accept l) ∧
    ∀ fd res,a.call i=.connect fd res → a=.connect res := by
  refine ⟨app_call i a,?_⟩
  cases a with
  | shutdown stage purpose => cases stage <;> simp [App.call,Shutdown.call]
  | send x => cases x <;> simp [App.call,Sending.call]
  | _ => simp [App.call]

theorem minus_one_connection (hw : k.Wf) : k.connection (-1)=none := by
  simp [connection,hw.minus_one]

/-- Unless `connect_to` gets a socket connected, `client_fd` stands for the connection
that it stood for, or for none. -/
theorem step_link {s t : State} {a : Action} (hw : s.kernel.Wf) (hg : s.gains a=false)
    (hs : machine.step s a=some t) : t.link=none ∨ t.link=s.link := by
  obtain ⟨-,⟨q,last,rfl,-,rfl⟩|⟨r,rfl,ht⟩|⟨r,rfl,ht⟩|⟨c,rest,rfl,-,rfl⟩|⟨e,k,rfl,hk,rfl⟩⟩ :=
    step_cases hs
  · exact .inr rfl
  · obtain ⟨-,k,i,app,lines,hk,hn,rfl⟩ := appStep_cases ht
    obtain ⟨accept,dial⟩ := app_dials s.impl s.app
    have table := answer_connection accept
      (fun fd res hc hr => by simp [State.gains,dial fd res hc,hr] at hg) hk
    show k.connection i.clientFd=none ∨ k.connection i.clientFd=_
    rcases next_client hn with same|gone|⟨res,ha,rfl⟩
    · rw [same]
      exact table _
    · rw [gone]
      exact .inl (minus_one_connection (answer_wf hw _ r hk))
    · rw [ha] at hk
      have hk : s.kernel.answerOpen (.sock 0) (.fd i.clientFd)=some k := hk
      rcases answerOpen_cases hk with ⟨m,hm,-,rfl⟩|⟨e,hm,-⟩ <;> cases hm
      left
      simp [connection]
  · obtain ⟨k,i,worker,lines,hk,hn,rfl⟩ := workerStep_cases ht
    obtain ⟨accept,dial⟩ := worker_dials s.impl s.worker
    have table := answer_connection accept (fun fd res hc => absurd hc (dial fd res)) hk
    show k.connection i.clientFd=none ∨ k.connection i.clientFd=_
    rcases worker_client hn with same|gone
    · rw [same]
      exact table _
    · rw [gone]
      exact .inl (minus_one_connection (answer_wf hw _ r hk))
  · exact .inr rfl
  · exact .inr (env_connection e hk _)

/-- The same over a whole call. -/
theorem run_link {s t : State} {as : List Action} (hw : s.kernel.Wf)
    (hg : machine.Meets (fun s a => s.gains a=false) s as) (hr : machine.run s as=some t) :
    t.link=none ∨ t.link=s.link := by
  refine (machine.invariant (I := fun u => u.kernel.Wf ∧ (u.link=none ∨ u.link=s.link)) ?_ as s t
    ⟨hw,.inr rfl⟩ hg hr).2
  rintro u a v ⟨wf,hu⟩ hg hs
  refine ⟨run_wf wf ((machine.run_single u v a).mpr hs),?_⟩
  rcases step_link wf hg hs with hv|hv
  · exact .inl hv
  · exact hv ▸ hu

end link

namespace Transfer

/-- Past its entry check, with bytes left. -/
def looping (x : Transfer) : Bool :=
  match x.place with
  | .inl p => p.writing
  | .inr _ => false

/-- What the connection of the entry check has taken. -/
def atHome (x : Transfer) : Bytes :=
  ((x.writes.filter fun w => some w.1=x.home).map Prod.snd).flatten

theorem atHome_eq {x : Transfer} (h : ∀ w∈x.writes,some w.1=x.home) : x.atHome=x.accepted := by
  rw [atHome,accepted,List.filter_eq_self.mpr (by simpa using h)]

/-- A call that has written to the connection of its entry check only, and can write to
no other as long as `client_fd` stands for `link`. -/
structure Devoted (link : Option ConnId) (x : Transfer) : Prop where
  accounted : x.Accounted
  writes : ∀ w∈x.writes,some w.1=x.home
  link : x.looping=true → link=none ∨ link=x.home

theorem begin_devoted (link : Option ConnId) (payload : Bytes) :
    Devoted link (begin payload) := by
  refine ⟨begin_accounted payload,by simp [begin],?_⟩
  simp [begin,looping,Sending.writing]

/-- `client_fd` may lose its connection, not change it. -/
theorem Devoted.relink {link link' : Option ConnId} {x : Transfer} (h : Devoted link x)
    (hl : x.looping=true → link'=none ∨ link'=link) : Devoted link' x := by
  refine ⟨h.accounted,h.writes,fun loops => ?_⟩
  rcases hl loops with gone|same
  · exact .inl gone
  · exact same ▸ h.link loops

theorem advance_devoted {x : Transfer} {i : Impl} {k l : Kernel} {p : Sending} {r : Reply}
    {more : Sending ⊕ ErrorCode} {lines : Trace} (h : Devoted (k.connection i.clientFd) x)
    (hp : x.place=.inl p) (hk : k.answer (p.call i) r=some l)
    (hn : p.next i r=some (more,lines)) :
    Devoted (k.connection i.clientFd) (x.advance i (k.connection i.clientFd) p r more) := by
  have accounted := advance_accounted h.accounted hp hk hn
  cases p with
  | test payload =>
    have fresh := h.accounted.outside (h.accounted.fresh payload hp).2
    refine ⟨accounted,?_,fun _ => .inr (by simp [advance,Sending.writing])⟩
    simp [advance,fresh,Sending.taken,landed]
  | write payload pos left =>
    have link := h.link (by simp [looping,hp,Sending.writing])
    have home : (x.advance i (k.connection i.clientFd) (.write payload pos left) r more).home=
        x.home := by simp [advance,Sending.writing]
    refine ⟨accounted,fun w hw => ?_,fun _ => home ▸ link⟩
    rw [home]
    rcases List.mem_append.mp hw with hw|hw
    · exact h.writes w hw
    · unfold landed at hw
      split at hw
      · cases hw
      · obtain ⟨d,hd,rfl⟩ := List.mem_map.mp hw
        rw [Option.mem_toList] at hd
        rcases link with gone|same
        · rw [gone] at hd
          cases hd
        · exact hd.symm.trans same

end Transfer

namespace Senders

variable {ι : Type*} [DecidableEq ι]

def looping (s : Senders ι) (c : ι) : Bool := ((s.calls c).map Transfer.looping).getD false

/-- While the call `c` is between its entry check and its return, no `connect_to` gets a
socket connected. -/
def Undisturbed (c : ι) (s : Senders ι) : Action ι → Prop
  | .whole q as => s.looping c=true →
    Client.machine.Meets (fun u a => u.gains a=false) s.base (.request q::as)
  | _ => True

instance (c : ι) (s : Senders ι) : ∀ a,Decidable (Undisturbed c s a)
  | .whole _ _ => inferInstanceAs (Decidable (_ → _))
  | .call _ _ | .step _ _ | .background _ => isTrue trivial

variable {c : ι} {s t : Senders ι}

def Devoted (c : ι) (s : Senders ι) : Prop :=
  s.base.kernel.Wf ∧ ∀ x,s.calls c=some x → x.Devoted s.base.link

theorem callStep_devoted (h : s.Devoted c) {d : ι} {r : Reply} (hs : s.callStep d r=some t) :
    t.Devoted c := by
  obtain ⟨x,p,k,more,lines,hx,hp,hk,hn,rfl⟩ := callStep_cases hs
  have same : k.connection s.base.impl.clientFd=s.base.link :=
    connection_congr ((answer_quiet (call_quiet p s.base.impl) hk).1 _)
  refine ⟨answer_wf h.1 _ r hk,fun y hy => ?_⟩
  show y.Devoted (k.connection s.base.impl.clientFd)
  rw [same]
  by_cases hd : c=d
  · subst d
    simp only [Function.update_self,Option.some.injEq] at hy
    rw [← hy]
    exact Transfer.advance_devoted (h.2 x hx) hp hk hn
  · exact h.2 y (by simpa [hd] using hy)

theorem step_devoted (s : Senders ι) (a : Action ι) (t : Senders ι) (h : s.Devoted c)
    (ha : Undisturbed c s a) (hs : machine.step s a=some t) : t.Devoted c := by
  obtain ⟨d,payload,rfl,hd,rfl⟩|⟨d,r,rfl,ht⟩|⟨b,u,rfl,hb,hu,rfl⟩|⟨q,as,u,rfl,-,-,hu,-,rfl⟩ :=
    step_cases hs
  · refine ⟨h.1,fun x hx => ?_⟩
    rcases update_some hx with rfl|hx
    · exact Transfer.begin_devoted _ payload
    · exact h.2 x hx
  · exact callStep_devoted h ht
  · have keeps : s.base.gains b=false := by
      cases b with
      | app r =>
        have place : s.base.app=.spawn ∨ s.base.app=.assign := by
          simpa [Client.Action.background] using hb
        rcases place with hp|hp <;> cases r <;> simp [State.gains,hp]
      | _ => rfl
    refine ⟨run_wf h.1 ((Client.machine.run_single _ _ b).mpr hu),fun x hx => ?_⟩
    exact (h.2 x hx).relink fun _ => step_link h.1 keeps hu
  · refine ⟨run_wf h.1 hu,fun x hx => (h.2 x hx).relink fun loops => ?_⟩
    exact run_link h.1 (ha (by simp [looping,show s.calls c=some x from hx,loops])) hu

/-- With any calls of `connect_to` and `disconnect` between the iterations of `send_data`,
as long as no new connection comes up during it, a call of `send_data` writes to the
connection of its entry check only. -/
theorem one_call_one_connection (options : TcpOptions) (loggerCb dataCb pipeSignal : Bool)
    (foreign : List Fd) {as : List Client.Action} {s : State} {c : ι} {bs : List (Action ι)}
    {t : Senders ι} {x : Transfer}
    (hr : Client.machine.run (.boot options loggerCb dataCb pipeSignal foreign) as=some s)
    (hc : machine.Meets (Undisturbed c) (start s) bs) (ht : machine.run (start s) bs=some t)
    (hx : t.calls c=some x) :
    (∀ w∈x.writes,some w.1=x.home) ∧ (x.place=.inr .success → x.atHome=x.payload) := by
  have begins : (start s : Senders ι).Devoted c :=
    ⟨run_wf (boot_wf foreign) hr,by simp [start]⟩
  obtain ⟨-,devoted⟩ := machine.invariant step_devoted bs _ t begins hc ht
  obtain ⟨accounted,writes,-⟩ := devoted x hx
  exact ⟨writes,fun hp => (Transfer.atHome_eq writes).trans (accounted.success hp).2⟩

/-- A call hands over its first byte; then `disconnect`, and `connect_to` if `again` says
so; then it hands over the other one, if it can. -/
def interrupted (again : Bool) (r : Reply) : List (Action Unit) :=
  [.call () [65,66],.step () .ok,.step () (.wrote 1),
    .whole .disconnect [.app .ok,.app .ok,.app .ok,.worker .ok,.worker .ok,.app .ok,.app .ok,
      .app .ok,.app .ok,.app .ok,.app .ok,.app .ok]]++
  (if again then [.whole (.connect "localhost" 8080) dialed.tail] else [])++[.step () r]

theorem one_call_one_connection_hung_up : ∃ s t x,
    Client.machine.run (.boot {} false true false []) dialed=some s ∧
    machine.run (start s) (interrupted false (.fail .ebadf))=some t ∧ t.calls ()=some x ∧
    x.place=.inr .readFailed ∧ ∀ w∈x.writes,some w.1=x.home := by
  have run : ((Client.machine.run (.boot {} false true false []) dialed).bind fun s =>
      (machine.run (start s) (interrupted false (.fail .ebadf))).bind fun t =>
        (t.calls ()).map fun x => (x.place,
          decide (machine.Meets (Undisturbed ()) (start s) (interrupted false (.fail .ebadf)))))=
      some (.inr .readFailed,true) := by
    decide +kernel
  obtain ⟨s,hs,run⟩ := Option.bind_eq_some_iff.mp run
  obtain ⟨t,ht,run⟩ := Option.bind_eq_some_iff.mp run
  obtain ⟨x,hx,heq⟩ := Option.map_eq_some_iff.mp run
  simp only [Prod.mk.injEq,decide_eq_true_eq] at heq
  exact ⟨s,t,x,hs,ht,hx,heq.1,(one_call_one_connection {} false true false [] hs heq.2 ht hx).1⟩

/-- With a new connection in between, the second byte of the message goes there, and the
call returns `SUCCESS`. -/
theorem tail_on_new_connection : ¬∀ options loggerCb dataCb pipeSignal foreign as s
    (bs : List (Action Unit)) t x,
    Client.machine.run (.boot options loggerCb dataCb pipeSignal foreign) as=some s →
    machine.run (start s) bs=some t → t.calls ()=some x →
    (∀ w∈x.writes,some w.1=x.home) ∧ (x.place=.inr .success → x.atHome=x.payload) := by
  intro h
  have run : ((Client.machine.run (.boot {} false true false []) dialed).bind fun s =>
      (machine.run (start s) (interrupted true (.wrote 1))).bind fun t =>
        (t.calls ()).map fun x => (x.place,x.home,x.writes))=
      some (.inr .success,some 0,[(0,[65]),(1,[66])]) := by
    decide +kernel
  obtain ⟨s,hs,run⟩ := Option.bind_eq_some_iff.mp run
  obtain ⟨t,ht,run⟩ := Option.bind_eq_some_iff.mp run
  obtain ⟨x,hx,heq⟩ := Option.map_eq_some_iff.mp run
  simp only [Prod.mk.injEq] at heq
  obtain ⟨-,home,writes⟩ := heq
  have own := (h _ _ _ _ _ _ s _ t x hs ht hx).1
  rw [home,writes] at own
  exact absurd (own (1,[66]) (by simp)) (by simp)

end Senders

end TuyulNet.Client
