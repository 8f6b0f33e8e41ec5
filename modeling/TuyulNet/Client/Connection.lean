import TuyulNet.Client.Sending

namespace TuyulNet.Client

open Framework Kernel

/-- `client_fd` is the open descriptor of connection `near`. -/
def State.holds (s : State) (near : ConnId) : Bool :=
  (s.kernel.conns near).fd=some s.impl.clientFd

/-- `connect_to` has its socket and has not set `is_connected`. -/
def App.hooking : App → Bool
  | .connect _ | .freeConnected _ | .getFl _ | .setFl _ _ | .epollCreate | .epollAdd
  | .setConnected => true
  | _ => false

section threads

variable {i j : Impl} {a b : App} {w v : Worker} {k l : Kernel} {r : Reply} {lines : Trace}
  {near : ConnId}

theorem shutdown_client {stage : Shutdown} {more : Option Shutdown}
    (hs : stage.next i r=some (j,more,lines)) : j.clientFd=i.clientFd ∨ j.clientFd=-1 := by
  cases stage <;> cases r <;> cases hs <;> first
    | exact .inl rfl
    | exact .inr rfl

/-- What `client_fd` can become. -/
theorem next_client (hn : a.next i r=some (j,b,lines)) :
    j.clientFd=i.clientFd ∨ j.clientFd=-1 ∨ ∃ res,a=.socket res ∧ r=.fd j.clientFd := by
  have dial : dialNext i a r=some (j,b,lines) →
      j.clientFd=i.clientFd ∨ j.clientFd=-1 ∨ ∃ res,a=.socket res ∧ r=.fd j.clientFd := by
    intro h
    unfold dialNext at h
    split at h <;> (try split at h) <;> cases h <;> simp
  have hook : hookNext i a r=some (j,b,lines) → j.clientFd=i.clientFd := by
    intro h
    unfold hookNext bail at h
    split at h <;> cases h <;> rfl
  cases a with
  | idle | gone => cases hn
  | send x =>
    obtain ⟨⟨more,lines⟩,-,heq⟩ := Option.map_eq_some_iff.mp hn
    cases heq
    exact .inl rfl
  | shutdown stage purpose =>
    obtain ⟨⟨j,more,lines⟩,hs,heq⟩ := Option.map_eq_some_iff.mp hn
    cases heq
    exact (shutdown_client hs).imp_right .inl
  | testDisconnect | destroyImpl =>
    cases r <;> cases hn
    exact .inl rfl
  | getFl | setFl | epollCreate | epollAdd | setConnected | spawn | assign => exact .inl (hook hn)
  | _ => exact dial hn

/-- `is_connected` is set at the end of a way that begins with a new socket. -/
theorem next_hooking (hn : a.next i r=some (j,b,lines)) :
    (b.hooking=true → a.hooking=true ∨ ∃ res,a=.socket res ∧ r=.fd j.clientFd) ∧
      (j.isConnected=true → i.isConnected=true ∨ a.hooking=true) := by
  have dial : dialNext i a r=some (j,b,lines) →
      (b.hooking=true → a.hooking=true ∨ ∃ res,a=.socket res ∧ r=.fd j.clientFd) ∧
        (j.isConnected=true → i.isConnected=true ∨ a.hooking=true) := by
    intro h
    unfold dialNext at h
    split at h <;> (try split at h) <;> cases h <;> simp_all [App.hooking]
  have hook : hookNext i a r=some (j,b,lines) →
      (b.hooking=true → a.hooking=true ∨ ∃ res,a=.socket res ∧ r=.fd j.clientFd) ∧
        (j.isConnected=true → i.isConnected=true ∨ a.hooking=true) := by
    intro h
    unfold hookNext bail at h
    split at h <;> cases h <;> simp [App.hooking]
  cases a with
  | idle | gone => cases hn
  | send x =>
    obtain ⟨⟨more,lines⟩,-,heq⟩ := Option.map_eq_some_iff.mp hn
    cases heq
    cases more <;> simp [App.hooking]
  | shutdown stage purpose =>
    obtain ⟨⟨j,more,lines⟩,hs,heq⟩ := Option.map_eq_some_iff.mp hn
    cases heq
    have resume : purpose.resume.hooking=false := by
      cases purpose with
      | connect code => rfl
      | disconnect destroying => cases destroying <;> rfl
    have flag : j.isConnected=true → i.isConnected=true := by
      unfold Shutdown.next at hs
      split at hs <;> cases hs <;> simp
    refine ⟨?_,fun hj => .inl (flag hj)⟩
    cases more with
    | none => simp [resume]
    | some stage => simp [App.hooking]
  | testDisconnect destroying =>
    cases r <;> cases hn
    by_cases hi : i.isConnected=true <;> cases destroying <;> simp [App.hooking,hi]
  | destroyImpl =>
    cases r <;> cases hn
    simp [App.hooking]
  | getFl | setFl | epollCreate | epollAdd | setConnected | spawn | assign => exact hook hn
  | _ => exact dial hn

theorem app_call (i : Impl) (a : App) : ∀ l,a.call i≠.accept l := by
  cases a with
  | shutdown stage purpose => cases stage <;> simp [App.call,Shutdown.call]
  | send x => cases x <;> simp [App.call,Sending.call]
  | _ => simp [App.call]

theorem worker_dials (i : Impl) (w : Worker) : (∀ l,w.call i≠.accept l) ∧
    ∀ fd res,w.call i≠.connect fd res := by
  cases w with
  | shutdown stage rest => cases stage <;> simp [Worker.call,Shutdown.call]
  | send x rest => cases x <;> simp [Worker.call,Sending.call]
  | _ => simp [Worker.call]

theorem app_accepted (i : Impl) (a : App) (o : Option Fd) (r : Reply) :
    (a.call i).accepted o r=
      if o=some i.clientFd then (a.sending.map (Sending.taken · r)).getD [] else [] := by
  cases a with
  | send x => exact sending_accepted x i o r
  | shutdown stage purpose =>
    rw [accepted_other (by cases stage <;> simp [App.call,Shutdown.call])]
    simp [App.sending]
  | _ =>
    rw [accepted_other (by simp [App.call])]
    simp [App.sending]

theorem worker_accepted (hw : w.shutting=false) (i : Impl) (o : Option Fd) (r : Reply) :
    (w.call i).accepted o r=
      if o=some i.clientFd then (w.sending.map (Sending.taken · r)).getD [] else [] := by
  cases w with
  | send x rest => exact sending_accepted x i o r
  | shutdown stage rest => cases hw
  | _ =>
    rw [accepted_other (by simp [Worker.call])]
    simp [Worker.sending]

/-- No connection is open under a number that `socket` returns or under -1. -/
theorem unattached (hw : k.Wf) {n : Fd} (hf : k.table n=none) : (k.conns near).fd≠some n := by
  intro hd
  obtain ⟨f,ht⟩ := hw.owner near n hd
  rw [hf] at ht
  cases ht

theorem app_hold (hw : k.Wf) (hd : near<k.born) (hk : k.answer (a.call i) r=some l)
    (hn : a.next i r=some (j,b,lines)) (hj : (l.conns near).fd=some j.clientFd) :
    (k.conns near).fd=some i.clientFd ∧ (b.hooking=true → a.hooking=true) := by
  have before : (k.conns near).fd=some j.clientFd := by
    rcases answer_detaches hw hd (app_call i a) hk with same|⟨fd,-,-,lost⟩
    · exact same ▸ hj
    · rw [lost] at hj
      cases hj
  have old (res : Nat) (ha : a=.socket res) (hr : r=.fd j.clientFd) : False := by
    have open' : k.answerOpen (.sock 0) (.fd j.clientFd)=some l := by
      rw [ha,hr] at hk
      exact hk
    rcases answerOpen_cases open' with ⟨n,hn,hf,-⟩|⟨e,he,-⟩
    · cases hn
      exact unattached hw ((k.fresh_iff _).mp hf).2 before
    · cases he
  constructor
  · rcases next_client hn with hc|hc|⟨res,ha,hr⟩
    · exact hc ▸ before
    · rw [hc] at before
      exact absurd before (unattached hw hw.minus_one)
    · exact (old res ha hr).elim
  · intro hb
    rcases (next_hooking hn).1 hb with ha|⟨res,ha,hr⟩
    · exact ha
    · exact (old res ha hr).elim

end threads

/-- What a step does to the hold of the client on a connection that is there already. -/
structure Hold (s t : State) (near : ConnId) : Prop where
  born : s.kernel.born≤t.kernel.born
  fd : (t.kernel.conns near).fd=(s.kernel.conns near).fd ∨ (t.kernel.conns near).fd=none
  back : t.holds near=true → s.holds near=true
  hooking : t.holds near=true → t.app.hooking=true → s.app.hooking=true
  idle : s.holds near=true → t.holds near=false → s.sending=none ∧ t.sending=none

section steps

variable {s t : State} {a : Action} {r : Reply} {near : ConnId}

/-- A step that keeps `client_fd` and the descriptors of the connections. -/
theorem hold_same (hb : s.kernel.born≤t.kernel.born)
    (hf : (t.kernel.conns near).fd=(s.kernel.conns near).fd)
    (hc : t.impl.clientFd=s.impl.clientFd)
    (hh : t.app.hooking=true → s.app.hooking=true) : Hold s t near := by
  have same : t.holds near=s.holds near := by simp only [State.holds,hf,hc]
  refine ⟨hb,.inl hf,fun ht => same ▸ ht,fun _ => hh,?_⟩
  intro hs ht
  rw [same,hs] at ht
  cases ht

/-- Whoever opens or closes descriptors is alone. -/
theorem alone_sending {b : App} {w : Worker} {i : Impl} {pending : Bool}
    (hc : Control i b.phase w pending) (hp : b.phase=.opening ∨ b.phase=.closing) :
    b.sending=none ∧ w.sending=none := by
  constructor
  · cases b with
    | send x => rcases hp with hp|hp <;> cases hp
    | _ => rfl
  · have busy : w.busy=false := by
      rcases hp with hp|hp <;> exact (hc.alone (by rw [hp]; rfl) (by simp [hp])).2
    cases w with
    | send x rest => cases busy
    | _ => rfl

theorem step_hold (h : Sound s) (hc : a.civil=true) (hd : near < s.kernel.born)
    (hs : machine.step s a=some t) : Hold s t near := by
  obtain ⟨-,⟨q,last,rfl,ha,rfl⟩|⟨r,rfl,ht⟩|⟨r,rfl,ht⟩|⟨c,rest,rfl,hw,rfl⟩|⟨e,k,rfl,hk,rfl⟩⟩ :=
    step_cases hs
  · refine ⟨le_rfl,.inl rfl,id,?_,?_⟩
    · cases q <;> simp [Request.entry,App.hooking]
    · intro hs ht
      exact absurd (hs.symm.trans ht) (by simp)
  · obtain ⟨runs,k,i,app,lines,hk,hn,rfl⟩ := appStep_cases ht
    have back (ht : decide ((k.conns near).fd=some i.clientFd)=true) :=
      app_hold h.wf hd hk hn (of_decide_eq_true ht)
    have alone (hp : s.app.phase=.opening ∨ s.app.phase=.closing) :
        s.sending=none ∧ app.sending.or (s.app.thread s.impl r s.worker).sending=none := by
      obtain ⟨mine,other⟩ := alone_sending h.control hp
      have after : app.sending=none := by
        rcases app_sending hn with ⟨x,more,hx,-⟩|⟨-,after⟩
        · rw [mine] at hx
          cases hx
        · exact after
      rw [thread_sending h.control runs]
      simp [State.sending,mine,other,after]
    refine ⟨answer_born hk,?_,fun ht => decide_eq_true (back ht).1,fun ht => (back ht).2,?_⟩
    · rcases answer_detaches h.wf hd (app_call _ _) hk with same|⟨fd,-,-,lost⟩
      · exact .inl same
      · exact .inr lost
    · intro hs ht
      rcases next_keeps hn with hp|hp|⟨quiet,client,-⟩
      · exact alone (.inl hp)
      · exact alone (.inr hp)
      · have fixed := answer_fixed (steady_attaches (quiet_steady quiet)) hk
        simp only [State.holds,client,fixed.1] at ht hs
        rw [hs] at ht
        cases ht
  · obtain ⟨k,i,worker,lines,hk,hn,rfl⟩ := workerStep_cases ht
    obtain ⟨quiet,client,-⟩ := worker_keeps h.control.outside hn
    have fixed := answer_fixed (steady_attaches (quiet_steady quiet)) hk
    exact hold_same (answer_born hk) (fixed.1 near) client id
  · exact hold_same le_rfl rfl rfl id
  · exact hold_same (env_out e hd hk).1 (env_pipe h.wf e hk near).2.2 rfl id

/-- Bytes reach a connection only through the `send_data` call of its holder. -/
theorem step_out (h : Sound s) (hd : near < s.kernel.born) (hs : machine.step s a=some t) :
    (t.kernel.conns near).out=(s.kernel.conns near).out++
      if s.holds near then s.handed a else [] := by
  have same {b : Action} (hb : s.sendStep b=none) {xs : Bytes} :
      xs=xs++if s.holds near then s.handed b else [] := by simp [State.handed,hb]
  obtain ⟨-,⟨q,last,rfl,ha,rfl⟩|⟨r,rfl,ht⟩|⟨r,rfl,ht⟩|⟨c,rest,rfl,hw,rfl⟩|⟨e,k,rfl,hk,rfl⟩⟩ :=
    step_cases hs
  · exact same rfl
  · obtain ⟨-,k,i,app,lines,hk,-,rfl⟩ := appStep_cases ht
    have out := answer_out h.wf hd hk
    rw [app_accepted] at out
    refine out.trans (congrArg (_++·) ?_)
    cases hx : s.app.sending <;> simp [State.holds,State.handed,State.sendStep,hx]
  · obtain ⟨k,i,worker,lines,hk,-,rfl⟩ := workerStep_cases ht
    have out := answer_out h.wf hd hk
    rw [worker_accepted h.control.outside] at out
    refine out.trans (congrArg (_++·) ?_)
    cases hx : s.worker.sending <;> simp [State.holds,State.handed,State.sendStep,hx]
  · exact same rfl
  · exact (env_out e hd hk).2.trans (same rfl)

/-- Only the way of a new socket leads to `is_connected`. -/
theorem step_flag (h : Sound s) (hs : machine.step s a=some t)
    (ht : t.impl.isConnected=true) : s.impl.isConnected=true ∨ s.app.hooking=true := by
  obtain ⟨-,⟨q,last,rfl,ha,rfl⟩|⟨r,rfl,ht'⟩|⟨r,rfl,ht'⟩|⟨c,rest,rfl,hw,rfl⟩|⟨e,k,rfl,hk,rfl⟩⟩ :=
    step_cases hs
  · exact .inl ht
  · obtain ⟨-,k,i,app,lines,-,hn,rfl⟩ := appStep_cases ht'
    exact (next_hooking hn).2 ht
  · obtain ⟨k,i,worker,lines,-,hn,rfl⟩ := workerStep_cases ht'
    obtain ⟨-,-,-,-,flag|⟨-,flag,-⟩,-⟩ := worker_moves h.control.outside hn
    · exact .inl (flag ▸ ht)
    · rw [show i.isConnected=true from ht] at flag
      cases flag
  · exact .inl ht
  · exact .inl ht

/-- No `send_data` runs on that way. -/
theorem hooking_sending (h : Sound s) (hs : s.sendStep a≠none) : s.app.hooking=false := by
  by_contra hh
  have opening : s.app.phase=.opening := by
    cases ha : s.app with
    | idle | shutdown | send | testDisconnect | destroyImpl | gone | testConnected | lookup
    | socket | freeFailed | closeRefused | clearRefused | freeRefused | spawn | assign =>
      rw [ha] at hh
      exact absurd rfl hh
    | _ => rfl
  obtain ⟨mine,other⟩ := alone_sending h.control (.inl opening)
  apply hs
  cases a <;> simp [State.sendStep,mine,other]

end steps

/-- What the calls of `send_data` on one connection add up to: the payloads given
to them, whether one of them has returned an error, and whether a `write` has
failed for good. -/
structure Account where
  given : Bytes
  refused : Bool
  broken : Bool
  deriving DecidableEq

def Account.empty : Account := ⟨[],false,false⟩

/-- An action counts while the client holds the connection. -/
def Account.follow (c : Account) (s : State) (near : ConnId) (a : Action) : Account where
  given := c.given++if s.holds near then a.payload else []
  refused := c.refused || s.holds near && s.fails a
  broken := c.broken || s.holds near && s.breaks a

/-- Every byte given is accepted or still to be sent, as long as no call has failed.
After a failure nothing more is accepted. -/
structure Balanced (s : State) (near : ConnId) (c : Account) : Prop where
  born : near < s.kernel.born
  whole : c.refused=false → c.given=(s.kernel.conns near).out++
    if s.holds near then s.remaining else []
  part : (s.kernel.conns near).out<+:c.given
  halted : c.refused=true → s.holds near=true →
    c.broken=true ∨ s.impl.isConnected=false ∧ s.writing=false
  late : c.refused=true → s.holds near=true → s.app.hooking=false

section accounts

variable {s t : State} {a : Action} {near : ConnId} {c : Account}

theorem sendStep_sending (one : s.OneCall) {x : Sending} {r : Reply}
    (hs : s.sendStep a=some (x,r)) : s.sending=some x := by
  cases a with
  | app y =>
    obtain ⟨z,hz,heq⟩ := Option.map_eq_some_iff.mp hs
    cases heq
    simp [State.sending,hz]
  | worker y =>
    obtain ⟨z,hz,heq⟩ := Option.map_eq_some_iff.mp hs
    cases heq
    have other : s.app.sending=none := one.resolve_right (by simp [hz])
    simp [State.sending,other,hz]
  | _ => cases hs

/-- Only a `write` in progress hands anything over. -/
theorem handed_writing (one : s.OneCall) (hw : s.writing=false) : s.handed a=[] := by
  unfold State.handed
  split
  · rename_i x r hs
    simp only [State.writing,sendStep_sending one hs,Option.map_some,Option.getD_some] at hw
    cases x with
    | test payload => rfl
    | write payload pos left => cases hw
  · rfl

theorem fails_sendStep (hf : s.fails a=true) : s.sendStep a≠none := by
  intro hs
  simp [State.fails,hs] at hf

/-- The step in which a call on the connection returns an error. -/
theorem failed_balanced (h : Sound s) (hb : Balanced s near c) (hs : machine.step s a=some t)
    (hold : Hold s t near) (hf : s.fails a=true) (mine : s.holds near=true)
    (out : (t.kernel.conns near).out=(s.kernel.conns near).out++s.handed a)
    (failed : s.handed a=[] ∧ t.sending=none ∧ (s.writing=true ∧ s.breaks a=true ∨
      s.impl.isConnected=false ∨ s.impl.clientFd<0)) :
    Balanced t near (c.follow s near a) := by
  obtain ⟨nothing,gone,why⟩ := failed
  have off := hooking_sending h (fails_sendStep hf)
  have out : (t.kernel.conns near).out=(s.kernel.conns near).out := by simpa [nothing] using out
  refine ⟨hb.born.trans_le hold.born,?_,?_,?_,?_⟩
  · simp [Account.follow,hf,mine]
  · rw [out]
    exact hb.part.trans (List.prefix_append _ _)
  · intro _ _
    rcases why with ⟨-,hbreak⟩|hc|hneg
    · simp [Account.follow,mine,hbreak]
    · refine .inr ⟨?_,by simp [State.writing,gone]⟩
      by_contra ht
      rcases step_flag h hs (by simpa using ht) with hi|hi
      · rw [hc] at hi
        cases hi
      · rw [off] at hi
        cases hi
    · obtain ⟨f,hf⟩ := h.wf.owner near _ (of_decide_eq_true mine)
      have nonneg := h.wf.nonneg _ (by rw [hf]; simp)
      exact absurd hneg (not_lt.mpr nonneg)
  · intro _ ht
    by_contra hh
    have was := hold.hooking ht (by simpa using hh)
    rw [off] at was
    cases was

/-- Every other step while the client holds the connection. -/
theorem going_balanced (h : Sound s) (one : s.OneCall) (hb : Balanced s near c)
    (hs : machine.step s a=some t) (hold : Hold s t near) (hf : s.fails a=false)
    (mine : s.holds near=true)
    (out : (t.kernel.conns near).out=(s.kernel.conns near).out++s.handed a)
    (fine : s.remaining++a.payload=s.handed a++t.remaining ∧
      (t.writing=true → s.writing=true ∨ s.impl.isConnected=true))
    (dead : c.broken=true → (t.kernel.conns near).out=(s.kernel.conns near).out) :
    Balanced t near (c.follow s near a) := by
  obtain ⟨bytes,begins⟩ := fine
  have refused : (c.follow s near a).refused=c.refused := by simp [Account.follow,hf]
  have given : (c.follow s near a).given=c.given++a.payload := by simp [Account.follow,mine]
  have whole (hr : c.refused=false) :
      c.given++a.payload=(t.kernel.conns near).out++t.remaining := by
    have before := hb.whole hr
    rw [mine,if_pos rfl] at before
    rw [before,out,List.append_assoc,List.append_assoc,bytes]
  have rest : t.remaining=if t.holds near then t.remaining else [] := by
    split
    · rfl
    · rename_i lost
      simp [State.remaining,(hold.idle mine (by simpa using lost)).2]
  refine ⟨hb.born.trans_le hold.born,?_,?_,?_,?_⟩
  · rw [refused,given,← rest]
    exact whole
  · rw [given]
    cases hr : c.refused with
    | false => exact ⟨_,(whole hr).symm⟩
    | true =>
      have still : (t.kernel.conns near).out=(s.kernel.conns near).out := by
        rcases hb.halted hr mine with broken|⟨-,idle⟩
        · exact dead broken
        · rw [out,handed_writing one idle,List.append_nil]
      rw [still]
      exact hb.part.trans (List.prefix_append _ _)
  · rw [refused]
    intro hr _
    rcases hb.halted hr mine with broken|⟨off,idle⟩
    · simp [Account.follow,broken]
    · refine .inr ⟨?_,?_⟩
      · by_contra ht
        rcases step_flag h hs (by simpa using ht) with hi|hi
        · rw [off] at hi
          cases hi
        · rw [hb.late hr mine] at hi
          cases hi
      · by_contra ht
        rcases begins (by simpa using ht) with hw|hw
        · rw [idle] at hw
          cases hw
        · rw [off] at hw
          cases hw
  · rw [refused]
    intro hr ht
    by_contra hh
    have was := hold.hooking ht (by simpa using hh)
    rw [hb.late hr mine] at was
    cases was

/-- `dead` says that the connection takes nothing after a `write` that has failed
for good. -/
theorem step_balanced (h : Sound s) (one : s.OneCall) (hc : OneSender s a)
    (hb : Balanced s near c) (hs : machine.step s a=some t)
    (dead : c.broken=true → (t.kernel.conns near).out=(s.kernel.conns near).out) :
    Balanced t near (c.follow s near a) := by
  have hold := step_hold h hc.civil hb.born hs
  have out := step_out h hb.born hs
  obtain ⟨-,fine,failed⟩ := step_accounts h one hc hs
  cases mine : s.holds near with
  | false =>
    have lost : t.holds near=false := by
      by_contra ht
      have back := hold.back (by simpa using ht)
      rw [mine] at back
      cases back
    have same : c.follow s near a=c := by simp [Account.follow,mine]
    have out : (t.kernel.conns near).out=(s.kernel.conns near).out := by simpa [mine] using out
    rw [same]
    refine ⟨hb.born.trans_le hold.born,?_,out ▸ hb.part,?_,?_⟩
    · intro hr
      rw [out,lost]
      simpa [mine] using hb.whole hr
    · simp [lost]
    · simp [lost]
  | true =>
    rw [mine,if_pos rfl] at out
    cases hf : s.fails a with
    | false => exact going_balanced h one hb hs hold hf mine out (fine hf) dead
    | true => exact failed_balanced h hb hs hold hf mine out (failed hf)

end accounts

end TuyulNet.Client
