import TuyulNet.Client.Senders

namespace TuyulNet.Client

open Framework Kernel

section silence

variable {i j : Impl} {w v : Worker} {a : App} {r : Reply} {lines : Trace} {s t : State}

theorem writeFate_sigpipe {signal : Bool} {c : Call} : writeFate signal c r=.sigpipe ↔
    signal=true ∧ r=.fail .epipe ∧ ∃ fd payload,c=.write fd payload := by
  unfold writeFate
  split
  · cases signal <;> simp
  · rename_i other
    refine ⟨fun h => absurd h (by simp),?_⟩
    rintro ⟨-,rfl,fd,payload,rfl⟩
    exact (other fd payload rfl rfl).elim

theorem worker_survives (hw : w.sending=none) (signal : Bool) :
    w.fate i signal r≠.sigpipe := by
  cases w with
  | send x rest => cases hw
  | start => cases ho : i.options.allocates <;> simp [Worker.fate,ho]
  | shutdown stage rest =>
    cases stage <;> simp [Worker.fate,Worker.call,Shutdown.call,writeFate_sigpipe]
  | _ => simp [Worker.fate,Worker.call,writeFate_sigpipe]

theorem app_survives (ha : a.sending=none) (signal : Bool) : a.fate i signal r≠.sigpipe := by
  cases a with
  | send x => cases ha
  | spawn =>
    cases r <;> cases hj : i.joinable <;> simp [App.fate,App.call,writeFate_sigpipe,hj]
  | destroyImpl =>
    cases hj : i.joinable <;> simp [App.fate,hj]
  | shutdown stage purpose =>
    cases stage <;> simp [App.fate,App.call,Shutdown.call,writeFate_sigpipe]
  | _ => simp [App.fate,App.call,writeFate_sigpipe]

theorem worker_silences (hw : w.sending=none) (hn : w.next i r=some (j,v,lines)) :
    v.sending=none := by
  cases w with
  | shutdown stage rest =>
    obtain ⟨⟨j,more,lines⟩,-,heq⟩ := Option.map_eq_some_iff.mp hn
    cases more <;> cases heq <;> rfl
  | _ =>
    rcases worker_sending rfl hn with ⟨x,more,hx,-⟩|⟨-,silent⟩
    · rw [hw] at hx
      cases hx
    · exact silent

theorem thread_silent (hw : w.sending=none) : (a.thread i r w).sending=none := by
  unfold App.thread
  split
  · split
    · exact hw
    · rfl
  · rfl
  · exact hw

/-- Outside `send_data` nobody is killed by `SIGPIPE`. -/
theorem working_survives {b : Action} (hb : b.working=true) (worker : s.worker.sending=none)
    (app : ∀ r,b=.app r → s.app.sending=none) (hs : step s b=some t) :
    t.fate≠.sigpipe ∧ t.worker.sending=none ∧ (s.app.sending=none → t.app.sending=none) := by
  obtain ⟨alive,⟨q,last,rfl,-,rfl⟩|⟨r,rfl,ht⟩|⟨r,rfl,ht⟩|⟨c,rest,rfl,-,rfl⟩|⟨e,k,rfl,-,rfl⟩⟩ :=
    step_cases hs
  · cases hb
  · obtain ⟨-,k,i,next,lines,-,hn,rfl⟩ := appStep_cases ht
    refine ⟨app_survives (app r rfl) _,thread_silent worker,fun silent => ?_⟩
    rcases app_sending hn with ⟨x,more,hx,-⟩|⟨-,after⟩
    · rw [silent] at hx
      cases hx
    · exact after
  · obtain ⟨k,i,next,lines,-,hn,rfl⟩ := workerStep_cases ht
    exact ⟨worker_survives worker _,worker_silences worker hn,id⟩
  · cases c with
    | finish => exact ⟨by simp [alive],rfl,id⟩
    | _ => cases hb
  · exact ⟨by simp [alive],worker,id⟩

end silence

namespace Senders

variable {ι : Type*}

/-- The connection that `client_fd` stands for was reset by the peer. -/
def reset (s : Senders ι) : Bool :=
  s.link.any fun d => decide ((s.base.kernel.conns d).pipe.ending=.broken)

/-- The call `c` is about to call `write`. -/
def writes (s : Senders ι) (c : ι) : Bool :=
  (s.calls c).any fun x => x.place.elim Sending.writing fun _ => false

variable [DecidableEq ι]

/-- `write` fails with `EPIPE` on a connection that was reset, and on no other. -/
def PipeErrors (s : Senders ι) : Action ι → Prop
  | .step c r => s.writes c=true → (s.reset=true ↔ r=.fail .epipe)
  | _ => True

/-- Nothing is written to a connection that was reset while `SIGPIPE` has its default action. -/
def Spared (s : Senders ι) : Action ι → Prop
  | .step c _ => s.writes c=true → s.reset=true → s.base.pipeSignal=false
  | _ => True

instance (s : Senders ι) : ∀ a,Decidable (PipeErrors s a)
  | .step _ _ => inferInstanceAs (Decidable (_ → _))
  | .call _ _ | .background _ | .whole _ _ => isTrue trivial

instance (s : Senders ι) : ∀ a,Decidable (Spared s a)
  | .step _ _ => inferInstanceAs (Decidable (_ → _))
  | .call _ _ | .background _ | .whole _ _ => isTrue trivial

def Action.steps (c : ι) : Action ι → Bool
  | .step d _ => d=c
  | _ => false

/-- A `write` of the call `c` is answered with `EAGAIN`. -/
def Action.retries (c : ι) : Action ι → Bool
  | .step d (.fail e) => d=c && e.wouldBlock
  | _ => false

/-- The loss of the peer is reported and not fatal: the process is there; a call that has returned
says whether the payload was accepted; one that finds the connection reset returns; and every call
goes on, and comes to its end but for the `EAGAIN`s that it gets. -/
structure Reported (bs : List (Action ι)) (t : Senders ι) : Prop where
  survives : t.base.fate≠.sigpipe
  result : ∀ c x code,t.calls c=some x → x.place=.inr code →
    code=.success ∧ x.accepted=x.payload ∨
      code=.readFailed ∧ (x.entered=true → x.accepted.length < x.payload.length)
  noticed : ∀ c r u,t.writes c=true → t.reset=true → PipeErrors t (.step c r) →
    machine.step t (.step c r)=some u → ∃ y,u.calls c=some y ∧ y.place=.inr .readFailed
  goes : ∀ c x p,t.base.fate=.alive → t.calls c=some x → x.place=.inl p →
    ∃ r u,PipeErrors t (.step c r) ∧ machine.step t (.step c r)=some u
  ends : ∀ c x,t.calls c=some x →
    bs.countP (·.steps c) ≤ x.payload.length+2+bs.countP (·.retries c)

/-- The data callback is in no `send_data` apart from the calls, and these are accounted for. -/
structure Told (s : Senders ι) : Prop where
  silent : s.base.worker.sending=none
  accounted : ∀ c x,s.calls c=some x → x.Accounted

variable {s t : Senders ι} {c : ι}

omit [DecidableEq ι] in
theorem writes_of {x : Transfer} {p : Sending} (hx : s.calls c=some x) (hp : x.place=.inl p) :
    s.writes c=p.writing := by
  simp [writes,hx,hp]

theorem alive_of_step {a : Action ι} (h : machine.step s a=some t) : s.base.fate=.alive := by
  have h : s.step a=some t := h
  cases a with
  | call c payload =>
    simp only [step,Option.ite_none_right_eq_some] at h
    exact h.1.1
  | step c r =>
    simp only [step,Option.ite_none_right_eq_some] at h
    exact h.1
  | background b =>
    simp only [step,Option.ite_none_right_eq_some,Option.map_eq_some_iff] at h
    obtain ⟨-,u,hu,-⟩ := h
    exact (Client.step_cases hu).1
  | whole q as =>
    simp only [step,Option.ite_none_right_eq_some,Option.map_eq_some_iff,
      Option.filter_eq_some_iff] at h
    obtain ⟨-,u,⟨hu,-⟩,-⟩ := h
    obtain ⟨v,hv,-⟩ := (Client.machine.run_cons _ _ _ _).mp hu
    have first : Client.step s.base (.request q)=some v := hv
    exact (Client.step_cases first).1

/-- A whole call of `connect_to` or `disconnect`. -/
theorem whole_survives {b u : State} {q : Request} {as : List Client.Action}
    (hq : q.relinks=true) (has : ∀ a∈as,a.working=true) (silent : b.worker.sending=none)
    (hr : Client.machine.run b (.request q::as)=some u) :
    u.fate≠.sigpipe ∧ u.worker.sending=none := by
  obtain ⟨v,hv,hr⟩ := (Client.machine.run_cons _ _ _ _).mp hr
  have first : Client.step b (.request q)=some v := hv
  obtain ⟨alive,⟨q',last,hq',-,rfl⟩|⟨r,hq',-⟩|⟨r,hq',-⟩|⟨c,rest,hq',-⟩|⟨e,k,hq',-⟩⟩ :=
    Client.step_cases first <;> cases hq'
  have entered : q.entry.sending=none := by
    cases q with
    | send payload => cases hq
    | _ => rfl
  have kept := Client.machine.invariant (C := fun _ a => a.working=true)
    (I := fun s => s.fate≠.sigpipe ∧ s.worker.sending=none ∧ s.app.sending=none)
    (fun s a t h ha hs => by
      obtain ⟨survives,worker,app⟩ := working_survives ha h.2.1 (fun _ _ => h.2.2) hs
      exact ⟨survives,worker,app h.2.2⟩) as { b with app := q.entry } u
    ⟨by simp [alive],silent,entered⟩
    (Machine.Meets.of_actions Client.machine as has _) hr
  exact ⟨kept.1,kept.2.1⟩

/-- Apart from the calls nothing dies of `SIGPIPE`, and the callback begins no `send_data`. -/
theorem base_survives {a : Action ι} (h : s.base.worker.sending=none)
    (hs : machine.step s a=some t) : t.base.worker.sending=none ∧
      ((∀ c r,a≠.step c r) → t.base.fate≠.sigpipe ∧ ∀ c,t.calls c=s.calls c ∨
        s.calls c=none ∧ ∃ payload,t.calls c=some (.begin payload)) := by
  have alive := alive_of_step hs
  obtain ⟨c,payload,rfl,hc,rfl⟩|⟨c,r,rfl,ht⟩|⟨b,u,rfl,hb,hu,rfl⟩|⟨q,as,u,rfl,hq,has,hu,-,rfl⟩ :=
    step_cases hs
  · refine ⟨h,fun _ => ⟨by simp [alive],fun d => ?_⟩⟩
    by_cases hd : d=c
    · subst hd
      exact .inr ⟨hc,payload,Function.update_self ..⟩
    · exact .inl (Function.update_of_ne hd ..)
  · obtain ⟨x,p,k,more,lines,-,-,-,-,rfl⟩ := callStep_cases ht
    exact ⟨h,fun away => absurd rfl (away c r)⟩
  · have app (r : Reply) (hr : b=.app r) : s.base.app.sending=none := by
      subst hr
      have place : s.base.app=.spawn ∨ s.base.app=.assign := by
        simpa [Client.Action.background] using hb
      rcases place with ha|ha <;> rw [ha] <;> rfl
    have working : b.working=true := by
      cases b with
      | app r => rfl
      | _ => exact hb
    obtain ⟨survives,silent,-⟩ := working_survives working h app hu
    exact ⟨silent,fun _ => ⟨survives,fun _ => .inl rfl⟩⟩
  · obtain ⟨survives,silent⟩ := whole_survives hq has h hu
    exact ⟨silent,fun _ => ⟨survives,fun _ => .inl rfl⟩⟩

theorem step_told (s : Senders ι) (a : Action ι) (t : Senders ι) (h : s.Told)
    (hs : machine.step s a=some t) : t.Told := by
  obtain ⟨silent,rest⟩ := base_survives h.silent hs
  refine ⟨silent,?_⟩
  cases a with
  | step c r =>
    intro d y hy
    simp only [machine,step,Option.ite_none_right_eq_some] at hs
    obtain ⟨x,p,k,more,lines,hx,hp,hk,hn,rfl⟩ := callStep_cases hs.2
    rcases update_some hy with rfl|hy
    · exact Transfer.advance_accounted (h.accounted c x hx) hp hk hn
    · exact h.accounted d y hy
  | _ =>
    intro d x hx
    rcases (rest (by simp)).2 d with same|⟨-,payload,new⟩
    · exact h.accounted d x (same ▸ hx)
    · rw [new] at hx
      cases hx
      exact Transfer.begin_accounted payload

/-- The process dies of a `write` to a reset connection that `SIGPIPE` answers, and only of that. -/
theorem step_sigpipe (s : Senders ι) (a : Action ι) (t : Senders ι) (h : s.Told)
    (hl : PipeErrors s a) (hs : machine.step s a=some t) :
    t.base.fate=.sigpipe ↔ ¬Spared s a := by
  cases a with
  | step c r =>
    simp only [machine,step,Option.ite_none_right_eq_some] at hs
    obtain ⟨x,p,k,more,lines,hx,hp,hk,hn,rfl⟩ := callStep_cases hs.2
    show writeFate _ _ _=_ ↔ _
    rw [writeFate_sigpipe]
    have writing := writes_of hx hp
    cases p with
    | test payload => simp [Spared,writing,Sending.writing,Sending.call]
    | write payload pos left =>
      have reset : s.reset=true ↔ r=.fail .epipe := hl writing
      rw [← reset]
      simp [Spared,writing,Sending.writing,Sending.call]
      exact and_comm
  | _ => exact iff_of_false ((base_survives h.silent hs).2 (by simp)).1 (fun hn => hn trivial)

end Senders

/-- Steps to the end of the call, if `EAGAIN` does not come in between. -/
def Transfer.due (x : Transfer) : Nat :=
  match x.place with
  | .inl (.test _) => x.payload.length+2
  | .inl (.write _ _ left) => left+1
  | .inr _ => 0

theorem loop_due (payload : Bytes) (pos left : Nat) (x : Transfer)
    (hx : x.place=Sending.loop payload pos left) : x.due ≤ left+1 := by
  unfold Sending.loop at hx
  split at hx <;> simp [Transfer.due,hx]

/-- Every step brings the call nearer to its end, or was answered with `EAGAIN`. -/
theorem advance_due {x : Transfer} {i : Impl} (link : Option ConnId) {p : Sending} {r : Reply}
    {more : Sending ⊕ ErrorCode} {lines : Trace} {k l : Kernel} (h : x.Accounted)
    (hp : x.place=.inl p) (hk : k.answer (p.call i) r=some l) (hn : p.next i r=some (more,lines)) :
    1+(x.advance i link p r more).due ≤ x.due ∨
      1+(x.advance i link p r more).due ≤ x.due+1 ∧ ∃ e,r=.fail e ∧ e.wouldBlock=true := by
  cases p with
  | test payload =>
    obtain ⟨rfl,-⟩ := h.fresh payload hp
    have due : x.due=x.payload.length+2 := by simp [Transfer.due,hp]
    left
    rw [due]
    cases r <;> (try cases hn)
    have hn : (if i.isConnected=false ∨ i.clientFd<0 then _ else _)=_ := hn
    split at hn <;> cases hn
    · simp [Transfer.due,Transfer.advance]
    · have steps := loop_due x.payload 0 x.payload.length
        (x.advance i link (.test x.payload) .ok (Sending.loop x.payload 0 x.payload.length)) rfl
      omega
  | write payload pos left =>
    have due : x.due=left+1 := by simp [Transfer.due,hp]
    rw [due]
    cases r with
    | wrote n =>
      have some' := (write_lands hk).2.1
      obtain ⟨-,-,-,more',-⟩ := h.cursor payload pos left hp
      have place : more=Sending.loop payload (pos+n) (left-n) :=
        (congrArg Prod.fst (Option.some.inj hn)).symm
      have steps := loop_due payload (pos+n) (left-n)
        (x.advance i link (.write payload pos left) (.wrote n) more) place
      left
      omega
    | fail e =>
      simp only [Sending.next] at hn
      split at hn <;> cases hn
      · rename_i he
        refine .inr ⟨?_,e,rfl,he⟩
        simp [Transfer.due,Transfer.advance]
        omega
      · left
        simp [Transfer.due,Transfer.advance]
    | _ => cases hn

namespace Senders

variable {ι : Type*} [DecidableEq ι] {s t u : Senders ι} {c : ι}

/-- How the call `c` fares in one step. -/
theorem step_due {a : Action ι} (h : s.Told) (hs : machine.step s a=some u) (c : ι) :
    a.steps c=false ∧ u.calls c=s.calls c ∨
      a.steps c=false ∧ s.calls c=none ∧
        (∃ y,u.calls c=some y ∧ y.due=y.payload.length+2) ∨
      ∃ x y,s.calls c=some x ∧ u.calls c=some y ∧ x.payload=y.payload ∧
        (a.steps c).toNat+y.due ≤ x.due+(a.retries c).toNat := by
  cases a with
  | step d r =>
    simp only [machine,step,Option.ite_none_right_eq_some] at hs
    obtain ⟨x,p,k,more,lines,hx,hp,hk,hn,rfl⟩ := callStep_cases hs.2
    by_cases hd : d=c
    · subst hd
      refine .inr (.inr ⟨x,_,hx,Function.update_self ..,rfl,?_⟩)
      rcases advance_due s.link (h.accounted d x hx) hp hk hn with steps|⟨steps,e,rfl,he⟩
      · simp only [Action.steps,decide_true,Bool.toNat_true]
        omega
      · simpa [Action.steps,Action.retries,he] using steps
    · exact .inl ⟨by simp [Action.steps,hd],Function.update_of_ne (Ne.symm hd) ..⟩
  | _ =>
    rcases ((base_survives h.silent hs).2 (by simp)).2 c with same|⟨hx,payload,new⟩
    · exact .inl ⟨rfl,same⟩
    · exact .inr (.inl ⟨rfl,hx,_,new,rfl⟩)

/-- The steps of a call are paid for by its payload and by the `EAGAIN`s that it gets. -/
theorem run_due {y : Transfer} (hy : t.calls c=some y) (as : List (Action ι)) :
    ∀ s : Senders ι,s.Told → machine.run s as=some t →
      as.countP (·.steps c)+y.due ≤
        (s.calls c).elim (y.payload.length+2) Transfer.due+as.countP (·.retries c) ∧
      ∀ x,s.calls c=some x → x.payload=y.payload := by
  induction as with
  | nil =>
    intro s _ hr
    cases hr
    refine ⟨by simp [hy],fun x hx => ?_⟩
    rw [hx] at hy
    cases hy
    rfl
  | cons a as ih =>
    intro s h hr
    obtain ⟨u,hu,hr⟩ := (machine.run_cons s t a as).mp hr
    obtain ⟨few,same⟩ := ih u (step_told s a u h hu) hr
    have cost (b : Bool) : (if b=true then 1 else 0)=b.toNat := by cases b <;> rfl
    rw [List.countP_cons,List.countP_cons,cost,cost]
    rcases step_due h hu c with ⟨idle,kept⟩|⟨idle,none,z,hz,due⟩|⟨x,z,hx,hz,payload,paid⟩
    · rw [kept] at few same
      refine ⟨?_,same⟩
      rw [idle,Bool.toNat_false]
      omega
    · rw [hz,Option.elim_some,due,same z hz] at few
      refine ⟨?_,by simp [none]⟩
      rw [none,idle,Bool.toNat_false,Option.elim_none]
      omega
    · rw [hz,Option.elim_some] at few
      refine ⟨?_,fun x' hx' => ?_⟩
      · rw [hx,Option.elim_some]
        omega
      · rw [hx] at hx'
        cases hx'
        exact payload.trans (same z hz)

theorem callStep_of {x : Transfer} {p : Sending} {r : Reply} {k : Kernel}
    {more : Sending ⊕ ErrorCode}
    {lines : Trace} (hx : s.calls c=some x) (hp : x.place=.inl p)
    (hk : s.base.kernel.answer (p.call s.base.impl) r=some k)
    (hn : p.next s.base.impl r=some (more,lines)) : ∃ u,s.callStep c r=some u := by
  simp [callStep,hx,hp,hk,hn]

/-- A call that has not returned can go on. -/
theorem call_goes {x : Transfer} {p : Sending} (hx : s.calls c=some x) (hp : x.place=.inl p)
    (alive : s.base.fate=.alive) :
    ∃ r u,PipeErrors s (.step c r) ∧ machine.step s (.step c r)=some u := by
  have writing := writes_of hx hp
  have takes {r : Reply} (h : ∃ u,s.callStep c r=some u) :
      ∃ u,machine.step s (.step c r)=some u := by
    obtain ⟨u,hu⟩ := h
    exact ⟨u,(if_pos alive).trans hu⟩
  cases p with
  | test payload =>
    have next : ∃ more lines,(Sending.test payload).next s.base.impl .ok=some (more,lines) := by
      simp only [Sending.next]
      split <;> exact ⟨_,_,rfl⟩
    obtain ⟨more,lines,hn⟩ := next
    obtain ⟨u,hu⟩ := takes (callStep_of (k := s.base.kernel) hx hp rfl hn)
    exact ⟨.ok,u,fun hw => absurd (writing.symm.trans hw) (by simp [Sending.writing]),hu⟩
  | write payload pos left =>
    cases hr : s.reset with
    | true =>
      obtain ⟨u,hu⟩ := takes (callStep_of (k := s.base.kernel) (r := .fail .epipe) hx hp rfl rfl)
      exact ⟨_,u,fun _ => by simp [hr],hu⟩
    | false =>
      obtain ⟨u,hu⟩ := takes (callStep_of (k := s.base.kernel) (r := .fail .eagain) hx hp rfl rfl)
      exact ⟨_,u,fun _ => by simp [hr],hu⟩

/-- A call that finds its connection reset returns `READ_FAILED`. -/
theorem reset_noticed {r : Reply} (hw : s.writes c=true) (hr : s.reset=true)
    (hl : PipeErrors s (.step c r)) (hs : machine.step s (.step c r)=some u) :
    ∃ y,u.calls c=some y ∧ y.place=.inr .readFailed := by
  simp only [machine,step,Option.ite_none_right_eq_some] at hs
  obtain ⟨x,p,k,more,lines,hx,hp,hk,hn,rfl⟩ := callStep_cases hs.2
  obtain rfl : r=.fail .epipe := (hl hw).mp hr
  rw [writes_of hx hp] at hw
  refine ⟨_,Function.update_self ..,?_⟩
  cases p with
  | test payload => cases hw
  | write payload pos left =>
    cases hn
    rfl

/-- Where `write` fails with `EPIPE` on reset connections and no others, the loss of the peer is
reported and not fatal exactly as long as nothing is written to a reset connection while `SIGPIPE`
has its default action. -/
theorem loss_reported {s : State} (alive : s.fate=.alive) (hw : s.worker.sending=none)
    (bs : List (Action ι)) (t : Senders ι) (hl : machine.Meets PipeErrors (start s) bs)
    (ht : machine.run (start s) bs=some t) :
    Reported bs t ↔ machine.Meets Spared (start s) bs := by
  have begins : (start s : Senders ι).Told := ⟨hw,by simp [start]⟩
  have told := machine.always step_told bs _ t begins ht
  have survives : ¬t.base.fate=.sigpipe ↔ machine.Meets Spared (start s) bs := machine.alive_iff
    (I := Told)
    (fun s a t h hl hs => ⟨step_told s a t h hs,step_sigpipe s a t h hl hs⟩)
    (fun s a dead => Option.eq_none_iff_forall_ne_some.mpr fun t hs => by
      rw [alive_of_step hs] at dead
      cases dead) bs _ t begins (by simp [start,alive]) hl ht
  rw [← survives]
  refine ⟨fun h => h.survives,fun h => ⟨h,?_,?_,?_,?_⟩⟩
  · intro c x code hx hp
    have accounted := told.accounted c x hx
    by_cases hc : code=.success
    · subst hc
      exact .inl ⟨rfl,(accounted.success hp).2⟩
    · obtain ⟨rfl,rest⟩ := accounted.failure code hp hc
      refine .inr ⟨rfl,fun entered => ?_⟩
      obtain ⟨pos,less,upto⟩ := rest entered
      rw [upto,List.length_take]
      omega
  · exact fun c r u => reset_noticed
  · exact fun c x p alive hx hp => call_goes hx hp alive
  · intro c x hx
    have paid := (run_due hx bs _ begins ht).1
    simp only [start,Option.elim_none] at paid
    omega

/-- The server closes the connection before the first of two `write`s, answers that one with a
reset, and the second one fails. -/
def closedBefore : List (Action Unit) :=
  [.call () [65,66],.step () .ok,.background (.env (.shut 0)),.background (.env (.finish 0)),
    .step () (.wrote 1),.background (.env (.tear 0 0)),.step () (.fail .epipe)]

theorem loss_reported_ignored : ∃ s t,
    Client.machine.run (.boot {} false true false []) dialed=some s ∧
    machine.run (start s) closedBefore=some t ∧ Reported closedBefore t := by
  have run : ((Client.machine.run (.boot {} false true false []) dialed).bind fun s =>
      (machine.run (start s) closedBefore).map fun _ => (s.fate,s.worker.sending,
        decide (machine.Meets PipeErrors (start s) closedBefore ∧
          machine.Meets Spared (start s) closedBefore)))=some (.alive,none,true) := by
    decide +kernel
  obtain ⟨s,hs,run⟩ := Option.bind_eq_some_iff.mp run
  obtain ⟨t,ht,heq⟩ := Option.map_eq_some_iff.mp run
  simp only [Prod.mk.injEq,decide_eq_true_eq] at heq
  obtain ⟨alive,silent,errors,spared⟩ := heq
  exact ⟨s,t,hs,ht,(loss_reported alive silent closedBefore t errors ht).mpr spared⟩

/-- With the default action the process ends in the second `write`. -/
theorem peer_loss_kills : ¬∀ (s : State) (bs : List (Action Unit)) (t : Senders Unit),
    s.fate=.alive → s.worker.sending=none → machine.Meets PipeErrors (start s) bs →
    machine.run (start s) bs=some t → Reported bs t := by
  intro h
  have run : ((Client.machine.run (.boot {} false true true []) dialed).bind fun s =>
      (machine.run (start s) closedBefore).map fun t => (s.fate,s.worker.sending,t.base.fate,
        decide (machine.Meets PipeErrors (start s) closedBefore)))=
        some (.alive,none,.sigpipe,true) := by
    decide +kernel
  obtain ⟨s,hs,run⟩ := Option.bind_eq_some_iff.mp run
  obtain ⟨t,ht,heq⟩ := Option.map_eq_some_iff.mp run
  simp only [Prod.mk.injEq,decide_eq_true_eq] at heq
  obtain ⟨alive,silent,killed,errors⟩ := heq
  exact (h s closedBefore t alive silent errors ht).survives killed

end Senders

end TuyulNet.Client
