import TuyulNet.Client.Flood
import TuyulNet.Server.Limits

namespace TuyulNet

open Framework Kernel

namespace Client

/-- In every run the worker throws nothing, `connect_to` throws only if its thread cannot be
started, and the worker takes the connection for closed only when a read on it has failed, or the
server has ended the stream and nothing of that is left. -/
def Copes (o : TcpOptions) : Prop :=
  ∀ loggerCb dataCb pipeSignal foreign as s,
    machine.run (.boot o loggerCb dataCb pipeSignal foreign) as=some s →
    s.fate≠.workerThrew ∧
    (∀ a t,machine.step s a=some t → t.app=.idle (some .threw) →
      s.app=.idle (some .threw) ∨ s.app=.spawn ∧ ∃ e,a=.app (.fail e)) ∧
    ∀ rest r t,s.worker=.read rest → machine.step s (.worker r)=some t → t.worker=.drop →
      (∃ e,r=.fail e) ∨
        ∀ c f,s.kernel.table s.impl.clientFd=some (.conn c f) → s.kernel.Ended c

section limits

variable {o : TcpOptions} {i j : Impl} {a b : App} {r : Reply} {lines : Trace} {s t : State}

theorem app_threw (hn : a.next i r=some (j,.idle (some .threw),lines)) :
    a=.spawn ∧ ∃ e,r=.fail e := by
  cases a with
  | shutdown stage purpose =>
    obtain ⟨⟨k,more,lines⟩,-,heq⟩ := Option.map_eq_some_iff.mp hn
    cases more with
    | some stage => cases heq
    | none => cases purpose with
      | connect code => cases heq
      | disconnect destroying => cases destroying <;> cases heq
  | send x =>
    obtain ⟨⟨more,lines⟩,-,heq⟩ := Option.map_eq_some_iff.mp hn
    cases more <;> cases heq
  | testConnected host port =>
    cases r with
    | ok =>
      simp only [App.next,dialNext] at hn
      split at hn <;> cases hn
    | _ => cases hn
  | testDisconnect destroying =>
    cases r with
    | ok => cases hc : i.isConnected <;> cases destroying <;> simp [App.next,callNext,hc] at hn
    | _ => cases hn
  | spawn =>
    cases r with
    | fail e => exact ⟨rfl,e,rfl⟩
    | _ => cases hn
  | _ => cases r <;> cases hn

theorem writeFate_threw (signal : Bool) (c : Call) (r : Reply) :
    writeFate signal c r≠.workerThrew := by
  unfold writeFate
  split <;> (try split) <;> simp

theorem step_caught (ho : o.allocates=true) (s : State) (a : Action) (t : State)
    (h : s.impl.options=o ∧ s.fate≠.workerThrew) (hs : machine.step s a=some t) :
    t.impl.options=o ∧ t.fate≠.workerThrew := by
  obtain ⟨-,⟨q,last,-,-,rfl⟩|⟨r,-,happ⟩|⟨r,-,hw⟩|⟨c,rest,-,-,rfl⟩|⟨e,k,-,-,rfl⟩⟩ := step_cases hs
  · exact h
  · obtain ⟨-,k,i,app,lines,-,hn,rfl⟩ := appStep_cases happ
    refine ⟨(next_options hn).1.trans h.1,?_⟩
    show s.app.fate s.impl s.pipeSignal r≠_
    unfold App.fate
    split <;> (try split) <;> first
      | exact writeFate_threw _ _ _
      | simp
  · obtain ⟨k,i,v,lines,-,hn,rfl⟩ := workerStep_cases hw
    refine ⟨(worker_kept hn).trans h.1,?_⟩
    show s.worker.fate s.impl s.pipeSignal r≠_
    unfold Worker.fate
    split
    · rw [h.1,ho]
      simp
    · simp
    · exact writeFate_threw _ _ _
  · exact h
  · exact h

/-- With sizes that are not negative, and room for a byte if there is room for an event, the
worker does its work. -/
theorem copes_within (h : o.Workable) : Copes o := by
  obtain ⟨hm,hb,room⟩ := h
  intro loggerCb dataCb pipeSignal foreign as s hr
  have ho : o.allocates=true := by simp [TcpOptions.allocates,hm,hb]
  obtain ⟨kept,caught⟩ := machine.always (step_caught ho) as _ s ⟨rfl,by simp [State.boot]⟩ hr
  refine ⟨caught,fun a t hs ht => ?_,fun rest r t hp hs hq => ?_⟩
  · obtain ⟨-,⟨q,last,-,-,rfl⟩|⟨r,rfl,happ⟩|⟨r,-,hw⟩|⟨c,rest,-,-,rfl⟩|⟨e,k,-,-,rfl⟩⟩ :=
      step_cases hs
    · cases q <;> cases ht
    · obtain ⟨-,k,i,app,lines,-,hn,rfl⟩ := appStep_cases happ
      have ht : app=.idle (some .threw) := ht
      subst ht
      obtain ⟨here,e,rfl⟩ := app_threw hn
      exact .inr ⟨here,e,rfl⟩
    · obtain ⟨k,i,v,lines,-,-,rfl⟩ := workerStep_cases hw
      exact .inl ht
    · exact .inl ht
    · exact .inl ht
  · obtain ⟨k,i,v,lines,hk,hn,rfl⟩ := workerStep_cases (workerStep_of_step hs)
    rcases room with none|room
    · -- no event, no read
      have small : o.bufferSize=0 ∨ o.maxEpollEvents.toNat=0 := .inr (by rw [none]; rfl)
      have sized := (machine.always (step_sized small) as _ s ⟨rfl,rfl,Nat.zero_le _⟩ hr).sized
      rw [hp,none] at sized
      exact absurd sized (Nat.not_succ_le_zero _)
    · rw [hp] at hk hn
      have hk : s.kernel.answer (.read s.impl.clientFd s.impl.options.bufferSize) r=some k := hk
      cases r with
      | fail e => exact .inl ⟨e,rfl⟩
      | data bs =>
        by_cases hbs : bs=[]
        · subst hbs
          refine .inr fun c f hf => read_end ?_ hk hf
          rw [kept]
          show 0 < o.networkBufferSize.toNat
          omega
        · cases hd : s.impl.dataCb <;> simp [Worker.next,loopNext,hbs,hd] at hn <;>
            rw [← hn.2.1] at hq <;> cases hq
      | _ => cases hn

/-- The server has sent a byte, and the worker is about to read it. -/
def byteWaiting : List Action :=
  dialed++[.worker .ok,.worker .ok,.worker .ok,.env (.send 0 [65]),.env (.arrive 0 1),
    .worker (.events [⟨3,⟨true,false,false⟩⟩]),.worker .ok]

/-- A read of zero bytes is taken for the end of the stream. -/
theorem not_copes_empty (hm : 1 ≤ o.maxEpollEvents) (hb : o.networkBufferSize=0) : ¬Copes o := by
  intro h
  have run : (machine.run (.boot ⟨1,0,5000⟩ false true true []) byteWaiting).map (fun s =>
      (s.worker,s.impl.clientFd,s.kernel.table 3,decide (s.fate=.alive ∧ ¬s.kernel.Ended 0)))=
      some (.read [],3,some (.conn 0 (2 ||| oNonblock)),true) := by
    decide +kernel
  obtain ⟨s,hs,seen⟩ := Option.map_eq_some_iff.mp run
  simp only [Prod.mk.injEq,decide_eq_true_eq] at seen
  obtain ⟨worker,client,file,alive,open'⟩ := seen
  obtain ⟨empty,within⟩ := TcpOptions.within_empty hm hb
  obtain ⟨-,trace,ht⟩ := run_widened byteWaiting (fun _ _ _ => within)
    (.boot ⟨1,0,5000⟩ false true true []) s rfl hs []
  have nothing : s.kernel.answer ((s.widen o trace).worker.call (s.widen o trace).impl) (.data [])=
      some s.kernel := by
    show s.kernel.answer (s.worker.call { s.impl with options := o }) _=_
    rw [worker]
    simp [Worker.call,answer,answerRead,client,file,readConn,empty]
  obtain ⟨lines,dropped⟩ : ∃ lines,
      (s.widen o trace).worker.next (s.widen o trace).impl (.data [])=
        some ({ s.impl with options := o },.drop,lines) := by
    show ∃ lines,s.worker.next { s.impl with options := o } _=some (_,_,lines)
    rw [worker]
    exact ⟨_,rfl⟩
  have read := worker_of (s := s.widen o trace) alive nothing dropped
  rcases (h false true true [] byteWaiting _ ht).2.2 [] _ _ worker read rfl with ⟨e,he⟩|ended
  · cases he
  · refine open' (ended 0 (2 ||| oNonblock) ?_)
    show s.kernel.table s.impl.clientFd=_
    rw [client,file]

/-- A negative size ends the process as soon as the worker runs. -/
theorem not_copes_negative (ho : o.allocates=false) : ¬Copes o := by
  intro h
  have run : (machine.run (.boot {} false true true []) dialed).map (fun s =>
      (s.worker,s.fate))=some (.start,.alive) := by
    decide +kernel
  obtain ⟨s,hs,seen⟩ := Option.map_eq_some_iff.mp run
  obtain ⟨worker,alive⟩ := Prod.mk.injEq .. ▸ seen
  have apart : ∀ a∈dialed,a.byWorker=false := by decide
  obtain ⟨-,trace,ht⟩ := run_widened (o := o) dialed
    (fun a ha hb => by rw [apart a ha] at hb; cases hb) (.boot {} false true true []) s rfl hs []
  have start : (s.widen o trace).worker.next (s.widen o trace).impl .ok=
      some ({ s.impl with options := o },.loopHead,[]) := by
    show s.worker.next { s.impl with options := o } _=_
    rw [worker]
    rfl
  have nothing : s.kernel.answer ((s.widen o trace).worker.call (s.widen o trace).impl) .ok=
      some s.kernel := by
    show s.kernel.answer (s.worker.call { s.impl with options := o }) _=_
    rw [worker]
    rfl
  have threw := worker_of (s := s.widen o trace) alive nothing start
  have run := (machine.run_append _ _ _ _).mpr ⟨_,ht,(machine.run_single _ _ _).mpr threw⟩
  apply (h false true true [] _ _ run).1
  show s.worker.fate { s.impl with options := o } _ _=_
  rw [worker]
  simp [Worker.fate,ho]

theorem copes_iff (o : TcpOptions) : Copes o ↔ o.Workable :=
  o.workable_iff not_copes_negative not_copes_empty copes_within

end limits

end Client

/-- Both loops do their work exactly when neither size is negative and there is room for a byte if
there is room for an event. -/
theorem options_served (o : TcpOptions) : Server.Copes o ∧ Client.Copes o ↔ o.Workable := by
  rw [Server.copes_iff,Client.copes_iff,and_self_iff]

/-- An empty buffer is accepted and loses healthy connections. -/
theorem empty_buffer_accepted : ¬∀ o,Server.Copes o ∧ Client.Copes o :=
  fun h => Server.not_copes_empty (o := ⟨64,0,5000⟩) (by decide) rfl (h _).1

end TuyulNet
