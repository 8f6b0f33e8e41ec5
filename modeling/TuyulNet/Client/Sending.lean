import TuyulNet.Client.Descriptors
import TuyulNet.Kernel.Output

namespace TuyulNet.Client

open Framework Kernel

/-- The part of the payload that the socket has not accepted. -/
def Sending.rest : Sending → Bytes
  | .test payload => payload
  | .write payload pos left => (payload.drop pos).take left

/-- What the reply to a `write` accepts. -/
def Sending.taken (x : Sending) (r : Reply) : Bytes :=
  match x,r with
  | .write payload pos left,.wrote n => ((payload.drop pos).take left).take n
  | _,_ => []

def Sending.writing : Sending → Bool
  | .test _ => false
  | .write _ _ _ => true

/-- What is left after a step of `send_data`; nothing when it has returned. -/
def remains : Sending ⊕ ErrorCode → Bytes
  | .inl x => x.rest
  | .inr _ => []

theorem remains_loop (payload : Bytes) (pos left : Nat) :
    remains (Sending.loop payload pos left)=(payload.drop pos).take left := by
  unfold Sending.loop
  split
  · rfl
  · rename_i h
    simp [remains,Nat.eq_zero_of_not_pos h]

theorem loop_success {payload : Bytes} {pos left : Nat} {code : ErrorCode}
    (h : Sending.loop payload pos left=.inr code) : code=.success := by
  unfold Sending.loop at h
  split at h <;> cases h
  rfl

section sending

variable {i : Impl} {x : Sending} {r : Reply} {more : Sending ⊕ ErrorCode} {lines : Trace}

/-- A step of `send_data` that goes on, or returns `SUCCESS`, accounts for every
byte; it never starts to write unless the entry check has passed. -/
theorem sending_goes_on (h : x.next i r=some (more,lines))
    (hc : ∀ code,more=.inr code → code=.success) :
    x.rest=x.taken r++remains more ∧
      ∀ y,more=.inl y → x.writing=true ∨ i.isConnected=true := by
  cases x with
  | test payload =>
    cases r <;> (try cases h)
    have h : (if i.isConnected=false ∨ i.clientFd<0 then _ else _)=_ := h
    split at h
    · cases h
      cases hc _ rfl
    · rename_i entry
      cases h
      rw [remains_loop]
      refine ⟨by simp [Sending.rest,Sending.taken],fun _ _ => .inr ?_⟩
      by_contra hi
      exact entry (.inl (by simpa using hi))
  | write payload pos left =>
    refine ⟨?_,fun _ _ => .inl rfl⟩
    cases r with
    | wrote n =>
      cases h
      rw [remains_loop]
      show (payload.drop pos).take left=((payload.drop pos).take left).take n++_
      have tail : ((payload.drop pos).take left).drop n=(payload.drop (pos+n)).take (left-n) := by
        rw [List.drop_take,List.drop_drop]
      rw [← tail,List.take_append_drop]
    | fail e =>
      simp only [Sending.next] at h
      split at h <;> cases h
      · rfl
      · cases hc _ rfl
    | _ => cases h

/-- A step of `send_data` that returns an error has accepted nothing: the entry
check has failed, or a `write` for good. -/
theorem sending_fails {code : ErrorCode} (h : x.next i r=some (.inr code,lines))
    (hc : code≠.success) : x.taken r=[] ∧
      (x.writing=true ∧ (∃ e,r=.fail e ∧ e.wouldBlock=false) ∨
        i.isConnected=false ∨ i.clientFd<0) := by
  cases x with
  | test payload =>
    cases r <;> (try cases h)
    have h : (if i.isConnected=false ∨ i.clientFd<0 then _ else _)=_ := h
    split at h
    · rename_i entry
      exact ⟨rfl,.inr entry⟩
    · exact absurd (loop_success (congrArg Prod.fst (Option.some.inj h))) hc
  | write payload pos left =>
    cases r with
    | wrote n => exact absurd (loop_success (congrArg Prod.fst (Option.some.inj h))) hc
    | fail e =>
      simp only [Sending.next] at h
      split at h <;> cases h
      rename_i he
      exact ⟨rfl,.inl ⟨rfl,e,rfl,by simpa using he⟩⟩
    | _ => cases h

theorem sending_accepted (x : Sending) (i : Impl) (o : Option Fd) (r : Reply) :
    (x.call i).accepted o r=if o=some i.clientFd then x.taken r else [] := by
  cases x with
  | test payload => simp [Sending.call,Call.accepted,Sending.taken]
  | write payload pos left => cases r <;> simp [Sending.call,Call.accepted,Sending.taken]

end sending

def App.sending : App → Option Sending
  | .send x => some x
  | _ => none

def Worker.sending : Worker → Option Sending
  | .send x _ => some x
  | _ => Option.none

/-- The `send_data` call in progress; there is one at a time. -/
def State.sending (s : State) : Option Sending := s.app.sending.or s.worker.sending

def State.remaining (s : State) : Bytes := (s.sending.map Sending.rest).getD []

def State.writing (s : State) : Bool := (s.sending.map Sending.writing).getD false

/-- The step of `send_data` that an action takes, if any. -/
def State.sendStep (s : State) : Action → Option (Sending × Reply)
  | .app r => s.app.sending.map (·,r)
  | .worker r => s.worker.sending.map (·,r)
  | _ => none

/-- The bytes that the socket accepts in this step. -/
def State.handed (s : State) (a : Action) : Bytes :=
  match s.sendStep a with
  | some (x,r) => x.taken r
  | none => []

/-- A `send_data` call returns something other than `SUCCESS`. -/
def State.fails (s : State) (a : Action) : Bool :=
  match s.sendStep a with
  | some (x,r) =>
    match x.next s.impl r with
    | some (.inr code,_) => code≠.success
    | _ => false
  | none => false

/-- A `write` fails for good. -/
def State.breaks (s : State) (a : Action) : Bool :=
  match s.sendStep a with
  | some (.write _ _ _,.fail e) => !e.wouldBlock
  | _ => false

/-- The payload of a `send_data` call that begins. -/
def Action.payload : Action → Bytes
  | .request (.send payload) | .callback (.send payload) => payload
  | _ => []

/-- No `send_data` begins while another one is in progress, and the data callback
does not call `disconnect`. -/
def OneSender (s : State) : Action → Prop
  | .request (.send _) => s.worker.sending=none
  | .callback (.send _) => s.app.sending=none
  | a => a.civil=true

instance (s : State) : ∀ a,Decidable (OneSender s a)
  | .request (.send _) | .callback (.send _) => inferInstanceAs (Decidable (_=none))
  | .request (.connect _ _) | .request .disconnect | .request .destroy | .callback .disconnect
  | .callback .finish | .app _ | .worker _ | .env _ => inferInstanceAs (Decidable (_=true))

theorem OneSender.civil {s : State} {a : Action} (h : OneSender s a) : a.civil=true := by
  cases a with
  | request q => rfl
  | callback c =>
    cases c with
    | disconnect => cases h
    | _ => rfl
  | _ => rfl

section steps

variable {i j : Impl} {a b : App} {w v : Worker} {k l : Kernel} {r : Reply} {lines : Trace}

theorem resume_sending (purpose : Purpose) : purpose.resume.sending=none := by
  cases purpose with
  | connect code => rfl
  | disconnect destroying => cases destroying <;> rfl

/-- The application thread is in `send_data` before and after a step, or in neither. -/
theorem app_sending (hn : a.next i r=some (j,b,lines)) :
    (∃ x more,a.sending=some x ∧ x.next i r=some (more,lines) ∧ j=i ∧
      b.sending=more.getLeft?) ∨ a.sending=none ∧ b.sending=none := by
  have dial : dialNext i a r=some (j,b,lines) → b.sending=none := by
    intro h
    unfold dialNext at h
    split at h <;> (try split at h) <;> cases h <;> rfl
  have hook : hookNext i a r=some (j,b,lines) → b.sending=none := by
    intro h
    unfold hookNext bail at h
    split at h <;> cases h <;> rfl
  cases a with
  | idle | gone => cases hn
  | send x =>
    obtain ⟨⟨more,lines⟩,hs,heq⟩ := Option.map_eq_some_iff.mp hn
    cases heq
    exact .inl ⟨x,more,rfl,hs,rfl,by cases more <;> rfl⟩
  | shutdown stage purpose =>
    obtain ⟨⟨j,more,lines⟩,hs,heq⟩ := Option.map_eq_some_iff.mp hn
    cases heq
    refine .inr ⟨rfl,?_⟩
    cases more with
    | none => exact resume_sending purpose
    | some stage => rfl
  | testDisconnect destroying =>
    cases r <;> cases hn
    refine .inr ⟨rfl,?_⟩
    split
    · rfl
    · split <;> rfl
  | destroyImpl =>
    cases r <;> cases hn
    exact .inr ⟨rfl,rfl⟩
  | getFl | setFl | epollCreate | epollAdd | setConnected | spawn | assign =>
    exact .inr ⟨rfl,hook hn⟩
  | _ => exact .inr ⟨rfl,dial hn⟩

theorem worker_sending (hw : w.shutting=false) (hn : w.next i r=some (j,v,lines)) :
    (∃ x more,w.sending=some x ∧ x.next i r=some (more,lines) ∧ j=i ∧
      v.sending=more.getLeft?) ∨ w.sending=none ∧ v.sending=none := by
  have loop : loopNext i w r=some (j,v,lines) → v.sending=none := by
    intro h
    unfold loopNext at h
    split at h <;> (try split at h) <;> cases h <;> (try split) <;> rfl
  cases w with
  | shutdown stage rest => cases hw
  | send x rest =>
    obtain ⟨⟨more,lines⟩,hs,heq⟩ := Option.map_eq_some_iff.mp hn
    cases heq
    exact .inl ⟨x,more,rfl,hs,rfl,by cases more <;> rfl⟩
  | testDisconnect rest =>
    cases r <;> cases hn
    refine .inr ⟨rfl,?_⟩
    split <;> rfl
  | _ => exact .inr ⟨rfl,loop hn⟩

/-- The thread handle moves between workers that are not in `send_data`. -/
theorem thread_sending {pending : Bool} (hc : Control i a.phase w pending)
    (runs : a.waits w=false) : (a.thread i r w).sending=w.sending := by
  unfold App.thread
  split
  · split
    · rfl
    · rename_i hj
      have gone : w=.none := by
        by_contra hw
        rcases hc.joined hw with h|h
        · exact hj h
        · cases h
      rw [gone]
      rfl
  · have finished : w=.finished := by simpa [App.waits] using runs
    rw [finished]
    rfl
  · rfl

end steps

/-- One step of the `send_data` call in progress: every byte is handed over or still
to be sent, unless the call fails. -/
def Accounts (s t : State) (a : Action) : Prop :=
  (s.fails a=false → s.remaining++a.payload=s.handed a++t.remaining ∧
    (t.writing=true → s.writing=true ∨ s.impl.isConnected=true)) ∧
  (s.fails a=true → s.handed a=[] ∧ t.sending=none ∧ (s.writing=true ∧ s.breaks a=true ∨
    s.impl.isConnected=false ∨ s.impl.clientFd<0))

section accounts

variable {s t : State} {a : Action}

/-- An action that is no step of a call leaves the call in progress as it is. -/
theorem accounts_idle (hs : s.sendStep a=none) (ht : t.sending=s.sending)
    (hp : a.payload=[]) : Accounts s t a := by
  have fails : s.fails a=false := by simp [State.fails,hs]
  constructor
  · intro _
    refine ⟨?_,?_⟩
    · simp [State.remaining,State.handed,ht,hs,hp]
    · unfold State.writing
      rw [ht]
      exact .inl
  · rw [fails]
    simp

/-- A call that begins has all of its payload before it. -/
theorem accounts_begin (hs : s.sendStep a=none) (hx : s.sending=none)
    (ht : t.sending=some (.test a.payload)) : Accounts s t a := by
  have fails : s.fails a=false := by simp [State.fails,hs]
  constructor
  · intro _
    constructor
    · simp [State.remaining,State.handed,hs,hx,ht,Sending.rest]
    · simp [State.writing,ht,Sending.writing]
  · rw [fails]
    simp

theorem accounts_step {x : Sending} {r : Reply} {more : Sending ⊕ ErrorCode} {lines : Trace}
    (hs : s.sendStep a=some (x,r)) (hx : s.sending=some x) (hp : a.payload=[])
    (hn : x.next s.impl r=some (more,lines)) (ht : t.sending=more.getLeft?) :
    Accounts s t a := by
  have handed : s.handed a=x.taken r := by simp [State.handed,hs]
  have before : s.remaining=x.rest := by simp [State.remaining,hx]
  have after : t.remaining=remains more := by cases more <;> simp [State.remaining,ht,remains]
  have writing : s.writing=x.writing := by simp [State.writing,hx]
  constructor
  · intro hf
    have fine : ∀ code,more=.inr code → code=.success := by
      intro code e
      subst e
      simpa [State.fails,hs,hn] using hf
    obtain ⟨bytes,goes⟩ := sending_goes_on hn fine
    refine ⟨by rw [before,after,handed,hp,List.append_nil,bytes],?_⟩
    intro hw
    rw [writing]
    cases more with
    | inl y => exact goes y rfl
    | inr code => simp [State.writing,ht] at hw
  · intro hf
    cases more with
    | inl y => simp [State.fails,hs,hn] at hf
    | inr code =>
      obtain ⟨none,why⟩ := sending_fails hn (by simpa [State.fails,hs,hn] using hf)
      refine ⟨handed.trans none,ht,?_⟩
      rcases why with ⟨hw,e,rfl,he⟩|why
      · refine .inl ⟨writing.trans hw,?_⟩
        cases x with
        | test payload => cases hw
        | write payload pos left => simp [State.breaks,hs,he]
      · exact .inr why

end accounts

/-- At most one call of `send_data` is in progress. -/
def State.OneCall (s : State) : Prop := s.app.sending=none ∨ s.worker.sending=none

theorem step_accounts {s t : State} {a : Action} (h : Sound s) (one : s.OneCall)
    (hc : OneSender s a) (hs : machine.step s a=some t) : t.OneCall ∧ Accounts s t a := by
  obtain ⟨-,⟨q,last,rfl,ha,rfl⟩|⟨r,rfl,ht⟩|⟨r,rfl,ht⟩|⟨c,rest,rfl,hw,rfl⟩|⟨e,k,rfl,hk,rfl⟩⟩ :=
    step_cases hs
  · have idle : s.app.sending=none := by rw [ha]; rfl
    have step : s.sendStep (.request q)=none := rfl
    cases q with
    | send payload =>
      have other : s.worker.sending=none := hc
      refine ⟨.inr other,accounts_begin step ?_ rfl⟩
      simp [State.sending,idle,other]
    | _ =>
      refine ⟨.inl rfl,accounts_idle step ?_ rfl⟩
      show Option.or none s.worker.sending=s.app.sending.or s.worker.sending
      rw [idle]
  · obtain ⟨runs,k,i,app,lines,hk,hn,rfl⟩ := appStep_cases ht
    have thread := thread_sending (r := r) h.control runs
    rcases app_sending hn with ⟨x,more,hx,hm,rfl,hb⟩|⟨before,after⟩
    · have other : s.worker.sending=none := one.resolve_left (by simp [hx])
      refine ⟨.inr (thread.trans other),?_⟩
      apply accounts_step (x := x) (r := r) _ _ rfl hm
      · simp [State.sending,thread,other,hb]
      · simp [State.sendStep,hx]
      · simp [State.sending,hx]
    · refine ⟨.inl after,accounts_idle ?_ ?_ rfl⟩
      · simp [State.sendStep,before]
      · simp [State.sending,before,after,thread]
  · obtain ⟨k,i,worker,lines,hk,hn,rfl⟩ := workerStep_cases ht
    rcases worker_sending h.control.outside hn with ⟨x,more,hx,hm,rfl,hv⟩|⟨before,after⟩
    · have other : s.app.sending=none := one.resolve_right (by simp [hx])
      refine ⟨.inl other,?_⟩
      apply accounts_step (x := x) (r := r) _ _ rfl hm
      · simp [State.sending,other,hv]
      · simp [State.sendStep,hx]
      · simp [State.sending,other,hx]
    · refine ⟨.inr after,accounts_idle ?_ ?_ rfl⟩
      · simp [State.sendStep,before]
      · simp [State.sending,before,after]
  · have idle : s.worker.sending=none := by rw [hw]; rfl
    have step : s.sendStep (.callback c)=none := rfl
    cases c with
    | disconnect => cases hc
    | send payload =>
      have other : s.app.sending=none := hc
      refine ⟨.inl other,accounts_begin step ?_ ?_⟩
      · simp [State.sending,idle,other]
      · show s.app.sending.or _=_
        rw [other]
        rfl
    | finish =>
      refine ⟨.inr rfl,accounts_idle step ?_ rfl⟩
      show s.app.sending.or none=s.app.sending.or s.worker.sending
      rw [idle]
  · exact ⟨one,accounts_idle rfl rfl rfl⟩

end TuyulNet.Client
