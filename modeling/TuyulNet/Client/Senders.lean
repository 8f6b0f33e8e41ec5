import TuyulNet.Framework.Merge
import TuyulNet.Client.Lifecycle
import TuyulNet.Client.Sending

namespace TuyulNet.Client

open Framework Kernel

/-- One call of `send_data`: where it is or what it returned, whether it has passed
its entry check, the connection that `client_fd` stood for then, and its own
successful writes, each with the connection that took the bytes. -/
structure Transfer where
  payload : Bytes
  place : Sending ⊕ ErrorCode
  entered : Bool
  home : Option ConnId
  writes : List (ConnId × Bytes)

namespace Transfer

def begin (payload : Bytes) : Transfer := ⟨payload,.inl (.test payload),false,none,[]⟩

/-- What the call's own writes have handed over. -/
def accepted (x : Transfer) : Bytes := (x.writes.map Prod.snd).flatten

/-- Bytes that were taken, with the connection that took them. -/
def landed (link : Option ConnId) (bs : Bytes) : List (ConnId × Bytes) :=
  if bs=[] then [] else link.toList.map (·,bs)

/-- The call after its step `p` has had the reply `r`; `link` is the connection that
`client_fd` stands for. -/
def advance (x : Transfer) (i : Impl) (link : Option ConnId) (p : Sending) (r : Reply)
    (more : Sending ⊕ ErrorCode) : Transfer where
  payload := x.payload
  place := more
  entered := if p.writing then x.entered else i.isConnected && decide (0 ≤ i.clientFd)
  home := if p.writing then x.home else link
  writes := x.writes++landed link (p.taken r)

end Transfer

section transfer

variable {x : Transfer} {i : Impl} {link : Option ConnId} {p : Sending} {r : Reply}
  {more : Sending ⊕ ErrorCode} {lines : Trace} {k l : Kernel}

/-- Nothing is taken, or there is a connection that takes it. -/
theorem taken_lands (hk : k.answer (p.call i) r=some l) :
    p.taken r=[] ∨ ∃ d,k.connection i.clientFd=some d := by
  cases p with
  | test payload => exact .inl rfl
  | write payload pos left =>
    cases r with
    | wrote n => exact .inr (write_lands hk).1
    | _ => exact .inl rfl

theorem advance_accepted (h : p.taken r=[] ∨ ∃ d,link=some d) :
    (x.advance i link p r more).accepted=x.accepted++p.taken r := by
  have landed : ((Transfer.landed link (p.taken r)).map Prod.snd).flatten=p.taken r := by
    unfold Transfer.landed
    by_cases hb : p.taken r=[]
    · simp [hb]
    · obtain ⟨d,rfl⟩ := h.resolve_left hb
      simp [hb]
  simp [Transfer.accepted,Transfer.advance,landed]

namespace Transfer

/-- The cursor, the outcome and the accepted bytes of a call fit: what is accepted is
the payload up to the cursor, and `SUCCESS` means all of it. -/
structure Accounted (x : Transfer) : Prop where
  fresh : ∀ payload,x.place=.inl (.test payload) → payload=x.payload ∧ x.entered=false
  cursor : ∀ payload pos left,x.place=.inl (.write payload pos left) → payload=x.payload ∧
    x.entered=true ∧ pos+left=x.payload.length ∧ 0 < left ∧ x.accepted=x.payload.take pos
  success : x.place=.inr .success → x.entered=true ∧ x.accepted=x.payload
  failure : ∀ code,x.place=.inr code → code≠.success → code=.readFailed ∧
    (x.entered=true → ∃ pos < x.payload.length,x.accepted=x.payload.take pos)
  outside : x.entered=false → x.writes=[]

theorem begin_accounted (payload : Bytes) : (begin payload).Accounted := by
  constructor <;> simp [begin]

/-- The loop goes on from the cursor it is given, or has handed over everything. -/
theorem loop_accounted (pos left : Nat) (hx : x.place=Sending.loop x.payload pos left)
    (he : x.entered=true) (hl : pos+left=x.payload.length)
    (ha : x.accepted=x.payload.take pos) : x.Accounted := by
  unfold Sending.loop at hx
  split at hx
  · rename_i more
    constructor
    · simp [hx]
    · intro payload pos' left' hp
      rw [hx] at hp
      cases hp
      exact ⟨rfl,he,hl,more,ha⟩
    · simp [hx]
    · simp [hx]
    · simp [he]
  · rename_i done
    have whole : x.accepted=x.payload := by
      rw [ha,List.take_of_length_le (by omega)]
    constructor
    · simp [hx]
    · simp [hx]
    · exact fun _ => ⟨he,whole⟩
    · intro code hp hc
      rw [hx] at hp
      exact absurd (Sum.inr.inj hp).symm hc
    · simp [he]

theorem test_accounted (h : x.Accounted) {payload : Bytes} (hp : x.place=.inl (.test payload))
    (hn : (Sending.test payload).next i r=some (more,lines)) :
    (x.advance i link (.test payload) r more).Accounted := by
  obtain ⟨rfl,outside⟩ := h.fresh payload hp
  have nothing : (x.advance i link (.test x.payload) r more).writes=[] := by
    simp [advance,h.outside outside,Sending.taken,landed]
  cases r <;> (try cases hn)
  have hn : (if i.isConnected=false ∨ i.clientFd<0 then _ else _)=_ := hn
  split at hn
  · rename_i shut
    have stays : (i.isConnected && decide (0 ≤ i.clientFd))=false := by
      rw [Bool.and_eq_false_iff,decide_eq_false_iff_not,not_le]
      exact shut
    cases hn
    constructor
    · simp [advance]
    · simp [advance]
    · simp [advance]
    · intro code hc _
      exact ⟨(Sum.inr.inj hc).symm,by simp [advance,Sending.writing,stays]⟩
    · exact fun _ => nothing
  · rename_i shut
    have enters : (i.isConnected && decide (0 ≤ i.clientFd))=true := by
      simpa [not_or] using shut
    cases hn
    apply loop_accounted 0 _ rfl
    · simp [advance,Sending.writing,enters]
    · exact Nat.zero_add _
    · rw [accepted,nothing]
      rfl

theorem write_accounted (h : x.Accounted) {payload : Bytes} {pos left : Nat}
    (hp : x.place=.inl (.write payload pos left))
    (hk : k.answer ((Sending.write payload pos left).call i) r=some l)
    (hn : (Sending.write payload pos left).next i r=some (more,lines)) :
    (x.advance i (k.connection i.clientFd) (.write payload pos left) r more).Accounted := by
  obtain ⟨rfl,entered,total,more',upto⟩ := h.cursor payload pos left hp
  have accepted : (x.advance i (k.connection i.clientFd) (.write x.payload pos left) r
      more).accepted=x.payload.take pos++(Sending.write x.payload pos left).taken r := by
    rw [advance_accepted (taken_lands hk),upto]
  cases r with
  | wrote n =>
    have fits : n ≤ left := by
      have fits := (write_lands hk).2.2
      rw [List.length_take,List.length_drop] at fits
      omega
    cases hn
    apply loop_accounted (pos+n) (left-n) rfl
    · exact entered
    · show pos+n+(left-n)=x.payload.length
      omega
    · rw [accepted,List.take_add]
      simp [Sending.taken,advance,List.take_take,min_eq_left fits]
  | fail e =>
    simp only [Sending.next] at hn
    rw [show Sending.taken _ (.fail e)=[] from rfl,List.append_nil] at accepted
    split at hn
    · cases hn
      constructor
      · simp [advance]
      · intro payload pos' left' hp
        cases hp
        exact ⟨rfl,entered,total,more',accepted⟩
      · simp [advance]
      · simp [advance]
      · simp [advance,Sending.writing,entered]
    · cases hn
      constructor
      · simp [advance]
      · simp [advance]
      · simp [advance]
      · intro code hc _
        exact ⟨(Sum.inr.inj hc).symm,fun _ => ⟨pos,by simp only [advance]; omega,accepted⟩⟩
      · simp [advance,Sending.writing,entered]
  | _ => cases hn

theorem advance_accounted (h : x.Accounted) (hp : x.place=.inl p)
    (hk : k.answer (p.call i) r=some l) (hn : p.next i r=some (more,lines)) :
    (x.advance i (k.connection i.clientFd) p r more).Accounted := by
  cases p with
  | test payload => exact test_accounted h hp hn
  | write payload pos left => exact write_accounted h hp hk hn

end Transfer

end transfer

/-- A client and any number of `send_data` calls on it, named by `ι`, each made by a
thread of its own or from inside the data callback. -/
structure Senders (ι : Type*) where
  base : State
  calls : ι → Option Transfer

/-- Steps inside a call of the application thread, of the worker, and from outside;
`send_data` is not among them. -/
def Action.working : Action → Bool
  | .app _ | .worker _ | .env _ | .callback .finish => true
  | _ => false

/-- The worker and the outside, and `connect_to` once `is_connected` is set. -/
def Action.background (s : State) : Action → Bool
  | .app _ => s.app=.spawn || s.app=.assign
  | a => a.working

/-- The calls that another thread makes while `send_data` is in progress. -/
def Request.relinks : Request → Bool
  | .connect _ _ | .disconnect => true
  | _ => false

def App.atRest : App → Bool
  | .idle _ => true
  | _ => false

namespace Senders

variable {ι : Type*}

def start (s : State) : Senders ι := ⟨s,fun _ => none⟩

/-- The connection that `client_fd` stands for. -/
def link (s : Senders ι) : Option ConnId := s.base.kernel.connection s.base.impl.clientFd

def accepted (s : Senders ι) (c : ι) : Bytes := ((s.calls c).map Transfer.accepted).getD []

/-- `whole` is a call of `connect_to` or `disconnect`, from its beginning to its
return, as one step. -/
inductive Action (ι : Type*)
  | call (c : ι) (payload : Bytes)
  | step (c : ι) (r : Reply)
  | background (a : Client.Action)
  | whole (q : Request) (as : List Client.Action)

variable [DecidableEq ι]

/-- The call `c` takes the reply `r` to its check or its `write`. -/
def callStep (s : Senders ι) (c : ι) (r : Reply) : Option (Senders ι) :=
  (s.calls c).bind fun x => x.place.getLeft?.bind fun p =>
    match s.base.kernel.answer (p.call s.base.impl) r,p.next s.base.impl r with
    | some kernel,some (more,lines) => some {
        base := { s.base with
          kernel
          trace := lines++.call (p.call s.base.impl) r::s.base.trace
          fate := writeFate s.base.pipeSignal (p.call s.base.impl) r }
        calls := Function.update s.calls c (some (x.advance s.base.impl s.link p r more)) }
    | _,_ => none

def step (s : Senders ι) : Action ι → Option (Senders ι)
  | .call c payload =>
    if s.base.fate=.alive ∧ s.calls c=none then
      some { s with calls := Function.update s.calls c (some (.begin payload)) }
    else none
  | .step c r => if s.base.fate=.alive then s.callStep c r else none
  | .background a =>
    if a.background s.base then (Client.step s.base a).map fun b => { s with base := b }
    else none
  | .whole q as =>
    if q.relinks && as.all Client.Action.working then
      ((Client.machine.run s.base (.request q::as)).filter (·.app.atRest)).map fun b =>
        { s with base := b }
    else none

def machine : Machine (Senders ι) (Action ι) := ⟨step⟩

variable {s t : Senders ι}

theorem callStep_cases {c : ι} {r : Reply} (h : s.callStep c r=some t) :
    ∃ x p k more lines,s.calls c=some x ∧ x.place=.inl p ∧
      s.base.kernel.answer (p.call s.base.impl) r=some k ∧
      p.next s.base.impl r=some (more,lines) ∧
      t=⟨{ s.base with
          kernel := k
          trace := lines++.call (p.call s.base.impl) r::s.base.trace
          fate := writeFate s.base.pipeSignal (p.call s.base.impl) r },
        Function.update s.calls c (some (x.advance s.base.impl s.link p r more))⟩ := by
  unfold callStep at h
  obtain ⟨x,hx,h⟩ := Option.bind_eq_some_iff.mp h
  obtain ⟨p,hp,h⟩ := Option.bind_eq_some_iff.mp h
  split at h
  · rename_i k more lines hk hn
    exact ⟨x,p,k,more,lines,hx,Sum.getLeft?_eq_some_iff.mp hp,hk,hn,(Option.some.inj h).symm⟩
  · cases h

theorem step_cases {a : Action ι} (h : s.step a=some t) :
    (∃ c payload,a=.call c payload ∧ s.calls c=none ∧
      t={ s with calls := Function.update s.calls c (some (.begin payload)) }) ∨
    (∃ c r,a=.step c r ∧ s.callStep c r=some t) ∨
    (∃ b u,a=.background b ∧ b.background s.base=true ∧ Client.step s.base b=some u ∧
      t={ s with base := u }) ∨
    ∃ q as u,a=.whole q as ∧ q.relinks=true ∧ (∀ b∈as,b.working=true) ∧
      Client.machine.run s.base (.request q::as)=some u ∧ u.app.atRest=true ∧
      t={ s with base := u } := by
  cases a with
  | call c payload =>
    simp only [step,Option.ite_none_right_eq_some,Option.some.injEq] at h
    exact .inl ⟨c,payload,rfl,h.1.2,h.2.symm⟩
  | step c r =>
    simp only [step,Option.ite_none_right_eq_some] at h
    exact .inr (.inl ⟨c,r,rfl,h.2⟩)
  | background b =>
    simp only [step,Option.ite_none_right_eq_some,Option.map_eq_some_iff] at h
    obtain ⟨hb,u,hu,rfl⟩ := h
    exact .inr (.inr (.inl ⟨b,u,rfl,hb,hu,rfl⟩))
  | whole q as =>
    simp only [step,Option.ite_none_right_eq_some,Option.map_eq_some_iff,Bool.and_eq_true,
      List.all_eq_true,Option.filter_eq_some_iff] at h
    obtain ⟨⟨hq,has⟩,u,⟨hu,rest⟩,rfl⟩ := h
    exact .inr (.inr (.inr ⟨q,as,u,rfl,hq,has,hu,rest,rfl⟩))

end Senders

section background

variable {i j : Impl} {w v : Worker} {k l : Kernel} {r : Reply} {lines : Trace}

/-- A worker outside `send_data` hands nothing to a socket. -/
theorem worker_silent (hw : w.sending=none) (i : Impl) (o : Option Fd) (r : Reply) :
    (w.call i).accepted o r=[] := by
  cases w with
  | send x rest => cases hw
  | shutdown stage rest => cases stage <;> rfl
  | _ => rfl

/-- Neither a `send_data` call of the client's own threads nor a `disconnect` of the
data callback is in progress. -/
structure State.Clear (s : State) : Prop where
  wf : s.kernel.Wf
  outside : s.worker.shutting=false
  asks : s.worker.asksDisconnect=false
  silent : s.worker.sending=none

/-- What the background leaves alone. -/
structure State.Stays (s t : State) : Prop where
  client : t.impl.clientFd=s.impl.clientFd
  flag : t.impl.isConnected=true → s.impl.isConnected=true
  connection : ∀ fd,t.kernel.connection fd=s.kernel.connection fd
  out : ∀ d < s.kernel.born,(t.kernel.conns d).out=(s.kernel.conns d).out

theorem quiet_stays {c : Call} (hw : k.Wf) (hc : c.quiet=true)
    (silent : ∀ o,c.accepted o r=[]) (hk : k.answer c r=some l) :
    (∀ fd,l.connection fd=k.connection fd) ∧
      ∀ d < k.born,(l.conns d).out=(k.conns d).out := by
  refine ⟨fun fd => connection_congr ((answer_quiet hc hk).1 fd),fun d hd => ?_⟩
  rw [answer_out hw hd hk,silent,List.append_nil]

theorem background_stays {s t : State} {a : Action} (h : s.Clear) (ha : a.background s=true)
    (hs : step s a=some t) : t.Clear ∧ s.Stays t := by
  obtain ⟨-,⟨q,last,rfl,-⟩|⟨r,rfl,ht⟩|⟨r,rfl,ht⟩|⟨c,rest,rfl,hw,rfl⟩|⟨e,k,rfl,hk,rfl⟩⟩ :=
    step_cases hs
  · cases ha
  · obtain ⟨-,k,i,app,lines,hk,hn,rfl⟩ := appStep_cases ht
    have place : s.app=.spawn ∨ s.app=.assign := by simpa [Action.background] using ha
    have fields : i.clientFd=s.impl.clientFd ∧ i.isConnected=s.impl.isConnected := by
      rcases place with ha|ha <;> rw [ha] at hn <;> cases r <;> cases hn <;> exact ⟨rfl,rfl⟩
    have quiet : (s.app.call s.impl).quiet=true ∧ ∀ o,(s.app.call s.impl).accepted o r=[] := by
      rcases place with ha|ha <;> rw [ha] <;> exact ⟨rfl,fun _ => rfl⟩
    obtain ⟨connection,out⟩ := quiet_stays h.wf quiet.1 quiet.2 hk
    have thread : s.app.thread s.impl r s.worker=s.worker ∨
        s.app.thread s.impl r s.worker=.start := by
      rcases place with ha|ha <;> rw [ha]
      · cases r <;> simp [App.thread]
        cases s.impl.joinable <;> simp
      · exact .inl rfl
    refine ⟨?_,fields.1,fun up => fields.2 ▸ up,connection,out⟩
    have wf := answer_wf h.wf _ r hk
    rcases thread with hw|hw
    · exact ⟨wf,hw.symm ▸ h.outside,hw.symm ▸ h.asks,hw.symm ▸ h.silent⟩
    · exact ⟨wf,by rw [hw]; rfl,by rw [hw]; rfl,by rw [hw]; rfl⟩
  · obtain ⟨k,i,worker,lines,hk,hn,rfl⟩ := workerStep_cases ht
    obtain ⟨quiet,client,-,asks,-⟩ := worker_keeps h.outside hn
    obtain ⟨-,-,-,-,flag,-,shut⟩ := worker_moves h.outside hn
    obtain ⟨connection,out⟩ := quiet_stays h.wf quiet
      (fun o => worker_silent h.silent s.impl o r) hk
    have outside : worker.shutting=false := by
      by_contra hv
      have asked := (shut (by simpa using hv)).1
      rw [h.asks] at asked
      cases asked
    have silent : worker.sending=none := by
      rcases worker_sending h.outside hn with ⟨x,more,hx,-⟩|⟨-,silent⟩
      · rw [h.silent] at hx
        cases hx
      · exact silent
    refine ⟨⟨answer_wf h.wf _ r hk,outside,asks,silent⟩,client,?_,connection,out⟩
    intro up
    rcases flag with flag|⟨-,flag,-⟩
    · exact flag ▸ up
    · rw [flag] at up
      cases up
  · cases c with
    | finish => exact ⟨⟨h.wf,rfl,rfl,rfl⟩,rfl,id,fun _ => rfl,fun _ _ => rfl⟩
    | _ => cases ha
  · refine ⟨⟨env_wf h.wf e hk,h.outside,h.asks,h.silent⟩,rfl,id,env_connection e hk,?_⟩
    exact fun d hd => (env_out e hd hk).2

end background

namespace Senders

variable {ι : Type*} [DecidableEq ι] {s t u : Senders ι}

theorem call_quiet (p : Sending) (i : Impl) : (p.call i).quiet=true := by
  cases p <;> rfl

/-- A call on connection `near`; while the flag is up nobody fails the entry check. -/
structure Fits (near : ConnId) (up : Bool) (x : Transfer) : Prop where
  accounted : x.Accounted
  home : ∀ w∈x.writes,w.1=near
  enters : up=true → x.entered=false → x.place=.inl (.test x.payload)

/-- The calls share the socket of connection `near`, and share out its bytes. -/
structure Delivers (near : ConnId) (before : Bytes) (s : Senders ι) : Prop where
  clear : s.base.Clear
  link : s.link=some near
  merged : ∃ taken,(s.base.kernel.conns near).out=before++taken ∧ Merges s.accepted taken
  calls : ∀ c x,s.calls c=some x → Fits near s.base.impl.isConnected x

variable {near : ConnId} {before : Bytes} {c : ι}

theorem update_some {d : ι} {x y : Transfer} {calls : ι → Option Transfer}
    (h : Function.update calls c (some y) d=some x) : x=y ∨ calls d=some x := by
  by_cases hd : d=c
  · rw [hd,Function.update_self] at h
    exact .inl (Option.some.inj h).symm
  · exact .inr (by simpa [hd] using h)

theorem Delivers.owner (h : s.Delivers near before) :
    (s.base.kernel.conns near).fd=some s.base.impl.clientFd ∧ near < s.base.kernel.born ∧
      0 ≤ s.base.impl.clientFd := by
  have wf := h.clear.wf
  obtain ⟨f,hf⟩ := connection_some.mp h.link
  obtain ⟨fd,born⟩ := wf.attached _ near f hf
  exact ⟨fd,born,wf.nonneg _ (by simp [hf])⟩

theorem call_delivers (h : s.Delivers near before) (hc : s.calls c=none) (payload : Bytes) :
    Delivers near before
      { s with calls := Function.update s.calls c (some (.begin payload)) } := by
  refine ⟨h.clear,h.link,?_,?_⟩
  · obtain ⟨taken,out,merges⟩ := h.merged
    refine ⟨taken,out,merges.congr fun d => ?_⟩
    by_cases hd : d=c <;> simp [accepted,hd,hc,Transfer.begin,Transfer.accepted]
  · intro d x hx
    rcases update_some hx with rfl|hx
    · exact ⟨Transfer.begin_accounted payload,by simp [Transfer.begin],fun _ _ => rfl⟩
    · exact h.calls d x hx

/-- A step of a call on the connected client. -/
theorem advance_fits {x : Transfer} {i : Impl} {k l : Kernel} {p : Sending} {r : Reply}
    {more : Sending ⊕ ErrorCode} {lines : Trace} (h : Fits near i.isConnected x)
    (hl : k.connection i.clientFd=some near) (open' : 0 ≤ i.clientFd) (hp : x.place=.inl p)
    (hk : k.answer (p.call i) r=some l) (hn : p.next i r=some (more,lines)) :
    Fits near i.isConnected (x.advance i (k.connection i.clientFd) p r more) := by
  refine ⟨Transfer.advance_accounted h.accounted hp hk hn,?_,?_⟩
  · intro w hw
    rcases List.mem_append.mp hw with hw|hw
    · exact h.home w hw
    · rw [hl] at hw
      unfold Transfer.landed at hw
      split at hw
      · cases hw
      · simp only [Option.toList_some,List.map_cons,List.map_nil,List.mem_singleton] at hw
        rw [hw]
  · intro up outside
    cases p with
    | test payload => simp [Transfer.advance,Sending.writing,up,open'] at outside
    | write payload pos left =>
      have entered := (h.accounted.cursor payload pos left hp).2.1
      rw [show x.entered=false from outside] at entered
      cases entered

theorem callStep_delivers (h : s.Delivers near before) {r : Reply} (hs : s.callStep c r=some t) :
    t.Delivers near before := by
  obtain ⟨x,p,k,more,lines,hx,hp,hk,hn,rfl⟩ := callStep_cases hs
  obtain ⟨fd,born,open'⟩ := h.owner
  have wf := h.clear.wf
  have table := (answer_quiet (call_quiet p s.base.impl) hk).1
  have lands : p.taken r=[] ∨ ∃ d,s.link=some d := .inr ⟨near,h.link⟩
  refine ⟨⟨answer_wf wf _ r hk,h.clear.outside,h.clear.asks,h.clear.silent⟩,?_,?_,?_⟩
  · exact (connection_congr (table _)).trans h.link
  · obtain ⟨taken,out,merges⟩ := h.merged
    refine ⟨taken++p.taken r,?_,(merges.append c (p.taken r)).congr fun d => ?_⟩
    · have written := answer_out wf born hk
      rw [sending_accepted,if_pos fd,out,List.append_assoc] at written
      exact written
    · by_cases hd : d=c
      · simp [accepted,hd,hx,advance_accepted lands]
      · simp [accepted,hd]
  · intro d y hy
    rcases update_some hy with rfl|hy
    · exact advance_fits (h.calls c x hx) h.link open' hp hk hn
    · exact h.calls d y hy

/-- `connect_to` or `disconnect` is called. -/
def Action.relinks : Action ι → Bool
  | .whole _ _ => true
  | _ => false

theorem step_delivers (s : Senders ι) (a : Action ι) (t : Senders ι)
    (h : s.Delivers near before) (ha : a.relinks=false) (hs : machine.step s a=some t) :
    t.Delivers near before := by
  obtain ⟨c,payload,rfl,hc,rfl⟩|⟨c,r,rfl,ht⟩|⟨b,u,rfl,hb,hu,rfl⟩|⟨q,as,u,rfl,-⟩ := step_cases hs
  · exact call_delivers h hc payload
  · exact callStep_delivers h ht
  · obtain ⟨clear,stays⟩ := background_stays h.clear hb hu
    have link : u.kernel.connection u.impl.clientFd=some near := by
      rw [stays.client,stays.connection]
      exact h.link
    refine ⟨clear,link,?_,?_⟩
    · obtain ⟨taken,out,merges⟩ := h.merged
      exact ⟨taken,(stays.out near h.owner.2.1).trans out,merges⟩
    · intro c x hx
      obtain ⟨accounted,home,enters⟩ := h.calls c x hx
      exact ⟨accounted,home,fun up => enters (stays.flag up)⟩
  · cases ha

theorem accepted_upto {x : Transfer} (h : x.Accounted) : x.accepted<+:x.payload := by
  cases he : x.entered with
  | false => simp [Transfer.accepted,h.outside he]
  | true =>
    cases hp : x.place with
    | inl p =>
      cases p with
      | test payload =>
        have outside := (h.fresh payload hp).2
        rw [he] at outside
        cases outside
      | write payload pos left =>
        rw [(h.cursor payload pos left hp).2.2.2.2]
        exact List.take_prefix _ _
    | inr code =>
      by_cases hc : code=.success
      · rw [(h.success (hc ▸ hp)).2]
      · obtain ⟨pos,-,upto⟩ := (h.failure code hp hc).2 he
        rw [upto]
        exact List.take_prefix _ _

/-- `SUCCESS` and the whole payload, for a call that has passed its entry check. -/
theorem success_iff {x : Transfer} (h : x.Accounted) (he : x.entered=true) :
    x.place=.inr .success ↔ x.accepted=x.payload := by
  refine ⟨fun hp => (h.success hp).2,fun whole => ?_⟩
  have short (pos : Nat) (hp : pos < x.payload.length) : x.accepted≠x.payload.take pos := by
    intro upto
    have lengths := congrArg List.length (whole.symm.trans upto)
    rw [List.length_take] at lengths
    omega
  cases hp : x.place with
  | inl p =>
    cases p with
    | test payload =>
      have outside := (h.fresh payload hp).2
      rw [he] at outside
      cases outside
    | write payload pos left =>
      obtain ⟨-,-,total,more,upto⟩ := h.cursor payload pos left hp
      exact absurd upto (short pos (by omega))
  | inr code =>
    by_cases hc : code=.success
    · rw [hc]
    · obtain ⟨pos,less,upto⟩ := (h.failure code hp hc).2 he
      exact absurd upto (short pos less)

/-- No `write` takes more than `bytes_left`. -/
theorem write_within {x : Transfer} (hx : s.calls c=some x) {payload : Bytes}
    {pos left n : Nat} (hp : x.place=.inl (.write payload pos left))
    (hs : machine.step s (.step c (.wrote n))=some t) : 1≤n ∧ n≤left := by
  have ht : s.callStep c (.wrote n)=some t := by
    simp only [machine,step,Option.ite_none_right_eq_some] at hs
    exact hs.2
  obtain ⟨y,p,k,more,lines,hy,hq,hk,-⟩ := callStep_cases ht
  rw [hx] at hy
  cases hy
  rw [hp] at hq
  cases hq
  obtain ⟨-,some',fits⟩ := write_lands hk
  rw [List.length_take] at fits
  exact ⟨some',by omega⟩

end Senders

/-- The data callback is inside a call on the client. -/
def Worker.calling : Worker → Bool
  | .testDisconnect _ | .shutdown _ _ | .send _ _ => true
  | _ => false

theorem run_wf {s t : State} {as : List Action} (hw : s.kernel.Wf)
    (hr : machine.run s as=some t) : t.kernel.Wf := by
  refine machine.always (I := fun s => s.kernel.Wf) ?_ as s t hw hr
  intro s a t hw hs
  obtain ⟨-,⟨q,last,rfl,-,rfl⟩|⟨r,rfl,ht⟩|⟨r,rfl,ht⟩|⟨c,rest,rfl,-,rfl⟩|⟨e,k,rfl,hk,rfl⟩⟩ :=
    step_cases hs
  · exact hw
  · obtain ⟨-,k,i,app,lines,hk,-,rfl⟩ := appStep_cases ht
    exact answer_wf hw _ r hk
  · obtain ⟨k,i,worker,lines,hk,-,rfl⟩ := workerStep_cases ht
    exact answer_wf hw _ r hk
  · exact hw
  · exact env_wf hw e hk

namespace Senders

variable {ι : Type*} [DecidableEq ι]

/-- Any number of calls of `send_data` on a connected client, with no `connect_to` or
`disconnect` in between: the socket takes an interleaving of one prefix of each
payload, and every call knows how much of its own was taken. -/
theorem concurrent_senders (options : TcpOptions) (loggerCb dataCb pipeSignal : Bool)
    (foreign : List Fd) {as : List Client.Action} {s : State} {near : ConnId}
    {bs : List (Action ι)} {t : Senders ι}
    (hr : Client.machine.run (.boot options loggerCb dataCb pipeSignal foreign) as=some s)
    (hl : s.kernel.connection s.impl.clientFd=some near) (hw : s.worker.calling=false)
    (hb : ∀ b∈bs,b.relinks=false) (ht : machine.run (start s) bs=some t) :
    (∃ taken,(t.base.kernel.conns near).out=(s.kernel.conns near).out++taken ∧
      Merges t.accepted taken) ∧
    ∀ c x,t.calls c=some x →
      x.accepted<+:x.payload ∧ (∀ w∈x.writes,w.1=near) ∧
      (t.base.impl.isConnected=true → ∀ code,x.place=.inr code → x.entered=true) ∧
      (x.entered=false → x.writes=[] ∧ x.place≠.inr .success) ∧
      (x.entered=true → (x.place=.inr .success ↔ x.accepted=x.payload)) ∧
      (x.entered=true → ∀ code,x.place=.inr code → code≠.success →
        code=.readFailed ∧ x.accepted.length < x.payload.length) ∧
      ∀ payload pos left,x.place=.inl (.write payload pos left) →
        payload=x.payload ∧ pos+left=x.payload.length ∧ x.accepted=x.payload.take pos ∧
        ∀ n u,machine.step t (.step c (.wrote n))=some u → 1≤n ∧ n≤left := by
  have clear : s.Clear := by
    have wf := run_wf (boot_wf foreign) hr
    cases hv : s.worker with
    | testDisconnect | shutdown | send =>
      rw [hv] at hw
      cases hw
    | _ => exact ⟨wf,by rw [hv]; rfl,by rw [hv]; rfl,by rw [hv]; rfl⟩
  have begins : (start s : Senders ι).Delivers near (s.kernel.conns near).out :=
    ⟨clear,hl,⟨[],(List.append_nil _).symm,merges_nil⟩,by simp [start]⟩
  have delivers := machine.invariant step_delivers bs _ t begins
    (Machine.Meets.of_actions machine bs hb _) ht
  refine ⟨delivers.merged,fun c x hx => ?_⟩
  obtain ⟨accounted,home,enters⟩ := delivers.calls c x hx
  refine ⟨accepted_upto accounted,home,?_,?_,success_iff accounted,?_,?_⟩
  · intro up code hp
    by_contra outside
    have fresh := enters up (by simpa using outside)
    rw [hp] at fresh
    cases fresh
  · intro outside
    refine ⟨accounted.outside outside,fun hp => ?_⟩
    rw [(accounted.success hp).1] at outside
    cases outside
  · intro entered code hp hc
    obtain ⟨rfl,rest⟩ := accounted.failure code hp hc
    obtain ⟨pos,less,upto⟩ := rest entered
    refine ⟨rfl,?_⟩
    rw [upto,List.length_take]
    omega
  · intro payload pos left hp
    obtain ⟨own,-,total,-,upto⟩ := accounted.cursor payload pos left hp
    exact ⟨own,total,upto,fun n u hu => write_within hx hp hu⟩

/-- Two calls take turns at a socket that takes a byte or two at a time. -/
def duet : List (Action Bool) :=
  [.call false [65,66,67],.call true [88,89],.step false .ok,.step true .ok,
    .step false (.wrote 1),.step true (.fail .eagain),.step true (.wrote 1),
    .step false (.wrote 2),.step true (.wrote 1)]

theorem concurrent_senders_duet : ∃ s t,
    Client.machine.run (.boot {} false true true []) dialed=some s ∧
    machine.run (start s) duet=some t ∧ Merges t.accepted [65,88,66,67,89] ∧
    ∀ c x,t.calls c=some x → x.accepted<+:x.payload := by
  have run : ((Client.machine.run (.boot {} false true true []) dialed).bind fun s =>
      (machine.run (start s) duet).map fun t => (s.kernel.connection s.impl.clientFd,
        s.worker.calling,(s.kernel.conns 0).out,(t.base.kernel.conns 0).out))=
        some (some 0,false,[],[65,88,66,67,89]) := by
    decide +kernel
  obtain ⟨s,hs,run⟩ := Option.bind_eq_some_iff.mp run
  obtain ⟨t,ht,heq⟩ := Option.map_eq_some_iff.mp run
  simp only [Prod.mk.injEq] at heq
  obtain ⟨link,free,before,after⟩ := heq
  obtain ⟨⟨taken,out,merges⟩,calls⟩ := concurrent_senders {} false true true [] hs link free
    (by decide) ht
  rw [before,after,List.nil_append] at out
  exact ⟨s,t,hs,ht,out ▸ merges,fun c x hx => (calls c x hx).1⟩

end Senders

end TuyulNet.Client
