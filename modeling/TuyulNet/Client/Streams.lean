import TuyulNet.Client.Descriptors
import TuyulNet.Client.Lifecycle
import TuyulNet.Kernel.Custody

namespace TuyulNet.Client

open Framework Kernel

/-- The number of connections that `connect` has made; they are numbered from 0. -/
def connects : Trace → Nat
  | [] => 0
  | .call (.connect _ _) .ok::t => connects t+1
  | _::t => connects t

/-- The descriptor under which connection `c` is open. -/
def openAs (c : ConnId) : Trace → Option Fd
  | [] => none
  | .call (.connect fd _) .ok::t => if c=connects t then some fd else openAs c t
  | .call (.close n) _::t => if openAs c t=some n then none else openAs c t
  | _::t => openAs c t

/-- The payloads passed to the data callback while `client_fd` was the descriptor
of `c`, oldest first. -/
def payloads (c : ConnId) : Trace → List Bytes
  | [] => []
  | .call (.deliver fd bs) _::t =>
    if openAs c t=some fd then payloads c t++[bs] else payloads c t
  | _::t => payloads c t

/-- A read on `c` returned 0. -/
def sawEnd (c : ConnId) : Trace → Bool
  | [] => false
  | .call (.read fd _) (.data [])::t => decide (openAs c t=some fd) || sawEnd c t
  | _::t => sawEnd c t

/-- Every payload was delivered for exactly one connection. -/
def Attributed : Trace → Prop
  | [] => True
  | .call (.deliver fd _) _::t => (∃ c,openAs c t=some fd ∧ ∀ d,openAs d t=some fd → d=c) ∧
    Attributed t
  | _::t => Attributed t

/-- What the last read returned. -/
def lastRead : Trace → Option Reply
  | [] => none
  | .call (.read _ _) r::_ => some r
  | _::t => lastRead t

/-- Bytes that were read from the connection open as `o` and not yet delivered. -/
def Worker.inhand (fd : Fd) (o : Option Fd) : Worker → Bytes
  | .deliver bs _ => if o=some fd then bs else []
  | _ => []

/-- The trace numbers and names the connections as the kernel does. -/
structure Numbered (k : Kernel) (t : Trace) : Prop where
  unlistening : k.Unlistening
  born : k.born=connects t
  fds : ∀ c,(k.conns c).fd=openAs c t

section traces

variable {k k' : Kernel} {t : Trace} {c : Call} {r : Reply}

theorem openAs_idle (hc : c.attaches=false) (d : ConnId) :
    openAs d (.call c r::t)=openAs d t := by
  cases c with
  | accept | close | connect => cases hc
  | _ => rfl

theorem Numbered.answer (h : Numbered k t) (hw : k.Wf) (hl : ∀ fd,c≠.listen fd ∧ c≠.accept fd)
    (hk : k.answer c r=some k') : Numbered k' (.call c r::t) := by
  have unlistening := answer_unlistening h.unlistening (fun fd => (hl fd).1) hk
  by_cases ha : c.attaches=true
  · cases c with
    | accept fd => exact absurd rfl (hl fd).2
    | close n =>
      obtain ⟨rfl,-⟩ := answerClose_cases hk
      refine ⟨unlistening,?_,fun d => ?_⟩
      · have same : (k.close n).born=k.born := by
          unfold close
          split <;> rfl
        exact same.trans h.born
      · rw [close_fd hw,h.fds]
        rfl
    | connect fd res =>
      rcases connect_cases hk with ⟨rfl,f,-,rfl⟩|⟨e,rfl,rfl⟩
      · refine ⟨unlistening,congrArg (·+1) h.born,fun d => ?_⟩
        show _=if d=connects t then some fd else openAs d t
        rw [← h.fds d,← h.born]
        by_cases hd : d=k.born <;> simp [hd]
      · exact ⟨h.unlistening,h.born,h.fds⟩
    | _ => cases ha
  · have idle : c.attaches=false := by simpa using ha
    obtain ⟨fds,born,-⟩ := answer_fixed idle hk
    refine ⟨unlistening,?_,fun d => ?_⟩
    · rw [born,h.born]
      cases c with
      | connect => cases idle
      | _ => rfl
    · rw [fds,openAs_idle idle,h.fds]

theorem Numbered.env (h : Numbered k t) (hw : k.Wf) (e : Env) (hk : k.env e=some k') :
    Numbered k' t :=
  ⟨(env_unlistening h.unlistening e hk).1,(env_unlistening h.unlistening e hk).2.trans h.born,
    fun d => (env_pipe hw e hk d).2.2.trans (h.fds d)⟩

theorem Numbered.skip {lines : Trace} (h : Numbered k t) (hl : Logs lines) :
    Numbered k (lines++t) where
  unlistening := h.unlistening
  born := h.born.trans (hl.skip (fun _ _ _ => rfl) t).symm
  fds := fun d => (h.fds d).trans (hl.skip (fun _ _ _ => rfl) t).symm

/-- What calls that move no payload leave alone. -/
theorem still (hc : c.plain=true) (d : ConnId) :
    payloads d (.call c r::t)=payloads d t ∧ sawEnd d (.call c r::t)=sawEnd d t ∧
      (Attributed (.call c r::t) ↔ Attributed t) ∧ lastRead (.call c r::t)=lastRead t := by
  cases c with
  | read | deliver => cases hc
  | _ => exact ⟨rfl,rfl,Iff.rfl,rfl⟩

end traces

/-- The state of the books: connections are numbered, every byte read is accounted
for, and the worker takes its leave only after the end of the stream. -/
structure Faithful (options : TcpOptions) (s : State) : Prop where
  base : Sound s
  callback : s.impl.dataCb=true
  kept : s.impl.options=options
  numbered : Numbered s.kernel s.trace
  custody : Custody s.kernel options.bufferSize (payloads · s.trace)
    (fun c => s.worker.inhand s.impl.clientFd (openAs c s.trace)) (sawEnd · s.trace)
  chunk : ∀ bs rest,s.worker=.deliver bs rest → bs≠[]
  attributed : Attributed s.trace
  dropping : s.worker=.drop → ∃ r,lastRead s.trace=some r ∧ r.endsStream=true

section steps

variable {i j : Impl} {a b : App} {w v : Worker} {k k' : Kernel} {r : Reply} {lines : Trace}
  {s : State}

theorem app_plain (a : App) (i : Impl) :
    (a.call i).plain=true ∧ ∀ fd,a.call i≠.listen fd ∧ a.call i≠.accept fd := by
  cases a with
  | shutdown stage purpose => cases stage <;> simp [App.call,Shutdown.call,Call.plain]
  | send x => cases x <;> simp [App.call,Sending.call,Call.plain]
  | _ => simp [App.call,Call.plain]

theorem worker_plain (hw : w.shutting=false) (i : Impl) :
    ((∃ rest,w=.read rest) ∨ (∃ bs rest,w=.deliver bs rest) ∨ (w.call i).plain=true) ∧
      ∀ fd,w.call i≠.listen fd ∧ w.call i≠.accept fd := by
  cases w with
  | shutdown stage rest => cases hw
  | send x rest => cases x <;> simp [Worker.call,Sending.call,Call.plain]
  | _ => simp [Worker.call,Call.plain]

theorem next_options (hn : a.next i r=some (j,b,lines)) :
    j.options=i.options ∧ j.dataCb=i.dataCb := by
  have dial : dialNext i a r=some (j,b,lines) → j.options=i.options ∧ j.dataCb=i.dataCb := by
    intro h
    unfold dialNext at h
    split at h <;> (try split at h) <;> cases h <;> exact ⟨rfl,rfl⟩
  have hook : hookNext i a r=some (j,b,lines) → j.options=i.options ∧ j.dataCb=i.dataCb := by
    intro h
    unfold hookNext bail at h
    split at h <;> cases h <;> exact ⟨rfl,rfl⟩
  cases a with
  | idle | gone => cases hn
  | send x =>
    obtain ⟨⟨more,lines⟩,hs,heq⟩ := Option.map_eq_some_iff.mp hn
    cases heq
    exact ⟨rfl,rfl⟩
  | shutdown stage purpose =>
    obtain ⟨⟨j,more,lines⟩,hs,heq⟩ := Option.map_eq_some_iff.mp hn
    cases heq
    unfold Shutdown.next at hs
    split at hs <;> cases hs <;> exact ⟨rfl,rfl⟩
  | testDisconnect | destroyImpl =>
    cases r <;> cases hn
    exact ⟨rfl,rfl⟩
  | getFl | setFl | epollCreate | epollAdd | setConnected | spawn | assign => exact hook hn
  | _ => exact dial hn

/-- Only a read leads to a delivery, and nothing but `drop` touches the callbacks,
the options or the flag. -/
theorem worker_options (hw : w.shutting=false) (hn : w.next i r=some (j,v,lines)) :
    j.options=i.options ∧ j.dataCb=i.dataCb ∧
      ∀ bs rest,v=.deliver bs rest → w=.read rest ∧ r=.data bs ∧ bs≠[] := by
  have loop : loopNext i w r=some (j,v,lines) → j.options=i.options ∧ j.dataCb=i.dataCb ∧
      ∀ bs rest,v=.deliver bs rest → w=.read rest ∧ r=.data bs ∧ bs≠[] := by
    intro h
    unfold loopNext at h
    split at h <;> (try split at h) <;> cases h <;> (try split) <;> simp_all
  cases w with
  | shutdown stage rest => cases hw
  | send x rest =>
    obtain ⟨⟨more,lines⟩,hs,heq⟩ := Option.map_eq_some_iff.mp hn
    cases heq
    cases more <;> exact ⟨rfl,rfl,by simp⟩
  | testDisconnect rest =>
    cases r <;> cases hn
    exact ⟨rfl,rfl,by split <;> simp⟩
  | _ => exact loop hn

/-- The application thread does not interfere with a worker inside its loop. -/
theorem Control.unmoved {pending : Bool} (hc : Control i a.phase w pending) (hb : w.busy=true)
    (runs : a.waits w=false) (hn : a.next i r=some (j,b,lines)) :
    a.thread i r w=w ∧ (a.call i).quiet=true ∧ j.clientFd=i.clientFd := by
  constructor
  · unfold App.thread
    split
    · rcases hc.joined (by rintro rfl; cases hb) with hj|hp
      · rw [if_pos hj]
      · cases hp
    · have left : w=.finished := by simpa [App.waits] using runs
      rw [left] at hb
      cases hb
    · rfl
  · have parked (hp : a.phase.unset=true) (hj : a.phase≠.joining) : False := by
      have idle := (hc.alone hp hj).2
      rw [hb] at idle
      cases idle
    rcases next_keeps hn with hp|hp|⟨quiet,client,-⟩
    · exact (parked (by rw [hp]; rfl) (by simp [hp])).elim
    · exact (parked (by rw [hp]; rfl) (by simp [hp])).elim
    · exact ⟨quiet,client⟩

theorem thread_kept (hs : a.thread i r w≠.start) (hn : a.thread i r w≠.none) :
    a.thread i r w=w := by
  unfold App.thread at hs hn ⊢
  split
  · split
    · rfl
    · rename_i free
      simp [free] at hs
  · simp at hn
  · rfl

theorem app_inhand {pending : Bool} (hc : Control i a.phase w pending) (runs : a.waits w=false)
    (hn : a.next i r=some (j,b,lines)) (t : Trace) (c : ConnId) :
    (a.thread i r w).inhand j.clientFd (openAs c (.call (a.call i) r::t))=
      w.inhand i.clientFd (openAs c t) := by
  by_cases hd : ∃ bs rest,w=.deliver bs rest
  · obtain ⟨bs,rest,rfl⟩ := hd
    obtain ⟨same,quiet,client⟩ := hc.unmoved rfl runs hn
    rw [same,client,openAs_idle (steady_attaches (quiet_steady quiet))]
  · have empty {v : Worker} (hv : ∀ bs rest,v≠.deliver bs rest) (fd : Fd) (o : Option Fd) :
        v.inhand fd o=[] := by
      cases v with
      | deliver bs rest => exact absurd rfl (hv bs rest)
      | _ => rfl
    rw [empty,empty]
    · exact fun bs rest e => hd ⟨bs,rest,e⟩
    · intro bs rest e
      rw [thread_kept (by simp [e]) (by simp [e])] at e
      exact hd ⟨bs,rest,e⟩

theorem app_faithful {options : TcpOptions} {t : State} (h : Faithful options s) (ht : Sound t)
    (hs : s.appStep r=some t) : Faithful options t := by
  obtain ⟨runs,k,i,app,lines,hk,hn,rfl⟩ := appStep_cases hs
  have logs := app_lines hn
  obtain ⟨plain,elsewhere⟩ := app_plain s.app s.impl
  have before (d : ConnId) := still (t := s.trace) (r := r) plain d
  have pipes (d : ConnId) : (k.conns d).pipe=(s.kernel.conns d).pipe := by
    rcases answer_pipe h.base.wf hk d with same|⟨fd,count,bs,f,hc,-⟩
    · exact same
    · rw [hc] at plain
      cases plain
  obtain ⟨options,callback⟩ := next_options hn
  refine ⟨ht,callback.trans h.callback,options.trans h.kept,
    (h.numbered.answer h.base.wf elsewhere hk).skip logs,?_,?_,?_,?_⟩
  · refine (h.custody.idle pipes).congr ?_ ?_ ?_
    · exact fun d => (logs.skip (fun _ _ _ => rfl) _).trans (before d).1
    · intro d
      have skip := logs.skip (f := openAs d) (fun _ _ _ => rfl)
        (.call (s.app.call s.impl) r::s.trace)
      show (s.app.thread s.impl r s.worker).inhand i.clientFd (openAs d (lines++_))=_
      rw [skip]
      exact app_inhand h.base.control runs hn s.trace d
    · exact fun d => (logs.skip (fun _ _ _ => rfl) _).trans (before d).2.1
  · intro bs rest hw
    have hw : s.app.thread s.impl r s.worker=.deliver bs rest := hw
    rw [thread_kept (by simp [hw]) (by simp [hw])] at hw
    exact h.chunk bs rest hw
  · have skip := logs.skip (f := Attributed) (fun _ _ _ => rfl)
      (.call (s.app.call s.impl) r::s.trace)
    rw [skip]
    exact (before 0).2.2.1.mpr h.attributed
  · intro hw
    have hw : s.app.thread s.impl r s.worker=.drop := hw
    rw [thread_kept (by simp [hw]) (by simp [hw])] at hw
    have skip := logs.skip (f := lastRead) (fun _ _ _ => rfl)
      (.call (s.app.call s.impl) r::s.trace)
    rw [skip,(before 0).2.2.2]
    exact h.dropping hw

/-- A step of the worker that neither reads nor delivers. -/
theorem silent_faithful {options : TcpOptions} {t : State} (h : Faithful options s) (ht : Sound t)
    (plain : (s.worker.call s.impl).plain=true) (hs : s.workerStep r=some t) :
    Faithful options t := by
  obtain ⟨k,i,worker,lines,hk,hn,rfl⟩ := workerStep_cases hs
  have outside := h.base.control.outside
  have logs := worker_lines hn
  have before (d : ConnId) := still (t := s.trace) (r := r) plain d
  obtain ⟨quiet,client,-⟩ := worker_keeps outside hn
  have idle := steady_attaches (quiet_steady quiet)
  have pipes (d : ConnId) : (k.conns d).pipe=(s.kernel.conns d).pipe := by
    rcases answer_pipe h.base.wf hk d with same|⟨fd,count,bs,f,hc,-⟩
    · exact same
    · rw [hc] at plain
      cases plain
  obtain ⟨options,callback,delivers⟩ := worker_options outside hn
  have unread (rest : List PollEvent) : s.worker≠.read rest := by
    intro hw
    rw [hw] at plain
    cases plain
  have done (fd : Fd) (o : Option Fd) : s.worker.inhand fd o=[] := by
    cases hw : s.worker with
    | deliver bs rest =>
      rw [hw] at plain
      cases plain
    | _ => rfl
  have empty (fd : Fd) (o : Option Fd) : worker.inhand fd o=[] := by
    cases hv : worker with
    | deliver bs rest => exact absurd (delivers bs rest hv).1 (unread rest)
    | _ => rfl
  refine ⟨ht,callback.trans h.callback,options.trans h.kept,
    (h.numbered.answer h.base.wf (worker_plain outside s.impl).2 hk).skip logs,?_,?_,?_,?_⟩
  · refine (h.custody.idle pipes).congr ?_ ?_ ?_
    · exact fun d => (logs.skip (fun _ _ _ => rfl) _).trans (before d).1
    · exact fun d => (empty _ _).trans (done _ _).symm
    · exact fun d => (logs.skip (fun _ _ _ => rfl) _).trans (before d).2.1
  · exact fun bs rest hv => absurd (delivers bs rest hv).1 (unread rest)
  · have skip := logs.skip (f := Attributed) (fun _ _ _ => rfl)
      (.call (s.worker.call s.impl) r::s.trace)
    rw [skip]
    exact (before 0).2.2.1.mpr h.attributed
  · intro hv
    obtain ⟨-,-,-,-,-,drop,-⟩ := worker_moves outside hn
    obtain ⟨⟨rest,hw⟩,-⟩ := drop hv
    exact absurd hw (unread rest)

/-- The descriptor field of a busy worker belongs to one connection. -/
theorem Faithful.reading {options : TcpOptions} (h : Faithful options s) (hb : s.worker.busy=true) :
    ∃ c f,s.kernel.table s.impl.clientFd=some (.conn c f) ∧
      ∀ d,openAs d s.trace=some s.impl.clientFd ↔ d=c := by
  obtain ⟨c,f,hc⟩ := h.base.fields.linked (.inr (.inr hb))
  obtain ⟨own,alone⟩ := sole_connection h.base.wf hc
  refine ⟨c,f,hc,fun d => ⟨fun e => alone d ((h.numbered.fds d).trans e),?_⟩⟩
  rintro rfl
  exact (h.numbered.fds d).symm.trans own

/-- The data callback gets what was read, and for the connection it came from. -/
theorem deliver_faithful {options : TcpOptions} {t : State} (h : Faithful options s) (ht : Sound t)
    {bs : Bytes} {rest : List PollEvent} (hw : s.worker=.deliver bs rest)
    (hs : s.workerStep r=some t) : Faithful options t := by
  obtain ⟨c,f,-,own⟩ := h.reading (by rw [hw]; rfl)
  obtain ⟨k,i,worker,lines,hk,hn,rfl⟩ := workerStep_cases hs
  have numbered := h.numbered.answer h.base.wf (worker_plain h.base.control.outside s.impl).2 hk
  have custody := h.custody
  rw [hw] at hk hn ht numbered custody ⊢
  cases r <;> cases hn
  cases hk
  have hand : Custody s.kernel options.bufferSize (payloads · s.trace)
      (fun d => if d=c then bs else []) (sawEnd · s.trace) := by
    refine custody.congr (fun _ => rfl) (fun d => ?_) fun _ => rfl
    simp only [Worker.inhand,own]
  refine ⟨ht,h.callback,h.kept,numbered,?_,by simp,?_,by simp⟩
  · refine (hand.deliver (h.chunk bs rest hw)).congr (fun d => ?_) (fun _ => rfl) fun _ => rfl
    show (if openAs d s.trace=some s.impl.clientFd then _ else _)=_
    simp only [own]
  · exact ⟨⟨c,(own c).mpr rfl,fun d hd => (own d).mp hd⟩,h.attributed⟩

/-- A read takes the front of the stream, finds its end, or changes nothing. -/
theorem read_faithful {options : TcpOptions} (ho : 0 < options.bufferSize) {t : State}
    (h : Faithful options s) (ht : Sound t) {rest : List PollEvent} (hw : s.worker=.read rest)
    (hs : s.workerStep r=some t) : Faithful options t := by
  obtain ⟨c,f,hc,own⟩ := h.reading (by rw [hw]; rfl)
  obtain ⟨k,i,worker,lines,hk,hn,rfl⟩ := workerStep_cases hs
  have numbered := h.numbered.answer h.base.wf (worker_plain h.base.control.outside s.impl).2 hk
  have logs := worker_lines hn
  obtain ⟨options',callback,-⟩ := worker_options h.base.control.outside hn
  have custody := h.custody
  rw [hw] at hn numbered custody
  have empty : Custody s.kernel options.bufferSize (payloads · s.trace) (fun _ => [])
      (sawEnd · s.trace) := custody
  have hk : s.kernel.answerRead s.impl.clientFd options.bufferSize r=some k := by
    rw [hw] at hk
    rw [← h.kept]
    exact hk
  rw [hw] at ht ⊢
  have kept := options'.trans h.kept
  have callback := callback.trans h.callback
  rcases answerRead_cases hc hk with ⟨bs,rfl,hb,hl,p,hp,rfl⟩|⟨rfl,rfl,hend⟩|⟨e,rfl,rfl,-⟩
  · simp only [Worker.next,loopNext,if_neg hb,h.callback,if_true] at hn
    cases hn
    refine ⟨ht,callback,kept,numbered,?_,?_,h.attributed,by simp⟩
    · refine (empty.take hb hl hp).congr (fun _ => rfl) (fun d => ?_) fun d => ?_
      · show (if openAs d s.trace=some s.impl.clientFd then bs else [])=_
        simp only [own]
      · cases bs with
        | nil => exact absurd rfl hb
        | cons x bs => rfl
    · intro b l he
      cases he
      exact hb
  · simp only [Worker.next,loopNext,if_true] at hn
    cases hn
    obtain ⟨unread,finished⟩ := hend ho
    refine ⟨ht,callback,kept,numbered.skip logs,?_,by simp,?_,fun _ => ⟨.data [],?_,rfl⟩⟩
    · refine (empty.finish unread finished).congr (fun d => ?_) (fun _ => rfl) fun d => ?_
      · exact logs.skip (f := payloads d) (fun _ _ _ => rfl) _
      · have skip := logs.skip (f := sawEnd d) (fun _ _ _ => rfl)
          (.call (.read s.impl.clientFd s.impl.options.bufferSize) (.data [])::s.trace)
        refine skip.trans ?_
        show (decide (openAs d s.trace=some s.impl.clientFd) || sawEnd d s.trace)=_
        simp only [own]
    · exact (logs.skip (f := Attributed) (fun _ _ _ => rfl) _).mpr h.attributed
    · exact logs.skip (f := lastRead) (fun _ _ _ => rfl) _
  · have next : (∀ bs l,worker≠.deliver bs l) ∧ (worker=.drop → e.wouldBlock=false) := by
      simp only [Worker.next,loopNext] at hn
      split at hn <;> cases hn <;> simp_all
    have done (o : Option Fd) : worker.inhand i.clientFd o=[] := by
      cases hv : worker with
      | deliver bs l => exact absurd hv (next.1 bs l)
      | _ => rfl
    refine ⟨ht,callback,kept,numbered.skip logs,?_,fun bs l e => absurd e (next.1 bs l),?_,?_⟩
    · refine empty.congr (fun d => ?_) (fun _ => done _) fun d => ?_
      · exact logs.skip (f := payloads d) (fun _ _ _ => rfl) _
      · exact logs.skip (f := sawEnd d) (fun _ _ _ => rfl) _
    · exact (logs.skip (f := Attributed) (fun _ _ _ => rfl) _).mpr h.attributed
    · intro hv
      refine ⟨.fail e,logs.skip (f := lastRead) (fun _ _ _ => rfl) _,?_⟩
      simp [Reply.endsStream,next.2 hv]

theorem step_faithful {options : TcpOptions} (ho : 0 < options.bufferSize) (s : State) (a : Action)
    (t : State) (h : Faithful options s) (ha : a.civil=true) (hs : machine.step s a=some t) :
    Faithful options t := by
  have ht := step_sound s a t h.base ha hs
  obtain ⟨-,⟨q,last,rfl,hp,rfl⟩|⟨r,rfl,hr⟩|⟨r,rfl,hr⟩|⟨c,rest,rfl,hw,rfl⟩|⟨e,k,rfl,hk,rfl⟩⟩ :=
    step_cases hs
  · exact ⟨ht,h.callback,h.kept,h.numbered,h.custody,h.chunk,h.attributed,h.dropping⟩
  · exact app_faithful h ht hr
  · rcases (worker_plain h.base.control.outside s.impl).1 with ⟨rest,hw⟩|⟨bs,rest,hw⟩|plain
    · exact read_faithful ho h ht hw hr
    · exact deliver_faithful h ht hw hr
    · exact silent_faithful h ht plain hr
  · have custody := h.custody
    rw [hw] at custody
    refine ⟨ht,h.callback,h.kept,h.numbered,?_,?_,h.attributed,?_⟩
    · cases c <;> exact custody
    · cases c <;> simp [Callback.entry]
    · cases c <;> simp [Callback.entry]
  · exact ⟨ht,h.callback,h.kept,h.numbered.env h.base.wf e hk,h.custody.env h.base.wf e hk,h.chunk,
      h.attributed,h.dropping⟩

end steps

section runs

variable (options : TcpOptions) (loggerCb pipeSignal : Bool) (foreign : List Fd)

theorem boot_faithful : Faithful options (.boot options loggerCb true pipeSignal foreign) where
  base := boot_sound options loggerCb true pipeSignal foreign
  callback := rfl
  kept := rfl
  numbered := ⟨boot_unlistening foreign,rfl,fun _ => rfl⟩
  custody := by
    constructor <;> simp [State.boot,payloads,sawEnd,Worker.inhand,Kernel.boot,Conn.new,Pipe.empty]
  chunk := by simp [State.boot]
  attributed := trivial
  dropping := by simp [State.boot]

/-- What the data callback gets of a connection is at every moment the beginning of
what the server sent, in non-empty pieces that fit the buffer, and all of it once a
read has returned 0; the worker clears the flag only after such a read or a failed one. -/
theorem client_stream_fidelity (hb : 1 ≤ options.networkBufferSize) (as : List Action) (s : State)
    (hn : ∀ a∈as,a.civil=true)
    (hr : machine.run (.boot options loggerCb true pipeSignal foreign) as=some s) :
    (∀ c,(payloads c s.trace).flatten<+:(s.kernel.conns c).pipe.sent) ∧
    (∀ c,∀ bs∈payloads c s.trace,bs≠[] ∧ (bs.length : Int)≤options.networkBufferSize) ∧
    (∀ c,sawEnd c s.trace=true → (s.kernel.conns c).pipe.closed=true ∧
      (payloads c s.trace).flatten=(s.kernel.conns c).pipe.sent) ∧
    Attributed s.trace ∧
    ∀ r t,machine.step s (.worker r)=some t → s.impl.isConnected=true →
      t.impl.isConnected=false → ∃ q,lastRead s.trace=some q ∧ q.endsStream=true := by
  have ho : 0 < options.bufferSize := by
    unfold TcpOptions.bufferSize
    omega
  have h : Faithful options s := machine.invariant (step_faithful ho) as _ s
    (boot_faithful options loggerCb pipeSignal foreign)
    (Machine.Meets.of_actions machine as hn _) hr
  refine ⟨h.custody.prefix_sent,?_,fun c hc => h.custody.whole hc,h.attributed,?_⟩
  · intro c bs hm
    obtain ⟨hne,hl⟩ := h.custody.pieces c bs hm
    unfold TcpOptions.bufferSize at hl
    exact ⟨hne,by omega⟩
  · intro r t hs up down
    obtain ⟨k,i,worker,lines,-,next,rfl⟩ := workerStep_cases (workerStep_of_step hs)
    obtain ⟨-,-,-,-,flag,-⟩ := worker_moves h.base.control.outside next
    rcases flag with flag|⟨drop,-⟩
    · rw [flag,up] at down
      cases down
    · exact h.dropping drop

/-- Two bytes arrive, and the end of the stream while they are being read. -/
def greeting : List Action :=
  dialed++[.worker .ok,.worker .ok,.env (.send 0 [65,66]),.env (.arrive 0 2),.worker .ok,
    .worker (.events [⟨3,⟨true,false,false⟩⟩]),.worker .ok,.worker (.data [65]),.worker .ok,
    .env (.shut 0),.env (.finish 0),.callback .finish,.worker (.data [66]),.worker .ok,
    .callback .finish,.worker (.data [])]

theorem client_stream_fidelity_greeting : ∃ s,
    machine.run (.boot {} false true true []) greeting=some s ∧ payloads 0 s.trace=[[65],[66]] ∧
    (payloads 0 s.trace).flatten=(s.kernel.conns 0).pipe.sent := by
  have run : (machine.run (.boot {} false true true []) greeting).map
      (fun s => (payloads 0 s.trace,sawEnd 0 s.trace))=some ([[65],[66]],true) := by
    decide +kernel
  obtain ⟨s,hs,heq⟩ := Option.map_eq_some_iff.mp run
  obtain ⟨pieces,ended⟩ := Prod.mk.injEq .. ▸ heq
  obtain ⟨-,-,whole,-⟩ :=
    client_stream_fidelity {} false true [] (by decide) greeting s (by decide) hs
  exact ⟨s,hs,pieces,(whole 0 ended).2⟩

end runs

end TuyulNet.Client
