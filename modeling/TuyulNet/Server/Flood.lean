import TuyulNet.Kernel.Supply
import TuyulNet.Server.Restart
import TuyulNet.Server.StopRequest

namespace TuyulNet

/-- Calls that take something from a peer. -/
def Call.polls : Call → Bool
  | .read _ _ | .accept _ => true
  | _ => false

def Call.delivers : Call → Bool
  | .deliver _ _ => true
  | _ => false

namespace Server

open Framework Kernel

/-- In every run, after a `stop()` that found the flag up, at most `bound` calls of
`read` and `accept` and as many data callbacks follow. -/
def Bounded (options : TcpOptions) (bound : Nat) : Prop :=
  ∀ port loggerCb dataCb foreign as s nested later t,
    machine.run (.boot port options loggerCb dataCb foreign) as=some s →
    s.impl.isRunning=true → machine.run (s.stop nested) later=some t →
    issued Call.polls t.trace ≤ issued Call.polls (s.stop nested).trace+bound ∧
      issued Call.delivers t.trace ≤ issued Call.delivers (s.stop nested).trace+bound

/-- Calls of `read` and `accept` to come in this batch, or in one that `epoll_wait` is
about to return, if each descriptor is polled once. -/
def Pc.polling (most : Nat) : Pc → Nat
  | .batch fds => fds.length
  | .accept rest | .getFl _ (.client rest) | .setFl _ _ (.client rest) | .addClient _ rest
  | .reject _ rest | .read _ rest | .deliver _ _ rest => rest.length+1
  | .delClient _ rest | .closeClient _ rest => rest.length
  | .epollWait | .waiting _ => most
  | _ => 0

def Pc.delivering : Pc → Bool
  | .deliver _ _ _ => true
  | _ => false

section steps

variable {i j : Impl} {pc q : Pc} {k l : Kernel} {r : Reply} {lines : Trace}

/-- `accept` on a closed listener fails. -/
theorem accept_unset (hw : k.Wf) {n : Fd} {c : ConnId} :
    k.answer (.accept (-1)) (.conn n c)≠some l := by
  intro hk
  have hk : k.answerAccept (-1) (.conn n c)=some l := hk
  rcases answerAccept_cases hk with ⟨m,d,f,-,hl,-⟩|⟨e,he,-⟩
  · rw [hw.minus_one] at hl
    cases hl
  · cases he

/-- A call of `read` or `accept` uses up one of those to come, unless it has brought a
connection or data; new ones come with `epoll_wait` only. -/
theorem next_polling (hk : k.answer (pc.call i) r=some l) (hn : pc.next i r=some (j,q,lines)) :
    (pc.call i).polls.toNat+q.polling i.options.maxEpollEvents.toNat≤
      pc.polling i.options.maxEpollEvents.toNat ∨
    pc=.loopHead ∧ i.isRunning=true ∧ q=.epollWait ∨
    q.polling i.options.maxEpollEvents.toNat=pc.polling i.options.maxEpollEvents.toNat ∧
      ((∃ rest n c,pc=.accept rest ∧ r=.conn n c) ∨
        ∃ fd rest bs,pc=.read fd rest ∧ r=.data bs ∧ bs≠[]) := by
  have calm (hc : (pc.call i).polls=false) (hq : q.polling i.options.maxEpollEvents.toNat≤
      pc.polling i.options.maxEpollEvents.toNat) :
      (pc.call i).polls.toNat+q.polling i.options.maxEpollEvents.toNat≤
        pc.polling i.options.maxEpollEvents.toNat := by
    simpa [hc] using hq
  rcases next_cases hn with hn|hn|hn|hn|hn|hn
  · left
    unfold setupNext bail at hn
    split at hn <;> cases hn <;> apply calm rfl <;> (try split) <;> simp [Pc.polling]
  · left
    cases pc with
    | getFl fd caller | setFl fd flags caller =>
      cases caller <;> cases r <;> cases hn <;> exact calm rfl (by simp [Pc.polling])
    | _ => cases hn
  · cases pc with
    | loopHead =>
      cases r <;> cases hn
      cases hr : i.isRunning
      · exact .inl (Nat.zero_le _)
      · exact .inr (.inl ⟨rfl,rfl,rfl⟩)
    | epollWait =>
      left
      cases r with
      | ok =>
        cases hn
        exact calm rfl le_rfl
      | fail e =>
        simp only [loopNext] at hn
        split at hn <;> cases hn <;> exact calm rfl (Nat.zero_le _)
      | _ => cases hn
    | waiting ep =>
      left
      cases r with
      | events es =>
        cases hn
        apply calm rfl
        split
        · exact Nat.zero_le _
        · simpa [Pc.polling] using harvest_length hk
      | fail e =>
        simp only [loopNext] at hn
        split at hn <;> cases hn <;> exact calm rfl (Nat.zero_le _)
      | _ => cases hn
    | batch fds =>
      left
      cases fds with
      | nil =>
        cases r <;> cases hn
        exact calm rfl le_rfl
      | cons fd rest =>
        cases r <;> cases hn
        apply calm rfl
        split <;> exact le_rfl
    | _ => cases hn
  · cases pc with
    | accept rest =>
      cases r with
      | conn n c =>
        cases hn
        exact .inr (.inr ⟨rfl,.inl ⟨rest,n,c,rfl,rfl⟩⟩)
      | fail e =>
        cases hn
        exact .inl (Nat.add_comm _ _).le
      | _ => cases hn
    | addClient fd rest | reject fd rest =>
      cases r <;> cases hn <;> exact .inl (calm rfl le_rfl)
    | _ => cases hn
  · cases pc with
    | read fd rest =>
      cases r with
      | data bs =>
        simp only [drainNext] at hn
        split at hn
        · cases hn
          exact .inl (Nat.add_comm _ _).le
        · rename_i hb
          cases hn
          refine .inr (.inr ⟨?_,.inr ⟨fd,rest,bs,rfl,rfl,hb⟩⟩)
          split <;> rfl
      | fail e =>
        simp only [drainNext] at hn
        split at hn <;> cases hn <;> exact .inl (Nat.add_comm _ _).le
      | _ => cases hn
    | deliver fd bs rest | delClient fd rest | closeClient fd rest =>
      cases r <;> cases hn <;> exact .inl (calm rfl le_rfl)
    | _ => cases hn
  · left
    unfold cleanupNext at hn
    split at hn <;> cases hn <;> exact Nat.zero_le _

/-- Only data leads to the data callback. -/
theorem next_delivering (hn : pc.next i r=some (j,q,lines)) (hq : q.delivering=true) :
    pc.delivering=false ∧ ∃ fd rest bs,pc=.read fd rest ∧ r=.data bs ∧ bs≠[] := by
  rcases next_cases hn with hn|hn|hn|hn|hn|hn
  · unfold setupNext bail at hn
    split at hn <;> cases hn <;> (try split at hq) <;> cases hq
  · unfold flagsNext blockingFailed bail at hn
    split at hn <;> (try split at hn) <;> cases hn <;> cases hq
  · unfold loopNext at hn
    split at hn <;> (try split at hn) <;> cases hn <;> cases hq
  · unfold acceptNext at hn
    split at hn <;> cases hn <;> cases hq
  · unfold drainNext at hn
    split at hn <;> (try split at hn) <;> cases hn <;> (try cases hq)
    rename_i hb
    exact ⟨rfl,_,_,_,rfl,rfl,hb⟩
  · unfold cleanupNext at hn
    split at hn <;> cases hn <;> cases hq

theorem next_server (hp : pc.setup=false) (hn : pc.next i r=some (j,q,lines)) :
    j.serverFd=i.serverFd ∨ j.serverFd=-1 := by
  rcases next_cases hn with hn|hn|hn|hn|hn|hn
  · cases pc with
    | allocate =>
      cases r <;> cases hn
      exact .inl rfl
    | socket | setsockopt | bind | listen | epollCreate | epollAdd | setRunning => cases hp
    | _ => cases hn
  · unfold flagsNext blockingFailed bail at hn
    split at hn <;> (try split at hn) <;> cases hn <;> exact .inl rfl
  · unfold loopNext at hn
    split at hn <;> (try split at hn) <;> cases hn <;> exact .inl rfl
  · unfold acceptNext at hn
    split at hn <;> cases hn <;> exact .inl rfl
  · unfold drainNext at hn
    split at hn <;> (try split at hn) <;> cases hn <;> exact .inl rfl
  · unfold cleanupNext at hn
    split at hn <;> cases hn <;> first
      | exact .inl rfl
      | exact .inr rfl

theorem call_delivers (i : Impl) (pc : Pc) : (pc.call i).delivers=pc.delivering := by
  cases pc with
  | cleanup stage code => cases stage <;> rfl
  | _ => rfl

/-- `start` on its way out after a `stop()`, with what it may still call. -/
structure Winding (options : TcpOptions) (polls callbacks : Nat) (s : State) : Prop where
  kept : s.impl.options=options
  wf : s.kernel.Wf
  down : s.impl.isRunning=false
  past : s.pc.setup=false
  unset : s.impl.serverFd=-1
  sized : s.pc.polling options.maxEpollEvents.toNat≤options.maxEpollEvents.toNat
  polls : issued Call.polls s.trace+s.pc.polling options.maxEpollEvents.toNat≤polls
  callbacks : issued Call.delivers s.trace+s.pc.delivering.toNat≤callbacks

variable {options : TcpOptions} {polls callbacks : Nat}

theorem step_winding (ho : options.bufferSize=0 ∨ options.maxEpollEvents.toNat=0) (s : State)
    (a : Action) (t : State) (h : Winding options polls callbacks s)
    (hs : machine.step s a=some t) : Winding options polls callbacks t := by
  cases a with
  | env e =>
    obtain ⟨k,hk,rfl⟩ := Option.map_eq_some_iff.mp hs
    exact ⟨h.kept,env_wf h.wf e hk,h.down,h.past,h.unset,h.sized,h.polls,h.callbacks⟩
  | stop nested =>
    cases hs
    rw [stop_idle h.down]
    exact ⟨h.kept,h.wf,h.down,h.past,h.unset,h.sized,by simpa using h.polls,
      by simpa using h.callbacks⟩
  | reactor r =>
    obtain ⟨k,i,q,lines,hk,hn,rfl⟩ := reactor_cases hs
    have dry {fd : Fd} {rest : List Fd} {bs : Bytes} (hp : s.pc=.read fd rest)
        (hr : r=.data bs) : bs=[] := by
      rw [hp,hr] at hk
      rcases ho with empty|none
      · have hk : s.kernel.answer (.read fd s.impl.options.bufferSize) (.data bs)=some k := hk
        rw [h.kept,empty] at hk
        exact read_nothing hk
      · have sized := h.sized
        rw [hp,none] at sized
        exact absurd sized (Nat.not_succ_le_zero _)
    have fewer : (s.pc.call s.impl).polls.toNat+q.polling options.maxEpollEvents.toNat≤
        s.pc.polling options.maxEpollEvents.toNat := by
      rcases h.kept ▸ next_polling hk hn with fewer|⟨-,up,-⟩|⟨-,⟨rest,n,c,hp,rfl⟩|
        ⟨fd,rest,bs,hp,hr,hb⟩⟩
      · exact fewer
      · rw [h.down] at up
        cases up
      · rw [hp] at hk
        have hk : s.kernel.answer (.accept s.impl.serverFd) (.conn n c)=some k := hk
        rw [h.unset] at hk
        exact absurd hk (accept_unset h.wf)
      · exact absurd (dry hp hr) hb
    have quiet : q.delivering=false := by
      by_contra hq
      obtain ⟨-,fd,rest,bs,hp,hr,hb⟩ := next_delivering hn (by simpa using hq)
      exact hb (dry hp hr)
    obtain ⟨same,down⟩ := next_flag hn
    have logs := next_lines hn
    refine ⟨same.trans h.kept,answer_wf h.wf _ r hk,(down h.past).2 h.down,(down h.past).1,?_,
      ?_,?_,?_⟩
    · rcases next_server h.past hn with hi|hi
      · exact hi.trans h.unset
      · exact hi
    · exact (Nat.le_add_left _ _).trans (fewer.trans h.sized)
    · rw [logs.skip (issued_log Call.polls),issued_call]
      have before := h.polls
      show _+_+q.polling _≤_
      omega
    · rw [logs.skip (issued_log Call.delivers),issued_call,call_delivers]
      show _+_+q.delivering.toNat≤_
      rw [quiet]
      exact h.callbacks

/-- What is known of the reactor's batches in every run. -/
structure Sized (options : TcpOptions) (s : State) : Prop where
  entered : Entered options s
  wf : s.kernel.Wf
  marked : s.impl.Marked
  sized : s.pc.polling options.maxEpollEvents.toNat≤options.maxEpollEvents.toNat

theorem step_sized (s : State) (a : Action) (t : State) (h : Sized options s)
    (hs : machine.step s a=some t) : Sized options t := by
  have entered := step_entered options s a t h.entered hs
  cases a with
  | env e =>
    obtain ⟨k,hk,rfl⟩ := Option.map_eq_some_iff.mp hs
    exact ⟨entered,env_wf h.wf e hk,h.marked,h.sized⟩
  | stop nested =>
    cases hs
    refine ⟨entered,?_,stop_marked h.marked nested,h.sized⟩
    show (((s.impl.stop nested).2).foldl Effect.apply _).1.Wf
    rw [effects_kernel]
    exact closes_wf h.wf _
  | reactor r =>
    obtain ⟨k,i,q,lines,hk,hn,rfl⟩ := reactor_cases hs
    refine ⟨entered,answer_wf h.wf _ r hk,next_marked h.marked hk hn,?_⟩
    have sized := h.sized
    rcases h.entered.kept ▸ next_polling hk hn with fewer|⟨-,-,rfl⟩|⟨same,-⟩
    · exact (Nat.le_add_left _ _).trans (fewer.trans sized)
    · exact le_rfl
    · exact same.le.trans sized

theorem boot_sized (port : Int) (options : TcpOptions) (loggerCb dataCb : Bool)
    (foreign : List Fd) : Sized options (.boot port options loggerCb dataCb foreign) :=
  ⟨boot_entered port options loggerCb dataCb foreign,boot_wf foreign,⟨.inl rfl,.inl rfl⟩,
    Nat.zero_le _⟩

/-- Without room for events or for data the work after `stop()` is bounded. -/
theorem bounded_exit (ho : options.bufferSize=0 ∨ options.maxEpollEvents.toNat=0) :
    Bounded options (options.maxEpollEvents.toNat+1) := by
  intro port loggerCb dataCb foreign as s nested later t hr up ht
  have h : Sized options s :=
    machine.always step_sized as _ s (boot_sized port options loggerCb dataCb foreign) hr
  have past : s.pc.setup=false := by
    by_contra hp
    have setup : s.pc.setup=true := by simpa using hp
    rw [(h.entered.fresh setup).1.shape.idle setup] at up
    cases up
  have stopped := step_sized s (.stop nested) _ h rfl
  have unset : (s.stop nested).impl.serverFd=-1 := by
    show (s.impl.stop nested).1.serverFd=-1
    unfold Impl.stop
    rw [if_pos up,cleanup_impl]
    rcases h.marked.1 with hm|hm
    · simp [hm]
    · simp [hm]
  have winding : Winding options
      (issued Call.polls (s.stop nested).trace+options.maxEpollEvents.toNat)
      (issued Call.delivers (s.stop nested).trace+1) (s.stop nested) :=
    ⟨stopped.entered.kept,stopped.wf,(stop_flag s.impl nested).1,past,unset,stopped.sized,
      Nat.add_le_add_left stopped.sized _,Nat.add_le_add_left (Bool.toNat_le _) _⟩
  have done := machine.always (step_winding ho) later _ t winding ht
  have polls := done.polls
  have callbacks := done.callbacks
  constructor <;> omega

end steps

section flood

/-- `start` is reading from connection `c`, has taken everything that there is so far, and
the peer can go on. -/
structure Flooded (fd : Fd) (c : ConnId) (s : State) : Prop where
  reading : ∃ rest,s.pc=.read fd rest
  room : 0 < s.impl.options.bufferSize
  callback : s.impl.dataCb=true
  file : ∃ f,s.kernel.table fd=some (.conn c f)
  dry : s.kernel.Dry c

variable {fd : Fd} {c : ConnId} {s : State}

/-- One more byte comes in, is read and delivered. -/
theorem flood_once (h : Flooded fd c s) : ∃ later t,machine.run s later=some t ∧
    (∀ a∈later,a.isStop=false) ∧ Flooded fd c t ∧
    issued Call.polls t.trace=issued Call.polls s.trace+1 := by
  obtain ⟨i,pc,k,trace⟩ := s
  obtain ⟨⟨rest,hp⟩,room,callback,⟨f,file⟩,dry⟩ := h
  simp only at hp room callback file dry
  subst hp
  obtain ⟨l,m,n,sent,arrived,taken,dry,table⟩ := dry.round 0 file room
  let t : State := ⟨i,.read fd rest,n,.call (.deliver fd [0]) .ok::
    .call (.read fd i.options.bufferSize) (.data [0])::trace⟩
  have taken' : Pc.next i (.read fd rest) (.data [0])=some (i,.deliver fd [0] rest,[]) := by
    show some (i,if i.dataCb then Pc.deliver fd [0] rest else .read fd rest,[])=_
    rw [if_pos callback]
  have delivered : Pc.next i (.deliver fd [0] rest) .ok=some (i,.read fd rest,[]) := rfl
  have read : machine.step ⟨i,.read fd rest,m,trace⟩ (.reactor (.data [0]))=
      some ⟨i,.deliver fd [0] rest,n,.call (.read fd i.options.bufferSize) (.data [0])::trace⟩ :=
    reactor_of (s := ⟨i,.read fd rest,m,trace⟩) taken taken'
  have deliver : machine.step ⟨i,.deliver fd [0] rest,n,
      .call (.read fd i.options.bufferSize) (.data [0])::trace⟩ (.reactor .ok)=some t :=
    reactor_of (s := ⟨i,.deliver fd [0] rest,n,_⟩) rfl delivered
  refine ⟨[.env (.send c [0]),.env (.arrive c 1),.reactor (.data [0]),.reactor .ok],t,?_,
    by simp [Action.isStop],⟨⟨rest,rfl⟩,room,callback,⟨f,table ▸ file⟩,dry⟩,?_⟩
  · refine (machine.run_cons _ _ _ _).mpr ⟨⟨i,.read fd rest,l,trace⟩,by simp [step,sent],?_⟩
    refine (machine.run_cons _ _ _ _).mpr ⟨⟨i,.read fd rest,m,trace⟩,by simp [step,arrived],?_⟩
    exact (machine.run_cons _ _ _ _).mpr ⟨_,read,(machine.run_single _ _ _).mpr deliver⟩
  · simp [t,Call.polls]

/-- As long as the peer goes on, so does the drain loop. -/
theorem flood_more (h : Flooded fd c s) (n : Nat) : ∃ later t,machine.run s later=some t ∧
    (∀ a∈later,a.isStop=false) ∧ Flooded fd c t ∧
    issued Call.polls t.trace=issued Call.polls s.trace+n :=
  machine.rounds (fun s => issued Call.polls s.trace) (fun _ => flood_once) n s h

/-- `stop()` closes the listener and the epoll instance, and the connection goes on. -/
theorem stop_flooded (h : Flooded fd c s) (hs : fd≠s.impl.serverFd) (he : fd≠s.impl.epollFd)
    (nested : Nat) : Flooded fd c (s.stop nested) := by
  obtain ⟨⟨rest,hp⟩,room,callback,⟨f,file⟩,dry⟩ := h
  by_cases up : s.impl.isRunning=true
  · have out : s.impl.stop nested=s.impl.cleanup nested := by simp [Impl.stop,up]
    have kernel : (s.stop nested).kernel=
        (closing (s.impl.cleanup nested).2).foldl Kernel.close s.kernel := by
      rw [← out]
      exact effects_kernel _
    have impl : (s.stop nested).impl=(s.impl.cleanup nested).1 := by
      rw [← out]
      rfl
    have alone : fd∉closing (s.impl.cleanup nested).2 := by
      rw [cleanup_closing]
      rintro (⟨-,e⟩|⟨-,e⟩)
      · exact he e
      · exact hs e
    refine ⟨⟨rest,hp⟩,?_,?_,⟨f,?_⟩,?_⟩
    · rw [impl,cleanup_impl]
      exact room
    · rw [impl,cleanup_impl]
      exact callback
    · rw [kernel,closes_table,if_neg alone]
      exact file
    · rw [kernel]
      exact dry.closes _
  · rw [stop_idle (by simpa using up)]
    exact ⟨⟨rest,hp⟩,room,callback,⟨f,file⟩,dry⟩

end flood

section widening

variable {i : Impl} {pc : Pc} {r : Reply} {k l : Kernel} {o : TcpOptions}

theorem next_widened (i : Impl) (pc : Pc) (r : Reply) (ho : i.options.allocates=o.allocates) :
    pc.next { i with options := o } r=
      (pc.next i r).map fun (j,q,lines) => ({ j with options := o },q,lines) := by
  cases pc with
  | cleanup stage code => cases stage <;> cases r <;> rfl
  | getFl fd caller | setFl fd flags caller => cases caller <;> cases r <;> rfl
  | batch fds => cases fds <;> cases r <;> rfl
  | allocate => cases r <;> simp [Pc.next,setupNext,ho]
  | epollWait | waiting =>
    cases r with
    | fail e =>
      simp only [Pc.next,loopNext]
      split <;> rfl
    | _ => rfl
  | read =>
    cases r with
    | data bs | fail e =>
      simp only [Pc.next,drainNext]
      split <;> rfl
    | _ => rfl
  | _ => cases r <;> rfl

theorem answer_widened (h : i.options.Within o) (hk : k.answer (pc.call i) r=some l) :
    k.answer (pc.call { i with options := o }) r=some l := by
  cases pc with
  | cleanup stage code => cases stage <;> exact hk
  | epollWait => exact epollWait_more h.events hk
  | waiting ep => exact epollReturn_more h.events hk
  | read fd rest => exact read_more h.bytes hk
  | _ => exact hk

def State.widen (s : State) (o : TcpOptions) (trace : Trace) : State :=
  { s with impl := { s.impl with options := o },trace }

variable {small : TcpOptions}

/-- A step of `start` that is possible with small limits is possible with larger ones. -/
theorem step_widened (h : small.Within o) {s t : State} {a : Action} (hn : a.isStop=false)
    (ho : s.impl.options=small) (hs : machine.step s a=some t) (trace : Trace) :
    t.impl.options=small ∧ ∃ trace',machine.step (s.widen o trace) a=some (t.widen o trace') := by
  cases a with
  | reactor r =>
    obtain ⟨k,i,q,lines,hk,hq,rfl⟩ := reactor_cases hs
    have wide : s.pc.next { s.impl with options := o } r=
        some ({ i with options := o },q,lines) := by
      rw [next_widened _ _ _ (ho ▸ h.allocates),hq]
      rfl
    have answered : s.kernel.answer (s.pc.call { s.impl with options := o }) r=some k :=
      answer_widened (ho ▸ h) hk
    have step := reactor_of (s := s.widen o trace) answered wide
    exact ⟨(next_flag hq).1.trans ho,_,step⟩
  | env e =>
    obtain ⟨k,hk,rfl⟩ := Option.map_eq_some_iff.mp hs
    exact ⟨ho,trace,by simp [Server.step,State.widen,hk]⟩
  | stop nested => cases hn

theorem run_widened (h : small.Within o) (as : List Action) (hn : ∀ a∈as,a.isStop=false)
    (s t : State) (ho : s.impl.options=small) (ht : machine.run s as=some t) (trace : Trace) :
    ∃ trace',machine.run (s.widen o trace) as=some (t.widen o trace') := by
  have step (u u' : State) (a : Action) (v : State)
      (hw : u.impl.options=small ∧ ∃ trace,u'=u.widen o trace) (plain : a.isStop=false)
      (hu : machine.step u a=some v) : ∃ v',machine.step u' a=some v' ∧
        v.impl.options=small ∧ ∃ trace,v'=v.widen o trace := by
    obtain ⟨ho,trace,rfl⟩ := hw
    obtain ⟨ho,trace',first⟩ := step_widened h plain ho hu trace
    exact ⟨_,first,ho,trace',rfl⟩
  obtain ⟨_,wide,-,trace',rfl⟩ :=
    machine.simulates machine step as hn s _ t ⟨ho,trace,rfl⟩ ht
  exact ⟨trace',wide⟩

end widening

/-- That client sends a byte, and `start` is about to look for more. -/
def oneByte : List Action :=
  oneClient++[.env (.send 0 [65]),.env (.arrive 0 1),.reactor .ok,
    .reactor (.events [⟨5,⟨true,false,false⟩⟩]),.reactor .ok,.reactor (.data [65]),.reactor .ok]

/-- Where one event and one byte can be taken, a client keeps `start` for as long as it likes. -/
theorem not_bounded {o : TcpOptions} (hm : 1 ≤ o.maxEpollEvents) (hb : 1 ≤ o.networkBufferSize)
    (bound : Nat) : ¬Bounded o bound := by
  intro h
  have run : (machine.run (.boot 8080 ⟨1,1,5000⟩ false true []) oneByte).map (fun s =>
      (s.pc,s.impl,s.kernel.table 5,decide (s.kernel.Dry 0)))=
      some (.read 5 [],⟨8080,⟨1,1,5000⟩,3,4,true,false,true⟩,some (.conn 0 (2 ||| oNonblock)),
        true) := by
    decide +kernel
  obtain ⟨s,hs,seen⟩ := Option.map_eq_some_iff.mp run
  simp only [Prod.mk.injEq] at seen
  obtain ⟨pc,impl,file,dry⟩ := seen
  have within : TcpOptions.Within ⟨1,1,5000⟩ o := by
    refine ⟨?_,hm,.inr ⟨by decide,show 1 ≤ o.networkBufferSize.toNat by omega⟩⟩
    simp [TcpOptions.allocates]
    omega
  obtain ⟨trace,ht⟩ := run_widened within oneByte (by decide)
    (.boot 8080 ⟨1,1,5000⟩ false true []) s rfl hs []
  have flooded : Flooded 5 0 (s.widen o trace) :=
    ⟨⟨[],pc⟩,show 0 < o.networkBufferSize.toNat by omega,by simp [State.widen,impl],⟨_,file⟩,
      of_decide_eq_true dry⟩
  have stopped := stop_flooded flooded (by simp [State.widen,impl]) (by simp [State.widen,impl]) 0
  obtain ⟨later,u,hu,-,-,count⟩ := flood_more stopped (bound+1)
  have few := (h 8080 false true [] oneByte _ 0 later u ht (by simp [State.widen,impl]) hu).1
  omega

/-- The work that is left after `stop()` has a bound exactly when no event can be polled or no
byte be read. -/
theorem bounded_stop (o : TcpOptions) :
    (∃ bound,Bounded o bound) ↔ o.maxEpollEvents<1 ∨ o.networkBufferSize<1 := by
  constructor
  · rintro ⟨bound,h⟩
    by_contra hn
    exact not_bounded (by omega) (by omega) bound h
  · intro ho
    refine ⟨_,bounded_exit ?_⟩
    unfold TcpOptions.bufferSize
    omega

/-- With the default options there is none. -/
theorem flood_outlasts_stop : ¬∀ o,∃ bound,Bounded o bound := by
  intro h
  obtain ⟨bound,hb⟩ := h {}
  exact not_bounded (by decide) (by decide) bound hb

end Server

end TuyulNet
