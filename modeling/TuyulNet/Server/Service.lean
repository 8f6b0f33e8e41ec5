import TuyulNet.Framework.Service
import TuyulNet.Server.Progress

namespace TuyulNet.Server

open Framework Kernel

/-- The server as its peers and its user see it: connections are the guests, and what the data
callback gets are the pieces. -/
abbrev service := Service.machine ConnId Bytes

/-- What a step of the server is for its peers. -/
def visits (s : State) : Action → List (Visit ConnId Bytes)
  | .env (.connect _) => [.arrive s.kernel.born]
  | .reactor r =>
    match s.pc,r with
    | .addClient fd _,.ok => (s.kernel.connection fd).toList.map .enter
    | .reject fd _,_ => (s.kernel.connection fd).toList.map .turnAway
    | .deliver fd bs _,_ => (s.kernel.connection fd).toList.map (.give · bs)
    | .closeClient fd _,_ => (s.kernel.connection fd).toList.map .depart
    | .cleanup .closeServer _,_ => (s.kernel.backlog s.impl.serverFd).map .turnAway
    | _,_ => []
  | _ => []

/-- The line for every client that is hooked in. -/
def hookedLines : List String :=
  ["New client connection accepted and hooked into reactor loop."]

/-- The two lines for a client whose connection is going to be closed. -/
def partingLines : List String :=
  ["Client disconnected gracefully from the socket stream.",
    "Error encountered while reading network packet streams from descriptor."]

/-- How often one of the messages has been logged. -/
def said (messages : List String) (t : Trace) : Nat :=
  t.countP fun
    | .log _ message => message∈messages
    | _ => false

@[simp] theorem said_nil (messages : List String) : said messages []=0 := rfl
@[simp] theorem said_call (messages : List String) (c : Call) (r : Reply) (t : Trace) :
    said messages (.call c r::t)=said messages t := by simp [said]
@[simp] theorem said_append (messages : List String) (l t : Trace) :
    said messages (l++t)=said messages l+said messages t := by simp [said]

/-- The step hooks a client in. -/
def Pc.hooks : Pc → Reply → Bool
  | .addClient _ _,.ok => true
  | _,_ => false

/-- The step closes a client. -/
def Pc.closes : Pc → Bool
  | .closeClient _ _ => true
  | _ => false

/-- The trace tells the same descriptors as the kernel, and nobody waits elsewhere than at the
listening socket. -/
structure Followed (s : State) : Prop where
  base : Undisturbed s
  queues : s.kernel.Queues
  fds : ∀ c,(s.kernel.conns c).fd=openAs c s.trace

/-- The state of the server as a state of the service. A client that has been accepted and not
yet been hooked in still waits. -/
structure Presents (s : State) (x : Service ConnId Bytes) : Prop where
  sound : x.Sound
  waiting : x.waiting=
    (s.pc.newcomer.bind s.kernel.connection).toList++s.kernel.backlog s.impl.serverFd
  inside : ∀ c,c∈x.inside ↔ ∃ fd,(s.kernel.conns c).fd=some fd ∧ s.pc.newcomer≠some fd
  known : ∀ c∈x.known,c<s.kernel.born
  given : ∀ c,x.given c=payloads c s.trace
  lines : s.impl.loggerCb=true → said hookedLines s.trace+s.pc.leaver.toList.length=
    said partingLines s.trace+x.inside.length

section steps

variable {i j : Impl} {pc q : Pc} {k k' : Kernel} {r : Reply} {lines : Trace} {s t : State}
  {x y : Service ConnId Bytes}

theorem next_logger (hn : pc.next i r=some (j,q,lines)) : j.loggerCb=i.loggerCb := by
  rcases next_cases hn with hn|hn|hn|hn|hn|hn
  · unfold setupNext bail at hn
    split at hn <;> cases hn <;> rfl
  · unfold flagsNext blockingFailed bail at hn
    split at hn <;> (try split at hn) <;> cases hn <;> rfl
  · unfold loopNext at hn
    split at hn <;> (try split at hn) <;> cases hn <;> rfl
  · unfold acceptNext at hn
    split at hn <;> cases hn <;> rfl
  · unfold drainNext at hn
    split at hn <;> (try split at hn) <;> cases hn <;> rfl
  · unfold cleanupNext at hn
    split at hn <;> cases hn <;> rfl

theorem step_logger {a : Action} (ha : a.isStop=false) (hs : machine.step s a=some t) :
    t.impl.loggerCb=s.impl.loggerCb := by
  obtain ⟨e,k,rfl,-,rfl⟩|⟨r,rfl,hr⟩ := step_reactor hs ha
  · rfl
  · obtain ⟨k,i,pc,lines,-,hn,rfl⟩ := reactor_cases hr
    exact next_logger hn

section account

attribute [local simp] Pc.leaver Pc.closes Pc.hooks hookedLines partingLines Impl.log said

/-- Every client that is hooked in has its line, and every client that is being closed. -/
theorem next_account (hl : i.loggerCb=true) (hn : pc.next i r=some (j,q,lines)) :
    said hookedLines lines+q.leaver.toList.length+pc.closes.toNat=
      said partingLines lines+pc.leaver.toList.length+(pc.hooks r).toNat := by
  rcases next_cases hn with hn|hn|hn|hn|hn|hn
  · unfold setupNext bail at hn
    split at hn <;> cases hn <;> (try split) <;> simp [hl]
  · unfold flagsNext blockingFailed bail at hn
    split at hn <;> (try split at hn) <;> cases hn <;> simp [hl]
  · unfold loopNext at hn
    split at hn <;> (try split at hn) <;> cases hn <;> simp [hl]
  · unfold acceptNext at hn
    split at hn <;> cases hn <;> (try split) <;> simp [hl]
  · unfold drainNext at hn
    split at hn <;> (try split at hn) <;> cases hn <;> (try split) <;> simp [hl]
  · unfold cleanupNext at hn
    split at hn <;> cases hn <;> simp [hl]

end account

theorem step_followed (h : Followed s) {a : Action} (ha : a.isStop=false)
    (hs : machine.step s a=some t) : Followed t := by
  have base := step_undisturbed s a t h.base ha hs
  obtain ⟨e,k,rfl,hk,rfl⟩|⟨r,rfl,hr⟩ := step_reactor hs ha
  · refine ⟨base,env_queues h.queues e hk,?_⟩
    exact fun c => (env_pipe h.base.owned.wf e hk c).2.2.trans (h.fds c)
  · obtain ⟨k,i,pc,lines,hk,hn,rfl⟩ := reactor_cases hr
    refine ⟨base,answer_queues h.queues hk,?_⟩
    intro c
    have skip := (next_lines hn).skip (f := openAs c) (fun _ _ _ => rfl)
      (.call (s.pc.call s.impl) r::s.trace)
    rw [skip]
    exact openAs_fd h.base.owned.wf (call_not_connect s.impl s.pc) hk h.fds c

/-- Nothing but a delivery adds to what was handed out. -/
theorem payloads_skip {c : Call} (hc : ∀ fd bs,c≠.deliver fd bs) (d : ConnId) (t : Trace) :
    payloads d (.call c r::t)=payloads d t := by
  cases c with
  | deliver fd bs => exact absurd rfl (hc fd bs)
  | _ => rfl

theorem reactor_payloads (hc : ∀ fd bs,s.pc.call s.impl≠.deliver fd bs)
    (hn : s.pc.next s.impl r=some (j,q,lines)) (d : ConnId) :
    payloads d (lines++.call (s.pc.call s.impl) r::s.trace)=payloads d s.trace :=
  ((next_lines hn).skip (f := payloads d) (fun _ _ _ => rfl) _).trans (payloads_skip hc d _)

/-- The lines keep step with the guests. -/
theorem reactor_lines (h : Presents s x) (hn : s.pc.next s.impl r=some (j,q,lines))
    (count : y.inside.length+s.pc.closes.toNat=x.inside.length+(s.pc.hooks r).toNat)
    (hl : j.loggerCb=true) :
    said hookedLines (lines++.call (s.pc.call s.impl) r::s.trace)+q.leaver.toList.length=
      said partingLines (lines++.call (s.pc.call s.impl) r::s.trace)+y.inside.length := by
  have logger : s.impl.loggerCb=true := (next_logger hn).symm.trans hl
  have account := next_account logger hn
  have before := h.lines logger
  simp only [said_append,said_call]
  omega

/-- A step that moves nobody. -/
theorem plain_presents (h : Presents s x) (hn : s.pc.next s.impl r=some (j,q,lines))
    (hw : s.kernel.Wf) (hw' : k.Wf) (fds : ∀ d,(k.conns d).fd=(s.kernel.conns d).fd)
    (born : s.kernel.born≤k.born)
    (queue : k.backlog j.serverFd=s.kernel.backlog s.impl.serverFd)
    (same : q.newcomer=s.pc.newcomer) (silent : ∀ fd bs,s.pc.call s.impl≠.deliver fd bs)
    (still : s.pc.hooks r=false ∧ s.pc.closes=false) :
    Presents ⟨j,q,k,lines++.call (s.pc.call s.impl) r::s.trace⟩ x := by
  have guest (fd : Fd) : k.connection fd=s.kernel.connection fd := by
    ext c
    rw [hw'.connection,hw.connection,fds]
  refine ⟨h.sound,?_,?_,fun c hc => (h.known c hc).trans_le born,?_,?_⟩
  · rw [queue,same,h.waiting]
    cases s.pc.newcomer with
    | none => rfl
    | some fd => simp [guest]
  · intro c
    rw [fds,same]
    exact h.inside c
  · exact fun c => (h.given c).trans (reactor_payloads silent hn c).symm
  · exact reactor_lines h hn (by rw [still.1,still.2])

/-- What is closed is no listening socket, so that nobody has waited there. -/
theorem close_backlog (h : s.kernel.Queues) {fd : Fd}
    (hf : ∀ f,s.kernel.table fd≠some (.listener f)) (l : Fd) :
    (s.kernel.close fd).backlog l=s.kernel.backlog l := by
  rw [h.close_backlog]
  split
  · rename_i hl
    rw [hl,h.nobody hf]
  · rfl

/-- The connection that the reactor is working on, and that no other descriptor belongs to. -/
theorem Followed.client (hf : Followed s) (fd : Fd) (hp : s.pc.client=some fd) :
    ∃ c,s.kernel.connection fd=some c ∧ (s.kernel.conns c).fd=some fd ∧
      (∀ d,(s.kernel.conns d).fd=some fd → d=c) ∧ ∀ f,s.kernel.table fd≠some (.listener f) := by
  obtain ⟨c,f,file⟩ := hf.base.owned.shape.client fd hp
  obtain ⟨own,alone⟩ := sole_connection hf.base.owned.wf file
  exact ⟨c,connection_some.mpr ⟨f,file⟩,own,alone,by simp [file]⟩

/-- Whoever is accepted is taken from the head of the queue, and still to be hooked in. -/
theorem accept_presents (hf : Followed s) (h : Presents s x) {rest : List Fd} {n : Fd}
    {c : ConnId} (hp : s.pc=.accept rest)
    (hk : s.kernel.answer (s.pc.call s.impl) (.conn n c)=some k)
    (hn : s.pc.next s.impl (.conn n c)=some (j,q,lines)) :
    Presents ⟨j,q,k,lines++.call (s.pc.call s.impl) (.conn n c)::s.trace⟩ x := by
  have payload (d : ConnId) := reactor_payloads (by simp [hp,Pc.call]) hn d
  have line := reactor_lines h hn (y := x) (by rw [hp]; rfl)
  have hk : s.kernel.answerAccept s.impl.serverFd (.conn n c)=some k := by
    rw [hp] at hk
    exact hk
  rcases answerAccept_cases hk with ⟨m,d,f,hr,-,fresh,head,rfl⟩|⟨e,he,-⟩
  · cases hr
    have free : s.kernel.table n=none := ((s.kernel.fresh_iff n).mp fresh).2
    have queued : c∈s.kernel.backlog s.impl.serverFd := List.mem_of_mem_head? head
    have alone : (s.kernel.conns c).fd=none := (hf.base.owned.wf.queued _ c queued).1
    have guest : (s.kernel.accept s.impl.serverFd n c).connection n=some c := by
      simp [Kernel.connection]
    have behind : (s.kernel.accept s.impl.serverFd n c).backlog s.impl.serverFd=
        (s.kernel.backlog s.impl.serverFd).tail := by
      simp [Kernel.accept]
    have waiting := h.waiting
    have inside := h.inside
    rw [hp] at hn waiting inside
    cases hn
    refine ⟨h.sound,?_,?_,h.known,fun d => (h.given d).trans (payload d).symm,line⟩
    · rw [waiting,behind]
      show s.kernel.backlog s.impl.serverFd=
        ((s.kernel.accept s.impl.serverFd n c).connection n).toList++_
      rw [guest]
      exact (List.cons_head?_tail head).symm
    · intro d
      rw [inside,(accept_conns _ n c d).2]
      by_cases hd : d=c
      · subst d
        simp [alone,Pc.newcomer]
      · rw [if_neg hd]
        constructor
        · rintro ⟨fd,client,-⟩
          refine ⟨fd,client,?_⟩
          intro e
          obtain ⟨g,hg⟩ := hf.base.owned.wf.owner d fd client
          rw [← Option.some.inj e,free] at hg
          cases hg
        · rintro ⟨fd,client,-⟩
          exact ⟨fd,client,by simp [Pc.newcomer]⟩
  · cases he

/-- A client that is hooked in is admitted. -/
theorem enter_presents (hf : Followed s) (h : Presents s x) {rest : List Fd} {fd : Fd}
    (hp : s.pc=.addClient fd rest) (hk : s.kernel.answer (s.pc.call s.impl) .ok=some k)
    (hn : s.pc.next s.impl .ok=some (j,q,lines)) :
    ∃ y,service.run x (visits s (.reactor .ok))=some y ∧
      Presents ⟨j,q,k,lines++.call (s.pc.call s.impl) .ok::s.trace⟩ y := by
  obtain ⟨c,guest,own,alone,file⟩ := hf.client fd (by rw [hp]; rfl)
  have payload (d : ConnId) := reactor_payloads (by simp [hp,Pc.call]) hn d
  obtain ⟨fds,born,queue⟩ := answer_fixed (by rw [hp]; rfl) hk
  have head : x.waiting=c::s.kernel.backlog s.impl.serverFd := by
    rw [h.waiting,hp]
    simp [Pc.newcomer,guest]
  have shown : visits s (.reactor .ok)=[.enter c] := by simp [visits,hp,guest]
  have moved : x.step (.enter c)=some
      { x with waiting := s.kernel.backlog s.impl.serverFd,inside := c::x.inside } := by
    simp [Service.step,head]
  have line := reactor_lines h hn (y := { x with
    waiting := s.kernel.backlog s.impl.serverFd,inside := c::x.inside }) (by rw [hp]; rfl)
  refine ⟨_,by rw [shown]; exact (service.run_single _ _ _).mpr moved,
    Service.step_sound h.sound moved,?_,?_,?_,fun d => (h.given d).trans (payload d).symm,line⟩
  · rw [hp] at hn
    cases hn
    simp [Pc.newcomer,queue]
  · have inside := h.inside
    rw [hp] at hn inside
    cases hn
    intro d
    rw [List.mem_cons,inside,fds]
    constructor
    · rintro (rfl|⟨x,client,-⟩)
      · exact ⟨fd,own,by simp [Pc.newcomer]⟩
      · exact ⟨x,client,by simp [Pc.newcomer]⟩
    · rintro ⟨x,client,-⟩
      by_cases hx : x=fd
      · exact .inl (alone d (hx ▸ client))
      · exact .inr ⟨x,client,by simpa [Pc.newcomer] using fun e => hx e.symm⟩
  · intro d hd
    rw [born]
    exact h.known d hd

/-- A client that cannot be hooked in is turned away. -/
theorem reject_presents (hf : Followed s) (h : Presents s x) {rest : List Fd} {fd : Fd}
    (hp : s.pc=.reject fd rest) (hk : s.kernel.answer (s.pc.call s.impl) r=some k)
    (hn : s.pc.next s.impl r=some (j,q,lines)) :
    ∃ y,service.run x (visits s (.reactor r))=some y ∧
      Presents ⟨j,q,k,lines++.call (s.pc.call s.impl) r::s.trace⟩ y := by
  obtain ⟨c,guest,own,alone,file⟩ := hf.client fd (by rw [hp]; rfl)
  have payload (d : ConnId) := reactor_payloads (by simp [hp,Pc.call]) hn d
  have hk : s.kernel.answerClose fd r=some k := by
    rw [hp] at hk
    exact hk
  obtain rfl := (answerClose_cases hk).1
  have head : x.waiting=c::s.kernel.backlog s.impl.serverFd := by
    rw [h.waiting,hp]
    simp [Pc.newcomer,guest]
  have shown : visits s (.reactor r)=[.turnAway c] := by simp [visits,hp,guest]
  have moved : x.step (.turnAway c)=some
      { x with waiting := s.kernel.backlog s.impl.serverFd } := by
    simp [Service.step,head]
  have line := reactor_lines h hn
    (y := { x with waiting := s.kernel.backlog s.impl.serverFd }) (by rw [hp]; rfl)
  refine ⟨_,by rw [shown]; exact (service.run_single _ _ _).mpr moved,
    Service.step_sound h.sound moved,?_,?_,?_,fun d => (h.given d).trans (payload d).symm,line⟩
  · rw [close_backlog hf.queues file]
    rw [hp] at hn
    cases r <;> cases hn <;> simp [Pc.newcomer]
  · have inside := h.inside
    rw [hp] at hn inside
    have left : q.newcomer=none := by cases r <;> cases hn <;> rfl
    intro d
    rw [inside,close_fd hf.base.owned.wf,left]
    by_cases hd : (s.kernel.conns d).fd=some fd
    · simp [hd,Pc.newcomer]
    · rw [if_neg hd]
      constructor
      · rintro ⟨x,client,-⟩
        exact ⟨x,client,by simp⟩
      · rintro ⟨x,client,-⟩
        refine ⟨x,client,?_⟩
        intro e
        exact hd (client.trans (Option.some.inj e ▸ rfl))
  · intro d hd
    rw [close_born]
    exact h.known d hd

/-- What the data callback gets comes from a client that is inside. -/
theorem give_presents (hf : Followed s) (h : Presents s x) {rest : List Fd} {fd : Fd} {bs : Bytes}
    (hp : s.pc=.deliver fd bs rest) (hk : s.kernel.answer (s.pc.call s.impl) r=some k)
    (hn : s.pc.next s.impl r=some (j,q,lines)) :
    ∃ y,service.run x (visits s (.reactor r))=some y ∧
      Presents ⟨j,q,k,lines++.call (s.pc.call s.impl) r::s.trace⟩ y := by
  obtain ⟨c,guest,own,alone,-⟩ := hf.client fd (by rw [hp]; rfl)
  have member : c∈x.inside := by
    rw [h.inside,hp]
    exact ⟨fd,own,by simp [Pc.newcomer]⟩
  have shown : visits s (.reactor r)=[.give c bs] := by simp [visits,hp,guest]
  have moved : x.step (.give c bs)=some
      { x with given := Function.update x.given c (x.given c++[bs]) } := by
    simp [Service.step,member]
  have line := reactor_lines h hn
    (y := { x with given := Function.update x.given c (x.given c++[bs]) }) (by rw [hp]; rfl)
  obtain rfl : r=.ok := by
    rw [hp] at hn
    cases r <;> first
      | rfl
      | cases hn
  obtain rfl : k=s.kernel := by
    rw [hp] at hk
    exact (Option.some.inj hk).symm
  have waiting := h.waiting
  have inside := h.inside
  rw [hp] at hn waiting inside line
  cases hn
  refine ⟨_,by rw [shown]; exact (service.run_single _ _ _).mpr moved,
    Service.step_sound h.sound moved,waiting,inside,h.known,?_,by rw [hp]; exact line⟩
  intro d
  rw [hp]
  show Function.update x.given c (x.given c++[bs]) d=
    payloads d (.call (.deliver fd bs) .ok::s.trace)
  by_cases hd : d=c
  · subst d
    simp [payloads,← hf.fds,own,h.given]
  · have other : (s.kernel.conns d).fd≠some fd := fun e => hd (alone d e)
    simp [payloads,← hf.fds,other,hd,h.given]

/-- A client whose connection is closed leaves. -/
theorem depart_presents (hf : Followed s) (h : Presents s x) {rest : List Fd} {fd : Fd}
    (hp : s.pc=.closeClient fd rest) (hk : s.kernel.answer (s.pc.call s.impl) r=some k)
    (hn : s.pc.next s.impl r=some (j,q,lines)) :
    ∃ y,service.run x (visits s (.reactor r))=some y ∧
      Presents ⟨j,q,k,lines++.call (s.pc.call s.impl) r::s.trace⟩ y := by
  obtain ⟨c,guest,own,alone,file⟩ := hf.client fd (by rw [hp]; rfl)
  have payload (d : ConnId) := reactor_payloads (by simp [hp,Pc.call]) hn d
  have hk : s.kernel.answerClose fd r=some k := by
    rw [hp] at hk
    exact hk
  obtain rfl := (answerClose_cases hk).1
  have member : c∈x.inside := by
    rw [h.inside,hp]
    exact ⟨fd,own,by simp [Pc.newcomer]⟩
  have shown : visits s (.reactor r)=[.depart c] := by simp [visits,hp,guest]
  have moved : x.step (.depart c)=some { x with inside := x.inside.erase c } := by
    simp [Service.step,member]
  have one : (x.inside.erase c).length+1=x.inside.length :=
    List.length_erase_add_one member
  have line := reactor_lines h hn (y := { x with inside := x.inside.erase c })
    (by rw [hp]; exact one)
  have before : s.pc.newcomer=none := by rw [hp]; rfl
  have after : q.newcomer=none ∧ j=s.impl := by
    rw [hp] at hn
    cases r <;> cases hn <;> exact ⟨rfl,rfl⟩
  refine ⟨_,by rw [shown]; exact (service.run_single _ _ _).mpr moved,
    Service.step_sound h.sound moved,?_,?_,?_,fun d => (h.given d).trans (payload d).symm,line⟩
  · rw [close_backlog hf.queues file,after.1,after.2,h.waiting,before]
    rfl
  · intro d
    rw [h.sound.party.mem_erase_iff,h.inside,close_fd hf.base.owned.wf,before,after.1]
    by_cases hd : d=c
    · subst d
      simp [own]
    · have other : (s.kernel.conns d).fd≠some fd := fun e => hd (alone d e)
      simp [hd,other]
  · intro d hd
    rw [close_born]
    exact h.known d hd

/-- With the listening socket everyone who waits at it is turned away. -/
theorem dismiss_presents (hf : Followed s) (h : Presents s x) {code : ErrorCode}
    (hp : s.pc=.cleanup .closeServer code) (hk : s.kernel.answer (s.pc.call s.impl) r=some k)
    (hn : s.pc.next s.impl r=some (j,q,lines)) :
    ∃ y,service.run x (visits s (.reactor r))=some y ∧
      Presents ⟨j,q,k,lines++.call (s.pc.call s.impl) r::s.trace⟩ y := by
  have payload (d : ConnId) := reactor_payloads (by simp [hp,Pc.call]) hn d
  have hk : s.kernel.answerClose s.impl.serverFd r=some k := by
    rw [hp] at hk
    exact hk
  obtain rfl := (answerClose_cases hk).1
  have before : s.pc.newcomer=none := by rw [hp]; rfl
  have after : q.newcomer=none ∧ j=s.impl := by
    rw [hp] at hn
    cases r <;> cases hn <;> exact ⟨rfl,rfl⟩
  have shown : visits s (.reactor r)=x.waiting.map .turnAway := by
    rw [h.waiting,before]
    simp [visits,hp]
  have line := reactor_lines h hn (y := { x with waiting := [] }) (by rw [hp]; rfl)
  have moved := Service.run_dismiss x
  refine ⟨_,by rw [shown]; exact moved,Service.run_sound h.sound moved,?_,?_,?_,
    fun d => (h.given d).trans (payload d).symm,line⟩
  · rw [hf.queues.close_backlog,after.1,after.2,if_pos rfl]
    rfl
  · intro d
    have other : (s.kernel.conns d).fd≠some s.impl.serverFd := by
      intro e
      obtain ⟨g,hg⟩ := hf.base.owned.wf.owner d _ e
      by_cases hs : s.impl.serverFd=-1
      · rw [hs,hf.base.owned.wf.minus_one] at hg
        cases hg
      · obtain ⟨m,hm,master⟩ := hf.base.owned.shape.server hs (by rw [hp]; rfl)
        rw [hm] at hg
        cases hg
        cases master
    rw [h.inside,close_fd hf.base.owned.wf,if_neg other,before,after.1]
  · intro d hd
    rw [close_born]
    exact h.known d hd

/-- Without `epoll_fd` the guests stay where they are. -/
theorem unwatch_presents (hf : Followed s) (h : Presents s x) {code : ErrorCode}
    (hp : s.pc=.cleanup .closeEpoll code) (hk : s.kernel.answer (s.pc.call s.impl) r=some k)
    (hn : s.pc.next s.impl r=some (j,q,lines)) :
    Presents ⟨j,q,k,lines++.call (s.pc.call s.impl) r::s.trace⟩ x := by
  have away {f : File} (hf' : s.kernel.table s.impl.epollFd=some f) : f=.epoll := by
    by_cases he : s.impl.epollFd=-1
    · rw [he,hf.base.owned.wf.minus_one] at hf'
      cases hf'
    · rw [hf.base.owned.shape.epoll he (by rw [hp]; rfl)] at hf'
      exact (Option.some.inj hf').symm
  have hk' : s.kernel.answerClose s.impl.epollFd r=some k := by
    rw [hp] at hk
    exact hk
  have silent (fd : Fd) (bs : Bytes) : s.pc.call s.impl≠.deliver fd bs := by simp [hp,Pc.call]
  have wf := answer_wf hf.base.owned.wf _ _ hk
  obtain rfl := (answerClose_cases hk').1
  have after : q.newcomer=none ∧ j=s.impl := by
    rw [hp] at hn
    cases r <;> cases hn <;> exact ⟨rfl,rfl⟩
  refine plain_presents h hn hf.base.owned.wf wf ?_ (le_of_eq (close_born _).symm) ?_ ?_ silent
    (by rw [hp]; exact ⟨rfl,rfl⟩)
  · intro d
    have other : (s.kernel.conns d).fd≠some s.impl.epollFd := by
      intro e
      obtain ⟨g,hg⟩ := hf.base.owned.wf.owner d _ e
      cases away hg
    rw [close_fd hf.base.owned.wf,if_neg other]
  · rw [after.2]
    refine close_backlog hf.queues ?_ _
    intro f e
    cases away e
  · rw [after.1,hp]
    rfl

/-- Where only the fields of the object or the connections' bytes change, nobody moves. -/
theorem idle_presents (hf : Followed s) (h : Presents s x)
    (idle : (s.pc.call s.impl).attaches=false)
    (hk : s.kernel.answer (s.pc.call s.impl) r=some k)
    (hn : s.pc.next s.impl r=some (j,q,lines))
    (queue : k.backlog j.serverFd=k.backlog s.impl.serverFd)
    (same : q.newcomer=s.pc.newcomer) (silent : ∀ fd bs,s.pc.call s.impl≠.deliver fd bs)
    (still : s.pc.hooks r=false) :
    Presents ⟨j,q,k,lines++.call (s.pc.call s.impl) r::s.trace⟩ x := by
  obtain ⟨fds,born,backlog⟩ := answer_fixed idle hk
  refine plain_presents h hn hf.base.owned.wf (answer_wf hf.base.owned.wf _ _ hk) fds born.ge ?_
    same silent ⟨still,?_⟩
  · rw [queue,backlog]
  · cases hp : s.pc with
    | closeClient fd rest =>
      rw [hp] at idle
      cases idle
    | _ => rfl

/-- What the outside does: somebody comes, or nobody moves. -/
theorem env_presents (hf : Followed s) (h : Presents s x) (e : Env) (hk : s.kernel.env e=some k) :
    ∃ y,service.run x (visits s (.env e))=some y ∧ Presents { s with kernel := k } y := by
  have fds (d : ConnId) := (env_pipe hf.base.owned.wf e hk d).2.2
  have guest (fd : Fd) := env_connection e hk fd
  have still (shown : visits s (.env e)=[]) (born : k.born=s.kernel.born)
      (queue : k.backlog s.impl.serverFd=s.kernel.backlog s.impl.serverFd) :
      ∃ y,service.run x (visits s (.env e))=some y ∧ Presents { s with kernel := k } y := by
    refine ⟨x,by rw [shown]; rfl,h.sound,?_,?_,?_,h.given,h.lines⟩
    · rw [h.waiting,queue]
      congr 2
      exact Option.bind_congr fun fd _ => (guest fd).symm
    · intro c
      rw [h.inside,fds]
    · intro c hc
      rw [born]
      exact h.known c hc
  cases e with
  | connect l =>
    have file : ∃ f,s.kernel.table l=some (.listener f) := by
      cases env_evolves hk with
      | connect file => exact ⟨_,file⟩
    obtain ⟨f,file⟩ := file
    obtain rfl := (hf.base.owned.shape.serverOnly l _ file rfl).1
    have unknown : s.kernel.born∉x.known := fun hm => absurd (h.known _ hm) (lt_irrefl _)
    have moved : x.step (.arrive s.kernel.born)=some { x with
        waiting := x.waiting++[s.kernel.born],known := s.kernel.born::x.known } := by
      simp [Service.step,unknown]
    refine ⟨_,(service.run_single _ _ _).mpr moved,Service.step_sound h.sound moved,?_,?_,?_,
      h.given,h.lines⟩
    · have later : k.backlog s.impl.serverFd=
          s.kernel.backlog s.impl.serverFd++[s.kernel.born] := by
        cases env_evolves hk with
        | connect => simp [notify]
      show x.waiting++[s.kernel.born]=_
      rw [h.waiting,later,List.append_assoc]
      congr 2
      exact Option.bind_congr fun fd _ => (guest fd).symm
    · intro c
      rw [h.inside,fds]
    · have born : k.born=s.kernel.born+1 := by
        cases env_evolves hk with
        | connect => rfl
      intro c hc
      rw [born]
      rcases List.mem_cons.mp hc with rfl|hc
      · exact Nat.lt_succ_self _
      · exact (h.known c hc).trans (Nat.lt_succ_self _)
  | closeForeign fd =>
    cases env_evolves hk with
    | closeForeign file =>
      exact still rfl (close_born fd) (close_backlog hf.queues (by simp [file]) _)
  | arrive | finish | tear =>
    cases env_evolves hk
    refine still rfl (wake_born _) ?_
    unfold wake
    split <;> rfl
  | _ =>
    cases env_evolves hk
    exact still rfl rfl rfl

/-- The few steps that change who is on the way in, or where peers wait. -/
theorem next_settles (hn : pc.next i r=some (j,q,lines)) :
    q.newcomer=pc.newcomer ∧ j.serverFd=i.serverFd ∨ pc=.socket ∨
      (∃ rest n c,pc=.accept rest ∧ r=.conn n c) ∨ (∃ fd rest,pc=.addClient fd rest ∧ r=.ok) ∨
      (∃ fd rest,pc=.reject fd rest) ∨ ∃ code,pc=.cleanup .clearServer code := by
  rcases next_cases hn with hn|hn|hn|hn|hn|hn
  · unfold setupNext bail at hn
    split at hn <;> cases hn <;> (try split) <;> simp [Pc.newcomer]
  · cases pc with
    | getFl fd caller | setFl fd flags caller =>
      cases caller <;> cases r <;> cases hn <;> simp [Pc.newcomer]
    | _ => cases hn
  · unfold loopNext at hn
    split at hn <;> (try split at hn) <;> cases hn <;> simp [Pc.newcomer]
  · unfold acceptNext at hn
    split at hn <;> cases hn <;> simp [Pc.newcomer]
  · unfold drainNext at hn
    split at hn <;> (try split at hn) <;> cases hn <;> (try split) <;> simp [Pc.newcomer]
  · unfold cleanupNext at hn
    split at hn <;> cases hn <;> simp [Pc.newcomer]

/-- `server_fd` is set and reset where nobody waits. -/
theorem unset_presents (hf : Followed s) (h : Presents s x)
    (hp : s.pc=.socket ∨ ∃ code,s.pc=.cleanup .clearServer code)
    (hk : s.kernel.answer (s.pc.call s.impl) r=some k)
    (hn : s.pc.next s.impl r=some (j,q,lines)) :
    Presents ⟨j,q,k,lines++.call (s.pc.call s.impl) r::s.trace⟩ x := by
  have calls : (s.pc.call s.impl).attaches=false ∧ (∀ fd bs,s.pc.call s.impl≠.deliver fd bs) ∧
      s.pc.hooks r=false ∧ q.newcomer=s.pc.newcomer := by
    rcases hp with hp|⟨code,hp⟩ <;> rw [hp] at hn ⊢ <;> cases r <;> cases hn <;>
      simp [Pc.call,Call.attaches,Pc.hooks,Pc.newcomer]
  obtain ⟨idle,silent,still,same⟩ := calls
  have wf := hf.base.owned.wf
  have shape := hf.base.owned.shape
  obtain ⟨-,-,backlog⟩ := answer_fixed idle hk
  have none' : s.kernel.backlog (-1)=[] := hf.queues.nobody (by simp [wf.minus_one])
  refine idle_presents hf h idle hk hn ?_ same silent still
  rw [backlog]
  rcases hp with hp|⟨code,hp⟩
  · have unset := shape.unopened.1 hp
    rw [unset,none']
    rw [hp] at hn hk
    rcases answerOpen_cases hk with ⟨n,rfl,fresh,-⟩|⟨e,rfl,-⟩
    · cases hn
      exact hf.queues.nobody (by simp [((s.kernel.fresh_iff n).mp fresh).2])
    · cases hn
      exact none'
  · have gone : s.kernel.backlog s.impl.serverFd=[] := by
      apply hf.queues.nobody
      intro f file
      have stale := (shape.serverOnly _ _ file rfl).2
      rw [hp] at stale
      cases stale
    rw [gone]
    rw [hp] at hn
    cases r <;> cases hn
    exact none'

theorem reactor_presents (hf : Followed s) (h : Presents s x) (hr : s.reactor r=some t) :
    ∃ y,service.run x (visits s (.reactor r))=some y ∧ Presents t y := by
  obtain ⟨k,i,pc,lines,hk,hn,rfl⟩ := reactor_cases hr
  -- the steps that are none of those treated above
  have rest (shown : visits s (.reactor r)=[]) (idle : (s.pc.call s.impl).attaches=false)
      (silent : ∀ fd bs,s.pc.call s.impl≠.deliver fd bs) (still : s.pc.hooks r=false)
      (out : (∀ fd l,s.pc≠.reject fd l) ∧ (∀ l n c,s.pc=.accept l → r≠.conn n c)) :
      ∃ y,service.run x (visits s (.reactor r))=some y ∧
        Presents ⟨i,pc,k,lines++.call (s.pc.call s.impl) r::s.trace⟩ y := by
    refine ⟨x,by rw [shown]; rfl,?_⟩
    rcases next_settles hn with ⟨same,server⟩|hp|⟨l,n,c,hp,hr⟩|⟨fd,l,hp,rfl⟩|⟨fd,l,hp⟩|hp
    · exact idle_presents hf h idle hk hn (by rw [server]) same silent still
    · exact unset_presents hf h (.inl hp) hk hn
    · exact absurd hr (out.2 l n c hp)
    · rw [hp] at still
      cases still
    · exact absurd hp (out.1 fd l)
    · exact unset_presents hf h (.inr hp) hk hn
  cases hp : s.pc with
  | addClient fd l =>
    cases r with
    | ok => exact hp ▸ enter_presents hf h hp hk hn
    | _ =>
      rw [← hp]
      exact rest (by simp [visits,hp]) (by rw [hp]; rfl) (by simp [hp,Pc.call]) (by rw [hp]; rfl)
        (by simp [hp])
  | reject fd l => exact hp ▸ reject_presents hf h hp hk hn
  | deliver fd bs l => exact hp ▸ give_presents hf h hp hk hn
  | closeClient fd l => exact hp ▸ depart_presents hf h hp hk hn
  | accept l =>
    cases r with
    | conn n c => exact ⟨x,by simp [visits,hp],hp ▸ accept_presents hf h hp hk hn⟩
    | fail e =>
      obtain rfl : k=s.kernel := by
        have hk : s.kernel.answerAccept s.impl.serverFd (.fail e)=some k := by
          rw [hp] at hk
          exact hk
        rcases answerAccept_cases hk with ⟨n,c,f,hr,-⟩|⟨e,-,same,-⟩
        · cases hr
        · exact same
      rw [← hp]
      refine ⟨x,by simp [visits,hp],plain_presents h hn hf.base.owned.wf hf.base.owned.wf
        (fun _ => rfl) le_rfl ?_ ?_ (by simp [hp,Pc.call]) (by rw [hp]; exact ⟨rfl,rfl⟩)⟩
      · rw [hp] at hn
        cases hn
        rfl
      · rw [hp] at hn ⊢
        cases hn
        rfl
    | _ =>
      rw [hp] at hn
      cases hn
  | cleanup stage code =>
    cases stage with
    | closeEpoll => exact ⟨x,by simp [visits,hp],hp ▸ unwatch_presents hf h hp hk hn⟩
    | closeServer => exact hp ▸ dismiss_presents hf h hp hk hn
    | _ =>
      rw [← hp]
      exact rest (by simp [visits,hp]) (by rw [hp]; rfl) (by simp [hp,Pc.call]) (by rw [hp]; rfl)
        (by simp [hp])
  | _ =>
    rw [← hp]
    exact rest (by simp [visits,hp]) (by rw [hp]; rfl) (by simp [hp,Pc.call]) (by rw [hp]; rfl)
      (by simp [hp])

theorem step_presents (hf : Followed s) (h : Presents s x) {a : Action} (ha : a.isStop=false)
    (hs : machine.step s a=some t) :
    ∃ y,service.run x (visits s a)=some y ∧ Presents t y := by
  obtain ⟨e,k,rfl,hk,rfl⟩|⟨r,rfl,hr⟩ := step_reactor hs ha
  · exact env_presents hf h e hk
  · exact reactor_presents hf h hr

end steps

/-- One client is hooked in and heard, a second one is accepted and turned away, and a third
one waits. -/
def oneServed : List Action :=
  oneClient++[.env (.send 0 [65]),.env (.arrive 0 1),.env (.connect 3),.reactor .ok,
    .reactor (.events [⟨5,⟨true,false,false⟩⟩,⟨3,⟨true,false,false⟩⟩]),.reactor .ok,
    .reactor (.data [65]),.reactor .ok,.reactor (.fail .eagain),.reactor .ok,
    .reactor (.conn 6 1),.reactor (.fail .einval),.reactor .ok,.reactor (.fail .eagain),
    .env (.connect 3),.reactor .ok]

section runs

variable (port : Int) (options : TcpOptions) (loggerCb dataCb : Bool) (foreign : List Fd)

theorem boot_followed : Followed (.boot port options loggerCb dataCb foreign) where
  base := boot_undisturbed port options loggerCb dataCb foreign
  queues := boot_queues foreign
  fds := fun _ => rfl

theorem boot_presents : Presents (.boot port options loggerCb dataCb foreign) .empty where
  sound := Service.empty_sound
  waiting := rfl
  inside := by
    intro c
    simp [Service.empty,State.boot,Kernel.boot,Conn.new]
  known := by simp [Service.empty]
  given := fun _ => rfl
  lines := fun _ => rfl

theorem run_presents {as : List Action} {t : State} (hn : ∀ a∈as,a.isStop=false)
    (hr : machine.run (.boot port options loggerCb dataCb foreign) as=some t) :
    ∃ x,service.run .empty
      (machine.shows visits (.boot port options loggerCb dataCb foreign) as)=some x ∧
      Followed t ∧ Presents t x :=
  machine.refines service visits (R := fun s x => Followed s ∧ Presents s x)
    (C := fun _ a => a.isStop=false)
    (fun _ _ _ _ h ha hs =>
      (step_presents h.1 h.2 ha hs).imp fun _ hy => ⟨hy.1,step_followed h.1 ha hs,hy.2⟩)
    as _ .empty t ⟨boot_followed port options loggerCb dataCb foreign,
      boot_presents port options loggerCb dataCb foreign⟩
    (Machine.Meets.of_actions machine as hn _) hr

/-- Every run of `start` that nobody stops is a run of the service. -/
theorem refines_service (as : List Action) (t : State) (hn : ∀ a∈as,a.isStop=false)
    (hr : machine.run (.boot port options loggerCb dataCb foreign) as=some t) :
    ∃ x,service.run .empty
      (machine.shows visits (.boot port options loggerCb dataCb foreign) as)=some x ∧
      Presents t x := by
  obtain ⟨x,hx,-,h⟩ := run_presents port options loggerCb dataCb foreign hn hr
  exact ⟨x,hx,h⟩

theorem refines_service_one_served : ∃ t x,
    machine.run (.boot 8080 {} true true []) oneServed=some t ∧
    service.run .empty [.arrive 0,.enter 0,.arrive 1,.give 0 [65],.turnAway 1,.arrive 2]=some x ∧
    Presents t x := by
  have run : (machine.run (.boot 8080 {} true true []) oneServed).isSome=true := by
    decide +kernel
  have shown : machine.shows visits (.boot 8080 {} true true []) oneServed=
      [.arrive 0,.enter 0,.arrive 1,.give 0 [65],.turnAway 1,.arrive 2] := by
    decide +kernel
  obtain ⟨t,ht⟩ := Option.isSome_iff_exists.mp run
  obtain ⟨x,hx,h⟩ := refines_service 8080 {} true true [] oneServed t (by decide +kernel) ht
  exact ⟨t,x,ht,shown ▸ hx,h⟩

/-- Every peer is served in the order of its coming: first it waits, then it is turned away or
hooked in, what it sends goes to the data callback while it is hooked in, and nothing comes
after its connection is closed. -/
theorem served_in_turn (as : List Action) (t : State) (hn : ∀ a∈as,a.isStop=false)
    (hr : machine.run (.boot port options loggerCb dataCb foreign) as=some t) :
    let shown := machine.shows visits (.boot port options loggerCb dataCb foreign) as
    (∀ c,∃ stay,(stays ConnId Bytes).run .away (shown.filter fun v => v.guest=c)=some stay ∧
      (stay=.inside ↔ ∃ fd,(t.kernel.conns c).fd=some fd ∧ t.pc.newcomer≠some fd)) ∧
    (∀ c,payloads c t.trace=shown.filterMap (Visit.piece c)) ∧
    shown.filterMap Visit.comes=shown.filterMap Visit.taken++
      ((t.pc.newcomer.bind t.kernel.connection).toList++t.kernel.backlog t.impl.serverFd) := by
  intro shown
  obtain ⟨x,hx,-,h⟩ := run_presents port options loggerCb dataCb foreign hn hr
  refine ⟨?_,?_,?_⟩
  · intro c
    refine ⟨x.stay c,Service.run_stay Service.empty_sound hx c,?_⟩
    rw [← h.inside,h.sound.stay_inside]
  · intro c
    rw [← h.given]
    exact Service.run_given hx c
  · rw [← h.waiting]
    exact Service.run_queue hx

theorem served_in_turn_one_served : ∃ t,
    machine.run (.boot 8080 {} true true []) oneServed=some t ∧ payloads 0 t.trace=[[65]] ∧
    ∃ stay,(stays ConnId Bytes).run .away [.arrive 1,.turnAway 1]=some stay ∧
      (stay=.inside ↔ ∃ fd,(t.kernel.conns 1).fd=some fd ∧ t.pc.newcomer≠some fd) := by
  have run : (machine.run (.boot 8080 {} true true []) oneServed).isSome=true := by
    decide +kernel
  have shown : machine.shows visits (.boot 8080 {} true true []) oneServed=
      [.arrive 0,.enter 0,.arrive 1,.give 0 [65],.turnAway 1,.arrive 2] := by
    decide +kernel
  obtain ⟨t,ht⟩ := Option.isSome_iff_exists.mp run
  obtain ⟨stays,given,-⟩ := served_in_turn 8080 {} true true [] oneServed t (by decide +kernel) ht
  have second := stays 1
  have first := given 0
  rw [shown] at second first
  exact ⟨t,ht,first,second⟩

/-- The lines of the log tell how many clients are open, whenever none is on its way in or
out. -/
theorem lines_account (as : List Action) (t : State) (hn : ∀ a∈as,a.isStop=false)
    (hr : machine.run (.boot port options true dataCb foreign) as=some t)
    (quiet : t.pc.newcomer=none ∧ t.pc.leaver=none) :
    ∃ clients : List Fd,clients.Nodup ∧ (∀ fd,fd∈clients ↔ accepted fd t.trace=true) ∧
      said hookedLines t.trace=said partingLines t.trace+clients.length := by
  obtain ⟨x,-,hf,h⟩ := run_presents port options true dataCb foreign hn hr
  have wf := hf.base.owned.wf
  have inside (c : ConnId) : c∈x.inside ↔ ∃ fd,(t.kernel.conns c).fd=some fd := by
    rw [h.inside,quiet.1]
    simp
  have logger : t.impl.loggerCb=true :=
    machine.invariant (I := fun s => s.impl.loggerCb=true) (C := fun _ a => a.isStop=false)
      (fun _ _ _ h ha hs => (step_logger ha hs).trans h) as _ t rfl
      (Machine.Meets.of_actions machine as hn _) hr
  refine ⟨x.inside.filterMap fun c => (t.kernel.conns c).fd,?_,?_,?_⟩
  · refine h.sound.party.filterMap ?_
    intro c d fd hc hd
    obtain ⟨f,file⟩ := wf.owner d fd hd
    exact (sole_connection wf file).2 c hc
  · intro fd
    rw [List.mem_filterMap,hf.base.accepted]
    constructor
    · rintro ⟨c,-,client⟩
      obtain ⟨f,file⟩ := wf.owner c fd client
      exact ⟨c,f,file⟩
    · rintro ⟨c,f,file⟩
      have own := (sole_connection wf file).1
      exact ⟨c,(inside c).mpr ⟨fd,own⟩,own⟩
  · have whole : (x.inside.filterMap fun c => (t.kernel.conns c).fd).length=x.inside.length := by
      rw [List.filterMap_length_eq_length]
      intro c hc
      obtain ⟨fd,client⟩ := (inside c).mp hc
      simp [client]
    rw [whole,← h.lines logger,quiet.2]
    rfl

end runs

theorem lines_account_one_served : ∃ t,
    machine.run (.boot 8080 {} true true []) oneServed=some t ∧
    ∃ clients : List Fd,clients.Nodup ∧ (∀ fd,fd∈clients ↔ accepted fd t.trace=true) ∧
      said hookedLines t.trace=said partingLines t.trace+clients.length := by
  have run : (machine.run (.boot 8080 {} true true []) oneServed).map
      (fun t => (t.pc.newcomer,t.pc.leaver))=some (none,none) := by
    decide +kernel
  obtain ⟨t,ht,heq⟩ := Option.map_eq_some_iff.mp run
  exact ⟨t,ht,lines_account 8080 {} true [] oneServed t (by decide +kernel) ht
    (Prod.mk.injEq .. ▸ heq)⟩

end TuyulNet.Server
