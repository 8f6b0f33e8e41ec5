import TuyulNet.Kernel.Streams
import TuyulNet.Server.Registration

namespace TuyulNet.Server

open Framework Kernel

/-- The descriptor under which connection `c` is open. -/
def openAs (c : ConnId) : Trace → Option Fd
  | [] => none
  | .call (.accept _) (.conn n d)::t => if c=d then some n else openAs c t
  | .call (.close n) _::t => if openAs c t=some n then none else openAs c t
  | _::t => openAs c t

/-- The payloads passed to the data callback under the descriptor of `c` while
`c` was open, oldest first. -/
def payloads (c : ConnId) : Trace → List Bytes
  | [] => []
  | .call (.deliver fd bs) _::t =>
    if openAs c t=some fd then payloads c t++[bs] else payloads c t
  | _::t => payloads c t

/-- A read on `c` returned 0 while `c` was open. -/
def sawEnd (c : ConnId) : Trace → Bool
  | [] => false
  | .call (.read fd _) (.data [])::t => decide (openAs c t=some fd) || sawEnd c t
  | _::t => sawEnd c t

/-- Every payload was delivered under the descriptor of exactly one connection. -/
def Attributed : Trace → Prop
  | [] => True
  | .call (.deliver fd _) _::t => (∃ c,openAs c t=some fd ∧ ∀ d,openAs d t=some fd → d=c) ∧
    Attributed t
  | _::t => Attributed t

/-- Calls that move payload. -/
def Call.transfers : Call → Bool
  | .read _ _ | .deliver _ _ => true
  | _ => false

/-- Bytes that were read from the connection open as `o` and not yet delivered. -/
def Pc.inhand (o : Option Fd) : Pc → Bytes
  | .deliver fd bs _ => if o=some fd then bs else []
  | _ => []

section traces

variable {t : Trace} {c : Call} {r : Reply}

theorem openAs_idle (hc : c.attaches=false) (d : ConnId) :
    openAs d (.call c r::t)=openAs d t := by
  cases c with
  | accept | close => cases hc
  | _ => rfl

/-- The trace tells the same descriptors as the kernel. -/
theorem openAs_fd {k k' : Kernel} (hw : k.Wf) (hc : ∀ fd res,c≠.connect fd res)
    (hk : k.answer c r=some k') (h : ∀ d,(k.conns d).fd=openAs d t) (d : ConnId) :
    (k'.conns d).fd=openAs d (.call c r::t) := by
  by_cases ha : c.attaches=true
  · cases c with
    | accept l =>
      rcases answerAccept_cases hk with ⟨n,c,f,rfl,-,-,-,rfl⟩|⟨e,rfl,rfl,-⟩
      · rw [(accept_conns l n c d).2,h d]
        rfl
      · exact h d
    | close x =>
      rw [(answerClose_cases hk).1,close_fd hw,h d]
      rfl
    | connect x res => exact absurd rfl (hc x res)
    | _ => cases ha
  · have idle : c.attaches=false := by simpa using ha
    rw [(answer_fixed idle hk).1,openAs_idle idle,h d]

theorem still (hc : Call.transfers c=false) (d : ConnId) :
    payloads d (.call c r::t)=payloads d t ∧ sawEnd d (.call c r::t)=sawEnd d t ∧
      (Attributed (.call c r::t) ↔ Attributed t) := by
  cases c with
  | read | deliver => cases hc
  | _ => exact ⟨rfl,rfl,Iff.rfl⟩

end traces

/-- The invariant that ties descriptor numbers to connections and accounts for
every byte taken from a stream. -/
structure Faithful (options : TcpOptions) (s : State) : Prop where
  base : Undisturbed s
  callback : s.impl.dataCb=true
  kept : s.impl.options=options
  fds : ∀ c,(s.kernel.conns c).fd=openAs c s.trace
  bytes : ∀ c,(payloads c s.trace).flatten++s.pc.inhand (openAs c s.trace)=
    (s.kernel.conns c).pipe.taken
  chunk : ∀ fd bs rest,s.pc=.deliver fd bs rest → bs≠[] ∧ bs.length≤options.bufferSize
  pieces : ∀ c,∀ bs∈payloads c s.trace,bs≠[] ∧ bs.length≤options.bufferSize
  ended : ∀ c,sawEnd c s.trace=true →
    (s.kernel.conns c).pipe.Complete ∧ s.pc.inhand (openAs c s.trace)=[]
  attributed : Attributed s.trace

/-- Once the end of a stream has been read, the callback has got all of it. -/
theorem Faithful.all_given {options : TcpOptions} {s : State} {c : ConnId}
    (h : Faithful options s) (ended : sawEnd c s.trace=true) :
    (payloads c s.trace).flatten=(s.kernel.conns c).pipe.sent := by
  obtain ⟨complete,out⟩ := h.ended c ended
  have bytes := h.bytes c
  rw [out,List.append_nil] at bytes
  exact bytes.trans complete.2

section steps

variable {i j : Impl} {pc q : Pc} {k k' : Kernel} {r : Reply} {lines : Trace}

theorem next_callback (hn : pc.next i r=some (j,q,lines)) :
    j.dataCb=i.dataCb ∧ j.options=i.options := by
  rcases next_cases hn with hn|hn|hn|hn|hn|hn
  · unfold setupNext bail at hn
    split at hn <;> cases hn <;> exact ⟨rfl,rfl⟩
  · unfold flagsNext blockingFailed bail at hn
    split at hn <;> (try split at hn) <;> cases hn <;> exact ⟨rfl,rfl⟩
  · unfold loopNext at hn
    split at hn <;> (try split at hn) <;> cases hn <;> exact ⟨rfl,rfl⟩
  · unfold acceptNext at hn
    split at hn <;> cases hn <;> exact ⟨rfl,rfl⟩
  · unfold drainNext at hn
    split at hn <;> (try split at hn) <;> cases hn <;> exact ⟨rfl,rfl⟩
  · unfold cleanupNext at hn
    split at hn <;> cases hn <;> exact ⟨rfl,rfl⟩

/-- Only a read leads to a delivery. -/
theorem next_deliver {fd : Fd} {bs : Bytes} {rest : List Fd}
    (hn : pc.next i r=some (j,.deliver fd bs rest,lines)) :
    pc=.read fd rest ∧ r=.data bs ∧ bs≠[] := by
  rcases next_cases hn with hn|hn|hn|hn|hn|hn
  · unfold setupNext bail at hn
    split at hn <;> (try cases hn)
    split at hn <;> cases hn
  · unfold flagsNext blockingFailed bail at hn
    split at hn <;> (try split at hn) <;> cases hn
  · unfold loopNext at hn
    split at hn <;> (try split at hn) <;> cases hn
  · unfold acceptNext at hn
    split at hn <;> cases hn
  · cases pc with
    | read x xs =>
      cases r with
      | data b =>
        simp only [drainNext] at hn
        split at hn
        · cases hn
        · rename_i hb
          split at hn <;> cases hn
          exact ⟨rfl,rfl,hb⟩
      | fail e =>
        simp only [drainNext] at hn
        split at hn <;> cases hn
      | _ => cases hn
    | deliver | delClient | closeClient => cases r <;> cases hn
    | _ => cases hn
  · unfold cleanupNext at hn
    split at hn <;> cases hn

/-- Two connections are never open under one number. -/
theorem one_connection (hw : k.Wf) {t : Trace} (hf : ∀ c,(k.conns c).fd=openAs c t) {fd : Fd}
    {c : ConnId} {f : Nat} (hc : k.table fd=some (.conn c f)) :
    openAs c t=some fd ∧ ∀ d,openAs d t=some fd → d=c := by
  obtain ⟨own,alone⟩ := sole_connection hw hc
  exact ⟨(hf c).symm.trans own,fun d hd => alone d ((hf d).trans hd)⟩

/-- A step that neither reads nor delivers. -/
theorem silent_faithful {options : TcpOptions} {s : State} (h : Faithful options s)
    (hk : s.kernel.answer (s.pc.call s.impl) r=some k')
    (hn : s.pc.next s.impl r=some (j,q,lines))
    (hb : Undisturbed ⟨j,q,k',lines++.call (s.pc.call s.impl) r::s.trace⟩)
    (hc : Call.transfers (s.pc.call s.impl)=false) :
    Faithful options ⟨j,q,k',lines++.call (s.pc.call s.impl) r::s.trace⟩ := by
  have logs := next_lines hn
  have pipes (d : ConnId) : (k'.conns d).pipe=(s.kernel.conns d).pipe := by
    rcases answer_pipe h.base.owned.wf hk d with heq|⟨fd,count,bs,f,hr,-⟩
    · exact heq
    · rw [hr] at hc
      cases hc
  have before (o : Option Fd) : s.pc.inhand o=[] := by
    cases hp : s.pc with
    | deliver fd bs rest =>
      rw [hp] at hc
      cases hc
    | _ => rfl
  have started (fd : Fd) (bs : Bytes) (rest : List Fd) : q≠.deliver fd bs rest := by
    intro e
    subst e
    obtain ⟨hp,-⟩ := next_deliver hn
    rw [hp] at hc
    cases hc
  have after (o : Option Fd) : q.inhand o=[] := by
    cases hq : q with
    | deliver fd bs rest => exact absurd hq (started fd bs rest)
    | _ => rfl
  have pay (d : ConnId) : payloads d (lines++.call (s.pc.call s.impl) r::s.trace)=
      payloads d s.trace :=
    (logs.skip (fun _ _ _ => rfl) _).trans (still hc d).1
  refine ⟨hb,?_,?_,?_,?_,?_,?_,?_,?_⟩
  · exact (next_callback hn).1.trans h.callback
  · exact (next_callback hn).2.trans h.kept
  · intro d
    have skip := logs.skip (f := openAs d) (fun _ _ _ => rfl)
      (.call (s.pc.call s.impl) r::s.trace)
    rw [skip]
    exact openAs_fd h.base.owned.wf (call_not_connect s.impl s.pc) hk h.fds d
  · intro d
    have bytes := h.bytes d
    rw [before,List.append_nil] at bytes
    rw [pay,after,List.append_nil,pipes,bytes]
  · exact fun fd bs rest e => absurd e (started fd bs rest)
  · intro d
    rw [pay]
    exact h.pieces d
  · intro d hd
    have skip := logs.skip (f := sawEnd d) (fun _ _ _ => rfl)
      (.call (s.pc.call s.impl) r::s.trace)
    rw [skip,(still hc d).2.1] at hd
    rw [pipes]
    exact ⟨(h.ended d hd).1,after _⟩
  · have skip := logs.skip (f := Attributed) (fun _ _ _ => rfl)
      (.call (s.pc.call s.impl) r::s.trace)
    rw [skip]
    exact (still hc 0).2.2.mpr h.attributed

/-- The data callback gets what was read, under the descriptor it came from. -/
theorem deliver_faithful {options : TcpOptions} {s : State} (h : Faithful options s) {fd : Fd}
    {bs : Bytes} {rest : List Fd} (hp : s.pc=.deliver fd bs rest)
    (hb : Undisturbed ⟨s.impl,.read fd rest,s.kernel,.call (.deliver fd bs) .ok::s.trace⟩) :
    Faithful options ⟨s.impl,.read fd rest,s.kernel,.call (.deliver fd bs) .ok::s.trace⟩ := by
  obtain ⟨c,f,hc⟩ := h.base.owned.shape.client fd (by rw [hp]; rfl)
  obtain ⟨own,alone⟩ := one_connection h.base.owned.wf h.fds hc
  refine ⟨hb,h.callback,h.kept,h.fds,?_,by simp,?_,fun d hd => ⟨(h.ended d hd).1,rfl⟩,?_⟩
  · intro d
    have bytes := h.bytes d
    rw [hp] at bytes
    show (payloads d (.call (.deliver fd bs) .ok::s.trace)).flatten++[]=_
    by_cases hd : openAs d s.trace=some fd
    · simpa [payloads,Pc.inhand,hd] using bytes
    · simpa [payloads,Pc.inhand,hd] using bytes
  · intro d b hm
    by_cases hd : openAs d s.trace=some fd
    · simp only [payloads,hd,if_true,List.mem_append,List.mem_singleton] at hm
      rcases hm with hm|rfl
      · exact h.pieces d b hm
      · exact h.chunk fd b rest hp
    · simp only [payloads,hd,if_false] at hm
      exact h.pieces d b hm
  · exact ⟨⟨c,own,alone⟩,h.attributed⟩

/-- A read takes the front of the stream, finds its end, or changes nothing. -/
theorem read_faithful {options : TcpOptions} (ho : 0<options.bufferSize) {s : State}
    (h : Faithful options s) {fd : Fd} {rest : List Fd} (hp : s.pc=.read fd rest)
    (hk : s.kernel.answer (.read fd options.bufferSize) r=some k')
    (hn : drainNext s.impl (.read fd rest) r=some (j,q,lines))
    (hb : Undisturbed ⟨j,q,k',lines++.call (.read fd options.bufferSize) r::s.trace⟩) :
    Faithful options ⟨j,q,k',lines++.call (.read fd options.bufferSize) r::s.trace⟩ := by
  obtain ⟨c,f,hc⟩ := h.base.owned.shape.client fd (by rw [hp]; rfl)
  obtain ⟨own,alone⟩ := one_connection h.base.owned.wf h.fds hc
  have before (o : Option Fd) : s.pc.inhand o=[] := by rw [hp]; rfl
  have bytes (d : ConnId) : (payloads d s.trace).flatten=(s.kernel.conns d).pipe.taken := by
    simpa only [before,List.append_nil] using h.bytes d
  -- a read that takes nothing leaves every stream as it was
  have quiet {t : Trace} (hj : j=s.impl) (hkk : k'=s.kernel)
      (hq : ∀ x b l,q≠.deliver x b l) (hf : ∀ d,openAs d t=openAs d s.trace)
      (hpay : ∀ d,payloads d t=payloads d s.trace)
      (hend : ∀ d,sawEnd d t=true → (s.kernel.conns d).pipe.Complete)
      (hat : Attributed t) (hb : Undisturbed ⟨j,q,k',t⟩) : Faithful options ⟨j,q,k',t⟩ := by
    have after (o : Option Fd) : q.inhand o=[] := by
      cases hq' : q with
      | deliver x b l => exact absurd hq' (hq x b l)
      | _ => rfl
    subst hj hkk
    refine ⟨hb,h.callback,h.kept,?_,?_,fun x b l e => absurd e (hq x b l),?_,
      fun d hd => ⟨hend d hd,after _⟩,hat⟩
    · exact fun d => (h.fds d).trans (hf d).symm
    · intro d
      rw [hpay,after,List.append_nil,bytes]
    · intro d
      rw [hpay]
      exact h.pieces d
  have logs : Logs lines := next_lines (show Pc.next s.impl (.read fd rest) r=_ from hn)
  have skip {α : Type} {g : Trace → α} (hg : ∀ a b t,g (.log a b::t)=g t) :=
    logs.skip hg (.call (.read fd options.bufferSize) r::s.trace)
  rcases answerRead_cases hc hk with ⟨bs,rfl,hne,hl,p,htake,rfl⟩|⟨rfl,hkk,hend⟩|⟨e,rfl,hkk,-⟩
  · simp only [drainNext,if_neg hne,h.callback,if_true] at hn
    cases hn
    obtain ⟨-,-,htaken,-,-,-,-⟩ := Pipe.take_spec _ p bs htake
    refine ⟨hb,h.callback,h.kept,?_,?_,?_,h.pieces,?_,h.attributed⟩
    · exact fun d => (setPipe_fd c d p).trans (h.fds d)
    · intro d
      show (payloads d s.trace).flatten++(if openAs d s.trace=some fd then bs else [])=_
      rw [setPipe_pipe,bytes]
      by_cases hd : d=c
      · subst d
        simp [own,htaken]
      · have other : openAs d s.trace≠some fd := fun e => hd (alone d e)
        simp [hd,other]
    · intro x b l e
      cases e
      exact ⟨hne,hl⟩
    · intro d hd
      rw [setPipe_pipe]
      have hd : sawEnd d s.trace=true := by
        cases bs with
        | nil => exact absurd rfl hne
        | cons b bs => exact hd
      by_cases hdc : d=c
      · subst d
        have full := (h.ended c hd).1
        have after := full.grows (Pipe.take_grows htake)
        have grown := after.2.trans ((Pipe.take_grows htake).closed full.1).2
        rw [htaken,← full.2] at grown
        exact absurd (List.append_right_eq_self.mp grown) hne
      · have other : openAs d s.trace≠some fd := fun e => hdc (alone d e)
        rw [if_neg hdc]
        exact ⟨(h.ended d hd).1,if_neg other⟩
  · obtain ⟨hu,hfin⟩ := hend ho
    have hjq : j=s.impl ∧ q=.delClient fd rest := by
      simp only [drainNext] at hn
      cases hn
      exact ⟨rfl,rfl⟩
    apply quiet hjq.1 hkk _ _ _ _ _ hb
    · rw [hjq.2]
      simp
    · exact fun d => skip (g := openAs d) fun _ _ _ => rfl
    · exact fun d => skip (g := payloads d) fun _ _ _ => rfl
    · intro d hd
      rw [skip (g := sawEnd d) fun _ _ _ => rfl] at hd
      have hd : (decide (openAs d s.trace=some fd) || sawEnd d s.trace)=true := hd
      rcases Bool.or_eq_true _ _ ▸ hd with hd|hd
      · rw [alone d (of_decide_eq_true hd)]
        exact Pipe.complete_of_end _ hfin hu
      · exact (h.ended d hd).1
    · rw [skip (g := Attributed) fun _ _ _ => rfl]
      exact h.attributed
  · have hjq : j=s.impl ∧ ∀ x b l,q≠.deliver x b l := by
      simp only [drainNext] at hn
      split at hn <;> cases hn <;> exact ⟨rfl,by simp⟩
    apply quiet hjq.1 hkk hjq.2 _ _ _ _ hb
    · exact fun d => skip (g := openAs d) fun _ _ _ => rfl
    · exact fun d => skip (g := payloads d) fun _ _ _ => rfl
    · intro d hd
      rw [skip (g := sawEnd d) fun _ _ _ => rfl] at hd
      exact (h.ended d hd).1
    · rw [skip (g := Attributed) fun _ _ _ => rfl]
      exact h.attributed

end steps

theorem reactor_faithful {options : TcpOptions} (ho : 0<options.bufferSize) {s t : State}
    {r : Reply} (h : Faithful options s) (hb : Undisturbed t) (hs : s.reactor r=some t) :
    Faithful options t := by
  obtain ⟨k,i,pc,lines,hk,hn,rfl⟩ := reactor_cases hs
  by_cases hc : Call.transfers (s.pc.call s.impl)=false
  · exact silent_faithful h hk hn hb hc
  · cases hp : s.pc with
    | read fd rest =>
      rw [hp] at hk hn hb
      simp only [Pc.call,h.kept] at hk hb ⊢
      exact read_faithful ho h hp hk hn hb
    | deliver fd bs rest =>
      rw [hp] at hk hn hb
      cases r with
      | ok =>
        cases hk
        cases hn
        exact deliver_faithful h hp hb
      | _ => cases hn
    | cleanup stage code =>
      rw [hp] at hc
      exact absurd (by cases stage <;> rfl) hc
    | _ =>
      rw [hp] at hc
      exact absurd rfl hc

theorem step_faithful {options : TcpOptions} (ho : 0<options.bufferSize) (s : State) (a : Action)
    (t : State) (h : Faithful options s) (ha : a.isStop=false) (hs : machine.step s a=some t) :
    Faithful options t := by
  have hb := step_undisturbed s a t h.base ha hs
  cases a with
  | reactor r => exact reactor_faithful ho h hb hs
  | env e =>
    obtain ⟨k,hk,rfl⟩ := Option.map_eq_some_iff.mp hs
    have pipe (d : ConnId) := env_pipe h.base.owned.wf e hk d
    refine ⟨hb,h.callback,h.kept,?_,?_,h.chunk,h.pieces,?_,h.attributed⟩
    · exact fun d => (pipe d).2.2.trans (h.fds d)
    · exact fun d => (h.bytes d).trans (pipe d).2.1.symm
    · exact fun d hd => ⟨(h.ended d hd).1.grows (pipe d).1,(h.ended d hd).2⟩
  | stop nested => cases ha

section runs

variable (port : Int) (options : TcpOptions) (loggerCb : Bool) (foreign : List Fd)

theorem boot_faithful : Faithful options (.boot port options loggerCb true foreign) where
  base := boot_undisturbed port options loggerCb true foreign
  callback := rfl
  kept := rfl
  fds := fun _ => rfl
  bytes := fun _ => rfl
  chunk := by simp [State.boot]
  pieces := by simp [State.boot,payloads]
  ended := by simp [State.boot,sawEnd]
  attributed := trivial

theorem run_faithful (hb : 1≤options.networkBufferSize) {as : List Action} {t : State}
    (hn : ∀ a∈as,a.isStop=false)
    (hr : machine.run (.boot port options loggerCb true foreign) as=some t) :
    Faithful options t := by
  have ho : 0<options.bufferSize := by
    unfold TcpOptions.bufferSize
    omega
  exact machine.invariant (step_faithful ho) as _ t (boot_faithful port options loggerCb foreign)
    (Machine.Meets.of_actions machine as hn _) hr

/-- What the data callback gets of a connection is at every moment the beginning
of what the peer sent, in non-empty pieces that fit the buffer, and all of it once
a read has returned 0. -/
theorem stream_fidelity (hb : 1≤options.networkBufferSize) (as : List Action) (t : State)
    (hn : ∀ a∈as,a.isStop=false)
    (hr : machine.run (.boot port options loggerCb true foreign) as=some t) :
    (∀ c,(payloads c t.trace).flatten<+:(t.kernel.conns c).pipe.sent) ∧
    (∀ c,∀ bs∈payloads c t.trace,bs≠[] ∧ (bs.length : Int)≤options.networkBufferSize) ∧
    (∀ c,sawEnd c t.trace=true → (t.kernel.conns c).pipe.closed=true ∧
      (payloads c t.trace).flatten=(t.kernel.conns c).pipe.sent) ∧
    Attributed t.trace := by
  have h := run_faithful port options loggerCb foreign hb hn hr
  have part (c : ConnId) : (payloads c t.trace).flatten<+:(t.kernel.conns c).pipe.taken :=
    ⟨_,h.bytes c⟩
  refine ⟨?_,?_,?_,h.attributed⟩
  · exact fun c => (part c).trans (t.kernel.conns c).pipe.taken_prefix
  · intro c bs hm
    obtain ⟨hne,hl⟩ := h.pieces c bs hm
    unfold TcpOptions.bufferSize at hl
    exact ⟨hne,by omega⟩
  · exact fun c hc => ⟨(h.ended c hc).1.1,h.all_given hc⟩

theorem stream_fidelity_one_client : ∃ t,
    machine.run (.boot 8080 {} false true []) (stopPending.take 30)=some t ∧
    payloads 0 t.trace=[[65]] ∧
    ∀ c,(payloads c t.trace).flatten<+:(t.kernel.conns c).pipe.sent := by
  have run : (machine.run (.boot 8080 {} false true []) (stopPending.take 30)).map (fun t =>
      payloads 0 t.trace)=some [[65]] := by
    decide +kernel
  obtain ⟨t,ht,hp⟩ := Option.map_eq_some_iff.mp run
  exact ⟨t,ht,hp,(stream_fidelity 8080 {} false [] (by decide) _ t (by decide +kernel) ht).1⟩

end runs

end TuyulNet.Server
