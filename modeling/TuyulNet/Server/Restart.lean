import TuyulNet.Server.Release

namespace TuyulNet.Server

open Framework Kernel

/-- A `TcpServer` with any number of threads inside `start`, each at a program point of
its own. -/
structure Host where
  impl : Impl
  starts : List Pc
  kernel : Kernel
  trace : Trace

namespace Host

def boot (port : Int) (options : TcpOptions) (loggerCb dataCb : Bool) (foreign : List Fd) :
    Host where
  impl := { port,options,loggerCb,dataCb }
  starts := []
  kernel := .boot foreign
  trace := []

/-- What a thread inside `start` sees of the server. -/
def view (h : Host) (pc : Pc) : State := ⟨h.impl,pc,h.kernel,h.trace⟩

/-- `start` is called once more; the trace is that of the new call. -/
def again (h : Host) : State := ⟨h.impl,.socket,h.kernel,[]⟩

inductive Action
  | enter
  | turn (n : Nat) (r : Reply)
  | stop (nested : Nat)
  | env (e : Kernel.Env)

/-- The thread `n` takes the reply `r` to the call at its program point. -/
def turn (h : Host) (n : Nat) (r : Reply) : Option Host :=
  h.starts[n]?.bind fun pc => ((h.view pc).reactor r).map fun s =>
    ⟨s.impl,h.starts.set n s.pc,s.kernel,s.trace⟩

def step (h : Host) : Action → Option Host
  | .enter => some { h with starts := h.starts++[.socket] }
  | .turn n r => h.turn n r
  | .stop nested =>
    let s := (h.view .threw).stop nested
    some ⟨s.impl,h.starts,s.kernel,s.trace⟩
  | .env e => (h.kernel.env e).map fun k => { h with kernel := k }

def machine : Machine Host Action := ⟨step⟩

end Host

/-- A descriptor field holds a descriptor or -1. -/
def Impl.Marked (i : Impl) : Prop :=
  (i.serverFd=-1 ∨ 0 ≤ i.serverFd) ∧ (i.epollFd=-1 ∨ 0 ≤ i.epollFd)

section fields

variable {i j : Impl} {pc q : Pc} {k l : Kernel} {r : Reply} {lines : Trace}

theorem next_marked (h : i.Marked) (hk : k.answer (pc.call i) r=some l)
    (hn : pc.next i r=some (j,q,lines)) : j.Marked := by
  rcases next_cases hn with hn|hn|hn|hn|hn|hn
  · cases pc with
    | socket =>
      rcases answerOpen_cases (show k.answerOpen (.sock 0) r=some l from hk) with
        ⟨n,rfl,fresh,-⟩|⟨e,rfl,-⟩ <;> cases hn
      · exact ⟨.inr ((k.fresh_iff n).mp fresh).1,h.2⟩
      · exact ⟨.inl rfl,h.2⟩
    | epollCreate =>
      rcases answerEpollCreate_cases (show k.answerEpollCreate r=some l from hk) with
        ⟨n,rfl,fresh,-⟩|⟨e,rfl,-⟩ <;> cases hn
      · exact ⟨h.1,.inr ((k.fresh_iff n).mp fresh).1⟩
      · exact ⟨h.1,.inl rfl⟩
    | _ => cases r <;> cases hn <;> exact h
  · unfold flagsNext blockingFailed bail at hn
    split at hn <;> (try split at hn) <;> cases hn <;> exact h
  · unfold loopNext at hn
    split at hn <;> (try split at hn) <;> cases hn <;> exact h
  · unfold acceptNext at hn
    split at hn <;> cases hn <;> exact h
  · unfold drainNext at hn
    split at hn <;> (try split at hn) <;> cases hn <;> exact h
  · unfold cleanupNext at hn
    split at hn <;> cases hn <;> first
      | exact h
      | exact ⟨h.1,.inl rfl⟩
      | exact ⟨.inl rfl,h.2⟩

theorem stop_marked (h : i.Marked) (nested : Nat) : (i.stop nested).1.Marked := by
  unfold Impl.stop
  split
  · rw [cleanup_impl]
    constructor
    · by_cases hs : 0 ≤ i.serverFd
      · simp [hs]
      · simpa [hs] using h.1
    · by_cases he : 0 ≤ i.epollFd
      · simp [he]
      · simpa [he] using h.2
  · exact h

end fields

namespace Host

variable {h g : Host}

theorem turn_cases {n : Nat} {r : Reply} (ht : h.turn n r=some g) :
    ∃ pc s,h.starts[n]?=some pc ∧ (h.view pc).reactor r=some s ∧
      g=⟨s.impl,h.starts.set n s.pc,s.kernel,s.trace⟩ := by
  obtain ⟨pc,hp,ht⟩ := Option.bind_eq_some_iff.mp ht
  obtain ⟨s,hs,rfl⟩ := Option.map_eq_some_iff.mp ht
  exact ⟨pc,s,hp,hs,rfl⟩

theorem step_marked (h : Host) (a : Action) (g : Host) (hi : h.kernel.Wf ∧ h.impl.Marked)
    (hs : machine.step h a=some g) : g.kernel.Wf ∧ g.impl.Marked := by
  cases a with
  | enter =>
    cases hs
    exact hi
  | turn n r =>
    obtain ⟨pc,s,-,ht,rfl⟩ := turn_cases hs
    obtain ⟨k,i,q,lines,hk,hn,rfl⟩ := reactor_cases ht
    exact ⟨answer_wf hi.1 _ r hk,next_marked hi.2 hk hn⟩
  | stop nested =>
    cases hs
    refine ⟨?_,stop_marked hi.2 nested⟩
    show (((h.impl.stop nested).2).foldl Effect.apply _).1.Wf
    rw [effects_kernel]
    exact closes_wf hi.1 _
  | env e =>
    obtain ⟨k,hk,rfl⟩ := Option.map_eq_some_iff.mp hs
    exact ⟨env_wf hi.1 e hk,hi.2⟩

end Host

/-- The setup has succeeded, or it went wrong in no way that `start` reports. -/
def Pc.late : Pc → Bool
  | .socket | .setsockopt | .getFl _ .setup | .setFl _ _ .setup | .bind | .listen
  | .epollCreate | .epollAdd => false
  | .cleanup _ code | .returned code => code=.success
  | _ => true

section second

variable {i j : Impl} {pc q : Pc} {k l : Kernel} {r : Reply} {lines : Trace} {s t : State}

theorem next_late (hp : pc.late=true) (hn : pc.next i r=some (j,q,lines)) : q.late=true := by
  rcases next_cases hn with hn|hn|hn|hn|hn|hn
  · unfold setupNext bail at hn
    split at hn <;> cases hn <;> (try split) <;> first
      | rfl
      | cases hp
  · cases pc with
    | getFl fd caller | setFl fd flags caller =>
      cases caller with
      | setup => cases hp
      | client rest => cases r <;> cases hn <;> rfl
    | _ => cases hn
  · unfold loopNext at hn
    split at hn <;> (try split at hn) <;> cases hn <;> rfl
  · unfold acceptNext at hn
    split at hn <;> cases hn <;> rfl
  · unfold drainNext at hn
    split at hn <;> (try split at hn) <;> cases hn <;> (try split) <;> rfl
  · unfold cleanupNext at hn
    split at hn <;> cases hn <;> exact hp

/-- A new call of `start` that has its socket can still be undone: it has changed only
what it has opened, and it knows where that is. `k` is the kernel of its beginning. -/
structure Reversible (k : Kernel) (s : State) : Prop where
  wf : s.kernel.Wf
  kept : ∀ x f,k.table x=some f → s.kernel.table x=some f
  news : ∀ x,.acquire x∈ledger s.trace →
    x=s.impl.serverFd ∨ x=s.impl.epollFd ∨ s.kernel.table x=none
  fields : k.table s.impl.serverFd=none ∧ k.table s.impl.epollFd=none
  bare : s.pc.bare=true → s.impl.epollFd=-1
  master : ∀ fd flags,s.pc=.getFl fd .setup ∨ s.pc=.setFl fd flags .setup → fd=s.impl.serverFd
  stale : (s.pc.staleServer=true → s.kernel.table s.impl.serverFd=none) ∧
    (s.pc.staleEpoll=true → s.kernel.table s.impl.epollFd=none)

/-- Calls that neither open nor close a descriptor change what they name at most. -/
theorem answer_names {c : Call} (hc : c.steady=true) (hk : k.answer c r=some l) {x : Fd}
    (hx : x∉c.names) : l.table x=k.table x := by
  cases answer_answers hk with
  | same | epollAdd | epollDel | harvest | read | write => rfl
  | setFlags | listen =>
    simp only [Call.names,List.mem_singleton] at hx
    simp [hx]
  | _ => cases hc

theorem acquire_touches (x : Fd) (fds : List Fd) : .acquire x∉touches fds := by
  simp [touches]

theorem Reversible.calm {c : Call} (h : Reversible k s) (hc : c.steady=true)
    (hk : s.kernel.answer c r=some t.kernel) (hl : ledger t.trace=c.entries r++ledger s.trace)
    (hn : ∀ x∈c.names,x=s.impl.serverFd ∨ x=s.impl.epollFd) (hi : t.impl=s.impl)
    (bare : t.pc.bare=true → s.pc.bare=true)
    (master : ∀ fd flags,t.pc=.getFl fd .setup ∨ t.pc=.setFl fd flags .setup →
      fd=s.impl.serverFd)
    (stale : t.pc.staleServer=false ∧ t.pc.staleEpoll=false) : Reversible k t where
  wf := answer_wf h.wf c r hk
  kept := by
    intro x f hf
    rw [answer_names hc hk]
    · exact h.kept x f hf
    · intro hx
      rcases hn x hx with rfl|rfl
      · rw [h.fields.1] at hf
        cases hf
      · rw [h.fields.2] at hf
        cases hf
  news := by
    intro x hx
    rw [hl,steady_entries hc,List.mem_append] at hx
    rw [hi]
    rcases h.news x (hx.resolve_left (acquire_touches x _)) with hs|he|gone
    · exact .inl hs
    · exact .inr (.inl he)
    · by_cases hm : x∈c.names
      · exact (hn x hm).imp_right .inl
      · exact .inr (.inr ((answer_names hc hk hm).trans gone))
  fields := hi ▸ h.fields
  bare := by
    rw [hi]
    exact fun hb => h.bare (bare hb)
  master := by
    rw [hi]
    exact master
  stale := by simp [stale]

theorem reactor_parts (hs : s.reactor r=some t) :
    s.kernel.answer (s.pc.call s.impl) r=some t.kernel ∧
    (∃ lines,s.pc.next s.impl r=some (t.impl,t.pc,lines)) ∧
    ledger t.trace=(s.pc.call s.impl).entries r++ledger s.trace := by
  have hl := reactor_ledger hs
  obtain ⟨k,i,q,lines,hk,hn,rfl⟩ := reactor_cases hs
  exact ⟨hk,⟨lines,hn⟩,hl⟩

/-- `epoll_create1` of the new call. -/
theorem Reversible.epoll (h : Reversible k s) (hb : s.pc=.epollCreate) (hk0 : k.Wf)
    (hs : s.reactor r=some t) : Reversible k t := by
  obtain ⟨hk,⟨lines,hn⟩,hl⟩ := reactor_parts hs
  obtain ⟨i,q,l,trace⟩ := t
  rw [hb] at hk hl hn
  have unset := h.bare (by rw [hb]; rfl)
  rcases answerEpollCreate_cases (show s.kernel.answerEpollCreate r=some l from hk) with
    ⟨n,rfl,fresh,rfl⟩|⟨e,rfl,rfl⟩ <;> cases hn
  · obtain ⟨nonneg,free⟩ := (s.kernel.fresh_iff n).mp fresh
    have old : k.table n=none := by
      by_contra hn
      obtain ⟨f,hf⟩ := Option.ne_none_iff_exists'.mp hn
      rw [h.kept n f hf] at free
      cases free
    refine ⟨answer_wf h.wf _ _ hk,?_,?_,⟨h.fields.1,old⟩,by simp [Pc.bare],by simp,
      by simp [Pc.staleServer,Pc.staleEpoll]⟩
    · intro x f hf
      have ne : x≠n := by
        rintro rfl
        rw [old] at hf
        cases hf
      simpa [ne] using h.kept x f hf
    · intro x hx
      by_cases hxn : x=n
      · exact .inr (.inl hxn)
      · have stays : ({ s.kernel.install n .epoll with
            polls := Function.update s.kernel.polls n .empty } : Kernel).table x=
              s.kernel.table x := by simp [hxn]
        rw [hl] at hx
        rcases h.news x (by simpa [Pc.call,Call.entries,hxn] using hx) with hs|he|gone
        · exact .inl hs
        · rw [he,unset] at stays ⊢
          exact .inr (.inr (stays.trans h.wf.minus_one))
        · exact .inr (.inr (stays.trans gone))
  · refine ⟨h.wf,h.kept,?_,⟨h.fields.1,hk0.minus_one⟩,by simp [Pc.bare],by simp,
      by simp [Pc.staleServer,Pc.staleEpoll]⟩
    intro x hx
    rw [hl] at hx
    have same := h.news x (by simpa [Pc.call,Call.entries,touches,Call.names] using hx)
    rw [unset] at same
    exact same

/-- `cleanup` of the new call closes what the fields name. -/
theorem Reversible.cleans (h : Reversible k s) (hk0 : k.Wf) {stage : Cleanup} {code : ErrorCode}
    (hp : s.pc=.cleanup stage code) (hs : s.reactor r=some t) : Reversible k t := by
  obtain ⟨hk,⟨lines,hn⟩,hl⟩ := reactor_parts hs
  obtain ⟨i,q,l,trace⟩ := t
  rw [hp] at hk hl hn
  have closes {fd : Fd} (hx : fd=s.impl.serverFd ∨ fd=s.impl.epollFd)
      (hk : s.kernel.answer (.close fd) r=some l) (hi : i=s.impl)
      (hl : ledger trace=(Call.close fd).entries r++ledger s.trace)
      (hq : q.bare=false ∧ ∀ fd caller,q≠.getFl fd caller ∧ ∀ n,q≠.setFl fd n caller)
      (stale : (q.staleServer=true → fd=s.impl.serverFd) ∧
        (q.staleEpoll=true → fd=s.impl.epollFd)) :
      Reversible k ⟨i,q,l,trace⟩ := by
    have table := (answer_close h.wf hk).1
    refine ⟨answer_wf h.wf _ r hk,?_,?_,hi ▸ h.fields,by simp [hq.1],?_,?_,?_⟩
    · intro x f hf
      have ne : x≠fd := by
        rintro rfl
        rcases hx with rfl|rfl
        · rw [h.fields.1] at hf
          cases hf
        · rw [h.fields.2] at hf
          cases hf
      rw [table,if_neg ne]
      exact h.kept x f hf
    · intro x hm
      have older : .acquire x∈ledger s.trace := by
        rw [hl,List.mem_append] at hm
        refine hm.resolve_left ?_
        simp only [Call.entries]
        split <;> simp
      rw [hi]
      rcases h.news x older with hs|he|gone
      · exact .inl hs
      · exact .inr (.inl he)
      · refine .inr (.inr ?_)
        rw [table]
        split
        · rfl
        · exact gone
    · rintro x flags (e|e)
      · exact absurd e (hq.2 x .setup).1
      · exact absurd e ((hq.2 x .setup).2 flags)
    · intro hq
      show l.table i.serverFd=none
      rw [hi,table,if_pos (stale.1 hq).symm]
    · intro hq
      show l.table i.epollFd=none
      rw [hi,table,if_pos (stale.2 hq).symm]
  cases stage with
  | testEpoll =>
    cases r <;> cases hn
    apply h.calm (c := .internal) rfl hk hl (by simp [Call.names]) rfl <;> split <;>
      simp [Pc.bare,Pc.staleServer,Pc.staleEpoll]
  | testServer =>
    cases r <;> cases hn
    apply h.calm (c := .internal) rfl hk hl (by simp [Call.names]) rfl <;> split <;>
      simp [Pc.bare,Pc.staleServer,Pc.staleEpoll]
  | closeEpoll =>
    have next : i=s.impl ∧ q=.cleanup .clearEpoll code := by
      cases r <;> cases hn <;> exact ⟨rfl,rfl⟩
    obtain ⟨rfl,rfl⟩ := next
    exact closes (.inr rfl) hk rfl hl (by simp [Pc.bare]) (by simp [Pc.staleServer])
  | closeServer =>
    have next : i=s.impl ∧ q=.cleanup .clearServer code := by
      cases r <;> cases hn <;> exact ⟨rfl,rfl⟩
    obtain ⟨rfl,rfl⟩ := next
    exact closes (.inl rfl) hk rfl hl (by simp [Pc.bare]) (by simp [Pc.staleEpoll])
  | clearEpoll =>
    cases r <;> cases hn
    cases hk
    have same : ledger trace=ledger s.trace := hl
    have gone := h.stale.2 (by rw [hp]; rfl)
    refine ⟨h.wf,h.kept,?_,⟨h.fields.1,hk0.minus_one⟩,fun _ => rfl,by simp,
      by simp [Pc.staleServer,Pc.staleEpoll]⟩
    intro x hx
    rcases h.news x (same ▸ hx) with hs|he|hg
    · exact .inl hs
    · exact .inr (.inr (he ▸ gone))
    · exact .inr (.inr hg)
  | clearServer =>
    cases r <;> cases hn
    cases hk
    have same : ledger trace=ledger s.trace := hl
    have gone := h.stale.1 (by rw [hp]; rfl)
    refine ⟨h.wf,h.kept,?_,⟨hk0.minus_one,h.fields.2⟩,by simp [Pc.bare],by simp,
      by simp [Pc.staleServer,Pc.staleEpoll]⟩
    intro x hx
    rcases h.news x (same ▸ hx) with hs|he|hg
    · exact .inr (.inr (hs ▸ gone))
    · exact .inr (.inl he)
    · exact .inr (.inr hg)
  | finish =>
    cases r <;> cases hn
    cases hk
    have same : ledger trace=ledger s.trace := hl
    exact ⟨h.wf,h.kept,fun x hx => h.news x (same ▸ hx),h.fields,by simp [Pc.bare],by simp,
      by simp [Pc.staleServer,Pc.staleEpoll]⟩

theorem next_entered (hn : pc.next i r=some (j,q,lines)) : q≠.socket := by
  rcases next_cases hn with hn|hn|hn|hn|hn|hn
  · unfold setupNext bail at hn
    split at hn <;> cases hn <;> (try split) <;> simp
  · unfold flagsNext blockingFailed bail at hn
    split at hn <;> (try split at hn) <;> cases hn <;> simp
  · unfold loopNext at hn
    split at hn <;> (try split at hn) <;> cases hn <;> simp
  · unfold acceptNext at hn
    split at hn <;> cases hn <;> simp
  · unfold drainNext at hn
    split at hn <;> (try split at hn) <;> cases hn <;> (try split) <;> simp
  · unfold cleanupNext at hn
    split at hn <;> cases hn <;> simp

theorem step_reversible (h : Reversible k s) (hk0 : k.Wf) (hp : s.pc≠.socket)
    (hs : s.reactor r=some t) : t.pc.late=true ∨ Reversible k t := by
  obtain ⟨hk,⟨lines,hn⟩,hl⟩ := reactor_parts hs
  by_cases late : s.pc.late=true
  · exact .inl (next_late late hn)
  · obtain ⟨i,q,l,trace⟩ := t
    have calm (hc : (s.pc.call s.impl).steady=true) (hi : i=s.impl)
        (names : ∀ x∈(s.pc.call s.impl).names,x=s.impl.serverFd ∨ x=s.impl.epollFd)
        (bare : q.bare=true → s.pc.bare=true)
        (master : ∀ fd flags,q=.getFl fd .setup ∨ q=.setFl fd flags .setup → fd=s.impl.serverFd)
        (stale : q.staleServer=false ∧ q.staleEpoll=false) :
        q.late=true ∨ Reversible k ⟨i,q,l,trace⟩ :=
      .inr (h.calm hc hk hl names hi bare master stale)
    cases hpc : s.pc with
    | socket => exact absurd hpc hp
    | setsockopt | bind | listen =>
      rw [hpc] at hn
      refine calm (by rw [hpc]; rfl) ?_ ?_ (by simp [hpc,Pc.bare]) ?_ ?_ <;>
        cases r <;> cases hn <;> simp [hpc,Pc.call,Call.names,Pc.staleServer,Pc.staleEpoll]
    | getFl fd caller =>
      cases caller with
      | client rest => simp [hpc,Pc.late] at late
      | setup =>
        have own := h.master fd 0 (.inl hpc)
        rw [hpc] at hn
        refine calm (by rw [hpc]; rfl) ?_ ?_ (by simp [hpc,Pc.bare]) ?_ ?_ <;>
          cases r <;> cases hn <;> simp [hpc,Pc.call,Call.names,Pc.staleServer,Pc.staleEpoll,own]
    | setFl fd flags caller =>
      cases caller with
      | client rest => simp [hpc,Pc.late] at late
      | setup =>
        have own := h.master fd flags (.inr hpc)
        rw [hpc] at hn
        refine calm (by rw [hpc]; rfl) ?_ ?_ (by simp [hpc,Pc.bare]) ?_ ?_ <;>
          cases r <;> cases hn <;> simp [hpc,Pc.call,Call.names,Pc.staleServer,Pc.staleEpoll,own]
    | epollCreate => exact .inr (h.epoll hpc hk0 hs)
    | epollAdd =>
      rw [hpc] at hn
      cases r <;> cases hn
      · exact .inl rfl
      · exact calm (by rw [hpc]; rfl) rfl (by simp [hpc,Pc.call,Call.names]) (by simp [Pc.bare])
          (by simp) ⟨rfl,rfl⟩
    | cleanup stage code => exact .inr (h.cleans hk0 hpc hs)
    | returned code =>
      rw [hpc] at hn
      cases hn
    | _ => simp [hpc,Pc.late] at late

/-- `start` returns from `cleanup`, if it has got its socket. -/
theorem next_returned {code : ErrorCode} (hp : pc≠.socket) (hn : pc.next i r=some (j,q,lines))
    (hq : q=.returned code) : j.isRunning=false := by
  rcases next_cases hn with hn|hn|hn|hn|hn|hn
  · unfold setupNext bail at hn
    split at hn <;> cases hn <;> (try split at hq) <;> cases hq
    exact absurd rfl hp
  · unfold flagsNext blockingFailed bail at hn
    split at hn <;> (try split at hn) <;> cases hn <;> cases hq
  · unfold loopNext at hn
    split at hn <;> (try split at hn) <;> cases hn <;> cases hq
  · unfold acceptNext at hn
    split at hn <;> cases hn <;> cases hq
  · unfold drainNext at hn
    split at hn <;> (try split at hn) <;> cases hn <;> (try split at hq) <;> cases hq
  · unfold cleanupNext at hn
    split at hn <;> cases hn <;> cases hq
    rfl

/-- What a call of `start` that has its socket leaves in the fields at the end. -/
structure Resets (s : State) : Prop where
  marked : s.impl.Marked
  cleared : Cleared s.impl s.pc
  halted : ∀ code,s.pc=.returned code → s.impl.isRunning=false
  entered : s.pc≠.socket

theorem step_resets (h : Resets s) (hs : s.reactor r=some t) : Resets t := by
  obtain ⟨hk,⟨lines,hn⟩,-⟩ := reactor_parts hs
  refine ⟨next_marked h.marked hk hn,?_,fun code => next_returned h.entered hn,next_entered hn⟩
  exact next_cleared h.marked (fun e => absurd e h.entered) h.cleared hn

end second

/-- The server is as it was, and the call of `start` that ended in `t` has kept nothing. -/
structure Restored (h : Host) (t : State) : Prop where
  server : t.impl.serverFd=h.impl.serverFd
  epoll : t.impl.epollFd=h.impl.epollFd
  running : t.impl.isRunning=h.impl.isRunning
  kept : ∀ x f,h.kernel.table x=some f → t.kernel.table x=some f
  closed : ∀ x,.acquire x∈ledger t.trace → t.kernel.table x=none

section runs

variable {h : Host} {s t : State} {r : Reply} {rs : List Reply} {code : ErrorCode}

theorem returned_stays (hs : s.pc=.returned code)
    (hr : machine.run s (rs.map .reactor)=some t) : t=s := by
  cases rs with
  | nil => exact (Option.some.inj hr).symm
  | cons r rs =>
    obtain ⟨u,hu,-⟩ := (machine.run_cons _ _ _ _).mp hr
    obtain ⟨-,⟨lines,hn⟩,-⟩ := reactor_parts hu
    rw [hs] at hn
    cases hn

/-- Without a socket nothing happens but `server_fd = -1`. -/
theorem no_socket {e : Errno} (ht : machine.run h.again ((.fail e::rs).map .reactor)=some t) :
    Restored h t ↔ h.impl.serverFd=-1 := by
  obtain ⟨u,hu,hr⟩ := (machine.run_cons _ _ _ _).mp ht
  obtain ⟨k,i,q,lines,hk,hn,rfl⟩ := reactor_cases (show h.again.reactor (.fail e)=some u from hu)
  cases hn
  obtain rfl := returned_stays rfl hr
  cases hk
  refine ⟨fun restored => restored.server.symm,fun unset => ?_⟩
  refine ⟨unset.symm,rfl,rfl,fun x f hf => hf,fun x hx => ?_⟩
  rw [(logs_log _ _ _).skip ledger_log] at hx
  simp [Host.again,Pc.call,Call.entries,touches,Call.names] at hx

/-- The steps of one thread, and nothing in between. -/
theorem run_alone {I : State → Prop} (step : ∀ s r t,I s → s.reactor r=some t → I t)
    (hi : I s) (hr : machine.run s (rs.map .reactor)=some t) : I t := by
  refine machine.invariant (C := fun _ a => a.isReactor=true) ?_ _ s t hi ?_ hr
  · intro s a t hi ha hs
    cases a with
    | reactor r => exact step s r t hi hs
    | _ => cases ha
  · exact Machine.Meets.of_actions machine _ (by simp [Action.isReactor]) s

/-- With a socket the fields are reset in the end, and everything else is undone if there
was nothing in them. -/
theorem with_socket {n : Fd} (hw : h.kernel.Wf) (hm : h.impl.Marked)
    (ht : machine.run h.again ((.fd n::rs).map .reactor)=some t) (hc : t.pc=.returned code)
    (failed : code≠.success) : Restored h t ↔
      h.impl.serverFd=-1 ∧ h.impl.epollFd=-1 ∧ h.impl.isRunning=false := by
  obtain ⟨u,hu,hr⟩ := (machine.run_cons _ _ _ _).mp ht
  obtain ⟨k,i,q,lines,hk,hn,rfl⟩ := reactor_cases (show h.again.reactor (.fd n)=some u from hu)
  cases hn
  rcases answerOpen_cases (show h.kernel.answerOpen (.sock 0) (.fd n)=some k from hk) with
    ⟨m,hm',fresh,rfl⟩|⟨e,hm',-⟩ <;> cases hm'
  obtain ⟨nonneg,free⟩ := (h.kernel.fresh_iff n).mp fresh
  have resets : Resets t := by
    refine run_alone (fun s r t => step_resets) ⟨⟨.inr nonneg,hm.2⟩,?_,by simp,by simp⟩ hr
    exact ⟨by simp [Pc.epollDone],by simp [Pc.serverDone]⟩
  have server : t.impl.serverFd=-1 := resets.cleared.server (by rw [hc]; rfl)
  have epoll : t.impl.epollFd=-1 := resets.cleared.epoll (by rw [hc]; rfl)
  have running := resets.halted code hc
  constructor
  · intro restored
    exact ⟨restored.server.symm.trans server,restored.epoll.symm.trans epoll,
      restored.running.symm.trans running⟩
  · rintro ⟨unset,unpolled,halted⟩
    have starts : Reversible h.kernel ⟨{ h.impl with serverFd := n },.setsockopt,
        h.kernel.install n (.sock 0),[.call .socket (.fd n)]⟩ := by
      refine ⟨answer_wf hw _ _ hk,?_,?_,⟨free,?_⟩,fun _ => unpolled,by simp,
        by simp [Pc.staleServer,Pc.staleEpoll]⟩
      · intro x f hf
        have ne : x≠n := by
          rintro rfl
          rw [free] at hf
          cases hf
        simp [ne,hf]
      · intro x hx
        exact .inl (by simpa [Call.entries] using hx)
      · show h.kernel.table h.impl.epollFd=none
        rw [unpolled]
        exact hw.minus_one
    have undone : t.pc≠.socket ∧ (t.pc.late=true ∨ Reversible h.kernel t) := by
      refine run_alone (I := fun s => s.pc≠.socket ∧ (s.pc.late=true ∨ Reversible h.kernel s)) ?_
        ⟨by simp,.inr starts⟩ hr
      rintro s r t ⟨entered,hs⟩ ht
      obtain ⟨-,⟨lines,hn⟩,-⟩ := reactor_parts ht
      refine ⟨next_entered hn,?_⟩
      rcases hs with late|undone
      · exact .inl (next_late late hn)
      · exact step_reversible undone hw entered ht
    have undone := undone.2.resolve_left (by simpa [hc,Pc.late] using failed)
    refine ⟨server.trans unset.symm,epoll.trans unpolled.symm,running.trans halted.symm,
      undone.kept,fun x hx => ?_⟩
    rcases undone.news x hx with rfl|rfl|gone
    · rw [server]
      exact undone.wf.minus_one
    · rw [epoll]
      exact undone.wf.minus_one
    · exact gone

end runs

/-- A call of `start` that returns an error, in whatever state it was called, leaves the
server as it was exactly when there was no server in the object, or nothing but an old
epoll set and flag, and no socket for the new one. -/
theorem failed_start_restores (port : Int) (options : TcpOptions) (loggerCb dataCb : Bool)
    (foreign : List Fd) {as : List Host.Action} {h : Host} {rs : List Reply} {t : State}
    {code : ErrorCode}
    (hr : Host.machine.run (.boot port options loggerCb dataCb foreign) as=some h)
    (ht : machine.run h.again (rs.map .reactor)=some t) (hc : t.pc=.returned code)
    (failed : code≠.success) : Restored h t ↔ h.impl.serverFd=-1 ∧
      ((∃ e,rs.head?=some (.fail e)) ∨ h.impl.epollFd=-1 ∧ h.impl.isRunning=false) := by
  obtain ⟨wf,marked⟩ := Host.machine.always Host.step_marked as _ h
    ⟨boot_wf foreign,.inl rfl,.inl rfl⟩ hr
  cases rs with
  | nil =>
    cases ht
    cases hc
  | cons r rs =>
    obtain ⟨u,hu,-⟩ := (machine.run_cons _ _ _ _).mp ht
    obtain ⟨hk,-,-⟩ := reactor_parts (show h.again.reactor r=some u from hu)
    rcases answerOpen_cases (show h.kernel.answerOpen (.sock 0) r=some u.kernel from hk) with
      ⟨n,rfl,-⟩|⟨e,rfl,-⟩
    · rw [with_socket wf marked ht hc failed]
      simp
    · rw [no_socket ht]
      simp

/-- The port is busy: `bind` fails with `EADDRINUSE`, and `cleanup` takes so many steps. -/
def portBusy (fd : Fd) (steps : Nat) : List Reply :=
  [.fd fd,.ok,.flags 0,.ok,.fail (.other 98)]++List.replicate steps .ok

/-- A first `start` comes up with socket 3 and epoll set 4, and enters its loop. -/
def servingHost : List Host.Action :=
  .enter::([.fd 3,.ok,.flags 0,.ok,.ok,.ok,.fd 4,.ok,.ok,.ok,.ok] : List Reply).map (.turn 0)

theorem failed_start_restores_port_busy : ∃ t,
    machine.run (Host.boot 8080 {} false true []).again ((portBusy 3 5).map .reactor)=some t ∧
    t.pc=.returned .bindFailed ∧ Restored (.boot 8080 {} false true []) t := by
  have run : (machine.run (Host.boot 8080 {} false true []).again
      ((portBusy 3 5).map .reactor)).map State.pc=some (.returned .bindFailed) := by
    decide +kernel
  obtain ⟨t,ht,hc⟩ := Option.map_eq_some_iff.mp run
  have idle :
      Host.machine.run (.boot 8080 {} false true []) []=some (.boot 8080 {} false true []) :=
    rfl
  exact ⟨t,ht,hc,(failed_start_restores 8080 {} false true [] idle ht hc (by decide)).mpr
    ⟨rfl,.inr ⟨rfl,rfl⟩⟩⟩

/-- A second `start` finds the port busy while the first one is in its loop: the epoll
set of the first one is closed, and `server_fd` and `is_running` are lost. -/
theorem second_start_destroys : ¬∀ port options loggerCb dataCb foreign as h (rs : List Reply)
    t code,Host.machine.run (.boot port options loggerCb dataCb foreign) as=some h →
    machine.run h.again (rs.map .reactor)=some t → t.pc=.returned code → code≠.success →
    Restored h t := by
  intro h
  have run : ((Host.machine.run (.boot 8080 {} false true []) servingHost).bind fun g =>
      (machine.run g.again ((portBusy 5 7).map .reactor)).map fun t =>
        (g.impl.isRunning,t.pc,t.impl.isRunning))=some (true,.returned .bindFailed,false) := by
    decide +kernel
  obtain ⟨g,hg,run⟩ := Option.bind_eq_some_iff.mp run
  obtain ⟨t,ht,heq⟩ := Option.map_eq_some_iff.mp run
  simp only [Prod.mk.injEq] at heq
  obtain ⟨before,hc,after⟩ := heq
  have same := (h _ _ _ _ _ _ g _ t _ hg ht hc (by decide)).running
  rw [before,after] at same
  cases same

end TuyulNet.Server
