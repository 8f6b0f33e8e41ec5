import TuyulNet.Server.Registration

namespace TuyulNet.Server

open Framework Kernel

/-- The loop-head test `while (is_running)` is about to succeed. -/
def State.loops (s : State) : Prop := s.pc=.loopHead ∧ s.impl.isRunning=true

/-- A run that cannot enter the loop again: either it is past `is_running = true`
and the flag is down, or the loop's vectors cannot be allocated. -/
def Halting (s : State) : Prop :=
  s.pc.setup=false ∧ s.impl.isRunning=false ∨
    s.impl.options.allocates=false ∧ (s.pc.setup=true ∨ s.pc.active=false ∨ s.pc=.allocate ∨
      s.pc=.threw)

section halting

variable {i j : Impl} {pc q : Pc} {r : Reply} {lines : Trace}

/-- Only the setup raises the flag, nothing returns to it, and nobody changes
the options. -/
theorem next_flag (hn : pc.next i r=some (j,q,lines)) :
    j.options=i.options ∧ (pc.setup=false → q.setup=false ∧
      (i.isRunning=false → j.isRunning=false)) := by
  rcases next_cases hn with hn|hn|hn|hn|hn|hn
  · unfold setupNext bail at hn
    split at hn <;> cases hn <;> (try split) <;> simp [Pc.setup]
  · cases pc with
    | getFl fd caller => cases caller <;> cases r <;> cases hn <;> simp [Pc.setup]
    | setFl fd flags caller => cases caller <;> cases r <;> cases hn <;> simp [Pc.setup]
    | _ => cases hn
  · unfold loopNext at hn
    split at hn <;> (try split at hn) <;> cases hn <;> simp [Pc.setup]
  · unfold acceptNext at hn
    split at hn <;> cases hn <;> simp [Pc.setup]
  · unfold drainNext at hn
    split at hn <;> (try split at hn) <;> cases hn <;> (try split) <;> simp [Pc.setup]
  · unfold cleanupNext at hn
    split at hn <;> cases hn <;> (try split) <;> simp [Pc.setup]

/-- Without its vectors `start` ends after the setup. -/
theorem next_throws (ho : i.options.allocates=false)
    (hp : pc.setup=true ∨ pc.active=false ∨ pc=.allocate ∨ pc=.threw)
    (hn : pc.next i r=some (j,q,lines)) :
    q.setup=true ∨ q.active=false ∨ q=.allocate ∨ q=.threw := by
  rcases next_cases hn with hn|hn|hn|hn|hn|hn
  · unfold setupNext bail at hn
    split at hn <;> cases hn <;> simp [Pc.setup,Pc.active,ho]
  · cases pc with
    | getFl fd caller =>
      cases caller <;> cases r <;> cases hn <;> simp_all [Pc.setup,Pc.active]
    | setFl fd flags caller =>
      cases caller <;> cases r <;> cases hn <;> simp_all [Pc.setup,Pc.active]
    | _ => cases hn
  · cases pc <;> simp_all [Pc.setup,Pc.active,loopNext]
  · cases pc <;> simp_all [Pc.setup,Pc.active,acceptNext]
  · cases pc <;> simp_all [Pc.setup,Pc.active,drainNext]
  · unfold cleanupNext at hn
    split at hn <;> cases hn <;> (try split) <;> simp [Pc.active]

/-- With its vectors nothing is thrown. -/
theorem next_caught (ho : i.options.allocates=true) (hn : pc.next i r=some (j,q,lines)) :
    q≠.threw := by
  rcases next_cases hn with hn|hn|hn|hn|hn|hn
  · unfold setupNext bail at hn
    split at hn <;> cases hn <;> simp [ho]
  · unfold flagsNext blockingFailed bail at hn
    split at hn <;> (try split at hn) <;> cases hn <;> simp
  · unfold loopNext at hn
    split at hn <;> (try split at hn) <;> cases hn <;> simp
  · unfold acceptNext at hn
    split at hn <;> cases hn <;> simp
  · unfold drainNext at hn
    split at hn <;> (try split at hn) <;> cases hn <;> simp
    split <;> simp
  · unfold cleanupNext at hn
    split at hn <;> cases hn <;> simp

theorem stop_flag (i : Impl) (nested : Nat) :
    (i.stop nested).1.isRunning=false ∧ (i.stop nested).1.options=i.options := by
  unfold Impl.stop
  split
  · rw [cleanup_impl]
    exact ⟨rfl,rfl⟩
  · rename_i hr
    exact ⟨by simpa using hr,rfl⟩

theorem step_halting (s : State) (a : Action) (t : State) (h : Halting s)
    (hs : machine.step s a=some t) : Halting t := by
  cases a with
  | reactor r =>
    obtain ⟨k,i,pc,lines,-,hn,rfl⟩ := reactor_cases hs
    obtain ⟨same,down⟩ := next_flag hn
    rcases h with ⟨hp,hr⟩|⟨ho,hp⟩
    · exact .inl ⟨(down hp).1,(down hp).2 hr⟩
    · exact .inr ⟨by rw [same,ho],next_throws ho hp hn⟩
  | env e =>
    obtain ⟨k,-,rfl⟩ := Option.map_eq_some_iff.mp hs
    exact h
  | stop nested =>
    cases hs
    obtain ⟨down,same⟩ := stop_flag s.impl nested
    rcases h with ⟨hp,hr⟩|⟨ho,hp⟩
    · exact .inl ⟨hp,down⟩
    · refine .inr ⟨?_,hp⟩
      show (s.impl.stop nested).1.options.allocates=false
      rw [same,ho]

theorem Halting.not_loops {s : State} (h : Halting s) : ¬s.loops := by
  rintro ⟨hp,hr⟩
  rcases h with ⟨-,hd⟩|⟨-,hq⟩
  · rw [hr] at hd
    cases hd
  · rw [hp] at hq
    rcases hq with hq|hq|hq|hq <;> cases hq

end halting

section setup

/-- While `start` is setting up, every stop so far has done nothing. -/
def Fresh (s : State) : Prop := s.pc.setup=true → Owned s ∧ Live s.impl s.pc

theorem step_fresh (s : State) (a : Action) (t : State) (h : Fresh s)
    (hs : machine.step s a=some t) : Fresh t := by
  intro hp
  cases a with
  | reactor r =>
    have before : s.pc.setup=true := by
      obtain ⟨k,i,pc,lines,-,hn,rfl⟩ := reactor_cases hs
      by_contra hc
      rw [((next_flag hn).2 (by simpa using hc)).1] at hp
      cases hp
    obtain ⟨owned,live⟩ := h before
    refine ⟨step_owned s (.reactor r) t owned trivial hs,?_⟩
    obtain ⟨k,i,pc,lines,hk,hn,rfl⟩ := reactor_cases hs
    exact next_live live hk hn
  | env e =>
    obtain ⟨k,hk,rfl⟩ := Option.map_eq_some_iff.mp hs
    obtain ⟨owned,live⟩ := h hp
    exact ⟨step_owned s (.env e) _ owned trivial hs,live⟩
  | stop nested =>
    cases hs
    obtain ⟨owned,live⟩ := h hp
    have idle := owned.shape.idle hp
    rw [stop_idle idle] at hp ⊢
    exact ⟨⟨owned.wf,owned.agrees,owned.shape⟩,live⟩

/-- Setup points still to be passed. -/
def Pc.ahead : Pc → Nat
  | .socket => 10
  | .setsockopt => 9
  | .getFl _ .setup => 8
  | .setFl _ _ .setup => 7
  | .bind => 6
  | .listen => 5
  | .epollCreate => 4
  | .epollAdd => 3
  | .setRunning => 2
  | .allocate => 1
  | _ => 0

theorem reactor_of {s : State} {r : Reply} {k : Kernel} {i : Impl} {pc : Pc} {lines : Trace}
    (hk : s.kernel.answer (s.pc.call s.impl) r=some k)
    (hn : s.pc.next s.impl r=some (i,pc,lines)) :
    machine.step s (.reactor r)=some ⟨i,pc,k,lines++.call (s.pc.call s.impl) r::s.trace⟩ := by
  show s.reactor r=_
  unfold State.reactor
  rw [hk,hn]

/-- Every setup step can succeed, and then the run is nearer to the loop. -/
theorem setup_advances {s : State} (h : Owned s) (hl : Live s.impl s.pc)
    (hp : s.pc.setup=true) : ∃ r t,machine.step s (.reactor r)=some t ∧
      t.impl.options=s.impl.options ∧ t.pc.ahead < s.pc.ahead ∧
      (t.pc.setup=true ∨ t.pc=.allocate ∧ t.impl.isRunning=true) := by
  obtain ⟨i,pc,k,trace⟩ := s
  simp only at hl hp
  obtain ⟨n,hf⟩ := exists_fresh h.wf
  have server (ha : pc.active=true) (hs : pc.staleServer=false) :
      ∃ f,k.table i.serverFd=some f ∧ File.master f=true := h.shape.server (hl.server ha) hs
  cases pc with
  | socket =>
    exact ⟨.fd n,_,reactor_of (if_pos hf) rfl,rfl,by simp [Pc.ahead],.inl rfl⟩
  | setsockopt =>
    obtain ⟨f,hf,-⟩ := server rfl rfl
    refine ⟨.ok,_,reactor_of (k := k) ?_ rfl,rfl,by simp [Pc.ahead],.inl rfl⟩
    simp [Pc.call,answer,answerUnit,hf]
  | bind =>
    obtain ⟨f,hf,-⟩ := server rfl rfl
    refine ⟨.ok,_,reactor_of (k := k) ?_ rfl,rfl,by simp [Pc.ahead],.inl rfl⟩
    simp [Pc.call,answer,answerUnit,hf]
  | getFl fd caller =>
    cases caller with
    | client rest => cases hp
    | setup =>
      obtain ⟨f,hf,-⟩ := server rfl rfl
      have master : fd=i.serverFd := h.shape.master fd 0 (.inl rfl)
      refine ⟨.flags f.flags,_,reactor_of (k := k) ?_ rfl,rfl,by simp [Pc.ahead],.inl rfl⟩
      simp [Pc.call,answer,master,hf,File.status]
  | setFl fd flags caller =>
    cases caller with
    | client rest => cases hp
    | setup =>
      obtain ⟨f,hf,-⟩ := server rfl rfl
      have master : fd=i.serverFd := h.shape.master fd flags (.inr rfl)
      refine ⟨.ok,_,reactor_of (k := k.install fd (f.withFlags (flags ||| oNonblock))) ?_ rfl,
        rfl,by simp [Pc.ahead],.inl rfl⟩
      simp [Pc.call,answer,answerUnit,master,hf]
  | listen =>
    obtain ⟨f,hf,hm⟩ := server rfl rfl
    have ok : k.answer (.listen i.serverFd) .ok=
        some (k.install i.serverFd (.listener f.flags)) := by
      cases f <;> simp_all [answer,answerUnit,File.flags,File.master]
    exact ⟨.ok,_,reactor_of ok rfl,rfl,by simp [Pc.ahead],.inl rfl⟩
  | epollCreate =>
    exact ⟨.fd n,_,reactor_of (if_pos hf) rfl,rfl,by simp [Pc.ahead],.inl rfl⟩
  | epollAdd =>
    obtain ⟨f,hf,-⟩ := server rfl rfl
    have epoll := h.shape.epoll (hl.epoll rfl rfl) rfl
    have unwatched := h.shape.unwatched rfl (by simp) i.epollFd i.serverFd
    refine ⟨.ok,_,reactor_of (k := k.register i.epollFd i.serverFd .level) ?_ rfl,rfl,
      by simp [Pc.ahead],.inl rfl⟩
    simp only [watch] at unwatched
    simp only at epoll
    simp [Pc.call,answer,answerUnit,hf,epoll,unwatched]
  | setRunning => exact ⟨.ok,_,reactor_of rfl rfl,rfl,by simp [Pc.ahead],.inr ⟨rfl,rfl⟩⟩
  | _ => cases hp

theorem setup_ahead {pc : Pc} (hp : pc.setup=true) : 0<pc.ahead := by
  cases pc with
  | getFl fd caller => cases caller <;> simp_all [Pc.setup,Pc.ahead]
  | setFl fd flags caller => cases caller <;> simp_all [Pc.setup,Pc.ahead]
  | _ => simp_all [Pc.setup,Pc.ahead]

/-- From every point of the setup the run can go on to where the vectors are allocated. -/
theorem setup_allocates (n : Nat) : ∀ s : State,s.pc.ahead≤n → Fresh s → s.pc.setup=true →
    ∃ as t,machine.run s as=some t ∧ t.pc=.allocate ∧ t.impl.isRunning=true ∧
      t.impl.options=s.impl.options := by
  induction n with
  | zero =>
    intro s hn _ hp
    have ahead := setup_ahead hp
    omega
  | succ n ih =>
    intro s hn hf hp
    obtain ⟨owned,live⟩ := hf hp
    obtain ⟨r,t,hs,options,nearer,next⟩ := setup_advances owned live hp
    rcases next with setup|⟨allocate,running⟩
    · obtain ⟨as,u,hr,here,running,kept⟩ := ih t (by omega) (step_fresh s _ t hf hs) setup
      exact ⟨.reactor r::as,u,(machine.run_cons s u _ as).mpr ⟨t,hs,hr⟩,here,running,
        kept.trans options⟩
    · exact ⟨[.reactor r],t,(machine.run_single _ _ _).mpr hs,allocate,running,options⟩

/-- The loop is entered, or the allocation throws. -/
theorem allocates_step {s : State} (hp : s.pc=.allocate) :
    ∃ t,machine.step s (.reactor .ok)=some t ∧
    t.impl=s.impl ∧ t.pc=if s.impl.options.allocates then .loopHead else .threw := by
  obtain ⟨i,pc,k,trace⟩ := s
  simp only at hp
  subst hp
  exact ⟨_,reactor_of (k := k) rfl rfl,rfl,rfl⟩

/-- From every point of the setup the run can go on into the loop. -/
theorem setup_reaches {s : State} (hf : Fresh s) (hp : s.pc.setup=true)
    (ho : s.impl.options.allocates=true) : ∃ as t,machine.run s as=some t ∧ t.loops := by
  obtain ⟨as,t,hr,here,running,kept⟩ := setup_allocates _ s le_rfl hf hp
  obtain ⟨u,hs,impl,pc⟩ := allocates_step here
  rw [kept,ho,if_pos rfl] at pc
  refine ⟨as++[.reactor .ok],u,(machine.run_append _ _ _ _).mpr ⟨t,hr,?_⟩,pc,impl ▸ running⟩
  exact (machine.run_single _ _ _).mpr hs

end setup

section runs

variable (port : Int) (options : TcpOptions) (loggerCb dataCb : Bool) (foreign : List Fd)

/-- What is known of every run, whatever stops it contains. -/
structure Entered (s : State) : Prop where
  kept : s.impl.options=options
  fresh : Fresh s
  halting : options.allocates=false → Halting s

theorem step_entered (s : State) (a : Action) (t : State) (h : Entered options s)
    (hs : machine.step s a=some t) : Entered options t where
  kept := by
    rw [← h.kept]
    cases a with
    | reactor r =>
      obtain ⟨k,i,pc,lines,-,hn,rfl⟩ := reactor_cases hs
      exact (next_flag hn).1
    | env e =>
      obtain ⟨k,-,rfl⟩ := Option.map_eq_some_iff.mp hs
      rfl
    | stop nested =>
      cases hs
      exact (stop_flag s.impl nested).2
  fresh := step_fresh s a t h.fresh hs
  halting := fun ho => step_halting s a t (h.halting ho) hs

theorem boot_entered : Entered options (.boot port options loggerCb dataCb foreign) where
  kept := rfl
  fresh := by
    have h := boot_undisturbed port options loggerCb dataCb foreign
    exact fun _ => ⟨h.owned,h.live⟩
  halting := fun ho => .inr ⟨ho,.inl rfl⟩

/-- A stop request takes effect for good exactly when it comes after
`is_running = true`, or when `start` cannot allocate its vectors anyway. -/
theorem stop_effective (as : List Action) (s : State) (nested : Nat)
    (hr : machine.run (.boot port options loggerCb dataCb foreign) as=some s) :
    (∀ later t,machine.run (s.stop nested) later=some t → ¬t.loops) ↔
      s.pc.setup=false ∨ options.allocates=false := by
  have h : Entered options s := machine.always (step_entered options) as _ s
    (boot_entered port options loggerCb dataCb foreign) hr
  constructor
  · intro never
    by_contra hc
    have setup : s.pc.setup=true := by
      by_contra hp
      exact hc (.inl (by simpa using hp))
    have allocates : options.allocates=true := by
      by_contra ho
      exact hc (.inr (by simpa using ho))
    have idle := (h.fresh setup).1.shape.idle setup
    have stopped := step_entered options s (.stop nested) _ h rfl
    obtain ⟨later,t,ht,loops⟩ := setup_reaches stopped.fresh (by rw [stop_idle idle]; exact setup)
      (by rw [stopped.kept,allocates])
    exact never later t ht loops
  · intro hc later t ht
    have halting : Halting (s.stop nested) := by
      rcases hc with hp|ho
      · exact .inl ⟨hp,(stop_flag s.impl nested).1⟩
      · exact step_halting s (.stop nested) _ (h.halting ho) rfl
    exact (machine.always step_halting later _ t halting ht).not_loops

end runs

/-- `stop()` during the first step of `start` is forgotten. -/
theorem early_stop_lost : ¬∀ as s nested later t,
    machine.run (.boot 8080 {} false true []) as=some s →
    machine.run (s.stop nested) later=some t → ¬t.loops := by
  intro h
  have run : (machine.run (State.stop (.boot 8080 {} false true []) 0) (oneClient.take 10)).map
      (fun t => (t.pc,t.impl.isRunning))=some (.loopHead,true) := by
    decide +kernel
  obtain ⟨t,ht,heq⟩ := Option.map_eq_some_iff.mp run
  obtain ⟨hp,running⟩ := Prod.mk.injEq .. ▸ heq
  exact h [] _ 0 (oneClient.take 10) t rfl ht ⟨hp,running⟩

theorem stop_effective_in_loop : ∃ s,
    machine.run (.boot 8080 {} false true []) (oneClient.take 10)=some s ∧
    ((∀ later t,machine.run (s.stop 0) later=some t → ¬t.loops) ↔
      s.pc.setup=false ∨ TcpOptions.allocates {}=false) := by
  have run : (machine.run (.boot 8080 {} false true []) (oneClient.take 10)).isSome=true := by
    decide +kernel
  obtain ⟨s,hs⟩ := Option.isSome_iff_exists.mp run
  exact ⟨s,hs,stop_effective 8080 {} false true [] _ s 0 hs⟩

end TuyulNet.Server
