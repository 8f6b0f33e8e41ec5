import TuyulNet.Server.Liveness

namespace TuyulNet.Server

open Framework Kernel

/-- `start` has returned, or an exception has left it. -/
def Pc.gone : Pc → Bool
  | .returned _ | .threw => true
  | _ => false

/-- The reactor comes to its next step as long as it is in `start`. In particular every
`epoll_wait` ends, as it does with a timeout. -/
def Scheduled (σ : Nat → State) (α : Nat → Action) : Prop :=
  ∀ n,(σ n).pc.gone=false → ∃ p≥n,(α p).isReactor=true

/-- Past `is_running = true`, and the flag is down. -/
def Halted (s : State) : Prop := s.pc.setup=false ∧ s.impl.isRunning=false

section steps

variable {i j : Impl} {pc q : Pc} {r : Reply} {lines : Trace} {s t : State} {a : Action}

/-- Only the head of the loop leads to `epoll_wait`, and only while the flag is up. -/
theorem next_asks (hn : pc.next i r=some (j,.epollWait,lines)) : i.isRunning=true := by
  rcases next_cases hn with hn|hn|hn|hn|hn|hn
  · unfold setupNext bail at hn
    split at hn <;> (try cases hn)
    split at hn <;> cases hn
  · unfold flagsNext blockingFailed bail at hn
    split at hn <;> (try split at hn) <;> cases hn
  · unfold loopNext at hn
    split at hn
    · by_contra down
      rw [if_neg down] at hn
      cases hn
    all_goals (try split at hn) <;> cases hn
  · unfold acceptNext at hn
    split at hn <;> cases hn
  · unfold drainNext at hn
    split at hn <;> (try split at hn) <;> (try split at hn) <;> cases hn
  · unfold cleanupNext at hn
    split at hn <;> cases hn

theorem step_halted (h : Halted s) (hs : machine.step s a=some t) : Halted t := by
  cases a with
  | reactor r =>
    obtain ⟨k,i,pc,lines,-,hn,rfl⟩ := reactor_cases hs
    obtain ⟨setup,down⟩ := (next_flag hn).2 h.1
    exact ⟨setup,down h.2⟩
  | env e =>
    obtain ⟨k,-,rfl⟩ := Option.map_eq_some_iff.mp hs
    exact h
  | stop nested =>
    cases hs
    exact ⟨h.1,(stop_flag s.impl nested).1⟩

/-- A `stop()` that finds the flag up lowers it for good. -/
theorem Owned.lowered {nested : Nat} (h : Owned s) (up : s.impl.isRunning=true)
    (hs : machine.step s (.stop nested)=some t) : Halted t := by
  have setup : s.pc.setup=false := by
    by_contra inside
    rw [h.shape.idle (by simpa using inside)] at up
    cases up
  cases hs
  exact ⟨setup,(stop_flag s.impl nested).1⟩

/-- The flag is raised by one statement, the last one of the setup. -/
theorem next_raises (hn : pc.next i r=some (j,q,lines)) (down : i.isRunning=false)
    (up : j.isRunning=true) : q=.allocate := by
  rcases next_cases hn with hn|hn|hn|hn|hn|hn
  · unfold setupNext bail at hn
    split at hn <;> cases hn <;> first
      | rfl
      | simp [down] at up
  · unfold flagsNext blockingFailed bail at hn
    split at hn <;> (try split at hn) <;> cases hn <;> simp [down] at up
  · unfold loopNext at hn
    split at hn <;> (try split at hn) <;> cases hn <;> simp [down] at up
  · unfold acceptNext at hn
    split at hn <;> cases hn <;> simp [down] at up
  · unfold drainNext at hn
    split at hn <;> (try split at hn) <;> cases hn <;> simp [down] at up
  · unfold cleanupNext at hn
    split at hn <;> cases hn <;> simp [down] at up

/-- As long as the flag is up, the only code to return is `SUCCESS`. -/
theorem step_promises (ho : Owned s) (h : s.impl.isRunning=true → Settled s)
    (hs : machine.step s a=some t) (hr : t.impl.isRunning=true) : Settled t := by
  cases a with
  | reactor r =>
    by_cases setup : s.pc.setup=true
    · -- the step that raises the flag
      have down := ho.shape.idle setup
      obtain ⟨k,i,pc,lines,-,hn,rfl⟩ := reactor_cases hs
      obtain rfl := next_raises hn down hr
      exact ⟨rfl,by simp,by simp⟩
    · have up : s.impl.isRunning=true := by
        by_contra down
        have halted : Halted s := ⟨by simpa using setup,by simpa using down⟩
        rw [(step_halted halted hs).2] at hr
        cases hr
      exact step_settled s _ t (h up) hs
  | env e =>
    obtain ⟨k,-,rfl⟩ := Option.map_eq_some_iff.mp hs
    exact step_settled s (.env e) _ (h hr) hs
  | stop nested =>
    cases hs
    rw [show (s.stop nested).impl.isRunning=false from (stop_flag s.impl nested).1] at hr
    cases hr

/-- Nothing is thrown but by vectors of a negative size. -/
theorem step_thrown {options : TcpOptions}
    (h : s.impl.options=options ∧ (s.pc=.threw → options.allocates=false))
    (hs : machine.step s a=some t) :
    t.impl.options=options ∧ (t.pc=.threw → options.allocates=false) := by
  cases a with
  | reactor r =>
    obtain ⟨k,i,pc,lines,-,hn,rfl⟩ := reactor_cases hs
    refine ⟨(next_flag hn).1.trans h.1,fun thrown => ?_⟩
    by_contra fits
    exact next_caught (by rw [h.1]; simpa using fits) hn thrown
  | env e =>
    obtain ⟨k,-,rfl⟩ := Option.map_eq_some_iff.mp hs
    exact h
  | stop nested =>
    cases hs
    exact ⟨(stop_flag s.impl nested).2.trans h.1,h.2⟩

end steps

section runs

variable {port : Int} {options : TcpOptions} {loggerCb dataCb : Bool} {foreign : List Fd}
  {σ : Nat → State} {α : Nat → Action} {n : Nat}

/-- Once the flag is down `start` goes the rest of the way. -/
theorem halted_leaves (runs : machine.Runs σ α) (owned : ∀ n,Owned (σ n))
    (scheduled : Scheduled σ α) (paced : Paced σ α) :
    LeadsTo σ Halted fun s => s.pc.gone=true := by
  intro n halted
  by_contra never
  have still (p : Nat) : (σ (n+p)).pc.gone=false := by
    by_contra returned
    exact never ⟨n+p,Nat.le_add_right n p,by simpa using returned⟩
  have down (p : Nat) : Halted (σ (n+p)) :=
    runs.keeps (I := Halted) (fun _ _ h ht => step_halted h ht) halted (n+p) (Nat.le_add_right n p)
  have calm (p : Nat) : Undisturbing (σ (n+p)) (α (n+p)) := fun _ => (down p).2
  have live (p : Nat) : ∃ q≥p,(α (n+q)).isReactor=true := by
    obtain ⟨q,hq,moves⟩ := scheduled (n+p) (still p)
    exact ⟨q-n,by omega,by rwa [Nat.add_sub_cancel' (by omega)]⟩
  have later := runs.drop n
  -- from the end of a batch, or of a wait, the way leads through `cleanup`
  have between : LeadsTo (fun p => σ (n+p)) (fun s => s.pc.between=true)
      fun s => s.pc.gone=true := by
    apply later.variant (fun s => s.pc.way) (fun _ a => a.isReactor=true) fun n _ => live n
    intro p t hp ht
    rcases step_point ht (calm p) with ⟨idle,-,same⟩|⟨r,lines,-,next⟩
    · rw [same]
      exact .inr ⟨hp,le_rfl,by simp [idle]⟩
    · rcases next_between hp next with asks|⟨stays,nearer⟩
      · rw [asks] at next
        have up := next_asks next
        rw [(down p).2] at up
        cases up
      · exact .inr ⟨stays,nearer.le,fun _ => nearer⟩
  have batch : LeadsTo (fun p => σ (n+p)) (fun s => s.pc.inBatch=true)
      fun s => s.pc.gone=true :=
    (batch_leads later (fun p => owned (n+p)) calm (fun p _ => live p) (paced.drop n)).trans
      fun p (hp : (σ (n+p)).pc=.loopHead) =>
        between p (show (σ (n+p)).pc.between=true by rw [hp]; rfl)
  have waiting := (waiting_leads later calm live).trans (batch.either between)
  obtain ⟨p,-,returned⟩ : ∃ p≥0,(σ (n+p)).pc.gone=true := by
    cases hb : (σ n).pc.inBatch with
    | true => exact batch 0 hb
    | false =>
      cases hw : (σ n).pc.waits with
      | true => exact waiting 0 hw
      | false => exact between 0 (show (σ n).pc.between=true by simp [Pc.between,hb,hw])
  rw [still p] at returned
  cases returned

/-- Of all calls of `stop()` only the one that finds the flag up does something. -/
theorem stopped_owned (runs : machine.Runs σ α)
    (start : σ 0=.boot port options loggerCb dataCb foreign) {nested : Nat}
    (stop : α n=.stop nested) (running : (σ n).impl.isRunning=true)
    (placed : Placed (σ n) (.stop nested)) (p : Nat) :
    Owned (σ p) ∧ (n<p → Halted (σ p)) := by
  induction p with
  | zero =>
    rw [start]
    exact ⟨boot_owned port options loggerCb dataCb foreign,fun h => absurd h n.not_lt_zero⟩
  | succ p ih =>
    obtain ⟨owned,halted⟩ := ih
    have next := runs p
    have here : Placed (σ p) (α p) := by
      cases hp : α p with
      | env | reactor => trivial
      | stop other =>
        intro up
        rcases lt_trichotomy p n with before|rfl|after
        · -- then the flag would be down at the call in question
          rw [hp] at next
          have down := runs.keeps (I := Halted) (fun _ _ h ht => step_halted h ht)
            (owned.lowered up next) n before
          rw [down.2] at running
          cases running
        · exact placed up
        · rw [(halted after).2] at up
          cases up
    refine ⟨step_owned _ _ _ owned here next,fun late => ?_⟩
    rcases Nat.lt_succ_iff_lt_or_eq.mp late with late|rfl
    · exact step_halted (halted late) next
    · rw [stop] at next
      exact owned.lowered running next

/-- `stop()` on a running server ends `start`, if every `epoll_wait` ends by itself and no batch
is fed without end, and `start` returns `SUCCESS` then, unless it throws because a size is
negative. -/
theorem stopped_returns (runs : machine.Runs σ α)
    (start : σ 0=.boot port options loggerCb dataCb foreign) (scheduled : Scheduled σ α)
    (paced : Paced σ α) {nested : Nat} (stop : α n=.stop nested)
    (running : (σ n).impl.isRunning=true) (placed : Placed (σ n) (.stop nested)) :
    ∃ m≥n,(σ m).pc=.returned .success ∨ options.allocates=false ∧ (σ m).pc=.threw := by
  have owned := stopped_owned runs start stop running placed
  have promises (p : Nat) : (σ p).impl.isRunning=true → Settled (σ p) :=
    runs.keeps (I := fun s => s.impl.isRunning=true → Settled s)
      (fun p _ h ht => step_promises (owned p).1 h ht)
      (by rw [start]; simp [State.boot]) p p.zero_le
  have settled := runs.keeps (I := Settled) (fun p _ h ht => step_settled _ _ _ h ht)
    (promises n running)
  have thrown (p : Nat) :
      (σ p).impl.options=options ∧ ((σ p).pc=.threw → options.allocates=false) :=
    runs.keeps (I := fun s => s.impl.options=options ∧ (s.pc=.threw → options.allocates=false))
      (fun _ _ h ht => step_thrown h ht) (by rw [start]; exact ⟨rfl,by simp [State.boot]⟩) p
      p.zero_le
  obtain ⟨m,hm,gone⟩ := halted_leaves runs (fun p => (owned p).1) scheduled paced (n+1)
    ((owned (n+1)).2 n.lt_succ_self)
  have late : n ≤ m := (Nat.le_succ n).trans hm
  refine ⟨m,late,?_⟩
  cases hp : (σ m).pc with
  | returned code => exact .inl (by rw [(settled m late).returned code hp])
  | threw => exact .inr ⟨(thrown m).2 hp,rfl⟩
  | _ =>
    rw [hp] at gone
    cases gone

/-- A run that comes to rest where `start` has returned owes it nothing. -/
theorem scheduled_of_rest {n : Nat} (moved : (α n).isReactor=true)
    (rests : ∀ p>n,(σ p).pc.gone=true) : Scheduled σ α ∧ Paced σ α := by
  constructor
  · intro m still
    refine ⟨n,?_,moved⟩
    by_contra late
    rw [rests m (Nat.lt_of_not_le late)] at still
    cases still
  · intro m inside
    have here := inside (max m (n+1)) (le_max_left m (n+1))
    have returned := rests (max m (n+1)) (le_max_right m (n+1))
    cases hp : (σ (max m (n+1))).pc with
    | returned | threw =>
      rw [hp] at here
      cases here
    | _ =>
      rw [hp] at returned
      cases returned

theorem stopped_returns_connected : ∃ σ α,machine.Runs σ α ∧
    σ 0=.boot 8080 {} false true [] ∧ α 22=.stop 0 ∧ (σ 22).impl.isRunning=true ∧
    ∃ m≥22,(σ m).pc=.returned .success := by
  have run : (machine.run (.boot 8080 {} false true []) stopConnected).map (fun t => t.pc)=
      some (.returned .success) := by
    decide +kernel
  obtain ⟨t,ht,hpc⟩ := Option.map_eq_some_iff.mp run
  have placed : machine.Meets Placed (.boot 8080 {} false true []) stopConnected := by
    decide +kernel
  have owned : Owned t := machine.invariant step_owned _ _ t
    (boot_owned 8080 {} false true []) placed ht
  obtain ⟨σ,α,runs,states,actions,meets⟩ := machine.idles ht (idle_step owned)
  have start : σ 0=.boot 8080 {} false true [] := by simpa using (states 0).symm
  have up : (machine.run (.boot 8080 {} false true []) (stopConnected.take 22)).map
      (fun s => s.impl.isRunning)=some true := by
    decide +kernel
  have running : (σ 22).impl.isRunning=true := by
    rw [states] at up
    exact Option.some.inj up
  have stop : α 22=.stop 0 := (actions 22).trans (by decide)
  obtain ⟨scheduled,paced⟩ := scheduled_of_rest (σ := σ) (α := α) (n := 26)
    (by rw [actions]; decide) fun p hp => by
      have here := states p
      rw [List.take_of_length_le hp,ht] at here
      rw [← Option.some.inj here,hpc]
      rfl
  have there : Placed (σ 22) (.stop 0) := stop ▸ meets Placed placed trivial 22
  obtain ⟨m,hm,ended⟩ := stopped_returns runs start scheduled paced stop running there
  exact ⟨σ,α,runs,start,stop,running,m,hm,
    ended.resolve_right fun thrown => absurd thrown.1 (by decide)⟩

end runs

end TuyulNet.Server
