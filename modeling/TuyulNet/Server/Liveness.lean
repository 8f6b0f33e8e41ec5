import TuyulNet.Framework.Temporal
import TuyulNet.Server.Batch
import TuyulNet.Server.Turns
import TuyulNet.Server.Verdict

namespace TuyulNet.Server

open Framework Kernel

/-- A read on `c` failed for good while `c` was open. -/
def sawError (c : ConnId) : Trace → Bool
  | [] => false
  | .call (.read fd _) (.fail e)::t =>
    decide (openAs c t=some fd) && !e.wouldBlock || sawError c t
  | _::t => sawError c t

/-- Not a `stop()` that finds the server running. -/
def Undisturbing (s : State) (a : Action) : Prop := a.isStop=true → s.impl.isRunning=false

theorem Undisturbing.of_nostop {s : State} {a : Action} (h : a.isStop=false) :
    Undisturbing s a := by
  simp [Undisturbing,h]

theorem Undisturbing.placed {s : State} {a : Action} (h : Undisturbing s a) : Placed s a := by
  cases a with
  | stop nested => simp [Placed,h rfl]
  | env | reactor => trivial

/-- The ready list that the reactor waits on. -/
def State.ready (s : State) : Finset Fd := (s.kernel.polls s.impl.epollFd).ready

/-- No batch is fed without end. -/
def Paced (σ : Nat → State) (α : Nat → Action) : Prop := ∀ n,(∀ p≥n,(σ p).pc.inBatch=true) →
  ∃ bound,∀ p,(((List.range p).map fun q => α (n+q)).map Action.arrivals).sum≤bound

theorem Paced.drop {σ : Nat → State} {α : Nat → Action} (h : Paced σ α) (n : Nat) :
    Paced (fun p => σ (n+p)) fun p => α (n+p) := by
  intro m inside
  obtain ⟨bound,paced⟩ := h (n+m) fun p hp => by
    have here : (σ (n+(p-n))).pc.inBatch=true := inside (p-n) (by omega)
    rwa [Nat.add_sub_cancel' (by omega)] at here
  exact ⟨bound,fun p => by simpa only [Nat.add_assoc] using paced p⟩

/-- What the reactor is owed in an infinite run. It is held up in `epoll_wait` only, and there only
while nothing is ready; an entry that stays in the ready list is returned some time if the reactor
keeps asking; and no batch is fed without end. -/
structure Fair (σ : Nat → State) (α : Nat → Action) : Prop where
  scheduled : ∀ n,(∀ p≥n,(α p).isReactor=false) →
    (∃ ep,(σ n).pc=.waiting ep) ∧ ∀ p≥n,(σ p).ready=∅
  reported : ∀ n fd,(∀ p≥n,fd∈(σ p).ready) → (∀ p,∃ q≥p,(σ q).pc=.epollWait) →
    ∃ p≥n,∃ es,α p=.reactor (.events es) ∧ fd∈es.map PollEvent.fd
  paced : Paced σ α

/-- Past the loop, or thrown out of it. -/
def Pc.ended : Pc → Bool
  | .cleanup _ _ | .returned _ | .threw => true
  | _ => false

/-- Neither at `epoll_wait` nor in a batch. -/
def Pc.between (pc : Pc) : Bool := !pc.waits && !pc.inBatch

def Cleanup.left : Cleanup → Nat
  | .testEpoll => 7
  | .closeEpoll => 6
  | .clearEpoll => 5
  | .testServer => 4
  | .closeServer => 3
  | .clearServer => 2
  | .finish => 1

/-- Steps on the way to `epoll_wait` or to the return of `start`. -/
def Pc.way : Pc → Nat
  | .cleanup stage _ => stage.left
  | .loopHead => 8
  | .allocate => 9
  | .returned _ | .threw => 0
  | pc => pc.ahead+9

section steps

variable {i j : Impl} {pc q : Pc} {r : Reply} {lines : Trace}

/-- Between two waits `start` makes for the next one, or for its end. -/
theorem next_between (hp : pc.between=true) (hn : pc.next i r=some (j,q,lines)) :
    q=.epollWait ∨ q.between=true ∧ q.way<pc.way := by
  rcases next_cases hn with hn|hn|hn|hn|hn|hn
  · unfold setupNext bail at hn
    split at hn <;> cases hn <;> (try split) <;>
      simp [Pc.between,Pc.waits,Pc.inBatch,Pc.way,Pc.ahead,Cleanup.left]
  · cases pc with
    | getFl fd caller =>
      cases caller with
      | client rest => cases hp
      | setup =>
        cases r <;> cases hn <;>
          simp [Pc.between,Pc.waits,Pc.inBatch,Pc.way,Pc.ahead,Cleanup.left]
    | setFl fd flags caller =>
      cases caller with
      | client rest => cases hp
      | setup =>
        cases r <;> cases hn <;>
          simp [Pc.between,Pc.waits,Pc.inBatch,Pc.way,Pc.ahead,Cleanup.left]
    | _ => cases hn
  · cases pc with
    | loopHead =>
      cases r <;> cases hn
      split
      · exact .inl rfl
      · exact .inr ⟨rfl,by simp [Pc.way,Cleanup.left]⟩
    | epollWait | waiting | batch => cases hp
    | _ => cases hn
  · cases pc with
    | accept | addClient | reject => cases hp
    | _ => cases hn
  · cases pc with
    | read | deliver | delClient | closeClient => cases hp
    | _ => cases hn
  · right
    unfold cleanupNext at hn
    split at hn <;> cases hn <;> (try split) <;>
      simp [Pc.between,Pc.waits,Pc.inBatch,Pc.way,Cleanup.left]

/-- What has ended stays so. -/
theorem next_ended (hp : pc.ended=true) (hn : pc.next i r=some (j,q,lines)) : q.ended=true := by
  cases pc with
  | cleanup stage code =>
    simp only [Pc.next] at hn
    unfold cleanupNext at hn
    split at hn <;> cases hn <;> rfl
  | returned | threw => cases hn
  | _ => cases hp

/-- A batch ends at the head of the loop. -/
theorem next_batch (hp : pc.inBatch=true) (hn : pc.next i r=some (j,q,lines)) :
    q.inBatch=true ∨ q=.loopHead := by
  cases pc with
  | batch fds =>
    cases fds with
    | nil =>
      cases r <;> cases hn
      exact .inr rfl
    | cons fd rest =>
      cases r <;> cases hn
      left
      split <;> rfl
  | getFl fd caller =>
    cases caller with
    | setup => cases hp
    | client rest => cases r <;> cases hn <;> exact .inl rfl
  | setFl fd flags caller =>
    cases caller with
    | setup => cases hp
    | client rest => cases r <;> cases hn <;> exact .inl rfl
  | accept | addClient | reject | deliver | delClient | closeClient =>
    cases r <;> cases hn <;> exact .inl rfl
  | read fd rest =>
    simp only [Pc.next] at hn
    unfold drainNext at hn
    split at hn <;> (try split at hn) <;> cases hn <;> left <;> (try split) <;> rfl
  | _ => cases hp

/-- In the loop nothing changes the fields. -/
theorem next_fields (setup : pc.setup=false) (ended : pc.ended=false)
    (hn : pc.next i r=some (j,q,lines)) : j=i := by
  rcases next_cases hn with hn|hn|hn|hn|hn|hn
  · cases pc with
    | allocate =>
      cases r <;> cases hn
      rfl
    | _ => first | cases hn | cases setup
  · unfold flagsNext blockingFailed bail at hn
    split at hn <;> (try split at hn) <;> cases hn <;> rfl
  · unfold loopNext at hn
    split at hn <;> (try split at hn) <;> cases hn <;> rfl
  · unfold acceptNext at hn
    split at hn <;> cases hn <;> rfl
  · unfold drainNext at hn
    split at hn <;> (try split at hn) <;> cases hn <;> rfl
  · cases pc with
    | cleanup => cases ended
    | _ => cases hn

end steps

section infinite

variable {σ : Nat → State} {α : Nat → Action}

theorem step_reactor {s t : State} {a : Action} (hs : machine.step s a=some t)
    (ha : a.isStop=false) : (∃ e k,a=.env e ∧ s.kernel.env e=some k ∧ t={ s with kernel := k }) ∨
      ∃ r,a=.reactor r ∧ s.reactor r=some t := by
  cases a with
  | env e =>
    obtain ⟨k,hk,rfl⟩ := Option.map_eq_some_iff.mp hs
    exact .inl ⟨e,k,rfl,hk,rfl⟩
  | reactor r => exact .inr ⟨r,rfl,hs⟩
  | stop nested => cases ha

/-- The program point changes as `next` says, or not at all. -/
theorem step_point {s t : State} {a : Action} (hs : machine.step s a=some t)
    (ha : Undisturbing s a) : a.isReactor=false ∧ t.impl=s.impl ∧ t.pc=s.pc ∨ ∃ r lines,
      a=.reactor r ∧ s.pc.next s.impl r=some (t.impl,t.pc,lines) := by
  cases a with
  | env e =>
    obtain ⟨k,-,rfl⟩ := Option.map_eq_some_iff.mp hs
    exact .inl ⟨rfl,rfl,rfl⟩
  | reactor r =>
    obtain ⟨k,i,pc,lines,-,hn,rfl⟩ := reactor_cases hs
    exact .inr ⟨r,lines,rfl,hn⟩
  | stop nested =>
    cases hs
    rw [stop_idle (ha rfl)]
    exact .inl ⟨rfl,rfl,rfl⟩

/-- Such a step is paid for like the others. -/
theorem undisturbed_pays {s t : State} {a : Action} (h : Owned s) (hb : s.pc.inBatch=true)
    (ha : Undisturbing s a) (hs : machine.step s a=some t) :
    potential t+a.cost≤potential s+5*a.arrivals := by
  cases a with
  | stop nested =>
    cases hs
    rw [stop_idle (ha rfl)]
    exact le_rfl
  | env | reactor => exact batch_pays s _ t h ⟨hb,rfl⟩ hs

/-- Outside `epoll_wait` the reactor moves on. -/
theorem Fair.moves (fair : Fair σ α) {n : Nat} (hp : ∀ ep,(σ n).pc≠.waiting ep) :
    ∃ p≥n,(α p).isReactor=true := by
  by_contra held
  obtain ⟨⟨ep,waits⟩,-⟩ := fair.scheduled n fun p hn => by
    by_contra moves
    exact held ⟨p,hn,by simpa using moves⟩
  exact hp ep waits

theorem Fair.batch_moves (fair : Fair σ α) (n : Nat) (inside : (σ n).pc.inBatch=true) :
    ∃ p≥n,(α p).isReactor=true :=
  fair.moves fun ep waits => by
    rw [waits] at inside
    cases inside

/-- A run that comes to rest in `epoll_wait` while nothing is ready is fair. -/
theorem Fair.of_rest {n : Nat} (moved : (α n).isReactor=true)
    (rests : ∀ p>n,(∃ ep,(σ p).pc=.waiting ep) ∧ (σ p).ready=∅) : Fair σ α where
  scheduled := by
    intro m idle
    have late : n < m := by
      by_contra early
      have held := idle n (Nat.le_of_not_lt early)
      rw [moved] at held
      cases held
    exact ⟨(rests m late).1,fun p hp => (rests p (late.trans_le hp)).2⟩
  reported := by
    intro m fd _ asks
    obtain ⟨p,hp,waits⟩ := asks (n+1)
    obtain ⟨⟨ep,held⟩,-⟩ := rests p hp
    rw [waits] at held
    cases held
  paced := by
    intro m inside
    have still := inside (max m (n+1)) (le_max_left m (n+1))
    obtain ⟨⟨ep,held⟩,-⟩ := rests (max m (n+1)) (le_max_right m (n+1))
    rw [held] at still
    cases still

theorem idle_step {t : State} (h : Owned t) : machine.step t (.env (.prune 0 (-1)))=some t := by
  simp [step,env_idle h.wf]

/-- Every batch ends. -/
theorem batch_leads (runs : machine.Runs σ α) (h : ∀ n,Owned (σ n))
    (hs : ∀ n,Undisturbing (σ n) (α n)) (moves : ∀ n,(σ n).pc.inBatch=true →
      ∃ p≥n,(α p).isReactor=true) (paced : Paced σ α) :
    LeadsTo σ (fun s => s.pc.inBatch=true) fun s => s.pc=.loopHead := by
  intro n hb
  rcases lasts_or_ends (P := fun p => (σ p).pc.inBatch=true) hb with lasts|⟨p,hn,inside,out⟩
  · obtain ⟨bound,paced⟩ := paced n lasts
    have live (p : Nat) : ∃ q≥p,0 < (α (n+q)).cost := by
      obtain ⟨q,hq,moves⟩ := moves (n+p) (lasts (n+p) (Nat.le_add_right n p))
      exact ⟨q-n,by omega,by rw [Nat.add_sub_cancel' (by omega)]; simp [Action.cost,moves]⟩
    have sums (p : Nat) : (((List.range p).map fun q => α (n+q)).map fun a => 5*a.arrivals).sum=
        5*(((List.range p).map fun q => α (n+q)).map Action.arrivals).sum :=
      List.sum_map_mul_left _ Action.arrivals 5
    obtain ⟨p,hp⟩ := machine.leaves (I := Owned)
      (C := fun s a => s.pc.inBatch=true ∧ Undisturbing s a)
      potential Action.cost (fun a => 5*a.arrivals)
      (fun s a t hu hc ht => step_owned s a t hu hc.2.placed ht)
      (fun s a t hu hc ht => undisturbed_pays hu hc.1 hc.2 ht) (runs.drop n) (h n) live (5*bound)
      (fun p => by
        rw [sums]
        exact Nat.mul_le_mul_left 5 (paced p))
    exact absurd ⟨lasts (n+p) (Nat.le_add_right n p),hs (n+p)⟩ hp
  · refine ⟨p+1,Nat.le_succ_of_le hn,?_⟩
    rcases step_point (runs p) (hs p) with ⟨-,-,same⟩|⟨r,lines,-,next⟩
    · exact absurd (same ▸ inside) out
    · exact (next_batch inside next).resolve_left out

/-- Between two waits the reactor gets to the next one. -/
theorem between_leads (runs : machine.Runs σ α) (hs : ∀ n,Undisturbing (σ n) (α n))
    (live : ∀ n,∃ p≥n,(α p).isReactor=true) :
    LeadsTo σ (fun s => s.pc.between=true) fun s => s.pc=.epollWait := by
  apply runs.variant (fun s => s.pc.way) (fun _ a => a.isReactor=true) fun n _ => live n
  intro n t hp ht
  rcases step_point ht (hs n) with ⟨idle,-,same⟩|⟨r,lines,-,next⟩
  · rw [same]
    exact .inr ⟨hp,le_rfl,by simp [idle]⟩
  · exact (next_between hp next).imp_right fun ⟨stays,nearer⟩ =>
      ⟨stays,nearer.le,fun _ => nearer⟩

/-- What `epoll_wait` returns, or fails with, ends the wait. -/
theorem waiting_leads (runs : machine.Runs σ α) (hs : ∀ n,Undisturbing (σ n) (α n))
    (live : ∀ n,∃ p≥n,(α p).isReactor=true) :
    LeadsTo σ (fun s => s.pc.waits=true) fun s => s.pc.inBatch=true ∨ s.pc.between=true := by
  apply runs.variant (fun s => if s.pc=.epollWait then 1 else 0) (fun _ a => a.isReactor=true)
    fun n _ => live n
  intro n t hp ht
  rcases step_point ht (hs n) with ⟨idle,-,same⟩|⟨r,lines,-,next⟩
  · rw [same]
    exact .inr ⟨hp,le_rfl,by simp [idle]⟩
  · generalize t.impl=j,t.pc=q at next ⊢
    cases hpc : (σ n).pc with
    | epollWait =>
      rw [hpc] at next
      cases r with
      | ok =>
        cases next
        exact .inr ⟨rfl,by simp⟩
      | fail e =>
        simp only [Pc.next,loopNext] at next
        split at next <;> cases next <;> exact .inl (.inr rfl)
      | _ => cases next
    | waiting ep =>
      left
      rw [hpc] at next
      cases r with
      | events es =>
        cases next
        split
        · exact .inr rfl
        · exact .inl rfl
      | fail e =>
        simp only [Pc.next,loopNext] at next
        split at next <;> cases next <;> exact .inr rfl
      | _ => cases next
    | _ =>
      rw [hpc] at hp
      cases hp

/-- A reactor that keeps being scheduled calls `epoll_wait` again and again. -/
theorem asks_again (runs : machine.Runs σ α) (h : ∀ n,Owned (σ n))
    (hs : ∀ n,Undisturbing (σ n) (α n)) (fair : Fair σ α)
    (live : ∀ n,∃ p≥n,(α p).isReactor=true) (n : Nat) : ∃ p≥n,(σ p).pc=.epollWait := by
  have between := between_leads runs hs live
  have batch : LeadsTo σ (fun s => s.pc.inBatch=true) fun s => s.pc=.epollWait :=
    (batch_leads runs h hs fair.batch_moves fair.paced).trans fun p (hp : (σ p).pc=.loopHead) =>
      between p (show (σ p).pc.between=true by rw [hp]; rfl)
  have waiting := (waiting_leads runs hs live).trans (batch.either between)
  cases hb : (σ n).pc.inBatch with
  | true => exact batch n hb
  | false =>
    cases hw : (σ n).pc.waits with
    | false => exact between n (by simp [Pc.between,hb,hw])
    | true => exact waiting n hw

/-- A run in which the reactor is treated fairly never gets past the loop. -/
theorem never_ends (runs : machine.Runs σ α) (hs : ∀ n,Undisturbing (σ n) (α n)) (fair : Fair σ α)
    (n : Nat) : (σ n).pc.ended=false := by
  by_contra hp
  have ended : ∀ p≥n,(σ p).pc.ended=true := by
    apply runs.keeps (I := fun s => s.pc.ended=true) _ (by simpa using hp)
    intro p t hp ht
    rcases step_point ht (hs p) with ⟨-,-,same⟩|⟨r,lines,-,next⟩
    · rwa [same]
    · exact next_ended hp next
  have live (p : Nat) : ∃ q≥p,(α (n+q)).isReactor=true := by
    obtain ⟨q,hq,moves⟩ := fair.moves (n := n+p) fun ep waits => by
      have ends := ended (n+p) (Nat.le_add_right n p)
      rw [waits] at ends
      cases ends
    exact ⟨q-n,by omega,by rwa [Nat.add_sub_cancel' (by omega)]⟩
  have between : (σ n).pc.between=true := by
    have ends := ended n le_rfl
    cases hq : (σ n).pc with
    | cleanup | returned | threw => rfl
    | _ =>
      rw [hq] at ends
      cases ends
  obtain ⟨p,-,waits⟩ := between_leads (runs.drop n) (fun p => hs (n+p)) live 0 between
  have ends := ended (n+p) (Nat.le_add_right n p)
  rw [waits] at ends
  cases ends

end infinite

end TuyulNet.Server
