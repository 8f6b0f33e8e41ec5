import TuyulNet.Server.Progress

namespace TuyulNet.Server

open Framework Kernel

/-- Connection `c` is waiting in the backlog of the listening socket. -/
structure Queued (c : ConnId) (s : State) : Prop where
  listener : ∃ f,s.kernel.table s.impl.serverFd=some (.listener f)
  waiting : c∈s.kernel.backlog s.impl.serverFd

/-- Inside the accept loop. -/
def Pc.accepting : Pc → Bool
  | .accept _ | .getFl _ (.client _) | .setFl _ _ (.client _) | .addClient _ _ | .reject _ _ => true
  | _ => false

/-- `accept` fails, and not because nobody is waiting. -/
def Refused (s : State) (a : Action) : Prop :=
  (∃ rest,s.pc=.accept rest) ∧ ∃ e,a=.reactor (.fail e) ∧ e.wouldBlock=false

section steps

variable {i j : Impl} {pc q : Pc} {k k' : Kernel} {r : Reply} {lines : Trace} {s t : State}
  {a : Action} {c : ConnId} {fd : Fd}

/-- The field holds one listening socket from `socket` to the exit. -/
theorem next_listener (entered : pc≠.socket) (going : pc.ended=false)
    (hn : pc.next i r=some (j,q,lines)) : j.serverFd=i.serverFd := by
  rcases next_cases hn with hn|hn|hn|hn|hn|hn
  · unfold setupNext bail at hn
    split at hn <;> cases hn <;> first
      | rfl
      | exact absurd rfl entered
  · unfold flagsNext blockingFailed bail at hn
    split at hn <;> (try split at hn) <;> cases hn <;> rfl
  · unfold loopNext at hn
    split at hn <;> (try split at hn) <;> cases hn <;> rfl
  · unfold acceptNext at hn
    split at hn <;> cases hn <;> rfl
  · unfold drainNext at hn
    split at hn <;> (try split at hn) <;> cases hn <;> rfl
  · cases pc with
    | cleanup => cases going
    | _ => cases hn

/-- The accept loop is left when `accept` fails. -/
theorem next_accepting (hp : pc.accepting=true) (hn : pc.next i r=some (j,q,lines)) :
    q.accepting=true ∨ ∃ rest e,pc=.accept rest ∧ r=.fail e := by
  cases pc with
  | accept rest =>
    cases r with
    | conn n c =>
      cases hn
      exact .inl rfl
    | fail e => exact .inr ⟨rest,e,rfl,rfl⟩
    | _ => cases hn
  | getFl fd caller | setFl fd flags caller =>
    cases caller with
    | setup => cases hp
    | client rest => cases r <;> cases hn <;> exact .inl rfl
  | addClient | reject => cases r <;> cases hn <;> exact .inl rfl
  | _ => cases hp

/-- Who is in the backlog waits there until accepted. -/
theorem Queued.step (h : Queued c s) (ha : Attentive s) (going : s.pc.ended=false)
    (nostop : a.isStop=false) (hs : machine.step s a=some t) :
    Queued c t ∨ ∃ fd,a=.reactor (.conn fd c) := by
  obtain ⟨⟨f,file⟩,queued⟩ := h
  obtain ⟨e,k,rfl,hk,rfl⟩|⟨r,rfl,hr⟩ := step_reactor hs nostop
  · obtain ⟨file,queued⟩ := env_queued e hk file queued
    exact .inl ⟨⟨f,file⟩,queued⟩
  · obtain ⟨k,i,pc,lines,hk,hn,rfl⟩ := reactor_cases hr
    have entered : s.pc≠.socket := by
      intro hp
      rw [ha.base.owned.shape.unopened.1 hp,ha.base.owned.wf.minus_one] at file
      cases file
    have field := next_listener entered going hn
    rcases answer_queued hk file queued with ⟨⟨f,file⟩,queued⟩|hc|⟨-,n,rfl⟩
    · exact .inl ⟨⟨f,by rw [← field] at file; exact file⟩,by rw [← field] at queued; exact queued⟩
    · -- inside the loop `start` closes nothing but clients
      exfalso
      have client {fd : Fd} (hp : s.pc.client=some fd) (hc : Call.close fd=.close s.impl.serverFd) :
          False := by
        obtain ⟨d,g,hd⟩ := ha.base.owned.shape.client fd hp
        rw [Call.close.inj hc,file] at hd
        cases hd
      cases hp : s.pc with
      | closeClient fd rest | reject fd rest =>
        rw [hp] at hc
        exact client (by rw [hp]; rfl) hc
      | cleanup =>
        rw [hp] at going
        cases going
      | _ => simp [hp,Pc.call] at hc
    · exact .inr ⟨n,rfl⟩

/-- The listening socket is watched, and somebody waits there. -/
theorem Queued.demands (h : Queued c s) (ha : Attentive s) (setup : s.pc.setup=false)
    (going : s.pc.ended=false) : s.kernel.readable s.impl.serverFd=true ∧
      s.kernel.watch s.impl.epollFd s.impl.serverFd≠none := by
  obtain ⟨⟨f,file⟩,queued⟩ := h
  have server : s.impl.serverFd≠-1 := by
    intro e
    rw [e,ha.base.owned.wf.minus_one] at file
    cases file
  have phase : s.pc.active=true ∧ s.pc.bare=false ∧ s.pc.armed=true := by
    cases hp : s.pc with
    | getFl fd caller | setFl fd flags caller =>
      rw [hp] at setup
      cases caller with
      | setup => cases setup
      | client rest => exact ⟨rfl,rfl,rfl⟩
    | socket | setsockopt | bind | listen | epollCreate | epollAdd | setRunning =>
      rw [hp] at setup
      cases setup
    | cleanup | returned | threw =>
      rw [hp] at going
      cases going
    | _ => exact ⟨rfl,rfl,rfl⟩
  have epoll := ha.base.live.epoll phase.1 phase.2.1
  refine ⟨?_,by simp [ha.base.owned.shape.armed phase.2.2 server epoll]⟩
  simp only [Kernel.readable,file]
  cases hq : s.kernel.backlog s.impl.serverFd with
  | nil =>
    rw [hq] at queued
    cases queued
  | cons => rfl

/-- While somebody waits in the backlog, the accept loop is left by a failure only. -/
theorem Queued.refused (h : Queued c s) (nostop : a.isStop=false) (hs : machine.step s a=some t)
    (hp : s.pc.accepting=true) (hq : t.pc.accepting=false) : Refused s a := by
  obtain ⟨⟨f,file⟩,queued⟩ := h
  rcases step_point hs (.of_nostop nostop) with ⟨-,-,same⟩|⟨r,lines,rfl,hn⟩
  · rw [same,hp] at hq
    cases hq
  · rcases next_accepting hp hn with stays|⟨rest,e,hpc,rfl⟩
    · rw [hq] at stays
      cases stays
    · refine ⟨⟨rest,hpc⟩,e,rfl,?_⟩
      obtain ⟨k,i,pc,lines,hk,-,-⟩ := reactor_cases hs
      rw [hpc] at hk
      have hk : s.kernel.answerAccept s.impl.serverFd (.fail e)=some k := hk
      rcases answerAccept_cases hk with ⟨n,d,g,hr,-⟩|⟨e',hr,-,empty⟩
      · cases hr
      · cases hr
        by_contra block
        rw [empty (by simpa using block)] at queued
        cases queued

end steps

namespace FairRun

variable {port : Int} {options : TcpOptions} {loggerCb dataCb : Bool} {foreign : List Fd}
  {σ : Nat → State} {α : Nat → Action} {c : ConnId} {n : Nat}

/-- The reactor gets into its loop. -/
theorem gets_going (run : FairRun port options loggerCb dataCb foreign σ α) (n : Nat) :
    ∃ p≥n,(σ p).pc.waits=true := by
  by_cases live : ∀ p,∃ q≥p,(α q).isReactor=true
  · obtain ⟨p,hp,waits⟩ := asks_again run.runs (fun p => (run.attentive p).base.owned)
      run.undisturbing run.fair live n
    exact ⟨p,hp,by rw [waits]; rfl⟩
  · obtain ⟨p,held⟩ := not_forall.mp live
    obtain ⟨⟨ep,waits⟩,-⟩ := run.fair.scheduled (max n p) fun q hq => by
      by_contra moves
      exact held ⟨q,(le_max_right n p).trans hq,by simpa using moves⟩
    exact ⟨max n p,le_max_left n p,by rw [waits]; rfl⟩

/-- While somebody waits in the backlog, the listening socket is dealt with time and again. -/
theorem backlog_leads (run : FairRun port options loggerCb dataCb foreign σ α)
    (queued : ∀ p≥n,Queued c (σ p)) : ∃ p≥n,Refused (σ p) (α p) := by
  obtain ⟨m,hm,waits⟩ := run.gets_going n
  have looping := run.runs.keeps (n := m)
    (I := fun s => s.impl=(σ m).impl ∧ s.pc.setup=false) (fun p t hp ht => by
      rcases step_point ht (run.undisturbing p) with ⟨-,impl,same⟩|⟨r,lines,-,hn⟩
      · exact ⟨impl.trans hp.1,same ▸ hp.2⟩
      · exact ⟨(next_fields hp.2 (run.going p) hn).trans hp.1,((next_flag hn).2 hp.2).1⟩)
    ⟨rfl,by cases hp : (σ m).pc <;> rw [hp] at waits <;> cases waits <;> rfl⟩
  have demand (p : Nat) (hp : p≥m) : (σ p).kernel.readable (σ m).impl.serverFd=true ∧
      (σ p).kernel.watch (σ p).impl.epollFd (σ m).impl.serverFd≠none := by
    obtain ⟨impl,setup⟩ := looping p hp
    rw [← impl]
    exact (queued p (hm.trans hp)).demands (run.attentive p) setup (run.going p)
  obtain ⟨p,hp,pending⟩ := run.comes_up demand
  obtain ⟨q,hq,pending,dealt⟩ := run.passes pending
  have there := hp.trans hq
  obtain ⟨f,file⟩ := (queued q (hm.trans there)).listener
  rw [(looping q there).1] at file
  rcases dealt_with (run.going (q+1)) (run.nostop q) (run.runs q) pending dealt with
    ⟨rest,-,-,taken⟩|⟨rest,e,hpc,-⟩|⟨rest,hpc⟩
  · -- the accept loop begins, and it ends
    obtain ⟨x,hx,head⟩ := run.batch_ends (q+1) (by simp [taken,Pc.inBatch])
    obtain ⟨y,hy,-,inside,out⟩ := ends_before (P := fun p => (σ p).pc.accepting=true) hx
      (by rw [taken]; rfl) (by rw [head]; simp [Pc.accepting])
    have late : n≤y := (hm.trans there).trans ((Nat.le_succ q).trans hy)
    exact ⟨y,late,(queued y late).refused (run.nostop y) (run.runs y) inside (by simpa using out)⟩
  · obtain ⟨d,g,client⟩ := (run.attentive q).base.owned.shape.client _ (by rw [hpc]; rfl)
    rw [file] at client
    cases client
  · obtain ⟨d,g,client⟩ := (run.attentive q).base.owned.shape.client _ (by rw [hpc]; rfl)
    rw [file] at client
    cases client

theorem queued_lasts (run : FairRun port options loggerCb dataCb foreign σ α)
    (queued : Queued c (σ n)) (never : ¬∃ m≥n,∃ fd,α m=.reactor (.conn fd c)) :
    ∀ p≥n,Queued c (σ p) := by
  intro p hp
  induction p,hp using Nat.le_induction with
  | base => exact queued
  | succ p hp ih =>
    exact (ih.step (run.attentive p) (run.going p) (run.nostop p) (run.runs p)).resolve_right
      fun taken => never ⟨p,hp,taken⟩

end FairRun

end TuyulNet.Server
