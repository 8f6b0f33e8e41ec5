import TuyulNet.Client.Liveness
import TuyulNet.Client.Readiness

namespace TuyulNet.Client

open Framework Kernel

/-- A read on `c` failed for good. -/
def sawError (c : ConnId) : Trace → Bool
  | [] => false
  | .call (.read fd _) (.fail e)::t =>
    decide (openAs c t=some fd) && !e.wouldBlock || sawError c t
  | _::t => sawError c t

/-- The flag is up, `client_fd` is open as `c`, and there is a worker in its function. -/
structure Engaged (c : ConnId) (fd : Fd) (s : State) : Prop where
  up : s.impl.isConnected=true
  own : s.impl.clientFd=fd
  client : s.kernel.connection fd=some c
  inside : s.worker.rests=false

/-- `shutdown_pipeline` is about to clear the flag. -/
def App.tearsDown : App → Bool
  | .shutdown .clearFlag _ => true
  | _ => false

theorem tearsDown_at {a : App} (h : a.tearsDown=true) :
    ∃ purpose,a=.shutdown .clearFlag purpose := by
  unfold App.tearsDown at h
  split at h
  · exact ⟨_,rfl⟩
  · cases h

/-- From `read` on, up to the end of the inner loop. -/
def Worker.drains : Worker → Bool
  | .batch _ => false
  | w => w.inBatch

/-- The worker is going to read in this batch. -/
def Worker.willRead : Worker → Bool
  | .batch es => es.any fun e => e.mask.input
  | _ => false

/-- The worker gives a connection up only with a reason. -/
def Parting (s : State) : Prop := s.worker=.drop → ∀ c,
  s.kernel.connection s.impl.clientFd=some c → sawEnd c s.trace=true ∨ sawError c s.trace=true

section steps

variable {i j : Impl} {a b : App} {w v : Worker} {k l : Kernel} {r : Reply} {lines : Trace}
  {s t : State} {act : Action} {c : ConnId} {fd : Fd}

theorem Engaged.born (h : Engaged c fd s) (hw : s.kernel.Wf) : c < s.kernel.born := by
  obtain ⟨f,file⟩ := connection_some.mp h.client
  exact (hw.attached fd c f file).2

theorem Engaged.readable (h : Engaged c fd s) (hr : (s.kernel.conns c).pipe.readable=true) :
    s.kernel.readable fd=true := by
  obtain ⟨f,file⟩ := connection_some.mp h.client
  simp only [Kernel.readable,file]
  exact hr

/-- Under a raised flag the application thread touches no descriptor, and lowers the flag in
one place. -/
theorem Control.steady {pending : Bool} (hc : Control i a.phase w pending)
    (up : i.isConnected=true) (hn : a.next i r=some (j,b,lines)) :
    (a.call i).quiet=true ∧ j.clientFd=i.clientFd ∧
      (j.isConnected=true ∨ a.tearsDown=true) := by
  have raised (hp : a.phase.unset=true) : False := by
    rw [hc.unset hp] at up
    cases up
  have moves := app_moves hn
  rcases next_keeps hn with hp|hp|⟨quiet,client,-⟩
  · exact (raised (by rw [hp]; rfl)).elim
  · exact (raised (by rw [hp]; rfl)).elim
  · refine ⟨quiet,client,?_⟩
    cases hp : a.phase with
    | clearing =>
      right
      cases a with
      | shutdown stage purpose => cases stage <;> first | rfl | cases hp
      | idle last =>
        cases last with
        | none => cases hp
        | some o => cases o <;> cases hp
      | _ => cases hp
    | rest | started | assigning =>
      rw [hp] at moves
      exact .inl (moves.1.trans up)
    | _ => exact (raised (by rw [hp]; rfl)).elim

/-- A connection stays in use until the application or the worker gives it up, or `epoll_wait`
fails for good. -/
theorem Engaged.step (h : Engaged c fd s) (sound : Sound s) (hs : machine.step s act=some t) :
    Engaged c fd t ∨ s.app.tearsDown=true ∨ s.worker=.drop ∨
      t.worker=.finished ∧ t.impl.isConnected=true := by
  obtain ⟨-,⟨q,last,rfl,hp,rfl⟩|⟨r,rfl,ht⟩|⟨r,rfl,ht⟩|⟨d,rest,rfl,hp,rfl⟩|⟨e,k,rfl,hk,rfl⟩⟩ :=
    step_cases hs
  · exact .inl ⟨h.up,h.own,h.client,h.inside⟩
  · obtain ⟨runs,k,i,app,lines,hk,hn,rfl⟩ := appStep_cases ht
    obtain ⟨quiet,client,flag⟩ := Control.steady sound.control h.up hn
    rcases flag with flag|tears
    · refine .inl ⟨flag,client.trans h.own,?_,?_⟩
      · exact (connection_congr ((answer_quiet quiet hk).1 fd)).trans h.client
      · show (s.app.thread s.impl r s.worker).rests=false
        rw [Control.apart sound.control h.inside runs]
        exact h.inside
    · exact .inr (.inl tears)
  · obtain ⟨k,i,v,lines,hk,hn,rfl⟩ := workerStep_cases ht
    obtain ⟨quiet,client,-⟩ := worker_keeps sound.control.outside hn
    obtain ⟨-,there,-,-,flag|⟨drop,-⟩,-⟩ := worker_moves sound.control.outside hn
    · cases hv : v with
      | none => exact absurd hv there
      | finished => exact .inr (.inr (.inr ⟨rfl,flag.trans h.up⟩))
      | _ =>
        refine .inl ⟨flag.trans h.up,client.trans h.own,?_,rfl⟩
        exact (connection_congr ((answer_quiet quiet hk).1 fd)).trans h.client
    · exact .inr (.inr (.inl drop))
  · exact .inl ⟨h.up,h.own,h.client,by cases d <;> rfl⟩
  · exact .inl ⟨h.up,h.own,(env_connection e hk fd).trans h.client,h.inside⟩

/-- A readable socket is read from as long as nothing goes wrong. -/
theorem Engaged.drains (h : Engaged c fd s) (sound : Sound s) (hr : s.kernel.readable fd=true)
    (hd : s.worker.drains=true) (hs : machine.step s act=some t) :
    t.worker.drains=true ∨ t.worker=.drop := by
  rcases worker_point sound h.inside hs with ⟨-,same⟩|⟨d,rest,-,-,rfl⟩|⟨r,lines,rfl,hn⟩
  · exact .inl (same ▸ hd)
  · left
    cases d <;> rfl
  · have inside : s.worker.inBatch=true := by
      cases hw : s.worker with
      | batch | none | start | loopHead | epollWait | waiting | drop | finished =>
        rw [hw] at hd
        cases hd
      | _ => rfl
    cases hw : s.worker with
    | read rest =>
      rw [hw] at hn
      generalize t.worker=v,t.impl=j at hn ⊢
      cases r with
      | data bs =>
        simp only [Worker.next,loopNext] at hn
        split at hn <;> cases hn
        · exact .inr rfl
        · left
          split <;> rfl
      | fail e =>
        simp only [Worker.next,loopNext] at hn
        split at hn <;> cases hn
        · -- `EAGAIN` means that there is nothing
          rename_i block
          obtain ⟨k,i,v,lines,hk,-,-⟩ := workerStep_cases (workerStep_of_step hs)
          obtain ⟨f,file⟩ := connection_some.mp h.client
          rw [hw] at hk
          have hk : s.kernel.answerRead s.impl.clientFd s.impl.options.bufferSize (.fail e)=
              some k := hk
          rw [h.own] at hk
          rcases answerRead_cases file hk with ⟨bs,hx,-⟩|⟨hx,-⟩|⟨e',hx,-,dry⟩
          · cases hx
          · cases hx
          · cases hx
            obtain ⟨hu,he⟩ := dry block
            simp [Kernel.readable,file,Pipe.readable,hu,he] at hr
        · exact .inr rfl
      | _ => cases hn
    | batch es =>
      rw [hw] at hd
      cases hd
    | deliver bs rest =>
      rw [hw] at hn
      generalize t.worker=v,t.impl=j at hn ⊢
      cases r <;> cases hn
      exact .inl rfl
    | testDisconnect rest =>
      have asks := sound.asks
      rw [hw] at asks
      cases asks
    | shutdown stage rest =>
      have outside := sound.control.outside
      rw [hw] at outside
      cases outside
    | send x rest =>
      rw [hw] at hn
      obtain ⟨⟨more,lines⟩,-,heq⟩ := Option.map_eq_some_iff.mp hn
      generalize t.worker=v,t.impl=j at heq ⊢
      cases heq
      left
      cases more <;> rfl
    | user rest =>
      rw [hw] at hn
      cases r <;> cases hn
    | _ =>
      rw [hw] at inside
      cases inside

/-- A batch with `EPOLLIN` in it leads to a read. -/
theorem Engaged.reads (h : Engaged c fd s) (sound : Sound s) (hd : s.worker.willRead=true)
    (hs : machine.step s act=some t) : t.worker.willRead=true ∨ t.worker.drains=true := by
  rcases worker_point sound h.inside hs with ⟨-,same⟩|⟨d,rest,-,hp,-⟩|⟨r,lines,rfl,hn⟩
  · exact .inl (same ▸ hd)
  · rw [hp] at hd
    cases hd
  · cases hw : s.worker with
    | batch es =>
      rw [hw] at hd hn
      generalize t.worker=v,t.impl=j at hn ⊢
      cases es with
      | nil => cases hd
      | cons e rest =>
        cases r <;> cases hn
        cases he : e.mask.input with
        | true => exact .inr rfl
        | false =>
          left
          simpa [Worker.willRead,he] using hd
    | _ =>
      rw [hw] at hd
      cases hd

/-- What `epoll_wait` returns with `EPOLLIN` is going to be read. -/
theorem next_events {es : List PollEvent} (hn : w.next i (.events es)=some (j,v,lines))
    {e : PollEvent} (he : e∈es) (input : e.mask.input=true) : v.willRead=true := by
  cases w with
  | waiting ep =>
    cases hn
    rw [if_neg (List.ne_nil_of_mem he)]
    exact List.any_eq_true.mpr ⟨e,he,input⟩
  | batch fs => cases fs <;> cases hn
  | shutdown stage rest => cases stage <;> cases hn
  | send x rest => cases x <;> cases hn
  | _ => cases hn

section parting

variable {t : Trace} {e : Event}

theorem sawEnd_cons (h : sawEnd c t=true) : sawEnd c (e::t)=true := by
  unfold sawEnd
  split
  · simp_all
  · simp_all
  · simp_all

theorem sawError_cons (h : sawError c t=true) : sawError c (e::t)=true := by
  unfold sawError
  split <;> simp_all

end parting

theorem step_parting {options : TcpOptions} (h : Faithful options s) (hp : Parting s)
    (hs : machine.step s act=some t) : Parting t := by
  intro hd c client
  obtain ⟨-,⟨q,last,rfl,ha,rfl⟩|⟨r,rfl,ht⟩|⟨r,rfl,ht⟩|⟨d,rest,rfl,hw,rfl⟩|⟨e,k,rfl,hk,rfl⟩⟩ :=
    step_cases hs
  · exact hp hd c client
  · obtain ⟨runs,k,i,app,lines,hk,hn,rfl⟩ := appStep_cases ht
    have logs := app_lines hn
    have hd : s.app.thread s.impl r s.worker=.drop := hd
    have dropping : s.worker=.drop := by
      rwa [thread_kept (by simp [hd]) (by simp [hd])] at hd
    obtain ⟨-,quiet,same⟩ := Control.unmoved h.base.control (by rw [dropping]; rfl) runs hn
    have before : s.kernel.connection s.impl.clientFd=some c := by
      rw [← same,← connection_congr ((answer_quiet quiet hk).1 _)]
      exact client
    show sawEnd c (lines++_)=true ∨ sawError c (lines++_)=true
    rw [logs.skip (f := sawEnd c) fun _ _ _ => rfl,logs.skip (f := sawError c) fun _ _ _ => rfl]
    exact (hp dropping c before).imp sawEnd_cons sawError_cons
  · obtain ⟨k,i,v,lines,hk,hn,rfl⟩ := workerStep_cases ht
    have logs := worker_lines hn
    obtain ⟨quiet,same,-⟩ := worker_keeps h.base.control.outside hn
    obtain ⟨-,-,-,-,-,source,-⟩ := worker_moves h.base.control.outside hn
    obtain ⟨⟨rest,hw⟩,ends⟩ := source hd
    have before : s.kernel.connection s.impl.clientFd=some c := by
      rw [← same,← connection_congr ((answer_quiet quiet hk).1 _)]
      exact client
    have opened : openAs c s.trace=some s.impl.clientFd :=
      (h.numbered.fds c).symm.trans (h.base.wf.connection.mp before)
    show sawEnd c (lines++_)=true ∨ sawError c (lines++_)=true
    rw [logs.skip (f := sawEnd c) fun _ _ _ => rfl,logs.skip (f := sawError c) fun _ _ _ => rfl,hw]
    cases r with
    | data bs =>
      obtain rfl : bs=[] := by simpa [Reply.endsStream] using ends
      exact .inl (by simp [Worker.call,sawEnd,opened])
    | fail e =>
      have hard : e.wouldBlock=false := by simpa [Reply.endsStream] using ends
      exact .inr (by simp [Worker.call,sawError,opened,hard])
    | _ => cases ends
  · cases d <;> cases hd
  · exact hp hd c ((env_connection e hk _).symm.trans client)

theorem step_onward (h : Sound s) (hs : machine.step s act=some t) (c : ConnId) :
    s.kernel.Onward t.kernel c := by
  obtain ⟨-,⟨q,last,rfl,ha,rfl⟩|⟨r,rfl,ht⟩|⟨r,rfl,ht⟩|⟨d,rest,rfl,hw,rfl⟩|⟨e,k,rfl,hk,rfl⟩⟩ :=
    step_cases hs
  · exact .refl s.kernel c
  · obtain ⟨-,k,i,app,lines,hk,-,rfl⟩ := appStep_cases ht
    exact answer_onward h.wf hk c
  · obtain ⟨k,i,v,lines,hk,-,rfl⟩ := workerStep_cases ht
    exact answer_onward h.wf hk c
  · exact .refl s.kernel c
  · exact env_onward h.wf e hk c

end steps

/-- What cannot be: a connection that always has something to read and is in use for ever. -/
structure Overdue (c : ConnId) (fd : Fd) (σ : Nat → State) (n : Nat) : Prop where
  lasts : ∀ p≥n,Engaged c fd (σ p)
  readable : ∀ p≥n,(σ p).kernel.readable fd=true
  stays : ∀ p≥n,(σ p).worker≠.drop

namespace FairRun

variable {options : TcpOptions} {loggerCb dataCb pipeSignal : Bool} {foreign : List Fd}
  {σ : Nat → State} {α : Nat → Action} {c : ConnId} {fd : Fd} {n p : Nat}

theorem heard (run : FairRun options loggerCb dataCb pipeSignal foreign σ α)
    (heeds : ∀ n,Heeds (σ n) (α n)) (n : Nat) : Heard (σ n) := by
  have both : Sound (σ n) ∧ Heard (σ n) := run.runs.keeps (I := fun s => Sound s ∧ Heard s)
    (fun p _ h ht => step_heard _ _ _ h ⟨run.civil p,heeds p⟩ ht) (by
      rw [run.start]
      exact ⟨boot_sound options loggerCb dataCb pipeSignal foreign,by simp [State.boot],
        by simp [State.boot]⟩) n n.zero_le
  exact both.2

theorem batch_ends (run : FairRun options loggerCb dataCb pipeSignal foreign σ α) :
    LeadsTo σ (fun s => s.worker.inBatch=true) fun s => s.worker=.loopHead ∨ s.worker=.drop :=
  batch_leads run.runs run.sound run.fair

/-- The inner loop would not end, -/
theorem undrained (run : FairRun options loggerCb dataCb pipeSignal foreign σ α)
    (h : Overdue c fd σ n) (hp : n≤p) : (σ p).worker.drains=false := by
  by_contra hd
  have still (q : Nat) (hq : p≤q) : (σ q).worker.drains=true := by
    induction q,hq using Nat.le_induction with
    | base => simpa using hd
    | succ q hq ih =>
      have late := hp.trans hq
      have next := (h.lasts q late).drains (run.sound q) (h.readable q late) ih (run.runs q)
      exact next.resolve_right (h.stays (q+1) (Nat.le_succ_of_le late))
  have inside : (σ p).worker.inBatch=true := by
    cases hw : (σ p).worker with
    | batch | none | start | loopHead | epollWait | waiting | drop | finished =>
      rw [hw] at hd
      exact absurd rfl hd
    | _ => rfl
  obtain ⟨q,hq,head|drop⟩ := run.batch_ends p inside
  · have there := still q hq
    rw [head] at there
    cases there
  · exact h.stays q (hp.trans hq) drop

/-- so it is never entered, -/
theorem unread (run : FairRun options loggerCb dataCb pipeSignal foreign σ α)
    (h : Overdue c fd σ n) (hp : n≤p) : (σ p).worker.willRead=false := by
  by_contra hr
  have inside : (σ p).worker.inBatch=true := by
    cases hw : (σ p).worker with
    | batch => rfl
    | _ =>
      rw [hw] at hr
      exact absurd rfl hr
  obtain ⟨q,hq,out⟩ := run.batch_ends p inside
  obtain ⟨m,hm,-,reads,left⟩ := ends_before (P := fun p => (σ p).worker.willRead=true) hq
    (by simpa using hr) (by rcases out with hw|hw <;> simp [hw,Worker.willRead])
  have late := hp.trans hm
  rcases (h.lasts m late).reads (run.sound m) reads (run.runs m) with stays|drains
  · exact left stays
  · rw [run.undrained h (Nat.le_succ_of_le late)] at drains
    cases drains

/-- although the socket is in the ready list at every `epoll_wait`. -/
theorem queued (run : FairRun options loggerCb dataCb pipeSignal foreign σ α)
    (heeds : ∀ n,Heeds (σ n) (α n)) (h : Overdue c fd σ n) (hp : n≤p)
    (waits : (σ p).worker.waits=true) : fd∈(σ p).ready := by
  have engaged := h.lasts p hp
  have watching := (run.heard heeds p).watching (.inr engaged.up)
  rw [engaged.own] at watching
  have none : (σ p).worker.remaining fd=[] := by
    cases hw : (σ p).worker with
    | epollWait | waiting => rfl
    | _ =>
      rw [hw] at waits
      cases waits
  rw [none] at watching
  exact (watching.awake.covers fd watching.hooked (h.readable p hp)).resolve_right
    List.not_mem_nil

theorem not_overdue (run : FairRun options loggerCb dataCb pipeSignal foreign σ α)
    (heeds : ∀ n,Heeds (σ n) (α n)) : ¬Overdue c fd σ n := by
  intro h
  have alert : Alert σ α := by
    intro m inside
    by_contra held
    have idle (p : Nat) (hp : p≥max m n) : (α p).fromWorker=false := by
      by_contra moves
      exact held ⟨p,(le_max_left m n).trans hp,by simpa using moves⟩
    rcases run.fair.worker (max m n) idle with rests|⟨⟨ep,waits⟩,-,empty⟩
    · rw [inside _ (le_max_left m n)] at rests
      cases rests
    · have here := run.queued heeds h (le_max_right m n) (by rw [waits]; rfl)
      rw [empty _ le_rfl] at here
      exact absurd here (Finset.notMem_empty fd)
  have asks (p : Nat) : ∃ q≥p,(σ q).worker=.epollWait := by
    have late := le_max_right p n
    obtain ⟨q,hq,⟨asks,-⟩|done⟩ := worker_leads run.runs run.sound run.fair alert (max p n)
      (h.lasts _ late).inside
    · exact ⟨q,(le_max_left p n).trans hq,asks⟩
    · have inside := (h.lasts q (late.trans hq)).inside
      rw [done] at inside
      cases inside
  obtain ⟨p,hp,es,act,e,he,-,input⟩ := run.fair.reported n fd
    (fun p hp waits => ⟨run.queued heeds h hp (by rw [waits]; rfl),h.readable p hp⟩) asks
  have step := run.runs p
  rw [act] at step
  obtain ⟨k,i,v,lines,-,hn,after⟩ := workerStep_cases (workerStep_of_step step)
  have reads := run.unread h (Nat.le_succ_of_le hp)
  rw [after] at reads
  rw [show v.willRead=true from next_events hn he input] at reads
  cases reads

/-- A connection that is in use and always has something to read is given up some time. -/
theorem engaged_leads (run : FairRun options loggerCb dataCb pipeSignal foreign σ α)
    (heeds : ∀ n,Heeds (σ n) (α n)) (engaged : Engaged c fd (σ n))
    (readable : ∀ p≥n,Engaged c fd (σ p) → (σ p).kernel.readable fd=true) :
    ∃ p≥n,Engaged c fd (σ p) ∧ ((σ p).app.tearsDown=true ∨ (σ p).worker=.drop ∨
      (σ (p+1)).worker=.finished ∧ (σ (p+1)).impl.isConnected=true) := by
  rcases lasts_or_ends (P := fun p => Engaged c fd (σ p)) engaged with lasts|⟨p,hp,here,gone⟩
  · by_contra never
    exact run.not_overdue heeds ⟨lasts,fun p hp => readable p hp (lasts p hp),fun p hp drop =>
      never ⟨p,hp,lasts p hp,.inr (.inl drop)⟩⟩
  · exact ⟨p,hp,here,(here.step (run.sound p) (run.runs p)).resolve_left gone⟩

/-- Whoever gives a connection up lowers the flag. -/
theorem given_up (run : FairRun options loggerCb dataCb pipeSignal foreign σ α)
    (h : (σ n).app.tearsDown=true ∨ (σ n).worker=.drop) :
    ∃ m≥n,(σ m).impl.isConnected=false := by
  rcases h with tears|drop
  · have leads : LeadsTo σ (fun s => s.app.tearsDown=true) fun s => s.impl.isConnected=false := by
      apply run.runs.variant (fun _ => 0) (fun _ a => a.fromApp=true)
      · intro p stays
        by_contra held
        obtain ⟨purpose,ha⟩ := tearsDown_at (stays p le_rfl)
        have idle (q : Nat) (hq : q≥p) : (α q).fromApp=false := by
          by_contra moves
          exact held ⟨q,hq,by simpa using moves⟩
        rcases run.fair.app p idle with rests|waits
        · rw [ha] at rests
          cases rests
        · have waits := waits p le_rfl
          rw [ha] at waits
          cases waits
      · intro p t tears ht
        obtain ⟨purpose,ha⟩ := tearsDown_at tears
        have aside (idle : (α p).fromApp=false) : t.app.tearsDown=true := by
          rw [app_stays idle ht]
          exact tears
        obtain ⟨-,⟨q,last,-,hp,-⟩|⟨r,-,happ⟩|⟨r,act,-⟩|⟨d,rest,act,-⟩|⟨e,k,act,-⟩⟩ := step_cases ht
        · rw [ha] at hp
          cases hp
        · obtain ⟨-,k,i,app,lines,-,hn,rfl⟩ := appStep_cases happ
          rw [ha] at hn
          cases r <;> cases hn
          exact .inl rfl
        all_goals exact .inr ⟨aside (by rw [act]; rfl),le_rfl,by simp [act,Action.fromApp]⟩
    exact leads n tears
  · have leads : LeadsTo σ (fun s => s.worker=.drop) fun s => s.impl.isConnected=false := by
      apply run.runs.variant (fun _ => 0) (fun _ a => a.fromWorker=true)
      · intro p stays
        by_contra held
        have here := stays p le_rfl
        have idle (q : Nat) (hq : q≥p) : (α q).fromWorker=false := by
          by_contra moves
          exact held ⟨q,hq,by simpa using moves⟩
        rcases run.fair.worker p idle with rests|⟨⟨ep,waits⟩,-⟩
        · rw [here] at rests
          cases rests
        · rw [here] at waits
          cases waits
      · intro p t drop ht
        rcases worker_point (run.sound p) (by rw [drop]; rfl) ht with
          ⟨aside,same⟩|⟨d,rest,-,user,-⟩|⟨r,lines,-,hn⟩
        · exact .inr ⟨same.trans drop,le_rfl,by simp [aside]⟩
        · rw [drop] at user
          cases user
        · left
          rw [drop] at hn
          generalize t.worker=v,t.impl=j at hn ⊢
          cases r <;> cases hn
          rfl
    exact leads n drop

/-- The end of a connection does not go unnoticed. -/
theorem loss_noticed (run : FairRun options loggerCb dataCb pipeSignal foreign σ α)
    (heeds : ∀ n,Heeds (σ n) (α n)) (engaged : Engaged c fd (σ n))
    (ends : ((σ n).kernel.conns c).pipe.ending≠.flowing) :
    ∃ m≥n,(σ m).impl.isConnected=false ∨ (σ m).worker=.finished := by
  have born := engaged.born (run.sound n).wf
  have stays := run.runs.keeps (n := n)
    (I := fun s => c<s.kernel.born ∧ (s.kernel.conns c).pipe.ending≠.flowing)
    (fun p t hp ht =>
      have onward := step_onward (run.sound p) ht c
      ⟨onward.born hp.1,onward.ends hp.1 hp.2⟩) ⟨born,ends⟩
  obtain ⟨p,hp,-,out⟩ := run.engaged_leads heeds engaged fun p hp there =>
    there.readable (by simp [Pipe.readable,(stays p hp).2])
  rcases out with tears|drop|⟨done,-⟩
  · obtain ⟨m,hm,down⟩ := run.given_up (.inl tears)
    exact ⟨m,hp.trans hm,.inl down⟩
  · obtain ⟨m,hm,down⟩ := run.given_up (.inr drop)
    exact ⟨m,hp.trans hm,.inl down⟩
  · exact ⟨p+1,Nat.le_succ_of_le hp,.inr done⟩

/-- `greeting`, up to the end of the worker. -/
def greeted : List Action := greeting++[.worker .ok,.worker .ok]

theorem greeted_fair : ∃ σ α,FairRun {} false true true [] σ α ∧ (∀ n,Heeds (σ n) (α n)) ∧
    ∀ n,machine.run (.boot {} false true true []) (greeted.take n)=some (σ n) := by
  have run : (machine.run (.boot {} false true true []) greeted).map State.fate=some .alive := by
    decide +kernel
  obtain ⟨t,ht,alive⟩ := Option.map_eq_some_iff.mp run
  obtain ⟨σ,α,run,states,meets⟩ := of_run ht alive (m := 12) (n := 30) (by decide) (by decide)
    (by decide) (by decide +kernel) (by decide +kernel)
  exact ⟨σ,α,run,meets Heeds (by decide +kernel) trivial,states⟩

/-- What can be computed of a state of that run. -/
theorem greeted_engaged {σ : Nat → State} (states : ∀ n,machine.run (.boot {} false true true [])
    (greeted.take n)=some (σ n)) (n : Nat)
    (run : (machine.run (.boot {} false true true []) (greeted.take n)).map (fun s =>
      (s.impl.isConnected,s.impl.clientFd,s.kernel.connection 3,s.worker.rests))=
        some (true,3,some 0,false)) : Engaged 0 3 (σ n) := by
  rw [states] at run
  obtain ⟨up,own,client,inside⟩ := Prod.mk.injEq .. ▸ Prod.mk.injEq .. ▸ Prod.mk.injEq .. ▸
    Option.some.inj run
  exact ⟨up,own,client,inside⟩

theorem loss_noticed_greeted : ∃ σ α,FairRun {} false true true [] σ α ∧ Engaged 0 3 (σ 24) ∧
    ∃ m≥24,(σ m).impl.isConnected=false ∨ (σ m).worker=.finished := by
  obtain ⟨σ,α,run,heeds,states⟩ := greeted_fair
  have engaged := greeted_engaged states 24 (by decide +kernel)
  have closed : (machine.run (.boot {} false true true []) (greeted.take 24)).map (fun s =>
      decide ((s.kernel.conns 0).pipe.ending=.finished))=some true := by
    decide +kernel
  rw [states] at closed
  have finished : ((σ 24).kernel.conns 0).pipe.ending=.finished := by simpa using closed
  exact ⟨σ,α,run,engaged,run.loss_noticed heeds engaged (by simp [finished])⟩

theorem faithful (run : FairRun options loggerCb true pipeSignal foreign σ α)
    (hb : 1 ≤ options.networkBufferSize) (n : Nat) : Faithful options (σ n) ∧ Parting (σ n) := by
  have ho : 0 < options.bufferSize := by
    unfold TcpOptions.bufferSize
    omega
  exact run.runs.keeps (I := fun s => Faithful options s ∧ Parting s) (fun p t hp ht =>
    ⟨step_faithful ho _ _ t hp.1 (run.civil p) ht,step_parting hp.1 hp.2 ht⟩) (by
      rw [run.start]
      exact ⟨boot_faithful options loggerCb pipeSignal foreign,by simp [Parting,State.boot]⟩) n
    n.zero_le

/-- What has been taken from a stream is handed to the callback in the same batch. -/
theorem taken_given (run : FairRun options loggerCb true pipeSignal foreign σ α)
    (hb : 1 ≤ options.networkBufferSize) (c : ConnId) (n : Nat) : ∃ m≥n,
    ((σ n).kernel.conns c).pipe.taken<+:(payloads c (σ m).trace).flatten := by
  obtain ⟨m,hm,out⟩ : ∃ m≥n,∀ fd o,(σ m).worker.inhand fd o=[] := by
    cases inside : (σ n).worker.inBatch with
    | true =>
      obtain ⟨m,hm,head|drop⟩ := run.batch_ends n inside
      · exact ⟨m,hm,by simp [head,Worker.inhand]⟩
      · exact ⟨m,hm,by simp [drop,Worker.inhand]⟩
    | false =>
      refine ⟨n,le_rfl,fun fd o => ?_⟩
      cases hp : (σ n).worker with
      | deliver =>
        rw [hp] at inside
        cases inside
      | _ => rfl
  have grown := run.runs.keeps (n := n)
    (I := fun s => ((σ n).kernel.conns c).pipe.taken<+:(s.kernel.conns c).pipe.taken)
    (fun p t hp ht => hp.trans (step_onward (run.sound p) ht c).grows.taken)
    (List.prefix_refl _) m hm
  have bytes := (run.faithful hb m).1.custody.bytes c
  rw [out,List.append_nil] at bytes
  exact ⟨m,hm,bytes ▸ grown⟩

/-- What has arrived at a client that is connected is handed to the data callback, or else the
connection is given up by the application, or a read or `epoll_wait` fails for good. -/
theorem reply_delivered (run : FairRun options loggerCb true pipeSignal foreign σ α)
    (hb : 1 ≤ options.networkBufferSize) (heeds : ∀ n,Heeds (σ n) (α n))
    (engaged : Engaged c fd (σ n)) : ∃ m≥n,
    ((σ n).kernel.conns c).pipe.taken++((σ n).kernel.conns c).pipe.unread<+:
      (payloads c (σ m).trace).flatten ∨ sawError c (σ m).trace=true ∨
      (σ m).app.tearsDown=true ∨ (σ m).worker=.finished ∧ (σ m).impl.isConnected=true := by
  by_cases more : ((σ n).kernel.conns c).pipe.unread=[]
  · obtain ⟨m,hm,given⟩ := run.taken_given hb c n
    exact ⟨m,hm,.inl (by rwa [more,List.append_nil])⟩
  have owed := ((σ n).kernel.conns c).pipe.owes_arrived more
  generalize hl : ((σ n).kernel.conns c).pipe.taken++((σ n).kernel.conns c).pipe.unread=l at owed ⊢
  have sent : l<+:((σ n).kernel.conns c).pipe.sent := hl ▸ Pipe.arrived_prefix _
  by_cases reached : ∃ p≥n,l.length≤((σ p).kernel.conns c).pipe.taken.length
  · obtain ⟨p,hp,all⟩ := reached
    have grown := run.runs.keeps (n := n) (I := fun s => l<+:(s.kernel.conns c).pipe.sent)
      (fun p t hp ht => hp.trans (step_onward (run.sound p) ht c).grows.sent) sent p hp
    obtain ⟨m,hm,given⟩ := run.taken_given hb c p
    exact ⟨m,hp.trans hm,.inl
      ((List.prefix_of_prefix_length_le grown (Pipe.taken_prefix _) all).trans given)⟩
  · -- the debt would stay for ever
    have owes (p : Nat) (hp : n≤p) :
        c<(σ p).kernel.born ∧ ((σ p).kernel.conns c).pipe.Owes l.length := by
      induction p,hp using Nat.le_induction with
      | base => exact ⟨engaged.born (run.sound n).wf,owed⟩
      | succ p hp ih =>
        have onward := step_onward (run.sound p) (run.runs p) c
        refine ⟨onward.born ih.1,?_⟩
        exact (onward.owes _ ih.1 ih.2).resolve_right fun all =>
          reached ⟨p+1,Nat.le_succ_of_le hp,all⟩
    obtain ⟨p,hp,there,out⟩ := run.engaged_leads heeds engaged fun p hp there =>
      there.readable (owes p hp).2.readable
    rcases out with tears|drop|done
    · exact ⟨p,hp,.inr (.inr (.inl tears))⟩
    · obtain ⟨faithful,parting⟩ := run.faithful hb p
      rcases parting drop c (by rw [there.own]; exact there.client) with ended|error
      · exact absurd (faithful.custody.ended c ended).1 (owes p hp).2.incomplete
      · exact ⟨p,hp,.inr (.inl error)⟩
    · exact ⟨p+1,Nat.le_succ_of_le hp,.inr (.inr (.inr done))⟩

theorem reply_delivered_greeted : ∃ σ α,FairRun {} false true true [] σ α ∧
    Engaged 0 3 (σ 17) ∧ ∃ m≥17,[65,66]<+:(payloads 0 (σ m).trace).flatten ∨
      sawError 0 (σ m).trace=true ∨ (σ m).app.tearsDown=true ∨
      (σ m).worker=.finished ∧ (σ m).impl.isConnected=true := by
  obtain ⟨σ,α,run,heeds,states⟩ := greeted_fair
  have engaged := greeted_engaged states 17 (by decide +kernel)
  have arrived : (machine.run (.boot {} false true true []) (greeted.take 17)).map (fun s =>
      (s.kernel.conns 0).pipe.taken++(s.kernel.conns 0).pipe.unread)=some [65,66] := by
    decide +kernel
  rw [states] at arrived
  have bytes : ((σ 17).kernel.conns 0).pipe.taken++((σ 17).kernel.conns 0).pipe.unread=[65,66] :=
    Option.some.inj arrived
  have given := run.reply_delivered (by decide) heeds engaged
  rw [bytes] at given
  exact ⟨σ,α,run,engaged,given⟩

end FairRun

end TuyulNet.Client
