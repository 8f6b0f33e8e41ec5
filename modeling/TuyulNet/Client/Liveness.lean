import TuyulNet.Framework.Temporal
import TuyulNet.Client.Flood
import TuyulNet.Client.Reader
import TuyulNet.Client.Sending

namespace TuyulNet.Client

open Framework Kernel

/-- Between two calls, or destroyed. -/
def App.rests : App → Bool
  | .idle _ | .gone => true
  | _ => false

/-- There is no thread, or it has left its function. -/
def Worker.rests : Worker → Bool
  | .none | .finished => true
  | _ => false

/-- Inside the `for` loop over a batch. -/
def Worker.inBatch : Worker → Bool
  | .batch _ | .read _ | .deliver _ _ | .user _ | .testDisconnect _ | .shutdown _ _
  | .send _ _ => true
  | _ => false

/-- Between the start of the thread, or of a batch, and the test of `is_connected`. -/
def Worker.between : Worker → Bool
  | .start | .loopHead | .drop => true
  | _ => false

/-- Steps of the worker thread, in the library or in the data callback. -/
def Action.fromWorker : Action → Bool
  | .worker _ | .callback _ => true
  | _ => false

/-- `EAGAIN` for the application thread. -/
def Action.stalled : Action → Bool
  | .app (.fail e) => e.wouldBlock
  | _ => false

/-- The ready list that the worker waits on. -/
def State.ready (s : State) : Finset Fd := (s.kernel.polls s.impl.epollFd).ready

/-- No batch is fed without end. -/
def Paced (σ : Nat → State) (α : Nat → Action) : Prop := ∀ n,(∀ p≥n,(σ p).worker.inBatch=true) →
  ∃ m≥n,∀ p≥m,∀ c k,α p=.env (.arrive c k) →
    (σ p).kernel.connection (σ p).impl.clientFd≠some c

/-- What the threads of a client are owed in an infinite run. The application thread is held up
in the middle of a call only by `join`, and the worker only by `epoll_wait` without a timeout
while nothing is ready. The data callback returns. A socket that is written to again and again
takes something some time, or fails for good. A readable socket is reported as such some time if
the worker keeps asking; and no batch is fed without end. -/
structure Fair (σ : Nat → State) (α : Nat → Action) : Prop where
  app : ∀ n,(∀ p≥n,(α p).fromApp=false) →
    (σ n).app.rests=true ∨ ∀ p≥n,(σ p).app.waits (σ p).worker=true
  worker : ∀ n,(∀ p≥n,(α p).fromWorker=false) → (σ n).worker.rests=true ∨
    (∃ ep,(σ n).worker=.waiting ep) ∧ (σ n).impl.options.watchdogTimeoutMs<0 ∧
      ∀ p≥n,(σ p).ready=∅
  callbacks : ∀ n,∃ p≥n,(σ p).worker.given=false
  writable : ∀ n,(∀ p≥n,(σ p).app.sending≠none) →
    ∃ p≥n,(α p).fromApp=true ∧ (α p).stalled=false
  reported : ∀ n fd,
    (∀ p≥n,(σ p).worker=.epollWait → fd∈(σ p).ready ∧ (σ p).kernel.readable fd=true) →
    (∀ p,∃ q≥p,(σ q).worker=.epollWait) →
    ∃ p≥n,∃ es,α p=.worker (.events es) ∧ ∃ e∈es,e.fd=fd ∧ e.mask.input=true
  paced : Paced σ α

/-- Steps that the worker may still take in its batch if nothing more arrives. What the callback
does counts as one. -/
def Worker.work : Worker → Nat
  | .batch es => 2*es.length+1
  | .read rest => 2*rest.length+2
  | .deliver _ rest | .user rest | .testDisconnect rest | .shutdown _ rest | .send _ rest =>
    2*rest.length+3
  | _ => 0

section steps

variable {i j : Impl} {a b : App} {w v : Worker} {k l : Kernel} {r : Reply} {lines : Trace}
  {s t : State} {act : Action} {c : ConnId}

theorem batch_busy (hb : w.inBatch=true) : w.busy=true ∧ w.rests=false := by
  cases w with
  | none | start | loopHead | finished => cases hb
  | _ => exact ⟨rfl,rfl⟩

/-- Each step of the library in a batch finishes a piece of work, except that data adds some. -/
theorem next_work (hb : w.inBatch=true) (hn : w.next i r=some (j,v,lines)) :
    v=.loopHead ∨ v=.drop ∨ v.inBatch=true ∧
      (v.work≤w.work ∧ (w.given=false → v.work<w.work) ∨
        ∃ rest bs,w=.read rest ∧ r=.data bs ∧ bs≠[] ∧ v.work≤w.work+1) := by
  cases w with
  | batch es =>
    cases es with
    | nil =>
      cases r <;> cases hn
      exact .inl rfl
    | cons e rest =>
      cases r <;> cases hn
      right; right
      split <;> exact ⟨rfl,.inl (by simp only [Worker.work,List.length_cons]; omega)⟩
  | read rest =>
    cases r with
    | data bs =>
      simp only [Worker.next,loopNext] at hn
      split at hn <;> cases hn
      · exact .inr (.inl rfl)
      · rename_i hne
        right; right
        split <;> exact ⟨rfl,.inr ⟨rest,bs,rfl,rfl,hne,by simp only [Worker.work]; omega⟩⟩
    | fail e =>
      simp only [Worker.next,loopNext] at hn
      split at hn <;> cases hn
      · exact .inr (.inr ⟨rfl,.inl (by simp only [Worker.work]; omega)⟩)
      · exact .inr (.inl rfl)
    | _ => cases hn
  | deliver payload rest =>
    cases r <;> cases hn
    exact .inr (.inr ⟨rfl,.inl ⟨le_rfl,by simp [Worker.given]⟩⟩)
  | testDisconnect rest =>
    cases r <;> cases hn
    right; right
    split <;> exact ⟨rfl,.inl ⟨le_rfl,by simp [Worker.given]⟩⟩
  | shutdown stage rest =>
    obtain ⟨⟨j,more,lines⟩,-,heq⟩ := Option.map_eq_some_iff.mp hn
    cases heq
    right; right
    cases more <;> exact ⟨rfl,.inl ⟨le_rfl,by simp [Worker.given]⟩⟩
  | send x rest =>
    obtain ⟨⟨more,lines⟩,-,heq⟩ := Option.map_eq_some_iff.mp hn
    cases heq
    right; right
    cases more <;> exact ⟨rfl,.inl ⟨le_rfl,by simp [Worker.given]⟩⟩
  | user => cases r <;> cases hn
  | _ => cases hb

/-- A worker that is inside its function moves by itself only. -/
theorem Control.apart {pending : Bool} (hc : Control i a.phase w pending) (hw : w.rests=false)
    (runs : a.waits w=false) : a.thread i r w=w := by
  rcases app_thread a i r w [] with ⟨rfl,-,free,-⟩|⟨⟨purpose,rfl⟩,-⟩|⟨-,same,-⟩
  · rw [hc.unmanned (by simp [App.phase]) free] at hw
    cases hw
  · have left : w=.finished := by simpa [App.waits] using runs
    rw [left] at hw
    cases hw
  · exact same

/-- The place of the worker changes as `next` says, or through the callback, or not at all. -/
theorem worker_point (h : Sound s) (hw : s.worker.rests=false) (hs : machine.step s act=some t) :
    act.fromWorker=false ∧ t.worker=s.worker ∨
    (∃ c rest,act=.callback c ∧ s.worker=.user rest ∧ t={ s with worker := c.entry rest }) ∨
    ∃ r lines,act=.worker r ∧ s.worker.next s.impl r=some (t.impl,t.worker,lines) := by
  obtain ⟨-,⟨q,last,rfl,hp,rfl⟩|⟨r,rfl,ht⟩|⟨r,rfl,ht⟩|⟨c,rest,rfl,hp,rfl⟩|⟨e,k,rfl,hk,rfl⟩⟩ :=
    step_cases hs
  · exact .inl ⟨rfl,rfl⟩
  · obtain ⟨runs,k,i,app,lines,hk,hn,rfl⟩ := appStep_cases ht
    exact .inl ⟨rfl,Control.apart h.control hw runs⟩
  · obtain ⟨k,i,worker,lines,hk,hn,rfl⟩ := workerStep_cases ht
    exact .inr (.inr ⟨r,lines,rfl,hn⟩)
  · exact .inr (.inl ⟨c,rest,rfl,hp,rfl⟩)
  · exact .inl ⟨rfl,rfl⟩

/-- While the worker is in a batch, its connection stays, and only a read takes from it. -/
theorem batch_stream (h : Sound s) (hb : s.worker.inBatch=true)
    (client : s.kernel.connection s.impl.clientFd=some c) (hs : machine.step s act=some t)
    (quiet : ∀ n,act≠.env (.arrive c n)) :
    t.kernel.connection t.impl.clientFd=some c ∧
      ((t.kernel.conns c).pipe.unread.length≤(s.kernel.conns c).pipe.unread.length ∧
        ∀ rest bs,s.worker=.read rest → act=.worker (.data bs) → bs≠[] →
          (t.kernel.conns c).pipe.unread.length<(s.kernel.conns c).pipe.unread.length) := by
  have apart {k : Kernel} (hk : (k.conns c).pipe=(s.kernel.conns c).pipe) :
      (k.conns c).pipe.unread.length≤(s.kernel.conns c).pipe.unread.length := by rw [hk]
  obtain ⟨f,file⟩ := connection_some.mp client
  obtain ⟨-,⟨q,last,rfl,hp,rfl⟩|⟨r,rfl,ht⟩|⟨r,rfl,ht⟩|⟨d,rest,rfl,hp,rfl⟩|⟨e,k,rfl,hk,rfl⟩⟩ :=
    step_cases hs
  · exact ⟨client,le_rfl,by simp⟩
  · obtain ⟨runs,k,i,app,lines,hk,hn,rfl⟩ := appStep_cases ht
    obtain ⟨-,calm,same⟩ := Control.unmoved h.control (batch_busy hb).1 runs hn
    refine ⟨?_,?_,by simp⟩
    · show k.connection i.clientFd=some c
      rw [same,connection_congr ((answer_quiet calm hk).1 _),client]
    · rcases answer_pipe h.wf hk c with same|⟨fd,count,bs,g,hc,-⟩
      · exact apart same
      · have plain := (app_plain s.app s.impl).1
        rw [hc] at plain
        cases plain
  · obtain ⟨k,i,v,lines,hk,hn,rfl⟩ := workerStep_cases ht
    obtain ⟨calm,same,-⟩ := worker_keeps h.control.outside hn
    refine ⟨?_,?_,?_⟩
    · show k.connection i.clientFd=some c
      rw [same,connection_congr ((answer_quiet calm hk).1 _),client]
    · rcases answer_pipe h.wf hk c with same|⟨fd,count,bs,g,-,-,-,-,-,take⟩
      · exact apart same
      · obtain ⟨-,left,-⟩ := Pipe.take_spec _ _ bs take
        show (k.conns c).pipe.unread.length≤_
        rw [left,List.length_drop]
        exact Nat.sub_le _ _
    · intro rest bs hw hr more
      cases hr
      rw [hw] at hk
      have hk : s.kernel.answerRead s.impl.clientFd s.impl.options.bufferSize (.data bs)=some k :=
        hk
      rcases answerRead_cases file hk with ⟨cs,hx,-,-,p,take,rfl⟩|⟨hx,-⟩|⟨e,hx,-⟩
      · cases hx
        obtain ⟨front,left,-⟩ := Pipe.take_spec _ p bs take
        have some' : 0 < bs.length := List.length_pos_iff.mpr more
        have fits := front.length_le
        show ((s.kernel.setPipe c p).conns c).pipe.unread.length<_
        rw [setPipe_pipe,if_pos rfl,left,List.length_drop]
        omega
      · cases hx
        exact absurd rfl more
      · cases hx
  · exact ⟨client,le_rfl,by simp⟩
  · refine ⟨(env_connection e hk _).trans client,?_,by simp⟩
    exact env_unread e hk (h.wf.attached _ c f file).2 fun n he => quiet n (by rw [he])

/-- A batch ends at the head of the loop, or with the connection. -/
theorem step_batch (h : Sound s) (hb : s.worker.inBatch=true) (hs : machine.step s act=some t) :
    t.worker=.loopHead ∨ t.worker=.drop ∨ t.worker.inBatch=true ∧
      (t.worker.work≤ s.worker.work ∧
          (act.byWorker=true → s.worker.given=false → t.worker.work<s.worker.work) ∨
        ∃ rest bs,s.worker=.read rest ∧ act=.worker (.data bs) ∧ bs≠[] ∧
          t.worker.work≤ s.worker.work+1) := by
  rcases worker_point h (batch_busy hb).2 hs with ⟨aside,same⟩|⟨d,rest,rfl,hp,rfl⟩|⟨r,lines,rfl,hn⟩
  · rw [same]
    refine .inr (.inr ⟨hb,.inl ⟨le_rfl,fun own => ?_⟩⟩)
    cases act with
    | worker => cases aside
    | _ => cases own
  · right; right
    show (d.entry rest).inBatch=true ∧ ((d.entry rest).work≤_ ∧ _ ∨ _)
    rw [hp]
    cases d <;>
      exact ⟨rfl,.inl ⟨by simp [Callback.entry,Worker.work],by simp [Action.byWorker]⟩⟩
  · rcases next_work hb hn with head|drop|⟨inside,⟨less,own⟩|⟨rest,bs,hw,rfl,more,work⟩⟩
    · exact .inl head
    · exact .inr (.inl drop)
    · exact .inr (.inr ⟨inside,.inl ⟨less,fun _ => own⟩⟩)
    · exact .inr (.inr ⟨inside,.inr ⟨rest,bs,hw,rfl,more,work⟩⟩)

/-- Between two waits the worker makes for the test of the flag. -/
theorem next_between (hb : w.between=true) (hn : w.next i r=some (j,v,lines)) :
    v=.loopHead ∧ w≠.loopHead ∨ v=.epollWait ∧ j.isConnected=true ∨ v=.finished := by
  cases w with
  | start | drop =>
    cases r <;> cases hn
    exact .inl ⟨rfl,by simp⟩
  | loopHead =>
    cases r <;> cases hn
    cases hc : i.isConnected with
    | true => exact .inr (.inl ⟨rfl,rfl⟩)
    | false => exact .inr (.inr rfl)
  | _ => cases hb

/-- What `epoll_wait` returns, or fails with, ends the wait. -/
theorem next_waits (hw : w.waits=true) (hn : w.next i r=some (j,v,lines)) :
    w=.epollWait ∧ v=.waiting i.epollFd ∨ v=.loopHead ∨ v.inBatch=true ∨ v=.finished := by
  cases w with
  | epollWait =>
    cases r with
    | ok =>
      cases hn
      exact .inl ⟨rfl,rfl⟩
    | fail e =>
      cases hn
      right
      split
      · exact .inl rfl
      · exact .inr (.inr rfl)
    | _ => cases hn
  | waiting ep =>
    right
    cases r with
    | events es =>
      cases hn
      split
      · exact .inl rfl
      · exact .inr (.inl rfl)
    | fail e =>
      cases hn
      split
      · exact .inl rfl
      · exact .inr (.inr rfl)
    | _ => cases hn
  | _ => cases hw

end steps

section infinite

variable {σ : Nat → State} {α : Nat → Action} {n : Nat}

/-- As long as a batch lasts, the library comes to its next step in it. -/
theorem Fair.turns (fair : Fair σ α) (runs : machine.Runs σ α) (sound : ∀ n,Sound (σ n))
    (inside : ∀ p≥n,(σ p).worker.inBatch=true) :
    ∃ p≥n,(α p).byWorker=true ∧ (σ p).worker.given=false := by
  by_contra never
  obtain ⟨p,hp,own⟩ := fair.callbacks n
  -- from here on the worker would not move
  have next (q : Nat) (hq : p≤q) (same : (σ q).worker=(σ p).worker) :
      (α q).fromWorker=false ∧ (σ (q+1)).worker=(σ p).worker := by
    rcases worker_point (sound q) (batch_busy (inside q (hp.trans hq))).2 (runs q) with
      ⟨aside,stays⟩|⟨c,rest,-,user,-⟩|⟨r,lines,act,-⟩
    · exact ⟨aside,stays.trans same⟩
    · rw [← same,user] at own
      cases own
    · exact absurd ⟨q,hp.trans hq,by rw [act]; rfl,same ▸ own⟩ never
  have still (q : Nat) (hq : p≤q) : (σ q).worker=(σ p).worker := by
    induction q,hq using Nat.le_induction with
    | base => rfl
    | succ q hq ih => exact (next q hq ih).2
  have here := batch_busy (inside p hp)
  rcases fair.worker p fun q hq => (next q hq (still q hq)).1 with rests|⟨⟨ep,waits⟩,-⟩
  · rw [here.2] at rests
    cases rests
  · have here := inside p hp
    rw [waits] at here
    cases here

/-- Every batch ends. -/
theorem batch_leads (runs : machine.Runs σ α) (sound : ∀ n,Sound (σ n)) (fair : Fair σ α) :
    LeadsTo σ (fun s => s.worker.inBatch=true) fun s => s.worker=.loopHead ∨ s.worker=.drop := by
  intro n inside
  by_contra never
  have outside (p : Nat) (hn : n≤p) : ¬((σ p).worker=.loopHead ∨ (σ p).worker=.drop) :=
    fun out => never ⟨p,hn,out⟩
  have lasts (p : Nat) (hn : n≤p) : (σ p).worker.inBatch=true := by
    induction p,hn using Nat.le_induction with
    | base => exact inside
    | succ p hn ih =>
      rcases step_batch (sound p) ih (runs p) with head|drop|⟨stays,-⟩
      · exact absurd (.inl head) (outside _ (Nat.le_succ_of_le hn))
      · exact absurd (.inr drop) (outside _ (Nat.le_succ_of_le hn))
      · exact stays
  obtain ⟨m,hm,quiet⟩ := fair.paced n lasts
  obtain ⟨c,f,file⟩ := (sound m).fields.linked (.inr (.inr (batch_busy (lasts m hm)).1))
  have leaves : LeadsTo (fun p => σ (m+p))
      (fun s => s.worker.inBatch=true ∧ s.kernel.connection s.impl.clientFd=some c)
      fun s => s.worker=.loopHead ∨ s.worker=.drop := by
    apply (runs.drop m).variant
      (fun s => 2*(s.kernel.conns c).pipe.unread.length+s.worker.work)
      (fun s a => a.byWorker=true ∧ s.worker.given=false)
    · intro p stays
      obtain ⟨q,hq,own⟩ := fair.turns runs sound (n := m+p) fun q hq =>
        lasts q (hm.trans ((Nat.le_add_right m p).trans hq))
      exact ⟨q-m,by omega,by rwa [Nat.add_sub_cancel' (by omega)]⟩
    · intro p t ⟨inside,client⟩ ht
      obtain ⟨stays,less,strict⟩ := batch_stream (sound (m+p)) inside client ht fun k arrives =>
        quiet (m+p) (Nat.le_add_right m p) c k arrives client
      rcases step_batch (sound (m+p)) inside ht with head|drop|⟨inside,⟨work,own⟩|
        ⟨rest,bs,hw,reply,more,work⟩⟩
      · exact .inl (.inl head)
      · exact .inl (.inr drop)
      · refine .inr ⟨⟨inside,stays⟩,by omega,fun ⟨by',given⟩ => ?_⟩
        have finished := own by' given
        omega
      · have taken := strict rest bs hw reply more
        exact .inr ⟨⟨inside,stays⟩,by omega,fun _ => by omega⟩
  obtain ⟨p,-,out⟩ := leaves 0 ⟨lasts m hm,connection_some.mpr ⟨f,file⟩⟩
  exact outside (m+p) (hm.trans (Nat.le_add_right m p)) out

/-- A worker that stays inside its function keeps being scheduled. -/
def Alert (σ : Nat → State) (α : Nat → Action) : Prop :=
  ∀ n,(∀ p≥n,(σ p).worker.rests=false) → ∃ p≥n,(α p).fromWorker=true

/-- Between two waits the worker gets to the next one, or to its end. -/
theorem between_leads (runs : machine.Runs σ α) (sound : ∀ n,Sound (σ n)) (alert : Alert σ α) :
    LeadsTo σ (fun s => s.worker.between=true)
      fun s => s.worker=.epollWait ∧ s.impl.isConnected=true ∨ s.worker=.finished := by
  have inside {w : Worker} (hb : w.between=true) : w.rests=false := by
    cases w with
    | none | finished => cases hb
    | _ => rfl
  apply runs.variant (fun s => if s.worker=.loopHead then 0 else 1) (fun _ a => a.fromWorker=true)
  · exact fun p stays => alert p fun q hq => inside (stays q hq)
  · intro p t hb ht
    rcases worker_point (sound p) (inside hb) ht with ⟨aside,same⟩|⟨c,rest,-,user,-⟩|⟨r,lines,-,hn⟩
    · rw [same]
      exact .inr ⟨hb,le_rfl,by simp [aside]⟩
    · rw [user] at hb
      cases hb
    · rcases next_between hb hn with ⟨head,before⟩|asks|done
      · exact .inr ⟨by rw [head]; rfl,by simp [head],by simp [head,before]⟩
      · exact .inl (.inl asks)
      · exact .inl (.inr done)

/-- Every wait ends. -/
theorem waiting_leads (runs : machine.Runs σ α) (sound : ∀ n,Sound (σ n)) (alert : Alert σ α) :
    LeadsTo σ (fun s => s.worker.waits=true)
      fun s => s.worker.inBatch=true ∨ s.worker.between=true ∨ s.worker=.finished := by
  have inside {w : Worker} (hw : w.waits=true) : w.rests=false := by
    cases w with
    | none | finished => cases hw
    | _ => rfl
  apply runs.variant (fun s => if s.worker=.epollWait then 1 else 0) (fun _ a => a.fromWorker=true)
  · exact fun p stays => alert p fun q hq => inside (stays q hq)
  · intro p t hw ht
    rcases worker_point (sound p) (inside hw) ht with ⟨aside,same⟩|⟨c,rest,-,user,-⟩|⟨r,lines,-,hn⟩
    · rw [same]
      exact .inr ⟨hw,le_rfl,by simp [aside]⟩
    · rw [user] at hw
      cases hw
    · rcases next_waits hw hn with ⟨before,after⟩|head|batch|done
      · exact .inr ⟨by rw [after]; rfl,by simp [after],by simp [after,before]⟩
      · exact .inl (.inr (.inl (by rw [head]; rfl)))
      · exact .inl (.inl batch)
      · exact .inl (.inr (.inr done))

/-- A worker inside its function comes to its next `epoll_wait` with the flag up, or to its
end. -/
theorem worker_leads (runs : machine.Runs σ α) (sound : ∀ n,Sound (σ n)) (fair : Fair σ α)
    (alert : Alert σ α) : LeadsTo σ (fun s => s.worker.rests=false)
      fun s => s.worker=.epollWait ∧ s.impl.isConnected=true ∨ s.worker=.finished := by
  have between := between_leads runs sound alert
  have batch : LeadsTo σ (fun s => s.worker.inBatch=true) fun s =>
      s.worker=.epollWait ∧ s.impl.isConnected=true ∨ s.worker=.finished := by
    apply (batch_leads runs sound fair).trans
    rintro p (head|drop)
    · exact between p (congrArg Worker.between head)
    · exact between p (congrArg Worker.between drop)
  have waiting := (waiting_leads runs sound alert).trans
    (batch.either (between.either (.of_imp fun _ => .inr)))
  intro p hw
  cases hp : (σ p).worker with
  | none | finished =>
    rw [hp] at hw
    cases hw
  | start | loopHead | drop => exact between p (congrArg Worker.between hp)
  | epollWait | waiting => exact waiting p (congrArg Worker.waits hp)
  | _ => exact batch p (congrArg Worker.inBatch hp)

/-- A run in which both threads come to rest is fair. -/
theorem Fair.of_rest {m n : Nat} (acted : (α m).fromApp=true) (app : ∀ p>m,(σ p).app.rests=true)
    (worked : (α n).fromWorker=true) (worker : ∀ p>n,(σ p).worker.rests=true) : Fair σ α where
  app := by
    intro k held
    left
    refine app k (Nat.lt_of_not_le fun early => ?_)
    rw [held m early] at acted
    cases acted
  worker := by
    intro k held
    left
    refine worker k (Nat.lt_of_not_le fun early => ?_)
    rw [held n early] at worked
    cases worked
  callbacks := by
    intro k
    refine ⟨max k (n+1),le_max_left k (n+1),?_⟩
    have rests := worker (max k (n+1)) (le_max_right k (n+1))
    cases hw : (σ (max k (n+1))).worker with
    | none | finished => rfl
    | _ =>
      rw [hw] at rests
      cases rests
  writable := by
    intro k sends
    have rests := app (max k (m+1)) (le_max_right k (m+1))
    have busy := sends (max k (m+1)) (le_max_left k (m+1))
    cases ha : (σ (max k (m+1))).app with
    | send =>
      rw [ha] at rests
      cases rests
    | _ =>
      rw [ha] at busy
      exact absurd rfl busy
  reported := by
    intro k fd _ asks
    obtain ⟨p,hp,waits⟩ := asks (n+1)
    have rests := worker p hp
    rw [waits] at rests
    cases rests
  paced := by
    intro k inside
    have rests := worker (max k (n+1)) (le_max_right k (n+1))
    rw [(batch_busy (inside (max k (n+1)) (le_max_left k (n+1)))).2] at rests
    cases rests

end infinite

theorem idle_step {t : State} (h : Sound t) (alive : t.fate=.alive) :
    machine.step t (.env (.prune 0 (-1)))=some t := by
  show (if t.fate=.alive then
    (t.kernel.env (.prune 0 (-1))).map fun k => { t with kernel := k } else none)=some t
  rw [if_pos alive,env_idle h.wf]
  rfl

/-- An infinite run of a client in which both threads are treated fairly and the data callback
does not call `disconnect`. -/
structure FairRun (options : TcpOptions) (loggerCb dataCb pipeSignal : Bool)
    (foreign : List Fd) (σ : Nat → State) (α : Nat → Action) : Prop where
  runs : machine.Runs σ α
  start : σ 0=.boot options loggerCb dataCb pipeSignal foreign
  civil : ∀ n,(α n).civil=true
  fair : Fair σ α

namespace FairRun

variable {options : TcpOptions} {loggerCb dataCb pipeSignal : Bool} {foreign : List Fd}
  {σ : Nat → State} {α : Nat → Action} {n : Nat}

theorem sound (run : FairRun options loggerCb dataCb pipeSignal foreign σ α) (n : Nat) :
    Sound (σ n) :=
  run.runs.keeps (I := Sound) (fun p _ h ht => step_sound _ _ _ h (run.civil p) ht)
    (by rw [run.start]; exact boot_sound options loggerCb dataCb pipeSignal foreign) n n.zero_le

/-- A finite run that leaves both threads at rest is the beginning of a fair one. -/
theorem of_run {as : List Action} {t : State}
    (hr : machine.run (.boot options loggerCb dataCb pipeSignal foreign) as=some t)
    (alive : t.fate=.alive) (civil : ∀ a∈as,a.civil=true) {m n : Nat}
    (acted : (as.getD m (.env (.prune 0 (-1)))).fromApp=true)
    (worked : (as.getD n (.env (.prune 0 (-1)))).fromWorker=true)
    (app : ∀ p≤as.length,m<p → (machine.run
      (.boot options loggerCb dataCb pipeSignal foreign) (as.take p)).map (fun s => s.app.rests)=
        some true)
    (worker : ∀ p≤as.length,n<p → (machine.run
      (.boot options loggerCb dataCb pipeSignal foreign) (as.take p)).map
        (fun s => s.worker.rests)=some true) :
    ∃ σ α,FairRun options loggerCb dataCb pipeSignal foreign σ α ∧
      (∀ n,machine.run (.boot options loggerCb dataCb pipeSignal foreign) (as.take n)=
        some (σ n)) ∧
      ∀ C : State → Action → Prop,
        machine.Meets C (.boot options loggerCb dataCb pipeSignal foreign) as →
        C t (.env (.prune 0 (-1))) → ∀ n,C (σ n) (α n) := by
  have h := run_sound options loggerCb dataCb pipeSignal foreign civil hr
  obtain ⟨σ,α,runs,states,actions,meets⟩ := machine.idles hr (idle_step h alive)
  have start : σ 0=.boot options loggerCb dataCb pipeSignal foreign := by
    simpa using (states 0).symm
  -- past its end the run stays where the list has led it
  have settled {f : State → Bool} {k : Nat} (hk : k<as.length)
      (rests : ∀ p≤as.length,k<p → (machine.run
        (.boot options loggerCb dataCb pipeSignal foreign) (as.take p)).map f=some true) (p : Nat)
      (hp : k<p) : f (σ p)=true := by
    by_cases early : p≤as.length
    · have here := rests p early hp
      rw [states] at here
      exact Option.some.inj here
    · have here := rests as.length le_rfl hk
      have same := states p
      rw [List.take_of_length_le (Nat.le_of_not_le early)] at same
      rw [List.take_length,same] at here
      exact Option.some.inj here
  have short {k : Nat} {P : Action → Bool} (hk : P (as.getD k (.env (.prune 0 (-1))))=true)
      (idle : P (.env (.prune 0 (-1)))=false) : k<as.length := by
    by_contra late
    rw [List.getD_eq_getElem?_getD,List.getElem?_eq_none (Nat.le_of_not_lt late),Option.getD_none,
      idle] at hk
    cases hk
  refine ⟨σ,α,⟨runs,start,?_,?_⟩,states,meets⟩
  · exact meets (fun _ a => a.civil=true) (Machine.Meets.of_actions machine as civil _) rfl
  · exact Fair.of_rest (by rw [actions]; exact acted) (settled (short acted rfl) app)
      (by rw [actions]; exact worked) (settled (short worked rfl) worker)

end FairRun

end TuyulNet.Client
