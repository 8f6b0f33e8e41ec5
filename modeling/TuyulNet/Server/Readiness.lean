import TuyulNet.Kernel.Readiness
import TuyulNet.Server.Streams

namespace TuyulNet.Server

open Framework Kernel

/-- Inside the `for` loop over a batch. -/
def Pc.inBatch : Pc → Bool
  | .batch _ | .accept _ | .getFl _ (.client _) | .setFl _ _ (.client _) | .addClient _ _
  | .reject _ _ | .read _ _ | .deliver _ _ _ | .delClient _ _ | .closeClient _ _ => true
  | _ => false

/-- No readiness is lost while `start` is active. -/
structure Watched (s : State) : Prop where
  awake : s.pc.active=true → s.kernel.Awake s.impl.epollFd s.pc.pending
  waiting : ∀ ep,s.pc=.waiting ep → ep=s.impl.epollFd

section steps

variable {i j : Impl} {pc q : Pc} {k k' : Kernel} {r : Reply} {lines : Trace}

/-- What a step of the loop does to the entries that are still to be dealt with. -/
theorem next_pending (hn : pc.next i r=some (j,q,lines)) :
    q.active=false ∨ pc.setup=true ∨ j=i ∧
      ((∃ ep,pc=.waiting ep ∧ ((∃ es,r=.events es ∧ q.pending=es.map PollEvent.fd) ∨
        ∃ e,r=.fail e ∧ q.pending=[])) ∨
      (pc.call i).renews=false ∧ (q.pending=pc.pending ∨
        (∃ rest,pc=.batch (i.serverFd::rest) ∧ q.pending=rest) ∨
        (∃ fd rest e,pc=.read fd rest ∧ r=.fail e ∧ e.wouldBlock=true ∧ q.pending=rest) ∨
        ∃ fd rest,pc=.closeClient fd rest ∧ q.pending=rest)) := by
  have kept (hj : j=i) (hc : (pc.call i).renews=false) (hq : q.pending=pc.pending) :
      q.active=false ∨ pc.setup=true ∨ j=i ∧
        ((∃ ep,pc=.waiting ep ∧ ((∃ es,r=.events es ∧ q.pending=es.map PollEvent.fd) ∨
          ∃ e,r=.fail e ∧ q.pending=[])) ∨
        (pc.call i).renews=false ∧ (q.pending=pc.pending ∨
          (∃ rest,pc=.batch (i.serverFd::rest) ∧ q.pending=rest) ∨
          (∃ fd rest e,pc=.read fd rest ∧ r=.fail e ∧ e.wouldBlock=true ∧ q.pending=rest) ∨
          ∃ fd rest,pc=.closeClient fd rest ∧ q.pending=rest)) :=
    .inr (.inr ⟨hj,.inr ⟨hc,.inl hq⟩⟩)
  rcases next_cases hn with hn|hn|hn|hn|hn|hn
  · have setup : pc.setup=true ∨ pc=.allocate := by
      cases pc <;> simp_all [Pc.setup,setupNext]
    rcases setup with hs|rfl
    · exact .inr (.inl hs)
    · cases r with
      | ok =>
        cases hn
        exact kept rfl rfl (by split <;> rfl)
      | _ => cases hn
  · cases pc with
    | getFl fd caller =>
      cases caller with
      | setup => exact .inr (.inl rfl)
      | client rest => cases r <;> cases hn <;> exact kept rfl rfl rfl
    | setFl fd flags caller =>
      cases caller with
      | setup => exact .inr (.inl rfl)
      | client rest => cases r <;> cases hn <;> exact kept rfl rfl rfl
    | _ => cases hn
  · cases pc with
    | loopHead =>
      cases r with
      | ok =>
        cases hn
        by_cases hr : i.isRunning=true
        · exact kept rfl rfl (by rw [if_pos hr]; rfl)
        · exact .inl (by rw [if_neg hr]; rfl)
      | _ => cases hn
    | epollWait =>
      cases r with
      | ok =>
        cases hn
        exact kept rfl rfl rfl
      | fail e =>
        simp only [loopNext] at hn
        split at hn <;> cases hn
        · exact kept rfl rfl rfl
        · exact .inl rfl
      | _ => cases hn
    | waiting ep =>
      cases r with
      | events es =>
        cases hn
        refine .inr (.inr ⟨rfl,.inl ⟨ep,rfl,.inl ⟨es,rfl,?_⟩⟩⟩)
        split
        · rename_i he
          rw [he]
          rfl
        · rfl
      | fail e =>
        simp only [loopNext] at hn
        split at hn <;> cases hn
        · exact .inr (.inr ⟨rfl,.inl ⟨ep,rfl,.inr ⟨e,rfl,rfl⟩⟩⟩)
        · exact .inl rfl
      | _ => cases hn
    | batch fds =>
      cases r with
      | ok =>
        cases fds with
        | nil =>
          cases hn
          exact kept rfl rfl rfl
        | cons fd rest =>
          cases hn
          by_cases hfd : fd=i.serverFd
          · refine .inr (.inr ⟨rfl,.inr ⟨rfl,.inr (.inl ⟨rest,by rw [hfd],?_⟩)⟩⟩)
            rw [if_pos hfd]
            rfl
          · exact kept rfl rfl (by rw [if_neg hfd]; rfl)
      | _ => cases fds <;> cases hn
    | _ => cases hn
  · unfold acceptNext at hn
    split at hn <;> cases hn <;> exact kept rfl rfl rfl
  · cases pc with
    | read fd rest =>
      cases r with
      | data bs =>
        simp only [drainNext] at hn
        split at hn
        · cases hn
          exact kept rfl rfl rfl
        · cases hn
          exact kept rfl rfl (by split <;> rfl)
      | fail e =>
        simp only [drainNext] at hn
        split at hn
        · rename_i hb
          cases hn
          exact .inr (.inr ⟨rfl,.inr ⟨rfl,.inr (.inr (.inl ⟨fd,rest,e,rfl,rfl,hb,rfl⟩))⟩⟩)
        · cases hn
          exact kept rfl rfl rfl
      | _ => cases hn
    | deliver | delClient => cases r <;> cases hn <;> exact kept rfl rfl rfl
    | closeClient fd rest =>
      cases r <;> cases hn <;>
        exact .inr (.inr ⟨rfl,.inr ⟨rfl,.inr (.inr (.inr ⟨fd,rest,rfl,rfl⟩))⟩⟩)
    | _ => cases hn
  · have ended : q.active=false := by
      unfold cleanupNext at hn
      split at hn <;> cases hn <;> rfl
    exact .inl ended

theorem next_waiting {ep : Fd} (hn : pc.next i r=some (j,.waiting ep,lines)) :
    ep=j.epollFd := by
  rcases next_cases hn with hn|hn|hn|hn|hn|hn
  · unfold setupNext bail at hn
    split at hn <;> (try cases hn)
    split at hn <;> cases hn
  · unfold flagsNext blockingFailed bail at hn
    split at hn <;> (try split at hn) <;> cases hn
  · unfold loopNext at hn
    split at hn <;> (try split at hn) <;> cases hn
    rfl
  · unfold acceptNext at hn
    split at hn <;> cases hn
  · unfold drainNext at hn
    split at hn <;> (try split at hn) <;> (try split at hn) <;> cases hn
  · unfold cleanupNext at hn
    split at hn <;> cases hn

theorem active_of_next (hn : pc.next i r=some (j,q,lines)) (hq : q.active=true) :
    pc.setup=true ∨ pc.active=true := by
  cases pc with
  | socket => exact .inl rfl
  | returned => cases hn
  | cleanup stage code =>
    simp only [Pc.next] at hn
    unfold cleanupNext at hn
    split at hn <;> cases hn <;> cases hq
  | _ => exact .inr rfl

/-- The steps of the setup: nothing is watched before the last two. -/
theorem setup_awake {s : State} (h : Undisturbed s) (hw : Watched s) (hp : s.pc.setup=true)
    (hk : s.kernel.answer (s.pc.call s.impl) r=some k')
    (hn : s.pc.next s.impl r=some (j,q,lines)) (hq : q.active=true)
    (hs : Shape j q k'.table k'.watch) : k'.Awake j.epollFd q.pending := by
  by_cases hu : q.setup=true ∧ q≠.setRunning
  · exact .of_unwatched (hs.unwatched hu.1 hu.2 j.epollFd)
  · cases hpc : s.pc with
    | epollAdd =>
      rw [hpc] at hk hn
      have awake := hw.awake (by rw [hpc]; rfl)
      rw [hpc] at awake
      cases r with
      | ok =>
        cases hn
        exact answer_awake h.owned.wf awake rfl hk
      | fail e =>
        cases hn
        cases hq
      | _ => cases hn
    | setRunning =>
      rw [hpc] at hk hn
      have awake := hw.awake (by rw [hpc]; rfl)
      rw [hpc] at awake
      cases r with
      | ok =>
        cases hk
        cases hn
        exact awake
      | _ => cases hn
    | getFl fd caller =>
      rw [hpc] at hn hp
      cases caller with
      | setup =>
        cases r <;> cases hn
        · cases hq
        · exact absurd ⟨rfl,by simp⟩ hu
      | client rest => cases hp
    | setFl fd flags caller =>
      rw [hpc] at hn hp
      cases caller with
      | setup =>
        cases r <;> cases hn
        · exact absurd ⟨rfl,by simp⟩ hu
        · cases hq
      | client rest => cases hp
    | socket | setsockopt | bind | listen | epollCreate =>
      rw [hpc] at hn
      cases r <;> cases hn <;> first
        | exact absurd ⟨rfl,by simp⟩ hu
        | cases hq
    | _ =>
      rw [hpc] at hp
      cases hp

end steps

theorem reactor_awake {s t : State} {r : Reply} (h : Undisturbed s) (hw : Watched s)
    (ht : Undisturbed t) (hs : s.reactor r=some t) (hq : t.pc.active=true) :
    t.kernel.Awake t.impl.epollFd t.pc.pending := by
  have shape := ht.owned.shape
  obtain ⟨k,i,pc,lines,hk,hn,rfl⟩ := reactor_cases hs
  have wf := h.owned.wf
  by_cases setup : s.pc.setup=true
  · exact setup_awake h hw setup hk hn hq shape
  have active : s.pc.active=true := (active_of_next hn hq).resolve_left setup
  rcases next_pending hn with inactive|setup'|⟨rfl,⟨ep,hp,hr⟩|⟨hc,hr⟩⟩
  · rw [inactive] at hq
    cases hq
  · exact absurd setup' setup
  · have awake := hw.awake active
    have own := hw.waiting ep hp
    rw [hp] at awake hk
    rcases hr with ⟨es,rfl,hr⟩|⟨e,rfl,hr⟩
    · have hk : s.kernel.answerEvents ep s.impl.options.maxEpollEvents (.events es)=some k := hk
      rcases answerEvents_cases hk with ⟨fs,he,-,-,-,rfl⟩|⟨e,he,-⟩
      · cases he
        show Kernel.Awake _ _ pc.pending
        rw [hr,own]
        exact awake.harvest (es.map PollEvent.fd)
      · cases he
    · rw [answer_fail (by simp [Pc.call]) hk]
      show Kernel.Awake _ _ pc.pending
      rw [hr]
      exact awake
  · have awake := answer_awake wf (hw.awake active) hc hk
    show Kernel.Awake k _ pc.pending
    rcases hr with hr|⟨rest,hp,hr⟩|⟨fd,rest,e,hp,rfl,hb,hr⟩|⟨fd,rest,hp,hr⟩
    · rw [hr]
      exact awake
    · -- the listening socket is level-triggered
      rw [hp] at hk awake
      cases r with
      | ok =>
        cases hk
        rw [hr]
        apply awake.settle
        refine .inr (.inr (h.owned.shape.armed (by rw [hp]; rfl) (h.live.server active) ?_))
        exact h.live.epoll active (by rw [hp]; rfl)
      | _ => cases hk
    · -- the client is drained
      obtain ⟨c,f,hf⟩ := h.owned.shape.client fd (by rw [hp]; rfl)
      rw [hp] at hk awake
      have hk : s.kernel.answerRead fd s.impl.options.bufferSize (.fail e)=some k := hk
      rcases answerRead_cases hf hk with ⟨bs,hx,-⟩|⟨hx,-⟩|⟨e',hx,rfl,dry⟩
      · cases hx
      · cases hx
      · cases hx
        obtain ⟨hu,he⟩ := dry hb
        rw [hr]
        apply awake.settle
        refine .inr (.inl ?_)
        simp only [readable,hf]
        exact Pipe.not_readable _ hu he
    · -- the client is gone
      rw [hp] at hk awake
      rw [hr]
      apply awake.settle
      left
      rw [(answer_close wf hk).2,if_pos rfl]

theorem step_watched (s : State) (a : Action) (t : State) (h : Undisturbed s ∧ Watched s)
    (ha : a.isStop=false) (hs : machine.step s a=some t) : Undisturbed t ∧ Watched t := by
  have ht := step_undisturbed s a t h.1 ha hs
  refine ⟨ht,?_⟩
  cases a with
  | stop nested => cases ha
  | env e =>
    obtain ⟨k,hk,rfl⟩ := Option.map_eq_some_iff.mp hs
    exact ⟨fun hq => env_awake h.1.owned.wf (h.2.awake hq) e hk,h.2.waiting⟩
  | reactor r =>
    refine ⟨reactor_awake h.1 h.2 ht hs,?_⟩
    obtain ⟨k,i,pc,lines,-,hn,rfl⟩ := reactor_cases hs
    intro ep hp
    cases hp
    exact next_waiting hn

end TuyulNet.Server
