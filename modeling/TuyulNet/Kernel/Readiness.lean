import TuyulNet.Kernel.Streams

namespace TuyulNet.Kernel

open Framework

variable {k k' : Kernel} {ep : Fd} {l : List Fd}

/-- No readiness is lost: each readable descriptor in the interest set of `ep` is
in its ready list or among the returned entries `l` that are still to be dealt
with; the level-triggered ones are in the ready list in any case. -/
structure Awake (k : Kernel) (ep : Fd) (l : List Fd) : Prop where
  covers : (k.polls ep).Covers (fun fd => k.readable fd=true) l
  level : (k.polls ep).LevelCovers (fun fd => k.readable fd=true)

theorem Awake.of_unwatched (h : ∀ fd,k.watch ep fd=none) : k.Awake ep l where
  covers := fun fd hi => absurd (h fd) hi
  level := by
    intro fd hi
    have none : (k.polls ep).interest fd=none := h fd
    rw [hi] at none
    cases none

theorem Awake.shrink (h : k.Awake ep l) (hp : k'.polls ep=k.polls ep)
    (hr : ∀ fd,k.watch ep fd≠none → k'.readable fd=true → k.readable fd=true) :
    k'.Awake ep l where
  covers := by
    rw [hp]
    exact h.covers.mono hr
  level := by
    rw [hp]
    apply h.level.mono
    intro fd hi
    apply hr
    intro hn
    have none : (k.polls ep).interest fd=none := hn
    rw [hi] at none
    cases none

/-- Something happened at `n`, and whoever watches it was notified. -/
theorem Awake.grow (h : k.Awake ep l) (n : Fd) (hp : k'.polls ep=(k.polls ep).notify n)
    (hr : ∀ fd,k'.readable fd=true → k.readable fd=true ∨ fd=n) : k'.Awake ep l where
  covers := by
    rw [hp]
    exact h.covers.notify n hr
  level := by
    rw [hp]
    exact h.level.notify n hr

/-- The queue changes, and what is readable does not. -/
theorem Awake.of_queue {q : Poll Fd} (hp : k'.polls ep=q)
    (hr : ∀ fd,k'.readable fd=k.readable fd)
    (hc : q.Covers (fun fd => k.readable fd=true) l)
    (hl : q.LevelCovers (fun fd => k.readable fd=true)) : k'.Awake ep l where
  covers := by
    rw [hp]
    exact hc.mono fun fd _ hx => (hr fd).symm.trans hx
  level := by
    rw [hp]
    exact hl.mono fun fd _ hx => (hr fd).symm.trans hx

theorem Awake.add (h : k.Awake ep l) (n : Fd) (t : Trigger) : (k.register ep n t).Awake ep l := by
  have queue : (k.register ep n t).polls ep=(k.polls ep).add n t (k.readable n) := by
    simp [register]
  exact .of_queue queue (fun _ => rfl) (h.covers.add n t _ id) (h.level.add n t _ id)

theorem Awake.del (h : k.Awake ep l) (n : Fd) : (k.deregister ep n).Awake ep l := by
  have queue : (k.deregister ep n).polls ep=(k.polls ep).del n := by
    simp [deregister]
  exact .of_queue queue (fun _ => rfl) (h.covers.del n) (h.level.del n)

theorem Awake.harvest (h : k.Awake ep []) (es : List Fd) :
    { k with polls := Function.update k.polls ep ((k.polls ep).harvest es) : Kernel }.Awake
      ep es := by
  exact .of_queue (Function.update_self ..) (fun _ => rfl) (h.covers.harvest es)
    (h.level.harvest es)

/-- A returned entry is dealt with: its descriptor is no longer watched, is not
readable, or is level-triggered. -/
theorem Awake.settle {fd : Fd} (h : k.Awake ep (fd::l))
    (hs : k.watch ep fd=none ∨ k.readable fd=false ∨ k.watch ep fd=some .level) :
    k.Awake ep l := by
  refine ⟨?_,h.level⟩
  rcases hs with hs|hs|hs
  · exact h.covers.settle (.inl hs)
  · exact h.covers.settle (.inr (by simp [hs]))
  · exact h.covers.settle_level h.level hs

/-- Where `fd` alone is watched, a returned entry of it accounts for everything. -/
theorem Awake.entry {fd : Fd} {m : List Fd} (h : k.Awake ep l)
    (only : ∀ x,k.watch ep x≠none → x=fd) (hm : fd∈m) : k.Awake ep m :=
  ⟨fun x hx _ => .inr (only x hx ▸ hm),h.level⟩

theorem close_readable (fd x : Fd) :
    (k.close fd).readable x=if x=fd then false else k.readable x := by
  by_cases hx : x=fd
  · simp [readable,close_table,hx]
  · cases hf : k.table fd with
    | none => simp [close,hf,hx]
    | some f =>
      have pipe := close_pipe (k := k) fd
      unfold readable
      rw [close_table,if_neg hx,if_neg hx]
      cases k.table x with
      | none => rfl
      | some g =>
        cases g with
        | conn c a =>
          show ((k.close fd).conns c).pipe.readable=_
          rw [pipe]
        | listener a => simp [close,hf,hx]
        | _ => rfl

theorem Awake.close (h : k.Awake ep l) (fd : Fd) : (k.close fd).Awake ep l := by
  cases hf : k.table fd with
  | none =>
    have same : k.close fd=k := by simp [Kernel.close,hf]
    rwa [same]
  | some f =>
    have polls : (k.close fd).polls ep=(k.polls ep).del fd := by simp [Kernel.close,hf]
    have less (x : Fd) (hx : (k.close fd).readable x=true) : k.readable x=true := by
      rw [close_readable] at hx
      split at hx
      · cases hx
      · exact hx
    constructor
    · rw [polls]
      exact (h.covers.del fd).mono fun x _ => less x
    · rw [polls]
      exact (h.level.del fd).mono fun x _ => less x

theorem setPipe_readable (hw : k.Wf) (c : ConnId) (p : Pipe Byte) (x : Fd)
    (h : (k.setPipe c p).readable x=true) :
    k.readable x=true ∨ (k.conns c).fd=some x ∧ p.readable=true := by
  unfold readable at h ⊢
  rw [setPipe_table] at h
  cases hx : k.table x with
  | none =>
    rw [hx] at h
    cases h
  | some f =>
    rw [hx] at h
    cases f with
    | conn d a =>
      simp only [setPipe_pipe] at h ⊢
      by_cases hd : d=c
      · subst d
        exact .inr ⟨(hw.attached x c a hx).1,by simpa using h⟩
      · exact .inl (by simpa [hd] using h)
    | listener a => exact .inl h
    | _ => cases h

/-- A stream that is not more readable than before wakes nobody. -/
theorem Awake.setPipe (hw : k.Wf) (h : k.Awake ep l) (c : ConnId) (p : Pipe Byte)
    (hp : p.readable=true → (k.conns c).pipe.readable=true) : (k.setPipe c p).Awake ep l := by
  have polls : (k.setPipe c p).polls ep=k.polls ep := rfl
  apply h.shrink polls
  intro x _ hx
  rcases setPipe_readable hw c p x hx with hr|⟨own,hr⟩
  · exact hr
  · obtain ⟨f,hf⟩ := hw.owner c x own
    simpa [readable,hf] using hp hr

/-- News on a stream wake whoever watches its descriptor. -/
theorem Awake.wake (hw : k.Wf) (h : k.Awake ep l) (c : ConnId) (p : Pipe Byte) :
    ((k.setPipe c p).wake c).Awake ep l := by
  unfold Kernel.wake
  rw [setPipe_fd]
  split
  · rename_i n own
    apply h.grow n rfl
    intro x hx
    have hx : (k.setPipe c p).readable x=true := hx
    rcases setPipe_readable hw c p x hx with hr|⟨own',-⟩
    · exact .inl hr
    · rw [own] at own'
      exact .inr (Option.some.inj own').symm
  · rename_i loose
    have polls : (k.setPipe c p).polls ep=k.polls ep := rfl
    apply h.shrink polls
    intro x _ hx
    rcases setPipe_readable hw c p x hx with hr|⟨own,-⟩
    · exact hr
    · rw [loose] at own
      cases own

/-- A descriptor that is not readable wakes nobody. -/
theorem Awake.install (h : k.Awake ep l) (n : Fd) {f : File}
    (quiet : (k.install n f).readable n=false) : (k.install n f).Awake ep l := by
  have polls : (k.install n f).polls ep=k.polls ep := rfl
  apply h.shrink polls
  intro x _ hx
  by_cases hxn : x=n
  · rw [hxn,quiet] at hx
    cases hx
  · unfold readable at hx ⊢
    simpa [hxn] using hx

theorem env_awake (hw : k.Wf) (h : k.Awake ep l) (e : Env) (hk : k.env e=some k') :
    k'.Awake ep l := by
  cases env_evolves hk with
  | @connect m =>
    apply h.grow m rfl
    intro x hx
    by_cases hxm : x=m
    · exact .inr hxm
    · left
      unfold readable at hx ⊢
      cases hf : k.table x with
      | none => simp [notify,hf] at hx
      | some f =>
        cases f with
        | conn c a =>
          have old : c≠k.born := Nat.ne_of_lt (hw.attached x c a hf).2
          simpa [notify,hf,old] using hx
        | listener a => simpa [notify,hf,hxm] using hx
        | _ => simp [notify,hf] at hx
  | @send c bs p _ pipe =>
    obtain ⟨-,he,he',-,-,-,hu,-⟩ := Pipe.send_spec _ p bs pipe
    apply h.setPipe hw c p
    simp [Pipe.readable,he,he',hu]
  | shut => exact h.setPipe hw _ _ id
  | arrive | finish | tear => exact h.wake hw _ _
  | @prune q x quiet =>
    by_cases hq : q=ep
    · subst q
      have quiet : ¬k.readable x=true := by simp [quiet]
      exact .of_queue (Function.update_self ..) (fun _ => rfl) (h.covers.prune x quiet)
        (h.level.prune x quiet)
    · apply h.shrink
      · simp [Ne.symm hq]
      · exact fun _ _ hx => hx
  | @openForeign n => exact h.install n (by simp [readable])
  | @closeForeign n => exact h.close n

theorem Awake.accept (hw : k.Wf) (h : k.Awake ep l) (m n : Fd) (c : ConnId)
    (hn : k.fresh n=true) : (k.accept m n c).Awake ep l := by
  have polls : (k.accept m n c).polls ep=k.polls ep := rfl
  apply h.shrink polls
  intro x watched hx
  have other : x≠n := by
    intro e
    exact hw.watched ep x watched (e ▸ ((k.fresh_iff n).mp hn).2)
  unfold readable at hx ⊢
  rw [accept_table,if_neg other] at hx
  cases hf : k.table x with
  | none => simp [hf] at hx
  | some f =>
    rw [hf] at hx
    cases f with
    | conn d a =>
      simp only [(accept_conns m n c d).1] at hx
      exact hx
    | listener a =>
      by_cases hm : x=m
      · subst x
        cases hb : k.backlog m <;> simp_all [Kernel.accept]
      · simpa [Kernel.accept,hm] using hx
    | _ => cases hx

theorem Awake.flags (h : k.Awake ep l) {fd : Fd} {f : File} (n : Nat) (hf : k.table fd=some f) :
    (k.install fd (f.withFlags n)).Awake ep l := by
  have polls : (k.install fd (f.withFlags n)).polls ep=k.polls ep := rfl
  apply h.shrink polls
  intro x _ hx
  unfold readable at hx ⊢
  rw [install_table] at hx
  by_cases hxf : x=fd
  · subst x
    rw [if_pos rfl] at hx
    rw [hf]
    cases f <;> exact hx
  · rw [if_neg hxf] at hx
    exact hx

/-- Calls lose no readiness, apart from those that start a new queue or take
entries from one. -/
theorem answer_awake (hw : k.Wf) (h : k.Awake ep l) {c : Call} {r : Reply}
    (hc : c.renews=false) (hk : k.answer c r=some k') : k'.Awake ep l := by
  cases answer_answers hk with
  | listen | epollCreate | harvest | connect => cases hc
  | same => exact h
  | @socket n => exact h.install n (by simp [readable])
  | @setFlags _ n _ file => exact h.flags n file
  | @epollAdd q fd t =>
    by_cases hq : q=ep
    · subst q
      exact h.add fd t
    · apply h.shrink
      · simp [register,Ne.symm hq]
      · exact fun _ _ hx => hx
  | @epollDel q fd =>
    by_cases hq : q=ep
    · subst q
      exact h.del fd
    · apply h.shrink
      · simp [deregister,Ne.symm hq]
      · exact fun _ _ hx => hx
  | accept fresh => exact h.accept hw _ _ _ fresh
  | @read _ _ _ bs c p _ _ _ take =>
    obtain ⟨-,hu,-,-,he,-,-⟩ := Pipe.take_spec _ p bs take
    apply h.setPipe hw c p
    intro hr
    unfold Pipe.readable at hr ⊢
    rw [hu,he] at hr
    cases hun : (k.conns c).pipe.unread <;> simp_all
  | @write _ payload n _ c =>
    have polls : (k.setConn c { k.conns c with
      out := (k.conns c).out++payload.take n }).polls ep=k.polls ep := rfl
    apply h.shrink polls
    intro x _ hx
    unfold readable at hx ⊢
    cases hx' : k.table x with
    | none => simp [hx'] at hx
    | some g =>
      cases g with
      | conn d a => by_cases hd : d=c <;> simp_all [setConn]
      | listener a => simpa [hx',setConn] using hx
      | _ => simp [hx'] at hx
  | @close fd => exact h.close fd

end TuyulNet.Kernel
