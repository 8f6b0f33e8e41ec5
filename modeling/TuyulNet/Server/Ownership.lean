import TuyulNet.Kernel.Veil
import TuyulNet.Server.Descriptors

namespace TuyulNet.Server

open Framework Kernel

section steps

attribute [local simp] Pc.staleServer Pc.staleEpoll Pc.loose Pc.client Pc.pending Pc.armed
  Pc.listens Pc.setup Pc.bare Pc.mentions

variable {i j : Impl} {pc q : Pc} {k k' : Kernel} {r : Reply} {lines : Trace}

/-- `start` leaves its loop, or its setup, for `cleanup`. -/
theorem Shape.exits {T : Fd → Option File} {W : Fd → Fd → Option Trigger} (h : Shape i pc T W)
    (hs : pc.staleServer=false ∧ pc.staleEpoll=false) (hl : pc.loose=none) (code : ErrorCode) :
    Shape i (.cleanup .testEpoll code) T W := by
  apply h.goto (fun _ => rfl) (fun _ _ => rfl)
  · exact ⟨hs.1.symm,hs.2.symm⟩
  · simp
  · intro fd hf
    rw [hl] at hf
    cases hf
  · simp
  · simp
  · simp
  · simp

/-- Every descriptor that `start` names in a call is its own and open, or -1. -/
theorem Shape.names_own {T : Fd → Option File} {W : Fd → Fd → Option Trigger}
    (h : Shape i pc T W) : ∀ fd∈(pc.call i).names,fd=-1 ∨ ∃ f,T fd=some f ∧ f≠.foreign := by
  have server (hp : pc.staleServer=false) :
      i.serverFd=-1 ∨ ∃ f,T i.serverFd=some f ∧ f≠.foreign := by
    by_cases hs : i.serverFd=-1
    · exact .inl hs
    · obtain ⟨f,hf,hm⟩ := h.server hs hp
      refine .inr ⟨f,hf,?_⟩
      intro e
      rw [e] at hm
      cases hm
  have epoll (hp : pc.staleEpoll=false) :
      i.epollFd=-1 ∨ ∃ f,T i.epollFd=some f ∧ f≠.foreign := by
    by_cases he : i.epollFd=-1
    · exact .inl he
    · exact .inr ⟨.epoll,h.epoll he hp,by simp⟩
  have client {fd : Fd} (hp : pc.client=some fd) : fd=-1 ∨ ∃ f,T fd=some f ∧ f≠.foreign := by
    obtain ⟨c,f,hf⟩ := h.client fd hp
    exact .inr ⟨_,hf,by simp⟩
  have flagged {fd : Fd} {caller : Caller}
      (hp : pc=.getFl fd caller ∨ ∃ flags,pc=.setFl fd flags caller) :
      fd=-1 ∨ ∃ f,T fd=some f ∧ f≠.foreign := by
    cases caller with
    | setup =>
      have master : fd=i.serverFd := by
        rcases hp with rfl|⟨flags,rfl⟩
        · exact h.master fd 0 (.inl rfl)
        · exact h.master fd flags (.inr rfl)
      rw [master]
      apply server
      rcases hp with rfl|⟨flags,rfl⟩ <;> rfl
    | client rest =>
      apply client
      rcases hp with rfl|⟨flags,rfl⟩ <;> rfl
  intro fd hm
  cases pc with
  | setsockopt | bind | listen | accept =>
    cases List.mem_singleton.mp hm
    exact server rfl
  | getFl x caller =>
    cases List.mem_singleton.mp hm
    exact flagged (.inl rfl)
  | setFl x flags caller =>
    cases List.mem_singleton.mp hm
    exact flagged (.inr ⟨flags,rfl⟩)
  | epollWait =>
    cases List.mem_singleton.mp hm
    exact epoll rfl
  | epollAdd =>
    rcases List.mem_cons.mp hm with rfl|hm
    · exact epoll rfl
    · cases List.mem_singleton.mp hm
      exact server rfl
  | addClient x rest | delClient x rest =>
    rcases List.mem_cons.mp hm with rfl|hm
    · exact epoll rfl
    · cases List.mem_singleton.mp hm
      exact client rfl
  | reject x rest | read x rest | closeClient x rest =>
    cases List.mem_singleton.mp hm
    exact client rfl
  | cleanup stage code =>
    cases stage with
    | closeEpoll =>
      cases List.mem_singleton.mp hm
      exact epoll rfl
    | closeServer =>
      cases List.mem_singleton.mp hm
      exact server rfl
    | _ => cases hm
  | _ => cases hm

/-- The descriptors of `F` are connections, and not in the epoll set of this call. -/
structure Aside (F : Fd → Bool) (i : Impl) (pc : Pc) (k : Kernel) : Prop where
  attached : ∀ fd,F fd=true → k.Attached fd
  unwatched : ∀ fd ep,F fd=true → (ep=i.epollFd ∧ ep≠-1 ∨ pc=.waiting ep) → k.watch ep fd=none

variable {F : Fd → Bool}

theorem Aside.fresh (h : Aside F i pc k) {n : Fd} (hn : k.fresh n=true) :
    F n=false ∧ 0≤n ∧ k.veil F n=none := by
  obtain ⟨h0,free⟩ := (k.fresh_iff n).mp hn
  have out : F n=false := by
    by_contra hF
    obtain ⟨c,f,hf⟩ := h.attached n (by simpa using hF)
    rw [free] at hf
    cases hf
  exact ⟨out,h0,(veil_own out).trans free⟩

theorem names_out (h : Shape i pc (k.veil F) (k.veilWatch F)) (ha : Aside F i pc k) (hw : k.Wf) :
    ∀ fd∈(pc.call i).names,F fd=false := by
  intro fd hm
  rcases h.names_own fd hm with rfl|⟨f,hf,hn⟩
  · by_contra hF
    obtain ⟨c,f,hf⟩ := ha.attached (-1) (by simpa using hF)
    rw [hw.minus_one] at hf
    cases hf
  · exact (veil_file hf hn).1

theorem setup_shape (h : Shape i pc (k.veil F) (k.veilWatch F)) (ha : Aside F i pc k)
    (hw : k.Wf)
    (hk : k.answer (pc.call i) r=some k') (hn : setupNext i pc r=some (j,q,lines)) :
    Shape j q (k'.veil F) (k'.veilWatch F) := by
  have out := names_out h ha hw
  have failed {e : Errno} {code : ErrorCode} {message : String} (hr : r=.fail e)
      (hc : ∀ fd,pc.call i≠.close fd) (hs : pc.staleServer=false ∧ pc.staleEpoll=false)
      (hl : pc.loose=none) (hb : bail i code message=some (j,q,lines)) :
      Shape j q (k'.veil F) (k'.veilWatch F) := by
    subst hr
    rw [answer_fail hc hk]
    cases hb
    exact h.exits hs hl code
  cases pc with
  | socket =>
    rcases answerOpen_cases hk with ⟨n,rfl,hf,rfl⟩|⟨e,rfl,rfl⟩
    · cases hn
      obtain ⟨new,free⟩ := ha.fresh hf
      exact h.openServer n free (veil_put new (install_table n · _)) fun _ _ => rfl
    · cases hn
      exact h.noServer _
  | setsockopt =>
    cases r with
    | ok =>
      obtain ⟨hT,hW⟩ := veil_quiet (F := F) rfl hk
      cases hn
      apply h.goto hT hW <;> simp
    | fail e => exact failed rfl (by simp [Pc.call]) ⟨rfl,rfl⟩ rfl hn
    | _ => cases hn
  | bind =>
    cases r with
    | ok =>
      obtain ⟨hT,hW⟩ := veil_quiet (F := F) rfl hk
      cases hn
      apply h.goto hT hW <;> simp
    | fail e => exact failed rfl (by simp [Pc.call]) ⟨rfl,rfl⟩ rfl hn
    | _ => cases hn
  | listen =>
    have own : F i.serverFd=false := out _ (List.mem_singleton.mpr rfl)
    cases r with
    | ok =>
      cases hn
      simp only [Pc.call,answer,answerUnit] at hk
      split at hk <;> cases hk
      · rename_i f hf
        exact h.listening (.inl ((veil_own own).trans hf))
          (veil_put own (install_table i.serverFd · _)) fun _ _ => rfl
      · rename_i f hf
        exact h.listening (.inr ((veil_own own).trans hf))
          (veil_put own (install_table i.serverFd · _)) fun _ _ => rfl
    | fail e => exact failed rfl (by simp [Pc.call]) ⟨rfl,rfl⟩ rfl hn
    | _ => cases hn
  | epollCreate =>
    rcases answerEpollCreate_cases hk with ⟨n,rfl,hf,rfl⟩|⟨e,rfl,rfl⟩
    · cases hn
      obtain ⟨new,free⟩ := ha.fresh hf
      exact h.openEpoll n free (veil_put new (install_table n · _))
        (veilWatch_put (.inl rfl) fun p x => update_poll_watch n p x .empty)
    · cases hn
      exact h.noEpoll _
  | epollAdd =>
    cases r with
    | ok =>
      cases hn
      simp only [Pc.call,answer,answerUnit] at hk
      split at hk <;> cases hk
      rename_i hc
      have open' : i.serverFd≠-1 := by
        intro hm
        have closed := hw.minus_one
        rw [← hm] at closed
        simp [closed] at hc
      have own : F i.serverFd=false := out _ (by simp [Pc.call,Call.names])
      exact h.arm open' (fun _ => rfl)
        (veilWatch_put (.inr fun p x hx => hx.2 ▸ own) fun p x => register_watch _ _ p x _)
    | fail e => exact failed rfl (by simp [Pc.call]) ⟨rfl,rfl⟩ rfl hn
    | _ => cases hn
  | setRunning =>
    cases r with
    | ok =>
      cases hn
      cases hk
      exact h.running
    | _ => cases hn
  | allocate =>
    cases r with
    | ok =>
      cases hn
      cases hk
      split
      · apply h.goto (fun _ => rfl) (fun _ _ => rfl) <;> simp
      · apply h.goto (fun _ => rfl) (fun _ _ => rfl) <;> simp
    | _ => cases hn
  | _ => cases hn

theorem flags_shape (h : Shape i pc (k.veil F) (k.veilWatch F)) (ha : Aside F i pc k)
    (hw : k.Wf) (hk : k.answer (pc.call i) r=some k') (hn : flagsNext i pc r=some (j,q,lines)) :
    Shape j q (k'.veil F) (k'.veilWatch F) := by
  have out := names_out h ha hw
  have rejected {fd : Fd} {caller : Caller} {e : Errno} (hr : r=.fail e)
      (hp : pc=.getFl fd caller ∨ ∃ flags,pc=.setFl fd flags caller)
      (hb : blockingFailed i fd caller=some (j,q,lines)) :
      Shape j q (k'.veil F) (k'.veilWatch F) := by
    subst hr
    have same : k'=k := by
      rcases hp with rfl|⟨flags,rfl⟩
      · exact answer_fail (by simp [Pc.call]) hk
      · exact answer_fail (by simp [Pc.call]) hk
    rw [same]
    cases caller with
    | setup =>
      cases hb
      rcases hp with rfl|⟨flags,rfl⟩
      · exact h.exits ⟨rfl,rfl⟩ rfl _
      · exact h.exits ⟨rfl,rfl⟩ rfl _
    | client rest =>
      cases hb
      rcases hp with rfl|⟨flags,rfl⟩
      · apply h.goto (fun _ => rfl) (fun _ _ => rfl) <;> simp
      · apply h.goto (fun _ => rfl) (fun _ _ => rfl) <;> simp
  cases pc with
  | getFl fd caller =>
    cases r with
    | flags n =>
      obtain ⟨hT,hW⟩ := veil_quiet (F := F) rfl hk
      cases hn
      have master := h.master fd 0
      cases caller <;> apply h.goto hT hW <;> simp_all
    | fail e => exact rejected rfl (.inl rfl) hn
    | _ => cases hn
  | setFl fd flags caller =>
    cases r with
    | ok =>
      obtain ⟨f,hf,rfl⟩ := Option.map_eq_some_iff.mp hk
      have own : F fd=false := out _ (List.mem_singleton.mpr rfl)
      have file := (veil_own own).trans hf
      have table := veil_put own (install_table (k := k) fd · (f.withFlags (flags ||| oNonblock)))
      cases caller with
      | setup =>
        cases hn
        exact h.blocking file table (fun _ _ => rfl) (.inl ⟨rfl,rfl⟩)
      | client rest =>
        cases hn
        exact h.blocking file table (fun _ _ => rfl) (.inr ⟨rest,rfl,rfl⟩)
    | fail e => exact rejected rfl (.inr ⟨flags,rfl⟩) (by cases caller <;> exact hn)
    | _ => cases caller <;> cases hn
  | _ => cases hn

theorem loop_shape (h : Shape i pc (k.veil F) (k.veilWatch F)) (ha : Aside F i pc k)
    (hk : k.answer (pc.call i) r=some k') (hn : loopNext i pc r=some (j,q,lines)) :
    Shape j q (k'.veil F) (k'.veilWatch F) := by
  have waited {e : Errno} (hr : r=.fail e) (hp : pc=.epollWait ∨ ∃ ep,pc=.waiting ep)
      (hb : (if e=.eintr then some (i,.loopHead,[])
        else some (i,.cleanup .testEpoll .success,i.log "ERROR"
          "Critical failure encountered during epoll_wait event cycles."))=
            some (j,q,lines)) : Shape j q (k'.veil F) (k'.veilWatch F) := by
    subst hr
    have same : k'=k := by
      rcases hp with rfl|⟨ep,rfl⟩
      · exact answer_fail (by simp [Pc.call]) hk
      · exact answer_fail (by simp [Pc.call]) hk
    rw [same]
    split at hb <;> cases hb <;> rcases hp with rfl|⟨ep,rfl⟩
    · apply h.goto (fun _ => rfl) (fun _ _ => rfl) <;> simp
    · apply h.goto (fun _ => rfl) (fun _ _ => rfl) <;> simp
    · exact h.exits ⟨rfl,rfl⟩ rfl _
    · exact h.exits ⟨rfl,rfl⟩ rfl _
  cases pc with
  | loopHead =>
    cases r with
    | ok =>
      cases hk
      cases hn
      split
      · apply h.goto (fun _ => rfl) (fun _ _ => rfl) <;> simp
      · exact h.exits ⟨rfl,rfl⟩ rfl _
    | _ => cases hn
  | epollWait =>
    cases r with
    | ok =>
      obtain ⟨hT,hW⟩ := veil_quiet (F := F) rfl hk
      cases hn
      apply h.goto hT hW <;> simp
    | fail e => exact waited rfl (.inl rfl) hn
    | _ => cases hn
  | waiting ep =>
    obtain ⟨hT,hW⟩ := veil_quiet (F := F) rfl hk
    rcases answerEvents_cases hk with ⟨es,rfl,nodup,-,ready,-⟩|⟨e,rfl,-⟩
    · cases hn
      split
      · apply h.goto hT hW <;> simp
      · apply h.harvest hT hW nodup
        intro fd hm
        obtain ⟨e,he,rfl⟩ := List.mem_map.mp hm
        have watched : k.watch ep e.fd≠none := (k.polls ep).registered e.fd (ready e he).1
        have own : F e.fd=false := by
          by_contra hF
          exact watched (ha.unwatched e.fd ep (by simpa using hF) (.inr rfl))
        simpa [veilWatch,own] using watched
    · exact waited rfl (.inr ⟨ep,rfl⟩) hn
  | batch fds =>
    cases r with
    | ok =>
      cases hk
      cases fds with
      | nil =>
        cases hn
        apply h.goto (fun _ => rfl) (fun _ _ => rfl) <;> simp
      | cons fd rest =>
        cases hn
        split
        · apply h.goto (fun _ => rfl) (fun _ _ => rfl) <;> simp
          exact fun x hx => .inr hx
        · rename_i hne
          apply h.goto (fun _ => rfl) (fun _ _ => rfl) <;> simp [hne]
    | _ => cases fds <;> cases hn
  | _ => cases hn

theorem accept_shape (h : Shape i pc (k.veil F) (k.veilWatch F)) (ha : Aside F i pc k)
    (hw : k.Wf)
    (hk : k.answer (pc.call i) r=some k') (hn : acceptNext i pc r=some (j,q,lines)) :
    Shape j q (k'.veil F) (k'.veilWatch F) := by
  have out := names_out h ha hw
  cases pc with
  | accept rest =>
    rcases answerAccept_cases hk with ⟨n,c,f,rfl,hl,hf,-,rfl⟩|⟨e,rfl,rfl,-⟩
    · cases hn
      obtain ⟨new,free⟩ := ha.fresh hf
      have own : F i.serverFd=false := out _ (List.mem_singleton.mpr rfl)
      exact h.accepted n c free ⟨f,(veil_own own).trans hl⟩ (veil_put new (accept_table _ n · c))
        fun _ _ => rfl
    · cases hn
      apply h.goto (fun _ => rfl) (fun _ _ => rfl) <;> simp
  | addClient fd rest =>
    cases r with
    | ok =>
      cases hn
      simp only [Pc.call,answer,answerUnit] at hk
      split at hk <;> cases hk
      rename_i hc
      have open' : i.epollFd≠-1 := by
        intro hm
        rw [hm,hw.minus_one] at hc
        cases hc.1
      have own : F fd=false := out _ (by simp [Pc.call,Call.names])
      exact h.hook open' (fun _ => rfl)
        (veilWatch_put (.inr fun p x hx => hx.2 ▸ own) fun p x => register_watch _ _ p x _)
    | fail e =>
      rw [answer_fail (by simp [Pc.call]) hk]
      cases hn
      apply h.goto (fun _ => rfl) (fun _ _ => rfl) <;> simp
    | _ => cases hn
  | reject fd rest =>
    obtain ⟨hT,hW⟩ := veil_close hw (out _ (List.mem_singleton.mpr rfl)) hk
    cases r with
    | ok | fail e =>
      cases hn
      exact h.dropClient (.inl ⟨rfl,rfl⟩) hT hW
    | _ => cases hn
  | _ => cases hn

theorem drain_shape (h : Shape i pc (k.veil F) (k.veilWatch F)) (ha : Aside F i pc k)
    (hw : k.Wf)
    (hk : k.answer (pc.call i) r=some k') (hn : drainNext i pc r=some (j,q,lines)) :
    Shape j q (k'.veil F) (k'.veilWatch F) := by
  have out := names_out h ha hw
  cases pc with
  | read fd rest =>
    obtain ⟨hT,hW⟩ := veil_quiet (F := F) rfl hk
    cases r with
    | data bs =>
      simp only [drainNext] at hn
      split at hn
      · cases hn
        apply h.goto hT hW <;> simp
      · cases hn
        split <;> apply h.goto hT hW <;> simp
    | fail e =>
      simp only [drainNext] at hn
      split at hn <;> cases hn <;> apply h.goto hT hW <;> simp
      exact fun x hx => .inr hx
    | _ => cases hn
  | deliver fd payload rest =>
    obtain ⟨hT,hW⟩ := veil_quiet (F := F) rfl hk
    cases r with
    | ok =>
      cases hn
      apply h.goto hT hW <;> simp
    | _ => cases hn
  | delClient fd rest =>
    cases r with
    | ok =>
      cases hn
      simp only [Pc.call,answer,answerUnit] at hk
      split at hk <;> cases hk
      exact h.unhook (fun _ => rfl) (veilWatch_put (.inl rfl) fun p x => deregister_watch _ _ p x)
    | fail e =>
      rw [answer_fail (by simp [Pc.call]) hk]
      cases hn
      apply h.goto (fun _ => rfl) (fun _ _ => rfl) <;> simp
    | _ => cases hn
  | closeClient fd rest =>
    obtain ⟨hT,hW⟩ := veil_close hw (out _ (List.mem_singleton.mpr rfl)) hk
    cases r with
    | ok | fail e =>
      cases hn
      exact h.dropClient (.inr ⟨rfl,rfl⟩) hT hW
    | _ => cases hn
  | _ => cases hn

theorem cleanup_shape (h : Shape i pc (k.veil F) (k.veilWatch F)) (ha : Aside F i pc k)
    (hw : k.Wf)
    (hk : k.answer (pc.call i) r=some k') (hn : cleanupNext i pc r=some (j,q,lines)) :
    Shape j q (k'.veil F) (k'.veilWatch F) := by
  have out := names_out h ha hw
  cases pc with
  | cleanup stage code =>
    cases stage with
    | testEpoll | testServer =>
      cases r with
      | ok =>
        cases hk
        cases hn
        split <;> apply h.goto (fun _ => rfl) (fun _ _ => rfl) <;> simp
      | _ => cases hn
    | closeEpoll =>
      obtain ⟨hT,hW⟩ := veil_close hw (out _ (List.mem_singleton.mpr rfl)) hk
      cases r with
      | ok | fail e =>
        cases hn
        exact h.closeEpoll hT hW
      | _ => cases hn
    | clearEpoll =>
      cases r with
      | ok =>
        cases hk
        cases hn
        exact h.clearEpoll
      | _ => cases hn
    | closeServer =>
      obtain ⟨hT,hW⟩ := veil_close hw (out _ (List.mem_singleton.mpr rfl)) hk
      cases r with
      | ok | fail e =>
        cases hn
        exact h.closeServer hT hW
      | _ => cases hn
    | clearServer =>
      cases r with
      | ok =>
        cases hk
        cases hn
        exact h.clearServer
      | _ => cases hn
    | finish =>
      cases r with
      | ok =>
        cases hk
        cases hn
        exact h.finish
      | _ => cases hn
  | _ => cases hn

theorem reactor_shape (h : Shape i pc (k.veil F) (k.veilWatch F)) (ha : Aside F i pc k)
    (hw : k.Wf) (hk : k.answer (pc.call i) r=some k') (hn : pc.next i r=some (j,q,lines)) :
    Shape j q (k'.veil F) (k'.veilWatch F) := by
  rcases next_cases hn with hn|hn|hn|hn|hn|hn
  · exact setup_shape h ha hw hk hn
  · exact flags_shape h ha hw hk hn
  · exact loop_shape h ha hk hn
  · exact accept_shape h ha hw hk hn
  · exact drain_shape h ha hw hk hn
  · exact cleanup_shape h ha hw hk hn

/-- Where the epoll set that `start` uses comes from. -/
theorem next_polls (hn : pc.next i r=some (j,q,lines)) :
    (∀ ep,q=.waiting ep → pc=.epollWait ∧ r=.ok ∧ ep=i.epollFd) ∧
      (j.epollFd=i.epollFd ∨ j.epollFd=-1 ∨ pc=.epollCreate ∧ r=.fd j.epollFd) := by
  rcases next_cases hn with hn|hn|hn|hn|hn|hn
  · unfold setupNext bail at hn
    split at hn <;> cases hn <;> (try split) <;> simp
  · unfold flagsNext blockingFailed bail at hn
    split at hn <;> (try split at hn) <;> cases hn <;> simp
  · unfold loopNext at hn
    split at hn <;> (try split at hn) <;> cases hn <;> simp
  · unfold acceptNext at hn
    split at hn <;> cases hn <;> simp
  · unfold drainNext at hn
    split at hn <;> (try split at hn) <;> cases hn <;> simp
    split <;> simp
  · unfold cleanupNext at hn
    split at hn <;> cases hn <;> simp

theorem reactor_aside (h : Shape i pc (k.veil F) (k.veilWatch F)) (ha : Aside F i pc k)
    (hw : k.Wf) (hk : k.answer (pc.call i) r=some k') (hn : pc.next i r=some (j,q,lines)) :
    Aside F j q k' := by
  have stays (fd : Fd) (hF : F fd=true) :
      k'.table fd=k.table fd ∧ ∀ p,k'.watch p fd=k.watch p fd ∨ k'.watch p fd=none := by
    apply answer_elsewhere hw hk
    · intro hm
      rw [names_out h ha hw fd hm] at hF
      cases hF
    · obtain ⟨c,f,hf⟩ := ha.attached fd hF
      simp [hf]
  have keeps {fd ep : Fd} (hF : F fd=true) (old : k.watch ep fd=none) : k'.watch ep fd=none := by
    rcases (stays fd hF).2 ep with same|gone
    · exact same.trans old
    · exact gone
  obtain ⟨waits,polls⟩ := next_polls hn
  refine ⟨fun fd hF => (attached_congr (stays fd hF).1).mpr (ha.attached fd hF),
    fun fd ep hF hp => ?_⟩
  rcases hp with ⟨rfl,open'⟩|hq
  · rcases polls with same|gone|⟨rfl,rfl⟩
    · exact keeps hF (ha.unwatched fd _ hF (.inl ⟨same,open'⟩))
    · exact absurd gone open'
    · rcases answerEpollCreate_cases (show k.answerEpollCreate (.fd j.epollFd)=some k' from hk) with
        ⟨n,hr,-,rfl⟩|⟨e,hr,-⟩
      · cases hr
        exact (update_poll_watch (k := k) _ _ fd .empty).trans (if_pos rfl)
      · cases hr
  · obtain ⟨rfl,rfl,rfl⟩ := waits ep hq
    by_cases open' : i.epollFd=-1
    · have closed := hw.minus_one
      rw [← open'] at closed
      simp [Pc.call,answer,answerUnit,closed] at hk
    · exact keeps hF (ha.unwatched fd _ hF (.inl ⟨rfl,open'⟩))

theorem Shape.congr {T T' : Fd → Option File} {W W' : Fd → Fd → Option Trigger}
    (h : Shape i pc T W) (hT : ∀ x,T' x=T x) (hW : ∀ p x,W' p x=W p x) : Shape i pc T' W' := by
  have hT : T'=T := funext hT
  have hW : W'=W := funext fun p => funext (hW p)
  rwa [hT,hW]

theorem env_shape (h : Shape i pc (k.veil F) (k.veilWatch F)) (ha : Aside F i pc k)
    (hw : k.Wf) (e : Kernel.Env) (hk : k.env e=some k') :
    Shape i pc (k'.veil F) (k'.veilWatch F) := by
  cases env_evolves hk with
  | @openForeign n fresh =>
    obtain ⟨new,h0,free⟩ := ha.fresh fresh
    apply h.foreign n none (some .foreign) free h0 (.inl ⟨rfl,rfl⟩)
      (veil_put new (install_table n · _))
    intro p x
    rw [if_neg (by simp)]
    exact veilWatch_same (fun _ _ => rfl) p x
  | @closeForeign n file =>
    have new : F n=false := by
      by_contra hF
      obtain ⟨c,f,hf⟩ := ha.attached n (by simpa using hF)
      rw [file] at hf
      cases hf
    have foreign : k.veil F n=some .foreign := (veil_own new).trans file
    apply h.foreign n (some .foreign) none foreign (h.nonneg n _ foreign) (.inr ⟨rfl,rfl⟩)
      (veil_put new (close_table n))
    simpa using veilWatch_put (F := F) (.inl rfl) (close_watch hw n)
  | connect | send | shut =>
    exact h.congr (veil_same fun _ => rfl) (veilWatch_same fun _ _ => rfl)
  | arrive | finish | tear =>
    exact h.congr (veil_same (by simp)) (veilWatch_same (by simp))
  | @prune ep fd =>
    apply h.congr (veil_same fun _ => rfl)
    refine veilWatch_same fun p x => ?_
    rw [update_poll_watch]
    split
    · rename_i hp
      rw [hp]
      rfl
    · rfl

theorem env_aside (ha : Aside F i pc k) (hw : k.Wf) (e : Kernel.Env) (hk : k.env e=some k') :
    Aside F i pc k' := by
  refine ⟨fun fd hF => (env_attached e hk fd).mpr (ha.attached fd hF),fun fd ep hF hp => ?_⟩
  rcases env_watch hw e hk ep fd with same|⟨gone,-⟩
  · exact same.trans (ha.unwatched fd ep hF hp)
  · exact gone

end steps

/-- `stop()` finds no entry of the listening socket among the pending events,
and `start` not between a close and the reset of the field. -/
def Placed (s : State) : Action → Prop
  | .stop _ => s.impl.isRunning=true →
    s.impl.serverFd∉s.pc.pending ∧ s.pc.staleEpoll=false ∧ s.pc.staleServer=false
  | _ => True

instance (s : State) : ∀ a,Decidable (Placed s a)
  | .stop _ => inferInstanceAs (Decidable (_ → _))
  | .reactor _ | .env _ => isTrue trivial

/-- In addition `stop()` does not call itself through the logger. -/
def Clean (s : State) (a : Action) : Prop :=
  Placed s a ∧ ∀ nested,a=.stop nested → s.impl.isRunning=true →
    nested=0 ∨ s.impl.loggerCb=false

instance (s : State) : ∀ a,Decidable (Clean s a)
  | .stop n => decidable_of_iff (Placed s (.stop n) ∧
      (s.impl.isRunning=true → n=0 ∨ s.impl.loggerCb=false)) (by simp [Clean])
  | .reactor r => isTrue ⟨trivial,by simp⟩
  | .env e => isTrue ⟨trivial,by simp⟩

/-- What is known about a run at any time: the kernel's tables are sound, the
history agrees with them, and `start` remembers what it should. -/
structure Owned (s : State) : Prop where
  wf : s.kernel.Wf
  agrees : s.kernel.Agrees (ledger s.trace)
  shape : Shape s.impl s.pc s.kernel.table s.kernel.watch

/-- A call of `start` begins in a process where nothing is known to be the object's own. -/
theorem Shape.first {i : Impl} {T : Fd → Option File} {W : Fd → Fd → Option Trigger}
    (unset : i.serverFd=-1 ∧ i.epollFd=-1 ∧ i.isRunning=false)
    (table : ∀ fd f,T fd=some f → 0≤fd ∧ f=.foreign) (watch : ∀ p fd,W p fd=none) :
    Shape i .socket T W := by
  obtain ⟨server,epoll,halted⟩ := unset
  constructor
  case nonneg => exact fun fd f h => (table fd f h).1
  all_goals simp [server,epoll,halted,watch,Pc.staleServer,Pc.staleEpoll,Pc.loose,Pc.client,
    Pc.pending,Pc.armed,Pc.listens,Pc.mentions]
  · intro fd f h hm
    rw [(table fd f h).2] at hm
    cases hm
  · intro fd h
    cases (table fd _ h).2
  · intro _ fd c f h
    cases (table fd _ h).2

theorem boot_owned (port : Int) (options : TcpOptions) (loggerCb dataCb : Bool)
    (foreign : List Fd) : Owned (.boot port options loggerCb dataCb foreign) where
  wf := boot_wf foreign
  agrees := boot_agrees foreign
  shape := by
    refine Shape.first ⟨rfl,rfl,rfl⟩ (fun fd f h => ?_) fun _ _ => rfl
    simp only [State.boot,Kernel.boot,Option.ite_none_right_eq_some,Option.some.injEq] at h
    exact ⟨h.1.1,h.2.symm⟩

/-- A stop while the server is not running does nothing. -/
theorem stop_idle {s : State} (hr : s.impl.isRunning=false) (nested : Nat) :
    s.stop nested={ s with trace := .stop::s.trace } := by
  simp [State.stop,Impl.stop,hr]

/-- The same in a process where `F` is left over from earlier calls of `start`. -/
structure Housed (F : Fd → Bool) (s : State) : Prop where
  wf : s.kernel.Wf
  agrees : s.kernel.Agrees (ledger s.trace)
  shape : Shape s.impl s.pc (s.kernel.veil F) (s.kernel.veilWatch F)
  aside : Aside F s.impl s.pc s.kernel

theorem Owned.housed {s : State} (h : Owned s) : Housed (fun _ => false) s :=
  ⟨h.wf,h.agrees,h.shape,⟨by simp,by simp⟩⟩

theorem Housed.owned {s : State} (h : Housed (fun _ => false) s) : Owned s :=
  ⟨h.wf,h.agrees,h.shape⟩

section housed

variable {F : Fd → Bool} {s : State}

/-- What a well placed `stop()` closes. -/
theorem Housed.closes (h : Housed F s) (stale : s.pc.staleEpoll=false ∧ s.pc.staleServer=false)
    (nested : Nat) : ∀ x∈closing (s.impl.cleanup nested).2,F x=false ∧
      (0 ≤ s.impl.epollFd ∧ x=s.impl.epollFd ∧ s.kernel.table x=some .epoll ∨
        0 ≤ s.impl.serverFd ∧ x=s.impl.serverFd ∧
          ∃ f,s.kernel.table x=some f ∧ File.master f=true) := by
  intro x hx
  rcases (cleanup_closing nested s.impl x).mp hx with ⟨h0,rfl⟩|⟨h0,rfl⟩
  · have ne : s.impl.epollFd≠-1 := fun e => absurd (e ▸ h0) (by decide)
    obtain ⟨out,file⟩ := veil_file (h.shape.epoll ne stale.1) (by simp)
    exact ⟨out,.inl ⟨h0,rfl,file⟩⟩
  · have ne : s.impl.serverFd≠-1 := fun e => absurd (e ▸ h0) (by decide)
    obtain ⟨f,hf,hm⟩ := h.shape.server ne stale.2
    have known : f≠.foreign := by
      rintro rfl
      cases hm
    obtain ⟨out,file⟩ := veil_file hf known
    exact ⟨out,.inr ⟨h0,rfl,f,file,hm⟩⟩

theorem stop_housed (h : Housed F s) (nested : Nat) (hp : Placed s (.stop nested)) :
    Housed F (s.stop nested) := by
  by_cases hr : s.impl.isRunning=true
  · obtain ⟨hs,hst⟩ := hp hr
    have heq : s.impl.stop nested=s.impl.cleanup nested := by simp [Impl.stop,hr]
    have fields := h.shape.fields
    have impl : (s.stop nested).impl=
        { s.impl with serverFd := -1,epollFd := -1,isRunning := false } := by
      simp only [State.stop,heq,cleanup_impl]
      grind
    have closed (x : Fd) : x∈closing (s.impl.cleanup nested).2 ↔
        (0 ≤ s.impl.epollFd ∧ x=s.impl.epollFd) ∨ (0 ≤ s.impl.serverFd ∧ x=s.impl.serverFd) :=
      cleanup_closing nested s.impl x
    have out : ∀ x∈closing (s.impl.cleanup nested).2,F x=false :=
      fun x hx => (h.closes hst nested x hx).1
    have kernel : (s.stop nested).kernel=
        (closing (s.impl.cleanup nested).2).foldl Kernel.close s.kernel := by
      simp only [State.stop,heq]
      exact effects_kernel _
    have table (x : Fd) : (s.stop nested).kernel.table x=
        if x∈closing (s.impl.cleanup nested).2 then none else s.kernel.table x := by
      rw [kernel,closes_table]
    have watch (p x : Fd) : (s.stop nested).kernel.watch p x=
        if x∈closing (s.impl.cleanup nested).2 then none else s.kernel.watch p x := by
      rw [kernel,closes_watch h.wf]
    have free : F (-1)=false := by
      by_contra hF
      obtain ⟨c,f,hf⟩ := h.aside.attached (-1) (by simpa using hF)
      rw [h.wf.minus_one] at hf
      cases hf
    have unset := (veil_own free).trans h.wf.minus_one
    refine ⟨?_,?_,?_,?_,?_⟩
    · rw [kernel]
      exact closes_wf h.wf _
    · exact effects_agrees (t := .stop::s.trace) h.wf h.agrees (s.impl.stop nested).2
    · rw [impl]
      apply h.shape.stopped hr hs hst
      · intro x
        have hx := closed x
        have hout := out x
        have raw := table x
        unfold veil at unset ⊢
        grind
      · intro p x
        have hx := closed x
        have hout := out x
        have raw := watch p x
        have quiet : s.kernel.watch p (-1)=none := by
          by_contra hq
          exact h.wf.watched p (-1) hq h.wf.minus_one
        unfold veilWatch
        grind
    · intro fd hF
      refine (attached_congr ?_).mpr (h.aside.attached fd hF)
      rw [table,if_neg]
      intro hx
      rw [out fd hx] at hF
      cases hF
    · intro fd ep hF he
      rw [impl] at he
      rw [watch]
      split
      · rfl
      · rcases he with ⟨rfl,ne⟩|he
        · exact absurd rfl ne
        · exact h.aside.unwatched fd ep hF (.inr he)
  · have hr : s.impl.isRunning=false := by simpa using hr
    rw [stop_idle hr]
    exact ⟨h.wf,h.agrees,h.shape,h.aside⟩

theorem step_housed (s : State) (a : Action) (t : State) (h : Housed F s) (hp : Placed s a)
    (hs : machine.step s a=some t) : Housed F t := by
  cases a with
  | reactor r =>
    have hl := reactor_ledger hs
    obtain ⟨k,i,pc,lines,hk,hn,rfl⟩ := reactor_cases hs
    refine ⟨answer_wf h.wf _ _ hk,?_,reactor_shape h.shape h.aside h.wf hk hn,
      reactor_aside h.shape h.aside h.wf hk hn⟩
    rw [hl]
    exact answer_agrees h.wf h.agrees _ _ hk
  | env e =>
    obtain ⟨k,hk,rfl⟩ := Option.map_eq_some_iff.mp hs
    exact ⟨env_wf h.wf e hk,env_agrees h.agrees e hk,env_shape h.shape h.aside h.wf e hk,
      env_aside h.aside h.wf e hk⟩
  | stop nested =>
    cases hs
    exact stop_housed h nested hp

theorem Housed.names_owned (h : Housed F s) :
    ∀ fd∈(s.pc.call s.impl).names,fd=-1 ∨ s.kernel.Owns fd := by
  intro fd hm
  rcases h.shape.names_own fd hm with hfd|⟨f,hf,hn⟩
  · exact .inl hfd
  · exact .inr ⟨f,(veil_file hf hn).2,hn⟩

end housed

theorem step_owned (s : State) (a : Action) (t : State) (h : Owned s) (hp : Placed s a)
    (hs : machine.step s a=some t) : Owned t :=
  (step_housed s a t h.housed hp hs).owned

end TuyulNet.Server
