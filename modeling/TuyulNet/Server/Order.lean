import TuyulNet.Server.Turns

namespace TuyulNet.Server

open Framework Kernel

section batches

variable {k : Kernel} {i : Impl} {s t : State} {count : Nat} {o : Outcomes count}

theorem run_along {as : List Action} (h : Along k i s) (hm : machine.Meets (Proceeds o) s as)
    (hr : machine.run s as=some t) : Along k i t ∧ (parts o i.dataCb).Reaches (s.part k [])
      (t.part k (machine.history State.notices s as)) := by
  have all := machine.history_invariant
    (I := fun u n => Along k i u ∧ (parts o i.dataCb).Reaches (s.part k []) (u.part k n))
    State.notices ?_ as s [] t ⟨h,.refl⟩ hm hr
  · simpa using all
  · rintro u n a v ⟨along,reached⟩ hc hv
    cases a with
    | reactor r =>
      obtain ⟨next,moved⟩ := step_along along hc hv
      exact ⟨next,reached.tail moved⟩
    | env e => cases hc
    | stop nested => cases hc

/-- Where a call may fail and may succeed, it can do as foreseen. -/
theorem foreseen_reply {c : Call} (out : Option Errno)
    (fails : ∀ e,k.answer c (.fail e)=some k)
    (succeeds : ∃ r l,r.failure=none ∧ k.answer c r=some l) :
    ∃ r l,r.failure=out ∧ k.answer c r=some l := by
  cases out with
  | none => exact succeeds
  | some e => exact ⟨.fail e,k,rfl,fails e⟩

/-- A registered client does not block, so that whatever is foreseen can be read. -/
theorem Along.reads {o : Outcomes i.options.bufferSize} {fd : Fd} {rest : List Fd} {c : ConnId}
    {f : Nat} (h : Along k i s) (hp : s.pc=.read fd rest)
    (hf : s.kernel.table fd=some (.conn c f)) : ∃ l,s.kernel.answer
      (.read fd i.options.bufferSize) (o.read c (s.kernel.conns c).pipe)=some l := by
  have shape := h.owned.shape
  have block : nonblocking f=true := by
    have epoll : s.impl.epollFd≠-1 := by rw [h.impl]; exact h.epoll
    rcases shape.clients epoll (by rw [hp]; rfl) fd c f hf with loose|watched
    · rw [hp] at loose
      cases loose
    · rcases shape.registered _ fd _ watched with ⟨ht,-⟩|⟨-,d,g,hg,block⟩
      · cases ht
      · rw [hf] at hg
        cases hg
        exact block
  have reports := o.reports c (s.kernel.conns c).pipe
  cases ho : o.read c (s.kernel.conns c).pipe with
  | data bs =>
    rw [ho] at reports
    by_cases hb : bs=[]
    · subst hb
      simp only [Reports,if_true] at reports
      exact ⟨s.kernel,by simp only [answer,answerRead,hf,readConn,if_true,if_pos reports]⟩
    · simp only [Reports,if_neg hb] at reports
      obtain ⟨p,take⟩ : ∃ p,(s.kernel.conns c).pipe.take bs=some p := ⟨_,dif_pos reports.2⟩
      exact ⟨s.kernel.setPipe c p,by simp [answer,answerRead,hf,readConn,hb,reports.1,take]⟩
  | fail e =>
    rw [ho] at reports
    refine ⟨s.kernel,?_⟩
    cases hw : e.wouldBlock with
    | true =>
      have dry : s.kernel.drained c := (reports hw).2
      simp [answer,answerRead,hf,hw,block,(reports hw).1,dry]
    | false => simp [answer,answerRead,hw]
  | _ =>
    rw [ho] at reports
    cases reports

/-- The kernel can always give the reply that is foreseen. -/
theorem Along.answers {o : Outcomes i.options.bufferSize} (h : Along k i s) :
    ∃ r l,Follows o s r ∧ s.kernel.answer (s.pc.call s.impl) r=some l := by
  have inside := h.inBatch
  have shape := h.owned.shape
  have client {fd : Fd} (hp : s.pc.client=some fd) : ∃ c f,
      s.kernel.table fd=some (.conn c f) ∧ s.kernel.connection fd=some c := by
    obtain ⟨c,f,hf⟩ := shape.client fd hp
    exact ⟨c,f,hf,connection_some.mpr ⟨f,hf⟩⟩
  unfold Follows
  cases hp : s.pc with
  | batch fds => exact ⟨.ok,s.kernel,trivial,rfl⟩
  | deliver fd bs rest => exact ⟨.ok,s.kernel,trivial,rfl⟩
  | delClient fd rest => exact ⟨.fail (.other 1),s.kernel,trivial,rfl⟩
  | reject fd rest | closeClient fd rest =>
    obtain ⟨c,f,hf,-⟩ := client (by rw [hp]; rfl)
    exact ⟨.ok,s.kernel.close fd,trivial,by simp [Pc.call,answer,answerClose,hf]⟩
  | accept rest =>
    obtain ⟨f,hf,block⟩ := h.listener
    rw [← h.impl] at hf
    cases hb : s.kernel.backlog s.impl.serverFd with
    | nil =>
      obtain ⟨e,he⟩ := Option.ne_none_iff_exists'.mp o.exhausted
      refine ⟨.fail e,s.kernel,he.symm,?_⟩
      cases hw : e.wouldBlock <;> simp [Pc.call,answer,answerAccept,hw,hf,block,hb]
    | cons c waiting =>
      cases ho : o.accept (some c) with
      | some e =>
        refine ⟨.fail e,s.kernel,ho.symm,?_⟩
        simp [Pc.call,answer,answerAccept,o.pending c e ho]
      | none =>
        obtain ⟨m,fresh⟩ := exists_fresh h.owned.wf
        refine ⟨.conn m c,s.kernel.accept s.impl.serverFd m c,ho.symm,?_⟩
        simp [Pc.call,answer,answerAccept,hf,fresh,hb]
  | getFl fd caller =>
    rw [hp] at inside
    cases caller with
    | setup => cases inside
    | client rest =>
      obtain ⟨c,f,hf,known⟩ := client (by rw [hp]; rfl)
      obtain ⟨r,l,hr,hk⟩ := foreseen_reply (k := s.kernel) (c := .getFlags fd) (o.getFlags c)
        (fun _ => rfl) ⟨.flags f,s.kernel,rfl,by simp [answer,hf,File.status,File.flags]⟩
      exact ⟨r,l,by simp [known,hr],hk⟩
  | setFl fd flags caller =>
    rw [hp] at inside
    cases caller with
    | setup => cases inside
    | client rest =>
      obtain ⟨c,f,hf,known⟩ := client (by rw [hp]; rfl)
      obtain ⟨r,l,hr,hk⟩ := foreseen_reply (k := s.kernel)
        (c := .setFlags fd (flags ||| oNonblock)) (o.setFlags c) (fun _ => rfl)
        ⟨.ok,s.kernel.install fd (.conn c (flags ||| oNonblock)),rfl,
          by simp [answer,answerUnit,hf,File.withFlags]⟩
      exact ⟨r,l,by simp [known,hr],hk⟩
  | addClient fd rest =>
    obtain ⟨c,f,hf,known⟩ := client (by rw [hp]; rfl)
    have unhooked : (s.kernel.polls s.impl.epollFd).interest fd=none := by
      rw [h.impl]
      exact (h.newcomer fd (by rw [hp]; rfl)).1
    have epoll := shape.epoll (by rw [h.impl]; exact h.epoll) (inBatch_fresh inside)
    obtain ⟨r,l,hr,hk⟩ := foreseen_reply (k := s.kernel)
      (c := .epollAdd s.impl.epollFd fd .edge) (o.add c) (fun _ => rfl)
      ⟨.ok,s.kernel.register s.impl.epollFd fd .edge,rfl,
        by simp [answer,answerUnit,hf,epoll,unhooked]⟩
    exact ⟨r,l,by simp [known,hr],hk⟩
  | read fd rest =>
    obtain ⟨c,f,hf,known⟩ := client (by rw [hp]; rfl)
    obtain ⟨l,hk⟩ := h.reads (o := o) hp hf
    refine ⟨o.read c (s.kernel.conns c).pipe,l,by simp [known],?_⟩
    simpa [Pc.call,h.impl] using hk
  | _ =>
    rw [hp] at inside
    cases inside

/-- Every batch comes to its end. -/
theorem Along.completes {o : Outcomes i.options.bufferSize} (h : Along k i s) :
    ∃ as t,machine.Meets (Proceeds o) s as ∧ machine.run s as=some t ∧ t.pc=.batch [] := by
  induction hw : potential s using Nat.strong_induction_on generalizing s with
  | _ left ih =>
    by_cases hp : s.pc=.batch []
    · exact ⟨[],s,trivial,rfl,hp⟩
    · obtain ⟨r,l,follows,hk⟩ := h.answers (o := o)
      obtain ⟨⟨j,q,lines⟩,hn⟩ := batch_handles h.inBatch hk
      have hs : machine.step s (.reactor r)=
          some ⟨j,q,l,lines++.call (s.pc.call s.impl) r::s.trace⟩ := by
        simp [step,State.reactor,hk,hn]
      have paid := batch_pays s (.reactor r) _ h.owned ⟨h.inBatch,rfl⟩ hs
      have next := (step_along (n := []) h ⟨hp,follows⟩ hs).1
      obtain ⟨as,t,meets,run,ended⟩ := ih _ (by
        simp only [Action.cost,Action.arrivals,Action.isReactor,Bool.toNat_true] at paid
        omega) next rfl
      refine ⟨.reactor r::as,t,⟨⟨hp,follows⟩,fun u hu => ?_⟩,?_,ended⟩
      · rw [hs] at hu
        cases hu
        exact meets
      · exact (machine.run_cons _ _ _ _).mpr ⟨_,hs,run⟩

end batches

/-- After `make_socket_non_blocking` on the listening socket, before the exit. -/
def Pc.unblocked : Pc → Bool
  | .bind | .listen => true
  | pc => pc.listens

section reachable

variable {i j : Impl} {pc q : Pc} {r : Reply} {lines : Trace} {s t : State}

theorem next_unblocked (hn : pc.next i r=some (j,q,lines)) (hq : q.unblocked=true) :
    j.serverFd=i.serverFd ∧
      (pc.unblocked=true ∨ ∃ fd flags,pc=.setFl fd flags .setup ∧ r=.ok) := by
  rcases next_cases hn with hn|hn|hn|hn|hn|hn
  · unfold setupNext bail at hn
    split at hn <;> cases hn <;> first | exact ⟨rfl,.inl rfl⟩ | cases hq
  · cases pc with
    | getFl fd caller =>
      cases caller <;> cases r <;> cases hn <;> first | exact ⟨rfl,.inl rfl⟩ | cases hq
    | setFl fd flags caller =>
      cases caller with
      | setup =>
        cases r with
        | ok =>
          cases hn
          exact ⟨rfl,.inr ⟨fd,flags,rfl,rfl⟩⟩
        | fail e =>
          cases hn
          cases hq
        | _ => cases hn
      | client rest => cases r <;> cases hn <;> exact ⟨rfl,.inl rfl⟩
    | _ => cases hn
  · unfold loopNext at hn
    split at hn <;> (try split at hn) <;> cases hn <;> exact ⟨rfl,.inl rfl⟩
  · unfold acceptNext at hn
    split at hn <;> cases hn <;> exact ⟨rfl,.inl rfl⟩
  · unfold drainNext at hn
    split at hn <;> (try split at hn) <;> cases hn <;> exact ⟨rfl,.inl rfl⟩
  · unfold cleanupNext at hn
    split at hn <;> cases hn <;> (try split at hq) <;> cases hq

/-- From then on the listening socket does not block. -/
def Unblocked (s : State) : Prop :=
  s.pc.unblocked=true → ∃ f,s.kernel.table s.impl.serverFd=some f ∧ nonblocking f.flags=true

theorem reactor_unblocked (h : Undisturbed s) (hu : Unblocked s) (hs : s.reactor r=some t) :
    Unblocked t := by
  obtain ⟨k',j,q,lines,hk,hn,rfl⟩ := reactor_cases hs
  intro hq
  obtain ⟨server,old|⟨fd,flags,hp,rfl⟩⟩ := next_unblocked hn hq
  · rw [server]
    obtain ⟨f,hf,hb⟩ := hu old
    refine answer_nonblocking hk hf hb (fun n hc => ?_) fun hc => ?_
    · -- `start` only ever sets flags that include O_NONBLOCK
      cases hp : s.pc with
      | setFl fd flags caller =>
        rw [hp] at hc
        cases hc
        exact nonblocking_set flags
      | cleanup stage code =>
        rw [hp] at hc
        cases stage <;> cases hc
      | _ =>
        rw [hp] at hc
        cases hc
    · have client {fd : Fd} (hp : s.pc.client=some fd) (hl : s.pc.listens=true)
          (ha : s.pc.active=true) : fd≠s.impl.serverFd := by
        rintro rfl
        obtain ⟨c,g,hg⟩ := h.owned.shape.client _ hp
        obtain ⟨a,listener⟩ := h.owned.shape.listener hl (h.live.server ha)
        rw [hg] at listener
        cases listener
      cases hp : s.pc with
      | reject fd rest | closeClient fd rest =>
        rw [hp] at hc
        have other : fd≠s.impl.serverFd :=
          client (by rw [hp]; rfl) (by rw [hp]; rfl) (by rw [hp]; rfl)
        exact other (Call.close.inj hc)
      | cleanup stage code =>
        rw [hp] at old
        cases old
      | _ =>
        rw [hp] at hc
        cases hc
  · rw [server]
    have named := h.owned.shape.master fd flags (.inr hp)
    obtain ⟨f,hf,master⟩ := h.owned.shape.server (h.live.server (by rw [hp]; rfl)) (by rw [hp]; rfl)
    rw [hp] at hk
    obtain ⟨g,hg,rfl⟩ := Option.map_eq_some_iff.mp hk
    rw [named,hf] at hg
    cases hg
    refine ⟨f.withFlags (flags ||| oNonblock),by simp [named],?_⟩
    cases f with
    | sock a | listener a => exact nonblocking_set flags
    | _ => cases master

theorem step_unblocked (s : State) (a : Action) (t : State) (h : Undisturbed s ∧ Unblocked s)
    (ha : a.isStop=false) (hs : machine.step s a=some t) : Undisturbed t ∧ Unblocked t := by
  refine ⟨step_undisturbed s a t h.1 ha hs,?_⟩
  cases a with
  | reactor r => exact reactor_unblocked h.1 h.2 hs
  | env e =>
    obtain ⟨k,hk,rfl⟩ := Option.map_eq_some_iff.mp hs
    intro hp
    obtain ⟨f,hf,hb⟩ := h.2 hp
    rcases env_table e hk s.impl.serverFd with same|⟨-,before⟩
    · exact ⟨f,same.trans hf,hb⟩
    · rw [before f hf] at hb
      cases hb
  | stop nested => cases ha

end reachable

/-- The reactor waits for events, and its descriptors are in order. -/
structure Running (s : State) : Prop where
  owned : Owned s
  waiting : s.pc=.waiting s.impl.epollFd
  epoll : s.impl.epollFd≠-1
  listener : ∃ f,s.kernel.table s.impl.serverFd=some (.listener f) ∧ nonblocking f=true

/-- Without `stop()` the reactor is in order whenever it waits for events. -/
theorem run_running (port : Int) (options : TcpOptions) (loggerCb dataCb : Bool)
    (foreign : List Fd) {as : List Action} {t : State} {ep : Fd} (hn : ∀ a∈as,a.isStop=false)
    (hr : machine.run (.boot port options loggerCb dataCb foreign) as=some t)
    (hp : t.pc=.waiting ep) : Running t := by
  obtain ⟨-,watched⟩ := run_watched port options loggerCb dataCb foreign hn hr
  have start : Unblocked (.boot port options loggerCb dataCb foreign) := by
    intro e
    cases e
  obtain ⟨h,unblocked⟩ := machine.invariant step_unblocked as _ t
    ⟨boot_undisturbed port options loggerCb dataCb foreign,start⟩
    (Machine.Meets.of_actions machine as hn _) hr
  have server := h.live.server (by rw [hp]; rfl)
  obtain ⟨f,listener⟩ := h.owned.shape.listener (by rw [hp]; rfl) server
  obtain ⟨g,hg,hb⟩ := unblocked (by rw [hp]; rfl)
  rw [listener] at hg
  cases hg
  exact ⟨h.owned,by rw [hp,watched.waiting ep hp],h.live.epoll (by rw [hp]; rfl) (by rw [hp]; rfl),
    f,listener,hb⟩

section orders

variable {s t : State} {fds fds' : List Fd}

theorem Running.begins (h : Running s) (hn : fds.Nodup)
    (hw : ∀ fd∈fds,s.kernel.watch s.impl.epollFd fd≠none) :
    Along s.kernel s.impl (s.returns fds) := by
  have wf := h.owned.wf
  have shape := h.owned.shape
  rw [h.waiting] at shape
  obtain ⟨f,listener,-⟩ := h.listener
  have door : s.kernel.connection s.impl.serverFd=none := by simp [Kernel.connection,listener]
  have client (fd : Fd) (hm : fd∈fds) (hne : fd≠s.impl.serverFd) :
      ∃ c,(s.kernel.conns c).fd=some fd := by
    obtain ⟨trigger,ht⟩ := Option.ne_none_iff_exists'.mp (hw fd hm)
    rcases shape.registered _ fd trigger ht with ⟨-,server,-⟩|⟨-,c,g,hg,-⟩
    · exact absurd server hne
    · exact ⟨c,(wf.attached fd c g hg).1⟩
  refine ⟨⟨wf,h.owned.agrees,shape.harvest (fun _ => rfl) (fun _ _ => rfl) hn hw⟩,⟨wf,door⟩,rfl,
    h.epoll,rfl,h.listener,?_,fun c fd e => .inr e,fun c hc => (wf.queued _ c hc).1,?_,?_⟩
  · intro fd hm hne
    obtain ⟨c,hc⟩ := client fd hm hne
    exact ⟨c,hc,hc⟩
  · intro fd hfd
    cases hfd
  · -- no two of the descriptors concern the same connection
    have keys : ((s.returns fds).pc.agenda s.kernel.connection s.kernel.connection).map Prod.fst=
        fds.map s.kernel.connection := by
      simp [State.returns,Pc.agenda,queued,Function.comp_def]
    show (((s.returns fds).pc.agenda s.kernel.connection s.kernel.connection).map Prod.fst).Nodup
    rw [keys]
    refine List.Nodup.map_on (fun x hx y hy same => ?_) hn
    by_cases hxs : x=s.impl.serverFd
    · by_cases hys : y=s.impl.serverFd
      · rw [hxs,hys]
      · obtain ⟨c,hc⟩ := client y hy hys
        rw [hxs,door,wf.connection.mpr hc] at same
        cases same
    · obtain ⟨c,hc⟩ := client x hx hxs
      rw [wf.connection.mpr hc] at same
      have hc' := wf.connection.mp same.symm
      rw [hc] at hc'
      exact Option.some.inj hc'

theorem returns_part (hn : ((queued s.kernel.connection fds).map Prod.fst).Nodup)
    (hp : fds.Perm fds') (n : List (ConnId × Notice)) :
    (s.returns fds').part s.kernel n=(s.returns fds).part s.kernel n := by
  funext key
  refine Part.ext ?_ rfl rfl
  exact congrArg (Option.getD · Stage.idle) (lookup_perm (hp.map _) hn).symm

/-- Connection `c` is open under `fd` and registered. -/
def State.serves (s : State) (c : ConnId) (fd : Fd) : Prop :=
  (s.kernel.conns c).fd=some fd ∧ s.kernel.watch s.impl.epollFd fd=some .edge

/-- Two ends of a batch that began in `s` and that nobody can tell apart but by the numbers of
new connections. -/
structure Alike (s t t' : State) : Prop where
  unread : ∀ c,(t'.kernel.conns c).pipe=(t.kernel.conns c).pipe
  waiting : t'.kernel.backlog s.impl.serverFd=t.kernel.backlog s.impl.serverFd
  stays : ∀ c,(t'.kernel.conns c).fd=none ↔ (t.kernel.conns c).fd=none
  serves : ∀ c,(∃ fd,t'.serves c fd) ↔ ∃ fd,t.serves c fd
  numbers : ∀ c,(s.kernel.conns c).fd≠none → (t'.kernel.conns c).fd=(t.kernel.conns c).fd

/-- After the batch what is open is registered. -/
theorem Along.served {k : Kernel} {i : Impl} (h : Along k i t) (hp : t.pc=.batch [])
    (c : ConnId) : (∃ fd,t.serves c fd) ↔ (t.kernel.conns c).fd≠none := by
  constructor
  · rintro ⟨fd,hc,-⟩
    rw [hc]
    simp
  · intro hc
    obtain ⟨fd,hfd⟩ := Option.ne_none_iff_exists'.mp hc
    obtain ⟨f,hf⟩ := h.owned.wf.owner c fd hfd
    have epoll : t.impl.epollFd≠-1 := by rw [h.impl]; exact h.epoll
    refine ⟨fd,hfd,?_⟩
    rcases h.owned.shape.clients epoll (by rw [hp]; rfl) fd c f hf with loose|watched
    · rw [hp] at loose
      cases loose
    · exact watched

/-- The order in which a batch of events is dealt with makes no difference, but for the numbers
that new connections get. -/
theorem order_irrelevant (h : Running s) (o : Outcomes s.impl.options.bufferSize)
    (fds fds' : List Fd) (hn : fds.Nodup) (hw : ∀ fd∈fds,s.kernel.watch s.impl.epollFd fd≠none)
    (hp : fds.Perm fds') :
    (∃ as t,Completes o s fds as t) ∧ (∃ as t,Completes o s fds' as t) ∧
    ∀ as t as' t',Completes o s fds as t → Completes o s fds' as' t' →
      (∀ c,told c (s.returns fds') as'=told c (s.returns fds) as) ∧ Alike s t t' := by
  have begins := h.begins hn hw
  have begins' := h.begins (hp.nodup_iff.mp hn) fun fd hm => hw fd (hp.mem_iff.mpr hm)
  refine ⟨begins.completes,begins'.completes,?_⟩
  rintro as t as' t' ⟨meets,run,ended⟩ ⟨meets',run',ended'⟩
  obtain ⟨along,reached⟩ := run_along begins meets run
  obtain ⟨along',reached'⟩ := run_along begins' meets' run'
  rw [returns_part begins.once hp] at reached'
  have settled {u : State} (hu : u.pc=.batch []) (n : List (ConnId × Notice)) :
      (parts o s.impl.dataCb).Settled (u.part s.kernel n) := by
    intro key
    apply settled_idle
    simp [State.part,hu,Pc.agenda,queued]
  have same := Independent.settles_once reached reached' (settled ended _) (settled ended' _)
  have seat (c : ConnId) : t'.seat (machine.history State.notices (s.returns fds') as') c=
      t.seat (machine.history State.notices (s.returns fds) as) c := by
    have part := congrFun same (owner s.kernel c)
    have seats := congrFun (congrArg Part.seats part) c
    simpa [State.part] using seats.symm
  have attached (c : ConnId) :
      (t'.kernel.conns c).fd.isSome=(t.kernel.conns c).fd.isSome :=
    congrArg Seat.attached (seat c)
  have stays (c : ConnId) : (t'.kernel.conns c).fd=none ↔ (t.kernel.conns c).fd=none := by
    rw [← Option.isNone_iff_eq_none,← Option.isNone_iff_eq_none,← Option.not_isSome,
      ← Option.not_isSome,attached]
  refine ⟨fun c => congrArg Seat.noted (seat c),fun c => congrArg Seat.pipe (seat c),?_,stays,?_,?_⟩
  · have queue := congrArg Part.queue (congrFun same none)
    simpa [State.part,along.impl,along'.impl] using queue.symm
  · intro c
    rw [along'.served ended',along.served ended]
    exact not_congr (stays c)
  · intro c hc
    obtain ⟨fd,hfd⟩ := Option.ne_none_iff_exists'.mp hc
    rcases along.fds c fd hfd with gone|still
    · rw [(stays c).mpr gone,gone]
    · rcases along'.fds c fd hfd with gone'|still'
      · rw [(stays c).mp gone'] at still
        cases still
      · rw [still',still]

/-- No call fails without need, and `read` fills the buffer. -/
def prompt (count : Nat) (h : 0 < count) : Outcomes count where
  read _ p :=
    if p.unread=[] then
      match p.ending with
      | .flowing => .fail .eagain
      | .finished => .data []
      | .broken => .fail .econnreset
    else .data (p.unread.take count)
  accept
    | none => some .eagain
    | some _ => none
  getFlags _ := none
  setFlags _ := none
  add _ := none
  reports := by
    intro c p
    by_cases hu : p.unread=[]
    · cases he : p.ending <;> simp [Reports,hu,he,h,Errno.wouldBlock]
    · have some' : p.unread.take count≠[] := by simp [hu,h.ne']
      simp only [if_neg hu,Reports,if_neg some',List.length_take]
      exact ⟨min_le_left _ _,List.take_prefix _ _⟩
  exhausted := by simp
  pending := by simp

/-- A client sends a byte and goes while another one knocks. -/
def changing : List Action :=
  oneClient++[.env (.send 0 [65]),.env (.arrive 0 1),.env (.shut 0),.env (.finish 0),
    .env (.connect 3),.reactor .ok]

/-- The number of the client that goes is free for the new one, or still in use. -/
def clientFirst : List Action :=
  [.reactor .ok,.reactor (.data [65]),.reactor .ok,.reactor (.data []),.reactor .ok,
    .reactor .ok,.reactor .ok,.reactor (.conn 5 1),.reactor (.flags 2),.reactor .ok,.reactor .ok,
    .reactor (.fail .eagain)]

def listenerFirst : List Action :=
  [.reactor .ok,.reactor (.conn 6 1),.reactor (.flags 2),.reactor .ok,.reactor .ok,
    .reactor (.fail .eagain),.reactor .ok,.reactor (.data [65]),.reactor .ok,.reactor (.data []),
    .reactor .ok,.reactor .ok]

theorem order_irrelevant_changing : ∃ s t t',
    machine.run (.boot 8080 {} false true []) changing=some s ∧
    machine.run (s.returns [5,3]) clientFirst=some t ∧ (t.kernel.conns 1).fd=some 5 ∧
    machine.run (s.returns [3,5]) listenerFirst=some t' ∧ (t'.kernel.conns 1).fd=some 6 ∧
    (∀ c,told c (s.returns [3,5]) listenerFirst=told c (s.returns [5,3]) clientFirst) ∧
    Alike s t t' := by
  have ready : (machine.run (.boot 8080 {} false true []) changing).map (fun s =>
      (s.pc,s.impl.epollFd,s.kernel.watch 4 5,s.kernel.watch 4 3))=
        some (.waiting 4,4,some .edge,some .level) := by
    decide +kernel
  have first : (machine.run (.boot 8080 {} false true []) changing).bind (fun s =>
      (machine.run (s.returns [5,3]) clientFirst).map fun t => (t.pc,(t.kernel.conns 1).fd))=
        some (.batch [],some 5) := by
    decide +kernel
  have second : (machine.run (.boot 8080 {} false true []) changing).bind (fun s =>
      (machine.run (s.returns [3,5]) listenerFirst).map fun t => (t.pc,(t.kernel.conns 1).fd))=
        some (.batch [],some 6) := by
    decide +kernel
  have foreseen : ∀ s∈machine.run (.boot 8080 {} false true []) changing,
      ∃ h : 0 < s.impl.options.bufferSize,
        machine.Meets (Proceeds (prompt _ h)) (s.returns [5,3]) clientFirst ∧
        machine.Meets (Proceeds (prompt _ h)) (s.returns [3,5]) listenerFirst := by
    decide +kernel
  obtain ⟨s,hs,heq⟩ := Option.map_eq_some_iff.mp ready
  obtain ⟨hp,he,h5,h3⟩ : s.pc=.waiting 4 ∧ s.impl.epollFd=4 ∧ s.kernel.watch 4 5=some .edge ∧
    s.kernel.watch 4 3=some .level := by simpa using heq
  rw [hs,Option.bind_some] at first second
  obtain ⟨t,ht,heq⟩ := Option.map_eq_some_iff.mp first
  obtain ⟨ended,five⟩ := Prod.mk.injEq .. ▸ heq
  obtain ⟨t',ht',heq⟩ := Option.map_eq_some_iff.mp second
  obtain ⟨ended',six⟩ := Prod.mk.injEq .. ▸ heq
  obtain ⟨h,meets,meets'⟩ := foreseen s hs
  have running := run_running 8080 {} false true [] (by decide +kernel) hs hp
  have same := (order_irrelevant running (prompt _ h) [5,3] [3,5] (by decide)
    (by simp [he,h5,h3]) (.swap 3 5 [])).2.2 _ t _ t' ⟨meets,ht,ended⟩ ⟨meets',ht',ended'⟩
  exact ⟨s,t,t',hs,ht,five,ht',six,same⟩

end orders

end TuyulNet.Server
