import TuyulNet.Server.Admission
import TuyulNet.Server.Service

namespace TuyulNet.Server

open Framework Kernel

/-- What is under way to a reader does not stay so for ever. -/
def Arrives (σ : Nat → State) (α : Nat → Action) : Prop :=
  ∀ n,∀ c<(σ n).kernel.born,(∀ p≥n,((σ p).kernel.conns c).pipe.flight≠[]) →
    ∃ p≥n,∃ k,α p=.env (.arrive c k)

/-- Connection `c` has been accepted as `fd`, and has not been hooked in yet. -/
structure Joining (c : ConnId) (fd : Fd) (s : State) : Prop where
  newcomer : s.pc.newcomer=some fd
  client : s.kernel.connection fd=some c

section steps

variable {k k' : Kernel} {r : Reply} {s t : State} {a : Action} {c : ConnId} {fd : Fd}

/-- Whoever is accepted joins. -/
theorem accepted_joins (hs : machine.step s (.reactor (.conn fd c))=some t) : Joining c fd t := by
  obtain ⟨k,i,pc,lines,hk,hn,rfl⟩ := reactor_cases hs
  cases hp : s.pc with
  | accept rest =>
    rw [hp] at hk hn
    cases hn
    have hk : s.kernel.answerAccept s.impl.serverFd (.conn fd c)=some k := hk
    rcases answerAccept_cases hk with ⟨n,d,f,reply,-,-,-,rfl⟩|⟨e,reply,-⟩ <;> cases reply
    exact ⟨rfl,connection_some.mpr ⟨0,by simp [Kernel.accept]⟩⟩
  | getFl x caller | setFl x flags caller =>
    rw [hp] at hn
    cases caller <;> cases hn
  | batch fds =>
    rw [hp] at hn
    cases fds <;> cases hn
  | cleanup stage code =>
    rw [hp] at hn
    cases stage <;> cases hn
  | _ =>
    rw [hp] at hn
    cases hn

/-- Whoever has been accepted is hooked in, or turned away and closed. -/
theorem Joining.step (h : Joining c fd s) (hw : s.kernel.Wf) (nostop : a.isStop=false)
    (hs : machine.step s a=some t) : Joining c fd t ∨ Hooked c fd t ∨
      .turnAway c∈visits s a ∧ (t.kernel.conns c).fd=none := by
  obtain ⟨newcomer,client⟩ := h
  obtain ⟨e,k,rfl,hk,rfl⟩|⟨r,rfl,hr⟩ := step_reactor hs nostop
  · exact .inl ⟨newcomer,(env_connection e hk fd).trans client⟩
  · obtain ⟨k,i,pc,lines,hk,hn,rfl⟩ := reactor_cases hr
    cases hp : s.pc with
    | getFl x caller =>
      left
      rw [hp] at hk hn newcomer
      cases caller with
      | setup => cases newcomer
      | client rest =>
        obtain rfl : x=fd := Option.some.inj newcomer
        have same := (answer_quiet (by rfl) hk).1 x
        refine ⟨?_,(connection_congr same).trans client⟩
        cases r <;> cases hn <;> rfl
    | setFl x flags caller =>
      left
      rw [hp] at hk hn newcomer
      cases caller with
      | setup => cases newcomer
      | client rest =>
        obtain rfl : x=fd := Option.some.inj newcomer
        obtain ⟨f,file⟩ := connection_some.mp client
        refine ⟨by cases r <;> cases hn <;> rfl,?_⟩
        rcases answerUnit_cases hk with ⟨-,hk⟩|⟨e,-,rfl⟩
        · rw [file] at hk
          cases hk
          exact connection_some.mpr ⟨flags ||| oNonblock,by simp [Kernel.install,File.withFlags]⟩
        · exact client
    | addClient x rest =>
      rw [hp] at hk hn newcomer
      obtain rfl : x=fd := Option.some.inj newcomer
      rcases answerUnit_cases hk with ⟨rfl,added⟩|⟨e,rfl,rfl⟩
      · right; left
        cases hn
        split at added <;> cases added
        exact ⟨client,by simp [Kernel.watch,Kernel.register,Poll.add]⟩
      · left
        cases hn
        exact ⟨rfl,client⟩
    | reject x rest =>
      right; right
      rw [hp] at hk newcomer
      obtain rfl : x=fd := Option.some.inj newcomer
      refine ⟨by simp [visits,hp,client],?_⟩
      show (k.conns c).fd=none
      rw [(answerClose_cases hk).1,close_fd hw,if_pos (hw.connection.mp client)]
    | _ =>
      rw [hp] at newcomer
      cases newcomer

/-- Who connects waits in the backlog, and its stream is empty. -/
theorem connect_queued (hs : machine.step s (.env (.connect s.impl.serverFd))=some t) :
    Queued s.kernel.born t ∧ (t.kernel.conns s.kernel.born).pipe=.empty := by
  obtain ⟨k,hk,rfl⟩ := Option.map_eq_some_iff.mp hs
  simp only [env] at hk
  split at hk
  · rename_i f file
    cases hk
    exact ⟨⟨⟨f,file⟩,by simp [notify]⟩,by simp [notify,Conn.new]⟩
  · cases hk

/-- Only a reset breaks a stream. -/
theorem step_unbroken (hw : s.kernel.Wf) (nostop : a.isStop=false)
    (calm : ∀ n,a≠.env (.tear c n)) (hs : machine.step s a=some t) (born : c<s.kernel.born)
    (whole : (s.kernel.conns c).pipe.ending≠.broken) :
    (t.kernel.conns c).pipe.ending≠.broken := by
  obtain ⟨e,k,rfl,hk,rfl⟩|⟨r,rfl,hr⟩ := step_reactor hs nostop
  · exact env_unbroken e hk born (fun n tears => calm n (tears ▸ rfl)) whole
  · obtain ⟨k,i,pc,lines,hk,-,rfl⟩ := reactor_cases hr
    rcases answer_pipe hw hk c with same|⟨fd,count,bs,f,-,-,-,-,-,take⟩
    · exact same ▸ whole
    · exact (Pipe.take_spec _ _ _ take).2.2.2.2.1 ▸ whole

/-- A step that is an arrival on an unbroken stream brings the reader some more. -/
theorem arrive_arrives {n : Nat} (h : k.env (.arrive c n)=some k') :
    ((k.conns c).pipe.taken++(k.conns c).pipe.unread).length<
      ((k'.conns c).pipe.taken++(k'.conns c).pipe.unread).length := by
  simp only [env] at h
  split at h
  · rename_i fits
    obtain ⟨p,hp,rfl⟩ := Option.map_eq_some_iff.mp h
    obtain ⟨-,-,-,-,-,unread,taken⟩ := Pipe.arrive_spec _ _ _ hp
    simp [wake_conns,setPipe,setConn,unread,taken]
    omega
  · cases h

end steps

namespace FairRun

variable {port : Int} {options : TcpOptions} {loggerCb dataCb : Bool} {foreign : List Fd}
  {σ : Nat → State} {α : Nat → Action} {c : ConnId} {fd : Fd} {n : Nat}

theorem onward (run : FairRun port options loggerCb dataCb foreign σ α) (n : Nat) (c : ConnId) :
    (σ n).kernel.Onward (σ (n+1)).kernel c :=
  step_onward (run.attentive n).base (run.nostop n) (run.runs n) c

/-- What has been sent arrives, unless the stream breaks. -/
theorem arrival_leads (run : FairRun port options loggerCb dataCb foreign σ α)
    (arrives : Arrives σ α) (c : ConnId) (l : Nat) :
    LeadsTo σ (fun s => c<s.kernel.born ∧ l ≤ (s.kernel.conns c).pipe.sent.length)
      fun s => (s.kernel.conns c).pipe.ending=.broken ∨
        l ≤ ((s.kernel.conns c).pipe.taken++(s.kernel.conns c).pipe.unread).length := by
  let out (s : State) : Bytes := (s.kernel.conns c).pipe.taken++(s.kernel.conns c).pipe.unread
  let goal (s : State) : Prop := (s.kernel.conns c).pipe.ending=.broken ∨ l ≤ (out s).length
  intro n start
  by_cases done : goal (σ n)
  · exact ⟨n,le_rfl,done⟩
  have leads : LeadsTo σ (fun s => c<s.kernel.born ∧ l ≤ (s.kernel.conns c).pipe.sent.length ∧
      ¬goal s) goal := by
    apply run.runs.variant (fun s => l-(out s).length) (fun _ a => ∃ k,a=.env (.arrive c k))
    · intro n lasts
      refine arrives n c (lasts n le_rfl).1 fun p hp dry => ?_
      obtain ⟨-,sent,waits⟩ := lasts p hp
      obtain ⟨whole,short⟩ := not_or.mp waits
      have all := ((σ p).kernel.conns c).pipe.conserved whole
      rw [dry,List.append_nil] at all
      rw [← all] at sent
      exact short sent
    · intro p t ⟨born,sent,waits⟩ ht
      have onward := step_onward (run.attentive p).base (run.nostop p) ht c
      by_cases reached : goal t
      · exact .inl reached
      · right
        have grown := (onward.arrived born fun torn => reached (.inl torn)).length_le
        refine ⟨⟨onward.born born,sent.trans onward.grows.sent.length_le,reached⟩,?_,?_⟩
        · exact Nat.sub_le_sub_left grown l
        · rintro ⟨k,arrival⟩
          rw [arrival] at ht
          obtain ⟨m,hm,rfl⟩ := Option.map_eq_some_iff.mp ht
          have more : (out (σ p)).length<(out { σ p with kernel := m }).length := arrive_arrives hm
          have below := Nat.lt_of_not_le fun all => reached (.inr all)
          exact Nat.sub_lt_sub_left (more.trans below) more
  exact leads n ⟨start.1,start.2,done⟩

/-- Whoever joins is hooked in or turned away within the batch. -/
theorem joining_leads (run : FairRun port options loggerCb dataCb foreign σ α)
    (joining : Joining c fd (σ n)) : ∃ m≥n,Hooked c fd (σ m) ∨
      .turnAway c∈visits (σ m) (α m) ∧ ((σ (m+1)).kernel.conns c).fd=none := by
  have inside : (σ n).pc.inBatch=true := by
    have newcomer := joining.newcomer
    cases hp : (σ n).pc with
    | getFl x caller | setFl x flags caller =>
      rw [hp] at newcomer
      cases caller with
      | setup => cases newcomer
      | client rest => rfl
    | addClient | reject => rfl
    | _ =>
      rw [hp] at newcomer
      cases newcomer
  obtain ⟨p,hp,head⟩ := run.batch_ends n inside
  obtain ⟨q,hq,-,there,gone⟩ := ends_before (P := fun p => Joining c fd (σ p)) hp joining (by
    rintro ⟨newcomer,-⟩
    rw [head] at newcomer
    cases newcomer)
  rcases there.step (run.attentive q).base.owned.wf (run.nostop q) (run.runs q) with
    stays|hooked|away
  · exact absurd stays gone
  · exact ⟨q+1,Nat.le_succ_of_le hq,.inl hooked⟩
  · exact ⟨q,hq,.inr away⟩

/-- Whoever waits in the backlog is accepted, unless `accept` keeps failing. -/
theorem queue_leads (run : FairRun port options loggerCb dataCb foreign σ α)
    (queued : Queued c (σ n)) :
    (∃ m≥n,∃ fd,α m=.reactor (.conn fd c) ∧ Joining c fd (σ (m+1))) ∨
      ∀ p,∃ m≥p,Refused (σ m) (α m) := by
  by_cases accepted : ∃ m≥n,∃ fd,α m=.reactor (.conn fd c)
  · obtain ⟨m,hm,fd,reply⟩ := accepted
    have step := run.runs m
    rw [reply] at step
    exact .inl ⟨m,hm,fd,reply,accepted_joins step⟩
  · right
    have lasts := run.queued_lasts queued accepted
    intro p
    obtain ⟨m,hm,refused⟩ := run.backlog_leads (n := max n p) fun q hq =>
      lasts q ((le_max_left n p).trans hq)
    exact ⟨m,(le_max_right n p).trans hm,refused⟩

/-- Every connection in the backlog is accepted, and then hooked in, or turned away and closed,
unless `accept` keeps failing. -/
theorem waiting_accepted (run : FairRun port options loggerCb dataCb foreign σ α)
    (queued : Queued c (σ n)) :
    (∃ m≥n,∃ fd,α m=.reactor (.conn fd c) ∧ ∃ p>m,Hooked c fd (σ p) ∨
      .turnAway c∈visits (σ p) (α p) ∧ ((σ (p+1)).kernel.conns c).fd=none) ∨
    ∀ p,∃ m≥p,Refused (σ m) (α m) := by
  refine (run.queue_leads queued).imp_left fun ⟨m,hm,fd,reply,joining⟩ => ?_
  obtain ⟨p,hp,decided⟩ := run.joining_leads joining
  exact ⟨m,hm,fd,reply,p,hp,decided⟩

section hearsOne

/-- The client waits in the backlog. -/
theorem hearsOne_queued {σ : Nat → State} (states : ∀ n,machine.run (.boot 8080 {} false true [])
    ((hearsOne++[Action.reactor .ok]).take n)=some (σ n)) : Queued 0 (σ 12) := by
  obtain ⟨file,waiting⟩ := Prod.mk.injEq .. ▸ hearsOne_state states
    (fun s => (s.kernel.table s.impl.serverFd,s.kernel.backlog s.impl.serverFd)) 12
    (b := (some (.listener (2 ||| oNonblock)),[0])) (by decide +kernel)
  exact ⟨⟨2 ||| oNonblock,file⟩,by simp [waiting]⟩

/-- In the end nothing is under way. -/
theorem hearsOne_rests {σ : Nat → State} (states : ∀ n,machine.run (.boot 8080 {} false true [])
    ((hearsOne++[Action.reactor .ok]).take n)=some (σ n)) {p : Nat} (hp : p≥38) :
    ∀ c<(σ p).kernel.born,((σ p).kernel.conns c).pipe.flight=[] := by
  have whole : (hearsOne++[Action.reactor .ok]).take p=(hearsOne++[Action.reactor .ok]).take 38 :=
    (List.take_of_length_le hp).trans (List.take_of_length_le (by decide)).symm
  have same : σ p=σ 38 := Option.some.inj ((states p).symm.trans (whole ▸ states 38))
  obtain ⟨born,dry⟩ := Prod.mk.injEq .. ▸ hearsOne_state states
    (fun s => (s.kernel.born,(s.kernel.conns 0).pipe.flight)) 38 (b := (1,[])) (by decide +kernel)
  intro c hc
  rw [same] at hc ⊢
  obtain rfl : c=0 := Nat.lt_one_iff.mp (born ▸ hc)
  exact dry

end hearsOne

theorem waiting_accepted_hears_one : ∃ σ α,FairRun 8080 {} false true [] σ α ∧ Queued 0 (σ 12) ∧
    ((∃ m≥12,∃ fd,α m=.reactor (.conn fd 0) ∧ ∃ p>m,Hooked 0 fd (σ p) ∨
      .turnAway 0∈visits (σ p) (α p) ∧ ((σ (p+1)).kernel.conns 0).fd=none) ∨
    ∀ p,∃ m≥p,Refused (σ m) (α m)) := by
  obtain ⟨σ,α,run,states⟩ := hearsOne_fair
  have queued := hearsOne_queued states
  exact ⟨σ,α,run,queued,run.waiting_accepted queued⟩

/-- Whoever has been hooked in still is, or was closed for a reason. -/
theorem hooked_parts (run : FairRun port options loggerCb true foreign σ α)
    (hb : 1 ≤ options.networkBufferSize) (hooked : Hooked c fd (σ n)) :
    ∀ p≥n,Hooked c fd (σ p) ∨ sawEnd c (σ p).trace=true ∨ sawError c (σ p).trace=true := by
  intro p hp
  induction p,hp using Nat.le_induction with
  | base => exact .inl hooked
  | succ p hp ih =>
    have grown := run.suffix (Nat.le_succ p)
    rcases ih with there|ended|failed
    · refine (there.step (run.attentive p) (run.going p) (run.nostop p) (run.runs p)).imp_right
        fun leaving => ?_
      exact ((run.faithful hb p).2 fd c leaving there.client).imp (sawEnd_suffix grown)
        (sawError_suffix grown)
    · exact .inr (.inl (sawEnd_suffix grown ended))
    · exact .inr (.inr (sawError_suffix grown failed))

theorem sent_grows (run : FairRun port options loggerCb dataCb foreign σ α) (c : ConnId) {p : Nat}
    (hp : n ≤ p) : ((σ n).kernel.conns c).pipe.sent<+:((σ p).kernel.conns c).pipe.sent :=
  run.runs.keeps (n := n)
    (I := fun s => ((σ n).kernel.conns c).pipe.sent<+:(s.kernel.conns c).pipe.sent)
    (fun p _ h ht => h.trans (step_onward (run.attentive p).base (run.nostop p) ht c).grows.sent)
    (List.prefix_refl _) p hp

/-- What has arrived at a client that has been hooked in is handed to the data callback, even if
the client has been closed in between, or else a read fails. -/
theorem arrived_leads (run : FairRun port options loggerCb true foreign σ α)
    (hb : 1 ≤ options.networkBufferSize) (hooked : Hooked c fd (σ n)) {q : Nat} (hq : n ≤ q)
    {l : Bytes} (sent : l<+:((σ q).kernel.conns c).pipe.sent)
    (here : l.length ≤ (((σ q).kernel.conns c).pipe.taken++
      ((σ q).kernel.conns c).pipe.unread).length) :
    ∃ m≥q,l<+:(payloads c (σ m).trace).flatten ∨ sawError c (σ m).trace=true := by
  have taken {m : Nat} (hm : m≥q) (all : l.length ≤ ((σ m).kernel.conns c).pipe.taken.length) :
      ∃ m≥q,l<+:(payloads c (σ m).trace).flatten ∨ sawError c (σ m).trace=true := by
    obtain ⟨x,hx,given⟩ := run.sent_given hb sent hm all
    exact ⟨x,hm.trans hx,.inl given⟩
  have arrived := here.trans (Pipe.arrived_prefix _).length_le
  rcases run.hooked_parts hb hooked q hq with there|ended|failed
  · by_cases all : l.length ≤ ((σ q).kernel.conns c).pipe.taken.length
    · exact taken le_rfl all
    · rw [List.length_append] at here
      obtain ⟨m,hm,paid|failed⟩ := run.debt_paid hb there (k := l.length)
        ⟨Nat.lt_of_not_le all,arrived,.inr here⟩
      · exact taken hm paid
      · exact ⟨m,hm,.inr failed⟩
  · have complete := ((run.faithful hb q).1.ended c ended).1.2
    exact taken le_rfl (by rw [complete]; exact arrived)
  · exact ⟨q,le_rfl,.inr failed⟩

/-- Whatever the peer of a client that is hooked in some time sends is handed to the data callback,
or else the stream breaks or a read fails. -/
theorem sent_leads (run : FairRun port options loggerCb true foreign σ α)
    (hb : 1 ≤ options.networkBufferSize) (arrives : Arrives σ α) (hooked : Hooked c fd (σ n))
    (p : Nat) : ∃ m≥p,((σ m).kernel.conns c).pipe.ending=.broken ∨
      ((σ p).kernel.conns c).pipe.sent<+:(payloads c (σ m).trace).flatten ∨
      sawError c (σ m).trace=true := by
  have born := run.runs.keeps (n := n) (I := fun s => c<s.kernel.born)
    (fun p t h ht => (step_onward (run.attentive p).base (run.nostop p) ht c).born h)
    (hooked.born (run.attentive n).base.owned.wf) (max n p) (le_max_left n p)
  have sent := run.sent_grows c (le_max_right n p)
  obtain ⟨q,hq,torn|here⟩ := run.arrival_leads arrives c _ (max n p) ⟨born,sent.length_le⟩
  · exact ⟨q,(le_max_right n p).trans hq,.inl torn⟩
  · obtain ⟨m,hm,given⟩ := run.arrived_leads hb hooked ((le_max_left n p).trans hq)
      (sent.trans (run.sent_grows c hq)) here
    exact ⟨m,((le_max_right n p).trans hq).trans hm,.inr given⟩

/-- Whoever waits in the backlog is hooked in or turned away, unless `accept` keeps failing. -/
theorem decided_leads (run : FairRun port options loggerCb dataCb foreign σ α)
    (queued : Queued c (σ n)) : (∃ m≥n,∃ fd,Hooked c fd (σ m)) ∨
      (∃ m≥n,.turnAway c∈visits (σ m) (α m)) ∨ ∀ p,∃ m≥p,Refused (σ m) (α m) := by
  rcases run.queue_leads queued with ⟨m,hm,fd,-,joining⟩|refused
  · obtain ⟨p,hp,hooked|⟨away,-⟩⟩ := run.joining_leads joining
    · exact .inl ⟨p,hm.trans ((Nat.le_succ m).trans hp),fd,hooked⟩
    · exact .inr (.inl ⟨p,hm.trans ((Nat.le_succ m).trans hp),away⟩)
  · exact .inr (.inr refused)

/-- Whatever the peer of a connection ever sends, from the backlog on, is handed to the data
callback, unless the stream breaks, a read on it fails, or the server turns the connection away or
cannot accept any. -/
theorem sent_delivered (run : FairRun port options loggerCb true foreign σ α)
    (hb : 1 ≤ options.networkBufferSize) (arrives : Arrives σ α) (queued : Queued c (σ n))
    {p : Nat} (hp : n ≤ p) :
    (∃ m≥p,((σ p).kernel.conns c).pipe.sent<+:(payloads c (σ m).trace).flatten) ∨
    (∃ m≥n,((σ m).kernel.conns c).pipe.ending=.broken ∨ sawError c (σ m).trace=true ∨
      .turnAway c∈visits (σ m) (α m)) ∨
    ∀ q,∃ m≥q,Refused (σ m) (α m) := by
  rcases run.decided_leads queued with ⟨q,hq,fd,hooked⟩|⟨m,hm,away⟩|refused
  · obtain ⟨m,hm,torn|given|failed⟩ := run.sent_leads hb arrives hooked p
    · exact .inr (.inl ⟨m,hp.trans hm,.inl torn⟩)
    · exact .inl ⟨m,hm,given⟩
    · exact .inr (.inl ⟨m,hp.trans hm,.inr (.inl failed)⟩)
  · exact .inr (.inl ⟨m,hm,.inr (.inr away)⟩)
  · exact .inr (.inr refused)

/-- A run that comes to rest with nothing under way owes its readers nothing. -/
theorem arrives_of_rest (run : FairRun port options loggerCb dataCb foreign σ α) {m : Nat}
    (rests : ∀ p≥m,∀ c<(σ p).kernel.born,((σ p).kernel.conns c).pipe.flight=[]) : Arrives σ α := by
  intro n c born flight
  have late := le_max_left n m
  have still := run.runs.keeps (n := n) (I := fun s => c<s.kernel.born)
    (fun p t h ht => (step_onward (run.attentive p).base (run.nostop p) ht c).born h) born
  exact absurd (rests _ (le_max_right n m) c (still _ late)) (flight _ late)

theorem sent_delivered_hears_one : ∃ σ α,FairRun 8080 {} false true [] σ α ∧ Arrives σ α ∧
    Queued 0 (σ 12) ∧ ((∃ m≥24,[65]<+:(payloads 0 (σ m).trace).flatten) ∨
    (∃ m≥12,((σ m).kernel.conns 0).pipe.ending=.broken ∨ sawError 0 (σ m).trace=true ∨
      .turnAway 0∈visits (σ m) (α m)) ∨
    ∀ q,∃ m≥q,Refused (σ m) (α m)) := by
  obtain ⟨σ,α,run,states⟩ := hearsOne_fair
  have queued := hearsOne_queued states
  have arrives := run.arrives_of_rest fun p hp => hearsOne_rests states hp
  have sent := hearsOne_state states (fun s => (s.kernel.conns 0).pipe.sent) 24 (b := [65])
    (by decide +kernel)
  have delivered := run.sent_delivered (by decide) arrives queued (p := 24) (by decide)
  rw [sent] at delivered
  exact ⟨σ,α,run,arrives,queued,delivered⟩

end FairRun

end TuyulNet.Server
