import TuyulNet.Link.Network
import TuyulNet.Server.Delivery

namespace TuyulNet.Link.Network

open Framework Kernel

variable {ι : Type*} [DecidableEq ι]

/-- In a step of its client connection `near` accepts something or is closed. -/
def stirs (c d : Client.State) (near : ConnId) : Bool :=
  news c d near≠[] || (c.kernel.conns near).fd≠none && (d.kernel.conns near).fd=none

/-- What the server's host feels of a step of client `i`. -/
def felt (i : ι) (c d : Client.State) (channels : List (ι × Channel)) : Env :=
  match channels.find? fun x => x.1=i && stirs c d x.2.near with
  | some x =>
    if news c d x.2.near=[] then .shut x.2.far else .send x.2.far (news c d x.2.near)
  | none => .prune 0 (-1)

/-- What a step of the network is for the server. -/
def shadow (s : State ι) : Action ι → Server.Action
  | .dial _ => .env (.connect s.server.impl.serverFd)
  | .client i a => .env ((Client.step (s.clients i) a).elim (.prune 0 (-1)) fun d =>
      felt i (s.clients i) d s.channels)
  | .server r => .reactor r
  | .network e => .env e

/-- All connections, under the clients' names for them. -/
def nears (channels : List (ι × Channel)) : List (ι × ConnId) :=
  channels.map fun x => (x.1,x.2.near)

/-- If a connection is stirred, it is `o`, and in one way only. -/
structure Single (c d : Client.State) (o : Option ConnId) (near : ConnId) : Prop where
  way : news c d near=[] ∨ (d.kernel.conns near).fd=(c.kernel.conns near).fd
  other : some near≠o → stirs c d near=false

section clients

variable {c d : Client.State} {near : ConnId}

theorem still_of_same (out : (d.kernel.conns near).out=(c.kernel.conns near).out)
    (fd : (d.kernel.conns near).fd=(c.kernel.conns near).fd) : stirs c d near=false := by
  simp [stirs,news,out,fd]

theorem call_single (hw : c.kernel.Wf) {call : Call} {r : Reply} (ha : ∀ l,call≠.accept l)
    (hk : c.kernel.answer call r=some d.kernel) :
    ∃ o,∀ near<c.kernel.born,Single c d o near := by
  obtain ⟨o,one⟩ := answer_stirs hw ha hk
  refine ⟨o,fun near hn => ⟨(one near hn).1.imp_left fun out => by simp [news,out],?_⟩⟩
  exact fun other => still_of_same ((one near hn).2 other).1 ((one near hn).2 other).2

/-- In one step at most one connection of a client is stirred. -/
theorem step_single {a : Client.Action} (h : Client.Sound c) (hs : Client.step c a=some d) :
    ∃ o,∀ near<c.kernel.born,Single c d o near := by
  have calm (out : ∀ near<c.kernel.born,(d.kernel.conns near).out=(c.kernel.conns near).out)
      (fd : ∀ near,(d.kernel.conns near).fd=(c.kernel.conns near).fd) :
      ∃ o,∀ near<c.kernel.born,Single c d o near :=
    ⟨none,fun near hn => ⟨.inr (fd near),fun _ => still_of_same (out near hn) (fd near)⟩⟩
  obtain ⟨-,⟨q,last,rfl,ha,rfl⟩|⟨r,rfl,ht⟩|⟨r,rfl,ht⟩|⟨b,rest,rfl,hw,rfl⟩|⟨e,k,rfl,hk,rfl⟩⟩ :=
    Client.step_cases hs
  · exact calm (fun _ _ => rfl) fun _ => rfl
  · obtain ⟨-,k,i,app,lines,hk,-,rfl⟩ := Client.appStep_cases ht
    exact call_single h.wf (Client.app_call _ _) hk
  · obtain ⟨k,i,worker,lines,hk,-,rfl⟩ := Client.workerStep_cases ht
    exact call_single h.wf (Client.worker_dials _ _).1 hk
  · exact calm (fun _ _ => rfl) fun _ => rfl
  · exact calm (fun near hn => (env_out e hn hk).2) fun near => (env_pipe h.wf e hk near).2.2

/-- The step in which a client gets a connection stirs no other. -/
theorem connect_still {res : Nat} (ha : c.app=.connect res)
    (hs : Client.step c (.app .ok)=some d) (hn : near<c.kernel.born) :
    stirs c d near=false := by
  obtain ⟨-,k,i,app,lines,hk,-,rfl⟩ := Client.appStep_cases (Client.appStep_of_step hs)
  rw [ha] at hk
  rcases connect_cases hk with ⟨-,f,-,rfl⟩|⟨e,he,-⟩
  · simp [stirs,news,hn.ne]
  · cases he

end clients

section relays

variable {capacity : Nat} {i : ι} {c d : Client.State} {k l : Kernel}

/-- The bytes go over, and then the end of the stream. -/
theorem relay_parts {ch : Channel} (h : ch.relay capacity c d k=some l) :
    ∃ m,transmit capacity k ch.far (news c d ch.near)=some m ∧
      hangUp m ch.far (c.kernel.conns ch.near).fd (d.kernel.conns ch.near).fd=some l := by
  unfold Channel.relay at h
  simp only at h
  split at h
  · cases h
  · exact Option.bind_eq_some_iff.mp h

/-- An end that is not stirred leaves the other one alone. -/
theorem relay_still {ch : Channel} (still : stirs c d ch.near=false)
    (h : ch.relay capacity c d k=some l) : l=k := by
  obtain ⟨nothing,stays⟩ : news c d ch.near=[] ∧
      ((c.kernel.conns ch.near).fd≠none → (d.kernel.conns ch.near).fd≠none) := by
    simpa [stirs] using still
  obtain ⟨m,hm,hl⟩ := relay_parts h
  rw [nothing] at hm
  cases hm
  rw [hangUp,if_neg fun lost => stays lost.1 lost.2] at hl
  exact (Option.some.inj hl).symm

/-- An end that is stirred sends something, or it is closed. -/
theorem relay_stirred {ch : Channel} (stirred : stirs c d ch.near=true)
    (one : news c d ch.near=[] ∨ (d.kernel.conns ch.near).fd=(c.kernel.conns ch.near).fd)
    (h : ch.relay capacity c d k=some l) :
    k.env (if news c d ch.near=[] then .shut ch.far else .send ch.far (news c d ch.near))=
      some l := by
  obtain ⟨m,hm,hl⟩ := relay_parts h
  by_cases nothing : news c d ch.near=[]
  · have lost : (c.kernel.conns ch.near).fd≠none ∧ (d.kernel.conns ch.near).fd=none := by
      simpa [stirs,nothing] using stirred
    rw [nothing] at hm
    cases hm
    rw [hangUp,if_pos lost] at hl
    rw [if_pos nothing]
    exact hl
  · have same := one.resolve_left nothing
    rw [hangUp,same,if_neg fun lost => lost.1 lost.2] at hl
    cases hl
    rw [if_neg nothing]
    exact (transmit_cases hm).resolve_left fun empty => nothing empty.1

theorem relays_still {channels : List (ι × Channel)}
    (still : ∀ x∈channels,x.1=i → stirs c d x.2.near=false)
    (h : relays capacity i c d channels k=some l) : l=k := by
  induction channels generalizing k with
  | nil => exact (Option.some.inj h).symm
  | cons x channels ih =>
    have rest := fun y hy => still y (List.mem_cons_of_mem x hy)
    unfold relays at h
    split at h
    · rename_i own
      obtain ⟨m,hm,hr⟩ := Option.bind_eq_some_iff.mp h
      obtain rfl := relay_still (still x List.mem_cons_self own) hm
      exact ih rest hr
    · exact ih rest h

/-- A step of a client is felt by the server's host as one event, or not at all. -/
theorem relays_felt (hw : k.Wf) {channels : List (ι × Channel)} (distinct : (nears channels).Nodup)
    {o : Option ConnId} (one : ∀ x∈channels,x.1=i → Single c d o x.2.near)
    (h : relays capacity i c d channels k=some l) : k.env (felt i c d channels)=some l := by
  induction channels generalizing k with
  | nil =>
    cases h
    exact env_idle hw
  | cons x channels ih =>
    obtain ⟨alone,distinct⟩ := List.nodup_cons.mp distinct
    have rest := fun y hy => one y (List.mem_cons_of_mem x hy)
    unfold relays at h
    by_cases own : x.1=i
    · rw [if_pos own] at h
      obtain ⟨m,hm,hr⟩ := Option.bind_eq_some_iff.mp h
      cases stirred : stirs c d x.2.near with
      | true =>
        have felt : felt i c d (x::channels)=
            if news c d x.2.near=[] then .shut x.2.far else .send x.2.far (news c d x.2.near) := by
          simp [felt,own,stirred]
        -- nobody else is
        have others (y : ι × Channel) (hy : y∈channels) (mine : y.1=i) :
            stirs c d y.2.near=false := by
          refine (rest y hy mine).other fun same => alone (List.mem_map.mpr ⟨y,hy,?_⟩)
          have here : some x.2.near=o := by
            by_contra other
            rw [(one x List.mem_cons_self own).other other] at stirred
            cases stirred
          exact Prod.ext (mine.trans own.symm) (Option.some.inj (same.trans here.symm))
        obtain rfl := relays_still others hr
        rw [felt]
        exact relay_stirred stirred (one x List.mem_cons_self own).way hm
      | false =>
        obtain rfl := relay_still stirred hm
        have felt : felt i c d (x::channels)=felt i c d channels := by
          simp [felt,stirred]
        rw [felt]
        exact ih hw distinct rest hr
    · rw [if_neg own] at h
      have felt : felt i c d (x::channels)=felt i c d channels := by
        simp [felt,own]
      rw [felt]
      exact ih hw distinct rest h

end relays

section steps

variable {capacity : Nat} {options : TcpOptions} {s t : State ι} {a : Action ι}

/-- In addition no client has two connections of one name. -/
structure Named (options : TcpOptions) (s : State ι) : Prop where
  linked : Linked options s
  nears : (nears s.channels).Nodup

theorem nears_follow {i : ι} {c : Client.State} {b : Client.Action} (l : List (ι × Channel)) :
    nears (l.map (follow i c b))=nears l := by
  unfold nears
  rw [List.map_map]
  exact List.map_congr_left fun x _ => Prod.ext (follow_name x).1 (follow_name x).2.1

/-- A connection of a client that is being made leaves everything else as it is. -/
theorem dial_shadow {i : ι} {u : State ι} {res : Nat} (h : Linked options s)
    (ha : (s.clients i).app=.connect res)
    (hu : s.clientStep capacity i (.app .ok)=some u) : u.server=s.server := by
  obtain ⟨client,k,hstep,hr,rfl⟩ := clientStep_cases hu
  have same : k=s.server.kernel := relays_still (fun x hx own => by
    obtain ⟨j,ch⟩ := x
    obtain rfl : j=i := own
    exact connect_still ha hstep (h.channel (j,ch) hx).balanced.born) hr
  rw [same]

/-- What the network does the server's host does, at once or not at all. -/
theorem step_shadow (h : Named options s) (hs : (machine ι capacity).step s a=some t) :
    Server.machine.step s.server (shadow s a)=some t.server := by
  obtain ⟨linked,names⟩ := h
  have env {e : Env} {k : Kernel} (hk : s.server.kernel.env e=some k) :
      Server.machine.step s.server (.env e)=some { s.server with kernel := k } := by
    simp [Server.step,hk]
  cases a with
  | dial i =>
    obtain ⟨res,u,k,ha,hu,hk,rfl⟩ := dial_cases hs
    have same := dial_shadow linked ha hu
    rw [same] at hk ⊢
    exact env hk
  | client i b =>
    obtain ⟨client,k,hstep,hr,rfl⟩ := clientStep_cases hs
    obtain ⟨o,one⟩ := step_single (linked.client i) hstep
    have heard := relays_felt linked.server.base.owned.wf names (fun x hx own => one x.2.near (by
      obtain ⟨j,ch⟩ := x
      obtain rfl : j=i := own
      exact (linked.channel (j,ch) hx).balanced.born)) hr
    simp only [shadow,hstep,Option.elim]
    exact env heard
  | server r =>
    obtain ⟨v,hv,rfl⟩ := Option.map_eq_some_iff.mp hs
    exact hv
  | network e =>
    have hs : (if (s.channels.any fun x => disturbs x.2.far e)=true then none else _)=_ := hs
    split at hs
    · cases hs
    · obtain ⟨k,hk,rfl⟩ := Option.map_eq_some_iff.mp hs
      exact env hk

/-- The connections after a step, and the new one, if there is one. -/
theorem step_ends (h : Linked options s) (hs : (machine ι capacity).step s a=some t) :
    fars t.channels=fars s.channels ∧ nears t.channels=nears s.channels ∨
    ∃ i,a=.dial i ∧ fars t.channels=s.server.kernel.born::fars s.channels ∧
      nears t.channels=(i,(s.clients i).kernel.born)::nears s.channels := by
  cases a with
  | dial i =>
    obtain ⟨res,u,k,ha,hu,hk,rfl⟩ := dial_cases hs
    have same := dial_shadow h ha hu
    obtain ⟨client,l,-,-,rfl⟩ := clientStep_cases hu
    refine .inr ⟨i,rfl,?_,?_⟩
    · exact congrArg₂ List.cons (congrArg (fun v => v.kernel.born) same) (fars_follow s.channels)
    · exact congrArg (List.cons _) (nears_follow s.channels)
  | client i b =>
    obtain ⟨client,l,-,-,rfl⟩ := clientStep_cases hs
    exact .inl ⟨fars_follow s.channels,nears_follow s.channels⟩
  | server r =>
    obtain ⟨v,-,rfl⟩ := Option.map_eq_some_iff.mp hs
    exact .inl ⟨rfl,rfl⟩
  | network e =>
    have hs : (if (s.channels.any fun x => disturbs x.2.far e)=true then none else _)=_ := hs
    split at hs
    · cases hs
    · obtain ⟨k,-,rfl⟩ := Option.map_eq_some_iff.mp hs
      exact .inl ⟨rfl,rfl⟩

theorem step_named (ho : 0<options.bufferSize) (h : Named options s) (hc : OneThread s a)
    (hs : (machine ι capacity).step s a=some t) : Named options t := by
  obtain ⟨linked,names⟩ := h
  refine ⟨step_linked ho s a t linked hc hs,?_⟩
  rcases step_ends linked hs with ⟨-,same⟩|⟨i,-,-,more⟩
  · exact same ▸ names
  · rw [more]
    refine List.nodup_cons.mpr ⟨fun old => ?_,names⟩
    obtain ⟨⟨j,ch⟩,hx,same⟩ := List.mem_map.mp old
    obtain ⟨rfl,near⟩ := Prod.mk.inj same
    have born := (linked.channel (j,ch) hx).balanced.born
    exact absurd born (near ▸ lt_irrefl _)

theorem felt_tear (i : ι) (c d : Client.State) (channels : List (ι × Channel)) (far : ConnId)
    (n : Nat) : felt i c d channels≠.tear far n := by
  unfold felt
  split
  · split <;> simp
  · simp

/-- The network tears none of the connections. -/
theorem shadow_tear (hs : (machine ι capacity).step s a=some t) {x : ι × Channel}
    (hx : x∈s.channels) (n : Nat) : shadow s a≠.env (.tear x.2.far n) := by
  intro tears
  cases a with
  | dial i => cases tears
  | client i b =>
    obtain ⟨client,k,hstep,-,-⟩ := clientStep_cases hs
    simp only [shadow,hstep,Option.elim] at tears
    exact felt_tear _ _ _ _ _ _ (Server.Action.env.inj tears)
  | server r => cases tears
  | network e =>
    have hs : (if (s.channels.any fun x => disturbs x.2.far e)=true then none else _)=_ := hs
    split at hs
    · cases hs
    · rename_i calm
      cases tears
      exact calm (List.any_eq_true.mpr ⟨x,hx,by simp [disturbs]⟩)

theorem idle_step (h : Linked options s) :
    (machine ι capacity).step s (.network (.prune 0 (-1)))=some s := by
  simp [machine,step,disturbs,env_idle h.server.base.owned.wf]

end steps

/-- An infinite run of the network in which nobody calls `stop()`, each client is driven by one
thread, and the server is treated fairly. -/
structure FairRun (capacity : Nat) (start : State ι) (σ : Nat → State ι) (α : Nat → Action ι) :
    Prop where
  runs : (machine ι capacity).Runs σ α
  start : σ 0=start
  one : ∀ n,OneThread (σ n) (α n)
  fair : Server.Fair (fun n => (σ n).server) fun n => shadow (σ n) (α n)

namespace FairRun

section runs

variable {capacity : Nat} {port : Int} {options : TcpOptions} {logger : Bool} {foreign : List Fd}
  {clientOptions : ι → TcpOptions} {clientLogger clientData pipeSignal : ι → Bool}
  {clientForeign : ι → List Fd} {σ : Nat → State ι} {α : Nat → Action ι}
  (run : FairRun capacity (booted port options logger foreign clientOptions clientLogger
    clientData pipeSignal clientForeign) σ α) (hb : 1 ≤ options.networkBufferSize)

include run hb

theorem named (n : Nat) : Named options (σ n) := by
  have ho : 0<options.bufferSize := by
    unfold TcpOptions.bufferSize
    omega
  have booted : Named options (σ 0) := by
    rw [run.start]
    exact ⟨boot_linked port options logger foreign clientOptions clientLogger clientData pipeSignal
      clientForeign,List.nodup_nil⟩
  exact run.runs.keeps (I := Named options) (fun p _ h ht => step_named ho h (run.one p) ht)
    booted n n.zero_le

/-- The server's part of the run. -/
theorem server : Server.FairRun port options logger true foreign (fun n => (σ n).server)
    fun n => shadow (σ n) (α n) where
  runs := fun n => step_shadow (run.named hb n) (run.runs n)
  start := by simp only [run.start,booted,State.boot]
  nostop := fun n => by cases α n <;> rfl
  fair := run.fair

/-- Every connection has once been waiting in the backlog, and none is torn. -/
theorem joined (n : Nat) : ∀ far∈fars (σ n).channels,
      ((σ n).server.kernel.conns far).pipe.ending≠.broken ∧
      ∃ p,Server.Queued far (σ p).server := by
  induction n with
  | zero =>
    rw [run.start]
    simp [booted,State.boot,fars]
  | succ n ih =>
    have named := run.named hb n
    have step := step_shadow named (run.runs n)
    have old (far : ConnId) (hm : far∈fars (σ n).channels) :
        ((σ (n+1)).server.kernel.conns far).pipe.ending≠.broken ∧
        ∃ p,Server.Queued far (σ p).server := by
      obtain ⟨whole,queued⟩ := ih far hm
      obtain ⟨x,hx,rfl⟩ := List.mem_map.mp hm
      exact ⟨Server.step_unbroken named.linked.server.base.owned.wf ((run.server hb).nostop n)
        (shadow_tear (run.runs n) hx) step (named.linked.channel x hx).born whole,queued⟩
    intro far hm
    rcases step_ends named.linked (run.runs n) with ⟨same,-⟩|⟨i,dials,more,-⟩
    · exact old far (same ▸ hm)
    · rw [more] at hm
      rcases List.mem_cons.mp hm with rfl|hm
      · rw [dials] at step
        obtain ⟨queued,empty⟩ := Server.connect_queued step
        exact ⟨by simp [empty,Pipe.empty],n+1,queued⟩
      · exact old far hm

/-- A connection stays on record. -/
theorem stays {far : ConnId} {n : Nat} (hm : far∈fars (σ n).channels) :
    ∀ p≥n,far∈fars (σ p).channels := by
  intro p hp
  induction p,hp using Nat.le_induction with
  | base => exact hm
  | succ p hp ih =>
    rcases step_ends (run.named hb p).linked (run.runs p) with ⟨same,-⟩|⟨i,-,more,-⟩
    · exact same ▸ ih
    · rw [more]
      exact List.mem_cons_of_mem _ ih

/-- What a client's `write` has accepted on a connection gets to the data callback of the server,
unless the server fails to read it, turns the connection away or cannot accept any. If no
`send_data` on the connection has returned an error or is in progress, this is all that has been
given to `send_data`. -/
theorem all_delivered
    (arrives : Server.Arrives (fun n => (σ n).server) fun n => shadow (σ n) (α n))
    {n : Nat} {i : ι} {ch : Channel} (there : (i,ch)∈(σ n).channels) :
    (∃ m≥n,(((σ n).clients i).kernel.conns ch.near).out<+:
        (Server.payloads ch.far (σ m).server.trace).flatten ∧
      (ch.account.refused=false → ((σ n).clients i).sending=none →
        ch.account.given<+:(Server.payloads ch.far (σ m).server.trace).flatten)) ∨
    (∃ m,Server.sawError ch.far (σ m).server.trace=true ∨
      .turnAway ch.far∈Server.visits (σ m).server (shadow (σ m) (α m))) ∨
    ∀ q,∃ m≥q,Server.Refused (σ m).server (shadow (σ m) (α m)) := by
  have known : ch.far∈fars (σ n).channels := List.mem_map.mpr ⟨(i,ch),there,rfl⟩
  obtain ⟨-,p,queued⟩ := run.joined hb n ch.far known
  have mirrors := (run.named hb n).linked.channel (i,ch) there
  have sent : ((σ n).server.kernel.conns ch.far).pipe.sent=
      (((σ n).clients i).kernel.conns ch.near).out := mirrors.sent
  rcases (run.server hb).decided_leads queued with ⟨q,hq,fd,hooked⟩|⟨m,-,away⟩|refused
  · obtain ⟨m,hm,torn|delivered|failed⟩ := (run.server hb).sent_leads hb arrives hooked n
    · -- the network tears nothing
      have recorded := run.stays hb known m hm
      exact absurd torn (run.joined hb m ch.far recorded).1
    · have delivered : (((σ n).clients i).kernel.conns ch.near).out<+:
          (Server.payloads ch.far (σ m).server.trace).flatten := sent ▸ delivered
      refine .inl ⟨m,hm,delivered,fun fine silent => ?_⟩
      have whole : ch.account.given=(((σ n).clients i).kernel.conns ch.near).out++
          if ((σ n).clients i).holds ch.near then ((σ n).clients i).remaining else [] :=
        mirrors.balanced.whole fine
      have idle : ((σ n).clients i).remaining=[] := by simp [Client.State.remaining,silent]
      have given : ch.account.given=(((σ n).clients i).kernel.conns ch.near).out := by
        simpa [idle] using whole
      exact given ▸ delivered
    · exact .inr (.inl ⟨m,.inl failed⟩)
  · exact .inr (.inl ⟨m,.inr away⟩)
  · exact .inr (.inr refused)

end runs

/-- Two clients with default options, and a server. -/
def twoClients : State Bool :=
  booted 8080 {} false [] (fun _ => {}) (fun _ => false) (fun _ => true) (fun _ => true) fun _ => []

/-- `exchange`, until the server waits for the next event. -/
def served : List (Action Bool) :=
  exchange++[.server .ok,.server .ok,.server .ok,.server .ok,.network (.prune 4 3),.server .ok]

theorem served_fair : ∃ σ α,FairRun 4 twoClients σ α ∧
    Server.Arrives (fun n => (σ n).server) (fun n => shadow (σ n) (α n)) ∧
    ∀ n,(machine Bool 4).run twoClients (served.take n)=some (σ n) := by
  have run : ((machine Bool 4).run twoClients served).map (fun t => (t.server.pc,
      decide (t.server.ready=∅),t.server.kernel.born,(t.server.kernel.conns 0).pipe.flight,
      (t.server.kernel.conns 1).pipe.flight))=some (.waiting 4,true,2,[],[]) := by
    decide +kernel
  obtain ⟨t,ht,heq⟩ := Option.map_eq_some_iff.mp run
  simp only [Prod.mk.injEq,decide_eq_true_eq] at heq
  obtain ⟨waits,empty,born,first,second⟩ := heq
  have calm : (machine Bool 4).Meets OneThread twoClients served := by
    decide +kernel
  have linked : Linked {} t := (machine Bool 4).invariant (step_linked (by decide)) served _ t
    (boot_linked 8080 {} false [] (fun _ => {}) (fun _ => false) (fun _ => true) (fun _ => true)
      fun _ => []) calm ht
  obtain ⟨σ,α,runs,states,actions,meets⟩ := (machine Bool 4).idles ht (idle_step linked)
  have last {p : Nat} (hp : 94<p) : σ p=t := by
    have here := states p
    rw [List.take_of_length_le hp,ht] at here
    exact (Option.some.inj here).symm
  have fair : Server.Fair (fun n => (σ n).server) fun n => shadow (σ n) (α n) :=
    Server.Fair.of_rest (n := 94) (by simp only [actions]; rfl) fun p hp => by
      simp only [last hp]
      exact ⟨⟨4,waits⟩,empty⟩
  have run : FairRun 4 twoClients σ α :=
    ⟨runs,by simpa using (states 0).symm,meets OneThread calm trivial,fair⟩
  refine ⟨σ,α,run,(server run (by decide)).arrives_of_rest (m := 95) fun p hp c hc => ?_,states⟩
  simp only [last hp] at hc ⊢
  rw [born] at hc
  match c,hc with
  | 0,_ => exact first
  | 1,_ => exact second

theorem all_delivered_served : ∃ σ α,FairRun 4 twoClients σ α ∧
    Server.Arrives (fun n => (σ n).server) (fun n => shadow (σ n) (α n)) ∧
    ∃ ch,(false,ch)∈(σ 57).channels ∧ Server.payloads ch.far (σ 57).server.trace=[] ∧
    ((∃ m≥57,[66,67]<+:(Server.payloads ch.far (σ m).server.trace).flatten) ∨
      (∃ m,Server.sawError ch.far (σ m).server.trace=true ∨
        .turnAway ch.far∈Server.visits (σ m).server (shadow (σ m) (α m))) ∨
      ∀ q,∃ m≥q,Server.Refused (σ m).server (shadow (σ m) (α m))) := by
  obtain ⟨σ,α,run,arrives,states⟩ := served_fair
  have here : ((machine Bool 4).run twoClients (served.take 57)).map (fun t =>
      (t.channels,(t.clients false).sending.isNone,Server.payloads 1 t.server.trace))=
    some ([(false,⟨0,1,⟨[66,67],false,false⟩⟩),(true,⟨0,0,⟨[65],false,false⟩⟩)],true,[]) := by
    decide +kernel
  rw [states] at here
  obtain ⟨channels,silent,nothing⟩ := Prod.mk.injEq .. ▸ Prod.mk.injEq .. ▸ Option.some.inj here
  have there : (false,⟨0,1,⟨[66,67],false,false⟩⟩)∈(σ 57).channels := by simp [channels]
  refine ⟨σ,α,run,arrives,_,there,nothing,?_⟩
  exact (all_delivered run (by decide) arrives there).imp_left fun ⟨m,hm,_,given⟩ =>
    ⟨m,hm,given rfl (by simpa using silent)⟩

end FairRun

end TuyulNet.Link.Network
