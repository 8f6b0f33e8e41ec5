import TuyulNet.Link.Delivery

namespace TuyulNet.Link.Network

open Framework Kernel

/-- Any number of clients and one server, each in a process of its own, and the connections
that there have been between them, the latest first. -/
structure State (ι : Type*) where
  clients : ι → Client.State
  server : Server.State
  channels : List (ι × Channel)

def State.boot {ι : Type*} (clients : ι → Client.State) (server : Server.State) : State ι :=
  ⟨clients,server,[]⟩

inductive Action (ι : Type*)
  | dial (i : ι)
  | client (i : ι) (a : Client.Action)
  | server (r : Reply)
  | network (e : Env)
  deriving DecidableEq

variable {ι : Type*}

/-- One of the clients with the server. -/
def State.pair (s : State ι) (i : ι) : Link.State := .boot (s.clients i) s.server

/-- All connections, under the server's names for them. -/
def fars (channels : List (ι × Channel)) : List ConnId := channels.map fun x => x.2.far

variable [DecidableEq ι]

/-- What a step of client `i` does to the server's ends of its connections. -/
def relays (capacity : Nat) (i : ι) (c d : Client.State) :
    List (ι × Channel) → Kernel → Option Kernel
  | [],k => some k
  | (j,ch)::rest,k =>
    if j=i then (ch.relay capacity c d k).bind fun l => relays capacity i c d rest l
    else relays capacity i c d rest k

/-- The connections of client `i` after its step. -/
def follow (i : ι) (c : Client.State) (a : Client.Action) (x : ι × Channel) : ι × Channel :=
  if x.1=i then (x.1,{ x.2 with account := x.2.account.follow c x.2.near a }) else x

def State.clientStep (capacity : Nat) (s : State ι) (i : ι) (a : Client.Action) :
    Option (State ι) :=
  match Client.step (s.clients i) a with
  | some client =>
    (relays capacity i (s.clients i) client s.channels s.server.kernel).map fun kernel =>
      ⟨Function.update s.clients i client,{ s.server with kernel },
        s.channels.map (follow i (s.clients i) a)⟩
  | none => none

/-- The `connect` of client `i` reaches the listening socket of the server. -/
def State.dial (capacity : Nat) (s : State ι) (i : ι) : Option (State ι) :=
  match (s.clients i).app with
  | .connect _ =>
    (s.clientStep capacity i (.app .ok)).bind fun t =>
      (t.server.kernel.env (.connect t.server.impl.serverFd)).map fun kernel =>
        { t with
          server := { t.server with kernel }
          channels := (i,⟨(s.clients i).kernel.born,t.server.kernel.born,.empty⟩)::t.channels }
  | _ => none

def step (capacity : Nat) (s : State ι) : Action ι → Option (State ι)
  | .dial i => s.dial capacity i
  | .client i a => s.clientStep capacity i a
  | .server r => (s.server.reactor r).map fun server => { s with server }
  | .network e =>
    if s.channels.any fun x => disturbs x.2.far e then none
    else (s.server.kernel.env e).map fun kernel => { s with server := { s.server with kernel } }

def machine (ι : Type*) [DecidableEq ι] (capacity : Nat) : Machine (State ι) (Action ι) :=
  ⟨step capacity⟩

/-- Every client is driven by one thread. -/
def OneThread (s : State ι) : Action ι → Prop
  | .client i a => Client.OneSender (s.clients i) a
  | _ => True

instance (s : State ι) : ∀ a,Decidable (OneThread s a)
  | .client i a => inferInstanceAs (Decidable (Client.OneSender (s.clients i) a))
  | .dial _ | .server _ | .network _ => isTrue trivial

structure Linked (options : TcpOptions) (s : State ι) : Prop where
  client : ∀ i,Client.Sound (s.clients i)
  one : ∀ i,(s.clients i).OneCall
  server : Server.Faithful options s.server
  channel : ∀ x∈s.channels,Mirrors (s.pair x.1) x.2
  distinct : (fars s.channels).Nodup

section relays

variable {capacity : Nat} {options : TcpOptions} {i : ι} {c d : Client.State} {k l : Kernel}

/-- What the connection that a client has under `near` has accepted in a step. -/
def news (c d : Client.State) (near : ConnId) : Bytes :=
  (d.kernel.conns near).out.drop (c.kernel.conns near).out.length

/-- The bytes of one connection are nobody else's. -/
theorem relay_other {ch : Channel} {xs : Bytes}
    (out : (d.kernel.conns ch.near).out=(c.kernel.conns ch.near).out++xs)
    (h : ch.relay capacity c d k=some l) {far : ConnId} (other : ch.far≠far) (born : far < k.born) :
    l.born=k.born ∧ (l.conns far).pipe.sent=(k.conns far).pipe.sent ∧
      (l.conns far).pipe.closed=(k.conns far).pipe.closed := by
  obtain ⟨-,m,hm,hl⟩ := relay_cases out h
  have same := (relay_sent hm hl).1
  have middle : m.born=k.born ∧ (m.conns far).pipe.sent=(k.conns far).pipe.sent ∧
      (m.conns far).pipe.closed=(k.conns far).pipe.closed := by
    rcases hm with ⟨-,rfl⟩|hm
    · exact ⟨rfl,rfl,rfl⟩
    · exact ⟨(env_send hm).1,env_sender _ born (by simp [Env.sends,other]) hm⟩
  refine ⟨same,?_⟩
  rcases hl with ⟨-,hl⟩|rfl
  · obtain ⟨sent,closed⟩ :=
      env_sender _ (middle.1 ▸ born) (by simp [Env.sends,other]) hl
    exact ⟨sent.trans middle.2.1,closed.trans middle.2.2⟩
  · exact middle.2

theorem relays_faithful (ho : 0<options.bufferSize) {v : Server.State}
    {channels : List (ι × Channel)}
    (out : ∀ x∈channels,x.1=i → (d.kernel.conns x.2.near).out=
      (c.kernel.conns x.2.near).out++news c d x.2.near) (hf : Server.Faithful options v)
    (h : relays capacity i c d channels v.kernel=some l) :
    Server.Faithful options { v with kernel := l } := by
  induction channels generalizing v with
  | nil =>
    cases h
    exact hf
  | cons x channels ih =>
    have later := ih (v := v) fun y hy => out y (List.mem_cons_of_mem x hy)
    unfold relays at h
    split at h
    · rename_i own
      obtain ⟨m,hm,h⟩ := Option.bind_eq_some_iff.mp h
      obtain ⟨-,n,hn,hl⟩ := relay_cases (out x List.mem_cons_self own) hm
      have first := relay_faithful ho hf hn (hl.imp_left fun hl => ⟨_,hl.2⟩)
      exact ih (v := { v with kernel := m }) (fun y hy => out y (List.mem_cons_of_mem x hy)) first h
    · exact later hf h

/-- A step of a client is felt at the other ends of its connections only. -/
theorem relays_other {channels : List (ι × Channel)}
    (out : ∀ x∈channels,x.1=i → (d.kernel.conns x.2.near).out=
      (c.kernel.conns x.2.near).out++news c d x.2.near)
    (h : relays capacity i c d channels k=some l) {far : ConnId} (born : far < k.born)
    (other : ∀ x∈channels,x.1=i → x.2.far≠far) :
    (l.conns far).pipe.sent=(k.conns far).pipe.sent ∧
      (l.conns far).pipe.closed=(k.conns far).pipe.closed := by
  induction channels generalizing k with
  | nil =>
    cases h
    exact ⟨rfl,rfl⟩
  | cons x channels ih =>
    have later {n : Kernel} (hn : relays capacity i c d channels n=some l) (born : far < n.born) :=
      ih (fun y hy => out y (List.mem_cons_of_mem x hy)) hn born
        fun y hy => other y (List.mem_cons_of_mem x hy)
    unfold relays at h
    split at h
    · rename_i own
      obtain ⟨m,hm,h⟩ := Option.bind_eq_some_iff.mp h
      obtain ⟨here,sent,closed⟩ :=
        relay_other (out x List.mem_cons_self own) hm (other x List.mem_cons_self own) born
      obtain ⟨sent',closed'⟩ := later h (here ▸ born)
      exact ⟨sent'.trans sent,closed'.trans closed⟩
    · exact later h born

/-- There it is felt as what the client's own end has accepted, or as its closing. -/
theorem relays_own {channels : List (ι × Channel)}
    (out : ∀ x∈channels,x.1=i → (d.kernel.conns x.2.near).out=
      (c.kernel.conns x.2.near).out++news c d x.2.near)
    (born : ∀ x∈channels,x.2.far < k.born) (distinct : (fars channels).Nodup)
    (h : relays capacity i c d channels k=some l) {x : ι × Channel} (hx : x∈channels)
    (own : x.1=i) : (x.2.account.broken=true → news c d x.2.near=[]) ∧
      (l.conns x.2.far).pipe.sent=(k.conns x.2.far).pipe.sent++news c d x.2.near ∧
      ((l.conns x.2.far).pipe.closed=true →
        (k.conns x.2.far).pipe.closed=true ∨ (d.kernel.conns x.2.near).fd=none) := by
  induction channels generalizing k with
  | nil => cases hx
  | cons y channels ih =>
    obtain ⟨alone,distinct⟩ := List.nodup_cons.mp distinct
    have away (z : ι × Channel) (hz : z∈channels) : z.2.far≠y.2.far := by
      intro e
      exact alone (List.mem_map.mpr ⟨z,hz,e⟩)
    have rest := fun z hz => out z (List.mem_cons_of_mem y hz)
    unfold relays at h
    rcases List.mem_cons.mp hx with rfl|hx
    · rw [if_pos own] at h
      obtain ⟨m,hm,h⟩ := Option.bind_eq_some_iff.mp h
      obtain ⟨dead,n,hn,hl⟩ := relay_cases (out x List.mem_cons_self own) hm
      obtain ⟨here,sent,closed⟩ := relay_sent hn hl
      obtain ⟨sent',closed'⟩ := relays_other rest h
        (here ▸ born x List.mem_cons_self) fun z hz _ => away z hz
      exact ⟨dead,sent'.trans sent,fun hc => closed (closed'.symm.trans hc)⟩
    · have later {n : Kernel} (hn : relays capacity i c d channels n=some l)
          (same : n.born=k.born) :=
        ih rest (fun z hz => same ▸ born z (List.mem_cons_of_mem y hz)) distinct hn hx
      split at h
      · rename_i mine
        obtain ⟨m,hm,h⟩ := Option.bind_eq_some_iff.mp h
        obtain ⟨here,sent,closed⟩ := relay_other (out y List.mem_cons_self mine) hm
          (fun e => away x hx e.symm) (born x (List.mem_cons_of_mem y hx))
        obtain ⟨dead,sent',closed'⟩ := later h here
        exact ⟨dead,sent'.trans (by rw [sent]),fun hc => (closed' hc).imp_left fun was =>
          closed ▸ was⟩
      · exact later h rfl

theorem relays_born {channels : List (ι × Channel)}
    (out : ∀ x∈channels,x.1=i → (d.kernel.conns x.2.near).out=
      (c.kernel.conns x.2.near).out++news c d x.2.near)
    (h : relays capacity i c d channels k=some l) : l.born=k.born := by
  induction channels generalizing k with
  | nil =>
    cases h
    rfl
  | cons x channels ih =>
    have rest := fun z hz => out z (List.mem_cons_of_mem x hz)
    unfold relays at h
    split at h
    · rename_i own
      obtain ⟨m,hm,h⟩ := Option.bind_eq_some_iff.mp h
      obtain ⟨-,n,hn,hl⟩ := relay_cases (out x List.mem_cons_self own) hm
      exact (ih rest h).trans (relay_sent hn hl).1
    · exact ih rest h

end relays

section steps

variable {capacity : Nat} {options : TcpOptions} {s t : State ι} {i : ι}

theorem clientStep_cases {a : Client.Action} (h : s.clientStep capacity i a=some t) :
    ∃ client kernel,Client.step (s.clients i) a=some client ∧
      relays capacity i (s.clients i) client s.channels s.server.kernel=some kernel ∧
      t=⟨Function.update s.clients i client,{ s.server with kernel },
        s.channels.map (follow i (s.clients i) a)⟩ := by
  unfold State.clientStep at h
  split at h
  · rename_i client hs
    obtain ⟨kernel,hk,rfl⟩ := Option.map_eq_some_iff.mp h
    exact ⟨client,kernel,hs,hk,rfl⟩
  · cases h

theorem dial_cases (h : s.dial capacity i=some t) : ∃ res u kernel,
    (s.clients i).app=.connect res ∧ s.clientStep capacity i (.app .ok)=some u ∧
      u.server.kernel.env (.connect u.server.impl.serverFd)=some kernel ∧
      t={ u with
        server := { u.server with kernel }
        channels := (i,⟨(s.clients i).kernel.born,u.server.kernel.born,.empty⟩)::u.channels } := by
  unfold State.dial at h
  split at h
  · rename_i res ha
    obtain ⟨u,hu,h⟩ := Option.bind_eq_some_iff.mp h
    obtain ⟨kernel,hk,rfl⟩ := Option.map_eq_some_iff.mp h
    exact ⟨res,u,kernel,ha,hu,hk,rfl⟩
  · cases h

@[simp] theorem follow_name {a : Client.Action} {c : Client.State} (x : ι × Channel) :
    (follow i c a x).1=x.1 ∧ (follow i c a x).2.near=x.2.near ∧
      (follow i c a x).2.far=x.2.far := by
  unfold follow
  split <;> exact ⟨rfl,rfl,rfl⟩

theorem fars_follow {a : Client.Action} {c : Client.State} (l : List (ι × Channel)) :
    fars (l.map (follow i c a))=fars l := by
  unfold fars
  rw [List.map_map]
  exact List.map_congr_left fun x _ => (follow_name x).2.2

omit [DecidableEq ι] in
/-- What the server's end needs to stay in step with a client that does nothing. -/
theorem stays_mirrored {x : ι × Channel} (h : Mirrors (s.pair x.1) x.2)
    (client : t.clients x.1=s.clients x.1) (born : s.server.kernel.born≤t.server.kernel.born)
    (sent : (t.server.kernel.conns x.2.far).pipe.sent=(s.server.kernel.conns x.2.far).pipe.sent)
    (closed : (t.server.kernel.conns x.2.far).pipe.closed=
      (s.server.kernel.conns x.2.far).pipe.closed) : Mirrors (t.pair x.1) x.2 := by
  obtain ⟨balanced,far,same,ends⟩ := h
  have pair : (t.pair x.1).client=(s.pair x.1).client := client
  refine ⟨?_,far.trans_le born,?_,?_⟩
  · rw [pair]
    exact balanced
  · rw [pair]
    exact sent.trans same
  · rw [pair]
    exact fun hc => ends (closed.symm.trans hc)

/-- A step of one client, and what becomes of it on the server's ends of all connections. -/
theorem client_linked (ho : 0<options.bufferSize) {a : Client.Action} (h : Linked options s)
    (hc : Client.OneSender (s.clients i) a) (hs : s.clientStep capacity i a=some t) :
    Linked options t := by
  obtain ⟨client,kernel,hstep,hr,rfl⟩ := clientStep_cases hs
  have out (x : ι × Channel) (hx : x∈s.channels) (own : x.1=i) :
      (client.kernel.conns x.2.near).out=
        ((s.clients i).kernel.conns x.2.near).out++news (s.clients i) client x.2.near := by
    have born := (h.channel x hx).balanced.born
    unfold news
    rw [Client.step_out (h.client i) (own ▸ born) hstep,List.drop_left]
  have known (x : ι × Channel) (hx : x∈s.channels) : x.2.far < s.server.kernel.born :=
    (h.channel x hx).born
  have one := Client.step_accounts (h.client i) (h.one i) hc hstep
  refine ⟨?_,?_,relays_faithful ho out h.server hr,?_,?_⟩
  · intro j
    by_cases hj : j=i
    · subst j
      simpa using Client.step_sound _ _ _ (h.client i) hc.civil hstep
    · simpa [hj] using h.client j
  · intro j
    by_cases hj : j=i
    · subst j
      simpa using one.1
    · simpa [hj] using h.one j
  · intro y hy
    obtain ⟨x,hx,rfl⟩ := List.mem_map.mp hy
    have mirrors := h.channel x hx
    have born := (relays_born out hr).ge
    by_cases own : x.1=i
    · obtain ⟨dead,sent,closed⟩ := relays_own out known h.distinct hr hx own
      have accepted := out x hx own
      obtain ⟨j,ch⟩ := x
      obtain rfl : j=i := own
      have hold := Client.step_hold (h.client j) hc.civil mirrors.balanced.born hstep
      have moved : (State.pair ⟨Function.update s.clients j client,{ s.server with kernel },
          s.channels.map (follow j (s.clients j) a)⟩ j).client=client := by
        simp [State.pair,Link.State.boot]
      have followed : follow j (s.clients j) a (j,ch)=
          (j,{ ch with account := ch.account.follow (s.clients j) ch.near a }) := if_pos rfl
      rw [followed]
      refine ⟨?_,mirrors.born.trans_le born,?_,?_⟩ <;> rw [moved]
      · apply Client.step_balanced (h.client j) (h.one j) hc mirrors.balanced hstep
        intro broken
        rw [accepted,dead broken,List.append_nil]
      · exact sent.trans ((congrArg (·++_) mirrors.sent).trans accepted.symm)
      · intro hcl
        rcases closed hcl with was|now
        · rcases hold.fd with same|lost
          · exact same.trans (mirrors.closed was)
          · exact lost
        · exact now
    · have still : follow i (s.clients i) a x=x := if_neg own
      obtain ⟨sent,closed⟩ := relays_other out hr (known x hx) fun z hz mine e => own (by
        have same := List.inj_on_of_nodup_map h.distinct hz hx e
        rw [← same]
        exact mine)
      rw [still]
      exact stays_mirrored mirrors (by simp [own]) born sent closed
  · show (fars _).Nodup
    rw [fars_follow]
    exact h.distinct

/-- A new connection is empty on both ends, and is nobody else's. -/
theorem dial_linked (ho : 0<options.bufferSize) (h : Linked options s)
    (hs : s.dial capacity i=some t) : Linked options t := by
  obtain ⟨res,u,kernel,ha,hu,hk,rfl⟩ := dial_cases hs
  have calm : Client.OneSender (s.clients i) (.app .ok) := rfl
  have linked := client_linked ho h calm hu
  obtain ⟨client,m,hstep,-,rfl⟩ := clientStep_cases hu
  obtain ⟨born,out,idle⟩ := connect_fresh (h.client i) ha hstep
  obtain ⟨far,pipe⟩ := peer_fresh hk
  refine ⟨linked.client,linked.one,env_faithful ho linked.server hk,?_,?_⟩
  · intro x hx
    rcases List.mem_cons.mp hx with rfl|hx
    · have moved : Function.update s.clients i client i=client := Function.update_self ..
      refine ⟨⟨?_,?_,?_,?_,?_⟩,far,?_,?_⟩ <;>
        simp only [State.pair,Link.State.boot,moved,Client.Account.empty]
      · exact born
      · intro _
        simp [out,Client.State.remaining,idle]
      · rw [out]
      · simp
      · simp
      · exact (congrArg Pipe.sent pipe).trans out.symm
      · intro hcl
        have fresh : (kernel.conns m.born).pipe.closed=false := by
          rw [pipe]
          rfl
        exact absurd (hcl.symm.trans fresh) (by simp)
    · have mirrors := linked.channel x hx
      obtain ⟨sent,closed⟩ := env_sender _ mirrors.born rfl hk
      exact stays_mirrored mirrors rfl far.le sent closed
  · refine List.nodup_cons.mpr ⟨?_,linked.distinct⟩
    intro hm
    obtain ⟨x,hx,e⟩ := List.mem_map.mp hm
    have before := (linked.channel x hx).born
    exact absurd (e ▸ before) (lt_irrefl _)

theorem step_linked (ho : 0<options.bufferSize) (s : State ι) (a : Action ι) (t : State ι)
    (h : Linked options s) (hc : OneThread s a) (hs : (machine ι capacity).step s a=some t) :
    Linked options t := by
  cases a with
  | dial i => exact dial_linked ho h hs
  | client i a => exact client_linked ho h hc hs
  | server r =>
    obtain ⟨server,hr,rfl⟩ := Option.map_eq_some_iff.mp hs
    have faithful := Server.step_faithful ho s.server (.reactor r) server h.server rfl hr
    obtain ⟨k,j,pc,lines,hk,-,rfl⟩ := Server.reactor_cases hr
    refine ⟨h.client,h.one,faithful,?_,h.distinct⟩
    intro x hx
    have mirrors := h.channel x hx
    obtain ⟨sent,closed⟩ := answer_sender h.server.base.owned.wf hk x.2.far
    exact stays_mirrored mirrors rfl (answer_born hk) sent closed
  | network e =>
    have hs : (if (s.channels.any fun x => disturbs x.2.far e)=true then none else _)=_ := hs
    split at hs
    · cases hs
    · rename_i calm
      obtain ⟨k,hk,rfl⟩ := Option.map_eq_some_iff.mp hs
      refine ⟨h.client,h.one,env_faithful ho h.server hk,?_,h.distinct⟩
      intro x hx
      have mirrors := h.channel x hx
      have quiet : e.sends x.2.far=false := by
        have undisturbed : disturbs x.2.far e=false := by
          by_contra disturbed
          exact calm (List.any_eq_true.mpr ⟨x,hx,by simpa using disturbed⟩)
        cases e <;> simp_all [disturbs,Env.sends]
      obtain ⟨sent,closed⟩ := env_sender e mirrors.born quiet hk
      exact stays_mirrored mirrors rfl (env_out e mirrors.born hk).1 sent closed

end steps

section runs

variable (capacity : Nat) (port : Int) (options : TcpOptions) (logger : Bool) (foreign : List Fd)
  (clientOptions : ι → TcpOptions) (clientLogger clientData pipeSignal : ι → Bool)
  (clientForeign : ι → List Fd)

/-- Everybody has just been started. -/
def booted : State ι :=
  .boot
    (fun i => .boot (clientOptions i) (clientLogger i) (clientData i) (pipeSignal i)
      (clientForeign i))
    (.boot port options logger true foreign)

omit [DecidableEq ι] in
theorem boot_linked : Linked options (booted port options logger foreign clientOptions
    clientLogger clientData pipeSignal clientForeign) where
  client := fun i => Client.boot_sound (clientOptions i) (clientLogger i) (clientData i)
    (pipeSignal i) (clientForeign i)
  one := fun _ => .inl rfl
  server := Server.boot_faithful port options logger foreign
  channel := by simp [booted,State.boot]
  distinct := List.nodup_nil

/-- Of every connection of every client the data callback of the server gets the beginning of
what was given to `send_data` on it, and all of it once a read has returned 0, unless a
`send_data` on it has returned an error. No two connections share their end at the server. -/
theorem network_delivery (hb : 1 ≤ options.networkBufferSize) (as : List (Action ι))
    (t : State ι)
    (hc : (machine ι capacity).Meets OneThread (booted port options logger foreign clientOptions
      clientLogger clientData pipeSignal clientForeign) as)
    (hr : (machine ι capacity).run (booted port options logger foreign clientOptions
      clientLogger clientData pipeSignal clientForeign) as=some t) :
    (∀ i ch,(i,ch)∈t.channels →
      (Server.payloads ch.far t.server.trace).flatten<+:ch.account.given ∧
      (ch.account.refused=false → Server.sawEnd ch.far t.server.trace=true →
        (Server.payloads ch.far t.server.trace).flatten=ch.account.given)) ∧
    (fars t.channels).Nodup := by
  have ho : 0 < options.bufferSize := by
    unfold TcpOptions.bufferSize
    omega
  have linked := (machine ι capacity).invariant (step_linked ho) as _ t
    (boot_linked port options logger foreign clientOptions clientLogger clientData pipeSignal
      clientForeign) hc hr
  refine ⟨?_,linked.distinct⟩
  intro i ch hch
  exact mirrors_deliver (linked.channel (i,ch) hch) linked.server

/-- Two clients connect; the first sends a byte and leaves, the second sends two. -/
def exchange : List (Action Bool) :=
  let dials (i : Bool) : List (Action Bool) :=
    [.client i (.request (.connect "localhost" 8080)),.client i (.app .ok),
      .client i (.app (.addr 0)),.client i (.app (.fd 3)),.dial i,.client i (.app .ok),
      .client i (.app (.flags 2)),.client i (.app .ok),.client i (.app (.fd 4)),
      .client i (.app .ok),.client i (.app .ok),.client i (.app .ok),.client i (.app .ok)]
  [.server (.fd 3),.server .ok,.server (.flags 2),.server .ok,.server .ok,.server .ok,
    .server (.fd 4),.server .ok,.server .ok,.server .ok,.server .ok]++
  dials true++dials false++
  [.server .ok,.server (.events [⟨3,⟨true,false,false⟩⟩]),.server .ok,
    .server (.conn 5 0),.server (.flags 2),.server .ok,.server .ok,
    .server (.conn 6 1),.server (.flags 2),.server .ok,.server .ok,
    .server (.fail .eagain),.server .ok,.server .ok,
    .client true (.request (.send [65])),.client true (.app .ok),.client true (.app (.wrote 1)),
    .client false (.request (.send [66,67])),.client false (.app .ok),
    .client false (.app (.wrote 2)),.network (.arrive 1 2),.network (.arrive 0 1),
    .server .ok,.server (.events [⟨5,⟨true,false,false⟩⟩,⟨6,⟨true,false,false⟩⟩]),.server .ok,
    .server (.data [65]),.server .ok,.server (.fail .eagain),.server .ok,
    .server (.data [66,67]),.server .ok,.server (.fail .eagain),.server .ok,.server .ok,
    .client true (.request .disconnect),.client true (.app .ok),.client true (.app .ok),
    .client true (.app .ok),.client true (.worker .ok),.client true (.worker .ok),
    .client true (.app .ok),.client true (.app .ok),.client true (.app .ok),
    .client true (.app .ok),.client true (.app .ok),.client true (.app .ok),
    .client true (.app .ok),.network (.finish 0),
    .server .ok,.server (.events [⟨5,⟨true,false,false⟩⟩]),.server .ok,.server (.data [])]

theorem network_delivery_exchange : ∃ t first second,
    (machine Bool 4).run (booted 8080 {} false [] (fun _ => {}) (fun _ => false) (fun _ => true)
      (fun _ => true) fun _ => []) exchange=some t ∧
    t.channels=[(false,second),(true,first)] ∧ first.account.given=[65] ∧
    (Server.payloads first.far t.server.trace).flatten=[65] ∧
    (Server.payloads second.far t.server.trace).flatten<+:second.account.given := by
  have run : ((machine Bool 4).run (booted 8080 {} false [] (fun _ => {}) (fun _ => false)
      (fun _ => true) (fun _ => true) fun _ => []) exchange).map (fun t => t.channels.map fun x =>
        (x.1,x.2.account,Server.sawEnd x.2.far t.server.trace))=
          some [(false,⟨[66,67],false,false⟩,false),(true,⟨[65],false,false⟩,true)] := by
    decide +kernel
  obtain ⟨t,ht,heq⟩ := Option.map_eq_some_iff.mp run
  obtain ⟨delivered,-⟩ := network_delivery 4 8080 {} false [] (fun _ => {}) (fun _ => false)
    (fun _ => true) (fun _ => true) (fun _ => []) (by decide) exchange t (by decide +kernel) ht
  match hch : t.channels with
  | [(i,second),(j,first)] =>
    simp only [hch,List.map_cons,List.map_nil,List.cons.injEq,Prod.mk.injEq,and_true] at heq
    obtain ⟨⟨rfl,-,-⟩,rfl,account,saw⟩ := heq
    have given : first.account.given=[65] := by rw [account]
    have whole := (delivered true first (by simp [hch])).2 (by rw [account]) saw
    have part := (delivered false second (by simp [hch])).1
    exact ⟨t,first,second,ht,hch,given,whole.trans given,part⟩
  | [] | [_] | _::_::_::_ => simp [hch] at heq

end runs

end TuyulNet.Link.Network
