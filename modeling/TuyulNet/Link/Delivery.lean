import TuyulNet.Link.System

namespace TuyulNet.Link

open Framework Kernel

/-- The server's end of a channel holds what the client's end has accepted, and is
closed only after the client's descriptor. -/
structure Mirrors (s : State) (ch : Channel) : Prop where
  balanced : Client.Balanced s.client ch.near ch.account
  born : ch.far < s.server.kernel.born
  sent : (s.server.kernel.conns ch.far).pipe.sent=(s.client.kernel.conns ch.near).out
  closed : (s.server.kernel.conns ch.far).pipe.closed=true →
    (s.client.kernel.conns ch.near).fd=none

structure Linked (options : TcpOptions) (s : State) : Prop where
  client : Client.Sound s.client
  one : s.client.OneCall
  server : Server.Faithful options s.server
  channel : ∀ ch,s.channel=some ch → Mirrors s ch

section steps

variable {capacity : Nat} {options : TcpOptions} {s t : State}

theorem env_faithful (ho : 0<options.bufferSize) {s : Server.State} {k : Kernel} {e : Env}
    (h : Server.Faithful options s) (hk : s.kernel.env e=some k) :
    Server.Faithful options { s with kernel := k } :=
  Server.step_faithful ho s (.env e) _ h rfl (by simp [Server.step,hk])

/-- What `relay` does to the server's end, when the client's end has accepted `xs`. -/
theorem relay_cases {ch : Channel} {c d : Client.State} {k l : Kernel} {xs : Bytes}
    (out : (d.kernel.conns ch.near).out=(c.kernel.conns ch.near).out++xs)
    (h : ch.relay capacity c d k=some l) : (ch.account.broken=true → xs=[]) ∧
    ∃ m,(xs=[] ∧ m=k ∨ k.env (.send ch.far xs)=some m) ∧
      ((d.kernel.conns ch.near).fd=none ∧ m.env (.shut ch.far)=some l ∨ l=m) := by
  have new : (d.kernel.conns ch.near).out.drop (c.kernel.conns ch.near).out.length=xs := by
    rw [out,List.drop_left]
  unfold Channel.relay at h
  simp only [new] at h
  split at h
  · cases h
  · rename_i hb
    obtain ⟨m,hm,hl⟩ := Option.bind_eq_some_iff.mp h
    refine ⟨?_,m,transmit_cases hm,(hangUp_cases hl).imp_right And.right⟩
    intro broken
    by_contra hx
    exact hb ⟨broken,hx⟩

theorem relay_faithful (ho : 0<options.bufferSize) {ch : Channel} {v : Server.State}
    {m l : Kernel} {xs : Bytes} (h : Server.Faithful options v)
    (hm : xs=[] ∧ m=v.kernel ∨ v.kernel.env (.send ch.far xs)=some m)
    (hl : (∃ e,m.env e=some l) ∨ l=m) : Server.Faithful options { v with kernel := l } := by
  have middle : Server.Faithful options { v with kernel := m } := by
    rcases hm with ⟨-,rfl⟩|hm
    · exact h
    · exact env_faithful ho h hm
  rcases hl with ⟨e,hl⟩|rfl
  · exact env_faithful (s := { v with kernel := m }) ho middle hl
  · exact middle

/-- The new stream of the server's end is the old one and what was accepted, and it
ends only when the client has closed its descriptor. -/
theorem relay_sent {ch : Channel} {d : Client.State} {k m l : Kernel} {xs : Bytes}
    (hm : xs=[] ∧ m=k ∨ k.env (.send ch.far xs)=some m)
    (hl : (d.kernel.conns ch.near).fd=none ∧ m.env (.shut ch.far)=some l ∨ l=m) :
    l.born=k.born ∧ (l.conns ch.far).pipe.sent=(k.conns ch.far).pipe.sent++xs ∧
    ((l.conns ch.far).pipe.closed=true →
      (k.conns ch.far).pipe.closed=true ∨ (d.kernel.conns ch.near).fd=none) := by
  have middle : m.born=k.born ∧
      (m.conns ch.far).pipe.sent=(k.conns ch.far).pipe.sent++xs ∧
      ((m.conns ch.far).pipe.closed=true → (k.conns ch.far).pipe.closed=true) := by
    rcases hm with ⟨rfl,rfl⟩|hm
    · exact ⟨rfl,(List.append_nil _).symm,id⟩
    · obtain ⟨born,sent,closed⟩ := env_send hm
      refine ⟨born,sent,?_⟩
      intro hc
      rw [closed] at hc
      cases hc
  rcases hl with ⟨gone,hl⟩|rfl
  · obtain ⟨born,sent⟩ := env_shut hl
    exact ⟨born.trans middle.1,sent.trans middle.2.1,fun _ => .inr gone⟩
  · exact ⟨middle.1,middle.2.1,fun hc => .inl (middle.2.2 hc)⟩

/-- `connect` gives the client an empty connection, and no `send_data` is in progress. -/
theorem connect_fresh {c d : Client.State} {res : Nat} (h : Client.Sound c)
    (ha : c.app=.connect res) (hs : Client.step c (.app .ok)=some d) :
    c.kernel.born<d.kernel.born ∧ (d.kernel.conns c.kernel.born).out=[] ∧ d.sending=none := by
  have control := h.control
  obtain ⟨runs,k,i,app,lines,hk,hn,rfl⟩ := Client.appStep_cases (Client.appStep_of_step hs)
  rw [ha] at hk hn
  rcases connect_cases hk with ⟨-,f,-,rfl⟩|⟨e,he,-⟩
  · cases hn
    refine ⟨Nat.lt_succ_self _,by simp [Conn.new],?_⟩
    have alone := Client.alone_sending control (.inl (by rw [ha]; rfl))
    simp [Client.State.sending,Client.App.sending,ha,Client.App.thread,alone.2]
  · cases he

/-- A peer that has just connected has sent nothing. -/
theorem peer_fresh {k l : Kernel} {fd : Fd} (hk : k.env (.connect fd)=some l) :
    k.born<l.born ∧ (l.conns k.born).pipe=.empty := by
  simp only [env] at hk
  split at hk <;> cases hk
  exact ⟨Nat.lt_succ_self _,by simp [notify,Conn.new]⟩

/-- A new connection is empty on both ends. -/
theorem dial_linked (ho : 0<options.bufferSize) (h : Linked options s) (hs : s.dial=some t) :
    Linked options t := by
  obtain ⟨hc,res,client,kernel,ha,hstep,hk,rfl⟩ := dial_cases hs
  have calm : Client.OneSender s.client (.app .ok) := rfl
  refine ⟨Client.step_sound _ _ _ h.client calm.civil hstep,
    (Client.step_accounts h.client h.one calm hstep).1,env_faithful ho h.server hk,?_⟩
  intro ch hch
  cases hch
  obtain ⟨born,out,idle⟩ := connect_fresh h.client ha hstep
  obtain ⟨far,pipe⟩ := peer_fresh hk
  refine ⟨⟨born,?_,?_,?_,?_⟩,far,?_,?_⟩
  · intro _
    simp [Client.Account.empty,out,Client.State.remaining,idle]
  · rw [out]
    exact List.nil_prefix
  · simp [Client.Account.empty]
  · simp [Client.Account.empty]
  · exact (congrArg Pipe.sent pipe).trans out.symm
  · intro hcl
    have fresh : (kernel.conns s.server.kernel.born).pipe.closed=false := by
      rw [pipe]
      rfl
    exact absurd (hcl.symm.trans fresh) (by simp)

/-- A step of the client, and what becomes of it on the server's end. -/
theorem client_linked (ho : 0<options.bufferSize) {a : Client.Action} (h : Linked options s)
    (hc : Client.OneSender s.client a) (hs : s.clientStep capacity a=some t) :
    Linked options t := by
  obtain ⟨client,hstep,⟨hn,rfl⟩|⟨ch,kernel,hch,hr,rfl⟩⟩ := clientStep_cases hs
  · refine ⟨Client.step_sound _ _ _ h.client hc.civil hstep,
      (Client.step_accounts h.client h.one hc hstep).1,h.server,?_⟩
    intro ch hch
    rw [hn] at hch
    cases hch
  · have mirrors := h.channel ch hch
    have hold := Client.step_hold h.client hc.civil mirrors.balanced.born hstep
    have out := Client.step_out h.client mirrors.balanced.born hstep
    obtain ⟨dead,m,hm,hl⟩ := relay_cases out hr
    obtain ⟨born,sent,closed⟩ := relay_sent hm hl
    refine ⟨Client.step_sound _ _ _ h.client hc.civil hstep,
      (Client.step_accounts h.client h.one hc hstep).1,
      relay_faithful ho h.server hm (hl.imp_left fun hl => ⟨_,hl.2⟩),?_⟩
    intro ch' hch'
    cases hch'
    constructor
    · apply Client.step_balanced h.client h.one hc mirrors.balanced hstep
      intro broken
      rw [out,dead broken,List.append_nil]
    · exact mirrors.born.trans_eq born.symm
    · exact sent.trans ((congrArg (·++_) mirrors.sent).trans out.symm)
    · intro hcl
      rcases closed hcl with was|now
      · rcases hold.fd with same|lost
        · exact same.trans (mirrors.closed was)
        · exact lost
      · exact now

theorem step_linked (ho : 0<options.bufferSize) (s : State) (a : Action) (t : State)
    (h : Linked options s) (hc : OneThread s a) (hs : (machine capacity).step s a=some t) :
    Linked options t := by
  cases a with
  | dial => exact dial_linked ho h hs
  | client a => exact client_linked ho h hc hs
  | server r =>
    obtain ⟨server,hr,rfl⟩ := Option.map_eq_some_iff.mp hs
    have faithful := Server.step_faithful ho s.server (.reactor r) server h.server rfl hr
    obtain ⟨k,i,pc,lines,hk,-,rfl⟩ := Server.reactor_cases hr
    refine ⟨h.client,h.one,faithful,?_⟩
    intro ch hch
    obtain ⟨balanced,born,sent,closed⟩ := h.channel ch hch
    obtain ⟨sent',closed'⟩ := answer_sender h.server.base.owned.wf hk ch.far
    refine ⟨balanced,born.trans_le (answer_born hk),sent'.trans sent,?_⟩
    exact fun hcl => closed (closed'.symm.trans hcl)
  | network e =>
    have hs : (if (s.channel.map fun ch => disturbs ch.far e)=some true then none else _)=_ := hs
    split at hs
    · cases hs
    · rename_i calm
      obtain ⟨k,hk,rfl⟩ := Option.map_eq_some_iff.mp hs
      refine ⟨h.client,h.one,env_faithful ho h.server hk,?_⟩
      intro ch hch
      obtain ⟨balanced,born,sent,closed⟩ := h.channel ch hch
      have quiet : e.sends ch.far=false := by
        have hch : s.channel=some ch := hch
        rw [hch] at calm
        cases e <;> simp_all [disturbs,Env.sends]
      obtain ⟨sent',closed'⟩ := env_sender e born quiet hk
      refine ⟨balanced,born.trans_le (env_out e born hk).1,sent'.trans sent,?_⟩
      exact fun hcl => closed (closed'.symm.trans hcl)

/-- What two ends in step with each other mean for the data callback. -/
theorem mirrors_deliver {p : Link.State} {ch : Channel}
    (mirrors : Mirrors p ch) (faithful : Server.Faithful options p.server) :
    (Server.payloads ch.far p.server.trace).flatten<+:ch.account.given ∧
    (ch.account.refused=false → Server.sawEnd ch.far p.server.trace=true →
      (Server.payloads ch.far p.server.trace).flatten=ch.account.given) := by
  obtain ⟨balanced,-,sent,closed⟩ := mirrors
  constructor
  · have part : (Server.payloads ch.far p.server.trace).flatten<+:
        (p.server.kernel.conns ch.far).pipe.taken := ⟨_,faithful.bytes ch.far⟩
    exact (part.trans (Pipe.taken_prefix _)).trans (sent ▸ balanced.part)
  · intro fine saw
    have gone : p.client.holds ch.near=false := by
      simp [Client.State.holds,closed (faithful.ended ch.far saw).1.1]
    have whole : ch.account.given=(p.client.kernel.conns ch.near).out := by
      simpa [gone] using balanced.whole fine
    calc (Server.payloads ch.far p.server.trace).flatten
        =(p.server.kernel.conns ch.far).pipe.sent := faithful.all_given saw
      _=(p.client.kernel.conns ch.near).out := sent
      _=ch.account.given := whole.symm

end steps

section runs

variable (capacity : Nat) (port : Int) (serverOptions clientOptions : TcpOptions)
  (serverLogger clientLogger clientData pipeSignal : Bool) (serverForeign clientForeign : List Fd)

theorem boot_linked : Linked serverOptions (.boot
    (.boot clientOptions clientLogger clientData pipeSignal clientForeign)
    (.boot port serverOptions serverLogger true serverForeign)) where
  client := Client.boot_sound clientOptions clientLogger clientData pipeSignal clientForeign
  one := .inl rfl
  server := Server.boot_faithful port serverOptions serverLogger serverForeign
  channel := by simp [State.boot]

/-- The data callback of the server gets the beginning of what was given to
`send_data` on the connection, and all of it once a read has returned 0, unless
a `send_data` on the connection has returned an error. -/
theorem end_to_end_delivery (hb : 1 ≤ serverOptions.networkBufferSize) (as : List Action)
    (t : State)
    (hc : (machine capacity).Meets OneThread (.boot
      (.boot clientOptions clientLogger clientData pipeSignal clientForeign)
      (.boot port serverOptions serverLogger true serverForeign)) as)
    (hr : (machine capacity).run (.boot
      (.boot clientOptions clientLogger clientData pipeSignal clientForeign)
      (.boot port serverOptions serverLogger true serverForeign)) as=some t)
    (ch : Channel) (hch : t.channel=some ch) :
    (Server.payloads ch.far t.server.trace).flatten<+:ch.account.given ∧
    (ch.account.refused=false → Server.sawEnd ch.far t.server.trace=true →
      (Server.payloads ch.far t.server.trace).flatten=ch.account.given) := by
  have ho : 0 < serverOptions.bufferSize := by
    unfold TcpOptions.bufferSize
    omega
  have linked := (machine capacity).invariant (step_linked ho) as _ t
    (boot_linked port serverOptions clientOptions serverLogger clientLogger clientData pipeSignal
      serverForeign clientForeign) hc hr
  exact mirrors_deliver (linked.channel ch hch) linked.server

/-- The server starts, the client connects and sends two bytes through a channel
that has room for one at a time, then it disconnects. -/
def conversation : List Action :=
  [.server (.fd 3),.server .ok,.server (.flags 2),.server .ok,.server .ok,.server .ok,
    .server (.fd 4),.server .ok,.server .ok,.server .ok,.server .ok,
    .client (.request (.connect "localhost" 8080)),.client (.app .ok),.client (.app (.addr 0)),
    .client (.app (.fd 3)),.dial,.client (.app .ok),.client (.app (.flags 2)),.client (.app .ok),
    .client (.app (.fd 4)),.client (.app .ok),.client (.app .ok),.client (.app .ok),
    .client (.app .ok),
    .server .ok,.server (.events [⟨3,⟨true,false,false⟩⟩]),.server .ok,.server (.conn 5 0),
    .server (.flags 2),.server .ok,.server .ok,.server (.fail .eagain),.server .ok,.server .ok,
    .client (.request (.send [65,66])),.client (.app .ok),.client (.app (.wrote 1)),
    .client (.app (.fail .eagain)),.network (.arrive 0 1),
    .server .ok,.server (.events [⟨5,⟨true,false,false⟩⟩]),.server .ok,.server (.data [65]),
    .server .ok,.client (.app (.wrote 1)),.network (.arrive 0 1),.server (.data [66]),
    .server .ok,.server (.fail .eagain),.server .ok,.server .ok,
    .client (.request .disconnect),.client (.app .ok),.client (.app .ok),.client (.app .ok),
    .client (.worker .ok),.client (.worker .ok),.client (.app .ok),.client (.app .ok),
    .client (.app .ok),.client (.app .ok),.client (.app .ok),.client (.app .ok),
    .client (.app .ok),.network (.finish 0),
    .server .ok,.server (.events [⟨5,⟨true,false,false⟩⟩]),.server .ok,.server (.data [])]

theorem end_to_end_delivery_conversation : ∃ t ch,
    (machine 1).run (.boot (.boot {} false true true []) (.boot 8080 {} false true []))
      conversation=some t ∧ t.channel=some ch ∧ ch.account.given=[65,66] ∧
    Server.payloads ch.far t.server.trace=[[65],[66]] ∧
    (Server.payloads ch.far t.server.trace).flatten=ch.account.given := by
  have run : ((machine 1).run (.boot (.boot {} false true true []) (.boot 8080 {} false true []))
      conversation).bind (fun t => t.channel.map fun ch =>
        (ch.account,Server.payloads ch.far t.server.trace,Server.sawEnd ch.far t.server.trace))=
          some (⟨[65,66],false,false⟩,[[65],[66]],true) := by
    decide +kernel
  obtain ⟨t,ht,hm⟩ := Option.bind_eq_some_iff.mp run
  obtain ⟨ch,hch,heq⟩ := Option.map_eq_some_iff.mp hm
  simp only [Prod.mk.injEq] at heq
  obtain ⟨account,pieces,saw⟩ := heq
  refine ⟨t,ch,ht,hch,by rw [account],pieces,?_⟩
  exact (end_to_end_delivery 1 8080 {} {} false false true true [] [] (by decide) _ t
    (by decide +kernel) ht ch hch).2 (by rw [account]) saw

end runs

end TuyulNet.Link
