import TuyulNet.Client.Connection
import TuyulNet.Server.Streams

namespace TuyulNet.Link

open Framework Kernel

/-- A connection of the client, under the name that each of the two hosts has for it. -/
structure Channel where
  near : ConnId
  far : ConnId
  account : Client.Account
  deriving DecidableEq

/-- A client and a server, each in its own process, and the connection between them.
All other clients of the server are part of its environment. -/
structure State where
  client : Client.State
  server : Server.State
  channel : Option Channel

def State.boot (client : Client.State) (server : Server.State) : State := ⟨client,server,none⟩

/-- What only the peer of `far` does, and what does not happen on a reliable channel. -/
def disturbs (far : ConnId) : Env → Bool
  | .send c _ | .shut c | .tear c _ => c=far
  | _ => false

/-- The channel holds at most `capacity` bytes that the server has not read. -/
def transmit (capacity : Nat) (k : Kernel) (far : ConnId) (bs : Bytes) : Option Kernel :=
  let pipe := (k.conns far).pipe
  if bs=[] then some k
  else if pipe.unread.length+pipe.flight.length+bs.length ≤ capacity then k.env (.send far bs)
  else none

/-- The end of the stream follows the bytes when the client closes its descriptor. -/
def hangUp (k : Kernel) (far : ConnId) (before after : Option Fd) : Option Kernel :=
  if before≠none ∧ after=none then k.env (.shut far) else some k

/-- What the client's step on its own end does to the server's end. After a `write`
that has failed for good the channel takes no more bytes. -/
def Channel.relay (capacity : Nat) (ch : Channel) (c d : Client.State) (k : Kernel) :
    Option Kernel :=
  let before := c.kernel.conns ch.near
  let after := d.kernel.conns ch.near
  let bs := after.out.drop before.out.length
  if ch.account.broken=true ∧ bs≠[] then none
  else (transmit capacity k ch.far bs).bind fun l => hangUp l ch.far before.fd after.fd

inductive Action
  | dial
  | client (a : Client.Action)
  | server (r : Reply)
  | network (e : Env)
  deriving DecidableEq

/-- The client's `connect` reaches the listening socket of the server. -/
def State.dial (s : State) : Option State :=
  match s.channel,s.client.app with
  | none,.connect _ =>
    match Client.step s.client (.app .ok),s.server.kernel.env (.connect s.server.impl.serverFd) with
    | some client,some kernel =>
      some ⟨client,{ s.server with kernel },
        some ⟨s.client.kernel.born,s.server.kernel.born,.empty⟩⟩
    | _,_ => none
  | _,_ => none

def State.clientStep (capacity : Nat) (s : State) (a : Client.Action) : Option State :=
  match s.channel,Client.step s.client a with
  | none,some client => some { s with client }
  | some ch,some client =>
    (ch.relay capacity s.client client s.server.kernel).map fun kernel =>
      ⟨client,{ s.server with kernel },
        some { ch with account := ch.account.follow s.client ch.near a }⟩
  | _,none => none

def step (capacity : Nat) (s : State) : Action → Option State
  | .dial => s.dial
  | .client a => s.clientStep capacity a
  | .server r => (s.server.reactor r).map fun server => { s with server }
  | .network e =>
    if (s.channel.map fun ch => disturbs ch.far e)=some true then none
    else (s.server.kernel.env e).map fun kernel => { s with server := { s.server with kernel } }

def machine (capacity : Nat) : Machine State Action := ⟨step capacity⟩

/-- The client is driven by one thread: no `send_data` begins while another one is
in progress, and the data callback does not call `disconnect`. -/
def OneThread (s : State) : Action → Prop
  | .client a => Client.OneSender s.client a
  | _ => True

instance (s : State) : ∀ a,Decidable (OneThread s a)
  | .client a => inferInstanceAs (Decidable (Client.OneSender s.client a))
  | .dial | .server _ | .network _ => isTrue trivial

section cases

variable {capacity : Nat} {s t : State}

theorem transmit_cases {k l : Kernel} {far : ConnId} {bs : Bytes}
    (h : transmit capacity k far bs=some l) :
    bs=[] ∧ l=k ∨ k.env (.send far bs)=some l := by
  unfold transmit at h
  simp only at h
  split at h
  · exact .inl ⟨by assumption,(Option.some.inj h).symm⟩
  · split at h
    · exact .inr h
    · cases h

theorem hangUp_cases {k l : Kernel} {far : ConnId} {before after : Option Fd}
    (h : hangUp k far before after=some l) :
    after=none ∧ k.env (.shut far)=some l ∨ (before=none ∨ after≠none) ∧ l=k := by
  unfold hangUp at h
  split at h
  · rename_i hb
    exact .inl ⟨hb.2,h⟩
  · rename_i hb
    refine .inr ⟨?_,(Option.some.inj h).symm⟩
    by_cases hn : before=none
    · exact .inl hn
    · exact .inr fun ha => hb ⟨hn,ha⟩

theorem dial_cases (h : s.dial=some t) : s.channel=none ∧ ∃ res client kernel,
    s.client.app=.connect res ∧ Client.step s.client (.app .ok)=some client ∧
      s.server.kernel.env (.connect s.server.impl.serverFd)=some kernel ∧
      t=⟨client,{ s.server with kernel },
        some ⟨s.client.kernel.born,s.server.kernel.born,.empty⟩⟩ := by
  unfold State.dial at h
  split at h
  · rename_i res hc ha
    split at h
    · rename_i client kernel hs hk
      exact ⟨hc,res,client,kernel,ha,hs,hk,(Option.some.inj h).symm⟩
    · cases h
  · cases h

theorem clientStep_cases {a : Client.Action} (h : s.clientStep capacity a=some t) :
    ∃ client,Client.step s.client a=some client ∧
      (s.channel=none ∧ t={ s with client } ∨ ∃ ch kernel,s.channel=some ch ∧
        ch.relay capacity s.client client s.server.kernel=some kernel ∧
        t=⟨client,{ s.server with kernel },
          some { ch with account := ch.account.follow s.client ch.near a }⟩) := by
  unfold State.clientStep at h
  split at h
  · rename_i client hc hs
    exact ⟨client,hs,.inl ⟨hc,(Option.some.inj h).symm⟩⟩
  · rename_i ch client hc hs
    obtain ⟨kernel,hk,rfl⟩ := Option.map_eq_some_iff.mp h
    exact ⟨client,hs,.inr ⟨ch,kernel,hc,hk,rfl⟩⟩
  · cases h

end cases

end TuyulNet.Link
