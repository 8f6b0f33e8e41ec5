import TuyulNet.Framework.Independent
import TuyulNet.Kernel.Output
import TuyulNet.Server.Batch

namespace TuyulNet

open Framework Kernel

def Reply.failure : Reply → Option Errno
  | .fail e => some e
  | _ => none

/-- What `read` with room for `count` bytes may report of a stream. -/
def Reports (count : Nat) (p : Pipe Byte) : Reply → Prop
  | .data bs =>
    if bs=[] then count=0 ∨ p.unread=[] ∧ p.ending=.finished
    else bs.length ≤ count ∧ bs<+:p.unread
  | .fail e => e.wouldBlock=true → 0 < count ∧ p.unread=[] ∧ p.ending=.flowing
  | _ => False

/-- How the calls of a batch turn out, each depending on the connection concerned: what a
`read` reports of a stream, and which error, if any, the other calls meet. `accept` is about
the oldest pending connection. -/
structure Outcomes (count : Nat) where
  read : ConnId → Pipe Byte → Reply
  accept : Option ConnId → Option Errno
  getFlags : ConnId → Option Errno
  setFlags : ConnId → Option Errno
  add : ConnId → Option Errno
  reports : ∀ c p,Reports count p (read c p)
  exhausted : accept none≠none
  pending : ∀ c e,accept (some c)=some e → e.wouldBlock=false

namespace Server

/-- What the batch does to a connection that others can tell. -/
inductive Notice
  | data (fd : Fd) (bs : Bytes)
  | closed
  deriving DecidableEq

/-- Data callbacks and closed descriptors, with the connection behind the descriptor. -/
def State.notices (s : State) : Action → List (ConnId × Notice)
  | .reactor _ =>
    match s.pc with
    | .deliver fd bs _ => (s.kernel.connection fd).toList.map (·,.data fd bs)
    | .reject fd _ | .closeClient fd _ => (s.kernel.connection fd).toList.map (·,.closed)
    | _ => []
  | _ => []

/-- The notices about `c`, newest first. -/
def about (c : ConnId) (n : List (ConnId × Notice)) : List Notice :=
  n.filterMap fun x => if x.1=c then some x.2 else none

@[simp] theorem about_nil (c : ConnId) : about c []=[] := rfl
@[simp] theorem about_cons (c d : ConnId) (x : Notice) (n : List (ConnId × Notice)) :
    about c ((d,x)::n)=if d=c then x::about c n else about c n := by
  by_cases h : d=c <;> simp [about,h]

/-- What `as` does to `c`: its data callbacks and the closing of its descriptor. -/
def told (c : ConnId) (s : State) (as : List Action) : List Notice :=
  about c (machine.history State.notices s as)

/-- `epoll_wait` has returned events for `fds`. -/
def State.returns (s : State) (fds : List Fd) : State := { s with pc := .batch fds }

section follows

variable {count : Nat} (o : Outcomes count)

/-- The reply is the one that `o` foresees for the connection. -/
def Follows (s : State) (r : Reply) : Prop :=
  match s.pc with
  | .accept _ => r.failure=o.accept (s.kernel.backlog s.impl.serverFd).head?
  | .getFl fd (.client _) => ∀ c∈s.kernel.connection fd,r.failure=o.getFlags c
  | .setFl fd _ (.client _) => ∀ c∈s.kernel.connection fd,r.failure=o.setFlags c
  | .addClient fd _ => ∀ c∈s.kernel.connection fd,r.failure=o.add c
  | .read fd _ => ∀ c∈s.kernel.connection fd,r=o.read c (s.kernel.conns c).pipe
  | _ => True

instance : ∀ s r,Decidable (Follows o s r)
  | ⟨i,pc,k,_⟩,r =>
    match pc with
    | .accept _ => inferInstanceAs (Decidable (r.failure=o.accept (k.backlog i.serverFd).head?))
    | .getFl fd (.client _) =>
      inferInstanceAs (Decidable (∀ c∈k.connection fd,r.failure=o.getFlags c))
    | .setFl fd _ (.client _) =>
      inferInstanceAs (Decidable (∀ c∈k.connection fd,r.failure=o.setFlags c))
    | .addClient fd _ => inferInstanceAs (Decidable (∀ c∈k.connection fd,r.failure=o.add c))
    | .read fd _ => inferInstanceAs (Decidable (∀ c∈k.connection fd,r=o.read c (k.conns c).pipe))
    | .getFl _ .setup | .setFl _ _ .setup | .socket | .setsockopt | .bind | .listen
    | .epollCreate | .epollAdd | .setRunning | .allocate | .loopHead | .epollWait | .waiting _
    | .batch _ | .reject _ _ | .deliver _ _ _ | .delClient _ _ | .closeClient _ _
    | .cleanup _ _ | .returned _ | .threw => isTrue trivial

theorem Follows.here {o : Outcomes count} {s : State} {r : Reply} {pc : Pc} (h : Follows o s r)
    (hp : s.pc=pc) : Follows o { s with pc } r := by
  subst hp
  exact h

/-- The batch is not over, nothing arrives and nobody calls `stop()`. -/
def Proceeds (s : State) : Action → Prop
  | .reactor r => s.pc≠.batch [] ∧ Follows o s r
  | _ => False

instance (s : State) : ∀ a,Decidable (Proceeds o s a)
  | .reactor _ => inferInstanceAs (Decidable (_ ∧ _))
  | .env _ | .stop _ => isFalse id

/-- The actions `as` deal with the batch `fds`. -/
def Completes (s : State) (fds : List Fd) (as : List Action) (t : State) : Prop :=
  machine.Meets (Proceeds o) (s.returns fds) as ∧ machine.run (s.returns fds) as=some t ∧
    t.pc=.batch []

end follows

/-- How far a batch has come with one of its events. For the listening socket this includes
the connection that was accepted last. -/
inductive Stage
  | idle
  | queued (fd : Fd)
  | reading (fd : Fd)
  | delivering (fd : Fd) (bs : Bytes)
  | leaving (fd : Fd)
  | closing (fd : Fd)
  | accepting
  | flags (c : ConnId)
  | setting (c : ConnId)
  | hooking (c : ConnId)
  | rejecting (c : ConnId)

/-- What the batch can see and change of a connection. -/
structure Seat where
  pipe : Pipe Byte
  attached : Bool
  noted : List Notice

def Seat.blank : Seat := ⟨.empty,false,[]⟩

/-- What one event of the batch is about: pending connections and seats. -/
@[ext] structure Part where
  stage : Stage
  queue : List ConnId
  seats : ConnId → Seat

def Part.goto (x : Part) (stage : Stage) : Part := { x with stage }

def Part.put (x : Part) (c : ConnId) (seat : Seat) : Part :=
  { x with seats := Function.update x.seats c seat }

def Part.wait (x : Part) (queue : List ConnId) : Part := { x with queue }

@[simp] theorem Part.wait_queue (x : Part) : x.wait x.queue=x := rfl

section parts

variable {count : Nat} (o : Outcomes count) (dataCb : Bool)

/-- The descriptor of connection `c` is drained, and closed if the stream is over. -/
def clientNext (c : ConnId) (x : Part) : Option Part :=
  let seat := x.seats c
  match x.stage with
  | .queued fd => some (x.goto (.reading fd))
  | .reading fd =>
    match o.read c seat.pipe with
    | .data bs =>
      if bs=[] then some (x.goto (.leaving fd))
      else (seat.pipe.take bs).map fun pipe =>
        (x.put c { seat with pipe }).goto (if dataCb then .delivering fd bs else .reading fd)
    | .fail e => some (x.goto (if e.wouldBlock then .idle else .leaving fd))
    | _ => none
  | .delivering fd bs =>
    some ((x.put c { seat with noted := .data fd bs::seat.noted }).goto (.reading fd))
  | .leaving fd => some (x.goto (.closing fd))
  | .closing _ =>
    some ((x.put c { seat with attached := false,noted := .closed::seat.noted }).goto .idle)
  | _ => none

/-- Pending connections are accepted one by one. -/
def doorNext (x : Part) : Option Part :=
  match x.stage with
  | .queued _ => some (x.goto .accepting)
  | .accepting =>
    match o.accept x.queue.head?,x.queue with
    | some _,_ => some (x.goto .idle)
    | none,c::queue =>
      some (((x.wait queue).put c { x.seats c with attached := true }).goto (.flags c))
    | none,[] => none
  | .flags c => some (x.goto (if (o.getFlags c).isSome then .rejecting c else .setting c))
  | .setting c => some (x.goto (if (o.setFlags c).isSome then .rejecting c else .hooking c))
  | .hooking c => some (x.goto (if (o.add c).isSome then .rejecting c else .accepting))
  | .rejecting c =>
    let seat := x.seats c
    some ((x.put c { seat with attached := false,noted := .closed::seat.noted }).goto .accepting)
  | _ => none

/-- The batch as parts that do not depend on each other: the open connections, and the
listening socket together with everybody who is not connected yet. -/
def parts : Independent (Option ConnId) Part where
  next
    | some c => clientNext o dataCb c
    | none => doorNext o

theorem settled_idle {x : Part} (hx : x.stage=.idle) (key : Option ConnId) :
    (parts o dataCb).next key x=none := by
  cases key <;> simp [parts,clientNext,doorNext,hx]

end parts

section scenes

def queued (key : Fd → Option ConnId) (fds : List Fd) : List (Option ConnId × Stage) :=
  fds.map fun fd => (key fd,.queued fd)

/-- The events that are not dealt with, the current one first. `key` tells whom an event
concerns, `guest` which connection was accepted under a number. -/
def Pc.agenda (key guest : Fd → Option ConnId) : Pc → List (Option ConnId × Stage)
  | .batch fds => queued key fds
  | .accept rest => (none,.accepting)::queued key rest
  | .getFl fd (.client rest) => (none,(guest fd).elim .idle .flags)::queued key rest
  | .setFl fd _ (.client rest) => (none,(guest fd).elim .idle .setting)::queued key rest
  | .addClient fd rest => (none,(guest fd).elim .idle .hooking)::queued key rest
  | .reject fd rest => (none,(guest fd).elim .idle .rejecting)::queued key rest
  | .read fd rest => (key fd,.reading fd)::queued key rest
  | .deliver fd bs rest => (key fd,.delivering fd bs)::queued key rest
  | .delClient fd rest => (key fd,.leaving fd)::queued key rest
  | .closeClient fd rest => (key fd,.closing fd)::queued key rest
  | _ => []

/-- The part that `c` belongs to if the batch began in `k`. -/
def owner (k : Kernel) (c : ConnId) : Option ConnId := if (k.conns c).fd=none then none else some c

variable (k : Kernel) (s : State) (n : List (ConnId × Notice))

def State.seat (c : ConnId) : Seat :=
  ⟨(s.kernel.conns c).pipe,(s.kernel.conns c).fd.isSome,about c n⟩

/-- The state as parts, in a batch that began in `k`. -/
def State.part (key : Option ConnId) : Part where
  stage := ((s.pc.agenda k.connection s.kernel.connection).lookup key).getD .idle
  queue := if key=none then s.kernel.backlog s.impl.serverFd else []
  seats c := if owner k c=key then s.seat n c else .blank

end scenes

section moves

variable {count : Nat} {o : Outcomes count} {dataCb : Bool} {k : Kernel} {s t : State}
  {n m : List (ConnId × Notice)} {key : Option ConnId} {stage stage' : Stage}
  {l : List (Option ConnId × Stage)}

/-- With distinct keys it does not matter how the entries are ordered. -/
theorem lookup_perm {l l' : List (Option ConnId × Stage)} (h : l.Perm l')
    (hn : (l.map Prod.fst).Nodup) : l.lookup key=l'.lookup key := by
  induction h with
  | nil => rfl
  | cons x _ ih =>
    obtain ⟨a,u⟩ := x
    rw [List.lookup_cons,List.lookup_cons,ih (List.nodup_cons.mp hn).2]
  | swap x y l =>
    obtain ⟨a,u⟩ := x
    obtain ⟨b,v⟩ := y
    have apart : b≠a := fun e => (List.nodup_cons.mp hn).1 (by simp [e])
    simp only [List.lookup_cons]
    by_cases hx : key=a
    · rw [beq_eq_false_iff_ne.mpr (hx ▸ apart.symm)]
    · rw [beq_eq_false_iff_ne.mpr hx]
  | trans first _ ih ih' => exact (ih hn).trans (ih' ((first.map Prod.fst).nodup_iff.mp hn))

/-- The head of the agenda goes on, or is done. -/
def Turns (k : Kernel) (s t : State) (key : Option ConnId) (stage stage' : Stage) : Prop :=
  ∃ l,s.pc.agenda k.connection s.kernel.connection=(key,stage)::l ∧
    (t.pc.agenda k.connection t.kernel.connection=(key,stage')::l ∨
      stage'=.idle ∧ key∉l.map Prod.fst ∧ t.pc.agenda k.connection t.kernel.connection=l)

theorem Turns.stages (h : Turns k s t key stage stage') (key' : Option ConnId) :
    (s.part k n key).stage=stage ∧
      (t.part k m key').stage=if key'=key then stage' else (s.part k n key').stage := by
  obtain ⟨l,before,after⟩ := h
  refine ⟨by simp [State.part,before],?_⟩
  by_cases hk : key'=key
  · subst key'
    rcases after with after|⟨rfl,gone,after⟩
    · simp [State.part,after]
    · have absent : l.lookup key=none := by
        rw [List.lookup_eq_none_iff]
        intro x hx
        simpa using fun e => gone (List.mem_map.mpr ⟨x,hx,e.symm⟩)
      simp [State.part,after,absent]
  · have skip (x : Stage) : ((key,x)::l).lookup key'=l.lookup key' := by
      rw [List.lookup_cons,beq_eq_false_iff_ne.mpr hk]
    rcases after with after|⟨-,-,after⟩ <;> simp [State.part,before,after,hk,skip]

/-- A step that leaves the other parts alone. -/
theorem Turns.moves (h : Turns k s t key stage stage')
    (queue : key≠none → t.kernel.backlog t.impl.serverFd=s.kernel.backlog s.impl.serverFd)
    (seats : ∀ d,owner k d≠key → t.seat m d=s.seat n d)
    (next : (parts o dataCb).next key (s.part k n key)=some (t.part k m key)) :
    (parts o dataCb).Moves (s.part k n) (t.part k m) := by
  refine ⟨key,_,next,?_⟩
  funext key'
  by_cases hk : key'=key
  · rw [hk,Function.update_self]
  · rw [Function.update_of_ne hk]
    refine Part.ext ?_ ?_ (funext fun d => ?_)
    · rw [(h.stages (n := n) key').2,if_neg hk]
    · by_cases hn : key'=none
      · simpa [State.part,hn] using queue fun e => hk (hn.trans e.symm)
      · simp [State.part,hn]
    · by_cases ho : owner k d=key'
      · have other : owner k d≠key := fun e => hk (ho.symm.trans e)
        simp [State.part,ho,seats d other]
      · simp [State.part,ho]

/-- A step that changes no connection. -/
theorem Turns.still (h : Turns k s t key stage stage')
    (queue : t.kernel.backlog t.impl.serverFd=s.kernel.backlog s.impl.serverFd)
    (seats : ∀ d,t.seat m d=s.seat n d)
    (next : ∀ x : Part,x.stage=stage → (∀ c,owner k c=key → x.seats c=s.seat n c) →
      (key=none → x.queue=s.kernel.backlog s.impl.serverFd) →
      (parts o dataCb).next key x=some (x.goto stage')) :
    (parts o dataCb).Moves (s.part k n) (t.part k m) := by
  apply h.moves (fun _ => queue) fun d _ => seats d
  rw [next (s.part k n key) (h.stages (m := m) key).1 (fun c hc => if_pos hc) fun hk => if_pos hk]
  refine congrArg some (Part.ext ?_ ?_ (funext fun d => ?_))
  · simp [Part.goto,(h.stages (n := n) (m := m) key).2]
  · simp [Part.goto,State.part,queue]
  · simp [Part.goto,State.part,seats]

/-- A step that changes one connection, and perhaps those that are pending. -/
theorem Turns.changes (h : Turns k s t key stage stage') (c : ConnId) (hc : owner k c=key)
    (queue : key≠none → t.kernel.backlog t.impl.serverFd=s.kernel.backlog s.impl.serverFd)
    (seats : ∀ d,d≠c → t.seat m d=s.seat n d)
    (next : ∀ x : Part,x.stage=stage → x.seats c=s.seat n c →
      (key=none → x.queue=s.kernel.backlog s.impl.serverFd) →
      (parts o dataCb).next key x=some (((x.wait (if key=none then
        t.kernel.backlog t.impl.serverFd else x.queue)).put c (t.seat m c)).goto stage')) :
    (parts o dataCb).Moves (s.part k n) (t.part k m) := by
  apply h.moves queue fun d hd => seats d fun e => hd (e ▸ hc)
  rw [next (s.part k n key) (h.stages (m := m) key).1 (if_pos hc) fun hk => if_pos hk]
  refine congrArg some (Part.ext ?_ ?_ (funext fun d => ?_))
  · simp [Part.goto,(h.stages (n := n) (m := m) key).2]
  · by_cases hk : key=none <;> simp [Part.goto,Part.put,Part.wait,State.part,hk]
  · by_cases hd : d=c
    · subst d
      simp [Part.goto,Part.put,Part.wait,State.part,hc]
    · simp [Part.goto,Part.put,Part.wait,State.part,hd,seats d hd]

end moves

end Server

end TuyulNet
