import TuyulNet.Client.Holding

namespace TuyulNet.Client

open Framework Kernel

/-- No connection, no worker to join, and no call in progress. -/
structure State.Vacant (s : State) : Prop where
  wf : s.kernel.Wf
  alive : s.fate=.alive
  rest : ∃ last,s.app=.idle last
  flag : s.impl.isConnected=false
  client : s.impl.clientFd=-1
  epoll : s.impl.epollFd=-1
  free : s.impl.joinable=false
  alone : s.worker=.none

/-- What one thread does in one call and what the others do meanwhile. -/
def Action.inside : Action → Bool
  | .request _ => false
  | _ => true

/-- The reply that the application thread gets. -/
def Action.reply : Action → List Reply
  | .app r => [r]
  | _ => []

/-- `connect_to` has returned an error. -/
def App.refused : App → Bool
  | .idle (some (.connect code)) => code≠.success
  | _ => false

/-- One call of `connect_to`, with all that happens before the next one. -/
structure Attempt where
  host : String
  port : Int
  steps : List Action
  inside : ∀ a∈steps,a.inside=true

namespace Attempt

def actions (x : Attempt) : List Action := .request (.connect x.host x.port)::x.steps

/-- The replies that `connect_to` gets. -/
def replies (x : Attempt) : List Reply := x.steps.flatMap Action.reply

/-- A whole call that fails. -/
def fail (s : State) (x : Attempt) : Option State :=
  (Client.machine.run s x.actions).filter (·.app.refused)

def machine : Machine State Attempt := ⟨fail⟩

end Attempt

/-- The `addrinfo` list that `connect_to` has at a program point. -/
def App.list : App → Option Nat
  | .socket res | .freeFailed res | .connect res | .closeRefused res | .clearRefused res
  | .freeRefused res | .freeConnected res => some res
  | _ => none

/-- What a step does with the lists: `socket` and `connect` read them. -/
def App.lists : App → Reply → Ledger Nat
  | .lookup _ _,.addr res => [.acquire res]
  | .socket res,_ | .connect res,_ => [.touch res]
  | .freeFailed res,_ | .freeRefused res,_ | .freeConnected res,_ => [.release res]
  | _,_ => []

def State.lists (s : State) : Action → Ledger Nat
  | .app r => s.app.lists r
  | _ => []

/-- The call that the application thread makes in a step. -/
def State.asks (s : State) : Action → List Call
  | .app _ => [s.app.call s.impl]
  | _ => []

/-- `connect_to` before its last step that can fail, and the way back from there. -/
def App.trying : App → Bool
  | .idle _ | .testConnected _ _ | .lookup _ _ | .socket _ | .freeFailed _ | .connect _
  | .closeRefused _ | .clearRefused _ | .freeRefused _ | .freeConnected _ | .getFl _ | .setFl _ _
  | .epollCreate | .epollAdd | .shutdown _ (.connect _) => true
  | _ => false

/-- `connect_to` after that step, and its return. -/
def App.hooked : App → Bool
  | .setConnected | .spawn | .assign | .idle (some (.connect .success))
  | .idle (some .threw) => true
  | _ => false

/-- The `Impl` without its descriptors. -/
def Impl.bare (i : Impl) : Impl := { i with clientFd := -1,epollFd := -1 }

theorem bare_self {i : Impl} (client : i.clientFd=-1) (epoll : i.epollFd=-1) : i.bare=i := by
  cases i
  cases client
  cases epoll
  rfl

/-- The history of the descriptors of one `Impl`. -/
def Tracks (i : Impl) (k : Kernel) (t : Ledger Fd) : Prop :=
  ∀ fd,Ledger.held fd t=true ↔ fd∈i.fds ∧ k.Owns fd

section tracking

variable {i j : Impl} {a b : App} {w : Worker} {k l : Kernel} {r : Reply} {lines : Trace}
  {t : Ledger Fd}

/-- The descriptors that a call of `connect_to` names are those in the fields. -/
theorem names_fds (hf : Fields i a w k) (ha : a.trying=true) :
    ∀ fd∈(a.call i).names,fd∈i.fds := by
  intro fd hm
  cases a with
  | connect res | closeRefused res =>
    cases List.mem_singleton.mp hm
    exact mem_fds.mpr (.inl rfl)
  | getFl n | setFl n flags =>
    cases List.mem_singleton.mp hm
    exact mem_fds.mpr (.inl (hf.copied fd rfl))
  | epollAdd =>
    rcases List.mem_cons.mp hm with rfl|hm
    · exact mem_fds.mpr (.inr rfl)
    · cases List.mem_singleton.mp hm
      exact mem_fds.mpr (.inl rfl)
  | shutdown stage purpose =>
    cases stage with
    | closeEpoll =>
      cases List.mem_singleton.mp hm
      exact mem_fds.mpr (.inr rfl)
    | closeClient =>
      cases List.mem_singleton.mp hm
      exact mem_fds.mpr (.inl rfl)
    | _ => cases hm
  | send x => cases ha
  | _ => cases hm

/-- The history of the fields stays in step with the table, whatever else is open. -/
theorem Tracks.answer {c : Call} (h : Tracks i k t) (hw : k.Wf) (hp : Passes i j k l)
    (hk : k.answer c r=some l) : Tracks j l (c.entries r++t) := by
  have same (fd : Fd) (ho : k.Owns fd) : fd∈j.fds → fd∈i.fds := by
    intro hj
    rcases hp.fresh fd hj with hi|rfl|free
    · exact hi
    · exact absurd ho (minus_one_free hw)
    · exact absurd ho free
  have keeps (fd : Fd) (ho : l.Owns fd) (hi : fd∈i.fds) : fd∈j.fds :=
    (hp.only fd ho).resolve_right fun away => away.2 hi
  intro fd
  rcases answer_owns c r hk with ⟨he,ho⟩|⟨n,fresh,he,ho⟩|⟨x,rfl,rfl⟩
  · rw [he,held_touches,h fd,ho fd]
    refine and_congr_left fun owned => ⟨?_,same fd owned⟩
    exact keeps fd ((ho fd).mpr owned)
  · have own : n∈j.fds := by
      refine (hp.only n ((ho n).mpr (.inl rfl))).resolve_right fun old => ?_
      obtain ⟨f,hf,-⟩ := old.1
      rw [((k.fresh_iff n).mp fresh).2] at hf
      cases hf
    rw [he,List.cons_append,Ledger.held_acquire,held_touches,Bool.or_eq_true,h fd,ho fd,
      decide_eq_true_iff]
    constructor
    · rintro (rfl|⟨hi,owned⟩)
      · exact ⟨own,.inl rfl⟩
      · exact ⟨keeps fd ((ho fd).mpr (.inr owned)) hi,.inr owned⟩
    · rintro ⟨hj,rfl|owned⟩
      · exact .inl rfl
      · exact .inr ⟨same fd owned hj,owned⟩
  · have released : Ledger.held fd ((Call.close x).entries r++t)=true ↔
        fd≠x ∧ Ledger.held fd t=true := by
      by_cases hx : x=-1
      · have free : fd=-1 → Ledger.held fd t≠true := by
          rintro rfl held
          exact minus_one_free hw ((h (-1)).mp held).2
        simp only [Call.entries,hx,if_true,List.nil_append]
        exact ⟨fun held => ⟨fun e => free e held,held⟩,And.right⟩
      · simp only [Call.entries,hx,if_false,List.cons_append,List.nil_append,
          Ledger.held_release,Bool.and_eq_true,decide_eq_true_iff]
        exact and_congr_left' ne_comm
    rw [released,h fd,close_owns]
    constructor
    · rintro ⟨ne,hi,owned⟩
      exact ⟨keeps fd ((close_owns x fd).mpr ⟨ne,owned⟩) hi,ne,owned⟩
    · rintro ⟨hj,ne,owned⟩
      exact ⟨ne,same fd owned hj,owned⟩

/-- A call that names the fields keeps their history disciplined. -/
theorem Tracks.disciplined {c : Call} (h : Tracks i k t)
    (hd : Ledger.Disciplined t) (own : ∀ fd∈c.names,fd∈i.fds ∧ (fd=-1 ∨ k.Owns fd))
    (hk : k.answer c r=some l) : Ledger.Disciplined (c.entries r++t) := by
  have held (fd : Fd) (hm : fd∈c.names) (ne : fd≠-1) : Ledger.held fd t=true :=
    (h fd).mpr ⟨(own fd hm).1,(own fd hm).2.resolve_left ne⟩
  have touched := (disciplined_touches c.names t).mpr ⟨held,hd⟩
  rcases answer_owns c r hk with ⟨he,-⟩|⟨n,fresh,he,-⟩|⟨x,rfl,-⟩
  · rwa [he]
  · rw [he]
    refine ⟨(held_touches n c.names t).trans ?_,touched⟩
    by_contra hn
    obtain ⟨f,hf,-⟩ := ((h n).mp (by simpa using hn)).2
    rw [((k.fresh_iff n).mp fresh).2] at hf
    cases hf
  · simp only [Call.entries]
    split
    · exact hd
    · rename_i ne
      exact ⟨held x (by simp [Call.names]) ne,hd⟩

end tracking

section steps

variable {i j : Impl} {a b : App} {k l : Kernel} {r : Reply} {lines : Trace}

/-- A step of `connect_to` changes nothing but the descriptors, or has got past
everything that can fail. -/
theorem trying_next (ha : a.trying=true) (flag : i.isConnected=false) (free : i.joinable=false)
    (hn : a.next i r=some (j,b,lines)) :
    b.hooked=true ∨ b.trying=true ∧ j.bare=i.bare ∧ a.call i≠.threadStart ∧
      a.thread i r .none=.none ∧ ∀ signal,a.fate i signal r=.alive := by
  cases a with
  | idle => cases hn
  | testConnected host port =>
    cases r <;> (try cases hn)
    have hn : (if i.isConnected=true then _ else _)=_ := hn
    rw [flag] at hn
    cases hn
    exact .inr ⟨rfl,rfl,by simp [App.call],rfl,fun _ => rfl⟩
  | shutdown stage purpose =>
    cases purpose with
    | disconnect destroying => cases ha
    | connect code =>
      obtain ⟨⟨j,more,lines⟩,hs,heq⟩ := Option.map_eq_some_iff.mp hn
      cases heq
      have bare : j.bare=i.bare := by
        unfold Shutdown.next at hs
        split at hs <;> cases hs <;> simp [Impl.bare,flag,free]
      refine .inr ⟨by cases more <;> rfl,bare,?_,?_,?_⟩
      · cases stage <;> simp [App.call,Shutdown.call]
      · cases stage <;> rfl
      · intro signal
        cases stage <;> rfl
  | epollAdd =>
    cases r <;> cases hn
    · exact .inl rfl
    · exact .inr ⟨rfl,rfl,by simp [App.call],rfl,fun _ => rfl⟩
  | lookup | socket | freeFailed | connect | closeRefused | clearRefused | freeRefused
  | freeConnected | getFl | setFl | epollCreate =>
    cases r <;> cases hn <;> exact .inr ⟨rfl,rfl,by simp [App.call],rfl,fun _ => rfl⟩
  | _ => cases ha

theorem hooked_next (ha : a.hooked=true) (hn : a.next i r=some (j,b,lines)) : b.hooked=true := by
  cases a with
  | idle => cases hn
  | setConnected | spawn | assign => cases r <;> cases hn <;> rfl
  | _ => cases ha

theorem hooked_refused (ha : a.hooked=true) : a.refused=false := by
  cases a with
  | idle last =>
    cases last with
    | none => cases ha
    | some o =>
      cases o with
      | connect code => cases code <;> first | rfl | cases ha
      | _ => rfl
  | _ => rfl

/-- The lists that `connect_to` has are those that are not freed. -/
def Lists (a : App) (n : Ledger Nat) : Prop :=
  Ledger.Disciplined n ∧ ∀ res,Ledger.held res n=true ↔ a.list=some res

theorem Lists.goto {n : Ledger Nat} (h : Lists a n) (he : b.list=a.list) : Lists b n :=
  ⟨h.1,fun res => by rw [he,h.2 res]⟩

theorem Lists.read {n : Ledger Nat} {res : Nat} (h : Lists a n) (ha : a.list=some res)
    (hb : b.list=some res) : Lists b (.touch res::n) := by
  refine ⟨⟨(h.2 res).mpr ha,h.1⟩,fun x => ?_⟩
  rw [Ledger.held_touch,h.2 x,ha,hb]

theorem Lists.take {n : Ledger Nat} {res : Nat} (h : Lists a n) (ha : a.list=none)
    (hb : b.list=some res) : Lists b (.acquire res::n) := by
  have free (x : Nat) : Ledger.held x n=false := by simpa [ha] using h.2 x
  exact ⟨⟨free res,h.1⟩,fun x => by simp [free x,hb]⟩

theorem Lists.free {n : Ledger Nat} {res : Nat} (h : Lists a n) (ha : a.list=some res)
    (hb : b.list=none) : Lists b (.release res::n) := by
  refine ⟨⟨(h.2 res).mpr ha,h.1⟩,fun x => ?_⟩
  have only := h.2 x
  simp only [ha,Option.some.injEq] at only
  simp [only,hb]

/-- What a step of `connect_to` does with the `addrinfo` lists. -/
theorem lists_next {n : Ledger Nat} (h : Lists a n) (ha : a.trying=true)
    (hn : a.next i r=some (j,b,lines)) : Lists b (a.lists r++n) := by
  cases a with
  | idle => cases hn
  | testConnected host port =>
    cases r <;> (try cases hn)
    have hn : (if i.isConnected=true then _ else _)=_ := hn
    split at hn <;> cases hn <;> exact h.goto rfl
  | lookup host port =>
    cases r <;> cases hn
    · exact h.goto rfl
    · exact h.take rfl rfl
  | socket res | connect res => cases r <;> cases hn <;> exact h.read rfl rfl
  | freeFailed res | freeRefused res | freeConnected res =>
    cases r <;> cases hn
    exact h.free rfl rfl
  | closeRefused | clearRefused | getFl | setFl | epollCreate | epollAdd =>
    cases r <;> cases hn <;> exact h.goto rfl
  | shutdown stage purpose =>
    cases purpose with
    | disconnect destroying => cases ha
    | connect code =>
      obtain ⟨⟨j,more,lines⟩,-,heq⟩ := Option.map_eq_some_iff.mp hn
      cases heq
      refine h.goto ?_
      cases more <;> rfl
  | _ => cases ha

end steps

/-- The client since `s`, with `connect_to` in progress or back with an error. -/
structure Tries (s u : State) : Prop where
  seated : Seated u.impl u.app .none u.kernel true
  wf : u.kernel.Wf
  alive : u.fate=.alive
  alone : u.worker=.none
  trying : u.app.trying=true
  same : u.impl.bare=s.impl.bare
  news : ∃ new,u.trace=new++s.trace ∧ issued (·=.threadStart) new=0 ∧
    Tracks u.impl u.kernel (ledger new) ∧ Ledger.Disciplined (ledger new)

section attempts

variable {s u v : State}

theorem State.Vacant.tries (h : s.Vacant) : Tries s s where
  seated := by
    obtain ⟨last,rest⟩ := h.rest
    refine ⟨?_,rfl,?_,?_⟩
    · constructor <;> simp [Worker.busy,Worker.shutting,h.flag,h.free,rest,App.phase]
    · constructor <;>
        simp [App.linked,App.polled,App.copied,Worker.busy,h.flag,h.client,h.epoll,rest]
    · constructor <;>
        simp [App.clearsClient,App.clearsEpoll,App.unpolled,App.dialed,h.client,h.epoll,rest]
  wf := h.wf
  alive := h.alive
  alone := h.alone
  trying := by
    obtain ⟨last,rest⟩ := h.rest
    rw [rest]
    rfl
  same := rfl
  news := by
    refine ⟨[],rfl,rfl,fun fd => ?_,trivial⟩
    have none : ¬s.kernel.Owns (-1) := minus_one_free h.wf
    simp only [ledger_nil,Ledger.held_nil,mem_fds,h.client,h.epoll,or_self]
    constructor
    · simp
    · rintro ⟨rfl,owned⟩
      exact absurd owned none

theorem Tries.flags (hs : s.Vacant) (h : Tries s u) :
    u.impl.isConnected=false ∧ u.impl.joinable=false :=
  ⟨(congrArg Impl.isConnected h.same).trans hs.flag,(congrArg Impl.joinable h.same).trans hs.free⟩

theorem request_enters {q : Request} (hv : machine.step u (.request q)=some v) :
    v={ u with app := q.entry } := by
  have hv : step u (.request q)=some v := hv
  obtain ⟨-,⟨q,last,ha,-,rfl⟩|⟨r,ha,-⟩|⟨r,ha,-⟩|⟨c,rest,ha,-⟩|⟨e,k,ha,-⟩⟩ := step_cases hv <;>
    cases ha
  rfl

/-- The next call of `connect_to`. -/
theorem Tries.enter {last : Option Outcome} (h : Tries s u) (ha : u.app=.idle last)
    (host : String) (port : Int) : Tries s { u with app := .testConnected host port } := by
  have seated := h.seated
  rw [ha] at seated
  exact { h with seated := seated.rest.enter (.connect host port),trying := rfl }

theorem Tries.app {r : Reply} (hs : s.Vacant) (h : Tries s u) (ht : u.appStep r=some v) :
    v.app.hooked=true ∨ Tries s v := by
  obtain ⟨flag,free⟩ := h.flags hs
  obtain ⟨-,k,i,app,lines,hk,hn,rfl⟩ := appStep_cases ht
  rcases trying_next h.trying flag free hn with hooked|⟨trying,bare,quiet,thread,fate⟩
  · exact .inl hooked
  · obtain ⟨seated,passes⟩ := h.seated.app h.wf (fun _ => free) (fun _ => id) hk hn
    rw [thread] at seated
    obtain ⟨new,trace,unstarted,tracks,disciplined⟩ := h.news
    have names : ∀ fd∈(u.app.call u.impl).names,fd∈u.impl.fds ∧ (fd=-1 ∨ u.kernel.Owns fd) :=
      fun fd hm => ⟨names_fds h.seated.fields h.trying fd hm,app_names h.seated.fields fd hm⟩
    have logs := app_lines hn
    refine .inr ⟨seated,answer_wf h.wf _ r hk,fate _,?_,trying,bare.trans h.same,
      lines++.call (u.app.call u.impl) r::new,?_,?_,?_,?_⟩
    · show u.app.thread u.impl r u.worker=.none
      rw [h.alone,thread]
    · simp [trace]
    · rw [logs.skip (issued_log _),issued_call,unstarted]
      simpa using quiet
    · rw [logs.skip ledger_log]
      exact tracks.answer h.wf passes hk
    · rw [logs.skip ledger_log]
      exact tracks.disciplined disciplined names hk

theorem Tries.env {e : Kernel.Env} {k : Kernel} (h : Tries s u) (hk : u.kernel.env e=some k) :
    Tries s { u with kernel := k } := by
  obtain ⟨new,trace,unstarted,tracks,disciplined⟩ := h.news
  exact { h with
    seated := h.seated.keeps (env_keeps e hk)
    wf := env_wf h.wf e hk
    news := ⟨new,trace,unstarted,fun fd => (tracks fd).trans
      (and_congr_right' (env_owns e hk fd).symm),disciplined⟩ }

/-- One call of `connect_to` up to its return, or up to where it cannot fail any more. -/
def Underway (s u : State) (n : Ledger Nat) : Prop :=
  u.app.hooked=true ∨ Tries s u ∧ Lists u.app n

theorem step_underway (hs : s.Vacant) (u : State) (n : Ledger Nat) (a : Action) (v : State)
    (h : Underway s u n) (ha : a.inside=true) (hv : machine.step u a=some v) :
    Underway s v (u.lists a++n) := by
  obtain ⟨-,⟨q,last,rfl,-⟩|⟨r,rfl,ht⟩|⟨r,rfl,ht⟩|⟨c,rest,rfl,hw,rfl⟩|⟨e,k,rfl,hk,rfl⟩⟩ :=
    step_cases hv
  · cases ha
  · rcases h with hooked|⟨tries,lists⟩
    · obtain ⟨-,k,i,app,lines,-,hn,rfl⟩ := appStep_cases ht
      exact .inl (hooked_next hooked hn)
    · refine (tries.app hs ht).imp_right fun next => ⟨next,?_⟩
      obtain ⟨-,k,i,app,lines,-,hn,rfl⟩ := appStep_cases ht
      exact lists_next lists tries.trying hn
  · obtain ⟨k,i,worker,lines,-,hn,rfl⟩ := workerStep_cases ht
    refine h.imp_right fun ⟨tries,_⟩ => ?_
    rw [tries.alone] at hn
    cases hn
  · refine h.imp_right fun ⟨tries,_⟩ => ?_
    rw [tries.alone] at hw
    cases hw
  · exact h.imp_right fun ⟨tries,lists⟩ => ⟨tries.env hk,lists⟩

end attempts

section calls

/-- The calls that a thread makes when it gets these replies, newest first. -/
def App.calls (i : Impl) : App → List Reply → List Call
  | _,[] => []
  | a,r::rs => ((a.next i r).elim [] fun x => calls x.1 x.2.1 rs)++[a.call i]

/-- Whatever the worker may do is no matter to the thread any more. -/
def App.parked : App → Bool
  | .assign | .idle _ => true
  | _ => false

theorem parked_calls {a : App} (ha : a.parked=true) (i j : Impl) (rs : List Reply) :
    a.calls i rs=a.calls j rs := by
  have idle (last : Option Outcome) (i j : Impl) (rs : List Reply) :
      (App.idle last).calls i rs=(App.idle last).calls j rs := by
    cases rs <;> rfl
  cases a with
  | idle last => exact idle last i j rs
  | assign =>
    cases rs with
    | nil => rfl
    | cons r rs =>
      cases r with
      | ok => exact congrArg (·++[Call.internal]) (idle _ _ _ rs)
      | _ => rfl
  | _ => cases ha

theorem parked_next {i j : Impl} {a b : App} {r : Reply} {lines : Trace} (ha : a.parked=true)
    (hn : a.next i r=some (j,b,lines)) : b.parked=true := by
  cases a with
  | idle => cases hn
  | assign =>
    cases r <;> cases hn
    rfl
  | _ => cases ha

/-- No worker is there after a step of the application thread, but for the one that it
starts, and then nothing is left to be called. -/
theorem thread_alone {i j : Impl} {a b : App} {r : Reply} {lines : Trace}
    (hn : a.next i r=some (j,b,lines)) : a.thread i r .none=.none ∨ b.parked=true := by
  cases a with
  | spawn =>
    cases r <;> cases hn
    · exact .inr rfl
    · exact .inl rfl
  | shutdown stage purpose =>
    left
    cases stage <;> rfl
  | _ => exact .inl rfl

theorem step_calls {u v : State} {a : Action} (ha : a.inside=true)
    (hu : u.worker=.none ∨ u.app.parked=true) (hv : machine.step u a=some v) :
    (v.worker=.none ∨ v.app.parked=true) ∧
      ∀ rs,u.app.calls u.impl (a.reply++rs)=v.app.calls v.impl rs++u.asks a := by
  obtain ⟨-,⟨q,last,rfl,-⟩|⟨r,rfl,ht⟩|⟨r,rfl,ht⟩|⟨c,rest,rfl,hw,rfl⟩|⟨e,k,rfl,hk,rfl⟩⟩ :=
    step_cases hv
  · cases ha
  · obtain ⟨-,k,i,app,lines,-,hn,rfl⟩ := appStep_cases ht
    constructor
    · rcases hu with hw|hp
      · show u.app.thread u.impl r u.worker=.none ∨ app.parked=true
        rw [hw]
        exact thread_alone hn
      · exact .inr (parked_next hp hn)
    · intro rs
      simp only [Action.reply,List.cons_append,List.nil_append,App.calls,hn,Option.elim_some]
      rfl
  · obtain ⟨k,i,worker,lines,-,hn,rfl⟩ := workerStep_cases ht
    have parked : u.app.parked=true := by
      refine hu.resolve_left fun hw => ?_
      rw [hw] at hn
      cases hn
    exact ⟨.inr parked,fun rs => (parked_calls parked u.impl i rs).trans (List.append_nil _).symm⟩
  · have parked : u.app.parked=true := by
      refine hu.resolve_left fun none => ?_
      rw [none] at hw
      cases hw
    exact ⟨.inr parked,fun rs => (List.append_nil _).symm⟩
  · exact ⟨hu,fun rs => (List.append_nil _).symm⟩

/-- What `connect_to` calls depends on the `Impl` and on the replies, and on nothing else. -/
theorem run_calls (as : List Action) (hc : ∀ a∈as,a.inside=true) :
    ∀ u v,u.worker=.none ∨ u.app.parked=true → machine.run u as=some v →
      machine.history State.asks u as=u.app.calls u.impl (as.flatMap Action.reply) := by
  induction as with
  | nil => exact fun _ _ _ _ => rfl
  | cons a as ih =>
    intro u v hu hr
    obtain ⟨t,ht,hr⟩ := (machine.run_cons u v a as).mp hr
    obtain ⟨next,calls⟩ := step_calls (hc a (by simp)) hu ht
    rw [List.flatMap_cons,calls,← ih (fun b hb => hc b (by simp [hb])) t v next hr,
      Machine.history,ht,Option.elim_some]

theorem attempt_calls {u v : State} (hu : u.Vacant) (x : Attempt)
    (hv : machine.run u x.actions=some v) : machine.history State.asks u x.actions=
      (App.testConnected x.host x.port).calls u.impl x.replies := by
  obtain ⟨t,ht,hr⟩ := (machine.run_cons u v _ _).mp hv
  have entered : t={ u with app := .testConnected x.host x.port } := request_enters ht
  have calls := run_calls x.steps x.inside t v (.inl (by rw [entered]; exact hu.alone)) hr
  rw [Attempt.actions,Machine.history,ht,Option.elim_some,calls,entered]
  exact List.append_nil _

end calls

/-- What the calls of `connect_to` have done with their lists. -/
def Attempt.lists (s : State) (xs : List Attempt) : Ledger Nat :=
  Attempt.machine.history (fun u x => Client.machine.history State.lists u x.actions) s xs

section runs

variable {s t : State} {xs : List Attempt}

/-- After each call `connect_to` is back, and has freed its lists. -/
theorem run_tries (hs : s.Vacant) (ht : Attempt.machine.run s xs=some t) :
    Tries s t ∧ (∃ last,t.app=.idle last) ∧ Lists t.app (Attempt.lists s xs) := by
  have start : Tries s s ∧ (∃ last,s.app=.idle last) ∧ Lists s.app [] := by
    obtain ⟨last,rest⟩ := hs.rest
    exact ⟨hs.tries,⟨last,rest⟩,by rw [rest]; exact ⟨trivial,by simp [App.list]⟩⟩
  have all := Attempt.machine.history_invariant
    (I := fun u n => Tries s u ∧ (∃ last,u.app=.idle last) ∧ Lists u.app n)
    (C := fun _ _ => True) (fun u x => machine.history State.lists u x.actions) ?_ xs s [] t start
    (Machine.Meets.of_actions _ xs (fun _ _ => trivial) s) ht
  · simpa [Attempt.lists] using all
  · rintro u n x v ⟨tries,⟨last,rest⟩,lists⟩ - hv
    obtain ⟨hv,refused⟩ := Option.filter_eq_some_iff.mp (show Option.filter _ _=some v from hv)
    obtain ⟨w,hw,hr⟩ := (machine.run_cons u v _ _).mp hv
    have entered : w={ u with app := .testConnected x.host x.port } := request_enters hw
    have begun : Underway s w n := by
      rw [entered]
      exact .inr ⟨tries.enter rest x.host x.port,by rw [rest] at lists; exact lists.goto rfl⟩
    have ended := machine.history_invariant State.lists (step_underway hs) x.steps w n v begun
      (Machine.Meets.of_actions machine x.steps x.inside w) hr
    have same : machine.history State.lists u x.actions=machine.history State.lists w x.steps := by
      rw [Attempt.actions,Machine.history,hw,Option.elim_some]
      exact List.append_nil _
    rw [same]
    rcases ended with hooked|⟨tries,lists⟩
    · rw [hooked_refused hooked] at refused
      cases refused
    · refine ⟨tries,?_,lists⟩
      cases ha : v.app with
      | idle last => exact ⟨last,rfl⟩
      | _ =>
        rw [ha] at refused
        cases refused

/-- However many calls of `connect_to` have failed on a client without a connection, the
`Impl` is as before, what they obtained is closed and freed, and the next call goes
like a first one. -/
theorem failed_attempts_restore (hs : s.Vacant) (ht : Attempt.machine.run s xs=some t) :
    t.impl=s.impl ∧ t.worker=.none ∧
    (∃ new,t.trace=new++s.trace ∧ issued (·=.threadStart) new=0 ∧
      Ledger.Disciplined (ledger new) ∧
      ∀ fd,Ledger.released fd (ledger new)=Ledger.acquired fd (ledger new)) ∧
    (Ledger.Disciplined (Attempt.lists s xs) ∧ ∀ res,
      Ledger.released res (Attempt.lists s xs)=Ledger.acquired res (Attempt.lists s xs)) ∧
    ∀ (first : State) (x y : Attempt) (u v : State),first.Vacant → first.impl=s.impl →
      x.host=y.host → x.port=y.port → x.replies=y.replies →
      machine.run t x.actions=some u → machine.run first y.actions=some v →
      machine.history State.asks t x.actions=machine.history State.asks first y.actions := by
  obtain ⟨tries,⟨last,rest⟩,disciplined,lists⟩ := run_tries hs ht
  obtain ⟨flag,free⟩ := tries.flags hs
  obtain ⟨client,epoll⟩ := tries.seated.holds.settled (by rw [rest]; rfl) flag free
  have impl : t.impl=s.impl := by
    rw [← bare_self client epoll,← bare_self hs.client hs.epoll,tries.same]
  have vacant : t.Vacant :=
    ⟨tries.wf,tries.alive,⟨last,rest⟩,flag,client,epoll,free,tries.alone⟩
  refine ⟨impl,tries.alone,?_,⟨disciplined,fun res => ?_⟩,?_⟩
  · obtain ⟨new,trace,unstarted,tracks,disciplined⟩ := tries.news
    refine ⟨new,trace,unstarted,disciplined,fun fd => ?_⟩
    apply Ledger.released_of_free fd _ disciplined
    by_contra held
    obtain ⟨own,owned⟩ := (tracks fd).mp (by simpa using held)
    have gone : fd=-1 := by simpa [mem_fds,client,epoll] using own
    exact minus_one_free tries.wf (gone ▸ owned)
  · apply Ledger.released_of_free res _ disciplined
    simpa [rest,App.list] using lists res
  · intro first x y u v hf same host port replies hu hv
    rw [attempt_calls vacant x hu,attempt_calls hf y hv,impl,same,host,port,replies]

/-- A name that is not found, a server that refuses, and an epoll instance that takes
no descriptor. -/
def threeFailures : List Attempt :=
  [⟨"nowhere",80,[.app .ok,.app (.fail (.other 2))],by decide⟩,
    ⟨"localhost",81,[.app .ok,.app (.addr 0),.app (.fd 3),.app (.fail (.other 111)),.app .ok,
      .app .ok,.app .ok],by decide⟩,
    ⟨"localhost",82,[.app .ok,.app (.addr 0),.app (.fd 3),.app .ok,.app .ok,.app (.flags 2),
      .app .ok,.app (.fd 4),.app (.fail (.other 12)),.app .ok,.app .ok,.app .ok,.app .ok,
      .app .ok,.app .ok,.app .ok,.app .ok],by decide⟩]

theorem failed_attempts_restore_three : ∃ t,
    Attempt.machine.run (.boot {} false true true []) threeFailures=some t ∧
    t.impl=(State.boot {} false true true []).impl ∧ t.worker=.none := by
  have run : (Attempt.machine.run (.boot {} false true true []) threeFailures).isSome=true := by
    decide +kernel
  have vacant : (State.boot {} false true true []).Vacant :=
    ⟨boot_wf [],rfl,⟨none,rfl⟩,rfl,rfl,rfl,rfl,rfl⟩
  obtain ⟨t,ht⟩ := Option.isSome_iff_exists.mp run
  obtain ⟨impl,alone,-⟩ := failed_attempts_restore vacant ht
  exact ⟨t,ht,impl,alone⟩

end runs

end TuyulNet.Client
