import TuyulNet.Server.StopRequest
import TuyulNet.Server.Restart

namespace TuyulNet.Server

open Framework Kernel

/-- What happens in the life of a `TcpServer`: `start` is called, or the call in progress,
a `stop()` or the rest of the system goes on. -/
inductive Life
  | start
  | inside (a : Action)
  deriving DecidableEq

/-- What the object does, and what is done to it. -/
def Life.own : Life → Bool
  | .inside (.env _) => false
  | _ => true

/-- No call of `start` is in progress. -/
def Pc.back : Pc → Bool
  | .returned _ => true
  | _ => false

/-- `start` is called. -/
def State.enter (s : State) : State := { s with pc := .socket }

def lifeStep (s : State) : Life → Option State
  | .start => if s.pc.back then some s.enter else none
  | .inside a => step s a

def life : Machine State Life := ⟨lifeStep⟩

/-- A new object. That no call of `start` is in progress is all that its program point says. -/
def State.fresh (port : Int) (options : TcpOptions) (loggerCb dataCb : Bool)
    (foreign : List Fd) : State :=
  { State.boot port options loggerCb dataCb foreign with pc := .returned .success }

/-- No call of `start` is in progress, or it is inside `epoll_wait`. -/
def Pc.settled : Pc → Bool
  | .waiting _ | .returned _ => true
  | _ => false

/-- `stop()` is one atomic step, before, between and after the calls of `start` or while the
reactor is inside `epoll_wait`. -/
def Timely (s : State) : Life → Prop
  | .inside (.stop nested) => nested=0 ∧ s.pc.settled=true
  | _ => True

instance (s : State) : ∀ a,Decidable (Timely s a)
  | .inside (.stop _) => inferInstanceAs (Decidable (_ ∧ _))
  | .start | .inside (.reactor _) | .inside (.env _) => isTrue trivial

/-- The object without what a call of `start` puts into it. -/
def Impl.idle (i : Impl) : Impl := { i with serverFd := -1,epollFd := -1,isRunning := false }

section fields

variable {i j : Impl} {pc q : Pc} {r : Reply} {lines : Trace}

theorem next_idle (hn : pc.next i r=some (j,q,lines)) : j.idle=i.idle := by
  rcases next_cases hn with hn|hn|hn|hn|hn|hn
  · unfold setupNext bail at hn
    split at hn <;> cases hn <;> rfl
  · unfold flagsNext blockingFailed bail at hn
    split at hn <;> (try split at hn) <;> cases hn <;> rfl
  · unfold loopNext at hn
    split at hn <;> (try split at hn) <;> cases hn <;> rfl
  · unfold acceptNext at hn
    split at hn <;> cases hn <;> rfl
  · unfold drainNext at hn
    split at hn <;> (try split at hn) <;> cases hn <;> rfl
  · unfold cleanupNext at hn
    split at hn <;> cases hn <;> rfl

theorem stop_kept (i : Impl) (nested : Nat) : (i.stop nested).1.idle=i.idle := by
  unfold Impl.stop
  split
  · rw [cleanup_impl]
    rfl
  · rfl

end fields

/-- What holds throughout a sequence of calls of `start` on the object `idle`. -/
structure Cycle (idle : Impl) (s : State) : Prop where
  housed : ∃ F,Housed F s
  disciplined : Ledger.Disciplined (ledger s.trace)
  cleared : Cleared s.impl s.pc
  accepted : ∀ fd,accepted fd s.trace=true ↔ s.kernel.Attached fd
  kept : s.impl.idle=idle
  halted : s.pc.back=true → s.impl.isRunning=false
  caught : s.pc≠.threw

section cycle

variable {idle : Impl} {s t : State}

/-- Between two calls the object is as it was in the beginning. -/
theorem Cycle.rests (h : Cycle idle s) (hp : s.pc.back=true) : s.impl=idle := by
  have halted := h.halted hp
  cases hpc : s.pc with
  | returned code =>
    have epoll := h.cleared.epoll (by rw [hpc]; rfl)
    have server := h.cleared.server (by rw [hpc]; rfl)
    rw [← h.kept]
    cases hi : s.impl
    rw [hi] at epoll server halted
    simp_all [Impl.idle]
  | _ =>
    rw [hpc] at hp
    cases hp

/-- The clients that are left over from the last call are set aside in the next. -/
theorem Cycle.enter (h : Cycle idle s) (hp : s.pc.back=true) : Cycle idle s.enter := by
  obtain ⟨F,housed⟩ := h.housed
  have halted := h.halted hp
  cases hpc : s.pc with
  | returned code =>
    have epoll := h.cleared.epoll (by rw [hpc]; rfl)
    have server := h.cleared.server (by rw [hpc]; rfl)
    have left (fd : Fd) (f : File) (hf : s.kernel.table fd=some f) (hn : f≠.foreign) :
        Server.accepted fd s.trace=true :=
      (h.accepted fd).mpr ((returned_owns housed h.cleared hpc fd).mp ⟨f,hf,hn⟩)
    refine ⟨⟨fun fd => Server.accepted fd s.trace,housed.wf,housed.agrees,?_,?_⟩,h.disciplined,
      ⟨by simp [State.enter,Pc.epollDone],by simp [State.enter,Pc.serverDone]⟩,h.accepted,h.kept,
      by simp [State.enter,Pc.back],by simp [State.enter]⟩
    · apply Shape.first ⟨server,epoll,halted⟩
      · intro fd f hf
        by_cases hF : Server.accepted fd s.trace=true
        · obtain ⟨c,g,hg⟩ := (h.accepted fd).mp hF
          have known : f=.foreign := by
            simpa [Kernel.veil,State.enter,hF] using hf.symm
          exact ⟨owns_nonneg housed.wf ⟨_,hg,by simp⟩,known⟩
        · have hf : s.kernel.table fd=some f := by simpa [Kernel.veil,State.enter,hF] using hf
          refine ⟨housed.wf.nonneg fd (by simp [hf]),?_⟩
          by_contra hn
          exact hF (left fd f hf hn)
      · intro p fd
        by_cases hF : Server.accepted fd s.trace=true
        · simp [Kernel.veilWatch,hF]
        · show (if Server.accepted fd s.trace=true then none else s.kernel.watch p fd)=none
          rw [if_neg hF]
          by_contra hw
          have out : F fd=false := by
            by_contra hF'
            exact hF ((h.accepted fd).mpr (housed.aside.attached fd (by simpa using hF')))
          obtain ⟨trigger,ht⟩ := Option.ne_none_iff_exists'.mp hw
          have seen : s.kernel.veilWatch F p fd=some trigger := by simp [veilWatch,out,ht]
          rcases housed.shape.registered p fd trigger seen with ⟨-,-,f,hf⟩|⟨-,c,f,hf,-⟩
          · exact hF (left fd _ (veil_file hf (by simp)).2 (by simp))
          · exact hF (left fd _ (veil_file hf (by simp)).2 (by simp))
    · refine ⟨fun fd hF => (h.accepted fd).mp hF,fun fd ep _ hep => ?_⟩
      rcases hep with ⟨rfl,ne⟩|hw
      · exact absurd epoll ne
      · cases hw
  | _ =>
    rw [hpc] at hp
    cases hp

theorem Timely.clean {a : Action} (h : Timely s (.inside a)) : Clean s a := by
  cases a with
  | stop nested =>
    obtain ⟨rfl,settled⟩ := h
    refine ⟨fun _ => ?_,fun n hn _ => .inl (by cases hn; rfl)⟩
    cases hpc : s.pc with
    | waiting | returned => simp [Pc.pending,Pc.staleEpoll,Pc.staleServer]
    | _ =>
      rw [hpc] at settled
      cases settled
  | reactor r => exact ⟨trivial,by simp⟩
  | env e => exact ⟨trivial,by simp⟩

theorem effects_accepted {k : Kernel} {t : Trace}
    (h : ∀ fd,Server.accepted fd t=true ↔ k.Attached fd) (effects : List Effect) (fd : Fd) :
    Server.accepted fd (effects.foldl Effect.apply (k,t)).2=true ↔
      (effects.foldl Effect.apply (k,t)).1.Attached fd := by
  induction effects generalizing k t with
  | nil => exact h fd
  | cons e effects ih =>
    cases e with
    | close x =>
      apply ih
      intro y
      show (decide (x≠y) && Server.accepted y t)=true ↔ _
      rw [close_attached,← h y,Bool.and_eq_true,decide_eq_true_eq,ne_comm]
    | log a b => exact ih h

theorem step_cycle (ho : idle.options.allocates=true) (s : State) (a : Life) (t : State)
    (h : Cycle idle s) (hc : Timely s a) (hs : life.step s a=some t) : Cycle idle t := by
  cases a with
  | start =>
    have entered : (if s.pc.back then some s.enter else none)=some t := hs
    split at entered <;> cases entered
    rename_i hp
    exact h.enter hp
  | inside a =>
    obtain ⟨F,housed⟩ := h.housed
    have clean := hc.clean
    have disciplined := (step_disciplined s a t ⟨housed,h.disciplined⟩ clean hs).2
    obtain ⟨housed',cleared⟩ := step_cleared s a t ⟨housed,h.cleared⟩ clean.1 hs
    cases a with
    | reactor r =>
      have hr : s.reactor r=some t := hs
      have accepted := reactor_accepted h.accepted hr
      obtain ⟨k,i,q,lines,-,hn,rfl⟩ := reactor_cases hr
      have options : s.impl.options.allocates=true := by
        rw [← ho,← h.kept]
        rfl
      refine ⟨⟨F,housed'⟩,disciplined,cleared,accepted,(next_idle hn).trans h.kept,
        fun back => ?_,next_caught options hn⟩
      by_cases hp : s.pc=.socket
      · have idle := housed.shape.idle (by rw [hp]; rfl)
        rw [hp] at hn
        cases r <;> cases hn
        · exact idle
        · exact idle
      · cases q with
        | returned code => exact next_returned hp hn rfl
        | _ => cases back
    | env e =>
      obtain ⟨k,hk,rfl⟩ := Option.map_eq_some_iff.mp hs
      exact ⟨⟨F,housed'⟩,disciplined,cleared,
        fun fd => (h.accepted fd).trans (env_attached e hk fd).symm,h.kept,h.halted,h.caught⟩
    | stop nested =>
      cases hs
      exact ⟨⟨F,housed'⟩,disciplined,cleared,effects_accepted (t := .stop::s.trace) h.accepted _,
        (stop_kept s.impl nested).trans h.kept,fun _ => (stop_flag s.impl nested).1,h.caught⟩

theorem fresh_cycle (port : Int) (options : TcpOptions) (loggerCb dataCb : Bool)
    (foreign : List Fd) : Cycle { port,options,loggerCb,dataCb }
      (.fresh port options loggerCb dataCb foreign) := by
  have boot := boot_undisturbed port options loggerCb dataCb foreign
  have shape : Shape (State.boot port options loggerCb dataCb foreign).impl (.returned .success)
      (Kernel.boot foreign).table (Kernel.boot foreign).watch := by
    apply boot.owned.shape.goto (fun _ => rfl) (fun _ _ => rfl) <;>
      simp [State.boot,Pc.staleServer,Pc.staleEpoll,Pc.armed,Pc.listens,Pc.setup,Pc.bare,
        Pc.loose,Pc.client,Pc.pending,Pc.mentions]
  have owned : Owned (.fresh port options loggerCb dataCb foreign) :=
    ⟨boot.owned.wf,boot.owned.agrees,shape⟩
  exact ⟨⟨_,owned.housed⟩,trivial,⟨fun _ => rfl,fun _ => rfl⟩,boot.accepted,rfl,fun _ => rfl,
    by simp [State.fresh]⟩

end cycle

/-- `fd` is closed once, and after that it occurs in no call before it was obtained anew. -/
def ClosedOnce (fd : Fd) (newer : Trace) : Prop :=
  ∃ after r before,newer=after++.call (.close fd) r::before ∧
    (∀ c r,.call c r∈before → c≠.close fd ∧ .acquire fd∉c.entries r) ∧
    ∀ later c r earlier,after=later++.call c r::earlier → fd∈c.names → .acquire fd∈ledger earlier

section closing

variable {fd : Fd}

theorem release_call {c : Call} {r : Reply} (h : .release fd∈c.entries r) :
    c=.close fd ∧ fd≠-1 := by
  unfold Call.entries at h
  split at h
  · simp at h
  · simp at h
  · simp [touches] at h
  · split at h
    · simp at h
    · rename_i hn
      cases List.mem_singleton.mp h
      exact ⟨rfl,hn⟩
  · simp [touches] at h

theorem close_releases (hn : fd≠-1) (r : Reply) : (Call.close fd).entries r=[.release fd] := by
  simp [Call.entries,hn]

theorem mem_ledger {c : Call} {r : Reply} {t : Trace} {e : Entry Fd} (hc : .call c r∈t)
    (he : e∈c.entries r) : e∈ledger t :=
  List.mem_flatMap.mpr ⟨_,hc,he⟩

/-- Where in the trace a release of the ledger comes from. -/
theorem ledger_split {t : Trace} {after before : Ledger Fd}
    (h : ledger t=after++.release fd::before) :
    fd≠-1 ∧ ∃ newer r older,t=newer++.call (.close fd) r::older ∧ ledger newer=after ∧
      ledger older=before := by
  induction t generalizing after with
  | nil => simp at h
  | cons e t ih =>
    have split : e.entries++ledger t=after++.release fd::before := h
    rcases List.append_eq_append_iff.mp split with ⟨m,hm,ht⟩|⟨m,he,hm⟩
    · obtain ⟨ne,newer,r,older,rfl,hn,hl⟩ := ih ht
      exact ⟨ne,e::newer,r,older,rfl,by rw [hm,← hn]; rfl,hl⟩
    · cases m with
      | nil =>
        have rest : ledger t=[]++.release fd::before := hm.symm
        obtain ⟨ne,newer,r,older,rfl,hn,hl⟩ := ih rest
        refine ⟨ne,e::newer,r,older,rfl,?_,hl⟩
        show e.entries++ledger newer=after
        rw [hn,he,List.append_nil,List.append_nil]
      | cons x m =>
        obtain ⟨rfl,rest⟩ := List.cons.inj hm
        cases e with
        | call c r =>
          have he : c.entries r=after++.release fd::m := he
          have named : .release fd∈c.entries r := by simp [he]
          obtain ⟨rfl,ne⟩ := release_call named
          rw [close_releases ne] at he
          cases after with
          | nil =>
            cases he
            exact ⟨ne,[],r,t,rfl,rfl,rest.symm⟩
          | cons y after =>
            have lengths := congrArg List.length he
            simp at lengths
        | _ => simp [Event.entries] at he

/-- What is open no longer was closed once. -/
theorem closed_once {newer older : Trace} {c : Call} (hc : c=.socket ∨ c=.epollCreate)
    (hd : Ledger.Disciplined (ledger (newer++.call c (.fd fd)::older)))
    (hn : .acquire fd∉ledger newer → .release fd∉ledger newer →
      Ledger.held fd (ledger (newer++.call c (.fd fd)::older))=false) : ClosedOnce fd newer := by
  have entries : c.entries (.fd fd)=[.acquire fd] := by rcases hc with rfl|rfl <;> rfl
  have split : ledger (newer++.call c (.fd fd)::older)=ledger newer++.acquire fd::ledger older := by
    rw [ledger_append,ledger_call,entries]
    rfl
  rw [split] at hd hn
  rcases hd.released_first with ⟨held,ha,hr⟩|⟨after,before,hl,ha,hr⟩
  · rw [hn ha hr] at held
    cases held
  · obtain ⟨ne,later,r,earlier,rfl,rfl,rfl⟩ := ledger_split hl
    refine ⟨later,r,earlier,rfl,?_,?_⟩
    · intro d r' hm
      refine ⟨?_,fun hacq => ha (mem_ledger hm hacq)⟩
      rintro rfl
      exact hr (mem_ledger hm (by rw [close_releases ne]; exact List.mem_singleton.mpr rfl))
    · rintro x d r' y rfl hm
      rw [hl,ledger_append,ledger_call,List.append_assoc,List.append_assoc,List.append_assoc] at hd
      rcases disciplined_names hd.suffix fd hm with minus|held
      · exact absurd minus ne
      · exact Ledger.held_since held

/-- An accepted descriptor comes from the last call, or was there before it. -/
theorem accepted_call {c : Call} {r : Reply} {t : Trace} (h : accepted fd (.call c r::t)=true) :
    .acquire fd∈c.entries r ∨ c≠.close fd ∧ accepted fd t=true := by
  cases c with
  | accept l =>
    cases r with
    | conn n k =>
      rcases Bool.or_eq_true_iff.mp h with here|before
      · exact .inl (by simp [Call.entries,of_decide_eq_true here])
      · exact .inr ⟨by simp,before⟩
    | _ => exact .inr ⟨by simp,h⟩
  | close n =>
    obtain ⟨other,before⟩ := Bool.and_eq_true_iff.mp h
    exact .inr ⟨by simpa using of_decide_eq_true other,before⟩
  | _ => exact .inr ⟨by simp,h⟩

theorem accepted_held {t : Trace} (h : accepted fd t=true) : Ledger.held fd (ledger t)=true := by
  induction t with
  | nil => cases h
  | cons e t ih =>
    cases e with
    | log | stop => exact ih h
    | call c r =>
      rcases accepted_call h with here|⟨other,before⟩
      · refine Ledger.held_append (fun hr => ?_) (.inl here)
        obtain ⟨rfl,ne⟩ := release_call hr
        rw [close_releases ne] at here
        simp at here
      · exact Ledger.held_append (fun hr => other (release_call hr).1) (.inr (ih before))

theorem accepted_since {newer t : Trace} (hn : .acquire fd∉ledger newer)
    (h : accepted fd (newer++t)=true) : accepted fd t=true := by
  induction newer with
  | nil => exact h
  | cons e newer ih =>
    have rest : .acquire fd∉ledger newer := fun hm => hn (by
      show _∈e.entries++ledger newer
      exact List.mem_append_right _ hm)
    cases e with
    | log | stop => exact ih rest h
    | call c r =>
      rcases accepted_call h with here|⟨-,before⟩
      · exact absurd (List.mem_append_left _ here) hn
      · exact ih rest before

end closing

/-- Whatever a call of `start` has opened for itself is closed once when it has returned. -/
theorem Cycle.closes {idle : Impl} {t : State} (h : Cycle idle t) (hp : t.pc.back=true)
    {newer older : Trace} {c : Call} {fd : Fd} (hc : c=.socket ∨ c=.epollCreate)
    (ht : t.trace=newer++.call c (.fd fd)::older) : ClosedOnce fd newer := by
  have discipline := h.disciplined
  rw [ht] at discipline
  apply closed_once hc discipline
  intro ha _
  rw [← ht]
  by_contra hh
  obtain ⟨F,housed⟩ := h.housed
  have owned : t.kernel.Owns fd := (housed.agrees fd).mp (by simpa using hh)
  have attached : t.kernel.Attached fd := by
    cases hpc : t.pc with
    | returned code => exact (returned_owns housed h.cleared hpc fd).mp owned
    | _ =>
      rw [hpc] at hp
      cases hp
  have late := (h.accepted fd).mpr attached
  rw [ht] at late
  have here := accepted_since ha late
  have before : Server.accepted fd older=true := by rcases hc with rfl|rfl <;> exact here
  have free : Ledger.held fd (ledger older)=false := by
    rw [ledger_append] at discipline
    rcases hc with rfl|rfl <;> exact discipline.suffix.1
  rw [accepted_held before] at free
  cases free

section alone

/-- A server apart from the system that it runs on. -/
structure Alone where
  impl : Impl
  pc : Pc
  trace : Trace

def State.alone (s : State) : Alone := ⟨s.impl,s.pc,s.trace⟩

/-- The line that an effect leaves if it finds open what it closes. -/
def Effect.line : Effect → Event
  | .close fd => .call (.close fd) .ok
  | .log level message => .log level message

def Alone.step (x : Alone) : Life → Option Alone
  | .start => if x.pc.back then some { x with pc := .socket } else none
  | .inside (.reactor r) =>
    (x.pc.next x.impl r).map fun n => ⟨n.1,n.2.1,n.2.2++.call (x.pc.call x.impl) r::x.trace⟩
  | .inside (.stop nested) =>
    let out := x.impl.stop nested
    some ⟨out.1,x.pc,(out.2.map Effect.line).reverse++.stop::x.trace⟩
  | .inside (.env _) => some x

def Alone.machine : Machine Alone Life := ⟨Alone.step⟩

/-- Closes of open descriptors leave the lines one expects. -/
theorem effects_lines {k : Kernel} {tr : Trace} (effects : List Effect)
    (hn : (closing effects).Nodup) (ho : ∀ fd∈closing effects,k.Owns fd) :
    (effects.foldl Effect.apply (k,tr)).2=(effects.map Effect.line).reverse++tr := by
  induction effects generalizing k tr with
  | nil => rfl
  | cons e effects ih =>
    rw [List.map_cons,List.reverse_cons,List.append_assoc]
    cases e with
    | close fd =>
      obtain ⟨alone,hn⟩ := List.nodup_cons.mp hn
      obtain ⟨f,hf,-⟩ := ho fd (by simp)
      have line : closeLine k fd=.call (.close fd) .ok := by simp [closeLine,hf]
      rw [List.foldl_cons,Effect.apply,line]
      apply ih hn
      intro x hx
      apply (Kernel.close_owns fd x).mpr
      exact ⟨fun e => alone (e ▸ hx),ho x (by simp [hx])⟩
    | log a b => exact ih hn ho

variable {idle : Impl} {s t u v : State}

theorem step_alone (s : State) (a : Life) (t : State) (h : Cycle idle s) (hc : Timely s a)
    (hs : life.step s a=some t) (ha : a.own=true) : Alone.machine.step s.alone a=some t.alone := by
  cases a with
  | start =>
    have entered : (if s.pc.back then some s.enter else none)=some t := hs
    split at entered <;> cases entered
    rename_i hp
    exact if_pos hp
  | inside a =>
    cases a with
    | reactor r =>
      obtain ⟨k,i,q,lines,-,hn,rfl⟩ := reactor_cases (show s.reactor r=some t from hs)
      show (s.pc.next s.impl r).map _=_
      rw [hn]
      rfl
    | env e => cases ha
    | stop nested =>
      cases hs
      have trace : (s.stop nested).trace=
          ((s.impl.stop nested).2.map Effect.line).reverse++.stop::s.trace := by
        by_cases hr : s.impl.isRunning=true
        · obtain ⟨F,housed⟩ := h.housed
          obtain ⟨once,own⟩ := stop_closes housed nested hc.clean hr
          exact effects_lines _ once own
        · have hr : s.impl.isRunning=false := by simpa using hr
          rw [stop_idle hr]
          simp [Impl.stop,hr]
      show some _=some (⟨(s.impl.stop nested).1,s.pc,(s.stop nested).trace⟩ : Alone)
      rw [trace]
      rfl

/-- What a server does next does not depend on what it has done before. -/
theorem Alone.step_append (x : Alone) (a : Life) (y : Alone) (older : Trace)
    (h : Alone.machine.step x a=some y) :
    Alone.machine.step { x with trace := x.trace++older } a=
      some { y with trace := y.trace++older } := by
  cases a with
  | start =>
    have entered : (if x.pc.back then some { x with pc := .socket } else none)=some y := h
    split at entered <;> cases entered
    rename_i hp
    exact if_pos hp
  | inside a =>
    cases a with
    | reactor r =>
      obtain ⟨n,hn,rfl⟩ := Option.map_eq_some_iff.mp h
      show (x.pc.next x.impl r).map _=_
      rw [hn]
      simp
    | env e =>
      cases h
      rfl
    | stop nested =>
      cases h
      simp [Alone.machine,Alone.step]

/-- The next call of `start` does what the first one does, if it is answered in the same way. -/
theorem Cycle.repeats {port : Int} {options : TcpOptions} {loggerCb dataCb : Bool}
    {foreign : List Fd} (ho : options.allocates=true)
    (h : Cycle { port,options,loggerCb,dataCb } s) (hp : s.pc.back=true) {as bs : List Life}
    (hc : life.Meets Timely s.enter as) (hr : life.run s.enter as=some t)
    (hc' : life.Meets Timely (.boot port options loggerCb dataCb foreign) bs)
    (hr' : life.run (.boot port options loggerCb dataCb foreign) bs=some u)
    (same : as.filter Life.own=bs.filter Life.own) :
    t.impl=u.impl ∧ t.pc=u.pc ∧ t.trace=u.trace++s.trace := by
  have silent (s : State) (a : Life) (t : State) (hs : life.step s a=some t) (ha : a.own=false) :
      t.alone=s.alone := by
    cases a with
    | start => cases ha
    | inside a =>
      cases a with
      | env e =>
        obtain ⟨k,-,rfl⟩ := Option.map_eq_some_iff.mp hs
        rfl
      | _ => cases ha
  have boot : Cycle { port,options,loggerCb,dataCb } (.boot port options loggerCb dataCb foreign) :=
    (fresh_cycle port options loggerCb dataCb foreign).enter rfl
  have mine := life.projects Alone.machine State.alone Life.own (step_cycle ho) step_alone silent
    as _ t (h.enter hp) hc hr
  have first := life.projects Alone.machine State.alone Life.own (step_cycle ho) step_alone silent
    bs _ u boot hc' hr'
  have start : s.enter.alone={ (State.boot port options loggerCb dataCb foreign).alone with
      trace := [] ++ s.trace } := by
    show (⟨s.impl,.socket,s.trace⟩ : Alone)=_
    rw [h.rests hp]
    rfl
  obtain ⟨w,hw,rfl⟩ := Alone.machine.simulates Alone.machine
    (R := fun x y => y={ x with trace := x.trace++s.trace }) (C := fun _ => True)
    (fun x y a z hy _ hz => ⟨_,hy ▸ Alone.step_append x a z s.trace hz,rfl⟩)
    (bs.filter Life.own) (by simp) _ s.enter.alone u.alone start first
  rw [same,hw] at mine
  have heq := Option.some.inj mine
  exact ⟨(congrArg Alone.impl heq).symm,(congrArg Alone.pc heq).symm,
    (congrArg Alone.trace heq).symm⟩

end alone

section runs

variable (port : Int) (options : TcpOptions) (loggerCb dataCb : Bool) (foreign : List Fd)

/-- Calls of `start` and timely `stop()`s in any order use only what is open, and every call of
`start` leaves the object as it found it: what was opened for the listening socket and the epoll
instance is closed once, the destructor included, and the next call starts from scratch. -/
theorem server_restarts (ho : options.allocates=true) (as : List Life) (t : State)
    (hc : life.Meets Timely (.fresh port options loggerCb dataCb foreign) as)
    (hr : life.run (.fresh port options loggerCb dataCb foreign) as=some t) :
    t.pc≠.threw ∧
    (∀ newer c r older,t.trace=newer++.call c r::older →
      ∀ fd∈c.names,fd=-1 ∨ Ledger.held fd (ledger older)=true) ∧
    ∀ code,t.pc=.returned code →
      t.impl={ port,options,loggerCb,dataCb } ∧
      (∀ newer c fd older,c=.socket ∨ c=.epollCreate →
        (t.stop 0).trace=newer++.call c (.fd fd)::older → ClosedOnce fd newer) ∧
      ∀ foreign' bs bs' u u',life.Meets Timely t.enter bs → life.run t.enter bs=some u →
        life.Meets Timely (.boot port options loggerCb dataCb foreign') bs' →
        life.run (.boot port options loggerCb dataCb foreign') bs'=some u' →
        bs.filter Life.own=bs'.filter Life.own →
        u.impl=u'.impl ∧ u.pc=u'.pc ∧ u.trace=u'.trace++t.trace := by
  have h := life.invariant (step_cycle ho) as _ t
    (fresh_cycle port options loggerCb dataCb foreign) hc hr
  refine ⟨h.caught,?_,fun code hp => ?_⟩
  · intro newer c r older ht
    have discipline := h.disciplined
    rw [ht,ledger_append,ledger_call] at discipline
    exact disciplined_names discipline.suffix
  · have back : t.pc.back=true := by rw [hp]; rfl
    refine ⟨h.rests back,?_,
      fun foreign' bs bs' u u' hc hr hc' hr' => h.repeats ho back hc hr hc' hr'⟩
    intro newer c fd older hopen ht
    have settled : t.pc.settled=true := by rw [hp]; rfl
    have destroyed := step_cycle ho t (.inside (.stop 0)) _ h ⟨rfl,settled⟩ rfl
    exact destroyed.closes back hopen ht

end runs

/-- The port is taken; `stop()`; then a client is accepted, and `stop()` comes while the reactor
waits for it. -/
def busyThenStopped : List Life :=
  ([.start]++[.inside (.reactor (.fd 3)),.inside (.reactor .ok),.inside (.reactor (.flags 2)),
    .inside (.reactor .ok),.inside (.reactor (.fail (.other 98)))]++
    List.replicate 5 (.inside (.reactor .ok)))++[.inside (.stop 0),.start]++
    oneClient.map .inside++[.inside (.reactor .ok),.inside (.stop 0),
      .inside (.reactor (.fail .eintr)),.inside (.reactor .ok),.inside (.reactor .ok),
      .inside (.reactor .ok),.inside (.reactor .ok)]

theorem server_restarts_busy_then_stopped : ∃ t,
    life.run (.fresh 8080 {} false true []) busyThenStopped=some t ∧
    t.impl={ port := 8080,options := {},loggerCb := false,dataCb := true } := by
  have run : (life.run (.fresh 8080 {} false true []) busyThenStopped).map State.pc=
      some (.returned .success) := by
    decide +kernel
  obtain ⟨t,ht,hp⟩ := Option.map_eq_some_iff.mp run
  exact ⟨t,ht,((server_restarts 8080 {} false true [] (by decide) _ t (by decide +kernel) ht).2.2
    .success hp).1⟩

end TuyulNet.Server
