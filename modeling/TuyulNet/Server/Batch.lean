import Mathlib.Algebra.BigOperators.Ring.List
import Mathlib.Algebra.Ring.Nat
import Mathlib.Algebra.Order.BigOperators.Group.Finset
import TuyulNet.Server.Readiness

namespace TuyulNet

open Framework Kernel

namespace Kernel

variable {k k' : Kernel} {c : Call} {r : Reply}

/-- All bytes that have arrived and not been read. -/
def unread (k : Kernel) : Nat :=
  (Finset.range k.born).sum fun c => (k.conns c).pipe.unread.length

theorem close_frame (fd : Fd) : (k.close fd).born=k.born ∧
    ∀ m,((k.close fd).backlog m).length≤(k.backlog m).length := by
  unfold close
  split
  · exact ⟨rfl,fun _ => le_rfl⟩
  · refine ⟨rfl,fun m => ?_⟩
    by_cases hm : m=fd <;> simp [hm]

theorem answer_frame (hc : ∀ fd res,c≠.connect fd res) (h : k.answer c r=some k') :
    k'.born=k.born ∧ ∀ m,(k'.backlog m).length≤(k.backlog m).length := by
  cases answer_answers h with
  | @accept l =>
    refine ⟨rfl,fun m => ?_⟩
    by_cases hm : m=l <;> simp [accept,hm]
  | @close fd => exact close_frame fd
  | connect => exact absurd rfl (hc _ _)
  | _ => exact ⟨rfl,fun _ => le_rfl⟩

theorem accept_backlog {l : Fd} {n : Fd} {d : ConnId}
    (h : k.answer (.accept l) (.conn n d)=some k') :
    (k'.backlog l).length+1≤(k.backlog l).length := by
  have h : k.answerAccept l (.conn n d)=some k' := h
  rcases answerAccept_cases h with ⟨n,c,f,-,-,-,hb,rfl⟩|⟨e,he,-⟩
  · cases hl : k.backlog l with
    | nil =>
      rw [hl] at hb
      cases hb
    | cons a rest => simp [accept,hl]
  · cases he

theorem answer_unread (hw : k.Wf) (hc : ∀ fd res,c≠.connect fd res)
    (h : k.answer c r=some k') : k'.unread≤k.unread := by
  unfold unread
  rw [(answer_frame hc h).1]
  apply Finset.sum_le_sum
  intro d _
  rcases answer_pipe hw h d with heq|⟨fd,count,bs,f,-,-,-,-,-,hp⟩
  · rw [heq]
  · obtain ⟨-,hu,-⟩ := Pipe.take_spec _ _ bs hp
    rw [hu,List.length_drop]
    exact Nat.sub_le _ _

/-- A read that returns data leaves fewer bytes to read. -/
theorem read_unread (hw : k.Wf) {fd : Fd} {count f : Nat} {bs : Bytes} {d : ConnId}
    (hf : k.table fd=some (.conn d f)) (hb : bs≠[])
    (h : k.answer (.read fd count) (.data bs)=some k') : k'.unread+1≤k.unread := by
  have less : ∀ e∈Finset.range k.born,
      (k'.conns e).pipe.unread.length≤(k.conns e).pipe.unread.length := by
    intro e _
    rcases answer_pipe hw h e with heq|⟨fd,count,bs,f,-,-,-,-,-,hp⟩
    · rw [heq]
    · obtain ⟨-,hu,-⟩ := Pipe.take_spec _ _ bs hp
      rw [hu,List.length_drop]
      exact Nat.sub_le _ _
  have strict : (k'.conns d).pipe.unread.length<(k.conns d).pipe.unread.length := by
    have h : k.answerRead fd count (.data bs)=some k' := h
    rcases answerRead_cases hf h with ⟨cs,hx,-,-,p,hp,rfl⟩|⟨hx,-⟩|⟨e,hx,-⟩
    · cases hx
      obtain ⟨hpre,hu,-⟩ := Pipe.take_spec _ p bs hp
      rw [setPipe_pipe,if_pos rfl,hu,List.length_drop]
      have nonempty : 0<bs.length := List.length_pos_iff.mpr hb
      have fits := hpre.length_le
      omega
    · cases hx
      exact absurd rfl hb
    · cases hx
  unfold unread
  rw [(answer_frame (by simp) h).1]
  exact Finset.sum_lt_sum less ⟨d,Finset.mem_range.mpr (hw.attached fd d f hf).2,strict⟩

theorem setPipe_unread (c : ConnId) (p : Pipe Byte) (hb : c<k.born) :
    (k.setPipe c p).unread+(k.conns c).pipe.unread.length=k.unread+p.unread.length := by
  have hm : c∈Finset.range k.born := Finset.mem_range.mpr hb
  have rest : ((Finset.range k.born).erase c).sum (fun d =>
      ((k.setPipe c p).conns d).pipe.unread.length)=
      ((Finset.range k.born).erase c).sum fun d => (k.conns d).pipe.unread.length := by
    apply Finset.sum_congr rfl
    intro d hd
    rw [setPipe_pipe,if_neg (Finset.ne_of_mem_erase hd)]
  have after := Finset.add_sum_erase _ (fun d => ((k.setPipe c p).conns d).pipe.unread.length) hm
  have before := Finset.add_sum_erase _ (fun d => (k.conns d).pipe.unread.length) hm
  rw [rest,setPipe_pipe,if_pos rfl] at after
  have new : (k.setPipe c p).unread=p.unread.length+((Finset.range k.born).erase c).sum fun d =>
      (k.conns d).pipe.unread.length := after.symm
  have old : k.unread=(k.conns c).pipe.unread.length+((Finset.range k.born).erase c).sum fun d =>
      (k.conns d).pipe.unread.length := before.symm
  omega

theorem wake_fields (c : ConnId) : (k.wake c).unread=k.unread ∧ (k.wake c).backlog=k.backlog := by
  unfold wake
  split <;> exact ⟨rfl,rfl⟩

/-- Connections and bytes that arrive. -/
def Env.arrivals : Env → Nat
  | .connect _ => 1
  | .arrive _ n => n
  | _ => 0

theorem env_arrivals (e : Env) (h : k.env e=some k') (m : Fd) :
    5*(k'.backlog m).length+2*k'.unread≤
      5*(k.backlog m).length+2*k.unread+5*e.arrivals := by
  have queue (c : ConnId) (p : Pipe Byte) : (k.setPipe c p).backlog=k.backlog := rfl
  cases env_evolves h with
  | @connect l =>
    have bytes : (notify { k with
        backlog := Function.update k.backlog l (k.backlog l++[k.born])
        conns := Function.update k.conns k.born .new
        born := k.born+1 } l).unread=k.unread := by
      show (Finset.range (k.born+1)).sum (fun c =>
        ((Function.update k.conns k.born .new) c).pipe.unread.length)=_
      rw [Finset.sum_range_succ,Function.update_self]
      show _+0=_
      rw [Nat.add_zero]
      apply Finset.sum_congr rfl
      intro c hc
      rw [Function.update_of_ne (Finset.mem_range.mp hc).ne]
    have queue : ((notify { k with
        backlog := Function.update k.backlog l (k.backlog l++[k.born])
        conns := Function.update k.conns k.born .new
        born := k.born+1 } l).backlog m).length≤(k.backlog m).length+1 := by
      show (Function.update k.backlog l (k.backlog l++[k.born]) m).length≤_
      by_cases hm : m=l <;> simp [hm]
    rw [bytes]
    simp only [Env.arrivals]
    omega
  | @send c bs p born pipe =>
    have bytes := setPipe_unread c p born
    rw [(Pipe.send_spec _ p bs pipe).2.2.2.2.2.2.1] at bytes
    rw [queue]
    omega
  | @shut c born =>
    have bytes := setPipe_unread c (k.conns c).pipe.shut born
    have same : (k.conns c).pipe.shut.unread=(k.conns c).pipe.unread := rfl
    rw [same] at bytes
    rw [queue]
    omega
  | @arrive c n p born pipe =>
    obtain ⟨unread,backlog⟩ := wake_fields (k := k.setPipe c p) c
    have bytes := setPipe_unread c p born
    rw [(Pipe.arrive_spec _ p n pipe).2.2.2.2.2.1,List.length_append,List.length_take] at bytes
    rw [unread,backlog,queue]
    simp only [Env.arrivals]
    omega
  | @finish c p born pipe =>
    obtain ⟨unread,backlog⟩ := wake_fields (k := k.setPipe c p) c
    have bytes := setPipe_unread c p born
    rw [(Pipe.finish_spec _ p pipe).2.2.2.2.2.2.1] at bytes
    rw [unread,backlog,queue]
    omega
  | @tear c n born =>
    obtain ⟨unread,backlog⟩ := wake_fields (k := k.setPipe c ((k.conns c).pipe.tear n)) c
    have bytes := setPipe_unread c ((k.conns c).pipe.tear n) born
    have less : ((k.conns c).pipe.tear n).unread.length≤(k.conns c).pipe.unread.length := by
      show ((k.conns c).pipe.unread.take n).length≤_
      rw [List.length_take]
      exact min_le_right _ _
    rw [unread,backlog,queue]
    omega
  | prune | openForeign => exact Nat.le_add_right _ _
  | @closeForeign n =>
    obtain ⟨born,backlog⟩ := close_frame (k := k) n
    have bytes : (k.close n).unread=k.unread := by
      unfold unread
      rw [born]
      exact Finset.sum_congr rfl fun c _ => by rw [close_pipe]
    have shorter := backlog m
    rw [bytes]
    omega

end Kernel

namespace Server

/-- Steps that `start` may still take in its batch if nothing more arrives. -/
def Pc.work : Pc → Nat
  | .batch fds => 4*fds.length+1
  | .accept rest => 4*rest.length+2
  | .getFl _ (.client rest) => 4*rest.length+6
  | .setFl _ _ (.client rest) => 4*rest.length+5
  | .addClient _ rest => 4*rest.length+4
  | .reject _ rest | .delClient _ rest => 4*rest.length+3
  | .read _ rest => 4*rest.length+4
  | .deliver _ _ rest => 4*rest.length+5
  | .closeClient _ rest => 4*rest.length+2
  | _ => 0

def potential (s : State) : Nat :=
  5*(s.kernel.backlog s.impl.serverFd).length+2*s.kernel.unread+s.pc.work

def Action.cost (a : Action) : Nat := a.isReactor.toNat

def Action.arrivals : Action → Nat
  | .env e => e.arrivals
  | _ => 0

/-- Each step in a batch finishes a piece of work, except that an accepted
connection and a chunk of data add some. -/
theorem next_work {i j : Impl} {pc q : Pc} {r : Reply} {lines : Trace} (hb : pc.inBatch=true)
    (hn : pc.next i r=some (j,q,lines)) : j=i ∧ (q.work+1≤pc.work ∨
      (∃ rest n c,pc=.accept rest ∧ r=.conn n c ∧ q.work=pc.work+4) ∨
      ∃ fd rest bs,pc=.read fd rest ∧ r=.data bs ∧ bs≠[] ∧ q.work≤pc.work+1) := by
  cases pc with
  | batch fds =>
    cases fds with
    | nil =>
      cases r <;> cases hn
      exact ⟨rfl,.inl le_rfl⟩
    | cons fd rest =>
      cases r <;> cases hn
      refine ⟨rfl,.inl ?_⟩
      split <;> simp only [Pc.work,List.length_cons] <;> omega
  | accept rest =>
    cases r <;> cases hn
    · exact ⟨rfl,.inl le_rfl⟩
    · exact ⟨rfl,.inr (.inl ⟨rest,_,_,rfl,rfl,rfl⟩)⟩
  | getFl fd caller =>
    cases caller with
    | setup => cases hb
    | client rest =>
      cases r <;> cases hn <;> exact ⟨rfl,.inl (by simp only [Pc.work]; omega)⟩
  | setFl fd flags caller =>
    cases caller with
    | setup => cases hb
    | client rest =>
      cases r <;> cases hn <;> exact ⟨rfl,.inl (by simp only [Pc.work]; omega)⟩
  | addClient fd rest | reject fd rest | deliver fd bs rest | delClient fd rest
  | closeClient fd rest =>
    cases r <;> cases hn <;> exact ⟨rfl,.inl (by simp only [Pc.work]; omega)⟩
  | read fd rest =>
    cases r with
    | data bs =>
      simp only [Pc.next,drainNext] at hn
      split at hn
      · cases hn
        exact ⟨rfl,.inl le_rfl⟩
      · rename_i hne
        cases hn
        refine ⟨rfl,.inr (.inr ⟨fd,rest,bs,rfl,rfl,hne,?_⟩)⟩
        split <;> simp only [Pc.work] <;> omega
    | fail e =>
      simp only [Pc.next,drainNext] at hn
      split at hn <;> cases hn <;> exact ⟨rfl,.inl (by simp only [Pc.work]; omega)⟩
    | _ => cases hn
  | _ => cases hb

theorem batch_pays (s : State) (a : Action) (t : State) (h : Owned s)
    (hc : s.pc.inBatch=true ∧ a.isStop=false) (hs : machine.step s a=some t) :
    potential t+a.cost≤potential s+5*a.arrivals := by
  cases a with
  | stop nested => cases hc.2
  | env e =>
    obtain ⟨k,hk,rfl⟩ := Option.map_eq_some_iff.mp hs
    have paid := env_arrivals e hk s.impl.serverFd
    simp only [potential,Action.cost,Action.arrivals,Action.isReactor,Bool.toNat_false]
    omega
  | reactor r =>
    obtain ⟨k,i,pc,lines,hk,hn,rfl⟩ := reactor_cases hs
    have wf := h.wf
    have connects := call_not_connect s.impl s.pc
    have queue := (answer_frame connects hk).2 s.impl.serverFd
    have bytes := answer_unread wf connects hk
    obtain ⟨rfl,hw⟩ := next_work hc.1 hn
    simp only [potential,Action.cost,Action.arrivals,Action.isReactor,Bool.toNat_true]
    rcases hw with hw|⟨rest,n,c,hp,rfl,hw⟩|⟨fd,rest,bs,hp,rfl,hne,hw⟩
    · omega
    · rw [hp] at hk
      have fewer := accept_backlog hk
      omega
    · obtain ⟨d,f,hf⟩ := h.shape.client fd (by rw [hp]; rfl)
      rw [hp] at hk
      have fewer := read_unread wf hf hne hk
      omega

theorem answerUnit_replies {ok : Option Kernel} {k k' : Kernel} {r : Reply}
    (h : k.answerUnit ok r=some k') : r=.ok ∨ ∃ e,r=.fail e := by
  rcases answerUnit_cases h with ⟨hr,-⟩|⟨e,hr,-⟩
  · exact .inl hr
  · exact .inr ⟨e,hr⟩

/-- `start` has an answer to every reply that it can get in a batch. -/
theorem batch_handles {i : Impl} {pc : Pc} {k k' : Kernel} {r : Reply} (hb : pc.inBatch=true)
    (h : k.answer (pc.call i) r=some k') : ∃ x,pc.next i r=some x := by
  cases pc with
  | batch fds =>
    cases r with
    | ok => cases fds <;> exact ⟨_,rfl⟩
    | _ => cases h
  | accept rest =>
    cases r with
    | conn n c | fail e => exact ⟨_,rfl⟩
    | _ => cases h
  | getFl fd caller =>
    cases caller with
    | setup => cases hb
    | client rest =>
      cases r with
      | flags n | fail e => exact ⟨_,rfl⟩
      | _ => cases h
  | setFl fd flags caller =>
    cases caller with
    | setup => cases hb
    | client rest => obtain rfl|⟨e,rfl⟩ := answerUnit_replies h <;> exact ⟨_,rfl⟩
  | addClient fd rest | delClient fd rest =>
    obtain rfl|⟨e,rfl⟩ := answerUnit_replies h <;> exact ⟨_,rfl⟩
  | reject fd rest | closeClient fd rest =>
    obtain ⟨-,rfl|⟨e,rfl⟩⟩ := answerClose_cases h <;> exact ⟨_,rfl⟩
  | read fd rest =>
    cases r with
    | data bs =>
      by_cases hbs : bs=[]
      · exact ⟨_,if_pos hbs⟩
      · exact ⟨_,if_neg hbs⟩
    | fail e =>
      cases he : e.wouldBlock with
      | true => exact ⟨_,if_pos he⟩
      | false => exact ⟨_,if_neg (by simp [he])⟩
    | _ => cases h
  | deliver fd bs rest =>
    cases r with
    | ok => exact ⟨_,rfl⟩
    | _ => cases h
  | _ => cases hb

/-- The kernel has a reply to every call of a batch. -/
theorem batch_answers {s : State} (h : Undisturbed s) (hb : s.pc.inBatch=true) :
    ∃ r k,s.kernel.answer (s.pc.call s.impl) r=some k := by
  cases hp : s.pc with
  | batch fds => exact ⟨.ok,s.kernel,rfl⟩
  | deliver fd bs rest => exact ⟨.ok,s.kernel,rfl⟩
  | reject fd rest | closeClient fd rest =>
    obtain ⟨c,f,hf⟩ := h.owned.shape.client fd (by rw [hp]; rfl)
    exact ⟨.ok,s.kernel.close fd,by simp [Pc.call,answer,answerClose,hf]⟩
  | accept | getFl | setFl | addClient | read | delClient =>
    exact ⟨.fail (.other 1),s.kernel,rfl⟩
  | _ =>
    rw [hp] at hb
    cases hb

/-- In a batch `start` is never stuck: it has an answer to every reply, and the
kernel has a reply to every call. -/
theorem batch_goes_on {s : State} (h : Undisturbed s) (hb : s.pc.inBatch=true) :
    (∃ r t,machine.step s (.reactor r)=some t) ∧
      ∀ r k,s.kernel.answer (s.pc.call s.impl) r=some k →
        ∃ t,machine.step s (.reactor r)=some t := by
  have handles : ∀ r k,s.kernel.answer (s.pc.call s.impl) r=some k →
      ∃ t,machine.step s (.reactor r)=some t := by
    intro r k hk
    obtain ⟨⟨i,pc,lines⟩,hn⟩ := batch_handles hb hk
    exact ⟨⟨i,pc,k,lines++.call (s.pc.call s.impl) r::s.trace⟩,
      by simp [step,State.reactor,hk,hn]⟩
  refine ⟨?_,handles⟩
  obtain ⟨r,k,hk⟩ := batch_answers h hb
  obtain ⟨t,ht⟩ := handles r k hk
  exact ⟨r,t,ht⟩

section runs

variable (port : Int) (options : TcpOptions) (loggerCb dataCb : Bool) (foreign : List Fd)

theorem run_watched {as : List Action} {t : State} (hn : ∀ a∈as,a.isStop=false)
    (hr : machine.run (.boot port options loggerCb dataCb foreign) as=some t) :
    Undisturbed t ∧ Watched t := by
  apply machine.invariant (fun s a t h ha hs => step_watched s a t h ha hs) as _ t _
    (Machine.Meets.of_actions machine as hn _) hr
  exact ⟨boot_undisturbed port options loggerCb dataCb foreign,by simp [State.boot,Pc.active],
    by simp [State.boot]⟩

/-- While `start` is in `epoll_wait` the ready list holds every client with input
and the listening socket if connections are waiting. -/
theorem waiting_ready {t : State} (h : Undisturbed t) (hw : Watched t)
    (hp : t.pc=.epollWait ∨ ∃ ep,t.pc=.waiting ep) :
    (∀ fd c f,t.kernel.table fd=some (.conn c f) → t.kernel.watch t.impl.epollFd fd≠none →
      (t.kernel.conns c).pipe.unread≠[] ∨ (t.kernel.conns c).pipe.ending≠.flowing →
      fd∈(t.kernel.polls t.impl.epollFd).ready) ∧
    (t.kernel.backlog t.impl.serverFd≠[] →
      t.impl.serverFd∈(t.kernel.polls t.impl.epollFd).ready) := by
  have place : t.pc.active=true ∧ t.pc.bare=false ∧ t.pc.armed=true ∧ t.pc.listens=true ∧
      t.pc.pending=[] := by
    rcases hp with hp|⟨ep,hp⟩ <;> rw [hp] <;> exact ⟨rfl,rfl,rfl,rfl,rfl⟩
  obtain ⟨active,bare,arms,listens,pending⟩ := place
  have awake := hw.awake active
  rw [pending] at awake
  have ready {fd : Fd} (hi : t.kernel.watch t.impl.epollFd fd≠none)
      (hr : t.kernel.readable fd=true) : fd∈(t.kernel.polls t.impl.epollFd).ready :=
    (awake.covers fd hi hr).resolve_right (by simp)
  constructor
  · intro fd c f hf hi hr
    apply ready hi
    simp only [readable,hf,Pipe.readable]
    rcases hr with hu|he
    · simp [hu]
    · simp [he]
  · intro hb
    have server := h.live.server active
    have armed := h.owned.shape.armed arms server (h.live.epoll active bare)
    obtain ⟨f,hf⟩ := h.owned.shape.listener listens server
    apply ready
    · rw [armed]
      simp
    · simp only [readable,hf]
      simp [hb]

/-- In a run without `stop()` no input is lost on the way to `epoll_wait`; a batch
takes no more steps than the arrivals allow, it is never stuck, and it ends when
the arrivals do. -/
theorem no_lost_readiness (as : List Action) (t : State) (hn : ∀ a∈as,a.isStop=false)
    (hr : machine.run (.boot port options loggerCb dataCb foreign) as=some t) :
    (t.pc=.epollWait ∨ (∃ ep,t.pc=.waiting ep) →
      (∀ fd c f,t.kernel.table fd=some (.conn c f) → t.kernel.watch t.impl.epollFd fd≠none →
        (t.kernel.conns c).pipe.unread≠[] ∨ (t.kernel.conns c).pipe.ending≠.flowing →
        fd∈(t.kernel.polls t.impl.epollFd).ready) ∧
      (t.kernel.backlog t.impl.serverFd≠[] →
        t.impl.serverFd∈(t.kernel.polls t.impl.epollFd).ready)) ∧
    (∀ bs u,machine.Meets (fun s a => s.pc.inBatch=true ∧ a.isStop=false) t bs →
      machine.run t bs=some u →
      bs.countP Action.isReactor≤potential t+5*(bs.map Action.arrivals).sum) ∧
    (∀ σ α,machine.Runs σ α → σ 0=t → (∀ n,(α n).isStop=false) →
      (∀ n,∃ m≥n,(α m).isReactor=true) →
      (∃ bound,∀ n,(((List.range n).map α).map Action.arrivals).sum≤bound) →
      ∃ n,(σ n).pc.inBatch=false) ∧
    (t.pc.inBatch=true → ∃ r u,machine.step t (.reactor r)=some u) := by
  have h := run_watched port options loggerCb dataCb foreign hn hr
  have keeps (s : State) (a : Action) (u : State) (hs : Undisturbed s)
      (hc : s.pc.inBatch=true ∧ a.isStop=false) (hu : machine.step s a=some u) : Undisturbed u :=
    step_undisturbed s a u hs hc.2 hu
  have sums (bs : List Action) :
      (bs.map fun a => 5*a.arrivals).sum=5*(bs.map Action.arrivals).sum :=
    List.sum_map_mul_left bs Action.arrivals 5
  refine ⟨waiting_ready h.1 h.2,?_,?_,fun hb => (batch_goes_on h.1 hb).1⟩
  · intro bs u hm hu
    have paid := machine.bounded_cost potential Action.cost (fun a => 5*a.arrivals) keeps
      (fun s a u hs => batch_pays s a u hs.owned) bs t u h.1 hm hu
    have count : (bs.map Action.cost).sum=bs.countP Action.isReactor := by
      clear hm hu paid
      induction bs with
      | nil => rfl
      | cons b bs ih =>
        rw [List.map_cons,List.sum_cons,ih,List.countP_cons]
        cases hb : b.isReactor <;> simp [Action.cost,hb,Nat.add_comm]
    rw [sums,count] at paid
    omega
  · rintro σ α runs h0 hstop fair ⟨bound,hbound⟩
    have h0' : Undisturbed (σ 0) := h0 ▸ h.1
    have paid (n : Nat) : ∃ m≥n,0<(α m).cost := by
      obtain ⟨m,hm,hr⟩ := fair n
      exact ⟨m,hm,by simp [Action.cost,hr]⟩
    obtain ⟨n,hn⟩ := Machine.leaves machine potential Action.cost (fun a => 5*a.arrivals) keeps
      (fun s a u hs => batch_pays s a u hs.owned) runs h0' paid (5*bound) (fun n => by
        rw [sums]
        exact Nat.mul_le_mul_left 5 (hbound n))
    refine ⟨n,?_⟩
    have out : ¬(σ n).pc.inBatch=true := fun hin => hn ⟨hin,hstop n⟩
    simpa using out

theorem no_lost_readiness_backlog : ∃ t,
    machine.run (.boot 8080 {} false true []) (stopPending.take 25)=some t ∧ t.pc=.epollWait ∧
    t.impl.serverFd∈(t.kernel.polls t.impl.epollFd).ready := by
  have run : (machine.run (.boot 8080 {} false true []) (stopPending.take 25)).map (fun t =>
      (t.pc,t.kernel.backlog t.impl.serverFd))=some (.epollWait,[1]) := by
    decide +kernel
  obtain ⟨t,ht,heq⟩ := Option.map_eq_some_iff.mp run
  obtain ⟨hp,hb⟩ := Prod.mk.injEq .. ▸ heq
  have ready := (no_lost_readiness 8080 {} false true [] _ t (by decide +kernel) ht).1 (.inl hp)
  exact ⟨t,ht,hp,ready.2 (by simp [hb])⟩

end runs

end Server

end TuyulNet
