import TuyulNet.Kernel.State

namespace TuyulNet

open Framework

/-- The bytes that a call hands to the connection open under `o`. -/
def Call.accepted (o : Option Fd) : Call → Reply → Bytes
  | .write fd payload,.wrote n => if o=some fd then payload.take n else []
  | _,_ => []

namespace Kernel

/-- A call with its reply, and what it does. -/
inductive Answers (k : Kernel) : Call → Reply → Kernel → Prop
  | same {c : Call} {r : Reply} (entries : c.entries r=touches c.names)
    (silent : ∀ o,c.accepted o r=[]) : Answers k c r k
  | socket {n : Fd} (fresh : k.fresh n=true) : Answers k .socket (.fd n) (k.install n (.sock 0))
  | setFlags {fd : Fd} {n : Nat} {f : File} (file : k.table fd=some f) :
    Answers k (.setFlags fd n) .ok (k.install fd (f.withFlags n))
  | listen {fd : Fd} {f : Nat} {g : File} (file : k.table fd=some g)
    (kind : g=.sock f ∨ g=.listener f) :
    Answers k (.listen fd) .ok (k.install fd (.listener f))
  | epollCreate {n : Fd} (fresh : k.fresh n=true) : Answers k .epollCreate (.fd n)
    { k.install n .epoll with polls := Function.update k.polls n .empty }
  | epollAdd {ep fd : Fd} {t : Trigger} (file : (k.table fd).isSome=true) :
    Answers k (.epollAdd ep fd t) .ok (k.register ep fd t)
  | epollDel {ep fd : Fd} : Answers k (.epollDel ep fd) .ok (k.deregister ep fd)
  | harvest {ep : Fd} {maxEvents : Int} {es : List PollEvent} :
    Answers k (.epollReturn ep maxEvents) (.events es) { k with
      polls := Function.update k.polls ep ((k.polls ep).harvest (es.map PollEvent.fd)) }
  | accept {l n : Fd} {c : ConnId} (fresh : k.fresh n=true)
    (head : (k.backlog l).head?=some c) : Answers k (.accept l) (.conn n c) (k.accept l n c)
  | read {fd : Fd} {count a : Nat} {bs : Bytes} {c : ConnId} {p : Pipe Byte}
    (file : k.table fd=some (.conn c a)) (more : bs≠[]) (fits : bs.length ≤ count)
    (take : (k.conns c).pipe.take bs=some p) :
    Answers k (.read fd count) (.data bs) (k.setPipe c p)
  | write {fd : Fd} {payload : Bytes} {n a : Nat} {c : ConnId}
    (file : k.table fd=some (.conn c a)) : Answers k (.write fd payload) (.wrote n)
      (k.setConn c { k.conns c with out := (k.conns c).out++payload.take n })
  | close {fd : Fd} {r : Reply} : Answers k (.close fd) r (k.close fd)
  | connect {fd : Fd} {res f : Nat} (file : k.table fd=some (.sock f)) :
    Answers k (.connect fd res) .ok { k with
      table := Function.update k.table fd (some (.conn k.born f))
      conns := Function.update k.conns k.born { Conn.new with fd := some fd }
      born := k.born+1 }

/-- What is done from outside, and what it does. -/
inductive Evolves (k : Kernel) : Env → Kernel → Prop
  | connect {l : Fd} {f : Nat} (file : k.table l=some (.listener f)) :
    Evolves k (.connect l) (notify { k with
      backlog := Function.update k.backlog l (k.backlog l++[k.born])
      conns := Function.update k.conns k.born .new
      born := k.born+1 } l)
  | send {c : ConnId} {bs : Bytes} {p : Pipe Byte} (born : c < k.born)
    (pipe : (k.conns c).pipe.send bs=some p) : Evolves k (.send c bs) (k.setPipe c p)
  | shut {c : ConnId} (born : c < k.born) :
    Evolves k (.shut c) (k.setPipe c (k.conns c).pipe.shut)
  | arrive {c : ConnId} {n : Nat} {p : Pipe Byte} (born : c < k.born)
    (pipe : (k.conns c).pipe.arrive n=some p) :
    Evolves k (.arrive c n) ((k.setPipe c p).wake c)
  | finish {c : ConnId} {p : Pipe Byte} (born : c < k.born)
    (pipe : (k.conns c).pipe.finish=some p) : Evolves k (.finish c) ((k.setPipe c p).wake c)
  | tear {c : ConnId} {n : Nat} (born : c < k.born) :
    Evolves k (.tear c n) ((k.setPipe c ((k.conns c).pipe.tear n)).wake c)
  | prune {ep fd : Fd} (quiet : k.readable fd=false) : Evolves k (.prune ep fd)
    { k with polls := Function.update k.polls ep ((k.polls ep).prune fd) }
  | openForeign {fd : Fd} (fresh : k.fresh fd=true) :
    Evolves k (.openForeign fd) (k.install fd .foreign)
  | closeForeign {fd : Fd} (file : k.table fd=some .foreign) :
    Evolves k (.closeForeign fd) (k.close fd)

variable {k k' : Kernel} {r : Reply}

theorem answerUnit_cases {ok : Option Kernel} (h : k.answerUnit ok r=some k') :
    (r=.ok ∧ ok=some k') ∨ (∃ e,r=.fail e ∧ k'=k) := by
  cases r with
  | ok => exact .inl ⟨rfl,h⟩
  | fail e => exact .inr ⟨e,rfl,(Option.some.inj h).symm⟩
  | _ => cases h

theorem answerOpen_cases {f : File} (h : k.answerOpen f r=some k') :
    (∃ n,r=.fd n ∧ k.fresh n=true ∧ k'=k.install n f) ∨ (∃ e,r=.fail e ∧ k'=k) := by
  cases r with
  | fd n =>
    simp only [answerOpen] at h
    split at h
    · exact .inl ⟨n,rfl,by assumption,(Option.some.inj h).symm⟩
    · cases h
  | fail e => exact .inr ⟨e,rfl,(Option.some.inj h).symm⟩
  | _ => cases h

theorem answerEpollCreate_cases (h : k.answerEpollCreate r=some k') :
    (∃ n,r=.fd n ∧ k.fresh n=true ∧
      k'={ k.install n .epoll with polls := Function.update k.polls n .empty }) ∨
    (∃ e,r=.fail e ∧ k'=k) := by
  cases r with
  | fd n =>
    simp only [answerEpollCreate] at h
    split at h
    · exact .inl ⟨n,rfl,by assumption,(Option.some.inj h).symm⟩
    · cases h
  | fail e => exact .inr ⟨e,rfl,(Option.some.inj h).symm⟩
  | _ => cases h

theorem answerEvents_cases {ep : Fd} {maxEvents : Int}
    (h : k.answerEvents ep maxEvents r=some k') :
    (∃ es,r=.events es ∧ (es.map PollEvent.fd).Nodup ∧ (es.length : Int) ≤ maxEvents ∧
      (∀ e∈es,e.fd∈(k.polls ep).ready ∧ e.mask.nonempty=true) ∧
      k'={ k with polls :=
        Function.update k.polls ep ((k.polls ep).harvest (es.map PollEvent.fd)) }) ∨
    (∃ e,r=.fail e ∧ k'=k) := by
  cases r with
  | events es =>
    simp only [answerEvents] at h
    split at h
    · rename_i hc
      exact .inl ⟨es,rfl,hc.1,hc.2.1,hc.2.2,(Option.some.inj h).symm⟩
    · cases h
  | fail e => exact .inr ⟨e,rfl,(Option.some.inj h).symm⟩
  | _ => cases h

theorem answerAccept_cases {l : Fd} (h : k.answerAccept l r=some k') :
    (∃ n c f,r=.conn n c ∧ k.table l=some (.listener f) ∧ k.fresh n=true ∧
      (k.backlog l).head?=some c ∧ k'=k.accept l n c) ∨
    (∃ e,r=.fail e ∧ k'=k ∧ (e.wouldBlock=true → k.backlog l=[])) := by
  cases r with
  | conn n c =>
    simp only [answerAccept] at h
    split at h
    · rename_i f hl
      split at h
      · rename_i hc
        exact .inl ⟨n,c,f,rfl,hl,hc.1,hc.2,(Option.some.inj h).symm⟩
      · cases h
    · cases h
  | fail e =>
    simp only [answerAccept] at h
    split at h
    · split at h
      · split at h
        · rename_i hc
          exact .inr ⟨e,rfl,(Option.some.inj h).symm,fun _ => hc.2⟩
        · cases h
      · cases h
    · rename_i hb
      exact .inr ⟨e,rfl,(Option.some.inj h).symm,fun hw => absurd hw hb⟩
  | _ => cases h

theorem answerClose_cases {fd : Fd} (h : k.answerClose fd r=some k') :
    k'=k.close fd ∧ (r=.ok ∨ ∃ e,r=.fail e) := by
  unfold answerClose at h
  split at h
  · rename_i e hn
    exact ⟨by rw [← Option.some.inj h]; simp [close,hn],.inr ⟨e,rfl⟩⟩
  · exact ⟨(Option.some.inj h).symm,.inl rfl⟩
  · rename_i e _
    exact ⟨(Option.some.inj h).symm,.inr ⟨e,rfl⟩⟩
  · cases h

theorem readConn_cases {c : ConnId} {count : Nat} {bs : Bytes}
    (h : k.readConn c count bs=some k') :
    (bs=[] ∧ k'=k ∧
      (0 < count → (k.conns c).pipe.unread=[] ∧ (k.conns c).pipe.ending=.finished)) ∨
    (bs≠[] ∧ bs.length ≤ count ∧ ∃ p,(k.conns c).pipe.take bs=some p ∧ k'=k.setPipe c p) := by
  unfold readConn at h
  split at h
  · rename_i hb
    split at h
    · rename_i hc
      refine .inl ⟨hb,(Option.some.inj h).symm,fun hp => hc.resolve_left hp.ne'⟩
    · cases h
  · rename_i hb
    split at h
    · rename_i hl
      obtain ⟨p,hp,hk⟩ := Option.map_eq_some_iff.mp h
      exact .inr ⟨hb,hl,p,hp,hk.symm⟩
    · cases h

/-- `read` on a connection either consumes the front of the unread bytes, or
changes nothing; then 0 means the end and `EAGAIN` means nothing there. -/
theorem answerRead_cases {fd : Fd} {c : ConnId} {f count : Nat}
    (hf : k.table fd=some (.conn c f)) (h : k.answerRead fd count r=some k') :
    (∃ bs,r=.data bs ∧ bs≠[] ∧ bs.length ≤ count ∧
      ∃ p,(k.conns c).pipe.take bs=some p ∧ k'=k.setPipe c p) ∨
    (r=.data [] ∧ k'=k ∧
      (0 < count → (k.conns c).pipe.unread=[] ∧ (k.conns c).pipe.ending=.finished)) ∨
    (∃ e,r=.fail e ∧ k'=k ∧ (e.wouldBlock=true → k.drained c)) := by
  cases r with
  | data bs =>
    simp only [answerRead,hf] at h
    rcases readConn_cases h with ⟨rfl,hk,hp⟩|⟨hb,hl,hp⟩
    · exact .inr (.inl ⟨rfl,hk,hp⟩)
    · exact .inl ⟨bs,rfl,hb,hl,hp⟩
  | fail e =>
    simp only [answerRead,hf] at h
    split at h
    · split at h
      · rename_i hc
        exact .inr (.inr ⟨e,rfl,(Option.some.inj h).symm,fun _ => hc.2.2⟩)
      · cases h
    · rename_i hb
      exact .inr (.inr ⟨e,rfl,(Option.some.inj h).symm,fun hw => absurd hw hb⟩)
  | _ => cases h

/-- Whatever `read` is aimed at, it touches streams only. -/
theorem answerRead_frame {fd : Fd} {count : Nat} (h : k.answerRead fd count r=some k') :
    k'=k ∨ ∃ c a p,k.table fd=some (.conn c a) ∧ k'=k.setPipe c p := by
  cases hf : k.table fd with
  | none =>
    cases r with
    | fail e =>
      simp only [answerRead,hf] at h
      split at h
      · cases h
      · exact .inl (Option.some.inj h).symm
    | data bs => simp [answerRead,hf] at h
    | _ => cases h
  | some f =>
    cases f with
    | conn c a =>
      rcases answerRead_cases hf h with ⟨bs,-,-,-,p,-,hk⟩|⟨-,hk,-⟩|⟨e,-,hk,-⟩
      · exact .inr ⟨c,a,p,rfl,hk⟩
      · exact .inl hk
      · exact .inl hk
    | _ =>
      cases r with
      | fail e =>
        simp only [answerRead,hf] at h
        split at h <;> simp_all
      | data bs => simp_all [answerRead]
      | _ => cases h

theorem connect_cases {fd : Fd} {res : Nat} {r : Reply}
    (h : k.answer (.connect fd res) r=some k') :
    (r=.ok ∧ ∃ f,k.table fd=some (.sock f) ∧ k'={ k with
      table := Function.update k.table fd (some (.conn k.born f))
      conns := Function.update k.conns k.born { Conn.new with fd := some fd }
      born := k.born+1 }) ∨ ∃ e,r=.fail e ∧ k'=k := by
  rcases answerUnit_cases h with ⟨hr,hs⟩|hf
  · split at hs
    · rename_i f hf
      exact .inl ⟨hr,f,hf,(Option.some.inj hs).symm⟩
    · cases hs
  · exact .inr hf

theorem epollAdd_cases {ep fd : Fd} {t : Trigger}
    (h : k.answer (.epollAdd ep fd t) .ok=some k') : k'=k.register ep fd t := by
  simp only [answer,answerUnit,Option.ite_none_right_eq_some,Option.some.injEq] at h
  exact h.2.symm

theorem answer_answers {c : Call} (h : k.answer c r=some k') : k.Answers c r k' := by
  have unit {ok : Option Kernel} (entries : ∀ e,c.entries (.fail e)=touches c.names)
      (silent : ∀ o e,c.accepted o (.fail e)=[]) (hok : ∀ l,ok=some l → k.Answers c .ok l)
      (hu : k.answerUnit ok r=some k') : k.Answers c r k' := by
    rcases answerUnit_cases hu with ⟨rfl,hs⟩|⟨e,rfl,rfl⟩
    · exact hok k' hs
    · exact .same (entries e) (silent · e)
  cases c with
  | internal | deliver | threadJoin | freeaddrinfo =>
    simp only [answer,Option.ite_none_right_eq_some,Option.some.injEq] at h
    obtain ⟨rfl,rfl⟩ := h
    exact .same rfl fun _ => rfl
  | threadStart =>
    apply unit (fun _ => rfl) (fun _ _ => rfl) _ h
    intro l hl
    cases hl
    exact .same rfl fun _ => rfl
  | socket =>
    rcases answerOpen_cases h with ⟨n,rfl,hn,rfl⟩|⟨e,rfl,rfl⟩
    · exact .socket hn
    · exact .same rfl fun _ => rfl
  | setsockopt | bind | epollWait =>
    apply unit (fun _ => rfl) (fun _ _ => rfl) _ h
    intro l hl
    split at hl <;> cases hl
    exact .same rfl fun _ => rfl
  | getFlags fd =>
    cases r with
    | flags n =>
      simp only [answer,Option.ite_none_right_eq_some,Option.some.injEq] at h
      rw [← h.2]
      exact .same rfl fun _ => rfl
    | fail e =>
      cases h
      exact .same rfl fun _ => rfl
    | _ => cases h
  | setFlags fd n =>
    apply unit (fun _ => rfl) (fun _ _ => rfl) _ h
    intro l hl
    obtain ⟨f,hf,rfl⟩ := Option.map_eq_some_iff.mp hl
    exact .setFlags hf
  | listen fd =>
    apply unit (fun _ => rfl) (fun _ _ => rfl) _ h
    intro l hl
    split at hl <;> cases hl
    · rename_i f hf
      exact .listen hf (.inl rfl)
    · rename_i f hf
      exact .listen hf (.inr rfl)
  | epollCreate =>
    rcases answerEpollCreate_cases h with ⟨n,rfl,hn,rfl⟩|⟨e,rfl,rfl⟩
    · exact .epollCreate hn
    · exact .same rfl fun _ => rfl
  | epollAdd ep fd t =>
    apply unit (fun _ => rfl) (fun _ _ => rfl) _ h
    intro l hl
    split at hl <;> cases hl
    rename_i hc
    exact .epollAdd hc.2.1
  | epollDel ep fd =>
    apply unit (fun _ => rfl) (fun _ _ => rfl) _ h
    intro l hl
    split at hl <;> cases hl
    exact .epollDel
  | epollReturn ep maxEvents =>
    rcases answerEvents_cases h with ⟨es,rfl,-,-,-,rfl⟩|⟨e,rfl,rfl⟩
    · exact .harvest
    · exact .same rfl fun _ => rfl
  | accept l =>
    rcases answerAccept_cases h with ⟨n,c,f,rfl,-,hn,hc,rfl⟩|⟨e,rfl,rfl,-⟩
    · exact .accept hn hc
    · exact .same rfl fun _ => rfl
  | read fd count =>
    rcases answerRead_frame h with rfl|⟨c,a,p,hf,-⟩
    · exact .same rfl fun _ => rfl
    · rcases answerRead_cases hf h with ⟨bs,rfl,hb,hl,p,hp,rfl⟩|⟨rfl,rfl,-⟩|⟨e,rfl,rfl,-⟩
      · exact .read hf hb hl hp
      · exact .same rfl fun _ => rfl
      · exact .same rfl fun _ => rfl
  | write fd payload =>
    cases r with
    | wrote n =>
      simp only [answer] at h
      split at h
      · rename_i c f hf
        split at h <;> cases h
        exact .write hf
      · cases h
    | fail e =>
      cases h
      exact .same rfl fun _ => rfl
    | _ => cases h
  | close fd =>
    rw [(answerClose_cases h).1]
    exact .close
  | getaddrinfo =>
    cases r with
    | addr n =>
      cases h
      exact .same rfl fun _ => rfl
    | fail e =>
      cases h
      exact .same rfl fun _ => rfl
    | _ => cases h
  | connect fd res =>
    rcases connect_cases h with ⟨rfl,f,hf,rfl⟩|⟨e,rfl,rfl⟩
    · exact .connect hf
    · exact .same rfl fun _ => rfl

theorem env_evolves {e : Env} (h : k.env e=some k') : k.Evolves e k' := by
  cases e with
  | connect l =>
    simp only [env] at h
    split at h <;> cases h
    rename_i f hf
    exact .connect hf
  | send c bs =>
    simp only [env,Option.ite_none_right_eq_some,Option.map_eq_some_iff] at h
    obtain ⟨hb,p,hp,rfl⟩ := h
    exact .send hb hp
  | shut c =>
    simp only [env,Option.ite_none_right_eq_some,Option.some.injEq] at h
    rw [← h.2]
    exact .shut h.1
  | arrive c n =>
    simp only [env,Option.ite_none_right_eq_some,Option.map_eq_some_iff] at h
    obtain ⟨⟨hb,-,-⟩,p,hp,rfl⟩ := h
    exact .arrive hb hp
  | finish c =>
    simp only [env,Option.ite_none_right_eq_some,Option.map_eq_some_iff] at h
    obtain ⟨hb,p,hp,rfl⟩ := h
    exact .finish hb hp
  | tear c n =>
    simp only [env,Option.ite_none_right_eq_some,Option.some.injEq] at h
    rw [← h.2]
    exact .tear h.1
  | prune ep fd =>
    simp only [env,Option.ite_none_left_eq_some,Option.some.injEq] at h
    rw [← h.2]
    exact .prune (by simpa using h.1)
  | openForeign fd =>
    simp only [env,Option.ite_none_right_eq_some,Option.some.injEq] at h
    rw [← h.2]
    exact .openForeign h.1
  | closeForeign fd =>
    simp only [env,Option.ite_none_right_eq_some,Option.some.injEq] at h
    rw [← h.2]
    exact .closeForeign h.1

end Kernel

end TuyulNet
