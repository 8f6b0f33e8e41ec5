import TuyulNet.Kernel.Streams

namespace TuyulNet

open Framework

namespace Kernel

/-- The peer of `c` can go on sending, and nothing that it has sent is still to come. -/
structure Dry (k : Kernel) (c : ConnId) : Prop where
  born : c < k.born
  opened : (k.conns c).pipe.closed=false
  flowing : (k.conns c).pipe.ending=.flowing
  unread : (k.conns c).pipe.unread=[]
  flight : (k.conns c).pipe.flight=[]

variable {k : Kernel} {c : ConnId}

instance : Decidable (k.Dry c) :=
  decidable_of_iff (c < k.born ∧ (k.conns c).pipe.closed=false ∧
      (k.conns c).pipe.ending=.flowing ∧ (k.conns c).pipe.unread=[] ∧ (k.conns c).pipe.flight=[])
    ⟨fun ⟨a,b,d,e,f⟩ => ⟨a,b,d,e,f⟩,fun ⟨a,b,d,e,f⟩ => ⟨a,b,d,e,f⟩⟩

/-- One more byte arrives. -/
theorem Dry.supply (h : k.Dry c) (b : Byte) : ∃ l m,k.env (.send c [b])=some l ∧
    l.env (.arrive c 1)=some m ∧ m.table=k.table ∧ m.born=k.born ∧
    (m.conns c).pipe.closed=false ∧ (m.conns c).pipe.ending=.flowing ∧
    (m.conns c).pipe.unread=[b] ∧ (m.conns c).pipe.flight=[] := by
  obtain ⟨p,sent⟩ : ∃ p,(k.conns c).pipe.send [b]=some p := by
    simp [Pipe.send,h.opened,h.flowing]
  obtain ⟨-,-,flows,opened,-,flight,unread,-⟩ := Pipe.send_spec _ p _ sent
  rw [h.flight,List.nil_append] at flight
  rw [h.unread] at unread
  obtain ⟨q,arrived⟩ : ∃ q,p.arrive 1=some q := by simp [Pipe.arrive,flows]
  obtain ⟨-,flows',opened',-,flight',unread',-⟩ := Pipe.arrive_spec p q 1 arrived
  rw [flight] at flight' unread'
  rw [unread] at unread'
  refine ⟨k.setPipe c p,((k.setPipe c p).setPipe c q).wake c,?_,?_,?_,?_,?_⟩
  · simp [env,h.born,sent]
  · have pipe : ((k.setPipe c p).conns c).pipe=p := by rw [setPipe_pipe,if_pos rfl]
    have born : (k.setPipe c p).born=k.born := rfl
    simp [env,pipe,born,h.born,flight,arrived]
  · funext x
    simp
  · exact wake_born c
  · rw [wake_conns,setPipe_pipe,if_pos rfl]
    exact ⟨opened'.trans opened,flows',unread',flight'⟩

/-- A byte that has arrived is read. -/
theorem read_supplied {fd : Fd} {f count : Nat} {b : Byte} (hf : k.table fd=some (.conn c f))
    (hc : 0 < count) (born : c < k.born) (opened : (k.conns c).pipe.closed=false)
    (flowing : (k.conns c).pipe.ending=.flowing) (unread : (k.conns c).pipe.unread=[b])
    (flight : (k.conns c).pipe.flight=[]) :
    ∃ l,k.answer (.read fd count) (.data [b])=some l ∧ l.Dry c ∧ l.table=k.table := by
  obtain ⟨p,taken⟩ : ∃ p,(k.conns c).pipe.take [b]=some p := by simp [Pipe.take,unread]
  obtain ⟨-,left,-,-,ending,closed,flight'⟩ := Pipe.take_spec _ p _ taken
  rw [unread] at left
  have pipe : ((k.setPipe c p).conns c).pipe=p := by rw [setPipe_pipe,if_pos rfl]
  refine ⟨k.setPipe c p,?_,⟨born,?_,?_,?_,?_⟩,rfl⟩
  · simp [answer,answerRead,hf,readConn,Nat.one_le_iff_ne_zero,hc.ne',taken]
  · rw [pipe,closed,opened]
  · rw [pipe,ending,flowing]
  · rw [pipe,left]
    rfl
  · rw [pipe,flight',flight]

theorem Dry.close (h : k.Dry c) (fd : Fd) : (k.close fd).Dry c := by
  have born : (k.close fd).born=k.born := by
    unfold Kernel.close
    split <;> rfl
  obtain ⟨hb,opened,flowing,unread,flight⟩ := h
  constructor
  · rwa [born]
  all_goals rwa [close_pipe]

theorem Dry.closes (h : k.Dry c) (fds : List Fd) : (fds.foldl Kernel.close k).Dry c := by
  induction fds generalizing k with
  | nil => exact h
  | cons fd fds ih => exact ih (h.close fd)

/-- The peer supplies one byte to whoever reads. -/
theorem Dry.round (h : k.Dry c) (b : Byte) {fd : Fd} {f count : Nat}
    (hf : k.table fd=some (.conn c f)) (hc : 0 < count) :
    ∃ l m n,k.env (.send c [b])=some l ∧ l.env (.arrive c 1)=some m ∧
      m.answer (.read fd count) (.data [b])=some n ∧ n.Dry c ∧ n.table=k.table := by
  obtain ⟨l,m,sent,arrived,table,born,opened,flowing,unread,flight⟩ := h.supply b
  obtain ⟨n,hn,dry,same⟩ := read_supplied (table ▸ hf) hc (born ▸ h.born) opened flowing unread
    flight
  exact ⟨l,m,n,sent,arrived,hn,dry,same.trans table⟩

section room

variable {l : Kernel} {r : Reply}

/-- A batch has at most `max_epoll_events` entries. -/
theorem harvest_length {ep : Fd} {maxEvents : Int} {es : List PollEvent}
    (hk : k.answer (.epollReturn ep maxEvents) (.events es)=some l) :
    es.length ≤ maxEvents.toNat := by
  have hk : k.answerEvents ep maxEvents (.events es)=some l := hk
  rcases answerEvents_cases hk with ⟨fs,he,-,hl,-⟩|⟨e,he,-⟩ <;> cases he
  omega

/-- A buffer without room takes no data. -/
theorem read_nothing {fd : Fd} {bs : Bytes} (hk : k.answer (.read fd 0) (.data bs)=some l) :
    bs=[] := by
  simp only [answer,answerRead] at hk
  split at hk
  · rcases readConn_cases hk with ⟨hb,-⟩|⟨-,hl,-⟩
    · exact hb
    · exact List.eq_nil_of_length_eq_zero (Nat.le_zero.mp hl)
  · rw [Option.ite_none_right_eq_some] at hk
    exact List.eq_nil_of_length_eq_zero (Nat.le_zero.mp hk.1)
  · cases hk

/-- The peer of `c` has ended the stream, and everything was read. -/
def Ended (k : Kernel) (c : ConnId) : Prop :=
  (k.conns c).pipe.unread=[] ∧ (k.conns c).pipe.ending=.finished

instance : Decidable (k.Ended c) := inferInstanceAs (Decidable (_ ∧ _))

/-- With room for a byte, nothing read is the end of the stream. -/
theorem read_end {fd : Fd} {f count : Nat} (hc : 0 < count)
    (hk : k.answer (.read fd count) (.data [])=some l) (hf : k.table fd=some (.conn c f)) :
    k.Ended c := by
  simp only [answer,answerRead,hf,readConn,if_true] at hk
  split at hk
  · rename_i he
    exact he.resolve_left hc.ne'
  · cases hk

/-- Wherever there is room for some data, more room excludes no reply. -/
theorem read_more {fd : Fd} {count more : Nat} (hm : count=more ∨ 0 < count ∧ count ≤ more)
    (hk : k.answer (.read fd count) r=some l) : k.answer (.read fd more) r=some l := by
  rcases hm with rfl|⟨hc,hm⟩
  · exact hk
  simp only [answer,answerRead] at hk ⊢
  have room : 0 < more := Nat.lt_of_lt_of_le hc hm
  cases r with
  | data bs =>
    cases hf : k.table fd with
    | none => simp [hf] at hk
    | some f =>
      cases f with
      | conn c g =>
        simp only [hf,readConn] at hk ⊢
        split at hk
        · rename_i hb
          rw [if_pos hb]
          simpa [hc.ne',room.ne'] using hk
        · rename_i hb
          rw [if_neg hb]
          split at hk
          · rename_i hl
            rwa [if_pos (hl.trans hm)]
          · cases hk
      | foreign =>
        simp only [hf] at hk ⊢
        split at hk
        · rename_i hl
          rwa [if_pos (hl.trans hm)]
        · cases hk
      | _ => simp [hf] at hk
  | fail e => simpa [hc,room] using hk
  | _ => exact hk

theorem epollWait_more {ep : Fd} {maxEvents more timeout timeout' : Int} (hm : maxEvents ≤ more)
    (hk : k.answer (.epollWait ep maxEvents timeout) r=some l) :
    k.answer (.epollWait ep more timeout') r=some l := by
  simp only [answer] at hk ⊢
  cases r with
  | ok =>
    simp only [answerUnit] at hk ⊢
    split at hk
    · rename_i he
      rwa [if_pos ⟨he.1,Int.lt_of_lt_of_le he.2 hm⟩]
    · cases hk
  | _ => exact hk

theorem epollReturn_more {ep : Fd} {maxEvents more : Int} (hm : maxEvents ≤ more)
    (hk : k.answer (.epollReturn ep maxEvents) r=some l) :
    k.answer (.epollReturn ep more) r=some l := by
  simp only [answer,answerEvents] at hk ⊢
  cases r with
  | events es =>
    simp only at hk ⊢
    split at hk
    · rename_i he
      rwa [if_pos ⟨he.1,he.2.1.trans hm,he.2.2⟩]
    · cases hk
  | _ => exact hk

end room

end Kernel

end TuyulNet
