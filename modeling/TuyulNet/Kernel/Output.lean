import TuyulNet.Kernel.Streams

namespace TuyulNet

open Framework

namespace Kernel

variable {k k' : Kernel} {c : Call} {r : Reply} {d : ConnId}

theorem accepted_other {o : Option Fd} (hc : ∀ fd payload,c≠.write fd payload) :
    c.accepted o r=[] := by
  cases c with
  | write fd payload => exact absurd rfl (hc fd payload)
  | _ => rfl

theorem write_out (hw : k.Wf) {fd : Fd} {payload : Bytes} {n : Nat}
    (h : k.answer (.write fd payload) (.wrote n)=some k') :
    k'.born=k.born ∧ n≤payload.length ∧ ∀ d,(k'.conns d).out=(k.conns d).out++
      if (k.conns d).fd=some fd then payload.take n else [] := by
  simp only [answer] at h
  split at h
  · rename_i c f hf
    simp only [Option.ite_none_right_eq_some,Option.some.injEq] at h
    obtain ⟨⟨-,hn⟩,rfl⟩ := h
    refine ⟨rfl,hn,fun d => ?_⟩
    have own := (hw.attached fd c f hf).1
    by_cases hd : d=c
    · subst d
      simp [setConn,own]
    · have other : (k.conns d).fd≠some fd := by
        intro e
        obtain ⟨g,hg⟩ := hw.owner d fd e
        rw [hf] at hg
        cases hg
        exact hd rfl
      simp [setConn,hd,other]
  · cases h

/-- The connection that a descriptor belongs to. -/
def connection (k : Kernel) (fd : Fd) : Option ConnId :=
  match k.table fd with
  | some (.conn c _) => some c
  | _ => none

theorem connection_some {fd : Fd} : k.connection fd=some d ↔ ∃ f,k.table fd=some (.conn d f) := by
  unfold connection
  split
  · rename_i c f hf
    simp [hf]
  · rename_i hf
    simpa using fun f => hf d f

theorem Wf.connection (hw : k.Wf) {fd : Fd} : k.connection fd=some d ↔ (k.conns d).fd=some fd := by
  rw [connection_some]
  exact ⟨fun ⟨f,hf⟩ => (hw.attached fd d f hf).1,hw.owner d fd⟩

theorem connection_congr {fd : Fd} (h : k'.table fd=k.table fd) :
    k'.connection fd=k.connection fd := by
  unfold connection
  rw [h]

theorem env_connection (e : Env) (h : k.env e=some k') (fd : Fd) :
    k'.connection fd=k.connection fd := by
  rcases env_table e h fd with heq|⟨after,before⟩
  · exact connection_congr heq
  · have none {l : Kernel} (foreign : ∀ f,l.table fd=some f → f=.foreign) :
        l.connection fd=none := by
      by_contra hn
      obtain ⟨d,hd⟩ := Option.ne_none_iff_exists'.mp hn
      obtain ⟨f,hf⟩ := connection_some.mp hd
      cases foreign _ hf
    rw [none after,none before]

/-- Only `accept` and `connect` give a descriptor another connection. -/
theorem answer_connection (ha : ∀ l,c≠.accept l) (hc : ∀ fd res,c=.connect fd res → r≠.ok)
    (h : k.answer c r=some k') (fd : Fd) :
    k'.connection fd=none ∨ k'.connection fd=k.connection fd := by
  have update {n : Fd} {f : Option File} (hn : k'.table=Function.update k.table n f)
      (hf : ∀ d a,f≠some (.conn d a)) :
      k'.connection fd=none ∨ k'.connection fd=k.connection fd := by
    by_cases hx : fd=n
    · left
      by_contra hd
      obtain ⟨d,hd⟩ := Option.ne_none_iff_exists'.mp hd
      obtain ⟨a,hf'⟩ := connection_some.mp hd
      rw [hn,hx,Function.update_self] at hf'
      exact hf d a hf'
    · exact .inr (connection_congr (by simp [hn,hx]))
  cases answer_answers h with
  | same | epollAdd | epollDel | harvest | read | write => exact .inr rfl
  | socket | epollCreate => exact update rfl (by simp)
  | listen => exact update rfl (by simp)
  | @setFlags x n f file =>
    cases f with
    | conn d a =>
      right
      unfold connection
      by_cases hx : fd=x
      · simp [hx,file,File.withFlags]
      · simp [hx]
    | _ => exact update rfl (by simp [File.withFlags])
  | @close x =>
    by_cases hx : fd=x
    · left
      simp [connection,close_table,hx]
    · exact .inr (connection_congr (by simp [close_table,hx]))
  | accept => exact absurd rfl (ha _)
  | connect => exact absurd rfl (hc _ _ rfl)

/-- A watched descriptor keeps its connection and stays watched until it is taken out of the
interest set or closed. -/
theorem answer_watched (hw : k.Wf) (he : c≠.epollCreate) (hc : ∀ fd res,c≠.connect fd res)
    (h : k.answer c r=some k') {p x : Fd} (watched : k.watch p x≠none) :
    k'.watch p x≠none ∧ k'.connection x=k.connection x ∨ c=.epollDel p x ∨ c=.close x := by
  have away {n : Fd} (fresh : k.fresh n=true) : x≠n := by
    rintro rfl
    exact hw.watched p x watched ((k.fresh_iff x).mp fresh).2
  cases answer_answers h with
  | same | read | write => exact .inl ⟨watched,rfl⟩
  | socket fresh => exact .inl ⟨watched,connection_congr (by simp [away fresh])⟩
  | accept fresh => exact .inl ⟨watched,connection_congr (by simp [away fresh])⟩
  | @setFlags y n f file =>
    refine .inl ⟨watched,?_⟩
    unfold connection
    by_cases hx : x=y
    · subst x
      cases f <;> simp [file,File.withFlags]
    · simp [hx]
  | @listen y f g file kind =>
    refine .inl ⟨watched,?_⟩
    unfold connection
    by_cases hx : x=y
    · subst x
      rcases kind with rfl|rfl <;> simp [file]
    · simp [hx]
  | epollCreate => exact absurd rfl he
  | @epollAdd ep y t =>
    refine .inl ⟨?_,rfl⟩
    rw [register_watch]
    split
    · simp
    · exact watched
  | @epollDel ep y =>
    by_cases hx : p=ep ∧ x=y
    · exact .inr (.inl (by rw [hx.1,hx.2]))
    · refine .inl ⟨?_,rfl⟩
      rwa [deregister_watch,if_neg hx]
  | @harvest ep m es =>
    refine .inl ⟨?_,rfl⟩
    rw [update_poll_watch]
    split
    · rename_i hp
      exact hp ▸ watched
    · exact watched
  | @close y =>
    by_cases hx : x=y
    · exact .inr (.inr (by rw [hx]))
    · refine .inl ⟨?_,connection_congr (by simp [close_table,hx])⟩
      rwa [close_watch hw,if_neg hx]
  | connect => exact absurd rfl (hc _ _)

/-- A `write` that succeeds goes to a connection, and takes some of the payload. -/
theorem write_lands {fd : Fd} {payload : Bytes} {n : Nat}
    (h : k.answer (.write fd payload) (.wrote n)=some k') :
    (∃ d,k.connection fd=some d) ∧ 1≤n ∧ n≤payload.length := by
  simp only [answer] at h
  split at h
  · rename_i c f hf
    simp only [Option.ite_none_right_eq_some] at h
    exact ⟨⟨c,connection_some.mpr ⟨f,hf⟩⟩,h.1⟩
  · cases h

/-- Only `write` hands bytes to a connection, in the order of the calls. -/
theorem answer_out (hw : k.Wf) (hd : d<k.born) (h : k.answer c r=some k') :
    (k'.conns d).out=(k.conns d).out++c.accepted (k.conns d).fd r := by
  have none {o : Bytes} (ho : o=(k.conns d).out) : o=(k.conns d).out++[] := by
    rw [ho,List.append_nil]
  cases answer_answers h with
  | same _ silent => exact (silent _).symm ▸ none rfl
  | write => exact (write_out hw h).2.2 d
  | @accept _ _ c => exact none (by by_cases hc : d=c <;> simp [Kernel.accept,hc])
  | @read _ _ _ _ c => exact none (by by_cases hc : d=c <;> simp [setPipe,setConn,hc])
  | close =>
    apply none
    unfold Kernel.close
    split
    · rfl
    · rename_i f _
      cases f with
      | conn c a => by_cases hc : d=c <;> simp [hc]
      | _ => rfl
  | connect => exact none (by simp [hd.ne])
  | _ => exact none rfl

theorem env_out (e : Env) (hd : d<k.born) (h : k.env e=some k') :
    k.born≤k'.born ∧ (k'.conns d).out=(k.conns d).out := by
  have pipe (c : ConnId) (p : Pipe Byte) :
      ((k.setPipe c p).conns d).out=(k.conns d).out := by
    by_cases hc : d=c <;> simp [setPipe,setConn,hc]
  cases env_evolves h with
  | connect => exact ⟨Nat.le_succ _,by simp [notify,hd.ne]⟩
  | send | shut => exact ⟨le_rfl,pipe _ _⟩
  | arrive | finish | tear =>
    rw [wake_born,wake_conns]
    exact ⟨le_rfl,pipe _ _⟩
  | prune | openForeign => exact ⟨le_rfl,rfl⟩
  | closeForeign file =>
    unfold Kernel.close
    rw [file]
    exact ⟨le_rfl,rfl⟩

theorem answer_born (h : k.answer c r=some k') : k.born≤k'.born := by
  cases answer_answers h with
  | connect => exact Nat.le_succ _
  | close =>
    unfold Kernel.close
    split <;> exact le_rfl
  | _ => exact le_rfl

/-- What becomes of a stream with every step: what was sent and taken stays, what is over stays
over, and only by taking something the reader gets nearer to having all that is owed. -/
structure Onward (k k' : Kernel) (d : ConnId) : Prop where
  grows : (k.conns d).pipe.Grows (k'.conns d).pipe
  born : d<k.born → d<k'.born
  ends : d<k.born → (k.conns d).pipe.ending≠.flowing → (k'.conns d).pipe.ending≠.flowing
  owes : ∀ n,d<k.born → (k.conns d).pipe.Owes n →
    (k'.conns d).pipe.Owes n ∨ n≤(k'.conns d).pipe.taken.length
  arrived : d<k.born → (k'.conns d).pipe.ending≠.broken →
    (k.conns d).pipe.taken++(k.conns d).pipe.unread<+:
      (k'.conns d).pipe.taken++(k'.conns d).pipe.unread

theorem Onward.refl (k : Kernel) (d : ConnId) : k.Onward k d :=
  ⟨.refl _,id,fun _ => id,fun _ _ => .inl,fun _ _ => List.prefix_refl _⟩

theorem env_onward (hw : k.Wf) (e : Env) (h : k.env e=some k') (d : ConnId) : k.Onward k' d where
  grows := (env_pipe hw e h d).1
  born := fun born => born.trans_le (env_out e born h).1
  ends := fun born ends => by
    rcases env_shifts e h born with same|shifts
    · exact same ▸ ends
    · exact shifts.over ends
  owes := fun n born owed => by
    left
    rcases env_shifts e h born with same|shifts
    · exact same ▸ owed
    · exact owed.shifts shifts
  arrived := fun born whole => by
    rcases env_shifts e h born with same|shifts
    · rw [same]
    · exact shifts.arrived whole

theorem answer_onward (hw : k.Wf) (h : k.answer c r=some k') (d : ConnId) : k.Onward k' d := by
  have born (born : d<k.born) := born.trans_le (answer_born h)
  rcases answer_pipe hw h d with same|⟨fd,count,bs,f,-,-,-,-,-,take⟩
  · exact ⟨by rw [same]; exact .refl _,born,fun _ ends => same ▸ ends,
      fun _ _ owed => .inl (same ▸ owed),fun _ _ => by rw [same]⟩
  · have ending := (Pipe.take_spec _ _ _ take).2.2.2.2.1
    exact ⟨Pipe.take_grows take,born,fun _ ends => ending ▸ ends,fun _ _ owed => owed.take take,
      fun _ _ => by rw [Pipe.take_arrived take]⟩

/-- A connection that is there already can only lose its descriptor, unless it
waits to be accepted. -/
theorem answer_detaches (hw : k.Wf) (hd : d<k.born) (hc : ∀ l,c≠.accept l)
    (h : k.answer c r=some k') :
    (k'.conns d).fd=(k.conns d).fd ∨
      ∃ fd,c=.close fd ∧ (k.conns d).fd=some fd ∧ (k'.conns d).fd=none := by
  cases answer_answers h with
  | accept => exact absurd rfl (hc _)
  | @close fd =>
    rw [close_fd hw]
    by_cases hx : (k.conns d).fd=some fd
    · exact .inr ⟨fd,rfl,hx,by simp [hx]⟩
    · exact .inl (by simp [hx])
  | connect => exact .inl (by simp [hd.ne])
  | read => exact .inl (setPipe_fd _ d _)
  | @write _ _ _ _ c => exact .inl (by by_cases hc : d=c <;> simp [setConn,hc])
  | _ => exact .inl rfl

/-- A call accepts something on one connection at most, or takes the descriptor of one. -/
theorem answer_stirs (hw : k.Wf) (ha : ∀ l,c≠.accept l) (h : k.answer c r=some k') :
    ∃ o : Option ConnId,∀ d<k.born,
      ((k'.conns d).out=(k.conns d).out ∨ (k'.conns d).fd=(k.conns d).fd) ∧
      (some d≠o → (k'.conns d).out=(k.conns d).out ∧ (k'.conns d).fd=(k.conns d).fd) := by
  have out (silent : ∀ o,c.accepted o r=[]) (d : ConnId) (hd : d<k.born) :
      (k'.conns d).out=(k.conns d).out := by
    rw [answer_out hw hd h,silent,List.append_nil]
  cases answer_answers h with
  | accept => exact absurd rfl (ha _)
  | @close fd =>
    have kept := out fun _ => rfl
    refine ⟨k.connection fd,fun d hd => ⟨.inl (kept d hd),fun other => ⟨kept d hd,?_⟩⟩⟩
    rw [close_fd hw,if_neg fun own => other (hw.connection.mpr own).symm]
  | connect => exact ⟨none,fun d hd => by simp [hd.ne]⟩
  | read =>
    have kept := out fun _ => rfl
    exact ⟨none,fun d hd => ⟨.inl (kept d hd),fun _ => ⟨kept d hd,setPipe_fd _ d _⟩⟩⟩
  | @write _ _ _ _ c =>
    refine ⟨some c,fun d _ => ?_⟩
    by_cases hd : d=c <;> simp [setConn,hd]
  | _ => exact ⟨none,fun d _ => ⟨.inl rfl,fun _ => ⟨rfl,rfl⟩⟩⟩

/-- Calls of the reading side leave the sender's side of a stream alone. -/
theorem answer_sender (hw : k.Wf) (h : k.answer c r=some k') (d : ConnId) :
    (k'.conns d).pipe.sent=(k.conns d).pipe.sent ∧
      (k'.conns d).pipe.closed=(k.conns d).pipe.closed := by
  rcases answer_pipe hw h d with heq|⟨fd,count,bs,f,-,-,-,-,-,hp⟩
  · rw [heq]
    exact ⟨rfl,rfl⟩
  · obtain ⟨-,-,-,sent,-,closed,-⟩ := Pipe.take_spec _ _ bs hp
    exact ⟨sent,closed⟩

/-- What the peer of connection `d` does itself. -/
def Env.sends (d : ConnId) : Env → Bool
  | .send c _ | .shut c => c=d
  | _ => false

theorem env_sender (e : Env) (hd : d<k.born) (hs : e.sends d=false) (h : k.env e=some k') :
    (k'.conns d).pipe.sent=(k.conns d).pipe.sent ∧
      (k'.conns d).pipe.closed=(k.conns d).pipe.closed := by
  have update {c : ConnId} {p : Pipe Byte} (sent : p.sent=(k.conns c).pipe.sent)
      (closed : p.closed=(k.conns c).pipe.closed) :
      ((k.setPipe c p).conns d).pipe.sent=(k.conns d).pipe.sent ∧
        ((k.setPipe c p).conns d).pipe.closed=(k.conns d).pipe.closed := by
    rw [setPipe_pipe]
    by_cases hc : d=c
    · subst d
      simpa using ⟨sent,closed⟩
    · simp [hc]
  have other {c : ConnId} {p : Pipe Byte} (hc : ¬c=d) :
      ((k.setPipe c p).conns d).pipe=(k.conns d).pipe := by
    rw [setPipe_pipe,if_neg (Ne.symm hc)]
  cases env_evolves h with
  | connect => simp [notify,hd.ne]
  | send | shut =>
    rw [other (by simpa [Env.sends] using hs)]
    exact ⟨rfl,rfl⟩
  | arrive _ pipe =>
    obtain ⟨-,-,closed,sent,-⟩ := Pipe.arrive_spec _ _ _ pipe
    rw [wake_conns]
    exact update sent closed
  | finish _ pipe =>
    obtain ⟨-,was,-,closed,sent,-⟩ := Pipe.finish_spec _ _ pipe
    rw [wake_conns]
    exact update sent (closed.trans was.symm)
  | tear =>
    rw [wake_conns]
    exact update rfl rfl
  | prune | openForeign => exact ⟨rfl,rfl⟩
  | closeForeign =>
    rw [close_pipe]
    exact ⟨rfl,rfl⟩

/-- What the peer of `d` does to its stream. -/
theorem env_send {bs : Bytes} (h : k.env (.send d bs)=some k') : k'.born=k.born ∧
    (k'.conns d).pipe.sent=(k.conns d).pipe.sent++bs ∧ (k'.conns d).pipe.closed=false := by
  simp only [env,Option.ite_none_right_eq_some,Option.map_eq_some_iff] at h
  obtain ⟨-,p,hp,rfl⟩ := h
  obtain ⟨-,-,-,closed,sent,-⟩ := Pipe.send_spec _ p bs hp
  rw [setPipe_pipe,if_pos rfl]
  exact ⟨rfl,sent,closed⟩

theorem env_shut (h : k.env (.shut d)=some k') : k'.born=k.born ∧
    (k'.conns d).pipe.sent=(k.conns d).pipe.sent := by
  simp only [env,Option.ite_none_right_eq_some,Option.some.injEq] at h
  rw [← h.2,setPipe_pipe,if_pos rfl]
  exact ⟨rfl,rfl⟩

end Kernel

end TuyulNet
