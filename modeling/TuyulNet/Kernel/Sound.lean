import TuyulNet.Kernel.Effect

namespace TuyulNet

open Framework

namespace Kernel

/-- What holds of the kernel's tables whoever uses it. -/
structure Wf (k : Kernel) : Prop where
  nonneg : ∀ fd,k.table fd≠none → 0≤fd
  attached : ∀ fd c f,k.table fd=some (.conn c f) → (k.conns c).fd=some fd ∧ c<k.born
  owner : ∀ c fd,(k.conns c).fd=some fd → ∃ f,k.table fd=some (.conn c f)
  queued : ∀ l c,c∈k.backlog l → (k.conns c).fd=none ∧ c<k.born
  distinct : ∀ l,(k.backlog l).Nodup
  apart : ∀ l l' c,c∈k.backlog l → c∈k.backlog l' → l=l'
  watched : ∀ p fd,(k.polls p).interest fd≠none → k.table fd≠none
  unborn : ∀ c,k.born ≤ c → k.conns c=.new
  bounded : ∃ b,∀ fd,b≤fd → k.table fd=none

/-- The descriptor history and the table know of the same owned descriptors. -/
def Agrees (k : Kernel) (t : Ledger Fd) : Prop := ∀ fd,Ledger.held fd t=true ↔ k.Owns fd

theorem fresh_iff (k : Kernel) (n : Fd) : k.fresh n=true ↔ 0≤n ∧ k.table n=none := by
  simp [fresh]

theorem Wf.minus_one {k : Kernel} (h : k.Wf) : k.table (-1)=none := by
  by_contra hn
  exact absurd (h.nonneg _ hn) (by decide)

theorem exists_fresh {k : Kernel} (h : k.Wf) : ∃ n,k.fresh n=true := by
  obtain ⟨b,hb⟩ := h.bounded
  refine ⟨max b 0,(k.fresh_iff _).mpr ⟨le_max_right _ _,hb _ (le_max_left _ _)⟩⟩

theorem boot_wf (foreign : List Fd) : (boot foreign).Wf where
  nonneg := by
    intro fd h
    by_contra hn
    simp [boot,hn] at h
  attached := by
    intro fd c f h
    simp [boot] at h
  owner := by
    intro c fd h
    simp [boot,Conn.new] at h
  queued := by simp [boot]
  distinct := by simp [boot]
  apart := by simp [boot]
  watched := by simp [boot]
  unborn := fun _ _ => rfl
  bounded := by
    refine ⟨foreign.foldr max 0+1,?_⟩
    intro fd hfd
    have above : fd∉foreign := by
      intro hm
      have hle : ∀ l : List Fd,∀ x∈l,x≤l.foldr max 0 := by
        intro l
        induction l with
        | nil => simp
        | cons a l ih =>
          intro x hx
          rcases List.mem_cons.mp hx with rfl|hx
          · exact le_max_left _ _
          · exact (ih x hx).trans (le_max_right _ _)
      exact absurd (hle foreign fd hm) (not_le.mpr (Int.lt_of_add_one_le hfd))
    simp [boot,above]

theorem boot_agrees (foreign : List Fd) : (boot foreign).Agrees [] := by
  intro fd
  simp only [Ledger.held_nil,Bool.false_eq_true,false_iff]
  rintro ⟨f,hf,hn⟩
  simp only [boot,Option.ite_none_right_eq_some,Option.some.injEq] at hf
  exact hn hf.2.symm

section effects

variable {k : Kernel} {t : Ledger Fd}

@[simp] theorem install_table (n fd : Fd) (f : File) :
    (k.install n f).table fd=if fd=n then some f else k.table fd := by
  simp [install,Function.update_apply]
@[simp] theorem install_polls (n : Fd) (f : File) : (k.install n f).polls=k.polls := rfl
@[simp] theorem install_backlog (n : Fd) (f : File) : (k.install n f).backlog=k.backlog := rfl
@[simp] theorem install_conns (n : Fd) (f : File) : (k.install n f).conns=k.conns := rfl
@[simp] theorem install_born (n : Fd) (f : File) : (k.install n f).born=k.born := rfl

theorem close_table (fd x : Fd) :
    (k.close fd).table x=if x=fd then none else k.table x := by
  unfold close
  split
  · rename_i h
    split_ifs with hx
    · rw [hx,h]
    · rfl
  · simp [Function.update_apply]

theorem close_interest (hw : k.Wf) (fd p x : Fd) :
    ((k.close fd).polls p).interest x=if x=fd then none else (k.polls p).interest x := by
  unfold close
  split
  · rename_i h
    split_ifs with hx
    · by_contra hn
      exact hw.watched p x hn (hx ▸ h)
    · rfl
  · exact Poll.del_interest _ _ _

theorem close_watch (hw : k.Wf) (fd p x : Fd) :
    (k.close fd).watch p x=if x=fd then none else k.watch p x := close_interest hw fd p x

@[simp] theorem install_watch (n p x : Fd) (f : File) :
    (k.install n f).watch p x=k.watch p x := rfl
@[simp] theorem setConn_watch (c : ConnId) (y : Conn) (p x : Fd) :
    (k.setConn c y).watch p x=k.watch p x := rfl
@[simp] theorem setPipe_watch (c : ConnId) (q : Pipe Byte) (p x : Fd) :
    (k.setPipe c q).watch p x=k.watch p x := rfl
@[simp] theorem notify_watch (fd p x : Fd) : (k.notify fd).watch p x=k.watch p x := rfl
@[simp] theorem wake_watch (c : ConnId) (p x : Fd) : (k.wake c).watch p x=k.watch p x := by
  unfold wake
  split <;> rfl
@[simp] theorem accept_table (l n x : Fd) (c : ConnId) :
    (k.accept l n c).table x=if x=n then some (.conn c 0) else k.table x := by
  simp [accept,Function.update_apply]
@[simp] theorem accept_watch (l n p x : Fd) (c : ConnId) :
    (k.accept l n c).watch p x=k.watch p x := rfl
@[simp] theorem register_table (ep fd : Fd) (r : Trigger) :
    (k.register ep fd r).table=k.table := rfl
@[simp] theorem deregister_table (ep fd : Fd) : (k.deregister ep fd).table=k.table := rfl
theorem register_watch (ep fd p x : Fd) (r : Trigger) :
    (k.register ep fd r).watch p x=if p=ep ∧ x=fd then some r else k.watch p x := by
  unfold register watch
  by_cases hp : p=ep
  · subst p
    simp [Poll.add_interest]
  · simp [hp]
theorem deregister_watch (ep fd p x : Fd) :
    (k.deregister ep fd).watch p x=if p=ep ∧ x=fd then none else k.watch p x := by
  unfold deregister watch
  by_cases hp : p=ep
  · subst p
    simp [Poll.del_interest]
  · simp [hp]
theorem update_poll_watch (ep p x : Fd) (q : Poll Fd) :
    { k with polls := Function.update k.polls ep q : Kernel }.watch p x=
      if p=ep then q.interest x else k.watch p x := by
  unfold watch
  by_cases hp : p=ep <;> simp [hp]

theorem owns_nonneg (hw : k.Wf) {fd : Fd} (h : k.Owns fd) : 0≤fd := by
  obtain ⟨f,hf,-⟩ := h
  exact hw.nonneg fd (by simp [hf])

theorem install_owns {n : Fd} {f : File} (hf : f≠.foreign) (fd : Fd) :
    (k.install n f).Owns fd ↔ fd=n ∨ k.Owns fd := by
  unfold Owns
  by_cases h : fd=n <;> simp [h,hf]

theorem close_owns (fd x : Fd) : (k.close fd).Owns x ↔ x≠fd ∧ k.Owns x := by
  unfold Owns
  by_cases h : x=fd <;> simp [close_table,h]

theorem Agrees.congr {l : Kernel} (h : k.Agrees t) (ho : ∀ fd,l.Owns fd ↔ k.Owns fd) :
    l.Agrees t :=
  fun fd => (h fd).trans (ho fd).symm

theorem Agrees.touch (h : k.Agrees t) (fds : List Fd) : k.Agrees (touches fds++t) := by
  intro fd
  rw [held_touches]
  exact h fd

theorem Agrees.acquire {l : Kernel} (h : k.Agrees t) (n : Fd)
    (ho : ∀ fd,l.Owns fd ↔ fd=n ∨ k.Owns fd) : l.Agrees (.acquire n::t) := by
  intro fd
  rw [ho,Ledger.held_acquire,Bool.or_eq_true,decide_eq_true_eq,h fd,eq_comm]

theorem Agrees.release {l : Kernel} (h : k.Agrees t) (n : Fd)
    (ho : ∀ fd,l.Owns fd ↔ fd≠n ∧ k.Owns fd) : l.Agrees (.release n::t) := by
  intro fd
  rw [ho,Ledger.held_release,Bool.and_eq_true,decide_eq_true_eq,h fd,ne_comm]

theorem Agrees.free (h : k.Agrees t) {n : Fd} (hn : k.fresh n=true) :
    Ledger.held n t=false := by
  rw [← Bool.not_eq_true,h]
  rintro ⟨f,hf,-⟩
  rw [((k.fresh_iff n).mp hn).2] at hf
  cases hf

/-- `close` of any number, -1 included. -/
theorem Agrees.close (hw : k.Wf) (h : k.Agrees t) (fd : Fd) (r : Reply) :
    (k.close fd).Agrees ((Call.close fd).entries r++t) := by
  by_cases hm : fd=-1
  · subst fd
    have same : k.close (-1)=k := by simp [Kernel.close,hw.minus_one]
    rw [same]
    exact h
  · simpa [Call.entries,hm] using h.release fd (close_owns fd)

theorem install_wf (hw : k.Wf) (n : Fd) (f : File) (hn : k.fresh n=true)
    (hf : ∀ c g,f≠.conn c g) : (k.install n f).Wf where
  nonneg := by
    intro fd h
    by_cases hx : fd=n
    · exact hx ▸ ((k.fresh_iff n).mp hn).1
    · exact hw.nonneg fd (by simpa [hx] using h)
  attached := by
    intro fd c g h
    by_cases hx : fd=n
    · exact absurd (by simpa [hx] using h) (hf c g)
    · exact hw.attached fd c g (by simpa [hx] using h)
  owner := by
    intro c fd h
    obtain ⟨g,hg⟩ := hw.owner c fd h
    refine ⟨g,?_⟩
    have free := ((k.fresh_iff n).mp hn).2
    by_cases hx : fd=n
    · rw [hx,free] at hg
      cases hg
    · simpa [hx] using hg
  queued := hw.queued
  distinct := hw.distinct
  apart := hw.apart
  watched := by
    intro p fd h
    rw [install_table]
    split
    · simp
    · exact hw.watched p fd h
  unborn := hw.unborn
  bounded := by
    obtain ⟨b,hb⟩ := hw.bounded
    refine ⟨max b (n+1),fun fd hfd => ?_⟩
    have above : fd≠n := fun h =>
      absurd (h ▸ (le_max_right b (n+1)).trans hfd) (not_le.mpr (Int.lt_succ n))
    simpa [above] using hb fd ((le_max_left _ _).trans hfd)

/-- Replacing an open file by another one of the same kind. -/
theorem reinstall_wf (hw : k.Wf) (fd : Fd) (f g : File) (hf : k.table fd=some f)
    (hc : ∀ c a,g=.conn c a → ∃ b,f=.conn c b) (hd : ∀ c b,f=.conn c b → ∃ a,g=.conn c a) :
    (k.install fd g).Wf where
  nonneg := by
    intro x h
    by_cases hx : x=fd
    · exact hx ▸ hw.nonneg fd (by simp [hf])
    · exact hw.nonneg x (by simpa [hx] using h)
  attached := by
    intro x c a h
    by_cases hx : x=fd
    · obtain ⟨b,hb⟩ := hc c a (by simpa [hx] using h)
      exact hw.attached x c b (by rw [hx,hf,hb])
    · exact hw.attached x c a (by simpa [hx] using h)
  owner := by
    intro c x h
    obtain ⟨b,hb⟩ := hw.owner c x h
    by_cases hx : x=fd
    · obtain ⟨a,ha⟩ := hd c b (by rw [hx,hf] at hb; exact Option.some.inj hb)
      exact ⟨a,by simp [hx,ha]⟩
    · exact ⟨b,by simpa [hx] using hb⟩
  queued := hw.queued
  distinct := hw.distinct
  apart := hw.apart
  watched := by
    intro p x h
    rw [install_table]
    split
    · simp
    · exact hw.watched p x h
  unborn := hw.unborn
  bounded := by
    obtain ⟨b,hb⟩ := hw.bounded
    refine ⟨b,fun x hx => ?_⟩
    have other : x≠fd := by
      rintro rfl
      simp [hb x hx] at hf
    simpa [other] using hb x hx

/-- `close` detaches the connection of its descriptor and no other. -/
theorem close_fd (hw : k.Wf) (fd : Fd) (c : ConnId) : ((k.close fd).conns c).fd=
    if (k.conns c).fd=some fd then none else (k.conns c).fd := by
  cases hf : k.table fd with
  | none =>
    have other : (k.conns c).fd≠some fd := by
      intro h
      obtain ⟨a,ha⟩ := hw.owner c fd h
      rw [hf] at ha
      cases ha
    simp [close,hf,other]
  | some f =>
    cases f with
    | conn d g =>
      have own := (hw.attached fd d g hf).1
      by_cases hc : c=d
      · simp [close,hf,hc,own]
      · have other : (k.conns c).fd≠some fd := by
          intro h
          obtain ⟨a,ha⟩ := hw.owner c fd h
          rw [hf] at ha
          cases ha
          exact hc rfl
        simp [close,hf,hc,other]
    | _ =>
      have other : (k.conns c).fd≠some fd := by
        intro h
        obtain ⟨a,ha⟩ := hw.owner c fd h
        rw [hf] at ha
        cases ha
      simp [close,hf,other]

theorem close_wf (hw : k.Wf) (fd : Fd) : (k.close fd).Wf := by
  cases hf : k.table fd with
  | none =>
    have heq : k.close fd=k := by simp [close,hf]
    rwa [heq]
  | some f =>
    have conns (c : ConnId) := close_fd hw fd c
    have backlog (l : Fd) : (k.close fd).backlog l=if l=fd then [] else k.backlog l := by
      simp [close,hf,Function.update_apply]
    have born : (k.close fd).born=k.born := by simp [close,hf]
    refine ⟨?_,?_,?_,?_,?_,?_,?_,?_,?_⟩
    · intro x h
      rw [close_table] at h
      split at h
      · exact absurd rfl h
      · exact hw.nonneg x h
    · intro x c a h
      rw [close_table] at h
      split at h
      · cases h
      · rename_i hx
        obtain ⟨own,hb⟩ := hw.attached x c a h
        rw [conns,born,own]
        simp [hx,hb]
    · intro c x h
      rw [conns] at h
      split at h
      · cases h
      · rename_i hc
        obtain ⟨a,ha⟩ := hw.owner c x h
        have hx : x≠fd := fun e => hc (e ▸ h)
        exact ⟨a,by rw [close_table,if_neg hx,ha]⟩
    · intro l c h
      rw [backlog] at h
      split at h
      · cases h
      · obtain ⟨free,hb⟩ := hw.queued l c h
        rw [conns,born,free]
        simp [hb]
    · intro l
      rw [backlog]
      split
      · simp
      · exact hw.distinct l
    · intro l l' c h h'
      rw [backlog] at h h'
      split at h
      · cases h
      · split at h'
        · cases h'
        · exact hw.apart l l' c h h'
    · intro p x h
      rw [close_interest hw] at h
      rw [close_table]
      split_ifs at h ⊢ with hx
      · exact absurd rfl h
      · exact hw.watched p x h
    · intro c hc
      rw [born] at hc
      have young := hw.unborn c hc
      cases f with
      | conn d g =>
        have hd : c≠d := (Nat.lt_of_lt_of_le (hw.attached fd d g hf).2 hc).ne'
        simpa [close,hf,hd] using young
      | _ => simpa [close,hf] using young
    · obtain ⟨b,hb⟩ := hw.bounded
      refine ⟨b,fun x hx => ?_⟩
      rw [close_table,hb x hx]
      split <;> rfl

theorem polls_wf (hw : k.Wf) (q : Fd → Poll Fd)
    (hq : ∀ p fd,(q p).interest fd≠none → k.table fd≠none) : { k with polls := q }.Wf :=
  ⟨hw.nonneg,hw.attached,hw.owner,hw.queued,hw.distinct,hw.apart,hq,hw.unborn,hw.bounded⟩

theorem update_poll_wf (hw : k.Wf) (ep : Fd) (q : Poll Fd)
    (hq : ∀ fd,q.interest fd≠none → k.table fd≠none) :
    { k with polls := Function.update k.polls ep q }.Wf := by
  refine polls_wf hw _ fun p fd h => ?_
  by_cases hp : p=ep
  · subst p
    exact hq fd (by simpa using h)
  · exact hw.watched p fd (by simpa [hp] using h)

theorem notify_wf (hw : k.Wf) (fd : Fd) : (k.notify fd).Wf :=
  polls_wf hw _ fun p x h => hw.watched p x h

/-- Updates that leave every attachment alone. -/
theorem setConn_wf (hw : k.Wf) (c : ConnId) (x : Conn) (hb : c<k.born)
    (hx : x.fd=(k.conns c).fd) : (k.setConn c x).Wf := by
  have same (d : ConnId) : ((k.setConn c x).conns d).fd=(k.conns d).fd := by
    by_cases h : d=c
    · simp [setConn,h,hx]
    · simp [setConn,h]
  refine ⟨hw.nonneg,?_,?_,?_,hw.distinct,hw.apart,hw.watched,?_,hw.bounded⟩
  · intro fd d f h
    rw [same]
    exact hw.attached fd d f h
  · intro d fd h
    rw [same] at h
    exact hw.owner d fd h
  · intro l d h
    rw [same]
    exact hw.queued l d h
  · intro d hd
    have ne : d≠c := (Nat.lt_of_lt_of_le hb hd).ne'
    simpa [setConn,ne] using hw.unborn d hd

theorem setPipe_wf (hw : k.Wf) (c : ConnId) (p : Pipe Byte) (hb : c<k.born) :
    (k.setPipe c p).Wf :=
  setConn_wf hw c _ hb rfl

theorem wake_wf (hw : k.Wf) (c : ConnId) : (k.wake c).Wf := by
  unfold wake
  split
  · exact notify_wf hw _
  · exact hw

theorem accept_wf (hw : k.Wf) (l n : Fd) (c : ConnId) (hn : k.fresh n=true)
    (hc : (k.backlog l).head?=some c) : (k.accept l n c).Wf := by
  have hm : c∈k.backlog l := List.mem_of_mem_head? hc
  obtain ⟨rest,hl⟩ : ∃ rest,k.backlog l=c::rest := by
    cases h : k.backlog l with
    | nil => simp [h] at hm
    | cons a rest => exact ⟨rest,by rw [h] at hc; cases hc; rfl⟩
  have gone : ∀ l',c∉(k.accept l n c).backlog l' := by
    intro l' h
    have nd := hl ▸ hw.distinct l
    by_cases hl' : l'=l
    · have : c∈rest := by simpa [accept,hl',hl] using h
      exact (List.nodup_cons.mp nd).1 this
    · have hm' : c∈k.backlog l' := by simpa [accept,hl'] using h
      exact hl' (hw.apart l' l c hm' hm)
  have sub (l' : Fd) (d : ConnId) (h : d∈(k.accept l n c).backlog l') : d∈k.backlog l' := by
    by_cases hl' : l'=l
    · subst l'
      exact List.mem_of_mem_tail (by simpa [accept] using h)
    · simpa [accept,hl'] using h
  have free := ((k.fresh_iff n).mp hn).2
  have alone := (hw.queued l c hm).1
  have table (x : Fd) : (k.accept l n c).table x=
      if x=n then some (.conn c 0) else k.table x := by
    simp [accept,Function.update_apply]
  have conns (d : ConnId) : ((k.accept l n c).conns d).fd=
      if d=c then some n else (k.conns d).fd := by
    by_cases hd : d=c <;> simp [accept,hd]
  refine ⟨?_,?_,?_,?_,?_,?_,?_,?_,?_⟩
  · intro x h
    rw [table] at h
    split at h
    · rename_i hx
      exact hx ▸ ((k.fresh_iff n).mp hn).1
    · exact hw.nonneg x h
  · intro x d f h
    rw [table] at h
    rw [conns]
    split at h
    · rename_i hx
      cases h
      simp [hx,(hw.queued l c hm).2,accept]
    · obtain ⟨own,hb⟩ := hw.attached x d f h
      have hd : d≠c := by
        rintro rfl
        rw [alone] at own
        cases own
      simp [hd,own,hb,accept]
  · intro d x h
    rw [conns] at h
    split at h
    · rename_i hd
      cases h
      exact ⟨0,by simp [hd]⟩
    · obtain ⟨f,hf⟩ := hw.owner d x h
      have hx : x≠n := by
        rintro rfl
        rw [free] at hf
        cases hf
      exact ⟨f,by rw [table,if_neg hx,hf]⟩
  · intro l' d h
    have hd : d≠c := fun e => gone l' (e ▸ h)
    rw [conns,if_neg hd]
    exact hw.queued l' d (sub l' d h)
  · intro l'
    by_cases hl' : l'=l
    · simpa [accept,hl'] using (hw.distinct l).sublist (List.tail_sublist _)
    · simpa [accept,hl'] using hw.distinct l'
  · intro a b d ha hb
    exact hw.apart a b d (sub a d ha) (sub b d hb)
  · intro p x h
    rw [table]
    split
    · simp
    · exact hw.watched p x h
  · intro d hd
    have ne : d≠c := (Nat.lt_of_lt_of_le (hw.queued l c hm).2 hd).ne'
    simpa [accept,ne] using hw.unborn d hd
  · obtain ⟨b,hb⟩ := (install_wf hw n .foreign hn (by simp)).bounded
    refine ⟨b,fun x hx => ?_⟩
    have hx := hb x hx
    rw [install_table] at hx
    rw [table]
    split_ifs at hx ⊢
    · exact hx

end effects

section steps

variable {k k' : Kernel}

theorem withFlags_conn {f : File} {n a : Nat} {c : ConnId} (h : f.withFlags n=.conn c a) :
    ∃ b,f=.conn c b := by
  cases f with
  | conn d b =>
    cases h
    exact ⟨b,rfl⟩
  | _ => cases h

theorem connect_wf (hw : k.Wf) (fd : Fd) (f : Nat) (hf : k.table fd=some (.sock f)) :
    { k with
      table := Function.update k.table fd (some (.conn k.born f))
      conns := Function.update k.conns k.born { Conn.new with fd := some fd }
      born := k.born+1 : Kernel }.Wf := by
  refine ⟨?_,?_,?_,?_,hw.distinct,hw.apart,?_,?_,?_⟩
  · intro x h
    by_cases hx : x=fd
    · exact hx ▸ hw.nonneg fd (by simp [hf])
    · exact hw.nonneg x (by simpa [hx] using h)
  · intro x c a h
    by_cases hx : x=fd
    · subst x
      have hc : k.born=c ∧ f=a := by simpa using h
      simp [← hc.1]
    · obtain ⟨own,hb⟩ := hw.attached x c a (by simpa [hx] using h)
      simp [Nat.ne_of_lt hb,own,Nat.lt_succ_of_lt hb]
  · intro c x h
    by_cases hc : c=k.born
    · have hx : fd=x := by simpa [hc] using h
      exact ⟨f,by simp [hc,hx]⟩
    · obtain ⟨a,ha⟩ := hw.owner c x (by simpa [hc] using h)
      have hx : x≠fd := by
        rintro rfl
        rw [hf] at ha
        cases ha
      exact ⟨a,by simp [hx,ha]⟩
  · intro l c h
    obtain ⟨free,hb⟩ := hw.queued l c h
    simp [Nat.ne_of_lt hb,free,Nat.lt_succ_of_lt hb]
  · intro p x h
    by_cases hx : x=fd
    · simp [hx]
    · simpa [hx] using hw.watched p x h
  · intro c hc
    have ne : c≠k.born := (Nat.lt_of_succ_le hc).ne'
    simpa [ne] using hw.unborn c (Nat.le_of_succ_le hc)
  · obtain ⟨b,hb⟩ := hw.bounded
    refine ⟨b,fun x hx => ?_⟩
    have other : x≠fd := by
      rintro rfl
      simp [hb x hx] at hf
    simpa [other] using hb x hx

theorem arrival_wf (hw : k.Wf) (l : Fd) :
    { k with
      backlog := Function.update k.backlog l (k.backlog l++[k.born])
      conns := Function.update k.conns k.born .new
      born := k.born+1 : Kernel }.Wf := by
  have young (l' : Fd) (c : ConnId) (h : c∈k.backlog l') : c≠k.born :=
    Nat.ne_of_lt (hw.queued l' c h).2
  refine ⟨hw.nonneg,?_,?_,?_,?_,?_,hw.watched,?_,hw.bounded⟩
  · intro x c a h
    obtain ⟨own,hb⟩ := hw.attached x c a h
    simp [Nat.ne_of_lt hb,own,Nat.lt_succ_of_lt hb]
  · intro c x h
    by_cases hc : c=k.born
    · simp [hc,Conn.new] at h
    · exact hw.owner c x (by simpa [hc] using h)
  · intro l' c h
    by_cases hc : c=k.born
    · simp [hc,Conn.new]
    · have hm : c∈k.backlog l' := by
        by_cases hl : l'=l
        · simpa [hl,hc] using h
        · simpa [hl] using h
      obtain ⟨free,hb⟩ := hw.queued l' c hm
      simp [hc,free,Nat.lt_succ_of_lt hb]
  · intro l'
    by_cases hl : l'=l
    · have fresh : k.born∉k.backlog l := fun h => young l k.born h rfl
      simp only [hl,Function.update_self]
      exact (hw.distinct l).append (by simp) (by simpa using fresh)
    · simpa [hl] using hw.distinct l'
  · intro a b c ha hb
    by_cases hc : c=k.born
    · have home (l' : Fd) (h : c∈Function.update k.backlog l (k.backlog l++[k.born]) l') :
          l'=l := by
        by_contra hl
        exact young l' c (by simpa [hl] using h) hc
      rw [home a ha,home b hb]
    · have old (l' : Fd) (h : c∈Function.update k.backlog l (k.backlog l++[k.born]) l') :
          c∈k.backlog l' := by
        by_cases hl : l'=l
        · simpa [hl,hc] using h
        · simpa [hl] using h
      exact hw.apart a b c (old a ha) (old b hb)
  · intro c hc
    have ne : c≠k.born := (Nat.lt_of_succ_le hc).ne'
    simpa [ne] using hw.unborn c (Nat.le_of_succ_le hc)

theorem answer_wf (hw : k.Wf) (c : Call) (r : Reply) (h : k.answer c r=some k') : k'.Wf := by
  cases answer_answers h with
  | same => exact hw
  | socket fresh => exact install_wf hw _ _ fresh (by simp)
  | @setFlags fd n f file =>
    refine reinstall_wf hw fd f _ file (fun c a => withFlags_conn) ?_
    rintro c b rfl
    exact ⟨n,rfl⟩
  | listen file kind =>
    rcases kind with rfl|rfl <;> exact reinstall_wf hw _ _ _ file (by simp) (by simp)
  | epollCreate fresh =>
    exact update_poll_wf (install_wf hw _ .epoll fresh (by simp)) _ .empty (by simp)
  | @epollAdd ep fd t file =>
    refine update_poll_wf hw ep _ fun x hx => ?_
    rw [Poll.add_interest] at hx
    split at hx
    · rename_i e
      rw [e]
      exact Option.isSome_iff_ne_none.mp file
    · exact hw.watched ep x hx
  | @epollDel ep fd =>
    refine update_poll_wf hw ep _ fun x hx => ?_
    rw [Poll.del_interest] at hx
    split at hx
    · exact absurd rfl hx
    · exact hw.watched ep x hx
  | @harvest ep => exact update_poll_wf hw ep _ fun x hx => hw.watched ep x hx
  | accept fresh head => exact accept_wf hw _ _ _ fresh head
  | read file => exact setPipe_wf hw _ _ (hw.attached _ _ _ file).2
  | write file => exact setConn_wf hw _ _ (hw.attached _ _ _ file).2 rfl
  | close => exact close_wf hw _
  | connect file => exact connect_wf hw _ _ file

theorem env_wf (hw : k.Wf) (e : Env) (h : k.env e=some k') : k'.Wf := by
  cases env_evolves h with
  | @connect l => exact notify_wf (arrival_wf hw l) l
  | send born => exact setPipe_wf hw _ _ born
  | shut born => exact setPipe_wf hw _ _ born
  | arrive born => exact wake_wf (setPipe_wf hw _ _ born) _
  | finish born => exact wake_wf (setPipe_wf hw _ _ born) _
  | tear born => exact wake_wf (setPipe_wf hw _ _ born) _
  | @prune ep => exact update_poll_wf hw ep _ fun x hx => hw.watched ep x hx
  | openForeign fresh => exact install_wf hw _ _ fresh (by simp)
  | closeForeign => exact close_wf hw _

theorem owns_congr {fd : Fd} (h : k'.table fd=k.table fd) : k'.Owns fd ↔ k.Owns fd := by
  unfold Owns
  rw [h]

@[simp] theorem setConn_table (c : ConnId) (x : Conn) : (k.setConn c x).table=k.table := rfl
@[simp] theorem setPipe_table (c : ConnId) (p : Pipe Byte) : (k.setPipe c p).table=k.table := rfl
@[simp] theorem notify_table (fd : Fd) : (k.notify fd).table=k.table := rfl
@[simp] theorem wake_table (c : ConnId) : (k.wake c).table=k.table := by
  unfold wake
  split <;> rfl

theorem reinstall_owns {fd : Fd} {f g : File} (hf : k.table fd=some f)
    (hg : g=.foreign ↔ f=.foreign) (x : Fd) : (k.install fd g).Owns x ↔ k.Owns x := by
  unfold Owns
  by_cases hx : x=fd <;> simp [hx,hf,hg]

theorem withFlags_foreign (f : File) (n : Nat) : f.withFlags n=.foreign ↔ f=.foreign := by
  cases f <;> simp [File.withFlags]

/-- What a call can do to the set of owned descriptors. -/
theorem answer_owns (c : Call) (r : Reply) (h : k.answer c r=some k') :
    (c.entries r=touches c.names ∧ ∀ fd,k'.Owns fd ↔ k.Owns fd) ∨
    (∃ n,k.fresh n=true ∧ c.entries r=.acquire n::touches c.names ∧
      ∀ fd,k'.Owns fd ↔ fd=n ∨ k.Owns fd) ∨
    (∃ fd,c=.close fd ∧ k'=k.close fd) := by
  cases answer_answers h with
  | same entries => exact .inl ⟨entries,fun _ => Iff.rfl⟩
  | socket fresh => exact .inr (.inl ⟨_,fresh,rfl,install_owns (by simp)⟩)
  | @setFlags fd n f file => exact .inl ⟨rfl,reinstall_owns file (withFlags_foreign f n)⟩
  | listen file kind =>
    rcases kind with rfl|rfl <;> exact .inl ⟨rfl,reinstall_owns file (by simp)⟩
  | epollCreate fresh =>
    exact .inr (.inl ⟨_,fresh,rfl,fun fd => (owns_congr rfl).trans (install_owns (by simp) fd)⟩)
  | accept fresh =>
    exact .inr (.inl ⟨_,fresh,rfl,
      fun fd => (owns_congr rfl).trans (install_owns (f := .conn _ 0) (by simp) fd)⟩)
  | epollAdd | epollDel | harvest | read | write =>
    exact .inl ⟨rfl,fun _ => owns_congr rfl⟩
  | close => exact .inr (.inr ⟨_,rfl,rfl⟩)
  | connect file =>
    exact .inl ⟨rfl,fun fd => (owns_congr rfl).trans
      (reinstall_owns (g := .conn k.born _) file (by simp) fd)⟩

/-- The history and the table stay in step whatever a call names. -/
theorem answer_agrees {t : Ledger Fd} (hw : k.Wf) (ht : k.Agrees t) (c : Call) (r : Reply)
    (h : k.answer c r=some k') : k'.Agrees (c.entries r++t) := by
  rcases answer_owns c r h with ⟨he,ho⟩|⟨n,-,he,ho⟩|⟨fd,rfl,rfl⟩
  · rw [he]
    exact (ht.touch c.names).congr ho
  · rw [he]
    exact (ht.touch c.names).acquire n ho
  · exact ht.close hw fd r

/-- A call that names owned descriptors, or -1, keeps the history disciplined. -/
theorem answer_disciplined {t : Ledger Fd} (hw : k.Wf) (ht : k.Agrees t)
    (hd : Ledger.Disciplined t) (c : Call) (r : Reply)
    (hn : ∀ fd∈c.names,fd=-1 ∨ k.Owns fd) (h : k.answer c r=some k') :
    Ledger.Disciplined (c.entries r++t) := by
  have touched : Ledger.Disciplined (touches c.names++t) :=
    (disciplined_touches c.names t).mpr
      ⟨fun fd hm hne => (ht fd).mpr ((hn fd hm).resolve_left hne),hd⟩
  rcases answer_owns c r h with ⟨he,-⟩|⟨n,hf,he,-⟩|⟨fd,rfl,-⟩
  · rwa [he]
  · rw [he]
    exact ⟨(ht.touch c.names).free hf,touched⟩
  · rcases hn fd (by simp [Call.names]) with rfl|ho
    · exact hd
    · have ne : fd≠-1 := by
        rintro rfl
        exact absurd (owns_nonneg hw ho) (by decide)
      simpa [Call.entries,ne] using And.intro ((ht fd).mpr ho) hd

/-- A call that fails changes nothing, except that `close` frees the number. -/
theorem answer_fail {c : Call} {e : Errno} (hc : ∀ fd,c≠.close fd)
    (h : k.answer c (.fail e)=some k') : k'=k := by
  cases answer_answers h with
  | same => rfl
  | @close fd => exact absurd rfl (hc fd)

theorem answer_quiet {c : Call} {r : Reply} (hc : c.quiet=true) (h : k.answer c r=some k') :
    (∀ x,k'.table x=k.table x) ∧ ∀ p x,k'.watch p x=k.watch p x := by
  cases answer_answers h with
  | same | read | write => exact ⟨fun _ => rfl,fun _ _ => rfl⟩
  | @harvest ep =>
    refine ⟨fun _ => rfl,fun p x => ?_⟩
    rw [update_poll_watch]
    split
    · rename_i hp
      rw [hp]
      rfl
    · rfl
  | _ => cases hc

/-- A descriptor stays non-blocking until it is closed, unless its flags are set otherwise. -/
theorem answer_nonblocking {c : Call} {r : Reply} (h : k.answer c r=some k') {x : Fd} {f : File}
    (hf : k.table x=some f) (hb : nonblocking f.flags=true)
    (set : ∀ n,c=.setFlags x n → nonblocking n=true) (open' : c≠.close x) :
    ∃ g,k'.table x=some g ∧ nonblocking g.flags=true := by
  have away {n : Fd} (fresh : k.fresh n=true) : x≠n := by
    rintro rfl
    rw [((k.fresh_iff x).mp fresh).2] at hf
    cases hf
  cases answer_answers h with
  | same | epollAdd | epollDel | harvest | read | write => exact ⟨f,hf,hb⟩
  | socket fresh | epollCreate fresh => exact ⟨f,by simpa [away fresh] using hf,hb⟩
  | accept fresh => exact ⟨f,by simpa [away fresh] using hf,hb⟩
  | @setFlags fd n g file =>
    by_cases hx : x=fd
    · subst fd
      have named := set n rfl
      rw [hf] at file
      cases file
      refine ⟨f.withFlags n,by simp,?_⟩
      cases f with
      | sock a | listener a | conn d a => exact named
      | epoll | foreign => exact hb
    · exact ⟨f,by simpa [hx] using hf,hb⟩
  | @listen fd a g file kind =>
    by_cases hx : x=fd
    · subst fd
      rw [hf] at file
      cases file
      refine ⟨.listener a,by simp,?_⟩
      rcases kind with rfl|rfl <;> exact hb
    · exact ⟨f,by simpa [hx] using hf,hb⟩
  | @close fd =>
    have other : x≠fd := fun e => open' (e ▸ rfl)
    exact ⟨f,by rw [close_table,if_neg other,hf],hb⟩
  | @connect fd _ a file =>
    by_cases hx : x=fd
    · subst fd
      rw [hf] at file
      cases file
      exact ⟨.conn k.born a,by simp,hb⟩
    · exact ⟨f,by simpa [hx] using hf,hb⟩

theorem attached_congr {fd : Fd} (h : k'.table fd=k.table fd) :
    k'.Attached fd ↔ k.Attached fd := by
  unfold Attached
  rw [h]

theorem install_attached {n : Fd} {f : File} (hn : ∀ c a,k.table n≠some (.conn c a))
    (hf : ∀ c a,f≠.conn c a) (fd : Fd) : (k.install n f).Attached fd ↔ k.Attached fd := by
  unfold Attached
  by_cases hx : fd=n <;> simp [hx,hn,hf]

theorem answer_attached {c : Call} {r : Reply} (hc : c.attaches=false)
    (h : k.answer c r=some k') (fd : Fd) : k'.Attached fd ↔ k.Attached fd := by
  cases answer_answers h with
  | same | epollAdd | epollDel | harvest | read | write => exact attached_congr rfl
  | socket fresh =>
    apply install_attached _ (by simp)
    simp [((k.fresh_iff _).mp fresh).2]
  | epollCreate fresh =>
    refine (attached_congr (k := k.install _ .epoll) rfl).trans (install_attached ?_ (by simp) fd)
    simp [((k.fresh_iff _).mp fresh).2]
  | @setFlags x n f file =>
    unfold Attached
    by_cases hx : fd=x
    · cases f <;> simp [hx,file,File.withFlags]
    · simp [hx]
  | listen file kind =>
    rcases kind with rfl|rfl <;> exact install_attached (by simp [file]) (by simp) fd
  | accept | connect | close => cases hc

theorem close_attached (fd x : Fd) : (k.close fd).Attached x ↔ x≠fd ∧ k.Attached x := by
  unfold Attached
  by_cases h : x=fd <;> simp [close_table,h]

theorem answer_close {fd : Fd} {r : Reply} (hw : k.Wf) (h : k.answer (.close fd) r=some k') :
    (∀ x,k'.table x=if x=fd then none else k.table x) ∧
      ∀ p x,k'.watch p x=if x=fd then none else k.watch p x := by
  rw [(answerClose_cases h).1]
  exact ⟨close_table fd,close_watch hw fd⟩

/-- Whatever happens outside the object leaves its files alone: the table changes
at numbers only that are free or foreign before and after. -/
theorem env_table (e : Env) (h : k.env e=some k') (fd : Fd) :
    k'.table fd=k.table fd ∨ (∀ f,k'.table fd=some f → f=.foreign) ∧
      ∀ f,k.table fd=some f → f=.foreign := by
  cases env_evolves h with
  | connect | send | shut | prune => exact .inl rfl
  | arrive | finish | tear => exact .inl (by simp)
  | @openForeign n fresh =>
    have free := ((k.fresh_iff n).mp fresh).2
    by_cases hx : fd=n
    · right
      simp [hx,free]
    · left
      simp [hx]
  | @closeForeign n file =>
    by_cases hx : fd=n
    · right
      simp [hx,close_table,file]
    · left
      simp [hx,close_table]

/-- The interest sets change outside the object only where a foreign descriptor is
closed. -/
theorem env_watch (hw : k.Wf) (e : Env) (h : k.env e=some k') (p x : Fd) :
    k'.watch p x=k.watch p x ∨ k'.watch p x=none ∧ k.table x=some .foreign := by
  cases env_evolves h with
  | connect | send | shut | openForeign => exact .inl rfl
  | arrive | finish | tear => exact .inl (by simp)
  | @prune ep fd =>
    left
    rw [update_poll_watch]
    split
    · rename_i hp
      rw [hp]
      rfl
    · rfl
  | @closeForeign n file =>
    rw [close_watch hw]
    split
    · rename_i hx
      exact .inr ⟨rfl,by rw [hx,file]⟩
    · exact .inl rfl

/-- Nothing outside the object changes what it owns. -/
theorem env_owns (e : Env) (h : k.env e=some k') (fd : Fd) : k'.Owns fd ↔ k.Owns fd := by
  rcases env_table e h fd with heq|⟨after,before⟩
  · exact owns_congr heq
  · constructor
    · rintro ⟨f,hf,hn⟩
      exact absurd (after f hf) hn
    · rintro ⟨f,hf,hn⟩
      exact absurd (before f hf) hn

theorem env_attached (e : Env) (h : k.env e=some k') (fd : Fd) :
    k'.Attached fd ↔ k.Attached fd := by
  rcases env_table e h fd with heq|⟨after,before⟩
  · exact attached_congr heq
  · constructor
    · rintro ⟨c,f,hf⟩
      exact absurd (after _ hf) (by simp)
    · rintro ⟨c,f,hf⟩
      exact absurd (before _ hf) (by simp)

theorem env_agrees {t : Ledger Fd} (ht : k.Agrees t) (e : Env) (h : k.env e=some k') :
    k'.Agrees t :=
  ht.congr (env_owns e h)

/-- The same descriptors are owned and the same ones are attached. -/
def Keeps (k l : Kernel) : Prop :=
  ∀ fd,(l.Owns fd ↔ k.Owns fd) ∧ (l.Attached fd ↔ k.Attached fd)

theorem Keeps.refl (k : Kernel) : k.Keeps k := fun _ => ⟨Iff.rfl,Iff.rfl⟩

theorem env_keeps (e : Env) (h : k.env e=some k') : k.Keeps k' :=
  fun fd => ⟨env_owns e h fd,env_attached e h fd⟩

theorem answer_keeps {c : Call} {r : Reply} (hc : c.steady=true) (h : k.answer c r=some k') :
    k.Keeps k' := by
  have entries := steady_entries hc r
  have attaches := steady_attaches hc
  have owns : ∀ fd,k'.Owns fd ↔ k.Owns fd := by
    rcases answer_owns c r h with ⟨-,ho⟩|⟨n,-,he,-⟩|⟨fd,rfl,-⟩
    · exact ho
    · rw [entries] at he
      exact absurd (congrArg List.length he) (by simp)
    · cases hc
  exact fun fd => ⟨owns fd,answer_attached attaches h fd⟩

theorem attached_owns {fd : Fd} (h : k.Attached fd) : k.Owns fd := by
  obtain ⟨c,f,hf⟩ := h
  exact ⟨_,hf,by simp⟩

/-- A socket that gets connected stays owned, and becomes attached. -/
theorem connect_attached {fd : Fd} {res : Nat} (h : k.answer (.connect fd res) .ok=some k') :
    (∀ x,k'.Owns x ↔ k.Owns x) ∧ ∀ x,k'.Attached x ↔ x=fd ∨ k.Attached x := by
  rcases connect_cases h with ⟨-,f,hf,rfl⟩|⟨e,he,-⟩
  · constructor
    · intro x
      unfold Owns
      by_cases hx : x=fd <;> simp [hx,hf]
    · intro x
      unfold Attached
      by_cases hx : x=fd <;> simp [hx]
  · cases he

end steps

end Kernel

end TuyulNet
