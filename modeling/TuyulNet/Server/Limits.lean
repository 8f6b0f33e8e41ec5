import TuyulNet.Server.Flood

namespace TuyulNet.Server

open Framework Kernel

/-- In every run `start` throws nothing, and it takes a connection for closed only when a read on
it has failed, or its peer has ended the stream and nothing of that is left. -/
def Copes (o : TcpOptions) : Prop :=
  ∀ port loggerCb dataCb foreign as s,
    machine.run (.boot port o loggerCb dataCb foreign) as=some s →
    s.pc≠.threw ∧ ∀ fd rest r t,s.pc=.read fd rest → s.reactor r=some t →
      t.pc=.delClient fd rest →
      (∃ e,r=.fail e) ∨ ∀ c f,s.kernel.table fd=some (.conn c f) → s.kernel.Ended c

section limits

variable {o : TcpOptions}

theorem step_caught (ho : o.allocates=true) (s : State) (a : Action) (t : State)
    (h : Sized o s ∧ s.pc≠.threw) (hs : machine.step s a=some t) : Sized o t ∧ t.pc≠.threw := by
  refine ⟨step_sized s a t h.1 hs,?_⟩
  cases a with
  | reactor r =>
    obtain ⟨k,i,pc,lines,-,hn,rfl⟩ := reactor_cases hs
    exact next_caught (by rw [h.1.entered.kept,ho]) hn
  | env e =>
    obtain ⟨k,-,rfl⟩ := Option.map_eq_some_iff.mp hs
    exact h.2
  | stop nested =>
    cases hs
    exact h.2

/-- With sizes that are not negative, and room for a byte if there is room for an event, `start`
does its work. -/
theorem copes_within (h : o.Workable) : Copes o := by
  obtain ⟨hm,hb,room⟩ := h
  intro port loggerCb dataCb foreign as s hr
  have ho : o.allocates=true := by simp [TcpOptions.allocates,hm,hb]
  obtain ⟨sized,caught⟩ := machine.always (step_caught ho) as _ s
    ⟨boot_sized port o loggerCb dataCb foreign,by simp [State.boot]⟩ hr
  refine ⟨caught,fun fd rest r t hp hs hq => ?_⟩
  obtain ⟨k,i,pc,lines,hk,hn,rfl⟩ := reactor_cases hs
  have kept := sized.entered.kept
  rcases room with none|room
  · -- no event, no read
    have few := sized.sized
    rw [hp,none] at few
    simp [Pc.polling] at few
  · rw [hp] at hk hn
    have hk : s.kernel.answer (.read fd s.impl.options.bufferSize) r=some k := hk
    cases r with
    | fail e => exact .inl ⟨e,rfl⟩
    | data bs =>
      by_cases hbs : bs=[]
      · subst hbs
        refine .inr fun c f hf => read_end ?_ hk hf
        rw [kept]
        show 0 < o.networkBufferSize.toNat
        omega
      · cases hd : s.impl.dataCb <;> simp [Pc.next,drainNext,hbs,hd] at hn <;>
          rw [← hn.2.1] at hq <;> cases hq
    | _ => cases hn

/-- A client is connected, has sent a byte, and `start` is about to read it. -/
def byteWaiting : List Action :=
  oneClient++[.env (.send 0 [65]),.env (.arrive 0 1),.reactor .ok,
    .reactor (.events [⟨5,⟨true,false,false⟩⟩]),.reactor .ok]

/-- A read of zero bytes is taken for the end of the stream. -/
theorem not_copes_empty (hm : 1 ≤ o.maxEpollEvents) (hb : o.networkBufferSize=0) : ¬Copes o := by
  intro h
  have run : (machine.run (.boot 8080 ⟨1,0,5000⟩ false true []) byteWaiting).map (fun s =>
      (s.pc,s.kernel.table 5,decide (s.kernel.Ended 0)))=
      some (.read 5 [],some (.conn 0 (2 ||| oNonblock)),false) := by
    decide +kernel
  obtain ⟨s,hs,seen⟩ := Option.map_eq_some_iff.mp run
  simp only [Prod.mk.injEq] at seen
  obtain ⟨pc,file,open'⟩ := seen
  obtain ⟨empty,within⟩ := TcpOptions.within_empty hm hb
  obtain ⟨trace,ht⟩ := run_widened within byteWaiting (by decide)
    (.boot 8080 ⟨1,0,5000⟩ false true []) s rfl hs []
  have nothing : s.kernel.answer ((s.widen o trace).pc.call (s.widen o trace).impl) (.data [])=
      some s.kernel := by
    show s.kernel.answer (s.pc.call { s.impl with options := o }) _=_
    rw [pc]
    simp [Pc.call,answer,answerRead,file,readConn,empty]
  obtain ⟨lines,dismissed⟩ : ∃ lines,(s.widen o trace).pc.next (s.widen o trace).impl (.data [])=
      some ({ s.impl with options := o },.delClient 5 [],lines) := by
    show ∃ lines,s.pc.next { s.impl with options := o } _=some (_,_,lines)
    rw [pc]
    exact ⟨_,rfl⟩
  rcases (h 8080 false true [] byteWaiting _ ht).2 5 [] _ _ pc (reactor_of nothing dismissed) rfl
    with ⟨e,he⟩|ended
  · cases he
  · exact of_decide_eq_false open' (ended 0 _ file)

/-- A negative size makes the allocation throw, with the server up and running. -/
theorem not_copes_negative (ho : o.allocates=false) : ¬Copes o := by
  intro h
  have boot := boot_entered 8080 o false true []
  obtain ⟨as,s,hr,here,-,kept⟩ :=
    setup_allocates _ (.boot 8080 o false true []) le_rfl boot.fresh rfl
  obtain ⟨t,hs,-,pc⟩ := allocates_step here
  have run : machine.run (.boot 8080 o false true []) (as++[.reactor .ok])=some t :=
    (machine.run_append _ _ _ _).mpr ⟨s,hr,(machine.run_single _ _ _).mpr hs⟩
  have options : s.impl.options.allocates=false := kept ▸ ho
  exact (h 8080 false true [] _ t run).1 (by rw [pc,options]; rfl)

theorem copes_iff (o : TcpOptions) : Copes o ↔ o.Workable :=
  o.workable_iff not_copes_negative not_copes_empty copes_within

end limits

end TuyulNet.Server
