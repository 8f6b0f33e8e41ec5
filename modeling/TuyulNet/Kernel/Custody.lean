import TuyulNet.Kernel.Streams

namespace TuyulNet.Kernel

open Framework

/-- What has become of the bytes that were read: `got` has been handed over, one
payload after the other, `hand` is still to be handed over, and `ended` tells whose
end has been seen. -/
structure Custody (k : Kernel) (size : Nat) (got : ConnId → List Bytes) (hand : ConnId → Bytes)
    (ended : ConnId → Bool) : Prop where
  bytes : ∀ c,(got c).flatten++hand c=(k.conns c).pipe.taken
  pieces : ∀ c,∀ bs∈got c,bs≠[] ∧ bs.length ≤ size
  held : ∀ c,(hand c).length ≤ size
  ended : ∀ c,ended c=true → (k.conns c).pipe.Complete ∧ hand c=[]

variable {k k' : Kernel} {size : Nat} {got : ConnId → List Bytes} {hand : ConnId → Bytes}
  {ended : ConnId → Bool}

namespace Custody

theorem congr {got' : ConnId → List Bytes} {hand' : ConnId → Bytes} {ended' : ConnId → Bool}
    (h : Custody k size got hand ended) (hg : ∀ c,got' c=got c) (hh : ∀ c,hand' c=hand c)
    (he : ∀ c,ended' c=ended c) : Custody k size got' hand' ended' := by
  obtain rfl : got'=got := funext hg
  obtain rfl : hand'=hand := funext hh
  obtain rfl : ended'=ended := funext he
  exact h

/-- Calls that take nothing from a stream. -/
theorem idle (h : Custody k size got hand ended)
    (hp : ∀ c,(k'.conns c).pipe=(k.conns c).pipe) : Custody k' size got hand ended where
  bytes := fun c => by rw [hp,h.bytes]
  pieces := h.pieces
  held := h.held
  ended := fun c hc => by
    rw [hp]
    exact h.ended c hc

theorem env (h : Custody k size got hand ended) (hw : k.Wf) (e : Env) (hk : k.env e=some k') :
    Custody k' size got hand ended where
  bytes := fun c => (h.bytes c).trans (env_pipe hw e hk c).2.1.symm
  pieces := h.pieces
  held := h.held
  ended := fun c hc => ⟨(h.ended c hc).1.grows (env_pipe hw e hk c).1,(h.ended c hc).2⟩

/-- A read takes `bs` from the front of stream `c`, and nothing else is in hand. -/
theorem take (h : Custody k size got (fun _ => []) ended) {c : ConnId} {bs : Bytes}
    {p : Pipe Byte} (hb : bs≠[]) (hl : bs.length ≤ size)
    (hp : (k.conns c).pipe.take bs=some p) :
    Custody (k.setPipe c p) size got (fun d => if d=c then bs else []) ended where
  bytes := by
    intro d
    have before := h.bytes d
    rw [List.append_nil] at before
    rw [setPipe_pipe]
    by_cases hd : d=c
    · subst d
      simp only [if_true]
      rw [before,(Pipe.take_spec _ p bs hp).2.2.1]
    · simp only [if_neg hd,List.append_nil]
      exact before
  pieces := h.pieces
  held := by
    intro d
    split
    · exact hl
    · exact Nat.zero_le _
  ended := by
    intro d hd
    have full := (h.ended d hd).1
    rw [setPipe_pipe]
    by_cases hdc : d=c
    · -- a complete stream has nothing left to take
      subst d
      have grows := Pipe.take_grows hp
      have grown := (full.grows grows).2.trans (grows.closed full.1).2
      rw [(Pipe.take_spec _ p bs hp).2.2.1,← full.2] at grown
      exact absurd (List.append_right_eq_self.mp grown) hb
    · exact ⟨by rw [if_neg hdc]; exact full,if_neg hdc⟩

/-- What is in hand is handed over. -/
theorem deliver {c : ConnId} {bs : Bytes} (hb : bs≠[])
    (h : Custody k size got (fun d => if d=c then bs else []) ended) :
    Custody k size (fun d => if d=c then got d++[bs] else got d) (fun _ => []) ended where
  bytes := by
    intro d
    have before := h.bytes d
    by_cases hd : d=c
    · simpa [hd] using before
    · simpa [hd] using before
  pieces := by
    intro d b hm
    by_cases hd : d=c
    · simp only [hd,if_true,List.mem_append,List.mem_singleton] at hm
      rcases hm with hm|rfl
      · exact h.pieces c b hm
      · have fits := h.held c
        rw [if_pos rfl] at fits
        exact ⟨hb,fits⟩
    · simp only [if_neg hd] at hm
      exact h.pieces d b hm
  held := fun _ => Nat.zero_le _
  ended := fun d hd => ⟨(h.ended d hd).1,rfl⟩

/-- A read reports the end of stream `c`. -/
theorem finish (h : Custody k size got (fun _ => []) ended) {c : ConnId}
    (hu : (k.conns c).pipe.unread=[]) (hf : (k.conns c).pipe.ending=.finished) :
    Custody k size got (fun _ => []) (fun d => decide (d=c) || ended d) where
  bytes := h.bytes
  pieces := h.pieces
  held := h.held
  ended := by
    intro d hd
    rcases Bool.or_eq_true _ _ ▸ hd with hd|hd
    · rw [of_decide_eq_true hd]
      exact ⟨Pipe.complete_of_end _ hf hu,rfl⟩
    · exact h.ended d hd

/-- What was handed over is the beginning of the stream. -/
theorem prefix_sent (h : Custody k size got hand ended) (c : ConnId) :
    (got c).flatten<+:(k.conns c).pipe.sent :=
  List.IsPrefix.trans ⟨_,h.bytes c⟩ (k.conns c).pipe.taken_prefix

/-- After its end it is all of the stream. -/
theorem whole (h : Custody k size got hand ended) {c : ConnId} (hc : ended c=true) :
    (k.conns c).pipe.closed=true ∧ (got c).flatten=(k.conns c).pipe.sent := by
  obtain ⟨full,empty⟩ := h.ended c hc
  have bytes := h.bytes c
  rw [empty,List.append_nil] at bytes
  exact ⟨full.1,bytes.trans full.2⟩

end Custody

end TuyulNet.Kernel
