import IvyBus.Socket.Lines

namespace IvyBus.Socket

open Lib Fifo

/-- The call discards nothing, or the state that it returns tells of a loss. -/
def Reported (client : Client) : Event → Prop
  | .send text r =>
    (socketSendRaw client text r).1.stream ≠ client.stream ++ text.1 →
      (socketSendRaw client text r).2 = .sendStateFifoFull ∨
        (socketSendRaw client text r).2 = .sendError
  | .sendWithId id body r1 r2 =>
    (socketSendRawWithId client id body r1 r2).1.stream ≠ client.stream ++ (id.1 ++ body.1) →
      (socketSendRawWithId client id body r1 r2).2 = .sendStateFifoFull ∨
        (socketSendRawWithId client id body r1 r2).2 = .sendError
  | .wakeUp _ => True

/-- A new FIFO has room for what the kernel leaves of a block. -/
def BlockTold (client : Client) (b : Str) (r : SendResult) : Prop :=
  match client.ifb, r with
  | none, .room k => b.length < k + ivyFifoMaxAllocSize
  | none, .wouldBlock => b.length < ivyFifoMaxAllocSize
  | none, .error => True
  | some _, _ => True

/-- The condition under which no loss is silent. A header that the FIFO refuses must not be followed
by a body that it takes, nor a header that fails by anything but a failure; and when the header
congests the client, a new FIFO must have room for what the kernel leaves of both. -/
def Told (client : Client) : Event → Prop
  | .send text r => BlockTold client text r
  | .sendWithId id body r1 r2 =>
    match client.ifb, r1 with
    | some ifb, _ =>
      id.1 = [] ∨ takes ifb id.1.length ∨ ¬ takes { ifb with full := true } body.1.length
    | none, .room k =>
      if id.1.length ≤ k then BlockTold client body r2
      else id.1.length + body.1.length < k + ivyFifoMaxAllocSize
    | none, .wouldBlock => id.1.length + body.1.length < ivyFifoMaxAllocSize
    | none, .error => if id.1 = [] then BlockTold client body r2 else r2 = .error
  | .wakeUp _ => True

def Kept (client : Client) (b : Str) (r : SendResult) : Prop := (fate client b r).part b = b

section Kept

variable {client : Client} {ifb : IvyFifoBuffer} {b : Str} {r : SendResult} {k : Nat}

theorem kept_iff : Kept client b r ↔ b = [] ∨ (fate client b r).Complete := by
  constructor
  · intro h
    by_cases hb : b = []
    · exact .inl hb
    · exact .inr (fate_complete_of_part hb h)
  · rintro (rfl | h)
    · exact List.prefix_nil.mp (Fate.part_prefix [] _)
    · exact h.part b

theorem kept_of_some (h : client.ifb = some ifb) :
    Kept client b r ↔ b = [] ∨ takes ifb b.length := by
  rw [kept_iff, complete_of_some h]

theorem kept_room (h : client.ifb = none) :
    Kept client b (.room k) ↔ b.length < k + ivyFifoMaxAllocSize := by
  rw [kept_iff, complete_room h, or_iff_right_of_imp]
  rintro rfl
  exact Nat.lt_of_lt_of_le (by decide) (Nat.le_add_left ivyFifoMaxAllocSize k)

theorem kept_wouldBlock (h : client.ifb = none) :
    Kept client b .wouldBlock ↔ b.length < ivyFifoMaxAllocSize := by
  rw [kept_iff, complete_wouldBlock h, or_iff_right_of_imp]
  rintro rfl
  decide

theorem kept_error (h : client.ifb = none) : Kept client b .error ↔ b = [] := by
  rw [kept_iff, complete_error h, or_false]

theorem full_iff (h : Fifo.Wf ifb) (hb : b.length < uintRange / 2) :
    ivyFifoIsFull (ivyFifoWrite ifb b) = true ↔ ¬ takes ifb b.length := by
  by_cases ht : takes ifb b.length
  · have hfull : ivyFifoIsFull (ivyFifoWrite ifb b) = false := (h.write_of_takes ht).2.2
    rw [hfull]
    simp [ht]
  · have hlt := h.length_lt
    have hle := h.size_le
    simp only [ivyFifoMaxAllocSize_eq, uintRange] at hle hb
    rw [h.write_of_not_takes (by simp only [uintRange]; omega) ht
      (Or.inr (by simp only [overflowSize, uintRange, ivyFifoAllocSize]; omega))]
    simp [ht, ivyFifoIsFull]

theorem state_congested (h : client.Wf) (hifb : client.ifb = some ifb)
    (hb : b.length < uintRange / 2) : (bufferizedSocketSendRaw client b r).2 =
      if takes ifb b.length then .sendStillCongestion else .sendStateFifoFull := by
  have hfull := full_iff (h.fifo ifb hifb) hb
  simp only [bufferizedSocketSendRaw, hifb]
  by_cases ht : takes ifb b.length
  · rw [if_pos ht, if_neg fun hf => hfull.mp hf ht]
  · rw [if_neg ht, if_pos (hfull.mpr ht)]

end Kept

section Told

variable {client : Client} {id body : Block} {k : Nat} {r2 : SendResult}

attribute [local simp] Told BlockTold

def Loss (state : SendState) : Prop := state = .sendStateFifoFull ∨ state = .sendError

theorem loss_congested (h : client.Wf) {ifb : IvyFifoBuffer} (hifb : client.ifb = some ifb)
    (b : Block) (r : SendResult) :
    Loss (bufferizedSocketSendRaw client b r).2 ↔ ¬ takes ifb b.1.length := by
  rw [state_congested h hifb b.2]
  split <;> simp [Loss, *]

/-- What `BufferizedSocketSendRaw` discards, its state tells. -/
theorem blockTold_iff (h : client.Wf) (b : Block) (r : SendResult) :
    BlockTold client b r ↔
      (Kept client b r ∨ Loss (bufferizedSocketSendRaw client b r).2) := by
  cases hifb : client.ifb with
  | some ifb =>
    rw [kept_of_some hifb, loss_congested h hifb]
    simp only [BlockTold, hifb, true_iff]
    exact (em (takes ifb b.1.length)).imp .inr fun ht => ht
  | none =>
    cases r with
    | room k =>
      simp only [BlockTold, hifb, kept_room hifb]
      refine (or_iff_left_of_imp fun hloss => ?_).symm
      by_cases hk : b.1.length ≤ k
      · rw [bufferizedSocketSendRaw_all hifb hk] at hloss
        exact absurd hloss (by simp [Loss])
      · rw [bufferizedSocketSendRaw_short hifb (Nat.lt_of_not_le hk)] at hloss
        exact absurd hloss (by simp [Loss])
    | wouldBlock =>
      rw [kept_wouldBlock hifb, bufferizedSocketSendRaw_wouldBlock hifb]
      simp [BlockTold, hifb, Loss]
    | error =>
      rw [bufferizedSocketSendRaw_error hifb]
      simp [BlockTold, hifb, Loss]

theorem stream_eq_iff (h : client.Wf) (b : Block) (r : SendResult) :
    (bufferizedSocketSendRaw client b r).1.stream = client.stream ++ b.1 ↔ Kept client b r := by
  rw [(bufferizedSocketSendRaw_spec h b.2 r).2, List.append_cancel_left_eq, Kept]

theorem streams_eq_iff (h : client.Wf) (r1 r2 : SendResult) :
    (socketSendRawWithId client id body r1 r2).1.stream = client.stream ++ (id.1 ++ body.1) ↔
      Kept client id r1 ∧ Kept (bufferizedSocketSendRaw client id r1).1 body r2 := by
  obtain ⟨hwf, hid⟩ := bufferizedSocketSendRaw_spec h id.2 r1
  have hbody := (bufferizedSocketSendRaw_spec hwf body.2 r2).2
  rw [hid, List.append_assoc] at hbody
  rw [socketSendRawWithId, hbody, List.append_cancel_left_eq]
  constructor
  · exact prefixes_eq (Fate.part_prefix ..) (Fate.part_prefix ..)
  · rintro ⟨h1, h2⟩
    rw [h1, h2]

def BothTold (client : Client) (id body : Block) (r1 r2 : SendResult) : Prop :=
  (Kept client id r1 ∧ Kept (bufferizedSocketSendRaw client id r1).1 body r2) ∨
    Loss (socketSendRawWithId client id body r1 r2).2

theorem loss_of_congestion {r1 : SendResult}
    (h1 : (bufferizedSocketSendRaw client id r1).2 = .sendStateChangeToCongestion) :
    ¬ Loss (socketSendRawWithId client id body r1 r2).2 := by
  simp [socketSendRawWithId, h1, Loss]

theorem loss_of_body {r1 : SendResult}
    (h1 : (bufferizedSocketSendRaw client id r1).2 ≠ .sendStateChangeToCongestion) :
    Loss (socketSendRawWithId client id body r1 r2).2 ↔
      Loss (bufferizedSocketSendRaw (bufferizedSocketSendRaw client id r1).1 body r2).2 := by
  simp [socketSendRawWithId, h1]

theorem told_congested (h : client.Wf) {ifb : IvyFifoBuffer} (hifb : client.ifb = some ifb)
    (r1 : SendResult) :
    Told client (.sendWithId id body r1 r2) ↔ BothTold client id body r1 r2 := by
  have hwf := h.fifo ifb hifb
  have hnext := congrArg Client.ifb (bufferizedSocketSendRaw_congested hifb id.1 r1)
  have hwf1 := (bufferizedSocketSendRaw_spec h id.2 r1).1
  have hstate : (bufferizedSocketSendRaw client id r1).2 ≠ .sendStateChangeToCongestion := by
    rw [state_congested h hifb id.2]
    split <;> simp
  have hsecond := takes_ivyFifoWrite hwf id.2 body.1.length
  rw [BothTold, kept_of_some hifb, kept_of_some hnext, loss_of_body hstate,
    loss_congested hwf1 hnext]
  simp only [Told, hifb]
  by_cases ht : takes ifb id.1.length
  · simp only [ht, true_or, or_true, true_and, true_iff]
    exact (em _).imp .inr fun hbody => hbody
  · rw [if_neg ht] at hsecond
    simp only [ht, false_or, or_false, hsecond]
    constructor
    · rintro (hid | hbody)
      · exact (em _).imp (fun hbody => ⟨hid, .inr hbody⟩) fun hbody => hbody
      · exact .inr hbody
    · exact Or.imp And.left fun hbody => hbody

theorem told_tail (body : Block) {tail : Str} (htail : tail.length < uintRange / 2)
    (client : Client) (r : SendResult) :
    tail.length < ivyFifoMaxAllocSize ∧ Kept (congest client tail) body r ↔
      tail.length + body.1.length < ivyFifoMaxAllocSize := by
  have hsecond (hfits : tail.length < ivyFifoMaxAllocSize) :
      takes (ivyFifoWrite ivyFifoNew tail) body.1.length ↔
        tail.length + body.1.length < ivyFifoMaxAllocSize := by
    rw [takes_ivyFifoWrite wf_ivyFifoNew htail, if_pos ((takes_ivyFifoNew _).mpr hfits),
      length_ivyFifoNew, Nat.zero_add]
  rw [kept_of_some rfl]
  constructor
  · rintro ⟨hfits, hbody | hbody⟩
    · rw [hbody, List.length_nil, Nat.add_zero]
      exact hfits
    · exact (hsecond hfits).mp hbody
  · intro hboth
    have hfits : tail.length < ivyFifoMaxAllocSize := by omega
    exact ⟨hfits, .inr ((hsecond hfits).mpr hboth)⟩

theorem told_room (h : client.Wf) (hifb : client.ifb = none) :
    Told client (.sendWithId id body (.room k) r2) ↔ BothTold client id body (.room k) r2 := by
  simp only [Told, hifb, BothTold, kept_room hifb]
  by_cases hk : id.1.length ≤ k
  · have hsent := bufferizedSocketSendRaw_all hifb hk
    have hwf := (bufferizedSocketSendRaw_spec h id.2 (.room k)).1
    rw [if_pos hk, loss_of_body (by rw [hsent]; simp)]
    have hfits : id.1.length < k + ivyFifoMaxAllocSize := by
      simp only [ivyFifoMaxAllocSize_eq]
      omega
    simp only [hfits, true_and]
    rw [← blockTold_iff hwf body r2, hsent]
    simp only [BlockTold, hifb]
  · have hsent := bufferizedSocketSendRaw_short hifb (Nat.lt_of_not_le hk)
    have hlen : (id.1.drop k).length = id.1.length - k := List.length_drop
    have htail := told_tail body (hlen ▸ (Nat.sub_le ..).trans_lt id.2)
      { client with kernel := client.kernel ++ id.1.take k } r2
    rw [if_neg hk, or_iff_left (loss_of_congestion (by rw [hsent])), hsent]
    rw [hlen] at htail
    constructor
    · intro hfits
      have hboth := htail.mpr (by omega)
      exact ⟨by omega, hboth.2⟩
    · rintro ⟨hfits, hbody⟩
      have hboth := htail.mp ⟨by omega, hbody⟩
      omega

theorem told_wouldBlock (hifb : client.ifb = none) :
    Told client (.sendWithId id body .wouldBlock r2) ↔ BothTold client id body .wouldBlock r2 := by
  have hsent := bufferizedSocketSendRaw_wouldBlock hifb id.1
  simp only [Told, hifb, BothTold, kept_wouldBlock hifb]
  rw [or_iff_left (loss_of_congestion (by rw [hsent])), hsent]
  exact (told_tail body id.2 client r2).symm

theorem told_error (h : client.Wf) (hifb : client.ifb = none) :
    Told client (.sendWithId id body .error r2) ↔ BothTold client id body .error r2 := by
  have hsent := bufferizedSocketSendRaw_error hifb id.1
  simp only [Told, hifb, BothTold, kept_error hifb]
  rw [loss_of_body (by rw [hsent]; simp), hsent]
  by_cases hid : id.1 = []
  · rw [if_pos hid, blockTold_iff h]
    simp only [hid, true_and]
  · simp only [hid, if_false, false_and, false_or]
    cases r2 with
    | room k =>
      by_cases hk : body.1.length ≤ k
      · rw [bufferizedSocketSendRaw_all hifb hk]
        simp [Loss]
      · rw [bufferizedSocketSendRaw_short hifb (Nat.lt_of_not_le hk)]
        simp [Loss]
    | wouldBlock =>
      rw [bufferizedSocketSendRaw_wouldBlock hifb]
      simp [Loss]
    | error =>
      rw [bufferizedSocketSendRaw_error hifb]
      simp [Loss]

/-- A call tells of what it discards exactly when it meets `Told`. -/
theorem reported_iff_told (client : Client) (h : client.Wf) (e : Event) :
    Reported client e ↔ Told client e := by
  cases e with
  | send text r =>
    rw [Reported, socketSendRaw, Ne, stream_eq_iff h, Told, blockTold_iff h]
    exact or_iff_not_imp_left.symm
  | sendWithId id body r1 r2 =>
    have hboth : Reported client (.sendWithId id body r1 r2) ↔ BothTold client id body r1 r2 := by
      rw [Reported, Ne, streams_eq_iff h]
      exact or_iff_not_imp_left.symm
    rw [hboth]
    cases hifb : client.ifb with
    | some ifb => exact (told_congested h hifb r1).symm
    | none =>
      cases r1 with
      | room k => exact (told_room h hifb).symm
      | wouldBlock => exact (told_wouldBlock hifb).symm
      | error => exact (told_error h hifb).symm
  | wakeUp rooms => exact Iff.rfl

theorem reported_msg : Reported Client.init (.sendWithId msgHeader msgBody (.room 3) .error) :=
  (reported_iff_told Client.init wf_init _).mpr (by
    simp [Told, Client.init, msgHeader, msgBody, ivyFifoMaxAllocSize_eq])

/-- A text too long for a new FIFO is discarded as a congestion, a header that fails as a success of
the body. -/
theorem loss_not_reported : Client.init.Wf ∧
    ¬ Reported Client.init (.send hugeBody .wouldBlock) ∧
    ¬ Reported Client.init (.sendWithId msgHeader msgBody .error (.room 3)) := by
  refine ⟨wf_init, fun hreported => ?_, fun hreported => ?_⟩
  · have htold : hugeBody.1.length < ivyFifoMaxAllocSize :=
      (reported_iff_told Client.init wf_init _).mp hreported
    exact absurd htold (Nat.not_lt_of_ge (Nat.le_of_eq length_hugeText.symm))
  · have htold := (reported_iff_told Client.init wf_init _).mp hreported
    simp [Told, Client.init, msgHeader] at htold

end Told

end IvyBus.Socket
