import IvyBus.Socket.SendLaws

namespace IvyBus.Socket

open Lib Fifo

def Event.lines : Event → List Str
  | .send text _ => [text]
  | .sendWithId id body _ _ => [id ++ body]
  | .wakeUp _ => []

def BothOrNeither (f : IvyFifoBuffer) (n m : Nat) : Prop :=
  if takes f n then ivyFifoLength f + n + m < ivyFifoMaxAllocSize
  else ¬ takes { f with full := true } m

/-- The condition under which a call leaves no fragment of its line. A single block is cut only
when the kernel takes its head and the FIFO has no room for its tail. With a header, the FIFO must
take or refuse both parts, and a failure of one direct `send()` must not spare the other part. -/
def LineFits (client : Client) : Event → Prop
  | .send text r =>
    match client.ifb, r with
    | none, .room k => k = 0 ∨ text.1.length < k + ivyFifoMaxAllocSize
    | _, _ => True
  | .sendWithId id body r1 r2 =>
    match client.ifb, r1, r2 with
    | some ifb, _, _ => BothOrNeither ifb id.1.length body.1.length
    | none, .wouldBlock, _ => BothOrNeither ivyFifoNew id.1.length body.1.length
    | none, .error, .room k => k = 0 ∧ ivyFifoMaxAllocSize ≤ body.1.length
    | none, .error, .wouldBlock => ivyFifoMaxAllocSize ≤ body.1.length
    | none, .error, .error => True
    | none, .room k, r2 =>
      if id.1.length ≤ k then
        match r2 with
        | .room k' => body.1.length < k' + ivyFifoMaxAllocSize
        | .wouldBlock => body.1.length < ivyFifoMaxAllocSize
        | .error => False
      else if k = 0 then BothOrNeither ivyFifoNew id.1.length body.1.length
      else id.1.length + body.1.length < k + ivyFifoMaxAllocSize
  | .wakeUp _ => True

def Whole (client : Client) (e : Event) : Prop :=
  ∃ ls : List Str, ls.Sublist e.lines ∧ accepted (e.fates client) = ls.flatten

def Fate.Complete : Fate → Prop
  | .sent => True
  | .split _ => True
  | .headOnly _ => False
  | .queued => True
  | .lost => False

def Fate.Void : Fate → Prop
  | .sent => False
  | .split _ => False
  | .headOnly k => k = 0
  | .queued => False
  | .lost => True

theorem Fate.Complete.part {x : Fate} (h : x.Complete) (b : Str) : x.part b = b := by
  cases x with
  | sent => rfl
  | split k => exact List.take_append_drop k b
  | headOnly k => exact h.elim
  | queued => rfl
  | lost => exact h.elim

theorem Fate.Void.part {x : Fate} (h : x.Void) (b : Str) : x.part b = [] := by
  cases x with
  | headOnly k =>
    rw [show k = 0 from h]
    rfl
  | lost => rfl
  | _ => exact h.elim

theorem Fate.part_prefix (b : Str) (x : Fate) : x.part b <+: b := by
  cases x with
  | sent => exact List.prefix_rfl
  | split k => rw [Fate.part, List.take_append_drop]
  | headOnly k => exact List.take_prefix k b
  | queued => exact List.prefix_rfl
  | lost => exact List.nil_prefix

theorem Fate.void_of_part {b : Str} (hb : b ≠ []) {x : Fate} (h : x.part b = []) : x.Void := by
  cases x with
  | sent => exact hb h
  | split k => exact hb ((List.take_append_drop k b).symm.trans h)
  | headOnly k => exact (List.take_eq_nil_iff.mp h).resolve_right hb
  | queued => exact hb h
  | lost => trivial

theorem fate_headOnly {client : Client} {b : Str} {r : SendResult} {k : Nat}
    (h : fate client b r = .headOnly k) : k < b.length := by
  unfold fate at h
  split at h
  · split at h <;> cases h
  · split at h
    · cases h
    · split at h
      · cases h
      · cases h
        omega
  · split at h <;> cases h
  · cases h

theorem fate_complete_of_part {client : Client} {b : Str} (hb : b ≠ []) {r : SendResult}
    (h : (fate client b r).part b = b) : (fate client b r).Complete := by
  cases hf : fate client b r with
  | headOnly k =>
    rw [hf] at h
    have hle := List.take_eq_self_iff b |>.mp h
    have hlt := fate_headOnly hf
    omega
  | lost =>
    rw [hf] at h
    exact hb h.symm
  | _ => trivial

def Undivided (client : Client) : Event → Prop
  | .send text r => (fate client text r).Complete ∨ (fate client text r).Void
  | .sendWithId id body r1 r2 =>
    let client1 := (bufferizedSocketSendRaw client id r1).1
    (fate client id r1).Complete ∧ (fate client1 body r2).Complete ∨
      (fate client id r1).Void ∧ (fate client1 body r2).Void
  | .wakeUp _ => True

theorem Undivided.whole {client : Client} {e : Event} (h : Undivided client e) :
    Whole client e := by
  cases e with
  | send text r =>
    rcases h with h | h
    · exact ⟨[text], List.Sublist.refl _, by simp [accepted, Event.fates, h.part]⟩
    · exact ⟨[], List.nil_sublist _, by simp [accepted, Event.fates, h.part]⟩
  | sendWithId id body r1 r2 =>
    rcases h with ⟨h1, h2⟩ | ⟨h1, h2⟩
    · exact ⟨[id ++ body], List.Sublist.refl _,
        by simp [accepted, Event.fates, h1.part, h2.part]⟩
    · exact ⟨[], List.nil_sublist _, by simp [accepted, Event.fates, h1.part, h2.part]⟩
  | wakeUp rooms => exact ⟨[], List.nil_sublist _, rfl⟩

def Event.Filled : Event → Prop
  | .send text _ => text.1 ≠ []
  | .sendWithId id body _ _ => id.1 ≠ [] ∧ body.1 ≠ []
  | .wakeUp _ => True

theorem sublist_singleton_iff {ls : List Str} {l : Str} :
    ls.Sublist [l] ↔ ls = [] ∨ ls = [l] := by
  rw [List.sublist_cons_iff]
  simp

theorem prefixes_eq {p q a b : Str} (hp : p <+: a) (hq : q <+: b) (h : p ++ q = a ++ b) :
    p = a ∧ q = b := by
  have hlen : p.length + q.length = a.length + b.length := by
    rw [← List.length_append, h, List.length_append]
  have hpl := hp.length_le
  have hql := hq.length_le
  exact ⟨hp.eq_of_length (by omega), hq.eq_of_length (by omega)⟩

theorem Whole.undivided {client : Client} {e : Event} (hne : e.Filled) (h : Whole client e) :
    Undivided client e := by
  obtain ⟨ls, hls, heq⟩ := h
  cases e with
  | send text r =>
    simp only [accepted, Event.fates, List.map_cons, List.map_nil, List.flatten_cons,
      List.flatten_nil, List.append_nil] at heq
    rcases sublist_singleton_iff.mp hls with rfl | rfl
    · exact Or.inr (Fate.void_of_part hne heq)
    · exact Or.inl (fate_complete_of_part hne (by simpa using heq))
  | sendWithId id body r1 r2 =>
    simp only [accepted, Event.fates, List.map_cons, List.map_nil, List.flatten_cons,
      List.flatten_nil, List.append_nil] at heq
    rcases sublist_singleton_iff.mp hls with rfl | rfl
    · obtain ⟨h1, h2⟩ := List.append_eq_nil_iff.mp heq
      exact Or.inr ⟨Fate.void_of_part hne.1 h1, Fate.void_of_part hne.2 h2⟩
    · obtain ⟨h1, h2⟩ := prefixes_eq (Fate.part_prefix ..) (Fate.part_prefix ..)
        (heq.trans (by simp))
      exact Or.inl ⟨fate_complete_of_part hne.1 h1, fate_complete_of_part hne.2 h2⟩
  | wakeUp rooms => trivial

theorem length_ivyFifoNew : ivyFifoLength ivyFifoNew = 0 := by
  rw [← wf_ivyFifoNew.length_queue]
  rfl

theorem takes_ivyFifoNew (n : Nat) : takes ivyFifoNew n ↔ n < ivyFifoMaxAllocSize := by
  rw [takes, length_ivyFifoNew, Nat.zero_add]
  exact and_iff_left nofun

theorem takes_ivyFifoWrite {f : IvyFifoBuffer} (h : Fifo.Wf f) {b : Str}
    (hb : b.length < uintRange / 2) (m : Nat) : takes (ivyFifoWrite f b) m ↔
      if takes f b.length then ivyFifoLength f + b.length + m < ivyFifoMaxAllocSize
      else takes { f with full := true } m := by
  split
  · rename_i ht
    obtain ⟨hwf, hq, hfull⟩ := h.write_of_takes ht
    have hlen : ivyFifoLength (ivyFifoWrite f b) = ivyFifoLength f + b.length := by
      rw [← hwf.length_queue, hq, List.length_append, h.length_queue]
    rw [takes, hlen, hfull]
    exact and_iff_left nofun
  · rename_i ht
    have hlt := h.length_lt
    have hle := h.size_le
    simp only [ivyFifoMaxAllocSize_eq, uintRange] at hle hb
    rw [h.write_of_not_takes (by simp only [uintRange]; omega) ht
      (Or.inr (by simp only [overflowSize, uintRange, ivyFifoAllocSize]; omega))]

theorem bothOrNeither_iff {f : IvyFifoBuffer} (h : Fifo.Wf f) {b : Str}
    (hb : b.length < uintRange / 2) (m : Nat) :
    BothOrNeither f b.length m ↔ (takes f b.length ↔ takes (ivyFifoWrite f b) m) := by
  rw [takes_ivyFifoWrite h hb, BothOrNeither]
  split <;> rename_i ht <;> simp [ht]

theorem bothOrNeither_ivyFifoNew {b : Str} (hb : b.length < uintRange / 2) {m : Nat} :
    BothOrNeither ivyFifoNew b.length m ↔
      b.length < ivyFifoMaxAllocSize ∧ takes (ivyFifoWrite ivyFifoNew b) m ∨
        ivyFifoMaxAllocSize ≤ b.length ∧ ¬ takes (ivyFifoWrite ivyFifoNew b) m := by
  rw [bothOrNeither_iff wf_ivyFifoNew hb, takes_ivyFifoNew, ← Nat.not_lt]
  exact iff_iff_and_or_not_and_not

section Fate

variable {client : Client} {ifb : IvyFifoBuffer} {b : Str} {r : SendResult} {k : Nat}

theorem complete_of_some (h : client.ifb = some ifb) :
    (fate client b r).Complete ↔ takes ifb b.length := by
  simp only [fate, h]
  split <;> simp [Fate.Complete, *]

theorem void_of_some (h : client.ifb = some ifb) :
    (fate client b r).Void ↔ ¬ takes ifb b.length := by
  simp only [fate, h]
  split <;> simp [Fate.Void, *]

theorem complete_of_congest {tail : Str} : (fate (congest client tail) b r).Complete ↔
    takes (ivyFifoWrite ivyFifoNew tail) b.length :=
  complete_of_some rfl

theorem void_of_congest {tail : Str} : (fate (congest client tail) b r).Void ↔
    ¬ takes (ivyFifoWrite ivyFifoNew tail) b.length :=
  void_of_some rfl

theorem complete_room (h : client.ifb = none) :
    (fate client b (.room k)).Complete ↔ b.length < k + ivyFifoMaxAllocSize := by
  simp only [fate, h, takes_ivyFifoNew, ivyFifoMaxAllocSize_eq]
  split
  · simp only [Fate.Complete, true_iff]
    omega
  · split <;> simp only [Fate.Complete, true_iff, false_iff] <;> omega

theorem void_room (h : client.ifb = none) :
    (fate client b (.room k)).Void ↔ k = 0 ∧ ivyFifoMaxAllocSize ≤ b.length := by
  simp only [fate, h, takes_ivyFifoNew, ivyFifoMaxAllocSize_eq]
  split
  · simp only [Fate.Void, false_iff]
    omega
  · split <;> simp only [Fate.Void, false_iff] <;> omega

theorem complete_wouldBlock (h : client.ifb = none) :
    (fate client b .wouldBlock).Complete ↔ b.length < ivyFifoMaxAllocSize := by
  simp only [fate, h, takes_ivyFifoNew]
  split <;> simp [Fate.Complete, *]

theorem void_wouldBlock (h : client.ifb = none) :
    (fate client b .wouldBlock).Void ↔ ivyFifoMaxAllocSize ≤ b.length := by
  simp only [fate, h, takes_ivyFifoNew, ← Nat.not_lt]
  split <;> simp [Fate.Void, *]

theorem complete_error (h : client.ifb = none) : (fate client b .error).Complete ↔ False := by
  simp only [fate, h, Fate.Complete]

theorem void_error (h : client.ifb = none) : (fate client b .error).Void ↔ True := by
  simp only [fate, h, Fate.Void]

end Fate

section LineFits

variable {client : Client} {id body : Block} {k : Nat} {r2 : SendResult}

attribute [local simp] LineFits Undivided

theorem lineFits_send (client : Client) (text : Block) (r : SendResult) :
    LineFits client (.send text r) ↔ Undivided client (.send text r) := by
  cases hifb : client.ifb with
  | some ifb =>
    simp only [LineFits, Undivided, hifb, complete_of_some hifb, void_of_some hifb, true_iff]
    exact em _
  | none =>
    cases r with
    | room k =>
      simp only [LineFits, Undivided, hifb, complete_room hifb, void_room hifb,
        ivyFifoMaxAllocSize_eq]
      omega
    | wouldBlock =>
      simp only [LineFits, Undivided, hifb, complete_wouldBlock hifb, void_wouldBlock hifb,
        true_iff]
      exact Nat.lt_or_ge ..
    | error =>
      simp only [LineFits, Undivided, hifb, complete_error hifb, void_error hifb, or_true]

theorem lineFits_congested (h : client.Wf) {ifb : IvyFifoBuffer} (hifb : client.ifb = some ifb)
    (r1 : SendResult) : LineFits client (.sendWithId id body r1 r2) ↔
      Undivided client (.sendWithId id body r1 r2) := by
  simp only [LineFits, Undivided, hifb, complete_of_some hifb, void_of_some hifb,
    bothOrNeither_iff (h.fifo ifb hifb) id.2]
  rw [complete_of_some (congrArg Client.ifb (bufferizedSocketSendRaw_congested hifb ..)),
    void_of_some (congrArg Client.ifb (bufferizedSocketSendRaw_congested hifb ..))]
  exact iff_iff_and_or_not_and_not

theorem lineFits_all (hifb : client.ifb = none) (hk : id.1.length ≤ k) :
    LineFits client (.sendWithId id body (.room k) r2) ↔
      Undivided client (.sendWithId id body (.room k) r2) := by
  rw [Undivided, bufferizedSocketSendRaw_all hifb hk]
  have hvoid : ¬ (k = 0 ∧ ivyFifoMaxAllocSize ≤ id.1.length) := by
    simp only [ivyFifoMaxAllocSize_eq]
    omega
  have hcomplete : id.1.length < k + ivyFifoMaxAllocSize := by
    simp only [ivyFifoMaxAllocSize_eq]
    omega
  simp only [LineFits, hifb, hk, if_true, complete_room hifb, void_room hifb, hvoid,
    hcomplete, true_and, false_and, or_false]
  cases r2 with
  | room k' => exact (complete_room rfl).symm
  | wouldBlock => exact (complete_wouldBlock rfl).symm
  | error => exact (complete_error rfl).symm

theorem lineFits_short (hifb : client.ifb = none) (hk : ¬ id.1.length ≤ k) :
    LineFits client (.sendWithId id body (.room k) r2) ↔
      Undivided client (.sendWithId id body (.room k) r2) := by
  rw [Undivided, bufferizedSocketSendRaw_short hifb (Nat.lt_of_not_le hk)]
  simp only [LineFits, hifb, hk, if_false, complete_room hifb, void_room hifb,
    complete_of_congest, void_of_congest]
  by_cases hz : k = 0
  · simp only [hz, if_true, Nat.zero_add, List.drop_zero, true_and]
    exact bothOrNeither_ivyFifoNew id.2
  · simp only [hz, if_false, false_and, or_false]
    have hlen : (id.1.drop k).length = id.1.length - k := List.length_drop
    have htail : (id.1.drop k).length < uintRange / 2 := hlen ▸ (Nat.sub_le ..).trans_lt id.2
    by_cases hfit : id.1.length < k + ivyFifoMaxAllocSize
    · have htakes : takes ivyFifoNew (id.1.drop k).length := (takes_ivyFifoNew _).mpr (by omega)
      rw [takes_ivyFifoWrite wf_ivyFifoNew htail, if_pos htakes, length_ivyFifoNew, hlen]
      omega
    · omega

/-- `LineFits` is exact: a call leaves no block of its line behind another one that is lost. -/
theorem lineFits_iff (h : client.Wf) (e : Event) : LineFits client e ↔ Undivided client e := by
  cases e with
  | send text r => exact lineFits_send client text r
  | sendWithId id body r1 r2 =>
    cases hifb : client.ifb with
    | some ifb => exact lineFits_congested h hifb r1
    | none =>
      cases r1 with
      | room k =>
        by_cases hk : id.1.length ≤ k
        · exact lineFits_all hifb hk
        · exact lineFits_short hifb hk
      | wouldBlock =>
        rw [Undivided, bufferizedSocketSendRaw_wouldBlock hifb]
        simp only [LineFits, hifb, complete_wouldBlock hifb, void_wouldBlock hifb,
          complete_of_congest, void_of_congest]
        exact bothOrNeither_ivyFifoNew id.2
      | error =>
        rw [Undivided, bufferizedSocketSendRaw_error hifb]
        simp only [complete_error hifb, void_error hifb, false_and, true_and, false_or]
        cases r2 with
        | room k => simp only [LineFits, hifb, void_room hifb]
        | wouldBlock => simp only [LineFits, hifb, void_wouldBlock hifb]
        | error => simp only [LineFits, hifb, void_error hifb]
  | wakeUp rooms => exact Iff.rfl

end LineFits

theorem accepted_append (xs ys : List (Str × Fate)) :
    accepted (xs ++ ys) = accepted xs ++ accepted ys := by
  simp [accepted]

theorem accepted_whole {client : Client} (h : client.Wf) {es : List Event}
    (hfits : Along Event.next LineFits client es) :
    ∃ ls : List Str, ls.Sublist (es.flatMap Event.lines) ∧
      accepted (fates client es) = ls.flatten := by
  induction es generalizing client with
  | nil => exact ⟨[], List.Sublist.refl _, rfl⟩
  | cons e es ih =>
    obtain ⟨client', heq, hwf, -⟩ := e.next_spec h
    obtain ⟨ls, hls, hacc⟩ := ((lineFits_iff h e).mp hfits.1).whole
    obtain ⟨ls', hls', hacc'⟩ := ih hwf (hfits.2 client' heq)
    refine ⟨ls ++ ls', hls.append hls', ?_⟩
    rw [fates, heq, accepted_append, hacc, List.flatten_append, ← hacc']
    rfl

/-- In every run whose calls all meet `LineFits`, what the kernel has taken followed by the FIFO
is a concatenation of lines passed by the callers, in call order. -/
theorem sends_leave_whole_lines (es : List Event)
    (h : Along Event.next LineFits Client.init es) :
    ∃ client, run Event.next Client.init es = some client ∧
      ∃ ls : List Str, ls.Sublist (es.flatMap Event.lines) ∧
        client.kernel ++ client.pending = ls.flatten := by
  obtain ⟨client, hrun, -, hs⟩ := run_stream wf_init es
  obtain ⟨ls, hls, hacc⟩ := accepted_whole wf_init h
  exact ⟨client, hrun, ls, hls, hs.trans hacc⟩

def msgHeader : Block := ⟨[50, 32, 48, 2], by decide⟩
def msgBody : Block := ⟨[97, 3, 10], by decide⟩

theorem sends_leave_whole_lines_congested : ∃ client,
    run Event.next Client.init
        [.sendWithId msgHeader msgBody (.room 3) .error, .wakeUp [1],
          .send ⟨[51, 10], by decide⟩ .wouldBlock] = some client ∧
      ∃ ls : List Str, ls.Sublist [[50, 32, 48, 2, 97, 3, 10], [51, 10]] ∧
        client.kernel ++ client.pending = ls.flatten := by
  apply sends_leave_whole_lines
  refine ⟨?_, fun _ _ => ⟨trivial, fun _ _ => ⟨?_, fun _ _ => trivial⟩⟩⟩
  · simp [LineFits, Client.init, msgHeader, msgBody, ivyFifoMaxAllocSize_eq]
  · simp only [LineFits]
    split <;> trivial

@[irreducible] def hugeText : Str := List.replicate (ivyFifoMaxAllocSize - 1) 97 ++ [10]

theorem length_hugeText : hugeText.length = ivyFifoMaxAllocSize := by
  unfold hugeText
  rw [List.length_append, List.length_replicate]
  rfl

def hugeBody : Block := ⟨hugeText, by rw [length_hugeText]; decide⟩

theorem sendWithId_leaves_header : ∃ client,
    run Event.next Client.init [.sendWithId msgHeader hugeBody .wouldBlock .wouldBlock] =
        some client ∧
      client.kernel ++ client.pending = [50, 32, 48, 2] ∧
      ¬ ∃ ls : List Str, ls.Sublist [msgHeader.1 ++ hugeBody.1] ∧
        client.kernel ++ client.pending = ls.flatten := by
  obtain ⟨client, hrun, -, hs⟩ :=
    run_stream wf_init [.sendWithId msgHeader hugeBody .wouldBlock .wouldBlock]
  have hlen : hugeBody.1.length = ivyFifoMaxAllocSize := length_hugeText
  have htakes : takes ivyFifoNew msgHeader.1.length := (takes_ivyFifoNew _).mpr (by decide)
  have hrefuses : ¬ takes (ivyFifoWrite ivyFifoNew msgHeader) hugeBody.1.length := by
    rw [takes_ivyFifoWrite wf_ivyFifoNew msgHeader.2, if_pos htakes, hlen]
    omega
  have hheader : fate Client.init msgHeader .wouldBlock = .queued := by
    simp only [fate, Client.init, htakes, if_true]
  have hbody : fate (bufferizedSocketSendRaw Client.init msgHeader .wouldBlock).1 hugeBody
      .wouldBlock = .lost := by
    rw [bufferizedSocketSendRaw_wouldBlock rfl]
    simp only [fate, congest, hrefuses, if_false]
  have hstream : client.kernel ++ client.pending = [50, 32, 48, 2] := by
    refine hs.trans ?_
    simp only [fates, Event.fates, hheader, hbody, accepted, Fate.part]
    rfl
  refine ⟨client, hrun, hstream, ?_⟩
  rintro ⟨ls, hls, heq⟩
  rw [hstream] at heq
  rcases sublist_singleton_iff.mp hls with rfl | rfl
  · cases heq
  · have hlengths := congrArg List.length heq
    simp [hlen, ivyFifoMaxAllocSize_eq] at hlengths

end IvyBus.Socket
