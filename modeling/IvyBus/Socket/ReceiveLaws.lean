import Mathlib.Data.List.TakeWhile
import IvyBus.Lib.Lines
import IvyBus.Lib.Run
import IvyBus.Socket.Receive

namespace IvyBus.Socket

open Lib

structure Receiver.Wf (client : Receiver) : Prop where
  size_eq : client.buffer.length = client.bufferSize
  size_pos : 0 < client.bufferSize
  ptr_le : client.ptr ≤ client.buffer.length
  held : client.terminator ∉ client.held

theorem wf_receiver_init : Receiver.init.Wf :=
  ⟨length_malloc _, by decide, Nat.zero_le _, List.not_mem_nil⟩

theorem idxOf?_eq_some {l : Str} {c : UInt8} {i : Nat} (h : l.idxOf? c = some i) :
    ∃ u v, l = u ++ c :: v ∧ c ∉ u ∧ u.length = i := by
  induction l generalizing i with
  | nil => cases h
  | cons a l ih =>
    rw [List.idxOf?_cons] at h
    split at h
    · rename_i ha
      exact ⟨[], l, by rw [eq_of_beq ha]; rfl, List.not_mem_nil, Option.some.inj h⟩
    · rename_i ha
      obtain ⟨j, hj, hji⟩ := Option.map_eq_some_iff.mp h
      obtain ⟨u, v, rfl, hu, rfl⟩ := ih hj
      refine ⟨a :: u, v, rfl, ?_, hji⟩
      rw [List.mem_cons, not_or]
      exact ⟨fun hc => ha (beq_iff_eq.mpr hc.symm), hu⟩

theorem idxOf?_eq_none {l : Str} {c : UInt8} (h : l.idxOf? c = none) : c ∉ l := by
  induction l with
  | nil => exact List.not_mem_nil
  | cons a l ih =>
    rw [List.idxOf?_cons] at h
    split at h
    · cases h
    · rename_i ha
      rw [List.mem_cons, not_or]
      exact ⟨fun hc => ha (beq_iff_eq.mpr hc.symm), ih (Option.map_eq_none_iff.mp h)⟩

theorem memchr_some {mem : Str} {off n nl : Nat} {c : UInt8} (h : memchr mem off c n = some nl) :
    ∃ u v, slice mem off n = u ++ c :: v ∧ c ∉ u ∧ nl = off + u.length := by
  obtain ⟨i, hi, rfl⟩ := Option.map_eq_some_iff.mp h
  obtain ⟨u, v, hslice, hu, rfl⟩ := idxOf?_eq_some hi
  exact ⟨u, v, hslice, hu, rfl⟩

theorem memchr_none {mem : Str} {off n : Nat} {c : UInt8} (h : memchr mem off c n = none) :
    c ∉ slice mem off n :=
  idxOf?_eq_none (Option.map_eq_none_iff.mp h)

def asCString (l : Str) : Str := l.takeWhile (· ≠ 0)

theorem asCString_append (u v : Str) : asCString (u ++ 0 :: v) = asCString u := by
  induction u with
  | nil => rfl
  | cons a u ih =>
    rw [asCString] at ih
    simp only [asCString, List.cons_append, List.takeWhile_cons, ih]

theorem asCString_of_notMem {l : Str} (h : 0 ∉ l) : asCString l = l := by
  rw [asCString, List.takeWhile_eq_self_iff]
  intro b hb
  exact decide_eq_true (ne_of_mem_of_not_mem hb h)

section Slices

variable {mem u v : Str} {off n : Nat} {c : UInt8}

theorem slice_after (h : slice mem off n = u ++ c :: v) :
    slice mem (off + u.length + 1) (n - (u.length + 1)) = v := by
  have hdrop : (slice mem off n).drop (u.length + 1) = v := by
    rw [h, ← List.drop_drop, List.drop_left]
    rfl
  rw [← hdrop, slice, slice, List.drop_take, List.drop_drop, Nat.add_assoc]

theorem drop_of_slice (h : slice mem off n = u ++ c :: v) :
    mem.drop off = u ++ c :: (v ++ (mem.drop off).drop n) := by
  conv_lhs => rw [← List.take_append_drop n (mem.drop off)]
  rw [← slice, h, List.append_assoc, List.cons_append]

theorem cString_set (h : slice mem off n = u ++ c :: v) :
    cString (mem.set (off + u.length) 0) off = asCString u := by
  rw [cString, List.drop_set, if_neg (by omega), drop_of_slice h, Nat.add_sub_cancel_left,
    List.set_append_right _ _ le_rfl, Nat.sub_self, List.set_cons_zero]
  exact asCString_append ..

theorem slice_set {i : Nat} (h : i < off) : slice (mem.set i 0) off n = slice mem off n := by
  rw [slice, slice, List.drop_set_of_lt h]

theorem length_of_slice (h : slice mem off n = u ++ c :: v) :
    u.length + 1 ≤ n := by
  have hlen := congrArg List.length h
  simp only [slice, List.length_take, List.length_drop, List.length_append,
    List.length_cons] at hlen
  omega

end Slices

theorem handleSocketLoop_spec {d : UInt8} {last fuel : Nat} {buffer : Str} {ptr : Nat}
    (hfuel : last - ptr < fuel) (hptr : ptr ≤ last) (hlast : last ≤ buffer.length) :
    let out := handleSocketLoop d last fuel buffer ptr
    let w := slice buffer ptr (last - ptr)
    out.lines = (feed d [] w).1.map asCString ∧ out.ptr ≤ last ∧
      out.buffer.length = buffer.length ∧
      slice out.buffer out.ptr (last - out.ptr) = (feed d [] w).2 := by
  induction fuel generalizing buffer ptr with
  | zero => omega
  | succ fuel ih =>
    simp only [handleSocketLoop]
    cases hm : memchr buffer ptr d (last - ptr) with
    | none =>
      rw [feed_of_notMem [] (memchr_none hm)]
      exact ⟨rfl, hptr, rfl, rfl⟩
    | some nl =>
      obtain ⟨u, v, hw, hu, rfl⟩ := memchr_some hm
      have hlen := length_of_slice hw
      have hv : slice (buffer.set (ptr + u.length) 0) (ptr + u.length + 1)
          (last - (ptr + u.length + 1)) = v := by
        rw [slice_set (Nat.lt_succ_self _), ← slice_after hw]
        congr 1
        omega
      obtain ⟨hlines, hle, hsize, hrest⟩ := @ih (buffer.set (ptr + u.length) 0)
        (ptr + u.length + 1) (by omega) (by omega) (by rwa [List.length_set])
      rw [hv] at hlines hrest
      rw [hw, feed_append, feed_of_notMem [] hu, feed_delimiter]
      refine ⟨?_, hle, hsize.trans (List.length_set ..), hrest⟩
      change cString _ ptr :: _ = _
      rw [hlines, cString_set hw]
      rfl

theorem realloc_spec {mem : Str} {n : Nat} (h : mem.length ≤ n) :
    (realloc mem n).length = n ∧ ∀ k ≤ mem.length, (realloc mem n).take k = mem.take k := by
  rw [realloc, List.take_of_length_le h]
  refine ⟨by rw [List.length_append, length_malloc, Nat.add_sub_cancel' h], fun k hk => ?_⟩
  exact List.take_append_of_le_length hk

theorem Receiver.Wf.makeRoom {client : Receiver} (h : client.Wf) :
    (makeRoom client).Wf ∧ (makeRoom client).held = client.held ∧
      (makeRoom client).terminator = client.terminator ∧
      (makeRoom client).ptr < (makeRoom client).buffer.length := by
  have hsize := h.size_eq
  have hpos := h.size_pos
  have hptr := h.ptr_le
  unfold Socket.makeRoom
  split
  · obtain ⟨hlen, htake⟩ := realloc_spec (by omega : client.buffer.length ≤ client.bufferSize * 2)
    have hheld := htake client.ptr hptr
    refine ⟨⟨hlen, ?_, ?_, ?_⟩, hheld, rfl, ?_⟩
    · exact Nat.mul_pos hpos (by decide)
    · simp only [hlen]
      omega
    · change client.terminator ∉ (realloc client.buffer (client.bufferSize * 2)).take client.ptr
      rw [hheld]
      exact h.held
    · simp only [hlen]
      omega
  · exact ⟨h, rfl, rfl, by omega⟩

theorem nbToRead_pos {client : Receiver} (h : client.Wf) : 0 < nbToRead client := by
  obtain ⟨hwf, -, -, hlt⟩ := h.makeRoom
  have hsize := hwf.size_eq
  rw [nbToRead]
  omega

theorem keepRest_spec {client : Receiver} {buffer : Str} {ptr last : Nat}
    (hpos : 0 < client.bufferSize) (hsize : buffer.length = client.bufferSize)
    (hlast : last ≤ buffer.length) (hnot : client.terminator ∉ slice buffer ptr (last - ptr)) :
    (keepRest client buffer ptr last).Wf ∧
      (keepRest client buffer ptr last).terminator = client.terminator ∧
      (keepRest client buffer ptr last).held = slice buffer ptr (last - ptr) := by
  unfold keepRest
  split
  · have hlen : (slice buffer ptr (last - ptr)).length = last - ptr := length_slice (by omega)
    have hblit := length_blit
      (by omega : 0 + (slice buffer ptr (last - ptr)).length ≤ buffer.length)
    have hheld : (blit buffer 0 (slice buffer ptr (last - ptr))).take (last - ptr) =
        slice buffer ptr (last - ptr) :=
      (congrArg (List.take · _) hlen.symm).trans (take_blit_zero ..)
    refine ⟨⟨hblit.trans hsize, hpos, ?_, ?_⟩, rfl, hheld⟩
    · simp only [hblit]
      omega
    · change client.terminator ∉ (blit buffer 0 _).take (last - ptr)
      rwa [hheld]
  · rw [show last - ptr = 0 by omega]
    exact ⟨⟨hsize, hpos, Nat.zero_le _, List.not_mem_nil⟩, rfl, rfl⟩

theorem Receiver.Wf.handleSocket {client : Receiver} (h : client.Wf) {data : Str}
    (hne : data ≠ []) (hroom : data.length ≤ nbToRead client) :
    let out := handleSocket client (.bytes data)
    out.client.Wf ∧ out.client.terminator = client.terminator ∧ out.removed = false ∧
      out.lines = (feed client.terminator client.held data).1.map asCString ∧
      out.client.held = (feed client.terminator client.held data).2 := by
  obtain ⟨hwf, hheld, hterm, hlt⟩ := h.makeRoom
  rw [nbToRead] at hroom
  rw [← hterm, ← hheld, feed_part hwf.held]
  obtain ⟨b, bs, rfl⟩ := List.exists_cons_of_ne_nil hne
  simp only [Socket.handleSocket]
  generalize Socket.makeRoom client = room at hwf hlt hroom ⊢
  have hsize := hwf.size_eq
  have hfits : room.ptr + (b :: bs).length ≤ room.buffer.length := by omega
  have hmem := length_blit hfits
  have hread : slice (blit room.buffer room.ptr (b :: bs)) 0 (room.ptr + (b :: bs).length) =
      room.held ++ b :: bs := slice_blit _ hwf.ptr_le
  obtain ⟨hlines, hle, hlen, hrest⟩ := handleSocketLoop_spec (d := room.terminator)
    (Nat.lt_succ_of_le (Nat.sub_le ..)) (Nat.zero_le _) (hmem.symm ▸ hfits)
  rw [Nat.sub_zero, hread] at hlines hrest
  have hnot := notMem_feed (d := room.terminator) List.not_mem_nil (room.held ++ b :: bs)
  rw [← hrest] at hnot
  obtain ⟨hwf', hterm', hheld'⟩ :=
    keepRest_spec hwf.size_pos (hlen.trans (hmem.trans hsize)) (by omega) hnot
  exact ⟨hwf', hterm', trivial, hlines, hheld'.trans hrest⟩

/-- What is handed over and kept depends on the bytes read, not on how they were cut. -/
theorem run_reader {s s' : Reader} {chunks : List Str} (h : s.client.Wf)
    (hrun : run Reader.next s chunks = some s') :
    let out := feed s.client.terminator s.client.held chunks.flatten
    s'.client.Wf ∧ s'.client.terminator = s.client.terminator ∧
      s'.lines = s.lines ++ out.1.map asCString ∧ s'.client.held = out.2 := by
  induction chunks generalizing s with
  | nil =>
    rw [← Option.some.inj hrun]
    exact ⟨h, rfl, (List.append_nil _).symm, rfl⟩
  | cons data chunks ih =>
    obtain ⟨t, ht, hrest⟩ := Option.bind_eq_some_iff.mp hrun
    unfold Reader.next at ht
    split at ht
    · rename_i hdata
      obtain ⟨hwf, hterm, -, hlines, hheld⟩ := h.handleSocket hdata.1 hdata.2
      rw [← Option.some.inj ht] at hrest
      obtain ⟨hwf', hterm', hlines', hheld'⟩ := ih hwf hrest
      simp only [hterm, hheld] at hlines' hheld' hterm'
      refine ⟨hwf', hterm', ?_, ?_⟩
      · rw [hlines', hlines, List.flatten_cons, feed_append, List.map_append, List.append_assoc]
      · rw [hheld', List.flatten_cons, feed_append]
    · cases ht

theorem run_bytes {s : Reader} (h : s.client.Wf) (bs : Str) :
    ∃ s', run Reader.next s (bs.map ([·])) = some s' := by
  induction bs generalizing s with
  | nil => exact ⟨s, rfl⟩
  | cons b bs ih =>
    have hroom : [b].length ≤ nbToRead s.client := nbToRead_pos h
    obtain ⟨hwf, -⟩ := h.handleSocket (List.cons_ne_nil b []) hroom
    obtain ⟨s', hs'⟩ := @ih ⟨_, s.lines ++ (handleSocket s.client (.bytes [b])).lines⟩ hwf
    refine ⟨s', ?_⟩
    rw [List.map_cons, run, Reader.next, if_pos ⟨List.cons_ne_nil b [], hroom⟩]
    exact hs'

end IvyBus.Socket
