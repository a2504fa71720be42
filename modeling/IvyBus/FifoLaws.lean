import IvyBus.Fifo

namespace IvyBus.Fifo

open Lib

/-- The bytes a FIFO holds, oldest first. -/
def queue (f : IvyFifoBuffer) : Str := window f.buffer f.rptr.toNat (ivyFifoLength f)

/-- Both pointers lie in `[buffer, end)` and the block has a size `IvyFifoRealloc` can give. -/
structure Wf (f : IvyFifoBuffer) : Prop where
  rptr_nonneg : 0 ≤ f.rptr
  rptr_lt : f.rptr < f.buffer.length
  wptr_lt : f.wptr < f.buffer.length
  aligned : ivyFifoAllocSize ∣ f.buffer.length
  size_le : f.buffer.length ≤ ivyFifoMaxAllocSize

theorem wf_ivyFifoNew : Wf ivyFifoNew := by
  constructor <;> simp [ivyFifoNew, ivyFifoInit, ivyFifoAllocSize, ivyFifoMaxAllocSize]

@[simp] theorem queue_ivyFifoNew : queue ivyFifoNew = [] := rfl

theorem alignedNewSize_eq {n : Nat} (hn : n + ivyFifoAllocSize < uintRange) :
    alignedNewSize n = (n / ivyFifoAllocSize + 1) * ivyFifoAllocSize := by
  refine toUnsigned_natCast ?_
  simp only [ivyFifoAllocSize, uintRange] at *
  omega

theorem alignedNewSize_spec {n : Nat} (hn : n < ivyFifoMaxAllocSize) :
    ivyFifoAllocSize ∣ alignedNewSize n ∧ n < alignedNewSize n ∧
      alignedNewSize n ≤ ivyFifoMaxAllocSize := by
  rw [alignedNewSize_eq
    (by simp only [ivyFifoMaxAllocSize_eq, ivyFifoAllocSize, uintRange] at *; omega)]
  refine ⟨Nat.dvd_mul_left .., ?_, ?_⟩ <;>
    simp only [ivyFifoMaxAllocSize_eq, ivyFifoAllocSize] at * <;> omega

/-- From this size on the rounding of `IvyFifoRealloc` overflows an `unsigned int`. -/
abbrev overflowSize : Nat := uintRange - ivyFifoAllocSize

theorem alignedNewSize_refused {n : Nat} (hn : ivyFifoMaxAllocSize ≤ n)
    (hn' : n < overflowSize) : ivyFifoMaxAllocSize < alignedNewSize n := by
  simp only [overflowSize, uintRange, ivyFifoAllocSize, ivyFifoMaxAllocSize_eq] at *
  rw [alignedNewSize_eq (by simp only [ivyFifoAllocSize, uintRange]; omega)]
  simp only [ivyFifoAllocSize]
  omega

def fresh (n : Nat) (q : Str) : IvyFifoBuffer where
  buffer := blit (malloc n) 0 q
  rptr := 0
  wptr := q.length
  full := false

theorem length_fresh {n : Nat} {q : Str} (hq : q.length ≤ n) :
    (fresh n q).buffer.length = n := by
  rw [fresh, length_blit] <;> simp [hq]

namespace Wf

variable {f : IvyFifoBuffer}

theorem size_pos (h : Wf f) : 0 < f.buffer.length := Nat.zero_lt_of_lt h.wptr_lt

theorem length_cases (h : Wf f) :
    f.rptr.toNat ≤ f.wptr ∧ ivyFifoLength f = f.wptr - f.rptr.toNat ∨
      f.wptr < f.rptr.toNat ∧ ivyFifoLength f = f.wptr + f.buffer.length - f.rptr.toNat := by
  obtain ⟨h0, h1, h2, -, h3⟩ := h
  simp only [ivyFifoMaxAllocSize_eq] at h3
  unfold ivyFifoLength toUnsigned uintRange
  simp only
  split <;> omega

theorem length_lt (h : Wf f) : ivyFifoLength f < f.buffer.length := by
  have hr := h.rptr_nonneg
  have hr' := h.rptr_lt
  have hw := h.wptr_lt
  have hc := h.length_cases
  omega

theorem wptr_eq (h : Wf f) :
    f.wptr = (f.rptr.toNat + ivyFifoLength f) % f.buffer.length := by
  have hr := h.rptr_nonneg
  have hr' := h.rptr_lt
  have hw := h.wptr_lt
  obtain ⟨hle, hlen⟩ | ⟨hlt, hlen⟩ := h.length_cases
  · rw [Nat.mod_eq_of_lt] <;> omega
  · rw [Nat.mod_eq_sub_mod (by omega), Nat.mod_eq_of_lt] <;> omega

theorem avail_eq (h : Wf f) : ivyFifoAvail f = f.buffer.length - ivyFifoLength f := by
  have hlt := h.length_lt
  have hle := h.size_le
  simp only [ivyFifoMaxAllocSize_eq] at hle
  unfold ivyFifoAvail ivyFifoSize toUnsigned uintRange
  omega

@[simp] theorem length_queue (h : Wf f) : (queue f).length = ivyFifoLength f :=
  length_window h.length_lt.le

theorem chunk_eq (h : Wf f) (n : Nat) :
    chunk f n = min (f.buffer.length - f.rptr.toNat) n := by
  obtain ⟨h0, h1, h2, -, h3⟩ := h
  simp only [ivyFifoMaxAllocSize_eq] at h3
  unfold chunk toUnsigned uintRange
  omega

theorem drain (h : Wf f) {k : Nat} (hk : k ≤ chunk f (ivyFifoLength f)) :
    Wf (ivyFifoDrain f k) ∧ queue (ivyFifoDrain f k) = (queue f).drop k ∧
      ivyFifoLength (ivyFifoDrain f k) = ivyFifoLength f - k := by
  rw [h.chunk_eq] at hk
  have hr := h.rptr_nonneg
  have hr' := h.rptr_lt
  have hw := h.wptr_lt
  have hlen := h.length_lt
  have hrp : (ivyFifoDrain f k).rptr.toNat = (f.rptr.toNat + k) % f.buffer.length := by
    simp only [ivyFifoDrain]
    split
    · rw [show f.rptr.toNat + k = f.buffer.length by omega, Nat.mod_self]
      omega
    · rw [Nat.mod_eq_of_lt] <;> omega
  have hwf : Wf (ivyFifoDrain f k) := by
    refine ⟨?_, ?_, hw, h.aligned, h.size_le⟩ <;>
      simp only [ivyFifoDrain] <;> split <;> omega
  have hlen' : ivyFifoLength (ivyFifoDrain f k) = ivyFifoLength f - k := by
    have hc := h.length_cases
    have hc' := hwf.length_cases
    rw [hrp] at hc'
    simp only [show (ivyFifoDrain f k).wptr = f.wptr from rfl,
      show (ivyFifoDrain f k).buffer = f.buffer from rfl] at hc'
    by_cases hwrap : f.rptr.toNat + k = f.buffer.length
    · rw [hwrap, Nat.mod_self] at hc'
      omega
    · rw [Nat.mod_eq_of_lt (by omega)] at hc'
      omega
  refine ⟨hwf, ?_, hlen'⟩
  rw [queue, hlen', hrp, queue, ← window_add (by omega) hlen.le]
  exact window_mod ..

theorem put (h : Wf f) (src : Str) (hsrc : src.length ≤ f.buffer.length - f.wptr) :
    Wf (put f src) := by
  have hw := h.wptr_lt
  have hblit : (Fifo.put f src).buffer.length = f.buffer.length := length_blit (by omega)
  refine ⟨h.rptr_nonneg, ?_, ?_, ?_, ?_⟩ <;> rw [hblit]
  · exact h.rptr_lt
  · simp only [Fifo.put]
    split <;> omega
  · exact h.aligned
  · exact h.size_le

theorem queue_put (h : Wf f) (src : Str) (hsrc : src.length ≤ f.buffer.length - f.wptr)
    (hroom : ivyFifoLength f + src.length < f.buffer.length) :
    queue (Fifo.put f src) = queue f ++ src ∧
      ivyFifoLength (Fifo.put f src) = ivyFifoLength f + src.length := by
  have hr := h.rptr_nonneg
  have hr' := h.rptr_lt
  have hw := h.wptr_lt
  have hlen : ivyFifoLength (Fifo.put f src) = ivyFifoLength f + src.length := by
    have hblit : (Fifo.put f src).buffer.length = f.buffer.length := length_blit (by omega)
    have hc := h.length_cases
    have hc' := (h.put src hsrc).length_cases
    rw [hblit] at hc'
    generalize ivyFifoLength (Fifo.put f src) = len at hc' ⊢
    simp only [Fifo.put] at hc'
    split at hc' <;> omega
  refine ⟨?_, hlen⟩
  have hwp := h.wptr_eq
  rw [queue, hlen, queue]
  simp only [Fifo.put, hwp]
  exact window_blit (by omega) hroom.le (by omega)

end Wf

theorem wf_fresh {n : Nat} {q : Str} (hn : ivyFifoAllocSize ∣ n) (hn' : n ≤ ivyFifoMaxAllocSize)
    (hq : q.length < n) : Wf (fresh n q) ∧ queue (fresh n q) = q := by
  have hlen := length_fresh hq.le
  have hwf : Wf (fresh n q) := by
    constructor <;> try rw [hlen]
    · exact Int.le_refl 0
    · simp only [fresh]
      omega
    · exact hq
    · exact hn
    · exact hn'
  refine ⟨hwf, ?_⟩
  have hl : ivyFifoLength (fresh n q) = q.length := by
    have hc := hwf.length_cases
    simp only [fresh] at hc ⊢
    omega
  rw [queue, hl]
  exact window_blit_zero

namespace Wf

variable {f : IvyFifoBuffer}

theorem readLoop (h : Wf f) {fuel n : Nat} (hn : n ≤ ivyFifoLength f) (hfuel : n < fuel) :
    (ivyFifoReadLoop f fuel n).1 = (queue f).take n ∧ Wf (ivyFifoReadLoop f fuel n).2 ∧
      queue (ivyFifoReadLoop f fuel n).2 = (queue f).drop n := by
  induction fuel generalizing f n with
  | zero => omega
  | succ fuel ih =>
    have hr := h.rptr_nonneg
    have hr' := h.rptr_lt
    have hlen := h.length_lt
    have hchunk := h.chunk_eq n
    obtain ⟨hwf, hq, hl⟩ := h.drain (k := chunk f n) (by rw [h.chunk_eq, h.chunk_eq]; omega)
    have hdest : slice f.buffer f.rptr.toNat (chunk f n) = (queue f).take (chunk f n) :=
      slice_eq_take_window (by omega) (by omega)
    simp only [ivyFifoReadLoop]
    split
    · obtain ⟨h1, h2, h3⟩ := ih hwf (n := n - chunk f n) (by omega) (by omega)
      refine ⟨?_, h2, ?_⟩
      · rw [hdest, h1, hq, ← List.take_add, Nat.add_sub_cancel' (by omega)]
      · rw [h3, hq, List.drop_drop, Nat.add_sub_cancel' (by omega)]
    · rw [show chunk f n = n by omega] at hdest hwf hq ⊢
      exact ⟨hdest, hwf, hq⟩

theorem read (h : Wf f) (n : Nat) :
    (ivyFifoRead f n).dest = (queue f).take n ∧ Wf (ivyFifoRead f n).fifo ∧
      queue (ivyFifoRead f n).fifo = (queue f).drop n := by
  obtain ⟨h1, h2, h3⟩ :=
    h.readLoop (n := min n (ivyFifoLength f)) (by omega) (Nat.lt_succ_self _)
  refine ⟨?_, h2, ?_⟩
  · rw [ivyFifoRead, h1, ← h.length_queue, ← List.take_eq_take_min]
  · rw [ivyFifoRead, h3, ← h.length_queue, ← List.drop_eq_drop_min]

theorem wf_writeLoop (h : Wf f) (fuel : Nat) (buf : Str) :
    Wf (ivyFifoWriteLoop f fuel buf) ∧ (ivyFifoWriteLoop f fuel buf).full = f.full := by
  induction fuel generalizing f buf with
  | zero => exact ⟨h, rfl⟩
  | succ fuel ih =>
    have hput := h.put (buf.take (min (f.buffer.length - f.wptr) buf.length))
      (by rw [List.length_take]; omega)
    simp only [ivyFifoWriteLoop]
    split
    · exact ih hput _
    · exact ⟨hput, rfl⟩

theorem writeLoop (h : Wf f) {fuel : Nat} {buf : Str} (hfuel : buf.length < fuel)
    (hroom : ivyFifoLength f + buf.length < f.buffer.length) :
    queue (ivyFifoWriteLoop f fuel buf) = queue f ++ buf := by
  induction fuel generalizing f buf with
  | zero => omega
  | succ fuel ih =>
    have hw := h.wptr_lt
    simp only [ivyFifoWriteLoop]
    generalize hlen : min (f.buffer.length - f.wptr) buf.length = len
    have htake : (buf.take len).length = len := by rw [List.length_take]; omega
    obtain ⟨hq, hl⟩ := h.queue_put (buf.take len) (by omega) (by omega)
    have hsize : (Fifo.put f (buf.take len)).buffer.length = f.buffer.length :=
      length_blit (by omega)
    split
    · rw [ih (h.put _ (by omega)) (by rw [List.length_drop]; omega)
        (by rw [hl, hsize, List.length_drop]; omega), hq, List.append_assoc,
        List.take_append_drop]
    · rw [hq, List.take_of_length_le (by omega)]

theorem realloc_eq (h : Wf f) {n : Nat} (hn : n < ivyFifoMaxAllocSize)
    (hgrow : f.buffer.length ≤ n) :
    ivyFifoRealloc f n = fresh (alignedNewSize n) (queue f) := by
  obtain ⟨-, hgt, hle⟩ := alignedNewSize_spec hn
  rw [ivyFifoRealloc, if_neg (by omega), if_pos (by rw [ivyFifoSize]; omega)]
  simp only [fresh]
  rw [(h.read _).1, h.length_queue, List.take_of_length_le h.length_queue.le]

theorem realloc (h : Wf f) {n : Nat} (hn : n < ivyFifoMaxAllocSize)
    (hgrow : f.buffer.length ≤ n) :
    Wf (ivyFifoRealloc f n) ∧ queue (ivyFifoRealloc f n) = queue f ∧
      (ivyFifoRealloc f n).full = false ∧ n < (ivyFifoRealloc f n).buffer.length := by
  have hlt := h.length_lt
  obtain ⟨hal, hgt, hle⟩ := alignedNewSize_spec hn
  have hroom : (queue f).length < alignedNewSize n := by rw [h.length_queue]; omega
  rw [h.realloc_eq hn hgrow]
  obtain ⟨hwf, hq⟩ := wf_fresh hal hle hroom
  exact ⟨hwf, hq, rfl, by rw [length_fresh hroom.le]; exact hgt⟩

end Wf

/-- Room for `n` more bytes: they fit in the largest block, and a FIFO that has refused
a write is reallocated for them. -/
def takes (f : IvyFifoBuffer) (n : Nat) : Prop :=
  ivyFifoLength f + n < ivyFifoMaxAllocSize ∧ (f.full = true → ivyFifoAvail f ≤ n)

instance (f : IvyFifoBuffer) (n : Nat) : Decidable (takes f n) := by
  unfold takes
  infer_instance

namespace Wf

variable {f : IvyFifoBuffer}

theorem write_of_takes (h : Wf f) {buf : Str} (ht : takes f buf.length) :
    Wf (ivyFifoWrite f buf) ∧ queue (ivyFifoWrite f buf) = queue f ++ buf ∧
      (ivyFifoWrite f buf).full = false := by
  obtain ⟨hmax, hfull⟩ := ht
  have hlt := h.length_lt
  have hav := h.avail_eq
  have hres : Wf (ivyFifoReserve f buf.length) ∧ queue (ivyFifoReserve f buf.length) = queue f ∧
      (ivyFifoReserve f buf.length).full = false ∧
      ivyFifoLength f + buf.length < (ivyFifoReserve f buf.length).buffer.length := by
    rw [ivyFifoReserve]
    split
    · rw [toUnsigned_natCast (by unfold ivyFifoMaxAllocSize at hmax; unfold uintRange; omega),
        Nat.add_comm]
      exact h.realloc hmax (by omega)
    · refine ⟨h, rfl, ?_, by omega⟩
      by_contra hf
      exact absurd (hfull (by simpa using hf)) (by omega)
  obtain ⟨hwf, hq, hf, hroom⟩ := hres
  have hlen : ivyFifoLength (ivyFifoReserve f buf.length) = ivyFifoLength f := by
    rw [← hwf.length_queue, hq, h.length_queue]
  simp only [ivyFifoWrite, hf, Bool.false_eq_true, if_false]
  obtain ⟨hwf', hf'⟩ := hwf.wf_writeLoop (buf.length + 1) buf
  refine ⟨hwf', ?_, hf'.trans hf⟩
  rw [hwf.writeLoop (Nat.lt_succ_self _) (by omega), hq]

/-- Past `overflowSize` the rounded size wraps below the present one: `IvyFifoRealloc`
neither grows the block nor refuses. -/
theorem realloc_overflow (h : Wf f) {n : Nat} (hn : n < uintRange)
    (ho : overflowSize ≤ n + ivyFifoLength f) :
    ivyFifoRealloc f (toUnsigned (n + ivyFifoLength f : Nat)) = f := by
  have hlt := h.length_lt
  have hle := h.size_le
  obtain ⟨m, hm⟩ := h.aligned
  have hal : alignedNewSize (toUnsigned (n + ivyFifoLength f : Nat)) ≤ f.buffer.length := by
    unfold alignedNewSize toUnsigned
    simp only [overflowSize, uintRange, ivyFifoAllocSize, ivyFifoMaxAllocSize_eq] at *
    omega
  rw [ivyFifoRealloc, if_neg (by omega), if_neg (by rw [ivyFifoSize]; omega)]

theorem write_of_not_takes (h : Wf f) {buf : Str} (hbuf : buf.length < uintRange)
    (ht : ¬ takes f buf.length)
    (hov : f.full = true ∨ buf.length + ivyFifoLength f < overflowSize) :
    ivyFifoWrite f buf = { f with full := true } := by
  have hlt := h.length_lt
  have hav := h.avail_eq
  have hle := h.size_le
  have hres : ivyFifoReserve f buf.length = { f with full := true } := by
    rw [ivyFifoReserve]
    split
    · have hmax : ivyFifoMaxAllocSize ≤ buf.length + ivyFifoLength f := by
        by_contra hmax
        exact ht ⟨by omega, fun _ => by assumption⟩
      by_cases ho : overflowSize ≤ buf.length + ivyFifoLength f
      · rw [h.realloc_overflow hbuf ho, ← hov.resolve_right (by omega)]
      · rw [toUnsigned_natCast (by simp only [overflowSize] at ho; omega), ivyFifoRealloc,
          if_pos (alignedNewSize_refused hmax (by omega))]
    · have hf : f.full = true := by
        by_contra hf
        exact ht ⟨by omega, fun hf' => absurd hf' hf⟩
      rw [← hf]
  rw [ivyFifoWrite, hres]
  rfl

theorem write_of_overflow (h : Wf f) {buf : Str} (hbuf : buf.length < uintRange)
    (ho : overflowSize ≤ buf.length + ivyFifoLength f) (hf : f.full = false) :
    Wf (ivyFifoWrite f buf) ∧ (ivyFifoWrite f buf).full = false := by
  have hle := h.size_le
  have hav := h.avail_eq
  have hres : ivyFifoReserve f buf.length = f := by
    rw [ivyFifoReserve, if_pos, h.realloc_overflow hbuf ho]
    simp only [overflowSize, uintRange, ivyFifoAllocSize, ivyFifoMaxAllocSize_eq] at *
    omega
  rw [ivyFifoWrite, hres]
  simp only [hf, Bool.false_eq_true, if_false]
  obtain ⟨hwf, hfull⟩ := h.wf_writeLoop (buf.length + 1) buf
  exact ⟨hwf, hfull.trans hf⟩

theorem setFull (h : Wf f) : Wf { f with full := true } :=
  ⟨h.rptr_nonneg, h.rptr_lt, h.wptr_lt, h.aligned, h.size_le⟩

theorem write (h : Wf f) {buf : Str} (hbuf : buf.length < uintRange) :
    Wf (ivyFifoWrite f buf) := by
  by_cases ht : takes f buf.length
  · exact (h.write_of_takes ht).1
  · by_cases hov : f.full = true ∨ buf.length + ivyFifoLength f < overflowSize
    · rw [h.write_of_not_takes hbuf ht hov]
      exact h.setFull
    · rw [not_or, Bool.not_eq_true, Nat.not_lt] at hov
      exact (h.write_of_overflow hbuf hov.2 hov.1).1

theorem write_block (h : Wf f) {buf : Str} (hbuf : buf.length < uintRange / 2) :
    queue (ivyFifoWrite f buf) = queue f ++ if takes f buf.length then buf else [] := by
  split
  · rename_i ht
    exact (h.write_of_takes ht).2.1
  · rename_i ht
    have hlt := h.length_lt
    have hle := h.size_le
    simp only [ivyFifoMaxAllocSize_eq, uintRange] at hle hbuf
    rw [h.write_of_not_takes (by simp only [uintRange]; omega) ht
      (Or.inr (by simp only [overflowSize, uintRange, ivyFifoAllocSize]; omega)), List.append_nil]
    rfl

end Wf

/-- Neither the first `send()` of `IvyFifoSendSocket` returns `-1`, nor the second one, which
is only made when the first takes everything up to the end of the block and the queue goes on
at its start. -/
def SendsSucceed (f : IvyFifoBuffer) : List SendResult → Prop
  | [] => True
  | [r] => ¬ r.Failed
  | r :: r' :: _ =>
    let maxLen := chunk f (ivyFifoLength f)
    ¬ r.Failed ∧ (r.taken maxLen = maxLen ∧ maxLen < ivyFifoLength f → ¬ r'.Failed)

theorem SendResult.ret_eq_taken {r : SendResult} (h : ¬ r.Failed) (n : Nat) :
    r.ret n = r.taken n := by
  cases r with
  | room k => rfl
  | wouldBlock => exact absurd trivial h
  | error => exact absurd trivial h

theorem SendResult.ret_of_failed {r : SendResult} (h : r.Failed) (n : Nat) : r.ret n = -1 := by
  cases r with
  | room k => exact absurd h id
  | wouldBlock => rfl
  | error => rfl

theorem SendResult.taken_of_failed {r : SendResult} (h : r.Failed) (n : Nat) :
    r.taken n = 0 := by
  cases r with
  | room k => exact absurd h id
  | wouldBlock => rfl
  | error => rfl

theorem SendResult.taken_le (r : SendResult) (n : Nat) : r.taken n ≤ n := by
  cases r with
  | room k => exact Nat.min_le_right k n
  | wouldBlock => exact Nat.zero_le n
  | error => exact Nat.zero_le n

namespace Wf

variable {f : IvyFifoBuffer}

theorem chunk_lt (h : Wf f) (n : Nat) : chunk f n < uintRange / 2 := by
  have hle := h.size_le
  have hchunk := h.chunk_eq n
  simp only [ivyFifoMaxAllocSize_eq, uintRange] at *
  omega

theorem chunk_le (h : Wf f) (n : Nat) : chunk f n ≤ n := by
  rw [h.chunk_eq]
  exact Nat.min_le_right ..

theorem slice_rptr (h : Wf f) {k : Nat} (hk : k ≤ chunk f (ivyFifoLength f)) :
    slice f.buffer f.rptr.toNat k = (queue f).take k := by
  rw [h.chunk_eq] at hk
  have hr := h.rptr_nonneg
  have hr' := h.rptr_lt
  exact slice_eq_take_window (by omega) (by omega)

theorem sendSocketLoop_cons (h : Wf f) {r : SendResult} (hr : ¬ r.Failed)
    (rs : List SendResult) :
    let maxLen := chunk f (ivyFifoLength f)
    let k := r.taken maxLen
    let f' := ivyFifoDrain f k
    ivyFifoSendSocketLoop f (r :: rs) =
      if k = maxLen ∧ maxLen < ivyFifoLength f then
        ((queue f).take k ++ (ivyFifoSendSocketLoop f' rs).1, (ivyFifoSendSocketLoop f' rs).2)
      else ((queue f).take k, f') := by
  intro maxLen k f'
  have hk : k ≤ maxLen := r.taken_le maxLen
  have hlt : maxLen < uintRange / 2 := h.chunk_lt _
  have hle : maxLen ≤ ivyFifoLength f := h.chunk_le _
  have hun : toUnsigned (r.ret maxLen) = k := by
    rw [SendResult.ret_eq_taken hr, toUnsigned_natCast]
    simp only [uintRange] at *
    omega
  have hsg : toSigned k = (k : Int) := if_pos (hk.trans_lt hlt)
  have hlen : ivyFifoLength f' = ivyFifoLength f - k := (h.drain hk).2.2
  rw [ivyFifoSendSocketLoop]
  simp only [show chunk f (ivyFifoLength f) = maxLen from rfl,
    show r.taken maxLen = k from rfl, hun, hsg, h.slice_rptr hk]
  rw [show ivyFifoDrain f k = f' from rfl, hlen]
  have hcond : (ivyFifoLength f - k ≠ 0 ∧ maxLen = k) ↔
      (k = maxLen ∧ maxLen < ivyFifoLength f) := by omega
  simp only [hcond]

/-- A failed `send()` ends the loop, and `IvyFifoDrain` moves `rptr` back by one byte. -/
theorem sendSocketLoop_failed (h : Wf f) {r : SendResult} (hr : r.Failed)
    (rs : List SendResult) :
    ivyFifoSendSocketLoop f (r :: rs) = ([], ivyFifoDrain f (-1)) := by
  have hlt := h.chunk_lt (ivyFifoLength f)
  have hun : toUnsigned (-1) = 4294967295 := rfl
  rw [ivyFifoSendSocketLoop]
  simp only [SendResult.ret_of_failed hr, SendResult.taken_of_failed hr, hun, slice_zero]
  rw [if_neg (by simp only [uintRange] at hlt; omega)]
  rfl

theorem drain_partial (h : Wf f) (hlt : chunk f (ivyFifoLength f) < ivyFifoLength f) :
    (ivyFifoDrain f (chunk f (ivyFifoLength f))).rptr = 0 := by
  rw [h.chunk_eq] at hlt ⊢
  have hr := h.rptr_nonneg
  have hr' := h.rptr_lt
  simp only [ivyFifoDrain]
  split <;> omega

end Wf

/-- What a call of `IvyFifoSendSocket` is for: the bytes taken by the kernel leave the front
of the queue and `rptr` stays in the block. -/
structure SendSocketOk (f : IvyFifoBuffer) (answers : List SendResult) : Prop where
  stream : (ivyFifoSendSocket f answers).sent ++ queue (ivyFifoSendSocket f answers).fifo =
    queue f
  rptr_nonneg : 0 ≤ (ivyFifoSendSocket f answers).fifo.rptr
  rptr_lt : (ivyFifoSendSocket f answers).fifo.rptr <
    (ivyFifoSendSocket f answers).fifo.buffer.length
  ret : (ivyFifoSendSocket f answers).ret = (queue (ivyFifoSendSocket f answers).fifo).length

namespace Wf

variable {f : IvyFifoBuffer}

theorem sendSocket (h : Wf f) {rs : List SendResult} (hok : SendsSucceed f rs) :
    Wf (ivyFifoSendSocket f rs).fifo ∧
      (ivyFifoSendSocket f rs).sent ++ queue (ivyFifoSendSocket f rs).fifo = queue f := by
  simp only [ivyFifoSendSocket]
  induction rs generalizing f with
  | nil =>
    obtain ⟨hwf, hq, -⟩ := h.drain (k := 0) (Nat.zero_le _)
    exact ⟨hwf, hq⟩
  | cons r rs ih =>
    have hr : ¬ r.Failed := by
      cases rs with
      | nil => exact hok
      | cons r' rs => exact hok.1
    have hk := r.taken_le (chunk f (ivyFifoLength f))
    obtain ⟨hwf, hq, hlen⟩ := h.drain hk
    rw [h.sendSocketLoop_cons hr]
    split
    · rename_i hmore
      rw [hmore.1] at hwf hq hlen ⊢
      have hzero := h.drain_partial hmore.2
      have hrest : SendsSucceed (ivyFifoDrain f (chunk f (ivyFifoLength f))) rs := by
        cases rs with
        | nil => trivial
        | cons r' rs =>
          cases rs with
          | nil => exact hok.2 hmore
          | cons r'' rs =>
            refine ⟨hok.2 hmore, fun hwrap => ?_⟩
            rw [hwf.chunk_eq, hzero] at hwrap
            have := hwf.length_lt
            omega
      obtain ⟨hwf', hq'⟩ := ih hwf hrest
      refine ⟨hwf', ?_⟩
      simp only [List.append_assoc]
      rw [hq', hq, List.take_append_drop]
    · exact ⟨hwf, by rw [hq, List.take_append_drop]⟩

theorem sent_ne_nil (h : Wf f) (hq : queue f ≠ []) (k : Nat) (rs : List SendResult) :
    (ivyFifoSendSocket f (.room (k + 1) :: rs)).sent ≠ [] := by
  have hpos : 0 < ivyFifoLength f := h.length_queue ▸ List.length_pos_of_ne_nil hq
  have htaken : 0 < (SendResult.room (k + 1)).taken (chunk f (ivyFifoLength f)) := by
    have hr := h.rptr_nonneg
    have hr' := h.rptr_lt
    rw [SendResult.taken, h.chunk_eq]
    omega
  have hfront : (queue f).take ((SendResult.room (k + 1)).taken (chunk f (ivyFifoLength f))) ≠
      [] := fun hnil => (List.take_eq_nil_iff.mp hnil).elim htaken.ne' hq
  rw [ivyFifoSendSocket, h.sendSocketLoop_cons id]
  split
  · exact List.append_ne_nil_of_left_ne_nil hfront _
  · exact hfront

/-- A failed first `send()` breaks the contract: `rptr` leaves the block or a byte that was
already sent comes back. -/
theorem not_sendSocketOk_failed (h : Wf f) {r : SendResult} (hr : r.Failed)
    (rs : List SendResult) : ¬ SendSocketOk f (r :: rs) := by
  rintro ⟨hstream, h0, hlt, -⟩
  simp only [ivyFifoSendSocket, h.sendSocketLoop_failed hr, List.nil_append] at hstream h0 hlt
  have hr0 := h.rptr_nonneg
  have hr1 := h.rptr_lt
  have hw := h.wptr_lt
  have hrp : (ivyFifoDrain f (-1)).rptr = f.rptr - 1 := by
    simp only [ivyFifoDrain]
    split <;> omega
  have hwf : Wf (ivyFifoDrain f (-1)) := ⟨h0, hlt, hw, h.aligned, h.size_le⟩
  have hlen := congrArg List.length hstream
  rw [h.length_queue, hwf.length_queue] at hlen
  have hc := h.length_cases
  have hc' := hwf.length_cases
  rw [hrp] at hc' h0
  simp only [show (ivyFifoDrain f (-1)).wptr = f.wptr from rfl,
    show (ivyFifoDrain f (-1)).buffer = f.buffer from rfl] at hc'
  omega

theorem sendSocketOk_iff (h : Wf f) (rs : List SendResult) :
    SendSocketOk f rs ↔ SendsSucceed f rs := by
  constructor
  · intro hok
    cases rs with
    | nil => trivial
    | cons r rs =>
      have hr : ¬ r.Failed := fun hr => h.not_sendSocketOk_failed hr rs hok
      cases rs with
      | nil => exact hr
      | cons r' rs =>
        refine ⟨hr, fun hmore hr' => ?_⟩
        have hk := r.taken_le (chunk f (ivyFifoLength f))
        obtain ⟨hwf, hq, -⟩ := h.drain hk
        have hdef := h.sendSocketLoop_cons hr (r' :: rs)
        simp only at hdef
        rw [if_pos hmore] at hdef
        refine hwf.not_sendSocketOk_failed hr' rs ?_
        obtain ⟨hstream, h0, hlt, hret⟩ := hok
        simp only [ivyFifoSendSocket, hdef] at hstream h0 hlt hret
        refine ⟨?_, h0, hlt, hret⟩
        rw [List.append_assoc] at hstream
        rw [hq]
        exact List.append_cancel_left (hstream.trans (List.take_append_drop ..).symm)
  · intro hok
    obtain ⟨hwf, hq⟩ := h.sendSocket hok
    exact ⟨hq, hwf.rptr_nonneg, hwf.rptr_lt, hwf.length_queue.symm⟩

end Wf

end IvyBus.Fifo
