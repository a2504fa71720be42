import IvyBus.FifoLaws
import IvyBus.Lib.Run

namespace IvyBus.Fifo

open Lib

inductive QueueOp
  | write (buf : Str) (size_lt : buf.length < uintRange)
  | read (bufSize : Nat)

def QueueOp.next (f : IvyFifoBuffer) : QueueOp → Option IvyFifoBuffer
  | .write buf _ => some (ivyFifoWrite f buf)
  | .read bufSize => some (ivyFifoRead f bufSize).fifo

structure Sound (f : IvyFifoBuffer) : Prop where
  rptr_mem : 0 ≤ f.rptr ∧ f.rptr < f.buffer.length
  wptr_mem : f.wptr < f.buffer.length
  size_pos : 0 < ivyFifoSize f
  size_dvd : ivyFifoAllocSize ∣ ivyFifoSize f
  size_le : ivyFifoSize f ≤ ivyFifoMaxAllocSize
  length_eq : ivyFifoLength f = (queue f).length
  length_lt : ivyFifoLength f < ivyFifoSize f

theorem Wf.sound {f : IvyFifoBuffer} (h : Wf f) : Sound f :=
  ⟨⟨h.rptr_nonneg, h.rptr_lt⟩, h.wptr_lt, h.size_pos, h.aligned, h.size_le,
    h.length_queue.symm, h.length_lt⟩

/-- A call does to the FIFO what it does to a queue of bytes: a write appends everything or
refuses everything and leaves the full flag, a read takes the front. -/
def Refines (f : IvyFifoBuffer) : QueueOp → Prop
  | .write buf _ => Sound (ivyFifoWrite f buf) ∧
      (queue (ivyFifoWrite f buf) = queue f ++ buf ∨
        queue (ivyFifoWrite f buf) = queue f ∧ ivyFifoIsFull (ivyFifoWrite f buf) = true)
  | .read bufSize => Sound (ivyFifoRead f bufSize).fifo ∧
      (ivyFifoRead f bufSize).retV = min bufSize (queue f).length ∧
      (ivyFifoRead f bufSize).dest = (queue f).take bufSize ∧
      queue (ivyFifoRead f bufSize).fifo = (queue f).drop bufSize

/-- The sizes `IvyFifoWrite` can compute with: those that do not overflow its rounding. -/
def Fits (f : IvyFifoBuffer) : QueueOp → Prop
  | .write buf _ => ivyFifoIsFull f = true ∨ buf.length + ivyFifoLength f < overflowSize
  | .read _ => True

theorem Wf.queueOp {f f' : IvyFifoBuffer} (h : Wf f) {op : QueueOp}
    (hop : op.next f = some f') : Wf f' := by
  cases op with
  | write buf hbuf => exact Option.some.inj hop ▸ h.write hbuf
  | read n => exact Option.some.inj hop ▸ (h.read n).2.1

theorem Wf.refines_of_fits {f : IvyFifoBuffer} (h : Wf f) {op : QueueOp} (hop : Fits f op) :
    Refines f op := by
  cases op with
  | write buf hbuf =>
    refine ⟨(h.write hbuf).sound, ?_⟩
    by_cases ht : takes f buf.length
    · exact Or.inl (h.write_of_takes ht).2.1
    · rw [h.write_of_not_takes hbuf ht hop]
      exact Or.inr ⟨rfl, rfl⟩
  | read n =>
    obtain ⟨hdest, hwf, hq⟩ := h.read n
    exact ⟨hwf.sound, by rw [h.length_queue]; rfl, hdest, hq⟩

theorem Wf.not_refines_of_overflow {f : IvyFifoBuffer} (h : Wf f) {buf : Str}
    (hbuf : buf.length < uintRange) (hf : f.full = false)
    (ho : overflowSize ≤ buf.length + ivyFifoLength f) : ¬ Refines f (.write buf hbuf) := by
  obtain ⟨hwf, hfull⟩ := h.write_of_overflow hbuf ho hf
  rintro ⟨-, hq | hq⟩
  · have hlen := congrArg List.length hq
    rw [List.length_append, hwf.length_queue, h.length_queue] at hlen
    have hlt := hwf.length_lt
    have hle := hwf.size_le
    simp only [overflowSize, uintRange, ivyFifoAllocSize, ivyFifoMaxAllocSize_eq] at ho hle
    omega
  · exact absurd (hfull.symm.trans hq.2) Bool.false_ne_true

theorem Wf.refines_iff {f : IvyFifoBuffer} (h : Wf f) (op : QueueOp) :
    Refines f op ↔ Fits f op := by
  refine ⟨fun hr => ?_, h.refines_of_fits⟩
  by_contra hfits
  cases op with
  | write buf hbuf =>
    simp only [Fits, ivyFifoIsFull, not_or, Bool.not_eq_true, Nat.not_lt] at hfits
    exact h.not_refines_of_overflow hbuf hfits.1 hfits.2 hr
  | read n => exact hfits trivial

/-- Along any run of writes and reads the FIFO refines a byte queue exactly as long as no
write overflows the size computation. -/
theorem ivyFifo_refines_queue (ops : List QueueOp) :
    Sound ivyFifoNew ∧ queue ivyFifoNew = [] ∧
      (Along QueueOp.next Refines ivyFifoNew ops ↔ Along QueueOp.next Fits ivyFifoNew ops) :=
  ⟨wf_ivyFifoNew.sound, queue_ivyFifoNew,
    along_iff (I := Wf) (fun _ op h => h.refines_iff op) (fun _ _ _ h _ hop => h.queueOp hop)
      wf_ivyFifoNew ops⟩

@[irreducible] def hugeBlock : Str := List.replicate 4294967295 0

theorem length_hugeBlock : hugeBlock.length = 4294967295 := by
  unfold hugeBlock
  exact List.length_replicate

theorem ivyFifo_loses_hugeBlock :
    ¬ Along QueueOp.next Refines ivyFifoNew
      [.write hugeBlock (by rw [length_hugeBlock]; decide)] := by
  intro h
  refine wf_ivyFifoNew.not_refines_of_overflow _ rfl ?_ h.1
  rw [length_hugeBlock]
  simp only [overflowSize, uintRange, ivyFifoAllocSize]
  omega

inductive FifoOp
  | queue (op : QueueOp)
  | sendSocket (answers : List SendResult)

def FifoOp.next (f : IvyFifoBuffer) : FifoOp → Option IvyFifoBuffer
  | .queue op => op.next f
  | .sendSocket answers => some (ivyFifoSendSocket f answers).fifo

def DrainOk (f : IvyFifoBuffer) : FifoOp → Prop
  | .queue _ => True
  | .sendSocket answers => SendSocketOk f answers

def Answered (f : IvyFifoBuffer) : FifoOp → Prop
  | .queue _ => True
  | .sendSocket answers => SendsSucceed f answers

/-- Along any run the drains keep the byte stream exactly as long as no `send()` that a drain
makes returns `-1`. -/
theorem drains_keep_stream (ops : List FifoOp) :
    Along FifoOp.next DrainOk ivyFifoNew ops ↔ Along FifoOp.next Answered ivyFifoNew ops := by
  refine along_iff (I := Wf) ?_ ?_ wf_ivyFifoNew ops
  · intro f op h
    cases op with
    | queue op => exact Iff.rfl
    | sendSocket answers => exact h.sendSocketOk_iff answers
  · intro f op f' h hop hnext
    cases op with
    | queue op => exact h.queueOp hnext
    | sendSocket answers => exact Option.some.inj hnext ▸ (h.sendSocket hop).1

theorem drain_wouldBlock_breaks_stream :
    ¬ Along FifoOp.next DrainOk ivyFifoNew
      [.queue (.write [65] (by decide)), .sendSocket [.wouldBlock]] := by
  intro h
  have hdrain : SendSocketOk (ivyFifoWrite ivyFifoNew [65]) [.wouldBlock] := (h.2 _ rfl).1
  have hwf : Wf (ivyFifoWrite ivyFifoNew [65]) := wf_ivyFifoNew.write (by decide)
  exact hwf.not_sendSocketOk_failed (r := .wouldBlock) trivial [] hdrain

end IvyBus.Fifo
