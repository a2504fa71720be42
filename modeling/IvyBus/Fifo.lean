import IvyBus.Lib.Ring
import IvyBus.Param

namespace IvyBus.Fifo

open Lib

/-- `rptr` and `wptr` are offsets from `buffer`, `end` is the length of the block.
Only `rptr` can leave the block, so only `rptr` is an integer. -/
structure IvyFifoBuffer where
  buffer : Str
  rptr : Int
  wptr : Nat
  full : Bool

def ivyFifoInit : IvyFifoBuffer where
  buffer := malloc ivyFifoAllocSize
  rptr := 0
  wptr := 0
  full := false

def ivyFifoNew : IvyFifoBuffer := ivyFifoInit

def ivyFifoSize (f : IvyFifoBuffer) : Nat := f.buffer.length

def ivyFifoLength (f : IvyFifoBuffer) : Nat :=
  let size : Int := f.wptr - f.rptr
  toUnsigned (if size < 0 then size + f.buffer.length else size)

def ivyFifoAvail (f : IvyFifoBuffer) : Nat :=
  toUnsigned ((ivyFifoSize f : Int) - ivyFifoLength f)

def ivyFifoIsFull (f : IvyFifoBuffer) : Bool := f.full

def ivyFifoDrain (f : IvyFifoBuffer) (size : Int) : IvyFifoBuffer :=
  let rptr := f.rptr + size
  { f with
    rptr := if rptr ≥ f.buffer.length then rptr - f.buffer.length else rptr
    full := if size > 0 then false else f.full }

def chunk (f : IvyFifoBuffer) (n : Nat) : Nat :=
  min (toUnsigned (f.buffer.length - f.rptr)) n

/-- The copying loop of `IvyFifoGenericRead` (without `func`), with a bound on its rounds. -/
def ivyFifoReadLoop (f : IvyFifoBuffer) : Nat → Nat → Str × IvyFifoBuffer
  | 0, _ => ([], f)
  | fuel + 1, bytesToRead =>
    let len := chunk f bytesToRead
    let dest := slice f.buffer f.rptr.toNat len
    let f' := ivyFifoDrain f len
    if bytesToRead - len > 0 then
      let rest := ivyFifoReadLoop f' fuel (bytesToRead - len)
      (dest ++ rest.1, rest.2)
    else (dest, f')

structure ReadResult where
  retV : Nat
  dest : Str
  fifo : IvyFifoBuffer

def ivyFifoRead (f : IvyFifoBuffer) (bufSize : Nat) : ReadResult :=
  let retV := min bufSize (ivyFifoLength f)
  let out := ivyFifoReadLoop f (retV + 1) retV
  ⟨retV, out.1, out.2⟩

def alignedNewSize (newSize : Nat) : Nat :=
  toUnsigned ((newSize / ivyFifoAllocSize + 1) * ivyFifoAllocSize : Nat)

def ivyFifoRealloc (f : IvyFifoBuffer) (newSize : Nat) : IvyFifoBuffer :=
  if alignedNewSize newSize > ivyFifoMaxAllocSize then { f with full := true }
  else if ivyFifoSize f < alignedNewSize newSize then
    let len := ivyFifoLength f
    { buffer := blit (malloc (alignedNewSize newSize)) 0 (ivyFifoRead f len).dest
      rptr := 0
      wptr := len
      full := false }
  else f

def put (f : IvyFifoBuffer) (src : Str) : IvyFifoBuffer :=
  let wptr := f.wptr + src.length
  { f with
    buffer := blit f.buffer f.wptr src
    wptr := if wptr ≥ f.buffer.length then 0 else wptr }

/-- The copying loop of `IvyFifoWrite`, with a bound on its rounds. -/
def ivyFifoWriteLoop (f : IvyFifoBuffer) : Nat → Str → IvyFifoBuffer
  | 0, _ => f
  | fuel + 1, buf =>
    let len := min (f.buffer.length - f.wptr) buf.length
    let f' := put f (buf.take len)
    if buf.length - len > 0 then ivyFifoWriteLoop f' fuel (buf.drop len) else f'

def ivyFifoReserve (f : IvyFifoBuffer) (size : Nat) : IvyFifoBuffer :=
  if size ≥ ivyFifoAvail f then ivyFifoRealloc f (toUnsigned (size + ivyFifoLength f : Nat)) else f

def ivyFifoWrite (f : IvyFifoBuffer) (buf : Str) : IvyFifoBuffer :=
  let f' := ivyFifoReserve f buf.length
  if f'.full then f' else ivyFifoWriteLoop f' (buf.length + 1) buf

/-- An answer of the kernel to one `send()`: room for so many bytes, or `-1` with `errno`
equal to `EWOULDBLOCK` or to something else. -/
inductive SendResult
  | room (k : Nat)
  | wouldBlock
  | error
  deriving DecidableEq

def SendResult.ret (n : Nat) : SendResult → Int
  | .room k => (min k n : Nat)
  | .wouldBlock => -1
  | .error => -1

def SendResult.taken (n : Nat) : SendResult → Nat
  | .room k => min k n
  | .wouldBlock => 0
  | .error => 0

def SendResult.Failed : SendResult → Prop
  | .room _ => False
  | .wouldBlock => True
  | .error => True

instance : DecidablePred SendResult.Failed := fun r => by
  cases r <;> unfold SendResult.Failed <;> infer_instance

/-- The sending loop of `IvyFifoSendSocket`: the bytes the kernel took and the FIFO left.
A kernel without answers left has room for nothing. -/
def ivyFifoSendSocketLoop (f : IvyFifoBuffer) : List SendResult → Str × IvyFifoBuffer
  | [] => ([], ivyFifoDrain f 0)
  | r :: rs =>
    let maxLen := chunk f (ivyFifoLength f)
    let realLen := toUnsigned (r.ret maxLen)
    let took := slice f.buffer f.rptr.toNat (r.taken maxLen)
    let f' := ivyFifoDrain f (toSigned realLen)
    if ivyFifoLength f' ≠ 0 ∧ maxLen = realLen then
      let rest := ivyFifoSendSocketLoop f' rs
      (took ++ rest.1, rest.2)
    else (took, f')

structure SendSocketResult where
  sent : Str
  fifo : IvyFifoBuffer
  ret : Nat

def ivyFifoSendSocket (f : IvyFifoBuffer) (answers : List SendResult) : SendSocketResult :=
  let out := ivyFifoSendSocketLoop f answers
  ⟨out.1, out.2, ivyFifoLength out.2⟩

end IvyBus.Fifo
