import IvyBus.Lib.Chars
import IvyBus.Param

namespace IvyBus.Buffer

open Lib

abbrev intMax : Nat := 2147483647

structure IvyBuffer where
  data : Option Chars
  size : Nat
  offset : Nat

def IvyBuffer.null : IvyBuffer := ⟨none, 0, 0⟩

abbrev Memory := Nat → Bool

/-- What `vsnprintf` returns: a length that is no `int` is an error. -/
def vsnprintfLength (text : Str) : Option Nat :=
  if text.length ≤ intMax then some text.length else none

/-- What `vsnprintf` writes. As a `size_t`, a negative room has no bound. -/
def vsnprintf (data : Chars) (offset : Nat) (room : Int) (text : Str) : Checked Chars :=
  if room = 0 then .ok data
  else data.strcpy offset (if room < 0 then text else text.take (room.toNat - 1))

/-- The loop of `make_message`, with a bound on its rounds. -/
def makeMessageLoop (memory : Memory) (text : Str) (offset : Nat) :
    Nat → Chars → Nat → Checked (Int × IvyBuffer)
  | 0, _, _ => .error .fuel
  | fuel + 1, data, size => do
    let data ← vsnprintf data offset (size - offset) text
    let n := vsnprintfLength text
    if n.any (· < size - offset) then .ok (text.length, ⟨some data, size, offset + text.length⟩)
    else
      let size := n.elim (size * 2) (offset + · + 1)
      if size > intMax then .error .fail
      else if memory size then makeMessageLoop memory text offset fuel (data.realloc size) size
      else .ok (-1, ⟨none, size, offset⟩)

def makeMessage (memory : Memory) (buffer : IvyBuffer) (text : Str) : Checked (Int × IvyBuffer) :=
  match if buffer.size = 0 then none else buffer.data with
  | none =>
    if memory ivyBufferSize then
      makeMessageLoop memory text 0 32 (Chars.uninit ivyBufferSize) ivyBufferSize
    else .ok (-1, ⟨none, ivyBufferSize, 0⟩)
  | some data => makeMessageLoop memory text buffer.offset 32 data buffer.size

/-- What stands before the first place where `pattern` is found, and what starts there. -/
def strstr (pattern : Str) : Str → Option (Str × Str)
  | [] => if pattern = [] then some ([], []) else none
  | c :: s =>
    if pattern.isPrefixOf (c :: s) then some ([], c :: s)
    else (strstr pattern s).map fun p => (c :: p.1, p.2)

def interval : Str := ascii "(?I"

abbrev closing : UInt8 := 41

abbrev dstSize : Nat := 8192

/-- What `regexpGen` writes for the group that a text starts with, when it is told the room. -/
abbrev Gen := Str → Nat → Option CString

/-- The loop of `substituteInterval`, with a bound on its rounds. -/
def substituteLoop (regexpGen : Gen) : Nat → Chars → Nat → Str → Checked Chars
  | 0, _, _, _ => .error .fuel
  | fuel + 1, dst, offset, curPos =>
    match strstr interval curPos with
    | none => dst.strncat curPos (dstSize - offset)
    | some (before, itvPos) => do
      let dst ← dst.memcpy offset before
      let offset := offset + before.length
      let dst ← (regexpGen itvPos (dstSize - offset)).elim (.ok dst) fun text =>
        dst.strcpy offset text.1
      let written ← dst.cString
      match itvPos.dropWhile (· ≠ closing) with
      | [] => .error .bounds
      | _ :: rest => substituteLoop regexpGen fuel dst written.length rest

def substituteInterval (memory : Memory) (regexpGen : Gen) (src : IvyBuffer) :
    Checked IvyBuffer :=
  match src.data with
  | none => .error .bounds
  | some data => do
    let text ← data.cString
    if (strstr interval text).isNone then .ok src
    else if memory dstSize then do
      let dst ← substituteLoop regexpGen (text.length + 1) (Chars.uninit dstSize) 0 text
      .ok { src with data := some dst }
    else .error .bounds

/-- The buffer of `IvyBindMsg` and of `IvyChangeMsg`. -/
def formatRegexp (memory : Memory) (regexpGen : Gen) (buffer : IvyBuffer) (text : Str) :
    Checked IvyBuffer := do
  let made ← makeMessage memory { buffer with offset := 0 } text
  substituteInterval memory regexpGen made.2

/-- A use of a buffer. Before the first text of a message its `offset` is set to zero. -/
inductive Use
  | makeMessage (memory : Memory) (first : Bool) (text : CString)
  | bindMsg (memory : Memory) (regexpGen : Gen) (text : CString)

def use (buffer : IvyBuffer) : Use → Checked IvyBuffer
  | .makeMessage memory first text => do
    let made ← makeMessage memory
      (if first then { buffer with offset := 0 } else buffer) text.1
    .ok made.2
  | .bindMsg memory regexpGen text => formatRegexp memory regexpGen buffer text.1

def next (buffer : IvyBuffer) (u : Use) : Option IvyBuffer := (use buffer u).toOption

end IvyBus.Buffer
