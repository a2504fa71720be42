import IvyBus.Lib.Ring
import IvyBus.Param

namespace IvyBus.Socket

open Lib

/-- The receiving side of a `struct _client`; `ptr` is an offset from `buffer`. -/
structure Receiver where
  bufferSize : Nat
  buffer : Str
  ptr : Nat
  terminator : UInt8

def Receiver.init : Receiver where
  bufferSize := ivyBufferSize
  buffer := malloc ivyBufferSize
  ptr := 0
  terminator := 10

def realloc (mem : Str) (n : Nat) : Str := mem.take n ++ malloc (n - mem.length)

/-- `HandleSocket` before `recvfrom`: a full buffer is doubled. -/
def makeRoom (client : Receiver) : Receiver :=
  if (client.bufferSize : Int) - client.ptr = 0 then
    { client with
      bufferSize := client.bufferSize * 2
      buffer := realloc client.buffer (client.bufferSize * 2) }
  else client

def nbToRead (client : Receiver) : Nat := (makeRoom client).bufferSize - (makeRoom client).ptr

def memchr (mem : Str) (off : Nat) (c : UInt8) (n : Nat) : Option Nat :=
  ((slice mem off n).idxOf? c).map (off + ·)

def cString (mem : Str) (off : Nat) : Str := (mem.drop off).takeWhile (· ≠ 0)

structure LoopResult where
  lines : List Str
  buffer : Str
  ptr : Nat

/-- The loop of `HandleSocket`, with a bound on its rounds: it gathers the lines passed to
`interpretation`; `last` is the offset of `client->ptr`. -/
def handleSocketLoop (terminator : UInt8) (last : Nat) : Nat → Str → Nat → LoopResult
  | 0, buffer, ptr => ⟨[], buffer, ptr⟩
  | fuel + 1, buffer, ptr =>
    match memchr buffer ptr terminator (last - ptr) with
    | none => ⟨[], buffer, ptr⟩
    | some nl =>
      let buffer := buffer.set nl 0
      let rest := handleSocketLoop terminator last fuel buffer (nl + 1)
      { rest with lines := cString buffer ptr :: rest.lines }

/-- The end of `HandleSocket`: the start of a line is moved to the start of the buffer. -/
def keepRest (client : Receiver) (buffer : Str) (ptr last : Nat) : Receiver :=
  if ptr < last then
    { client with buffer := blit buffer 0 (slice buffer ptr (last - ptr)), ptr := last - ptr }
  else { client with buffer := buffer, ptr := 0 }

/-- The result of `recvfrom`; no bytes stand for the end of the stream. -/
inductive RecvResult
  | error
  | bytes (data : Str)

/-- The flag tells whether `IvyChannelRemove` is called. -/
structure HandleSocketResult where
  lines : List Str
  client : Receiver
  removed : Bool

def handleSocket (client : Receiver) (r : RecvResult) : HandleSocketResult :=
  let client := makeRoom client
  match r with
  | .error => ⟨[], client, true⟩
  | .bytes [] => ⟨[], client, true⟩
  | .bytes data =>
    let last := client.ptr + data.length
    let out := handleSocketLoop client.terminator last (last + 1)
      (blit client.buffer client.ptr data) 0
    ⟨out.lines, keepRest client out.buffer out.ptr last, false⟩

def Receiver.held (client : Receiver) : Str := client.buffer.take client.ptr

structure Reader where
  client : Receiver
  lines : List Str

def Reader.init : Reader := ⟨Receiver.init, []⟩

def Reader.next (s : Reader) (data : Str) : Option Reader :=
  if data ≠ [] ∧ data.length ≤ nbToRead s.client then
    let out := handleSocket s.client (.bytes data)
    some ⟨out.client, s.lines ++ out.lines⟩
  else none

end IvyBus.Socket
