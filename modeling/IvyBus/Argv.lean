import IvyBus.Args
import IvyBus.BufferLaws
import IvyBus.Ivy

namespace IvyBus.Argv

open Lib Buffer

/-- `while (*end && *end != *separator)`, with a bound on its rounds. -/
def scan (line : Chars) (separator : UInt8) : Nat → Nat → Checked Nat
  | 0, _ => .error .fuel
  | fuel + 1, stop => do
    let c ← line.read stop
    if c ≠ 0 ∧ c ≠ separator then scan line separator fuel (stop + 1) else .ok stop

/-- What `nextArg` returns, the place it leaves in `end`, and the line. -/
structure NextArg where
  arg : Option Nat
  stop : Nat
  line : Chars

/-- The call starts at its argument or at the place of the last call. -/
def nextArg (line : Chars) (separator : UInt8) (start : Nat) : Checked NextArg := do
  let stop ← scan line separator (line.length + 1) start
  if (← line.read stop) = separator then
    let line ← line.write stop 0
    .ok ⟨if stop + 1 = start then none else some start, stop + 1, line⟩
  else .ok ⟨if stop = start then none else some start, stop, line⟩

/-- The loop over the arguments, with a bound on its rounds. -/
def msgArgs : Nat → Chars → Nat → List Nat → Checked (Chars × List Nat)
  | 0, _, _, _ => .error .fuel
  | fuel + 1, line, start, argv => do
    let next ← nextArg line argEnd start
    match next.arg with
    | none => .ok (next.line, argv)
    | some arg =>
      if argv.length < maxMatchingArgs then msgArgs fuel next.line next.stop (argv ++ [arg])
      else .error .bounds

/-- The branch of `Msg`: the binding that is called, and the strings in `argv`. -/
def receiveMsg (msgRecv : List MsgRcv) (line : Chars) (arg : Nat) (id : Int32) :
    Checked (Option (MsgRcv × List Str)) :=
  match msgRecv.find? (·.id = id) with
  | none => .ok none
  | some rcv => do
    let (line, argv) ← msgArgs (line.length + 1) line arg []
    let argv ← argv.mapM fun arg => Chars.cString (line.drop arg)
    .ok (some (rcv, argv))

/-- `Receive`, as far as the messages of type `Msg` go. -/
def receive (msgRecv : List MsgRcv) (line : CString) : Checked (Option (MsgRcv × List Str)) :=
  match parseHeader line.1 with
  | none => .ok none
  | some h =>
    if MsgType.ofInt32 h.kindOfMsg = some .msg then
      receiveMsg msgRecv (line.1.map some ++ [some 0]) (line.1.length - h.arg.length) h.id
    else .ok none

/-- `bufferArg` in `RegexpCall`, after the arguments. -/
def matchArgs (memory : Memory) (bufferArg : IvyBuffer) (args : List Str) : Checked IvyBuffer := do
  let bufferArg ← args.foldlM (fun bufferArg arg => do
    let made ← makeMessage memory bufferArg (arg ++ [argEnd])
    .ok made.2) { bufferArg with offset := 0 }
  let made ← makeMessage memory bufferArg [lf]
  .ok made.2

/-- What `RegexpCall` passes to `SocketSendRawWithId` for a subscription. -/
def regexpCall (memory : Memory) (bufferArg : IvyBuffer) (args : List Str) (id : Int32) :
    Checked Str := do
  let bufferArg ← matchArgs memory bufferArg args
  let text ← Chars.bytes bufferArg.offset (bufferArg.data.getD [])
  .ok (header .msg id ++ text)

/-- The first line of a stream, as `HandleSocket` passes it on. -/
def firstLine (stream : Str) : CString :=
  ⟨(stream.takeWhile (· ≠ lf)).takeWhile (· ≠ 0), fun h =>
    absurd (List.mem_takeWhile_imp h) (by decide)⟩

/-- A message on its way from `RegexpCall` to the callback. -/
def deliver (memory : Memory) (bufferArg : IvyBuffer) (args : List Str) (id : Int32)
    (msgRecv : List MsgRcv) : Checked (Option (MsgRcv × List Str)) := do
  let stream ← regexpCall memory bufferArg args id
  receive msgRecv (firstLine stream)

end IvyBus.Argv
