import IvyBus.Lib.Decimal
import IvyBus.Param

namespace IvyBus

open Lib

inductive MsgType
  | bye
  | addRegexp
  | msg
  | error
  | delRegexp
  | endRegexp
  | startRegexp
  | directMsg
  | die
  | ping
  | pong
  deriving DecidableEq

def MsgType.toInt32 : MsgType → Int32
  | .bye => 0
  | .addRegexp => 1
  | .msg => 2
  | .error => 3
  | .delRegexp => 4
  | .endRegexp => 5
  | .startRegexp => 6
  | .directMsg => 7
  | .die => 8
  | .ping => 9
  | .pong => 10

def MsgType.ofInt32 (n : Int32) : Option MsgType :=
  [.bye, .addRegexp, .msg, .error, .delRegexp, .endRegexp, .startRegexp, .directMsg, .die, .ping,
    .pong].find? fun msgtype => msgtype.toInt32 = n

@[simp] theorem MsgType.ofInt32_toInt32 (msgtype : MsgType) :
    MsgType.ofInt32 msgtype.toInt32 = some msgtype := by
  cases msgtype <;> rfl

abbrev argStart : UInt8 := 2
abbrev argEnd : UInt8 := 3
abbrev lf : UInt8 := 10

/-- `sprintf` with the format `"%d %d" ARG_START`. -/
def header (msgtype : MsgType) (id : Int32) : Str :=
  printInt msgtype.toInt32.toInt ++ 32 :: (printInt id.toInt ++ [argStart])

/-- The text that `MsgSendTo` passes to `SocketSendRaw`. -/
def msgText (msgtype : MsgType) (id : Int32) (message : Str) : Str :=
  header msgtype id ++ message ++ [lf]

/-- `sscanf` with the format `"%d %d"`; `none` unless both numbers are read. -/
def sscanf (line : Str) : Option (Int32 × Int32) :=
  (scanInt line).bind fun p =>
    (scanInt p.2).map fun q => ((strtol p.1).toInt32, (strtol q.1).toInt32)

def strstr (s : Str) (c : UInt8) : Option Str :=
  match s.dropWhile (· ≠ c) with
  | [] => none
  | found => some found

structure Header where
  kindOfMsg : Int32
  id : Int32
  arg : Str
  deriving DecidableEq

/-- The header of a line as `Receive` reads it; `none` for a bad format. -/
def parseHeader (line : Str) : Option Header :=
  match sscanf line, strstr line argStart with
  | some p, some arg => some ⟨p.1, p.2, arg.drop 1⟩
  | _, _ => none

end IvyBus
