import IvyBus.BufferLaws
import IvyBus.IntervalRegexpLaws

namespace IvyBus.Intervals

open Lib Buffer
open IntervalRegexp (single)

/-- `sscanf` with the format `"(?I%d#%d%c"`; `none` unless all three are read. -/
def sscanf (itvPos : Str) : Option (Int32 × Int32 × UInt8) :=
  match scanInt (itvPos.drop interval.length) with
  | some (min, 35 :: s) =>
    match scanInt s with
    | some (max, withDecimal :: _) =>
      some ((strtol min).toInt32, (strtol max).toInt32, withDecimal)
    | _ => none
  | _ => none

/-- The call of `regexpGen` for the group at `itvPos`. What `sscanf` does not read was never
written, and a call that fails writes nothing. -/
def generate (genFuel : Nat) (dst : Chars) (offset : Nat) (itvPos : Str) : Checked Chars :=
  match sscanf itvPos with
  | none => .error .uninit
  | some (min, max, withDecimal) =>
    match IntervalRegexp.regexpGen genFuel (dstSize - offset) min.toInt max.toInt
        (withDecimal ≠ 105) with
    | .ok text => dst.strcpy offset text
    | .error .fail => .ok dst
    | .error e => .error e

/-- The loop of `substituteInterval`, with a bound on its rounds and one for `regexpGen`. -/
def substituteLoop (genFuel : Nat) : Nat → Chars → Nat → Str → Checked Chars
  | 0, _, _, _ => .error .fuel
  | fuel + 1, dst, offset, curPos =>
    match strstr interval curPos with
    | none => dst.strncat curPos (dstSize - offset)
    | some (before, itvPos) => do
      let dst ← dst.memcpy offset before
      let offset := offset + before.length
      let dst ← generate genFuel dst offset itvPos
      let written ← dst.cString
      match itvPos.dropWhile (· ≠ closing) with
      | [] => .error .bounds
      | _ :: rest => substituteLoop genFuel fuel dst written.length rest

def substituteInterval (genFuel : Nat) (memory : Memory) (src : IvyBuffer) : Checked IvyBuffer :=
  match src.data with
  | none => .error .bounds
  | some data => do
    let text ← data.cString
    if (strstr interval text).isNone then .ok src
    else if memory dstSize then do
      let dst ← substituteLoop genFuel (text.length + 1) (Chars.uninit dstSize) 0 text
      .ok { src with data := some dst }
    else .error .bounds

inductive Suffix
  | nothing
  | i
  | f

def Suffix.text : Suffix → Str
  | .nothing => []
  | .i => ascii "i"
  | .f => ascii "f"

def Suffix.decimal : Suffix → Bool
  | .i => false
  | _ => true

/-- A group `(?Imin#max)`, with `i` or `f` or nothing behind the bounds. -/
def group (min max : Str) (suffix : Suffix) : Str :=
  interval ++ (min ++ 35 :: (max ++ (suffix.text ++ [closing])))

def Produces (min max : Int32) (decimal : Bool) (text : Str) : Prop :=
  ∃ fuel size, ∀ buflen ≥ size,
    IntervalRegexp.regexpGen fuel buflen min.toInt max.toInt decimal = .ok text

/-- A text all of whose groups are well formed, and the one with each replaced by its regexp. -/
inductive Replaced : Str → Str → Prop
  | rest {s : Str} : strstr interval s = none → Replaced s s
  | group {before rest a b text r : Str} {min max : Int32} {suffix : Suffix} :
      strstr interval (before ++ (group a b suffix ++ rest)) =
        some (before, group a b suffix ++ rest) →
      Numeral a min.toInt → Numeral b max.toInt → Produces min max suffix.decimal text →
      Replaced rest r → Replaced (before ++ (group a b suffix ++ rest)) (before ++ text ++ r)

/-- The substitution has a result, and where the text is well formed it is what it should be. -/
def Correct (memory : Memory) (src : IvyBuffer) (s : Str) : Prop :=
  ∃ b, (∃ genFuel, substituteInterval genFuel memory src = .ok b) ∧
    ∀ r, Replaced s r → ∃ data, b.data = some data ∧ data.Holds r

def equalText (n : Int32) (withDecimal : UInt8) : Str :=
  single n.toInt (if withDecimal ≠ 105 then ascii "(?:\\.\\d+)?" else [])

/-- How much is in the block behind a group with so much before it (`none`: nothing was written
yet). A text without room is left out, which the string in the block survives when the group is
right behind another one. -/
def placed (written : Option Nat) (before text : Nat) : Option Nat :=
  if text ≤ dstSize - (written.getD 0 + before) then some (written.getD 0 + before + text)
  else if before = 0 then written else none

/-- Each group is closed, its bounds are read and equal, and the block has room for everything. -/
inductive Passes : Option Nat → Str → Prop
  | rest {n : Nat} {cur : Str} : strstr interval cur = none → n + cur.length < dstSize →
      Passes (some n) cur
  | group {written : Option Nat} {cur before itv rest : Str} {n : Int32} {withDecimal c : UInt8}
      {m : Nat} : strstr interval cur = some (before, itv) →
      sscanf itv = some (n, n, withDecimal) →
      placed written before.length (equalText n withDecimal).length = some m →
      itv.dropWhile (· ≠ closing) = c :: rest → Passes (some m) rest → Passes written cur

end IvyBus.Intervals
