import Mathlib.Algebra.Group.Int.Defs
import IvyBus.Lib.Chars
import IvyBus.Lib.Regexp
import IvyBus.Param

namespace IvyBus.IntervalRegexp

open Lib

abbrev maxSubReg : Nat := 64
abbrev digitRegSize : Nat := 128

/-- The conversions to `int` and to `size_t`. -/
def toInt (n : Int) : Int := (Int32.ofInt n).toInt
def toSize (n : Int) : UInt64 := UInt64.ofInt n

def strlen (s : Str) : UInt64 := UInt64.ofNat s.length

/-- `s[i]`, where nothing is known of the characters after the terminating zero. -/
def charAt (s : Str) (i : UInt64) : Checked UInt8 := Chars.read (s.map some ++ [some 0]) i.toNat

/-- `CHECK_AND_RETURN`: what is copied to the destination. -/
def checkAndReturn (buflen : Nat) (locBuf : Chars) : Checked Str := do
  let s ← locBuf.cString
  if s.length ≤ buflen then .ok s else .error .fail

def longtoa (buflen : Nat) (n : Int) : Str := (printInt n).take (buflen - 1)

def atoi (s : Str) : Int := (strtol ((scanInt s).elim 0 Prod.fst)).toInt32.toInt

def substr (buflen : Nat) (expr : Str) (pos len : UInt64) : Checked Str := do
  let len := min len (strlen expr - pos)
  let locBuf ← (Chars.uninit 512).strcpy 0 ((expr.drop pos.toNat).take len.toNat)
  checkAndReturn buflen locBuf

def genPostRank (buflen : Nat) (rank : Int) : Checked Str := do
  let locBuf := Chars.uninit 512
  let locBuf ← locBuf.strcpy 0
    (if rank ≤ 1 then []
    else if rank = 2 then ascii "\\d"
    else ascii "\\d\x7b" ++ printInt (rank - 1) ++ ascii "\x7d")
  checkAndReturn buflen locBuf

def genRank (buflen : Nat) (min max : Str) (rank : Int) : Checked Str := do
  let a ← charAt min (strlen min - toSize rank)
  let b ← charAt max (strlen max - toSize rank)
  let lmin := if a < b then a else b
  let lmax := if a > b then a else b
  let locBuf ← (Chars.uninit 512).strcpy 0
    (if lmin = 48 ∧ lmax = 57 then ascii "\\d"
    else if lmin = lmax then [lmin]
    else if lmax.toNat = lmin.toNat + 1 then ascii "[" ++ [lmin, lmax] ++ ascii "]"
    else ascii "[" ++ [lmin] ++ ascii "-" ++ [lmax] ++ ascii "]")
  checkAndReturn buflen locBuf

def genPreRank (buflen : Nat) (min max : Str) (rank : Int) : Checked Str := do
  let lmin := min.dropWhile (· = 48)
  let lmax := max.dropWhile (· = 48)
  let locBuf ← (Chars.uninit 512).strcpy 0 (← substr 512 lmin 0 (strlen lmin - toSize rank))
  let locBufMax ← (Chars.uninit 512).strcpy 0 (← substr 512 lmax 0 (strlen lmax - toSize rank))
  if (← locBuf.cString) ≠ (← locBufMax.cString) then .error .fail
  else checkAndReturn buflen locBuf

def genAtRank (buflen : Nat) (min max : Str) (rank : Int) : Checked Str := do
  let locBuf ← (Chars.uninit 512).strcpy 0 (← genPreRank 512 min max rank)
  let locBuf ← locBuf.fill fun buflen => genRank buflen min max rank
  let locBuf ← locBuf.fill fun buflen => genPostRank buflen rank
  checkAndReturn buflen locBuf

structure NextMax where
  max : Int
  rank : Int

/-- `for (i = start; i >= 0; i--)`, where the counter has no sign. -/
def forDown (body : UInt64 → Chars → Checked Chars) : Nat → UInt64 → Chars → Checked Chars
  | 0, _, _ => .error .fuel
  | fuel + 1, i, b => if i ≥ 0 then (body i b).bind (forDown body fuel (i - 1)) else .ok b

/-- The first digit of the minimum, from the units, that is not zero. -/
def skipZeros (revMin : Chars) (nbDigitsMax : UInt64) : Nat → UInt64 → Checked UInt64
  | 0, _ => .error .fuel
  | fuel + 1, rankRev => do
    if (← revMin.read rankRev.toNat) = 48 ∧ rankRev < nbDigitsMax then
      skipZeros revMin nbDigitsMax fuel (rankRev + 1)
    else .ok rankRev

/-- The first digit, from the highest, in which the two differ. -/
def skipEqual (revMin revMax : Chars) : Nat → UInt64 → Checked UInt64
  | 0, _ => .error .fuel
  | fuel + 1, rankForw => do
    if (← revMin.read rankForw.toNat) = (← revMax.read rankForw.toNat) ∧ rankForw > 0 then
      skipEqual revMin revMax fuel (rankForw - 1)
    else .ok rankForw

def fillNines (count : UInt64) (revMin : Chars) : Checked Chars :=
  (List.range count.toNat).foldlM (fun revMin i => revMin.write i 57) revMin

def nextMax (fuel : Nat) (min max : Str) : Checked NextMax := do
  let nbDigitsMin := strlen min
  let nbDigitsMax := strlen max
  let revMin ← forDown (fun i revMin => do
    revMin.write (nbDigitsMin - i - 1).toNat (← charAt min i)) fuel (nbDigitsMin - 1)
    (Chars.uninit 32)
  let revMin ← forDown (fun i revMin => revMin.write (nbDigitsMax - i).toNat 48) fuel
    (nbDigitsMax - nbDigitsMin) revMin
  let revMax ← forDown (fun i revMax => do
    revMax.write (nbDigitsMax - i - 1).toNat (← charAt max i)) fuel (nbDigitsMax - 1)
    (Chars.uninit 32)
  let revMax ← revMax.write nbDigitsMax.toNat 0
  let revMin ← revMin.write nbDigitsMax.toNat 0
  let rankRev ← skipZeros revMin nbDigitsMax fuel 0
  let rankForw ← skipEqual revMin revMax fuel (nbDigitsMax - 1)
  let rank := if rankForw ≤ rankRev then rankForw else rankRev
  let revMin ←
    if rankForw ≤ rankRev then do
      let digit ← revMax.read rankForw.toNat
      let revMin ← revMin.write rankForw.toNat (digit - if rankForw ≠ 0 then 1 else 0)
      fillNines rankForw revMin
    else fillNines (rankRev + 1) revMin
  let nextMaxi := atoi (← revMin.cString).reverse
  let currMax := atoi max
  .ok ⟨if nextMaxi > currMax then currMax else nextMaxi, toInt (rank + 1).toNat⟩

/-- The loop of `strictPosRegexpGen` that fills `regList`. -/
def genBlocks (max : Int) : Nat → Int → List Chars → Checked (List Chars)
  | 0, _, _ => .error .fuel
  | fuel + 1, min, regList => do
    let nMax ← nextMax fuel (longtoa 32 min) (longtoa 32 max)
    let reg ← (Chars.uninit digitRegSize).strcpy 0
      (← genAtRank digitRegSize (longtoa 32 min) (longtoa 32 nMax.max) nMax.rank)
    let regList := regList ++ [reg]
    if regList.length = maxSubReg then .error .fail
    else if nMax.max ≠ max then genBlocks max fuel (nMax.max + 1) regList
    else .ok regList

def dropBar (locBuf : Chars) : Checked Chars := do
  let last := (strlen (← locBuf.cString) - 1).toNat
  if (← locBuf.read last) = 124 then locBuf.write last 0 else .ok locBuf

def strictPosRegexpGen (fuel buflen : Nat) (min max : Int) (decimalPart boundDecimalPart : Str) :
    Checked Str :=
  if min ≤ 0 ∨ max ≤ 0 then .error .fail
  else if min = max then do
    let locBuf ← (Chars.uninit (maxSubReg * digitRegSize)).append (printInt max)
    checkAndReturn buflen locBuf
  else do
    let regList ← genBlocks (max - 1) fuel min []
    let locBuf ← (Chars.uninit (maxSubReg * digitRegSize)).write 0 0
    let locBuf ← regList.foldlM (fun locBuf reg => do
      locBuf.append (ascii "(?:" ++ (← reg.cString) ++ decimalPart ++ ascii ")|")) locBuf
    let locBuf ← dropBar locBuf
    let locBuf ← locBuf.append (ascii "|(?:" ++ longtoa 32 max ++ boundDecimalPart ++ ascii ")")
    checkAndReturn buflen locBuf

/-- What `regexpGen` puts between the opening group and its end. -/
def genCases (regexpGen : Nat → Int → Int → Checked Str) (fuel : Nat) (min max : Int)
    (decimalPart boundDecimalPart : Str) (locBuf : Chars) : Checked Chars :=
  if min = max then locBuf.appendCut (printInt min ++ decimalPart)
  else if min < 0 then
    if max < 0 then do
      let locBuf ← locBuf.appendCut (ascii "\\-(?:")
      let locBuf ← locBuf.fill fun buflen =>
        strictPosRegexpGen fuel buflen (-min) (-max) decimalPart boundDecimalPart
      locBuf.appendCut (ascii ")")
    else if max = 0 then do
      let locBuf ← locBuf.appendCut
        (ascii "(?:0" ++ boundDecimalPart ++ ascii ")|(?:-0" ++ decimalPart ++ ascii ")|-(?:")
      let locBuf ← locBuf.fill fun buflen =>
        strictPosRegexpGen fuel buflen 1 (-min) decimalPart boundDecimalPart
      locBuf.appendCut (ascii ")")
    else do
      let locBuf ← locBuf.appendCut (ascii "(?:")
      let locBuf ← locBuf.fill fun buflen => regexpGen buflen min 0
      let locBuf ← locBuf.appendCut (ascii "|")
      let locBuf ← locBuf.fill fun buflen => regexpGen buflen 0 max
      locBuf.appendCut (ascii ")")
  else if min = 0 then do
    let locBuf ← locBuf.appendCut (ascii "(?:0" ++ decimalPart ++ ascii ")|")
    locBuf.fill fun buflen => strictPosRegexpGen fuel buflen 1 max decimalPart boundDecimalPart
  else locBuf.fill fun buflen => strictPosRegexpGen fuel buflen min max decimalPart boundDecimalPart

def regexpGen : Nat → Nat → Int → Int → Bool → Checked Str
  | 0, _, _, _, _ => .error .fuel
  | fuel + 1, buflen, min, max, flottant => do
    let decimalPart := if flottant then ascii "(?:\\.\\d+)?" else []
    let boundDecimalPart := if flottant then ascii "(?:\\.0+)?" else []
    let (min, max) := if min > max then (toInt max, min) else (min, max)
    let locBuf ← genCases (fun buflen min max => regexpGen fuel buflen min max flottant) fuel
      min max decimalPart boundDecimalPart (Chars.ofString 8192 (ascii "(?:"))
    let locBuf ← locBuf.appendCut (ascii ")(?![\\d.])")
    checkAndReturn buflen locBuf

end IvyBus.IntervalRegexp
