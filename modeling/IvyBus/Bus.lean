import IvyBus.Lib.Chars
import IvyBus.Lib.Decimal
import IvyBus.Param

namespace IvyBus.Bus

open Lib

abbrev ivyDefaultBus : UInt16 := 2010

def defaultIvyBus : Str := ascii "127.255.255.255:2010"

abbrev addrSize : Nat := 1024

/-- What stands before the last place where the character is found, and behind it. -/
def strrchr (s : Str) (c : UInt8) : Option (Str × Str) :=
  match s.reverse.dropWhile (· ≠ c) with
  | [] => none
  | _ :: front => some (front.reverse, (s.reverse.takeWhile (· ≠ c)).reverse)

/-- `atoi`, as an `unsigned short`. -/
def atoi (s : Str) : UInt16 := (strtol ((scanInt s).elim 0 Prod.fst)).toInt32.toUInt32.toUInt16

/-- The variables of the loop, and the addresses that it has broadcast to. -/
structure Decoder where
  error : Bool
  numdigit : Nat
  numelem : Nat
  elem : UInt8
  mask : UInt32
  broadcasts : List (List UInt8)

def Decoder.init : Decoder := ⟨false, 0, 0, 0, 0xffffffff, []⟩

def htonl (mask : UInt32) : List UInt8 :=
  [(mask >>> 24).toUInt8, (mask >>> 16).toUInt8, (mask >>> 8).toUInt8, mask.toUInt8]

/-- The element of the number `numelem`, for at most four of them. -/
def putElem (mask : UInt32) (elem : UInt8) (numelem : Nat) : UInt32 :=
  let shift := UInt32.ofNat (8 * (3 - numelem))
  (mask ^^^ (0xff <<< shift)) ||| (elem.toUInt32 <<< shift)

/-- One round of the loop; `none` for a shift by a negative amount. -/
def decode (s : Decoder) (c : UInt8) : Option Decoder :=
  if !s.error && isDigit c then
    if s.numdigit < 3 ∧ s.numelem < 4 then some { s with elem := 10 * s.elem + (c - 48) }
    else some { s with error := true }
  else if !s.error && (c = 46 || c = 44 || c = 58 || c = 0) then
    if s.numelem ≤ 3 then
      let mask := putElem s.mask s.elem s.numelem
      let s := if c = 46 then { s with mask := mask, numelem := s.numelem + 1 }
        else
          { s with broadcasts := s.broadcasts ++ [htonl mask], numelem := 0, mask := 0xffffffff }
      some { s with numdigit := 0, elem := 0 }
    else none
  else if c = 44 || c = 58 || c = 0 then
    some { s with elem := 0, numelem := 0, numdigit := 0, mask := 0xffffffff, error := false }
  else if c = 32 then some s
  else some { s with error := true }

/-- The loop over the network list, up to a colon or the terminating zero. -/
def decodeList : Decoder → Str → Option Decoder
  | s, [] => decode s 0
  | s, c :: p => (decode s c).bind fun s => if c = 58 then some s else decodeList s p

inductive Broadcast
  | v4 (address : List UInt8)
  | v6
  deriving DecidableEq

/-- The array `addr`, which is only written when there is a port. -/
def addr (q : Option (Str × Str)) : Option Chars :=
  match q with
  | some (network, port) =>
    if atoi port ≠ 0 then ((Chars.uninit addrSize).strcpy 0 network).toOption
    else some (Chars.uninit addrSize)
  | none => some (Chars.uninit addrSize)

/-- `inetPton` tells whether an array has an IPv6 address. The result is the port and the
addresses that the handshake is broadcast to. -/
def ivyStart (inetPton : Chars → Bool) (getenv bus : Option Str) :
    Option (UInt16 × List Broadcast) :=
  let p := match bus, getenv with
    | some (c :: p), _ => c :: p
    | _, some (c :: p) => c :: p
    | _, _ => defaultIvyBus
  let q := strrchr p 58
  let port := q.elim 0 fun q => atoi q.2
  let supervisionPort := if port ≠ 0 then port else ivyDefaultBus
  (addr q).bind fun addr =>
    if inetPton addr then some (supervisionPort, [.v6])
    else
      let p := if q.any (·.1 = []) then defaultIvyBus else p
      (decodeList .init p).map fun s => (supervisionPort, s.broadcasts.map .v4)

structure BusString where
  network : Str
  port : Option Str
  network_ne_nil : network ≠ []
  network_legal : ∀ c ∈ network, c ≠ 58 ∧ c ≠ 32 ∧ c ≠ 0
  port_legal : ∀ s ∈ port, ∀ c ∈ s, c ≠ 58 ∧ c ≠ 0

def BusString.text (b : BusString) : Str := b.network ++ b.port.elim [] (58 :: ·)

def BusString.elements (b : BusString) : List Str := b.network.splitOn 44

def components (element : Str) : List Str := element.splitOn 46

/-- A decimal number of one to three digits, at most 255. -/
def isNumber (n : Str) : Bool :=
  n ≠ [] && n.length ≤ 3 && n.all isDigit && digitsValue n ≤ 255

def wellFormed (element : Str) : Bool :=
  (components element).length ≤ 4 && (components element).all isNumber

def address (numbers : List Str) : List UInt8 :=
  numbers.map (fun n => UInt8.ofNat (digitsValue n)) ++ List.replicate (4 - numbers.length) 255

/-- What is to be broadcast for an element. -/
def expected (element : Str) : Option (List UInt8) :=
  if wellFormed element then some (address (components element)) else none

/-- An illegal character in one of the first four components, or a fifth that is not empty. -/
def Caught (element : Str) : Prop :=
  (∃ n ∈ (components element).take 4, ∃ c ∈ n, isDigit c = false) ∨
    ∃ n, (components element)[4]? = some n ∧ n ≠ []

/-- The handshake is broadcast to the addresses of the well-formed elements, in their order. -/
def Correct (inetPton : Chars → Bool) (getenv : Option Str) (b : BusString) : Prop :=
  ∃ port, ivyStart inetPton getenv (some b.text) =
    some (port, (b.elements.filterMap expected).map .v4)

end IvyBus.Bus
