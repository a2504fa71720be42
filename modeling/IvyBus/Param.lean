import Mathlib.Algebra.Group.Nat.Defs
import Mathlib.Data.Int.Notation

namespace IvyBus

abbrev Str := List UInt8

instance : LawfulBEq Str := inferInstance

def ascii (s : String) : Str := s.toList.map fun c => UInt8.ofNat c.toNat

abbrev ivyBufferSize : Nat := 4096
abbrev ivyFifoAllocSize : Nat := 262144
abbrev ivyFifoMaxAllocSize : Nat := 32 * 1048576

theorem ivyFifoMaxAllocSize_eq : ivyFifoMaxAllocSize = 33554432 := rfl

abbrev uintRange : Nat := 4294967296

def toUnsigned (i : Int) : Nat := (i % uintRange).toNat

def toSigned (n : Nat) : Int := if n < uintRange / 2 then n else n - uintRange

theorem toUnsigned_natCast {n : Nat} (h : n < uintRange) : toUnsigned n = n := by
  unfold toUnsigned uintRange at *
  omega

structure Timeval where
  tv_sec : Int64
  tv_usec : Int64
  deriving DecidableEq

def Timeval.micros (t : Timeval) : Int := t.tv_sec.toInt * 1000000 + t.tv_usec.toInt

/-- What `malloc` returns; the contents of fresh memory are never read. -/
def malloc (n : Nat) : Str := List.replicate n 0

@[simp] theorem length_malloc (n : Nat) : (malloc n).length = n := List.length_replicate

end IvyBus
