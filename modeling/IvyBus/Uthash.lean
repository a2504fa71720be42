import IvyBus.Lib.Links
import IvyBus.Lib.Run
import IvyBus.Param

namespace IvyBus.Uthash

open Lib

/-- A structure with a hash handle in it, as its address. -/
abbrev Elem := Nat

abbrev hashInitialNumBuckets : UInt32 := 32
abbrev hashInitialNumBucketsLog2 : UInt32 := 5
abbrev hashBktCapacityThresh : UInt32 := 10

/-- The fields of the `UT_hash_handle` of each element; `key` is the text at the address of the
key. -/
structure Handles where
  prev : Elem → Option Elem
  next : Elem → Option Elem
  hhPrev : Elem → Option Elem
  hhNext : Elem → Option Elem
  key : Elem → Str
  keylen : Elem → UInt32
  hashv : Elem → UInt32

structure UtHashBucket where
  hhHead : Option Elem
  count : UInt32
  expandMult : UInt32

structure UtHashTable where
  buckets : List UtHashBucket
  numBuckets : UInt32
  log2NumBuckets : UInt32
  numItems : UInt32
  tail : Option Elem
  idealChainMaxlen : UInt32
  nonidealItems : UInt32
  ineffExpands : UInt32
  noexpand : Bool

/-- The memory and the head of a table; the table itself is reached through its head. -/
structure Hash where
  hh : Handles
  head : Option (Elem × UtHashTable)

def Handles.init : Handles :=
  ⟨fun _ => none, fun _ => none, fun _ => none, fun _ => none, fun _ => [], fun _ => 0, fun _ => 0⟩

def Hash.init : Hash := ⟨Handles.init, none⟩

section Jenkins

def hashJenMix (a b c : UInt32) : UInt32 × UInt32 × UInt32 :=
  let a := (a - b - c) ^^^ (c >>> 13)
  let b := (b - c - a) ^^^ (a <<< 8)
  let c := (c - a - b) ^^^ (b >>> 13)
  let a := (a - b - c) ^^^ (c >>> 12)
  let b := (b - c - a) ^^^ (a <<< 16)
  let c := (c - a - b) ^^^ (b >>> 5)
  let a := (a - b - c) ^^^ (c >>> 3)
  let b := (b - c - a) ^^^ (a <<< 10)
  let c := (c - a - b) ^^^ (b >>> 15)
  (a, b, c)

/-- A `char` is signed. There is none behind the end of the key. -/
def keyChar (key : Str) (i : Nat) : UInt32 := (key.getD i 0).toInt8.toInt32.toUInt32

def keyWord (key : Str) (i : Nat) : UInt32 :=
  keyChar key i + (keyChar key (i + 1) <<< 8) + (keyChar key (i + 2) <<< 16) +
    (keyChar key (i + 3) <<< 24)

def hashJenBlocks : Nat → Str → UInt32 × UInt32 × UInt32 → Str × UInt32 × UInt32 × UInt32
  | 0, key, acc => (key, acc)
  | n + 1, key, (i, j, hashv) =>
    hashJenBlocks n (key.drop 12)
      (hashJenMix (i + keyWord key 0) (j + keyWord key 4) (hashv + keyWord key 8))

/-- `HASH_JEN`, without the bucket. -/
def hashJen (key : Str) : UInt32 :=
  let (rest, i, j, hashv) :=
    hashJenBlocks (key.length / 12) key (0x9e3779b9, 0x9e3779b9, 0xfeedbeef)
  let hashv := hashv + UInt32.ofNat key.length + (keyChar rest 8 <<< 8) +
    (keyChar rest 9 <<< 16) + (keyChar rest 10 <<< 24)
  (hashJenMix (i + keyWord rest 0) (j + keyWord rest 4) hashv).2.2

end Jenkins

def hashToBkt (hashv numBkts : UInt32) : UInt32 := hashv &&& (numBkts - 1)

def hashFindInBkt (hh : Handles) (key : Str) : Nat → Option Elem → Option (Option Elem)
  | _, none => some none
  | 0, some _ => none
  | n + 1, some out =>
    if (hh.keylen out).toNat = key.length ∧ (hh.key out).take key.length = key then some (some out)
    else hashFindInBkt hh key n (hh.hhNext out)

/-- `HASH_FCN` is a parameter: it is `HASH_JEN` unless `HASH_FUNCTION` is defined. -/
def hashFind (hashFcn : Str → UInt32) (t : Hash) (key : Str) : Option (Option Elem) :=
  match t.head with
  | none => some none
  | some (_, tbl) =>
    tbl.buckets[(hashToBkt (hashFcn key) tbl.numBuckets).toNat]?.bind fun bkt =>
      hashFindInBkt t.hh key tbl.numItems.toNat bkt.hhHead

def emptyBuckets (n : UInt32) : List UtHashBucket := List.replicate n.toNat ⟨none, 0, 0⟩

def hashMakeTable (head : Elem) : UtHashTable :=
  ⟨emptyBuckets hashInitialNumBuckets, hashInitialNumBuckets, hashInitialNumBucketsLog2, 0,
    some head, 0, 0, 0, false⟩

def Handles.link (hh : Handles) (hhHead : Option Elem) (a : Elem) : Handles :=
  { hh with
    hhNext := Function.update hh.hhNext a hhHead
    hhPrev := setAt (Function.update hh.hhPrev a none) hhHead (some a) }

structure Expansion where
  hh : Handles
  newBuckets : List UtHashBucket
  nonidealItems : UInt32

/-- The body of the loop that moves the elements to the new buckets. A division by zero is not
defined. -/
def Expansion.move (idealChainMaxlen numBkts : UInt32) (e : Expansion) (thh : Elem) :
    Option Expansion :=
  let bkt := (hashToBkt (e.hh.hashv thh) numBkts).toNat
  e.newBuckets[bkt]?.bind fun newbkt =>
    let count := newbkt.count + 1
    if count ≤ idealChainMaxlen then
      some ⟨e.hh.link newbkt.hhHead thh,
        e.newBuckets.set bkt ⟨some thh, count, newbkt.expandMult⟩, e.nonidealItems⟩
    else if idealChainMaxlen = 0 then none
    else
      some ⟨e.hh.link newbkt.hhHead thh,
        e.newBuckets.set bkt ⟨some thh, count, count / idealChainMaxlen⟩, e.nonidealItems + 1⟩

def Expansion.moveChain (idealChainMaxlen numBkts : UInt32) (e : Expansion) :
    Nat → Option Elem → Option Expansion
  | _, none => some e
  | 0, some _ => none
  | n + 1, some thh =>
    (e.move idealChainMaxlen numBkts thh).bind fun e' =>
      e'.moveChain idealChainMaxlen numBkts n (e.hh.hhNext thh)

def idealChainMaxlen (tbl : UtHashTable) : UInt32 :=
  (tbl.numItems >>> (tbl.log2NumBuckets + 1)) +
    if tbl.numItems &&& (tbl.numBuckets * 2 - 1) = 0 then 0 else 1

/-- `malloc` succeeds. -/
def hashExpandBuckets (hh : Handles) (tbl : UtHashTable) : Option (Handles × UtHashTable) :=
  let numBuckets := tbl.numBuckets * 2
  let ideal := idealChainMaxlen tbl
  (tbl.buckets.foldlM
    (fun (e : Expansion) bkt => e.moveChain ideal numBuckets tbl.numItems.toNat bkt.hhHead)
    (Expansion.mk hh (emptyBuckets numBuckets) 0)).map fun e =>
      let ineffExpands :=
        if e.nonidealItems > tbl.numItems >>> 1 then tbl.ineffExpands + 1 else 0
      (e.hh, { tbl with
        buckets := e.newBuckets
        numBuckets := numBuckets
        log2NumBuckets := tbl.log2NumBuckets + 1
        idealChainMaxlen := ideal
        nonidealItems := e.nonidealItems
        ineffExpands := ineffExpands
        noexpand := tbl.noexpand || ineffExpands > 1 })

def hashAddToBkt (hh : Handles) (tbl : UtHashTable) (bkt : Nat) (a : Elem) :
    Option (Handles × UtHashTable) :=
  tbl.buckets[bkt]?.bind fun head =>
    let hh := hh.link head.hhHead a
    let head := { head with hhHead := some a, count := head.count + 1 }
    let tbl := { tbl with buckets := tbl.buckets.set bkt head }
    if head.count ≥ (head.expandMult + 1) * hashBktCapacityThresh ∧ ¬ tbl.noexpand then
      hashExpandBuckets hh tbl
    else some (hh, tbl)

def append (t : Hash) (a : Elem) : Handles × Elem × UtHashTable :=
  match t.head with
  | none => ({ t.hh with prev := Function.update t.hh.prev a none }, a, hashMakeTable a)
  | some (head, tbl) =>
    ({ t.hh with
        next := setAt t.hh.next tbl.tail (some a)
        prev := Function.update t.hh.prev a tbl.tail }, head, { tbl with tail := some a })

def Handles.setKey (hh : Handles) (a : Elem) (key : Str) : Handles :=
  { hh with
    next := Function.update hh.next a none
    key := Function.update hh.key a key
    keylen := Function.update hh.keylen a (UInt32.ofNat key.length) }

def Handles.setHashv (hh : Handles) (a : Elem) (hashv : UInt32) : Handles :=
  { hh with hashv := Function.update hh.hashv a hashv }

@[simp] theorem Handles.setHashv_self (hh : Handles) (a : Elem) (hashv : UInt32) :
    (hh.setHashv a hashv).hashv a = hashv :=
  Function.update_self ..

def hashAddKeyptr (hashFcn : Str → UInt32) (t : Hash) (key : Str) (a : Elem) : Option Hash :=
  let (hh, head, tbl) := append ⟨t.hh.setKey a key, t.head⟩ a
  let tbl := { tbl with numItems := tbl.numItems + 1 }
  let hh := hh.setHashv a (hashFcn key)
  (hashAddToBkt hh tbl (hashToBkt (hashFcn key) tbl.numBuckets).toNat a).map fun p =>
    ⟨p.1, some (head, p.2)⟩

def hashDelInBkt (hh : Handles) (head : UtHashBucket) (a : Elem) : Handles × UtHashBucket :=
  let head := { head with
    count := head.count - 1
    hhHead := if head.hhHead = some a then hh.hhNext a else head.hhHead }
  let hh := { hh with hhNext := setAt hh.hhNext (hh.hhPrev a) (hh.hhNext a) }
  ({ hh with hhPrev := setAt hh.hhPrev (hh.hhNext a) (hh.hhPrev a) }, head)

def Handles.unlink (hh : Handles) (a : Elem) : Handles :=
  let hh := { hh with next := setAt hh.next (hh.prev a) (hh.next a) }
  { hh with prev := setAt hh.prev (hh.next a) (hh.prev a) }

def hashDelete (t : Hash) (a : Elem) : Option Hash :=
  match t.head with
  | none => none
  | some (head, tbl) =>
    if t.hh.prev a = none ∧ t.hh.next a = none then some { t with head := none }
    else
      let tail := if tbl.tail = some a then t.hh.prev a else tbl.tail
      let head := if t.hh.prev a = none then t.hh.next a else some head
      let hh := t.hh.unlink a
      let bkt := (hashToBkt (hh.hashv a) tbl.numBuckets).toNat
      tbl.buckets[bkt]?.map fun b =>
        let (hh, b) := hashDelInBkt hh b a
        ⟨hh, head.map fun head => (head, { tbl with
          tail := tail
          buckets := tbl.buckets.set bkt b
          numItems := tbl.numItems - 1 })⟩

def Hash.elements (t : Hash) : Option (List Elem) :=
  match t.head with
  | none => some []
  | some (head, tbl) => cells t.hh.next tbl.numItems.toNat (some head)

def hashCount (t : Hash) : UInt32 :=
  match t.head with
  | none => 0
  | some (_, tbl) => tbl.numItems

inductive Op
  | add (key : Str) (a : Elem)
  | del (a : Elem)

def next (hashFcn : Str → UInt32) (t : Hash) : Op → Option Hash
  | .add key a => hashAddKeyptr hashFcn t key a
  | .del a => hashDelete t a

end IvyBus.Uthash
