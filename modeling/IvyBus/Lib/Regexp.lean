import Mathlib.Logic.Relation
import IvyBus.Lib.Decimal

namespace IvyBus.Lib

/-- The part of PCRE without captures: `chars` is a class, `times` is the quantifier with a
number, and `notAhead` is the negative lookahead. -/
inductive Regexp
  | empty
  | chars (ranges : List (UInt8 × UInt8))
  | seq (a b : Regexp)
  | alt (a b : Regexp)
  | opt (a : Regexp)
  | plus (a : Regexp)
  | times (a : Regexp) (n : Nat)
  | notAhead (a : Regexp)
  deriving DecidableEq

namespace Regexp

def InRanges (ranges : List (UInt8 × UInt8)) (c : UInt8) : Prop :=
  ∃ p ∈ ranges, p.1 ≤ c ∧ c ≤ p.2

def Iterate (R : List UInt8 → List UInt8 → Prop) : Nat → List UInt8 → List UInt8 → Prop
  | 0, s, t => t = s
  | n + 1, s, t => ∃ u, R s u ∧ Iterate R n u t

/-- A match at the start of the first string may leave the second one of it. -/
def Leaves : Regexp → List UInt8 → List UInt8 → Prop
  | .empty, s, t => t = s
  | .chars ranges, s, t => ∃ c, s = c :: t ∧ InRanges ranges c
  | .seq a b, s, t => ∃ u, a.Leaves s u ∧ b.Leaves u t
  | .alt a b, s, t => a.Leaves s t ∨ b.Leaves s t
  | .opt a, s, t => a.Leaves s t ∨ t = s
  | .plus a, s, t => Relation.TransGen a.Leaves s t
  | .times a n, s, t => Iterate a.Leaves n s t
  | .notAhead a, s, t => t = s ∧ ∀ u, ¬ a.Leaves s u

def lit (c : UInt8) : Regexp := .chars [(c, c)]

def digits : UInt8 × UInt8 := (48, 57)

/-- The characters `$()*+.?[\]^`, `|` and the braces. -/
def special : List UInt8 := [36, 40, 41, 42, 43, 46, 63, 91, 92, 93, 94, 123, 124, 125]

def isAlnum (c : UInt8) : Bool :=
  isDigit c || 65 ≤ c && c ≤ 90 || 97 ≤ c && c ≤ 122

/-- What follows a backslash. -/
def parseEscape : List UInt8 → Option ((UInt8 × UInt8) × List UInt8)
  | 100 :: s => some (digits, s)
  | c :: s => if isAlnum c then none else some ((c, c), s)
  | [] => none

def parseItem : List UInt8 → Option ((UInt8 × UInt8) × List UInt8)
  | 92 :: s => parseEscape s
  | a :: s =>
    if a = 91 ∨ a = 93 ∨ a = 94 then none
    else
      match s with
      | 45 :: b :: s => if 91 ≤ b ∧ b ≤ 94 then none else some ((a, b), s)
      | s => some ((a, a), s)
  | [] => none

def parseClass : Nat → List UInt8 → Option (List (UInt8 × UInt8) × List UInt8)
  | 0, _ => none
  | fuel + 1, s => do
    let (item, s) ← parseItem s
    match s with
    | 93 :: s => some ([item], s)
    | s =>
      let (items, s) ← parseClass fuel s
      some (item :: items, s)

def parseQuantifier (a : Regexp) : List UInt8 → Option (Regexp × List UInt8)
  | 63 :: s => some (.opt a, s)
  | 43 :: s => some (.plus a, s)
  | 123 :: s =>
    match scanNat s with
    | some (n, 125 :: s) => some (.times a n, s)
    | _ => none
  | s => some (a, s)

def closing (r : Option (Regexp × List UInt8)) : Option (Regexp × List UInt8) :=
  match r with
  | some (a, 41 :: s) => some (a, s)
  | _ => none

mutual

def parseAlt : Nat → List UInt8 → Option (Regexp × List UInt8)
  | 0, _ => none
  | fuel + 1, s => do
    let (a, s) ← parseSeq fuel s
    match s with
    | 124 :: s =>
      let (b, s) ← parseAlt fuel s
      some (.alt a b, s)
    | s => some (a, s)

def parseSeq : Nat → List UInt8 → Option (Regexp × List UInt8)
  | 0, _ => none
  | _ + 1, [] => some (.empty, [])
  | fuel + 1, c :: s =>
    if c = 41 ∨ c = 124 then some (.empty, c :: s)
    else do
      let (a, s) ← parseAtom fuel c s
      let (a, s) ← parseQuantifier a s
      let (b, s) ← parseSeq fuel s
      some (.seq a b, s)

def parseAtom : Nat → UInt8 → List UInt8 → Option (Regexp × List UInt8)
  | 0, _, _ => none
  | fuel + 1, c, s =>
    if c ∉ special then some (lit c, s)
    else
      match c, s with
      | 40, 63 :: 58 :: s => closing (parseAlt fuel s)
      | 40, 63 :: 33 :: s => (closing (parseAlt fuel s)).map fun p => (.notAhead p.1, p.2)
      | 91, s => (parseClass s.length s).map fun p => (.chars p.1, p.2)
      | 92, s => (parseEscape s).map fun p => (.chars [p.1], p.2)
      | _, _ => none

end

def ofText (text : List UInt8) : Option Regexp :=
  match parseAlt (text.length + 3) text with
  | some (r, []) => some r
  | _ => none

/-- An anchored match of the whole subject. -/
def Accepts (text subject : List UInt8) : Prop :=
  ∃ r, ofText text = some r ∧ r.Leaves subject []

section Parse

variable {fuel : Nat} {c : UInt8} {s t u ds : List UInt8} {a a' b : Regexp}

theorem parseSeq_closed (h : c = 41 ∨ c = 124) :
    parseSeq (fuel + 1) (c :: s) = some (.empty, c :: s) := by
  rw [parseSeq, if_pos h]

theorem parseSeq_cons (hc : ¬ (c = 41 ∨ c = 124)) (hatom : parseAtom fuel c s = some (a, t))
    (hquant : parseQuantifier a t = some (a', u)) :
    parseSeq (fuel + 1) (c :: s) = (parseSeq fuel u).map fun p => (.seq a' p.1, p.2) := by
  rw [parseSeq, if_neg hc, hatom]
  change (parseQuantifier a t).bind _ = _
  rw [hquant]
  change (parseSeq fuel u).bind _ = _
  cases parseSeq fuel u <;> rfl

theorem parseAlt_seq (hseq : parseSeq fuel s = some (a, t)) (ht : t.head? ≠ some 124) :
    parseAlt (fuel + 1) s = some (a, t) := by
  rw [parseAlt, hseq]
  cases t with
  | nil => rfl
  | cons c t =>
    simp only [Option.bind_eq_bind, Option.bind_some]
    split
    · rename_i heq
      rw [(List.cons.inj heq).1] at ht
      exact absurd rfl ht
    · rfl

theorem parseAtom_lit (hc : c ∉ special) : parseAtom (fuel + 1) c s = some (lit c, s) := by
  rw [parseAtom.eq_def]
  exact if_pos hc

theorem parseAtom_group (h : parseAlt fuel s = some (a, 41 :: t)) :
    parseAtom (fuel + 1) 40 (63 :: 58 :: s) = some (a, t) := by
  rw [parseAtom.eq_def]
  change closing (parseAlt fuel s) = _
  rw [h]
  rfl

theorem parseAtom_notAhead (h : parseAlt fuel s = some (a, 41 :: t)) :
    parseAtom (fuel + 1) 40 (63 :: 33 :: s) = some (.notAhead a, t) := by
  rw [parseAtom.eq_def]
  change (closing (parseAlt fuel s)).map _ = _
  rw [h]
  rfl

theorem parseAtom_class {items : List (UInt8 × UInt8)}
    (h : parseClass s.length s = some (items, t)) :
    parseAtom (fuel + 1) 91 s = some (.chars items, t) := by
  rw [parseAtom.eq_def]
  change (parseClass s.length s).map _ = _
  rw [h]
  rfl

theorem parseAtom_escape {p : UInt8 × UInt8} (h : parseEscape s = some (p, t)) :
    parseAtom (fuel + 1) 92 s = some (.chars [p], t) := by
  rw [parseAtom.eq_def]
  change (parseEscape s).map _ = _
  rw [h]
  rfl

def lits (ds : List UInt8) (r : Regexp) : Regexp := ds.foldr (fun c r => .seq (lit c) r) r

theorem parseQuantifier_lit (hc : c ∉ special) :
    parseQuantifier a (c :: s) = some (a, c :: s) := by
  unfold parseQuantifier
  split
  · rename_i heq
    exact absurd (by rw [(List.cons.inj heq).1]; decide) hc
  · rename_i heq
    exact absurd (by rw [(List.cons.inj heq).1]; decide) hc
  · rename_i heq
    exact absurd (by rw [(List.cons.inj heq).1]; decide) hc
  · rfl

theorem parseSeq_lits (hds : ∀ c ∈ ds, c ∉ special)
    (hs : ∀ a, parseQuantifier a s = some (a, s)) (hfuel : 0 < fuel) :
    parseSeq (ds.length + fuel) (ds ++ s) =
      (parseSeq fuel s).map fun p => (lits ds p.1, p.2) := by
  induction ds with
  | nil =>
    rw [List.length_nil, Nat.zero_add, List.nil_append]
    cases parseSeq fuel s <;> rfl
  | cons c ds ih =>
    obtain ⟨hc, hds⟩ := List.forall_mem_cons.mp hds
    have hnot : ¬ (c = 41 ∨ c = 124) := by
      rintro (rfl | rfl)
      · exact hc (by decide)
      · exact hc (by decide)
    have hnext : parseQuantifier (lit c) (ds ++ s) = some (lit c, ds ++ s) := by
      cases ds with
      | nil => exact hs (lit c)
      | cons d ds => exact parseQuantifier_lit (hds d List.mem_cons_self)
    have hlength : (c :: ds).length + fuel = (ds.length + fuel) + 1 := by
      rw [List.length_cons]
      omega
    rw [hlength, List.cons_append]
    obtain ⟨room, hroom⟩ := Nat.exists_eq_add_of_lt (Nat.add_pos_right ds.length hfuel)
    rw [parseSeq_cons hnot ?_ hnext, ih hds, Option.map_map]
    · rfl
    · rw [hroom]
      exact parseAtom_lit hc

end Parse

theorem inRanges_self {c d : UInt8} : InRanges [(c, c)] d ↔ d = c := by
  constructor
  · rintro ⟨p, hp, hle⟩
    rw [List.mem_singleton.mp hp] at hle
    exact UInt8.le_antisymm hle.2 hle.1
  · rintro rfl
    exact ⟨_, List.mem_singleton_self _, UInt8.le_refl _, UInt8.le_refl _⟩

theorem leaves_lits {ds : List UInt8} {r : Regexp} {s t : List UInt8} :
    (lits ds r).Leaves s t ↔ ∃ u, s = ds ++ u ∧ r.Leaves u t := by
  induction ds generalizing s with
  | nil => exact ⟨fun h => ⟨s, rfl, h⟩, fun ⟨_, hs, h⟩ => hs ▸ h⟩
  | cons c ds ih =>
    constructor
    · rintro ⟨v, ⟨d, rfl, hd⟩, h⟩
      obtain ⟨u, rfl, hu⟩ := ih.mp h
      rw [inRanges_self] at hd
      exact ⟨u, by rw [hd]; rfl, hu⟩
    · rintro ⟨u, rfl, hu⟩
      exact ⟨ds ++ u, ⟨c, rfl, inRanges_self.mpr rfl⟩, ih.mpr ⟨u, rfl, hu⟩⟩

theorem inRanges_digits {c : UInt8} : InRanges [digits] c ↔ isDigit c := by
  rw [isDigit_iff]
  constructor
  · rintro ⟨p, hp, hle⟩
    rw [List.mem_singleton.mp hp] at hle
    exact ⟨UInt8.le_iff_toNat_le.mp hle.1, UInt8.le_iff_toNat_le.mp hle.2⟩
  · rintro ⟨hlow, hhigh⟩
    exact ⟨digits, List.mem_singleton_self _, UInt8.le_iff_toNat_le.mpr hlow,
      UInt8.le_iff_toNat_le.mpr hhigh⟩

/-- A class with a number behind it takes that many characters. -/
theorem leaves_times {ranges : List (UInt8 × UInt8)} {n : Nat} {s t : List UInt8} :
    (times (.chars ranges) n).Leaves s t ↔
      ∃ u, s = u ++ t ∧ u.length = n ∧ ∀ c ∈ u, InRanges ranges c := by
  induction n generalizing s with
  | zero =>
    constructor
    · intro h
      exact ⟨[], Eq.symm h, rfl, nofun⟩
    · rintro ⟨u, rfl, hlen, -⟩
      rw [List.length_eq_zero_iff.mp hlen]
      rfl
  | succ n ih =>
    constructor
    · rintro ⟨v, ⟨c, rfl, hc⟩, h⟩
      obtain ⟨u, rfl, hlen, hu⟩ := ih.mp h
      exact ⟨c :: u, rfl, congrArg (· + 1) hlen, List.forall_mem_cons.mpr ⟨hc, hu⟩⟩
    · rintro ⟨u, rfl, hlen, hu⟩
      obtain ⟨c, u, rfl⟩ := List.exists_cons_of_length_eq_add_one hlen
      obtain ⟨hc, hu⟩ := List.forall_mem_cons.mp hu
      exact ⟨u ++ t, ⟨c, rfl, hc⟩, ih.mpr ⟨u, rfl, Nat.succ.inj hlen, hu⟩⟩

end Regexp

end IvyBus.Lib
