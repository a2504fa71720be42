import IvyBus.IntervalRegexpLaws

namespace IvyBus.IntervalRegexp

open Lib

/-- With room enough the call ends with a text that fits, and of which `P` holds. -/
def Generates (min max : Int) (flottant : Bool) (P : Str → Prop) : Prop :=
  ∃ fuel size, ∀ buflen ≥ size, ∃ regexp, regexpGen fuel buflen min max flottant = .ok regexp ∧
    regexp.length < buflen ∧ P regexp

def Mirrors (min max : Int) : Prop :=
  Generates (-max) (-min) false fun regexp => ∀ w, Regexp.Accepts regexp w ↔
    ∃ n : Nat, min ≤ n ∧ n ≤ max ∧ w = ascii "-" ++ printNat n

def Straddles (min max : Int) : Prop :=
  Generates min max false fun regexp => ∀ w, Regexp.Accepts regexp w ↔
    w = ascii "-0" ∨ ∃ n : Int, min ≤ n ∧ n ≤ max ∧ w = printInt n

def decimalText (n : Nat) (fraction : Str) : Str :=
  printNat n ++ if fraction = [] then [] else ascii "." ++ fraction

def scaled (n : Nat) (fraction : Str) : Int := n * 10 ^ fraction.length + digitsValue fraction

def Within (min max : Int) (n : Nat) (fraction : Str) : Prop :=
  min * 10 ^ fraction.length ≤ scaled n fraction ∧ scaled n fraction ≤ max * 10 ^ fraction.length

/-- In the decimal mode the regexp accepts the decimals of the interval, and no others. -/
def ExactDecimal (min max : Int) : Prop :=
  Generates min max true fun regexp => ∀ n fraction, (∀ c ∈ fraction, isDigit c) →
    (Regexp.Accepts regexp (decimalText n fraction) ↔ Within min max n fraction)

section Differ

variable {min max : Int}

theorem not_generates (hlt : min < max) (flottant : Bool) (P : Str → Prop) :
    ¬ Generates min max flottant P := by
  rintro ⟨fuel, size, hgen⟩
  obtain ⟨regexp, hok, -⟩ := hgen size le_rfl
  obtain ⟨e, he⟩ := regexpGen_error hlt fuel size flottant
  rw [he] at hok
  cases hok

/-- No regexp is generated for a negative interval, nor for one around zero. -/
theorem regexpGen_negative (a b : Int32) :
    (0 < a → a < b → ¬ Mirrors a.toInt b.toInt) ∧
      (a < 0 → 0 < b → ¬ Straddles a.toInt b.toInt) := by
  constructor
  · intro ha hab
    rw [Int32.lt_iff_toInt_lt] at hab
    exact not_generates (Int.neg_lt_neg hab) _ _
  · intro ha hb
    rw [Int32.lt_iff_toInt_lt] at ha hb
    exact not_generates (Int.lt_trans ha hb) _ _

theorem regexpGen_negative_five : ¬ Mirrors (5 : Int32).toInt (7 : Int32).toInt ∧
    ¬ Straddles (-5 : Int32).toInt (7 : Int32).toInt :=
  ⟨(regexpGen_negative 5 7).1 (by decide) (by decide),
    (regexpGen_negative (-5) 7).2 (by decide) (by decide)⟩

/-- With any fuel and any room. -/
theorem minus_seven_to_minus_five : (∀ fuel buflen, ∃ e,
      regexpGen fuel buflen (-7) (-5) false = .error e) ∧ ¬ Mirrors 5 7 ∧
    (∀ fuel buflen, ∃ e, regexpGen fuel buflen (-5) 7 false = .error e) ∧ ¬ Straddles (-5) 7 :=
  ⟨fun fuel buflen => regexpGen_error (by decide) fuel buflen false,
    not_generates (by decide) _ _,
    fun fuel buflen => regexpGen_error (by decide) fuel buflen false,
    not_generates (by decide) _ _⟩

end Differ

section Decimal

def fractionPart : Regexp := .seq (Regexp.lit 46) (.seq (.plus (.chars [Regexp.digits])) .empty)

theorem parse_decimalPart (fuel : Nat) :
    Regexp.parseSeq (fuel + 7) (ascii "(?:\\.\\d+)?" ++ 41 :: ascii "(?![\\d.])") =
      some (.seq (.opt fractionPart) .empty, 41 :: ascii "(?![\\d.])") := by
  have hdigit : Regexp.parseAtom (fuel + 2) 92 (ascii "d+)?)(?![\\d.])") =
      some (.chars [Regexp.digits], ascii "+)?)(?![\\d.])") := Regexp.parseAtom_escape rfl
  have hdigits : Regexp.parseSeq (fuel + 3) (ascii "\\d+)?)(?![\\d.])") =
      some (.seq (.plus (.chars [Regexp.digits])) .empty, ascii ")?)(?![\\d.])") :=
    (Regexp.parseSeq_cons (by decide) hdigit rfl).trans rfl
  have hdot : Regexp.parseAtom (fuel + 3) 92 (ascii ".\\d+)?)(?![\\d.])") =
      some (Regexp.lit 46, ascii "\\d+)?)(?![\\d.])") := Regexp.parseAtom_escape rfl
  have hpoint : Regexp.parseSeq (fuel + 4) (ascii "\\.\\d+)?)(?![\\d.])") =
      some (fractionPart, ascii ")?)(?![\\d.])") :=
    (Regexp.parseSeq_cons (by decide) hdot rfl).trans (congrArg _ hdigits)
  have hatom : Regexp.parseAtom (fuel + 6) 40 (ascii "?:\\.\\d+)?)(?![\\d.])") =
      some (fractionPart, ascii "?)(?![\\d.])") :=
    Regexp.parseAtom_group (Regexp.parseAlt_seq hpoint (by decide))
  exact (Regexp.parseSeq_cons (by decide) hatom rfl).trans rfl

theorem leaves_half : (Regexp.seq (.opt fractionPart) .empty).Leaves (ascii ".5") [] := by
  have hpoint : (Regexp.lit 46).Leaves (ascii ".5") (ascii "5") :=
    ⟨46, rfl, Regexp.inRanges_self.mpr rfl⟩
  have hdigit : (Regexp.plus (.chars [Regexp.digits])).Leaves (ascii "5") [] :=
    Relation.TransGen.single ⟨53, rfl, _, List.mem_singleton_self _, by decide, by decide⟩
  exact ⟨[], Or.inl ⟨_, hpoint, [], hdigit, rfl⟩, rfl⟩

theorem accepts_half {ds : Str} (hds : ∀ c ∈ ds, isDigit c) :
    Regexp.Accepts (ascii "(?:" ++ (ds ++ ascii "(?:\\.\\d+)?") ++ ascii ")(?![\\d.])")
      (ds ++ ascii ".5") :=
  ⟨_, ofText_group hds (fun _ => rfl) (parse_decimalPart 15),
    leaves_group.mpr ⟨_, rfl, leaves_half⟩⟩

theorem not_within_half (n : Nat) : ¬ Within n n n (ascii "5") := by
  rintro ⟨-, hle⟩
  change (n : Int) * 10 ^ 1 + 5 ≤ n * 10 ^ 1 at hle
  omega

theorem not_exactDecimal_single (n : Nat) (hlen : (printInt n).length ≤ 100) :
    ¬ ExactDecimal n n := by
  rintro ⟨fuel, size, hexact⟩
  obtain ⟨regexp, hok, -, haccepts⟩ := hexact (max size 200) (le_max_left ..)
  cases fuel with
  | zero => cases hok
  | succ fuel =>
    rw [regexpGen_single fuel true hlen (le_max_right ..)] at hok
    cases hok
    have hprint : printInt n = printNat n := if_neg (Int.not_lt.mpr (Int.natCast_nonneg n))
    have hhalf := (haccepts n (ascii "5") (by decide +kernel)).mp (by
      rw [single, hprint]
      exact accepts_half isDigit_of_mem)
    exact not_within_half n hhalf

end Decimal

/-- In the decimal mode no regexp is generated for bounds that differ, and the one for equal bounds
accepts what lies above them. -/
theorem regexpGen_decimal (min max : Int32) (hmin : 0 ≤ min) (hle : min ≤ max) :
    ¬ ExactDecimal min.toInt max.toInt := by
  rw [Int32.le_iff_toInt_le] at hmin hle
  rcases Int.lt_or_eq_of_le hle with hlt | heq
  · exact not_generates hlt _ _
  · obtain ⟨n, hn⟩ := Int.eq_ofNat_of_zero_le hmin
    have hlen := (length_printInt_le min hmin).trans (by decide : 10 ≤ 100)
    rw [← heq]
    rw [hn] at hlen ⊢
    exact not_exactDecimal_single n hlen

theorem regexpGen_decimal_five :
    (0 : Int32) ≤ 5 ∧ ¬ ExactDecimal (5 : Int32).toInt (5 : Int32).toInt :=
  ⟨by decide, regexpGen_decimal 5 5 (by decide) (by decide)⟩

/-- The regexp from 5 to 5 accepts `5.5`. -/
theorem five_accepts_half : ∃ regexp, regexpGen 1 8192 5 5 true = .ok regexp ∧
    Regexp.Accepts regexp (decimalText 5 (ascii "5")) ∧ ¬ Within 5 5 5 (ascii "5") ∧
      ¬ ExactDecimal 5 5 :=
  ⟨_, regexpGen_single 0 true (by decide) (by decide), @accepts_half (printNat 5) isDigit_of_mem,
    not_within_half 5, not_exactDecimal_single 5 (by decide)⟩

end IvyBus.IntervalRegexp
