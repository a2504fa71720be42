import IvyBus.IntervalRegexp

namespace IvyBus.IntervalRegexp

open Lib

/-! The loops of `nextMax` that count down never end. -/

section Loops

variable {fuel buflen : Nat} {min max : Int}

theorem forDown_stuck {body : UInt64 → Chars → Checked Chars}
    (hbody : ∀ i b, body i b ≠ .error .fail) (fuel : Nat) (i : UInt64) (b : Chars) :
    Stuck (forDown body fuel i b) := by
  induction fuel generalizing i b with
  | zero => exact ⟨.fuel, rfl, nofun⟩
  | succ fuel ih =>
    have hcond : i ≥ 0 := UInt64.le_iff_toNat_le.mpr (Nat.zero_le _)
    rw [forDown, if_pos hcond]
    exact stuck_bind (hbody i b) fun b' => ih (i - 1) b'

theorem nextMax_stuck (fuel : Nat) (min max : Str) : Stuck (nextMax fuel min max) := by
  refine (forDown_stuck (fun i b => ?_) fuel _ _).bind
  exact bind_ne_fail (Chars.read_ne_fail _ _) fun _ => Chars.write_ne_fail _ _ _

theorem genBlocks_stuck (max : Int) (fuel : Nat) (min : Int) (regList : List Chars) :
    Stuck (genBlocks max fuel min regList) := by
  cases fuel with
  | zero => exact ⟨.fuel, rfl, nofun⟩
  | succ fuel => exact (nextMax_stuck fuel _ _).bind

/-- With equal bounds the end of a string that was never written is looked for. -/
theorem strictPosRegexpGen_stuck (fuel buflen : Nat) (hmin : 0 < min) (hmax : 0 < max)
    (decimalPart boundDecimalPart : Str) :
    Stuck (strictPosRegexpGen fuel buflen min max decimalPart boundDecimalPart) := by
  rw [strictPosRegexpGen, if_neg (by omega)]
  split
  · exact ⟨.uninit, rfl, nofun⟩
  · exact (genBlocks_stuck (max - 1) fuel min []).bind

theorem genCases_stuck {gen : Nat → Int → Int → Checked Str}
    (hgen : ∀ buflen min max, min < max → Stuck (gen buflen min max)) (hlt : min < max)
    (decimalPart boundDecimalPart : Str) (locBuf : Chars) :
    Stuck (genCases gen fuel min max decimalPart boundDecimalPart locBuf) := by
  rw [genCases, if_neg (Int.ne_of_lt hlt)]
  split
  · rename_i hneg
    split
    · rename_i hneg'
      exact stuck_bind (Chars.appendCut_ne_fail _ _) fun b => (Chars.fill_stuck fun n =>
        strictPosRegexpGen_stuck fuel n (by omega) (by omega) ..).bind
    · split
      · exact stuck_bind (Chars.appendCut_ne_fail _ _) fun b => (Chars.fill_stuck fun n =>
          strictPosRegexpGen_stuck fuel n (by omega) (by omega) ..).bind
      · exact stuck_bind (Chars.appendCut_ne_fail _ _) fun b =>
          (Chars.fill_stuck fun n => hgen n min 0 hneg).bind
  · split
    · exact stuck_bind (Chars.appendCut_ne_fail _ _) fun b => Chars.fill_stuck fun n =>
        strictPosRegexpGen_stuck fuel n (by omega) (by omega) ..
    · exact Chars.fill_stuck fun n => strictPosRegexpGen_stuck fuel n (by omega) (by omega) ..

theorem regexpGen_stuck (hlt : min < max) (fuel buflen : Nat) (flottant : Bool) :
    Stuck (regexpGen fuel buflen min max flottant) := by
  induction fuel generalizing buflen min max with
  | zero => exact ⟨.fuel, rfl, nofun⟩
  | succ fuel ih =>
    rw [regexpGen, if_neg (Int.not_lt.mpr (Int.le_of_lt hlt))]
    exact (genCases_stuck (fun buflen' _ _ h => ih h buflen') hlt _ _ _).bind

theorem regexpGen_error (hlt : min < max) (fuel buflen : Nat) (flottant : Bool) :
    ∃ e, regexpGen fuel buflen min max flottant = .error e :=
  let ⟨e, he, _⟩ := regexpGen_stuck hlt fuel buflen flottant
  ⟨e, he⟩

end Loops

section Single

variable {fuel buflen : Nat} {n : Int}

def single (n : Int) (decimalPart : Str) : Str :=
  ascii "(?:" ++ (printInt n ++ decimalPart) ++ ascii ")(?![\\d.])"

theorem length_single (n : Int) (part : Str) :
    (single n part).length = (printInt n).length + part.length + 13 := by
  have h3 : (ascii "(?:").length = 3 := rfl
  have h10 : (ascii ")(?![\\d.])").length = 10 := rfl
  rw [single, List.length_append, List.length_append, List.length_append, h3, h10]
  omega

theorem checkAndReturn_holds {b : Chars} {s : Str} (h : b.Holds s) :
    checkAndReturn buflen b = if s.length ≤ buflen then .ok s else .error .fail := by
  rw [checkAndReturn, h.cString]
  rfl

theorem regexpGen_equal (fuel buflen : Nat) (flottant : Bool) (hn : (printInt n).length ≤ 100) :
    let text := single n (if flottant then ascii "(?:\\.\\d+)?" else [])
    regexpGen (fuel + 1) buflen n n flottant =
      if text.length ≤ buflen then .ok text else .error .fail := by
  have hpart : ∀ b : Bool, 0 ∉ (if b then ascii "(?:\\.\\d+)?" else []) ∧
      (if b then ascii "(?:\\.\\d+)?" else []).length ≤ 10 := by decide
  obtain ⟨hzero, hshort⟩ := hpart flottant
  rw [regexpGen, if_neg (Int.lt_irrefl n)]
  dsimp only
  generalize (if flottant = true then ascii "(?:\\.\\d+)?" else []) = part at *
  have hopened := Chars.holds_ofString (by decide : 0 ∉ ascii "(?:")
    (by decide : (ascii "(?:").length < 8192)
  have htext : 0 ∉ printInt n ++ part := by
    rw [List.mem_append, not_or]
    exact ⟨notMem_printInt (by decide) rfl n, hzero⟩
  have hsize : (Chars.ofString 8192 (ascii "(?:")).length = 8192 := by
    rw [Chars.ofString, List.length_append, List.length_map, List.length_replicate]
    rfl
  obtain ⟨b, hb, hlen, hfilled⟩ := hopened.appendCut htext (by
    rw [hsize, List.length_append]
    have h3 : (ascii "(?:").length = 3 := rfl
    omega)
  rw [genCases, if_pos rfl, hb]
  obtain ⟨b', hb', -, hclosed⟩ := hfilled.appendCut (by decide : 0 ∉ ascii ")(?![\\d.])") (by
    rw [hlen, hsize, List.length_append, List.length_append]
    have h3 : (ascii "(?:").length = 3 := rfl
    have h10 : (ascii ")(?![\\d.])").length = 10 := rfl
    omega)
  change (b.appendCut (ascii ")(?![\\d.])")).bind _ = _
  rw [hb']
  exact checkAndReturn_holds hclosed

theorem regexpGen_single (fuel : Nat) (flottant : Bool) (hn : (printInt n).length ≤ 100)
    (hbuf : 200 ≤ buflen) : regexpGen (fuel + 1) buflen n n flottant =
      .ok (single n (if flottant then ascii "(?:\\.\\d+)?" else [])) := by
  have hpart : ∀ b : Bool, (if b then ascii "(?:\\.\\d+)?" else []).length ≤ 10 := by decide
  have hshort := hpart flottant
  have hlength := length_single n (if flottant then ascii "(?:\\.\\d+)?" else [])
  exact (regexpGen_equal fuel buflen flottant hn).trans (if_pos (by omega))

def noMore : Regexp := .notAhead (.seq (.chars [Regexp.digits, (46, 46)]) .empty)

theorem parse_end (fuel : Nat) :
    Regexp.parseSeq (fuel + 6) (ascii "(?![\\d.])") = some (.seq noMore .empty, []) := by
  have hclass : Regexp.parseSeq (fuel + 3) (ascii "[\\d.])") =
      some (.seq (.chars [Regexp.digits, (46, 46)]) .empty, [41]) := by
    have hatom : Regexp.parseAtom (fuel + 2) 91 (ascii "\\d.])") =
        some (.chars [Regexp.digits, (46, 46)], [41]) := Regexp.parseAtom_class (by decide)
    exact (Regexp.parseSeq_cons (by decide) hatom rfl).trans (by
      rw [Regexp.parseSeq_closed (Or.inl rfl)]
      rfl)
  have hatom := Regexp.parseAtom_notAhead (Regexp.parseAlt_seq hclass (by decide))
  exact (Regexp.parseSeq_cons (by decide) hatom rfl).trans rfl

theorem notMem_special {c : UInt8} (h : isDigit c) : c ∉ Regexp.special := by
  rw [isDigit_iff] at h
  intro hmem
  simp only [Regexp.special, List.mem_cons, List.not_mem_nil, or_false, ← UInt8.toNat_inj] at hmem
  simp at hmem
  omega

theorem ofText_group {ds part : Str} {r : Regexp} (hds : ∀ c ∈ ds, isDigit c)
    (hquant : ∀ a, Regexp.parseQuantifier a (part ++ 41 :: ascii "(?![\\d.])") =
      some (a, part ++ 41 :: ascii "(?![\\d.])"))
    (hpart : Regexp.parseSeq (part.length + 12) (part ++ 41 :: ascii "(?![\\d.])") =
      some (r, 41 :: ascii "(?![\\d.])")) :
    Regexp.ofText (ascii "(?:" ++ (ds ++ part) ++ ascii ")(?![\\d.])") =
      some (.seq (Regexp.lits ds r) (.seq noMore .empty)) := by
  have hlits : Regexp.parseSeq (ds.length + (part.length + 12))
      (ds ++ (part ++ 41 :: ascii "(?![\\d.])")) =
        some (Regexp.lits ds r, 41 :: ascii "(?![\\d.])") := by
    rw [Regexp.parseSeq_lits (fun c hc => notMem_special (hds c hc)) hquant (Nat.succ_pos _), hpart]
    rfl
  have hatom := Regexp.parseAtom_group (Regexp.parseAlt_seq hlits (by decide))
  have hseq := (Regexp.parseSeq_cons (by decide) hatom rfl).trans
    (congrArg _ (parse_end (ds.length + part.length + 8)))
  have hlength : (ascii "(?:" ++ (ds ++ part) ++ ascii ")(?![\\d.])").length + 3 =
      ds.length + (part.length + 12) + 4 := by
    rw [List.length_append, List.length_append, List.length_append]
    have h3 : (ascii "(?:").length = 3 := rfl
    have h10 : (ascii ")(?![\\d.])").length = 10 := rfl
    omega
  have htext : ascii "(?:" ++ (ds ++ part) ++ ascii ")(?![\\d.])" =
      40 :: 63 :: 58 :: (ds ++ (part ++ 41 :: ascii "(?![\\d.])")) := by
    rw [List.append_assoc, List.append_assoc]
    rfl
  rw [Regexp.ofText, hlength, htext, Regexp.parseAlt_seq hseq (by decide)]

theorem leaves_group {ds w : Str} {r : Regexp} :
    (Regexp.seq (Regexp.lits ds r) (.seq noMore .empty)).Leaves w [] ↔
      ∃ x, w = ds ++ x ∧ r.Leaves x [] := by
  constructor
  · rintro ⟨u, hlits, v, ⟨hstop, -⟩, hend⟩
    obtain rfl : u = [] := hstop.symm.trans hend.symm
    exact Regexp.leaves_lits.mp hlits
  · intro h
    refine ⟨[], Regexp.leaves_lits.mpr h, [], ⟨rfl, ?_⟩, rfl⟩
    rintro x ⟨y, ⟨c, hc, -⟩, -⟩
    cases hc

theorem accepts_single {ds : Str} (hds : ∀ c ∈ ds, isDigit c) {w : Str} :
    Regexp.Accepts (ascii "(?:" ++ (ds ++ []) ++ ascii ")(?![\\d.])") w ↔ w = ds := by
  rw [Regexp.Accepts, ofText_group hds (fun _ => rfl) rfl]
  constructor
  · rintro ⟨r, hr, h⟩
    rw [← Option.some.inj hr, leaves_group] at h
    obtain ⟨x, rfl, hx⟩ := h
    obtain rfl : [] = x := hx
    exact List.append_nil _
  · rintro rfl
    exact ⟨_, rfl, leaves_group.mpr ⟨[], (List.append_nil w).symm, rfl⟩⟩

end Single

/-- With room enough the call ends with a text that fits, and of the strings of digits this text
accepts the decimals of the interval. -/
def Exact (min max : Int) : Prop :=
  ∃ fuel size, ∀ buflen ≥ size, ∃ regexp, regexpGen fuel buflen min max false = .ok regexp ∧
    regexp.length < buflen ∧ ∀ w : Str, (∀ c ∈ w, isDigit c) → (Regexp.Accepts regexp w ↔
      ∃ n : Nat, (min ≤ n ∧ n ≤ max ∨ max ≤ n ∧ n ≤ min) ∧ w = printNat n)

section Exact

variable {min max : Int}

/-- The bounds are exchanged through an `int`. -/
theorem regexpGen_comm (hlt : max < min) (hmax : toInt max = max) (fuel buflen : Nat)
    (flottant : Bool) : regexpGen fuel buflen min max flottant =
      regexpGen fuel buflen max min flottant := by
  cases fuel with
  | zero => rfl
  | succ fuel =>
    have hordered : ¬ max > min := Int.not_lt.mpr (Int.le_of_lt hlt)
    rw [regexpGen, regexpGen, if_pos hlt, if_neg hordered, hmax]

theorem not_exact (hne : min ≠ max) (hmax : toInt max = max) : ¬ Exact min max := by
  rintro ⟨fuel, size, hexact⟩
  obtain ⟨regexp, hok, -⟩ := hexact size le_rfl
  rcases Int.lt_or_gt_of_ne hne with hlt | hgt
  · obtain ⟨e, he⟩ := regexpGen_error hlt fuel size false
    rw [he] at hok
    cases hok
  · obtain ⟨e, he⟩ := regexpGen_error hgt fuel size false
    rw [regexpGen_comm hgt hmax, he] at hok
    cases hok

theorem exact_single {n : Int} (hn : 0 ≤ n) (hlen : (printInt n).length ≤ 100) : Exact n n := by
  have hprint : printInt n = printNat n.natAbs := if_neg (Int.not_lt.mpr hn)
  refine ⟨1, 200, fun buflen hbuf => ⟨_, regexpGen_single 0 false hlen hbuf, ?_, fun w _ => ?_⟩⟩
  · rw [length_single]
    simp only [Bool.false_eq_true, if_false, List.length_nil]
    omega
  · have hdigits : ∀ c ∈ printInt n, isDigit c := hprint ▸ isDigit_of_mem
    change Regexp.Accepts (ascii "(?:" ++ (printInt n ++ []) ++ ascii ")(?![\\d.])") w ↔ _
    rw [accepts_single hdigits, hprint]
    constructor
    · rintro rfl
      exact ⟨n.natAbs, by omega, rfl⟩
    · rintro ⟨m, hm, rfl⟩
      have hsame : m = n.natAbs := by omega
      rw [hsame]

theorem length_printInt_le (i : Int32) (hi : 0 ≤ i.toInt) : (printInt i.toInt).length ≤ 10 := by
  rw [printInt, if_neg (Int.not_lt.mpr hi)]
  apply length_printNat_le
  have hlt := i.toInt_lt
  omega

/-- The regexp of an interval of nonnegative bounds is generated, and exact, when the two are
equal; otherwise none is generated. -/
theorem regexpGen_exact_iff (min max : Int32) (hmin : 0 ≤ min) (hmax : 0 ≤ max) :
    Exact min.toInt max.toInt ↔ min = max := by
  constructor
  · intro hexact
    by_contra hne
    have hbounds : min.toInt ≠ max.toInt := fun heq => hne (Int32.toInt_inj.mp heq)
    have hround : toInt max.toInt = max.toInt := by rw [toInt, Int32.ofInt_toInt]
    exact not_exact hbounds hround hexact
  · rintro rfl
    have hpos : 0 ≤ min.toInt := Int32.le_iff_toInt_le.mp hmin
    exact exact_single hpos ((length_printInt_le min hpos).trans (by decide))

theorem regexpGen_exact_five : (0 : Int32) ≤ 5 ∧ Exact (5 : Int32).toInt (5 : Int32).toInt :=
  ⟨by decide, (regexpGen_exact_iff 5 5 (by decide) (by decide)).mpr rfl⟩

set_option maxRecDepth 8192 in
/-- For `20` and `25` the place before the first character is read. -/
theorem twenty_to_twentyfive_not_exact : regexpGen 8 8192 20 25 false = .error .bounds ∧
    ¬ Exact (20 : Int32).toInt (25 : Int32).toInt :=
  ⟨rfl, not_exact (by decide) (by decide)⟩

end Exact

end IvyBus.IntervalRegexp
