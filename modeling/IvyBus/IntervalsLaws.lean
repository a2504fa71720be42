import IvyBus.Intervals

namespace IvyBus.Intervals

open Lib Buffer
open IntervalRegexp (single regexpGen_equal regexpGen_stuck regexpGen_comm toInt)

section Generate

variable {genFuel : Nat} {dst d : Chars} {offset : Nat} {itv : Str} {min max n : Int32}
  {withDecimal : UInt8}

theorem length_printInt_int32 (i : Int32) : (printInt i.toInt).length ≤ 11 := by
  have hlt := i.toInt_lt
  have hle := i.le_toInt
  have hnat : (printNat i.toInt.natAbs).length ≤ 9 + 1 := length_printNat_le (by omega)
  rw [printInt]
  split
  · exact Nat.succ_le_succ hnat
  · exact Nat.le_succ_of_le hnat

theorem zero_notMem_equalText (n : Int32) (withDecimal : UInt8) : 0 ∉ equalText n withDecimal := by
  rw [equalText, single, List.mem_append, List.mem_append, List.mem_append]
  rintro ((h | h | h) | h)
  · exact absurd h (by decide)
  · exact notMem_printInt (by decide) rfl _ h
  · split at h
    · exact absurd h (by decide)
    · cases h
  · exact absurd h (by decide)

def gen : Gen := fun itv room =>
  match sscanf itv with
  | some (n, _, withDecimal) =>
    if (equalText n withDecimal).length ≤ room then
      some ⟨equalText n withDecimal, zero_notMem_equalText n withDecimal⟩
    else none
  | none => none

theorem regexpGen_of_ne (hne : min ≠ max) (fuel buflen : Nat) (flottant : Bool) :
    Stuck (IntervalRegexp.regexpGen fuel buflen min.toInt max.toInt flottant) := by
  rcases Int.lt_or_gt_of_ne (fun heq => hne (Int32.toInt_inj.mp heq)) with hlt | hgt
  · exact regexpGen_stuck hlt fuel buflen flottant
  · rw [regexpGen_comm hgt (by rw [toInt, Int32.ofInt_toInt])]
    exact regexpGen_stuck hgt fuel buflen flottant

theorem regexpGen_eq (n : Int32) (withDecimal : UInt8) (fuel buflen : Nat) :
    IntervalRegexp.regexpGen (fuel + 1) buflen n.toInt n.toInt (withDecimal ≠ 105) =
      if (equalText n withDecimal).length ≤ buflen then .ok (equalText n withDecimal)
      else .error .fail := by
  have hequal := regexpGen_equal fuel buflen (withDecimal ≠ 105)
    ((length_printInt_int32 n).trans (by decide))
  simp only [decide_eq_true_eq] at hequal
  exact hequal

theorem generate_equal (h : sscanf itv = some (n, n, withDecimal)) :
    generate (genFuel + 1) dst offset itv =
      (gen itv (dstSize - offset)).elim (.ok dst) fun text => dst.strcpy offset text.1 := by
  rw [generate, gen, h]
  dsimp only
  rw [regexpGen_eq]
  by_cases hroom : (equalText n withDecimal).length ≤ dstSize - offset
  · rw [if_pos hroom, if_pos hroom]
    rfl
  · rw [if_neg hroom, if_neg hroom]
    rfl

theorem generate_of_stuck (hscan : sscanf itv = some (min, max, withDecimal))
    (hstuck : Stuck (IntervalRegexp.regexpGen genFuel (dstSize - offset) min.toInt max.toInt
      (withDecimal ≠ 105))) : generate genFuel dst offset itv ≠ .ok d := by
  intro h
  obtain ⟨e, he, hfail⟩ := hstuck
  rw [generate, hscan] at h
  dsimp only at h
  rw [he] at h
  cases e with
  | fail => exact hfail rfl
  | bounds => cases h
  | uninit => cases h
  | fuel => cases h

theorem generate_ok (h : generate genFuel dst offset itv = .ok d) :
    0 < genFuel ∧ ∃ n withDecimal, sscanf itv = some (n, n, withDecimal) := by
  cases hscan : sscanf itv with
  | none =>
    rw [generate, hscan] at h
    cases h
  | some p =>
    obtain ⟨min, max, withDecimal⟩ := p
    cases genFuel with
    | zero => exact (generate_of_stuck hscan ⟨.fuel, rfl, nofun⟩ h).elim
    | succ fuel =>
      by_cases heq : min = max
      · exact ⟨Nat.succ_pos fuel, min, withDecimal, by rw [heq]⟩
      · exact (generate_of_stuck hscan (regexpGen_of_ne heq ..) h).elim

end Generate

/-- Every group that the walk meets is closed, and its bounds are read and equal. -/
inductive Reads : Str → Prop
  | rest {cur : Str} : strstr interval cur = none → Reads cur
  | group {cur before itv rest : Str} {n : Int32} {withDecimal c : UInt8} :
      strstr interval cur = some (before, itv) → sscanf itv = some (n, n, withDecimal) →
      itv.dropWhile (· ≠ closing) = c :: rest → Reads rest → Reads cur

section Loop

variable {genFuel fuel : Nat} {dst d : Chars} {offset : Nat} {cur : Str} {memory : Memory}
  {src b : IvyBuffer} {data : Chars} {s : Str}

theorem substituteLoop_eq (h : Reads cur) : substituteLoop (genFuel + 1) fuel dst offset cur =
    Buffer.substituteLoop gen fuel dst offset cur := by
  induction fuel generalizing cur dst offset with
  | zero => rfl
  | succ fuel ih =>
    rw [substituteLoop, Buffer.substituteLoop]
    cases h with
    | rest hnone => rw [hnone]
    | group hfound hscan hclose hrest =>
      rw [hfound]
      simp only [generate_equal hscan, hclose, ih hrest]

theorem reads_of_ok (h : substituteLoop genFuel fuel dst offset cur = .ok d) :
    Reads cur ∧ (strstr interval cur ≠ none → 0 < genFuel) := by
  induction fuel generalizing cur dst offset with
  | zero => cases h
  | succ fuel ih =>
    rw [substituteLoop] at h
    cases hfound : strstr interval cur with
    | none => exact ⟨.rest hfound, fun hne => absurd rfl hne⟩
    | some p =>
      obtain ⟨before, itv⟩ := p
      rw [hfound] at h
      obtain ⟨dst, -, h⟩ := bind_eq_ok.mp h
      obtain ⟨dst, hgen, h⟩ := bind_eq_ok.mp h
      obtain ⟨written, -, h⟩ := bind_eq_ok.mp h
      obtain ⟨hpos, n, withDecimal, hscan⟩ := generate_ok hgen
      split at h
      · cases h
      · rename_i c rest hclose
        exact ⟨.group hfound hscan hclose (ih h).1, fun _ => hpos⟩

theorem substituteInterval_plain (genFuel : Nat) (hdata : src.data = some data)
    (hs : data.Holds s) (hplain : strstr interval s = none) :
    substituteInterval genFuel memory src = .ok src := by
  rw [substituteInterval, hdata]
  change (data.cString).bind _ = _
  rw [hs.cString]
  exact if_pos (by rw [hplain]; rfl)

theorem substituteInterval_eq_ok (hdata : src.data = some data) (hs : data.Holds s)
    (hgroups : strstr interval s ≠ none) :
    (∃ genFuel, substituteInterval genFuel memory src = .ok b) ↔ Reads s ∧
      memory dstSize = true ∧ ∃ r, Substituted gen none s r ∧ Short (some r) ∧
        b = { src with data := some (image (some r)) } := by
  have hnot : ¬ (strstr interval s).isNone = true := by rwa [Option.isNone_iff_eq_none]
  have hstart (genFuel : Nat) : substituteInterval genFuel memory src =
      if memory dstSize then
        (substituteLoop genFuel (s.length + 1) (Chars.uninit dstSize) 0 s).bind fun dst =>
          .ok { src with data := some dst }
      else .error .bounds := by
    rw [substituteInterval, hdata]
    change (data.cString).bind _ = _
    rw [hs.cString]
    exact if_neg hnot
  have hstart' : Buffer.substituteInterval memory gen src =
      if memory dstSize then
        (Buffer.substituteLoop gen (s.length + 1) (Chars.uninit dstSize) 0 s).bind fun dst =>
          .ok { src with data := some dst }
      else .error .bounds := by
    rw [Buffer.substituteInterval, hdata]
    change (data.cString).bind _ = _
    rw [hs.cString]
    exact if_neg hnot
  rw [← Buffer.substituteInterval_eq_ok hdata hs hgroups b, hstart']
  constructor
  · rintro ⟨genFuel, hok⟩
    rw [hstart] at hok
    split at hok
    · rename_i hmem
      obtain ⟨dst, hloop, -⟩ := bind_eq_ok.mp hok
      obtain ⟨hreads, hpos⟩ := reads_of_ok hloop
      obtain ⟨fuel, rfl⟩ := Nat.exists_eq_add_of_lt (hpos hgroups)
      rw [Nat.zero_add, substituteLoop_eq hreads] at hok
      exact ⟨hreads, (if_pos hmem).trans hok⟩
    · cases hok
  · rintro ⟨hreads, hok⟩
    exact ⟨1, by rw [hstart, substituteLoop_eq hreads, hok]⟩

end Loop

section Passes

variable {out : Option Str} {before itv cur r : Str} {n : Int32} {withDecimal : UInt8}

theorem gen_of_scan (h : sscanf itv = some (n, n, withDecimal)) (room : Nat) :
    gen itv room = if (equalText n withDecimal).length ≤ room then
      some ⟨equalText n withDecimal, zero_notMem_equalText n withDecimal⟩ else none := by
  rw [gen, h]

theorem length_replaced (h : sscanf itv = some (n, n, withDecimal)) :
    (replaced gen out before itv).map List.length =
      placed (out.map List.length) before.length (equalText n withDecimal).length := by
  have hwritten : (out.map List.length).getD 0 = (out.getD []).length := by cases out <;> rfl
  rw [replaced, placed, gen_of_scan h, hwritten]
  split
  · simp [Nat.add_assoc]
  · by_cases hbefore : before = []
    · simp [hbefore]
    · simp [hbefore]

theorem Passes.substituted {written : Option Nat} (h : Passes written cur) :
    ∀ out : Option Str, out.map List.length = written →
      Reads cur ∧ ∃ r, Substituted gen out cur r ∧ r.length < dstSize := by
  induction h with
  | @rest n cur hnone hfits =>
    intro out hout
    obtain ⟨s, rfl, rfl⟩ := Option.map_eq_some_iff.mp hout
    exact ⟨.rest hnone, _, .rest hnone, by rwa [List.length_append]⟩
  | @group written cur before itv rest n withDecimal c m hfound hscan hplaced hclose _ ih =>
    intro out hout
    rw [← hout, ← length_replaced hscan] at hplaced
    obtain ⟨out', hout', hlength⟩ := Option.map_eq_some_iff.mp hplaced
    obtain ⟨hreads, r, hr, hshort⟩ := ih (some out') (by rw [Option.map_some, hlength])
    exact ⟨.group hfound hscan hclose hreads, r, .group hfound hout' hclose hr, hshort⟩

theorem passes_of_substituted (h : Substituted gen out cur r) (hreads : Reads cur)
    (hshort : r.length < dstSize) : Passes (out.map List.length) cur := by
  induction h with
  | @rest out cur hnone =>
    rw [List.length_append] at hshort
    exact .rest hnone hshort
  | @group out cur before itv out' rest r c hfound hout' hclose _ ih =>
    cases hreads with
    | rest hnone =>
      rw [hfound] at hnone
      cases hnone
    | group hfound' hscan hclose' hrest =>
      rw [hfound] at hfound'
      cases hfound'
      rw [hclose] at hclose'
      cases hclose'
      have hplaced := (length_replaced hscan).symm.trans (congrArg _ hout')
      exact .group hfound hscan hplaced hclose (ih hrest hshort)

theorem passes_iff : Passes none cur ↔
    Reads cur ∧ ∃ r, Substituted gen none cur r ∧ r.length < dstSize :=
  ⟨fun h => h.substituted none rfl, fun ⟨hreads, _, hr, hshort⟩ =>
    passes_of_substituted hr hreads hshort⟩

end Passes

section Replaced

variable {a b rest s r r' : Str} {min max : Int32} {suffix : Suffix} {out : Option Str}

def Suffix.next : Suffix → UInt8
  | .nothing => closing
  | .i => 105
  | .f => 102

theorem sscanf_group (ha : Numeral a min.toInt) (hb : Numeral b max.toInt) :
    sscanf (group a b suffix ++ rest) = some (min, max, suffix.next) := by
  have hdrop : (group a b suffix ++ rest).drop interval.length =
      a ++ 35 :: (b ++ (suffix.text ++ closing :: rest)) := by
    rw [group, List.append_assoc, List.drop_left]
    simp
  have hnext : ∃ t, suffix.text ++ closing :: rest = suffix.next :: t := by
    cases suffix <;> exact ⟨_, rfl⟩
  obtain ⟨t, ht⟩ := hnext
  have hdigit : isDigit suffix.next = false := by cases suffix <;> rfl
  have hscan := ha.scanInt (t := 35 :: (b ++ suffix.next :: t)) (by rintro _ ⟨⟩; rfl)
  have hscan' := hb.scanInt (t := suffix.next :: t) (by rintro _ ⟨⟩; exact hdigit)
  simp only [sscanf, hdrop, ht, hscan, hscan', toInt32_strtol]

theorem dropWhile_group (ha : Numeral a min.toInt) (hb : Numeral b max.toInt) :
    (group a b suffix ++ rest).dropWhile (· ≠ closing) = closing :: rest := by
  have hnumeral {t : Str} {i : Int} (h : Numeral t i) : closing ∉ t := fun hmem => by
    rcases h.mem hmem with h | h
    · cases h
    · cases h
  have hnot : closing ∉ interval ++ (a ++ 35 :: (b ++ suffix.text)) := by
    simp only [List.mem_append, List.mem_cons, not_or]
    refine ⟨by decide, hnumeral ha, by decide, hnumeral hb, ?_⟩
    cases suffix <;> decide
  have hsplit : group a b suffix ++ rest =
      (interval ++ (a ++ 35 :: (b ++ suffix.text))) ++ closing :: rest := by
    simp [group]
  have hall : ∀ c ∈ interval ++ (a ++ 35 :: (b ++ suffix.text)), decide (c ≠ closing) = true :=
    fun c hc => decide_eq_true fun (heq : c = closing) => hnot (heq ▸ hc)
  rw [hsplit, List.dropWhile_append_of_pos hall]
  rfl

theorem Produces.equal {text : Str} (h : Produces min max suffix.decimal text) :
    min = max ∧ text = equalText min suffix.next := by
  obtain ⟨fuel, size, hok⟩ := h
  have hok := hok (size + 200) (Nat.le_add_right ..)
  by_cases heq : min = max
  · subst heq
    refine ⟨rfl, ?_⟩
    have hdecimal : suffix.decimal = decide (suffix.next ≠ 105) := by cases suffix <;> rfl
    cases fuel with
    | zero => cases hok
    | succ fuel =>
      have hlength := (length_printInt_int32 min).trans (by decide : 11 ≤ 100)
      rw [hdecimal, IntervalRegexp.regexpGen_single fuel _ hlength (Nat.le_add_left ..)] at hok
      rw [← Except.ok.inj hok, equalText]
      simp only [decide_eq_true_eq]
  · obtain ⟨e, he, -⟩ := regexpGen_of_ne heq fuel (size + 200) suffix.decimal
    rw [he] at hok
    cases hok

theorem Replaced.substituted (h : Replaced s r) (hout : Substituted gen out s r')
    (hfits : (out.getD []).length + r.length < dstSize) : r' = out.getD [] ++ r := by
  induction h generalizing out with
  | @rest s hnone =>
    cases hout with
    | rest _ => rfl
    | group hfound =>
      rw [hnone] at hfound
      cases hfound
  | @group before rest a b text r min max suffix hfound ha hb htext _ ih =>
    obtain ⟨rfl, rfl⟩ := htext.equal
    cases hout with
    | rest hnone =>
      rw [hfound] at hnone
      cases hnone
    | group hfound' hout' hclose hrest =>
      rw [hfound] at hfound'
      cases hfound'
      rw [dropWhile_group ha hb] at hclose
      cases hclose
      rw [List.length_append, List.length_append] at hfits
      rw [replaced, gen_of_scan (sscanf_group ha hb), if_pos (by omega)] at hout'
      cases hout'
      rw [ih hrest (by simp only [Option.getD_some, List.length_append]; omega)]
      simp

end Replaced

/-- The substitution does what it should in a text without groups, and else when the block is
given, the walk passes, and a well-formed text becomes one that is shorter than the block. -/
theorem substituteInterval_correct_iff {memory : Memory} {src : IvyBuffer} {data : Chars}
    {s : Str} (hdata : src.data = some data) (hs : data.Holds s) :
    Correct memory src s ↔ strstr interval s = none ∨
      memory dstSize = true ∧ Passes none s ∧ ∀ r, Replaced s r → r.length < dstSize := by
  by_cases hplain : strstr interval s = none
  · refine iff_of_true ⟨src, ⟨1, substituteInterval_plain 1 hdata hs hplain⟩, fun r hr => ?_⟩
      (Or.inl hplain)
    cases hr with
    | rest _ => exact ⟨data, hdata, hs⟩
    | group hfound =>
      rw [hfound] at hplain
      cases hplain
  · rw [or_iff_right hplain, passes_iff]
    constructor
    · rintro ⟨b, hb, hright⟩
      obtain ⟨hreads, hmem, r', hr', hshort, rfl⟩ :=
        (substituteInterval_eq_ok hdata hs hplain).mp hb
      refine ⟨hmem, ⟨hreads, r', hr', (short_some.mp hshort).2⟩, fun r hr => ?_⟩
      obtain ⟨data', hdata', hholds⟩ := hright r hr
      cases hdata'
      have hlt := hholds.length_lt
      rwa [length_image hshort] at hlt
    · rintro ⟨hmem, ⟨hreads, r', hr', hlt⟩, hfits⟩
      have hshort : Short (some r') :=
        short_some.mpr ⟨hr'.nonzero List.not_mem_nil hs.nonzero, hlt⟩
      refine ⟨_, (substituteInterval_eq_ok hdata hs hplain).mpr
        ⟨hreads, hmem, r', hr', hshort, rfl⟩, fun r hr => ⟨_, rfl, ?_⟩⟩
      obtain rfl : r' = r := hr.substituted hr' (by simpa using hfits r hr)
      exact holds_image (short_some.mp hshort).1

section Failing

variable {memory : Memory} {src : IvyBuffer} {data : Chars} {s before itv : Str}

theorem Correct.reads (h : Correct memory src s) (hdata : src.data = some data)
    (hs : data.Holds s) (hfound : strstr interval s = some (before, itv)) :
    (∃ n withDecimal, sscanf itv = some (n, n, withDecimal)) ∧
      itv.dropWhile (· ≠ closing) ≠ [] := by
  obtain ⟨b, hb, -⟩ := h
  have hgroups : strstr interval s ≠ none := by rw [hfound]; exact Option.some_ne_none _
  cases ((substituteInterval_eq_ok hdata hs hgroups).mp hb).1 with
  | rest hnone => exact absurd hnone hgroups
  | group hfound' hscan hclose _ =>
    rw [hfound] at hfound'
    cases hfound'
    exact ⟨⟨_, _, hscan⟩, by rw [hclose]; exact List.cons_ne_nil _ _⟩

def start (s : Str) : IvyBuffer :=
  ⟨some (Chars.ofString (s.length + 1) s), s.length + 1, s.length⟩

theorem substituteInterval_correct_five : (Chars.ofString 9 (ascii "(?I5#5i)")).Holds
      (ascii "(?I5#5i)") ∧
    (Correct (fun _ => true) (start (ascii "(?I5#5i)")) (ascii "(?I5#5i)") ↔
      strstr interval (ascii "(?I5#5i)") = none ∨ true = true ∧ Passes none (ascii "(?I5#5i)") ∧
        ∀ r, Replaced (ascii "(?I5#5i)") r → r.length < dstSize) := by
  have hs := Chars.holds_ofString (by decide : 0 ∉ ascii "(?I5#5i)")
    (by decide : (ascii "(?I5#5i)").length < 9)
  exact ⟨hs, substituteInterval_correct_iff rfl hs⟩

/-- An interval of two numbers, a group that is not closed, and one without its second bound. -/
theorem intervals_not_substituted :
    ¬ Correct (fun _ => true) (start (ascii "(?I1#2i)")) (ascii "(?I1#2i)") ∧
    ¬ Correct (fun _ => true) (start (ascii "(?I5#5i")) (ascii "(?I5#5i") ∧
    ¬ Correct (fun _ => true) (start (ascii "(?I5#)")) (ascii "(?I5#)") := by
  have hholds (s : Str) (hs : 0 ∉ s) := Chars.holds_ofString hs (Nat.lt_succ_self s.length)
  refine ⟨fun h => ?_, fun h => ?_, fun h => ?_⟩
  · obtain ⟨⟨n, withDecimal, hscan⟩, -⟩ := h.reads rfl (hholds _ (by decide)) rfl
    have hbounds : sscanf (ascii "(?I1#2i)") = some (1, 2, 105) := by decide
    cases hbounds.symm.trans hscan
  · exact absurd (by decide) (h.reads rfl (hholds _ (by decide)) rfl).2
  · obtain ⟨⟨n, withDecimal, hscan⟩, -⟩ := h.reads rfl (hholds _ (by decide)) rfl
    have hmissing : sscanf (ascii "(?I5#)") = none := by decide
    cases hmissing.symm.trans hscan

end Failing

end IvyBus.Intervals
