import IvyBus.IntervalRegexpLaws

namespace IvyBus.IntervalRegexp

open Lib

def above (rank : Nat) (s : Str) : Str := s.take (s.length - rank)
def below (rank : Nat) (s : Str) : Str := s.drop (s.length + 1 - rank)

def rankText (lmin lmax : UInt8) : Str :=
  if lmin = 48 ∧ lmax = 57 then ascii "\\d"
  else if lmin = lmax then [lmin]
  else if lmax.toNat = lmin.toNat + 1 then ascii "[" ++ [lmin, lmax] ++ ascii "]"
  else ascii "[" ++ [lmin] ++ ascii "-" ++ [lmax] ++ ascii "]"

def postText (rank : Nat) : Str :=
  if rank ≤ 1 then []
  else if rank = 2 then ascii "\\d"
  else ascii "\\d\x7b" ++ printNat (rank - 1) ++ ascii "\x7d"

section Digits

variable {s : Str} {rank : Nat}

theorem exists_digit (s : Str) (hpos : 1 ≤ rank) (hrank : rank ≤ s.length) :
    ∃ a, s = above rank s ++ a :: below rank s := by
  have hdrop : s.drop (s.length - rank) ≠ [] := by
    rw [← List.length_pos_iff, List.length_drop]
    omega
  obtain ⟨a, t, ht⟩ := List.exists_cons_of_ne_nil hdrop
  have hnext : s.length + 1 - rank = s.length - rank + 1 := by omega
  refine ⟨a, ?_⟩
  rw [above, below, hnext, ← List.drop_drop, ht]
  exact (List.take_append_drop (s.length - rank) s).symm.trans (congrArg _ ht)

theorem length_below (hpos : 1 ≤ rank) (hrank : rank ≤ s.length) :
    (below rank s).length = rank - 1 := by
  rw [below, List.length_drop]
  omega

theorem length_above (hrank : rank ≤ s.length) : (above rank s).length = s.length - rank := by
  rw [above, List.length_take]
  omega

theorem mem_of_above {c : UInt8} (h : c ∈ above rank s) : c ∈ s := List.mem_of_mem_take h

theorem zero_notMem (hs : ∀ c ∈ s, isDigit c) : 0 ∉ s := fun h => by
  have hzero := (isDigit_iff 0).mp (hs 0 h)
  exact absurd hzero.1 (by decide)

theorem toNat_toSize (hrank : rank < 18446744073709551616) : (toSize rank).toNat = rank := by
  have hmod : ((rank : Int) % 2 ^ 64).toNat = rank := by omega
  rw [toSize, UInt64.ofInt, hmod]
  exact UInt64.toNat_ofNat_of_lt' hrank

theorem toNat_strlen (hlen : s.length < 18446744073709551616) : (strlen s).toNat = s.length :=
  UInt64.toNat_ofNat_of_lt' hlen

theorem toNat_strlen_sub (hrank : rank ≤ s.length) (hlen : s.length < 18446744073709551616) :
    (strlen s - toSize rank).toNat = s.length - rank := by
  have hle : toSize rank ≤ strlen s := by
    rw [UInt64.le_iff_toNat_le, toNat_toSize (by omega), toNat_strlen hlen]
    exact hrank
  rw [UInt64.toNat_sub_of_le _ _ hle, toNat_toSize (by omega), toNat_strlen hlen]

end Digits

section Text

variable {buflen rank : Nat} {min max s : Str} {a b : UInt8}

theorem substr_take (hs : 0 ∉ s) (hshort : s.length < 512) (len : UInt64) :
    substr 512 s 0 len = .ok (s.take (Nat.min len.toNat s.length)) := by
  have hlen : (Min.min len (strlen s - 0)).toNat = Nat.min len.toNat s.length := by
    rw [UInt64.sub_zero, ← toNat_strlen (s := s) (by omega)]
    change (if len ≤ strlen s then len else strlen s).toNat = _
    split
    · rename_i hle
      exact (Nat.min_eq_left (UInt64.le_iff_toNat_le.mp hle)).symm
    · rename_i hle
      rw [UInt64.le_iff_toNat_le] at hle
      exact (Nat.min_eq_right (by omega)).symm
  have htake : (s.take (Nat.min len.toNat s.length)).length ≤ s.length :=
    (List.take_sublist _ _).length_le
  have hsize : (Chars.uninit 512).length = 512 := Chars.length_uninit _
  rw [substr, hlen]
  change ((Chars.uninit 512).strcpy 0 (s.take _)).bind _ = _
  obtain ⟨locBuf, hcopy⟩ : ∃ locBuf, (Chars.uninit 512).strcpy 0
      (s.take (Nat.min len.toNat s.length)) = .ok locBuf := ⟨_, if_pos (by omega)⟩
  have hholds := Chars.holds_of_strcpy_zero (fun h => hs (List.mem_of_mem_take h)) hcopy
  rw [hcopy]
  exact (checkAndReturn_holds hholds).trans (if_pos (by omega))

theorem substr_above (hs : Plain s) (hpos : 1 ≤ rank) (hrank : rank ≤ s.length)
    (hshort : s.length ≤ 19) :
    substr 512 (s.dropWhile (· = 48)) 0 (strlen (s.dropWhile (· = 48)) - toSize rank) =
      .ok (above rank s) := by
  by_cases hhead : s.head? = some 48
  · have hone := hs.head hhead
    obtain ⟨c, hc⟩ := List.length_eq_one_iff.mp hone
    rw [hc, List.head?_cons, Option.some.injEq] at hhead
    have hnil : s.dropWhile (· = 48) = [] := by rw [hc, hhead]; rfl
    have hrank' : rank = 1 := by omega
    rw [hnil, substr_take List.not_mem_nil (by decide), List.take_nil, above, hrank', hone]
    rfl
  · have hsame : s.dropWhile (· = 48) = s := by
      cases s with
      | nil => rfl
      | cons c t =>
        rw [List.dropWhile_cons_of_neg]
        simpa using hhead
    rw [hsame, substr_take (zero_notMem hs.digits) (by omega), toNat_strlen_sub hrank (by omega)]
    congr 2
    exact Nat.min_eq_left (Nat.sub_le _ _)

theorem genPreRank_eq (hmin : Plain min) (hmax : Plain max) (hlen : min.length = max.length)
    (hshort : min.length ≤ 19) (hpos : 1 ≤ rank) (hrank : rank ≤ min.length) :
    genPreRank 512 min max rank =
      if above rank min = above rank max then .ok (above rank min) else .error .fail := by
  have hsize : (Chars.uninit 512).length = 512 := Chars.length_uninit _
  have hcopy {s : Str} (hs : s.length ≤ 19) :
      ∃ locBuf, (Chars.uninit 512).strcpy 0 (above rank s) = .ok locBuf := by
    have hle : (above rank s).length ≤ s.length := (List.take_sublist _ _).length_le
    exact ⟨_, if_pos (by omega)⟩
  have hzero {s : Str} (hs : Plain s) : 0 ∉ above rank s := fun h =>
    zero_notMem hs.digits (mem_of_above h)
  obtain ⟨locBuf, hlocBuf⟩ := hcopy hshort
  obtain ⟨locBufMax, hlocBufMax⟩ := @hcopy max (by omega)
  have hholds := Chars.holds_of_strcpy_zero (hzero hmin) hlocBuf
  have hholdsMax := Chars.holds_of_strcpy_zero (hzero hmax) hlocBufMax
  have hfits : (above rank min).length ≤ 512 := by
    rw [length_above hrank]
    omega
  rw [genPreRank]
  simp only [substr_above hmin hpos hrank hshort, hlocBuf, ok_bind, hholds.cString,
    substr_above hmax hpos (by omega : rank ≤ max.length) (by omega), hlocBufMax,
    hholdsMax.cString]
  rw [checkAndReturn_holds hholds, if_pos hfits, ite_not]

theorem charAt_rank {pre suf : Str} (hlen : pre.length + (suf.length + 1) < 18446744073709551616) :
    charAt (pre ++ a :: suf) (strlen (pre ++ a :: suf) - toSize (suf.length + 1 : Nat)) =
      .ok a := by
  have hall : (pre ++ a :: suf).length = pre.length + (suf.length + 1) := List.length_append
  have hplace := @toNat_strlen_sub (pre ++ a :: suf) (suf.length + 1) (by omega) (by omega)
  have hread : ((pre ++ a :: suf).map some ++ [some 0])[pre.length]? = some (some a) := by
    rw [List.map_append, List.append_assoc, List.map_cons, List.cons_append,
      List.getElem?_append_right (by rw [List.length_map]), List.length_map, Nat.sub_self]
    rfl
  rw [charAt, hplace, hall, Nat.add_sub_cancel, Chars.read, hread]

theorem isDigit_ne_zero (ha : isDigit a) : a ≠ 0 := fun h => by
  rw [h] at ha
  exact absurd ha (by decide)

theorem rankText_short (ha : isDigit a) (hb : isDigit b) :
    0 ∉ rankText a b ∧ (rankText a b).length ≤ 5 := by
  have hna := (isDigit_ne_zero ha).symm
  have hnb := (isDigit_ne_zero hb).symm
  rw [rankText]
  split
  · decide
  · split
    · exact ⟨by simpa using hna, (by decide : 1 ≤ 5)⟩
    · split
      · exact ⟨by simp [ascii, hna, hnb], (by decide : 4 ≤ 5)⟩
      · exact ⟨by simp [ascii, hna, hnb], (by decide : 5 ≤ 5)⟩

theorem genRank_eq {pre suf pre' suf' : Str} (ha : isDigit a) (hb : isDigit b)
    (hlen : pre.length + (suf.length + 1) ≤ 19) (hlen' : pre'.length + (suf.length + 1) ≤ 19)
    (hsuf : suf'.length = suf.length) (hbuf : 5 ≤ buflen) :
    genRank buflen (pre ++ a :: suf) (pre' ++ b :: suf') (suf.length + 1 : Nat) =
      .ok (rankText (if a < b then a else b) (if a > b then a else b)) := by
  have hmin := @charAt_rank a pre suf (by omega)
  have hmax := @charAt_rank b pre' suf' (by omega)
  rw [hsuf] at hmax
  obtain ⟨hzero, hshort⟩ := rankText_short (a := if a < b then a else b)
    (b := if a > b then a else b) (by split <;> assumption) (by split <;> assumption)
  have hsize : (Chars.uninit 512).length = 512 := Chars.length_uninit _
  obtain ⟨locBuf, hcopy⟩ : ∃ locBuf, (Chars.uninit 512).strcpy 0
      (rankText (if a < b then a else b) (if a > b then a else b)) = .ok locBuf :=
    ⟨_, if_pos (by omega)⟩
  have hholds := Chars.holds_of_strcpy_zero hzero hcopy
  rw [rankText] at hcopy
  rw [genRank]
  simp only [hmin, hmax, ok_bind, hcopy]
  rw [checkAndReturn_holds hholds, if_pos (by omega)]

theorem postText_short (hrank : rank ≤ 19) : 0 ∉ postText rank ∧ (postText rank).length ≤ 6 := by
  rw [postText]
  split
  · decide
  · split
    · decide
    · have hlen : (printNat (rank - 1)).length ≤ 2 := length_printNat_le (by omega)
      have hzero : 0 ∉ printNat (rank - 1) := zero_notMem isDigit_of_mem
      rw [List.length_append, List.length_append]
      refine ⟨by simp [ascii, hzero], ?_⟩
      have h3 : (ascii "\\d\x7b").length = 3 := rfl
      have h1 : (ascii "\x7d").length = 1 := rfl
      omega

theorem genPostRank_eq (hrank : rank ≤ 19) (hbuf : 6 ≤ buflen) :
    genPostRank buflen rank = .ok (postText rank) := by
  obtain ⟨hzero, hshort⟩ := postText_short hrank
  have hsize : (Chars.uninit 512).length = 512 := Chars.length_uninit _
  have htext : postText rank = if (rank : Int) ≤ 1 then []
      else if (rank : Int) = 2 then ascii "\\d"
      else ascii "\\d\x7b" ++ printInt (rank - 1) ++ ascii "\x7d" := by
    rw [postText]
    split
    · rw [if_pos (by omega)]
    · split
      · rw [if_neg (by omega), if_pos (by omega)]
      · rw [if_neg (by omega), if_neg (by omega), printInt, if_neg (by omega)]
        congr 4
        omega
  obtain ⟨locBuf, hcopy⟩ : ∃ locBuf, (Chars.uninit 512).strcpy 0 (postText rank) = .ok locBuf :=
    ⟨_, if_pos (by omega)⟩
  have hholds := Chars.holds_of_strcpy_zero hzero hcopy
  rw [htext] at hcopy
  rw [genPostRank]
  simp only [hcopy, ok_bind]
  rw [checkAndReturn_holds hholds, if_pos (by omega)]

def blockText (pre : Str) (a b : UInt8) (rank : Nat) : Str :=
  pre ++ rankText (if a < b then a else b) (if a > b then a else b) ++ postText rank

theorem blockText_short {pre : Str} (hpre : ∀ c ∈ pre, isDigit c) (ha : isDigit a)
    (hb : isDigit b) (hlen : pre.length ≤ 18) (hrank : rank ≤ 19) :
    0 ∉ blockText pre a b rank ∧ (blockText pre a b rank).length ≤ 29 := by
  obtain ⟨hzero, hshort⟩ := rankText_short (a := if a < b then a else b)
    (b := if a > b then a else b) (by split <;> assumption) (by split <;> assumption)
  obtain ⟨hzero', hshort'⟩ := postText_short hrank
  rw [blockText, List.length_append, List.length_append]
  exact ⟨List.not_mem_append (List.not_mem_append (zero_notMem hpre) hzero) hzero', by omega⟩

theorem genAtRank_eq (hmin : Plain min) (hmax : Plain max) (hlen : min.length = max.length)
    (hshort : min.length ≤ 19) (hpos : 1 ≤ rank) (hrank : rank ≤ min.length)
    (hbuf : digitRegSize ≤ buflen) (ha : min = above rank min ++ a :: below rank min)
    (hb : max = above rank max ++ b :: below rank max) :
    genAtRank buflen min max rank =
      if above rank min = above rank max then .ok (blockText (above rank min) a b rank)
      else .error .fail := by
  rw [genAtRank, genPreRank_eq hmin hmax hlen hshort hpos hrank]
  split
  · have hdigit : isDigit a := hmin.digits a (by rw [ha]; simp)
    have hdigit' : isDigit b := hmax.digits b (by rw [hb]; simp)
    have hlow := length_below hpos hrank
    have hlow' := length_below (s := max) hpos (by omega)
    have htop := length_above hrank
    have htop' : (above rank max).length = max.length - rank := length_above (by omega)
    have hrank' : (below rank min).length + 1 = rank := by omega
    have hsize : (Chars.uninit 512).length = 512 := Chars.length_uninit _
    obtain ⟨hrankZero, hrankShort⟩ := rankText_short (a := if a < b then a else b)
      (b := if a > b then a else b) (by split <;> assumption) (by split <;> assumption)
    obtain ⟨hpostZero, hpostShort⟩ := postText_short (by omega : rank ≤ 19)
    have hpre : ∀ c ∈ above rank min, isDigit c := fun c hc => hmin.digits c (mem_of_above hc)
    have hgenRank {n : Nat} (hn : 5 ≤ n) : genRank n min max rank =
        .ok (rankText (if a < b then a else b) (if a > b then a else b)) := by
      have hgen := genRank_eq hdigit hdigit' (by omega : (above rank min).length + _ ≤ 19)
        (by omega : (above rank max).length + _ ≤ 19) (hlow'.trans hlow.symm) hn
      rwa [hrank', ← ha, ← hb] at hgen
    obtain ⟨copied, hcopy⟩ : ∃ locBuf, (Chars.uninit 512).strcpy 0 (above rank min) = .ok locBuf :=
      ⟨_, if_pos (by omega)⟩
    have hholds := Chars.holds_of_strcpy_zero (zero_notMem hpre) hcopy
    have hlength := Chars.length_of_strcpy hcopy
    obtain ⟨ranked, hranked, hlength', hholds'⟩ :=
      @Chars.Holds.fill _ _ _ (fun n => genRank n min max rank) hholds hrankZero
        (hgenRank (by omega)) (by omega)
    obtain ⟨posted, hposted, -, hholds''⟩ :=
      @Chars.Holds.fill _ _ _ (fun n => genPostRank n rank) hholds' hpostZero
        (genPostRank_eq (by omega) (by rw [List.length_append]; omega))
        (by rw [List.length_append]; omega)
    have hblock := (blockText_short hpre hdigit hdigit' (by omega) (by omega : rank ≤ 19)).2
    simp only [ok_bind, hcopy, hranked, hposted]
    exact (checkAndReturn_holds hholds'').trans (if_pos (by
      have hd : digitRegSize = 128 := rfl
      rw [blockText] at hblock
      omega))
  · rfl

end Text

section Language

variable {rank : Nat} {a b : UInt8} {pre s t w : Str}

theorem leaves_seq_empty {r : Regexp} : (Regexp.seq r .empty).Leaves s [] ↔ r.Leaves s [] :=
  ⟨fun ⟨_, h, hend⟩ => (show [] = _ from hend) ▸ h, fun h => ⟨[], h, rfl⟩⟩

theorem parseItem_char (ha : isDigit a) (ht : t.head? ≠ some 45) :
    Regexp.parseItem (a :: t) = some ((a, a), t) := by
  have hspecial := notMem_special ha
  unfold Regexp.parseItem
  split
  · rename_i heq
    exact absurd (by rw [(List.cons.inj heq).1]; decide) hspecial
  · rename_i heq
    obtain ⟨rfl, rfl⟩ := List.cons.inj heq
    rw [if_neg (by rintro (rfl | rfl | rfl) <;> exact hspecial (by decide))]
    split
    · exact absurd rfl ht
    · rfl
  · rename_i heq
    cases heq

theorem parseItem_range (ha : isDigit a) (hb : isDigit b) :
    Regexp.parseItem (a :: 45 :: b :: t) = some ((a, b), t) := by
  have hspecial := notMem_special ha
  have hdigit := (isDigit_iff b).mp hb
  unfold Regexp.parseItem
  split
  · rename_i heq
    exact absurd (by rw [(List.cons.inj heq).1]; decide) hspecial
  · rename_i heq
    obtain ⟨rfl, rfl⟩ := List.cons.inj heq
    rw [if_neg (by rintro (rfl | rfl | rfl) <;> exact hspecial (by decide))]
    exact if_neg fun h => absurd (UInt8.le_iff_toNat_le.mp h.1) (Nat.not_le_of_gt (by
      have h91 : (91 : UInt8).toNat = 91 := rfl
      omega))
  · rename_i heq
    cases heq

theorem parseClass_one {item : UInt8 × UInt8} {fuel : Nat}
    (h : Regexp.parseItem s = some (item, 93 :: t)) :
    Regexp.parseClass (fuel + 1) s = some ([item], t) := by
  rw [Regexp.parseClass, h]
  rfl

theorem parseClass_two {item item' : UInt8 × UInt8} {fuel : Nat} (hb : isDigit b)
    (h : Regexp.parseItem s = some (item, b :: t))
    (h' : Regexp.parseItem (b :: t) = some (item', 93 :: w)) :
    Regexp.parseClass (fuel + 2) s = some ([item, item'], w) := by
  have hspecial := notMem_special hb
  rw [Regexp.parseClass, h]
  simp only [Option.bind_eq_bind, Option.bind_some]
  split
  · rename_i heq
    exact absurd (by rw [(List.cons.inj heq).1]; decide) hspecial
  · rw [parseClass_one h']
    rfl

structure ReadsClass (text : Str) (a b : UInt8) (ranges : List (UInt8 × UInt8)) : Prop where
  unquantified : ∀ r t, Regexp.parseQuantifier r (text ++ t) = some (r, text ++ t)
  parse : ∃ c s, text = c :: s ∧ ¬ (c = 41 ∨ c = 124) ∧ ∀ fuel t,
    Regexp.parseAtom (fuel + 1) c (s ++ t) = some (.chars ranges, t)
  inRanges : ∀ c, Regexp.InRanges ranges c ↔ a ≤ c ∧ c ≤ b

theorem inRanges_pair (h : b.toNat = a.toNat + 1) (c : UInt8) :
    Regexp.InRanges [(a, a), (b, b)] c ↔ a ≤ c ∧ c ≤ b := by
  simp only [Regexp.InRanges, List.mem_cons, List.not_mem_nil, or_false, exists_eq_or_imp,
    exists_eq_left, UInt8.le_iff_toNat_le]
  omega

theorem inRanges_range (c : UInt8) : Regexp.InRanges [(a, b)] c ↔ a ≤ c ∧ c ≤ b := by
  simp only [Regexp.InRanges, List.mem_singleton, exists_eq_left]

theorem exists_readsClass (ha : isDigit a) (hb : isDigit b) :
    ∃ ranges, ReadsClass (rankText a b) a b ranges := by
  rw [rankText]
  split
  · rename_i hall
    obtain ⟨rfl, rfl⟩ := hall
    exact ⟨[Regexp.digits], fun _ _ => rfl, ⟨92, ascii "d", rfl, by decide,
      fun _ _ => Regexp.parseAtom_escape rfl⟩, inRanges_range⟩
  · split
    · rename_i heq
      subst heq
      have hspecial := notMem_special ha
      refine ⟨[(a, a)], fun _ _ => Regexp.parseQuantifier_lit hspecial, ⟨a, [], rfl, ?_,
        fun _ _ => Regexp.parseAtom_lit hspecial⟩, inRanges_range⟩
      rintro (rfl | rfl) <;> exact hspecial (by decide)
    · have hnext : ∀ t : Str, (b :: t).head? ≠ some 45 := fun t h => by
        have hfirst : b = 45 := Option.some.inj h
        rw [hfirst] at hb
        exact absurd hb (by decide)
      split
      · rename_i hsucc
        refine ⟨[(a, a), (b, b)], fun _ _ => rfl, ⟨91, a :: b :: ascii "]", rfl, by decide,
          fun fuel t => Regexp.parseAtom_class ?_⟩, inRanges_pair hsucc⟩
        have hclose : (93 :: t).head? ≠ some 45 := by simp
        exact parseClass_two hb (parseItem_char ha (hnext _)) (parseItem_char hb hclose)
      · refine ⟨[(a, b)], fun _ _ => rfl, ⟨91, a :: 45 :: b :: ascii "]", rfl, by decide,
          fun fuel t => Regexp.parseAtom_class ?_⟩, inRanges_range⟩
        exact parseClass_one (parseItem_range ha hb)

theorem inRanges_digits_iff {u : Str} :
    (∀ c ∈ u, Regexp.InRanges [Regexp.digits] c) ↔ ∀ c ∈ u, isDigit c :=
  forall₂_congr fun _ _ => Regexp.inRanges_digits

theorem parse_postText (rank : Nat) : ∃ r,
    (∀ fuel, Regexp.parseSeq (fuel + 2) (postText rank) = some (r, [])) ∧
      ∀ s, r.Leaves s [] ↔ s.length = rank - 1 ∧ ∀ c ∈ s, isDigit c := by
  have hdigit (fuel : Nat) (t : Str) : Regexp.parseAtom (fuel + 1) 92 (100 :: t) =
      some (.chars [Regexp.digits], t) := Regexp.parseAtom_escape rfl
  rw [postText]
  split
  · refine ⟨.empty, fun _ => rfl, fun s => ?_⟩
    rw [show rank - 1 = 0 by omega, List.length_eq_zero_iff]
    constructor
    · intro h
      exact ⟨Eq.symm h, fun c hc => absurd (Eq.symm h ▸ hc) List.not_mem_nil⟩
    · rintro ⟨rfl, -⟩
      rfl
  · split
    · refine ⟨.seq (.chars [Regexp.digits]) .empty,
        fun fuel => Regexp.parseSeq_cons (by decide) (hdigit fuel []) rfl, fun s => ?_⟩
      rw [show rank - 1 = 1 by omega, leaves_seq_empty]
      constructor
      · rintro ⟨c, rfl, hc⟩
        exact ⟨rfl, List.forall_mem_singleton.mpr (Regexp.inRanges_digits.mp hc)⟩
      · rintro ⟨hlen, hs⟩
        obtain ⟨c, rfl⟩ := List.length_eq_one_iff.mp hlen
        exact ⟨c, rfl, Regexp.inRanges_digits.mpr (hs c (List.mem_singleton_self c))⟩
    · have hnumber : scanNat (printNat (rank - 1) ++ ascii "\x7d") =
          some (digitsValue (printNat (rank - 1)), ascii "\x7d") := by
        refine scanNat_digits (printNat_ne_nil _) isDigit_of_mem fun c hc => ?_
        rw [← Option.some.inj hc]
        decide
      have hquant : Regexp.parseQuantifier (.chars [Regexp.digits])
          (123 :: (printNat (rank - 1) ++ ascii "\x7d")) =
            some (.times (.chars [Regexp.digits]) (rank - 1), []) := by
        rw [Regexp.parseQuantifier, hnumber, digitsValue_printNat]
        rfl
      refine ⟨.seq (.times (.chars [Regexp.digits]) (rank - 1)) .empty,
        fun fuel => Regexp.parseSeq_cons (by decide) (hdigit fuel _) hquant, fun s => ?_⟩
      rw [leaves_seq_empty, Regexp.leaves_times]
      constructor
      · rintro ⟨u, rfl, hlen, hu⟩
        rw [List.append_nil]
        exact ⟨hlen, inRanges_digits_iff.mp hu⟩
      · rintro ⟨hlen, hs⟩
        exact ⟨s, (List.append_nil s).symm, hlen, inRanges_digits_iff.mpr hs⟩

theorem parseQuantifier_postText (r : Regexp) (rank : Nat) :
    Regexp.parseQuantifier r (postText rank) = some (r, postText rank) := by
  rw [postText]
  split
  · rfl
  · split
    · rfl
    · rfl

/-- The fragment accepts a digit of the class and any lower ones, behind the common digits. -/
theorem accepts_blockText (hpre : ∀ c ∈ pre, isDigit c) (ha : isDigit a) (hb : isDigit b)
    (hle : a ≤ b) : Regexp.Accepts (blockText pre a b rank) w ↔
      ∃ c u, w = pre ++ c :: u ∧ (a ≤ c ∧ c ≤ b) ∧ u.length = rank - 1 ∧ ∀ d ∈ u, isDigit d := by
  have hmin : (if a < b then a else b) = a := by
    split
    · rfl
    · rename_i hlt
      exact UInt8.le_antisymm (UInt8.not_lt.mp hlt) hle
  have hmax : (if a > b then a else b) = b := if_neg (UInt8.not_lt.mpr hle)
  obtain ⟨ranges, hreads⟩ := exists_readsClass ha hb
  obtain ⟨c, s, htext, hopen, hatom⟩ := hreads.parse
  obtain ⟨r, hpost, hleaves⟩ := parse_postText rank
  have hlength : (blockText pre a b rank).length =
      pre.length + (s.length + (postText rank).length + 1) := by
    rw [blockText, hmin, hmax, htext, List.length_append, List.length_append, List.length_cons]
    omega
  have hparse : Regexp.ofText (blockText pre a b rank) =
      some (Regexp.lits pre (.seq (.chars ranges) r)) := by
    have hseq : Regexp.parseSeq (s.length + (postText rank).length + 3)
        (rankText a b ++ postText rank) = some (.seq (.chars ranges) r, []) := by
      rw [htext]
      exact (Regexp.parseSeq_cons hopen (hatom _ _) (parseQuantifier_postText _ rank)).trans
        (congrArg _ (hpost _))
    have hlits := Regexp.parseSeq_lits (fun d hd => notMem_special (hpre d hd))
      (fun r => hreads.unquantified r (postText rank))
      (Nat.succ_pos (s.length + (postText rank).length + 2))
    rw [hseq] at hlits
    have halt : Regexp.parseAlt (pre.length + (s.length + (postText rank).length + 1) + 3)
        (pre ++ (rankText a b ++ postText rank)) =
          some (Regexp.lits pre (.seq (.chars ranges) r), []) := Regexp.parseAlt_seq hlits nofun
    rw [Regexp.ofText, hlength, blockText, hmin, hmax, List.append_assoc, halt]
  rw [Regexp.Accepts, hparse]
  constructor
  · rintro ⟨r', hr', h⟩
    rw [← Option.some.inj hr', Regexp.leaves_lits] at h
    obtain ⟨v, rfl, u, ⟨d, rfl, hd⟩, hu⟩ := h
    exact ⟨d, u, rfl, (hreads.inRanges d).mp hd, (hleaves u).mp hu⟩
  · rintro ⟨d, u, rfl, hd, hu⟩
    exact ⟨_, rfl, Regexp.leaves_lits.mpr ⟨d :: u, rfl, u, ⟨d, rfl, (hreads.inRanges d).mpr hd⟩,
      (hleaves u).mpr hu⟩⟩

end Language

section Numbers

variable {a b c : UInt8} {pre lo hi u w : Str}

theorem digitsValue_block (pre : Str) (c : UInt8) (u : Str) :
    digitsValue (pre ++ c :: u) =
      digitsValue pre * 10 ^ (u.length + 1) + ((c.toNat - 48) * 10 ^ u.length + digitsValue u) := by
  rw [digitsValue_append, digitsValue_cons, List.length_cons]

theorem isDigit_of_between (ha : isDigit a) (hb : isDigit b) (hc : a ≤ c ∧ c ≤ b) : isDigit c := by
  rw [isDigit_iff] at ha hb ⊢
  rw [UInt8.le_iff_toNat_le, UInt8.le_iff_toNat_le] at hc
  omega

theorem plain_block (hmin : Plain (pre ++ a :: lo)) (hc : isDigit c) (hle : a ≤ c)
    (hu : ∀ d ∈ u, isDigit d) (hlen : u.length = lo.length) : Plain (pre ++ c :: u) where
  digits := by
    intro d hd
    rcases List.mem_append.mp hd with hd | hd
    · exact hmin.digits d (List.mem_append_left _ hd)
    · rcases List.mem_cons.mp hd with rfl | hd
      · exact hc
      · exact hu d hd
  head := by
    intro hzero
    have hsame : (pre ++ c :: u).length = (pre ++ a :: lo).length := by
      rw [List.length_append, List.length_append, List.length_cons, List.length_cons, hlen]
    refine hsame.trans (hmin.head ?_)
    cases pre with
    | nil =>
      have hfirst : c = 48 := Option.some.inj hzero
      have hdigit := (isDigit_iff a).mp (hmin.digits a List.mem_cons_self)
      rw [hfirst, UInt8.le_iff_toNat_le, show (48 : UInt8).toNat = 48 from rfl] at hle
      exact congrArg some (UInt8.toNat_inj.mp (Nat.le_antisymm hle hdigit.1))
    | cons d pre => exact hzero

/-- The texts of a block are the decimals of its numbers. -/
theorem block_iff (hmin : Plain (pre ++ a :: lo)) (hb : isDigit b) (hlo : ∀ d ∈ lo, d = 48)
    (hhi : ∀ d ∈ hi, d = 57) (hlen : hi.length = lo.length) :
    (∃ c u, w = pre ++ c :: u ∧ (a ≤ c ∧ c ≤ b) ∧ u.length = lo.length ∧ ∀ d ∈ u, isDigit d) ↔
      ∃ n, digitsValue (pre ++ a :: lo) ≤ n ∧ n ≤ digitsValue (pre ++ b :: hi) ∧
        w = printNat n := by
  have hnines := digitsValue_nines hhi
  have ha : isDigit a := hmin.digits a (List.mem_append_right _ List.mem_cons_self)
  have haNat := (isDigit_iff a).mp ha
  have hbNat := (isDigit_iff b).mp hb
  rw [hlen] at hnines
  rw [digitsValue_block, digitsValue_block, digitsValue_zeros hlo, hlen]
  constructor
  · rintro ⟨c, u, rfl, hc, hu, hdigits⟩
    have hcDigit := isDigit_of_between ha hb hc
    have hplain := plain_block hmin hcDigit hc.1 hdigits hu
    have hbound := digitsValue_lt hdigits
    have hlow : (a.toNat - 48) * 10 ^ lo.length ≤ (c.toNat - 48) * 10 ^ lo.length :=
      Nat.mul_le_mul_right _ (Nat.sub_le_sub_right (UInt8.le_iff_toNat_le.mp hc.1) 48)
    have hhigh : (c.toNat - 48) * 10 ^ lo.length ≤ (b.toNat - 48) * 10 ^ lo.length :=
      Nat.mul_le_mul_right _ (Nat.sub_le_sub_right (UInt8.le_iff_toNat_le.mp hc.2) 48)
    refine ⟨digitsValue (pre ++ c :: u), ?_, ?_, ?_⟩
    · rw [digitsValue_block, hu]
      omega
    · rw [hu] at hbound
      rw [digitsValue_block, hu]
      omega
    · exact (hplain.printNat_digitsValue (by simp)).symm
  · rintro ⟨n, hge, hle, rfl⟩
    obtain ⟨m, rfl⟩ : ∃ m, n = digitsValue pre * 10 ^ (lo.length + 1) + m :=
      Nat.exists_eq_add_of_le (by omega)
    have hpow : 0 < 10 ^ lo.length := Nat.pow_pos (by decide)
    have hlow : a.toNat - 48 ≤ m / 10 ^ lo.length := by
      rw [Nat.le_div_iff_mul_le hpow]
      omega
    have hhigh : m / 10 ^ lo.length < b.toNat - 48 + 1 := by
      rw [Nat.div_lt_iff_lt_mul hpow, Nat.succ_mul]
      omega
    obtain ⟨u, hu, hdigits, hvalue⟩ := exists_digits (Nat.mod_lt m hpow)
    have hcNat : (digit (m / 10 ^ lo.length)).toNat = 48 + m / 10 ^ lo.length :=
      toNat_digit (by omega)
    have hc : a ≤ digit (m / 10 ^ lo.length) ∧ digit (m / 10 ^ lo.length) ≤ b := by
      rw [UInt8.le_iff_toNat_le, UInt8.le_iff_toNat_le, hcNat]
      omega
    have hplain := plain_block hmin (isDigit_of_between ha hb hc) hc.1 hdigits hu
    refine ⟨_, u, ?_, hc, hu, hdigits⟩
    rw [← hplain.printNat_digitsValue (by simp), digitsValue_block, hu, hvalue, hcNat,
      Nat.add_sub_cancel_left, Nat.div_add_mod']

end Numbers

section Block

variable {buflen rank : Nat} {min max : Str}

/-- The fragment of a block is generated exactly when the two numbers have the same digits above
the rank. When the block goes from zeros to nines below it, the fragment accepts the decimals of
the block. -/
theorem genAtRank_exact (hmin : Plain min) (hmax : Plain max) (hlen : min.length = max.length)
    (hshort : min.length ≤ 19) (hpos : 1 ≤ rank) (hrank : rank ≤ min.length)
    (hbuf : digitRegSize ≤ buflen) :
    ((∃ regexp, genAtRank buflen min max rank = .ok regexp) ↔ above rank min = above rank max) ∧
      (above rank min ≠ above rank max → genAtRank buflen min max rank = .error .fail) ∧
      (above rank min = above rank max → digitsValue min ≤ digitsValue max →
        (∀ c ∈ below rank min, c = 48) → (∀ c ∈ below rank max, c = 57) →
        ∃ regexp, genAtRank buflen min max rank = .ok regexp ∧ ∀ w, Regexp.Accepts regexp w ↔
          ∃ n, digitsValue min ≤ n ∧ n ≤ digitsValue max ∧ w = printNat n) := by
  obtain ⟨a, ha⟩ := exists_digit min hpos hrank
  obtain ⟨b, hb⟩ := exists_digit max hpos (hlen ▸ hrank)
  have hgen := genAtRank_eq hmin hmax hlen hshort hpos hrank hbuf ha hb
  refine ⟨⟨?_, fun heq => ⟨_, hgen.trans (if_pos heq)⟩⟩, fun hne => hgen.trans (if_neg hne), ?_⟩
  · rintro ⟨regexp, hok⟩
    by_contra hne
    rw [hgen, if_neg hne] at hok
    cases hok
  · intro heq hle hzeros hnines
    refine ⟨_, hgen.trans (if_pos heq), fun w => ?_⟩
    have hdigit : isDigit a := hmin.digits a (by rw [ha]; simp)
    have hdigit' : isDigit b := hmax.digits b (by rw [hb]; simp)
    have hlow := length_below hpos hrank
    have hlow' := length_below (s := max) hpos (by omega)
    have hvalue := digitsValue_block (above rank min) a (below rank min)
    have hvalue' := digitsValue_block (above rank max) b (below rank max)
    have hbound := digitsValue_nines hnines
    rw [← ha, digitsValue_zeros hzeros, hlow] at hvalue
    rw [← hb, ← heq, hlow'] at hvalue'
    rw [hlow'] at hbound
    have horder : a ≤ b := by
      have hlt : (a.toNat - 48) * 10 ^ (rank - 1) < (b.toNat - 48 + 1) * 10 ^ (rank - 1) := by
        rw [Nat.succ_mul]
        omega
      have hdiff := Nat.lt_of_mul_lt_mul_right hlt
      have haNat := (isDigit_iff a).mp hdigit
      have hbNat := (isDigit_iff b).mp hdigit'
      rw [UInt8.le_iff_toNat_le]
      omega
    have hpre : ∀ c ∈ above rank min, isDigit c := fun c hc => hmin.digits c (mem_of_above hc)
    rw [accepts_blockText hpre hdigit hdigit' horder, ← hlow,
      block_iff (ha ▸ hmin) hdigit' hzeros hnines (hlow'.trans hlow.symm), heq, ← hb, ← heq, ← ha]

/-- The block from 120 to 179: `1[2-7]\d`. -/
theorem genAtRank_exact_tens : ∃ regexp,
    genAtRank digitRegSize (ascii "120") (ascii "179") 2 = .ok regexp ∧
      ∀ w, Regexp.Accepts regexp w ↔ ∃ n, 120 ≤ n ∧ n ≤ 179 ∧ w = printNat n :=
  (@genAtRank_exact digitRegSize 2 (ascii "120") (ascii "179")
    ⟨by decide +kernel, by decide⟩ ⟨by decide +kernel, by decide⟩ rfl (by decide) (by decide)
    (by decide) le_rfl).2.2 (by decide) (by decide) (by decide +kernel) (by decide +kernel)

end Block

/-- What is promised of the next block: its end has the digits of the minimum above the rank, and
below it the block goes from zeros to nines. -/
structure NextBlock (min max : Int) (block : NextMax) : Prop where
  min_le : min ≤ block.max
  le_max : block.max ≤ max
  length_eq : (longtoa 32 min).length = (longtoa 32 block.max).length
  rank_pos : 1 ≤ block.rank
  above_eq : above block.rank.toNat (longtoa 32 min) =
    above block.rank.toNat (longtoa 32 block.max)
  zeros : ∀ c ∈ below block.rank.toNat (longtoa 32 min), c = 48
  nines : ∀ c ∈ below block.rank.toNat (longtoa 32 block.max), c = 57

/-- `nextMax` ends with the next block, and the blocks reach the maximum before their list is
full. -/
def Advances (min max : Int) : Prop :=
  (∃ fuel block, nextMax fuel (longtoa 32 min) (longtoa 32 max) = .ok block ∧
    NextBlock min max block) ∧
  ∃ fuel regList, genBlocks max fuel min [] = .ok regList ∧ regList.length < maxSubReg

section Next

variable {fuel k : Nat} {s : Str} {b : Chars}

/-- The body of the first loop of `nextMax`. -/
def copyBack (s : Str) (i : UInt64) (rev : Chars) : Checked Chars := do
  rev.write (strlen s - i - 1).toNat (← charAt s i)

theorem toNat_ofNat (hk : k < 32) : (UInt64.ofNat k).toNat = k :=
  UInt64.toNat_ofNat_of_lt' (by
    have hsize : UInt64.size = 18446744073709551616 := rfl
    omega)

theorem copyBack_ok (hk : k < s.length) (hs : s.length < 32) (hb : b.length = 32) :
    ∃ b', copyBack s (UInt64.ofNat k) b = .ok b' ∧ b'.length = 32 := by
  have hread : charAt s (UInt64.ofNat k) = .ok s[k] := by
    have hmap : ((s.map some ++ [some 0]) : Chars)[k]? = some (some s[k]) := by
      rw [List.getElem?_append_left (by rwa [List.length_map]), List.getElem?_map,
        List.getElem?_eq_getElem hk]
      rfl
    rw [charAt, toNat_ofNat (by omega), Chars.read, hmap]
  have hplace : (strlen s - UInt64.ofNat k - 1).toNat < 32 := by
    have hle : UInt64.ofNat k ≤ strlen s := by
      rw [UInt64.le_iff_toNat_le, toNat_ofNat (by omega), toNat_strlen (by omega)]
      omega
    have hsub := UInt64.toNat_sub_of_le _ _ hle
    rw [toNat_ofNat (by omega), toNat_strlen (by omega)] at hsub
    have hone : 1 ≤ strlen s - UInt64.ofNat k := by
      rw [UInt64.le_iff_toNat_le, hsub]
      change 1 ≤ s.length - k
      omega
    rw [UInt64.toNat_sub_of_le _ _ hone, hsub]
    omega
  refine ⟨b.set (strlen s - UInt64.ofNat k - 1).toNat (some s[k]), ?_, ?_⟩
  · rw [copyBack, hread]
    exact if_pos (by omega)
  · rw [List.length_set, hb]

theorem copyBack_bounds (hs : s.length < 32) : copyBack s (0 - 1) b = .error .bounds := by
  have hread : charAt s (0 - 1) = .error .bounds := by
    have hplace : ((0 : UInt64) - 1).toNat = 18446744073709551615 := rfl
    rw [charAt, hplace, Chars.read, List.getElem?_eq_none (by
      rw [List.length_append, List.length_map, List.length_singleton]
      omega)]
  rw [copyBack, hread]
  rfl

/-- The loop goes on with the counter below zero. -/
theorem forDown_copyBack (hk : k < s.length) (hs : s.length < 32) (hb : b.length = 32)
    (hfuel : k + 2 ≤ fuel) : forDown (copyBack s) fuel (UInt64.ofNat k) b = .error .bounds := by
  have hcond (i : UInt64) : i ≥ 0 := UInt64.le_iff_toNat_le.mpr (Nat.zero_le _)
  induction k generalizing fuel b with
  | zero =>
    obtain ⟨fuel, rfl⟩ := Nat.exists_eq_add_of_le' hfuel
    obtain ⟨b', hb', hlen⟩ := copyBack_ok hk hs hb
    rw [forDown, if_pos (hcond _), hb']
    change forDown (copyBack s) (fuel + 1) (0 - 1) b' = _
    rw [forDown, if_pos (hcond _), copyBack_bounds hs]
    rfl
  | succ k ih =>
    obtain ⟨fuel, rfl⟩ := Nat.exists_eq_add_of_le' (Nat.le_trans (by omega : 1 ≤ k + 1 + 2) hfuel)
    obtain ⟨b', hb', hlen⟩ := copyBack_ok hk hs hb
    have hnext : UInt64.ofNat (k + 1) - 1 = UInt64.ofNat k := by
      rw [UInt64.ofNat_add]
      exact UInt64.add_sub_cancel _ _
    rw [forDown, if_pos (hcond _), hb']
    change forDown (copyBack s) fuel (UInt64.ofNat (k + 1) - 1) b' = _
    rw [hnext]
    exact ih (by omega) hlen (by omega)

theorem length_longtoa (n : Int) : 0 < (longtoa 32 n).length ∧ (longtoa 32 n).length < 32 := by
  have hne : printInt n ≠ [] := by
    rw [printInt]
    split
    · exact List.cons_ne_nil _ _
    · exact printNat_ne_nil _
  have hpos := List.length_pos_iff.mpr hne
  rw [longtoa, List.length_take]
  omega

theorem nextMax_bounds (min max : Int) (hfuel : 32 ≤ fuel) :
    nextMax fuel (longtoa 32 min) (longtoa 32 max) = .error .bounds := by
  obtain ⟨hpos, hlt⟩ := length_longtoa min
  have hlast : strlen (longtoa 32 min) - 1 = UInt64.ofNat ((longtoa 32 min).length - 1) := by
    rw [strlen, ← Nat.sub_add_cancel hpos, UInt64.ofNat_add]
    exact UInt64.add_sub_cancel _ _
  have hloop := forDown_copyBack (by omega) hlt (Chars.length_uninit 32)
    (by omega : (longtoa 32 min).length - 1 + 2 ≤ fuel)
  rw [← hlast] at hloop
  rw [nextMax]
  change (forDown (copyBack (longtoa 32 min)) fuel _ _ >>= _) = _
  rw [hloop]
  rfl

theorem not_advances (min max : Int) : ¬ Advances min max := by
  rintro ⟨⟨fuel, block, hok, -⟩, -⟩
  obtain ⟨e, he, -⟩ := nextMax_stuck fuel (longtoa 32 min) (longtoa 32 max)
  rw [he] at hok
  cases hok

/-- For no bounds `nextMax` has a result: its first loop, whose counter has no sign, reads what
stands before the digits of the minimum. Nor does the loop over the blocks end. -/
theorem nextMax_never (min max : Int) :
    (∀ fuel ≥ 32, nextMax fuel (longtoa 32 min) (longtoa 32 max) = .error .bounds) ∧
      (∀ fuel regList, ∃ e, genBlocks max fuel min regList = .error e) ∧ ¬ Advances min max :=
  ⟨fun _ hfuel => nextMax_bounds min max hfuel,
    fun fuel regList =>
      let ⟨e, he, _⟩ := genBlocks_stuck max fuel min regList
      ⟨e, he⟩,
    not_advances min max⟩

/-- From 20 to 24. -/
theorem nextMax_twenty : nextMax 32 (longtoa 32 20) (longtoa 32 24) = .error .bounds ∧
    ¬ (∀ min max : Int32, 0 < min → min ≤ max → Advances min.toInt max.toInt) := by
  refine ⟨nextMax_bounds 20 24 le_rfl, fun hall => ?_⟩
  exact not_advances _ _ (hall 20 24 (by decide) (by decide))

end Next

end IvyBus.IntervalRegexp
