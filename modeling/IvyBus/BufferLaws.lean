import IvyBus.Buffer
import IvyBus.Lib.Run

namespace IvyBus.Buffer

open Lib

structure Ok (b : IvyBuffer) : Prop where
  allocated : ∃ data, b.data = some data ∧ b.size ≤ data.length ∧ ∃ s, data.Holds s
  offset_lt : b.offset < b.size

section Strstr

theorem strstr_eq_some {pattern s before found : Str}
    (h : strstr pattern s = some (before, found)) :
    before ++ found = s ∧ pattern <+: found := by
  induction s generalizing before with
  | nil =>
    rw [strstr] at h
    split at h
    next hp =>
      cases h
      exact ⟨rfl, hp ▸ List.prefix_refl _⟩
    next => cases h
  | cons c s ih =>
    rw [strstr] at h
    split at h
    next hp =>
      cases h
      exact ⟨rfl, List.isPrefixOf_iff_prefix.mp hp⟩
    next =>
      obtain ⟨⟨t, found⟩, ht, heq⟩ := Option.map_eq_some_iff.mp h
      cases heq
      obtain ⟨hs, hp⟩ := ih ht
      exact ⟨congrArg (c :: ·) hs, hp⟩

end Strstr

section Substitute

/-- What is put for the text up to the end of a group, after `out` (`none`: nothing was written
yet). When nothing is generated for the group, there has to be a string that ends before it. -/
def replaced (regexpGen : Gen) (out : Option Str) (before itv : Str) : Option Str :=
  (regexpGen itv (dstSize - ((out.getD []).length + before.length))).elim
    (if before = [] then out else none) fun text => some (out.getD [] ++ before ++ text.1)

inductive Substituted (regexpGen : Gen) : Option Str → Str → Str → Prop
  | rest {out cur : Str} : strstr interval cur = none →
      Substituted regexpGen (some out) cur (out ++ cur)
  | group {out : Option Str} {cur before itv out' rest r : Str} {c : UInt8} :
      strstr interval cur = some (before, itv) →
      replaced regexpGen out before itv = some out' →
      itv.dropWhile (· ≠ closing) = c :: rest →
      Substituted regexpGen (some out') rest r →
      Substituted regexpGen out cur r

theorem replaced_starts {regexpGen : Gen} {out : Option Str} {before itv out' : Str}
    (h : replaced regexpGen out before itv = some out') : out.getD [] <+: out' := by
  rw [replaced] at h
  cases hgen : regexpGen itv (dstSize - ((out.getD []).length + before.length)) with
  | none =>
    rw [hgen, Option.elim_none] at h
    split at h
    next => exact h ▸ List.prefix_refl _
    next => cases h
  | some text =>
    rw [hgen, Option.elim_some, Option.some.injEq, List.append_assoc] at h
    exact ⟨_, h⟩

theorem Substituted.starts {regexpGen : Gen} {out : Option Str} {cur r : Str}
    (h : Substituted regexpGen out cur r) : out.getD [] <+: r := by
  induction h with
  | rest _ => exact List.prefix_append _ _
  | group _ hout' _ _ ih => exact (replaced_starts hout').trans ih

def image : Option Str → Chars
  | none => Chars.uninit dstSize
  | some s => s.map some ++ some 0 :: Chars.uninit (dstSize - (s.length + 1))

theorem cString_unwritten {s : Str} (n : Nat) (t : Str) :
    Chars.cString (s.map some ++ Chars.uninit n) = .ok t → 0 ∈ s := by
  induction s generalizing t with
  | nil => cases n <;> simp [Chars.uninit, List.replicate_succ, Chars.cString]
  | cons c s ih =>
    intro h
    simp only [List.map_cons, List.cons_append, Chars.cString] at h
    split at h
    next hc => exact hc ▸ List.mem_cons_self
    next =>
      cases hs : Chars.cString (s.map some ++ Chars.uninit n) with
      | error e => rw [hs] at h; cases h
      | ok u => exact List.mem_cons_of_mem _ (ih u hs)

variable {out : Option Str}

theorem holds_image {s : Str} (hs : 0 ∉ s) : (image (some s)).Holds s := by
  refine ⟨hs, ?_⟩
  rw [image, List.prefix_append_right_inj]
  exact ⟨_, rfl⟩

def Short (out : Option Str) : Prop := ∀ s, out = some s → 0 ∉ s ∧ s.length < dstSize

theorem short_some {s : Str} : Short (some s) ↔ 0 ∉ s ∧ s.length < dstSize :=
  ⟨fun h => h s rfl, fun h _ ht => Option.some.inj ht ▸ h⟩

theorem length_image (h : Short out) : (image out).length = dstSize := by
  cases out with
  | none => exact Chars.length_uninit _
  | some s =>
    have hs := (h s rfl).2
    simp only [image, List.length_append, List.length_map, List.length_cons, Chars.length_uninit]
    omega

theorem take_image (h : Short out) :
    (image out).take (out.getD []).length = (out.getD []).map some := by
  cases out with
  | none => rfl
  | some s => exact List.take_left' (List.length_map _)

theorem drop_image {n : Nat} (hn : (out.getD []).length < n) :
    (image out).drop n = Chars.uninit (dstSize - n) := by
  cases out with
  | none => exact List.drop_replicate
  | some s =>
    rw [Option.getD_some] at hn
    obtain ⟨k, rfl⟩ := Nat.exists_eq_add_of_lt hn
    have hlen : (s.map (some : UInt8 → Option UInt8)).length = s.length := List.length_map _
    have hover : s.length + k + 1 - s.length = k + 1 := by omega
    rw [image, List.drop_append, List.drop_of_length_le (by omega), List.nil_append, hlen, hover,
      List.drop_succ_cons, Chars.uninit, List.drop_replicate, Chars.uninit]
    congr 1
    omega

theorem image_strcpy (h : Short out) {t : Str} :
    (image out).strcpy (out.getD []).length t =
      if (out.getD []).length + t.length < dstSize then .ok (image (some (out.getD [] ++ t)))
      else .error .bounds := by
  rw [Chars.strcpy, length_image h, take_image h, drop_image (by omega)]
  simp only [image, List.map_append, List.append_assoc, List.length_append]

theorem image_memcpy_strcpy (h : Short out) {before t : Str} {dst : Chars}
    (hcopy : (image out).memcpy (out.getD []).length before = .ok dst) :
    dst.strcpy ((out.getD []).length + before.length) t =
      if (out.getD []).length + before.length + t.length < dstSize then
        .ok (image (some (out.getD [] ++ before ++ t)))
      else .error .bounds := by
  rw [Chars.memcpy, length_image h, take_image h] at hcopy
  split at hcopy
  next hfits =>
    have hdst := Except.ok.inj hcopy
    have hlen : dst.length = dstSize := by
      rw [← hdst]
      simp only [List.length_append, List.length_map, List.length_drop, length_image h]
      omega
    have htake : dst.take ((out.getD []).length + before.length) =
        (out.getD [] ++ before).map some := by
      rw [← hdst, ← List.append_assoc, ← List.map_append]
      exact List.take_left' (by rw [List.length_map, List.length_append])
    have hdrop (k : Nat) : dst.drop ((out.getD []).length + before.length + k + 1) =
        Chars.uninit (dstSize - ((out.getD []).length + before.length + k + 1)) := by
      rw [← hdst, ← List.append_assoc, ← List.map_append, List.drop_append,
        List.drop_of_length_le (by rw [List.length_map, List.length_append]; omega),
        List.nil_append, List.drop_drop, List.length_map, List.length_append,
        ← drop_image (by omega : (out.getD []).length <
          (out.getD []).length + before.length + k + 1)]
      congr 1
      omega
    rw [Chars.strcpy, hlen, htake, hdrop]
    simp only [image, List.map_append, List.append_assoc, List.length_append, Nat.add_assoc]
  next => cases hcopy

theorem memcpy_image (h : Short out) {before : Str} :
    (image out).memcpy (out.getD []).length before =
      if (out.getD []).length + before.length ≤ dstSize then
        .ok ((out.getD [] ++ before).map some ++
          (image out).drop ((out.getD []).length + before.length))
      else .error .bounds := by
  rw [Chars.memcpy, length_image h, take_image h, ← List.append_assoc, ← List.map_append]

theorem cString_image (h : Short out) (t : Str) : (image out).cString = .ok t ↔ out = some t := by
  cases out with
  | none =>
    refine ⟨fun ht => ?_, fun ht => by cases ht⟩
    exact absurd (cString_unwritten (s := []) dstSize t ht) List.not_mem_nil
  | some s =>
    rw [(holds_image (h s rfl).1).cString, Except.ok.injEq, Option.some.injEq]

theorem Short.nonzero (h : Short out) : 0 ∉ out.getD [] := by
  cases out with
  | none => exact List.not_mem_nil
  | some s => exact (h s rfl).1

theorem Short.length_le (h : Short out) : (out.getD []).length ≤ dstSize := by
  cases out with
  | none => exact Nat.zero_le _
  | some s => exact Nat.le_of_lt (h s rfl).2

variable {regexpGen : Gen} {before itv : Str}

theorem replaced_some {text : CString}
    (hgen : regexpGen itv (dstSize - ((out.getD []).length + before.length)) = some text) :
    replaced regexpGen out before itv = some (out.getD [] ++ before ++ text.1) := by
  rw [replaced, hgen, Option.elim_some]

theorem replaced_none
    (hgen : regexpGen itv (dstSize - ((out.getD []).length + before.length)) = none) :
    replaced regexpGen out before itv = if before = [] then out else none := by
  rw [replaced, hgen, Option.elim_none]

theorem room_of_replaced (h : Short out) {out' : Str}
    (hrep : replaced regexpGen out before itv = some out') (hshort : Short (some out')) :
    (out.getD []).length + before.length ≤ dstSize := by
  have hlen := (hshort out' rfl).2
  cases hgen : regexpGen itv (dstSize - ((out.getD []).length + before.length)) with
  | none =>
    rw [replaced_none hgen] at hrep
    split at hrep
    next hempty =>
      have hle := h.length_le
      rwa [hempty, List.length_nil, Nat.add_zero]
    next => cases hrep
  | some text =>
    rw [replaced_some hgen, Option.some.injEq] at hrep
    rw [← hrep, List.length_append, List.length_append] at hlen
    omega

theorem eq_image_of_memcpy (h : Short out) {dst : Chars}
    (hcopy : (image out).memcpy (out.getD []).length [] = .ok dst) : dst = image out := by
  rw [memcpy_image h, List.length_nil, Nat.add_zero, if_pos h.length_le, List.append_nil,
    ← take_image h, List.take_append_drop] at hcopy
  exact (Except.ok.inj hcopy).symm

theorem cString_of_memcpy (h : Short out) (hbefore : 0 ∉ before) (hne : before ≠ []) {dst : Chars}
    (hcopy : (image out).memcpy (out.getD []).length before = .ok dst) (t : Str) :
    dst.cString ≠ .ok t := by
  intro hread
  have hpos := List.length_pos_iff.mpr hne
  rw [memcpy_image h, drop_image (by omega)] at hcopy
  split at hcopy
  next =>
    rw [← Except.ok.inj hcopy] at hread
    exact List.not_mem_append h.nonzero hbefore (cString_unwritten _ t hread)
  next => cases hcopy

theorem group_none_eq_ok (h : Short out) (hbefore : 0 ∉ before) (k : Chars → Str → Checked Chars)
    {dst : Chars} (hcopy : (image out).memcpy (out.getD []).length before = .ok dst) (d : Chars) :
    dst.cString.bind (k dst) = .ok d ↔
      ∃ out', (if before = [] then out else none) = some out' ∧ Short (some out') ∧
        k (image (some out')) out' = .ok d := by
  rw [bind_eq_ok]
  by_cases hempty : before = []
  · subst hempty
    obtain rfl := eq_image_of_memcpy h hcopy
    rw [if_pos rfl]
    constructor
    · rintro ⟨t, ht, hd⟩
      obtain rfl := (cString_image h t).mp ht
      exact ⟨t, rfl, h, hd⟩
    · rintro ⟨t, rfl, -, hd⟩
      exact ⟨t, (cString_image h t).mpr rfl, hd⟩
  · rw [if_neg hempty]
    refine iff_of_false ?_ (fun ⟨_, hout, _⟩ => nomatch hout)
    rintro ⟨t, ht, -⟩
    exact cString_of_memcpy h hbefore hempty hcopy t ht

theorem group_some_eq_ok (h : Short out) (hbefore : 0 ∉ before) (k : Chars → Str → Checked Chars)
    {dst : Chars} (hcopy : (image out).memcpy (out.getD []).length before = .ok dst)
    (text : CString) (d : Chars) :
    (dst.strcpy ((out.getD []).length + before.length) text.1).bind
        (fun dst => dst.cString.bind (k dst)) = .ok d ↔
      ∃ out', some (out.getD [] ++ before ++ text.1) = some out' ∧ Short (some out') ∧
        k (image (some out')) out' = .ok d := by
  have hzero : 0 ∉ out.getD [] ++ before ++ text.1 :=
    List.not_mem_append (List.not_mem_append h.nonzero hbefore) text.2
  have hlength : (out.getD [] ++ before ++ text.1).length =
      (out.getD []).length + before.length + text.1.length := by
    rw [List.length_append, List.length_append]
  rw [image_memcpy_strcpy h hcopy, ← hlength]
  split
  next hfits =>
    change (Chars.cString _).bind _ = .ok d ↔ _
    rw [(holds_image hzero).cString]
    refine ⟨fun hd => ⟨_, rfl, short_some.mpr ⟨hzero, hfits⟩, hd⟩, ?_⟩
    rintro ⟨out', hout, -, hd⟩
    cases hout
    exact hd
  next hover =>
    refine iff_of_false nofun ?_
    rintro ⟨out', hout, hshort, -⟩
    cases hout
    exact hover (hshort _ rfl).2

theorem group_eq_ok (h : Short out) (hbefore : 0 ∉ before) (k : Chars → Str → Checked Chars)
    (d : Chars) :
    (do
      let dst ← (image out).memcpy (out.getD []).length before
      let dst ← (regexpGen itv (dstSize - ((out.getD []).length + before.length))).elim (.ok dst)
        fun text => dst.strcpy ((out.getD []).length + before.length) text.1
      let written ← dst.cString
      k dst written) = .ok d ↔
    ∃ out', replaced regexpGen out before itv = some out' ∧ Short (some out') ∧
      k (image (some out')) out' = .ok d := by
  cases hcopy : (image out).memcpy (out.getD []).length before with
  | error e =>
    refine iff_of_false nofun ?_
    rintro ⟨out', hrep, hshort, -⟩
    rw [memcpy_image h, if_pos (room_of_replaced h hrep hshort)] at hcopy
    cases hcopy
  | ok dst =>
    cases hgen : regexpGen itv (dstSize - ((out.getD []).length + before.length)) with
    | none =>
      rw [replaced_none hgen]
      exact group_none_eq_ok h hbefore k hcopy d
    | some text =>
      rw [replaced_some hgen]
      exact group_some_eq_ok h hbefore k hcopy text d

theorem strncat_image (h : Short out) {cur : Str} (d : Chars) :
    (image out).strncat cur (dstSize - (out.getD []).length) = .ok d ↔
      ∃ s, out = some s ∧ s.length + cur.length < dstSize ∧ d = image (some (s ++ cur)) := by
  rw [Chars.strncat]
  cases hread : (image out).cString with
  | error e =>
    refine ⟨fun hd => (by cases hd), ?_⟩
    rintro ⟨s, hout, -⟩
    rw [(cString_image h s).mpr hout] at hread
    cases hread
  | ok s =>
    have hout := (cString_image h s).mp hread
    subst hout
    have hs := (h s rfl).2
    change (image (some s)).strcpy s.length (cur.take (dstSize - s.length)) = .ok d ↔ _
    rw [show s.length = ((some s).getD []).length from rfl, image_strcpy h, Option.getD_some,
      List.length_take]
    split
    next hfits =>
      have hall : cur.take (dstSize - s.length) = cur := List.take_of_length_le (by omega)
      rw [hall]
      refine ⟨fun hd => ⟨s, rfl, by omega, (Except.ok.inj hd).symm⟩, ?_⟩
      rintro ⟨s', hs', -, hd⟩
      cases hs'
      rw [hd]
    next hover =>
      refine ⟨fun hd => (by cases hd), ?_⟩
      rintro ⟨s', hs', hfits, -⟩
      cases hs'
      omega

theorem Substituted.nonzero {cur r : Str} (h : Substituted regexpGen out cur r)
    (hout : 0 ∉ out.getD []) (hcur : 0 ∉ cur) : 0 ∉ r := by
  induction h with
  | rest _ => exact List.not_mem_append hout hcur
  | @group out cur before itv out' rest r c hfound hrep hclose _ ih =>
    obtain ⟨rfl, -⟩ := strstr_eq_some hfound
    rw [List.mem_append, not_or] at hcur
    refine ih ?_ fun hmem => hcur.2 ?_
    · cases hgen : regexpGen itv (dstSize - ((out.getD []).length + before.length)) with
      | none =>
        rw [replaced_none hgen] at hrep
        split at hrep
        next => exact hrep ▸ hout
        next => cases hrep
      | some text =>
        rw [replaced_some hgen, Option.some.injEq] at hrep
        exact hrep ▸ List.not_mem_append (List.not_mem_append hout hcur.1) text.2
    · refine (List.dropWhile_suffix (· ≠ closing)).subset ?_
      exact hclose ▸ List.mem_cons_of_mem c hmem

theorem Short.of_prefix {s t : Str} (h : Short (some t)) (hst : s <+: t) : Short (some s) :=
  short_some.mpr ⟨fun hmem => (short_some.mp h).1 (hst.subset hmem),
    Nat.lt_of_le_of_lt hst.length_le (short_some.mp h).2⟩

/-- The loop leaves the substituted text in the block, exactly when there is one and the block has
room for it. -/
theorem substituteLoop_eq_ok (regexpGen : Gen) {out : Option Str} {fuel : Nat} (h : Short out)
    {cur : Str} (hcur : 0 ∉ cur)
    (hfuel : cur.length < fuel) (d : Chars) :
    substituteLoop regexpGen fuel (image out) (out.getD []).length cur = .ok d ↔
      ∃ r, Substituted regexpGen out cur r ∧ Short (some r) ∧ d = image (some r) := by
  induction fuel generalizing out cur with
  | zero => omega
  | succ fuel ih =>
    rw [substituteLoop]
    cases hfound : strstr interval cur with
    | none =>
      rw [strncat_image h]
      constructor
      · rintro ⟨s, rfl, hfits, rfl⟩
        refine ⟨_, .rest hfound, short_some.mpr ⟨List.not_mem_append h.nonzero hcur, ?_⟩, rfl⟩
        rw [List.length_append]
        exact hfits
      · rintro ⟨r, hr, hshort, rfl⟩
        cases hr with
        | rest _ =>
          have hlen := (short_some.mp hshort).2
          rw [List.length_append] at hlen
          exact ⟨_, rfl, hlen, rfl⟩
        | group hgroup => rw [hfound] at hgroup; cases hgroup
    | some p =>
      obtain ⟨before, itv⟩ := p
      obtain ⟨hsplit, hitv⟩ := strstr_eq_some hfound
      have hbefore : 0 ∉ before := fun hmem => hcur (hsplit ▸ List.mem_append_left _ hmem)
      refine (group_eq_ok h hbefore _ d).trans ?_
      have hloop {out' rest : Str} {c : UInt8} (hshort : Short (some out'))
          (hclose : itv.dropWhile (· ≠ closing) = c :: rest) :=
        have hrest : c :: rest <:+ cur :=
          hclose ▸ (List.dropWhile_suffix _).trans ⟨before, hsplit⟩
        have hlen : (c :: rest).length ≤ cur.length := hrest.length_le
        ih hshort (fun hmem => hcur (hrest.subset (List.mem_cons_of_mem c hmem)))
          (by rw [List.length_cons] at hlen; omega)
      constructor
      · rintro ⟨out', hrep, hshort, hd⟩
        split at hd
        next => cases hd
        next c rest hclose =>
          obtain ⟨r, hr, hend⟩ := (hloop hshort hclose).mp hd
          exact ⟨r, .group hfound hrep hclose hr, hend⟩
      · rintro ⟨r, hr, hshort, rfl⟩
        cases hr with
        | rest hnone => rw [hfound] at hnone; cases hnone
        | group hgroup hrep hclose hrest =>
          rw [hfound] at hgroup
          cases hgroup
          have hout' : Short (some _) := hshort.of_prefix hrest.starts
          refine ⟨_, hrep, hout', ?_⟩
          rw [hclose]
          exact (hloop hout' hclose).mpr ⟨r, hrest, hshort, rfl⟩

end Substitute

section MakeMessage

variable {memory : Memory} {text : Str}

/-- Where `make_message` starts: the size of the block and the place of the text. -/
def place (b : IvyBuffer) : Nat × Nat :=
  if b.size = 0 ∨ b.data = none then (ivyBufferSize, 0) else (b.size, b.offset)

def newSize (b : IvyBuffer) (text : Str) : Nat :=
  if text.length < (place b).1 - (place b).2 then (place b).1
  else (place b).2 + text.length + 1

structure Room (memory : Memory) (b : IvyBuffer) (text : Str) : Prop where
  first : b.size = 0 ∨ b.data = none → memory ivyBufferSize = true
  more : (place b).1 - (place b).2 ≤ text.length →
    newSize b text ≤ intMax ∧ memory (newSize b text) = true

structure Inv (b : IvyBuffer) : Prop where
  size_le : b.size ≤ intMax
  ready : b.data = none ∨ Ok b

structure Starts (data : Chars) (size offset : Nat) : Prop where
  size_le : size ≤ data.length
  size_int : size ≤ intMax
  offset_lt : offset < size
  reaches : ∃ s, data.Reaches offset s

structure Placed (data : Chars) (size offset : Nat) : Prop where
  size_le : size ≤ data.length
  size_int : size ≤ intMax
  offset_lt : offset < size

theorem Starts.placed {data : Chars} {size offset : Nat} (h : Starts data size offset) :
    Placed data size offset := ⟨h.size_le, h.size_int, h.offset_lt⟩

/-- A buffer that a text can be added to: without a block, or with a place in it. -/
structure Usable (b : IvyBuffer) : Prop where
  size_int : b.size ≤ intMax
  placed : ¬ (b.size = 0 ∨ b.data = none) → ∃ data, b.data = some data ∧ Placed data b.size b.offset

theorem vsnprintf_fits {data : Chars} {size offset : Nat} (h : Placed data size offset)
    (text : Str) : ∃ data', vsnprintf data offset (size - offset) text = .ok data' ∧
      data.strcpy offset (text.take (size - offset - 1)) = .ok data' := by
  have hlt := h.offset_lt
  have hle := h.size_le
  rw [vsnprintf, if_neg (by omega), if_neg (by omega)]
  have hroom : ((size : Int) - offset).toNat = size - offset := by omega
  rw [hroom, Chars.strcpy, if_pos (by rw [List.length_take]; omega)]
  exact ⟨_, rfl, rfl⟩

theorem makeMessageLoop_succ {data data' : Chars} {size offset fuel : Nat}
    (hwrite : vsnprintf data offset (size - offset) text = .ok data') :
    makeMessageLoop memory text offset (fuel + 1) data size =
      if (vsnprintfLength text).any (· < size - offset) then
        .ok (text.length, ⟨some data', size, offset + text.length⟩)
      else if (vsnprintfLength text).elim (size * 2) (offset + · + 1) > intMax then .error .fail
      else if memory ((vsnprintfLength text).elim (size * 2) (offset + · + 1)) then
        makeMessageLoop memory text offset fuel
          (data'.realloc ((vsnprintfLength text).elim (size * 2) (offset + · + 1)))
          ((vsnprintfLength text).elim (size * 2) (offset + · + 1))
      else .ok (-1, ⟨none, (vsnprintfLength text).elim (size * 2) (offset + · + 1), offset⟩) := by
  rw [makeMessageLoop, hwrite]
  rfl

theorem vsnprintfLength_some (h : text.length ≤ intMax) :
    vsnprintfLength text = some text.length := if_pos h

theorem vsnprintfLength_none (h : intMax < text.length) : vsnprintfLength text = none :=
  if_neg (Nat.not_le_of_gt h)

theorem makeMessageLoop_fits (memory : Memory) {data : Chars} {size offset : Nat}
    (h : Placed data size offset) (hfits : text.length < size - offset) :
    ∃ data', data.strcpy offset text = .ok data' ∧
      ∀ fuel, makeMessageLoop memory text offset (fuel + 1) data size =
        .ok (text.length, ⟨some data', size, offset + text.length⟩) := by
  obtain ⟨data', hwrite, hcopy⟩ := vsnprintf_fits h text
  have hint := h.size_int
  rw [List.take_of_length_le (by omega)] at hcopy
  refine ⟨data', hcopy, fun fuel => ?_⟩
  rw [makeMessageLoop_succ hwrite, vsnprintfLength_some (Nat.le_trans (by omega) hint),
    Option.any_some, if_pos (decide_eq_true hfits)]

theorem makeMessageLoop_long (hlong : intMax < text.length) {fuel : Nat} {data : Chars}
    {size offset : Nat} {r : Int × IvyBuffer}
    (hr : makeMessageLoop memory text offset fuel data size = .ok r) : r.2.data = none := by
  induction fuel generalizing data size with
  | zero => cases hr
  | succ fuel ih =>
    cases hwrite : vsnprintf data offset (size - offset) text with
    | error e => rw [makeMessageLoop, hwrite] at hr; cases hr
    | ok data' =>
      rw [makeMessageLoop_succ hwrite, vsnprintfLength_none hlong, Option.any_none,
        if_neg Bool.false_ne_true] at hr
      split at hr
      next => cases hr
      next =>
        split at hr
        next => exact ih hr
        next => cases hr; rfl

theorem makeMessageLoop_grows {data : Chars} {size offset : Nat} (h : Placed data size offset)
    (hover : size - offset ≤ text.length) (hint : offset + text.length + 1 ≤ intMax)
    (hmem : memory (offset + text.length + 1) = true) :
    ∃ data' data'', Placed data' (offset + text.length + 1) offset ∧
      data'.take offset = data.take offset ∧ data'.strcpy offset text = .ok data'' ∧
      ∀ fuel, makeMessageLoop memory text offset (fuel + 2) data size =
        .ok (text.length, ⟨some data'', offset + text.length + 1, offset + text.length⟩) := by
  obtain ⟨data', hwrite, hcopy⟩ := vsnprintf_fits h text
  have hlt := h.offset_lt
  have hle := h.size_le
  have hlen := Chars.length_of_strcpy hcopy
  have htake : (data'.realloc (offset + text.length + 1)).take offset = data.take offset :=
    (Chars.take_realloc (by omega) (by omega)).trans (Chars.take_of_strcpy hcopy)
  have hgrown :
      Placed (data'.realloc (offset + text.length + 1)) (offset + text.length + 1) offset :=
    ⟨Nat.le_of_eq (Chars.length_realloc _ _).symm, hint, by omega⟩
  obtain ⟨data'', hcopy', hloop⟩ := makeMessageLoop_fits memory hgrown
    (by omega : text.length < offset + text.length + 1 - offset)
  refine ⟨_, data'', hgrown, htake, hcopy', fun fuel => ?_⟩
  rw [makeMessageLoop_succ hwrite, vsnprintfLength_some (by omega), Option.any_some,
    if_neg (by simpa using hover), Option.elim_some, if_neg (by omega), if_pos hmem, hloop]

theorem makeMessageLoop_refused {data : Chars} {size offset : Nat} (h : Placed data size offset)
    (hover : size - offset ≤ text.length)
    (hrefused : ¬ (offset + text.length + 1 ≤ intMax ∧ memory (offset + text.length + 1) = true))
    {fuel : Nat} {r : Int × IvyBuffer}
    (hr : makeMessageLoop memory text offset (fuel + 1) data size = .ok r) : r.2.data = none := by
  obtain hlong | hint := Nat.lt_or_ge intMax text.length
  · exact makeMessageLoop_long hlong hr
  · obtain ⟨data', hwrite, -⟩ := vsnprintf_fits h text
    rw [makeMessageLoop_succ hwrite, vsnprintfLength_some hint, Option.any_some,
      if_neg (by simpa using hover), Option.elim_some] at hr
    split at hr
    next => cases hr
    next hfits =>
      split at hr
      next hmem => exact absurd ⟨by omega, hmem⟩ hrefused
      next => cases hr; rfl

variable {b : IvyBuffer}

theorem place_fresh (h : b.size = 0 ∨ b.data = none) : place b = (ivyBufferSize, 0) := if_pos h

theorem place_used (h : ¬ (b.size = 0 ∨ b.data = none)) : place b = (b.size, b.offset) := if_neg h

theorem starts_fresh : Starts (Chars.uninit ivyBufferSize) ivyBufferSize 0 where
  size_le := Nat.le_of_eq (Chars.length_uninit _).symm
  size_int := by decide
  offset_lt := by decide
  reaches := ⟨[], Chars.reaches_zero _⟩

theorem Inv.usable (h : Inv b) : Usable b where
  size_int := h.size_le
  placed := fun hused => by
    have hok := h.ready.resolve_left fun hnone => hused (.inr hnone)
    obtain ⟨data, hdata, hle, -⟩ := hok.allocated
    exact ⟨data, hdata, hle, h.size_le, hok.offset_lt⟩

structure Says (b : IvyBuffer) (said : Str) : Prop where
  length_eq : said.length = (place b).2
  written : ∀ data, b.size ≠ 0 → b.data = some data → data.take b.offset = said.map some

def held (b : IvyBuffer) : Chars :=
  if b.size = 0 ∨ b.data = none then Chars.uninit ivyBufferSize else b.data.getD []

theorem Says.held {said : Str} (h : Says b said) : (held b).take (place b).2 = said.map some := by
  by_cases hfresh : b.size = 0 ∨ b.data = none
  · have hlen := h.length_eq
    rw [place_fresh hfresh] at hlen ⊢
    rw [List.length_eq_zero_iff.mp hlen]
    rfl
  · obtain ⟨hsize, hdata⟩ := not_or.mp hfresh
    obtain ⟨data, hsome⟩ := Option.ne_none_iff_exists'.mp hdata
    rw [Buffer.held, if_neg hfresh, place_used hfresh, hsome]
    exact h.written data hsize hsome

theorem Usable.held (h : Usable b) : Placed (held b) (place b).1 (place b).2 := by
  rw [Buffer.held]
  split
  next hfresh =>
    rw [place_fresh hfresh]
    exact starts_fresh.placed
  next hused =>
    obtain ⟨data, hdata, hplaced⟩ := h.placed hused
    rw [place_used hused, hdata]
    exact hplaced

theorem Inv.starts (h : Inv b) : Starts (held b) (place b).1 (place b).2 := by
  obtain ⟨hle, hint, hlt⟩ := h.usable.held
  refine ⟨hle, hint, hlt, ?_⟩
  rw [Buffer.held]
  split
  next hfresh =>
    rw [place_fresh hfresh]
    exact starts_fresh.reaches
  next hused =>
    have hok := h.ready.resolve_left fun hnone => hused (.inr hnone)
    obtain ⟨data, hdata, -, s, hs⟩ := hok.allocated
    rw [place_used hused, hdata]
    exact hs.reaches _

/-- `make_message` with a bound on its attempts to print the text. -/
def makeMessageWithin (attempts : Nat) (memory : Memory) (buffer : IvyBuffer) (text : Str) :
    Checked (Int × IvyBuffer) :=
  match if buffer.size = 0 then none else buffer.data with
  | none =>
    if memory ivyBufferSize then
      makeMessageLoop memory text 0 attempts (Chars.uninit ivyBufferSize) ivyBufferSize
    else .ok (-1, ⟨none, ivyBufferSize, 0⟩)
  | some data => makeMessageLoop memory text buffer.offset attempts data buffer.size

theorem makeMessage_eq (memory : Memory) (b : IvyBuffer) (text : Str) :
    makeMessage memory b text = makeMessageWithin 32 memory b text := rfl

theorem makeMessageWithin_held (memory : Memory) (text : Str) (attempts : Nat)
    (hfirst : b.size = 0 ∨ b.data = none → memory ivyBufferSize = true) :
    makeMessageWithin attempts memory b text =
      makeMessageLoop memory text (place b).2 attempts (held b) (place b).1 := by
  by_cases hfresh : b.size = 0 ∨ b.data = none
  · have hnone : (if b.size = 0 then none else b.data) = none := by
      split
      next => rfl
      next hsize => exact hfresh.resolve_left hsize
    rw [makeMessageWithin, hnone, place_fresh hfresh, held, if_pos hfresh]
    exact if_pos (hfirst hfresh)
  · obtain ⟨hsize, hdata⟩ := not_or.mp hfresh
    obtain ⟨data, hsome⟩ := Option.ne_none_iff_exists'.mp hdata
    rw [makeMessageWithin, if_neg hsize, place_used hfresh, held, if_neg hfresh, hsome]
    rfl

/-- With room, at most two attempts copy the text to its place in a block that has the characters
before it. -/
theorem makeMessage_writes (h : Usable b) (hroom : Room memory b text) :
    ∃ start data, (∀ attempts, makeMessageWithin (attempts + 2) memory b text =
        .ok (text.length, ⟨some data, newSize b text, (place b).2 + text.length⟩)) ∧
      Placed start (newSize b text) (place b).2 ∧ (place b).2 + text.length < newSize b text ∧
      start.strcpy (place b).2 text = .ok data ∧
      start.take (place b).2 = (held b).take (place b).2 := by
  have hheld := h.held
  have hlt := hheld.offset_lt
  obtain hfits | hover := Nat.lt_or_ge text.length ((place b).1 - (place b).2)
  · rw [newSize, if_pos hfits]
    obtain ⟨data, hcopy, hloop⟩ := makeMessageLoop_fits memory hheld hfits
    refine ⟨held b, data, fun attempts => ?_, hheld, by omega, hcopy, rfl⟩
    rw [makeMessageWithin_held _ _ _ hroom.first, hloop]
  · have hmore := hroom.more hover
    rw [newSize, if_neg (by omega)] at hmore ⊢
    obtain ⟨grown, data, hgrown, htake, hcopy, hloop⟩ :=
      makeMessageLoop_grows hheld hover hmore.1 hmore.2
    refine ⟨grown, data, fun attempts => ?_, hgrown, Nat.lt_succ_self _, hcopy, htake⟩
    rw [makeMessageWithin_held _ _ _ hroom.first, hloop]

theorem makeMessage_of_room (h : Inv b) (ht : 0 ∉ text) (hroom : Room memory b text) :
    ∃ data, makeMessage memory b text =
        .ok (text.length, ⟨some data, newSize b text, (place b).2 + text.length⟩) ∧
      Ok ⟨some data, newSize b text, (place b).2 + text.length⟩ ∧ newSize b text ≤ intMax ∧
      ((place b).2 = 0 → data.Holds text) := by
  obtain ⟨start, data, hmade, hstart, hlt, hcopy, htake⟩ := makeMessage_writes h.usable hroom
  obtain ⟨s, hs⟩ := h.starts.reaches
  refine ⟨data, hmade 30, ⟨⟨data, rfl, ?_, (hs.congr htake).strcpy ht hcopy⟩, hlt⟩,
    hstart.size_int, ?_⟩
  · exact Nat.le_trans hstart.size_le (Nat.le_of_eq (Chars.length_of_strcpy hcopy).symm)
  · intro hzero
    rw [hzero] at hcopy
    exact Chars.holds_of_strcpy_zero ht hcopy

theorem makeMessage_says (h : Usable b) (hroom : Room memory b text) {said : Str}
    (hsaid : Says b said) {r : Int × IvyBuffer} (hr : makeMessage memory b text = .ok r) :
    Says r.2 (said ++ text) := by
  obtain ⟨start, data, hmade, -, hlt, hcopy, htake⟩ := makeMessage_writes h hroom
  rw [makeMessage_eq, hmade 30] at hr
  cases hr
  have hused : ¬ (newSize b text = 0 ∨ some data = none) := by
    rw [not_or]
    exact ⟨by omega, Option.some_ne_none data⟩
  constructor
  · rw [place_used (b := ⟨some data, newSize b text, (place b).2 + text.length⟩) hused,
      List.length_append, hsaid.length_eq]
  · rintro data' - hdata'
    cases hdata'
    change data.take ((place b).2 + text.length) = _
    rw [Chars.take_add_of_strcpy hcopy, htake, hsaid.held, List.map_append]

theorem makeMessage_refused (h : Usable b) (hroom : ¬ Room memory b text) {r : Int × IvyBuffer}
    (hr : makeMessage memory b text = .ok r) : r.2.data = none := by
  by_cases hfirst : b.size = 0 ∨ b.data = none → memory ivyBufferSize = true
  · rw [makeMessage_eq, makeMessageWithin_held _ _ _ hfirst] at hr
    obtain hfits | hover := Nat.lt_or_ge text.length ((place b).1 - (place b).2)
    · exact absurd ⟨hfirst, fun hover => absurd hover (Nat.not_le_of_gt hfits)⟩ hroom
    · refine makeMessageLoop_refused h.held hover (fun hmore => hroom ⟨hfirst, fun _ => ?_⟩) hr
      rw [newSize, if_neg (Nat.not_lt_of_ge hover)]
      exact hmore
  · obtain ⟨hfresh, hmem⟩ := Classical.not_imp.mp hfirst
    have hnone : (if b.size = 0 then none else b.data) = none := by
      split
      next => rfl
      next hsize => exact hfresh.resolve_left hsize
    rw [makeMessage, hnone] at hr
    change (if _ then _ else _) = _ at hr
    rw [if_neg hmem] at hr
    cases hr
    rfl

end MakeMessage

section Append

variable {b : IvyBuffer} {memory : Memory} {text : Str}

theorem Placed.strcpy {data data' : Chars} {size offset : Nat} (h : Placed data size offset)
    (hcopy : data.strcpy offset text = .ok data') (hlt : offset + text.length < size) :
    Placed data' size (offset + text.length) :=
  ⟨(Chars.length_of_strcpy hcopy).symm ▸ h.size_le, h.size_int, hlt⟩

/-- A buffer without a block has to start at its start. -/
structure Appendable (b : IvyBuffer) : Prop extends Usable b where
  empty : b.size = 0 ∨ b.data = none → b.offset = 0

theorem Appendable.place_snd (h : Appendable b) : (place b).2 = b.offset := by
  rw [place]
  split
  next hfresh => exact (h.empty hfresh).symm
  next => rfl

theorem Appendable.held_take (h : Appendable b) :
    (held b).take b.offset = (b.data.getD []).take b.offset := by
  rw [held]
  split
  next hfresh => rw [h.empty hfresh, List.take_zero, List.take_zero]
  next => rfl

theorem room_of_memory (h : Usable b) (hint : (place b).2 + text.length + 1 ≤ intMax)
    (hmem : ∀ size ≤ intMax, memory size = true) : Room memory b text := by
  have hsize : newSize b text ≤ intMax := by
    have hold := h.held.size_int
    rw [newSize]
    split <;> omega
  exact ⟨fun _ => hmem _ (by decide), fun _ => ⟨hsize, hmem _ hsize⟩⟩

/-- Two attempts are enough to append the text, with a zero behind it, to what the buffer has. -/
theorem makeMessage_appends (h : Appendable b) (hint : b.offset + text.length + 1 < 2 ^ 31)
    (hmem : ∀ size ≤ intMax, memory size = true) : ∃ data size,
      (∀ attempts ≥ 2, makeMessageWithin attempts memory b text =
        .ok (text.length, ⟨some data, size, b.offset + text.length⟩)) ∧
      makeMessage memory b text = .ok (text.length, ⟨some data, size, b.offset + text.length⟩) ∧
      data.take b.offset = (b.data.getD []).take b.offset ∧
      text.map some ++ [some 0] <+: data.drop b.offset ∧
      b.offset + text.length < size ∧ Appendable ⟨some data, size, b.offset + text.length⟩ := by
  have hplace := h.place_snd
  have hroom : Room memory b text := by
    refine room_of_memory h.toUsable ?_ hmem
    rw [hplace]
    exact Nat.le_of_lt_succ hint
  obtain ⟨start, data, hmade, hstart, hlt, hcopy, htake⟩ := makeMessage_writes h.toUsable hroom
  have hend := hstart.strcpy hcopy hlt
  rw [hplace] at hmade hlt hcopy htake hend
  obtain ⟨hfits, hdata⟩ := Chars.strcpy_eq_ok hcopy
  refine ⟨data, newSize b text, fun attempts hattempts => ?_, hmade 30, ?_, ?_, hlt, ?_⟩
  · obtain ⟨more, rfl⟩ := Nat.exists_eq_add_of_le' hattempts
    exact hmade more
  · rw [Chars.take_of_strcpy hcopy, htake, h.held_take]
  · rw [hdata, List.drop_left' (by rw [List.length_take]; omega)]
    exact ⟨_, by rw [List.append_assoc]; rfl⟩
  · refine ⟨⟨hend.size_int, fun _ => ⟨data, rfl, hend⟩⟩, fun hempty => ?_⟩
    obtain hzero | hnone := hempty
    · exact absurd hzero (Nat.ne_of_gt (Nat.zero_lt_of_lt hlt))
    · cases hnone

def begun : IvyBuffer := ⟨some ((ascii "ab").map some ++ some 0 :: List.replicate 5 none), 8, 2⟩

theorem appendable_begun : Appendable begun :=
  ⟨⟨by decide, fun _ => ⟨_, rfl, by decide, by decide, by decide⟩⟩, by decide⟩

/-- The text does not fit behind the one that is there, and the block grows. -/
theorem makeMessage_appends_grown : ∃ data size,
    makeMessage (fun _ => true) begun (ascii "0123456789") = .ok (10, ⟨some data, size, 12⟩) ∧
      data.take 2 = (ascii "ab").map some ∧
        (ascii "0123456789").map some ++ [some 0] <+: data.drop 2 ∧ 12 < size := by
  obtain ⟨data, size, -, hmade, hkept, hwritten, hlt, -⟩ :=
    @makeMessage_appends begun (fun _ => true) (ascii "0123456789") appendable_begun (by decide)
      fun _ _ => rfl
  exact ⟨data, size, hmade, hkept, hwritten, hlt⟩

end Append

section Uses

variable {b : IvyBuffer} {memory : Memory} {regexpGen : Gen}

theorem Inv.restart (h : Inv b) : Inv { b with offset := 0 } where
  size_le := h.size_le
  ready := h.ready.imp id fun hok => ⟨hok.allocated, Nat.zero_lt_of_lt hok.offset_lt⟩

/-- The uses that keep the promise: there is memory for the text; a text with groups is shorter
than the block its substitution is given, and so is what they are substituted by. -/
def Fits (b : IvyBuffer) : Use → Prop
  | .makeMessage memory first text =>
    Room memory (if first then { b with offset := 0 } else b) text.1
  | .bindMsg memory regexpGen text => Room memory { b with offset := 0 } text.1 ∧
    (strstr interval text.1 ≠ none → memory dstSize = true ∧
      newSize { b with offset := 0 } text.1 ≤ dstSize ∧
      ∃ r, Substituted regexpGen none text.1 r ∧ r.length < dstSize)

/-- The use has a result, which is as promised. -/
def Keeps (b : IvyBuffer) (u : Use) : Prop := ∃ b', use b u = .ok b' ∧ Ok b'

theorem place_restart (b : IvyBuffer) : (place { b with offset := 0 }).2 = 0 := by
  rw [place]
  split <;> rfl

theorem substituteInterval_plain {data : Chars} {text : Str} (hdata : b.data = some data)
    (hs : data.Holds text) (hplain : strstr interval text = none) :
    substituteInterval memory regexpGen b = .ok b := by
  rw [substituteInterval, hdata]
  change (data.cString >>= _) = _
  rw [hs.cString]
  exact if_pos (by rw [hplain]; rfl)

theorem substituteInterval_eq_ok {data : Chars} {text : Str} (hdata : b.data = some data)
    (hs : data.Holds text) (hgroups : strstr interval text ≠ none) (b' : IvyBuffer) :
    substituteInterval memory regexpGen b = .ok b' ↔ memory dstSize = true ∧
      ∃ r, Substituted regexpGen none text r ∧ Short (some r) ∧
        b' = { b with data := some (image (some r)) } := by
  have hnotnone : ¬ (strstr interval text).isNone = true := by
    rwa [Option.isNone_iff_eq_none]
  have hloop (d : Chars) := substituteLoop_eq_ok regexpGen
    (fun _ hnone => nomatch (hnone : none = some _)) hs.nonzero (Nat.lt_succ_self _) d
  rw [substituteInterval, hdata]
  change (data.cString >>= _) = _ ↔ _
  rw [hs.cString]
  change (if _ then _ else _) = _ ↔ _
  rw [if_neg hnotnone]
  split
  next hmem =>
    constructor
    · intro hb'
      obtain ⟨dst, hdst, hb'⟩ := bind_eq_ok.mp hb'
      obtain ⟨r, hr, hshort, rfl⟩ := (hloop dst).mp hdst
      exact ⟨hmem, r, hr, hshort, (Except.ok.inj hb').symm⟩
    · rintro ⟨-, r, hr, hshort, rfl⟩
      have hdst := (hloop _).mpr ⟨r, hr, hshort, rfl⟩
      change (substituteLoop regexpGen (text.length + 1) (image none) 0 text >>= _) = _
      rw [show 0 = ((none : Option Str).getD []).length from rfl, hdst]
      rfl
  next hmem =>
    refine ⟨fun hb' => (by cases hb'), fun hb' => absurd hb'.1 hmem⟩

/-- A pattern for which there is room is in its block before its groups are replaced. -/
theorem use_bindMsg (regexpGen : Gen) (h : Inv b) {text : CString}
    (hroom : Room memory { b with offset := 0 } text.1) :
    ∃ data, data.Holds text.1 ∧
      Ok ⟨some data, newSize { b with offset := 0 } text.1, text.1.length⟩ ∧
      newSize { b with offset := 0 } text.1 ≤ intMax ∧
      use b (.bindMsg memory regexpGen text) = substituteInterval memory regexpGen
        ⟨some data, newSize { b with offset := 0 } text.1, text.1.length⟩ := by
  obtain ⟨data, hmade, hok, hint, hholds⟩ := makeMessage_of_room h.restart text.2 hroom
  have hzero := place_restart b
  rw [hzero, Nat.zero_add] at hmade hok
  refine ⟨data, hholds hzero, hok, hint, ?_⟩
  rw [use, formatRegexp, hmade]
  rfl

theorem Inv.first (h : Inv b) (first : Bool) :
    Inv (if first then { b with offset := 0 } else b) := by
  cases first
  · exact h
  · exact h.restart

theorem use_of_fits (h : Inv b) {u : Use} (hfits : Fits b u) :
    ∃ b', use b u = .ok b' ∧ Ok b' ∧ b'.size ≤ intMax := by
  cases u with
  | makeMessage memory first text =>
    obtain ⟨data, hmade, hok, hint, -⟩ := makeMessage_of_room (h.first first) text.2 hfits
    exact ⟨_, by rw [use, hmade]; rfl, hok, hint⟩
  | bindMsg memory regexpGen text =>
    obtain ⟨hroom, hgroups⟩ := hfits
    obtain ⟨data, hs, hok, hint, heq⟩ := use_bindMsg regexpGen h hroom
    rw [heq]
    by_cases hplain : strstr interval text.1 = none
    · exact ⟨_, substituteInterval_plain rfl hs hplain, hok, hint⟩
    · obtain ⟨hmem, hsize, r, hr, hlen⟩ := hgroups hplain
      have hshort := short_some.mpr ⟨hr.nonzero List.not_mem_nil text.2, hlen⟩
      refine ⟨_, (substituteInterval_eq_ok rfl hs hplain _).mpr ⟨hmem, r, hr, hshort, rfl⟩,
        ⟨⟨_, rfl, ?_, r, holds_image (short_some.mp hshort).1⟩, hok.offset_lt⟩, hint⟩
      exact Nat.le_trans hsize (Nat.le_of_eq (length_image hshort).symm)

theorem fits_of_keeps (h : Inv b) {u : Use} (hkeeps : Keeps b u) : Fits b u := by
  obtain ⟨b', hb', hok⟩ := hkeeps
  obtain ⟨kept, hkept, hle, -⟩ := hok.allocated
  cases u with
  | makeMessage memory first text =>
    by_contra hroom
    rw [use] at hb'
    obtain ⟨made, hmade, hb'⟩ := bind_eq_ok.mp hb'
    cases hb'
    rw [makeMessage_refused (h.first first).usable hroom hmade] at hkept
    cases hkept
  | bindMsg memory regexpGen text =>
    by_cases hroom : Room memory { b with offset := 0 } text.1
    · refine ⟨hroom, fun hgroups => ?_⟩
      obtain ⟨data, hs, -, -, heq⟩ := use_bindMsg regexpGen h hroom
      rw [heq] at hb'
      obtain ⟨hmem, r, hr, hshort, rfl⟩ := (substituteInterval_eq_ok rfl hs hgroups b').mp hb'
      cases hkept
      exact ⟨hmem, Nat.le_trans hle (Nat.le_of_eq (length_image hshort)), r, hr,
        (short_some.mp hshort).2⟩
    · rw [use, formatRegexp] at hb'
      obtain ⟨made, hmade, hb'⟩ := bind_eq_ok.mp hb'
      change substituteInterval memory regexpGen made.2 = _ at hb'
      rw [substituteInterval, makeMessage_refused h.restart.usable hroom hmade] at hb'
      cases hb'

theorem keeps_iff_fits (h : Inv b) (u : Use) : Keeps b u ↔ Fits b u :=
  ⟨fits_of_keeps h, fun hfits =>
    let ⟨b', hb', hok, _⟩ := use_of_fits h hfits
    ⟨b', hb', hok⟩⟩

theorem inv_next (h : Inv b) {u : Use} {b' : IvyBuffer} (hfits : Fits b u)
    (hb' : next b u = some b') : Inv b' := by
  obtain ⟨b'', hb'', hok, hint⟩ := use_of_fits h hfits
  rw [next, hb''] at hb'
  cases hb'
  exact ⟨hint, .inr hok⟩

theorem inv_null : Inv .null := ⟨Nat.zero_le _, .inl rfl⟩

/-- Along every sequence of uses, each has a result with the promised properties exactly as long as
each fits. -/
theorem buffer_kept_iff_fits (us : List Use) :
    Along next Keeps .null us ↔ Along next Fits .null us :=
  along_iff (fun _ u h => keeps_iff_fits h u) (fun _ _ _ h hfits hb' => inv_next h hfits hb')
    inv_null us

end Uses

section Overrun

theorem strstr_interval_replicate (n : Nat) : strstr interval (List.replicate n 97) = none := by
  induction n with
  | zero => rfl
  | succ n ih =>
    rw [List.replicate_succ, strstr, ih]
    rfl

def longText : CString := ⟨List.replicate dstSize 97, by simp⟩

def groupText : CString := ⟨ascii "(?I1#1i)", by decide⟩

def genOne : Gen := fun _ _ => some ⟨ascii "(?:1)(?![\\d.])", by decide⟩

def overrun : List Use :=
  [.bindMsg (fun _ => true) genOne longText, .bindMsg (fun _ => true) genOne groupText]

def oneText : Str := ascii "(?:1)(?![\\d.])"

theorem substituted_groupText : Substituted genOne none groupText.1 oneText := by
  have hfound : strstr interval groupText.1 = some ([], groupText.1) := rfl
  have hclose : groupText.1.dropWhile (· ≠ closing) = [closing] := by decide
  have hrest : Substituted genOne (some oneText) [] oneText := List.append_nil oneText ▸ .rest rfl
  exact .group hfound rfl hclose hrest

theorem short_oneText : Short (some oneText) := short_some.mpr (by decide)

theorem next_longText : ∃ data, next .null (.bindMsg (fun _ => true) genOne longText) =
    some ⟨some data, dstSize + 1, dstSize⟩ ∧ Ok ⟨some data, dstSize + 1, dstSize⟩ := by
  have hlen : longText.1.length = dstSize := List.length_replicate
  have hsize : newSize { IvyBuffer.null with offset := 0 } longText.1 = dstSize + 1 := by
    rw [newSize, place_fresh (.inl rfl), hlen, if_neg (by decide)]
    exact congrArg (· + 1) (Nat.zero_add dstSize)
  have hroom : Room (fun _ => true) { IvyBuffer.null with offset := 0 } longText.1 :=
    ⟨fun _ => rfl, fun _ => ⟨hsize ▸ by decide, rfl⟩⟩
  obtain ⟨data, hs, hok, -, heq⟩ := use_bindMsg genOne inv_null hroom
  rw [hsize, hlen] at hok heq
  refine ⟨data, ?_, hok⟩
  rw [next, heq, substituteInterval_plain rfl hs (strstr_interval_replicate _)]
  rfl

theorem next_groupText {data : Chars} (hok : Ok ⟨some data, dstSize + 1, dstSize⟩) :
    next ⟨some data, dstSize + 1, dstSize⟩ (.bindMsg (fun _ => true) genOne groupText) =
      some ⟨some (image (some oneText)), dstSize + 1, 8⟩ := by
  have hinv : Inv ⟨some data, dstSize + 1, dstSize⟩ :=
    ⟨(by decide : dstSize + 1 ≤ intMax), .inr hok⟩
  have hsize : newSize ⟨some data, dstSize + 1, 0⟩ groupText.1 = dstSize + 1 := by
    rw [newSize, place_used (by simp)]
    rfl
  have hroom : Room (fun _ => true) ⟨some data, dstSize + 1, 0⟩ groupText.1 :=
    ⟨fun _ => rfl, fun _ => ⟨by rw [hsize]; decide, rfl⟩⟩
  obtain ⟨data', hs, -, -, heq⟩ := use_bindMsg genOne hinv hroom
  rw [hsize] at heq
  rw [next, heq, (substituteInterval_eq_ok rfl hs (by decide) _).mpr
    ⟨rfl, oneText, substituted_groupText, short_oneText, rfl⟩]
  rfl

/-- After a long pattern and one with a group, the buffer has more size than memory, and a text
of that size is written beyond it. -/
theorem buffer_overrun : ¬ (∀ us, Along next Keeps .null us) ∧
    ∃ b, run next .null overrun = some b ∧
      use b (.makeMessage (fun _ => true) true longText) = .error .bounds := by
  obtain ⟨data, hlong, hok⟩ := next_longText
  have hgroup := next_groupText hok
  refine ⟨fun hall => ?_, ⟨some (image (some oneText)), dstSize + 1, 8⟩, ?_, ?_⟩
  · obtain ⟨-, hrest⟩ := hall overrun
    obtain ⟨⟨b, hb, hkept⟩, -⟩ := hrest _ hlong
    rw [next, hb] at hgroup
    cases hgroup
    obtain ⟨kept, hkept, hle, -⟩ := hkept.allocated
    cases hkept
    rw [length_image short_oneText] at hle
    exact absurd hle (by decide)
  · rw [overrun, run, hlong, Option.bind_some, run, hgroup]
    rfl
  · have hwrite : vsnprintf (image (some oneText)) 0 ((dstSize + 1 : Nat) - (0 : Nat)) longText.1 =
        .error .bounds := by
      rw [vsnprintf, if_neg (by decide), if_neg (by decide), Chars.strcpy,
        length_image short_oneText, if_neg ?_]
      rw [List.length_take, longText, List.length_replicate]
      decide
    rw [use, makeMessage, if_pos rfl, if_neg (Nat.succ_ne_zero dstSize)]
    change (makeMessageLoop (fun _ => true) longText.1 0 32 (image (some oneText)) (dstSize + 1) >>=
      _) = _
    rw [makeMessageLoop, hwrite]
    rfl

end Overrun

end IvyBus.Buffer
