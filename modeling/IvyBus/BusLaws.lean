import IvyBus.Bus
import IvyBus.Lib.Lines
import Mathlib.Tactic.IntervalCases

namespace IvyBus.Bus

open Lib

section Bytes

variable {m : UInt32} {e : UInt8} {front : List UInt8} {i k j : Nat}

def byteAt (m : UInt32) (i : Nat) : UInt8 := (m >>> UInt32.ofNat (8 * (3 - i))).toUInt8

theorem htonl_eq (m : UInt32) : htonl m = [byteAt m 0, byteAt m 1, byteAt m 2, byteAt m 3] := by
  simp [htonl, byteAt]

theorem getLsbD_ff (n : Nat) : (255#32).getLsbD n = decide (n < 8) := by
  by_cases h : n < 32
  · interval_cases n <;> rfl
  · rw [BitVec.getLsbD_of_ge _ _ (by omega), decide_eq_false (by omega)]

theorem byteAt_putElem_ne (hk : k ≤ 3) (hi : i ≤ 3) (hne : i ≠ k) :
    byteAt (putElem m e k) i = byteAt m i := by
  apply UInt8.toBitVec_inj.mp
  apply BitVec.eq_of_getLsbD_eq
  intro j hj
  have hik : 8 * (3 - i) % 32 = 8 * (3 - i) := by omega
  have hkk : 8 * (3 - k) % 32 = 8 * (3 - k) := by omega
  rcases Nat.lt_or_gt_of_ne hne with hlt | hgt
  · have hbeyond : 8 ≤ 8 * (3 - i) + j - 8 * (3 - k) := by omega
    simp [byteAt, putElem, getLsbD_ff, hik, hkk, Nat.not_lt.mpr hbeyond,
      BitVec.getLsbD_of_ge _ _ hbeyond]
  · have hbelow : 8 * (3 - i) + j < 8 * (3 - k) := by omega
    simp [byteAt, putElem, hik, hkk, hbelow]

theorem byteAt_putElem_self (hk : k ≤ 3) (hones : byteAt m k = 255) :
    byteAt (putElem m e k) k = e := by
  apply UInt8.toBitVec_inj.mp
  apply BitVec.eq_of_getLsbD_eq
  intro j hj
  have hkk : 8 * (3 - k) % 32 = 8 * (3 - k) := by omega
  have hlow : 8 * (3 - k) + j < 32 := by omega
  have hj32 : j < 32 := by omega
  have hff8 : (255#8)[j] = true :=
    (BitVec.getLsbD_eq_getElem hj).symm.trans (by interval_cases j <;> rfl)
  have hff32 : (255#32)[j] = true :=
    (BitVec.getLsbD_eq_getElem hj32).symm.trans (by interval_cases j <;> rfl)
  have hbit : m.toBitVec[8 * (3 - k) + j] = true := by
    have hsame := congrArg (fun b => b.toBitVec.getLsbD j) hones
    simpa [byteAt, hkk, hj, hlow, hff8] using hsame
  simp [byteAt, putElem, hkk, hlow, hj, hj32, hbit, hff32]

theorem htonl_putElem (h : htonl m = front ++ List.replicate (4 - front.length) 255)
    (hk : front.length ≤ 3) : htonl (putElem m e front.length) =
      (front ++ [e]) ++ List.replicate (4 - (front ++ [e]).length) 255 := by
  have hbyte (i : Nat) (hi : i ≤ 3) : (htonl m)[i]? = some (byteAt m i) := by
    rw [htonl_eq]
    interval_cases i <;> rfl
  have hones : byteAt m front.length = 255 := by
    have hat := hbyte front.length hk
    rw [h, List.getElem?_append_right (Nat.le_refl _), Nat.sub_self,
      List.getElem?_replicate_of_lt (by omega)] at hat
    exact (Option.some.inj hat).symm
  have hset : htonl (putElem m e front.length) = (htonl m).set front.length e := by
    have hother (i : Nat) (hi : i ≤ 3) : byteAt (putElem m e front.length) i =
        if i = front.length then e else byteAt m i := by
      split
      · rename_i heq
        rw [heq, byteAt_putElem_self hk hones]
      · rename_i hne
        exact byteAt_putElem_ne hk hi hne
    rw [htonl_eq, htonl_eq, hother 0 (by decide), hother 1 (by decide), hother 2 (by decide),
      hother 3 (by decide)]
    generalize front.length = k at hk
    interval_cases k <;> rfl
  have hrest : 4 - front.length = (4 - (front ++ [e]).length) + 1 := by
    rw [List.length_append, List.length_singleton]
    omega
  rw [hset, h, List.set_append_right _ _ (Nat.le_refl _), Nat.sub_self, hrest,
    List.replicate_succ, List.set_cons_zero, List.append_assoc]
  rfl

end Bytes

section Decode

variable {s : Decoder} {c t e : UInt8} {k : Nat} {m : UInt32} {out : List (List UInt8)}
  {ds n element : Str}

def Legal (c : UInt8) : Prop := c ≠ 44 ∧ c ≠ 58 ∧ c ≠ 32 ∧ c ≠ 0

def Ends (t : UInt8) : Prop := t = 44 ∨ t = 58 ∨ t = 0

def fresh (k : Nat) (m : UInt32) (out : List (List UInt8)) : Decoder := ⟨false, 0, k, 0, m, out⟩

def elemOf (ds : Str) : UInt8 := ds.foldl (fun e c => 10 * e + (c - 48)) 0

theorem elemOf_eq (hds : ∀ c ∈ ds, isDigit c) : elemOf ds = UInt8.ofNat (digitsValue ds) := by
  have hfold : ∀ i : Nat, ds.foldl (fun e c => 10 * e + (c - 48)) (UInt8.ofNat i) =
      UInt8.ofNat (ds.foldl (fun i c => 10 * i + (c.toNat - 48)) i) := by
    induction ds with
    | nil => exact fun _ => rfl
    | cons c ds ih =>
      intro i
      have hc := (isDigit_iff c).mp (hds c List.mem_cons_self)
      have hdigit : UInt8.ofNat (c.toNat - 48) = c - 48 := by
        rw [← UInt8.toNat_inj, UInt8.toNat_ofNat', UInt8.toNat_sub]
        have hlt := c.toNat_lt
        simp
        omega
      rw [List.foldl_cons, List.foldl_cons,
        ← ih (fun c hc => hds c (List.mem_cons_of_mem _ hc)), UInt8.ofNat_add, UInt8.ofNat_mul,
        hdigit]
      rfl
  exact hfold 0

theorem decode_digit (hk : k < 4) (hc : isDigit c = true) :
    decode ⟨false, 0, k, e, m, out⟩ c = some ⟨false, 0, k, 10 * e + (c - 48), m, out⟩ := by
  simp [decode, hc, hk]

theorem foldlM_digits (hk : k < 4) (hds : ∀ c ∈ ds, isDigit c) :
    ds.foldlM decode ⟨false, 0, k, e, m, out⟩ =
      some ⟨false, 0, k, ds.foldl (fun e c => 10 * e + (c - 48)) e, m, out⟩ := by
  induction ds generalizing e with
  | nil => rfl
  | cons c ds ih =>
    rw [List.foldlM_cons, decode_digit hk (hds c List.mem_cons_self)]
    exact ih fun c hc => hds c (List.mem_cons_of_mem _ hc)

theorem foldlM_error (hs : s.error = true) (hlegal : ∀ c ∈ ds, Legal c) :
    ds.foldlM decode s = some s := by
  induction ds with
  | nil => rfl
  | cons c ds ih =>
    obtain ⟨hcomma, hcolon, hspace, hzero⟩ := hlegal c List.mem_cons_self
    have hsame : decode s c = some s := by
      obtain ⟨error, numdigit, numelem, elem, mask, broadcasts⟩ := s
      subst hs
      simp [decode, hcomma, hcolon, hspace, hzero]
    rw [List.foldlM_cons, hsame]
    exact ih fun c hc => hlegal c (List.mem_cons_of_mem _ hc)

def Spoiled (k : Nat) (n : Str) : Prop := (∃ c ∈ n, isDigit c = false) ∨ 4 ≤ k ∧ n ≠ []

theorem foldlM_spoiled (hspoiled : Spoiled k n) (hlegal : ∀ c ∈ n, Legal c) (hdot : 46 ∉ n) :
    ∃ s, n.foldlM decode ⟨false, 0, k, e, m, out⟩ = some s ∧ s.error = true ∧
      s.broadcasts = out := by
  induction n generalizing e with
  | nil =>
    rcases hspoiled with ⟨c, hc, -⟩ | ⟨-, hne⟩
    · cases hc
    · exact absurd rfl hne
  | cons c n ih =>
    have hrest := fun c hc => hlegal c (List.mem_cons_of_mem _ hc)
    have hstop (hdecode : decode ⟨false, 0, k, e, m, out⟩ c = some ⟨true, 0, k, e, m, out⟩) :
        ∃ s, (c :: n).foldlM decode ⟨false, 0, k, e, m, out⟩ = some s ∧ s.error = true ∧
          s.broadcasts = out := by
      rw [List.foldlM_cons, hdecode]
      exact ⟨_, foldlM_error rfl hrest, rfl, rfl⟩
    cases hc : isDigit c with
    | false =>
      obtain ⟨hcomma, hcolon, hspace, hzero⟩ := hlegal c List.mem_cons_self
      have hpoint : c ≠ 46 := fun heq => hdot (heq ▸ List.mem_cons_self)
      exact hstop (by simp [decode, hc, hcomma, hcolon, hspace, hzero, hpoint])
    | true =>
      by_cases hk : k < 4
      · rw [List.foldlM_cons, decode_digit hk hc]
        refine ih (Or.inl ?_) hrest fun hmem => hdot (List.mem_cons_of_mem _ hmem)
        rcases hspoiled with ⟨d, hd, hno⟩ | ⟨hle, -⟩
        · rcases List.mem_cons.mp hd with rfl | hd
          · rw [hc] at hno
            cases hno
          · exact ⟨d, hd, hno⟩
        · omega
      · exact hstop (by simp [decode, hc, hk])

theorem decode_ends_error (hs : s.error = true) (ht : Ends t) :
    decode s t = some (fresh 0 0xffffffff s.broadcasts) := by
  obtain ⟨error, numdigit, numelem, elem, mask, broadcasts⟩ := s
  subst hs
  rcases ht with rfl | rfl | rfl <;> rfl

theorem decode_ends (ht : Ends t) : decode ⟨false, 0, k, e, m, out⟩ t =
    if k ≤ 3 then some (fresh 0 0xffffffff (out ++ [htonl (putElem m e k)])) else none := by
  rcases ht with rfl | rfl | rfl <;> rfl

theorem decode_dot : decode ⟨false, 0, k, e, m, out⟩ 46 =
    if k ≤ 3 then some (fresh (k + 1) (putElem m e k) out) else none := rfl

end Decode

def outcome : Nat → UInt32 → List Str → Option (Option UInt32)
  | _, m, [] => some (some m)
  | k, m, n :: ns =>
    if n.all isDigit && (k ≤ 3 || n = []) then
      if k ≤ 3 then outcome (k + 1) (putElem m (elemOf n) k) ns else none
    else some none

section Element

variable {t : UInt8} {k : Nat} {m : UInt32} {out : List (List UInt8)} {n element : Str}
  {ns : List Str}

theorem spoiled_iff : Spoiled k n ↔ (n.all isDigit && (k ≤ 3 || n = [])) = false := by
  rw [Bool.and_eq_false_iff, Spoiled]
  refine or_congr ?_ ?_
  · simp
  · simp [Nat.lt_iff_add_one_le]

theorem outcome_spoiled (h : Spoiled k n) : outcome k m (n :: ns) = some none := by
  rw [outcome, if_neg (Bool.not_eq_true _ ▸ spoiled_iff.mp h)]

theorem outcome_clean (h : ¬ Spoiled k n) : outcome k m (n :: ns) =
    if k ≤ 3 then outcome (k + 1) (putElem m (elemOf n) k) ns else none := by
  rw [spoiled_iff, Bool.not_eq_false] at h
  rw [outcome, if_pos h]

theorem foldlM_clean (h : ¬ Spoiled k n) :
    n.foldlM decode (fresh k m out) = some ⟨false, 0, k, elemOf n, m, out⟩ := by
  rw [Spoiled, not_or, not_and, not_not] at h
  obtain ⟨hdigits, hempty⟩ := h
  have hds : ∀ c ∈ n, isDigit c := fun c hc => by
    by_contra hno
    exact hdigits ⟨c, hc, Bool.not_eq_true _ ▸ hno⟩
  rcases Nat.lt_or_ge k 4 with hlt | hge
  · exact foldlM_digits hlt hds
  · rw [hempty hge]
    rfl

theorem decode_element (ht : Ends t) (hlegal : ∀ c ∈ element, Legal c) (k : Nat) (m : UInt32) :
    (element ++ [t]).foldlM decode (fresh k m out) = (outcome k m (components element)).map
      fun o => fresh 0 0xffffffff (out ++ (o.map htonl).toList) := by
  induction element using splitOn_induction (d := (46 : UInt8)) generalizing k m with
  | last n hdot =>
    have hsplit : components n = [n] := List.splitOn_eq_singleton hdot
    rw [List.foldlM_append, hsplit]
    by_cases hspoiled : Spoiled k n
    · obtain ⟨s, hs, herror, hout⟩ := foldlM_spoiled hspoiled hlegal hdot
      rw [fresh, hs, outcome_spoiled hspoiled]
      change (decode s t).bind some = _
      rw [decode_ends_error herror ht, hout]
      simp
    · rw [foldlM_clean hspoiled, outcome_clean hspoiled]
      change (decode _ t).bind some = _
      rw [decode_ends ht]
      split
      · rfl
      · rfl
  | part n rest hdot ih =>
    have hsplit : components (n ++ 46 :: rest) = n :: components rest :=
      List.splitOn_append_cons_self_of_not_mem hdot rest
    have hn := fun c hc => hlegal c (List.mem_append_left _ hc)
    have hrest := fun c hc => hlegal c (List.mem_append_right n (List.mem_cons_of_mem _ hc))
    rw [List.append_assoc, List.foldlM_append, hsplit, List.cons_append]
    by_cases hspoiled : Spoiled k n
    · obtain ⟨s, hs, herror, hout⟩ := foldlM_spoiled hspoiled hn hdot
      have hpassed : (46 :: rest).foldlM decode s = some s :=
        foldlM_error herror fun c hc => hlegal c (List.mem_append_right n hc)
      rw [fresh, hs, outcome_spoiled hspoiled]
      change ((46 :: rest) ++ [t]).foldlM decode s = _
      rw [List.foldlM_append, hpassed]
      change (decode s t).bind some = _
      rw [decode_ends_error herror ht, hout]
      simp
    · rw [foldlM_clean hspoiled, outcome_clean hspoiled]
      change (decode _ 46).bind (fun s => (rest ++ [t]).foldlM decode s) = _
      rw [decode_dot]
      split
      · exact ih hrest (k + 1) _
      · rfl

end Element

def told (element : Str) : Option (Option (List UInt8)) :=
  (outcome 0 0xffffffff (components element)).map fun o => o.map htonl

section Network

variable {s : Decoder} {out : List (List UInt8)} {x y network tail : Str}

theorem decodeList_append (hx : 58 ∉ x) :
    decodeList s (x ++ y) = (x.foldlM decode s).bind fun s => decodeList s y := by
  induction x generalizing s with
  | nil => rfl
  | cons c x ih =>
    rw [List.mem_cons, not_or] at hx
    rw [List.cons_append, decodeList, List.foldlM_cons]
    change _ = ((decode s c).bind fun s => x.foldlM decode s).bind _
    rw [Option.bind_assoc]
    refine congrArg (Option.bind _) (funext fun s => ?_)
    rw [if_neg (Ne.symm hx.1), ih hx.2]

def Stops (tail : Str) : Prop := tail = [] ∨ ∃ port, tail = 58 :: port

theorem decodeList_stops (htail : Stops tail) : ∃ t, Ends t ∧
    ∀ s, decodeList s tail = decode s t := by
  rcases htail with rfl | ⟨port, rfl⟩
  · exact ⟨0, Or.inr (Or.inr rfl), fun s => rfl⟩
  · refine ⟨58, Or.inr (Or.inl rfl), fun s => ?_⟩
    rw [decodeList]
    exact Option.bind_fun_some _

theorem decode_ended {t : UInt8} {element : Str} (ht : Ends t) (hlegal : ∀ c ∈ element, Legal c) :
    ((element.foldlM decode (fresh 0 0xffffffff out)).bind fun s => decode s t) =
      (told element).map fun o => fresh 0 0xffffffff (out ++ o.toList) := by
  have hdecode := @decode_element t out element ht hlegal 0 0xffffffff
  rw [List.foldlM_append] at hdecode
  rw [told, Option.map_map]
  refine Eq.trans ?_ hdecode
  refine congrArg (Option.bind _) (funext fun s => ?_)
  exact (Option.bind_fun_some _).symm

theorem decodeList_network (htail : Stops tail)
    (hlegal : ∀ c ∈ network, c ≠ 58 ∧ c ≠ 32 ∧ c ≠ 0) :
    decodeList (fresh 0 0xffffffff out) (network ++ tail) =
      ((network.splitOn 44).mapM told).map fun os =>
        fresh 0 0xffffffff (out ++ os.filterMap id) := by
  have hcolon : ∀ {x : Str}, (∀ c ∈ x, c ≠ 58 ∧ c ≠ 32 ∧ c ≠ 0) → 58 ∉ x :=
    fun h hmem => (h 58 hmem).1 rfl
  induction network using splitOn_induction (d := (44 : UInt8)) generalizing out with
  | last element hcomma =>
    obtain ⟨t, ht, hstop⟩ := decodeList_stops htail
    have helement : ∀ c ∈ element, Legal c := fun c hc =>
      ⟨fun heq => hcomma (heq ▸ hc), hlegal c hc⟩
    rw [List.splitOn_eq_singleton hcomma, decodeList_append (hcolon hlegal)]
    simp only [hstop]
    rw [decode_ended ht helement, List.mapM_cons, List.mapM_nil]
    cases told element with
    | none => rfl
    | some o => cases o <;> rfl
  | part element rest hcomma ih =>
    have hlegal' := fun c hc => hlegal c (List.mem_append_left _ hc)
    have hrest := fun c hc => hlegal c (List.mem_append_right element (List.mem_cons_of_mem _ hc))
    have helement : ∀ c ∈ element, Legal c := fun c hc =>
      ⟨fun heq => hcomma (heq ▸ hc), hlegal' c hc⟩
    have hround (s : Decoder) : decodeList s (44 :: (rest ++ tail)) =
        (decode s 44).bind fun s => decodeList s (rest ++ tail) := rfl
    rw [List.splitOn_append_cons_self_of_not_mem hcomma rest, List.append_assoc, List.cons_append,
      decodeList_append (hcolon hlegal')]
    simp only [hround]
    rw [← Option.bind_assoc, decode_ended (Or.inl rfl) helement, List.mapM_cons]
    cases told element with
    | none => rfl
    | some o =>
      rw [Option.map_some, Option.bind_some, ih hrest]
      change _ = (((rest.splitOn 44).mapM told).bind fun os => some (o :: os)).map _
      cases (rest.splitOn 44).mapM told with
      | none => rfl
      | some os => cases o <;> simp

end Network

section Shape

variable {m : UInt32} {front : List UInt8} {k : Nat} {n element : Str} {ns : List Str}

theorem isNumber_iff : isNumber n = true ↔
    n ≠ [] ∧ n.length ≤ 3 ∧ (∀ c ∈ n, isDigit c) ∧ digitsValue n ≤ 255 := by
  simp [isNumber, and_assoc]

theorem not_spoiled_of_isNumber (hk : k ≤ 3) (hn : isNumber n = true) : ¬ Spoiled k n := by
  rintro (⟨c, hc, hno⟩ | ⟨hge, -⟩)
  · rw [(isNumber_iff.mp hn).2.2.1 c hc] at hno
    cases hno
  · omega

theorem outcome_numbers (hm : htonl m = front ++ List.replicate (4 - front.length) 255)
    (hns : ∀ n ∈ ns, isNumber n = true) (hlength : front.length + ns.length ≤ 4) :
    ∃ m', outcome front.length m ns = some (some m') ∧
      htonl m' = front ++ ns.map (fun n => UInt8.ofNat (digitsValue n)) ++
        List.replicate (4 - front.length - ns.length) 255 := by
  induction ns generalizing front m with
  | nil => exact ⟨m, rfl, by rw [hm]; simp⟩
  | cons n ns ih =>
    obtain ⟨hn, hns⟩ := List.forall_mem_cons.mp hns
    rw [List.length_cons] at hlength
    have hk : front.length ≤ 3 := by omega
    have hput := @htonl_putElem m (elemOf n) front hm hk
    obtain ⟨m', hm', hbytes⟩ := ih hput hns (by
      rw [List.length_append, List.length_singleton]
      omega)
    rw [List.length_append, List.length_singleton] at hm' hbytes
    refine ⟨m', ?_, ?_⟩
    · rw [outcome_clean (not_spoiled_of_isNumber hk hn), if_pos hk, hm']
    · have hrest : 4 - (front.length + 1) - ns.length = 4 - front.length - (n :: ns).length := by
        rw [List.length_cons]
        omega
      rw [hbytes, hrest, elemOf_eq (isNumber_iff.mp hn).2.2.1, List.map_cons,
        List.append_assoc front]
      rfl

theorem outcome_eq_error_iff (hk : k ≤ 4) : outcome k m ns = some none ↔
    (∃ n ∈ ns.take (4 - k), ∃ c ∈ n, isDigit c = false) ∨
      ∃ n, ns[4 - k]? = some n ∧ n ≠ [] := by
  induction ns generalizing k m with
  | nil => simp [outcome]
  | cons n ns ih =>
    rcases Nat.lt_or_ge k 4 with hlt | hge
    · have hstep : 4 - k = (4 - (k + 1)) + 1 := by omega
      have hspoiled : Spoiled k n ↔ ∃ c ∈ n, isDigit c = false :=
        or_iff_left fun h => absurd h.1 (by omega)
      rw [hstep, List.take_succ_cons, List.getElem?_cons_succ]
      simp only [List.exists_mem_cons_iff]
      by_cases h : Spoiled k n
      · exact iff_of_true (outcome_spoiled h) (Or.inl (Or.inl (hspoiled.mp h)))
      · rw [outcome_clean h, if_pos (by omega), ih hlt, or_iff_right (mt hspoiled.mpr h)]
    · obtain rfl : k = 4 := Nat.le_antisymm hk hge
      have hspoiled : Spoiled 4 n ↔ n ≠ [] := by
        refine ⟨?_, fun h => Or.inr ⟨Nat.le_refl 4, h⟩⟩
        rintro (⟨c, hc, -⟩ | ⟨-, h⟩)
        · exact List.ne_nil_of_mem hc
        · exact h
      by_cases h : Spoiled 4 n
      · exact iff_of_true (outcome_spoiled h) (Or.inr ⟨n, rfl, hspoiled.mp h⟩)
      · rw [outcome_clean h, if_neg (by decide)]
        refine iff_of_false nofun ?_
        rintro (⟨n', hn', -⟩ | ⟨n', hn', hne⟩)
        · cases hn'
        · cases hn'
          exact h (hspoiled.mpr hne)

theorem told_wellFormed (h : wellFormed element = true) :
    told element = some (some (address (components element))) := by
  obtain ⟨hlength, hnumbers⟩ := Bool.and_eq_true_iff.mp h
  obtain ⟨m', hm', hbytes⟩ := @outcome_numbers 0xffffffff [] _ (by decide)
    (List.all_eq_true.mp hnumbers) (by simpa using hlength)
  rw [List.length_nil] at hm' hbytes
  rw [told, hm', Option.map_some, Option.map_some, hbytes]
  rfl

theorem told_eq_none_iff : told element = some none ↔ Caught element := by
  rw [told, Caught, ← outcome_eq_error_iff (k := 0) (m := 0xffffffff) (Nat.zero_le 4)]
  cases outcome 0 0xffffffff (components element) with
  | none => simp
  | some o => simp

theorem told_eq_expected_iff :
    told element = some (expected element) ↔ wellFormed element = true ∨ Caught element := by
  rw [expected]
  by_cases h : wellFormed element = true
  · rw [if_pos h]
    exact iff_of_true (told_wellFormed h) (Or.inl h)
  · rw [if_neg h, told_eq_none_iff, or_iff_right h]

end Shape

section Start

variable {network : Str} {es : List Str}

theorem expected_le_told {os : List (Option (List UInt8))} (hos : es.mapM told = some os) :
    (es.filterMap expected).length ≤ (os.filterMap id).length ∧
      ((es.filterMap expected).length = (os.filterMap id).length →
        ∀ e ∈ es, told e = some (expected e)) := by
  induction es generalizing os with
  | nil => exact ⟨Nat.zero_le _, fun _ => nofun⟩
  | cons e es ih =>
    rw [List.mapM_cons] at hos
    obtain ⟨o, ho, hos⟩ := Option.bind_eq_some_iff.mp hos
    obtain ⟨os, hrest, hcons⟩ := Option.bind_eq_some_iff.mp hos
    obtain rfl := Option.some.inj hcons
    obtain ⟨hle, hall⟩ := ih hrest
    rw [List.filterMap_cons, List.filterMap_cons]
    by_cases hwell : wellFormed e = true
    · have htold := told_wellFormed hwell
      have hexpected : expected e = some (address (components e)) := if_pos hwell
      rw [ho, Option.some.injEq] at htold
      rw [hexpected, htold]
      simp only [id_eq, List.length_cons, Nat.add_le_add_iff_right, Nat.add_right_cancel_iff,
        List.forall_mem_cons]
      exact ⟨hle, fun heq => ⟨by rw [ho, htold, hexpected], hall heq⟩⟩
    · have hexpected : expected e = none := if_neg hwell
      rw [hexpected]
      cases o with
      | none =>
        simp only [id_eq, List.forall_mem_cons]
        exact ⟨hle, fun heq => ⟨by rw [ho, hexpected], hall heq⟩⟩
      | some a =>
        change (es.filterMap expected).length ≤ (a :: os.filterMap id).length ∧
          ((es.filterMap expected).length = (a :: os.filterMap id).length → _)
        rw [List.length_cons]
        exact ⟨Nat.le_succ_of_le hle, fun heq => absurd heq (by omega)⟩

theorem told_of_expected (h : ∀ e ∈ es, told e = some (expected e)) :
    ((es.mapM told).map fun os => os.filterMap id) = some (es.filterMap expected) := by
  induction es with
  | nil => rfl
  | cons e es ih =>
    obtain ⟨he, hes⟩ := List.forall_mem_cons.mp h
    obtain ⟨os, hos, heq⟩ := Option.map_eq_some_iff.mp (ih hes)
    rw [List.mapM_cons, he, hos, List.filterMap_cons]
    change some ((expected e :: os).filterMap id) = _
    rw [List.filterMap_cons, heq]
    rfl

theorem told_all_iff : ((es.mapM told).map fun os => os.filterMap id) =
    some (es.filterMap expected) ↔ ∀ e ∈ es, told e = some (expected e) := by
  refine ⟨fun h => ?_, told_of_expected⟩
  obtain ⟨os, hos, heq⟩ := Option.map_eq_some_iff.mp h
  exact (expected_le_told hos).2 (congrArg List.length heq.symm)

theorem strrchr_of_notMem {s : Str} {c : UInt8} (h : c ∉ s) : strrchr s c = none := by
  have hall : ∀ d ∈ s.reverse, decide (d ≠ c) = true := fun d hd =>
    decide_eq_true fun (heq : d = c) => h (heq ▸ List.mem_reverse.mp hd)
  rw [strrchr, List.dropWhile_eq_nil_iff.mpr hall]

theorem strrchr_append {s t : Str} {c : UInt8} (h : c ∉ t) :
    strrchr (s ++ c :: t) c = some (s, t) := by
  have hall : ∀ d ∈ t.reverse, decide (d ≠ c) = true := fun d hd =>
    decide_eq_true fun (heq : d = c) => h (heq ▸ List.mem_reverse.mp hd)
  have hreverse : (s ++ c :: t).reverse = t.reverse ++ c :: s.reverse := by simp
  have hstop : (c :: s.reverse).dropWhile (· ≠ c) = c :: s.reverse := by simp
  have htake : (c :: s.reverse).takeWhile (· ≠ c) = [] := by simp
  rw [strrchr, hreverse, List.dropWhile_append_of_pos hall, hstop,
    List.takeWhile_append_of_pos hall, htake]
  simp

variable (b : BusString)

theorem strrchr_text : strrchr b.text 58 = b.port.map fun port => (b.network, port) := by
  have hnetwork : 58 ∉ b.network := fun h => (b.network_legal 58 h).1 rfl
  rw [BusString.text]
  cases hport : b.port with
  | none => exact strrchr_of_notMem (by simpa using hnetwork)
  | some port =>
    have hlegal := b.port_legal port hport
    exact strrchr_append fun h => (hlegal 58 h).1 rfl

theorem stops_port : Stops (b.port.elim [] (58 :: ·)) := by
  cases b.port with
  | none => exact Or.inl rfl
  | some port => exact Or.inr ⟨port, rfl⟩

theorem text_ne_nil : b.text ≠ [] := by
  rw [BusString.text]
  exact List.append_ne_nil_of_left_ne_nil b.network_ne_nil _

theorem ivyStart_some {p : Str} (hp : p ≠ []) (inetPton : Chars → Bool) (getenv : Option Str) :
    ivyStart inetPton getenv (some p) = (addr (strrchr p 58)).bind fun addr =>
      let port := (strrchr p 58).elim 0 fun q => atoi q.2
      let supervisionPort := if port ≠ 0 then port else ivyDefaultBus
      if inetPton addr then some (supervisionPort, [.v6])
      else (decodeList .init (if (strrchr p 58).any (·.1 = []) then defaultIvyBus else p)).map
        fun s => (supervisionPort, s.broadcasts.map .v4) := by
  cases p with
  | nil => exact absurd rfl hp
  | cons c p => rfl

/-- What `IvyStart` does with a bus string that has a network part. -/
theorem ivyStart_text (inetPton : Chars → Bool) (getenv : Option Str) :
    ∃ port, ivyStart inetPton getenv (some b.text) =
      (addr (b.port.map fun port => (b.network, port))).bind fun addr =>
        if inetPton addr then some (port, [.v6])
        else ((b.elements.mapM told).map fun os => os.filterMap id).map fun out =>
          (port, out.map .v4) := by
  have hnetwork : (b.port.map fun port => (b.network, port)).any (·.1 = []) = false := by
    cases b.port with
    | none => rfl
    | some port => exact decide_eq_false b.network_ne_nil
  have hdecode := @decodeList_network [] b.network _ (stops_port b) b.network_legal
  have hdecoded : decodeList .init b.text = ((b.elements.mapM told).map fun os =>
      os.filterMap id).map fun out => fresh 0 0xffffffff out := by
    rw [Option.map_map]
    exact hdecode
  let port := (b.port.map fun port => (b.network, port)).elim 0 fun q => atoi q.2
  refine ⟨if port ≠ 0 then port else ivyDefaultBus, ?_⟩
  rw [ivyStart_some (text_ne_nil b), strrchr_text, hnetwork, if_neg Bool.false_ne_true, hdecoded]
  refine congrArg (Option.bind _) (funext fun addr => ?_)
  dsimp only
  split
  · rfl
  · rw [Option.map_map]
    rfl

end Start

/-- For every bus string with a network part, the right addresses are broadcast to exactly when
the network part fits into `addr`, no IPv6 address is found there, and each element is well formed
or refused. -/
theorem ivyStart_correct_iff (inetPton : Chars → Bool) (getenv : Option Str) (b : BusString) :
    Correct inetPton getenv b ↔
      (∃ array, addr (b.port.map fun port => (b.network, port)) = some array ∧
        inetPton array = false) ∧
      ∀ element ∈ b.elements, wellFormed element = true ∨ Caught element := by
  obtain ⟨port, hstart⟩ := ivyStart_text b inetPton getenv
  have hsound : (∀ element ∈ b.elements, wellFormed element = true ∨ Caught element) ↔
      ((b.elements.mapM told).map fun os => os.filterMap id) =
        some (b.elements.filterMap expected) := by
    rw [told_all_iff]
    exact forall_congr' fun element => forall_congr' fun _ => told_eq_expected_iff.symm
  have hinj : Function.Injective (List.map Broadcast.v4) :=
    List.map_injective_iff.mpr fun _ _ h => Broadcast.v4.inj h
  rw [Correct, hstart, hsound]
  cases addr (b.port.map fun port => (b.network, port)) with
  | none => exact iff_of_false (fun ⟨_, h⟩ => nomatch h) (fun ⟨⟨_, h, _⟩, _⟩ => nomatch h)
  | some array =>
    rw [Option.bind_some]
    cases hfound : inetPton array with
    | true =>
      refine iff_of_false ?_ ?_
      · rintro ⟨port', h⟩
        rw [if_pos rfl, Option.some.injEq, Prod.mk.injEq] at h
        cases hlist : b.elements.filterMap expected with
        | nil =>
          rw [hlist] at h
          cases h.2
        | cons a l =>
          rw [hlist] at h
          cases h.2
      · rintro ⟨⟨array', h, hnot⟩, -⟩
        cases h
        rw [hfound] at hnot
        cases hnot
    | false =>
      rw [if_neg Bool.false_ne_true]
      refine Iff.trans ?_ (and_iff_right ⟨array, rfl, hfound⟩).symm
      constructor
      · rintro ⟨port', h⟩
        obtain ⟨out, hout, heq⟩ := Option.map_eq_some_iff.mp h
        rw [hout, hinj (Prod.mk.inj heq).2]
      · intro h
        exact ⟨port, by rw [h, Option.map_some]⟩

section Failing

def fourDigits : BusString :=
  ⟨ascii "1234", some (ascii "2010"), by decide, by decide +kernel, by decide +kernel⟩

def fifthPoint : BusString :=
  ⟨ascii "127.0.0.1.", some (ascii "2010"), by decide, by decide +kernel, by decide +kernel⟩

/-- A malformed element is broadcast, and another one leads to a shift by a negative amount. -/
theorem malformed_broadcast :
    ivyStart (fun _ => false) none (some fourDigits.text) =
        some (2010, [.v4 [210, 255, 255, 255]]) ∧
      ¬ Correct (fun _ => false) none fourDigits ∧
    ivyStart (fun _ => false) none (some fifthPoint.text) = none ∧
      ¬ Correct (fun _ => false) none fifthPoint := by
  have hfour : ivyStart (fun _ => false) none (some fourDigits.text) =
      some (2010, [.v4 [210, 255, 255, 255]]) := by decide +kernel
  have hfifth : ivyStart (fun _ => false) none (some fifthPoint.text) = none := by decide +kernel
  refine ⟨hfour, ?_, hfifth, ?_⟩
  · rintro ⟨port, h⟩
    rw [hfour] at h
    have hnone : fourDigits.elements.filterMap expected = [] := by decide +kernel
    rw [hnone] at h
    cases h
  · rintro ⟨port, h⟩
    rw [hfifth] at h
    cases h

end Failing

end IvyBus.Bus
