import Mathlib.Algebra.Group.Nat.Defs
import Mathlib.Data.List.Induction
import Mathlib.Data.List.TakeWhile
import Mathlib.Data.Int.Notation

namespace IvyBus.Lib

def digit (d : Nat) : UInt8 := UInt8.ofNat (48 + d)

def isDigit (b : UInt8) : Bool := 48 ≤ b && b ≤ 57

def isSpace (b : UInt8) : Bool := b = 32 || 9 ≤ b && b ≤ 13

def printDigits : Nat → Nat → List UInt8
  | 0, _ => []
  | fuel + 1, n =>
    if n < 10 then [digit n] else printDigits fuel (n / 10) ++ [digit (n % 10)]

def printNat (n : Nat) : List UInt8 := printDigits (n + 1) n

/-- The conversion `%d` of `printf`. -/
def printInt (i : Int) : List UInt8 :=
  if i < 0 then 45 :: printNat i.natAbs else printNat i.natAbs

def digitsValue (ds : List UInt8) : Nat := ds.foldl (fun n b => 10 * n + (b.toNat - 48)) 0

def scanNat (s : List UInt8) : Option (Nat × List UInt8) :=
  if s.takeWhile isDigit = [] then none
  else some (digitsValue (s.takeWhile isDigit), s.dropWhile isDigit)

def scanSigned : List UInt8 → Option (Int × List UInt8)
  | 45 :: s => (scanNat s).map fun p => (-p.1, p.2)
  | 43 :: s => (scanNat s).map fun p => (p.1, p.2)
  | s => (scanNat s).map fun p => (p.1, p.2)

/-- The conversion `%d` of `scanf`: the value read and the rest of the input. -/
def scanInt (s : List UInt8) : Option (Int × List UInt8) := scanSigned (s.dropWhile isSpace)

/-- `strtol` of a number: one that does not fit is clamped. -/
def strtol (i : Int) : Int64 := Int64.ofIntClamp i

def strtoul (i : Int) : UInt64 :=
  if i.natAbs < UInt64.size then UInt64.ofInt i else 0xffffffffffffffff

theorem toInt32_strtol (i : Int32) : (strtol i.toInt).toInt32 = i := by
  have hlow := i.le_toInt
  have hhigh := i.toInt_lt
  rw [strtol, Int64.toInt32_ofIntClamp (by omega) (by omega), Int32.ofInt_toInt]

theorem toUInt16_strtoul (n : UInt16) : (strtoul n.toNat).toUInt16 = n := by
  have hlt := n.toNat_lt
  have hfits : (n.toNat : Int).natAbs < UInt64.size := Nat.lt_trans hlt (by decide)
  rw [strtoul, if_pos hfits, UInt64.ofInt, ← UInt16.toNat_inj, UInt64.toNat_toUInt16,
    UInt64.toNat_ofNat']
  omega

theorem toNat_digit {d : Nat} (h : d < 10) : (digit d).toNat = 48 + d := by
  rw [digit, UInt8.toNat_ofNat']
  omega

theorem isDigit_iff (b : UInt8) : isDigit b ↔ 48 ≤ b.toNat ∧ b.toNat ≤ 57 := by
  simp [isDigit, UInt8.le_iff_toNat_le]

theorem isDigit_digit {d : Nat} (h : d < 10) : isDigit (digit d) := by
  rw [isDigit_iff, toNat_digit h]
  omega

theorem printDigits_eq {fuel n : Nat} (h : n < fuel) : printDigits fuel n = printNat n := by
  induction n using Nat.strongRecOn generalizing fuel with
  | ind n ih =>
    obtain ⟨fuel, rfl⟩ := Nat.exists_eq_add_of_lt h
    rw [printNat]
    simp only [printDigits]
    split
    · rfl
    · rw [ih (n / 10) (by omega) (by omega), ih (n / 10) (by omega) (by omega)]

theorem printNat_eq (n : Nat) : printNat n =
    if n < 10 then [digit n] else printNat (n / 10) ++ [digit (n % 10)] := by
  rw [printNat, printDigits]
  split
  · rfl
  · rw [printDigits_eq (by omega)]

theorem isDigit_of_mem {n : Nat} : ∀ b ∈ printNat n, isDigit b := by
  induction n using Nat.strongRecOn with
  | ind n ih =>
    rw [printNat_eq]
    split
    · rename_i hn
      simpa using isDigit_digit hn
    · intro b hb
      rcases List.mem_append.mp hb with hb | hb
      · exact ih (n / 10) (by omega) b hb
      · rw [List.mem_singleton.mp hb]
        exact isDigit_digit (Nat.mod_lt _ (by decide))

theorem printNat_ne_nil (n : Nat) : printNat n ≠ [] := by
  rw [printNat_eq]
  split <;> simp

theorem length_printNat_le {k n : Nat} (h : n < 10 ^ (k + 1)) : (printNat n).length ≤ k + 1 := by
  induction k generalizing n with
  | zero =>
    have hdigit : n < 10 := h
    rw [printNat_eq, if_pos hdigit]
    exact le_rfl
  | succ k ih =>
    rw [printNat_eq]
    split
    · exact Nat.le_add_left ..
    · rw [List.length_append, List.length_singleton]
      have hdiv : n / 10 < 10 ^ (k + 1) := Nat.div_lt_of_lt_mul (by rwa [← Nat.pow_succ'])
      exact Nat.succ_le_succ (ih hdiv)

theorem digitsValue_printNat (n : Nat) : digitsValue (printNat n) = n := by
  induction n using Nat.strongRecOn with
  | ind n ih =>
    rw [printNat_eq]
    split
    · rename_i hn
      simp [digitsValue, toNat_digit hn]
    · have hlast := toNat_digit (Nat.mod_lt n (by decide : 10 > 0))
      have hfront := ih (n / 10) (by omega)
      rw [digitsValue] at hfront
      rw [digitsValue, List.foldl_append, hfront]
      simp only [List.foldl_cons, List.foldl_nil, hlast]
      omega

theorem takeWhile_append_of_all {p : UInt8 → Bool} {s t : List UInt8} (hs : ∀ b ∈ s, p b)
    (ht : ∀ b, t.head? = some b → p b = false) :
    (s ++ t).takeWhile p = s ∧ (s ++ t).dropWhile p = t := by
  rw [List.takeWhile_append_of_pos hs, List.dropWhile_append_of_pos hs]
  cases t with
  | nil => simp
  | cons b t => simp [ht b rfl]

theorem scanNat_digits {ds t : List UInt8} (hne : ds ≠ []) (hds : ∀ b ∈ ds, isDigit b)
    (ht : ∀ b, t.head? = some b → isDigit b = false) :
    scanNat (ds ++ t) = some (digitsValue ds, t) := by
  obtain ⟨htake, hdrop⟩ := takeWhile_append_of_all hds ht
  rw [scanNat, htake, hdrop, if_neg hne]

theorem scanSigned_digit {b : UInt8} (hb : isDigit b) (s : List UInt8) :
    scanSigned (b :: s) = (scanNat (b :: s)).map fun p => ((p.1 : Int), p.2) := by
  rw [isDigit_iff] at hb
  unfold scanSigned
  split
  · rename_i h
    rw [(List.cons.inj h).1] at hb
    exact absurd hb (by decide)
  · rename_i h
    rw [(List.cons.inj h).1] at hb
    exact absurd hb (by decide)
  · rfl

theorem isSpace_of_isDigit {b : UInt8} (h : isDigit b) : isSpace b = false := by
  rw [isDigit_iff] at h
  simp only [isSpace, Bool.or_eq_false_iff, Bool.and_eq_false_iff, decide_eq_false_iff_not,
    UInt8.le_iff_toNat_le, ← UInt8.toNat_inj]
  exact ⟨fun h' => by simp at h'; omega, Or.inr (by simp; omega)⟩

inductive Numeral : List UInt8 → Int → Prop
  | digits {ds : List UInt8} {i : Int} : ds ≠ [] → (∀ b ∈ ds, isDigit b) → i = digitsValue ds →
      Numeral ds i
  | minus {ds : List UInt8} {i : Int} : ds ≠ [] → (∀ b ∈ ds, isDigit b) →
      i = -(digitsValue ds : Int) → Numeral (45 :: ds) i

theorem numeral_printInt (i : Int) : Numeral (printInt i) i := by
  have hvalue := digitsValue_printNat i.natAbs
  rw [printInt]
  split
  · exact .minus (printNat_ne_nil _) isDigit_of_mem (by omega)
  · exact .digits (printNat_ne_nil _) isDigit_of_mem (by omega)

theorem Numeral.scanInt {s t : List UInt8} {i : Int} (h : Numeral s i)
    (ht : ∀ b, t.head? = some b → isDigit b = false) : scanInt (s ++ t) = some (i, t) := by
  cases h with
  | @digits _ _ hne hds hi =>
    have hscan := scanNat_digits hne hds ht
    obtain ⟨b, ds, rfl⟩ := List.exists_cons_of_ne_nil hne
    have hb : isDigit b := hds b List.mem_cons_self
    rw [List.cons_append] at hscan ⊢
    rw [Lib.scanInt, List.dropWhile_cons, isSpace_of_isDigit hb]
    change scanSigned (b :: (ds ++ t)) = _
    rw [scanSigned_digit hb, hscan, hi]
    rfl
  | @minus ds _ hne hds hi =>
    change scanSigned (45 :: (ds ++ t)) = _
    rw [scanSigned, scanNat_digits hne hds ht, hi]
    rfl

theorem Numeral.mem {s : List UInt8} {i : Int} {b : UInt8} (h : Numeral s i) (hb : b ∈ s) :
    b = 45 ∨ isDigit b := by
  cases h with
  | digits _ hds _ => exact Or.inr (hds b hb)
  | minus _ hds _ => exact (List.mem_cons.mp hb).imp id (hds b)

theorem scanInt_printInt (i : Int) {t : List UInt8}
    (ht : ∀ b, t.head? = some b → isDigit b = false) :
    scanInt (printInt i ++ t) = some (i, t) :=
  (numeral_printInt i).scanInt ht

theorem mem_printInt {i : Int} {b : UInt8} (h : b ∈ printInt i) : b = 45 ∨ isDigit b :=
  (numeral_printInt i).mem h

theorem notMem_printInt {c : UInt8} (hc : c ≠ 45) (hd : isDigit c = false) (i : Int) :
    c ∉ printInt i := by
  intro h
  rcases mem_printInt h with h | h
  · exact hc h
  · exact Bool.false_ne_true (hd.symm.trans h)

section Value

variable {s t : List UInt8}

theorem digitsValue_concat (s : List UInt8) (c : UInt8) :
    digitsValue (s ++ [c]) = 10 * digitsValue s + (c.toNat - 48) := by
  rw [digitsValue, List.foldl_append]
  rfl

theorem digitsValue_append (s t : List UInt8) :
    digitsValue (s ++ t) = digitsValue s * 10 ^ t.length + digitsValue t := by
  induction t using List.reverseRecOn with
  | nil => rw [List.append_nil, List.length_nil, Nat.pow_zero, Nat.mul_one]; rfl
  | append_singleton t c ih =>
    rw [← List.append_assoc, digitsValue_concat, ih, digitsValue_concat, List.length_append,
      List.length_singleton, Nat.pow_succ, ← Nat.mul_assoc]
    omega

theorem digitsValue_cons (c : UInt8) (s : List UInt8) :
    digitsValue (c :: s) = (c.toNat - 48) * 10 ^ s.length + digitsValue s := by
  have hvalue := digitsValue_append [c] s
  rwa [show digitsValue [c] = c.toNat - 48 from Nat.zero_add _] at hvalue

theorem digitsValue_lt (hs : ∀ c ∈ s, isDigit c) : digitsValue s < 10 ^ s.length := by
  induction s using List.reverseRecOn with
  | nil => exact Nat.one_pos
  | append_singleton s c ih =>
    have hfront := ih fun d hd => hs d (List.mem_append_left _ hd)
    have hlast := (isDigit_iff c).mp (hs c (List.mem_append_right _ (List.mem_singleton_self c)))
    rw [digitsValue_concat, List.length_append, List.length_singleton, Nat.pow_succ]
    omega

theorem exists_digits {k n : Nat} (h : n < 10 ^ k) :
    ∃ s, s.length = k ∧ (∀ c ∈ s, isDigit c) ∧ digitsValue s = n := by
  induction k generalizing n with
  | zero =>
    rw [Nat.pow_zero, Nat.lt_one_iff] at h
    exact ⟨[], rfl, nofun, h.symm⟩
  | succ k ih =>
    obtain ⟨s, hlen, hs, hvalue⟩ := ih (Nat.div_lt_of_lt_mul (by rwa [← Nat.pow_succ']))
    have hlast := Nat.mod_lt n (by decide : 10 > 0)
    refine ⟨s ++ [digit (n % 10)], by rw [List.length_append, hlen]; rfl, ?_, ?_⟩
    · intro c hc
      rcases List.mem_append.mp hc with hc | hc
      · exact hs c hc
      · rw [List.mem_singleton.mp hc]
        exact isDigit_digit hlast
    · rw [digitsValue_concat, hvalue, toNat_digit hlast]
      omega

theorem digitsValue_zeros (h : ∀ c ∈ s, c = 48) : digitsValue s = 0 := by
  induction s with
  | nil => rfl
  | cons c s ih =>
    obtain ⟨rfl, hs⟩ := List.forall_mem_cons.mp h
    rw [digitsValue_cons, ih hs]
    exact Nat.zero_mul _

theorem digitsValue_nines (h : ∀ c ∈ s, c = 57) : digitsValue s + 1 = 10 ^ s.length := by
  induction s with
  | nil => rfl
  | cons c s ih =>
    obtain ⟨rfl, hs⟩ := List.forall_mem_cons.mp h
    have hrest := ih hs
    have hnine : (57 : UInt8).toNat - 48 = 9 := rfl
    rw [digitsValue_cons, List.length_cons, Nat.pow_succ, hnine]
    omega

/-- Digits, of which the first is not zero unless it is the only one. -/
structure Plain (s : List UInt8) : Prop where
  digits : ∀ c ∈ s, isDigit c
  head : s.head? = some 48 → s.length = 1

theorem digitsValue_pos (hne : s ≠ []) (hs : ∀ c ∈ s, isDigit c) (hhead : s.head? ≠ some 48) :
    0 < digitsValue s := by
  obtain ⟨c, s, rfl⟩ := List.exists_cons_of_ne_nil hne
  have hc := (isDigit_iff c).mp (hs c List.mem_cons_self)
  have hfirst : c.toNat ≠ 48 := fun h => hhead (congrArg some (UInt8.toNat_inj.mp h))
  have hpow : 0 < (c.toNat - 48) * 10 ^ s.length :=
    Nat.mul_pos (by omega) (Nat.pow_pos (by decide))
  rw [digitsValue_cons]
  omega

theorem digit_toNat {c : UInt8} (h : isDigit c) : digit (c.toNat - 48) = c := by
  have hc := (isDigit_iff c).mp h
  rw [← UInt8.toNat_inj, toNat_digit (by omega)]
  omega

theorem Plain.printNat_digitsValue (h : Plain s) (hne : s ≠ []) : printNat (digitsValue s) = s := by
  induction s using List.reverseRecOn with
  | nil => exact absurd rfl hne
  | append_singleton s c ih =>
    have hc := h.digits c (List.mem_append_right _ (List.mem_singleton_self c))
    have hlast := (isDigit_iff c).mp hc
    have hs : ∀ d ∈ s, isDigit d := fun d hd => h.digits d (List.mem_append_left _ hd)
    rw [digitsValue_concat, printNat_eq]
    by_cases hnil : s = []
    · rw [hnil, if_pos (by rw [show digitsValue [] = 0 from rfl]; omega)]
      change [digit (10 * 0 + (c.toNat - 48))] = [c]
      rw [Nat.mul_zero, Nat.zero_add, digit_toNat hc]
    · have hhead : s.head? ≠ some 48 := fun hzero => by
        have hlen := h.head (by rw [List.head?_append, hzero]; rfl)
        rw [List.length_append, List.length_singleton] at hlen
        exact hnil (List.length_eq_zero_iff.mp (by omega))
      have hpos := digitsValue_pos hnil hs hhead
      have hdiv : (10 * digitsValue s + (c.toNat - 48)) / 10 = digitsValue s := by omega
      have hmod : (10 * digitsValue s + (c.toNat - 48)) % 10 = c.toNat - 48 := by omega
      rw [if_neg (by omega), hdiv, hmod, ih ⟨hs, fun hzero => absurd hzero hhead⟩ hnil,
        digit_toNat hc]

end Value

end IvyBus.Lib
