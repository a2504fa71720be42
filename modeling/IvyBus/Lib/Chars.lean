import Mathlib.Data.List.TakeDrop

namespace IvyBus.Lib

/-- Why a call ends without a result: it has failed, it has left its arrays, or it has read what
was never written. `fuel` is for a loop that was not followed to its end. -/
inductive Stop
  | fail
  | bounds
  | uninit
  | fuel
  deriving DecidableEq

abbrev Checked (α : Type) := Except Stop α

def Stuck {α : Type} (x : Checked α) : Prop := ∃ e, x = .error e ∧ e ≠ .fail

section Stuck

variable {α β : Type} {x : Checked α} {f : α → Checked β}

theorem Stuck.bind (h : Stuck x) : Stuck (x.bind f) := by
  obtain ⟨e, rfl, he⟩ := h
  exact ⟨e, rfl, he⟩

theorem bind_eq_ok {y : β} : x.bind f = .ok y ↔ ∃ a, x = .ok a ∧ f a = .ok y := by
  cases x with
  | error e => exact iff_of_false nofun fun ⟨_, h, _⟩ => nomatch h
  | ok a => exact ⟨fun h => ⟨a, rfl, h⟩, fun ⟨_, h, h'⟩ => Except.ok.inj h ▸ h'⟩

theorem ok_bind (a : α) (f : α → Checked β) : (Except.ok a : Checked α) >>= f = f a := rfl

theorem stuck_bind (hx : x ≠ .error .fail) (hf : ∀ a, Stuck (f a)) : Stuck (x.bind f) := by
  cases x with
  | error e => exact ⟨e, rfl, fun he => hx (he ▸ rfl)⟩
  | ok a => exact hf a

theorem bind_ne_fail (hx : x ≠ .error .fail) (hf : ∀ a, f a ≠ .error .fail) :
    x.bind f ≠ .error .fail := by
  cases x with
  | error e => exact fun heq => hx (congrArg Except.error (Except.error.inj heq))
  | ok a => exact hf a

end Stuck

abbrev CString := {s : List UInt8 // 0 ∉ s}

/-- An array of characters. One that was never written is `none`. -/
abbrev Chars := List (Option UInt8)

namespace Chars

def uninit (size : Nat) : Chars := List.replicate size none

def ofString (size : Nat) (s : List UInt8) : Chars :=
  s.map some ++ List.replicate (size - s.length) (some 0)

def read (b : Chars) (i : Nat) : Checked UInt8 :=
  match b[i]? with
  | none => .error .bounds
  | some none => .error .uninit
  | some (some c) => .ok c

def write (b : Chars) (i : Nat) (c : UInt8) : Checked Chars :=
  if i < b.length then .ok (b.set i (some c)) else .error .bounds

def cString : Chars → Checked (List UInt8)
  | [] => .error .bounds
  | none :: _ => .error .uninit
  | some c :: b => if c = 0 then .ok [] else (cString b).map (c :: ·)

def bytes : Nat → Chars → Checked (List UInt8)
  | 0, _ => .ok []
  | _ + 1, [] => .error .bounds
  | _ + 1, none :: _ => .error .uninit
  | n + 1, some c :: b => (bytes n b).map (c :: ·)

/-- `strcpy` to the place `i` of the array. -/
def strcpy (b : Chars) (i : Nat) (s : List UInt8) : Checked Chars :=
  if i + s.length < b.length then
    .ok (b.take i ++ (s.map some ++ some 0 :: b.drop (i + s.length + 1)))
  else .error .bounds

/-- `sprintf` at the end of the string. -/
def append (b : Chars) (s : List UInt8) : Checked Chars := do
  let t ← b.cString
  b.strcpy t.length s

/-- `snprintf` at the end of the string, with the room that is left. -/
def appendCut (b : Chars) (s : List UInt8) : Checked Chars := do
  let t ← b.cString
  b.strcpy t.length (s.take (b.length - t.length - 1))

/-- A call that writes a string of its own at the end of the string, and is told the room. -/
def fill (b : Chars) (gen : Nat → Checked (List UInt8)) : Checked Chars := do
  let t ← b.cString
  let s ← gen (b.length - t.length)
  b.strcpy t.length s

/-- `memcpy` to the place `i` of the array. -/
def memcpy (b : Chars) (i : Nat) (s : List UInt8) : Checked Chars :=
  if i + s.length ≤ b.length then .ok (b.take i ++ (s.map some ++ b.drop (i + s.length)))
  else .error .bounds

/-- `strncat`: at most `n` characters, and a zero after them. -/
def strncat (b : Chars) (s : List UInt8) (n : Nat) : Checked Chars := do
  let t ← b.cString
  b.strcpy t.length (s.take n)

def realloc (b : Chars) (size : Nat) : Chars := b.take size ++ uninit (size - b.length)

structure Holds (b : Chars) (s : List UInt8) : Prop where
  nonzero : 0 ∉ s
  starts : s.map some ++ [some 0] <+: b

variable {b : Chars} {s t : List UInt8}

theorem holds_ofString {size : Nat} (hs : 0 ∉ s) (hsize : s.length < size) :
    Holds (ofString size s) s := by
  refine ⟨hs, ?_⟩
  obtain ⟨room, rfl⟩ := Nat.exists_eq_add_of_lt hsize
  have hroom : s.length + room + 1 - s.length = room + 1 := by omega
  rw [ofString, hroom, List.replicate_succ, List.prefix_append_right_inj]
  exact ⟨_, rfl⟩

theorem bytes_of_take {n : Nat} (h : b.take n = s.map some) (hn : s.length = n) :
    bytes n b = .ok s := by
  induction s generalizing n b with
  | nil => subst hn; rfl
  | cons c s ih =>
    subst hn
    cases b with
    | nil => cases h
    | cons d b =>
      rw [List.length_cons, List.take_succ_cons, List.map_cons, List.cons.injEq] at h
      obtain ⟨rfl, h⟩ := h
      rw [List.length_cons, bytes, ih h rfl]
      rfl

theorem Holds.cString (h : Holds b s) : b.cString = .ok s := by
  obtain ⟨rest, rfl⟩ := h.starts
  have hs := h.nonzero
  clear h
  induction s with
  | nil => rfl
  | cons c s ih =>
    rw [List.mem_cons, not_or] at hs
    have hc : c ≠ 0 := fun heq => hs.1 heq.symm
    simp only [List.map_cons, List.cons_append, Chars.cString, if_neg hc]
    rw [ih hs.2]
    rfl

theorem Holds.length_lt (h : Holds b s) : s.length < b.length := by
  have hle := h.starts.length_le
  rw [List.length_append, List.length_map] at hle
  exact hle

theorem Holds.strcpy (h : Holds b s) (ht : 0 ∉ t) (hfits : s.length + t.length < b.length) :
    ∃ b', b.strcpy s.length t = .ok b' ∧ b'.length = b.length ∧ Holds b' (s ++ t) := by
  refine ⟨_, if_pos hfits, ?_, ?_, ?_⟩
  · simp only [List.length_append, List.length_take, List.length_map, List.length_cons,
      List.length_drop]
    omega
  · rw [List.mem_append, not_or]
    exact ⟨h.nonzero, ht⟩
  · obtain ⟨rest, hrest⟩ := h.starts
    have htake : b.take s.length = s.map some := by
      rw [← hrest, List.append_assoc]
      exact List.take_left' (List.length_map _)
    rw [htake, List.map_append, List.append_assoc, List.prefix_append_right_inj,
      List.prefix_append_right_inj]
    exact ⟨_, rfl⟩

theorem Holds.appendCut (h : Holds b s) (ht : 0 ∉ t) (hfits : s.length + t.length < b.length) :
    ∃ b', b.appendCut t = .ok b' ∧ b'.length = b.length ∧ Holds b' (s ++ t) := by
  have huncut : t.take (b.length - s.length - 1) = t := List.take_of_length_le (by omega)
  rw [Chars.appendCut, h.cString]
  change ∃ b', b.strcpy s.length _ = .ok b' ∧ _
  rw [huncut]
  exact h.strcpy ht hfits

theorem Holds.fill {gen : Nat → Checked (List UInt8)} (h : Holds b s) (ht : 0 ∉ t)
    (hgen : gen (b.length - s.length) = .ok t) (hfits : s.length + t.length < b.length) :
    ∃ b', b.fill gen = .ok b' ∧ b'.length = b.length ∧ Holds b' (s ++ t) := by
  rw [Chars.fill, h.cString]
  change ∃ b', (gen (b.length - s.length)).bind _ = .ok b' ∧ _
  rw [hgen]
  exact h.strcpy ht hfits

theorem strcpy_eq_ok {i : Nat} {b' : Chars} (h : b.strcpy i t = .ok b') :
    i + t.length < b.length ∧
      b' = b.take i ++ (t.map some ++ some 0 :: b.drop (i + t.length + 1)) := by
  rw [Chars.strcpy] at h
  split at h
  next hfits => exact ⟨hfits, (Except.ok.inj h).symm⟩
  next => cases h

theorem length_of_strcpy {i : Nat} {b' : Chars} (h : b.strcpy i t = .ok b') :
    b'.length = b.length := by
  obtain ⟨hfits, rfl⟩ := strcpy_eq_ok h
  simp only [List.length_append, List.length_take, List.length_map, List.length_cons,
    List.length_drop]
  omega

theorem take_of_strcpy {i : Nat} {b' : Chars} (h : b.strcpy i t = .ok b') :
    b'.take i = b.take i := by
  obtain ⟨hfits, rfl⟩ := strcpy_eq_ok h
  exact List.take_left' (by rw [List.length_take]; omega)

theorem take_add_of_strcpy {i : Nat} {b' : Chars} (h : b.strcpy i t = .ok b') :
    b'.take (i + t.length) = b.take i ++ t.map some := by
  obtain ⟨hfits, rfl⟩ := strcpy_eq_ok h
  rw [← List.append_assoc]
  refine List.take_left' ?_
  rw [List.length_append, List.length_take, List.length_map]
  omega

@[simp] theorem length_uninit (size : Nat) : (uninit size).length = size := List.length_replicate

@[simp] theorem length_realloc (b : Chars) (size : Nat) : (b.realloc size).length = size := by
  simp only [realloc, List.length_append, List.length_take, length_uninit]
  omega

theorem take_realloc {i size : Nat} (hi : i ≤ size) (hb : i ≤ b.length) :
    (b.realloc size).take i = b.take i := by
  rw [realloc, List.take_append_of_le_length (by rw [List.length_take]; omega), List.take_take,
    Nat.min_eq_left hi]

structure Reaches (b : Chars) (i : Nat) (s : List UInt8) : Prop where
  nonzero : 0 ∉ s
  starts : s.map some = b.take i ∨ s.map some ++ [some 0] <+: b.take i

theorem reaches_zero (b : Chars) : Reaches b 0 [] := ⟨List.not_mem_nil, .inl rfl⟩

theorem Holds.reaches (h : Holds b s) (i : Nat) : ∃ s, Reaches b i s := by
  obtain hlt | hle := Nat.lt_or_ge s.length i
  · refine ⟨s, h.nonzero, .inr ?_⟩
    refine List.prefix_take_iff.mpr ⟨h.starts, ?_⟩
    rw [List.length_append, List.length_map]
    exact hlt
  · refine ⟨s.take i, fun hmem => h.nonzero (List.mem_of_mem_take hmem), .inl ?_⟩
    obtain ⟨rest, rfl⟩ := h.starts
    rw [List.append_assoc, List.take_append_of_le_length (by rwa [List.length_map]), List.map_take]

theorem Reaches.congr {i : Nat} {b' : Chars} (h : Reaches b i s) (heq : b'.take i = b.take i) :
    Reaches b' i s := ⟨h.nonzero, by rw [heq]; exact h.starts⟩

theorem Reaches.strcpy {i : Nat} {b' : Chars} (h : Reaches b i s) (ht : 0 ∉ t)
    (hb' : b.strcpy i t = .ok b') : ∃ s', Holds b' s' := by
  obtain ⟨-, rfl⟩ := strcpy_eq_ok hb'
  obtain hall | hends := h.starts
  · refine ⟨s ++ t, List.not_mem_append h.nonzero ht, ?_⟩
    rw [← hall, List.map_append, List.append_assoc, List.prefix_append_right_inj,
      List.prefix_append_right_inj]
    exact ⟨_, rfl⟩
  · exact ⟨s, h.nonzero, hends.trans (List.prefix_append _ _)⟩

theorem holds_of_strcpy_zero {b' : Chars} (ht : 0 ∉ t) (h : b.strcpy 0 t = .ok b') :
    Holds b' t := by
  obtain ⟨-, rfl⟩ := strcpy_eq_ok h
  refine ⟨ht, ?_⟩
  rw [List.take_zero, List.nil_append, List.prefix_append_right_inj]
  exact ⟨_, rfl⟩

section Fail

theorem read_ne_fail (b : Chars) (i : Nat) : b.read i ≠ .error .fail := by
  unfold read
  split <;> exact nofun

theorem write_ne_fail (b : Chars) (i : Nat) (c : UInt8) : b.write i c ≠ .error .fail := by
  unfold write
  split <;> exact nofun

theorem strcpy_ne_fail (b : Chars) (i : Nat) (s : List UInt8) : b.strcpy i s ≠ .error .fail := by
  unfold strcpy
  split <;> exact nofun

theorem cString_ne_fail (b : Chars) : b.cString ≠ .error .fail := by
  induction b with
  | nil => exact nofun
  | cons c b ih =>
    cases c with
    | none => exact nofun
    | some c =>
      rw [cString]
      split
      · exact nofun
      · cases hb : cString b with
        | error e => exact fun heq => ih (hb.trans (congrArg _ (Except.error.inj heq)))
        | ok s => exact nofun

theorem appendCut_ne_fail (b : Chars) (s : List UInt8) : b.appendCut s ≠ .error .fail :=
  bind_ne_fail (cString_ne_fail b) fun _ => strcpy_ne_fail b _ _

theorem fill_stuck {gen : Nat → Checked (List UInt8)} (h : ∀ n, Stuck (gen n)) :
    Stuck (b.fill gen) :=
  stuck_bind (cString_ne_fail b) fun _ => (h _).bind

end Fail

end Chars

end IvyBus.Lib
