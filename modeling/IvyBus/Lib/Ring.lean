import Mathlib.Data.List.Rotate

namespace IvyBus.Lib

variable {α : Type*}

/-- `memcpy` of `src` into the block `mem` at offset `off`. -/
def blit (mem : List α) (off : Nat) (src : List α) : List α :=
  mem.take off ++ src ++ mem.drop (off + src.length)

def slice (mem : List α) (off n : Nat) : List α := (mem.drop off).take n

theorem length_blit {mem : List α} {off : Nat} {src : List α}
    (h : off + src.length ≤ mem.length) : (blit mem off src).length = mem.length := by
  simp only [blit, List.length_append, List.length_take, List.length_drop]
  omega

@[simp] theorem slice_zero (mem : List α) (off : Nat) : slice mem off 0 = [] := by
  simp [slice]

theorem length_slice {mem : List α} {off n : Nat} (h : off + n ≤ mem.length) :
    (slice mem off n).length = n := by
  rw [slice, List.length_take, List.length_drop]
  omega

theorem slice_blit {mem : List α} {off : Nat} (src : List α) (h : off ≤ mem.length) :
    slice (blit mem off src) 0 (off + src.length) = mem.take off ++ src := by
  have hlen : (mem.take off ++ src).length = off + src.length := by
    rw [List.length_append, List.length_take_of_le h]
  rw [slice, List.drop_zero, blit, ← hlen]
  exact List.take_left

theorem take_blit_zero (mem src : List α) : (blit mem 0 src).take src.length = src := by
  rw [blit, List.take_zero, List.nil_append]
  exact List.take_left

/-- The `n` cells met when walking from cell `r` of a circular block. -/
def window (mem : List α) (r n : Nat) : List α := (mem.rotate r).take n

theorem length_window {mem : List α} {r n : Nat} (h : n ≤ mem.length) :
    (window mem r n).length = n := by
  simp [window, h]

theorem window_mod (mem : List α) (r n : Nat) :
    window mem (r % mem.length) n = window mem r n := by
  rw [window, List.rotate_mod, window]

theorem window_add {mem : List α} {r n k : Nat} (hk : k ≤ n) (hn : n ≤ mem.length) :
    window mem (r + k) (n - k) = (window mem r n).drop k := by
  have hrot : (mem.rotate r).rotate k = (mem.rotate r).drop k ++ (mem.rotate r).take k :=
    List.rotate_eq_drop_append_take (by simpa using hk.trans hn)
  rw [window, window, ← List.rotate_rotate, hrot, List.drop_take,
    List.take_append_of_le_length (by rw [List.length_drop, List.length_rotate]; omega)]

theorem slice_eq_take_window {mem : List α} {r n k : Nat} (hk : k ≤ n)
    (hr : r + k ≤ mem.length) : slice mem r k = (window mem r n).take k := by
  rw [window, List.take_take, Nat.min_eq_left hk, slice,
    List.rotate_eq_drop_append_take (by omega),
    List.take_append_of_le_length (by rw [List.length_drop]; omega)]

theorem getElem?_window {mem : List α} {r n i : Nat} (hi : i < n) (hn : n ≤ mem.length) :
    (window mem r n)[i]? = mem[(i + r) % mem.length]? := by
  rw [window, List.getElem?_take_of_lt hi, List.getElem?_rotate (by omega)]

theorem getElem?_blit_of_lt {mem : List α} {off i : Nat} {src : List α} (hi : i < off)
    (h : off ≤ mem.length) : (blit mem off src)[i]? = mem[i]? := by
  rw [blit, List.append_assoc, List.getElem?_append_left (by rw [List.length_take]; omega),
    List.getElem?_take_of_lt hi]

theorem getElem?_blit_inside {mem : List α} {off i : Nat} {src : List α} (hi : i < src.length)
    (h : off ≤ mem.length) : (blit mem off src)[off + i]? = src[i]? := by
  have hlen : (mem.take off).length = off := List.length_take_of_le h
  rw [blit, List.append_assoc, List.getElem?_append_right (by omega), hlen,
    Nat.add_sub_cancel_left, List.getElem?_append_left hi]

theorem getElem?_blit_of_ge {mem : List α} {off i : Nat} {src : List α}
    (hi : off + src.length ≤ i) (h : off + src.length ≤ mem.length) :
    (blit mem off src)[i]? = mem[i]? := by
  have hlen : (mem.take off ++ src).length = off + src.length := by
    rw [List.length_append, List.length_take_of_le (by omega)]
  rw [blit, List.getElem?_append_right (by omega), List.getElem?_drop, hlen,
    Nat.add_sub_cancel' hi]

theorem window_blit {mem : List α} {r n : Nat} {src : List α} (hr : r < mem.length)
    (hn : n + src.length ≤ mem.length) (hw : (r + n) % mem.length + src.length ≤ mem.length) :
    window (blit mem ((r + n) % mem.length) src) r (n + src.length) =
      window mem r n ++ src := by
  have hlen := length_blit hw
  apply List.ext_getElem?
  intro i
  by_cases hi : i < n + src.length
  · rw [getElem?_window hi (by omega), hlen]
    by_cases hin : i < n
    · rw [List.getElem?_append_left (by rw [length_window (by omega)]; exact hin),
        getElem?_window hin (by omega)]
      have hcase : (i + r) % mem.length < (r + n) % mem.length ∨
          (r + n) % mem.length + src.length ≤ (i + r) % mem.length := by
        by_cases h1 : i + r < mem.length <;> by_cases h2 : r + n < mem.length
        · rw [Nat.mod_eq_of_lt h1, Nat.mod_eq_of_lt h2]; omega
        · rw [Nat.mod_eq_of_lt h1, Nat.mod_eq_sub_mod (by omega), Nat.mod_eq_of_lt (by omega)]
          omega
        · omega
        · rw [Nat.mod_eq_sub_mod (a := i + r) (by omega),
            Nat.mod_eq_sub_mod (a := r + n) (by omega),
            Nat.mod_eq_of_lt (a := i + r - mem.length) (by omega),
            Nat.mod_eq_of_lt (a := r + n - mem.length) (by omega)]
          omega
      obtain hlt | hge := hcase
      · exact getElem?_blit_of_lt hlt (by omega)
      · exact getElem?_blit_of_ge hge hw
    · rw [List.getElem?_append_right (by rw [length_window (by omega)]; omega),
        length_window (by omega)]
      have hidx : (i + r) % mem.length = (r + n) % mem.length + (i - n) := by
        by_cases h1 : r + n < mem.length
        · rw [Nat.mod_eq_of_lt h1] at hw ⊢
          rw [Nat.mod_eq_of_lt (by omega)]
          omega
        · rw [Nat.mod_eq_sub_mod (a := r + n) (by omega),
            Nat.mod_eq_of_lt (a := r + n - mem.length) (by omega)] at hw ⊢
          rw [Nat.mod_eq_sub_mod (by omega), Nat.mod_eq_of_lt (by omega)]
          omega
      rw [hidx]
      exact getElem?_blit_inside (by omega) (by omega)
  · rw [List.getElem?_eq_none, List.getElem?_eq_none]
    · rw [List.length_append, length_window (by omega)]; omega
    · rw [length_window (by omega)]; omega

theorem window_blit_zero {mem src : List α} : window (blit mem 0 src) 0 src.length = src := by
  simp [window, blit]

end IvyBus.Lib
