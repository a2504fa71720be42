import Mathlib.Algebra.Group.Nat.Defs
import Mathlib.Order.Basic

namespace IvyBus.Lib

variable {M t d : Nat}

theorem reading_le_iff (h : t / M = d / M) : d % M ≤ t % M ↔ d ≤ t := by
  have ht := Nat.div_add_mod t M
  have hd := Nat.div_add_mod d M
  rw [h] at ht
  omega

theorem reading_sub (h : t / M = d / M) : d % M - t % M = d - t := by
  have ht := Nat.div_add_mod t M
  have hd := Nat.div_add_mod d M
  rw [h] at ht
  omega

theorem reading_lt (h : t / M < d / M) (hd : d < t + M) : d % M < t % M := by
  have hle : M * (t / M + 1) ≤ M * (d / M) := Nat.mul_le_mul_left M h
  rw [Nat.mul_add, Nat.mul_one] at hle
  have ht := Nat.div_add_mod t M
  have hd' := Nat.div_add_mod d M
  omega

/-- Readings of times that are less than a period apart are in the order of the times if and only
if the clock does not start again in between. -/
theorem reading_le_iff_iff (hd : d < t + M) (ht : t < d + M) :
    (d % M ≤ t % M ↔ d ≤ t) ↔ t / M = d / M := by
  refine ⟨fun h => ?_, reading_le_iff⟩
  rcases Nat.lt_trichotomy (t / M) (d / M) with hlt | heq | hlt
  · have hle := h.mp (Nat.le_of_lt (reading_lt hlt hd))
    exact absurd (Nat.lt_of_div_lt_div hlt) (Nat.not_lt.mpr hle)
  · exact heq
  · have hle := h.mpr (Nat.le_of_lt (Nat.lt_of_div_lt_div hlt))
    exact absurd (reading_lt hlt ht) (Nat.not_lt.mpr hle)

/-- What a wait until the reading `m` is, when `m` is the earliest of some deadlines: it ends in
time for the deadline `d`, if the clock does not start again after `d` or `m` has passed. -/
theorem wait_le_iff {m : Nat} (hm : m ≤ d % M) (hd : d < t + M) :
    (if m ≤ t % M then 0 else m - t % M) ≤ d - t ↔ t / M ≤ d / M ∨ m ≤ t % M := by
  constructor
  · intro hwait
    by_contra hnot
    rw [not_or, Nat.not_le] at hnot
    have hlt := Nat.lt_of_div_lt_div hnot.1
    rw [if_neg hnot.2] at hwait
    omega
  · rintro (hperiod | hdue)
    · split
      · exact Nat.zero_le _
      · rename_i hnot
        rcases Nat.lt_or_eq_of_le hperiod with hlt | heq
        · have hreading := reading_lt hlt hd
          omega
        · have hsub := reading_sub heq
          omega
    · rw [if_pos hdue]
      exact Nat.zero_le _

end IvyBus.Lib
