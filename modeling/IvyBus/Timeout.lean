import IvyBus.Param
import IvyBus.Timers

namespace IvyBus.Timers

/-- `selectTimeout`, as `SetNewTimeout` fills it for a time of `ltime` milliseconds. -/
def selectTimeout (ltime : UInt64) : Timeval :=
  let tv_sec := (ltime / 1000).toInt64
  ⟨tv_sec, ((ltime - (tv_sec * 1000).toUInt64) * 1000).toInt64⟩

def timerGetSmallestTimeout (s : State) (now : UInt64) : State × Option Timeval :=
  let s := currentTime s now
  let s := adjTimeout s s.clock
  (s, s.timeout.map selectTimeout)

def remaining (stamp : UInt64) (timer : Timer) : Nat := timer.when.toNat - stamp.toNat

theorem toInt_toInt64 {n : UInt64} (h : n.toNat < 2 ^ 63) : n.toInt64.toInt = n.toNat := by
  rw [Int64.toInt, UInt64.toBitVec_toInt64, BitVec.toInt_eq_toNat_of_lt]
  · rfl
  · change 2 * n.toNat < 2 ^ 64
    omega

theorem toNat_seconds (ltime : UInt64) : (ltime / 1000).toNat = ltime.toNat / 1000 :=
  UInt64.toNat_div ..

theorem toNat_sub_seconds (ltime : UInt64) :
    (ltime - ((ltime / 1000).toInt64 * 1000).toUInt64).toNat = ltime.toNat % 1000 := by
  have hlt := ltime.toNat_lt
  have hmul : ((ltime / 1000).toInt64 * 1000).toUInt64 = ltime / 1000 * 1000 := by
    rw [Int64.toUInt64_mul, UInt64.toUInt64_toInt64]
    rfl
  have hnat : (ltime / 1000 * 1000).toNat = ltime.toNat / 1000 * 1000 := by
    rw [UInt64.toNat_mul, toNat_seconds]
    exact Nat.mod_eq_of_lt (by change _ * 1000 < _; omega)
  rw [hmul, UInt64.toNat_sub_of_le _ _ (UInt64.le_iff_toNat_le.mpr (by omega)), hnat]
  omega

theorem toInt_tv_sec (ltime : UInt64) :
    (selectTimeout ltime).tv_sec.toInt = (ltime.toNat / 1000 : Nat) := by
  have hlt := ltime.toNat_lt
  have hsec := toNat_seconds ltime
  rw [selectTimeout, toInt_toInt64 (by omega), hsec]

theorem toInt_tv_usec (ltime : UInt64) :
    (selectTimeout ltime).tv_usec.toInt = (ltime.toNat % 1000 * 1000 : Nat) := by
  have hsub := toNat_sub_seconds ltime
  have hmul : ((ltime - ((ltime / 1000).toInt64 * 1000).toUInt64) * 1000).toNat =
      ltime.toNat % 1000 * 1000 := by
    rw [UInt64.toNat_mul, hsub]
    exact Nat.mod_eq_of_lt (by change _ * 1000 < _; omega)
  rw [selectTimeout, toInt_toInt64 (by omega), hmul]

theorem micros_selectTimeout (ltime : UInt64) :
    (selectTimeout ltime).micros = ltime.toNat * 1000 := by
  rw [Timeval.micros, toInt_tv_sec, toInt_tv_usec]
  omega

/-- The search of `AdjTimeout` ends at or before each timer that is not marked. -/
theorem foldl_le (timers : List Timer) (newTimeout : UInt64) :
    let found := timers.foldl (fun newTimeout timer =>
      if !timer.mark2Remove && timer.when < newTimeout then timer.when else newTimeout) newTimeout
    found ≤ newTimeout ∧
      ∀ timer ∈ timers, timer.mark2Remove = false → found ≤ timer.when := by
  induction timers generalizing newTimeout with
  | nil => exact ⟨UInt64.le_refl _, nofun⟩
  | cons first timers ih =>
    rw [List.foldl_cons]
    split
    · rename_i hfirst
      obtain ⟨hle, hrest⟩ := ih first.when
      rw [Bool.and_eq_true, decide_eq_true_iff] at hfirst
      refine ⟨UInt64.le_trans hle (UInt64.le_of_lt hfirst.2), fun timer hmem hunmarked => ?_⟩
      rcases List.mem_cons.mp hmem with rfl | hmem
      · exact hle
      · exact hrest timer hmem hunmarked
    · rename_i hfirst
      obtain ⟨hle, hrest⟩ := ih newTimeout
      refine ⟨hle, fun timer hmem hunmarked => ?_⟩
      rcases List.mem_cons.mp hmem with rfl | hmem
      · rw [hunmarked, Bool.not_false, Bool.true_and, decide_eq_true_iff, UInt64.not_lt] at hfirst
        exact UInt64.le_trans hle hfirst
      · exact hrest timer hmem hunmarked

theorem timeout_setNewTimeout_le {s : State} {current when : UInt64} {timer : Timer}
    (h : when ≤ timer.when) : ∃ ltime, (setNewTimeout s current when).timeout = some ltime ∧
      ltime.toNat ≤ remaining current timer := by
  refine ⟨_, rfl, ?_⟩
  rw [UInt64.le_iff_toNat_le] at h
  unfold remaining
  split
  · exact Nat.zero_le _
  · rename_i hlater
    rw [UInt64.not_le] at hlater
    rw [UInt64.toNat_sub_of_le _ _ (UInt64.le_of_lt hlater)]
    omega

theorem timeout_adjTimeout_eq_none (s : State) (current : UInt64) :
    (adjTimeout s current).timeout = none ↔ s.timers = [] := by
  unfold adjTimeout
  split
  · rename_i heq
    exact ⟨fun _ => heq, fun _ => rfl⟩
  · rename_i heq
    rw [heq]
    exact ⟨nofun, nofun⟩

theorem timeout_adjTimeout_le {s : State} {current : UInt64} {timer : Timer}
    (hmem : timer ∈ s.timers) (hunmarked : timer.mark2Remove = false) :
    ∃ ltime, (adjTimeout s current).timeout = some ltime ∧
      ltime.toNat ≤ remaining current timer := by
  unfold adjTimeout
  split
  · rename_i heq
    rw [heq] at hmem
    cases hmem
  · rename_i first rest heq
    exact timeout_setNewTimeout_le ((foldl_le s.timers first.when).2 timer hmem hunmarked)

/-- In every state, and for every time that is read, `select` does not sleep beyond a timer. -/
theorem timerGetSmallestTimeout_le (s : State) (now : UInt64) :
    let stamp := (currentTime s now).clock
    let timeout := (timerGetSmallestTimeout s now).2
    (timeout = none ↔ s.timers = []) ∧
      ∀ tv, timeout = some tv → 0 ≤ tv.tv_sec.toInt ∧
        0 ≤ tv.tv_usec.toInt ∧ tv.tv_usec.toInt < 1000000 ∧
          ∀ timer ∈ s.timers, timer.mark2Remove = false →
            tv.micros ≤ 1000 * remaining stamp timer := by
  refine ⟨?_, fun tv hsome => ?_⟩
  · exact Option.map_eq_none_iff.trans (timeout_adjTimeout_eq_none (currentTime s now) _)
  · obtain ⟨ltime, hltime, rfl⟩ := Option.map_eq_some_iff.mp hsome
    have hsec := toInt_tv_sec ltime
    have husec := toInt_tv_usec ltime
    refine ⟨by omega, by omega, by omega, fun timer hmem hunmarked => ?_⟩
    obtain ⟨ltime', hltime', hle⟩ :=
      @timeout_adjTimeout_le (currentTime s now) (currentTime s now).clock timer hmem hunmarked
    obtain rfl := Option.some.inj (hltime.symm.trans hltime')
    rw [micros_selectTimeout]
    omega

end IvyBus.Timers
