import IvyBus.Wrap

namespace IvyBus.Wrap

open Lib

variable {w : Nat}

/-- The first walk of a scan has come past the timer, and not called it. -/
def Passed (w stamp : Nat) (p : Promise) : Prop :=
  p.old → (stamp < p.due + 2 ^ (w - 1) → stamp < p.due) ∧ reading w stamp < reading w p.due

def Walks (s : State w) (next : Option Nat) (about : List Nat → Promise → Prop) : Prop :=
  ∃ ahead, ahead <:+ s.timers.map Timer.addr ∧ next = ahead.head? ∧
    ∀ p ∈ s.promises, about ahead p

def Walk (s : State w) : Prop :=
  match s.scan with
  | .idle => True
  | .calling stamp next => Walks s next fun ahead p =>
      (p.timer ∈ ahead → p.due < stamp + 2 ^ (w - 1)) ∧ (p.timer ∉ ahead → Passed w stamp p)
  | .counting stamp next => Walks s next fun _ => Passed w stamp

structure Inv (s : State w) : Prop where
  nodup : (s.timers.map Timer.addr).Nodup
  fresh : ∀ timer ∈ s.timers.map Timer.addr, timer < s.brk
  pends : ∀ p ∈ s.promises, Pends s p
  soon : ∀ p ∈ s.promises, p.due < s.clock + 2 ^ (w - 1)
  walk : Walk s

theorem inv_init : Inv (init w) := ⟨List.nodup_nil, nofun, nofun, nofun, trivial⟩

section Readings

variable {t d : Nat}

theorem reading_le : reading w d ≤ reading w t ↔ d % 2 ^ w ≤ t % 2 ^ w := by
  rw [BitVec.le_def, reading, reading, BitVec.toNat_ofNat, BitVec.toNat_ofNat]

theorem half_le (w : Nat) : 2 ^ (w - 1) ≤ 2 ^ w := Nat.pow_le_pow_right (by decide) (Nat.sub_le w 1)

theorem earliest_le_iff {first b : BitVec w} {timers : List (Timer w)} :
    earliest first timers ≤ b ↔
      first ≤ b ∨ ∃ timer ∈ timers, timer.mark2Remove = false ∧ timer.when ≤ b := by
  induction timers generalizing first with
  | nil => simp [earliest]
  | cons t timers ih =>
    have hstep : earliest first (t :: timers) =
        earliest (if !t.mark2Remove && t.when < first then t.when else first) timers := rfl
    rw [hstep, ih, List.exists_mem_cons_iff]
    by_cases hfirst : (!t.mark2Remove && decide (t.when < first)) = true
    · rw [if_pos hfirst]
      rw [Bool.and_eq_true, Bool.not_eq_true', decide_eq_true_iff] at hfirst
      constructor
      · rintro (hle | hrest)
        · exact .inr (.inl ⟨hfirst.1, hle⟩)
        · exact .inr (.inr hrest)
      · rintro (hle | ⟨-, hle⟩ | hrest)
        · exact .inl (BitVec.le_trans (BitVec.le_of_lt hfirst.2) hle)
        · exact .inl hle
        · exact .inr hrest
    · rw [if_neg hfirst]
      rw [Bool.and_eq_true, Bool.not_eq_true', decide_eq_true_iff, not_and, BitVec.not_lt] at hfirst
      constructor
      · rintro (hle | hrest)
        · exact .inl hle
        · exact .inr (.inr hrest)
      · rintro (hle | ⟨hunmarked, hle⟩ | hrest)
        · exact .inl hle
        · exact .inl (BitVec.le_trans (hfirst hunmarked) hle)
        · exact .inr hrest

theorem compared_iff {b : BitVec w} {first : Timer w} {rest : List (Timer w)} :
    earliest first.when (first :: rest) ≤ b ↔
      ∃ timer ∈ compared (first :: rest), timer.when ≤ b := by
  rw [earliest_le_iff, compared, List.exists_mem_cons_iff, List.exists_mem_cons_iff]
  simp only [List.mem_filter, Bool.not_eq_true', and_assoc]
  constructor
  · rintro (hle | ⟨-, hle⟩ | hrest)
    · exact .inl hle
    · exact .inl hle
    · exact .inr hrest
  · rintro (hle | hrest)
    · exact .inl hle
    · exact .inr (.inr hrest)

theorem toNat_wait (m : BitVec w) (t : Nat) :
    (if m ≤ reading w t then 0 else m - reading w t).toNat =
      if m.toNat ≤ t % 2 ^ w then 0 else m.toNat - t % 2 ^ w := by
  have hle : m ≤ reading w t ↔ m.toNat ≤ t % 2 ^ w := by
    rw [BitVec.le_def, reading, BitVec.toNat_ofNat]
  by_cases hm : m ≤ reading w t
  · rw [if_pos hm, if_pos (hle.mp hm)]
    exact BitVec.toNat_zero
  · rw [if_neg hm, if_neg (hle.not.mp hm), BitVec.toNat_sub_of_le (BitVec.le_of_lt
      (BitVec.not_le.mp hm)), reading, BitVec.toNat_ofNat]

end Readings

section Timeout

variable {s : State w} {p : Promise}

theorem Inv.timeout_iff (h : Inv s) (hp : p ∈ s.promises) (now : Nat) :
    Keeps s (timerGetSmallestTimeout s now) p (.timerGetSmallestTimeout now) ↔
      InPeriod s p (.timerGetSmallestTimeout now) := by
  obtain ⟨timer, hmem, -, hunmarked, hwhen⟩ := h.pends p hp
  have hsoon := h.soon p hp
  have hhalf := half_le w
  rw [Keeps, InPeriod]
  cases htimers : s.timers with
  | nil =>
    rw [htimers] at hmem
    cases hmem
  | cons first rest =>
    rw [htimers] at hmem
    have hfound : (earliest first.when (first :: rest)).toNat ≤ p.due % 2 ^ w := by
      have hle : earliest first.when (first :: rest) ≤ timer.when :=
        earliest_le_iff.mpr (.inr ⟨timer, hmem, hunmarked, BitVec.le_refl _⟩)
      rwa [hwhen, BitVec.le_def, reading, BitVec.toNat_ofNat] at hle
    have hcompared : (earliest first.when (first :: rest)).toNat ≤ max s.clock now % 2 ^ w ↔
        ∃ timer ∈ compared (first :: rest), timer.when ≤ reading w (max s.clock now) := by
      rw [← compared_iff, BitVec.le_def, reading, BitVec.toNat_ofNat]
    have hget : (timerGetSmallestTimeout s now).timeout =
        some (if earliest first.when (first :: rest) ≤ reading w (max s.clock now) then 0
          else earliest first.when (first :: rest) - reading w (max s.clock now)) ∧
        (timerGetSmallestTimeout s now).clock = max s.clock now := by
      rw [timerGetSmallestTimeout, adjTimeout, currentTime, htimers]
      exact ⟨rfl, rfl⟩
    rw [hget.1, hget.2, ← hcompared, ← wait_le_iff hfound (by omega), ← toNat_wait]
    exact ⟨fun ⟨ltime, hltime, hle⟩ => Option.some.inj hltime ▸ hle, fun hle => ⟨_, rfl, hle⟩⟩

end Timeout

section Calls

variable {s s' : State w} {p : Promise} {timer : Timer w}

theorem Walks.mono {next : Option Nat} {about : List Nat → Promise → Prop}
    (h : Walks s next about) (haddrs : s.timers.map Timer.addr <:+ s'.timers.map Timer.addr)
    (hp : ∀ p ∈ s'.promises, p ∈ s.promises ∨
      ∀ ahead, ahead <:+ s.timers.map Timer.addr → about ahead p) : Walks s' next about := by
  obtain ⟨ahead, hsuffix, hnext, habout⟩ := h
  refine ⟨ahead, hsuffix.trans haddrs, hnext, fun p hmem => ?_⟩
  rcases hp p hmem with hold | hnew
  · exact habout p hold
  · exact hnew ahead hsuffix

def New (s s' : State w) (p : Promise) : Prop :=
  p.timer ∉ s.timers.map Timer.addr ∧ p.old = false ∧ p.due < s'.clock + 2 ^ (w - 1)

theorem Inv.aside (h : Inv s) (hscan : s'.scan = s.scan) (hclock : s.clock ≤ s'.clock)
    (hnodup : (s'.timers.map Timer.addr).Nodup)
    (hfresh : ∀ timer ∈ s'.timers.map Timer.addr, timer < s'.brk)
    (haddrs : s.timers.map Timer.addr <:+ s'.timers.map Timer.addr)
    (hp : ∀ p ∈ s'.promises, Pends s' p ∧ (p ∈ s.promises ∨ New s s' p)) : Inv s' := by
  have hnew : ∀ {p : Promise}, New s s' p → ∀ {stamp : Nat}, Passed w stamp p := fun hnew _ hold =>
    absurd (hnew.2.1.symm.trans hold) nofun
  refine ⟨hnodup, hfresh, fun p hmem => (hp p hmem).1, fun p hmem => ?_, ?_⟩
  · rcases (hp p hmem).2 with hold | hnew
    · exact Nat.lt_of_lt_of_le (h.soon p hold) (Nat.add_le_add_right hclock _)
    · exact hnew.2.2
  · have hwalk := h.walk
    rw [Walk] at hwalk ⊢
    rw [hscan]
    cases hs : s.scan with
    | idle => trivial
    | calling stamp next =>
      rw [hs] at hwalk
      refine Walks.mono hwalk haddrs fun p hmem => (hp p hmem).2.imp_right fun hnew' ahead hahead =>
        ⟨fun hin => absurd (hahead.subset hin) hnew'.1, fun _ => hnew hnew'⟩
    | counting stamp next =>
      rw [hs] at hwalk
      exact Walks.mono hwalk haddrs fun p hmem => (hp p hmem).2.imp_right fun hnew' _ _ =>
        hnew hnew'

theorem adjTimeout_eq (s : State w) (current : BitVec w) : ∃ nextTimeout timeout,
    adjTimeout s current = { s with nextTimeout := nextTimeout, timeout := timeout } := by
  unfold adjTimeout
  split
  · exact ⟨_, _, rfl⟩
  · exact ⟨_, _, rfl⟩

theorem Inv.timerGetSmallestTimeout (h : Inv s) (now : Nat) :
    Inv (timerGetSmallestTimeout s now) := by
  obtain ⟨nextTimeout, timeout, heq⟩ := adjTimeout_eq (currentTime s now) (currentTime s now).stamp
  rw [Wrap.timerGetSmallestTimeout, heq]
  exact h.aside rfl (Nat.le_max_left ..) h.nodup h.fresh List.suffix_rfl
    fun p hmem => ⟨h.pends p hmem, .inl hmem⟩

theorem addrs_map {f : Timer w → Timer w} (hf : ∀ t, (f t).addr = t.addr) (timer : Nat)
    (l : List (Timer w)) :
    (l.map fun t => if t.addr = timer then f t else t).map Timer.addr = l.map Timer.addr := by
  rw [List.map_map]
  refine List.map_congr_left fun t _ => ?_
  rw [Function.comp, apply_ite Timer.addr, hf, ite_self]

theorem Pends.modify (h : Pends s p) {timer : Nat} (hne : p.timer ≠ timer)
    (f : Timer w → Timer w) : Pends (modifyTimer s timer f) p := by
  obtain ⟨t, hmem, haddr, hrest⟩ := h
  refine ⟨t, List.mem_map.mpr ⟨t, hmem, if_neg ?_⟩, haddr, hrest⟩
  exact haddr ▸ hne

theorem Inv.changed (h : Inv s) (now timer : Nat) {f : Timer w → Timer w}
    (hf : ∀ t, (f t).addr = t.addr) (current : BitVec w) :
    Inv ((adjTimeout (modifyTimer (currentTime s now) timer f) current).release timer) := by
  obtain ⟨nextTimeout, timeout, heq⟩ :=
    adjTimeout_eq (modifyTimer (currentTime s now) timer f) current
  rw [heq]
  have haddrs := addrs_map hf timer s.timers
  refine h.aside rfl (Nat.le_max_left ..) (haddrs.symm ▸ h.nodup) (haddrs.symm ▸ h.fresh)
    (haddrs.symm ▸ List.suffix_rfl) fun p hmem => ?_
  obtain ⟨hmem, hne⟩ := List.mem_filter.mp hmem
  exact ⟨Pends.modify (h.pends p hmem) (of_decide_eq_true hne) f, .inl hmem⟩

theorem Inv.onTimer (h : Inv s) {timer : Nat} {change : Timer w → State w}
    (hs' : onTimer s timer change = some s') (hchange : ∀ t, Inv (change t)) : Inv s' := by
  obtain ⟨t, -, rfl⟩ := Option.map_eq_some_iff.mp hs'
  split
  · exact h
  · exact hchange t

theorem Inv.timerRemove (h : Inv s) {now timer : Nat} (hs' : timerRemove s now timer = some s') :
    Inv s' :=
  h.onTimer hs' fun t => h.changed now t.addr (f := fun t => { t with mark2Remove := true })
    (fun _ => rfl) _

theorem Inv.timerModify (h : Inv s) {now timer : Nat} {ltime : BitVec w}
    (hs' : timerModify s now timer ltime = some s') : Inv s' :=
  h.onTimer hs' fun t => h.changed now t.addr (f := fun t =>
    { t with period := ltime, when := (currentTime s now).stamp + ltime }) (fun _ => rfl) _

theorem when_promised (clock : Nat) (ltime : BitVec w) :
    reading w clock + ltime = reading w (clock + ltime.toNat) := by
  rw [reading, reading, BitVec.ofNat_add, BitVec.ofNat_toNat, BitVec.setWidth_eq]

theorem mem_promised {timer clock : Nat} {ltime : BitVec w} (h : p ∈ promised timer clock ltime) :
    p = ⟨timer, clock + ltime.toNat, false⟩ ∧ ltime.toNat < 2 ^ (w - 1) := by
  rw [promised] at h
  split at h
  · rename_i hlt
    exact ⟨List.mem_singleton.mp h, hlt⟩
  · cases h

theorem timerRepeatAfter_eq (s : State w) (now : Nat) (count : Int32) (ltime : BitVec w) :
    ∃ nextTimeout timeout, timerRepeatAfter s now count ltime =
      { currentTime s now with
        nextTimeout := nextTimeout
        timeout := timeout
        timers := ⟨s.brk, count, ltime, (currentTime s now).stamp + ltime, false⟩ :: s.timers
        brk := s.brk + 1
        promises := promised s.brk (max s.clock now) ltime ++ s.promises } := by
  unfold timerRepeatAfter
  dsimp only
  split
  · exact ⟨_, _, rfl⟩
  · exact ⟨_, _, rfl⟩

theorem Inv.timerRepeatAfter (h : Inv s) (now : Nat) (count : Int32) (ltime : BitVec w) :
    Inv (timerRepeatAfter s now count ltime) := by
  obtain ⟨nextTimeout, timeout, heq⟩ := timerRepeatAfter_eq s now count ltime
  have hnew : s.brk ∉ s.timers.map Timer.addr := fun hin => Nat.lt_irrefl _ (h.fresh _ hin)
  rw [heq]
  refine h.aside rfl (Nat.le_max_left ..) (List.nodup_cons.mpr ⟨hnew, h.nodup⟩)
    (fun timer hin => ?_) (List.suffix_cons ..) fun p hmem => ?_
  · rcases List.mem_cons.mp hin with rfl | hin
    · exact Nat.lt_succ_self _
    · exact Nat.lt_succ_of_lt (h.fresh _ hin)
  · rcases List.mem_append.mp hmem with hmem | hmem
    · obtain ⟨rfl, hlt⟩ := mem_promised hmem
      refine ⟨⟨_, List.mem_cons_self, rfl, rfl, when_promised ..⟩, .inr ⟨hnew, rfl, ?_⟩⟩
      exact Nat.add_lt_add_left hlt _
    · obtain ⟨timer, hin, hrest⟩ := h.pends p hmem
      exact ⟨⟨timer, List.mem_cons_of_mem _ hin, hrest⟩, .inl hmem⟩

theorem Inv.timerScan (h : Inv s) (now : Nat) : Inv (timerScan s now) := by
  refine ⟨h.nodup, h.fresh, fun p hmem => ?_, fun p hmem => ?_, ?_⟩
  · obtain ⟨p, hp, rfl⟩ := List.mem_map.mp hmem
    exact h.pends p hp
  · obtain ⟨p, hp, rfl⟩ := List.mem_map.mp hmem
    exact Nat.lt_of_lt_of_le (h.soon p hp) (Nat.add_le_add_right (Nat.le_max_left ..) _)
  · refine ⟨s.timers.map Timer.addr, List.suffix_rfl, (List.head?_map ..).symm, fun p hmem => ?_⟩
    obtain ⟨p, hp, rfl⟩ := List.mem_map.mp hmem
    refine ⟨fun _ => ?_, fun hnot => ?_⟩
    · exact Nat.lt_of_lt_of_le (h.soon p hp) (Nat.add_le_add_right (Nat.le_max_left ..) _)
    · obtain ⟨timer, hin, haddr, -⟩ := h.pends p hp
      exact absurd (haddr ▸ List.mem_map_of_mem hin) hnot

end Calls

section Steps

variable {s s' : State w} {p : Promise} {timer : Timer w} {stamp t : Nat}

theorem Inv.eq_of_addr (h : Inv s) {timer' : Timer w} (hmem : timer ∈ s.timers)
    (hmem' : timer' ∈ s.timers) (haddr : timer.addr = timer'.addr) : timer = timer' :=
  List.inj_on_of_nodup_map h.nodup hmem hmem' haddr

theorem Inv.pending (h : Inv s) (hp : p ∈ s.promises) (hmem : timer ∈ s.timers)
    (haddr : p.timer = timer.addr) : timer.mark2Remove = false ∧ timer.when = reading w p.due := by
  obtain ⟨timer', hmem', haddr', hrest⟩ := h.pends p hp
  rwa [h.eq_of_addr hmem hmem' (haddr.symm.trans haddr'.symm)]

theorem Inv.cell (h : Inv s) {about : List Nat → Promise → Prop}
    (hwalk : Walks s (some t) about) : ∃ timer rest, timer ∈ s.timers ∧ timer.addr = t ∧
      s.timers.dropWhile (·.addr ≠ t) = timer :: rest ∧
        (t :: rest.map Timer.addr) <:+ s.timers.map Timer.addr ∧
          ∀ p ∈ s.promises, about (t :: rest.map Timer.addr) p := by
  obtain ⟨ahead, hsuffix, hhead, habout⟩ := hwalk
  obtain ⟨ps, rfl⟩ : ∃ ps, ahead = t :: ps := List.head?_eq_some_iff.mp hhead.symm
  obtain ⟨pre, timer, rest, hs, hnew, rfl, rfl⟩ := suffix_cell h.nodup hsuffix
  refine ⟨timer, rest, hs ▸ List.mem_append_right _ List.mem_cons_self, rfl, ?_, hsuffix, habout⟩
  rw [hs, dropWhile_cell hnew]

theorem Inv.due_iff (h : Inv s) (hp : p ∈ s.promises) (hmem : timer ∈ s.timers)
    (haddr : p.timer = timer.addr) :
    due (reading w stamp) timer ↔ p.due % 2 ^ w ≤ stamp % 2 ^ w := by
  obtain ⟨hunmarked, hwhen⟩ := h.pending hp hmem haddr
  rw [due, hunmarked, hwhen, ← reading_le]
  simp

theorem calls_visit (s : State w) (stamp : Nat) (timer : Timer w) (rest : List (Timer w)) :
    (visit s stamp timer rest).calls = s.calls ++ [(timer.addr, stamp)] ↔
      due (reading w stamp) timer := by
  rw [visit]
  by_cases hdue : due (reading w stamp) timer
  · rw [if_pos hdue]
    exact iff_of_true rfl hdue
  · rw [if_neg hdue]
    exact iff_of_false (fun heq => by simp at heq) hdue

theorem Inv.visit_iff (h : Inv s) (hp : p ∈ s.promises) (hmem : timer ∈ s.timers)
    (haddr : p.timer = timer.addr) (hsoon : p.due < stamp + 2 ^ (w - 1))
    (hlate : stamp < p.due + 2 ^ (w - 1)) (rest : List (Timer w)) :
    ((visit s stamp timer rest).calls = s.calls ++ [(timer.addr, stamp)] ↔ p.due ≤ stamp) ↔
      stamp / 2 ^ w = p.due / 2 ^ w := by
  have hhalf := half_le w
  rw [calls_visit, h.due_iff hp hmem haddr, reading_le_iff_iff (by omega) (by omega)]

theorem Inv.passed (h : Inv s) (hp : p ∈ s.promises) (hmem : timer ∈ s.timers)
    (haddr : p.timer = timer.addr) (hdue : ¬ due (reading w stamp) timer)
    (hperiod : stamp < p.due + 2 ^ (w - 1) → stamp / 2 ^ w = p.due / 2 ^ w) :
    Passed w stamp p := by
  rw [h.due_iff hp hmem haddr] at hdue
  refine fun _ => ⟨fun hlate => ?_, BitVec.not_le.mp (reading_le.not.mpr hdue)⟩
  rw [reading_le_iff (hperiod hlate)] at hdue
  exact Nat.lt_of_not_le hdue

theorem Inv.visit (h : Inv s) (hscan : s.scan = .calling stamp (some t))
    (hok : Safe s .proceed) (hs' : proceed s = some s') : Inv s' := by
  have hwalk := h.walk
  rw [Walk, hscan] at hwalk
  obtain ⟨timer, rest, hmem, rfl, hdrop, hsuffix, habout⟩ := h.cell hwalk
  have hperiod : ∀ p ∈ s.promises, InPeriod s p .proceed := hok s' hs'
  simp only [InPeriod, hscan] at hperiod
  simp only [proceed, hscan, hdrop] at hs'
  obtain rfl := Option.some.inj hs'
  have hrest : rest.map Timer.addr <:+ s.timers.map Timer.addr :=
    (List.suffix_cons ..).trans hsuffix
  have hahead : ∀ p ∈ s.promises, p.timer ≠ timer.addr →
      (p.timer ∈ rest.map Timer.addr → p.due < stamp + 2 ^ (w - 1)) ∧
        (p.timer ∉ rest.map Timer.addr → Passed w stamp p) := fun p hp hne =>
    ⟨fun hin => (habout p hp).1 (List.mem_cons_of_mem _ hin), fun hnot =>
      (habout p hp).2 fun hin => (List.mem_cons.mp hin).elim hne hnot⟩
  rw [Wrap.visit]
  by_cases hdue : due (reading w stamp) timer
  · rw [if_pos hdue]
    refine ⟨h.nodup, h.fresh, fun p hp => h.pends p (List.mem_filter.mp hp).1,
      fun p hp => h.soon p (List.mem_filter.mp hp).1, rest.map Timer.addr, hrest,
      (List.head?_map ..).symm, fun p hp => ?_⟩
    obtain ⟨hp, hne⟩ := List.mem_filter.mp hp
    exact hahead p hp (of_decide_eq_true hne)
  · rw [if_neg hdue]
    refine ⟨h.nodup, h.fresh, h.pends, h.soon, rest.map Timer.addr, hrest,
      (List.head?_map ..).symm, fun p hp => ?_⟩
    by_cases heq : p.timer = timer.addr
    · exact ⟨fun hin => (habout p hp).1 (List.mem_cons_of_mem _ hin), fun _ =>
        h.passed hp hmem heq hdue (hperiod p hp heq)⟩
    · exact hahead p hp heq

theorem pred_ne_zero {repeats : Int32} : repeats - 1 ≠ 0 ↔ repeats ≠ 1 :=
  not_congr ⟨fun h => (Int32.sub_add_cancel repeats 1).symm.trans (congrArg (· + 1) h),
    fun h => by rw [h]; rfl⟩

theorem Inv.pends_modify (h : Inv s) (hp : p ∈ s.promises) (hmem : timer ∈ s.timers)
    (haddr : p.timer = timer.addr) {f : Timer w → Timer w} (hf : ∀ t, (f t).addr = t.addr)
    (hmark : (f timer).mark2Remove = timer.mark2Remove) :
    Pends (modifyTimer s timer.addr f) p ↔ (f timer).when = timer.when := by
  obtain ⟨hunmarked, hwhen⟩ := h.pending hp hmem haddr
  constructor
  · rintro ⟨t, ht, hat, -, hdue⟩
    obtain ⟨u, hu, rfl⟩ := List.mem_map.mp ht
    by_cases hsame : u.addr = timer.addr
    · rw [if_pos hsame, h.eq_of_addr hu hmem hsame] at hdue
      exact hdue.trans hwhen.symm
    · rw [if_neg hsame] at hat
      exact absurd (hat.trans haddr) hsame
  · intro heq
    exact ⟨f timer, List.mem_map.mpr ⟨timer, hmem, if_pos rfl⟩, (hf timer).trans haddr.symm,
      hmark.trans hunmarked, heq.trans hwhen⟩

theorem Inv.pends_countDown (h : Inv s) (hp : p ∈ s.promises) (hmem : timer ∈ s.timers)
    (haddr : p.timer = timer.addr) (stamp : BitVec w) :
    Pends (countDown stamp timer s) p ↔
      stamp < timer.when ∨ timer.repeats ≠ 1 ∧ stamp + timer.period = timer.when := by
  obtain ⟨hunmarked, -⟩ := h.pending hp hmem haddr
  rw [countDown, if_neg (Bool.eq_false_iff.mp hunmarked)]
  by_cases hdue : timer.when ≤ stamp
  · rw [if_pos hdue, or_iff_right (BitVec.not_lt.mpr hdue)]
    split
    · rename_i hloop
      rw [h.pends_modify hp hmem haddr (f := fun t => { t with when := stamp + t.period })
        (fun _ => rfl) rfl]
      exact (and_iff_right (hloop ▸ by decide)).symm
    · split
      · rename_i hleft
        rw [h.pends_modify hp hmem haddr (f := fun t =>
          { t with repeats := t.repeats - 1, when := stamp + t.period }) (fun _ => rfl) rfl]
        exact (and_iff_right (pred_ne_zero.mp hleft)).symm
      · rename_i hlast
        refine iff_of_false ?_ fun hleft => hlast (pred_ne_zero.mpr hleft.1)
        rintro ⟨t, ht, hat, -⟩
        have hin : timer.addr ∈ (removeTimer s timer).timers.map Timer.addr :=
          hat.trans haddr ▸ List.mem_map_of_mem ht
        exact notMem_unlink h.nodup hin
  · rw [if_neg hdue]
    exact iff_of_true (h.pends p hp) (.inl (BitVec.not_le.mp hdue))

inductive Counted (timer : Timer w) (timers : List (Timer w)) : List (Timer w) → Prop
  | same : Counted timer timers timers
  | removed : Counted timer timers (unlink Timer.addr timer.addr timers)
  | changed (f : Timer w → Timer w) (hf : ∀ t, (f t).addr = t.addr) :
      Counted timer timers (timers.map fun t => if t.addr = timer.addr then f t else t)

theorem Counted.addrs {l l' : List (Timer w)} (h : Counted timer l l') :
    (l'.map Timer.addr).Sublist (l.map Timer.addr) := by
  cases h with
  | same => exact List.Sublist.refl _
  | removed => exact List.eraseP_sublist.map _
  | changed f hf =>
    have heq := addrs_map hf timer.addr l
    exact heq ▸ List.Sublist.refl _

theorem Counted.mem {l l' : List (Timer w)} (h : Counted timer l l') {t : Timer w} (ht : t ∈ l)
    (hne : t.addr ≠ timer.addr) : t ∈ l' := by
  cases h with
  | same => exact ht
  | removed => exact (List.mem_eraseP_of_neg (by simpa using hne)).mpr ht
  | changed f hf => exact List.mem_map.mpr ⟨t, ht, if_neg hne⟩

theorem Counted.suffix {l l' : List (Timer w)} (h : Counted timer l l')
    (hnodup : (l.map Timer.addr).Nodup) {ps : List Nat}
    (hsuffix : (timer.addr :: ps) <:+ l.map Timer.addr) : ps <:+ l'.map Timer.addr := by
  cases h with
  | same => exact (List.suffix_cons ..).trans hsuffix
  | removed => exact unlink_suffix hnodup hsuffix
  | changed f hf =>
    have heq := addrs_map hf timer.addr l
    exact heq ▸ (List.suffix_cons ..).trans hsuffix

theorem countDown_eq (stamp : BitVec w) (timer : Timer w) (s : State w) : ∃ timers,
    countDown stamp timer s = { s with timers := timers } ∧ Counted timer s.timers timers := by
  unfold countDown
  split
  · exact ⟨_, rfl, .removed⟩
  · split
    · split
      · exact ⟨_, rfl, .changed (fun t => { t with when := stamp + t.period }) fun _ => rfl⟩
      · split
        · exact ⟨_, rfl, .changed (fun t =>
            { t with repeats := t.repeats - 1, when := stamp + t.period }) fun _ => rfl⟩
        · exact ⟨_, rfl, .removed⟩
    · exact ⟨_, rfl, .same⟩

theorem Inv.counting_iff (h : Inv s) (hp : p ∈ s.promises) (hmem : timer ∈ s.timers)
    (haddr : p.timer = timer.addr) (hpassed : Passed w stamp p) :
    Pends (Wrap.countDown (reading w stamp) timer s) p ↔
      p.old ∨ reading w stamp < reading w p.due ∨ ∃ t ∈ s.timers, t.addr = timer.addr ∧
        t.repeats ≠ 1 ∧ reading w stamp + t.period = t.when := by
  rw [h.pends_countDown hp hmem haddr, (h.pending hp hmem haddr).2]
  constructor
  · rintro (hlater | hagain)
    · exact .inr (.inl hlater)
    · exact .inr (.inr ⟨timer, hmem, rfl, (h.pending hp hmem haddr).2.symm ▸ hagain⟩)
  · rintro (hold | hlater | ⟨t, ht, heq, hagain⟩)
    · exact .inl (hpassed hold).2
    · exact .inl hlater
    · obtain rfl := h.eq_of_addr ht hmem heq
      exact .inr ((h.pending hp hmem haddr).2 ▸ hagain)

theorem Inv.countDown (h : Inv s) (hscan : s.scan = .counting stamp (some t))
    (hok : Safe s .proceed) (hs' : proceed s = some s') : Inv s' := by
  have hwalk := h.walk
  rw [Walk, hscan] at hwalk
  obtain ⟨timer, rest, hmem, rfl, hdrop, hsuffix, habout⟩ := h.cell hwalk
  have hlater : ∀ p ∈ s.promises, InPeriod s p .proceed := hok s' hs'
  simp only [InPeriod, hscan] at hlater
  simp only [proceed, hscan, hdrop] at hs'
  obtain rfl := Option.some.inj hs'
  have hrest : rest.map Timer.addr <:+ s.timers.map Timer.addr :=
    (List.suffix_cons ..).trans hsuffix
  have hstep : Inv { s with scan := .counting stamp (rest.head?.map Timer.addr) } :=
    ⟨h.nodup, h.fresh, h.pends, h.soon, rest.map Timer.addr, hrest, (List.head?_map ..).symm,
      habout⟩
  obtain ⟨timers, heq, hcounted⟩ := countDown_eq (reading w stamp) timer
    { s with scan := .counting stamp (rest.head?.map Timer.addr) }
  have hpends : ∀ p ∈ s.promises, Pends (Wrap.countDown (reading w stamp) timer
      { s with scan := .counting stamp (rest.head?.map Timer.addr) }) p := by
    intro p hp
    by_cases haddr : p.timer = timer.addr
    · exact (hstep.counting_iff hp hmem haddr (habout p hp)).mpr (hlater p hp haddr)
    · obtain ⟨t, ht, hat, hrest⟩ := h.pends p hp
      rw [heq]
      exact ⟨t, hcounted.mem ht (hat ▸ haddr), hat, hrest⟩
  rw [heq] at hpends ⊢
  exact ⟨h.nodup.sublist hcounted.addrs, fun t ht => h.fresh t (hcounted.addrs.subset ht),
    hpends, h.soon, rest.map Timer.addr, hcounted.suffix h.nodup hsuffix,
    (List.head?_map ..).symm, habout⟩

theorem Inv.walked (h : Inv s) (hscan : s.scan = .calling stamp none) (hp : p ∈ s.promises) :
    Passed w stamp p := by
  have hwalk := h.walk
  rw [Walk, hscan] at hwalk
  obtain ⟨ahead, -, hhead, habout⟩ := hwalk
  obtain rfl : ahead = [] := List.head?_eq_none_iff.mp hhead.symm
  exact (habout p hp).2 List.not_mem_nil

theorem Inv.proceed (h : Inv s) (hok : Safe s .proceed) (hs' : proceed s = some s') :
    Inv s' := by
  cases hscan : s.scan with
  | idle =>
    rw [Wrap.proceed, hscan] at hs'
    cases hs'
  | calling stamp next =>
    cases next with
    | none =>
      rw [Wrap.proceed, hscan] at hs'
      obtain rfl := Option.some.inj hs'
      exact ⟨h.nodup, h.fresh, h.pends, h.soon, s.timers.map Timer.addr, List.suffix_rfl,
        (List.head?_map ..).symm, fun p hp => h.walked hscan hp⟩
    | some t => exact h.visit hscan hok hs'
  | counting stamp next =>
    cases next with
    | none =>
      rw [Wrap.proceed, hscan] at hs'
      obtain rfl := Option.some.inj hs'
      exact ⟨h.nodup, h.fresh, h.pends, h.soon, trivial⟩
    | some t => exact h.countDown hscan hok hs'

theorem of_aside {u : Option (State w)} (hs' : s.aside u = some s') : u = some s' := by
  rw [State.aside] at hs'
  split at hs'
  · cases hs'
  · exact hs'

theorem Inv.next {e : Event w} (h : Inv s) (hok : Safe s e) (hs' : next s e = some s') :
    Inv s' := by
  cases e with
  | timerRepeatAfter now count ltime =>
    exact Option.some.inj (of_aside hs') ▸ h.timerRepeatAfter now count ltime
  | timerRemove now timer => exact h.timerRemove (of_aside hs')
  | timerModify now timer ltime => exact h.timerModify (of_aside hs')
  | timerGetSmallestTimeout now =>
    exact Option.some.inj (of_aside hs') ▸ h.timerGetSmallestTimeout now
  | timerScan now =>
    rw [Wrap.next] at hs'
    split at hs'
    · exact Option.some.inj hs' ▸ h.timerScan now
    · cases hs'
  | proceed => exact h.proceed hok hs'

theorem Inv.keeps_iff {e : Event w} (h : Inv s) (hs' : Wrap.next s e = some s')
    (hp : p ∈ s.promises) : Keeps s s' p e ↔ InPeriod s p e := by
  cases e with
  | timerRepeatAfter now count ltime => exact Iff.rfl
  | timerRemove now timer => exact Iff.rfl
  | timerModify now timer ltime => exact Iff.rfl
  | timerGetSmallestTimeout now =>
    obtain rfl := Option.some.inj (of_aside hs')
    exact h.timeout_iff hp now
  | timerScan now => exact Iff.rfl
  | proceed =>
    have hwalk := h.walk
    rw [Walk] at hwalk
    rw [Keeps, InPeriod]
    cases hscan : s.scan with
    | idle => exact Iff.rfl
    | calling stamp next =>
      cases next with
      | none =>
        refine iff_of_true (fun hold hdue => ?_) trivial
        have hpassed := (h.walked hscan hp hold).1
        omega
      | some t =>
        rw [hscan] at hwalk
        obtain ⟨timer, rest, hmem, rfl, hdrop, -, habout⟩ := h.cell hwalk
        simp only [Wrap.next, Wrap.proceed, hscan, hdrop] at hs'
        obtain rfl := Option.some.inj hs'
        refine forall_congr' fun haddr => forall_congr' fun hlate => ?_
        exact h.visit_iff hp hmem haddr ((habout p hp).1 (haddr ▸ List.mem_cons_self)) hlate rest
    | counting stamp next =>
      cases next with
      | none => exact Iff.rfl
      | some t =>
        rw [hscan] at hwalk
        obtain ⟨timer, rest, hmem, rfl, hdrop, hsuffix, habout⟩ := h.cell hwalk
        simp only [Wrap.next, Wrap.proceed, hscan, hdrop] at hs'
        obtain rfl := Option.some.inj hs'
        have hstep : Inv { s with scan := .counting stamp (rest.head?.map Timer.addr) } :=
          ⟨h.nodup, h.fresh, h.pends, h.soon, rest.map Timer.addr,
            (List.suffix_cons ..).trans hsuffix, (List.head?_map ..).symm, habout⟩
        exact forall_congr' fun haddr => hstep.counting_iff hp hmem haddr (habout p hp)

theorem Inv.proceeds (h : Inv s) (hscan : s.scan ≠ .idle) : (Wrap.proceed s).isSome := by
  have hwalk := h.walk
  rw [Walk] at hwalk
  rw [Wrap.proceed]
  cases hs : s.scan with
  | idle => exact absurd hs hscan
  | calling stamp next =>
    cases next with
    | none => rfl
    | some t =>
      rw [hs] at hwalk
      obtain ⟨timer, rest, -, -, hdrop, -, -⟩ := h.cell hwalk
      dsimp only
      rw [hdrop]
      rfl
  | counting stamp next =>
    cases next with
    | none => rfl
    | some t =>
      rw [hs] at hwalk
      obtain ⟨timer, rest, -, -, hdrop, -, -⟩ := h.cell hwalk
      dsimp only
      rw [hdrop]
      rfl

end Steps

/-- In every run, the timers are called in time if and only if the clock does not start again at
the wrong moment. -/
theorem promises_kept (w : Nat) (es : List (Event w)) :
    Along next Kept (init w) es ↔ Along next Safe (init w) es :=
  along_iff (fun _ _ h => forall_congr' fun _ => forall_congr' fun hs' => forall_congr' fun _ =>
    forall_congr' fun hp => h.keeps_iff hs' hp) (fun _ _ _ h hok hs' => h.next hok hs') inv_init es

theorem scans_proceed {es : List (Event w)} (hok : Along next Safe (init w) es) {s : State w}
    (hrun : run next (init w) es = some s) (hscan : s.scan ≠ .idle) :
    (next s .proceed).isSome :=
  (run_invariant (fun _ _ _ h hok hs' => h.next hok hs') inv_init hok hrun).proceeds hscan

/-- A timer of 20 ms, 10 ms before the clock starts again, is called after 1 ms. One of 50 ms,
100 ms before, is passed over by a scan 105 ms later, and `select` may then sleep for 49 days. -/
theorem promises_broken :
    (run next (init 32) [.timerRepeatAfter 4294967286 1 20, .timerScan 4294967287,
      .proceed]).map (·.calls) = some [(0, 4294967287)] ∧
    (run next (init 32) [.timerRepeatAfter 4294967196 1 50, .timerScan 4294967301, .proceed,
      .proceed, .proceed, .proceed, .timerGetSmallestTimeout 4294967301]).map
        (fun s => (s.scan, s.calls, s.timeout)) = some (.idle, [], some 4294967241) := by
  decide

end IvyBus.Wrap
