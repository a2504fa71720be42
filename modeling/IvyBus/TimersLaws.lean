import IvyBus.Lib.Run
import IvyBus.Timers

namespace IvyBus.Timers

open Lib

/-- A timer with such a count is honoured: none is due when a callback creates it, unless it is
to be called for ever. -/
structure Lasting (count : Int32) (when : UInt64) (scan : Option UInt64) : Prop where
  count_ne : count ≠ 0
  later : count = timerLoop ∨ ∀ stamp, scan = some stamp → stamp < when

/-- `owed` is how many calls of the timer are not counted yet. -/
def Counts (count repeats : Int32) (calls owed : Nat) : Prop :=
  if count = timerLoop then repeats = timerLoop
  else 0 < repeats.toInt ∧ repeats.toInt + calls = count.toInt + owed

structure Running (owed : Timer → Nat) (s : State) (timer : Timer) (count : Int32) : Prop where
  mem : timer ∈ s.timers
  unmarked : timer.mark2Remove = false
  counts : Counts count timer.repeats (calls s timer.addr) (owed timer)

structure Over (s : State) (timer : Nat) (count : Int32) : Prop where
  unlisted : ¬ Listed s timer
  calls_eq : (calls s timer : Int) = count.toInt
  count_ne : count ≠ timerLoop

/-- A timer that the application leaves alone runs, or its calls are over. -/
def Kept (owed : Timer → Nat) (s : State) (t : Nat) (count : Int32) : Prop :=
  (∃ timer, timer.addr = t ∧ Running owed s timer count) ∨ Over s t count

structure Inv (owed : Timer → Nat) (s : State) : Prop where
  nodup : (s.timers.map Timer.addr).Nodup
  fresh : ∀ timer ∈ s.timers, timer.addr < s.brk
  logged : ∀ e ∈ s.log, e.timer < s.brk
  kept : s.stray = false → ∀ t count when scan, .created t count when scan ∈ s.log →
    Lasting count when scan → 0 ≤ count ∨ count = timerLoop → .changed t ∉ s.log →
      Kept owed s t count

section Kept

variable {owed owed' : Timer → Nat} {s s' : State} {timer : Timer} {t : Nat} {count : Int32}

theorem Kept.mono (h : Kept owed s t count)
    (hmem : ∀ timer ∈ s.timers, timer.addr = t → timer ∈ s'.timers ∧ owed' timer = owed timer)
    (hlisted : Listed s' t → Listed s t) (hcalls : calls s' t = calls s t) :
    Kept owed' s' t count := by
  rcases h with ⟨timer, rfl, hrun⟩ | hover
  · obtain ⟨hin, howed⟩ := hmem timer hrun.mem rfl
    refine Or.inl ⟨timer, rfl, hin, hrun.unmarked, ?_⟩
    rw [hcalls, howed]
    exact hrun.counts
  · exact Or.inr ⟨fun hin => hover.unlisted (hlisted hin), hcalls ▸ hover.calls_eq, hover.count_ne⟩

theorem inv_init : Inv owed init := ⟨List.nodup_nil, nofun, nofun, fun _ => nofun⟩

theorem Inv.astray (h : Inv owed s) (hs : s.stray = true) : Inv owed' s :=
  ⟨h.nodup, h.fresh, h.logged, fun hs' => absurd (hs.symm.trans hs') Bool.noConfusion⟩

theorem Inv.quiet (h : Inv owed s) (hstray : s'.stray = false → s.stray = false)
    (hlog : s'.log = s.log) (hbrk : s'.brk = s.brk)
    (hsub : (s'.timers.map Timer.addr).Sublist (s.timers.map Timer.addr))
    (hkept : ∀ t count, Kept owed s t count → Kept owed' s' t count) : Inv owed' s' := by
  refine ⟨h.nodup.sublist hsub, fun t ht => ?_, fun e he => ?_,
    fun hs t count when scan hin hl hc hno => ?_⟩
  · obtain ⟨t', ht', heq⟩ := List.mem_map.mp (hsub.subset (List.mem_map_of_mem ht))
    rw [hbrk, ← heq]
    exact h.fresh t' ht'
  · rw [hbrk]
    exact h.logged e (hlog ▸ he)
  · rw [hlog] at hin hno
    exact hkept t count (h.kept (hstray hs) t count when scan hin hl hc hno)

theorem Inv.of_eq (h : Inv owed s) (htimers : s'.timers = s.timers) (hbrk : s'.brk = s.brk)
    (hlog : s'.log = s.log) (hstray : s'.stray = false → s.stray = false) : Inv owed s' := by
  refine h.quiet hstray hlog hbrk (htimers ▸ List.Sublist.refl _) fun t count hkept => ?_
  refine hkept.mono (fun timer hin _ => ⟨htimers ▸ hin, rfl⟩) (fun hin => ?_) ?_
  · rwa [Listed, htimers] at hin
  · rw [calls, hlog]
    rfl

theorem Inv.eq_of_addr (h : Inv owed s) {timer' : Timer} (hmem : timer ∈ s.timers)
    (hmem' : timer' ∈ s.timers) (haddr : timer.addr = timer'.addr) : timer = timer' :=
  List.inj_on_of_nodup_map h.nodup hmem hmem' haddr

theorem calls_append {e : Entry} (hlog : s'.log = s.log ++ [e]) (he : e ≠ .called t) :
    calls s' t = calls s t := by
  rw [calls, hlog, List.count_append, List.count_singleton, if_neg (by simpa using he)]
  rfl

end Kept

section Perform

variable {owed : Timer → Nat} {s s' : State} {timer : Timer} {t : Nat} {count : Int32}

theorem addrs_modifyTimer {f : Timer → Timer} (hf : ∀ t, (f t).addr = t.addr) (s : State)
    (t : Nat) : (modifyTimer s t f).timers.map Timer.addr = s.timers.map Timer.addr := by
  rw [modifyTimer, List.map_map]
  apply List.map_congr_left
  intro timer _
  rw [Function.comp_apply]
  split
  · exact hf timer
  · rfl

theorem mem_modifyTimer_of_ne {f : Timer → Timer} (h : timer ∈ s.timers) (hne : timer.addr ≠ t) :
    timer ∈ (modifyTimer s t f).timers :=
  List.mem_map.mpr ⟨timer, h, if_neg hne⟩

theorem mem_modifyTimer_self {f : Timer → Timer} (h : timer ∈ s.timers) :
    f timer ∈ (modifyTimer s timer.addr f).timers :=
  List.mem_map.mpr ⟨timer, h, if_pos rfl⟩

theorem Inv.logged_append (h : Inv owed s) {e : Entry} (he : e.timer < s'.brk)
    (hbrk : s.brk ≤ s'.brk) (hlog : s'.log = s.log ++ [e]) : ∀ e ∈ s'.log, e.timer < s'.brk := by
  intro e' he'
  rw [hlog, List.mem_append, List.mem_singleton] at he'
  rcases he' with he' | rfl
  · exact (h.logged e' he').trans_le hbrk
  · exact he

theorem Inv.changed (h : Inv owed s) {f : Timer → Timer} (hf : ∀ t, (f t).addr = t.addr)
    (hmem : timer ∈ s.timers) (htimers : s'.timers = (modifyTimer s timer.addr f).timers)
    (hbrk : s'.brk = s.brk) (hlog : s'.log = s.log ++ [.changed timer.addr])
    (hstray : s'.stray = s.stray) :
    Inv owed s' ∧ s'.timers.map Timer.addr = s.timers.map Timer.addr := by
  have haddrs : s'.timers.map Timer.addr = s.timers.map Timer.addr := by
    rw [htimers]
    exact addrs_modifyTimer hf s timer.addr
  refine ⟨⟨haddrs ▸ h.nodup, fun t ht => ?_, ?_, fun hs t count when scan hin hl hc hno => ?_⟩,
    haddrs⟩
  · have hin : t.addr ∈ s.timers.map Timer.addr := haddrs ▸ List.mem_map_of_mem ht
    obtain ⟨t', ht', heq⟩ := List.mem_map.mp hin
    rw [hbrk, ← heq]
    exact h.fresh t' ht'
  · exact h.logged_append (hbrk ▸ h.fresh timer hmem) hbrk.ge hlog
  · rw [hlog, List.mem_append, List.mem_singleton] at hin hno
    rw [not_or] at hno
    have hne : t ≠ timer.addr := fun heq => hno.2 (congrArg _ heq)
    refine (h.kept (hstray ▸ hs) t count when scan (hin.resolve_right nofun) hl hc hno.1).mono
      (fun running hrunning haddr => ⟨?_, rfl⟩) (fun hlisted => ?_) (calls_append hlog nofun)
    · rw [htimers]
      exact mem_modifyTimer_of_ne hrunning (haddr ▸ hne)
    · rwa [Listed, haddrs] at hlisted

theorem Inv.created (h : Inv owed s) {when : UInt64} {scan : Option UInt64}
    (haddr : timer.addr = s.brk) (hunmarked : timer.mark2Remove = false)
    (howed : Lasting timer.repeats when scan → timer.repeats ≠ timerLoop → owed timer = 0)
    (htimers : s'.timers = timer :: s.timers) (hbrk : s'.brk = s.brk + 1)
    (hlog : s'.log = s.log ++ [.created timer.addr timer.repeats when scan])
    (hstray : s'.stray = s.stray) : Inv owed s' := by
  have hnew : timer.addr ∉ s.timers.map Timer.addr := by
    intro hin
    obtain ⟨t, ht, heq⟩ := List.mem_map.mp hin
    have hlt := h.fresh t ht
    rw [heq, haddr] at hlt
    exact hlt.false
  have hunlogged : ∀ e ∈ s.log, e.timer ≠ timer.addr := by
    intro e he heq
    have hlt := h.logged e he
    rw [heq, haddr] at hlt
    exact hlt.false
  have hlt : timer.addr < s'.brk := by
    rw [hbrk, haddr]
    exact Nat.lt_succ_self _
  have hlogged := h.logged_append (e := .created timer.addr timer.repeats when scan) hlt
    (hbrk ▸ Nat.le_succ _) hlog
  refine ⟨?_, fun t ht => ?_, hlogged,
    fun hs t count when' scan' hin hl hc hno => ?_⟩
  · rw [htimers]
    exact List.nodup_cons.mpr ⟨hnew, h.nodup⟩
  · rw [htimers] at ht
    rcases List.mem_cons.mp ht with rfl | ht
    · exact hlt
    · rw [hbrk]
      exact Nat.lt_succ_of_lt (h.fresh t ht)
  · rw [hlog, List.mem_append, List.mem_singleton] at hin hno
    rw [not_or] at hno
    rcases hin with hin | heq
    · refine (h.kept (hstray ▸ hs) t count when' scan' hin hl hc hno.1).mono
        (fun running hrunning _ => ⟨?_, rfl⟩) (fun hlisted => ?_) (calls_append hlog nofun)
      · rw [htimers]
        exact List.mem_cons_of_mem _ hrunning
      · rw [Listed, htimers, List.map_cons, List.mem_cons] at hlisted
        exact hlisted.resolve_left (hunlogged _ hin)
    · obtain ⟨rfl, rfl, rfl, rfl⟩ := Entry.created.inj heq
      have hnone : calls s' timer.addr = 0 := by
        rw [calls_append hlog nofun, calls, List.count_eq_zero]
        exact fun hin => hunlogged _ hin rfl
      refine Or.inl ⟨timer, rfl, ?_, hunmarked, ?_⟩
      · rw [htimers]
        exact List.mem_cons_self
      · rw [Counts, hnone]
        split
        · assumption
        · rename_i hloop
          rw [howed hl hloop]
          have hle : 0 ≤ timer.repeats.toInt :=
            Int32.le_iff_toInt_le.mp (hc.resolve_right hloop)
          have hne : timer.repeats.toInt ≠ 0 := fun heq => hl.count_ne (Int32.toInt_inj.mp heq)
          exact ⟨by omega, rfl⟩

theorem timers_adjTimeout (s : State) (current : UInt64) :
    (adjTimeout s current).timers = s.timers := by
  unfold adjTimeout
  split <;> rfl

theorem brk_adjTimeout (s : State) (current : UInt64) : (adjTimeout s current).brk = s.brk := by
  unfold adjTimeout
  split <;> rfl

theorem stray_adjTimeout (s : State) (current : UInt64) :
    (adjTimeout s current).stray = s.stray := by
  unfold adjTimeout
  split <;> rfl

theorem Inv.onTimer (h : Inv owed s) (t : Nat) {change : Timer → State}
    (hchange : ∀ timer ∈ s.timers, Inv owed (change timer) ∧
      (change timer).timers.map Timer.addr = s.timers.map Timer.addr) :
    Inv owed (onTimer s t change) ∧
      (onTimer s t change).timers.map Timer.addr = s.timers.map Timer.addr := by
  unfold Timers.onTimer
  split
  · exact ⟨h.of_eq rfl rfl rfl nofun, rfl⟩
  · rename_i timer hfind
    split
    · exact ⟨h, rfl⟩
    · exact hchange timer (List.mem_of_find?_eq_some hfind)

theorem timerRepeatAfter_eq (scan : Option UInt64) (s : State) (now : UInt64) (count : Int32)
    (ltime : Int64) : ∃ (nextTimeout : UInt64) (timeout : Option UInt64) (clock : UInt64),
      timerRepeatAfter scan s now count ltime = { s with
        timers := ⟨s.brk, count, ltime.toUInt64, clock + ltime.toUInt64, false⟩ :: s.timers
        nextTimeout := nextTimeout
        timeout := timeout
        clock := clock
        brk := s.brk + 1
        log := s.log ++ [.created s.brk count (clock + ltime.toUInt64) scan] } := by
  unfold timerRepeatAfter
  dsimp only
  split
  · exact ⟨_, _, _, rfl⟩
  · exact ⟨_, _, _, rfl⟩

theorem State.unlessStray_rule {P : State → Prop} (s s' : State) (hstray : s.stray = true → P s)
    (hstep : s.stray = false → P s') : P (s.unlessStray s') := by
  rw [unlessStray]
  split
  · rename_i hs
    exact hstray hs
  · rename_i hs
    exact hstep (Bool.eq_false_iff.mpr hs)

theorem Inv.perform (h : Inv owed s) {scan : Option UInt64}
    (hnew : ∀ timer : Timer, Lasting timer.repeats timer.when scan → timer.repeats ≠ timerLoop →
      owed timer = 0) (op : Op) : Inv owed (perform scan s op) ∧
        s.timers.map Timer.addr <:+ (perform scan s op).timers.map Timer.addr := by
  refine State.unlessStray_rule (P := fun t => Inv owed t ∧
    s.timers.map Timer.addr <:+ t.timers.map Timer.addr) _ _ (fun _ => ⟨h, List.suffix_rfl⟩)
      fun _ => ?_
  cases op with
  | timerRepeatAfter now count ltime =>
    obtain ⟨nextTimeout, timeout, clock, heq⟩ := timerRepeatAfter_eq scan s now count ltime
    rw [operate, heq]
    exact ⟨h.created rfl rfl (hnew _) rfl rfl rfl rfl, List.suffix_cons ..⟩
  | timerRemove now t =>
    have hop : Inv owed (timerRemove s now t) ∧
        (timerRemove s now t).timers.map Timer.addr = s.timers.map Timer.addr :=
      h.onTimer t fun timer hmem =>
        h.changed (f := fun t => { t with mark2Remove := true }) (fun _ => rfl) hmem
          (timers_adjTimeout ..) (brk_adjTimeout ..) rfl (stray_adjTimeout ..)
    exact ⟨hop.1, hop.2 ▸ List.suffix_rfl⟩
  | timerModify now t ltime =>
    have hop : Inv owed (timerModify s now t ltime) ∧
        (timerModify s now t ltime).timers.map Timer.addr = s.timers.map Timer.addr :=
      h.onTimer t fun timer hmem =>
        h.changed (f := fun t => { t with
          period := ltime.toUInt64, when := (currentTime s now).clock + ltime.toUInt64 })
          (fun _ => rfl) hmem (timers_adjTimeout ..) (brk_adjTimeout ..) rfl (stray_adjTimeout ..)
    exact ⟨hop.1, hop.2 ▸ List.suffix_rfl⟩

theorem Inv.performs (h : Inv owed s) {scan : Option UInt64}
    (hnew : ∀ timer : Timer, Lasting timer.repeats timer.when scan → timer.repeats ≠ timerLoop →
      owed timer = 0) (ops : List Op) :
    Inv owed (ops.foldl (Timers.perform scan) s) ∧
      s.timers.map Timer.addr <:+ (ops.foldl (Timers.perform scan) s).timers.map Timer.addr := by
  induction ops generalizing s with
  | nil => exact ⟨h, List.suffix_rfl⟩
  | cons op ops ih =>
    obtain ⟨hop, hsuffix⟩ := h.perform hnew op
    obtain ⟨hops, hrest⟩ := ih hop
    exact ⟨hops, hsuffix.trans hrest⟩

end Perform

/-- In the first walk of `TimerScan` a timer that is due is owed a call as soon as it is passed. -/
def passed (stamp : UInt64) (ahead : List Nat) (timer : Timer) : Nat :=
  if timer.when ≤ stamp ∧ timer.addr ∉ ahead then 1 else 0

def unpaid (stamp : UInt64) (ahead : List Nat) (timer : Timer) : Nat :=
  if timer.when ≤ stamp ∧ timer.addr ∈ ahead then 1 else 0

section Scan

variable {s : State} {timer : Timer} {stamp : UInt64} {ps : List Nat}

theorem passed_of_lasting (hl : Lasting timer.repeats timer.when (some stamp))
    (hloop : timer.repeats ≠ timerLoop) : passed stamp ps timer = 0 :=
  if_neg fun h => UInt64.not_le.mpr (hl.later.resolve_left hloop stamp rfl) h.1

theorem passed_cons_of_ne {t : Timer} (hne : t.addr ≠ timer.addr) :
    passed stamp (timer.addr :: ps) t = passed stamp ps t := by
  simp only [passed, List.mem_cons, hne, false_or]

theorem unpaid_cons_of_ne {t : Timer} (hne : t.addr ≠ timer.addr) :
    unpaid stamp (timer.addr :: ps) t = unpaid stamp ps t := by
  simp only [unpaid, List.mem_cons, hne, false_or]

theorem Inv.pass {owed owed' : Timer → Nat} (h : Inv owed s) (hmem : timer ∈ s.timers)
    (hsame : timer.mark2Remove = false → owed' timer = owed timer)
    (hothers : ∀ t : Timer, t.addr ≠ timer.addr → owed' t = owed t) : Inv owed' s := by
  refine h.quiet id rfl rfl (List.Sublist.refl _) fun t count hkept => ?_
  rcases hkept with ⟨t, rfl, hrun⟩ | hover
  · refine Or.inl ⟨t, rfl, hrun.mem, hrun.unmarked, ?_⟩
    by_cases haddr : t.addr = timer.addr
    · obtain rfl := h.eq_of_addr hrun.mem hmem haddr
      rw [hsame hrun.unmarked]
      exact hrun.counts
    · rw [hothers t haddr]
      exact hrun.counts
  · exact Or.inr hover

theorem counts_called {count : Int32}
    (h : Counts count timer.repeats (calls s timer.addr) (passed stamp (timer.addr :: ps) timer))
    (hps : timer.addr ∉ ps) (hdue : timer.when ≤ stamp) :
    Counts count timer.repeats (calls { s with log := s.log ++ [.called timer.addr] } timer.addr)
      (passed stamp ps timer) := by
  have hcalls : calls { s with log := s.log ++ [.called timer.addr] } timer.addr =
      calls s timer.addr + 1 := by
    rw [calls, List.count_append, List.count_singleton_self]
    rfl
  have hbefore : passed stamp (timer.addr :: ps) timer = 0 :=
    if_neg fun h => h.2 List.mem_cons_self
  have hafter : passed stamp ps timer = 1 := if_pos ⟨hdue, hps⟩
  rw [hbefore] at h
  rw [hcalls, hafter]
  by_cases hloop : count = timerLoop
  · rw [Counts, if_pos hloop] at h ⊢
    exact h
  · rw [Counts, if_neg hloop] at h ⊢
    exact ⟨h.1, by omega⟩

theorem Inv.call (h : Inv (passed stamp (timer.addr :: ps)) s) (hmem : timer ∈ s.timers)
    (hps : timer.addr ∉ ps) (hdue : timer.when ≤ stamp) (callbacks : Callbacks) :
    Inv (passed stamp ps) (call callbacks stamp timer s) ∧
      s.timers.map Timer.addr <:+ (call callbacks stamp timer s).timers.map Timer.addr := by
  have hcalled : Inv (passed stamp ps) { s with log := s.log ++ [.called timer.addr] } := by
    refine ⟨h.nodup, h.fresh, ?_, fun hs t count when scan hin hl hc hno => ?_⟩
    · exact h.logged_append (e := .called timer.addr) (h.fresh timer hmem) le_rfl rfl
    · rw [List.mem_append, List.mem_singleton] at hin hno
      rw [not_or] at hno
      have hkept := h.kept hs t count when scan (hin.resolve_right nofun) hl hc hno.1
      rcases hkept with ⟨running, rfl, hrun⟩ | hover
      · refine Or.inl ⟨running, rfl, hrun.mem, hrun.unmarked, ?_⟩
        by_cases haddr : running.addr = timer.addr
        · obtain rfl := h.eq_of_addr hrun.mem hmem haddr
          exact counts_called hrun.counts hps hdue
        · rw [← passed_cons_of_ne haddr]
          rw [calls_append (e := .called timer.addr) rfl
            fun heq => haddr (Entry.called.inj heq).symm]
          exact hrun.counts
      · have hne : Entry.called timer.addr ≠ .called t := by
          intro heq
          rw [Entry.called.injEq] at heq
          exact hover.unlisted (heq ▸ List.mem_map_of_mem hmem)
        have hcalls : calls { s with log := s.log ++ [.called timer.addr] } t = calls s t :=
          calls_append rfl hne
        exact Or.inr ⟨hover.unlisted, hcalls ▸ hover.calls_eq, hover.count_ne⟩
  exact hcalled.performs (fun t hl hloop => passed_of_lasting hl hloop) _

theorem Inv.callExpired (h : Inv (fun _ => 0) s) (callbacks : Callbacks) (stamp : UInt64) :
    ∃ s', callExpired callbacks stamp s = some s' ∧ Inv (passed stamp []) s' := by
  refine forEachSafe_ahead (I := fun ps s => Inv (passed stamp ps) s)
    (fun ps t ht => ht.nodup) ?_ ?_
  · intro timer ps t ht hmem hsuffix
    have hps : timer.addr ∉ ps := (List.nodup_cons.mp (ht.nodup.sublist hsuffix.sublist)).1
    have hrest : ps <:+ t.timers.map Timer.addr := (List.suffix_cons ..).trans hsuffix
    refine ⟨_, rfl, State.unlessStray_rule (P := fun u => Inv (passed stamp ps) u ∧
      ps <:+ u.timers.map Timer.addr) _ _ (fun hs => ⟨ht.astray hs, hrest⟩) fun _ => ?_⟩
    split
    · rename_i hdue
      obtain ⟨hcalled, hlist⟩ := ht.call hmem hps hdue.1 callbacks
      exact ⟨hcalled, hrest.trans hlist⟩
    · rename_i hdue
      refine ⟨ht.pass hmem (fun hunmarked => ?_) fun t hne => (passed_cons_of_ne hne).symm, hrest⟩
      have hlater : ¬ timer.when ≤ stamp := fun hle => hdue ⟨hle, by rw [hunmarked]; rfl⟩
      rw [passed, passed, if_neg fun h => hlater h.1, if_neg fun h => hlater h.1]
  · refine h.quiet id rfl rfl (List.Sublist.refl _) fun t count hkept => ?_
    refine hkept.mono (fun timer hmem _ => ⟨hmem, ?_⟩) id rfl
    exact if_neg fun hpassed => hpassed.2 (List.mem_map_of_mem hmem)

theorem Inv.removeTimer (h : Inv (unpaid stamp (timer.addr :: ps)) s) (hmem : timer ∈ s.timers)
    (hover : ∀ count, Running (unpaid stamp (timer.addr :: ps)) s timer count →
      (calls s timer.addr : Int) = count.toInt ∧ count ≠ timerLoop) :
    Inv (unpaid stamp ps) (removeTimer s timer) := by
  have hunlisted : ¬ Listed (Timers.removeTimer s timer) timer.addr := notMem_unlink h.nodup
  refine h.quiet id rfl rfl (List.eraseP_sublist.map _) fun t count hkept => ?_
  rcases hkept with ⟨running, rfl, hrun⟩ | hgone
  · by_cases haddr : running.addr = timer.addr
    · obtain rfl := h.eq_of_addr hrun.mem hmem haddr
      obtain ⟨hcalls, hcount⟩ := hover count hrun
      exact Or.inr ⟨hunlisted, hcalls, hcount⟩
    · refine Or.inl ⟨running, rfl, ?_, hrun.unmarked, ?_⟩
      · exact (List.mem_eraseP_of_neg (by simpa using haddr)).mpr hrun.mem
      · rw [← unpaid_cons_of_ne haddr]
        exact hrun.counts
  · refine Or.inr ⟨fun hin => hgone.unlisted ?_, hgone.calls_eq, hgone.count_ne⟩
    exact (List.eraseP_sublist.map _).subset hin

theorem Inv.rearm (h : Inv (unpaid stamp (timer.addr :: ps)) s) (hmem : timer ∈ s.timers)
    (hps : timer.addr ∉ ps) (hrest : ps <:+ s.timers.map Timer.addr) {f : Timer → Timer}
    (hf : ∀ t, (f t).addr = t.addr) (hmark : (f timer).mark2Remove = timer.mark2Remove)
    (hcounts : ∀ count, Running (unpaid stamp (timer.addr :: ps)) s timer count →
      Counts count (f timer).repeats (calls s timer.addr) 0) :
    Inv (unpaid stamp ps) (modifyTimer s timer.addr f) ∧
      ps <:+ (modifyTimer s timer.addr f).timers.map Timer.addr := by
  have haddrs := addrs_modifyTimer hf s timer.addr
  refine ⟨?_, haddrs ▸ hrest⟩
  refine h.quiet id rfl rfl (haddrs ▸ List.Sublist.refl _) fun t count hkept => ?_
  rcases hkept with ⟨running, rfl, hrun⟩ | hgone
  · by_cases haddr : running.addr = timer.addr
    · obtain rfl := h.eq_of_addr hrun.mem hmem haddr
      have hpaid : unpaid stamp ps (f running) = 0 := if_neg fun hdue => hps (hf running ▸ hdue.2)
      refine Or.inl ⟨f running, hf running, mem_modifyTimer_self hmem,
        hmark.trans hrun.unmarked, ?_⟩
      rw [hpaid, hf]
      exact hcounts count hrun
    · refine Or.inl ⟨running, rfl, mem_modifyTimer_of_ne hrun.mem haddr, hrun.unmarked, ?_⟩
      rw [← unpaid_cons_of_ne haddr]
      exact hrun.counts
  · refine Or.inr ⟨?_, hgone.calls_eq, hgone.count_ne⟩
    rw [Listed, haddrs]
    exact hgone.unlisted

theorem toInt_pred {r : Int32} (h : 0 < r.toInt) : (r - 1).toInt = r.toInt - 1 := by
  have hlt := r.toInt_lt
  rw [Int32.toInt_sub, Int32.toInt_one]
  exact Int.bmod_eq_of_le (by omega) (by omega)

theorem Running.owes {count : Int32} (h : Running (unpaid stamp (timer.addr :: ps)) s timer count)
    (hdue : timer.when ≤ stamp) : Counts count timer.repeats (calls s timer.addr) 1 := by
  have howed : unpaid stamp (timer.addr :: ps) timer = 1 := if_pos ⟨hdue, List.mem_cons_self⟩
  exact howed ▸ h.counts

theorem counts_loop {count : Int32} {calls : Nat} (h : Counts count timer.repeats calls 1)
    (hloop : timer.repeats = timerLoop) : Counts count timer.repeats calls 0 := by
  by_cases hcount : count = timerLoop
  · rw [Counts, if_pos hcount]
    exact hloop
  · rw [Counts, if_neg hcount, hloop] at h
    exact absurd h.1 (by decide)

theorem counts_pred {count : Int32} {calls : Nat} (h : Counts count timer.repeats calls 1)
    (hloop : timer.repeats ≠ timerLoop) :
    count ≠ timerLoop ∧ (timer.repeats - 1 ≠ 0 → Counts count (timer.repeats - 1) calls 0) ∧
      (timer.repeats - 1 = 0 → (calls : Int) = count.toInt) := by
  by_cases hcount : count = timerLoop
  · rw [Counts, if_pos hcount] at h
    exact absurd h hloop
  · rw [Counts, if_neg hcount] at h
    obtain ⟨hpos, hsum⟩ := h
    have hpred := toInt_pred hpos
    refine ⟨hcount, fun hne => ?_, fun hzero => ?_⟩
    · have hleft : (timer.repeats - 1).toInt ≠ 0 := fun heq => hne (Int32.toInt_inj.mp heq)
      rw [Counts, if_neg hcount]
      omega
    · rw [hzero, Int32.toInt_zero] at hpred
      omega

theorem Inv.countDown (h : Inv (unpaid stamp (timer.addr :: ps)) s) (hmem : timer ∈ s.timers)
    (hahead : (timer.addr :: ps) <:+ s.timers.map Timer.addr) :
    Inv (unpaid stamp ps) (countDown stamp timer s) ∧
      ps <:+ (countDown stamp timer s).timers.map Timer.addr := by
  have hps : timer.addr ∉ ps := (List.nodup_cons.mp (h.nodup.sublist hahead.sublist)).1
  have hrest : ps <:+ s.timers.map Timer.addr := (List.suffix_cons ..).trans hahead
  have hunlinked : ps <:+ (Timers.removeTimer s timer).timers.map Timer.addr :=
    unlink_suffix h.nodup hahead
  unfold Timers.countDown
  split
  · rename_i hmark
    refine ⟨h.removeTimer hmem fun count hrun => ?_, hunlinked⟩
    rw [hrun.unmarked] at hmark
    cases hmark
  · split
    · rename_i hdue
      split
      · rename_i hloop
        exact h.rearm hmem hps hrest (fun _ => rfl) rfl fun count hrun =>
          counts_loop (hrun.owes hdue) hloop
      · rename_i hloop
        split
        · rename_i hleft
          exact h.rearm hmem hps hrest (fun _ => rfl) rfl fun count hrun =>
            (counts_pred (hrun.owes hdue) hloop).2.1 hleft
        · rename_i hlast
          refine ⟨h.removeTimer hmem fun count hrun => ?_, hunlinked⟩
          obtain ⟨hcount, -, hcalls⟩ := counts_pred (hrun.owes hdue) hloop
          exact ⟨hcalls (not_not.mp hlast), hcount⟩
    · rename_i hlater
      refine ⟨h.pass hmem (fun _ => ?_) fun t hne => (unpaid_cons_of_ne hne).symm, hrest⟩
      rw [unpaid, unpaid, if_neg fun h => hlater h.1, if_neg fun h => hlater h.1]

theorem Inv.timerScan (h : Inv (fun _ => 0) s) (callbacks : Callbacks) (now : UInt64) :
    ∃ s', timerScan callbacks s now = some s' ∧ Inv (fun _ => 0) s' := by
  have hread : Inv (fun _ => 0) (currentTime s now) := h.of_eq rfl rfl rfl id
  obtain ⟨u, hu, hcalled⟩ := hread.callExpired callbacks (currentTime s now).clock
  have hstart : Inv (unpaid (currentTime s now).clock (u.timers.map Timer.addr)) u := by
    refine hcalled.quiet id rfl rfl (List.Sublist.refl _) fun t count hkept => ?_
    refine hkept.mono (fun timer hmem _ => ⟨hmem, ?_⟩) id rfl
    have hin : timer.addr ∈ u.timers.map Timer.addr := List.mem_map_of_mem hmem
    simp only [unpaid, passed, hin, List.not_mem_nil, not_false_iff]
  obtain ⟨s', hs', hend⟩ : ∃ s', forEachSafe Timer.addr State.timers
      (fun timer t => some (t.unlessStray (Timers.countDown (currentTime s now).clock timer t)))
        u = some s' ∧ Inv (unpaid (currentTime s now).clock []) s' := by
    refine forEachSafe_ahead (I := fun ps t => Inv (unpaid (currentTime s now).clock ps) t)
      (fun ps t ht => ht.nodup) (fun timer ps t ht hmem hahead => ⟨_, rfl, ?_⟩) hstart
    exact State.unlessStray_rule (P := fun v => Inv (unpaid _ ps) v ∧
      ps <:+ v.timers.map Timer.addr) _ _
        (fun hs => ⟨ht.astray hs, (List.suffix_cons ..).trans hahead⟩)
          fun _ => ht.countDown hmem hahead
  refine ⟨s', ?_, ?_⟩
  · rw [Timers.timerScan, hu]
    exact hs'
  · refine hend.quiet id rfl rfl (List.Sublist.refl _) fun t count hkept => ?_
    refine hkept.mono (fun timer hmem _ => ⟨hmem, ?_⟩) id rfl
    exact (if_neg fun hdue => absurd hdue.2 List.not_mem_nil).symm

end Scan

theorem Kept.honoured {s : State} {t : Nat} {count : Int32} (h : Kept (fun _ => 0) s t count) :
    Honoured s t count := by
  rcases h with ⟨timer, rfl, hrun⟩ | hover
  · have hlisted : Listed s timer.addr := List.mem_map_of_mem hrun.mem
    refine ⟨fun hcount => ⟨?_, fun hnot => absurd hlisted hnot⟩, fun _ => hlisted⟩
    have hcounts := hrun.counts
    have hne : count ≠ timerLoop := by
      rintro rfl
      revert hcount
      decide
    rw [Counts, if_neg hne] at hcounts
    omega
  · exact ⟨fun _ => ⟨Int.le_of_eq hover.calls_eq, fun _ => hover.calls_eq⟩,
      fun hloop => absurd hloop hover.count_ne⟩

/-- In every run a timer that the application leaves alone is honoured, unless its count is zero
or a callback creates it when it is due and it is not to be called for ever. -/
theorem repeats_honoured (callbacks : Callbacks) (es : List Event) :
    ∃ s, run (next callbacks) init es = some s ∧ (s.stray = false →
      ∀ t count when scan, .created t count when scan ∈ s.log → .changed t ∉ s.log →
        0 ≤ count ∨ count = timerLoop → Lasting count when scan → Honoured s t count) := by
  have hstep : ∀ s e, Inv (fun _ => 0) s → True → ∃ s', next callbacks s e = some s' ∧
      Inv (fun _ => 0) s' := by
    intro s e h _
    cases e with
    | op op => exact ⟨_, rfl, (h.perform (fun _ _ _ => rfl) op).1⟩
    | timerScan now => exact h.timerScan callbacks now
  obtain ⟨s, hrun, hinv⟩ := run_defined (Q := fun _ _ => True) hstep inv_init
    (along_of_forall (fun _ _ => trivial) _ es)
  refine ⟨s, hrun, fun hs t count when scan hin hno hcount hl => ?_⟩
  exact (hinv.kept hs t count when scan hin hl hcount hno).honoured

def creating : Callbacks
  | [_, _] => [.timerRepeatAfter 5 1 0]
  | _ => []

/-- A timer with the count zero is called; one that is due when a callback creates it leaves the
list without a call. -/
theorem repeats_not_honoured :
    (∃ s, run (next fun _ => []) init [.op (.timerRepeatAfter 5 0 0), .timerScan 6] = some s ∧
      s.stray = false ∧ .created 0 0 5 none ∈ s.log ∧ .changed 0 ∉ s.log ∧ ¬ Honoured s 0 0) ∧
    ∃ s, run (next creating) init [.op (.timerRepeatAfter 5 1 0), .timerScan 5] = some s ∧
      s.stray = false ∧ .created 1 1 5 (some 5) ∈ s.log ∧ .changed 1 ∉ s.log ∧
        ¬ Honoured s 1 1 := by
  refine ⟨⟨_, rfl, rfl, by decide, by decide, ?_⟩, _, rfl, rfl, by decide, by decide, ?_⟩
  · unfold Honoured Listed
    decide
  · unfold Honoured Listed
    decide

end IvyBus.Timers
