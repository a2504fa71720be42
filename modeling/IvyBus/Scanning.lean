import IvyBus.TimersLaws

namespace IvyBus.Timers

open Lib

/-- What is done with a node of the list. A timer is visited by the first walk of `TimerScan`, and
told as it is then. -/
inductive Act
  | read (timer : Nat)
  | visited (timer : Timer)
  | called (timer : Nat)
  | removed (timer : Nat)
  | unlinked (timer : Nat)

def Act.timer : Act → Nat
  | .read timer => timer
  | .visited timer => timer.addr
  | .called timer => timer
  | .removed timer => timer
  | .unlinked timer => timer

structure Traced where
  state : State
  acts : List Act

def Traced.note (x : Traced) (acts : List Act) : Traced := { x with acts := x.acts ++ acts }

def readAll (s : State) : List Act := s.timers.map fun timer => .read timer.addr

/-- `TimerRemove` and `TimerModify` read the mark; without one they go on as `acts` tells. -/
def onTimerActs (s : State) (timer : Nat) (acts : List Act) : List Act :=
  match findTimer s timer with
  | none => []
  | some t => .read t.addr :: if t.mark2Remove then [] else acts

/-- `AdjTimeout` reads every node. -/
def opActs (s : State) : Op → List Act
  | .timerRepeatAfter .. => []
  | .timerRemove _ timer => onTimerActs s timer (.removed timer :: readAll s)
  | .timerModify _ timer _ => onTimerActs s timer (readAll s)

def Traced.unlessStray (x x' : Traced) : Traced := if x.state.stray then x else x'

def tracedPerform (scan : Option UInt64) (x : Traced) (op : Op) : Traced :=
  x.unlessStray ⟨operate scan x.state op, x.acts ++ opActs x.state op⟩

def tracedCall (callbacks : Callbacks) (stamp : UInt64) (timer : Timer) (x : Traced) : Traced :=
  let log := x.state.log ++ [.called timer.addr]
  (callbacks log).foldl (tracedPerform (some stamp))
    ⟨{ x.state with log := log }, x.acts ++ [.called timer.addr]⟩

def due (stamp : UInt64) (timer : Timer) : Bool := timer.when ≤ stamp ∧ !timer.mark2Remove

def tracedCallExpired (callbacks : Callbacks) (stamp : UInt64) (x : Traced) : Option Traced :=
  forEachSafe Timer.addr (·.state.timers) (fun timer x =>
    some <| x.unlessStray <|
      let x := x.note [.visited timer]
      if due stamp timer then tracedCall callbacks stamp timer x else x) x

/-- `IVY_LIST_REMOVE` looks for the node before the one that it frees. -/
def removeActs (s : State) (timer : Nat) : List Act :=
  (s.timers.takeWhile (·.addr ≠ timer)).map (fun timer => .read timer.addr) ++
    [.read timer, .unlinked timer]

def leaves (stamp : UInt64) (timer : Timer) : Bool :=
  timer.mark2Remove ∨ timer.when ≤ stamp ∧ timer.repeats ≠ timerLoop ∧ timer.repeats - 1 = 0

def tracedCountDown (stamp : UInt64) (timer : Timer) (x : Traced) : Traced :=
  ⟨countDown stamp timer x.state, x.acts ++ .read timer.addr ::
    if leaves stamp timer then removeActs x.state timer.addr else []⟩

def tracedScan (callbacks : Callbacks) (x : Traced) (now : UInt64) : Option Traced :=
  let s := currentTime x.state now
  let stamp := s.clock
  (tracedCallExpired callbacks stamp { x with state := s }).bind
    (forEachSafe Timer.addr (·.state.timers) fun timer x =>
      some (x.unlessStray (tracedCountDown stamp timer x)))

def tracedNext (callbacks : Callbacks) (x : Traced) : Event → Option Traced
  | .op op => some (tracedPerform none x op)
  | .timerScan now => tracedScan callbacks x now

def visits (acts : List Act) : List Timer :=
  acts.filterMap fun
    | .visited timer => some timer
    | _ => none

def calledTimers (acts : List Act) : List Nat :=
  acts.filterMap fun
    | .called timer => some timer
    | _ => none

/-- What may come after an act. -/
def Follows (a b : Act) : Prop :=
  (∀ t, a = .removed t → b ≠ .called t) ∧ (∀ t, a = .unlinked t → b.timer ≠ t)

def Safe (acts : List Act) : Prop := acts.Pairwise Follows

structure Distinct (s : State) : Prop where
  nodup : (s.timers.map Timer.addr).Nodup
  fresh : ∀ timer ∈ s.timers, timer.addr < s.brk

section Erase

theorem Traced.unlessStray_rule {P : Traced → Prop} (x x' : Traced)
    (hstray : x.state.stray = true → P x) (hstep : x.state.stray = false → P x') :
    P (x.unlessStray x') := by
  rw [unlessStray]
  split
  · rename_i hs
    exact hstray hs
  · rename_i hs
    exact hstep (Bool.eq_false_iff.mpr hs)

theorem state_unlessStray (x x' : Traced) :
    (x.unlessStray x').state = x.state.unlessStray x'.state := by
  rw [Traced.unlessStray, State.unlessStray]
  split <;> rfl

theorem state_tracedPerforms (scan : Option UInt64) (ops : List Op) (x : Traced) :
    (ops.foldl (tracedPerform scan) x).state = ops.foldl (perform scan) x.state := by
  induction ops generalizing x with
  | nil => rfl
  | cons op ops ih =>
    rw [List.foldl_cons, ih, tracedPerform, state_unlessStray]
    rfl

theorem tracedCallExpired_state (callbacks : Callbacks) (stamp : UInt64) (x : Traced) :
    (tracedCallExpired callbacks stamp x).map Traced.state =
      callExpired callbacks stamp x.state := by
  refine forEachSafe_map Traced.state (fun _ => rfl) (fun timer x => ?_) x
  rw [Option.map_some, due, state_unlessStray]
  refine congrArg (fun t => some (x.state.unlessStray t)) ?_
  by_cases h : timer.when ≤ stamp ∧ !timer.mark2Remove
  · rw [if_pos (decide_eq_true h), if_pos h]
    exact state_tracedPerforms ..
  · rw [if_neg (by simpa using h), if_neg h]
    rfl

theorem tracedScan_state (callbacks : Callbacks) (x : Traced) (now : UInt64) :
    (tracedScan callbacks x now).map Traced.state = timerScan callbacks x.state now := by
  rw [tracedScan, timerScan, Option.map_bind, ← tracedCallExpired_state callbacks _
    { x with state := currentTime x.state now }, Option.bind_map]
  refine congrArg _ (funext fun y => ?_)
  refine forEachSafe_map Traced.state (fun _ => rfl) (fun timer z => ?_) y
  exact congrArg some (state_unlessStray ..)

theorem tracedNext_state (callbacks : Callbacks) (x : Traced) (e : Event) :
    (tracedNext callbacks x e).map Traced.state = next callbacks x.state e := by
  cases e with
  | op op => exact congrArg some (state_unlessStray ..)
  | timerScan now => exact tracedScan_state callbacks x now

end Erase

def Touched (s s' : State) : Prop :=
  s'.brk = s.brk ∧ ∃ f : Timer → Timer,
    (∀ t, (f t).addr = t.addr ∧ (t.mark2Remove = true → (f t).mark2Remove = true)) ∧
      s'.timers = s.timers.map f

structure Later (s s' : State) : Prop where
  distinct : Distinct s'
  brk_le : s.brk ≤ s'.brk
  old : ∀ timer' ∈ s'.timers, s.brk ≤ timer'.addr ∨ ∃ timer ∈ s.timers,
    timer.addr = timer'.addr ∧ (timer.mark2Remove = true → timer'.mark2Remove = true)

section Later

variable {s s' : State} {timer : Timer}

theorem touched_modifyTimer {f : Timer → Timer} {t : Nat}
    (hf : ∀ t, (f t).addr = t.addr ∧ (t.mark2Remove = true → (f t).mark2Remove = true))
    (htimers : s'.timers = (modifyTimer s t f).timers) (hbrk : s'.brk = s.brk) : Touched s s' := by
  refine ⟨hbrk, fun t' => if t'.addr = t then f t' else t', fun t' => ?_, htimers⟩
  dsimp only
  split
  · exact hf t'
  · exact ⟨rfl, id⟩

theorem touched_of_eq (htimers : s'.timers = s.timers) (hbrk : s'.brk = s.brk) : Touched s s' :=
  ⟨hbrk, id, fun _ => ⟨rfl, id⟩, htimers.trans (List.map_id _).symm⟩

theorem Touched.addrs (h : Touched s s') :
    s'.timers.map Timer.addr = s.timers.map Timer.addr := by
  obtain ⟨-, f, hf, htimers⟩ := h
  rw [htimers, List.map_map]
  exact List.map_congr_left fun t _ => (hf t).1

theorem Touched.later (h : Touched s s') (hs : Distinct s) : Later s s' := by
  have haddrs := h.addrs
  obtain ⟨hbrk, f, hf, htimers⟩ := h
  have hold : ∀ timer' ∈ s'.timers, ∃ timer ∈ s.timers, timer.addr = timer'.addr ∧
      (timer.mark2Remove = true → timer'.mark2Remove = true) := by
    intro timer' hmem
    rw [htimers] at hmem
    obtain ⟨timer, hin, rfl⟩ := List.mem_map.mp hmem
    exact ⟨timer, hin, (hf timer).1.symm, (hf timer).2⟩
  refine ⟨⟨haddrs ▸ hs.nodup, fun timer' hmem => ?_⟩, hbrk.ge, fun t ht => Or.inr (hold t ht)⟩
  obtain ⟨timer, hin, haddr, -⟩ := hold timer' hmem
  rw [hbrk, ← haddr]
  exact hs.fresh timer hin

theorem later_cons (hs : Distinct s) (haddr : timer.addr = s.brk)
    (htimers : s'.timers = timer :: s.timers) (hbrk : s'.brk = s.brk + 1) : Later s s' := by
  refine ⟨⟨?_, fun t ht => ?_⟩, ?_, fun t ht => ?_⟩
  · rw [htimers, List.map_cons, List.nodup_cons]
    refine ⟨fun hin => ?_, hs.nodup⟩
    obtain ⟨t, ht, heq⟩ := List.mem_map.mp hin
    exact (hs.fresh t ht).ne (heq.trans haddr)
  · rw [htimers] at ht
    rw [hbrk]
    rcases List.mem_cons.mp ht with rfl | ht
    · exact haddr.trans_lt (Nat.lt_succ_self _)
    · exact Nat.lt_succ_of_lt (hs.fresh t ht)
  · exact hbrk ▸ Nat.le_succ _
  · rw [htimers] at ht
    rcases List.mem_cons.mp ht with rfl | ht
    · exact Or.inl haddr.ge
    · exact Or.inr ⟨t, ht, rfl, id⟩

theorem later_removeTimer (hs : Distinct s) : Later s (removeTimer s timer) := by
  have hsub : (removeTimer s timer).timers.Sublist s.timers := List.eraseP_sublist
  exact ⟨⟨hs.nodup.sublist (hsub.map _), fun t ht => hs.fresh t (hsub.subset ht)⟩, le_rfl,
    fun t ht => Or.inr ⟨t, hsub.subset ht, rfl, id⟩⟩

theorem findTimer_some {t : Nat} (h : findTimer s t = some timer) :
    timer ∈ s.timers ∧ timer.addr = t := by
  rw [findTimer] at h
  exact ⟨List.mem_of_find?_eq_some h, by simpa using List.find?_some h⟩

theorem Touched.onTimer {t : Nat} {change : Timer → State}
    (hchange : ∀ timer ∈ s.timers, Touched s (change timer)) :
    Touched s (onTimer s t change) := by
  unfold Timers.onTimer
  split
  · exact touched_of_eq rfl rfl
  · rename_i timer hfind
    split
    · exact touched_of_eq rfl rfl
    · exact hchange timer (findTimer_some hfind).1

theorem operate_cases (scan : Option UInt64) (s : State) (op : Op) :
    (∃ timer : Timer, timer.addr = s.brk ∧ (operate scan s op).timers = timer :: s.timers ∧
      (operate scan s op).brk = s.brk + 1) ∨ Touched s (operate scan s op) := by
  cases op with
  | timerRepeatAfter now count ltime =>
    obtain ⟨_, _, _, heq⟩ := timerRepeatAfter_eq scan s now count ltime
    rw [operate, heq]
    exact Or.inl ⟨_, rfl, rfl, rfl⟩
  | timerRemove now t =>
    exact Or.inr <| Touched.onTimer fun timer _ =>
      touched_modifyTimer (f := fun t => { t with mark2Remove := true })
        (fun _ => ⟨rfl, fun _ => rfl⟩) (timers_adjTimeout ..) (brk_adjTimeout ..)
  | timerModify now t ltime =>
    exact Or.inr <| Touched.onTimer fun timer _ =>
      touched_modifyTimer (f := fun t => { t with
        period := ltime.toUInt64, when := (currentTime s now).clock + ltime.toUInt64 })
        (fun _ => ⟨rfl, id⟩) (timers_adjTimeout ..) (brk_adjTimeout ..)

theorem later_operate (hs : Distinct s) (scan : Option UInt64) (op : Op) :
    Later s (operate scan s op) := by
  rcases operate_cases scan s op with ⟨timer, haddr, htimers, hbrk⟩ | htouched
  · exact later_cons hs haddr htimers hbrk
  · exact htouched.later hs

theorem suffix_operate (scan : Option UInt64) (s : State) (op : Op) :
    s.timers.map Timer.addr <:+ (operate scan s op).timers.map Timer.addr := by
  rcases operate_cases scan s op with ⟨timer, -, htimers, -⟩ | htouched
  · rw [htimers]
    exact List.suffix_cons ..
  · exact htouched.addrs ▸ List.suffix_rfl

theorem findTimer_eq (hs : Distinct s) (hmem : timer ∈ s.timers) :
    findTimer s timer.addr = some timer :=
  find?_cell hs.nodup hmem

/-- `TimerRemove` leaves no node of that address without a mark. -/
theorem marked_timerRemove (hs : Distinct s) (now : UInt64) (t : Nat) :
    ∀ timer ∈ (timerRemove s now t).timers, timer.addr = t → timer.mark2Remove = true := by
  rintro timer hmem rfl
  rw [timerRemove, onTimer] at hmem
  split at hmem
  · rename_i hnone
    rw [findTimer_eq hs hmem] at hnone
    cases hnone
  · rename_i found hfind
    split at hmem
    · rename_i hmark
      rw [findTimer_eq hs hmem, Option.some.injEq] at hfind
      exact hfind ▸ hmark
    · have hin : timer ∈ (modifyTimer s found.addr
          fun t => { t with mark2Remove := true }).timers := by
        dsimp only at hmem
        rw [timers_adjTimeout] at hmem
        exact hmem
      have haddr := (findTimer_some hfind).2
      obtain ⟨u, -, heq⟩ := List.mem_map.mp hin
      split at heq
      · rw [← heq]
      · rename_i hne
        rw [← heq] at haddr
        exact absurd haddr.symm hne

end Later

/-- What the acts so far leave behind: a timer that was removed is marked as long as it is in the
list, and a node that was unlinked is not in it again. -/
structure Sound (x : Traced) : Prop where
  distinct : Distinct x.state
  known : ∀ a ∈ x.acts, a.timer < x.state.brk
  marked : ∀ timer ∈ x.state.timers, .removed timer.addr ∈ x.acts → timer.mark2Remove = true
  gone : ∀ t, .unlinked t ∈ x.acts → ¬ Listed x.state t
  safe : Safe x.acts

def Act.Mild : Act → Prop
  | .read _ => True
  | .removed _ => True
  | _ => False

section Sound

variable {s s' : State} {x : Traced} {timer : Timer} {acts : List Act}

theorem sound_of_distinct (hs : Distinct s) : Sound ⟨s, []⟩ :=
  ⟨hs, nofun, nofun, nofun, List.Pairwise.nil⟩

theorem Sound.step (h : Sound x) (hlater : Later x.state s')
    (hlisted : ∀ a ∈ acts, Listed x.state a.timer)
    (hcalled : ∀ t, .called t ∈ acts → .removed t ∉ x.acts)
    (hremoved : ∀ timer ∈ s'.timers, .removed timer.addr ∈ acts → timer.mark2Remove = true)
    (hunlinked : ∀ t, .unlinked t ∈ acts → ¬ Listed s' t) (hsafe : Safe acts) :
    Sound ⟨s', x.acts ++ acts⟩ := by
  have hknown : ∀ a ∈ acts, a.timer < x.state.brk := by
    intro a ha
    obtain ⟨timer, hmem, heq⟩ := List.mem_map.mp (hlisted a ha)
    exact heq ▸ h.distinct.fresh timer hmem
  refine ⟨hlater.distinct, fun a ha => ?_, fun timer hmem hin => ?_, fun t hin => ?_, ?_⟩
  · rcases List.mem_append.mp ha with ha | ha
    · exact (h.known a ha).trans_le hlater.brk_le
    · exact (hknown a ha).trans_le hlater.brk_le
  · rcases List.mem_append.mp hin with hin | hin
    · rcases hlater.old timer hmem with hnew | ⟨before, hbefore, haddr, hmark⟩
      · exact absurd (h.known _ hin) hnew.not_gt
      · exact hmark (h.marked before hbefore (haddr ▸ hin))
    · exact hremoved timer hmem hin
  · rcases List.mem_append.mp hin with hin | hin
    · rintro hlist
      obtain ⟨timer, hmem, rfl⟩ := List.mem_map.mp hlist
      rcases hlater.old timer hmem with hnew | ⟨before, hbefore, haddr, -⟩
      · exact absurd (h.known _ hin) hnew.not_gt
      · exact h.gone _ hin (haddr ▸ List.mem_map_of_mem hbefore)
    · exact hunlinked t hin
  · refine List.pairwise_append.mpr ⟨h.safe, hsafe, fun a ha b hb => ⟨?_, ?_⟩⟩
    · rintro t rfl rfl
      exact hcalled t hb ha
    · rintro t rfl heq
      exact h.gone t ha (heq ▸ hlisted b hb)

theorem safe_of_mild (h : ∀ a ∈ acts, a.Mild) : Safe acts := by
  refine List.pairwise_of_forall_mem_list fun a ha b hb => ⟨?_, ?_⟩
  · rintro t - rfl
    exact h _ hb
  · rintro t rfl
    exact (h _ ha).elim

theorem quiet_of_mild (h : ∀ a ∈ acts, a.Mild) : visits acts = [] ∧ calledTimers acts = [] := by
  constructor <;> refine List.filterMap_eq_nil_iff.mpr fun a ha => ?_
  · cases a with
    | visited timer => exact (h _ ha).elim
    | _ => rfl
  · cases a with
    | called timer => exact (h _ ha).elim
    | _ => rfl

theorem mem_readAll {a : Act} (h : a ∈ readAll s) : ∃ timer ∈ s.timers, a = .read timer.addr := by
  obtain ⟨timer, hmem, rfl⟩ := List.mem_map.mp h
  exact ⟨timer, hmem, rfl⟩

theorem mem_onTimerActs {t : Nat} {a : Act} (h : a ∈ onTimerActs s t acts) :
    Listed s t ∧ (a = .read t ∨ a ∈ acts) := by
  unfold onTimerActs at h
  split at h
  · cases h
  · rename_i timer hfind
    obtain ⟨hmem, rfl⟩ := findTimer_some hfind
    refine ⟨List.mem_map_of_mem hmem, (List.mem_cons.mp h).imp_right fun hin => ?_⟩
    split at hin
    · cases hin
    · exact hin

theorem mem_opActs {op : Op} {a : Act} (h : a ∈ opActs s op) : Listed s a.timer ∧
    ((∃ t, a = .read t) ∨ ∃ now t, op = .timerRemove now t ∧ a = .removed t) := by
  cases op with
  | timerRepeatAfter now count ltime => cases h
  | timerRemove now t =>
    obtain ⟨hlisted, rfl | hin⟩ := mem_onTimerActs h
    · exact ⟨hlisted, Or.inl ⟨t, rfl⟩⟩
    · rcases List.mem_cons.mp hin with rfl | hin
      · exact ⟨hlisted, Or.inr ⟨now, t, rfl, rfl⟩⟩
      · obtain ⟨timer, hmem, rfl⟩ := mem_readAll hin
        exact ⟨List.mem_map_of_mem hmem, Or.inl ⟨_, rfl⟩⟩
  | timerModify now t ltime =>
    obtain ⟨hlisted, rfl | hin⟩ := mem_onTimerActs h
    · exact ⟨hlisted, Or.inl ⟨t, rfl⟩⟩
    · obtain ⟨timer, hmem, rfl⟩ := mem_readAll hin
      exact ⟨List.mem_map_of_mem hmem, Or.inl ⟨_, rfl⟩⟩

theorem Sound.perform (h : Sound x) (scan : Option UInt64) (op : Op) :
    ∃ acts, (tracedPerform scan x op).acts = x.acts ++ acts ∧ (∀ a ∈ acts, a.Mild) ∧
      Sound (tracedPerform scan x op) ∧ x.state.timers.map Timer.addr <:+
        (tracedPerform scan x op).state.timers.map Timer.addr := by
  refine Traced.unlessStray_rule (P := fun y => ∃ acts, y.acts = x.acts ++ acts ∧
    (∀ a ∈ acts, a.Mild) ∧ Sound y ∧ x.state.timers.map Timer.addr <:+
      y.state.timers.map Timer.addr) _ _
        (fun _ => ⟨[], (List.append_nil _).symm, nofun, h, List.suffix_rfl⟩) fun _ => ?_
  have hmild : ∀ a ∈ opActs x.state op, a.Mild := by
    intro a ha
    rcases (mem_opActs ha).2 with ⟨t, rfl⟩ | ⟨now, t, -, rfl⟩ <;> trivial
  refine ⟨_, rfl, hmild, h.step (later_operate h.distinct scan op) (fun a ha => (mem_opActs ha).1)
    (fun t ht => (hmild _ ht).elim) (fun timer hmem hin => ?_) (fun t ht => (hmild _ ht).elim)
    (safe_of_mild hmild), suffix_operate ..⟩
  rcases (mem_opActs hin).2 with ⟨t, heq⟩ | ⟨now, t, rfl, heq⟩
  · cases heq
  · exact marked_timerRemove h.distinct now t timer hmem (Act.removed.inj heq)

theorem Sound.performs (h : Sound x) (scan : Option UInt64) (ops : List Op) :
    ∃ acts, (ops.foldl (tracedPerform scan) x).acts = x.acts ++ acts ∧ (∀ a ∈ acts, a.Mild) ∧
      Sound (ops.foldl (tracedPerform scan) x) ∧ x.state.timers.map Timer.addr <:+
        (ops.foldl (tracedPerform scan) x).state.timers.map Timer.addr := by
  induction ops generalizing x with
  | nil => exact ⟨[], (List.append_nil _).symm, nofun, h, List.suffix_rfl⟩
  | cons op ops ih =>
    obtain ⟨acts, hacts, hmild, hop, hlist⟩ := h.perform scan op
    obtain ⟨acts', hacts', hmilds, hend, hsuffix⟩ := ih hop
    refine ⟨acts ++ acts', ?_, ?_, hend, hlist.trans hsuffix⟩
    · rw [List.foldl_cons, hacts', hacts, List.append_assoc]
    · intro a ha
      rcases List.mem_append.mp ha with ha | ha
      · exact hmild a ha
      · exact hmilds a ha

structure Visited (stamp : UInt64) (addrs : List Nat) (before : List Act) (ahead : List Nat)
    (x : Traced) (acts : List Act) : Prop where
  acts_eq : x.acts = before ++ acts
  visits_eq : x.state.stray = false → (visits acts).map Timer.addr ++ ahead = addrs
  called_eq : calledTimers acts = ((visits acts).filter (due stamp)).map Timer.addr

theorem visits_append (acts acts' : List Act) :
    visits (acts ++ acts') = visits acts ++ visits acts' :=
  List.filterMap_append

theorem calledTimers_append (acts acts' : List Act) :
    calledTimers (acts ++ acts') = calledTimers acts ++ calledTimers acts' :=
  List.filterMap_append

theorem Sound.visit (h : Sound x) (hmem : timer ∈ x.state.timers) (callbacks : Callbacks)
    (stamp : UInt64) :
    let noted := x.note [.visited timer]
    let x' := if due stamp timer then tracedCall callbacks stamp timer noted else noted
    ∃ acts, x'.acts = x.acts ++ .visited timer :: acts ∧ visits acts = [] ∧
      calledTimers acts = (if due stamp timer then [timer.addr] else []) ∧ Sound x' ∧
        x.state.timers.map Timer.addr <:+ x'.state.timers.map Timer.addr := by
  have hlisted : Listed x.state timer.addr := List.mem_map_of_mem hmem
  have hlater : Later x.state x.state := (touched_of_eq rfl rfl).later h.distinct
  have hnoted : Sound (x.note [.visited timer]) := by
    refine h.step hlater (fun a ha => ?_) (by simp) (by simp) (by simp) (List.pairwise_singleton ..)
    rw [List.mem_singleton.mp ha]
    exact hlisted
  dsimp only
  split
  · rename_i hdue
    have hunremoved : .removed timer.addr ∉ x.acts := by
      intro hin
      have hmark := h.marked timer hmem hin
      simp [due, hmark] at hdue
    have hlogged : Touched x.state { x.state with log := x.state.log ++ [.called timer.addr] } :=
      touched_of_eq rfl rfl
    have hcalled : Sound ⟨{ x.state with log := x.state.log ++ [.called timer.addr] },
        (x.note [.visited timer]).acts ++ [.called timer.addr]⟩ := by
      refine hnoted.step (hlogged.later h.distinct) (fun a ha => ?_) (fun t ht => ?_) (by simp)
        (by simp) (List.pairwise_singleton ..)
      · rw [List.mem_singleton.mp ha]
        exact hlisted
      · obtain rfl : t = timer.addr := by simpa using ht
        simpa [Traced.note] using hunremoved
    obtain ⟨acts, hacts, hmild, hend, hsuffix⟩ := hcalled.performs (some stamp)
      (callbacks (x.state.log ++ [.called timer.addr]))
    refine ⟨.called timer.addr :: acts, ?_, ?_, ?_, hend, hsuffix⟩
    · rw [tracedCall]
      exact hacts.trans (by simp [Traced.note])
    · change visits acts = []
      exact (quiet_of_mild hmild).1
    · exact congrArg _ (quiet_of_mild hmild).2
  · exact ⟨[], rfl, rfl, rfl, hnoted, List.suffix_rfl⟩

theorem Visited.visit {stamp : UInt64} {addrs ps : List Nat} {before acts' : List Act} {x' : Traced}
    (h : Visited stamp addrs before (timer.addr :: ps) x acts) (hstray : x.state.stray = false)
    (hacts : x'.acts = x.acts ++ .visited timer :: acts') (hvisits : visits acts' = [])
    (hcalled : calledTimers acts' = if due stamp timer then [timer.addr] else []) :
    Visited stamp addrs before ps x' (acts ++ .visited timer :: acts') := by
  have hvisit : visits (.visited timer :: acts') = [timer] := congrArg (timer :: ·) hvisits
  have hcall : calledTimers (.visited timer :: acts') = calledTimers acts' := rfl
  refine ⟨?_, fun _ => ?_, ?_⟩
  · rw [hacts, h.acts_eq, List.append_assoc]
  · rw [visits_append, hvisit, List.map_append, List.append_assoc]
    exact h.visits_eq hstray
  · rw [calledTimers_append, visits_append, hvisit, hcall, hcalled, h.called_eq,
      List.filter_append, List.map_append]
    refine congrArg _ ?_
    split
    · rename_i hdue
      rw [List.filter_cons_of_pos hdue]
      rfl
    · rename_i hdue
      rw [List.filter_cons_of_neg hdue]
      rfl

theorem Sound.callExpired (h : Sound x) (callbacks : Callbacks) (stamp : UInt64) :
    ∃ x' acts, tracedCallExpired callbacks stamp x = some x' ∧ Sound x' ∧
      Visited stamp (x.state.timers.map Timer.addr) x.acts [] x' acts := by
  let I (ps : List Nat) (y : Traced) : Prop :=
    Sound y ∧ ∃ acts, Visited stamp (x.state.timers.map Timer.addr) x.acts ps y acts
  obtain ⟨x', hx', hend, acts, hvisited⟩ : ∃ x', tracedCallExpired callbacks stamp x = some x' ∧
      I [] x' := by
    refine forEachSafe_ahead (I := I) (fun ps y hy => hy.1.distinct.nodup) ?_ ?_
    · rintro timer ps y ⟨hy, acts, hvisited⟩ hmem hsuffix
      have hrest : ps <:+ y.state.timers.map Timer.addr := (List.suffix_cons ..).trans hsuffix
      refine ⟨_, rfl, Traced.unlessStray_rule (P := fun z => I ps z ∧
        ps <:+ z.state.timers.map Timer.addr) _ _ (fun hstray => ?_) fun hstray => ?_⟩
      · have hpassed : Visited stamp (x.state.timers.map Timer.addr) x.acts ps y acts :=
          ⟨hvisited.acts_eq, fun h => absurd (hstray.symm.trans h) Bool.noConfusion,
            hvisited.called_eq⟩
        exact ⟨⟨hy, acts, hpassed⟩, hrest⟩
      · obtain ⟨acts', hacts, hvisits, hcalled, hend, hlist⟩ := hy.visit hmem callbacks stamp
        exact ⟨⟨hend, _, hvisited.visit hstray hacts hvisits hcalled⟩, hrest.trans hlist⟩
    · exact ⟨h, [], (List.append_nil _).symm, fun _ => List.nil_append _, rfl⟩
  exact ⟨x', acts, hx', hend, hvisited⟩

theorem countDown_of_leaves {stamp : UInt64} (h : leaves stamp timer) :
    countDown stamp timer s = removeTimer s timer := by
  rw [leaves, decide_eq_true_iff] at h
  unfold countDown
  rcases h with hmark | ⟨hdue, hloop, hlast⟩
  · rw [if_pos hmark]
  · rw [if_pos hdue, if_neg hloop, if_neg (not_not.mpr hlast), ite_self]

theorem touched_countDown {stamp : UInt64} (h : ¬ leaves stamp timer) :
    Touched s (countDown stamp timer s) := by
  rw [leaves, decide_eq_true_iff, not_or] at h
  unfold countDown
  rw [if_neg h.1]
  split
  · rename_i hdue
    split
    · exact touched_modifyTimer (f := fun t => { t with when := stamp + t.period })
        (fun _ => ⟨rfl, id⟩) rfl rfl
    · rename_i hloop
      rw [if_pos fun hlast => h.2 ⟨hdue, hloop, hlast⟩]
      exact touched_modifyTimer
        (f := fun t => { t with repeats := t.repeats - 1, when := stamp + t.period })
        (fun _ => ⟨rfl, id⟩) rfl rfl
  · exact touched_of_eq rfl rfl

/-- All nodes that `IVY_LIST_REMOVE` reads are in the list, and it reads none after the one that
it frees. -/
theorem removeActs_eq {t : Nat} (ht : Listed s t) :
    ∃ reads, .read t :: removeActs s t = reads ++ [.unlinked t] ∧
      ∀ a ∈ reads, ∃ t, a = .read t ∧ Listed s t := by
  refine ⟨.read t :: (s.timers.takeWhile (·.addr ≠ t)).map (fun timer => .read timer.addr) ++
    [.read t], by simp [removeActs], fun a ha => ?_⟩
  rcases List.mem_append.mp ha with hin | hin
  · rcases List.mem_cons.mp hin with rfl | hin
    · exact ⟨t, rfl, ht⟩
    · obtain ⟨timer, hmem, rfl⟩ := List.mem_map.mp hin
      exact ⟨_, rfl, List.mem_map_of_mem ((List.takeWhile_sublist _).subset hmem)⟩
  · exact ⟨t, List.mem_singleton.mp hin, ht⟩

theorem Sound.unlink (h : Sound x) (hlisted : Listed x.state timer.addr) {reads : List Act}
    (hreads : ∀ a ∈ reads, ∃ t, a = .read t ∧ Listed x.state t) :
    Sound ⟨removeTimer x.state timer, x.acts ++ (reads ++ [.unlinked timer.addr])⟩ := by
  have hacts : ∀ a ∈ reads ++ [.unlinked timer.addr], Listed x.state a.timer ∧
      ((∃ t, a = .read t) ∨ a = .unlinked timer.addr) := by
    intro a ha
    rcases List.mem_append.mp ha with ha | ha
    · obtain ⟨t, rfl, ht⟩ := hreads a ha
      exact ⟨ht, Or.inl ⟨t, rfl⟩⟩
    · rw [List.mem_singleton.mp ha]
      exact ⟨hlisted, Or.inr rfl⟩
  refine h.step (later_removeTimer h.distinct) (fun a ha => (hacts a ha).1) (fun t ht => ?_)
    (fun timer' _ hin' => ?_) (fun t ht => ?_) ?_
  · rcases (hacts _ ht).2 with ⟨_, heq⟩ | heq <;> cases heq
  · rcases (hacts _ hin').2 with ⟨_, heq⟩ | heq <;> cases heq
  · rcases (hacts _ ht).2 with ⟨_, heq⟩ | heq
    · cases heq
    · obtain rfl := Act.unlinked.inj heq
      exact notMem_unlink h.distinct.nodup
  · refine List.pairwise_append.mpr ⟨List.pairwise_of_forall_mem_list fun a ha b hb => ?_,
      List.pairwise_singleton .., fun a ha b _ => ?_⟩
    · obtain ⟨t, rfl, -⟩ := hreads a ha
      exact ⟨nofun, nofun⟩
    · obtain ⟨t, rfl, -⟩ := hreads a ha
      exact ⟨nofun, nofun⟩

theorem Sound.countDown (h : Sound x) (hmem : timer ∈ x.state.timers) (stamp : UInt64) :
    ∃ acts, (tracedCountDown stamp timer x).acts = x.acts ++ acts ∧ visits acts = [] ∧
      calledTimers acts = [] ∧ Sound (tracedCountDown stamp timer x) := by
  have hlisted : Listed x.state timer.addr := List.mem_map_of_mem hmem
  by_cases hleaves : leaves stamp timer
  · obtain ⟨reads, hreads, hin⟩ := removeActs_eq hlisted
    have hmild : ∀ a ∈ reads, a.Mild := by
      intro a ha
      obtain ⟨t, rfl, -⟩ := hin a ha
      trivial
    obtain ⟨hvisits, hcalls⟩ := quiet_of_mild hmild
    have heq : tracedCountDown stamp timer x =
        ⟨removeTimer x.state timer, x.acts ++ (reads ++ [.unlinked timer.addr])⟩ := by
      rw [tracedCountDown, countDown_of_leaves hleaves, if_pos hleaves, hreads]
    rw [heq]
    refine ⟨_, rfl, ?_, ?_, h.unlink hlisted hin⟩
    · rw [visits_append, hvisits]
      rfl
    · rw [calledTimers_append, hcalls]
      rfl
  · have heq : tracedCountDown stamp timer x =
        ⟨Timers.countDown stamp timer x.state, x.acts ++ [.read timer.addr]⟩ := by
      rw [tracedCountDown, if_neg hleaves]
    rw [heq]
    refine ⟨_, rfl, rfl, rfl, h.step ((touched_countDown hleaves).later h.distinct)
      (fun a ha => ?_) (by simp) (by simp) (by simp) (List.pairwise_singleton ..)⟩
    rw [List.mem_singleton.mp ha]
    exact hlisted

theorem suffix_countDown (hnodup : (s.timers.map Timer.addr).Nodup) {ps : List Nat}
    (h : (timer.addr :: ps) <:+ s.timers.map Timer.addr) (stamp : UInt64) :
    ps <:+ (Timers.countDown stamp timer s).timers.map Timer.addr := by
  by_cases hleaves : leaves stamp timer
  · rw [countDown_of_leaves hleaves]
    exact unlink_suffix hnodup h
  · rw [(touched_countDown hleaves).addrs]
    exact (List.suffix_cons ..).trans h

theorem Sound.countDowns (h : Sound x) (stamp : UInt64) :
    ∃ x' acts, forEachSafe Timer.addr (fun y : Traced => y.state.timers)
        (fun timer y => some (y.unlessStray (tracedCountDown stamp timer y))) x = some x' ∧
      Sound x' ∧ (x'.state.stray = false → x.state.stray = false) ∧
      x'.acts = x.acts ++ acts ∧ visits acts = [] ∧ calledTimers acts = [] := by
  let I (_ : List Nat) (y : Traced) : Prop :=
    Sound y ∧ (y.state.stray = false → x.state.stray = false) ∧
      ∃ acts, y.acts = x.acts ++ acts ∧ visits acts = [] ∧ calledTimers acts = []
  obtain ⟨x', hx', hend, hsame, acts, hacts⟩ : ∃ x', forEachSafe Timer.addr
      (fun y : Traced => y.state.timers)
      (fun timer y => some (y.unlessStray (tracedCountDown stamp timer y))) x = some x' ∧
        I [] x' := by
    refine forEachSafe_ahead (I := I) (fun ps y hy => hy.1.distinct.nodup) ?_ ?_
    · rintro timer ps y hI hmem hsuffix
      refine ⟨_, rfl, Traced.unlessStray_rule (P := fun z => I ps z ∧
        ps <:+ z.state.timers.map Timer.addr) _ _
          (fun _ => ⟨hI, (List.suffix_cons ..).trans hsuffix⟩) fun hstray => ?_⟩
      obtain ⟨hy, hsame, acts, hacts, hvisits, hcalls⟩ := hI
      obtain ⟨acts', hacts', hvisits', hcalls', hend⟩ := hy.countDown hmem stamp
      refine ⟨⟨hend, fun _ => hsame hstray, acts ++ acts', ?_, ?_, ?_⟩, ?_⟩
      · rw [hacts', hacts, List.append_assoc]
      · rw [visits_append, hvisits, hvisits', List.append_nil]
      · rw [calledTimers_append, hcalls, hcalls', List.append_nil]
      · exact suffix_countDown hy.distinct.nodup hsuffix stamp
    · exact ⟨h, id, [], (List.append_nil _).symm, rfl, rfl⟩
  exact ⟨x', acts, hx', hend, hsame, hacts⟩

theorem Sound.timerScan (h : Sound x) (callbacks : Callbacks) (now : UInt64) :
    ∃ x' acts, tracedScan callbacks x now = some x' ∧ Sound x' ∧ Visited
      (currentTime x.state now).clock (x.state.timers.map Timer.addr) x.acts [] x' acts := by
  have hread : Sound { x with state := currentTime x.state now } :=
    ⟨⟨h.distinct.nodup, h.distinct.fresh⟩, h.known, h.marked, h.gone, h.safe⟩
  obtain ⟨y, called, hy, hcalled, hvisited⟩ := hread.callExpired callbacks
    (currentTime x.state now).clock
  obtain ⟨z, acts, hz, hend, hsame, hacts, hvisits, hcalls⟩ := hcalled.countDowns
    (currentTime x.state now).clock
  refine ⟨z, called ++ acts, ?_, hend, ?_, fun hstray => ?_, ?_⟩
  · rw [tracedScan, hy]
    exact hz
  · rw [hacts, hvisited.acts_eq, List.append_assoc]
  · have hpassed := hvisited.visits_eq (hsame hstray)
    rw [List.append_nil] at hpassed
    rw [visits_append, hvisits, List.append_nil, List.append_nil]
    exact hpassed
  · rw [calledTimers_append, visits_append, hvisits, hcalls, List.append_nil, List.append_nil]
    exact hvisited.called_eq

theorem Sound.next (h : Sound x) (callbacks : Callbacks) (e : Event) :
    ∃ x', tracedNext callbacks x e = some x' ∧ Sound x' := by
  cases e with
  | op op =>
    obtain ⟨_, _, _, hop, _⟩ := h.perform none op
    exact ⟨_, rfl, hop⟩
  | timerScan now =>
    obtain ⟨x', _, hx', hend, -⟩ := h.timerScan callbacks now
    exact ⟨x', hx', hend⟩

end Sound

/-- After any history of a list, a scan visits every timer that is in the list when it starts, and
calls those that are due and not marked when it visits them, once each, as long as no timer is
passed that is not listed. No timer is called after `TimerRemove`, and no node is read after it is
unlinked. -/
theorem timerScan_safe (callbacks : Callbacks) (s : State) (hs : Distinct s) (es : List Event)
    (now : UInt64) : ∃ x x' acts,
      run (tracedNext callbacks) ⟨s, []⟩ es = some x ∧ run (next callbacks) s es = some x.state ∧
      tracedScan callbacks x now = some x' ∧ timerScan callbacks x.state now = some x'.state ∧
      x'.acts = x.acts ++ acts ∧ Safe x'.acts ∧ (x'.state.stray = false →
        (visits acts).map Timer.addr = x.state.timers.map Timer.addr ∧
        calledTimers acts =
          ((visits acts).filter (due (currentTime x.state now).clock)).map Timer.addr ∧
        (calledTimers acts).Nodup) := by
  obtain ⟨x, hx, hsound⟩ := run_defined (Q := fun _ _ => True)
    (fun x e h _ => Sound.next h callbacks e) (sound_of_distinct hs)
    (along_of_forall (fun _ _ => trivial) _ es)
  obtain ⟨x', acts, hx', hend, hvisited⟩ := hsound.timerScan callbacks now
  refine ⟨x, x', acts, hx, ?_, hx', ?_, hvisited.acts_eq, hend.safe, fun hstray => ?_⟩
  · have hmap := run_map Traced.state (tracedNext_state callbacks) ⟨s, []⟩ es
    rw [hx] at hmap
    exact hmap.symm
  · rw [← tracedScan_state, hx']
    rfl
  · have hvisits := hvisited.visits_eq hstray
    rw [List.append_nil] at hvisits
    refine ⟨hvisits, hvisited.called_eq, ?_⟩
    rw [hvisited.called_eq]
    refine List.Nodup.sublist (List.filter_sublist.map _) ?_
    rw [hvisits]
    exact hsound.distinct.nodup

def twoDue : State where
  timers := [⟨0, timerLoop, 5, 3, false⟩, ⟨1, 1, 5, 4, false⟩]
  nextTimeout := 3
  timeout := some 3
  clock := 0
  brk := 2
  log := []
  stray := false

def removing (log : List Entry) : List Op :=
  if log = [.called 0] then [.timerRemove 5 1, .timerRemove 5 0] else []

theorem timerScan_safe_twoDue : Distinct twoDue ∧ ∃ x x' acts,
    run (tracedNext removing) ⟨twoDue, []⟩ [] = some x ∧
    run (next removing) twoDue [] = some x.state ∧
    tracedScan removing x 5 = some x' ∧ timerScan removing x.state 5 = some x'.state ∧
    x'.acts = x.acts ++ acts ∧ Safe x'.acts ∧ (x'.state.stray = false →
      (visits acts).map Timer.addr = x.state.timers.map Timer.addr ∧
      calledTimers acts =
        ((visits acts).filter (due (currentTime x.state 5).clock)).map Timer.addr ∧
      (calledTimers acts).Nodup) := by
  have hdistinct : Distinct twoDue := ⟨by decide, by decide⟩
  exact ⟨hdistinct, timerScan_safe removing twoDue hdistinct [] 5⟩

/-- The second timer is removed before its turn: it is not called, and both are gone. -/
example : ((tracedScan removing ⟨twoDue, []⟩ 5).map fun x =>
    (calledTimers x.acts, x.state.timers.length, x.state.stray)) = some ([0], 0, false) := by
  decide

end IvyBus.Timers
