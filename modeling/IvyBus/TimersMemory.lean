import IvyBus.Lists
import IvyBus.TimersLaws

namespace IvyBus.Timers

open Lib IvyList

structure Node where
  repeats : Int32
  period : UInt64
  when : UInt64
  mark2Remove : Bool

def Timer.node (timer : Timer) : Node :=
  ⟨timer.repeats, timer.period, timer.when, timer.mark2Remove⟩

namespace InMemory

/-- The variables of `timer.c`, with the nodes in memory: `timers` is a pointer. -/
structure State where
  timers : IvyList Nat Node
  nextTimeout : UInt64
  timeout : Option UInt64
  clock : UInt64
  brk : Nat
  log : List Entry
  stray : Bool

def init : State := ⟨null, 2147483647, none, 0, 0, [], false⟩

def currentTime (s : State) (now : UInt64) : State := { s with clock := max s.clock now }

def setNewTimeout (s : State) (current when : UInt64) : State :=
  { s with nextTimeout := when, timeout := some (if when ≤ current then 0 else when - current) }

def adjTimeout (s : State) (current : UInt64) : Option State :=
  match s.timers.list with
  | none => some { s with timeout := none }
  | some first =>
    (s.timers.cells.lookup first).bind fun cell =>
      (s.timers.ivyListEach (fun newTimeout timer =>
          if !timer.mark2Remove && timer.when < newTimeout then timer.when else newTimeout)
        cell.data.when).map (setNewTimeout s current)

def timerRepeatAfter (scan : Option UInt64) (s : State) (now : UInt64) (count : Int32)
    (ltime : Int64) : State :=
  let s := currentTime s now
  let when := s.clock + ltime.toUInt64
  let timer := s.brk
  let s := if when < s.nextTimeout ∨ s.timeout = none then setNewTimeout s s.clock when else s
  { s with
    timers := s.timers.ivyListAdd timer ⟨count, ltime.toUInt64, when, false⟩
    brk := s.brk + 1
    log := s.log ++ [.created timer count when scan] }

/-- The application is stray when there is no node. -/
def onTimer (s : State) (timer : Nat) (change : Option State) : Option State :=
  match s.timers.cells.lookup timer with
  | none => some { s with stray := true }
  | some cell => if cell.data.mark2Remove then some s else change

def writeTimer (s : State) (timer : Nat) (f : Node → Node) : Option State :=
  (s.timers.store timer f).map fun timers => { s with timers := timers }

def changed (s : State) (timer : Nat) : State := { s with log := s.log ++ [.changed timer] }

def timerRemove (s : State) (now : UInt64) (timer : Nat) : Option State :=
  onTimer s timer <|
    (writeTimer s timer fun t => { t with mark2Remove := true }).bind fun s =>
      let s := currentTime s now
      (adjTimeout s s.clock).map (changed · timer)

def timerModify (s : State) (now : UInt64) (timer : Nat) (ltime : Int64) : Option State :=
  onTimer s timer <|
    let s := currentTime s now
    (writeTimer s timer fun t =>
        { t with period := ltime.toUInt64, when := s.clock + ltime.toUInt64 }).bind fun s =>
      (adjTimeout s s.clock).map (changed · timer)

def State.unlessStray (s : State) (s' : Option State) : Option State :=
  if s.stray then some s else s'

def operate (scan : Option UInt64) (s : State) : Op → Option State
  | .timerRepeatAfter now count ltime => some (timerRepeatAfter scan s now count ltime)
  | .timerRemove now timer => timerRemove s now timer
  | .timerModify now timer ltime => timerModify s now timer ltime

def perform (scan : Option UInt64) (s : State) (op : Op) : Option State :=
  s.unlessStray (operate scan s op)

def call (callbacks : Callbacks) (stamp : UInt64) (timer : Nat) (s : State) : Option State :=
  let log := s.log ++ [.called timer]
  (callbacks log).foldlM (perform (some stamp)) { s with log := log }

/-- The first walk of `TimerScan`. -/
def callExpired (callbacks : Callbacks) (stamp : UInt64) (s : State) : Option State :=
  ivyListEachSafe State.timers (fun timer s =>
    s.unlessStray <| (s.timers.cells.lookup timer).bind fun cell =>
      if cell.data.when ≤ stamp ∧ !cell.data.mark2Remove then call callbacks stamp timer s
      else some s) s

def removeTimer (s : State) (timer : Nat) : Option State :=
  (s.timers.ivyListRemove timer).map fun timers => { s with timers := timers }

def countDown (stamp : UInt64) (timer : Nat) (s : State) : Option State :=
  (s.timers.cells.lookup timer).bind fun cell =>
    if cell.data.mark2Remove then removeTimer s timer
    else if cell.data.when ≤ stamp then
      if cell.data.repeats = timerLoop then
        writeTimer s timer fun t => { t with when := stamp + t.period }
      else
        (writeTimer s timer fun t => { t with repeats := t.repeats - 1 }).bind fun s =>
          if cell.data.repeats - 1 ≠ 0 then
            writeTimer s timer fun t => { t with when := stamp + t.period }
          else removeTimer s timer
    else some s

def timerScan (callbacks : Callbacks) (s : State) (now : UInt64) : Option State :=
  let s := currentTime s now
  let stamp := s.clock
  (callExpired callbacks stamp s).bind
    (ivyListEachSafe State.timers fun timer s => s.unlessStray (countDown stamp timer s))

def next (callbacks : Callbacks) (s : State) : Event → Option State
  | .op op => perform none s op
  | .timerScan now => timerScan callbacks s now

def State.listing (s : State) (timers : List Timer) : Timers.State :=
  ⟨timers, s.nextTimeout, s.timeout, s.clock, s.brk, s.log, s.stray⟩

/-- The memory holds the nodes of the timers that are listed in `t`, and no others; all the rest
is the same. -/
structure Same (s : State) (t : Timers.State) : Prop where
  listing : t = s.listing t.timers
  holds : s.timers.Holds Timer.addr Timer.node t.timers
  fresh : ∀ p ∈ t.timers.map Timer.addr, p < t.brk

theorem same_init : Same init Timers.init := ⟨rfl, holds_null, List.forall_mem_nil _⟩

variable {s s' : State} {t t' : Timers.State} {timer : Timer} {stamp : UInt64}

namespace Same

theorem cases (h : Same s t) : ∃ timers, t = s.listing timers := ⟨t.timers, h.listing⟩

theorem clock_eq (h : Same s t) : t.clock = s.clock := by
  obtain ⟨timers, rfl⟩ := h.cases
  rfl

theorem lookup (h : Same s t) (hmem : timer ∈ t.timers) :
    ∃ next, s.timers.cells.lookup timer.addr = some ⟨next, timer.node⟩ :=
  Lib.Holds.lookup_of_mem h.holds hmem

theorem currentTime (h : Same s t) (now : UInt64) :
    Same (currentTime s now) (Timers.currentTime t now) := by
  obtain ⟨timers, rfl⟩ := h.cases
  exact ⟨rfl, h.holds, h.fresh⟩

theorem setNewTimeout (h : Same s t) (current when : UInt64) :
    Same (setNewTimeout s current when) (Timers.setNewTimeout t current when) := by
  obtain ⟨timers, rfl⟩ := h.cases
  exact ⟨rfl, h.holds, h.fresh⟩

theorem adjTimeout (h : Same s t) (current : UInt64) :
    Option.Rel Same (adjTimeout s current) (some (Timers.adjTimeout t current)) := by
  have hlist := h.holds.list_eq
  have hfold := h.holds.foldl (fun newTimeout timer =>
    if !timer.mark2Remove && timer.when < newTimeout then timer.when else newTimeout)
  cases htimers : t.timers with
  | nil =>
    have hnone : Timers.adjTimeout t current = { t with timeout := none } := by
      rw [Timers.adjTimeout, htimers]
    rw [htimers] at hlist
    rw [InMemory.adjTimeout, hlist, hnone]
    obtain ⟨timers, rfl⟩ := h.cases
    exact .some ⟨rfl, h.holds, h.fresh⟩
  | cons first timers =>
    obtain ⟨next, hfirst⟩ := h.lookup (htimers ▸ List.mem_cons_self)
    rw [htimers] at hlist
    rw [InMemory.adjTimeout, hlist, Timers.adjTimeout, htimers]
    dsimp only [List.head?_cons, Option.map_some]
    rw [hfirst, Option.bind_some, hfold, htimers]
    exact .some (h.setNewTimeout ..)

theorem earlier (h : Same s t) (when : UInt64) :
    Same (if when < s.nextTimeout ∨ s.timeout = none then InMemory.setNewTimeout s s.clock when
        else s)
      (if when < t.nextTimeout ∨ t.timeout = none then Timers.setNewTimeout t t.clock when
        else t) := by
  obtain ⟨timers, rfl⟩ := h.cases
  change Same _ (if when < s.nextTimeout ∨ s.timeout = none then _ else _)
  by_cases hearlier : when < s.nextTimeout ∨ s.timeout = none
  · rw [if_pos hearlier, if_pos hearlier]
    exact h.setNewTimeout s.clock when
  · rw [if_neg hearlier, if_neg hearlier]
    exact h

theorem created (h : Same s t) (timer : Timer) (haddr : timer.addr = s.brk) (e : Entry) :
    Same { s with
        timers := s.timers.ivyListAdd timer.addr timer.node
        brk := s.brk + 1
        log := s.log ++ [e] }
      { t with
        timers := timer :: t.timers
        brk := t.brk + 1
        log := t.log ++ [e] } := by
  obtain ⟨timers, rfl⟩ := h.cases
  have hfresh : timer.addr ∉ s.timers.cells := fun hin =>
    Nat.lt_irrefl _ ((h.fresh _ (h.holds.live _ hin)).trans_eq haddr.symm)
  refine ⟨rfl, h.holds.add hfresh, fun p hp => ?_⟩
  rcases List.mem_cons.mp hp with rfl | hp
  · exact Nat.lt_succ_of_le haddr.le
  · exact Nat.lt_succ_of_lt (h.fresh p hp)

theorem timerRepeatAfter (h : Same s t) (scan : Option UInt64) (now : UInt64) (count : Int32)
    (ltime : Int64) : Same (timerRepeatAfter scan s now count ltime)
      (Timers.timerRepeatAfter scan t now count ltime) := by
  have hread := h.currentTime now
  obtain ⟨timers, rfl⟩ := h.cases
  have hearlier := hread.earlier ((InMemory.currentTime s now).clock + ltime.toUInt64)
  refine hearlier.created ⟨s.brk, count, ltime.toUInt64, _, false⟩ ?_ _
  split <;> rfl

theorem onTimer (h : Same s t) (p : Nat) {change : Option State}
    {change' : Timer → Timers.State}
    (hchange : ∀ timer ∈ t.timers, timer.addr = p → Option.Rel Same change (some (change' timer))) :
    Option.Rel Same (onTimer s p change) (some (Timers.onTimer t p change')) := by
  by_cases hp : p ∈ t.timers.map Timer.addr
  · obtain ⟨timer, hmem, rfl⟩ := List.mem_map.mp hp
    obtain ⟨next, hcell⟩ := h.lookup hmem
    rw [InMemory.onTimer, hcell, Timers.onTimer, findTimer, find?_cell h.holds.nodup hmem]
    dsimp only [Timer.node]
    split
    · exact .some h
    · exact hchange timer hmem rfl
  · have hcell : s.timers.cells.lookup p = none := Lib.Holds.lookup_eq_none h.holds hp
    have hfind : findTimer t p = none := List.find?_eq_none.mpr fun timer hmem heq =>
      hp (of_decide_eq_true heq ▸ List.mem_map_of_mem hmem)
    rw [InMemory.onTimer, hcell, Timers.onTimer, hfind]
    obtain ⟨timers, rfl⟩ := h.cases
    exact .some ⟨rfl, h.holds, h.fresh⟩

theorem writeTimer (h : Same s t) (hmem : timer ∈ t.timers) {f : Node → Node} {g : Timer → Timer}
    (haddr : ∀ t, (g t).addr = t.addr) (hnode : (g timer).node = f timer.node) :
    Option.Rel Same (writeTimer s timer.addr f) (some (modifyTimer t timer.addr g)) := by
  obtain ⟨timers, htimers, hholds⟩ := h.holds.store hmem (haddr timer) hnode
  have haddrs := addrs_modifyTimer haddr t timer.addr
  rw [InMemory.writeTimer, htimers]
  refine .some ⟨?_, hholds, ?_⟩
  · obtain ⟨timers, rfl⟩ := h.cases
    rfl
  · rw [haddrs]
    exact h.fresh

theorem removeTimer (h : Same s t) (timer : Timer) :
    Option.Rel Same (removeTimer s timer.addr) (some (Timers.removeTimer t timer)) := by
  obtain ⟨timers, htimers, hholds⟩ := h.holds.remove timer.addr
  rw [InMemory.removeTimer, htimers]
  refine .some ⟨?_, hholds, fun p hp => h.fresh p ((List.eraseP_sublist.map _).subset hp)⟩
  obtain ⟨timers, rfl⟩ := h.cases
  rfl

theorem changed (h : Same s t) (p : Nat) :
    Same (changed s p) { t with log := t.log ++ [.changed p] } := by
  obtain ⟨timers, rfl⟩ := h.cases
  exact ⟨rfl, h.holds, h.fresh⟩

theorem adjusted (h : Same s t) (p : Nat) : Option.Rel Same
    ((InMemory.adjTimeout s s.clock).map (InMemory.changed · p))
    (some { Timers.adjTimeout t t.clock with log := t.log ++ [.changed p] }) := by
  have hlog : (Timers.adjTimeout t t.clock).log = t.log := by
    unfold Timers.adjTimeout
    split <;> rfl
  rw [← hlog, h.clock_eq]
  obtain ⟨s', hs', hst⟩ := rel_right (h.adjTimeout s.clock)
  rw [hs']
  exact .some (hst.changed p)

theorem timerRemove (h : Same s t) (now : UInt64) (p : Nat) :
    Option.Rel Same (timerRemove s now p) (some (Timers.timerRemove t now p)) := by
  refine h.onTimer p ?_
  rintro timer hmem rfl
  obtain ⟨s', hs', hst⟩ := rel_right (h.writeTimer hmem
    (f := fun t => { t with mark2Remove := true }) (g := fun t => { t with mark2Remove := true })
    (fun _ => rfl) rfl)
  rw [hs']
  exact (hst.currentTime now).adjusted timer.addr

theorem timerModify (h : Same s t) (now : UInt64) (p : Nat) (ltime : Int64) :
    Option.Rel Same (timerModify s now p ltime) (some (Timers.timerModify t now p ltime)) := by
  refine h.onTimer p ?_
  rintro timer hmem rfl
  have hread := h.currentTime now
  have hlisted : timer ∈ (Timers.currentTime t now).timers := hmem
  obtain ⟨s', hs', hst⟩ := rel_right (hread.writeTimer hlisted
    (f := fun node => { node with
      period := ltime.toUInt64, when := (InMemory.currentTime s now).clock + ltime.toUInt64 })
    (g := fun timer => { timer with
      period := ltime.toUInt64, when := (Timers.currentTime t now).clock + ltime.toUInt64 })
    (fun _ => rfl) (by rw [hread.clock_eq]; rfl))
  dsimp only
  rw [hs']
  exact hst.adjusted timer.addr

theorem unlessStray (h : Same s t) {u : Option State}
    (hu : Option.Rel Same u (some t')) :
    Option.Rel Same (s.unlessStray u) (some (t.unlessStray t')) := by
  obtain ⟨timers, rfl⟩ := h.cases
  rw [State.unlessStray, Timers.State.unlessStray]
  change Option.Rel Same _ (some (if s.stray then _ else _))
  split
  · exact .some h
  · exact hu

theorem perform (h : Same s t) (scan : Option UInt64) (op : Op) :
    Option.Rel Same (perform scan s op) (some (Timers.perform scan t op)) := by
  refine h.unlessStray ?_
  cases op with
  | timerRepeatAfter now count ltime => exact .some (h.timerRepeatAfter scan now count ltime)
  | timerRemove now timer => exact h.timerRemove now timer
  | timerModify now timer ltime => exact h.timerModify now timer ltime

theorem performs (h : Same s t) (scan : Option UInt64) (ops : List Op) :
    Option.Rel Same (ops.foldlM (InMemory.perform scan) s)
      (some (ops.foldl (Timers.perform scan) t)) := by
  induction ops generalizing s t with
  | nil => exact .some h
  | cons op ops ih =>
    obtain ⟨s', hs', hst⟩ := rel_right (h.perform scan op)
    rw [List.foldlM_cons, hs']
    exact ih hst

theorem call (h : Same s t) (callbacks : Callbacks) (stamp : UInt64) (timer : Timer) :
    Option.Rel Same (call callbacks stamp timer.addr s)
      (some (Timers.call callbacks stamp timer t)) := by
  obtain ⟨timers, rfl⟩ := h.cases
  have hcalled : Same { s with log := s.log ++ [.called timer.addr] }
      (State.listing { s with log := s.log ++ [.called timer.addr] } timers) :=
    ⟨rfl, h.holds, h.fresh⟩
  exact hcalled.performs (some stamp) (callbacks (s.log ++ [.called timer.addr]))

theorem callExpired (h : Same s t) (callbacks : Callbacks) (stamp : UInt64) :
    Option.Rel Same (callExpired callbacks stamp s) (Timers.callExpired callbacks stamp t) := by
  refine rel_ivyListEachSafe (fun s t hst => hst.holds) (fun timer s t hst hmem => ?_) h
  obtain ⟨next, hcell⟩ := hst.lookup hmem
  refine hst.unlessStray ?_
  rw [hcell, Option.bind_some]
  change Option.Rel Same (if timer.when ≤ stamp ∧ !timer.mark2Remove then _ else _) _
  by_cases hdue : timer.when ≤ stamp ∧ !timer.mark2Remove
  · rw [if_pos hdue, if_pos hdue]
    exact hst.call callbacks stamp timer
  · rw [if_neg hdue, if_neg hdue]
    exact .some hst

theorem countOff (h : Same s t) (hmem : timer ∈ t.timers) (stamp : UInt64) :
    Option.Rel Same
      ((InMemory.writeTimer s timer.addr fun t => { t with repeats := t.repeats - 1 }).bind fun s =>
        if timer.repeats - 1 ≠ 0 then
          InMemory.writeTimer s timer.addr fun t => { t with when := stamp + t.period }
        else InMemory.removeTimer s timer.addr)
      (some (if timer.repeats - 1 ≠ 0 then
          modifyTimer t timer.addr fun t =>
            { t with repeats := t.repeats - 1, when := stamp + t.period }
        else Timers.removeTimer t timer)) := by
  let counted (timer : Timer) : Timer := { timer with repeats := timer.repeats - 1 }
  obtain ⟨s', hs', hst⟩ := rel_right (h.writeTimer hmem
    (f := fun node => { node with repeats := node.repeats - 1 }) (g := counted) (fun _ => rfl) rfl)
  have hmem' : counted timer ∈ (modifyTimer t timer.addr counted).timers :=
    mem_modifyTimer_self hmem
  rw [hs', Option.bind_some]
  by_cases hcount : timer.repeats - 1 ≠ 0
  · have hboth : (modifyTimer t timer.addr fun t =>
          { t with repeats := t.repeats - 1, when := stamp + t.period }) =
        modifyTimer (modifyTimer t timer.addr counted) timer.addr fun t =>
          { t with when := stamp + t.period } := by
      unfold modifyTimer
      rw [List.map_map]
      congr 1
      refine List.map_congr_left fun c _ => ?_
      by_cases hc : c.addr = timer.addr <;> simp [hc, counted]
    rw [if_pos hcount, if_pos hcount, hboth]
    exact hst.writeTimer hmem' (fun _ => rfl) rfl
  · have hout : Timers.removeTimer t timer =
        Timers.removeTimer (modifyTimer t timer.addr counted) (counted timer) := by
      unfold Timers.removeTimer modifyTimer
      exact congrArg (fun timers => { t with timers := timers })
        (unlink_update (f := counted) h.holds.nodup hmem rfl).symm
    rw [if_neg hcount, if_neg hcount, hout]
    exact hst.removeTimer (counted timer)

theorem countDown (h : Same s t) (hmem : timer ∈ t.timers) (stamp : UInt64) :
    Option.Rel Same (countDown stamp timer.addr s) (some (Timers.countDown stamp timer t)) := by
  obtain ⟨next, hcell⟩ := h.lookup hmem
  rw [InMemory.countDown, hcell, Option.bind_some, Timers.countDown]
  change Option.Rel Same (if timer.mark2Remove then _ else _) _
  by_cases hmark : timer.mark2Remove
  · rw [if_pos hmark, if_pos hmark]
    exact h.removeTimer timer
  rw [if_neg hmark, if_neg hmark]
  change Option.Rel Same (if timer.when ≤ stamp then _ else _) _
  by_cases hdue : timer.when ≤ stamp
  swap
  · rw [if_neg hdue, if_neg hdue]
    exact .some h
  rw [if_pos hdue, if_pos hdue]
  change Option.Rel Same (if timer.repeats = timerLoop then _ else _) _
  by_cases hloop : timer.repeats = timerLoop
  · rw [if_pos hloop, if_pos hloop]
    exact h.writeTimer hmem (fun _ => rfl) rfl
  · rw [if_neg hloop, if_neg hloop]
    exact h.countOff hmem stamp

theorem timerScan (h : Same s t) (callbacks : Callbacks) (now : UInt64) :
    Option.Rel Same (timerScan callbacks s now) (Timers.timerScan callbacks t now) := by
  have hread := h.currentTime now
  rw [InMemory.timerScan, Timers.timerScan, hread.clock_eq]
  refine rel_bind (hread.callExpired callbacks _) fun s t hst => ?_
  exact rel_ivyListEachSafe (fun s t hst => hst.holds)
    (fun timer s t hst hmem => hst.unlessStray (hst.countDown hmem _)) hst

theorem next (h : Same s t) (callbacks : Callbacks) (e : Event) :
    Option.Rel Same (next callbacks s e) (Timers.next callbacks t e) := by
  cases e with
  | op op => exact h.perform none op
  | timerScan now => exact h.timerScan callbacks now

end Same

/-- The module never reads a node that it has freed, frees none twice and loses none, whatever
the callbacks do with timers that are listed while `TimerScan` is on its way: in memory it does what
it does on the list. -/
theorem timers_in_memory (callbacks : Callbacks) (es : List Event) :
    ∃ s t, run (next callbacks) init es = some s ∧
      run (Timers.next callbacks) Timers.init es = some t ∧ Same s t := by
  have hstep : ∀ t e, Inv (fun _ => 0) t → True → ∃ t', Timers.next callbacks t e = some t' ∧
      Inv (fun _ => 0) t' := by
    intro t e (h : Inv (fun _ => 0) t) _
    cases e with
    | op op => exact ⟨_, rfl, (h.perform (fun _ _ _ => rfl) op).1⟩
    | timerScan now => exact h.timerScan callbacks now
  obtain ⟨t, ht, -⟩ := run_defined hstep inv_init
    (along_of_forall (fun _ _ => trivial) Timers.init es)
  have hrel := rel_run (P := fun _ _ => True) (fun s t e (h : Same s t) _ => h.next callbacks e)
    same_init (along_of_forall (fun _ _ => trivial) init es)
  obtain ⟨s, hs, hst⟩ := rel_right (ht ▸ hrel)
  exact ⟨s, t, hs, ht, hst⟩

end InMemory

end IvyBus.Timers
