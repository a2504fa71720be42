import IvyBus.Lib.Chain

namespace IvyBus.Timers

open Lib

abbrev timerLoop : Int32 := -1

/-- `struct _timer`, with the address of the node. The times are in milliseconds. -/
structure Timer where
  addr : Nat
  repeats : Int32
  period : UInt64
  when : UInt64
  mark2Remove : Bool

/-- What has happened to the timers. The creation of one is told with its `repeat` and its `when`,
and with the time that `TimerScan` has read when a callback creates it. -/
inductive Entry
  | created (timer : Nat) (count : Int32) (when : UInt64) (scan : Option UInt64)
  | changed (timer : Nat)
  | called (timer : Nat)
  deriving DecidableEq

def Entry.timer : Entry → Nat
  | .created timer _ _ _ => timer
  | .changed timer => timer
  | .called timer => timer

/-- The static variables of `timer.c`; `timeout` is what `timeoutptr` points to. `clock` is the
last time that was read, `brk` the address of the next node. The state is `stray` when the
application has passed a timer that is no longer listed: nothing is told from then on. -/
structure State where
  timers : List Timer
  nextTimeout : UInt64
  timeout : Option UInt64
  clock : UInt64
  brk : Nat
  log : List Entry
  stray : Bool

def init : State := ⟨[], 2147483647, none, 0, 0, [], false⟩

def currentTime (s : State) (now : UInt64) : State := { s with clock := max s.clock now }

def setNewTimeout (s : State) (current when : UInt64) : State :=
  { s with nextTimeout := when, timeout := some (if when ≤ current then 0 else when - current) }

def adjTimeout (s : State) (current : UInt64) : State :=
  match s.timers with
  | [] => { s with timeout := none }
  | first :: _ =>
    setNewTimeout s current <| s.timers.foldl
      (fun newTimeout timer =>
        if !timer.mark2Remove && timer.when < newTimeout then timer.when else newTimeout)
      first.when

/-- What an application asks of the module; `now` is what it reads on the clock. -/
inductive Op
  | timerRepeatAfter (now : UInt64) (count : Int32) (ltime : Int64)
  | timerRemove (now : UInt64) (timer : Nat)
  | timerModify (now : UInt64) (timer : Nat) (ltime : Int64)

def findTimer (s : State) (timer : Nat) : Option Timer := s.timers.find? (·.addr = timer)

def modifyTimer (s : State) (timer : Nat) (f : Timer → Timer) : State :=
  { s with timers := s.timers.map fun t => if t.addr = timer then f t else t }

/-- `TimerRepeatAfter` with a callback. -/
def timerRepeatAfter (scan : Option UInt64) (s : State) (now : UInt64) (count : Int32)
    (ltime : Int64) : State :=
  let s := currentTime s now
  let when := s.clock + ltime.toUInt64
  let timer : Timer := ⟨s.brk, count, ltime.toUInt64, when, false⟩
  let s := if when < s.nextTimeout ∨ s.timeout = none then setNewTimeout s s.clock when else s
  { s with
    timers := timer :: s.timers
    brk := s.brk + 1
    log := s.log ++ [.created timer.addr count when scan] }

/-- A timer that is not in the list has been freed. -/
def onTimer (s : State) (timer : Nat) (change : Timer → State) : State :=
  match findTimer s timer with
  | none => { s with stray := true }
  | some t => if t.mark2Remove then s else change t

def timerRemove (s : State) (now : UInt64) (timer : Nat) : State :=
  onTimer s timer fun t =>
    let s := currentTime (modifyTimer s t.addr fun t => { t with mark2Remove := true }) now
    { adjTimeout s s.clock with log := s.log ++ [.changed t.addr] }

def timerModify (s : State) (now : UInt64) (timer : Nat) (ltime : Int64) : State :=
  onTimer s timer fun t =>
    let s := currentTime s now
    let s := modifyTimer s t.addr fun t =>
      { t with period := ltime.toUInt64, when := s.clock + ltime.toUInt64 }
    { adjTimeout s s.clock with log := s.log ++ [.changed t.addr] }

def State.unlessStray (s s' : State) : State := if s.stray then s else s'

def operate (scan : Option UInt64) (s : State) : Op → State
  | .timerRepeatAfter now count ltime => timerRepeatAfter scan s now count ltime
  | .timerRemove now timer => timerRemove s now timer
  | .timerModify now timer ltime => timerModify s now timer ltime

def perform (scan : Option UInt64) (s : State) (op : Op) : State :=
  s.unlessStray (operate scan s op)

/-- What the callbacks do, from what has happened so far. -/
abbrev Callbacks := List Entry → List Op

def call (callbacks : Callbacks) (stamp : UInt64) (timer : Timer) (s : State) : State :=
  let log := s.log ++ [.called timer.addr]
  (callbacks log).foldl (perform (some stamp)) { s with log := log }

/-- The first walk of `TimerScan`. -/
def callExpired (callbacks : Callbacks) (stamp : UInt64) (s : State) : Option State :=
  forEachSafe Timer.addr State.timers (fun timer s =>
    some <| s.unlessStray <|
      if timer.when ≤ stamp ∧ !timer.mark2Remove then call callbacks stamp timer s else s) s

def removeTimer (s : State) (timer : Timer) : State :=
  { s with timers := unlink Timer.addr timer.addr s.timers }

def countDown (stamp : UInt64) (timer : Timer) (s : State) : State :=
  if timer.mark2Remove then removeTimer s timer
  else if timer.when ≤ stamp then
    if timer.repeats = timerLoop then
      modifyTimer s timer.addr fun t => { t with when := stamp + t.period }
    else if timer.repeats - 1 ≠ 0 then
      modifyTimer s timer.addr fun t =>
        { t with repeats := t.repeats - 1, when := stamp + t.period }
    else removeTimer s timer
  else s

def timerScan (callbacks : Callbacks) (s : State) (now : UInt64) : Option State :=
  let s := currentTime s now
  let stamp := s.clock
  (callExpired callbacks stamp s).bind
    (forEachSafe Timer.addr State.timers fun timer s =>
      some (s.unlessStray (countDown stamp timer s)))

inductive Event
  | op (op : Op)
  | timerScan (now : UInt64)

def next (callbacks : Callbacks) (s : State) : Event → Option State
  | .op op => some (perform none s op)
  | .timerScan now => timerScan callbacks s now

def calls (s : State) (timer : Nat) : Nat := s.log.count (.called timer)

def Listed (s : State) (timer : Nat) : Prop := timer ∈ s.timers.map Timer.addr

/-- The count of a timer is honoured: it is called at most so many times, and leaves the list
after exactly so many calls; in an endless loop it never leaves the list. -/
def Honoured (s : State) (timer : Nat) (count : Int32) : Prop :=
  (0 ≤ count → (calls s timer : Int) ≤ count.toInt ∧
    (¬ Listed s timer → (calls s timer : Int) = count.toInt)) ∧
  (count = timerLoop → Listed s timer)

end IvyBus.Timers
