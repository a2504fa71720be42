import IvyBus.Lib.Clock
import IvyBus.Lib.Run
import IvyBus.Timers

namespace IvyBus.Wrap

open Lib

variable {w : Nat}

/-- The millisecond clock in an `unsigned long` of `w` bits. -/
def reading (w : Nat) (time : Nat) : BitVec w := BitVec.ofNat w time

/-- `struct _timer`, with the address of the node. -/
structure Timer (w : Nat) where
  addr : Nat
  repeats : Int32
  period : BitVec w
  when : BitVec w
  mark2Remove : Bool

/-- What a call of `TimerRepeatAfter` is owed: a call of the timer, as soon as the time `due` has
come. It is `old` when a scan has begun since. -/
structure Promise where
  timer : Nat
  due : Nat
  old : Bool

/-- Where `TimerScan` is, with the time that it has read and the node that its walk has saved: in
the first walk, where callbacks run, or in the second one. -/
inductive Scan
  | idle
  | calling (stamp : Nat) (next : Option Nat)
  | counting (stamp : Nat) (next : Option Nat)
  deriving DecidableEq

/-- The static variables of `timer.c`; `timeout` is what `timeoutptr` points to, in milliseconds.
`clock` is the real time, which an application reads modulo `2 ^ w`. The calls are told with the
real time that their scan has read. -/
structure State (w : Nat) where
  timers : List (Timer w)
  nextTimeout : BitVec w
  timeout : Option (BitVec w)
  clock : Nat
  brk : Nat
  scan : Scan
  promises : List Promise
  calls : List (Nat × Nat)

def init (w : Nat) : State w := ⟨[], 2147483647, none, 0, 0, .idle, [], []⟩

def currentTime (s : State w) (now : Nat) : State w := { s with clock := max s.clock now }

def State.stamp (s : State w) : BitVec w := reading w s.clock

def setNewTimeout (s : State w) (current when : BitVec w) : State w :=
  { s with nextTimeout := when, timeout := some (if when ≤ current then 0 else when - current) }

/-- The nodes that `AdjTimeout` looks at: the first one, and those that are not marked. -/
def earliest (first : BitVec w) (timers : List (Timer w)) : BitVec w :=
  timers.foldl
    (fun newTimeout timer =>
      if !timer.mark2Remove && timer.when < newTimeout then timer.when else newTimeout)
    first

def adjTimeout (s : State w) (current : BitVec w) : State w :=
  match s.timers with
  | [] => { s with timeout := none }
  | first :: _ => setNewTimeout s current (earliest first.when s.timers)

/-- The step of a scan, or a call of one of the functions; those that change a timer may come out
of a callback, and `ltime` is a `long`. -/
inductive Event (w : Nat)
  | timerRepeatAfter (now : Nat) (count : Int32) (ltime : BitVec w)
  | timerRemove (now : Nat) (timer : Nat)
  | timerModify (now : Nat) (timer : Nat) (ltime : BitVec w)
  | timerGetSmallestTimeout (now : Nat)
  | timerScan (now : Nat)
  | proceed

def findTimer (s : State w) (timer : Nat) : Option (Timer w) := s.timers.find? (·.addr = timer)

def modifyTimer (s : State w) (timer : Nat) (f : Timer w → Timer w) : State w :=
  { s with timers := s.timers.map fun t => if t.addr = timer then f t else t }

def State.release (s : State w) (timer : Nat) : State w :=
  { s with promises := s.promises.filter (·.timer ≠ timer) }

def promised (timer clock : Nat) (ltime : BitVec w) : List Promise :=
  if ltime.toNat < 2 ^ (w - 1) then [⟨timer, clock + ltime.toNat, false⟩] else []

def timerRepeatAfter (s : State w) (now : Nat) (count : Int32) (ltime : BitVec w) : State w :=
  let s := currentTime s now
  let when := s.stamp + ltime
  let timer : Timer w := ⟨s.brk, count, ltime, when, false⟩
  let s := if when < s.nextTimeout ∨ s.timeout = none then setNewTimeout s s.stamp when else s
  { s with
    timers := timer :: s.timers
    brk := s.brk + 1
    promises := promised timer.addr s.clock ltime ++ s.promises }

/-- No result for a timer that is not listed any more: it has been freed. -/
def onTimer (s : State w) (timer : Nat) (change : Timer w → State w) : Option (State w) :=
  (findTimer s timer).map fun t => if t.mark2Remove then s else change t

def timerRemove (s : State w) (now : Nat) (timer : Nat) : Option (State w) :=
  onTimer s timer fun t =>
    let s := currentTime (modifyTimer s t.addr fun t => { t with mark2Remove := true }) now
    (adjTimeout s s.stamp).release t.addr

def timerModify (s : State w) (now : Nat) (timer : Nat) (ltime : BitVec w) : Option (State w) :=
  onTimer s timer fun t =>
    let s := currentTime s now
    let s := modifyTimer s t.addr fun t => { t with period := ltime, when := s.stamp + ltime }
    (adjTimeout s s.stamp).release t.addr

def timerGetSmallestTimeout (s : State w) (now : Nat) : State w :=
  let s := currentTime s now
  adjTimeout s s.stamp

def timerScan (s : State w) (now : Nat) : State w :=
  let s := currentTime s now
  { s with
    scan := .calling s.clock (s.timers.head?.map Timer.addr)
    promises := s.promises.map fun p => { p with old := true } }

def due (stamp : BitVec w) (timer : Timer w) : Bool := timer.when ≤ stamp ∧ !timer.mark2Remove

def visit (s : State w) (stamp : Nat) (timer : Timer w) (rest : List (Timer w)) : State w :=
  let s := { s with scan := .calling stamp (rest.head?.map Timer.addr) }
  if due (reading w stamp) timer then
    { s.release timer.addr with calls := s.calls ++ [(timer.addr, stamp)] }
  else s

def removeTimer (s : State w) (timer : Timer w) : State w :=
  { s with timers := unlink Timer.addr timer.addr s.timers }

def countDown (stamp : BitVec w) (timer : Timer w) (s : State w) : State w :=
  if timer.mark2Remove then removeTimer s timer
  else if timer.when ≤ stamp then
    if timer.repeats = Timers.timerLoop then
      modifyTimer s timer.addr fun t => { t with when := stamp + t.period }
    else if timer.repeats - 1 ≠ 0 then
      modifyTimer s timer.addr fun t =>
        { t with repeats := t.repeats - 1, when := stamp + t.period }
    else removeTimer s timer
  else s

/-- A step of a walk; none when the node that it has saved is freed. -/
def proceed (s : State w) : Option (State w) :=
  match s.scan with
  | .idle => none
  | .calling stamp none =>
    some { s with scan := .counting stamp (s.timers.head?.map Timer.addr) }
  | .calling stamp (some timer) =>
    match s.timers.dropWhile (·.addr ≠ timer) with
    | [] => none
    | t :: rest => some (visit s stamp t rest)
  | .counting _ none => some { s with scan := .idle }
  | .counting stamp (some timer) =>
    match s.timers.dropWhile (·.addr ≠ timer) with
    | [] => none
    | t :: rest =>
      some (countDown (reading w stamp) t
        { s with scan := .counting stamp (rest.head?.map Timer.addr) })

def State.aside (s : State w) (s' : Option (State w)) : Option (State w) :=
  match s.scan with
  | .counting .. => none
  | _ => s'

/-- No callback calls `TimerScan`. -/
def next (s : State w) : Event w → Option (State w)
  | .timerRepeatAfter now count ltime => s.aside (some (timerRepeatAfter s now count ltime))
  | .timerRemove now timer => s.aside (timerRemove s now timer)
  | .timerModify now timer ltime => s.aside (timerModify s now timer ltime)
  | .timerGetSmallestTimeout now => s.aside (some (timerGetSmallestTimeout s now))
  | .timerScan now => if s.scan = .idle then some (timerScan s now) else none
  | .proceed => proceed s

/-- The timer of a promise waits for its time. -/
def Pends (s : State w) (p : Promise) : Prop :=
  ∃ timer ∈ s.timers, timer.addr = p.timer ∧ timer.mark2Remove = false ∧
    timer.when = reading w p.due

/-- What a step does for a promise. A scan within the next `2 ^ (w - 1)` milliseconds calls the
timer when the time has come and not before; none of them passes over it then, and none removes it
or puts it off before it is called; `select` is not told to sleep beyond the time. -/
def Keeps (s s' : State w) (p : Promise) : Event w → Prop
  | .timerGetSmallestTimeout _ =>
    ∃ ltime, s'.timeout = some ltime ∧ ltime.toNat ≤ p.due - s'.clock
  | .proceed =>
    match s.scan with
    | .calling stamp (some timer) => p.timer = timer → stamp < p.due + 2 ^ (w - 1) →
        (s'.calls = s.calls ++ [(timer, stamp)] ↔ p.due ≤ stamp)
    | .calling stamp none => p.old → p.due ≤ stamp → p.due + 2 ^ (w - 1) ≤ stamp
    | .counting _ (some timer) => p.timer = timer → Pends s' p
    | _ => True
  | _ => True

def Kept (s : State w) (e : Event w) : Prop :=
  ∀ s', next s e = some s' → ∀ p ∈ s.promises, Keeps s s' p e

/-- The nodes that `AdjTimeout` compares. -/
def compared : List (Timer w) → List (Timer w)
  | [] => []
  | first :: rest => first :: rest.filter (!·.mark2Remove)

/-- The clock does not start again between the time of a scan and the time that a timer is due.
`TimerGetSmallestTimeout` gets along when it starts again before, or when some other node seems to
be due; and a timer that a callback creates must not seem due to the scan under way, unless that
leaves the timer its time and does not use up its count. -/
def InPeriod (s : State w) (p : Promise) : Event w → Prop
  | .timerGetSmallestTimeout now =>
    max s.clock now / 2 ^ w ≤ p.due / 2 ^ w ∨
      ∃ timer ∈ compared s.timers, timer.when ≤ reading w (max s.clock now)
  | .proceed =>
    match s.scan with
    | .calling stamp (some timer) => p.timer = timer → stamp < p.due + 2 ^ (w - 1) →
        stamp / 2 ^ w = p.due / 2 ^ w
    | .counting stamp (some timer) => p.timer = timer → p.old ∨ reading w stamp < reading w p.due ∨
        ∃ t ∈ s.timers, t.addr = timer ∧ t.repeats ≠ 1 ∧ reading w stamp + t.period = t.when
    | _ => True
  | _ => True

def Safe (s : State w) (e : Event w) : Prop :=
  ∀ s', next s e = some s' → ∀ p ∈ s.promises, InPeriod s p e

end IvyBus.Wrap
