import IvyBus.Wire

namespace IvyBus

abbrev maxMatchingArgs : Nat := 120

def nextArg (s : Str) : Option (Str × Str) :=
  if s = [] then none
  else some (s.takeWhile (· ≠ argEnd), (s.dropWhile (· ≠ argEnd)).drop 1)

/-- The calls of `nextArg` in `Receive`, with a bound on their number. -/
def nextArgs : Nat → Str → List Str
  | 0, _ => []
  | fuel + 1, s => (nextArg s).elim [] fun p => p.1 :: nextArgs fuel p.2

/-- The arguments of a message; `none` when there are more than `argv` has room for. -/
def argv (arg : Str) : Option (List Str) :=
  let args := nextArgs (arg.length + 1) arg
  if args.length ≤ maxMatchingArgs then some args else none

example : argv (ascii "a" ++ [argEnd, argEnd]) = some [ascii "a", []] := by decide

end IvyBus
