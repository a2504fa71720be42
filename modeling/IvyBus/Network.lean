import IvyBus.Greeting
import IvyBus.SendLaws

namespace IvyBus.Network

open Lib Ivy

variable {Agent Code : Type} [DecidableEq Agent]

/-- The agents and their connections. A connection has the same handle at both ends, and never
the handle of another; `ends` are the agent that opened it and the agent that accepts it. The
lines on their way to an agent are in the order in which they come. -/
structure Net (Agent Code : Type) where
  state : Agent → Ivy Code
  ends : Handle → Option (Agent × Agent)
  waiting : Handle → Bool
  flight : Handle → Agent → List Str

def Net.init (state : Agent → Ivy Code) : Net Agent Code :=
  ⟨state, fun _ => none, fun _ => false, fun _ _ => []⟩

def Joins (net : Net Agent Code) (c : Handle) (x y : Agent) : Prop :=
  net.ends c = some (x, y) ∨ net.ends c = some (y, x)

instance (net : Net Agent Code) (c : Handle) (x y : Agent) : Decidable (Joins net c x y) := by
  unfold Joins
  infer_instance

def linesTo (c : Handle) (os : List Output) : List Str := (feed lf [] (bytesTo c os)).1

/-- The agent `x` goes to the state `s`, with the lines `rest` still to come to it; what it has
put out is sent. -/
def Net.put (net : Net Agent Code) (x : Agent) (s : Ivy Code) (rest : Handle → List Str) :
    Net Agent Code :=
  { net with
    state := Function.update net.state x s
    flight := fun c y =>
      if y = x then rest c
      else if Joins net c x y then
        net.flight c y ++ linesTo c (s.outputs.drop (net.state x).outputs.length)
      else net.flight c y }

def Net.call (net : Net Agent Code) (x : Agent) (s : Ivy Code) : Net Agent Code :=
  net.put x s fun c => net.flight c x

/-- `callbacks` is what happens while `SendService` lasts. -/
inductive Event (Agent : Type)
  | bind (x : Agent) (regexp : Str)
  | unbind (x : Agent) (addr : Nat)
  | connect (x y : Agent) (c : Handle) (appname : Str) (callbacks : List Greeting.Event)
  | accept (c : Handle) (appname : Str) (callbacks : List Greeting.Event)
  | deliver (c : Handle) (x : Agent)
  | drop (c : Handle) (x : Agent)

/-- `BroadcastReceive` of `x`, which finds out the agent `y`: an agent does not connect to
itself. -/
def connect (engine : Engine Code) (net : Net Agent Code) (x y : Agent) (c : Handle)
    (appname : Str) (callbacks : List Greeting.Event) : Option (Net Agent Code) :=
  if x = y ∨ net.ends c ≠ none then some net
  else
    let net := { net with
      ends := Function.update net.ends c (some (x, y))
      waiting := Function.update net.waiting c true }
    (Greeting.sendService engine (net.state x) c appname callbacks).map (net.call x)

def accept (engine : Engine Code) (net : Net Agent Code) (c : Handle) (appname : Str)
    (callbacks : List Greeting.Event) : Option (Net Agent Code) :=
  match net.ends c, net.waiting c with
  | some (_, y), true =>
    let net := { net with waiting := Function.update net.waiting c false }
    (Greeting.clientCreate engine (net.state y) c appname callbacks).map (net.call y)
  | _, _ => some net

def deliver (engine : Engine Code) (net : Net Agent Code) (c : Handle) (x : Agent) :
    Option (Net Agent Code) :=
  match net.flight c x, (net.state x).findClient c with
  | line :: rest, some _ =>
    (receive engine (net.state x) c line).map fun s =>
      net.put x s (Function.update (fun c => net.flight c x) c rest)
  | _, _ => some net

/-- `ClientDelete`, when either side has closed the connection. -/
def drop (net : Net Agent Code) (c : Handle) (x : Agent) : Option (Net Agent Code) :=
  ((net.state x).delOneClient c).map (net.call x)

def next (engine : Engine Code) (net : Net Agent Code) : Event Agent → Option (Net Agent Code)
  | .bind x regexp => (ivyBindMsg (net.state x) regexp).map (net.call x)
  | .unbind x addr => (ivyUnbindMsg (net.state x) addr).map (net.call x)
  | .connect x y c appname callbacks => connect engine net x y c appname callbacks
  | .accept c appname callbacks => accept engine net c appname callbacks
  | .deliver c x => deliver engine net c x
  | .drop c x => drop net c x

end IvyBus.Network
