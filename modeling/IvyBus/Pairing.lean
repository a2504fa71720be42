import IvyBus.Closing
import IvyBus.Congestion

namespace IvyBus.Pairing

open Lib Ivy Closing
open Congestion (IvyApplicationEvent)

variable {Code : Type}

/-- An application and, for each connection, the length that `log` had when it was set up and the
number of `EndRegexp` that have been heard on it since. -/
structure Peers (Code : Type) where
  agent : Agent Code
  start : Handle → Nat
  ends : Handle → Nat

def eventOf (c : Handle) : Callback → Option IvyApplicationEvent
  | .connected d => if d = c then some .connected else none
  | .disconnected d => if d = c then some .disconnected else none
  | _ => none

/-- What the application callback has received for the connection. -/
def events (p : Peers Code) (c : Handle) : List IvyApplicationEvent :=
  (p.agent.log.drop (p.start c)).filterMap (eventOf c)

def heardEnd (s : Ivy Code) (c : Handle) (line : Str) : Bool :=
  (heard s c line).any fun h => MsgType.ofInt32 h.kindOfMsg = some .endRegexp

def endOf (a : Agent Code) : Option Handle :=
  match a.loop with
  | some (c, line :: _) => if heardEnd a.ivy c line then some c else none
  | _ => none

def Peers.setUp (p : Peers Code) (c : Handle) : Peers Code :=
  if p.agent.exited || p.agent.loop.isSome || isOpen p.agent c then p
  else
    { p with
      start := Function.update p.start c p.agent.log.length
      ends := Function.update p.ends c 0 }

def Peers.hear (p : Peers Code) : Peers Code :=
  match endOf p.agent with
  | some c =>
    if p.agent.exited then p else { p with ends := Function.update p.ends c (p.ends c + 1) }
  | none => p

def Peers.note (p : Peers Code) : Event → Peers Code
  | .connect c _ _ => p.setUp c
  | .accept c _ _ => p.setUp c
  | .dispatch => p.hear
  | _ => p

/-- Only `IvyInit` sets the application callback. -/
def keepsCallback (a : Agent Code) : Event → Bool
  | .set hooks => hooks.application = a.hooks.application
  | _ => true

def next (engine : Engine Code) (p : Peers Code) (e : Event) : Option (Peers Code) :=
  if keepsCallback p.agent e then
    (Closing.next engine p.agent e).map fun a => { p.note e with agent := a }
  else none

def alone (s : Ivy Code) (hooks : Hooks) : Peers Code :=
  ⟨Closing.alone s hooks, fun _ => 0, fun _ => 0⟩

/-- No event, or `Connected` once and then possibly `Disconnected` once. -/
def Paired (l : List IvyApplicationEvent) : Prop :=
  l = [] ∨ l = [.connected] ∨ l = [.connected, .disconnected]

/-- An `EndRegexp` is the first of its connection, and a connection that is deleted has had one. -/
def InTurn (p : Peers Code) : Event → Prop
  | .dispatch => p.agent.exited = false → p.agent.hooks.application = true →
      ∀ c, endOf p.agent = some c → p.ends c = 0
  | .select => p.agent.exited = false → p.agent.loop = none → p.agent.hooks.application = true →
      ∀ c ∈ p.agent.channels, p.agent.tobedeleted c = true → p.ends c = 1
  | _ => True

end IvyBus.Pairing
