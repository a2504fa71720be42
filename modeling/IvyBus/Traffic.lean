import IvyBus.Args
import IvyBus.Channel

namespace IvyBus.Network

open Lib Ivy

variable {Agent Code : Type} [DecidableEq Agent]

structure Call where
  rcv : MsgRcv
  argv : List Str

/-- The branch of `Msg` in `Receive`. It is undefined when there are more arguments than `argv`
has room for. -/
def receiveMsg (s : Ivy Code) (c : Handle) (line : Str) : Option (List Call) :=
  match s.findClient c, parseHeader line with
  | some clnt, some h =>
    if clnt.ignoreSubsequentMsg ∨ MsgType.ofInt32 h.kindOfMsg ≠ some .msg then some []
    else
      match s.msgRecv.find? (·.id = h.id) with
      | none => some []
      | some rcv => (argv h.arg).map fun argv => [⟨rcv, argv⟩]
  | _, _ => some []

/-- The network with the callbacks that are called over each connection. The other fields are
records: the bindings that an agent has had, the messages that it has sent, and the lines that it
has written over each connection. -/
structure Traffic (Agent Code : Type) where
  net : Net Agent Code
  calls : Agent → Handle → List Call
  bound : Agent → List (Int32 × Str)
  said : Agent → List Str
  written : Agent → Handle → List Str

/-- The ready message of an agent is sent by `ClientCall`. -/
def Traffic.init (state : Agent → Ivy Code) : Traffic Agent Code :=
  ⟨Net.init state, fun _ _ => [], fun x => bindings (state x),
    fun x => (state x).readyMessage.toList, fun _ _ => []⟩

def Traffic.move (t : Traffic Agent Code) (net : Net Agent Code) : Traffic Agent Code :=
  { t with
    net := net
    bound := fun x => t.bound x ++ bindings (net.state x)
    written := fun x c => t.written x c ++
      linesTo c ((net.state x).outputs.drop (t.net.state x).outputs.length) }

inductive Act (Agent : Type)
  | event (e : Event Agent)
  | send (x : Agent) (buffer : Str)

def deliverCalls (t : Traffic Agent Code) : Event Agent → Option (Agent → Handle → List Call)
  | .deliver c x =>
    match t.net.flight c x with
    | [] => some t.calls
    | line :: _ => (receiveMsg (t.net.state x) c line).map fun calls => fun y d =>
      if y = x ∧ d = c then t.calls y d ++ calls else t.calls y d
  | _ => some t.calls

def act (engine : Engine Code) (t : Traffic Agent Code) : Act Agent → Option (Traffic Agent Code)
  | .event e =>
    (next engine t.net e).bind fun net =>
      (deliverCalls t e).map fun calls => { t.move net with calls := calls }
  | .send x buffer =>
    some { t.move (t.net.call x (ivySendMsg engine (t.net.state x) buffer).1) with
      said := Function.update t.said x (buffer :: t.said x) }

end IvyBus.Network
