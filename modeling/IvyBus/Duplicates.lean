import IvyBus.Dispatch
import IvyBus.Lib.Run

namespace IvyBus.Duplicates

open Lib Ivy

variable {Code : Type}

inductive ByteOrder
  | little
  | big

/-- The field `sin_port` of an address with that port, as a number of the machine. -/
def ByteOrder.sinPort : ByteOrder → UInt16 → UInt16
  | .little, port => port <<< 8 ||| port >>> 8
  | .big, port => port

/-- The address of a peer: `0.0.0.0` is none. -/
abbrev Host := { addr : Nat // addr ≠ 0 }

/-- How a connection came about, with the port numbers at its two ends. -/
inductive Link
  | opened (host : Host) (localPort : UInt16)
  | accepted (host : Host) (remotePort localPort : UInt16)

namespace Link

def host : Link → Host
  | opened host _ => host
  | accepted host _ _ => host

/-- What the functions of the socket layer tell about a connection: `SocketConnectAddr` leaves
`from` zero, `HandleServer` fills it, and `SocketGetRemotePort` returns the field as it is. -/
def socketInfo (order : ByteOrder) : Link → SocketInfo
  | opened _ localPort => ⟨0, 0, localPort⟩
  | accepted host remotePort localPort => ⟨host, order.sinPort remotePort, localPort⟩

end Link

/-- An agent, with what is true of its connections: their links, the ports their peers have
advertised in `StartRegexp`, and whether `SocketClose` was called on them. -/
structure Agent (Code : Type) where
  ivy : Ivy Code
  link : Handle → Link
  advertised : Handle → Option UInt16
  closed : Handle → Bool

def Agent.put (a : Agent Code) (s : Ivy Code) : Agent Code :=
  { a with
    ivy := s
    closed := fun c =>
      a.closed c || (s.outputs.drop a.ivy.outputs.length).contains (.close c) }

def Agent.join (order : ByteOrder) (a : Agent Code) (c : Handle) (link : Link) : Agent Code :=
  { ivy := { a.ivy with sockets := Function.update a.ivy.sockets c (link.socketInfo order) }
    link := Function.update a.link c link
    advertised := Function.update a.advertised c none
    closed := Function.update a.closed c false }

/-- `BroadcastReceive` opens a connection, `HandleServer` accepts one. -/
inductive Event
  | connect (c : Handle) (host : Host) (localPort : UInt16) (appname : Str)
  | accept (c : Handle) (host : Host) (remotePort localPort : UInt16) (appname : Str)
  | line (c : Handle) (bytes : Str)
  | drop (c : Handle)

/-- The port that a line advertises when it is a `StartRegexp` that `Receive` reads. -/
def startPort (a : Agent Code) (c : Handle) (bytes : Str) : Option UInt16 :=
  match a.ivy.findClient c, parseHeader bytes with
  | some clnt, some h =>
    if clnt.ignoreSubsequentMsg = false ∧ MsgType.ofInt32 h.kindOfMsg = some .startRegexp then
      some h.id.toUInt32.toUInt16
    else none
  | _, _ => none

def Agent.hear (a : Agent Code) (c : Handle) (bytes : Str) : Agent Code :=
  match startPort a c bytes with
  | none => a
  | some port => { a with advertised := Function.update a.advertised c (some port) }

def next (order : ByteOrder) (engine : Engine Code) (a : Agent Code) : Event → Option (Agent Code)
  | .connect c host localPort appname =>
    if (a.ivy.findClient c).isSome then some a
    else
      let a := a.join order c (.opened host localPort)
      some (a.put (sendService engine a.ivy c appname))
  | .accept c host remotePort localPort appname =>
    if (a.ivy.findClient c).isSome then some a
    else
      let a := a.join order c (.accepted host remotePort localPort)
      some (a.put (clientCreate engine a.ivy c appname))
  | .line c bytes =>
    if (a.ivy.findClient c).isSome then
      (receive engine a.ivy c bytes).map (a.hear c bytes).put
    else some a
  | .drop c => (a.ivy.delOneClient c).map a.put

def alone (s : Ivy Code) : Agent Code :=
  { ivy := { s with allClients := [], messSndByRegexp := [] }
    link := fun _ => .opened ⟨1, by decide⟩ 0
    advertised := fun _ => none
    closed := fun _ => false }

/-- Another live connection from the host of `c` whose peer has advertised the port. -/
structure Duplicate (a : Agent Code) (c : Handle) (port : UInt16) (d : Handle) : Prop where
  ne : d ≠ c
  node : (a.ivy.findClient d).isSome
  live : a.closed d = false
  host_eq : (a.link d).host = (a.link c).host
  advertised_eq : a.advertised d = some port

def rejection (target : Handle) : List Output :=
  [.send target (msgText .error 0 (ascii "Application already connected")), .close target]

/-- A `StartRegexp` closes one of two connections when there is a duplicate, and none else. -/
def Recognised (engine : Engine Code) (a : Agent Code) : Event → Prop
  | .line c bytes => ∀ port s', startPort a c bytes = some port →
      receive engine a.ivy c bytes = some s' →
      (∃ d, Duplicate a c port d) ∧
        (∃ t, (t = c ∨ Duplicate a c port t) ∧ s'.outputs = a.ivy.outputs ++ rejection t) ∨
      (¬ ∃ d, Duplicate a c port d) ∧ s'.outputs = a.ivy.outputs
  | _ => True

/-- `c` was accepted, and a connection accepted from the same host has advertised what the machine
reads in `sin_port` of the address of `c`. -/
structure Twin (order : ByteOrder) (a : Agent Code) (c d : Handle) : Prop where
  ne : d ≠ c
  node : (a.ivy.findClient d).isSome
  accepted : ∃ host p q p' q', a.link c = .accepted host p q ∧ a.link d = .accepted host p' q' ∧
    order.sinPort p ≠ 0 ∧ a.advertised d = some (order.sinPort p)

def LastTwin (order : ByteOrder) (a : Agent Code) (c d : Handle) : Prop :=
  ∃ newer older, a.ivy.allClients.map IvyClient.client = newer ++ d :: older ∧
    Twin order a c d ∧ ∀ d' ∈ newer, ¬ Twin order a c d'

def maxPort (order : ByteOrder) (a : Agent Code) (c : Handle) : UInt16 :=
  match a.link c with
  | .opened _ localPort => localPort
  | .accepted _ remotePort localPort => max localPort (order.sinPort remotePort)

/-- A connection whose peer advertises a port has a duplicate and a twin, or neither. In the first
case the last twin is a duplicate, or its ports are no larger. -/
def Paired (order : ByteOrder) (a : Agent Code) : Event → Prop
  | .line c bytes => ∀ port, startPort a c bytes = some port →
      (¬ ∃ d, Duplicate a c port d) ∧ (¬ ∃ d, Twin order a c d) ∨
      (∃ d, Duplicate a c port d) ∧ ∃ t, LastTwin order a c t ∧
        (Duplicate a c port t ∨ maxPort order a t ≤ maxPort order a c)
  | _ => True

/-- No two live connections are to the same application. -/
def Distinct (a : Agent Code) : Prop :=
  ∀ c port d, (a.ivy.findClient c).isSome → a.closed c = false → a.advertised c = some port →
    ¬ Duplicate a c port d

theorem max_zero (p : UInt16) : max p 0 = p := by
  change (if p ≤ 0 then 0 else p) = p
  split
  · rename_i hle
    exact UInt16.le_antisymm UInt16.zero_le hle
  · rfl

end IvyBus.Duplicates
