import IvyBus.Bindings
import IvyBus.Lib.Run
import IvyBus.Receive

namespace IvyBus.Greeting

open Lib Ivy

variable {Code : Type}

/-- What `MsgSendTo` puts into a line. -/
structure Line where
  msgtype : MsgType
  id : Int32
  message : Str
  deriving DecidableEq

/-- What `SendService` does when the line that it sends is out: the announcement of `msg_recv`
begins, goes on behind the node at an address, or is over. -/
inductive Phase
  | opening
  | walking (addr : Nat)
  | closing
  | done
  | stale
  deriving DecidableEq

/-- A call of `SendService` whose new client is `clnt`; `lines` is what has been sent to it. -/
structure Service (Code : Type) where
  ivy : Ivy Code
  clnt : IvyClient
  phase : Phase
  lines : List Line

/-- What can happen while the call lasts: the application callback of the last line, if there is
one, has returned, or it calls one of the functions for bindings. -/
inductive Event
  | proceed
  | ivyBindMsg (regexp : Str)
  | ivyUnbindMsg (addr : Nat)
  | ivyChangeMsg (addr : Nat) (regexp : Str)

def Service.msgSendTo (g : Service Code) (msgtype : MsgType) (id : Int32) (message : Str) :
    Service Code :=
  { g with
    ivy := g.ivy.msgSendTo g.clnt.client msgtype id message
    lines := g.lines ++ [⟨msgtype, id, message⟩] }

def start (s : Ivy Code) (client : Handle) (appname : Str) : Service Code :=
  Service.msgSendTo
    ⟨{ s with brk := s.brk + 1 }, ⟨s.brk, client, appname, 0, 0, [], 0, false⟩, .opening, []⟩
    .startRegexp (Int32.ofNat s.applicationPort.toNat) s.applicationName

/-- The head of the `IVY_LIST_EACH` loop, with what it finds behind the last node. -/
def Service.visit (g : Service Code) : List MsgRcv → Service Code
  | [] => { g.msgSendTo .endRegexp 0 [] with phase := .closing }
  | msg :: _ => { g.msgSendTo .addRegexp msg.id msg.regexp with phase := .walking msg.addr }

/-- The step of the loop reads `next` in the node that it has announced, which may be freed. -/
def Service.proceed (engine : Engine Code) (g : Service Code) : Service Code :=
  match g.phase with
  | .opening => g.visit g.ivy.msgRecv
  | .walking addr =>
    match g.ivy.msgRecv.dropWhile (·.addr ≠ addr) with
    | [] => { g with phase := .stale }
    | _ :: rest => g.visit rest
  | .closing =>
    { g with
      ivy := announceReady engine { g.ivy with allClients := g.clnt :: g.ivy.allClients }
        g.clnt.client
      phase := .done }
  | .done => g
  | .stale => g

/-- A call of the application has sent a line to every client of `allClients`. -/
def Service.tell (g : Service Code) (s : Ivy Code) (line : Line) : Service Code :=
  { g with
    ivy := s
    lines := g.lines ++
      List.replicate ((s.allClients.map IvyClient.client).count g.clnt.client) line }

def next (engine : Engine Code) (g : Service Code) : Event → Option (Service Code)
  | .proceed => some (g.proceed engine)
  | .ivyBindMsg regexp =>
    (g.ivy.ivyBindMsg regexp).map fun s => g.tell s ⟨.addRegexp, g.ivy.recvId, regexp⟩
  | .ivyUnbindMsg addr =>
    (g.ivy.msgRecv.find? (·.addr = addr)).bind fun msg =>
      (g.ivy.ivyUnbindMsg addr).map fun s => g.tell s ⟨.delRegexp, msg.id, []⟩
  | .ivyChangeMsg addr regexp =>
    (g.ivy.msgRecv.find? (·.addr = addr)).bind fun msg =>
      (g.ivy.ivyChangeMsg addr regexp).map fun s => g.tell s ⟨.addRegexp, msg.id, regexp⟩

/-- `SendService` up to its return: after these events no call comes from its callbacks any more. -/
def sendService (engine : Engine Code) (s : Ivy Code) (client : Handle) (appname : Str)
    (events : List Event) : Option (Ivy Code) :=
  (run (next engine) (start s client appname)
    (events ++ List.replicate (s.msgRecv.length + events.length + 2) .proceed)).bind fun g =>
      if g.phase = .done then some g.ivy else none

def clientCreate (engine : Engine Code) (s : Ivy Code) (client : Handle) (appname : Str)
    (events : List Event) : Option (Ivy Code) :=
  match s.checkConnected client with
  | some _ => some (s.socketClose client)
  | none => sendService engine s client appname events

end IvyBus.Greeting
