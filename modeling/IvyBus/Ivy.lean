import IvyBus.Bind
import IvyBus.Wire

namespace IvyBus

/-- A `Client`, as the address of the connection. -/
abbrev Handle := Nat

structure SocketInfo where
  remoteAddr : Nat
  remotePort : UInt16
  localPort : UInt16

/-- `struct _global_reg_lst`, with the address of the node. -/
structure GlobReg where
  addr : Nat
  strRegexp : Str
  id : Int32

/-- `struct _clnt_lst_dict`, with the address of the node. -/
structure IvyClient where
  addr : Nat
  client : Handle
  appName : Str
  appPort : UInt16
  id : Int32
  srcRegList : List GlobReg
  readyToSend : Nat
  ignoreSubsequentMsg : Bool

/-- `struct _msg_snd_dict`. -/
structure MsgSndDict (Code : Type) where
  regexpSrc : Str
  clientList : List IvyClient
  binding : Option Code

/-- `struct _msg_rcv`, with the address of the node. -/
structure MsgRcv where
  addr : Nat
  id : Int32
  regexp : Str

inductive IvyBindEvent
  | addBind
  | removeBind
  | filterBind
  | changeBind
  deriving DecidableEq

inductive Output
  | send (client : Handle) (bytes : Str)
  | close (client : Handle)
  | connected (client : Handle)
  | bind (client : Handle) (id : Int32) (regexp : Str) (event : IvyBindEvent)
  deriving DecidableEq

/-- The static variables of `ivy.c`. The dictionary is in the order of its iteration; `brk` is
the address of the next node. -/
structure Ivy (Code : Type) where
  applicationName : Str
  applicationPort : UInt16
  readyMessage : Option Str
  debugBinaryMsg : Bool
  msgRecv : List MsgRcv
  recvId : Int32
  allClients : List IvyClient
  messSndByRegexp : List (MsgSndDict Code)
  filter : Filter Code
  sockets : Handle → SocketInfo
  brk : Nat
  outputs : List Output

namespace Ivy

variable {Code : Type}

instance : Inhabited (Ivy Code) :=
  ⟨[], 0, none, false, [], 0, [], [], ⟨[], none⟩, fun _ => ⟨0, 0, 0⟩, 0, []⟩

def emit (s : Ivy Code) (output : Output) : Ivy Code :=
  { s with outputs := s.outputs ++ [output] }

def msgSendTo (s : Ivy Code) (client : Handle) (msgtype : MsgType) (id : Int32)
    (message : Str) : Ivy Code :=
  s.emit (.send client (msgText msgtype id message))

def bindCallback (s : Ivy Code) (client : Handle) (id : Int32) (regexp : Str)
    (event : IvyBindEvent) : Ivy Code :=
  s.emit (.bind client id regexp event)

/-- `HASH_FIND_STR` on the dictionary. -/
def findEntry (s : Ivy Code) (regexp : Str) : Option (MsgSndDict Code) :=
  s.messSndByRegexp.find? (·.regexpSrc = regexp)

/-- `IVY_LIST_ITER` on the connected clients; there is one node for each connection. -/
def findClient (s : Ivy Code) (client : Handle) : Option IvyClient :=
  s.allClients.find? (·.client = client)

def srcRegs (s : Ivy Code) (client : Handle) : List GlobReg :=
  (s.findClient client).elim [] IvyClient.srcRegList

def modifyClient (s : Ivy Code) (client : Handle) (f : IvyClient → IvyClient) : Ivy Code :=
  { s with allClients := s.allClients.map fun c => if c.client = client then f c else c }

end Ivy

end IvyBus
