import IvyBus.Registry
import IvyBus.Send

namespace IvyBus.Ivy

variable {Code : Type}

/-- A client with another connection from the host and the port that it has advertised. -/
def checkConnected (s : Ivy Code) (sclnt : Handle) : Option IvyClient :=
  if (s.sockets sclnt).remotePort = 0 then none
  else
    s.allClients.find? fun iclient =>
      iclient.client ≠ sclnt && (s.sockets sclnt).remotePort = iclient.appPort &&
        (s.sockets iclient.client).remoteAddr = (s.sockets sclnt).remoteAddr

def maxPort (s : Ivy Code) (client : Handle) : UInt16 :=
  max (s.sockets client).localPort (s.sockets client).remotePort

def socketClose (s : Ivy Code) (client : Handle) : Ivy Code := s.emit (.close client)

/-- The end of `SendService` and of the branch of `EndRegexp`. -/
def announceReady (engine : Engine Code) (s : Ivy Code) (client : Handle) : Ivy Code :=
  let s := s.modifyClient client fun clnt => { clnt with readyToSend := clnt.readyToSend + 1 }
  match s.readyMessage, s.findClient client with
  | some message, some clnt =>
    if clnt.readyToSend = 2 then (clientCall engine s client message).1 else s
  | _, _ => s

def receiveAddRegexp (engine : Engine Code) (s : Ivy Code) (clnt : IvyClient) (arg : Str) :
    Option (Ivy Code) :=
  if ivyBindingFilter engine s.filter arg then addOrChangeRegexp engine s arg clnt
  else some (s.bindCallback clnt.client clnt.id arg .filterBind)

def receiveDelRegexp (s : Ivy Code) (clnt : IvyClient) (arg : Str) : Option (Ivy Code) :=
  (s.delRegexpForOneClient clnt clnt.id).map fun p =>
    if p.2 then p.1.bindCallback clnt.client clnt.id arg .removeBind else p.1

def receiveStartRegexp (s : Ivy Code) (clnt : IvyClient) (arg : Str) : Ivy Code :=
  let s := s.modifyClient clnt.client fun clnt =>
    { clnt with appName := arg, appPort := clnt.id.toUInt32.toUInt16 }
  match s.checkConnected clnt.client with
  | none => s
  | some other =>
    let target := if s.maxPort other.client > s.maxPort clnt.client then other else clnt
    let s := s.msgSendTo target.client .error 0 (ascii "Application already connected")
    (s.socketClose target.client).modifyClient target.client fun clnt =>
      { clnt with ignoreSubsequentMsg := true }

def badFormat : Str := ascii "bad format request expected 'type id ...'"

/-- The messages to the application are left out: they do not touch the subscriptions. A
connection without node in `allClients` is reached through a dangling pointer. -/
def receive (engine : Engine Code) (s : Ivy Code) (client : Handle) (line : Str) :
    Option (Ivy Code) :=
  match s.findClient client with
  | none => none
  | some clnt =>
    if clnt.ignoreSubsequentMsg then some s
    else
      match parseHeader line with
      | none =>
        some (((s.msgSendTo client .error 3 badFormat).msgSendTo client .bye 0 []).socketClose
          client)
      | some h =>
        let s := s.modifyClient client fun clnt => { clnt with id := h.id }
        let clnt := { clnt with id := h.id }
        match MsgType.ofInt32 h.kindOfMsg with
        | some .bye => some (s.socketClose client)
        | some .addRegexp => receiveAddRegexp engine s clnt h.arg
        | some .delRegexp => s.receiveDelRegexp clnt h.arg
        | some .startRegexp => some (s.receiveStartRegexp clnt h.arg)
        | some .endRegexp => some (announceReady engine (s.emit (.connected client)) client)
        | some .ping => some (s.msgSendTo client .pong h.id [])
        | _ => some s

/-- The lines for a new client; its node joins `allClients` after them. -/
def sendService (engine : Engine Code) (s : Ivy Code) (client : Handle) (appname : Str) :
    Ivy Code :=
  let clnt : IvyClient := ⟨s.brk, client, appname, 0, 0, [], 0, false⟩
  let s := { s with brk := s.brk + 1 }.msgSendTo client .startRegexp
    (Int32.ofNat s.applicationPort.toNat) s.applicationName
  let s := s.msgRecv.foldl (fun s msg => s.msgSendTo client .addRegexp msg.id msg.regexp) s
  let s := s.msgSendTo client .endRegexp 0 []
  announceReady engine { s with allClients := clnt :: s.allClients } client

/-- A connection from an application that is connected already is closed at once. -/
def clientCreate (engine : Engine Code) (s : Ivy Code) (client : Handle) (appname : Str) :
    Ivy Code :=
  match s.checkConnected client with
  | some _ => s.socketClose client
  | none => sendService engine s client appname

end IvyBus.Ivy
