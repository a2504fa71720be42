import IvyBus.Closing
import IvyBus.Congestion
import IvyBus.Deletion
import IvyBus.Ready

namespace IvyBus.Pointers

open Lib Ivy Fifo Socket
open Closing (Hooks heard)
open Congestion (IvyApplicationEvent switchState testState)

variable {Code : Type}

inductive Kind
  | application (event : IvyApplicationEvent)
  | bind (event : IvyBindEvent)
  | message (binding : Nat)
  | direct
  | die
  | pong
  deriving DecidableEq

/-- A callback about a connection. `app` is the `IvyClientPtr` that it gets: the address of a
node, or `NULL`. -/
structure Call where
  client : Handle
  app : Option Nat
  kind : Kind
  deriving DecidableEq

/-- What is still to be done, in the order of the source: a callback, a call of `MsgSendTo`,
`RegexpCall` or `RegexpCallUnique`, one round of their loops, and the steps of `IvyCleanup`. -/
inductive Act (Code : Type)
  | call (call : Call)
  | msgSendTo (client : Handle) (app : Nat) (text : Str)
  | regexpCall (msg : MsgSndDict Code)
  | regexpCallUnique (msg : MsgSndDict Code) (clientUnique : Handle) (message : Str)
  | sendMsg (clnt : IvyClient)
  | sendMsgUnique (clnt : IvyClient)
  | leave (client : Handle)
  | exit

/-- An application. `buffer` is the one of `IvySendMsg`, and the other two those of `RegexpCall` and
`RegexpCallUnique`. `data` is the pointer kept with a connection, `NULL` when it was refused,
`pinged` tells of a node whether its `ping_timestamp` is set, and `start` is the length that `log`
had when the connection was set up. -/
structure Agent (Code : Type) where
  ivy : Ivy Code
  hooks : Hooks
  buffer : Str
  bufferArg : Str
  bufferArgUnique : Str
  isOpen : Handle → Bool
  data : Handle → Option Nat
  sock : Handle → Socket.Client
  pinged : Nat → Bool
  pending : List (Act Code)
  log : List Call
  start : Handle → Nat
  exited : Bool

def wanted (hooks : Hooks) : Kind → Bool
  | .application _ => hooks.application
  | .bind _ => hooks.bind
  | .message binding => hooks.message binding
  | .direct => hooks.direct
  | .die => hooks.die
  | .pong => hooks.pong

def Agent.call (a : Agent Code) (call : Call) : Agent Code :=
  { a with log := if wanted a.hooks call.kind then a.log ++ [call] else a.log }

/-- The `switch` behind a send. -/
def Agent.sent (a : Agent Code) (c : Handle) (app : Nat) (out : Socket.Client × SendState)
    (raised : SendState → List IvyApplicationEvent) : Agent Code :=
  (raised out.2).foldl (fun a event => a.call ⟨c, some app, .application event⟩)
    { a with sock := Function.update a.sock c out.1 }

/-- `RegexpCall` and `RegexpCallUnique` tell of the node in the dictionary. -/
def perform (engine : Engine Code) (a : Agent Code) (r1 r2 : SendResult) : Act Code → Agent Code
  | .call call => a.call call
  | .msgSendTo c app text => a.sent c app (socketSendRaw (a.sock c) text r1) switchState
  | .regexpCall msg =>
    (ivyBindingExec engine msg.binding a.buffer).elim a fun groups =>
      { a with
        bufferArg := Ivy.bufferArg a.buffer groups
        pending := msg.clientList.map .sendMsg ++ a.pending }
  | .regexpCallUnique msg clientUnique message =>
    (ivyBindingExec engine msg.binding message).elim a fun groups =>
      { a with
        bufferArgUnique := Ivy.bufferArg message groups
        pending := (own clientUnique msg).map .sendMsgUnique ++ a.pending }
  | .sendMsg clnt =>
    a.sent clnt.client clnt.addr
      (socketSendRawWithId (a.sock clnt.client) (header .msg clnt.id) a.bufferArg r1 r2) switchState
  | .sendMsgUnique clnt =>
    a.sent clnt.client clnt.addr
      (socketSendRawWithId (a.sock clnt.client) (header .msg clnt.id) a.bufferArgUnique r1 r2)
      testState
  | .leave c =>
    { a with
      ivy := { a.ivy with allClients := a.ivy.allClients.filter (·.client ≠ c) }
      isOpen := Function.update a.isOpen c false }
  | .exit => { a with pending := [], exited := true }

/-- What a function does that has the node `app` of the connection `c`: messages to another
connection go through its node in `allClients`. -/
def actOf (s : Ivy Code) (c : Handle) (app : Nat) : Output → Option (Act Code)
  | .send d bytes =>
    if d = c then some (.msgSendTo c app bytes)
    else (s.findClient d).map fun clnt => .msgSendTo d clnt.addr bytes
  | .connected _ => some (.call ⟨c, some app, .application .connected⟩)
  | .bind _ _ _ event => some (.call ⟨c, some app, .bind event⟩)
  | .close _ => none

def allActs (s s' : Ivy Code) : List (Act Code) :=
  (s'.outputs.drop s.outputs.length).filterMap fun
    | .send d bytes => (s.findClient d).map fun clnt => .msgSendTo d clnt.addr bytes
    | _ => none

/-- `IvyCleanup`, and `exit`. -/
def cleanup (s : Ivy Code) : List (Act Code) :=
  (s.allClients.flatMap fun clnt =>
    [.msgSendTo clnt.client clnt.addr (msgText .bye 0 []), .leave clnt.client]) ++ [.exit]

/-- What `Receive` does with a line that leads to `s'`, after the changes of the lists. -/
def lineActs (a : Agent Code) (c : Handle) (app : Nat) (line : Str) (s' : Ivy Code) :
    Option (List (Act Code)) :=
  let acts := (s'.outputs.drop a.ivy.outputs.length).filterMap (actOf a.ivy c app)
  match heard a.ivy c line with
  | none => some acts
  | some h =>
    match MsgType.ofInt32 h.kindOfMsg with
    | some .endRegexp =>
      let ready := if (s'.findClient c).any (·.readyToSend = 2) then
        a.ivy.readyMessage.elim [] fun message =>
          s'.messSndByRegexp.map (.regexpCallUnique · c message)
        else []
      some (.call ⟨c, some app, .application .connected⟩ :: ready)
    | some .msg =>
      match a.ivy.msgRecv.find? (·.id = h.id) with
      | some rcv => (argv h.arg).map fun _ => [.call ⟨c, some app, .message rcv.addr⟩]
      | none => some []
    | some .directMsg => some [.call ⟨c, some app, .direct⟩]
    | some .die => some (.call ⟨c, some app, .die⟩ :: cleanup a.ivy)
    | some .pong =>
      some (if a.hooks.pong && a.pinged app then [.call ⟨c, some app, .pong⟩] else [])
    | _ => some acts

/-- `Pong` clears the `ping_timestamp`. -/
def Agent.finish (a : Agent Code) (app : Nat) (h : Option Header) : Agent Code :=
  match h.bind fun h => MsgType.ofInt32 h.kindOfMsg with
  | some .pong => { a with pinged := Function.update a.pinged app (a.pinged app && !a.hooks.pong) }
  | _ => a

def callsOf (a : Agent Code) (c : Handle) : List Call :=
  (a.log.drop (a.start c)).filter (·.client = c)

def Agent.open (a : Agent Code) (c : Handle) (info : SocketInfo) (app : Option Nat) : Agent Code :=
  { a with
    ivy := { a.ivy with sockets := Function.update a.ivy.sockets c info }
    isOpen := Function.update a.isOpen c true
    data := Function.update a.data c app
    sock := Function.update a.sock c Socket.Client.init
    start := Function.update a.start c a.log.length }

/-- `SendService` for a new connection. -/
def Agent.greet (engine : Engine Code) (a : Agent Code) (c : Handle) (info : SocketInfo)
    (appname : Str) : Agent Code :=
  let app := a.ivy.brk
  let a := a.open c info (some app)
  let s := sendService engine a.ivy c appname
  { a with
    ivy := s
    pinged := Function.update a.pinged app false
    pending := (s.outputs.drop a.ivy.outputs.length).filterMap (actOf a.ivy c app) }

/-- Sends and callbacks are done by `proceed`, with the answers of the kernel; the application may
do something before each of them, with any pointer that it has got for an open connection. What
comes from the loop waits until they are done. `delete` is `DeleteSocket`, with the ids that the
walk of `ClientDelete` reads. -/
inductive Event
  | proceed (r1 r2 : SendResult)
  | connect (c : Handle) (info : SocketInfo) (appname : Str)
  | accept (c : Handle) (info : SocketInfo) (appname : Str)
  | receive (c : Handle) (line : Str)
  | delete (c : Handle) (ids : List Int32)
  | decongest (c : Handle) (answers : List SendResult)
  | ivySendMsg (message : Str)
  | bind (regexp : Str)
  | unbind (addr : Nat)
  | change (addr : Nat) (regexp : Str)
  | msgSendTo (call : Call) (msgtype : MsgType) (id : Int32) (message : Str)
  | ivySendPing (call : Call) (id : Int32)
  | set (hooks : Hooks)

def busy (a : Agent Code) : Bool := a.exited || !a.pending.isEmpty

def given (a : Agent Code) (call : Call) : Option Nat :=
  if a.isOpen call.client && decide (call ∈ callsOf a call.client) then call.app else none

def Agent.announce (a : Agent Code) (s : Ivy Code) : Agent Code :=
  { a with ivy := s, pending := allActs a.ivy s ++ a.pending }

/-- The check of `debug_binary_msg` comes after the buffer is filled. -/
def Agent.ivySendMsg (a : Agent Code) (message : Str) : Agent Code :=
  { a with
    buffer := message
    pending :=
      (if a.ivy.debugBinaryMsg && ivyCheckBuffer message then []
        else a.ivy.messSndByRegexp.map .regexpCall) ++ a.pending }

def receive (engine : Engine Code) (a : Agent Code) (c : Handle) (app : Nat) (line : Str) :
    Option (Agent Code) :=
  (Ivy.receive engine a.ivy c line).bind fun s =>
    (lineActs a c app line s).map fun acts =>
      { a with ivy := s, pending := acts }.finish app (heard a.ivy c line)

def delete (a : Agent Code) (c : Handle) (ids : List Int32) : Option (Agent Code) :=
  (delOneClientReading ids a.ivy c).map fun s =>
    { a.call ⟨c, a.data c, .application .disconnected⟩ with
      ivy := s
      isOpen := Function.update a.isOpen c false }

/-- `HandleCongestionWrite` with `ClientDecongestion`. -/
def decongest (a : Agent Code) (c : Handle) (answers : List SendResult) : Option (Agent Code) :=
  (handleCongestionWrite (a.sock c) answers).map fun out =>
    let a := { a with sock := Function.update a.sock c out.1 }
    if out.2 then a.call ⟨c, a.data c, .application .decongestion⟩ else a

def next (engine : Engine Code) (a : Agent Code) : Event → Option (Agent Code)
  | .proceed r1 r2 =>
    match a.pending with
    | [] => some a
    | act :: pending => some (perform engine { a with pending := pending } r1 r2 act)
  | .connect c info appname =>
    if busy a || a.isOpen c then some a else some (a.greet engine c info appname)
  | .accept c info appname =>
    if busy a || a.isOpen c then some a
    else if ((a.open c info none).ivy.checkConnected c).isSome then some (a.open c info none)
    else some (a.greet engine c info appname)
  | .receive c line =>
    if busy a || !a.isOpen c then some a
    else (a.data c).elim (some a) fun app => receive engine a c app line
  | .delete c ids => if busy a || !a.isOpen c then some a else delete a c ids
  | .decongest c answers =>
    if busy a || !a.isOpen c || !(a.sock c).writable then some a else decongest a c answers
  | .ivySendMsg message => if a.exited then some a else some (a.ivySendMsg message)
  | .bind regexp => if a.exited then some a else (ivyBindMsg a.ivy regexp).map a.announce
  | .unbind addr => if a.exited then some a else (ivyUnbindMsg a.ivy addr).map a.announce
  | .change addr regexp =>
    if a.exited then some a else (ivyChangeMsg a.ivy addr regexp).map a.announce
  | .msgSendTo call msgtype id message =>
    some <| (given a call).elim a fun app =>
      { a with pending := .msgSendTo call.client app (msgText msgtype id message) :: a.pending }
  | .ivySendPing call id =>
    some <| if !a.hooks.pong then a else (given a call).elim a fun app =>
      { a with
        pinged := Function.update a.pinged app true
        pending := .msgSendTo call.client app (msgText .ping id []) :: a.pending }
  | .set hooks =>
    if hooks.application = a.hooks.application then some { a with hooks := hooks } else none

def alone (s : Ivy Code) (hooks : Hooks) : Agent Code where
  ivy := { s with allClients := [], messSndByRegexp := [] }
  hooks := hooks
  buffer := []
  bufferArg := []
  bufferArgUnique := []
  isOpen := fun _ => false
  data := fun _ => none
  sock := fun _ => Socket.Client.init
  pinged := fun _ => false
  pending := []
  log := []
  start := fun _ => 0
  exited := false

def passes (r : SendResult) (block : Str) : Bool :=
  r.ret block.length = block.length || r.ret block.length = -1 && r ≠ .wouldBlock

def uncongested (client : Socket.Client) (bufferId bufferArg : Str) (r1 r2 : SendResult) : Bool :=
  client.ifb.isSome || passes r1 bufferId && passes r2 bufferArg

def unfilled (client : Socket.Client) (bufferId bufferArg : Str) : Bool :=
  client.ifb.all fun ifb => !ivyFifoIsFull (ivyFifoWrite (ivyFifoWrite ifb bufferId) bufferArg)

def undisturbed (a : Agent Code) (r1 r2 : SendResult) : Act Code → Bool
  | .sendMsg clnt =>
    uncongested (a.sock clnt.client) (header .msg clnt.id) a.bufferArg r1 r2 &&
      unfilled (a.sock clnt.client) (header .msg clnt.id) a.bufferArg
  | .sendMsgUnique clnt =>
    uncongested (a.sock clnt.client) (header .msg clnt.id) a.bufferArgUnique r1 r2
  | _ => true

/-- No message to a subscriber disturbs its connection, and no refused connection is deleted, while
there is an application callback. -/
def ownHand (a : Agent Code) : Event → Bool
  | .proceed r1 r2 => !a.hooks.application || a.pending.head?.all (undisturbed a r1 r2)
  | .delete c _ => !a.hooks.application || busy a || !a.isOpen c || (a.data c).isSome
  | _ => true

/-- All callbacks about a connection get the address of its node in `allClients`, and a pointer that
is used for an open connection is this address. -/
structure OneHandle (a : Agent Code) : Prop where
  calls : ∀ c, ∀ call ∈ callsOf a c, ∃ app, call.app = some app ∧ a.data c = some app
  nodes : ∀ c, a.isOpen c = true → ∀ app, a.data c = some app →
    ∃ clnt, a.ivy.findClient c = some clnt ∧ clnt.addr = app
  used : ∀ call app, given a call = some app →
    ∃ clnt, a.ivy.findClient call.client = some clnt ∧ clnt.addr = app

end IvyBus.Pointers
