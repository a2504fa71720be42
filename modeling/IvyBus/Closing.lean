import IvyBus.Args
import IvyBus.Agents
import IvyBus.Socket.Receive

namespace IvyBus.Closing

open Lib Ivy Socket

variable {Code : Type}

/-- The callbacks that the application has set; those of the bindings by the address of the
binding. -/
structure Hooks where
  application : Bool
  bind : Bool
  direct : Bool
  die : Bool
  pong : Bool
  message : Nat → Bool

inductive Callback
  | connected (client : Handle)
  | disconnected (client : Handle)
  | bind (client : Handle) (id : Int32) (regexp : Str) (event : IvyBindEvent)
  | message (client : Handle) (binding : Nat) (argv : List Str)
  | direct (client : Handle) (id : Int32) (arg : Str)
  | die (client : Handle) (id : Int32)
  | pong (client : Handle)
  deriving DecidableEq

/-- An application with its connections. `loop` is what `HandleSocket` has still to pass on,
`readable` the channels that select has reported and that are not visited yet, and `pinged` tells
whether the `ping_timestamp` is set. -/
structure Agent (Code : Type) where
  ivy : Ivy Code
  hooks : Hooks
  channels : List Handle
  client : Handle → Receiver
  tobedeleted : Handle → Bool
  readable : Handle → Bool
  loop : Option (Handle × List Str)
  pinged : Handle → Bool
  log : List Callback
  exited : Bool

def callback (hooks : Hooks) : Output → Option Callback
  | .connected c => if hooks.application then some (.connected c) else none
  | .bind c id regexp event => if hooks.bind then some (.bind c id regexp event) else none
  | _ => none

/-- The channel of a connection is marked when `SocketClose` is called. -/
def Agent.put (a : Agent Code) (s : Ivy Code) (calls : List Callback) : Agent Code :=
  let os := s.outputs.drop a.ivy.outputs.length
  { a with
    ivy := s
    tobedeleted := fun c => a.tobedeleted c || os.contains (.close c)
    log := a.log ++ os.filterMap (callback a.hooks) ++ calls }

def heard (s : Ivy Code) (c : Handle) (line : Str) : Option Header :=
  match s.findClient c with
  | some clnt => if clnt.ignoreSubsequentMsg then none else parseHeader line
  | none => none

/-- The branches of `Receive` that `receive` leaves out. -/
def calls (a : Agent Code) (c : Handle) (h : Header) : Option (List Callback) :=
  match MsgType.ofInt32 h.kindOfMsg with
  | some .msg =>
    match a.ivy.msgRecv.find? (·.id = h.id) with
    | some rcv => (argv h.arg).map fun argv =>
        if a.hooks.message rcv.addr then [.message c rcv.addr argv] else []
    | none => some []
  | some .directMsg => some (if a.hooks.direct then [.direct c h.id h.arg] else [])
  | some .die => some (if a.hooks.die then [.die c h.id] else [])
  | some .pong => some (if a.hooks.pong && a.pinged c then [.pong c] else [])
  | _ => some []

def ivyCleanup (s : Ivy Code) : Ivy Code :=
  let s := s.allClients.foldl
    (fun s clnt => (s.msgSendTo clnt.client .bye 0 []).socketClose clnt.client) s
  { s with allClients := [], messSndByRegexp := [] }

/-- `Pong` clears the `ping_timestamp`, and after `Die` the application exits. -/
def Agent.finish (a : Agent Code) (c : Handle) (h : Header) : Agent Code :=
  match MsgType.ofInt32 h.kindOfMsg with
  | some .die => { a with ivy := ivyCleanup a.ivy, exited := true }
  | some .pong => if a.hooks.pong then { a with pinged := Function.update a.pinged c false } else a
  | _ => a

def interpretation (engine : Engine Code) (a : Agent Code) (c : Handle) (line : Str) :
    Option (Agent Code) :=
  match heard a.ivy c line with
  | none => (receive engine a.ivy c line).map fun s => a.put s []
  | some h => (calls a c h).bind fun calls =>
      (receive engine a.ivy c line).map fun s => (a.put s calls).finish c h

/-- `ClientDelete` for every channel that is marked. -/
def channelDefferedDelete (a : Agent Code) : Option (Agent Code) :=
  let marked := a.channels.filter a.tobedeleted
  (marked.foldlM delOneClient a.ivy).map fun s =>
    let channels := a.channels.filter (!a.tobedeleted ·)
    { a with
      ivy := s
      channels := channels
      readable := fun c => decide (c ∈ channels)
      log := a.log ++ if a.hooks.application then marked.map .disconnected else [] }

def Agent.open (a : Agent Code) (c : Handle) (info : SocketInfo) : Agent Code :=
  { a with
    ivy := { a.ivy with sockets := Function.update a.ivy.sockets c info }
    channels := c :: a.channels
    client := Function.update a.client c Receiver.init
    tobedeleted := Function.update a.tobedeleted c false
    readable := Function.update a.readable c false
    pinged := Function.update a.pinged c false }

/-- The next line of the loop of `HandleSocket` is passed on. -/
def dispatch (engine : Engine Code) (a : Agent Code) : Option (Agent Code) :=
  match a.loop with
  | some (c, line :: rest) => interpretation engine { a with loop := some (c, rest) } c line
  | _ => some { a with loop := none }

/-- `select` begins a round: the marked channels are deleted, and any other may be read once.
The application may act between two lines, as its callbacks do. -/
inductive Event
  | select
  | read (c : Handle) (r : RecvResult)
  | dispatch
  | connect (c : Handle) (info : SocketInfo) (appname : Str)
  | accept (c : Handle) (info : SocketInfo) (appname : Str)
  | bind (regexp : Str)
  | unbind (addr : Nat)
  | ping (c : Handle)
  | set (hooks : Hooks)

def fits (client : Receiver) : RecvResult → Bool
  | .error => true
  | .bytes data => data.length ≤ nbToRead client

def isOpen (a : Agent Code) (c : Handle) : Bool := c ∈ a.channels || (a.ivy.findClient c).isSome

def next (engine : Engine Code) (a : Agent Code) : Event → Option (Agent Code)
  | .select => if a.exited || a.loop.isSome then some a else channelDefferedDelete a
  | .read c r =>
    if a.exited || a.loop.isSome || !a.readable c then some a
    else if fits (a.client c) r then
      let out := handleSocket (a.client c) r
      some { a with
        client := Function.update a.client c out.client
        tobedeleted := Function.update a.tobedeleted c (a.tobedeleted c || out.removed)
        readable := Function.update a.readable c false
        loop := some (c, out.lines) }
    else none
  | .dispatch => if a.exited then some a else dispatch engine a
  | .connect c info appname =>
    if a.exited || a.loop.isSome || isOpen a c then some a
    else
      let a := a.open c info
      some (a.put (sendService engine a.ivy c appname) [])
  | .accept c info appname =>
    if a.exited || a.loop.isSome || isOpen a c then some a
    else
      let a := a.open c info
      some (a.put (clientCreate engine a.ivy c appname) [])
  | .bind regexp =>
    if a.exited then some a else (ivyBindMsg a.ivy regexp).map fun s => a.put s []
  | .unbind addr =>
    if a.exited then some a else (ivyUnbindMsg a.ivy addr).map fun s => a.put s []
  | .ping c =>
    if a.exited || !a.hooks.pong || (a.ivy.findClient c).isNone then some a
    else some { a with pinged := Function.update a.pinged c true }
  | .set hooks => some { a with hooks := hooks }

def alone (s : Ivy Code) (hooks : Hooks) : Agent Code :=
  { ivy := { s with allClients := [], messSndByRegexp := [] }
    hooks := hooks
    channels := []
    client := fun _ => Receiver.init
    tobedeleted := fun _ => false
    readable := fun _ => false
    loop := none
    pinged := fun _ => false
    log := []
    exited := false }

structure Unchanged (s s' : Ivy Code) : Prop where
  dict : s'.messSndByRegexp = s.messSndByRegexp
  srcRegs : ∀ c, s'.srcRegs c = s.srcRegs c

/-- A line of a connection that is marked is about to be passed on. -/
def Late (a : Agent Code) (c : Handle) (line : Str) : Prop :=
  a.exited = false ∧ a.tobedeleted c = true ∧ ∃ rest, a.loop = some (c, line :: rest)

/-- A late line is not dispatched: nothing is called, and no subscription changes. -/
def NotDispatched (engine : Engine Code) (a : Agent Code) : Event → Prop
  | .dispatch => ∀ c line, Late a c line → ∃ a', dispatch engine a = some a' ∧ a'.log = a.log ∧
      Unchanged a.ivy a'.ivy
  | _ => True

/-- A line that calls nothing and changes no subscription, whenever it comes. -/
def Harmless (engine : Engine Code) (a : Agent Code) (c : Handle) (h : Header) : Prop :=
  match MsgType.ofInt32 h.kindOfMsg with
  | some .addRegexp => ivyBindingFilter engine a.ivy.filter h.arg = false ∧ a.hooks.bind = false
  | some .delRegexp => h.id ∉ (a.ivy.srcRegs c).map GlobReg.id
  | some .endRegexp => a.hooks.application = false
  | some .msg => ∀ rcv, a.ivy.msgRecv.find? (·.id = h.id) = some rcv →
      (argv h.arg).isSome ∧ a.hooks.message rcv.addr = false
  | some .directMsg => a.hooks.direct = false
  | some .die => a.hooks.die = false ∧ a.ivy.messSndByRegexp = [] ∧ ∀ d, a.ivy.srcRegs d = []
  | some .pong => ¬ (a.hooks.pong = true ∧ a.pinged c = true)
  | _ => True

/-- Each late line is ignored, or has a bad format, or is harmless. -/
def LateHarmless (engine : Engine Code) (a : Agent Code) : Event → Prop
  | .dispatch => ∀ c line, Late a c line → ∀ h, heard a.ivy c line = some h →
      Harmless engine a c h
  | _ => True

end IvyBus.Closing
