import IvyBus.Loop
import IvyBus.Socket.Send

namespace IvyBus.Interest

open Lib Fifo Socket
open Loop (fdSet fdClr narrow)

/-- The sending side of a `struct _client`, and all the bytes the kernel has taken from it. -/
structure Client where
  ifb : Option IvyFifoBuffer
  kernel : Str

/-- `struct _channel`, with the address of the node. Its data is a client, or nothing for a server
and for a channel of the application. -/
structure Channel where
  addr : Nat
  fd : Nat
  tobedeleted : Bool
  client : Option Client

structure State where
  channelsList : List Channel
  openFds : List Nat
  wrdyFds : List Nat
  brk : Nat

namespace State

def addrs (s : State) : List Nat := s.channelsList.map Channel.addr

def fds (s : State) : List Nat := s.channelsList.map Channel.fd

def findChannel (s : State) (channel : Nat) : Option Channel :=
  s.channelsList.find? (·.addr = channel)

def modify (s : State) (channel : Nat) (f : Channel → Channel) : State :=
  { s with channelsList := s.channelsList.map fun ch => if ch.addr = channel then f ch else ch }

def setClient (s : State) (channel : Nat) (client : Client) : State :=
  s.modify channel fun ch => { ch with client := some client }

end State

def ivyChannelInit : State := ⟨[], [], [], 0⟩

def ivyChannelAdd (s : State) (fd : Nat) (client : Option Client) : State :=
  { s with
    channelsList := ⟨s.brk, fd, false, client⟩ :: s.channelsList
    openFds := fdSet fd s.openFds
    brk := s.brk + 1 }

def ivyChannelRemove (s : State) (channel : Nat) : State :=
  s.modify channel fun ch => { ch with tobedeleted := true }

def ivyChannelAddWritableEvent (s : State) (channel : Channel) : State :=
  { s with wrdyFds := fdSet channel.fd s.wrdyFds }

def ivyChannelClearWritableEvent (s : State) (channel : Channel) : State :=
  { s with wrdyFds := fdClr channel.fd s.wrdyFds }

/-- `IvyChannelDelete` after the callback of `DeleteSocket`: the client and its FIFO are freed. -/
def ivyChannelDelete (s : State) (channel : Channel) : State :=
  { s with
    openFds := fdClr channel.fd s.openFds
    wrdyFds := fdClr channel.fd s.wrdyFds
    channelsList := unlink Channel.addr channel.addr s.channelsList }

def congest (s : State) (channel : Channel) (client : Client) (tail : Str) : State :=
  ivyChannelAddWritableEvent
    (s.setClient channel.addr { client with ifb := some (ivyFifoWrite ivyFifoNew tail) }) channel

def bufferizedSocketSendRaw (s : State) (channel : Channel) (client : Client) (buffer : Str)
    (r : SendResult) : State :=
  match client.ifb with
  | some ifb => s.setClient channel.addr { client with ifb := some (ivyFifoWrite ifb buffer) }
  | none =>
    let reallySent := r.ret buffer.length
    let client := { client with kernel := client.kernel ++ buffer.take (r.taken buffer.length) }
    if reallySent = buffer.length then s.setClient channel.addr client
    else if reallySent = -1 then
      if r = .wouldBlock then congest s channel client buffer
      else s.setClient channel.addr client
    else congest s channel client (buffer.drop reallySent.toNat)

def socketSendRaw (s : State) (channel : Nat) (buffer : Str) (r : SendResult) : State :=
  match s.findChannel channel with
  | none => s
  | some ch => ch.client.elim s fun client => bufferizedSocketSendRaw s ch client buffer r

def socketSendRawWithId (s : State) (channel : Nat) (id buffer : Str) (r1 r2 : SendResult) :
    State :=
  socketSendRaw (socketSendRaw s channel id r1) channel buffer r2

/-- `none` when there is no client, or its FIFO is `NULL`. -/
def handleCongestionWrite (s : State) (channel : Channel) (answers : List SendResult) :
    Option State :=
  match channel.client with
  | none => none
  | some client =>
    match client.ifb with
    | none => none
    | some ifb =>
      let out := ivyFifoSendSocket ifb answers
      let client := { client with ifb := some out.fifo, kernel := client.kernel ++ out.sent }
      if out.ret = 0 then
        some ((ivyChannelClearWritableEvent s channel).setClient channel.addr
          { client with ifb := none })
      else some (s.setClient channel.addr client)

/-- What handlers, callbacks, hooks and timers do with the channels. -/
inductive Op
  | accept (fd : Nat)
  | connect (fd : Nat)
  | add (fd : Nat)
  | remove (channel : Nat)
  | send (channel : Nat) (text : Block) (r : SendResult)
  | sendWithId (channel : Nat) (id body : Block) (r1 r2 : SendResult)

def addNew (s : State) (fd : Nat) (client : Option Client) : Option State :=
  if fd ∈ s.fds then none else some (ivyChannelAdd s fd client)

def perform (s : State) : Op → Option State
  | .accept fd => addNew s fd (some ⟨none, []⟩)
  | .connect fd => addNew s fd (some ⟨none, []⟩)
  | .add fd => addNew s fd none
  | .remove channel => some (ivyChannelRemove s channel)
  | .send channel text r => some (socketSendRaw s channel text r)
  | .sendWithId channel id body r1 r2 => some (socketSendRawWithId s channel id body r1 r2)

/-- Where a round of the loop is: in `ChannelDefferedDelete`, before `select`, between `select` and
the end of the read handlers, or in `IvyChannelHandleWrite`. A walk has still to visit some
channels; `wrset` is what `select` has left of `wrdy_fds`. -/
inductive Phase
  | delete (walk : List Nat)
  | select
  | read (wrset : List Nat)
  | write (wrset walk : List Nat)

structure Machine where
  state : State
  phase : Phase

def init : Machine := ⟨ivyChannelInit, .select⟩

/-- `perform` stands for any code outside of the loop, also for what a handler or a callback does
before the loop goes on; `select` is answered with the ready descriptors, or with none. -/
inductive Event
  | perform (op : Op)
  | select (ready : Option (List Nat))
  | proceed (answers : List SendResult)

def visitDelete (s : State) (channel : Nat) : Option State :=
  (s.findChannel channel).map fun ch => if ch.tobedeleted then ivyChannelDelete s ch else s

def visitWrite (s : State) (wrset : List Nat) (channel : Nat) (answers : List SendResult) :
    Option State :=
  (s.findChannel channel).bind fun ch =>
    if ch.fd ∈ wrset then handleCongestionWrite s ch answers else some s

def proceed (m : Machine) (answers : List SendResult) : Option Machine :=
  match m.phase with
  | .delete (channel :: walk) => (visitDelete m.state channel).map (⟨·, .delete walk⟩)
  | .delete [] => some ⟨m.state, .select⟩
  | .select => some m
  | .read wrset => some ⟨m.state, .write wrset m.state.addrs⟩
  | .write wrset (channel :: walk) =>
    (visitWrite m.state wrset channel answers).map (⟨·, .write wrset walk⟩)
  | .write _ [] => some ⟨m.state, .delete m.state.addrs⟩

def select (m : Machine) (ready : Option (List Nat)) : Machine :=
  match m.phase, ready with
  | .select, some ready => ⟨m.state, .read (narrow m.state.wrdyFds ready)⟩
  | .select, none => ⟨m.state, .delete m.state.addrs⟩
  | _, _ => m

def next (m : Machine) : Event → Option Machine
  | .perform op => (Interest.perform m.state op).map (⟨·, m.phase⟩)
  | .select ready => some (Interest.select m ready)
  | .proceed answers => Interest.proceed m answers

end IvyBus.Interest
