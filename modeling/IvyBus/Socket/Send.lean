import IvyBus.Fifo

namespace IvyBus.Socket

open Fifo

inductive SendState
  | sendOk
  | sendStillCongestion
  | sendStateChangeToCongestion
  | sendStateChangeToDecongestion
  | sendStateFifoFull
  | sendError
  | sendParamError
  deriving DecidableEq

/-- The sending side of a `struct _client`: its FIFO, whether its channel is in `wrdy_fds`,
and all the bytes the kernel has taken from it. -/
structure Client where
  ifb : Option IvyFifoBuffer
  writable : Bool
  kernel : Str

def Client.init : Client := ⟨none, false, []⟩

def congest (client : Client) (tail : Str) : Client :=
  { client with ifb := some (ivyFifoWrite ivyFifoNew tail), writable := true }

def bufferizedSocketSendRaw (client : Client) (buffer : Str) (r : SendResult) :
    Client × SendState :=
  match client.ifb with
  | some ifb =>
    let ifb := ivyFifoWrite ifb buffer
    ({ client with ifb := some ifb },
      if ivyFifoIsFull ifb then .sendStateFifoFull else .sendStillCongestion)
  | none =>
    let reallySent := r.ret buffer.length
    let client := { client with kernel := client.kernel ++ buffer.take (r.taken buffer.length) }
    if reallySent = buffer.length then (client, .sendOk)
    else if reallySent = -1 then
      if r = .wouldBlock then (congest client buffer, .sendStateChangeToCongestion)
      else (client, .sendError)
    else (congest client (buffer.drop reallySent.toNat), .sendStateChangeToCongestion)

def socketSendRaw (client : Client) (buffer : Str) (r : SendResult) : Client × SendState :=
  bufferizedSocketSendRaw client buffer r

def socketSendRawWithId (client : Client) (id buffer : Str) (r1 r2 : SendResult) :
    Client × SendState :=
  let s1 := bufferizedSocketSendRaw client id r1
  let s2 := bufferizedSocketSendRaw s1.1 buffer r2
  (s2.1, if s1.2 = .sendStateChangeToCongestion then s1.2 else s2.2)

/-- `none` when the FIFO is `NULL`. The flag tells whether `handle_decongestion` is called. -/
def handleCongestionWrite (client : Client) (answers : List SendResult) :
    Option (Client × Bool) :=
  match client.ifb with
  | none => none
  | some ifb =>
    let out := ivyFifoSendSocket ifb answers
    let client := { client with ifb := some out.fifo, kernel := client.kernel ++ out.sent }
    if out.ret = 0 then some ({ client with ifb := none, writable := false }, true)
    else some (client, false)

/-- The loop finds the socket writable, and calls `HandleCongestionWrite` if the channel is in
`wrdy_fds`. -/
def wakeUp (client : Client) (answers : List SendResult) : Option Client :=
  if client.writable then (handleCongestionWrite client answers).map Prod.fst else some client

abbrev Block := { b : Str // b.length < uintRange / 2 }

/-- What can happen to a connection. In a `wakeUp` the kernel has the given rooms. -/
inductive Event
  | send (text : Block) (r : SendResult)
  | sendWithId (id body : Block) (r1 r2 : SendResult)
  | wakeUp (rooms : List Nat)

def Event.next (client : Client) : Event → Option Client
  | .send text r => some (socketSendRaw client text r).1
  | .sendWithId id body r1 r2 => some (socketSendRawWithId client id body r1 r2).1
  | .wakeUp rooms => Socket.wakeUp client (rooms.map .room)

end IvyBus.Socket
