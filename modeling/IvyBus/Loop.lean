import IvyBus.Lib.Chain

namespace IvyBus.Loop

open Lib

/-- `struct _channel`, with the address of the node. -/
structure Channel where
  addr : Nat
  fd : Nat
  tobedeleted : Bool
  handleDelete : Bool

inductive Handler
  | delete
  | read
  | write
  deriving DecidableEq

@[ext] structure Call where
  handler : Handler
  channel : Nat
  deriving DecidableEq

/-- The static variables of `ivyloop.c`, and the calls of handlers made so far. `brk` is the
address of the next node. -/
structure State where
  channelsList : List Channel
  openFds : List Nat
  wrdyFds : List Nat
  brk : Nat
  calls : List Call

def ivyChannelInit : State := ⟨[], [], [], 0, []⟩

def fdSet (fd : Nat) (set : List Nat) : List Nat := fd :: set

def fdClr (fd : Nat) (set : List Nat) : List Nat := set.filter (· ≠ fd)

/-- What handlers, hooks and timers ask of the module. A channel is given by its address. -/
inductive Op
  | add (fd : Nat) (handleDelete : Bool)
  | remove (channel : Nat)
  | addWritableEvent (channel : Nat)
  | clearWritableEvent (channel : Nat)

def findChannel (s : State) (channel : Nat) : Option Channel :=
  s.channelsList.find? (·.addr = channel)

def ivyChannelAdd (s : State) (fd : Nat) (handleDelete : Bool) : State :=
  { s with
    channelsList := ⟨s.brk, fd, false, handleDelete⟩ :: s.channelsList
    openFds := fdSet fd s.openFds
    brk := s.brk + 1 }

def ivyChannelRemove (s : State) (channel : Channel) : State :=
  { s with channelsList := s.channelsList.map fun ch =>
      if ch.addr = channel.addr then { ch with tobedeleted := true } else ch }

def perform (s : State) : Op → State
  | .add fd handleDelete => ivyChannelAdd s fd handleDelete
  | .remove channel => (findChannel s channel).elim s (ivyChannelRemove s)
  | .addWritableEvent channel =>
    (findChannel s channel).elim s fun ch => { s with wrdyFds := fdSet ch.fd s.wrdyFds }
  | .clearWritableEvent channel =>
    (findChannel s channel).elim s fun ch => { s with wrdyFds := fdClr ch.fd s.wrdyFds }

def performs (s : State) (ops : List Op) : State := ops.foldl perform s

/-- What the handlers do, from the calls made so far. -/
abbrev Handlers := List Call → List Op

def call (handlers : Handlers) (handler : Handler) (channel : Channel) (s : State) : State :=
  let calls := s.calls ++ [⟨handler, channel.addr⟩]
  performs { s with calls := calls } (handlers calls)

def callDelete (handlers : Handlers) (channel : Channel) (s : State) : State :=
  if channel.handleDelete then call handlers .delete channel s else s

def ivyChannelDelete (handlers : Handlers) (channel : Channel) (s : State) : State :=
  let s := callDelete handlers channel s
  { s with
    openFds := fdClr channel.fd s.openFds
    wrdyFds := fdClr channel.fd s.wrdyFds
    channelsList := unlink Channel.addr channel.addr s.channelsList }

def eachChannel (body : Channel → State → State) (s : State) : Option State :=
  forEachSafe Channel.addr State.channelsList (fun channel s => some (body channel s)) s

def channelDefferedDelete (handlers : Handlers) (s : State) : Option State :=
  eachChannel (fun channel s =>
    if channel.tobedeleted then ivyChannelDelete handlers channel s else s) s

def ivyChannelHandleExcpt (handlers : Handlers) (current : List Nat) (s : State) :
    Option State :=
  eachChannel (fun channel s =>
    if channel.fd ∈ current then callDelete handlers channel s else s) s

def ivyChannelHandleRead (handlers : Handlers) (current : List Nat) (s : State) : Option State :=
  eachChannel (fun channel s =>
    if channel.fd ∈ current then call handlers .read channel s else s) s

def ivyChannelHandleWrite (handlers : Handlers) (current : List Nat) (s : State) :
    Option State :=
  eachChannel (fun channel s =>
    if channel.fd ∈ current then call handlers .write channel s else s) s

inductive SelectResult
  | error
  | interrupted
  | ready (rdset wrset exset : List Nat)

/-- What comes from outside in one round of the loop: what the hooks and the timers do, and what
`select` answers. -/
structure Round where
  beforeSelect : List Op
  afterSelect : List Op
  timers : List Op
  select : SelectResult

/-- The round up to `select`. -/
def untilSelect (handlers : Handlers) (s : State) (round : Round) : Option State :=
  (channelDefferedDelete handlers s).map (performs · round.beforeSelect)

/-- The round between `select` and the dispatch. -/
def untilDispatch (given : State) (round : Round) : State :=
  performs (performs given round.afterSelect) round.timers

/-- `select` leaves in a set some of the descriptors it was given. -/
def narrow (given answer : List Nat) : List Nat := given.filter (· ∈ answer)

def ivyMainLoop (handlers : Handlers) (s : State) (round : Round) : Option State :=
  (untilSelect handlers s round).bind fun given =>
    match round.select with
    | .error => some (performs given round.afterSelect)
    | .interrupted => some (untilDispatch given round)
    | .ready rdset wrset exset =>
      (ivyChannelHandleExcpt handlers (narrow given.openFds exset)
        (untilDispatch given round)).bind fun s =>
          (ivyChannelHandleRead handlers (narrow given.openFds rdset) s).bind
            (ivyChannelHandleWrite handlers (narrow given.wrdyFds wrset))

end IvyBus.Loop
