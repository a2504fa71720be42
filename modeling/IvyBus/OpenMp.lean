import IvyBus.Lib.Cache
import IvyBus.Lib.Run
import IvyBus.Receive

namespace IvyBus.OpenMp

open Lib Ivy

variable {Code : Type}

/-- `msgPtrArray` is `slots`, with `size` its length, and `numPtr` is `count`. A slot holds the
address of an entry of the dictionary. -/
abbrev OmpDictCache := Cache Nat

/-- The state of the OPENMP build: the entry of a regexp has an address, and `brk` is the address
of the next one. A connection is in `ended` when its `EndRegexp` has been received. -/
structure Omp (Code : Type) where
  ivy : Ivy Code
  address : Str → Nat
  brk : Nat
  endRegexpReceived : Handle → Bool
  ended : Handle → Bool
  ompDictCache : OmpDictCache

namespace Omp

def put (o : Omp Code) (s : Ivy Code) : Omp Code := { o with ivy := s }

def entries (o : Omp Code) : List Nat := o.ivy.messSndByRegexp.map fun e => o.address e.regexpSrc

def regenerateRegPtrArrayCache (o : Omp Code) : Omp Code :=
  let numPtr := o.entries.length
  let slots := o.ompDictCache.slots
  let slots := if numPtr ≥ slots.length then Cache.grow slots (numPtr * 2 + 128) else slots
  { o with ompDictCache := Cache.overwrite slots o.entries }

def addRegToPtrArrayCache (o : Omp Code) (newReg : Nat) : Omp Code :=
  let numPtr := o.entries.length
  let slots := o.ompDictCache.slots
  if numPtr ≥ slots.length then
    { o with ompDictCache := Cache.overwrite (Cache.grow slots (numPtr * 2 + 128)) o.entries }
  else { o with ompDictCache := o.ompDictCache.writeLast numPtr newReg }

/-- A new entry is cached when the client has ended its announcement. -/
def addRegexpToDictionary (engine : Engine Code) (o : Omp Code) (regexp : Str)
    (client : IvyClient) : Option (Omp Code) :=
  (Ivy.addRegexpToDictionary engine o.ivy regexp client).map fun s =>
    if (o.ivy.findEntry regexp).isNone then
      let msgSendDict := o.brk
      let o := { o with
        ivy := s, address := Function.update o.address regexp msgSendDict, brk := o.brk + 1 }
      if o.endRegexpReceived client.client then o.addRegToPtrArrayCache msgSendDict else o
    else o.put s

def delRegexpForOneClientFromDictionary (o : Omp Code) (regexp : Str) (client : IvyClient) :
    Option (Omp Code) :=
  (o.ivy.delRegexpForOneClientFromDictionary regexp client).map fun s =>
    (o.put s).regenerateRegPtrArrayCache

def changeRegexpInDictionary (engine : Engine Code) (o : Omp Code) (regexp : Str)
    (client : IvyClient) : Option (Omp Code) :=
  (o.delRegexpForOneClientFromDictionary regexp client).bind fun o =>
    addRegexpToDictionary engine o regexp client

def delRegexpForOneClient (o : Omp Code) (client : IvyClient) (id : Int32) :
    Option (Omp Code × Bool) :=
  match o.ivy.findClient client.client with
  | none => some (o, false)
  | some _ =>
    forEachSafe GlobReg.addr (fun p => p.1.ivy.srcRegs client.client)
      (fun regxpSrc p =>
        if regxpSrc.id = id then
          (p.1.delRegexpForOneClientFromDictionary regxpSrc.strRegexp client).map fun o =>
            (o.put (o.ivy.modifyClient client.client fun clientItr =>
              { clientItr with
                srcRegList := unlink GlobReg.addr regxpSrc.addr clientItr.srcRegList }), true)
        else some p)
      (o, false)

def addRegexp (engine : Engine Code) (o : Omp Code) (regexp : Str) (client : IvyClient) :
    Option (Omp Code) :=
  (addRegexpToDictionary engine o regexp client).bind fun o =>
    match o.ivy.findClient client.client with
    | none => none
    | some _ =>
      let regxpSrc : GlobReg := ⟨o.ivy.brk, regexp, client.id⟩
      let s := { o.ivy with brk := o.ivy.brk + 1 }.modifyClient client.client fun clientItr =>
        { clientItr with srcRegList := regxpSrc :: clientItr.srcRegList }
      some (o.put (s.bindCallback client.client client.id regexp .addBind))

def changeRegexp (engine : Engine Code) (o : Omp Code) (regexp : Str) (client : IvyClient) :
    Option (Omp Code) :=
  (changeRegexpInDictionary engine o regexp client).bind fun o =>
    (o.ivy.changeGlobal regexp client).map fun s =>
      o.put (s.bindCallback client.client client.id regexp .changeBind)

def addOrChangeRegexp (engine : Engine Code) (o : Omp Code) (regexp : Str) (client : IvyClient) :
    Option (Omp Code) :=
  match o.ivy.findEntry regexp with
  | none => addRegexp engine o regexp client
  | some msgSendDict =>
    match msgSendDict.clientList.find? (·.client = client.client) with
    | some clientItr =>
      if clientItr.id = client.id then changeRegexp engine o regexp client
      else addRegexp engine o regexp client
    | none => addRegexp engine o regexp client

def delSrcRegs (o : Omp Code) (clientItr : IvyClient) : Option (Omp Code) :=
  forEachSafe GlobReg.addr (fun o => o.ivy.srcRegs clientItr.client)
    (fun regxpSrc o => (o.delRegexpForOneClient clientItr regxpSrc.id).map Prod.fst) o

def delClientNode (client : Handle) (clientItr : IvyClient) (o : Omp Code) :
    Option (Omp Code) :=
  if clientItr.client = client then
    (o.delSrcRegs clientItr).map fun o =>
      o.put { o.ivy with allClients := unlink IvyClient.client client o.ivy.allClients }
  else some o

def delOneClient (o : Omp Code) (client : Handle) : Option (Omp Code) :=
  ((forEachSafe IvyClient.client (fun o => o.ivy.allClients) (delClientNode client) o).bind
    (forEachSafe MsgSndDict.regexpSrc (fun o => o.ivy.messSndByRegexp) fun msgSendDict o =>
      (o.ivy.delOneClientFromDictionaryEntry msgSendDict client).map o.put)).map
    regenerateRegPtrArrayCache

def receiveAddRegexp (engine : Engine Code) (o : Omp Code) (clnt : IvyClient) (arg : Str) :
    Option (Omp Code) :=
  if ivyBindingFilter engine o.ivy.filter arg then addOrChangeRegexp engine o arg clnt
  else some (o.put (o.ivy.bindCallback clnt.client clnt.id arg .filterBind))

def receiveDelRegexp (o : Omp Code) (clnt : IvyClient) (arg : Str) : Option (Omp Code) :=
  (o.delRegexpForOneClient clnt clnt.id).map fun p =>
    if p.2 then p.1.put (p.1.ivy.bindCallback clnt.client clnt.id arg .removeBind) else p.1

/-- The lines that do not come to the functions above are read as in the sequential build. -/
def receive (engine : Engine Code) (o : Omp Code) (client : Handle) (line : Str) :
    Option (Omp Code) :=
  match o.ivy.findClient client, parseHeader line with
  | some clnt, some h =>
    if clnt.ignoreSubsequentMsg then some o
    else
      let s := o.ivy.modifyClient client fun clnt => { clnt with id := h.id }
      let clnt := { clnt with id := h.id }
      match MsgType.ofInt32 h.kindOfMsg with
      | some .addRegexp => receiveAddRegexp engine (o.put s) clnt h.arg
      | some .delRegexp => (o.put s).receiveDelRegexp clnt h.arg
      | some .startRegexp =>
        some { o with
          ivy := s.receiveStartRegexp clnt h.arg
          endRegexpReceived := Function.update o.endRegexpReceived client false }
      | some .endRegexp =>
        let o := { o with
          ivy := s.emit (.connected client)
          endRegexpReceived := Function.update o.endRegexpReceived client true
          ended := Function.update o.ended client true }.regenerateRegPtrArrayCache
        some (o.put (announceReady engine o.ivy client))
      | _ => (Ivy.receive engine o.ivy client line).map o.put
  | _, _ => (Ivy.receive engine o.ivy client line).map o.put

/-- A new node is zero. -/
def «open» (o : Omp Code) (c : Handle) (info : SocketInfo) : Omp Code :=
  { o with
    ivy := { o.ivy with sockets := Function.update o.ivy.sockets c info }
    endRegexpReceived := Function.update o.endRegexpReceived c false
    ended := Function.update o.ended c false }

end Omp

inductive Event
  | connect (c : Handle) (info : SocketInfo) (appname : Str)
  | accept (c : Handle) (info : SocketInfo) (appname : Str)
  | line (c : Handle) (line : Str)
  | disconnect (c : Handle)

def next (engine : Engine Code) (o : Omp Code) : Event → Option (Omp Code)
  | .connect c info appname =>
    if (o.ivy.findClient c).isSome then some o
    else
      let o := o.open c info
      some (o.put (sendService engine o.ivy c appname))
  | .accept c info appname =>
    if (o.ivy.findClient c).isSome then some o
    else
      let o := o.open c info
      some (o.put (clientCreate engine o.ivy c appname))
  | .line c line =>
    if (o.ivy.findClient c).isSome then o.receive engine c line else some o
  | .disconnect c => o.delOneClient c

def alone (s : Ivy Code) : Omp Code where
  ivy := { s with allClients := [], messSndByRegexp := [] }
  address := fun _ => 0
  brk := 0
  endRegexpReceived := fun _ => false
  ended := fun _ => false
  ompDictCache := ⟨[], 0⟩

/-- What `IvySendMsg` visits: live entries, each once, and all those of the clients that have
ended their announcement. -/
structure Mirrors (o : Omp Code) : Prop where
  sound : o.ompDictCache.Sound o.entries
  present : ∀ e ∈ o.ivy.messSndByRegexp, ∀ clnt ∈ e.clientList, o.ended clnt.client = true →
    some (o.address e.regexpSrc) ∈ o.ompDictCache.used
  whole : (∀ clnt ∈ o.ivy.allClients, o.ended clnt.client = true) →
    o.ompDictCache.used.Perm (o.entries.map some)

def MirrorsAfter (engine : Engine Code) (o : Omp Code) (e : Event) : Prop :=
  ∀ o', next engine o e = some o' → Mirrors o'

def Complete (o : Omp Code) : Prop := o.ompDictCache.count = o.entries.length

/-- An `AddRegexp` of a client that has ended its announcement. A new entry joins a cache that is
complete, or enlarged; an entry that was there is cached, unless the binding of the client is
changed. -/
def Joins (o : Omp Code) (c : Handle) (h : Header) : Prop :=
  match o.ivy.findEntry h.arg with
  | none => o.endRegexpReceived c = true ∧
      (Complete o ∨ o.ompDictCache.slots.length ≤ o.entries.length + 1)
  | some e =>
    if (e.clientList.find? (·.client = c)).any (·.id = h.id) then
      (∀ clnt ∈ e.clientList, clnt.client = c ∧ clnt.id = h.id) → o.endRegexpReceived c = true
    else some (o.address h.arg) ∈ o.ompDictCache.used

/-- The condition on a line; one whose error overruns `errorbuffer` leaves no state. -/
def LineJoins (engine : Engine Code) (o : Omp Code) : Event → Prop
  | .line c line => ∀ clnt h, o.ivy.findClient c = some clnt → clnt.ignoreSubsequentMsg = false →
      parseHeader line = some h → MsgType.ofInt32 h.kindOfMsg = some .addRegexp →
      ivyBindingFilter engine o.ivy.filter h.arg = true → errorFits engine h.arg →
      o.ended c = true → Joins o c h
  | _ => True

end IvyBus.OpenMp
