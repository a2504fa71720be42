import IvyBus.Receive
import IvyBus.Uthash

namespace IvyBus.Dictionary

open Lib Ivy Uthash

variable {Code : Type}

/-- The state of `ivy.c` with its dictionary in a table of `uthash.h`. `entries` are the
`struct _msg_snd_dict` that are allocated, without their hash handles; `brk` is the address of the
next one. The list of entries in `ivy` is not used. -/
structure Hashed (Code : Type) where
  ivy : Ivy Code
  messSndByRegexp : Hash
  entries : Elem → Option (MsgSndDict Code)
  brk : Elem

namespace Hashed

def put (h : Hashed Code) (s : Ivy Code) : Hashed Code := { h with ivy := s }

/-- An entry without subscriber leaves the table and is freed. -/
def putEntry (h : Hashed Code) (a : Elem) (msgSendDict : MsgSndDict Code)
    (clientList : List IvyClient) : Option (Hashed Code) :=
  if clientList = [] then
    (hashDelete h.messSndByRegexp a).map fun t =>
      { h with messSndByRegexp := t, entries := Function.update h.entries a none }
  else
    some { h with
      entries := Function.update h.entries a (some { msgSendDict with clientList := clientList }) }

def delOneIvyClientFromDictionaryEntry (h : Hashed Code) (a : Elem) (client : IvyClient) :
    Option (Hashed Code) :=
  (h.entries a).bind fun msgSendDict =>
    (removeClients (fun clientItr => clientItr.client = client.client && clientItr.id = client.id)
      msgSendDict.clientList).bind (h.putEntry a msgSendDict)

def delOneClientFromDictionaryEntry (h : Hashed Code) (a : Elem) (client : Handle) :
    Option (Hashed Code) :=
  (h.entries a).bind fun msgSendDict =>
    (removeClients (fun clientItr => clientItr.client = client) msgSendDict.clientList).bind
      (h.putEntry a msgSendDict)

def delRegexpForOneClientFromDictionary (h : Hashed Code) (regexp : Str) (client : IvyClient) :
    Option (Hashed Code) :=
  (hashFind hashJen h.messSndByRegexp regexp).bind fun
    | none => some h
    | some a => h.delOneIvyClientFromDictionaryEntry a client

def compileEntry (engine : Engine Code) (s : Ivy Code) (regexp : Str) (client : IvyClient) :
    Option (Ivy Code × MsgSndDict Code) :=
  match ivyBindingCompile engine regexp with
  | .ok binding => some (s, ⟨regexp, [], some binding⟩)
  | .error (erroffset, errbuf) =>
    let errorbuffer := errorCompiling regexp errbuf
    if errorbuffer.length < errorBufferSize then
      some (s.msgSendTo client.client .error erroffset errorbuffer, ⟨regexp, [], none⟩)
    else none

def addEntry (engine : Engine Code) (h : Hashed Code) (regexp : Str) (client : IvyClient) :
    Option (Hashed Code) :=
  (compileEntry engine h.ivy regexp client).bind fun (s, msgSendDict) =>
    (hashAddKeyptr hashJen h.messSndByRegexp regexp h.brk).map fun t =>
      ⟨s, t, Function.update h.entries h.brk (some msgSendDict), h.brk + 1⟩

def subscribe (h : Hashed Code) (a : Elem) (client : IvyClient) : Option (Hashed Code) :=
  (h.entries a).map fun msgSendDict =>
    let newClient : IvyClient := { client with
      addr := h.ivy.brk, srcRegList := [], readyToSend := 0, ignoreSubsequentMsg := false }
    { h with
      ivy := { h.ivy with brk := h.ivy.brk + 1 }
      entries := Function.update h.entries a
        (some { msgSendDict with clientList := newClient :: msgSendDict.clientList }) }

def addRegexpToDictionary (engine : Engine Code) (h : Hashed Code) (regexp : Str)
    (client : IvyClient) : Option (Hashed Code) :=
  (hashFind hashJen h.messSndByRegexp regexp).bind fun
    | none => (addEntry engine h regexp client).bind fun h' => h'.subscribe h.brk client
    | some a => h.subscribe a client

def changeRegexpInDictionary (engine : Engine Code) (h : Hashed Code) (regexp : Str)
    (client : IvyClient) : Option (Hashed Code) :=
  (h.delRegexpForOneClientFromDictionary regexp client).bind fun h =>
    addRegexpToDictionary engine h regexp client

def delRegexpForOneClient (h : Hashed Code) (client : IvyClient) (id : Int32) :
    Option (Hashed Code × Bool) :=
  match h.ivy.findClient client.client with
  | none => some (h, false)
  | some _ =>
    forEachSafe GlobReg.addr (fun p => p.1.ivy.srcRegs client.client)
      (fun regxpSrc p =>
        if regxpSrc.id = id then
          (p.1.delRegexpForOneClientFromDictionary regxpSrc.strRegexp client).map fun h =>
            (h.put (h.ivy.modifyClient client.client fun clientItr =>
              { clientItr with
                srcRegList := unlink GlobReg.addr regxpSrc.addr clientItr.srcRegList }), true)
        else some p)
      (h, false)

def addRegexp (engine : Engine Code) (h : Hashed Code) (regexp : Str) (client : IvyClient) :
    Option (Hashed Code) :=
  (addRegexpToDictionary engine h regexp client).bind fun h =>
    match h.ivy.findClient client.client with
    | none => none
    | some _ =>
      let regxpSrc : GlobReg := ⟨h.ivy.brk, regexp, client.id⟩
      let s := { h.ivy with brk := h.ivy.brk + 1 }.modifyClient client.client fun clientItr =>
        { clientItr with srcRegList := regxpSrc :: clientItr.srcRegList }
      some (h.put (s.bindCallback client.client client.id regexp .addBind))

def changeRegexp (engine : Engine Code) (h : Hashed Code) (regexp : Str) (client : IvyClient) :
    Option (Hashed Code) :=
  (changeRegexpInDictionary engine h regexp client).bind fun h =>
    (h.ivy.changeGlobal regexp client).map fun s =>
      h.put (s.bindCallback client.client client.id regexp .changeBind)

def addOrChangeRegexp (engine : Engine Code) (h : Hashed Code) (regexp : Str)
    (client : IvyClient) : Option (Hashed Code) :=
  (hashFind hashJen h.messSndByRegexp regexp).bind fun
    | none => addRegexp engine h regexp client
    | some a =>
      (h.entries a).bind fun msgSendDict =>
        match msgSendDict.clientList.find? (·.client = client.client) with
        | some clientItr =>
          if clientItr.id = client.id then changeRegexp engine h regexp client
          else addRegexp engine h regexp client
        | none => addRegexp engine h regexp client

def delSrcRegs (h : Hashed Code) (clientItr : IvyClient) : Option (Hashed Code) :=
  forEachSafe GlobReg.addr (fun h => h.ivy.srcRegs clientItr.client)
    (fun regxpSrc h => (h.delRegexpForOneClient clientItr regxpSrc.id).map Prod.fst) h

def delClientNode (client : Handle) (clientItr : IvyClient) (h : Hashed Code) :
    Option (Hashed Code) :=
  if clientItr.client = client then
    (h.delSrcRegs clientItr).map fun h =>
      h.put { h.ivy with allClients := unlink IvyClient.client client h.ivy.allClients }
  else some h

/-- The loop along `hh.next` in `delOneClient`, which reads the link before it works on an
entry. The number of the entries bounds its rounds. -/
def delEntries (client : Handle) : Nat → Option Elem → Hashed Code → Option (Hashed Code)
  | _, none, h => some h
  | 0, some _, _ => none
  | n + 1, some a, h =>
    (h.entries a).bind fun _ =>
      (h.delOneClientFromDictionaryEntry a client).bind
        (delEntries client n (h.messSndByRegexp.hh.next a))

def head (h : Hashed Code) : Option Elem := h.messSndByRegexp.head.map Prod.fst

def count (h : Hashed Code) : Nat := (hashCount h.messSndByRegexp).toNat

def delOneClient (h : Hashed Code) (client : Handle) : Option (Hashed Code) :=
  (forEachSafe IvyClient.client (fun h => h.ivy.allClients) (delClientNode client) h).bind fun h =>
    delEntries client h.count h.head h

/-- The loop along `hh.next` in `delAllRegexpsFromDictionary`. An entry is read after it has left
the table: it is not freed. -/
def delAllEntries : Nat → Option Elem → Hashed Code → Option (Hashed Code)
  | _, none, h => some h
  | 0, some _, _ => none
  | n + 1, some a, h =>
    (h.entries a).bind fun msgSendDict =>
      (hashDelete h.messSndByRegexp a).bind fun t =>
        delAllEntries n (t.hh.next a) { h with
          messSndByRegexp := t
          entries := Function.update h.entries a (some { msgSendDict with clientList := [] }) }

def delAllRegexpsFromDictionary (h : Hashed Code) : Option (Hashed Code) :=
  delAllEntries h.count h.head h

/-- The loop along `hh.next` of `IvySendMsg` and of `ClientCall`. -/
def callEntries (call : Ivy Code → MsgSndDict Code → Ivy Code × Nat) (h : Hashed Code) :
    Nat → Option Elem → Ivy Code × Nat → Option (Ivy Code × Nat)
  | _, none, out => some out
  | 0, some _, _ => none
  | n + 1, some a, out =>
    (h.entries a).bind fun msgSendDict =>
      let call' := call out.1 msgSendDict
      callEntries call h n (h.messSndByRegexp.hh.next a) (call'.1, out.2 + call'.2)

def clientCall (engine : Engine Code) (h : Hashed Code) (client : Handle) (message : Str) :
    Option (Hashed Code × Nat) :=
  (h.callEntries (fun s msgSendDict => regexpCallUnique engine s msgSendDict message client)
    h.count h.head (h.ivy, 0)).map fun out => (h.put out.1, out.2)

def ivySendMsg (engine : Engine Code) (h : Hashed Code) (buffer : Str) :
    Option (Hashed Code × Nat) :=
  if h.ivy.debugBinaryMsg && ivyCheckBuffer buffer then some (h, 0)
  else
    (h.callEntries (fun s msgSendDict => regexpCall engine s msgSendDict buffer) h.count h.head
      (h.ivy, 0)).map fun out => (h.put out.1, out.2)

def announceReady (engine : Engine Code) (h : Hashed Code) (client : Handle) :
    Option (Hashed Code) :=
  let s := h.ivy.modifyClient client fun clnt => { clnt with readyToSend := clnt.readyToSend + 1 }
  match s.readyMessage, s.findClient client with
  | some message, some clnt =>
    if clnt.readyToSend = 2 then (clientCall engine (h.put s) client message).map Prod.fst
    else some (h.put s)
  | _, _ => some (h.put s)

def receiveAddRegexp (engine : Engine Code) (h : Hashed Code) (clnt : IvyClient) (arg : Str) :
    Option (Hashed Code) :=
  if ivyBindingFilter engine h.ivy.filter arg then addOrChangeRegexp engine h arg clnt
  else some (h.put (h.ivy.bindCallback clnt.client clnt.id arg .filterBind))

def receiveDelRegexp (h : Hashed Code) (clnt : IvyClient) (arg : Str) : Option (Hashed Code) :=
  (h.delRegexpForOneClient clnt clnt.id).map fun p =>
    if p.2 then p.1.put (p.1.ivy.bindCallback clnt.client clnt.id arg .removeBind) else p.1

def receive (engine : Engine Code) (h : Hashed Code) (client : Handle) (line : Str) :
    Option (Hashed Code) :=
  match h.ivy.findClient client with
  | none => none
  | some clnt =>
    if clnt.ignoreSubsequentMsg then some h
    else
      match parseHeader line with
      | none =>
        some (h.put (((h.ivy.msgSendTo client .error 3 badFormat).msgSendTo client .bye 0
          []).socketClose client))
      | some hd =>
        let s := h.ivy.modifyClient client fun clnt => { clnt with id := hd.id }
        let clnt := { clnt with id := hd.id }
        match MsgType.ofInt32 hd.kindOfMsg with
        | some .bye => some (h.put (s.socketClose client))
        | some .addRegexp => receiveAddRegexp engine (h.put s) clnt hd.arg
        | some .delRegexp => (h.put s).receiveDelRegexp clnt hd.arg
        | some .startRegexp => some (h.put (s.receiveStartRegexp clnt hd.arg))
        | some .endRegexp => announceReady engine (h.put (s.emit (.connected client))) client
        | some .ping => some (h.put (s.msgSendTo client .pong hd.id []))
        | _ => some (h.put s)

def sendService (engine : Engine Code) (h : Hashed Code) (client : Handle) (appname : Str) :
    Option (Hashed Code) :=
  let clnt : IvyClient := ⟨h.ivy.brk, client, appname, 0, 0, [], 0, false⟩
  let s := { h.ivy with brk := h.ivy.brk + 1 }.msgSendTo client .startRegexp
    (Int32.ofNat h.ivy.applicationPort.toNat) h.ivy.applicationName
  let s := s.msgRecv.foldl (fun s msg => s.msgSendTo client .addRegexp msg.id msg.regexp) s
  let s := s.msgSendTo client .endRegexp 0 []
  announceReady engine (h.put { s with allClients := clnt :: s.allClients }) client

def clientCreate (engine : Engine Code) (h : Hashed Code) (client : Handle) (appname : Str) :
    Option (Hashed Code) :=
  match h.ivy.checkConnected client with
  | some _ => some (h.put (h.ivy.socketClose client))
  | none => sendService engine h client appname

end Hashed

inductive Event
  | connect (c : Handle) (info : SocketInfo) (appname : Str)
  | accept (c : Handle) (info : SocketInfo) (appname : Str)
  | line (c : Handle) (line : Str)
  | disconnect (c : Handle)
  | send (buffer : Str)

def «open» (s : Ivy Code) (c : Handle) (info : SocketInfo) : Ivy Code :=
  { s with sockets := Function.update s.sockets c info }

def next (engine : Engine Code) (h : Hashed Code) : Event → Option (Hashed Code)
  | .connect c info appname =>
    if (h.ivy.findClient c).isSome then some h
    else (h.put («open» h.ivy c info)).sendService engine c appname
  | .accept c info appname =>
    if (h.ivy.findClient c).isSome then some h
    else (h.put («open» h.ivy c info)).clientCreate engine c appname
  | .line c line => if (h.ivy.findClient c).isSome then h.receive engine c line else some h
  | .disconnect c => h.delOneClient c
  | .send buffer => (h.ivySendMsg engine buffer).map Prod.fst

/-- The same on the list of the entries. -/
def nextOfList (engine : Engine Code) (s : Ivy Code) : Event → Option (Ivy Code)
  | .connect c info appname =>
    if (s.findClient c).isSome then some s
    else some (Ivy.sendService engine («open» s c info) c appname)
  | .accept c info appname =>
    if (s.findClient c).isSome then some s
    else some (Ivy.clientCreate engine («open» s c info) c appname)
  | .line c line => if (s.findClient c).isSome then Ivy.receive engine s c line else some s
  | .disconnect c => s.delOneClient c
  | .send buffer => some (Ivy.ivySendMsg engine s buffer).1

def unconnected (s : Ivy Code) : Hashed Code :=
  ⟨{ s with allClients := [], messSndByRegexp := [] }, Hash.init, fun _ => none, 0⟩

def Hashed.view (h : Hashed Code) : Ivy Code :=
  { h.ivy with messSndByRegexp := (h.messSndByRegexp.elements.getD []).filterMap h.entries }

end IvyBus.Dictionary
