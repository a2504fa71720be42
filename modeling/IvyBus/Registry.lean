import IvyBus.Ivy
import IvyBus.Lib.Chain

namespace IvyBus.Ivy

open Lib

variable {Code : Type}

/-- The walk along a `clientList` that frees the subscriptions with some property. -/
def removeClients (p : IvyClient → Bool) (clientList : List IvyClient) :
    Option (List IvyClient) :=
  forEachSafe IvyClient.addr id
    (fun clientItr l => some (if p clientItr then unlink IvyClient.addr clientItr.addr l else l))
    clientList

/-- What is left of an entry after that walk; an entry without subscriber is freed. -/
def putEntry (s : Ivy Code) (regexp : Str) (clientList : List IvyClient) : Ivy Code :=
  { s with messSndByRegexp :=
      if clientList = [] then s.messSndByRegexp.filter (·.regexpSrc ≠ regexp)
      else s.messSndByRegexp.map fun e =>
        if e.regexpSrc = regexp then { e with clientList := clientList } else e }

def delOneIvyClientFromDictionaryEntry (s : Ivy Code) (msgSendDict : MsgSndDict Code)
    (client : IvyClient) : Option (Ivy Code) :=
  (removeClients (fun clientItr => clientItr.client = client.client && clientItr.id = client.id)
    msgSendDict.clientList).map (s.putEntry msgSendDict.regexpSrc)

def delOneClientFromDictionaryEntry (s : Ivy Code) (msgSendDict : MsgSndDict Code)
    (client : Handle) : Option (Ivy Code) :=
  (removeClients (fun clientItr => clientItr.client = client) msgSendDict.clientList).map
    (s.putEntry msgSendDict.regexpSrc)

def delRegexpForOneClientFromDictionary (s : Ivy Code) (regexp : Str) (client : IvyClient) :
    Option (Ivy Code) :=
  match s.findEntry regexp with
  | none => some s
  | some msgSendDict => s.delOneIvyClientFromDictionaryEntry msgSendDict client

def errorCompiling (regexp errbuf : Str) : Str :=
  ascii "Error compiling '" ++ regexp ++ ascii "', " ++ errbuf

/-- The size of the `errorbuffer` of `addRegexpToDictionary`. -/
def errorBufferSize : Nat := 1024

/-- There is no result where the text of the error and its NUL overrun `errorbuffer`. -/
def addEntry (engine : Engine Code) (s : Ivy Code) (regexp : Str) (client : IvyClient) :
    Option (Ivy Code) :=
  match ivyBindingCompile engine regexp with
  | .ok binding =>
    some { s with messSndByRegexp := s.messSndByRegexp ++ [⟨regexp, [], some binding⟩] }
  | .error (erroffset, errbuf) =>
    let errorbuffer := errorCompiling regexp errbuf
    if errorbuffer.length < errorBufferSize then
      let s := s.msgSendTo client.client .error erroffset errorbuffer
      some { s with messSndByRegexp := s.messSndByRegexp ++ [⟨regexp, [], none⟩] }
    else none

def errorFits (engine : Engine Code) (regexp : Str) : Bool :=
  match ivyBindingCompile engine regexp with
  | .ok _ => true
  | .error (_, errbuf) => (errorCompiling regexp errbuf).length < errorBufferSize

def subscribe (s : Ivy Code) (regexp : Str) (client : IvyClient) : Ivy Code :=
  let newClient : IvyClient :=
    { client with addr := s.brk, srcRegList := [], readyToSend := 0, ignoreSubsequentMsg := false }
  { s with
    brk := s.brk + 1
    messSndByRegexp := s.messSndByRegexp.map fun e =>
      if e.regexpSrc = regexp then { e with clientList := newClient :: e.clientList } else e }

def addRegexpToDictionary (engine : Engine Code) (s : Ivy Code) (regexp : Str)
    (client : IvyClient) : Option (Ivy Code) :=
  match s.findEntry regexp with
  | none => (addEntry engine s regexp client).map fun s => s.subscribe regexp client
  | some _ => some (s.subscribe regexp client)

def changeRegexpInDictionary (engine : Engine Code) (s : Ivy Code) (regexp : Str)
    (client : IvyClient) : Option (Ivy Code) :=
  (s.delRegexpForOneClientFromDictionary regexp client).bind fun s =>
    addRegexpToDictionary engine s regexp client

/-- The flag tells whether a subscription was removed. -/
def delRegexpForOneClient (s : Ivy Code) (client : IvyClient) (id : Int32) :
    Option (Ivy Code × Bool) :=
  match s.findClient client.client with
  | none => some (s, false)
  | some _ =>
    forEachSafe GlobReg.addr (fun p => p.1.srcRegs client.client)
      (fun regxpSrc p =>
        if regxpSrc.id = id then
          (p.1.delRegexpForOneClientFromDictionary regxpSrc.strRegexp client).map fun s =>
            (s.modifyClient client.client fun clientItr =>
              { clientItr with
                srcRegList := unlink GlobReg.addr regxpSrc.addr clientItr.srcRegList }, true)
        else some p)
      (s, false)

/-- A client without node in `allClients` is reached through `NULL`. -/
def addRegexp (engine : Engine Code) (s : Ivy Code) (regexp : Str) (client : IvyClient) :
    Option (Ivy Code) :=
  (addRegexpToDictionary engine s regexp client).bind fun s =>
    match s.findClient client.client with
    | none => none
    | some _ =>
      let regxpSrc : GlobReg := ⟨s.brk, regexp, client.id⟩
      let s := { s with brk := s.brk + 1 }.modifyClient client.client fun clientItr =>
        { clientItr with srcRegList := regxpSrc :: clientItr.srcRegList }
      some (s.bindCallback client.client client.id regexp .addBind)

def changeSrcRegs (regexp : Str) (id : Int32) (srcRegList : List GlobReg) :
    Option (List GlobReg) :=
  forEachSafe GlobReg.addr (fun l => l)
    (fun regxpSrc l => some <|
      if regxpSrc.id = id then
        l.map fun g => if g.addr = regxpSrc.addr then { g with strRegexp := regexp } else g
      else l)
    srcRegList

def changeGlobal (s : Ivy Code) (regexp : Str) (client : IvyClient) : Option (Ivy Code) :=
  match s.findClient client.client with
  | none => some s
  | some clientItr =>
    (changeSrcRegs regexp client.id clientItr.srcRegList).map fun l =>
      s.modifyClient client.client fun clientItr => { clientItr with srcRegList := l }

def changeRegexp (engine : Engine Code) (s : Ivy Code) (regexp : Str) (client : IvyClient) :
    Option (Ivy Code) :=
  ((changeRegexpInDictionary engine s regexp client).bind fun s =>
    s.changeGlobal regexp client).map fun s =>
      s.bindCallback client.client client.id regexp .changeBind

def addOrChangeRegexp (engine : Engine Code) (s : Ivy Code) (regexp : Str) (client : IvyClient) :
    Option (Ivy Code) :=
  match s.findEntry regexp with
  | none => addRegexp engine s regexp client
  | some msgSendDict =>
    match msgSendDict.clientList.find? (·.client = client.client) with
    | some clientItr =>
      if clientItr.id = client.id then changeRegexp engine s regexp client
      else addRegexp engine s regexp client
    | none => addRegexp engine s regexp client

def delSrcRegs (s : Ivy Code) (clientItr : IvyClient) : Option (Ivy Code) :=
  forEachSafe GlobReg.addr (fun s => s.srcRegs clientItr.client)
    (fun regxpSrc s => (s.delRegexpForOneClient clientItr regxpSrc.id).map Prod.fst) s

/-- The body of the walk of `delOneClient` along `allClients`. A node is known by its
connection. -/
def delClientNode (client : Handle) (clientItr : IvyClient) (s : Ivy Code) :
    Option (Ivy Code) :=
  if clientItr.client = client then
    (s.delSrcRegs clientItr).map fun s =>
      { s with allClients := unlink IvyClient.client client s.allClients }
  else some s

/-- An entry is known by its regexp. -/
def delOneClient (s : Ivy Code) (client : Handle) : Option (Ivy Code) :=
  (forEachSafe IvyClient.client allClients (delClientNode client) s).bind
  (forEachSafe MsgSndDict.regexpSrc messSndByRegexp fun msgSendDict s =>
    s.delOneClientFromDictionaryEntry msgSendDict client)

end IvyBus.Ivy
