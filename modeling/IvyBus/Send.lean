import IvyBus.Ivy

namespace IvyBus.Ivy

variable {Code : Type}

/-- `bufferArg` of `RegexpCall`: the captures and the end of the line. -/
def bufferArg (message : Str) (groups : List (Nat × Nat)) : Str :=
  (groups.flatMap fun group => ivyBindingMatch message group ++ [argEnd]) ++ [lf]

def sendMatch (bufferArg : Str) (out : Ivy Code × Nat) (clnt : IvyClient) : Ivy Code × Nat :=
  (out.1.emit (.send clnt.client (header .msg clnt.id ++ bufferArg)), out.2 + 1)

def regexpCall (engine : Engine Code) (s : Ivy Code) (msg : MsgSndDict Code) (message : Str) :
    Ivy Code × Nat :=
  match ivyBindingExec engine msg.binding message with
  | none => (s, 0)
  | some groups => msg.clientList.foldl (sendMatch (bufferArg message groups)) (s, 0)

def regexpCallUnique (engine : Engine Code) (s : Ivy Code) (msg : MsgSndDict Code)
    (message : Str) (clientUnique : Handle) : Ivy Code × Nat :=
  match ivyBindingExec engine msg.binding message with
  | none => (s, 0)
  | some groups =>
    msg.clientList.foldl
      (fun out clnt =>
        if clnt.client = clientUnique then sendMatch (bufferArg message groups) out clnt else out)
      (s, 0)

def clientCall (engine : Engine Code) (s : Ivy Code) (client : Handle) (message : Str) :
    Ivy Code × Nat :=
  s.messSndByRegexp.foldl
    (fun out msgSendDict =>
      let call := regexpCallUnique engine out.1 msgSendDict message client
      (call.1, out.2 + call.2))
    (s, 0)

/-- A `char` is signed. -/
def ivyCheckBuffer (buffer : Str) : Bool := buffer.any fun b => b < 32 || 128 ≤ b

/-- `IvySendMsg` with the format `"%s"`. -/
def ivySendMsg (engine : Engine Code) (s : Ivy Code) (buffer : Str) : Ivy Code × Nat :=
  if s.debugBinaryMsg && ivyCheckBuffer buffer then (s, 0)
  else
    s.messSndByRegexp.foldl
      (fun out msgSendDict =>
        let call := regexpCall engine out.1 msgSendDict buffer
        (call.1, out.2 + call.2))
      (s, 0)

end IvyBus.Ivy
