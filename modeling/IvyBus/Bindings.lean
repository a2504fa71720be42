import IvyBus.Ivy
import IvyBus.Lib.Chain

namespace IvyBus.Ivy

open Lib

variable {Code : Type}

def msgSendToAll (s : Ivy Code) (msgtype : MsgType) (id : Int32) (message : Str) : Ivy Code :=
  s.allClients.foldl (fun s clnt => s.msgSendTo clnt.client msgtype id message) s

/-- The regexp is the text of the format after `substituteInterval`. The increment of `recv_id` is
undefined at its last value. -/
def ivyBindMsg (s : Ivy Code) (regexp : Str) : Option (Ivy Code) :=
  if s.recvId = Int32.maxValue then none
  else
    some ({ s with
      brk := s.brk + 1
      recvId := s.recvId + 1
      msgRecv := ⟨s.brk, s.recvId, regexp⟩ :: s.msgRecv }.msgSendToAll .addRegexp s.recvId regexp)

def ivyUnbindMsg (s : Ivy Code) (addr : Nat) : Option (Ivy Code) :=
  (s.msgRecv.find? (·.addr = addr)).map fun msg =>
    { s.msgSendToAll .delRegexp msg.id [] with msgRecv := unlink MsgRcv.addr addr s.msgRecv }

def ivyChangeMsg (s : Ivy Code) (addr : Nat) (regexp : Str) : Option (Ivy Code) :=
  (s.msgRecv.find? (·.addr = addr)).map fun msg =>
    let msgRecv := s.msgRecv.map fun (rcv : MsgRcv) =>
      if rcv.addr = addr then { rcv with regexp := regexp } else rcv
    { s with msgRecv := msgRecv }.msgSendToAll .addRegexp msg.id regexp

end IvyBus.Ivy
