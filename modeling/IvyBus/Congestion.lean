import IvyBus.Lib.Run
import IvyBus.Socket.Send

namespace IvyBus.Congestion

open Lib Fifo Socket

inductive IvyApplicationEvent
  | connected
  | disconnected
  | congestion
  | decongestion
  | fifoFull
  deriving DecidableEq

/-- The connection to a peer, freed by `DeleteSocket` when `client` is `none`, and the events that
`application_callback` has got about it. -/
structure Connection where
  client : Option Client
  log : List IvyApplicationEvent

def Connection.init : Connection := ⟨some Client.init, []⟩

def Connection.ifb (conn : Connection) : Option IvyFifoBuffer := conn.client.bind Client.ifb

/-- The `switch` of `MsgSendTo` and of `RegexpCall`. -/
def switchState : SendState → List IvyApplicationEvent
  | .sendStateChangeToCongestion => [.congestion]
  | .sendStateFifoFull => [.fifoFull]
  | _ => []

/-- `RegexpCallUnique` does not tell that the FIFO is full. -/
def testState (state : SendState) : List IvyApplicationEvent :=
  if state = .sendStateChangeToCongestion then [.congestion] else []

def Connection.sent (conn : Connection) (out : Client × SendState)
    (raised : SendState → List IvyApplicationEvent) : Connection :=
  ⟨some out.1, conn.log ++ raised out.2⟩

/-- `wakeUp` is a round of the loop in which `select` finds the socket writable. -/
inductive Op
  | msgSendTo (text : Block) (r : SendResult)
  | regexpCall (bufferId bufferArg : Block) (r1 r2 : SendResult)
  | regexpCallUnique (bufferId bufferArg : Block) (r1 r2 : SendResult)
  | wakeUp (answers : List SendResult)
  | endRegexp
  | delete

def Connection.next (conn : Connection) (op : Op) : Option Connection :=
  conn.client.bind fun client =>
    match op with
    | .msgSendTo text r => some (conn.sent (socketSendRaw client text r) switchState)
    | .regexpCall bufferId bufferArg r1 r2 =>
      some (conn.sent (socketSendRawWithId client bufferId bufferArg r1 r2) switchState)
    | .regexpCallUnique bufferId bufferArg r1 r2 =>
      some (conn.sent (socketSendRawWithId client bufferId bufferArg r1 r2) testState)
    | .wakeUp answers =>
      if client.writable then
        (handleCongestionWrite client answers).map fun out =>
          ⟨some out.1, conn.log ++ if out.2 then [.decongestion] else []⟩
      else some conn
    | .endRegexp => some ⟨some client, conn.log ++ [.connected]⟩
    | .delete => some ⟨none, conn.log ++ [.disconnected]⟩

inductive Phase
  | clear
  | congested
  | gone
  deriving DecidableEq

def Phase.next : Phase → IvyApplicationEvent → Option Phase
  | .clear, .congestion => some .congested
  | .congested, .decongestion => some .clear
  | .congested, .fifoFull => some .congested
  | .clear, .connected => some .clear
  | .congested, .connected => some .congested
  | .clear, .disconnected => some .gone
  | .congested, .disconnected => some .gone
  | _, _ => none

def phase (client : Option Client) : Phase :=
  match client with
  | none => .gone
  | some client => if client.ifb.isSome then .congested else .clear

section Phase

variable {p q : Phase} {log : List IvyApplicationEvent}

theorem keeps {p' : Phase} {event : IvyApplicationEvent}
    (hevent : event = .connected ∨ event = .fifoFull) (h : p.next event = some p') : p' = p := by
  rcases hevent with rfl | rfl
  · cases p with
    | clear => exact (Option.some.inj h).symm
    | congested => exact (Option.some.inj h).symm
    | gone => cases h
  · cases p with
    | congested => exact (Option.some.inj h).symm
    | clear => cases h
    | gone => cases h

end Phase

/-- What a call of `send` does to the FIFO and what it tells about that: whether there is a FIFO
before and after, and the state it returns. -/
inductive Told : Bool → SendState → Bool → Prop
  | ok : Told false .sendOk false
  | error : Told false .sendError false
  | installed : Told false .sendStateChangeToCongestion true
  | still : Told true .sendStillCongestion true
  | full : Told true .sendStateFifoFull true

structure Sent (client : Client) (out : Client × SendState) : Prop where
  told : Told client.ifb.isSome out.2 out.1.ifb.isSome
  writable : client.writable = client.ifb.isSome → out.1.writable = out.1.ifb.isSome

section Sent

variable {client : Client} {out : Client × SendState} {conn conn' : Connection}

theorem sent_bufferizedSocketSendRaw (client : Client) (buffer : Str) (r : SendResult) :
    Sent client (bufferizedSocketSendRaw client buffer r) := by
  obtain ⟨ifb, writable, kernel⟩ := client
  cases ifb with
  | some ifb =>
    refine ⟨?_, id⟩
    dsimp only [bufferizedSocketSendRaw]
    split
    · exact .full
    · exact .still
  | none =>
    dsimp only [bufferizedSocketSendRaw]
    split
    · exact ⟨.ok, id⟩
    · split
      · split
        · exact ⟨.installed, fun _ => rfl⟩
        · exact ⟨.error, id⟩
      · exact ⟨.installed, fun _ => rfl⟩

theorem Told.merge {b b' b'' : Bool} {s1 s2 : SendState} (h1 : Told b s1 b') (h2 : Told b' s2 b'') :
    Told b (if s1 = .sendStateChangeToCongestion then s1 else s2) b'' := by
  cases h1 with
  | ok => exact h2
  | error => exact h2
  | installed => cases h2 <;> exact .installed
  | still => exact h2
  | full => exact h2

theorem sent_socketSendRawWithId (client : Client) (id buffer : Str) (r1 r2 : SendResult) :
    Sent client (socketSendRawWithId client id buffer r1 r2) := by
  have h1 := sent_bufferizedSocketSendRaw client id r1
  have h2 := sent_bufferizedSocketSendRaw (bufferizedSocketSendRaw client id r1).1 buffer r2
  exact ⟨h1.told.merge h2.told, fun h => h2.writable (h1.writable h)⟩

theorem Told.raised {b b' : Bool} {state : SendState} (h : Told b state b')
    {raised : List IvyApplicationEvent} (hraised : raised = switchState state ∨
      raised = testState state) :
    run Phase.next (if b then .congested else .clear) raised =
        some (if b' then .congested else .clear) ∧
      raised.count .congestion = if !b ∧ b' then 1 else 0 := by
  rcases hraised with rfl | rfl <;> cases h <;> exact ⟨rfl, rfl⟩

end Sent

def Connection.Wf (conn : Connection) : Prop :=
  ∀ client, conn.client = some client → client.writable = client.ifb.isSome

structure Stepped (conn conn' : Connection) (raised : List IvyApplicationEvent) : Prop where
  wf : conn'.Wf
  log_eq : conn'.log = conn.log ++ raised
  seen : run Phase.next (phase conn.client) raised = some (phase conn'.client)
  installs : raised.count .congestion = if conn.ifb.isNone ∧ conn'.ifb.isSome then 1 else 0

section Step

variable {conn conn' : Connection} {client : Client}

theorem Connection.Wf.sent (h : conn.Wf) (hclient : conn.client = some client)
    {out : Client × SendState} (hout : Sent client out)
    {raised : SendState → List IvyApplicationEvent} (hraised : raised = switchState ∨
      raised = testState) : Stepped conn (conn.sent out raised) (raised out.2) := by
  obtain ⟨hseen, hcount⟩ := hout.told.raised
    (hraised.imp (congrFun · out.2) (congrFun · out.2))
  refine ⟨fun client' hclient' => ?_, rfl, ?_, ?_⟩
  · obtain rfl := Option.some.inj hclient'
    exact hout.writable (h client hclient)
  · rw [hclient]
    exact hseen
  · rw [hcount, Connection.ifb, hclient]
    simp [Connection.ifb, Connection.sent]

theorem Connection.Wf.wakeUp (h : conn.Wf) (hclient : conn.client = some client)
    (hwritable : client.writable = true) (answers : List SendResult) :
    ∃ out, handleCongestionWrite client answers = some out ∧
      Stepped conn ⟨some out.1, conn.log ++ if out.2 then [.decongestion] else []⟩
        (if out.2 then [.decongestion] else []) := by
  obtain ⟨ifb, hifb⟩ := Option.isSome_iff_exists.mp ((h client hclient).symm.trans hwritable)
  rw [handleCongestionWrite, hifb]
  dsimp only
  split
  · refine ⟨_, rfl, fun client' hclient' => ?_, rfl, ?_, ?_⟩
    · rw [← Option.some.inj hclient']
      rfl
    · rw [hclient, phase, hifb]
      rfl
    · simp [Connection.ifb]
  · refine ⟨_, rfl, fun client' hclient' => ?_, rfl, ?_, ?_⟩
    · rw [← Option.some.inj hclient']
      exact hwritable
    · rw [hclient, phase, hifb]
      rfl
    · simp [Connection.ifb, hclient, hifb]

theorem Connection.Wf.next (h : conn.Wf) (hclient : conn.client = some client) (op : Op) :
    ∃ conn' raised, conn.next op = some conn' ∧ Stepped conn conn' raised := by
  rw [Connection.next, hclient, Option.bind_some]
  cases op with
  | msgSendTo text r =>
    exact ⟨_, _, rfl, h.sent hclient (sent_bufferizedSocketSendRaw ..) (Or.inl rfl)⟩
  | regexpCall bufferId bufferArg r1 r2 =>
    exact ⟨_, _, rfl, h.sent hclient (sent_socketSendRawWithId ..) (Or.inl rfl)⟩
  | regexpCallUnique bufferId bufferArg r1 r2 =>
    exact ⟨_, _, rfl, h.sent hclient (sent_socketSendRawWithId ..) (Or.inr rfl)⟩
  | wakeUp answers =>
    dsimp only
    split
    · rename_i hwritable
      obtain ⟨out, hout, hstep⟩ := h.wakeUp hclient hwritable answers
      exact ⟨_, _, by rw [hout]; rfl, hstep⟩
    · exact ⟨conn, [], rfl, h, (List.append_nil _).symm, rfl, by simp⟩
  | endRegexp =>
    refine ⟨_, [.connected], rfl, fun client' hclient' => ?_, rfl, ?_, ?_⟩
    · obtain rfl := Option.some.inj hclient'
      exact h client hclient
    · rw [hclient]
      cases hifb : client.ifb <;> simp [run, phase, hifb, Phase.next]
    · simp [Connection.ifb, hclient]
  | delete =>
    refine ⟨_, [.disconnected], rfl, fun _ hnone => (by cases hnone), rfl, ?_,
      by simp [Connection.ifb]⟩
    rw [hclient]
    cases hifb : client.ifb <;> simp [run, phase, hifb, Phase.next]

end Step

theorem wf_init : Connection.init.Wf := by
  intro client hclient
  rw [← Option.some.inj hclient]
  rfl

end IvyBus.Congestion
