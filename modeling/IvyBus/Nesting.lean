import IvyBus.PointersLaws

namespace IvyBus.Nesting

open Lib Ivy Fifo Socket Pointers

variable {Code : Type}

/-- An application in a call of `IvySendMsg`. Of what is still to be done, the first `inner` acts
are those of the calls that callbacks have made meanwhile, and behind them stand the `outer` ones
of the call itself. `lines` is what the call has sent. -/
structure Nested (Code : Type) where
  agent : Agent Code
  inner : Nat
  outer : Nat
  lines : List Output

/-- What can happen during the call: the next act is done, or the application calls `IvySendMsg`
again before it, as it may in the callback of a send. -/
inductive Event
  | proceed (r1 r2 : SendResult)
  | ivySendMsg (message : Str)

def start (a : Agent Code) (message : Str) : Nested Code :=
  ⟨a.ivySendMsg message, 0, (a.ivySendMsg message).pending.length - a.pending.length, []⟩

def lineOf (a : Agent Code) : Act Code → List Output
  | .sendMsg clnt => [matchLine a.bufferArg clnt]
  | _ => []

def Nested.proceed (s : Nested Code) (a : Agent Code) : Nested Code :=
  let put := a.pending.length + 1 - s.agent.pending.length
  if 0 < s.inner then { s with agent := a, inner := s.inner - 1 + put }
  else if 0 < s.outer then
    { s with
      agent := a
      outer := s.outer - 1 + put
      lines := s.lines ++ s.agent.pending.head?.elim [] (lineOf s.agent) }
  else { s with agent := a }

def Nested.ivySendMsg (s : Nested Code) (a : Agent Code) : Nested Code :=
  { s with agent := a, inner := s.inner + (a.pending.length - s.agent.pending.length) }

def next (engine : Engine Code) (s : Nested Code) : Event → Option (Nested Code)
  | .proceed r1 r2 => (Pointers.next engine s.agent (.proceed r1 r2)).map s.proceed
  | .ivySendMsg message => (Pointers.next engine s.agent (.ivySendMsg message)).map s.ivySendMsg

/-- The lines that the call has to send: one for each client of each regexp that the message
matches, with the captures of the message. -/
def due (engine : Engine Code) (a : Agent Code) (message : Str) : List Output :=
  if a.ivy.debugBinaryMsg && ivyCheckBuffer message then [] else sendLines engine a.ivy message

def Continues (engine : Engine Code) (a : Agent Code) (message : Str) (s : Nested Code) : Prop :=
  s.lines <+: due engine a message ∧ (s.outer = 0 → s.lines = due engine a message)

def Nested.innerActs (s : Nested Code) : List (Act Code) := s.agent.pending.take s.inner

def Nested.outerActs (s : Nested Code) : List (Act Code) :=
  (s.agent.pending.drop s.inner).take s.outer

def args (engine : Engine Code) (message : Str) (msg : MsgSndDict Code) : Option Str :=
  (ivyBindingExec engine msg.binding message).map (bufferArg message)

/-- What `bufferArg` is after some acts with the text in the buffer: what the last of the regexps
that match has put into it. -/
def settled (engine : Engine Code) (message arg : Str) (acts : List (Act Code)) : Str :=
  acts.foldl (fun arg act =>
    match act with
    | .regexpCall msg => (args engine message msg).getD arg
    | _ => arg) arg

/-- What an act of the outer call finds is the same: a regexp that the call has not come to takes
the new text as it takes the one in the buffer, and for a client of the regexp that it is at, the
last one that the new text matches puts back into `bufferArg` what the client is to get. -/
def Untouched (engine : Engine Code) (s s' : Nested Code) : Act Code → Prop
  | .regexpCall msg => args engine s'.agent.buffer msg = args engine s.agent.buffer msg
  | .sendMsg _ => settled engine s'.agent.buffer s'.agent.bufferArg s'.innerActs =
      settled engine s.agent.buffer s.agent.bufferArg s.innerActs
  | _ => True

instance (engine : Engine Code) (s s' : Nested Code) : DecidablePred (Untouched engine s s') :=
  fun act => by cases act <;> unfold Untouched <;> infer_instance

/-- The calls in callbacks that leave all of the outer one alone. -/
def Harmless (engine : Engine Code) (s : Nested Code) : Event → Prop
  | .proceed _ _ => True
  | .ivySendMsg message => ∀ act ∈ s.outerActs,
      Untouched engine s (s.ivySendMsg (s.agent.ivySendMsg message)) act

instance (engine : Engine Code) (s : Nested Code) : DecidablePred (Harmless engine s) :=
  fun e => by cases e <;> unfold Harmless <;> infer_instance

section Perform

variable {engine : Engine Code} {a : Agent Code} {r1 r2 : SendResult}

theorem raise_eq {α : Type} (f : Agent Code → α) (hf : ∀ a call, f (a.call call) = f a) (c : Handle)
    (app : Nat) (events : List Congestion.IvyApplicationEvent) (a : Agent Code) :
    f (events.foldl (fun a event => a.call ⟨c, some app, .application event⟩) a) = f a := by
  induction events generalizing a with
  | nil => rfl
  | cons event events ih => exact (ih _).trans (hf a _)

theorem perform_sendMsg (engine : Engine Code) (a : Agent Code) (r1 r2 : SendResult)
    (clnt : IvyClient) : (perform engine a r1 r2 (.sendMsg clnt)).pending = a.pending ∧
      (perform engine a r1 r2 (.sendMsg clnt)).buffer = a.buffer ∧
      (perform engine a r1 r2 (.sendMsg clnt)).bufferArg = a.bufferArg :=
  ⟨raise_eq Agent.pending (fun _ _ => rfl) _ _ _ _, raise_eq Agent.buffer (fun _ _ => rfl) _ _ _ _,
    raise_eq Agent.bufferArg (fun _ _ => rfl) _ _ _ _⟩

/-- The line of an act is what `SocketSendRawWithId` is given, in its two parts. -/
theorem lineOf_sendMsg (engine : Engine Code) (a : Agent Code) (r1 r2 : SendResult)
    (clnt : IvyClient) : ∃ id body, lineOf a (.sendMsg clnt) = [.send clnt.client (id ++ body)] ∧
      perform engine a r1 r2 (.sendMsg clnt) = a.sent clnt.client clnt.addr
        (socketSendRawWithId (a.sock clnt.client) id body r1 r2) Congestion.switchState :=
  ⟨header .msg clnt.id, a.bufferArg, rfl, rfl⟩

theorem callLines_eq (engine : Engine Code) (message : Str) (msg : MsgSndDict Code) :
    callLines engine message msg =
      (args engine message msg).elim [] fun arg => msg.clientList.map (matchLine arg) := by
  rw [callLines, args]
  cases ivyBindingExec engine msg.binding message <;> rfl

theorem perform_regexpCall_args (engine : Engine Code) (a : Agent Code) (r1 r2 : SendResult)
    (msg : MsgSndDict Code) : ∃ clnts : List IvyClient,
      (perform engine a r1 r2 (.regexpCall msg)).pending = clnts.map .sendMsg ++ a.pending ∧
      (perform engine a r1 r2 (.regexpCall msg)).buffer = a.buffer ∧
      (perform engine a r1 r2 (.regexpCall msg)).bufferArg =
        (args engine a.buffer msg).getD a.bufferArg ∧
      callLines engine a.buffer msg =
        clnts.map (matchLine ((args engine a.buffer msg).getD a.bufferArg)) := by
  rw [callLines_eq, perform, args]
  cases ivyBindingExec engine msg.binding a.buffer with
  | none => exact ⟨[], rfl, rfl, rfl, rfl⟩
  | some groups => exact ⟨msg.clientList, rfl, rfl, rfl, rfl⟩

/-- The acts of a call of `IvySendMsg`. -/
def Sending : Act Code → Prop
  | .regexpCall _ => True
  | .sendMsg _ => True
  | _ => False

theorem settled_sendMsg (engine : Engine Code) (message arg : Str) (clnts : List IvyClient)
    (acts : List (Act Code)) :
    settled engine message arg (clnts.map .sendMsg ++ acts) = settled engine message arg acts := by
  induction clnts with
  | nil => rfl
  | cons clnt clnts ih => exact ih

theorem perform_sending {act : Act Code} (hact : Sending act) (acts rest : List (Act Code))
    (ha : a.pending = acts ++ rest) : ∃ put,
      (perform engine a r1 r2 act).pending = put ++ (acts ++ rest) ∧
      (perform engine a r1 r2 act).buffer = a.buffer ∧ (∀ act ∈ put, Sending act) ∧
      settled engine a.buffer (perform engine a r1 r2 act).bufferArg (put ++ acts) =
        settled engine a.buffer a.bufferArg (act :: acts) := by
  cases act with
  | sendMsg clnt =>
    obtain ⟨hpending, hbuffer, harg⟩ := perform_sendMsg engine a r1 r2 clnt
    refine ⟨[], hpending.trans ha, hbuffer, nofun, ?_⟩
    rw [harg]
    rfl
  | regexpCall msg =>
    obtain ⟨clnts, hpending, hbuffer, harg, -⟩ := perform_regexpCall_args engine a r1 r2 msg
    refine ⟨clnts.map .sendMsg, hpending.trans (by rw [ha]), hbuffer, ?_, ?_⟩
    · intro act hact
      obtain ⟨clnt, -, rfl⟩ := List.mem_map.mp hact
      trivial
    · rw [settled_sendMsg, harg]
      rfl
  | _ => cases hact

end Perform

section Run

variable {engine : Engine Code} {a a' : Agent Code} {s s' : Nested Code} {lines : List Output}

/-- The lines that the outer call has sent, and those that it will send when no callback comes
between any more, are those that are due. -/
def Inv (engine : Engine Code) (lines : List Output) (s : Nested Code) : Prop :=
  ∃ (inner : List (Act Code)) (clnts : List IvyClient) (msgs : List (MsgSndDict Code))
    (rest : List (Act Code)),
    s.agent.pending = inner ++ ((clnts.map .sendMsg ++ msgs.map .regexpCall) ++ rest) ∧
    s.inner = inner.length ∧ s.outer = clnts.length + msgs.length ∧ (∀ act ∈ inner, Sending act) ∧
    s.lines ++ (clnts.map (matchLine (settled engine s.agent.buffer s.agent.bufferArg inner)) ++
      msgs.flatMap (callLines engine s.agent.buffer)) = lines

theorem Inv.continues {message : Str} (h : Inv engine (due engine a message) s) :
    Continues engine a message s := by
  obtain ⟨inner, clnts, msgs, rest, -, -, houter, -, hlines⟩ := h
  refine ⟨⟨_, hlines⟩, fun hzero => ?_⟩
  rw [houter, Nat.add_eq_zero_iff, List.length_eq_zero_iff, List.length_eq_zero_iff] at hzero
  rw [← hlines, hzero.1, hzero.2]
  exact (List.append_nil _).symm

theorem ivySendMsg_pending (a : Agent Code) (message : Str) : ∃ msgs : List (MsgSndDict Code),
    (a.ivySendMsg message).pending = msgs.map .regexpCall ++ a.pending ∧
      due engine a message = msgs.flatMap (callLines engine message) := by
  rw [Agent.ivySendMsg, due]
  split
  · exact ⟨[], rfl, rfl⟩
  · exact ⟨a.ivy.messSndByRegexp, rfl, rfl⟩

theorem length_sub_of_append {α : Type} {l put rest : List α} (h : l = put ++ rest) :
    l.length - rest.length = put.length := by
  rw [h, List.length_append, Nat.add_sub_cancel]

theorem inv_start (engine : Engine Code) (a : Agent Code) (message : Str) :
    Inv engine (due engine a message) (start a message) := by
  obtain ⟨msgs, hpending, hdue⟩ := @ivySendMsg_pending Code engine a message
  refine ⟨[], [], msgs, a.pending, hpending, rfl, ?_, nofun, hdue.symm⟩
  rw [List.length_nil, Nat.zero_add, ← List.length_map (f := Act.regexpCall)]
  exact length_sub_of_append hpending

theorem proceed_inner {put : Nat} (hpos : 0 < s.inner)
    (hput : a.pending.length + 1 - s.agent.pending.length = put) :
    s.proceed a = { s with agent := a, inner := s.inner - 1 + put } := by
  rw [Nested.proceed, hput]
  exact if_pos hpos

theorem proceed_outer {put : Nat} {act : Act Code} {pending : List (Act Code)}
    (hpending : s.agent.pending = act :: pending) (hinner : s.inner = 0) (hpos : 0 < s.outer)
    (hput : a.pending.length + 1 - s.agent.pending.length = put) :
    s.proceed a = { s with
      agent := a
      outer := s.outer - 1 + put
      lines := s.lines ++ lineOf s.agent act } := by
  rw [Nested.proceed, hput, hpending]
  exact (if_neg (by omega)).trans (if_pos hpos)

theorem length_put {act : Act Code} {pending put l : List (Act Code)} (h : l = put ++ pending) :
    l.length + 1 - (act :: pending).length = put.length := by
  rw [h, List.length_append, List.length_cons]
  omega

theorem Inv.proceed (h : Inv engine lines s) {act : Act Code} {pending : List (Act Code)}
    (hpending : s.agent.pending = act :: pending) (r1 r2 : SendResult) :
    Inv engine lines
      (s.proceed (perform engine { s.agent with pending := pending } r1 r2 act)) := by
  obtain ⟨inner, clnts, msgs, rest, hsplit, hinner, houter, hsending, hlines⟩ := h
  rw [hpending] at hsplit
  cases inner with
  | cons first inner =>
    obtain ⟨rfl, hpending'⟩ := List.cons.inj hsplit
    obtain ⟨hact, hsending⟩ := List.forall_mem_cons.mp hsending
    obtain ⟨put, hput, hbuffer, hputSending, hsettled⟩ := @perform_sending Code engine
      { s.agent with pending := pending } r1 r2 act hact inner _ hpending'
    rw [proceed_inner (by rw [hinner]; exact Nat.succ_pos _)
      (hpending ▸ length_put (hput.trans (congrArg (put ++ ·) hpending'.symm)))]
    refine ⟨put ++ inner, clnts, msgs, rest, ?_, ?_, houter, ?_, ?_⟩
    · exact hput.trans (List.append_assoc _ _ _).symm
    · change s.inner - 1 + put.length = _
      rw [hinner, List.length_cons, List.length_append]
      omega
    · exact fun x hx => (List.mem_append.mp hx).elim (hputSending x) (hsending x)
    · change s.lines ++ (clnts.map (matchLine (settled engine
        (perform engine { s.agent with pending := pending } r1 r2 act).buffer _ _)) ++
          msgs.flatMap (callLines engine
            (perform engine { s.agent with pending := pending } r1 r2 act).buffer)) = _
      rw [hbuffer, hsettled]
      exact hlines
  | nil =>
    rw [List.length_nil] at hinner
    cases clnts with
    | cons clnt clnts =>
      -- a line of the outer call is sent
      obtain ⟨rfl, hpending'⟩ := List.cons.inj hsplit
      obtain ⟨hput, hbuffer, harg⟩ :=
        perform_sendMsg engine { s.agent with pending := pending } r1 r2 clnt
      rw [List.length_cons] at houter
      rw [proceed_outer hpending hinner (by omega)
        (hpending ▸ length_put (hput.trans (List.nil_append _).symm))]
      refine ⟨[], clnts, msgs, rest, hput.trans hpending', hinner, ?_, nofun, ?_⟩
      · change s.outer - 1 + 0 = _
        omega
      · change (s.lines ++ [matchLine s.agent.bufferArg clnt]) ++ (clnts.map (matchLine
          (perform engine { s.agent with pending := pending } r1 r2 (.sendMsg clnt)).bufferArg) ++
            msgs.flatMap (callLines engine
              (perform engine { s.agent with pending := pending } r1 r2
                (.sendMsg clnt)).buffer)) = _
        rw [hbuffer, harg, List.append_assoc]
        exact hlines
    | nil =>
      cases msgs with
      | cons msg msgs =>
        -- the outer call comes to the next regexp
        obtain ⟨rfl, hpending'⟩ := List.cons.inj hsplit
        obtain ⟨clnts, hput, hbuffer, harg, hcall⟩ :=
          perform_regexpCall_args engine { s.agent with pending := pending } r1 r2 msg
        rw [List.length_nil, List.length_cons] at houter
        rw [proceed_outer hpending hinner (by omega) (hpending ▸ length_put hput)]
        refine ⟨[], clnts, msgs, rest, ?_, hinner, ?_, nofun, ?_⟩
        · rw [List.nil_append, List.append_assoc]
          exact hput.trans (congrArg _ hpending')
        · change s.outer - 1 + (clnts.map Act.sendMsg).length = _
          rw [List.length_map]
          omega
        · change (s.lines ++ []) ++ (clnts.map (matchLine
            (perform engine { s.agent with pending := pending } r1 r2
              (.regexpCall msg)).bufferArg) ++
              msgs.flatMap (callLines engine
                (perform engine { s.agent with pending := pending } r1 r2
                  (.regexpCall msg)).buffer)) = _
          rw [List.append_nil, hbuffer, harg, ← hcall]
          exact hlines
      | nil =>
        have hover : s.outer = 0 := houter
        have hstays : s.proceed (perform engine { s.agent with pending := pending } r1 r2 act) =
            { s with agent := perform engine { s.agent with pending := pending } r1 r2 act } := by
          rw [Nested.proceed]
          exact (if_neg (by omega)).trans (if_neg (by omega))
        rw [hstays]
        exact ⟨[], [], [], _, rfl, hinner, hover, nofun, hlines⟩

theorem Inv.ivySendMsg (h : Inv engine lines s) {message : Str}
    (hharmless : Harmless engine s (.ivySendMsg message)) :
    Inv engine lines (s.ivySendMsg (s.agent.ivySendMsg message)) := by
  obtain ⟨inner, clnts, msgs, rest, hsplit, hinner, houter, hsending, hlines⟩ := h
  obtain ⟨put, hput, -⟩ := @ivySendMsg_pending Code engine s.agent message
  have hlength : (clnts.map .sendMsg ++ msgs.map .regexpCall : List (Act Code)).length =
      s.outer := by
    rw [List.length_append, List.length_map, List.length_map, houter]
  have houterActs : s.outerActs = clnts.map .sendMsg ++ msgs.map .regexpCall := by
    rw [Nested.outerActs, hsplit, List.drop_left' hinner.symm, List.take_left' hlength]
  have hinnerActs : s.innerActs = inner := by
    rw [Nested.innerActs, hsplit, List.take_left' hinner.symm]
  have hcount : (s.agent.ivySendMsg message).pending.length - s.agent.pending.length =
      put.length := (length_sub_of_append hput).trans (List.length_map _)
  have hsplit' : (s.agent.ivySendMsg message).pending = (put.map .regexpCall ++ inner) ++
      ((clnts.map .sendMsg ++ msgs.map .regexpCall) ++ rest) := by
    rw [hput, hsplit]
    exact (List.append_assoc _ _ _).symm
  have hinner' : s.inner + put.length = (put.map Act.regexpCall ++ inner).length := by
    rw [List.length_append, List.length_map, hinner, Nat.add_comm]
  have hnewActs : (s.ivySendMsg (s.agent.ivySendMsg message)).innerActs =
      put.map .regexpCall ++ inner := by
    rw [Nested.innerActs, Nested.ivySendMsg, hcount]
    exact (congrArg _ hsplit').trans (List.take_left' hinner'.symm)
  have huntouched : ∀ act ∈ clnts.map .sendMsg ++ msgs.map .regexpCall,
      Untouched engine s (s.ivySendMsg (s.agent.ivySendMsg message)) act := houterActs ▸ hharmless
  rw [Nested.ivySendMsg, hcount]
  refine ⟨put.map .regexpCall ++ inner, clnts, msgs, rest, hsplit', hinner', houter, ?_, ?_⟩
  · intro act hact
    rcases List.mem_append.mp hact with hact | hact
    · obtain ⟨msg, -, rfl⟩ := List.mem_map.mp hact
      trivial
    · exact hsending act hact
  · rw [← hlines]
    congr 2
    · cases clnts with
      | nil => rfl
      | cons clnt clnts =>
        have hsame := huntouched (.sendMsg clnt) (List.mem_append_left _ List.mem_cons_self)
        rw [Untouched, hinnerActs, hnewActs] at hsame
        rw [← hsame]
        rfl
    · refine List.flatMap_congr fun msg hmsg => ?_
      have hsame := huntouched (.regexpCall msg)
        (List.mem_append_right _ (List.mem_map_of_mem hmsg))
      rw [Untouched] at hsame
      rw [callLines_eq, callLines_eq, ← hsame]
      rfl

theorem Inv.next (h : Inv engine lines s) {e : Event} (hharmless : Harmless engine s e) :
    ∃ s', next engine s e = some s' ∧ Inv engine lines s' := by
  cases e with
  | proceed r1 r2 =>
    cases hpending : s.agent.pending with
    | nil =>
      obtain ⟨inner, clnts, msgs, rest, hsplit, hinner, houter, -, -⟩ := id h
      rw [hpending] at hsplit
      obtain ⟨hnil, hrest⟩ := List.append_eq_nil_iff.mp hsplit.symm
      obtain ⟨hacts, -⟩ := List.append_eq_nil_iff.mp hrest
      have hlength := congrArg List.length hacts
      rw [List.length_append, List.length_map, List.length_map, List.length_nil] at hlength
      rw [hnil, List.length_nil] at hinner
      have hstays : s.proceed s.agent = s := by
        rw [Nested.proceed]
        exact (if_neg (by omega)).trans (if_neg (by omega))
      refine ⟨s, ?_, h⟩
      rw [Nesting.next, Pointers.next, hpending]
      exact congrArg some hstays
    | cons act pending =>
      refine ⟨_, ?_, h.proceed hpending r1 r2⟩
      rw [Nesting.next, Pointers.next, hpending]
      rfl
  | ivySendMsg message =>
    rw [Nesting.next, Pointers.next]
    split
    · refine ⟨_, rfl, ?_⟩
      rw [Nested.ivySendMsg, Nat.sub_self, Nat.add_zero]
      exact h
    · exact ⟨_, rfl, h.ivySendMsg hharmless⟩

/-- In every run in which the callbacks of an outer call make harmless calls only, the outer call
goes on as it would without them, and sends the lines that are due. -/
theorem nested_calls_kept (engine : Engine Code) (a : Agent Code) (message : Str)
    (es : List Event) (hharmless : Along (next engine) (Harmless engine) (start a message) es) :
    ∃ s, run (next engine) (start a message) es = some s ∧ Continues engine a message s :=
  let ⟨s, hs, hinv⟩ := run_defined (fun _ _ h hq => h.next hq) (inv_start engine a message)
    hharmless
  ⟨s, hs, hinv.continues⟩

end Run

section Clobbered

def twoPeers : List Pointers.Event :=
  [.connect 1 ⟨1, 0, 0⟩ [], .proceed (.room 100) (.room 100), .proceed (.room 100) (.room 100),
    .receive 1 (header .addRegexp 5 ++ ascii "foo"), .proceed (.room 100) (.room 100),
    .connect 2 ⟨2, 0, 0⟩ [], .proceed (.room 100) (.room 100), .proceed (.room 100) (.room 100),
    .receive 2 (header .addRegexp 6 ++ ascii "bar"), .proceed (.room 100) (.room 100)]

def served : Agent Str :=
  (run (Pointers.next literal) (alone default allHooks) twoPeers).getD (alone default allHooks)

def congested : List Event := [.proceed (.room 100) (.room 100), .proceed .wouldBlock .wouldBlock]

def done (n : Nat) : List Event := List.replicate n (.proceed (.room 100) (.room 100))

theorem harmless_proceeds {Code : Type} (engine : Engine Code) (s : Nested Code)
    (rs : List (SendResult × SendResult)) :
    Along (next engine) (Harmless engine) s (rs.map fun r => .proceed r.1 r.2) := by
  induction rs generalizing s with
  | nil => trivial
  | cons r rs ih => exact ⟨trivial, fun s' _ => ih s'⟩

/-- A callback sends another text that both regexps match, with as many captures. -/
theorem nested_calls_kept_alike : ∃ s,
    run (next literal) (start served (ascii "foobar"))
      (congested ++ .ivySendMsg (ascii "bar, foo") :: done 6) = some s ∧
      Continues literal served (ascii "foobar") s := by
  refine nested_calls_kept literal served (ascii "foobar") _ (along_append ?_ fun t ht => ?_)
  · exact harmless_proceeds literal _ [(.room 100, .room 100), (.wouldBlock, .wouldBlock)]
  · have hcall : (run (next literal) (start served (ascii "foobar")) congested).map (fun t =>
        decide (Harmless literal t (.ivySendMsg (ascii "bar, foo")))) = some true := by
      decide +kernel
    rw [ht] at hcall
    refine ⟨of_decide_eq_true (Option.some.inj hcall), fun t' _ => ?_⟩
    exact harmless_proceeds literal t' (List.replicate 6 (.room 100, .room 100))

/-- A callback sends a text that is matched by nothing, and the regexp that the outer call comes to
next does not match any more. -/
theorem nested_call_clobbers :
    (run (next literal) (start served (ascii "foobar")) congested).bind (·.agent.log.getLast?) =
      some ⟨1, some 1, .application .congestion⟩ ∧
    due literal served (ascii "foobar") =
      [.send 1 (header .msg 5 ++ [lf]), .send 2 (header .msg 6 ++ [lf])] ∧
    ∃ s, run (next literal) (start served (ascii "foobar"))
        (congested ++ .ivySendMsg (ascii "x") :: done 3) = some s ∧
      s.outer = 0 ∧ s.lines = [.send 1 (header .msg 5 ++ [lf])] ∧
      ¬ Continues literal served (ascii "foobar") s := by
  have hdue : due literal served (ascii "foobar") =
      [.send 1 (header .msg 5 ++ [lf]), .send 2 (header .msg 6 ++ [lf])] := by decide +kernel
  have hrun : (run (next literal) (start served (ascii "foobar"))
      (congested ++ .ivySendMsg (ascii "x") :: done 3)).map (fun s => (s.outer, s.lines)) =
        some (0, [.send 1 (header .msg 5 ++ [lf])]) := by decide +kernel
  obtain ⟨s, hs, hend⟩ := Option.map_eq_some_iff.mp hrun
  obtain ⟨houter, hlines⟩ := Prod.ext_iff.mp hend
  refine ⟨by decide +kernel, hdue, s, hs, houter, hlines, fun h => ?_⟩
  have hall := (h.2 houter).symm.trans hlines
  rw [hdue] at hall
  cases hall

end Clobbered

end IvyBus.Nesting
