import IvyBus.Socket.Lines
import IvyBus.WireLaws

namespace IvyBus.Connection

open Lib Socket Fifo

abbrev Parcel := { m : Message // m.bytes.length < uintRange / 2 }

namespace Parcel

variable (m : Parcel)

theorem bytes_eq : header m.1.kind m.1.id ++ (m.1.text ++ [lf]) = m.1.bytes :=
  (List.append_assoc ..).symm

theorem length_add : (header m.1.kind m.1.id).length + (m.1.text ++ [lf]).length =
    m.1.bytes.length := by
  rw [← m.bytes_eq]
  exact List.length_append.symm

def block : Block := ⟨m.1.bytes, m.2⟩

def id : Block :=
  ⟨header m.1.kind m.1.id, (m.length_add ▸ Nat.le_add_right ..).trans_lt m.2⟩

def body : Block := ⟨m.1.text ++ [lf], (m.length_add ▸ Nat.le_add_left ..).trans_lt m.2⟩

end Parcel

/-- `MsgSendTo` passes a line in one block and `RegexpCall` in two. -/
inductive Call
  | msgSendTo (m : Parcel) (r : SendResult)
  | regexpCall (m : Parcel) (r1 r2 : SendResult)

namespace Call

def message : Call → Message
  | .msgSendTo m _ => m
  | .regexpCall m _ _ => m

def event : Call → Event
  | .msgSendTo m r => .send m.block r
  | .regexpCall m r1 r2 => .sendWithId m.id m.body r1 r2

end Call

instance Fate.decidableComplete : (x : Fate) → Decidable x.Complete
  | .sent => .isTrue trivial
  | .split _ => .isTrue trivial
  | .headOnly _ => .isFalse id
  | .queued => .isTrue trivial
  | .lost => .isFalse id

structure State where
  client : Client
  received : Nat
  reader : Reader

namespace State

def init : State := ⟨Client.init, 0, Reader.init⟩

/-- What `recv()` gives when `n` bytes, or all, have arrived. -/
def recv (s : State) (n : Nat) : Str :=
  (s.client.kernel.drop s.received).take (min n (nbToRead s.reader.client))

def unread (s : State) : Str := s.client.stream.drop s.received

end State

inductive Act
  | call (c : Call)
  | wakeUp (answers : List SendResult)
  | read (n : Nat)

def step (s : State) : Act → Option State
  | .call c => (c.event.next s.client).map fun client => { s with client }
  | .wakeUp answers => (Socket.wakeUp s.client answers).map fun client => { s with client }
  | .read n =>
    if s.recv n = [] then some s
    else (s.reader.next (s.recv n)).map fun reader =>
      { s with received := s.received + (s.recv n).length, reader }

def Fits (s : State) : Act → Prop
  | .call c => LineFits s.client c.event
  | .wakeUp answers => s.client.DrainSucceeds answers
  | .read _ => True

def posted (s : State) : Act → List Message
  | .call c => if ∀ p ∈ c.event.fates s.client, p.2.Complete then [c.message] else []
  | _ => []

def post : State → List Act → List Message
  | _, [] => []
  | s, act :: acts => posted s act ++ (step s act).elim [] fun s' => post s' acts

def sent (acts : List Act) : List Message :=
  acts.flatMap fun
    | .call c => [c.message]
    | _ => []

/-- What a connection is for: a queue of messages. -/
structure Queue where
  delivered : List Message
  waiting : List Message

/-- The stream that has not been read completes the messages that wait. -/
structure Carries (s : State) (q : Queue) : Prop where
  client : s.client.Wf
  reader : s.reader.client.Wf
  terminator : s.reader.client.terminator = lf
  received : s.received ≤ s.client.kernel.length
  waiting : feed lf s.reader.client.held s.unread = (q.waiting.map Message.line, [])
  delivered : s.reader.lines = q.delivered.map Message.line

theorem carries_init : Carries State.init ⟨[], []⟩ where
  client := wf_init
  reader := wf_receiver_init
  terminator := rfl
  received := Nat.le_refl 0
  waiting := rfl
  delivered := rfl

/-! What a call adds to the stream is its line, or nothing. -/

theorem forall_pair {P : Fate → Prop} {p p' : Str × Fate} (h : P p.2 ∧ P p'.2) :
    ∀ x ∈ [p, p'], P x.2 :=
  List.forall_mem_cons.mpr ⟨h.1, List.forall_mem_singleton.mpr h.2⟩

theorem undivided_call {client : Client} {c : Call} (h : Undivided client c.event) :
    (∀ p ∈ c.event.fates client, p.2.Complete) ∨ ∀ p ∈ c.event.fates client, p.2.Void := by
  cases c with
  | msgSendTo m r =>
    exact h.imp (fun h => List.forall_mem_singleton.mpr h) fun h => List.forall_mem_singleton.mpr h
  | regexpCall m r1 r2 => exact h.imp (fun h => forall_pair h) fun h => forall_pair h

theorem not_complete {x : Fate} (h : x.Void) : ¬ x.Complete := by
  cases x with
  | headOnly k => exact id
  | lost => exact id
  | _ => exact h.elim

theorem accepted_complete {fates : List (Str × Fate)} (h : ∀ p ∈ fates, p.2.Complete) :
    accepted fates = (fates.map Prod.fst).flatten :=
  congrArg _ (List.map_congr_left fun p hp => (h p hp).part p.1)

theorem accepted_void {fates : List (Str × Fate)} (h : ∀ p ∈ fates, p.2.Void) :
    accepted fates = [] := by
  rw [accepted, List.flatten_eq_nil_iff, List.forall_mem_map]
  exact fun p hp => (h p hp).part p.1

theorem blocks_fates (client : Client) (c : Call) :
    ((c.event.fates client).map Prod.fst).flatten = c.message.bytes := by
  cases c with
  | msgSendTo m r => exact List.append_nil _
  | regexpCall m r1 r2 => exact (congrArg _ (List.append_nil _)).trans m.bytes_eq

theorem accepted_call {s : State} {c : Call} (hwf : s.client.Wf)
    (h : LineFits s.client c.event) :
    accepted (c.event.fates s.client) = wire (posted s (.call c)) := by
  rw [posted]
  rcases undivided_call ((lineFits_iff hwf _).mp h) with hall | hnone
  · rw [accepted_complete hall, blocks_fates, if_pos hall, wire, List.flatMap_singleton]
  · rw [accepted_void hnone, if_neg]
    · rfl
    · intro hall
      have hne : c.event.fates s.client ≠ [] := by cases c <;> exact List.cons_ne_nil _ _
      obtain ⟨p, ps, hp⟩ := List.exists_cons_of_ne_nil hne
      have hmem : p ∈ c.event.fates s.client := hp ▸ List.mem_cons_self
      exact not_complete (hnone p hmem) (hall p hmem)

section Step

variable {s s' : State} {q : Queue}

theorem Carries.unread_eq (h : Carries s q) :
    s.unread = s.client.kernel.drop s.received ++ s.client.pending :=
  List.drop_append_of_le_length h.received

theorem Carries.stream (h : Carries s q) : s.received ≤ s.client.stream.length := by
  rw [Client.stream, List.length_append]
  exact h.received.trans (Nat.le_add_right ..)

theorem Carries.next (h : Carries s q) {e : Event} {ms : List Message}
    (hadds : accepted (e.fates s.client) = wire ms) : ∃ client, e.next s.client = some client ∧
      Carries { s with client } ⟨q.delivered, q.waiting ++ ms⟩ ∧
        State.unread { s with client } = s.unread ++ wire ms := by
  obtain ⟨client, hnext, hwf, hstream⟩ := e.next_spec h.client
  have hunread : State.unread { s with client } = s.unread ++ wire ms := by
    rw [State.unread, hstream, hadds]
    exact List.drop_append_of_le_length h.stream
  refine ⟨client, hnext, ?_, hunread⟩
  refine ⟨hwf, h.reader, h.terminator, h.received.trans (e.kernel_prefix hnext).length_le, ?_,
    h.delivered⟩
  rw [hunread, feed_append, h.waiting, feed_wire, List.map_append]

theorem Carries.wakeUp (h : Carries s q) {answers : List SendResult}
    (hok : s.client.DrainSucceeds answers) :
    ∃ client, Socket.wakeUp s.client answers = some client ∧
      Carries { s with client } q ∧ State.unread { s with client } = s.unread := by
  obtain ⟨client, hnext, hwf, hstream⟩ := wakeUp_spec h.client hok
  have hunread : State.unread { s with client } = s.unread :=
    congrArg (List.drop s.received) hstream
  refine ⟨client, hnext, ⟨hwf, h.reader, h.terminator,
    h.received.trans (wakeUp_keeps hnext).length_le, ?_, h.delivered⟩, hunread⟩
  rw [hunread]
  exact h.waiting

theorem recv_prefix (h : Carries s q) (n : Nat) : s.recv n <+: s.unread := by
  rw [h.unread_eq]
  exact (List.take_prefix ..).trans (List.prefix_append ..)

theorem Carries.read (h : Carries s q) (n : Nat) : ∃ s' k, step s (.read n) = some s' ∧
    Carries s' ⟨q.delivered ++ q.waiting.take k, q.waiting.drop k⟩ ∧
      s'.unread.length + (s.recv n).length = s.unread.length := by
  rw [step]
  split
  · rename_i hnil
    refine ⟨s, 0, rfl, ?_, by rw [hnil]; rfl⟩
    rw [List.take_zero, List.append_nil, List.drop_zero]
    exact h
  · rename_i hne
    have hroom : (s.recv n).length ≤ nbToRead s.reader.client := by
      rw [State.recv, List.length_take]
      omega
    obtain ⟨hwf, hterm, -, hlines, hheld⟩ := h.reader.handleSocket hne hroom
    obtain ⟨t, ht⟩ := recv_prefix h n
    have hunread : s.client.stream.drop (s.received + (s.recv n).length) = t := by
      rw [← List.drop_drop, ← State.unread, ← ht, List.drop_left]
    have hreceived : s.received + (s.recv n).length ≤ s.client.kernel.length := by
      have hle := h.received
      rw [State.recv, List.length_take, List.length_drop]
      omega
    have hwaiting := h.waiting
    rw [← ht] at hwaiting
    obtain ⟨k, hfront, hback⟩ := feed_split hwaiting
    rw [← List.map_take] at hfront
    rw [← List.map_drop] at hback
    rw [h.terminator] at hterm hlines hheld
    rw [Reader.next, if_pos ⟨hne, hroom⟩]
    refine ⟨_, k, rfl, ⟨h.client, hwf, hterm, hreceived, ?_, ?_⟩, ?_⟩
    · rw [State.unread, hunread]
      exact hheld ▸ hback
    · change s.reader.lines ++ _ = _
      rw [hlines, hfront, map_asCString, h.delivered, List.map_append]
    · rw [State.unread, hunread, ← ht, List.length_append, Nat.add_comm]

theorem Carries.step (h : Carries s q) {act : Act} (hfits : Fits s act) :
    ∃ s' q', Connection.step s act = some s' ∧ Carries s' q' ∧
      q'.delivered ++ q'.waiting = q.delivered ++ q.waiting ++ posted s act := by
  cases act with
  | call c =>
    obtain ⟨client, hnext, hcarries, -⟩ := h.next (accepted_call h.client hfits)
    exact ⟨_, _, by rw [Connection.step, hnext]; rfl, hcarries, (List.append_assoc ..).symm⟩
  | wakeUp answers =>
    obtain ⟨client, hnext, hcarries, -⟩ := h.wakeUp hfits
    exact ⟨_, q, by rw [Connection.step, hnext]; rfl, hcarries, (List.append_nil _).symm⟩
  | read n =>
    obtain ⟨s', k, hs', hcarries, -⟩ := h.read n
    refine ⟨s', _, hs', hcarries, ?_⟩
    rw [List.append_assoc, List.take_append_drop]
    exact (List.append_nil _).symm

theorem Carries.run (h : Carries s q) {acts : List Act}
    (hfits : Along Connection.step Fits s acts) :
    ∃ s' q', Lib.run Connection.step s acts = some s' ∧ Carries s' q' ∧
      q'.delivered ++ q'.waiting = q.delivered ++ q.waiting ++ post s acts := by
  induction acts generalizing s q with
  | nil => exact ⟨s, q, rfl, h, (List.append_nil _).symm⟩
  | cons act acts ih =>
    obtain ⟨t, p, ht, hcarries, hqueue⟩ := h.step hfits.1
    obtain ⟨s', q', hrun, hcarries', hqueue'⟩ := ih hcarries (hfits.2 t ht)
    refine ⟨s', q', by rw [Lib.run, ht]; exact hrun, hcarries', ?_⟩
    rw [hqueue', hqueue, post, ht, List.append_assoc]
    rfl

end Step

theorem post_sublist (s : State) (acts : List Act) : (post s acts).Sublist (sent acts) := by
  induction acts generalizing s with
  | nil => exact List.nil_sublist _
  | cons act acts ih =>
    have hact : (posted s act).Sublist (sent [act]) := by
      cases act with
      | call c =>
        rw [posted]
        split
        · exact List.Sublist.refl _
        · exact List.nil_sublist _
      | wakeUp answers => exact List.nil_sublist _
      | read n => exact List.nil_sublist _
    rw [post, ← List.singleton_append, sent, List.flatMap_append]
    refine hact.append ?_
    cases step s act with
    | none => exact List.nil_sublist _
    | some s' => exact ih s'

/-! The loop of each side comes round again and again. -/

structure Round where
  room : Nat
  rooms : List Nat
  n : Nat

def Round.acts (r : Round) : List Act :=
  [.wakeUp (((r.room + 1) :: r.rooms).map .room), .read (r.n + 1)]

section Rounds

variable {s s' : State} {q : Queue}

theorem length_recv_pos (h : Carries s q) (hlt : s.received < s.client.kernel.length) (n : Nat) :
    0 < (s.recv (n + 1)).length := by
  have hroom := nbToRead_pos h.reader
  rw [State.recv, List.length_take, List.length_drop]
  omega

theorem received_lt (h : Carries s q) (hne : s.unread ≠ []) {k : Nat} {rooms : List Nat}
    {client : Client} (hnext : Event.next s.client (.wakeUp ((k + 1) :: rooms)) = some client) :
    s.received < client.kernel.length := by
  have hprefix := (Event.kernel_prefix hnext).length_le
  rcases h.received.lt_or_eq with hlt | heq
  · exact hlt.trans_le hprefix
  · rw [h.unread_eq, heq, List.drop_length, List.nil_append] at hne
    rw [heq]
    exact Event.wakeUp_progress h.client hne hnext

theorem Carries.round (h : Carries s q) (r : Round) :
    ∃ s' q', Lib.run Connection.step s r.acts = some s' ∧ Carries s' q' ∧
      q'.delivered ++ q'.waiting = q.delivered ++ q.waiting ∧
        s'.unread.length ≤ s.unread.length - 1 := by
  obtain ⟨client, hnext, hcarries, hunread⟩ :=
    h.wakeUp fun ifb _ => sendsSucceed_rooms ifb ((r.room + 1) :: r.rooms)
  obtain ⟨s', k, hs', hcarries', hlength⟩ := hcarries.read (r.n + 1)
  refine ⟨s', _, ?_, hcarries', ?_, ?_⟩
  · rw [Round.acts, Lib.run, Connection.step, hnext, Option.map_some, Option.bind_some, Lib.run,
      hs']
    rfl
  · rw [List.append_assoc, List.take_append_drop]
  · rw [hunread] at hlength
    by_cases hnil : s.unread = []
    · rw [hnil] at hlength ⊢
      exact (Nat.le_add_right ..).trans_eq hlength
    · have hpos := length_recv_pos hcarries (received_lt h hnil hnext) r.n
      omega

theorem Carries.rounds (h : Carries s q) {rs : List Round} (hrs : s.unread.length ≤ rs.length) :
    ∃ s', Lib.run Connection.step s (rs.flatMap Round.acts) = some s' ∧
      s'.reader.lines = (q.delivered ++ q.waiting).map Message.line := by
  induction rs generalizing s q with
  | nil =>
    refine ⟨s, rfl, ?_⟩
    have hwaiting := h.waiting
    rw [List.eq_nil_of_length_eq_zero (Nat.le_zero.mp hrs)] at hwaiting
    have hnil := List.map_eq_nil_iff.mp (congrArg Prod.fst hwaiting).symm
    rw [h.delivered, hnil, List.append_nil]
  | cons r rs ih =>
    obtain ⟨t, p, ht, hcarries, hqueue, hlength⟩ := h.round r
    rw [List.length_cons] at hrs
    obtain ⟨s', hrun, hlines⟩ := ih hcarries (by omega)
    refine ⟨s', ?_, hqueue ▸ hlines⟩
    rw [List.flatMap_cons, run_append, ht]
    exact hrun

end Rounds

/-- A connection is a queue of messages, whatever the kernel takes and however the bytes arrive, if
no `send()` of a drain fails and every line fits. The lines handed over are those of the first
messages, in the order of the calls, and after as many rounds as there are bytes on their way they
are those of all. -/
theorem messages_arrive {acts : List Act} (h : Along step Fits State.init acts) :
    ∃ s delivered waiting, run step State.init acts = some s ∧
      (delivered ++ waiting = post State.init acts ∧
        (post State.init acts).Sublist (sent acts)) ∧
      (s.reader.lines = delivered.map Message.line ∧
        s.reader.lines.map parseHeader = delivered.map fun m => some m.parsed) ∧
      ∀ rounds : List Round, s.unread.length ≤ rounds.length →
        ∃ s', run step s (rounds.flatMap Round.acts) = some s' ∧
          s'.reader.lines = (post State.init acts).map Message.line := by
  obtain ⟨s, q, hrun, hcarries, hqueue⟩ := carries_init.run h
  have hlines := hcarries.delivered
  rw [List.append_nil, List.nil_append] at hqueue
  refine ⟨s, q.delivered, q.waiting, hrun, ⟨hqueue, post_sublist ..⟩,
    ⟨hlines, hlines ▸ map_parseHeader _⟩, fun rounds hrounds => ?_⟩
  obtain ⟨s', hrun', hlines'⟩ := hcarries.rounds hrounds
  exact ⟨s', hrun', hqueue ▸ hlines'⟩

def hello : Parcel := ⟨⟨.msg, 4002, ⟨[104, 105, 3], by decide⟩⟩, by decide⟩

def congested : List Act :=
  [.call (.regexpCall hello (.room 3) .error), .read 2, .call (.msgSendTo hello .wouldBlock),
    .wakeUp [.room 1]]

theorem messages_arrive_congested : ∃ s, run step State.init congested = some s ∧
    ∀ rounds : List Round, s.unread.length ≤ rounds.length →
      ∃ s', run step s (rounds.flatMap Round.acts) = some s' ∧
        s'.reader.lines = (post State.init congested).map Message.line := by
  have hfits : Along step Fits State.init congested := by
    refine ⟨?_, fun s _ => ⟨trivial, fun s _ => ⟨?_, fun s _ => ⟨?_, fun s _ => trivial⟩⟩⟩⟩
    · have hlength : (header .msg 4002).length = 7 := by decide
      simp [Fits, LineFits, Call.event, State.init, Client.init, hello, Parcel.id, Parcel.body,
        ivyFifoMaxAllocSize_eq, hlength]
    · simp only [Fits, LineFits, Call.event]
      split <;> trivial
    · exact fun ifb _ => sendsSucceed_rooms ifb [1]
  obtain ⟨s, -, -, hrun, -, -, hrounds⟩ := messages_arrive hfits
  exact ⟨s, hrun, hrounds⟩

end IvyBus.Connection
