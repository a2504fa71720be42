import IvyBus.TrafficLaws

namespace IvyBus.Network

open Lib Ivy

variable {Agent Code : Type} {engine : Engine Code}

def callsOf (s : Ivy Code) (c : Handle) (line : Str) : List Call := (receiveMsg s c line).getD []

/-- The calls that have been made over a connection, and those of the lines on their way. -/
def ledger (t : Traffic Agent Code) (x : Agent) (c : Handle) : List Call :=
  t.calls x c ++ (t.net.flight c x).flatMap (callsOf (t.net.state x) c)

def Old (s : Ivy Code) (line : Str) : Prop :=
  ∃ m, line = Message.line m ∧ (m.kind = .msg → m.id.toInt < s.recvId.toInt)

section Lines

variable {s s' : Ivy Code} {c : Handle} {said : List Str} {kinds : List MsgType}

theorem callsOf_line (h : Open s c) (m : Message) : callsOf s c m.line =
    if m.kind = .msg then
      ((s.msgRecv.find? (·.id = m.id)).bind fun rcv =>
        (argv m.text).map fun argv => [⟨rcv, argv⟩]).getD []
    else [] := by
  obtain ⟨clnt, hfind, hopen⟩ := h
  rw [callsOf, receiveMsg, hfind, m.parseHeader_line]
  dsimp only [Message.parsed]
  rw [hopen, MsgType.ofInt32_toInt32]
  by_cases hkind : m.kind = .msg
  · rw [if_neg (by simp [hkind]), if_pos hkind]
    cases s.msgRecv.find? (·.id = m.id) with
    | none => rfl
    | some rcv => rfl
  · rw [if_pos (by simp [hkind]), if_neg hkind]
    rfl

theorem Moves.callsOf_eq (h : Moves engine said kinds s s') (hkinds : .delRegexp ∉ kinds)
    (hopen : Open s c) (hopen' : Open s' c) {line : Str} (hold : Old s line) :
    callsOf s' c line = callsOf s c line := by
  obtain ⟨m, rfl, hid⟩ := hold
  rw [callsOf_line hopen, callsOf_line hopen']
  split
  · rename_i hkind
    obtain ⟨new, hnew, hids⟩ := h.recvs.resolve_right fun hdel => hkinds hdel.1
    have hnone : new.find? (·.id = m.id) = none := by
      rw [List.find?_eq_none]
      intro rcv hrcv heq
      have hlt := hid hkind
      rw [← of_decide_eq_true heq, (hids rcv hrcv).1] at hlt
      exact Int.lt_irrefl _ hlt
    rw [hnew, List.find?_append, hnone, Option.none_or]
  · rfl

theorem Old.mono {line : Str} (h : Old s line) (hle : s.recvId.toInt ≤ s'.recvId.toInt) :
    Old s' line := by
  obtain ⟨m, rfl, hid⟩ := h
  exact ⟨m, rfl, fun hkind => Int.lt_of_lt_of_le (hid hkind) hle⟩

end Lines

section Ledger

variable {t u t' : Traffic Agent Code} {x y z : Agent} {c : Handle} {kinds : List MsgType}

theorem Honest.old_of_line (ht : Honest engine t) {m : Message} {bound : List (Int32 × Str)}
    {said : List Str} (h : Says engine bound (t.bound z) said m) :
    Old (t.net.state z) m.line := by
  refine ⟨m, rfl, fun hkind => ?_⟩
  unfold Says at h
  rw [hkind] at h
  obtain ⟨r, hr, -⟩ := h
  exact ht.below z _ hr

theorem Honest.old (ht : Honest engine t) : ∀ line ∈ t.net.flight c z,
    Old (t.net.state z) line := by
  intro line hline
  obtain ⟨y, m, -, rfl, htells⟩ := ht.lines c z line hline
  exact ht.old_of_line htells

/-- The agent `z` still has its bindings: every line from `y` is called back once, in the order
in which it was written. -/
structure Balanced (t t' : Traffic Agent Code) (y z : Agent) (c : Handle) : Prop where
  opens : Open (t.net.state z) c
  stable : ∀ line, Old (t.net.state z) line → Old (t'.net.state z) line ∧
    callsOf (t'.net.state z) c line = callsOf (t.net.state z) c line
  ledger_eq : ∃ new, t'.written y c = t.written y c ++ new ∧
    (∀ line ∈ new, Old (t'.net.state z) line) ∧
      ledger t' z c = ledger t z c ++ new.flatMap (callsOf (t'.net.state z) c)

theorem Balanced.refl (h : Open (t.net.state z) c) : Balanced t t y z c :=
  ⟨h, fun _ hold => ⟨hold, rfl⟩, [], (List.append_nil _).symm, List.forall_mem_nil _,
    (List.append_nil _).symm⟩

theorem Balanced.trans (h : Balanced t u y z c) (h' : Balanced u t' y z c) :
    Balanced t t' y z c := by
  obtain ⟨new, hnew, holds, hledger⟩ := h.ledger_eq
  obtain ⟨new', hnew', holds', hledger'⟩ := h'.ledger_eq
  refine ⟨h.opens, fun line hold => ?_, new ++ new', ?_, fun line hline => ?_, ?_⟩
  · obtain ⟨hmid, heq⟩ := h.stable line hold
    obtain ⟨hend, heq'⟩ := h'.stable line hmid
    exact ⟨hend, heq'.trans heq⟩
  · rw [hnew', hnew, List.append_assoc]
  · rcases List.mem_append.mp hline with hline | hline
    · exact (h'.stable line (holds line hline)).1
    · exact holds' line hline
  · have hsame : new.flatMap (callsOf (t'.net.state z) c) =
        new.flatMap (callsOf (u.net.state z) c) :=
      List.flatMap_congr fun line hline => (h'.stable line (holds line hline)).2
    rw [hledger', hledger, List.flatMap_append, hsame, List.append_assoc]

theorem Steps.stable (h : Steps engine t t' x kinds) (hkeeps : x = z → .delRegexp ∉ kinds)
    (hopen : Open (t.net.state z) c) (hopen' : Open (t'.net.state z) c) {line : Str}
    (hold : Old (t.net.state z) line) : Old (t'.net.state z) line ∧
      callsOf (t'.net.state z) c line = callsOf (t.net.state z) c line := by
  refine ⟨hold.mono (h.recvId_le z), ?_⟩
  by_cases hz : z = x
  · rw [hz] at hopen hopen' hold ⊢
    exact h.moves.callsOf_eq (hkeeps hz.symm) hopen hopen' hold
  · rw [(h.others z hz).1]

/-- The application of `z` unbinds nothing. -/
def Keeps (engine : Engine Code) (z : Agent) (t : Traffic Agent Code)
    (a : Act Agent) : Prop :=
  Permitted engine t a ∧ ∀ addr, a ≠ .event (.unbind z addr)

variable [DecidableEq Agent]

end Ledger

section Message

variable {s : Ivy Code} {c : Handle} {message : Str}

end Message

variable [DecidableEq Agent]

end IvyBus.Network
