import IvyBus.Socket.ReceiveLaws
import IvyBus.Wire

namespace IvyBus.Supervision

open Lib Socket

/-- A datagram is no longer than `IVY_BUFFER_SIZE`. -/
structure Datagram (Addr : Type) where
  sender : Addr
  bytes : Str
  length_le : bytes.length ≤ ivyBufferSize

/-- The client made by `SocketBroadcastCreate`: `remote` is its field `from`, `removed` tells
whether `IvyChannelRemove` was called for it, and `calls` are the lines passed to
`BroadcastReceive` with the address found in `from` then. -/
structure State (Addr : Type) where
  client : Receiver
  remote : Option Addr
  removed : Bool
  calls : List (Str × Option Addr)

variable {Addr : Type}

def socketBroadcastCreate : State Addr := ⟨Receiver.init, none, false, []⟩

/-- `recvfrom` gives one datagram, cut to the bytes asked for. -/
def recvfrom (client : Receiver) (d : Datagram Addr) : Str := d.bytes.take (nbToRead client)

def next (s : State Addr) (d : Datagram Addr) : Option (State Addr) :=
  if s.removed then some s
  else
    let out := handleSocket s.client (.bytes (recvfrom s.client d))
    some ⟨out.client, some d.sender, out.removed,
      s.calls ++ out.lines.map fun line => (line, some d.sender)⟩

def IsLine (text : Str) (d : Datagram Addr) : Prop :=
  lf ∉ text ∧ 0 ∉ text ∧ d.bytes = text ++ [lf]

/-- A datagram leaves the channel, and one that is a line is passed on as it came. -/
def Independent (s : State Addr) (d : Datagram Addr) : Prop :=
  ∀ s', next s d = some s' → s'.removed = false ∧
    ∀ text, IsLine text d → s'.calls = s.calls ++ [(text, some d.sender)]

/-- What is left of earlier datagrams is nothing, or it is the text of the line, cut by a null
byte, and the line has room behind it. -/
def Undisturbed (s : State Addr) (d : Datagram Addr) : Prop :=
  d.bytes ≠ [] ∧ ∀ text, IsLine text d → s.client.held = [] ∨
    0 ∈ s.client.held ∧ asCString s.client.held = text ∧ d.bytes.length ≤ nbToRead s.client

structure Inv (s : State Addr) : Prop where
  wf : s.client.Wf
  terminator : s.client.terminator = lf
  size_le : ivyBufferSize ≤ s.client.bufferSize
  removed : s.removed = false

theorem inv_init : Inv (socketBroadcastCreate : State Addr) :=
  ⟨wf_receiver_init, rfl, Nat.le_refl _, rfl⟩

theorem asCString_append_of_mem {l : Str} (h : 0 ∈ l) (l' : Str) :
    asCString (l ++ l') = asCString l := by
  obtain ⟨u, v, rfl⟩ := List.append_of_mem h
  rw [List.append_assoc, List.cons_append, asCString_append, asCString_append]

theorem asCString_append_of_notMem {l l' : Str} (h : 0 ∉ l) :
    asCString (l ++ l') = l ++ asCString l' := by
  rw [asCString, List.takeWhile_append_of_pos, asCString]
  intro b hb
  exact decide_eq_true (ne_of_mem_of_not_mem hb h)

theorem asCString_append_eq {l text : Str} (h : 0 ∉ text) :
    asCString (l ++ text) = text ↔ l = [] ∨ 0 ∈ l ∧ asCString l = text := by
  by_cases hl : 0 ∈ l
  · have hne : l ≠ [] := List.ne_nil_of_mem hl
    simp only [asCString_append_of_mem hl, hne, hl, true_and, false_or]
  · simp only [asCString_append_of_notMem hl, asCString_of_notMem h, hl, false_and, or_false,
      List.append_left_eq_self]

theorem bufferSize_le (client : Receiver) (r : RecvResult) :
    client.bufferSize ≤ (handleSocket client r).client.bufferSize := by
  have hroom : client.bufferSize ≤ (makeRoom client).bufferSize := by
    unfold makeRoom
    split
    · exact Nat.le_mul_of_pos_right _ (by decide)
    · exact Nat.le_refl _
  have hrest : ∀ buffer ptr last, (keepRest (makeRoom client) buffer ptr last).bufferSize =
      (makeRoom client).bufferSize := by
    intro buffer ptr last
    unfold keepRest
    split <;> rfl
  unfold handleSocket
  split
  · exact hroom
  · exact hroom
  · exact hroom.trans (hrest ..).ge

section Step

variable {s s' : State Addr} {d : Datagram Addr} {text : Str}

theorem recvfrom_length : (recvfrom s.client d).length ≤ nbToRead s.client := List.length_take_le ..

theorem Inv.recvfrom_ne (h : Inv s) (hne : d.bytes ≠ []) : recvfrom s.client d ≠ [] := by
  rw [recvfrom, ne_eq, List.take_eq_nil_iff, not_or]
  exact ⟨(nbToRead_pos h.wf).ne', hne⟩

theorem Inv.next_eq (h : Inv s) : next s d =
    let out := handleSocket s.client (.bytes (recvfrom s.client d))
    some ⟨out.client, some d.sender, out.removed,
      s.calls ++ out.lines.map fun line => (line, some d.sender)⟩ := by
  rw [next, if_neg (Bool.eq_false_iff.mp h.removed)]

theorem Inv.next_empty (h : Inv s) (hempty : d.bytes = []) :
    ∃ s', next s d = some s' ∧ s'.removed = true := by
  rw [h.next_eq, recvfrom, hempty, List.take_nil]
  exact ⟨_, rfl, rfl⟩

theorem Inv.next (h : Inv s) (hne : d.bytes ≠ []) (hnext : next s d = some s') : Inv s' ∧
    s'.calls = s.calls ++ ((feed lf s.client.held (recvfrom s.client d)).1.map fun line =>
      (asCString line, some d.sender)) ∧
    s'.client.held = (feed lf s.client.held (recvfrom s.client d)).2 := by
  rw [h.next_eq] at hnext
  obtain rfl := Option.some.inj hnext
  obtain ⟨hwf, hterm, hremoved, hlines, hheld⟩ :=
    h.wf.handleSocket (h.recvfrom_ne hne) recvfrom_length
  rw [h.terminator] at hterm hlines hheld
  refine ⟨⟨hwf, hterm, h.size_le.trans (bufferSize_le ..), hremoved⟩, ?_, hheld⟩
  rw [hlines, List.map_map]
  rfl

theorem Inv.lf_notMem (h : Inv s) : lf ∉ s.client.held := by
  rw [← h.terminator]
  exact h.wf.held

theorem Inv.next_line (h : Inv s) (hline : IsLine text d) (hnext : Supervision.next s d = some s') :
    s'.calls = s.calls ++ if d.bytes.length ≤ nbToRead s.client
      then [(asCString (s.client.held ++ text), some d.sender)] else [] := by
  obtain ⟨hlf, -, hbytes⟩ := hline
  have hne : d.bytes ≠ [] := by
    rw [hbytes]
    exact List.append_ne_nil_of_right_ne_nil _ (List.cons_ne_nil _ _)
  rw [(h.next hne hnext).2.1]
  congr 1
  split
  · rename_i hroom
    rw [recvfrom, List.take_of_length_le hroom, hbytes, feed_append, feed_of_notMem _ hlf,
      feed_delimiter]
    rfl
  · rename_i hroom
    have hlen : d.bytes.length = text.length + 1 := by
      rw [hbytes, List.length_append, List.length_singleton]
    have hcut : lf ∉ recvfrom s.client d := by
      rw [recvfrom, hbytes, List.take_append_of_le_length (by omega)]
      exact fun hin => hlf (List.mem_of_mem_take hin)
    rw [feed_of_notMem _ hcut]
    rfl

theorem Inv.room (h : Inv s) (hheld : s.client.held = []) (d : Datagram Addr) :
    d.bytes.length ≤ nbToRead s.client := by
  obtain ⟨hwf, hheld', -, -⟩ := h.wf.makeRoom
  have hptr : (makeRoom s.client).ptr = 0 := by
    have hlen := congrArg List.length (hheld'.trans hheld)
    rw [Receiver.held, List.length_take, Nat.min_eq_left hwf.ptr_le] at hlen
    exact hlen
  have hsize : s.client.bufferSize ≤ (makeRoom s.client).bufferSize := bufferSize_le _ .error
  rw [nbToRead, hptr]
  exact d.length_le.trans (h.size_le.trans hsize)

theorem Inv.next_start (h : Inv s) (hheld : s.client.held = []) (hne : d.bytes ≠ [])
    (hlf : lf ∉ d.bytes) (hnext : Supervision.next s d = some s') :
    Inv s' ∧ s'.client.held = d.bytes := by
  obtain ⟨hinv, -, hheld'⟩ := h.next hne hnext
  rw [hheld, recvfrom, List.take_of_length_le (h.room hheld d), feed_of_notMem _ hlf] at hheld'
  exact ⟨hinv, hheld'⟩

theorem Inv.independent_iff (h : Inv s) : Independent s d ↔ Undisturbed s d := by
  by_cases hempty : d.bytes = []
  · obtain ⟨s', hs', hremoved⟩ := h.next_empty hempty
    refine ⟨fun hind => ?_, fun hund => absurd hempty hund.1⟩
    rw [(hind s' hs').1] at hremoved
    cases hremoved
  · have hcalled : ∀ s' text, Supervision.next s d = some s' → IsLine text d →
        (s'.calls = s.calls ++ [(text, some d.sender)] ↔ s.client.held = [] ∨
          0 ∈ s.client.held ∧ asCString s.client.held = text ∧
            d.bytes.length ≤ nbToRead s.client) := by
      intro s' text hs' hline
      rw [h.next_line hline hs', List.append_cancel_left_eq]
      split
      · rename_i hroom
        simp only [List.cons.injEq, Prod.mk.injEq, and_true, hroom]
        exact asCString_append_eq hline.2.1
      · rename_i hroom
        refine ⟨fun hnil => absurd hnil.symm (List.cons_ne_nil _ _), fun hheld => ?_⟩
        rcases hheld with hheld | ⟨-, -, hfits⟩
        · exact absurd (h.room hheld d) hroom
        · exact absurd hfits hroom
    obtain ⟨s', hs'⟩ : ∃ s', Supervision.next s d = some s' := ⟨_, h.next_eq⟩
    constructor
    · intro hind
      refine ⟨hempty, fun text hline => ?_⟩
      exact (hcalled s' text hs' hline).mp ((hind s' hs').2 text hline)
    · intro hund s' hs'
      refine ⟨(h.next hempty hs').1.removed, fun text hline => ?_⟩
      exact (hcalled s' text hs' hline).mpr (hund.2 text hline)

end Step

/-- The datagrams of a run are independent of each other as long as each finds no rest of
another. -/
theorem supervision_independent (ds : List (Datagram Addr)) :
    Along next Independent socketBroadcastCreate ds ↔
      Along next Undisturbed socketBroadcastCreate ds :=
  along_iff (fun _ _ hs => hs.independent_iff)
    (fun _ _ _ hs hd hnext => (hs.next hd.1 hnext).1) inv_init ds

/-- An empty datagram removes the channel, and the start of a line spoils the next datagram. -/
theorem supervision_not_independent :
    ¬ Along next Independent socketBroadcastCreate [(⟨1, [], by decide⟩ : Datagram Nat)] ∧
    ¬ Along next Independent socketBroadcastCreate
      [(⟨1, ascii "x", by decide⟩ : Datagram Nat),
        ⟨2, ascii "3 8000 id name\n", by decide⟩] := by
  constructor
  · intro h
    exact (inv_init.independent_iff.mp h.1).1 rfl
  · rintro ⟨-, hrest⟩
    obtain ⟨s', hs'⟩ : ∃ s', next socketBroadcastCreate
      (⟨1, ascii "x", by decide⟩ : Datagram Nat) = some s' := ⟨_, inv_init.next_eq⟩
    obtain ⟨hinv, hheld⟩ := inv_init.next_start rfl (by decide) (by decide) hs'
    have hund := (hinv.independent_iff.mp (hrest s' hs').1).2 (ascii "3 8000 id name")
      ⟨by decide, by decide, rfl⟩
    rw [hheld] at hund
    exact absurd (hund.resolve_left (by decide)).1 (by decide)

end IvyBus.Supervision
