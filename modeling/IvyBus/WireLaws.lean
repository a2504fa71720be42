import IvyBus.Lib.Run
import IvyBus.Socket.ReceiveLaws
import IvyBus.Wire

namespace IvyBus

open Lib Socket

theorem notMem_header {c : UInt8} (hc : c ≠ 45) (hd : isDigit c = false) (h32 : c ≠ 32)
    (h2 : c ≠ argStart) (msgtype : MsgType) (id : Int32) : c ∉ header msgtype id := by
  simp only [header, List.mem_append, List.mem_cons, List.not_mem_nil, or_false, not_or]
  exact ⟨notMem_printInt hc hd _, h32, notMem_printInt hc hd _, h2⟩

theorem sscanf_header (msgtype : MsgType) (id : Int32) (t : Str) :
    sscanf (header msgtype id ++ t) = some (msgtype.toInt32, id) := by
  have hkind : scanInt (header msgtype id ++ t) =
      some (msgtype.toInt32.toInt, 32 :: (printInt id.toInt ++ argStart :: t)) := by
    rw [header, List.append_assoc, scanInt_printInt]
    · simp
    · intro b hb
      rw [← Option.some.inj hb]
      rfl
  have hid : scanInt (32 :: (printInt id.toInt ++ argStart :: t)) =
      some (id.toInt, argStart :: t) := by
    rw [scanInt, List.dropWhile_cons, if_pos (by rfl), ← scanInt, scanInt_printInt]
    intro b hb
    rw [← Option.some.inj hb]
    rfl
  rw [sscanf, hkind, Option.bind_some, hid, Option.map_some, toInt32_strtol, toInt32_strtol]

theorem strstr_append {u : Str} {c : UInt8} (h : c ∉ u) (v : Str) :
    strstr (u ++ c :: v) c = some (c :: v) := by
  have hdrop : (u ++ c :: v).dropWhile (· ≠ c) = c :: v := by
    rw [List.dropWhile_append_of_pos]
    · rw [List.dropWhile_cons, if_neg (by simp)]
    · intro b hb
      exact decide_eq_true (ne_of_mem_of_not_mem hb h)
  rw [strstr, hdrop]

theorem strstr_header (msgtype : MsgType) (id : Int32) (t : Str) :
    strstr (header msgtype id ++ t) argStart = some (argStart :: t) := by
  have hfront : argStart ∉ printInt msgtype.toInt32.toInt ++ 32 :: printInt id.toInt := by
    simp only [List.mem_append, List.mem_cons, not_or]
    exact ⟨notMem_printInt (by decide) rfl _, by decide, notMem_printInt (by decide) rfl _⟩
  rw [← strstr_append hfront t, header]
  simp

/-- `Receive` reads back the header written by `MsgSendTo`, whatever the text. -/
theorem parseHeader_header (msgtype : MsgType) (id : Int32) (t : Str) :
    parseHeader (header msgtype id ++ t) = some ⟨msgtype.toInt32, id, t⟩ := by
  rw [parseHeader, sscanf_header, strstr_header]
  rfl

/-- A text that is sent as one line. -/
abbrev Text := { t : Str // lf ∉ t ∧ 0 ∉ t }

structure Message where
  kind : MsgType
  id : Int32
  text : Text

namespace Message

def bytes (m : Message) : Str := msgText m.kind m.id m.text

def line (m : Message) : Str := header m.kind m.id ++ m.text

def parsed (m : Message) : Header := ⟨m.kind.toInt32, m.id, m.text⟩

theorem lf_notMem (m : Message) : lf ∉ m.line := by
  rw [line, List.mem_append, not_or]
  exact ⟨notMem_header (by decide) rfl (by decide) (by decide) _ _, m.text.2.1⟩

theorem asCString_line (m : Message) : asCString m.line = m.line := by
  apply asCString_of_notMem
  rw [line, List.mem_append, not_or]
  exact ⟨notMem_header (by decide) rfl (by decide) (by decide) _ _, m.text.2.2⟩

theorem parseHeader_line (m : Message) : parseHeader m.line = some m.parsed :=
  parseHeader_header ..

end Message

def wire (ms : List Message) : Str := ms.flatMap Message.bytes

theorem feed_wire (ms : List Message) : feed lf [] (wire ms) = (ms.map Message.line, []) := by
  have h : ∀ l ∈ ms.map Message.line, lf ∉ l := by simp [Message.lf_notMem]
  have hfeed := feed_records h
  rw [List.flatMap_map] at hfeed
  exact hfeed

theorem map_asCString (ms : List Message) :
    (ms.map Message.line).map asCString = ms.map Message.line := by
  rw [List.map_map]
  exact List.map_congr_left fun m _ => m.asCString_line

theorem map_parseHeader (ms : List Message) :
    (ms.map Message.line).map parseHeader = ms.map fun m => some m.parsed := by
  rw [List.map_map]
  exact List.map_congr_left fun m _ => m.parseHeader_line

theorem feed_prefix {ms : List Message} {s : Str} (h : s <+: wire ms) :
    (feed lf [] s).1 = (ms.take (s.count lf)).map Message.line := by
  obtain ⟨t, ht⟩ := h
  have hfeed := congrArg Prod.fst (feed_wire ms)
  rw [← ht, feed_append] at hfeed
  change (feed lf [] s).1 ++ _ = ms.map Message.line at hfeed
  rw [List.map_take, ← hfeed, ← length_feed [] s]
  exact List.take_left.symm

/-- However the stream is cut, the lines that it completes are handed over, `Receive` reads back
the header and the text of each, and the rest is kept at the start of the buffer. -/
theorem wire_round_trip (ms : List Message) (chunks : List Str) {reader : Reader}
    (hrun : run Reader.next Reader.init chunks = some reader)
    (hcut : chunks.flatten <+: wire ms) :
    let sent := ms.take (chunks.flatten.count lf)
    (reader.lines = sent.map Message.line ∧
      reader.lines.map parseHeader = sent.map fun m => some m.parsed) ∧
    (wire sent ++ reader.client.held = chunks.flatten ∧ lf ∉ reader.client.held ∧
      reader.client.ptr ≤ reader.client.buffer.length) ∧
    (chunks.flatten = wire ms → sent = ms) := by
  obtain ⟨hwf, hterm, hlines, hheld⟩ := run_reader wf_receiver_init hrun
  simp only [Reader.init, Receiver.init, List.nil_append, Receiver.held, List.take_zero]
    at hlines hheld hterm
  have hsent := feed_prefix hcut
  rw [hsent, map_asCString] at hlines
  have hnot := hwf.held
  rw [hterm] at hnot
  refine ⟨⟨hlines, hlines ▸ map_parseHeader _⟩, ⟨?_, hnot, hwf.ptr_le⟩, ?_⟩
  · have hjoin := feed_join (d := lf) [] chunks.flatten
    rw [hsent, List.flatMap_map] at hjoin
    rw [Receiver.held, hheld]
    exact hjoin
  · intro heq
    have hcount := length_feed (d := lf) [] (wire ms)
    rw [feed_wire, List.length_map] at hcount
    rw [heq, ← hcount, List.take_length]

def greeting : List Message :=
  [⟨.startRegexp, 4002, ⟨[65, 3], by decide⟩⟩, ⟨.endRegexp, 0, ⟨[], by decide⟩⟩]

theorem wire_round_trip_bytes : ∃ reader,
    run Reader.next Reader.init ((wire greeting).map ([·])) = some reader ∧
      reader.lines = greeting.map Message.line := by
  obtain ⟨reader, hrun⟩ := @run_bytes Reader.init wf_receiver_init (wire greeting)
  have hcut : ((wire greeting).map ([·])).flatten = wire greeting := by
    rw [← List.flatMap_def]
    exact List.flatMap_singleton' _
  obtain ⟨⟨hlines, -⟩, -, hall⟩ := wire_round_trip greeting _ hrun (hcut ▸ List.prefix_rfl)
  rw [hall hcut] at hlines
  exact ⟨reader, hrun, hlines⟩

end IvyBus
