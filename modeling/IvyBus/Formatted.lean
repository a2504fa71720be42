import IvyBus.BufferLaws
import Mathlib.Logic.Function.Basic

namespace IvyBus.Formatted

open Lib Buffer

/-- The static buffers, one in each of the functions that send a formatted text. -/
inductive Name
  | socketSend
  | socketBroadcast
  | socketSendBroadcast
  | socketSendBroadcast6
  deriving DecidableEq

abbrev Buffers := Name → IvyBuffer

/-- `{ NULL, 0, 0 }` for each of them. -/
def Buffers.init : Buffers := fun _ => .null

inductive Receiver
  | client (client : Nat)
  | inet (client : Nat) (host : UInt32) (port : UInt16)
  | inet6 (client : Nat) (host : BitVec 128) (port : UInt16)
  deriving DecidableEq

/-- What `buffer.data` and the length that `make_message` returns stand for: no text after an
error. -/
def given (made : Int × IvyBuffer) : Option Str :=
  if made.1 < 0 then none
  else made.2.data.bind fun data => (data.bytes made.1.toNat).toOption

abbrev Sent := List (Receiver × Option Str)

/-- A text is put into the buffer of the function, at its start with `reset`, and sent. -/
def formatted (name : Name) (reset : Bool) (receivers : List Receiver) (memory : Memory)
    (text : Str) (buffers : Buffers) : Checked (Buffers × Sent) := do
  let buffer := buffers name
  let made ← makeMessage memory (if reset then { buffer with offset := 0 } else buffer) text
  .ok (Function.update buffers name made.2, receivers.map fun r => (r, given made))

/-- `SocketSendRaw` gives nothing to a `NULL` client. -/
def socketSend (memory : Memory) (client : Option Nat) (text : Str) :
    Buffers → Checked (Buffers × Sent) :=
  formatted .socketSend true (client.toList.map .client) memory text

def socketBroadcast (memory : Memory) (clientsList : List Nat) (text : Str) :
    Buffers → Checked (Buffers × Sent) :=
  formatted .socketBroadcast false (clientsList.map .client) memory text

def socketSendBroadcast (memory : Memory) (client : Option Nat) (host : UInt32) (port : UInt16)
    (text : Str) (buffers : Buffers) : Checked (Buffers × Sent) :=
  match client with
  | none => .ok (buffers, [])
  | some client =>
    formatted .socketSendBroadcast true [.inet client host port] memory text buffers

def socketSendBroadcast6 (memory : Memory) (client : Option Nat) (host : BitVec 128)
    (port : UInt16) (text : Str) (buffers : Buffers) : Checked (Buffers × Sent) :=
  match client with
  | none => .ok (buffers, [])
  | some client =>
    formatted .socketSendBroadcast6 true [.inet6 client host port] memory text buffers

inductive Call
  | socketSend (memory : Memory) (client : Option Nat) (text : Str)
  | socketBroadcast (memory : Memory) (clientsList : List Nat) (text : Str)
  | socketSendBroadcast (memory : Memory) (client : Option Nat) (host : UInt32) (port : UInt16)
      (text : Str)
  | socketSendBroadcast6 (memory : Memory) (client : Option Nat) (host : BitVec 128)
      (port : UInt16) (text : Str)

def call (buffers : Buffers) : Call → Checked (Buffers × Sent)
  | .socketSend memory client text => socketSend memory client text buffers
  | .socketBroadcast memory clientsList text => socketBroadcast memory clientsList text buffers
  | .socketSendBroadcast memory client host port text =>
    socketSendBroadcast memory client host port text buffers
  | .socketSendBroadcast6 memory client host port text =>
    socketSendBroadcast6 memory client host port text buffers

def next (buffers : Buffers) (c : Call) : Option Buffers :=
  (call buffers c).toOption.map Prod.fst

def Call.text : Call → Str
  | .socketSend _ _ text => text
  | .socketBroadcast _ _ text => text
  | .socketSendBroadcast _ _ _ _ text => text
  | .socketSendBroadcast6 _ _ _ _ text => text

def Call.receivers : Call → List Receiver
  | .socketSend _ client _ => client.toList.map .client
  | .socketBroadcast _ clientsList _ => clientsList.map .client
  | .socketSendBroadcast _ client host port _ => client.toList.map (.inet · host port)
  | .socketSendBroadcast6 _ client host port _ => client.toList.map (.inet6 · host port)

def Transmits (buffers : Buffers) (c : Call) : Prop :=
  c.receivers ≠ [] → ∃ buffers', call buffers c =
    .ok (buffers', c.receivers.map fun r => (r, some c.text))

def Starting (memory : Memory) (buffer : IvyBuffer) (text : Str) : Prop :=
  Room memory buffer text ∧
    text.map some <+: (held buffer).take (place buffer).2 ++ text.map some

/-- The calls that transmit their text: there is memory for it, and for `SocketBroadcast` it is
what its buffer starts with when it stands behind all the texts that are there already. -/
def Own (buffers : Buffers) : Call → Prop
  | .socketSend memory client text =>
    client ≠ none → Room memory { buffers .socketSend with offset := 0 } text
  | .socketBroadcast memory clientsList text =>
    clientsList ≠ [] → Starting memory (buffers .socketBroadcast) text
  | .socketSendBroadcast memory client _ _ text =>
    client ≠ none → Room memory { buffers .socketSendBroadcast with offset := 0 } text
  | .socketSendBroadcast6 memory client _ _ text =>
    client ≠ none → Room memory { buffers .socketSendBroadcast6 with offset := 0 } text

section Made

variable {memory : Memory} {buffer : IvyBuffer} {text : Str} {data : Chars} {n : Nat}

theorem take_of_bytes {s : Str} (h : data.bytes n = .ok s) : data.take n = s.map some := by
  induction n generalizing data s with
  | zero =>
    cases h
    rfl
  | succ n ih =>
    cases data with
    | nil => cases h
    | cons c data =>
      cases c with
      | none => cases h
      | some c =>
        cases hrest : Chars.bytes n data with
        | error e =>
          rw [Chars.bytes, hrest] at h
          cases h
        | ok t =>
          rw [Chars.bytes, hrest] at h
          cases h
          rw [List.take_succ_cons, ih hrest]
          rfl

theorem given_eq_some (size offset : Nat) :
    given (text.length, ⟨some data, size, offset⟩) = some text ↔
      data.take text.length = text.map some := by
  have hpos : ¬ (text.length : Int) < 0 := Int.not_lt.mpr (Int.natCast_nonneg _)
  rw [given, if_neg hpos]
  change (data.bytes text.length).toOption = some text ↔ _
  constructor
  · intro h
    cases hbytes : data.bytes text.length with
    | error e =>
      rw [hbytes] at h
      cases h
    | ok s =>
      rw [hbytes] at h
      cases h
      exact take_of_bytes hbytes
  · intro h
    rw [Chars.bytes_of_take h rfl]
    rfl

theorem given_none {made : Int × IvyBuffer} (h : made.2.data = none) : given made = none := by
  rw [given, h, Option.bind_none, ite_self]

theorem given_of_room (h : Usable buffer) (hroom : Room memory buffer text) :
    ∃ made, makeMessage memory buffer text = .ok made ∧
      (given made = some text ↔ Starting memory buffer text) := by
  obtain ⟨start, data, hmade, -, -, hcopy, htake⟩ := makeMessage_writes h hroom
  refine ⟨_, hmade 30, (given_eq_some _ _).trans ?_⟩
  have hall := Chars.take_add_of_strcpy hcopy
  rw [htake] at hall
  have hfirst : data.take text.length =
      ((held buffer).take (place buffer).2 ++ text.map some).take text.length := by
    rw [← hall, List.take_take, Nat.min_eq_left (Nat.le_add_left _ _)]
  rw [hfirst, Starting, List.prefix_iff_eq_take, List.length_map, and_iff_right hroom]
  exact eq_comm

theorem given_iff (h : Usable buffer) :
    (∃ made, makeMessage memory buffer text = .ok made ∧ given made = some text) ↔
      Starting memory buffer text := by
  constructor
  · rintro ⟨made, hmade, hgiven⟩
    by_cases hroom : Room memory buffer text
    · obtain ⟨made', hmade', hiff⟩ := given_of_room h hroom
      rw [hmade] at hmade'
      cases hmade'
      exact hiff.mp hgiven
    · rw [given_none (makeMessage_refused h hroom hmade)] at hgiven
      cases hgiven
  · intro hstarting
    obtain ⟨made, hmade, hiff⟩ := given_of_room h hstarting.1
    exact ⟨made, hmade, hiff.mpr hstarting⟩

theorem starting_restart : Starting memory { buffer with offset := 0 } text ↔
    Room memory { buffer with offset := 0 } text := by
  rw [Starting, place_restart, List.take_zero, List.nil_append]
  exact and_iff_left (List.prefix_refl _)

theorem makeMessageLoop_size {offset fuel size : Nat} {made : Int × IvyBuffer}
    (hsize : size ≤ intMax) (hmade : makeMessageLoop memory text offset fuel data size = .ok made) :
    made.2.size ≤ intMax := by
  induction fuel generalizing data size with
  | zero => cases hmade
  | succ fuel ih =>
    cases hwrite : vsnprintf data offset (size - offset) text with
    | error e =>
      rw [makeMessageLoop, hwrite] at hmade
      cases hmade
    | ok data' =>
      rw [makeMessageLoop_succ hwrite] at hmade
      split at hmade
      next =>
        cases hmade
        exact hsize
      next =>
        split at hmade
        next => cases hmade
        next hint =>
          split at hmade
          next => exact ih (Nat.le_of_not_lt hint) hmade
          next =>
            cases hmade
            exact Nat.le_of_not_lt hint

theorem makeMessage_size (h : buffer.size ≤ intMax) {made : Int × IvyBuffer}
    (hmade : makeMessage memory buffer text = .ok made) : made.2.size ≤ intMax := by
  rw [makeMessage] at hmade
  split at hmade
  next =>
    split at hmade
    next => exact makeMessageLoop_size (by decide) hmade
    next =>
      cases hmade
      exact (by decide : ivyBufferSize ≤ intMax)
  next => exact makeMessageLoop_size h hmade

theorem usable_makeMessage (h : Usable buffer) {made : Int × IvyBuffer}
    (hmade : makeMessage memory buffer text = .ok made) : Usable made.2 := by
  refine ⟨makeMessage_size h.size_int hmade, fun hused => ?_⟩
  by_cases hroom : Room memory buffer text
  · obtain ⟨start, data, heq, hstart, hlt, hcopy, -⟩ := makeMessage_writes h hroom
    rw [makeMessage_eq, heq 30] at hmade
    cases hmade
    exact ⟨data, rfl, hstart.strcpy hcopy hlt⟩
  · exact absurd (.inr (makeMessage_refused h hroom hmade)) hused

theorem usable_reset (h : Usable buffer) (reset : Bool) :
    Usable (if reset then { buffer with offset := 0 } else buffer) := by
  cases reset with
  | false => exact h
  | true =>
    refine ⟨h.size_int, fun hused => ?_⟩
    obtain ⟨data, hdata, hle, hint, hlt⟩ := h.placed hused
    exact ⟨data, hdata, hle, hint, Nat.zero_lt_of_lt hlt⟩

end Made

section Calls

variable {name : Name} {reset : Bool} {receivers : List Receiver} {memory : Memory} {text : Str}
  {buffers buffers' : Buffers} {sent : Sent}

theorem formatted_eq_ok : formatted name reset receivers memory text buffers =
    .ok (buffers', sent) ↔ ∃ made,
      makeMessage memory
        (if reset then { buffers name with offset := 0 } else buffers name) text = .ok made ∧
      buffers' = Function.update buffers name made.2 ∧
      sent = receivers.map fun r => (r, given made) := by
  rw [formatted]
  change (makeMessage _ _ _).bind _ = _ ↔ _
  rw [bind_eq_ok]
  refine exists_congr fun made => and_congr_right fun _ => ?_
  constructor
  · intro h
    cases h
    exact ⟨rfl, rfl⟩
  · rintro ⟨rfl, rfl⟩
    rfl

theorem formatted_transmits (h : ∀ name, Usable (buffers name)) (hne : receivers ≠ []) :
    (∃ buffers', formatted name reset receivers memory text buffers =
      .ok (buffers', receivers.map fun r => (r, some text))) ↔
      Starting memory
        (if reset then { buffers name with offset := 0 } else buffers name) text := by
  rw [← given_iff (usable_reset (h name) reset)]
  constructor
  · rintro ⟨buffers', hok⟩
    obtain ⟨made, hmade, -, hsent⟩ := formatted_eq_ok.mp hok
    obtain ⟨r, receivers, rfl⟩ := List.exists_cons_of_ne_nil hne
    rw [List.map_cons, List.map_cons] at hsent
    exact ⟨made, hmade, (Prod.ext_iff.mp (List.cons.inj hsent).1).2.symm⟩
  · rintro ⟨made, hmade, hgiven⟩
    exact ⟨_, formatted_eq_ok.mpr ⟨made, hmade, rfl, by rw [hgiven]⟩⟩

theorem formatted_usable (h : ∀ name, Usable (buffers name))
    (hok : formatted name reset receivers memory text buffers = .ok (buffers', sent)) :
    ∀ name, Usable (buffers' name) := by
  obtain ⟨made, hmade, rfl, -⟩ := formatted_eq_ok.mp hok
  intro other
  obtain rfl | hother := eq_or_ne other name
  · rw [Function.update_self]
    exact usable_makeMessage (usable_reset (h other) reset) hmade
  · rw [Function.update_of_ne hother]
    exact h other

theorem map_toList_ne_nil {client : Option Nat} {f : Nat → Receiver} :
    client.toList.map f ≠ [] ↔ client ≠ none := by
  cases client <;> simp

theorem transmits_iff_own (h : ∀ name, Usable (buffers name)) (c : Call) :
    Transmits buffers c ↔ Own buffers c := by
  cases c with
  | socketSend memory client text =>
    rw [Transmits, Own, Call.receivers, map_toList_ne_nil]
    refine forall_congr' fun hclient => ?_
    exact (formatted_transmits h (map_toList_ne_nil.mpr hclient)).trans starting_restart
  | socketBroadcast memory clientsList text =>
    rw [Transmits, Own, Call.receivers, Ne, List.map_eq_nil_iff]
    refine forall_congr' fun hclients => ?_
    exact formatted_transmits h fun hnil => hclients (List.map_eq_nil_iff.mp hnil)
  | socketSendBroadcast memory client host port text =>
    rw [Transmits, Own, Call.receivers, map_toList_ne_nil]
    refine forall_congr' fun hclient => ?_
    obtain ⟨client, rfl⟩ := Option.ne_none_iff_exists'.mp hclient
    exact (formatted_transmits h (List.cons_ne_nil _ _)).trans starting_restart
  | socketSendBroadcast6 memory client host port text =>
    rw [Transmits, Own, Call.receivers, map_toList_ne_nil]
    refine forall_congr' fun hclient => ?_
    obtain ⟨client, rfl⟩ := Option.ne_none_iff_exists'.mp hclient
    exact (formatted_transmits h (List.cons_ne_nil _ _)).trans starting_restart

theorem usable_call (h : ∀ name, Usable (buffers name)) {c : Call}
    (hok : call buffers c = .ok (buffers', sent)) : ∀ name, Usable (buffers' name) := by
  cases c with
  | socketSend memory client text => exact formatted_usable h hok
  | socketBroadcast memory clientsList text => exact formatted_usable h hok
  | socketSendBroadcast memory client host port text =>
    cases client with
    | none =>
      cases hok
      exact h
    | some client => exact formatted_usable h hok
  | socketSendBroadcast6 memory client host port text =>
    cases client with
    | none =>
      cases hok
      exact h
    | some client => exact formatted_usable h hok

theorem usable_next (h : ∀ name, Usable (buffers name)) {c : Call}
    (hnext : next buffers c = some buffers') : ∀ name, Usable (buffers' name) := by
  rw [next] at hnext
  cases hok : call buffers c with
  | error e =>
    rw [hok] at hnext
    cases hnext
  | ok r =>
    rw [hok] at hnext
    cases hnext
    exact usable_call h hok

theorem usable_init : ∀ name, Usable (Buffers.init name) := fun _ => inv_null.usable

/-- Along every sequence of calls, each transmits its own text exactly as long as each is of the
kind that does. -/
theorem transmits_own_iff (calls : List Call) :
    Along next Transmits .init calls ↔ Along next Own .init calls :=
  along_iff (fun _ c h => transmits_iff_own h c) (fun _ _ _ h _ hnext => usable_next h hnext)
    usable_init calls

end Calls

section Repeated

variable {memory : Memory} {buffer : IvyBuffer} {said text : Str}

theorem given_says (h : Usable buffer) (hroom : Room memory buffer text)
    (hsaid : Says buffer said) : ∃ made, makeMessage memory buffer text = .ok made ∧
      given made = some ((said ++ text).take text.length) ∧ Usable made.2 ∧
      Says made.2 (said ++ text) := by
  obtain ⟨start, data, hmade, -, -, hcopy, htake⟩ := makeMessage_writes h hroom
  have hok := hmade 30
  refine ⟨_, hok, ?_, usable_makeMessage h hok, makeMessage_says h hroom hsaid hok⟩
  have hlength : ((said ++ text).take text.length).length = text.length := by
    rw [List.length_take, List.length_append]
    exact Nat.min_eq_left (Nat.le_add_left _ _)
  have hall := Chars.take_add_of_strcpy hcopy
  rw [htake, hsaid.held, ← List.map_append] at hall
  have hgiven := @given_eq_some ((said ++ text).take text.length) data (newSize buffer text)
    ((place buffer).2 + text.length)
  rw [hlength] at hgiven
  refine hgiven.mpr ?_
  rw [List.map_take, ← hall, List.take_take, Nat.min_eq_left (Nat.le_add_left _ _)]

theorem says_null : Says .null [] := ⟨rfl, fun _ h => absurd rfl h⟩

/-- `SocketBroadcast` of one text to one client. -/
def broadcast (text : Str) : Call := .socketBroadcast (fun _ => true) [1] text

theorem call_broadcast {buffers : Buffers} (h : Usable (buffers .socketBroadcast))
    (hsaid : Says (buffers .socketBroadcast) said)
    (hint : said.length + text.length + 1 ≤ intMax) : ∃ made,
      call buffers (broadcast text) = .ok (Function.update buffers .socketBroadcast made,
        [(.client 1, some ((said ++ text).take text.length))]) ∧
      Usable made ∧ Says made (said ++ text) := by
  have hroom : Room (fun _ => true) (buffers .socketBroadcast) text :=
    room_of_memory h (hsaid.length_eq ▸ hint) fun _ _ => rfl
  obtain ⟨made, hmade, hgiven, husable, hsays⟩ := given_says h hroom hsaid
  refine ⟨made.2, formatted_eq_ok.mpr ⟨made, hmade, rfl, ?_⟩, husable, hsays⟩
  rw [hgiven]
  rfl

/-- The second of two texts is sent as the first one. -/
theorem broadcast_repeats : ∃ buffers buffers',
    call .init (broadcast (ascii "ab")) = .ok (buffers, [(.client 1, some (ascii "ab"))]) ∧
      call buffers (broadcast (ascii "cd")) = .ok (buffers', [(.client 1, some (ascii "ab"))]) ∧
      ¬ Along next Transmits .init [broadcast (ascii "ab"), broadcast (ascii "cd")] := by
  obtain ⟨first, hfirst, husable, hsays⟩ :=
    @call_broadcast [] (ascii "ab") .init (usable_init _) says_null (by decide)
  obtain ⟨second, hsecond, -⟩ :=
    @call_broadcast (ascii "ab") (ascii "cd")
      (Function.update Buffers.init .socketBroadcast first)
      (by rwa [Function.update_self]) (by rwa [Function.update_self]) (by decide)
  refine ⟨_, _, hfirst, hsecond, fun hall => ?_⟩
  have hnext : next .init (broadcast (ascii "ab")) =
      some (Function.update Buffers.init .socketBroadcast first) := by
    rw [next, hfirst]
    rfl
  obtain ⟨buffers', hok⟩ := (hall.2 _ hnext).1 (List.cons_ne_nil _ _)
  rw [hsecond] at hok
  have hsent : [(Receiver.client 1, some (ascii "ab"))] = [(.client 1, some (ascii "cd"))] :=
    (Prod.ext_iff.mp (Except.ok.inj hok)).2
  exact absurd hsent (by decide)

end Repeated

end IvyBus.Formatted
