import IvyBus.SendLaws

namespace IvyBus.Forgery

open Lib Ivy Socket

variable {Code : Type}

def emitted (engine : Engine Code) (s : Ivy Code) (message : Str) : List Output :=
  (ivySendMsg engine s message).1.outputs.drop s.outputs.length

def Hears (bytes : Str) (reader : Reader) : Prop :=
  ∃ chunks : List Str, run Reader.next Reader.init chunks = some reader ∧ chunks.flatten = bytes

def pairs (reader : Reader) : List (Option (Int32 × Int32)) :=
  reader.lines.map fun line => (parseHeader line).map fun h => (h.kindOfMsg, h.id)

theorem emitted_eq (engine : Engine Code) {s : Ivy Code} (h : s.debugBinaryMsg = false)
    (message : Str) : emitted engine s message = sendLines engine s message := by
  rw [emitted, ivySendMsg_eq engine (by rw [h, Bool.false_and])]
  exact List.drop_left

theorem lines_of_hears {bytes : Str} {reader : Reader} (h : Hears bytes reader) :
    reader.lines = (feed lf [] bytes).1.map asCString := by
  obtain ⟨chunks, hrun, rfl⟩ := h
  exact (run_reader wf_receiver_init hrun).2.2.1

theorem exists_hears (bytes : Str) : ∃ reader, Hears bytes reader := by
  obtain ⟨reader, hrun⟩ := @run_bytes Reader.init wf_receiver_init bytes
  refine ⟨reader, bytes.map ([·]), hrun, ?_⟩
  rw [← List.flatMap_def]
  exact List.flatMap_singleton' _

section Pairs

variable {engine : Engine Code} {s : Ivy Code} {message message' : Str} {c : Handle}

theorem lines_eq_recordsTo (hmode : s.debugBinaryMsg = false) (hnul : 0 ∉ message)
    (hplain : PlainCaptures engine s message) {reader : Reader}
    (h : Hears (bytesTo c (emitted engine s message)) reader) :
    reader.lines = recordsTo engine s message c := by
  rw [emitted_eq engine hmode, bytesTo_sendLines] at h
  rw [lines_of_hears h, feed_records (lf_notMem_recordsTo hplain)]
  refine (List.map_congr_left fun record hrecord => ?_).trans (List.map_id _)
  exact asCString_of_notMem (nul_notMem_recordsTo hnul record hrecord)

theorem pairs_eq (hmode : s.debugBinaryMsg = false) (hnul : 0 ∉ message)
    (hplain : PlainCaptures engine s message) {reader : Reader}
    (h : Hears (bytesTo c (emitted engine s message)) reader) :
    pairs reader = s.messSndByRegexp.flatMap fun msg =>
      if (ivyBindingExec engine msg.binding message).isSome then
        (own c msg).map fun clnt => some (MsgType.msg.toInt32, clnt.id)
      else [] := by
  rw [pairs, lines_eq_recordsTo hmode hnul hplain h, recordsTo, List.map_flatMap]
  congr 1
  funext msg
  cases ivyBindingExec engine msg.binding message with
  | none => rfl
  | some groups =>
    rw [Option.elim_some, List.map_map]
    apply List.map_congr_left
    intro clnt _
    rw [Function.comp_apply, parseHeader_header]
    rfl

/-- What a receiver reads out of a message is decided by the regexps that match it. -/
theorem sends_forge_nothing (engine : Engine Code) (s : Ivy Code)
    (hmode : s.debugBinaryMsg = false) {m₁ m₂ : Str} (hnul₁ : 0 ∉ m₁) (hnul₂ : 0 ∉ m₂)
    (hmatch : SameMatches engine s m₁ m₂) (hplain₁ : PlainCaptures engine s m₁)
    (hplain₂ : PlainCaptures engine s m₂) (c : Handle) {reader₁ reader₂ : Reader}
    (h₁ : Hears (bytesTo c (emitted engine s m₁)) reader₁)
    (h₂ : Hears (bytesTo c (emitted engine s m₂)) reader₂) :
    pairs reader₁ = pairs reader₂ ∧
      ∀ p ∈ pairs reader₁, ∃ msg ∈ s.messSndByRegexp, ∃ clnt ∈ msg.clientList,
        clnt.client = c ∧ p = some (MsgType.msg.toInt32, clnt.id) := by
  have hpairs₁ := pairs_eq hmode hnul₁ hplain₁ h₁
  constructor
  · rw [hpairs₁, pairs_eq hmode hnul₂ hplain₂ h₂]
    apply List.flatMap_congr
    intro msg hmsg
    have hsome := congrArg Option.isSome (hmatch msg hmsg)
    rw [Option.isSome_map, Option.isSome_map] at hsome
    rw [hsome]
  · intro p hp
    rw [hpairs₁] at hp
    obtain ⟨msg, hmsg, hin⟩ := List.mem_flatMap.mp hp
    split at hin
    · obtain ⟨clnt, hclnt, rfl⟩ := List.mem_map.mp hin
      obtain ⟨hlist, hc⟩ := List.mem_filter.mp hclnt
      exact ⟨msg, hmsg, clnt, hlist, of_decide_eq_true hc, rfl⟩
    · cases hin

end Pairs

def tail : Engine Unit where
  compile _ := .ok ()
  exec _ message :=
    if message.head? = some 97 then
      some [(1, ((message.drop 1).takeWhile (· ≠ 98)).length)]
    else none

def subscribed : Ivy Unit :=
  { (default : Ivy Unit) with
    messSndByRegexp := [⟨ascii "a([^b]*)", [⟨0, 1, [], 0, 1, [], 0, false⟩], some ()⟩] }

theorem plainCaptures_tail {message : Str} (h : lf ∉ message) :
    PlainCaptures tail subscribed message :=
  fun _ _ _ _ _ _ hin => h (List.mem_of_mem_drop (List.mem_of_mem_take hin))

theorem sends_forge_nothing_tail : ∃ reader₁ reader₂,
    Hears (bytesTo 1 (emitted tail subscribed (ascii "ax"))) reader₁ ∧
      Hears (bytesTo 1 (emitted tail subscribed (ascii "ayz"))) reader₂ ∧
        pairs reader₁ = pairs reader₂ := by
  obtain ⟨reader₁, h₁⟩ := exists_hears (bytesTo 1 (emitted tail subscribed (ascii "ax")))
  obtain ⟨reader₂, h₂⟩ := exists_hears (bytesTo 1 (emitted tail subscribed (ascii "ayz")))
  exact ⟨reader₁, reader₂, h₁, h₂, (sends_forge_nothing tail subscribed rfl (by decide)
    (by decide) (by unfold SameMatches; decide) (plainCaptures_tail (by decide))
    (plainCaptures_tail (by decide)) 1 h₁ h₂).1⟩

theorem capture_forges_die : ∃ m₁ m₂ : Str, 0 ∉ m₁ ∧ 0 ∉ m₂ ∧
    SameMatches tail subscribed m₁ m₂ ∧
      ∃ reader₁ reader₂, Hears (bytesTo 1 (emitted tail subscribed m₁)) reader₁ ∧
        Hears (bytesTo 1 (emitted tail subscribed m₂)) reader₂ ∧
          pairs reader₁ = [some (MsgType.msg.toInt32, 1)] ∧
            pairs reader₂ = [some (MsgType.msg.toInt32, 1), some (MsgType.die.toInt32, 0)] := by
  refine ⟨ascii "ax", ascii "a\n8 0" ++ [argStart], by decide, by decide,
    by unfold SameMatches; decide, ?_⟩
  obtain ⟨reader₁, h₁⟩ := exists_hears (bytesTo 1 (emitted tail subscribed (ascii "ax")))
  obtain ⟨reader₂, h₂⟩ := exists_hears
    (bytesTo 1 (emitted tail subscribed (ascii "a\n8 0" ++ [argStart])))
  refine ⟨reader₁, reader₂, h₁, h₂, ?_, ?_⟩
  · rw [pairs, lines_of_hears h₁]
    decide
  · rw [pairs, lines_of_hears h₂]
    decide

end IvyBus.Forgery
