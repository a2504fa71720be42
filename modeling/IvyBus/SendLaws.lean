import IvyBus.Send
import IvyBus.WireLaws

namespace IvyBus.Ivy

open Lib Socket

variable {Code : Type}

def matchLine (bufferArg : Str) (clnt : IvyClient) : Output :=
  .send clnt.client (header .msg clnt.id ++ bufferArg)

def callLines (engine : Engine Code) (message : Str) (msg : MsgSndDict Code) : List Output :=
  (ivyBindingExec engine msg.binding message).elim [] fun groups =>
    msg.clientList.map (matchLine (bufferArg message groups))

def sendLines (engine : Engine Code) (s : Ivy Code) (message : Str) : List Output :=
  s.messSndByRegexp.flatMap (callLines engine message)

def extend (s : Ivy Code) (os : List Output) : Ivy Code := { s with outputs := s.outputs ++ os }

theorem mem_elim_nil {α β : Type} {x : Option β} {f : β → List α} {a : α} (h : a ∈ x.elim [] f) :
    ∃ b, x = some b ∧ a ∈ f b := by
  cases x with
  | none => cases h
  | some b => exact ⟨b, rfl, h⟩

theorem mem_callLines {engine : Engine Code} {message : Str} {msg : MsgSndDict Code} {o : Output}
    (h : o ∈ callLines engine message msg) : ∃ groups, ∃ clnt ∈ msg.clientList,
      o = matchLine (bufferArg message groups) clnt := by
  obtain ⟨groups, -, hin⟩ := mem_elim_nil h
  obtain ⟨clnt, hclnt, rfl⟩ := List.mem_map.mp hin
  exact ⟨groups, clnt, hclnt, rfl⟩

theorem extend_nil (s : Ivy Code) : s.extend [] = s := by
  rw [extend, List.append_nil]

theorem extend_extend (s : Ivy Code) (os os' : List Output) :
    (s.extend os).extend os' = s.extend (os ++ os') := by
  simp only [extend, List.append_assoc]

theorem foldl_sendMatch (b : Str) (l : List IvyClient) (s : Ivy Code) (n : Nat) :
    l.foldl (sendMatch b) (s, n) = (s.extend (l.map (matchLine b)), n + l.length) := by
  induction l generalizing s n with
  | nil => rw [List.foldl_nil, List.map_nil, extend_nil, List.length_nil, Nat.add_zero]
  | cons clnt l ih =>
    have hsend : sendMatch b (s, n) clnt = (s.extend [matchLine b clnt], n + 1) := rfl
    rw [List.foldl_cons, hsend, ih, extend_extend, List.map_cons, List.length_cons,
      Nat.add_right_comm]
    rfl

theorem regexpCall_eq (engine : Engine Code) (s : Ivy Code) (msg : MsgSndDict Code)
    (message : Str) : regexpCall engine s msg message =
      (s.extend (callLines engine message msg), (callLines engine message msg).length) := by
  simp only [regexpCall, callLines]
  cases ivyBindingExec engine msg.binding message with
  | none => rw [Option.elim_none, extend_nil, List.length_nil]
  | some groups =>
    rw [Option.elim_some, List.length_map, ← Nat.zero_add msg.clientList.length]
    exact foldl_sendMatch ..

theorem foldl_call {call : Ivy Code → MsgSndDict Code → Ivy Code × Nat}
    {lines : MsgSndDict Code → List Output}
    (hcall : ∀ s msg, call s msg = (s.extend (lines msg), (lines msg).length))
    (d : List (MsgSndDict Code)) (s : Ivy Code) (n : Nat) :
    d.foldl (fun out msgSendDict =>
        let call := call out.1 msgSendDict
        (call.1, out.2 + call.2)) (s, n) =
      (s.extend (d.flatMap lines), n + (d.flatMap lines).length) := by
  induction d generalizing s n with
  | nil => rw [List.foldl_nil, List.flatMap_nil, extend_nil, List.length_nil, Nat.add_zero]
  | cons msg d ih =>
    rw [List.foldl_cons, hcall]
    dsimp only
    rw [ih, extend_extend, List.flatMap_cons, List.length_append, Nat.add_assoc]

theorem ivySendMsg_eq (engine : Engine Code) {s : Ivy Code} {message : Str}
    (h : (s.debugBinaryMsg && ivyCheckBuffer message) = false) : ivySendMsg engine s message =
      (s.extend (sendLines engine s message), (sendLines engine s message).length) := by
  have hfold := foldl_call (fun s msg => regexpCall_eq engine s msg message) s.messSndByRegexp s 0
  rw [Nat.zero_add] at hfold
  rw [ivySendMsg, h, if_neg Bool.false_ne_true]
  exact hfold

def bytesTo (c : Handle) (os : List Output) : Str :=
  os.flatMap fun
    | .send client bytes => if client = c then bytes else []
    | _ => []

def captures (message : Str) (groups : List (Nat × Nat)) : Str :=
  groups.flatMap fun group => ivyBindingMatch message group ++ [argEnd]

def own (c : Handle) (msg : MsgSndDict Code) : List IvyClient :=
  msg.clientList.filter (·.client = c)

def recordsTo (engine : Engine Code) (s : Ivy Code) (message : Str) (c : Handle) : List Str :=
  s.messSndByRegexp.flatMap fun msg =>
    (ivyBindingExec engine msg.binding message).elim [] fun groups =>
      (own c msg).map fun clnt => header .msg clnt.id ++ captures message groups

theorem bytesTo_append (c : Handle) (os os' : List Output) :
    bytesTo c (os ++ os') = bytesTo c os ++ bytesTo c os' :=
  List.flatMap_append

theorem bytesTo_matchLines (c : Handle) (message : Str) (groups : List (Nat × Nat))
    (l : List IvyClient) : bytesTo c (l.map (matchLine (bufferArg message groups))) =
      ((l.filter (·.client = c)).map fun clnt =>
        header .msg clnt.id ++ captures message groups).flatMap fun record => record ++ [lf] := by
  induction l with
  | nil => rfl
  | cons clnt l ih =>
    rw [List.map_cons, ← List.singleton_append, bytesTo_append, ih]
    by_cases hc : clnt.client = c
    · rw [List.filter_cons_of_pos (by simpa using hc), List.map_cons, List.flatMap_cons]
      simp [bytesTo, matchLine, hc, bufferArg, captures]
    · rw [List.filter_cons_of_neg (by simpa using hc)]
      simp [bytesTo, matchLine, hc]

theorem bytesTo_sendLines (engine : Engine Code) (s : Ivy Code) (message : Str) (c : Handle) :
    bytesTo c (sendLines engine s message) =
      (recordsTo engine s message c).flatMap fun record => record ++ [lf] := by
  rw [sendLines, recordsTo]
  induction s.messSndByRegexp with
  | nil => rfl
  | cons msg d ih =>
    rw [List.flatMap_cons, List.flatMap_cons, List.flatMap_append, bytesTo_append, ih, callLines]
    congr 1
    cases ivyBindingExec engine msg.binding message with
    | none => rfl
    | some groups => exact bytesTo_matchLines ..

def PlainCaptures (engine : Engine Code) (s : Ivy Code) (message : Str) : Prop :=
  ∀ msg ∈ s.messSndByRegexp, ∀ groups, ivyBindingExec engine msg.binding message = some groups →
    ∀ group ∈ groups, lf ∉ ivyBindingMatch message group

/-- The same regexps match both messages, with as many captures. -/
def SameMatches (engine : Engine Code) (s : Ivy Code) (message message' : Str) : Prop :=
  ∀ msg ∈ s.messSndByRegexp, (ivyBindingExec engine msg.binding message).map List.length =
    (ivyBindingExec engine msg.binding message').map List.length

section Records

variable {engine : Engine Code} {s : Ivy Code} {message message' : Str} {c : Handle}

theorem notMem_captures {d : UInt8} {groups : List (Nat × Nat)} (hd : d ≠ argEnd)
    (h : ∀ group ∈ groups, d ∉ ivyBindingMatch message group) : d ∉ captures message groups := by
  rw [captures, List.mem_flatMap]
  rintro ⟨group, hgroup, hin⟩
  rcases List.mem_append.mp hin with hin | hin
  · exact h group hgroup hin
  · exact hd (List.mem_singleton.mp hin)

theorem mem_recordsTo {record : Str} (h : record ∈ recordsTo engine s message c) :
    ∃ msg ∈ s.messSndByRegexp, ∃ groups, ivyBindingExec engine msg.binding message = some groups ∧
      ∃ clnt ∈ own c msg, record = header .msg clnt.id ++ captures message groups := by
  obtain ⟨msg, hmsg, hin⟩ := List.mem_flatMap.mp h
  obtain ⟨groups, hexec, hmem⟩ := mem_elim_nil hin
  obtain ⟨clnt, hclnt, rfl⟩ := List.mem_map.mp hmem
  exact ⟨msg, hmsg, groups, hexec, clnt, hclnt, rfl⟩

theorem lf_notMem_recordsTo (h : PlainCaptures engine s message) :
    ∀ record ∈ recordsTo engine s message c, lf ∉ record := by
  intro record hrecord
  obtain ⟨msg, hmsg, groups, hexec, clnt, -, rfl⟩ := mem_recordsTo hrecord
  rw [List.mem_append, not_or]
  exact ⟨notMem_header (by decide) rfl (by decide) (by decide) _ _,
    notMem_captures (by decide) (h msg hmsg groups hexec)⟩

theorem nul_notMem_recordsTo (h : 0 ∉ message) :
    ∀ record ∈ recordsTo engine s message c, 0 ∉ record := by
  intro record hrecord
  obtain ⟨msg, -, groups, -, clnt, -, rfl⟩ := mem_recordsTo hrecord
  rw [List.mem_append, not_or]
  exact ⟨notMem_header (by decide) rfl (by decide) (by decide) _ _,
    notMem_captures (by decide) fun group _ hin => h (List.mem_of_mem_drop
      (List.mem_of_mem_take hin))⟩

end Records

def ownLines (engine : Engine Code) (message : Str) (c : Handle) (msg : MsgSndDict Code) :
    List Output :=
  (ivyBindingExec engine msg.binding message).elim [] fun groups =>
    (own c msg).map (matchLine (bufferArg message groups))

section ClientCall

variable (engine : Engine Code) (s : Ivy Code) (message : Str) (c : Handle)

theorem regexpCallUnique_eq (msg : MsgSndDict Code) : regexpCallUnique engine s msg message c =
    (s.extend (ownLines engine message c msg), (ownLines engine message c msg).length) := by
  simp only [regexpCallUnique, ownLines]
  cases ivyBindingExec engine msg.binding message with
  | none => rw [Option.elim_none, extend_nil, List.length_nil]
  | some groups =>
    have hfold := foldl_sendMatch (bufferArg message groups) (own c msg) s 0
    rw [own, List.foldl_filter, Nat.zero_add] at hfold
    simp only [decide_eq_true_eq] at hfold
    rw [Option.elim_some, List.length_map]
    exact hfold

theorem clientCall_eq : (clientCall engine s c message).1 =
    s.extend (s.messSndByRegexp.flatMap (ownLines engine message c)) :=
  congrArg Prod.fst
    (foldl_call (fun s msg => regexpCallUnique_eq engine s message c msg) s.messSndByRegexp s 0)

theorem bytesTo_ownLines : bytesTo c (s.messSndByRegexp.flatMap (ownLines engine message c)) =
    (recordsTo engine s message c).flatMap fun record => record ++ [lf] := by
  rw [recordsTo]
  induction s.messSndByRegexp with
  | nil => rfl
  | cons msg d ih =>
    rw [List.flatMap_cons, List.flatMap_cons, List.flatMap_append, bytesTo_append, ih, ownLines]
    congr 1
    cases ivyBindingExec engine msg.binding message with
    | none => rfl
    | some groups =>
      rw [Option.elim_some, bytesTo_matchLines, own, List.filter_filter]
      simp only [Bool.and_self]
      rfl

theorem mem_ownLines {o : Output}
    (h : o ∈ s.messSndByRegexp.flatMap (ownLines engine message c)) :
    ∃ bytes, o = .send c bytes := by
  obtain ⟨msg, -, hin⟩ := List.mem_flatMap.mp h
  obtain ⟨groups, -, hmem⟩ := mem_elim_nil hin
  obtain ⟨clnt, hclnt, rfl⟩ := List.mem_map.mp hmem
  rw [matchLine, of_decide_eq_true (List.mem_filter.mp hclnt).2]
  exact ⟨_, rfl⟩

theorem exists_messages (hlf : lf ∉ message) (hnul : 0 ∉ message) : ∃ ms : List Message,
    bytesTo c (s.messSndByRegexp.flatMap (ownLines engine message c)) = wire ms ∧
      ∀ m ∈ ms, m.kind = .msg := by
  have hplain : PlainCaptures engine s message := fun _ _ _ _ _ _ hin =>
    hlf (List.mem_of_mem_drop (List.mem_of_mem_take hin))
  have hrecords : ∀ record ∈ recordsTo engine s message c,
      ∃ m : Message, m.kind = .msg ∧ m.line = record := by
    intro record hrecord
    have hlf' := lf_notMem_recordsTo hplain record hrecord
    have hnul' := nul_notMem_recordsTo hnul record hrecord
    obtain ⟨msg, -, groups, -, clnt, -, rfl⟩ := mem_recordsTo hrecord
    rw [List.mem_append, not_or] at hlf' hnul'
    exact ⟨⟨.msg, clnt.id, ⟨captures message groups, hlf'.2, hnul'.2⟩⟩, rfl, rfl⟩
  rw [bytesTo_ownLines]
  generalize recordsTo engine s message c = records at hrecords
  induction records with
  | nil => exact ⟨[], rfl, nofun⟩
  | cons record records ih =>
    obtain ⟨m, hkind, rfl⟩ := hrecords record List.mem_cons_self
    obtain ⟨ms, hbytes, hkinds⟩ := ih fun x hx => hrecords x (List.mem_cons_of_mem _ hx)
    refine ⟨m :: ms, ?_, fun m' hm' => ?_⟩
    · rw [List.flatMap_cons, hbytes]
      rfl
    · rcases List.mem_cons.mp hm' with rfl | hm'
      · exact hkind
      · exact hkinds m' hm'

end ClientCall

end IvyBus.Ivy
