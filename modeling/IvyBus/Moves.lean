import IvyBus.Convergence

namespace IvyBus.Network

open Lib Ivy

variable {Code : Type} {engine : Engine Code}

def Matched (engine : Engine Code) (said : List Str) (r : Str) (text : Str) : Prop :=
  ∃ message ∈ said, ∃ groups,
    ivyBindingExec engine (engine.compile r).toOption message = some groups ∧
      text = captures message groups

def Says (engine : Engine Code) (bound subscribed : List (Int32 × Str)) (said : List Str)
    (m : Message) : Prop :=
  match m.kind with
  | .addRegexp => (m.id, m.text.1) ∈ bound
  | .msg => ∃ r, (m.id, r) ∈ subscribed ∧ Matched engine said r m.text
  | _ => True

def Writes (engine : Engine Code) (said : List Str) (kinds : List MsgType) (s s' : Ivy Code) :
    Prop :=
  ∀ c, ∃ ms : List Message, linesTo c (s'.outputs.drop s.outputs.length) = ms.map Message.line ∧
    ∀ m ∈ ms, m.kind ∈ kinds ∧ Says engine (bindings s') (s.registered c) said m

/-- What a step does to the bindings of an agent, and what it writes. Only an unbinding, which is
announced, takes a binding away. -/
structure Moves (engine : Engine Code) (said : List Str) (kinds : List MsgType)
    (s s' : Ivy Code) : Prop where
  ready_eq : s'.readyMessage = s.readyMessage
  recvId_le : s.recvId.toInt ≤ s'.recvId.toInt
  recvs : (∃ new, s'.msgRecv = new ++ s.msgRecv ∧ ∀ rcv ∈ new, rcv.id = s.recvId ∧
    s.recvId.toInt < s'.recvId.toInt) ∨ .delRegexp ∈ kinds ∧ s'.msgRecv ⊆ s.msgRecv
  writes : Writes engine said kinds s s'

section Moves

variable {s s' : Ivy Code} {said : List Str} {kinds : List MsgType} {c : Handle} {m : Message}

theorem Says.mono {bound bound' subscribed subscribed' : List (Int32 × Str)} {said' : List Str}
    (h : Says engine bound subscribed said m) (hbound : ∀ p ∈ bound, p ∈ bound')
    (hsubscribed : ∀ p ∈ subscribed, p ∈ subscribed') (hsaid : ∀ r ∈ said, r ∈ said') :
    Says engine bound' subscribed' said' m := by
  unfold Says at h ⊢
  split at h
  · exact hbound _ h
  · obtain ⟨r, hr, message, hmessage, hgroups⟩ := h
    exact ⟨r, hsubscribed _ hr, message, hsaid _ hmessage, hgroups⟩
  · trivial

theorem moves_of_frame (hframe : s'.frame = s.frame) (h : Writes engine said kinds s s') :
    Moves engine said kinds s s' :=
  ⟨(congrArg Ivy.readyMessage hframe : s'.frame.readyMessage = s.frame.readyMessage),
    Int.le_of_eq (congrArg Int32.toInt (recvId_of_frame hframe).symm),
    Or.inl ⟨[], (congrArg Ivy.msgRecv hframe : s'.frame.msgRecv = s.frame.msgRecv),
      List.forall_mem_nil _⟩, h⟩

theorem Moves.bindings (h : Moves engine said kinds s s') : ∀ p ∈ bindings s', p ∈ bindings s ∨
    p.1 = s.recvId ∧ s.recvId.toInt < s'.recvId.toInt := by
  intro p hp
  obtain ⟨rcv, hrcv, rfl⟩ := List.mem_map.mp hp
  rcases h.recvs with ⟨new, hnew, hids⟩ | ⟨-, hsub⟩
  · rw [hnew, List.mem_append] at hrcv
    rcases hrcv with hrcv | hrcv
    · exact Or.inr (hids rcv hrcv)
    · exact Or.inl (List.mem_map_of_mem hrcv)
  · exact Or.inl (List.mem_map_of_mem (hsub hrcv))

theorem writes_nothing {os : List Output} (hos : s'.outputs = s.outputs ++ os)
    (hquiet : ∀ c, bytesTo c os = []) : Writes engine said kinds s s' := fun c => by
  refine ⟨[], ?_, List.forall_mem_nil _⟩
  rw [hos, List.drop_left]
  exact linesTo_wire (hquiet c)

theorem writes_all (hnodup : (s.allClients.map IvyClient.client).Nodup)
    (hos : s'.outputs = s.outputs ++ s.allClients.map fun clnt => .send clnt.client m.bytes)
    (hm : ∀ c, m.kind ∈ kinds ∧ Says engine (bindings s') (s.registered c) said m) :
    Writes engine said kinds s s' := fun c => by
  rw [hos, List.drop_left]
  by_cases hc : c ∈ s.allClients.map IvyClient.client
  · refine ⟨[m], linesTo_wire ?_, fun m' hm' => List.mem_singleton.mp hm' ▸ hm c⟩
    rw [bytesTo_all c _ hnodup, if_pos hc, wire, List.flatMap_singleton]
  · refine ⟨[], linesTo_wire ?_, List.forall_mem_nil _⟩
    rw [bytesTo_all c _ hnodup, if_neg hc]
    rfl

theorem writes_one (c : Handle) (ms : List Message) {os : List Output}
    (hos : s'.outputs = s.outputs ++ os) (hother : ∀ c', c' ≠ c → bytesTo c' os = [])
    (hbytes : bytesTo c os = wire ms)
    (hms : ∀ m ∈ ms, m.kind ∈ kinds ∧ Says engine (bindings s') (s.registered c) said m) :
    Writes engine said kinds s s' := fun c' => by
  rw [hos, List.drop_left]
  by_cases hc : c' = c
  · exact ⟨ms, linesTo_wire (hc ▸ hbytes), hc ▸ hms⟩
  · exact ⟨[], linesTo_wire (hother c' hc), List.forall_mem_nil _⟩

theorem AgentOk.moves_bind (h : AgentOk engine s) {r : Str} (hr : Announceable engine r)
    (hs' : ivyBindMsg s r = some s') : Moves engine said [.addRegexp] s s' := by
  rw [ivyBindMsg] at hs'
  split at hs'
  · cases hs'
  · rename_i hmax
    have hlt : s.recvId.toInt < (s.recvId + 1).toInt := by
      have hsucc := toInt_succ hmax
      omega
    rw [← Option.some.inj hs', msgSendToAll, foldl_msgSendToAll]
    refine ⟨rfl, Int.le_of_lt hlt, Or.inl ⟨[⟨s.brk, s.recvId, r⟩], rfl, fun rcv hrcv => ?_⟩, ?_⟩
    · rw [List.mem_singleton.mp hrcv]
      exact ⟨rfl, hlt⟩
    · refine writes_all (m := ⟨.addRegexp, s.recvId, ⟨r, hr.plain⟩⟩) h.wf.clients.handles rfl
        fun c => ⟨List.mem_singleton_self _, ?_⟩
      exact List.mem_cons_self

theorem AgentOk.moves_unbind (h : AgentOk engine s) {addr : Nat}
    (hs' : ivyUnbindMsg s addr = some s') : Moves engine said [.delRegexp] s s' := by
  obtain ⟨msg, -, rfl⟩ := Option.map_eq_some_iff.mp hs'
  rw [msgSendToAll, foldl_msgSendToAll]
  refine ⟨rfl, Int.le_refl _, Or.inr ⟨List.mem_singleton_self _, ?_⟩, ?_⟩
  · exact List.eraseP_sublist.subset
  · exact writes_all (m := ⟨.delRegexp, msg.id, ⟨[], List.not_mem_nil, List.not_mem_nil⟩⟩)
      h.wf.clients.handles rfl fun c => ⟨List.mem_singleton_self _, trivial⟩

theorem moves_kept (hframe : s'.frame = s.frame) (h : Kept engine s s') :
    Moves engine said kinds s s' := by
  obtain ⟨os, hos, hquiet⟩ := h.quiet
  exact moves_of_frame hframe (writes_nothing hos hquiet)

theorem moves_drop (h : s.Wf) (hs' : s.delOneClient c = some s') :
    Moves engine said [] s s' :=
  moves_kept (h.of_delOneClient hs').frame_eq (kept_delOneClient hs')

theorem AgentOk.moves_connect (h : AgentOk engine s) (hnew : s.findClient c = none)
    (appname : Str) : Moves engine said [.startRegexp, .addRegexp, .endRegexp] s
      (sendService engine s c appname) := by
  obtain ⟨-, hframe, -⟩ := h.wf.sendService engine hnew appname
  obtain ⟨adds, hadds, hnotes, -⟩ := exists_announcements c h.regexps
  let start : Message :=
    ⟨.startRegexp, Int32.ofNat s.applicationPort.toNat, ⟨s.applicationName, h.name⟩⟩
  let finish : Message := ⟨.endRegexp, 0, ⟨[], List.not_mem_nil, List.not_mem_nil⟩⟩
  have hbytes : bytesTo c (s.greeting c) = wire (start :: (adds ++ [finish])) := by
    rw [Ivy.greeting, ← List.singleton_append, bytesTo_append, bytesTo_append, hadds]
    simp [bytesTo, wire, Message.bytes, start, finish]
  have hadd : ∀ m ∈ adds, m.kind = .addRegexp ∧ (m.id, m.text.1) ∈ bindings s := by
    intro m hm
    have hnote : note m ∈ announce (bindings s) := hnotes ▸ List.mem_map_of_mem hm
    obtain ⟨p, hp, hput⟩ := List.mem_map.mp hnote
    unfold note at hput
    split at hput
    · rename_i hkind
      obtain ⟨hid, htext⟩ := Note.put.inj hput
      exact ⟨hkind, hid ▸ htext ▸ hp⟩
    · cases hput
    · cases hput
  have hos : (sendService engine s c appname).outputs = s.outputs ++ s.greeting c := by
    rw [sendService_eq engine hnew]
  refine moves_of_frame hframe
    (writes_one c _ hos (fun c' hne => bytesTo_greeting_of_ne hne) hbytes fun m hm => ?_)
  rw [bindings_of_frame hframe]
  rcases List.mem_cons.mp hm with rfl | hm
  · exact ⟨List.mem_cons_self, trivial⟩
  · rcases List.mem_append.mp hm with hm | hm
    · obtain ⟨hkind, hin⟩ := hadd m hm
      unfold Says
      rw [hkind]
      exact ⟨by simp, hin⟩
    · rw [List.mem_singleton.mp hm]
      exact ⟨by simp [finish], trivial⟩

theorem AgentOk.moves_accept (h : AgentOk engine s) (hnew : s.findClient c = none)
    (appname : Str) : Moves engine said [.startRegexp, .addRegexp, .endRegexp] s
      (clientCreate engine s c appname) := by
  rw [clientCreate]
  split
  · exact moves_of_frame rfl (writes_nothing rfl fun _ => rfl)
  · exact h.moves_connect hnew appname

theorem AgentOk.exists_matches (h : AgentOk engine s) {message : Str}
    (hplain : lf ∉ message ∧ 0 ∉ message) (hsaid : message ∈ said) (c : Handle) :
    ∃ ms : List Message,
      (recordsTo engine s message c).flatMap (fun record => record ++ [lf]) = wire ms ∧
        ∀ m ∈ ms, m.kind = .msg ∧ ∃ r, (m.id, r) ∈ s.registered c ∧
          Matched engine said r m.text := by
  have hcaptures : PlainCaptures engine s message := fun _ _ _ _ _ _ hin =>
    hplain.1 (List.mem_of_mem_drop (List.mem_of_mem_take hin))
  have hrecords : ∀ record ∈ recordsTo engine s message c, ∃ m : Message, m.line = record ∧
      m.kind = .msg ∧ ∃ r, (m.id, r) ∈ s.registered c ∧ Matched engine said r m.text := by
    intro record hrecord
    have hlf := lf_notMem_recordsTo hcaptures record hrecord
    have hnul := nul_notMem_recordsTo hplain.2 record hrecord
    obtain ⟨msg, hmsg, groups, hexec, clnt, hclnt, rfl⟩ := mem_recordsTo hrecord
    rw [List.mem_append, not_or] at hlf hnul
    refine ⟨⟨.msg, clnt.id, ⟨captures message groups, hlf.2, hnul.2⟩⟩, rfl, rfl, msg.regexpSrc,
      ?_, message, hsaid, groups, ?_, rfl⟩
    · exact (h.agree.mem_iff c clnt.id msg.regexpSrc).mp ((mem_subscriptions h.wf).mp
        (List.mem_flatMap.mpr ⟨msg, hmsg, List.mem_map_of_mem hclnt⟩))
    · rw [← h.bound msg hmsg]
      exact hexec
  generalize recordsTo engine s message c = records at hrecords
  induction records with
  | nil => exact ⟨[], rfl, List.forall_mem_nil _⟩
  | cons record records ih =>
    obtain ⟨m, rfl, hm⟩ := hrecords record List.mem_cons_self
    obtain ⟨ms, hbytes, hms⟩ := ih fun x hx => hrecords x (List.mem_cons_of_mem _ hx)
    refine ⟨m :: ms, ?_, List.forall_mem_cons.mpr ⟨hm, hms⟩⟩
    rw [List.flatMap_cons, hbytes]
    rfl

theorem AgentOk.moves_send (h : AgentOk engine s) {message : Str}
    (hplain : lf ∉ message ∧ 0 ∉ message) (hsaid : message ∈ said) :
    Moves engine said [.msg] s (ivySendMsg engine s message).1 := by
  cases hmode : s.debugBinaryMsg && ivyCheckBuffer message with
  | true =>
    rw [ivySendMsg, hmode, if_pos rfl]
    exact moves_kept rfl (Kept.refl s)
  | false =>
    rw [ivySendMsg_eq engine hmode]
    refine moves_of_frame rfl fun c => ?_
    obtain ⟨ms, hbytes, hms⟩ := h.exists_matches hplain hsaid c
    refine ⟨ms, ?_, fun m hm => ?_⟩
    · change linesTo c ((s.outputs ++ sendLines engine s message).drop s.outputs.length) = _
      rw [List.drop_left]
      exact linesTo_wire ((bytesTo_sendLines ..).trans hbytes)
    · obtain ⟨hkind, hin⟩ := hms m hm
      unfold Says
      rw [hkind]
      exact ⟨List.mem_singleton_self _, hin⟩

def answers : MsgType → List MsgType
  | .startRegexp => [.error]
  | .endRegexp => [.msg]
  | _ => []

section Receive

variable {clnt : IvyClient}

theorem writes_reject (u : Ivy Code) (hout : u.outputs = s.outputs) (target : Handle) :
    Writes engine said [.error] s (u.rejectDuplicate target) := by
  have hos : (u.rejectDuplicate target).outputs = s.outputs ++
      [.send target (msgText .error 0 (ascii "Application already connected")),
        .close target] := by
    rw [← hout]
    exact List.append_assoc ..
  refine writes_one target [⟨.error, 0, ⟨ascii "Application already connected", by decide,
    by decide⟩⟩] hos (fun c' hne => ?_) ?_ fun m hm => ?_
  · simp [bytesTo, Ne.symm hne]
  · simp [bytesTo, wire, Message.bytes]
  · rw [List.mem_singleton.mp hm]
    exact ⟨List.mem_singleton_self _, trivial⟩

theorem AgentOk.writes_ready (h : AgentOk engine s) {u : Ivy Code}
    (hframe : u.frame = s.frame) (hdict : u.messSndByRegexp = s.messSndByRegexp)
    (hout : u.outputs = s.outputs ++ [.connected c])
    (hsaid : ∀ message, s.readyMessage = some message → message ∈ said) {message : Str}
    (hready : u.readyMessage = some message) :
    Writes engine said [.msg] s (clientCall engine u c message).1 := by
  have hmessage : s.readyMessage = some message :=
    (congrArg Ivy.readyMessage hframe : u.frame.readyMessage = s.frame.readyMessage) ▸ hready
  obtain ⟨ms, hbytes, hms⟩ := h.exists_matches (h.ready _ hmessage) (hsaid _ hmessage) c
  have hos : (clientCall engine u c message).1.outputs = s.outputs ++
      (.connected c :: s.messSndByRegexp.flatMap (ownLines engine message c)) := by
    rw [clientCall_eq, ← hdict]
    change u.outputs ++ _ = _
    rw [hout, List.append_assoc]
    rfl
  refine writes_one c ms hos (fun c' hne => ?_) ?_ fun m hm => ?_
  · exact bytesTo_of_ne (fun o ho => mem_ownLines engine s message c ho) hne
  · exact (bytesTo_ownLines ..).trans hbytes
  · obtain ⟨hkind, hin⟩ := hms m hm
    unfold Says
    rw [hkind]
    exact ⟨List.mem_singleton_self _, hin⟩

theorem AgentOk.moves_endRegexp (h : AgentOk engine s)
    (hsaid : ∀ message, s.readyMessage = some message → message ∈ said) (i : Int32) :
    Moves engine said [.msg] s
      (announceReady engine ((s.setId c i).emit (.connected c)) c) := by
  have hos : (((s.setId c i).emit (.connected c)).countReady c).outputs =
      s.outputs ++ [.connected c] := rfl
  have hnothing : Moves engine said [.msg] s (((s.setId c i).emit (.connected c)).countReady c) :=
    moves_of_frame rfl (writes_nothing hos fun _ => rfl)
  rw [announceReady_eq]
  split
  · rename_i message _ hready _
    have hwrites := h.writes_ready (u := ((s.setId c i).emit (.connected c)).countReady c) rfl rfl
      hos hsaid hready
    split
    · refine moves_of_frame ?_ hwrites
      rw [clientCall_eq]
      rfl
    · exact hnothing
  · exact hnothing

theorem AgentOk.moves_open (h : AgentOk engine s) (hfind : s.findClient c = some clnt)
    (hopen : clnt.ignoreSubsequentMsg = false) (hm : Sent engine m)
    (hsaid : ∀ message, s.readyMessage = some message → message ∈ said)
    (hs' : receive engine s c m.line = some s') : Moves engine said (answers m.kind) s s' := by
  have hframe : s'.frame = s.frame := (h.wf.receive hfind hopen hs').frame_eq
  obtain ⟨kind, i, text⟩ := m
  have hkind := hm.kind
  rw [Message.line, receive_header hfind hopen] at hs'
  simp only [List.mem_cons, List.not_mem_nil, or_false] at hkind
  rcases hkind with rfl | rfl | rfl | rfl | rfl | rfl
  · rw [← Option.some.inj hs', receiveStartRegexp_eq] at hframe ⊢
    split
    · exact moves_kept rfl (Kept.of_eq le_rfl rfl rfl)
    · exact moves_of_frame rfl (writes_reject _ rfl _)
  · obtain ⟨code, hcode⟩ := hm.compiles rfl
    refine moves_kept hframe ((kept_setId s c i).trans ?_)
    dsimp only [receiveAddRegexp] at hs'
    split at hs'
    · exact kept_addOrChangeRegexp hcode hs'
    · exact Option.some.inj hs' ▸ kept_bindCallback ..
  · obtain ⟨⟨u, removed⟩, hu, rfl⟩ := Option.map_eq_some_iff.mp hs'
    refine moves_kept hframe (((kept_setId s c i).trans (kept_delRegexpForOneClient hu)).trans ?_)
    dsimp only
    split
    · exact kept_bindCallback ..
    · exact Kept.refl _
  · rw [← Option.some.inj hs']
    exact h.moves_endRegexp hsaid i
  · exact Option.some.inj hs' ▸ moves_kept rfl (kept_setId s c i)
  · exact Option.some.inj hs' ▸ moves_kept rfl (kept_setId s c i)

theorem AgentOk.moves_receive (h : AgentOk engine s) (hm : Sent engine m)
    (hsaid : ∀ message, s.readyMessage = some message → message ∈ said)
    (hs' : receive engine s c m.line = some s') : Moves engine said (answers m.kind) s s' := by
  obtain ⟨clnt, hfind, ⟨-, rfl⟩ | hopen⟩ := receive_cases hs'
  · exact moves_kept rfl (Kept.refl _)
  · exact h.moves_open hfind hopen hm hsaid hs'

end Receive

end Moves

end IvyBus.Network
