import IvyBus.Quiet

namespace IvyBus.Ivy

variable {Code : Type}

/-- The connection that the duplicate resolution closes. -/
def duplicateTarget (s : Ivy Code) (other clnt : Handle) : Handle :=
  if s.maxPort other > s.maxPort clnt then other else clnt

def rejectDuplicate (s : Ivy Code) (target : Handle) : Ivy Code :=
  ((s.msgSendTo target .error 0 (ascii "Application already connected")).socketClose
    target).modifyClient target fun clnt => { clnt with ignoreSubsequentMsg := true }

def setName (s : Ivy Code) (c : Handle) (arg : Str) : Ivy Code :=
  s.modifyClient c fun clnt =>
    { clnt with appName := arg, appPort := clnt.id.toUInt32.toUInt16 }

def countReady (s : Ivy Code) (c : Handle) : Ivy Code :=
  s.modifyClient c fun clnt => { clnt with readyToSend := clnt.readyToSend + 1 }

theorem findClient_setId (s : Ivy Code) (c : Handle) (i : Int32) (c' : Handle) :
    (s.setId c i).findClient c' =
      (s.findClient c').map fun clnt => if clnt.client = c then { clnt with id := i } else clnt :=
  findClient_modify (f := fun clnt => { clnt with id := i }) (fun _ => rfl) c'

theorem findClient_countReady (s : Ivy Code) (c c' : Handle) :
    (s.countReady c).findClient c' = (s.findClient c').map fun clnt =>
      if clnt.client = c then { clnt with readyToSend := clnt.readyToSend + 1 } else clnt :=
  findClient_modify (f := fun clnt => { clnt with readyToSend := clnt.readyToSend + 1 })
    (fun _ => rfl) c'

section Lines

variable {engine : Engine Code} {s : Ivy Code} {c : Handle} {clnt : IvyClient} {line : Str}

theorem receive_ignored (hfind : s.findClient c = some clnt)
    (hignore : clnt.ignoreSubsequentMsg = true) : receive engine s c line = some s := by
  simp [receive, hfind, hignore]

theorem receive_cases {s' : Ivy Code} (hs' : receive engine s c line = some s') :
    ∃ clnt, s.findClient c = some clnt ∧
      (clnt.ignoreSubsequentMsg = true ∧ s' = s ∨ clnt.ignoreSubsequentMsg = false) := by
  cases hfind : s.findClient c with
  | none =>
    rw [receive, hfind] at hs'
    cases hs'
  | some clnt =>
    refine ⟨clnt, rfl, ?_⟩
    cases hopen : clnt.ignoreSubsequentMsg with
    | true =>
      rw [receive_ignored hfind hopen] at hs'
      exact Or.inl ⟨rfl, (Option.some.inj hs').symm⟩
    | false => exact Or.inr rfl

theorem receive_badFormat (hfind : s.findClient c = some clnt)
    (hopen : clnt.ignoreSubsequentMsg = false) (hbad : parseHeader line = none) :
    receive engine s c line =
      some (((s.msgSendTo c .error 3 badFormat).msgSendTo c .bye 0 []).socketClose c) := by
  simp [receive, hfind, hopen, hbad]

theorem receive_parsed (hfind : s.findClient c = some clnt)
    (hopen : clnt.ignoreSubsequentMsg = false) {h : Header} (hparse : parseHeader line = some h) :
    receive engine s c line =
      match MsgType.ofInt32 h.kindOfMsg with
      | some .bye => some ((s.setId c h.id).socketClose c)
      | some .addRegexp => receiveAddRegexp engine (s.setId c h.id) { clnt with id := h.id } h.arg
      | some .delRegexp => (s.setId c h.id).receiveDelRegexp { clnt with id := h.id } h.arg
      | some .startRegexp =>
        some ((s.setId c h.id).receiveStartRegexp { clnt with id := h.id } h.arg)
      | some .endRegexp => some (announceReady engine ((s.setId c h.id).emit (.connected c)) c)
      | some .ping => some ((s.setId c h.id).msgSendTo c .pong h.id [])
      | _ => some (s.setId c h.id) := by
  simp only [receive, hfind, hopen, hparse]
  rfl

theorem receiveStartRegexp_eq (s : Ivy Code) (clnt : IvyClient) (arg : Str) :
    s.receiveStartRegexp clnt arg =
      match (s.setName clnt.client arg).checkConnected clnt.client with
      | none => s.setName clnt.client arg
      | some other => (s.setName clnt.client arg).rejectDuplicate
          ((s.setName clnt.client arg).duplicateTarget other.client clnt.client) := by
  simp only [receiveStartRegexp]
  change (match (s.setName clnt.client arg).checkConnected clnt.client with
    | none => _
    | some other => _) = _
  cases (s.setName clnt.client arg).checkConnected clnt.client with
  | none => rfl
  | some other =>
    dsimp only
    rw [apply_ite IvyClient.client]
    rfl

theorem announceReady_eq (engine : Engine Code) (s : Ivy Code) (c : Handle) :
    announceReady engine s c =
      match (s.countReady c).readyMessage, (s.countReady c).findClient c with
      | some message, some clnt =>
        if clnt.readyToSend = 2 then (clientCall engine (s.countReady c) c message).1
        else s.countReady c
      | _, _ => s.countReady c := rfl

theorem announceReady_extends (engine : Engine Code) (s : Ivy Code) (c : Handle) :
    ∃ os, announceReady engine s c = (s.countReady c).extend os := by
  rw [announceReady_eq]
  split
  · split
    · exact ⟨_, clientCall_eq ..⟩
    · exact ⟨[], (extend_nil _).symm⟩
  · exact ⟨[], (extend_nil _).symm⟩

end Lines

section Wf

variable {s : Ivy Code}

theorem Wf.setName (h : s.Wf) (c : Handle) (arg : Str) : (s.setName c arg).Wf :=
  h.modifyClient (fun _ => rfl) fun _ => rfl

theorem Wf.countReady (h : s.Wf) (c : Handle) : (s.countReady c).Wf :=
  h.modifyClient (fun _ => rfl) fun _ => rfl

theorem Wf.emit (h : s.Wf) (o : Output) : (s.emit o).Wf := ⟨h.dict, h.clients⟩

theorem Wf.rejectDuplicate (h : s.Wf) (target : Handle) : (s.rejectDuplicate target).Wf :=
  ((h.emit _).emit _).modifyClient (fun _ => rfl) fun _ => rfl

end Wf

def place (clnt : IvyClient) : Nat × Handle := (clnt.addr, clnt.client)

theorem places_rejectDuplicate (s : Ivy Code) (target : Handle) :
    (s.rejectDuplicate target).allClients.map place = s.allClients.map place :=
  map_modifyClient (s := (s.msgSendTo target .error 0 _).socketClose target) fun _ => rfl

theorem frame_rejectDuplicate (s : Ivy Code) (target : Handle) :
    (s.rejectDuplicate target).frame = s.frame := rfl

def kindOf (line : Str) : Option MsgType :=
  (parseHeader line).bind fun h => MsgType.ofInt32 h.kindOfMsg

theorem filter_passes {engine : Engine Code} {s : Ivy Code}
    (h : s.filter.messagesClasses = []) (r : Str) :
    ivyBindingFilter engine s.filter r = true := by
  rw [ivyBindingFilter, h]
  exact if_neg fun hc => hc.2 rfl

section Receive

variable {s : Ivy Code} {c : Handle} {clnt : IvyClient} {line : Str}

theorem Wf.receiveDelRegexp (h : s.Wf) (hc : (s.findClient clnt.client).isSome) (arg : Str) :
    ∃ s', s.receiveDelRegexp clnt arg = some s' ∧
      Updated s s' (s.tables.del clnt.client clnt.id clnt.id) := by
  obtain ⟨s', removed, hs', hupd, -⟩ := h.delRegexpForOneClient hc clnt.id
  rw [Ivy.receiveDelRegexp, hs', Option.map_some]
  refine ⟨_, rfl, ?_⟩
  dsimp only
  split
  · exact hupd.emit _
  · exact hupd

def kindTables (engine : Engine Code) (s : Ivy Code) (c : Handle) (h : Header) :
    Option MsgType → Tables
  | some .addRegexp =>
    if ivyBindingFilter engine s.filter h.arg then s.tables.addOrChange c h.id h.arg else s.tables
  | some .delRegexp => s.tables.del c h.id h.id
  | _ => s.tables

def lineTables (engine : Engine Code) (s : Ivy Code) (c : Handle) (line : Str) : Tables :=
  match parseHeader line with
  | none => s.tables
  | some h => kindTables engine s c h (MsgType.ofInt32 h.kindOfMsg)

theorem lineTables_parsed {engine : Engine Code} {h : Header} (hparse : parseHeader line = some h) :
    lineTables engine s c line = kindTables engine s c h (MsgType.ofInt32 h.kindOfMsg) := by
  rw [lineTables, hparse]

theorem mem_lineTables {engine : Engine Code} {r : Str} {p : Sub}
    (h : p ∈ (lineTables engine s c line).listed r) : p.1 = c ∨ p ∈ s.listed r := by
  rw [lineTables] at h
  split at h
  · exact Or.inr h
  · unfold kindTables at h
    split at h
    · split at h
      · rcases Tables.mem_addOrChange.mp h with ⟨-, rfl⟩ | h
        · exact Or.inl rfl
        · exact Or.inr h
      · exact Or.inr h
    · exact Or.inr (Tables.mem_del.mp h).1
    · exact Or.inr h

theorem mem_lineTables_of_ne {engine : Engine Code} {r : Str} {p : Sub} (hne : p.1 ≠ c)
    (h : p ∈ s.listed r) : p ∈ (lineTables engine s c line).listed r := by
  rw [lineTables]
  split
  · exact h
  · unfold kindTables
    split
    · split
      · exact Tables.mem_addOrChange.mpr (Or.inr h)
      · exact h
    · refine Tables.mem_del.mpr ⟨h, fun _ heq => hne ?_⟩
      rw [heq]
    · exact h

theorem Wf.receive_others {engine : Engine Code} {s' : Ivy Code} (h : s.Wf)
    (hfind : s.findClient c = some clnt) (hopen : clnt.ignoreSubsequentMsg = false)
    (hstart : kindOf line ≠ some .startRegexp) (hend : kindOf line ≠ some .endRegexp)
    (hs' : receive engine s c line = some s') : Updated s s' (lineTables engine s c line) := by
  cases hparse : parseHeader line with
  | none =>
    rw [receive_badFormat hfind hopen hparse] at hs'
    obtain rfl := Option.some.inj hs'
    refine ⟨((h.emit _).emit _).emit _, rfl, rfl, ?_⟩
    rw [lineTables, hparse]
    rfl
  | some hd =>
    have hid := h.setId c hd.id
    have hclient : clnt.client = c := client_of_findClient hfind
    have hnode := setId_isSome hfind h hd.id
    rw [kindOf, hparse, Option.bind_some] at hstart hend
    rw [receive_parsed hfind hopen hparse] at hs'
    rw [lineTables_parsed hparse]
    cases hkind : MsgType.ofInt32 hd.kindOfMsg with
    | none =>
      rw [hkind] at hs'
      exact Option.some.inj hs' ▸ hid
    | some kind =>
      rw [hkind] at hstart hend hs'
      cases kind with
      | addRegexp =>
        have hboth := hid.trans (hid.wf.receiveAddRegexp hnode hs')
        rwa [hid.tables_eq, hclient] at hboth
      | delRegexp =>
        obtain ⟨t, ht, hupd⟩ := @Wf.receiveDelRegexp Code _ { clnt with id := hd.id } hid.wf
          hnode hd.arg
        obtain rfl := Option.some.inj (ht.symm.trans hs')
        have hboth := hid.trans hupd
        rwa [hid.tables_eq, hclient] at hboth
      | startRegexp => exact absurd rfl hstart
      | endRegexp => exact absurd rfl hend
      | bye => exact Option.some.inj hs' ▸ hid.emit _
      | ping => exact Option.some.inj hs' ▸ hid.emit _
      | msg => exact Option.some.inj hs' ▸ hid
      | error => exact Option.some.inj hs' ▸ hid
      | directMsg => exact Option.some.inj hs' ▸ hid
      | die => exact Option.some.inj hs' ▸ hid
      | pong => exact Option.some.inj hs' ▸ hid

/-- What a line asks for when it is an `AddRegexp` that the filter lets through. -/
def AddFits (engine : Engine Code) (s : Ivy Code) (line : Str) : Prop :=
  ∀ hd, parseHeader line = some hd → MsgType.ofInt32 hd.kindOfMsg = some .addRegexp →
    ivyBindingFilter engine s.filter hd.arg → errorFits engine hd.arg

theorem Fitting.lineTables {engine : Engine Code} (h : Fitting engine s.tables)
    (hline : AddFits engine s line) : Fitting engine (lineTables engine s c line) := by
  rw [Ivy.lineTables]
  split
  · exact h
  · rename_i hd hparse
    unfold kindTables
    split
    · rename_i hkind
      split
      · rename_i hpass
        exact h.addOrChange (hline hd hparse hkind hpass) c hd.id
      · exact h
    · exact h.del c hd.id
    · exact h

/-- `Receive` has a result for a line unless the error for its regexp overruns `errorbuffer`. -/
theorem Wf.receive_isSome_iff {engine : Engine Code} (h : s.Wf) (hfit : Fitting engine s.tables)
    (hfind : s.findClient c = some clnt) (hopen : clnt.ignoreSubsequentMsg = false) :
    (Ivy.receive engine s c line).isSome ↔ AddFits engine s line := by
  cases hparse : parseHeader line with
  | none =>
    rw [receive_badFormat hfind hopen hparse]
    refine iff_of_true rfl fun hd hhd => ?_
    rw [hparse] at hhd
    cases hhd
  | some hd =>
    have hid := h.setId c hd.id
    have hnode := setId_isSome hfind h hd.id
    have honly : AddFits engine s line ↔ (MsgType.ofInt32 hd.kindOfMsg = some .addRegexp →
        ivyBindingFilter engine s.filter hd.arg → errorFits engine hd.arg) := by
      simp only [AddFits, hparse, Option.some.injEq, forall_eq']
    rw [receive_parsed hfind hopen hparse, honly]
    cases hkind : MsgType.ofInt32 hd.kindOfMsg with
    | none => exact iff_of_true rfl nofun
    | some kind =>
      cases kind with
      | addRegexp =>
        rw [eq_self, forall_true_left]
        exact hid.wf.receiveAddRegexp_isSome_iff (hid.tables_eq ▸ hfit) hnode
      | delRegexp =>
        obtain ⟨t, ht, -⟩ := @Wf.receiveDelRegexp Code _ { clnt with id := hd.id } hid.wf hnode
          hd.arg
        exact iff_of_true (Option.isSome_of_eq_some ht) nofun
      | startRegexp => exact iff_of_true rfl nofun
      | endRegexp => exact iff_of_true rfl nofun
      | bye => exact iff_of_true rfl nofun
      | ping => exact iff_of_true rfl nofun
      | msg => exact iff_of_true rfl nofun
      | error => exact iff_of_true rfl nofun
      | directMsg => exact iff_of_true rfl nofun
      | die => exact iff_of_true rfl nofun
      | pong => exact iff_of_true rfl nofun

/-- Every node of `s'` was a node of `s`. `k` is what `readyToSend` of the node of `c` has
gained, and a node that was to ignore its lines still is. -/
def Heirs (s s' : Ivy Code) (c : Handle) (k : Nat) : Prop :=
  ∀ clnt ∈ s'.allClients, ∃ clnt₀ ∈ s.allClients, clnt.client = clnt₀.client ∧
    clnt.readyToSend = clnt₀.readyToSend + (if clnt.client = c then k else 0) ∧
    (clnt.ignoreSubsequentMsg = false → clnt₀.ignoreSubsequentMsg = false)

section Heirs

variable {t : Ivy Code} {f : IvyClient → IvyClient} {k : Nat}

theorem Heirs.refl (s : Ivy Code) (c : Handle) : Heirs s s c 0 :=
  fun clnt hclnt => ⟨clnt, hclnt, rfl, by simp, id⟩

theorem Heirs.of_bare (h : t.allClients.map bare = s.allClients.map bare) (c : Handle) :
    Heirs s t c 0 := by
  intro clnt hclnt
  have hmem : bare clnt ∈ s.allClients.map bare := h ▸ List.mem_map_of_mem hclnt
  obtain ⟨clnt₀, h₀, hbare⟩ := List.mem_map.mp hmem
  have hclient : (bare clnt₀).client = (bare clnt).client := congrArg IvyClient.client hbare
  have hready : (bare clnt₀).readyToSend = (bare clnt).readyToSend :=
    congrArg IvyClient.readyToSend hbare
  have hignore : (bare clnt₀).ignoreSubsequentMsg = (bare clnt).ignoreSubsequentMsg :=
    congrArg IvyClient.ignoreSubsequentMsg hbare
  refine ⟨clnt₀, h₀, hclient.symm, ?_, hignore.trans⟩
  rw [ite_self, Nat.add_zero]
  exact hready.symm

theorem Heirs.modifyClient (h : Heirs s t c k) {c' : Handle}
    (hclient : ∀ clnt, (f clnt).client = clnt.client)
    (hready : ∀ clnt, (f clnt).readyToSend = clnt.readyToSend)
    (hopen : ∀ clnt, (f clnt).ignoreSubsequentMsg = false → clnt.ignoreSubsequentMsg = false) :
    Heirs s (t.modifyClient c' f) c k := by
  intro clnt hclnt
  obtain ⟨clnt₁, h₁, rfl⟩ := List.mem_map.mp hclnt
  obtain ⟨clnt₀, h₀, hold⟩ := h clnt₁ h₁
  refine ⟨clnt₀, h₀, ?_⟩
  split
  · rw [hclient, hready]
    exact ⟨hold.1, hold.2.1, fun ho => hold.2.2 (hopen _ ho)⟩
  · exact hold

theorem Heirs.countReady (h : Heirs s t c 0) : Heirs s (t.countReady c) c 1 := by
  intro clnt hclnt
  obtain ⟨clnt₁, h₁, rfl⟩ := List.mem_map.mp hclnt
  obtain ⟨clnt₀, h₀, hclient, hready, hopen⟩ := h clnt₁ h₁
  rw [ite_self, Nat.add_zero] at hready
  refine ⟨clnt₀, h₀, ?_⟩
  by_cases hc : clnt₁.client = c
  · simp only [hc, if_true]
    exact ⟨hc ▸ hclient, by rw [hready], hopen⟩
  · simp only [hc, if_false, Nat.add_zero]
    exact ⟨hclient, hready, hopen⟩

end Heirs

structure Received (engine : Engine Code) (s s' : Ivy Code) (c : Handle) (line : Str) : Prop where
  wf : s'.Wf
  frame_eq : s'.frame = s.frame
  tables_eq : s'.tables = lineTables engine s c line
  heirs : Heirs s s' c (if kindOf line = some .endRegexp then 1 else 0)

theorem tables_setName (s : Ivy Code) (c : Handle) (arg : Str) :
    (s.setName c arg).tables = s.tables := by
  unfold setName
  exact tables_modifyClient (fun _ => rfl) fun _ => rfl

theorem tables_countReady (s : Ivy Code) (c : Handle) : (s.countReady c).tables = s.tables := by
  unfold countReady
  exact tables_modifyClient (fun _ => rfl) fun _ => rfl

theorem tables_rejectDuplicate (s : Ivy Code) (target : Handle) :
    (s.rejectDuplicate target).tables = s.tables :=
  tables_modifyClient (s := (s.msgSendTo target .error 0 _).socketClose target) (fun _ => rfl)
    fun _ => rfl

theorem heirs_setId (s : Ivy Code) (c : Handle) (i : Int32) : Heirs s (s.setId c i) c 0 := by
  unfold setId
  exact (Heirs.refl s c).modifyClient (fun _ => rfl) (fun _ => rfl) fun _ => id

theorem Heirs.setName {s' : Ivy Code} {k : Nat} (h : Heirs s s' c k) (c' : Handle) (arg : Str) :
    Heirs s (s'.setName c' arg) c k := by
  unfold Ivy.setName
  exact h.modifyClient (fun _ => rfl) (fun _ => rfl) fun _ => id

theorem Heirs.rejectDuplicate {s' : Ivy Code} {k : Nat} (h : Heirs s s' c k) (target : Handle) :
    Heirs s (s'.rejectDuplicate target) c k :=
  Heirs.modifyClient (t := (s'.msgSendTo target .error 0 _).socketClose target) h (fun _ => rfl)
    (fun _ => rfl) nofun

theorem received_startRegexp (engine : Engine Code) (h : s.Wf) {hd : Header}
    (hparse : parseHeader line = some hd)
    (hkind : MsgType.ofInt32 hd.kindOfMsg = some .startRegexp) :
    Received engine s ((s.setId c hd.id).receiveStartRegexp clnt hd.arg) c line := by
  have hid := h.setId c hd.id
  have htables : lineTables engine s c line = s.tables := by
    rw [lineTables_parsed hparse, hkind]
    rfl
  have hnoend : kindOf line ≠ some .endRegexp := by
    rw [kindOf, hparse, Option.bind_some, hkind]
    nofun
  have hheirs : Heirs s ((s.setId c hd.id).setName clnt.client hd.arg) c 0 :=
    (heirs_setId s c hd.id).setName clnt.client hd.arg
  have hnamed : ((s.setId c hd.id).setName clnt.client hd.arg).tables = s.tables :=
    (tables_setName ..).trans hid.tables_eq
  have hwf := hid.wf.setName clnt.client hd.arg
  have hframe : ((s.setId c hd.id).setName clnt.client hd.arg).frame = s.frame := rfl
  rw [receiveStartRegexp_eq]
  generalize (s.setId c hd.id).setName clnt.client hd.arg = u at *
  split
  · refine ⟨hwf, hframe, hnamed.trans htables.symm, ?_⟩
    rw [if_neg hnoend]
    exact hheirs
  · refine ⟨hwf.rejectDuplicate _, (frame_rejectDuplicate ..).trans hframe, ?_, ?_⟩
    · rw [htables, tables_rejectDuplicate, hnamed]
    · rw [if_neg hnoend]
      exact hheirs.rejectDuplicate _

theorem received_endRegexp (engine : Engine Code) (h : s.Wf) {hd : Header}
    (hparse : parseHeader line = some hd)
    (hkind : MsgType.ofInt32 hd.kindOfMsg = some .endRegexp) :
    Received engine s (announceReady engine ((s.setId c hd.id).emit (.connected c)) c) c line := by
  have hid := (h.setId c hd.id).emit (.connected c)
  have hend : kindOf line = some .endRegexp := by
    rw [kindOf, hparse, Option.bind_some, hkind]
  have hheirs : Heirs s ((s.setId c hd.id).emit (.connected c)) c 0 := heirs_setId s c hd.id
  obtain ⟨os, hos⟩ := announceReady_extends engine ((s.setId c hd.id).emit (.connected c)) c
  have hwf := hid.wf.countReady c
  rw [hos]
  refine ⟨⟨hwf.dict, hwf.clients⟩, hid.frame_eq, ?_, ?_⟩
  · rw [lineTables_parsed hparse, hkind]
    exact (tables_countReady ..).trans hid.tables_eq
  · rw [if_pos hend]
    exact hheirs.countReady

theorem Wf.receive {engine : Engine Code} {s' : Ivy Code} (h : s.Wf)
    (hfind : s.findClient c = some clnt) (hopen : clnt.ignoreSubsequentMsg = false)
    (hs' : receive engine s c line = some s') : Received engine s s' c line := by
  by_cases hstart : kindOf line = some .startRegexp
  · obtain ⟨hd, hparse, hkind⟩ := Option.bind_eq_some_iff.mp hstart
    rw [receive_parsed hfind hopen hparse, hkind] at hs'
    exact Option.some.inj hs' ▸ received_startRegexp engine h hparse hkind
  · by_cases hend : kindOf line = some .endRegexp
    · obtain ⟨hd, hparse, hkind⟩ := Option.bind_eq_some_iff.mp hend
      rw [receive_parsed hfind hopen hparse, hkind] at hs'
      exact Option.some.inj hs' ▸ received_endRegexp engine h hparse hkind
    · have hupd := h.receive_others hfind hopen hstart hend hs'
      refine ⟨hupd.wf, hupd.frame_eq, hupd.tables_eq, ?_⟩
      rw [if_neg hend]
      exact Heirs.of_bare hupd.clients_eq c

theorem places_setName (s : Ivy Code) (c : Handle) (arg : Str) :
    (s.setName c arg).allClients.map place = s.allClients.map place :=
  map_modifyClient fun _ => rfl

theorem places_announceReady (engine : Engine Code) (s : Ivy Code) (c : Handle) :
    (announceReady engine s c).allClients.map place = s.allClients.map place := by
  obtain ⟨os, hos⟩ := announceReady_extends engine s c
  rw [hos]
  exact map_modifyClient (f := fun clnt => { clnt with readyToSend := clnt.readyToSend + 1 })
    fun _ => rfl

theorem places_setId (s : Ivy Code) (c : Handle) (i : Int32) :
    (s.setId c i).allClients.map place = s.allClients.map place :=
  map_modifyClient fun _ => rfl

theorem places_receive {engine : Engine Code} {s' : Ivy Code} (h : s.Wf)
    (hs' : receive engine s c line = some s') :
    s'.allClients.map place = s.allClients.map place := by
  obtain ⟨clnt, hfind, ⟨-, rfl⟩ | hopen⟩ := receive_cases hs'
  · rfl
  · by_cases hstart : kindOf line = some .startRegexp
    · obtain ⟨hd, hparse, hkind⟩ := Option.bind_eq_some_iff.mp hstart
      rw [receive_parsed hfind hopen hparse, hkind] at hs'
      rw [← Option.some.inj hs', receiveStartRegexp_eq]
      split
      · exact (places_setName ..).trans (places_setId ..)
      · rw [places_rejectDuplicate]
        exact (places_setName ..).trans (places_setId ..)
    · by_cases hend : kindOf line = some .endRegexp
      · obtain ⟨hd, hparse, hkind⟩ := Option.bind_eq_some_iff.mp hend
        rw [receive_parsed hfind hopen hparse, hkind] at hs'
        rw [← Option.some.inj hs', places_announceReady]
        exact places_setId ..
      · have hupd := h.receive_others hfind hopen hstart hend hs'
        exact map_of_bare (fun _ => rfl) hupd.clients_eq

theorem handles_receive {engine : Engine Code} {s' : Ivy Code} (h : s.Wf)
    (hs' : receive engine s c line = some s') :
    s'.allClients.map IvyClient.client = s.allClients.map IvyClient.client := by
  have hplaces := congrArg (List.map Prod.snd) (places_receive h hs')
  rwa [List.map_map, List.map_map] at hplaces

theorem Wf.fitting_receive {engine : Engine Code} {s' : Ivy Code} (h : s.Wf)
    (hfit : Fitting engine s.tables) (hs' : Ivy.receive engine s c line = some s') :
    Fitting engine s'.tables := by
  obtain ⟨clnt, hfind, ⟨-, rfl⟩ | hopen⟩ := receive_cases hs'
  · exact hfit
  · rw [(h.receive hfind hopen hs').tables_eq]
    have hadd := (h.receive_isSome_iff hfit hfind hopen).mp (Option.isSome_of_eq_some hs')
    exact hfit.lineTables hadd

theorem Wf.of_receive {engine : Engine Code} {s' : Ivy Code} (h : s.Wf)
    (hs' : Ivy.receive engine s c line = some s') :
    s'.Wf ∧ ∀ r, ∀ p ∈ s'.listed r, p.1 = c ∧ (s.findClient c).isSome ∨ p ∈ s.listed r := by
  obtain ⟨clnt, hfind, ⟨-, rfl⟩ | hopen⟩ := receive_cases hs'
  · exact ⟨h, fun r p hp => Or.inr hp⟩
  · have hrec := h.receive hfind hopen hs'
    refine ⟨hrec.wf, fun r p hp => ?_⟩
    change p ∈ s'.tables.listed r at hp
    rw [hrec.tables_eq] at hp
    exact (mem_lineTables hp).imp_left fun hown => ⟨hown, Option.isSome_of_eq_some hfind⟩

end Receive

theorem dict_changeGlobal {s s' : Ivy Code} {r : Str} {clnt : IvyClient}
    (h : s.changeGlobal r clnt = some s') : s'.messSndByRegexp = s.messSndByRegexp := by
  rw [changeGlobal] at h
  split at h
  · rw [Option.some.inj h]
  · obtain ⟨l, -, rfl⟩ := Option.map_eq_some_iff.mp h
    rfl

theorem dict_receiveStartRegexp (s : Ivy Code) (clnt : IvyClient) (arg : Str) :
    (s.receiveStartRegexp clnt arg).messSndByRegexp = s.messSndByRegexp := by
  rw [receiveStartRegexp_eq]
  split <;> rfl

theorem dict_announceReady (engine : Engine Code) (s : Ivy Code) (c : Handle) :
    (announceReady engine s c).messSndByRegexp = s.messSndByRegexp := by
  obtain ⟨os, hos⟩ := announceReady_extends engine s c
  rw [hos]
  rfl

theorem dict_receive {engine : Engine Code} {s s' : Ivy Code} {c : Handle} {line : Str}
    (hadd : kindOf line ≠ some .addRegexp) (hdel : kindOf line ≠ some .delRegexp)
    (hs' : receive engine s c line = some s') : s'.messSndByRegexp = s.messSndByRegexp := by
  obtain ⟨clnt, hfind, ⟨-, rfl⟩ | hopen⟩ := receive_cases hs'
  · rfl
  · cases hparse : parseHeader line with
    | none =>
      rw [receive_badFormat hfind hopen hparse] at hs'
      rw [← Option.some.inj hs']
      rfl
    | some h =>
      rw [kindOf, hparse, Option.bind_some] at hadd hdel
      rw [receive_parsed hfind hopen hparse] at hs'
      split at hs'
      · rw [← Option.some.inj hs']
        rfl
      · exact absurd ‹_› hadd
      · exact absurd ‹_› hdel
      · rw [← Option.some.inj hs']
        exact dict_receiveStartRegexp ..
      · rw [← Option.some.inj hs']
        exact dict_announceReady ..
      · rw [← Option.some.inj hs']
        rfl
      · rw [← Option.some.inj hs']
        rfl

theorem Kept.grows {engine : Engine Code} {s s' : Ivy Code} (h : Kept engine s s') :
    s.outputs <+: s'.outputs := by
  obtain ⟨os, hos, -⟩ := h.quiet
  exact ⟨os, hos.symm⟩

end IvyBus.Ivy
