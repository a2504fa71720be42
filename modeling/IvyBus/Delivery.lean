import IvyBus.Agents

namespace IvyBus.Network

open Lib Ivy

variable {Code : Type} {engine : Engine Code} {s s' : Ivy Code} {c : Handle} {m : Message}

structure Heard (engine : Engine Code) (s s' : Ivy Code) (c : Handle) (m : Message) : Prop where
  ok : AgentOk engine s'
  sends : ∀ c', ∃ ms, Sends engine s s' c' ms
  reads : Reads s s' c m
  opens : ∀ c', Open s' c' → Open s c'
  others : ∀ c', c' ≠ c → s'.registered c' = s.registered c'

theorem heard_of_updated (h : AgentOk engine s) {t : Tables} (hupd : Updated s s' t)
    (hkept : Kept engine s s') (hagree : t.Agree)
    (hown : t.registered c = (note m).apply (s.registered c) ∨ t.registered c = s.registered c)
    (hfollows : s.filter.messagesClasses = [] → t.registered c = (note m).apply (s.registered c))
    (hothers : ∀ c', c' ≠ c → t.registered c' = s.registered c') : Heard engine s s' c m := by
  have hsteady := steady_of_bare hupd.frame_eq hupd.clients_eq
  have hregistered : s'.registered = t.registered := congrArg Tables.registered hupd.tables_eq
  refine ⟨h.of_frame hupd.frame_eq hkept.brk_le (hkept.bound h.bound) hupd.wf
    (hupd.tables_eq ▸ hagree), fun c' => ⟨[], sends_kept hsteady hkept c'⟩, ⟨hsteady.opens c,
    filter_of_frame hupd.frame_eq, ?_, fun _ hfilter => ?_⟩, hsteady.opens, fun c' hne => ?_⟩
  · rw [hregistered]
    exact hown
  · rw [hregistered]
    exact hfollows hfilter
  · rw [hregistered, hothers c' hne]

theorem heard_of_steady (h : AgentOk engine s) (hsteady : Steady s s') (hwf : s'.Wf)
    (hbrk : s.brk ≤ s'.brk) (hdict : s'.messSndByRegexp = s.messSndByRegexp)
    (htables : s'.tables = s.tables) (hsends : ∀ c', ∃ ms, Sends engine s s' c' ms)
    (hskip : note m = .skip) : Heard engine s s' c m := by
  have hregistered : s'.registered = s.registered := congrArg Tables.registered htables
  have hbound : Bound engine s' := by
    rw [Bound, hdict]
    exact h.bound
  refine ⟨h.of_frame hsteady.frame_eq hbrk hbound hwf (htables ▸ h.agree), hsends,
    ⟨hsteady.opens c, filter_of_frame hsteady.frame_eq, Or.inr ?_, fun _ _ => ?_⟩, hsteady.opens,
    fun c' _ => ?_⟩
  · rw [hregistered]
  · rw [hregistered, hskip]
    rfl
  · rw [hregistered]

theorem kept_setId (s : Ivy Code) (c : Handle) (i : Int32) : Kept engine s (s.setId c i) :=
  kept_modifyClient ..

section Receive

variable {clnt : IvyClient}

theorem AgentOk.hears_addRegexp (h : AgentOk engine s) (hfind : s.findClient c = some clnt)
    (hopen : clnt.ignoreSubsequentMsg = false) {i : Int32} {r : Text} {code : Code}
    (hcode : engine.compile r = .ok code) (hnew : i ∉ (s.registered c).map Prod.fst) :
    ∃ s', receive engine s c (header .addRegexp i ++ r) = some s' ∧
      Heard engine s s' c ⟨.addRegexp, i, r⟩ := by
  have hnot : (c, i) ∉ s.tables.listed r := by
    rw [h.agree.mem_iff]
    exact fun hin => hnew (List.mem_map_of_mem hin)
  have hfirst : ¬ s.tables.First c i r := fun hf => hnot hf.mem
  have hline : receive engine s c (header .addRegexp i ++ r) =
      receiveAddRegexp engine (s.setId c i) { clnt with id := i } r :=
    receive_header hfind hopen .addRegexp i r
  obtain ⟨s', hs'⟩ : ∃ s', receive engine s c (header .addRegexp i ++ r) = some s' := by
    rw [hline, ← Option.isSome_iff_exists]
    exact (h.wf.setId c i).wf.receiveAddRegexp_isSome (setId_isSome hfind h.wf i)
      (errorFits_of_compile hcode)
  have hupd := h.wf.receive_addRegexp hfind hopen hs'
  refine ⟨s', hs', ?_⟩
  rw [hline, receiveAddRegexp] at hs'
  by_cases hpass : ivyBindingFilter engine s.filter r = true
  · have hpass' : ivyBindingFilter engine (s.setId c i).filter r = true := hpass
    rw [if_pos hpass, Tables.addOrChange, if_neg hfirst] at hupd
    rw [if_pos hpass'] at hs'
    refine heard_of_updated h hupd ((kept_setId s c i).trans (kept_addOrChangeRegexp hcode hs'))
      (h.agree.add_iff.mpr hnot) (Or.inl ?_) (fun _ => ?_) fun c' hne => ?_
    · exact Tables.registered_register_self _
    · exact Tables.registered_register_self _
    · exact Tables.registered_register_of_ne hne _
  · have hpass' : ¬ ivyBindingFilter engine (s.setId c i).filter r = true := hpass
    rw [if_neg hpass] at hupd
    rw [if_neg hpass'] at hs'
    refine heard_of_updated h hupd ?_ h.agree (Or.inr rfl)
      (fun hfilter => absurd (filter_passes hfilter r) hpass) fun _ _ => rfl
    rw [← Option.some.inj hs']
    exact (kept_setId s c i).trans (kept_bindCallback ..)

theorem AgentOk.hears_delRegexp (h : AgentOk engine s) (hfind : s.findClient c = some clnt)
    (hopen : clnt.ignoreSubsequentMsg = false) (i : Int32) (arg : Text) :
    ∃ s', receive engine s c (header .delRegexp i ++ arg) = some s' ∧
      Heard engine s s' c ⟨.delRegexp, i, arg⟩ := by
  obtain ⟨s', hs', hupd⟩ := h.wf.receive_delRegexp engine hfind hopen i arg
  refine ⟨s', hs', heard_of_updated h hupd ?_ (h.agree.del c i) (Or.inl ?_) (fun _ => ?_)
    fun c' hne => ?_⟩
  · have hline : receive engine s c (header .delRegexp i ++ arg) =
        (s.setId c i).receiveDelRegexp { clnt with id := i } arg :=
      receive_header hfind hopen .delRegexp i arg
    rw [hline] at hs'
    obtain ⟨⟨t, removed⟩, ht, rfl⟩ := Option.map_eq_some_iff.mp hs'
    have hkept : Kept engine s t := (kept_setId s c i).trans (kept_delRegexpForOneClient ht)
    dsimp only
    split
    · exact hkept.trans (kept_bindCallback ..)
    · exact hkept
  · exact Tables.registered_register_self _
  · exact Tables.registered_register_self _
  · exact Tables.registered_register_of_ne hne _

theorem steady_setId (s : Ivy Code) (c : Handle) (i : Int32) : Steady s (s.setId c i) :=
  steady_modifyClient s c (fun _ => rfl) fun _ => id

theorem mem_of_checkConnected {other : IvyClient} (h : s.checkConnected c = some other) :
    other ∈ s.allClients := by
  rw [checkConnected] at h
  split at h
  · cases h
  · exact List.mem_of_find?_eq_some h

theorem sends_error (hsteady : Steady s s') {t : Handle} (ht : (s.findClient t).isSome)
    (text : Text) (hos : s'.outputs = s.outputs ++ [.send t (msgText .error 0 text), .close t])
    (c' : Handle) : ∃ ms, Sends engine s s' c' ms := by
  by_cases hc : c' = t
  · refine ⟨[⟨.error, 0, text⟩], sends_skips hsteady.frame_eq (hsteady.nodes c') hos ?_ ?_ ?_ ?_⟩
    · simp [bytesTo, hc, wire, Message.bytes]
    · intro m hm
      rw [List.mem_singleton.mp hm]
      exact ⟨by simp, fun hkind => by cases hkind⟩
    · intro m hm
      rw [List.mem_singleton.mp hm]
      rfl
    · intro hnone
      rw [← hc, hnone] at ht
      cases ht
  · refine ⟨[], sends_skips hsteady.frame_eq (hsteady.nodes c') hos ?_ (List.forall_mem_nil _)
      (List.forall_mem_nil _) fun _ => rfl⟩
    simp [bytesTo, Ne.symm hc, wire]

theorem steady_setName (s : Ivy Code) (c : Handle) (arg : Str) : Steady s (s.setName c arg) := by
  unfold setName
  exact steady_modifyClient s c (fun _ => rfl) fun _ => id

theorem steady_countReady (s : Ivy Code) (c : Handle) : Steady s (s.countReady c) := by
  unfold countReady
  exact steady_modifyClient s c (fun _ => rfl) fun _ => id

theorem steady_rejectDuplicate (s : Ivy Code) (target : Handle) :
    Steady s (s.rejectDuplicate target) := by
  have htold : Steady s ((s.msgSendTo target .error 0
      (ascii "Application already connected")).socketClose target) :=
    ⟨rfl, fun _ => id, fun _ => id⟩
  exact htold.trans (steady_modifyClient _ target (fun _ => rfl) nofun)

theorem AgentOk.hears_startRegexp (h : AgentOk engine s) (hfind : s.findClient c = some clnt)
    (hopen : clnt.ignoreSubsequentMsg = false) (i : Int32) (arg : Text) :
    ∃ s', receive engine s c (header .startRegexp i ++ arg) = some s' ∧
      Heard engine s s' c ⟨.startRegexp, i, arg⟩ := by
  have hline : receive engine s c (header .startRegexp i ++ arg) =
      some ((s.setId c i).receiveStartRegexp { clnt with id := i } arg) :=
    receive_header hfind hopen .startRegexp i arg
  refine ⟨_, hline, ?_⟩
  have hid := h.wf.setId c i
  have hname : Steady s ((s.setId c i).setName clnt.client arg) :=
    (steady_setId s c i).trans (steady_setName ..)
  have hwf := hid.wf.setName clnt.client arg
  have htables : ((s.setId c i).setName clnt.client arg).tables = s.tables :=
    (tables_setName ..).trans hid.tables_eq
  rw [receiveStartRegexp_eq]
  dsimp only
  split
  · exact heard_of_steady h hname hwf le_rfl rfl htables
      (fun c' => ⟨[], sends_kept hname (Kept.of_eq le_rfl rfl rfl) c'⟩) rfl
  · rename_i other hother
    have hnode : (s.findClient (((s.setId c i).setName clnt.client arg).duplicateTarget
        other.client clnt.client)).isSome := by
      rw [duplicateTarget]
      split
      · apply hname.nodes
        exact findClient_isSome.mpr (List.mem_map_of_mem (mem_of_checkConnected hother))
      · have hclient : clnt.client = c := client_of_findClient hfind
        exact Option.isSome_of_eq_some (hclient.symm ▸ hfind)
    have hsteady := hname.trans (steady_rejectDuplicate _
      (((s.setId c i).setName clnt.client arg).duplicateTarget other.client clnt.client))
    refine heard_of_steady h hsteady (hwf.rejectDuplicate _) le_rfl rfl
      ((tables_rejectDuplicate ..).trans htables) ?_ rfl
    exact sends_error hsteady hnode
      ⟨ascii "Application already connected", by decide, by decide⟩ (List.append_assoc ..)

theorem AgentOk.sends_ready (h : AgentOk engine s) {u : Ivy Code} (hu : Steady s u)
    (hc : (s.findClient c).isSome) (hout : u.outputs = s.outputs ++ [.connected c])
    {message : Str} (hready : u.readyMessage = some message) (c' : Handle) :
    ∃ ms, Sends engine s (clientCall engine u c message).1 c' ms := by
  have hmessage : s.readyMessage = u.readyMessage :=
    (congrArg Ivy.readyMessage hu.frame_eq : u.frame.readyMessage = s.frame.readyMessage).symm
  obtain ⟨hlf, hnul⟩ := h.ready message (hmessage.trans hready)
  obtain ⟨ms, hbytes, hkinds⟩ := exists_messages engine u message c hlf hnul
  rw [clientCall_eq]
  have hsteady : Steady s (u.extend (u.messSndByRegexp.flatMap (ownLines engine message c))) :=
    ⟨hu.frame_eq, hu.nodes, hu.opens⟩
  have hos : (u.extend (u.messSndByRegexp.flatMap (ownLines engine message c))).outputs =
      s.outputs ++ (.connected c :: u.messSndByRegexp.flatMap (ownLines engine message c)) := by
    change u.outputs ++ _ = _
    rw [hout, List.append_assoc]
    rfl
  by_cases hother : c' = c
  · rw [hother]
    refine ⟨ms, sends_skips hsteady.frame_eq (hsteady.nodes c) hos hbytes (fun m hm => ?_)
      (fun m hm => ?_) fun hnone => ?_⟩
    · refine ⟨by simp [hkinds m hm], fun hadd => ?_⟩
      rw [hkinds m hm] at hadd
      cases hadd
    · rw [note, hkinds m hm]
    · rw [hnone] at hc
      cases hc
  · have hsilent : bytesTo c' (u.messSndByRegexp.flatMap (ownLines engine message c)) = [] :=
      bytesTo_of_ne (fun o ho => mem_ownLines engine u message c ho) hother
    exact ⟨[], sends_skips hsteady.frame_eq (hsteady.nodes c') hos hsilent nofun nofun
      fun _ => rfl⟩

theorem AgentOk.hears_endRegexp (h : AgentOk engine s) (hfind : s.findClient c = some clnt)
    (hopen : clnt.ignoreSubsequentMsg = false) (i : Int32) (arg : Text) :
    ∃ s', receive engine s c (header .endRegexp i ++ arg) = some s' ∧
      Heard engine s s' c ⟨.endRegexp, i, arg⟩ := by
  have hline : receive engine s c (header .endRegexp i ++ arg) =
      some (announceReady engine ((s.setId c i).emit (.connected c)) c) :=
    receive_header hfind hopen .endRegexp i arg
  refine ⟨_, hline, ?_⟩
  have hid := (h.wf.setId c i).emit (.connected c)
  have hcalled : Steady s ((s.setId c i).emit (.connected c)) :=
    ⟨rfl, (steady_setId s c i).nodes, (steady_setId s c i).opens⟩
  have hu : Steady s (((s.setId c i).emit (.connected c)).countReady c) :=
    hcalled.trans (steady_countReady ..)
  have hwf := hid.wf.countReady c
  have htables : (((s.setId c i).emit (.connected c)).countReady c).tables = s.tables :=
    (tables_countReady ..).trans hid.tables_eq
  have hquiet : ∀ c', bytesTo c' [Output.connected c] = [] := fun _ => rfl
  have hnothing : Heard engine s (((s.setId c i).emit (.connected c)).countReady c) c
      ⟨.endRegexp, i, arg⟩ :=
    heard_of_steady h hu hwf le_rfl rfl htables
      (fun c' => ⟨[], sends_kept hu ⟨le_rfl, fun hb => hb, _, rfl, hquiet⟩ c'⟩) rfl
  rw [announceReady_eq]
  split
  · rename_i message _ hready _
    split
    · have hsends := h.sends_ready hu (Option.isSome_of_eq_some hfind) rfl hready
      rw [clientCall_eq] at hsends ⊢
      exact heard_of_steady h ⟨hu.frame_eq, hu.nodes, hu.opens⟩ ⟨hwf.dict, hwf.clients⟩ le_rfl rfl
        htables hsends rfl
    · exact hnothing
  · exact hnothing

theorem AgentOk.hears_nothing (h : AgentOk engine s) (i : Int32) (hskip : note m = .skip) :
    Heard engine s (s.setId c i) c m :=
  heard_of_steady h (steady_setId s c i) (h.wf.setId c i).wf le_rfl rfl (h.wf.setId c i).tables_eq
    (fun c' => ⟨[], sends_kept (steady_setId s c i) (kept_setId s c i) c'⟩) hskip

theorem AgentOk.ignores (h : AgentOk engine s) (hfind : s.findClient c = some clnt)
    (hignore : clnt.ignoreSubsequentMsg = true) (line : Str) :
    receive engine s c line = some s ∧ Heard engine s s c m := by
  have hclosed : ¬ Open s c := by
    rintro ⟨clnt', hfind', hopen⟩
    rw [hfind] at hfind'
    rw [Option.some.inj hfind', hopen] at hignore
    cases hignore
  refine ⟨by simp [receive, hfind, hignore], h, fun c' => ⟨[], sends_kept (Steady.refl s)
    (Kept.refl s) c'⟩, ⟨id, rfl, Or.inr rfl, fun hopen => absurd hopen hclosed⟩, fun _ => id,
    fun _ _ => rfl⟩

theorem AgentOk.hears (h : AgentOk engine s) (hc : (s.findClient c).isSome)
    (hm : Sent engine m) (hnew : ∀ i ∈ (note m).puts, i ∉ (s.registered c).map Prod.fst) :
    ∃ s', receive engine s c m.line = some s' ∧ Heard engine s s' c m := by
  obtain ⟨clnt, hfind⟩ := Option.isSome_iff_exists.mp hc
  cases hopen : clnt.ignoreSubsequentMsg with
  | true => exact ⟨s, h.ignores hfind hopen m.line⟩
  | false =>
    obtain ⟨kind, i, text⟩ := m
    have hkind := hm.kind
    simp only [List.mem_cons, List.not_mem_nil, or_false] at hkind
    rcases hkind with rfl | rfl | rfl | rfl | rfl | rfl
    · exact h.hears_startRegexp hfind hopen i text
    · obtain ⟨code, hcode⟩ := hm.compiles rfl
      exact h.hears_addRegexp hfind hopen hcode (hnew i (List.mem_singleton_self i))
    · exact h.hears_delRegexp hfind hopen i text
    · exact h.hears_endRegexp hfind hopen i text
    · exact ⟨_, receive_header hfind hopen .error i text, h.hears_nothing i rfl⟩
    · exact ⟨_, receive_header hfind hopen .msg i text, h.hears_nothing i rfl⟩

end Receive

structure Dropped (engine : Engine Code) (s s' : Ivy Code) (c : Handle) : Prop where
  ok : AgentOk engine s'
  sends : ∀ c', ∃ ms, Sends engine s s' c' ms
  opens : ∀ c', Open s' c' → Open s c'
  closed : ¬ Open s' c
  filter_eq : s'.filter = s.filter
  registered_nil : s'.registered c = []
  others : ∀ c', c' ≠ c → s'.registered c' = s.registered c'

theorem AgentOk.drops (h : AgentOk engine s) (hids : ((s.registered c).map Prod.fst).Nodup) :
    ∃ s', s.delOneClient c = some s' ∧ Dropped engine s s' c := by
  have hsafe : SafeIds ((s.srcRegs c).map GlobReg.id) := by
    apply safeIds_of_nodup
    rw [registered, List.map_map] at hids
    exact hids
  obtain ⟨s', hs', hd⟩ := (h.wf.delOneClient c).1 hsafe
  have hkept : Kept engine s s' := kept_delOneClient hs'
  have hregistered : s'.registered = Function.update s.registered c [] :=
    congrArg Tables.registered hd.tables_eq
  have hfind : ∀ c' clnt, (s'.allClients.map bare).find? (·.client = c') = some clnt →
      c' ≠ c ∧ (s.allClients.map bare).find? (·.client = c') = some clnt := by
    intro c' clnt hclnt
    have hmem := List.mem_of_find?_eq_some hclnt
    have hclient : clnt.client = c' := by simpa using List.find?_some hclnt
    rw [hd.clients_eq] at hmem hclnt
    have hne : c' ≠ c := hclient ▸ of_decide_eq_true (List.mem_filter.mp hmem).2
    refine ⟨hne, ?_⟩
    rw [List.find?_filter] at hclnt
    rw [← hclnt]
    congr 1
    funext x
    by_cases hx : x.client = c'
    · simp [hx, hne]
    · simp [hx]
  have hsteady : Steady s s' := by
    refine ⟨hd.frame_eq, fun c' hc' => ?_, fun c' => ?_⟩
    · obtain ⟨clnt, hclnt⟩ := Option.isSome_iff_exists.mp hc'
      obtain ⟨-, hbare⟩ := hfind c' (bare clnt) (by rw [findClient_bare, hclnt]; rfl)
      rw [findClient_bare] at hbare
      rw [← Option.isSome_map, hbare]
      rfl
    · rw [open_iff_bare, open_iff_bare]
      rintro ⟨clnt, hclnt, hopen⟩
      exact ⟨clnt, (hfind c' clnt hclnt).2, hopen⟩
  refine ⟨s', hs', h.of_frame hd.frame_eq hkept.brk_le (hkept.bound h.bound) hd.wf
    (hd.tables_eq ▸ h.agree.disconnect c), fun c' => ⟨[], sends_kept hsteady hkept c'⟩,
    hsteady.opens, ?_, filter_of_frame hd.frame_eq, ?_, fun c' hne => ?_⟩
  · rw [open_iff_bare]
    rintro ⟨clnt, hclnt, -⟩
    exact (hfind c clnt hclnt).1 rfl
  · rw [hregistered, Function.update_self]
  · rw [hregistered, Function.update_of_ne hne]

end IvyBus.Network
