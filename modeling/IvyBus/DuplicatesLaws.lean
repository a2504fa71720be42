import IvyBus.Duplicates

namespace IvyBus.Duplicates

open Lib Ivy

variable {Code : Type}

structure Inv (order : ByteOrder) (a : Agent Code) : Prop where
  wf : a.ivy.Wf
  sockets : ∀ clnt ∈ a.ivy.allClients,
    a.ivy.sockets clnt.client = (a.link clnt.client).socketInfo order
  port : ∀ clnt ∈ a.ivy.allClients, clnt.appPort = (a.advertised clnt.client).getD 0

/-- The state in which `Receive` looks for a duplicate of `c`. -/
structure Looks (order : ByteOrder) (a : Agent Code) (c : Handle) (s : Ivy Code) : Prop where
  handles_eq : s.allClients.map IvyClient.client = a.ivy.allClients.map IvyClient.client
  self : c ∈ a.ivy.allClients.map IvyClient.client
  sockets : ∀ d ∈ a.ivy.allClients.map IvyClient.client,
    s.sockets d = (a.link d).socketInfo order
  port : ∀ clnt ∈ s.allClients, clnt.client ≠ c →
    clnt.appPort = (a.advertised clnt.client).getD 0

section Looks

variable {order : ByteOrder} {a : Agent Code} {c d : Handle} {s : Ivy Code} {clnt : IvyClient}

theorem Twin.remotePort (h : Twin order a c d) (hlooks : Looks order a c s) :
    (s.sockets c).remotePort ≠ 0 := by
  obtain ⟨host, p, q, p', q', hc, -, hne, -⟩ := h.accepted
  rw [hlooks.sockets c hlooks.self, hc]
  exact hne

theorem Looks.mem_handles (h : Looks order a c s) (hclnt : clnt ∈ s.allClients) :
    clnt.client ∈ a.ivy.allClients.map IvyClient.client :=
  h.handles_eq ▸ List.mem_map_of_mem hclnt

theorem Looks.twin_iff (h : Looks order a c s) (hport : (s.sockets c).remotePort ≠ 0)
    (hclnt : clnt ∈ s.allClients) :
    (decide (clnt.client ≠ c) && decide ((s.sockets c).remotePort = clnt.appPort) &&
      decide ((s.sockets clnt.client).remoteAddr = (s.sockets c).remoteAddr)) = true ↔
      Twin order a c clnt.client := by
  have hmem := h.mem_handles hclnt
  simp only [Bool.and_eq_true, decide_eq_true_eq]
  rw [h.sockets c h.self] at hport
  rw [h.sockets c h.self, h.sockets _ hmem]
  constructor
  · rintro ⟨⟨hne, heq⟩, haddr⟩
    refine ⟨hne, findClient_isSome.mpr hmem, ?_⟩
    rw [h.port clnt hclnt hne] at heq
    cases hc : a.link c with
    | opened host localPort =>
      rw [hc] at hport
      exact absurd rfl hport
    | accepted host p q =>
      rw [hc] at hport heq haddr
      cases hd : a.link clnt.client with
      | opened host' localPort =>
        rw [hd] at haddr
        exact absurd haddr.symm host.2
      | accepted host' p' q' =>
        rw [hd] at haddr
        obtain rfl : host' = host := Subtype.ext haddr
        refine ⟨host', p, q, p', q', rfl, rfl, hport, ?_⟩
        cases hadv : a.advertised clnt.client with
        | none =>
          rw [hadv] at heq
          exact absurd heq hport
        | some port =>
          rw [hadv] at heq
          exact congrArg some heq.symm
  · rintro ⟨hne, -, host, p, q, p', q', hc, hd, -, hadv⟩
    rw [h.port clnt hclnt hne, hc, hd, hadv]
    exact ⟨⟨hne, rfl⟩, rfl⟩

/-- `CheckConnected` finds the last twin. -/
theorem Looks.none_iff (h : Looks order a c s) :
    s.checkConnected c = none ↔ ¬ ∃ d, Twin order a c d := by
  rw [checkConnected]
  split
  · rename_i hport
    exact iff_of_true rfl fun ⟨d, hd⟩ => hd.remotePort h hport
  · rename_i hport
    rw [List.find?_eq_none]
    constructor
    · rintro hall ⟨d, hd⟩
      have hmem := findClient_isSome.mp hd.node
      rw [← h.handles_eq] at hmem
      obtain ⟨clnt, hclnt, rfl⟩ := List.mem_map.mp hmem
      exact hall clnt hclnt ((h.twin_iff hport hclnt).mpr hd)
    · exact fun hno clnt hclnt hfound => hno ⟨_, (h.twin_iff hport hclnt).mp hfound⟩

theorem Looks.lastTwin (h : Looks order a c s) {other : IvyClient}
    (hother : s.checkConnected c = some other) : LastTwin order a c other.client := by
  rw [checkConnected] at hother
  split at hother
  · cases hother
  · rename_i hport
    obtain ⟨hfound, newer, older, hlist, hnewer⟩ := List.find?_eq_some_iff_append.mp hother
    have hmem : other ∈ s.allClients := List.mem_of_find?_eq_some hother
    refine ⟨newer.map IvyClient.client, older.map IvyClient.client, ?_,
      (h.twin_iff hport hmem).mp hfound, fun d' hd' htwin => ?_⟩
    · rw [← h.handles_eq, hlist, List.map_append, List.map_cons]
    · obtain ⟨clnt, hclnt, rfl⟩ := List.mem_map.mp hd'
      have hin : clnt ∈ s.allClients := hlist ▸ List.mem_append_left _ hclnt
      have hno := hnewer clnt hclnt
      rw [(h.twin_iff hport hin).mpr htwin] at hno
      cases hno

theorem LastTwin.unique {d' : Handle} (h : LastTwin order a c d) (h' : LastTwin order a c d') :
    d' = d := by
  obtain ⟨newer, older, hlist, htwin, hnewer⟩ := h
  obtain ⟨newer', older', hlist', htwin', hnewer'⟩ := h'
  rw [hlist] at hlist'
  rcases List.append_eq_append_iff.mp hlist' with ⟨mid, hmid, hrest⟩ | ⟨mid, hmid, hrest⟩
  · cases mid with
    | nil => exact (List.cons.inj hrest).1.symm
    | cons m mid =>
      obtain ⟨rfl, -⟩ := List.cons.inj hrest
      exact absurd htwin (hnewer' d (hmid ▸ List.mem_append_right _ List.mem_cons_self))
  · cases mid with
    | nil => exact (List.cons.inj hrest).1
    | cons m mid =>
      obtain ⟨rfl, -⟩ := List.cons.inj hrest
      exact absurd htwin' (hnewer d' (hmid ▸ List.mem_append_right _ List.mem_cons_self))

theorem Looks.maxPort_eq (h : Looks order a c s)
    (hd : d ∈ a.ivy.allClients.map IvyClient.client) : s.maxPort d = maxPort order a d := by
  rw [Ivy.maxPort, h.sockets d hd, maxPort]
  cases a.link d with
  | opened host localPort => exact max_zero localPort
  | accepted host p q => rfl

end Looks

section StartRegexp

variable {order : ByteOrder} {engine : Engine Code} {a : Agent Code} {c : Handle} {bytes : Str}
  {port : UInt16}

theorem startPort_eq_some (h : startPort a c bytes = some port) : ∃ clnt hd,
    a.ivy.findClient c = some clnt ∧ clnt.ignoreSubsequentMsg = false ∧
      parseHeader bytes = some hd ∧ MsgType.ofInt32 hd.kindOfMsg = some .startRegexp ∧
        hd.id.toUInt32.toUInt16 = port := by
  rw [startPort] at h
  split at h
  · rename_i clnt hd hfind hparse
    split at h
    · rename_i hstart
      exact ⟨clnt, hd, hfind, hstart.1, hparse, hstart.2, Option.some.inj h⟩
    · cases h
  · cases h

/-- The state of `Receive` after it has stored what a `StartRegexp` says. -/
def named (s : Ivy Code) (c : Handle) (hd : Header) : Ivy Code :=
  (s.setId c hd.id).setName c hd.arg

theorem mem_named {s : Ivy Code} {hd : Header} {clnt : IvyClient}
    (h : clnt ∈ (named s c hd).allClients) : ∃ clnt₀ ∈ s.allClients,
      clnt.client = clnt₀.client ∧
        clnt.appPort = if clnt.client = c then hd.id.toUInt32.toUInt16 else clnt₀.appPort := by
  obtain ⟨clnt₁, h₁, rfl⟩ := List.mem_map.mp h
  obtain ⟨clnt₀, h₀, rfl⟩ := List.mem_map.mp h₁
  refine ⟨clnt₀, h₀, ?_⟩
  by_cases hc : clnt₀.client = c <;> simp [hc]

theorem handles_named (s : Ivy Code) (c : Handle) (hd : Header) :
    (named s c hd).allClients.map IvyClient.client = s.allClients.map IvyClient.client := by
  have hid : (s.setId c hd.id).allClients.map IvyClient.client =
      s.allClients.map IvyClient.client := map_modifyClient fun _ => rfl
  rw [← hid]
  exact map_modifyClient fun _ => rfl

theorem receive_startRegexp {clnt : IvyClient} {hd : Header}
    (hfind : a.ivy.findClient c = some clnt) (hopen : clnt.ignoreSubsequentMsg = false)
    (hparse : parseHeader bytes = some hd)
    (hkind : MsgType.ofInt32 hd.kindOfMsg = some .startRegexp) :
    receive engine a.ivy c bytes = some (match (named a.ivy c hd).checkConnected c with
      | none => named a.ivy c hd
      | some other => (named a.ivy c hd).rejectDuplicate
          ((named a.ivy c hd).duplicateTarget other.client c)) := by
  have hclient : clnt.client = c := client_of_findClient hfind
  rw [receive_parsed hfind hopen hparse, hkind]
  dsimp only
  rw [receiveStartRegexp_eq, hclient]
  rfl

theorem Inv.looks (h : Inv order a) {clnt : IvyClient} (hfind : a.ivy.findClient c = some clnt)
    (hd : Header) : Looks order a c (named a.ivy c hd) := by
  refine ⟨handles_named a.ivy c hd, ?_, fun d hmem => ?_, fun clnt hclnt hne => ?_⟩
  · exact findClient_isSome.mp (Option.isSome_of_eq_some hfind)
  · obtain ⟨clnt, hclnt, rfl⟩ := List.mem_map.mp hmem
    exact h.sockets clnt hclnt
  · obtain ⟨clnt₀, h₀, hclient, hport⟩ := mem_named hclnt
    rw [hport, if_neg hne, hclient]
    exact h.port clnt₀ h₀

theorem outputs_rejectDuplicate (s : Ivy Code) (target : Handle) :
    (s.rejectDuplicate target).outputs = s.outputs ++ rejection target :=
  List.append_assoc ..

theorem rejection_injective {t t' : Handle} (h : rejection t = rejection t') : t = t' := by
  injection h with _ hclose
  injection hclose with hclose
  injection hclose

theorem Looks.target_iff {s : Ivy Code} {d : Handle} (h : Looks order a c s)
    (hlast : LastTwin order a c d) :
    s.duplicateTarget d c = c ∨ Duplicate a c port (s.duplicateTarget d c) ↔
      Duplicate a c port d ∨ maxPort order a d ≤ maxPort order a c := by
  obtain ⟨newer, older, hlist, htwin, -⟩ := hlast
  rw [duplicateTarget, h.maxPort_eq (findClient_isSome.mp htwin.node), h.maxPort_eq h.self]
  split
  · rename_i hlt
    have hnot : ¬ maxPort order a d ≤ maxPort order a c := UInt16.not_le.mpr hlt
    simp only [htwin.ne, hnot, false_or, or_false]
  · rename_i hle
    exact iff_of_true (Or.inl rfl) (Or.inr (UInt16.not_lt.mp hle))

theorem Inv.recognised_iff (h : Inv order a) (e : Event) :
    Recognised engine a e ↔ Paired order a e := by
  cases e with
  | connect c host localPort appname => exact Iff.rfl
  | accept c host remotePort localPort appname => exact Iff.rfl
  | drop c => exact Iff.rfl
  | line c bytes =>
    simp only [Recognised, Paired]
    refine forall_congr' fun port => ?_
    rw [forall_comm]
    refine forall_congr' fun hport => ?_
    obtain ⟨clnt, hd, hfind, hopen, hparse, hkind, rfl⟩ := startPort_eq_some hport
    have hlooks := h.looks hfind hd
    simp only [receive_startRegexp hfind hopen hparse hkind, Option.some.injEq, forall_eq']
    cases hother : (named a.ivy c hd).checkConnected c with
    | none =>
      have hno := hlooks.none_iff.mp hother
      have hnone : ¬ ∃ t, LastTwin order a c t ∧ (Duplicate a c hd.id.toUInt32.toUInt16 t ∨
          maxPort order a t ≤ maxPort order a c) := by
        rintro ⟨t, ⟨-, -, -, htwin, -⟩, -⟩
        exact hno ⟨t, htwin⟩
      have hsame : (named a.ivy c hd).outputs = a.ivy.outputs := rfl
      have hrejects : ¬ ∃ t, (t = c ∨ Duplicate a c hd.id.toUInt32.toUInt16 t) ∧
          a.ivy.outputs = a.ivy.outputs ++ rejection t := by
        rintro ⟨t, -, hout⟩
        exact absurd (List.self_eq_append_right.mp hout) (List.cons_ne_nil _ _)
      simp only [hsame, hno, hnone, hrejects, and_false, not_false_iff, and_true, false_or,
        or_false]
    | some other =>
      have hlast := hlooks.lastTwin hother
      have hrejects : (∃ t, (t = c ∨ Duplicate a c hd.id.toUInt32.toUInt16 t) ∧
          ((named a.ivy c hd).rejectDuplicate
            ((named a.ivy c hd).duplicateTarget other.client c)).outputs =
              a.ivy.outputs ++ rejection t) ↔
          Duplicate a c hd.id.toUInt32.toUInt16 other.client ∨
            maxPort order a other.client ≤ maxPort order a c := by
        rw [← hlooks.target_iff hlast]
        constructor
        · rintro ⟨t, ht, hout⟩
          rw [outputs_rejectDuplicate] at hout
          rwa [rejection_injective (List.append_cancel_left hout)]
        · exact fun ht => ⟨_, ht, outputs_rejectDuplicate ..⟩
      have hpairs : (∃ t, LastTwin order a c t ∧ (Duplicate a c hd.id.toUInt32.toUInt16 t ∨
          maxPort order a t ≤ maxPort order a c)) ↔
          Duplicate a c hd.id.toUInt32.toUInt16 other.client ∨
            maxPort order a other.client ≤ maxPort order a c := by
        constructor
        · rintro ⟨t, ht, hsmall⟩
          rwa [hlast.unique ht] at hsmall
        · exact fun hsmall => ⟨_, hlast, hsmall⟩
      have htwin : ∃ d, Twin order a c d := by
        obtain ⟨-, -, -, htwin, -⟩ := hlast
        exact ⟨_, htwin⟩
      have hsent : ((named a.ivy c hd).rejectDuplicate
          ((named a.ivy c hd).duplicateTarget other.client c)).outputs ≠ a.ivy.outputs := by
        rw [outputs_rejectDuplicate]
        exact fun hout => List.cons_ne_nil _ _ (List.append_right_eq_self.mp hout)
      simp only [hrejects, hpairs, htwin, hsent, not_true, and_false, or_false, false_or]

end StartRegexp

def Kin (s s' : Ivy Code) : Prop :=
  ∀ clnt ∈ s'.allClients, ∃ clnt₀ ∈ s.allClients, clnt.client = clnt₀.client ∧
    clnt.appPort = clnt₀.appPort

section Kin

variable {s u s' : Ivy Code} {c : Handle}

theorem Kin.refl (s : Ivy Code) : Kin s s := fun clnt hclnt => ⟨clnt, hclnt, rfl, rfl⟩

theorem Kin.of_bare (h : ∀ n ∈ s'.allClients.map bare, n ∈ s.allClients.map bare) : Kin s s' := by
  intro clnt hclnt
  obtain ⟨clnt₀, h₀, hbare⟩ := List.mem_map.mp (h (bare clnt) (List.mem_map_of_mem hclnt))
  exact ⟨clnt₀, h₀, (congrArg IvyClient.client hbare : (bare clnt₀).client = _).symm,
    (congrArg IvyClient.appPort hbare : (bare clnt₀).appPort = _).symm⟩

theorem Kin.modifyClient (h : Kin s s') {f : IvyClient → IvyClient}
    (hc : ∀ clnt, (f clnt).client = clnt.client) (hp : ∀ clnt, (f clnt).appPort = clnt.appPort) :
    Kin s (s'.modifyClient c f) := by
  intro clnt hclnt
  obtain ⟨clnt₁, h₁, rfl⟩ := List.mem_map.mp hclnt
  obtain ⟨clnt₀, h₀, hclient, hport⟩ := h clnt₁ h₁
  refine ⟨clnt₀, h₀, ?_⟩
  split
  · exact ⟨(hc _).trans hclient, (hp _).trans hport⟩
  · exact ⟨hclient, hport⟩

theorem Kin.node (h : Kin s s') {d : Handle} (hd : (s'.findClient d).isSome) :
    (s.findClient d).isSome := by
  rw [findClient_isSome] at hd ⊢
  obtain ⟨clnt, hclnt, rfl⟩ := List.mem_map.mp hd
  obtain ⟨clnt₀, h₀, hclient, -⟩ := h clnt hclnt
  exact hclient ▸ List.mem_map_of_mem h₀

end Kin

section Steps

variable {order : ByteOrder} {engine : Engine Code} {a a' : Agent Code} {c : Handle}
  {bytes : Str} {s' : Ivy Code}

theorem sockets_of_frame {s : Ivy Code} (h : s'.frame = s.frame) : s'.sockets = s.sockets :=
  (congrArg Ivy.sockets h : s'.frame.sockets = s.frame.sockets)

theorem Inv.put (h : Inv order a) (hwf : s'.Wf) (hframe : s'.frame = a.ivy.frame)
    (hkin : Kin a.ivy s') : Inv order (a.put s') := by
  refine ⟨hwf, fun clnt hclnt => ?_, fun clnt hclnt => ?_⟩
  · obtain ⟨clnt₀, h₀, hclient, -⟩ := hkin clnt hclnt
    change s'.sockets _ = _
    rw [sockets_of_frame hframe, hclient]
    exact h.sockets clnt₀ h₀
  · obtain ⟨clnt₀, h₀, hclient, hport⟩ := hkin clnt hclnt
    rw [hport, hclient]
    exact h.port clnt₀ h₀

theorem Inv.line_others (h : Inv order a) {clnt : IvyClient}
    (hfind : a.ivy.findClient c = some clnt) (hport : startPort a c bytes = none)
    (hs' : receive engine a.ivy c bytes = some s') : Inv order (a.put s') := by
  cases hopen : clnt.ignoreSubsequentMsg with
  | true =>
    rw [receive_ignored hfind hopen] at hs'
    exact Option.some.inj hs' ▸ h.put h.wf rfl (Kin.refl _)
  | false =>
    have hstart : kindOf bytes ≠ some .startRegexp := by
      intro hkind
      obtain ⟨hd, hparse, hkind⟩ := Option.bind_eq_some_iff.mp hkind
      rw [startPort, hfind, hparse] at hport
      simp [hopen, hkind] at hport
    by_cases hend : kindOf bytes = some .endRegexp
    · obtain ⟨hd, hparse, hkind⟩ := Option.bind_eq_some_iff.mp hend
      obtain ⟨os, hos⟩ := announceReady_extends engine
        ((a.ivy.setId c hd.id).emit (.connected c)) c
      have hwf : (((a.ivy.setId c hd.id).emit (.connected c)).countReady c).Wf :=
        ((h.wf.setId c hd.id).wf.emit _).countReady c
      have hkin : Kin a.ivy ((a.ivy.setId c hd.id).emit (.connected c)) :=
        (Kin.refl a.ivy).modifyClient (fun _ => rfl) fun _ => rfl
      have hkin' : Kin a.ivy (((a.ivy.setId c hd.id).emit (.connected c)).countReady c) :=
        hkin.modifyClient (fun _ => rfl) fun _ => rfl
      rw [receive_parsed hfind hopen hparse, hkind] at hs'
      rw [← Option.some.inj hs', hos]
      exact h.put ⟨hwf.dict, hwf.clients⟩ rfl hkin'
    · have hother := h.wf.receive_others hfind hopen hstart hend hs'
      have hkin : Kin a.ivy s' := Kin.of_bare fun _ hn => hother.clients_eq ▸ hn
      exact h.put hother.wf hother.frame_eq hkin

theorem Agent.hear_of_none (hport : startPort a c bytes = none) : a.hear c bytes = a := by
  rw [Agent.hear, hport]

theorem Agent.hear_of_some {port : UInt16} (hport : startPort a c bytes = some port) :
    a.hear c bytes = { a with advertised := Function.update a.advertised c (some port) } := by
  rw [Agent.hear, hport]

theorem Inv.put_named (h : Inv order a) {port : UInt16} (hport : startPort a c bytes = some port)
    (hwf : s'.Wf) (hframe : s'.frame = a.ivy.frame)
    (hnodes : ∀ clnt ∈ s'.allClients, ∃ clnt₀ ∈ a.ivy.allClients, clnt.client = clnt₀.client ∧
      clnt.appPort = if clnt.client = c then port else clnt₀.appPort) :
    Inv order ((a.hear c bytes).put s') := by
  rw [Agent.hear_of_some hport]
  refine ⟨hwf, fun clnt hclnt => ?_, fun clnt hclnt => ?_⟩
  · obtain ⟨clnt₀, h₀, hclient, -⟩ := hnodes clnt hclnt
    change s'.sockets _ = _
    rw [sockets_of_frame hframe, hclient]
    exact h.sockets clnt₀ h₀
  · obtain ⟨clnt₀, h₀, hclient, happ⟩ := hnodes clnt hclnt
    rw [happ]
    by_cases hc : clnt.client = c
    · rw [if_pos hc, hc]
      change port = (Function.update a.advertised c (some port) c).getD 0
      rw [Function.update_self]
      rfl
    · rw [if_neg hc]
      change _ = (Function.update a.advertised c (some port) clnt.client).getD 0
      rw [Function.update_of_ne hc, hclient]
      exact h.port clnt₀ h₀

theorem Inv.line_start (h : Inv order a) {port : UInt16}
    (hport : startPort a c bytes = some port) :
    ∃ s', receive engine a.ivy c bytes = some s' ∧ Inv order ((a.hear c bytes).put s') := by
  obtain ⟨clnt, hd, hfind, hopen, hparse, hkind, rfl⟩ := startPort_eq_some hport
  have hwf : (named a.ivy c hd).Wf := (h.wf.setId c hd.id).wf.setName c hd.arg
  refine ⟨_, receive_startRegexp hfind hopen hparse hkind, ?_⟩
  cases (named a.ivy c hd).checkConnected c with
  | none =>
    dsimp only
    exact h.put_named hport hwf rfl fun _ hclnt => mem_named hclnt
  | some other =>
    dsimp only
    have hframe := frame_rejectDuplicate (named a.ivy c hd)
      ((named a.ivy c hd).duplicateTarget other.client c)
    refine h.put_named hport (hwf.rejectDuplicate _) hframe fun clnt hclnt => ?_
    obtain ⟨clnt₁, h₁, rfl⟩ := List.mem_map.mp hclnt
    obtain ⟨clnt₀, h₀, hclient, happ⟩ := mem_named h₁
    refine ⟨clnt₀, h₀, ?_⟩
    split
    · exact ⟨hclient, happ⟩
    · exact ⟨hclient, happ⟩

theorem Inv.line (h : Inv order a) (hnode : (a.ivy.findClient c).isSome)
    (hs' : receive engine a.ivy c bytes = some s') : Inv order ((a.hear c bytes).put s') ∧
      ∀ d, (s'.findClient d).isSome → (a.ivy.findClient d).isSome := by
  obtain ⟨clnt, hfind⟩ := Option.isSome_iff_exists.mp hnode
  refine ⟨?_, fun d hd => ?_⟩
  · cases hport : startPort a c bytes with
    | none =>
      rw [Agent.hear_of_none hport]
      exact h.line_others hfind hport hs'
    | some port =>
      obtain ⟨t, ht, hinv⟩ := @Inv.line_start Code order engine a c bytes h port hport
      exact Option.some.inj (ht.symm.trans hs') ▸ hinv
  · rw [findClient_isSome, handles_receive h.wf hs'] at hd
    exact findClient_isSome.mpr hd

theorem Inv.join (h : Inv order a) (hnew : a.ivy.findClient c = none) (link : Link) :
    Inv order (a.join order c link) := by
  have hother : ∀ clnt ∈ a.ivy.allClients, clnt.client ≠ c := fun clnt hclnt heq =>
    List.find?_eq_none.mp hnew clnt hclnt (decide_eq_true heq)
  refine ⟨⟨h.wf.dict, h.wf.clients⟩, fun clnt hclnt => ?_, fun clnt hclnt => ?_⟩
  · change Function.update a.ivy.sockets c _ _ =
      Link.socketInfo order (Function.update a.link c _ _)
    rw [Function.update_of_ne (hother clnt hclnt), Function.update_of_ne (hother clnt hclnt)]
    exact h.sockets clnt hclnt
  · change clnt.appPort = (Function.update a.advertised c none _).getD 0
    rw [Function.update_of_ne (hother clnt hclnt)]
    exact h.port clnt hclnt

theorem Inv.sendService (engine : Engine Code) (h : Inv order a) (hnew : a.ivy.findClient c = none)
    (link : Link) (appname : Str) : Inv order ((a.join order c link).put
      (sendService engine (a.join order c link).ivy c appname)) := by
  have hjoin := h.join hnew link
  have hnew' : (a.join order c link).ivy.findClient c = none := hnew
  obtain ⟨hwf, -, -⟩ := hjoin.wf.sendService engine hnew' appname
  have hnodes := sendService_eq engine hnew' appname
  refine ⟨hwf, fun clnt hclnt => ?_, fun clnt hclnt => ?_⟩
  · change (Ivy.sendService engine _ c appname).sockets _ = _
    change clnt ∈ (Ivy.sendService engine _ c appname).allClients at hclnt
    rw [hnodes] at hclnt ⊢
    rcases List.mem_cons.mp hclnt with rfl | hclnt
    · change Function.update a.ivy.sockets c _ c =
        Link.socketInfo order (Function.update a.link c _ c)
      rw [Function.update_self, Function.update_self]
      rfl
    · exact hjoin.sockets clnt hclnt
  · change clnt ∈ (Ivy.sendService engine _ c appname).allClients at hclnt
    rw [hnodes] at hclnt
    rcases List.mem_cons.mp hclnt with rfl | hclnt
    · change 0 = (Function.update a.advertised c none c).getD 0
      rw [Function.update_self]
      rfl
    · exact hjoin.port clnt hclnt

theorem Inv.clientCreate (engine : Engine Code) (h : Inv order a)
    (hnew : a.ivy.findClient c = none) (link : Link) (appname : Str) :
    Inv order ((a.join order c link).put
      (clientCreate engine (a.join order c link).ivy c appname)) := by
  rw [Ivy.clientCreate]
  split
  · exact (h.join hnew link).put ((h.join hnew link).wf.emit _) rfl (Kin.refl _)
  · exact h.sendService engine hnew link appname

theorem Inv.drop (h : Inv order a) (hdrop : a.ivy.delOneClient c = some s') :
    Inv order (a.put s') ∧ Kin a.ivy s' := by
  have hd := h.wf.of_delOneClient hdrop
  have hkin : Kin a.ivy s' := Kin.of_bare fun n hn =>
    (List.mem_filter.mp (hd.clients_eq ▸ hn)).1
  exact ⟨h.put hd.wf hd.frame_eq hkin, hkin⟩

theorem Inv.next (h : Inv order a) {e : Event} (hnext : next order engine a e = some a') :
    Inv order a' := by
  cases e with
  | connect c host localPort appname =>
    refine preserved_unless h hnext fun hnew hnext => ?_
    rw [← Option.some.inj hnext]
    exact h.sendService engine (Option.not_isSome_iff_eq_none.mp hnew) _ appname
  | accept c host remotePort localPort appname =>
    refine preserved_unless h hnext fun hnew hnext => ?_
    rw [← Option.some.inj hnext]
    exact h.clientCreate engine (Option.not_isSome_iff_eq_none.mp hnew) _ appname
  | line c bytes =>
    refine preserved_when h hnext fun hnode hnext => ?_
    obtain ⟨s', hs', rfl⟩ := Option.map_eq_some_iff.mp hnext
    exact (h.line hnode hs').1
  | drop c =>
    obtain ⟨s', hs', rfl⟩ := Option.map_eq_some_iff.mp hnext
    exact (h.drop hs').1

end Steps

section Distinct

variable {order : ByteOrder} {engine : Engine Code} {a a' : Agent Code} {c : Handle}
  {bytes : Str} {s' : Ivy Code}

theorem not_closed_of_put {d : Handle} (h : (a.put s').closed d = false) : a.closed d = false :=
  (Bool.or_eq_false_iff.mp h).1

theorem Distinct.put (h : Distinct a)
    (hnodes : ∀ d, (s'.findClient d).isSome → (a.ivy.findClient d).isSome) :
    Distinct (a.put s') := by
  intro c port d hc hlive hadv hdup
  exact h c port d (hnodes c hc) (not_closed_of_put hlive) hadv
    ⟨hdup.ne, hnodes d hdup.node, not_closed_of_put hdup.live, hdup.host_eq, hdup.advertised_eq⟩

theorem closed_of_rejection {t : Handle} (h : s'.outputs = a.ivy.outputs ++ rejection t) :
    (a.put s').closed t = true := by
  change (a.closed t || (s'.outputs.drop a.ivy.outputs.length).contains (.close t)) = true
  rw [h, List.drop_left, Bool.or_eq_true]
  exact Or.inr (List.contains_iff_mem.mpr (List.mem_cons_of_mem _ List.mem_cons_self))

theorem Distinct.start (h : Distinct a) {port : UInt16}
    (hport : startPort a c bytes = some port)
    (hnodes : ∀ d, (s'.findClient d).isSome → (a.ivy.findClient d).isSome)
    (hrec : (∃ d, Duplicate a c port d) ∧
        (∃ t, (t = c ∨ Duplicate a c port t) ∧ s'.outputs = a.ivy.outputs ++ rejection t) ∨
      (¬ ∃ d, Duplicate a c port d) ∧ s'.outputs = a.ivy.outputs) :
    Distinct ((a.hear c bytes).put s') := by
  rw [Agent.hear_of_some hport]
  -- A duplicate of `c` after the line is one before it, and the line has closed one of the two.
  have hself : ∀ d, d ≠ c → (s'.findClient d).isSome → (a.put s').closed d = false →
      (a.put s').closed c = false → (a.link d).host = (a.link c).host →
      a.advertised d ≠ some port := by
    intro d hne hd hlive hlive' hhost hadv
    have hdup : Duplicate a c port d :=
      ⟨hne, hnodes d hd, not_closed_of_put hlive, hhost, hadv⟩
    rcases hrec with ⟨-, t, ht, hout⟩ | ⟨hno, -⟩
    · have hclosed := closed_of_rejection hout
      rcases ht with rfl | ht
      · rw [hlive'] at hclosed
        cases hclosed
      · have htd : t ≠ d := by
          rintro rfl
          rw [hlive] at hclosed
          cases hclosed
        exact h d port t hdup.node hdup.live hadv
          ⟨htd, ht.node, ht.live, ht.host_eq.trans hhost.symm, ht.advertised_eq⟩
    · exact hno ⟨d, hdup⟩
  intro c' port' d hc' hlive hadv hdup
  have hadv' : Function.update a.advertised c (some port) c' = some port' := hadv
  have hdadv : Function.update a.advertised c (some port) d = some port' := hdup.advertised_eq
  by_cases hc : c' = c
  · rw [hc, Function.update_self] at hadv'
    have hne : d ≠ c := hc ▸ hdup.ne
    rw [Function.update_of_ne hne, ← hadv'] at hdadv
    exact hself d hne hdup.node hdup.live (hc ▸ hlive) (hc ▸ hdup.host_eq) hdadv
  · rw [Function.update_of_ne hc] at hadv'
    by_cases hd : d = c
    · rw [hd, Function.update_self] at hdadv
      rw [← hdadv] at hadv'
      exact hself c' hc hc' hlive (hd ▸ hdup.live) (hd ▸ hdup.host_eq).symm hadv'
    · rw [Function.update_of_ne hd] at hdadv
      exact h c' port' d (hnodes c' hc') (not_closed_of_put hlive) hadv'
        ⟨hdup.ne, hnodes d hdup.node, not_closed_of_put hdup.live, hdup.host_eq, hdadv⟩

theorem Distinct.join (h : Distinct a) (link : Link)
    (hnodes : ∀ d, d ≠ c → (s'.findClient d).isSome → (a.ivy.findClient d).isSome) :
    Distinct ((a.join order c link).put s') := by
  intro c' port d hc' hlive hadv hdup
  have hnew : ∀ d, (a.join order c link).advertised d = some port → d ≠ c := by
    rintro d hd rfl
    have hnone : Function.update a.advertised d none d = some port := hd
    rw [Function.update_self] at hnone
    cases hnone
  have hold : ∀ d, d ≠ c → ((a.join order c link).put s').closed d = false →
      a.closed d = false := by
    intro d hd hclosed
    have hfalse : Function.update a.closed c false d = false := not_closed_of_put hclosed
    rwa [Function.update_of_ne hd] at hfalse
  have hc := hnew c' hadv
  have hd := hnew d hdup.advertised_eq
  have hadv' : Function.update a.advertised c none c' = some port := hadv
  have hdadv : Function.update a.advertised c none d = some port := hdup.advertised_eq
  have hhost : (Function.update a.link c link d).host = (Function.update a.link c link c').host :=
    hdup.host_eq
  rw [Function.update_of_ne hc] at hadv' hhost
  rw [Function.update_of_ne hd] at hdadv hhost
  exact h c' port d (hnodes c' hc hc') (hold c' hc hlive) hadv'
    ⟨hdup.ne, hnodes d hd hdup.node, hold d hd hdup.live, hhost, hdadv⟩

theorem node_sendService {s : Ivy Code} (hnew : s.findClient c = none) (appname : Str) {d : Handle}
    (hne : d ≠ c) (hd : ((sendService engine s c appname).findClient d).isSome) :
    (s.findClient d).isSome := by
  rw [sendService_eq engine hnew, findClient_isSome] at hd
  rcases List.mem_cons.mp hd with heq | hd
  · exact absurd heq hne
  · exact findClient_isSome.mpr hd

theorem Distinct.next (h : Distinct a) (hinv : Inv order a) {e : Event}
    (hrec : Recognised engine a e) (hnext : next order engine a e = some a') : Distinct a' := by
  cases e with
  | connect c host localPort appname =>
    simp only [Duplicates.next] at hnext
    split at hnext
    · exact Option.some.inj hnext ▸ h
    · rename_i hnew
      rw [← Option.some.inj hnext]
      exact h.join _ fun d hne =>
        node_sendService (s := (a.join order c _).ivy) (Option.not_isSome_iff_eq_none.mp hnew)
          appname hne
  | accept c host remotePort localPort appname =>
    simp only [Duplicates.next] at hnext
    split at hnext
    · exact Option.some.inj hnext ▸ h
    · rename_i hnew
      rw [← Option.some.inj hnext, clientCreate]
      split
      · exact h.join _ fun d _ => id
      · exact h.join _ fun d hne =>
          node_sendService (s := (a.join order c _).ivy) (Option.not_isSome_iff_eq_none.mp hnew)
            appname hne
  | line c bytes =>
    simp only [Duplicates.next] at hnext
    split at hnext
    · rename_i hnode
      obtain ⟨s', hs', rfl⟩ := Option.map_eq_some_iff.mp hnext
      obtain ⟨-, hnodes⟩ := hinv.line hnode hs'
      cases hport : startPort a c bytes with
      | none =>
        rw [Agent.hear_of_none hport]
        exact h.put hnodes
      | some port => exact h.start hport hnodes (hrec port _ hport hs')
    · exact Option.some.inj hnext ▸ h
  | drop c =>
    obtain ⟨s', hs', rfl⟩ := Option.map_eq_some_iff.mp hnext
    exact h.put fun d => (hinv.drop hs').2.node

end Distinct

theorem inv_alone (order : ByteOrder) (s : Ivy Code) : Inv order (alone s) :=
  ⟨⟨⟨List.nodup_nil, nofun⟩, ⟨List.nodup_nil, nofun⟩⟩, nofun, nofun⟩

theorem distinct_alone (s : Ivy Code) : Distinct (alone s) := by
  intro c port d hc
  cases hc

/-- Duplicates are recognised in a run exactly when its connections are paired, and then no two
connections to one application are left. -/
theorem duplicates_recognised_iff (order : ByteOrder) (engine : Engine Code) (s : Ivy Code)
    (es : List Event) :
    (Along (next order engine) (Recognised engine) (alone s) es ↔
      Along (next order engine) (Paired order) (alone s) es) ∧
    (Along (next order engine) (Paired order) (alone s) es →
      ∀ a, run (next order engine) (alone s) es = some a → Distinct a) := by
  refine ⟨along_iff (fun a e ha => ha.recognised_iff e) (fun a e a' ha _ hnext => ha.next hnext)
    (inv_alone order s) es, fun hpaired a hrun => ?_⟩
  have hboth : ∀ a e a', Inv order a ∧ Distinct a → Paired order a e →
      next order engine a e = some a' → Inv order a' ∧ Distinct a' :=
    fun a e a' ha he hnext =>
      ⟨ha.1.next hnext, ha.2.next ha.1 ((ha.1.recognised_iff e).mpr he) hnext⟩
  exact (run_invariant hboth ⟨inv_alone order s, distinct_alone s⟩ hpaired hrun).2

def startLine (port : Int32) : Str := header .startRegexp port ++ ascii "app"

/-- Two connections from one application are kept, and of those from two applications one is
closed. -/
theorem duplicate_missed_or_mistaken :
    (∃ a, run (next .little literal) (alone default)
        [.accept 1 ⟨1, by decide⟩ 50000 9000 [], .line 1 (startLine 7000),
          .accept 2 ⟨1, by decide⟩ 50001 9000 []] = some a ∧
      Duplicate a 2 7000 1 ∧ ∃ s', receive literal a.ivy 2 (startLine 7000) = some s' ∧
        s'.outputs = a.ivy.outputs) ∧
    ∃ a, run (next .little literal) (alone default)
        [.accept 1 ⟨1, by decide⟩ 40000 9000 [], .accept 2 ⟨1, by decide⟩ 50000 9000 [],
          .line 1 (startLine 20675)] = some a ∧
      (∀ d, ¬ Duplicate a 2 7000 d) ∧ ∃ s', receive literal a.ivy 2 (startLine 7000) = some s' ∧
        s'.outputs = a.ivy.outputs ++ rejection 2 := by
  constructor
  · exact ⟨_, rfl, ⟨by decide, rfl, rfl, rfl, rfl⟩, _, rfl, rfl⟩
  · refine ⟨_, rfl, fun d hd => ?_, _, rfl, rfl⟩
    have hnode : d = 2 ∨ d = 1 := by
      have hmem : d ∈ [2, 1] := findClient_isSome.mp hd.node
      simpa using hmem
    have hadv := hd.advertised_eq
    rcases hnode with rfl | rfl
    · exact hd.ne rfl
    · revert hadv
      decide

end IvyBus.Duplicates
