import IvyBus.RegistryLaws

namespace IvyBus.Ivy

open Lib

variable {Code : Type}

/-- Where an id is met first, the next node whose id was not met before it has another id. -/
def SafeIds (ids : List Int32) : Prop :=
  ∀ pre i post, ids = pre ++ i :: post → i ∉ pre → (post.filter (· ∉ pre)).head? ≠ some i

theorem safeIds_nil : SafeIds [] := by
  intro pre i post h
  simp at h

theorem safeIds_of_nodup {ids : List Int32} (h : ids.Nodup) : SafeIds ids := by
  rintro pre i post rfl - hhead
  rw [List.nodup_append, List.nodup_cons] at h
  exact h.2.1.1 (List.mem_filter.mp (List.mem_of_head? hhead)).1

theorem safeIds_cons {id : Int32} {ids : List Int32} :
    SafeIds (id :: ids) ↔ ids.head? ≠ some id ∧ SafeIds (ids.filter (· ≠ id)) := by
  have hnot_met : ∀ pre post : List Int32, (post.filter (· ≠ id)).filter (· ∉ pre.filter (· ≠ id)) =
      post.filter (· ∉ id :: pre) := by
    intro pre post
    rw [List.filter_filter]
    apply List.filter_congr
    intro x _
    by_cases hx : x = id
    · simp [hx]
    · simp [hx]
  constructor
  · intro h
    refine ⟨by simpa using h [] id ids rfl List.not_mem_nil, ?_⟩
    intro pre' i post' hids hi
    obtain ⟨pre, rest, rfl, rfl, hrest⟩ := List.filter_eq_append_iff.mp hids
    obtain ⟨mid, post, rfl, hmid, hid, rfl⟩ := List.filter_eq_cons_iff.mp hrest
    have hpass : ∀ x ∈ mid, x = id := by simpa using hmid
    have hi_ne : i ≠ id := by simpa using hid
    have hskipped : (pre ++ mid).filter (· ≠ id) = pre.filter (· ≠ id) := by
      have hnil : mid.filter (· ≠ id) = [] := by simpa using hpass
      rw [List.filter_append, hnil, List.append_nil]
    rw [← hskipped, hnot_met]
    refine h (id :: (pre ++ mid)) i post (by simp) fun hin => ?_
    rcases List.mem_cons.mp hin with heq | hin
    · exact hi_ne heq
    · exact hi (hskipped ▸ List.mem_filter.mpr ⟨hin, by simpa using hi_ne⟩)
  · rintro ⟨hhead, h⟩ pre i post hids hi
    cases pre with
    | nil =>
      obtain ⟨rfl, rfl⟩ := List.cons.inj hids
      simpa using hhead
    | cons x pre =>
      obtain ⟨rfl, htail⟩ := List.cons.inj hids
      rw [List.mem_cons, not_or] at hi
      rw [← hnot_met]
      refine h (pre.filter (· ≠ id)) i (post.filter (· ≠ id)) ?_ fun hin =>
        hi.2 (List.mem_filter.mp hin).1
      rw [htail]
      exact (List.filter_append ..).trans
        (congrArg _ (List.filter_cons_of_pos (by simpa using hi.1)))

/-- `s'` is `s` without the subscriptions of `c`, up to what the dictionary still lists. -/
structure Cleared (s s' : Ivy Code) (c : Handle) : Prop where
  wf : s'.Wf
  frame_eq : s'.frame = s.frame
  clients_eq : s'.allClients.map bare = s.allClients.map bare
  own_eq : s'.srcRegs c = []
  others_eq : ∀ c', c' ≠ c → s'.registered c' = s.registered c'
  listed_eq : ∀ r, (s'.listed r).filter (·.1 ≠ c) = (s.listed r).filter (·.1 ≠ c)

theorem filter_unlist (t : Tables) (rs : List Str) (c : Handle) (i : Int32) (r : Str) :
    ((t.unlist rs (c, i)).listed r).filter (·.1 ≠ c) = (t.listed r).filter (·.1 ≠ c) := by
  simp only [Tables.unlist]
  split
  · rw [List.filter_filter]
    apply List.filter_congr
    intro p _
    by_cases hp : p.1 = c
    · simp [hp]
    · have hne : p ≠ (c, i) := fun heq => hp (congrArg Prod.fst heq)
      simp [hp, hne]
  · rfl

theorem srcRegs_nodup {s : Ivy Code} (h : s.Wf) (c : Handle) :
    ((s.srcRegs c).map GlobReg.addr).Nodup := by
  unfold srcRegs
  cases hfind : s.findClient c with
  | none => exact List.nodup_nil
  | some itr => exact (h.clients.srcs itr (List.mem_of_find?_eq_some hfind)).1

theorem Cleared.of_del {s s₁ s' : Ivy Code} {c : Handle} {j i : Int32}
    (h₁ : Updated s s₁ (s.tables.del c j i)) (h : Cleared s₁ s' c) : Cleared s s' c := by
  refine ⟨h.wf, h.frame_eq.trans h₁.frame_eq, h.clients_eq.trans h₁.clients_eq, h.own_eq, ?_, ?_⟩
  · intro c' hne
    rw [h.others_eq c' hne]
    exact (congrFun (congrArg Tables.registered h₁.tables_eq) c').trans
      (Tables.registered_register_of_ne hne _)
  · intro r
    rw [h.listed_eq r]
    exact (congrArg _ (congrFun (congrArg Tables.listed h₁.tables_eq) r)).trans
      (filter_unlist ..)

/-- The walk of `delOneClient` along a `srcRegList` comes to its end exactly when the ids are
safe: each round removes the current node and its repetitions. -/
theorem eachSafe_srcRegs {clientItr : IvyClient} (fuel : Nat) {s : Ivy Code} (h : s.Wf)
    (hc : (s.findClient clientItr.client).isSome)
    (hfuel : (s.srcRegs clientItr.client).length < fuel) :
    let walk := eachSafe GlobReg.addr (fun s => s.srcRegs clientItr.client)
      (fun g s => (s.delRegexpForOneClient clientItr g.id).map Prod.fst) fuel
      ((s.srcRegs clientItr.client).head?.map GlobReg.addr) s
    (SafeIds ((s.srcRegs clientItr.client).map GlobReg.id) →
      ∃ s', walk = some s' ∧ Cleared s s' clientItr.client) ∧
    (¬ SafeIds ((s.srcRegs clientItr.client).map GlobReg.id) → walk = none) := by
  induction fuel generalizing s with
  | zero => cases hfuel
  | succ fuel ih =>
    cases hl : s.srcRegs clientItr.client with
    | nil =>
      exact ⟨fun _ => ⟨s, rfl, h, rfl, rfl, hl, fun _ _ => rfl, fun _ => rfl⟩,
        fun hfail => absurd safeIds_nil hfail⟩
    | cons g rest =>
      obtain ⟨s₁, removed, hdel, hupd, hsrc⟩ := h.delRegexpForOneClient hc g.id
      have hnodup := srcRegs_nodup h clientItr.client
      rw [hl] at hsrc hnodup
      rw [List.filter_cons_of_neg (by simp)] at hsrc
      have hround : eachSafe GlobReg.addr (fun s => s.srcRegs clientItr.client)
          (fun g s => (s.delRegexpForOneClient clientItr g.id).map Prod.fst) (fuel + 1)
          (some g.addr) s =
        eachSafe GlobReg.addr (fun s => s.srcRegs clientItr.client)
          (fun g s => (s.delRegexpForOneClient clientItr g.id).map Prod.fst) fuel
          (rest.head?.map GlobReg.addr) s₁ := by
        refine (@eachSafe_cons (Ivy Code) GlobReg Nat _ GlobReg.addr
          (fun s => s.srcRegs clientItr.client) _ s [] rest g hl List.not_mem_nil fuel).trans ?_
        rw [hdel]
        rfl
      rw [List.head?_cons, Option.map_some, hround, List.map_cons, safeIds_cons]
      by_cases hnext : (rest.map GlobReg.id).head? = some g.id
      · refine ⟨fun hsafe => absurd hnext hsafe.1, fun _ => ?_⟩
        obtain ⟨g', rest', rfl⟩ : ∃ g' rest', rest = g' :: rest' := by
          cases rest with
          | nil => cases hnext
          | cons g' rest' => exact ⟨g', rest', rfl⟩
        have hid : g'.id = g.id := Option.some.inj hnext
        apply eachSafe_unlinked
        rw [hsrc, List.filter_cons_of_neg (by simpa using hid)]
        rw [List.map_cons, List.map_cons, List.nodup_cons, List.nodup_cons] at hnodup
        exact fun hmem => hnodup.2.1 ((List.filter_sublist.map GlobReg.addr).subset hmem)
      · have hhead : (s₁.srcRegs clientItr.client).head?.map GlobReg.addr =
            rest.head?.map GlobReg.addr := by
          rw [hsrc]
          cases rest with
          | nil => rfl
          | cons g' rest' =>
            have hid : g'.id ≠ g.id := fun heq => hnext (congrArg some heq)
            rw [List.filter_cons_of_pos (by simpa using hid)]
            rfl
        have hids : (s₁.srcRegs clientItr.client).map GlobReg.id =
            (rest.map GlobReg.id).filter (· ≠ g.id) := by
          rw [hsrc, List.filter_map]
          rfl
        have hlen : (s₁.srcRegs clientItr.client).length < fuel := by
          rw [hl, List.length_cons] at hfuel
          rw [hsrc]
          exact (List.length_filter_le ..).trans_lt (Nat.lt_of_succ_lt_succ hfuel)
        obtain ⟨hsafe, hfail⟩ := ih hupd.wf (hupd.findClient hc) hlen
        rw [hhead, hids] at hsafe hfail
        refine ⟨fun h' => ?_, fun h' => hfail fun h'' => h' ⟨hnext, h''⟩⟩
        obtain ⟨s', hs', hcleared⟩ := hsafe h'.2
        exact ⟨s', hs', hcleared.of_del hupd⟩

theorem putEntry_suffix {s : Ivy Code} {pre rest : List (MsgSndDict Code)} {e : MsgSndDict Code}
    (hd : s.messSndByRegexp = pre ++ e :: rest)
    (hkeys : (s.messSndByRegexp.map MsgSndDict.regexpSrc).Nodup) (l : List IvyClient) :
    ∃ pre', (s.putEntry e.regexpSrc l).messSndByRegexp = pre' ++ rest := by
  rw [hd, List.map_append, List.nodup_append, List.map_cons, List.nodup_cons] at hkeys
  have hrest : ∀ e' ∈ rest, e'.regexpSrc ≠ e.regexpSrc :=
    fun e' he' heq => hkeys.2.1.1 (heq ▸ List.mem_map_of_mem he')
  have hfilter : rest.filter (·.regexpSrc ≠ e.regexpSrc) = rest :=
    List.filter_eq_self.mpr fun e' he' => by simpa using hrest e' he'
  simp only [putEntry, hd]
  split
  · refine ⟨pre.filter (·.regexpSrc ≠ e.regexpSrc), ?_⟩
    rw [List.filter_append, List.filter_cons_of_neg (by simp), hfilter]
  · have hmap : (rest.map fun e' =>
        if e'.regexpSrc = e.regexpSrc then { e' with clientList := l } else e') = rest :=
      (List.map_congr_left fun e' he' => if_neg (hrest e' he')).trans (List.map_id _)
    rw [List.map_append, List.map_cons, hmap, List.append_cons]
    exact ⟨_, rfl⟩

structure Sweep (s : Ivy Code) (c : Handle) (ahead : List (MsgSndDict Code)) (s' : Ivy Code) :
    Prop where
  suffix_eq : ∃ pre, s'.messSndByRegexp = pre ++ ahead
  wf : s'.Wf
  frame_eq : s'.frame = s.frame
  clients_eq : s'.allClients = s.allClients
  listed_eq : ∀ r, s'.listed r = if r ∈ ahead.map MsgSndDict.regexpSrc then s.listed r
    else (s.listed r).filter (·.1 ≠ c)

theorem Sweep.step {s s' : Ivy Code} {c : Handle} {e : MsgSndDict Code}
    {rest : List (MsgSndDict Code)} (h : Sweep s c (e :: rest) s') :
    (∃ pre, s'.messSndByRegexp = pre ++ e :: rest ∧
      e.regexpSrc ∉ pre.map MsgSndDict.regexpSrc) ∧
      ∃ t, s'.delOneClientFromDictionaryEntry e c = some t ∧ Sweep s c rest t := by
  obtain ⟨pre, hpre⟩ := h.suffix_eq
  have hkeys := h.wf.dict.keys
  have hmem : e ∈ s'.messSndByRegexp := by
    rw [hpre]
    simp
  have he : s'.findEntry e.regexpSrc = some e := find?_cell hkeys hmem
  obtain ⟨hwf, hlisted⟩ := h.wf.putEntry he fun p => p.1 ≠ c
  have hsplit := hkeys
  rw [hpre, List.map_append, List.nodup_append, List.map_cons, List.nodup_cons] at hsplit
  refine ⟨⟨pre, hpre, fun hin => hsplit.2.2 _ hin _ List.mem_cons_self rfl⟩, _,
    h.wf.delOneClientFromDictionaryEntry he c, putEntry_suffix hpre hkeys _, hwf, h.frame_eq,
    h.clients_eq, fun r => (hlisted r).trans ?_⟩
  rw [h.listed_eq, h.listed_eq, List.map_cons, if_pos List.mem_cons_self]
  by_cases hr : r = e.regexpSrc
  · rw [hr, if_pos rfl, if_neg hsplit.2.1.1]
  · rw [if_neg hr]
    simp only [List.mem_cons, hr, false_or]

theorem Wf.sweep {s : Ivy Code} (h : s.Wf) (c : Handle) : ∃ s',
    forEachSafe MsgSndDict.regexpSrc messSndByRegexp
      (fun e s => s.delOneClientFromDictionaryEntry e c) s = some s' ∧ Sweep s c [] s' := by
  refine eachSafe_rule (I := Sweep s c) (fun e rest s' hs' => hs'.step)
    ⟨⟨[], rfl⟩, h, rfl, rfl, fun r => ?_⟩ (Nat.lt_succ_self _)
  split
  · rfl
  · rename_i hr
    have hnone : s.messSndByRegexp.find? (·.regexpSrc = r) = none := by
      rw [List.find?_eq_none]
      exact fun e he heq => hr (List.mem_map.mpr ⟨e, he, of_decide_eq_true heq⟩)
    rw [listed, subscribers, hnone]
    rfl

structure Unlinked (s s' : Ivy Code) (c : Handle) : Prop where
  wf : s'.Wf
  frame_eq : s'.frame = s.frame
  clients_eq : s'.allClients.map bare = (s.allClients.map bare).filter (·.client ≠ c)
  registered_eq : s'.registered = Function.update s.registered c []
  listed_eq : ∀ r, (s'.listed r).filter (·.1 ≠ c) = (s.listed r).filter (·.1 ≠ c)

section Unlinked

variable {pre post : List IvyClient} {itr : IvyClient}

theorem ne_of_handles (h : ((pre ++ itr :: post).map IvyClient.client).Nodup) :
    ∀ cl ∈ pre ++ post, cl.client ≠ itr.client := by
  rw [List.map_append, List.nodup_append, List.map_cons, List.nodup_cons] at h
  intro cl hcl heq
  rcases List.mem_append.mp hcl with hcl | hcl
  · exact h.2.2 _ (List.mem_map_of_mem hcl) _ List.mem_cons_self heq
  · exact h.2.1.1 (heq ▸ List.mem_map_of_mem hcl)

theorem bare_unlink (h : ((pre ++ itr :: post).map IvyClient.client).Nodup) :
    (pre ++ post).map bare =
      ((pre ++ itr :: post).map bare).filter (·.client ≠ itr.client) := by
  have hkeep : (pre ++ itr :: post).filter (fun cl => cl.client ≠ itr.client) = pre ++ post := by
    rw [List.filter_append, List.filter_cons_of_neg (by simp), ← List.filter_append]
    exact List.filter_eq_self.mpr fun cl hcl => decide_eq_true (ne_of_handles h cl hcl)
  rw [List.filter_map, ← hkeep]
  rfl

theorem findClient_unlink {s : Ivy Code} (hs : s.allClients = pre ++ itr :: post)
    (h : (s.allClients.map IvyClient.client).Nodup) (c : Handle) :
    ({ s with allClients := pre ++ post } : Ivy Code).findClient c =
      if c = itr.client then none else s.findClient c := by
  rw [hs] at h
  simp only [findClient, hs]
  split
  · rename_i hc
    rw [List.find?_eq_none]
    exact fun cl hcl heq => ne_of_handles h cl hcl ((of_decide_eq_true heq).trans hc)
  · rename_i hc
    rw [List.find?_append, List.find?_append, List.find?_cons_of_neg]
    exact fun heq => hc (of_decide_eq_true heq).symm

theorem Cleared.unlink {s s' : Ivy Code} (h : Cleared s s' itr.client)
    (hs : s'.allClients = pre ++ itr :: post) :
    Unlinked s { s' with allClients := pre ++ post } itr.client := by
  have hnodup := h.wf.clients.handles
  have hsub : (pre ++ post).Sublist s'.allClients := by
    rw [hs]
    exact List.Sublist.append_left (List.sublist_cons_self ..) _
  refine ⟨⟨h.wf.dict, hnodup.sublist (hsub.map _), fun cl hcl => ?_⟩, h.frame_eq, ?_, ?_,
    h.listed_eq⟩
  · exact h.wf.clients.srcs cl (hsub.subset hcl)
  · rw [← h.clients_eq, hs]
    rw [hs] at hnodup
    exact bare_unlink hnodup
  · funext c
    by_cases hc : c = itr.client
    · rw [hc, Function.update_self, registered, srcRegs, findClient_unlink hs hnodup, if_pos rfl]
      rfl
    · rw [Function.update_of_ne hc, ← h.others_eq c hc, registered, srcRegs,
        findClient_unlink hs hnodup, if_neg hc]
      rfl

end Unlinked

theorem eachSafe_others {s : Ivy Code} {c : Handle} {pre mid rest : List IvyClient}
    (hs : s.allClients = pre ++ (mid ++ rest))
    (hnodup : (s.allClients.map IvyClient.client).Nodup) (hmid : ∀ cl ∈ mid, cl.client ≠ c)
    (fuel : Nat) :
    eachSafe IvyClient.client allClients (delClientNode c) (fuel + mid.length)
        ((mid ++ rest).head?.map IvyClient.client) s =
      eachSafe IvyClient.client allClients (delClientNode c) fuel
        (rest.head?.map IvyClient.client) s :=
  eachSafe_skip hs hnodup (fun cl hcl => if_neg (hmid cl hcl)) fuel

theorem forEachSafe_client {s : Ivy Code} {pre post : List IvyClient} {itr : IvyClient}
    (hs : s.allClients = pre ++ itr :: post)
    (hnodup : (s.allClients.map IvyClient.client).Nodup) :
    forEachSafe IvyClient.client allClients (delClientNode itr.client) s =
      (delClientNode itr.client itr s).bind
        (eachSafe IvyClient.client allClients (delClientNode itr.client) (post.length + 1)
          (post.head?.map IvyClient.client)) := by
  have hother := ne_of_handles (hs ▸ hnodup)
  have hfuel : s.allClients.length + 1 = post.length + 1 + 1 + pre.length := by
    rw [hs, List.length_append, List.length_cons]
    omega
  have hnew : itr.client ∉ pre.map IvyClient.client := by
    intro hin
    obtain ⟨cl, hcl, heq⟩ := List.mem_map.mp hin
    exact hother cl (List.mem_append_left _ hcl) heq
  have hover := eachSafe_others (hs.trans (List.nil_append _).symm) hnodup
    (fun cl hcl => hother cl (List.mem_append_left _ hcl)) (post.length + 1 + 1)
  rw [forEachSafe, hfuel, hs]
  exact hover.trans (eachSafe_cons hs hnew _)

theorem forEachSafe_noClient {s : Ivy Code} {c : Handle} (h : s.Wf)
    (hc : ∀ cl ∈ s.allClients, cl.client ≠ c) :
    forEachSafe IvyClient.client allClients (delClientNode c) s = some s := by
  have hs : s.allClients = [] ++ (s.allClients ++ []) := (List.append_nil _).symm
  have hover := eachSafe_others hs h.clients.handles hc 1
  rw [List.append_nil, Nat.add_comm] at hover
  exact hover

theorem Wf.unlinkClient {s : Ivy Code} (h : s.Wf) (c : Handle) :
    let walk := forEachSafe IvyClient.client allClients (delClientNode c) s
    (SafeIds ((s.srcRegs c).map GlobReg.id) → ∃ s', walk = some s' ∧ Unlinked s s' c) ∧
    (¬ SafeIds ((s.srcRegs c).map GlobReg.id) → walk = none) := by
  cases hfind : s.findClient c with
  | none =>
    have hother : ∀ cl ∈ s.allClients, cl.client ≠ c := fun cl hcl heq =>
      List.find?_eq_none.mp hfind cl hcl (decide_eq_true heq)
    have hnil : s.srcRegs c = [] := by
      rw [srcRegs, hfind]
      rfl
    have hsafe : SafeIds ((s.srcRegs c).map GlobReg.id) := hnil ▸ safeIds_nil
    refine ⟨fun _ => ⟨s, forEachSafe_noClient h hother, h, rfl, ?_, ?_, fun _ => rfl⟩,
      fun hn => absurd hsafe hn⟩
    · refine (List.filter_eq_self.mpr fun x hx => ?_).symm
      obtain ⟨cl, hcl, rfl⟩ := List.mem_map.mp hx
      exact decide_eq_true (hother cl hcl)
    · refine (Function.update_eq_self_iff.mpr ?_).symm
      rw [registered, hnil]
      rfl
  | some itr =>
    obtain rfl : itr.client = c := client_of_findClient hfind
    obtain ⟨pre, post, hs⟩ := List.append_of_mem (List.mem_of_find?_eq_some hfind)
    obtain ⟨hsafe, hfail⟩ := eachSafe_srcRegs ((s.srcRegs itr.client).length + 1) h
      (Option.isSome_of_eq_some hfind) (Nat.lt_succ_self _)
    dsimp only
    rw [forEachSafe_client hs h.clients.handles, delClientNode, if_pos rfl]
    constructor
    · intro hids
      obtain ⟨s₁, hdel, hcleared⟩ := hsafe hids
      have hbare := hcleared.clients_eq
      rw [hs, List.map_append, List.map_cons] at hbare
      obtain ⟨pre', rest, hs₁, hpre, hrest⟩ := List.map_eq_append_iff.mp hbare
      obtain ⟨itr', post', rfl, hitr, hpost⟩ := List.map_eq_cons_iff.mp hrest
      have hclient : itr'.client = itr.client :=
        (congrArg IvyClient.client hitr : (bare itr').client = (bare itr).client)
      rw [← hclient] at hcleared ⊢
      have hend := hcleared.unlink hs₁
      refine ⟨_, ?_, hend⟩
      have hnodup := hcleared.wf.clients.handles
      have hother := ne_of_handles (hs₁ ▸ hnodup)
      have hnew : itr'.client ∉ pre'.map IvyClient.client := by
        intro hin
        obtain ⟨cl, hcl, heq⟩ := List.mem_map.mp hin
        exact hother cl (List.mem_append_left _ hcl) heq
      have hlen : post.length = post'.length := by
        simpa using (congrArg List.length hpost).symm
      have hhead : post.head?.map IvyClient.client = post'.head?.map IvyClient.client := by
        rw [← List.head?_map, ← List.head?_map, handles_of_bare hpost]
      have hwalk : s.delSrcRegs itr = some s₁ := hdel
      rw [hwalk, Option.map_some, Option.bind_some, hs₁, unlink_cell hnew, hlen, hhead]
      have hover := @eachSafe_others Code { s₁ with allClients := pre' ++ post' } itr'.client pre'
        post' [] (by rw [List.append_nil]) hend.wf.clients.handles
        (fun cl hcl => hother cl (List.mem_append_right _ hcl)) 1
      rw [List.append_nil, Nat.add_comm] at hover
      exact hover
    · intro hids
      rw [delSrcRegs, forEachSafe, hfail hids]
      rfl

structure Disconnected (s s' : Ivy Code) (c : Handle) : Prop where
  wf : s'.Wf
  frame_eq : s'.frame = s.frame
  clients_eq : s'.allClients.map bare = (s.allClients.map bare).filter (·.client ≠ c)
  tables_eq : s'.tables = s.tables.disconnect c

theorem Disconnected.heir {s s' : Ivy Code} {c : Handle} (h : Disconnected s s' c)
    {clnt : IvyClient} (hclnt : clnt ∈ s'.allClients) :
    clnt.client ≠ c ∧ ∃ old ∈ s.allClients, bare old = bare clnt := by
  have hmem : bare clnt ∈ (s.allClients.map bare).filter (·.client ≠ c) :=
    h.clients_eq ▸ List.mem_map_of_mem hclnt
  obtain ⟨hmem, hne⟩ := List.mem_filter.mp hmem
  exact ⟨of_decide_eq_true hne, List.mem_map.mp hmem⟩

theorem Disconnected.handles {s s' : Ivy Code} {c : Handle} (h : Disconnected s s' c) :
    s'.allClients.map IvyClient.client =
      (s.allClients.map IvyClient.client).filter (· ≠ c) := by
  have hclients := congrArg (List.map IvyClient.client) h.clients_eq
  rw [List.filter_map, List.map_map, List.map_map] at hclients
  rw [List.filter_map]
  exact hclients

theorem Disconnected.findClient_isSome {s s' : Ivy Code} {c d : Handle}
    (h : Disconnected s s' c) : (s'.findClient d).isSome ↔ (s.findClient d).isSome ∧ d ≠ c := by
  rw [Ivy.findClient_isSome, Ivy.findClient_isSome, h.handles, List.mem_filter,
    decide_eq_true_eq]

theorem Sweep.disconnected {s s₁ s' : Ivy Code} {c : Handle} (h : Sweep s₁ c [] s')
    (h₁ : Unlinked s s₁ c) : Disconnected s s' c := by
  refine ⟨h.wf, h.frame_eq.trans h₁.frame_eq, h.clients_eq ▸ h₁.clients_eq, ?_⟩
  have hlisted : s'.listed = fun r => (s.listed r).filter (·.1 ≠ c) := by
    funext r
    rw [h.listed_eq, List.map_nil, if_neg List.not_mem_nil, h₁.listed_eq]
  have hregistered : s'.registered = s₁.registered := by
    funext c'
    rw [registered, srcRegs, findClient, h.clients_eq]
    rfl
  rw [tables, hlisted, hregistered, h₁.registered_eq]
  rfl

theorem Wf.delOneClient {s : Ivy Code} (h : s.Wf) (c : Handle) :
    (SafeIds ((s.srcRegs c).map GlobReg.id) →
      ∃ s', s.delOneClient c = some s' ∧ Disconnected s s' c) ∧
    (¬ SafeIds ((s.srcRegs c).map GlobReg.id) → s.delOneClient c = none) := by
  obtain ⟨hsafe, hfail⟩ := h.unlinkClient c
  constructor
  · intro hids
    obtain ⟨s₁, hwalk, hunlinked⟩ := hsafe hids
    obtain ⟨s', hsweep, hend⟩ := hunlinked.wf.sweep c
    exact ⟨s', by rw [Ivy.delOneClient, hwalk]; exact hsweep, hend.disconnected hunlinked⟩
  · intro hids
    rw [Ivy.delOneClient, hfail hids]
    rfl

theorem Wf.of_delOneClient {s s' : Ivy Code} (h : s.Wf) {c : Handle}
    (hs' : s.delOneClient c = some s') : Disconnected s s' c := by
  obtain ⟨hsafe, hfail⟩ := h.delOneClient c
  by_cases hids : SafeIds ((s.srcRegs c).map GlobReg.id)
  · obtain ⟨t, ht, hd⟩ := hsafe hids
    exact Option.some.inj (ht.symm.trans hs') ▸ hd
  · rw [hfail hids] at hs'
    cases hs'

end IvyBus.Ivy
