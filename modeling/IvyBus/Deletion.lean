import IvyBus.Agents
import IvyBus.Disconnect

namespace IvyBus.Ivy

open Lib

variable {Code : Type}

/-- The walk of `delOneClient` along a `srcRegList`, by the ids that it reads; the nodes that it
visits may be unlinked already. -/
def freeSrcRegs (ids : List Int32) (s : Ivy Code) (clientItr : IvyClient) : Option (Ivy Code) :=
  (ids.foldlM (fun (s : Ivy Code) id => (s.delRegexpForOneClient clientItr id).map Prod.fst)
    s).map fun s =>
      s.modifyClient clientItr.client fun clientItr => { clientItr with srcRegList := [] }

def freeClient (ids : List Int32) (s : Ivy Code) (client : Handle) : Option (Ivy Code) :=
  match s.findClient client with
  | none => some s
  | some clientItr => (freeSrcRegs ids s clientItr).map fun s =>
      { s with allClients := unlink IvyClient.client client s.allClients }

/-- `delOneClient` when unlinking a node removes that node and nothing more. -/
def delOneClientReading (ids : List Int32) (s : Ivy Code) (client : Handle) : Option (Ivy Code) :=
  (freeClient ids s client).bind
    (forEachSafe MsgSndDict.regexpSrc messSndByRegexp fun msgSendDict s =>
      s.delOneClientFromDictionaryEntry msgSendDict client)

section Laws

variable {s s' : Ivy Code} {c : Handle} {clientItr : IvyClient}

theorem cleared_emptied (h : s.Wf) (hc : (s.findClient c).isSome) :
    Cleared s (s.modifyClient c fun itr => { itr with srcRegList := [] }) c := by
  obtain ⟨itr, hitr⟩ := Option.isSome_iff_exists.mp hc
  have hset : s.modifyClient c (fun itr => { itr with srcRegList := [] }) =
      s.setSrcRegs c fun _ => [] := rfl
  rw [hset]
  refine ⟨⟨h.dict, ClientsWf.setSrcRegs h.clients le_rfl fun _ _ _ => ⟨List.nodup_nil, nofun⟩⟩,
    rfl, bare_setSrcRegs _, srcRegs_setSrcRegs_self hitr, fun c' hne => ?_, fun _ => rfl⟩
  rw [registered, srcRegs_setSrcRegs_of_ne hne]
  rfl

theorem Wf.freeSrcRegs (ids : List Int32) (h : s.Wf)
    (hc : (s.findClient clientItr.client).isSome) :
    ∃ s', freeSrcRegs ids s clientItr = some s' ∧ Cleared s s' clientItr.client := by
  induction ids generalizing s with
  | nil => exact ⟨_, rfl, cleared_emptied h hc⟩
  | cons id ids ih =>
    obtain ⟨t, removed, ht, hupd, -⟩ := h.delRegexpForOneClient hc id
    obtain ⟨s', hs', hcleared⟩ := ih hupd.wf (hupd.findClient hc)
    refine ⟨s', ?_, hcleared.of_del hupd⟩
    rw [Ivy.freeSrcRegs, List.foldlM_cons, ht]
    exact hs'

theorem Wf.freeClient (ids : List Int32) (h : s.Wf) (c : Handle) :
    ∃ s', freeClient ids s c = some s' ∧ Unlinked s s' c := by
  rw [Ivy.freeClient]
  cases hfind : s.findClient c with
  | none =>
    have hsrc : s.srcRegs c = [] := by
      rw [srcRegs, hfind]
      rfl
    obtain ⟨hsafe, -⟩ := h.unlinkClient c
    obtain ⟨t, ht, hunlinked⟩ := hsafe (by rw [hsrc]; exact safeIds_nil)
    rw [forEachSafe_noClient h fun cl hcl heq =>
      List.find?_eq_none.mp hfind cl hcl (decide_eq_true heq)] at ht
    exact ⟨s, rfl, Option.some.inj ht ▸ hunlinked⟩
  | some itr =>
    obtain rfl : itr.client = c := client_of_findClient hfind
    obtain ⟨t, ht, hcleared⟩ := h.freeSrcRegs ids (Option.isSome_of_eq_some hfind)
    dsimp only
    rw [ht]
    have hnode : (t.findClient itr.client).isSome := by
      rw [findClient_isSome, handles_of_bare hcleared.clients_eq, ← findClient_isSome]
      exact Option.isSome_of_eq_some hfind
    obtain ⟨itr', hfind'⟩ := Option.isSome_iff_exists.mp hnode
    have hclient : itr'.client = itr.client := client_of_findClient hfind'
    obtain ⟨pre, post, hsplit⟩ := List.append_of_mem (List.mem_of_find?_eq_some hfind')
    rw [← hclient] at hcleared ⊢
    have hnew : itr'.client ∉ pre.map IvyClient.client := by
      intro hin
      obtain ⟨cl, hcl, heq⟩ := List.mem_map.mp hin
      exact ne_of_handles (hsplit ▸ hcleared.wf.clients.handles) cl
        (List.mem_append_left _ hcl) heq
    refine ⟨_, rfl, ?_⟩
    dsimp only
    rw [hsplit, unlink_cell hnew]
    exact hcleared.unlink hsplit

theorem Wf.delOneClientReading (ids : List Int32) (h : s.Wf) (c : Handle) :
    ∃ s', delOneClientReading ids s c = some s' ∧ Disconnected s s' c := by
  obtain ⟨t, ht, hunlinked⟩ := h.freeClient ids c
  obtain ⟨s', hsweep, hend⟩ := hunlinked.wf.sweep c
  refine ⟨s', ?_, hend.disconnected hunlinked⟩
  rw [Ivy.delOneClientReading, ht]
  exact hsweep

theorem unlink_modify {l : List IvyClient} {f : IvyClient → IvyClient}
    (hf : ∀ clnt, (f clnt).client = clnt.client) (h : (l.map IvyClient.client).Nodup) :
    unlink IvyClient.client c (l.map fun clnt => if clnt.client = c then f clnt else clnt) =
      unlink IvyClient.client c l := by
  induction l with
  | nil => rfl
  | cons clnt l ih =>
    rw [List.map_cons, List.nodup_cons] at h
    rw [unlink, unlink, List.map_cons]
    by_cases hc : clnt.client = c
    · have hrest : (l.map fun clnt => if clnt.client = c then f clnt else clnt) = l := by
        refine (List.map_congr_left fun x hx => if_neg fun hx' => h.1 ?_).trans (List.map_id _)
        rw [hc, ← hx']
        exact List.mem_map_of_mem hx
      rw [if_pos hc, List.eraseP_cons_of_pos (by simpa [hf] using hc),
        List.eraseP_cons_of_pos (by simpa using hc), hrest]
    · rw [if_neg hc, List.eraseP_cons_of_neg (by simpa using hc),
        List.eraseP_cons_of_neg (by simpa using hc)]
      exact congrArg _ (ih h.2)

theorem Wf.of_delSrcRegs (h : s.Wf) (hs' : s.delSrcRegs clientItr = some s') : s'.Wf := by
  refine eachSafe_preserves (P := Wf) (fun g t t' ht hg hdel => ?_) h hs'
  have hnode : (t.findClient clientItr.client).isSome := by
    rw [srcRegs] at hg
    cases hfind : t.findClient clientItr.client with
    | none =>
      rw [hfind] at hg
      cases hg
    | some itr => rfl
  obtain ⟨u, removed, hu, hupd, -⟩ := ht.delRegexpForOneClient hnode g.id
  rw [hu] at hdel
  exact Option.some.inj hdel ▸ hupd.wf

/-- When `delOneClient` comes to its end, it is `delOneClientReading` with the ids that it has
read. -/
theorem delOneClient_reading (h : s.Wf) (hs' : s.delOneClient c = some s') :
    ∃ ids, delOneClientReading ids s c = some s' := by
  obtain ⟨t, ht, hsweep⟩ := Option.bind_eq_some_iff.mp hs'
  have hfree : ∃ ids, freeClient ids s c = some t := by
    cases hfind : s.findClient c with
    | none =>
      rw [forEachSafe_noClient h fun cl hcl heq =>
        List.find?_eq_none.mp hfind cl hcl (decide_eq_true heq)] at ht
      refine ⟨[], ?_⟩
      rw [freeClient, hfind]
      exact ht
    | some itr =>
      obtain rfl : itr.client = c := client_of_findClient hfind
      obtain ⟨pre, post, hsplit⟩ := List.append_of_mem (List.mem_of_find?_eq_some hfind)
      rw [forEachSafe_client hsplit h.clients.handles, delClientNode, if_pos rfl] at ht
      obtain ⟨u, hu, hrest⟩ := Option.bind_eq_some_iff.mp ht
      obtain ⟨v, hv, rfl⟩ := Option.map_eq_some_iff.mp hu
      have hwf : v.Wf := h.of_delSrcRegs hv
      have hsame :
          t = { v with allClients := unlink IvyClient.client itr.client v.allClients } := by
        refine eachSafe_preserves (P := (· = _)) (fun cl w w' hw hcl hbody => ?_) rfl hrest
        subst hw
        have hne : cl.client ≠ itr.client := fun heq =>
          notMem_unlink hwf.clients.handles (heq ▸ List.mem_map_of_mem hcl)
        rw [delClientNode, if_neg hne] at hbody
        exact (Option.some.inj hbody).symm
      obtain ⟨cells, hcells⟩ := eachSafe_visits hv
      refine ⟨cells.map GlobReg.id, ?_⟩
      rw [freeClient, hfind]
      dsimp only
      rw [freeSrcRegs, List.foldlM_map, hcells, hsame]
      have hunlink := @unlink_modify itr.client v.allClients
        (fun itr => { itr with srcRegList := [] }) (fun _ => rfl) hwf.clients.handles
      simp only [Option.map_some, modifyClient, hunlink]
  obtain ⟨ids, hids⟩ := hfree
  refine ⟨ids, ?_⟩
  rw [delOneClientReading, hids]
  exact hsweep

end Laws

end IvyBus.Ivy
