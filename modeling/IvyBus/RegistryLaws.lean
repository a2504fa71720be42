import IvyBus.Registry
import IvyBus.Tables

namespace IvyBus.Ivy

open Lib

variable {Code : Type}

def sub (c : IvyClient) : Sub := (c.client, c.id)

def subscribers (d : List (MsgSndDict Code)) (r : Str) : List IvyClient :=
  (d.find? (·.regexpSrc = r)).elim [] MsgSndDict.clientList

def listed (s : Ivy Code) (r : Str) : List Sub := (subscribers s.messSndByRegexp r).map sub

def registered (s : Ivy Code) (c : Handle) : List (Int32 × Str) :=
  (s.srcRegs c).map fun g => (g.id, g.strRegexp)

def tables (s : Ivy Code) : Tables := ⟨s.listed, s.registered⟩

def Fresh (brk : Nat) (addrs : List Nat) : Prop := addrs.Nodup ∧ ∀ a ∈ addrs, a < brk

theorem Fresh.sublist {brk : Nat} {l l' : List Nat} (h : Fresh brk l) (hl : l'.Sublist l) :
    Fresh brk l' :=
  ⟨h.1.sublist hl, fun a ha => h.2 a (hl.subset ha)⟩

theorem Fresh.mono {brk brk' : Nat} {l : List Nat} (h : Fresh brk l) (hle : brk ≤ brk') :
    Fresh brk' l :=
  ⟨h.1, fun a ha => (h.2 a ha).trans_le hle⟩

theorem Fresh.cons {brk : Nat} {l : List Nat} (h : Fresh brk l) : Fresh (brk + 1) (brk :: l) := by
  refine ⟨List.nodup_cons.mpr ⟨fun hb => (h.2 brk hb).false, h.1⟩, ?_⟩
  intro a ha
  rcases List.mem_cons.mp ha with rfl | ha
  · exact Nat.lt_succ_self a
  · exact (h.2 a ha).trans (Nat.lt_succ_self brk)

structure EntryWf (brk : Nat) (e : MsgSndDict Code) : Prop where
  ne_nil : e.clientList ≠ []
  fresh : Fresh brk (e.clientList.map IvyClient.addr)

structure DictWf (brk : Nat) (d : List (MsgSndDict Code)) : Prop where
  keys : (d.map MsgSndDict.regexpSrc).Nodup
  entries : ∀ e ∈ d, EntryWf brk e

structure ClientsWf (brk : Nat) (l : List IvyClient) : Prop where
  handles : (l.map IvyClient.client).Nodup
  srcs : ∀ c ∈ l, Fresh brk (c.srcRegList.map GlobReg.addr)

structure Wf (s : Ivy Code) : Prop where
  dict : DictWf s.brk s.messSndByRegexp
  clients : ClientsWf s.brk s.allClients

section Find

variable {d : List (MsgSndDict Code)} {r r' : Str}

theorem regexpSrc_ite (r : Str) (f : MsgSndDict Code → List IvyClient) (e : MsgSndDict Code) :
    (if e.regexpSrc = r then { e with clientList := f e } else e).regexpSrc = e.regexpSrc := by
  split <;> rfl

theorem map_regexpSrc_ite (r : Str) (f : MsgSndDict Code → List IvyClient)
    (d : List (MsgSndDict Code)) :
    (d.map fun e => if e.regexpSrc = r then { e with clientList := f e } else e).map
      MsgSndDict.regexpSrc = d.map MsgSndDict.regexpSrc := by
  rw [List.map_map]
  exact List.map_congr_left fun e _ => regexpSrc_ite r f e

theorem find?_map_entry {f : MsgSndDict Code → MsgSndDict Code}
    (hf : ∀ e, (f e).regexpSrc = e.regexpSrc) :
    (d.map f).find? (·.regexpSrc = r) = (d.find? (·.regexpSrc = r)).map f := by
  simp only [List.find?_map, Function.comp_def, hf]

theorem find?_filter_entry_self : (d.filter (·.regexpSrc ≠ r)).find? (·.regexpSrc = r) = none := by
  rw [List.find?_eq_none]
  intro e he
  simpa using (List.mem_filter.mp he).2

theorem find?_filter_entry_of_ne (h : r' ≠ r) :
    (d.filter (·.regexpSrc ≠ r)).find? (·.regexpSrc = r') = d.find? (·.regexpSrc = r') := by
  rw [List.find?_filter]
  congr 1
  funext e
  by_cases he : e.regexpSrc = r'
  · simp [he, h]
  · simp [he]

theorem regexpSrc_of_find? {e : MsgSndDict Code} (h : d.find? (·.regexpSrc = r) = some e) :
    e.regexpSrc = r := by
  simpa using List.find?_some h

theorem subscribers_of_find? {e : MsgSndDict Code} (h : d.find? (·.regexpSrc = r) = some e) :
    subscribers d r = e.clientList := by
  rw [subscribers, h]
  rfl

end Find

theorem Wf.mem_listed_iff {s : Ivy Code} (h : s.Wf) {r : Str} {p : Sub} : p ∈ s.listed r ↔
    ∃ msg ∈ s.messSndByRegexp, msg.regexpSrc = r ∧ p ∈ msg.clientList.map sub := by
  constructor
  · intro hp
    rw [listed, subscribers] at hp
    cases hfind : s.messSndByRegexp.find? (·.regexpSrc = r) with
    | none =>
      rw [hfind] at hp
      cases hp
    | some msg =>
      rw [hfind] at hp
      exact ⟨msg, List.mem_of_find?_eq_some hfind, regexpSrc_of_find? hfind, hp⟩
  · rintro ⟨msg, hmsg, rfl, hp⟩
    rw [listed, subscribers_of_find? (find?_cell h.dict.keys hmsg)]
    exact hp

theorem DictWf.mono {brk brk' : Nat} {d : List (MsgSndDict Code)} (h : DictWf brk d)
    (hle : brk ≤ brk') : DictWf brk' d :=
  ⟨h.keys, fun e he => ⟨(h.entries e he).ne_nil, (h.entries e he).fresh.mono hle⟩⟩

theorem ClientsWf.mono {brk brk' : Nat} {l : List IvyClient} (h : ClientsWf brk l)
    (hle : brk ≤ brk') : ClientsWf brk' l :=
  ⟨h.handles, fun c hc => (h.srcs c hc).mono hle⟩

theorem removeClients_eq (p : IvyClient → Bool) {l : List IvyClient}
    (h : (l.map IvyClient.addr).Nodup) : removeClients p l = some (l.filter fun c => !p c) :=
  forEachSafe_unlink p h

theorem Wf.putEntry {s : Ivy Code} (h : s.Wf) {r : Str} {e : MsgSndDict Code}
    (he : s.findEntry r = some e) (q : Sub → Bool) :
    (s.putEntry r (e.clientList.filter fun c => q (sub c))).Wf ∧
      ∀ r', (s.putEntry r (e.clientList.filter fun c => q (sub c))).listed r' =
        if r' = r then (s.listed r).filter q else s.listed r' := by
  have hmem := List.mem_of_find?_eq_some he
  have hr : e.regexpSrc = r := regexpSrc_of_find? he
  have hlisted : s.listed r = e.clientList.map sub := by
    rw [listed, subscribers_of_find? he]
  rw [hlisted, List.filter_map]
  unfold Ivy.putEntry
  split
  · rename_i hnil
    refine ⟨⟨⟨?_, ?_⟩, h.clients⟩, fun r' => ?_⟩
    · exact h.dict.keys.sublist (List.filter_sublist.map _)
    · exact fun e' he' => h.dict.entries e' (List.mem_filter.mp he').1
    · split
      · rename_i heq
        rw [listed, subscribers, heq, find?_filter_entry_self]
        exact (congrArg (List.map sub) hnil).symm
      · rename_i hne
        rw [listed, subscribers, find?_filter_entry_of_ne hne]
        rfl
  · rename_i hne
    refine ⟨⟨⟨?_, ?_⟩, h.clients⟩, fun r' => ?_⟩
    · rw [map_regexpSrc_ite r fun _ => e.clientList.filter fun c => q (sub c)]
      exact h.dict.keys
    · intro e' he'
      obtain ⟨e₀, he₀, rfl⟩ := List.mem_map.mp he'
      split
      · exact ⟨hne, (h.dict.entries e hmem).fresh.sublist (List.filter_sublist.map _)⟩
      · exact h.dict.entries e₀ he₀
    · rw [listed, subscribers,
        find?_map_entry (regexpSrc_ite r fun _ => e.clientList.filter fun c => q (sub c))]
      split
      · rename_i heq
        rw [heq, show s.messSndByRegexp.find? (·.regexpSrc = r) = some e from he,
          Option.map_some, if_pos hr]
        rfl
      · rename_i hne'
        rw [listed, subscribers]
        cases hfind : s.messSndByRegexp.find? (·.regexpSrc = r') with
        | none => rfl
        | some e' =>
          have hr' : e'.regexpSrc = r' := regexpSrc_of_find? hfind
          rw [Option.map_some, if_neg (hr'.symm ▸ hne')]

theorem nodup_of_findEntry {s : Ivy Code} (h : s.Wf) {r : Str} {e : MsgSndDict Code}
    (he : s.findEntry r = some e) : (e.clientList.map IvyClient.addr).Nodup :=
  (h.dict.entries e (List.mem_of_find?_eq_some he)).fresh.1

def frame (s : Ivy Code) : Ivy Code :=
  { s with allClients := [], messSndByRegexp := [], brk := 0, outputs := [] }

structure DictUpdated (s u : Ivy Code) (t : Tables) : Prop where
  dict : DictWf u.brk u.messSndByRegexp
  brk_le : s.brk ≤ u.brk
  clients_eq : u.allClients = s.allClients
  frame_eq : u.frame = s.frame
  listed_eq : u.listed = t.listed

theorem DictUpdated.wf {s u : Ivy Code} {t : Tables} (h : DictUpdated s u t) (hs : s.Wf) :
    u.Wf := by
  refine ⟨h.dict, ?_⟩
  rw [h.clients_eq]
  exact hs.clients.mono h.brk_le

theorem DictUpdated.findClient {s u : Ivy Code} {t : Tables} (h : DictUpdated s u t)
    (c : Handle) : u.findClient c = s.findClient c := by
  rw [Ivy.findClient, h.clients_eq]
  rfl

theorem DictUpdated.srcRegs {s u : Ivy Code} {t : Tables} (h : DictUpdated s u t)
    (c : Handle) : u.srcRegs c = s.srcRegs c := by
  rw [Ivy.srcRegs, h.findClient]
  rfl

theorem Wf.delRegexpForOneClientFromDictionary {s : Ivy Code} (h : s.Wf) (r : Str)
    (client : IvyClient) : ∃ u, s.delRegexpForOneClientFromDictionary r client = some u ∧
      DictUpdated s u (s.tables.unlist [r] (sub client)) := by
  unfold Ivy.delRegexpForOneClientFromDictionary
  cases he : s.findEntry r with
  | none =>
    refine ⟨s, rfl, h.dict, le_rfl, rfl, rfl, funext fun r' => ?_⟩
    by_cases hr : r' = r
    · rw [hr, Tables.listed_unlist_of_mem List.mem_cons_self]
      change s.listed r = (s.listed r).filter _
      rw [listed, subscribers, show s.messSndByRegexp.find? (·.regexpSrc = r) = none from he]
      rfl
    · rw [Tables.listed_unlist_of_notMem fun hmem => hr (List.mem_singleton.mp hmem)]
      rfl
  | some e =>
    have hr : e.regexpSrc = r := regexpSrc_of_find? he
    have hkept : (e.clientList.filter fun c =>
        !(decide (c.client = client.client) && decide (c.id = client.id))) =
          e.clientList.filter fun c => decide (sub c ≠ sub client) := by
      congr 1
      funext c
      simp [sub, Prod.mk.injEq]
    simp only [delOneIvyClientFromDictionaryEntry, hr,
      removeClients_eq _ (nodup_of_findEntry h he), hkept, Option.map_some]
    obtain ⟨hwf, hlisted⟩ := h.putEntry he fun p => decide (p ≠ sub client)
    refine ⟨_, rfl, hwf.dict, le_rfl, rfl, rfl, funext fun r' => (hlisted r').trans ?_⟩
    split
    · rename_i heq
      rw [heq, Tables.listed_unlist_of_mem List.mem_cons_self]
      rfl
    · rename_i hne
      rw [Tables.listed_unlist_of_notMem fun hmem => hne (List.mem_singleton.mp hmem)]
      rfl

theorem Wf.delOneClientFromDictionaryEntry {s : Ivy Code} (h : s.Wf) {e : MsgSndDict Code}
    (he : s.findEntry e.regexpSrc = some e) (client : Handle) :
    s.delOneClientFromDictionaryEntry e client =
        some (s.putEntry e.regexpSrc (e.clientList.filter fun c => (sub c).1 ≠ client)) := by
  have hkept : (e.clientList.filter fun c => !decide (c.client = client)) =
      e.clientList.filter fun c => decide ((sub c).1 ≠ client) := by
    congr 1
    funext c
    exact decide_not.symm
  rw [Ivy.delOneClientFromDictionaryEntry, removeClients_eq _ (nodup_of_findEntry h he), hkept]
  rfl

theorem errorFits_of_compile {engine : Engine Code} {r : Str} {code : Code}
    (hcode : engine.compile r = .ok code) : errorFits engine r := by
  rw [errorFits, ivyBindingCompile, hcode]

section AddEntry

variable {engine : Engine Code} {s u : Ivy Code} {r : Str} {client : IvyClient}

theorem addEntry_eq (h : addEntry engine s r client = some u) : ∃ b o,
    u = { s with messSndByRegexp := s.messSndByRegexp ++ [⟨r, [], b⟩], outputs := o } := by
  unfold addEntry at h
  split at h
  · exact ⟨_, _, (Option.some.inj h).symm⟩
  · dsimp only at h
    split at h
    · exact ⟨_, _, (Option.some.inj h).symm⟩
    · cases h

theorem addEntry_isSome : (addEntry engine s r client).isSome = errorFits engine r := by
  rw [addEntry, errorFits]
  cases ivyBindingCompile engine r with
  | ok binding => rfl
  | error e =>
    obtain ⟨erroffset, errbuf⟩ := e
    by_cases hfits : (errorCompiling r errbuf).length < errorBufferSize
    · simp only [if_pos hfits, Option.isSome_some, decide_eq_true hfits]
    · simp only [if_neg hfits, Option.isSome_none, decide_eq_false hfits]

theorem addRegexpToDictionary_isSome_iff (client : IvyClient) :
    (addRegexpToDictionary engine s r client).isSome ↔
      (s.findEntry r = none → errorFits engine r) := by
  rw [addRegexpToDictionary]
  cases s.findEntry r with
  | none => rw [Option.isSome_map, addEntry_isSome, eq_self, forall_true_left]
  | some e => simp

end AddEntry

theorem subscribe_wf {brk : Nat} {d : List (MsgSndDict Code)}
    (hkeys : (d.map MsgSndDict.regexpSrc).Nodup) {r : Str} {new : IvyClient}
    (hnew : new.addr = brk)
    (hentries : ∀ e ∈ d, EntryWf brk e ∨ e.regexpSrc = r ∧ e.clientList = []) :
    DictWf (brk + 1) (d.map fun e =>
      if e.regexpSrc = r then { e with clientList := new :: e.clientList } else e) := by
  constructor
  · rw [map_regexpSrc_ite r fun e => new :: e.clientList]
    exact hkeys
  · intro e' he'
    obtain ⟨e, he, rfl⟩ := List.mem_map.mp he'
    split
    · refine ⟨List.cons_ne_nil _ _, ?_⟩
      simp only [List.map_cons, hnew]
      apply Fresh.cons
      rcases hentries e he with hwf | ⟨-, hnil⟩
      · exact hwf.fresh
      · rw [hnil]
        exact ⟨List.nodup_nil, nofun⟩
    · rename_i hne
      rcases hentries e he with hwf | ⟨heq, -⟩
      · exact ⟨hwf.ne_nil, hwf.fresh.mono (Nat.le_succ brk)⟩
      · exact absurd heq hne

theorem subscribe_listed {d : List (MsgSndDict Code)} {r : Str} (new : IvyClient)
    (hfind : (d.find? (·.regexpSrc = r)).isSome) (r' : Str) :
    subscribers (d.map fun e =>
      if e.regexpSrc = r then { e with clientList := new :: e.clientList } else e) r' =
        if r' = r then new :: subscribers d r else subscribers d r' := by
  rw [subscribers, find?_map_entry (regexpSrc_ite r fun e => new :: e.clientList)]
  cases hf : d.find? (·.regexpSrc = r') with
  | none =>
    rw [if_neg]
    · rw [subscribers, hf]
      rfl
    · rintro rfl
      rw [hf] at hfind
      cases hfind
  | some e =>
    have hr' : e.regexpSrc = r' := regexpSrc_of_find? hf
    rw [Option.map_some, hr']
    split
    · rename_i heq
      rw [← heq, subscribers_of_find? hf]
      rfl
    · exact (subscribers_of_find? hf).symm

theorem Wf.addRegexpToDictionary {engine : Engine Code} {s u : Ivy Code} (h : s.Wf) {r : Str}
    {client : IvyClient} (hu : addRegexpToDictionary engine s r client = some u) :
    DictUpdated s u (s.tables.enlist r (sub client)) := by
  have hlisted : ∀ (d : List (MsgSndDict Code)) (new : IvyClient), sub new = sub client →
      (d.find? (·.regexpSrc = r)).isSome →
      (∀ r', subscribers d r' = subscribers s.messSndByRegexp r') →
      ∀ r', (subscribers (d.map fun e =>
        if e.regexpSrc = r then { e with clientList := new :: e.clientList } else e) r').map sub =
          (s.tables.enlist r (sub client)).listed r' := by
    intro d new hnew hfind hsame r'
    rw [subscribe_listed new hfind]
    split
    · rename_i heq
      rw [heq, Tables.listed_enlist_self, List.map_cons, hnew, hsame]
      rfl
    · rename_i hne
      rw [Tables.listed_enlist_of_ne hne, hsame]
      rfl
  rw [Ivy.addRegexpToDictionary] at hu
  cases he : s.findEntry r with
  | none =>
    simp only [he, Option.map_eq_some_iff] at hu
    obtain ⟨t, hadd, rfl⟩ := hu
    obtain ⟨b, o, rfl⟩ := addEntry_eq hadd
    have hnone : s.messSndByRegexp.find? (·.regexpSrc = r) = none := he
    refine ⟨subscribe_wf ?_ rfl ?_, Nat.le_succ _, rfl, rfl, funext (hlisted _ _ rfl ?_ ?_)⟩
    · rw [List.map_append, List.nodup_append]
      refine ⟨h.dict.keys, List.nodup_singleton _, ?_⟩
      rintro k hk k' hk' rfl
      obtain ⟨e, hmem, hkey⟩ := List.mem_map.mp hk
      rw [List.mem_singleton.mp hk'] at hkey
      exact List.find?_eq_none.mp hnone e hmem (decide_eq_true hkey)
    · intro e hmem
      rcases List.mem_append.mp hmem with hmem | hmem
      · exact Or.inl (h.dict.entries e hmem)
      · rw [List.mem_singleton.mp hmem]
        exact Or.inr ⟨rfl, rfl⟩
    · rw [List.find?_append, hnone]
      simp
    · intro r'
      rw [subscribers, List.find?_append, subscribers]
      cases s.messSndByRegexp.find? (·.regexpSrc = r') with
      | some e => rfl
      | none =>
        simp only [Option.none_or, List.find?_singleton]
        split <;> rfl
  | some e =>
    simp only [he, Option.some.injEq] at hu
    subst hu
    refine ⟨subscribe_wf h.dict.keys rfl fun e' he' => Or.inl (h.dict.entries e' he'),
      Nat.le_succ _, rfl, rfl, funext (hlisted _ _ rfl ?_ fun _ => rfl)⟩
    rw [show s.messSndByRegexp.find? (·.regexpSrc = r) = some e from he]
    rfl

def bare (c : IvyClient) : IvyClient := { c with id := 0, srcRegList := [] }

section Clients

variable {s : Ivy Code} {c c' : Handle} {f : IvyClient → IvyClient}

theorem client_of_findClient {itr : IvyClient} (h : s.findClient c = some itr) :
    itr.client = c := by
  simpa using List.find?_some h

theorem findClient_modify (hf : ∀ itr, (f itr).client = itr.client) (c' : Handle) :
    (s.modifyClient c f).findClient c' =
      (s.findClient c').map fun itr => if itr.client = c then f itr else itr := by
  have hkey : ∀ itr : IvyClient, (if itr.client = c then f itr else itr).client = itr.client := by
    intro itr
    split
    · exact hf itr
    · rfl
  simp only [findClient, modifyClient, List.find?_map, Function.comp_def, hkey]

def setSrcRegs (s : Ivy Code) (c : Handle) (g : List GlobReg → List GlobReg) : Ivy Code :=
  s.modifyClient c fun itr => { itr with srcRegList := g itr.srcRegList }

theorem srcRegs_of_findClient {itr : IvyClient} (h : s.findClient c = some itr) :
    s.srcRegs c = itr.srcRegList := by
  rw [srcRegs, h]
  rfl

theorem findClient_setSrcRegs (g : List GlobReg → List GlobReg) (c' : Handle) :
    (s.setSrcRegs c g).findClient c' = (s.findClient c').map fun itr =>
      if itr.client = c then { itr with srcRegList := g itr.srcRegList } else itr :=
  findClient_modify (f := fun itr => { itr with srcRegList := g itr.srcRegList }) (fun _ => rfl) c'

theorem srcRegs_setSrcRegs_self {g : List GlobReg → List GlobReg} {itr : IvyClient}
    (h : s.findClient c = some itr) : (s.setSrcRegs c g).srcRegs c = g (s.srcRegs c) := by
  rw [srcRegs, findClient_setSrcRegs, srcRegs_of_findClient h, h,
    Option.map_some, if_pos (client_of_findClient h)]
  rfl

theorem srcRegs_setSrcRegs_of_ne (h : c' ≠ c) (g : List GlobReg → List GlobReg) :
    (s.setSrcRegs c g).srcRegs c' = s.srcRegs c' := by
  rw [srcRegs, findClient_setSrcRegs, srcRegs]
  cases hfind : s.findClient c' with
  | none => rfl
  | some itr => rw [Option.map_some, if_neg (client_of_findClient hfind ▸ h)]

theorem bare_setSrcRegs (g : List GlobReg → List GlobReg) :
    (s.setSrcRegs c g).allClients.map bare = s.allClients.map bare := by
  simp only [setSrcRegs, modifyClient, List.map_map]
  apply List.map_congr_left
  intro itr _
  simp only [Function.comp_apply]
  split <;> rfl

theorem map_of_bare {α : Type*} {g : IvyClient → α} (hg : ∀ clnt, g (bare clnt) = g clnt)
    {l l' : List IvyClient} (h : l.map bare = l'.map bare) : l.map g = l'.map g := by
  have hmap : ∀ l : List IvyClient, l.map g = (l.map bare).map g := by
    intro l
    rw [List.map_map]
    exact List.map_congr_left fun clnt _ => (hg clnt).symm
  rw [hmap l, h, ← hmap]

theorem handles_of_bare {l l' : List IvyClient} (h : l.map bare = l'.map bare) :
    l.map IvyClient.client = l'.map IvyClient.client :=
  map_of_bare (fun _ => rfl) h

theorem findClient_isSome : (s.findClient c).isSome ↔ c ∈ s.allClients.map IvyClient.client := by
  rw [findClient, List.find?_isSome]
  simp

theorem registered_eq_nil (h : s.findClient c = none) : s.registered c = [] := by
  rw [registered, srcRegs, h]
  rfl

theorem ClientsWf.setSrcRegs {brk brk' : Nat} (h : ClientsWf brk s.allClients)
    (hle : brk ≤ brk') {g : List GlobReg → List GlobReg}
    (hg : ∀ itr ∈ s.allClients, itr.client = c →
      Fresh brk' ((g itr.srcRegList).map GlobReg.addr)) :
    ClientsWf brk' (s.setSrcRegs c g).allClients := by
  constructor
  · rw [handles_of_bare (bare_setSrcRegs g)]
    exact h.handles
  · intro itr hitr
    obtain ⟨itr, hmem, rfl⟩ := List.mem_map.mp hitr
    split
    · rename_i hc
      exact hg itr hmem hc
    · exact (h.srcs itr hmem).mono hle

end Clients

structure Updated (s s' : Ivy Code) (t : Tables) : Prop where
  wf : s'.Wf
  frame_eq : s'.frame = s.frame
  clients_eq : s'.allClients.map bare = s.allClients.map bare
  tables_eq : s'.tables = t

theorem Updated.findClient {s s' : Ivy Code} {t : Tables} (h : Updated s s' t) {c : Handle}
    (hc : (s.findClient c).isSome) : (s'.findClient c).isSome := by
  rw [findClient_isSome] at hc ⊢
  rwa [handles_of_bare h.clients_eq]

theorem tables_register {s s' : Ivy Code} {t : Tables} {c : Handle}
    (hlisted : s'.listed = t.listed) (hregistered : t.registered = s.registered)
    (hothers : ∀ c', c' ≠ c → s'.srcRegs c' = s.srcRegs c') :
    s'.tables = t.register c (s'.registered c) := by
  have hupdate : s'.registered = Function.update t.registered c (s'.registered c) := by
    funext c'
    by_cases hc : c' = c
    · rw [hc, Function.update_self]
    · rw [Function.update_of_ne hc, hregistered, registered, hothers c' hc]
      rfl
  rw [tables, hlisted, hupdate, Function.update_self]
  rfl

theorem regexpsOf_eq (s : Ivy Code) (c : Handle) (id : Int32) : s.tables.regexpsOf c id =
    ((s.srcRegs c).filter (·.id = id)).map GlobReg.strRegexp := by
  simp only [Tables.regexpsOf, tables, registered, List.filter_map, List.map_map]
  rfl

/-- The walk of `delRegexpForOneClient` when it has passed the nodes `pre`. -/
structure DelWalk (s : Ivy Code) (client : IvyClient) (id : Int32) (pre ahead : List GlobReg)
    (s' : Ivy Code) : Prop where
  split_eq : s.srcRegs client.client = pre ++ ahead
  wf : s'.Wf
  frame_eq : s'.frame = s.frame
  clients_eq : s'.allClients.map bare = s.allClients.map bare
  srcs_eq : s'.srcRegs client.client = pre.filter (·.id ≠ id) ++ ahead
  others_eq : ∀ c, c ≠ client.client → s'.srcRegs c = s.srcRegs c
  listed_eq : s'.listed =
    (s.tables.unlist ((pre.filter (·.id = id)).map GlobReg.strRegexp) (sub client)).listed

section DelWalk

variable {s s' : Ivy Code} {client : IvyClient} {id : Int32} {pre rest : List GlobReg}
  {g : GlobReg}

theorem DelWalk.addr_notMem (h : DelWalk s client id pre (g :: rest) s')
    (hnodup : ((s.srcRegs client.client).map GlobReg.addr).Nodup) :
    g.addr ∉ (pre.filter (·.id ≠ id)).map GlobReg.addr := by
  rw [h.split_eq, List.map_append, List.nodup_append] at hnodup
  intro hmem
  obtain ⟨g', hg', heq⟩ := List.mem_map.mp hmem
  exact hnodup.2.2 _ (List.mem_map_of_mem (List.mem_filter.mp hg').1) _ (by simp) heq

theorem DelWalk.split_next (h : DelWalk s client id pre (g :: rest) s') :
    s.srcRegs client.client = (pre ++ [g]) ++ rest := by
  rw [h.split_eq, List.append_assoc]
  rfl

theorem DelWalk.skip (h : DelWalk s client id pre (g :: rest) s') (hid : g.id ≠ id) :
    DelWalk s client id (pre ++ [g]) rest s' := by
  refine ⟨h.split_next, h.wf, h.frame_eq, h.clients_eq, ?_, h.others_eq, ?_⟩
  · rw [h.srcs_eq, List.filter_append, List.filter_cons_of_pos (by simpa using hid),
      List.append_assoc]
    rfl
  · rw [h.listed_eq, List.filter_append, List.filter_cons_of_neg (by simpa using hid),
      List.filter_nil, List.append_nil]

theorem unlist_unlist {t t' : Tables} {rs : List Str} {p : Sub}
    (h : t'.listed = (t.unlist rs p).listed) (r : Str) :
    (t'.unlist [r] p).listed = (t.unlist (rs ++ [r]) p).listed := by
  funext r'
  simp only [Tables.unlist, h, List.mem_append, List.mem_singleton]
  by_cases hr : r' = r
  · rw [hr]
    by_cases hrs : r ∈ rs <;> simp [hrs]
  · by_cases hrs : r' ∈ rs <;> simp [hrs, hr]

theorem DelWalk.remove (h : DelWalk s client id pre (g :: rest) s')
    (hc : (s.findClient client.client).isSome)
    (hnodup : ((s.srcRegs client.client).map GlobReg.addr).Nodup) (hid : g.id = id) :
    ∃ t, s'.delRegexpForOneClientFromDictionary g.strRegexp client = some t ∧
      DelWalk s client id (pre ++ [g]) rest
        (t.setSrcRegs client.client (unlink GlobReg.addr g.addr)) := by
  obtain ⟨u, hu, hdict⟩ := h.wf.delRegexpForOneClientFromDictionary g.strRegexp client
  have hwf := hdict.wf h.wf
  refine ⟨u, hu, h.split_next, ⟨hwf.dict, ?_⟩, hdict.frame_eq.trans h.frame_eq, ?_, ?_, ?_, ?_⟩
  · exact hwf.clients.setSrcRegs le_rfl fun itr hitr _ =>
      (hwf.clients.srcs itr hitr).sublist (List.eraseP_sublist.map _)
  · rw [bare_setSrcRegs, hdict.clients_eq]
    exact h.clients_eq
  · rw [findClient_isSome, ← handles_of_bare h.clients_eq, ← findClient_isSome,
      ← hdict.findClient] at hc
    obtain ⟨itr, hitr⟩ := Option.isSome_iff_exists.mp hc
    rw [srcRegs_setSrcRegs_self hitr, hdict.srcRegs, h.srcs_eq, unlink_cell (h.addr_notMem hnodup),
      List.filter_append, List.filter_cons_of_neg (by simpa using hid), List.filter_nil,
      List.append_nil]
  · intro c hne
    rw [srcRegs_setSrcRegs_of_ne hne, hdict.srcRegs]
    exact h.others_eq c hne
  · rw [List.filter_append, List.filter_cons_of_pos (by simpa using hid), List.map_append]
    exact hdict.listed_eq.trans (unlist_unlist h.listed_eq _)

end DelWalk

theorem Wf.delRegexpForOneClient {s : Ivy Code} (h : s.Wf) {client : IvyClient}
    (hc : (s.findClient client.client).isSome) (id : Int32) :
    ∃ s' removed, s.delRegexpForOneClient client id = some (s', removed) ∧
      Updated s s' (s.tables.del client.client client.id id) ∧
      s'.srcRegs client.client = (s.srcRegs client.client).filter (·.id ≠ id) := by
  obtain ⟨itr, hitr⟩ := Option.isSome_iff_exists.mp hc
  have hnodup : ((s.srcRegs client.client).map GlobReg.addr).Nodup := by
    rw [srcRegs_of_findClient hitr]
    exact (h.clients.srcs itr (List.mem_of_find?_eq_some hitr)).1
  let I (ahead : List GlobReg) (p : Ivy Code × Bool) : Prop :=
    ∃ pre, DelWalk s client id pre ahead p.1
  have hstep : ∀ g rest (p : Ivy Code × Bool), I (g :: rest) p →
      (∃ pre, p.1.srcRegs client.client = pre ++ g :: rest ∧ g.addr ∉ pre.map GlobReg.addr) ∧
        ∃ p', (if g.id = id then
          (p.1.delRegexpForOneClientFromDictionary g.strRegexp client).map fun t =>
            (t.setSrcRegs client.client (unlink GlobReg.addr g.addr), true)
          else some p) = some p' ∧ I rest p' := by
    rintro g rest p ⟨pre, hwalk⟩
    refine ⟨⟨_, hwalk.srcs_eq, hwalk.addr_notMem hnodup⟩, ?_⟩
    split
    · rename_i hid
      obtain ⟨t, ht, hnext⟩ := hwalk.remove hc hnodup hid
      exact ⟨_, by rw [ht]; rfl, pre ++ [g], hnext⟩
    · rename_i hid
      exact ⟨p, rfl, pre ++ [g], hwalk.skip hid⟩
  have hstart : I (s.srcRegs client.client) (s, false) :=
    ⟨[], rfl, h, rfl, rfl, rfl, fun _ _ => rfl, rfl⟩
  obtain ⟨⟨s', removed⟩, hrun, pre, hwalk⟩ := eachSafe_rule hstep hstart (Nat.lt_succ_self _)
  have hpre := hwalk.split_eq
  have hsrc := hwalk.srcs_eq
  rw [List.append_nil] at hpre hsrc
  rw [← hpre] at hsrc
  refine ⟨s', removed, ?_, ⟨hwalk.wf, hwalk.frame_eq, hwalk.clients_eq, ?_⟩, hsrc⟩
  · rw [Ivy.delRegexpForOneClient, hitr]
    exact hrun
  · have hregistered : s'.registered client.client =
        (s.registered client.client).filter (·.1 ≠ id) := by
      rw [registered, hsrc, registered, List.filter_map]
      rfl
    have hlisted := hwalk.listed_eq
    rw [← hpre, ← regexpsOf_eq] at hlisted
    rw [tables_register hlisted rfl hwalk.others_eq, hregistered]
    rfl

theorem Updated.emit {s s' : Ivy Code} {t : Tables} (h : Updated s s' t) (o : Output) :
    Updated s (s'.emit o) t :=
  ⟨⟨h.wf.dict, h.wf.clients⟩, h.frame_eq, h.clients_eq, h.tables_eq⟩

theorem DictUpdated.setSrcRegs {s u : Ivy Code} {t : Tables} (h : DictUpdated s u t) (hs : s.Wf)
    {c : Handle} (hc : (s.findClient c).isSome) {brk : Nat} (hbrk : u.brk ≤ brk)
    {g : List GlobReg → List GlobReg} {f : List (Int32 × Str) → List (Int32 × Str)}
    (hfresh : ∀ itr ∈ s.allClients, itr.client = c →
      Fresh brk ((g itr.srcRegList).map GlobReg.addr))
    (ht : t.registered = s.registered)
    (hg : (g (s.srcRegs c)).map (fun g => (g.id, g.strRegexp)) = f (s.registered c)) :
    Updated s ({ u with brk := brk }.setSrcRegs c g) (t.register c (f (s.registered c))) := by
  obtain ⟨itr, hitr⟩ := Option.isSome_iff_exists.mp hc
  have hitr' : ({ u with brk := brk } : Ivy Code).findClient c = some itr :=
    (h.findClient c).trans hitr
  have hself : ({ u with brk := brk }.setSrcRegs c g).registered c = f (s.registered c) := by
    rw [Ivy.registered, srcRegs_setSrcRegs_self hitr']
    exact (congrArg (fun l => (g l).map _) (h.srcRegs c)).trans hg
  refine ⟨⟨h.dict.mono hbrk, ?_⟩, h.frame_eq, ?_, ?_⟩
  · refine ClientsWf.setSrcRegs ((h.wf hs).clients.mono hbrk) le_rfl fun itr hitr => ?_
    exact hfresh itr (h.clients_eq ▸ hitr)
  · rw [bare_setSrcRegs]
    exact congrArg _ h.clients_eq
  · rw [← hself]
    refine tables_register h.listed_eq ht fun c' hne => ?_
    rw [srcRegs_setSrcRegs_of_ne hne]
    exact h.srcRegs c'

theorem Wf.addRegexp {engine : Engine Code} {s s' : Ivy Code} (h : s.Wf) {r : Str}
    {client : IvyClient} (hc : (s.findClient client.client).isSome)
    (hs' : addRegexp engine s r client = some s') :
    Updated s s' (s.tables.add client.client client.id r) := by
  obtain ⟨u, hu, hs'⟩ := Option.bind_eq_some_iff.mp hs'
  have hdict := h.addRegexpToDictionary hu
  obtain ⟨itr, hitr⟩ := Option.isSome_iff_exists.mp hc
  simp only [(hdict.findClient _).trans hitr, Option.some.injEq] at hs'
  rw [← hs']
  refine Updated.emit ?_ _
  refine hdict.setSrcRegs (f := fun l => (client.id, r) :: l) h hc (Nat.le_succ _) ?_ rfl rfl
  intro itr hitr _
  exact ((h.clients.srcs itr hitr).mono hdict.brk_le).cons

theorem Wf.addRegexp_isSome_iff {engine : Engine Code} {s : Ivy Code} (h : s.Wf) {r : Str}
    {client : IvyClient} (hc : (s.findClient client.client).isSome) :
    (Ivy.addRegexp engine s r client).isSome ↔ (s.findEntry r = none → errorFits engine r) := by
  rw [← addRegexpToDictionary_isSome_iff client, Ivy.addRegexp]
  cases hu : Ivy.addRegexpToDictionary engine s r client with
  | none => rfl
  | some u =>
    obtain ⟨itr, hitr⟩ := Option.isSome_iff_exists.mp hc
    simp only [Option.bind_some, ((h.addRegexpToDictionary hu).findClient _).trans hitr,
      Option.isSome_some]

theorem changeSrcRegs_eq (r : Str) (id : Int32) {l : List GlobReg}
    (hnodup : (l.map GlobReg.addr).Nodup) : changeSrcRegs r id l =
      some (l.map fun g => if g.id = id then { g with strRegexp := r } else g) := by
  let f (g : GlobReg) : GlobReg := if g.id = id then { g with strRegexp := r } else g
  have haddr : ∀ g, (f g).addr = g.addr := by
    intro g
    simp only [f]
    split <;> rfl
  let I (ahead s : List GlobReg) : Prop := ∃ pre, l = pre ++ ahead ∧ s = pre.map f ++ ahead
  have hstep : ∀ g rest s, I (g :: rest) s →
      (∃ pre, s = pre ++ g :: rest ∧ g.addr ∉ pre.map GlobReg.addr) ∧
        ∃ s', (some <| if g.id = id then
            s.map fun g' => if g'.addr = g.addr then { g' with strRegexp := r } else g'
          else s) = some s' ∧ I rest s' := by
    rintro g rest s ⟨pre, hl, rfl⟩
    rw [hl, List.map_append, List.nodup_append, List.map_cons, List.nodup_cons] at hnodup
    obtain ⟨-, ⟨hrest, -⟩, hpre⟩ := hnodup
    have hnew : g.addr ∉ pre.map GlobReg.addr := fun h => hpre _ h _ List.mem_cons_self rfl
    have hnew' : g.addr ∉ (pre.map f).map GlobReg.addr := by
      simpa only [List.map_map, Function.comp_def, haddr] using hnew
    have hother : ∀ l : List GlobReg, g.addr ∉ l.map GlobReg.addr →
        (l.map fun g' => if g'.addr = g.addr then { g' with strRegexp := r } else g') = l := by
      intro l hg
      refine (List.map_congr_left fun g' hg' => ?_).trans (List.map_id _)
      exact if_neg fun heq => hg (List.mem_map.mpr ⟨g', hg', heq⟩)
    refine ⟨⟨_, rfl, hnew'⟩, _, rfl, pre ++ [g], by rw [hl, List.append_assoc]; rfl, ?_⟩
    rw [List.map_append (f := f), List.append_assoc]
    split
    · rename_i hid
      rw [List.map_append, hother _ hnew', List.map_cons, hother _ hrest, if_pos rfl]
      simp [f, hid]
    · rename_i hid
      simp [f, hid]
  obtain ⟨s, hs, pre, hl, rfl⟩ := eachSafe_rule hstep ⟨[], rfl, rfl⟩ (Nat.lt_succ_self l.length)
  rw [List.append_nil] at hl hs
  rw [← hl] at hs
  exact hs

theorem changeGlobal_eq {s : Ivy Code} (r : Str) {client itr : IvyClient}
    (hitr : s.findClient client.client = some itr)
    (hnodup : (itr.srcRegList.map GlobReg.addr).Nodup) : s.changeGlobal r client =
      some (s.setSrcRegs client.client fun _ => itr.srcRegList.map fun g =>
        if g.id = client.id then { g with strRegexp := r } else g) := by
  simp only [changeGlobal, hitr, changeSrcRegs_eq r client.id hnodup]
  rfl

theorem DictUpdated.trans {s u v : Ivy Code} {t t' : Tables} (h : DictUpdated s u t)
    (h' : DictUpdated u v t') : DictUpdated s v t' :=
  ⟨h'.dict, h.brk_le.trans h'.brk_le, h'.clients_eq.trans h.clients_eq,
    h'.frame_eq.trans h.frame_eq, h'.listed_eq⟩

theorem Wf.changeRegexpInDictionary {engine : Engine Code} {s u : Ivy Code} (h : s.Wf) {r : Str}
    {client : IvyClient} (hu : changeRegexpInDictionary engine s r client = some u) :
    DictUpdated s u ((s.tables.unlist [r] (sub client)).enlist r (sub client)) := by
  obtain ⟨t, hdel, hunlist⟩ := h.delRegexpForOneClientFromDictionary r client
  rw [Ivy.changeRegexpInDictionary, hdel, Option.bind_some] at hu
  have henlist := (hunlist.wf h).addRegexpToDictionary hu
  refine hunlist.trans ?_
  refine ⟨henlist.dict, henlist.brk_le, henlist.clients_eq, henlist.frame_eq, ?_⟩
  rw [henlist.listed_eq]
  simp only [Tables.enlist, tables, hunlist.listed_eq]

theorem Wf.changeRegexp {engine : Engine Code} {s s' : Ivy Code} (h : s.Wf) {r : Str}
    {client : IvyClient} (hc : (s.findClient client.client).isSome)
    (hs' : changeRegexp engine s r client = some s') :
    Updated s s' (s.tables.change client.client client.id r) := by
  obtain ⟨v, hv, rfl⟩ := Option.map_eq_some_iff.mp hs'
  obtain ⟨u, hchange, hv⟩ := Option.bind_eq_some_iff.mp hv
  have hdict := h.changeRegexpInDictionary hchange
  obtain ⟨itr, hitr⟩ := Option.isSome_iff_exists.mp hc
  have hsrc := h.clients.srcs itr (List.mem_of_find?_eq_some hitr)
  rw [changeGlobal_eq r ((hdict.findClient _).trans hitr) hsrc.1] at hv
  rw [← Option.some.inj hv]
  refine Updated.emit ?_ _
  refine hdict.setSrcRegs (f := fun l => l.map fun p =>
    if p.1 = client.id then (client.id, r) else p) h hc le_rfl ?_ rfl ?_
  · intro itr' _ _
    rw [List.map_map]
    convert hsrc.mono hdict.brk_le using 1
    apply List.map_congr_left
    intro g _
    simp only [Function.comp_apply]
    split <;> rfl
  · rw [registered, srcRegs_of_findClient hitr, List.map_map, List.map_map]
    apply List.map_congr_left
    intro g _
    simp only [Function.comp_apply]
    split
    · rename_i hid
      rw [hid]
    · rfl

theorem Wf.changeRegexp_isSome {engine : Engine Code} {s : Ivy Code} (h : s.Wf) {r : Str}
    {client : IvyClient} (hc : (s.findClient client.client).isSome)
    (hfits : errorFits engine r) : (Ivy.changeRegexp engine s r client).isSome := by
  obtain ⟨t, hdel, -⟩ := h.delRegexpForOneClientFromDictionary r client
  obtain ⟨u, hu⟩ := Option.isSome_iff_exists.mp
    ((addRegexpToDictionary_isSome_iff (s := t) client).mpr fun _ => hfits)
  have hchange : Ivy.changeRegexpInDictionary engine s r client = some u := by
    rw [Ivy.changeRegexpInDictionary, hdel, Option.bind_some, hu]
  obtain ⟨itr, hitr⟩ := Option.isSome_iff_exists.mp hc
  have hsrc := h.clients.srcs itr (List.mem_of_find?_eq_some hitr)
  have hitr' := ((h.changeRegexpInDictionary hchange).findClient _).trans hitr
  rw [Ivy.changeRegexp, hchange, Option.bind_some, changeGlobal_eq r hitr' hsrc.1]
  rfl

theorem first_iff {s : Ivy Code} {r : Str} {c : Handle} {i : Int32} : s.tables.First c i r ↔
    ∃ itr, (subscribers s.messSndByRegexp r).find? (·.client = c) = some itr ∧ itr.id = i := by
  change (s.listed r).find? _ = _ ↔ _
  rw [listed, List.find?_map, Option.map_eq_some_iff]
  refine exists_congr fun itr => and_congr_right fun hitr => ?_
  have hclient : (sub itr).1 = c := by simpa using List.find?_some hitr
  rw [Prod.ext_iff]
  exact and_iff_right hclient

/-- Whether the line is taken as a change is decided by the first subscription of the client
under the new regexp. -/
theorem Wf.addOrChangeRegexp {engine : Engine Code} {s s' : Ivy Code} (h : s.Wf) {r : Str}
    {client : IvyClient} (hc : (s.findClient client.client).isSome)
    (hs' : addOrChangeRegexp engine s r client = some s') :
    Updated s s' (s.tables.addOrChange client.client client.id r) := by
  rw [Tables.addOrChange]
  rw [Ivy.addOrChangeRegexp] at hs'
  cases he : s.findEntry r with
  | none =>
    simp only [he] at hs'
    have hf : ¬ s.tables.First client.client client.id r := by
      rw [first_iff, subscribers, show s.messSndByRegexp.find? (·.regexpSrc = r) = none from he]
      simp
    rw [if_neg hf]
    exact h.addRegexp hc hs'
  | some e =>
    simp only [he] at hs'
    have hf := first_iff (s := s) (r := r) (c := client.client) (i := client.id)
    rw [subscribers_of_find? he] at hf
    cases hitr : e.clientList.find? (·.client = client.client) with
    | none =>
      simp only [hitr] at hs'
      rw [if_neg fun hfirst => by simp [hitr] at hf; exact hf hfirst]
      exact h.addRegexp hc hs'
    | some itr =>
      simp only [hitr, Option.some.injEq, exists_eq_left'] at hf hs'
      by_cases hid : itr.id = client.id
      · rw [if_pos hid] at hs'
        rw [if_pos (hf.mpr hid)]
        exact h.changeRegexp hc hs'
      · rw [if_neg hid] at hs'
        rw [if_neg fun hfirst => hid (hf.mp hfirst)]
        exact h.addRegexp hc hs'

def Fitting (engine : Engine Code) (t : Tables) : Prop :=
  ∀ r, ∀ p ∈ t.listed r, errorFits engine r

section Fitting

variable {engine : Engine Code} {s : Ivy Code} {t : Tables} {r : Str} {client : IvyClient}

theorem Fitting.addOrChange (h : Fitting engine t) (hfits : errorFits engine r) (c : Handle)
    (i : Int32) : Fitting engine (t.addOrChange c i r) := by
  intro r' p hp
  rcases Tables.mem_addOrChange.mp hp with ⟨rfl, -⟩ | hold
  · exact hfits
  · exact h r' p hold

theorem Fitting.of_subset {t' : Tables} (h : Fitting engine t)
    (hsub : ∀ r, ∀ p ∈ t'.listed r, p ∈ t.listed r) : Fitting engine t' :=
  fun r p hp => h r p (hsub r p hp)

theorem Fitting.del (h : Fitting engine t) (c : Handle) (i : Int32) :
    Fitting engine (t.del c i i) :=
  h.of_subset fun _ _ hp => (Tables.mem_del.mp hp).1

theorem Fitting.disconnect (h : Fitting engine t) (c : Handle) :
    Fitting engine (t.disconnect c) :=
  h.of_subset fun _ _ hp => (List.mem_filter.mp hp).1

theorem Wf.fits_of_entry (h : s.Wf) (hfit : Fitting engine s.tables)
    (he : s.findEntry r ≠ none) : errorFits engine r := by
  obtain ⟨e, he⟩ := Option.ne_none_iff_exists'.mp he
  obtain ⟨clnt, l, hl⟩ := List.exists_cons_of_ne_nil
    (h.dict.entries e (List.mem_of_find?_eq_some he)).ne_nil
  refine hfit r (sub clnt) ?_
  change sub clnt ∈ s.listed r
  rw [listed, subscribers_of_find? he, hl]
  exact List.mem_cons_self

theorem Wf.addOrChangeRegexp_isSome (h : s.Wf) (hc : (s.findClient client.client).isSome)
    (hfits : errorFits engine r) : (Ivy.addOrChangeRegexp engine s r client).isSome := by
  have hadd := (h.addRegexp_isSome_iff (r := r) hc).mpr fun _ => hfits
  rw [Ivy.addOrChangeRegexp]
  split
  · exact hadd
  · split
    · split
      · exact h.changeRegexp_isSome hc hfits
      · exact hadd
    · exact hadd

theorem Wf.addOrChangeRegexp_isSome_iff (h : s.Wf) (hfit : Fitting engine s.tables)
    (hc : (s.findClient client.client).isSome) :
    (Ivy.addOrChangeRegexp engine s r client).isSome ↔ errorFits engine r := by
  refine ⟨fun hsome => ?_, h.addOrChangeRegexp_isSome hc⟩
  by_cases he : s.findEntry r = none
  · simp only [Ivy.addOrChangeRegexp, he] at hsome
    exact (h.addRegexp_isSome_iff hc).mp hsome he
  · exact h.fits_of_entry hfit he

end Fitting

end IvyBus.Ivy
