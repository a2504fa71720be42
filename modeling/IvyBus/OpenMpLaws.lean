import IvyBus.Disconnect
import IvyBus.Dispatch
import IvyBus.OpenMp

namespace IvyBus.OpenMp

open Lib Ivy

variable {Code : Type}

/-! The OPENMP build does to the lists what the sequential build does. -/

section Erasure

variable (engine : Engine Code) (o : Omp Code) (r : Str) (client : IvyClient)

theorem ivy_addRegexpToDictionary : (o.addRegexpToDictionary engine r client).map Omp.ivy =
    Ivy.addRegexpToDictionary engine o.ivy r client := by
  rw [Omp.addRegexpToDictionary, Option.map_map]
  refine (Option.map_congr fun s _ => ?_).trans Option.map_id'
  rw [Function.comp_apply]
  split
  · dsimp only
    split
    · rw [Omp.addRegToPtrArrayCache]
      dsimp only
      split <;> rfl
    · rfl
  · rfl

theorem ivy_delRegexpForOneClientFromDictionary :
    (o.delRegexpForOneClientFromDictionary r client).map Omp.ivy =
      o.ivy.delRegexpForOneClientFromDictionary r client := by
  rw [Omp.delRegexpForOneClientFromDictionary, Option.map_map]
  exact Option.map_id' ..

theorem ivy_delRegexpForOneClient (id : Int32) :
    (o.delRegexpForOneClient client id).map (fun p => (p.1.ivy, p.2)) =
      o.ivy.delRegexpForOneClient client id := by
  rw [Omp.delRegexpForOneClient, Ivy.delRegexpForOneClient]
  cases o.ivy.findClient client.client with
  | none => rfl
  | some itr =>
    apply forEachSafe_map (fun p : Omp Code × Bool => (p.1.ivy, p.2))
    · exact fun _ => rfl
    · intro g p
      dsimp only
      split
      · rw [← ivy_delRegexpForOneClientFromDictionary, Option.map_map, Option.map_map]
        rfl
      · rfl

theorem ivy_addRegexp : (o.addRegexp engine r client).map Omp.ivy =
    Ivy.addRegexp engine o.ivy r client := by
  rw [Omp.addRegexp, Ivy.addRegexp, ← ivy_addRegexpToDictionary]
  cases o.addRegexpToDictionary engine r client with
  | none => rfl
  | some u =>
    simp only [Option.map_some, Option.bind_some]
    cases u.ivy.findClient client.client <;> rfl

theorem ivy_changeRegexp : (o.changeRegexp engine r client).map Omp.ivy =
    Ivy.changeRegexp engine o.ivy r client := by
  rw [Omp.changeRegexp, Ivy.changeRegexp, Omp.changeRegexpInDictionary,
    Ivy.changeRegexpInDictionary, ← ivy_delRegexpForOneClientFromDictionary]
  cases o.delRegexpForOneClientFromDictionary r client with
  | none => rfl
  | some u =>
    simp only [Option.map_some, Option.bind_some]
    rw [← ivy_addRegexpToDictionary]
    cases u.addRegexpToDictionary engine r client with
    | none => rfl
    | some v =>
      simp only [Option.map_some, Option.bind_some, Option.map_map]
      rfl

theorem ivy_addOrChangeRegexp : (o.addOrChangeRegexp engine r client).map Omp.ivy =
    Ivy.addOrChangeRegexp engine o.ivy r client := by
  rw [Omp.addOrChangeRegexp, Ivy.addOrChangeRegexp]
  cases o.ivy.findEntry r with
  | none => exact ivy_addRegexp ..
  | some e =>
    dsimp only
    cases e.clientList.find? (·.client = client.client) with
    | none => exact ivy_addRegexp ..
    | some itr =>
      dsimp only
      split
      · exact ivy_changeRegexp ..
      · exact ivy_addRegexp ..

theorem ivy_delSrcRegs : (o.delSrcRegs client).map Omp.ivy = o.ivy.delSrcRegs client := by
  apply forEachSafe_map Omp.ivy
  · exact fun _ => rfl
  · intro g u
    rw [← ivy_delRegexpForOneClient, Option.map_map, Option.map_map]
    rfl

theorem ivy_delOneClient (c : Handle) :
    (o.delOneClient c).map Omp.ivy = o.ivy.delOneClient c := by
  have hnodes : (forEachSafe IvyClient.client (fun o : Omp Code => o.ivy.allClients)
      (Omp.delClientNode c) o).map Omp.ivy =
        forEachSafe IvyClient.client allClients (Ivy.delClientNode c) o.ivy := by
    apply forEachSafe_map Omp.ivy
    · exact fun _ => rfl
    · intro itr u
      rw [Omp.delClientNode, Ivy.delClientNode]
      split
      · rw [← ivy_delSrcRegs, Option.map_map, Option.map_map]
        rfl
      · rfl
  have hsweep : ∀ u : Omp Code, (forEachSafe MsgSndDict.regexpSrc
      (fun o : Omp Code => o.ivy.messSndByRegexp)
      (fun e o => (o.ivy.delOneClientFromDictionaryEntry e c).map o.put) u).map Omp.ivy =
        forEachSafe MsgSndDict.regexpSrc messSndByRegexp
          (fun e s => s.delOneClientFromDictionaryEntry e c) u.ivy := by
    intro u
    apply forEachSafe_map Omp.ivy
    · exact fun _ => rfl
    · intro e v
      rw [Option.map_map]
      exact Option.map_id' ..
  rw [Omp.delOneClient, Ivy.delOneClient, ← hnodes, Option.map_map]
  cases forEachSafe IvyClient.client (fun o : Omp Code => o.ivy.allClients)
    (Omp.delClientNode c) o with
  | none => rfl
  | some u => exact hsweep u

theorem ivy_receive (c : Handle) (line : Str) :
    (o.receive engine c line).map Omp.ivy = Ivy.receive engine o.ivy c line := by
  have hrest : ((Ivy.receive engine o.ivy c line).map o.put).map Omp.ivy =
      Ivy.receive engine o.ivy c line := by
    rw [Option.map_map]
    exact Option.map_id' ..
  rw [Omp.receive]
  split
  · rename_i clnt h hfind hparse
    split
    · rename_i hignore
      rw [receive_ignored hfind hignore]
      rfl
    · rename_i hopen
      have hres := @receive_parsed Code engine o.ivy c clnt line hfind
        (Bool.not_eq_true _ ▸ hopen) h hparse
      dsimp only
      split
      · rename_i hkind
        rw [hkind] at hres
        rw [hres, Omp.receiveAddRegexp, Ivy.receiveAddRegexp]
        change (if ivyBindingFilter engine (o.ivy.setId c h.id).filter h.arg = true then _ else _ :
          Option _).map _ = _
        split
        · exact ivy_addOrChangeRegexp ..
        · rfl
      · rename_i hkind
        rw [hkind] at hres
        rw [hres, Omp.receiveDelRegexp, Ivy.receiveDelRegexp]
        change _ = ((o.put (o.ivy.setId c h.id)).ivy.delRegexpForOneClient _ _).map _
        rw [← ivy_delRegexpForOneClient, Option.map_map, Option.map_map]
        congr 1
        funext p
        dsimp only [Function.comp_apply]
        split <;> rfl
      · rename_i hkind
        rw [hkind] at hres
        rw [hres]
        rfl
      · rename_i hkind
        rw [hkind] at hres
        rw [hres]
        rfl
      · exact hrest
  · exact hrest

end Erasure

def keys (s : Ivy Code) : List Str := s.messSndByRegexp.map MsgSndDict.regexpSrc

section Keys

variable {s s' : Ivy Code} {r : Str} {client : IvyClient}

theorem findEntry_isSome : (s.findEntry r).isSome ↔ r ∈ keys s := by
  rw [findEntry, List.find?_isSome]
  simp [keys]

theorem mem_keys_of_listed {p : Sub} (h : p ∈ s.listed r) : r ∈ keys s := by
  rw [← findEntry_isSome]
  rw [Ivy.listed, subscribers] at h
  change p ∈ List.map sub ((s.findEntry r).elim [] _) at h
  cases hfind : s.findEntry r with
  | none =>
    rw [hfind] at h
    cases h
  | some e => rfl

theorem listed_ne_nil (h : s.Wf) (hr : r ∈ keys s) : s.listed r ≠ [] := by
  obtain ⟨e, he⟩ := Option.isSome_iff_exists.mp (findEntry_isSome.mpr hr)
  rw [Ivy.listed, subscribers_of_find? he]
  intro hnil
  exact (h.dict.entries e (List.mem_of_find?_eq_some he)).ne_nil (List.map_eq_nil_iff.mp hnil)

theorem keys_putEntry (l : List IvyClient) : keys (s.putEntry r l) ⊆ keys s := by
  rw [keys, putEntry]
  dsimp only
  split
  · exact (List.filter_sublist.map _).subset
  · rw [map_regexpSrc_ite r fun _ => l]
    exact List.Subset.refl _

theorem keys_delRegexpForOneClientFromDictionary
    (h : s.delRegexpForOneClientFromDictionary r client = some s') : keys s' ⊆ keys s := by
  rw [Ivy.delRegexpForOneClientFromDictionary] at h
  split at h
  · exact Option.some.inj h ▸ List.Subset.refl _
  · obtain ⟨l, -, rfl⟩ := Option.map_eq_some_iff.mp h
    exact keys_putEntry l

theorem keys_addRegexpToDictionary {engine : Engine Code}
    (h : Ivy.addRegexpToDictionary engine s r client = some s') :
    keys s' = if r ∈ keys s then keys s else keys s ++ [r] := by
  have hsubscribe : ∀ t : Ivy Code, keys (t.subscribe r client) = keys t :=
    fun t => map_regexpSrc_ite r (fun e => _ :: e.clientList) t.messSndByRegexp
  have hmem := @findEntry_isSome Code s r
  rw [Ivy.addRegexpToDictionary] at h
  cases he : s.findEntry r with
  | none =>
    simp only [he, Option.map_eq_some_iff] at h
    obtain ⟨t, ht, rfl⟩ := h
    obtain ⟨b, o, rfl⟩ := addEntry_eq ht
    rw [hsubscribe, keys, List.map_append, if_neg fun hr => by simpa [he] using hmem.mpr hr]
    rfl
  | some e =>
    simp only [he, Option.some.injEq] at h
    rw [← h, hsubscribe, if_pos (hmem.mp (by rw [he]; rfl))]

end Keys

structure Base (o : Omp Code) : Prop where
  address_inj : ∀ r ∈ keys o.ivy, ∀ r' ∈ keys o.ivy, o.address r = o.address r' → r = r'
  address_lt : ∀ r ∈ keys o.ivy, o.address r < o.brk
  slots_lt : ∀ a, some a ∈ o.ompDictCache.slots → a < o.brk

section Base

variable {engine : Engine Code} {o o' : Omp Code} {r : Str} {client : IvyClient} {s' : Ivy Code}

theorem entries_eq (o : Omp Code) : o.entries = (keys o.ivy).map o.address := by
  rw [Omp.entries, keys, List.map_map]
  rfl

theorem Base.put (h : Base o) (hkeys : keys s' ⊆ keys o.ivy) : Base (o.put s') :=
  ⟨fun r hr r' hr' => h.address_inj r (hkeys hr) r' (hkeys hr'),
    fun r hr => h.address_lt r (hkeys hr), h.slots_lt⟩

theorem Base.entries_lt (h : Base o) {a : Nat} (ha : a ∈ o.entries) : a < o.brk := by
  rw [entries_eq] at ha
  obtain ⟨r, hr, rfl⟩ := List.mem_map.mp ha
  exact h.address_lt r hr

theorem Base.entries_nodup (h : Base o) (hwf : o.ivy.Wf) : o.entries.Nodup := by
  rw [entries_eq]
  exact hwf.dict.keys.map_on h.address_inj

theorem mem_grow {α : Type} {slots : List (Option α)} {size : Nat} {a : α}
    (h : some a ∈ Cache.grow slots size) : some a ∈ slots := by
  rcases List.mem_append.mp h with h | h
  · exact h
  · cases List.eq_of_mem_replicate h

theorem mem_overwrite {α : Type} {slots : List (Option α)} {entries : List α} {a : α}
    (h : some a ∈ (Cache.overwrite slots entries).slots) : a ∈ entries ∨ some a ∈ slots := by
  rcases List.mem_append.mp h with h | h
  · obtain ⟨b, hb, heq⟩ := List.mem_map.mp h
    exact Or.inl (Option.some.inj heq ▸ hb)
  · exact Or.inr (List.mem_of_mem_drop h)

theorem Base.regenerate (h : Base o) : Base o.regenerateRegPtrArrayCache := by
  refine ⟨h.address_inj, h.address_lt, fun a ha => ?_⟩
  rcases mem_overwrite ha with ha | ha
  · exact h.entries_lt ha
  · split at ha
    · exact h.slots_lt a (mem_grow ha)
    · exact h.slots_lt a ha

theorem holds_regenerate (o : Omp Code) :
    o.regenerateRegPtrArrayCache.ompDictCache.Holds o.entries o.entries :=
  Cache.holds_overwrite ..

structure Shrunk (o o' : Omp Code) : Prop where
  base : Base o'
  received_eq : o'.endRegexpReceived = o.endRegexpReceived
  ended_eq : o'.ended = o.ended

theorem Base.shrunk (h : Base o) : Shrunk o o := ⟨h, rfl, rfl⟩

theorem Shrunk.put (h : Shrunk o o') (hkeys : keys s' ⊆ keys o'.ivy) : Shrunk o (o'.put s') :=
  ⟨h.base.put hkeys, h.received_eq, h.ended_eq⟩

theorem Shrunk.regenerate (h : Shrunk o o') : Shrunk o o'.regenerateRegPtrArrayCache :=
  ⟨h.base.regenerate, h.received_eq, h.ended_eq⟩

variable {u u' : Omp Code}

theorem Shrunk.delRegexpForOneClientFromDictionary (h : Shrunk o u)
    (hu' : u.delRegexpForOneClientFromDictionary r client = some u') :
    Shrunk o u' ∧ u'.ompDictCache.Holds u'.entries u'.entries := by
  obtain ⟨s', hs', rfl⟩ := Option.map_eq_some_iff.mp hu'
  exact ⟨(h.put (keys_delRegexpForOneClientFromDictionary hs')).regenerate, holds_regenerate _⟩

theorem Shrunk.delRegexpForOneClient (h : Shrunk o u) {id : Int32} {removed : Bool}
    (hu' : u.delRegexpForOneClient client id = some (u', removed)) :
    Shrunk o u' ∧ (u' = u ∨ u'.ompDictCache.Holds u'.entries u'.entries) := by
  rw [Omp.delRegexpForOneClient] at hu'
  split at hu'
  · cases hu'
    exact ⟨h, Or.inl rfl⟩
  · refine eachSafe_preserves (P := fun p : Omp Code × Bool => Shrunk o p.1 ∧
      (p.1 = u ∨ p.1.ompDictCache.Holds p.1.entries p.1.entries))
      (fun g p p' hp _ hbody => ?_) ⟨h, Or.inl rfl⟩ hu'
    split at hbody
    · obtain ⟨v, hv, rfl⟩ := Option.map_eq_some_iff.mp hbody
      obtain ⟨hshrunk, hholds⟩ := hp.1.delRegexpForOneClientFromDictionary hv
      exact ⟨hshrunk.put (List.Subset.refl _), Or.inr hholds⟩
    · exact Option.some.inj hbody ▸ hp

theorem Shrunk.delSrcRegs (h : Shrunk o u) (hu' : u.delSrcRegs client = some u') :
    Shrunk o u' := by
  refine eachSafe_preserves (P := Shrunk o) (fun g v v' hv _ hbody => ?_) h hu'
  obtain ⟨⟨w, removed⟩, hw, rfl⟩ := Option.map_eq_some_iff.mp hbody
  exact (hv.delRegexpForOneClient hw).1

theorem Shrunk.delOneClient (h : Shrunk o u) {c : Handle} (hu' : u.delOneClient c = some u') :
    Shrunk o u' ∧ u'.ompDictCache.Holds u'.entries u'.entries := by
  obtain ⟨v, hv, rfl⟩ := Option.map_eq_some_iff.mp hu'
  obtain ⟨w, hw, hsweep⟩ := Option.bind_eq_some_iff.mp hv
  have hnodes : Shrunk o w := by
    refine eachSafe_preserves (P := Shrunk o) (fun itr x x' hx _ hbody => ?_) h hw
    rw [Omp.delClientNode] at hbody
    split at hbody
    · obtain ⟨y, hy, rfl⟩ := Option.map_eq_some_iff.mp hbody
      exact (hx.delSrcRegs hy).put (List.Subset.refl _)
    · exact Option.some.inj hbody ▸ hx
  have hend : Shrunk o v := by
    refine eachSafe_preserves (P := Shrunk o) (fun e x x' hx _ hbody => ?_) hnodes hsweep
    obtain ⟨t, ht, rfl⟩ := Option.map_eq_some_iff.mp hbody
    obtain ⟨l, -, rfl⟩ := Option.map_eq_some_iff.mp ht
    exact hx.put (keys_putEntry l)
  exact ⟨hend.regenerate, holds_regenerate _⟩

end Base

section Add

variable {engine : Engine Code} {o o' : Omp Code} {r : Str} {client : IvyClient} {part : List Nat}
  {s' : Ivy Code}

theorem findEntry_isNone : (o.ivy.findEntry r).isNone = true ↔ r ∉ keys o.ivy := by
  rw [← findEntry_isSome, Option.isNone_iff_eq_none, ← Option.not_isSome_iff_eq_none]

def Omp.withEntry (o : Omp Code) (regexp : Str) (s : Ivy Code) : Omp Code :=
  { o with
    ivy := s
    address := Function.update o.address regexp o.brk
    brk := o.brk + 1 }

theorem addRegexpToDictionary_old (hr : r ∈ keys o.ivy)
    (ho' : o.addRegexpToDictionary engine r client = some o') :
    ∃ s', Ivy.addRegexpToDictionary engine o.ivy r client = some s' ∧ o' = o.put s' := by
  obtain ⟨s', hs', rfl⟩ := Option.map_eq_some_iff.mp ho'
  refine ⟨s', hs', if_neg ?_⟩
  rw [findEntry_isNone]
  exact not_not_intro hr

theorem addRegexpToDictionary_new (hr : r ∉ keys o.ivy)
    (ho' : o.addRegexpToDictionary engine r client = some o') :
    ∃ s', Ivy.addRegexpToDictionary engine o.ivy r client = some s' ∧
      o' = if o.endRegexpReceived client.client then
          (o.withEntry r s').addRegToPtrArrayCache o.brk
        else o.withEntry r s' := by
  obtain ⟨s', hs', rfl⟩ := Option.map_eq_some_iff.mp ho'
  exact ⟨s', hs', if_pos (findEntry_isNone.mpr hr)⟩

theorem keys_old (hr : r ∈ keys o.ivy)
    (hs' : Ivy.addRegexpToDictionary engine o.ivy r client = some s') : keys s' = keys o.ivy := by
  rw [keys_addRegexpToDictionary hs', if_pos hr]

theorem entries_old (hr : r ∈ keys o.ivy)
    (hs' : Ivy.addRegexpToDictionary engine o.ivy r client = some s') :
    (o.put s').entries = o.entries := by
  rw [entries_eq, entries_eq]
  exact congrArg _ (keys_old hr hs')

theorem address_withEntry {r' : Str} (hr : r ∉ keys o.ivy) (hr' : r' ∈ keys o.ivy) :
    (o.withEntry r s').address r' = o.address r' := by
  have hne : r' ≠ r := fun heq => hr (heq ▸ hr')
  exact Function.update_of_ne hne ..

theorem address_withEntry_self : (o.withEntry r s').address r = o.brk :=
  Function.update_self ..

section New

variable (hr : r ∉ keys o.ivy)
  (hs' : Ivy.addRegexpToDictionary engine o.ivy r client = some s')

include hr hs'

theorem keys_new : keys s' = keys o.ivy ++ [r] := by
  rw [keys_addRegexpToDictionary hs', if_neg hr]

theorem entries_withEntry : (o.withEntry r s').entries = o.entries ++ [o.brk] := by
  have hkeys : keys (o.withEntry r s').ivy = keys o.ivy ++ [r] := keys_new hr hs'
  rw [entries_eq, hkeys, List.map_append, entries_eq]
  congr 1
  · exact List.map_congr_left fun r' hr' => address_withEntry hr hr'
  · rw [List.map_singleton, address_withEntry_self]

theorem Base.withEntry (h : Base o) : Base (o.withEntry r s') := by
  have hkeys : keys (o.withEntry r s').ivy = keys o.ivy ++ [r] := keys_new hr hs'
  have hlt : ∀ r' ∈ keys o.ivy, (o.withEntry r s').address r' < o.brk :=
    fun r' hr' => @address_withEntry Code o r s' r' hr hr' ▸ h.address_lt r' hr'
  have hself := @address_withEntry_self Code o r s'
  refine ⟨?_, ?_, fun a ha => Nat.lt_succ_of_lt (h.slots_lt a ha)⟩
  · rw [hkeys]
    intro r₁ h₁ r₂ h₂ heq
    rcases List.mem_append.mp h₁ with h₁ | h₁ <;> rcases List.mem_append.mp h₂ with h₂ | h₂
    · rw [address_withEntry hr h₁, address_withEntry hr h₂] at heq
      exact h.address_inj r₁ h₁ r₂ h₂ heq
    · rw [List.mem_singleton.mp h₂, hself] at heq
      exact absurd heq (hlt r₁ h₁).ne
    · rw [List.mem_singleton.mp h₁, hself] at heq
      exact absurd heq.symm (hlt r₂ h₂).ne
    · rw [List.mem_singleton.mp h₁, List.mem_singleton.mp h₂]
  · rw [hkeys]
    intro r' hr'
    rcases List.mem_append.mp hr' with hr' | hr'
    · exact Nat.lt_succ_of_lt (hlt r' hr')
    · rw [List.mem_singleton.mp hr', hself]
      exact Nat.lt_succ_self _

end New

theorem Base.brk_notMem (h : Base o) : some o.brk ∉ o.ompDictCache.slots :=
  fun hmem => Nat.lt_irrefl _ (h.slots_lt _ hmem)

theorem addReg_eq (o : Omp Code) (a : Nat) :
    ∃ k, o.addRegToPtrArrayCache a = { o with ompDictCache := k } := by
  rw [Omp.addRegToPtrArrayCache]
  split
  · exact ⟨_, rfl⟩
  · exact ⟨_, rfl⟩

theorem ended_addRegexpToDictionary
    (ho' : o.addRegexpToDictionary engine r client = some o') : o'.ended = o.ended := by
  obtain ⟨s', -, rfl⟩ := Option.map_eq_some_iff.mp ho'
  split
  · dsimp only
    split
    · obtain ⟨k, hk⟩ := addReg_eq (o.withEntry r s') o.brk
      have hended := congrArg Omp.ended hk
      exact hended
    · rfl
  · rfl

theorem Base.addReg (h : Base o) {a : Nat} (ha : a < o.brk) :
    Base (o.addRegToPtrArrayCache a) := by
  rw [Omp.addRegToPtrArrayCache]
  split
  · refine ⟨h.address_inj, h.address_lt, fun b hb => ?_⟩
    rcases mem_overwrite hb with hb | hb
    · exact h.entries_lt hb
    · exact h.slots_lt b (mem_grow hb)
  · refine ⟨h.address_inj, h.address_lt, fun b hb => ?_⟩
    rcases List.mem_or_eq_of_mem_set hb with hb | hb
    · exact h.slots_lt b hb
    · exact Option.some.inj hb ▸ ha

theorem holds_addReg (hr : r ∉ keys o.ivy)
    (hs' : Ivy.addRegexpToDictionary engine o.ivy r client = some s')
    (hpart : o.ompDictCache.Holds o.entries part)
    (hjoins : Complete o ∨ o.ompDictCache.slots.length ≤ o.entries.length + 1) :
    let o' := (o.withEntry r s').addRegToPtrArrayCache o.brk
    o'.ompDictCache.Holds o'.entries o'.entries := by
  have hentries := entries_withEntry hr hs'
  dsimp only
  rw [Omp.addRegToPtrArrayCache]
  split
  · exact Cache.holds_overwrite ..
  · rename_i hroom
    change (o.ompDictCache.writeLast (o.withEntry r s').entries.length o.brk).Holds
      (o.withEntry r s').entries (o.withEntry r s').entries
    change ¬ (o.withEntry r s').entries.length ≥ o.ompDictCache.slots.length at hroom
    rw [hentries, List.length_append, List.length_singleton] at hroom ⊢
    have hcomplete : Complete o := hjoins.resolve_right fun hle => hroom hle
    have hsame : part = o.entries := by
      refine hpart.part_prefix.eq_of_length ?_
      rw [← hpart.count_eq]
      exact hcomplete
    rw [hsame] at hpart
    exact hpart.writeLast (by omega) o.brk

theorem not_sound_addReg (hr : r ∉ keys o.ivy)
    (hs' : Ivy.addRegexpToDictionary engine o.ivy r client = some s')
    (hpart : o.ompDictCache.Holds o.entries part)
    (hjoins : ¬ (Complete o ∨ o.ompDictCache.slots.length ≤ o.entries.length + 1)) :
    let o' := (o.withEntry r s').addRegToPtrArrayCache o.brk
    ¬ o'.ompDictCache.Sound o'.entries := by
  have hentries := entries_withEntry hr hs'
  rw [not_or, not_le] at hjoins
  dsimp only
  rw [Omp.addRegToPtrArrayCache]
  split
  · rename_i hroom
    change (o.withEntry r s').entries.length ≥ o.ompDictCache.slots.length at hroom
    rw [hentries, List.length_append, List.length_singleton] at hroom
    omega
  · change ¬ (o.ompDictCache.writeLast (o.withEntry r s').entries.length o.brk).Sound
      (o.withEntry r s').entries
    rw [hentries, List.length_append, List.length_singleton]
    have hle := hpart.part_prefix.length_le
    have hne : part.length ≠ o.entries.length := hpart.count_eq ▸ hjoins.1
    exact hpart.writeLast_unsound (by omega) (by omega)

end Add

/-- The entries of the clients that have ended their announcement are cached. -/
def Present (o : Omp Code) : Prop :=
  ∀ r, ∀ p ∈ o.ivy.listed r, o.ended p.1 = true → some (o.address r) ∈ o.ompDictCache.used

/-- The cache holds the first entries of the dictionary. -/
structure Cached (o : Omp Code) : Prop where
  wf : o.ivy.Wf
  base : Base o
  ended_of : ∀ c, o.endRegexpReceived c = true → o.ended c = true
  holds : ∃ part, o.ompDictCache.Holds o.entries part
  present : Present o

def JoinsAt (o : Omp Code) (r : Str) (c : Handle) : Prop :=
  if r ∈ keys o.ivy then some (o.address r) ∈ o.ompDictCache.used
  else o.endRegexpReceived c = true ∧
    (Complete o ∨ o.ompDictCache.slots.length ≤ o.entries.length + 1)

section Cached

variable {engine : Engine Code} {o o' : Omp Code} {r : Str} {client : IvyClient} {s' : Ivy Code}

theorem address_mem_entries (hr : r ∈ keys o.ivy) : o.address r ∈ o.entries := by
  rw [entries_eq]
  exact List.mem_map_of_mem hr

theorem present_of_holds (h : o.ompDictCache.Holds o.entries o.entries) : Present o :=
  fun _ _ hp _ => h.mem_used.mpr (address_mem_entries (mem_keys_of_listed hp))

theorem listed_of_dict {s : Ivy Code} (hdict : s'.messSndByRegexp = s.messSndByRegexp) :
    s'.listed = s.listed := by
  funext r
  rw [Ivy.listed, hdict]
  rfl

theorem Cached.put (h : Cached o) (hwf : s'.Wf)
    (hdict : s'.messSndByRegexp = o.ivy.messSndByRegexp) : Cached (o.put s') := by
  have hkeys : keys s' = keys o.ivy := congrArg (List.map MsgSndDict.regexpSrc) hdict
  have hentries : (o.put s').entries = o.entries := by
    rw [entries_eq, entries_eq]
    exact congrArg _ hkeys
  refine ⟨hwf, h.base.put fun r hr => hkeys ▸ hr, h.ended_of, hentries ▸ h.holds, fun r p hp => ?_⟩
  change p ∈ s'.listed r at hp
  rw [listed_of_dict hdict] at hp
  exact h.present r p hp

theorem Cached.add (h : Cached o) (ho' : o.addRegexpToDictionary engine r client = some o')
    (hjoins : o.ended client.client = true → JoinsAt o r client.client) : Cached o' := by
  obtain ⟨part, hpart⟩ := h.holds
  have hlisted : ∀ s', Ivy.addRegexpToDictionary engine o.ivy r client = some s' →
      ∀ r', ∀ p ∈ s'.listed r', r' = r ∧ p = sub client ∨ p ∈ o.ivy.listed r' := by
    intro s' hs' r' p hp
    rw [(h.wf.addRegexpToDictionary hs').listed_eq, Tables.mem_enlist] at hp
    exact hp
  by_cases hr : r ∈ keys o.ivy
  · obtain ⟨s', hs', rfl⟩ := addRegexpToDictionary_old hr ho'
    have hdict := h.wf.addRegexpToDictionary hs'
    refine ⟨hdict.wf h.wf, h.base.put fun r' hr' => keys_old hr hs' ▸ hr', h.ended_of,
      ⟨part, ?_⟩, fun r' p hp hended => ?_⟩
    · rw [entries_old hr hs']
      exact hpart
    · rcases hlisted s' hs' r' p hp with ⟨rfl, rfl⟩ | hold
      · have hold := hjoins hended
        rwa [JoinsAt, if_pos hr] at hold
      · exact h.present r' p hold hended
  · obtain ⟨s', hs', rfl⟩ := addRegexpToDictionary_new hr ho'
    have hdict := h.wf.addRegexpToDictionary hs'
    have hbase : Base (o.withEntry r s') := Base.withEntry hr hs' h.base
    split
    · rename_i hflag
      have hnew := hjoins (h.ended_of _ hflag)
      rw [JoinsAt, if_neg hr] at hnew
      have hholds := holds_addReg hr hs' hpart hnew.2
      have hadded := hbase.addReg (Nat.lt_succ_self o.brk)
      have hpresent := present_of_holds hholds
      obtain ⟨k, hk⟩ := addReg_eq (o.withEntry r s') o.brk
      rw [hk] at hadded hholds hpresent ⊢
      exact ⟨hdict.wf h.wf, hadded, h.ended_of, ⟨_, hholds⟩, hpresent⟩
    · rename_i hflag
      refine ⟨hdict.wf h.wf, hbase, h.ended_of, ⟨part, ?_⟩, fun r' p hp hended => ?_⟩
      · rw [entries_withEntry hr hs']
        exact hpart.skip h.base.brk_notMem
      · rcases hlisted s' hs' r' p hp with ⟨rfl, rfl⟩ | hold
        · have hnew := hjoins hended
          rw [JoinsAt, if_neg hr] at hnew
          exact absurd hnew.1 hflag
        · rw [address_withEntry hr (mem_keys_of_listed hold)]
          exact h.present r' p hold hended

theorem Mirrors.sound_present (h : Mirrors (o.put s'))
    (hdict : s'.messSndByRegexp = o.ivy.messSndByRegexp) :
    o.ompDictCache.Sound o.entries ∧ Present o := by
  have hentries : (o.put s').entries = o.entries := by
    rw [entries_eq, entries_eq]
    exact congrArg _ (congrArg (List.map MsgSndDict.regexpSrc) hdict)
  refine ⟨hentries ▸ h.sound, fun r p hp hended => ?_⟩
  obtain ⟨e, he⟩ := Option.isSome_iff_exists.mp (findEntry_isSome.mpr (mem_keys_of_listed hp))
  rw [Ivy.listed, subscribers_of_find? he] at hp
  obtain ⟨clnt, hclnt, rfl⟩ := List.mem_map.mp hp
  have hmem : e ∈ (o.put s').ivy.messSndByRegexp := hdict ▸ List.mem_of_find?_eq_some he
  rw [← regexpSrc_of_find? he]
  exact h.present e hmem clnt hclnt hended

theorem Cached.not_mirrors_add (h : Cached o)
    (ho' : o.addRegexpToDictionary engine r client = some o')
    (hended : o.ended client.client = true) (hnot : ¬ JoinsAt o r client.client)
    (hdict : s'.messSndByRegexp = o'.ivy.messSndByRegexp) : ¬ Mirrors (o'.put s') := by
  intro hmirrors
  obtain ⟨hsound, hpresent⟩ := hmirrors.sound_present hdict
  have hivy : Ivy.addRegexpToDictionary engine o.ivy r client = some o'.ivy := by
    rw [← ivy_addRegexpToDictionary, ho']
    rfl
  have hlisted : sub client ∈ o'.ivy.listed r := by
    rw [(h.wf.addRegexpToDictionary hivy).listed_eq, Tables.listed_enlist_self]
    exact List.mem_cons_self
  have hused := hpresent r (sub client) hlisted
    ((ended_addRegexpToDictionary ho').symm ▸ hended)
  by_cases hr : r ∈ keys o.ivy
  · rw [JoinsAt, if_pos hr] at hnot
    obtain ⟨u, -, rfl⟩ := addRegexpToDictionary_old hr ho'
    exact hnot hused
  · rw [JoinsAt, if_neg hr, not_and] at hnot
    obtain ⟨u, hu, rfl⟩ := addRegexpToDictionary_new hr ho'
    obtain ⟨part, hpart⟩ := h.holds
    split at hused
    · rename_i hflag
      rw [if_pos hflag] at hsound
      exact not_sound_addReg hr hu hpart (hnot hflag) hsound
    · rw [address_withEntry_self] at hused
      exact h.base.brk_notMem (List.mem_of_mem_take hused)

theorem joinsAt_of_holds {v : Omp Code} {c : Handle} (hwf : v.ivy.Wf)
    (h : v.ompDictCache.Holds v.entries v.entries) :
    JoinsAt v r c ↔ (v.ivy.listed r = [] → v.endRegexpReceived c = true) := by
  rw [JoinsAt]
  split
  · rename_i hr
    exact iff_of_true (h.mem_used.mpr (address_mem_entries hr))
      fun hnil => absurd hnil (listed_ne_nil hwf hr)
  · rename_i hr
    have hnil : v.ivy.listed r = [] :=
      List.eq_nil_iff_forall_not_mem.mpr fun p hp => hr (mem_keys_of_listed hp)
    have hcomplete : Complete v := h.count_eq
    rw [and_iff_left (Or.inl hcomplete)]
    exact ⟨fun hflag _ => hflag, fun hflag => hflag hnil⟩

theorem addRegexp_dict (ho' : o.addRegexp engine r client = some o') :
    ∃ u s', o.addRegexpToDictionary engine r client = some u ∧ o' = u.put s' ∧
      s'.messSndByRegexp = u.ivy.messSndByRegexp := by
  obtain ⟨u, hu, ho'⟩ := Option.bind_eq_some_iff.mp ho'
  split at ho'
  · cases ho'
  · exact ⟨u, _, hu, (Option.some.inj ho').symm, rfl⟩

theorem changeRegexp_dict (ho' : o.changeRegexp engine r client = some o') :
    ∃ v u s', o.delRegexpForOneClientFromDictionary r client = some v ∧
      v.addRegexpToDictionary engine r client = some u ∧ o' = u.put s' ∧
      s'.messSndByRegexp = u.ivy.messSndByRegexp := by
  obtain ⟨u, hu, hglobal⟩ := Option.bind_eq_some_iff.mp ho'
  obtain ⟨v, hv, hu⟩ := Option.bind_eq_some_iff.mp hu
  obtain ⟨s, hs, rfl⟩ := Option.map_eq_some_iff.mp hglobal
  have hdict := dict_changeGlobal hs
  exact ⟨v, u, _, hv, hu, rfl, hdict⟩

structure Ready (o : Omp Code) (client : IvyClient) (hd : Header) (v : Omp Code) : Prop where
  cached : Cached v
  ended_eq : v.ended = o.ended
  joins : JoinsAt v hd.arg client.client ↔ Joins o client.client hd

theorem Cached.ready_add (h : Cached o) {hd : Header}
    (hfirst : ∀ e, o.ivy.findEntry hd.arg = some e →
      (e.clientList.find? (·.client = client.client)).any (·.id = hd.id) = false) :
    Ready o client hd o := by
  refine ⟨h, rfl, ?_⟩
  rw [JoinsAt, Joins]
  cases hfind : o.ivy.findEntry hd.arg with
  | none =>
    rw [if_neg]
    rw [← findEntry_isSome, hfind]
    nofun
  | some e =>
    rw [if_pos (findEntry_isSome.mp (Option.isSome_of_eq_some hfind))]
    dsimp only
    rw [hfirst e hfind]
    exact Iff.rfl

theorem Cached.ready_change (h : Cached o) {hd : Header} (hid : client.id = hd.id)
    {e : MsgSndDict Code} (hfind : o.ivy.findEntry hd.arg = some e)
    (hfirst : (e.clientList.find? (·.client = client.client)).any (·.id = hd.id) = true)
    {v : Omp Code} (hv : o.delRegexpForOneClientFromDictionary hd.arg client = some v) :
    Ready o client hd v := by
  obtain ⟨⟨hbase, -, -⟩, hholds⟩ := h.base.shrunk.delRegexpForOneClientFromDictionary hv
  obtain ⟨s, hs, rfl⟩ := Option.map_eq_some_iff.mp hv
  obtain ⟨t, ht, hupd⟩ := h.wf.delRegexpForOneClientFromDictionary hd.arg client
  obtain rfl := Option.some.inj (ht.symm.trans hs)
  refine ⟨⟨hupd.wf h.wf, hbase, h.ended_of, ⟨_, hholds⟩, present_of_holds hholds⟩, rfl, ?_⟩
  rw [joinsAt_of_holds (hupd.wf h.wf) hholds, Joins, hfind]
  dsimp only
  rw [if_pos hfirst]
  change (t.listed hd.arg = [] → o.endRegexpReceived client.client = true) ↔ _
  refine imp_congr_left ?_
  rw [hupd.listed_eq, Tables.listed_unlist_of_mem (List.mem_singleton_self _),
    List.filter_eq_nil_iff]
  change (∀ p ∈ o.ivy.listed hd.arg, _) ↔ _
  rw [Ivy.listed, subscribers_of_find? hfind, List.forall_mem_map]
  refine forall₂_congr fun clnt _ => ?_
  rw [decide_eq_true_eq, not_not, sub, sub, Prod.mk.injEq, hid]

theorem addOrChangeRegexp_cases (ho' : o.addOrChangeRegexp engine r client = some o') :
    (o.addRegexp engine r client = some o' ∧ ∀ e, o.ivy.findEntry r = some e →
      (e.clientList.find? (·.client = client.client)).any (·.id = client.id) = false) ∨
    (o.changeRegexp engine r client = some o' ∧ ∃ e, o.ivy.findEntry r = some e ∧
      (e.clientList.find? (·.client = client.client)).any (·.id = client.id) = true) := by
  rw [Omp.addOrChangeRegexp] at ho'
  cases hfind : o.ivy.findEntry r with
  | none =>
    rw [hfind] at ho'
    exact Or.inl ⟨ho', nofun⟩
  | some e =>
    rw [hfind] at ho'
    dsimp only at ho'
    cases hitr : e.clientList.find? (·.client = client.client) with
    | none =>
      rw [hitr] at ho'
      refine Or.inl ⟨ho', fun e' he' => ?_⟩
      rw [← Option.some.inj he', hitr]
      rfl
    | some itr =>
      rw [hitr] at ho'
      dsimp only at ho'
      split at ho'
      · rename_i hsame
        refine Or.inr ⟨ho', e, rfl, ?_⟩
        rw [hitr]
        exact decide_eq_true hsame
      · rename_i hother
        refine Or.inl ⟨ho', fun e' he' => ?_⟩
        rw [← Option.some.inj he', hitr]
        exact decide_eq_false hother

theorem Cached.ready (h : Cached o) {hd : Header} (hid : client.id = hd.id)
    (ho' : o.addOrChangeRegexp engine hd.arg client = some o') :
    ∃ v u s', Ready o client hd v ∧ v.addRegexpToDictionary engine hd.arg client = some u ∧
      o' = u.put s' ∧ s'.messSndByRegexp = u.ivy.messSndByRegexp := by
  rcases addOrChangeRegexp_cases ho' with ⟨hadd, hfirst⟩ | ⟨hchange, e, he, hfirst⟩
  · obtain ⟨u, s', hu, hs', hdict⟩ := addRegexp_dict hadd
    exact ⟨o, u, s', h.ready_add (hid ▸ hfirst), hu, hs', hdict⟩
  · obtain ⟨v, u, s', hv, hu, hs', hdict⟩ := changeRegexp_dict hchange
    exact ⟨v, u, s', h.ready_change hid he (hid ▸ hfirst) hv, hu, hs', hdict⟩

end Cached

end IvyBus.OpenMp
