import IvyBus.ReceiveLaws
import IvyBus.SendLaws

namespace IvyBus.Ivy

open Lib

variable {Code : Type} {engine : Engine Code}

def Bound (engine : Engine Code) (s : Ivy Code) : Prop :=
  ∀ e ∈ s.messSndByRegexp, e.binding = (engine.compile e.regexpSrc).toOption

structure Kept (engine : Engine Code) (s s' : Ivy Code) : Prop where
  brk_le : s.brk ≤ s'.brk
  bound : Bound engine s → Bound engine s'
  quiet : ∃ os, s'.outputs = s.outputs ++ os ∧ ∀ c, bytesTo c os = []

section Kept

variable {s u s' : Ivy Code} {r : Str} {client : IvyClient}

theorem Kept.refl (s : Ivy Code) : Kept engine s s :=
  ⟨le_rfl, id, [], (List.append_nil _).symm, fun _ => rfl⟩

theorem Kept.trans (h : Kept engine s u) (h' : Kept engine u s') : Kept engine s s' := by
  obtain ⟨os, hos, hquiet⟩ := h.quiet
  obtain ⟨os', hos', hquiet'⟩ := h'.quiet
  refine ⟨h.brk_le.trans h'.brk_le, h'.bound ∘ h.bound, os ++ os', ?_, fun c => ?_⟩
  · rw [hos', hos, List.append_assoc]
  · rw [bytesTo_append, hquiet, hquiet', List.append_nil]

theorem Kept.of_eq (hbrk : s.brk ≤ s'.brk) (hdict : s'.messSndByRegexp = s.messSndByRegexp)
    (hout : s'.outputs = s.outputs) : Kept engine s s' := by
  refine ⟨hbrk, fun h => ?_, [], hout.trans (List.append_nil _).symm, fun _ => rfl⟩
  rw [Bound, hdict]
  exact h

theorem kept_bindCallback (s : Ivy Code) (c : Handle) (id : Int32) (r : Str)
    (event : IvyBindEvent) : Kept engine s (s.bindCallback c id r event) :=
  ⟨le_rfl, fun h => h, _, rfl, fun _ => rfl⟩

theorem kept_modifyClient (s : Ivy Code) (c : Handle) (f : IvyClient → IvyClient) :
    Kept engine s (s.modifyClient c f) :=
  Kept.of_eq le_rfl rfl rfl

theorem kept_putEntry (s : Ivy Code) (r : Str) (l : List IvyClient) :
    Kept engine s (s.putEntry r l) := by
  refine ⟨le_rfl, fun h e he => ?_, [], (List.append_nil _).symm, fun _ => rfl⟩
  simp only [putEntry] at he
  split at he
  · exact h e (List.mem_filter.mp he).1
  · obtain ⟨e, hmem, rfl⟩ := List.mem_map.mp he
    split
    · exact h e hmem
    · exact h e hmem

theorem kept_delRegexpForOneClientFromDictionary
    (h : s.delRegexpForOneClientFromDictionary r client = some s') : Kept engine s s' := by
  rw [delRegexpForOneClientFromDictionary] at h
  split at h
  · exact Option.some.inj h ▸ Kept.refl s
  · obtain ⟨l, -, rfl⟩ := Option.map_eq_some_iff.mp h
    exact kept_putEntry ..

theorem kept_delOneClientFromDictionaryEntry {e : MsgSndDict Code} {c : Handle}
    (h : s.delOneClientFromDictionaryEntry e c = some s') : Kept engine s s' := by
  obtain ⟨l, -, rfl⟩ := Option.map_eq_some_iff.mp h
  exact kept_putEntry ..

theorem kept_delRegexpForOneClient {id : Int32} {removed : Bool}
    (h : s.delRegexpForOneClient client id = some (s', removed)) : Kept engine s s' := by
  rw [delRegexpForOneClient] at h
  split at h
  · cases h
    exact Kept.refl s
  · refine eachSafe_preserves (P := fun p : Ivy Code × Bool => Kept engine s p.1)
      (fun g p p' hp _ hbody => ?_) (Kept.refl s) h
    split at hbody
    · obtain ⟨t, ht, rfl⟩ := Option.map_eq_some_iff.mp hbody
      exact (hp.trans (kept_delRegexpForOneClientFromDictionary ht)).trans
        (kept_modifyClient ..)
    · exact Option.some.inj hbody ▸ hp

theorem kept_delOneClient {c : Handle} (h : s.delOneClient c = some s') : Kept engine s s' := by
  obtain ⟨t, ht, hsweep⟩ := Option.bind_eq_some_iff.mp h
  have hnodes : Kept engine s t := by
    refine eachSafe_preserves (P := Kept engine s) (fun clnt u u' hu _ hbody => ?_) (Kept.refl s) ht
    rw [delClientNode] at hbody
    split at hbody
    · obtain ⟨v, hv, rfl⟩ := Option.map_eq_some_iff.mp hbody
      have hregs : Kept engine u v := by
        refine eachSafe_preserves (P := Kept engine u) (fun g w w' hw _ hdel => ?_) (Kept.refl u) hv
        obtain ⟨p, hp, rfl⟩ := Option.map_eq_some_iff.mp hdel
        exact hw.trans (kept_delRegexpForOneClient hp)
      exact (hu.trans hregs).trans (Kept.of_eq le_rfl rfl rfl)
    · exact Option.some.inj hbody ▸ hu
  exact eachSafe_preserves (P := Kept engine s)
    (fun _ _ _ hu _ hdel => hu.trans (kept_delOneClientFromDictionaryEntry hdel)) hnodes hsweep

theorem kept_addEntry {code : Code} (hcode : engine.compile r = .ok code)
    (h : addEntry engine s r client = some s') : Kept engine s s' := by
  simp only [addEntry, ivyBindingCompile, hcode, Option.some.injEq] at h
  subst h
  refine ⟨le_rfl, fun h e he => ?_, [], (List.append_nil _).symm, fun _ => rfl⟩
  rcases List.mem_append.mp he with he | he
  · exact h e he
  · rw [List.mem_singleton.mp he, hcode]
    rfl

theorem kept_subscribe (s : Ivy Code) (r : Str) (client : IvyClient) :
    Kept engine s (s.subscribe r client) := by
  refine ⟨Nat.le_succ _, fun h e he => ?_, [], (List.append_nil _).symm, fun _ => rfl⟩
  obtain ⟨e, hmem, rfl⟩ := List.mem_map.mp he
  split
  · exact h e hmem
  · exact h e hmem

theorem kept_addRegexpToDictionary {code : Code} (hcode : engine.compile r = .ok code)
    (h : addRegexpToDictionary engine s r client = some s') : Kept engine s s' := by
  rw [addRegexpToDictionary] at h
  split at h
  · obtain ⟨t, ht, rfl⟩ := Option.map_eq_some_iff.mp h
    exact (kept_addEntry hcode ht).trans (kept_subscribe t r client)
  · exact Option.some.inj h ▸ kept_subscribe s r client

theorem kept_addRegexp {code : Code} (hcode : engine.compile r = .ok code)
    (h : addRegexp engine s r client = some s') : Kept engine s s' := by
  obtain ⟨t, ht, h⟩ := Option.bind_eq_some_iff.mp h
  have hdict : Kept engine s t := kept_addRegexpToDictionary hcode ht
  split at h
  · cases h
  · rw [← Option.some.inj h]
    refine hdict.trans (Kept.trans ?_ (kept_bindCallback ..))
    exact Kept.of_eq (Nat.le_succ _) rfl rfl

theorem kept_changeRegexp {code : Code} (hcode : engine.compile r = .ok code)
    (h : changeRegexp engine s r client = some s') : Kept engine s s' := by
  obtain ⟨v, hv, rfl⟩ := Option.map_eq_some_iff.mp h
  obtain ⟨u, hu, hglobal⟩ := Option.bind_eq_some_iff.mp hv
  obtain ⟨t, ht, hadd⟩ := Option.bind_eq_some_iff.mp hu
  have hdict := (kept_delRegexpForOneClientFromDictionary ht).trans
    (kept_addRegexpToDictionary hcode hadd)
  refine (hdict.trans ?_).trans (kept_bindCallback ..)
  rw [changeGlobal] at hglobal
  split at hglobal
  · exact Option.some.inj hglobal ▸ Kept.refl _
  · obtain ⟨l, -, rfl⟩ := Option.map_eq_some_iff.mp hglobal
    exact kept_modifyClient ..

theorem kept_addOrChangeRegexp {code : Code} (hcode : engine.compile r = .ok code)
    (h : addOrChangeRegexp engine s r client = some s') : Kept engine s s' := by
  rw [addOrChangeRegexp] at h
  split at h
  · exact kept_addRegexp hcode h
  · split at h
    · split at h
      · exact kept_changeRegexp hcode h
      · exact kept_addRegexp hcode h
    · exact kept_addRegexp hcode h

end Kept

end IvyBus.Ivy
