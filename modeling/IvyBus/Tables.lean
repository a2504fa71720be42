import Mathlib.Data.List.Nodup
import Mathlib.Logic.Function.Basic
import IvyBus.Ivy

namespace IvyBus

abbrev Sub := Handle × Int32

/-- What the two tables record: the subscriptions listed under a regexp of the dictionary, and
the bindings registered for a client. -/
structure Tables where
  listed : Str → List Sub
  registered : Handle → List (Int32 × Str)

namespace Tables

def empty : Tables := ⟨fun _ => [], fun _ => []⟩

def unlist (t : Tables) (rs : List Str) (p : Sub) : Tables :=
  { t with listed := fun r => if r ∈ rs then (t.listed r).filter (· ≠ p) else t.listed r }

def enlist (t : Tables) (r : Str) (p : Sub) : Tables :=
  { t with listed := Function.update t.listed r (p :: t.listed r) }

def register (t : Tables) (c : Handle) (l : List (Int32 × Str)) : Tables :=
  { t with registered := Function.update t.registered c l }

def regexpsOf (t : Tables) (c : Handle) (i : Int32) : List Str :=
  ((t.registered c).filter (·.1 = i)).map Prod.snd

def add (t : Tables) (c : Handle) (i : Int32) (r : Str) : Tables :=
  (t.enlist r (c, i)).register c ((i, r) :: t.registered c)

def change (t : Tables) (c : Handle) (i : Int32) (r : Str) : Tables :=
  ((t.unlist [r] (c, i)).enlist r (c, i)).register c
    ((t.registered c).map fun p => if p.1 = i then (i, r) else p)

def First (t : Tables) (c : Handle) (i : Int32) (r : Str) : Prop :=
  (t.listed r).find? (·.1 = c) = some (c, i)

instance (t : Tables) (c : Handle) (i : Int32) (r : Str) : Decidable (t.First c i r) := by
  unfold First
  infer_instance

def addOrChange (t : Tables) (c : Handle) (i : Int32) (r : Str) : Tables :=
  if t.First c i r then t.change c i r else t.add c i r

def del (t : Tables) (c : Handle) (j i : Int32) : Tables :=
  (t.unlist (t.regexpsOf c i) (c, j)).register c ((t.registered c).filter (·.1 ≠ i))

def disconnect (t : Tables) (c : Handle) : Tables :=
  ⟨fun r => (t.listed r).filter (·.1 ≠ c), Function.update t.registered c []⟩

/-- The two tables record the same subscriptions, each once. -/
structure Agree (t : Tables) : Prop where
  mem_iff : ∀ c i r, (c, i) ∈ t.listed r ↔ (i, r) ∈ t.registered c
  listed_nodup : ∀ r, (t.listed r).Nodup
  registered_nodup : ∀ c, (t.registered c).Nodup

variable {t : Tables} {c : Handle} {i : Int32} {r : Str}

theorem listed_unlist_of_mem {rs : List Str} (h : r ∈ rs) (p : Sub) :
    (t.unlist rs p).listed r = (t.listed r).filter (· ≠ p) :=
  if_pos h

theorem listed_unlist_of_notMem {rs : List Str} (h : r ∉ rs) (p : Sub) :
    (t.unlist rs p).listed r = t.listed r :=
  if_neg h

theorem mem_unlist {rs : List Str} {p q : Sub} :
    p ∈ (t.unlist rs q).listed r ↔ p ∈ t.listed r ∧ (r ∈ rs → p ≠ q) := by
  simp only [unlist]
  split
  · rename_i h
    simp only [List.mem_filter, decide_eq_true_eq, h, true_imp_iff]
  · rename_i h
    simp only [h, false_imp_iff, and_true]

theorem mem_regexpsOf : r ∈ t.regexpsOf c i ↔ (i, r) ∈ t.registered c := by
  simp only [regexpsOf, List.mem_map, List.mem_filter, decide_eq_true_eq]
  constructor
  · rintro ⟨p, ⟨hp, rfl⟩, rfl⟩
    exact hp
  · intro h
    exact ⟨(i, r), ⟨h, rfl⟩, rfl⟩

theorem listed_enlist_self (p : Sub) : (t.enlist r p).listed r = p :: t.listed r :=
  Function.update_self ..

theorem listed_enlist_of_ne {r' : Str} (h : r' ≠ r) (p : Sub) :
    (t.enlist r p).listed r' = t.listed r' :=
  Function.update_of_ne h ..

theorem mem_enlist {r' : Str} {p q : Sub} :
    q ∈ (t.enlist r p).listed r' ↔ r' = r ∧ q = p ∨ q ∈ t.listed r' := by
  by_cases h : r' = r
  · rw [h, listed_enlist_self, List.mem_cons]
    simp only [true_and]
  · rw [listed_enlist_of_ne h]
    simp only [h, false_and, false_or]

theorem registered_register_self (l : List (Int32 × Str)) : (t.register c l).registered c = l :=
  Function.update_self ..

theorem registered_register_of_ne {c' : Handle} (h : c' ≠ c) (l : List (Int32 × Str)) :
    (t.register c l).registered c' = t.registered c' :=
  Function.update_of_ne h ..

theorem registered_disconnect_self : (t.disconnect c).registered c = [] :=
  Function.update_self ..

theorem registered_disconnect_of_ne {c' : Handle} (h : c' ≠ c) :
    (t.disconnect c).registered c' = t.registered c' :=
  Function.update_of_ne h ..

theorem First.mem (h : t.First c i r) : (c, i) ∈ t.listed r := List.mem_of_find?_eq_some h

theorem mem_addOrChange {r' : Str} {p : Sub} :
    p ∈ (t.addOrChange c i r).listed r' ↔ r' = r ∧ p = (c, i) ∨ p ∈ t.listed r' := by
  unfold addOrChange
  split
  · change p ∈ ((t.unlist [r] (c, i)).enlist r (c, i)).listed r' ↔ _
    rw [mem_enlist, mem_unlist, List.mem_singleton]
    constructor
    · rintro (hnew | ⟨hold, -⟩)
      · exact Or.inl hnew
      · exact Or.inr hold
    · rintro (hnew | hold)
      · exact Or.inl hnew
      · by_cases hboth : r' = r ∧ p = (c, i)
        · exact Or.inl hboth
        · exact Or.inr ⟨hold, fun hr hp => hboth ⟨hr, hp⟩⟩
  · exact mem_enlist

theorem mem_del {r' : Str} {p : Sub} : p ∈ (t.del c i i).listed r' ↔
    p ∈ t.listed r' ∧ ((i, r') ∈ t.registered c → p ≠ (c, i)) := by
  change p ∈ (t.unlist (t.regexpsOf c i) (c, i)).listed r' ↔ _
  rw [mem_unlist, mem_regexpsOf]

theorem mem_disconnect {r' : Str} {p : Sub} :
    p ∈ (t.disconnect c).listed r' ↔ p ∈ t.listed r' ∧ p.1 ≠ c := by
  simp only [disconnect, List.mem_filter, decide_eq_true_eq]

theorem Agree.empty : empty.Agree :=
  ⟨fun _ _ _ => ⟨nofun, nofun⟩, fun _ => List.nodup_nil, fun _ => List.nodup_nil⟩

theorem unlist_nodup (h : ∀ r, (t.listed r).Nodup) (rs : List Str) (p : Sub) (r : Str) :
    ((t.unlist rs p).listed r).Nodup := by
  simp only [unlist]
  split
  · exact (h r).filter _
  · exact h r

theorem Agree.del (h : t.Agree) (c : Handle) (i : Int32) : (t.del c i i).Agree := by
  constructor
  · intro c' i' r
    change _ ∈ (t.unlist _ _).listed r ↔ _
    rw [mem_unlist, mem_regexpsOf, h.mem_iff]
    by_cases hc : c' = c
    · rw [hc, Tables.del, registered_register_self, List.mem_filter, decide_eq_true_eq]
      refine and_congr_right fun hmem => ?_
      constructor
      · rintro hne rfl
        exact hne hmem rfl
      · intro hne _ heq
        exact hne (Prod.mk.inj heq).2
    · rw [Tables.del, registered_register_of_ne hc]
      exact and_iff_left fun _ heq => hc (Prod.mk.inj heq).1
  · exact unlist_nodup h.listed_nodup _ _
  · intro c'
    by_cases hc : c' = c
    · rw [hc, Tables.del, registered_register_self]
      exact (h.registered_nodup c).filter _
    · rw [Tables.del, registered_register_of_ne hc]
      exact h.registered_nodup c'

theorem Agree.disconnect (h : t.Agree) (c : Handle) : (t.disconnect c).Agree := by
  constructor
  · intro c' i r
    simp only [Tables.disconnect, List.mem_filter, decide_eq_true_eq, h.mem_iff]
    by_cases hc : c' = c
    · rw [hc, Function.update_self]
      simp
    · rw [Function.update_of_ne hc]
      exact and_iff_left hc
  · exact fun r => (h.listed_nodup r).filter _
  · intro c'
    by_cases hc : c' = c
    · rw [hc, registered_disconnect_self]
      exact List.nodup_nil
    · rw [registered_disconnect_of_ne hc]
      exact h.registered_nodup c'

theorem Agree.change_iff (h : t.Agree) (hf : t.First c i r) :
    (t.change c i r).Agree ↔ ∀ r', (i, r') ∈ t.registered c → r' = r := by
  constructor
  · intro h' r' hr'
    by_contra hne
    have hlisted : (c, i) ∈ (t.change c i r).listed r' := by
      rw [change, register, mem_enlist, mem_unlist, h.mem_iff]
      exact Or.inr ⟨hr', fun hmem => absurd (List.mem_singleton.mp hmem) hne⟩
    rw [h'.mem_iff, change, registered_register_self, List.mem_map] at hlisted
    obtain ⟨p, -, hp⟩ := hlisted
    split at hp
    · exact hne (Prod.mk.inj hp).2.symm
    · rename_i hpi
      exact hpi (congrArg Prod.fst hp)
  · intro hreg
    have hmap : ((t.registered c).map fun p => if p.1 = i then (i, r) else p) =
        t.registered c := by
      refine (List.map_congr_left fun p hp => ?_).trans (List.map_id _)
      split
      · rename_i hpi
        exact Prod.ext hpi.symm (hreg p.2 (hpi ▸ hp)).symm
      · rfl
    have hsame : (t.change c i r).registered = t.registered := by
      rw [change, hmap]
      exact Function.update_eq_self ..
    constructor
    · intro c' i' r'
      rw [hsame, ← h.mem_iff, change, register, mem_enlist, mem_unlist, List.mem_singleton]
      constructor
      · rintro (⟨rfl, heq⟩ | ⟨hmem, -⟩)
        · exact heq ▸ hf.mem
        · exact hmem
      · intro hmem
        by_cases hr' : r' = r ∧ (c', i') = (c, i)
        · exact Or.inl hr'
        · exact Or.inr ⟨hmem, fun hr heq => hr' ⟨hr, heq⟩⟩
    · intro r'
      by_cases hr : r' = r
      · rw [hr, change, register, listed_enlist_self, List.nodup_cons]
        exact ⟨fun hmem => (mem_unlist.mp hmem).2 List.mem_cons_self rfl,
          unlist_nodup h.listed_nodup _ _ _⟩
      · rw [change, register, listed_enlist_of_ne hr]
        exact unlist_nodup h.listed_nodup _ _ _
    · rw [hsame]
      exact h.registered_nodup

theorem Agree.add_iff (h : t.Agree) : (t.add c i r).Agree ↔ (c, i) ∉ t.listed r := by
  constructor
  · intro h'
    have hnodup := h'.listed_nodup r
    rw [add, register, listed_enlist_self] at hnodup
    exact (List.nodup_cons.mp hnodup).1
  · intro hnew
    constructor
    · intro c' i' r'
      rw [add, register, mem_enlist, h.mem_iff]
      by_cases hc : c' = c
      · simp only [hc, Function.update_self, List.mem_cons, Prod.mk.injEq, true_and]
        rw [and_comm]
      · simp only [Function.update_of_ne hc, Prod.mk.injEq, hc, false_and, and_false, false_or]
        exact Iff.rfl
    · intro r'
      by_cases hr : r' = r
      · rw [hr, add, register, listed_enlist_self, List.nodup_cons]
        exact ⟨hnew, h.listed_nodup r⟩
      · rw [add, register, listed_enlist_of_ne hr]
        exact h.listed_nodup r'
    · intro c'
      by_cases hc : c' = c
      · rw [hc, add, registered_register_self, List.nodup_cons, ← h.mem_iff]
        exact ⟨hnew, h.registered_nodup c⟩
      · rw [add, registered_register_of_ne hc]
        exact h.registered_nodup c'

/-- When an `AddRegexp` keeps the tables in agreement: it announces a new pair of id and regexp,
or, where the dictionary finds the id first, the only regexp of the id. -/
def Keeps (t : Tables) (c : Handle) (i : Int32) (r : Str) : Prop :=
  if t.First c i r then ∀ r', (i, r') ∈ t.registered c → r' = r else (c, i) ∉ t.listed r

theorem Agree.addOrChange_iff (h : t.Agree) :
    (t.addOrChange c i r).Agree ↔ t.Keeps c i r := by
  simp only [addOrChange, Keeps]
  split
  · rename_i hf
    exact h.change_iff hf
  · exact h.add_iff

theorem mem_registered_register {c' : Handle} {l : List (Int32 × Str)} {p : Int32 × Str}
    (h : p ∈ (t.register c l).registered c') : c' = c ∧ p ∈ l ∨ p ∈ t.registered c' := by
  by_cases hc : c' = c
  · rw [hc, registered_register_self] at h
    exact Or.inl ⟨hc, h⟩
  · rw [registered_register_of_ne hc] at h
    exact Or.inr h

theorem mem_registered_addOrChange {c' : Handle} {p : Int32 × Str}
    (h : p ∈ (t.addOrChange c i r).registered c') : p.2 = r ∨ p ∈ t.registered c' := by
  simp only [addOrChange] at h
  split at h
  · rcases mem_registered_register h with ⟨rfl, h⟩ | h
    · obtain ⟨q, hq, rfl⟩ := List.mem_map.mp h
      split
      · exact Or.inl rfl
      · exact Or.inr hq
    · exact Or.inr h
  · rcases mem_registered_register h with ⟨rfl, h⟩ | h
    · rcases List.mem_cons.mp h with rfl | h
      · exact Or.inl rfl
      · exact Or.inr h
    · exact Or.inr h

theorem mem_registered_del {c' : Handle} {j : Int32} {p : Int32 × Str}
    (h : p ∈ (t.del c j i).registered c') : p ∈ t.registered c' := by
  rcases mem_registered_register h with ⟨rfl, h⟩ | h
  · exact (List.mem_filter.mp h).1
  · exact h

/-- In `t'` the id `i` of `c` has the regexp `r` and no other, and all else is as in `t`. -/
structure Replaced (t t' : Tables) (c : Handle) (i : Int32) (r : Str) : Prop where
  listed_iff : ∀ r', (c, i) ∈ t'.listed r' ↔ r' = r
  listed_once : (t'.listed r).count (c, i) = 1
  registered_eq : (t'.registered c).filter (·.1 = i) = [(i, r)]
  others_listed : ∀ r' p, p ≠ (c, i) → (t'.listed r').count p = (t.listed r').count p
  others_registered : ∀ c' i', (c', i') ≠ (c, i) →
    (t'.registered c').filter (·.1 = i') = (t.registered c').filter (·.1 = i')

theorem Replaced.mem_registered {t' : Tables} (h : Replaced t t' c i r) :
    (i, r) ∈ t'.registered c := by
  have hmem : (i, r) ∈ (t'.registered c).filter (·.1 = i) := by
    rw [h.registered_eq]
    exact List.mem_singleton_self _
  exact (List.mem_filter.mp hmem).1

/-- The line announces once more the only regexp of its id, and the dictionary finds the id. -/
def Reannounced (t : Tables) (c : Handle) (i : Int32) (r : Str) : Prop :=
  t.First c i r ∧ ((t.registered c).filter (·.1 = i)).length = 1 ∧
    ∀ r' ≠ r, (c, i) ∉ t.listed r'

theorem filter_changed (l : List (Int32 × Str)) (i' : Int32) :
    (l.map fun p => if p.1 = i then (i, r) else p).filter (·.1 = i') =
      (l.filter (·.1 = i')).map fun p => if p.1 = i then (i, r) else p := by
  rw [List.filter_map]
  congr 1
  apply List.filter_congr
  intro p _
  simp only [Function.comp_apply]
  split <;> simp [*]

theorem listed_change_self : (t.change c i r).listed r =
    (c, i) :: (t.listed r).filter (· ≠ (c, i)) := by
  rw [change, register, listed_enlist_self, listed_unlist_of_mem List.mem_cons_self]

theorem listed_change_of_ne {r' : Str} (h : r' ≠ r) :
    (t.change c i r).listed r' = t.listed r' := by
  rw [change, register, listed_enlist_of_ne h,
    listed_unlist_of_notMem fun hmem => h (List.mem_singleton.mp hmem)]

theorem registered_change_self : (t.change c i r).registered c =
    (t.registered c).map fun p => if p.1 = i then (i, r) else p :=
  registered_register_self _

theorem registered_change_of_ne {c' : Handle} (h : c' ≠ c) :
    (t.change c i r).registered c' = t.registered c' :=
  registered_register_of_ne h _

theorem replaced_change (hone : ((t.registered c).filter (·.1 = i)).length = 1)
    (honly : ∀ r' ≠ r, (c, i) ∉ t.listed r') : Replaced t (t.change c i r) c i r := by
  constructor
  · intro r'
    by_cases hr : r' = r
    · rw [hr, listed_change_self]
      simp
    · rw [listed_change_of_ne hr]
      exact ⟨fun h => absurd h (honly r' hr), fun h => absurd h hr⟩
  · rw [listed_change_self, List.count_cons_self, List.count_eq_zero.mpr (by simp)]
  · obtain ⟨p, hp⟩ := List.length_eq_one_iff.mp hone
    have hpi : p ∈ (t.registered c).filter (·.1 = i) := hp ▸ List.mem_singleton_self p
    rw [List.mem_filter, decide_eq_true_eq] at hpi
    rw [registered_change_self, filter_changed, hp, List.map_singleton, if_pos hpi.2]
  · intro r' p hp
    by_cases hr : r' = r
    · rw [hr, listed_change_self, List.count_cons_of_ne hp.symm, List.count_filter (by simpa)]
    · rw [listed_change_of_ne hr]
  · intro c' i' hne
    by_cases hc : c' = c
    · have hi : i' ≠ i := fun hi => hne (by rw [hc, hi])
      rw [hc, registered_change_self, filter_changed]
      refine (List.map_congr_left fun p hp => ?_).trans (List.map_id _)
      rw [List.mem_filter, decide_eq_true_eq] at hp
      exact if_neg fun hpi => hi (hp.2.symm.trans hpi)
    · rw [registered_change_of_ne hc]

theorem replaced_addOrChange_iff (hreg : ∃ r₀, (i, r₀) ∈ t.registered c) :
    Replaced t (t.addOrChange c i r) c i r ↔ t.Reannounced c i r := by
  simp only [addOrChange, Reannounced]
  split
  · rename_i hf
    refine ⟨fun h => ⟨hf, ?_, fun r' hr hmem => hr ?_⟩, fun h => replaced_change h.2.1 h.2.2⟩
    · have hlen := congrArg List.length h.registered_eq
      rwa [registered_change_self, filter_changed, List.length_map] at hlen
    · rwa [← h.listed_iff, listed_change_of_ne hr]
  · rename_i hf
    refine ⟨fun h => ?_, fun h => absurd h.1 hf⟩
    obtain ⟨r₀, hr₀⟩ := hreg
    have hmem : (i, r₀) ∈ (t.registered c).filter (·.1 = i) :=
      List.mem_filter.mpr ⟨hr₀, decide_eq_true rfl⟩
    have hnode := h.registered_eq
    rw [add, registered_register_self, List.filter_cons, if_pos (decide_eq_true rfl)] at hnode
    rw [(List.cons.inj hnode).2] at hmem
    cases hmem

end Tables

end IvyBus
