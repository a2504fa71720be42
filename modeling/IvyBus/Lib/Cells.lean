import Mathlib.Data.List.AList
import IvyBus.Lib.Chain

namespace IvyBus.Lib

/-- A cell of a singly linked list, as it is in memory. -/
structure Cell (κ α : Type*) where
  next : Option κ
  data : α

abbrev Memory (κ α : Type*) := AList fun _ : κ => Cell κ α

variable {κ α β : Type*} [DecidableEq κ] {key : β → κ} {data : β → α}

/-- The list of `β` is in memory: `q` is what its last cell points to. -/
def Chained (key : β → κ) (data : β → α) (m : Memory κ α) (q : Option κ) : List β → Prop
  | [] => True
  | b :: l => m.lookup (key b) = some ⟨(l.head?.map key).or q, data b⟩ ∧ Chained key data m q l

structure Holds (key : β → κ) (data : β → α) (head : Option κ) (m : Memory κ α) (l : List β) :
    Prop where
  head_eq : head = l.head?.map key
  chained : Chained key data m none l
  nodup : (l.map key).Nodup
  live : ∀ p ∈ m, p ∈ l.map key

variable {m m' : Memory κ α} {head q : Option κ} {l u v : List β} {a b : β} {p : κ}

theorem unlink_update {f : β → β} (hnodup : (l.map key).Nodup) (hb : b ∈ l)
    (hf : key (f b) = key b) :
    unlink key (key b) (l.map fun c => if key c = key b then f c else c) =
      unlink key (key b) l := by
  obtain ⟨u, v, rfl⟩ := List.append_of_mem hb
  have hnew : key b ∉ u.map key := by
    rw [List.map_append, List.nodup_append] at hnodup
    exact fun hin => hnodup.2.2 _ hin _ List.mem_cons_self rfl
  have hwritten : unlink key (key (f b)) (u ++ f b :: v) = u ++ v := unlink_cell (hf ▸ hnew) v
  rw [update_cell hnodup, unlink_cell hnew, ← hwritten, hf]

theorem Chained.congr (h : Chained key data m q l)
    (hsame : ∀ b ∈ l, m'.lookup (key b) = m.lookup (key b)) : Chained key data m' q l := by
  induction l with
  | nil => trivial
  | cons b l ih =>
    exact ⟨(hsame b List.mem_cons_self).trans h.1,
      ih h.2 fun c hc => hsame c (List.mem_cons_of_mem _ hc)⟩

theorem chained_append : Chained key data m q (u ++ v) ↔
    Chained key data m ((v.head?.map key).or q) u ∧ Chained key data m q v := by
  induction u with
  | nil => exact (iff_of_eq (true_and _)).symm
  | cons b u ih =>
    have hhead : ((u ++ v).head?.map key).or q =
        (u.head?.map key).or ((v.head?.map key).or q) := by
      rw [List.head?_append, ← Option.or_assoc, Option.map_or]
    rw [List.cons_append, Chained, Chained, ih, hhead, and_assoc]

theorem Chained.setLast (h : Chained key data m q (u ++ [b])) (hnodup : ((u ++ [b]).map key).Nodup)
    (q' : Option κ) : Chained key data (m.insert (key b) ⟨q', data b⟩) q' (u ++ [b]) := by
  obtain ⟨hu, -⟩ := chained_append.mp h
  refine chained_append.mpr ⟨hu.congr fun c hc => ?_, AList.lookup_insert _, trivial⟩
  rw [List.map_append, List.nodup_append] at hnodup
  exact AList.lookup_insert_ne (hnodup.2.2 _ (List.mem_map_of_mem hc) _ List.mem_cons_self)

namespace Holds

theorem empty (key : β → κ) (data : β → α) : Holds key data none ∅ [] :=
  ⟨rfl, trivial, List.nodup_nil, fun _ hp => absurd hp (AList.notMem_empty _)⟩

theorem lookup (h : Holds key data head m (u ++ b :: v)) :
    m.lookup (key b) = some ⟨v.head?.map key, data b⟩ := by
  rw [(chained_append.mp h.chained).2.1, Option.or_none]

theorem lookup_of_mem (h : Holds key data head m l) (hb : b ∈ l) :
    ∃ next, m.lookup (key b) = some ⟨next, data b⟩ := by
  obtain ⟨u, v, rfl⟩ := List.append_of_mem hb
  exact ⟨_, h.lookup⟩

theorem lookup_eq_none (h : Holds key data head m l) (hp : p ∉ l.map key) : m.lookup p = none :=
  AList.lookup_eq_none.mpr fun hlive => hp (h.live p hlive)

theorem mem_iff (h : Holds key data head m l) : p ∈ m ↔ p ∈ l.map key := by
  refine ⟨h.live p, fun hp => ?_⟩
  obtain ⟨b, hb, rfl⟩ := List.mem_map.mp hp
  obtain ⟨next, hnext⟩ := h.lookup_of_mem hb
  exact AList.lookup_isSome.mp (hnext ▸ rfl)

theorem size_eq (h : Holds key data head m l) : m.keys.length = l.length := by
  have hperm : m.keys.Perm (l.map key) :=
    (List.perm_ext_iff_of_nodup m.keys_nodup h.nodup).mpr fun p => h.mem_iff
  rw [hperm.length_eq, List.length_map]

theorem push (h : Holds key data head m l) (hb : key b ∉ m) :
    Holds key data (some (key b)) (m.insert (key b) ⟨head, data b⟩) (b :: l) := by
  have hnew : key b ∉ l.map key := fun hin => hb (h.mem_iff.mpr hin)
  refine ⟨rfl, ⟨?_, h.chained.congr fun c hc => ?_⟩, ?_, fun p hp => ?_⟩
  · rw [AList.lookup_insert, h.head_eq, Option.or_none]
  · exact AList.lookup_insert_ne fun heq => hnew (heq ▸ List.mem_map_of_mem hc)
  · exact List.nodup_cons.mpr ⟨hnew, h.nodup⟩
  · rcases (AList.mem_insert _).mp hp with rfl | hp
    · exact List.mem_cons_self
    · exact List.mem_cons_of_mem _ (h.live p hp)

theorem pop (h : Holds key data head m (b :: l)) :
    Holds key data (l.head?.map key) (m.erase (key b)) l := by
  obtain ⟨hnew, hnodup⟩ := List.nodup_cons.mp h.nodup
  refine ⟨rfl, h.chained.2.congr fun c hc => ?_, hnodup, fun p hp => ?_⟩
  · exact AList.lookup_erase_ne fun heq => hnew (heq ▸ List.mem_map_of_mem hc)
  · obtain ⟨hne, hp⟩ := AList.mem_erase.mp hp
    exact (List.mem_cons.mp (h.live p hp)).resolve_left hne

theorem bypass (h : Holds key data head m (u ++ a :: b :: v)) :
    Holds key data head ((m.insert (key a) ⟨v.head?.map key, data a⟩).erase (key b))
      (u ++ a :: v) := by
  have hsplit : u ++ a :: b :: v = (u ++ [a]) ++ b :: v := List.append_cons u a (b :: v)
  have hnodup := h.nodup
  rw [hsplit, List.map_append, List.nodup_append, List.map_cons, List.nodup_cons] at hnodup
  obtain ⟨hfront, ⟨hb, hv⟩, hdisj⟩ := hnodup
  have hchained := chained_append.mp (hsplit ▸ h.chained)
  have hset := hchained.1.setLast hfront (v.head?.map key)
  refine ⟨?_, ?_, ?_, fun p hp => ?_⟩
  · rw [h.head_eq]
    cases u <;> rfl
  · rw [List.append_cons]
    refine chained_append.mpr ⟨?_, hchained.2.2.congr fun c hc => ?_⟩
    · rw [Option.or_none]
      refine hset.congr fun c hc => AList.lookup_erase_ne fun heq => ?_
      exact hdisj _ (List.mem_map_of_mem hc) _ List.mem_cons_self heq
    · have hin : key c ∈ v.map key := List.mem_map_of_mem hc
      have hne : key c ≠ key b := fun heq => hb (heq ▸ hin)
      rw [AList.lookup_erase_ne hne, AList.lookup_insert_ne]
      exact fun heq => hdisj _ (List.mem_map_of_mem (List.mem_append_right u List.mem_cons_self)) _
        (List.mem_cons_of_mem _ hin) heq.symm
  · rw [List.append_cons, List.map_append, List.nodup_append]
    exact ⟨hfront, hv, fun x hx y hy => hdisj x hx y (List.mem_cons_of_mem _ hy)⟩
  · obtain ⟨hne, hp⟩ := AList.mem_erase.mp hp
    have hin : p ∈ (u ++ a :: b :: v).map key := by
      rcases (AList.mem_insert _).mp hp with rfl | hp
      · exact List.mem_map_of_mem (List.mem_append_right u List.mem_cons_self)
      · exact h.live p hp
    simp only [List.map_append, List.map_cons, List.mem_append, List.mem_cons] at hin ⊢
    exact hin.imp_right fun hin => hin.imp_right fun hin => hin.resolve_left hne

theorem store (h : Holds key data head m l) (hb : b ∈ l) {f : β → β}
    (hkey : key (f b) = key b) {next : Option κ} (hnext : m.lookup (key b) = some ⟨next, data b⟩) :
    Holds key data head (m.insert (key b) ⟨next, data (f b)⟩)
      (l.map fun c => if key c = key b then f c else c) := by
  obtain ⟨u, v, rfl⟩ := List.append_of_mem hb
  have hlookup := h.lookup
  obtain rfl : next = v.head?.map key :=
    congrArg Cell.next (Option.some.inj (hnext.symm.trans hlookup))
  rw [update_cell h.nodup]
  have hkeys : (u ++ f b :: v).map key = (u ++ b :: v).map key := by
    rw [List.map_append, List.map_append, List.map_cons, List.map_cons, hkey]
  have hnodup := h.nodup
  rw [List.map_append, List.nodup_append, List.map_cons, List.nodup_cons] at hnodup
  obtain ⟨hu, hv⟩ := chained_append.mp h.chained
  refine ⟨?_, chained_append.mpr ⟨?_, ?_, ?_⟩, hkeys ▸ h.nodup, fun p hp => ?_⟩
  · rw [h.head_eq, ← List.head?_map, ← List.head?_map, hkeys]
  · have hhead : ((f b :: v).head?.map key) = ((b :: v).head?.map key) := congrArg some hkey
    rw [hhead]
    refine hu.congr fun c hc => AList.lookup_insert_ne fun heq => ?_
    exact hnodup.2.2 _ (List.mem_map_of_mem hc) _ List.mem_cons_self heq
  · rw [hkey, AList.lookup_insert, Option.or_none]
  · refine hv.2.congr fun c hc => AList.lookup_insert_ne fun heq => ?_
    exact hnodup.2.1.1 (heq ▸ List.mem_map_of_mem hc)
  · rw [hkeys]
    rcases (AList.mem_insert _).mp hp with rfl | hp
    · exact List.mem_map_of_mem hb
    · exact h.live p hp

end Holds

end IvyBus.Lib
