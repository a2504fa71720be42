import Mathlib.Data.List.Nodup
import Mathlib.Data.List.TakeWhile

namespace IvyBus.Lib

/-- A cache of the entries of a list that grows at its end. The first `count` slots are in use;
a slot that was never written is `none`. -/
structure Cache (α : Type*) where
  slots : List (Option α)
  count : Nat

namespace Cache

variable {α : Type*}

def used (k : Cache α) : List (Option α) := k.slots.take k.count

def grow (slots : List (Option α)) (size : Nat) : List (Option α) :=
  slots ++ List.replicate (size - slots.length) none

def overwrite (slots : List (Option α)) (entries : List α) : Cache α :=
  ⟨entries.map some ++ slots.drop entries.length, entries.length⟩

/-- The last of `count` entries is written to its slot, and to no other. -/
def writeLast (k : Cache α) (count : Nat) (new : α) : Cache α :=
  ⟨k.slots.set (count - 1) (some new), count⟩

structure Holds (k : Cache α) (entries part : List α) : Prop where
  used_eq : k.used = part.map some
  count_eq : k.count = part.length
  part_prefix : part <+: entries
  stale : ∀ a ∈ entries, some a ∈ k.slots → a ∈ part

structure Sound (k : Cache α) (entries : List α) : Prop where
  live : ∀ x ∈ k.used, ∃ a ∈ entries, x = some a
  nodup : k.used.Nodup

variable {k : Cache α} {entries part : List α} {new : α}

theorem holds_empty : Holds (⟨[], 0⟩ : Cache α) [] [] :=
  ⟨rfl, rfl, List.prefix_rfl, nofun⟩

theorem holds_overwrite (slots : List (Option α)) (entries : List α) :
    Holds (overwrite slots entries) entries entries := by
  refine ⟨?_, rfl, List.prefix_rfl, fun _ ha _ => ha⟩
  rw [used, overwrite]
  exact List.take_left' (List.length_map _)

theorem Holds.sound (h : Holds k entries part) (hnodup : entries.Nodup) : Sound k entries := by
  constructor
  · intro x hx
    rw [h.used_eq] at hx
    obtain ⟨a, ha, rfl⟩ := List.mem_map.mp hx
    exact ⟨a, h.part_prefix.subset ha, rfl⟩
  · rw [h.used_eq]
    exact (hnodup.sublist h.part_prefix.sublist).map (fun _ _ => Option.some.inj)

theorem Holds.mem_used (h : Holds k entries part) {a : α} : some a ∈ k.used ↔ a ∈ part := by
  rw [h.used_eq, List.mem_map]
  constructor
  · rintro ⟨b, hb, heq⟩
    exact Option.some.inj heq ▸ hb
  · exact fun ha => ⟨a, ha, rfl⟩

theorem Holds.skip (h : Holds k entries part) (hnew : some new ∉ k.slots) :
    Holds k (entries ++ [new]) part := by
  refine ⟨h.used_eq, h.count_eq, h.part_prefix.trans (List.prefix_append ..), fun a ha hmem => ?_⟩
  rcases List.mem_append.mp ha with ha | ha
  · exact h.stale a ha hmem
  · obtain rfl := List.mem_singleton.mp ha
    exact absurd hmem hnew

theorem used_writeLast (k : Cache α) (n : Nat) (hroom : n < k.slots.length) (new : α) :
    (k.writeLast (n + 1) new).used = k.slots.take n ++ [some new] := by
  rw [used, writeLast, Nat.add_sub_cancel, List.take_add_one, List.take_set_of_le le_rfl,
    List.getElem?_set_self hroom]
  rfl

theorem Holds.writeLast (h : Holds k entries entries) (hroom : entries.length < k.slots.length)
    (new : α) :
    Holds (k.writeLast (entries.length + 1) new) (entries ++ [new]) (entries ++ [new]) := by
  refine ⟨?_, ?_, List.prefix_rfl, fun _ ha _ => ha⟩
  · have hused := h.used_eq
    rw [used, h.count_eq] at hused
    rw [used_writeLast k _ hroom, hused, List.map_append]
    rfl
  · rw [List.length_append]
    rfl

/-- When entries were left out before, a slot of theirs is in use with what it held. -/
theorem Holds.writeLast_unsound (h : Holds k entries part) (hlt : part.length < entries.length)
    (hroom : entries.length < k.slots.length) :
    ¬ Sound (k.writeLast (entries.length + 1) new) (entries ++ [new]) := by
  rintro ⟨hlive, hnodup⟩
  rw [used_writeLast k _ hroom] at hlive hnodup
  have hused := h.used_eq
  rw [used, h.count_eq] at hused
  have hsplit : k.slots.take entries.length =
      part.map some ++ (k.slots.drop part.length).take (entries.length - part.length) := by
    rw [← hused, ← List.take_add, Nat.add_sub_of_le hlt.le]
  have hpos : 0 < ((k.slots.drop part.length).take (entries.length - part.length)).length := by
    rw [List.length_take, List.length_drop]
    omega
  obtain ⟨x, hx⟩ := List.exists_mem_of_length_pos hpos
  have hmem : x ∈ k.slots.take entries.length := hsplit ▸ List.mem_append_right _ hx
  obtain ⟨a, ha, rfl⟩ := hlive x (List.mem_append_left _ hmem)
  rcases List.mem_append.mp ha with ha | ha
  · have hpart := h.stale a ha (List.mem_of_mem_take hmem)
    have hleft := (List.nodup_append.mp hnodup).1
    rw [hsplit, List.nodup_append] at hleft
    exact hleft.2.2 _ (List.mem_map_of_mem hpart) _ hx rfl
  · rw [List.nodup_append] at hnodup
    exact hnodup.2.2 _ hmem _ (List.mem_singleton_self _) (congrArg some (List.mem_singleton.mp ha))

end Cache

end IvyBus.Lib
