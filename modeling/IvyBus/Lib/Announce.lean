import Mathlib.Data.List.Nodup
import Mathlib.Data.List.Perm.Lattice

namespace IvyBus.Lib

variable {ι ρ : Type*}

inductive Note (ι ρ : Type*)
  | put (i : ι) (r : ρ)
  | drop (i : ι)
  | skip

def Note.puts : Note ι ρ → List ι
  | .put i _ => [i]
  | _ => []

def names (l : List (ι × ρ)) (notes : List (Note ι ρ)) : List ι :=
  l.map Prod.fst ++ notes.flatMap Note.puts

def announce (t : List (ι × ρ)) : List (Note ι ρ) := t.map fun p => .put p.1 p.2

variable {l l' : List (ι × ρ)} {n : Note ι ρ} {notes notes' : List (Note ι ρ)}

theorem names_append : names l (notes ++ notes') = names l notes ++ notes'.flatMap Note.puts := by
  rw [names, names, List.flatMap_append, List.append_assoc]

theorem names_tail_sublist : (names l notes).Sublist (names l (n :: notes)) := by
  rw [names, names, List.flatMap_cons]
  exact (List.sublist_append_right ..).append_left _

theorem puts_skips (h : ∀ n ∈ notes, n = .skip) : notes.flatMap Note.puts = [] := by
  rw [List.flatMap_eq_nil_iff]
  intro n hn
  rw [h n hn]
  rfl

theorem puts_announce (t : List (ι × ρ)) : (announce t).flatMap Note.puts = t.map Prod.fst := by
  rw [announce, List.flatMap_map]
  exact List.map_eq_flatMap.symm

variable [DecidableEq ι]

def Note.apply (l : List (ι × ρ)) : Note ι ρ → List (ι × ρ)
  | .put i r => (i, r) :: l
  | .drop i => l.filter (·.1 ≠ i)
  | .skip => l

def replay (l : List (ι × ρ)) (notes : List (Note ι ρ)) : List (ι × ρ) := notes.foldl Note.apply l

theorem names_put_perm (i : ι) (r : ρ) :
    (names ((Note.put i r).apply l) notes).Perm (names l (.put i r :: notes)) :=
  List.perm_middle.symm

theorem names_drop_sublist (i : ι) :
    (names ((Note.drop i).apply l) notes).Sublist (names l (.drop i :: notes)) :=
  (List.filter_sublist.map _).append_right _

theorem names_apply_nodup (h : (names l (n :: notes)).Nodup) : (names (n.apply l) notes).Nodup := by
  cases n with
  | put i r => exact (names_put_perm i r).nodup_iff.mpr h
  | drop i => exact h.sublist (names_drop_sublist i)
  | skip => exact h

theorem mem_names_apply {i : ι} (h : i ∈ names (n.apply l) notes) : i ∈ names l (n :: notes) := by
  cases n with
  | put j r => exact (names_put_perm j r).mem_iff.mp h
  | drop j => exact (names_drop_sublist j).subset h
  | skip => exact h

theorem perm_apply (h : l.Perm l') (n : Note ι ρ) : (n.apply l).Perm (n.apply l') := by
  cases n with
  | put i r => exact h.cons _
  | drop i => exact h.filter _
  | skip => exact h

theorem perm_replay (h : l.Perm l') (notes : List (Note ι ρ)) :
    (replay l notes).Perm (replay l' notes) := by
  induction notes generalizing l l' with
  | nil => exact h
  | cons n notes ih => exact ih (perm_apply h n)

theorem replay_append : replay l (notes ++ notes') = replay (replay l notes) notes' :=
  List.foldl_append

theorem replay_skips (h : ∀ n ∈ notes, n = .skip) : replay l notes = l := by
  induction notes with
  | nil => rfl
  | cons n notes ih =>
    rw [h n List.mem_cons_self]
    exact ih fun n hn => h n (List.mem_cons_of_mem _ hn)

theorem replay_announce (l t : List (ι × ρ)) : replay l (announce t) = t.reverse ++ l := by
  induction t generalizing l with
  | nil => rfl
  | cons p t ih =>
    rw [List.reverse_cons, List.append_assoc]
    exact ih _

/-- Two lists of pairs that tell the same of every name; the first pair of a name counts. -/
def Alike (l l' : List (ι × ρ)) : Prop := ∀ i, l.lookup i = l'.lookup i

theorem lookup_pair (p : ι × ρ) (l : List (ι × ρ)) (i : ι) :
    (p :: l).lookup i = if i = p.1 then some p.2 else l.lookup i := by
  rw [List.lookup_cons]
  by_cases hi : i = p.1
  · rw [beq_iff_eq.mpr hi, if_pos hi]
  · rw [beq_eq_false_iff_ne.mpr hi, if_neg hi]

theorem lookup_isSome {i : ι} : (l.lookup i).isSome ↔ i ∈ l.map Prod.fst := by
  induction l with
  | nil => simp
  | cons p l ih =>
    rw [lookup_pair, List.map_cons, List.mem_cons, ← ih]
    by_cases hi : i = p.1
    · simp [hi]
    · simp [hi]

theorem lookup_notMem {i : ι} (h : i ∉ l.map Prod.fst) : l.lookup i = none :=
  Option.not_isSome_iff_eq_none.mp (lookup_isSome.not.mpr h)

theorem lookup_mem {p : ι × ρ} (hnodup : (l.map Prod.fst).Nodup) (h : p ∈ l) :
    l.lookup p.1 = some p.2 := by
  induction l with
  | nil => cases h
  | cons q l ih =>
    rw [List.map_cons, List.nodup_cons] at hnodup
    rw [lookup_pair]
    rcases List.mem_cons.mp h with rfl | h
    · exact if_pos rfl
    · rw [if_neg fun heq : p.1 = q.1 => hnodup.1 (heq ▸ List.mem_map_of_mem h), ih hnodup.2 h]

theorem lookup_drop (i j : ι) :
    ((Note.drop i).apply l).lookup j = if j = i then none else l.lookup j := by
  rw [Note.apply]
  induction l with
  | nil => simp
  | cons p l ih =>
    by_cases hp : p.1 = i
    · rw [List.filter_cons_of_neg (by simpa using hp), ih, lookup_pair, hp]
      split <;> rfl
    · rw [List.filter_cons_of_pos (by simpa using hp), lookup_pair, lookup_pair, ih]
      by_cases hj : j = i
      · rw [if_pos hj, if_neg fun heq => hp (heq.symm.trans hj), if_pos hj]
      · rw [if_neg hj, if_neg hj]

theorem lookup_update (i : ι) (r : ρ) (j : ι) :
    (l.map fun p => if p.1 = i then (p.1, r) else p).lookup j =
      if j = i then (l.lookup j).map fun _ => r else l.lookup j := by
  induction l with
  | nil => simp
  | cons p l ih =>
    rw [List.map_cons, lookup_pair, lookup_pair, ih]
    by_cases hj : j = p.1
    · by_cases hp : p.1 = i
      · simp [hp, hj]
      · simp [hp, hj]
    · by_cases hp : p.1 = i
      · simp [hp, hp ▸ hj]
      · simp [hp, hj]

theorem Alike.apply (h : Alike l l') (n : Note ι ρ) : Alike (n.apply l) (n.apply l') := by
  intro j
  cases n with
  | put i r => rw [Note.apply, Note.apply, lookup_pair, lookup_pair, h j]
  | drop i => rw [lookup_drop, lookup_drop, h j]
  | skip => exact h j

theorem Alike.trans {l'' : List (ι × ρ)} (h : Alike l l') (h' : Alike l' l'') : Alike l l'' :=
  fun i => (h i).trans (h' i)

theorem alike_put_last {i : ι} (h : i ∉ l.map Prod.fst) (r : ρ) :
    Alike ((Note.put i r).apply l) (l ++ [(i, r)]) := by
  intro j
  rw [Note.apply, lookup_pair, List.lookup_append, lookup_pair]
  by_cases hj : j = i
  · rw [if_pos hj, if_pos hj, hj, lookup_notMem h]
    rfl
  · rw [if_neg hj, if_neg hj]
    exact (Option.or_none ..).symm

theorem alike_put_update {i : ι} (h : i ∈ l.map Prod.fst) (r : ρ) :
    Alike ((Note.put i r).apply l) (l.map fun p => if p.1 = i then (p.1, r) else p) := by
  intro j
  obtain ⟨r', hr'⟩ := Option.isSome_iff_exists.mp (lookup_isSome.mpr h)
  rw [Note.apply, lookup_pair, lookup_update]
  by_cases hj : j = i
  · rw [if_pos hj, if_pos hj, hj, hr']
    rfl
  · rw [if_neg hj, if_neg hj]

end IvyBus.Lib
