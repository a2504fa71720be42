import Mathlib.Data.List.Basic

namespace IvyBus.Lib

variable {α : Type*} [DecidableEq α]

/-- Reading of a delimited stream: the records that end in `s` and the start of the next one,
after `part` has been read. -/
def feed (d : α) (part : List α) : List α → List (List α) × List α
  | [] => ([], part)
  | a :: s =>
    if a = d then (part :: (feed d [] s).1, (feed d [] s).2) else feed d (part ++ [a]) s

variable {d : α}

attribute [local simp] feed

theorem feed_append (part s t : List α) : feed d part (s ++ t) =
    ((feed d part s).1 ++ (feed d (feed d part s).2 t).1, (feed d (feed d part s).2 t).2) := by
  induction s generalizing part with
  | nil => rfl
  | cons a s ih =>
    simp only [List.cons_append, feed]
    split
    · simp only [ih, List.cons_append]
    · exact ih _

theorem feed_of_notMem {s : List α} (part : List α) (h : d ∉ s) :
    feed d part s = ([], part ++ s) := by
  induction s generalizing part with
  | nil => simp only [feed, List.append_nil]
  | cons a s ih =>
    rw [List.mem_cons, not_or] at h
    rw [feed, if_neg (Ne.symm h.1), ih _ h.2, List.append_assoc]
    rfl

theorem feed_delimiter (part s : List α) : feed d part (d :: s) =
    (part :: (feed d [] s).1, (feed d [] s).2) :=
  if_pos rfl

theorem feed_part {part : List α} (h : d ∉ part) (s : List α) :
    feed d part s = feed d [] (part ++ s) := by
  rw [feed_append, feed_of_notMem [] h]
  rfl

theorem notMem_feed {part : List α} (h : d ∉ part) (s : List α) : d ∉ (feed d part s).2 := by
  induction s generalizing part with
  | nil => exact h
  | cons a s ih =>
    rw [feed]
    split
    · exact ih List.not_mem_nil
    · rename_i hne
      apply ih
      simp only [List.mem_append, List.mem_singleton, not_or]
      exact ⟨h, Ne.symm hne⟩

theorem length_feed (part s : List α) : (feed d part s).1.length = s.count d := by
  induction s generalizing part with
  | nil => rfl
  | cons a s ih =>
    rw [feed]
    split
    · rename_i heq
      rw [List.length_cons, ih, heq, List.count_cons_self]
    · rename_i hne
      rw [ih, List.count_cons_of_ne hne]

theorem feed_records {ls : List (List α)} (h : ∀ l ∈ ls, d ∉ l) :
    feed d [] (ls.flatMap fun l => l ++ [d]) = (ls, []) := by
  induction ls with
  | nil => rfl
  | cons l ls ih =>
    rw [List.flatMap_cons, List.append_assoc, feed_append, feed_of_notMem [] (h l (by simp)),
      List.singleton_append, feed_delimiter, ih fun l' hl' => h l' (List.mem_cons_of_mem _ hl')]
    rfl

theorem feed_join (part s : List α) :
    ((feed d part s).1.flatMap fun l => l ++ [d]) ++ (feed d part s).2 = part ++ s := by
  induction s generalizing part with
  | nil => exact (List.append_nil part).symm
  | cons a s ih =>
    rw [feed]
    split
    · rename_i heq
      rw [List.flatMap_cons, List.append_assoc, ih [], List.nil_append, heq, List.append_assoc]
      rfl
    · rw [ih, List.append_assoc]
      rfl

theorem feed_split {part s t : List α} {ls : List (List α)}
    (h : feed d part (s ++ t) = (ls, [])) :
    ∃ n, (feed d part s).1 = ls.take n ∧ feed d (feed d part s).2 t = (ls.drop n, []) := by
  rw [feed_append] at h
  obtain ⟨rfl, hrest⟩ := Prod.mk.inj h
  refine ⟨(feed d part s).1.length, List.take_left.symm, ?_⟩
  rw [List.drop_left]
  exact Prod.ext rfl hrest

theorem splitOn_induction {P : List α → Prop} (last : ∀ s, d ∉ s → P s)
    (part : ∀ s t, d ∉ s → P t → P (s ++ d :: t)) (s : List α) : P s := by
  induction hlength : s.length using Nat.strongRecOn generalizing s with
  | ind n ih =>
    by_cases hmem : d ∈ s
    · obtain ⟨x, y, rfl, hx⟩ := List.eq_append_cons_of_mem hmem
      refine part x y hx (ih y.length ?_ y rfl)
      rw [← hlength, List.length_append, List.length_cons]
      omega
    · exact last s hmem

end IvyBus.Lib
