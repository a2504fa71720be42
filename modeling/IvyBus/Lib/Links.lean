import Mathlib.Data.List.Nodup
import Mathlib.Logic.Function.Basic

namespace IvyBus.Lib

variable {α : Type*}

/-- The pointers of the cells of a doubly linked list, between `p` before its first cell and `q`
behind its last one. -/
def Linked (next prev : α → Option α) (q : Option α) : Option α → List α → Prop
  | _, [] => True
  | p, a :: l => prev a = p ∧ next a = l.head?.or q ∧ Linked next prev q (some a) l

variable {next prev next' prev' : α → Option α} {p q : Option α} {l u v : List α} {a b : α}

theorem Linked.congr (h : Linked next prev q p l) (hnext : ∀ x ∈ l, next' x = next x)
    (hprev : ∀ x ∈ l, prev' x = prev x) : Linked next' prev' q p l := by
  induction l generalizing p with
  | nil => trivial
  | cons a l ih =>
    obtain ⟨hp, hn, hl⟩ := h
    exact ⟨(hprev a List.mem_cons_self).trans hp, (hnext a List.mem_cons_self).trans hn,
      ih hl (fun x hx => hnext x (List.mem_cons_of_mem _ hx))
        fun x hx => hprev x (List.mem_cons_of_mem _ hx)⟩

theorem linked_append : Linked next prev q p (u ++ v) ↔
    Linked next prev (v.head?.or q) p u ∧ Linked next prev q (u.getLast?.or p) v := by
  induction u generalizing p with
  | nil => exact (iff_of_eq (true_and _)).symm
  | cons a u ih =>
    have hhead : (u ++ v).head?.or q = u.head?.or (v.head?.or q) := by
      rw [List.head?_append, Option.or_assoc]
    have hlast : (a :: u).getLast?.or p = u.getLast?.or (some a) := by
      cases hu : u.getLast? <;> simp [List.getLast?_cons, hu]
    rw [List.cons_append, Linked, Linked, ih, hhead, hlast, and_assoc, and_assoc]

theorem Linked.cell (h : Linked next prev none none (u ++ a :: v)) :
    prev a = u.getLast? ∧ next a = v.head? := by
  obtain ⟨hprev, hnext, -⟩ := (linked_append.mp h).2
  exact ⟨hprev.trans (Option.or_none ..), hnext.trans (Option.or_none ..)⟩

theorem head?_ne_of_notMem (h : a ∉ l) : l.head? ≠ some a := fun heq =>
  h (List.mem_of_head? heq)

theorem getLast?_ne_of_notMem (h : a ∉ l) : l.getLast? ≠ some a := fun heq =>
  h (List.mem_of_getLast? heq)

theorem filter_cell {κ : Type*} [DecidableEq κ] {key : α → κ} (h : ((u ++ a :: v).map key).Nodup) :
    (u ++ a :: v).filter (key · ≠ key a) = u ++ v := by
  rw [List.map_append, List.map_cons, List.nodup_append, List.nodup_cons] at h
  obtain ⟨-, ⟨hv, -⟩, hdisj⟩ := h
  have hkeep : ∀ w : List α, key a ∉ w.map key → w.filter (key · ≠ key a) = w := fun w hw =>
    List.filter_eq_self.mpr fun x hx =>
      decide_eq_true fun heq => hw (heq ▸ List.mem_map_of_mem hx)
  rw [List.filter_append, List.filter_cons_of_neg (by simp), hkeep v hv,
    hkeep u fun hu => hdisj _ hu _ List.mem_cons_self rfl]

/-- The cells that are reached by `next`; `none` when the end is not among the first ones. -/
def cells (next : α → Option α) : Nat → Option α → Option (List α)
  | _, none => some []
  | 0, some _ => none
  | n + 1, some a => (cells next n (next a)).map (a :: ·)

theorem Linked.cells_eq (h : Linked next prev none p l) {n : Nat} (hn : l.length ≤ n) :
    cells next n l.head? = some l := by
  induction l generalizing p n with
  | nil => cases n <;> rfl
  | cons a l ih =>
    cases n with
    | zero => cases hn
    | succ n =>
      rw [List.head?_cons, cells, h.2.1, Option.or_none, ih h.2.2 (Nat.le_of_succ_le_succ hn)]
      rfl

variable [DecidableEq α]

def setAt {β : Type*} (f : α → β) (p : Option α) (b : β) : α → β :=
  match p with
  | none => f
  | some a => Function.update f a b

section setAt

variable {β : Type*} {f : α → β} {p : Option α} {b : β} {a : α}

@[simp] theorem setAt_none (f : α → β) (b : β) : setAt f none b = f := rfl

@[simp] theorem setAt_some (f : α → β) (a : α) (b : β) : setAt f (some a) b a = b :=
  Function.update_self ..

theorem setAt_of_ne (h : p ≠ some a) : setAt f p b a = f a := by
  cases p with
  | none => rfl
  | some c => exact Function.update_of_ne (fun heq => h (congrArg some heq.symm)) ..

theorem setAt_self (f : α → β) (p : Option α) (a : α) : setAt f p (f a) a = f a := by
  by_cases h : p = some a
  · rw [h, setAt_some]
  · exact setAt_of_ne h

end setAt

theorem Linked.setLast (h : Linked next prev q p l) (hnodup : l.Nodup) (q' : Option α) :
    Linked (setAt next l.getLast? q') prev q' p l := by
  rcases List.eq_nil_or_concat l with rfl | ⟨u, a, rfl⟩
  · trivial
  · rw [List.concat_eq_append] at h hnodup ⊢
    rw [List.getLast?_concat]
    obtain ⟨hu, ha⟩ := linked_append.mp h
    refine linked_append.mpr ⟨hu.congr (fun x hx => ?_) fun _ _ => rfl, ha.1, ?_, trivial⟩
    · have hne : x ≠ a := fun heq =>
        (List.nodup_append.mp hnodup).2.2 x hx a List.mem_cons_self heq
      exact setAt_of_ne fun heq => hne (Option.some.inj heq).symm
    · exact setAt_some ..

theorem Linked.setHead (h : Linked next prev q p l) (hnodup : l.Nodup) (p' : Option α) :
    Linked next (setAt prev l.head? p') q p' l := by
  cases l with
  | nil => trivial
  | cons a l =>
    refine ⟨setAt_some .., h.2.1, h.2.2.congr (fun _ _ => rfl) fun x hx => ?_⟩
    exact setAt_of_ne fun heq => (List.nodup_cons.mp hnodup).1 (Option.some.inj heq ▸ hx)

theorem Linked.push (h : Linked next prev none none l) (hnodup : l.Nodup) (ha : a ∉ l) :
    Linked (Function.update next a l.head?)
      (setAt (Function.update prev a none) l.head? (some a)) none none (a :: l) := by
  have hne : ∀ x ∈ l, x ≠ a := fun x hx heq => ha (heq ▸ hx)
  refine ⟨?_, ?_, ?_⟩
  · rw [setAt_of_ne (head?_ne_of_notMem ha), Function.update_self]
  · rw [Function.update_self, Option.or_none]
  · have hback : Linked (Function.update next a l.head?) (Function.update prev a none) none none
        l :=
      h.congr (fun x hx => Function.update_of_ne (hne x hx) ..)
        fun x hx => Function.update_of_ne (hne x hx) ..
    exact hback.setHead hnodup (some a)

theorem Linked.snoc (h : Linked next prev none none l) (hnodup : l.Nodup) (ha : a ∉ l) :
    Linked (setAt (Function.update next a none) l.getLast? (some a))
      (Function.update prev a l.getLast?) none none (l ++ [a]) := by
  have hne : ∀ x ∈ l, x ≠ a := fun x hx heq => ha (heq ▸ hx)
  have hfront : Linked (Function.update next a none) (Function.update prev a l.getLast?) none none
      l :=
    h.congr (fun x hx => Function.update_of_ne (hne x hx) ..)
      fun x hx => Function.update_of_ne (hne x hx) ..
  refine linked_append.mpr ⟨hfront.setLast hnodup (some a), ?_, ?_, trivial⟩
  · rw [Function.update_self, Option.or_none]
  · rw [setAt_of_ne (getLast?_ne_of_notMem ha), Function.update_self]
    rfl

theorem Linked.remove (h : Linked next prev none none (u ++ a :: v))
    (hnodup : (u ++ a :: v).Nodup) :
    Linked (setAt next (prev a) (next a)) (setAt prev (next a) (prev a)) none none (u ++ v) := by
  obtain ⟨hprev, hnext⟩ := h.cell
  obtain ⟨hu, -, -, hv⟩ := linked_append.mp h
  obtain ⟨hnodupu, hnodupv, hdisj⟩ := List.nodup_append.mp hnodup
  rw [hprev, hnext]
  refine linked_append.mpr ⟨?_, ?_⟩
  · refine (hu.setLast hnodupu (v.head?.or none)).congr (fun x hx => ?_) fun x hx => ?_
    · rw [Option.or_none]
    · refine setAt_of_ne fun heq => ?_
      exact hdisj x hx x (List.mem_cons_of_mem _ (List.mem_of_head? heq)) rfl
  · refine (hv.setHead (List.nodup_cons.mp hnodupv).2 (u.getLast?.or none)).congr (fun x hx => ?_)
      fun x hx => ?_
    · refine setAt_of_ne fun heq => ?_
      exact hdisj x (List.mem_of_getLast? heq) x (List.mem_cons_of_mem _ hx) rfl
    · rw [Option.or_none]

end IvyBus.Lib
