import IvyBus.Lib.Cells
import IvyBus.Lib.Refine

/-! The macros of `list.h`, on cells in memory. A macro has no result when it reads a cell that
has been freed, or when it would not come to an end. -/

namespace IvyBus

open Lib

variable {σ τ γ κ α β : Type*} [DecidableEq κ]

structure IvyList (κ α : Type*) where
  list : Option κ
  cells : Memory κ α

namespace IvyList

def null : IvyList κ α := ⟨none, ∅⟩

/-- `while (p && cond) p = p->next`, with a bound on its rounds. The condition may read memory,
too. -/
def iter (m : Memory κ α) (cond : Cell κ α → Option Bool) : Nat → Option κ → Option (Option κ)
  | _, none => some none
  | 0, some _ => none
  | fuel + 1, some p =>
    (m.lookup p).bind fun cell =>
      (cond cell).bind fun goes => if goes then iter m cond fuel cell.next else some (some p)

/-- `IVY_LIST_ITER`: the value that `p` has behind it. -/
def ivyListIter (s : IvyList κ α) (cond : Cell κ α → Option Bool) : Option (Option κ) :=
  iter s.cells cond s.cells.keys.length s.list

/-- `IVY_LIST_ADD_START` and `IVY_LIST_ADD_END`; `p` is the address that `malloc` returns. -/
def ivyListAdd (s : IvyList κ α) (p : κ) (data : α) : IvyList κ α :=
  ⟨some p, s.cells.insert p ⟨s.list, data⟩⟩

/-- `suiv = toRemove->next`, `prec->next = suiv` and `free(toRemove)` -/
def unlinkAfter (s : IvyList κ α) (prec toRemove : κ) : Option (IvyList κ α) :=
  (s.cells.lookup toRemove).bind fun removed =>
    (s.cells.lookup prec).map fun cell =>
      ⟨s.list, (s.cells.insert prec ⟨removed.next, cell.data⟩).erase toRemove⟩

def ivyListRemove (s : IvyList κ α) (toRemove : κ) : Option (IvyList κ α) :=
  if s.list = some toRemove then
    (s.cells.lookup toRemove).map fun cell => ⟨cell.next, s.cells.erase toRemove⟩
  else
    (s.ivyListIter fun cell => some (cell.next ≠ some toRemove)).bind fun prec =>
      prec.elim (some s) fun prec => s.unlinkAfter prec toRemove

/-- The walk of `IVY_LIST_EACH`, with a bound on its rounds, over cells it does not change. -/
def each (m : Memory κ α) (body : γ → α → γ) : Nat → Option κ → γ → Option γ
  | _, none, c => some c
  | 0, some _, _ => none
  | fuel + 1, some p, c =>
    (m.lookup p).bind fun cell => each m body fuel cell.next (body c cell.data)

def ivyListEach (s : IvyList κ α) (body : γ → α → γ) (c : γ) : Option γ :=
  each s.cells body s.cells.keys.length s.list c

/-- The walk of `IVY_LIST_EACH_SAFE`: `nxt` is read before the body runs. -/
def eachSafe (view : σ → IvyList κ α) (body : κ → σ → Option σ) : Nat → Option κ → σ → Option σ
  | 0, _, _ => none
  | _ + 1, none, s => some s
  | fuel + 1, some p, s =>
    ((view s).cells.lookup p).bind fun cell =>
      (body p s).bind (eachSafe view body fuel cell.next)

def ivyListEachSafe (view : σ → IvyList κ α) (body : κ → σ → Option σ) (s : σ) : Option σ :=
  eachSafe view body ((view s).cells.keys.length + 1) (view s).list s

def empty : Nat → IvyList κ α → Option (IvyList κ α)
  | _, ⟨none, m⟩ => some ⟨none, m⟩
  | 0, ⟨some _, _⟩ => none
  | fuel + 1, ⟨some p, m⟩ => (m.lookup p).bind fun cell => empty fuel ⟨cell.next, m.erase p⟩

def ivyListEmpty (s : IvyList κ α) : Option (IvyList κ α) := empty s.cells.keys.length s

def store (s : IvyList κ α) (p : κ) (f : α → α) : Option (IvyList κ α) :=
  (s.cells.lookup p).map fun cell =>
    { s with cells := s.cells.insert p { cell with data := f cell.data } }

def Holds (key : β → κ) (data : β → α) (s : IvyList κ α) (l : List β) : Prop :=
  Lib.Holds key data s.list s.cells l

variable {key : β → κ} {data : β → α} {s : IvyList κ α} {l u v : List β} {a b : β} {p : κ}
  {m : Memory κ α} {fuel : Nat}

theorem holds_null : Holds key data null [] := Lib.Holds.empty key data

theorem iter_append (cond : Cell κ α → Option Bool) (h : Chained key data m none (u ++ v))
    (hcond : ∀ u₁ b u₂, u = u₁ ++ b :: u₂ → cond ⟨(u₂ ++ v).head?.map key, data b⟩ = some true)
    (fuel : Nat) : iter m cond (fuel + u.length) ((u ++ v).head?.map key) =
      iter m cond fuel (v.head?.map key) := by
  induction u with
  | nil => rfl
  | cons b u ih =>
    rw [List.cons_append, Chained, Option.or_none] at h
    change iter m cond (fuel + u.length + 1) (some (key b)) = _
    rw [iter, h.1, Option.bind_some, hcond [] b u rfl, Option.bind_some, if_pos rfl]
    exact ih h.2 fun u₁ c u₂ heq => hcond (b :: u₁) c u₂ (congrArg (b :: ·) heq)

theorem iter_find {cond : Cell κ α → Option Bool} {goes : β → Bool}
    (h : Chained key data m none l)
    (hcond : ∀ b ∈ l, ∀ next, cond ⟨next, data b⟩ = some (goes b)) (hfuel : l.length ≤ fuel) :
    iter m cond fuel (l.head?.map key) = some ((l.find? fun b => !goes b).map key) := by
  induction l generalizing fuel with
  | nil => cases fuel <;> rfl
  | cons b l ih =>
    cases fuel with
    | zero => cases hfuel
    | succ fuel =>
      rw [Chained, Option.or_none] at h
      rw [List.head?_cons, Option.map_some, iter, h.1, Option.bind_some,
        hcond b List.mem_cons_self, Option.bind_some, List.find?_cons]
      cases goes b with
      | true =>
        exact ih h.2 (fun c hc => hcond c (List.mem_cons_of_mem b hc))
          (Nat.le_of_succ_le_succ hfuel)
      | false => rfl

theorem each_foldl (h : Chained key data m none l) (body : γ → α → γ) (hfuel : l.length ≤ fuel)
    (c : γ) : each m body fuel (l.head?.map key) c =
      some (l.foldl (fun c b => body c (data b)) c) := by
  induction l generalizing fuel c with
  | nil => cases fuel <;> rfl
  | cons b l ih =>
    cases fuel with
    | zero => cases hfuel
    | succ fuel =>
      rw [Chained, Option.or_none] at h
      rw [List.head?_cons, Option.map_some, each, h.1]
      exact ih h.2 (Nat.le_of_succ_le_succ hfuel) _

namespace Holds

theorem size_eq (h : Holds key data s l) : s.cells.keys.length = l.length := Lib.Holds.size_eq h

theorem list_eq (h : Holds key data s l) : s.list = l.head?.map key := h.head_eq

theorem find (h : Holds key data s l) {cond : Cell κ α → Option Bool} (goes : β → Bool)
    (hcond : ∀ b ∈ l, ∀ next, cond ⟨next, data b⟩ = some (goes b)) :
    s.ivyListIter cond = some ((l.find? fun b => !goes b).map key) := by
  rw [ivyListIter, h.list_eq]
  exact iter_find h.chained hcond h.size_eq.ge

theorem foldl (h : Holds key data s l) (body : γ → α → γ) (c : γ) :
    s.ivyListEach body c = some (l.foldl (fun c b => body c (data b)) c) := by
  rw [ivyListEach, h.list_eq]
  exact each_foldl h.chained body h.size_eq.ge c

theorem add (h : Holds key data s l) (hb : key b ∉ s.cells) :
    Holds key data (s.ivyListAdd (key b) (data b)) (b :: l) := Lib.Holds.push h hb

/-- The walk of `IVY_LIST_REMOVE` stops at the cell before the one it looks for. -/
theorem prec (h : Holds key data s (u ++ a :: b :: v)) :
    s.ivyListIter (fun cell => some (cell.next ≠ some (key b))) = some (some (key a)) := by
  have hnodup := h.nodup
  rw [List.map_append, List.map_cons, List.map_cons, List.nodup_append] at hnodup
  obtain ⟨-, hback, hdisj⟩ := hnodup
  have hpassed : ∀ u₁ c u₂, u = u₁ ++ c :: u₂ →
      some (decide ((u₂ ++ a :: b :: v).head?.map key ≠ some (key b))) = some true := by
    rintro u₁ c u₂ rfl
    refine congrArg some (decide_eq_true fun heq => ?_)
    cases u₂ with
    | nil =>
      exact (List.nodup_cons.mp hback).1 (Option.some.inj heq ▸ List.mem_cons_self)
    | cons d u₂ =>
      have hin : key d ∈ (u₁ ++ c :: d :: u₂).map key := List.mem_map_of_mem (by simp)
      exact hdisj _ hin _ (List.mem_cons_of_mem _ List.mem_cons_self) (Option.some.inj heq)
  have hsize : s.cells.keys.length = v.length + 2 + u.length := by
    rw [h.size_eq, List.length_append, List.length_cons, List.length_cons, Nat.add_comm]
  rw [ivyListIter, hsize, h.list_eq, iter_append _ h.chained hpassed]
  change iter s.cells _ (v.length + 1 + 1) (some (key a)) = _
  rw [iter, h.lookup, Option.bind_some, Option.bind_some, if_neg (by simp)]

theorem prec_none (h : Holds key data s l) (hp : p ∉ l.map key) :
    s.ivyListIter (fun cell => some (cell.next ≠ some p)) = some none := by
  have hpassed : ∀ u₁ b u₂, l = u₁ ++ b :: u₂ →
      some (decide ((u₂ ++ ([] : List β)).head?.map key ≠ some p)) = some true := by
    rintro u₁ b u₂ rfl
    refine congrArg some (decide_eq_true fun heq => hp ?_)
    rw [List.append_nil] at heq
    obtain ⟨c, hc, rfl⟩ := Option.map_eq_some_iff.mp heq
    exact List.mem_map_of_mem
      (List.mem_append_right u₁ (List.mem_cons_of_mem b (List.mem_of_head? hc)))
  have hchained : Chained key data s.cells none (l ++ []) := by
    rw [List.append_nil]
    exact h.chained
  have hiter := iter_append (fun cell => some (cell.next ≠ some p)) hchained hpassed 0
  rw [List.append_nil, Nat.zero_add] at hiter
  rw [ivyListIter, h.size_eq, h.list_eq, hiter]
  rfl

theorem remove_first (h : Holds key data s (b :: v)) :
    ∃ s', s.ivyListRemove (key b) = some s' ∧ Holds key data s' v := by
  have hb : s.cells.lookup (key b) = some ⟨v.head?.map key, data b⟩ := h.lookup (u := [])
  refine ⟨⟨v.head?.map key, s.cells.erase (key b)⟩, ?_, Lib.Holds.pop h⟩
  have hfirst : s.list = some (key b) := h.list_eq
  rw [ivyListRemove, if_pos hfirst, hb]
  rfl

theorem remove_after (h : Holds key data s (u ++ a :: b :: v)) :
    ∃ s', s.ivyListRemove (key b) = some s' ∧ Holds key data s' (u ++ a :: v) := by
  have ha : s.cells.lookup (key a) = some ⟨some (key b), data a⟩ := h.lookup
  have hsplit : u ++ a :: b :: v = (u ++ [a]) ++ b :: v := List.append_cons ..
  have hb : s.cells.lookup (key b) = some ⟨v.head?.map key, data b⟩ :=
    Lib.Holds.lookup (u := u ++ [a]) (hsplit ▸ h)
  have hfirst : s.list ≠ some (key b) := by
    have hnodup := h.nodup
    rw [h.list_eq, ← List.head?_map]
    cases u with
    | nil =>
      exact fun heq => (List.nodup_cons.mp hnodup).1 (Option.some.inj heq ▸ List.mem_cons_self)
    | cons c u =>
      refine fun heq => (List.nodup_cons.mp hnodup).1 (Option.some.inj heq ▸ ?_)
      have hin : b ∈ a :: b :: v := List.mem_cons_of_mem a List.mem_cons_self
      exact List.mem_map_of_mem (List.mem_append_right u hin)
  let cells : Memory κ α := (s.cells.insert (key a) ⟨v.head?.map key, data a⟩).erase (key b)
  refine ⟨⟨s.list, cells⟩, ?_, Lib.Holds.bypass h⟩
  rw [ivyListRemove, if_neg hfirst, h.prec, Option.bind_some, Option.elim_some, unlinkAfter, hb,
    Option.bind_some, ha]
  rfl

theorem remove_unlinked (h : Holds key data s l) (hp : p ∉ l.map key) :
    s.ivyListRemove p = some s := by
  have hlist : s.list ≠ some p := by
    rw [h.list_eq, ← List.head?_map]
    exact fun heq => hp (List.mem_of_head? heq)
  rw [ivyListRemove, if_neg hlist, h.prec_none hp]
  rfl

theorem remove (h : Holds key data s l) (p : κ) :
    ∃ s', s.ivyListRemove p = some s' ∧ Holds key data s' (unlink key p l) := by
  by_cases hp : p ∈ l.map key
  · obtain ⟨b, hb, rfl⟩ := List.mem_map.mp hp
    obtain ⟨u, v, rfl⟩ := List.append_of_mem hb
    have hnew : key b ∉ u.map key := by
      have hnodup := h.nodup
      rw [List.map_append, List.nodup_append] at hnodup
      exact fun hin => hnodup.2.2 _ hin _ List.mem_cons_self rfl
    rw [unlink_cell hnew]
    rcases List.eq_nil_or_concat u with rfl | ⟨u, a, rfl⟩
    · exact h.remove_first
    · rw [List.concat_eq_append, ← List.append_cons] at h ⊢
      exact h.remove_after
  · refine ⟨s, h.remove_unlinked hp, ?_⟩
    rw [unlink, List.eraseP_of_forall_not fun c hc => ?_]
    · exact h
    · exact fun heq => hp (of_decide_eq_true heq ▸ List.mem_map_of_mem hc)

theorem store (h : Holds key data s l) (hb : b ∈ l) {f : α → α} {g : β → β}
    (hkey : key (g b) = key b) (hdata : data (g b) = f (data b)) :
    ∃ s', s.store (key b) f = some s' ∧
      Holds key data s' (l.map fun c => if key c = key b then g c else c) := by
  obtain ⟨next, hnext⟩ := Lib.Holds.lookup_of_mem h hb
  refine ⟨⟨s.list, s.cells.insert (key b) ⟨next, f (data b)⟩⟩, ?_,
    hdata ▸ Lib.Holds.store h hb hkey hnext⟩
  rw [IvyList.store, hnext]
  rfl

end Holds

theorem holds_empty (h : Holds key data s l) (hfuel : l.length ≤ fuel) :
    ∃ s', empty fuel s = some s' ∧ Holds key data s' [] := by
  induction l generalizing fuel s with
  | nil =>
    obtain ⟨list, m⟩ := s
    obtain rfl : list = none := h.list_eq
    exact ⟨⟨none, m⟩, by cases fuel <;> rfl, h⟩
  | cons b l ih =>
    cases fuel with
    | zero => cases hfuel
    | succ fuel =>
      have hb : s.cells.lookup (key b) = some ⟨l.head?.map key, data b⟩ := h.lookup (u := [])
      obtain ⟨s', hs', hend⟩ := ih (s := ⟨l.head?.map key, s.cells.erase (key b)⟩)
        (Lib.Holds.pop h) (Nat.le_of_succ_le_succ hfuel)
      obtain ⟨list, m⟩ := s
      obtain rfl : list = some (key b) := h.list_eq
      refine ⟨s', ?_, hend⟩
      rw [empty, hb]
      exact hs'

theorem Holds.empty (h : Holds key data s l) :
    ∃ s', s.ivyListEmpty = some s' ∧ Holds key data s' [] :=
  holds_empty h h.size_eq.ge

/-- A walk whose body leaves the rest of the list behind the saved cell: `I` is an invariant on
the cells still ahead and the state. -/
theorem eachSafe_rule {view : σ → IvyList κ α} {body : κ → σ → Option σ}
    {I : List β → σ → Prop}
    (hstep : ∀ b rest s, I (b :: rest) s →
      (∃ pre, Holds key data (view s) (pre ++ b :: rest)) ∧
        ∃ s', body (key b) s = some s' ∧ I rest s')
    {ahead : List β} {s : σ} (h : I ahead s) (hfuel : ahead.length < fuel) :
    ∃ s', eachSafe view body fuel (ahead.head?.map key) s = some s' ∧ I [] s' := by
  induction ahead generalizing fuel s with
  | nil =>
    cases fuel with
    | zero => cases hfuel
    | succ fuel => exact ⟨s, rfl, h⟩
  | cons b rest ih =>
    cases fuel with
    | zero => cases hfuel
    | succ fuel =>
      obtain ⟨⟨pre, hholds⟩, s', hbody, hrest⟩ := hstep b rest s h
      obtain ⟨t, ht, hend⟩ := ih hrest (Nat.lt_of_succ_lt_succ hfuel)
      refine ⟨t, ?_, hend⟩
      have hcell : (view s).cells.lookup (key b) = some ⟨rest.head?.map key, data b⟩ :=
        hholds.lookup
      rw [List.head?_cons, Option.map_some, eachSafe, hcell, Option.bind_some, hbody]
      exact ht

theorem ivyListEachSafe_rule {view : σ → IvyList κ α} {body : κ → σ → Option σ}
    {I : List β → σ → Prop}
    (hstep : ∀ b rest s, I (b :: rest) s →
      (∃ pre, Holds key data (view s) (pre ++ b :: rest)) ∧
        ∃ s', body (key b) s = some s' ∧ I rest s')
    {s : σ} (hholds : Holds key data (view s) l) (h : I l s) :
    ∃ s', ivyListEachSafe view body s = some s' ∧ I [] s' := by
  rw [ivyListEachSafe, hholds.size_eq, hholds.list_eq]
  exact eachSafe_rule hstep h (Nat.lt_succ_self _)

theorem rel_eachSafe {R : σ → τ → Prop} {view : σ → IvyList κ α} {chain : τ → List β}
    {body : κ → σ → Option σ} {body' : β → τ → Option τ}
    (hview : ∀ s t, R s t → Holds key data (view s) (chain t))
    (hbody : ∀ b s t, R s t → b ∈ chain t → Option.Rel R (body (key b) s) (body' b t)) (fuel : Nat)
    (p : Option κ) {s : σ} {t : τ} (h : R s t) :
    Option.Rel R (eachSafe view body fuel p s) (Lib.eachSafe key chain body' fuel p t) := by
  induction fuel generalizing p s t with
  | zero => exact .none
  | succ fuel ih =>
    cases p with
    | none => exact .some h
    | some p =>
      have hholds := hview s t h
      by_cases hp : p ∈ (chain t).map key
      · obtain ⟨b, hb, rfl⟩ := List.mem_map.mp hp
        obtain ⟨u, v, hchain⟩ := List.append_of_mem hb
        rw [hchain] at hholds
        have hnew : key b ∉ u.map key := by
          have hnodup := hholds.nodup
          rw [List.map_append, List.nodup_append] at hnodup
          exact fun hin => hnodup.2.2 _ hin _ List.mem_cons_self rfl
        have hcell : (view s).cells.lookup (key b) = some ⟨v.head?.map key, data b⟩ :=
          hholds.lookup
        rw [eachSafe, eachSafe_cons hchain hnew, hcell, Option.bind_some]
        exact rel_bind (hbody b s t h hb) fun s t hst => ih _ hst
      · rw [eachSafe, eachSafe_unlinked hp, Lib.Holds.lookup_eq_none hholds hp]
        exact .none

theorem rel_ivyListEachSafe {R : σ → τ → Prop} {view : σ → IvyList κ α} {chain : τ → List β}
    {body : κ → σ → Option σ} {body' : β → τ → Option τ}
    (hview : ∀ s t, R s t → Holds key data (view s) (chain t))
    (hbody : ∀ b s t, R s t → b ∈ chain t → Option.Rel R (body (key b) s) (body' b t))
    {s : σ} {t : τ} (h : R s t) :
    Option.Rel R (ivyListEachSafe view body s) (forEachSafe key chain body' t) := by
  rw [ivyListEachSafe, forEachSafe, (hview s t h).size_eq, (hview s t h).list_eq]
  exact rel_eachSafe hview hbody _ _ h

end IvyList

end IvyBus
