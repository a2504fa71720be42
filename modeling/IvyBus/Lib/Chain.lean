import Mathlib.Data.List.Nodup
import Mathlib.Data.List.TakeWhile

namespace IvyBus.Lib

variable {σ α κ : Type*} [DecidableEq κ]

/-- A walk along a chained list that saves the next cell before it works on the current one.
`chain` is the list as it is linked in a state, `key` the address of a cell. The walk has no
result when the saved cell is no longer linked: it would read freed memory. -/
def eachSafe (key : α → κ) (chain : σ → List α) (body : α → σ → Option σ) :
    Nat → Option κ → σ → Option σ
  | 0, _, _ => none
  | _ + 1, none, s => some s
  | fuel + 1, some p, s =>
    match (chain s).dropWhile (key · ≠ p) with
    | [] => none
    | cell :: rest =>
      (body cell s).bind (eachSafe key chain body fuel (rest.head?.map key))

def forEachSafe (key : α → κ) (chain : σ → List α) (body : α → σ → Option σ) (s : σ) :
    Option σ :=
  eachSafe key chain body ((chain s).length + 1) ((chain s).head?.map key) s

variable {key : α → κ} {chain : σ → List α} {body : α → σ → Option σ}

theorem dropWhile_cell {pre : List α} {cell : α} (h : key cell ∉ pre.map key) (rest : List α) :
    (pre ++ cell :: rest).dropWhile (key · ≠ key cell) = cell :: rest := by
  rw [List.dropWhile_append_of_pos]
  · exact List.dropWhile_cons_of_neg (by simp)
  · intro c hc
    exact decide_eq_true fun heq => h (heq ▸ List.mem_map_of_mem hc)

theorem dropWhile_unlinked {l : List α} {p : κ} (h : p ∉ l.map key) :
    l.dropWhile (key · ≠ p) = [] := by
  rw [List.dropWhile_eq_nil_iff]
  intro c hc
  exact decide_eq_true fun heq => h (heq ▸ List.mem_map_of_mem hc)

theorem find?_cell {l : List α} {cell : α} (hnodup : (l.map key).Nodup) (h : cell ∈ l) :
    l.find? (key · = key cell) = some cell := by
  induction l with
  | nil => cases h
  | cons c l ih =>
    rw [List.map_cons, List.nodup_cons] at hnodup
    rw [List.find?_cons]
    rcases List.mem_cons.mp h with rfl | h
    · simp
    · have hne : key c ≠ key cell := fun heq => hnodup.1 (heq ▸ List.mem_map_of_mem h)
      simp [hne, ih hnodup.2 h]

theorem eachSafe_cons {s : σ} {pre rest : List α} {cell : α}
    (hchain : chain s = pre ++ cell :: rest) (hnew : key cell ∉ pre.map key) (fuel : Nat) :
    eachSafe key chain body (fuel + 1) (some (key cell)) s =
      (body cell s).bind (eachSafe key chain body fuel (rest.head?.map key)) := by
  simp only [eachSafe, hchain, dropWhile_cell hnew]

theorem eachSafe_unlinked {s : σ} {p : κ} (h : p ∉ (chain s).map key) (fuel : Nat) :
    eachSafe key chain body fuel (some p) s = none := by
  cases fuel with
  | zero => rfl
  | succ fuel => simp only [eachSafe, dropWhile_unlinked h]

omit [DecidableEq κ] in
theorem suffix_cell {l : List α} {p : κ} {ps : List κ} (hnodup : (l.map key).Nodup)
    (h : (p :: ps) <:+ l.map key) : ∃ pre cell rest, l = pre ++ cell :: rest ∧
      key cell ∉ pre.map key ∧ key cell = p ∧ rest.map key = ps := by
  obtain ⟨before, hkeys⟩ := h
  obtain ⟨pre, back, rfl, rfl, hback⟩ := List.map_eq_append_iff.mp hkeys.symm
  obtain ⟨cell, rest, rfl, rfl, rfl⟩ := List.map_eq_cons_iff.mp hback
  rw [List.map_append, List.nodup_append] at hnodup
  exact ⟨pre, cell, rest, rfl, fun hin => hnodup.2.2 _ hin _ List.mem_cons_self rfl, rfl, rfl⟩

/-- A walk whose body leaves the rest of the list linked behind the saved cell comes to an end:
`I` is an invariant on the cells still ahead, by their addresses, and the state. -/
theorem eachSafe_keys {I : List κ → σ → Prop}
    (hstep : ∀ p ps s, I (p :: ps) s → ∃ pre cell rest, chain s = pre ++ cell :: rest ∧
      key cell ∉ pre.map key ∧ (cell :: rest).map key = p :: ps ∧
        ∃ s', body cell s = some s' ∧ I ps s')
    {fuel : Nat} {ahead : List κ} {s : σ} (h : I ahead s) (hfuel : ahead.length < fuel) :
    ∃ s', eachSafe key chain body fuel ahead.head? s = some s' ∧ I [] s' := by
  induction ahead generalizing fuel s with
  | nil =>
    cases fuel with
    | zero => cases hfuel
    | succ fuel => exact ⟨s, rfl, h⟩
  | cons p ps ih =>
    cases fuel with
    | zero => cases hfuel
    | succ fuel =>
      obtain ⟨pre, cell, rest, hchain, hnew, hkeys, s', hbody, hrest⟩ := hstep p ps s h
      obtain ⟨rfl, rfl⟩ := List.cons.inj hkeys
      obtain ⟨t, ht, hend⟩ := ih hrest (Nat.lt_of_succ_lt_succ hfuel)
      refine ⟨t, ?_, hend⟩
      rw [List.head?_cons, eachSafe_cons hchain hnew, hbody, ← List.head?_map]
      exact ht

theorem forEachSafe_ahead {I : List κ → σ → Prop}
    (hnodup : ∀ ps s, I ps s → ((chain s).map key).Nodup)
    (hstep : ∀ cell ps s, I (key cell :: ps) s → cell ∈ chain s →
      (key cell :: ps) <:+ (chain s).map key →
        ∃ s', body cell s = some s' ∧ I ps s' ∧ ps <:+ (chain s').map key)
    {s : σ} (h : I ((chain s).map key) s) :
    ∃ s', forEachSafe key chain body s = some s' ∧ I [] s' := by
  let J (ps : List κ) (s : σ) : Prop := I ps s ∧ ps <:+ (chain s).map key
  have hJ : ∀ p ps s, J (p :: ps) s → ∃ pre cell rest, chain s = pre ++ cell :: rest ∧
      key cell ∉ pre.map key ∧ (cell :: rest).map key = p :: ps ∧
        ∃ s', body cell s = some s' ∧ J ps s' := by
    rintro p ps s ⟨hI, hsuffix⟩
    obtain ⟨pre, cell, rest, hlist, hnew, rfl, rfl⟩ := suffix_cell (hnodup _ s hI) hsuffix
    exact ⟨pre, cell, rest, hlist, hnew, rfl, hstep cell _ s hI
      (hlist ▸ List.mem_append_right _ List.mem_cons_self) hsuffix⟩
  obtain ⟨s', hs', hend, -⟩ := eachSafe_keys hJ (show J ((chain s).map key) s from
    ⟨h, List.suffix_rfl⟩) ((List.length_map _).trans_lt (Nat.lt_succ_self _))
  refine ⟨s', ?_, hend⟩
  rw [forEachSafe, ← List.head?_map]
  exact hs'

theorem eachSafe_rule {I : List α → σ → Prop}
    (hstep : ∀ cell rest s, I (cell :: rest) s →
      (∃ pre, chain s = pre ++ cell :: rest ∧ key cell ∉ pre.map key) ∧
        ∃ s', body cell s = some s' ∧ I rest s')
    {fuel : Nat} {ahead : List α} {s : σ} (h : I ahead s) (hfuel : ahead.length < fuel) :
    ∃ s', eachSafe key chain body fuel (ahead.head?.map key) s = some s' ∧ I [] s' := by
  let J (ps : List κ) (s : σ) : Prop := ∃ ahead, ahead.map key = ps ∧ I ahead s
  have hJ : ∀ p ps s, J (p :: ps) s → ∃ pre cell rest, chain s = pre ++ cell :: rest ∧
      key cell ∉ pre.map key ∧ (cell :: rest).map key = p :: ps ∧
        ∃ s', body cell s = some s' ∧ J ps s' := by
    rintro p ps s ⟨ahead, hkeys, hI⟩
    obtain ⟨cell, rest, rfl, hp, hps⟩ := List.map_eq_cons_iff.mp hkeys
    obtain ⟨⟨pre, hchain, hnew⟩, s', hbody, hrest⟩ := hstep cell rest s hI
    exact ⟨pre, cell, rest, hchain, hnew, hkeys, s', hbody, rest, hps, hrest⟩
  obtain ⟨s', hs', ahead', hnil, hend⟩ := eachSafe_keys hJ ⟨ahead, rfl, h⟩
    ((List.length_map _).trans_lt hfuel)
  rw [List.map_eq_nil_iff.mp hnil] at hend
  rw [List.head?_map] at hs'
  exact ⟨s', hs', hend⟩

theorem eachSafe_preserves {P : σ → Prop}
    (hbody : ∀ cell s s', P s → cell ∈ chain s → body cell s = some s' → P s') {fuel : Nat}
    {p : Option κ} {s s' : σ} (hs : P s) (h : eachSafe key chain body fuel p s = some s') :
    P s' := by
  induction fuel generalizing p s with
  | zero => cases h
  | succ fuel ih =>
    cases p with
    | none => exact Option.some.inj h ▸ hs
    | some p =>
      rw [eachSafe] at h
      split at h
      · cases h
      · rename_i cell rest hcell
        obtain ⟨t, ht, hrest⟩ := Option.bind_eq_some_iff.mp h
        have hmem : cell ∈ chain s :=
          (List.dropWhile_sublist _).subset (hcell ▸ List.mem_cons_self)
        exact ih (hbody cell s t hs hmem ht) hrest

theorem eachSafe_map {τ : Type*} {view : σ → τ} {chain' : τ → List α} {body' : α → τ → Option τ}
    (hchain : ∀ s, chain s = chain' (view s))
    (hbody : ∀ cell s, (body cell s).map view = body' cell (view s)) (fuel : Nat) (p : Option κ)
    (s : σ) : (eachSafe key chain body fuel p s).map view =
      eachSafe key chain' body' fuel p (view s) := by
  induction fuel generalizing p s with
  | zero => rfl
  | succ fuel ih =>
    cases p with
    | none => rfl
    | some p =>
      rw [eachSafe, eachSafe, hchain]
      cases (chain' (view s)).dropWhile (key · ≠ p) with
      | nil => rfl
      | cons cell rest =>
        dsimp only
        rw [← hbody]
        cases body cell s with
        | none => rfl
        | some t => exact ih _ t

theorem forEachSafe_map {τ : Type*} (view : σ → τ) {chain' : τ → List α}
    {body' : α → τ → Option τ} (hchain : ∀ s, chain s = chain' (view s))
    (hbody : ∀ cell s, (body cell s).map view = body' cell (view s)) (s : σ) :
    (forEachSafe key chain body s).map view = forEachSafe key chain' body' (view s) := by
  rw [forEachSafe, forEachSafe, hchain]
  exact eachSafe_map hchain hbody ..

theorem eachSafe_visits {fuel : Nat} {p : Option κ} {s s' : σ}
    (h : eachSafe key chain body fuel p s = some s') :
    ∃ cells : List α, cells.foldlM (fun s cell => body cell s) s = some s' := by
  induction fuel generalizing p s with
  | zero => cases h
  | succ fuel ih =>
    cases p with
    | none => exact ⟨[], h⟩
    | some p =>
      rw [eachSafe] at h
      split at h
      · cases h
      · rename_i cell rest _
        obtain ⟨t, ht, hrest⟩ := Option.bind_eq_some_iff.mp h
        obtain ⟨cells, hcells⟩ := ih hrest
        refine ⟨cell :: cells, ?_⟩
        rw [List.foldlM_cons, ht]
        exact hcells

theorem eachSafe_skip {s : σ} {pre mid rest : List α} (hchain : chain s = pre ++ (mid ++ rest))
    (hnodup : ((chain s).map key).Nodup) (hskip : ∀ cell ∈ mid, body cell s = some s)
    (fuel : Nat) :
    eachSafe key chain body (fuel + mid.length) ((mid ++ rest).head?.map key) s =
      eachSafe key chain body fuel (rest.head?.map key) s := by
  induction mid generalizing pre with
  | nil => rfl
  | cons cell mid ih =>
    have hnew : key cell ∉ pre.map key := by
      rw [hchain, List.map_append, List.nodup_append] at hnodup
      exact fun h => hnodup.2.2 _ h _ (by simp) rfl
    have hrest : chain s = (pre ++ [cell]) ++ (mid ++ rest) := by
      rw [hchain, List.append_assoc]
      rfl
    rw [← ih hrest fun c hc => hskip c (List.mem_cons_of_mem _ hc)]
    change eachSafe key chain body (_ + 1) (some (key cell)) s = _
    rw [eachSafe_cons hchain hnew, hskip cell List.mem_cons_self]
    rfl

def unlink (key : α → κ) (p : κ) (l : List α) : List α := l.eraseP (key · = p)

theorem unlink_cell {pre : List α} {cell : α} (h : key cell ∉ pre.map key) (rest : List α) :
    unlink key (key cell) (pre ++ cell :: rest) = pre ++ rest := by
  rw [unlink, List.eraseP_append_right]
  · rw [List.eraseP_cons_of_pos (by simp)]
  · intro c hc
    exact fun heq => h (of_decide_eq_true heq ▸ List.mem_map_of_mem hc)

theorem update_cell {pre rest : List α} {cell : α} (h : ((pre ++ cell :: rest).map key).Nodup)
    (f : α → α) : ((pre ++ cell :: rest).map fun c => if key c = key cell then f c else c) =
      pre ++ f cell :: rest := by
  have hkeep : ∀ l : List α, key cell ∉ l.map key →
      (l.map fun c => if key c = key cell then f c else c) = l := fun l hl =>
    (List.map_congr_left fun c hc => if_neg fun heq : key c = key cell =>
      hl (heq ▸ List.mem_map_of_mem hc)).trans (List.map_id _)
  rw [List.map_append, List.nodup_append, List.map_cons, List.nodup_cons] at h
  rw [List.map_append, List.map_cons, if_pos rfl, hkeep rest h.2.1.1,
    hkeep pre fun hin => h.2.2 _ hin _ List.mem_cons_self rfl]

theorem notMem_unlink {p : κ} {l : List α} (hnodup : (l.map key).Nodup) :
    p ∉ (unlink key p l).map key := by
  induction l with
  | nil => exact List.not_mem_nil
  | cons c l ih =>
    rw [List.map_cons, List.nodup_cons] at hnodup
    rw [unlink]
    by_cases hc : key c = p
    · rw [List.eraseP_cons_of_pos (by simpa using hc), ← hc]
      exact hnodup.1
    · rw [List.eraseP_cons_of_neg (by simpa using hc), List.map_cons, List.mem_cons, not_or]
      exact ⟨fun heq => hc heq.symm, ih hnodup.2⟩

theorem unlink_suffix {l : List α} {cell : α} {ps : List κ} (hnodup : (l.map key).Nodup)
    (h : (key cell :: ps) <:+ l.map key) : ps <:+ (unlink key (key cell) l).map key := by
  obtain ⟨pre, cell', rest, rfl, hnew, hcell, rfl⟩ := suffix_cell hnodup h
  rw [← hcell, unlink_cell hnew, List.map_append]
  exact List.suffix_append ..

theorem forEachSafe_unlink (p : α → Bool) {l : List α} (hnodup : (l.map key).Nodup) :
    forEachSafe key id (fun cell l => some (if p cell then unlink key (key cell) l else l)) l =
      some (l.filter fun c => !p c) := by
  let I (ahead s : List α) : Prop :=
    ∃ pre, l = pre ++ ahead ∧ s = pre.filter (fun c => !p c) ++ ahead
  have hstep : ∀ cell rest s, I (cell :: rest) s →
      (∃ pre, id s = pre ++ cell :: rest ∧ key cell ∉ pre.map key) ∧
        ∃ s', some (if p cell then unlink key (key cell) s else s) = some s' ∧ I rest s' := by
    rintro cell rest s ⟨pre, hl, rfl⟩
    have hnew : key cell ∉ (pre.filter fun c => !p c).map key := by
      rw [hl, List.map_append, List.nodup_append] at hnodup
      intro h
      obtain ⟨c, hc, heq⟩ := List.mem_map.mp h
      exact hnodup.2.2 _ (List.mem_map_of_mem (List.mem_filter.mp hc).1) _ (by simp) heq
    refine ⟨⟨_, rfl, hnew⟩, _, rfl, pre ++ [cell], by rw [hl, List.append_assoc]; rfl, ?_⟩
    rw [List.filter_append]
    split
    · rename_i hp
      rw [unlink_cell hnew, List.filter_cons_of_neg (by simp [hp]), List.filter_nil,
        List.append_nil]
    · rename_i hp
      rw [List.filter_cons_of_pos (by simp [hp]), List.filter_nil, List.append_assoc]
      rfl
  obtain ⟨s, hs, pre, hl, rfl⟩ := eachSafe_rule hstep ⟨[], rfl, rfl⟩ (Nat.lt_succ_self l.length)
  rw [List.append_nil] at hl hs
  rw [hl] at hs ⊢
  exact hs

end IvyBus.Lib
