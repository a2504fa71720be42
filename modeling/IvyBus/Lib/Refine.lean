import IvyBus.Lib.Chain
import IvyBus.Lib.Run

namespace IvyBus.Lib

variable {σ σ' τ τ' ο α κ : Type*} {R : σ → τ → Prop} {R' : σ' → τ' → Prop}

/-! A computation that may be undefined refines another one when both are undefined or when their
results are related: `Option.Rel R`. -/

theorem rel_bind {x : Option σ} {y : Option τ} {f : σ → Option σ'} {g : τ → Option τ'}
    (h : Option.Rel R x y) (hfg : ∀ s t, R s t → Option.Rel R' (f s) (g t)) :
    Option.Rel R' (x.bind f) (y.bind g) := by
  cases h with
  | none => exact .none
  | some hst => exact hfg _ _ hst

theorem rel_map {x : Option σ} {y : Option τ} {f : σ → σ'} {g : τ → τ'}
    (h : Option.Rel R x y) (hfg : ∀ s t, R s t → R' (f s) (g t)) :
    Option.Rel R' (x.map f) (y.map g) := by
  cases h with
  | none => exact .none
  | some hst => exact .some (hfg _ _ hst)

theorem rel_bind_self {x : Option α} {f : α → Option σ'} {g : α → Option τ'}
    (hfg : ∀ a, x = some a → Option.Rel R' (f a) (g a)) :
    Option.Rel R' (x.bind f) (x.bind g) := by
  cases x with
  | none => exact .none
  | some a => exact hfg a rfl

theorem rel_of_eq_some {x : Option σ} {y : Option τ} {s : σ} {t : τ} (hx : x = some s)
    (hy : y = some t) (h : R s t) : Option.Rel R x y := by
  rw [hx, hy]
  exact .some h

theorem map_eq_of_rel {x : Option σ} {y : Option τ} {view : σ → τ}
    (h : Option.Rel R x y) (hview : ∀ s t, R s t → view s = t) : x.map view = y := by
  cases h with
  | none => rfl
  | some hst => exact congrArg some (hview _ _ hst)

theorem rel_left {x : Option σ} {y : Option τ} {s : σ} (h : Option.Rel R x y) (hx : x = some s) :
    ∃ t, y = some t ∧ R s t := by
  subst hx
  cases h with
  | some hst => exact ⟨_, rfl, hst⟩

theorem rel_right {x : Option σ} {t : τ} (h : Option.Rel R x (some t)) :
    ∃ s, x = some s ∧ R s t := by
  cases h with
  | some hst => exact ⟨_, rfl, hst⟩

theorem rel_eachSafe [DecidableEq κ] {key : α → κ} {chain : σ → List α} {chain' : τ → List α}
    {body : α → σ → Option σ} {body' : α → τ → Option τ}
    (hchain : ∀ s t, R s t → chain s = chain' t)
    (hbody : ∀ cell s t, R s t → Option.Rel R (body cell s) (body' cell t)) (fuel : Nat)
    (p : Option κ) {s : σ} {t : τ} (h : R s t) :
    Option.Rel R (eachSafe key chain body fuel p s) (eachSafe key chain' body' fuel p t) := by
  induction fuel generalizing p s t with
  | zero => exact .none
  | succ fuel ih =>
    cases p with
    | none => exact .some h
    | some p =>
      rw [eachSafe, eachSafe, hchain s t h]
      cases (chain' t).dropWhile (key · ≠ p) with
      | nil => exact .none
      | cons cell rest => exact rel_bind (hbody cell s t h) fun s t hst => ih _ hst

theorem rel_forEachSafe [DecidableEq κ] {key : α → κ} {chain : σ → List α} {chain' : τ → List α}
    {body : α → σ → Option σ} {body' : α → τ → Option τ}
    (hchain : ∀ s t, R s t → chain s = chain' t)
    (hbody : ∀ cell s t, R s t → Option.Rel R (body cell s) (body' cell t)) {s : σ} {t : τ}
    (h : R s t) :
    Option.Rel R (forEachSafe key chain body s) (forEachSafe key chain' body' t) := by
  rw [forEachSafe, forEachSafe, hchain s t h]
  exact rel_eachSafe hchain hbody _ _ h

theorem rel_run {next : σ → ο → Option σ} {next' : τ → ο → Option τ} {P : σ → ο → Prop}
    (hstep : ∀ s t o, R s t → P s o → Option.Rel R (next s o) (next' t o)) {s : σ} {t : τ}
    {os : List ο} (h : R s t) (hP : Along next P s os) :
    Option.Rel R (run next s os) (run next' t os) := by
  induction os generalizing s t with
  | nil => exact .some h
  | cons o os ih =>
    rw [run, run]
    have hrel := hstep s t o h hP.1
    cases hs : next s o with
    | none =>
      rw [hs] at hrel
      cases ht : next' t o with
      | none => exact .none
      | some t' =>
        rw [ht] at hrel
        cases hrel
    | some s' =>
      obtain ⟨t', ht, hst⟩ := rel_left hrel hs
      rw [ht]
      exact ih hst (hP.2 s' hs)

end IvyBus.Lib
