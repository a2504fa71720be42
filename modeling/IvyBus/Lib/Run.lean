namespace IvyBus.Lib

universe u v w x

variable {σ : Type u} {ο : Type v} (next : σ → ο → Option σ)

/-- The state after a run; `none` when some step of it has no defined result. -/
def run : σ → List ο → Option σ
  | s, [] => some s
  | s, o :: os => (next s o).bind fun s' => run s' os

/-- `P` holds at every step of a run, as far as its steps are defined. -/
def Along (P : σ → ο → Prop) : σ → List ο → Prop
  | _, [] => True
  | s, o :: os => P s o ∧ ∀ s', next s o = some s' → Along P s' os

variable {next} {P Q : σ → ο → Prop} {I : σ → Prop}

theorem along_of_forall (h : ∀ s o, P s o) (s : σ) (os : List ο) : Along next P s os := by
  induction os generalizing s with
  | nil => trivial
  | cons o os ih => exact ⟨h s o, fun s' _ => ih s'⟩

theorem along_cons {s s' : σ} {o : ο} (hs' : next s o = some s') (os : List ο) :
    Along next P s (o :: os) ↔ P s o ∧ Along next P s' os := by
  refine and_congr_right fun _ => ⟨fun h => h s' hs', fun h t ht => ?_⟩
  rwa [← Option.some.inj (hs'.symm.trans ht)]

instance Along.decidable [∀ s o, Decidable (P s o)] :
    (s : σ) → (os : List ο) → Decidable (Along next P s os)
  | _, [] => .isTrue trivial
  | s, o :: os =>
    match hs' : next s o with
    | none =>
      decidable_of_iff (P s o) ⟨fun hp => ⟨hp, fun _ ht => nomatch hs'.symm.trans ht⟩, And.left⟩
    | some s' =>
      have := Along.decidable s' os
      decidable_of_iff _ (along_cons hs' os).symm

/-- Two step properties that agree in the states of an invariant, one of them keeping
it, hold along the same runs. -/
theorem along_iff (hiff : ∀ s o, I s → (P s o ↔ Q s o))
    (hinv : ∀ s o s', I s → Q s o → next s o = some s' → I s') {s : σ} (hs : I s)
    (os : List ο) : Along next P s os ↔ Along next Q s os := by
  induction os generalizing s with
  | nil => exact Iff.rfl
  | cons o os ih =>
    simp only [Along, hiff s o hs]
    constructor
    · rintro ⟨hq, hrest⟩
      exact ⟨hq, fun s' hs' => (ih (hinv s o s' hs hq hs')).mp (hrest s' hs')⟩
    · rintro ⟨hq, hrest⟩
      exact ⟨hq, fun s' hs' => (ih (hinv s o s' hs hq hs')).mpr (hrest s' hs')⟩

theorem along_congr {R : σ → ο → Prop} (hiff : ∀ s o, I s → R s o → (P s o ↔ Q s o))
    (hinv : ∀ s o s', I s → R s o → next s o = some s' → I s') {s : σ} (hs : I s) {os : List ο}
    (hR : Along next R s os) : Along next P s os ↔ Along next Q s os := by
  induction os generalizing s with
  | nil => exact Iff.rfl
  | cons o os ih =>
    exact and_congr (hiff s o hs hR.1) <| forall_congr' fun s' => forall_congr' fun hs' =>
      ih (hinv s o s' hs hR.1 hs') (hR.2 s' hs')

theorem preserved_unless {b : Prop} [Decidable b] {x : Option σ} {s s' : σ} (hs : I s)
    (hs' : (if b then some s else x) = some s') (hx : ¬ b → x = some s' → I s') : I s' := by
  split at hs'
  · exact Option.some.inj hs' ▸ hs
  · rename_i hb
    exact hx hb hs'

theorem preserved_when {b : Prop} [Decidable b] {x : Option σ} {s s' : σ} (hs : I s)
    (hs' : (if b then x else some s) = some s') (hx : b → x = some s' → I s') : I s' := by
  split at hs'
  · rename_i hb
    exact hx hb hs'
  · exact Option.some.inj hs' ▸ hs

theorem run_invariant (hinv : ∀ s o s', I s → Q s o → next s o = some s' → I s')
    {s s' : σ} {os : List ο} (hs : I s) (hq : Along next Q s os)
    (hrun : run next s os = some s') : I s' := by
  induction os generalizing s with
  | nil => exact Option.some.inj hrun ▸ hs
  | cons o os ih =>
    obtain ⟨t, ht, hrest⟩ := Option.bind_eq_some_iff.mp hrun
    exact ih (hinv s o t hs hq.1 ht) (hq.2 t ht) hrest

/-- An invariant that every step keeps, and what it tells about a step. -/
theorem along_invariant (hinv : ∀ s o s', I s → next s o = some s' → I s')
    (hP : ∀ s o, I s → P s o) {s : σ} (hs : I s) (os : List ο) :
    Along next P s os ∧ ∀ s', run next s os = some s' → I s' := by
  induction os generalizing s with
  | nil => exact ⟨trivial, fun s' hrun => Option.some.inj hrun ▸ hs⟩
  | cons o os ih =>
    refine ⟨⟨hP s o hs, fun t ht => (ih (hinv s o t hs ht)).1⟩, fun s' hrun => ?_⟩
    obtain ⟨t, ht, hrest⟩ := Option.bind_eq_some_iff.mp hrun
    exact (ih (hinv s o t hs ht)).2 s' hrest

theorem run_defined (hstep : ∀ s o, I s → Q s o → ∃ s', next s o = some s' ∧ I s') {s : σ}
    {os : List ο} (hs : I s) (hq : Along next Q s os) : ∃ s', run next s os = some s' ∧ I s' := by
  induction os generalizing s with
  | nil => exact ⟨s, rfl, hs⟩
  | cons o os ih =>
    obtain ⟨t, ht, hinv⟩ := hstep s o hs hq.1
    obtain ⟨s', hrun, hend⟩ := ih hinv (hq.2 t ht)
    refine ⟨s', ?_, hend⟩
    rw [run, ht]
    exact hrun

theorem run_append (s : σ) (os os' : List ο) :
    run next s (os ++ os') = (run next s os).bind fun t => run next t os' := by
  induction os generalizing s with
  | nil => rfl
  | cons o os ih =>
    rw [List.cons_append, run, run, Option.bind_assoc]
    exact congrArg _ (funext ih)

theorem along_append {s : σ} {os os' : List ο} (h : Along next P s os)
    (h' : ∀ t, run next s os = some t → Along next P t os') : Along next P s (os ++ os') := by
  induction os generalizing s with
  | nil => exact h' s rfl
  | cons o os ih =>
    refine ⟨h.1, fun t ht => ih (h.2 t ht) fun u hu => h' u ?_⟩
    rw [run, ht]
    exact hu

theorem run_map {τ : Type w} {next' : τ → ο → Option τ} (view : σ → τ)
    (hstep : ∀ s o, (next s o).map view = next' (view s) o) (s : σ) (os : List ο) :
    (run next s os).map view = run next' (view s) os := by
  induction os generalizing s with
  | nil => rfl
  | cons o os ih =>
    rw [run, run, Option.map_bind, ← hstep, Option.bind_map]
    exact congrArg _ (funext ih)

end IvyBus.Lib
