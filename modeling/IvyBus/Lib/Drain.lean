import Mathlib.Algebra.BigOperators.Group.Finset.Basic
import Mathlib.Logic.Hydra

namespace IvyBus.Lib

variable {ι α : Type*}

/-- The first item of a queue is handled. The items that this adds to the queues have a lower
rank. -/
def Handles (rank : α → ℕ) (q q' : ι → List α) : Prop :=
  ∃ i a rest, q i = a :: rest ∧ ∃ new : ι → List α,
    q' i = rest ++ new i ∧ (∀ j, j ≠ i → q' j = q j ++ new j) ∧ ∀ j, ∀ b ∈ new j, rank b < rank a

def ranks (rank : α → ℕ) (s : Finset ι) (q : ι → List α) : Multiset ℕ :=
  ∑ i ∈ s, ((q i).map rank : Multiset ℕ)

variable {rank : α → ℕ} {s : Finset ι} {q q' : ι → List α}

theorem mem_ranks {n : ℕ} (h : n ∈ ranks rank s q) : ∃ i, ∃ a ∈ q i, rank a = n := by
  rw [ranks, Multiset.mem_sum] at h
  obtain ⟨i, -, hi⟩ := h
  obtain ⟨a, ha, rfl⟩ := List.mem_map.mp (Multiset.mem_coe.mp hi)
  exact ⟨i, a, ha, rfl⟩

/-- The queues outside of `s` are empty; the others lose one rank and get lower ones. -/
theorem Handles.cutExpand (h : Handles rank q q') (hs : ∀ i, i ∉ s → q i = []) :
    Relation.CutExpand (· < ·) (ranks rank s q') (ranks rank s q) := by
  classical
  obtain ⟨i, a, rest, hi, new, hi', hother, hlow⟩ := h
  refine ⟨ranks rank s new, rank a, fun n hn => ?_, ?_⟩
  · obtain ⟨j, b, hb, rfl⟩ := mem_ranks hn
    exact hlow j b hb
  · have hmem : i ∈ s := by
      by_contra hnot
      rw [hs i hnot] at hi
      cases hi
    have hrest : ∑ j ∈ s.erase i, ((q' j).map rank : Multiset ℕ) =
        ∑ j ∈ s.erase i, (((q j).map rank : Multiset ℕ) + ((new j).map rank : Multiset ℕ)) := by
      apply Finset.sum_congr rfl
      intro j hj
      rw [hother j (Finset.ne_of_mem_erase hj), List.map_append, Multiset.coe_add]
    have hsplit : ∀ p : ι → List α, ranks rank s p =
        ((p i).map rank : Multiset ℕ) + ∑ j ∈ s.erase i, ((p j).map rank : Multiset ℕ) :=
      fun p => (Finset.add_sum_erase s _ hmem).symm
    rw [hsplit q', hsplit q, hsplit new, hrest, Finset.sum_add_distrib, hi, hi', List.map_append,
      List.map_cons, ← Multiset.coe_add, ← Multiset.cons_coe, ← Multiset.singleton_add]
    ac_rfl

/-- What is handled makes only items of lower ranks, so the handling ends. -/
theorem handles_acc {σ : Type*} {I : σ → Prop} {next : σ → σ → Prop} (queues : σ → ι → List α)
    (hs : ∀ x i, i ∉ s → queues x i = [])
    (hnext : ∀ x x', I x → next x x' → I x' ∧ Handles rank (queues x) (queues x')) {x : σ}
    (hx : I x) : Acc (fun x' x => next x x') x := by
  have hwf : WellFounded (Relation.CutExpand (fun m n : ℕ => m < n)) :=
    WellFounded.cutExpand Nat.lt_wfRel.wf
  induction hm : ranks rank s (queues x) using hwf.induction generalizing x with
  | _ m ih =>
    constructor
    intro x' hstep
    obtain ⟨hx', hhandles⟩ := hnext x x' hx hstep
    exact ih _ (hm ▸ hhandles.cutExpand (hs x)) hx' rfl

theorem exists_end {σ : Type*} {next : σ → σ → Prop} {x : σ} (h : Acc (fun x' x => next x x') x) :
    ∃ x', Relation.ReflTransGen next x x' ∧ ∀ x'', ¬ next x' x'' := by
  induction h with
  | intro x _ ih =>
    by_cases hend : ∃ x', next x x'
    · obtain ⟨x', hstep⟩ := hend
      obtain ⟨x'', hsteps, hx''⟩ := ih x' hstep
      exact ⟨x'', .head hstep hsteps, hx''⟩
    · exact ⟨x, .refl, fun x' hstep => hend ⟨x', hstep⟩⟩

end IvyBus.Lib
