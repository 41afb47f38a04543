import Mathlib

/-! Things held at many places, a list at each, counted over all of them: what the
places hold in all, and how a change at one place changes it. -/

namespace Tallies

variable {ι α : Type*}

/-- The places that hold anything. -/
def places (held : ι → List α) : Set ι := {i | held i ≠ []}

/-- A change at one place leaves finitely many that hold anything. -/
theorem places_finite {held held' : ι → List α} (hfin : (places held).Finite) (i : ι) (hsame : ∀ j, j ≠ i → held' j = held j) :
    (places held').Finite := by
  apply (hfin.insert i).subset
  intro j hj
  by_cases hji : j = i
  · exact .inl hji
  · right
    intro hnil
    apply hj
    rw [hsame j hji, hnil]

variable [BEq α]

/-- How often `x` is held, at all places together. -/
noncomputable def tally (held : ι → List α) (x : α) : ℕ := finsum fun i => (held i).count x

theorem tally_eq_sum {held : ι → List α} {s : Finset ι} (h : places held ⊆ s) (x : α) :
    tally held x = ∑ i ∈ s, (held i).count x := by
  unfold tally
  apply finsum_eq_sum_of_support_subset
  intro i hi
  apply h
  intro hnil
  rw [Function.mem_support, hnil] at hi
  exact hi rfl

/-- A change at one place changes the tally by what was and is held there. -/
theorem tally_change {held held' : ι → List α} (hfin : (places held).Finite) (i : ι) (hsame : ∀ j, j ≠ i → held' j = held j)
    (x : α) : tally held' x + (held i).count x = tally held x + (held' i).count x := by
  classical
  have hleft : places held ⊆ (insert i hfin.toFinset : Finset ι) := by
    intro j hj
    simp only [Finset.coe_insert, Set.Finite.coe_toFinset]
    exact .inr hj
  have hright : places held' ⊆ (insert i hfin.toFinset : Finset ι) := by
    intro j hj
    simp only [Finset.coe_insert, Set.Finite.coe_toFinset]
    by_cases hji : j = i
    · exact .inl hji
    · right
      intro hnil
      apply hj
      rw [hsame j hji, hnil]
  rw [tally_eq_sum hleft, tally_eq_sum hright]
  have h := Finset.add_sum_erase _ (fun j => (held j).count x) (Finset.mem_insert_self i hfin.toFinset)
  have h' := Finset.add_sum_erase _ (fun j => (held' j).count x) (Finset.mem_insert_self i hfin.toFinset)
  have hrest : ∑ j ∈ (insert i hfin.toFinset).erase i, (held' j).count x =
      ∑ j ∈ (insert i hfin.toFinset).erase i, (held j).count x := by
    apply Finset.sum_congr rfl
    intro j hj
    rw [hsame j (Finset.ne_of_mem_erase hj)]
  omega

variable [LawfulBEq α]

theorem tally_eq_zero {held : ι → List α} {x : α} (h : ∀ i, x ∉ held i) : tally held x = 0 := by
  unfold tally
  apply finsum_eq_zero_of_forall_eq_zero
  intro i
  exact List.count_eq_zero.mpr (h i)

end Tallies
