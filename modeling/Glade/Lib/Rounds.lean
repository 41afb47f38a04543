import Mathlib

/-! A step taken over and over until it changes nothing. Where the step sees of its
argument only a bounded rank, and keeps the order of ranks, the ranks rise or fall
all the way, so that two in a row are soon equal and the next step is the last. -/

namespace Rounds

variable {α : Type*} {next : α → α} {top : ℕ}

/-- Ranks that rise at first rise until two are equal. -/
theorem exists_fixed_of_le (rank : α → ℕ) (hle : ∀ x, rank x ≤ top) (hsame : ∀ x y, rank x = rank y → next x = next y)
    (hmono : ∀ x y, rank x ≤ rank y → rank (next x) ≤ rank (next y)) {x : α} (h : rank x ≤ rank (next x)) :
    ∃ k ≤ top + 1, next (next^[k] x) = next^[k] x := by
  suffices hroom : ∀ room x, rank x ≤ rank (next x) → top ≤ rank x + room →
      ∃ k ≤ room + 1, next (next^[k] x) = next^[k] x from hroom top x h (Nat.le_add_left top _)
  intro room
  induction room with
  | zero =>
    -- The rank is the highest there is, and so is the next.
    intro x h hroom
    have heq : rank x = rank (next x) := le_antisymm h ((hle _).trans hroom)
    exact ⟨1, le_rfl, (hsame x (next x) heq).symm⟩
  | succ room ih =>
    intro x h hroom
    rcases h.eq_or_lt with heq | hlt
    · exact ⟨1, by omega, (hsame x (next x) heq).symm⟩
    · obtain ⟨k, hk, hfixed⟩ := ih (next x) (hmono x (next x) h) (by omega)
      exact ⟨k + 1, by omega, hfixed⟩

/-- From anywhere the rounds come to an end, in a number the ranks bound. -/
theorem exists_fixed (rank : α → ℕ) (hle : ∀ x, rank x ≤ top) (hsame : ∀ x y, rank x = rank y → next x = next y)
    (hmono : ∀ x y, rank x ≤ rank y → rank (next x) ≤ rank (next y)) (x : α) :
    ∃ k ≤ top + 1, next (next^[k] x) = next^[k] x := by
  rcases le_total (rank x) (rank (next x)) with h | h
  · exact exists_fixed_of_le rank hle hsame hmono h
  · -- Ranks that fall are ranks that rise, counted from the top.
    apply exists_fixed_of_le (fun x => top - rank x)
    · exact fun x => Nat.sub_le _ _
    · intro x y hxy
      have hx := hle x
      have hy := hle y
      exact hsame x y (by omega)
    · intro x y hxy
      have hx := hle x
      have hy := hle y
      exact Nat.sub_le_sub_left (hmono y x (by omega)) top
    · exact Nat.sub_le_sub_left h top

end Rounds
