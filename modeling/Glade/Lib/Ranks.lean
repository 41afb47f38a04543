import Mathlib

/-! The best of a list, kept as the list is read: each element takes the place of
the one kept where it wins over it. Read in any order, the one that is left is
one that nothing in the list stands above, and two lists that are covered by one
another leave elements that are told apart by nothing. -/

namespace Ranks

variable {α β : Type*}

/-- Read `xs`, keeping the element that has won so far. -/
def pick (wins : α → α → Prop) [DecidableRel wins] (xs : List α) : Option α :=
  xs.foldl (fun best x => if best.all (fun b => wins x b) then some x else best) none

/-- What stands above: nothing above itself, and what stands above neither of two
does not stand between them. -/
structure Order (above : α → α → Prop) : Prop where
  irrefl : ∀ a, ¬ above a a
  trans : ∀ a b c, ¬ above a b → ¬ above b c → ¬ above a c

/-- A rule for who wins that goes by what stands above, whichever way it breaks a tie. -/
structure Judges (above wins : α → α → Prop) : Prop where
  of_wins : ∀ x b, wins x b → ¬ above b x
  of_keeps : ∀ x b, ¬ wins x b → ¬ above x b

variable {above wins : α → α → Prop} [DecidableRel wins]

theorem pick_nil : pick wins [] = none := rfl

theorem pick_concat (xs : List α) (x : α) :
    pick wins (xs ++ [x]) = if (pick wins xs).all (fun b => wins x b) then some x else pick wins xs := by
  unfold pick
  rw [List.foldl_concat]

theorem pick_eq_none {xs : List α} : pick wins xs = none ↔ xs = [] := by
  induction xs using List.reverseRecOn with
  | nil => simp [pick_nil]
  | append_singleton xs x ih =>
    rw [pick_concat]
    cases h : pick wins xs with
    | none => simp
    | some b => by_cases hw : wins x b <;> simp [hw]

/-- Nothing stands above the one that is left. -/
theorem pick_spec (hj : Judges above wins) (ho : Order above) {xs : List α} {c : α} (h : pick wins xs = some c) :
    c ∈ xs ∧ ∀ d ∈ xs, ¬ above d c := by
  induction xs using List.reverseRecOn generalizing c with
  | nil => cases h
  | append_singleton xs x ih =>
    rw [pick_concat] at h
    cases hp : pick wins xs with
    | none =>
      rw [pick_eq_none] at hp
      subst hp
      obtain rfl : x = c := by simpa [pick_nil] using h
      simpa using ho.irrefl x
    | some b =>
      obtain ⟨hb, hbest⟩ := ih hp
      rw [hp] at h
      by_cases hw : wins x b
      · obtain rfl : x = c := by simpa [hw] using h
        refine ⟨by simp, ?_⟩
        intro d hd
        rcases List.mem_append.mp hd with hd | hd
        · exact ho.trans d b x (hbest d hd) (hj.of_wins x b hw)
        · rw [List.mem_singleton.mp hd]
          exact ho.irrefl x
      · obtain rfl : b = c := by simpa [hw] using h
        refine ⟨List.mem_append_left _ hb, ?_⟩
        intro d hd
        rcases List.mem_append.mp hd with hd | hd
        · exact hbest d hd
        · rw [List.mem_singleton.mp hd]
          exact hj.of_keeps x b hw

/-- Two lists, each of which covers the other, leave elements of one key. -/
theorem map_pick_eq (hj : Judges above wins) (ho : Order above) {key : α → β}
    (hkey : ∀ a b, ¬ above a b → ¬ above b a → key a = key b) {xs ys : List α}
    (hxs : ∀ x ∈ xs, ∃ y ∈ ys, ¬ above x y) (hys : ∀ y ∈ ys, ∃ x ∈ xs, ¬ above y x) :
    (pick wins xs).map key = (pick wins ys).map key := by
  cases hx : pick wins xs with
  | none =>
    rw [pick_eq_none] at hx
    subst hx
    have hnil : ys = [] := List.eq_nil_iff_forall_not_mem.mpr fun y hy => by simpa using hys y hy
    rw [hnil, pick_nil]
  | some c =>
    obtain ⟨hc, hbest⟩ := pick_spec hj ho hx
    cases hy : pick wins ys with
    | none =>
      rw [pick_eq_none] at hy
      subst hy
      simpa using hxs c hc
    | some d =>
      obtain ⟨hd, hbest'⟩ := pick_spec hj ho hy
      obtain ⟨y, hymem, hcy⟩ := hxs c hc
      obtain ⟨x, hxmem, hdx⟩ := hys d hd
      have hcd := ho.trans c y d hcy (hbest' y hymem)
      have hdc := ho.trans d x c hdx (hbest x hxmem)
      exact congrArg some (hkey c d hcd hdc)

end Ranks
