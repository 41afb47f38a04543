import Mathlib

/-! Closing a set of keys by passes over a list. An item joins the set when it is
ready, which may depend on what joined before; a pass that adds nothing is the
last. With a pass for every item and one more the result is closed, and nothing
joins it that some rule did not let in. -/

namespace Passes

open Std

theorem nodup_toList {K : Type*} [Ord K] [TransOrd K] (set : ExtTreeSet K) : set.toList.Nodup := by
  refine ExtTreeSet.distinct_toList.imp ?_
  rintro a b hne rfl
  exact hne ReflCmp.compare_self

variable {A K : Type*} [Ord K] [TransOrd K] (key : A → K) (ready : ExtTreeSet K → A → Prop)
  [∀ set, DecidablePred (ready set)]

/-- One item looked at. -/
def visit (set : ExtTreeSet K) (a : A) : ExtTreeSet K := if ready set a then set.insert (key a) else set

/-- Passes over the list, until one adds nothing. -/
def close (l : List A) : ℕ → ExtTreeSet K → ExtTreeSet K
  | 0, set => set
  | fuel + 1, set =>
    let next := l.foldl (visit key ready) set
    if next.size = set.size then next else close l fuel next

variable {key ready}

theorem mem_visit {set : ExtTreeSet K} {a : A} {k : K} (h : k ∈ set) : k ∈ visit key ready set a := by
  rw [visit]
  split_ifs
  · exact ExtTreeSet.mem_insert.mpr (.inr h)
  · exact h

theorem mem_foldl_visit {l : List A} {set : ExtTreeSet K} {k : K} (h : k ∈ set) : k ∈ l.foldl (visit key ready) set := by
  induction l generalizing set with
  | nil => exact h
  | cons a l ih => exact ih (mem_visit h)

variable [LawfulEqOrd K]

/-- What holds of every item a rule lets in holds of the whole set. -/
theorem foldl_visit_induct {P : K → Prop} {l : List A} {set : ExtTreeSet K} (hset : ∀ k ∈ set, P k)
    (hready : ∀ set : ExtTreeSet K, (∀ k ∈ set, P k) → ∀ a ∈ l, ready set a → P (key a)) :
    ∀ k ∈ l.foldl (visit key ready) set, P k := by
  induction l generalizing set with
  | nil => exact hset
  | cons a l ih =>
    refine ih ?_ fun set hset b hb => hready set hset b (List.mem_cons_of_mem a hb)
    intro k hk
    rw [visit] at hk
    split_ifs at hk with ha
    · rcases ExtTreeSet.mem_insert.mp hk with hk | hk
      · rw [← LawfulEqOrd.eq_of_compare hk]
        exact hready set hset a (by simp) ha
      · exact hset k hk
    · exact hset k hk

theorem close_induct {P : K → Prop} {l : List A} {fuel : ℕ} {set : ExtTreeSet K} (hset : ∀ k ∈ set, P k)
    (hready : ∀ set : ExtTreeSet K, (∀ k ∈ set, P k) → ∀ a ∈ l, ready set a → P (key a)) :
    ∀ k ∈ close key ready l fuel set, P k := by
  induction fuel generalizing set with
  | zero => exact hset
  | succ fuel ih =>
    have hnext := foldl_visit_induct hset hready
    rw [close]
    split_ifs
    · exact hnext
    · exact ih hnext

/-- Two sets of one size, one inside the other, are equal. -/
theorem eq_of_subset_of_size {set next : ExtTreeSet K} (h : ∀ k ∈ set, k ∈ next) (hsize : next.size = set.size) :
    next = set := by
  have hsub : set.toList ⊆ next.toList := fun k hk => ExtTreeSet.mem_toList.mpr (h k (ExtTreeSet.mem_toList.mp hk))
  have hperm := (List.subperm_of_subset (nodup_toList set) hsub).perm_of_length_le
    (by rw [ExtTreeSet.length_toList, ExtTreeSet.length_toList, hsize])
  refine ExtTreeSet.ext_mem fun k => ?_
  rw [← ExtTreeSet.mem_toList, ← ExtTreeSet.mem_toList]
  exact hperm.symm.mem_iff

/-- A pass that leaves the set as it was found no item ready outside it. -/
theorem closed_of_foldl_visit {l : List A} {set : ExtTreeSet K} (h : l.foldl (visit key ready) set = set) :
    ∀ a ∈ l, ready set a → key a ∈ set := by
  induction l with
  | nil => simp
  | cons a l ih =>
    rw [List.foldl_cons] at h
    have hfirst : visit key ready set a = set := by
      refine ExtTreeSet.ext_mem fun k => ⟨fun hk => ?_, mem_visit⟩
      rw [← h]
      exact mem_foldl_visit hk
    rw [hfirst] at h
    intro b hb hready
    rcases List.mem_cons.mp hb with rfl | hb
    · rw [← hfirst, visit, if_pos hready]
      exact ExtTreeSet.mem_insert_self
    · exact ih h b hb hready

/-- With more passes left than items outside the set, the result is closed. -/
theorem close_closed {l : List A} {fuel : ℕ} {set : ExtTreeSet K} (hset : ∀ k ∈ set, ∃ a ∈ l, key a = k)
    (hfuel : l.length < fuel + set.size) :
    ∀ a ∈ l, ready (close key ready l fuel set) a → key a ∈ close key ready l fuel set := by
  induction fuel generalizing set with
  | zero =>
    have hsub : set.toList ⊆ l.map key := fun k hk => List.mem_map.mpr (hset k (ExtTreeSet.mem_toList.mp hk))
    have hle := (List.subperm_of_subset (nodup_toList set) hsub).length_le
    rw [ExtTreeSet.length_toList, List.length_map] at hle
    omega
  | succ fuel ih =>
    have hgrows : ∀ k ∈ set, k ∈ l.foldl (visit key ready) set := fun k hk => mem_foldl_visit hk
    rw [close]
    split_ifs with hsize
    · have heq := eq_of_subset_of_size hgrows hsize
      rw [heq]
      exact closed_of_foldl_visit heq
    · refine ih (foldl_visit_induct hset fun set _ a ha _ => ⟨a, ha, rfl⟩) ?_
      have hle : set.size ≤ (l.foldl (visit key ready) set).size := by
        rw [← ExtTreeSet.length_toList, ← ExtTreeSet.length_toList]
        refine (List.subperm_of_subset (nodup_toList set) fun k hk => ?_).length_le
        exact ExtTreeSet.mem_toList.mpr (hgrows k (ExtTreeSet.mem_toList.mp hk))
      omega

end Passes
