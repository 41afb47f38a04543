import Mathlib

/-! Hash-linked logs: each item stands one position past its predecessor and
may name its predecessor's hash. A log starts at any item, at an item of a given
position, or right above a floor, the position and hash a folded prefix ended
at. Every lemma is over arbitrary items and hashes. -/

namespace LinkedLog

variable {α H : Type*}

/-- How items are placed and linked. `names x h` says that what `x` says of its
predecessor's hash, if anything, is `h`. -/
structure Linking (α H : Type*) where
  seq : α → ℤ
  hash : α → H
  names : α → H → Prop

namespace Linking

variable (L : Linking α H)

/-- The position and hash a log ends at with `x`. -/
def tip (x : α) : ℤ × H := (L.seq x, L.hash x)

/-- Whether `x` may follow a log that ends at `t`. -/
def Follows (t : ℤ × H) (x : α) : Prop := L.seq x = t.1 + 1 ∧ L.names x t.2

/-- A log whose first item is one `first` allows, each other item following the
one before it. -/
def Chain (first : α → Prop) : List α → Prop
  | [] => True
  | x :: xs => first x ∧ Chain (L.Follows (L.tip x)) xs

/-- Where a log ends: at its last item, or where it started. -/
def endOf (start : Option (ℤ × H)) (xs : List α) : Option (ℤ × H) := (xs.getLast?.map L.tip).or start

/-- Which items may be added at the end of `xs`. -/
def Next (first : α → Prop) (xs : List α) (y : α) : Prop :=
  match xs.getLast? with
  | none => first y
  | some x => L.Follows (L.tip x) y

/-- The items above position `base`. -/
def above (base : ℤ) (xs : List α) : List α := xs.filter (fun x => base < L.seq x)

end Linking

open Linking

variable {L : Linking α H} {first : α → Prop} {xs ys : List α} {x y : α}

@[simp] theorem chain_nil : L.Chain first [] := trivial

@[simp] theorem next_nil : L.Next first [] y ↔ first y := Iff.rfl

theorem next_cons : L.Next first (x :: xs) y ↔ L.Next (L.Follows (L.tip x)) xs y := by
  rw [Next, Next, List.getLast?_cons]
  cases xs.getLast? <;> rfl

theorem next_concat : L.Next first (xs ++ [x]) y ↔ L.Follows (L.tip x) y := by
  rw [Next, List.getLast?_concat]

/-- A log grows by an item that may be added at its end. -/
theorem chain_concat : L.Chain first (xs ++ [y]) ↔ L.Chain first xs ∧ L.Next first xs y := by
  induction xs generalizing first with
  | nil => simp [Chain]
  | cons x xs ih => rw [List.cons_append, Chain, Chain, ih, next_cons, and_assoc]

theorem chain_append_left (h : L.Chain first (xs ++ ys)) : L.Chain first xs := by
  induction xs generalizing first with
  | nil => trivial
  | cons x xs ih => exact ⟨h.1, ih h.2⟩

theorem Linking.Chain.mono {first' : α → Prop} (h : L.Chain first xs) (hf : ∀ x, first x → first' x) :
    L.Chain first' xs := by
  cases xs with
  | nil => trivial
  | cons x xs => exact ⟨hf x h.1, h.2⟩

theorem Linking.Next.mono {first' : α → Prop} (h : L.Next first xs y) (hf : first y → first' y) :
    L.Next first' xs y := by
  unfold Linking.Next at h ⊢
  split
  case h_1 hnone => exact hf (by simpa [hnone] using h)
  case h_2 x hx => simpa [hx] using h

/-- Items stand above the position their log starts from. -/
theorem lt_seq_of_chain_follows {t : ℤ × H} (h : L.Chain (L.Follows t) xs) : ∀ x ∈ xs, t.1 < L.seq x := by
  induction xs generalizing t with
  | nil => simp
  | cons x xs ih =>
    have hx : L.seq x = t.1 + 1 := h.1.1
    rw [List.forall_mem_cons]
    refine ⟨by omega, fun y hy => ?_⟩
    have : L.seq x < L.seq y := ih h.2 y hy
    omega

/-- Positions only grow along a log. -/
theorem pairwise_seq (h : L.Chain first xs) : xs.Pairwise (fun x y => L.seq x < L.seq y) := by
  induction xs generalizing first with
  | nil => exact List.Pairwise.nil
  | cons x xs ih => exact List.Pairwise.cons (lt_seq_of_chain_follows h.2) (ih h.2)

/-- Each item but the first follows the one before it. -/
theorem follows_getElem (h : L.Chain first xs) (i : ℕ) (hi : i + 1 < xs.length) :
    L.Follows (L.tip xs[i]) xs[i + 1] := by
  induction xs generalizing first i with
  | nil => exact absurd hi (by simp)
  | cons x xs ih =>
    cases i with
    | zero =>
      cases xs with
      | nil => exact absurd hi (by simp)
      | cons y ys => exact h.2.1
    | succ i => exact ih h.2 i (by simpa using hi)

theorem first_of_head? (h : L.Chain first xs) (hx : xs.head? = some x) : first x := by
  cases xs with
  | nil => simp at hx
  | cons y ys =>
    obtain rfl : y = x := by simpa using hx
    exact h.1

theorem nodup_map_seq (h : L.Chain first xs) : (xs.map L.seq).Nodup := by
  rw [List.nodup_iff_pairwise_ne, List.pairwise_map]
  exact (pairwise_seq h).imp fun hlt => hlt.ne

/-- A log holds one item at most at a position. -/
theorem eq_of_seq_eq (h : L.Chain first xs) (hx : x ∈ xs) (hy : y ∈ xs) (he : L.seq x = L.seq y) : x = y :=
  List.inj_on_of_nodup_map (nodup_map_seq h) hx hy he

/-- No item stands past the last one. -/
theorem seq_le_getLast (h : L.Chain first xs) (hl : xs.getLast? = some y) : ∀ x ∈ xs, L.seq x ≤ L.seq y := by
  obtain ⟨ws, rfl⟩ := List.getLast?_eq_some_iff.mp hl
  have hp := (List.pairwise_append.mp (pairwise_seq h)).2.2
  intro x hx
  rcases List.mem_append.mp hx with hx | hx
  · exact (hp x hx y (by simp)).le
  · rw [List.mem_singleton.mp hx]

/-- A log carries on with a log whose first item may be added at its end. -/
theorem chain_append (h : L.Chain first xs) (h' : L.Chain (fun y => L.Next first xs y) ys) : L.Chain first (xs ++ ys) := by
  induction xs generalizing first with
  | nil => exact h'
  | cons x xs ih =>
    refine ⟨h.1, ih h.2 ?_⟩
    exact h'.mono fun y hy => next_cons.mp hy

/-- What may be added at the end of a log follows where the log ends. -/
theorem next_of_endOf (start : Option (ℤ × H)) {t : ℤ × H} (hend : L.endOf start xs = some t)
    (hfirst : ∀ y, start = some t → L.Follows t y → first y) (hy : L.Follows t y) : L.Next first xs y := by
  unfold Linking.endOf at hend
  unfold Linking.Next
  cases hlast : xs.getLast? with
  | none =>
    rw [hlast] at hend
    exact hfirst y (by simpa using hend) hy
  | some x =>
    rw [hlast] at hend
    obtain rfl : L.tip x = t := by simpa using hend
    exact hy

/-! ### Folding at a floor -/

theorem above_eq_self {base : ℤ} (h : ∀ x ∈ xs, base < L.seq x) : L.above base xs = xs :=
  List.filter_eq_self.mpr fun x hx => by simpa using h x hx

theorem mem_above {base : ℤ} : x ∈ L.above base xs ↔ x ∈ xs ∧ base < L.seq x := by
  simp [above]

theorem above_concat {base : ℤ} (h : base < L.seq y) : L.above base (xs ++ [y]) = L.above base xs ++ [y] := by
  simp [above, h]

/-- The part of a log above a position is a log, and its first item is the whole log's
or follows an item at or below the position. -/
theorem chain_above_position {base : ℤ} (h : L.Chain first xs) :
    L.Chain (fun y => base < L.seq y ∧
      (first y ∧ xs.head? = some y ∨ ∃ z ∈ xs, L.seq z ≤ base ∧ L.Follows (L.tip z) y)) (L.above base xs) := by
  induction xs generalizing first with
  | nil => trivial
  | cons x xs ih =>
    by_cases hx : base < L.seq x
    · have hall : ∀ y ∈ x :: xs, base < L.seq y := by
        rw [List.forall_mem_cons]
        exact ⟨hx, fun y hy => lt_trans hx (lt_seq_of_chain_follows h.2 y hy)⟩
      rw [above_eq_self hall]
      exact ⟨⟨hx, .inl ⟨h.1, rfl⟩⟩, h.2⟩
    · have hskip : L.above base (x :: xs) = L.above base xs := by simp [above, hx]
      rw [hskip]
      refine (ih h.2).mono ?_
      rintro y ⟨hy, ⟨hfollows, -⟩ | ⟨z, hz, hle, hfollows⟩⟩
      · exact ⟨hy, .inr ⟨x, by simp, not_lt.mp hx, hfollows⟩⟩
      · exact ⟨hy, .inr ⟨z, by simp [hz], hle, hfollows⟩⟩

/-- What a log holds above a floor is a log that starts right above it, when the
log starts no higher and its item at the base, if held, hashes to the floor. -/
theorem chain_above {floor : ℤ × H} (h : L.Chain first xs) (hbase : ∀ x ∈ xs, L.seq x = floor.1 → L.hash x = floor.2)
    (hstart : ∀ x, first x → L.seq x ≤ floor.1 ∨ L.Follows floor x) : L.Chain (L.Follows floor) (L.above floor.1 xs) := by
  induction xs generalizing first with
  | nil => trivial
  | cons x xs ih =>
    by_cases hx : floor.1 < L.seq x
    · have hall : ∀ y ∈ x :: xs, floor.1 < L.seq y := by
        rw [List.forall_mem_cons]
        exact ⟨hx, fun y hy => lt_trans hx (lt_seq_of_chain_follows h.2 y hy)⟩
      rw [above_eq_self hall]
      exact ⟨(hstart x h.1).resolve_left (not_le.mpr hx), h.2⟩
    · rw [above, List.filter_cons_of_neg (by simpa using hx)]
      refine ih h.2 (fun y hy => hbase y (by simp [hy])) (fun y hy => ?_)
      have hseq : L.seq y = L.seq x + 1 := hy.1
      by_cases hat : L.seq x = floor.1
      · refine .inr ⟨by omega, ?_⟩
        rw [← hbase x (by simp) hat]
        exact hy.2
      · exact .inl (by omega)

end LinkedLog
