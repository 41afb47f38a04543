import Glade.Lib.OrdMap

/-! Folds that keep the newest: of a list, the element of the highest stamp; of a
map, under each key, the newest of the elements put there. Where no two elements
share a stamp, what is kept depends on the elements alone and not on the order or
the number of times they come in. -/

namespace Stamped

section Lists

variable {α σ : Type*} {stamp : α → σ} {l l' : List α}

/-- No two elements share a stamp. -/
def Apart (stamp : α → σ) (l : List α) : Prop := ∀ a ∈ l, ∀ b ∈ l, stamp a = stamp b → a = b

theorem Apart.sublist (h : Apart stamp l) (hsub : ∀ a ∈ l', a ∈ l) : Apart stamp l' :=
  fun a ha b hb => h a (hsub a ha) b (hsub b hb)

variable [LinearOrder σ]

/-- What a slot holds once `a` has come: `a`, if it was empty or held a lower stamp. -/
def keep (stamp : α → σ) : Option α → α → α
  | none, a => a
  | some held, a => if stamp held < stamp a then a else held

theorem foldl_keep (l : List α) : l.foldl (fun slot a => some (keep stamp slot a)) none = l.argmax stamp := by
  induction l using List.reverseRecOn with
  | nil => rfl
  | append_singleton l a ih =>
    rw [List.foldl_concat, ih, List.argmax_concat]
    cases l.argmax stamp with
    | none => rfl
    | some held =>
      change some (if stamp held < stamp a then a else held) = if stamp held < stamp a then some a else some held
      split_ifs <;> rfl

/-- The newest of elements with stamps of their own is the one no other is above. -/
theorem Apart.argmax_eq_some (h : Apart stamp l) {m : α} :
    l.argmax stamp = some m ↔ m ∈ l ∧ ∀ a ∈ l, stamp a ≤ stamp m := by
  constructor
  · intro hm
    exact ⟨List.argmax_mem hm, fun a ha => List.le_of_mem_argmax ha hm⟩
  · rintro ⟨hm, hle⟩
    cases hn : l.argmax stamp with
    | none =>
      rw [List.argmax_eq_none] at hn
      simp [hn] at hm
    | some n =>
      have hmn := List.le_of_mem_argmax hm hn
      have hnm := hle n (List.argmax_mem hn)
      rw [h n (List.argmax_mem hn) m hm (le_antisymm hnm hmn)]

/-- It depends on which elements there are, and on nothing else. -/
theorem Apart.argmax_congr (h : Apart stamp l) (hmem : ∀ a, a ∈ l ↔ a ∈ l') : l.argmax stamp = l'.argmax stamp := by
  have h' : Apart stamp l' := h.sublist fun a ha => (hmem a).mpr ha
  refine Option.ext fun m => ?_
  rw [h.argmax_eq_some, h'.argmax_eq_some, hmem]
  simp only [hmem]

/-- An element above all others is the newest. -/
theorem argmax_concat_of_lt {a : α} (h : ∀ b ∈ l, stamp b < stamp a) : (l ++ [a]).argmax stamp = some a := by
  rw [List.argmax_concat]
  cases hm : l.argmax stamp with
  | none => rfl
  | some m => exact if_pos (h m (List.argmax_mem hm))

end Lists

section Maps

open Std

variable {K V α σ : Type*} [Ord K] [TransOrd K] [LawfulEqOrd K] [DecidableEq K] [LinearOrder σ]

/-- Each element of a list, in turn, put under its key. -/
def byKey (key : α → K) (put : Option V → α → V) (l : List α) : ExtTreeMap K V :=
  l.foldl (fun m a => m.insert (key a) (put m[key a]? a)) ∅

/-- Under a key is what the elements of that key made. -/
theorem getElem?_byKey (key : α → K) (put : Option V → α → V) (l : List α) (k : K) :
    (byKey key put l)[k]? = (l.filter (fun a => key a = k)).foldl (fun slot a => some (put slot a)) none := by
  unfold byKey
  induction l using List.reverseRecOn with
  | nil => simp
  | append_singleton l a ih =>
    rw [List.foldl_concat, List.filter_append, List.foldl_append, ← ih, ExtTreeMap.getElem?_insert]
    by_cases h : key a = k <;> simp [h]

/-- Put `a` under `k`, unless a stamp as high holds it. -/
def put (stamp : α → σ) (m : ExtTreeMap K α) (k : K) (a : α) : ExtTreeMap K α :=
  match m[k]? with
  | none => m.insert k a
  | some held => if stamp held < stamp a then m.insert k a else m

omit [DecidableEq K] in
theorem put_eq_insert (stamp : α → σ) (m : ExtTreeMap K α) (k : K) (a : α) :
    put stamp m k a = m.insert k (keep stamp m[k]? a) := by
  unfold put
  cases h : m[k]? with
  | none => rfl
  | some held =>
    unfold keep
    dsimp only
    split_ifs
    · rfl
    · refine ExtTreeMap.ext_getElem? fun k' => ?_
      rw [ExtTreeMap.getElem?_insert]
      split_ifs with hk
      · rw [← LawfulEqOrd.compare_eq_iff_eq.mp hk, h]
      · rfl

/-- Putting each value under its key keeps the newest of each key. -/
theorem getElem?_foldl_put {β : Type*} (stamp : α → σ) (key : β → K) (val : β → α) (l : List β) (k : K) :
    (l.foldl (fun m b => put stamp m (key b) (val b)) ∅)[k]? =
      ((l.filter (fun b => key b = k)).map val).argmax stamp := by
  have h : l.foldl (fun m b => put stamp m (key b) (val b)) ∅ =
      byKey key (fun slot b => keep stamp slot (val b)) l := by
    unfold byKey
    congr 1
    funext m b
    exact put_eq_insert stamp m (key b) (val b)
  rw [h, getElem?_byKey, ← foldl_keep, List.foldl_map]

/-- A slot that starts from a default on its first element. -/
theorem foldl_getD (put : V → α → V) (d : V) (l : List α) :
    l.foldl (fun slot a => some (put (slot.getD d) a)) none = if l = [] then none else some (l.foldl put d) := by
  induction l using List.reverseRecOn with
  | nil => rfl
  | append_singleton l a ih =>
    rw [List.foldl_concat, List.foldl_concat, ih]
    by_cases h : l = []
    · rw [h]
      rfl
    · rw [if_neg h, if_neg (by simp)]
      rfl

end Maps

end Stamped
