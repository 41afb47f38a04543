import Mathlib

/-! Orders for the keys of maps, and listings of ordered maps. -/

namespace OrdMap

open Std

/-- An order read through an injective map tells what it orders apart. -/
theorem lawfulEqCmp_compareOn {K L : Type*} [Ord K] [LawfulEqOrd K] {f : L → K} (hf : Function.Injective f) :
    LawfulEqCmp (compareOn f) where
  compare_self := ReflCmp.compare_self
  eq_of_compare h := hf (LawfulEqOrd.compare_eq_iff_eq.mp h)

section Pairs

variable {A B : Type*} [Ord A] [Ord B]

/-- Pairs, by the first and then by the second. -/
instance pairOrd : Ord (A × B) := ⟨compareLex (compareOn Prod.fst) (compareOn Prod.snd)⟩

instance pairTransOrd [TransOrd A] [TransOrd B] : TransOrd (A × B) :=
  inferInstanceAs (TransCmp (compareLex (compareOn Prod.fst) (compareOn Prod.snd)))

instance pairLawfulEqOrd [LawfulEqOrd A] [LawfulEqOrd B] : LawfulEqOrd (A × B) where
  compare_self := (inferInstance : ReflCmp (compareLex (compareOn Prod.fst) (compareOn Prod.snd))).compare_self
  eq_of_compare := by
    intro a b h
    change compareLex (compareOn Prod.fst) (compareOn Prod.snd) a b = .eq at h
    simp only [compareLex, compareOn, Ordering.then_eq_eq, LawfulEqOrd.compare_eq_iff_eq] at h
    exact Prod.ext h.1 h.2

end Pairs

variable {K V : Type*} [Ord K] [TransOrd K] [LawfulEqOrd K]

theorem nodup_toList (m : ExtTreeMap K V) : m.toList.Nodup := by
  refine ExtTreeMap.distinct_keys_toList.imp ?_
  rintro a b hne rfl
  exact hne ReflCmp.compare_self

/-- A map's values, in the order of its keys. -/
def values (m : ExtTreeMap K V) : List V := m.toList.map Prod.snd

theorem mem_values {m : ExtTreeMap K V} {v : V} : v ∈ values m ↔ ∃ k : K, m[k]? = some v := by
  simp [values, ExtTreeMap.mem_toList_iff_getElem?_eq_some]

/-- The entries of a map whose keys satisfy a predicate only one key does. -/
theorem filter_toList_eq {m : ExtTreeMap K V} {p : K → Prop} [DecidablePred p] {k : K} (hk : p k)
    (h : ∀ k' ∈ m, p k' → k' = k) : m.toList.filter (fun e => p e.1) = (m[k]?.map fun v => (k, v)).toList := by
  have hmem : ∀ e, e ∈ m.toList.filter (fun e => p e.1) ↔ e ∈ (m[k]?.map fun v => (k, v)).toList := by
    rintro ⟨k', v⟩
    rw [List.mem_filter, ExtTreeMap.mem_toList_iff_getElem?_eq_some, Option.mem_toList, Option.map_eq_some_iff,
      decide_eq_true_iff]
    constructor
    · rintro ⟨hv, hp⟩
      obtain rfl := h k' (by rw [ExtTreeMap.mem_iff_isSome_getElem?, hv]; rfl) hp
      exact ⟨v, hv, rfl⟩
    · rintro ⟨v', hv, he⟩
      obtain ⟨rfl, rfl⟩ := Prod.mk.inj he
      exact ⟨hv, hk⟩
  have hnodup : (m[k]?.map fun v => (k, v)).toList.Nodup := by
    cases m[k]? <;> simp
  have hperm := (List.perm_ext_iff_of_nodup ((nodup_toList m).filter _) hnodup).mpr hmem
  cases hv : m[k]? with
  | none => simpa [hv] using hperm
  | some v => simpa [hv] using hperm

/-- What a map built by insertions holds at a key: what was inserted there last. -/
theorem getElem?_foldl_insert {α : Type*} (f : α → K) (g : α → V) (l : List α) (m : ExtTreeMap K V) (k : K) [DecidableEq K] :
    (l.foldl (fun m a => m.insert (f a) (g a)) m)[k]? = ((l.reverse.find? fun a => f a = k).map g).or m[k]? := by
  induction l using List.reverseRecOn with
  | nil => simp
  | append_singleton l a ih =>
    rw [List.foldl_concat, ExtTreeMap.getElem?_insert, ih, List.reverse_append, List.reverse_singleton, List.singleton_append,
      List.find?_cons]
    by_cases h : f a = k <;> simp [h]

/-- Where every insertion at a key inserts one value, the map holds it. -/
theorem getElem?_foldl_insert_eq {α : Type*} {f : α → K} {g : α → V} {l : List α} {k : K} {v : Option V} [DecidableEq K]
    (hone : ∀ a ∈ l, f a = k → v = some (g a)) (hsome : v.isSome = true → ∃ a ∈ l, f a = k) :
    (l.foldl (fun m a => m.insert (f a) (g a)) (∅ : ExtTreeMap K V))[k]? = v := by
  rw [getElem?_foldl_insert]
  cases hfind : l.reverse.find? fun a => f a = k with
  | none =>
    rw [List.find?_eq_none] at hfind
    cases v with
    | none => simp
    | some v =>
      obtain ⟨a, ha, hk⟩ := hsome rfl
      exact absurd (decide_eq_true hk) (hfind a (List.mem_reverse.mpr ha))
  | some a =>
    have hk : f a = k := by simpa using List.find?_some hfind
    have ha : a ∈ l := List.mem_reverse.mp (List.mem_of_find?_eq_some hfind)
    rw [hone a ha hk]
    rfl

/-- A listing of which only some entries give anything. -/
theorem flatMap_ite {α β : Type*} (p : α → Prop) [DecidablePred p] (f : α → List β) (l : List α) :
    l.flatMap (fun a => if p a then f a else []) = (l.filter p).flatMap f := by
  induction l with
  | nil => rfl
  | cons a l ih => by_cases h : p a <;> simp [h, ih]

end OrdMap
