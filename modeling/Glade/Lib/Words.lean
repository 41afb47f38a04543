import Mathlib

/-! Fixed-width words on byte lists, least or most significant byte first, and
counted runs of items read by a prefix reader. A reader answers with what it
read and the bytes that follow it. -/

namespace Words

/-- The low `w` bytes of `n`, least significant first. -/
def leBytes : ℕ → ℕ → List UInt8
  | 0, _ => []
  | w + 1, n => UInt8.ofNat n :: leBytes w (n / 256)

/-- The number little-endian bytes spell. -/
def ofLe : List UInt8 → ℕ
  | [] => 0
  | b :: bs => b.toNat + 256 * ofLe bs

/-- The low `w` bytes of `n`, most significant first. -/
def beBytes (w n : ℕ) : List UInt8 := (leBytes w n).reverse

/-- The number big-endian bytes spell. -/
def ofBe (bs : List UInt8) : ℕ := ofLe bs.reverse

@[simp] theorem length_leBytes (w n : ℕ) : (leBytes w n).length = w := by
  induction w generalizing n with
  | zero => rfl
  | succ w ih => simp [leBytes, ih]

@[simp] theorem length_beBytes (w n : ℕ) : (beBytes w n).length = w := by simp [beBytes]

theorem ofLe_leBytes (w n : ℕ) : ofLe (leBytes w n) = n % 256 ^ w := by
  induction w generalizing n with
  | zero => rw [pow_zero, Nat.mod_one]; rfl
  | succ w ih =>
    rw [leBytes, ofLe, ih, pow_succ', Nat.mod_mul]
    simp

theorem ofBe_beBytes (w n : ℕ) : ofBe (beBytes w n) = n % 256 ^ w := by
  rw [ofBe, beBytes, List.reverse_reverse, ofLe_leBytes]

theorem ofLe_lt (bs : List UInt8) : ofLe bs < 256 ^ bs.length := by
  induction bs with
  | nil => simp [ofLe]
  | cons b bs ih =>
    have hb : b.toNat < 256 := b.toNat_lt
    rw [ofLe, List.length_cons, pow_succ]
    omega

theorem leBytes_ofLe (bs : List UInt8) : leBytes bs.length (ofLe bs) = bs := by
  induction bs with
  | nil => rfl
  | cons b bs ih =>
    have hb : b.toNat < 256 := b.toNat_lt
    have hdiv : (b.toNat + 256 * ofLe bs) / 256 = ofLe bs := by omega
    have hlow : UInt8.ofNat (b.toNat + 256 * ofLe bs) = b := by
      apply UInt8.toNat_inj.mp
      rw [UInt8.toNat_ofNat']
      omega
    rw [List.length_cons, leBytes, ofLe, hdiv, ih, hlow]

theorem ofBe_lt (bs : List UInt8) : ofBe bs < 256 ^ bs.length := by
  have h := ofLe_lt bs.reverse
  rwa [List.length_reverse] at h

/-! ### Counted runs -/

variable {m : Type → Type*} [Monad m] {α : Type}

/-- Read `n` items one after another. -/
def many (item : List UInt8 → m (α × List UInt8)) : ℕ → List UInt8 → m (List α × List UInt8)
  | 0, bs => pure ([], bs)
  | n + 1, bs => do
    let (x, bs) ← item bs
    let (xs, bs) ← many item n bs
    return (x :: xs, bs)

/-- Each item of a run was read. -/
theorem many_some {α : Type} {item : List UInt8 → Option (α × List UInt8)} {n : ℕ} {bs rest : List UInt8}
    {xs : List α} (h : many item n bs = some (xs, rest)) :
    xs.length = n ∧ ∀ x ∈ xs, ∃ bs' rest', item bs' = some (x, rest') := by
  induction n generalizing bs xs with
  | zero =>
    obtain ⟨rfl, -⟩ : [] = xs ∧ bs = rest := by simpa [many] using h
    simp
  | succ n ih =>
    simp only [many, Option.bind_eq_bind, Option.bind_eq_some_iff] at h
    obtain ⟨x, hx, xs', hxs, h⟩ := h
    obtain ⟨rfl, rfl⟩ : x.1 :: xs'.1 = xs ∧ xs'.2 = rest := by simpa using h
    obtain ⟨hlen, hmem⟩ := ih hxs
    refine ⟨by rw [List.length_cons, hlen], ?_⟩
    rw [List.forall_mem_cons]
    exact ⟨⟨bs, x.2, hx⟩, hmem⟩

/-- Items that each read back in front of any bytes read back as a run. -/
theorem many_flatMap [LawfulMonad m] (item : List UInt8 → m (α × List UInt8)) (enc : α → List UInt8)
    (xs : List α) (h : ∀ x ∈ xs, ∀ rest, item (enc x ++ rest) = pure (x, rest)) (rest : List UInt8) :
    many item xs.length (xs.flatMap enc ++ rest) = pure (xs, rest) := by
  induction xs with
  | nil => rfl
  | cons x xs ih =>
    have hx := h x (by simp) (xs.flatMap enc ++ rest)
    have hxs := ih (fun y hy => h y (by simp [hy]))
    simp only [List.flatMap_cons, List.append_assoc, List.length_cons, many, hx, pure_bind, hxs]

end Words
