import Mathlib

/-! Readers of a byte stream that take turns. A reader answers or fails, and either
way leaves the bytes it did not read. A turn that has not answered starts the next
one in a new state; where every turn takes bytes, the turns end. -/

namespace Turns

/-- What is read off a byte stream, and what is left of it. -/
structure Reading (E α : Type) where
  run : List UInt8 → Except E α × List UInt8

variable {E α β σ : Type}

namespace Reading

instance : Monad (Reading E) where
  pure a := ⟨fun bytes => (.ok a, bytes)⟩
  bind r k := ⟨fun bytes =>
    match r.run bytes with
    | (.ok a, rest) => (k a).run rest
    | (.error e, rest) => (.error e, rest)⟩

/-- Refuse, and read no further. -/
def fail (e : E) : Reading E α := ⟨fun bytes => (.error e, bytes)⟩

/-- Read `n` bytes, or all there are. -/
def exact (eof : E) (n : ℕ) : Reading E (List UInt8) :=
  ⟨fun bytes => if n ≤ bytes.length then (.ok (bytes.take n), bytes.drop n) else (.error eof, [])⟩

@[simp] theorem run_pure (a : α) (bytes : List UInt8) : (pure a : Reading E α).run bytes = (.ok a, bytes) := rfl

theorem run_exact (eof : E) (n : ℕ) (bytes : List UInt8) :
    (exact eof n).run bytes = if n ≤ bytes.length then (.ok (bytes.take n), bytes.drop n) else (.error eof, []) := rfl

@[simp] theorem run_fail (e : E) (bytes : List UInt8) : (fail e : Reading E α).run bytes = (.error e, bytes) := rfl

theorem bind_ok {r : Reading E α} {k : α → Reading E β} {bytes rest : List UInt8} {a : α} (h : r.run bytes = (.ok a, rest)) :
    (r >>= k).run bytes = (k a).run rest := by
  change (match r.run bytes with
    | (.ok a, rest) => (k a).run rest
    | (.error e, rest) => (.error e, rest)) = _
  rw [h]

theorem bind_error {r : Reading E α} {k : α → Reading E β} {bytes rest : List UInt8} {e : E}
    (h : r.run bytes = (.error e, rest)) : (r >>= k).run bytes = (.error e, rest) := by
  change (match r.run bytes with
    | (.ok a, rest) => (k a).run rest
    | (.error e, rest) => (.error e, rest)) = _
  rw [h]

/-- Bytes that are there are read. -/
theorem exact_append (eof : E) (bytes rest : List UInt8) :
    (exact eof bytes.length).run (bytes ++ rest) = (.ok bytes, rest) := by
  simp [run_exact]

/-- What is left is the end of what there was. -/
def Leaves (r : Reading E α) : Prop := ∀ bytes, (r.run bytes).2 <:+ bytes

theorem leaves_pure (a : α) : Leaves (pure a : Reading E α) := fun bytes => List.suffix_refl bytes

theorem leaves_fail (e : E) : Leaves (fail e : Reading E α) := fun bytes => List.suffix_refl bytes

theorem leaves_exact (eof : E) (n : ℕ) : Leaves (exact eof n) := by
  intro bytes
  rw [run_exact]
  split_ifs
  · exact List.drop_suffix n bytes
  · exact List.nil_suffix

theorem Leaves.bind {r : Reading E α} {k : α → Reading E β} (hr : Leaves r) (hk : ∀ a, Leaves (k a)) : Leaves (r >>= k) := by
  intro bytes
  have hleft := hr bytes
  cases h : r.run bytes with
  | mk answer rest =>
    rw [h] at hleft
    cases answer with
    | ok a =>
      rw [bind_ok h]
      exact (hk a rest).trans hleft
    | error e =>
      rw [bind_error h]
      exact hleft

theorem Leaves.ite {p : Prop} [Decidable p] {r r' : Reading E α} (hr : Leaves r) (hr' : Leaves r') :
    Leaves (if p then r else r') := by
  split_ifs
  · exact hr
  · exact hr'

/-- A reader that never fails in a way that `e` is. -/
def Never (e : E) (r : Reading E α) : Prop := ∀ bytes, (r.run bytes).1 ≠ .error e

theorem never_pure (e : E) (a : α) : Never e (pure a : Reading E α) := fun _ h => (by cases h)

theorem never_fail {e e' : E} (h : e' ≠ e) : Never e (fail e' : Reading E α) := fun _ heq => h (Except.error.inj heq)

theorem never_exact {e eof : E} (h : eof ≠ e) (n : ℕ) : Never e (exact eof n) := by
  intro bytes heq
  by_cases hn : n ≤ bytes.length
  · rw [run_exact, if_pos hn] at heq
    cases heq
  · rw [run_exact, if_neg hn] at heq
    exact h (Except.error.inj heq)

theorem Never.bind {e : E} {r : Reading E α} {k : α → Reading E β} (hr : Never e r) (hk : ∀ a, Never e (k a)) :
    Never e (r >>= k) := by
  intro bytes
  have hfirst := hr bytes
  cases h : r.run bytes with
  | mk answer rest =>
    rw [h] at hfirst
    cases answer with
    | ok a =>
      rw [bind_ok h]
      exact hk a rest
    | error e' =>
      rw [bind_error h]
      exact fun heq => hfirst (congrArg Except.error (Except.error.inj heq))

theorem Never.ite {e : E} {p : Prop} [Decidable p] {r r' : Reading E α} (hr : p → Never e r) (hr' : ¬ p → Never e r') :
    Never e (if p then r else r') := by
  split_ifs with h
  · exact hr h
  · exact hr' h

end Reading

/-- What a turn comes to. -/
inductive Turn (σ α : Type) where
  | again (s : σ)
  | done (a : α)

/-- Every turn takes bytes, and fails where there are none. -/
structure Takes (turn : σ → Reading E (Turn σ α)) : Prop where
  short : ∀ s bytes, bytes ≠ [] → ((turn s).run bytes).2.length < bytes.length
  starved : ∀ s, ∃ e, (turn s).run [] = (.error e, [])

/-- A turn that starts by reading something takes bytes. -/
theorem takes_exact {turn : σ → Reading E (Turn σ α)} {eof : E} {n : ℕ} {k : σ → List UInt8 → Reading E (Turn σ α)}
    (hn : n ≠ 0) (hturn : ∀ s, turn s = (Reading.exact eof n >>= k s)) (hk : ∀ s h, Reading.Leaves (k s h)) : Takes turn where
  short s bytes hbytes := by
    rw [hturn]
    have hpos := List.length_pos_iff.mpr hbytes
    by_cases henough : n ≤ bytes.length
    · have hread : (Reading.exact eof n).run bytes = (.ok (bytes.take n), bytes.drop n) := by
        rw [Reading.run_exact, if_pos henough]
      rw [Reading.bind_ok hread]
      have hle := (hk s (bytes.take n) (bytes.drop n)).length_le
      rw [List.length_drop] at hle
      omega
    · have hread : (Reading.exact eof n).run bytes = (.error eof, []) := by
        rw [Reading.run_exact, if_neg henough]
      rw [Reading.bind_error hread]
      exact hpos
  starved s := by
    rw [hturn]
    refine ⟨eof, Reading.bind_error ?_⟩
    rw [Reading.run_exact, if_neg (by simpa using hn)]

theorem Takes.again {turn : σ → Reading E (Turn σ α)} (h : Takes turn) {s s' : σ} {bytes rest : List UInt8}
    (hturn : (turn s).run bytes = (.ok (.again s'), rest)) : rest.length < bytes.length := by
  by_cases hbytes : bytes = []
  · obtain ⟨e, he⟩ := h.starved s
    rw [hbytes, he] at hturn
    cases hturn
  · have := h.short s bytes hbytes
    rwa [hturn] at this

/-- Take turns until one answers or fails. -/
def turns (turn : σ → Reading E (Turn σ α)) (h : Takes turn) (s : σ) (bytes : List UInt8) : Except E α × List UInt8 :=
  match hturn : (turn s).run bytes with
  | (.ok (.again s'), rest) =>
    have := h.again hturn
    turns turn h s' rest
  | (.ok (.done a), rest) => (.ok a, rest)
  | (.error e, rest) => (.error e, rest)
termination_by bytes.length

def loop (turn : σ → Reading E (Turn σ α)) (h : Takes turn) (s : σ) : Reading E α := ⟨turns turn h s⟩

section
variable {turn : σ → Reading E (Turn σ α)} {h : Takes turn} {s t : σ} {bytes rest : List UInt8}

theorem loop_again (hturn : (turn s).run bytes = (.ok (.again t), rest)) :
    (loop turn h s).run bytes = (loop turn h t).run rest := by
  change turns turn h s bytes = _
  rw [turns]
  split
  · simp_all [loop]
  · simp_all
  · simp_all

theorem loop_done {a : α} (hturn : (turn s).run bytes = (.ok (.done a), rest)) : (loop turn h s).run bytes = (.ok a, rest) := by
  change turns turn h s bytes = _
  rw [turns]
  split
  · simp_all
  · simp_all
  · simp_all

theorem loop_error {e : E} (hturn : (turn s).run bytes = (.error e, rest)) : (loop turn h s).run bytes = (.error e, rest) := by
  change turns turn h s bytes = _
  rw [turns]
  split
  · simp_all
  · simp_all
  · simp_all

/-- The states and the bytes left that turns come to. -/
inductive Reached (turn : σ → Reading E (Turn σ α)) : σ × List UInt8 → σ × List UInt8 → Prop where
  | start {first : σ × List UInt8} : Reached turn first first
  | turn {first : σ × List UInt8} {s t : σ} {bytes rest : List UInt8} (before : Reached turn first (s, bytes))
      (hturn : (turn s).run bytes = (.ok (.again t), rest)) : Reached turn first (t, rest)

/-- What is answered at the end is what is answered from any turn on. -/
theorem Reached.loop_eq {first last : σ × List UInt8} (hreached : Reached turn first last) :
    (loop turn h first.1).run first.2 = (loop turn h last.1).run last.2 := by
  induction hreached with
  | start => rfl
  | turn before hturn ih => rw [ih, loop_again hturn]

/-- Turns that never fail in a way are a reader that never does. -/
theorem loop_never {e : E} (hturn : ∀ s, Reading.Never e (turn s)) (s : σ) : Reading.Never e (loop turn h s) := by
  intro bytes
  induction hn : bytes.length using Nat.strong_induction_on generalizing s bytes with
  | _ n ih =>
    have hnever := hturn s bytes
    cases hone : (turn s).run bytes with
    | mk answer rest =>
      rw [hone] at hnever
      cases answer with
      | error e' =>
        rw [loop_error hone]
        exact fun heq => hnever (congrArg Except.error (Except.error.inj heq))
      | ok t =>
        cases t with
        | done a =>
          rw [loop_done hone]
          exact fun heq => (by cases heq)
        | again t =>
          rw [loop_again hone]
          exact ih _ (hn ▸ h.again hone) t rest rfl

end

/-- Read `k` times, one read after another. -/
def reads (read : Reading E α) : ℕ → List UInt8 → List (Except E α)
  | 0, _ => []
  | k + 1, bytes => (read.run bytes).1 :: reads read k (read.run bytes).2

theorem reads_congr {read : Reading E α} {bytes bytes' : List UInt8} (h : read.run bytes = read.run bytes') (k : ℕ) :
    reads read k bytes = reads read k bytes' := by
  cases k with
  | zero => rfl
  | succ k => rw [reads, reads, h]

/-- Answers that are read off the front of the bytes come first. -/
theorem reads_append {ι : Type} {read : Reading E α} {written : ι → List UInt8} {answer : ι → α} {xs : List ι}
    (h : ∀ x ∈ xs, ∀ rest, read.run (written x ++ rest) = (.ok (answer x), rest)) (k : ℕ) (rest : List UInt8) :
    reads read (xs.length + k) (xs.flatMap written ++ rest) = xs.map (fun x => .ok (answer x)) ++ reads read k rest := by
  induction xs with
  | nil => simp
  | cons x xs ih =>
    have hx := h x List.mem_cons_self (xs.flatMap written ++ rest)
    rw [List.length_cons, Nat.add_right_comm, reads, List.flatMap_cons, List.append_assoc, hx]
    rw [ih fun y hy => h y (List.mem_cons_of_mem _ hy)]
    rfl

end Turns
