import Mathlib

/-! Machines that keep a history: a step gives the next state and what happened,
and a run's history is what its steps did, in order. A property of each item is
told by what came before it. -/

namespace Histories

variable {σ ε α : Type*}

/-- A run's last state, and its history. -/
def run (step : σ → ε → σ × List α) (s₀ : σ) (events : List ε) : σ × List α :=
  events.foldl (fun p e => ((step p.1 e).1, p.2 ++ (step p.1 e).2)) (s₀, [])

theorem run_concat (step : σ → ε → σ × List α) (s₀ : σ) (events : List ε) (e : ε) :
    run step s₀ (events ++ [e]) =
      ((step (run step s₀ events).1 e).1, (run step s₀ events).2 ++ (step (run step s₀ events).1 e).2) := by
  simp [run]

theorem run_nil (step : σ → ε → σ × List α) (s₀ : σ) : run step s₀ [] = (s₀, []) := rfl

/-- A run goes on from where a first part of it ends. -/
theorem run_append (step : σ → ε → σ × List α) (s₀ : σ) (first rest : List ε) :
    run step s₀ (first ++ rest) =
      ((run step (run step s₀ first).1 rest).1, (run step s₀ first).2 ++ (run step (run step s₀ first).1 rest).2) := by
  induction rest using List.reverseRecOn with
  | nil => simp [run_nil]
  | append_singleton rest e ih =>
    rw [← List.append_assoc, run_concat, ih, run_concat]
    simp

/-- What holds at the start, and is kept by every step, holds of every run. -/
theorem run_inv {step : σ → ε → σ × List α} {s₀ : σ} {inv : List α → σ → Prop} (start : inv [] s₀)
    (kept : ∀ t s e, inv t s → inv (t ++ (step s e).2) (step s e).1) (events : List ε) :
    inv (run step s₀ events).2 (run step s₀ events).1 := by
  induction events using List.reverseRecOn with
  | nil => exact start
  | append_singleton events e ih =>
    rw [run_concat]
    exact kept _ _ e ih

/-- What happens at one of several places. -/
def of {ι : Type*} [DecidableEq ι] (t : List (ι × α)) (i : ι) : List α := t.filterMap fun x => if x.1 = i then some x.2 else none

theorem of_append {ι : Type*} [DecidableEq ι] (t : List (ι × α)) (i j : ι) (did : List α) :
    of (t ++ did.map fun x => (j, x)) i = of t i ++ if j = i then did else [] := by
  rw [of, List.filterMap_append, List.filterMap_map, of]
  congr 1
  split_ifs with h
  · simp [h]
  · simp [h]

/-- Each item is as `p` says, of what came before it. -/
def Each (p : List α → α → Prop) (t : List α) : Prop := ∀ before x after, t = before ++ x :: after → p before x

theorem each_nil (p : List α → α → Prop) : Each p [] := by
  intro before x after h
  simp at h

theorem Each.concat {p : List α → α → Prop} {t : List α} {x : α} (h : Each p t) (hx : p t x) : Each p (t ++ [x]) := by
  intro before y after heq
  induction after using List.reverseRecOn with
  | nil =>
    obtain ⟨rfl, hy⟩ := List.append_inj' heq rfl
    obtain rfl := (List.cons.inj hy).1
    exact hx
  | append_singleton after z _ =>
    rw [← List.cons_append, ← List.append_assoc] at heq
    exact h before y after (List.append_inj' heq rfl).1

theorem Each.left {p : List α → α → Prop} {t more : List α} (h : Each p (t ++ more)) : Each p t := by
  rintro before x after rfl
  exact h before x (after ++ more) (by simp)

theorem Each.append {p : List α → α → Prop} {t more : List α} (h : Each p t)
    (hmore : Each (fun before x => p (t ++ before) x) more) : Each p (t ++ more) := by
  induction more using List.reverseRecOn with
  | nil => rwa [List.append_nil]
  | append_singleton more x ih =>
    rw [← List.append_assoc]
    exact (ih hmore.left).concat (hmore more x [] rfl)

/-- Items that `p` says nothing of. -/
theorem Each.quiet {p : List α → α → Prop} {t more : List α} (h : Each p t) (hquiet : ∀ x ∈ more, ∀ before, p before x) :
    Each p (t ++ more) := by
  apply h.append
  rintro before x after rfl
  exact hquiet x (List.mem_append_right _ List.mem_cons_self) _

end Histories
