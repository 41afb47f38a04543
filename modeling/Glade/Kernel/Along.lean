import Glade.Kernel.History

/-! Runs with a condition on each step, and what happened along a run. -/

namespace Glade.Kernel

open Wire Node OrdMap

variable (C : Crypto)

/-- Every step of the run meets a condition on its state and its event. -/
def Along (P : State → Event → Prop) (s₀ : State) (events : List Event) : Prop :=
  ∀ before e after, events = before ++ e :: after → P (run C s₀ before) e

/-- Some step of the run met it. -/
def Happened (P : State → Event → Prop) (s₀ : State) (events : List Event) : Prop :=
  ∃ before e after, events = before ++ e :: after ∧ P (run C s₀ before) e

variable {C} {P : State → Event → Prop} {s₀ s s' : State} {events : List Event} {e : Event} {effects : List Effect}

theorem along_nil : Along C P s₀ [] := fun before e after h => by simp at h

theorem Along.cons {more : List Event} (hp : P s₀ e) (h : Along C P (step C s₀ e).1 more) : Along C P s₀ (e :: more) := by
  intro before e' after hevents
  cases before with
  | nil =>
    obtain ⟨rfl, -⟩ := List.cons.inj hevents
    exact hp
  | cons b before =>
    obtain ⟨rfl, rfl⟩ := List.cons.inj hevents
    exact h before e' after rfl

theorem Along.init (h : Along C P s₀ (events ++ [e])) : Along C P s₀ events := by
  rintro before e' after rfl
  exact h before e' (after ++ [e]) (by simp)

theorem Along.last (h : Along C P s₀ (events ++ [e])) : P (run C s₀ events) e := h events e [] rfl

theorem Along.of_append {more : List Event} (h : Along C P s₀ (events ++ more)) : Along C P s₀ events := by
  rintro before e' after rfl
  exact h before e' (after ++ more) (by simp)

theorem Along.tail {more : List Event} (h : Along C P s₀ (e :: more)) : Along C P (step C s₀ e).1 more := by
  rintro before e' after rfl
  exact h (e :: before) e' after rfl

theorem Along.append {more : List Event} (h : Along C P s₀ events) (hmore : Along C P (run C s₀ events) more) :
    Along C P s₀ (events ++ more) := by
  induction events generalizing s₀ with
  | nil => exact hmore
  | cons e events ih => exact .cons (h [] e events rfl) (ih h.tail hmore)

theorem along_of_forall (h : ∀ e ∈ events, ∀ s, P s e) : Along C P s₀ events := by
  rintro before e after rfl
  exact h e (List.mem_append_right _ List.mem_cons_self) _

/-- The steps of a run that admits an operation. -/
theorem along_admitting {n : ℕ} {v : InstanceState} {r : EvidenceReply} {p : CommitPlan} {q : PrepareRequest}
    (h : Room C n s v) (hn : n + 1 ≤ 100) (hadmitted : Admitted C n s v r p q s') (hkind : p.kind ≠ .candidate)
    (hanswer : P s (.evidenceResolved r))
    (hprepare : P ((s.answered r.query.id).staged p q) (.prepareResolved ⟨q, .prepared (attemptOf q)⟩))
    (hcommit : ∀ operation, installs C (begun ((s.answered r.query.id).staged p q) q operation)
        (.resolved (committing ((s.answered r.query.id).staged p q) q operation)) = some p →
      P (begun ((s.answered r.query.id).staged p q) q operation)
        (.resolved (committing ((s.answered r.query.id).staged p q) q operation))) :
    Along C P s (admitting C s r p q) := by
  have hroom : Room C (n + 1) ((s.answered r.query.id).staged p q) v := (h.answered r.query.id).staged p q
  refine .cons hanswer ?_
  rw [hadmitted.staged]
  refine .cons hprepare ?_
  rw [hroom.step_prepared hn hadmitted.flying]
  exact .cons (hcommit _ (hroom.installs_committing hn hadmitted.flying hkind)) along_nil

/-- The steps that lead to another operation's facts while the first write waits for its
seal. -/
theorem along_crossing {which : Stroke} {certificate : Bytes} (hsubmit : P (desk C) (.submitLocal (sketch C .first [] [])))
    (hfacts : ∀ r, P (submittedDesk C) (.evidenceResolved r))
    (hoffer : P (sealingDesk C) (.offerReplica (sketch C which certificate []))) :
    Along C P (desk C) (crossing C which certificate) := by
  have hsealing := (room_sealing C).1
  refine Along.append (.cons hsubmit ?_) ?_
  · rw [(room_submitted C).1]
    exact .cons (hfacts _) along_nil
  · rw [hsealing]
    exact .cons hoffer along_nil

theorem Happened.grow (h : Happened C P s₀ events) (e : Event) : Happened C P s₀ (events ++ [e]) := by
  obtain ⟨before, e', after, rfl, hp⟩ := h
  exact ⟨before, e', after ++ [e], by simp, hp⟩

theorem Happened.last (h : P (run C s₀ events) e) : Happened C P s₀ (events ++ [e]) := ⟨events, e, [], rfl, h⟩

/-! ### Invariants -/

/-- A retained terminal is not lost. -/
theorem Move.results_mono (h : Move C s₀ e s effects s') {id : AttemptId} (hid : id ∈ s.terminalResults) :
    id ∈ s'.terminalResults := by
  cases h with
  | unknown number =>
    rw [State.unknown]
    split <;> exact hid
  | dropped t he h hno => exact Std.ExtTreeMap.mem_insert.mpr (.inr hid)
  | installed t p v revision storage receipts startCut recovering he h hp hout hv hrevision hused =>
    exact Std.ExtTreeMap.mem_insert.mpr (.inr hid)
  | _ => exact hid

theorem Moves.results_mono (h : Moves C s₀ e s effects s') {id : AttemptId} (hid : id ∈ s.terminalResults) :
    id ∈ s'.terminalResults := by
  induction h with
  | refl s => exact hid
  | cons hm hrest ih => exact ih (hm.results_mono hid)

variable (C) in
/-- The step takes the event `e` in the state `s₀`, and if this move of it installs a
plan, that is the plan the step installs. -/
def Tells (s₀ : State) (e : Event) (s s' : State) : Prop := ∀ t p, e.terminal = some t → Ending s₀ s t →
  t.outcome.isCommitted = true → s.planOf t.attempt.binding.plan = some p → t.attempt.id ∈ s'.terminalResults →
  installs C s₀ e = some p

/-- What every move of a step preserves, the step does; a move knows which plan the
step installs. -/
theorem step_preserves {I : State → Prop} (hs : I s)
    (hmove : ∀ s₁ effects s₂, I s₁ → Move C s e s₁ effects s₂ → Tells C s e s₁ s₂ → I s₂) : I (step C s e).1 := by
  have hmoves : Moves C s e s _ _ := moves_step s e
  have hrun : ∀ {s₁ s₂ : State} {effects : List Effect}, Moves C s e s₁ effects s₂ →
      (∀ id, id ∈ s₂.terminalResults → id ∈ (step C s e).1.terminalResults) → I s₁ → I s₂ := by
    intro s₁ s₂ effects h
    induction h with
    | refl s₁ => exact fun _ h => h
    | @cons s₁ s₂ s₃ effects effects' hm hrest ih =>
      intro hfinal h
      refine ih hfinal (hmove s₁ effects s₂ h hm fun t p ht hend hcommitted hp hin => ?_)
      have hfresh := hend.fresh
      rw [hend.results] at hfresh
      rw [installs, ht, Option.bind_some, if_pos ⟨hcommitted, hfresh, hfinal _ (hrest.results_mono hin)⟩, ← hend.plan, hp]
  exact hrun hmoves (fun _ h => h) hs

/-- What a fresh state has and every move preserves in a step that meets the
condition, every run has whose steps all do. What is said of a run stays true of a
longer one. -/
theorem along_invariant {I : List Event → State → Prop} (hfresh : Fresh s₀) (hnil : I [] s₀)
    (hgrow : ∀ events e s, I events s → I (events ++ [e]) s)
    (hmove : ∀ events e s₁ effects s₂, P (run C s₀ events) e → Histories C (run C s₀ events) →
      I events (run C s₀ events) → Histories C s₁ → I (events ++ [e]) s₁ → Move C (run C s₀ events) e s₁ effects s₂ →
      Tells C (run C s₀ events) e s₁ s₂ → I (events ++ [e]) s₂)
    (halong : Along C P s₀ events) : I events (run C s₀ events) := by
  induction events using List.reverseRecOn with
  | nil => exact hnil
  | append_singleton events e ih =>
    have hI := ih halong.init
    have hist : Histories C (run C s₀ events) := (reachable_run hfresh events).histories
    rw [run_concat]
    refine (step_preserves (I := fun s => Histories C s ∧ I (events ++ [e]) s) ⟨hist, hgrow events e _ hI⟩ ?_).2
    rintro s₁ effects s₂ ⟨hist₁, h⟩ hm htells
    exact ⟨hist.move hist₁ hm, hmove events e s₁ effects s₂ halong.last hist hI hist₁ h hm htells⟩

/-! ### Effects -/

/-- What every move of a step shows of the effects it has, and no later one takes
back, the step shows of all of them. -/
theorem Moves.show_effects {I : State → Prop} {Q : State → Effect → Prop} (h : Moves C s₀ e s effects s')
    (hmove : ∀ s₁ effects s₂, I s₁ → Move C s₀ e s₁ effects s₂ → I s₂ ∧ (∀ x ∈ effects, Q s₂ x) ∧ ∀ x, Q s₁ x → Q s₂ x)
    (hs : I s) : (∀ x ∈ effects, Q s' x) ∧ ∀ x, Q s x → Q s' x := by
  induction h with
  | refl s => exact ⟨by simp, fun _ h => h⟩
  | cons hm hrest ih =>
    obtain ⟨hI, hQ, hmono⟩ := hmove _ _ _ hs hm
    obtain ⟨hrest, hkeep⟩ := ih hI
    refine ⟨fun x hx => ?_, fun x hx => hkeep x (hmono x hx)⟩
    rcases List.mem_append.mp hx with hx | hx
    · exact hkeep x (hQ x hx)
    · exact hrest x hx

/-- What the steps of a run show of their effects, the run shows of all of them. -/
theorem along_effects {I : State → Prop} {Q : State → Effect → Prop} (hI : ∀ before, before <+: events → I (run C s₀ before))
    (hmove : ∀ s e s₁ effects s₂, P s e → I s → I s₁ → Move C s e s₁ effects s₂ →
      I s₂ ∧ (∀ x ∈ effects, Q s₂ x) ∧ ∀ x, Q s₁ x → Q s₂ x)
    (halong : Along C P s₀ events) : ∀ x ∈ effectsOf C s₀ events, Q (run C s₀ events) x := by
  induction events using List.reverseRecOn with
  | nil => simp [effectsOf]
  | append_singleton events e ih =>
    have hbefore : I (run C s₀ events) := hI events (List.prefix_append _ _)
    have hstep := (moves_step (C := C) (run C s₀ events) e).show_effects
      (fun s₁ effects s₂ h₁ hm => hmove _ e s₁ effects s₂ halong.last hbefore h₁ hm) hbefore
    rw [effectsOf_concat, run_concat]
    intro x hx
    rcases List.mem_append.mp hx with hx | hx
    · exact hstep.2 x (ih (fun before h => hI before (h.trans (List.prefix_append _ _))) halong.init x hx)
    · exact hstep.1 x hx

/-! ### Accepted operations stay -/

theorem step_accepted_prefix (hist : Histories C s) (e : Event) {i : Instance} {v : InstanceState}
    (hv : s.instances[i]? = some v) : ∃ v', (step C s e).1.instances[i]? = some v' ∧ v.accepted <+: v'.accepted := by
  obtain ⟨v', hv'⟩ := step_known (C := C) hist.flight e hv
  refine ⟨v', hv', ?_⟩
  obtain ⟨w, hw, ⟨hs, -⟩ | ⟨t, p, -, -, rfl, hin, hs⟩⟩ := step_instance hist.flight e hv'
  · obtain rfl := Option.some.inj (hw.symm.trans hv)
    rw [hs.accepted]
  · obtain rfl := Option.some.inj (hw.symm.trans hv)
    obtain ⟨w', hw', hplanned⟩ := hist.planned _ p (inFlight_of_planOf hin.flying)
    obtain rfl := Option.some.inj (hw'.symm.trans hw)
    rw [hs.accepted]
    exact accepted_prefix_installed hplanned _

/-- Along a run accepted entries are neither changed nor removed. -/
theorem run_accepted_prefix (hfresh : Fresh s₀) (events more : List Event) {i : Instance} {v : InstanceState}
    (hv : (run C s₀ events).instances[i]? = some v) :
    ∃ v', (run C s₀ (events ++ more)).instances[i]? = some v' ∧ v.accepted <+: v'.accepted := by
  induction more using List.reverseRecOn with
  | nil => exact ⟨v, by rwa [List.append_nil], List.prefix_refl _⟩
  | append_singleton more e ih =>
    obtain ⟨v', hv', hprefix⟩ := ih
    have hist : Histories C (run C s₀ (events ++ more)) := (reachable_run hfresh _).histories
    obtain ⟨v'', hv'', hprefix'⟩ := step_accepted_prefix hist e hv'
    rw [← List.append_assoc, run_concat]
    exact ⟨v'', hv'', hprefix.trans hprefix'⟩

end Glade.Kernel
