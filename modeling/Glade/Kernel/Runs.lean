import Glade.Kernel.Moves

/-! Runs of the kernel from a fresh state, and what holds along every one. -/

namespace Glade.Kernel

open Wire Node OrdMap

variable (C : Crypto)

/-- The state after a run of events. -/
def run (s : State) (events : List Event) : State := events.foldl (fun s e => (step C s e).1) s

/-- What a run of events asks for. -/
def effectsOf (s : State) : List Event → List Effect
  | [] => []
  | e :: events => (step C s e).2 ++ effectsOf (step C s e).1 events

/-- A state that nothing was offered to: no operation, candidate, fork or floor in
its instances, and no query, plan or attempt. -/
structure Fresh (s : State) : Prop where
  accepted : ∀ (i : Instance) (v : InstanceState), s.instances[i]? = some v → v.accepted = []
  candidates : ∀ (i : Instance) (v : InstanceState), s.instances[i]? = some v → v.candidates = []
  forks : ∀ (i : Instance) (v : InstanceState), s.instances[i]? = some v → v.qualifiedForks = []
  quarantine : ∀ (i : Instance) (v : InstanceState), s.instances[i]? = some v → v.quarantine = ∅
  queries : s.queries = ∅
  commits : s.commits = ∅
  unknownCommits : s.unknownCommits = ∅
  lookups : s.lookups = ∅
  attempts : s.attempts = ∅
  preparing : s.preparing = ∅
  storageInvocations : s.storageInvocations = ∅
  retiredStorageInvocations : s.retiredStorageInvocations = ∅
  terminalResults : s.terminalResults = ∅
  terminalConflicts : s.terminalConflicts = ∅

/-- A state some run from a fresh one leaves. -/
def Reachable (s : State) : Prop := ∃ s₀ events, Fresh s₀ ∧ s = run C s₀ events

/-- An instance nothing was offered to, under a policy read at a time. -/
def InstanceState.opened (d : Descriptor) (storage : StorageClass) (policy : Bytes) (time : TimeInterval) : InstanceState :=
  { descriptor := d, revision := 0, storage, accepted := [], candidates := [], securityEvidence := [],
    qualifiedForks := [], canonicalOrigins := ∅, heads := ∅, pending := [], quarantine := ∅, policy,
    recoveryIncomplete := false, storageIntegrityFailed := false, timeFloorMs := time.earliestMs, policyTime := time,
    used := ⟨0, 0, 0, 0⟩ }

/-- A session of storage that serves one instance. -/
def State.opened (v : InstanceState) (owner : Owner) (limits : Limits) (plans invocations : Digest) : State :=
  { instances := (∅ : Std.ExtTreeMap Instance InstanceState).insert v.descriptor.inst v, queries := ∅, commits := ∅,
    unknownCommits := ∅, lookups := ∅, storageOwner := some owner, storageLimits := some limits, planNamespace := plans,
    invocationNamespace := invocations, attempts := ∅, preparing := ∅, storageInvocations := ∅,
    retiredStorageInvocations := ∅, terminalResults := ∅, terminalConflicts := ∅, nextEffectId := 0 }

variable {C}

theorem instances_opened {d : Descriptor} {storage : StorageClass} {policy : Bytes} {time : TimeInterval} {owner : Owner}
    {limits : Limits} {plans invocations : Digest} {i : Instance} {v : InstanceState}
    (h : (State.opened (.opened d storage policy time) owner limits plans invocations).instances[i]? = some v) :
    v = .opened d storage policy time := by
  rw [State.opened, Std.ExtTreeMap.getElem?_insert] at h
  split_ifs at h
  · exact (Option.some.inj h).symm
  · simp at h

theorem fresh_opened (d : Descriptor) (storage : StorageClass) (policy : Bytes) (time : TimeInterval) (owner : Owner)
    (limits : Limits) (plans invocations : Digest) :
    Fresh (State.opened (.opened d storage policy time) owner limits plans invocations) where
  accepted i v h := by rw [instances_opened h]; rfl
  candidates i v h := by rw [instances_opened h]; rfl
  forks i v h := by rw [instances_opened h]; rfl
  quarantine i v h := by rw [instances_opened h]; rfl
  queries := rfl
  commits := rfl
  unknownCommits := rfl
  lookups := rfl
  attempts := rfl
  preparing := rfl
  storageInvocations := rfl
  retiredStorageInvocations := rfl
  terminalResults := rfl
  terminalConflicts := rfl

/-! ### A small session -/

/-- The descriptor of a text that is admitted independently. -/
def draft (C : Crypto) : Descriptor :=
  { inst := { descriptor := C.sha256 [], incarnation := "draft" }, canonical := [], creationRoot := C.sha256 [],
    resource := "text", share := "s", gladeId := "g", key := [], engine := "crdt.oracle/v1",
    payloadProfile := "text_crdt.profile/v1", admissionProfile := "glade.crdt.independent-admission/v1",
    authorizationProfile := "bounded-offline-permit/v1", mode := .independent,
    bounds :=
      { maxOperationBytes := 2 ^ 20, maxOrigins := 1024, maxRefs := 8, editBytes := 2 ^ 40, recoveryBytes := 2 ^ 40,
        evidenceBytes := 2 ^ 40, pendingBytes := 2 ^ 40, pendingItems := 1024 } }

/-- What a session that serves it may hold. -/
def deskLimits : Limits :=
  { instances := 1, attempts := 1024, invocationHistory := 1024, maxBatchBytes := 2 ^ 40, maxReceipts := 8, maxWindows := 8,
    maxNameBytes := 64, criticalBytes := 2 ^ 60, criticalPerAttempt := 2 ^ 42 }

/-- A session that serves the text and was offered nothing. -/
def desk (C : Crypto) : State :=
  .opened (.opened (draft C) .volatileTest [] { earliestMs := 0, latestMs := 0 })
    { store := C.sha256 [], generation := 0 } deskLimits (C.sha256 []) (C.sha256 [])

theorem fresh_desk (C : Crypto) : Fresh (desk C) := fresh_opened ..

/-! ### Runs -/

@[simp] theorem run_nil (s : State) : run C s [] = s := rfl

/-- A run goes on from where a first part of it ends. -/
theorem run_append (s : State) (events more : List Event) : run C s (events ++ more) = run C (run C s events) more :=
  List.foldl_append

theorem run_concat (s : State) (events : List Event) (e : Event) :
    run C s (events ++ [e]) = (step C (run C s events) e).1 := by
  rw [run, List.foldl_concat]
  rfl

theorem effectsOf_append (s : State) (events more : List Event) :
    effectsOf C s (events ++ more) = effectsOf C s events ++ effectsOf C (run C s events) more := by
  induction events generalizing s with
  | nil => rfl
  | cons e events ih =>
    rw [List.cons_append, effectsOf, ih, effectsOf, List.append_assoc]
    rfl

theorem effectsOf_concat (s : State) (events : List Event) (e : Event) :
    effectsOf C s (events ++ [e]) = effectsOf C s events ++ (step C (run C s events) e).2 := by
  rw [effectsOf_append, effectsOf, effectsOf, List.append_nil]

/-- What every move of a step preserves, the step does. -/
theorem Moves.preserves {P : State → Prop} {s₀ s s' : State} {e : Event} {effects : List Effect}
    (h : Moves C s₀ e s effects s') (hmove : ∀ s effects s', P s → Move C s₀ e s effects s' → P s') (hs : P s) : P s' := by
  induction h with
  | refl s => exact hs
  | cons hm hrest ih => exact ih (hmove _ _ _ hs hm)

/-- What a fresh state has and every move preserves, every reachable state has. -/
theorem Reachable.invariant {P : State → Prop} (hfresh : ∀ s, Fresh s → P s)
    (hmove : ∀ s₀ e s effects s', P s₀ → P s → Move C s₀ e s effects s' → P s') {s : State} (h : Reachable C s) : P s := by
  obtain ⟨s₀, events, hs₀, rfl⟩ := h
  induction events using List.reverseRecOn with
  | nil => exact hfresh s₀ hs₀
  | append_singleton events e ih =>
    rw [run_concat]
    exact (moves_step (run C s₀ events) e).preserves (fun s effects s' => hmove _ e s effects s' ih) ih

/-! ### Numbers -/

/-- Every number in use was issued. -/
structure Numbered (s : State) : Prop where
  queries : ∀ (k : ℕ) (p : PendingVerification), s.queries[k]? = some p → p.query.id = k ∧ k < s.nextEffectId
  commits : ∀ (k : ℕ) (p : CommitPlan), s.commits[k]? = some p → p.id = k ∧ k < s.nextEffectId
  unknownCommits : ∀ (k : ℕ) (p : CommitPlan), s.unknownCommits[k]? = some p → p.id = k ∧ k < s.nextEffectId
  invocations : ∀ (id : InvocationId) (i : StorageInvocation), s.storageInvocations[id]? = some i → id.number < s.nextEffectId
  retired : ∀ (id : InvocationId) (i : StorageInvocation), s.retiredStorageInvocations[id]? = some i → id.number < s.nextEffectId
  lookups : ∀ (k : ℕ) (q : ResolveRequest), s.lookups[k]? = some q → k < s.nextEffectId

theorem Fresh.numbered {s : State} (h : Fresh s) : Numbered s := by
  constructor <;> simp [h.queries, h.commits, h.unknownCommits, h.storageInvocations, h.retiredStorageInvocations,
    h.lookups]

theorem Numbered.move {s₀ s s' : State} {e : Event} {effects : List Effect} (hn : Numbered s)
    (h : Move C s₀ e s effects s') : Numbered s' := by
  obtain ⟨hq, hc, hu, hi, hr, hl⟩ := hn
  cases h with
  | silent effect h => exact ⟨hq, hc, hu, hi, hr, hl⟩
  | receipt i v a hv ha effect h => exact ⟨hq, hc, hu, hi, hr, hl⟩
  | touch i f hf => exact ⟨hq, hc, hu, hi, hr, hl⟩
  | skip => constructor <;> grind
  | verify c v mode hv hnew hform hmode => constructor <;> grind [State.queried, queryOf]
  | answered p verdict he hp => constructor <;> grind [State.answered]
  | sealing v p f cut h hv => constructor <;> grind [State.queried, sealOf]
  | stage v p q hv hidle hidle₀ hid hrevision hj hv₀ hb hinv => constructor <;> grind [State.staged]
  | recover q hinv => constructor <;> grind [State.asked]
  | inspect q hop hinv => constructor <;> grind [State.asked]
  | fence q hop hinv => constructor <;> grind [State.asked]
  | begin b v hop hinst hinv hv hv₀ hcurrent hcut => constructor <;> grind [State.asked]
  | retire id issued h => constructor <;> grind [State.retire]
  | forget number => constructor <;> grind
  | prepared request a hfits => exact ⟨hq, hc, hu, hi, hr, hl⟩
  | unknown number => constructor <;> grind [State.unknown]
  | started key cut hopen => exact ⟨hq, hc, hu, hi, hr, hl⟩
  | conflict t => exact ⟨hq, hc, hu, hi, hr, hl⟩
  | dropped t he h hno => constructor <;> grind [State.ended]
  | installed t p v revision storage receipts startCut recovering he h hp hout hv hrevision hused =>
    constructor <;> grind [State.ended, State.modify]

/-! ### Plans in flight -/

/-- A plan that has no terminal yet, under its number. -/
def InFlight (s : State) (n : ℕ) (p : CommitPlan) : Prop := s.commits[n]? = some p ∨ s.unknownCommits[n]? = some p

theorem plans_eq_nil {s : State} {i : Instance} : s.plans i = [] ↔ ∀ n p, InFlight s n p → p.inst ≠ i := by
  rw [State.plans, List.filter_eq_nil_iff]
  constructor
  · rintro h n p (hp | hp)
    · simpa using h p (List.mem_append_left _ (mem_values.mpr ⟨n, hp⟩))
    · simpa using h p (List.mem_append_right _ (mem_values.mpr ⟨n, hp⟩))
  · intro h p hp
    rcases List.mem_append.mp hp with hp | hp
    · obtain ⟨n, hp⟩ := mem_values.mp hp
      simpa using h n p (.inl hp)
    · obtain ⟨n, hp⟩ := mem_values.mp hp
      simpa using h n p (.inr hp)

theorem inFlight_of_planOf {s : State} {key : PlanKey} {p : CommitPlan} (h : s.planOf key = some p) :
    InFlight s key.number p := by
  rw [State.planOf, Option.or_eq_some_iff] at h
  exact h.imp_right fun h => h.2

/-- What is in flight, and that each instance has at most one plan of the kind, of
the revision it is at. -/
structure Flight (s : State) : Prop where
  numbered : Numbered s
  disjoint : ∀ (n : ℕ) (p q : CommitPlan), s.commits[n]? = some p → s.unknownCommits[n]? = some q → False
  single : ∀ m n p q, InFlight s m p → InFlight s n q → p.inst = q.inst → m = n
  known : ∀ n p, InFlight s n p → ∃ v, s.instances[p.inst]? = some v ∧ p.expectedRevision = v.revision

theorem Fresh.flight {s : State} (h : Fresh s) : Flight s := by
  refine ⟨h.numbered, ?_, ?_, ?_⟩ <;> simp [InFlight, h.commits, h.unknownCommits]

/-- A plan in flight after another is staged. -/
theorem inFlight_staged {s : State} {p : CommitPlan} {q : PrepareRequest} {n : ℕ} {p' : CommitPlan}
    (h : InFlight (s.staged p q) n p') : (n = p.id ∧ p' = p) ∨ InFlight s n p' := by
  rcases h with h | h
  · rw [State.staged, Std.ExtTreeMap.getElem?_insert] at h
    split_ifs at h with hn
    · exact .inl ⟨(Std.LawfulEqOrd.eq_of_compare hn).symm, (Option.some.inj h).symm⟩
    · exact .inr (.inl h)
  · exact .inr (.inr h)

theorem Flight.unknown {s : State} (hf : Flight s) {number n : ℕ} {p : CommitPlan} :
    InFlight (s.unknown number) n p ↔ InFlight s n p := by
  rw [State.unknown]
  cases hp : s.commits[number]? with
  | none => rfl
  | some p' =>
    obtain ⟨hid, -⟩ := hf.numbered.commits number p' hp
    simp only [InFlight, hid, Std.ExtTreeMap.getElem?_erase, Std.ExtTreeMap.getElem?_insert,
      Std.LawfulEqOrd.compare_eq_iff_eq]
    by_cases hn : number = n
    · subst hn
      simp only [if_true, hp, reduceCtorEq, false_or]
      exact ⟨.inl, fun h => h.resolve_right fun hu => hf.disjoint number p' p hp hu⟩
    · simp only [hn, if_false]

theorem Flight.numbered_of_inFlight {s : State} (hf : Flight s) {n : ℕ} {p : CommitPlan} (h : InFlight s n p) :
    p.id = n ∧ n < s.nextEffectId := by
  rcases h with h | h
  · exact hf.numbered.commits n p h
  · exact hf.numbered.unknownCommits n p h

theorem Flight.planOf_of_inFlight {s : State} (hf : Flight s) {key : PlanKey} {p : CommitPlan}
    (h : InFlight s key.number p) : s.planOf key = some p := by
  rw [State.planOf, Option.or_eq_some_iff]
  rcases h with h | h
  · exact .inl h
  · refine .inr ⟨?_, h⟩
    cases hp : s.commits[key.number]? with
    | none => rfl
    | some q => exact (hf.disjoint key.number q p hp h).elim

theorem inFlight_ended {s : State} {t : Terminal} {n : ℕ} {p : CommitPlan} :
    InFlight (s.ended t) n p ↔ n ≠ t.attempt.binding.plan.number ∧ InFlight s n p := by
  simp only [InFlight, State.ended, Std.ExtTreeMap.getElem?_erase, Std.LawfulEqOrd.compare_eq_iff_eq]
  by_cases hn : t.attempt.binding.plan.number = n
  · simp [hn]
  · simp [hn, Ne.symm hn]

theorem ended_disjoint {s : State} (hf : Flight s) {t : Terminal} {n : ℕ} {p q : CommitPlan}
    (hp : (s.ended t).commits[n]? = some p) (hq : (s.ended t).unknownCommits[n]? = some q) : False := by
  simp only [State.ended, Std.ExtTreeMap.getElem?_erase] at hp hq
  split_ifs at hp hq
  exact hf.disjoint n p q hp hq

theorem instances_modify (s : State) (i j : Instance) (f : InstanceState → InstanceState) :
    (s.modify i f).instances[j]? = if i = j then s.instances[j]?.map f else s.instances[j]? := by
  rw [State.modify, Std.ExtTreeMap.getElem?_modify]
  simp only [Std.LawfulEqOrd.compare_eq_iff_eq]
  split_ifs with h
  · rw [h]
  · rfl

/-- Every plan in flight was, and its instance is at its revision. -/
theorem Flight.of_subset {s s' : State} (hf : Flight s) (hn : Numbered s')
    (hdisjoint : ∀ (n : ℕ) (p q : CommitPlan), s'.commits[n]? = some p → s'.unknownCommits[n]? = some q → False)
    (hsub : ∀ n p, InFlight s' n p → InFlight s n p)
    (hrevision : ∀ n p v, InFlight s' n p → s.instances[p.inst]? = some v →
      ∃ v', s'.instances[p.inst]? = some v' ∧ v'.revision = v.revision) : Flight s' := by
  refine ⟨hn, hdisjoint, fun m n p q hp hq => hf.single m n p q (hsub m p hp) (hsub n q hq), fun n p hp => ?_⟩
  obtain ⟨v, hv, hr⟩ := hf.known n p (hsub n p hp)
  obtain ⟨v', hv', hr'⟩ := hrevision n p v hp hv
  exact ⟨v', hv', hr.trans hr'.symm⟩

/-- What a move that keeps the plans and the instances keeps. -/
theorem Flight.same {s s' : State} (hf : Flight s) (hn : Numbered s') (hc : s'.commits = s.commits)
    (hu : s'.unknownCommits = s.unknownCommits) (hi : s'.instances = s.instances) : Flight s' := by
  refine hf.of_subset hn (by rw [hc, hu]; exact hf.disjoint) (fun n p hp => ?_) (fun n p v _ hv => ⟨v, hi ▸ hv, rfl⟩)
  rwa [InFlight, hc, hu] at hp

theorem Flight.move {s₀ s s' : State} {e : Event} {effects : List Effect} (hf : Flight s)
    (h : Move C s₀ e s effects s') : Flight s' := by
  have hn := hf.numbered.move h
  cases h with
  | touch i f hcustody =>
    refine hf.of_subset hn hf.disjoint (fun _ _ hp => hp) fun n p v _ hv => ?_
    rw [instances_modify]
    split_ifs
    · exact ⟨f v, by rw [hv]; rfl, (hcustody v).revision⟩
    · exact ⟨v, hv, rfl⟩
  | stage v p q hv hidle hidle₀ hid hrevision hj hv₀ hb hinv =>
    have hidle' := plans_eq_nil.mp hidle
    have hlt : ∀ n p', InFlight s n p' → n < s.nextEffectId := fun n p' h => (hf.numbered_of_inFlight h).2
    refine ⟨hn, fun n p₁ p₂ h₁ h₂ => ?_, fun m n p₁ p₂ h₁ h₂ hinst => ?_, fun n p₁ h₁ => ?_⟩
    · rcases inFlight_staged (.inl h₁) with ⟨rfl, -⟩ | h₁'
      · have := hlt p.id p₂ (.inr h₂)
        omega
      · rw [State.staged, Std.ExtTreeMap.getElem?_insert, if_neg] at h₁
        · exact hf.disjoint n p₁ p₂ h₁ h₂
        · intro hn
          have := hlt n p₁ h₁'
          have := Std.LawfulEqOrd.eq_of_compare hn
          omega
    · rcases inFlight_staged h₁ with ⟨hm, hp₁⟩ | h₁' <;> rcases inFlight_staged h₂ with ⟨hn', hp₂⟩ | h₂'
      · rw [hm, hn']
      · exact absurd (hinst.symm.trans (by rw [hp₁])) (hidle' n p₂ h₂')
      · exact absurd (hinst.trans (by rw [hp₂])) (hidle' m p₁ h₁')
      · exact hf.single m n p₁ p₂ h₁' h₂' hinst
    · rcases inFlight_staged h₁ with ⟨-, rfl⟩ | h₁'
      · exact ⟨v, hv, hrevision⟩
      · exact hf.known n p₁ h₁'
  | unknown number =>
    refine hf.of_subset hn (fun n p q hp hq => ?_) (fun n p hp => hf.unknown.mp hp) fun n p v _ hv => ⟨v, ?_, rfl⟩
    · rw [State.unknown] at hp hq
      cases hnumber : s.commits[number]? with
      | none =>
        rw [hnumber] at hp hq
        exact hf.disjoint n p q hp hq
      | some moved =>
        rw [hnumber] at hp hq
        obtain ⟨hid, -⟩ := hf.numbered.commits number moved hnumber
        simp only [Std.ExtTreeMap.getElem?_erase, Std.ExtTreeMap.getElem?_insert, Std.LawfulEqOrd.compare_eq_iff_eq,
          hid] at hp hq
        by_cases hn : number = n
        · rw [if_pos hn] at hp
          cases hp
        · rw [if_neg hn] at hp hq
          exact hf.disjoint n p q hp hq
    · rw [State.unknown]
      split <;> exact hv
  | dropped t he h hno =>
    exact hf.of_subset hn (fun n p q => ended_disjoint hf) (fun n p hp => (inFlight_ended.mp hp).2)
      fun n p v _ hv => ⟨v, hv, rfl⟩
  | installed t p v revision storage receipts startCut recovering he h hp hout hv hrevision hused =>
    refine hf.of_subset hn (fun n p q => ended_disjoint hf) (fun n p hp => (inFlight_ended.mp hp).2) ?_
    intro n p' v' hp' hv'
    obtain ⟨hne, hflight⟩ := inFlight_ended.mp hp'
    rw [instances_modify, if_neg]
    · exact ⟨v', hv', rfl⟩
    · exact fun hinst => hne (hf.single n _ p' p hflight (inFlight_of_planOf hp) hinst.symm)
  | silent effect h => exact hf.same hn rfl rfl rfl
  | receipt i v a hv ha effect h => exact hf.same hn rfl rfl rfl
  | skip => exact hf.same hn rfl rfl rfl
  | verify c v mode hv hnew hform hmode => exact hf.same hn rfl rfl rfl
  | answered p verdict he hp => exact hf.same hn rfl rfl rfl
  | sealing v p f cut h hv => exact hf.same hn rfl rfl rfl
  | recover q hinv => exact hf.same hn rfl rfl rfl
  | inspect q hop hinv => exact hf.same hn rfl rfl rfl
  | fence q hop hinv => exact hf.same hn rfl rfl rfl
  | begin b v hop hinst hinv hv hv₀ hcurrent hcut => exact hf.same hn rfl rfl rfl
  | retire id issued h => exact hf.same hn rfl rfl rfl
  | forget number => exact hf.same hn rfl rfl rfl
  | prepared request a hfits => exact hf.same hn rfl rfl rfl
  | started key cut hopen => exact hf.same hn rfl rfl rfl
  | conflict t => exact hf.same hn rfl rfl rfl

end Glade.Kernel
