import Glade.Kernel.Runs

/-! Which plan a step installs. A step ends at most one attempt, and apart from the
plan it installs it leaves every instance in the custody it had. -/

namespace Glade.Kernel

open Wire Node OrdMap

variable (C : Crypto)

/-- The plan a step installs: the one of the attempt whose first terminal the event
brings, if that is a commit. -/
def installs (s : State) (e : Event) : Option CommitPlan := e.terminal.bind fun t =>
  if t.outcome.isCommitted = true ∧ t.attempt.id ∉ s.terminalResults ∧ t.attempt.id ∈ (step C s e).1.terminalResults then
    s.planOf t.attempt.binding.plan
  else none

/-- The plans a run of events installs, in order. -/
def installsOf (s : State) : List Event → List CommitPlan
  | [] => []
  | e :: events => (installs C s e).toList ++ installsOf (step C s e).1 events

/-- What a move that ends no attempt keeps. -/
structure Keeps (s s' : State) : Prop where
  results : s'.terminalResults = s.terminalResults
  custody : ∀ i : Instance, Option.Rel SameCustody s.instances[i]? s'.instances[i]?
  plans : ∀ n p, InFlight s n p → InFlight s' n p
  taken : ∀ n p, InFlight s' n p → InFlight s n p ∨ s.nextEffectId ≤ n
  next : s.nextEffectId ≤ s'.nextEffectId

/-- A move that ends an attempt. -/
inductive Ends (s₀ : State) (e : Event) : State → State → Prop where
  | dropped (s : State) (t : Terminal) (he : e.terminal = some t) (h : Ending s₀ s t)
      (hno : t.outcome.isCommitted = false) : Ends s₀ e s (s.ended t)
  | installed (s : State) (t : Terminal) (p : CommitPlan) (v : InstanceState) (revision : ℕ) (he : e.terminal = some t)
      (h : Ending s₀ s t) (hp : s.planOf t.attempt.binding.plan = some p) (hout : t.outcome.isCommitted = true)
      (hv : s.instances[p.inst]? = some v) (hrevision : revision = v.revision + 1)
      (hexpected : p.expectedRevision = v.revision) (hused : (v.used.add p.charges).isSome) :
      Ends s₀ e s ((s.ended t).modify p.inst fun v => installed C v p revision)

variable {C} {s₀ s s' s'' : State} {e : Event} {effects : List Effect}

theorem SameCustody.refl (v : InstanceState) : SameCustody v v := ⟨rfl, rfl, rfl, rfl, rfl, rfl, rfl, rfl, rfl, id, id⟩

theorem SameCustody.trans {v v' v'' : InstanceState} (h : SameCustody v v') (h' : SameCustody v' v'') :
    SameCustody v v'' :=
  ⟨h'.descriptor.trans h.descriptor, h'.revision.trans h.revision, h'.storage.trans h.storage,
    h'.accepted.trans h.accepted, h'.qualifiedForks.trans h.qualifiedForks, h'.canonicalOrigins.trans h.canonicalOrigins,
    h'.quarantine.trans h.quarantine, h'.used.trans h.used, h'.candidates.trans h.candidates, h'.failed ∘ h.failed,
    h'.incomplete ∘ h.incomplete⟩

theorem custody_refl (o : Option InstanceState) : Option.Rel SameCustody o o := by
  cases o with
  | none => exact .none
  | some v => exact .some (.refl v)

theorem custody_trans {o o' o'' : Option InstanceState} (h : Option.Rel SameCustody o o')
    (h' : Option.Rel SameCustody o' o'') : Option.Rel SameCustody o o'' := by
  cases h with
  | none => exact h'
  | some h =>
    cases h' with
    | some h' => exact .some (h.trans h')

/-- Every instance after a change that keeps its custody. -/
theorem custody_modify {f : InstanceState → InstanceState} (hf : ∀ v, SameCustody v (f v)) (s : State) (i j : Instance) :
    Option.Rel SameCustody s.instances[j]? (s.modify i f).instances[j]? := by
  rw [instances_modify]
  split_ifs
  · cases s.instances[j]? with
    | none => exact .none
    | some v => exact .some (hf v)
  · exact custody_refl _

theorem Keeps.refl (s : State) : Keeps s s := ⟨rfl, fun _ => custody_refl _, fun _ _ h => h, fun _ _ h => .inl h, le_rfl⟩

theorem Keeps.trans (h : Keeps s s') (h' : Keeps s' s'') : Keeps s s'' :=
  ⟨h'.results.trans h.results, fun i => custody_trans (h.custody i) (h'.custody i),
    fun n p hp => h'.plans n p (h.plans n p hp),
    fun n p hp => (h'.taken n p hp).elim (h.taken n p) fun hn => .inr (h.next.trans hn), h.next.trans h'.next⟩

/-- A move that touches neither the instances, nor the plans, nor the terminals. -/
theorem Keeps.same (hi : s'.instances = s.instances) (hc : s'.commits = s.commits)
    (hu : s'.unknownCommits = s.unknownCommits) (ht : s'.terminalResults = s.terminalResults)
    (hn : s.nextEffectId ≤ s'.nextEffectId) : Keeps s s' := by
  have hflight : ∀ n p, InFlight s' n p ↔ InFlight s n p := fun n p => by rw [InFlight, hc, hu, InFlight]
  exact ⟨ht, fun i => hi ▸ custody_refl _, fun n p hp => (hflight n p).mpr hp, fun n p hp => .inl ((hflight n p).mp hp), hn⟩

/-- A move ends an attempt, or keeps what is there. -/
theorem Move.keeps_or_ends (hf : Flight s) (h : Move C s₀ e s effects s') : Keeps s s' ∨ Ends C s₀ e s s' := by
  cases h with
  | touch i f hcustody =>
    exact .inl ⟨rfl, custody_modify hcustody s i, fun n p hp => hp, fun n p hp => .inl hp, le_rfl⟩
  | stage v p q hv hidle hidle₀ hid hrevision hj hv₀ hb hinv =>
    refine .inl ⟨rfl, fun i => custody_refl _, fun n p' hp' => ?_, fun n p' hp' => ?_, Nat.le_add_right ..⟩
    · rcases hp' with hp' | hp'
      · have := (hf.numbered.commits n p' hp').2
        left
        rw [State.staged, Std.ExtTreeMap.getElem?_insert, if_neg]
        · exact hp'
        · rw [Std.LawfulEqOrd.compare_eq_iff_eq]
          omega
      · exact .inr hp'
    · rcases inFlight_staged hp' with ⟨rfl, -⟩ | hp'
      · exact .inr hid.ge
      · exact .inl hp'
  | unknown number =>
    refine .inl ⟨?_, fun i => ?_, fun n p hp => hf.unknown.mpr hp, fun n p hp => .inl (hf.unknown.mp hp), ?_⟩
    · rw [State.unknown]
      split <;> rfl
    · rw [State.unknown]
      split <;> exact custody_refl _
    · rw [State.unknown]
      split <;> exact le_rfl
  | dropped t he h hno => exact .inr (.dropped s t he h hno)
  | installed t p v revision storage receipts startCut recovering he h hp hout hv hrevision hused =>
    have hvalid := h.valid
    have hbound := h.bound p hp
    simp only [TerminalValid, hout, checkedAdd, true_and] at hvalid
    obtain ⟨hnext, -⟩ := hvalid
    have hexpected : t.attempt.binding.expectedRevision = p.expectedRevision := by
      rw [binding, hv, Option.map_some] at hbound
      rw [← Option.some.inj hbound]
    split_ifs at hnext
    refine .inr (.installed s t p v revision he h hp (by rw [hout]; rfl) hv ?_ hrevision.symm hused)
    rw [← Option.some.inj hnext, hexpected, hrevision]
  | silent effect h => exact .inl (.same rfl rfl rfl rfl le_rfl)
  | receipt i v a hv ha effect h => exact .inl (.same rfl rfl rfl rfl le_rfl)
  | skip => exact .inl (.same rfl rfl rfl rfl (Nat.le_succ _))
  | verify c v mode hv hnew hform hmode => exact .inl (.same rfl rfl rfl rfl (Nat.le_succ _))
  | answered p verdict he hp => exact .inl (.same rfl rfl rfl rfl le_rfl)
  | sealing v p f cut h hv => exact .inl (.same rfl rfl rfl rfl (Nat.le_succ _))
  | recover q hinv => exact .inl (.same rfl rfl rfl rfl (Nat.le_succ _))
  | inspect q hop hinv => exact .inl (.same rfl rfl rfl rfl (Nat.le_succ _))
  | fence q hop hinv => exact .inl (.same rfl rfl rfl rfl (Nat.le_succ _))
  | begin b v hop hinst hinv hv hv₀ hcurrent hcut => exact .inl (.same rfl rfl rfl rfl (Nat.le_succ _))
  | retire id issued h => exact .inl (.same rfl rfl rfl rfl le_rfl)
  | forget number => exact .inl (.same rfl rfl rfl rfl le_rfl)
  | prepared request a hfits => exact .inl (.same rfl rfl rfl rfl le_rfl)
  | started key cut hopen => exact .inl (.same rfl rfl rfl rfl le_rfl)
  | conflict t => exact .inl (.same rfl rfl rfl rfl le_rfl)

/-- After an ending the event's terminal is retained. -/
theorem Ends.retained (h : Ends C s₀ e s s') : ∃ t, e.terminal = some t ∧ s'.terminalResults[t.attempt.id]? = some t := by
  cases h with
  | dropped t he h hno => exact ⟨t, he, by simp [State.ended]⟩
  | installed t p v revision he h hp hout hv hrevision hexpected hused => exact ⟨t, he, by simp [State.ended, State.modify]⟩

/-- Before an ending it is not. -/
theorem Ends.unretained (h : Ends C s₀ e s s') : ∃ t, e.terminal = some t ∧ t.attempt.id ∉ s.terminalResults := by
  cases h with
  | dropped t he h hno => exact ⟨t, he, h.fresh⟩
  | installed t p v revision he h hp hout hv hrevision hexpected hused => exact ⟨t, he, h.fresh⟩

theorem Ends.ending (h : Ends C s₀ e s s') {t : Terminal} (ht : e.terminal = some t) :
    Ending s₀ s t ∧ ∀ n p, n ≠ t.attempt.binding.plan.number → InFlight s n p → InFlight s' n p := by
  cases h with
  | dropped t' he h hno =>
    obtain rfl := Option.some.inj (he.symm.trans ht)
    exact ⟨h, fun n p hn hp => inFlight_ended.mpr ⟨hn, hp⟩⟩
  | installed t' p v revision he h hp hout hv hrevision hexpected hused =>
    obtain rfl := Option.some.inj (he.symm.trans ht)
    exact ⟨h, fun n p hn hp => inFlight_ended.mpr ⟨hn, hp⟩⟩

/-- A step ends at most one attempt: the terminal its event brings is then retained,
and no later move of the step ends it again. -/
theorem Moves.keeps_or_ends (hf : Flight s) (h : Moves C s₀ e s effects s') :
    Keeps s s' ∨ ∃ s₁ s₂, Keeps s s₁ ∧ Ends C s₀ e s₁ s₂ ∧ Keeps s₂ s' := by
  induction h with
  | refl s => exact .inl (.refl s)
  | @cons s s' s'' effects effects' hm hrest ih =>
    rcases hm.keeps_or_ends hf with hkeeps | hends
    · rcases ih (hf.move hm) with hrest | ⟨s₁, s₂, h₁, hends, h₂⟩
      · exact .inl (hkeeps.trans hrest)
      · exact .inr ⟨s₁, s₂, hkeeps.trans h₁, hends, h₂⟩
    · rcases ih (hf.move hm) with hrest | ⟨s₁, s₂, h₁, hends', h₂⟩
      · exact .inr ⟨s, s', .refl s, hends, hrest⟩
      · obtain ⟨t, ht, hin⟩ := hends.retained
        obtain ⟨t', ht', hout⟩ := hends'.unretained
        obtain rfl := Option.some.inj (ht.symm.trans ht')
        rw [h₁.results] at hout
        exact absurd (Std.ExtTreeMap.isSome_getElem?_iff_mem.mp (by rw [hin]; rfl)) hout

/-! ### Shapes of moves -/

/-- What a move keeps that asks nothing of a provider and neither stages nor installs
a plan. -/
structure Quiet (s s' : State) : Prop where
  custody : ∀ i : Instance, Option.Rel SameCustody s.instances[i]? s'.instances[i]?
  queries : ∀ (k : ℕ) (q : PendingVerification), s'.queries[k]? = some q → s.queries[k]? = some q
  plans : ∀ n p, InFlight s' n p → InFlight s n p

/-- What a move is to the instances, the queries and the plans. -/
inductive Shape (C : Crypto) (s₀ : State) (e : Event) (s : State) : State → Prop where
  | quiet {s' : State} (h : Quiet s s') : Shape C s₀ e s s'
  | verify (c : Candidate) (v : InstanceState) (mode : Mode) (hv : s.instances[c.inst]? = some v)
      (hform : WellFormed C v.descriptor c) (hmode : mode = .historical ∨ mode = .localWrite (C.sha256 v.policy) v.policyTime) :
      Shape C s₀ e s (s.queried
        { query := queryOf v c mode s.nextEffectId, candidate := c, verified := none, verifiedQuery := none })
  | sealing (v : InstanceState) (q : PendingVerification) (f : Facts) (cut : LocalPrecondition)
      (h : LocallyVerified C s₀ e v q f cut) (hv : s.instances[q.candidate.inst]? = some v) :
      Shape C s₀ e s (s.queried
        { query := sealOf q.query f s.nextEffectId, candidate := q.candidate, verified := some f,
          verifiedQuery := some q.query })
  | stage (v : InstanceState) (p : CommitPlan) (q : PrepareRequest) (hv : s.instances[p.inst]? = some v)
      (hidle : s₀.plans p.inst = []) (hj : Justified C s₀ e v p) (hv₀ : s₀.instances[p.inst]? = some v) :
      Shape C s₀ e s (s.staged p q)
  | installed (t : Terminal) (p : CommitPlan) (v : InstanceState) (revision : ℕ) (he : e.terminal = some t)
      (hend : Ending s₀ s t) (hp : s.planOf t.attempt.binding.plan = some p) (hcommitted : t.outcome.isCommitted = true)
      (hv : s.instances[p.inst]? = some v) :
      Shape C s₀ e s ((s.ended t).modify p.inst fun v => installed C v p revision)

theorem Quiet.same (hi : s'.instances = s.instances) (hq : s'.queries = s.queries)
    (hp : ∀ n p, InFlight s' n p → InFlight s n p) : Quiet s s' :=
  ⟨fun _ => hi ▸ custody_refl _, fun _ _ hk => hq ▸ hk, hp⟩

theorem Move.shape (hf : Flight s) (h : Move C s₀ e s effects s') : Shape C s₀ e s s' := by
  cases h with
  | touch i f hcustody =>
    exact .quiet ⟨custody_modify hcustody s i, fun _ _ hk => hk, fun _ _ hn => hn⟩
  | verify c v mode hv hnew hform hmode => exact .verify c v mode hv hform hmode
  | answered q verdict he hq =>
    refine .quiet ⟨fun i => custody_refl _, fun k q' hk => ?_, fun n p hn => hn⟩
    rw [State.answered, Std.ExtTreeMap.getElem?_erase] at hk
    split_ifs at hk
    exact hk
  | sealing v q f cut hby hv => exact .sealing v q f cut hby hv
  | stage v p q hv hidle hidle₀ hid hrevision hj hv₀ hb hinv => exact .stage v p q hv hidle₀ hj hv₀
  | unknown number =>
    have hfields : (s.unknown number).instances = s.instances ∧ (s.unknown number).queries = s.queries := by
      rw [State.unknown]
      split <;> exact ⟨rfl, rfl⟩
    exact .quiet (.same hfields.1 hfields.2 fun n p hn => hf.unknown.mp hn)
  | dropped t he hend hno => exact .quiet (.same rfl rfl fun n p hn => (inFlight_ended.mp hn).2)
  | installed t p v revision storage receipts startCut recovering he hend hp hout hv hrevision hused =>
    exact .installed t p v revision he hend hp (by rw [hout]; rfl) hv
  | _ => exact .quiet (.same rfl rfl fun _ _ hn => hn)

theorem queries_queried {q q' : PendingVerification} {k : ℕ} (h : (s.queried q).queries[k]? = some q') :
    q' = q ∨ s.queries[k]? = some q' := by
  rw [State.queried, Std.ExtTreeMap.getElem?_insert] at h
  split_ifs at h
  · exact .inl (Option.some.inj h).symm
  · exact .inr h

/-- The instances after a plan is installed in one of them. -/
theorem instances_installed {t : Terminal} {p : CommitPlan} {v w : InstanceState} {revision : ℕ} {i : Instance}
    (hv : s.instances[p.inst]? = some v)
    (hw : ((s.ended t).modify p.inst fun v => installed C v p revision).instances[i]? = some w) :
    (i = p.inst ∧ w = installed C v p revision) ∨ (i ≠ p.inst ∧ s.instances[i]? = some w) := by
  rw [instances_modify] at hw
  split_ifs at hw with hi
  · subst hi
    rw [show (s.ended t).instances[p.inst]? = some v from hv, Option.map_some] at hw
    exact .inl ⟨rfl, (Option.some.inj hw).symm⟩
  · exact .inr ⟨Ne.symm hi, hw⟩

/-! ### Steps -/

/-- What the step that installs the plan `p` by the terminal `t` does. -/
structure Installation (C : Crypto) (s : State) (t : Terminal) (p : CommitPlan) (v : InstanceState) (s' : State) : Prop where
  flying : s.planOf t.attempt.binding.plan = some p
  bound : binding s p = some t.attempt.binding
  committed : t.outcome.isCommitted = true
  valid : TerminalValid t t.attempt
  unretained : t.attempt.id ∉ s.terminalResults
  retained : s'.terminalResults[t.attempt.id]? = some t
  known : s.instances[p.inst]? = some v
  expected : p.expectedRevision = v.revision
  affordable : (v.used.add p.charges).isSome
  done : ∃ v', s'.instances[p.inst]? = some v' ∧ SameCustody (installed C v p (v.revision + 1)) v'
  others : ∀ i : Instance, i ≠ p.inst → Option.Rel SameCustody s.instances[i]? s'.instances[i]?
  gone : ∀ q, InFlight s' t.attempt.binding.plan.number q → s.nextEffectId ≤ t.attempt.binding.plan.number

theorem binding_congr {p : CommitPlan} (hi : s.instances = s'.instances) (hn : s.planNamespace = s'.planNamespace) :
    binding s p = binding s' p := by
  rw [binding, binding, hi, planKey, planKey, hn]

/-- A step installs a plan, or leaves every instance in its custody. -/
theorem step_installs (hf : Flight s) (e : Event) :
    (installs C s e = none ∧ ∀ i : Instance, Option.Rel SameCustody s.instances[i]? (step C s e).1.instances[i]?) ∨
      ∃ t p v, e.terminal = some t ∧ installs C s e = some p ∧ Installation C s t p v (step C s e).1 := by
  have hmoves : Moves C s e s _ _ := moves_step s e
  rcases hmoves.keeps_or_ends hf with hkeeps | ⟨s₁, s₂, h₁, hends, h₂⟩
  · refine .inl ⟨?_, hkeeps.custody⟩
    rw [installs, Option.bind_eq_none_iff]
    intro t ht
    rw [if_neg]
    rintro ⟨-, hout, hin⟩
    exact hout (hkeeps.results ▸ hin)
  obtain ⟨t', ht', hin⟩ := hends.retained
  rw [← h₂.results] at hin
  cases hends with
  | dropped t he h hno =>
    refine .inl ⟨?_, fun i => custody_trans (h₁.custody i) (h₂.custody i)⟩
    rw [installs, he, Option.bind_some, if_neg]
    rw [hno]
    simp
  | installed t p v revision he h hp hout hv hrevision hexpected hused =>
    obtain rfl := Option.some.inj (he.symm.trans ht')
    have hfresh := h.fresh
    rw [h.results] at hfresh
    refine .inr ⟨t, p, v, he, ?_, h.plan ▸ hp, ?_, hout, h.valid, hfresh, hin, h.instances ▸ hv, hexpected, hused, ?_, ?_, ?_⟩
    · rw [installs, he, Option.bind_some, if_pos, ← h.plan, hp]
      exact ⟨hout, hfresh, Std.ExtTreeMap.isSome_getElem?_iff_mem.mp (by rw [hin]; rfl)⟩
    · rw [← h.bound p hp]
      exact binding_congr h.instances.symm h.scope.symm
    · have h₂' := h₂.custody p.inst
      rw [instances_modify, if_pos rfl, show (s₁.ended t).instances[p.inst]? = some v from hv, Option.map_some, hrevision] at h₂'
      cases hs' : (step C s e).1.instances[p.inst]? with
      | none =>
        rw [hs'] at h₂'
        cases h₂'
      | some v' =>
        rw [hs'] at h₂'
        cases h₂' with
        | some h => exact ⟨v', rfl, h⟩
    · intro i hi
      refine custody_trans (h₁.custody i) ?_
      have h₂' := h₂.custody i
      rwa [instances_modify, if_neg hi.symm] at h₂'
    · intro q hq
      rcases h₂.taken _ q hq with hq | hq
      · exact absurd rfl (inFlight_ended.mp hq).1
      · exact h₁.next.trans hq

/-- A plan in flight after a step was in flight, or has a number of the step. -/
theorem step_taken (hf : Flight s) (e : Event) {n : ℕ} {p : CommitPlan} (h : InFlight (step C s e).1 n p) :
    InFlight s n p ∨ s.nextEffectId ≤ n := by
  have hmoves : Moves C s e s _ _ := moves_step s e
  rcases hmoves.keeps_or_ends hf with hkeeps | ⟨s₁, s₂, h₁, hends, h₂⟩
  · exact hkeeps.taken n p h
  have hends' : InFlight s₂ n p → InFlight s₁ n p := by
    cases hends <;> exact fun hp => (inFlight_ended.mp hp).2
  have hnext : s₂.nextEffectId = s₁.nextEffectId := by cases hends <;> rfl
  rcases h₂.taken n p h with hp | hn
  · exact h₁.taken n p (hends' hp)
  · exact .inr (h₁.next.trans (hnext ▸ hn))

theorem custody_some {o : Option InstanceState} {v' : InstanceState} (h : Option.Rel SameCustody o (some v')) :
    ∃ v, o = some v ∧ SameCustody v v' := by
  cases h with
  | some h => exact ⟨_, rfl, h⟩

/-- An instance after a step: in the custody it had, or with the plan installed. -/
theorem step_instance (hf : Flight s) (e : Event) {i : Instance} {v' : InstanceState}
    (hv' : (step C s e).1.instances[i]? = some v') :
    ∃ v, s.instances[i]? = some v ∧ ((SameCustody v v' ∧ ∀ p, installs C s e = some p → p.inst ≠ i) ∨
      ∃ t p, e.terminal = some t ∧ installs C s e = some p ∧ p.inst = i ∧ Installation C s t p v (step C s e).1 ∧
        SameCustody (installed C v p (v.revision + 1)) v') := by
  rcases step_installs (C := C) hf e with ⟨hnone, hkept⟩ | ⟨t, p, v, ht, hsome, hin⟩
  · obtain ⟨v, hv, hcustody⟩ := custody_some (hv' ▸ hkept i)
    exact ⟨v, hv, .inl ⟨hcustody, by simp [hnone]⟩⟩
  · by_cases hi : i = p.inst
    · subst hi
      obtain ⟨v'', hv'', hcustody⟩ := hin.done
      obtain rfl := Option.some.inj (hv'.symm.trans hv'')
      exact ⟨v, hin.known, .inr ⟨t, p, ht, hsome, rfl, hin, hcustody⟩⟩
    · obtain ⟨v, hv, hcustody⟩ := custody_some (hv' ▸ hin.others i hi)
      refine ⟨v, hv, .inl ⟨hcustody, fun p' hp' => ?_⟩⟩
      rw [← Option.some.inj (hsome.symm.trans hp')]
      exact Ne.symm hi

/-- A step loses no instance. -/
theorem step_known (hf : Flight s) (e : Event) {i : Instance} {v : InstanceState} (hv : s.instances[i]? = some v) :
    ∃ v', (step C s e).1.instances[i]? = some v' := by
  have hkept : ∀ o : Option InstanceState, Option.Rel SameCustody s.instances[i]? o → ∃ v', o = some v' := by
    intro o h
    rw [hv] at h
    cases h with
    | some h => exact ⟨_, rfl⟩
  rcases step_installs (C := C) hf e with ⟨-, hcustody⟩ | ⟨t, p, w, -, -, hin⟩
  · exact hkept _ (hcustody i)
  · by_cases hi : i = p.inst
    · obtain ⟨v', hv', -⟩ := hin.done
      exact ⟨v', hi ▸ hv'⟩
    · exact hkept _ (hin.others i hi)

/-- A plan stays in flight, or the terminal of an attempt bound to it is retained. -/
theorem step_leaves (hf : Flight s) (e : Event) {n : ℕ} {p : CommitPlan} (hp : InFlight s n p) :
    InFlight (step C s e).1 n p ∨ ∃ t, e.terminal = some t ∧ (step C s e).1.terminalResults[t.attempt.id]? = some t ∧
      s.attempts[planKey s p]?.map (fun a => a.attempt) = some t.attempt ∧ binding s p = some t.attempt.binding := by
  have hmoves : Moves C s e s _ _ := moves_step s e
  rcases hmoves.keeps_or_ends hf with hkeeps | ⟨s₁, s₂, h₁, hends, h₂⟩
  · exact .inl (hkeeps.plans n p hp)
  obtain ⟨t, ht, hin⟩ := hends.retained
  obtain ⟨hending, hothers⟩ := hends.ending ht
  rw [← h₂.results] at hin
  by_cases hn : n = t.attempt.binding.plan.number
  · have hplan := hf.planOf_of_inFlight (hn ▸ hp)
    rw [← hending.plan] at hplan
    have hbound := hending.bound p hplan
    rw [binding_congr hending.instances hending.scope] at hbound
    refine .inr ⟨t, ht, hin, ?_, hbound⟩
    obtain ⟨v, hv, -⟩ := hf.known n p hp
    rw [binding, hv, Option.map_some] at hbound
    rw [← hending.attempts, ← hending.attempt, ← Option.some.inj hbound]
  · exact .inl (h₂.plans n p (hothers n p hn (h₁.plans n p hp)))

/-! ### What a plan is installed as -/

/-- What an acceptance is kept as. -/
def StagedAcceptance.entry (a : StagedAcceptance) : Accepted :=
  { candidate := a.candidate, facts := a.facts, receipt := a.receipt }

/-- The instance with a plan taken, before its projection is recomputed. -/
def taken (v : InstanceState) (p : CommitPlan) (revision : ℕ) : InstanceState :=
  let v := p.acceptances.foldl install { v with used := (v.used.add p.charges).getD v.used, revision }
  let v := match p.kind with
    | .candidate => { v with candidates := addNew v.candidates p.records }
    | .securityEvidence => { v with securityEvidence := addNew v.securityEvidence p.records }
    | _ => v
  { v with qualifiedForks := addNew v.qualifiedForks p.qualifiedForks }

section Fields

variable (v : InstanceState) (p : CommitPlan) (revision : ℕ)

theorem installed_eq : installed C v p revision = refresh C (taken v p revision) := rfl

theorem taken_field {A : Type} (field : InstanceState → A)
    (hforks : ∀ v forks, field { v with qualifiedForks := forks } = field v)
    (hcandidates : ∀ v candidates, field { v with candidates } = field v)
    (hevidence : ∀ v securityEvidence, field { v with securityEvidence } = field v) :
    field (taken v p revision) =
      field (p.acceptances.foldl install { v with used := (v.used.add p.charges).getD v.used, revision }) := by
  rw [taken]
  cases p.kind with
  | acceptedBatch => exact hforks _ _
  | candidate => exact (hforks _ _).trans (hcandidates _ _)
  | securityEvidence => exact (hforks _ _).trans (hevidence _ _)
  | qualifiedFork => exact hforks _ _

theorem foldl_install_field {A : Type} (field : InstanceState → A) (h : ∀ v a, field (install v a) = field v)
    (l : List StagedAcceptance) (v : InstanceState) : field (l.foldl install v) = field v := by
  induction l generalizing v with
  | nil => rfl
  | cons a l ih => rw [List.foldl_cons, ih, h]

theorem installed_revision : (installed C v p revision).revision = revision := by
  rw [installed_eq]
  change (taken v p revision).revision = revision
  rw [taken_field v p revision InstanceState.revision (fun _ _ => rfl) (fun _ _ => rfl) fun _ _ => rfl]
  exact foldl_install_field InstanceState.revision (fun v a => by rw [install]; split_ifs <;> rfl) _ _

theorem installed_used : (installed C v p revision).used = (v.used.add p.charges).getD v.used := by
  rw [installed_eq]
  change (taken v p revision).used = _
  rw [taken_field v p revision InstanceState.used (fun _ _ => rfl) (fun _ _ => rfl) fun _ _ => rfl]
  exact foldl_install_field InstanceState.used (fun v a => by rw [install]; split_ifs <;> rfl) _ _

theorem installed_descriptor : (installed C v p revision).descriptor = v.descriptor := by
  rw [installed_eq]
  change (taken v p revision).descriptor = _
  rw [taken_field v p revision InstanceState.descriptor (fun _ _ => rfl) (fun _ _ => rfl) fun _ _ => rfl]
  exact foldl_install_field InstanceState.descriptor (fun v a => by rw [install]; split_ifs <;> rfl) _ _

theorem taken_qualifiedForks : (taken v p revision).qualifiedForks = addNew v.qualifiedForks p.qualifiedForks := by
  have h : ∀ v' : InstanceState, (p.acceptances.foldl install v').qualifiedForks = v'.qualifiedForks :=
    foldl_install_field InstanceState.qualifiedForks (fun v a => by rw [install]; split_ifs <;> rfl) _
  rw [taken]
  cases p.kind <;> dsimp only <;> rw [h]

theorem installed_qualifiedForks :
    (installed C v p revision).qualifiedForks = addNew v.qualifiedForks p.qualifiedForks := taken_qualifiedForks v p revision

theorem installed_quarantine :
    (installed C v p revision).quarantine = (addNew v.qualifiedForks p.qualifiedForks).foldl convict v.quarantine := by
  rw [installed_eq]
  change (taken v p revision).qualifiedForks.foldl convict (taken v p revision).quarantine = _
  rw [taken_qualifiedForks,
    taken_field v p revision InstanceState.quarantine (fun _ _ => rfl) (fun _ _ => rfl) fun _ _ => rfl]
  congr 1
  exact foldl_install_field InstanceState.quarantine (fun v a => by rw [install]; split_ifs <;> rfl) _ _

theorem installed_accepted :
    (installed C v p revision).accepted =
      (p.acceptances.foldl install { v with used := (v.used.add p.charges).getD v.used, revision }).accepted := by
  rw [installed_eq]
  exact taken_field v p revision InstanceState.accepted (fun _ _ => rfl) (fun _ _ => rfl) fun _ _ => rfl

theorem installed_canonicalOrigins :
    (installed C v p revision).canonicalOrigins =
      (p.acceptances.foldl install { v with used := (v.used.add p.charges).getD v.used, revision }).canonicalOrigins := by
  rw [installed_eq]
  exact taken_field v p revision InstanceState.canonicalOrigins (fun _ _ => rfl) (fun _ _ => rfl) fun _ _ => rfl

theorem installed_accepted_of_nil (h : p.acceptances = []) : (installed C v p revision).accepted = v.accepted := by
  rw [installed_accepted, h]
  rfl

/-- An operation is accepted once. -/
theorem installed_accepted_of_single {a : StagedAcceptance} (h : p.acceptances = [a]) :
    (installed C v p revision).accepted =
      if ∃ old ∈ v.accepted, old.candidate.operation = a.candidate.operation then v.accepted
      else v.accepted ++ [a.entry] := by
  rw [installed_accepted, h, List.foldl_cons, List.foldl_nil, install]
  simp only [List.any_eq_true, decide_eq_true_eq]
  split_ifs <;> rfl

theorem installed_canonicalOrigins_of_nil (h : p.acceptances = []) :
    (installed C v p revision).canonicalOrigins = v.canonicalOrigins := by
  rw [installed_canonicalOrigins, h]
  rfl

theorem installed_canonicalOrigins_of_single {a : StagedAcceptance} (h : p.acceptances = [a]) :
    (installed C v p revision).canonicalOrigins =
      if ∃ old ∈ v.accepted, old.candidate.operation = a.candidate.operation then v.canonicalOrigins
      else v.canonicalOrigins.insert a.facts.certificate.canonicalOrigin a.facts.certificate := by
  rw [installed_canonicalOrigins, h, List.foldl_cons, List.foldl_nil, install]
  simp only [List.any_eq_true, decide_eq_true_eq]
  split_ifs <;> rfl

end Fields

theorem mem_addNew {A : Type} [DecidableEq A] {held records : List A} {x : A} :
    x ∈ addNew held records ↔ x ∈ held ∨ x ∈ records := by
  induction records generalizing held with
  | nil => simp [addNew]
  | cons r records ih =>
    rw [addNew, List.foldl_cons, ← addNew, ih]
    split_ifs with hr
    · simp only [List.mem_cons]
      constructor
      · exact fun h => h.imp_right .inr
      · rintro (h | rfl | h)
        · exact .inl h
        · exact .inl hr
        · exact .inr h
    · simp [or_assoc]

end Glade.Kernel
