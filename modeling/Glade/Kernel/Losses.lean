import Glade.Kernel.Replies
import Glade.Kernel.Frontier

/-! What becomes of the operations replicas send. An instance holds one, retains it,
asks about it, has it in a plan, or says that something is lost; only the end of a
plan that storage did not commit forgets one without a word. -/

namespace Glade.Kernel

open Wire Node OrdMap

/-- Whether the instance accepted the operation, retains it, or is marked. -/
def Shown (v : InstanceState) (o : Op) : Prop :=
  Holds v o ∨ v.storageIntegrityFailed = true ∨ v.recoveryIncomplete = true ∨ ∃ c ∈ v.candidates, c.operation = o

/-- Whether a replica's operation is in the plan, to be retained or accepted. -/
def Carries (p : CommitPlan) (o : Op) : Prop := p.localPrecondition = none ∧
  ((p.kind = .candidate ∧ ∃ c ∈ p.records, c.operation = o) ∨ ∃ a ∈ p.acceptances, a.candidate.operation = o)

/-- Whether a complete read waits for the operation, or the instance accepted it. -/
def Kept (s : State) (i : Instance) (o : Op) : Prop :=
  ∃ v, s.instances[i]? = some v ∧ (Shown v o ∨ ∃ n p, InFlight s n p ∧ p.inst = i ∧ Carries p o)

variable {C : Crypto} {s₀ s s' : State} {v v' : InstanceState} {i : Instance} {o : Op} {p : CommitPlan} {e : Event}
  {effects : List Effect}

/-- The event answers the query of a replica's operation. -/
structure Answers (s : State) (e : Event) (q : PendingVerification) (verdict : Verdict) : Prop where
  reply : e = .evidenceResolved ⟨q.query, verdict⟩
  asked : s.queries[q.query.id]? = some q
  mode : q.query.mode = .historical

/-- Whether the facts let a replica's operation be accepted. -/
def Permits (q : PendingVerification) (f : Facts) : Prop :=
  Attributable q.query f ∧ f.payloadValid = true ∧ SequencePermitted f q.candidate.operation ∧ HistoricallyAdmitted q.candidate f

/-- Whether the evidence of a replica's operation is asked for. -/
def Inquires (s : State) (c : Candidate) : Prop :=
  ∃ q : PendingVerification, s.queries[q.query.id]? = some q ∧ q.candidate = c ∧ q.query.mode = .historical

/-- The event answers that the operation is not permitted. -/
def Refuses (c : Candidate) (s : State) (e : Event) : Prop := ∃ q verdict, Answers s e q verdict ∧ q.candidate = c ∧
  verdict ≠ .unavailable ∧ ∀ f, verdict = .verified f → ¬ Permits q f

/-- The candidates a replica offers. -/
def Event.offers : Event → List Candidate
  | .offerReplica c => [c]
  | .offerFork p => if slot p.first = slot p.second ∧ p.first.operation ≠ p.second.operation then [p.first, p.second] else []
  | _ => []

/-! ### Instances -/

theorem Shown.congr (h : Shown v o) (hs : SameCustody v v') : Shown v' o := by
  rcases h with ⟨a, ha, ho⟩ | h | h | ⟨c, hc, ho⟩
  · exact .inl ⟨a, hs.accepted ▸ ha, ho⟩
  · exact .inr (.inl (hs.failed h))
  · exact .inr (.inr (.inl (hs.incomplete h)))
  · exact .inr (.inr (.inr ⟨c, hs.candidates ▸ hc, ho⟩))

/-- An acceptance that is taken is held. -/
theorem install_holds (v : InstanceState) (a : StagedAcceptance) : Holds (install v a) a.candidate.operation := by
  rw [install]
  split_ifs with hknown
  · obtain ⟨b, hb, ho⟩ := List.any_eq_true.mp hknown
    exact ⟨b, hb, of_decide_eq_true ho⟩
  · exact ⟨a.entry, List.mem_append_right _ (List.mem_singleton.mpr rfl), rfl⟩

theorem install_shown (h : Shown v o) (a : StagedAcceptance) : Shown (install v a) o := by
  have hheld : ∀ b ∈ v.accepted, b ∈ (install v a).accepted := by
    intro b hb
    rw [install]
    dsimp only
    split_ifs
    · exact hb
    · exact List.mem_append_left _ hb
  rcases h with ⟨b, hb, ho⟩ | h | h | ⟨c, hc, ho⟩
  · exact .inl ⟨b, hheld b hb, ho⟩
  · refine .inr (.inl ?_)
    rw [install]
    dsimp only
    split_ifs <;> exact h
  · refine .inr (.inr (.inl ?_))
    rw [install]
    dsimp only
    split_ifs <;> exact h
  · by_cases hop : c.operation = a.candidate.operation
    · rw [← ho, hop]
      exact .inl (install_holds v a)
    · refine .inr (.inr (.inr ⟨c, ?_, ho⟩))
      rw [install]
      dsimp only
      split_ifs <;> exact List.mem_filter.mpr ⟨hc, decide_eq_true hop⟩

theorem foldl_install_shown (l : List StagedAcceptance) (h : Shown v o ∨ ∃ a ∈ l, a.candidate.operation = o) :
    Shown (l.foldl install v) o := by
  induction l generalizing v with
  | nil => exact h.resolve_right (by simp)
  | cons a l ih =>
    refine ih ?_
    rcases h with h | ⟨b, hb, ho⟩
    · exact .inl (install_shown h a)
    · rcases List.mem_cons.mp hb with rfl | hb
      · rw [← ho]
        exact .inl (.inl (install_holds v b))
      · exact .inr ⟨b, hb, ho⟩

/-- What an instance shows it does with a plan installed, and it shows what the plan
carries. -/
theorem installed_shown (p : CommitPlan) (revision : ℕ) (h : Shown v o ∨ Carries p o) : Shown (installed C v p revision) o := by
  have hrefresh : ∀ w : InstanceState, Shown w o → Shown (refresh C w) o := fun _ h => h
  rw [installed_eq]
  refine hrefresh _ ?_
  have hfold : Shown v o ∨ (∃ a ∈ p.acceptances, a.candidate.operation = o) →
      Shown (p.acceptances.foldl install { v with used := (v.used.add p.charges).getD v.used, revision }) o :=
    foldl_install_shown (v := { v with used := (v.used.add p.charges).getD v.used, revision }) p.acceptances
  rw [taken]
  generalize p.acceptances.foldl install { v with used := (v.used.add p.charges).getD v.used, revision } = w at *
  have hcandidate : p.kind = .candidate → Shown w o ∨ (∃ c ∈ p.records, c.operation = o) →
      Shown { w with candidates := addNew w.candidates p.records } o := by
    rintro - ((h | h | h | ⟨c, hc, ho⟩) | ⟨c, hc, ho⟩)
    · exact .inl h
    · exact .inr (.inl h)
    · exact .inr (.inr (.inl h))
    · exact .inr (.inr (.inr ⟨c, mem_addNew.mpr (.inl hc), ho⟩))
    · exact .inr (.inr (.inr ⟨c, mem_addNew.mpr (.inr hc), ho⟩))
  cases hkind : p.kind with
  | candidate =>
    refine hcandidate hkind ?_
    rcases h with h | ⟨-, ⟨-, h⟩ | h⟩
    · exact .inl (hfold (.inl h))
    · exact .inr h
    · exact .inl (hfold (.inr h))
  | acceptedBatch =>
    refine hfold (h.imp_right fun h => h.2.resolve_left fun h => ?_)
    rw [hkind] at h
    cases h.1
  | securityEvidence =>
    refine hfold (h.imp_right fun h => h.2.resolve_left fun h => ?_)
    rw [hkind] at h
    cases h.1
  | qualifiedFork =>
    refine hfold (h.imp_right fun h => h.2.resolve_left fun h => ?_)
    rw [hkind] at h
    cases h.1

/-! ### Steps -/

/-- No terminal the kernel takes ends a plan without committing it that carries an
operation the instance does not show. -/
def EndsShown (s : State) (e : Event) : Prop := ∀ t p v o, e.terminal = some t → t.outcome.isCommitted = false → Ending s s t →
  (∀ r ∈ e.reply, s.Awaits (.resolve r.request) ∧ e.Matches) → s.planOf t.attempt.binding.plan = some p →
  s.instances[p.inst]? = some v → Carries p o → Shown v o

theorem Kept.of_keeps (h : Kept s i o) (hk : Keeps s s') : Kept s' i o := by
  obtain ⟨v, hv, h⟩ := h
  have hcustody := hk.custody i
  rw [hv] at hcustody
  obtain ⟨v', hv', hs⟩ : ∃ v', s'.instances[i]? = some v' ∧ SameCustody v v' := by
    cases hi : s'.instances[i]? with
    | none => rw [hi] at hcustody; cases hcustody
    | some v' =>
      rw [hi] at hcustody
      cases hcustody with
      | some hs => exact ⟨v', rfl, hs⟩
  refine ⟨v', hv', ?_⟩
  rcases h with h | ⟨n, p, hp, h⟩
  · exact .inl (h.congr hs)
  · exact .inr ⟨n, p, hk.plans n p hp, h⟩

/-- A plan that is installed leaves what it carries with the instance. -/
theorem Kept.of_ends (h : Kept s i o) (hf : Flight s) (hends : Ends C s₀ e s s')
    (hended : ∀ t p v, e.terminal = some t → t.outcome.isCommitted = false → Ending s₀ s t →
      s.planOf t.attempt.binding.plan = some p → s.instances[p.inst]? = some v → Carries p o → Shown v o) : Kept s' i o := by
  obtain ⟨v, hv, h⟩ := h
  cases hends with
  | dropped t he hend hno =>
    refine ⟨v, hv, ?_⟩
    rcases h with h | ⟨n, p, hp, rfl, hcarries⟩
    · exact .inl h
    · by_cases hn : n = t.attempt.binding.plan.number
      · exact .inl (hended t p v he hno hend (hf.planOf_of_inFlight (hn ▸ hp)) hv hcarries)
      · exact .inr ⟨n, p, inFlight_ended.mpr ⟨hn, hp⟩, rfl, hcarries⟩
  | installed t p w revision he hend hp hout hw hrevision hexpected hused =>
    have hflying := inFlight_of_planOf hp
    rw [Kept, instances_modify]
    by_cases hi : p.inst = i
    · subst hi
      obtain rfl := Option.some.inj (hv.symm.trans hw)
      refine ⟨installed C v p revision, ?_, .inl (installed_shown p revision ?_)⟩
      · rw [if_pos rfl, show (s.ended t).instances[p.inst]? = some v from hv, Option.map_some]
      · rcases h with h | ⟨n, p', hp', hinst, hcarries⟩
        · exact .inl h
        · obtain rfl := hf.single n _ p' p hp' hflying hinst
          have hplan := hf.planOf_of_inFlight hp'
          obtain rfl := Option.some.inj (hplan.symm.trans hp)
          exact .inr hcarries
    · refine ⟨v, by rw [if_neg hi]; exact hv, ?_⟩
      rcases h with h | ⟨n, p', hp', hinst, hcarries⟩
      · exact .inl h
      · refine .inr ⟨n, p', inFlight_ended.mpr ⟨fun hn => hi ?_, hp'⟩, hinst, hcarries⟩
        have hplan := hf.planOf_of_inFlight (hn ▸ hp')
        obtain rfl := Option.some.inj (hplan.symm.trans hp)
        exact hinst

theorem Ending.self {t : Terminal} (h : Ending s₀ s t) : Ending s₀ s₀ t where
  attempt := by rw [← h.attempts]; exact h.attempt
  fresh := by rw [← h.results]; exact h.fresh
  valid := h.valid
  bound p hp := by
    rw [← binding_congr h.instances h.scope]
    exact h.bound p (h.plan.trans hp)
  instances := rfl
  plan := rfl
  results := rfl
  scope := rfl
  attempts := rfl
  queries := rfl

theorem Moves.kept (h : Moves C s₀ e s effects s') (hf : Flight s)
    (hended : ∀ t p v, e.terminal = some t → t.outcome.isCommitted = false → Ending s₀ s₀ t →
      s₀.planOf t.attempt.binding.plan = some p → s₀.instances[p.inst]? = some v → Carries p o → Shown v o)
    (hk : Kept s i o) : Kept s' i o := by
  induction h with
  | refl s => exact hk
  | cons hm hrest ih =>
    refine ih (hf.move hm) ?_
    rcases hm.keeps_or_ends hf with hkeeps | hends
    · exact hk.of_keeps hkeeps
    · refine hk.of_ends hf hends fun t p v ht hno hend hplan hv hcarries => ?_
      exact hended t p v ht hno hend.self (hend.plan ▸ hplan) (hend.instances ▸ hv) hcarries

/-- An event that ends no plan loses nothing. -/
theorem Moves.kept_of_none (h : Moves C s₀ e s effects s') (hf : Flight s) (he : e.terminal = none) (hk : Kept s i o) :
    Kept s' i o :=
  h.kept hf (fun t p v ht => by rw [he] at ht; cases ht) hk

theorem conflicted_keeps (s : State) (t : Terminal) : Keeps s (s.conflicted t) :=
  ⟨rfl, custody_modify (f := fun v => { v with storageIntegrityFailed := true })
    (fun _ => ⟨rfl, rfl, rfl, rfl, rfl, rfl, rfl, rfl, rfl, fun _ => rfl, id⟩) _ _, fun _ _ h => h, fun _ _ h => .inl h, le_rfl⟩

/-- What is kept stays so. -/
theorem step_kept (hf : Flight s) (hended : EndsShown s e) (hk : Kept s i o) : Kept (step C s e).1 i o := by
  have hmoves : Moves C s e s _ _ := moves_step s e
  cases hreply : e.reply with
  | none =>
    refine hmoves.kept_of_none hf ?_ hk
    rw [Event.terminal, hreply]
    rfl
  | some r =>
    have hrequest : e.request = some (.resolve r.request) := by
      cases e <;> first | (rw [← Option.some.inj hreply]; rfl) | cases hreply
    by_cases hfits : s.Awaits (.resolve r.request) ∧ e.Matches
    · refine hmoves.kept hf (fun t p v ht hno hend hplan hv hcarries => ?_) hk
      refine hended t p v o ht hno hend (fun r' hr' => ?_) hplan hv hcarries
      obtain rfl := Option.some.inj (hreply.symm.trans hr')
      exact hfits
    · rcases step_inert hrequest hfits with hsame | ⟨t, -, -, hstate⟩
      · rwa [hsame]
      · rw [hstate]
        exact hk.of_keeps (conflicted_keeps s t)

/-! ### What is taken or marked -/

theorem incomplete_kept (hv : s.instances[i]? = some v) : Kept (s.incomplete i) i o := by
  refine ⟨{ v with recoveryIncomplete := true }, ?_, .inl (.inr (.inr (.inl rfl)))⟩
  rw [State.incomplete, instances_modify, if_pos rfl, hv]
  rfl

theorem flight_incomplete (C : Crypto) (hf : Flight s) (i : Instance) : Flight (s.incomplete i) := by
  have hmoves : Moves C s (.read i) s [] (s.refused i false) := moves_refused s i false
  exact hmoves.preserves (fun _ _ _ h hm => h.move hm) hf

/-- An instance that has a plan already is marked, and asks again for what it waits for. -/
theorem busy_kept (C : Crypto) (hf : Flight s) (hv : s.instances[i]? = some v) : Kept (resume (s.incomplete i) i).1 i o := by
  have hmoves : Moves C s (.read i) (s.incomplete i) _ _ := moves_resume _ i
  exact hmoves.kept_of_none (flight_incomplete C hf i) rfl (incomplete_kept hv)

theorem candidateSize_lt {c : Candidate} {n : ℕ} (h : candidateSize c = some n) : n < 2 ^ 64 := by
  simp only [candidateSize, Option.bind_eq_bind, Option.bind_eq_some_iff] at h
  obtain ⟨a, -, b, -, d, -, h⟩ := h
  rw [checkedAdd] at h
  split_ifs at h with hlt
  rw [← Option.some.inj h]
  exact hlt

/-- Whether a plan of one record has a length. -/
def Encodable (s : State) (v : InstanceState) (c : Candidate) (acceptances : List StagedAcceptance)
    (forks : List ForkEvidence) : Prop :=
  ∀ p : CommitPlan, p.inst = c.inst → p.records = [c] → p.acceptances = acceptances → p.qualifiedForks = forks →
    baseLength { s with nextEffectId := s.nextEffectId + 1 } v.descriptor p + 40 < 2 ^ 64

/-- An operation that is staged is in a plan, or the instance is marked. -/
theorem stage_kept (hf : Flight s) {c : Candidate} (hv : s.instances[c.inst]? = some v) (hsize : (candidateSize c).isSome)
    {kind : CommitKind} {acceptances : List StagedAcceptance} {forks : List ForkEvidence}
    (hencodable : Encodable s v c acceptances forks)
    (hcarries : (kind = .candidate ∧ c.operation = o) ∨ ∃ a ∈ acceptances, a.candidate.operation = o) :
    Kept (stage C s kind [c] acceptances forks none).1 c.inst o := by
  rw [stage]
  simp only [List.head?_cons, hv]
  by_cases hfailed : v.storageIntegrityFailed = true
  · rw [if_pos hfailed]
    exact ⟨v, hv, .inl (.inr (.inl hfailed))⟩
  rw [if_neg hfailed]
  by_cases hidle : s.plans c.inst ≠ []
  · rw [if_pos hidle]
    exact busy_kept C hf hv
  rw [if_neg hidle]
  obtain ⟨size, hsize⟩ := Option.isSome_iff_exists.mp hsize
  have hfold : [c].foldlM (fun n c => do checkedAdd n (← candidateSize c)) 0 = some size := by
    have hlt := candidateSize_lt hsize
    rw [List.foldlM_cons]
    simp [hsize, checkedAdd_of_lt (show 0 + size < 2 ^ 64 by omega)]
  rw [hfold]
  dsimp only
  have hrefused : ∀ s' : State, s'.instances = s.instances →
    Kept (s'.refused c.inst (none : Option LocalPrecondition).isSome) c.inst o :=
    fun s' hs' => incomplete_kept (s := s') (v := v) (by rw [hs']; exact hv)
  split_ifs with henough
  case neg => exact hrefused s rfl
  cases halloc : allocate s with
  | none => exact hrefused s rfl
  | some allocated =>
    obtain ⟨id, s₁⟩ := allocated
    obtain ⟨rfl, rfl⟩ := allocate_eq_some halloc
    dsimp only
    split
    case h_1 hloop =>
      rw [← Option.not_isSome_iff_eq_none] at hloop
      exact (hloop (encodeLoop_isSome rfl (hencodable _ rfl rfl rfl rfl))).elim
    case h_2 p hloop =>
      obtain ⟨batch, rfl⟩ := encodeLoop_eq_some hloop
      split_ifs with hafford
      · exact hrefused _ rfl
      split
      · exact hrefused _ rfl
      case h_2 staged hstage =>
        obtain ⟨s', effects⟩ := staged
        obtain ⟨q, -, -, -, -, -, rfl⟩ := lifecycleStage_eq_some hstage
        refine ⟨v, hv, .inr ⟨s.nextEffectId, _, .inl Std.ExtTreeMap.getElem?_insert_self, rfl, rfl, ?_⟩⟩
        exact hcarries.imp_left fun h => ⟨h.1, c, List.mem_singleton.mpr rfl, h.2⟩

/-! ### What is asked -/

/-- The candidate of a query has a size, and a replica's query follows no other. -/
def Weighed (s : State) : Prop := ∀ (k : ℕ) (q : PendingVerification), s.queries[k]? = some q →
  (candidateSize q.candidate).isSome ∧ (q.query.mode = .historical → q.verifiedQuery = none)

theorem Weighed.move (h₀ : Weighed s₀) (h : Weighed s) (hm : Move C s₀ e s effects s') : Weighed s' := by
  cases hm with
  | verify c v mode hv hnew hform hmode hroom =>
    intro k q hk
    rcases queries_queried hk with rfl | hk
    · obtain ⟨z, -, isLocal, hroomy⟩ := hroom.roomy
      refine ⟨?_, fun _ => rfl⟩
      obtain ⟨n, hn, -⟩ := (Option.any_eq_true ..).mp hroomy.2.2.1
      rw [hn]
      rfl
    · exact h k q hk
  | sealing v p f cut hby hv hs hgone =>
    intro k q hk
    rcases queries_queried hk with rfl | hk
    · exact ⟨(h₀ _ p hby.asked).1, fun hmode => by cases hmode⟩
    · exact h k q hk
  | answered p verdict he hp =>
    intro k q hk
    rw [State.answered, Std.ExtTreeMap.getElem?_erase] at hk
    split_ifs at hk
    exact h k q hk
  | unknown number =>
    rw [State.unknown]
    split <;> exact h
  | _ => exact h

theorem Reachable.weighed (h : Reachable C s) : Weighed s :=
  h.invariant (fun s hs k q hk => by simp [hs.queries] at hk) fun _ _ _ _ _ h₀ h hm => h₀.move h hm

/-! ### What is answered -/

/-- The facts that permit an operation come with a certificate the instance may bind,
and a plan of it has a length. -/
def Bears (C : Crypto) (s : State) (e : Event) : Prop := ∀ q f v, Answers s e q (.verified f) → Permits q f →
  s.instances[q.candidate.inst]? = some v → Bindable v s.storageLimits f.certificate ∧ Encodable s v q.candidate [] [] ∧
    ∀ admission ∈ q.candidate.evidence.admission,
      Encodable s v q.candidate [stagedAcceptance C v q.candidate f q.query none admission] (rivals v q.candidate)

/-- An operation whose facts permit it is in a plan, or its instance is marked. -/
theorem evidence_kept (hf : Flight s) (hw : Weighed s) {q : PendingVerification} {f : Facts} (ha : Answers s e q (.verified f))
    (hpermits : Permits q f) (hv : s.instances[q.candidate.inst]? = some v) (hbears : Bears C s e) :
    Kept (step C s e).1 q.candidate.inst q.candidate.operation := by
  obtain ⟨hbindable, hcandidate, haccept⟩ := hbears q f v ha hpermits hv
  obtain ⟨rfl, hasked, hmode⟩ := ha
  obtain ⟨hattributable, hpayload, hsequence, hadmitted⟩ := hpermits
  obtain ⟨hsize, hfirst⟩ := hw _ q hasked
  have hmove : Move C s (.evidenceResolved ⟨q.query, .verified f⟩) s [] (s.answered q.query.id) :=
    .answered s q _ rfl hasked
  have hf' := hf.move hmove
  rw [step, evidence, hasked, Option.filter_some, if_pos (by simp)]
  dsimp only
  rw [hv]
  dsimp only
  by_cases hfailed : v.storageIntegrityFailed = true
  · rw [if_pos hfailed]
    exact ⟨v, hv, .inl (.inr (.inl hfailed))⟩
  have hcurrent : LocalCurrent C (s.answered q.query.id) (q.verifiedQuery.getD q.query) := by
    rw [hfirst hmode, Option.getD_none, LocalCurrent, hmode]
    simp [Mode.localCut]
  rw [if_neg hfailed, if_neg (by simp), if_neg (not_not.mpr hcurrent), if_pos (by simp [hmode]), verified,
    if_neg (not_not.mpr hattributable.2.2.2.1), if_neg (by rw [not_or, not_not, not_not]; exact ⟨hattributable,
      hbindable⟩), hmode]
  dsimp only
  rw [if_neg (not_not.mpr ⟨hpayload, hsequence⟩), if_neg (not_not.mpr hadmitted), qualified, hmode]
  dsimp only
  by_cases hmissing : missing C v q.candidate = []
  case neg =>
    rw [if_pos hmissing]
    split_ifs
    · exact stage_kept hf' hv hsize hcandidate (.inl ⟨rfl, rfl⟩)
    · exact incomplete_kept hv
  rw [if_neg (not_not.mpr hmissing)]
  obtain ⟨admission, hadmission⟩ := Option.isSome_iff_exists.mp hadmitted.1
  have hself : (stagedAcceptance C v q.candidate f q.query none admission).candidate = q.candidate := by
    rw [stagedAcceptance, ← hadmission]
  rw [hadmission]
  dsimp only
  rw [acceptance, show (s.answered q.query.id).instances[q.candidate.inst]? = some v from hv]
  dsimp only
  rw [hself, hmode]
  exact stage_kept hf' hv hsize (haccept admission hadmission) (.inr ⟨_, List.mem_singleton.mpr rfl,
    congrArg Candidate.operation hself⟩)

/-! ### What is offered -/

theorem Move.keeps_query (h : Move C s₀ e s effects s') (hn : Numbered s) {q : PendingVerification}
    (he : ∀ verdict, e ≠ .evidenceResolved ⟨q.query, verdict⟩) (hq : s.queries[q.query.id]? = some q) :
    s'.queries[q.query.id]? = some q := by
  have hqueried : ∀ q' : PendingVerification, q'.query.id = s.nextEffectId → (s.queried q').queries[q.query.id]? = some q := by
    intro q' hid
    rw [State.queried, Std.ExtTreeMap.getElem?_insert, if_neg]
    · exact hq
    · have hlt := (hn.queries _ q hq).2
      rw [Std.LawfulEqOrd.compare_eq_iff_eq]
      omega
  cases h with
  | verify c v mode hv hnew hform hmode => exact hqueried _ rfl
  | sealing v p f cut hby hv => exact hqueried _ rfl
  | answered p verdict hreply hp =>
    rw [State.answered, Std.ExtTreeMap.getElem?_erase, if_neg]
    · exact hq
    · rw [Std.LawfulEqOrd.compare_eq_iff_eq]
      intro hid
      rw [hid] at hp
      obtain rfl := Option.some.inj (hp.symm.trans hq)
      exact he verdict hreply
  | unknown number =>
    rw [State.unknown]
    split <;> exact hq
  | _ => exact hq

/-- A query stays until its answer. -/
theorem Moves.keeps_query (h : Moves C s₀ e s effects s') (hn : Numbered s) {q : PendingVerification}
    (he : ∀ verdict, e ≠ .evidenceResolved ⟨q.query, verdict⟩) (hq : s.queries[q.query.id]? = some q) :
    s'.queries[q.query.id]? = some q := by
  induction h with
  | refl s => exact hq
  | cons hm hrest ih => exact ih (hn.move hm) (hm.keeps_query hn he hq)

/-- Whether an operation a replica offered is kept or asked about. -/
def Tracked (s : State) (c : Candidate) : Prop := Kept s c.inst c.operation ∨ Inquires s c

/-- An offer is kept or asked about, if no local query of it is open. -/
theorem offer_tracked (hf : Flight s) (hz : s.storageLimits.isSome) {c : Candidate} (hv : s.instances[c.inst]? = some v)
    (hsupported : Supported v.descriptor) (hform : WellFormed C v.descriptor c)
    (hasked : ∀ q ∈ s.queriesOf c.inst, q.candidate = c → q.query.mode = .historical) : Tracked (offer C s c false).1 c := by
  have hrefused : Tracked (s.refused c.inst false) c := .inl (incomplete_kept hv)
  rw [offer, hv]
  dsimp only
  cases hfind : v.accepted.find? (fun a => a.candidate.operation = c.operation) with
  | some a =>
    have ho := List.find?_some hfind
    exact .inl ⟨v, hv, .inl (.inl ⟨a, List.mem_of_find?_eq_some hfind, of_decide_eq_true ho⟩)⟩
  | none =>
    dsimp only
    by_cases hfailed : v.storageIntegrityFailed = true
    · rw [if_pos hfailed]
      exact .inl ⟨v, hv, .inl (.inr (.inl hfailed))⟩
    rw [if_neg hfailed, if_neg (not_not.mpr hsupported), if_neg (not_not.mpr hform)]
    by_cases hbusy : s.Busy c.inst
    · rw [if_pos hbusy]
      exact .inl (busy_kept C hf hv)
    rw [if_neg hbusy]
    obtain ⟨z, hz⟩ := Option.isSome_iff_exists.mp hz
    rw [hz]
    dsimp only
    by_cases hroomy : ¬ Roomy C s v z c false
    · rw [if_pos hroomy]
      exact hrefused
    rw [if_neg hroomy]
    by_cases hopen : ∃ q ∈ s.queriesOf c.inst, q.candidate = c
    · rw [if_pos hopen]
      obtain ⟨q, hq, hc⟩ := hopen
      obtain ⟨k, hk⟩ := mem_values.mp (List.mem_of_mem_filter hq)
      refine .inr ⟨q, ?_, hc, hasked q hq hc⟩
      rw [(hf.numbered.queries k q hk).1]
      exact hk
    rw [if_neg hopen]
    cases halloc : allocate s with
    | none => exact hrefused
    | some allocated =>
      obtain ⟨id, s₁⟩ := allocated
      obtain ⟨rfl, rfl⟩ := allocate_eq_some halloc
      exact .inr ⟨⟨queryOf v c .historical s.nextEffectId, c, none, none⟩, Std.ExtTreeMap.getElem?_insert_self, rfl, rfl⟩

/-- A step that is not its answer keeps track of an operation. -/
theorem Moves.tracked (h : Moves C s₀ e s effects s') (hf : Flight s) (he : e.terminal = none)
    (hreply : ∀ r, e ≠ .evidenceResolved r) {c : Candidate} (ht : Tracked s c) : Tracked s' c := by
  rcases ht with hk | ⟨q, hq, hc⟩
  · exact .inl (h.kept_of_none hf he hk)
  · exact .inr ⟨q, h.keeps_query hf.numbered (fun verdict => hreply _) hq, hc⟩

theorem resume_queries (s : State) (i : Instance) : (resume s i).1.queries = s.queries := by
  have hplans : ∀ (qs : List PrepareRequest) (s : State), (recoverPlans s qs).1.queries = s.queries := by
    intro qs
    induction qs with
    | nil => exact fun s => rfl
    | cons q qs ih =>
      intro s
      rw [recoverPlans]
      split_ifs
      · exact ih s
      split
      · rfl
      case h_2 id s₁ hinv =>
        obtain ⟨-, rfl, -⟩ := invocation_eq_some hinv
        exact ih _
  have hattempts : ∀ (attempts : List KernelAttempt) (s : State), (inspectAttempts s attempts).1.queries = s.queries := by
    intro attempts
    induction attempts with
    | nil => exact fun s => rfl
    | cons a attempts ih =>
      intro s
      rw [inspectAttempts]
      split_ifs
      · exact ih s
      split
      · rfl
      case h_2 q s₁ hissue =>
        obtain ⟨-, -, -, -, rfl, -⟩ := issueResolve_eq_some hissue
        exact ih _
  rw [resume]
  dsimp only
  split_ifs
  · exact (hattempts _ _).trans (hplans _ _)
  · exact hplans _ _

/-- What a replica's offer asks is about a replica's operation. -/
theorem offer_queries (s : State) (c : Candidate) {k : ℕ} {q : PendingVerification}
    (hk : (offer C s c false).1.queries[k]? = some q) : s.queries[k]? = some q ∨ q.query.mode = .historical := by
  rw [offer] at hk
  cases hv : s.instances[c.inst]? with
  | none =>
    rw [hv] at hk
    exact .inl hk
  | some v =>
    rw [hv] at hk
    dsimp only at hk
    cases hfind : v.accepted.find? (fun a => a.candidate.operation = c.operation) with
    | some a =>
      rw [hfind] at hk
      exact .inl hk
    | none =>
      rw [hfind] at hk
      dsimp only at hk
      by_cases hfailed : v.storageIntegrityFailed = true
      · rw [if_pos hfailed] at hk
        exact .inl hk
      rw [if_neg hfailed] at hk
      by_cases hsupported : ¬ Supported v.descriptor
      · rw [if_pos hsupported] at hk
        exact .inl hk
      rw [if_neg hsupported] at hk
      by_cases hform : ¬ WellFormed C v.descriptor c
      · rw [if_pos hform] at hk
        exact .inl hk
      rw [if_neg hform] at hk
      by_cases hbusy : s.Busy c.inst
      · rw [if_pos hbusy] at hk
        exact .inl (resume_queries (s.refused c.inst false) c.inst ▸ hk)
      rw [if_neg hbusy] at hk
      cases hz : s.storageLimits with
      | none =>
        rw [hz] at hk
        exact .inl hk
      | some z =>
        rw [hz] at hk
        dsimp only at hk
        by_cases hroomy : ¬ Roomy C s v z c false
        · rw [if_pos hroomy] at hk
          exact .inl hk
        rw [if_neg hroomy] at hk
        by_cases hopen : ∃ q ∈ s.queriesOf c.inst, q.candidate = c
        · rw [if_pos hopen] at hk
          exact .inl hk
        rw [if_neg hopen] at hk
        cases halloc : allocate s with
        | none =>
          rw [halloc] at hk
          exact .inl hk
        | some allocated =>
          obtain ⟨id, s₁⟩ := allocated
          obtain ⟨rfl, rfl⟩ := allocate_eq_some halloc
          rw [halloc] at hk
          rcases queries_queried (q := ⟨queryOf v c .historical s.nextEffectId, c, none, none⟩) hk with rfl | hk
          · exact .inr rfl
          · exact .inl hk

/-- A candidate whose form is valid, that a replica offers to an instance which admits
independently. -/
structure Offered (C : Crypto) (s : State) (e : Event) (c : Candidate) : Prop where
  offers : c ∈ e.offers
  valid : ∃ v, s.instances[c.inst]? = some v ∧ Supported v.descriptor ∧ WellFormed C v.descriptor c

/-- No local query of a candidate is open when a replica offers it. -/
def Apart (s : State) (e : Event) : Prop := ∀ c ∈ e.offers, ∀ q ∈ s.queriesOf c.inst, q.candidate = c → q.query.mode = .historical

theorem Move.limits (h : Move C s₀ e s effects s') : s'.storageLimits = s.storageLimits := by
  cases h with
  | unknown number =>
    rw [State.unknown]
    split <;> rfl
  | _ => rfl

theorem Moves.limits (h : Moves C s₀ e s effects s') : s'.storageLimits = s.storageLimits := by
  induction h with
  | refl s => rfl
  | cons hm hrest ih => exact ih.trans hm.limits

/-- An event that brings no terminal ends no plan. -/
theorem Moves.keeps_of_none (h : Moves C s₀ e s effects s') (hf : Flight s) (he : e.terminal = none) : Keeps s s' := by
  rcases h.keeps_or_ends hf with hkeeps | ⟨s₁, s₂, -, hends, -⟩
  · exact hkeeps
  · obtain ⟨t, ht, -⟩ := hends.retained
    rw [he] at ht
    cases ht

/-- What is offered with a fork is kept or asked about, each half apart. -/
theorem fork_tracked (hf : Flight s) (hz : s.storageLimits.isSome) {p : ForkEvidence}
    (hpair : slot p.first = slot p.second ∧ p.first.operation ≠ p.second.operation) {c : Candidate} (hc : c ∈ [p.first, p.second])
    (hv : s.instances[c.inst]? = some v) (hsupported : Supported v.descriptor) (hform : WellFormed C v.descriptor c)
    (hasked : ∀ q ∈ s.queriesOf c.inst, q.candidate = c → q.query.mode = .historical)
    (hnew : ¬ ∃ a ∈ v.accepted, a.candidate = c) : Tracked (fork C s p).1 c := by
  have hinst : p.first.inst = c.inst := by
    rcases List.mem_pair.mp hc with rfl | rfl
    · rfl
    · exact congrArg Slot.inst hpair.1
  have hknown : ∀ d, d = c → (v.accepted.any fun a => a.candidate = d) = false := by
    rintro d rfl
    rw [List.any_eq_false]
    exact fun a ha had => hnew ⟨a, ha, of_decide_eq_true had⟩
  rw [fork, if_neg (by rw [not_or, not_not]; exact hpair), hinst, hv]
  dsimp only
  by_cases hfailed : v.storageIntegrityFailed = true
  · rw [if_pos hfailed]
    exact .inl ⟨v, hv, .inl (.inr (.inl hfailed))⟩
  rw [if_neg hfailed, if_neg]
  · have hoffer : ∀ (s' : State) (known : Bool) (d : Candidate), Moves C s (.offerFork p) s'
        (if known = true then (s', []) else offer C s' d false).2 (if known = true then (s', []) else offer C s' d false).1 := by
      intro s' known d
      split_ifs
      · exact .refl s'
      · exact moves_offer s' d false
    have hfirst := hoffer s (v.accepted.any fun a => a.candidate = p.first) p.first
    rcases List.mem_pair.mp hc with rfl | rfl
    · refine (hoffer _ _ p.second).tracked (hfirst.preserves (fun _ _ _ h hm => h.move hm) hf) rfl (by simp) ?_
      rw [hknown _ rfl]
      exact offer_tracked hf hz hv hsupported hform hasked
    · have hkept := (hfirst.keeps_of_none hf rfl).custody p.second.inst
      rw [hv] at hkept
      dsimp only
      rw [hknown p.second rfl, if_neg (by simp)]
      have hqueries : ∀ (k : ℕ) (q : PendingVerification),
          (if (v.accepted.any fun a => a.candidate = p.first) = true then (s, [])
            else offer C s p.first false).1.queries[k]? = some q → s.queries[k]? = some q ∨ q.query.mode = .historical := by
        intro k q hk
        split_ifs at hk
        · exact .inl hk
        · exact offer_queries s p.first hk
      have hlimits := hfirst.limits
      have hflight := hfirst.preserves (fun _ _ _ h hm => h.move hm) hf
      generalize (if (v.accepted.any fun a => a.candidate = p.first) = true then (s, []) else offer C s p.first false).1 = s₁
        at *
      cases hv₁ : s₁.instances[p.second.inst]? with
      | none =>
        rw [hv₁] at hkept
        cases hkept
      | some w =>
        rw [hv₁] at hkept
        cases hkept with
        | some hs =>
          refine offer_tracked hflight (by rw [hlimits]; exact hz) hv₁ (hs.descriptor ▸ hsupported) (hs.descriptor ▸ hform) ?_
          intro q hq hqc
          obtain ⟨hq, hqi⟩ := List.mem_filter.mp hq
          obtain ⟨k, hk⟩ := mem_values.mp hq
          rcases hqueries k q hk with hk | hmode
          · exact hasked q (List.mem_filter.mpr ⟨mem_values.mpr ⟨k, hk⟩, hqi⟩) hqc
          · exact hmode
  · rintro ⟨hfirst, hsecond⟩
    rcases List.mem_pair.mp hc with rfl | rfl
    · rw [hknown _ rfl] at hfirst
      cases hfirst
    · rw [hknown _ rfl] at hsecond
      cases hsecond

/-- What a replica offers is kept or asked about. -/
theorem step_offers (hf : Flight s) (hz : s.storageLimits.isSome) {c : Candidate} (ho : Offered C s e c) (hapart : Apart s e) :
    Tracked (step C s e).1 c := by
  obtain ⟨hoffers, v, hv, hsupported, hform⟩ := ho
  have hasked := hapart c hoffers
  cases e with
  | offerReplica c' =>
    obtain rfl := List.mem_singleton.mp hoffers
    exact offer_tracked hf hz hv hsupported hform hasked
  | offerFork p =>
    rw [Event.offers] at hoffers
    split_ifs at hoffers with hpair
    case neg => cases hoffers
    by_cases hheld : ∃ a ∈ v.accepted, a.candidate = c
    · obtain ⟨a, ha, rfl⟩ := hheld
      refine .inl (step_kept hf (fun t p v o ht => ?_) ⟨v, hv, .inl (.inl ⟨a, ha, rfl⟩)⟩)
      cases ht
    · exact fork_tracked hf hz hpair hoffers hv hsupported hform hasked hheld
  | _ => cases hoffers

/-! ### Runs -/

/-- What a step must not do: end a plan that holds the only trace of a replica's
operation without committing it, find facts that permit an operation under a
certificate that cannot be bound, or take a replica's offer for a local one. -/
structure Careful (C : Crypto) (s : State) (e : Event) : Prop where
  ended : EndsShown s e
  bears : Bears C s e
  apart : Apart s e

theorem evidence_unavailable (s : State) (q : Query) : (evidence C s ⟨q, .unavailable⟩).1 = s := by
  rw [evidence]
  cases hq : s.queries[q.id]?.filter (fun p => p.query = q) with
  | none => rfl
  | some p =>
    dsimp only
    cases hv : s.instances[p.candidate.inst]? with
    | none => rfl
    | some v =>
      dsimp only
      by_cases hfailed : v.storageIntegrityFailed = true
      · rw [if_pos hfailed]
      · rw [if_neg hfailed, if_pos rfl]

/-- What is tracked stays so, until it is refused. -/
theorem step_tracked (hist : Histories C s) (hw : Weighed s) (hcareful : Careful C s e) {c : Candidate} (ht : Tracked s c) :
    Tracked (step C s e).1 c ∨ Refuses c s e := by
  rcases ht with hk | ⟨q, hq, rfl, hmode⟩
  · exact .inl (.inl (step_kept hist.flight hcareful.ended hk))
  by_cases he : ∃ verdict, e = .evidenceResolved ⟨q.query, verdict⟩
  case neg =>
    refine .inl (.inr ⟨q, ?_, rfl, hmode⟩)
    exact (moves_step s e).keeps_query hist.flight.numbered (fun verdict h => he ⟨verdict, h⟩) hq
  obtain ⟨verdict, rfl⟩ := he
  have hanswers : Answers s (.evidenceResolved ⟨q.query, verdict⟩) q verdict := ⟨rfl, hq, hmode⟩
  cases verdict with
  | unavailable =>
    refine .inl (.inr ⟨q, ?_, rfl, hmode⟩)
    rw [step, evidence_unavailable]
    exact hq
  | verified f =>
    by_cases hpermits : Permits q f
    · obtain ⟨v, hv, -⟩ := hist.asked _ q hq
      exact .inl (.inl (evidence_kept hist.flight hw hanswers hpermits hv hcareful.bears))
    · refine .inr ⟨q, _, hanswers, rfl, by simp, fun f' hf' => ?_⟩
      obtain rfl := Verdict.verified.inj hf'
      exact hpermits
  | invalid => exact .inr ⟨q, _, hanswers, rfl, by simp, by simp⟩
  | sealed admission => exact .inr ⟨q, _, hanswers, rfl, by simp, by simp⟩

theorem run_kept (hfresh : Fresh s₀) (before after : List Event) (h : Along C (Careful C) s₀ (before ++ after))
    (hk : Kept (run C s₀ before) i o) : Kept (run C s₀ (before ++ after)) i o := by
  induction after using List.reverseRecOn with
  | nil => rwa [List.append_nil]
  | append_singleton after e ih =>
    rw [← List.append_assoc] at h ⊢
    rw [run_concat]
    exact step_kept (reachable_run hfresh _).flight h.last.ended (ih h.init)

theorem run_tracked (hfresh : Fresh s₀) (before after : List Event) (h : Along C (Careful C) s₀ (before ++ after))
    {c : Candidate} (ht : Tracked (run C s₀ before) c) :
    Tracked (run C s₀ (before ++ after)) c ∨ Happened C (Refuses c) (run C s₀ before) after := by
  induction after using List.reverseRecOn with
  | nil => exact .inl (by rwa [List.append_nil])
  | append_singleton after e ih =>
    rw [← List.append_assoc] at h ⊢
    rw [run_concat]
    rcases ih h.init with ht | hrefused
    · have hreach := reachable_run (C := C) hfresh (before ++ after)
      refine (step_tracked hreach.histories hreach.weighed h.last ht).imp_right fun hrefuses => ?_
      rw [run_append] at hrefuses
      exact .last hrefuses
    · exact .inr (hrefused.grow e)

theorem run_limits (s₀ : State) (events : List Event) : (run C s₀ events).storageLimits = s₀.storageLimits := by
  induction events using List.reverseRecOn with
  | nil => rfl
  | append_singleton events e ih =>
    rw [run_concat]
    exact (moves_step (C := C) _ e).limits.trans ih

/-- A complete read holds what is kept, and nothing is asked about. -/
theorem cut_complete (hv : s.instances[i]? = some v) {r : ReadCut} (hcut : cut C s i = some r)
    (hcomplete : r.completeLocal = true) :
    (∀ o, Kept s i o → Holds v o) ∧ ∀ c : Candidate, c.inst = i → ¬ Inquires s c := by
  rw [cut, hv] at hcut
  obtain rfl := Option.some.inj hcut
  simp only [Bool.and_eq_true, Bool.not_eq_true', decide_eq_true_eq, not_or, not_not, List.isEmpty_iff] at hcomplete
  obtain ⟨⟨⟨⟨⟨hqueries, hplans, -, -⟩, hincomplete⟩, hfailed⟩, -⟩, hcandidates⟩ := hcomplete
  have hincomplete : v.recoveryIncomplete = false := hincomplete
  have hfailed : v.storageIntegrityFailed = false := hfailed
  have hcandidates : v.candidates = [] := hcandidates
  constructor
  · rintro o ⟨w, hw, h⟩
    obtain rfl := Option.some.inj (hv.symm.trans hw)
    rcases h with (h | h | h | ⟨c, hc, -⟩) | ⟨n, p, hp, hinst, -⟩
    · exact h
    · rw [hfailed] at h
      cases h
    · rw [hincomplete] at h
      cases h
    · rw [hcandidates] at hc
      cases hc
    · exact absurd hinst (plans_eq_nil.mp hplans n p hp)
  · rintro c rfl ⟨q, hq, rfl, -⟩
    have hmem : q ∈ s.queriesOf q.candidate.inst :=
      List.mem_filter.mpr ⟨mem_values.mpr ⟨_, hq⟩, decide_eq_true rfl⟩
    rw [hqueries] at hmem
    cases hmem

/-- A complete read hides no operation of a replica: one that was permitted is
accepted, and one that was offered is, or was refused since. -/
theorem complete_hides_nothing (hfresh : Fresh s₀) (hlimits : s₀.storageLimits.isSome) {events : List Event}
    (h : Along C (Careful C) s₀ events) {c : Candidate} {r : ReadCut}
    (hv : (run C s₀ events).instances[c.inst]? = some v) (hcut : cut C (run C s₀ events) c.inst = some r)
    (hcomplete : r.completeLocal = true) :
    (Happened C (fun s e => ∃ q f, Answers s e q (.verified f) ∧ q.candidate = c ∧ Permits q f) s₀ events →
      Holds v c.operation) ∧
    ∀ before e after, events = before ++ e :: after → Offered C (run C s₀ before) e c →
      Holds v c.operation ∨ Happened C (Refuses c) (run C s₀ (before ++ [e])) after := by
  obtain ⟨hholds, hasks⟩ := cut_complete hv hcut hcomplete
  constructor
  · rintro ⟨before, e, after, rfl, q, f, hanswers, rfl, hpermits⟩
    have hreach := reachable_run (C := C) hfresh before
    obtain ⟨w, hw, -⟩ := hreach.histories.asked _ q hanswers.asked
    have hkept := evidence_kept hreach.flight hreach.weighed hanswers hpermits hw (h before e after rfl).bears
    rw [← run_concat] at hkept
    rw [List.append_cons] at h hholds
    exact hholds _ (run_kept hfresh _ after h hkept)
  · rintro before e after rfl hoffered
    have hreach := reachable_run (C := C) hfresh before
    have htracked := step_offers hreach.flight (by rw [run_limits]; exact hlimits) hoffered (h before e after rfl).apart
    rw [← run_concat] at htracked
    rw [List.append_cons] at h hholds hasks
    rcases run_tracked hfresh _ after h htracked with (hkept | hasked) | hrefused
    · exact .inl (hholds _ hkept)
    · exact absurd hasked (hasks c rfl)
    · exact .inr hrefused

/-! ### A plan that storage does not commit -/

/-- A read is complete where nothing is waited for. -/
theorem cut_quiet (hv : s.instances[i]? = some v) (hqueries : ∀ (k : ℕ) (q : PendingVerification), s.queries[k]? ≠ some q)
    (hidle : Idle s) (hlookups : ∀ (k : ℕ) (q : ResolveRequest), s.lookups[k]? ≠ some q)
    (hincomplete : v.recoveryIncomplete = false) (hfailed : v.storageIntegrityFailed = false) (hpending : v.pending = [])
    (hcandidates : v.candidates = []) : ∃ r, cut C s i = some r ∧ r.completeLocal = true := by
  rw [cut, hv]
  refine ⟨_, rfl, ?_⟩
  have hasked : s.queriesOf i = [] := by
    rw [State.queriesOf, List.filter_eq_nil_iff]
    intro q hq
    obtain ⟨k, hk⟩ := mem_values.mp hq
    exact absurd hk (hqueries k q)
  have hrefreshed : (refresh C v).pending = [] := by
    rw [refresh]
    dsimp only
    rw [hpending, hcandidates]
    simp
  simp only [Bool.and_eq_true, Bool.not_eq_true', decide_eq_true_eq, not_or, not_not, List.isEmpty_iff]
  refine ⟨⟨⟨⟨⟨hasked, hidle.plans i, ?_, ?_⟩, hincomplete⟩, hfailed⟩, hrefreshed⟩, hcandidates⟩
  · rintro ⟨⟨key, q⟩, he, -⟩
    exact hidle.preparing key q (Std.ExtTreeMap.mem_toList_iff_getElem?_eq_some.mp he)
  · rintro ⟨q, hq, -⟩
    obtain ⟨k, hk⟩ := mem_values.mp hq
    exact hlookups k q hk

theorem careful_of_quiet (ht : e.terminal = none) (he : ∀ q f, e ≠ .evidenceResolved ⟨q, .verified f⟩) (hapart : Apart s e) :
    Careful C s e where
  ended t p v o h := by
    rw [ht] at h
    cases h
  bears q f v h := absurd h.reply (he _ _)
  apart := hapart

/-- The provider's answer that an operation is not genuine. -/
def denying (C : Crypto) : EvidenceReply := ⟨asking C .first [] [] .historical 0, .invalid⟩

theorem queries_posed_nil {k : ℕ} {w : PendingVerification} : ((posed C).queries.erase 0)[k]? ≠ some w := by
  intro hw
  rw [Std.ExtTreeMap.getElem?_erase, posed, State.queried, Std.ExtTreeMap.getElem?_insert] at hw
  split_ifs at hw with h₁ h₂
  · exact h₁ h₂
  · simp [desk, State.opened] at hw

theorem lookups_posed_nil {k : ℕ} {w : ResolveRequest} : (posed C).lookups[k]? ≠ some w := by
  simp [posed, State.queried, desk, State.opened]

theorem offered_desk (C : Crypto) : Offered C (desk C) (.offerReplica (sketch C .first [] [])) (sketch C .first [] []) :=
  ⟨List.mem_singleton.mpr rfl, blank C, (room_desk C).known, ⟨rfl, rfl, rfl, rfl, rfl⟩, sketch_formed C .first [] []⟩

theorem careful_offer (C : Crypto) : Careful C (desk C) (.offerReplica (sketch C .first [] [])) :=
  careful_of_quiet rfl (by simp) fun c hc q hq => by simp [State.queriesOf, values, desk, State.opened] at hq

theorem run_denied (C : Crypto) :
    run C (desk C) [.offerReplica (sketch C .first [] []), .evidenceResolved (denying C)] = (posed C).answered 0 := by
  obtain ⟨-, -, -, -, hstep, -⟩ := first_admitted C
  have hasked : (posed C).queries[0]? = some (asked C .first [] [] .historical 0) := Std.ExtTreeMap.getElem?_insert_self
  have hknown : (posed C).instances[(draft C).inst]? = some (blank C) := (room_desk C).known
  have hdenied : (step C (posed C) (.evidenceResolved (denying C))).1 = (posed C).answered 0 := by
    rw [step, evidence, denying, show (asking C .first [] [] .historical 0).id = 0 from rfl, hasked, Option.filter_some,
      if_pos (by simp [asked])]
    dsimp only
    rw [show (asked C .first [] [] .historical 0).candidate.inst = (draft C).inst from rfl, hknown]
    dsimp only
    rw [if_neg (by simp [blank, InstanceState.opened]), if_neg (by simp),
      if_neg (by simp [LocalCurrent, asked, asking, Mode.localCut])]
  rw [run, List.foldl_cons, hstep, List.foldl_cons, hdenied, List.foldl_nil]

/-- What answers for the first operation bears it: few bytes are encoded. -/
theorem bears_vouching (C : Crypto) : Bears C (posed C) (.evidenceResolved (vouching C)) := by
  intro w f v ha _ hv
  obtain ⟨hevent, hasked, -⟩ := ha
  have hreply := Event.evidenceResolved.inj hevent
  obtain rfl : vouched C .first [] = f := Verdict.verified.inj (congrArg EvidenceReply.verdict hreply)
  have hquery : asking C .first [] [] .historical 0 = w.query := congrArg EvidenceReply.query hreply
  have hnil : ([] : Bytes).length ≤ 2 ^ 20 := Nat.zero_le _
  rw [← hquery] at hasked
  obtain rfl : asked C .first [] [] .historical 0 = w := Option.some.inj (Std.ExtTreeMap.getElem?_insert_self.symm.trans hasked)
  obtain rfl : blank C = v := Option.some.inj ((room_desk C).known.symm.trans hv)
  have hshort := sketch_short C .first hnil hnil
  have hencodable : ∀ acceptances : List StagedAcceptance, acceptances.length ≤ 1 → (∀ a ∈ acceptances, a.Short) →
      Encodable (posed C) (blank C) (sketch C .first [] []) acceptances [] := by
    intro acceptances hone haccept p hinst hrecords haccepts hforks
    have hp : p.Short :=
      ⟨hinst ▸ hshort.inst, hrecords ▸ ⟨le_rfl, by simpa using hshort⟩, haccepts ▸ ⟨hone, haccept⟩, hforks ▸ ⟨by simp, by simp⟩⟩
    have hbase := baseLength_le (s := { posed C with nextEffectId := (posed C).nextEffectId + 1 }) (draft_short C) hp
    exact (Nat.add_le_add_right hbase 40).trans_lt (by norm_num)
  have hunbound : ∀ old ∈ (blank C).canonicalOrigins[Stroke.first.origin]?, old = (vouched C .first []).certificate := by
    simp [blank, InstanceState.opened]
  refine ⟨(room_desk C).bindable hunbound, hencodable [] (by simp) (by simp), ?_⟩
  rintro admission ⟨⟩
  refine hencodable _ le_rfl fun a ha => ?_
  rw [List.mem_singleton.mp ha]
  exact ⟨staged_short C .first (blank C) hnil hnil _ _ _ hnil, vouched_short C .first hnil,
    asking_short C .first hnil hnil .historical 0, fun q hq => (by cases hq), hnil, hshort.inst⟩

/-- The provider's answer permits the first operation. -/
theorem happened_vouching (C : Crypto) (more : List Event) :
    Happened C (fun s e => ∃ w f, Answers s e w (.verified f) ∧ w.candidate = sketch C .first [] [] ∧ Permits w f) (desk C)
      (.offerReplica (sketch C .first [] []) :: .evidenceResolved (vouching C) :: more) := by
  obtain ⟨-, -, -, -, hstep, -⟩ := first_admitted C
  refine ⟨[.offerReplica (sketch C .first [] [])], .evidenceResolved (vouching C), more, rfl, asked C .first [] [] .historical 0,
    vouched C .first [], ⟨rfl, ?_, rfl⟩, rfl, attributable_vouched C _ _ _, rfl, permitted_vouched C _,
    ⟨rfl, rfl, rfl, _, rfl, Nat.zero_lt_one, le_rfl, le_rfl, Nat.zero_le _⟩⟩
  rw [run, List.foldl_cons, hstep]
  exact Std.ExtTreeMap.getElem?_insert_self

/-- A commit ends no plan without committing it. -/
theorem careful_committing (s s' : State) (q : PrepareRequest) (operation : OperationKind) :
    Careful C s (.resolved (committing s' q operation)) where
  ended t p v o ht hno := by
    obtain rfl := Option.some.inj ((terminal_committing s' q operation).symm.trans ht)
    cases hno
  bears w f v h := absurd h.reply (resolved_ne_evidence _ _)
  apart c hc := by
    rw [Event.resolved] at hc
    cases hop : (committing s' q operation).request.operation <;> rw [hop] at hc <;> cases hc

/-- A replica's first operation is permitted, staged, and committed: it is held where the
read is complete. One that is found invalid is not held, and was refused. -/
theorem complete_hides_nothing_desk : (∀ C, Fresh (desk C)) ∧ ∀ C : Crypto,
    (∃ events v r, (run C (desk C) events).instances[(draft C).inst]? = some v ∧
      cut C (run C (desk C) events) (draft C).inst = some r ∧ r.completeLocal = true ∧ (∃ e ∈ events, e.terminal.isSome) ∧
      Holds v (stroke .first)) ∧
    ∃ events r, cut C (run C (desk C) events) (draft C).inst = some r ∧ r.completeLocal = true ∧
      ∃ before e after, events = before ++ e :: after ∧ Offered C (run C (desk C) before) e (sketch C .first [] []) ∧
        Happened C (Refuses (sketch C .first [] [])) (run C (desk C) (before ++ [e])) after := by
  refine ⟨fresh_desk, fun C => ⟨?_, ?_⟩⟩
  · have hnil : ([] : Bytes).length ≤ 2 ^ 20 := Nat.zero_le _
    obtain ⟨batch, charges, q, s', hstep, hadmitted⟩ := first_admitted C
    have hrun := hadmitted.run_first
    have hknown := hadmitted.room.known
    have halong : Along C (Careful C) (desk C) (firstRun C (firstPlan C batch charges) q) := by
      refine .cons (careful_offer C) ?_
      rw [hstep]
      have hroom : Room C 1 (posed C) (blank C) :=
        (room_desk C).queried (q := asked C .first [] [] .historical 0) (sketch_short C .first hnil hnil)
      refine along_admitting hroom (by omega) hadmitted (plot_kind _ _ _ _ _ _ _ _ _ _)
        ⟨fun t p v o ht => (by cases ht), bears_vouching C, fun c hc => (by cases hc)⟩
        (careful_of_quiet rfl (by simp) fun c hc => by cases hc) fun operation _ => careful_committing _ _ q operation
    obtain ⟨r, hcut, hcomplete⟩ := cut_quiet (C := C) hknown
      (fun k w hw => by rw [hadmitted.queries] at hw; exact queries_posed_nil hw)
      hadmitted.idle (fun k w hw => lookups_posed_nil (hadmitted.lookups k w hw)) (installed_sound _ _ _).2
        (installed_sound _ _ _).1
      hadmitted.room.pending hadmitted.room.candidates
    rw [← hrun] at hcut hknown
    refine ⟨_, _, r, hknown, hcut, hcomplete, ⟨_, List.mem_cons_of_mem _ (List.mem_cons_of_mem _ (List.mem_cons_of_mem _
      List.mem_cons_self)), ?_⟩, (complete_hides_nothing (fresh_desk C) rfl halong (c := sketch C .first [] []) hknown hcut
      hcomplete).1 (happened_vouching C _)⟩
    rw [terminal_committing]
    rfl
  · have halong : Along C (Careful C) (desk C) [.offerReplica (sketch C .first [] []), .evidenceResolved (denying C)] := by
      refine .cons (careful_offer C) (.cons (careful_of_quiet rfl (fun q f h => ?_) fun c hc => by cases hc) along_nil)
      cases congrArg EvidenceReply.verdict (Event.evidenceResolved.inj h)
    have hknown : ((posed C).answered 0).instances[(draft C).inst]? = some (blank C) := (room_desk C).known
    obtain ⟨r, hcut, hcomplete⟩ := cut_quiet (C := C) hknown (fun _ _ => queries_posed_nil)
      (((idle_desk C).queried (asked C .first [] [] .historical 0)).answered 0)
      (fun _ _ => lookups_posed_nil (C := C)) rfl rfl rfl rfl
    rw [← run_denied] at hcut hknown
    refine ⟨_, r, hcut, hcomplete, [], _, [_], rfl, offered_desk C, ?_⟩
    rcases (complete_hides_nothing (fresh_desk C) rfl halong (c := sketch C .first [] []) hknown hcut hcomplete).2 [] _ _ rfl
      (offered_desk C) with ⟨a, ha, -⟩ | hrefused
    · simp [blank, InstanceState.opened] at ha
    · exact hrefused

/-- The terminal of a plan that storage does not commit. -/
def declinedOf (q : PrepareRequest) : Terminal :=
  { attempt := attemptOf q, outcome := .nonCommit q.binding.expectedRevision q.binding.storage }

/-- Storage prepares a plan and does not commit it. -/
def declining (s : State) (q : PrepareRequest) : List Event :=
  [.prepareResolved ⟨q, .prepared (attemptOf q)⟩, .commitResolved ⟨resolveOf s q .begin, .terminal (declinedOf q)⟩]

/-- The plan is gone, and nothing else is changed. -/
theorem declined {n : ℕ} (h : Room C n s v) (hn : n ≤ 100) {q : PrepareRequest} (hf : Flying s v p q)
    (hcut : p.localPrecondition = none) :
    run C s (declining s q) = (answering s q .begin).ended (declinedOf q) := by
  have hbinding := hf.binding
  rw [binding, Option.map_eq_some_iff] at hbinding
  obtain ⟨w, -, hbinding⟩ := hbinding
  have hfresh : ¬ Stale C s q := by
    rw [Stale, ← hbinding]
    simp [hcut]
  have hprepared : (step C s (.prepareResolved ⟨q, .prepared (attemptOf q)⟩)).1 = begun s q .begin := by
    rw [step, h.prepared hn hf, if_neg hfresh]
  have hdeclined : (step C (begun s q .begin) (.commitResolved ⟨resolveOf s q .begin, .terminal (declinedOf q)⟩)).1 =
      (answering s q .begin).ended (declinedOf q) := by
    rw [step, hf.resolves .begin (t := declinedOf q) ⟨rfl, rfl, rfl⟩ (fun h => by cases h)]
    rfl
  rw [run, declining, List.foldl_cons, hprepared, List.foldl_cons, hdeclined, List.foldl_nil]

/-- A replica's first operation is permitted and staged, and storage does not commit
it: the read is complete, and the operation is nowhere. -/
theorem declined_is_hidden : ¬ ∃ C : Crypto, ∀ (s₀ : State) (events : List Event) (c : Candidate) (v : InstanceState)
    (r : ReadCut), Fresh s₀ → s₀.storageLimits.isSome → (run C s₀ events).instances[c.inst]? = some v →
    cut C (run C s₀ events) c.inst = some r → r.completeLocal = true →
    Happened C (fun s e => ∃ q f, Answers s e q (.verified f) ∧ q.candidate = c ∧ Permits q f) s₀ events →
    Holds v c.operation := by
  rintro ⟨C, hclaim⟩
  have hnil : ([] : Bytes).length ≤ 2 ^ 20 := Nat.zero_le _
  obtain ⟨batch, charges, q, s', hstep, hadmitted⟩ := first_admitted C
  set p := plot C (blank C) (sketch C .first [] []) (vouched C .first [])
    (asking C .first [] [] .historical 0) none [] 1 batch charges
  have hroom : Room C 2 (((posed C).answered 0).staged p q) (blank C) :=
    (((room_desk C).queried (q := asked C .first [] [] .historical 0) (sketch_short C .first hnil hnil)).answered 0).staged p q
  set s₂ := ((posed C).answered 0).staged p q
  have hdeclined := declined hroom (by omega) hadmitted.flying rfl
  have hidle := hadmitted.flying.idle_ended .begin (t := declinedOf q) rfl
  have hrun : run C (desk C) (.offerReplica (sketch C .first [] []) :: .evidenceResolved (vouching C) :: declining s₂ q) =
      (answering s₂ q .begin).ended (declinedOf q) := by
    rw [← hdeclined, run, List.foldl_cons, hstep, List.foldl_cons, hadmitted.staged]
    rfl
  have hknown : ((answering s₂ q .begin).ended (declinedOf q)).instances[(draft C).inst]? = some (blank C) := hroom.known
  have hqueries : ∀ (k : ℕ) (w : PendingVerification), ((answering s₂ q .begin).ended (declinedOf q)).queries[k]? ≠ some w := by
    intro k w hw
    have hw : ((posed C).queries.erase 0)[k]? = some w := hw
    exact queries_posed_nil hw
  have hlookups : ∀ (k : ℕ) (w : ResolveRequest), ((answering s₂ q .begin).ended (declinedOf q)).lookups[k]? ≠ some w := by
    intro k w hw
    have hw : ((posed C).lookups.erase _)[k]? = some w := hw
    rw [Std.ExtTreeMap.getElem?_erase] at hw
    split_ifs at hw
    exact lookups_posed_nil hw
  obtain ⟨r, hcut, hcomplete⟩ := cut_quiet (C := C) hknown hqueries hidle hlookups rfl rfl rfl rfl
  obtain ⟨a, ha, -⟩ := hclaim (desk C) _ (sketch C .first [] []) (blank C) r (fresh_desk C) rfl (by rw [hrun]; exact hknown)
    (by rw [hrun]; exact hcut) hcomplete (happened_vouching C _)
  simp [blank, InstanceState.opened] at ha

end Glade.Kernel
