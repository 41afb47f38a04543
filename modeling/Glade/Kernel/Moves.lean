import Glade.Kernel.Callbacks

/-! What a step of the kernel can do. Every step is a run of moves, each of one
table or of one instance, with what was checked before it; the invariants of the
kernel are proved of the moves. -/

namespace Glade.Kernel

open Wire Node OrdMap

variable (C : Crypto)

/-! ### What a plan is staged for -/

/-- The event answers a query with facts that hold of its candidate. -/
structure VerifiedBy (s : State) (e : Event) (v : InstanceState) (p : PendingVerification) (f : Facts) : Prop where
  reply : e = .evidenceResolved ⟨p.query, .verified f⟩
  asked : s.queries[p.query.id]? = some p
  known : s.instances[p.candidate.inst]? = some v
  attributable : Attributable p.query f
  bindable : Bindable v s.storageLimits f.certificate
  payload : f.payloadValid = true
  permitted : SequencePermitted f p.candidate.operation
  present : missing C v p.candidate = []

/-- The event answers a local query with facts that hold under its cut. -/
structure LocallyVerified (s : State) (e : Event) (v : InstanceState) (p : PendingVerification) (f : Facts)
    (cut : LocalPrecondition) : Prop extends VerifiedBy C s e v p f where
  cut_eq : p.query.mode.localCut = some cut
  allowed : f.currentAllowed = true
  inside : Inside f.permitWindow cut.time
  current : LocalCurrent C s (p.verifiedQuery.getD p.query)
  unopposed : Unopposed C v p.candidate

/-- The event answers the seal of a local query. -/
structure SealedBy (s : State) (e : Event) (v : InstanceState) (p : PendingVerification) (f : Facts) (verify : Query)
    (admission : Bytes) : Prop where
  reply : e = .evidenceResolved ⟨p.query, .sealed admission⟩
  asked : s.queries[p.query.id]? = some p
  known : s.instances[p.candidate.inst]? = some v
  sealing : p.query.mode = .admissionSeal
  facts : p.verified = some f
  query : p.verifiedQuery = some verify
  current : LocalCurrent C s verify

/-- Why a plan is staged: a replica's operation or a local write is accepted, a
candidate or evidence against one is kept, or two accepted operations are
convicted. -/
inductive Justified (s : State) (e : Event) (v : InstanceState) (plan : CommitPlan) : Prop where
  | historical (p : PendingVerification) (f : Facts) (admission : Bytes) (h : VerifiedBy C s e v p f)
      (hmode : p.query.mode = .historical) (hadmitted : HistoricallyAdmitted p.candidate f)
      (hadmission : p.candidate.evidence.admission = some admission) (hinst : plan.inst = p.candidate.inst)
      (hcut : plan.localPrecondition = none)
      (haccept : plan.acceptances = [stagedAcceptance C v p.candidate f p.query none admission])
      (hforks : plan.qualifiedForks = rivals v p.candidate)
      (hkind : plan.kind = if rivals v p.candidate = [] then .acceptedBatch else .qualifiedFork)
  | sealed (p : PendingVerification) (f : Facts) (verify : Query) (admission : Bytes)
      (h : SealedBy C s e v p f verify admission) (hinst : plan.inst = p.candidate.inst)
      (hcut : plan.localPrecondition = verify.mode.localCut)
      (haccept : plan.acceptances = [stagedAcceptance C v p.candidate f verify (some p.query) admission])
      (hforks : plan.qualifiedForks = rivals v p.candidate)
      (hkind : plan.kind = if rivals v p.candidate = [] then .acceptedBatch else .qualifiedFork)
  | kept (hcut : plan.localPrecondition = none) (haccept : plan.acceptances = []) (hforks : plan.qualifiedForks = [])
      (hkind : plan.kind = .candidate ∨ plan.kind = .securityEvidence)
  | convicted (pair : ForkEvidence) (first second : Accepted) (hfirst : first ∈ v.accepted)
      (hsecond : second ∈ v.accepted) (hfc : first.candidate = pair.first) (hsc : second.candidate = pair.second)
      (hslot : slot pair.first = slot pair.second) (hne : pair.first.operation ≠ pair.second.operation)
      (hcut : plan.localPrecondition = none) (haccept : plan.acceptances = []) (hforks : plan.qualifiedForks = [pair])
      (hkind : plan.kind = .qualifiedFork)

/-! ### Moves -/

/-- An effect that issues no number and reports no receipt. -/
def Effect.Silent : Effect → Prop
  | .report (.acceptedLocal _) => False
  | .report (.exactRetry _) => False
  | .report _ => True
  | .requestMissing _ => True
  | .offerMissing _ => True
  | .projectionChanged _ => True
  | _ => False

/-- Two states of an instance with the same custody: they differ at most in its
policy, in what it waits for and in its marks, and no mark is lost. -/
structure SameCustody (v v' : InstanceState) : Prop where
  descriptor : v'.descriptor = v.descriptor
  revision : v'.revision = v.revision
  storage : v'.storage = v.storage
  accepted : v'.accepted = v.accepted
  qualifiedForks : v'.qualifiedForks = v.qualifiedForks
  canonicalOrigins : v'.canonicalOrigins = v.canonicalOrigins
  quarantine : v'.quarantine = v.quarantine
  used : v'.used = v.used
  candidates : v'.candidates = v.candidates
  failed : v.storageIntegrityFailed = true → v'.storageIntegrityFailed = true
  incomplete : v.recoveryIncomplete = true → v'.recoveryIncomplete = true

/-- Whether storage may be asked once more. -/
def InvocationRoom (s : State) : Prop :=
  ∃ z ∈ s.storageLimits, s.storageInvocations.size + s.retiredStorageInvocations.size < z.invocationHistory

/-- What was checked of a candidate before its evidence is asked for. -/
structure Offerable (s : State) (v : InstanceState) (c : Candidate) : Prop where
  sound : v.storageIntegrityFailed = false
  supported : Supported v.descriptor
  idle : ¬ s.Busy c.inst
  roomy : ∃ z ∈ s.storageLimits, ∃ isLocal, Roomy C s v z c isLocal
  unasked : ∀ q ∈ s.queriesOf c.inst, q.candidate ≠ c

/-- What was checked of a plan and its binding before it is taken. -/
structure Reserved (s : State) (v : InstanceState) (p : CommitPlan) (b : Binding) : Prop where
  sound : v.storageIntegrityFailed = false
  affordable : Affordable v p.charges
  items : p.kind = .candidate → v.candidates.length < v.descriptor.bounds.pendingItems
  slots : PendingFits s v p.inst (pendingSlots C s v p.inst (unmet C v p.kind p.records)) p.charges.pending
  declared : ∃ z ∈ s.storageLimits, Declared s z b
  invocation : InvocationRoom s

/-- Where the records of a plan come from: the candidate whose query the event
answers, or two accepted operations. -/
inductive Recorded (s₀ s : State) (e : Event) : List Candidate → List StagedAcceptance → Prop where
  | answered (w : PendingVerification) (verdict : Verdict) (c : Candidate) (acceptances : List StagedAcceptance)
      (he : e = .evidenceResolved ⟨w.query, verdict⟩) (hw : s₀.queries[w.query.id]? = some w)
      (hgone : s.queries = s₀.queries.erase w.query.id) (hinst : c.inst = w.candidate.inst)
      (hop : c.operation = w.candidate.operation) (haccept : ∀ a ∈ acceptances, a.candidate = c) :
      Recorded s₀ s e [c] acceptances
  | convicted (first second : Candidate) : Recorded s₀ s e [first, second] []

/-- The state with a query issued. -/
def State.queried (s : State) (p : PendingVerification) : State :=
  { s with nextEffectId := s.nextEffectId + 1, queries := s.queries.insert p.query.id p }

/-- The state with a plan taken and its prepare issued. -/
def State.staged (s : State) (p : CommitPlan) (q : PrepareRequest) : State :=
  { s with
    nextEffectId := s.nextEffectId + 2
    storageInvocations := s.storageInvocations.insert q.invocation (.prepare q)
    preparing := s.preparing.insert q.binding.plan q
    commits := s.commits.insert p.id p }

/-- The state with a request issued. -/
def State.asked (s : State) (i : StorageInvocation) : State :=
  { s with
    nextEffectId := s.nextEffectId + 1
    storageInvocations :=
      s.storageInvocations.insert { scope := s.invocationNamespace, number := s.nextEffectId } i }

/-- A terminal that is the first of its attempt, and of the plan the attempt is
bound to where that is in flight. Nothing of the step before it touched these. -/
structure Ending (s₀ s : State) (t : Terminal) : Prop where
  attempt : s.attempts[t.attempt.binding.plan]?.map (fun a => a.attempt) = some t.attempt
  fresh : t.attempt.id ∉ s.terminalResults
  valid : TerminalValid t t.attempt
  bound : ∀ p ∈ s.planOf t.attempt.binding.plan, binding s p = some t.attempt.binding
  instances : s.instances = s₀.instances
  plan : s.planOf t.attempt.binding.plan = s₀.planOf t.attempt.binding.plan
  results : s.terminalResults = s₀.terminalResults
  scope : s.planNamespace = s₀.planNamespace
  attempts : s.attempts = s₀.attempts
  queries : s.queries = s₀.queries

/-- The answer of storage an event brings of an attempt. -/
def Event.reply : Event → Option ResolveReply
  | .commitResolved r => some r
  | .fenceResolved r => some r
  | .lookupResolved r => some r
  | _ => none

/-- The terminal an event brings. -/
def Event.terminal (e : Event) : Option Terminal := e.reply.bind fun r =>
  match r.result with
  | .terminal t => some t
  | _ => none

/-- One move of the step that takes the event `e` in the state `s₀`. -/
inductive Move (s₀ : State) (e : Event) : State → List Effect → State → Prop where
  | silent (s : State) (effect : Effect) (h : effect.Silent) : Move s₀ e s [effect] s
  | receipt (s : State) (i : Instance) (v : InstanceState) (a : Accepted) (hv : s.instances[i]? = some v)
      (ha : a ∈ v.accepted) (effect : Effect)
      (h : effect = .report (.exactRetry a.receipt) ∨ effect = .report (.acceptedLocal a.receipt)) : Move s₀ e s [effect] s
  | touch (s : State) (i : Instance) (f : InstanceState → InstanceState) (hf : ∀ v, SameCustody v (f v))
      (hpending : ∀ v, s.instances[i]? = some v → (f v).pending = v.pending ∨ ∃ extra,
        (f v).pending = addNew v.pending extra ∧ PendingFits s v i (pendingSlots C s v i extra) 0) :
      Move s₀ e s [] (s.modify i f)
  | skip (s : State) : Move s₀ e s [] { s with nextEffectId := s.nextEffectId + 1 }
  | verify (s : State) (c : Candidate) (v : InstanceState) (mode : Mode) (hv : s.instances[c.inst]? = some v)
      (hnew : ∀ a ∈ v.accepted, a.candidate.operation ≠ c.operation) (hform : WellFormed C v.descriptor c)
      (hmode : mode = .historical ∨ mode = .localWrite (C.sha256 v.policy) v.policyTime) (hroom : Offerable C s v c) :
      Move s₀ e s [.verify (queryOf v c mode s.nextEffectId)] (s.queried
        { query := queryOf v c mode s.nextEffectId, candidate := c, verified := none, verifiedQuery := none })
  | answered (s : State) (p : PendingVerification) (verdict : Verdict) (he : e = .evidenceResolved ⟨p.query, verdict⟩)
      (hp : s.queries[p.query.id]? = some p) : Move s₀ e s [] (s.answered p.query.id)
  | sealing (s : State) (v : InstanceState) (p : PendingVerification) (f : Facts) (cut : LocalPrecondition)
      (h : LocallyVerified C s₀ e v p f cut) (hv : s.instances[p.candidate.inst]? = some v)
      (hs : s.instances = s₀.instances) (hgone : s.queries = s₀.queries.erase p.query.id) :
      Move s₀ e s [.sealing (sealOf p.query f s.nextEffectId)] (s.queried
        { query := sealOf p.query f s.nextEffectId, candidate := p.candidate, verified := some f,
          verifiedQuery := some p.query })
  | stage (s : State) (v : InstanceState) (p : CommitPlan) (q : PrepareRequest) (hv : s.instances[p.inst]? = some v)
      (hidle : s.plans p.inst = []) (hidle₀ : s₀.plans p.inst = []) (hid : p.id = s.nextEffectId)
      (hrevision : p.expectedRevision = v.revision)
      (hj : Justified C s₀ e v p) (hv₀ : s₀.instances[p.inst]? = some v) (hb : binding s p = some q.binding)
      (hinv : q.invocation = { scope := s.invocationNamespace, number := s.nextEffectId + 1 })
      (hs : s.instances = s₀.instances) (hrecords : Recorded s₀ s e p.records p.acceptances)
      (hreserved : Reserved C s v p q.binding) :
      Move s₀ e s [.prepare p q] (s.staged p q)
  | recover (s : State) (q : PrepareRequest)
      (hinv : q.invocation = { scope := s.invocationNamespace, number := s.nextEffectId }) (hroom : InvocationRoom s)
      (hpreparing : ∃ (key : PlanKey) (held : PrepareRequest), s.preparing[key]? = some held ∧ held.binding = q.binding) :
      Move s₀ e s [.recoverPlan q] (s.asked (.recoverPlan q))
  | inspect (s : State) (q : ResolveRequest) (hop : q.operation = .inspect)
      (hinv : q.invocation = { scope := s.invocationNamespace, number := s.nextEffectId }) (hroom : InvocationRoom s) :
      Move s₀ e s [.lookup q]
        { s.asked (.resolve q) with lookups := s.lookups.insert q.invocation.number q }
  | fence (s : State) (q : ResolveRequest) (hop : q.operation = .fence)
      (hinv : q.invocation = { scope := s.invocationNamespace, number := s.nextEffectId }) (hroom : InvocationRoom s) :
      Move s₀ e s [.fence q] (s.asked (.resolve q))
  | begin (s : State) (b : BeginRequest) (v : InstanceState) (hop : b.request.operation = .begin)
      (hinst : b.request.attempt.id.inst = b.request.attempt.binding.plan.inst)
      (hinv : b.request.invocation = { scope := s.invocationNamespace, number := s.nextEffectId })
      (hv : s.instances[b.request.attempt.id.inst]? = some v) (hv₀ : s₀.instances[b.request.attempt.id.inst]? = some v)
      (hcurrent : b.current = { policy := C.sha256 v.policy, time := v.policyTime })
      (hcut : ∀ p ∈ b.request.attempt.binding.prestart, CurrentMatches C s b.request.attempt.id.inst p.cut)
      (hroom : InvocationRoom s) :
      Move s₀ e s [.begin b] (s.asked (.resolve b.request))
  | retire (s : State) (id : InvocationId) (issued : StorageInvocation)
      (h : s.storageInvocations[id]? = some issued) : Move s₀ e s [] (s.retire id issued)
  | forget (s : State) (number : ℕ) : Move s₀ e s [] { s with lookups := s.lookups.erase number }
  | prepared (s : State) (request : PrepareRequest) (a : AttemptBinding) (hfits : PreparedFits s request a)
      (hheld : s.retiredStorageInvocations[request.invocation]? = some (.prepare request) ∨
        s.retiredStorageInvocations[request.invocation]? = some (.recoverPlan request)) :
      Move s₀ e s [] { s with
        preparing := s.preparing.erase a.binding.plan
        attempts := s.attempts.insertIfNew a.binding.plan { attempt := a, phase := .reserved } }
  | unknown (s : State) (number : ℕ) : Move s₀ e s [] (s.unknown number)
  | started (s : State) (key : PlanKey) (cut : Option LocalPrecondition)
      (hopen : ∀ a ∈ s.attempts[key]?, a.attempt.id ∉ s.terminalResults) :
      Move s₀ e s [] { s with attempts := s.attempts.modify key fun a => { a with phase := .started cut } }
  | conflict (s : State) (t : Terminal) :
      Move s₀ e s [] { s with terminalConflicts := s.terminalConflicts.insertIfNew t.attempt.id t }
  | dropped (s : State) (t : Terminal) (he : e.terminal = some t) (h : Ending s₀ s t)
      (hno : t.outcome.isCommitted = false) :
      Move s₀ e s [] (s.ended t)
  | installed (s : State) (t : Terminal) (p : CommitPlan) (v : InstanceState) (revision : ℕ) (storage : StorageClass)
      (receipts : List Receipt) (startCut : Option LocalPrecondition) (recovering : Bool) (he : e.terminal = some t)
      (h : Ending s₀ s t) (hp : s.planOf t.attempt.binding.plan = some p)
      (hout : t.outcome = .committed revision storage receipts startCut)
      (hv : s.instances[p.inst]? = some v) (hrevision : v.revision = p.expectedRevision)
      (hused : (v.used.add p.charges).isSome) :
      Move s₀ e s (installReports C p recovering revision storage)
        ((s.ended t).modify p.inst fun v => installed C v p revision)

/-- A run of moves, and what they ask for. -/
inductive Moves (s₀ : State) (e : Event) : State → List Effect → State → Prop where
  | refl (s : State) : Moves s₀ e s [] s
  | cons {s s' s'' : State} {effects effects' : List Effect} (h : Move C s₀ e s effects s')
      (hrest : Moves s₀ e s' effects' s'') : Moves s₀ e s (effects ++ effects') s''

namespace Moves

variable {C} {s₀ : State} {e : Event}

theorem one {s s' : State} {effects : List Effect} (h : Move C s₀ e s effects s') : Moves C s₀ e s effects s' := by
  simpa using Moves.cons h (.refl s')

theorem trans {s s' s'' : State} {effects effects' : List Effect} (h : Moves C s₀ e s effects s')
    (h' : Moves C s₀ e s' effects' s'') : Moves C s₀ e s (effects ++ effects') s'' := by
  induction h with
  | refl s => exact h'
  | cons hm hrest ih =>
    rw [List.append_assoc]
    exact .cons hm (ih h')

/-- A silent effect first. -/
theorem report {s s' : State} {effects : List Effect} (effect : Effect) (h : effect.Silent)
    (hrest : Moves C s₀ e s effects s') : Moves C s₀ e s (effect :: effects) s' := .cons (.silent s effect h) hrest

/-- A silent effect alone. -/
theorem said (s : State) (effect : Effect) (h : effect.Silent) : Moves C s₀ e s [effect] s := .report effect h (.refl s)

/-- A move with no effect first. -/
theorem quietly {s s' s'' : State} {effects : List Effect} (h : Move C s₀ e s [] s')
    (hrest : Moves C s₀ e s' effects s'') : Moves C s₀ e s effects s'' := .cons h hrest

end Moves

variable {C} {s₀ : State} {e : Event}

/-! ### Issuing -/

theorem allocate_eq_some {s s' : State} {id : ℕ} (h : allocate s = some (id, s')) :
    id = s.nextEffectId ∧ s' = { s with nextEffectId := s.nextEffectId + 1 } := by
  rw [allocate] at h
  split_ifs at h
  obtain ⟨rfl, rfl⟩ := Prod.mk.inj (Option.some.inj h)
  exact ⟨rfl, rfl⟩

theorem invocation_eq_some {s s' : State} {id : InvocationId} (h : invocation s = some (id, s')) :
    id = { scope := s.invocationNamespace, number := s.nextEffectId } ∧
      s' = { s with nextEffectId := s.nextEffectId + 1 } ∧ InvocationRoom s := by
  simp only [invocation, Option.bind_eq_bind, Option.bind_eq_some_iff] at h
  obtain ⟨z, hz, issued, hissued, h⟩ := h
  split_ifs at h with hfull
  simp only [Option.bind_eq_some_iff] at h
  obtain ⟨⟨number, s₁⟩, halloc, h⟩ := h
  obtain ⟨rfl, rfl⟩ := allocate_eq_some halloc
  obtain ⟨rfl, rfl⟩ := Prod.mk.inj (Option.some.inj h)
  rw [checkedAdd] at hissued
  split_ifs at hissued
  rw [← Option.some.inj hissued] at hfull
  exact ⟨rfl, rfl, z, hz, by omega⟩

theorem issueResolve_eq_some {s s' : State} {attempt : AttemptBinding} {operation : OperationKind} {q : ResolveRequest}
    (h : issueResolve s attempt operation = some (q, s')) :
    q.invocation = { scope := s.invocationNamespace, number := s.nextEffectId } ∧ q.operation = operation ∧
      q.attempt = attempt ∧ s.storageOwner = some q.owner ∧ s' = s.asked (.resolve q) ∧ InvocationRoom s := by
  simp only [issueResolve, Option.bind_eq_bind, Option.bind_eq_some_iff] at h
  obtain ⟨owner, howner, ⟨id, s₁⟩, hinv, h⟩ := h
  obtain ⟨rfl, rfl, hroom⟩ := invocation_eq_some hinv
  obtain ⟨rfl, rfl⟩ := Prod.mk.inj (Option.some.inj h)
  exact ⟨rfl, rfl, rfl, howner, rfl, hroom⟩

theorem moves_recoverPlans (qs : List PrepareRequest) (s : State) (hqs : ∀ q ∈ qs, ∃ key : PlanKey, s.preparing[key]? = some q) :
    Moves C s₀ e s (recoverPlans s qs).2.1 (recoverPlans s qs).1 := by
  induction qs generalizing s with
  | nil => exact .refl s
  | cons q qs ih =>
    have hrest : ∀ q' ∈ qs, ∃ key : PlanKey, s.preparing[key]? = some q' := fun q' hq' => hqs q' (List.mem_cons_of_mem _ hq')
    rw [recoverPlans]
    split_ifs
    · exact ih s hrest
    split
    · exact .said s _ trivial
    case h_2 id s₁ hinv =>
      obtain ⟨rfl, rfl, hroom⟩ := invocation_eq_some hinv
      obtain ⟨key, hkey⟩ := hqs q (List.mem_cons_self ..)
      exact .cons (.recover s { q with invocation := _ } rfl hroom ⟨key, q, hkey, rfl⟩) (ih _ hrest)

theorem moves_inspectAttempts (attempts : List KernelAttempt) (s : State) :
    Moves C s₀ e s (inspectAttempts s attempts).2 (inspectAttempts s attempts).1 := by
  induction attempts generalizing s with
  | nil => exact .refl s
  | cons a attempts ih =>
    rw [inspectAttempts]
    split_ifs
    · exact ih s
    split
    · exact .said s _ trivial
    case h_2 q s₁ hissue =>
      obtain ⟨hinv, hop, -, -, rfl, hroom⟩ := issueResolve_eq_some hissue
      exact .cons (.inspect s q hop hinv hroom) (ih _)

theorem moves_fenceAttempts (attempts : List AttemptBinding) (s : State) :
    Moves C s₀ e s (fenceAttempts s attempts).2 (fenceAttempts s attempts).1 := by
  induction attempts generalizing s with
  | nil => exact .refl s
  | cons a attempts ih =>
    rw [fenceAttempts]
    split_ifs
    · exact ih s
    split
    case h_1 q s₁ hissue =>
      obtain ⟨hinv, hop, -, -, rfl, hroom⟩ := issueResolve_eq_some hissue
      exact .cons (.fence s q hop hinv hroom) (ih _)
    · exact .report _ trivial (ih s)

theorem moves_resume (s : State) (i : Instance) : Moves C s₀ e s (resume s i).2 (resume s i).1 := by
  rw [resume]
  have h : Moves C s₀ e s _ _ :=
    moves_recoverPlans ((values s.preparing).filter (fun p => p.binding.plan.inst = i)) s fun q hq =>
      mem_values.mp (List.mem_of_mem_filter hq)
  dsimp only
  split_ifs
  · exact h.trans (moves_inspectAttempts _ _)
  · exact h

theorem moves_refused (s : State) (i : Instance) (isLocal : Bool) : Moves C s₀ e s [] (s.refused i isLocal) := by
  rw [State.refused]
  split_ifs
  · exact .refl s
  · exact .one (.touch s i _ (fun _ => ⟨rfl, rfl, rfl, rfl, rfl, rfl, rfl, rfl, rfl, id, fun _ => rfl⟩) fun _ _ => .inl rfl)

/-! ### Staging -/

theorem encodeLoop_eq_some {s : State} {d : Descriptor} {fuel : ℕ} {p p' : CommitPlan}
    (h : encodeLoop s d fuel p = some p') :
    ∃ batch, p' = { p with batch, charges := chargesOf p.localPrecondition.isSome p.kind batch.length } := by
  induction fuel generalizing p with
  | zero => cases h
  | succ fuel ih =>
    rw [encodeLoop] at h
    dsimp only at h
    split_ifs at h with hc
    · obtain rfl := Option.some.inj h
      exact ⟨encodePlan s d p, by rw [← hc]⟩
    · obtain ⟨batch, rfl⟩ := ih h
      exact ⟨batch, rfl⟩

theorem justified_congr {s : State} {v : InstanceState} {p p' : CommitPlan} (h : Justified C s e v p)
    (hinst : p'.inst = p.inst) (hcut : p'.localPrecondition = p.localPrecondition) (haccept : p'.acceptances = p.acceptances)
    (hforks : p'.qualifiedForks = p.qualifiedForks) (hkind : p'.kind = p.kind) : Justified C s e v p' := by
  cases h with
  | historical q f admission h hm ha had hi hc hac hf hk =>
    exact .historical q f admission h hm ha had (hinst.trans hi) (hcut.trans hc) (haccept.trans hac) (hforks.trans hf)
      (hkind.trans hk)
  | sealed q f verify admission h hi hc hac hf hk =>
    exact .sealed q f verify admission h (hinst.trans hi) (hcut.trans hc) (haccept.trans hac) (hforks.trans hf)
      (hkind.trans hk)
  | kept hc hac hf hk =>
    exact .kept (hcut.trans hc) (haccept.trans hac) (hforks.trans hf) (by rwa [hkind])
  | convicted pair first second h1 h2 h3 h4 h5 h6 hc hac hf hk =>
    exact .convicted pair first second h1 h2 h3 h4 h5 h6 (hcut.trans hc) (haccept.trans hac) (hforks.trans hf)
      (hkind.trans hk)

theorem lifecycleStage_eq_some {s s' : State} {p : CommitPlan} {effects : List Effect}
    (h : Lifecycle.stage s p = some (s', effects)) :
    ∃ q : PrepareRequest, binding s p = some q.binding ∧
      q.invocation = { scope := s.invocationNamespace, number := s.nextEffectId } ∧
      (∃ z ∈ s.storageLimits, Declared s z q.binding) ∧ InvocationRoom s ∧ effects = [.prepare p q] ∧
      s' = { s with
        nextEffectId := s.nextEffectId + 1
        storageInvocations := s.storageInvocations.insert q.invocation (.prepare q)
        preparing := s.preparing.insert q.binding.plan q
        commits := s.commits.insert p.id p } := by
  simp only [Lifecycle.stage, Option.bind_eq_bind, Option.bind_eq_some_iff] at h
  obtain ⟨b, hb, z, hz, h⟩ := h
  split_ifs at h with hdeclared
  simp only [Option.bind_eq_some_iff] at h
  obtain ⟨owner, -, ⟨id, s₁⟩, hinv, h⟩ := h
  obtain ⟨rfl, rfl, hroom⟩ := invocation_eq_some hinv
  obtain ⟨rfl, rfl⟩ := Prod.mk.inj (Option.some.inj h)
  exact ⟨_, hb, rfl, ⟨z, hz, hdeclared⟩, hroom, rfl, rfl⟩

/-- A plan of the records, whatever its number and its batch. -/
def planFor (kind : CommitKind) (records : List Candidate) (acceptances : List StagedAcceptance)
    (forks : List ForkEvidence) (cut : Option LocalPrecondition) (i : Instance) : CommitPlan :=
  { id := 0, inst := i, expectedRevision := 0, localPrecondition := cut, batch := [], kind, records, acceptances,
    qualifiedForks := forks, charges := ⟨0, 0, 0, 0⟩ }

theorem moves_stage {s : State} {kind : CommitKind} {c : Candidate} {records : List Candidate}
    {acceptances : List StagedAcceptance} {forks : List ForkEvidence} {cut : Option LocalPrecondition}
    (hs : s.instances = s₀.instances) (hplans : ∀ i, s.plans i = s₀.plans i)
    (hrecords : Recorded s₀ s e (c :: records) acceptances)
    (hj : ∀ v, s₀.instances[c.inst]? = some v →
      Justified C s₀ e v (planFor kind (c :: records) acceptances forks cut c.inst)) :
    Moves C s₀ e s (stage C s kind (c :: records) acceptances forks cut).2
      (stage C s kind (c :: records) acceptances forks cut).1 := by
  rw [stage]
  simp only [List.head?_cons]
  cases hv : s.instances[c.inst]? with
  | none => exact .refl s
  | some v =>
    dsimp only
    split_ifs with hfailed hidle
    · exact .said s _ trivial
    · exact .report _ trivial ((moves_refused s _ _).trans (moves_resume _ _))
    split
    · exact .said s _ trivial
    case h_2 size hsize =>
      have hrefused : ∀ s' : State, Moves C s₀ e s' [.report .capacity] (s'.refused c.inst cut.isSome) :=
        fun s' => .report _ trivial (moves_refused s' _ _)
      split_ifs with henough
      case neg => exact hrefused s
      split
      · exact hrefused s
      case h_2 id s₁ halloc =>
        obtain ⟨rfl, rfl⟩ := allocate_eq_some halloc
        have hskip : Move C s₀ e s [] { s with nextEffectId := s.nextEffectId + 1 } := .skip s
        split
        · exact .one hskip
        case h_2 p hloop =>
          obtain ⟨batch, rfl⟩ := encodeLoop_eq_some hloop
          split_ifs with hafford
          · exact .quietly hskip (hrefused _)
          split
          · exact .quietly hskip (hrefused _)
          case h_2 staged hstage =>
            obtain ⟨s', effects⟩ := staged
            obtain ⟨q, hb, hinv, hdeclared, hroom, rfl, rfl⟩ := lifecycleStage_eq_some hstage
            rw [not_not] at hidle
            rw [not_or, not_not, not_not] at hafford
            have hv₀ := hv
            rw [hs] at hv₀
            refine .one (.stage s v _ q hv hidle ((hplans _).symm.trans hidle) rfl rfl
              (justified_congr (hj v hv₀) rfl rfl rfl rfl rfl) hv₀ hb hinv hs hrecords
              ⟨by simpa using hfailed, hafford.2, henough.2.1, hafford.1, hdeclared, hroom⟩)

theorem moves_acceptance {s : State} {c : Candidate} {f : Facts} {verify : Query} {sealing : Option Query}
    {admission : Bytes} (hs : s.instances = s₀.instances) (hplans : ∀ i, s.plans i = s₀.plans i)
    (hrecords : ∀ c' acceptances, c'.inst = c.inst → c'.operation = c.operation → (∀ a ∈ acceptances, a.candidate = c') →
      Recorded s₀ s e [c'] acceptances)
    (hj : ∀ v, s₀.instances[c.inst]? = some v → ∀ plan : CommitPlan, plan.inst = c.inst →
      plan.localPrecondition = verify.mode.localCut →
      plan.acceptances = [stagedAcceptance C v c f verify sealing admission] → plan.qualifiedForks = rivals v c →
      (plan.kind = if rivals v c = [] then .acceptedBatch else .qualifiedFork) → Justified C s₀ e v plan) :
    Moves C s₀ e s (acceptance C s c f verify sealing admission).2 (acceptance C s c f verify sealing admission).1 := by
  rw [acceptance]
  cases hv : s.instances[c.inst]? with
  | none => exact .refl s
  | some v =>
    refine moves_stage hs hplans (hrecords _ _ rfl rfl (by simp)) fun v' hv' => ?_
    rw [hs] at hv
    obtain rfl : v = v' := Option.some.inj (hv.symm.trans hv')
    exact hj v hv _ rfl rfl rfl rfl rfl

/-! ### Offers and evidence -/

theorem moves_offer (s : State) (c : Candidate) (isLocal : Bool) :
    Moves C s₀ e s (offer C s c isLocal).2 (offer C s c isLocal).1 := by
  have hrefused : Moves C s₀ e s [.report .capacity] (s.refused c.inst isLocal) :=
    .report _ trivial (moves_refused s _ _)
  rw [offer]
  cases hv : s.instances[c.inst]? with
  | none => exact .said s _ trivial
  | some v =>
    dsimp only
    cases hfind : v.accepted.find? (fun a => a.candidate.operation = c.operation) with
    | some a => exact .one (.receipt s c.inst v a hv (List.mem_of_find?_eq_some hfind) _ (.inl rfl))
    | none =>
      dsimp only
      by_cases hfailed : v.storageIntegrityFailed = true
      · rw [if_pos hfailed]
        exact .said s _ trivial
      rw [if_neg hfailed]
      by_cases hsupported : ¬ Supported v.descriptor
      · rw [if_pos hsupported]
        exact .said s _ trivial
      rw [if_neg hsupported]
      by_cases hform : ¬ WellFormed C v.descriptor c
      · rw [if_pos hform]
        exact .said s _ trivial
      rw [if_neg hform]
      by_cases hbusy : s.Busy c.inst
      · rw [if_pos hbusy]
        exact .report _ trivial ((moves_refused s _ _).trans (moves_resume _ _))
      rw [if_neg hbusy]
      cases hz : s.storageLimits with
      | none => exact .said s _ trivial
      | some z =>
        dsimp only
        by_cases hroomy : ¬ Roomy C s v z c isLocal
        · rw [if_pos hroomy]
          exact hrefused
        rw [if_neg hroomy]
        by_cases hasked : ∃ q ∈ s.queriesOf c.inst, q.candidate = c
        · rw [if_pos hasked]
          exact .said s _ trivial
        rw [if_neg hasked]
        cases halloc : allocate s with
        | none => exact hrefused
        | some p =>
          obtain ⟨id, s₁⟩ := p
          obtain ⟨rfl, rfl⟩ := allocate_eq_some halloc
          refine .one (.verify s c v _ hv (fun a ha hop => ?_) (not_not.mp hform) ?_
            ⟨by simpa using hfailed, not_not.mp hsupported, hbusy, ⟨z, hz, isLocal, not_not.mp hroomy⟩,
              fun q hq hc => hasked ⟨q, hq, hc⟩⟩)
          · simpa [hop] using List.find?_eq_none.mp hfind a ha
          · cases isLocal <;> simp

theorem moves_qualified {s : State} {v : InstanceState} {p : PendingVerification} {f : Facts}
    (hs : s.instances = s₀.instances) (hplans : ∀ i, s.plans i = s₀.plans i)
    (hgone : s.queries = s₀.queries.erase p.query.id)
    (hrecords : ∀ c acceptances, c.inst = p.candidate.inst → c.operation = p.candidate.operation →
      (∀ a ∈ acceptances, a.candidate = c) → Recorded s₀ s e [c] acceptances)
    (hverified : missing C v p.candidate = [] → VerifiedBy C s₀ e v p f)
    (hasked : p.query.mode ≠ .admissionSeal) (hv : s₀.instances[p.candidate.inst]? = some v)
    (hlocal : ∀ cut ∈ p.query.mode.localCut, f.currentAllowed = true ∧ Inside f.permitWindow cut.time ∧
      LocalCurrent C s₀ (p.verifiedQuery.getD p.query))
    (hhistorical : p.query.mode = .historical → HistoricallyAdmitted p.candidate f) :
    Moves C s₀ e s (qualified C s v p f).2 (qualified C s v p f).1 := by
  have hcandidate : Moves C s₀ e s (stage C s .candidate [p.candidate] [] [] none).2
      (stage C s .candidate [p.candidate] [] [] none).1 :=
    moves_stage hs hplans (hrecords _ _ rfl rfl (by simp)) fun _ _ => .kept rfl rfl rfl (.inl rfl)
  rw [qualified]
  by_cases hmissing : missing C v p.candidate = []
  · have h := hverified hmissing
    simp only [hmissing, ne_eq, not_true_eq_false, if_false]
    cases hmode : p.query.mode with
    | localWrite policy time =>
      obtain ⟨hallowed, hinside, hcurrent⟩ := hlocal ⟨policy, time⟩ (by rw [hmode]; rfl)
      dsimp only
      split_ifs with hunopposed
      · split
        · exact .said s _ trivial
        case h_2 id s₁ halloc =>
          obtain ⟨rfl, rfl⟩ := allocate_eq_some halloc
          exact .one (.sealing s v p f ⟨policy, time⟩
            ⟨h, by rw [hmode]; rfl, hallowed, hinside, hcurrent, hunopposed⟩ (hs ▸ hv) hs hgone)
      · exact .said s _ trivial
    | admissionSeal => exact absurd hmode hasked
    | historical =>
      have hadmitted := hhistorical hmode
      dsimp only
      cases hadmission : p.candidate.evidence.admission with
      | none => exact .refl s
      | some admission =>
        refine moves_acceptance hs hplans hrecords fun v' hv' plan hinst hcut haccept hforks hkind => ?_
        obtain rfl : v = v' := Option.some.inj (hv.symm.trans hv')
        exact .historical p f admission h hmode hadmitted hadmission hinst (by rw [hcut, hmode]; rfl) haccept hforks hkind
  · simp only [ne_eq, hmissing, not_false_eq_true, if_true]
    split_ifs with hfits
    · split
      · exact .report _ trivial (.said s _ trivial)
      · exact .report _ trivial (.report _ trivial hcandidate)
    · exact .report _ trivial (.one (.touch s _ _ (fun _ => ⟨rfl, rfl, rfl, rfl, rfl, rfl, rfl, rfl, rfl, id,
        fun _ => rfl⟩) fun _ _ => .inl rfl))

theorem moves_verified {s : State} {v : InstanceState} {p : PendingVerification} {f : Facts}
    (hs : s.instances = s₀.instances) (hplans : ∀ i, s.plans i = s₀.plans i)
    (hgone : s.queries = s₀.queries.erase p.query.id) (hlimits : s.storageLimits = s₀.storageLimits)
    (hreply : e = .evidenceResolved ⟨p.query, .verified f⟩) (hp : s₀.queries[p.query.id]? = some p)
    (hv : s₀.instances[p.candidate.inst]? = some v) (hasked : p.query.mode ≠ .admissionSeal)
    (hcurrent : LocalCurrent C s₀ (p.verifiedQuery.getD p.query)) :
    Moves C s₀ e s (verified C s v p f).2 (verified C s v p f).1 := by
  have hrecords : ∀ c acceptances, c.inst = p.candidate.inst → c.operation = p.candidate.operation →
      (∀ a ∈ acceptances, a.candidate = c) → Recorded s₀ s e [c] acceptances :=
    fun c acceptances hinst hop haccept => .answered p _ c acceptances hreply hp hgone hinst hop haccept
  have hsecurity : Moves C s₀ e s (stage C s .securityEvidence [p.candidate] [] [] none).2
      (stage C s .securityEvidence [p.candidate] [] [] none).1 :=
    moves_stage hs hplans (hrecords _ _ rfl rfl (by simp)) fun _ _ => .kept rfl rfl rfl (.inr rfl)
  rw [verified]
  by_cases hinst : f.certificate.inst ≠ p.query.inst
  · rw [if_pos hinst]
    exact .said s _ trivial
  rw [if_neg hinst]
  by_cases hattr : ¬ Attributable p.query f ∨ ¬ Bindable v s.storageLimits f.certificate
  · rw [if_pos hattr]
    exact .said s _ trivial
  rw [if_neg hattr]
  rw [not_or, not_not, not_not, hlimits] at hattr
  have hby : f.payloadValid = true ∧ SequencePermitted f p.candidate.operation → missing C v p.candidate = [] →
      VerifiedBy C s₀ e v p f :=
    fun hok hpresent => ⟨hreply, hp, hv, hattr.1, hattr.2, hok.1, hok.2, hpresent⟩
  cases hmode : p.query.mode with
  | admissionSeal => exact absurd hmode hasked
  | localWrite policy time =>
    dsimp only
    split_ifs with hok hallowed hinside
    · refine moves_qualified hs hplans hgone hrecords (hby hok) hasked hv (fun cut hcut => ?_)
        (fun h => by rw [hmode] at h; cases h)
      rw [hmode] at hcut
      obtain rfl := Option.some.inj hcut
      exact ⟨hallowed, hinside, hcurrent⟩
    all_goals exact .said s _ trivial
  | historical =>
    dsimp only
    split_ifs with hok hadmitted
    · exact moves_qualified hs hplans hgone hrecords (hby hok) hasked hv (by simp [hmode, Mode.localCut]) fun _ => hadmitted
    all_goals exact hsecurity

/-- The answer to a query leaves the state, or takes the query. -/
theorem evidence_moves (s : State) (r : EvidenceReply) :
    ((evidence C s r).1 = s ∧ Moves C s (.evidenceResolved r) s (evidence C s r).2 s) ∨
      Move C s (.evidenceResolved r) s [] (s.answered r.query.id) ∧
        Moves C s (.evidenceResolved r) (s.answered r.query.id) (evidence C s r).2 (evidence C s r).1 := by
  rw [evidence]
  cases hp : s.queries[r.query.id]?.filter (fun p => p.query = r.query) with
  | none => exact .inl ⟨rfl, .said s _ trivial⟩
  | some p =>
    obtain ⟨hp, hquery⟩ := Option.filter_eq_some_iff.mp hp
    obtain ⟨query, verdict⟩ := r
    obtain rfl : p.query = query := by simpa using hquery
    dsimp only
    cases hv : s.instances[p.candidate.inst]? with
    | none => exact .inl ⟨rfl, .refl s⟩
    | some v =>
      dsimp only
      by_cases hfailed : v.storageIntegrityFailed = true
      · rw [if_pos hfailed]
        exact .inl ⟨rfl, .said s _ trivial⟩
      rw [if_neg hfailed]
      by_cases hunavailable : verdict = .unavailable
      · rw [if_pos hunavailable]
        exact .inl ⟨rfl, .said s _ trivial⟩
      rw [if_neg hunavailable]
      refine .inr ⟨.answered s p verdict rfl hp, ?_⟩
      by_cases hcurrent : LocalCurrent C (s.answered p.query.id) (p.verifiedQuery.getD p.query)
      case neg =>
        rw [if_pos hcurrent]
        exact .said _ _ trivial
      rw [if_neg (not_not.mpr hcurrent)]
      change LocalCurrent C s (p.verifiedQuery.getD p.query) at hcurrent
      cases verdict with
      | invalid => exact .said _ _ trivial
      | unavailable => exact absurd rfl hunavailable
      | verified f =>
        dsimp only
        by_cases hmode : p.query.mode ≠ .admissionSeal
        · rw [if_pos hmode]
          exact moves_verified rfl (fun _ => rfl) rfl rfl rfl hp hv hmode hcurrent
        · rw [if_neg hmode]
          exact .said _ _ trivial
      | sealed admission =>
        dsimp only
        cases hf : p.verified with
        | none => exact .said _ _ trivial
        | some f =>
          cases hverify : p.verifiedQuery with
          | none => exact .said _ _ trivial
          | some verify =>
            rw [hverify, Option.getD_some] at hcurrent
            dsimp only
            by_cases hmode : p.query.mode = .admissionSeal
            case neg =>
              rw [if_pos hmode]
              exact .said _ _ trivial
            rw [if_neg (not_not.mpr hmode)]
            split_ifs with hsize
            · exact .said _ _ trivial
            · refine moves_acceptance rfl (fun _ => rfl)
                (fun c acceptances hinst hop haccept => .answered p _ c acceptances rfl hp rfl hinst hop haccept)
                fun v' hv' plan hinst hcut haccept hforks hkind => ?_
              obtain rfl : v = v' := Option.some.inj (hv.symm.trans hv')
              exact .sealed p f verify admission ⟨rfl, hp, hv, hmode, hf, hverify, hcurrent⟩ hinst hcut haccept hforks
                hkind

theorem moves_evidence (s : State) (r : EvidenceReply) :
    Moves C s (.evidenceResolved r) s (evidence C s r).2 (evidence C s r).1 := by
  rcases evidence_moves (C := C) s r with ⟨hleft, hmoves⟩ | ⟨hfirst, hmoves⟩
  · rwa [hleft]
  · exact .quietly hfirst hmoves

theorem moves_fork (s : State) (p : ForkEvidence) : Moves C s e s (fork C s p).2 (fork C s p).1 := by
  rw [fork]
  by_cases hpair : slot p.first ≠ slot p.second ∨ p.first.operation = p.second.operation
  · rw [if_pos hpair]
    exact .said s _ trivial
  rw [if_neg hpair]
  rw [not_or, not_not] at hpair
  cases hv : s.instances[p.first.inst]? with
  | none => exact .said s _ trivial
  | some v =>
    dsimp only
    by_cases hfailed : v.storageIntegrityFailed = true
    · rw [if_pos hfailed]
      exact .said s _ trivial
    rw [if_neg hfailed]
    by_cases hboth : (v.accepted.any fun a => a.candidate = p.first) = true ∧
        (v.accepted.any fun a => a.candidate = p.second) = true
    · rw [if_pos hboth]
      refine moves_stage rfl (fun _ => rfl) (.convicted p.first p.second) fun v' hv' => ?_
      obtain rfl : v = v' := Option.some.inj (hv.symm.trans hv')
      obtain ⟨first, hfirst, hfc⟩ := List.any_eq_true.mp hboth.1
      obtain ⟨second, hsecond, hsc⟩ := List.any_eq_true.mp hboth.2
      exact .convicted p first second hfirst hsecond (by simpa using hfc) (by simpa using hsc) hpair.1 hpair.2 rfl rfl
        rfl rfl
    · rw [if_neg hboth]
      have hoffer : ∀ (s' : State) (known : Bool) (c : Candidate),
          Moves C s e s' (if known = true then (s', []) else offer C s' c false).2
            (if known = true then (s', []) else offer C s' c false).1 := by
        intro s' known c
        split_ifs
        · exact .refl s'
        · exact moves_offer s' c false
      exact (hoffer s _ p.first).trans (hoffer _ _ p.second)

/-! ### Storage replies -/

/-- The answer to a prepare leaves the state, or takes the request. -/
theorem prepareReply_moves (s : State) (r : PrepareReply) :
    ((prepareReply C s r).1 = s ∧ Moves C s e s (prepareReply C s r).2 s) ∨
      ∃ issued, Move C s e s [] (s.retire r.request.invocation issued) ∧
        Moves C s e (s.retire r.request.invocation issued) (prepareReply C s r).2 (prepareReply C s r).1 := by
  rw [prepareReply]
  cases hissued : prepareIssued s r.request with
  | none => exact .inl ⟨rfl, .said s _ trivial⟩
  | some issued =>
    obtain ⟨hlive, hrequest⟩ := Option.filter_eq_some_iff.mp hissued
    dsimp only
    by_cases hsession : s.storageOwner ≠ some r.request.owner ∨ r.request.invocation.scope ≠ s.invocationNamespace
    · rw [if_pos hsession]
      exact .inl ⟨rfl, .said s _ trivial⟩
    rw [if_neg hsession]
    have hpending : Moves C s e (s.retire r.request.invocation issued) [.report
      (.outcomeUnknown (C.sha256 r.request.binding.batch))]
        ((s.retire r.request.invocation issued).unknown r.request.binding.plan.number) :=
      .quietly (.unknown _ _) (.said _ _ trivial)
    cases hresult : r.result with
    | pending => exact .inr ⟨issued, .retire s _ _ hlive, hpending⟩
    | refused fault => exact .inr ⟨issued, .retire s _ _ hlive, hpending⟩
    | prepared a =>
      dsimp only
      by_cases hfits : ¬ PreparedFits s r.request a
      · rw [if_pos hfits]
        exact .inl ⟨rfl, .said s _ trivial⟩
      rw [if_neg hfits, not_not] at *
      refine .inr ⟨issued, .retire s _ _ hlive, ?_⟩
      set s₁ := s.retire r.request.invocation issued with hs₁
      set s₂ : State := { s₁ with
        preparing := s₁.preparing.erase a.binding.plan
        attempts := s₁.attempts.insertIfNew a.binding.plan { attempt := a, phase := .reserved } } with hs₂
      have hheld : s₁.retiredStorageInvocations[r.request.invocation]? = some (.prepare r.request) ∨
          s₁.retiredStorageInvocations[r.request.invocation]? = some (.recoverPlan r.request) := by
        rw [show s₁.retiredStorageInvocations[r.request.invocation]? = some issued from Std.ExtTreeMap.getElem?_insert_self]
        cases issued with
        | prepare q => exact .inl (by simpa using hrequest)
        | recoverPlan q => exact .inr (by simpa using hrequest)
        | resolve q => simp at hrequest
      have hprepared : Moves C s e s₁ [] s₂ := .one (.prepared s₁ r.request a hfits hheld)
      cases hissue : issueResolve s₂ a
          (if (a.binding.prestart.any fun p => decide (¬ CurrentMatches C s₂ a.id.inst p.cut)) = true then .fence
            else .begin) with
      | none => exact hprepared.trans (.said _ _ trivial)
      | some q =>
        obtain ⟨q, s₃⟩ := q
        obtain ⟨hinv, hop, hattempt, -, rfl, hroom⟩ := issueResolve_eq_some hissue
        refine hprepared.trans ?_
        dsimp only
        split_ifs at hop ⊢ with hstale
        · exact .one (.fence s₂ q hop hinv hroom)
        · cases hv : s₂.instances[a.id.inst]? with
          | none => exact .refl s₂
          | some v =>
            refine .one (.begin s₂ ⟨q, _⟩ v hop (by rw [hattempt]; exact hfits.2.1) hinv
              (by rw [hattempt]; exact hv) (by rw [hattempt]; exact hv) rfl ?_ hroom)
            intro p hp
            rw [hattempt] at hp ⊢
            by_contra hno
            exact hstale ((Option.any_eq_true ..).mpr ⟨p, hp, by simpa using hno⟩)

theorem moves_prepareReply (s : State) (r : PrepareReply) :
    Moves C s e s (prepareReply C s r).2 (prepareReply C s r).1 := by
  rcases prepareReply_moves (C := C) (e := e) s r with ⟨hleft, hmoves⟩ | ⟨issued, hfirst, hmoves⟩
  · rwa [hleft]
  · exact .quietly hfirst hmoves

theorem moves_observe (s : State) (i : Instance) (policy : Bytes) (time : TimeInterval) :
    Moves C s e s (observe C s i policy time).2 (observe C s i policy time).1 := by
  rw [observe]
  cases hv : s.instances[i]? with
  | none => exact .said s _ trivial
  | some v =>
    dsimp only
    split_ifs
    · exact .said s _ trivial
    · refine .quietly (.touch s i (fun v => { v with timeFloorMs := time.earliestMs, policy, policyTime := time })
        (fun _ => ⟨rfl, rfl, rfl, rfl, rfl, rfl, rfl, rfl, rfl, id, id⟩) fun _ _ => .inl rfl) ?_
      exact moves_fenceAttempts _ _

theorem moves_frontier (s : State) (i : Instance) (heads : Std.ExtTreeMap String (ℤ × Digest)) :
    Moves C s e s (frontier C s i heads).2 (frontier C s i heads).1 := by
  have hincomplete : Moves C s e s [.report .capacity] (s.incomplete i) :=
    .report _ trivial (.one (.touch s i _ (fun _ => ⟨rfl, rfl, rfl, rfl, rfl, rfl, rfl, rfl, rfl, id,
      fun _ => rfl⟩) fun _ _ => .inl rfl))
  have hlacking : ∀ (v : InstanceState) (slots : List Slot), s.instances[i]? = some v →
      PendingFits s v i (pendingSlots C s v i slots) 0 → Moves C s e s []
        (s.modify i fun v => { v with recoveryIncomplete := true, pending := addNew v.pending slots }) := by
    intro v slots hv hfits
    refine .one (.touch s i _ (fun _ => ⟨rfl, rfl, rfl, rfl, rfl, rfl, rfl, rfl, rfl, id, fun _ => rfl⟩) fun w hw => ?_)
    obtain rfl : v = w := Option.some.inj (hv.symm.trans hw)
    exact .inr ⟨slots, rfl, hfits⟩
  have hoffers : ∀ (s' : State) (offered : List Accepted),
      Moves C s e s' (if offered = [] then [] else [.offerMissing (offered.map fun a => a.candidate)]) s' := by
    intro s' offered
    split_ifs
    · exact .refl s'
    · exact .said s' _ trivial
  rw [frontier]
  cases hv : s.instances[i]? with
  | none => exact .said s _ trivial
  | some v =>
    dsimp only
    split
    · exact .said s _ trivial
    split
    · exact hincomplete
    split
    · exact hincomplete
    case isFalse hfits =>
      split
      · exact hoffers s _
      · exact (hlacking v _ hv (not_not.mp hfits)).trans (.report _ trivial (hoffers _ _))

theorem moves_replay (s : State) (i : Instance) : Moves C s₀ e s (replay C s i).2 (replay C s i).1 := by
  rw [replay]
  cases hv : s.instances[i]? with
  | none => exact .refl s
  | some v =>
    dsimp only
    split
    · exact .refl s
    · exact moves_offer s _ false

theorem moves_cut (s : State) (i : Instance) :
    Moves C s₀ e s ((cut C s i).toList.map Effect.projectionChanged) s := by
  cases cut C s i with
  | none => exact .refl s
  | some c => exact .said s _ trivial

theorem moves_terminal {s : State} {r : ResolveReply} {operation : OperationKind} {t : Terminal}
    (he : e.terminal = some t) (ht : t.attempt = r.request.attempt) (hending : Ending s₀ s t)
    (hplan : t.outcome.isCommitted = true → (installable s r).isSome) :
    Moves C s₀ e s (terminal C s operation t (s.planOf t.attempt.binding.plan)).2
      (terminal C s operation t (s.planOf t.attempt.binding.plan)).1 := by
  cases hout : t.outcome with
  | nonCommit revision storage =>
    simp only [terminal, hout]
    exact .one (.dropped s t he hending (by rw [hout]; rfl))
  | committed revision storage receipts startCut =>
    obtain ⟨p, hp⟩ := Option.isSome_iff_exists.mp (hplan (by rw [hout]; rfl))
    simp only [installable, Option.bind_eq_bind, Option.bind_eq_some_iff] at hp
    obtain ⟨p, hplanOf, v, hv, hp⟩ := hp
    split_ifs at hp with hfits
    rw [← ht] at hplanOf
    simp only [terminal, hout, hplanOf]
    have hinstalled : Moves C s₀ e s _ _ := .one (.installed s t p v revision storage receipts startCut
      (decide (t.attempt.binding.plan.number ∈ s.unknownCommits) || decide (operation = .inspect)) he hending hplanOf hout
      hv hfits.1 hfits.2)
    exact (hinstalled.trans (moves_cut _ p.inst)).trans (moves_replay _ p.inst)

/-- The answer to a request about an attempt leaves the state, records a contradiction, or
takes the request. -/
theorem resolve_moves (s : State) (r : ResolveReply) (operation : OperationKind) (he : e.reply = some r) :
    (ReplyValid r ∧ (∃ t, contrary s r = some t) ∨ (resolve C s r operation).1 = s) ∧
        Moves C s e s (resolve C s r operation).2 (resolve C s r operation).1 ∨
      Move C s e s [] (s.retire r.request.invocation (.resolve r.request)) ∧
        Moves C s e (s.retire r.request.invocation (.resolve r.request)) (resolve C s r operation).2
          (resolve C s r operation).1 := by
  have hmismatch : ∀ s' : State, Moves C s e s' [.report .callbackMismatch] s' := fun s' => .said s' _ trivial
  rw [resolve]
  by_cases hgone : ¬ Issued s s.storageInvocations r operation ∧ ¬ Issued s s.retiredStorageInvocations r operation
  · rw [if_pos hgone]
    exact .inl ⟨.inr rfl, hmismatch s⟩
  rw [if_neg hgone]
  by_cases hvalid : ¬ ReplyValid r
  · rw [if_pos hvalid]
    exact .inl ⟨.inr rfl, hmismatch s⟩
  rw [if_neg hvalid]
  rw [not_not] at hvalid
  cases hcontrary : contrary s r with
  | some t =>
    refine .inl ⟨.inl ⟨hvalid, t, rfl⟩, .quietly (.conflict s t) ?_⟩
    exact .report _ trivial (.one (.touch _ _ _ (fun _ => ⟨rfl, rfl, rfl, rfl, rfl, rfl, rfl, rfl, rfl,
      fun _ => rfl, id⟩) fun _ _ => .inl rfl))
  | none =>
    dsimp only
    by_cases hlive : ¬ Issued s s.storageInvocations r operation
    · rw [if_pos hlive]
      exact .inl ⟨.inr rfl, hmismatch s⟩
    rw [if_neg hlive]
    by_cases hattempt : s.attempts[r.request.attempt.binding.plan]?.map (fun a => a.attempt) ≠ some r.request.attempt
    · rw [if_pos hattempt]
      exact .inl ⟨.inr rfl, hmismatch s⟩
    rw [if_neg hattempt]
    by_cases hbound : ¬ PlanBound s r
    · rw [if_pos hbound]
      exact .inl ⟨.inr rfl, hmismatch s⟩
    rw [if_neg hbound]
    by_cases hstart : ¬ StartFits r
    · rw [if_pos hstart]
      exact .inl ⟨.inr rfl, hmismatch s⟩
    rw [if_neg hstart]
    by_cases hinstall : ¬ InstallFits s r
    · rw [if_pos hinstall]
      exact .inl ⟨.inr rfl, hmismatch s⟩
    rw [if_neg hinstall]
    rw [not_not] at hlive hattempt hbound hinstall
    refine .inr ⟨.retire s _ _ hlive.2.1, ?_⟩
    set s₁ := s.retire r.request.invocation (.resolve r.request) with hs₁
    set s₂ : State := { s₁ with lookups := s₁.lookups.erase r.request.invocation.number } with hs₂
    have hforgot : Moves C s e s₁ [] s₂ := .one (.forget s₁ _)
    refine hforgot.trans ?_
    by_cases hdone : r.request.attempt.id ∈ s₂.terminalResults
    · rw [if_pos hdone]
      exact hmismatch s₂
    rw [if_neg hdone]
    cases hresult : r.result with
    | terminal t =>
      have ht := hvalid t hresult
      have hta : t.attempt = r.request.attempt := ht.1
      rw [← hta] at ht
      rw [show s.planOf r.request.attempt.binding.plan = s₂.planOf t.attempt.binding.plan from by rw [hta]; rfl]
      refine moves_terminal (by rw [Event.terminal, he, Option.bind_some, hresult]) hta ⟨?_, ?_, ht, ?_, rfl,
        rfl, rfl, rfl, rfl, rfl⟩ fun hcommitted => ?_
      · rw [hta]
        exact hattempt
      · rwa [hta]
      · rw [hta]
        exact hbound
      · exact hinstall t hresult hcommitted hdone
    | pending => exact .quietly (.unknown s₂ _) (.said _ _ trivial)
    | refused fault => exact .quietly (.unknown s₂ _) (.said _ _ trivial)
    | started cut =>
      refine .quietly (.started s₂ _ cut fun a ha => ?_) (.quietly (.unknown _ _) (.said _ _ trivial))
      have ha' : s.attempts[r.request.attempt.binding.plan]? = some a := ha
      rw [ha', Option.map_some] at hattempt
      rwa [Option.some.inj hattempt]

theorem moves_resolve (s : State) (r : ResolveReply) (operation : OperationKind) (he : e.reply = some r) :
    Moves C s e s (resolve C s r operation).2 (resolve C s r operation).1 := by
  rcases resolve_moves (C := C) s r operation he with ⟨-, hmoves⟩ | ⟨hfirst, hmoves⟩
  · exact hmoves
  · exact .quietly hfirst hmoves

/-- Every step is a run of moves. -/
theorem moves_step (s : State) (e : Event) : Moves C s e s (step C s e).2 (step C s e).1 := by
  cases e with
  | submitLocal c => exact moves_offer s c true
  | offerReplica c => exact moves_offer s c false
  | evidenceResolved r => exact moves_evidence s r
  | prepareResolved r => exact moves_prepareReply s r
  | commitResolved r => exact moves_resolve s r .begin rfl
  | fenceResolved r => exact moves_resolve s r .fence rfl
  | lookupResolved r => exact moves_resolve s r .inspect rfl
  | observePolicy i policy time => exact moves_observe s i policy time
  | offerFork p => exact moves_fork s p
  | observeFrontier i heads => exact moves_frontier s i heads
  | read i =>
    rw [step]
    split
    · exact .said s _ trivial
    · exact .said s _ trivial
  | resumeRecovery i =>
    have hresume : Moves C s (.resumeRecovery i) s _ _ := moves_resume s i
    rw [step]
    dsimp only
    split_ifs with hempty
    · rw [List.isEmpty_iff] at hempty
      rw [hempty] at hresume
      refine hresume.trans ?_
      cases hv : (resume s i).1.instances[i]? with
      | none => exact .refl _
      | some v =>
        cases hlast : v.accepted.getLast? with
        | none =>
          rw [Option.bind_some, hlast]
          exact .refl _
        | some a =>
          rw [Option.bind_some, hlast]
          exact .one (.receipt _ i v a hv (List.mem_of_getLast? hlast) _ (.inr rfl))
    · exact hresume

end Glade.Kernel
