import Glade.Kernel.Admission

/-! What storage answers of an attempt (`contracts/crdt-admission-core/src/callbacks.rs`),
and the step of the kernel (`lib.rs`). A plan is installed by the first committed
terminal of its attempt. -/

namespace Glade.Kernel

open Wire Node OrdMap

/-- Whether a terminal is one of the attempt, and says what its binding does. -/
def TerminalValid (t : Terminal) (a : AttemptBinding) : Prop :=
  t.attempt = a ∧
    match t.outcome with
    | .nonCommit revision storage => revision = a.binding.expectedRevision ∧ storage = a.binding.storage
    | .committed revision storage receipts startCut =>
      checkedAdd a.binding.expectedRevision 1 = some revision ∧ storage = a.binding.storage ∧
        receipts = a.binding.receipts ∧ startCut = a.binding.prestart.map fun p => p.cut

instance (t : Terminal) (a : AttemptBinding) : Decidable (TerminalValid t a) :=
  match t with
  | ⟨attempt, .nonCommit _ _⟩ => inferInstanceAs (Decidable (attempt = a ∧ _ ∧ _))
  | ⟨attempt, .committed _ _ _ _⟩ => inferInstanceAs (Decidable (attempt = a ∧ _ ∧ _ ∧ _ ∧ _))

def TerminalOutcome.isCommitted : TerminalOutcome → Bool
  | .committed .. => true
  | .nonCommit .. => false

/-- The plan of an attempt, while it has no terminal. -/
def State.planOf (s : State) (key : PlanKey) : Option CommitPlan :=
  s.commits[key.number]?.or s.unknownCommits[key.number]?

/-- Whether the reply is to a request that is outstanding, or was, and is for this
owner and this session. -/
def Issued (s : State) (table : Std.ExtTreeMap InvocationId StorageInvocation) (r : ResolveReply)
    (operation : OperationKind) : Prop :=
  r.request.operation = operation ∧ table[r.request.invocation]? = some (.resolve r.request) ∧
    s.storageOwner = some r.request.owner ∧ r.request.invocation.scope = s.invocationNamespace

instance (s : State) (table : Std.ExtTreeMap InvocationId StorageInvocation) (r : ResolveReply)
    (operation : OperationKind) : Decidable (Issued s table r operation) := by
  dsimp only [Issued]
  infer_instance

/-- Whether what the reply says fits its request. -/
def ReplyValid (r : ResolveReply) : Prop := ∀ t, r.result = .terminal t → TerminalValid t r.request.attempt

instance (r : ResolveReply) : Decidable (ReplyValid r) :=
  match h : r.result with
  | .terminal t => decidable_of_iff (TerminalValid t r.request.attempt) (by simp [ReplyValid, h])
  | .pending => .isTrue (by simp [ReplyValid, h])
  | .started _ => .isTrue (by simp [ReplyValid, h])
  | .refused _ => .isTrue (by simp [ReplyValid, h])

/-- A terminal that is not the one the attempt is known to have. -/
def contrary (s : State) (r : ResolveReply) : Option Terminal :=
  match r.result with
  | .terminal t =>
    match s.terminalResults[t.attempt.id]? with
    | some original => if original ≠ t then some t else none
    | none => none
  | _ => none

/-- Whether the plan, where there is one, is the one the request was bound to. -/
def PlanBound (s : State) (r : ResolveReply) : Prop :=
  ∀ p ∈ s.planOf r.request.attempt.binding.plan, binding s p = some r.request.attempt.binding

instance (s : State) (r : ResolveReply) : Decidable (PlanBound s r) := by
  dsimp only [PlanBound]
  infer_instance

/-- Whether an attempt that has started did so under its own cut. -/
def StartFits (r : ResolveReply) : Prop :=
  ∀ cut, r.result = .started cut → cut = r.request.attempt.binding.prestart.map fun p => p.cut

instance (r : ResolveReply) : Decidable (StartFits r) :=
  match h : r.result with
  | .started cut =>
    decidable_of_iff (cut = r.request.attempt.binding.prestart.map fun p => p.cut) (by simp [StartFits, h])
  | .pending => .isTrue (by simp [StartFits, h])
  | .terminal _ => .isTrue (by simp [StartFits, h])
  | .refused _ => .isTrue (by simp [StartFits, h])

/-- The plan a new committed terminal would install, if it can be. -/
def installable (s : State) (r : ResolveReply) : Option CommitPlan := do
  let p ← s.planOf r.request.attempt.binding.plan
  let v ← s.instances[p.inst]?
  if v.revision = p.expectedRevision ∧ (v.used.add p.charges).isSome then some p else none

/-- Whether a new committed terminal has a plan to install. -/
def InstallFits (s : State) (r : ResolveReply) : Prop :=
  ∀ t, r.result = .terminal t → t.outcome.isCommitted → r.request.attempt.id ∉ s.terminalResults →
    (installable s r).isSome

instance (s : State) (r : ResolveReply) : Decidable (InstallFits s r) :=
  match h : r.result with
  | .terminal t =>
    decidable_of_iff (t.outcome.isCommitted → r.request.attempt.id ∉ s.terminalResults → (installable s r).isSome)
      (by simp [InstallFits, h])
  | .pending => .isTrue (by simp [InstallFits, h])
  | .started _ => .isTrue (by simp [InstallFits, h])
  | .refused _ => .isTrue (by simp [InstallFits, h])

/-! ### Installation -/

variable (C : Crypto)

/-- Take an acceptance, unless its operation is accepted. -/
def install (v : InstanceState) (a : StagedAcceptance) : InstanceState :=
  let known := v.accepted.any fun old => old.candidate.operation = a.candidate.operation
  let v := if known then v
    else
      { v with
        canonicalOrigins := v.canonicalOrigins.insert a.facts.certificate.canonicalOrigin a.facts.certificate
        accepted := v.accepted ++ [{ candidate := a.candidate, facts := a.facts, receipt := a.receipt }] }
  { v with candidates := v.candidates.filter fun c => c.operation ≠ a.candidate.operation }

/-- The records a list did not have, after it. -/
def addNew {α : Type} [DecidableEq α] (held : List α) (records : List α) : List α :=
  records.foldl (fun held c => if c ∈ held then held else held ++ [c]) held

/-- The instance with a plan installed at `revision`. -/
def installed (v : InstanceState) (p : CommitPlan) (revision : ℕ) : InstanceState :=
  let v := { v with used := (v.used.add p.charges).getD v.used, revision }
  let v := p.acceptances.foldl install v
  let v := match p.kind with
    | .candidate => { v with candidates := addNew v.candidates p.records }
    | .securityEvidence => { v with securityEvidence := addNew v.securityEvidence p.records }
    | _ => v
  refresh C { v with qualifiedForks := addNew v.qualifiedForks p.qualifiedForks }

/-- What is reported of an installed plan. -/
def installReports (p : CommitPlan) (recovering : Bool) (revision : ℕ) (storage : StorageClass) : List Effect :=
  if p.kind = .acceptedBatch then
    p.acceptances.map fun a => .report (if recovering then .exactRetry a.receipt else .acceptedLocal a.receipt)
  else [.report (.batchRetained p.inst p.kind (C.sha256 p.batch) revision storage)]

/-- Offer the first retained candidate that misses nothing now. -/
def replay (s : State) (i : Instance) : State × List Effect :=
  match s.instances[i]? with
  | none => (s, [])
  | some v =>
    match v.candidates.find? (fun c => missing C v c = []) with
    | none => (s, [])
    | some c => offer C s c false

/-- The state with an attempt's terminal retained, and its plan gone. -/
def State.ended (s : State) (t : Terminal) : State :=
  let key := t.attempt.binding.plan
  { s with
    terminalResults := s.terminalResults.insert t.attempt.id t
    attempts := s.attempts.modify key fun a => { a with phase := .terminal t.outcome }
    commits := s.commits.erase key.number
    unknownCommits := s.unknownCommits.erase key.number
    preparing := s.preparing.erase key }

/-- The first terminal of an attempt: its plan goes, and is installed if it was
committed. -/
def terminal (s : State) (operation : OperationKind) (t : Terminal) (plan : Option CommitPlan) : State × List Effect :=
  let recovering : Bool := decide (t.attempt.binding.plan.number ∈ s.unknownCommits) || operation = .inspect
  let s := s.ended t
  match t.outcome, plan with
  | .committed revision storage _ _, some p =>
    let s := s.modify p.inst fun v => installed C v p revision
    let changed := (cut C s p.inst).toList.map Effect.projectionChanged
    let (s, effects) := replay C s p.inst
    (s, installReports C p recovering revision storage ++ changed ++ effects)
  | _, _ => (s, [])

/-- The answer to a request about an attempt. -/
def resolve (s : State) (r : ResolveReply) (operation : OperationKind) : State × List Effect :=
  let mismatch : List Effect := [.report .callbackMismatch]
  let live := Issued s s.storageInvocations r operation
  if ¬ live ∧ ¬ Issued s s.retiredStorageInvocations r operation then (s, mismatch)
  else if ¬ ReplyValid r then (s, mismatch)
  else
    match contrary s r with
    | some t =>
      let s := { s with terminalConflicts := s.terminalConflicts.insertIfNew t.attempt.id t }
      (s.modify t.attempt.id.inst fun v => { v with storageIntegrityFailed := true }, [.report .integrityConflict])
    | none =>
      let attempt := r.request.attempt
      let key := attempt.binding.plan
      if ¬ live then (s, mismatch)
      else if s.attempts[key]?.map (fun a => a.attempt) ≠ some attempt then (s, mismatch)
      else if ¬ PlanBound s r then (s, mismatch)
      else if ¬ StartFits r then (s, mismatch)
      else if ¬ InstallFits s r then (s, mismatch)
      else
        let plan := s.planOf key
        let s := s.retire r.request.invocation (.resolve r.request)
        let s := { s with lookups := s.lookups.erase r.request.invocation.number }
        -- The attempt has its terminal: this answer ends its own request and no more.
        if attempt.id ∈ s.terminalResults then (s, mismatch)
        else
          match r.result with
          | .terminal t => terminal C s operation t plan
          | result =>
            let s := match result with
              | .started cut => { s with attempts := s.attempts.modify key fun a => { a with phase := .started cut } }
              | _ => s
            (s.unknown key.number, [.report (.outcomeUnknown (C.sha256 attempt.binding.batch))])

/-! ### Steps -/

/-- The heads a peer has: what it lacks is offered, and what it has and this
instance does not is asked for. -/
def frontier (s : State) (i : Instance) (heads : Std.ExtTreeMap String (ℤ × Digest)) : State × List Effect :=
  match s.instances[i]? with
  | none => (s, [.report .invalid])
  | some v =>
    let named := heads.toList
    if v.descriptor.bounds.maxOrigins < named.length ∨ (∃ e ∈ named, e.1 = "") ∨
        ∃ e ∈ named, e.2.1 < 0 ∨ safe ≤ e.2.1 then (s, [.report .invalid])
    else if ¬ ∃ z ∈ s.storageLimits, (utf8 i.incarnation).length ≤ z.maxNameBytes ∧
        ∀ e ∈ named, (utf8 e.1).length ≤ z.maxNameBytes then (s.incomplete i, [.report .capacity])
    else
      let offered := v.accepted.filter fun a =>
        ∀ head ∈ heads[a.candidate.operation.origin]?, head.1 < a.candidate.operation.seq
      let unknown := named.filter fun e => ¬ ∃ a ∈ v.accepted,
        a.candidate.operation.origin = e.1 ∧ a.candidate.operation.seq = e.2.1 ∧ opHash C a.candidate.operation = e.2.2
      let lacking := unknown.map fun e => { inst := i, origin := e.1, seq := e.2.1 : Slot }
      if ¬ PendingFits s v i (pendingSlots C s v i lacking) 0 then (s.incomplete i, [.report .capacity])
      else
        let offers : List Effect := if offered = [] then [] else [.offerMissing (offered.map fun a => a.candidate)]
        if lacking = [] then (s, offers)
        else
          let s := s.modify i fun v => { v with recoveryIncomplete := true, pending := addNew v.pending lacking }
          (s, .requestMissing lacking :: offers)

/-- One event: the state after it, and what it asks for. -/
def step (s : State) : Event → State × List Effect
  | .submitLocal c => offer C s c true
  | .offerReplica c => offer C s c false
  | .evidenceResolved r => evidence C s r
  | .prepareResolved r => prepareReply C s r
  | .commitResolved r => resolve C s r .begin
  | .fenceResolved r => resolve C s r .fence
  | .lookupResolved r => resolve C s r .inspect
  | .observePolicy i policy time => observe C s i policy time
  | .offerFork p => fork C s p
  | .resumeRecovery i =>
    let (s, effects) := resume s i
    let last := (s.instances[i]?.bind fun v => v.accepted.getLast?).map fun a =>
      Effect.report (.acceptedLocal a.receipt)
    (s, if effects.isEmpty then last.toList else effects)
  | .read i =>
    match cut C s i with
    | some c => (s, [.report (.read c)])
    | none => (s, [.report .invalid])
  | .observeFrontier i heads => frontier C s i heads

end Glade.Kernel
