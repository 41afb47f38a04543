import Glade.Kernel.Lifecycle

/-! Admission (`contracts/crdt-admission-core/src/admission.rs`, `staging.rs`): offering a
candidate, the plan an accepted one is staged in, the answers of its evidence, and
the evidence of a fork. -/

namespace Glade.Kernel

open Wire Node OrdMap

/-! ### Staging -/

/-- Lane-wise addition that fails on overflow (`add`, `callbacks.rs`). -/
def Charges.add (a b : Charges) : Option Charges := do
  let edit ← checkedAdd a.edit b.edit
  let recovery ← checkedAdd a.recovery b.recovery
  let evidence ← checkedAdd a.evidence b.evidence
  let pending ← checkedAdd a.pending b.pending
  return { edit, recovery, evidence, pending }

/-- What `bytes` are charged to. -/
def chargesOf (isLocal : Bool) (kind : CommitKind) (bytes : ℕ) : Charges :=
  { edit := if isLocal then bytes else 0
    recovery := if isLocal then 0 else bytes
    evidence := if kind = .securityEvidence ∨ kind = .qualifiedFork then bytes else 0
    pending := if kind = .candidate then bytes else 0 }

/-- Whether the instance has room for the charges. -/
def Affordable (v : InstanceState) (charges : Charges) : Prop :=
  ∃ n ∈ v.used.add charges, n.edit ≤ v.descriptor.bounds.editBytes ∧ n.recovery ≤ v.descriptor.bounds.recoveryBytes ∧
    n.evidence ≤ v.descriptor.bounds.evidenceBytes ∧ n.pending ≤ v.descriptor.bounds.pendingBytes

instance (v : InstanceState) (charges : Charges) : Decidable (Affordable v charges) := by
  dsimp only [Affordable]
  infer_instance

/-- Encode the plan until its charges are what its batch takes: the batch holds
them, and its length moves with the groups they are written in. -/
def encodeLoop (s : State) (descriptor : Descriptor) : ℕ → CommitPlan → Option CommitPlan
  | 0, _ => none
  | fuel + 1, p =>
    let p := { p with batch := encodePlan s descriptor p }
    let exact := chargesOf p.localPrecondition.isSome p.kind p.batch.length
    if p.charges = exact then some p else encodeLoop s descriptor fuel { p with charges := exact }

variable (C : Crypto)

/-- The slots a plan of `records` is to wait for. -/
def unmet (v : InstanceState) (kind : CommitKind) (records : List Candidate) : List Slot :=
  if kind = .candidate then records.flatMap (missing C v) else []

/-- Stage a plan of `records`, unless the instance has one. -/
def stage (s : State) (kind : CommitKind) (records : List Candidate) (acceptances : List StagedAcceptance)
    (forks : List ForkEvidence) (cut : Option LocalPrecondition) : State × List Effect :=
  match records.head? with
  | none => (s, [])
  | some first =>
    let i := first.inst
    match s.instances[i]? with
    | none => (s, [])
    | some v =>
      if v.storageIntegrityFailed then (s, [.report .integrityConflict])
      else if s.plans i ≠ [] then
        let (s, effects) := resume (s.refused i cut.isSome) i
        (s, .report .capacity :: effects)
      else
        match records.foldlM (fun n c => do checkedAdd n (← candidateSize c)) 0 with
        | none => (s, [.report .capacity])
        | some size =>
          let charges := chargesOf cut.isSome kind size
          let slots := pendingSlots C s v i (unmet C v kind records)
          if ¬ (Affordable v charges ∧ (kind = .candidate → v.candidates.length < v.descriptor.bounds.pendingItems) ∧
              v.revision < 2 ^ 64 - 1 ∧ PendingFits s v i slots charges.pending) then
            (s.refused i cut.isSome, [.report .capacity])
          else
            match allocate s with
            | none => (s.refused i cut.isSome, [.report .capacity])
            | some (id, s) =>
              let p : CommitPlan :=
                { id, inst := i, expectedRevision := v.revision, localPrecondition := cut, batch := [], kind, records,
                  acceptances, qualifiedForks := forks, charges }
              -- The first encoding may move the charges either way; after it each
              -- of the three lanes in use has at most ten group counts to pass.
              match encodeLoop s v.descriptor 64 p with
              | none => (s, [])
              | some p =>
                if ¬ PendingFits s v i slots p.charges.pending ∨ ¬ Affordable v p.charges then
                  (s.refused i cut.isSome, [.report .capacity])
                else
                  match Lifecycle.stage s p with
                  | none => (s.refused i cut.isSome, [.report .capacity])
                  | some staged => staged

/-- The cut a local query was submitted under. -/
def Mode.localCut : Mode → Option LocalPrecondition
  | .localWrite currentPolicy time => some { policy := currentPolicy, time }
  | _ => none

/-- A candidate whose facts hold, under the admission that was made of it. -/
def stagedAcceptance (v : InstanceState) (c : Candidate) (f : Facts) (verify : Query) (sealing : Option Query)
    (admission : Bytes) : StagedAcceptance :=
  { candidate := { c with evidence := { c.evidence with admission := some admission } }
    facts := f
    verifiedQuery := verify
    sealQuery := sealing
    sealedAdmission := admission
    receipt :=
      { inst := c.inst, operation := opHash C c.operation, admission := C.sha256 admission,
        stableId := opHash C c.operation, storage := v.storage } }

/-- The accepted operations a candidate has its slot with. -/
def rivals (v : InstanceState) (c : Candidate) : List ForkEvidence :=
  (v.accepted.filter fun a => slot a.candidate = slot c ∧ a.candidate.operation ≠ c.operation).map fun a =>
    { first := a.candidate, second := c }

/-- Stage the acceptance of a candidate whose facts hold. -/
def acceptance (s : State) (c : Candidate) (f : Facts) (verify : Query) (sealing : Option Query) (admission : Bytes) :
    State × List Effect :=
  match s.instances[c.inst]? with
  | none => (s, [])
  | some v =>
    let a := stagedAcceptance C v c f verify sealing admission
    let forks := rivals v c
    let kind := if forks = [] then CommitKind.acceptedBatch else .qualifiedFork
    stage C s kind [a.candidate] [a] forks verify.mode.localCut

/-! ### Offers -/

/-- The largest integer a double holds exactly. -/
def safe : ℤ := 9007199254740991

def Supported (d : Descriptor) : Prop :=
  d.mode = .independent ∧ d.engine = "crdt.oracle/v1" ∧ d.payloadProfile = "text_crdt.profile/v1" ∧
    d.admissionProfile = "glade.crdt.independent-admission/v1" ∧ d.authorizationProfile = "bounded-offline-permit/v1"

instance (d : Descriptor) : Decidable (Supported d) := by
  dsimp only [Supported]
  infer_instance

/-- The form of an operation (`structure`). -/
def WellFormed (d : Descriptor) (c : Candidate) : Prop :=
  let o := c.operation
  c.inst = d.inst ∧ C.sha256 d.canonical = d.inst.descriptor ∧ o.share = d.share ∧ o.gladeId = d.gladeId ∧
    o.key = d.key ∧ o.shape = .crdt ∧ o.origin ≠ "" ∧ (0 ≤ o.seq ∧ o.seq < safe) ∧ (0 ≤ o.lamport ∧ o.lamport ≤ safe) ∧
    o.encoding.length ≤ d.bounds.maxOperationBytes ∧
    ((o.seq = 0 ∧ o.prev = none) ∨ (0 < o.seq ∧ o.prev.any (fun p => p.length = 32))) ∧
    o.refs.length ≤ d.bounds.maxRefs ∧
    (∀ h ∈ o.refs, h.origin ≠ "" ∧ 0 ≤ h.seq ∧ h.seq < safe ∧ h.hash.all (fun b => b.length = 32)) ∧
    (o.refs.map fun h => h.origin).IsChain (· < ·)

instance (d : Descriptor) (c : Candidate) : Decidable (WellFormed C d c) := by
  dsimp only [WellFormed]
  infer_instance

/-- Whether an instance has a plan, or storage is preparing one. -/
def State.Busy (s : State) (i : Instance) : Prop := s.plans i ≠ [] ∨ ∃ e ∈ s.preparing.toList, e.1.inst = i

instance (s : State) (i : Instance) : Decidable (s.Busy i) := by
  dsimp only [State.Busy]
  infer_instance

/-- Whether a candidate and the queries of its instance are within the bounds. -/
def Roomy (s : State) (v : InstanceState) (z : Limits) (c : Candidate) (isLocal : Bool) : Prop :=
  let pending := s.queriesOf c.inst
  let retained := pending.foldlM (fun n q => do checkedAdd n (← candidateSize q.candidate)) v.used.pending
  let origins := v.canonicalOrigins.keys ++ v.candidates.map (fun c => c.operation.origin) ++
    pending.map (fun q => q.candidate.operation.origin)
  let bounds := v.descriptor.bounds
  (utf8 c.operation.origin).length ≤ z.maxNameBytes ∧
    (∀ h ∈ c.operation.refs, (utf8 h.origin).length ≤ z.maxNameBytes) ∧
    ((candidateSize c).any fun n => n ≤ z.maxBatchBytes ∧ n ≤ bounds.pendingBytes ∧
      PendingFits s v c.inst (pendingSlots C s v c.inst []) n) ∧
    ((do checkedAdd (← retained) (← candidateSize c)).any fun n => n ≤ bounds.pendingBytes) ∧
    ((checkedAdd pending.length v.candidates.length).any fun n => n < bounds.pendingItems) ∧
    (c.operation.origin ∉ origins → origins.dedup.length < bounds.maxOrigins) ∧
    (isLocal → v.used.edit < bounds.editBytes)

instance (s : State) (v : InstanceState) (z : Limits) (c : Candidate) (isLocal : Bool) :
    Decidable (Roomy C s v z c isLocal) := by
  dsimp only [Roomy]
  infer_instance

/-- What is asked of a candidate. -/
def queryOf (v : InstanceState) (c : Candidate) (mode : Mode) (id : ℕ) : Query :=
  { id, inst := c.inst, descriptor := v.descriptor, operation := c.operation, evidence := c.evidence, mode,
    verifiedFacts := none, validatedUnder := none }

/-- Offer a candidate: an accepted operation is answered with its receipt, and any
other one's evidence is asked for. -/
def offer (s : State) (c : Candidate) (isLocal : Bool) : State × List Effect :=
  match s.instances[c.inst]? with
  | none => (s, [.report .invalid])
  | some v =>
    match v.accepted.find? (fun a => a.candidate.operation = c.operation) with
    | some a => (s, [.report (.exactRetry a.receipt)])
    | none =>
      if v.storageIntegrityFailed then (s, [.report .integrityConflict])
      else if ¬ Supported v.descriptor then (s, [.report .unsupported])
      else if ¬ WellFormed C v.descriptor c then (s, [.report .invalid])
      else if s.Busy c.inst then
        let (s, effects) := resume (s.refused c.inst isLocal) c.inst
        (s, .report .capacity :: effects)
      else
        match s.storageLimits with
        | none => (s, [.report .unavailable])
        | some z =>
          if ¬ Roomy C s v z c isLocal then (s.refused c.inst isLocal, [.report .capacity])
          else if ∃ q ∈ s.queriesOf c.inst, q.candidate = c then (s, [.report .policyPending])
          else
            match allocate s with
            | none => (s.refused c.inst isLocal, [.report .capacity])
            | some (id, s) =>
              let mode := if isLocal then Mode.localWrite (C.sha256 v.policy) v.policyTime else .historical
              let q := queryOf v c mode id
              let pending := { query := q, candidate := c, verified := none, verifiedQuery := none }
              ({ s with queries := s.queries.insert id pending }, [.verify q])

/-! ### Evidence -/

def Attributable (q : Query) (f : Facts) : Prop :=
  f.descriptorValid ∧ f.signaturesValid ∧ f.issuanceUnique ∧ f.certificate.inst = q.inst ∧
    f.certificate.canonicalOrigin = q.operation.origin ∧ f.certificate.canonical = q.evidence.certificate

instance (q : Query) (f : Facts) : Decidable (Attributable q f) := by
  dsimp only [Attributable]
  infer_instance

/-- Whether a time lies inside a window (`interval`). -/
def Inside (w : Window) (t : TimeInterval) : Prop :=
  w.notBeforeMs < w.notAfterMs ∧ t.earliestMs ≤ t.latestMs ∧ w.notBeforeMs ≤ t.earliestMs ∧ t.latestMs ≤ w.notAfterMs

instance (w : Window) (t : TimeInterval) : Decidable (Inside w t) := by
  dsimp only [Inside]
  infer_instance

/-- Whether a local query's cut is still the instance's current one. -/
def LocalCurrent (s : State) (q : Query) : Prop := ∀ cut ∈ q.mode.localCut, CurrentMatches C s q.inst cut

instance (s : State) (q : Query) : Decidable (LocalCurrent C s q) := by
  dsimp only [LocalCurrent]
  infer_instance

/-- Whether the permit covers the operation's seq. -/
def SequencePermitted (f : Facts) (o : Op) : Prop :=
  0 ≤ f.permitFirstSeq ∧ f.permitFirstSeq ≤ f.permitLastSeq ∧ f.permitLastSeq < safe ∧ f.permitFirstSeq ≤ o.seq ∧
    o.seq ≤ f.permitLastSeq

instance (f : Facts) (o : Op) : Decidable (SequencePermitted f o) := by
  dsimp only [SequencePermitted]
  infer_instance

/-- Whether a replica's operation was admitted by one that may, when it might. -/
def HistoricallyAdmitted (c : Candidate) (f : Facts) : Prop :=
  c.evidence.admission.isSome ∧ f.historicalAdmitterAuthorized ∧ f.historicalPolicyAllowed ∧
    ∃ t ∈ f.historicalTime, Inside f.permitWindow t

instance (c : Candidate) (f : Facts) : Decidable (HistoricallyAdmitted c f) := by
  dsimp only [HistoricallyAdmitted]
  infer_instance

/-- Whether a certificate may be bound: it is the one its origin has, if any, and
its names are short enough. -/
def Bindable (v : InstanceState) (limits : Option Limits) (cert : OriginCertificate) : Prop :=
  (∀ old ∈ v.canonicalOrigins[cert.canonicalOrigin]?, old = cert) ∧
    ∃ z ∈ limits, ∀ name ∈ [cert.canonicalOrigin, cert.epoch, cert.displayName, cert.requester],
      (utf8 name).length ≤ z.maxNameBytes

instance (v : InstanceState) (limits : Option Limits) (cert : OriginCertificate) : Decidable (Bindable v limits cert) := by
  dsimp only [Bindable]
  infer_instance

/-- Whether a local write starts nothing new: its slot is free, below its origin's
floor, and each of its dependencies is eligible. -/
def Unopposed (v : InstanceState) (c : Candidate) : Prop :=
  (∀ a ∈ v.accepted, slot a.candidate ≠ slot c) ∧ ¬ Quarantined v c.operation ∧
    ∀ dep ∈ dependencies c, ∃ a ∈ v.accepted, Satisfies C dep a ∧ opHash C a.candidate.operation ∈ eligible C v

instance (v : InstanceState) (c : Candidate) : Decidable (Unopposed C v c) := by
  dsimp only [Unopposed]
  infer_instance

/-- What is asked once a local query is answered: its seal, of the facts it had. -/
def sealOf (q : Query) (f : Facts) (id : ℕ) : Query :=
  { q with id, mode := .admissionSeal, verifiedFacts := some f, validatedUnder := some q.mode }

/-- The facts of a candidate whose operation may be admitted: it is staged, or
for a local write its seal is asked for. -/
def qualified (s : State) (v : InstanceState) (p : PendingVerification) (f : Facts) : State × List Effect :=
  let c := p.candidate
  let unmet := missing C v c
  if unmet ≠ [] then
    if ¬ PendingFits s v c.inst (pendingSlots C s v c.inst unmet) 0 then (s.incomplete c.inst, [.report .capacity])
    else
      let asked : List Effect := [.requestMissing unmet, .report (.missingHistory unmet)]
      match p.query.mode with
      | .localWrite _ _ => (s, asked)
      | _ =>
        let (s, effects) := stage C s .candidate [c] [] [] none
        (s, asked ++ effects)
  else
    match p.query.mode with
    | .localWrite _ _ =>
      if ¬ Unopposed C v c then (s, [.report .integrityConflict])
      else
        match allocate s with
        | none => (s, [.report .capacity])
        | some (id, s) =>
          let q := sealOf p.query f id
          let pending := { query := q, candidate := c, verified := some f, verifiedQuery := some p.query }
          ({ s with queries := s.queries.insert id pending }, [.sealing q])
    | _ =>
      match c.evidence.admission with
      | none => (s, [])
      | some admission => acceptance C s c f p.query none admission

/-- The facts of a candidate, whose query is answered. -/
def verified (s : State) (v : InstanceState) (p : PendingVerification) (f : Facts) : State × List Effect :=
  let security := stage C s .securityEvidence [p.candidate] [] [] none
  if f.certificate.inst ≠ p.query.inst then (s, [.report .denied])
  else if ¬ Attributable p.query f ∨ ¬ Bindable v s.storageLimits f.certificate then (s, [.report .invalid])
  else
    match p.query.mode with
    | .localWrite _ time =>
      if ¬ (f.payloadValid ∧ SequencePermitted f p.candidate.operation) then (s, [.report .invalid])
      else if ¬ f.currentAllowed then (s, [.report .denied])
      else if ¬ Inside f.permitWindow time then (s, [.report .denied])
      else qualified C s v p f
    | _ =>
      if ¬ (f.payloadValid ∧ SequencePermitted f p.candidate.operation) then security
      else if ¬ HistoricallyAdmitted p.candidate f then security
      else qualified C s v p f

/-- The state without a query that has its answer. -/
def State.answered (s : State) (id : ℕ) : State := { s with queries := s.queries.erase id }

/-- The answer to a query. -/
def evidence (s : State) (r : EvidenceReply) : State × List Effect :=
  match s.queries[r.query.id]?.filter (fun p => p.query = r.query) with
  | none => (s, [.report .callbackMismatch])
  | some p =>
    match s.instances[p.candidate.inst]? with
    | none => (s, [])
    | some v =>
      if v.storageIntegrityFailed then (s, [.report .integrityConflict])
      else if r.verdict = .unavailable then (s, [.report .unavailable])
      else
        let s := s.answered r.query.id
        if ¬ LocalCurrent C s (p.verifiedQuery.getD p.query) then (s, [.report .policyPending])
        else
          match r.verdict with
          | .verified f => if p.query.mode ≠ .admissionSeal then verified C s v p f else (s, [.report .invalid])
          | .sealed admission =>
            match p.verified, p.verifiedQuery with
            | some f, some verify =>
              if p.query.mode ≠ .admissionSeal then (s, [.report .invalid])
              else if admission = [] ∨ s.storageLimits.elim 0 (fun z => z.maxBatchBytes) < admission.length then
                (s, [.report .capacity])
              else acceptance C s p.candidate f verify (some p.query) admission
            | _, _ => (s, [.report .invalid])
          | _ => (s, [.report .invalid])

/-! ### Forks -/

/-- Evidence of two operations at one slot: a conviction is staged when both are
accepted, and else what is not is offered. -/
def fork (s : State) (p : ForkEvidence) : State × List Effect :=
  if slot p.first ≠ slot p.second ∨ p.first.operation = p.second.operation then (s, [.report .invalid])
  else
    match s.instances[p.first.inst]? with
    | none => (s, [.report .invalid])
    | some v =>
      if v.storageIntegrityFailed then (s, [.report .integrityConflict])
      else
        let first := v.accepted.any fun a => a.candidate = p.first
        let second := v.accepted.any fun a => a.candidate = p.second
        if first ∧ second then stage C s .qualifiedFork [p.first, p.second] [] [p] none
        else
          let (s, effects) := if first then (s, []) else offer C s p.first false
          let (s, more) := if second then (s, []) else offer C s p.second false
          (s, effects ++ more)

end Glade.Kernel
