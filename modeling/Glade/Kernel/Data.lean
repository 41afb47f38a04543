import Glade.Node.Signing
import Glade.Lib.OrdMap

/-! The data of the admission kernel (`contracts/crdt-admission-data/src/lib.rs`) and of
the storage attempts it asks for (`contracts/crdt-storage-attempt-api/src/lib.rs`).
Owned bytes carry their digest in the source; here they are the bytes, and a
digest is taken of them where one is read. -/

namespace Glade.Kernel

open Wire Node

abbrev Digest := Bytes32

instance : Ord Digest := ⟨compareOn Subtype.val⟩

instance : Std.TransOrd Digest := inferInstanceAs (Std.TransCmp (compareOn Subtype.val))

instance : Std.LawfulEqOrd Digest := OrdMap.lawfulEqCmp_compareOn Subtype.val_injective

/-! ### Storage attempts -/

/-- One incarnation of what a descriptor describes. -/
structure Instance where
  descriptor : Digest
  incarnation : String
  deriving DecidableEq

def Instance.key (k : Instance) : Digest × String := (k.descriptor, k.incarnation)

instance : Ord Instance := ⟨compareOn Instance.key⟩

instance : Std.TransOrd Instance := inferInstanceAs (Std.TransCmp (compareOn Instance.key))

instance : Std.LawfulEqOrd Instance := OrdMap.lawfulEqCmp_compareOn (by rintro ⟨⟩ ⟨⟩ h; simp_all [Instance.key])

structure TimeInterval where
  earliestMs : ℕ
  latestMs : ℕ
  deriving DecidableEq

structure Window where
  notBeforeMs : ℕ
  notAfterMs : ℕ
  deriving DecidableEq

inductive StorageClass where
  | volatileTest
  | localProcessRestart
  deriving DecidableEq

structure Receipt where
  inst : Instance
  operation : Digest
  admission : Digest
  stableId : Digest
  storage : StorageClass
  deriving DecidableEq

structure Charges where
  edit : ℕ
  recovery : ℕ
  evidence : ℕ
  pending : ℕ
  deriving DecidableEq

inductive CommitKind where
  | acceptedBatch
  | candidate
  | securityEvidence
  | qualifiedFork
  deriving DecidableEq

/-- A policy and the time it was read at: what a local write was submitted under. -/
structure LocalPrecondition where
  policy : Digest
  time : TimeInterval
  deriving DecidableEq

/-- A plan, by its number in the scope that its kernel numbers plans in. -/
structure PlanKey where
  scope : Digest
  inst : Instance
  number : ℕ
  deriving DecidableEq

def PlanKey.key (k : PlanKey) : Digest × Instance × ℕ := (k.scope, k.inst, k.number)

instance : Ord PlanKey := ⟨compareOn PlanKey.key⟩

instance : Std.TransOrd PlanKey := inferInstanceAs (Std.TransCmp (compareOn PlanKey.key))

instance : Std.LawfulEqOrd PlanKey := OrdMap.lawfulEqCmp_compareOn (by rintro ⟨⟩ ⟨⟩ h; simp_all [PlanKey.key])

structure AttemptId where
  store : Digest
  inst : Instance
  number : ℕ
  deriving DecidableEq

def AttemptId.key (k : AttemptId) : Digest × Instance × ℕ := (k.store, k.inst, k.number)

instance : Ord AttemptId := ⟨compareOn AttemptId.key⟩

instance : Std.TransOrd AttemptId := inferInstanceAs (Std.TransCmp (compareOn AttemptId.key))

instance : Std.LawfulEqOrd AttemptId := OrdMap.lawfulEqCmp_compareOn (by rintro ⟨⟩ ⟨⟩ h; simp_all [AttemptId.key])

/-- One call to the store, numbered in a scope of its own. -/
structure InvocationId where
  scope : Digest
  number : ℕ
  deriving DecidableEq

def InvocationId.key (k : InvocationId) : Digest × ℕ := (k.scope, k.number)

instance : Ord InvocationId := ⟨compareOn InvocationId.key⟩

instance : Std.TransOrd InvocationId := inferInstanceAs (Std.TransCmp (compareOn InvocationId.key))

instance : Std.LawfulEqOrd InvocationId := OrdMap.lawfulEqCmp_compareOn (by rintro ⟨⟩ ⟨⟩ h; simp_all [InvocationId.key])

structure Owner where
  store : Digest
  generation : ℕ
  deriving DecidableEq

/-- The cut a local write was planned under, and the windows its start must fall in. -/
structure StartPrecondition where
  cut : LocalPrecondition
  windows : List Window
  deriving DecidableEq

/-- What a store binds an attempt to: a plan's batch, and all that its commit depends on. -/
structure Binding where
  plan : PlanKey
  batch : Bytes
  expectedRevision : ℕ
  storage : StorageClass
  kind : CommitKind
  charges : Charges
  receipts : List Receipt
  prestart : Option StartPrecondition
  deriving DecidableEq

structure AttemptBinding where
  id : AttemptId
  binding : Binding
  deriving DecidableEq

structure PrepareRequest where
  owner : Owner
  invocation : InvocationId
  binding : Binding
  deriving DecidableEq

inductive StorageFault where
  | bindingMismatch
  | callbackMismatch
  | ownership
  | capacity
  | integrity
  | unavailable
  deriving DecidableEq

inductive PrepareResult where
  | pending
  | prepared (attempt : AttemptBinding)
  | refused (fault : StorageFault)
  deriving DecidableEq

structure PrepareReply where
  request : PrepareRequest
  result : PrepareResult
  deriving DecidableEq

inductive OperationKind where
  | begin
  | inspect
  | fence
  deriving DecidableEq

structure ResolveRequest where
  owner : Owner
  invocation : InvocationId
  operation : OperationKind
  attempt : AttemptBinding
  deriving DecidableEq

structure BeginRequest where
  request : ResolveRequest
  current : LocalPrecondition
  deriving DecidableEq

/-- How an attempt ended. One that did not commit never will. -/
inductive TerminalOutcome where
  | committed (revision : ℕ) (storage : StorageClass) (receipts : List Receipt) (startCut : Option LocalPrecondition)
  | nonCommit (revision : ℕ) (storage : StorageClass)
  deriving DecidableEq

structure Terminal where
  attempt : AttemptBinding
  outcome : TerminalOutcome
  deriving DecidableEq

inductive ResolveResult where
  | pending
  | started (cut : Option LocalPrecondition)
  | terminal (t : Terminal)
  | refused (fault : StorageFault)
  deriving DecidableEq

structure ResolveReply where
  request : ResolveRequest
  result : ResolveResult
  deriving DecidableEq

inductive AttemptPhase where
  | reserved
  | started (cut : Option LocalPrecondition)
  | terminal (outcome : TerminalOutcome)
  deriving DecidableEq

structure Limits where
  instances : ℕ
  attempts : ℕ
  invocationHistory : ℕ
  maxBatchBytes : ℕ
  maxReceipts : ℕ
  maxWindows : ℕ
  maxNameBytes : ℕ
  criticalBytes : ℕ
  criticalPerAttempt : ℕ
  deriving DecidableEq

/-! ### Admission -/

inductive AdmissionMode where
  | independent
  | legacy
  | strong
  deriving DecidableEq

structure Bounds where
  maxOperationBytes : ℕ
  maxOrigins : ℕ
  maxRefs : ℕ
  editBytes : ℕ
  recoveryBytes : ℕ
  evidenceBytes : ℕ
  pendingBytes : ℕ
  pendingItems : ℕ
  deriving DecidableEq

structure Descriptor where
  inst : Instance
  canonical : Bytes
  creationRoot : Digest
  resource : String
  share : String
  gladeId : String
  key : Bytes
  engine : String
  payloadProfile : String
  admissionProfile : String
  authorizationProfile : String
  mode : AdmissionMode
  bounds : Bounds
  deriving DecidableEq

/-- A position of an origin's chain. -/
structure Slot where
  inst : Instance
  origin : String
  seq : ℤ
  deriving DecidableEq

def Slot.key (k : Slot) : Instance × String × ℤ := (k.inst, k.origin, k.seq)

instance : Ord Slot := ⟨compareOn Slot.key⟩

instance : Std.TransOrd Slot := inferInstanceAs (Std.TransCmp (compareOn Slot.key))

instance : Std.LawfulEqOrd Slot := OrdMap.lawfulEqCmp_compareOn (by rintro ⟨⟩ ⟨⟩ h; simp_all [Slot.key])

structure OriginCertificate where
  inst : Instance
  canonicalOrigin : String
  epoch : String
  displayName : String
  writerKey : Digest
  requester : String
  canonical : Bytes
  deriving DecidableEq

/-- What travels with an operation. Its admission is missing until it is sealed. -/
structure EvidenceSet where
  certificate : Bytes
  permit : Bytes
  policy : Bytes
  admission : Option Bytes
  deriving DecidableEq

/-- What evidence is asked for: a local write now, what once was, or an admission to seal. -/
inductive Mode where
  | localWrite (currentPolicy : Digest) (time : TimeInterval)
  | historical
  | admissionSeal
  deriving DecidableEq

/-- What a provider answers of an operation and its evidence. -/
structure Facts where
  certificate : OriginCertificate
  descriptorValid : Bool
  payloadValid : Bool
  signaturesValid : Bool
  issuanceUnique : Bool
  permitWindow : Window
  permitFirstSeq : ℤ
  permitLastSeq : ℤ
  currentAllowed : Bool
  historicalAdmitterAuthorized : Bool
  historicalPolicyAllowed : Bool
  historicalTime : Option TimeInterval
  deriving DecidableEq

structure Query where
  id : ℕ
  inst : Instance
  descriptor : Descriptor
  operation : Op
  evidence : EvidenceSet
  mode : Mode
  verifiedFacts : Option Facts
  validatedUnder : Option Mode
  deriving DecidableEq

inductive Verdict where
  | verified (facts : Facts)
  | invalid
  | unavailable
  | sealed (admission : Bytes)
  deriving DecidableEq

structure EvidenceReply where
  query : Query
  verdict : Verdict
  deriving DecidableEq

/-- An operation with its evidence, whoever made it. -/
structure Candidate where
  inst : Instance
  operation : Op
  evidence : EvidenceSet
  deriving DecidableEq

structure Accepted where
  candidate : Candidate
  facts : Facts
  receipt : Receipt
  deriving DecidableEq

/-- A candidate that a plan accepts, with all that its admission rests on. -/
structure StagedAcceptance where
  candidate : Candidate
  facts : Facts
  verifiedQuery : Query
  sealQuery : Option Query
  sealedAdmission : Bytes
  receipt : Receipt
  deriving DecidableEq

structure PendingVerification where
  query : Query
  candidate : Candidate
  verified : Option Facts
  verifiedQuery : Option Query
  deriving DecidableEq

/-- Two candidates of one slot. -/
structure ForkEvidence where
  first : Candidate
  second : Candidate
  deriving DecidableEq

/-- A change of one instance, on its way to the store. -/
structure CommitPlan where
  id : ℕ
  inst : Instance
  expectedRevision : ℕ
  localPrecondition : Option LocalPrecondition
  batch : Bytes
  kind : CommitKind
  records : List Candidate
  acceptances : List StagedAcceptance
  qualifiedForks : List ForkEvidence
  charges : Charges
  deriving DecidableEq

structure KernelAttempt where
  attempt : AttemptBinding
  phase : AttemptPhase
  deriving DecidableEq

inductive StorageInvocation where
  | prepare (request : PrepareRequest)
  | recoverPlan (request : PrepareRequest)
  | resolve (request : ResolveRequest)
  deriving DecidableEq

/-- What a reader is shown of an instance. -/
structure ReadCut where
  inst : Instance
  contiguousCommonHeads : Std.ExtTreeMap String (ℤ × Digest)
  historicallyQualified : List Digest
  forkSlots : List Slot
  eligible : List Digest
  pending : List Slot
  quarantine : Std.ExtTreeMap String ℤ
  completeLocal : Bool

inductive Outcome where
  | acceptedLocal (receipt : Receipt)
  | exactRetry (receipt : Receipt)
  | batchRetained (inst : Instance) (kind : CommitKind) (batchDigest : Digest) (revision : ℕ) (storage : StorageClass)
  | outcomeUnknown (batchDigest : Digest)
  | missingHistory (slots : List Slot)
  | policyPending
  | denied
  | invalid
  | unsupported
  | capacity
  | integrityConflict
  | callbackMismatch
  | unavailable
  | read (cut : ReadCut)

inductive Event where
  | submitLocal (c : Candidate)
  | offerReplica (c : Candidate)
  | evidenceResolved (r : EvidenceReply)
  | prepareResolved (r : PrepareReply)
  | commitResolved (r : ResolveReply)
  | fenceResolved (r : ResolveReply)
  | lookupResolved (r : ResolveReply)
  | observePolicy (inst : Instance) (policy : Bytes) (time : TimeInterval)
  | observeFrontier (inst : Instance) (heads : Std.ExtTreeMap String (ℤ × Digest))
  | offerFork (p : ForkEvidence)
  | resumeRecovery (inst : Instance)
  | read (inst : Instance)

inductive Effect where
  | verify (q : Query)
  | sealing (q : Query)
  | prepare (plan : CommitPlan) (request : PrepareRequest)
  | recoverPlan (request : PrepareRequest)
  | begin (request : BeginRequest)
  | fence (request : ResolveRequest)
  | lookup (request : ResolveRequest)
  | requestMissing (slots : List Slot)
  | offerMissing (candidates : List Candidate)
  | projectionChanged (cut : ReadCut)
  | report (outcome : Outcome)

structure InstanceState where
  descriptor : Descriptor
  revision : ℕ
  storage : StorageClass
  accepted : List Accepted
  candidates : List Candidate
  securityEvidence : List Candidate
  qualifiedForks : List ForkEvidence
  canonicalOrigins : Std.ExtTreeMap String OriginCertificate
  heads : Std.ExtTreeMap String (ℤ × Digest)
  pending : List Slot
  /-- The lowest seq that each forked origin forked at. -/
  quarantine : Std.ExtTreeMap String ℤ
  policy : Bytes
  /-- Records were lost sight of; nothing clears it. -/
  recoveryIncomplete : Bool
  storageIntegrityFailed : Bool
  timeFloorMs : ℕ
  policyTime : TimeInterval
  used : Charges

structure State where
  instances : Std.ExtTreeMap Instance InstanceState
  queries : Std.ExtTreeMap ℕ PendingVerification
  commits : Std.ExtTreeMap ℕ CommitPlan
  unknownCommits : Std.ExtTreeMap ℕ CommitPlan
  lookups : Std.ExtTreeMap ℕ ResolveRequest
  storageOwner : Option Owner
  storageLimits : Option Limits
  planNamespace : Digest
  invocationNamespace : Digest
  attempts : Std.ExtTreeMap PlanKey KernelAttempt
  preparing : Std.ExtTreeMap PlanKey PrepareRequest
  /-- The calls not answered yet. -/
  storageInvocations : Std.ExtTreeMap InvocationId StorageInvocation
  retiredStorageInvocations : Std.ExtTreeMap InvocationId StorageInvocation
  /-- How each attempt ended, and the first answer that says otherwise. -/
  terminalResults : Std.ExtTreeMap AttemptId Terminal
  terminalConflicts : Std.ExtTreeMap AttemptId Terminal
  nextEffectId : ℕ

end Glade.Kernel
