import Glade.Kernel.Data

/-! The batch a plan is stored as (`contracts/crdt-admission-core/src/encoder.rs`): its
fields in a fixed order, numbers in groups of seven bits, and bytes framed by
their length the first time and by their place after that. -/

namespace Glade.Kernel

open Wire Node

structure Encoder where
  out : Bytes
  blobs : List Bytes

/-- A number in groups of seven bits, the lowest first, at most `more` after the
first. -/
def groups : ℕ → ℕ → Bytes
  | 0, n => [UInt8.ofNat n]
  | more + 1, n => if 128 ≤ n then UInt8.ofNat (n % 128 + 128) :: groups more (n / 128) else [UInt8.ofNat n]

namespace Encoder

/-- A `u64`, which ten groups hold. -/
def n (e : Encoder) (v : ℕ) : Encoder := { e with out := e.out ++ groups 9 (v % 2 ^ 64) }

def b (e : Encoder) (v : Bool) : Encoder := e.n v.toNat

def blob (e : Encoder) (bytes : Bytes) : Encoder :=
  match e.blobs.findIdx? (fun old => old = bytes) with
  | some i => e.n (i + 1)
  | none =>
    let e := (e.n 0).n bytes.length
    { out := e.out ++ bytes, blobs := e.blobs ++ [bytes] }

def text (e : Encoder) (s : String) : Encoder := e.blob (utf8 s)

def instanceId (e : Encoder) (i : Instance) : Encoder := (e.blob i.descriptor).text i.incarnation

def time (e : Encoder) (t : TimeInterval) : Encoder := (e.n t.earliestMs).n t.latestMs

def window (e : Encoder) (w : Window) : Encoder := (e.n w.notBeforeMs).n w.notAfterMs

def localCut (e : Encoder) (p : LocalPrecondition) : Encoder := (e.blob p.policy).time p.time

def storage (e : Encoder) : StorageClass → Encoder
  | .volatileTest => e.n 0
  | .localProcessRestart => e.n 1

def mode (e : Encoder) : Mode → Encoder
  | .localWrite currentPolicy t => ((e.n 0).blob currentPolicy).time t
  | .historical => e.n 1
  | .admissionSeal => e.n 2

def descriptor (e : Encoder) (d : Descriptor) : Encoder :=
  let e := ((e.instanceId d.inst).blob d.canonical).blob d.creationRoot
  let e := [d.resource, d.share, d.gladeId, d.engine, d.payloadProfile, d.admissionProfile,
    d.authorizationProfile].foldl text e
  let e := e.blob d.key
  let e := e.n (match d.mode with
    | .independent => 0
    | .legacy => 1
    | .strong => 2)
  [d.bounds.maxOperationBytes, d.bounds.maxOrigins, d.bounds.maxRefs, d.bounds.editBytes, d.bounds.recoveryBytes,
    d.bounds.evidenceBytes, d.bounds.pendingBytes, d.bounds.pendingItems].foldl n e

/-- Whether there is a value, and the value. -/
def option {α : Type} (write : Encoder → α → Encoder) (e : Encoder) : Option α → Encoder
  | none => e.b false
  | some a => write (e.b true) a

def evidence (e : Encoder) (v : EvidenceSet) : Encoder :=
  option blob (((e.blob v.certificate).blob v.permit).blob v.policy) v.admission

def candidate (e : Encoder) (c : Candidate) : Encoder :=
  ((e.instanceId c.inst).blob c.operation.encoding).evidence c.evidence

/-- An `i64` as the `u64` of the same bits. -/
def asU64 (v : ℤ) : ℕ := (v % 2 ^ 64).toNat

def facts (e : Encoder) (f : Facts) : Encoder :=
  let c := f.certificate
  let e := [c.canonicalOrigin, c.epoch, c.displayName].foldl text (e.instanceId c.inst)
  let e := ((e.blob c.writerKey).text c.requester).blob c.canonical
  let e := [f.descriptorValid, f.payloadValid, f.signaturesValid, f.issuanceUnique].foldl b e
  let e := ((e.window f.permitWindow).n (asU64 f.permitFirstSeq)).n (asU64 f.permitLastSeq)
  let e := [f.currentAllowed, f.historicalAdmitterAuthorized, f.historicalPolicyAllowed].foldl b e
  option time e f.historicalTime

def query (e : Encoder) (q : Query) : Encoder :=
  let e := ((e.n q.id).instanceId q.inst).descriptor q.descriptor
  let e := ((e.blob q.operation.encoding).evidence q.evidence).mode q.mode
  option mode (option facts e q.verifiedFacts) q.validatedUnder

def receipt (e : Encoder) (r : Receipt) : Encoder :=
  ((((e.instanceId r.inst).blob r.operation).blob r.admission).blob r.stableId).storage r.storage

def acceptance (e : Encoder) (a : StagedAcceptance) : Encoder :=
  let e := ((e.candidate a.candidate).facts a.facts).query a.verifiedQuery
  ((option query e a.sealQuery).blob a.sealedAdmission).receipt a.receipt

def owner (e : Encoder) (o : Owner) : Encoder := (e.blob o.store).n o.generation

end Encoder

/-- The bytes a plan is stored as. -/
def encodePlan (s : State) (descriptor : Descriptor) (plan : CommitPlan) : Bytes :=
  let e : Encoder := { out := utf8 "glade.crdt.batch" ++ [0, 1], blobs := [] }
  let e := ((e.blob s.planNamespace).blob s.invocationNamespace).n s.nextEffectId
  let e := Encoder.option Encoder.storage e (s.instances[plan.inst]?.map fun v => v.storage)
  let e := Encoder.option Encoder.owner e s.storageOwner
  let e := (((e.descriptor descriptor).n plan.id).instanceId plan.inst).n plan.expectedRevision
  let e := e.n (match plan.kind with
    | .acceptedBatch => 0
    | .candidate => 1
    | .securityEvidence => 2
    | .qualifiedFork => 3)
  let e := Encoder.option Encoder.localCut e plan.localPrecondition
  let e := [plan.charges.edit, plan.charges.recovery, plan.charges.evidence, plan.charges.pending].foldl Encoder.n e
  let e := plan.records.foldl Encoder.candidate (e.n plan.records.length)
  let e := plan.acceptances.foldl Encoder.acceptance (e.n plan.acceptances.length)
  let e := plan.qualifiedForks.foldl (fun e f => (e.candidate f.first).candidate f.second)
    (e.n plan.qualifiedForks.length)
  e.out

end Glade.Kernel
