import Glade.Recovery.Bounds
import Glade.Kernel.Data
import Glade.Lib.Codecs

/-! The decoder of the batch a plan is stored as
(`contracts/crdt-recovery-codec/src/batch.rs`). Its cursor keeps the blobs read so far,
which later ones may refer to. The sizes in memory of what it allocates are parameters. -/

namespace Glade.Recovery

open Wire Kernel

structure DecodedBatch where
  planNamespace : Digest
  invocationNamespace : Digest
  nextEffectId : ℕ
  storage : Option StorageClass
  owner : Option Owner
  descriptor : Descriptor
  plan : CommitPlan

/-- `size_of` what is allocated. -/
structure Sizes where
  slice : ℕ
  op : ℕ
  candidate : ℕ
  acceptance : ℕ
  fork : ℕ

namespace Batch

structure Cursor (bytes : Bytes) where
  index : ℕ
  within : index ≤ bytes.length
  items : ℕ
  allocation : ℕ
  blobs : List Bytes

abbrev Read (bytes : Bytes) (α : Type) := Codecs.Reader (Cursor bytes) Error α

/-- `ok_or(Error::Invalid)` -/
def orInvalid {bytes : Bytes} {α : Type} : Option α → Read bytes α
  | some a => return a
  | none => throw .invalid

section Read

variable {bytes : Bytes}

def take (n : ℕ) : Read bytes Bytes := fun c =>
  if c.index + n < 2 ^ 64 then
    if h : c.index + n ≤ bytes.length then .ok ((bytes.drop c.index).take n, { c with index := c.index + n, within := h })
    else .error .invalid
  else .error .capacity

/-- `self.take(1)?[0]` -/
def byte : Read bytes UInt8 := do
  match ← take 1 with
  | b :: _ => return b
  | [] => throw .panicked

/-- A number's groups, of which at most `left` are still to come. -/
def number : ℕ → ℕ → Read bytes ℕ
  | 0, _ => throw .invalid
  | left + 1, n => do
    let b ← byte
    let index := 9 - left
    if index = 9 ∧ 1 < b.toNat then throw .invalid
    else
      let n := n ||| (b.toNat % 128) <<< (index * 7)
      if b.toNat < 128 then
        if 0 < index ∧ b = 0 then throw .invalid else return n
      else number left n

variable (limits : DecodeLimits)

def charge (n : ℕ) : Read bytes Unit := fun c =>
  if c.allocation + n < 2 ^ 64 then
    if c.allocation + n > limits.bytes then .error .capacity else .ok ((), { c with allocation := c.allocation + n })
  else .error .capacity

def item : Read bytes Unit := fun c =>
  if c.items + 1 < 2 ^ 64 then
    if c.items + 1 > limits.items then .error .capacity else .ok ((), { c with items := c.items + 1 })
  else .error .capacity

/-- A `u64`, and a `usize` just as well. -/
def n : Read bytes ℕ := do
  item limits
  number 10 0

/-- The `i64` of the same bits. -/
def signed : Read bytes ℤ := do
  let n ← n limits
  return if n < 2 ^ 63 then n else n - 2 ^ 64

def boolean : Read bytes Bool := do
  match ← n limits with
  | 0 => return false
  | 1 => return true
  | _ => throw .invalid

def push (value : Bytes) : Read bytes Unit := modify fun c => { c with blobs := c.blobs ++ [value] }

variable (sizes : Sizes)

/-- A blob that is read for the first time, behind its zero. -/
def literal (blobs : List Bytes) : Read bytes Bytes := do
  let value ← take (← n limits)
  if value ∈ blobs then throw .invalid
  else
    (if blobs.length ≥ limits.items then throw .capacity else charge limits sizes.slice)
    push value
    return value

def blob : Read bytes Bytes := do
  let index ← n limits
  let blobs := (← get).blobs
  if index ≠ 0 then orInvalid blobs[index - 1]? else literal limits sizes blobs

def digest : Read bytes Digest := do
  let b ← blob limits sizes
  if h : b.length = 32 then return ⟨b, h⟩ else throw .invalid

def text : Read bytes String := do
  let b ← blob limits sizes
  if b.length > limits.nameBytes then throw .capacity
  else
    charge limits b.length
    orInvalid (fromUtf8 b)

def owned : Read bytes Bytes := do
  let b ← blob limits sizes
  charge limits b.length
  return b

def optional {α : Type} (read : Read bytes α) : Read bytes (Option α) := do
  if ← boolean limits then some <$> read else return none

/-- Whether as many items and bytes are left. -/
def room (n : ℕ) : Read bytes Unit := fun c =>
  if n > limits.items - c.items ∨ n > bytes.length - c.index then .error .capacity else .ok ((), c)

def many {α : Type} (size : ℕ) (read : Read bytes α) : Read bytes (List α) := do
  let n ← n limits
  room limits n
  Codecs.times (do charge limits size; read) n

/-! ### Records -/

def instanceId : Read bytes Instance := do
  let descriptor ← digest limits sizes
  let incarnation ← text limits sizes
  return { descriptor, incarnation }

def time : Read bytes TimeInterval := do
  let earliestMs ← n limits
  let latestMs ← n limits
  return { earliestMs, latestMs }

def window : Read bytes Window := do
  let notBeforeMs ← n limits
  let notAfterMs ← n limits
  return { notBeforeMs, notAfterMs }

def localCut : Read bytes LocalPrecondition := do
  let policy ← digest limits sizes
  let time ← time limits
  return { policy, time }

def owner : Read bytes Owner := do
  let store ← digest limits sizes
  let generation ← n limits
  return { store, generation }

def storage : Read bytes StorageClass := do
  match ← n limits with
  | 0 => return .volatileTest
  | 1 => return .localProcessRestart
  | _ => throw .invalid

/-- The mode of a number. -/
def modeOf : ℕ → Read bytes Mode
  | 0 => do
    let currentPolicy ← digest limits sizes
    let time ← time limits
    return .localWrite currentPolicy time
  | 1 => return .historical
  | 2 => return .admissionSeal
  | _ => throw .invalid

def mode : Read bytes Mode := do modeOf limits sizes (← n limits)

/-- The outer items are counted on with the operation's. -/
def preflight (bytes : Bytes) : Read bytes' Unit := fun c =>
  match Bounds.scan limits c.items bytes 0 with
  | .ok items => .ok ((), { c with items })
  | .error e => .error e

def operation : Read bytes Op := do
  let bytes ← blob limits sizes
  (if bytes.length * 16 + sizes.op < 2 ^ 64 then charge limits (bytes.length * 16 + sizes.op) else throw .capacity)
  preflight limits bytes
  match decodeOp bytes with
  | .ok op => if op.encoding ≠ bytes then throw .invalid else return op
  | .error _ => throw .invalid

def admissionMode : Read bytes AdmissionMode := do
  match ← n limits with
  | 0 => return .independent
  | 1 => return .legacy
  | 2 => return .strong
  | _ => throw .invalid

def bounds : Read bytes Kernel.Bounds := do
  let maxOperationBytes ← n limits
  let maxOrigins ← n limits
  let maxRefs ← n limits
  let editBytes ← n limits
  let recoveryBytes ← n limits
  let evidenceBytes ← n limits
  let pendingBytes ← n limits
  let pendingItems ← n limits
  return { maxOperationBytes, maxOrigins, maxRefs, editBytes, recoveryBytes, evidenceBytes, pendingBytes, pendingItems }

def descriptor : Read bytes Descriptor := do
  let inst ← instanceId limits sizes
  let canonical ← owned limits sizes
  let creationRoot ← digest limits sizes
  let resource ← text limits sizes
  let share ← text limits sizes
  let gladeId ← text limits sizes
  let engine ← text limits sizes
  let payloadProfile ← text limits sizes
  let admissionProfile ← text limits sizes
  let authorizationProfile ← text limits sizes
  let key ← owned limits sizes
  let mode ← admissionMode limits
  let bounds ← bounds limits
  return { inst, canonical, creationRoot, resource, share, gladeId, key, engine, payloadProfile, admissionProfile,
           authorizationProfile, mode, bounds }

def evidence : Read bytes EvidenceSet := do
  let certificate ← owned limits sizes
  let permit ← owned limits sizes
  let policy ← owned limits sizes
  let admission ← optional limits (owned limits sizes)
  return { certificate, permit, policy, admission }

def candidate : Read bytes Candidate := do
  let inst ← instanceId limits sizes
  let operation ← operation limits sizes
  let evidence ← evidence limits sizes
  return { inst, operation, evidence }

def certificate : Read bytes OriginCertificate := do
  let inst ← instanceId limits sizes
  let canonicalOrigin ← text limits sizes
  let epoch ← text limits sizes
  let displayName ← text limits sizes
  let writerKey ← digest limits sizes
  let requester ← text limits sizes
  let canonical ← owned limits sizes
  return { inst, canonicalOrigin, epoch, displayName, writerKey, requester, canonical }

def facts : Read bytes Facts := do
  let certificate ← certificate limits sizes
  let descriptorValid ← boolean limits
  let payloadValid ← boolean limits
  let signaturesValid ← boolean limits
  let issuanceUnique ← boolean limits
  let permitWindow ← window limits
  let permitFirstSeq ← signed limits
  let permitLastSeq ← signed limits
  let currentAllowed ← boolean limits
  let historicalAdmitterAuthorized ← boolean limits
  let historicalPolicyAllowed ← boolean limits
  let historicalTime ← optional limits (time limits)
  return { certificate, descriptorValid, payloadValid, signaturesValid, issuanceUnique, permitWindow, permitFirstSeq,
           permitLastSeq, currentAllowed, historicalAdmitterAuthorized, historicalPolicyAllowed, historicalTime }

def query : Read bytes Query := do
  let id ← n limits
  let inst ← instanceId limits sizes
  let descriptor ← descriptor limits sizes
  let operation ← operation limits sizes
  let evidence ← evidence limits sizes
  let mode' ← mode limits sizes
  let verifiedFacts ← optional limits (facts limits sizes)
  let validatedUnder ← optional limits (mode limits sizes)
  return { id, inst, descriptor, operation, evidence, mode := mode', verifiedFacts, validatedUnder }

def receipt : Read bytes Receipt := do
  let inst ← instanceId limits sizes
  let operation ← digest limits sizes
  let admission ← digest limits sizes
  let stableId ← digest limits sizes
  let storage ← storage limits
  return { inst, operation, admission, stableId, storage }

def acceptance : Read bytes StagedAcceptance := do
  let candidate ← candidate limits sizes
  let facts ← facts limits sizes
  let verifiedQuery ← query limits sizes
  let sealQuery ← optional limits (query limits sizes)
  let sealedAdmission ← owned limits sizes
  let receipt ← receipt limits sizes
  return { candidate, facts, verifiedQuery, sealQuery, sealedAdmission, receipt }

def fork : Read bytes ForkEvidence := do
  let first ← candidate limits sizes
  let second ← candidate limits sizes
  return { first, second }

def kind : Read bytes CommitKind := do
  match ← n limits with
  | 0 => return .acceptedBatch
  | 1 => return .candidate
  | 2 => return .securityEvidence
  | 3 => return .qualifiedFork
  | _ => throw .invalid

def charges : Read bytes Charges := do
  let edit ← n limits
  let recovery ← n limits
  let evidence ← n limits
  let pending ← n limits
  return { edit, recovery, evidence, pending }

/-- The batch's fields, of the bytes it is all of. -/
def fields (batch : Bytes) : Read bytes DecodedBatch := do
  let planNamespace ← digest limits sizes
  let invocationNamespace ← digest limits sizes
  let nextEffectId ← n limits
  let storage ← optional limits (storage limits)
  let owner ← optional limits (owner limits sizes)
  let descriptor ← descriptor limits sizes
  let id ← n limits
  let inst ← instanceId limits sizes
  let expectedRevision ← n limits
  let kind ← kind limits
  let localPrecondition ← optional limits (localCut limits sizes)
  let charges ← charges limits
  let records ← many limits sizes.candidate (candidate limits sizes)
  let acceptances ← many limits sizes.acceptance (acceptance limits sizes)
  let qualifiedForks ← many limits sizes.fork (fork limits sizes)
  return { planNamespace, invocationNamespace, nextEffectId, storage, owner, descriptor,
           plan := { id, inst, expectedRevision, localPrecondition, batch, kind, records, acceptances, qualifiedForks, charges } }

end Read

/-- `b"glade.crdt.batch\0\x01"` -/
def domain : Bytes := utf8 "glade.crdt.batch" ++ [0, 1]

end Batch

open Batch in
def decodeBatch (bytes : Bytes) (limits : DecodeLimits) (sizes : Sizes) : Except Error DecodedBatch :=
  if bytes.length > limits.bytes then .error .capacity
  else if limits.depth < 12 then .error .capacity
  else if domain <+: bytes then
    let body := bytes.drop domain.length
    match (fields limits sizes bytes).run (⟨0, Nat.zero_le _, 0, 0, []⟩ : Cursor body) with
    | .ok (decoded, c) =>
      if c.index ≠ body.length then .error .invalid
      else do
        let _ ← (charge limits bytes.length).run c
        return decoded
    | .error e => .error e
  else .error .invalid

end Glade.Recovery
