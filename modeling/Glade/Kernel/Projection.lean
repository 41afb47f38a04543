import Glade.Kernel.Data
import Glade.Node.Checkpoint

/-! What the kernel reads off its accepted operations
(`contracts/crdt-admission-core/src/projection.rs`): the slots and dependencies of a
candidate, the ones still missing, and the projection of an instance: its
quarantine, its eligible operations and its heads. -/

namespace Glade.Kernel

open Wire Node OrdMap

/-- `usize` addition that fails on overflow. -/
def checkedAdd (a b : ℕ) : Option ℕ := if a + b < 2 ^ 64 then some (a + b) else none

/-- The bytes a candidate retains (`candidate_size`, `admission.rs`). -/
def candidateSize (c : Candidate) : Option ℕ := do
  let n ← checkedAdd c.operation.encoding.length c.evidence.certificate.length
  let n ← checkedAdd n c.evidence.permit.length
  let n ← checkedAdd n c.evidence.policy.length
  checkedAdd n (c.evidence.admission.elim 0 List.length)

def slot (c : Candidate) : Slot := { inst := c.inst, origin := c.operation.origin, seq := c.operation.seq }

/-- Bytes as a digest, when there are 32 of them. -/
def digestOf (b : Bytes) : Option Digest := if h : b.length = 32 then some ⟨b, h⟩ else none

/-- What a candidate needs accepted: the op below it in its chain, and its refs. -/
def dependencies (c : Candidate) : List (Slot × Option Digest) :=
  let o := c.operation
  let below : List (Slot × Option Digest) :=
    if 0 < o.seq then [({ inst := c.inst, origin := o.origin, seq := o.seq - 1 }, o.prev.bind digestOf)] else []
  below ++ o.refs.map fun h => ({ inst := c.inst, origin := h.origin, seq := h.seq }, h.hash.bind digestOf)

variable (C : Crypto)

/-- Whether an accepted operation is the one a dependency names. -/
def Satisfies (dep : Slot × Option Digest) (a : Accepted) : Prop :=
  slot a.candidate = dep.1 ∧ ∀ h ∈ dep.2, opHash C a.candidate.operation = h

instance (dep : Slot × Option Digest) (a : Accepted) : Decidable (Satisfies C dep a) :=
  inferInstanceAs (Decidable (_ ∧ ∀ h ∈ dep.2, opHash C a.candidate.operation = h))

/-- The slots of the dependencies no accepted operation satisfies. -/
def missing (v : InstanceState) (c : Candidate) : List Slot :=
  let unmet := (dependencies c).filter (fun dep => ¬ ∃ a ∈ v.accepted, Satisfies C dep a)
  (Std.ExtTreeSet.ofList (unmet.map Prod.fst)).toList

/-- The plans of an instance that have no terminal yet. -/
def State.plans (s : State) (i : Instance) : List CommitPlan :=
  (values s.commits ++ values s.unknownCommits).filter (fun p => p.inst = i)

/-- The queries about an instance that have no answer yet. -/
def State.queriesOf (s : State) (i : Instance) : List PendingVerification :=
  (values s.queries).filter (fun q => q.candidate.inst = i)

/-- The slots an instance waits for, each once. -/
def pendingSlots (s : State) (v : InstanceState) (i : Instance) (extra : List Slot) : List Slot :=
  let retained := v.candidates.flatMap (missing C v)
  let planned := (s.plans i).flatMap fun p => if p.kind = .candidate then p.records.flatMap (missing C v) else []
  (Std.ExtTreeSet.ofList (v.pending ++ extra ++ retained ++ planned)).toList

/-- The bytes of a `Slot` itself, its two strings apart. -/
def slotSize : ℕ := 88

/-- Whether the slots an instance waits for, and the bytes it retains with
`extraBytes` more, are within its bounds. -/
def PendingFits (s : State) (v : InstanceState) (i : Instance) (slots : List Slot) (extraBytes : ℕ) : Prop :=
  let bytes := slots.foldl (fun n slot => do
    let n ← checkedAdd (← n) slotSize
    let n ← checkedAdd n (utf8 slot.inst.incarnation).length
    checkedAdd n (utf8 slot.origin).length) (checkedAdd v.used.pending extraBytes)
  let bytes := (s.queriesOf i).foldl (fun n q => do checkedAdd (← n) (← candidateSize q.candidate)) bytes
  let bytes := (s.plans i).foldl (fun n p => do checkedAdd (← n) p.charges.pending) bytes
  ∃ z ∈ s.storageLimits, slots.length ≤ v.descriptor.bounds.pendingItems ∧
    (∀ slot ∈ slots, slot.origin ≠ "" ∧ (utf8 slot.origin).length ≤ z.maxNameBytes ∧
      (utf8 slot.inst.incarnation).length ≤ z.maxNameBytes) ∧
    ∃ n ∈ bytes, n ≤ v.descriptor.bounds.pendingBytes

instance (s : State) (v : InstanceState) (i : Instance) (slots : List Slot) (extraBytes : ℕ) :
    Decidable (PendingFits s v i slots extraBytes) := by
  dsimp only [PendingFits]
  infer_instance

/-! ### Eligible operations -/

/-- Whether an operation is at or above its origin's quarantine floor. -/
def Quarantined (v : InstanceState) (o : Op) : Prop := ∃ floor ∈ v.quarantine[o.origin]?, floor ≤ o.seq

instance (v : InstanceState) (o : Op) : Decidable (Quarantined v o) :=
  inferInstanceAs (Decidable (∃ floor ∈ v.quarantine[o.origin]?, floor ≤ o.seq))

/-- One operation looked at: it joins the set when it is below its floor and each
of its dependencies is satisfied by one in the set. -/
def eligibleVisit (v : InstanceState) (set : Std.ExtTreeSet Digest) (a : Accepted) : Std.ExtTreeSet Digest :=
  if Quarantined v a.candidate.operation then set
  else if ∀ dep ∈ dependencies a.candidate,
      ∃ b ∈ v.accepted, Satisfies C dep b ∧ opHash C b.candidate.operation ∈ set then
    set.insert (opHash C a.candidate.operation)
  else set

/-- Passes over the accepted operations, until one adds nothing. -/
def eligibleFrom (v : InstanceState) : ℕ → Std.ExtTreeSet Digest → Std.ExtTreeSet Digest
  | 0, set => set
  | fuel + 1, set =>
    let next := v.accepted.foldl (eligibleVisit C v) set
    if next.size = set.size then next else eligibleFrom v fuel next

/-- The eligible operations, by digest. Each pass but the last adds one. -/
def eligible (v : InstanceState) : Std.ExtTreeSet Digest := eligibleFrom C v (v.accepted.length + 1) ∅

/-! ### The projection -/

/-- The floor a conviction gives its origin. -/
def convict (quarantine : Std.ExtTreeMap String ℤ) (pair : ForkEvidence) : Std.ExtTreeMap String ℤ :=
  let s := slot pair.first
  if s = slot pair.second ∧ pair.first.operation ≠ pair.second.operation then
    quarantine.insert s.origin ((quarantine[s.origin]?.map (fun floor => min floor s.seq)).getD s.seq)
  else quarantine

/-- An eligible operation is its origin's head when it is the highest so far. -/
def headVisit (set : Std.ExtTreeSet Digest) (heads : Std.ExtTreeMap String (ℤ × Digest)) (a : Accepted) :
    Std.ExtTreeMap String (ℤ × Digest) :=
  let o := a.candidate.operation
  if opHash C o ∈ set then
    match heads[o.origin]? with
    | none => heads.insert o.origin (o.seq, opHash C o)
    | some entry => if entry.1 < o.seq then heads.insert o.origin (o.seq, opHash C o) else heads
  else heads

/-- The instance with its projection recomputed. -/
def refresh (v : InstanceState) : InstanceState :=
  let v := { v with quarantine := v.qualifiedForks.foldl convict v.quarantine }
  let v := { v with heads := v.accepted.foldl (headVisit C (eligible C v)) ∅ }
  let waiting := v.pending.filter (fun s => ¬ ∃ a ∈ v.accepted, slot a.candidate = s)
  { v with pending := (Std.ExtTreeSet.ofList (waiting ++ v.candidates.flatMap (missing C v))).toList }

/-- What a read of an instance answers. -/
def cut (s : State) (i : Instance) : Option ReadCut := do
  let v := refresh C (← s.instances[i]?)
  let unresolved := ¬ (s.queriesOf i).isEmpty ∨ ¬ (s.plans i).isEmpty ∨
    (∃ e ∈ s.preparing.toList, e.1.inst = i) ∨ ∃ q ∈ values s.lookups, q.attempt.id.inst = i
  return {
    inst := i
    contiguousCommonHeads := v.heads
    historicallyQualified :=
      (Std.ExtTreeSet.ofList (v.accepted.map fun a => opHash C a.candidate.operation)).toList
    forkSlots := (Std.ExtTreeSet.ofList (v.qualifiedForks.map fun p => slot p.first)).toList
    eligible := (eligible C v).toList
    pending := v.pending
    quarantine := v.quarantine
    completeLocal := decide (¬ unresolved) && !v.recoveryIncomplete && !v.storageIntegrityFailed &&
      v.pending.isEmpty && v.candidates.isEmpty }

end Glade.Kernel
