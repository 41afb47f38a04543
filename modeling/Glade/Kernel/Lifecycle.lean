import Glade.Kernel.Projection
import Glade.Kernel.Encoder

/-! What the kernel asks of storage (`contracts/crdt-admission-core/src/lifecycle.rs`):
the numbers it issues, staging a plan, asking again for what has no terminal, the
answer to a prepare, and a new policy. -/

namespace Glade.Kernel

open Wire Node OrdMap

/-- The next number, unless a `u64` holds no more. -/
def allocate (s : State) : Option (ℕ × State) :=
  if s.nextEffectId + 1 < 2 ^ 64 then some (s.nextEffectId, { s with nextEffectId := s.nextEffectId + 1 }) else none

def State.modify (s : State) (i : Instance) (f : InstanceState → InstanceState) : State :=
  { s with instances := s.instances.modify i f }

/-- The instance has lost something it will not ask for again. -/
def State.incomplete (s : State) (i : Instance) : State := s.modify i fun v => { v with recoveryIncomplete := true }

/-- The loss is noted only where a replica may send it again. -/
def State.refused (s : State) (i : Instance) (isLocal : Bool) : State := if isLocal then s else s.incomplete i

def planKey (s : State) (p : CommitPlan) : PlanKey := { scope := s.planNamespace, inst := p.inst, number := p.id }

/-- What storage is asked to hold of a plan. -/
def binding (s : State) (p : CommitPlan) : Option Binding :=
  s.instances[p.inst]?.map fun v =>
    { plan := planKey s p
      batch := p.batch
      expectedRevision := p.expectedRevision
      storage := v.storage
      kind := p.kind
      charges := p.charges
      receipts := p.acceptances.map fun a => a.receipt
      prestart := p.localPrecondition.map fun cut =>
        { cut, windows := p.acceptances.map fun a => a.facts.permitWindow } }

def invocation (s : State) : Option (InvocationId × State) := do
  let z ← s.storageLimits
  let issued ← checkedAdd s.storageInvocations.size s.retiredStorageInvocations.size
  if z.invocationHistory ≤ issued then none
  else
    let (number, s) ← allocate s
    return ({ scope := s.invocationNamespace, number }, s)

/-- Issue a request about an attempt. -/
def issueResolve (s : State) (attempt : AttemptBinding) (operation : OperationKind) : Option (ResolveRequest × State) := do
  let owner ← s.storageOwner
  let (id, s) ← invocation s
  let q : ResolveRequest := { owner, invocation := id, operation, attempt }
  return (q, { s with storageInvocations := s.storageInvocations.insert id (.resolve q) })

/-- The bytes an attempt's binding may take of the store's critical memory. -/
def footprint (b : Binding) : Option ℕ := do
  let name := (utf8 b.plan.inst.incarnation).length
  let n ← checkedAdd 256 b.batch.length
  let n ← checkedAdd n name
  let receipts := b.receipts.length * (160 + name)
  let n ← if receipts < 2 ^ 64 then checkedAdd n receipts else none
  match b.prestart with
  | none => some n
  | some p => if p.windows.length * 16 < 2 ^ 64 then checkedAdd n (p.windows.length * 16) else none

/-- Whether a binding is within the session's limits. -/
def Declared (s : State) (z : Limits) (b : Binding) : Prop :=
  let history := checkedAdd s.attempts.size s.preparing.size
  let reserved := do
    let n ← checkedAdd (← history) 1
    if n * z.criticalPerAttempt < 2 ^ 64 then some (n * z.criticalPerAttempt) else none
  z.instances ≠ 0 ∧ s.instances.size ≤ z.instances ∧ history.any (fun n => n < z.attempts) ∧
    reserved.any (fun n => n ≤ z.criticalBytes) ∧ (footprint b).any (fun n => n ≤ z.criticalPerAttempt) ∧
    b.batch.length ≤ z.maxBatchBytes ∧ b.receipts.length ≤ z.maxReceipts ∧
    (utf8 b.plan.inst.incarnation).length ≤ z.maxNameBytes ∧ b.prestart.all (fun p => p.windows.length ≤ z.maxWindows)

instance (s : State) (z : Limits) (b : Binding) : Decidable (Declared s z b) := by
  dsimp only [Declared]
  infer_instance

/-- Take a plan and ask storage to prepare it. -/
def Lifecycle.stage (s : State) (p : CommitPlan) : Option (State × List Effect) := do
  let b ← binding s p
  let z ← s.storageLimits
  if ¬ Declared s z b then none
  else
    let owner ← s.storageOwner
    let (id, s) ← invocation s
    let q : PrepareRequest := { owner, invocation := id, binding := b }
    let s := { s with
      storageInvocations := s.storageInvocations.insert id (.prepare q)
      preparing := s.preparing.insert b.plan q
      commits := s.commits.insert p.id p }
    return (s, [.prepare p q])

/-! ### Recovery -/

/-- Ask again for the plans storage has not answered for, each once: what is
asked, and whether every one was. -/
def recoverPlans (s : State) : List PrepareRequest → State × List Effect × Bool
  | [] => (s, [], true)
  | q :: rest =>
    let asked := (values s.storageInvocations).any fun i =>
      match i with
      | .recoverPlan r => r.binding.plan = q.binding.plan
      | _ => false
    if asked then recoverPlans s rest
    else
      match invocation s with
      | none => (s, [.report .capacity], false)
      | some (id, s) =>
        let q := { q with invocation := id }
        let s := { s with storageInvocations := s.storageInvocations.insert id (.recoverPlan q) }
        let (s, effects, all) := recoverPlans s rest
        (s, .recoverPlan q :: effects, all)

/-- Ask what became of the attempts without a terminal, each once. -/
def inspectAttempts (s : State) : List KernelAttempt → State × List Effect
  | [] => (s, [])
  | a :: rest =>
    let asked := (values s.storageInvocations).any fun i =>
      match i with
      | .resolve r => r.attempt.id = a.attempt.id ∧ r.operation = .inspect
      | _ => false
    if asked then inspectAttempts s rest
    else
      match issueResolve s a.attempt .inspect with
      | none => (s, [.report .capacity])
      | some (q, s) =>
        let s := { s with lookups := s.lookups.insert q.invocation.number q }
        let (s, effects) := inspectAttempts s rest
        (s, .lookup q :: effects)

def AttemptPhase.isTerminal : AttemptPhase → Bool
  | .terminal _ => true
  | _ => false

/-- Ask again for everything of an instance that has no terminal. -/
def resume (s : State) (i : Instance) : State × List Effect :=
  let (s, effects, all) := recoverPlans s ((values s.preparing).filter (fun p => p.binding.plan.inst = i))
  if all then
    let attempts := (values s.attempts).filter (fun a => a.attempt.id.inst = i ∧ ¬ a.phase.isTerminal)
    let (s, more) := inspectAttempts s attempts
    (s, effects ++ more)
  else (s, effects)

variable (C : Crypto)

/-- Whether a cut is the instance's current policy and time. -/
def CurrentMatches (s : State) (i : Instance) (p : LocalPrecondition) : Prop :=
  ∃ v ∈ s.instances[i]?, C.sha256 v.policy = p.policy ∧ v.policyTime = p.time ∧ v.timeFloorMs ≤ p.time.earliestMs ∧
    p.time.earliestMs ≤ p.time.latestMs

instance (s : State) (i : Instance) (p : LocalPrecondition) : Decidable (CurrentMatches C s i p) := by
  dsimp only [CurrentMatches]
  infer_instance

/-! ### Replies -/

/-- An answered request leaves the outstanding ones. -/
def State.retire (s : State) (id : InvocationId) (issued : StorageInvocation) : State :=
  { s with
    storageInvocations := s.storageInvocations.erase id
    retiredStorageInvocations := s.retiredStorageInvocations.insert id issued }

/-- A plan whose outcome is not known yet. -/
def State.unknown (s : State) (number : ℕ) : State :=
  match s.commits[number]? with
  | none => s
  | some p => { s with commits := s.commits.erase number, unknownCommits := s.unknownCommits.insert p.id p }

/-- The request an answer to a prepare is for, if it is outstanding. -/
def prepareIssued (s : State) (request : PrepareRequest) : Option StorageInvocation :=
  s.storageInvocations[request.invocation]?.filter fun i =>
    match i with
    | .prepare q => q = request
    | .recoverPlan q => q = request
    | .resolve _ => false

/-- Whether a prepared attempt is one of the request, and the plan's only one. -/
def PreparedFits (s : State) (request : PrepareRequest) (a : AttemptBinding) : Prop :=
  a.binding = request.binding ∧ a.id.inst = a.binding.plan.inst ∧ s.storageOwner.map (fun o => o.store) = some a.id.store ∧
    (∀ old ∈ s.attempts[a.binding.plan]?, old.attempt = a) ∧
    ∀ old ∈ values s.attempts, old.attempt.id = a.id → old.attempt = a

instance (s : State) (request : PrepareRequest) (a : AttemptBinding) : Decidable (PreparedFits s request a) := by
  dsimp only [PreparedFits]
  infer_instance

def prepareReply (s : State) (r : PrepareReply) : State × List Effect :=
  match prepareIssued s r.request with
  | none => (s, [.report .callbackMismatch])
  | some issued =>
    if s.storageOwner ≠ some r.request.owner ∨ r.request.invocation.scope ≠ s.invocationNamespace then
      (s, [.report .callbackMismatch])
    else
      match r.result with
      | .prepared a =>
        if ¬ PreparedFits s r.request a then (s, [.report .callbackMismatch])
        else
          let s := s.retire r.request.invocation issued
          let s := { s with
            preparing := s.preparing.erase a.binding.plan
            attempts := s.attempts.insertIfNew a.binding.plan { attempt := a, phase := .reserved } }
          let stale := a.binding.prestart.any fun p => ¬ CurrentMatches C s a.id.inst p.cut
          match issueResolve s a (if stale then .fence else .begin) with
          | none => (s, [.report .capacity])
          | some (q, issued) =>
            if stale then (issued, [.fence q])
            else
              match s.instances[a.id.inst]? with
              | none => (s, [])
              | some v =>
                (issued, [.begin { request := q, current := { policy := C.sha256 v.policy, time := v.policyTime } }])
      | _ =>
        let s := (s.retire r.request.invocation issued).unknown r.request.binding.plan.number
        (s, [.report (.outcomeUnknown (C.sha256 r.request.binding.batch))])

/-- Fence each of the attempts, unless it is being fenced. -/
def fenceAttempts (s : State) : List AttemptBinding → State × List Effect
  | [] => (s, [])
  | a :: rest =>
    let asked := (values s.storageInvocations).any fun i =>
      match i with
      | .resolve q => q.attempt.id = a.id ∧ q.operation = .fence
      | _ => false
    if asked then fenceAttempts s rest
    else
      match issueResolve s a .fence with
      | some (q, s) =>
        let (s, effects) := fenceAttempts s rest
        (s, .fence q :: effects)
      | none =>
        let (s, effects) := fenceAttempts s rest
        (s, .report .capacity :: effects)

/-- A new policy, and the reserved attempts of an older one fenced. -/
def observe (s : State) (i : Instance) (policy : Bytes) (time : TimeInterval) : State × List Effect :=
  match s.instances[i]? with
  | none => (s, [.report .invalid])
  | some v =>
    if time.latestMs < time.earliestMs ∨ time.earliestMs < v.timeFloorMs then (s, [.report .policyPending])
    else
      let s := s.modify i fun v => { v with timeFloorMs := time.earliestMs, policy, policyTime := time }
      let stale := (values s.attempts).filter fun a =>
        a.attempt.id.inst = i ∧ a.phase = .reserved ∧
          a.attempt.binding.prestart.any (fun p => ¬ CurrentMatches C s i p.cut)
      fenceAttempts s (stale.map fun a => a.attempt)

end Glade.Kernel
