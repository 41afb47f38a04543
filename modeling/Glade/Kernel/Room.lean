import Glade.Kernel.Encoding
import Glade.Kernel.Installs

/-! What a session does that has room. An offer of a new operation is asked of the
provider, an operation whose facts hold is staged, its attempt is begun, and a
committed one is installed. -/

namespace Glade.Kernel

open Wire Node OrdMap

/-! ### Sizes -/

/-- A candidate that retains few bytes. -/
def Candidate.Small (c : Candidate) : Prop := ∃ k ∈ candidateSize c, k ≤ 2 ^ 23

theorem checkedAdd_of_lt {a b : ℕ} (h : a + b < 2 ^ 64) : checkedAdd a b = some (a + b) := if_pos h

theorem Candidate.Short.small {c : Candidate} (h : c.Short) : c.Small := by
  have hop := h.operation
  have hcertificate := h.evidence.certificate
  have hpermit := h.evidence.permit
  have hpolicy := h.evidence.policy
  have hadmission : c.evidence.admission.elim 0 List.length ≤ 2 ^ 20 := by
    cases ha : c.evidence.admission with
    | none => exact Nat.zero_le _
    | some a => exact h.evidence.admission a ha
  refine ⟨c.operation.encoding.length + c.evidence.certificate.length + c.evidence.permit.length +
    c.evidence.policy.length + c.evidence.admission.elim 0 List.length, ?_, by omega⟩
  unfold candidateSize
  simp (disch := omega) only [checkedAdd_of_lt, Option.bind_eq_bind, Option.bind_some, Option.mem_def]

/-- The bytes of small candidates, added up. -/
theorem foldl_sizes {l : List PendingVerification} (h : ∀ q ∈ l, q.candidate.Small) (m : ℕ)
    (hm : m + l.length * 2 ^ 23 < 2 ^ 64) :
    ∃ k ≤ m + l.length * 2 ^ 23,
      l.foldl (fun n q => do checkedAdd (← n) (← candidateSize q.candidate)) (some m) = some k ∧
        l.foldlM (fun n q => do checkedAdd n (← candidateSize q.candidate)) m = some k := by
  induction l generalizing m with
  | nil => exact ⟨m, by simp, rfl, rfl⟩
  | cons q l ih =>
    obtain ⟨k, hk, hle⟩ := h q (by simp)
    rw [List.length_cons] at hm
    have hsize : candidateSize q.candidate = some k := hk
    obtain ⟨r, hr, hfold, hfoldM⟩ := ih (fun q hq => h q (List.mem_cons_of_mem _ hq)) (m + k) (by omega)
    refine ⟨r, by rw [List.length_cons]; omega, ?_, ?_⟩
    · rw [List.foldl_cons, ← hfold]
      simp [hsize, checkedAdd_of_lt (show m + k < 2 ^ 64 by omega)]
    · rw [List.foldlM_cons, ← hfoldM]
      simp [hsize, checkedAdd_of_lt (show m + k < 2 ^ 64 by omega)]

/-! ### Sessions with room -/

/-- A session that serves the text, and did little so far: `n` bounds what it did. -/
structure Room (C : Crypto) (n : ℕ) (s : State) (v : InstanceState) : Prop where
  known : s.instances[(draft C).inst]? = some v
  alone : s.instances.size ≤ 1
  descriptor : v.descriptor = draft C
  sound : v.storageIntegrityFailed = false
  candidates : v.candidates = []
  pending : v.pending = []
  used : v.used.edit ≤ n * 2 ^ 32 ∧ v.used.recovery ≤ n * 2 ^ 32 ∧ v.used.evidence ≤ n * 2 ^ 32 ∧ v.used.pending = 0
  revision : v.revision ≤ n
  accepted : v.accepted.length ≤ n ∧ ∀ a ∈ v.accepted, a.candidate.Short
  origins : v.canonicalOrigins.size ≤ n
  owner : s.storageOwner = (desk C).storageOwner
  limits : s.storageLimits = (desk C).storageLimits
  queries : s.queries.size ≤ n ∧ ∀ (k : ℕ) (q : PendingVerification), s.queries[k]? = some q → q.candidate.Short
  attempts : s.attempts.size + s.preparing.size ≤ n
  invocations : s.storageInvocations.size + s.retiredStorageInvocations.size ≤ 2 * n
  next : s.nextEffectId ≤ 2 * n
  attempted : ∀ (key : PlanKey) (a : KernelAttempt), s.attempts[key]? = some a →
    key.number < s.nextEffectId ∧ a.attempt.id.number < s.nextEffectId
  ended : ∀ (id : AttemptId) (t : Terminal), s.terminalResults[id]? = some t → id.number < s.nextEffectId

theorem room_desk (C : Crypto) : Room C 0 (desk C) (.opened (draft C) .volatileTest [] { earliestMs := 0, latestMs := 0 }) where
  known := by simp [desk, State.opened, InstanceState.opened]
  alone := Std.ExtTreeMap.size_insert_le.trans (by simp)
  descriptor := rfl
  sound := rfl
  candidates := rfl
  pending := rfl
  used := by simp [InstanceState.opened]
  revision := le_rfl
  accepted := by simp [InstanceState.opened]
  origins := by simp [InstanceState.opened]
  owner := rfl
  limits := rfl
  queries := by simp [desk, State.opened]
  attempts := by simp [desk, State.opened]
  invocations := by simp [desk, State.opened]
  next := le_rfl
  attempted := by simp [desk, State.opened]
  ended := by simp [desk, State.opened]

variable {C : Crypto} {n : ℕ} {s : State} {v : InstanceState}

namespace Room

theorem queriesOf_le (h : Room C n s v) (i : Instance) :
    (s.queriesOf i).length ≤ n ∧ ∀ q ∈ s.queriesOf i, q.candidate.Small := by
  constructor
  · refine (List.length_filter_le _ _).trans ?_
    rw [values, List.length_map, Std.ExtTreeMap.length_toList]
    exact h.queries.1
  · intro q hq
    obtain ⟨k, hk⟩ := mem_values.mp (List.mem_of_mem_filter hq)
    exact (h.queries.2 k q hk).small

/-- It waits for no slot. -/
theorem pendingSlots_nil (h : Room C n s v) (hidle : s.plans (draft C).inst = []) :
    pendingSlots C s v (draft C).inst [] = [] := by
  rw [pendingSlots, h.candidates, h.pending, hidle]
  simp

theorem pendingFits (h : Room C n s v) (hn : n ≤ 100) (hidle : s.plans (draft C).inst = []) {extra : ℕ}
    (hextra : extra ≤ 2 ^ 32) : PendingFits s v (draft C).inst [] extra := by
  obtain ⟨hlength, hsmall⟩ := h.queriesOf_le (draft C).inst
  obtain ⟨k, hk, hfold, -⟩ := foldl_sizes hsmall extra (by omega)
  rw [PendingFits, h.limits, h.descriptor, hidle, h.used.2.2.2]
  refine ⟨_, rfl, Nat.zero_le _, by simp, k, ?_, ?_⟩
  · rw [checkedAdd_of_lt (by omega), Nat.zero_add]
    exact hfold
  · simp only [draft]
    omega

end Room

/-- It has no other instance. -/
theorem Room.eq_of_known (h : Room C n s v) {i : Instance} {w : InstanceState} (hw : s.instances[i]? = some w) :
    i = (draft C).inst ∧ w = v := by
  have hlength : s.instances.toList.length ≤ 1 := Std.ExtTreeMap.length_toList.trans_le h.alone
  have hv : ((draft C).inst, v) ∈ s.instances.toList := Std.ExtTreeMap.mem_toList_iff_getElem?_eq_some.mpr h.known
  have hw : (i, w) ∈ s.instances.toList := Std.ExtTreeMap.mem_toList_iff_getElem?_eq_some.mpr hw
  match hlist : s.instances.toList with
  | [] =>
    rw [hlist] at hv
    cases hv
  | [e] =>
    rw [hlist, List.mem_singleton] at hv hw
    rw [← hv] at hw
    exact Prod.mk.inj hw
  | e :: e' :: rest =>
    rw [hlist] at hlength
    simp at hlength

/-! ### Offers -/

theorem bounds_draft (C : Crypto) : (draft C).bounds =
    { maxOperationBytes := 2 ^ 20, maxOrigins := 1024, maxRefs := 8, editBytes := 2 ^ 40, recoveryBytes := 2 ^ 40,
      evidenceBytes := 2 ^ 40, pendingBytes := 2 ^ 40, pendingItems := 1024 } := rfl

/-- What is offered: the first operation of an origin, another at its slot, and the first
of another origin. -/
inductive Stroke where
  | first
  | again
  | beside

def Stroke.origin : Stroke → String
  | .beside => "b"
  | _ => "a"

theorem Stroke.origin_ne (which : Stroke) : which.origin ≠ "" := by cases which <;> decide

theorem Stroke.length_origin (which : Stroke) : (utf8 which.origin).length ≤ 2 ^ 3 := by cases which <;> decide

def Stroke.payload : Stroke → Bytes
  | .again => [1]
  | _ => [0]

def stroke (which : Stroke) : Op :=
  ⟨{ share := "s", gladeId := "g", key := [], origin := which.origin, seq := 0, prev := none, lamport := 0, refs := [],
      shape := .crdt, payload := which.payload }, by cases which <;> decide⟩

theorem length_stroke (which : Stroke) : (stroke which).encoding.length ≤ 2 ^ 20 := by
  have h : (stroke which).encoding.length ≤ 64 := by cases which <;> decide
  omega

/-- It, under a certificate, with the admission some node made of it. -/
def sketch (C : Crypto) (which : Stroke) (certificate permit : Bytes) : Candidate :=
  { inst := (draft C).inst, operation := stroke which
    evidence := { certificate, permit, policy := [], admission := some [] } }

theorem sketch_formed (C : Crypto) (which : Stroke) (certificate permit : Bytes) :
    WellFormed C (draft C) (sketch C which certificate permit) := by
  refine ⟨rfl, rfl, rfl, rfl, rfl, rfl, which.origin_ne, ?_, ?_, length_stroke which, .inl ⟨rfl, rfl⟩, Nat.zero_le _,
    by simp [sketch, stroke], by simp [sketch, stroke]⟩
  · show (0 : ℤ) ≤ 0 ∧ (0 : ℤ) < safe
    decide
  · show (0 : ℤ) ≤ 0 ∧ (0 : ℤ) ≤ safe
    decide

theorem sketch_short (C : Crypto) (which : Stroke) {certificate permit : Bytes} (h : certificate.length ≤ 2 ^ 20)
    (h' : permit.length ≤ 2 ^ 20) :
    (sketch C which certificate permit).Short where
  inst := by
    have h : (utf8 "draft").length ≤ 2 ^ 3 := by decide
    exact h.trans (by norm_num)
  operation := length_stroke which
  evidence := ⟨h, h', by simp [sketch], by simp [sketch]⟩

theorem dependencies_sketch (C : Crypto) (which : Stroke) (certificate permit : Bytes) :
    dependencies (sketch C which certificate permit) = [] := rfl

theorem missing_sketch (C : Crypto) (v : InstanceState) (which : Stroke) (certificate permit : Bytes) :
    missing C v (sketch C which certificate permit) = [] := by
  rw [missing, dependencies_sketch]
  simp

/-- What is answered of the first operation of the origin under a certificate. -/
def vouched (C : Crypto) (which : Stroke) (certificate : Bytes) : Facts :=
  { certificate :=
      { inst := (draft C).inst, canonicalOrigin := which.origin, epoch := "", displayName := "", writerKey := C.sha256 [],
        requester := "", canonical := certificate }
    descriptorValid := true, payloadValid := true, signaturesValid := true, issuanceUnique := true
    permitWindow := { notBeforeMs := 0, notAfterMs := 1 }, permitFirstSeq := 0, permitLastSeq := 0, currentAllowed := true
    historicalAdmitterAuthorized := true, historicalPolicyAllowed := true
    historicalTime := some { earliestMs := 0, latestMs := 0 } }

/-- The query of the operation. -/
def asking (C : Crypto) (which : Stroke) (certificate permit : Bytes) (mode : Mode) (id : ℕ) : Query :=
  { id, inst := (draft C).inst, descriptor := draft C, operation := stroke which
    evidence := (sketch C which certificate permit).evidence, mode, verifiedFacts := none, validatedUnder := none }

/-- It without an answer. -/
def asked (C : Crypto) (which : Stroke) (certificate permit : Bytes) (mode : Mode) (id : ℕ) : PendingVerification :=
  { query := asking C which certificate permit mode id, candidate := sketch C which certificate permit, verified := none
    verifiedQuery := none }

/-- Its seal without an answer. -/
def sealing (C : Crypto) (which : Stroke) (certificate permit : Bytes) (cut : LocalPrecondition) (k id : ℕ) :
    PendingVerification :=
  { query := sealOf (asking C which certificate permit (.localWrite cut.policy cut.time) k) (vouched C which certificate) id
    candidate := sketch C which certificate permit, verified := some (vouched C which certificate)
    verifiedQuery := some (asking C which certificate permit (.localWrite cut.policy cut.time) k) }

/-- Nothing of the session is between two answers of storage. -/
structure Idle (s : State) : Prop where
  grounded : ∀ n p, ¬ InFlight s n p
  preparing : ∀ (key : PlanKey) (q : PrepareRequest), s.preparing[key]? ≠ some q

theorem idle_desk (C : Crypto) : Idle (desk C) := ⟨by simp [InFlight, desk, State.opened], by simp [desk, State.opened]⟩

theorem Idle.plans {s : State} (h : Idle s) (i : Instance) : s.plans i = [] :=
  plans_eq_nil.mpr fun n p hp => absurd hp (h.grounded n p)

theorem Idle.not_busy {s : State} (h : Idle s) (i : Instance) : ¬ s.Busy i := by
  rintro (hplans | ⟨⟨key, q⟩, he, -⟩)
  · exact hplans (h.plans i)
  · exact h.preparing key q (Std.ExtTreeMap.mem_toList_iff_getElem?_eq_some.mp he)

variable {which : Stroke} {isLocal : Bool} {certificate permit : Bytes}

namespace Room

theorem roomy (h : Room C n s v) (hn : n ≤ 100) (hidle : Idle s) (hcertificate : certificate.length ≤ 2 ^ 20)
    (hpermit : permit.length ≤ 2 ^ 20)
    {z : Limits} (hz : s.storageLimits = some z) : Roomy C s v z (sketch C which certificate permit) isLocal := by
  obtain ⟨hlength, hsmall⟩ := h.queriesOf_le (draft C).inst
  obtain ⟨size, hsize, hle⟩ := (sketch_short C which hcertificate hpermit).small
  obtain ⟨k, hk, -, hfoldM⟩ := foldl_sizes hsmall 0 (by omega)
  have hfits := h.pendingFits hn (hidle.plans _) (show size ≤ 2 ^ 32 by omega)
  obtain rfl : _ = z := Option.some.inj (h.limits.symm.trans hz)
  have hsize' : candidateSize (sketch C which certificate permit) = some size := hsize
  rw [Roomy, h.candidates, h.used.2.2.2, hsize', show (sketch C which certificate permit).inst = (draft C).inst from rfl,
    h.pendingSlots_nil (hidle.plans _), hfoldM, h.descriptor]
  refine ⟨?_, by simp [sketch, stroke], ?_, ?_, ?_, fun _ => ?_, fun _ => ?_⟩
  · exact which.length_origin.trans (by decide)
  · refine decide_eq_true ⟨?_, ?_, hfits⟩
    · show size ≤ 2 ^ 40
      omega
    · rw [bounds_draft]
      show size ≤ 2 ^ 40
      omega
  · rw [Option.bind_eq_bind, Option.bind_some, Option.bind_some,
      checkedAdd_of_lt (show k + size < 2 ^ 64 by omega)]
    refine decide_eq_true ?_
    rw [bounds_draft]
    show k + size ≤ 2 ^ 40
    omega
  · rw [List.length_nil, checkedAdd_of_lt (show (s.queriesOf (draft C).inst).length + 0 < 2 ^ 64 by omega)]
    refine decide_eq_true ?_
    rw [bounds_draft]
    show (s.queriesOf (draft C).inst).length + 0 < 1024
    omega
  · have horigins := h.origins
    refine (List.dedup_sublist _).length_le.trans_lt ?_
    simp only [List.length_append, List.length_map, List.map_nil, List.length_nil, Std.ExtTreeMap.length_keys, bounds_draft]
    omega
  · have hedit := h.used.1
    simp only [bounds_draft]
    omega

theorem allocate (h : Room C n s v) (hn : n ≤ 100) :
    allocate s = some (s.nextEffectId, { s with nextEffectId := s.nextEffectId + 1 }) := by
  have hnext := h.next
  exact if_pos (by omega)

variable (which isLocal) in
/-- The evidence of a new operation is asked for. -/
theorem offer (h : Room C n s v) (hn : n ≤ 100) (hidle : Idle s) (hcertificate : certificate.length ≤ 2 ^ 20)
    (hpermit : permit.length ≤ 2 ^ 20)
    (hnew : ∀ a ∈ v.accepted, a.candidate.operation ≠ stroke which)
    (hasked : ∀ q ∈ s.queriesOf (draft C).inst, q.candidate ≠ sketch C which certificate permit) :
    let mode := if isLocal then Mode.localWrite (C.sha256 v.policy) v.policyTime else .historical
    offer C s (sketch C which certificate permit) isLocal =
      (s.queried (asked C which certificate permit mode s.nextEffectId),
        [.verify (asking C which certificate permit mode s.nextEffectId)]) := by
  have hlimits := h.limits
  have hquery : ∀ mode id, queryOf v (sketch C which certificate permit) mode id = asking C which certificate permit mode id := by
    intro mode id
    rw [queryOf, h.descriptor]
    rfl
  rw [Kernel.offer, show (sketch C which certificate permit).inst = (draft C).inst from rfl, h.known]
  have hfind : v.accepted.find? (fun a => a.candidate.operation = (sketch C which certificate permit).operation) = none := by
    rw [List.find?_eq_none]
    intro a ha
    exact decide_eq_false (hnew a ha) ▸ (by simp)
  dsimp only
  rw [hfind]
  dsimp only
  rw [h.sound, h.descriptor, if_neg (by simp), if_neg (by rw [not_not]; exact ⟨rfl, rfl, rfl, rfl, rfl⟩),
    if_neg (not_not.mpr (sketch_formed C which certificate permit)), if_neg (hidle.not_busy _)]
  cases hz : s.storageLimits with
  | none => rw [hz] at hlimits; cases hlimits
  | some z =>
    dsimp only
    rw [if_neg (not_not.mpr (h.roomy hn hidle hcertificate hpermit hz)), if_neg, h.allocate hn]
    · simp only [hquery]
      rfl
    · rintro ⟨q, hq, hc⟩
      exact hasked q hq hc

theorem queried (h : Room C n s v) {q : PendingVerification} (hshort : q.candidate.Short) : Room C (n + 1) (s.queried q) v where
  known := h.known
  alone := h.alone
  descriptor := h.descriptor
  sound := h.sound
  candidates := h.candidates
  pending := h.pending
  used := by
    have hused := h.used
    have hle : n * 2 ^ 32 ≤ (n + 1) * 2 ^ 32 := Nat.mul_le_mul_right _ (Nat.le_succ n)
    exact ⟨hused.1.trans hle, hused.2.1.trans hle, hused.2.2.1.trans hle, hused.2.2.2⟩
  revision := h.revision.trans (Nat.le_succ n)
  accepted := ⟨h.accepted.1.trans (Nat.le_succ n), h.accepted.2⟩
  origins := h.origins.trans (Nat.le_succ n)
  owner := h.owner
  limits := h.limits
  queries := by
    refine ⟨Std.ExtTreeMap.size_insert_le.trans (Nat.succ_le_succ h.queries.1), fun k q' hk => ?_⟩
    rcases queries_queried hk with rfl | hk
    · exact hshort
    · exact h.queries.2 k q' hk
  attempts := h.attempts.trans (Nat.le_succ n)
  invocations := h.invocations.trans (Nat.mul_le_mul_left 2 (Nat.le_succ n))
  next := by
    have hnext := h.next
    show s.nextEffectId + 1 ≤ 2 * (n + 1)
    omega
  attempted key a ha := by
    obtain ⟨hkey, hid⟩ := h.attempted key a ha
    exact ⟨hkey.trans (Nat.lt_succ_self _), hid.trans (Nat.lt_succ_self _)⟩
  ended id t ht := (h.ended id t ht).trans (Nat.lt_succ_self _)

theorem answered (h : Room C n s v) (k : ℕ) : Room C n (s.answered k) v :=
  { h with
    queries := by
      refine ⟨Std.ExtTreeMap.size_erase_le.trans h.queries.1, fun k' q hk => ?_⟩
      rw [State.answered, Std.ExtTreeMap.getElem?_erase] at hk
      split_ifs at hk
      exact h.queries.2 k' q hk }

end Room

/-! ### Answers -/

theorem vouched_short (C : Crypto) (which : Stroke) (h : certificate.length ≤ 2 ^ 20) : (vouched C which certificate).Short where
  inst := (sketch_short C .first h h).inst
  names name hname := by
    have hlength : (utf8 name).length ≤ 2 ^ 3 := by
      simp only [vouched, List.mem_cons, List.not_mem_nil, or_false] at hname
      rcases hname with rfl | rfl | rfl
      · exact which.length_origin
      · decide
      · decide
    exact hlength.trans (by norm_num)
  requester := Nat.zero_le _
  canonical := h

theorem attributable_vouched (C : Crypto) (which : Stroke) (mode : Mode) (id : ℕ) :
    Attributable (asking C which certificate permit mode id) (vouched C which certificate) := ⟨rfl, rfl, rfl, rfl, rfl, rfl⟩

theorem permitted_vouched (C : Crypto) (which : Stroke) : SequencePermitted (vouched C which certificate) (stroke which) := by
  show (0 : ℤ) ≤ 0 ∧ (0 : ℤ) ≤ 0 ∧ (0 : ℤ) < safe ∧ (0 : ℤ) ≤ 0 ∧ (0 : ℤ) ≤ 0
  decide

namespace Room

theorem bindable (h : Room C n s v) (hold : ∀ old ∈ v.canonicalOrigins[which.origin]?,
    old = (vouched C which certificate).certificate) :
    Bindable v s.storageLimits (vouched C which certificate).certificate := by
  refine ⟨hold, ?_⟩
  rw [h.limits]
  refine ⟨_, rfl, fun name hname => ?_⟩
  simp only [vouched, List.mem_cons, List.not_mem_nil, or_false] at hname
  rcases hname with rfl | rfl | rfl | rfl
  · exact which.length_origin.trans (by decide)
  all_goals decide

/-- A replica's operation whose facts hold is staged. -/
theorem verified_historical (h : Room C n s v) {k : ℕ}
    (hasked : s.queries[k]? = some (asked C which certificate permit .historical k))
    (hold : ∀ old ∈ v.canonicalOrigins[which.origin]?, old = (vouched C which certificate).certificate) :
    evidence C s ⟨asking C which certificate permit .historical k, .verified (vouched C which certificate)⟩ =
      acceptance C (s.answered k) (sketch C which certificate permit) (vouched C which certificate)
        (asking C which certificate permit .historical k) none [] := by
  have hbindable := h.bindable hold
  rw [evidence, show (asking C which certificate permit .historical k).id = k from rfl, hasked]
  rw [Option.filter_some, if_pos (by simp [asked])]
  dsimp only
  rw [show (asked C which certificate permit .historical k).candidate.inst = (draft C).inst from rfl, h.known]
  dsimp only
  rw [h.sound, if_neg (by simp), if_neg (by simp), if_neg (by simp [LocalCurrent, asked, asking, Mode.localCut]),
    if_pos (by simp [asked, asking]), verified]
  rw [if_neg (by simp [vouched, asked, asking]), if_neg (by
    rw [not_or, not_not, not_not]
    exact ⟨attributable_vouched C _ _ _, hbindable⟩)]
  rw [show (asked C which certificate permit .historical k).query.mode = .historical from rfl]
  dsimp only
  rw [if_neg (not_not.mpr ⟨rfl, permitted_vouched C _⟩), if_neg, qualified]
  · rw [show (asked C which certificate permit .historical k).candidate =
      sketch C which certificate permit from rfl, missing_sketch,
      if_neg (by simp)]
    rfl
  · rw [not_not]
    exact ⟨rfl, rfl, rfl, _, rfl, Nat.zero_lt_one, le_rfl, le_rfl, Nat.zero_le _⟩

/-- A local write whose facts hold is sealed. -/
theorem verified_local (h : Room C n s v) (hn : n ≤ 100) {k : ℕ} {cut : LocalPrecondition}
    (hasked : s.queries[k]? = some (asked C which certificate permit (.localWrite cut.policy cut.time) k))
    (hold : ∀ old ∈ v.canonicalOrigins[which.origin]?, old = (vouched C which certificate).certificate)
    (hcurrent : CurrentMatches C s (draft C).inst cut) (htime : Inside (vouched C which certificate).permitWindow cut.time)
    (hfree : Unopposed C v (sketch C which certificate permit)) :
    evidence C s ⟨asking C which certificate permit (.localWrite cut.policy cut.time) k,
      .verified (vouched C which certificate)⟩ =
      ((s.answered k).queried (sealing C which certificate permit cut k s.nextEffectId),
        [.sealing (sealing C which certificate permit cut k s.nextEffectId).query]) := by
  have hbindable := h.bindable hold
  rw [evidence, show (asking C which certificate permit (.localWrite cut.policy cut.time) k).id = k from rfl, hasked]
  rw [Option.filter_some, if_pos (by simp [asked])]
  dsimp only
  rw [show (asked C which certificate permit (.localWrite cut.policy cut.time) k).candidate =
    sketch C which certificate permit from rfl,
    show (sketch C which certificate permit).inst = (draft C).inst from rfl, h.known]
  dsimp only
  rw [h.sound, if_neg (by simp), if_neg (by simp), if_neg, if_pos (by simp [asked, asking]), verified]
  · rw [if_neg (by simp [vouched, asked, asking]), if_neg (by
      rw [not_or, not_not, not_not]
      exact ⟨attributable_vouched C _ _ _, hbindable⟩)]
    rw [show (asked C which certificate permit (.localWrite cut.policy cut.time) k).query.mode =
      .localWrite cut.policy cut.time from rfl]
    dsimp only
    rw [if_neg (not_not.mpr ⟨rfl, permitted_vouched C _⟩), if_neg (by simp [vouched]), if_neg (not_not.mpr htime), qualified]
    rw [show (asked C which certificate permit (.localWrite cut.policy cut.time) k).candidate =
      sketch C which certificate permit from rfl,
      missing_sketch, if_neg (by simp),
      show (asked C which certificate permit (.localWrite cut.policy cut.time) k).query.mode =
        .localWrite cut.policy cut.time from rfl]
    dsimp only
    rw [if_neg (not_not.mpr hfree), (h.answered k).allocate hn]
    rfl
  · rw [not_not]
    intro cut' hcut'
    obtain rfl : cut = cut' := Option.some.inj hcut'
    exact hcurrent

/-- A sealed local write is staged. -/
theorem sealed (h : Room C n s v) {k id : ℕ} {cut : LocalPrecondition}
    (hasked : s.queries[id]? = some (sealing C which certificate permit cut k id))
    (hcurrent : CurrentMatches C s (draft C).inst cut) :
    evidence C s ⟨(sealing C which certificate permit cut k id).query, .sealed [1]⟩ =
      acceptance C (s.answered id) (sketch C which certificate permit) (vouched C which certificate)
        (asking C which certificate permit (.localWrite cut.policy cut.time) k)
        (some (sealing C which certificate permit cut k id).query)
        [1] := by
  rw [evidence, show (sealing C which certificate permit cut k id).query.id = id from rfl, hasked]
  rw [Option.filter_some, if_pos (by simp)]
  dsimp only
  rw [show (sealing C which certificate permit cut k id).candidate = sketch C which certificate permit from rfl,
    show (sketch C which certificate permit).inst = (draft C).inst from rfl, h.known]
  dsimp only
  rw [h.sound, if_neg (by simp), if_neg (by simp), if_neg]
  · rw [show (sealing C which certificate permit cut k id).verified = some (vouched C which certificate) from rfl,
      show (sealing C which certificate permit cut k id).verifiedQuery =
        some (asking C which certificate permit (.localWrite cut.policy cut.time) k) from rfl]
    dsimp only
    rw [if_neg (by simp [sealing, sealOf]), if_neg]
    rw [show (s.answered id).storageLimits = s.storageLimits from rfl, h.limits]
    rintro (hnil | hlong)
    · cases hnil
    · exact absurd hlong (by simp [desk, State.opened, deskLimits])
  · rw [not_not]
    intro cut' hcut'
    obtain rfl : cut = cut' := Option.some.inj hcut'
    exact hcurrent

end Room

/-! ### Staging -/

/-- A plan that is staged in a session, under the request storage is asked. -/
structure Taken (s : State) (v : InstanceState) (p : CommitPlan) (q : PrepareRequest) : Prop where
  id : p.id = s.nextEffectId
  revision : p.expectedRevision = v.revision
  charges : ∃ k ≤ 2 ^ 32, p.charges = chargesOf p.localPrecondition.isSome p.kind k
  binding : binding s p = some q.binding
  owner : s.storageOwner = some q.owner
  invocation : q.invocation = { scope := s.invocationNamespace, number := s.nextEffectId + 1 }

/-- The plan of one acceptance, before it has a number and its batch. -/
def planOf (v : InstanceState) (kind : CommitKind) (a : StagedAcceptance) (forks : List ForkEvidence)
    (cut : Option LocalPrecondition) (id : ℕ) (batch : Bytes) (charges : Charges) : CommitPlan :=
  { id, inst := a.candidate.inst, expectedRevision := v.revision, localPrecondition := cut, batch, kind
    records := [a.candidate], acceptances := [a], qualifiedForks := forks, charges }

theorem draft_short (C : Crypto) : (draft C).Short where
  inst := (sketch_short C .first (Nat.zero_le (2 ^ 20)) (Nat.zero_le (2 ^ 20)) : (sketch C .first [] []).Short).inst
  canonical := Nat.zero_le _
  names name hname := by
    have hlength : (utf8 name).length ≤ 2 ^ 6 := by
      simp only [draft, List.mem_cons, List.not_mem_nil, or_false] at hname
      rcases hname with rfl | rfl | rfl | rfl | rfl | rfl | rfl <;> decide
    exact hlength.trans (by norm_num)
  key := Nat.zero_le _

/-- Few bytes are affordable. -/
theorem Room.affordable (h : Room C n s v) (hn : n ≤ 100) (isLocal : Bool) {kind : CommitKind} (hkind : kind ≠ .candidate) {k : ℕ}
    (hk : k ≤ 2 ^ 32) : Affordable v (chargesOf isLocal kind k) := by
  obtain ⟨hedit, hrecovery, hevidence, hpending⟩ := h.used
  have hle : n * 2 ^ 32 ≤ 100 * 2 ^ 32 := Nat.mul_le_mul_right _ hn
  have hlanes : (chargesOf isLocal kind k).edit ≤ 2 ^ 32 ∧ (chargesOf isLocal kind k).recovery ≤ 2 ^ 32 ∧
      (chargesOf isLocal kind k).evidence ≤ 2 ^ 32 ∧ (chargesOf isLocal kind k).pending = 0 := by
    refine ⟨?_, ?_, ?_, if_neg hkind⟩
    all_goals dsimp only [chargesOf]; split_ifs <;> omega
  obtain ⟨h₁, h₂, h₃, h₄⟩ := hlanes
  rw [Affordable, Charges.add, h.descriptor, bounds_draft]
  simp (disch := omega) only [checkedAdd_of_lt, Option.bind_eq_bind, Option.bind_some, Option.pure_def]
  exact ⟨_, rfl, by dsimp only; omega, by dsimp only; omega, by dsimp only; omega, by dsimp only; omega⟩

theorem invocation_of_le {s : State} (hlimits : s.storageLimits = some deskLimits)
    (hissued : s.storageInvocations.size + s.retiredStorageInvocations.size ≤ 1000) (hnext : s.nextEffectId ≤ 1000) :
    invocation s = some ({ scope := s.invocationNamespace, number := s.nextEffectId },
      { s with nextEffectId := s.nextEffectId + 1 }) := by
  unfold invocation
  conv_lhs => rw [hlimits]
  rw [Option.bind_eq_bind, Option.bind_some, checkedAdd_of_lt (by omega), Option.bind_eq_bind, Option.bind_some,
    if_neg (by simp only [deskLimits]; omega), allocate, if_pos (by omega)]
  rfl

theorem any_le {m c : ℕ} (h : m ≤ c) : (some m).any (fun n => n ≤ c) = true := by simpa

/-- Limits as wide as those. -/
structure Limits.Wide (z : Limits) : Prop where
  instances : z.instances = 1
  attempts : z.attempts = 1024
  bytes : z.criticalBytes = 2 ^ 60
  each : z.criticalPerAttempt = 2 ^ 42
  batch : z.maxBatchBytes = 2 ^ 40
  receipts : z.maxReceipts = 8
  name : z.maxNameBytes = 64
  windows : z.maxWindows = 8

theorem deskLimits_wide : deskLimits.Wide := ⟨rfl, rfl, rfl, rfl, rfl, rfl, rfl, rfl⟩

/-- What a session that did little can take on. -/
theorem declared_of_le {s : State} {z : Limits} {b : Binding} (hz : z.Wide) (hinstances : s.instances.size ≤ 1)
    (hattempts : s.attempts.size + s.preparing.size ≤ 100) (hbatch : b.batch.length ≤ 2 ^ 32) (hreceipts : b.receipts.length = 1)
    (hinst : b.plan.inst = (draft C).inst) (hwindows : b.prestart.all (fun start => start.windows.length ≤ 1)) :
    Declared s z b := by
  have hname : (utf8 b.plan.inst.incarnation).length = 5 := by
    rw [hinst]
    show (utf8 "draft").length = 5
    decide
  have hfootprint : ∃ k ≤ 2 ^ 33, footprint b = some k := by
    unfold footprint
    rw [hname, hreceipts]
    simp only [checkedAdd_of_lt (show 256 + b.batch.length < 2 ^ 64 by omega),
      checkedAdd_of_lt (show 256 + b.batch.length + 5 < 2 ^ 64 by omega), Option.bind_eq_bind, Option.bind_some]
    rw [if_pos (by norm_num), checkedAdd_of_lt (by omega), Option.bind_some]
    cases hstart : b.prestart with
    | none => exact ⟨_, by omega, rfl⟩
    | some start =>
      have hone : start.windows.length ≤ 1 := by simpa [hstart] using hwindows
      dsimp only
      rw [if_pos (by omega), checkedAdd_of_lt (by omega)]
      exact ⟨_, by omega, rfl⟩
  obtain ⟨k, hk, hfootprint⟩ := hfootprint
  rw [Declared, hfootprint, checkedAdd_of_lt (show s.attempts.size + s.preparing.size < 2 ^ 64 by omega)]
  obtain ⟨hone, hmost, hbytes, heach, hlongest, hmany, hnames, hopen⟩ := hz
  refine ⟨by omega, hinstances.trans hone.ge, decide_eq_true (by omega), ?_, decide_eq_true (by omega), by omega, by omega,
    by omega, ?_⟩
  · simp only [Option.bind_eq_bind, Option.bind_some,
      checkedAdd_of_lt (show s.attempts.size + s.preparing.size + 1 < 2 ^ 64 by omega)]
    have hfits : (s.attempts.size + s.preparing.size + 1) * z.criticalPerAttempt < 2 ^ 64 := by rw [heach]; omega
    have hreserved : (s.attempts.size + s.preparing.size + 1) * z.criticalPerAttempt ≤ z.criticalBytes := by
      rw [heach, hbytes]
      omega
    rw [if_pos hfits]
    exact any_le hreserved
  · cases hstart : b.prestart with
    | none => rfl
    | some start =>
      have hone : start.windows.length ≤ 1 := by simpa [hstart] using hwindows
      exact decide_eq_true (by omega)

/-- A plan of few bytes is within the session's limits. -/
theorem Room.lifecycle_stage (h : Room C n s v) (hn : n ≤ 100) (kind : CommitKind) {a : StagedAcceptance}
    (forks : List ForkEvidence) (cut : Option LocalPrecondition) {batch : Bytes} (charges : Charges)
    (hinst : a.candidate.inst = (draft C).inst) (hbatch : batch.length ≤ 2 ^ 32) :
    ∃ q, Lifecycle.stage { s with nextEffectId := s.nextEffectId + 1 } (planOf v kind a forks cut s.nextEffectId batch charges) =
        some (s.staged (planOf v kind a forks cut s.nextEffectId batch charges) q,
          [.prepare (planOf v kind a forks cut s.nextEffectId batch charges) q]) ∧
      binding s (planOf v kind a forks cut s.nextEffectId batch charges) = some q.binding ∧ s.storageOwner = some q.owner ∧
      q.invocation = { scope := s.invocationNamespace, number := s.nextEffectId + 1 } := by
  set p := planOf v kind a forks cut s.nextEffectId batch charges with hp
  set s' : State := { s with nextEffectId := s.nextEffectId + 1 } with hs'
  obtain ⟨b, hb⟩ : ∃ b, binding s p = some b := by
    rw [binding, show p.inst = (draft C).inst from hinst, h.known]
    exact ⟨_, rfl⟩
  have hb' : binding s' p = some b := hb
  have hfields : b.batch = batch ∧ b.receipts.length = 1 ∧ b.plan.inst = (draft C).inst ∧
      b.prestart.all (fun start => start.windows.length ≤ 1) := by
    rw [binding, show p.inst = (draft C).inst from hinst, h.known] at hb
    obtain rfl := Option.some.inj hb
    refine ⟨rfl, rfl, hinst, ?_⟩
    cases cut <;> simp [p, planOf]
  have hdeclared : Declared s' deskLimits b :=
    declared_of_le deskLimits_wide h.alone (h.attempts.trans hn) (hfields.1 ▸ hbatch) hfields.2.1 hfields.2.2.1 hfields.2.2.2
  have howner : ∃ owner, s.storageOwner = some owner := ⟨_, h.owner⟩
  obtain ⟨owner, howner⟩ := howner
  refine ⟨⟨owner, { scope := s.invocationNamespace, number := s.nextEffectId + 1 }, b⟩, ?_, hb, howner, rfl⟩
  have hnext := h.next
  have hissued := h.invocations
  rw [Lifecycle.stage, hb', show s'.storageLimits = some deskLimits from h.limits]
  simp only [Option.bind_eq_bind, Option.bind_some]
  rw [if_neg (not_not.mpr hdeclared), show s'.storageOwner = _ from howner, Option.bind_some,
    invocation_of_le (s := s') h.limits (by show s.storageInvocations.size + s.retiredStorageInvocations.size ≤ 1000; omega)
      (by show s.nextEffectId + 1 ≤ 1000; omega), Option.bind_some]
  rfl

/-- One acceptance is staged. -/
theorem Room.stage (h : Room C n s v) (hn : n ≤ 100) (hidle : Idle s) {kind : CommitKind} (hkind : kind ≠ .candidate)
    {a : StagedAcceptance} (hinst : a.candidate.inst = (draft C).inst) (ha : a.Short) {forks : List ForkEvidence}
    (hforks : forks.length ≤ 100 ∧ ∀ f ∈ forks, f.first.Short ∧ f.second.Short) (cut : Option LocalPrecondition) :
    ∃ batch charges q,
      Kernel.stage C s kind [a.candidate] [a] forks cut =
          (s.staged (planOf v kind a forks cut s.nextEffectId batch charges) q,
            [.prepare (planOf v kind a forks cut s.nextEffectId batch charges) q]) ∧
        Taken s v (planOf v kind a forks cut s.nextEffectId batch charges) q := by
  obtain ⟨size, hsize, hle⟩ := ha.candidate.small
  have hsize' : candidateSize a.candidate = some size := hsize
  have hknown : s.instances[a.candidate.inst]? = some v := hinst ▸ h.known
  have hslots : pendingSlots C s v a.candidate.inst (unmet C v kind [a.candidate]) = [] := by
    rw [unmet, if_neg hkind, hinst, h.pendingSlots_nil (hidle.plans _)]
  have hfits : PendingFits s v a.candidate.inst [] 0 := hinst ▸ h.pendingFits hn (hidle.plans _) (Nat.zero_le _)
  have hpending : ∀ isLocal k, (chargesOf isLocal kind k).pending = 0 := fun isLocal k => if_neg hkind
  have hrevision := h.revision
  have hshort : (planOf v kind a forks cut s.nextEffectId [] (chargesOf cut.isSome kind size)).Short :=
    ⟨ha.candidate.inst, ⟨le_rfl, by simpa [planOf] using ha.candidate⟩, ⟨le_rfl, by simpa [planOf] using ha⟩, hforks⟩
  have hbase := baseLength_le (s := { s with nextEffectId := s.nextEffectId + 1 }) (draft_short C) hshort
  obtain ⟨p', hp'⟩ := Option.isSome_iff_exists.mp (encodeLoop_isSome (s := { s with nextEffectId := s.nextEffectId + 1 })
    (d := draft C) (p := planOf v kind a forks cut s.nextEffectId [] (chargesOf cut.isSome kind size)) rfl (by omega))
  have hlength := encodeLoop_length hp'
  obtain ⟨batch, rfl⟩ := encodeLoop_eq_some hp'
  rw [← h.descriptor] at hp'
  have hbatch : batch.length ≤ 2 ^ 32 := hlength.trans (by omega)
  obtain ⟨q, hstage, hbinding, howner, hinvocation⟩ := h.lifecycle_stage hn kind forks cut
    (chargesOf cut.isSome kind batch.length) hinst hbatch
  refine ⟨batch, chargesOf cut.isSome kind batch.length, q, ?_,
    ⟨rfl, rfl, ⟨batch.length, hbatch, rfl⟩, hbinding, howner, hinvocation⟩⟩
  rw [Kernel.stage]
  dsimp only [List.head?_cons]
  rw [hknown]
  dsimp only
  rw [h.sound, if_neg (by simp), if_neg (not_not.mpr (hidle.plans _))]
  rw [show [a.candidate].foldlM (fun n c => do checkedAdd n (← candidateSize c)) 0 = some size by
    simp [hsize', checkedAdd_of_lt (show 0 + size < 2 ^ 64 by omega)]]
  dsimp only
  rw [hslots, hpending, if_neg, h.allocate hn]
  · dsimp only
    unfold planOf at hp' hstage
    dsimp only at hp' hstage
    rw [hp']
    dsimp only
    rw [if_neg]
    · rw [hstage]
      rfl
    · rw [not_or, not_not, not_not]
      exact ⟨by rw [hpending]; exact hfits, h.affordable hn _ hkind hbatch⟩
  · rw [not_not]
    exact ⟨h.affordable hn _ hkind (by omega), fun h => absurd h hkind, by omega, hfits⟩

theorem asking_short (C : Crypto) (which : Stroke) (hcertificate : certificate.length ≤ 2 ^ 20) (hpermit : permit.length ≤ 2 ^ 20)
    (mode : Mode) (id : ℕ) : (asking C which certificate permit mode id).Short where
  inst := (sketch_short C which hcertificate hpermit).inst
  descriptor := draft_short C
  operation := length_stroke which
  evidence := (sketch_short C which hcertificate hpermit).evidence
  facts := by simp [asking]

theorem sealing_short (C : Crypto) (which : Stroke) (hcertificate : certificate.length ≤ 2 ^ 20)
    (hpermit : permit.length ≤ 2 ^ 20)
    (cut : LocalPrecondition) (k id : ℕ) : (sealing C which certificate permit cut k id).query.Short :=
  { asking_short C which hcertificate hpermit (.localWrite cut.policy cut.time) k with
    facts := by
      intro f hf
      obtain rfl : vouched C which certificate = f := Option.some.inj hf
      exact vouched_short C which hcertificate }

theorem staged_short (C : Crypto) (which : Stroke) (v : InstanceState) (hcertificate : certificate.length ≤ 2 ^ 20)
    (hpermit : permit.length ≤ 2 ^ 20) (f : Facts) (verify : Query) (sealing : Option Query) {admission : Bytes}
    (hadmission : admission.length ≤ 2 ^ 20) :
    (stagedAcceptance C v (sketch C which certificate permit) f verify sealing admission).candidate.Short := by
  have hsketch := sketch_short C which hcertificate hpermit
  refine ⟨hsketch.inst, hsketch.operation, hcertificate, hpermit, Nat.zero_le _, fun a ha => ?_⟩
  obtain rfl : admission = a := Option.some.inj ha
  exact hadmission

/-- The plan an acceptance of the operation is staged in. -/
def plot (C : Crypto) (v : InstanceState) (c : Candidate) (f : Facts) (verify : Query) (sealing : Option Query)
    (admission : Bytes)
    (id : ℕ) (batch : Bytes) (charges : Charges) : CommitPlan :=
  planOf v (if rivals v c = [] then .acceptedBatch else .qualifiedFork) (stagedAcceptance C v c f verify sealing admission)
    (rivals v c) verify.mode.localCut id batch charges

theorem plot_kind (C : Crypto) (v : InstanceState) (c : Candidate) (f : Facts) (verify : Query) (sealing : Option Query)
    (admission : Bytes) (id : ℕ) (batch : Bytes) (charges : Charges) :
    (plot C v c f verify sealing admission id batch charges).kind ≠ .candidate := by
  show (if _ then CommitKind.acceptedBatch else .qualifiedFork) ≠ _
  split_ifs <;> simp

variable (which) in
/-- An acceptance of the operation is staged. -/
theorem Room.acceptance (h : Room C n s v) (hn : n ≤ 100) (hidle : Idle s) (hcertificate : certificate.length ≤ 2 ^ 20)
    (hpermit : permit.length ≤ 2 ^ 20) {verify : Query} (hverify : verify.Short) {sealing : Option Query}
    (hsealing : ∀ q ∈ sealing, q.Short) {admission : Bytes} (hadmission : admission.length ≤ 2 ^ 20) :
    ∃ batch charges q,
      Kernel.acceptance C s (sketch C which certificate permit) (vouched C which certificate) verify sealing admission =
          (s.staged (plot C v (sketch C which certificate permit) (vouched C which certificate) verify sealing admission
              s.nextEffectId batch charges) q,
            [.prepare (plot C v (sketch C which certificate permit) (vouched C which certificate) verify sealing admission
              s.nextEffectId batch charges) q]) ∧
        Taken s v (plot C v (sketch C which certificate permit) (vouched C which certificate) verify sealing admission
          s.nextEffectId batch charges) q := by
  have hsketch : (sketch C which certificate permit).Short := sketch_short C which hcertificate hpermit
  have hforks : (rivals v (sketch C which certificate permit)).length ≤ 100 ∧
      ∀ f ∈ rivals v (sketch C which certificate permit), f.first.Short ∧ f.second.Short := by
    constructor
    · rw [rivals, List.length_map]
      exact (List.length_filter_le _ _).trans (h.accepted.1.trans hn)
    · intro f hf
      obtain ⟨a, ha, rfl⟩ := List.mem_map.mp hf
      exact ⟨h.accepted.2 a (List.mem_of_mem_filter ha), hsketch⟩
  have hkind : (if rivals v (sketch C which certificate permit) = [] then CommitKind.acceptedBatch else .qualifiedFork) ≠
      .candidate := by
    split_ifs <;> simp
  obtain ⟨batch, charges, q, hstage, htaken⟩ := h.stage hn hidle hkind
    (a := stagedAcceptance C v (sketch C which certificate permit) (vouched C which certificate) verify sealing admission) rfl
    ⟨staged_short C which v hcertificate hpermit _ _ _ hadmission, vouched_short C which hcertificate, hverify,
      hsealing, hadmission, hsketch.inst⟩ hforks verify.mode.localCut
  refine ⟨batch, charges, q, ?_, htaken⟩
  rw [Kernel.acceptance, show s.instances[(sketch C which certificate permit).inst]? = some v from h.known]
  exact hstage

/-! ### Storage -/

/-- A plan whose prepare is not answered. -/
structure Flying (s : State) (v : InstanceState) (p : CommitPlan) (q : PrepareRequest) : Prop where
  plan : s.commits[p.id]? = some p
  only : ∀ k p', InFlight s k p' → k = p.id
  inst : p.inst = v.descriptor.inst
  preparing : ∀ (key : PlanKey) (q' : PrepareRequest), s.preparing[key]? = some q' → key = q.binding.plan
  issued : s.storageInvocations[q.invocation]? = some (.prepare q)
  binding : binding s p = some q.binding
  owner : s.storageOwner = some q.owner
  scope : q.invocation.scope = s.invocationNamespace
  attempts : ∀ (key : PlanKey) (a : KernelAttempt), s.attempts[key]? = some a → key.number ≠ p.id ∧ a.attempt.id.number ≠ p.id
  results : ∀ (id : AttemptId) (t : Terminal), s.terminalResults[id]? = some t → id.number ≠ p.id
  number : p.id < s.nextEffectId
  revision : p.expectedRevision = v.revision
  charges : ∃ k ≤ 2 ^ 32, p.charges = chargesOf p.localPrecondition.isSome p.kind k

theorem Room.staged (h : Room C n s v) (p : CommitPlan) (q : PrepareRequest) : Room C (n + 1) (s.staged p q) v where
  known := h.known
  alone := h.alone
  descriptor := h.descriptor
  sound := h.sound
  candidates := h.candidates
  pending := h.pending
  used := by
    have hused := h.used
    have hle : n * 2 ^ 32 ≤ (n + 1) * 2 ^ 32 := Nat.mul_le_mul_right _ (Nat.le_succ n)
    exact ⟨hused.1.trans hle, hused.2.1.trans hle, hused.2.2.1.trans hle, hused.2.2.2⟩
  revision := h.revision.trans (Nat.le_succ n)
  accepted := ⟨h.accepted.1.trans (Nat.le_succ n), h.accepted.2⟩
  origins := h.origins.trans (Nat.le_succ n)
  owner := h.owner
  limits := h.limits
  queries := ⟨h.queries.1.trans (Nat.le_succ n), h.queries.2⟩
  attempts := by
    have hattempts := h.attempts
    have hpreparing : (s.staged p q).preparing.size ≤ s.preparing.size + 1 := Std.ExtTreeMap.size_insert_le
    show s.attempts.size + _ ≤ n + 1
    omega
  invocations := by
    have hinvocations := h.invocations
    have hissued : (s.staged p q).storageInvocations.size ≤ s.storageInvocations.size + 1 := Std.ExtTreeMap.size_insert_le
    show _ + s.retiredStorageInvocations.size ≤ 2 * (n + 1)
    omega
  next := by
    have hnext := h.next
    show s.nextEffectId + 2 ≤ 2 * (n + 1)
    omega
  attempted key a ha := by
    obtain ⟨hkey, hid⟩ := h.attempted key a ha
    exact ⟨hkey.trans (by show _ < _ + 2; omega), hid.trans (by show _ < _ + 2; omega)⟩
  ended id t ht := (h.ended id t ht).trans (by show _ < _ + 2; omega)

theorem Room.flying (h : Room C n s v) (hidle : Idle s) {p : CommitPlan} {q : PrepareRequest} (ht : Taken s v p q)
    (hinst : p.inst = v.descriptor.inst) : Flying (s.staged p q) v p q where
  plan := by simp [State.staged]
  only k p' hp' := by
    rcases inFlight_staged hp' with ⟨hk, -⟩ | hp'
    · exact hk
    · exact absurd hp' (hidle.grounded k p')
  inst := hinst
  preparing key q' hq' := by
    rw [State.staged, Std.ExtTreeMap.getElem?_insert] at hq'
    split_ifs at hq' with hkey
    · exact (Std.LawfulEqOrd.eq_of_compare hkey).symm
    · exact absurd hq' (hidle.preparing key q')
  issued := by simp [State.staged]
  binding := ht.binding
  owner := ht.owner
  scope := by rw [ht.invocation]; rfl
  attempts key a ha := by
    obtain ⟨hkey, hid⟩ := h.attempted key a ha
    rw [ht.id]
    exact ⟨hkey.ne, hid.ne⟩
  results id t hr := by
    rw [ht.id]
    exact (h.ended id t hr).ne
  number := by
    rw [ht.id]
    show s.nextEffectId < s.nextEffectId + 2
    omega
  revision := ht.revision
  charges := ht.charges

/-- The attempt storage makes of a plan. -/
def attemptOf (q : PrepareRequest) : AttemptBinding :=
  { id := { store := q.owner.store, inst := q.binding.plan.inst, number := q.binding.plan.number }, binding := q.binding }

/-- What is asked of it next. -/
def resolveOf (s : State) (q : PrepareRequest) (operation : OperationKind) : ResolveRequest :=
  { owner := q.owner, invocation := { scope := s.invocationNamespace, number := s.nextEffectId }, operation
    attempt := attemptOf q }

/-- The state with its attempt. -/
def attempting (s : State) (q : PrepareRequest) : State :=
  { s.retire q.invocation (.prepare q) with
    preparing := s.preparing.erase q.binding.plan
    attempts := s.attempts.insertIfNew q.binding.plan { attempt := attemptOf q, phase := .reserved } }

/-- The state in which that is asked. -/
def begun (s : State) (q : PrepareRequest) (operation : OperationKind) : State :=
  (attempting s q).asked (.resolve (resolveOf s q operation))

/-- Whether the cut the plan was staged under has passed. -/
def Stale (C : Crypto) (s : State) (q : PrepareRequest) : Prop :=
  q.binding.prestart.any fun start => ¬ CurrentMatches C s q.binding.plan.inst start.cut

instance (C : Crypto) (s : State) (q : PrepareRequest) : Decidable (Stale C s q) := by
  dsimp only [Stale]
  infer_instance

theorem Flying.planKey {p : CommitPlan} {q : PrepareRequest} (hf : Flying s v p q) :
    q.binding.plan.inst = v.descriptor.inst ∧ q.binding.plan.number = p.id ∧ q.binding.expectedRevision = v.revision := by
  have hbinding := hf.binding
  rw [Kernel.binding, Option.map_eq_some_iff] at hbinding
  obtain ⟨w, -, hw⟩ := hbinding
  rw [← hw]
  exact ⟨hf.inst, rfl, hf.revision⟩

/-- A prepared plan is begun, or fenced when its cut has passed. -/
theorem Room.prepared (h : Room C n s v) (hn : n ≤ 100) {p : CommitPlan} {q : PrepareRequest} (hf : Flying s v p q) :
    prepareReply C s ⟨q, .prepared (attemptOf q)⟩ =
      if Stale C s q then (begun s q .fence, [.fence (resolveOf s q .fence)])
      else (begun s q .begin,
        [.begin { request := resolveOf s q .begin, current := { policy := C.sha256 v.policy, time := v.policyTime } }]) := by
  obtain ⟨hinst, hnumber, -⟩ := hf.planKey
  have hknown : s.instances[q.binding.plan.inst]? = some v := by rw [hinst, h.descriptor]; exact h.known
  have hissued : prepareIssued s q = some (.prepare q) := by
    rw [prepareIssued, hf.issued]
    simp
  have hfits : PreparedFits s q (attemptOf q) := by
    refine ⟨rfl, rfl, by rw [hf.owner]; rfl, fun old hold => ?_, fun old hold hid => ?_⟩
    · exact absurd hnumber (hf.attempts q.binding.plan old hold).1
    · obtain ⟨key, hkey⟩ := mem_values.mp hold
      refine absurd ?_ (hf.attempts key old hkey).2
      rw [hid]
      exact hnumber
  have hnext := h.next
  have hinvocations := h.invocations
  have hretired : (s.retire q.invocation (.prepare q)).storageInvocations.size +
      (s.retire q.invocation (.prepare q)).retiredStorageInvocations.size ≤ 1000 := by
    have hlive : (s.retire q.invocation (.prepare q)).storageInvocations.size ≤ s.storageInvocations.size :=
      Std.ExtTreeMap.size_erase_le
    have hgone : (s.retire q.invocation (.prepare q)).retiredStorageInvocations.size ≤ s.retiredStorageInvocations.size + 1 :=
      Std.ExtTreeMap.size_insert_le
    omega
  have hissue : ∀ operation, issueResolve (attempting s q) (attemptOf q) operation =
      some (resolveOf s q operation, begun s q operation) := by
    intro operation
    rw [issueResolve, show (attempting s q).storageOwner = some q.owner from hf.owner, Option.bind_eq_bind, Option.bind_some,
      invocation_of_le (s := attempting s q) h.limits hretired (by show s.nextEffectId ≤ 1000; omega)]
    rfl
  rw [prepareReply, hissued]
  dsimp only
  rw [if_neg (by simp [hf.owner, hf.scope]), if_neg (not_not.mpr hfits)]
  erw [hissue, hknown]
  change (if Stale C s q then (begun s q (if Stale C s q then .fence else .begin),
      [Effect.fence (resolveOf s q (if Stale C s q then .fence else .begin))])
    else (begun s q (if Stale C s q then .fence else .begin),
      [Effect.begin ⟨resolveOf s q (if Stale C s q then .fence else .begin), _⟩])) = _
  by_cases hstale : Stale C s q
  · simp only [if_pos hstale]
  · simp only [if_neg hstale]

/-- Its terminal, when storage commits it. -/
def terminalOf (q : PrepareRequest) : Terminal :=
  { attempt := attemptOf q
    outcome := .committed (q.binding.expectedRevision + 1) q.binding.storage q.binding.receipts
      (q.binding.prestart.map fun start => start.cut) }

def committing (s : State) (q : PrepareRequest) (operation : OperationKind) : ResolveReply :=
  { request := resolveOf s q operation, result := .terminal (terminalOf q) }

/-- The state with the plan installed. -/
def committed (C : Crypto) (s : State) (p : CommitPlan) (q : PrepareRequest) (operation : OperationKind) : State :=
  let r := resolveOf s q operation
  let s' := (begun s q operation).retire r.invocation (.resolve r)
  (({ s' with lookups := s'.lookups.erase r.invocation.number } : State).ended (terminalOf q)).modify p.inst fun v =>
    installed C v p (q.binding.expectedRevision + 1)

theorem installed_candidates (hv : v.candidates = []) {p : CommitPlan} (hkind : p.kind ≠ .candidate) (revision : ℕ) :
    (installed C v p revision).candidates = [] := by
  have hfold : ∀ (l : List StagedAcceptance) (w : InstanceState), w.candidates = [] → (l.foldl install w).candidates = [] := by
    intro l
    induction l with
    | nil => exact fun w hw => hw
    | cons a l ih =>
      refine fun w hw => ih _ ?_
      rw [install]
      dsimp only
      split_ifs <;> simp [hw]
  rw [installed_eq]
  show (taken v p revision).candidates = []
  rw [taken]
  cases hk : p.kind with
  | candidate => exact absurd hk hkind
  | acceptedBatch => exact hfold _ _ hv
  | securityEvidence => exact hfold _ _ hv
  | qualifiedFork => exact hfold _ _ hv

/-- The state that has a terminal of its attempt. -/
def answering (s : State) (q : PrepareRequest) (operation : OperationKind) : State :=
  let r := resolveOf s q operation
  let s' := (begun s q operation).retire r.invocation (.resolve r)
  { s' with lookups := s'.lookups.erase r.invocation.number }

/-- The first terminal of an attempt ends its plan. -/
theorem Flying.resolves {p : CommitPlan} {q : PrepareRequest} (hf : Flying s v p q) (operation : OperationKind) {t : Terminal}
    (ht : TerminalValid t (attemptOf q))
    (hfits : t.outcome.isCommitted = true → (installable (begun s q operation) ⟨resolveOf s q operation, .terminal t⟩).isSome) :
    resolve C (begun s q operation) ⟨resolveOf s q operation, .terminal t⟩ operation =
      terminal C (answering s q operation) operation t (some p) := by
  obtain ⟨hinst, hnumber, -⟩ := hf.planKey
  set r : ResolveReply := ⟨resolveOf s q operation, .terminal t⟩ with hr
  have hissued : Issued (begun s q operation) (begun s q operation).storageInvocations r operation := by
    refine ⟨rfl, ?_, hf.owner, rfl⟩
    show (Std.ExtTreeMap.insert _ _ _)[_]? = _
    exact Std.ExtTreeMap.getElem?_insert_self
  have hnone : s.terminalResults[(attemptOf q).id]? = none :=
    Option.eq_none_iff_forall_ne_some.mpr fun t ht => hf.results _ t ht hnumber
  have hattempt : (begun s q operation).attempts[q.binding.plan]? = some { attempt := attemptOf q, phase := .reserved } := by
    show (s.attempts.insertIfNew _ _)[_]? = _
    rw [Std.ExtTreeMap.getElem?_insertIfNew, if_pos]
    refine ⟨Std.LawfulEqOrd.compare_eq_iff_eq.mpr rfl, fun hmem => ?_⟩
    rw [Std.ExtTreeMap.mem_iff_isSome_getElem?, Option.isSome_iff_exists] at hmem
    obtain ⟨a, ha⟩ := hmem
    exact (hf.attempts _ a ha).1 hnumber
  have hplan : (begun s q operation).planOf q.binding.plan = some p := by
    rw [State.planOf, hnumber, show (begun s q operation).commits[p.id]? = some p from hf.plan]
    rfl
  have hreply : ReplyValid r := by
    intro t' ht'
    obtain rfl : t = t' := ResolveResult.terminal.inj ht'
    exact ht
  have hcontrary : contrary (begun s q operation) r = none := by
    rw [contrary, hr]
    dsimp only
    rw [ht.1, show (begun s q operation).terminalResults[(attemptOf q).id]? = none from hnone]
  have hbound : PlanBound (begun s q operation) r := by
    intro p' hp'
    rw [show r.request.attempt.binding.plan = q.binding.plan from rfl, hplan] at hp'
    obtain rfl := Option.some.inj hp'
    exact hf.binding
  have hstart : StartFits r := by
    intro cut hcut
    cases hcut
  have hinstall : InstallFits (begun s q operation) r := by
    intro t' ht' hcommitted hout
    obtain rfl : t = t' := ResolveResult.terminal.inj ht'
    exact hfits hcommitted
  have hunretained : (attemptOf q).id ∉ (begun s q operation).terminalResults := by
    rw [Std.ExtTreeMap.mem_iff_isSome_getElem?, show (begun s q operation).terminalResults = s.terminalResults from rfl, hnone]
    simp
  rw [resolve]
  dsimp only
  rw [if_neg fun hgone => hgone.1 hissued, if_neg (not_not.mpr hreply), hcontrary]
  dsimp only
  rw [if_neg (not_not.mpr hissued), if_neg, if_neg (not_not.mpr hbound), if_neg (not_not.mpr hstart),
    if_neg (not_not.mpr hinstall), if_neg]
  · change terminal C _ operation t ((begun s q operation).planOf q.binding.plan) = _
    rw [hplan]
    rfl
  · exact hunretained
  · rw [show r.request.attempt.binding.plan = q.binding.plan from rfl, hattempt]
    simp [hr, resolveOf]

/-- A committed plan is installed. -/
theorem Room.committed (h : Room C n s v) (hn : n ≤ 100) {p : CommitPlan} {q : PrepareRequest} (hf : Flying s v p q)
    (operation : OperationKind) (hkind : p.kind ≠ .candidate) :
    ∃ recovering, resolve C (begun s q operation) (committing s q operation) operation =
      (committed C s p q operation,
        installReports C p recovering (q.binding.expectedRevision + 1) q.binding.storage ++
          (cut C (committed C s p q operation) p.inst).toList.map Effect.projectionChanged) := by
  obtain ⟨hinst, hnumber, hexpected⟩ := hf.planKey
  have hrevision := h.revision
  have hvalid : TerminalValid (terminalOf q) (attemptOf q) := by
    refine ⟨rfl, checkedAdd_of_lt ?_, rfl, rfl, rfl⟩
    show q.binding.expectedRevision + 1 < 2 ^ 64
    omega
  have hplan : (begun s q operation).planOf q.binding.plan = some p := by
    rw [State.planOf, hnumber, show (begun s q operation).commits[p.id]? = some p from hf.plan]
    rfl
  have hinstallable : installable (begun s q operation) (committing s q operation) = some p := by
    rw [installable, show (committing s q operation).request.attempt.binding.plan = q.binding.plan from rfl, hplan,
      Option.bind_eq_bind, Option.bind_some, show (begun s q operation).instances = s.instances from rfl, hf.inst, h.descriptor,
      h.known, Option.bind_eq_bind, Option.bind_some, if_pos]
    obtain ⟨k, hk, hcharges⟩ := hf.charges
    obtain ⟨m, hm, -⟩ := h.affordable hn p.localPrecondition.isSome hkind hk
    exact ⟨hf.revision.symm, by rw [hcharges, show v.used.add _ = some m from hm]; rfl⟩
  refine ⟨decide (q.binding.plan.number ∈ (begun s q operation).unknownCommits) || decide (operation = .inspect), ?_⟩
  rw [committing, hf.resolves operation hvalid fun _ => by rw [← committing, hinstallable]; rfl]
  have hknown : (Kernel.committed C s p q operation).instances[p.inst]? =
      some (installed C v p (q.binding.expectedRevision + 1)) := by
    rw [Kernel.committed, instances_modify, if_pos rfl]
    show (s.instances[p.inst]?).map _ = _
    rw [hf.inst, h.descriptor, h.known, Option.map_some]
  have hreplay : replay C (Kernel.committed C s p q operation) p.inst = (Kernel.committed C s p q operation, []) := by
    rw [replay, hknown]
    dsimp only
    rw [installed_candidates h.candidates hkind]
    rfl
  change ((replay C (Kernel.committed C s p q operation) p.inst).1,
    _ ++ _ ++ (replay C (Kernel.committed C s p q operation) p.inst).2) = _
  rw [hreplay]
  dsimp only
  rw [List.append_nil]
  rfl

/-- A field that nothing of a plan is kept in stays. -/
theorem taken_keeps {A : Type} (field : InstanceState → A)
    (hforks : ∀ v forks, field { v with qualifiedForks := forks } = field v)
    (hcandidates : ∀ v candidates, field { v with candidates } = field v)
    (hevidence : ∀ v securityEvidence, field { v with securityEvidence } = field v)
    (hinstall : ∀ v a, field (install v a) = field v) (hused : ∀ v used revision, field { v with used, revision } = field v)
    (v : InstanceState) (p : CommitPlan) (revision : ℕ) : field (taken v p revision) = field v := by
  rw [taken_field v p revision field hforks hcandidates hevidence, foldl_install_field field hinstall]
  exact hused ..

theorem installed_sound (v : InstanceState) (p : CommitPlan) (revision : ℕ) :
    (installed C v p revision).storageIntegrityFailed = v.storageIntegrityFailed ∧
      (installed C v p revision).recoveryIncomplete = v.recoveryIncomplete := by
  rw [installed_eq]
  constructor
  · refine taken_keeps (fun v => v.storageIntegrityFailed) (fun _ _ => rfl) (fun _ _ => rfl) (fun _ _ => rfl) (fun v a => ?_)
      (fun _ _ _ => rfl) v p revision
    rw [install]
    dsimp only
    split_ifs <;> rfl
  · refine taken_keeps (fun v => v.recoveryIncomplete) (fun _ _ => rfl) (fun _ _ => rfl) (fun _ _ => rfl) (fun v a => ?_)
      (fun _ _ _ => rfl) v p revision
    rw [install]
    dsimp only
    split_ifs <;> rfl

theorem installed_pending (hv : v.candidates = []) (hpending : v.pending = []) {p : CommitPlan} (hkind : p.kind ≠ .candidate)
    (revision : ℕ) : (installed C v p revision).pending = [] := by
  have htaken : (taken v p revision).pending = [] := by
    refine (taken_keeps (fun v => v.pending) (fun _ _ => rfl) (fun _ _ => rfl) (fun _ _ => rfl) (fun v a => ?_)
      (fun _ _ _ => rfl) v p revision).trans hpending
    rw [install]
    dsimp only
    split_ifs <;> rfl
  have hcandidates : (taken v p revision).candidates = [] := installed_candidates (C := C) hv hkind revision
  rw [installed_eq, refresh]
  simp [htaken, hcandidates]

/-- What an installed plan of few bytes leaves in use. -/
theorem Room.used_installed (h : Room C n s v) (hn : n ≤ 100) {p : CommitPlan} (hkind : p.kind ≠ .candidate)
    (hcharges : ∃ k ≤ 2 ^ 32, p.charges = chargesOf p.localPrecondition.isSome p.kind k) (revision : ℕ) :
    (installed C v p revision).used.edit ≤ (n + 2) * 2 ^ 32 ∧ (installed C v p revision).used.recovery ≤ (n + 2) * 2 ^ 32 ∧
      (installed C v p revision).used.evidence ≤ (n + 2) * 2 ^ 32 ∧ (installed C v p revision).used.pending = 0 := by
  obtain ⟨hedit, hrecovery, hevidence, hpending⟩ := h.used
  obtain ⟨k, hk, hcharges⟩ := hcharges
  have hlanes : p.charges.edit ≤ 2 ^ 32 ∧ p.charges.recovery ≤ 2 ^ 32 ∧ p.charges.evidence ≤ 2 ^ 32 ∧ p.charges.pending = 0 := by
    rw [hcharges]
    refine ⟨?_, ?_, ?_, if_neg hkind⟩
    all_goals dsimp only [chargesOf]; split_ifs <;> omega
  obtain ⟨h₁, h₂, h₃, h₄⟩ := hlanes
  have hadd : v.used.add p.charges = some
      { edit := v.used.edit + p.charges.edit, recovery := v.used.recovery + p.charges.recovery
        evidence := v.used.evidence + p.charges.evidence, pending := v.used.pending + p.charges.pending } := by
    rw [Charges.add]
    simp (disch := omega) only [checkedAdd_of_lt, Option.bind_eq_bind, Option.bind_some, Option.pure_def]
  rw [installed_used, hadd, Option.getD_some]
  exact ⟨by dsimp only; omega, by dsimp only; omega, by dsimp only; omega, by dsimp only; omega⟩

/-- The session after a plan of one acceptance is installed. -/
theorem Room.settled (h : Room C n s v) (hn : n ≤ 100) {p : CommitPlan} {q : PrepareRequest} (hf : Flying s v p q)
    (operation : OperationKind) (hkind : p.kind ≠ .candidate) {a : StagedAcceptance} (haccept : p.acceptances = [a])
    (hshort : a.candidate.Short) :
    Room C (n + 2) (Kernel.committed C s p q operation) (installed C v p (v.revision + 1)) := by
  obtain ⟨hinst, hnumber, hexpected⟩ := hf.planKey
  have hnext := h.next
  have hrevision := h.revision
  have hnumber' := hf.number
  exact
    { known := by
        rw [Kernel.committed, instances_modify, if_pos (hf.inst.trans (by rw [h.descriptor])), hexpected]
        show (s.instances[_]?).map _ = _
        rw [h.known, Option.map_some]
      alone := by
        show (s.instances.modify _ _).size ≤ 1
        rw [Std.ExtTreeMap.size_modify]
        exact h.alone
      descriptor := installed_descriptor v p _ ▸ h.descriptor
      sound := (installed_sound v p _).1 ▸ h.sound
      candidates := installed_candidates h.candidates hkind _
      pending := installed_pending h.candidates h.pending hkind _
      used := h.used_installed hn hkind hf.charges _
      revision := by
        rw [installed_revision]
        omega
      accepted := by
        rw [installed_accepted_of_single v p _ haccept]
        split_ifs
        · exact ⟨h.accepted.1.trans (by omega), h.accepted.2⟩
        · refine ⟨by rw [List.length_append, List.length_singleton]; have := h.accepted.1; omega, fun b hb => ?_⟩
          rcases List.mem_append.mp hb with hb | hb
          · exact h.accepted.2 b hb
          · rw [List.mem_singleton.mp hb]
            exact hshort
      origins := by
        have horigins := h.origins
        rw [installed_canonicalOrigins_of_single v p _ haccept]
        split_ifs
        · omega
        · exact Std.ExtTreeMap.size_insert_le.trans (by omega)
      owner := h.owner
      limits := h.limits
      queries := ⟨h.queries.1.trans (by omega), h.queries.2⟩
      attempts := by
        have hattempts := h.attempts
        have hnew : (attempting s q).attempts.size ≤ s.attempts.size + 1 := Std.ExtTreeMap.size_insertIfNew_le
        have hgone : (s.preparing.erase q.binding.plan).size ≤ s.preparing.size := Std.ExtTreeMap.size_erase_le
        have hgone' : ((s.preparing.erase q.binding.plan).erase q.binding.plan).size ≤ (s.preparing.erase q.binding.plan).size :=
          Std.ExtTreeMap.size_erase_le
        show ((attempting s q).attempts.modify _ _).size + ((s.preparing.erase _).erase _).size ≤ n + 2
        rw [Std.ExtTreeMap.size_modify]
        exact (Nat.add_le_add hnew (hgone'.trans hgone)).trans (by omega)
      invocations := by
        have hinvocations := h.invocations
        have h₁ : (attempting s q).storageInvocations.size ≤ s.storageInvocations.size := Std.ExtTreeMap.size_erase_le
        have h₂ : (begun s q operation).storageInvocations.size ≤ (attempting s q).storageInvocations.size + 1 :=
          Std.ExtTreeMap.size_insert_le
        have h₃ : (Kernel.committed C s p q operation).storageInvocations.size ≤ (begun s q operation).storageInvocations.size :=
          Std.ExtTreeMap.size_erase_le
        have h₄ : (begun s q operation).retiredStorageInvocations.size ≤ s.retiredStorageInvocations.size + 1 :=
          Std.ExtTreeMap.size_insert_le
        have h₅ : (Kernel.committed C s p q operation).retiredStorageInvocations.size ≤
            (begun s q operation).retiredStorageInvocations.size + 1 := Std.ExtTreeMap.size_insert_le
        omega
      next := by
        show s.nextEffectId + 1 ≤ 2 * (n + 2)
        omega
      attempted := by
        intro key b hb
        show key.number < s.nextEffectId + 1 ∧ b.attempt.id.number < s.nextEffectId + 1
        have hb' : ((attempting s q).attempts.modify q.binding.plan _)[key]? = some b := hb
        rw [Std.ExtTreeMap.getElem?_modify] at hb'
        have hnumbers : ∀ b', (attempting s q).attempts[key]? = some b' → key.number < s.nextEffectId + 1 ∧
          b'.attempt.id.number < s.nextEffectId + 1 := by
          intro b' hb'
          rw [show (attempting s q).attempts = s.attempts.insertIfNew _ _ from rfl, Std.ExtTreeMap.getElem?_insertIfNew] at hb'
          split_ifs at hb' with hkey
          · obtain rfl := Option.some.inj hb'
            rw [← Std.LawfulEqOrd.eq_of_compare hkey.1]
            exact ⟨by rw [hnumber]; omega, by show q.binding.plan.number < _; rw [hnumber]; omega⟩
          · obtain ⟨hk, hid⟩ := h.attempted key b' hb'
            exact ⟨hk.trans (Nat.lt_succ_self _), hid.trans (Nat.lt_succ_self _)⟩
        split_ifs at hb' with hkey
        · obtain rfl := Std.LawfulEqOrd.eq_of_compare hkey
          obtain ⟨b', hb'', rfl⟩ := Option.map_eq_some_iff.mp hb'
          exact hnumbers b' hb''
        · exact hnumbers b hb'
      ended := by
        intro id t ht
        show id.number < s.nextEffectId + 1
        have ht' : (s.terminalResults.insert (attemptOf q).id (terminalOf q))[id]? = some t := ht
        rw [Std.ExtTreeMap.getElem?_insert] at ht'
        split_ifs at ht' with hid
        · rw [← Std.LawfulEqOrd.eq_of_compare hid]
          show q.binding.plan.number < _
          omega
        · exact (h.ended id t ht').trans (Nat.lt_succ_self _) }

/-- After the terminal of its one plan a session is idle. -/
theorem Flying.idle_ended {p : CommitPlan} {q : PrepareRequest} (hf : Flying s v p q) (operation : OperationKind) {t : Terminal}
    (ht : t.attempt = attemptOf q) : Idle ((answering s q operation).ended t) := by
  have hplan : t.attempt.binding.plan = q.binding.plan := by rw [ht]; rfl
  refine ⟨fun k p' hp' => ?_, fun key q' hq' => ?_⟩
  · obtain ⟨hne, hp'⟩ := inFlight_ended.mp hp'
    rw [hplan] at hne
    exact hne ((hf.only k p' hp').trans hf.planKey.2.1.symm)
  · have hq' : ((s.preparing.erase q.binding.plan).erase t.attempt.binding.plan)[key]? = some q' := hq'
    rw [hplan, Std.ExtTreeMap.getElem?_erase, Std.ExtTreeMap.getElem?_erase] at hq'
    split_ifs at hq' with h₁
    exact h₁ (Std.LawfulEqOrd.compare_eq_iff_eq.mpr (hf.preparing key q' hq').symm)

theorem idle_committed {p : CommitPlan} {q : PrepareRequest} (hf : Flying s v p q) (operation : OperationKind) :
    Idle (committed C s p q operation) :=
  ⟨(hf.idle_ended operation (t := terminalOf q) rfl).grounded, (hf.idle_ended operation (t := terminalOf q) rfl).preparing⟩

/-- The event that brings a reply. -/
def Event.resolved (r : ResolveReply) : Event :=
  match r.request.operation with
  | .begin => .commitResolved r
  | .fence => .fenceResolved r
  | .inspect => .lookupResolved r

theorem step_resolved (s : State) (r : ResolveReply) : step C s (.resolved r) = resolve C s r r.request.operation := by
  rw [Event.resolved]
  cases r.request.operation <;> rfl

theorem reply_resolved (r : ResolveReply) : (Event.resolved r).reply = some r := by
  rw [Event.resolved]
  cases r.request.operation <;> rfl

/-- What is asked next of an attempt. -/
def nextOf (C : Crypto) (s : State) (q : PrepareRequest) : OperationKind := if Stale C s q then .fence else .begin

/-- Storage prepares a plan and commits it. -/
def storing (C : Crypto) (s : State) (q : PrepareRequest) : List Event :=
  [.prepareResolved ⟨q, .prepared (attemptOf q)⟩, .resolved (committing s q (nextOf C s q))]

theorem Room.step_prepared (h : Room C n s v) (hn : n ≤ 100) {p : CommitPlan} {q : PrepareRequest} (hf : Flying s v p q) :
    (step C s (.prepareResolved ⟨q, .prepared (attemptOf q)⟩)).1 = begun s q (nextOf C s q) := by
  rw [step, h.prepared hn hf, nextOf]
  split_ifs <;> rfl

theorem Room.step_committing (h : Room C n s v) (hn : n ≤ 100) {p : CommitPlan} {q : PrepareRequest} (hf : Flying s v p q)
    (hkind : p.kind ≠ .candidate) :
    (step C (begun s q (nextOf C s q)) (.resolved (committing s q (nextOf C s q)))).1 = Kernel.committed C s p q
    (nextOf C s q) := by
  obtain ⟨recovering, hcommitted⟩ := h.committed hn hf (nextOf C s q) hkind
  rw [step_resolved, show (committing s q (nextOf C s q)).request.operation = nextOf C s q from rfl, hcommitted]

theorem terminal_committing (s : State) (q : PrepareRequest) (operation : OperationKind) :
    (Event.resolved (committing s q operation)).terminal = some (terminalOf q) := by
  rw [Event.terminal, reply_resolved]
  rfl

/-- The commit installs the plan. -/
theorem Room.installs_committing (h : Room C n s v) (hn : n ≤ 100) {p : CommitPlan} {q : PrepareRequest} (hf : Flying s v p q)
    (hkind : p.kind ≠ .candidate) :
    installs C (begun s q (nextOf C s q)) (.resolved (committing s q (nextOf C s q))) = some p := by
  obtain ⟨-, hnumber, -⟩ := hf.planKey
  rw [installs, terminal_committing, Option.bind_some, h.step_committing hn hf hkind, if_pos]
  · rw [State.planOf, show (terminalOf q).attempt.binding.plan.number = p.id from hnumber,
      show (begun s q (nextOf C s q)).commits[p.id]? = some p from hf.plan]
    rfl
  · refine ⟨rfl, fun hmem => ?_, ?_⟩
    · rw [Std.ExtTreeMap.mem_iff_isSome_getElem?, Option.isSome_iff_exists] at hmem
      obtain ⟨t, ht⟩ := hmem
      exact hf.results _ t ht hnumber
    · show (terminalOf q).attempt.id ∈ s.terminalResults.insert (attemptOf q).id (terminalOf q)
      exact Std.ExtTreeMap.mem_insert_self

theorem resolved_ne_evidence (r : ResolveReply) (r' : EvidenceReply) : Event.resolved r ≠ .evidenceResolved r' := by
  rw [Event.resolved]
  cases r.request.operation <;> simp

/-- What storage answers is no evidence. -/
theorem ne_evidence_of_storing {s : State} {q : PrepareRequest} {e : Event} (h : e ∈ storing C s q) (r : EvidenceReply) :
    e ≠ .evidenceResolved r := by
  rcases List.mem_cons.mp h with rfl | h
  · simp
  · rw [List.mem_singleton.mp h]
    exact resolved_ne_evidence _ r

/-- It is installed. -/
theorem Room.stored (h : Room C n s v) (hn : n ≤ 100) {p : CommitPlan} {q : PrepareRequest} (hf : Flying s v p q)
    (hkind : p.kind ≠ .candidate) : run C s (storing C s q) = Kernel.committed C s p q (nextOf C s q) ∧
      installsOf C s (storing C s q) = [p] := by
  constructor
  · rw [run, storing, List.foldl_cons, h.step_prepared hn hf, List.foldl_cons, h.step_committing hn hf hkind, List.foldl_nil]
  · have hnone : installs C s (.prepareResolved ⟨q, .prepared (attemptOf q)⟩) = none := rfl
    rw [storing, installsOf, hnone, h.step_prepared hn hf, installsOf, h.installs_committing hn hf hkind]
    rfl

/-! ### Admissions -/

theorem Idle.queried {s : State} (h : Idle s) (q : PendingVerification) : Idle (s.queried q) := ⟨h.grounded, h.preparing⟩

theorem Idle.answered {s : State} (h : Idle s) (k : ℕ) : Idle (s.answered k) := ⟨h.grounded, h.preparing⟩

/-- The events with which storage admits what the reply `r` lets it, after the plan `p`. -/
def admitting (C : Crypto) (s : State) (r : EvidenceReply) (p : CommitPlan) (q : PrepareRequest) : List Event :=
  .evidenceResolved r :: storing C ((s.answered r.query.id).staged p q) q

/-- What a run that admits an operation leaves. -/
structure Admitted (C : Crypto) (n : ℕ) (s : State) (v : InstanceState) (r : EvidenceReply) (p : CommitPlan) (q : PrepareRequest)
    (s' : State) : Prop where
  staged : step C s (.evidenceResolved r) = ((s.answered r.query.id).staged p q, [.prepare p q])
  flying : Flying ((s.answered r.query.id).staged p q) v p q
  run : run C s (admitting C s r p q) = s'
  installs : installsOf C s (admitting C s r p q) = [p]
  room : Room C (n + 3) s' (installed C v p (v.revision + 1))
  idle : Idle s'
  queries : s'.queries = s.queries.erase r.query.id
  lookups : ∀ (k : ℕ) (w : ResolveRequest), s'.lookups[k]? = some w → s.lookups[k]? = some w

variable (which) in
/-- An operation whose facts hold is admitted when storage commits it. -/
theorem Room.admitted (h : Room C n s v) (hn : n + 1 ≤ 100) (hidle : Idle s) (hcertificate : certificate.length ≤ 2 ^ 20)
    (hpermit : permit.length ≤ 2 ^ 20) {r : EvidenceReply} {verify : Query} (hverify : verify.Short) {sealing : Option Query}
    (hsealing : ∀ q ∈ sealing, q.Short) {admission : Bytes} (hadmission : admission.length ≤ 2 ^ 20)
    (hr : evidence C s r = Kernel.acceptance C (s.answered r.query.id) (sketch C which certificate permit) (vouched C which certificate)
      verify sealing admission) :
    ∃ batch charges q s', Admitted C n s v r
      (plot C v (sketch C which certificate permit) (vouched C which certificate) verify sealing admission s.nextEffectId batch charges)
      q s' := by
  obtain ⟨batch, charges, q, haccept, htaken⟩ := (h.answered r.query.id).acceptance which (by omega)
    (hidle.answered _) hcertificate hpermit hverify hsealing hadmission
  set p := plot C v (sketch C which certificate permit)
    (vouched C which certificate) verify sealing admission s.nextEffectId batch
    charges with hp
  have hkind : p.kind ≠ .candidate := plot_kind _ _ _ _ _ _ _ _ _ _
  have hstaged : step C s (.evidenceResolved r) = ((s.answered r.query.id).staged p q, [.prepare p q]) := hr.trans haccept
  have hroom := (h.answered r.query.id).staged p q
  have hflying := (h.answered r.query.id).flying (hidle.answered _) htaken (by rw [h.descriptor]; rfl)
  obtain ⟨hrun, hinstalls⟩ := hroom.stored hn hflying hkind
  have hshort := staged_short C which v hcertificate hpermit (vouched C which certificate) verify sealing hadmission
  refine ⟨batch, charges, q, Kernel.committed C ((s.answered r.query.id).staged p q) p q
    (nextOf C ((s.answered r.query.id).staged p q) q), hstaged, hflying, ?_, ?_, hroom.settled hn hflying _ hkind rfl hshort,
    idle_committed hflying _, rfl, fun k w hw => ?_⟩
  · rw [admitting, Kernel.run, List.foldl_cons, hstaged]
    exact hrun
  · rw [admitting, installsOf, hstaged, hinstalls]
    rfl
  · have hw : (s.lookups.erase (resolveOf ((s.answered r.query.id).staged p q) q (nextOf C
      ((s.answered r.query.id).staged p q) q)).invocation.number)[k]? = some w := hw
    rw [Std.ExtTreeMap.getElem?_erase] at hw
    split_ifs at hw
    exact hw

variable (which) in
/-- The evidence of a replica's operation is asked for. -/
theorem Room.offered (h : Room C n s v) (hn : n ≤ 100) (hidle : Idle s) (hcertificate : certificate.length ≤ 2 ^ 20)
    (hpermit : permit.length ≤ 2 ^ 20) (hnew : ∀ a ∈ v.accepted, a.candidate.operation ≠ stroke which)
    (hasked : ∀ q ∈ s.queriesOf (draft C).inst, q.candidate ≠ sketch C which certificate permit) :
    (step C s (.offerReplica (sketch C which certificate permit))).1 =
        s.queried (asked C which certificate permit .historical s.nextEffectId) ∧
      Room C (n + 1) (s.queried (asked C which certificate permit .historical s.nextEffectId)) v :=
  ⟨congrArg Prod.fst (h.offer which false hn hidle hcertificate hpermit hnew hasked),
    h.queried (sketch_short C which hcertificate hpermit)⟩

variable (which) in
/-- The evidence of a local write is asked for under the cut there is. -/
theorem Room.submitted (h : Room C n s v) (hn : n ≤ 100) (hidle : Idle s) (hcertificate : certificate.length ≤ 2 ^ 20)
    (hpermit : permit.length ≤ 2 ^ 20) (hnew : ∀ a ∈ v.accepted, a.candidate.operation ≠ stroke which)
    (hasked : ∀ q ∈ s.queriesOf (draft C).inst, q.candidate ≠ sketch C which certificate permit) :
    (step C s (.submitLocal (sketch C which certificate permit))).1 =
        s.queried (asked C which certificate permit (.localWrite (C.sha256 v.policy) v.policyTime) s.nextEffectId) ∧
      Room C (n + 1)
        (s.queried (asked C which certificate permit (.localWrite (C.sha256 v.policy) v.policyTime) s.nextEffectId)) v :=
  ⟨congrArg Prod.fst (h.offer which true hn hidle hcertificate hpermit hnew hasked),
    h.queried (sketch_short C which hcertificate hpermit)⟩

/-- A new operation comes after those accepted. -/
theorem accepted_installed {p : CommitPlan} {a : StagedAcceptance} (haccept : p.acceptances = [a])
    (hnew : ∀ old ∈ v.accepted, old.candidate.operation ≠ a.candidate.operation) (revision : ℕ) :
    (installed C v p revision).accepted = v.accepted ++ [a.entry] := by
  rw [installed_accepted_of_single v p revision haccept, if_neg]
  rintro ⟨old, hold, hop⟩
  exact hnew old hold hop

/-- The certificate an operation was accepted with is its origin's. -/
theorem certificate_installed {p : CommitPlan} {a : StagedAcceptance} (haccept : p.acceptances = [a])
    (hfacts : a.facts = vouched C which certificate) (hnew : ∀ old ∈ v.accepted, old.candidate.operation ≠ a.candidate.operation)
    (revision : ℕ) : (installed C v p revision).canonicalOrigins[which.origin]? =
      some (vouched C which certificate).certificate := by
  rw [installed_canonicalOrigins_of_single v p revision haccept, if_neg]
  · rw [hfacts]
    exact Std.ExtTreeMap.getElem?_insert_self
  · rintro ⟨old, hold, hop⟩
    exact hnew old hold hop

/-! ### A first operation -/

/-- The instance before its first operation. -/
def blank (C : Crypto) : InstanceState := .opened (draft C) .volatileTest [] { earliestMs := 0, latestMs := 0 }

/-- The session with the first operation asked of. -/
def posed (C : Crypto) : State := (desk C).queried (asked C .first [] [] .historical 0)

/-- The provider's answer. -/
def vouching (C : Crypto) : EvidenceReply := ⟨asking C .first [] [] .historical 0, .verified (vouched C .first [])⟩

/-- The plan of the first operation. -/
def firstPlan (C : Crypto) (batch : Bytes) (charges : Charges) : CommitPlan :=
  plot C (blank C) (sketch C .first [] []) (vouched C .first []) (asking C .first [] [] .historical 0) none [] 1 batch charges

/-- A replica's first operation is admitted. -/
theorem first_admitted (C : Crypto) : ∃ batch charges q s',
    (step C (desk C) (.offerReplica (sketch C .first [] []))).1 = posed C ∧
      Admitted C 1 (posed C) (blank C) (vouching C) (firstPlan C batch charges) q s' := by
  have hnil : ([] : Bytes).length ≤ 2 ^ 20 := Nat.zero_le _
  obtain ⟨hstep, hroom⟩ := (room_desk C).offered .first (by omega) (idle_desk C) hnil hnil
    (by simp [InstanceState.opened]) (by simp [State.queriesOf, values, desk, State.opened])
  have hready : Room C 1 (posed C) (blank C) := hroom
  have hasked : (posed C).queries[0]? = some (asked C .first [] [] .historical 0) := Std.ExtTreeMap.getElem?_insert_self
  obtain ⟨batch, charges, q, s', hadmitted⟩ := hready.admitted .first (by omega) ((idle_desk C).queried _) hnil hnil
    (asking_short C .first hnil hnil .historical 0) (by simp) hnil
    (hready.verified_historical hasked (by simp [blank, InstanceState.opened]))
  exact ⟨batch, charges, q, s', hstep, hadmitted⟩

theorem accepted_first {p : CommitPlan} {a : StagedAcceptance} (haccept : p.acceptances = [a]) (revision : ℕ) :
    (installed C (blank C) p revision).accepted = [a.entry] :=
  accepted_installed haccept (by simp [blank, InstanceState.opened]) revision

/-- The run that admits it. -/
def firstRun (C : Crypto) (p : CommitPlan) (q : PrepareRequest) : List Event :=
  .offerReplica (sketch C .first [] []) :: admitting C (posed C) (vouching C) p q

theorem Admitted.run_first {p : CommitPlan} {q : PrepareRequest} {s' : State}
    (h : Admitted C 1 (posed C) (blank C) (vouching C) p q s') : Kernel.run C (desk C) (firstRun C p q) = s' := by
  obtain ⟨-, -, -, -, hstep, -⟩ := first_admitted C
  rw [firstRun, Kernel.run, List.foldl_cons, hstep]
  exact h.run

/-- After it, it is the one accepted operation. -/
theorem first_accepted (C : Crypto) : ∃ events v a, (run C (desk C) events).instances[(draft C).inst]? = some v ∧
    v.accepted = [a] ∧ a.candidate.operation = stroke .first ∧ Room C 4 (run C (desk C) events) v ∧
    Idle (run C (desk C) events) := by
  obtain ⟨batch, charges, q, s', -, hadmitted⟩ := first_admitted C
  have hrun := hadmitted.run_first
  exact ⟨_, _, _, by rw [hrun]; exact hadmitted.room.known, accepted_first rfl _, rfl, hrun ▸ hadmitted.room,
    hrun ▸ hadmitted.idle⟩

/-! ### A local write that is overtaken -/

theorem installed_cut (v : InstanceState) (p : CommitPlan) (revision : ℕ) :
    (installed C v p revision).policy = v.policy ∧ (installed C v p revision).policyTime = v.policyTime ∧
      (installed C v p revision).timeFloorMs = v.timeFloorMs := by
  rw [installed_eq]
  refine ⟨?_, ?_, ?_⟩
  · refine taken_keeps (fun v => v.policy) (fun _ _ => rfl) (fun _ _ => rfl) (fun _ _ => rfl) (fun v a => ?_)
      (fun _ _ _ => rfl) v p revision
    rw [install]
    dsimp only
    split_ifs <;> rfl
  · refine taken_keeps (fun v => v.policyTime) (fun _ _ => rfl) (fun _ _ => rfl) (fun _ _ => rfl) (fun v a => ?_)
      (fun _ _ _ => rfl) v p revision
    rw [install]
    dsimp only
    split_ifs <;> rfl
  · refine taken_keeps (fun v => v.timeFloorMs) (fun _ _ => rfl) (fun _ _ => rfl) (fun _ _ => rfl) (fun v a => ?_)
      (fun _ _ _ => rfl) v p revision
    rw [install]
    dsimp only
    split_ifs <;> rfl

/-- The cut a session starts under. -/
def firstCut (C : Crypto) : LocalPrecondition := { policy := C.sha256 [], time := { earliestMs := 0, latestMs := 0 } }

/-- The session in which the facts of the first write are waited for. -/
def submittedDesk (C : Crypto) : State :=
  (desk C).queried (asked C .first [] [] (.localWrite (firstCut C).policy (firstCut C).time) 0)

theorem room_submitted (C : Crypto) : (step C (desk C) (.submitLocal (sketch C .first [] []))).1 = submittedDesk C ∧
    Room C 1 (submittedDesk C) (blank C) :=
  (room_desk C).submitted .first (by omega) (idle_desk C) (Nat.zero_le _) (Nat.zero_le _)
    (by simp [InstanceState.opened]) (by simp [State.queriesOf, values, desk, State.opened])

/-- The session in which its seal is waited for. -/
def sealingDesk (C : Crypto) : State := ((submittedDesk C).answered 0).queried (sealing C .first [] [] (firstCut C) 0 1)

/-- The events that lead there. -/
def submission (C : Crypto) : List Event :=
  [.submitLocal (sketch C .first [] []),
    .evidenceResolved ⟨asking C .first [] [] (.localWrite (firstCut C).policy (firstCut C).time) 0,
      .verified (vouched C .first [])⟩]

/-- The first write of a session has its facts, and its seal is asked for. -/
theorem room_sealing (C : Crypto) : run C (desk C) (submission C) = sealingDesk C ∧
    (∀ x ∈ effectsOf C (desk C) (submission C), ∀ b, x ≠ .begin b) ∧ Room C 2 (sealingDesk C) (blank C) ∧
    Idle (sealingDesk C) ∧ (sealingDesk C).queries[1]? = some (sealing C .first [] [] (firstCut C) 0 1) ∧
    ∀ (k : ℕ) (q : PendingVerification), (sealingDesk C).queries[k]? = some q → k = 1 ∧
      q = sealing C .first [] [] (firstCut C) 0 1 := by
  have hnil : ([] : Bytes).length ≤ 2 ^ 20 := Nat.zero_le _
  obtain ⟨hstep, hready⟩ := room_submitted C
  have hasked : (submittedDesk C).queries[0]? = some (asked C .first [] [] (.localWrite (firstCut C).policy
    (firstCut C).time) 0) :=
    Std.ExtTreeMap.getElem?_insert_self
  have hcurrent : CurrentMatches C (submittedDesk C) (draft C).inst (firstCut C) := ⟨blank C, hready.known, rfl,
    rfl, le_rfl, le_rfl⟩
  have hfree : Unopposed C (blank C) (sketch C .first [] []) := by
    refine ⟨by simp [blank, InstanceState.opened], by simp [Quarantined, blank, InstanceState.opened], ?_⟩
    rw [dependencies_sketch]
    simp
  have hseal := hready.verified_local (by omega) hasked (by simp [blank, InstanceState.opened]) hcurrent
    ⟨Nat.zero_lt_one, le_rfl, le_rfl, Nat.zero_le _⟩ hfree
  have hstate : (step C (submittedDesk C) (.evidenceResolved ⟨asking C .first [] []
    (.localWrite (firstCut C).policy (firstCut C).time) 0,
      .verified (vouched C .first [])⟩)).1 = sealingDesk C := congrArg Prod.fst hseal
  refine ⟨?_, ?_, (hready.answered 0).queried (sketch_short C .first hnil hnil), (((idle_desk C).queried _).answered 0).queried _,
    Std.ExtTreeMap.getElem?_insert_self, fun k q hk => ?_⟩
  · rw [submission, run, List.foldl_cons, hstep, List.foldl_cons]
    exact hstate
  · have hasks : (step C (desk C) (.submitLocal (sketch C .first [] []))).2 = [_] := congrArg Prod.snd
      ((room_desk C).offer .first true (by omega) (idle_desk C) hnil hnil (by simp [InstanceState.opened])
        (by simp [State.queriesOf, values, desk, State.opened]))
    have hseals : (step C (submittedDesk C) (.evidenceResolved
        ⟨asking C .first [] [] (.localWrite (firstCut C).policy (firstCut C).time) 0,
          .verified (vouched C .first [])⟩)).2 = [_] :=
      congrArg Prod.snd hseal
    rw [submission, effectsOf, hasks, hstep, effectsOf, hseals, effectsOf]
    simp
  · have hempty : ((submittedDesk C).answered 0).queries[k]? = none := by
      rw [State.answered, Std.ExtTreeMap.getElem?_erase]
      split_ifs with hk₀
      · rfl
      · rw [submittedDesk, State.queried, Std.ExtTreeMap.getElem?_insert]
        exact (if_neg hk₀).trans (by simp [desk, State.opened])
    rw [sealingDesk, State.queried, Std.ExtTreeMap.getElem?_insert] at hk
    split_ifs at hk with hk₁
    · exact ⟨(Std.LawfulEqOrd.eq_of_compare hk₁).symm, (Option.some.inj hk).symm⟩
    · rw [hempty] at hk
      cases hk

/-- The seal of the first write. -/
def sealingReply (C : Crypto) : EvidenceReply := ⟨(sealing C .first [] [] (firstCut C) 0 1).query, .sealed [1]⟩

/-- The first write's plan, in the instance `v`. -/
def sealedPlan (C : Crypto) (v : InstanceState) (id : ℕ) (batch : Bytes) (charges : Charges) : CommitPlan :=
  plot C v (sketch C .first [] []) (vouched C .first []) (asking C .first [] [] (.localWrite (firstCut C).policy
    (firstCut C).time) 0)
    (some (sealing C .first [] [] (firstCut C) 0 1).query) [1] id batch charges

/-- The first write is admitted once its seal comes. -/
theorem first_sealed (C : Crypto) : ∃ batch charges q s', Admitted C 2 (sealingDesk C) (blank C) (sealingReply C)
    (sealedPlan C (blank C) 2 batch charges) q s' := by
  have hnil : ([] : Bytes).length ≤ 2 ^ 20 := Nat.zero_le _
  obtain ⟨-, -, hroom, hidle, hseal, -⟩ := room_sealing C
  have hcurrent : CurrentMatches C (sealingDesk C) (draft C).inst (firstCut C) := ⟨blank C, hroom.known, rfl, rfl, le_rfl, le_rfl⟩
  exact hroom.admitted .first (r := sealingReply C) (by omega) hidle hnil hnil
    (asking_short C .first hnil hnil (.localWrite (firstCut C).policy (firstCut C).time) 0)
    (by rintro _ ⟨⟩; exact sealing_short C .first hnil hnil (firstCut C) 0 1) (by norm_num) (hroom.sealed hseal hcurrent)

/-- The run that admits it. -/
def sealedRun (C : Crypto) (p : CommitPlan) (q : PrepareRequest) : List Event :=
  submission C ++ admitting C (sealingDesk C) (sealingReply C) p q

theorem Admitted.run_sealed {p : CommitPlan} {q : PrepareRequest} {s' : State}
    (h : Admitted C 2 (sealingDesk C) (blank C) (sealingReply C) p q s') : Kernel.run C (desk C) (sealedRun C p q) = s' := by
  rw [sealedRun, run_append, (room_sealing C).1]
  exact h.run

/-! ### What crosses a seal -/

theorem stroke_ne_first {which : Stroke} (h : which ≠ .first) : stroke which ≠ stroke .first := by
  cases which with
  | first => exact absurd rfl h
  | again => simp [stroke, Stroke.payload]
  | beside => simp [stroke, Stroke.origin]

/-- The session in which an operation is asked of while the seal is waited for. -/
def crossingDesk (C : Crypto) (which : Stroke) (certificate : Bytes) : State :=
  (sealingDesk C).queried (asked C which certificate [] .historical 2)

/-- The events that lead there. -/
def crossing (C : Crypto) (which : Stroke) (certificate : Bytes) : List Event :=
  submission C ++ [.offerReplica (sketch C which certificate [])]

/-- The facts of that operation. -/
def crossingReply (C : Crypto) (which : Stroke) (certificate : Bytes) : EvidenceReply :=
  ⟨asking C which certificate [] .historical 2, .verified (vouched C which certificate)⟩

/-- Its plan. -/
def crossingPlan (C : Crypto) (which : Stroke) (certificate batch : Bytes) (charges : Charges) : CommitPlan :=
  plot C (blank C) (sketch C which certificate []) (vouched C which certificate) (asking C which certificate [] .historical 2)
    none [] 3 batch charges

theorem room_crossing (C : Crypto) {which : Stroke} {certificate : Bytes} (hwhich : which ≠ .first)
    (hcertificate : certificate.length ≤ 2 ^ 20) :
    (step C (sealingDesk C) (.offerReplica (sketch C which certificate []))).1 = crossingDesk C which certificate ∧
      Room C 3 (crossingDesk C which certificate) (blank C) := by
  obtain ⟨-, -, hroom, hidle, -, honly⟩ := room_sealing C
  refine hroom.offered which (by omega) hidle hcertificate (Nat.zero_le _) (by simp [blank, InstanceState.opened]) fun q hq => ?_
  obtain ⟨k, hk⟩ := mem_values.mp (List.mem_of_mem_filter hq)
  rw [(honly k q hk).2]
  intro hsame
  exact stroke_ne_first hwhich (congrArg Candidate.operation hsame).symm

/-- What is waited for when the operation is answered for is the seal. -/
theorem only_seal {which : Stroke} {certificate : Bytes} {k : ℕ} {w : PendingVerification}
    (hk : ((crossingDesk C which certificate).queries.erase 2)[k]? = some w) : w = sealing C .first [] [] (firstCut C) 0 1 := by
  obtain ⟨-, -, -, -, -, honly⟩ := room_sealing C
  rw [Std.ExtTreeMap.getElem?_erase, crossingDesk, State.queried, Std.ExtTreeMap.getElem?_insert] at hk
  split_ifs at hk with h₁ h₂
  · exact absurd h₂ h₁
  · exact (honly k w hk).2

/-- While the seal of a write is waited for another operation is admitted; then the seal
comes, and the write is staged. -/
theorem crossed (C : Crypto) {which : Stroke} {certificate : Bytes} (hwhich : which ≠ .first)
    (hcertificate : certificate.length ≤ 2 ^ 20) : ∃ batch charges q s',
      Admitted C 3 (crossingDesk C which certificate) (blank C) (crossingReply C which certificate)
        (crossingPlan C which certificate batch charges) q s' ∧
      ∃ batch' charges' q' s'', Admitted C 6 s' (installed C (blank C) (crossingPlan C which certificate batch charges) 1)
        (sealingReply C) (sealedPlan C (installed C (blank C) (crossingPlan C which certificate batch charges) 1) s'.nextEffectId
          batch' charges') q' s'' := by
  have hnil : ([] : Bytes).length ≤ 2 ^ 20 := Nat.zero_le _
  obtain ⟨-, -, -, hidle, hseal, -⟩ := room_sealing C
  obtain ⟨-, hroom⟩ := room_crossing C hwhich hcertificate
  have hasked : (crossingDesk C which certificate).queries[(2 : ℕ)]? = some (asked C which certificate [] .historical 2) :=
    Std.ExtTreeMap.getElem?_insert_self
  have hseal₃ : (crossingDesk C which certificate).queries[(1 : ℕ)]? = some (sealing C .first [] [] (firstCut C) 0 1) := by
    rw [crossingDesk, State.queried, Std.ExtTreeMap.getElem?_insert]
    exact (if_neg (show ¬ compare (2 : ℕ) 1 = .eq by decide)).trans hseal
  obtain ⟨batch, charges, q, s', hfirst⟩ := hroom.admitted which (r := crossingReply C which certificate) (by omega)
    (hidle.queried _) hcertificate hnil (asking_short C which hcertificate hnil .historical 2) (by simp) hnil
    (hroom.verified_historical hasked (by simp [blank, InstanceState.opened]))
  have hseal₄ : s'.queries[(1 : ℕ)]? = some (sealing C .first [] [] (firstCut C) 0 1) := by
    rw [hfirst.queries, Std.ExtTreeMap.getElem?_erase]
    exact (if_neg (show ¬ compare (2 : ℕ) 1 = .eq by decide)).trans hseal₃
  have hroom₄ : Room C 6 s' (installed C (blank C) (crossingPlan C which certificate batch charges) 1) := hfirst.room
  have hcurrent : CurrentMatches C s' (draft C).inst (firstCut C) := by
    obtain ⟨hpolicy, htime, hfloor⟩ := installed_cut (C := C) (blank C) (crossingPlan C which certificate batch charges) 1
    exact ⟨_, hroom₄.known, by rw [hpolicy]; rfl, by rw [htime]; rfl, by rw [hfloor]; rfl, le_rfl⟩
  obtain ⟨batch', charges', q', s'', hsecond⟩ := hroom₄.admitted .first (r := sealingReply C) (by omega) hfirst.idle hnil hnil
    (asking_short C .first hnil hnil (.localWrite (firstCut C).policy (firstCut C).time) 0)
    (by rintro _ ⟨⟩; exact sealing_short C .first hnil hnil (firstCut C) 0 1) (by norm_num) (hroom₄.sealed hseal₄ hcurrent)
  exact ⟨batch, charges, q, s', hfirst, batch', charges', q', s'', hsecond⟩

/-- The events of a run in which another operation is admitted before the seal comes. -/
def crossingRun (C : Crypto) (which : Stroke) (certificate : Bytes) (p : CommitPlan) (q : PrepareRequest) : List Event :=
  crossing C which certificate ++ admitting C (crossingDesk C which certificate) (crossingReply C which certificate) p q

theorem run_crossing (C : Crypto) {which : Stroke} {certificate : Bytes} (hwhich : which ≠ .first)
    (hcertificate : certificate.length ≤ 2 ^ 20) :
    run C (desk C) (crossing C which certificate) = crossingDesk C which certificate := by
  rw [crossing, run_concat, (room_sealing C).1, (room_crossing C hwhich hcertificate).1]

theorem Admitted.run_crossing {which : Stroke} {certificate : Bytes} (hwhich : which ≠ .first)
    (hcertificate : certificate.length ≤ 2 ^ 20) {p : CommitPlan} {q : PrepareRequest} {s' : State}
    (h : Admitted C 3 (crossingDesk C which certificate) (blank C) (crossingReply C which certificate) p q s') :
    Kernel.run C (desk C) (crossingRun C which certificate p q) = s' := by
  rw [crossingRun, run_append, Kernel.run_crossing C hwhich hcertificate]
  exact h.run

/-- An operation at the first write's slot is admitted under another certificate before
the write's seal comes, and the write is staged beside it. -/
theorem overtaken (C : Crypto) : ∃ before batch charges q s' v,
    (run C (desk C) before).instances[(draft C).inst]? = some v ∧
      v.canonicalOrigins["a"]? = some (vouched C .again [2]).certificate ∧ rivals v (sketch C .first [] []) ≠ [] ∧
      (∀ old ∈ v.accepted, old.candidate.operation ≠ stroke .first) ∧
      Admitted C 6 (run C (desk C) before) v (sealingReply C)
        (sealedPlan C v (run C (desk C) before).nextEffectId batch charges) q s' := by
  have hwhich : Stroke.again ≠ .first := by simp
  have htwo : ([2] : Bytes).length ≤ 2 ^ 20 := by norm_num
  obtain ⟨batch, charges, q, s', hfirst, batch', charges', q', s'', hsecond⟩ := crossed C hwhich htwo
  have haccepted := accepted_first (C := C) (p := crossingPlan C .again [2] batch charges) rfl 1
  have hcertificate : (installed C (blank C) (crossingPlan C .again [2] batch charges) 1).canonicalOrigins[Stroke.again.origin]? =
      some (vouched C .again [2]).certificate := certificate_installed rfl rfl (by simp [blank, InstanceState.opened]) _
  have hrun := hfirst.run_crossing hwhich htwo
  refine ⟨crossingRun C .again [2] (crossingPlan C .again [2] batch charges) q, batch', charges', q', s'', _,
    by rw [hrun]; exact hfirst.room.known, hcertificate, ?_, ?_, by rw [hrun]; exact hsecond⟩
  · rw [rivals, haccepted]
    simp [slot, StagedAcceptance.entry, stagedAcceptance, sketch, stroke, Stroke.origin, Stroke.payload]
  · rw [haccepted]
    simp [StagedAcceptance.entry, stagedAcceptance, sketch, stroke, Stroke.payload]

end Glade.Kernel
