import Glade.Kernel.Admission
import Glade.Lib.Rounds

/-! How long a plan's batch is. Every writer of the encoder appends, so the length of
a batch is a sum over its parts, and it moves with a plan's charges only through the
groups they are written in. The loop that looks for charges which are the length of
the batch that holds them therefore ends. -/

namespace Glade.Kernel

open Wire Node

/-! ### Groups -/

/-- The groups a `u64` is written in. -/
def width (v : ℕ) : ℕ := (groups 9 (v % 2 ^ 64)).length

theorem length_groups (more n : ℕ) : 1 ≤ (groups more n).length ∧ (groups more n).length ≤ more + 1 := by
  induction more generalizing n with
  | zero => simp [groups]
  | succ more ih =>
    rw [groups]
    split_ifs
    · simp only [List.length_cons]
      have := ih (n / 128)
      omega
    · simp

theorem length_groups_mono (more : ℕ) {m n : ℕ} (h : m ≤ n) : (groups more m).length ≤ (groups more n).length := by
  induction more generalizing m n with
  | zero => simp [groups]
  | succ more ih =>
    rw [groups, groups]
    split_ifs
    · simp only [List.length_cons]
      exact Nat.succ_le_succ (ih (Nat.div_le_div_right h))
    · omega
    · simp
    · simp

theorem width_bounds (v : ℕ) : 1 ≤ width v ∧ width v ≤ 10 := length_groups 9 _

theorem width_mono {m n : ℕ} (h : m ≤ n) (hn : n < 2 ^ 64) : width m ≤ width n := by
  rw [width, width, Nat.mod_eq_of_lt hn, Nat.mod_eq_of_lt (h.trans_lt hn)]
  exact length_groups_mono 9 h

/-! ### Writers -/

/-- A writer that appends, whatever is written already. -/
def Appends (f : Encoder → Encoder) : Prop := ∀ e : Encoder,
  (f e).out = e.out ++ (f { e with out := [] }).out ∧ (f e).blobs = (f { e with out := [] }).blobs

theorem Appends.comp {f g : Encoder → Encoder} (hg : Appends g) (hf : Appends f) : Appends fun e => g (f e) := by
  intro e
  obtain ⟨hout, hblobs⟩ := hf e
  obtain ⟨hout', hblobs'⟩ := hg (f e)
  obtain ⟨hout'', hblobs''⟩ := hg (f { e with out := [] })
  dsimp only
  rw [hout', hblobs', hout'', hblobs'', hout, hblobs, List.append_assoc]
  exact ⟨rfl, rfl⟩

theorem Appends.id : Appends fun e => e := fun _ => ⟨(List.append_nil _).symm, rfl⟩

theorem Appends.foldl {A : Type} {write : Encoder → A → Encoder} (h : ∀ a, Appends fun e => write e a) (l : List A) :
    Appends fun e => l.foldl write e := by
  induction l with
  | nil => exact .id
  | cons a l ih => exact ih.comp (h a)

namespace Encoder

theorem appends_n (v : ℕ) : Appends fun e => e.n v := fun _ => ⟨rfl, rfl⟩

theorem appends_blob (bytes : Bytes) : Appends fun e => e.blob bytes := by
  intro e
  dsimp only [blob]
  cases e.blobs.findIdx? (fun old => old = bytes) with
  | some i => exact appends_n _ e
  | none => simp [n]

theorem appends_b (v : Bool) : Appends fun e => e.b v := appends_n _

theorem appends_text (s : String) : Appends fun e => e.text s := appends_blob _

theorem appends_option {A : Type} {write : Encoder → A → Encoder} (h : ∀ a, Appends fun e => write e a) (o : Option A) :
    Appends fun e => option write e o := by
  cases o with
  | none => exact appends_b false
  | some a => exact (h a).comp (appends_b true)

theorem appends_instanceId (i : Instance) : Appends fun e => e.instanceId i := (appends_text _).comp (appends_blob _)

theorem appends_time (t : TimeInterval) : Appends fun e => e.time t := (appends_n _).comp (appends_n _)

theorem appends_window (w : Window) : Appends fun e => e.window w := (appends_n _).comp (appends_n _)

theorem appends_mode (m : Mode) : Appends fun e => e.mode m := by
  cases m with
  | localWrite policy t => exact (appends_time t).comp ((appends_blob _).comp (appends_n 0))
  | historical => exact appends_n 1
  | admissionSeal => exact appends_n 2

theorem appends_descriptor (d : Descriptor) : Appends fun e => e.descriptor d := by
  refine (Appends.foldl appends_n _).comp ((appends_n _).comp ((appends_blob _).comp
    ((Appends.foldl appends_text _).comp ((appends_blob _).comp ((appends_blob _).comp (appends_instanceId _))))))

theorem appends_evidence (v : EvidenceSet) : Appends fun e => e.evidence v :=
  (appends_option appends_blob _).comp ((appends_blob _).comp ((appends_blob _).comp (appends_blob _)))

theorem appends_candidate (c : Candidate) : Appends fun e => e.candidate c :=
  (appends_evidence _).comp ((appends_blob _).comp (appends_instanceId _))

theorem appends_facts (f : Facts) : Appends fun e => e.facts f := by
  refine (appends_option appends_time _).comp ((Appends.foldl appends_b _).comp ((appends_n _).comp ((appends_n _).comp
    ((appends_window _).comp ((Appends.foldl appends_b _).comp ((appends_blob _).comp ((appends_text _).comp
    ((appends_blob _).comp ((Appends.foldl appends_text _).comp (appends_instanceId _))))))))))

theorem appends_query (q : Query) : Appends fun e => e.query q := by
  refine (appends_option appends_mode _).comp ((appends_option appends_facts _).comp ((appends_mode _).comp
    ((appends_evidence _).comp ((appends_blob _).comp ((appends_descriptor _).comp ((appends_instanceId _).comp
    (appends_n _)))))))

theorem appends_storage (s : StorageClass) : Appends fun e => e.storage s := by cases s <;> exact appends_n _

theorem appends_receipt (r : Receipt) : Appends fun e => e.receipt r :=
  (appends_storage _).comp ((appends_blob _).comp ((appends_blob _).comp ((appends_blob _).comp (appends_instanceId _))))

theorem appends_acceptance (a : StagedAcceptance) : Appends fun e => e.acceptance a := by
  refine (appends_receipt _).comp ((appends_blob _).comp ((appends_option appends_query _).comp ((appends_query _).comp
    ((appends_facts _).comp (appends_candidate _)))))

end Encoder

/-- What follows the charges of a plan. -/
def encodeRecords (p : CommitPlan) (e : Encoder) : Encoder :=
  let e := p.records.foldl Encoder.candidate (e.n p.records.length)
  let e := p.acceptances.foldl Encoder.acceptance (e.n p.acceptances.length)
  p.qualifiedForks.foldl (fun e f => (e.candidate f.first).candidate f.second) (e.n p.qualifiedForks.length)

theorem appends_encodeRecords (p : CommitPlan) : Appends (encodeRecords p) := by
  have hfork : ∀ f : ForkEvidence, Appends fun e => (e.candidate f.first).candidate f.second := fun f =>
    (Encoder.appends_candidate _).comp (Encoder.appends_candidate _)
  exact (Appends.foldl hfork _).comp ((Encoder.appends_n _).comp ((Appends.foldl Encoder.appends_acceptance _).comp
    ((Encoder.appends_n _).comp ((Appends.foldl Encoder.appends_candidate _).comp (Encoder.appends_n _)))))

/-- What comes before them. -/
def encodeHead (s : State) (descriptor : Descriptor) (p : CommitPlan) : Encoder :=
  let e : Encoder := { out := utf8 "glade.crdt.batch" ++ [0, 1], blobs := [] }
  let e := ((e.blob s.planNamespace).blob s.invocationNamespace).n s.nextEffectId
  let e := Encoder.option Encoder.storage e (s.instances[p.inst]?.map fun v => v.storage)
  let e := Encoder.option Encoder.owner e s.storageOwner
  let e := (((e.descriptor descriptor).n p.id).instanceId p.inst).n p.expectedRevision
  let e := e.n (match p.kind with
    | .acceptedBatch => 0
    | .candidate => 1
    | .securityEvidence => 2
    | .qualifiedFork => 3)
  Encoder.option Encoder.localCut e p.localPrecondition

theorem encodePlan_eq (s : State) (d : Descriptor) (p : CommitPlan) : encodePlan s d p =
    (encodeRecords p
      ([p.charges.edit, p.charges.recovery, p.charges.evidence, p.charges.pending].foldl Encoder.n (encodeHead s d p))).out :=
  rfl

/-- The length of a batch, its charges apart. -/
def baseLength (s : State) (d : Descriptor) (p : CommitPlan) : ℕ :=
  (encodeHead s d p).out.length + (encodeRecords p { encodeHead s d p with out := [] }).out.length

/-- The charges move a batch's length only by their groups. -/
theorem length_encodePlan (s : State) (d : Descriptor) (p : CommitPlan) : (encodePlan s d p).length =
    baseLength s d p + width p.charges.edit + width p.charges.recovery + width p.charges.evidence +
      width p.charges.pending := by
  rw [encodePlan_eq, (appends_encodeRecords p _).1, baseLength]
  simp only [List.foldl_cons, List.foldl_nil, Encoder.n, List.length_append, width]
  omega

/-! ### The charges of a batch -/

/-- The length of a batch that is charged as `n` bytes. -/
def lengthAt (base : ℕ) (isLocal : Bool) (kind : CommitKind) (n : ℕ) : ℕ :=
  let charges := chargesOf isLocal kind n
  base + width charges.edit + width charges.recovery + width charges.evidence + width charges.pending

section Lanes

variable {base m n : ℕ} {isLocal : Bool} {kind : CommitKind}

theorem width_lane_le (c : Prop) [Decidable c] (h : width m ≤ width n) :
    width (if c then m else 0) ≤ width (if c then n else 0) := by
  split_ifs
  · exact h
  · exact le_rfl

theorem lengthAt_le (h : width m ≤ width n) : lengthAt base isLocal kind m ≤ lengthAt base isLocal kind n := by
  have hedit := width_lane_le (isLocal = true) h
  have hevidence := width_lane_le (kind = .securityEvidence ∨ kind = .qualifiedFork) h
  have hpending := width_lane_le (kind = .candidate) h
  have hrecovery : width (if isLocal = true then 0 else m) ≤ width (if isLocal = true then 0 else n) := by
    split_ifs
    · exact le_rfl
    · exact h
  dsimp only [lengthAt, chargesOf]
  omega

theorem lengthAt_lt (hbase : base + 40 < 2 ^ 64) : lengthAt base isLocal kind n < 2 ^ 64 := by
  have hedit := width_bounds (chargesOf isLocal kind n).edit
  have hrecovery := width_bounds (chargesOf isLocal kind n).recovery
  have hevidence := width_bounds (chargesOf isLocal kind n).evidence
  have hpending := width_bounds (chargesOf isLocal kind n).pending
  dsimp only [lengthAt]
  omega

theorem lengthAt_eq (h : width m = width n) : lengthAt base isLocal kind m = lengthAt base isLocal kind n :=
  le_antisymm (lengthAt_le h.le) (lengthAt_le h.ge)

end Lanes

section Loop

variable {s : State} {d : Descriptor}

/-- One round of the loop. -/
theorem encodeLoop_succ {fuel n : ℕ} {p : CommitPlan} (hp : p.charges = chargesOf p.localPrecondition.isSome p.kind n) :
    encodeLoop s d (fuel + 1) p =
      let exact := chargesOf p.localPrecondition.isSome p.kind
        (lengthAt (baseLength s d p) p.localPrecondition.isSome p.kind n)
      let p := { p with batch := encodePlan s d p }
      if p.charges = exact then some p else encodeLoop s d fuel { p with charges := exact } := by
  have hlength : (encodePlan s d p).length = lengthAt (baseLength s d p) p.localPrecondition.isSome p.kind n := by
    rw [length_encodePlan, lengthAt, hp]
  rw [encodeLoop]
  dsimp only
  rw [hlength]

/-- The loop ends with the round that finds the length it was charged for. -/
theorem encodeLoop_iterate {k fuel n : ℕ} {p : CommitPlan} (hp : p.charges = chargesOf p.localPrecondition.isSome p.kind n)
    (hfixed : lengthAt (baseLength s d p) p.localPrecondition.isSome p.kind
        ((lengthAt (baseLength s d p) p.localPrecondition.isSome p.kind)^[k] n) =
      (lengthAt (baseLength s d p) p.localPrecondition.isSome p.kind)^[k] n)
    (hfuel : k < fuel) : (encodeLoop s d fuel p).isSome := by
  induction k generalizing fuel n p with
  | zero =>
    obtain ⟨fuel, rfl⟩ : ∃ fuel', fuel = fuel' + 1 := ⟨fuel - 1, by omega⟩
    rw [Function.iterate_zero_apply] at hfixed
    rw [encodeLoop_succ hp, hfixed]
    dsimp only
    rw [if_pos hp]
    rfl
  | succ k ih =>
    obtain ⟨fuel, rfl⟩ : ∃ fuel', fuel = fuel' + 1 := ⟨fuel - 1, by omega⟩
    rw [encodeLoop_succ hp]
    dsimp only
    split_ifs
    · rfl
    · exact ih rfl hfixed (by omega)

/-- From charges that are some length's, the loop ends within twelve rounds. -/
theorem encodeLoop_isSome_of_le {n fuel : ℕ} {p : CommitPlan}
    (hp : p.charges = chargesOf p.localPrecondition.isSome p.kind n) (hlt : baseLength s d p + 40 < 2 ^ 64)
    (hfuel : 12 ≤ fuel) : (encodeLoop s d fuel p).isSome := by
  -- A length shows in the next only through the groups it is written in.
  obtain ⟨k, hk, hfixed⟩ := Rounds.exists_fixed width (fun n => (width_bounds n).2)
    (fun _ _ h => lengthAt_eq h) (fun _ _ h => width_mono (lengthAt_le h) (lengthAt_lt hlt)) n
  exact encodeLoop_iterate hp hfixed (by omega)

/-- The loop ends with charges that are the length of the batch. -/
theorem encodeLoop_isSome {n : ℕ} {p : CommitPlan} (hp : p.charges = chargesOf p.localPrecondition.isSome p.kind n)
    (hlt : baseLength s d p + 40 < 2 ^ 64) : (encodeLoop s d 64 p).isSome :=
  encodeLoop_isSome_of_le hp hlt (by norm_num)

/-- A plan is as long as it was before its charges were found. -/
theorem encodeLoop_length {fuel : ℕ} {p p' : CommitPlan} (h : encodeLoop s d fuel p = some p') :
    p'.batch.length ≤ baseLength s d p + 40 := by
  induction fuel generalizing p with
  | zero => cases h
  | succ fuel ih =>
    rw [encodeLoop] at h
    dsimp only at h
    split_ifs at h with hc
    · obtain rfl := Option.some.inj h
      have hedit := width_bounds p.charges.edit
      have hrecovery := width_bounds p.charges.recovery
      have hevidence := width_bounds p.charges.evidence
      have hpending := width_bounds p.charges.pending
      dsimp only
      rw [length_encodePlan]
      omega
    · have hrest := ih h
      exact hrest

/-! ### Whatever a plan is charged at first -/

/-- The plan a round of the loop leaves. -/
def recharge (s : State) (d : Descriptor) (p : CommitPlan) : CommitPlan :=
  let p := { p with batch := encodePlan s d p }
  { p with charges := chargesOf p.localPrecondition.isSome p.kind p.batch.length }

/-- Charges that are right already are left as they are. -/
theorem recharge_of_eq {p : CommitPlan} (h : p.charges = (recharge s d p).charges) :
    recharge s d p = { p with batch := encodePlan s d p } := by
  change { p with batch := encodePlan s d p, charges := (recharge s d p).charges } = _
  rw [← h]

theorem iterate_recharge (k : ℕ) (p : CommitPlan) :
    ∃ batch charges, (recharge s d)^[k] p = { p with batch, charges } := by
  induction k generalizing p with
  | zero => exact ⟨p.batch, p.charges, rfl⟩
  | succ k ih => exact ih (recharge s d p)

theorem encodeLoop_recharge {fuel : ℕ} {p : CommitPlan} : encodeLoop s d (fuel + 1) p =
    if p.charges = (recharge s d p).charges then some (recharge s d p) else encodeLoop s d fuel (recharge s d p) := by
  rw [encodeLoop]
  by_cases h : p.charges = (recharge s d p).charges
  · rw [if_pos h, recharge_of_eq h]
    exact if_pos h
  · rw [if_neg h]
    exact if_neg h

/-- The loop answers with the plan of the round it ends in, and a round more changes nothing. -/
theorem encodeLoop_eq_some_iterate {fuel : ℕ} {p p' : CommitPlan} (h : encodeLoop s d fuel p = some p') :
    ∃ k < fuel, p' = (recharge s d)^[k + 1] p ∧ recharge s d p' = p' ∧
      ∀ more, k < more → encodeLoop s d more p = some p' := by
  induction fuel generalizing p with
  | zero => cases h
  | succ fuel ih =>
    rw [encodeLoop_recharge] at h
    split_ifs at h with hc
    · obtain rfl := Option.some.inj h
      -- The batch is not part of what is encoded.
      have hstays : recharge s d (recharge s d p) = recharge s d p := by
        conv_lhs => rw [recharge_of_eq hc]
        rfl
      refine ⟨0, Nat.succ_pos fuel, rfl, hstays, ?_⟩
      intro more hmore
      obtain ⟨more, rfl⟩ : ∃ more', more = more' + 1 := ⟨more - 1, by omega⟩
      rw [encodeLoop_recharge, if_pos hc]
    · obtain ⟨k, hk, hp', hstays, hmore⟩ := ih h
      refine ⟨k + 1, Nat.succ_lt_succ hk, hp', hstays, ?_⟩
      intro more hlt
      obtain ⟨more, rfl⟩ : ∃ more', more = more' + 1 := ⟨more - 1, by omega⟩
      rw [encodeLoop_recharge, if_neg hc]
      exact hmore more (by omega)

/-- Whatever a plan is charged at first, the loop ends within thirteen rounds, and
then the plan is charged the length of its batch, in the lanes that its kind is
charged in: unless a round's batch is longer than a buffer may be. -/
theorem charging_ends (s : State) (d : Descriptor) (p : CommitPlan) :
    (∃ k < 13, maxLen < ((recharge s d)^[k + 1] p).batch.length) ∨
      ∃ k < 13, ∃ p', p' = (recharge s d)^[k + 1] p ∧ recharge s d p' = p' ∧
        (∀ fuel, k < fuel → encodeLoop s d fuel p = some p') ∧ p'.batch = encodePlan s d p' ∧
        p'.charges = chargesOf p.localPrecondition.isSome p.kind p'.batch.length := by
  by_cases hlong : maxLen < (encodePlan s d p).length
  · exact .inl ⟨0, by norm_num, hlong⟩
  · right
    have hbase : baseLength s d (recharge s d p) + 40 < 2 ^ 64 := by
      have hlength := length_encodePlan s d p
      have hsame : baseLength s d (recharge s d p) = baseLength s d p := rfl
      unfold maxLen at hlong
      omega
    have hsome : (encodeLoop s d 13 p).isSome := by
      rw [encodeLoop_recharge]
      split_ifs
      · rfl
      · exact encodeLoop_isSome_of_le (n := (encodePlan s d p).length) rfl hbase le_rfl
    obtain ⟨p', hp'⟩ := Option.isSome_iff_exists.mp hsome
    obtain ⟨k, hk, hround, hstays, hmore⟩ := encodeLoop_eq_some_iterate hp'
    have hbatch : p'.batch = encodePlan s d p' := (congrArg CommitPlan.batch hstays).symm
    refine ⟨k, hk, p', hround, hstays, hmore, hbatch, ?_⟩
    obtain ⟨batch, charges, hfields⟩ := iterate_recharge (s := s) (d := d) (k + 1) p
    have hcut : p'.localPrecondition = p.localPrecondition := by rw [hround, hfields]
    have hkind : p'.kind = p.kind := by rw [hround, hfields]
    calc
      p'.charges = (recharge s d p').charges := (congrArg CommitPlan.charges hstays).symm
      _ = chargesOf p'.localPrecondition.isSome p'.kind (encodePlan s d p').length := rfl
      _ = chargesOf p.localPrecondition.isSome p.kind p'.batch.length := by rw [hcut, hkind, ← hbatch]

end Loop

/-! ### Short plans -/

/-- The most a blob of a short plan takes, with its frame. -/
def piece : ℕ := 2 ^ 20 + 20

/-- A writer that adds at most `k` pieces. -/
def Pieces (k : ℕ) (f : Encoder → Encoder) : Prop := ∀ e : Encoder, (f e).out.length ≤ e.out.length + k * piece

theorem Pieces.comp {k l : ℕ} {f g : Encoder → Encoder} (hg : Pieces l g) (hf : Pieces k f) :
    Pieces (k + l) fun e => g (f e) := by
  intro e
  have h := hf e
  have h' := hg (f e)
  dsimp only
  rw [Nat.add_mul]
  omega

theorem Pieces.mono {k l : ℕ} {f : Encoder → Encoder} (hf : Pieces k f) (h : k ≤ l) : Pieces l f := fun e =>
  (hf e).trans (Nat.add_le_add_left (Nat.mul_le_mul_right _ h) _)

theorem Pieces.foldl {A : Type} {k : ℕ} {write : Encoder → A → Encoder} {l : List A}
    (h : ∀ a ∈ l, Pieces k fun e => write e a) : Pieces (l.length * k) fun e => l.foldl write e := by
  induction l with
  | nil => exact fun e => Nat.le_add_right ..
  | cons a l ih =>
    refine ((ih fun b hb => h b (by simp [hb])).comp (h a (by simp))).mono ?_
    rw [List.length_cons, Nat.add_mul]
    omega

/-- The names of an instance are short. -/
def Instance.Short (i : Instance) : Prop := (utf8 i.incarnation).length ≤ 2 ^ 20

structure EvidenceSet.Short (v : EvidenceSet) : Prop where
  certificate : v.certificate.length ≤ 2 ^ 20
  permit : v.permit.length ≤ 2 ^ 20
  policy : v.policy.length ≤ 2 ^ 20
  admission : ∀ a ∈ v.admission, a.length ≤ 2 ^ 20

structure Candidate.Short (c : Candidate) : Prop where
  inst : c.inst.Short
  operation : c.operation.encoding.length ≤ 2 ^ 20
  evidence : c.evidence.Short

structure Facts.Short (f : Facts) : Prop where
  inst : f.certificate.inst.Short
  names : ∀ s ∈ [f.certificate.canonicalOrigin, f.certificate.epoch, f.certificate.displayName], (utf8 s).length ≤ 2 ^ 20
  requester : (utf8 f.certificate.requester).length ≤ 2 ^ 20
  canonical : f.certificate.canonical.length ≤ 2 ^ 20

structure Descriptor.Short (d : Descriptor) : Prop where
  inst : d.inst.Short
  canonical : d.canonical.length ≤ 2 ^ 20
  names : ∀ s ∈ [d.resource, d.share, d.gladeId, d.engine, d.payloadProfile, d.admissionProfile, d.authorizationProfile],
    (utf8 s).length ≤ 2 ^ 20
  key : d.key.length ≤ 2 ^ 20

structure Query.Short (q : Query) : Prop where
  inst : q.inst.Short
  descriptor : q.descriptor.Short
  operation : q.operation.encoding.length ≤ 2 ^ 20
  evidence : q.evidence.Short
  facts : ∀ f ∈ q.verifiedFacts, f.Short

structure StagedAcceptance.Short (a : StagedAcceptance) : Prop where
  candidate : a.candidate.Short
  facts : a.facts.Short
  verify : a.verifiedQuery.Short
  sealing : ∀ q ∈ a.sealQuery, q.Short
  admission : a.sealedAdmission.length ≤ 2 ^ 20
  inst : a.receipt.inst.Short

namespace Encoder

theorem pieces_n (v : ℕ) : Pieces 1 fun e => e.n v := by
  intro e
  have h : (groups 9 (v % 2 ^ 64)).length ≤ 10 := (length_groups 9 _).2
  simp only [n, List.length_append, piece]
  omega

theorem pieces_blob {bytes : Bytes} (h : bytes.length ≤ 2 ^ 20) : Pieces 1 fun e => e.blob bytes := by
  intro e
  have hgroups : ∀ v, (groups 9 (v % 2 ^ 64)).length ≤ 10 := fun v => (length_groups 9 _).2
  dsimp only [blob]
  cases e.blobs.findIdx? (fun old => old = bytes) with
  | some i => exact pieces_n _ e
  | none =>
    have h₁ := hgroups 0
    have h₂ := hgroups bytes.length
    simp only [n, List.length_append, piece]
    omega

theorem pieces_digest (d : Bytes32) : Pieces 1 fun e => e.blob d := pieces_blob (by rw [d.property]; norm_num)

theorem pieces_b (v : Bool) : Pieces 1 fun e => e.b v := pieces_n _

theorem pieces_text {s : String} (h : (utf8 s).length ≤ 2 ^ 20) : Pieces 1 fun e => e.text s := pieces_blob h

theorem pieces_option {A : Type} {k : ℕ} {write : Encoder → A → Encoder} {o : Option A}
    (h : ∀ a ∈ o, Pieces k fun e => write e a) : Pieces (k + 1) fun e => option write e o := by
  cases o with
  | none => exact (pieces_b false).mono (Nat.le_add_left ..)
  | some a => exact ((h a rfl).comp (pieces_b true)).mono (Nat.add_comm ..).le

theorem pieces_instanceId {i : Instance} (h : i.Short) : Pieces 2 fun e => e.instanceId i :=
  (pieces_text h).comp (pieces_digest _)

theorem pieces_time (t : TimeInterval) : Pieces 2 fun e => e.time t := (pieces_n _).comp (pieces_n _)

theorem pieces_mode (m : Mode) : Pieces 4 fun e => e.mode m := by
  cases m with
  | localWrite policy t => exact (pieces_time t).comp ((pieces_digest _).comp (pieces_n 0))
  | historical => exact (pieces_n 1).mono (by norm_num)
  | admissionSeal => exact (pieces_n 2).mono (by norm_num)

theorem pieces_descriptor {d : Descriptor} (h : d.Short) : Pieces 21 fun e => e.descriptor d := by
  have hnames : Pieces 7 fun e => [d.resource, d.share, d.gladeId, d.engine, d.payloadProfile, d.admissionProfile,
      d.authorizationProfile].foldl text e := (Pieces.foldl (k := 1) fun s hs => pieces_text (h.names s hs)).mono (by simp)
  have hbounds : Pieces 8 fun e => [d.bounds.maxOperationBytes, d.bounds.maxOrigins, d.bounds.maxRefs, d.bounds.editBytes,
      d.bounds.recoveryBytes, d.bounds.evidenceBytes, d.bounds.pendingBytes, d.bounds.pendingItems].foldl n e :=
    (Pieces.foldl (k := 1) fun v _ => pieces_n v).mono (by simp)
  obtain ⟨mode, hmode⟩ : ∃ mode, ∀ e : Encoder, e.descriptor d = [d.bounds.maxOperationBytes, d.bounds.maxOrigins,
      d.bounds.maxRefs, d.bounds.editBytes, d.bounds.recoveryBytes, d.bounds.evidenceBytes, d.bounds.pendingBytes,
      d.bounds.pendingItems].foldl n (n (([d.resource, d.share, d.gladeId, d.engine, d.payloadProfile, d.admissionProfile,
        d.authorizationProfile].foldl text (((e.instanceId d.inst).blob d.canonical).blob d.creationRoot)).blob d.key) mode) := by
    refine ⟨(d.mode.casesOn 0 1 2 : ℕ), fun e => ?_⟩
    unfold descriptor
    cases d.mode <;> rfl
  rw [funext hmode]
  have h := hbounds.comp ((pieces_n mode).comp ((pieces_blob h.key).comp (hnames.comp ((pieces_digest d.creationRoot).comp
    ((pieces_blob h.canonical).comp (pieces_instanceId h.inst))))))
  exact h.mono (by norm_num)

theorem pieces_evidence {v : EvidenceSet} (h : v.Short) : Pieces 5 fun e => e.evidence v :=
  (pieces_option fun a ha => pieces_blob (h.admission a ha)).comp ((pieces_blob h.policy).comp
    ((pieces_blob h.permit).comp (pieces_blob h.certificate)))

theorem pieces_candidate {c : Candidate} (h : c.Short) : Pieces 8 fun e => e.candidate c :=
  (pieces_evidence h.evidence).comp ((pieces_blob h.operation).comp (pieces_instanceId h.inst))

theorem pieces_facts {f : Facts} (h : f.Short) : Pieces 22 fun e => e.facts f := by
  have hnames : Pieces 3 fun e => [f.certificate.canonicalOrigin, f.certificate.epoch, f.certificate.displayName].foldl text e :=
    (Pieces.foldl (k := 1) fun s hs => pieces_text (h.names s hs)).mono (by simp)
  have hvalid : Pieces 4 fun e => [f.descriptorValid, f.payloadValid, f.signaturesValid, f.issuanceUnique].foldl b e :=
    (Pieces.foldl (k := 1) fun v _ => pieces_b v).mono (by simp)
  have hallowed : Pieces 3 fun e => [f.currentAllowed, f.historicalAdmitterAuthorized, f.historicalPolicyAllowed].foldl b e :=
    (Pieces.foldl (k := 1) fun v _ => pieces_b v).mono (by simp)
  have hwindow : Pieces 2 fun e => e.window f.permitWindow := (pieces_n _).comp (pieces_n _)
  have htime : Pieces 3 fun e => option time e f.historicalTime := pieces_option fun t _ => pieces_time t
  have h := htime.comp (hallowed.comp ((pieces_n (asU64 f.permitLastSeq)).comp ((pieces_n (asU64 f.permitFirstSeq)).comp
    (hwindow.comp (hvalid.comp ((pieces_blob h.canonical).comp ((pieces_text h.requester).comp
    ((pieces_digest f.certificate.writerKey).comp (hnames.comp (pieces_instanceId h.inst))))))))))
  exact h.mono (by norm_num)

theorem pieces_query {q : Query} (h : q.Short) : Pieces 62 fun e => e.query q := by
  have hunder : Pieces 5 fun e => option mode e q.validatedUnder := pieces_option fun m _ => pieces_mode m
  have hfacts : Pieces 23 fun e => option facts e q.verifiedFacts := pieces_option fun f hf => pieces_facts (h.facts f hf)
  have h := hunder.comp (hfacts.comp ((pieces_mode q.mode).comp ((pieces_evidence h.evidence).comp
    ((pieces_blob h.operation).comp ((pieces_descriptor h.descriptor).comp ((pieces_instanceId h.inst).comp
    (pieces_n q.id)))))))
  exact h.mono (by norm_num)

theorem pieces_storage (s : StorageClass) : Pieces 1 fun e => e.storage s := by cases s <;> exact pieces_n _

theorem pieces_receipt {r : Receipt} (h : r.inst.Short) : Pieces 6 fun e => e.receipt r :=
  (pieces_storage _).comp ((pieces_digest _).comp ((pieces_digest _).comp ((pieces_digest _).comp (pieces_instanceId h))))

theorem pieces_acceptance {a : StagedAcceptance} (h : a.Short) : Pieces 162 fun e => e.acceptance a := by
  have hsealing : Pieces 63 fun e => option query e a.sealQuery := pieces_option fun q hq => pieces_query (h.sealing q hq)
  have h := (pieces_receipt h.inst).comp ((pieces_blob h.admission).comp (hsealing.comp ((pieces_query h.verify).comp
    ((pieces_facts h.facts).comp (pieces_candidate h.candidate)))))
  exact h.mono (by norm_num)

end Encoder

/-- A plan of short records, few of each kind. -/
structure CommitPlan.Short (p : CommitPlan) : Prop where
  inst : p.inst.Short
  records : p.records.length ≤ 1 ∧ ∀ c ∈ p.records, c.Short
  acceptances : p.acceptances.length ≤ 1 ∧ ∀ a ∈ p.acceptances, a.Short
  forks : p.qualifiedForks.length ≤ 100 ∧ ∀ f ∈ p.qualifiedForks, f.first.Short ∧ f.second.Short

/-- A short plan is stored in few bytes. -/
theorem baseLength_le {s : State} {d : Descriptor} {p : CommitPlan} (hd : d.Short) (hp : p.Short) :
    baseLength s d p ≤ 2 ^ 31 := by
  have hhead : (encodeHead s d p).out.length ≤ 18 + 40 * piece := by
    have hlocal : Pieces 5 fun e => Encoder.option Encoder.localCut e p.localPrecondition :=
      (Encoder.pieces_option fun c _ => (Encoder.pieces_time _).comp (Encoder.pieces_digest _)).mono (by norm_num)
    have howner : Pieces 3 fun e => Encoder.option Encoder.owner e s.storageOwner :=
      Encoder.pieces_option fun o _ => (Encoder.pieces_n _).comp (Encoder.pieces_digest _)
    have hstorage : Pieces 2 fun e => Encoder.option Encoder.storage e (s.instances[p.inst]?.map fun v => v.storage) :=
      Encoder.pieces_option fun v _ => Encoder.pieces_storage v
    have h := hlocal.comp ((Encoder.pieces_n (match p.kind with
      | .acceptedBatch => 0
      | .candidate => 1
      | .securityEvidence => 2
      | .qualifiedFork => 3)).comp ((Encoder.pieces_n p.expectedRevision).comp
      ((Encoder.pieces_instanceId hp.inst).comp ((Encoder.pieces_n p.id).comp ((Encoder.pieces_descriptor hd).comp
      (howner.comp (hstorage.comp ((Encoder.pieces_n s.nextEffectId).comp ((Encoder.pieces_digest s.invocationNamespace).comp
      (Encoder.pieces_digest s.planNamespace))))))))))
    exact (h.mono (by norm_num) { out := utf8 "glade.crdt.batch" ++ [0, 1], blobs := [] }).trans
      (Nat.add_le_add_right (by decide) _)
  have hrecords : Pieces (1 + 8 + 1 + 162 + 1 + 100 * 16) (encodeRecords p) := by
    have hfork : Pieces (100 * 16) fun e => p.qualifiedForks.foldl (fun e f => (e.candidate f.first).candidate f.second) e :=
      (Pieces.foldl fun f hf => (Encoder.pieces_candidate (hp.forks.2 f hf).2).comp
        (Encoder.pieces_candidate (hp.forks.2 f hf).1)).mono (Nat.mul_le_mul_right _ hp.forks.1)
    have haccept : Pieces 162 fun e => p.acceptances.foldl Encoder.acceptance e :=
      (Pieces.foldl fun a ha => Encoder.pieces_acceptance (hp.acceptances.2 a ha)).mono
        ((Nat.mul_le_mul_right _ hp.acceptances.1).trans (by norm_num))
    have hrecord : Pieces 8 fun e => p.records.foldl Encoder.candidate e :=
      (Pieces.foldl fun c hc => Encoder.pieces_candidate (hp.records.2 c hc)).mono
        ((Nat.mul_le_mul_right _ hp.records.1).trans (by norm_num))
    have h := hfork.comp ((Encoder.pieces_n p.qualifiedForks.length).comp (haccept.comp
      ((Encoder.pieces_n p.acceptances.length).comp (hrecord.comp (Encoder.pieces_n p.records.length)))))
    exact h.mono (by norm_num)
  have hrest := hrecords { encodeHead s d p with out := [] }
  rw [List.length_nil, Nat.zero_add] at hrest
  rw [baseLength]
  have hpiece : piece = 1048596 := by norm_num [piece]
  rw [hpiece] at hhead hrest
  omega

end Glade.Kernel
