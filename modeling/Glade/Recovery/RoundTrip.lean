import Glade.Recovery.Scans
import Glade.Recovery.Batch
import Glade.Kernel.Encoding

/-! The batch decoder undoes the kernel's encoder. They meet where what the one has
written and what the other has left are the whole, and they know the same blobs. -/

/-! ### The source's ranges -/

namespace Glade.Kernel

open Wire

def TimeInterval.InRange (t : TimeInterval) : Prop := t.earliestMs < 2 ^ 64 ∧ t.latestMs < 2 ^ 64

def Window.InRange (w : Window) : Prop := w.notBeforeMs < 2 ^ 64 ∧ w.notAfterMs < 2 ^ 64

def Mode.InRange : Mode → Prop
  | .localWrite _ time => time.InRange
  | .historical => True
  | .admissionSeal => True

structure Bounds.InRange (b : Bounds) : Prop where
  maxOperationBytes : b.maxOperationBytes < 2 ^ 64
  maxOrigins : b.maxOrigins < 2 ^ 64
  maxRefs : b.maxRefs < 2 ^ 64
  editBytes : b.editBytes < 2 ^ 64
  recoveryBytes : b.recoveryBytes < 2 ^ 64
  evidenceBytes : b.evidenceBytes < 2 ^ 64
  pendingBytes : b.pendingBytes < 2 ^ 64
  pendingItems : b.pendingItems < 2 ^ 64

structure Facts.InRange (f : Facts) : Prop where
  permitWindow : f.permitWindow.InRange
  permitFirstSeq : IsI64 f.permitFirstSeq
  permitLastSeq : IsI64 f.permitLastSeq
  historicalTime : ∀ t ∈ f.historicalTime, t.InRange

structure Query.InRange (q : Query) : Prop where
  id : q.id < 2 ^ 64
  bounds : q.descriptor.bounds.InRange
  mode : q.mode.InRange
  verifiedFacts : ∀ f ∈ q.verifiedFacts, f.InRange
  validatedUnder : ∀ m ∈ q.validatedUnder, m.InRange

structure StagedAcceptance.InRange (a : StagedAcceptance) : Prop where
  facts : a.facts.InRange
  verifiedQuery : a.verifiedQuery.InRange
  sealQuery : ∀ q ∈ a.sealQuery, q.InRange

structure Charges.InRange (c : Charges) : Prop where
  edit : c.edit < 2 ^ 64
  recovery : c.recovery < 2 ^ 64
  evidence : c.evidence < 2 ^ 64
  pending : c.pending < 2 ^ 64

structure CommitPlan.InRange (p : CommitPlan) : Prop where
  id : p.id < 2 ^ 64
  expectedRevision : p.expectedRevision < 2 ^ 64
  localPrecondition : ∀ c ∈ p.localPrecondition, c.time.InRange
  charges : p.charges.InRange
  records : p.records.length < 2 ^ 64
  acceptances : p.acceptances.length < 2 ^ 64 ∧ ∀ a ∈ p.acceptances, a.InRange
  qualifiedForks : p.qualifiedForks.length < 2 ^ 64

end Glade.Kernel

namespace Glade.Recovery

structure DecodedBatch.InRange (d : DecodedBatch) : Prop where
  nextEffectId : d.nextEffectId < 2 ^ 64
  owner : ∀ o ∈ d.owner, o.generation < 2 ^ 64
  bounds : d.descriptor.bounds.InRange
  plan : d.plan.InRange

end Glade.Recovery

namespace Glade.Recovery.Batch

open Wire Kernel Codecs

section Codecs

variable {bytes : Bytes}

/-- What is left of the bytes. -/
def Cursor.rest (c : Cursor bytes) : Bytes := bytes.drop c.index

structure Meets (limits : DecodeLimits) (c : Cursor bytes) (e : Encoder) (t : Bytes) : Prop where
  blobs : e.blobs = c.blobs
  whole : t = e.out ++ c.rest
  short : t.length < 2 ^ 64
  nodup : c.blobs.Nodup
  few : c.blobs.length ≤ limits.items

variable (bytes) in
def sync (limits : DecodeLimits) : Sync (Cursor bytes) Encoder Bytes Error where
  meets := Meets limits
  begins e t := e.out <+: t
  full := .capacity
  fault := .panicked

variable {limits : DecodeLimits} {sizes : Sizes}

/-! ### What a step of the cursor does -/

/-- A cursor that has passed over `n` bytes. -/
def Cursor.Past (c c' : Cursor bytes) (n : ℕ) : Prop := c'.index = c.index + n ∧ c'.blobs = c.blobs

theorem Cursor.Past.rest {c c' : Cursor bytes} {n : ℕ} (h : c.Past c' n) : c'.rest = c.rest.drop n := by
  rw [Cursor.rest, Cursor.rest, List.drop_drop, h.1]

theorem take_run (n : ℕ) (c : Cursor bytes) : (take n).run c = .error .capacity ∨
    (c.rest.length < n ∧ (take n).run c = .error .invalid) ∨
      ∃ c', n ≤ c.rest.length ∧ (take n).run c = .ok (c.rest.take n, c') ∧ c.Past c' n := by
  change take n c = _ ∨ (_ ∧ take n c = _) ∨ ∃ c', _ ∧ take n c = _ ∧ _
  have hlen : c.rest.length = bytes.length - c.index := List.length_drop
  have hwithin := c.within
  unfold take
  split_ifs with hlt hle
  · exact .inr (.inr ⟨_, by omega, rfl, rfl, rfl⟩)
  · exact .inr (.inl ⟨by omega, rfl⟩)
  · exact .inl rfl

theorem byte_run (c : Cursor bytes) : byte.run c = .error .capacity ∨ (c.rest = [] ∧ byte.run c = .error .invalid) ∨
    ∃ b rest c', c.rest = b :: rest ∧ byte.run c = .ok (b, c') ∧ c.Past c' 1 := by
  unfold byte
  rcases take_run 1 c with hfull | ⟨hlt, hrun⟩ | ⟨c', hle, hrun, hpast⟩
  · exact .inl (run_bind_error hfull)
  · exact .inr (.inl ⟨List.length_eq_zero_iff.mp (by omega), run_bind_error hrun⟩)
  · cases hrest : c.rest with
    | nil =>
      rw [hrest] at hle
      cases hle
    | cons b rest =>
      rw [hrest] at hrun
      exact .inr (.inr ⟨b, rest, c', rfl, run_bind_ok hrun, hpast⟩)

theorem Meets.past {c c' : Cursor bytes} {e : Encoder} {t b rest : Bytes} (h : Meets limits c e t) (hrest : c.rest = b ++ rest)
    (hpast : c.Past c' b.length) : Meets limits c' { e with out := e.out ++ b } t where
  blobs := h.blobs.trans hpast.2.symm
  whole := by
    rw [hpast.rest, hrest, List.drop_left, List.append_assoc, ← hrest]
    exact h.whole
  short := h.short
  nodup := hpast.2 ▸ h.nodup
  few := hpast.2 ▸ h.few

/-- What is written next is what is left first. -/
theorem Meets.next {c : Cursor bytes} {e : Encoder} {t b : Bytes} (h : Meets limits c e t) (hbegins : e.out ++ b <+: t) :
    ∃ rest, c.rest = b ++ rest := by
  obtain ⟨rest, hrest⟩ := hbegins
  rw [h.whole, List.append_assoc] at hrest
  exact ⟨rest, (List.append_cancel_left hrest).symm⟩

/-! ### Budgets -/

/-- A reader that passes over nothing, unless it is full. -/
def Budget (g : Read bytes Unit) : Prop :=
  ∀ c, g.run c = .error .capacity ∨ ∃ c', g.run c = .ok ((), c') ∧ c.Past c' 0

theorem Budget.codec {g : Read bytes Unit} (hg : Budget g) : Codec (sync bytes limits) g (fun e _ => e) (fun _ => True) where
  begins _ h := h
  reads {c e t a} hmeets _ _ := by
    rcases hg c with hfull | ⟨c', hrun, hpast⟩
    · exact .inl hfull
    · have hmeets' := hmeets.past (b := []) rfl hpast
      rw [List.append_nil] at hmeets'
      exact .inr ⟨c', hrun, hmeets'⟩
  writes {c e t a c'} hmeets h := by
    rcases hg c with hfull | ⟨c'', hrun, hpast⟩
    · rw [hfull] at h
      cases h
    · rw [hrun] at h
      obtain ⟨-, rfl⟩ := Prod.mk.inj (Except.ok.inj h)
      have hmeets' := hmeets.past (b := []) rfl hpast
      rw [List.append_nil] at hmeets'
      exact ⟨trivial, hmeets'⟩
  safe {c} h := by
    rcases hg c with hfull | ⟨c', hrun, -⟩
    · rw [hfull] at h
      cases h
    · rw [hrun] at h
      cases h

theorem charge_budget (n : ℕ) : Budget (charge limits n : Read bytes Unit) := by
  intro c
  change charge limits n c = _ ∨ ∃ c', charge limits n c = _ ∧ _
  unfold charge
  split_ifs
  · exact .inl rfl
  · exact .inr ⟨_, rfl, rfl, rfl⟩
  · exact .inl rfl

theorem item_budget : Budget (item limits : Read bytes Unit) := by
  intro c
  change item limits c = _ ∨ ∃ c', item limits c = _ ∧ _
  unfold item
  split_ifs
  · exact .inl rfl
  · exact .inr ⟨_, rfl, rfl, rfl⟩
  · exact .inl rfl

theorem room_budget (n : ℕ) : Budget (room limits n : Read bytes Unit) := by
  intro c
  change room limits n c = _ ∨ ∃ c', room limits n c = _ ∧ _
  unfold room
  split_ifs
  · exact .inl rfl
  · exact .inr ⟨c, rfl, rfl, rfl⟩

theorem preflight_budget (op : Op) : Budget (preflight limits op.encoding : Read bytes Unit) := by
  intro c
  change preflight limits op.encoding c = _ ∨ ∃ c', preflight limits op.encoding c = _ ∧ _
  unfold preflight
  rcases Bounds.scan_encoding limits c.items op 0 with hfull | ⟨items, hscan⟩
  · rw [hfull]
    exact .inl rfl
  · rw [hscan]
    exact .inr ⟨_, rfl, rfl, rfl⟩

/-! ### Numbers -/

theorem or_shiftLeft {acc k v : ℕ} (h : acc < 2 ^ k) : acc ||| v <<< k = acc + v * 2 ^ k := by
  rw [Nat.or_comm, ← Nat.shiftLeft_add_eq_or_of_lt h, Nat.shiftLeft_eq, Nat.add_comm]

/-- The reader of a number's groups from one on answers what they are the groups of. -/
theorem number_reads (more : ℕ) : ∀ {acc v : ℕ} {c : Cursor bytes} {rest : Bytes}, more ≤ 9 → acc < 2 ^ ((9 - more) * 7) →
    v < 2 ^ (more * 7 + 1) → (more < 9 → v ≠ 0) → c.rest = groups more v ++ rest →
    (number (more + 1) acc).run c = .error .capacity ∨
      ∃ c', (number (more + 1) acc).run c = .ok (acc + v * 2 ^ ((9 - more) * 7), c') ∧ c.Past c' (groups more v).length := by
  induction more with
  | zero =>
    intro acc v c rest _ hacc hv hne hrest
    rw [groups] at hrest
    unfold number
    rcases byte_run c with hfull | ⟨hnil, -⟩ | ⟨b, rest', c', heq, hrun, hpast⟩
    · exact .inl (run_bind_error hfull)
    · rw [hnil] at hrest
      cases hrest
    · rw [run_bind_ok hrun]
      rw [heq] at hrest
      obtain ⟨rfl, -⟩ := List.cons.inj hrest
      have hb : (UInt8.ofNat v).toNat = v := by
        rw [UInt8.toNat_ofNat']
        omega
      have hzero : UInt8.ofNat v ≠ 0 := by
        intro h
        rw [h] at hb
        exact hne (by omega) hb.symm
      rw [hb, if_neg (by omega), if_pos (by omega), if_neg (by simp [hzero]), or_shiftLeft hacc]
      refine .inr ⟨c', ?_, hpast⟩
      rw [Nat.mod_eq_of_lt (by omega)]
      rfl
  | succ more ih =>
    intro acc v c rest hle hacc hv hne hrest
    rw [groups] at hrest ⊢
    unfold number
    rcases byte_run c with hfull | ⟨hnil, -⟩ | ⟨b, rest', c', heq, hrun, hpast⟩
    · exact .inl (run_bind_error hfull)
    · rw [hnil] at hrest
      split_ifs at hrest <;> cases hrest
    · rw [run_bind_ok hrun]
      rw [heq] at hrest
      by_cases hlarge : 128 ≤ v
      · rw [if_pos hlarge] at hrest ⊢
        rw [List.cons_append] at hrest
        obtain ⟨rfl, htail⟩ := List.cons.inj hrest
        have hb : (UInt8.ofNat (v % 128 + 128)).toNat = v % 128 + 128 := by
          rw [UInt8.toNat_ofNat']
          omega
        have hindex : (9 - more) * 7 = (9 - (more + 1)) * 7 + 7 := by omega
        have hmod : (v % 128 + 128) % 128 = v % 128 := by omega
        rw [hb, if_neg (by omega), if_neg (by omega), hmod, or_shiftLeft hacc]
        have hacc' : acc + v % 128 * 2 ^ ((9 - (more + 1)) * 7) < 2 ^ ((9 - more) * 7) := by
          rw [hindex, Nat.pow_add]
          have : v % 128 < 128 := Nat.mod_lt _ (by omega)
          have h := Nat.mul_le_mul_right (2 ^ ((9 - (more + 1)) * 7)) (Nat.le_of_lt_succ this)
          omega
        have hv' : v / 128 < 2 ^ (more * 7 + 1) := by
          rw [Nat.div_lt_iff_lt_mul (by omega)]
          have : (more + 1) * 7 + 1 = more * 7 + 1 + 7 := by omega
          rw [this, Nat.pow_add] at hv
          exact hv
        have hpast' := hpast.rest
        rw [heq, List.drop_one, List.tail_cons] at hpast'
        rcases ih (by omega) hacc' hv' (fun _ => by omega) (hpast'.trans htail) with hfull | ⟨c'', hrun', hpast''⟩
        · exact .inl hfull
        · refine .inr ⟨c'', ?_, ?_⟩
          · rw [hrun']
            congr 2
            rw [hindex, Nat.pow_add, Nat.add_assoc]
            congr 1
            have := Nat.div_add_mod v 128
            calc v % 128 * 2 ^ ((9 - (more + 1)) * 7) + v / 128 * (2 ^ ((9 - (more + 1)) * 7) * 2 ^ 7)
                = (128 * (v / 128) + v % 128) * 2 ^ ((9 - (more + 1)) * 7) := by ring
              _ = v * 2 ^ ((9 - (more + 1)) * 7) := by rw [this]
          · refine ⟨?_, hpast''.2.trans hpast.2⟩
            rw [hpast''.1, hpast.1, List.length_cons]
            omega
      · rw [if_neg hlarge] at hrest ⊢
        obtain ⟨rfl, -⟩ := List.cons.inj hrest
        have hb : (UInt8.ofNat v).toNat = v := by
          rw [UInt8.toNat_ofNat']
          omega
        have hzero : 0 < 9 - (more + 1) → UInt8.ofNat v ≠ 0 := by
          intro hpos h
          rw [h] at hb
          exact hne (by omega) hb.symm
        rw [hb, if_neg (by omega), if_pos (by omega), if_neg (fun h => hzero h.1 h.2), or_shiftLeft hacc]
        refine .inr ⟨c', ?_, hpast⟩
        rw [Nat.mod_eq_of_lt (by omega)]
        rfl

/-- What is answered is read from its own groups. -/
theorem number_writes (more : ℕ) : ∀ {acc r : ℕ} {c c' : Cursor bytes}, more ≤ 9 → acc < 2 ^ ((9 - more) * 7) →
    (number (more + 1) acc).run c = .ok (r, c') → ∃ v rest, r = acc + v * 2 ^ ((9 - more) * 7) ∧ v < 2 ^ (more * 7 + 1) ∧
      (more < 9 → v ≠ 0) ∧ c.rest = groups more v ++ rest ∧ c.Past c' (groups more v).length := by
  have hself : ∀ b : UInt8, UInt8.ofNat b.toNat = b := fun b => UInt8.ofNat_toNat
  induction more with
  | zero =>
    intro acc r c c' _ hacc h
    unfold number at h
    rcases byte_run c with hfull | ⟨-, hrun⟩ | ⟨b, rest, c₁, heq, hrun, hpast⟩
    · rw [run_bind_error hfull] at h
      cases h
    · rw [run_bind_error hrun] at h
      cases h
    · rw [run_bind_ok hrun] at h
      dsimp only at h
      split_ifs at h with hbig hsmall hzero
      · cases h
      · cases h
      · obtain ⟨rfl, rfl⟩ := Prod.mk.inj (Except.ok.inj h)
        have hb : b.toNat ≤ 1 := by omega
        have hne : b.toNat ≠ 0 := by
          intro h0
          apply hzero
          refine ⟨by omega, ?_⟩
          rw [← hself b, h0]
          rfl
        refine ⟨b.toNat, rest, ?_, by omega, fun _ => hne, ?_, hpast⟩
        · rw [or_shiftLeft hacc, Nat.mod_eq_of_lt (by omega)]
        · rw [groups, hself]
          exact heq
      · omega
  | succ more ih =>
    intro acc r c c' hle hacc h
    unfold number at h
    rcases byte_run c with hfull | ⟨-, hrun⟩ | ⟨b, rest, c₁, heq, hrun, hpast⟩
    · rw [run_bind_error hfull] at h
      cases h
    · rw [run_bind_error hrun] at h
      cases h
    · rw [run_bind_ok hrun] at h
      dsimp only at h
      have hindex : (9 - more) * 7 = (9 - (more + 1)) * 7 + 7 := by omega
      have hpow : (128 : ℕ) ≤ 2 ^ ((more + 1) * 7 + 1) :=
        (show 128 = 2 ^ 7 from rfl) ▸ Nat.pow_le_pow_right (by omega) (by omega)
      split_ifs at h with hbig hsmall hzero
      · omega
      · cases h
      · obtain ⟨rfl, rfl⟩ := Prod.mk.inj (Except.ok.inj h)
        refine ⟨b.toNat, rest, ?_, by omega, ?_, ?_, ?_⟩
        · rw [or_shiftLeft hacc, Nat.mod_eq_of_lt hsmall]
        · intro hlt h0
          apply hzero
          refine ⟨by omega, ?_⟩
          rw [← hself b, h0]
          rfl
        · rw [groups, if_neg (by omega), hself]
          exact heq
        · rw [groups, if_neg (by omega)]
          exact hpast
      · rw [or_shiftLeft hacc] at h
        have hacc' : acc + b.toNat % 128 * 2 ^ ((9 - (more + 1)) * 7) < 2 ^ ((9 - more) * 7) := by
          rw [hindex, Nat.pow_add]
          have : b.toNat % 128 < 128 := Nat.mod_lt _ (by omega)
          have h := Nat.mul_le_mul_right (2 ^ ((9 - (more + 1)) * 7)) (Nat.le_of_lt_succ this)
          omega
        obtain ⟨v, rest', rfl, hv, hne, hrest, hpast'⟩ := ih (by omega) hacc' h
        have hvne : v ≠ 0 := hne (by omega)
        have hb := b.toNat_lt
        have hdiv : (v * 128 + b.toNat % 128) / 128 = v := by omega
        have hmod : (v * 128 + b.toNat % 128) % 128 = b.toNat % 128 := by omega
        have hgroups : groups (more + 1) (v * 128 + b.toNat % 128) = b :: groups more v := by
          have hbyte : b.toNat % 128 + 128 = b.toNat := by omega
          rw [groups, if_pos (by omega), hdiv, hmod, hbyte, hself]
        refine ⟨v * 128 + b.toNat % 128, rest', ?_, ?_, fun _ => by omega, ?_, ?_⟩
        · rw [hindex, Nat.pow_add]
          ring
        · have : (more + 1) * 7 + 1 = more * 7 + 1 + 7 := by omega
          rw [this, Nat.pow_add]
          omega
        · rw [hgroups, heq]
          have hpast₁ := hpast.rest
          rw [heq, List.drop_one, List.tail_cons] at hpast₁
          rw [← hpast₁, hrest, List.cons_append]
        · rw [hgroups]
          refine ⟨?_, hpast'.2.trans hpast.2⟩
          rw [hpast'.1, hpast.1, List.length_cons]
          omega

theorem number_safe (left : ℕ) : ∀ {acc : ℕ} {c : Cursor bytes}, (number left acc).run c ≠ .error .panicked := by
  induction left with
  | zero =>
    intro acc c h
    cases h
  | succ left ih =>
    intro acc c h
    unfold number at h
    rcases byte_run c with hfull | ⟨-, hrun⟩ | ⟨b, rest, c₁, heq, hrun, hpast⟩
    · rw [run_bind_error hfull] at h
      cases h
    · rw [run_bind_error hrun] at h
      cases h
    · rw [run_bind_ok hrun] at h
      dsimp only at h
      split_ifs at h
      · cases h
      · cases h
      · cases h
      · exact ih h

theorem number_codec : Codec (sync bytes limits) (number 10 0) Encoder.n (· < 2 ^ 64) where
  begins _ h := (List.prefix_append _ _).trans h
  reads {c e t v} hmeets hv hbegins := by
    obtain ⟨rest, hrest⟩ := hmeets.next hbegins
    rw [Nat.mod_eq_of_lt hv] at hrest
    rcases number_reads 9 le_rfl Nat.zero_lt_one hv (fun h => (lt_irrefl _ h).elim) hrest with hfull | ⟨c', hrun, hpast⟩
    · exact .inl hfull
    · refine .inr ⟨c', ?_, ?_⟩
      · rw [hrun]
        simp
      · have hmeets' := hmeets.past hrest hpast
        rw [Encoder.n, Nat.mod_eq_of_lt hv]
        exact hmeets'
  writes {c e t v c'} hmeets hrun := by
    obtain ⟨v', rest, heq, hv, -, hrest, hpast⟩ := number_writes 9 le_rfl Nat.zero_lt_one hrun
    obtain rfl : v = v' := by simpa using heq
    refine ⟨hv, ?_⟩
    rw [Encoder.n, Nat.mod_eq_of_lt hv]
    exact hmeets.past hrest hpast
  safe := number_safe 10

theorem n_codec : Codec (sync bytes limits) (n limits) Encoder.n (· < 2 ^ 64) := item_budget.codec.after number_codec

/-! ### Enumerations -/

/-- Values that a number tells. -/
theorem enum_codec {α : Type} (k : ℕ → Read bytes α) (tag : α → ℕ) (htag : Function.Injective tag) (hlt : ∀ a, tag a < 2 ^ 64)
    (hk : ∀ v, (∃ a, tag a = v ∧ k v = Pure.pure a) ∨ (∀ a, tag a ≠ v) ∧ ∃ e, e ≠ Error.panicked ∧ ∀ c, (k v).run c = .error e) :
    Codec (sync bytes limits) (n limits >>= k) (fun e a => e.n (tag a)) (fun _ => True) :=
  (n_codec.choose k tag htag hk).congr rfl (fun a => iff_of_true trivial (hlt a)) fun _ _ _ => rfl

theorem boolean_codec : Codec (sync bytes limits) (boolean limits) Encoder.b (fun _ => True) := by
  refine enum_codec _ Bool.toNat (by decide) (fun b => by cases b <;> decide) fun v => ?_
  match v with
  | 0 => exact .inl ⟨false, rfl, rfl⟩
  | 1 => exact .inl ⟨true, rfl, rfl⟩
  | v + 2 => exact .inr ⟨(by rintro (_ | _) h <;> cases h), .invalid, by decide, fun _ => rfl⟩

def storageTag : StorageClass → ℕ
  | .volatileTest => 0
  | .localProcessRestart => 1

theorem storage_codec : Codec (sync bytes limits) (storage limits) Encoder.storage (fun _ => True) := by
  refine (enum_codec _ storageTag (by rintro (_ | _) (_ | _) h <;> first | rfl | cases h)
    (by rintro (_ | _) <;> decide) fun v => ?_).congr rfl
    (fun _ => Iff.rfl) (by rintro e (_ | _) _ <;> rfl)
  match v with
  | 0 => exact .inl ⟨.volatileTest, rfl, rfl⟩
  | 1 => exact .inl ⟨.localProcessRestart, rfl, rfl⟩
  | v + 2 => exact .inr ⟨(by rintro (_ | _) h <;> cases h), .invalid, by decide, fun _ => rfl⟩

def modeTag : AdmissionMode → ℕ
  | .independent => 0
  | .legacy => 1
  | .strong => 2

theorem admissionMode_codec :
    Codec (sync bytes limits) (admissionMode limits) (fun e m => e.n (modeTag m)) (fun _ => True) := by
  refine enum_codec _ modeTag (by rintro (_ | _) (_ | _) h <;> first | rfl | cases h) (by rintro (_ | _) <;> decide) fun v => ?_
  match v with
  | 0 => exact .inl ⟨.independent, rfl, rfl⟩
  | 1 => exact .inl ⟨.legacy, rfl, rfl⟩
  | 2 => exact .inl ⟨.strong, rfl, rfl⟩
  | v + 3 => exact .inr ⟨(by rintro (_ | _) h <;> cases h), .invalid, by decide, fun _ => rfl⟩

def kindTag : CommitKind → ℕ
  | .acceptedBatch => 0
  | .candidate => 1
  | .securityEvidence => 2
  | .qualifiedFork => 3

theorem kind_codec : Codec (sync bytes limits) (kind limits) (fun e k => e.n (kindTag k)) (fun _ => True) := by
  refine enum_codec _ kindTag (by rintro (_ | _) (_ | _) h <;> first | rfl | cases h) (by rintro (_ | _) <;> decide) fun v => ?_
  match v with
  | 0 => exact .inl ⟨.acceptedBatch, rfl, rfl⟩
  | 1 => exact .inl ⟨.candidate, rfl, rfl⟩
  | 2 => exact .inl ⟨.securityEvidence, rfl, rfl⟩
  | 3 => exact .inl ⟨.qualifiedFork, rfl, rfl⟩
  | v + 4 => exact .inr ⟨(by rintro (_ | _) h <;> cases h), .invalid, by decide, fun _ => rfl⟩

/-- An `i64` as the number of the same bits. -/
theorem signed_codec : Codec (sync bytes limits) (signed limits) (fun e v => e.n (Encoder.asU64 v)) IsI64 := by
  have hpure : ∀ v : ℕ, Codec (sync bytes limits) (return if v < 2 ^ 63 then (v : ℤ) else v - 2 ^ 64) (fun e _ => e)
      (fun i => i = if v < 2 ^ 63 then (v : ℤ) else v - 2 ^ 64) := fun v => Codec.pure _
  refine (n_codec.bind hpure Encoder.asU64 ?_).congr rfl ?_ fun _ _ _ => rfl
  · rintro v i hv rfl
    unfold Encoder.asU64
    split_ifs <;> omega
  · intro i
    unfold IsI64 Encoder.asU64
    constructor
    · rintro ⟨hlo, hhi⟩
      refine ⟨by omega, ?_⟩
      split_ifs <;> omega
    · rintro ⟨-, hi⟩
      split_ifs at hi <;> omega

/-! ### Blobs -/

theorem findIdx?_getElem {B : List Bytes} {b : Bytes} {i : ℕ} (h : B.findIdx? (fun old => old = b) = some i) :
    B[i]? = some b := by
  obtain ⟨hlt, hp, -⟩ := List.findIdx?_eq_some_iff_getElem.mp h
  rw [List.getElem?_eq_getElem hlt]
  exact congrArg some (by simpa using hp)

theorem findIdx?_of_getElem {B : List Bytes} (hnodup : B.Nodup) {b : Bytes} {i : ℕ} (h : B[i]? = some b) :
    B.findIdx? (fun old => old = b) = some i := by
  obtain ⟨hlt, rfl⟩ := List.getElem?_eq_some_iff.mp h
  rw [List.findIdx?_eq_some_iff_getElem]
  refine ⟨hlt, by simp, fun j hj => ?_⟩
  have hne : B[j] ≠ B[i] := fun heq => absurd ((hnodup.getElem_inj_iff).mp heq) (Nat.ne_of_lt hj)
  simpa using hne

theorem findIdx?_eq_none {B : List Bytes} {b : Bytes} : B.findIdx? (fun old => old = b) = none ↔ b ∉ B := by
  rw [List.findIdx?_eq_none_iff]
  simp only [decide_eq_false_iff_not]
  exact ⟨fun h hb => h b hb rfl, fun h x hx heq => h (heq ▸ hx)⟩

theorem Meets.push {c : Cursor bytes} {e : Encoder} {t value : Bytes} (h : Meets limits c e t) (hnew : value ∉ c.blobs)
    (hfew : c.blobs.length < limits.items) :
    Meets limits { c with blobs := c.blobs ++ [value] } { e with blobs := e.blobs ++ [value] } t where
  blobs := by
    rw [h.blobs]
  whole := h.whole
  short := h.short
  nodup := by
    rw [List.nodup_append]
    refine ⟨h.nodup, List.nodup_singleton _, ?_⟩
    rintro a ha b hb rfl
    rw [List.mem_singleton.mp hb] at ha
    exact hnew ha
  few := by
    rw [List.length_append]
    exact hfew

theorem blob_eq : (blob limits sizes : Read bytes Bytes) = (do
    let index ← n limits
    let c ← get
    if index ≠ 0 then orInvalid c.blobs[index - 1]? else literal limits sizes c.blobs) := rfl

theorem get_run (c : Cursor bytes) : (get : Read bytes (Cursor bytes)).run c = .ok (c, c) := rfl

theorem literal_reads {c : Cursor bytes} {e : Encoder} {t value : Bytes} (hmeets : Meets limits c e t) (hnew : value ∉ c.blobs)
    (hbegins : (e.n value.length).out ++ value <+: t) :
    (literal limits sizes c.blobs).run c = .error .capacity ∨ ∃ c', (literal limits sizes c.blobs).run c = .ok (value, c') ∧
      Meets limits c' { out := (e.n value.length).out ++ value, blobs := e.blobs ++ [value] } t := by
  unfold literal
  have hshort : value.length < 2 ^ 64 := by
    have := hbegins.length_le
    have := hmeets.short
    rw [List.length_append] at *
    omega
  rcases n_codec.reads hmeets hshort ((List.prefix_append _ _).trans hbegins) with hfull | ⟨c₁, hrun₁, hmeets₁⟩
  · exact .inl (run_bind_error hfull)
  rw [run_bind_ok hrun₁]
  obtain ⟨rest, hrest⟩ := hmeets₁.next hbegins
  rcases take_run value.length c₁ with hfull | ⟨hlt, -⟩ | ⟨c₂, hle, hrun₂, hpast⟩
  · exact .inl (run_bind_error hfull)
  · rw [hrest, List.length_append] at hlt
    omega
  rw [hrest, List.take_left] at hrun₂
  rw [run_bind_ok hrun₂, if_neg hnew]
  have hmeets₂ := hmeets₁.past hrest hpast
  have hblobs : c₂.blobs = c.blobs := hmeets₂.blobs.symm.trans hmeets.blobs
  by_cases hfew : c.blobs.length ≥ limits.items
  · rw [if_pos hfew]
    exact .inl rfl
  rw [if_neg hfew]
  rcases charge_budget sizes.slice c₂ with hfull | ⟨c₃, hrun₃, hpast₃⟩
  · exact .inl (run_bind_error hfull)
  rw [run_bind_ok hrun₃]
  have hmeets₃ := hmeets₂.past (b := []) rfl hpast₃
  rw [List.append_nil] at hmeets₃
  have hblobs₃ : c₃.blobs = c.blobs := hpast₃.2.trans hblobs
  exact .inr ⟨_, rfl, hmeets₃.push (hblobs₃ ▸ hnew) (by rw [hblobs₃]; omega)⟩

theorem literal_writes {c c' : Cursor bytes} {e : Encoder} {t value : Bytes} (hmeets : Meets limits c e t)
    (hrun : (literal limits sizes c.blobs).run c = .ok (value, c')) : value ∉ c.blobs ∧
      Meets limits c' { out := (e.n value.length).out ++ value, blobs := e.blobs ++ [value] } t := by
  unfold literal at hrun
  obtain ⟨size, c₁, hrun₁, hrun⟩ := run_bind_eq_ok hrun
  obtain ⟨hsize, hmeets₁⟩ := n_codec.writes hmeets hrun₁
  obtain ⟨v, c₂, hrun₂, hrun⟩ := run_bind_eq_ok hrun
  rcases take_run size c₁ with hfull | ⟨-, hbad⟩ | ⟨c₂', hle, hrun₂', hpast⟩
  · rw [hfull] at hrun₂
    cases hrun₂
  · rw [hbad] at hrun₂
    cases hrun₂
  rw [hrun₂'] at hrun₂
  obtain ⟨rfl, rfl⟩ := Prod.mk.inj (Except.ok.inj hrun₂)
  split_ifs at hrun with hmem hfew
  · cases hrun
  · cases hrun
  obtain ⟨_, c₃, hrun₃, hrun⟩ := run_bind_eq_ok hrun
  obtain ⟨rfl, rfl⟩ := Prod.mk.inj (Except.ok.inj hrun)
  have hlen : (c₁.rest.take size).length = size := by
    rw [List.length_take]
    omega
  have hmeets₂ := hmeets₁.past (List.take_append_drop size c₁.rest).symm (hlen.symm ▸ hpast)
  obtain ⟨-, hmeets₃⟩ := (charge_budget sizes.slice).codec.writes hmeets₂ hrun₃
  have hblobs : c₃.blobs = c.blobs := hmeets₃.blobs.symm.trans hmeets.blobs
  rw [hlen]
  exact ⟨hmem, hmeets₃.push (hblobs ▸ hmem) (by rw [hblobs]; omega)⟩

theorem literal_safe {c : Cursor bytes} {B : List Bytes} : (literal limits sizes B).run c ≠ .error .panicked := by
  intro h
  unfold literal at h
  cases hrun₁ : (n limits).run c with
  | error ε =>
    rw [run_bind_error hrun₁] at h
    rw [Except.error.inj h] at hrun₁
    exact n_codec.safe hrun₁
  | ok p =>
    obtain ⟨size, c₁⟩ := p
    rw [run_bind_ok hrun₁] at h
    rcases take_run size c₁ with hfull | ⟨-, hbad⟩ | ⟨c₂, -, hrun₂, -⟩
    · rw [run_bind_error hfull] at h
      cases h
    · rw [run_bind_error hbad] at h
      cases h
    rw [run_bind_ok hrun₂] at h
    split_ifs at h with hmem hfew
    · cases h
    · cases h
    rcases charge_budget sizes.slice c₂ with hfull | ⟨c₃, hrun₃, -⟩
    · rw [run_bind_error hfull] at h
      cases h
    · rw [run_bind_ok hrun₃] at h
      cases h

theorem blob_codec : Codec (sync bytes limits) (blob limits sizes) Encoder.blob (fun _ => True) where
  begins {e b t} _ h := by
    change (e.blob b).out <+: t at h
    rw [(Encoder.appends_blob b e).1] at h
    exact (List.prefix_append _ _).trans h
  reads {c e t b} hmeets _ hbegins := by
    rw [blob_eq]
    change (e.blob b).out <+: t at hbegins
    change _ ∨ ∃ c', _ ∧ Meets limits c' (e.blob b) t
    unfold Encoder.blob at hbegins ⊢
    cases hfind : e.blobs.findIdx? (fun old => old = b) with
    | some i =>
      rw [hfind] at hbegins
      dsimp only at hbegins ⊢
      have hget := findIdx?_getElem hfind
      have hlt : i + 1 < 2 ^ 64 := by
        obtain ⟨hi, -⟩ := List.getElem?_eq_some_iff.mp hget
        have := hmeets.few
        have := limits.usize.2
        rw [hmeets.blobs] at hi
        omega
      rcases n_codec.reads hmeets hlt hbegins with hfull | ⟨c₁, hrun₁, hmeets₁⟩
      · exact .inl (run_bind_error hfull)
      · have hblobs : e.blobs = c₁.blobs := hmeets₁.blobs
        rw [run_bind_ok hrun₁, run_bind_ok (get_run c₁), if_pos (by omega), Nat.add_sub_cancel, ← hblobs, hget]
        exact .inr ⟨c₁, rfl, hmeets₁⟩
    | none =>
      rw [hfind] at hbegins
      dsimp only at hbegins ⊢
      have hstarts : (e.n 0).out <+: t := by
        refine List.IsPrefix.trans ?_ hbegins
        rw [Encoder.n, Encoder.n, List.append_assoc]
        exact List.prefix_append _ _
      have hzero : (0 : ℕ) < 2 ^ 64 := by norm_num
      rcases n_codec.reads hmeets hzero hstarts with hfull | ⟨c₁, hrun₁, hmeets₁⟩
      · exact .inl (run_bind_error hfull)
      · have hblobs : e.blobs = c₁.blobs := hmeets₁.blobs
        rw [run_bind_ok hrun₁, run_bind_ok (get_run c₁), if_neg (by simp)]
        exact literal_reads hmeets₁ (hblobs ▸ findIdx?_eq_none.mp hfind) hbegins
  writes {c e t b c'} hmeets hrun := by
    rw [blob_eq] at hrun
    obtain ⟨index, c₁, hrun₁, hrun⟩ := run_bind_eq_ok hrun
    obtain ⟨hindex, hmeets₁⟩ := n_codec.writes hmeets hrun₁
    rw [run_bind_ok (get_run c₁)] at hrun
    have hblobs : e.blobs = c₁.blobs := hmeets₁.blobs
    refine ⟨trivial, ?_⟩
    change Meets limits c' (e.blob b) t
    unfold Encoder.blob
    split_ifs at hrun with hzero
    · cases hget : c₁.blobs[index - 1]? with
      | none =>
        rw [hget] at hrun
        cases hrun
      | some v =>
        rw [hget] at hrun
        obtain ⟨rfl, rfl⟩ := Prod.mk.inj (Except.ok.inj hrun)
        rw [hblobs, findIdx?_of_getElem hmeets₁.nodup hget]
        dsimp only
        rw [Nat.sub_add_cancel (by omega)]
        exact hmeets₁
    · obtain rfl : index = 0 := by omega
      obtain ⟨hnew, hmeets'⟩ := literal_writes hmeets₁ hrun
      rw [findIdx?_eq_none.mpr (hblobs ▸ hnew)]
      exact hmeets'
  safe {c} h := by
    rw [blob_eq] at h
    cases hrun₁ : (n limits).run c with
    | error ε =>
      rw [run_bind_error hrun₁] at h
      rw [Except.error.inj h] at hrun₁
      exact n_codec.safe hrun₁
    | ok p =>
      obtain ⟨index, c₁⟩ := p
      rw [run_bind_ok hrun₁, run_bind_ok (get_run c₁)] at h
      split_ifs at h
      · cases hget : c₁.blobs[index - 1]? with
        | none =>
          rw [hget] at h
          cases h
        | some v =>
          rw [hget] at h
          cases h
      · exact literal_safe h

/-! ### Values -/

variable (sizes)

theorem full_ne_fault : (sync bytes limits).full ≠ (sync bytes limits).fault := by
  intro h
  cases h

theorem invalid_ne_fault : .invalid ≠ (sync bytes limits).fault := by
  intro h
  cases h

theorem digest_codec : Codec (sync bytes limits) (digest limits sizes) (fun e d => e.blob d) (fun _ => True) := by
  refine blob_codec.choose _ Subtype.val Subtype.val_injective fun b => ?_
  by_cases h : b.length = 32
  · left
    refine ⟨⟨b, h⟩, rfl, ?_⟩
    rw [dif_pos h]
  · right
    refine ⟨fun d hd => h (hd ▸ d.property), .invalid, invalid_ne_fault, fun c => ?_⟩
    rw [dif_neg h]
    rfl

/-- What a blob is the bytes of is answered behind the charge for it. -/
theorem charged_codec {α : Type} (tag : α → Bytes) (k : Bytes → Read bytes α)
    (hk : ∀ b, Codec (sync bytes limits) (k b) (fun e _ => e) (fun a => tag a = b)) :
    Codec (sync bytes limits) (blob limits sizes >>= k) (fun e a => e.blob (tag a)) (fun _ => True) := by
  refine (blob_codec.bind hk tag fun _ _ _ h => h).congr rfl ?_ fun _ _ _ => rfl
  intro a
  exact iff_of_true trivial ⟨trivial, rfl⟩

theorem text_codec : Codec (sync bytes limits) (text limits sizes) Encoder.text (fun _ => True) := by
  have hread : ∀ b : Bytes, Codec (sync bytes limits) (orInvalid (fromUtf8 b)) (fun e _ => e) (fun s => utf8 s = b) := by
    intro b
    cases hb : fromUtf8 b with
    | none =>
      refine (Codec.refuse (fun _ => rfl) invalid_ne_fault).congr rfl ?_ fun _ _ _ => rfl
      intro s
      refine iff_of_false ?_ id
      rintro rfl
      rw [fromUtf8_utf8] at hb
      cases hb
    | some s =>
      refine (Codec.pure s).congr rfl ?_ fun _ _ _ => rfl
      intro s'
      rw [← utf8_eq_of_fromUtf8 hb]
      exact utf8_injective.eq_iff
  exact charged_codec sizes utf8 _ fun b => ((charge_budget b.length).codec.after (hread b)).orFull _ full_ne_fault

theorem owned_codec : Codec (sync bytes limits) (owned limits sizes) Encoder.blob (fun _ => True) :=
  charged_codec sizes id _ fun b => (charge_budget b.length).codec.after (Codec.pure b)

/-- What is read of an op's blob behind it. -/
def interpret (limits : DecodeLimits) (sizes : Sizes) (b : Bytes) : Read bytes Op := do
  (if b.length * 16 + sizes.op < 2 ^ 64 then charge limits (b.length * 16 + sizes.op) else throw .capacity)
  preflight limits b
  match decodeOp b with
  | .ok op => if op.encoding ≠ b then throw .invalid else return op
  | .error _ => throw .invalid

theorem encoding_injective : Function.Injective Op.encoding := by
  intro a b h
  have ha := decodeOp_encoding a
  rw [h, decodeOp_encoding b] at ha
  exact (Except.ok.inj ha).symm

theorem size_budget (limits : DecodeLimits) (size : ℕ) :
    Budget (if size < 2 ^ 64 then charge limits size else throw .capacity : Read bytes Unit) := by
  split_ifs
  · exact charge_budget size
  · exact fun _ => .inl rfl

theorem interpret_codec (b : Bytes) : Codec (sync bytes limits) (interpret limits sizes b) (fun e _ => e)
    (fun op => op.encoding = b) := by
  by_cases hop : ∃ op : Op, op.encoding = b
  · obtain ⟨op, rfl⟩ := hop
    have hlast : (match decodeOp op.encoding with
        | .ok op' => if op'.encoding ≠ op.encoding then throw .invalid else return op'
        | .error _ => throw .invalid : Read bytes Op) = return op := by
      rw [decodeOp_encoding]
      exact if_neg (not_not.mpr rfl)
    unfold interpret
    rw [hlast]
    refine (size_budget limits _).codec.after ((preflight_budget op).codec.after ((Codec.pure op).congr rfl ?_ fun _ _ _ => rfl))
    intro op'
    exact encoding_injective.eq_iff
  · have hlast : ∀ c : Cursor bytes, (match decodeOp b with
        | .ok op => if op.encoding ≠ b then throw .invalid else return op
        | .error _ => throw .invalid : Read bytes Op).run c = .error .invalid := by
      intro c
      cases decodeOp b with
      | error _ => rfl
      | ok op =>
        dsimp only
        rw [if_pos fun h => hop ⟨op, h⟩]
        rfl
    have hpreflight : ∀ c : Cursor bytes, (preflight limits b : Read bytes Unit).run c ≠ .error .panicked := by
      intro c h
      change preflight limits b c = _ at h
      unfold preflight at h
      cases hscan : Bounds.scan limits c.items b 0 with
      | ok items =>
        rw [hscan] at h
        cases h
      | error e =>
        rw [hscan] at h
        rw [Except.error.inj h] at hscan
        exact Bounds.scan_safe _ _ _ _ hscan
    unfold interpret
    refine Codec.never (fun op h => hop ⟨op, h⟩) ?_ ?_
    · intro c p h
      obtain ⟨_, c₁, -, h⟩ := run_bind_eq_ok h
      obtain ⟨_, c₂, -, h⟩ := run_bind_eq_ok h
      rw [hlast] at h
      cases h
    · intro c h
      rcases size_budget limits (b.length * 16 + sizes.op) c with hfull | ⟨c₁, hrun, -⟩
      · rw [run_bind_error hfull] at h
        cases h
      rw [run_bind_ok hrun] at h
      cases hp : (preflight limits b : Read bytes Unit).run c₁ with
      | error e =>
        rw [run_bind_error hp] at h
        rw [Except.error.inj h] at hp
        exact hpreflight c₁ hp
      | ok p =>
        obtain ⟨_, c₂⟩ := p
        rw [run_bind_ok hp, hlast] at h
        cases h

theorem operation_codec : Codec (sync bytes limits) (operation limits sizes) (fun e op => e.blob op.encoding) (fun _ => True) :=
  charged_codec sizes Op.encoding _ (interpret_codec sizes)

theorem optional_codec {α : Type} {r : Read bytes α} {w : Encoder → α → Encoder} {P : α → Prop}
    (h : Codec (sync bytes limits) r w P) : Codec (sync bytes limits) (optional limits r) (Encoder.option w)
      (fun o => ∀ a ∈ o, P a) := by
  refine (boolean_codec.option h).congr rfl (fun _ => Iff.rfl) ?_
  intro e o _
  cases o <;> rfl

theorem many_codec {α : Type} (size : ℕ) {r : Read bytes α} {w : Encoder → α → Encoder} {P : α → Prop}
    (h : Codec (sync bytes limits) r w P) : Codec (sync bytes limits) (many limits size r)
      (fun e l => l.foldl w (e.n l.length)) (fun l => l.length < 2 ^ 64 ∧ ∀ a ∈ l, P a) := by
  have hone : Codec (sync bytes limits) (do charge limits size; r) w P := (charge_budget size).codec.after h
  have htimes : ∀ n, Codec (sync bytes limits) (do room limits n; times (do charge limits size; r) n) (fun e l => l.foldl w e)
      (fun l => l.length = n ∧ ∀ a ∈ l, P a) := fun n => (room_budget n).codec.after (hone.many n)
  refine (n_codec.bind htimes List.length fun _ _ _ h => h.1).congr rfl ?_ fun _ _ _ => rfl
  intro l
  exact and_congr_right fun _ => (and_iff_right rfl).symm

/-! ### Records -/

theorem instanceId_codec : Codec (sync bytes limits) (instanceId limits sizes) Encoder.instanceId (fun _ => True) := by
  refine (((digest_codec sizes).pair (text_codec sizes)).map (fun (descriptor, incarnation) => Instance.mk descriptor incarnation)
    (fun i => (i.descriptor, i.incarnation)) (fun _ => rfl) (fun _ => rfl)).congr ?_ ?_ ?_
  · simp only [instanceId, map_eq_pure_bind, bind_assoc, pure_bind]
  · exact fun _ => iff_of_true trivial ⟨trivial, trivial⟩
  · intros
    rfl

theorem time_codec : Codec (sync bytes limits) (time limits) Encoder.time TimeInterval.InRange := by
  refine ((n_codec.pair n_codec).map (fun (earliest, latest) => TimeInterval.mk earliest latest)
    (fun t => (t.earliestMs, t.latestMs)) (fun _ => rfl) (fun _ => rfl)).congr ?_ ?_ ?_
  · simp only [time, map_eq_pure_bind, bind_assoc, pure_bind]
  · exact fun _ => Iff.rfl
  · intros
    rfl

theorem window_codec : Codec (sync bytes limits) (window limits) Encoder.window Window.InRange := by
  refine ((n_codec.pair n_codec).map (fun (notBefore, notAfter) => Window.mk notBefore notAfter)
    (fun w => (w.notBeforeMs, w.notAfterMs)) (fun _ => rfl) (fun _ => rfl)).congr ?_ ?_ ?_
  · simp only [window, map_eq_pure_bind, bind_assoc, pure_bind]
  · exact fun _ => Iff.rfl
  · intros
    rfl

theorem localCut_codec :
    Codec (sync bytes limits) (localCut limits sizes) Encoder.localCut (fun p => TimeInterval.InRange p.time) := by
  refine (((digest_codec sizes).pair time_codec).map (fun (policy, time) => LocalPrecondition.mk policy time)
    (fun c => (c.policy, c.time)) (fun _ => rfl) (fun _ => rfl)).congr ?_ ?_ ?_
  · simp only [localCut, map_eq_pure_bind, bind_assoc, pure_bind]
  · exact fun _ => (and_iff_right trivial).symm
  · intros
    rfl

theorem owner_codec : Codec (sync bytes limits) (owner limits sizes) Encoder.owner (fun o => o.generation < 2 ^ 64) := by
  refine (((digest_codec sizes).pair n_codec).map (fun (store, generation) => Owner.mk store generation)
    (fun o => (o.store, o.generation)) (fun _ => rfl) (fun _ => rfl)).congr ?_ ?_ ?_
  · simp only [owner, map_eq_pure_bind, bind_assoc, pure_bind]
  · exact fun _ => (and_iff_right trivial).symm
  · intros
    rfl

/-- What of a mode follows its number. -/
def modeBody (e : Encoder) : Mode → Encoder
  | .localWrite policy time => (e.blob policy).time time
  | .historical => e
  | .admissionSeal => e

def modeNumber : Mode → ℕ
  | .localWrite _ _ => 0
  | .historical => 1
  | .admissionSeal => 2

theorem mode_codec : Codec (sync bytes limits) (mode limits sizes) Encoder.mode Mode.InRange := by
  have hlocal : Codec (sync bytes limits) (do
      let currentPolicy ← digest limits sizes
      let time ← time limits
      return .localWrite currentPolicy time) modeBody (fun m => modeNumber m = 0 ∧ Mode.InRange m) := by
    refine (((digest_codec sizes).pair time_codec).embed (fun p => Mode.localWrite p.1 p.2) modeBody fun _ _ => rfl).congr
      ?_ ?_ fun _ _ _ => rfl
    · simp only [map_eq_pure_bind, bind_assoc, pure_bind]
    · intro m
      constructor
      · rintro ⟨hm, hrange⟩
        cases m with
        | localWrite policy time => exact ⟨(policy, time), ⟨trivial, hrange⟩, rfl⟩
        | historical => cases hm
        | admissionSeal => cases hm
      · rintro ⟨⟨policy, time⟩, ⟨-, hrange⟩, rfl⟩
        exact ⟨rfl, hrange⟩
  have hplain : ∀ (m : Mode), (∀ m', modeNumber m' = modeNumber m ↔ m' = m) → Mode.InRange m → (∀ e, modeBody e m = e) →
      Codec (sync bytes limits) (return m) modeBody (fun m' => modeNumber m' = modeNumber m ∧ Mode.InRange m') := by
    intro m hm hrange hbody
    refine (Codec.pure m).congr rfl ?_ ?_
    · intro m'
      rw [hm]
      exact ⟨fun h => h.1, fun h => ⟨h, h ▸ hrange⟩⟩
    · rintro e m' rfl
      exact hbody e
  have hk : ∀ v, Codec (sync bytes limits) (modeOf limits sizes v) modeBody (fun m => modeNumber m = v ∧ Mode.InRange m) := by
    intro v
    match v with
    | 0 => exact hlocal
    | 1 => exact hplain .historical (by rintro (_ | _) <;> simp [modeNumber]) trivial fun _ => rfl
    | 2 => exact hplain .admissionSeal (by rintro (_ | _) <;> simp [modeNumber]) trivial fun _ => rfl
    | v + 3 =>
      refine Codec.never ?_ (fun c p h => by cases h) (fun c h => invalid_ne_fault (Except.error.inj h))
      rintro (_ | _) ⟨h, -⟩ <;> cases h
  refine (n_codec.bind hk modeNumber fun _ _ _ h => h.1).congr rfl ?_ ?_
  · intro m
    constructor
    · intro h
      exact ⟨by cases m <;> simp [modeNumber], rfl, h⟩
    · rintro ⟨-, -, h⟩
      exact h
  · intro e m _
    cases m <;> rfl

theorem bounds_codec : Codec (sync bytes limits) (bounds limits) (fun e v => [v.maxOperationBytes, v.maxOrigins,
    v.maxRefs, v.editBytes,
    v.recoveryBytes, v.evidenceBytes, v.pendingBytes, v.pendingItems].foldl Encoder.n e) Kernel.Bounds.InRange := by
  refine ((n_codec.pair (n_codec.pair (n_codec.pair (n_codec.pair (n_codec.pair (n_codec.pair (n_codec.pair n_codec))))))).map
    (fun (operation, origins, refs, edit, recovery, evidence, pending, items) =>
      Kernel.Bounds.mk operation origins refs edit recovery evidence pending items)
    (fun v => (v.maxOperationBytes, v.maxOrigins, v.maxRefs, v.editBytes, v.recoveryBytes, v.evidenceBytes, v.pendingBytes,
      v.pendingItems))
    (fun _ => rfl) (fun _ => rfl)).congr ?_ ?_ ?_
  · simp only [bounds, map_eq_pure_bind, bind_assoc, pure_bind]
  · intro v
    constructor
    · rintro ⟨h₁, h₂, h₃, h₄, h₅, h₆, h₇, h₈⟩
      exact ⟨h₁, h₂, h₃, h₄, h₅, h₆, h₇, h₈⟩
    · rintro ⟨h₁, h₂, h₃, h₄, h₅, h₆, h₇, h₈⟩
      exact ⟨h₁, h₂, h₃, h₄, h₅, h₆, h₇, h₈⟩
  · intros
    rfl

theorem descriptor_codec : Codec (sync bytes limits) (descriptor limits sizes) Encoder.descriptor
    (fun v => v.bounds.InRange) := by
  have hblob : Codec (sync bytes limits) (owned limits sizes) Encoder.blob (fun _ => True) := owned_codec sizes
  have htext : Codec (sync bytes limits) (text limits sizes) Encoder.text (fun _ => True) := text_codec sizes
  refine (((instanceId_codec sizes).pair (hblob.pair ((digest_codec sizes).pair (htext.pair (htext.pair (htext.pair (htext.pair
    (htext.pair (htext.pair (htext.pair (hblob.pair (admissionMode_codec.pair bounds_codec)))))))))))).map
    (fun (inst, canonical, creationRoot, resource, share, gladeId, engine, payload, admission, authorization,
      key, mode, bounds) =>
      Descriptor.mk inst canonical creationRoot resource share gladeId key engine payload admission authorization mode bounds)
    (fun v => (v.inst, v.canonical, v.creationRoot, v.resource, v.share, v.gladeId, v.engine, v.payloadProfile,
      v.admissionProfile, v.authorizationProfile, v.key, v.mode, v.bounds))
    (fun _ => rfl) (fun _ => rfl)).congr ?_ (fun v => by simp) ?_
  · simp only [descriptor, map_eq_pure_bind, bind_assoc, pure_bind]
  · intro e v _
    obtain ⟨inst, canonical, root, resource, share, gladeId, key, engine, payload, admission, authorization, mode, bounds⟩ := v
    cases mode <;> simp only [Encoder.descriptor, modeTag, List.foldl_cons, List.foldl_nil]

theorem evidence_codec : Codec (sync bytes limits) (evidence limits sizes) Encoder.evidence (fun _ => True) := by
  refine (((owned_codec sizes).pair ((owned_codec sizes).pair ((owned_codec sizes).pair
    (optional_codec (owned_codec sizes))))).map
    (fun (certificate, permit, policy, admission) => EvidenceSet.mk certificate permit policy admission)
    (fun v => (v.certificate, v.permit, v.policy, v.admission))
    (fun _ => rfl) (fun _ => rfl)).congr ?_ ?_ ?_
  · simp only [evidence, map_eq_pure_bind, bind_assoc, pure_bind]
  · intro v
    simp
  · intros
    rfl

theorem candidate_codec : Codec (sync bytes limits) (candidate limits sizes) Encoder.candidate (fun _ => True) := by
  refine (((instanceId_codec sizes).pair ((operation_codec sizes).pair (evidence_codec sizes))).map
    (fun (inst, operation, evidence) => Candidate.mk inst operation evidence) (fun v => (v.inst, v.operation, v.evidence))
    (fun _ => rfl) (fun _ => rfl)).congr ?_ ?_ ?_
  · simp only [candidate, map_eq_pure_bind, bind_assoc, pure_bind]
  · intro v
    simp
  · intros
    rfl

theorem certificate_codec : Codec (sync bytes limits) (certificate limits sizes) (fun e v =>
    ((([v.canonicalOrigin, v.epoch,
      v.displayName].foldl Encoder.text (e.instanceId v.inst)).blob v.writerKey).text v.requester).blob
      v.canonical) (fun _ => True) := by
  refine (((instanceId_codec sizes).pair ((text_codec sizes).pair ((text_codec sizes).pair ((text_codec sizes).pair
    ((digest_codec sizes).pair ((text_codec sizes).pair (owned_codec sizes))))))).map
    (fun (inst, canonicalOrigin, epoch, displayName, writerKey, requester, canonical) =>
      OriginCertificate.mk inst canonicalOrigin epoch displayName writerKey requester canonical)
    (fun v => (v.inst, v.canonicalOrigin, v.epoch, v.displayName, v.writerKey, v.requester, v.canonical))
    (fun _ => rfl) (fun _ => rfl)).congr ?_ ?_ ?_
  · simp only [certificate, map_eq_pure_bind, bind_assoc, pure_bind]
  · intro v
    simp
  · intros
    rfl

theorem facts_codec : Codec (sync bytes limits) (facts limits sizes) Encoder.facts Facts.InRange := by
  refine (((certificate_codec sizes).pair (boolean_codec.pair (boolean_codec.pair (boolean_codec.pair (boolean_codec.pair
    (window_codec.pair (signed_codec.pair (signed_codec.pair (boolean_codec.pair (boolean_codec.pair (boolean_codec.pair
    (optional_codec time_codec)))))))))))).map
    (fun (certificate, descriptor, payload, signatures, unique, window, first, last, current, admitter, policy, time) =>
      Facts.mk certificate descriptor payload signatures unique window first last current admitter policy time)
    (fun v => (v.certificate, v.descriptorValid, v.payloadValid, v.signaturesValid, v.issuanceUnique, v.permitWindow,
      v.permitFirstSeq, v.permitLastSeq, v.currentAllowed, v.historicalAdmitterAuthorized, v.historicalPolicyAllowed,
      v.historicalTime))
    (fun _ => rfl) (fun _ => rfl)).congr ?_ ?_ ?_
  · simp only [facts, map_eq_pure_bind, bind_assoc, pure_bind]
  · intro v
    constructor
    · rintro ⟨h₁, h₂, h₃, h₄⟩
      exact ⟨trivial, trivial, trivial, trivial, trivial, h₁, h₂, h₃, trivial, trivial, trivial, h₄⟩
    · rintro ⟨-, -, -, -, -, h₁, h₂, h₃, -, -, -, h₄⟩
      exact ⟨h₁, h₂, h₃, h₄⟩
  · intros
    rfl

theorem query_codec : Codec (sync bytes limits) (query limits sizes) Encoder.query Query.InRange := by
  refine ((n_codec.pair ((instanceId_codec sizes).pair ((descriptor_codec sizes).pair ((operation_codec sizes).pair
    ((evidence_codec sizes).pair ((mode_codec sizes).pair ((optional_codec (facts_codec sizes)).pair
    (optional_codec (mode_codec sizes))))))))).map
    (fun (id, inst, descriptor, operation, evidence, mode, facts, under) =>
      Query.mk id inst descriptor operation evidence mode facts under)
    (fun v => (v.id, v.inst, v.descriptor, v.operation, v.evidence, v.mode, v.verifiedFacts, v.validatedUnder))
    (fun _ => rfl) (fun _ => rfl)).congr ?_ ?_ ?_
  · simp only [query, map_eq_pure_bind, bind_assoc, pure_bind]
  · intro v
    constructor
    · rintro ⟨h₁, h₂, h₃, h₄, h₅⟩
      exact ⟨h₁, trivial, h₂, trivial, trivial, h₃, h₄, h₅⟩
    · rintro ⟨h₁, -, h₂, -, -, h₃, h₄, h₅⟩
      exact ⟨h₁, h₂, h₃, h₄, h₅⟩
  · intros
    rfl

theorem receipt_codec : Codec (sync bytes limits) (receipt limits sizes) Encoder.receipt (fun _ => True) := by
  refine (((instanceId_codec sizes).pair ((digest_codec sizes).pair ((digest_codec sizes).pair ((digest_codec sizes).pair
    storage_codec)))).map
    (fun (inst, operation, admission, stableId, storage) => Receipt.mk inst operation admission stableId storage)
    (fun v => (v.inst, v.operation, v.admission, v.stableId, v.storage))
    (fun _ => rfl) (fun _ => rfl)).congr ?_ ?_ ?_
  · simp only [receipt, map_eq_pure_bind, bind_assoc, pure_bind]
  · intro v
    simp
  · intros
    rfl

theorem acceptance_codec : Codec (sync bytes limits) (acceptance limits sizes) Encoder.acceptance StagedAcceptance.InRange := by
  refine (((candidate_codec sizes).pair ((facts_codec sizes).pair ((query_codec sizes).pair ((optional_codec
    (query_codec sizes)).pair ((owned_codec sizes).pair (receipt_codec sizes)))))).map
    (fun (candidate, facts, verified, sealing, admission, receipt) =>
      StagedAcceptance.mk candidate facts verified sealing admission receipt)
    (fun v => (v.candidate, v.facts, v.verifiedQuery, v.sealQuery, v.sealedAdmission, v.receipt))
    (fun _ => rfl) (fun _ => rfl)).congr ?_ ?_ ?_
  · simp only [acceptance, map_eq_pure_bind, bind_assoc, pure_bind]
  · intro v
    constructor
    · rintro ⟨h₁, h₂, h₃⟩
      exact ⟨trivial, h₁, h₂, h₃, trivial, trivial⟩
    · rintro ⟨-, h₁, h₂, h₃, -, -⟩
      exact ⟨h₁, h₂, h₃⟩
  · intros
    rfl

theorem fork_codec :
    Codec (sync bytes limits) (fork limits sizes) (fun e v => (e.candidate v.first).candidate v.second) (fun _ => True) := by
  refine (((candidate_codec sizes).pair (candidate_codec sizes)).map (fun (first, second) => ForkEvidence.mk first second)
    (fun v => (v.first, v.second)) (fun _ => rfl) (fun _ => rfl)).congr ?_ ?_ ?_
  · simp only [fork, map_eq_pure_bind, bind_assoc, pure_bind]
  · intro v
    simp
  · intros
    rfl

theorem charges_codec : Codec (sync bytes limits) (charges limits)
    (fun e v => [v.edit, v.recovery, v.evidence, v.pending].foldl Encoder.n e) Charges.InRange := by
  refine ((n_codec.pair (n_codec.pair (n_codec.pair n_codec))).map
    (fun (edit, recovery, evidence, pending) => Charges.mk edit recovery evidence pending)
    (fun v => (v.edit, v.recovery, v.evidence, v.pending)) (fun _ => rfl) (fun _ => rfl)).congr ?_ ?_ ?_
  · simp only [charges, map_eq_pure_bind, bind_assoc, pure_bind]
  · intro v
    constructor
    · rintro ⟨h₁, h₂, h₃, h₄⟩
      exact ⟨h₁, h₂, h₃, h₄⟩
    · rintro ⟨h₁, h₂, h₃, h₄⟩
      exact ⟨h₁, h₂, h₃, h₄⟩
  · intros
    rfl

/-- What the kernel writes of a batch, behind the domain. -/
def write (e : Encoder) (d : DecodedBatch) : Encoder :=
  let e := ((e.blob d.planNamespace).blob d.invocationNamespace).n d.nextEffectId
  let e := Encoder.option Encoder.storage e d.storage
  let e := Encoder.option Encoder.owner e d.owner
  let e := (((e.descriptor d.descriptor).n d.plan.id).instanceId d.plan.inst).n d.plan.expectedRevision
  let e := e.n (kindTag d.plan.kind)
  let e := Encoder.option Encoder.localCut e d.plan.localPrecondition
  let e := [d.plan.charges.edit, d.plan.charges.recovery, d.plan.charges.evidence, d.plan.charges.pending].foldl Encoder.n e
  let e := d.plan.records.foldl Encoder.candidate (e.n d.plan.records.length)
  let e := d.plan.acceptances.foldl Encoder.acceptance (e.n d.plan.acceptances.length)
  d.plan.qualifiedForks.foldl (fun e f => (e.candidate f.first).candidate f.second) (e.n d.plan.qualifiedForks.length)

theorem fields_codec (batch : Bytes) :
    Codec (sync bytes limits) (fields limits sizes batch) write (fun d => d.InRange ∧ d.plan.batch = batch) := by
  refine (((digest_codec sizes).pair ((digest_codec sizes).pair (n_codec.pair ((optional_codec storage_codec).pair
    ((optional_codec (owner_codec sizes)).pair ((descriptor_codec sizes).pair (n_codec.pair ((instanceId_codec
    sizes).pair (n_codec.pair (kind_codec.pair ((optional_codec (localCut_codec sizes)).pair (charges_codec.pair
    ((many_codec sizes.candidate (candidate_codec sizes)).pair ((many_codec sizes.acceptance (acceptance_codec
    sizes)).pair (many_codec sizes.fork (fork_codec sizes)))))))))))))))).embed
    (fun (planNamespace, invocationNamespace, next, storage, owner, descriptor, id, inst, revision, kind, cut, charges, records,
        acceptances, forks) =>
      DecodedBatch.mk planNamespace invocationNamespace next storage owner descriptor
        (CommitPlan.mk id inst revision cut batch kind records acceptances forks charges))
    write ?_).congr ?_ ?_ ?_
  · intro e p
    rfl
  · simp only [fields, map_eq_pure_bind, bind_assoc, pure_bind]
  · intro d
    constructor
    · rintro ⟨⟨hnext, howner, hbounds, hplan⟩, rfl⟩
      obtain ⟨hid, hrevision, hlocal, hcharges, hrecords, haccept, hforks⟩ := hplan
      refine ⟨(d.planNamespace, d.invocationNamespace, d.nextEffectId, d.storage, d.owner, d.descriptor, d.plan.id, d.plan.inst,
        d.plan.expectedRevision, d.plan.kind, d.plan.localPrecondition, d.plan.charges, d.plan.records, d.plan.acceptances,
        d.plan.qualifiedForks), ⟨trivial, trivial, hnext, fun _ _ => trivial, howner, hbounds, hid, trivial, hrevision, trivial,
        hlocal, hcharges, ⟨hrecords, fun _ _ => trivial⟩, haccept, hforks, fun _ _ => trivial⟩, rfl⟩
    · rintro ⟨p, ⟨-, -, hnext, -, howner, hbounds, hid, -, hrevision, -, hlocal, hcharges, hrecords, haccept, hforks⟩, rfl⟩
      exact ⟨⟨hnext, howner, hbounds, hid, hrevision, hlocal, hcharges, hrecords.1, haccept, hforks.1⟩, rfl⟩
  · intros
    rfl
end Codecs

/-! ### Batches -/

/-- What the kernel has written before a batch's fields. -/
def start : Encoder := { out := domain, blobs := [] }

/-- What a state and a plan it makes are written of. -/
def taken (s : State) (descriptor : Descriptor) (plan : CommitPlan) : DecodedBatch where
  planNamespace := s.planNamespace
  invocationNamespace := s.invocationNamespace
  nextEffectId := s.nextEffectId
  storage := s.instances[plan.inst]?.map fun v => v.storage
  owner := s.storageOwner
  descriptor := descriptor
  plan := plan

/-- The plan, with the batch it is retained by. -/
def DecodedBatch.retain (d : DecodedBatch) (batch : Bytes) : DecodedBatch := { d with plan := { d.plan with batch } }

theorem encodePlan_eq_write (s : State) (descriptor : Descriptor) (plan : CommitPlan) :
    encodePlan s descriptor plan = (write start (taken s descriptor plan)).out := rfl

section Batches

variable (limits : DecodeLimits) (sizes : Sizes)

/-- Where the cursor and the encoder first meet. -/
theorem start_meets {t : Bytes} (hdomain : domain <+: t) (hshort : t.length ≤ limits.bytes) :
    Meets limits (⟨0, Nat.zero_le _, 0, 0, []⟩ : Cursor (t.drop domain.length)) start t where
  blobs := rfl
  whole := by
    obtain ⟨rest, rfl⟩ := hdomain
    rw [Cursor.rest, List.drop_left]
    rfl
  short := hshort.trans_lt limits.usize.1
  nodup := List.nodup_nil
  few := Nat.zero_le _

/-- A value that was written is read again, unless there is too much of it. -/
theorem decodeBatch_write {d : DecodedBatch} (hd : d.InRange) : decodeBatch (write start d).out limits sizes = .error .capacity ∨
    decodeBatch (write start d).out limits sizes = .ok (DecodedBatch.retain d (write start d).out) := by
  set t := (write start d).out with ht
  have hretain : write start (DecodedBatch.retain d t) = write start d := rfl
  have hrange : (DecodedBatch.retain d t).InRange ∧ (DecodedBatch.retain d t).plan.batch = t :=
    ⟨⟨hd.nextEffectId, hd.owner, hd.bounds, hd.plan.id, hd.plan.expectedRevision, hd.plan.localPrecondition, hd.plan.charges,
      hd.plan.records, hd.plan.acceptances, hd.plan.qualifiedForks⟩, rfl⟩
  have hwritten : (write start (DecodedBatch.retain d t)).out <+: t := List.prefix_rfl
  unfold decodeBatch
  split_ifs with hbytes hdepth hdomain
  · exact .inl rfl
  · exact .inl rfl
  · have hmeets := start_meets limits hdomain (Nat.le_of_not_lt hbytes)
    have hcodec : Codec (sync (t.drop domain.length) limits) (fields limits sizes t) write
        (fun d => d.InRange ∧ d.plan.batch = t) := fields_codec sizes t
    rcases hcodec.reads hmeets hrange hwritten with hfull | ⟨c, hrun, hmeets'⟩
    · dsimp only
      rw [hfull]
      exact .inl rfl
    · dsimp only
      rw [hrun]
      have hend : c.index = (t.drop domain.length).length := by
        have hwhole : t = t ++ c.rest := hmeets'.whole
        have hnil : c.rest = [] := by simpa using hwhole
        have := c.within
        have := List.drop_eq_nil_iff.mp hnil
        omega
      dsimp only
      rw [if_neg (not_not.mpr hend)]
      rcases charge_budget t.length c with hfull | ⟨c', hcharge, -⟩
      · rw [hfull]
        exact .inl rfl
      · rw [hcharge]
        exact .inr rfl
  · exfalso
    apply hdomain
    have hcodec : Codec (sync ([] : Bytes) limits) (fields limits sizes t) write
        (fun d => d.InRange ∧ d.plan.batch = t) := fields_codec sizes t
    exact hcodec.begins hrange hwritten

/-- What is accepted was written of what is answered. -/
theorem write_of_decodeBatch {b : Bytes} {d : DecodedBatch} (h : decodeBatch b limits sizes = .ok d) :
    d.InRange ∧ d.plan.batch = b ∧ (write start d).out = b := by
  unfold decodeBatch at h
  split_ifs at h with hbytes hdepth hdomain
  have hmeets := start_meets limits hdomain (Nat.le_of_not_lt hbytes)
  have hcodec : Codec (sync (b.drop domain.length) limits) (fields limits sizes b) write
      (fun d => d.InRange ∧ d.plan.batch = b) := fields_codec sizes b
  dsimp only at h
  cases hrun : (fields limits sizes b).run (⟨0, Nat.zero_le _, 0, 0, []⟩ : Cursor (b.drop domain.length)) with
  | error e =>
    rw [hrun] at h
    cases h
  | ok p =>
    obtain ⟨d', c⟩ := p
    rw [hrun] at h
    dsimp only at h
    split_ifs at h with hend
    cases hcharge : (charge limits b.length).run c with
    | error e =>
      rw [hcharge] at h
      cases h
    | ok p =>
      rw [hcharge] at h
      obtain rfl := Except.ok.inj h
      obtain ⟨⟨hrange, hbatch⟩, hmeets'⟩ := hcodec.writes hmeets hrun
      refine ⟨hrange, hbatch, ?_⟩
      have hnil : c.rest = [] := List.drop_eq_nil_iff.mpr (not_not.mp hend).ge
      have hwhole : b = (write start d').out ++ c.rest := hmeets'.whole
      rw [hnil, List.append_nil] at hwhole
      exact hwhole.symm

theorem decodeBatch_safe (b : Bytes) : decodeBatch b limits sizes ≠ .error .panicked := by
  intro h
  unfold decodeBatch at h
  split_ifs at h
  · cases h
  · cases h
  · have hcodec : Codec (sync (b.drop domain.length) limits) (fields limits sizes b) write
        (fun d => d.InRange ∧ d.plan.batch = b) := fields_codec sizes b
    dsimp only at h
    cases hrun : (fields limits sizes b).run (⟨0, Nat.zero_le _, 0, 0, []⟩ : Cursor (b.drop domain.length)) with
    | error e =>
      rw [hrun] at h
      rw [Except.error.inj h] at hrun
      exact hcodec.safe hrun
    | ok p =>
      obtain ⟨d, c⟩ := p
      rw [hrun] at h
      dsimp only at h
      split_ifs at h
      · cases h
      · rcases charge_budget b.length c with hfull | ⟨c', hcharge, -⟩
        · rw [hfull] at h
          cases h
        · rw [hcharge] at h
          cases h
  · cases h

theorem decodeBatch_encodePlan {s : State} {descriptor : Descriptor} {plan : CommitPlan} (h : (taken s descriptor plan).InRange) :
    decodeBatch (encodePlan s descriptor plan) limits sizes = .error .capacity ∨
      decodeBatch (encodePlan s descriptor plan) limits sizes =
        .ok (DecodedBatch.retain (taken s descriptor plan) (encodePlan s descriptor plan)) := by
  rw [encodePlan_eq_write]
  exact decodeBatch_write limits sizes h

/-- An instance that has a storage class. -/
def stored (descriptor : Descriptor) (storage : StorageClass) : InstanceState where
  descriptor := descriptor
  revision := 0
  storage := storage
  accepted := []
  candidates := []
  securityEvidence := []
  qualifiedForks := []
  canonicalOrigins := ∅
  heads := ∅
  pending := []
  quarantine := ∅
  policy := []
  recoveryIncomplete := false
  storageIntegrityFailed := false
  timeFloorMs := 0
  policyTime := { earliestMs := 0, latestMs := 0 }
  used := { edit := 0, recovery := 0, evidence := 0, pending := 0 }

/-- A state that a batch is written of. -/
def holding (d : DecodedBatch) : State where
  instances := match d.storage with
    | some storage => (∅ : Std.ExtTreeMap Instance InstanceState).insert d.plan.inst (stored d.descriptor storage)
    | none => ∅
  queries := ∅
  commits := ∅
  unknownCommits := ∅
  lookups := ∅
  storageOwner := d.owner
  storageLimits := none
  planNamespace := d.planNamespace
  invocationNamespace := d.invocationNamespace
  attempts := ∅
  preparing := ∅
  storageInvocations := ∅
  retiredStorageInvocations := ∅
  terminalResults := ∅
  terminalConflicts := ∅
  nextEffectId := d.nextEffectId

theorem taken_holding (d : DecodedBatch) : taken (holding d) d.descriptor d.plan = d := by
  obtain ⟨plans, invocations, next, storage, owner, descriptor, plan⟩ := d
  unfold taken holding
  cases storage with
  | none => simp
  | some storage => simp [stored]

/-- The decoder and the kernel's encoder undo each other: what is encoded of a state, a
descriptor and a plan is read again unless there is too much of it, so that no two are
encoded alike; what is accepted is the encoding of what is answered, and of no other
bytes; and no index is ever out of its slice. -/
theorem batch_round_trip :
    (∀ s descriptor plan, (taken s descriptor plan).InRange →
      decodeBatch (encodePlan s descriptor plan) limits sizes = .error .capacity ∨
        decodeBatch (encodePlan s descriptor plan) limits sizes =
          .ok (DecodedBatch.retain (taken s descriptor plan) (encodePlan s descriptor plan))) ∧
    (∀ s descriptor plan s' descriptor' plan', (taken s descriptor plan).InRange → (taken s' descriptor' plan').InRange →
      decodeBatch (encodePlan s descriptor plan) limits sizes ≠ .error .capacity →
      encodePlan s descriptor plan = encodePlan s' descriptor' plan' →
      DecodedBatch.retain (taken s descriptor plan) [] = DecodedBatch.retain (taken s' descriptor' plan') []) ∧
    (∀ b d, decodeBatch b limits sizes = .ok d → d.plan.batch = b ∧ (∃ s, taken s d.descriptor d.plan = d) ∧
      ∀ s, taken s d.descriptor d.plan = d → encodePlan s d.descriptor d.plan = b) ∧
    (∀ b b' d d', decodeBatch b limits sizes = .ok d → decodeBatch b' limits sizes = .ok d' →
      DecodedBatch.retain d [] = DecodedBatch.retain d' [] → b = b') ∧
    ∀ b, decodeBatch b limits sizes ≠ .error .panicked := by
  refine ⟨fun _ _ _ => decodeBatch_encodePlan limits sizes, ?_, ?_, ?_, decodeBatch_safe limits sizes⟩
  · intro s descriptor plan s' descriptor' plan' hrange hrange' hfits heq
    have h := (decodeBatch_encodePlan limits sizes hrange).resolve_left hfits
    have h' := (decodeBatch_encodePlan limits sizes hrange').resolve_left (heq ▸ hfits)
    rw [heq, h'] at h
    have hsame := congrArg (fun d : DecodedBatch => DecodedBatch.retain d []) (Except.ok.inj h)
    exact hsame.symm
  · intro b d h
    obtain ⟨-, hbatch, hwrite⟩ := write_of_decodeBatch limits sizes h
    refine ⟨hbatch, ⟨holding d, taken_holding d⟩, fun s hs => ?_⟩
    rw [encodePlan_eq_write, hs]
    exact hwrite
  · intro b b' d d' h h' heq
    obtain ⟨-, -, hwrite⟩ := write_of_decodeBatch limits sizes h
    obtain ⟨-, -, hwrite'⟩ := write_of_decodeBatch limits sizes h'
    have hretain : ∀ d : DecodedBatch, write start (DecodedBatch.retain d []) = write start d := fun _ => rfl
    rw [← hwrite, ← hwrite', ← hretain d, heq, hretain d']

end Batches

/-! ### A batch that names most of its parts again -/

/-- One digest for all that is named by one. -/
def mark : Digest := ⟨List.replicate 32 9, List.length_replicate⟩

def bench : Instance := { descriptor := mark, incarnation := "i" }

/-- A candidate that says nothing. -/
def bare : Candidate where
  inst := bench
  operation := {
    share := "s", gladeId := "g", key := [], origin := "o", seq := 0, prev := none, lamport := 0, refs := [], shape := .crdt
    payload := [], valid := by decide }
  evidence := { certificate := [1], permit := [1], policy := [], admission := none }

/-- Its plan holds the candidate twice. -/
def echoed : DecodedBatch where
  planNamespace := mark
  invocationNamespace := mark
  nextEffectId := 300
  storage := some .localProcessRestart
  owner := some { store := mark, generation := 1 }
  descriptor := {
    inst := bench, canonical := [], creationRoot := mark, resource := "r", share := "s", gladeId := "g", key := []
    engine := "e", payloadProfile := "", admissionProfile := "", authorizationProfile := "", mode := .strong
    bounds := {
      maxOperationBytes := 1, maxOrigins := 1, maxRefs := 1, editBytes := 1, recoveryBytes := 1, evidenceBytes := 1
      pendingBytes := 1, pendingItems := 1 } }
  plan := {
    id := 7, inst := bench, expectedRevision := 0, localPrecondition := none, batch := [], kind := .candidate
    records := [bare, bare], acceptances := [], qualifiedForks := []
    charges := { edit := 0, recovery := 0, evidence := 0, pending := 0 } }

theorem echoed_inRange : echoed.InRange where
  nextEffectId := by decide
  owner := by rintro _ ⟨⟩; decide
  bounds := by constructor <;> decide
  plan := {
    id := by decide
    expectedRevision := by decide
    localPrecondition := by rintro _ ⟨⟩
    charges := by constructor <;> decide
    records := by decide
    acceptances := ⟨by decide, by rintro _ ⟨⟩⟩
    qualifiedForks := by decide }

def wide : DecodeLimits := { bytes := 2 ^ 20, items := 2 ^ 10, depth := 12, nameBytes := 2 ^ 10, usize := by decide }

def word : Sizes := { slice := 16, op := 256, candidate := 512, acceptance := 1024, fork := 1024 }

/-- The second namespace is the first blob again. -/
theorem batch_round_trip_echoed :
    domain ++ [0, 32] ++ mark.val ++ [1] <+: encodePlan (holding echoed) echoed.descriptor echoed.plan ∧
      decodeBatch (encodePlan (holding echoed) echoed.descriptor echoed.plan) wide word =
        .ok (DecodedBatch.retain echoed (encodePlan (holding echoed) echoed.descriptor echoed.plan)) := by
  have htaken : taken (holding echoed) echoed.descriptor echoed.plan = echoed := taken_holding echoed
  have hreads : (decodeBatch (write start echoed).out wide word).toOption.isSome = true := by decide +kernel
  have hround := (batch_round_trip wide word).1 (holding echoed) echoed.descriptor echoed.plan
  rw [encodePlan_eq_write, htaken] at hround ⊢
  refine ⟨by decide +kernel, (hround echoed_inRange).resolve_left fun hfull => ?_⟩
  rw [hfull] at hreads
  cases hreads

end Glade.Recovery.Batch
