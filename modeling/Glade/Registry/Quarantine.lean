import Glade.Registry.Policy

/-! What becomes of a fold that a load closed (`policy_quarantined`,
`node/src/registry.rs`). The flag is the load's alone: a save writes only the ops
the load took, so the next load finds nothing to set aside, and the fold opens. It
stays closed to what the first snapshot's revocations forbid where the load took a
revocation of each pair they name. -/

namespace Glade.Registry

open Wire Node Grants

variable {C : Crypto}

/-! ### A registry and its store -/

/-- A registry, and the snapshot its store holds. -/
structure Desk (C : Crypto) where
  reg : Registry C
  stored : SystemSnapshot

/-- A change accepted, whose save may fail; or a reload of what is stored. -/
inductive Turn (C : Crypto) where
  | accept (change : Change C) (fails : Bool)
  | reload

/-- The desk that a boot of a snapshot starts with. -/
def Desk.loaded (me : NodeIdentity C) (snap : SystemSnapshot) : Desk C :=
  { reg := (fromSnapshotAs snap me).1, stored := snap }

/-- A change is staged on a copy, which becomes the registry once it is saved. -/
def Desk.turn (me : NodeIdentity C) (d : Desk C) : Turn C → Desk C
  | .accept change fails =>
    match change.stage d.reg with
    | .error _ => d
    | .ok (staged, _) =>
      if staged.changes = d.reg.changes then d
      else if fails then d
      else { reg := staged, stored := staged.snapshot }
  | .reload => { d with reg := (fromSnapshotAs d.stored me).1 }

/-- The desk after turns. -/
def Desk.turns (me : NodeIdentity C) (d : Desk C) (turns : List (Turn C)) : Desk C := turns.foldl (Desk.turn me) d

/-- Over a file, an accepted change is such a turn of the registry. -/
theorem accept_eq_turn (me : NodeIdentity C) (r : Registry C) (stored : SystemSnapshot) (file : Option Bytes)
    (seen : RecordsFile.Seen) (change : Change C) (fault : Option RecordsFile.Fault) :
    ∃ fails, (accept r file seen change fault).2.1 = (Desk.turn me { reg := r, stored } (.accept change fails)).reg := by
  unfold accept Desk.turn
  cases hstage : change.stage r with
  | error why => exact ⟨false, by simp [hstage]⟩
  | ok staged =>
    obtain ⟨staged, ops⟩ := staged
    dsimp only
    split_ifs with hsame
    · exact ⟨false, by simp [hstage, hsame]⟩
    · split
      · exact ⟨false, by simp [hstage, hsame]⟩
      · exact ⟨true, by simp [hstage]⟩

/-! ### What a snapshot forbids -/

/-- A revocation among the snapshot's records, taken at a load or not, names the pair. -/
def Forbids (snap : SystemSnapshot) (pair : String × String) : Prop :=
  ∃ bytes ∈ snap.records, ∃ op, decodeOp bytes = .ok op ∧ op.gladeId = gRevocations ∧
    ∃ t, readRecord op CapabilityRevocation.fromCbor = .ok t ∧ (t.principal, t.share) = pair

/-- The fold is closed, or lets through no pair that the snapshot forbids. -/
def Closed (snap : SystemSnapshot) (r : Registry C) : Prop :=
  ∀ p, r.policy = some p → ∀ pair, Forbids snap pair → ∀ verb, p.check pair.1 verb pair.2 ≠ .ok ()

/-- The registry holds a revocation of each pair that the snapshot forbids. -/
def Revokes (snap : SystemSnapshot) (r : Registry C) : Prop :=
  ∀ pair, Forbids snap pair → ∃ t, r.Holds gRevocations CapabilityRevocation.fromCbor t ∧ (t.principal, t.share) = pair

theorem Revokes.closed {snap : SystemSnapshot} {r : Registry C} (h : Revokes snap r) : Closed snap r := by
  intro p hp pair hforbids verb hok
  obtain ⟨t, ht, heq⟩ := h pair hforbids
  exact (Policy.check_eq_ok.mp hok).1 ((mem_policy hp pair).2.mpr ⟨t, ht, heq⟩)

theorem Revokes.of_ops {snap : SystemSnapshot} {r r' : Registry C} (h : Revokes snap r) (hops : r'.ops = r.ops) :
    Revokes snap r' := by
  intro pair hforbids
  obtain ⟨t, ht, heq⟩ := h pair hforbids
  refine ⟨t, ?_, heq⟩
  unfold Holds at ht ⊢
  rwa [hops]

/-- What a sound registry saves is loaded whole, and nothing is set aside. -/
theorem reload_of_sound {me : NodeIdentity C} {r : Registry C} (h : Sound me r) :
    (fromSnapshotAs r.snapshot me).1.ops = r.ops ∧ (fromSnapshotAs r.snapshot me).1.policyQuarantined = false := by
  obtain ⟨⟨s, A⟩, -⟩ := h
  obtain ⟨-, hops, -, -, -, -, hquarantined⟩ := load_shuffled A me ⟨.refl _, fun _ => rfl⟩ r.snapshot.heads none
  refine ⟨hops.trans ?_, hquarantined⟩
  rw [listed, List.filter_append, List.filter_eq_nil_iff.mpr, List.nil_append, List.filter_eq_self.mpr]
  · exact fun op hop => by simpa using (A.streams op hop).2
  · exact fun cp hcp => by simpa using (A.checkpoint_ops.1 cp hcp).1

/-! ### Runs -/

/-- A turn that saves nothing, or saves a revocation of each pair the snapshot forbids. -/
def Safe (snap : SystemSnapshot) (d : Desk C) : Turn C → Prop
  | .accept change fails =>
    fails = true ∨ ∀ staged ops, change.stage d.reg = .ok (staged, ops) →
      staged.changes = d.reg.changes ∨ Revokes snap staged
  | .reload => True

/-- Each turn of a run is safe where it is taken. -/
def AllSafe (me : NodeIdentity C) (snap : SystemSnapshot) (d : Desk C) : List (Turn C) → Prop
  | [] => True
  | turn :: turns => Safe snap d turn ∧ AllSafe me snap (d.turn me turn) turns

theorem sound_turn {me : NodeIdentity C} {d : Desk C} (h : Sound me d.reg) (turn : Turn C) : Sound me (d.turn me turn).reg := by
  cases turn with
  | reload => exact sound_fromSnapshotAs me d.stored
  | accept change fails =>
    unfold Desk.turn
    dsimp only
    cases hstage : change.stage d.reg with
    | error why => exact h
    | ok staged =>
      obtain ⟨staged, ops⟩ := staged
      dsimp only
      split_ifs
      · exact h
      · exact h
      · exact (Change.staged h hstage).sound

/-- What a run of safe turns keeps: the desk is as it was loaded, or what is stored
was saved with the revocations in it. -/
inductive Shut (me : NodeIdentity C) (snap : SystemSnapshot) : Desk C → Prop where
  | loaded : Shut me snap (.loaded me snap)
  | saved {d : Desk C} {r : Registry C} (hr : Sound me r) (hrevokes : Revokes snap r) (hstored : d.stored = r.snapshot)
      (hops : d.reg.ops = r.ops) : Shut me snap d

theorem Shut.closed {me : NodeIdentity C} {snap : SystemSnapshot} {d : Desk C} (h : Shut me snap d)
    (hquarantined : (fromSnapshotAs snap me).1.policyQuarantined = true) : Closed snap d.reg := by
  cases h with
  | loaded =>
    intro p hp
    have hnone : (Desk.loaded me snap).reg.policy = none := by
      unfold policy
      exact if_pos hquarantined
    rw [hnone] at hp
    cases hp
  | saved hr hrevokes hstored hops => exact (hrevokes.of_ops hops).closed

theorem Shut.turn {me : NodeIdentity C} {snap : SystemSnapshot} {d : Desk C} (h : Shut me snap d) (hsound : Sound me d.reg)
    {turn : Turn C} (hsafe : Safe snap d turn) : Shut me snap (d.turn me turn) := by
  cases turn with
  | reload =>
    cases h with
    | loaded => exact .loaded
    | saved hr hrevokes hstored hops =>
      unfold Desk.turn
      rw [hstored]
      exact .saved hr hrevokes rfl (reload_of_sound hr).1
  | accept change fails =>
    unfold Desk.turn
    dsimp only
    cases hstage : change.stage d.reg with
    | error why => exact h
    | ok staged =>
      obtain ⟨staged, ops⟩ := staged
      dsimp only
      split_ifs with hsame hfails
      · exact h
      · exact h
      · -- The change is saved, and the revocations with it.
        have hrevokes : Revokes snap staged := by
          obtain hf | hsaves := hsafe
          · exact absurd hf hfails
          · exact (hsaves staged ops hstage).resolve_left hsame
        exact .saved (Change.staged hsound hstage).sound hrevokes rfl rfl

theorem Shut.turns {me : NodeIdentity C} {snap : SystemSnapshot} {d : Desk C} (h : Shut me snap d) (hsound : Sound me d.reg)
    {turns : List (Turn C)} (hsafe : AllSafe me snap d turns) : Shut me snap (d.turns me turns) := by
  induction turns generalizing d with
  | nil => exact h
  | cons turn turns ih => exact ih (h.turn hsound hsafe.1) (sound_turn hsound turn) hsafe.2

def readGrant : CapabilityGrant := { principal := "p", share := "s", verbs := ["read"] }

def secondRevocation : CapabilityRevocation := { principal := "p", share := "s" }

/-- The records of a grant, and of the revocation of its pair. -/
def gappedSnap (a c : Op) : SystemSnapshot := { records := [a.encoding, c.encoding], heads := [], revision := none }

/-- A grant, and the revocation of its pair, which the load sets aside. -/
structure Gapped (me : NodeIdentity C) (a c : Op) : Prop where
  load : (fromSnapshotAs (gappedSnap a c) me).1 = { (sealedAs me).take a with policyQuarantined := true }
  stream : streamOf a = ⟨gGrants, me.name⟩
  grant : readRecord a CapabilityGrant.fromCbor = .ok readGrant
  gladeId : c.gladeId = gRevocations
  revocation : readRecord c CapabilityRevocation.fromCbor = .ok secondRevocation

/-- A first record of another stream is appended to what was loaded. -/
theorem Gapped.append {me : NodeIdentity C} {a c : Op} (h : Gapped me a c) (record : Record) (hgrants : record.gladeId ≠ gGrants)
    (hcheckpoints : record.gladeId ≠ gCheckpoints) (hfamily : Record.isBindingFamily record.gladeId = false)
    (hlen : (utf8 record.gladeId).length + record.encode.length < 2 ^ 60) :
    ∃ d, (Change.append record me.name fun _ => .done).stage (fromSnapshotAs (gappedSnap a c) me).1 =
        .ok ((fromSnapshotAs (gappedSnap a c) me).1.take d, [d]) ∧ ((fromSnapshotAs (gappedSnap a c) me).1.take d).ops = [a, d] ∧
      (fromSnapshotAs (gappedSnap a c) me).1.Written record me.name d := by
  obtain ⟨⟨s, A⟩, hme⟩ := sound_fromSnapshotAs me (gappedSnap a c)
  have htips : (fromSnapshotAs (gappedSnap a c) me).1.tips[(⟨record.gladeId, me.name⟩ : StreamId)]? = none := by
    rw [h.load]
    simp [Registry.take, h.stream, hgrants.symm, sealedAs, new]
  obtain ⟨d, -, happend⟩ := appendReturning_first A hme record hcheckpoints hfamily htips hlen
  refine ⟨d, ?_, ?_, (written_of_append happend).2.1⟩
  · unfold Change.stage
    rw [happend]
    rfl
  · rw [h.load]
    rfl

/-- The grant stands in a fold of it and of one more record, if that is no grant. -/
theorem Gapped.legible {me : NodeIdentity C} {a c d : Op} (h : Gapped me a c) {r : Registry C} (hops : r.ops = [a, d])
    (hgrants : d.gladeId ≠ gGrants) : r.Legible gGrants CapabilityGrant.fromCbor := by
  intro op hop hg
  rw [hops] at hop
  obtain rfl | hop := List.mem_cons.mp hop
  · exact ⟨readGrant, h.grant⟩
  · rw [List.mem_singleton.mp hop] at hg
    exact absurd hg hgrants

end Glade.Registry
