import Glade.Node.Grants
import Glade.Registry.Appends
import Glade.Registry.Durable

/-! The grant fold a registry gives the serve paths, and the grants it answers for
(`Registry::policy`, `grants_for`, `node/src/registry.rs`). The fold is made only
where every record of the two streams is read, and then the two decide alike. No
change takes a revocation out of a registry, so a revoked pair stays refused. -/

namespace Glade.Node.Grants.Policy

def empty : Policy := { granted := ∅, revoked := ∅ }

/-- Fold in a grant of `verbs` to `principal` on `share`. -/
def grant (p : Policy) (g : CapabilityGrant) : Policy :=
  { p with granted := p.granted.insert (g.principal, g.share) (p.granted.getD (g.principal, g.share) ∅ ∪ g.verbs.toFinset) }

/-- Fold in a revocation of `principal` on `share`. -/
def revoke (p : Policy) (t : CapabilityRevocation) : Policy :=
  { p with revoked := insert (t.principal, t.share) p.revoked }

theorem mem_granted_grant {p : Policy} {g : CapabilityGrant} {pair : String × String} {verb : String} :
    verb ∈ (p.grant g).granted.getD pair ∅ ↔
      verb ∈ p.granted.getD pair ∅ ∨ ((g.principal, g.share) = pair ∧ verb ∈ g.verbs) := by
  simp only [grant, Std.ExtTreeMap.getD_insert, Std.LawfulEqOrd.compare_eq_iff_eq]
  by_cases h : (g.principal, g.share) = pair
  · subst h
    simp
  · simp [h]

theorem mem_granted_foldl {p : Policy} {gs : List CapabilityGrant} {pair : String × String} {verb : String} :
    verb ∈ (gs.foldl grant p).granted.getD pair ∅ ↔
      verb ∈ p.granted.getD pair ∅ ∨ ∃ g ∈ gs, (g.principal, g.share) = pair ∧ verb ∈ g.verbs := by
  induction gs generalizing p with
  | nil => simp
  | cons g gs ih => simp [ih, mem_granted_grant, or_assoc]

theorem revoked_foldl_grant (p : Policy) (gs : List CapabilityGrant) : (gs.foldl grant p).revoked = p.revoked := by
  induction gs generalizing p with
  | nil => rfl
  | cons g gs ih => exact ih (p.grant g)

theorem granted_foldl_revoke (p : Policy) (ts : List CapabilityRevocation) :
    (ts.foldl revoke p).granted = p.granted := by
  induction ts generalizing p with
  | nil => rfl
  | cons t ts ih => exact ih (p.revoke t)

theorem mem_revoked_foldl {p : Policy} {ts : List CapabilityRevocation} {pair : String × String} :
    pair ∈ (ts.foldl revoke p).revoked ↔ pair ∈ p.revoked ∨ ∃ t ∈ ts, (t.principal, t.share) = pair := by
  induction ts generalizing p with
  | nil => simp
  | cons t ts ih =>
    simp only [List.foldl_cons, ih, revoke, Finset.mem_insert, List.exists_mem_cons_iff, eq_comm]
    tauto

theorem check_eq_ok {p : Policy} {principal verb share : String} :
    p.check principal verb share = .ok () ↔
      (principal, share) ∉ p.revoked ∧ ∃ granted ∈ p.granted.getD (principal, share) ∅, admits granted verb = true := by
  unfold check
  split_ifs with hr hg
  · simp [hr]
  · simp [hr, hg]
  · simp [hr, iff_false_intro hg]

end Glade.Node.Grants.Policy

namespace Glade.Registry

open Wire Node Grants

variable {C : Crypto}

/-! ### The two folds -/

/-- Each op's record, where every one is read. -/
def readAll {α : Type} (from_ : Cbor → Except DecodeError α) (ops : List Op) : Option (List α) :=
  ops.mapM fun o => (readRecord o from_).toOption

/-- The grant fold the serve paths check: none where a load set a grant or a
revocation aside, or one cannot be read. -/
def policy (r : Registry C) : Option Policy :=
  if r.policyQuarantined then none
  else do
    let grants ← readAll CapabilityGrant.fromCbor (r.foldIter gGrants)
    let revocations ← readAll CapabilityRevocation.fromCbor (r.foldIter gRevocations)
    return revocations.foldl Policy.revoke (grants.foldl Policy.grant .empty)

/-- Whether an op's record revokes a pair, or may: one that cannot be read does. -/
def mayRevoke (principal share : String) (op : Op) : Bool :=
  match readRecord op CapabilityRevocation.fromCbor with
  | .ok t => t.principal = principal ∧ t.share = share
  | .error _ => true

def grantsFor (r : Registry C) (principal share : String) : List String :=
  if (r.foldIter gRevocations).any (mayRevoke principal share) then []
  else
    let grants := (r.foldIter gGrants).filterMap fun o => folded o CapabilityGrant.fromCbor
    let verbs := (grants.filter (fun g => g.principal = principal ∧ g.share = share)).flatMap (·.verbs)
    (verbs.insertionSort (· ≤ ·)).dedup

/-! ### What they read -/

theorem mem_foldIter {r : Registry C} {gladeId : String} {op : Op} :
    op ∈ r.foldIter gladeId ↔ op ∈ r.ops ∧ op.gladeId = gladeId := by
  simp [foldIter]

/-- Whether a registry holds a record of a stream. -/
def Holds {α : Type} (r : Registry C) (gladeId : String) (from_ : Cbor → Except DecodeError α) (a : α) : Prop :=
  ∃ op ∈ r.ops, op.gladeId = gladeId ∧ readRecord op from_ = .ok a

theorem readAll_eq_some {α : Type} {from_ : Cbor → Except DecodeError α} {ops : List Op} {as : List α}
    (h : readAll from_ ops = some as) :
    (∀ op ∈ ops, ∃ a, readRecord op from_ = .ok a) ∧ ∀ a, a ∈ as ↔ ∃ op ∈ ops, readRecord op from_ = .ok a := by
  unfold readAll at h
  induction ops generalizing as with
  | nil =>
    obtain rfl := Option.some.inj h
    simp
  | cons op ops ih =>
    rw [List.mapM_cons] at h
    cases hr : readRecord op from_ with
    | error why =>
      rw [hr] at h
      cases h
    | ok a =>
      rw [hr] at h
      cases hrest : ops.mapM fun o => (readRecord o from_).toOption with
      | none =>
        rw [hrest] at h
        cases h
      | some as' =>
        rw [hrest] at h
        obtain rfl := Option.some.inj h
        obtain ⟨hall, hmem⟩ := ih hrest
        refine ⟨?_, fun b => ?_⟩
        · simpa [hr] using hall
        · simp [hmem, hr, eq_comm]

theorem readAll_isSome {α : Type} {from_ : Cbor → Except DecodeError α} {ops : List Op}
    (h : ∀ op ∈ ops, ∃ a, readRecord op from_ = .ok a) : ∃ as, readAll from_ ops = some as := by
  unfold readAll
  induction ops with
  | nil => exact ⟨[], rfl⟩
  | cons op ops ih =>
    obtain ⟨a, ha⟩ := h op (by simp)
    obtain ⟨as, has⟩ := ih fun o ho => h o (by simp [ho])
    refine ⟨a :: as, ?_⟩
    rw [List.mapM_cons, ha, has]
    rfl

/-- Whether every record of a stream is read. -/
def Legible {α : Type} (r : Registry C) (gladeId : String) (from_ : Cbor → Except DecodeError α) : Prop :=
  ∀ op ∈ r.ops, op.gladeId = gladeId → ∃ a, readRecord op from_ = .ok a

theorem policy_isSome {r : Registry C} :
    r.policy.isSome ↔ r.policyQuarantined = false ∧ r.Legible gGrants CapabilityGrant.fromCbor ∧
      r.Legible gRevocations CapabilityRevocation.fromCbor := by
  unfold policy
  cases hq : r.policyQuarantined with
  | true => simp
  | false =>
    simp only [Bool.false_eq_true, if_false, true_and]
    constructor
    · intro h
      cases hg : readAll CapabilityGrant.fromCbor (r.foldIter gGrants) with
      | none => simp [hg] at h
      | some grants =>
        cases hr : readAll CapabilityRevocation.fromCbor (r.foldIter gRevocations) with
        | none => simp [hg, hr] at h
        | some revocations =>
          exact ⟨fun op hop h => (readAll_eq_some hg).1 op (mem_foldIter.mpr ⟨hop, h⟩),
            fun op hop h => (readAll_eq_some hr).1 op (mem_foldIter.mpr ⟨hop, h⟩)⟩
    · rintro ⟨hg, hr⟩
      obtain ⟨grants, hg⟩ := readAll_isSome fun op hop => hg op (mem_foldIter.mp hop).1 (mem_foldIter.mp hop).2
      obtain ⟨revocations, hr⟩ := readAll_isSome fun op hop => hr op (mem_foldIter.mp hop).1 (mem_foldIter.mp hop).2
      simp [hg, hr]

/-- The fold holds the verbs granted and the pairs revoked, and nothing else. -/
theorem mem_policy {r : Registry C} {p : Policy} (h : r.policy = some p) (pair : String × String) :
    (∀ verb, verb ∈ p.granted.getD pair ∅ ↔
      ∃ g, r.Holds gGrants CapabilityGrant.fromCbor g ∧ (g.principal, g.share) = pair ∧ verb ∈ g.verbs) ∧
    (pair ∈ p.revoked ↔ ∃ t, r.Holds gRevocations CapabilityRevocation.fromCbor t ∧ (t.principal, t.share) = pair) := by
  unfold policy at h
  split_ifs at h with hq
  cases hg : readAll CapabilityGrant.fromCbor (r.foldIter gGrants) with
  | none =>
    rw [hg] at h
    cases h
  | some grants =>
    cases hr : readAll CapabilityRevocation.fromCbor (r.foldIter gRevocations) with
    | none =>
      rw [hg, hr] at h
      cases h
    | some revocations =>
      rw [hg, hr] at h
      obtain rfl := Option.some.inj h
      have hgrants := (readAll_eq_some hg).2
      have hrevocations := (readAll_eq_some hr).2
      simp only [mem_foldIter, and_assoc] at hgrants hrevocations
      refine ⟨fun verb => ?_, ?_⟩
      · rw [Policy.granted_foldl_revoke, Policy.mem_granted_foldl]
        simp [Policy.empty, hgrants, Holds]
      · rw [Policy.mem_revoked_foldl, Policy.revoked_foldl_grant]
        simp [Policy.empty, hrevocations, Holds]

/-- What the registry answers for, where its revocations are all read. -/
theorem mem_grantsFor {r : Registry C} (h : r.Legible gRevocations CapabilityRevocation.fromCbor)
    {principal share verb : String} :
    verb ∈ r.grantsFor principal share ↔
      (¬ ∃ t, r.Holds gRevocations CapabilityRevocation.fromCbor t ∧ (t.principal, t.share) = (principal, share)) ∧
      ∃ g, r.Holds gGrants CapabilityGrant.fromCbor g ∧ (g.principal, g.share) = (principal, share) ∧ verb ∈ g.verbs := by
  have hrevoked : (r.foldIter gRevocations).any (mayRevoke principal share) = true ↔
      ∃ t, r.Holds gRevocations CapabilityRevocation.fromCbor t ∧ (t.principal, t.share) = (principal, share) := by
    rw [List.any_eq_true]
    constructor
    · rintro ⟨op, hop, hmay⟩
      obtain ⟨hop, hg⟩ := mem_foldIter.mp hop
      obtain ⟨t, ht⟩ := h op hop hg
      rw [mayRevoke, ht] at hmay
      exact ⟨t, ⟨op, hop, hg, ht⟩, by simpa using hmay⟩
    · rintro ⟨t, ⟨op, hop, hg, ht⟩, heq⟩
      refine ⟨op, mem_foldIter.mpr ⟨hop, hg⟩, ?_⟩
      rw [mayRevoke, ht]
      simpa using heq
  have hfolded : ∀ (op : Op) (g : CapabilityGrant),
      folded op CapabilityGrant.fromCbor = some g ↔ readRecord op CapabilityGrant.fromCbor = .ok g := by
    intro op g
    unfold folded
    cases readRecord op CapabilityGrant.fromCbor <;> simp
  unfold grantsFor
  rw [← hrevoked]
  split_ifs with hr
  · simp [hr]
  · rw [and_iff_right hr]
    simp only [List.mem_dedup, List.mem_insertionSort, List.mem_flatMap, List.mem_filter, List.mem_filterMap,
      mem_foldIter, hfolded, decide_eq_true_iff, Holds, Prod.mk.injEq]
    constructor
    · rintro ⟨g, ⟨⟨op, ⟨hop, hg⟩, hread⟩, heq⟩, hv⟩
      exact ⟨g, ⟨op, hop, hg, hread⟩, heq, hv⟩
    · rintro ⟨g, ⟨op, hop, hg, hread⟩, heq, hv⟩
      exact ⟨g, ⟨⟨op, ⟨hop, hg⟩, hread⟩, heq⟩, hv⟩

/-! ### Accepted changes -/

/-- One change of a directory, accepted or not. -/
def AcceptStep (r r' : Registry C) : Prop :=
  ∃ file seen change fault, r' = (accept r file seen change fault).2.1

/-- Any sequence of changes. -/
def Reaches : Registry C → Registry C → Prop := Relation.ReflTransGen AcceptStep

/-- What an ingest or an append leaves of the ops no checkpoint folds. -/
theorem mem_ops_of_link {r r' : Registry C} {op : Op} {answer : Ingested} (h : r.link op = .ok (answer, r')) {held : Op}
    (hheld : held ∈ r.ops) (hg : held.gladeId ≠ gClaims) : held ∈ r'.ops := by
  obtain rfl | ⟨-, rfl⟩ | ⟨floor, -, rfl⟩ := link_cases h
  · exact hheld
  · exact List.mem_append_left _ hheld
  · refine List.mem_filter.mpr ⟨hheld, ?_⟩
    simp [hg]

theorem link_of_ingest {r r' : Registry C} {op : Op} {answer : Ingested} (h : r.ingest op = .ok (answer, r')) :
    r.link op = .ok (answer, r') := by
  unfold ingest at h
  split at h
  · split at h
    · cases h
    · exact h
  · split at h
    · cases h
    · exact h

/-- What every step of a change keeps, a change keeps. -/
theorem stage_induct {P : Registry C → Prop}
    (hlink : ∀ (r : Registry C) (op : Op) (answer : Ingested) (r' : Registry C), P r → r.link op = .ok (answer, r') → P r')
    {change : Change C} {r : Registry C} (h : P r) {staged : Registry C} {ops : List Op}
    (hstage : change.stage r = .ok (staged, ops)) : P staged := by
  induction change generalizing r ops with
  | done =>
    obtain ⟨rfl, -⟩ := Prod.mk.inj (Except.ok.inj hstage)
    exact h
  | refuse why => cases hstage
  | look next ih => exact ih r h hstage
  | append record origin next ih =>
    unfold Change.stage at hstage
    split at hstage
    case h_1 op r' happend =>
      obtain ⟨-, -, answer, hl⟩ := written_of_append happend
      split at hstage
      case h_1 staged' ops' hnext =>
        obtain ⟨rfl, -⟩ := Prod.mk.inj (Except.ok.inj hstage)
        exact ih _ (hlink r op answer r' h hl) hnext
      case h_2 => cases hstage
    case h_2 why _ => exact ih _ h hstage
  | ingest op next ih =>
    unfold Change.stage at hstage
    split at hstage
    case h_1 answer r' hing => exact ih _ (hlink r op answer r' h (link_of_ingest hing)) hstage
    case h_2 why _ => exact ih _ h hstage

theorem reaches_induct {P : Registry C → Prop}
    (hlink : ∀ (r : Registry C) (op : Op) (answer : Ingested) (r' : Registry C), P r → r.link op = .ok (answer, r') → P r')
    {r r' : Registry C} (h : P r) (hr : Reaches r r') : P r' := by
  induction hr with
  | refl => exact h
  | tail _ hstep ih =>
    obtain ⟨file, seen, change, fault, rfl⟩ := hstep
    unfold accept
    split
    case h_1 => exact ih
    case h_2 staged ops hstage =>
      have hstaged := stage_induct hlink ih hstage
      split_ifs
      · exact ih
      · split
        · exact hstaged
        · exact ih

/-- What a registry was loaded from keeps to claims chains too. -/
theorem plain_load (identity : Option (NodeIdentity C)) (snap : SystemSnapshot) : ((fresh identity).load snap).1.Plain := by
  have hfold : ∀ (ops : List Op) (st : Loading C), st.reg.Plain → (ops.foldl Loading.take st).reg.Plain := by
    intro ops
    induction ops with
    | nil => exact fun _ h => h
    | cons op ops ih =>
      intro st h
      refine ih _ ?_
      unfold Loading.take
      split_ifs
      · exact h
      · split
        case h_1 answer reg hing => exact h.link (link_of_ingest hing)
        case h_2 => exact h
  unfold load
  exact hfold _ _ (plain_fresh identity)

theorem Plain.reaches {r r' : Registry C} (h : r.Plain) (hr : Reaches r r') : r'.Plain :=
  reaches_induct (fun _ _ _ _ hp hl => hp.link hl) h hr

/-- A record no checkpoint folds stays, whatever is accepted. -/
theorem Holds.reaches {α : Type} {r r' : Registry C} {gladeId : String} {from_ : Cbor → Except DecodeError α} {a : α}
    (hg : gladeId ≠ gClaims) (h : r.Holds gladeId from_ a) (hr : Reaches r r') : r'.Holds gladeId from_ a :=
  reaches_induct (P := fun r => r.Holds gladeId from_ a)
    (fun r op answer r' h hl => by
      obtain ⟨held, hheld, hstream, hread⟩ := h
      exact ⟨held, mem_ops_of_link hl hheld (hstream ▸ hg), hstream, hread⟩) h hr

/-- An appended revocation is held. -/
theorem holds_of_append {r r' : Registry C} (hr : r.Plain) {t : CapabilityRevocation} {origin : String} {op : Op}
    (h : r.appendReturning (.revoke t) origin = .ok (op, r')) :
    r'.Holds gRevocations CapabilityRevocation.fromCbor t := by
  obtain ⟨-, hw, -⟩ := written_of_append h
  rw [take_of_append hr h (show gRevocations ≠ gCheckpoints by decide) (show gRevocations ≠ gClaims by decide)]
  refine ⟨op, List.mem_append_right _ (List.mem_singleton_self op), hw.gladeId_eq, ?_⟩
  rw [hw.readRecord_eq]
  rfl

/-- An ingested revocation is held. -/
theorem holds_of_ingest {r r' : Registry C} {t : CapabilityRevocation} {op : Op}
    (h : r.ingest op = .ok (.appended, r')) (hg : op.gladeId = gRevocations)
    (hread : readRecord op CapabilityRevocation.fromCbor = .ok t) :
    r'.Holds gRevocations CapabilityRevocation.fromCbor t := by
  have hcp : op.gladeId ≠ gCheckpoints := by
    rw [hg]
    decide
  have hl := link_of_ingest h
  by_cases hx : r.Extends op
  · rw [link_of_extends hcp hx] at hl
    obtain ⟨-, rfl⟩ := Prod.mk.inj (Except.ok.inj hl)
    exact ⟨op, List.mem_append_right _ (List.mem_singleton_self op), hg, hread⟩
  · obtain ⟨e, hk⟩ | hk | hk := kept_link_of_not_extends hcp hx <;> rw [hk] at hl <;> cases hl

/-! ### The check -/

/-- The view the serve paths ask of a registry's fold. -/
def viewOf (r : Registry C) (generation : ℕ) : PolicyView := { generation, fold := r.policy }

theorem check_eq_ok {view : PolicyView} {holder : Holder} {verb share : String} :
    view.check holder verb share = .ok () ↔
      ∃ p name, view.fold = some p ∧ grantName holder = some name ∧ p.check name verb share = .ok () := by
  unfold PolicyView.check
  cases view.fold with
  | none => simp
  | some p => cases grantName holder <;> simp

/-- A pair whose revocation a registry holds is never let through. -/
theorem check_revoked {r : Registry C} {t : CapabilityRevocation}
    (h : r.Holds gRevocations CapabilityRevocation.fromCbor t) (generation : ℕ) {holder : Holder}
    (hname : grantName holder = some t.principal) (verb : String) :
    (r.viewOf generation).check holder verb t.share ≠ .ok () := by
  intro hok
  obtain ⟨p, name, hp, hn, hc⟩ := check_eq_ok.mp hok
  obtain rfl : t.principal = name := Option.some.inj (hname.symm.trans hn)
  exact (Policy.check_eq_ok.mp hc).1 ((mem_policy hp _).2.mpr ⟨t, h, rfl⟩)

theorem all_digits {b bs : Bytes} (h : unhex b = some bs) : b.all (fun c => (digit c).isSome) = true := by
  induction b using unhex.induct generalizing bs with
  | case1 => rfl
  | case2 => cases h
  | case3 hi lo rest ih =>
    simp only [unhex, Option.bind_eq_bind, Option.bind_eq_some_iff] at h
    obtain ⟨n, hn, m, hm, bs', hrest, -⟩ := h
    simp [hn, hm, ih hrest]

/-- A node's name is written as a node's id, so it is no principal's. -/
theorem namesANode_hex (id : Bytes32) : namesANode (hex id) = true := by
  unfold namesANode
  rw [length_utf8_hex, id.2, all_digits (unhex_utf8_hex id)]
  rfl

/-- Whether an op's record names a node's id. -/
def NamesANode (op : Op) : Prop :=
  (op.gladeId = gGrants ∧ ∃ g, readRecord op CapabilityGrant.fromCbor = .ok g ∧ namesANode g.principal = true) ∨
    (op.gladeId = gRevocations ∧ ∃ t, readRecord op CapabilityRevocation.fromCbor = .ok t ∧ namesANode t.principal = true)

/-- Two registries that differ only by records that name node ids. -/
def SameButNodes (r r' : Registry C) : Prop :=
  r.policyQuarantined = r'.policyQuarantined ∧ ∀ op, ¬ NamesANode op → (op ∈ r.ops ↔ op ∈ r'.ops)

theorem SameButNodes.symm {r r' : Registry C} (h : SameButNodes r r') : SameButNodes r' r :=
  ⟨h.1.symm, fun op hop => (h.2 op hop).symm⟩

theorem SameButNodes.legible {r r' : Registry C} (h : SameButNodes r r')
    (hr : r.Legible gGrants CapabilityGrant.fromCbor ∧ r.Legible gRevocations CapabilityRevocation.fromCbor) :
    r'.Legible gGrants CapabilityGrant.fromCbor ∧ r'.Legible gRevocations CapabilityRevocation.fromCbor := by
  constructor
  · intro op hop hg
    by_cases hn : NamesANode op
    · obtain ⟨-, g, hread, -⟩ | ⟨hg', -⟩ := hn
      · exact ⟨g, hread⟩
      · exact absurd (hg.symm.trans hg') (by decide)
    · exact hr.1 op ((h.2 op hn).mpr hop) hg
  · intro op hop hg
    by_cases hn : NamesANode op
    · obtain ⟨hg', -⟩ | ⟨-, t, hread, -⟩ := hn
      · exact absurd (hg.symm.trans hg') (by decide)
      · exact ⟨t, hread⟩
    · exact hr.2 op ((h.2 op hn).mpr hop) hg

/-- They hold the same grants and revocations of a name that is no node's id. -/
theorem SameButNodes.holds {r r' : Registry C} (h : SameButNodes r r') {name : String} (hname : ¬ namesANode name = true) :
    (∀ g, g.principal = name → r.Holds gGrants CapabilityGrant.fromCbor g → r'.Holds gGrants CapabilityGrant.fromCbor g) ∧
    (∀ t, t.principal = name → r.Holds gRevocations CapabilityRevocation.fromCbor t →
      r'.Holds gRevocations CapabilityRevocation.fromCbor t) := by
  constructor
  · rintro g rfl ⟨op, hop, hg, hread⟩
    refine ⟨op, (h.2 op ?_).mp hop, hg, hread⟩
    rintro (⟨-, g', hread', hn⟩ | ⟨hg', -⟩)
    · obtain rfl : g = g' := Except.ok.inj (hread.symm.trans hread')
      exact hname hn
    · exact absurd (hg.symm.trans hg') (by decide)
  · rintro t rfl ⟨op, hop, hg, hread⟩
    refine ⟨op, (h.2 op ?_).mp hop, hg, hread⟩
    rintro (⟨hg', -⟩ | ⟨-, t', hread', hn⟩)
    · exact absurd (hg.symm.trans hg') (by decide)
    · obtain rfl : t = t' := Except.ok.inj (hread.symm.trans hread')
      exact hname hn

/-- No record that names a node changes an answer to a principal. -/
theorem SameButNodes.check_eq {r r' : Registry C} (h : SameButNodes r r') (generation : ℕ) (name verb share : String) :
    (r.viewOf generation).check (.principal name) verb share =
      (r'.viewOf generation).check (.principal name) verb share := by
  have hsome : r.policy.isSome ↔ r'.policy.isSome := by
    rw [policy_isSome, policy_isSome, h.1]
    exact and_congr_right fun _ => ⟨h.legible, h.symm.legible⟩
  unfold PolicyView.check viewOf
  cases hp : r.policy with
  | none =>
    cases hp' : r'.policy with
    | none => rfl
    | some p' => simp [hp, hp'] at hsome
  | some p =>
    cases hp' : r'.policy with
    | none => simp [hp, hp'] at hsome
    | some p' =>
      by_cases hname : namesANode name = true
      · have hnone : grantName (.principal name) = none := if_pos hname
        simp only [hnone]
      · have hself : grantName (.principal name) = some name := if_neg hname
        obtain ⟨hgrants, hrevoked⟩ := mem_policy hp (name, share)
        obtain ⟨hgrants', hrevoked'⟩ := mem_policy hp' (name, share)
        obtain ⟨hg, ht⟩ := h.holds hname
        obtain ⟨hg', ht'⟩ := h.symm.holds hname
        have hsame : ∀ verb, verb ∈ p.granted.getD (name, share) ∅ ↔ verb ∈ p'.granted.getD (name, share) ∅ := by
          intro verb
          rw [hgrants, hgrants']
          constructor
          · rintro ⟨g, hheld, heq, hv⟩
            exact ⟨g, hg g (Prod.mk.inj heq).1 hheld, heq, hv⟩
          · rintro ⟨g, hheld, heq, hv⟩
            exact ⟨g, hg' g (Prod.mk.inj heq).1 hheld, heq, hv⟩
        have hsame' : (name, share) ∈ p.revoked ↔ (name, share) ∈ p'.revoked := by
          rw [hrevoked, hrevoked']
          constructor
          · rintro ⟨t, hheld, heq⟩
            exact ⟨t, ht t (Prod.mk.inj heq).1 hheld, heq⟩
          · rintro ⟨t, hheld, heq⟩
            exact ⟨t, ht' t (Prod.mk.inj heq).1 hheld, heq⟩
        simp only [hself, Policy.check, hsame, hsame']

/-- The check at the serve hop is the registry's answer: it lets a holder through
exactly where a grant of the holder's name has a verb that admits the one asked
for. What is revoked stays refused, whatever is accepted after. And what names
node ids is nothing to a principal, whatever name it takes. -/
theorem grant_check (C : Crypto) :
    (∀ (r : Registry C) (p : Policy), r.policy = some p → ∀ (generation : ℕ) (holder : Holder) (verb share : String),
      ({ generation, fold := some p } : PolicyView).check holder verb share = .ok () ↔
        ∃ name, grantName holder = some name ∧ ∃ granted ∈ r.grantsFor name share, admits granted verb = true) ∧
    (∀ (id : Bytes32) (name : String), grantName (.node id) = some (hex id) ∧
      grantName (.principal (hex id)) = none ∧ grantName (.principal name) ≠ some (hex id)) ∧
    (∀ (identity : Option (NodeIdentity C)) (snap : SystemSnapshot) (r r' : Registry C) (t : CapabilityRevocation),
      Reaches ((fresh identity).load snap).1 r →
      (∃ origin op, r.appendReturning (.revoke t) origin = .ok (op, r')) ∨
        (∃ op, r.ingest op = .ok (.appended, r') ∧ op.gladeId = gRevocations ∧
          readRecord op CapabilityRevocation.fromCbor = .ok t) →
      ∀ later, Reaches r' later → ∀ (generation : ℕ) (holder : Holder) (verb : String),
        grantName holder = some t.principal → (later.viewOf generation).check holder verb t.share ≠ .ok ()) ∧
    (∀ (r r' : Registry C), SameButNodes r r' → ∀ (generation : ℕ) (name verb share : String),
      (r.viewOf generation).check (.principal name) verb share =
        (r'.viewOf generation).check (.principal name) verb share) := by
  refine ⟨fun r p hp generation holder verb share => ?_, fun id name => ?_,
    fun identity snap r r' t hreach haccepted later hlater generation holder verb hname => ?_,
    fun r r' h generation name verb share => h.check_eq generation name verb share⟩
  · have hlegible := (policy_isSome.mp (by rw [hp]; rfl)).2.2
    rw [check_eq_ok]
    constructor
    · rintro ⟨p', name, heq, hname, hc⟩
      obtain rfl := Option.some.inj heq
      obtain ⟨hrevoked, granted, hgranted, hadmits⟩ := Policy.check_eq_ok.mp hc
      refine ⟨name, hname, granted, (mem_grantsFor hlegible).mpr ⟨?_, ((mem_policy hp _).1 _).mp hgranted⟩, hadmits⟩
      rwa [← (mem_policy hp _).2]
    · rintro ⟨name, hname, granted, hgranted, hadmits⟩
      obtain ⟨hrevoked, hheld⟩ := (mem_grantsFor hlegible).mp hgranted
      refine ⟨p, name, rfl, hname, Policy.check_eq_ok.mpr ⟨?_, granted, ((mem_policy hp _).1 _).mpr hheld, hadmits⟩⟩
      rwa [(mem_policy hp _).2]
  · refine ⟨rfl, if_pos (namesANode_hex id), fun h => ?_⟩
    unfold grantName at h
    dsimp only at h
    split_ifs at h with hn
    obtain rfl := Option.some.inj h
    exact hn (namesANode_hex id)
  · have hr := (plain_load identity snap).reaches hreach
    have hheld : r'.Holds gRevocations CapabilityRevocation.fromCbor t := by
      rcases haccepted with ⟨origin, op, happend⟩ | ⟨op, hing, hg, hread⟩
      · exact holds_of_append hr happend
      · exact holds_of_ingest hing hg hread
    exact check_revoked (hheld.reaches (by decide) hlater) generation hname verb

end Glade.Registry
