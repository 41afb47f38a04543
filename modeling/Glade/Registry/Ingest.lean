import Glade.Store.ChainInvariant

/-! The node's registry (`node/src/registry.rs`): the valid op-set in the order it
was taken, each chain's tip, and the register of checkpoints, with the checks an
ingested op passes and the ops a node appends itself. -/

namespace Glade

open Wire Node

namespace Registry

/-- A directory chain: a stream and an origin. -/
structure StreamId where
  stream : String
  origin : String
  deriving DecidableEq

namespace StreamId

instance : Ord StreamId where
  compare := compareLex (compareOn stream) (compareOn origin)

instance : Std.TransOrd StreamId := inferInstanceAs (Std.TransCmp (compareLex (compareOn stream) (compareOn origin)))

instance : Std.LawfulEqOrd StreamId where
  compare_self := Std.ReflCmp.compare_self
  eq_of_compare := by
    intro a b h
    change compareLex _ _ a b = .eq at h
    simp only [compareLex, compareOn, Ordering.then_eq_eq, Std.LawfulEqOrd.compare_eq_iff_eq] at h
    cases a
    cases b
    simp_all

end StreamId

def streamOf (op : Op) : StreamId := { stream := op.gladeId, origin := op.origin }

/-- Why an op was refused. `panicked` is no answer of the source's: it stands for
the node stopping, where the op's seq or its bytes would overflow. -/
inductive RegistryError where
  | gap (expected got : ℤ)
  | chainBreak (origin : String) (seq : ℤ)
  | equivocation (origin : String) (seq : ℤ)
  | unverified (origin : String) (why : Refused)
  | notOurs (origin : String)
  | malformed (origin : String) (why : DecodeError)
  | rewrite (origin : String) (seq : ℤ)
  | panicked
  deriving DecidableEq

/-- Where an ingested op landed. -/
inductive Ingested where
  | appended
  | duplicate
  | covered
  deriving DecidableEq

end Registry

structure Registry (C : Crypto) where
  /-- The valid op-set, in ingest order. -/
  ops : List Op
  /-- Each chain's last seq and hash, or its floor while it holds no op above it. -/
  tips : Std.ExtTreeMap Registry.StreamId Floor
  /-- The newest checkpoint of each chain and the floor it gives. -/
  checkpoints : Std.ExtTreeMap Registry.StreamId (Op × Floor)
  /-- How many ops and checkpoints were taken. -/
  changes : ℕ
  policyQuarantined : Bool
  /-- The node this registry appends as and seals for, when it is sealed. -/
  identity : Option (NodeIdentity C)

namespace Registry

variable {C : Crypto}

/-- A fresh registry, unsealed. -/
def new : Registry C :=
  { ops := [], tips := ∅, checkpoints := ∅, changes := 0, policyQuarantined := false, identity := none }

/-- A fresh registry sealed as `me`. -/
def sealedAs (me : NodeIdentity C) : Registry C := { (new : Registry C) with identity := some me }

/-! ### Ingest -/

/-- Whether the op-set holds `op`, byte for byte, at its position. -/
def holds (r : Registry C) (op : Op) : Bool :=
  match r.ops.find? (fun held => held.gladeId = op.gladeId ∧ held.origin = op.origin ∧ held.seq = op.seq) with
  | some held => opHash C held = opHash C op
  | none => false

/-- Take `op` at the end of its chain. -/
def take (r : Registry C) (op : Op) : Registry C :=
  { r with
    ops := r.ops ++ [op]
    tips := r.tips.insert (streamOf op) (op.seq, opHash C op)
    changes := r.changes + 1 }

/-- The chain's own rules, for an op above its floor. -/
def extend (r : Registry C) (op : Op) : Except RegistryError (Ingested × Registry C) :=
  match r.tips[streamOf op]? with
  | some tip =>
    if op.seq ≤ tip.1 then
      if r.holds op then .ok (.duplicate, r) else .error (.equivocation op.origin op.seq)
    else if op.seq ≠ tip.1 + 1 then .error (.gap (tip.1 + 1) op.seq)
    else
      match op.prev with
      | some prev => if prev ≠ tip.2.val then .error (.chainBreak op.origin op.seq) else .ok (.appended, r.take op)
      | none => .ok (.appended, r.take op)
  | none => if op.seq ≠ 0 then .error (.gap 0 op.seq) else .ok (.appended, r.take op)

/-- The registry with the checkpoint `op` placed at `floor` of `chain`. -/
def placed (r : Registry C) (op : Op) (chain : StreamId) (floor : Floor) : Registry C :=
  let named := fun held : Op => held.gladeId = chain.stream ∧ held.origin = chain.origin
  let tip := r.tips.getD chain floor
  let tips := r.tips.insert chain (if tip.1 ≤ floor.1 then floor else tip)
  { r with
    ops := r.ops.filter (fun held => ¬ named held ∨ floor.1 < held.seq)
    tips := tips.insert { stream := gCheckpoints, origin := op.origin } (op.seq, opHash C op)
    checkpoints := r.checkpoints.insert chain (op, floor)
    changes := r.changes + 1 }

/-- Place `op`, a checkpoint, in the register. -/
def place (r : Registry C) (op : Op) : Except RegistryError (Ingested × Registry C) :=
  match check op with
  | .error why => .error (.unverified op.origin why)
  | .ok { stream, floor } =>
    let chain : StreamId := { stream, origin := op.origin }
    match placement C (op, floor) r.checkpoints[chain]? with
    | .duplicate => .ok (.duplicate, r)
    | .seen => .ok (.covered, r)
    | .fork => .error (.equivocation op.origin op.seq)
    | .chainBreak => .error (.chainBreak op.origin op.seq)
    | .rewrite => .error (.rewrite op.origin op.seq)
    | .placed =>
      let atBase := r.ops.find? (fun held =>
        (held.gladeId = chain.stream ∧ held.origin = chain.origin) ∧ held.seq = floor.1)
      if atBase.any (fun held => against C floor held = .fork) then .error (.equivocation op.origin floor.1)
      else .ok (.appended, r.placed op chain floor)

/-- The chain checks of an op verified before or built here. -/
def link (r : Registry C) (op : Op) : Except RegistryError (Ingested × Registry C) :=
  if op.gladeId = gCheckpoints then r.place op
  else
    match r.checkpoints[streamOf op]? with
    | some (_, floor) =>
      match against C floor op with
      | .above => r.extend op
      | .covered => .ok (.covered, r)
      | .fork => .error (.equivocation op.origin op.seq)
    | none => r.extend op

/-- Take in an op, which a sealed registry verifies and any other reads. -/
def ingest (r : Registry C) (op : Op) : Except RegistryError (Ingested × Registry C) :=
  match r.identity with
  | some _ =>
    match verify C op with
    | .error why => .error (.unverified op.origin why)
    | .ok () => r.link op
  | none =>
    match tryDecode (recordBytes op.payload) with
    | .error why => .error (.malformed op.origin why)
    | .ok _ => r.link op

/-- The registry after an ingest, which a refused op leaves as it was. -/
def ingested (r : Registry C) (op : Op) : Registry C :=
  match r.ingest op with
  | .ok (_, r') => r'
  | .error _ => r

/-- The answer of an ingest. -/
def answer (r : Registry C) (op : Op) : Except RegistryError Ingested := (r.ingest op).map Prod.fst

/-! ### Reading a chain -/

/-- The fold's order: by origin, then by seq. -/
def foldOrder (a b : Op) : Prop := a.origin < b.origin ∨ (a.origin = b.origin ∧ a.seq ≤ b.seq)

instance : DecidableRel foldOrder := fun _ _ => inferInstanceAs (Decidable (_ ∨ _))

instance : Std.Total foldOrder where
  total a b := by
    rcases lt_trichotomy a.origin b.origin with h | h | h
    · exact .inl (.inl h)
    · rcases le_total a.seq b.seq with h' | h'
      · exact .inl (.inr ⟨h, h'⟩)
      · exact .inr (.inr ⟨h.symm, h'⟩)
    · exact .inr (.inl h)

instance : IsTrans Op foldOrder where
  trans a b c hab hbc := by
    obtain hab | ⟨hab, hab'⟩ := hab
    · obtain hbc | ⟨hbc, -⟩ := hbc
      · exact .inl (hab.trans hbc)
      · exact .inl (hbc ▸ hab)
    · obtain hbc | ⟨hbc, hbc'⟩ := hbc
      · exact .inl (hab ▸ hbc)
      · exact .inr ⟨hab.trans hbc, hab'.trans hbc'⟩

/-- The ops of one stream, by origin and then by seq. -/
def foldIter (r : Registry C) (gladeId : String) : List Op :=
  (r.ops.filter (fun o => o.gladeId = gladeId)).insertionSort foldOrder

/-- The ops a chain holds, in seq order. -/
def chain (r : Registry C) (gladeId origin : String) : List Op :=
  (r.foldIter gladeId).filter (fun op => op.origin = origin)

/-! ### What an ingest does -/

open Store LinkedLog

/-- Whether the chain rules append an op that is not a checkpoint. -/
def Extends (r : Registry C) (op : Op) : Prop :=
  (∀ e, r.checkpoints[streamOf op]? = some e → e.2.1 < op.seq) ∧
    match r.tips[streamOf op]? with
    | some tip => (linking C).Follows tip op
    | none => op.seq = 0

/-- Whether the register places a checkpoint, at the floor it gives its chain. -/
def Places (r : Registry C) (op : Op) (floor : Floor) : Prop :=
  check op = .ok ⟨gClaims, floor⟩ ∧ placement C (op, floor) r.checkpoints[(⟨gClaims, op.origin⟩ : StreamId)]? = .placed ∧
    ∀ held, r.ops.find? (fun held => (held.gladeId = gClaims ∧ held.origin = op.origin) ∧ held.seq = floor.1) =
      some held → opHash C held = floor.2

/-- An answer that leaves the registry as it was. -/
def Kept (r : Registry C) (x : Except RegistryError (Ingested × Registry C)) : Prop :=
  (∃ e, x = .error e) ∨ x = .ok (.duplicate, r) ∨ x = .ok (.covered, r)

theorem link_of_extends {r : Registry C} {op : Op} (hg : op.gladeId ≠ gCheckpoints) (h : r.Extends op) :
    r.link op = .ok (.appended, r.take op) := by
  obtain ⟨hfloor, htip⟩ := h
  have hext : r.extend op = .ok (.appended, r.take op) := by
    rw [extend]
    cases ht : r.tips[streamOf op]? with
    | none =>
      rw [ht] at htip
      exact if_neg (not_not.mpr htip)
    | some tip =>
      rw [ht] at htip
      obtain ⟨hseq, hnames⟩ : op.seq = tip.1 + 1 ∧ ∀ prev, op.prev = some prev → prev = tip.2.val := htip
      dsimp only
      rw [if_neg (by omega), if_neg (not_not.mpr hseq)]
      cases hp : op.prev with
      | none => rfl
      | some prev => exact if_neg (not_not.mpr (hnames prev hp))
  rw [link, if_neg hg]
  cases hc : r.checkpoints[streamOf op]? with
  | none => exact hext
  | some e =>
    simp only [against, if_pos (hfloor e hc)]
    exact hext

theorem kept_link_of_not_extends {r : Registry C} {op : Op} (hg : op.gladeId ≠ gCheckpoints) (h : ¬ r.Extends op) :
    r.Kept (r.link op) := by
  rw [link, if_neg hg]
  have hext : (∀ e, r.checkpoints[streamOf op]? = some e → e.2.1 < op.seq) → r.Kept (r.extend op) := by
    intro hfloor
    have htip : ¬ (match r.tips[streamOf op]? with
      | some tip => (linking C).Follows tip op
      | none => op.seq = 0) := fun ht => h ⟨hfloor, ht⟩
    rw [extend]
    split
    case h_1 tip ht =>
      rw [ht] at htip
      split_ifs with h1 h2 h3
      · exact .inr (.inl rfl)
      · exact .inl ⟨_, rfl⟩
      · exact .inl ⟨_, rfl⟩
      · cases hp : op.prev with
        | none => exact absurd ⟨not_not.mp h3, fun prev hprev => by simp [hp] at hprev⟩ htip
        | some prev =>
          dsimp only
          split_ifs with h4
          · exact .inl ⟨_, rfl⟩
          · refine absurd ⟨not_not.mp h3, fun prev' hprev => ?_⟩ htip
            obtain rfl : prev = prev' := Option.some.inj (hp.symm.trans hprev)
            exact not_not.mp h4
    case h_2 ht =>
      rw [ht] at htip
      rw [if_pos htip]
      exact .inl ⟨_, rfl⟩
  split
  case h_2 hnone => exact hext (by simp [hnone])
  case h_1 cp floor hc =>
    split
    case h_1 ha =>
      refine hext fun e he => ?_
      obtain rfl : (cp, floor) = e := Option.some.inj (hc.symm.trans he)
      by_contra hle
      simp only [against, if_neg hle] at ha
      split_ifs at ha
    · exact .inr (.inr rfl)
    · exact .inl ⟨_, rfl⟩

/-- The op a scan finds at the base forks it when it has another hash. -/
theorem any_fork_iff {ops : List Op} {p : Op → Prop} [DecidablePred p] {floor : Floor} :
    ((ops.find? (fun held => p held ∧ held.seq = floor.1)).any (fun held => against C floor held = .fork)) = true ↔
      ∃ held, ops.find? (fun held => p held ∧ held.seq = floor.1) = some held ∧ opHash C held ≠ floor.2 := by
  rw [Option.any_eq_true]
  refine exists_congr fun held => and_congr_right fun hf => ?_
  have hseq : p held ∧ held.seq = floor.1 := by simpa using List.find?_some hf
  rw [decide_eq_true_iff, against_eq_fork]
  exact and_iff_right hseq.2

theorem link_of_places {r : Registry C} {op : Op} {floor : Floor} (hg : op.gladeId = gCheckpoints)
    (h : r.Places op floor) : r.link op = .ok (.appended, r.placed op ⟨gClaims, op.origin⟩ floor) := by
  obtain ⟨hc, hp, hbase⟩ := h
  rw [link, if_pos hg, place, hc]
  dsimp only
  rw [hp]
  dsimp only
  rw [if_neg]
  rw [any_fork_iff]
  rintro ⟨held, hf, hne⟩
  exact hne (hbase held hf)

theorem kept_link_of_not_places {r : Registry C} {op : Op} (hg : op.gladeId = gCheckpoints)
    (h : ∀ floor, ¬ r.Places op floor) : r.Kept (r.link op) := by
  rw [link, if_pos hg, place]
  cases hc : check op with
  | error why => exact .inl ⟨_, rfl⟩
  | ok c =>
    obtain ⟨stream, floor⟩ := c
    obtain rfl : stream = gClaims := (check_eq_ok hc).1
    dsimp only
    split
    · exact .inr (.inl rfl)
    · exact .inr (.inr rfl)
    · exact .inl ⟨_, rfl⟩
    · exact .inl ⟨_, rfl⟩
    · exact .inl ⟨_, rfl⟩
    case h_6 hp =>
      rw [if_pos]
      · exact .inl ⟨_, rfl⟩
      rw [any_fork_iff]
      by_contra hno
      push Not at hno
      exact h floor ⟨hc, hp, hno⟩

/-- What an ingest into a sealed registry does: it takes an op that extends its
chain, places a checkpoint, or leaves the registry as it was. -/
theorem ingest_cases (r : Registry C) (op : Op) {me : NodeIdentity C} (hme : r.identity = some me) :
    (verify C op = .ok () ∧ op.gladeId ≠ gCheckpoints ∧ r.Extends op ∧ r.ingest op = .ok (.appended, r.take op)) ∨
      (∃ floor, verify C op = .ok () ∧ op.gladeId = gCheckpoints ∧ r.Places op floor ∧
        r.ingest op = .ok (.appended, r.placed op ⟨gClaims, op.origin⟩ floor)) ∨
      r.Kept (r.ingest op) := by
  have hing : verify C op = .ok () → r.ingest op = r.link op := by
    intro hv
    simp only [ingest, hme, hv]
  cases hv : verify C op with
  | error why =>
    refine .inr (.inr (.inl ⟨.unverified op.origin why, ?_⟩))
    simp only [ingest, hme, hv]
  | ok _ =>
    rw [hing hv]
    by_cases hg : op.gladeId = gCheckpoints
    · by_cases hp : ∃ floor, r.Places op floor
      · obtain ⟨floor, hp⟩ := hp
        exact .inr (.inl ⟨floor, rfl, hg, hp, link_of_places hg hp⟩)
      · exact .inr (.inr (kept_link_of_not_places hg (not_exists.mp hp)))
    · by_cases hx : r.Extends op
      · exact .inl ⟨rfl, hg, hx, link_of_extends hg hx⟩
      · exact .inr (.inr (kept_link_of_not_extends hg hx))

theorem ingested_of_kept {r : Registry C} {op : Op} (h : r.Kept (r.ingest op)) : r.ingested op = r := by
  rw [ingested]
  obtain ⟨e, h⟩ | h | h := h <;> rw [h]

end Registry

end Glade
