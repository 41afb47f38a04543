import Glade.Registry.Claims

/-! A renewal tick (`node/src/checkpoint.rs`). It appends a node's renewals, and once
enough of the claims its chain holds are superseded it appends the ones that are not
again and folds the chain under a checkpoint. What a fold drops is covered by what
it keeps, so every query of claims answers as if nothing was folded. -/

namespace Glade.Registry

open Wire Node Store LinkedLog

variable {C : Crypto}

/-! ### The tick -/

/-- The backwards scan of `superseded`: which claims are, and the later ones standing. -/
def supersededScan (claims : List ServeClaim) : List Bool × List ServeClaim :=
  claims.foldr (fun claim st =>
    let gone := st.2.any fun later => Supersedes later claim
    (gone :: st.1, if gone then st.2 else st.2 ++ [claim])) ([], [])

/-- Which of one node's claims, in chain order, a later one supersedes. -/
def superseded (claims : List ServeClaim) : List Bool := (supersededScan claims).1

/-- What a tick's checkpoint folded: its base, and how many claims left and how many
were carried. -/
structure Folded where
  base : ℤ
  dropped : ℕ
  carried : ℕ
  deriving DecidableEq

/-- The claims that are not superseded; a mark past the last claim marks none. -/
def standing (claims : List ServeClaim) (gone : List Bool) : List ServeClaim :=
  ((claims.zip gone).filter fun e => e.2 = false).map Prod.fst

/-- What a tick that appends `renewals` folds of the chain `held`: the floor, the
claims it carries, and how many ops the floor covers. -/
def due (C : Crypto) (held : List Op) (renewals : List ServeClaim) (after : ℕ) : Option Floor × List ServeClaim × ℕ :=
  match held.getLast? with
  | none => (none, [], 0)
  | some tip =>
    if held.length < after then (none, [], 0)
    else
      let claims := held.filterMap fun op => folded op ServeClaim.fromCbor
      if (superseded claims).count true < after then (none, [], 0)
      else (some (tip.seq, opHash C tip), standing claims (superseded (claims ++ renewals)), held.length)

/-- Append claims in their order: the ops, and the registry after them. -/
def appendClaims (r : Registry C) (node : String) : List ServeClaim → Except RegistryError (List Op × Registry C)
  | [] => .ok ([], r)
  | claim :: claims =>
    match r.appendReturning (.serve claim) node with
    | .error why => .error why
    | .ok (op, r) =>
      match appendClaims r node claims with
      | .error why => .error why
      | .ok (ops, r) => .ok (op :: ops, r)

/-- A renewal tick's appends, as `node`: the ops in the order they were appended, what
was folded, and the registry after them. -/
def tick (r : Registry C) (node : String) (renewals : List ServeClaim) (after : ℕ) :
    Except RegistryError ((List Op × Option Folded) × Registry C) :=
  let (floor, carried, covered) := due C (r.chain gClaims node) renewals after
  match appendClaims r node (carried ++ renewals) with
  | .error why => .error why
  | .ok (ops, r) =>
    match floor with
    | none => .ok ((ops, none), r)
    | some (base, hash) =>
      let record : ChainCheckpoint := { node, stream := gClaims, seq := Int64.ofInt base, hash := hash.val }
      match r.appendReturning (.checkpoint record) node with
      | .error why => .error why
      | .ok (op, r) =>
        .ok ((ops ++ [op], some { base, dropped := covered - carried.length, carried := carried.length }), r)

/-! ### What a fold keeps -/

/-- The claims standing are those not marked, and each claim is covered by one of them. -/
theorem supersededScan_spec (claims : List ServeClaim) :
    (∀ c, c ∈ (supersededScan claims).2 ↔ c ∈ standing claims (supersededScan claims).1) ∧
      Covering (supersededScan claims).2 claims := by
  induction claims with
  | nil => exact ⟨by simp [supersededScan, standing], by simp [supersededScan], by simp [supersededScan]⟩
  | cons c claims ih =>
    obtain ⟨hstand, hsub, hcov⟩ := ih
    rw [supersededScan, List.foldr_cons, ← supersededScan]
    dsimp only
    by_cases hgone : ((supersededScan claims).2.any fun later => Supersedes later c) = true
    · rw [if_pos hgone, hgone]
      refine ⟨fun d => ?_, fun d hd => List.mem_cons_of_mem _ (hsub d hd), fun d hd => ?_⟩
      · rw [hstand]
        simp [standing]
      · rcases List.mem_cons.mp hd with rfl | hd
        · obtain ⟨later, hmem, hover⟩ := List.any_eq_true.mp hgone
          exact ⟨later, hmem, of_decide_eq_true hover⟩
        · exact hcov d hd
    · rw [if_neg hgone, Bool.eq_false_iff.mpr hgone]
      refine ⟨fun d => ?_, fun d hd => ?_, fun d hd => ?_⟩
      · rw [List.mem_append, hstand, List.mem_singleton]
        simp [standing, or_comm]
      · rcases List.mem_append.mp hd with hd | hd
        · exact List.mem_cons_of_mem _ (hsub d hd)
        · rw [List.mem_singleton.mp hd]
          exact List.mem_cons_self
      · rcases List.mem_cons.mp hd with rfl | hd
        · exact ⟨d, by simp, Supersedes.refl d⟩
        · obtain ⟨later, hmem, hover⟩ := hcov d hd
          exact ⟨later, List.mem_append_left _ hmem, hover⟩

theorem standing_append (claims renewals : List ServeClaim) (gone : List Bool) :
    standing (claims ++ renewals) gone = standing claims gone ++ standing renewals (gone.drop claims.length) := by
  unfold standing
  rw [← List.map_append, ← List.filter_append]
  congr 2
  induction claims generalizing gone with
  | nil => simp
  | cons c claims ih =>
    cases gone with
    | nil => simp
    | cons g gone => simp [ih]

/-- What a fold carries, with the renewals, covers the claims that were held and the renewals. -/
theorem covering_carried (claims renewals : List ServeClaim) :
    Covering (standing claims (superseded (claims ++ renewals)) ++ renewals) (claims ++ renewals) := by
  obtain ⟨hstand, hsub, hcov⟩ := supersededScan_spec (claims ++ renewals)
  have hmem : ∀ c, c ∈ (supersededScan (claims ++ renewals)).2 →
      c ∈ standing claims (superseded (claims ++ renewals)) ++ renewals := by
    intro c hc
    rw [hstand, standing_append, List.mem_append] at hc
    rcases hc with hc | hc
    · exact List.mem_append_left _ hc
    · obtain ⟨e, he, rfl⟩ := List.mem_map.mp hc
      exact List.mem_append_right _ (List.of_mem_zip (List.mem_of_mem_filter he)).1
  constructor
  · intro c hc
    rcases List.mem_append.mp hc with hc | hc
    · obtain ⟨e, he, rfl⟩ := List.mem_map.mp hc
      exact List.mem_append_left _ (List.of_mem_zip (List.mem_of_mem_filter he)).1
    · exact List.mem_append_right _ hc
  · intro c hc
    obtain ⟨later, hl, hover⟩ := hcov c hc
    exact ⟨later, hmem later hl, hover⟩

/-! ### What a tick appends -/

/-- The chain of `me`'s claims. -/
def claimsOf (me : NodeIdentity C) : StreamId := ⟨gClaims, me.name⟩

/-- What appends of claims to `me`'s registry leave: the ops at the end of its chain,
past everything the chain held, and the rest as it was. -/
structure Claimed (me : NodeIdentity C) (r r' : Registry C) (claims : List ServeClaim) (ops : List Op) : Prop where
  sound : Sound me r'
  ops_eq : r'.ops = r.ops ++ ops
  checkpoints : r'.checkpoints = r.checkpoints
  stream : ∀ op ∈ ops, streamOf op = claimsOf me
  folded : ops.filterMap (fun op => folded op ServeClaim.fromCbor) = claims
  past : ∀ seq, r.Reached (claimsOf me) seq → r'.Reached (claimsOf me) seq ∧ ∀ op ∈ ops, seq < op.seq

/-- An append of a claim takes its op. -/
theorem append_claim {me : NodeIdentity C} {r r' : Registry C} (h : Sound me r) {claim : ServeClaim} {op : Op}
    (happend : r.appendReturning (.serve claim) me.name = .ok (op, r')) :
    r.Extends op ∧ verify C op = .ok () ∧ r' = r.take op ∧ Claimed me r r' [claim] [op] := by
  obtain ⟨⟨s, A⟩, hme⟩ := h
  obtain ⟨hv, hmint, hing, hcase⟩ := appendReturning_cases A hme happend
  obtain ⟨-, hw, -⟩ := written_of_append happend
  have hg : op.gladeId = gClaims := hw.gladeId_eq
  rcases hcase with ⟨-, hx, hr'⟩ | ⟨hcp, -⟩
  · have hstep := reached_ingest ⟨⟨s, A⟩, hme⟩ hing
    have hnew := (reached_append ⟨⟨s, A⟩, hme⟩ happend).2.1
    refine ⟨hx, hv, hr', hstep.1, by rw [hr', take], by rw [hr', take], ?_, ?_, ?_⟩
    · intro o ho
      rw [List.mem_singleton.mp ho]
      exact hmint.streamOf_eq
    · have hread : readRecord op ServeClaim.fromCbor = .ok claim :=
        (hw.readRecord_eq ServeClaim.fromCbor).trans (ServeClaim.fromCbor_toCbor claim)
      simp [Node.folded, hread]
    · intro seq hseq
      refine ⟨hstep.2.1 _ seq hseq, ?_⟩
      intro o ho
      rw [List.mem_singleton.mp ho]
      by_contra hle
      apply hnew
      rw [hmint.streamOf_eq]
      obtain ⟨tip, ht, hseq⟩ := hseq
      exact ⟨tip, ht, by omega⟩
  · rw [hg] at hcp
    exact absurd hcp (by decide)

theorem claimed_of_appendClaims {me : NodeIdentity C} {r r' : Registry C} (h : Sound me r) {claims : List ServeClaim}
    {ops : List Op} (happend : appendClaims r me.name claims = .ok (ops, r')) : Claimed me r r' claims ops := by
  induction claims generalizing r ops with
  | nil =>
    obtain ⟨rfl, rfl⟩ := Prod.mk.inj (Except.ok.inj happend)
    exact ⟨h, by simp, rfl, by simp, rfl, fun seq hseq => ⟨hseq, by simp⟩⟩
  | cons claim claims ih =>
    unfold appendClaims at happend
    split at happend
    case h_1 => cases happend
    case h_2 op r₁ hone =>
      split at happend
      case h_1 => cases happend
      case h_2 rest r₂ hrest =>
        obtain ⟨rfl, rfl⟩ := Prod.mk.inj (Except.ok.inj happend)
        obtain ⟨-, -, -, hfirst⟩ := append_claim h hone
        have hmore := ih hfirst.sound hrest
        refine ⟨hmore.sound, ?_, hmore.checkpoints.trans hfirst.checkpoints, ?_, ?_, ?_⟩
        · rw [hmore.ops_eq, hfirst.ops_eq, List.append_assoc, List.singleton_append]
        · rw [List.forall_mem_cons]
          exact ⟨hfirst.stream op (by simp), hmore.stream⟩
        · rw [← List.singleton_append, List.filterMap_append, hfirst.folded, hmore.folded, List.singleton_append]
        · intro seq hseq
          obtain ⟨hreach, hpast⟩ := hfirst.past seq hseq
          obtain ⟨hreach', hpast'⟩ := hmore.past seq hreach
          refine ⟨hreach', ?_⟩
          rw [List.forall_mem_cons]
          exact ⟨hpast op (by simp), hpast'⟩

/-- The floor a node's own checkpoint gives. -/
theorem check_written {r : Registry C} {record : ChainCheckpoint} {origin : String} {op : Op}
    (hw : r.Written (.checkpoint record) origin op) {c : Checkpoint} (hc : check op = .ok c) :
    c.floor.1 = record.seq.toInt ∧ c.floor.2.val = record.hash := by
  obtain ⟨hlt, hbytes⟩ := hw.recordBytes_payload
  have hparse : parse (Record.checkpoint record).encode = some record.toCbor :=
    parse_encode ⟨ChainCheckpoint.shaped_toCbor record, hlt⟩
  have hread : readCheckpoint (recordBytes op.payload) = some record := by
    rw [hbytes, readCheckpoint, hparse]
    simp [ChainCheckpoint.toCbor]
  rw [check, hread] at hc
  dsimp only at hc
  split_ifs at hc with hok
  obtain rfl := Except.ok.inj hc
  exact ⟨rfl, rfl⟩

/-- The claims `me`'s chain holds. -/
def heldClaims (r : Registry C) (me : NodeIdentity C) : List ServeClaim :=
  (r.held (claimsOf me)).filterMap fun op => folded op ServeClaim.fromCbor

/-- What a tick that folds does: it appends the claims it carries and the renewals,
and then places a checkpoint at what was the chain's tip. -/
structure Folds (me : NodeIdentity C) (r r' : Registry C) (renewals : List ServeClaim) (ops : List Op) where
  carried : List ServeClaim
  claimed : List Op
  between : Registry C
  checkpoint : Op
  floor : Floor
  ops_eq : ops = claimed ++ [checkpoint]
  appended : appendClaims r me.name (carried ++ renewals) = .ok (claimed, between)
  places : between.Places checkpoint floor
  verified : verify C checkpoint = .ok ()
  stream : streamOf checkpoint = ⟨gCheckpoints, me.name⟩
  placed : r' = between.placed checkpoint (claimsOf me) floor
  atTip : r.Reached (claimsOf me) floor.1 ∧ ∀ op ∈ r.held (claimsOf me), op.seq ≤ floor.1
  covering : Covering (carried ++ renewals) (r.heldClaims me ++ renewals)

/-- What `due` folds is folded at the chain's last op. -/
theorem due_cases (held : List Op) (renewals : List ServeClaim) (after : ℕ) :
    due C held renewals after = (none, [], 0) ∨ ∃ tip, held.getLast? = some tip ∧
      due C held renewals after = (some (tip.seq, opHash C tip),
        standing (held.filterMap fun op => folded op ServeClaim.fromCbor)
          (superseded ((held.filterMap fun op => folded op ServeClaim.fromCbor) ++ renewals)), held.length) := by
  unfold due
  cases hlast : held.getLast? with
  | none => exact .inl rfl
  | some tip =>
    dsimp only
    split_ifs
    · exact .inl rfl
    · exact .inl rfl
    · exact .inr ⟨tip, rfl, rfl⟩

theorem tick_cases {me : NodeIdentity C} {r r' : Registry C} (h : Sound me r) {renewals : List ServeClaim} {after : ℕ}
    {ops : List Op} {folded : Option Folded} (ht : tick r me.name renewals after = .ok ((ops, folded), r')) :
    (folded = none ∧ appendClaims r me.name renewals = .ok (ops, r')) ∨
      (folded.isSome = true ∧ Nonempty (Folds me r r' renewals ops)) := by
  obtain ⟨⟨s, A⟩, hme⟩ := h
  have hstream : (claimsOf me).stream ≠ gCheckpoints := show gClaims ≠ gCheckpoints by decide
  unfold tick at ht
  rcases due_cases (C := C) (r.chain gClaims me.name) renewals after with hdue | ⟨tip, hlast, hdue⟩
  · rw [hdue] at ht
    dsimp only at ht
    rw [List.nil_append] at ht
    split at ht
    · cases ht
    case h_2 ops' r₁ happend =>
      obtain ⟨hp, rfl⟩ := Prod.mk.inj (Except.ok.inj ht)
      obtain ⟨rfl, rfl⟩ := Prod.mk.inj hp
      exact .inl ⟨rfl, happend⟩
  · rw [hdue] at ht
    dsimp only at ht
    split at ht
    · cases ht
    case h_2 claimed between happend =>
      split at ht
      · cases ht
      case h_2 cp r₂ hcp =>
        obtain ⟨hp, rfl⟩ := Prod.mk.inj (Except.ok.inj ht)
        obtain ⟨rfl, rfl⟩ := Prod.mk.inj hp
        have hclaimed := claimed_of_appendClaims ⟨⟨s, A⟩, hme⟩ happend
        obtain ⟨⟨s₁, A₁⟩, hme₁⟩ := hclaimed.sound
        obtain ⟨hv, hmint, -, hcase⟩ := appendReturning_cases A₁ hme₁ hcp
        obtain ⟨-, hw, -⟩ := written_of_append hcp
        rcases hcase with ⟨hg, -⟩ | ⟨hg, floor, hplaces, hr₂⟩
        · exact absurd hw.gladeId_eq hg
        have hchain : r.chain gClaims me.name = r.held (claimsOf me) := held_eq_chain A hstream
        have hheldchain := A.inv.chained_home (c := (claimsOf me).chainId) rfl hstream
        rw [A.logs _ hstream] at hheldchain
        rw [hchain] at hlast happend
        -- The record's base is the seq of the chain's tip, which an `i64` holds.
        have hbase : floor.1 = tip.seq := (check_written hw hplaces.1).1.trans (toInt_ofInt tip.valid.1)
        refine .inr ⟨rfl, ⟨_, claimed, between, cp, floor, rfl, happend, hplaces, hv, hmint.streamOf_eq, ?_, ?_, ?_⟩⟩
        · rw [hr₂, hw.origin_eq]
          rfl
        · rw [hbase]
          refine ⟨⟨(linking C).tip tip, ?_, le_rfl⟩, seq_le_getLast hheldchain hlast⟩
          rw [A.tips _ hstream, Linking.endOf, hlast]
          rfl
        · exact covering_carried (r.heldClaims me) renewals

/-! ### The claims after a tick -/

/-- The claims other nodes' chains hold. -/
def OthersClaim (r : Registry C) (me : NodeIdentity C) (c : ServeClaim) : Prop :=
  ∃ op ∈ r.ops, (op.gladeId = gClaims ∧ op.origin ≠ me.name) ∧ folded op ServeClaim.fromCbor = some c

theorem mem_heldClaims {r : Registry C} {me : NodeIdentity C} {c : ServeClaim} :
    c ∈ r.heldClaims me ↔ ∃ op ∈ r.ops, streamOf op = claimsOf me ∧ folded op ServeClaim.fromCbor = some c := by
  simp [heldClaims, held, and_assoc]

theorem mem_claims_iff {r : Registry C} (me : NodeIdentity C) {c : ServeClaim} :
    c ∈ r.claims ↔ r.OthersClaim me c ∨ c ∈ r.heldClaims me := by
  rw [mem_claims, mem_heldClaims, OthersClaim]
  constructor
  · rintro ⟨op, hop, hg, hc⟩
    by_cases ho : op.origin = me.name
    · exact .inr ⟨op, hop, by rw [streamOf, hg, ho]; rfl, hc⟩
    · exact .inl ⟨op, hop, ⟨hg, ho⟩, hc⟩
  · rintro (⟨op, hop, ⟨hg, -⟩, hc⟩ | ⟨op, hop, hs, hc⟩)
    · exact ⟨op, hop, hg, hc⟩
    · exact ⟨op, hop, congrArg StreamId.stream hs, hc⟩

/-- A placed checkpoint leaves its chain the ops above the floor. -/
theorem held_placed (r : Registry C) (op : Op) (c : StreamId) (floor : Floor) :
    (r.placed op c floor).held c = (linking C).above floor.1 (r.held c) := by
  unfold held Linking.above
  rw [Registry.placed, List.filter_filter, List.filter_filter]
  apply List.filter_congr
  intro held _
  by_cases hs : streamOf held = c
  · have hnamed : held.gladeId = c.stream ∧ held.origin = c.origin := by
      rw [← hs]
      exact ⟨rfl, rfl⟩
    simp only [hs, hnamed, and_self, not_true_eq_false, false_or, decide_true, Bool.true_and, Bool.and_true]
    rfl
  · simp [hs]

section Claimed

variable {me : NodeIdentity C} {r r' : Registry C} {claims : List ServeClaim} {ops : List Op}
  (h : Claimed me r r' claims ops)

include h

theorem Claimed.held_eq : r'.held (claimsOf me) = r.held (claimsOf me) ++ ops := by
  unfold held
  rw [h.ops_eq, List.filter_append, List.filter_eq_self.mpr fun op hop => decide_eq_true (h.stream op hop)]

theorem Claimed.heldClaims_eq : r'.heldClaims me = r.heldClaims me ++ claims := by
  unfold heldClaims
  rw [h.held_eq, List.filterMap_append, h.folded]

theorem Claimed.othersClaim_iff (c : ServeClaim) : r'.OthersClaim me c ↔ r.OthersClaim me c := by
  unfold OthersClaim
  rw [h.ops_eq]
  constructor
  · rintro ⟨op, hop, ⟨hg, ho⟩, hc⟩
    rcases List.mem_append.mp hop with hop | hop
    · exact ⟨op, hop, ⟨hg, ho⟩, hc⟩
    · exact absurd (congrArg StreamId.origin (h.stream op hop)) ho
  · rintro ⟨op, hop, hrest⟩
    exact ⟨op, List.mem_append_left _ hop, hrest⟩

end Claimed

section Folds

variable {me : NodeIdentity C} {r r' : Registry C} {renewals : List ServeClaim} {ops : List Op}
  (F : Folds me r r' renewals ops) (hr : Sound me r)

include hr F

theorem Folds.toClaimed : Claimed me r F.between (F.carried ++ renewals) F.claimed :=
  claimed_of_appendClaims hr F.appended

/-- The chain holds what the tick appended alone. -/
theorem Folds.held_eq : r'.held (claimsOf me) = F.claimed := by
  have hclaimed := F.toClaimed hr
  have hpast := (hclaimed.past _ F.atTip.1).2
  have hplaced := (congrArg (fun r : Registry C => r.held (claimsOf me)) F.placed).trans
    (held_placed F.between F.checkpoint (claimsOf me) F.floor)
  rw [hplaced, hclaimed.held_eq, Linking.above, List.filter_append]
  have hold : (r.held (claimsOf me)).filter (fun op => F.floor.1 < op.seq) = [] := by
    rw [List.filter_eq_nil_iff]
    intro op hop
    have hle := F.atTip.2 op hop
    simpa using hle
  exact (congrArg (· ++ _) hold).trans (List.filter_eq_self.mpr fun op hop => decide_eq_true (hpast op hop))

theorem Folds.heldClaims_eq : r'.heldClaims me = F.carried ++ renewals := by
  unfold heldClaims
  rw [F.held_eq hr, (F.toClaimed hr).folded]

theorem Folds.othersClaim_iff (c : ServeClaim) : r'.OthersClaim me c ↔ r.OthersClaim me c := by
  have hops := congrArg Registry.ops F.placed
  rw [← (F.toClaimed hr).othersClaim_iff c]
  unfold OthersClaim
  rw [hops, Registry.placed]
  constructor
  · rintro ⟨op, hop, hrest⟩
    exact ⟨op, List.mem_of_mem_filter hop, hrest⟩
  · rintro ⟨op, hop, ⟨hg, ho⟩, hc⟩
    refine ⟨op, List.mem_filter.mpr ⟨hop, ?_⟩, ⟨hg, ho⟩, hc⟩
    simp [claimsOf, ho]

/-- The claims after a fold cover those after the renewals alone. -/
theorem Folds.covering_claims {only : List Op} {rₙ : Registry C} (hₙ : Claimed me r rₙ renewals only) :
    Covering r'.claims rₙ.claims := by
  apply F.covering.among (r.OthersClaim me)
  · intro c
    rw [mem_claims_iff me, F.othersClaim_iff hr, F.heldClaims_eq hr]
  · intro c
    rw [mem_claims_iff me, hₙ.othersClaim_iff, hₙ.heldClaims_eq]

end Folds

/-! ### The served store -/

/-- A served store and its disk, after ops appended in order. -/
def feed (C : Crypto) (s : Store) (disk : Disk) (ops : List Op) : Store × Disk :=
  Store.appends C s disk (ops.map fun op => (op, none))

/-- Whether a served store holds `me`'s claims as the registry does. -/
structure Mirrors (me : NodeIdentity C) (s : Store) (r : Registry C) : Prop where
  log : s.logs.at (claimsOf me).chainId = r.held (claimsOf me)
  register : s.register[(claimsOf me).chainId]? = r.checkpoints[claimsOf me]?

/-- What a feed of `me`'s claims and checkpoints leaves of a served store: its other
chains as they were. -/
structure Fed (me : NodeIdentity C) (s s' : Store) (r' : Registry C) : Prop where
  inv : Inv C s'.logs s'.register
  mirrors : Mirrors me s' r'
  others : ∀ c : StreamId, c ≠ claimsOf me → c.stream ≠ gCheckpoints → s'.logs.at c.chainId = s.logs.at c.chainId

theorem feed_cons (s : Store) (disk : Disk) (op : Op) (ops : List Op) :
    feed C s disk (op :: ops) = feed C (append C s disk op none).2.1 (append C s disk op none).2.2 ops := by
  simp [feed, Store.appends]

theorem feed_concat (s : Store) (disk : Disk) (ops : List Op) (op : Op) :
    feed C s disk (ops ++ [op]) =
      (append C (feed C s disk ops).1 (feed C s disk ops).2 op none).2 := by
  simp [feed, Store.appends]

/-- A store retired for migration takes nothing. -/
theorem feed_of_marker {s : Store} {disk : Disk} (hm : sealedMarker ∈ disk) (ops : List Op) : feed C s disk ops = (s, disk) := by
  induction ops with
  | nil => rfl
  | cons op ops ih =>
    have happend : (append C s disk op none).2 = (s, disk) := by
      rw [append, if_neg (by simp), if_pos hm]
    rw [feed_cons, happend, ih]

section Feeding

variable {me : NodeIdentity C} {s : Store} {disk : Disk} {r r' : Registry C}

/-- A claim the registry appended is pushed. -/
theorem fed_claim (I : Inv C s.logs s.register) (hm : sealedMarker ∉ disk) (hr : Sound me r) (M : Mirrors me s r)
    {claim : ServeClaim} {op : Op} (happend : r.appendReturning (.serve claim) me.name = .ok (op, r')) :
    Fed me s (append C s disk op none).2.1 r' := by
  obtain ⟨hx, hv, hr', hclaimed⟩ := append_claim hr happend
  obtain ⟨⟨s₀, A⟩, -⟩ := hr
  have hstream : streamOf op = claimsOf me := hclaimed.stream op (by simp)
  have hg : op.gladeId ≠ gCheckpoints := by
    rw [show op.gladeId = gClaims from congrArg StreamId.stream hstream]
    decide
  have hown : chainOf op = (claimsOf me).chainId := by rw [chainOf_eq_chainId hv, hstream]
  have hclaims : (claimsOf me).stream ≠ gCheckpoints := show gClaims ≠ gCheckpoints by decide
  have hnext := (A.extends_iff_next hv hg).mp hx
  rw [hown, A.register, A.logs _ hclaims, ← M.register, ← M.log, ← hown] at hnext
  rcases append_home_cases I hm (of_verify hv).1.1 with
    ⟨-, -, -, -, hst⟩ | ⟨folded, floor, -, hpl, -⟩ | ⟨hno, -⟩
  · rw [hst]
    refine ⟨I.push (hnext.mono fun h _ => h) fun _ => ⟨hv, hg⟩, ⟨?_, ?_⟩, ?_⟩
    · rw [Store.push, hown, Logs.at_insert, if_pos rfl, M.log, hclaimed.held_eq]
    · rw [hclaimed.checkpoints]
      exact M.register
    · intro c hc _
      rw [Store.push, hown, Logs.at_insert, if_neg fun h => hc (chainId_injective h).symm]
  · exact absurd (classifyHome_eq_placed.mp hpl).1 hg
  · exact absurd hnext (hno hv hg)

theorem fed_claims (I : Inv C s.logs s.register) (hm : sealedMarker ∉ disk) (hr : Sound me r) (M : Mirrors me s r)
    {claims : List ServeClaim} {ops : List Op} (happend : appendClaims r me.name claims = .ok (ops, r')) :
    Fed me s (feed C s disk ops).1 r' ∧ sealedMarker ∉ (feed C s disk ops).2 := by
  induction claims generalizing s disk r ops with
  | nil =>
    obtain ⟨rfl, rfl⟩ := Prod.mk.inj (Except.ok.inj happend)
    exact ⟨⟨I, M, fun _ _ _ => rfl⟩, hm⟩
  | cons claim claims ih =>
    unfold appendClaims at happend
    split at happend
    case h_1 => cases happend
    case h_2 op r₁ hone =>
      split at happend
      case h_1 => cases happend
      case h_2 rest r₂ hrest =>
        obtain ⟨rfl, rfl⟩ := Prod.mk.inj (Except.ok.inj happend)
        have hfed := fed_claim I hm hr M hone
        obtain ⟨hmore, hm'⟩ := ih hfed.inv (sealedMarker_not_mem_append hm) (append_claim hr hone).2.2.2.sound hfed.mirrors hrest
        rw [feed_cons]
        exact ⟨⟨hmore.inv, hmore.mirrors, fun c hc hcp => (hmore.others c hc hcp).trans (hfed.others c hc hcp)⟩, hm'⟩

/-- A fold's ops, the checkpoint last. -/
theorem fed_fold (I : Inv C s.logs s.register) (hm : sealedMarker ∉ disk) (hr : Sound me r) (M : Mirrors me s r)
    {renewals : List ServeClaim} {ops : List Op} (F : Folds me r r' renewals ops) : Fed me s (feed C s disk ops).1 r' := by
  obtain ⟨hfed, hm'⟩ := fed_claims I hm hr M F.appended
  have hg : F.checkpoint.gladeId = gCheckpoints := congrArg StreamId.stream F.stream
  have ho : F.checkpoint.origin = me.name := congrArg StreamId.origin F.stream
  have hfold : homeChain gClaims F.checkpoint.origin = (claimsOf me).chainId := by rw [ho]; rfl
  have hplaced : classifyHome C (feed C s disk F.claimed).1.logs (feed C s disk F.claimed).1.register F.checkpoint =
      .placed (homeChain gClaims F.checkpoint.origin) F.floor := by
    refine (classifyHome_placed_iff hg ?_ ?_).mpr ⟨rfl, F.places⟩
    · rw [hfold, hfed.mirrors.log, ho]
      rfl
    · rw [hfold, hfed.mirrors.register, ho]
      rfl
  have hst : (append C (feed C s disk F.claimed).1 (feed C s disk F.claimed).2 F.checkpoint none).2.1 =
      { (feed C s disk F.claimed).1 with
        logs := (Store.place (feed C s disk F.claimed).1.logs (feed C s disk F.claimed).1.register F.checkpoint
          (homeChain gClaims F.checkpoint.origin) F.floor).1
        register := (Store.place (feed C s disk F.claimed).1.logs (feed C s disk F.claimed).1.register F.checkpoint
          (homeChain gClaims F.checkpoint.origin) F.floor).2 } := by
    rw [append_of_verify hfed.inv hm' F.verified, hplaced]
    rfl
  have hpairs := hfed.inv.place_eq F.floor F.verified hg
  have hinv := hfed.inv.place F.verified hplaced
  have hne : homeChain gCheckpoints F.checkpoint.origin ≠ (claimsOf me).chainId := homeChain_claims_ne _ _
  rw [congrArg (feed C s disk) F.ops_eq, feed_concat, hst]
  refine ⟨hinv, ⟨?_, ?_⟩, ?_⟩
  · rw [hpairs]
    dsimp only
    rw [Logs.at_insert, if_neg hne, Logs.at_insert, if_pos hfold, hfold, hfed.mirrors.log]
    have hheld := (congrArg (fun r : Registry C => r.held (claimsOf me)) F.placed).trans
      (held_placed F.between F.checkpoint (claimsOf me) F.floor)
    exact hheld.symm
  · rw [hpairs]
    refine Eq.trans ?_ (congrArg (fun r : Registry C => r.checkpoints[claimsOf me]?) F.placed).symm
    rw [hfold]
    simp [Registry.placed]
  · intro c hc hcp
    rw [hpairs]
    have hne' : homeChain gCheckpoints F.checkpoint.origin ≠ c.chainId := fun h => hcp (congrArg ChainId.gladeId h).symm
    rw [Logs.at_insert, if_neg hne', Logs.at_insert, hfold, if_neg fun h => hc (chainId_injective h).symm]
    exact hfed.others c hc hcp

end Feeding

section Answers

variable {me : NodeIdentity C} {s s' sₙ : Store} {r r' rₙ : Registry C}

/-- The claims a fed store holds of each node. -/
theorem Fed.mem_ownClaims (h : Fed me s s' r') (I : Inv C s.logs s.register) (node : String) (c : ServeClaim) :
    c ∈ ownClaims s' node ↔ if node = me.name then c ∈ r'.heldClaims me else c ∈ ownClaims s node := by
  rw [Registry.mem_ownClaims h.inv, Registry.mem_ownClaims I]
  split_ifs with hnode
  · subst hnode
    rw [show homeChain gClaims me.name = (claimsOf me).chainId from rfl, h.mirrors.log]
    unfold heldClaims
    rw [List.mem_filterMap]
  · have hne : (⟨gClaims, node⟩ : StreamId) ≠ claimsOf me := fun heq => hnode (congrArg StreamId.origin heq)
    have hlog := h.others ⟨gClaims, node⟩ hne (show gClaims ≠ gCheckpoints by decide)
    rw [show homeChain gClaims node = (⟨gClaims, node⟩ : StreamId).chainId from rfl, hlog]

/-- A store fed a fold and one fed the renewals alone answer alike. -/
theorem Fed.sameAnswers (h : Fed me s s' r') (hₙ : Fed me s sₙ rₙ) (I : Inv C s.logs s.register)
    (hcov : Covering (r'.heldClaims me) (rₙ.heldClaims me)) : SameAnswers C s' sₙ := by
  have hown : ∀ node, Covering (ownClaims s' node) (ownClaims sₙ node) := by
    intro node
    constructor
    · intro c hc
      rw [h.mem_ownClaims I] at hc
      rw [hₙ.mem_ownClaims I]
      split_ifs at hc ⊢
      · exact hcov.subset c hc
      · exact hc
    · intro c hc
      rw [hₙ.mem_ownClaims I] at hc
      simp only [h.mem_ownClaims I]
      split_ifs at hc ⊢
      · exact hcov.covered c hc
      · exact ⟨c, hc, Supersedes.refl c⟩
  have hserved : Covering (servedClaims C s') (servedClaims C sₙ) := by
    constructor
    · intro c hc
      rw [mem_servedClaims h.inv] at hc
      rw [mem_servedClaims hₙ.inv]
      obtain ⟨node, hc⟩ := hc
      exact ⟨node, (hown node).subset c hc⟩
    · intro c hc
      rw [mem_servedClaims hₙ.inv] at hc
      obtain ⟨node, hc⟩ := hc
      obtain ⟨later, hmem, hover⟩ := (hown node).covered c hc
      exact ⟨later, (mem_servedClaims h.inv).mpr ⟨node, hmem⟩, hover⟩
  refine ⟨fun share nowMs => ?_, hserved.maxClaimEpoch_eq, fun node => ?_, fun share => ?_⟩
  · exact (hserved.live share nowMs).map_pick_eq judges_first fun _ _ htie => htie.1
  · unfold homeEpoch
    rw [((hown node).share home).maxEpoch_eq]
  · rw [Bool.eq_iff_iff, mem_directoryKnows h.inv, mem_directoryKnows hₙ.inv]
    apply or_congr
    · have hentries : ∀ node, s'.logs.at (homeChain gWorkspaces node) = sₙ.logs.at (homeChain gWorkspaces node) := by
        intro node
        have hne : (⟨gWorkspaces, node⟩ : StreamId) ≠ claimsOf me := fun heq =>
          (show gWorkspaces ≠ gClaims by decide) (congrArg StreamId.stream heq)
        have hcp : gWorkspaces ≠ gCheckpoints := by decide
        exact (h.others ⟨gWorkspaces, node⟩ hne hcp).trans (hₙ.others ⟨gWorkspaces, node⟩ hne hcp).symm
      simp only [hentries]
    · constructor
      · rintro ⟨c, hc, hshare⟩
        exact ⟨c, hserved.subset c hc, hshare⟩
      · rintro ⟨c, hc, hshare⟩
        obtain ⟨later, hmem, hover⟩ := hserved.covered c hc
        exact ⟨later, hmem, hover.1.2.trans hshare⟩

end Answers

/-! ### The renewals alone -/

/-- The op of a claim, not sealed yet, above its chain's tip. -/
theorem nextOp_claim {r : Registry C} {me : NodeIdentity C} {tip : Floor} (ht : r.tips[claimsOf me]? = some tip)
    (claim : ServeClaim) :
    r.nextOp (.serve claim) me.name =
      { share := home, gladeId := gClaims, key := [], origin := me.name, seq := tip.1 + 1, prev := some tip.2.val,
        lamport := tip.1 + 1, refs := [], shape := .log, payload := (Record.serve claim).encode } := by
  have hchain : (⟨(Record.serve claim).gladeId, me.name⟩ : StreamId) = claimsOf me := rfl
  have hfamily : Record.isBindingFamily (Record.serve claim).gladeId = false :=
    show Record.isBindingFamily gClaims = false by decide
  simp only [nextOp, hchain, ht, hfamily]
  rfl

/-- What is appended past a chain is appended past a shorter one. -/
theorem append_claim_earlier {me : NodeIdentity C} {r r₁ r₁' : Registry C} (h : Sound me r) (h₁ : Sound me r₁)
    {tip tip₁ : Floor} (ht : r.tips[claimsOf me]? = some tip) (ht₁ : r₁.tips[claimsOf me]? = some tip₁) (hle : tip.1 ≤ tip₁.1)
    {claim : ServeClaim} {op₁ : Op} (happend : r₁.appendReturning (.serve claim) me.name = .ok (op₁, r₁')) :
    ∃ op, r.appendReturning (.serve claim) me.name = .ok (op, r.take op) := by
  obtain ⟨⟨s, A⟩, hme⟩ := h
  obtain ⟨-, hmint₁, -⟩ := appendReturning_eq_ok h₁.2 happend
  have hv₁ := op₁.valid
  have hseq₁ := (hmint₁.follows_tip ht₁).1
  have hnonneg := A.tip_nonneg ht
  have hvalid : OpData.Valid
      { r.nextOp (.serve claim) me.name with payload := sealRecord me (r.nextOp (.serve claim) me.name) } := by
    have hi64 : IsI64 (tip.1 + 1) := by
      have h64 := hv₁.1
      rw [hseq₁] at h64
      unfold IsI64 at h64 ⊢
      omega
    have hlong := hv₁.2.2.2
    rw [hmint₁] at hlong
    have hpayload : (sealRecord me (r.nextOp (.serve claim) me.name)).length =
        (sealRecord me (r₁.nextOp (.serve claim) me.name)).length := length_sealRecord_eq me rfl
    have hprev : tip.2.val.length = tip₁.2.val.length := tip.2.2.trans tip₁.2.2.symm
    have hshort := OpData.length_encode_le (r.nextOp (.serve claim) me.name) (show 0 ≤ tip.1 + 1 by omega)
      (show tip.1 + 1 ≤ tip₁.1 + 1 by omega) (hseq₁ ▸ hv₁.1) hprev hpayload
    rw [nextOp_claim ht₁] at hlong hshort
    rw [nextOp_claim ht] at hshort ⊢
    exact ⟨hi64, hi64, by simp, hshort.trans hlong⟩
  have hmint : r.Minted me (.serve claim) ⟨_, hvalid⟩ := rfl
  have hg : (⟨_, hvalid⟩ : Op).gladeId ≠ gCheckpoints := show gClaims ≠ gCheckpoints by decide
  have hlink := link_of_extends hg (hmint.extends_chain A hg)
  refine ⟨⟨_, hvalid⟩, ?_⟩
  rw [appendReturning, hme, if_neg (by simp)]
  simp only [Op.ofData, dif_pos hvalid, hlink]

theorem appendClaims_earlier {me : NodeIdentity C} {r r₁ r₁' : Registry C} (h : Sound me r) (h₁ : Sound me r₁)
    {tip tip₁ : Floor} (ht : r.tips[claimsOf me]? = some tip) (ht₁ : r₁.tips[claimsOf me]? = some tip₁) (hle : tip.1 ≤ tip₁.1)
    {claims : List ServeClaim} {ops₁ : List Op} (happend : appendClaims r₁ me.name claims = .ok (ops₁, r₁')) :
    ∃ ops r', appendClaims r me.name claims = .ok (ops, r') := by
  induction claims generalizing r r₁ tip tip₁ ops₁ with
  | nil => exact ⟨[], r, rfl⟩
  | cons claim claims ih =>
    unfold appendClaims at happend
    split at happend
    case h_1 => cases happend
    case h_2 op₁ r₂ hone =>
      split at happend
      case h_1 => cases happend
      case h_2 rest r₃ hrest =>
        obtain ⟨-, rfl⟩ := Prod.mk.inj (Except.ok.inj happend)
        obtain ⟨op, hop⟩ := append_claim_earlier h h₁ ht ht₁ hle hone
        obtain ⟨-, -, hr₂, hclaimed₁⟩ := append_claim h₁ hone
        have hclaimed := (append_claim h hop).2.2.2
        have hseq := ((appendReturning_eq_ok h.2 hop).2.1.follows_tip ht).1
        have hseq₁ := ((appendReturning_eq_ok h₁.2 hone).2.1.follows_tip ht₁).1
        have htip : ∀ (r : Registry C) (op : Op), streamOf op = claimsOf me →
            (r.take op).tips[claimsOf me]? = some (op.seq, opHash C op) := by
          intro r op hstream
          rw [take, hstream]
          exact Std.ExtTreeMap.getElem?_insert_self
        obtain ⟨ops, r', hrun⟩ := ih hclaimed.sound hclaimed₁.sound (htip r op (hclaimed.stream op (by simp)))
          (hr₂ ▸ htip r₁ op₁ (hclaimed₁.stream op₁ (by simp))) (show op.seq ≤ op₁.seq by omega) hrest
        refine ⟨op :: ops, r', ?_⟩
        unfold appendClaims
        rw [hop]
        dsimp only
        rw [hrun]

theorem appendClaims_append {r r' : Registry C} {node : String} {claims more : List ServeClaim} {ops : List Op}
    (h : appendClaims r node (claims ++ more) = .ok (ops, r')) :
    ∃ first between last, appendClaims r node claims = .ok (first, between) ∧
      appendClaims between node more = .ok (last, r') := by
  induction claims generalizing r ops with
  | nil => exact ⟨[], r, ops, rfl, h⟩
  | cons claim claims ih =>
    rw [List.cons_append] at h
    unfold appendClaims at h
    split at h
    case h_1 => cases h
    case h_2 op r₁ hone =>
      split at h
      case h_1 => cases h
      case h_2 rest r₂ hrest =>
        obtain ⟨rfl, rfl⟩ := Prod.mk.inj (Except.ok.inj h)
        obtain ⟨first, between, last, hfirst, hlast⟩ := ih hrest
        refine ⟨op :: first, between, last, ?_, hlast⟩
        unfold appendClaims
        rw [hone]
        dsimp only
        rw [hfirst]

/-- Where a tick folds, the renewals alone would have been appended. -/
theorem Folds.renewals_alone {me : NodeIdentity C} {r r' : Registry C} {renewals : List ServeClaim} {ops : List Op}
    (F : Folds me r r' renewals ops) (hr : Sound me r) : ∃ only rₙ, appendClaims r me.name renewals = .ok (only, rₙ) := by
  obtain ⟨first, between, last, hfirst, hlast⟩ := appendClaims_append F.appended
  have hclaimed := claimed_of_appendClaims hr hfirst
  obtain ⟨⟨tip, ht, -⟩, -⟩ := F.atTip
  obtain ⟨⟨tip₁, ht₁, hle⟩, -⟩ := hclaimed.past tip.1 ⟨tip, ht, le_rfl⟩
  exact appendClaims_earlier hr hclaimed.sound ht ht₁ hle hlast

/-! ### A fold changes no answer -/

theorem sound_calls {me : NodeIdentity C} {r : Registry C} (h : Sound me r) (calls : List Call) :
    Sound me (calls.foldl called r) := by
  induction calls generalizing r with
  | nil => exact h
  | cons call calls ih =>
    obtain ⟨⟨s, A⟩, hme⟩ := h
    obtain ⟨hs, hme', -⟩ := A.called hme call
    exact ih ⟨hs, hme'⟩

/-- In every registry a sealed node reaches, from any snapshot it loads and by any
appends and ingests: a tick that folds nothing appends the renewals alone, and one
that folds leaves every query of claims as the renewals alone do, in the registry at
every reader's clock and in every served store that holds the node's claims. -/
theorem folding_changes_no_answer (me : NodeIdentity C) (snap : SystemSnapshot) (calls : List Call)
    (renewals : List ServeClaim) (after : ℕ) :
    let r := calls.foldl called (fromSnapshotAs snap me).1
    (∀ ops r', tick r me.name renewals after = .ok ((ops, none), r') → appendClaims r me.name renewals = .ok (ops, r')) ∧
      ∀ ops folded r', tick r me.name renewals after = .ok ((ops, some folded), r') →
        ∃ only rₙ, appendClaims r me.name renewals = .ok (only, rₙ) ∧
          (∀ share nowMs, r'.whoServes share nowMs = rₙ.whoServes share nowMs) ∧
          (∀ share, maxClaimEpoch r'.claims share = maxClaimEpoch rₙ.claims share) ∧
          ∀ s disk, Inv C s.logs s.register → Mirrors me s r →
            SameAnswers C (feed C s disk ops).1 (feed C s disk only).1 := by
  intro r
  have hr : Sound me r := sound_calls (sound_fromSnapshotAs me snap) calls
  constructor
  · intro ops r' ht
    rcases tick_cases hr ht with ⟨-, happend⟩ | ⟨hsome, -⟩
    · exact happend
    · cases hsome
  · intro ops folded r' ht
    rcases tick_cases hr ht with ⟨hnone, -⟩ | ⟨-, ⟨F⟩⟩
    · cases hnone
    obtain ⟨only, rₙ, honly⟩ := F.renewals_alone hr
    have hₙ := claimed_of_appendClaims hr honly
    have hcov := F.covering_claims hr hₙ
    refine ⟨only, rₙ, honly, ?_, hcov.maxClaimEpoch_eq, ?_⟩
    · intro share nowMs
      exact (hcov.live share nowMs).map_pick_eq judges_last fun _ _ htie => htie.1
    · intro s disk I M
      by_cases hm : sealedMarker ∈ disk
      · rw [feed_of_marker hm, feed_of_marker hm]
        exact ⟨fun _ _ => rfl, fun _ => rfl, fun _ => rfl, fun _ => rfl⟩
      · apply (fed_fold I hm hr M F).sameAnswers (fed_claims I hm hr M honly).1 I
        rw [F.heldClaims_eq hr, hₙ.heldClaims_eq]
        exact F.covering

end Glade.Registry
