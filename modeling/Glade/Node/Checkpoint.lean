import Glade.Node.Envelope

/-! Signed checkpoints and the check of a home op (`node/src/checkpoint.rs`,
`envelope.rs`). A checkpoint gives a chain a floor: the base its chain is folded
at and the hash of its op there. -/

namespace Glade.Node

open Wire

/-- Why a home op was refused: the first of `verify`'s rules it breaks. -/
inductive Refused where
  | unsigned
  | form
  | prev
  | stream
  | kind
  | origin
  | signature
  | checkpoint
  deriving DecidableEq

/-- A chain's floor: the base its newest checkpoint names, and the hash of its
op there. -/
abbrev Floor := ℤ × Bytes32

/-- A checkpoint that passed `check`: the stream it folds and the floor it gives. -/
structure Checkpoint where
  stream : String
  floor : Floor
  deriving DecidableEq

/-- Whether this build compacts `stream`. -/
def compacts (stream : String) : Bool := stream = gClaims

/-- The checkpoint `record` holds, read without panicking. -/
def readCheckpoint (record : Bytes) : Option ChainCheckpoint :=
  match parse record with
  | some (.map [(k₁, .text node), (k₂, .text stream), (k₃, .int seq), (k₄, .bytes hash)]) =>
    if k₁ = 1 ∧ k₂ = 2 ∧ k₃ = 3 ∧ k₄ = 4 then some { node, stream, seq, hash } else none
  | _ => none

/-- The record's own check: a checkpoint names its op's origin, a stream this
build compacts, a base of 0 or more and a 32-byte hash. -/
def check (op : Op) : Except Refused Checkpoint :=
  match readCheckpoint (recordBytes op.payload) with
  | none => .error .checkpoint
  | some record =>
    if h : (record.node = op.origin ∧ compacts record.stream = true ∧ 0 ≤ record.seq.toInt) ∧
        record.hash.length = 32 then
      .ok { stream := record.stream, floor := (record.seq.toInt, ⟨record.hash, h.2⟩) }
    else .error .checkpoint

/-- A checkpoint folds a chain this build compacts, at a base of 0 or more. -/
theorem check_eq_ok {op : Op} {c : Checkpoint} (h : check op = .ok c) : c.stream = gClaims ∧ 0 ≤ c.floor.1 := by
  rw [check] at h
  split at h
  · cases h
  · split at h
    case isFalse => cases h
    case isTrue hc =>
      obtain rfl := Except.ok.inj h
      exact ⟨by simpa [compacts] using hc.1.2.1, hc.1.2.2⟩

/-! ### The floor and the register -/

/-- Where an op lands against its chain's floor. -/
inductive Against where
  | above
  | covered
  | fork
  deriving DecidableEq

/-- Where a checkpoint lands in the register. -/
inductive Placement where
  | placed
  | duplicate
  | seen
  | fork
  | chainBreak
  | rewrite
  deriving DecidableEq

variable (C : Crypto)

def against (floor : Floor) (op : Op) : Against :=
  if floor.1 < op.seq then .above
  else if op.seq = floor.1 ∧ opHash C op ≠ floor.2 then .fork
  else .covered

/-- Where a checkpoint's op and floor land against the newest held for its
origin and stream. -/
def placement (arriving : Op × Floor) : Option (Op × Floor) → Placement
  | none => .placed
  | some (held, heldFloor) =>
    let (op, floor) := arriving
    if op.seq < held.seq then .seen
    else if op.seq = held.seq then
      if opHash C op = opHash C held then .duplicate else .fork
    else if floor.1 < heldFloor.1 ∨ (floor.1 = heldFloor.1 ∧ floor.2 ≠ heldFloor.2) then .rewrite
    else if op.seq = held.seq + 1 ∧ op.prev ≠ some (opHash C held).val then .chainBreak
    else .placed

/-! ### The check of a home op -/

/-- The check every home ingest makes, its rules in this order. Chain
continuity is the caller's. -/
def verify (op : Op) : Except Refused Unit :=
  match openEnvelope op.payload with
  | none => .error .unsigned
  | some (record, sig) =>
    if ¬ (op.share = home ∧ op.key = [] ∧ op.shape = .log) ∨ op.refs ≠ [] then .error .form
    else if op.seq < 0 ∨ (op.prev.isSome ≠ decide (0 < op.seq)) then .error .prev
    else
      match kind op.gladeId with
      | none => .error .stream
      | some fields =>
        if ¬ isKind record fields then .error .kind
        else
          match keyOf op.origin with
          | none => .error .origin
          | some signer =>
            if ¬ verifySignature C signer (encode { op.toOpData with payload := record }.toCbor) sig then
              .error .signature
            else if op.gladeId = gCheckpoints then (check op).map fun _ => ()
            else .ok ()

/-- What a home payload read from disk is to this build. -/
inductive Format where
  | sealed
  | unsigned
  | unknown
  deriving DecidableEq

def format (op : Op) : Format :=
  match openEnvelope op.payload with
  | some (record, _) =>
    let known := (kind op.gladeId).any (isKind record)
    let ours := op.gladeId ≠ gCheckpoints || (readCheckpoint record).any (fun r => compacts r.stream)
    if known && ours then .sealed else .unknown
  | none =>
    match parse op.payload with
    | some (.map fields) =>
      match fields.find? fun e => e.1 == 1 with
      | some (_, .text _) => .unsigned
      | _ => .unknown
    | _ => .unknown

variable {C}

/-- The rules of `verify`, all of them kept. -/
theorem verify_eq_ok_iff {op : Op} :
    verify C op = .ok () ↔
      ∃ record sig fields signer, openEnvelope op.payload = some (record, sig) ∧
        (op.share = home ∧ op.key = [] ∧ op.shape = .log ∧ op.refs = []) ∧
        (0 ≤ op.seq ∧ (op.prev.isSome ↔ 0 < op.seq)) ∧
        kind op.gladeId = some fields ∧ isKind record fields = true ∧ keyOf op.origin = some signer ∧
        verifySignature C signer (encode { op.toOpData with payload := record }.toCbor) sig = true ∧
        (op.gladeId = gCheckpoints → ∃ c, check op = .ok c) := by
  constructor
  · intro h
    rw [verify] at h
    split at h
    case h_1 => cases h
    case h_2 record sig henv =>
      by_cases hform : ¬ (op.share = home ∧ op.key = [] ∧ op.shape = .log) ∨ op.refs ≠ []
      · rw [if_pos hform] at h
        cases h
      by_cases hprev : op.seq < 0 ∨ op.prev.isSome ≠ decide (0 < op.seq)
      · rw [if_neg hform, if_pos hprev] at h
        cases h
      rw [if_neg hform, if_neg hprev] at h
      split at h
      case h_1 => cases h
      case h_2 fields hkind =>
        by_cases his : isKind record fields = true
        case neg =>
          rw [if_pos his] at h
          cases h
        rw [if_neg (not_not.mpr his)] at h
        split at h
        case h_1 => cases h
        case h_2 signer hkey =>
          by_cases hsig : verifySignature C signer (encode { op.toOpData with payload := record }.toCbor) sig = true
          case neg =>
            rw [if_pos hsig] at h
            cases h
          rw [if_neg (not_not.mpr hsig)] at h
          rw [not_or, not_not, not_not] at hform
          rw [not_or, not_not, not_lt, Bool.eq_iff_iff, decide_eq_true_iff] at hprev
          refine ⟨record, sig, fields, signer, henv, ⟨hform.1.1, hform.1.2.1, hform.1.2.2, hform.2⟩, hprev, hkind,
            his, hkey, hsig, fun hg => ?_⟩
          rw [if_pos hg] at h
          cases hc : check op with
          | error e => rw [hc] at h; cases h
          | ok c => exact ⟨c, rfl⟩
  · rintro ⟨record, sig, fields, signer, henv, ⟨hshare, hkey, hshape, hrefs⟩, ⟨hseq, hprev⟩, hkind, his, hkeyOf,
      hsig, hcheck⟩
    have hprev' : op.prev.isSome = decide (0 < op.seq) := by
      rw [Bool.eq_iff_iff, decide_eq_true_iff]
      exact hprev
    simp only [verify, henv, hshare, hkey, hshape, hrefs, and_self, not_true_eq_false, ne_eq, or_self, if_false,
      not_lt.mpr hseq, hprev', hkind, his, hkeyOf]
    simp only [hshare, hkey, hshape, hrefs] at hsig
    rw [if_neg (by rw [hsig]; simp)]
    split_ifs with hg
    · obtain ⟨c, hc⟩ := hcheck hg
      rw [hc]
      rfl
    · rfl

/-- What an op that verifies is: the directory's form, with a `prev` exactly
above seq 0, and its own check passed where it is a checkpoint. -/
theorem of_verify {op : Op} (h : verify C op = .ok ()) :
    (op.share = home ∧ op.key = [] ∧ op.shape = .log ∧ op.refs = []) ∧
      (0 ≤ op.seq ∧ (op.prev.isSome ↔ 0 < op.seq)) ∧ (op.gladeId = gCheckpoints → ∃ c, check op = .ok c) := by
  obtain ⟨_, _, _, _, -, hform, hprev, -, -, -, -, hcheck⟩ := verify_eq_ok_iff.mp h
  exact ⟨hform, hprev, hcheck⟩

/-- An op that verifies is in a format this build knows. -/
theorem format_of_verify {op : Op} (h : verify C op = .ok ()) : format op = .sealed := by
  obtain ⟨record, sig, fields, _, henv, -, -, hkind, his, -, -, hcheck⟩ := verify_eq_ok_iff.mp h
  have hours : (decide (op.gladeId ≠ gCheckpoints) || (readCheckpoint record).any (fun r => compacts r.stream)) = true := by
    by_cases hg : op.gladeId = gCheckpoints
    · obtain ⟨c, hc⟩ := hcheck hg
      rw [check, recordBytes, henv] at hc
      split at hc
      case h_1 => cases hc
      case h_2 r hr =>
        split at hc
        case isFalse => cases hc
        case isTrue hr' => simp [hr, hr'.1.2.1]
    · simp [hg]
  simp only [format, henv, hkind, Option.any_some, his, Bool.true_and, hours, if_true]

/-- A buffer holds what an op carries. -/
theorem length_payload_lt (op : Op) : (encode (.bytes op.payload)).length < 2 ^ 64 := by
  have hfits : Fits true 3 op.toCbor := ⟨op.shaped_toCbor, lt_of_le_of_lt op.valid.2.2.2 (by decide)⟩
  exact (hfits.entries.2.2 (10, .bytes op.payload) (by simp)).2.2

/-- What a node seals as its own record verifies, its chain's rules apart. -/
theorem verify_sealed {me : NodeIdentity C} {d : OpData} {op : Op} {record : Record}
    (hop : op.toOpData = { d with payload := sealRecord me d }) (hpayload : d.payload = record.encode)
    (hg : d.gladeId = record.gladeId) (horigin : d.origin = me.name)
    (hform : d.share = home ∧ d.key = [] ∧ d.shape = .log ∧ d.refs = [])
    (hseq : 0 ≤ d.seq ∧ (d.prev.isSome ↔ 0 < d.seq)) (hcheck : d.gladeId = gCheckpoints → ∃ c, check op = .ok c) :
    verify C op = .ok () := by
  have hsealed : (sealRecord me d).length < 2 ^ 64 := by
    have h := length_payload_lt op
    rw [hop, encode, List.length_append] at h
    dsimp only at h
    omega
  have hrecord : record.encode.length < 2 ^ 64 := by
    have hfits : Fits false 1 (SignedRecord.toCbor ⟨d.payload, me.sign (encode d.toCbor)⟩) :=
      ⟨SignedRecord.shaped_toCbor _, hsealed⟩
    have h := (hfits.entries.2.2 (1, .bytes d.payload) (by simp)).2.2
    rw [encode, List.length_append, hpayload] at h
    omega
  obtain ⟨fields, -, hkind, -⟩ := record.typed_toCbor
  have hwhole : { op.toOpData with payload := d.payload } = d := by rw [hop]
  refine verify_eq_ok_iff.mpr ⟨d.payload, me.sign (encode d.toCbor), fields, me.nodeId, ?envelope, ?form, ?seq, ?kind, ?fields, ?signer, ?signed, ?names⟩
  case envelope =>
    rw [hop]
    exact openEnvelope_seal hsealed
  case form =>
    rw [hop]
    exact hform
  case seq =>
    rw [hop]
    exact hseq
  case kind =>
    rw [hop]
    exact hg ▸ hkind
  case fields =>
    rw [hpayload]
    exact isKind_encode hkind hrecord
  case signer =>
    rw [hop]
    exact horigin ▸ keyOf_hex me.nodeId
  case signed =>
    rw [hwhole]
    exact verifySignature_sign me _
  case names =>
    intro hcp
    rw [hop] at hcp
    exact hcheck hcp

end Glade.Node
