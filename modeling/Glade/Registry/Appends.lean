import Glade.Node.RecordReads
import Glade.Registry.Reload

/-! Registries built by appends alone (`append_returning`, `node/src/registry.rs`),
sealed as a node or not. An append mints the next op of its chain, and only a
chain a checkpoint can stand under, the claims', may answer it with anything but
that op at its end. -/

namespace Glade.Registry

open Wire Node

variable {C : Crypto}

/-- A fresh registry: sealed as a node, or unsealed. -/
def fresh (identity : Option (NodeIdentity C)) : Registry C := { (new : Registry C) with identity }

/-- The registry after appends, each refused or made. -/
def appends (r : Registry C) (calls : List (Record × String)) : Registry C :=
  calls.foldl (fun r call => r.called (.append call.1 call.2)) r

/-! ### The op an append mints -/

/-- The payload of an op under `identity`. -/
def payloadOf (identity : Option (NodeIdentity C)) (d : OpData) : Bytes :=
  match identity with
  | some me => sealRecord me d
  | none => d.payload

/-- The op an append of `record` makes. -/
def Written (r : Registry C) (record : Record) (origin : String) (op : Op) : Prop :=
  op.toOpData = { r.nextOp record origin with payload := payloadOf r.identity (r.nextOp record origin) }

theorem written_of_append {r r' : Registry C} {record : Record} {origin : String} {op : Op}
    (h : r.appendReturning record origin = .ok (op, r')) :
    (∀ me, r.identity = some me → origin = me.name) ∧ r.Written record origin op ∧
      ∃ answer, r.link op = .ok (answer, r') := by
  cases hme : r.identity with
  | some me =>
    obtain ⟨horigin, hmint, hlink⟩ := appendReturning_eq_ok hme h
    refine ⟨fun me' h' => ?_, ?_, hlink⟩
    · rw [← Option.some.inj h']
      exact horigin
    · unfold Written
      rw [hme, horigin]
      exact hmint
  | none =>
    refine ⟨nofun, ?_⟩
    rw [appendReturning, hme, if_neg (by simp)] at h
    dsimp only at h
    split at h
    · cases h
    case h_2 op' hop =>
      split at h
      · cases h
      case h_2 answer r₁ hlink =>
        obtain ⟨rfl, rfl⟩ := Prod.mk.inj (Except.ok.inj h)
        refine ⟨?_, answer, hlink⟩
        unfold Written
        rw [hme]
        exact Op.toOpData_of_ofData hop

/-- A bare record is no envelope: its first field is text. -/
theorem openEnvelope_encode {record : Record} (h : record.encode.length < 2 ^ 64) : openEnvelope record.encode = none := by
  have hparse := parse_encode ⟨record.shaped_toCbor, h⟩
  unfold openEnvelope Record.encode
  rw [hparse]
  cases record <;> rfl

namespace Written

variable {r : Registry C} {record : Record} {origin : String} {op : Op} (h : r.Written record origin op)

include h

theorem gladeId_eq : op.gladeId = record.gladeId := by
  rw [h]
  rfl

theorem origin_eq : op.origin = origin := by
  rw [h]
  rfl

theorem streamOf_eq : streamOf op = ⟨record.gladeId, origin⟩ := by
  rw [streamOf, h.gladeId_eq, h.origin_eq]

theorem lamport_eq : op.lamport = (r.nextOp record origin).lamport := by rw [h]

/-- The op carries the record, sealed or bare. -/
theorem recordBytes_payload : record.encode.length < 2 ^ 64 ∧ recordBytes op.payload = record.encode := by
  have hlen := length_payload_lt op
  have hpayload : op.payload = payloadOf r.identity (r.nextOp record origin) := by rw [h]
  have hrecord : (r.nextOp record origin).payload = record.encode := rfl
  rw [encode, List.length_append] at hlen
  cases hme : r.identity with
  | none =>
    rw [hme, payloadOf, hrecord] at hpayload
    have hlt : record.encode.length < 2 ^ 64 := by rw [← hpayload]; omega
    refine ⟨hlt, ?_⟩
    rw [recordBytes, hpayload, openEnvelope_encode hlt]
  | some me =>
    rw [hme, payloadOf] at hpayload
    have hsealed : (sealRecord me (r.nextOp record origin)).length < 2 ^ 64 := by rw [← hpayload]; omega
    have hfits : Fits false 1 (SignedRecord.toCbor ⟨record.encode, me.sign (encode (r.nextOp record origin).toCbor)⟩) :=
      ⟨SignedRecord.shaped_toCbor _, hsealed⟩
    have hlt := (hfits.entries.2.2 (1, .bytes record.encode) (by simp)).2.2
    rw [encode, List.length_append] at hlt
    refine ⟨by omega, ?_⟩
    rw [recordBytes, hpayload, openEnvelope_seal hsealed]
    exact hrecord

/-- What it carries decodes to the record's fields. -/
theorem readRecord_eq {α : Type} (from_ : Cbor → Except DecodeError α) : readRecord op from_ = from_ record.toCbor := by
  obtain ⟨hlt, hrecord⟩ := h.recordBytes_payload
  have hdecode : tryDecode record.encode = .ok record.toCbor :=
    tryDecode_of_counted record.shaped_toCbor (Fits.counted ⟨record.shaped_toCbor, hlt⟩) (by decide)
  rw [readRecord, hrecord, hdecode]
  rfl

/-- It extends a chain no checkpoint stands under. -/
theorem extends_chain (hcp : r.checkpoints[(⟨record.gladeId, origin⟩ : StreamId)]? = none) : r.Extends op := by
  have hcp' : ∀ e, r.checkpoints[streamOf op]? = some e → e.2.1 < op.seq := by
    intro e he
    rw [h.streamOf_eq, hcp] at he
    cases he
  refine ⟨hcp', ?_⟩
  rw [h.streamOf_eq]
  have hseq : op.seq = (r.nextOp record origin).seq ∧ op.prev = (r.nextOp record origin).prev := by
    rw [h]
    exact ⟨rfl, rfl⟩
  cases ht : r.tips[(⟨record.gladeId, origin⟩ : StreamId)]? with
  | none =>
    rw [nextOp, ht] at hseq
    exact hseq.1
  | some tip =>
    rw [nextOp, ht] at hseq
    refine ⟨hseq.1, fun prev hprev => ?_⟩
    rw [hseq.2] at hprev
    exact (Option.some.inj hprev).symm

end Written

/-! ### What an append changes -/

/-- Only claims chains have checkpoints. -/
def Plain (r : Registry C) : Prop := ∀ (c : StreamId) (e : Op × Floor), r.checkpoints[c]? = some e → c.stream = gClaims

theorem plain_fresh (identity : Option (NodeIdentity C)) : (fresh identity).Plain := by
  intro c e h
  simp [fresh, new] at h

/-- What a link does to a registry: nothing, an op at the end of `ops`, or a
checkpoint of a claims chain. -/
theorem link_cases {r r' : Registry C} {op : Op} {answer : Ingested} (h : r.link op = .ok (answer, r')) :
    r' = r ∨ (op.gladeId ≠ gCheckpoints ∧ r' = r.take op) ∨
      ∃ floor, op.gladeId = gCheckpoints ∧ r' = r.placed op ⟨gClaims, op.origin⟩ floor := by
  by_cases hg : op.gladeId = gCheckpoints
  · by_cases hp : ∃ floor, r.Places op floor
    · obtain ⟨floor, hp⟩ := hp
      rw [link_of_places hg hp] at h
      exact .inr (.inr ⟨floor, hg, (Prod.mk.inj (Except.ok.inj h)).2.symm⟩)
    · obtain ⟨e, hk⟩ | hk | hk := kept_link_of_not_places hg (not_exists.mp hp)
      · rw [hk] at h
        cases h
      all_goals
        rw [hk] at h
        exact .inl (Prod.mk.inj (Except.ok.inj h)).2.symm
  · by_cases hx : r.Extends op
    · rw [link_of_extends hg hx] at h
      exact .inr (.inl ⟨hg, (Prod.mk.inj (Except.ok.inj h)).2.symm⟩)
    · obtain ⟨e, hk⟩ | hk | hk := kept_link_of_not_extends hg hx
      · rw [hk] at h
        cases h
      all_goals
        rw [hk] at h
        exact .inl (Prod.mk.inj (Except.ok.inj h)).2.symm

theorem Plain.placed {r : Registry C} (h : r.Plain) (op : Op) (origin : String) (floor : Floor) :
    (r.placed op ⟨gClaims, origin⟩ floor).Plain := by
  intro c e he
  simp only [Registry.placed, Std.ExtTreeMap.getElem?_insert, Std.LawfulEqOrd.compare_eq_iff_eq] at he
  split_ifs at he with hc
  · rw [← hc]
  · exact h c e he

theorem Plain.link {r r' : Registry C} (h : r.Plain) {op : Op} {answer : Ingested}
    (hlink : r.link op = .ok (answer, r')) : r'.Plain := by
  obtain rfl | ⟨-, rfl⟩ | ⟨floor, -, rfl⟩ := link_cases hlink
  · exact h
  · exact h
  · exact h.placed op op.origin floor

theorem identity_of_link {r r' : Registry C} {op : Op} {answer : Ingested} (hlink : r.link op = .ok (answer, r')) :
    r'.identity = r.identity := by
  obtain rfl | ⟨-, rfl⟩ | ⟨floor, -, rfl⟩ := link_cases hlink <;> rfl

/-- A small record's append is taken. -/
theorem append_of_small {r : Registry C} (hr : r.Plain) {me : NodeIdentity C} (hme : r.identity = some me) {record : Record}
    (hcp : record.gladeId ≠ gCheckpoints) (hclaims : record.gladeId ≠ gClaims)
    (hfamily : Record.isBindingFamily record.gladeId = false)
    (hseq : IsI64 (r.nextOp record me.name).seq)
    (hlen : (utf8 record.gladeId).length + record.encode.length < 2 ^ 60) :
    ∃ op, r.appendReturning record me.name = .ok (op, r.take op) := by
  set d := r.nextOp record me.name with hd
  have hvalid : OpData.Valid { d with payload := sealRecord me d } := valid_seal_nextOp hfamily hseq hlen
  have hw : r.Written record me.name ⟨_, hvalid⟩ := by
    unfold Written
    rw [hme]
    rfl
  have hnone : r.checkpoints[(⟨record.gladeId, me.name⟩ : StreamId)]? = none := by
    rw [Option.eq_none_iff_forall_ne_some]
    exact fun e he => hclaims (hr _ e he)
  have hlink := link_of_extends (hw.gladeId_eq ▸ hcp) (hw.extends_chain hnone)
  refine ⟨⟨_, hvalid⟩, ?_⟩
  rw [appendReturning, hme, if_neg (by simp)]
  simp only [← hd, Op.ofData, dif_pos hvalid, hlink]

/-- An append of a record no checkpoint folds puts its op at the end of `ops`. -/
theorem take_of_append {r r' : Registry C} (hr : r.Plain) {record : Record} {origin : String} {op : Op}
    (h : r.appendReturning record origin = .ok (op, r')) (hcp : record.gladeId ≠ gCheckpoints)
    (hclaims : record.gladeId ≠ gClaims) : r' = r.take op := by
  obtain ⟨-, hw, answer, hlink⟩ := written_of_append h
  have hnone : r.checkpoints[(⟨record.gladeId, origin⟩ : StreamId)]? = none := by
    rw [Option.eq_none_iff_forall_ne_some]
    exact fun e he => hclaims (hr _ e he)
  rw [link_of_extends (hw.gladeId_eq ▸ hcp) (hw.extends_chain hnone)] at hlink
  exact (Prod.mk.inj (Except.ok.inj hlink)).2.symm

/-- What every registry built by appends is. -/
theorem plain_appends (identity : Option (NodeIdentity C)) (calls : List (Record × String)) :
    (appends (fresh identity) calls).Plain ∧ (appends (fresh identity) calls).identity = identity := by
  induction calls using List.reverseRecOn with
  | nil => exact ⟨plain_fresh identity, rfl⟩
  | append_singleton calls call ih =>
    obtain ⟨hr, hid⟩ := ih
    unfold appends at hr hid ⊢
    rw [List.foldl_concat, called]
    split
    case h_1 op r' h =>
      obtain ⟨-, -, answer, hlink⟩ := written_of_append h
      exact ⟨hr.link hlink, (identity_of_link hlink).trans hid⟩
    case h_2 => exact ⟨hr, hid⟩

end Glade.Registry
