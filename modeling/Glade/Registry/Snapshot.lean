import Glade.Registry.Agreement

/-! The ops a node appends, the snapshot a registry is saved as, and the load that
reads one back (`node/src/registry.rs`). A load decodes every record, places the
checkpoints first, and ingests the rest in the order they stand in; an op it
refuses is set aside with the rest of its chain. -/

namespace Glade

open Wire Node

/-- The node's records as one blob: encoded ops, and the heads to resume from. -/
structure SystemSnapshot where
  records : List Bytes
  heads : List Bytes
  revision : Option Int64
  deriving DecidableEq

namespace Registry

variable {C : Crypto}

/-! ### Appending -/

/-- One past the highest lamport of the binding family. -/
def nextBindingLamport (r : Registry C) : ℤ :=
  (((r.ops.filter (fun o => Record.isBindingFamily o.gladeId)).map (fun o => o.lamport + 1)).max?).getD 0

/-- The op `record` would be at the end of `origin`'s chain, not sealed yet. -/
def nextOp (r : Registry C) (record : Record) (origin : String) : OpData :=
  let chain : StreamId := { stream := record.gladeId, origin }
  let (seq, prev) :=
    match r.tips[chain]? with
    | some (lastSeq, lastHash) => (lastSeq + 1, some lastHash.val)
    | none => (0, none)
  let lamport := if Record.isBindingFamily record.gladeId then r.nextBindingLamport else seq
  { share := home, gladeId := record.gladeId, key := [], origin, seq, prev, lamport, refs := [], shape := .log,
    payload := record.encode }

/-- Append `record` under `origin`'s chain: the op, and the registry with it. -/
def appendReturning (r : Registry C) (record : Record) (origin : String) : Except RegistryError (Op × Registry C) :=
  if r.identity.any (fun me => me.name ≠ origin) then .error (.notOurs origin)
  else
    let d := r.nextOp record origin
    let d := match r.identity with
      | some me => { d with payload := sealRecord me d }
      | none => d
    match Op.ofData d with
    | none => .error .panicked
    | some op =>
      match r.link op with
      | .error e => .error e
      | .ok (_, r) => .ok (op, r)

/-- A small record's op is one, sealed. -/
theorem valid_seal_nextOp {r : Registry C} {me : NodeIdentity C} {record : Record}
    (hfamily : Record.isBindingFamily record.gladeId = false) (hseq : IsI64 (r.nextOp record me.name).seq)
    (hlen : (utf8 record.gladeId).length + record.encode.length < 2 ^ 60) :
    OpData.Valid { r.nextOp record me.name with payload := sealRecord me (r.nextOp record me.name) } := by
  have hlamport : (r.nextOp record me.name).lamport = (r.nextOp record me.name).seq := by
    rw [nextOp, hfamily]
    rfl
  have hprev : ((r.nextOp record me.name).prev.getD []).length ≤ 32 := by
    rw [nextOp]
    cases r.tips[(⟨record.gladeId, me.name⟩ : StreamId)]? with
    | none => simp
    | some tip => exact tip.2.2.le
  have hpayload : (sealRecord me (r.nextOp record me.name)).length ≤ 127 + record.encode.length := length_sealRecord_le me _
  have hname : (utf8 me.name).length = 64 := by
    rw [show me.name = hex me.nodeId from rfl, length_utf8_hex, me.nodeId.2]
  have hhome : (utf8 home).length = 4 := by decide
  refine OpData.valid_of_small hseq (hlamport ▸ hseq) rfl ?_
  change (utf8 home).length + (utf8 record.gladeId).length + 0 + (utf8 me.name).length + _ + _ < 2 ^ 62
  dsimp only
  omega

/-! ### The snapshot -/

/-- The ops a snapshot lists: checkpoints first. -/
def listed (r : Registry C) : List Op := r.checkpoints.toList.map (fun e => e.2.1) ++ r.ops

/-- The heads of every stream, each by its origins. -/
def heads (r : Registry C) : List StreamHeads :=
  let streams := (r.tips.toList.map (fun e => e.1.stream)).dedup
  streams.map fun stream =>
    let own := r.tips.toList.filter (fun e => e.1.stream = stream)
    { share := home, gladeId := stream, key := []
      heads := own.map fun e => { origin := e.1.origin, seq := e.2.1, hash := some e.2.2.val } }

/-- A fold has no revision: the engine that saves it keeps its own. -/
def snapshot (r : Registry C) : SystemSnapshot :=
  { records := r.listed.map Op.encoding, heads := r.heads.map (fun h => encode h.toCbor), revision := none }

/-! ### The load -/

/-- A load under way: the registry so far, the records set aside, and the chains
whose tail goes with them. -/
structure Loading (C : Crypto) where
  reg : Registry C
  rejected : ℕ
  poisoned : Std.ExtTreeMap StreamId Bool

/-- Set an op aside. -/
def Loading.reject (st : Loading C) (op : Op) : Loading C :=
  { st with
    reg := { st.reg with policyQuarantined := st.reg.policyQuarantined || Record.isPolicy op.gladeId }
    rejected := st.rejected + 1 }

def Loading.take (st : Loading C) (op : Op) : Loading C :=
  if st.poisoned.getD (streamOf op) false then st.reject op
  else
    match st.reg.ingest op with
    | .ok (_, reg) => { st with reg }
    | .error _ => { st.reject op with poisoned := st.poisoned.insert (streamOf op) true }

/-- Load `records` into `r`, and how many of them were set aside. -/
def load (r : Registry C) (snap : SystemSnapshot) : Registry C × ℕ :=
  let ops := snap.records.filterMap (fun bytes => (decodeOp bytes).toOption)
  let unread := snap.records.length - ops.length
  let (checkpoints, rest) := ops.partition (fun op => op.gladeId = gCheckpoints)
  let r := { r with policyQuarantined := r.policyQuarantined || decide (0 < unread) }
  let st := (checkpoints ++ rest).foldl Loading.take { reg := r, rejected := unread, poisoned := ∅ }
  (st.reg, st.rejected)

def fromSnapshotAs (snap : SystemSnapshot) (me : NodeIdentity C) : Registry C × ℕ := (sealedAs me).load snap

end Registry

end Glade
