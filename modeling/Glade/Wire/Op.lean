import Glade.Wire.CborRoundTrip

/-! The op and its codec (`wire-rs/src/generated.rs`). The source's `i64` fields
are integers here, and an op carries the proof that they are in range and that
a buffer holds its encoding, so every op reads back from its bytes. -/

namespace Glade.Wire

inductive Shape where
  | value
  | log
  | stream
  | swmr
  | crdt
  deriving DecidableEq, Repr

namespace Shape

def wire : Shape → Int64
  | .value => 0
  | .log => 1
  | .stream => 2
  | .swmr => 3
  | .crdt => 4

def fromWire (v : Int64) : Except DecodeError Shape :=
  if v = 0 then .ok .value
  else if v = 1 then .ok .log
  else if v = 2 then .ok .stream
  else if v = 3 then .ok .swmr
  else if v = 4 then .ok .crdt
  else .error (.unknownEnum "Shape" v)

theorem fromWire_wire (s : Shape) : fromWire s.wire = .ok s := by cases s <;> rfl

end Shape

/-- An integer an `i64` holds. -/
def IsI64 (n : ℤ) : Prop := -2 ^ 63 ≤ n ∧ n < 2 ^ 63

instance (n : ℤ) : Decidable (IsI64 n) := inferInstanceAs (Decidable (_ ∧ _))

theorem toInt_ofInt {n : ℤ} (h : IsI64 n) : (Int64.ofInt n).toInt = n :=
  Int64.toInt_ofInt_of_le h.1 h.2

/-- The most bytes a buffer holds, `isize::MAX`. -/
def maxLen : ℕ := 2 ^ 63 - 1

def Cbor.ofOption : Option Bytes → Cbor
  | none => .null
  | some b => .bytes b

/-! ### Heads -/

structure Head where
  origin : String
  seq : ℤ
  hash : Option Bytes
  deriving DecidableEq

namespace Head

def toCbor (h : Head) : Cbor :=
  .map [(1, .text h.origin), (2, .int (Int64.ofInt h.seq)), (3, .ofOption h.hash)]

def fromCbor (c : Cbor) : Except DecodeError Head := do
  let origin ← (← c.tryGet 1).tryText
  let seq ← (← c.tryGet 2).tryInt
  let hash ← (← c.tryGet 3).tryOpt Cbor.tryBytes
  return { origin, seq := seq.toInt, hash }

end Head

structure StreamHeads where
  share : String
  gladeId : String
  key : Bytes
  heads : List Head
  deriving DecidableEq

def StreamHeads.toCbor (h : StreamHeads) : Cbor :=
  .map [(1, .text h.share), (2, .text h.gladeId), (3, .bytes h.key), (4, .array (h.heads.map Head.toCbor))]

/-! ### Ops -/

structure OpData where
  share : String
  gladeId : String
  key : Bytes
  origin : String
  seq : ℤ
  prev : Option Bytes
  lamport : ℤ
  refs : List Head
  shape : Shape
  payload : Bytes
  deriving DecidableEq

namespace OpData

def toCbor (d : OpData) : Cbor :=
  .map [(1, .text d.share), (2, .text d.gladeId), (3, .bytes d.key), (4, .text d.origin),
    (5, .int (Int64.ofInt d.seq)), (6, .ofOption d.prev), (7, .int (Int64.ofInt d.lamport)),
    (8, .array (d.refs.map Head.toCbor)), (9, .int d.shape.wire), (10, .bytes d.payload)]

def Valid (d : OpData) : Prop :=
  IsI64 d.seq ∧ IsI64 d.lamport ∧ (∀ h ∈ d.refs, IsI64 h.seq) ∧ (encode d.toCbor).length ≤ maxLen

instance (d : OpData) : Decidable d.Valid :=
  inferInstanceAs (Decidable (_ ∧ _ ∧ (∀ h ∈ d.refs, IsI64 h.seq) ∧ _))

/-- The fields, each read in its turn. -/
def fromCbor (c : Cbor) : Except DecodeError OpData := do
  let share ← (← c.tryGet 1).tryText
  let gladeId ← (← c.tryGet 2).tryText
  let key ← (← c.tryGet 3).tryBytes
  let origin ← (← c.tryGet 4).tryText
  let seq ← (← c.tryGet 5).tryInt
  let prev ← (← c.tryGet 6).tryOpt Cbor.tryBytes
  let lamport ← (← c.tryGet 7).tryInt
  let refs ← (← (← c.tryGet 8).tryArray).mapM Head.fromCbor
  let shape ← Shape.fromWire (← (← c.tryGet 9).tryInt)
  let payload ← (← c.tryGet 10).tryBytes
  return { share, gladeId, key, origin, seq := seq.toInt, prev, lamport := lamport.toInt, refs, shape, payload }

end OpData

structure Op extends OpData where
  valid : toOpData.Valid
  deriving DecidableEq

namespace Op

/-- An op of the fields, where they are such as the source's types hold. -/
def ofData (d : OpData) : Option Op := if h : d.Valid then some ⟨d, h⟩ else none

/-- The fields are the source's; a buffer cannot hold what is refused last. -/
def fromCbor (c : Cbor) : Except DecodeError Op := do
  let d ← OpData.fromCbor c
  match ofData d with
  | some op => return op
  | none => .error (.tooLarge d.payload.length maxLen)

def encoding (op : Op) : Bytes := encode op.toCbor

@[ext] theorem ext {a b : Op} (h : a.toOpData = b.toOpData) : a = b := by
  cases a; cases b; cases h; rfl

@[simp] theorem ofData_toOpData (op : Op) : ofData op.toOpData = some op := dif_pos op.valid

theorem toOpData_of_ofData {d : OpData} {op : Op} (h : ofData d = some op) : op.toOpData = d := by
  rw [ofData] at h
  split at h
  · exact (congrArg Op.toOpData (Option.some.inj h)).symm
  · exact absurd h (by simp)

end Op

/-! ### The round trip -/

theorem shaped_ofOption {d : ℕ} (b : Option Bytes) : Shaped true d (.ofOption b) := by
  cases b <;> cases d <;> trivial

theorem tryOpt_ofOption (b : Option Bytes) : (Cbor.ofOption b).tryOpt Cbor.tryBytes = .ok b := by
  cases b <;> rfl

theorem Head.shaped_toCbor {d : ℕ} (h : Head) : Shaped true (d + 1) h.toCbor := by
  refine shaped_map [1, 2, 3] rfl (by decide) (by simp) ?_
  simp only [List.map_cons, List.map_nil, List.forall_mem_cons]
  exact ⟨shaped_text _, shaped_int _, shaped_ofOption _, by simp⟩

theorem Head.fromCbor_toCbor {h : Head} (hv : IsI64 h.seq) : Head.fromCbor h.toCbor = .ok h := by
  have hseq := toInt_ofInt hv
  cases h with
  | mk origin seq hash => simp_all [Head.fromCbor, Head.toCbor, Cbor.tryGet, Cbor.tryText, Cbor.tryInt,
      tryOpt_ofOption, bind, Except.bind, pure, Except.pure]

theorem mapM_fromCbor_map_toCbor {hs : List Head} (hv : ∀ h ∈ hs, IsI64 h.seq) :
    (hs.map Head.toCbor).mapM Head.fromCbor = .ok hs := by
  induction hs with
  | nil => rfl
  | cons h hs ih =>
    rw [List.map_cons, List.mapM_cons, Head.fromCbor_toCbor (hv h (by simp)),
      ih (fun x hx => hv x (by simp [hx]))]
    rfl

theorem OpData.shaped_toCbor (d : OpData) : Shaped true 3 d.toCbor := by
  have hheads : Shaped true 2 (.array (d.refs.map Head.toCbor)) := by
    intro v hv
    obtain ⟨h, -, rfl⟩ := List.mem_map.mp hv
    exact h.shaped_toCbor
  refine shaped_map [1, 2, 3, 4, 5, 6, 7, 8, 9, 10] rfl (by decide) (by simp) ?_
  simp only [List.map_cons, List.map_nil, List.forall_mem_cons]
  exact ⟨shaped_text _, shaped_text _, shaped_bytes _, shaped_text _, shaped_int _, shaped_ofOption _,
    shaped_int _, hheads, shaped_int _, shaped_bytes _, by simp⟩

theorem OpData.fromCbor_toCbor {d : OpData} (hv : d.Valid) : OpData.fromCbor d.toCbor = .ok d := by
  have hseq := toInt_ofInt hv.1
  have hlam := toInt_ofInt hv.2.1
  have hrefs := mapM_fromCbor_map_toCbor hv.2.2.1
  simp [OpData.fromCbor, OpData.toCbor, Cbor.tryGet, Cbor.tryText, Cbor.tryBytes, Cbor.tryInt, Cbor.tryArray,
    tryOpt_ofOption, Shape.fromWire_wire, bind, Except.bind, pure, Except.pure, hseq, hlam, hrefs]

namespace Op

theorem tryDecode_encoding (op : Op) : tryDecode op.encoding = .ok op.toCbor :=
  tryDecode_encode ⟨op.shaped_toCbor, lt_of_le_of_lt op.valid.2.2.2 (by decide)⟩ (by decide)

theorem fromCbor_toCbor (op : Op) : Op.fromCbor op.toCbor = .ok op := by
  simp only [Op.fromCbor, OpData.fromCbor_toCbor op.valid, bind, Except.bind, ofData_toOpData]
  rfl

end Op

/-! ### Ops that are small -/

theorem length_head_le (major n : ℕ) : (head major n).length ≤ 9 := by
  rw [head]
  split_ifs <;> simp

/-- A map's length: its head, and each entry's key and value. -/
theorem length_encode_map (entries : List (Int64 × Cbor)) :
    (encode (.map entries)).length =
      (head 5 entries.length).length +
        (entries.map fun e => (head 0 e.1.toUInt64.toNat).length + (encode e.2).length).sum := by
  have hperm : (sortEntries (encodeEntries entries)).Perm (encodeEntries entries) := List.perm_insertionSort _ _
  rw [encode, List.length_append, (hperm.flatMap_right Prod.snd).length_eq, encodeEntries_eq, List.length_flatMap,
    List.map_map]
  simp [Function.comp_def]

theorem length_encode_map_le (entries : List (Int64 × Cbor)) :
    (encode (.map entries)).length ≤ 9 + (entries.map fun e => 9 + (encode e.2).length).sum := by
  rw [length_encode_map]
  apply Nat.add_le_add (length_head_le _ _)
  apply List.sum_le_sum
  intro e _
  exact Nat.add_le_add_right (length_head_le _ _) _

theorem length_encInt_le (n : Int64) : (encInt n).length ≤ 9 := by
  rw [encInt]
  split_ifs <;> exact length_head_le _ _

theorem length_head_mono (major : ℕ) {m n : ℕ} (h : m ≤ n) : (head major m).length ≤ (head major n).length := by
  simp only [head]
  split_ifs <;> simp [Words.length_beBytes] <;> omega

theorem length_encInt_mono {a b : ℤ} (ha : 0 ≤ a) (hab : a ≤ b) (hb : IsI64 b) :
    (encInt (Int64.ofInt a)).length ≤ (encInt (Int64.ofInt b)).length := by
  have hnonneg : ∀ n : ℤ, 0 ≤ n → IsI64 n → encInt (Int64.ofInt n) = head 0 n.toNat := by
    intro n hn hi
    rw [encInt, if_pos, toInt_ofInt hi]
    rw [Int64.le_iff_toInt_le, toInt_ofInt hi]
    exact hn
  have hi : IsI64 a := by
    unfold IsI64 at hb ⊢
    omega
  rw [hnonneg a ha hi, hnonneg b (ha.trans hab) hb]
  exact length_head_mono 0 (Int.toNat_le_toNat hab)

/-- An op earlier in its chain is no longer, where its fields are of one length. -/
theorem OpData.length_encode_le (d : OpData) {a b : ℤ} (ha : 0 ≤ a) (hab : a ≤ b)
    (hb : IsI64 b) {prev prev' payload payload' : Bytes}
    (hprev : prev.length = prev'.length) (hpayload : payload.length = payload'.length) :
    (encode ({ d with seq := a, lamport := a, prev := some prev, payload }.toCbor)).length ≤
      (encode ({ d with seq := b, lamport := b, prev := some prev', payload := payload' }.toCbor)).length := by
  have hseq := length_encInt_mono ha hab hb
  rw [OpData.toCbor, OpData.toCbor, length_encode_map, length_encode_map]
  simp only [List.map_cons, List.map_nil, List.sum_cons, List.length_cons, Cbor.ofOption, encode, List.length_append, hprev,
    hpayload]
  omega

/-- An op whose fields are far from filling a buffer. -/
theorem OpData.valid_of_small {d : OpData} (hseq : IsI64 d.seq) (hlamport : IsI64 d.lamport) (hrefs : d.refs = [])
    (hlen : (utf8 d.share).length + (utf8 d.gladeId).length + d.key.length + (utf8 d.origin).length +
      (d.prev.getD []).length + d.payload.length < 2 ^ 62) : d.Valid := by
  refine ⟨hseq, hlamport, by simp [hrefs], ?_⟩
  refine (length_encode_map_le _).trans ?_
  have hhead := fun major n => length_head_le major n
  have hprev : (encode (Cbor.ofOption d.prev)).length ≤ 9 + (d.prev.getD []).length := by
    cases d.prev with
    | none => simp [Cbor.ofOption, encode]
    | some b =>
      have := hhead 2 b.length
      simp only [Cbor.ofOption, encode, List.length_append, Option.getD_some]
      omega
  have h1 := hhead 3 (utf8 d.share).length
  have h2 := hhead 3 (utf8 d.gladeId).length
  have h3 := hhead 2 d.key.length
  have h4 := hhead 3 (utf8 d.origin).length
  have h5 := length_encInt_le (Int64.ofInt d.seq)
  have h7 := length_encInt_le (Int64.ofInt d.lamport)
  have h8 := hhead 4 0
  have h9 := length_encInt_le d.shape.wire
  have h10 := hhead 2 d.payload.length
  simp only [List.map_cons, List.map_nil, List.sum_cons, List.sum_nil, hrefs, encode, encodeItems, List.length_append,
    List.length_nil, maxLen]
  omega

/-- The op `bytes` hold, or why they were refused. -/
def decodeOp (bytes : Bytes) : Except DecodeError Op := tryDecode bytes >>= Op.fromCbor

theorem decodeOp_encoding (op : Op) : decodeOp op.encoding = .ok op := by
  rw [decodeOp, op.tryDecode_encoding]
  exact op.fromCbor_toCbor

end Glade.Wire
