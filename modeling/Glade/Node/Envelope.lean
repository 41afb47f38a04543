import Glade.Node.Signing
import Glade.Node.Records

/-! The signed envelope (`node/src/envelope.rs`): the bounded reader a payload is
read with before it is trusted, sealing and opening an envelope, and a record's
kind check. The reader takes heads of any width, so what it reads is compared
with its canonical encoding. -/

namespace Glade.Node

open Wire Words

/-! ### The bounded reader -/

/-- One item's head: its major type and its argument. -/
def itemHead : Bytes → Option ((ℕ × ℕ) × Bytes)
  | [] => none
  | first :: bs =>
    let major := first.toNat / 32
    let info := first.toNat % 32
    if info < 24 then some ((major, info), bs)
    else do
      let w ← argWidth info
      if w ≤ bs.length then some ((major, ofBe (bs.take w)), bs.drop w) else none

/-- An item that is an integer, a byte string or text, or one `container` reads
from its major type, its count and the bytes after its head. -/
def itemWith (container : ℕ → ℕ → Bytes → Option (Cbor × Bytes)) (bs : Bytes) : Option (Cbor × Bytes) := do
  let ((major, n), bs) ← itemHead bs
  match major with
  | 0 => if n < 2 ^ 63 then some (.int (Int64.ofNat n), bs) else none
  | 1 => if n < 2 ^ 63 then some (.int (Int64.ofInt (-1 - n)), bs) else none
  | 2 => if n ≤ bs.length then some (.bytes (bs.take n), bs.drop n) else none
  | 3 =>
    if n ≤ bs.length then do
      let s ← fromUtf8 (bs.take n)
      some (.text s, bs.drop n)
    else none
  | m => container m n bs

def scalar : Bytes → Option (Cbor × Bytes) := itemWith fun _ _ _ => none

/-- A map's entry: an integer key, then its value. -/
def entry (item : Bytes → Option (Cbor × Bytes)) (bs : Bytes) : Option ((Int64 × Cbor) × Bytes) := do
  let (k, bs) ← scalar bs
  match k with
  | .int k => do
    let (v, bs) ← item bs
    some ((k, v), bs)
  | _ => none

/-- An array or a map whose count is not past the bytes left. -/
def containerOf (item : Bytes → Option (Cbor × Bytes)) : ℕ → ℕ → Bytes → Option (Cbor × Bytes)
  | 4, n, bs =>
    if n ≤ bs.length then do
      let (items, bs) ← many item n bs
      some (.array items, bs)
    else none
  | 5, n, bs =>
    if n ≤ bs.length then do
      let (entries, bs) ← many (entry item) n bs
      some (.map entries, bs)
    else none
  | _, _, _ => none

/-- One item, containers only while `depth` allows. -/
def item : ℕ → Bytes → Option (Cbor × Bytes)
  | 0 => scalar
  | depth + 1 => itemWith (containerOf (item depth))

/-- The item `bytes` holds, nested at most two deep, and nothing after it. -/
def parse (bytes : Bytes) : Option Cbor := do
  let (v, rest) ← item 2 bytes
  if rest = [] then some v else none

/-! ### What the reader reads back -/

theorem itemHead_head {major n : ℕ} (hm : major < 8) (hn : n < 2 ^ 64) (rest : Bytes) :
    itemHead (head major n ++ rest) = some ((major, n), rest) := by
  obtain ⟨info, arg, hi, heq, h⟩ := head_forms major hn
  obtain ⟨hmaj, hinf⟩ := toNat_first hm hi
  rw [heq, List.cons_append, itemHead, hmaj, hinf]
  obtain ⟨hlt, rfl, rfl⟩ | ⟨w, hlt, hw, hnw, -, rfl⟩ := h
  · rw [if_pos hlt]
    rfl
  · have hlen : w ≤ (beBytes w n ++ rest).length := by simp
    have htake : (beBytes w n ++ rest).take w = beBytes w n := List.take_left' (length_beBytes w n)
    have hdrop : (beBytes w n ++ rest).drop w = rest := List.drop_left' (length_beBytes w n)
    simp only [if_neg hlt, hw, Option.bind_eq_bind, Option.bind_some, if_pos hlen, htake, hdrop, ofBe_beBytes,
      Nat.mod_eq_of_lt hnw]

theorem itemWith_encInt (container : ℕ → ℕ → Bytes → Option (Cbor × Bytes)) (n : Int64) (rest : Bytes) :
    itemWith container (encInt n ++ rest) = some (.int n, rest) := by
  have hlo := n.le_toInt
  have hhi := n.toInt_lt
  rw [encInt]
  split_ifs with h0
  all_goals rw [Int64.le_iff_toInt_le, Int64.toInt_zero] at h0
  · have hv : Int64.ofNat n.toInt.toNat = n := by
      rw [← Int64.ofInt_eq_ofNat, Int.toNat_of_nonneg h0, Int64.ofInt_toInt]
    rw [itemWith, itemHead_head (by omega) (by omega)]
    simp only [Option.bind_eq_bind, Option.bind_some, if_pos (show n.toInt.toNat < 2 ^ 63 by omega), hv]
  · have hv : Int64.ofInt (-1 - ((-1 - n.toInt).toNat : ℤ)) = n := by
      rw [Int.toNat_of_nonneg (by omega), show -1 - (-1 - n.toInt) = n.toInt by omega, Int64.ofInt_toInt]
    rw [itemWith, itemHead_head (by omega) (by omega)]
    simp only [Option.bind_eq_bind, Option.bind_some, if_pos (show (-1 - n.toInt).toNat < 2 ^ 63 by omega), hv]

theorem item_eq (d : ℕ) : ∃ container, item d = itemWith container := by
  cases d with
  | zero => exact ⟨fun _ _ _ => none, by rw [item, scalar]⟩
  | succ d => exact ⟨_, rfl⟩

theorem item_int {d : ℕ} (n : Int64) (rest : Bytes) : item d (encode (.int n) ++ rest) = some (.int n, rest) := by
  obtain ⟨container, hc⟩ := item_eq d
  rw [hc, encode, itemWith_encInt]

theorem item_bytes {d : ℕ} {b : Bytes} (h : b.length < 2 ^ 64) (rest : Bytes) :
    item d (encode (.bytes b) ++ rest) = some (.bytes b, rest) := by
  obtain ⟨container, hc⟩ := item_eq d
  rw [hc, encode, List.append_assoc, itemWith, itemHead_head (by omega) (by omega)]
  simp

theorem item_text {d : ℕ} {s : String} (h : (utf8 s).length < 2 ^ 64) (rest : Bytes) :
    item d (encode (.text s) ++ rest) = some (.text s, rest) := by
  obtain ⟨container, hc⟩ := item_eq d
  rw [hc, encode, List.append_assoc, itemWith, itemHead_head (by omega) (by omega)]
  simp [fromUtf8_utf8]

theorem item_array {d : ℕ} {items : List Cbor} (hn : items.length < 2 ^ 64)
    (hitems : ∀ v ∈ items, ∀ rest, item d (encode v ++ rest) = some (v, rest)) (rest : Bytes) :
    item (d + 1) (encode (.array items) ++ rest) = some (.array items, rest) := by
  have hcount := (length_flatMap_ge encode items (fun v _ => encode_length_pos v)).1
  have hmany := many_flatMap (item d) encode items hitems rest
  rw [encode, encodeItems_eq, List.append_assoc, item, itemWith, itemHead_head (by omega) hn]
  simp only [Option.bind_eq_bind, Option.bind_some, containerOf, hmany]
  rw [if_pos (by rw [List.length_append]; omega)]
  rfl

theorem entry_encode {item : Bytes → Option (Cbor × Bytes)} {e : Int64 × Cbor} (hk : 0 ≤ e.1)
    (hv : ∀ rest, item (encode e.2 ++ rest) = some (e.2, rest)) (rest : Bytes) :
    entry item ((head 0 e.1.toUInt64.toNat ++ encode e.2) ++ rest) = some (e, rest) := by
  rw [List.append_assoc, entry, scalar, head_key hk, itemWith_encInt]
  simp only [Option.bind_eq_bind, Option.bind_some, hv]

theorem item_map {d : ℕ} {entries : List (Int64 × Cbor)} (hn : entries.length < 2 ^ 64)
    (hsorted : (entries.map Prod.fst).Pairwise (· < ·)) (hpos : ∀ e ∈ entries, 0 ≤ e.1)
    (hvals : ∀ e ∈ entries, ∀ rest, item d (encode e.2 ++ rest) = some (e.2, rest)) (rest : Bytes) :
    item (d + 1) (encode (.map entries) ++ rest) = some (.map entries, rest) := by
  have hcount := (length_flatMap_ge (fun e : Int64 × Cbor => head 0 e.1.toUInt64.toNat ++ encode e.2) entries
    (fun e _ => by rw [List.length_append]; exact Nat.add_pos_left (head_length_pos _ _) _)).1
  have hmany := many_flatMap (entry (item d)) (fun e => head 0 e.1.toUInt64.toNat ++ encode e.2) entries
    (fun e he => entry_encode (hpos e he) (hvals e he)) rest
  rw [encode, sortEntries_encodeEntries hsorted, encodeEntries_eq, List.flatMap_map, List.append_assoc, item,
    itemWith, itemHead_head (by omega) hn]
  simp only [Option.bind_eq_bind, Option.bind_some, containerOf, hmany]
  rw [if_pos (by rw [List.length_append]; omega)]
  rfl

theorem item_encode {d : ℕ} {v : Cbor} (hv : Shaped false d v) (hc : Counted v) (rest : Bytes) :
    item d (encode v ++ rest) = some (v, rest) := by
  induction d generalizing v rest with
  | zero =>
    cases hc with
    | int n => exact item_int n rest
    | bytes b hlen => exact item_bytes hlen rest
    | text s hlen => exact item_text hlen rest
    | _ => simp [Shaped] at hv
  | succ d ih =>
    cases hc with
    | int n => exact item_int n rest
    | bytes b hlen => exact item_bytes hlen rest
    | text s hlen => exact item_text hlen rest
    | array items hlen hitems => exact item_array hlen (fun w hw => ih (hv w hw) (hitems w hw)) rest
    | map entries hlen hvals =>
      obtain ⟨hsorted, hes⟩ := hv
      exact item_map hlen hsorted (fun e he => (hes e he).1) (fun e he => ih (hes e he).2 (hvals e he)) rest
    | _ => simp [Shaped] at hv

/-- What the bounded reader reads of canonical bytes is what was written. -/
theorem parse_of_counted {v : Cbor} (hv : Shaped false 2 v) (hc : Counted v) : parse (encode v) = some v := by
  have h := item_encode hv hc []
  rw [List.append_nil] at h
  rw [parse, h]
  rfl

theorem parse_encode {v : Cbor} (hv : Fits false 2 v) : parse (encode v) = some v :=
  parse_of_counted hv.1 hv.counted

/-! ### Sealing and opening -/

variable {C : Crypto}

/-- `record`, the payload of an op otherwise as `d`, sealed by `me`: the
envelope's bytes. The signature covers every field of the op. -/
def sealRecord (me : NodeIdentity C) (d : OpData) : Bytes :=
  encode (SignedRecord.toCbor { record := d.payload, sig := me.sign (encode d.toCbor) })

/-- The record and the signature `payload` holds, if it is exactly an envelope. -/
def openEnvelope (payload : Bytes) : Option (Bytes × Bytes) :=
  match parse payload with
  | some (.map [(k₁, .bytes record), (k₂, .bytes sig)]) =>
    if (k₁ = 1 ∧ k₂ = 2) ∧ sig.length = 64 ∧ encode (.map [(k₁, .bytes record), (k₂, .bytes sig)]) = payload then
      some (record, sig)
    else none
  | _ => none

/-- The record `payload` carries: the envelope's, or the payload itself. -/
def recordBytes (payload : Bytes) : Bytes :=
  match openEnvelope payload with
  | some (record, _) => record
  | none => payload

/-- The record an op carries, decoded by a record kind's `fromCbor`. -/
def readRecord {α : Type} (op : Op) (from_ : Cbor → Except DecodeError α) : Except DecodeError α :=
  tryDecode (recordBytes op.payload) >>= from_

/-- `readRecord` for a fold, which skips a record it refuses. -/
def folded {α : Type} (op : Op) (from_ : Cbor → Except DecodeError α) : Option α :=
  match readRecord op from_ with
  | .ok r => some r
  | .error _ => none

/-- Whether `record` is of `fields`, exactly, in its canonical encoding. -/
def isKind (record : Bytes) (fields : List Field) : Bool :=
  match parse record with
  | some (.map entries) => typed 1 fields entries && encode (.map entries) == record
  | _ => false

theorem openEnvelope_seal {me : NodeIdentity C} {d : OpData} (h : (sealRecord me d).length < 2 ^ 64) :
    openEnvelope (sealRecord me d) = some (d.payload, me.sign (encode d.toCbor)) := by
  have hshape := (SignedRecord.shaped_toCbor ⟨d.payload, me.sign (encode d.toCbor)⟩).succ
  have hparse := parse_encode ⟨hshape, h⟩
  rw [openEnvelope, sealRecord, hparse]
  simp only [SignedRecord.toCbor, length_sign, and_self, if_true]

theorem length_sealRecord_le (me : NodeIdentity C) (d : OpData) : (sealRecord me d).length ≤ 127 + d.payload.length := by
  have h1 := length_head_le 2 d.payload.length
  have h2 := length_head_le 2 (me.sign (encode d.toCbor)).length
  have hsig := length_sign me (encode d.toCbor)
  refine (length_encode_map_le _).trans ?_
  simp only [List.map_cons, List.map_nil, List.sum_cons, List.sum_nil, encode, List.length_append]
  omega

/-- Sealed, records of one length have one length. -/
theorem length_sealRecord_eq (me : NodeIdentity C) {d d' : OpData} (h : d.payload.length = d'.payload.length) :
    (sealRecord me d).length = (sealRecord me d').length := by
  have hsig := (length_sign me (encode d.toCbor)).trans (length_sign me (encode d'.toCbor)).symm
  rw [sealRecord, sealRecord, SignedRecord.toCbor, SignedRecord.toCbor, length_encode_map, length_encode_map]
  simp only [List.map_cons, List.map_nil, List.sum_cons, List.length_cons, encode, List.length_append, h, hsig]

theorem isKind_encode {r : Record} {fields : List Field} (hk : kind r.gladeId = some fields)
    (h : r.encode.length < 2 ^ 64) : isKind r.encode fields = true := by
  obtain ⟨fields', entries, hk', hentries, htyped⟩ := r.typed_toCbor
  obtain rfl : fields = fields' := Option.some.inj (hk.symm.trans hk')
  have hparse := parse_encode ⟨r.shaped_toCbor, h⟩
  rw [hentries] at hparse
  rw [isKind, Record.encode, hentries, hparse]
  simp [htyped]

end Glade.Node
