import Glade.Lib.Words

/-! The wire's CBOR (`wire-rs/src/cbor.rs`): the deterministic encoder and the
fail-closed decoder. A `&mut` offset into the input is the suffix still to be
read. Lengths and arguments are natural numbers, cut to the 64 bits a head
holds; `Glade.Wire.CborRoundTrip` says what is read back. -/

namespace Glade.Wire

open Words

abbrev Bytes := List UInt8

inductive Cbor where
  | int (n : Int64)
  | float (bits : UInt64)
  | bytes (b : Bytes)
  | text (s : String)
  | array (items : List Cbor)
  | map (entries : List (Int64 × Cbor))
  | bool (b : Bool)
  | null

inductive DecodeError where
  | truncated
  | trailingBytes
  | invalidUtf8
  | unsupportedInfo (info : ℕ)
  | unsupportedMajor (major : ℕ)
  | nonIntegerMapKey
  | duplicateMapKey (key : Int64)
  | intOverflow
  | nonCanonicalInt (value : ℕ)
  | negativeMapKey (key : Int64)
  | missingKey (key : Int64)
  | wrongType (expected : String)
  | unknownEnum (enumName : String) (value : Int64)
  | tooDeep (limit : ℕ)
  | tooLarge (len limit : ℕ)
  deriving DecidableEq

/-- A string's bytes, as `str::as_bytes` gives them. -/
def utf8 (s : String) : Bytes := s.toUTF8.data.toList

/-- `str::from_utf8`. -/
def fromUtf8 (b : Bytes) : Option String := String.fromUTF8? ⟨b.toArray⟩

theorem fromUtf8_utf8 (s : String) : fromUtf8 (utf8 s) = some s := by
  have hv : (⟨(utf8 s).toArray⟩ : ByteArray).IsValidUTF8 := by
    simpa only [utf8, Array.toArray_toList, String.toUTF8_eq_toByteArray] using s.isValidUTF8
  rw [fromUtf8, String.fromUTF8?, dif_pos hv]
  rfl

theorem utf8_eq_of_fromUtf8 {b : Bytes} {s : String} (h : fromUtf8 b = some s) : utf8 s = b := by
  unfold fromUtf8 String.fromUTF8? at h
  split_ifs at h with hvalid
  obtain rfl := Option.some.inj h
  rfl

theorem utf8_injective : Function.Injective utf8 := fun s t h => by
  have hs := fromUtf8_utf8 s
  rw [h, fromUtf8_utf8 t] at hs
  exact (Option.some.inj hs).symm

/-! ### Floats

A float is its 64 bits. No record of the node holds one; the decoder still
reads them in a value it then skips. -/

/-- The bits of the double a half-width float widens to. -/
def f16ToF64 (bits : ℕ) : UInt64 :=
  let sign := bits / 2 ^ 15
  let exp := bits / 2 ^ 10 % 32
  let frac := bits % 2 ^ 10
  let p := Nat.log2 frac
  UInt64.ofNat <|
    if exp = 0 then
      if frac = 0 then sign * 2 ^ 63 else sign * 2 ^ 63 + (p + 999) * 2 ^ 52 + (frac - 2 ^ p) * 2 ^ (52 - p)
    else if exp = 31 then
      if frac = 0 then sign * 2 ^ 63 + 0x7ff * 2 ^ 52 else 0x7ff8 * 2 ^ 48
    else sign * 2 ^ 63 + (exp + 1008) * 2 ^ 52 + frac * 2 ^ 42

/-- The bits of the double a single-width float widens to, a NaN made quiet. -/
def f32ToF64 (bits : ℕ) : UInt64 :=
  let sign := bits / 2 ^ 31
  let exp := bits / 2 ^ 23 % 256
  let frac := bits % 2 ^ 23
  let p := Nat.log2 frac
  UInt64.ofNat <|
    if exp = 0 then
      if frac = 0 then sign * 2 ^ 63 else sign * 2 ^ 63 + (p + 874) * 2 ^ 52 + (frac - 2 ^ p) * 2 ^ (52 - p)
    else if exp = 255 then
      sign * 2 ^ 63 + 0x7ff * 2 ^ 52 + (if frac = 0 then 0 else (frac ||| 2 ^ 22) * 2 ^ 29)
    else sign * 2 ^ 63 + (exp + 896) * 2 ^ 52 + frac * 2 ^ 29

/-- The bits of the half- or single-width float (`e` exponent bits, `f`
fraction bits) nearest below a finite double. It is that double only when the
double has no bits to spare, which `encFloat` checks. -/
def narrow (e f bits : ℕ) : ℕ :=
  let sign := bits / 2 ^ 63
  let exp := bits / 2 ^ 52 % 2 ^ 11
  let frac := bits % 2 ^ 52
  let bias := 2 ^ (e - 1) - 1
  sign * 2 ^ (e + f) +
    (if exp = 0x7ff then (2 ^ e - 1) * 2 ^ f
    else if 1023 < exp + bias then (exp + bias - 1023) * 2 ^ f + frac / 2 ^ (52 - f)
    else (2 ^ 52 + frac) / 2 ^ (52 - f + (1024 - (exp + bias))))

/-- The shortest of the three widths that holds the value, and the one NaN. -/
def encFloat (bits : UInt64) : Bytes :=
  if bits.toNat % 2 ^ 63 > 0x7ff * 2 ^ 52 then [0xf9, 0x7e, 0x00]
  else if f16ToF64 (narrow 5 10 bits.toNat) = bits then 0xf9 :: beBytes 2 (narrow 5 10 bits.toNat)
  else if f32ToF64 (narrow 8 23 bits.toNat) = bits then 0xfa :: beBytes 4 (narrow 8 23 bits.toNat)
  else 0xfb :: beBytes 8 bits.toNat

/-! ### Encode -/

/-- A head: the major type and its argument in the fewest bytes. -/
def head (major n : ℕ) : Bytes :=
  if n < 24 then [UInt8.ofNat (major * 32 + n)]
  else if n < 0x100 then UInt8.ofNat (major * 32 + 24) :: beBytes 1 n
  else if n < 0x10000 then UInt8.ofNat (major * 32 + 25) :: beBytes 2 n
  else if n < 0x100000000 then UInt8.ofNat (major * 32 + 26) :: beBytes 4 n
  else UInt8.ofNat (major * 32 + 27) :: beBytes 8 n

/-- A major-0 or major-1 head. -/
def encInt (n : Int64) : Bytes :=
  if 0 ≤ n then head 0 n.toInt.toNat else head 1 (-1 - n.toInt).toNat

/-- A map's entries in ascending key order, equal keys in their own order. -/
def sortEntries {α : Type} (entries : List (Int64 × α)) : List (Int64 × α) :=
  entries.insertionSort (fun a b => a.1 ≤ b.1)

mutual

def encode : Cbor → Bytes
  | .int n => encInt n
  | .float bits => encFloat bits
  | .bytes b => head 2 b.length ++ b
  | .text s => head 3 (utf8 s).length ++ utf8 s
  | .array items => head 4 items.length ++ encodeItems items
  | .map entries => head 5 entries.length ++ (sortEntries (encodeEntries entries)).flatMap Prod.snd
  | .bool b => [if b then 0xf5 else 0xf4]
  | .null => [0xf6]

def encodeItems : List Cbor → Bytes
  | [] => []
  | v :: vs => encode v ++ encodeItems vs

/-- Each entry's key beside the bytes of the key and its value. -/
def encodeEntries : List (Int64 × Cbor) → List (Int64 × Bytes)
  | [] => []
  | (k, v) :: es => (k, head 0 k.toUInt64.toNat ++ encode v) :: encodeEntries es

end

/-! ### Decode -/

/-- The depth bound where the caller gives none. -/
def defaultMaxDepth : ℕ := 32

abbrev Reader (α : Type) := Bytes → Except DecodeError (α × Bytes)

def take (n : ℕ) : Reader Bytes := fun bs =>
  if n ≤ bs.length then .ok (bs.take n, bs.drop n) else .error .truncated

/-- How many bytes the argument of `info` takes after its first byte. -/
def argWidth : ℕ → Option ℕ
  | 24 => some 1
  | 25 => some 2
  | 26 => some 4
  | 27 => some 8
  | _ => none

/-- A multi-byte argument that a shorter form would hold. -/
def fitsShorter (width value : ℕ) : Bool :=
  match width with
  | 1 => value < 24
  | w => value < 256 ^ (w / 2)

def readArg (info : ℕ) : Reader ℕ := fun bs =>
  if info < 24 then .ok (info, bs)
  else
    match argWidth info with
    | none => .error (.unsupportedInfo info)
    | some w => do
      let (raw, rest) ← take w bs
      if fitsShorter w (ofBe raw) then .error (.nonCanonicalInt (ofBe raw)) else .ok (ofBe raw, rest)

/-- The entries of a map of `n`, each key checked before its value is read. -/
def decEntries (item : Reader Cbor) : ℕ → List Int64 → Reader (List (Int64 × Cbor))
  | 0, _, bs => .ok ([], bs)
  | n + 1, seen, bs => do
    let (k, bs) ← item bs
    match k with
    | .int k =>
      if k < 0 then .error (.negativeMapKey k)
      else if k ∈ seen then .error (.duplicateMapKey k)
      else
        let (v, bs) ← item bs
        let (es, bs) ← decEntries item n (k :: seen) bs
        return ((k, v) :: es, bs)
    | _ => .error .nonIntegerMapKey

/-- One item. `inner` reads the items of a container, and is absent at the
depth bound `limit`, where a container is refused once its head is read. -/
def decWith (limit : ℕ) (inner : Option (Reader Cbor)) : Reader Cbor
  | [] => .error .truncated
  | first :: bs =>
    let info := first.toNat % 32
    match first.toNat / 32 with
    | 0 => do
      let (n, bs) ← readArg info bs
      if n < 2 ^ 63 then .ok (.int (Int64.ofNat n), bs) else .error .intOverflow
    | 1 => do
      let (n, bs) ← readArg info bs
      if n < 2 ^ 63 then .ok (.int (Int64.ofInt (-1 - n)), bs) else .error .intOverflow
    | 2 => do
      let (n, bs) ← readArg info bs
      let (b, bs) ← take n bs
      return (.bytes b, bs)
    | 3 => do
      let (n, bs) ← readArg info bs
      let (b, bs) ← take n bs
      match fromUtf8 b with
      | some s => return (.text s, bs)
      | none => .error .invalidUtf8
    | 4 => do
      let (n, bs) ← readArg info bs
      match inner with
      | none => .error (.tooDeep limit)
      | some item =>
        let (items, bs) ← many item n bs
        return (.array items, bs)
    | 5 => do
      let (n, bs) ← readArg info bs
      match inner with
      | none => .error (.tooDeep limit)
      | some item =>
        let (entries, bs) ← decEntries item n [] bs
        return (.map entries, bs)
    | 7 =>
      match info with
      | 20 => .ok (.bool false, bs)
      | 21 => .ok (.bool true, bs)
      | 22 => .ok (.null, bs)
      | 25 => do
        let (raw, bs) ← take 2 bs
        return (.float (f16ToF64 (ofBe raw)), bs)
      | 26 => do
        let (raw, bs) ← take 4 bs
        return (.float (f32ToF64 (ofBe raw)), bs)
      | 27 => do
        let (raw, bs) ← take 8 bs
        return (.float (UInt64.ofNat (ofBe raw)), bs)
      | i => .error (.unsupportedInfo i)
    | m => .error (.unsupportedMajor m)

/-- One item with `d` levels of containers left below the bound. -/
def dec (limit : ℕ) : ℕ → Reader Cbor
  | 0 => decWith limit none
  | d + 1 => decWith limit (some (dec limit d))

/-- The whole input, one item at the default depth bound and nothing after it. -/
def tryDecode (bs : Bytes) : Except DecodeError Cbor := do
  let (v, rest) ← dec defaultMaxDepth defaultMaxDepth bs
  if rest = [] then return v else .error .trailingBytes

/-! ### Accessors -/

namespace Cbor

def tryGet (key : Int64) : Cbor → Except DecodeError Cbor
  | .map m =>
    match m.find? (fun e => e.1 == key) with
    | some e => .ok e.2
    | none => .error (.missingKey key)
  | _ => .error (.wrongType "map")

def tryInt : Cbor → Except DecodeError Int64
  | .int n => .ok n
  | _ => .error (.wrongType "int")

def tryText : Cbor → Except DecodeError String
  | .text s => .ok s
  | _ => .error (.wrongType "text")

def tryBytes : Cbor → Except DecodeError Bytes
  | .bytes b => .ok b
  | _ => .error (.wrongType "bytes")

def tryArray : Cbor → Except DecodeError (List Cbor)
  | .array a => .ok a
  | _ => .error (.wrongType "array")

/-- An optional field's value: null is none. -/
def tryOpt {α : Type} (read : Cbor → Except DecodeError α) : Cbor → Except DecodeError (Option α)
  | .null => .ok none
  | v => some <$> read v

end Cbor

end Glade.Wire
