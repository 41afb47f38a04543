import Glade.Wire.Op

/-! Hashes, keys and signatures (`node/src/chain.rs`, `signing.rs`, `peer.rs` and
the hex forms of `transport.rs` and `store.rs`). SHA-256 and Ed25519 are
parameters: what the node relies on is that a signature made with a seed
verifies under the seed's public key. -/

namespace Glade.Node

open Wire

/-- 32 bytes: a digest, a seed or a public key. -/
abbrev Bytes32 := { b : Bytes // b.length = 32 }

structure Crypto where
  sha256 : Bytes → Bytes32
  publicKey : Bytes32 → Bytes32
  /-- The signature of the key a seed expands to. -/
  sign : Bytes32 → Bytes → { b : Bytes // b.length = 64 }
  /-- Whether the bytes are the key's signature on the message, checked strictly. -/
  verifyStrict : Bytes32 → Bytes → Bytes → Bool
  verifyStrict_sign : ∀ seed message, verifyStrict (publicKey seed) message (sign seed message) = true

/-- A message as a number of the base 257, to 32 bytes: no two messages under 32 bytes
have the same. -/
def mix (message : Bytes) : Bytes32 :=
  ⟨Words.leBytes 32 (message.foldl (fun n b => n * 257 + b.toNat + 1) 0), Words.length_leBytes 32 _⟩

/-- Hashes and signatures that compute, for the runs worked out below. A key is its seed. -/
def Crypto.plain : Crypto where
  sha256 := mix
  publicKey seed := seed
  sign seed message := ⟨(mix (seed ++ message)).val ++ (mix (message ++ seed)).val, by simp [mix]⟩
  verifyStrict key message sig := sig = (mix (key ++ message)).val ++ (mix (message ++ key)).val
  verifyStrict_sign _ _ := decide_eq_true rfl

/-- 32 bytes that are all `b`. -/
def filled (b : UInt8) : Bytes32 := ⟨List.replicate 32 b, List.length_replicate⟩

/-- A purpose's tag, ending in a zero byte. -/
def originOpTag : Bytes := utf8 "glade/v1/origin-op" ++ [0]

/-! ### Hex -/

def hexDigit (n : ℕ) : Char :=
  if n < 10 then Char.ofNat (n + 48) else Char.ofNat (n - 10 + 97)

/-- Two lower-case digits a byte. -/
def hex (b : Bytes) : String :=
  String.ofList (b.flatMap fun x => [hexDigit (x.toNat / 16), hexDigit (x.toNat % 16)])

/-- The value of a lower-case hex digit. -/
def digit (c : UInt8) : Option ℕ :=
  if 48 ≤ c ∧ c ≤ 57 then some (c.toNat - 48)
  else if 97 ≤ c ∧ c ≤ 102 then some (c.toNat - 97 + 10)
  else none

/-- The bytes pairs of digits spell. -/
def unhex : Bytes → Option Bytes
  | [] => some []
  | [_] => none
  | hi :: lo :: rest => do
    let h ← digit hi
    let l ← digit lo
    let bs ← unhex rest
    return UInt8.ofNat (h * 16 + l) :: bs

/-- The key `text` writes, if it is exactly 64 lower-case hex digits: two for
each of its 32 bytes. -/
def keyOf (text : String) : Option Bytes32 :=
  match unhex (utf8 text) with
  | some b => if h : b.length = 32 then some ⟨b, h⟩ else none
  | none => none

theorem utf8_ofList (cs : List Char) : utf8 (String.ofList cs) = cs.flatMap String.utf8EncodeChar := by
  rw [utf8, String.toUTF8_eq_toByteArray, String.toByteArray_ofList, List.utf8Encode, List.data_toByteArray]

theorem digit_hexDigit {n : ℕ} (h : n < 16) :
    ∃ c, String.utf8EncodeChar (hexDigit n) = [c] ∧ digit c = some n := by
  interval_cases n <;> exact ⟨_, rfl, rfl⟩

theorem unhex_utf8_hex (b : Bytes) : unhex (utf8 (hex b)) = some b := by
  rw [hex, utf8_ofList]
  induction b with
  | nil => rfl
  | cons x b ih =>
    have hx := x.toNat_lt
    obtain ⟨hi, hhi, dhi⟩ := digit_hexDigit (n := x.toNat / 16) (by omega)
    obtain ⟨lo, hlo, dlo⟩ := digit_hexDigit (n := x.toNat % 16) (by omega)
    have hbyte : UInt8.ofNat (x.toNat / 16 * 16 + x.toNat % 16) = x := by
      rw [Nat.div_add_mod', UInt8.ofNat_toNat]
    simp only [List.flatMap_cons, List.cons_append, List.nil_append, hhi, hlo, unhex, dhi, dlo, ih,
      Option.bind_eq_bind, Option.bind_some, hbyte]
    rfl

theorem hex_injective : Function.Injective hex := fun a b h => by
  have ha := unhex_utf8_hex a
  rw [h, unhex_utf8_hex b] at ha
  exact (Option.some.inj ha).symm

theorem length_utf8_hex (b : Bytes) : (utf8 (hex b)).length = 2 * b.length := by
  rw [hex, utf8_ofList]
  induction b with
  | nil => rfl
  | cons x b ih =>
    have hx := x.toNat_lt
    obtain ⟨hi, hhi, -⟩ := digit_hexDigit (n := x.toNat / 16) (by omega)
    obtain ⟨lo, hlo, -⟩ := digit_hexDigit (n := x.toNat % 16) (by omega)
    simp only [List.flatMap_cons, List.cons_append, List.nil_append, hhi, hlo, List.length_cons, ih]
    omega

theorem keyOf_hex (k : Bytes32) : keyOf (hex k) = some k := by
  rw [keyOf, unhex_utf8_hex]
  simp [k.2]

/-! ### Identities and hashes -/

/-- A node's identity: its id is the public key of its seed. -/
structure NodeIdentity (C : Crypto) where
  seed : Bytes32

variable {C : Crypto}

def NodeIdentity.nodeId (me : NodeIdentity C) : Bytes32 := C.publicKey me.seed

/-- The id as the directory writes it. -/
def NodeIdentity.name (me : NodeIdentity C) : String := hex me.nodeId

/-- The signature on an op's bytes. -/
def NodeIdentity.sign (me : NodeIdentity C) (message : Bytes) : Bytes :=
  (C.sign me.seed (originOpTag ++ message)).val

variable (C) in
/-- Whether `sig` is `signer`'s on an op's bytes, the id being the key. -/
def verifySignature (signer : Bytes32) (message sig : Bytes) : Bool :=
  C.verifyStrict signer (originOpTag ++ message) sig

theorem verifySignature_sign (me : NodeIdentity C) (message : Bytes) :
    verifySignature C me.nodeId message (me.sign message) = true :=
  C.verifyStrict_sign me.seed _

theorem length_sign (me : NodeIdentity C) (message : Bytes) : (me.sign message).length = 64 :=
  (C.sign me.seed _).2

variable (C) in
/-- The op's identity: the digest of its canonical encoding. -/
def opHash (op : Op) : Bytes32 := C.sha256 op.encoding

end Glade.Node
