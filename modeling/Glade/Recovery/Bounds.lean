import Glade.Wire.Op

/-! The structural preflight of the recovery codec
(`contracts/crdt-recovery-codec/src/bounds.rs`): a walk over CBOR bytes that counts
items and depth and builds nothing. A cursor's index stays within its bytes. -/

namespace Glade.Recovery

open Wire Words

/-- What a decoder may take (`contracts/crdt-admission-data/src/production.rs`). -/
structure DecodeLimits where
  bytes : ℕ
  items : ℕ
  depth : ℕ
  nameBytes : ℕ
  usize : bytes < 2 ^ 64 ∧ items < 2 ^ 64

/-- The codec's errors, and an index that is out of its slice. -/
inductive Error where
  | unavailable
  | invalid
  | capacity
  | panicked
  deriving DecidableEq

namespace Bounds

structure Cursor (bytes : Bytes) where
  index : ℕ
  within : index ≤ bytes.length
  items : ℕ

abbrev Scan (bytes : Bytes) (α : Type) := StateT (Cursor bytes) (Except Error) α

section Scan

variable {bytes : Bytes}

def take (n : ℕ) : Scan bytes Bytes := fun c =>
  if c.index + n < 2 ^ 64 then
    if h : c.index + n ≤ bytes.length then .ok ((bytes.drop c.index).take n, { c with index := c.index + n, within := h })
    else .error .invalid
  else .error .capacity

/-- `self.take(1)?[0]` -/
def byte : Scan bytes UInt8 := do
  match ← take 1 with
  | b :: _ => return b
  | [] => throw .panicked

/-- A head's argument. -/
def argument (additional : ℕ) : Scan bytes ℕ :=
  if additional ≤ 23 then return additional
  else match argWidth additional with
    | some width => do return ofBe (← take width)
    | none => throw .invalid

variable (limits : DecodeLimits)

def item : Scan bytes Unit := fun c =>
  if c.items + 1 < 2 ^ 64 then
    if c.items + 1 > limits.items then .error .capacity else .ok ((), { c with items := c.items + 1 })
  else .error .capacity

/-- `for _ in 0..count { read?; }` -/
def times (read : Scan bytes Unit) : ℕ → Scan bytes Unit
  | 0 => return ()
  | count + 1 => do
    read
    times read count

/-- A container's items, where the depth allows it one more level. -/
def container (inner : Option (Scan bytes Unit)) (major n : ℕ) : Scan bytes Unit :=
  match inner with
  | none => throw .capacity
  | some value =>
    let count := if major = 5 then n * 2 else n
    if 2 ^ 64 ≤ count then throw .capacity
    else fun c => if count > limits.items - c.items then .error .capacity else times value count c

def valueWith (inner : Option (Scan bytes Unit)) : Scan bytes Unit := do
  item limits
  let b ← byte
  let major := b.toNat / 32
  let additional := b.toNat % 32
  let n ← argument additional
  match major with
  | 0 | 1 => return ()
  | 2 => do let _ ← take n
  | 3 => if n > limits.nameBytes then throw .capacity else do let _ ← take n
  | 4 | 5 => container limits inner major n
  | _ => if major = 7 ∧ 20 ≤ additional ∧ additional ≤ 22 then return () else throw .invalid

/-- A value, of containers that may nest `levels` deeper. -/
def value : ℕ → Scan bytes Unit
  | 0 => valueWith limits none
  | levels + 1 => valueWith limits (some (value levels))

end Scan

/-- The items counted so far and in the bytes, which are one value. -/
def scan (limits : DecodeLimits) (items : ℕ) (bytes : Bytes) (depth : ℕ) : Except Error ℕ :=
  if bytes.length > limits.bytes ∨ limits.depth = 0 ∨ limits.depth > 128 then .error .capacity
  else
    match (value limits (limits.depth - depth)).run (⟨0, Nat.zero_le _, items⟩ : Cursor bytes) with
    | .ok ((), c) => if c.index ≠ bytes.length then .error .invalid else .ok c.items
    | .error e => .error e

end Bounds

end Glade.Recovery
