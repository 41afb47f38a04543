import Glade.Lib.Turns
import Glade.Lib.Words

/-! WebSocket frames on a byte stream (`node/src/ws.rs`, `client-rs/src/ws.rs`,
`wire-rs/src/frame.rs`): the parts of a frame that both readers read alike, the
writer, and the frame sequences of RFC 6455 that carry a message. -/

namespace Glade.Ws

open Turns Words

/-! ### Reading -/

/-- The most bytes a frame may hold. -/
def maxFrameBytes : ℕ := 16 * 2 ^ 20

/-- Why a read ends without a message. -/
inductive Failure where
  | unexpectedEof
  | invalidData (said : String)
  | panicked
  deriving DecidableEq

/-- A message, or that the other side closed. -/
inductive Msg where
  | binary (payload : List UInt8)
  | close
  deriving DecidableEq

abbrev Stream := Reading Failure

def readExact (n : ℕ) : Stream (List UInt8) := Reading.exact .unexpectedEof n

def refuse {α : Type} (said : String) : Stream α := Reading.fail (.invalidData said)

/-- The length a frame's header claims, if it is within the limit; a `usize` holds any such length. -/
def frameLen (claimed : ℕ) : Stream ℕ :=
  if claimed ≤ maxFrameBytes then pure claimed
  else refuse s!"bad frame: {claimed} bytes, over the limit of {maxFrameBytes}"

/-- The length that the second byte of a header and what follows it claim. -/
def claimedLen (h1 : UInt8) : Stream ℕ :=
  let len := (h1 &&& 0x7f).toNat
  if len = 126 then do
    let e ← readExact 2
    return ofBe e
  else if len = 127 then do
    let e ← readExact 8
    return ofBe e
  else pure len

/-- A payload with a mask put on it, or taken off. -/
def xorMask (mask payload : List UInt8) : List UInt8 := payload.mapIdx fun i b => b ^^^ mask.getD (i % 4) 0

/-- The mask, if the header's second byte says there is one, and the payload, without it. -/
def readPayload (h1 : UInt8) (len : ℕ) : Stream (List UInt8) :=
  if h1 &&& 0x80 ≠ 0 then do
    let mask ← readExact 4
    let payload ← readExact len
    return xorMask mask payload
  else readExact len

/-! ### Frames -/

/-- How a frame's length is written. -/
inductive LengthForm where
  | short
  | medium
  | long

namespace LengthForm

/-- The lengths a form may write. -/
def Holds : LengthForm → ℕ → Prop
  | .short, n => n < 126
  | .medium, n => n < 2 ^ 16
  | .long, n => n < 2 ^ 63

/-- The seven bits of the header. -/
def code : LengthForm → ℕ → ℕ
  | .short, n => n
  | .medium, _ => 126
  | .long, _ => 127

/-- The length after the header. -/
def extended : LengthForm → ℕ → List UInt8
  | .short, _ => []
  | .medium, n => beBytes 2 n
  | .long, n => beBytes 8 n

end LengthForm

/-- A frame's payload as it is sent: its length's form, and a masking key or none. -/
structure Body where
  payload : List UInt8
  form : LengthForm
  mask : Option (Fin 4 → UInt8)
  holds : form.Holds payload.length

/-- The bytes of a frame: whether it is final, its opcode, and its body. -/
def frame (fin : Bool) (opcode : UInt8) (b : Body) : List UInt8 :=
  let n := b.payload.length
  let bit := if b.mask.isSome then 0x80 else 0
  let masked := (b.mask.map fun key => List.ofFn key ++ xorMask (List.ofFn key) b.payload).getD b.payload
  ((if fin then 0x80 else 0) ||| opcode) :: (bit ||| UInt8.ofNat (b.form.code n)) :: (b.form.extended n ++ masked)

/-- A ping or a pong. -/
structure Control where
  pong : Bool
  body : Body
  small : body.payload.length ≤ 125

def Control.bytes (c : Control) : List UInt8 := frame true (if c.pong then 10 else 9) c.body

/-- A fragment of a message, and the pings and pongs that come before it. -/
structure Fragment where
  controls : List Control
  body : Body

def Fragment.bytes (fin : Bool) (opcode : UInt8) (f : Fragment) : List UInt8 :=
  f.controls.flatMap Control.bytes ++ frame fin opcode f.body

/-- The frames that continue a message; the last is final. -/
def continuations : List Fragment → List UInt8
  | [] => []
  | f :: fs => f.bytes (fs.isEmpty) 0 ++ continuations fs

/-- A message as it is sent: text or binary, its first fragment and the others. -/
structure Message where
  text : Bool
  first : Fragment
  more : List Fragment

namespace Message

def bytes (m : Message) : List UInt8 :=
  m.first.bytes m.more.isEmpty (if m.text then 1 else 2) ++ continuations m.more

/-- What the fragments after the first carry. -/
def continued (m : Message) : List UInt8 := m.more.flatMap fun f => f.body.payload

def payload (m : Message) : List UInt8 := m.first.body.payload ++ m.continued

end Message

/-! ### Frames read back -/

theorem length_xorMask (mask payload : List UInt8) : (xorMask mask payload).length = payload.length := by
  simp [xorMask]

/-- A mask put on is taken off by the same mask. -/
theorem xorMask_xorMask (mask payload : List UInt8) : xorMask mask (xorMask mask payload) = payload := by
  unfold xorMask
  apply List.ext_getElem
  · simp
  · intro i h h'
    simp

theorem LengthForm.code_lt {form : LengthForm} {n : ℕ} (h : form.Holds n) : form.code n < 128 := by
  cases form with
  | short => exact lt_trans h (by decide)
  | medium => exact (by decide : 126 < 128)
  | long => exact (by decide : 127 < 128)

/-- The two parts of a header's second byte do not meet. -/
theorem second_byte (masked : Bool) {c : ℕ} (hc : c < 128) :
    (((if masked then 0x80 else 0) ||| UInt8.ofNat c) &&& 0x7f).toNat = c ∧
      (((if masked then 0x80 else 0) ||| UInt8.ofNat c) &&& 0x80 ≠ 0 ↔ masked = true) := by
  revert c masked
  decide

theorem exact_read (bytes rest : List UInt8) {n : ℕ} (hn : bytes.length = n) :
    (readExact n).run (bytes ++ rest) = (.ok bytes, rest) := by
  subst hn
  exact Reading.exact_append Failure.unexpectedEof bytes rest

/-- A header's length is read back, in any form that holds it. -/
theorem claimedLen_frame {form : LengthForm} {n : ℕ} (h : form.Holds n) (masked : Bool) (rest : List UInt8) :
    (claimedLen ((if masked then 0x80 else 0) ||| UInt8.ofNat (form.code n))).run (form.extended n ++ rest) =
      (.ok n, rest) := by
  unfold claimedLen
  rw [(second_byte masked (LengthForm.code_lt h)).1]
  cases form with
  | short =>
    have hn : n < 126 := h
    rw [if_neg (show LengthForm.short.code n ≠ 126 from hn.ne)]
    rw [if_neg (show LengthForm.short.code n ≠ 127 from (hn.trans (by decide)).ne)]
    rfl
  | medium =>
    rw [if_pos (show LengthForm.medium.code n = 126 from rfl)]
    rw [LengthForm.extended, Reading.bind_ok (exact_read (beBytes 2 n) rest (length_beBytes 2 n)), ofBe_beBytes]
    rw [Nat.mod_eq_of_lt (show n < 256 ^ 2 from h)]
    rfl
  | long =>
    rw [if_neg (show LengthForm.long.code n ≠ 126 by exact (by decide : 127 ≠ 126))]
    rw [if_pos (show LengthForm.long.code n = 127 from rfl)]
    rw [LengthForm.extended, Reading.bind_ok (exact_read (beBytes 8 n) rest (length_beBytes 8 n)), ofBe_beBytes]
    rw [Nat.mod_eq_of_lt (show n < 256 ^ 8 from lt_trans (show n < 2 ^ 63 from h) (by norm_num))]
    rfl

/-- A frame's payload is read back, masked or not. -/
theorem readPayload_frame (b : Body) (rest : List UInt8) :
    (readPayload ((if b.mask.isSome then 0x80 else 0) ||| UInt8.ofNat (b.form.code b.payload.length)) b.payload.length).run
      ((b.mask.map fun key => List.ofFn key ++ xorMask (List.ofFn key) b.payload).getD b.payload ++ rest) =
      (.ok b.payload, rest) := by
  unfold readPayload
  have hbit := (second_byte b.mask.isSome (LengthForm.code_lt b.holds)).2
  cases hmask : b.mask with
  | none =>
    rw [hmask] at hbit
    rw [if_neg (by simpa using hbit)]
    exact exact_read _ _ rfl
  | some key =>
    rw [hmask] at hbit
    rw [if_pos (by simpa using hbit)]
    simp only [Option.map_some, Option.getD_some, List.append_assoc]
    rw [Reading.bind_ok (exact_read _ _ (List.length_ofFn))]
    rw [Reading.bind_ok (exact_read _ _ (length_xorMask _ _)), xorMask_xorMask]
    rfl

/-- The two parts of a header's first byte do not meet. -/
theorem first_byte (fin : Bool) {opcode : UInt8} (h : opcode ∈ [0, 1, 2, 8, 9, 10]) :
    ((if fin then 0x80 else 0) ||| opcode) &&& 0x70 = 0 ∧ ((if fin then 0x80 else 0) ||| opcode) &&& 0x0f = opcode ∧
      (((if fin then 0x80 else 0) ||| opcode) &&& 0x80 ≠ 0 ↔ fin = true) := by
  simp only [List.mem_cons, List.not_mem_nil, or_false] at h
  revert fin
  obtain rfl | rfl | rfl | rfl | rfl | rfl := h <;> decide

theorem frameLen_eq_ok {n : ℕ} (h : n ≤ maxFrameBytes) (bytes : List UInt8) : (frameLen n).run bytes = (.ok n, bytes) := by
  rw [frameLen, if_pos h]
  rfl

theorem frameLen_eq_error {n : ℕ} (h : maxFrameBytes < n) (bytes : List UInt8) :
    ∃ said, (frameLen n).run bytes = (.error (.invalidData said), bytes) := by
  rw [frameLen, if_neg (by omega)]
  exact ⟨_, rfl⟩

/-- A frame is its header's two bytes, the rest of its length, and its payload. -/
theorem frame_append (fin : Bool) (opcode : UInt8) (b : Body) (rest : List UInt8) :
    frame fin opcode b ++ rest =
      ((if fin then 0x80 else 0) ||| opcode) ::
        ((if b.mask.isSome then 0x80 else 0) ||| UInt8.ofNat (b.form.code b.payload.length)) ::
          (b.form.extended b.payload.length ++
            ((b.mask.map fun key => List.ofFn key ++ xorMask (List.ofFn key) b.payload).getD b.payload ++ rest)) := by
  simp [frame]

theorem readExact_two (h0 h1 : UInt8) (rest : List UInt8) : (readExact 2).run (h0 :: h1 :: rest) = (.ok [h0, h1], rest) :=
  exact_read [h0, h1] rest rfl

/-- What a writer sends of a payload: one final binary frame, its length in the least form. -/
def binaryFrame (mask : Option (Fin 4 → UInt8)) (payload : List UInt8) : List UInt8 :=
  let n := payload.length
  let bit : UInt8 := if mask.isSome then 0x80 else 0
  let header : List UInt8 :=
    if n < 126 then [0x82, bit ||| UInt8.ofNat n]
    else if n < 65536 then 0x82 :: (bit ||| 126) :: beBytes 2 n
    else 0x82 :: (bit ||| 127) :: beBytes 8 n
  match mask with
  | some key => header ++ List.ofFn key ++ xorMask (List.ofFn key) payload
  | none => header ++ payload

/-- A message sent in one frame. -/
def Message.single (b : Body) : Message := { text := false, first := { controls := [], body := b }, more := [] }

theorem binaryFrame_eq {payload : List UInt8} (h : payload.length ≤ maxFrameBytes) (mask : Option (Fin 4 → UInt8)) :
    ∃ b : Body, b.payload = payload ∧ binaryFrame mask payload = (Message.single b).bytes := by
  have hbyte : (0x82 : UInt8) = 0x80 ||| 2 := by decide
  have hlong : payload.length < 2 ^ 63 := lt_of_le_of_lt h (by norm_num [maxFrameBytes])
  unfold binaryFrame
  by_cases hshort : payload.length < 126
  · refine ⟨{ payload, form := .short, mask, holds := hshort }, rfl, ?_⟩
    cases mask <;>
      simp [Message.single, Message.bytes, Fragment.bytes, continuations, frame, LengthForm.code,
        LengthForm.extended, hshort, hbyte]
  · by_cases hmedium : payload.length < 65536
    · refine ⟨{ payload, form := .medium, mask, holds := hmedium }, rfl, ?_⟩
      cases mask <;>
        simp [Message.single, Message.bytes, Fragment.bytes, continuations, frame, LengthForm.code, LengthForm.extended, hshort,
          hmedium, hbyte]
    · refine ⟨{ payload, form := .long, mask, holds := hlong }, rfl, ?_⟩
      cases mask <;>
        simp [Message.single, Message.bytes, Fragment.bytes, continuations, frame, LengthForm.code, LengthForm.extended, hshort,
          hmedium, hbyte]

/-! ### What is left, and what never happens -/

theorem leaves_frameLen (claimed : ℕ) : Reading.Leaves (frameLen claimed) :=
  Reading.Leaves.ite (Reading.leaves_pure _) (Reading.leaves_fail _)

theorem leaves_claimedLen (h1 : UInt8) : Reading.Leaves (claimedLen h1) := by
  unfold claimedLen
  apply Reading.Leaves.ite
  · exact (Reading.leaves_exact _ 2).bind fun _ => Reading.leaves_pure _
  · apply Reading.Leaves.ite
    · exact (Reading.leaves_exact _ 8).bind fun _ => Reading.leaves_pure _
    · exact Reading.leaves_pure _

theorem leaves_readPayload (h1 : UInt8) (len : ℕ) : Reading.Leaves (readPayload h1 len) := by
  unfold readPayload
  apply Reading.Leaves.ite
  · exact (Reading.leaves_exact _ 4).bind fun _ => (Reading.leaves_exact _ len).bind fun _ => Reading.leaves_pure _
  · exact Reading.leaves_exact _ len

theorem never_readExact (n : ℕ) : Reading.Never Failure.panicked (readExact n) := Reading.never_exact (by decide) n

theorem never_refuse {α : Type} (said : String) : Reading.Never Failure.panicked (refuse said : Stream α) :=
  Reading.never_fail (by simp)

theorem never_frameLen (claimed : ℕ) : Reading.Never Failure.panicked (frameLen claimed) :=
  Reading.Never.ite (fun _ => Reading.never_pure _ _) fun _ => never_refuse _

theorem never_claimedLen (h1 : UInt8) : Reading.Never Failure.panicked (claimedLen h1) := by
  unfold claimedLen
  refine Reading.Never.ite (fun _ => ?_) fun _ => Reading.Never.ite (fun _ => ?_) fun _ => ?_
  · exact (never_readExact 2).bind fun _ => Reading.never_pure _ _
  · exact (never_readExact 8).bind fun _ => Reading.never_pure _ _
  · exact Reading.never_pure _ _

theorem never_readPayload (h1 : UInt8) (len : ℕ) : Reading.Never Failure.panicked (readPayload h1 len) := by
  unfold readPayload
  refine Reading.Never.ite (fun _ => ?_) fun _ => never_readExact len
  exact (never_readExact 4).bind fun _ => (never_readExact len).bind fun _ => Reading.never_pure _ _

end Glade.Ws
