import Glade.Wire.Ws

/-! The node's WebSocket reader and writer (`node/src/ws.rs`). A message is read
whole whatever frames it came in, and one that would pass the limit is refused
before its payload is read. -/

namespace Glade.Node.WsReader

open Turns Words Ws

/-- The message a frame ends, or the fragments so far; pings and pongs leave these as they are. -/
def deliver (fragments : Option (List UInt8)) (opcode : UInt8) (finalFrame : Bool) (payload : List UInt8) :
    Stream (Turn (Option (List UInt8)) Msg) :=
  if opcode = 1 ∨ opcode = 2 then
    if finalFrame then pure (.done (.binary payload)) else pure (.again (some payload))
  else if opcode = 0 then
    match fragments with
    | none => Reading.fail .panicked
    | some message =>
      if finalFrame then pure (.done (.binary (message ++ payload))) else pure (.again (some (message ++ payload)))
  else if opcode = 8 then pure (.done .close)
  else pure (.again fragments)

/-- A data frame must leave its message within the limit. -/
def assembledLen (fragments : Option (List UInt8)) (opcode : UInt8) (len : ℕ) : Stream ℕ :=
  if opcode ≤ 2 then frameLen ((fragments.getD []).length + len) else pure 0

/-- One frame after the two bytes of its header. -/
def afterHeader (fragments : Option (List UInt8)) (h0 h1 : UInt8) : Stream (Turn (Option (List UInt8)) Msg) :=
  let opcode := h0 &&& 0x0f
  let finalFrame : Bool := h0 &&& 0x80 ≠ 0
  if h0 &&& 0x70 ≠ 0 ∨ opcode ∉ [0, 1, 2, 8, 9, 10] then refuse "unsupported websocket frame"
  else do
    let claimed ← claimedLen h1
    let len ← frameLen claimed
    if 8 ≤ opcode ∧ (finalFrame = false ∨ 125 < len) then refuse "invalid websocket control frame"
    else if opcode ≤ 2 ∧ ¬ (opcode = 0 ↔ fragments.isSome) then refuse "invalid websocket continuation sequence"
    else do
      let _ ← assembledLen fragments opcode len
      let payload ← readPayload h1 len
      deliver fragments opcode finalFrame payload

def turn (fragments : Option (List UInt8)) : Stream (Turn (Option (List UInt8)) Msg) := do
  let h ← readExact 2
  afterHeader fragments (h.getD 0 0) (h.getD 1 0)

theorem leaves_deliver (fragments : Option (List UInt8)) (opcode : UInt8) (finalFrame : Bool) (payload : List UInt8) :
    Reading.Leaves (deliver fragments opcode finalFrame payload) := by
  unfold deliver
  repeat' apply Reading.Leaves.ite
  all_goals first | exact Reading.leaves_pure _ | skip
  cases fragments with
  | none => exact Reading.leaves_fail _
  | some message => exact Reading.Leaves.ite (Reading.leaves_pure _) (Reading.leaves_pure _)

theorem leaves_afterHeader (fragments : Option (List UInt8)) (h0 h1 : UInt8) :
    Reading.Leaves (afterHeader fragments h0 h1) := by
  unfold afterHeader
  refine Reading.Leaves.ite (Reading.leaves_fail _) ?_
  refine (leaves_claimedLen h1).bind fun claimed => (leaves_frameLen claimed).bind fun len => ?_
  refine Reading.Leaves.ite (Reading.leaves_fail _) (Reading.Leaves.ite (Reading.leaves_fail _) ?_)
  refine Reading.Leaves.bind ?_ fun _ => (leaves_readPayload h1 len).bind fun payload => leaves_deliver fragments _ _ payload
  exact Reading.Leaves.ite (leaves_frameLen _) (Reading.leaves_pure 0)

theorem takes_turn : Takes turn :=
  takes_exact (by decide) (fun _ => rfl) fun fragments h => leaves_afterHeader fragments (h.getD 0 0) (h.getD 1 0)

/-- Read one data message, skipping pings and pongs. -/
def read : Stream Msg := loop turn takes_turn none

/-- No fragment is taken that no message was begun for. -/
theorem never_deliver {fragments : Option (List UInt8)} {opcode : UInt8} (h : opcode = 0 → fragments.isSome)
    (finalFrame : Bool) (payload : List UInt8) : Reading.Never Failure.panicked
      (deliver fragments opcode finalFrame payload) := by
  unfold deliver
  refine Reading.Never.ite (fun _ => ?_) fun _ => Reading.Never.ite (fun h0 => ?_) fun _ =>
    Reading.Never.ite (fun _ => ?_) fun _ => ?_
  · exact Reading.Never.ite (fun _ => Reading.never_pure _ _) fun _ => Reading.never_pure _ _
  · cases fragments with
    | none => cases h h0
    | some message => exact Reading.Never.ite (fun _ => Reading.never_pure _ _) fun _ => Reading.never_pure _ _
  · exact Reading.never_pure _ _
  · exact Reading.never_pure _ _

theorem never_turn (fragments : Option (List UInt8)) : Reading.Never Failure.panicked (turn fragments) := by
  unfold turn afterHeader
  refine (never_readExact 2).bind fun h => ?_
  refine Reading.Never.ite (fun _ => never_refuse _) fun _ => ?_
  refine (never_claimedLen _).bind fun claimed => (never_frameLen claimed).bind fun len => ?_
  refine Reading.Never.ite (fun _ => never_refuse _) fun _ => Reading.Never.ite (fun _ => never_refuse _) fun hseq => ?_
  refine Reading.Never.bind ?_ fun _ => (never_readPayload _ len).bind fun payload => never_deliver (fun h0 => ?_) _ payload
  · exact Reading.Never.ite (fun _ => never_frameLen _) fun _ => Reading.never_pure _ 0
  · by_contra hnone
    exact hseq ⟨by rw [h0]; decide, fun hiff => hnone (hiff.mp h0)⟩

/-! ### Messages read back -/

/-- A frame that follows what came before it is delivered. -/
theorem turn_frame (fragments : Option (List UInt8)) (fin : Bool) (opcode : UInt8) (b : Body)
    (hop : opcode ∈ [0, 1, 2, 8, 9, 10]) (hlen : b.payload.length ≤ maxFrameBytes)
    (hcontrol : 8 ≤ opcode → fin = true ∧ b.payload.length ≤ 125)
    (hdata : opcode ≤ 2 → (opcode = 0 ↔ fragments.isSome) ∧
      (fragments.getD []).length + b.payload.length ≤ maxFrameBytes) (rest : List UInt8) :
    (turn fragments).run (frame fin opcode b ++ rest) = (deliver fragments opcode fin b.payload).run rest := by
  obtain ⟨hreserved, hopcode, hfin⟩ := first_byte fin hop
  have hfinal : decide (((if fin then 0x80 else 0) ||| opcode) &&& 0x80 ≠ 0) = fin := by
    rw [Bool.eq_iff_iff, decide_eq_true_iff]
    exact hfin
  rw [frame_append]
  unfold turn
  rw [Reading.bind_ok (readExact_two _ _ _)]
  unfold afterHeader
  simp only [List.getD_cons_zero, List.getD_cons_succ, hopcode, hfinal]
  rw [if_neg (fun h => h.elim (fun h => h hreserved) fun h => h hop)]
  rw [Reading.bind_ok (claimedLen_frame b.holds b.mask.isSome _), Reading.bind_ok (frameLen_eq_ok hlen _)]
  rw [if_neg, if_neg]
  · have htotal : ∃ n, (assembledLen fragments opcode b.payload.length).run
        ((b.mask.map fun key => List.ofFn key ++ xorMask (List.ofFn key) b.payload).getD b.payload ++ rest) =
        (.ok n, (b.mask.map fun key => List.ofFn key ++ xorMask (List.ofFn key) b.payload).getD b.payload ++ rest) := by
      unfold assembledLen
      split_ifs with hle
      · exact ⟨_, frameLen_eq_ok (hdata hle).2 _⟩
      · exact ⟨_, rfl⟩
    obtain ⟨n, hn⟩ := htotal
    rw [Reading.bind_ok hn, Reading.bind_ok (readPayload_frame b rest)]
  · rintro ⟨hle, hseq⟩
    exact hseq (hdata hle).1
  · rintro ⟨hle, hbad⟩
    obtain ⟨rfl, hsmall⟩ := hcontrol hle
    simp at hbad
    omega

/-- A ping or a pong leaves the fragments as they are. -/
theorem turn_control (fragments : Option (List UInt8)) (c : Control) (rest : List UInt8) :
    (turn fragments).run (c.bytes ++ rest) = (.ok (.again fragments), rest) := by
  unfold Control.bytes
  have hlen : c.body.payload.length ≤ maxFrameBytes := le_trans c.small (by decide)
  cases c.pong with
  | true =>
    rw [turn_frame fragments true _ c.body (by decide) hlen (fun _ => ⟨rfl, c.small⟩) (fun h => absurd h (by decide))]
    rfl
  | false =>
    rw [turn_frame fragments true _ c.body (by decide) hlen (fun _ => ⟨rfl, c.small⟩) (fun h => absurd h (by decide))]
    rfl

theorem loop_controls (fragments : Option (List UInt8)) (controls : List Control) (rest : List UInt8) :
    (loop turn takes_turn fragments).run (controls.flatMap Control.bytes ++ rest) =
      (loop turn takes_turn fragments).run rest := by
  induction controls with
  | nil => rfl
  | cons c controls ih =>
    rw [List.flatMap_cons, List.append_assoc, loop_again (turn_control fragments c _), ih]

/-- The fragments that continue a message end it. -/
theorem loop_continuations {sofar : List UInt8} {fs : List Fragment} (hfs : fs ≠ [])
    (hlimit : (sofar ++ fs.flatMap fun f => f.body.payload).length ≤ maxFrameBytes) (rest : List UInt8) :
    (loop turn takes_turn (some sofar)).run (continuations fs ++ rest) =
      (.ok (.binary (sofar ++ fs.flatMap fun f => f.body.payload)), rest) := by
  induction fs generalizing sofar with
  | nil => exact absurd rfl hfs
  | cons f fs ih =>
    rw [List.flatMap_cons, ← List.append_assoc] at hlimit ⊢
    have hsofar : sofar.length + f.body.payload.length ≤ maxFrameBytes := by
      rw [List.length_append, List.length_append] at hlimit
      omega
    rw [continuations, Fragment.bytes, List.append_assoc, List.append_assoc, loop_controls]
    have hturn := turn_frame (some sofar) fs.isEmpty 0 f.body (by decide)
      (by omega) (fun h => absurd h (by decide)) (fun _ => ⟨by simp, hsofar⟩) (continuations fs ++ rest)
    cases fs with
    | nil =>
      rw [loop_done (a := .binary (sofar ++ f.body.payload)) (hturn.trans rfl)]
      simp [continuations]
    | cons g fs =>
      rw [loop_again (t := some (sofar ++ f.body.payload)) (hturn.trans rfl)]
      exact ih (List.cons_ne_nil g fs) hlimit

/-- A message is read whole, however its frames were cut. -/
theorem read_message (m : Message) (hlimit : m.payload.length ≤ maxFrameBytes) (rest : List UInt8) :
    read.run (m.bytes ++ rest) = (.ok (.binary m.payload), rest) := by
  have hfirst : m.first.body.payload.length ≤ maxFrameBytes := by
    rw [Message.payload, List.length_append] at hlimit
    omega
  unfold read Message.bytes Fragment.bytes
  rw [List.append_assoc, List.append_assoc, loop_controls]
  have hturn := turn_frame none m.more.isEmpty (if m.text then 1 else 2) m.first.body
    (by cases m.text <;> decide) hfirst (fun h => absurd h (by cases m.text <;> decide))
    (fun _ => ⟨by cases m.text <;> decide, by simpa using hfirst⟩) (continuations m.more ++ rest)
  have hopcode : (if m.text then (1 : UInt8) else 2) = 1 ∨ (if m.text then (1 : UInt8) else 2) = 2 := by
    cases m.text <;> decide
  rw [deliver, if_pos hopcode] at hturn
  unfold Message.payload Message.continued
  cases hmore : m.more with
  | nil =>
    rw [hmore] at hturn
    rw [loop_done (a := .binary m.first.body.payload) (hturn.trans rfl)]
    simp [continuations]
  | cons f fs =>
    rw [hmore] at hturn
    rw [loop_again (t := some m.first.body.payload) (hturn.trans rfl)]
    apply loop_continuations (List.cons_ne_nil f fs)
    rwa [Message.payload, Message.continued, hmore] at hlimit

/-! ### The limit -/

/-- A frame whose header would take the message past the limit is refused, and
what comes after the header is left. -/
theorem turn_past_limit {fragments : Option (List UInt8)} {h0 h1 : UInt8} {left tail : List UInt8} {claimed : ℕ}
    (hheader : (claimedLen h1).run left = (.ok claimed, tail)) (hdata : h0 &&& 0x0f ≤ 2)
    (hpast : maxFrameBytes < (fragments.getD []).length + claimed) :
    ∃ said unread, (turn fragments).run (h0 :: h1 :: left) = (.error (.invalidData said), unread) ∧ tail <:+ unread := by
  have htail : tail <:+ left := by
    have := leaves_claimedLen h1 left
    rwa [hheader] at this
  unfold turn
  rw [Reading.bind_ok (readExact_two h0 h1 left)]
  simp only [afterHeader, List.getD_cons_zero, List.getD_cons_succ]
  by_cases hreserved : h0 &&& 0x70 ≠ 0 ∨ h0 &&& 0x0f ∉ [0, 1, 2, 8, 9, 10]
  · rw [if_pos hreserved]
    exact ⟨_, left, rfl, htail⟩
  · rw [if_neg hreserved, Reading.bind_ok hheader]
    by_cases hclaimed : claimed ≤ maxFrameBytes
    · rw [Reading.bind_ok (frameLen_eq_ok hclaimed tail)]
      split_ifs with hcontrol hseq
      · exact ⟨_, tail, rfl, List.suffix_refl tail⟩
      · exact ⟨_, tail, rfl, List.suffix_refl tail⟩
      · obtain ⟨said, hsaid⟩ := frameLen_eq_error hpast tail
        refine ⟨said, tail, Reading.bind_error ?_, List.suffix_refl tail⟩
        rw [assembledLen, if_pos hdata, hsaid]
    · obtain ⟨said, hsaid⟩ := frameLen_eq_error (by omega : maxFrameBytes < claimed) tail
      exact ⟨said, tail, Reading.bind_error hsaid, List.suffix_refl tail⟩

end Glade.Node.WsReader

namespace Glade.Node.WsWriter

open Ws

/-- The key the writer masks with. -/
def key : Fin 4 → UInt8 := ![0x37, 0xfa, 0x21, 0x3d]

/-- The bytes of one binary frame; a client's is masked, a server's is not. -/
def sendBinary (mask : Bool) (payload : List UInt8) : List UInt8 := binaryFrame (if mask then some key else none) payload

end Glade.Node.WsWriter
