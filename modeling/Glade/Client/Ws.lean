import Glade.Node.Ws

/-! The client's WebSocket reader and writer (`client-rs/src/ws.rs`), beside the
node's. The client takes each frame for a whole message, so it reads back what
was sent exactly where each message came in its first frame. -/

namespace Glade.Client

open Turns Words Ws

namespace WsReader

/-- A first fragment is a message, and a continuation is skipped. -/
def deliver (opcode : UInt8) (payload : List UInt8) : Stream (Turn Unit Msg) :=
  if opcode = 1 ∨ opcode = 2 then pure (.done (.binary payload))
  else if opcode = 8 then pure (.done .close)
  -- Pings, pongs and continuations are skipped.
  else pure (.again ())

/-- One frame after the two bytes of its header. -/
def afterHeader (h0 h1 : UInt8) : Stream (Turn Unit Msg) := do
  let claimed ← claimedLen h1
  let len ← frameLen claimed
  let payload ← readPayload h1 len
  deliver (h0 &&& 0x0f) payload

def turn (_ : Unit) : Stream (Turn Unit Msg) := do
  let h ← readExact 2
  afterHeader (h.getD 0 0) (h.getD 1 0)

theorem takes_turn : Takes turn := by
  refine takes_exact (k := fun _ h => afterHeader (h.getD 0 0) (h.getD 1 0)) (by decide) (fun _ => rfl) fun _ h => ?_
  unfold afterHeader
  refine (leaves_claimedLen _).bind fun claimed => (leaves_frameLen claimed).bind fun len => ?_
  refine (leaves_readPayload _ len).bind fun payload => ?_
  unfold deliver
  apply Reading.Leaves.ite
  · exact Reading.leaves_pure _
  · exact Reading.Leaves.ite (Reading.leaves_pure _) (Reading.leaves_pure _)

/-- Read one data message, skipping pings and pongs. -/
def read : Stream Msg := loop turn takes_turn ()

theorem turn_frame (fin : Bool) (opcode : UInt8) (b : Body) (hop : opcode ∈ [0, 1, 2, 8, 9, 10])
    (hlen : b.payload.length ≤ maxFrameBytes) (rest : List UInt8) :
    (turn ()).run (frame fin opcode b ++ rest) = (deliver opcode b.payload).run rest := by
  obtain ⟨-, hopcode, -⟩ := first_byte fin hop
  rw [frame_append]
  unfold turn
  rw [Reading.bind_ok (readExact_two _ _ _)]
  simp only [afterHeader, List.getD_cons_zero, List.getD_cons_succ, hopcode]
  rw [Reading.bind_ok (claimedLen_frame b.holds b.mask.isSome _), Reading.bind_ok (frameLen_eq_ok hlen _)]
  rw [Reading.bind_ok (readPayload_frame b rest)]

theorem read_controls (controls : List Control) (rest : List UInt8) :
    read.run (controls.flatMap Control.bytes ++ rest) = read.run rest := by
  induction controls with
  | nil => rfl
  | cons c controls ih =>
    rw [List.flatMap_cons, List.append_assoc, Control.bytes]
    have hturn := turn_frame true (if c.pong then 10 else 9) c.body (by cases c.pong <;> decide)
      (le_trans c.small (by decide)) (controls.flatMap Control.bytes ++ rest)
    have hskip : (deliver (if c.pong then 10 else 9) c.body.payload).run (controls.flatMap Control.bytes ++ rest) =
        (.ok (.again ()), controls.flatMap Control.bytes ++ rest) := by
      cases c.pong <;> rfl
    rw [read, loop_again (hturn.trans hskip)]
    exact ih

/-- The client reads the continuations of a message as nothing. -/
theorem read_continuations {fs : List Fragment} (hlimit : (fs.flatMap fun f => f.body.payload).length ≤ maxFrameBytes)
    (rest : List UInt8) : read.run (continuations fs ++ rest) = read.run rest := by
  induction fs with
  | nil => rfl
  | cons f fs ih =>
    rw [List.flatMap_cons, List.length_append] at hlimit
    rw [continuations, Fragment.bytes, List.append_assoc, List.append_assoc, read_controls]
    have hturn := turn_frame fs.isEmpty 0 f.body (by decide) (by omega) (continuations fs ++ rest)
    rw [read, loop_again (hturn.trans rfl)]
    exact ih (by omega)

/-- The client reads the first fragment of a message as the message. -/
theorem read_message {m : Message} (hlimit : m.payload.length ≤ maxFrameBytes) (rest : List UInt8) :
    read.run (m.bytes ++ rest) = (.ok (.binary m.first.body.payload), continuations m.more ++ rest) := by
  rw [Message.payload, List.length_append] at hlimit
  rw [Message.bytes, Fragment.bytes, List.append_assoc, List.append_assoc, read_controls]
  have hturn := turn_frame m.more.isEmpty (if m.text then 1 else 2) m.first.body
    (by cases m.text <;> decide) (by omega) (continuations m.more ++ rest)
  have hopcode : (if m.text then (1 : UInt8) else 2) = 1 ∨ (if m.text then (1 : UInt8) else 2) = 2 := by
    cases m.text <;> decide
  rw [deliver, if_pos hopcode] at hturn
  exact loop_done hturn

theorem reads_messages {ms : List Message} (hlimit : ∀ m ∈ ms, m.payload.length ≤ maxFrameBytes) (k : ℕ)
    (rest : List UInt8) :
    reads read (ms.length + k) (ms.flatMap Message.bytes ++ rest) =
      ms.map (fun m => .ok (.binary m.first.body.payload)) ++ reads read k rest := by
  induction ms with
  | nil => simp
  | cons m ms ih =>
    have hm := hlimit m List.mem_cons_self
    rw [List.length_cons, Nat.add_right_comm, reads, List.flatMap_cons, List.append_assoc, read_message hm]
    have hskip : read.run (continuations m.more ++ (ms.flatMap Message.bytes ++ rest)) =
      read.run (ms.flatMap Message.bytes ++ rest) := by
      apply read_continuations
      rw [Message.payload, List.length_append, Message.continued] at hm
      omega
    rw [reads_congr hskip, ih fun m' hm' => hlimit m' (List.mem_cons_of_mem _ hm')]
    rfl

end WsReader

namespace WsWriter

/-- The bytes of one masked binary frame. -/
def sendBinary (payload : List UInt8) : List UInt8 := binaryFrame (some Node.WsWriter.key) payload

end WsWriter

/-- The messages come back one by one, and then what follows. -/
def Survive (read : Stream Msg) (ms : List Message) : Prop :=
  ∀ (k : ℕ) (rest : List UInt8), reads read (ms.length + k) (ms.flatMap Message.bytes ++ rest) =
    ms.map (fun m => .ok (.binary m.payload)) ++ reads read k rest

/-- A message survives the client's reader exactly if its first fragment carries all of it. -/
theorem survive_iff {ms : List Message} (hlimit : ∀ m ∈ ms, m.payload.length ≤ maxFrameBytes) :
    Survive WsReader.read ms ↔ ∀ m ∈ ms, m.continued = [] := by
  constructor
  · intro h m hm
    have hall := h 0 []
    rw [WsReader.reads_messages hlimit, List.append_cancel_right_eq, List.map_inj_left] at hall
    have hsame := Msg.binary.inj (Except.ok.inj (hall m hm))
    rw [Message.payload] at hsame
    exact List.append_right_eq_self.mp hsame.symm
  · intro h k rest
    rw [WsReader.reads_messages hlimit, List.append_cancel_right_eq, List.map_inj_left]
    intro m hm
    rw [Message.payload, h m hm, List.append_nil]

theorem node_survives {ms : List Message} (hlimit : ∀ m ∈ ms, m.payload.length ≤ maxFrameBytes) :
    Survive Node.WsReader.read ms :=
  fun k rest => reads_append (fun m hm => Node.WsReader.read_message m (hlimit m hm)) k rest

/-- What a writer sends is one message to either reader. -/
theorem read_binaryFrame {payload : List UInt8} (hlimit : payload.length ≤ maxFrameBytes) (mask : Option (Fin 4 → UInt8))
    (rest : List UInt8) :
    Node.WsReader.read.run (binaryFrame mask payload ++ rest) = (.ok (.binary payload), rest) ∧
      WsReader.read.run (binaryFrame mask payload ++ rest) = (.ok (.binary payload), rest) := by
  obtain ⟨b, rfl, hsent⟩ := binaryFrame_eq hlimit mask
  have hpayload : (Message.single b).payload = b.payload := List.append_nil _
  have hwithin : (Message.single b).payload.length ≤ maxFrameBytes := by rwa [hpayload]
  rw [hsent]
  constructor
  · rw [Node.WsReader.read_message _ hwithin, hpayload]
  · rw [WsReader.read_message hwithin]
    rfl

/-- Messages within the limit survive any legal framing at both readers exactly if
each came in its first fragment; at the node they always do. What either writer
sends is one message to both. The node's reader refuses a data frame that would
pass the limit before its payload, never panics, and takes bytes at every turn. -/
theorem ws_messages (ms : List Message) :
    ((∀ m ∈ ms, m.payload.length ≤ maxFrameBytes) → Survive Node.WsReader.read ms ∧
      (Survive Node.WsReader.read ms ∧ Survive WsReader.read ms ↔ ∀ m ∈ ms, m.continued = [])) ∧
    (∀ payload : List UInt8, payload.length ≤ maxFrameBytes → ∀ (mask : Bool) (rest : List UInt8),
      Node.WsReader.read.run (Node.WsWriter.sendBinary mask payload ++ rest) = (.ok (.binary payload), rest) ∧
      WsReader.read.run (Node.WsWriter.sendBinary mask payload ++ rest) = (.ok (.binary payload), rest) ∧
      Node.WsReader.read.run (WsWriter.sendBinary payload ++ rest) = (.ok (.binary payload), rest) ∧
      WsReader.read.run (WsWriter.sendBinary payload ++ rest) = (.ok (.binary payload), rest)) ∧
    (∀ (bytes : List UInt8) (fragments : Option (List UInt8)) (h0 h1 : UInt8) (left tail : List UInt8) (claimed : ℕ),
      Reached Node.WsReader.turn (none, bytes) (fragments, h0 :: h1 :: left) →
      (claimedLen h1).run left = (.ok claimed, tail) → h0 &&& 0x0f ≤ 2 →
      maxFrameBytes < (fragments.getD []).length + claimed →
      ∃ said unread, Node.WsReader.read.run bytes = (.error (.invalidData said), unread) ∧ tail <:+ unread) ∧
    (∀ bytes : List UInt8, (Node.WsReader.read.run bytes).1 ≠ .error .panicked) ∧
    ∀ fragments : Option (List UInt8),
      (∀ left : List UInt8, left ≠ [] → ((Node.WsReader.turn fragments).run left).2.length < left.length) ∧
      ∃ e, (Node.WsReader.turn fragments).run [] = (.error e, []) := by
  refine ⟨?_, ?_, ?_, ?_, ?_⟩
  · intro hlimit
    have hnode := node_survives hlimit
    rw [survive_iff hlimit]
    exact ⟨hnode, fun h => h.2, fun h => ⟨hnode, h⟩⟩
  · intro payload hlimit mask rest
    obtain ⟨hnode, hclient⟩ := read_binaryFrame hlimit (if mask then some Node.WsWriter.key else none) rest
    obtain ⟨hnode', hclient'⟩ := read_binaryFrame hlimit (some Node.WsWriter.key) rest
    exact ⟨hnode, hclient, hnode', hclient'⟩
  · intro bytes fragments h0 h1 left tail claimed hreached hheader hdata hpast
    obtain ⟨said, unread, hturn, htail⟩ := Node.WsReader.turn_past_limit hheader hdata hpast
    refine ⟨said, unread, ?_, htail⟩
    exact hreached.loop_eq.trans (loop_error hturn)
  · exact loop_never Node.WsReader.never_turn none
  · exact fun fragments => ⟨Node.WsReader.takes_turn.short fragments, Node.WsReader.takes_turn.starved fragments⟩

/-- A fragment of one byte, unmasked. -/
def oneByte (b : UInt8) : Fragment :=
  { controls := [], body := { payload := [b], form := .short, mask := none, holds := (by decide : 1 < 126) } }

def twoFragments : Message := { text := false, first := oneByte 0x61, more := [oneByte 0x62] }

/-- A message of two fragments is both to the node, and the first alone to the client. -/
theorem continuation_dropped :
    twoFragments.bytes = [0x02, 0x01, 0x61, 0x80, 0x01, 0x62] ∧
      Node.WsReader.read.run twoFragments.bytes = (.ok (.binary [0x61, 0x62]), []) ∧
      WsReader.read.run twoFragments.bytes = (.ok (.binary [0x61]), [0x80, 0x01, 0x62]) ∧
      ¬ ∀ ms : List Message, (∀ m ∈ ms, m.payload.length ≤ maxFrameBytes) →
        Survive Node.WsReader.read ms ∧ Survive WsReader.read ms := by
  have hlimit : twoFragments.payload.length ≤ maxFrameBytes := by decide
  have hnode := Node.WsReader.read_message twoFragments hlimit []
  have hclient := WsReader.read_message hlimit []
  rw [List.append_nil] at hnode hclient
  refine ⟨by decide, hnode, hclient, fun h => ?_⟩
  have hall : ∀ m ∈ [twoFragments], m.payload.length ≤ maxFrameBytes := by simpa using hlimit
  have hcontinued := (survive_iff hall).mp (h [twoFragments] hall).2 twoFragments (List.mem_singleton_self _)
  exact absurd hcontinued (List.cons_ne_nil 0x62 [])

end Glade.Client
