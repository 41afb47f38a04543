import Glade.Wire.Messages

/-! A gap sent to a peer in chunks (`node/src/mesh/serve.rs`, `mesh.rs`,
`conversation.rs`): each of at most so many ops and, but for an op alone, of at
most so many bytes of them, so that its frame is one the link takes. -/

namespace Glade.Node

open Wire

/-- The most ops a chunk holds. -/
def opsPerChunk : ℕ := 64

/-- What a chunk's frame holds beside its ops, with room to spare. -/
def chunkRoom : ℕ := 32

/-- The bytes of ops a chunk holds, but for an op alone, on a link whose frames
are at most `max` bytes. -/
def chunkBytes (max : ℕ) : ℕ := min (2 ^ 20) (max - chunkRoom)

/-- The chunks that are full, and the one that is being filled. -/
structure Chunking where
  chunks : List (List Op)
  chunk : List Op
  held : ℕ

def Chunking.push (bytes : ℕ) (c : Chunking) (op : Op) : Chunking :=
  let size := op.encoding.length
  if (c.chunk.length = opsPerChunk ∨ bytes < c.held + size) ∧ c.chunk ≠ [] then
    { chunks := c.chunks ++ [c.chunk], chunk := [op], held := size }
  else { c with chunk := c.chunk ++ [op], held := c.held + size }

/-- `ops`, in order, in chunks of at most `bytes` bytes of them. -/
def chunked (ops : List Op) (bytes : ℕ) : List (List Op) :=
  let c := ops.foldl (Chunking.push bytes) { chunks := [], chunk := [], held := 0 }
  if c.chunk ≠ [] then c.chunks ++ [c.chunk] else c.chunks

/-- A conversation frame's header: its number and its kind. -/
def header : ℕ := 5

/-- The frame of an `Ops` message: its tag, then its encoding. -/
def opsFrame (m : Ops) : Bytes := 4 :: encode m.toCbor

/-- Whether a link whose frames are at most `max` bytes refuses `frame`. -/
def overLimit (max : ℕ) (frame : Bytes) : Bool := max < header + frame.length

/-! ### The loop -/

/-- The bytes of `ops` as each encodes. -/
def opsBytes (ops : List Op) : ℕ := (ops.map fun op => op.encoding.length).sum

/-- What is true of every chunk. -/
structure Chunk (bytes : ℕ) (chunk : List Op) : Prop where
  count : chunk.length ≤ opsPerChunk
  small : 2 ≤ chunk.length → opsBytes chunk ≤ bytes

structure Chunking.Inv (bytes : ℕ) (c : Chunking) : Prop where
  chunks : ∀ chunk ∈ c.chunks, chunk ≠ [] ∧ Chunk bytes chunk
  chunk : Chunk bytes c.chunk
  held : c.held = opsBytes c.chunk

theorem Chunking.push_inv {bytes : ℕ} {c : Chunking} (I : c.Inv bytes) (op : Op) : (c.push bytes op).Inv bytes := by
  rw [push]
  split_ifs with hfull
  · refine ⟨?_, ⟨by simp [opsPerChunk], by simp⟩, by simp [opsBytes]⟩
    intro chunk hchunk
    rw [List.mem_append, List.mem_singleton] at hchunk
    obtain h | rfl := hchunk
    · exact I.chunks chunk h
    · exact ⟨hfull.2, I.chunk⟩
  · have hsum : opsBytes (c.chunk ++ [op]) = opsBytes c.chunk + op.encoding.length := by simp [opsBytes]
    refine ⟨I.chunks, ⟨?_, fun htwo => ?_⟩, by rw [hsum, I.held]⟩
    · rw [List.length_append, List.length_singleton]
      by_cases hnil : c.chunk = []
      · rw [hnil]
        decide
      · have hcount := I.chunk.count
        have hlt : c.chunk.length ≠ opsPerChunk := fun h => hfull ⟨.inl h, hnil⟩
        omega
    · have hne : c.chunk ≠ [] := by
        intro hnil
        rw [hnil] at htwo
        simp at htwo
      have hroom : ¬ bytes < c.held + op.encoding.length := fun h => hfull ⟨.inr h, hne⟩
      have hheld := I.held
      dsimp only
      omega

theorem Chunking.push_ops (bytes : ℕ) (c : Chunking) (op : Op) :
    (c.push bytes op).chunks.flatten ++ (c.push bytes op).chunk = c.chunks.flatten ++ c.chunk ++ [op] := by
  rw [push]
  split_ifs <;> simp

theorem Chunking.foldl_push {bytes : ℕ} {c : Chunking} (I : c.Inv bytes) (ops : List Op) :
    (ops.foldl (push bytes) c).Inv bytes ∧
      (ops.foldl (push bytes) c).chunks.flatten ++ (ops.foldl (push bytes) c).chunk = c.chunks.flatten ++ c.chunk ++ ops := by
  induction ops generalizing c with
  | nil => exact ⟨I, by rw [List.foldl_nil, List.append_nil]⟩
  | cons op ops ih =>
    obtain ⟨hinv, hops⟩ := ih (push_inv I op)
    rw [List.foldl_cons]
    refine ⟨hinv, ?_⟩
    rw [hops, push_ops, List.append_assoc _ [op], List.singleton_append]

theorem chunked_inv (ops : List Op) (bytes : ℕ) :
    (chunked ops bytes).flatten = ops ∧ ∀ chunk ∈ chunked ops bytes, chunk ≠ [] ∧ Chunk bytes chunk := by
  have hempty : Chunking.Inv bytes { chunks := [], chunk := [], held := 0 } :=
    ⟨by simp, ⟨by simp, by simp⟩, by simp [opsBytes]⟩
  obtain ⟨I, hops⟩ := Chunking.foldl_push hempty ops
  rw [chunked]
  split_ifs with hlast
  · refine ⟨by simpa using hops, fun chunk hchunk => ?_⟩
    rw [List.mem_append, List.mem_singleton] at hchunk
    obtain h | rfl := hchunk
    · exact I.chunks chunk h
    · exact ⟨hlast, I.chunk⟩
  · rw [not_not] at hlast
    rw [hlast] at hops
    exact ⟨by simpa using hops, I.chunks⟩

/-! ### The frame -/

theorem length_head_small {major n : ℕ} (h : n < 24) : (head major n).length = 1 := by
  rw [head, if_pos h]
  rfl

theorem length_head_byte {major n : ℕ} (h : n < 256) : (head major n).length ≤ 2 := by
  rw [head]
  split_ifs <;> simp

/-- A chunk's frame is its ops and at most seven bytes more: the tag, the map,
its keys, the array's head and the priority. -/
theorem length_opsFrame_le {ops : List Op} (h : ops.length ≤ opsPerChunk) :
    (opsFrame { ops, pri := some .bulk }).length ≤ 7 + opsBytes ops := by
  have hitems : (encodeItems (ops.map fun op => op.toCbor)).length = opsBytes ops := by
    rw [encodeItems_eq, List.length_flatMap, opsBytes, List.map_map]
    rfl
  have hhead : (head 4 ops.length).length ≤ 2 := length_head_byte (lt_of_le_of_lt h (by decide))
  have hsorted : sortEntries (encodeEntries [(1, .array (ops.map fun op => op.toCbor)), (2, .int Priority.bulk.wire)]) =
      encodeEntries [(1, .array (ops.map fun op => op.toCbor)), (2, .int Priority.bulk.wire)] :=
    sortEntries_encodeEntries (by simp)
  have hmap : (head 5 2).length = 1 := length_head_small (by decide)
  have hone : (head 0 (1 : Int64).toUInt64.toNat).length = 1 := length_head_small (by decide)
  have htwo : (head 0 (2 : Int64).toUInt64.toNat).length = 1 := length_head_small (by decide)
  have hbulk : (encInt Priority.bulk.wire).length = 1 := by decide
  rw [opsFrame, Ops.toCbor, Option.map_some, Option.getD_some, List.length_cons, encode, hsorted]
  simp only [encodeEntries, encode, List.flatMap_cons, List.flatMap_nil, List.length_append, List.length_cons,
    List.length_nil, hmap, hone, htwo, hbulk, hitems, List.length_map]
  omega

/-- A chunk of two or more ops is within the link's limit, header and all. -/
theorem not_overLimit {max : ℕ} {chunk : List Op} (h : Chunk (chunkBytes max) chunk) (htwo : 2 ≤ chunk.length) :
    overLimit max (opsFrame { ops := chunk, pri := some .bulk }) = false := by
  have hframe := length_opsFrame_le h.count
  have hsmall := h.small htwo
  have hbytes : 0 < opsBytes chunk := by
    cases chunk with
    | nil => simp at htwo
    | cons op ops =>
      have hpos := encode_length_pos op.toCbor
      rw [opsBytes, List.map_cons, List.sum_cons, Op.encoding]
      omega
  rw [chunkBytes, chunkRoom] at hsmall
  rw [overLimit, header, decide_eq_false_iff_not]
  omega

/-- The chunks of a gap are its ops in order, none empty, each of at most
`opsPerChunk` ops and, but for an op alone, of at most `bytes` bytes of them; on
any link the frame of every chunk but an op alone is within the link's limit. -/
theorem chunked_spec (ops : List Op) :
    (∀ bytes, (chunked ops bytes).flatten = ops ∧ ∀ chunk ∈ chunked ops bytes, chunk ≠ [] ∧
      chunk.length ≤ opsPerChunk ∧ (2 ≤ chunk.length → opsBytes chunk ≤ bytes)) ∧
    ∀ max, ∀ chunk ∈ chunked ops (chunkBytes max),
      (2 ≤ chunk.length → header + (opsFrame { ops := chunk, pri := some .bulk }).length ≤ max) ∧
      (overLimit max (opsFrame { ops := chunk, pri := some .bulk }) = true → chunk.length = 1) := by
  refine ⟨fun bytes => ?_, fun max chunk hchunk => ?_⟩
  · obtain ⟨hflat, hchunks⟩ := chunked_inv ops bytes
    exact ⟨hflat, fun chunk hchunk => ⟨(hchunks chunk hchunk).1, (hchunks chunk hchunk).2.count,
      (hchunks chunk hchunk).2.small⟩⟩
  · obtain ⟨hne, h⟩ := (chunked_inv ops (chunkBytes max)).2 chunk hchunk
    have hpos : 0 < chunk.length := List.length_pos_iff.mpr hne
    refine ⟨fun htwo => ?_, fun hover => ?_⟩
    · have hfits := not_overLimit h htwo
      rw [overLimit, decide_eq_false_iff_not] at hfits
      omega
    · by_contra hone
      rw [not_overLimit h (by omega)] at hover
      cases hover

end Glade.Node
