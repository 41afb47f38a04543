import Glade.Store.Journals
import Glade.Wire.CborPrefix

/-! Journals cut at any byte (`read_records`, `read_proofs`, `append_proof` in
`node/src/store.rs`). The op journals recover to a record boundary. The proofs'
journal does too, and there that is not enough: a proof is two records, and a cut
between them leaves the first, which the next proof's records are paired with. -/

namespace Glade.Store

open Wire Frames

/-! ### Records -/

/-- A record of a journal: an op's, or any bytes its length prefix can frame, such
as those of a record that cannot be read. -/
structure Entry where
  bytes : Bytes
  written : (∃ op : Op, bytes = op.encoding) ∨ bytes.length < 2 ^ 32

namespace Entry

def ofOp (op : Op) : Entry := ⟨op.encoding, .inl ⟨op, rfl⟩⟩

def frame (e : Entry) : Bytes := Frames.frame e.bytes

/-- The op a record holds, if it can be read. -/
def read (e : Entry) : Option Op := (decodeOp e.bytes).toOption

/-- The bytes a record takes in its journal. -/
def size (e : Entry) : ℕ := (Frames.frame e.bytes).length

@[simp] theorem read_ofOp (op : Op) : (ofOp op).read = some op := by
  simp [read, ofOp, decodeOp_encoding, Except.toOption]

@[simp] theorem frame_ofOp (op : Op) : (ofOp op).frame = framed op := rfl

theorem size_pos (e : Entry) : 0 < e.size := by
  rw [size, length_frame]
  omega

end Entry

/-- No op is read from a part of its encoding. -/
theorem decodeOp_take {op : Op} {n : ℕ} (h : n < op.encoding.length) : (decodeOp (op.encoding.take n)).toOption = none := by
  cases hdec : decodeOp (op.encoding.take n) with
  | error e => rfl
  | ok op' =>
    obtain ⟨v, hv, -⟩ := bind_ok hdec
    obtain ⟨w, hw, -⟩ := bind_ok (decodeOp_encoding op)
    have hmore : op.encoding.drop n ≠ [] := by
      rw [ne_eq, List.drop_eq_nil_iff]
      omega
    have htrail := tryDecode_append hv hmore
    rw [List.take_append_drop, hw] at htrail
    cases htrail

theorem whole_map {α β : Type} (size : β → ℕ) (f : α → β) (as : List α) (k : ℕ) :
    whole size (as.map f) k = (whole (fun a => size (f a)) as k).map f := by
  induction as generalizing k with
  | nil => rfl
  | cons a as ih =>
    rw [List.map_cons, whole, whole]
    split_ifs
    · rw [ih, List.map_cons]
    · rfl

/-- Whether the records' prefixes hold the lengths that the first `k` bytes of
the journal let a reader see. -/
def Readable (entries : List Entry) (k : ℕ) : Prop := Legible (entries.map Entry.bytes) k

theorem flatMap_frame (entries : List Entry) : entries.flatMap Entry.frame = (entries.map Entry.bytes).flatMap Frames.frame := by
  rw [List.flatMap_map]
  rfl

theorem whole_bytes (entries : List Entry) (k : ℕ) :
    whole (fun r => (Frames.frame r).length) (entries.map Entry.bytes) k = (whole Entry.size entries k).map Entry.bytes :=
  whole_map _ _ entries k

/-- The records read are those that lie within the bytes kept exactly where no
prefix is read for a length it does not hold. -/
theorem read_eq_whole_iff {disk : Disk} {path : Path} {entries : List Entry} {k : ℕ}
    (h : disk.bytes path = (entries.flatMap Entry.frame).take k) :
    (readRecords disk path).1 = (whole Entry.size entries k).map Entry.read ↔ Readable entries k := by
  have hread : (readRecords disk path).1 =
      (Frames.split (((entries.map Entry.bytes).flatMap Frames.frame).take k)).1.map fun r => (decodeOp r).toOption := by
    rw [← flatMap_frame, ← h]
    rfl
  rw [hread]
  constructor
  · intro heq
    by_contra hill
    obtain ⟨before, r, after, rest, hrs, hbig, hsplit, hwhole⟩ := split_illegible hill
    rw [whole_bytes] at hwhole
    rw [hsplit] at heq
    have hexpected : (whole Entry.size entries k).map Entry.read =
        ((whole Entry.size entries k).map Entry.bytes).map fun r => (decodeOp r).toOption := by
      rw [List.map_map]
      rfl
    rw [hexpected] at heq
    obtain hshort | ⟨more, hlong⟩ := hwhole
    · -- A record is read that the bytes kept do not hold.
      rw [hshort] at heq
      have hlen := congrArg List.length heq
      simp at hlen
    · -- What is read in the long record's place is no op.
      rw [hlong, List.map_append, List.map_append] at heq
      have hhead := (List.cons.inj (List.append_cancel_left heq)).1
      obtain ⟨e, he, rfl⟩ : ∃ e ∈ entries, e.bytes = r := by
        have hmem : r ∈ entries.map Entry.bytes := by
          rw [hrs]
          simp
        simpa using hmem
      obtain ⟨op, hop⟩ | hsmall := e.written
      · rw [hop] at hbig hhead
        have hnone := @decodeOp_take op (op.encoding.length % 2 ^ 32) (by omega)
        have hsome := Entry.read_ofOp op
        have heq : (Entry.ofOp op).read = none := hhead.symm.trans hnone
        rw [hsome] at heq
        cases heq
      · omega
  · intro hl
    obtain ⟨tail, hsplit, -⟩ := split_take hl
    rw [hsplit, whole_bytes, List.map_map]
    rfl

/-- A readable journal is cut to the end of its last whole record. -/
theorem cut_of_readable {disk : Disk} {path : Path} {entries : List Entry} {k : ℕ}
    (h : disk.bytes path = (entries.flatMap Entry.frame).take k) (hr : Readable entries k) :
    (readRecords disk path).2.bytes path = (whole Entry.size entries k).flatMap Entry.frame := by
  obtain ⟨tail, hsplit, hdata⟩ := split_take hr
  rw [← flatMap_frame, ← h, whole_bytes, ← flatMap_frame] at hdata
  rw [← flatMap_frame, ← h] at hsplit
  simp only [readRecords, hsplit]
  split_ifs with htail
  · rw [hdata, htail, List.append_nil]
  · rw [Disk.bytes_insert, if_pos rfl, hdata, List.length_append, Nat.add_sub_cancel, List.take_left]

/-! ### The op journals -/

/-- The disk after further ops were appended to the journal at `path`. -/
def grown (disk : Disk) (path : Path) (more : List Op) : Disk := (appendFile disk path (more.flatMap framed) none).2

theorem bytes_grown (disk : Disk) (path : Path) (more : List Op) :
    (grown disk path more).bytes path = disk.bytes path ++ more.flatMap framed := by
  simp [grown, appendFile, Disk.bytes_insert]

/-- A journal cut to its first `k` bytes recovers: the records that lie within
them are read and no others, the file is cut to the end of the last of them, and
what is appended to it is read back after them. -/
structure Recovers (disk : Disk) (path : Path) (entries : List Entry) (k : ℕ) (more : List Op) : Prop where
  read : (readRecords disk path).1 = (whole Entry.size entries k).map Entry.read
  cut : (readRecords disk path).2.bytes path = (whole Entry.size entries k).flatMap Entry.frame
  again : (readRecords (grown (readRecords disk path).2 path more) path).1 =
    (whole Entry.size entries k).map Entry.read ++ more.map some

theorem legible_all {rs : List Bytes} : Legible rs (rs.flatMap Frames.frame).length ↔ ∀ r ∈ rs, r.length < 2 ^ 32 := by
  induction rs with
  | nil => simp [Legible]
  | cons r rs ih =>
    rw [Legible, List.flatMap_cons, List.length_append, if_pos (Nat.le_add_right _ _), Nat.add_sub_cancel_left, ih,
      List.forall_mem_cons]

theorem whole_all {α : Type} (size : α → ℕ) (as : List α) : whole size as (as.map size).sum = as := by
  induction as with
  | nil => rfl
  | cons a as ih =>
    rw [List.map_cons, List.sum_cons, whole, if_pos (Nat.le_add_right _ _), Nat.add_sub_cancel_left, ih]

theorem length_flatMap_frame (entries : List Entry) : (entries.flatMap Entry.frame).length = (entries.map Entry.size).sum := by
  rw [List.length_flatMap]
  rfl

theorem whole_legible {rs : List Bytes} {k : ℕ} (h : Legible rs k) :
    ∀ r ∈ whole (fun r => (Frames.frame r).length) rs k, r.length < 2 ^ 32 := by
  induction rs generalizing k with
  | nil => simp [whole]
  | cons r rs ih =>
    rw [Legible] at h
    rw [whole]
    split_ifs at h ⊢ with hwhole
    · rw [List.forall_mem_cons]
      exact ⟨h.1, ih h.2⟩
    · simp

/-- A whole journal that is read in full. -/
theorem read_all_iff {disk : Disk} {path : Path} {entries : List Entry}
    (h : disk.bytes path = entries.flatMap Entry.frame) :
    (readRecords disk path).1 = entries.map Entry.read ↔ ∀ e ∈ entries, e.bytes.length < 2 ^ 32 := by
  have hk : disk.bytes path = (entries.flatMap Entry.frame).take (entries.map Entry.size).sum := by
    rw [← length_flatMap_frame, List.take_length]
    exact h
  have hiff := read_eq_whole_iff hk
  have hlen : (entries.map Entry.size).sum = ((entries.map Entry.bytes).flatMap Frames.frame).length := by
    rw [← flatMap_frame, length_flatMap_frame]
  rw [whole_all, Readable, hlen, legible_all] at hiff
  rw [hiff, List.forall_mem_map]

/-- A cut journal recovers exactly where no prefix is read for a length it does
not hold. -/
theorem recovers_iff {disk : Disk} {path : Path} {entries : List Entry} {k : ℕ} (more : List Op)
    (h : disk.bytes path = (entries.flatMap Entry.frame).take k) :
    Recovers disk path entries k more ↔ Readable entries k ∧ ∀ op ∈ more, op.encoding.length < 2 ^ 32 := by
  have hagain : Readable entries k → ((readRecords (grown (readRecords disk path).2 path more) path).1 =
      (whole Entry.size entries k).map Entry.read ++ more.map some ↔ ∀ op ∈ more, op.encoding.length < 2 ^ 32) := by
    intro hr
    have hbytes : (grown (readRecords disk path).2 path more).bytes path =
        (whole Entry.size entries k ++ more.map Entry.ofOp).flatMap Entry.frame := by
      rw [bytes_grown, cut_of_readable h hr, List.flatMap_append, List.flatMap_map]
      rfl
    have hsmall : ∀ e ∈ whole Entry.size entries k, e.bytes.length < 2 ^ 32 := by
      intro e he
      have hall := whole_legible hr
      rw [whole_bytes, List.forall_mem_map] at hall
      exact hall e he
    have hread : (whole Entry.size entries k ++ more.map Entry.ofOp).map Entry.read =
        (whole Entry.size entries k).map Entry.read ++ more.map some := by
      rw [List.map_append, List.map_map]
      congr 1
      exact List.map_congr_left fun op _ => Entry.read_ofOp op
    rw [← hread, read_all_iff hbytes, List.forall_mem_append, List.forall_mem_map]
    exact and_iff_right hsmall
  constructor
  · intro R
    have hr := (read_eq_whole_iff h).mp R.read
    exact ⟨hr, (hagain hr).mp R.again⟩
  · rintro ⟨hr, hmore⟩
    exact ⟨(read_eq_whole_iff h).mpr hr, cut_of_readable h hr, (hagain hr).mpr hmore⟩

/-! ### The proofs' journal -/

/-- The two records of a proof. -/
def both (p : Entry × Entry) : List Entry := [p.1, p.2]

/-- The bytes a pair of records takes. -/
def pairSize (p : Entry × Entry) : ℕ := p.1.size + p.2.size

/-- The proof a pair of records holds, if both can be read. -/
def proofOf (p : Entry × Entry) : Option EquivProof :=
  match p.1.read, p.2.read with
  | some a, some b => some { a, b }
  | _, _ => none

/-- The ops of a proof, in the order they are written. -/
def halves (p : EquivProof) : List Op := [p.a, p.b]

/-- Whether the first `k` bytes hold the first record of a pair and not all of
the second. -/
def Splits : List (Entry × Entry) → ℕ → Prop
  | [], _ => False
  | p :: ps, k => if pairSize p ≤ k then Splits ps (k - pairSize p) else p.1.size ≤ k

/-- The proofs' journal cut to its first `k` bytes recovers: its records do, it is
cut to the end of the last whole pair, and the proofs read are those of the whole
pairs that can be read, before and, with the new ones, after more are appended. -/
structure RecoversProofs (disk : Disk) (pairs : List (Entry × Entry)) (k : ℕ) (more : List EquivProof) : Prop where
  records : Recovers disk proofsPath (pairs.flatMap both) k (more.flatMap halves)
  cut : (readRecords disk proofsPath).2.bytes proofsPath = ((whole pairSize pairs k).flatMap both).flatMap Entry.frame
  read : (readProofs disk).1 = (whole pairSize pairs k).filterMap proofOf
  again : (readProofs (grown (readProofs disk).2 proofsPath (more.flatMap halves))).1 =
    (whole pairSize pairs k).filterMap proofOf ++ more

/-- The records within the first `k` bytes are those of the whole pairs, and the
first record of the next where the cut splits it. -/
theorem whole_both (pairs : List (Entry × Entry)) (k : ℕ) :
    (¬ Splits pairs k ∧ whole Entry.size (pairs.flatMap both) k = (whole pairSize pairs k).flatMap both) ∨
      Splits pairs k ∧ ∃ e, whole Entry.size (pairs.flatMap both) k = (whole pairSize pairs k).flatMap both ++ [e] := by
  induction pairs generalizing k with
  | nil => exact .inl ⟨id, rfl⟩
  | cons p ps ih =>
    obtain ⟨a, b⟩ := p
    have hflat : ((a, b) :: ps).flatMap both = a :: b :: ps.flatMap both := rfl
    have hwhole : whole pairSize ((a, b) :: ps) k =
        if a.size + b.size ≤ k then (a, b) :: whole pairSize ps (k - (a.size + b.size)) else [] := rfl
    have hsplits : Splits ((a, b) :: ps) k = if a.size + b.size ≤ k then Splits ps (k - (a.size + b.size)) else a.size ≤ k := rfl
    rw [hflat, hwhole, hsplits, whole, whole]
    by_cases hboth : a.size + b.size ≤ k
    · rw [if_pos (show a.size ≤ k by omega), if_pos (show b.size ≤ k - a.size by omega), if_pos hboth, if_pos hboth,
        List.flatMap_cons, Nat.sub_sub]
      obtain ⟨hs, heq⟩ | ⟨hs, e, heq⟩ := ih (k - (a.size + b.size))
      · exact .inl ⟨hs, by rw [heq]; rfl⟩
      · exact .inr ⟨hs, e, by rw [heq]; rfl⟩
    · rw [if_neg hboth, if_neg hboth]
      by_cases hfirst : a.size ≤ k
      · rw [if_pos hfirst, if_neg (show ¬ b.size ≤ k - a.size by omega)]
        exact .inr ⟨hfirst, a, rfl⟩
      · rw [if_neg hfirst]
        exact .inl ⟨hfirst, rfl⟩

theorem pairs_both (ps : List (Entry × Entry)) : pairs ((ps.flatMap both).map Entry.read) = ps.filterMap proofOf := by
  induction ps with
  | nil => rfl
  | cons p ps ih =>
    obtain ⟨a, b⟩ := p
    have hflat : ((a, b) :: ps).flatMap both = a :: b :: ps.flatMap both := rfl
    rw [hflat, List.map_cons, List.map_cons]
    cases ha : a.read with
    | none => rw [pairs, ih, List.filterMap_cons_none (by rw [proofOf, ha])]; simp
    | some x =>
      cases hb : b.read with
      | none => rw [pairs, ih, List.filterMap_cons_none (by rw [proofOf, ha, hb])]; simp
      | some y => rw [pairs, ih, List.filterMap_cons_some (by rw [proofOf, ha, hb])]

/-- A journal that is not there reads as an empty one. -/
theorem readProofs_eq (disk : Disk) :
    readProofs disk = (pairs (readRecords disk proofsPath).1, (readRecords disk proofsPath).2) := by
  rw [readProofs]
  split_ifs with hmem
  · rfl
  · have hnil : disk.bytes proofsPath = [] := Std.ExtTreeMap.getD_eq_fallback hmem
    have hread : readRecords disk proofsPath = ([], disk) := by
      rw [readRecords, hnil]
      rfl
    rw [hread]
    rfl

theorem flatMap_ne_concat (es : List Entry) (e : Entry) : (es ++ [e]).flatMap Entry.frame ≠ es.flatMap Entry.frame := by
  intro h
  have hlen := congrArg List.length h
  have hpos := e.size_pos
  rw [length_flatMap_frame, length_flatMap_frame, List.map_append, List.sum_append] at hlen
  simp at hlen
  omega

/-- The proofs' journal recovers exactly where its records do and the cut leaves
no pair's first record alone. -/
theorem recoversProofs_iff {disk : Disk} {pairs : List (Entry × Entry)} {k : ℕ} (more : List EquivProof)
    (h : disk.bytes proofsPath = ((pairs.flatMap both).flatMap Entry.frame).take k) :
    RecoversProofs disk pairs k more ↔
      (Readable (pairs.flatMap both) k ∧ ∀ op ∈ more.flatMap halves, op.encoding.length < 2 ^ 32) ∧ ¬ Splits pairs k := by
  rw [← recovers_iff (more.flatMap halves) h]
  constructor
  · intro R
    refine ⟨R.records, fun hs => ?_⟩
    obtain ⟨hns, -⟩ | ⟨-, e, hwhole⟩ := whole_both pairs k
    · exact hns hs
    · have hcut := R.records.cut.symm.trans R.cut
      rw [hwhole] at hcut
      exact flatMap_ne_concat _ e hcut
  · rintro ⟨R, hs⟩
    obtain ⟨-, hwhole⟩ | ⟨hs', -⟩ := whole_both pairs k
    · have hread := R.read
      have hcut := R.cut
      have hagain := R.again
      rw [hwhole] at hread hcut hagain
      refine ⟨R, hcut, ?_, ?_⟩
      · rw [readProofs_eq, hread, pairs_both]
      · have hmore : (more.flatMap halves).map some = ((more.map fun p => (Entry.ofOp p.a,
          Entry.ofOp p.b)).flatMap both).map Entry.read := by
          rw [List.flatMap_map, List.map_flatMap, List.map_flatMap]
          exact List.flatMap_congr fun p _ => by simp [halves, both]
        have hproofs : (more.map fun p => (Entry.ofOp p.a, Entry.ofOp p.b)).filterMap proofOf = more := by
          rw [List.filterMap_map]
          have hsome : (proofOf ∘ fun p : EquivProof => (Entry.ofOp p.a, Entry.ofOp p.b)) = some := by
            funext p
            simp [proofOf]
          rw [hsome, List.filterMap_some]
        rw [readProofs_eq, readProofs_eq, hagain, hmore, ← List.map_append, ← List.flatMap_append, pairs_both,
          List.filterMap_append, hproofs]
    · exact absurd hs' hs

/-- Exactly when a journal cut at any byte recovers: an op journal, where no
prefix is read for a length it does not hold; the proofs' journal, where moreover
the cut leaves no pair's first record alone. -/
theorem cut_journals_recover (disk : Disk) :
    (∀ path entries k more, disk.bytes path = (entries.flatMap Entry.frame).take k →
      (Recovers disk path entries k more ↔ Readable entries k ∧ ∀ op ∈ more, op.encoding.length < 2 ^ 32)) ∧
    ∀ pairs k more, disk.bytes proofsPath = ((pairs.flatMap both).flatMap Entry.frame).take k →
      (RecoversProofs disk pairs k more ↔
        (Readable (pairs.flatMap both) k ∧ ∀ op ∈ more.flatMap halves, op.encoding.length < 2 ^ 32) ∧ ¬ Splits pairs k) :=
  ⟨fun _ _ _ more h => recovers_iff more h, fun _ _ more h => recoversProofs_iff more h⟩

/-- A note, and another signed into its slot. -/
def firstNote : Op := ⟨⟨"s", "notes", [], "alice", 0, none, 0, [], .value, [0]⟩, by decide⟩
def secondNote : Op := ⟨⟨"s", "notes", [], "alice", 0, none, 0, [], .value, [1]⟩, by decide⟩

/-- The proofs' journal after a proof whose second record was not written. -/
def halfProof : Disk := (∅ : Disk).insert proofsPath (framed firstNote)

theorem bytes_halfProof : halfProof.bytes proofsPath =
    (([(Entry.ofOp firstNote, Entry.ofOp secondNote)].flatMap both).flatMap Entry.frame).take (framed firstNote).length := by
  have hflat : ([(Entry.ofOp firstNote, Entry.ofOp secondNote)].flatMap both).flatMap Entry.frame =
      framed firstNote ++ framed secondNote := by
    simp [both]
  rw [hflat, List.take_left, halfProof, Disk.bytes_insert, if_pos rfl]

/-- The record left alone is paired with the first of the next proof, whose own
second record is then lost: the fork found again is no proof of one. -/
theorem halfProof_mispairs :
    (readProofs (grown (readProofs halfProof).2 proofsPath [firstNote, secondNote])).1 =
        [{ a := firstNote, b := firstNote }] ∧
      ¬ RecoversProofs halfProof [(Entry.ofOp firstNote, Entry.ofOp secondNote)] (framed firstNote).length
        [{ a := firstNote, b := secondNote }] := by
  have hshort : firstNote.encoding.length < 2 ^ 32 ∧ secondNote.encoding.length < 2 ^ 32 := by decide
  have hone : halfProof.bytes proofsPath = [Entry.ofOp firstNote].flatMap Entry.frame := by
    rw [halfProof, Disk.bytes_insert, if_pos rfl]
    simp
  have hread : readRecords halfProof proofsPath = ([some firstNote], halfProof) := by
    have h := @readRecords_of_bytes halfProof proofsPath [firstNote] [] (by rw [hone]; simp) Frames.torn_nil
      (by simpa using hshort.1)
    simpa using h
  have hagain : readRecords (grown halfProof proofsPath [firstNote, secondNote]) proofsPath =
      ([some firstNote, some firstNote, some secondNote], grown halfProof proofsPath [firstNote, secondNote]) := by
    have h := @readRecords_of_bytes (grown halfProof proofsPath [firstNote, secondNote]) proofsPath
      [firstNote, firstNote, secondNote] [] (by rw [bytes_grown, hone]; simp) Frames.torn_nil
      (by simpa using ⟨hshort.1, hshort.2⟩)
    simpa using h
  refine ⟨by rw [readProofs_eq, readProofs_eq, hread, hagain]; rfl, fun R => ?_⟩
  refine ((recoversProofs_iff _ bytes_halfProof).mp R).2 ?_
  have hsecond := (Entry.ofOp secondNote).size_pos
  have hfirst : (Entry.ofOp firstNote).size = (framed firstNote).length := rfl
  rw [Splits, pairSize]
  dsimp only
  rw [hfirst, if_neg (by omega)]

end Glade.Store
