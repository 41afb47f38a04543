import Glade.Registry.RecordsFile

/-! Reading back the file a save writes. A map written entry by entry walks back
to its entries, so the file holds the revision it was given and the snapshot it
was given, byte for byte. -/

namespace Glade.RecordsFile

open Wire Node

/-! ### Walking what was written -/

/-- Bytes that are one item. -/
def Skips (value : Bytes) : Prop := ∀ rest, skip (value ++ rest) = .ok rest

theorem Skips.length_pos {value : Bytes} (h : Skips value) : 0 < value.length := by
  cases value with
  | nil =>
    have := h []
    simp [skip, skipItems] at this
  | cons b bs => simp

@[simp] theorem skipItems_zero (fuel : ℕ) (bs : Bytes) : skipItems fuel 0 bs = .ok bs := by
  cases fuel <;> rfl

theorem skips_head {n : ℕ} (hn : n < 2 ^ 64) : Skips (head 0 n) := by
  intro rest
  obtain ⟨fuel, hfuel⟩ : ∃ fuel, (head 0 n ++ rest).length = fuel + 1 := by
    refine ⟨(head 0 n ++ rest).length - 1, ?_⟩
    have := head_length_pos 0 n
    rw [List.length_append]
    omega
  rw [skip, hfuel, skipItems, itemHead_head (by omega) hn]
  exact skipItems_zero fuel rest

theorem skipItems_bytes {items : List Bytes} (h : ∀ b ∈ items, b.length < 2 ^ 64) {fuel : ℕ} (hf : items.length ≤ fuel)
    (rest : Bytes) : skipItems fuel items.length ((items.map Cbor.bytes).flatMap encode ++ rest) = .ok rest := by
  induction items generalizing fuel with
  | nil => exact skipItems_zero fuel rest
  | cons b items ih =>
    obtain ⟨fuel, rfl⟩ : ∃ n, fuel = n + 1 := ⟨fuel - 1, by simp at hf; omega⟩
    have hrest := ih (fun x hx => h x (by simp [hx])) (by simpa using hf)
    rw [List.map_cons, List.flatMap_cons, List.length_cons, encode, List.append_assoc, List.append_assoc, skipItems,
      itemHead_head (by omega) (h b (by simp))]
    simp only [List.length_append, Nat.le_add_right, if_true, List.drop_left]
    exact hrest

theorem skips_byteStrings {items : List Bytes} (h : (encode (byteStrings items)).length < 2 ^ 64) :
    Skips (encode (byteStrings items)) := by
  intro rest
  have hfits : Fits false 1 (byteStrings items) := by
    refine ⟨fun v hv => ?_, h⟩
    obtain ⟨b, -, rfl⟩ := List.mem_map.mp hv
    exact shaped_bytes b
  obtain ⟨hcount, hitems⟩ := hfits.items
  rw [List.length_map] at hcount
  have hbytes : ∀ b ∈ items, b.length < 2 ^ 64 := by
    intro b hb
    have hlen := (hitems (.bytes b) (List.mem_map_of_mem hb)).2
    rw [encode, List.length_append] at hlen
    omega
  have hlong := (length_flatMap_ge encode (items.map Cbor.bytes) (fun v _ => encode_length_pos v)).1
  rw [List.length_map] at hlong
  obtain ⟨fuel, hfuel⟩ : ∃ fuel, (encode (byteStrings items) ++ rest).length = fuel + 1 := by
    refine ⟨(encode (byteStrings items) ++ rest).length - 1, ?_⟩
    have := encode_length_pos (byteStrings items)
    rw [List.length_append]
    omega
  have hf : items.length ≤ fuel := by
    rw [byteStrings, encode, encodeItems_eq, List.length_append, List.length_append] at hfuel
    have := head_length_pos 4 (items.map Cbor.bytes).length
    omega
  rw [skip, hfuel, byteStrings, encode, encodeItems_eq, List.append_assoc, List.length_map, skipItems,
    itemHead_head (by omega) hcount]
  simp only [Nat.zero_add, if_pos hcount]
  exact skipItems_bytes hbytes hf rest

/-- The entry a key and a value's bytes make. -/
def entryOf (e : ℕ × Bytes) : Entry := { key := e.1, raw := head 0 e.1 ++ e.2, value := e.2 }

theorem before_append (a b : Bytes) : before (a ++ b) b = a := by
  rw [before, List.length_append, Nat.add_sub_cancel, List.take_left]

theorem walkEntries_flatMap {es : List (ℕ × Bytes)} (h : ∀ e ∈ es, e.1 < 2 ^ 64 ∧ Skips e.2) (rest : Bytes) :
    walkEntries es.length (es.flatMap (fun e => head 0 e.1 ++ e.2) ++ rest) = .ok (es.map entryOf, rest) := by
  induction es with
  | nil => rfl
  | cons e es ih =>
    obtain ⟨hkey, hskips⟩ := h e (by simp)
    have hrest := ih fun x hx => h x (by simp [hx])
    set tail := es.flatMap (fun e => head 0 e.1 ++ e.2) ++ rest with htail
    have hbs : (e :: es).flatMap (fun e => head 0 e.1 ++ e.2) ++ rest = head 0 e.1 ++ (e.2 ++ tail) := by
      rw [List.flatMap_cons, List.append_assoc, List.append_assoc, htail]
    have hraw : before (head 0 e.1 ++ (e.2 ++ tail)) tail = head 0 e.1 ++ e.2 := by
      rw [← List.append_assoc, before_append]
    rw [hbs, List.length_cons, walkEntries, itemHead_head (by omega) hkey]
    simp only [ne_eq, not_true_eq_false, if_false, hskips tail, hrest, hraw, before_append]
    rfl

/-- A map written entry by entry walks back to its entries. -/
theorem walk_flatMap (es : List (ℕ × Bytes)) (hn : es.length < 2 ^ 64) (h : ∀ e ∈ es, e.1 < 2 ^ 64 ∧ Skips e.2) :
    walk (head 5 es.length ++ es.flatMap (fun e => head 0 e.1 ++ e.2)) =
      .ok { head := head 5 es.length, entries := es.map entryOf } := by
  have hlong : 2 * es.length ≤ (es.flatMap (fun e => head 0 e.1 ++ e.2)).length := by
    clear hn
    induction es with
    | nil => simp
    | cons e es ih =>
      have hhead := head_length_pos 0 e.1
      have hvalue := (h e (by simp)).2.length_pos
      have := ih fun x hx => h x (by simp [hx])
      simp only [List.flatMap_cons, List.length_append, List.length_cons]
      omega
  have hentries := walkEntries_flatMap h []
  rw [List.append_nil] at hentries
  rw [walk, itemHead_head (by omega) hn]
  simp only [ne_eq, not_true_eq_false, if_false, hentries, before_append]
  rw [if_neg (by omega)]

/-! ### The file a save writes -/

/-- A snapshot a buffer holds the file of. -/
def Holdable (snap : SystemSnapshot) : Prop := (encodeSnapshot snap).length + 10 ≤ maxLen

/-- The entries of a snapshot's map. -/
def entriesOf (snap : SystemSnapshot) : List (ℕ × Bytes) :=
  [(1, encode (byteStrings snap.records)), (2, encode (byteStrings snap.heads))]

/-- The file a save of `snap` at `revision` writes. -/
def fileOf (snap : SystemSnapshot) (revision : ℕ) : Bytes :=
  head 5 3 ++ (entriesOf snap ++ [(3, head 0 revision)]).flatMap (fun e : ℕ × Bytes => head 0 e.1 ++ e.2)

theorem encodeSnapshot_eq (snap : SystemSnapshot) :
    encodeSnapshot snap = head 5 2 ++ (entriesOf snap).flatMap (fun e => head 0 e.1 ++ e.2) := by
  have hsorted : ([((1 : Int64), byteStrings snap.records), (2, byteStrings snap.heads)].map Prod.fst).Pairwise
      (· < ·) := by
    change List.Pairwise (· < ·) [(1 : Int64), 2]
    decide
  rw [encodeSnapshot, encode, sortEntries_encodeEntries hsorted, encodeEntries_eq]
  rfl

theorem Holdable.entries {snap : SystemSnapshot} (h : Holdable snap) :
    ∀ e ∈ entriesOf snap, e.1 < 2 ^ 64 ∧ Skips e.2 ∧ e.2.length < 2 ^ 64 := by
  rw [Holdable, encodeSnapshot_eq, maxLen] at h
  simp only [entriesOf, List.flatMap_cons, List.flatMap_nil, List.length_append, List.length_nil] at h
  simp only [entriesOf, List.forall_mem_cons]
  refine ⟨⟨by norm_num, skips_byteStrings ?_, ?_⟩, ⟨by norm_num, skips_byteStrings ?_, ?_⟩, by simp⟩
  all_goals omega

theorem walk_encodeSnapshot {snap : SystemSnapshot} (h : Holdable snap) :
    walk (encodeSnapshot snap) = .ok { head := head 5 2, entries := (entriesOf snap).map entryOf } := by
  rw [encodeSnapshot_eq]
  exact walk_flatMap (entriesOf snap) (by simp [entriesOf]) fun e he => ⟨(h.entries e he).1, (h.entries e he).2.1⟩

theorem walk_fileOf {snap : SystemSnapshot} (h : Holdable snap) {revision : ℕ} (hr : revision < 2 ^ 64) :
    walk (fileOf snap revision) =
      .ok { head := head 5 3, entries := (entriesOf snap ++ [(3, head 0 revision)]).map entryOf } := by
  refine walk_flatMap (entriesOf snap ++ [(3, head 0 revision)]) (by simp [entriesOf]) fun e he => ?_
  rcases List.mem_append.mp he with he | he
  · exact ⟨(h.entries e he).1, (h.entries e he).2.1⟩
  · rw [List.mem_singleton.mp he]
    exact ⟨by norm_num, skips_head hr⟩

theorem withRevision_encodeSnapshot {snap : SystemSnapshot} (h : Holdable snap) (revision : ℕ) :
    withRevision (encodeSnapshot snap) revision = some (fileOf snap revision) := by
  rw [withRevision, walk_encodeSnapshot h]
  simp [entriesOf, entryOf, ordered, revisionKey, fileOf]

theorem revision_fileOf {snap : SystemSnapshot} {revision : ℕ} (hr : revision < 2 ^ 64) (h0 : 0 < revision) :
    Map.revision { head := head 5 3, entries := (entriesOf snap ++ [(3, head 0 revision)]).map entryOf } =
      .ok (revision, true) := by
  have hhead := itemHead_head (show 0 < 8 by omega) hr []
  rw [List.append_nil] at hhead
  have hnull : head 0 revision ≠ [0xf6] := by
    intro hn
    rw [hn] at hhead
    have := hhead.symm.trans (show itemHead [0xf6] = some ((7, 22), []) from rfl)
    simp at this
  simp [Map.revision, entriesOf, entryOf, revisionKey, hnull, hhead, h0]

theorem revisionOf_fileOf {snap : SystemSnapshot} (h : Holdable snap) {revision : ℕ} (hr : revision < 2 ^ 64)
    (h0 : 0 < revision) : revisionOf (fileOf snap revision) = .ok revision := by
  rw [revisionOf, walk_fileOf h hr]
  dsimp only
  rw [revision_fileOf hr h0]
  rfl

theorem unpack_fileOf {snap : SystemSnapshot} (h : Holdable snap) {revision : ℕ} (hr : revision < 2 ^ 64)
    (h0 : 0 < revision) : unpack (fileOf snap revision) = .ok (revision, encodeSnapshot snap) := by
  rw [unpack, walk_fileOf h hr]
  dsimp only
  rw [revision_fileOf hr h0]
  simp [entriesOf, entryOf, revisionKey, encodeSnapshot_eq]

theorem readByteStrings_encode (items : List Bytes) (h : (encode (byteStrings items)).length < 2 ^ 64) :
    readByteStrings (encode (byteStrings items)) = some items := by
  have hshape : Shaped false 1 (byteStrings items) := by
    intro v hv
    obtain ⟨b, -, rfl⟩ := List.mem_map.mp hv
    exact shaped_bytes b
  rw [readByteStrings, parse_encode ⟨hshape.succ, h⟩]
  simp only [byteStrings]
  clear h hshape
  induction items with
  | nil => rfl
  | cons b items ih =>
    rw [List.map_cons, List.mapM_cons, ih]
    rfl

/-- A snapshot reads back as its records and heads. -/
theorem decodeSnapshot_encodeSnapshot {snap : SystemSnapshot} (h : Holdable snap) :
    decodeSnapshot (encodeSnapshot snap) = .ok { snap with revision := none } := by
  have hrecords := readByteStrings_encode snap.records (h.entries _ (List.mem_cons_self ..)).2.2
  have hheads := readByteStrings_encode snap.heads (h.entries _ (List.mem_cons_of_mem _ (List.mem_cons_self ..))).2.2
  rw [decodeSnapshot, walk_encodeSnapshot h]
  simp [Map.list, entriesOf, entryOf, hrecords, hheads]

end Glade.RecordsFile
