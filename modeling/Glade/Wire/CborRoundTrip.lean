import Glade.Wire.Cbor

/-! What the decoder reads back of the encoder's bytes: any value without
floats whose containers nest within the depth bound and whose map keys are
non-negative and ascending, in front of any bytes. -/

namespace Glade.Wire

open Words

/-- Values without floats whose containers nest at most `d` deep, with
booleans and nulls where `simple` allows them. -/
def Shaped (simple : Bool) : ℕ → Cbor → Prop
  | _, .int _ => True
  | _, .bool _ => simple = true
  | _, .null => simple = true
  | _, .float _ => False
  | _, .bytes _ => True
  | _, .text _ => True
  | 0, .array _ => False
  | 0, .map _ => False
  | d + 1, .array items => ∀ v ∈ items, Shaped simple d v
  | d + 1, .map entries =>
    (entries.map Prod.fst).Pairwise (· < ·) ∧ ∀ e ∈ entries, 0 ≤ e.1 ∧ Shaped simple d e.2

/-- A value whose strings' lengths and containers' counts a head holds. -/
inductive Counted : Cbor → Prop
  | int (n : Int64) : Counted (.int n)
  | float (bits : UInt64) : Counted (.float bits)
  | bytes (b : Bytes) (h : b.length < 2 ^ 64) : Counted (.bytes b)
  | text (s : String) (h : (utf8 s).length < 2 ^ 64) : Counted (.text s)
  | array (items : List Cbor) (h : items.length < 2 ^ 64) (hitems : ∀ v ∈ items, Counted v) : Counted (.array items)
  | map (entries : List (Int64 × Cbor)) (h : entries.length < 2 ^ 64) (hvals : ∀ e ∈ entries, Counted e.2) :
      Counted (.map entries)
  | bool (b : Bool) : Counted (.bool b)
  | null : Counted .null

/-- A value whose bytes a buffer holds. -/
def Fits (simple : Bool) (d : ℕ) (v : Cbor) : Prop := Shaped simple d v ∧ (encode v).length < 2 ^ 64

/-! ### Heads -/

theorem take_append (b rest : Bytes) : take b.length (b ++ rest) = .ok (b, rest) := by
  simp [take]

theorem readArg_wide {info w n : ℕ} (hi : ¬ info < 24) (hw : argWidth info = some w) (hn : n < 256 ^ w)
    (hs : fitsShorter w n = false) (rest : Bytes) : readArg info (beBytes w n ++ rest) = .ok (n, rest) := by
  have ht := take_append (beBytes w n) rest
  rw [length_beBytes] at ht
  have hv : ofBe (beBytes w n) = n := by rw [ofBe_beBytes, Nat.mod_eq_of_lt hn]
  simp only [readArg, if_neg hi, hw, ht, bind, Except.bind, hv, hs, Bool.false_eq_true, if_false]

/-- A head's first byte splits into its major type and its info. -/
theorem toNat_first {major info : ℕ} (hm : major < 8) (hi : info < 32) :
    (UInt8.ofNat (major * 32 + info)).toNat / 32 = major ∧
      (UInt8.ofNat (major * 32 + info)).toNat % 32 = info := by
  rw [UInt8.toNat_ofNat']
  omega

/-- A head's argument is in its first byte, or in the fewest bytes after it. -/
theorem head_forms (major : ℕ) {n : ℕ} (hn : n < 2 ^ 64) :
    ∃ info arg, info < 32 ∧ head major n = UInt8.ofNat (major * 32 + info) :: arg ∧
      (info < 24 ∧ info = n ∧ arg = [] ∨
        ∃ w, ¬ info < 24 ∧ argWidth info = some w ∧ n < 256 ^ w ∧ fitsShorter w n = false ∧ arg = beBytes w n) := by
  rw [head]
  split_ifs with h1 h2 h3 h4
  · exact ⟨n, [], by omega, rfl, .inl ⟨h1, rfl, rfl⟩⟩
  · exact ⟨24, _, by omega, rfl, .inr ⟨1, by omega, rfl, by omega, by simp [fitsShorter]; omega, rfl⟩⟩
  · exact ⟨25, _, by omega, rfl, .inr ⟨2, by omega, rfl, by omega, by simp [fitsShorter]; omega, rfl⟩⟩
  · exact ⟨26, _, by omega, rfl, .inr ⟨4, by omega, rfl, by omega, by simp [fitsShorter]; omega, rfl⟩⟩
  · exact ⟨27, _, by omega, rfl, .inr ⟨8, by omega, rfl, by omega, by simp [fitsShorter]; omega, rfl⟩⟩

/-- A head is a first byte of its major type and an argument that reads back. -/
theorem head_eq (major : ℕ) {n : ℕ} (hm : major < 8) (hn : n < 2 ^ 64) :
    ∃ (first : UInt8) (arg : Bytes), head major n = first :: arg ∧ first.toNat / 32 = major ∧
      ∀ rest, readArg (first.toNat % 32) (arg ++ rest) = .ok (n, rest) := by
  obtain ⟨info, arg, hi, heq, h⟩ := head_forms major hn
  refine ⟨_, _, heq, (toNat_first hm hi).1, fun rest => ?_⟩
  rw [(toNat_first hm hi).2]
  obtain ⟨hlt, rfl, rfl⟩ | ⟨w, hlt, hw, hnw, hs, rfl⟩ := h
  · rw [readArg, if_pos hlt]
    rfl
  · exact readArg_wide hlt hw hnw hs rest

/-! ### Integers -/

theorem decWith_encInt (limit : ℕ) (inner : Option (Reader Cbor)) (n : Int64) (rest : Bytes) :
    decWith limit inner (encInt n ++ rest) = .ok (.int n, rest) := by
  have hlo := n.le_toInt
  have hhi := n.toInt_lt
  rw [encInt]
  split_ifs with h0
  · rw [Int64.le_iff_toInt_le, Int64.toInt_zero] at h0
    obtain ⟨first, arg, heq, hm, hread⟩ := head_eq 0 (n := n.toInt.toNat) (by omega) (by omega)
    rw [heq, List.cons_append, decWith, hm]
    simp only [hread rest]
    have hv : Int64.ofNat n.toInt.toNat = n := by
      rw [← Int64.ofInt_eq_ofNat, Int.toNat_of_nonneg h0, Int64.ofInt_toInt]
    simp only [bind, Except.bind, hv, if_pos (show n.toInt.toNat < 2 ^ 63 by omega)]
  · rw [Int64.le_iff_toInt_le, Int64.toInt_zero] at h0
    obtain ⟨first, arg, heq, hm, hread⟩ :=
      head_eq 1 (n := (-1 - n.toInt).toNat) (by omega) (by omega)
    rw [heq, List.cons_append, decWith, hm]
    simp only [hread rest]
    have hv : Int64.ofInt (-1 - ((-1 - n.toInt).toNat : ℤ)) = n := by
      rw [Int.toNat_of_nonneg (by omega), show -1 - (-1 - n.toInt) = n.toInt by omega, Int64.ofInt_toInt]
    simp only [bind, Except.bind, hv, if_pos (show (-1 - n.toInt).toNat < 2 ^ 63 by omega)]

theorem dec_encInt (limit d : ℕ) (n : Int64) (rest : Bytes) :
    dec limit d (encInt n ++ rest) = .ok (.int n, rest) := by
  cases d <;> exact decWith_encInt limit _ n rest

/-- A map key's head is the integer's. -/
theorem head_key {k : Int64} (hk : 0 ≤ k) : head 0 k.toUInt64.toNat = encInt k := by
  rw [encInt, if_pos hk]
  rw [Int64.le_iff_toInt_le, Int64.toInt_zero] at hk
  have hbits : k.toInt = k.toBitVec.toInt := rfl
  rw [BitVec.toInt_eq_toNat_cond] at hbits
  have hlt := k.toBitVec.isLt
  congr 1
  change k.toBitVec.toNat = k.toInt.toNat
  split at hbits <;> omega

/-! ### Containers -/

theorem encodeItems_eq (items : List Cbor) : encodeItems items = items.flatMap encode := by
  induction items with
  | nil => rfl
  | cons v vs ih => rw [encodeItems, ih, List.flatMap_cons]

theorem encodeEntries_eq (entries : List (Int64 × Cbor)) :
    encodeEntries entries = entries.map (fun e => (e.1, head 0 e.1.toUInt64.toNat ++ encode e.2)) := by
  induction entries with
  | nil => rfl
  | cons e es ih => rw [encodeEntries, ih, List.map_cons]

/-- Entries in ascending key order are encoded where they stand. -/
theorem sortEntries_encodeEntries {entries : List (Int64 × Cbor)}
    (h : (entries.map Prod.fst).Pairwise (· < ·)) :
    sortEntries (encodeEntries entries) = encodeEntries entries := by
  refine List.Pairwise.insertionSort_eq ?_
  rw [encodeEntries_eq, List.pairwise_map]
  rw [List.pairwise_map] at h
  exact h.imp fun hlt => Int64.le_of_lt hlt

theorem decEntries_flatMap (item : Reader Cbor) (entries : List (Int64 × Cbor)) (seen : List Int64)
    (hkey : ∀ e ∈ entries, ∀ rest, item (head 0 e.1.toUInt64.toNat ++ rest) = .ok (.int e.1, rest))
    (hval : ∀ e ∈ entries, ∀ rest, item (encode e.2 ++ rest) = .ok (e.2, rest))
    (hpos : ∀ e ∈ entries, 0 ≤ e.1) (hnew : ∀ e ∈ entries, e.1 ∉ seen)
    (hnodup : (entries.map Prod.fst).Nodup) (rest : Bytes) :
    decEntries item entries.length seen ((encodeEntries entries).flatMap Prod.snd ++ rest) =
      .ok (entries, rest) := by
  induction entries generalizing seen with
  | nil => rfl
  | cons e es ih =>
    rw [List.map_cons, List.nodup_cons] at hnodup
    have hrest := ih (e.1 :: seen) (fun x hx => hkey x (by simp [hx])) (fun x hx => hval x (by simp [hx]))
      (fun x hx => hpos x (by simp [hx]))
      (fun x hx => by
        rw [List.mem_cons, not_or]
        exact ⟨fun h => hnodup.1 (h ▸ List.mem_map_of_mem hx), hnew x (by simp [hx])⟩)
      hnodup.2
    have hneg : ¬ e.1 < 0 := Int64.not_lt.mpr (hpos e (by simp))
    simp only [encodeEntries, List.flatMap_cons, List.append_assoc, List.length_cons, decEntries,
      hkey e (by simp), hval e (by simp), bind, Except.bind, if_neg hneg, if_neg (hnew e (by simp)), hrest]
    rfl

/-! ### Lengths -/

theorem head_length_pos (major n : ℕ) : 0 < (head major n).length := by
  rw [head]
  split_ifs <;> simp

theorem encode_length_pos (v : Cbor) : 0 < (encode v).length := by
  cases v with
  | int n => rw [encode, encInt]; split_ifs <;> exact head_length_pos _ _
  | float bits => rw [encode, encFloat]; split_ifs <;> simp
  | bool b => simp [encode]
  | null => simp [encode]
  | _ =>
    rw [encode, List.length_append]
    exact Nat.add_pos_left (head_length_pos _ _) _

theorem length_flatMap_ge {α : Type} (f : α → Bytes) (xs : List α) (hpos : ∀ x ∈ xs, 0 < (f x).length) :
    xs.length ≤ (xs.flatMap f).length ∧ ∀ x ∈ xs, (f x).length ≤ (xs.flatMap f).length := by
  induction xs with
  | nil => simp
  | cons x xs ih =>
    have hx := hpos x (by simp)
    obtain ⟨hlen, hmem⟩ := ih (fun y hy => hpos y (by simp [hy]))
    simp only [List.flatMap_cons, List.length_append, List.length_cons, List.forall_mem_cons]
    exact ⟨by omega, by omega, fun y hy => by have := hmem y hy; omega⟩

theorem Fits.bytes_length {simple : Bool} {d : ℕ} {b : Bytes} (h : Fits simple d (.bytes b)) : b.length < 2 ^ 64 := by
  have hlen := h.2
  rw [encode, List.length_append] at hlen
  omega

theorem Fits.text_length {simple : Bool} {d : ℕ} {s : String} (h : Fits simple d (.text s)) :
    (utf8 s).length < 2 ^ 64 := by
  have hlen := h.2
  rw [encode, List.length_append] at hlen
  omega

theorem Fits.items {simple : Bool} {d : ℕ} {items : List Cbor} (h : Fits simple (d + 1) (.array items)) :
    items.length < 2 ^ 64 ∧ ∀ v ∈ items, Fits simple d v := by
  obtain ⟨hs, hlen⟩ := h
  rw [encode, encodeItems_eq, List.length_append] at hlen
  obtain ⟨hcount, hmem⟩ := length_flatMap_ge encode items (fun v _ => encode_length_pos v)
  exact ⟨by omega, fun v hv => ⟨hs v hv, by have := hmem v hv; omega⟩⟩

theorem Fits.entries {simple : Bool} {d : ℕ} {entries : List (Int64 × Cbor)}
    (h : Fits simple (d + 1) (.map entries)) :
    entries.length < 2 ^ 64 ∧ (entries.map Prod.fst).Pairwise (· < ·) ∧
      ∀ e ∈ entries, 0 ≤ e.1 ∧ Fits simple d e.2 := by
  obtain ⟨⟨hsorted, hes⟩, hlen⟩ := h
  rw [encode, sortEntries_encodeEntries hsorted, encodeEntries_eq, List.flatMap_map, List.length_append] at hlen
  dsimp only at hlen
  obtain ⟨hcount, hmem⟩ := length_flatMap_ge
    (fun e : Int64 × Cbor => head 0 e.1.toUInt64.toNat ++ encode e.2) entries
    (fun e _ => by rw [List.length_append]; exact Nat.add_pos_left (head_length_pos _ _) _)
  refine ⟨by omega, hsorted, fun e he => ⟨(hes e he).1, (hes e he).2, ?_⟩⟩
  have := hmem e he
  rw [List.length_append] at this
  omega

theorem Fits.counted {simple : Bool} {d : ℕ} {v : Cbor} (h : Fits simple d v) : Counted v := by
  induction d generalizing v with
  | zero =>
    cases v with
    | int n => exact .int n
    | bytes b => exact .bytes b h.bytes_length
    | text s => exact .text s h.text_length
    | bool b => exact .bool b
    | null => exact .null
    | _ => exact h.1.elim
  | succ d ih =>
    cases v with
    | int n => exact .int n
    | float bits => exact h.1.elim
    | bytes b => exact .bytes b h.bytes_length
    | text s => exact .text s h.text_length
    | bool b => exact .bool b
    | null => exact .null
    | array items => exact .array items h.items.1 fun v hv => ih (h.items.2 v hv)
    | map entries => exact .map entries h.entries.1 fun e he => ih (h.entries.2.2 e he).2

/-! ### The round trip -/

/-- One level of the round trip: a container's items read back one level down. -/
theorem decWith_encode {limit d : ℕ} {inner : Option (Reader Cbor)} {v : Cbor} {simple : Bool} (hv : Shaped simple d v)
    (hc : Counted v)
    (hin : ∀ d', d = d' + 1 → ∃ item, inner = some item ∧
      (∀ n rest, item (encInt n ++ rest) = .ok (.int n, rest)) ∧
      ∀ w, Shaped simple d' w → Counted w → ∀ rest, item (encode w ++ rest) = .ok (w, rest)) (rest : Bytes) :
    decWith limit inner (encode v ++ rest) = .ok (v, rest) := by
  cases hc with
  | int n => exact decWith_encInt limit inner n rest
  | float bits => cases d <;> exact hv.elim
  | bool b => cases b <;> rfl
  | null => rfl
  | bytes b hlen =>
    obtain ⟨first, arg, heq, hm, hread⟩ := head_eq 2 (by omega) hlen
    rw [encode, heq, List.cons_append, List.cons_append, decWith, hm, List.append_assoc]
    simp only [hread, take_append, bind, Except.bind]
    rfl
  | text s hlen =>
    obtain ⟨first, arg, heq, hm, hread⟩ := head_eq 3 (by omega) hlen
    rw [encode, heq, List.cons_append, List.cons_append, decWith, hm, List.append_assoc]
    simp only [hread, take_append, fromUtf8_utf8, bind, Except.bind]
    rfl
  | array items hlen hitems =>
    cases d with
    | zero => exact hv.elim
    | succ d =>
      obtain ⟨item, rfl, -, hitem⟩ := hin d rfl
      obtain ⟨first, arg, heq, hm, hread⟩ := head_eq 4 (by omega) hlen
      have hmany := many_flatMap item encode items (fun w hw => hitem w (hv w hw) (hitems w hw)) rest
      rw [encode, heq, List.cons_append, List.cons_append, decWith, hm, List.append_assoc, encodeItems_eq]
      simp only [hread, hmany, bind, Except.bind, pure, Except.pure]
  | map entries hlen hvals =>
    cases d with
    | zero => exact hv.elim
    | succ d =>
      obtain ⟨item, rfl, hint, hitem⟩ := hin d rfl
      obtain ⟨hsorted, hes⟩ := hv
      obtain ⟨first, arg, heq, hm, hread⟩ := head_eq 5 (by omega) hlen
      have hdec := decEntries_flatMap item entries [] (fun e he r => by rw [head_key (hes e he).1, hint])
        (fun e he => hitem e.2 (hes e he).2 (hvals e he)) (fun e he => (hes e he).1) (by simp)
        (hsorted.imp fun hlt => Int64.ne_of_lt hlt) rest
      rw [encode, heq, List.cons_append, List.cons_append, decWith, hm, List.append_assoc,
        sortEntries_encodeEntries hsorted]
      simp only [hread, hdec, bind, Except.bind]
      rfl

theorem dec_encode (limit : ℕ) {simple : Bool} {d : ℕ} {v : Cbor} (hv : Shaped simple d v) (hc : Counted v)
    (rest : Bytes) : dec limit d (encode v ++ rest) = .ok (v, rest) := by
  induction d generalizing v rest with
  | zero => exact decWith_encode hv hc (fun d' h => by omega) rest
  | succ d ih =>
    refine decWith_encode hv hc (fun d' h => ?_) rest
    obtain rfl : d' = d := by omega
    exact ⟨_, rfl, dec_encInt limit d', fun w hw hcw => ih hw hcw⟩

theorem Shaped.succ {simple : Bool} {d : ℕ} {v : Cbor} (hv : Shaped simple d v) : Shaped simple (d + 1) v := by
  induction d generalizing v with
  | zero => cases v <;> first | exact hv | exact hv.elim
  | succ d ih =>
    cases v with
    | array items => exact fun w hw => ih (hv w hw)
    | map entries => exact ⟨hv.1, fun e he => ⟨(hv.2 e he).1, ih (hv.2 e he).2⟩⟩
    | _ => exact hv

theorem Shaped.mono {simple : Bool} {d d' : ℕ} {v : Cbor} (hv : Shaped simple d v) (h : d ≤ d') :
    Shaped simple d' v := by
  induction h with
  | refl => exact hv
  | step _ ih => exact ih.succ

theorem tryDecode_of_counted {simple : Bool} {d : ℕ} {v : Cbor} (hv : Shaped simple d v) (hc : Counted v)
    (hd : d ≤ defaultMaxDepth) : tryDecode (encode v) = .ok v := by
  have h := dec_encode defaultMaxDepth (hv.mono hd) hc []
  rw [List.append_nil] at h
  simp only [tryDecode, h, bind, Except.bind]
  rfl

theorem tryDecode_encode {d : ℕ} {v : Cbor} (hv : Fits true d v) (hd : d ≤ defaultMaxDepth) :
    tryDecode (encode v) = .ok v := tryDecode_of_counted hv.1 hv.counted hd

/-! ### Records

A message is a map of its fields under ascending keys. -/

theorem shaped_bytes {simple : Bool} {d : ℕ} (b : Bytes) : Shaped simple d (.bytes b) := by cases d <;> trivial

theorem shaped_text {simple : Bool} {d : ℕ} (s : String) : Shaped simple d (.text s) := by cases d <;> trivial

theorem shaped_int {simple : Bool} {d : ℕ} (n : Int64) : Shaped simple d (.int n) := by cases d <;> trivial

theorem shaped_map {simple : Bool} {d : ℕ} {entries : List (Int64 × Cbor)} (keys : List Int64)
    (hkeys : entries.map Prod.fst = keys) (hsorted : keys.Pairwise (· < ·)) (hpos : ∀ k ∈ keys, 0 ≤ k)
    (hvals : ∀ v ∈ entries.map Prod.snd, Shaped simple d v) : Shaped simple (d + 1) (.map entries) := by
  subst hkeys
  exact ⟨hsorted, fun e he => ⟨hpos e.1 (List.mem_map_of_mem he), hvals e.2 (List.mem_map_of_mem he)⟩⟩

end Glade.Wire
