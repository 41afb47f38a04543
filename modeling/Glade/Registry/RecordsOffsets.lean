import Glade.Registry.RecordsItems

/-! The edits of `records.json` by offsets, as the source makes them
(`records_file.rs`): a walk notes where each entry lies, and the revision is taken
out and put in between two offsets. No offset it notes is past the bytes, so every
slice is there, and the edits are those of the entries themselves. -/

namespace Glade.RecordsFile

open Wire Node Words

/-! ### Offsets -/

/-- `bytes[a..b]`, which is there only within the bytes. -/
def slice (bytes : Bytes) (a b : ℕ) : Option Bytes :=
  if a ≤ b ∧ b ≤ bytes.length then some ((bytes.drop a).take (b - a)) else none

/-- Two slices, one after the other. -/
theorem slice_append {bytes u v : Bytes} {a b c : ℕ} (hu : slice bytes a b = some u) (hv : slice bytes b c = some v) :
    slice bytes a c = some (u ++ v) := by
  unfold slice at hu hv ⊢
  split_ifs at hu hv with hab hbc
  obtain rfl := Option.some.inj hu
  obtain rfl := Option.some.inj hv
  have hsplit : c - a = (b - a) + (c - b) := by omega
  have hoffset : a + (b - a) = b := by omega
  rw [if_pos ⟨by omega, hbc.2⟩, hsplit, List.take_add, List.drop_drop, hoffset]

theorem slice_self {bytes : Bytes} {a : ℕ} (h : a ≤ bytes.length) : slice bytes a a = some [] := by
  rw [slice, if_pos ⟨le_rfl, h⟩, Nat.sub_self, List.take_zero]

/-- The head at an offset, and where it ends. -/
def headAt (bytes : Bytes) (at_ : ℕ) : Option ((ℕ × ℕ) × ℕ) := do
  let first ← bytes[at_]?
  let info := first.toNat % 32
  if info < 24 then some ((first.toNat / 32, info), at_ + 1)
  else do
    let width ← argWidth info
    let raw ← slice bytes (at_ + 1) (at_ + 1 + width)
    some ((first.toNat / 32, ofBe raw), at_ + 1 + width)

theorem headAt_some {bytes : Bytes} {at_ next : ℕ} {x : ℕ × ℕ} (h : headAt bytes at_ = some (x, next)) :
    at_ < next ∧ next ≤ bytes.length ∧ itemHead (bytes.drop at_) = some (x, bytes.drop next) := by
  unfold headAt at h
  cases hb : bytes[at_]? with
  | none => simp [hb] at h
  | some first =>
    obtain ⟨hlt, hget⟩ := List.getElem?_eq_some_iff.mp hb
    rw [hb] at h
    simp only [Option.bind_eq_bind, Option.bind_some] at h
    rw [List.drop_eq_getElem_cons hlt, hget, itemHead]
    split_ifs at h ⊢ with hinfo
    · obtain ⟨rfl, rfl⟩ := Prod.mk.inj (Option.some.inj h)
      exact ⟨Nat.lt_succ_self _, hlt, rfl⟩
    · cases hw : argWidth (first.toNat % 32) with
      | none => simp [hw] at h
      | some width =>
        simp only [hw, Option.bind_some, slice] at h ⊢
        by_cases hlen : at_ + 1 + width ≤ bytes.length
        · rw [if_pos ⟨Nat.le_add_right _ _, hlen⟩, Option.bind_some, Nat.add_sub_cancel_left] at h
          obtain ⟨rfl, rfl⟩ := Prod.mk.inj (Option.some.inj h)
          refine ⟨by omega, hlen, ?_⟩
          rw [Option.bind_eq_bind, Option.bind_some, if_pos (by rw [List.length_drop]; omega), List.drop_drop]
        · rw [if_neg (by omega)] at h
          cases h

theorem headAt_none {bytes : Bytes} {at_ : ℕ} (h : headAt bytes at_ = none) : itemHead (bytes.drop at_) = none := by
  unfold headAt at h
  cases hb : bytes[at_]? with
  | none =>
    rw [List.getElem?_eq_none_iff] at hb
    rw [List.drop_of_length_le hb]
    rfl
  | some first =>
    obtain ⟨hlt, hget⟩ := List.getElem?_eq_some_iff.mp hb
    rw [hb] at h
    simp only [Option.bind_eq_bind, Option.bind_some] at h
    rw [List.drop_eq_getElem_cons hlt, hget, itemHead]
    split_ifs at h ⊢ with hinfo
    cases hw : argWidth (first.toNat % 32) with
    | none => simp
    | some width =>
      simp only [hw, Option.bind_some, slice] at h ⊢
      by_cases hlen : at_ + 1 + width ≤ bytes.length
      · rw [if_pos ⟨Nat.le_add_right _ _, hlen⟩] at h
        cases h
      · rw [Option.bind_eq_bind, Option.bind_some, if_neg (by rw [List.length_drop]; omega)]

/-- Past `items` well-formed items from an offset. Each head takes a byte, so the
loop ends. -/
def skipAt (bytes : Bytes) (items at_ : ℕ) : Except String ℕ :=
  match items with
  | 0 => .ok at_
  | items + 1 =>
    match h : headAt bytes at_ with
    | none => .error torn
    | some ((major, n), next) =>
      match major with
      | 0 | 1 | 7 => skipAt bytes items next
      | 2 | 3 => if next + n ≤ bytes.length then skipAt bytes items (next + n) else .error torn
      | 4 => if items + n < 2 ^ 64 then skipAt bytes (items + n) next else .error torn
      | 5 => if items + 2 * n < 2 ^ 64 then skipAt bytes (items + 2 * n) next else .error torn
      | _ => .error "a tag"
termination_by bytes.length - at_
decreasing_by
  all_goals
    have hread := headAt_some h
    omega

/-- An entry of a walked map: its key, and where it and its value lie. -/
structure Extent where
  key : ℕ
  entry : ℕ × ℕ
  value : ℕ × ℕ

/-- A walked map: where its first entry begins, and its entries. -/
structure Extents where
  body : ℕ
  entries : List Extent

def walkEntriesAt (bytes : Bytes) : ℕ → ℕ → Except String (List Extent × ℕ)
  | 0, at_ => .ok ([], at_)
  | count + 1, start =>
    match headAt bytes start with
    | none => .error torn
    | some ((major, key), value) =>
      if major ≠ 0 then .error "a key that is not an unsigned integer"
      else
        match skipAt bytes 1 value with
        | .error why => .error why
        | .ok at_ =>
          match walkEntriesAt bytes count at_ with
          | .error why => .error why
          | .ok (entries, rest) => .ok ({ key, entry := (start, at_), value := (value, at_) } :: entries, rest)

def walkAt (bytes : Bytes) : Except String Extents :=
  match headAt bytes 0 with
  | none => .error torn
  | some ((major, count), body) =>
    if major ≠ 5 then .error "not a map"
    else if (bytes.length - body) / 2 < count then .error torn
    else
      match walkEntriesAt bytes count body with
      | .error why => .error why
      | .ok (entries, rest) => if rest ≠ bytes.length then .error "bytes left over" else .ok { body, entries }

/-- The revision and where key 3 lies; none of it where a slice is out of range. -/
def Extents.revision (map : Extents) (file : Bytes) : Option (Except String (ℕ × Option (ℕ × ℕ))) :=
  match map.entries.filter (fun e => e.key = revisionKey) with
  | [] => some (.ok (1, none))
  | [e] => do
    let value ← slice file e.value.1 e.value.2
    if value = [0xf6] then some (.ok (1, some e.entry))
    else
      match headAt value 0 with
      | some ((0, revision), _) =>
        if 0 < revision then some (.ok (revision, some e.entry)) else some (.error "key 3 is not a revision")
      | _ => some (.error "key 3 is not a revision")
  | _ => some (.error "key 3 twice")

/-- The revision and the snapshot a file holds; none of it where a slice is out of range. -/
def loadAt (file : Bytes) : Option (Except String (ℕ × Bytes)) :=
  match walkAt file with
  | .error why => some (.error why)
  | .ok map =>
    match map.revision file with
    | none => none
    | some (.error why) => some (.error why)
    | some (.ok (revision, none)) => some (.ok (revision, file))
    | some (.ok (revision, some at_)) => do
      let low ← slice file map.body at_.1
      let high ← slice file at_.2 file.length
      some (.ok (revision, head 5 (map.entries.length - 1) ++ low ++ high))

/-- The file with `revision` put in, if the snapshot may have one; none of it where
a slice is out of range. -/
def withRevisionAt (snapshot : Bytes) (revision : ℕ) : Option (Option Bytes) :=
  match walkAt snapshot with
  | .error _ => some none
  | .ok map => do
    let count := map.entries.length
    let ordered := (map.entries.zip map.entries.tail).all fun p => p.1.key < p.2.key
    let free := map.entries.all fun e => e.key ≠ revisionKey
    let first ← slice snapshot 0 map.body
    if head 5 count ≠ first ∨ ¬ ordered ∨ ¬ free then some none
    else do
      let after := map.entries.find? (fun e => revisionKey < e.key)
      let at_ := after.elim snapshot.length (fun e => e.entry.1)
      let low ← slice snapshot map.body at_
      let high ← slice snapshot at_ snapshot.length
      some (some (head 5 (count + 1) ++ low ++ head 0 revisionKey ++ head 0 revision ++ high))

/-! ### The same walk -/

/-- A position a walk by offsets comes to, and what a walk of the bytes from there has left. -/
def Agrees (bytes : Bytes) (at_ : ℕ) (x : Except String ℕ) (y : Except String Bytes) : Prop :=
  (∃ next, x = .ok next ∧ at_ ≤ next ∧ next ≤ bytes.length ∧ y = .ok (bytes.drop next)) ∨
    ∃ why, x = .error why ∧ y = .error why

theorem Agrees.error {bytes : Bytes} {at_ : ℕ} (why : String) : Agrees bytes at_ (.error why) (.error why) :=
  .inr ⟨why, rfl, rfl⟩

theorem Agrees.mono {bytes : Bytes} {at_ at' : ℕ} {x : Except String ℕ} {y : Except String Bytes}
    (h : Agrees bytes at_ x y) (hle : at' ≤ at_) : Agrees bytes at' x y := by
  obtain ⟨next, hx, h1, h2, hy⟩ | h := h
  · exact .inl ⟨next, hx, hle.trans h1, h2, hy⟩
  · exact .inr h

theorem skipAt_agrees (bytes : Bytes) {items at_ fuel : ℕ} (hat : at_ ≤ bytes.length) (hfuel : bytes.length - at_ ≤ fuel) :
    Agrees bytes at_ (skipAt bytes items at_) (skipItems fuel items (bytes.drop at_)) := by
  induction fuel generalizing items at_ with
  | zero =>
    cases items with
    | zero =>
      rw [skipAt, skipItems]
      exact .inl ⟨at_, rfl, le_rfl, hat, rfl⟩
    | succ items =>
      -- There is no byte left, so no head.
      have hnone : headAt bytes at_ = none := by
        have hb : bytes[at_]? = none := List.getElem?_eq_none_iff.mpr (by omega)
        simp [headAt, hb]
      rw [skipAt, skipItems]
      split
      · exact .error torn
      case h_2 h => simp [hnone] at h
  | succ fuel ih =>
    cases items with
    | zero =>
      rw [skipAt, skipItems_zero]
      exact .inl ⟨at_, rfl, le_rfl, hat, rfl⟩
    | succ items =>
      rw [skipAt, skipItems]
      split
      case h_1 h =>
        rw [headAt_none h]
        exact .error torn
      case h_2 major n next h =>
        obtain ⟨hlt, hle, hitem⟩ := headAt_some h
        rw [hitem]
        have hnext : ∀ items, Agrees bytes at_ (skipAt bytes items next) (skipItems fuel items (bytes.drop next)) :=
          fun items => (ih hle (by omega)).mono hlt.le
        have hstring : Agrees bytes at_ (if next + n ≤ bytes.length then skipAt bytes items (next + n) else .error torn)
            (if n ≤ (bytes.drop next).length then skipItems fuel items ((bytes.drop next).drop n) else .error torn) := by
          rw [List.length_drop, List.drop_drop]
          by_cases hn : next + n ≤ bytes.length
          · rw [if_pos hn, if_pos (by omega)]
            exact (ih hn (by omega)).mono (by omega)
          · rw [if_neg hn, if_neg (by omega)]
            exact .error torn
        have hcontainer : ∀ m, Agrees bytes at_ (if items + m < 2 ^ 64 then skipAt bytes (items + m) next else .error torn)
            (if items + m < 2 ^ 64 then skipItems fuel (items + m) (bytes.drop next) else .error torn) := by
          intro m
          split_ifs
          · exact hnext (items + m)
          · exact .error torn
        split
        · exact hnext items
        · exact hnext items
        · exact hnext items
        · exact hstring
        · exact hstring
        · exact hcontainer n
        · exact hcontainer (2 * n)
        · -- No other type is passed over.
          dsimp only
          split
          case h_8 => exact .error "a tag"
          all_goals simp_all

/-- The entry an extent is of. -/
def Extent.read (bytes : Bytes) (x : Extent) : Entry :=
  { key := x.key, raw := (bytes.drop x.entry.1).take (x.entry.2 - x.entry.1)
    value := (bytes.drop x.value.1).take (x.value.2 - x.value.1) }

/-- Extents one after another, from one offset to another. -/
def Laid : ℕ → List Extent → ℕ → Prop
  | start, [], stop => start = stop
  | start, x :: xs, stop =>
    x.entry.1 = start ∧ x.value.2 = x.entry.2 ∧ start ≤ x.value.1 ∧ x.value.1 ≤ x.entry.2 ∧ Laid x.entry.2 xs stop

theorem before_drop {bytes : Bytes} {a b : ℕ} (hab : a ≤ b) (hb : b ≤ bytes.length) :
    before (bytes.drop a) (bytes.drop b) = (bytes.drop a).take (b - a) := by
  rw [before, List.length_drop, List.length_drop]
  congr 1
  omega

theorem walkEntriesAt_agrees (bytes : Bytes) {count start : ℕ} (hstart : start ≤ bytes.length) :
    (∃ xs stop, walkEntriesAt bytes count start = .ok (xs, stop) ∧ Laid start xs stop ∧ stop ≤ bytes.length ∧
      walkEntries count (bytes.drop start) = .ok (xs.map (Extent.read bytes), bytes.drop stop)) ∨
    ∃ why, walkEntriesAt bytes count start = .error why ∧ walkEntries count (bytes.drop start) = .error why := by
  induction count generalizing start with
  | zero => exact .inl ⟨[], start, rfl, rfl, hstart, rfl⟩
  | succ count ih =>
    rw [walkEntriesAt, walkEntries]
    cases hhead : headAt bytes start with
    | none =>
      rw [headAt_none hhead]
      exact .inr ⟨torn, rfl, rfl⟩
    | some p =>
      obtain ⟨⟨major, key⟩, value⟩ := p
      obtain ⟨hlt, hle, hitem⟩ := headAt_some hhead
      rw [hitem]
      dsimp only
      by_cases hm : major ≠ 0
      · rw [if_pos hm, if_pos hm]
        exact .inr ⟨_, rfl, rfl⟩
      rw [if_neg hm, if_neg hm]
      have hskip : Agrees bytes value (skipAt bytes 1 value) (skipItems (bytes.drop value).length 1 (bytes.drop value)) :=
        skipAt_agrees bytes hle (by rw [List.length_drop])
      rw [← skip] at hskip
      obtain ⟨next, hx, h1, h2, hy⟩ | ⟨why, hx, hy⟩ := hskip
      · rw [hx, hy]
        dsimp only
        obtain ⟨xs, stop, hx', hlaid, hstop, hy'⟩ | ⟨why, hx', hy'⟩ := ih h2
        · rw [hx', hy']
          refine .inl ⟨_, stop, rfl, ⟨rfl, rfl, hlt.le, h1, hlaid⟩, hstop, ?_⟩
          rw [before_drop (hlt.le.trans h1) h2, before_drop h1 h2]
          rfl
        · rw [hx', hy']
          exact .inr ⟨why, rfl, rfl⟩
      · rw [hx, hy]
        exact .inr ⟨why, rfl, rfl⟩

/-- The walk by offsets is the walk of the bytes. -/
theorem walkAt_agrees (bytes : Bytes) :
    (∃ map, walkAt bytes = .ok map ∧ map.body ≤ bytes.length ∧ Laid map.body map.entries bytes.length ∧
      walk bytes = .ok { head := bytes.take map.body, entries := map.entries.map (Extent.read bytes) }) ∨
    ∃ why, walkAt bytes = .error why ∧ walk bytes = .error why := by
  rw [walkAt, walk]
  have hzero : bytes = bytes.drop 0 := rfl
  cases hhead : headAt bytes 0 with
  | none =>
    have hnone := headAt_none hhead
    rw [← hzero] at hnone
    rw [hnone]
    exact .inr ⟨torn, rfl, rfl⟩
  | some p =>
    obtain ⟨⟨major, count⟩, body⟩ := p
    obtain ⟨-, hle, hitem⟩ := headAt_some hhead
    rw [← hzero] at hitem
    rw [hitem]
    dsimp only
    rw [List.length_drop]
    split_ifs with hm hcount
    · exact .inr ⟨_, rfl, rfl⟩
    · exact .inr ⟨_, rfl, rfl⟩
    · obtain ⟨xs, stop, hx, hlaid, hstop, hy⟩ | ⟨why, hx, hy⟩ := @walkEntriesAt_agrees bytes count _ hle
      · rw [hx, hy]
        dsimp only
        have hend : stop ≠ bytes.length ↔ bytes.drop stop ≠ [] := by
          rw [not_iff_not, List.drop_eq_nil_iff]
          omega
        by_cases hs : stop = bytes.length
        · rw [if_neg (not_not.mpr hs), if_neg (by rw [← hend]; exact not_not.mpr hs)]
          have hbefore := @before_drop bytes 0 body (Nat.zero_le body) hle
          rw [← hzero, Nat.sub_zero] at hbefore
          exact .inl ⟨_, rfl, hle, hs ▸ hlaid, by rw [hbefore]⟩
        · rw [if_pos hs, if_pos (hend.mp hs)]
          exact .inr ⟨_, rfl, rfl⟩
      · rw [hx, hy]
        exact .inr ⟨why, rfl, rfl⟩

/-! ### The same edits -/

namespace Laid

theorem le {start stop : ℕ} {xs : List Extent} (h : Laid start xs stop) : start ≤ stop := by
  induction xs generalizing start with
  | nil => exact (show start = stop from h).le
  | cons x xs ih =>
    obtain ⟨-, -, h1, h2, hrest⟩ := h
    exact (h1.trans h2).trans (ih hrest)

theorem append {start stop : ℕ} {xs ys : List Extent} (h : Laid start (xs ++ ys) stop) :
    ∃ middle, Laid start xs middle ∧ Laid middle ys stop := by
  induction xs generalizing start with
  | nil => exact ⟨start, rfl, h⟩
  | cons x xs ih =>
    obtain ⟨h0, hv, h1, h2, hrest⟩ := h
    obtain ⟨middle, hxs, hys⟩ := ih hrest
    exact ⟨middle, ⟨h0, hv, h1, h2, hxs⟩, hys⟩

/-- The slice from the first extent to the last is their entries' bytes. -/
theorem slice_eq {bytes : Bytes} {start stop : ℕ} {xs : List Extent} (h : Laid start xs stop)
    (hstop : stop ≤ bytes.length) : slice bytes start stop = some ((xs.map (Extent.read bytes)).flatMap Entry.raw) := by
  induction xs generalizing start with
  | nil =>
    obtain rfl : start = stop := h
    exact slice_self hstop
  | cons x xs ih =>
    obtain ⟨rfl, -, h1, h2, hrest⟩ := h
    have hx : slice bytes x.entry.1 x.entry.2 = some (x.read bytes).raw := if_pos ⟨by omega, hrest.le.trans hstop⟩
    exact slice_append hx (ih hrest)

end Laid

theorem filter_read (bytes : Bytes) (p : ℕ → Prop) [DecidablePred p] (xs : List Extent) :
    (xs.map (Extent.read bytes)).filter (fun e => p e.key) = (xs.filter (fun x => p x.key)).map (Extent.read bytes) := by
  rw [List.filter_map]
  rfl

/-- The load by offsets reads nothing out of range, and is the load of the bytes. -/
theorem loadAt_eq (file : Bytes) : loadAt file = some (unpack file) := by
  rw [loadAt, unpack]
  obtain ⟨map, hx, hbody, hlaid, hy⟩ | ⟨why, hx, hy⟩ := walkAt_agrees file
  case inr => rw [hx, hy]
  rw [hx, hy]
  dsimp only
  rw [Extents.revision, Map.revision, filter_read file (fun k => k = revisionKey)]
  cases hheld : map.entries.filter (fun e => e.key = revisionKey) with
  | nil => rfl
  | cons x rest =>
    cases rest with
    | cons y rest => rfl
    | nil =>
      obtain ⟨low, high, hsplit, hlow, hkey, hhigh⟩ := List.filter_eq_cons_iff.mp hheld
      obtain ⟨middle, hlaidLow, hmid⟩ := Laid.append (hsplit ▸ hlaid)
      obtain ⟨rfl, hv, h1, h2, hlaidHigh⟩ := hmid
      have hstop := hlaidHigh.le
      have hvalue : slice file x.value.1 x.value.2 = some (x.read file).value :=
        if_pos ⟨by omega, by omega⟩
      have hrest : (map.entries.map (Extent.read file)).filter (fun e => e.key ≠ revisionKey) =
          low.map (Extent.read file) ++ high.map (Extent.read file) := by
        rw [filter_read file (fun k => k ≠ revisionKey), hsplit, List.filter_append, List.filter_cons, ← List.map_append]
        have hlow' : low.filter (fun e => e.key ≠ revisionKey) = low := by
          rw [List.filter_eq_self]
          simpa using hlow
        have hhigh' : high.filter (fun e => e.key ≠ revisionKey) = high := by
          rw [List.filter_eq_nil_iff] at hhigh
          rw [List.filter_eq_self]
          simpa using hhigh
        rw [if_neg (by simpa using hkey), hlow', hhigh']
      have hout : ∀ revision : ℕ, (do
          let low ← slice file map.body x.entry.1
          let high ← slice file x.entry.2 file.length
          some (.ok (revision, head 5 (map.entries.length - 1) ++ low ++ high)) : Option (Except String (ℕ × Bytes))) =
          some (.ok (revision, head 5 ((map.entries.map (Extent.read file)).length - 1) ++
            ((map.entries.map (Extent.read file)).filter (fun e => e.key ≠ revisionKey)).flatMap Entry.raw)) := by
        intro revision
        rw [hlaidLow.slice_eq (by omega), hlaidHigh.slice_eq le_rfl, hrest, List.length_map, List.flatMap_append]
        simp
      rw [List.map_singleton]
      dsimp only
      rw [hvalue]
      simp only [Option.bind_eq_bind, Option.bind_some]
      by_cases hnull : (x.read file).value = [0xf6]
      · rw [if_pos hnull, if_pos hnull]
        exact hout 1
      · rw [if_neg hnull, if_neg hnull]
        cases hhead : headAt (x.read file).value 0 with
        | none =>
          have hnone : itemHead (x.read file).value = none := headAt_none hhead
          rw [hnone]
        | some p =>
          obtain ⟨⟨major, revision⟩, next⟩ := p
          have hitem : itemHead (x.read file).value = some ((major, revision), _) := (headAt_some hhead).2.2
          rw [hitem]
          by_cases hm : major = 0
          · subst hm
            by_cases hpos : 0 < revision
            · simp only [if_pos hpos]
              exact hout revision
            · simp only [if_neg hpos]
          · simp [hm]

theorem ordered_read (bytes : Bytes) (xs : List Extent) :
    ((xs.zip xs.tail).all fun p => p.1.key < p.2.key) = ordered (xs.map (Extent.read bytes)) := by
  induction xs with
  | nil => rfl
  | cons x xs ih =>
    cases xs with
    | nil => rfl
    | cons y xs =>
      rw [List.tail_cons] at ih ⊢
      rw [List.zip_cons_cons, List.all_cons, ih]
      rfl

/-- The slices on either side of the first key above 3. -/
theorem slices_after {bytes : Bytes} {start stop : ℕ} {xs : List Extent} (h : Laid start xs stop)
    (hstop : stop ≤ bytes.length) :
    slice bytes start ((xs.find? (fun e => revisionKey < e.key)).elim stop (fun e => e.entry.1)) =
      some (((xs.map (Extent.read bytes)).takeWhile (fun e => ¬ revisionKey < e.key)).flatMap Entry.raw) ∧
    slice bytes ((xs.find? (fun e => revisionKey < e.key)).elim stop (fun e => e.entry.1)) stop =
      some (((xs.map (Extent.read bytes)).dropWhile (fun e => ¬ revisionKey < e.key)).flatMap Entry.raw) := by
  induction xs generalizing start with
  | nil =>
    obtain rfl : start = stop := h
    exact ⟨slice_self hstop, slice_self hstop⟩
  | cons x xs ih =>
    obtain ⟨hlow, hhigh⟩ := ih h.2.2.2.2
    have hall := h.slice_eq hstop
    obtain ⟨rfl, -, h1, h2, hrest⟩ := h
    by_cases hx : revisionKey < x.key
    · have hread : ¬ (¬ revisionKey < (x.read bytes).key) := not_not.mpr hx
      rw [List.find?_cons_of_pos (by simpa using hx), Option.elim_some, List.map_cons,
        List.takeWhile_cons_of_neg (by simpa using hread), List.dropWhile_cons_of_neg (by simpa using hread)]
      exact ⟨slice_self (by have := hrest.le; omega), hall⟩
    · have hread : ¬ revisionKey < (x.read bytes).key := hx
      have hfirst : slice bytes x.entry.1 x.entry.2 = some (x.read bytes).raw := if_pos ⟨by omega, hrest.le.trans hstop⟩
      rw [List.find?_cons_of_neg (by simpa using hx), List.map_cons, List.takeWhile_cons_of_pos (by simpa using hread),
        List.dropWhile_cons_of_pos (by simpa using hread), List.flatMap_cons]
      exact ⟨slice_append hfirst hlow, hhigh⟩

theorem withRevisionAt_eq (snapshot : Bytes) (revision : ℕ) :
    withRevisionAt snapshot revision = some (withRevision snapshot revision) := by
  rw [withRevisionAt, withRevision]
  obtain ⟨map, hx, hbody, hlaid, hy⟩ | ⟨why, hx, hy⟩ := walkAt_agrees snapshot
  case inr => rw [hx, hy]
  rw [hx, hy]
  dsimp only
  have hfirst : slice snapshot 0 map.body = some (snapshot.take map.body) := if_pos ⟨Nat.zero_le _, hbody⟩
  have hordered : ((map.entries.zip map.entries.tail).all fun p => p.1.key < p.2.key) =
      ordered (map.entries.map (Extent.read snapshot)) := ordered_read snapshot map.entries
  have hfree : (map.entries.all fun e => e.key ≠ revisionKey) =
      (map.entries.map (Extent.read snapshot)).all fun e => e.key ≠ revisionKey := by
    rw [List.all_map]
    rfl
  obtain ⟨hlow, hhigh⟩ := slices_after hlaid le_rfl
  rw [hfirst, hordered, hfree, List.length_map]
  simp only [Option.bind_eq_bind, Option.bind_some, hlow, hhigh]
  split_ifs <;> rfl

/-- What the walk by offsets answers, and what the walk of the bytes does. -/
theorem walkAt_ok {bytes : Bytes} {map : Map} (h : walk bytes = .ok map) :
    ∃ extents, walkAt bytes = .ok extents ∧ map.entries = extents.entries.map (Extent.read bytes) := by
  obtain ⟨extents, hx, -, -, hy⟩ | ⟨why, -, hy⟩ := walkAt_agrees bytes
  · rw [hy] at h
    obtain rfl := Except.ok.inj h
    exact ⟨extents, hx, rfl⟩
  · rw [hy] at h
    cases h

theorem walkAt_isOk {bytes : Bytes} (hlt : bytes.length < 2 ^ 64) :
    (∃ extents, walkAt bytes = .ok extents) ↔ ∃ es, Entries bytes es := by
  rw [← walk_isOk hlt]
  obtain ⟨extents, hx, -, -, hy⟩ | ⟨why, hx, hy⟩ := walkAt_agrees bytes <;> rw [hx, hy] <;> simp

/-- A revision put into a snapshot is loaded with the snapshot, byte for byte, from a
file whose keys increase and are 3 once. It is put into exactly the canonical maps
without key 3. A walk answers for exactly the maps, whatever their keys' order, a
load for exactly those that hold a revision or none; and of no bytes is anything
read out of range. -/
theorem revision_splice :
    (∀ (s f : Bytes) (r : ℕ), s.length ≤ maxLen → 0 < r → r < 2 ^ 64 → withRevisionAt s r = some (some f) →
      loadAt f = some (.ok (r, s)) ∧ ∃ map, walkAt f = .ok map ∧ (map.entries.map Extent.key).Pairwise (· < ·) ∧
        (map.entries.filter (fun e => e.key = revisionKey)).length = 1) ∧
    (∀ (s : Bytes) (r : ℕ), s.length ≤ maxLen → ((∃ f, withRevisionAt s r = some (some f)) ↔ Spliceable s)) ∧
    (∀ bytes : Bytes, bytes.length ≤ maxLen →
      ((∃ map, walkAt bytes = .ok map) ↔ ∃ es, Entries bytes es) ∧
      ((∃ x, loadAt bytes = some (.ok x)) ↔ ∃ es, Entries bytes es ∧ HoldsRevision es)) ∧
    ∀ (bytes : Bytes) (r : ℕ), loadAt bytes ≠ none ∧ withRevisionAt bytes r ≠ none := by
  have hmax : ∀ {n : ℕ}, n ≤ maxLen → n < 2 ^ 64 := fun h => h.trans_lt (by decide)
  refine ⟨fun s f r hs h0 hr h => ?_, fun s r hs => ?_, fun bytes hb => ⟨walkAt_isOk (hmax hb), ?_⟩, fun bytes r => ?_⟩
  · rw [withRevisionAt_eq] at h
    obtain ⟨hunpack, map, hwalk, hkeys, hheld⟩ := unpack_withRevision hs h0 hr (Option.some.inj h)
    obtain ⟨extents, hx, hentries⟩ := walkAt_ok hwalk
    refine ⟨by rw [loadAt_eq, hunpack], extents, hx, ?_, ?_⟩
    · rwa [hentries, List.map_map] at hkeys
    · rw [hentries, filter_read f (fun k => k = revisionKey)] at hheld
      simpa using congrArg List.length hheld
  · rw [← spliceable_iff (hmax hs) r]
    simp only [withRevisionAt_eq, Option.some.injEq]
  · rw [← unpack_isOk (hmax hb)]
    simp only [loadAt_eq, Option.some.injEq]
  · rw [loadAt_eq, withRevisionAt_eq]
    exact ⟨nofun, nofun⟩

/-- A map that holds its revision takes no other, and is walked and loaded. -/
theorem revised_map_loads :
    ¬ ∀ bytes : Bytes, bytes.length ≤ maxLen → ¬ Spliceable bytes →
      (∃ why, walkAt bytes = .error why) ∧ (∃ why, loadAt bytes = some (.error why)) ∧
        ∀ r, withRevisionAt bytes r = some none := by
  intro h
  have hnot : ¬ Spliceable [0xa1, 0x03, 0x01] := by
    rw [← spliceable_iff (by decide) 1]
    rintro ⟨f, hf⟩
    have hnone : withRevision [0xa1, 0x03, 0x01] 1 = none := by decide
    rw [hnone] at hf
    cases hf
  obtain ⟨-, ⟨why, hload⟩, -⟩ := h [0xa1, 0x03, 0x01] (by decide) hnot
  have hok : unpack [0xa1, 0x03, 0x01] = .ok (1, [0xa0]) := by decide
  rw [loadAt_eq, hok] at hload
  cases hload

end Glade.RecordsFile
