import Glade.Node.RecordReads
import Glade.Registry.RecordsWalk

/-! What a walk of `records.json` takes, as a grammar: heads, items, and entries. A
walk answers exactly the entries the bytes are made of, so a revision spliced in
between them is walked back to, and taken out again. -/

namespace Glade.RecordsFile

open Wire Node

/-! ### Heads -/

/-- Bytes that are one head, of a definite length. -/
def IsHead (h : Bytes) (major n : ℕ) : Prop := itemHead h = some ((major, n), [])

theorem exists_isHead {bs rest : Bytes} {major n : ℕ} (h : itemHead bs = some ((major, n), rest)) :
    ∃ b, IsHead b major n ∧ bs = b ++ rest := by
  cases bs with
  | nil => simp [itemHead] at h
  | cons first bs =>
    unfold IsHead
    unfold itemHead at h
    dsimp only at h
    split_ifs at h with hinfo
    · obtain ⟨hx, rfl⟩ := Prod.mk.inj (Option.some.inj h)
      refine ⟨[first], ?_, rfl⟩
      rw [itemHead, if_pos hinfo, hx]
    · cases hw : argWidth (first.toNat % 32) with
      | none => simp [hw] at h
      | some w =>
        simp only [hw, Option.bind_eq_bind, Option.bind_some] at h
        split_ifs at h with hlen
        obtain ⟨hx, rfl⟩ := Prod.mk.inj (Option.some.inj h)
        refine ⟨first :: bs.take w, ?_, by simp⟩
        rw [itemHead, if_neg hinfo, hw]
        simp [List.take_take, hlen, hx]

namespace IsHead

variable {h : Bytes} {major n : ℕ}

theorem append (hh : IsHead h major n) (rest : Bytes) : itemHead (h ++ rest) = some ((major, n), rest) := by
  unfold IsHead at hh
  cases h with
  | nil => simp [itemHead] at hh
  | cons first bs =>
    unfold itemHead at hh
    dsimp only at hh
    rw [List.cons_append, itemHead]
    split_ifs at hh ⊢ with hinfo
    · obtain ⟨hx, rfl⟩ := Prod.mk.inj (Option.some.inj hh)
      rw [hx]
      rfl
    · cases hw : argWidth (first.toNat % 32) with
      | none => simp [hw] at hh
      | some w =>
        simp only [hw, Option.bind_eq_bind, Option.bind_some] at hh ⊢
        split_ifs at hh with hlen
        obtain ⟨hx, hdrop⟩ := Prod.mk.inj (Option.some.inj hh)
        have hw' : w = bs.length := by
          rw [List.drop_eq_nil_iff] at hdrop
          omega
        subst hw'
        rw [if_pos (by simp)]
        simp only [List.take_left, List.drop_left, Option.some.injEq, Prod.mk.injEq, and_true]
        rw [List.take_length] at hx
        exact Prod.mk.inj hx

theorem length_pos (hh : IsHead h major n) : 0 < h.length := by
  cases h with
  | nil => simp [IsHead, itemHead] at hh
  | cons b bs => simp

theorem lt (hh : IsHead h major n) : n < 2 ^ 64 := itemHead_lt hh

end IsHead

theorem isHead_head {major n : ℕ} (hm : major < 8) (hn : n < 2 ^ 64) : IsHead (head major n) major n := by
  have h := itemHead_head hm hn []
  rwa [List.append_nil] at h

/-! ### Items -/

/-- One well-formed item: a number or a simple value, a string of the length its
head says, or an array or a map of as many items as its head says. -/
inductive Item : Bytes → Prop
  | number {h : Bytes} {major n : ℕ} : IsHead h major n → major = 0 ∨ major = 1 ∨ major = 7 → Item h
  | string {h body : Bytes} {major : ℕ} : IsHead h major body.length → major = 2 ∨ major = 3 → Item (h ++ body)
  | array {h : Bytes} {items : List Bytes} :
    IsHead h 4 items.length → (∀ b ∈ items, Item b) → Item (h ++ items.flatten)
  | map {h : Bytes} {n : ℕ} {items : List Bytes} :
    IsHead h 5 n → items.length = 2 * n → (∀ b ∈ items, Item b) → Item (h ++ items.flatten)

theorem Item.length_pos {v : Bytes} (h : Item v) : 0 < v.length := by
  cases h with
  | number hh => exact hh.length_pos
  | string hh | array hh | map hh =>
    have := hh.length_pos
    rw [List.length_append]
    omega

theorem length_le_flatten {vs : List Bytes} (h : ∀ v ∈ vs, Item v) : vs.length ≤ vs.flatten.length := by
  induction vs with
  | nil => simp
  | cons v vs ih =>
    have hv := (h v (by simp)).length_pos
    have := ih fun w hw => h w (by simp [hw])
    simp only [List.length_cons, List.flatten_cons, List.length_append]
    omega

/-- What a skip passes is as many items as it was to pass. -/
theorem items_of_skipItems {fuel items : ℕ} {bs rest : Bytes} (h : skipItems fuel items bs = .ok rest) :
    ∃ vs : List Bytes, vs.length = items ∧ (∀ v ∈ vs, Item v) ∧ bs = vs.flatten ++ rest := by
  induction fuel generalizing items bs with
  | zero =>
    cases items with
    | zero =>
      obtain rfl := Except.ok.inj h
      exact ⟨[], rfl, by simp, rfl⟩
    | succ items => cases h
  | succ fuel ih =>
    cases items with
    | zero =>
      obtain rfl := Except.ok.inj h
      exact ⟨[], rfl, by simp, rfl⟩
    | succ items =>
      rw [skipItems] at h
      cases hhead : itemHead bs with
      | none =>
        rw [hhead] at h
        cases h
      | some p =>
        obtain ⟨⟨major, n⟩, bs'⟩ := p
        obtain ⟨b, hb, rfl⟩ := exists_isHead hhead
        rw [hhead] at h
        dsimp only at h
        -- What one head makes of itself and the items after it.
        have hscalar : major = 0 ∨ major = 1 ∨ major = 7 → skipItems fuel items bs' = .ok rest →
            ∃ vs : List Bytes, vs.length = items + 1 ∧ (∀ v ∈ vs, Item v) ∧ b ++ bs' = vs.flatten ++ rest := by
          intro hm hrest
          obtain ⟨vs, hlen, hvs, rfl⟩ := ih hrest
          exact ⟨b :: vs, by simp [hlen], List.forall_mem_cons.mpr ⟨.number hb hm, hvs⟩, by simp⟩
        have hstring : major = 2 ∨ major = 3 → n ≤ bs'.length → skipItems fuel items (bs'.drop n) = .ok rest →
            ∃ vs : List Bytes, vs.length = items + 1 ∧ (∀ v ∈ vs, Item v) ∧ b ++ bs' = vs.flatten ++ rest := by
          intro hm hn hrest
          obtain ⟨vs, hlen, hvs, hdrop⟩ := ih hrest
          have hb' : IsHead b major (bs'.take n).length := by rwa [List.length_take, Nat.min_eq_left hn]
          refine ⟨(b ++ bs'.take n) :: vs, by simp [hlen], List.forall_mem_cons.mpr ⟨.string hb' hm, hvs⟩, ?_⟩
          rw [List.flatten_cons, List.append_assoc, List.append_assoc, ← hdrop, List.take_append_drop]
        have hcontainer : ∀ m, (∀ own : List Bytes, own.length = m → (∀ v ∈ own, Item v) → Item (b ++ own.flatten)) →
            skipItems fuel (items + m) bs' = .ok rest →
            ∃ vs : List Bytes, vs.length = items + 1 ∧ (∀ v ∈ vs, Item v) ∧ b ++ bs' = vs.flatten ++ rest := by
          intro m hown hrest
          obtain ⟨vs, hlen, hvs, rfl⟩ := ih hrest
          have hitem := hown (vs.take m) (by simp [hlen]) fun v hv => hvs v (List.mem_of_mem_take hv)
          refine ⟨(b ++ (vs.take m).flatten) :: vs.drop m, by simp [hlen], ?_, ?_⟩
          · exact List.forall_mem_cons.mpr ⟨hitem, fun v hv => hvs v (List.mem_of_mem_drop hv)⟩
          · have hsplit : vs.flatten = (vs.take m).flatten ++ (vs.drop m).flatten := by
              rw [← List.flatten_append, List.take_append_drop]
            rw [hsplit, List.flatten_cons]
            simp only [List.append_assoc]
        split at h
        · exact hscalar (.inl rfl) h
        · exact hscalar (.inr (.inl rfl)) h
        · exact hscalar (.inr (.inr rfl)) h
        · split_ifs at h with hn
          exact hstring (.inl rfl) hn h
        · split_ifs at h with hn
          exact hstring (.inr rfl) hn h
        · split_ifs at h
          exact hcontainer n (fun own hown hitems => .array (hown ▸ hb) hitems) h
        · split_ifs at h
          exact hcontainer (2 * n) (fun own hown hitems => .map hb hown hitems) h
        · cases h

/-- A skip passes well-formed items, whatever follows them. -/
theorem skipItems_items {vs : List Bytes} (hvs : ∀ v ∈ vs, Item v) (hlt : vs.flatten.length < 2 ^ 64) {fuel : ℕ}
    (hfuel : vs.flatten.length ≤ fuel) (rest : Bytes) : skipItems fuel vs.length (vs.flatten ++ rest) = .ok rest := by
  induction fuel generalizing vs with
  | zero =>
    cases vs with
    | nil => rfl
    | cons v vs =>
      have := (hvs v (by simp)).length_pos
      rw [List.flatten_cons, List.length_append] at hfuel
      omega
  | succ fuel ih =>
    cases vs with
    | nil => rfl
    | cons v vs =>
      have htail : ∀ w ∈ vs, Item w := fun w hw => hvs w (by simp [hw])
      rw [List.flatten_cons, List.length_append] at hlt hfuel
      have hcontainer : ∀ {b : Bytes} {own : List Bytes} {major n : ℕ}, IsHead b major n → (∀ w ∈ own, Item w) →
          v = b ++ own.flatten → vs.length + own.length < 2 ^ 64 ∧
            skipItems fuel (vs.length + own.length) (own.flatten ++ (vs.flatten ++ rest)) = .ok rest := by
        rintro b own major n hb hown rfl
        have hpos := hb.length_pos
        have hall : ∀ w ∈ own ++ vs, Item w := fun w hw => (List.mem_append.mp hw).elim (hown w) (htail w)
        have hcount := length_le_flatten hall
        have hlen : (own ++ vs).flatten.length = own.flatten.length + vs.flatten.length := by simp
        rw [List.length_append] at hlt hfuel hcount
        have hstep := ih hall (by omega) (by omega)
        rw [List.flatten_append, List.append_assoc, List.length_append, Nat.add_comm own.length] at hstep
        exact ⟨by omega, hstep⟩
      rw [List.length_cons, List.flatten_cons, List.append_assoc]
      cases hvs v (by simp) with
      | number hh hm =>
        have hpos := hh.length_pos
        have hstep := ih htail (by omega) (by omega)
        rw [skipItems, hh.append]
        obtain rfl | rfl | rfl := hm <;> exact hstep
      | @string b body major hh hm =>
        have hpos := hh.length_pos
        rw [List.length_append] at hlt hfuel
        have hstep := ih htail (by omega) (by omega)
        rw [List.append_assoc, skipItems, hh.append]
        obtain rfl | rfl := hm
        all_goals
          dsimp only
          rw [if_pos (by simp), List.drop_left]
          exact hstep
      | @array b own hh hown =>
        obtain ⟨hcount, hstep⟩ := hcontainer hh hown rfl
        rw [List.append_assoc, skipItems, hh.append]
        dsimp only
        rw [if_pos hcount]
        exact hstep
      | @map b n own hh hn hown =>
        obtain ⟨hcount, hstep⟩ := hcontainer hh hown rfl
        rw [List.append_assoc, skipItems, hh.append]
        dsimp only
        rw [← hn, if_pos hcount]
        exact hstep

/-- What a skip passes is one item. -/
theorem item_of_skip {bs rest : Bytes} (h : skip bs = .ok rest) : ∃ v, Item v ∧ bs = v ++ rest := by
  obtain ⟨vs, hlen, hvs, rfl⟩ := items_of_skipItems h
  obtain ⟨v, rfl⟩ := List.length_eq_one_iff.mp hlen
  exact ⟨v, hvs v (by simp), by simp⟩

theorem Item.skips {v : Bytes} (h : Item v) (hlt : v.length < 2 ^ 64) : Skips v := by
  intro rest
  have hitems : skipItems (v ++ rest).length [v].length ([v].flatten ++ rest) = .ok rest :=
    skipItems_items (by simpa using h) (by simpa using hlt) (by simp) rest
  simpa [skip] using hitems

/-! ### Entries and maps -/

/-- An entry a walk makes: a key's head, and then one item. -/
def EntryOk (e : Entry) : Prop := ∃ h, IsHead h 0 e.key ∧ e.raw = h ++ e.value ∧ Item e.value

theorem EntryOk.length_raw {e : Entry} (h : EntryOk e) : 2 ≤ e.raw.length := by
  obtain ⟨k, hk, hraw, hv⟩ := h
  have h1 := hk.length_pos
  have h2 := hv.length_pos
  rw [hraw, List.length_append]
  omega

theorem entries_of_walkEntries {count : ℕ} {bs rest : Bytes} {es : List Entry}
    (h : walkEntries count bs = .ok (es, rest)) :
    es.length = count ∧ (∀ e ∈ es, EntryOk e) ∧ bs = es.flatMap Entry.raw ++ rest := by
  induction count generalizing bs es with
  | zero =>
    obtain ⟨rfl, rfl⟩ := Prod.mk.inj (Except.ok.inj h)
    simp
  | succ count ih =>
    rw [walkEntries] at h
    split at h
    · cases h
    case h_2 major key value hhead =>
      split_ifs at h with hm
      rw [not_not] at hm
      subst hm
      split at h
      · cases h
      case h_2 rest₁ hskip =>
        split at h
        · cases h
        case h_2 es' rest' hrest =>
          obtain ⟨rfl, rfl⟩ := Prod.mk.inj (Except.ok.inj h)
          obtain ⟨hlen, hes, rfl⟩ := ih hrest
          obtain ⟨v, hv, rfl⟩ := item_of_skip hskip
          obtain ⟨b, hb, rfl⟩ := exists_isHead hhead
          have hraw : before (b ++ (v ++ (es'.flatMap Entry.raw ++ rest'))) (es'.flatMap Entry.raw ++ rest') = b ++ v := by
            rw [← List.append_assoc, before_append]
          rw [hraw, before_append]
          refine ⟨by simp [hlen], List.forall_mem_cons.mpr ⟨⟨b, hb, rfl, hv⟩, hes⟩, ?_⟩
          simp

theorem walkEntries_entries {es : List Entry} (hes : ∀ e ∈ es, EntryOk e) (hlt : (es.flatMap Entry.raw).length < 2 ^ 64)
    (rest : Bytes) : walkEntries es.length (es.flatMap Entry.raw ++ rest) = .ok (es, rest) := by
  induction es with
  | nil => rfl
  | cons e es ih =>
    obtain ⟨b, hb, hraw, hv⟩ := hes e (by simp)
    rw [List.flatMap_cons, List.length_append, hraw, List.length_append] at hlt
    have hrest := ih (fun x hx => hes x (by simp [hx])) (by omega)
    have hskip := hv.skips (by omega) (es.flatMap Entry.raw ++ rest)
    have hbefore : before (b ++ (e.value ++ (es.flatMap Entry.raw ++ rest))) (es.flatMap Entry.raw ++ rest) = e.raw := by
      rw [← List.append_assoc, before_append, hraw]
    rw [List.flatMap_cons, List.length_cons, hraw, List.append_assoc, List.append_assoc, walkEntries, hb.append]
    simp only [ne_eq, not_true_eq_false, if_false, hskip, hrest, hbefore, before_append]

/-- What a walk answers, and what it takes. -/
theorem walk_ok {bs : Bytes} {map : Map} (h : walk bs = .ok map) :
    IsHead map.head 5 map.entries.length ∧ (∀ e ∈ map.entries, EntryOk e) ∧
      bs = map.head ++ map.entries.flatMap Entry.raw := by
  rw [walk] at h
  split at h
  · cases h
  case h_2 major count body hhead =>
    split_ifs at h with hm hcount
    rw [not_not] at hm
    subst hm
    split at h
    · cases h
    case h_2 es rest hentries =>
      split_ifs at h with hrest
      rw [not_not] at hrest
      subst hrest
      obtain rfl := Except.ok.inj h
      obtain ⟨hlen, hes, rfl⟩ := entries_of_walkEntries hentries
      obtain ⟨b, hb, rfl⟩ := exists_isHead hhead
      rw [before_append, hlen]
      exact ⟨hb, hes, by simp⟩

theorem walk_entries {h : Bytes} {es : List Entry} (hh : IsHead h 5 es.length) (hes : ∀ e ∈ es, EntryOk e)
    (hlt : (es.flatMap Entry.raw).length < 2 ^ 64) :
    walk (h ++ es.flatMap Entry.raw) = .ok { head := h, entries := es } := by
  have hlong : 2 * es.length ≤ (es.flatMap Entry.raw).length := by
    clear hh hlt
    induction es with
    | nil => simp
    | cons e es ih =>
      have h2 := (hes e (by simp)).length_raw
      have := ih fun x hx => hes x (by simp [hx])
      simp only [List.flatMap_cons, List.length_append, List.length_cons]
      omega
  have hentries := walkEntries_entries hes hlt []
  rw [List.append_nil] at hentries
  rw [walk, hh.append]
  simp only [ne_eq, not_true_eq_false, if_false, hentries, before_append]
  rw [if_neg (by omega)]

/-! ### Files that are walked and loaded -/

/-- A definite-length map: its keys unsigned, each with one item, and nothing left over. -/
def Entries (bytes : Bytes) (es : List Entry) : Prop :=
  ∃ h, IsHead h 5 es.length ∧ (∀ e ∈ es, EntryOk e) ∧ bytes = h ++ es.flatMap Entry.raw

theorem walk_isOk {bytes : Bytes} (hlt : bytes.length < 2 ^ 64) :
    (∃ map, walk bytes = .ok map) ↔ ∃ es, Entries bytes es := by
  constructor
  · rintro ⟨map, h⟩
    exact ⟨map.entries, map.head, walk_ok h⟩
  · rintro ⟨es, h, hh, hes, rfl⟩
    rw [List.length_append] at hlt
    exact ⟨_, walk_entries hh hes (by omega)⟩

/-- Key 3 is not there, or once: as null, or as a revision. -/
def HoldsRevision (es : List Entry) : Prop :=
  es.filter (fun e => e.key = revisionKey) = [] ∨
    ∃ e, es.filter (fun e => e.key = revisionKey) = [e] ∧ (e.value = [0xf6] ∨ ∃ n, IsHead e.value 0 n ∧ 0 < n)

/-- An item that begins as an unsigned integer is one. -/
theorem Item.isHead {v rest : Bytes} (h : Item v) {n : ℕ} (hv : itemHead v = some ((0, n), rest)) : IsHead v 0 n := by
  cases h with
  | number hh =>
    unfold IsHead at hh ⊢
    rw [hh] at hv
    rw [hh, (Prod.mk.inj (Option.some.inj hv)).1]
  | string hh hm =>
    rw [hh.append] at hv
    obtain ⟨rfl, -⟩ := Prod.mk.inj (Prod.mk.inj (Option.some.inj hv)).1
    omega
  | array hh =>
    rw [hh.append] at hv
    cases hv
  | map hh =>
    rw [hh.append] at hv
    cases hv

theorem unpack_isOk {bytes : Bytes} (hlt : bytes.length < 2 ^ 64) :
    (∃ x, unpack bytes = .ok x) ↔ ∃ es, Entries bytes es ∧ HoldsRevision es := by
  have hrevision : ∀ {map : Map}, (∀ e ∈ map.entries, EntryOk e) →
      ((∃ x, map.revision = .ok x) ↔ HoldsRevision map.entries) := by
    intro map hes
    unfold Map.revision HoldsRevision
    cases hf : map.entries.filter (fun e => e.key = revisionKey) with
    | nil => simp
    | cons e rest =>
      cases rest with
      | cons e' rest => simp
      | nil =>
        have hmem : e ∈ map.entries := List.mem_of_mem_filter (hf ▸ List.mem_singleton_self e)
        obtain ⟨-, -, -, hitem⟩ := hes e hmem
        dsimp only
        by_cases hnull : e.value = [0xf6]
        · simp [hnull]
        rw [if_neg hnull]
        constructor
        · rintro ⟨x, hx⟩
          split at hx
          case h_1 revision rest hhead =>
            split_ifs at hx with hpos
            exact .inr ⟨e, rfl, .inr ⟨revision, hitem.isHead hhead, hpos⟩⟩
          case h_2 => cases hx
        · rintro (h | ⟨e', heq, h | ⟨n, hn, hpos⟩⟩)
          · cases h
          · obtain rfl := (List.cons.inj heq).1
            exact absurd h hnull
          · obtain rfl := (List.cons.inj heq).1
            rw [hn]
            exact ⟨_, if_pos hpos⟩
  constructor
  · rintro ⟨x, h⟩
    rw [unpack] at h
    split at h
    · cases h
    case h_2 map hwalk =>
      refine ⟨map.entries, ⟨map.head, walk_ok hwalk⟩, (hrevision (walk_ok hwalk).2.1).mp ?_⟩
      split at h
      · cases h
      case h_2 revision hr => exact ⟨_, hr⟩
      case h_3 revision hr => exact ⟨_, hr⟩
  · rintro ⟨es, ⟨h, hh, hes, rfl⟩, hheld⟩
    rw [List.length_append] at hlt
    obtain ⟨⟨revision, held⟩, hr⟩ := (@hrevision { head := h, entries := es } hes).mpr hheld
    rw [unpack, walk_entries hh hes (by omega)]
    dsimp only
    rw [hr]
    cases held <;> exact ⟨_, rfl⟩

/-! ### Snapshots a revision is spliced into -/

/-- A definite-length map in the shortest head: its keys unsigned and increasing,
none of them 3, each with one item, and nothing left over. -/
def Spliceable (s : Bytes) : Prop :=
  ∃ es : List Entry, (∀ e ∈ es, EntryOk e) ∧ s = head 5 es.length ++ es.flatMap Entry.raw ∧
    (es.map Entry.key).Pairwise (· < ·) ∧ ∀ e ∈ es, e.key ≠ revisionKey

theorem ordered_iff (es : List Entry) : ordered es = true ↔ (es.map Entry.key).Pairwise (· < ·) := by
  rw [← List.isChain_iff_pairwise]
  induction es with
  | nil => simp [ordered]
  | cons a es ih =>
    cases es with
    | nil => simp [ordered]
    | cons b es => simp [ordered, ih]

/-- The entry a revision is kept in. -/
def revisionEntry (revision : ℕ) : Entry := entryOf (revisionKey, head 0 revision)

theorem entryOk_revisionEntry {revision : ℕ} (hr : revision < 2 ^ 64) : EntryOk (revisionEntry revision) :=
  ⟨head 0 revisionKey, isHead_head (by omega) (by decide), rfl, .number (isHead_head (by omega) hr) (.inl rfl)⟩

/-- A revision is spliced into the snapshots it may be, before the keys above 3. -/
theorem withRevision_eq_some {s : Bytes} (hlt : s.length < 2 ^ 64) {revision : ℕ} {f : Bytes} :
    withRevision s revision = some f ↔
      ∃ es : List Entry, (∀ e ∈ es, EntryOk e) ∧ s = head 5 es.length ++ es.flatMap Entry.raw ∧
        (es.map Entry.key).Pairwise (· < ·) ∧ (∀ e ∈ es, e.key ≠ revisionKey) ∧
        f = head 5 (es.length + 1) ++ (es.takeWhile (fun e => ¬ revisionKey < e.key) ++
          revisionEntry revision :: es.dropWhile (fun e => ¬ revisionKey < e.key)).flatMap Entry.raw := by
  have hfile : ∀ es : List Entry,
      head 5 (es.length + 1) ++ (es.takeWhile (fun e => ¬ revisionKey < e.key)).flatMap Entry.raw ++ head 0 revisionKey ++
        head 0 revision ++ (es.dropWhile (fun e => ¬ revisionKey < e.key)).flatMap Entry.raw =
      head 5 (es.length + 1) ++ (es.takeWhile (fun e => ¬ revisionKey < e.key) ++
          revisionEntry revision :: es.dropWhile (fun e => ¬ revisionKey < e.key)).flatMap Entry.raw := by
    intro es
    simp [revisionEntry, entryOf]
  rw [withRevision]
  constructor
  · intro h
    split at h
    · cases h
    case h_2 map hwalk =>
      dsimp only at h
      split_ifs at h with hok
      push Not at hok
      obtain ⟨hhead, hordered, hfree⟩ := hok
      obtain ⟨hh, hes, hs⟩ := walk_ok hwalk
      refine ⟨map.entries, hes, by rw [hhead]; exact hs, (ordered_iff _).mp hordered, ?_, ?_⟩
      · simpa using hfree
      · rw [← Option.some.inj h, hfile]
  · rintro ⟨es, hes, rfl, hordered, hfree, rfl⟩
    rw [List.length_append] at hlt
    have hcount : es.length < 2 ^ 64 := by
      have : es.length ≤ (es.flatMap Entry.raw).length := by
        refine (length_flatMap_ge Entry.raw es fun e he => ?_).1
        have := (hes e he).length_raw
        omega
      omega
    rw [walk_entries (isHead_head (by omega) hcount) hes (by omega)]
    dsimp only
    rw [if_neg (by simpa [(ordered_iff es).mpr hordered] using hfree), hfile]

theorem spliceable_iff {s : Bytes} (hlt : s.length < 2 ^ 64) (revision : ℕ) :
    (∃ f, withRevision s revision = some f) ↔ Spliceable s := by
  constructor
  · rintro ⟨f, hf⟩
    obtain ⟨es, hes, hs, hordered, hfree, -⟩ := (withRevision_eq_some hlt).mp hf
    exact ⟨es, hes, hs, hordered, hfree⟩
  · rintro ⟨es, hes, hs, hordered, hfree⟩
    exact ⟨_, (withRevision_eq_some hlt).mpr ⟨es, hes, hs, hordered, hfree, rfl⟩⟩

/-- The file a revision was spliced into: it walks to the snapshot's entries and
the revision's, in the order of their keys, and loads as it was made. -/
theorem unpack_withRevision {s : Bytes} (hs : s.length ≤ maxLen) {revision : ℕ} (h0 : 0 < revision)
    (hr : revision < 2 ^ 64) {f : Bytes} (h : withRevision s revision = some f) :
    unpack f = .ok (revision, s) ∧ ∃ map, walk f = .ok map ∧ (map.entries.map Entry.key).Pairwise (· < ·) ∧
      map.entries.filter (fun e => e.key = revisionKey) = [revisionEntry revision] := by
  rw [maxLen] at hs
  obtain ⟨es, hes, hbytes, hordered, hfree, rfl⟩ := (withRevision_eq_some (by omega)).mp h
  set low := es.takeWhile (fun e => ¬ revisionKey < e.key) with hlow
  set high := es.dropWhile (fun e => ¬ revisionKey < e.key) with hhigh
  have hsplit : low ++ high = es := List.takeWhile_append_dropWhile
  have hbelow : ∀ e ∈ low, e.key < revisionKey := by
    intro e he
    have hle : ¬ revisionKey < e.key := by simpa using List.mem_takeWhile_imp he
    have hne := hfree e (hsplit ▸ List.mem_append_left _ he)
    omega
  have hkeys : ((low ++ high).map Entry.key).Pairwise (· < ·) := hsplit.symm ▸ hordered
  have habove : ∀ e ∈ high, revisionKey < e.key := by
    intro e he
    have hfirst := List.head?_dropWhile_not (fun e : Entry => decide (¬ revisionKey < e.key)) es
    rw [← hhigh] at hfirst
    cases hcons : high with
    | nil => simp [hcons] at he
    | cons x rest =>
      rw [hcons, List.head?_cons] at hfirst
      have hx : revisionKey < x.key := by simpa using hfirst
      rw [hcons, List.mem_cons] at he
      obtain rfl | he := he
      · exact hx
      · rw [hcons, List.map_append, List.map_cons, List.pairwise_append, List.pairwise_cons] at hkeys
        exact hx.trans (hkeys.2.1.1 e.key (List.mem_map_of_mem he))
  have hall : ∀ e ∈ low ++ revisionEntry revision :: high, EntryOk e := by
    intro e he
    rw [List.mem_append, List.mem_cons] at he
    obtain he | rfl | he := he
    · exact hes e (hsplit ▸ List.mem_append_left _ he)
    · exact entryOk_revisionEntry hr
    · exact hes e (hsplit ▸ List.mem_append_right _ he)
  have hcount : (low ++ revisionEntry revision :: high).length = es.length + 1 := by
    rw [← hsplit]
    simp only [List.length_append, List.length_cons]
    omega
  have hraw : (revisionEntry revision).raw.length ≤ 18 := by
    have h1 := length_head_le 0 revisionKey
    have h2 := length_head_le 0 revision
    rw [revisionEntry, entryOf, List.length_append]
    dsimp only
    omega
  have hlen : ((low ++ revisionEntry revision :: high).flatMap Entry.raw).length < 2 ^ 62 + 2 ^ 63 := by
    have hsum : (es.flatMap Entry.raw).length = (low.flatMap Entry.raw).length + (high.flatMap Entry.raw).length := by
      rw [← hsplit, List.flatMap_append, List.length_append]
    rw [hbytes, List.length_append] at hs
    rw [List.flatMap_append, List.flatMap_cons, List.length_append, List.length_append]
    omega
  have hlong : es.length + 1 < 2 ^ 64 := by
    have hge := (length_flatMap_ge Entry.raw (low ++ revisionEntry revision :: high) fun e he => by
      have := (hall e he).length_raw
      omega).1
    rw [hcount] at hge
    omega
  have hhead : IsHead (head 5 (es.length + 1)) 5 (low ++ revisionEntry revision :: high).length := by
    rw [hcount]
    exact isHead_head (by omega) hlong
  have hwalk := walk_entries hhead hall (by omega)
  have hlow : ∀ e ∈ low, ¬ e.key = revisionKey := fun e he => (hbelow e he).ne
  have hhigh' : ∀ e ∈ high, ¬ e.key = revisionKey := fun e he => (habove e he).ne'
  have hheld : (low ++ revisionEntry revision :: high).filter (fun e => e.key = revisionKey) = [revisionEntry revision] := by
    rw [List.filter_append, List.filter_cons, List.filter_eq_nil_iff.mpr (by simpa using hlow),
      List.filter_eq_nil_iff.mpr (by simpa using hhigh')]
    rfl
  have hrest : (low ++ revisionEntry revision :: high).filter (fun e => e.key ≠ revisionKey) = es := by
    rw [List.filter_append, List.filter_cons, List.filter_eq_self.mpr (by simpa using hlow),
      List.filter_eq_self.mpr (by simpa using hhigh')]
    exact hsplit
  have hrevision : Map.revision { head := head 5 (es.length + 1), entries := low ++ revisionEntry revision :: high } =
      .ok (revision, true) := by
    have hhead : itemHead (head 0 revision) = some ((0, revision), []) := isHead_head (by omega) hr
    have hnull : head 0 revision ≠ [0xf6] := by
      intro hn
      rw [hn] at hhead
      have := hhead.symm.trans (show itemHead [0xf6] = some ((7, 22), []) from rfl)
      simp at this
    rw [Map.revision, hheld]
    simp [revisionEntry, entryOf, hnull, hhead, h0]
  refine ⟨?_, _, hwalk, ?_, hheld⟩
  · rw [unpack, hwalk]
    dsimp only
    rw [hrevision]
    dsimp only
    rw [hrest, hcount, Nat.add_sub_cancel, ← hbytes]
  · dsimp only
    rw [List.map_append, List.pairwise_append] at hkeys ⊢
    rw [List.map_cons, List.pairwise_cons]
    refine ⟨hkeys.1, ⟨?_, hkeys.2.1⟩, ?_⟩
    · simpa [revisionEntry, entryOf] using habove
    · intro a ha b hb
      obtain ⟨e, he, rfl⟩ := List.mem_map.mp ha
      obtain rfl | hb := List.mem_cons.mp hb
      · exact hbelow e he
      · exact hkeys.2.2 _ ha b hb

end Glade.RecordsFile
