import Glade.Node.Checkpoint

/-! The two readers of a record agree (`envelope.rs`, `wire-rs/src/cbor.rs`).
`parse` takes heads of any width and a map's entries in any order, and asks
afterwards whether its value's encoding is what it read; `tryDecode` takes the
canonical form alone. A value encodes to the bytes of the value with its maps'
entries in ascending order, so a value that encodes to what it was read from has
them so already, and the strict reader takes it too. -/

namespace Glade.Node

open Wire Words

/-! ### The codec's reader of each stream -/

/-- How the records of a directory stream are decoded. -/
def Record.reader (gladeId : String) : Option (Cbor → Except DecodeError Record) :=
  if gladeId = gNodes then some fun c => .node <$> NodeRecord.fromCbor c
  else if gladeId = gWorkspaces then some fun c => .workspace <$> WorkspaceEntry.fromCbor c
  else if gladeId = gClaims then some fun c => .serve <$> ServeClaim.fromCbor c
  else if gladeId = gGrants then some fun c => .grant <$> CapabilityGrant.fromCbor c
  else if gladeId = gRevocations then some fun c => .revoke <$> CapabilityRevocation.fromCbor c
  else if gladeId = gBindings then some fun c => .binding <$> BindingDecl.fromCbor c
  else if gladeId = gBindingRetractions then some fun c => .retract <$> BindingRetraction.fromCbor c
  else if gladeId = gServices then some fun c => .service <$> ServiceDefinition.fromCbor c
  else if gladeId = gPrincipals then some fun c => .principal <$> PrincipalRecord.fromCbor c
  else if gladeId = gTransportBindings then some fun c => .transport <$> NodeTransportBinding.fromCbor c
  else if gladeId = gTransportRevocations then some fun c => .transportRevoke <$> NodeTransportRevocation.fromCbor c
  else if gladeId = gRecoveryKeys then some fun c => .recovery <$> NodeRecoveryKey.fromCbor c
  else if gladeId = gCheckpoints then some fun c => .checkpoint <$> ChainCheckpoint.fromCbor c
  else none

theorem mapM_tryText (items : List String) : items.mapM (Cbor.tryText ∘ Cbor.text) = .ok items := by
  induction items with
  | nil => rfl
  | cons s items ih =>
    rw [List.mapM_cons, ih]
    rfl

/-- A record is read back by its own stream's reader. -/
theorem Record.reader_gladeId (r : Record) :
    ∃ from_, Record.reader r.gladeId = some from_ ∧ from_ r.toCbor = .ok r := by
  cases r <;> refine ⟨_, rfl, ?_⟩
  case workspace r =>
    simp [toCbor, WorkspaceEntry.toCbor, WorkspaceEntry.fromCbor, Cbor.tryGet, Cbor.tryText, Cbor.tryArray, texts,
      mapM_tryText, bind, Except.bind, pure, Except.pure, Functor.map, Except.map]
  case grant r =>
    simp [toCbor, CapabilityGrant.toCbor, CapabilityGrant.fromCbor, Cbor.tryGet, Cbor.tryText, Cbor.tryArray, texts,
      mapM_tryText, bind, Except.bind, pure, Except.pure, Functor.map, Except.map]
  all_goals rfl

/-! ### The kind table against the record types -/

theorem typed_nil {key : Int64} {es : List (Int64 × Cbor)} (h : typed key [] es = true) : es = [] := by
  cases es with
  | nil => rfl
  | cons e es => simp [typed] at h

theorem typed_cons {key : Int64} {f : Field} {fs : List Field} {es : List (Int64 × Cbor)}
    (h : typed key (f :: fs) es = true) :
    ∃ v es', es = (key, v) :: es' ∧ f.holds v = true ∧ typed (key + 1) fs es' = true := by
  cases es with
  | nil => simp [typed] at h
  | cons e es =>
    obtain ⟨k, v⟩ := e
    simp only [typed, Bool.and_eq_true, beq_iff_eq] at h
    obtain ⟨⟨rfl, hv⟩, hes⟩ := h
    exact ⟨v, es, rfl, hv, hes⟩

section Fields

variable {key : Int64} {fs : List Field} {es : List (Int64 × Cbor)}

theorem typed_text (h : typed key (.text :: fs) es = true) :
    ∃ s es', es = (key, .text s) :: es' ∧ typed (key + 1) fs es' = true := by
  obtain ⟨v, es', rfl, hv, hes⟩ := typed_cons h
  cases v with
  | text s => exact ⟨s, es', rfl, hes⟩
  | _ => simp [Field.holds] at hv

theorem typed_int (h : typed key (.int :: fs) es = true) :
    ∃ n es', es = (key, .int n) :: es' ∧ typed (key + 1) fs es' = true := by
  obtain ⟨v, es', rfl, hv, hes⟩ := typed_cons h
  cases v with
  | int n => exact ⟨n, es', rfl, hes⟩
  | _ => simp [Field.holds] at hv

theorem typed_bytes (h : typed key (.bytes :: fs) es = true) :
    ∃ b es', es = (key, .bytes b) :: es' ∧ typed (key + 1) fs es' = true := by
  obtain ⟨v, es', rfl, hv, hes⟩ := typed_cons h
  cases v with
  | bytes b => exact ⟨b, es', rfl, hes⟩
  | _ => simp [Field.holds] at hv

theorem exists_texts {items : List Cbor} (h : Field.texts.holds (.array items) = true) :
    ∃ ss : List String, items = ss.map .text := by
  rw [Field.holds] at h
  induction items with
  | nil => exact ⟨[], rfl⟩
  | cons v items ih =>
    rw [List.all_cons, Bool.and_eq_true] at h
    obtain ⟨ss, rfl⟩ := ih h.2
    cases v with
    | text s => exact ⟨s :: ss, rfl⟩
    | _ => simp at h

theorem typed_texts (h : typed key (.texts :: fs) es = true) :
    ∃ ss es', es = (key, texts ss) :: es' ∧ typed (key + 1) fs es' = true := by
  obtain ⟨v, es', rfl, hv, hes⟩ := typed_cons h
  cases v with
  | array items =>
    obtain ⟨ss, rfl⟩ := exists_texts hv
    exact ⟨ss, es', rfl, hes⟩
  | _ => simp [Field.holds] at hv

end Fields

/-- What passes a stream's kind check is a record of that stream. -/
theorem exists_record {gladeId : String} {fields : List Field} {entries : List (Int64 × Cbor)}
    (hk : kind gladeId = some fields) (h : typed 1 fields entries = true) :
    ∃ r : Record, r.gladeId = gladeId ∧ r.toCbor = .map entries := by
  unfold kind at hk
  split_ifs at hk with hg1 hg2 hg3 hg4 hg5 hg6 hg7 hg8
  all_goals obtain rfl := Option.some.inj hk
  · obtain ⟨a, _, rfl, h₁⟩ := typed_text h
    obtain ⟨b, _, rfl, h₂⟩ := typed_text h₁
    obtain rfl := typed_nil h₂
    obtain rfl | rfl | rfl | rfl := hg1
    · exact ⟨.node ⟨a, b⟩, rfl, rfl⟩
    · exact ⟨.revoke ⟨a, b⟩, rfl, rfl⟩
    · exact ⟨.retract ⟨a, b⟩, rfl, rfl⟩
    · exact ⟨.recovery ⟨a, b⟩, rfl, rfl⟩
  · obtain ⟨a, _, rfl, h₁⟩ := typed_text h
    obtain ⟨b, _, rfl, h₂⟩ := typed_text h₁
    obtain ⟨c, _, rfl, h₃⟩ := typed_texts h₂
    obtain rfl := typed_nil h₃
    obtain rfl | rfl := hg2
    · exact ⟨.workspace ⟨a, b, c⟩, rfl, rfl⟩
    · exact ⟨.grant ⟨a, b, c⟩, rfl, rfl⟩
  · obtain ⟨a, _, rfl, h₁⟩ := typed_text h
    obtain ⟨b, _, rfl, h₂⟩ := typed_text h₁
    obtain ⟨c, _, rfl, h₃⟩ := typed_int h₂
    obtain ⟨d, _, rfl, h₄⟩ := typed_int h₃
    obtain rfl := typed_nil h₄
    obtain rfl := hg3
    exact ⟨.serve ⟨a, b, c, d⟩, rfl, rfl⟩
  · obtain ⟨a, _, rfl, h₁⟩ := typed_text h
    obtain ⟨b, _, rfl, h₂⟩ := typed_text h₁
    obtain ⟨c, _, rfl, h₃⟩ := typed_text h₂
    obtain ⟨d, _, rfl, h₄⟩ := typed_text h₃
    obtain ⟨e, _, rfl, h₅⟩ := typed_text h₄
    obtain ⟨f, _, rfl, h₆⟩ := typed_text h₅
    obtain rfl := typed_nil h₆
    obtain rfl := hg4
    exact ⟨.binding ⟨a, b, c, d, e, f⟩, rfl, rfl⟩
  · obtain ⟨a, _, rfl, h₁⟩ := typed_text h
    obtain ⟨b, _, rfl, h₂⟩ := typed_text h₁
    obtain ⟨c, _, rfl, h₃⟩ := typed_text h₂
    obtain rfl := typed_nil h₃
    obtain rfl := hg5
    exact ⟨.service ⟨a, b, c⟩, rfl, rfl⟩
  · obtain ⟨a, _, rfl, h₁⟩ := typed_text h
    obtain rfl := typed_nil h₁
    obtain rfl := hg6
    exact ⟨.principal ⟨a⟩, rfl, rfl⟩
  · obtain ⟨a, _, rfl, h₁⟩ := typed_text h
    obtain ⟨b, _, rfl, h₂⟩ := typed_text h₁
    obtain ⟨c, _, rfl, h₃⟩ := typed_int h₂
    obtain ⟨d, _, rfl, h₄⟩ := typed_bytes h₃
    obtain rfl := typed_nil h₄
    obtain rfl | rfl := hg7
    · exact ⟨.transport ⟨a, b, c, d⟩, rfl, rfl⟩
    · exact ⟨.checkpoint ⟨a, b, c, d⟩, rfl, rfl⟩
  · obtain ⟨a, _, rfl, h₁⟩ := typed_text h
    obtain ⟨b, _, rfl, h₂⟩ := typed_text h₁
    obtain ⟨c, _, rfl, h₃⟩ := typed_bytes h₂
    obtain rfl := typed_nil h₃
    obtain rfl := hg8
    exact ⟨.transportRevoke ⟨a, b, c⟩, rfl, rfl⟩

/-! ### Maps in ascending order -/

/-- Values whose maps, at every level, have non-negative and distinct keys. -/
inductive Keyed : Cbor → Prop
  | int (n : Int64) : Keyed (.int n)
  | float (bits : UInt64) : Keyed (.float bits)
  | bytes (b : Bytes) : Keyed (.bytes b)
  | text (s : String) : Keyed (.text s)
  | array (items : List Cbor) (hitems : ∀ v ∈ items, Keyed v) : Keyed (.array items)
  | map (entries : List (Int64 × Cbor)) (hpos : ∀ e ∈ entries, 0 ≤ e.1) (hdistinct : (entries.map Prod.fst).Nodup)
      (hvals : ∀ e ∈ entries, Keyed e.2) : Keyed (.map entries)
  | bool (b : Bool) : Keyed (.bool b)
  | null : Keyed .null

/-- `v` with its maps' entries in ascending order, down to depth `d`. -/
def ascending : ℕ → Cbor → Cbor
  | d + 1, .array items => .array (items.map (ascending d))
  | d + 1, .map entries => .map (sortEntries (entries.map fun e => (e.1, ascending d e.2)))
  | _, v => v

theorem sortEntries_map {α β : Type} (f : Int64 × α → Int64 × β) (hf : ∀ e, (f e).1 = e.1)
    (entries : List (Int64 × α)) : sortEntries (entries.map f) = (sortEntries entries).map f :=
  (List.map_insertionSort _ _ f entries fun a _ b _ => by rw [hf, hf]).symm

theorem perm_sortEntries {α : Type} (entries : List (Int64 × α)) : (sortEntries entries).Perm entries :=
  List.perm_insertionSort _ entries

theorem pairwise_sortEntries {α : Type} (entries : List (Int64 × α)) :
    (sortEntries entries).Pairwise fun a b => a.1 ≤ b.1 := by
  have : Std.Total fun a b : Int64 × α => a.1 ≤ b.1 := ⟨fun a b => Int64.le_total a.1 b.1⟩
  have : IsTrans (Int64 × α) fun a b => a.1 ≤ b.1 := ⟨fun _ _ _ h h' => Int64.le_trans h h'⟩
  exact List.pairwise_insertionSort _ entries

theorem sortEntries_sortEntries {α : Type} (entries : List (Int64 × α)) :
    sortEntries (sortEntries entries) = sortEntries entries :=
  List.Pairwise.insertionSort_eq (pairwise_sortEntries entries)

theorem encodeEntries_sortEntries (entries : List (Int64 × Cbor)) :
    encodeEntries (sortEntries entries) = sortEntries (encodeEntries entries) := by
  rw [encodeEntries_eq, encodeEntries_eq]
  exact (sortEntries_map (fun e : Int64 × Cbor => (e.1, head 0 e.1.toUInt64.toNat ++ encode e.2)) (fun _ => rfl) entries).symm

/-- The order of a map's entries is not seen in its encoding. -/
theorem encode_ascending (d : ℕ) (v : Cbor) : encode (ascending d v) = encode v := by
  induction d generalizing v with
  | zero => rfl
  | succ d ih =>
    cases v with
    | array items =>
      have hitems : encodeItems (items.map (ascending d)) = encodeItems items := by
        rw [encodeItems_eq, encodeItems_eq, List.flatMap_map]
        exact List.flatMap_congr fun v _ => ih v
      rw [ascending, encode, encode, hitems, List.length_map]
    | map entries =>
      have hvals : encodeEntries (entries.map fun e => (e.1, ascending d e.2)) = encodeEntries entries := by
        rw [encodeEntries_eq, encodeEntries_eq, List.map_map]
        exact List.map_congr_left fun e _ => by rw [Function.comp_apply, ih]
      rw [ascending, encode, encode, encodeEntries_sortEntries, sortEntries_sortEntries, hvals]
      simp [sortEntries]
    | _ => rfl

/-! ### What the bounded reader takes -/

theorem itemHead_lt {bs rest : Bytes} {major n : ℕ} (h : itemHead bs = some ((major, n), rest)) : n < 2 ^ 64 := by
  cases bs with
  | nil => simp [itemHead] at h
  | cons first bs =>
    rw [itemHead] at h
    split_ifs at h with hinfo
    · obtain ⟨⟨-, rfl⟩, -⟩ : (first.toNat / 32 = major ∧ first.toNat % 32 = n) ∧ bs = rest := by simpa using h
      omega
    · cases hw : argWidth (first.toNat % 32) with
      | none => simp [hw] at h
      | some w =>
        simp only [hw, Option.bind_eq_bind, Option.bind_some] at h
        split_ifs at h with hlen
        obtain ⟨⟨-, rfl⟩, -⟩ : (first.toNat / 32 = major ∧ ofBe (bs.take w) = n) ∧ bs.drop w = rest := by simpa using h
        have hlt := ofBe_lt (bs.take w)
        have hw8 : w ≤ 8 := by
          unfold argWidth at hw
          split at hw <;> simp at hw <;> omega
        rw [List.length_take, Nat.min_eq_left hlen] at hlt
        exact hlt.trans_le (Nat.pow_le_pow_right (by decide) hw8)

/-- What the reader takes as a container, its items are read one level down. -/
theorem containerOf_some {item : Bytes → Option (Cbor × Bytes)} {major n : ℕ} {bs rest : Bytes} {v : Cbor}
    (h : containerOf item major n bs = some (v, rest)) :
    (∃ items, v = .array items ∧ items.length = n ∧ ∀ w ∈ items, ∃ bs' rest', item bs' = some (w, rest')) ∨
      ∃ entries, v = .map entries ∧ entries.length = n ∧ ∀ e ∈ entries, ∃ bs' rest', item bs' = some (e.2, rest') := by
  unfold containerOf at h
  split at h
  · split_ifs at h
    simp only [Option.bind_eq_bind, Option.bind_eq_some_iff] at h
    obtain ⟨items, hitems, h⟩ := h
    obtain ⟨rfl, -⟩ : .array items.1 = v ∧ items.2 = rest := by simpa using h
    obtain ⟨hlen, hmem⟩ := many_some hitems
    exact .inl ⟨_, rfl, hlen, hmem⟩
  · split_ifs at h
    simp only [Option.bind_eq_bind, Option.bind_eq_some_iff] at h
    obtain ⟨entries, hentries, h⟩ := h
    obtain ⟨rfl, -⟩ : .map entries.1 = v ∧ entries.2 = rest := by simpa using h
    obtain ⟨hlen, hmem⟩ := many_some hentries
    refine .inr ⟨_, rfl, hlen, fun e he => ?_⟩
    obtain ⟨bs', rest', hentry⟩ := hmem e he
    simp only [entry, Option.bind_eq_bind, Option.bind_eq_some_iff] at hentry
    obtain ⟨⟨k, bs₁⟩, -, hentry⟩ := hentry
    cases k with
    | int k =>
      simp only [Option.bind_eq_some_iff] at hentry
      obtain ⟨w, hw, hentry⟩ := hentry
      obtain ⟨rfl, -⟩ : (k, w.1) = e ∧ w.2 = rest' := by simpa using hentry
      exact ⟨_, _, hw⟩
    | _ => simp at hentry
  · cases h

/-- What an item is: a scalar whose length its head holds, or what `container`
reads under a count its head holds. -/
theorem itemWith_some {container : ℕ → ℕ → Bytes → Option (Cbor × Bytes)} {bs rest : Bytes} {v : Cbor}
    (h : itemWith container bs = some (v, rest)) :
    (∃ n, v = .int n) ∨ (∃ b, v = .bytes b ∧ b.length < 2 ^ 64) ∨ (∃ s, v = .text s ∧ (utf8 s).length < 2 ^ 64) ∨
      ∃ major n bs', n < 2 ^ 64 ∧ container major n bs' = some (v, rest) := by
  simp only [itemWith, Option.bind_eq_bind, Option.bind_eq_some_iff] at h
  obtain ⟨⟨⟨major, n⟩, bs'⟩, hhead, h⟩ := h
  have hn := itemHead_lt hhead
  dsimp only at h
  split at h
  · split_ifs at h
    obtain ⟨rfl, -⟩ : _ = v ∧ _ = rest := by simpa using h
    exact .inl ⟨_, rfl⟩
  · split_ifs at h
    obtain ⟨rfl, -⟩ : _ = v ∧ _ = rest := by simpa using h
    exact .inl ⟨_, rfl⟩
  · split_ifs at h with hlen
    obtain ⟨rfl, -⟩ : _ = v ∧ _ = rest := by simpa using h
    refine .inr (.inl ⟨_, rfl, ?_⟩)
    rw [List.length_take]
    omega
  · split_ifs at h with hlen
    simp only [Option.bind_eq_some_iff] at h
    obtain ⟨s, hs, h⟩ := h
    obtain ⟨rfl, -⟩ : _ = v ∧ _ = rest := by simpa using h
    refine .inr (.inr (.inl ⟨_, rfl, ?_⟩))
    rw [utf8_eq_of_fromUtf8 hs, List.length_take]
    omega
  · exact .inr (.inr (.inr ⟨_, _, _, hn, h⟩))

/-- What the reader takes is, in ascending order, of the shape the codec reads. -/
theorem shaped_of_item {d : ℕ} {bs rest : Bytes} {v : Cbor} (h : item d bs = some (v, rest)) (hk : Keyed v) :
    Shaped false d (ascending d v) ∧ Counted (ascending d v) := by
  induction d generalizing bs rest v with
  | zero =>
    rw [item, scalar] at h
    rcases itemWith_some h with ⟨n, rfl⟩ | ⟨b, rfl, hb⟩ | ⟨s, rfl, hs⟩ | ⟨_, _, _, -, hcontainer⟩
    · exact ⟨shaped_int n, .int n⟩
    · exact ⟨shaped_bytes b, .bytes b hb⟩
    · exact ⟨shaped_text s, .text s hs⟩
    · cases hcontainer
  | succ d ih =>
    rcases itemWith_some h with ⟨n, rfl⟩ | ⟨b, rfl, hb⟩ | ⟨s, rfl, hs⟩ | ⟨_, n, _, hn, hcontainer⟩
    · exact ⟨shaped_int n, .int n⟩
    · exact ⟨shaped_bytes b, .bytes b hb⟩
    · exact ⟨shaped_text s, .text s hs⟩
    rcases containerOf_some hcontainer with ⟨items, rfl, hlen, hitems⟩ | ⟨entries, rfl, hlen, hentries⟩
    · cases hk with
      | array _ hkeyed =>
        have hall : ∀ w ∈ items.map (ascending d), Shaped false d w ∧ Counted w := by
          intro w hw
          obtain ⟨u, hu, rfl⟩ := List.mem_map.mp hw
          obtain ⟨_, _, hread⟩ := hitems u hu
          exact ih hread (hkeyed u hu)
        exact ⟨fun w hw => (hall w hw).1, .array _ (by rw [List.length_map]; omega) fun w hw => (hall w hw).2⟩
    · cases hk with
      | map _ hpos hdistinct hkeyed =>
        have hall : ∀ e ∈ sortEntries (entries.map fun e => (e.1, ascending d e.2)),
            0 ≤ e.1 ∧ Shaped false d e.2 ∧ Counted e.2 := by
          intro e he
          rw [(perm_sortEntries _).mem_iff] at he
          obtain ⟨u, hu, rfl⟩ := List.mem_map.mp he
          obtain ⟨_, _, hread⟩ := hentries u hu
          exact ⟨hpos u hu, ih hread (hkeyed u hu)⟩
        have hnodup : ((sortEntries (entries.map fun e => (e.1, ascending d e.2))).map Prod.fst).Nodup := by
          rw [((perm_sortEntries _).map Prod.fst).nodup_iff, List.map_map]
          exact hdistinct
        have hsorted : ((sortEntries (entries.map fun e => (e.1, ascending d e.2))).map Prod.fst).Pairwise (· < ·) := by
          have hle := List.pairwise_map.mpr (pairwise_sortEntries (entries.map fun e => (e.1, ascending d e.2)))
          exact (hle.and hnodup).imp fun h => Int64.lt_of_le_of_ne h.1 h.2
        refine ⟨⟨hsorted, fun e he => ⟨(hall e he).1, (hall e he).2.1⟩⟩, .map _ ?_ fun e he => (hall e he).2.2⟩
        rw [(perm_sortEntries _).length_eq, List.length_map]
        omega

/-! ### Agreement -/

/-- What the bounded reader takes of canonical bytes is in ascending order. -/
theorem shaped_of_parse {b : Bytes} {v : Cbor} (h : parse b = some v) (hb : encode v = b) (hk : Keyed v) :
    Shaped false 2 v ∧ Counted v := by
  have hread : ∃ rest, item 2 b = some (v, rest) := by
    simp only [parse, Option.bind_eq_bind, Option.bind_eq_some_iff] at h
    obtain ⟨u, hu, h⟩ := h
    split_ifs at h with hrest
    obtain rfl := Option.some.inj h
    exact ⟨_, hu⟩
  obtain ⟨rest, hread⟩ := hread
  obtain ⟨hs, hc⟩ := shaped_of_item hread hk
  have hsorted := parse_of_counted hs hc
  rw [encode_ascending, hb, h] at hsorted
  obtain hv := Option.some.inj hsorted
  rw [hv]
  exact ⟨hs, hc⟩

theorem tryDecode_of_parse {b : Bytes} {v : Cbor} (h : parse b = some v) (hb : encode v = b) (hk : Keyed v) :
    tryDecode b = .ok v := by
  obtain ⟨hs, hc⟩ := shaped_of_parse h hb hk
  rw [← hb]
  exact tryDecode_of_counted hs hc (by decide)

theorem Keyed.of_shaped {simple : Bool} {d : ℕ} {v : Cbor} (h : Shaped simple d v) : Keyed v := by
  induction d generalizing v with
  | zero => cases v <;> first | exact h.elim | constructor
  | succ d ih =>
    cases v with
    | array items => exact .array items fun w hw => ih (h w hw)
    | map entries =>
      exact .map entries (fun e he => (h.2 e he).1) (h.1.imp fun hlt => Int64.ne_of_lt hlt) fun e he => ih (h.2 e he).2
    | float bits => exact .float bits
    | int n => exact .int n
    | bytes b => exact .bytes b
    | text s => exact .text s
    | bool b => exact .bool b
    | null => exact .null

variable {C : Crypto}

/-- What passes a stream's kind check decodes to a record of that stream. -/
theorem record_of_isKind {gladeId : String} {fields : List Field} {record : Bytes} (hk : kind gladeId = some fields)
    (h : isKind record fields = true) : ∃ r : Record, r.gladeId = gladeId ∧ tryDecode record = .ok r.toCbor := by
  unfold isKind at h
  split at h
  case h_2 => cases h
  case h_1 entries hparse =>
    rw [Bool.and_eq_true, beq_iff_eq] at h
    obtain ⟨r, hr, hentries⟩ := exists_record hk h.1
    refine ⟨r, hr, ?_⟩
    rw [hentries]
    refine tryDecode_of_parse hparse h.2 ?_
    rw [← hentries]
    exact .of_shaped r.shaped_toCbor

/-- The two readers agree: every verified op's record decodes as its stream's
record, so that no fold skips it, and the codec takes whatever canonical bytes
the hand-written parser takes. -/
theorem record_readers_agree (C : Crypto) :
    (∀ op : Op, verify C op = .ok () → ∃ from_ r, Record.reader op.gladeId = some from_ ∧ r.gladeId = op.gladeId ∧
      readRecord op from_ = .ok r ∧ folded op from_ = some r) ∧
    ∀ b v, parse b = some v → encode v = b → Keyed v → tryDecode b = .ok v := by
  refine ⟨fun op hop => ?_, fun b v h hb hk => tryDecode_of_parse h hb hk⟩
  obtain ⟨record, sig, fields, signer, henv, -, -, hkind, his, -⟩ := verify_eq_ok_iff.mp hop
  obtain ⟨r, hr, hdecode⟩ := record_of_isKind hkind his
  obtain ⟨from_, hfrom, hread⟩ := r.reader_gladeId
  have hrecord : readRecord op from_ = .ok r := by
    rw [readRecord, recordBytes, henv]
    dsimp only
    rw [hdecode]
    exact hread
  refine ⟨from_, r, hr ▸ hfrom, hr, hrecord, ?_⟩
  rw [folded, hrecord]

end Glade.Node
