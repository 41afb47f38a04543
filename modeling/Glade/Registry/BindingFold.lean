import Glade.Lib.Stamped
import Glade.Registry.Appends

/-! The binding fold (`BindingFold`, `node/src/registry.rs`). Per app, glade id and
origin the newest declaration or retraction counts, by a stamp that tells every
two ops of the family apart; so the fold is of the op-set, and an origin's
retraction reaches no other slot. One clock numbers both streams of a registry,
so what it appends last is newest. -/

namespace Glade.Registry

open Wire Node Stamped

variable {C : Crypto}

/-! ### Stamps -/

/-- Where a binding-family record stands in the fold's order. -/
structure Stamp where
  lamport : ℤ
  origin : String
  retraction : Bool
  seq : ℤ
  deriving DecidableEq

namespace Stamp

/-- The parts of a stamp, by which stamps are ordered. -/
def parts (s : Stamp) : ℤ ×ₗ String ×ₗ Bool ×ₗ ℤ := toLex (s.lamport, toLex (s.origin, toLex (s.retraction, s.seq)))

theorem parts_injective : Function.Injective parts := by
  rintro ⟨l, o, r, s⟩ ⟨l', o', r', s'⟩ h
  simp only [parts, EmbeddingLike.apply_eq_iff_eq, Prod.mk.injEq] at h
  obtain ⟨rfl, rfl, rfl, rfl⟩ := h
  rfl

instance : LinearOrder Stamp := LinearOrder.lift' parts parts_injective

theorem lt_of_lamport {s t : Stamp} (h : s.lamport < t.lamport) : s < t :=
  Prod.Lex.toLex_lt_toLex.mpr (.inl h)

end Stamp

/-! ### The fold -/

/-- One origin's newest record for one app and glade id: a declaration, with its
record's bytes as stored, or `none` for a retraction. -/
structure Newest where
  stamp : Stamp
  decl : Option (BindingDecl × Bytes)

/-- An app and a glade id. -/
abbrev Pair : Type := String × String

/-- One pair's newest record from each origin that wrote one. -/
abbrev Origins : Type := Std.ExtTreeMap String Newest

def Origins.note (origins : Origins) (candidate : Newest) : Origins :=
  put Newest.stamp origins candidate.stamp.origin candidate

structure BindingFold where
  newest : Std.ExtTreeMap Pair Origins

namespace BindingFold

/-- What an op says, where it is of the binding family: its pair and its record. -/
def said (op : Op) : Option (Pair × Option (BindingDecl × Bytes)) :=
  if op.gladeId = gBindings then
    (folded op BindingDecl.fromCbor).map fun b => ((b.app, b.gladeId), some (b, recordBytes op.payload))
  else if op.gladeId = gBindingRetractions then
    (folded op BindingRetraction.fromCbor).map fun r => ((r.app, r.gladeId), none)
  else none

def candidate (op : Op) : Option (Pair × Newest) :=
  (said op).map fun (pair, decl) =>
    (pair, { stamp := { lamport := op.lamport, origin := op.origin, retraction := decl.isNone, seq := op.seq }, decl })

def note (f : BindingFold) (op : Op) : BindingFold :=
  match candidate op with
  | none => f
  | some (pair, candidate) => { newest := f.newest.insert pair ((f.newest.getD pair ∅).note candidate) }

/-- Fold the binding family out of `ops`. -/
def overOps (ops : List Op) : BindingFold := ops.foldl note { newest := ∅ }

/-- The declaration standing for one pair: the highest of those its origins'
newest records make, or `none` once each has retracted it. -/
def standing (origins : Origins) : Option (Stamp × BindingDecl × Bytes) :=
  let live := (OrdMap.values origins).filterMap fun n => n.decl.map fun decl => (n.stamp, decl)
  -- Of equal stamps the last is taken.
  live.reverse.argmax Prod.fst

/-- The declaration standing for `pair`. -/
def stands (f : BindingFold) (pair : Pair) : Option (Stamp × BindingDecl × Bytes) := f.newest[pair]?.bind standing

/-- Per glade id, the highest declaration standing across apps. -/
def surfaces (f : BindingFold) : Std.ExtTreeMap String (Stamp × BindingDecl) :=
  f.newest.toList.foldl (fun byId ((_, gladeId), origins) =>
    match standing origins with
    | none => byId
    | some (stamp, decl, _) => put Prod.fst byId gladeId (stamp, decl)) ∅

/-- The live bindings, in glade-id order. -/
def live (f : BindingFold) : List BindingDecl := (OrdMap.values f.surfaces).map Prod.snd

/-- The declarations standing for `app`, by glade id, with the bytes stored. -/
def declaredBy (f : BindingFold) (app : String) : Std.ExtTreeMap String Bytes :=
  .ofList ((f.newest.toList.filter (fun e => e.1.1 = app)).filterMap fun e =>
    (standing e.2).map fun (_, _, bytes) => (e.1.2, bytes))

/-- The pairs every origin has retracted. -/
def retracted (f : BindingFold) : List Pair :=
  (f.newest.toList.filter (fun e => (standing e.2).isNone)).map Prod.fst

/-- An origin's newest record for a pair. -/
def newestOf (f : BindingFold) (pair : Pair) (origin : String) : Option Newest := f.newest[pair]?.bind (·[origin]?)

/-- An origin's declaration of a pair, while no newer record of its own takes it down. -/
def declares (f : BindingFold) (pair : Pair) (origin : String) : Option (BindingDecl × Bytes) :=
  (f.newestOf pair origin).bind Newest.decl

end BindingFold

/-! ### What the fold holds -/

namespace BindingFold

/-- What the ops say of a pair, in their order. -/
def recordsOf (ops : List Op) (pair : Pair) : List Newest :=
  ((ops.filterMap candidate).filter (fun e => e.1 = pair)).map Prod.snd

/-- What the ops of an origin say of a pair. -/
def recordsBy (ops : List Op) (pair : Pair) (origin : String) : List Newest :=
  (recordsOf ops pair).filter (fun n => n.stamp.origin = origin)

theorem newest_overOps (ops : List Op) :
    (overOps ops).newest = byKey Prod.fst (fun origins e => (origins.getD ∅).note e.2) (ops.filterMap candidate) := by
  unfold overOps byKey
  induction ops using List.reverseRecOn with
  | nil => rfl
  | append_singleton ops op ih =>
    rw [List.foldl_concat, List.filterMap_append, List.foldl_append, ← ih, note]
    cases h : candidate op with
    | none => simp [h]
    | some e => simp [h, Std.ExtTreeMap.getD_eq_getD_getElem?]

theorem getElem?_newest (ops : List Op) (pair : Pair) :
    (overOps ops).newest[pair]? =
      if recordsOf ops pair = [] then none else some ((recordsOf ops pair).foldl Origins.note ∅) := by
  have h := foldl_getD (fun (origins : Origins) (e : Pair × Newest) => origins.note e.2) ∅
    ((ops.filterMap candidate).filter (fun e => e.1 = pair))
  rw [newest_overOps, getElem?_byKey, h, recordsOf, List.foldl_map]
  simp only [List.map_eq_nil_iff]

theorem getElem?_note (records : List Newest) (origin : String) :
    (records.foldl Origins.note ∅)[origin]? = (records.filter (fun n => n.stamp.origin = origin)).argmax Newest.stamp := by
  have h := getElem?_foldl_put Newest.stamp (fun n : Newest => n.stamp.origin) id records origin
  rwa [List.map_id] at h

/-- An origin's newest record of a pair is the one no other it made is above. -/
theorem newestOf_overOps (ops : List Op) (pair : Pair) (origin : String) :
    (overOps ops).newestOf pair origin = (recordsBy ops pair origin).argmax Newest.stamp := by
  unfold newestOf
  rw [getElem?_newest]
  split_ifs with h
  · simp [recordsBy, h]
  · exact getElem?_note _ origin

theorem mem_recordsOf {ops : List Op} {pair : Pair} {n : Newest} :
    n ∈ recordsOf ops pair ↔ ∃ op ∈ ops, candidate op = some (pair, n) := by
  simp only [recordsOf, List.mem_map, List.mem_filter, List.mem_filterMap, decide_eq_true_iff]
  constructor
  · rintro ⟨⟨pair', n'⟩, ⟨hop, rfl⟩, rfl⟩
    exact hop
  · rintro ⟨op, hop, h⟩
    exact ⟨(pair, n), ⟨⟨op, hop, h⟩, rfl⟩, rfl⟩

/-- An op's place in its chain, and the stream and pair its record is of. -/
theorem of_candidate {op : Op} {pair : Pair} {n : Newest} (h : candidate op = some (pair, n)) :
    n.stamp = { lamport := op.lamport, origin := op.origin, retraction := n.decl.isNone, seq := op.seq } ∧
      op.gladeId = (if n.decl.isNone then gBindingRetractions else gBindings) ∧
      ∀ decl ∈ n.decl, pair = (decl.1.app, decl.1.gladeId) := by
  unfold candidate at h
  rw [Option.map_eq_some_iff] at h
  obtain ⟨⟨pair', decl⟩, hsaid, heq⟩ := h
  obtain ⟨rfl, rfl⟩ := Prod.mk.inj heq
  unfold said at hsaid
  split_ifs at hsaid with hb hr
  · obtain ⟨b, -, heq⟩ := Option.map_eq_some_iff.mp hsaid
    obtain ⟨rfl, rfl⟩ := Prod.mk.inj heq
    exact ⟨rfl, hb, by simp⟩
  · obtain ⟨r, -, heq⟩ := Option.map_eq_some_iff.mp hsaid
    obtain ⟨rfl, rfl⟩ := Prod.mk.inj heq
    exact ⟨rfl, hr, by simp⟩

/-! ### Op-sets -/

/-- No two ops differ at one place of a chain. -/
def OneEach (ops : List Op) : Prop :=
  ∀ a ∈ ops, ∀ b ∈ ops, a.gladeId = b.gladeId → a.origin = b.origin → a.seq = b.seq → a = b

/-- A stamp names its op. -/
theorem OneEach.op_eq {ops : List Op} (h : OneEach ops) {a b : Op} (ha : a ∈ ops) (hb : b ∈ ops) {pair pair' : Pair}
    {n n' : Newest} (hn : candidate a = some (pair, n)) (hn' : candidate b = some (pair', n'))
    (hstamp : n.stamp = n'.stamp) : a = b := by
  obtain ⟨hs, hg, -⟩ := of_candidate hn
  obtain ⟨hs', hg', -⟩ := of_candidate hn'
  rw [hs, hs', Stamp.mk.injEq] at hstamp
  obtain ⟨-, horigin, hretraction, hseq⟩ := hstamp
  exact h a ha b hb (by rw [hg, hg', hretraction]) horigin hseq

theorem OneEach.apart {ops : List Op} (h : OneEach ops) (pair : Pair) : Apart Newest.stamp (recordsOf ops pair) := by
  intro n hn n' hn' hstamp
  obtain ⟨a, ha, hca⟩ := mem_recordsOf.mp hn
  obtain ⟨b, hb, hcb⟩ := mem_recordsOf.mp hn'
  obtain rfl := h.op_eq ha hb hca hcb hstamp
  exact (Prod.mk.inj (Option.some.inj (hca.symm.trans hcb))).2

/-- The fold is of the op-set: the order its ops came in, and how often each came, are nothing to it. -/
theorem OneEach.overOps_congr {ops ops' : List Op} (h : OneEach ops) (hmem : ∀ op, op ∈ ops ↔ op ∈ ops') :
    overOps ops = overOps ops' := by
  have hrecords : ∀ pair n, n ∈ recordsOf ops pair ↔ n ∈ recordsOf ops' pair := by
    intro pair n
    simp only [mem_recordsOf, hmem]
  have hnewest : (overOps ops).newest = (overOps ops').newest := by
    refine Std.ExtTreeMap.ext_getElem? fun pair => ?_
    have hnil : recordsOf ops pair = [] ↔ recordsOf ops' pair = [] := by
      simp only [List.eq_nil_iff_forall_not_mem, hrecords]
    have horigins : (recordsOf ops pair).foldl Origins.note ∅ = (recordsOf ops' pair).foldl Origins.note ∅ := by
      refine Std.ExtTreeMap.ext_getElem? fun origin => ?_
      rw [getElem?_note, getElem?_note]
      have hown : Apart Newest.stamp ((recordsOf ops pair).filter (fun n : Newest => n.stamp.origin = origin)) :=
        (h.apart pair).sublist fun n hn => List.mem_of_mem_filter hn
      refine hown.argmax_congr fun n => ?_
      simp only [List.mem_filter, hrecords]
    rw [getElem?_newest, getElem?_newest, horigins]
    simp only [hnil]
  cases hl : overOps ops
  cases hr : overOps ops'
  rw [hl, hr] at hnewest
  exact congrArg mk hnewest

/-! ### Standings -/

theorem origin_of_newestOf {ops : List Op} {pair : Pair} {origin : String} {n : Newest}
    (h : (overOps ops).newestOf pair origin = some n) :
    n.stamp.origin = origin ∧ ∃ op ∈ ops, candidate op = some (pair, n) := by
  rw [newestOf_overOps] at h
  have hmem := List.argmax_mem h
  rw [recordsBy, List.mem_filter, decide_eq_true_iff] at hmem
  exact ⟨hmem.2, mem_recordsOf.mp hmem.1⟩

/-- What stands for a pair is the highest of its origins' declarations. -/
theorem stands_overOps {ops : List Op} {pair : Pair} {stamp : Stamp} {decl : BindingDecl × Bytes} :
    (overOps ops).stands pair = some (stamp, decl) ↔
      (overOps ops).newestOf pair stamp.origin = some ⟨stamp, some decl⟩ ∧
        ∀ origin stamp' decl', (overOps ops).newestOf pair origin = some ⟨stamp', some decl'⟩ → stamp' ≤ stamp := by
  cases hp : (overOps ops).newest[pair]? with
  | none => simp [stands, newestOf, hp]
  | some origins =>
    have hnewest : ∀ origin, (overOps ops).newestOf pair origin = origins[origin]? := by
      intro origin
      simp [newestOf, hp]
    have hkey : ∀ (origin : String) (n : Newest), origins[origin]? = some n → n.stamp.origin = origin := fun origin n h =>
      (origin_of_newestOf ((hnewest origin).trans h)).1
    have hmem : ∀ e, e ∈ ((OrdMap.values origins).filterMap fun n => n.decl.map fun d => (n.stamp, d)).reverse ↔
        origins[e.1.origin]? = some ⟨e.1, some e.2⟩ := by
      rintro ⟨stamp', decl'⟩
      simp only [List.mem_reverse, List.mem_filterMap, OrdMap.mem_values, Option.map_eq_some_iff, Prod.mk.injEq]
      constructor
      · rintro ⟨⟨s, d⟩, ⟨origin, h⟩, d', rfl, rfl, rfl⟩
        obtain rfl : s.origin = origin := hkey origin _ h
        exact h
      · intro h
        exact ⟨_, ⟨_, h⟩, _, rfl, rfl, rfl⟩
    have hapart : Apart Prod.fst ((OrdMap.values origins).filterMap fun n => n.decl.map fun d => (n.stamp, d)).reverse := by
      rintro ⟨s, d⟩ he ⟨s', d'⟩ he' (rfl : s = s')
      have h := (hmem _).mp he
      have h' := (hmem _).mp he'
      simp only [h, Option.some.injEq, Newest.mk.injEq, true_and] at h'
      rw [h']
    have hstands : (overOps ops).stands pair = standing origins := by
      simp [stands, hp]
    simp only [hstands, standing, hapart.argmax_eq_some, hmem, hnewest]
    refine and_congr_right fun _ => ⟨fun hle origin stamp' decl' h => ?_, fun hle e he => hle _ _ _ he⟩
    have horigin := hkey origin _ h
    exact hle (stamp', decl') (by rw [horigin]; exact h)

/-- Where an origin declares a pair, a declaration as high stands. -/
theorem exists_stands {ops : List Op} {pair : Pair} {origin : String} {stamp : Stamp} {decl : BindingDecl × Bytes}
    (h : (overOps ops).newestOf pair origin = some ⟨stamp, some decl⟩) :
    ∃ s, (overOps ops).stands pair = some s ∧ stamp ≤ s.1 := by
  cases hs : (overOps ops).stands pair with
  | some s =>
    exact ⟨s, rfl, (stands_overOps.mp hs).2 origin stamp decl h⟩
  | none =>
    exfalso
    cases hp : (overOps ops).newest[pair]? with
    | none => simp [newestOf, hp] at h
    | some origins =>
      simp only [newestOf, hp, Option.bind_some] at h
      simp only [stands, hp, Option.bind_some, standing, List.argmax_eq_none, List.reverse_eq_nil_iff,
        List.filterMap_eq_nil_iff, OrdMap.mem_values, Option.map_eq_none_iff] at hs
      have := hs _ ⟨origin, h⟩
      cases this

theorem mem_retracted {f : BindingFold} {pair : Pair} :
    pair ∈ f.retracted ↔ pair ∈ f.newest ∧ f.stands pair = none := by
  simp only [retracted, List.mem_map, List.mem_filter, Option.isNone_iff_eq_none,
    Std.ExtTreeMap.mem_iff_isSome_getElem?, Option.isSome_iff_exists, stands]
  constructor
  · rintro ⟨⟨pair', origins⟩, ⟨h, hs⟩, rfl⟩
    rw [Std.ExtTreeMap.mem_toList_iff_getElem?_eq_some] at h
    exact ⟨⟨origins, h⟩, by rw [h]; exact hs⟩
  · rintro ⟨⟨origins, h⟩, hs⟩
    rw [h] at hs
    exact ⟨(pair, origins), ⟨Std.ExtTreeMap.mem_toList_iff_getElem?_eq_some.mpr h, hs⟩, rfl⟩

/-- An app's declarations are those that stand for its pairs. -/
theorem getElem?_declaredBy (f : BindingFold) (app gladeId : String) :
    (f.declaredBy app)[gladeId]? = (f.stands (app, gladeId)).map fun s => s.2.2 := by
  set l := (f.newest.toList.filter (fun e => e.1.1 = app)).filterMap fun e =>
    (standing e.2).map fun (_, _, bytes) => (e.1.2, bytes) with hl
  have hmem : ∀ e, e ∈ l ↔ (f.stands (app, e.1)).map (fun s => s.2.2) = some e.2 := by
    rintro ⟨g, bytes⟩
    simp only [hl, List.mem_filterMap, List.mem_filter, decide_eq_true_iff, Option.map_eq_some_iff, Prod.mk.injEq,
      Prod.exists, Std.ExtTreeMap.mem_toList_iff_getElem?_eq_some, stands, Option.bind_eq_some_iff]
    constructor
    · rintro ⟨a, g', origins, ⟨h, rfl⟩, stamp, decl, bytes', hs, rfl, rfl⟩
      exact ⟨_, _, _, ⟨origins, h, hs⟩, rfl⟩
    · rintro ⟨stamp, decl, bytes', ⟨origins, h, hs⟩, rfl⟩
      exact ⟨_, _, origins, ⟨h, rfl⟩, _, _, _, hs, rfl, rfl⟩
  have hdistinct : l.Pairwise fun a b => ¬ compare a.1 b.1 = .eq := by
    rw [hl, List.pairwise_filterMap]
    refine (Std.ExtTreeMap.distinct_keys_toList.filter _).imp_of_mem ?_
    rintro ⟨⟨a, g⟩, origins⟩ ⟨⟨a', g'⟩, origins'⟩ hmem hmem' hne b hb b' hb' heq
    simp only [List.mem_filter, decide_eq_true_iff] at hmem hmem'
    obtain ⟨s, -, rfl⟩ := Option.map_eq_some_iff.mp hb
    obtain ⟨s', -, rfl⟩ := Option.map_eq_some_iff.mp hb'
    refine hne (Std.LawfulEqOrd.compare_eq_iff_eq.mpr ?_)
    rw [hmem.2, hmem'.2, show g = g' from Std.LawfulEqOrd.compare_eq_iff_eq.mp heq]
  unfold declaredBy
  rw [← hl]
  cases hs : f.stands (app, gladeId) with
  | none =>
    rw [Std.ExtTreeMap.getElem?_ofList_of_contains_eq_false]
    · rfl
    rw [← Bool.not_eq_true, List.contains_iff_mem, List.mem_map]
    rintro ⟨e, he, rfl⟩
    rw [hmem, hs] at he
    cases he
  | some s =>
    have hmem' : (gladeId, s.2.2) ∈ l := (hmem _).mpr (by rw [hs]; rfl)
    rw [Std.ExtTreeMap.getElem?_ofList_of_mem (by simp) hdistinct hmem']
    rfl

/-- Per glade id the highest of what stands across apps surfaces. -/
theorem OneEach.surfaces_overOps {ops : List Op} (h : OneEach ops) {gladeId : String} {stamp : Stamp}
    {decl : BindingDecl} :
    (overOps ops).surfaces[gladeId]? = some (stamp, decl) ↔
      (∃ app bytes, (overOps ops).stands (app, gladeId) = some (stamp, decl, bytes)) ∧
        ∀ app s, (overOps ops).stands (app, gladeId) = some s → s.1 ≤ stamp := by
  set f := overOps ops
  set l := (f.newest.toList.filterMap fun e => (standing e.2).map fun s => (e.1.2, s.1, s.2.1)) with hl
  have hsurfaces : f.surfaces = l.foldl (fun m e => put Prod.fst m e.1 e.2) ∅ := by
    rw [hl, List.foldl_filterMap]
    unfold surfaces
    congr 1
    funext byId ⟨⟨app, g⟩, origins⟩
    cases hs : standing origins <;> simp [hs]
  set own := (l.filter (fun e => e.1 = gladeId)).map Prod.snd with hown
  have hmem : ∀ e, e ∈ own ↔ ∃ app bytes, f.stands (app, gladeId) = some (e.1, e.2, bytes) := by
    rintro ⟨s, d⟩
    simp only [hown, hl, List.mem_map, List.mem_filter, List.mem_filterMap, decide_eq_true_iff, Option.map_eq_some_iff,
      stands, Option.bind_eq_some_iff]
    constructor
    · rintro ⟨_, ⟨⟨⟨⟨app, g⟩, origins⟩, hp, ⟨s', d', bytes⟩, hs, rfl⟩, rfl⟩, heq⟩
      obtain ⟨rfl, rfl⟩ := Prod.mk.inj heq
      exact ⟨app, bytes, origins, Std.ExtTreeMap.mem_toList_iff_getElem?_eq_some.mp hp, hs⟩
    · rintro ⟨app, bytes, origins, hp, hs⟩
      exact ⟨_, ⟨⟨_, Std.ExtTreeMap.mem_toList_iff_getElem?_eq_some.mpr hp, _, hs, rfl⟩, rfl⟩, rfl⟩
  have hapart : Apart Prod.fst own := by
    rintro ⟨s, d⟩ he ⟨s', d'⟩ he' (rfl : s = s')
    obtain ⟨app, bytes, hs⟩ := (hmem _).mp he
    obtain ⟨app', bytes', hs'⟩ := (hmem _).mp he'
    obtain ⟨-, a, ha, hca⟩ := origin_of_newestOf (stands_overOps.mp hs).1
    obtain ⟨-, b, hb, hcb⟩ := origin_of_newestOf (stands_overOps.mp hs').1
    obtain rfl := h.op_eq ha hb hca hcb rfl
    have heq := (Prod.mk.inj (Option.some.inj (hca.symm.trans hcb))).2
    simp only [Newest.mk.injEq, Option.some.injEq, Prod.mk.injEq, true_and] at heq
    rw [heq.1]
  rw [hsurfaces, getElem?_foldl_put, ← hown, hapart.argmax_eq_some, hmem]
  refine and_congr_right fun _ => ⟨fun hle app s hs => ?_, fun hle e he => ?_⟩
  · exact hle (s.1, s.2.1) ((hmem _).mpr ⟨app, s.2.2, hs⟩)
  · obtain ⟨app, bytes, hs⟩ := (hmem _).mp he
    exact hle app _ hs

/-! ### One more op -/

theorem recordsOf_concat (ops : List Op) (op : Op) (pair : Pair) :
    recordsOf (ops ++ [op]) pair = recordsOf ops pair ++ recordsOf [op] pair := by
  simp [recordsOf, List.filterMap_append]

/-- An op changes no slot but its own pair's and origin's. -/
theorem newestOf_concat_of_ne {ops : List Op} {op : Op} {pair pair' : Pair} {origin : String} {n : Newest}
    (hc : candidate op = some (pair, n)) (hne : pair' ≠ pair ∨ origin ≠ op.origin) :
    (overOps (ops ++ [op])).newestOf pair' origin = (overOps ops).newestOf pair' origin := by
  have hstamp : n.stamp.origin = op.origin := by rw [(of_candidate hc).1]
  have hnil : recordsBy [op] pair' origin = [] := by
    rw [recordsBy, List.filter_eq_nil_iff]
    intro n' hn'
    obtain ⟨op', hop', hc'⟩ := mem_recordsOf.mp hn'
    obtain rfl := List.mem_singleton.mp hop'
    obtain ⟨rfl, rfl⟩ := Prod.mk.inj (Option.some.inj (hc'.symm.trans hc))
    rw [decide_eq_true_iff, hstamp]
    rintro rfl
    simp at hne
  rw [newestOf_overOps, newestOf_overOps, recordsBy, recordsOf_concat, List.filter_append]
  unfold recordsBy at hnil ⊢
  rw [hnil, List.append_nil]

/-- An op above all its origin said of its pair is newest there. -/
theorem newestOf_concat {ops : List Op} {op : Op} {pair : Pair} {n : Newest} (hc : candidate op = some (pair, n))
    (hlt : ∀ m ∈ recordsOf ops pair, m.stamp < n.stamp) :
    (overOps (ops ++ [op])).newestOf pair op.origin = some n := by
  have hstamp : n.stamp.origin = op.origin := by rw [(of_candidate hc).1]
  have hsingle : recordsOf [op] pair = [n] := by simp [recordsOf, hc]
  rw [newestOf_overOps, recordsBy, recordsOf_concat, List.filter_append, hsingle, List.filter_singleton,
    decide_eq_true hstamp]
  exact argmax_concat_of_lt fun m hm => hlt m (List.mem_of_mem_filter hm)

theorem getElem?_newest_concat_of_ne {ops : List Op} {op : Op} {pair pair' : Pair} {n : Newest}
    (hc : candidate op = some (pair, n)) (hne : pair' ≠ pair) :
    (overOps (ops ++ [op])).newest[pair']? = (overOps ops).newest[pair']? := by
  have hnil : recordsOf [op] pair' = [] := by simp [recordsOf, hc, hne.symm]
  rw [getElem?_newest, getElem?_newest, recordsOf_concat, hnil, List.append_nil]

theorem candidate_of_retraction {op : Op} {t : BindingRetraction} (hg : op.gladeId = gBindingRetractions)
    (h : folded op BindingRetraction.fromCbor = some t) :
    candidate op = some ((t.app, t.gladeId), ⟨⟨op.lamport, op.origin, true, op.seq⟩, none⟩) := by
  have hb : ¬ op.gladeId = gBindings := by
    rw [hg]
    decide
  rw [candidate, said, if_neg hb, if_pos hg, h]
  rfl

/-- A retraction leaves each declaration that surfaces, but its own origin's of its own pair. -/
theorem surfaces_concat {ops : List Op} {op : Op} (h : OneEach (ops ++ [op])) {pair : Pair} {stamp : Stamp}
    (hc : candidate op = some (pair, ⟨stamp, none⟩)) {gladeId : String} {best : Stamp} {decl : BindingDecl}
    (hs : (overOps ops).surfaces[gladeId]? = some (best, decl))
    (hne : best.origin ≠ op.origin ∨ (decl.app, decl.gladeId) ≠ pair) :
    (overOps (ops ++ [op])).surfaces[gladeId]? = some (best, decl) := by
  have hbefore : OneEach ops := fun a ha b hb => h a (by simp [ha]) b (by simp [hb])
  obtain ⟨⟨app, bytes, hstands⟩, hle⟩ := hbefore.surfaces_overOps.mp hs
  obtain ⟨hnewest, hmax⟩ := stands_overOps.mp hstands
  -- What an origin declares after the retraction it declared before.
  have hkept : ∀ pair' origin s d, (overOps (ops ++ [op])).newestOf pair' origin = some ⟨s, some d⟩ →
      (overOps ops).newestOf pair' origin = some ⟨s, some d⟩ := by
    intro pair' origin s d hn
    by_cases hslot : pair' ≠ pair ∨ origin ≠ op.origin
    · rwa [newestOf_concat_of_ne hc hslot] at hn
    · push Not at hslot
      obtain ⟨rfl, rfl⟩ := hslot
      rw [newestOf_overOps] at hn ⊢
      have hsplit : recordsBy (ops ++ [op]) pair' op.origin = recordsBy ops pair' op.origin ++
        recordsBy [op] pair' op.origin := by
        rw [recordsBy, recordsOf_concat, List.filter_append]
        rfl
      have hlast : ∀ n ∈ recordsBy [op] pair' op.origin, n.decl = none := by
        intro n hn'
        obtain ⟨op', hop', hc'⟩ := mem_recordsOf.mp (List.mem_of_mem_filter hn')
        obtain rfl := List.mem_singleton.mp hop'
        rw [(Prod.mk.inj (Option.some.inj (hc'.symm.trans hc))).2]
      have hall : Apart Newest.stamp (recordsBy (ops ++ [op]) pair' op.origin) :=
        (h.apart pair').sublist fun n hn' => List.mem_of_mem_filter hn'
      obtain ⟨hmem, hmax'⟩ := hall.argmax_eq_some.mp hn
      have hown : Apart Newest.stamp (recordsBy ops pair' op.origin) := hall.sublist fun n hn' => by simp [hsplit, hn']
      refine hown.argmax_eq_some.mpr ⟨?_, fun n hn' => hmax' n (by simp [hsplit, hn'])⟩
      rw [hsplit, List.mem_append] at hmem
      refine hmem.resolve_right fun hmem => ?_
      have := hlast _ hmem
      cases this
  obtain ⟨hat, a, ha, hca⟩ := origin_of_newestOf hnewest
  have hpair := (of_candidate hca).2.2 _ rfl
  refine h.surfaces_overOps.mpr ⟨⟨app, bytes, ?_⟩, fun app' s hs' => ?_⟩
  · refine stands_overOps.mpr ⟨?_, fun origin stamp' decl' hn => hmax origin stamp' decl' (hkept _ _ _ _ hn)⟩
    rw [newestOf_concat_of_ne hc, hnewest]
    rw [hpair]
    exact hne.symm
  · -- What stands now was declared before, so something as high stood then.
    obtain ⟨hn, -⟩ := stands_overOps.mp (show (overOps (ops ++ [op])).stands (app', gladeId) = some (s.1, s.2) from hs')
    have hn := hkept _ _ _ _ hn
    obtain ⟨s', hs', hle'⟩ := exists_stands hn
    exact hle'.trans (hle app' s' hs')

end BindingFold

/-! ### A registry's own family -/

open BindingFold

/-- The clock is past every record of the family. -/
theorem lt_nextBindingLamport {r : Registry C} {op : Op} (hop : op ∈ r.ops)
    (hf : Record.isBindingFamily op.gladeId = true) : op.lamport < r.nextBindingLamport := by
  unfold nextBindingLamport
  set l := (r.ops.filter (fun o => Record.isBindingFamily o.gladeId)).map (fun o => o.lamport + 1) with hl
  have hmem : op.lamport + 1 ∈ l := List.mem_map.mpr ⟨op, List.mem_filter.mpr ⟨hop, hf⟩, rfl⟩
  cases hm : l.max? with
  | none =>
    rw [List.max?_eq_none_iff] at hm
    rw [hm] at hmem
    cases hmem
  | some m =>
    have := (List.max?_eq_some_iff.mp hm).2 _ hmem
    rw [Option.getD_some]
    omega

theorem family_of_candidate {op : Op} {pair : Pair} {n : Newest} (h : candidate op = some (pair, n)) :
    Record.isBindingFamily op.gladeId = true := by
  rw [(of_candidate h).2.1]
  cases n.decl <;> rfl

/-- An op the clock numbers is above all the registry holds. -/
theorem newestOf_take {r : Registry C} {op : Op} {pair : Pair} {n : Newest} (hc : candidate op = some (pair, n))
    (hlamport : op.lamport = r.nextBindingLamport) : (overOps (r.take op).ops).newestOf pair op.origin = some n := by
  refine newestOf_concat hc fun m hm => Stamp.lt_of_lamport ?_
  obtain ⟨op', hop', hc'⟩ := mem_recordsOf.mp hm
  rw [(of_candidate hc).1, (of_candidate hc').1]
  dsimp only
  rw [hlamport]
  exact lt_nextBindingLamport hop' (family_of_candidate hc')

namespace Written

variable {r : Registry C} {record : Record} {origin : String} {op : Op} (h : r.Written record origin op)

include h

theorem candidate_binding {b : BindingDecl} (hb : record = .binding b) :
    candidate op = some ((b.app, b.gladeId), ⟨⟨op.lamport, op.origin, false, op.seq⟩, some (b, record.encode)⟩) := by
  have hg : op.gladeId = gBindings := by
    rw [h.gladeId_eq, hb]
    rfl
  have hfolded : folded op BindingDecl.fromCbor = some b := by
    rw [folded, h.readRecord_eq, hb]
    rfl
  rw [candidate, said, if_pos hg, hfolded, h.recordBytes_payload.2]
  rfl

theorem candidate_retract {t : BindingRetraction} (ht : record = .retract t) :
    candidate op = some ((t.app, t.gladeId), ⟨⟨op.lamport, op.origin, true, op.seq⟩, none⟩) := by
  refine candidate_of_retraction ?_ ?_
  · rw [h.gladeId_eq, ht]
    rfl
  · rw [folded, h.readRecord_eq, ht]
    rfl

/-- A record of the family is numbered by the one clock. -/
theorem lamport_family (hf : Record.isBindingFamily record.gladeId = true) : op.lamport = r.nextBindingLamport := by
  rw [h.lamport_eq]
  exact if_pos hf

end Written

/-- An appended record of the family is its origin's newest of its pair. -/
theorem newestOf_append {r r' : Registry C} (hr : r.Plain) {record : Record} {origin : String} {op : Op}
    (h : r.appendReturning record origin = .ok (op, r')) (hf : Record.isBindingFamily record.gladeId = true)
    {pair : Pair} {n : Newest} (hc : candidate op = some (pair, n)) :
    (overOps r'.ops).newestOf pair origin = some n := by
  obtain ⟨-, hw, -⟩ := written_of_append h
  have hstream : record.gladeId ≠ gCheckpoints ∧ record.gladeId ≠ gClaims := by
    constructor <;> rintro heq <;> rw [heq] at hf <;> revert hf <;> decide
  rw [take_of_append hr h hstream.1 hstream.2, ← hw.origin_eq]
  exact newestOf_take hc (hw.lamport_family hf)

/-- The fold answers the same for every order and repetition of one op-set. A
retraction touches only its own origin's declaration of its own pair: every other
declaration is as live as before, every other pair's answer the same, and what
surfaces stays unless it was the declaration taken down. And what a registry
built by appends appended last of a pair, as an origin, is that origin's newest. -/
theorem binding_fold (C : Crypto) :
    (∀ ops ops' : List Op, OneEach ops → (∀ op, op ∈ ops ↔ op ∈ ops') →
      (overOps ops').live = (overOps ops).live ∧
      (∀ app, (overOps ops').declaredBy app = (overOps ops).declaredBy app) ∧
      (overOps ops').retracted = (overOps ops).retracted) ∧
    (∀ (ops : List Op) (op : Op) (t : BindingRetraction), op.gladeId = gBindingRetractions →
      folded op BindingRetraction.fromCbor = some t →
      let before := overOps ops
      let after := overOps (ops ++ [op])
      (∀ pair origin, origin ≠ op.origin → after.declares pair origin = before.declares pair origin) ∧
      (∀ app gladeId, (app, gladeId) ≠ (t.app, t.gladeId) →
        (∀ origin, after.declares (app, gladeId) origin = before.declares (app, gladeId) origin) ∧
        (after.declaredBy app)[gladeId]? = (before.declaredBy app)[gladeId]? ∧
        ((app, gladeId) ∈ after.retracted ↔ (app, gladeId) ∈ before.retracted)) ∧
      (OneEach (ops ++ [op]) → ∀ (gladeId : String) (stamp : Stamp) (decl : BindingDecl),
        before.surfaces[gladeId]? = some (stamp, decl) →
        stamp.origin ≠ op.origin ∨ (decl.app, decl.gladeId) ≠ (t.app, t.gladeId) →
        after.surfaces[gladeId]? = some (stamp, decl))) ∧
    (∀ (identity : Option (NodeIdentity C)) (calls : List (Record × String)) (record : Record) (origin : String) (op : Op)
      (r' : Registry C), (appends (fresh identity) calls).appendReturning record origin = .ok (op, r') →
      (∀ b, record = .binding b → (overOps r'.ops).newestOf (b.app, b.gladeId) origin =
        some ⟨⟨op.lamport, origin, false, op.seq⟩, some (b, record.encode)⟩) ∧
      (∀ t, record = .retract t → (overOps r'.ops).newestOf (t.app, t.gladeId) origin =
        some ⟨⟨op.lamport, origin, true, op.seq⟩, none⟩)) := by
  refine ⟨fun ops ops' h hmem => ?_, fun ops op t hg ht => ?_, fun identity calls record origin op r' h => ?_⟩
  · rw [h.overOps_congr hmem]
    exact ⟨rfl, fun _ => rfl, rfl⟩
  · have hc := candidate_of_retraction hg ht
    refine ⟨fun pair origin hne => ?_, fun app gladeId hne => ?_, fun h gladeId stamp decl => surfaces_concat h hc⟩
    · rw [declares, newestOf_concat_of_ne hc (.inr hne)]
      rfl
    · have hnewest : (overOps (ops ++ [op])).newest[(app, gladeId)]? = (overOps ops).newest[(app, gladeId)]? :=
        getElem?_newest_concat_of_ne hc hne
      have hstands : (overOps (ops ++ [op])).stands (app, gladeId) = (overOps ops).stands (app, gladeId) := by
        rw [stands, hnewest]
        rfl
      refine ⟨fun origin => ?_, ?_, ?_⟩
      · rw [declares, newestOf_concat_of_ne hc (.inl hne)]
        rfl
      · rw [getElem?_declaredBy, getElem?_declaredBy, hstands]
      · simp only [mem_retracted, Std.ExtTreeMap.mem_iff_isSome_getElem?, hstands, hnewest]
  · have hr := (plain_appends identity calls).1
    obtain ⟨-, hw, -⟩ := written_of_append h
    constructor
    · intro b hb
      rw [← hw.origin_eq]
      have hn := newestOf_append hr h (by rw [hb]; rfl) (hw.candidate_binding hb)
      rwa [← hw.origin_eq] at hn
    · intro t ht
      rw [← hw.origin_eq]
      have hn := newestOf_append hr h (by rw [ht]; rfl) (hw.candidate_retract ht)
      rwa [← hw.origin_eq] at hn

end Glade.Registry
