import Glade.Registry.RecordsOffsets
import Glade.Store.Journals

/-! The decode dry run (`node/src/dry_run.rs`): a node's `records.json` and its
store's journals read by readers of its own, and what the codec refuses of them
counted. It agrees with the store's reader on every journal, and with the node's
load on every `records.json` whose revision can be read. -/

namespace Glade.DryRun

open Wire Node RecordsFile

/-! ### What is said -/

/-- A refusal's name. -/
def tag : DecodeError → String
  | .truncated => "Truncated"
  | .trailingBytes => "TrailingBytes"
  | .invalidUtf8 => "InvalidUtf8"
  | .unsupportedInfo _ => "UnsupportedInfo"
  | .unsupportedMajor _ => "UnsupportedMajor"
  | .nonIntegerMapKey => "NonIntegerMapKey"
  | .duplicateMapKey _ => "DuplicateMapKey"
  | .intOverflow => "IntOverflow"
  | .nonCanonicalInt _ => "NonCanonicalInt"
  | .negativeMapKey _ => "NegativeMapKey"
  | .missingKey _ => "MissingKey"
  | .wrongType _ => "WrongType"
  | .unknownEnum _ _ => "UnknownEnum"
  | .tooDeep _ => "TooDeep"
  | .tooLarge _ _ => "TooLarge"

/-- A refusal in words. -/
def display : DecodeError → String
  | .truncated => "truncated CBOR input"
  | .trailingBytes => "trailing bytes after top-level CBOR item"
  | .invalidUtf8 => "invalid UTF-8 in CBOR text string"
  | .unsupportedInfo i => s!"unsupported additional-info {i}"
  | .unsupportedMajor m => s!"unsupported major type {m}"
  | .nonIntegerMapKey => "non-integer map key"
  | .duplicateMapKey k => s!"duplicate map key {k}"
  | .intOverflow => "integer out of range for target"
  | .nonCanonicalInt v => s!"non-canonical integer encoding of {v}"
  | .negativeMapKey k => s!"negative map key {k}"
  | .missingKey k => s!"missing map key {k}"
  | .wrongType expected => s!"expected CBOR {expected}"
  | .unknownEnum enumName value => s!"unknown {enumName} wire value {value}"
  | .tooDeep limit => s!"CBOR nested deeper than {limit}"
  | .tooLarge len limit => s!"CBOR input of {len} bytes is longer than {limit}"

def said (why : DecodeError) : String := s!"{display why} ({tag why})"

/-- `n` of `what`, in the plural but for one. -/
def count (n : ℕ) (what : String) : String := if n = 1 then s!"1 {what}" else s!"{n} {what}s"

def refusedSaid (n : ℕ) : String := if n = 0 then "none refused" else s!"{n} refused"

/-! ### Records -/

/-- A record read as the kind its stream's folds read through the codec, named;
none for a stream that no fold reads so. -/
def kind (gladeId : String) (c : Cbor) : Option (String × Except DecodeError Unit) :=
  if gladeId = gNodes then some ("NodeRecord", (fun _ => ()) <$> NodeRecord.fromCbor c)
  else if gladeId = gWorkspaces then some ("WorkspaceEntry", (fun _ => ()) <$> WorkspaceEntry.fromCbor c)
  else if gladeId = gClaims then some ("ServeClaim", (fun _ => ()) <$> ServeClaim.fromCbor c)
  else if gladeId = gGrants then some ("CapabilityGrant", (fun _ => ()) <$> CapabilityGrant.fromCbor c)
  else if gladeId = gRevocations then some ("CapabilityRevocation", (fun _ => ()) <$> CapabilityRevocation.fromCbor c)
  else if gladeId = gBindings then some ("BindingDecl", (fun _ => ()) <$> BindingDecl.fromCbor c)
  else if gladeId = gServices then some ("ServiceDefinition", (fun _ => ()) <$> ServiceDefinition.fromCbor c)
  else if gladeId = gBindingRetractions then some ("BindingRetraction", (fun _ => ()) <$> BindingRetraction.fromCbor c)
  else if gladeId = gPrincipals then some ("PrincipalRecord", (fun _ => ()) <$> PrincipalRecord.fromCbor c)
  else if gladeId = gRecoveryKeys then some ("NodeRecoveryKey", (fun _ => ()) <$> NodeRecoveryKey.fromCbor c)
  else none

/-- The record a home op carries, read as CBOR and, where a fold reads it through
the codec, as its stream's kind. -/
def record (op : Op) : Except (String × DecodeError) Unit :=
  match tryDecode (recordBytes op.payload) with
  | .error why => .error ("CBOR", why)
  | .ok c =>
    match kind op.gladeId c with
    | none => .ok ()
    | some (kind, read) => read.mapError fun why => (kind, why)

/-- An op, or a home op's record, that the codec refused, at its number in the file. -/
inductive Refusal where
  | op (n : ℕ) (fate : String) (why : DecodeError)
  | record (n : ℕ) (stream origin : String) (seq : ℤ) (kind : String) (why : DecodeError)

def Refusal.number : Refusal → ℕ
  | .op n .. => n
  | .record n .. => n

def Refusal.line : Refusal → String
  | .op n fate why => s!"record {n}: op refused ({fate}): {said why}"
  | .record n stream origin seq kind why =>
    s!"record {n} (home/{stream} of {origin}, seq {seq}): record refused as {kind} (folds skip it): {said why}"

/-! ### Files -/

/-- What one file held. -/
structure Read where
  ops : ℕ
  records : ℕ
  refused : List Refusal
  tail : Option String

namespace Read

def empty : Read := { ops := 0, records := 0, refused := [], tail := none }

def summary (r : Read) : String :=
  let said := count r.ops "op" ++ ", " ++ count r.records "home record" ++ ", " ++ refusedSaid r.refused.length
  match r.tail with
  | some tail => s!"{said}; {tail}"
  | none => said

/-- The op at record `n` of the file; then, on the home share, its record. -/
def op (r : Read) (n : ℕ) (bytes : Bytes) (fate : String) : Read :=
  let r := { r with ops := r.ops + 1 }
  match decodeOp bytes with
  | .error why => { r with refused := r.refused ++ [.op n fate why] }
  | .ok o =>
    if o.share ≠ home then r
    else
      let r := { r with records := r.records + 1 }
      match record o with
      | .ok _ => r
      | .error (kind, why) => { r with refused := r.refused ++ [.record n o.gladeId o.origin o.seq kind why] }

end Read

/-- Records read one after another. -/
def readAll (fate : String) (r : Read) (records : List Bytes) (n : ℕ) : Read :=
  (records.zipIdx n).foldl (fun r x => r.op x.2 x.1 fate) r

def snapshotFate : String := "quarantined at load; the grant fold is then unreadable"
def journalFate : String := "skipped at open"

/-- The ops of `records.json`. Its revision is not read. -/
def snapshot (bytes : Bytes) : Except String Read :=
  match decodeSnapshot bytes with
  | .error why => .error why
  | .ok snap => .ok (readAll snapshotFate .empty snap.records 1)

/-- A journal's ops from `at_` on, each its length and its bytes: what was read,
where the reading stopped, and how many records it read. -/
def journalFrom (bytes : Bytes) : ℕ → ℕ → ℕ → Read → Read × ℕ × ℕ
  | 0, at_, n, r => (r, at_, n)
  | fuel + 1, at_, n, r =>
    match slice bytes at_ (at_ + 4) with
    | none => (r, at_, n)
    | some prefix_ =>
      let len := Words.ofLe prefix_
      match slice bytes (at_ + 4) (at_ + 4 + len) with
      | none => (r, at_, n)
      | some record => journalFrom bytes fuel (at_ + 4 + len) (n + 1) (r.op (n + 1) record journalFate)

/-- The note on a torn tail after record `n`. -/
def tornNote (torn n : ℕ) : String :=
  "a torn tail of " ++ count torn "byte" ++ s!" after record {n}, which the store cuts at its next open"

/-- The ops of a journal. A tail too short for its record is noted. -/
def journal (bytes : Bytes) : Read :=
  let (r, at_, n) := journalFrom bytes bytes.length 0 0 .empty
  if at_ < bytes.length then { r with tail := some (tornNote (bytes.length - at_) n) } else r

/-- What the node reads a file as. -/
inductive File where
  | snapshot
  | journal

/-- A file's bytes read, or why the node could not start on them. -/
def File.read (file : File) (bytes : Bytes) : Except String Read :=
  match file with
  | .snapshot =>
    (DryRun.snapshot bytes).mapError fun why =>
      s!"cannot be read as a snapshot ({why}); the node refuses to start on it"
  | .journal => .ok (DryRun.journal bytes)

/-- How many refusals a file adds to the run's. -/
def refusals : Except String Read → ℕ
  | .ok r => r.refused.length
  | .error _ => 1

/-! ### What the node's readers make of a record -/

/-- The fold of an op's stream reads its record through the codec, and skips it. -/
def FoldSkips (op : Op) : Prop :=
  -- `has_node` and `nodes_of`, `replicas_of` and `directory_knows`, `who_serves`.
  (op.gladeId = gNodes ∧ folded op NodeRecord.fromCbor = none) ∨
  (op.gladeId = gWorkspaces ∧ folded op WorkspaceEntry.fromCbor = none) ∨
  (op.gladeId = gClaims ∧ folded op ServeClaim.fromCbor = none) ∨
  -- `policy` and `grants_for`.
  (op.gladeId = gGrants ∧ folded op CapabilityGrant.fromCbor = none) ∨
  (op.gladeId = gRevocations ∧ folded op CapabilityRevocation.fromCbor = none) ∨
  -- `BindingFold`, and `declared_exchange`.
  (op.gladeId = gBindings ∧ folded op BindingDecl.fromCbor = none) ∨
  (op.gladeId = gServices ∧ folded op ServiceDefinition.fromCbor = none) ∨
  (op.gladeId = gBindingRetractions ∧ folded op BindingRetraction.fromCbor = none) ∨
  -- `knows_principal`, and `recovery_key`.
  (op.gladeId = gPrincipals ∧ folded op PrincipalRecord.fromCbor = none) ∨
  (op.gladeId = gRecoveryKeys ∧ folded op NodeRecoveryKey.fromCbor = none)

/-- A home op whose record is not CBOR, or is not what its stream's fold reads. -/
def Unread (op : Op) : Prop :=
  op.share = home ∧ ((∃ why, tryDecode (recordBytes op.payload) = .error why) ∨ FoldSkips op)

theorem folded_eq_none {α : Type} {op : Op} {from_ : Cbor → Except DecodeError α} {c : Cbor}
    (hc : tryDecode (recordBytes op.payload) = .ok c) : folded op from_ = none ↔ ∃ why, from_ c = .error why := by
  have hread : readRecord op from_ = from_ c := by
    rw [readRecord, hc]
    rfl
  rw [folded, hread]
  cases from_ c <;> simp

theorem mapError_eq_error {α : Type} {kind : String} {x : Except DecodeError α} :
    (∃ why, (((fun _ => ()) <$> x : Except DecodeError Unit).mapError fun why => (kind, why)) = .error why) ↔
      ∃ why, x = .error why := by
  cases x <;> simp [Except.mapError, Functor.map, Except.map]

/-- The dry run refuses exactly the records that are not CBOR or that a fold would skip. -/
theorem record_eq_error {op : Op} :
    (∃ why, record op = .error why) ↔ (∃ why, tryDecode (recordBytes op.payload) = .error why) ∨ FoldSkips op := by
  unfold record
  cases hc : tryDecode (recordBytes op.payload) with
  | error why => simp
  | ok c =>
    unfold FoldSkips kind
    simp only [folded_eq_none hc]
    -- The streams' names are apart, so each is one clause of `FoldSkips`.
    split_ifs with h h h h h h h h h h
    case neg => simp_all
    all_goals
      dsimp only
      rw [mapError_eq_error, h]
      simp [gNodes, gWorkspaces, gClaims, gGrants, gRevocations, gBindings, gServices, gBindingRetractions, gPrincipals,
        gRecoveryKeys]

/-! ### Runs of records -/

/-- What the dry run refuses of an op. -/
def refusal (n : ℕ) (fate : String) (bytes : Bytes) : Option Refusal :=
  match decodeOp bytes with
  | .error why => some (.op n fate why)
  | .ok o =>
    if o.share ≠ home then none
    else
      match record o with
      | .ok _ => none
      | .error (kind, why) => some (.record n o.gladeId o.origin o.seq kind why)

/-- A record the node cannot read, or whose fold skips it. -/
def Refused (bytes : Bytes) : Prop := (∃ why, decodeOp bytes = .error why) ∨ ∃ op, decodeOp bytes = .ok op ∧ Unread op

theorem refusal_eq_none {n : ℕ} {fate : String} {bytes : Bytes} : refusal n fate bytes = none ↔ ¬ Refused bytes := by
  unfold refusal Refused Unread
  cases decodeOp bytes with
  | error why => simp
  | ok op =>
    have hrecord := @record_eq_error op
    by_cases hhome : op.share = home
    · cases hread : record op with
      | error why =>
        obtain ⟨kind, why⟩ := why
        have := hrecord.mp ⟨_, hread⟩
        simp [hhome, this, hread]
      | ok u =>
        have hnone : ¬ ((∃ why, tryDecode (recordBytes op.payload) = .error why) ∨ FoldSkips op) := by
          intro h
          obtain ⟨why, hwhy⟩ := hrecord.mpr h
          rw [hread] at hwhy
          cases hwhy
        simp [hhome, hnone, hread]
    · simp [hhome]

theorem number_refusal {n : ℕ} {fate : String} {bytes : Bytes} : ∀ r ∈ refusal n fate bytes, r.number = n := by
  intro r hr
  unfold refusal at hr
  split at hr
  · obtain rfl := Option.some.inj hr
    rfl
  · split_ifs at hr
    · cases hr
    · split at hr
      · cases hr
      · obtain rfl := Option.some.inj hr
        rfl

theorem op_eq (r : Read) (n : ℕ) (bytes : Bytes) (fate : String) :
    (r.op n bytes fate).ops = r.ops + 1 ∧ (r.op n bytes fate).refused = r.refused ++ (refusal n fate bytes).toList ∧
      (r.op n bytes fate).tail = r.tail := by
  unfold Read.op refusal
  cases decodeOp bytes with
  | error why => simp
  | ok op =>
    by_cases hhome : op.share = home
    · cases hread : record op <;> simp [hhome, hread]
    · simp [hhome]

theorem readAll_eq (fate : String) (r : Read) (records : List Bytes) (n : ℕ) :
    (readAll fate r records n).ops = r.ops + records.length ∧
      (readAll fate r records n).refused =
        r.refused ++ (records.zipIdx n).filterMap (fun x => refusal x.2 fate x.1) ∧
      (readAll fate r records n).tail = r.tail := by
  induction records generalizing r n with
  | nil => simp [readAll]
  | cons bytes records ih =>
    obtain ⟨hops, hrefused, htail⟩ := op_eq r n bytes fate
    obtain ⟨ih1, ih2, ih3⟩ := ih (r.op n bytes fate) (n + 1)
    have hcons : readAll fate r (bytes :: records) n = readAll fate (r.op n bytes fate) records (n + 1) := rfl
    rw [hcons]
    refine ⟨?_, ?_, ih3.trans htail⟩
    · rw [ih1, hops, List.length_cons]
      omega
    · rw [ih2, hrefused, List.zipIdx_cons]
      cases hone : refusal n fate bytes <;> simp [hone]

/-- What is refused of a run is what is refused of each of its records, at its number. -/
theorem mem_refused {fate : String} {records : List Bytes} {k n : ℕ} :
    (∃ r ∈ (records.zipIdx k).filterMap (fun x => refusal x.2 fate x.1), r.number = n + k) ↔
      ∃ bytes, records[n]? = some bytes ∧ Refused bytes := by
  constructor
  · rintro ⟨r, hr, hn⟩
    obtain ⟨⟨bytes, m⟩, hmem, hrefusal⟩ := List.mem_filterMap.mp hr
    have hm := number_refusal r hrefusal
    obtain ⟨hle, hget⟩ := List.mk_mem_zipIdx_iff_le_and_getElem?_sub.mp hmem
    obtain rfl : m = n + k := hm.symm.trans hn
    rw [Nat.add_sub_cancel] at hget
    refine ⟨bytes, hget, ?_⟩
    by_contra hnot
    rw [refusal_eq_none.mpr hnot] at hrefusal
    cases hrefusal
  · rintro ⟨bytes, hget, hrefused⟩
    cases hone : refusal (n + k) fate bytes with
    | none => exact absurd hrefused (refusal_eq_none.mp hone)
    | some r =>
      have hmem : (bytes, n + k) ∈ records.zipIdx k := by
        rw [List.mk_mem_zipIdx_iff_le_and_getElem?_sub, Nat.add_sub_cancel]
        exact ⟨Nat.le_add_left k n, hget⟩
      exact ⟨r, List.mem_filterMap.mpr ⟨_, hmem, hone⟩, number_refusal r hone⟩

/-- No record is refused twice. -/
theorem numbers_sublist (fate : String) (records : List Bytes) (k : ℕ) :
    (((records.zipIdx k).filterMap (fun x => refusal x.2 fate x.1)).map Refusal.number).Sublist
      (List.range' k records.length) := by
  induction records generalizing k with
  | nil => simp
  | cons bytes records ih =>
    rw [List.zipIdx_cons, List.length_cons, List.range'_succ]
    cases hone : refusal k fate bytes with
    | none =>
      simp only [List.filterMap_cons, hone]
      exact (ih (k + 1)).cons k
    | some r =>
      simp only [List.filterMap_cons, hone, List.map_cons]
      rw [number_refusal r hone]
      exact (ih (k + 1)).cons_cons k

/-! ### The journal's readers -/

/-- The dry run's loop reads the records that the store's does, and stops where it does. -/
theorem journalFrom_eq (bytes : Bytes) (fuel : ℕ) {at_ : ℕ} (hat : at_ ≤ bytes.length) (n : ℕ) (r : Read) :
    journalFrom bytes fuel at_ n r =
      (readAll journalFate r (Frames.splitWith fuel (bytes.drop at_)).1 (n + 1),
        bytes.length - (Frames.splitWith fuel (bytes.drop at_)).2.length,
        n + (Frames.splitWith fuel (bytes.drop at_)).1.length) := by
  have hstop : ∀ {at_ : ℕ} (n : ℕ) (r : Read), at_ ≤ bytes.length → (r, at_, n) =
      (readAll journalFate r [] (n + 1), bytes.length - (bytes.drop at_).length, n + ([] : List Bytes).length) := by
    intro at_ n r hat
    rw [List.length_drop, Nat.sub_sub_self hat]
    rfl
  induction fuel generalizing at_ n r with
  | zero => exact hstop n r hat
  | succ fuel ih =>
    rw [journalFrom, Frames.splitWith]
    dsimp only [slice]
    by_cases hprefix : at_ + 4 ≤ bytes.length
    · rw [if_pos ⟨by omega, hprefix⟩, if_neg (by rw [List.length_drop]; omega)]
      have htake : (bytes.drop at_).take (at_ + 4 - at_) = (bytes.drop at_).take 4 := by rw [Nat.add_sub_cancel_left]
      dsimp only
      rw [htake, List.drop_drop]
      generalize Words.ofLe ((bytes.drop at_).take 4) = len
      by_cases hrecord : at_ + 4 + len ≤ bytes.length
      · rw [if_pos ⟨Nat.le_add_right _ len, hrecord⟩, if_neg (by rw [List.length_drop]; omega)]
        dsimp only
        rw [ih hrecord, Nat.add_sub_cancel_left, List.drop_drop]
        refine Prod.ext rfl (Prod.ext rfl ?_)
        simp only [List.length_cons]
        omega
      · rw [if_neg (fun h => hrecord h.2), if_pos (by rw [List.length_drop]; omega)]
        exact hstop n r hat
    · rw [if_neg (fun h => hprefix h.2), if_pos (by rw [List.length_drop]; omega)]
      exact hstop n r hat

/-! ### The snapshot's readers -/

/-- The walk of a map is not told apart by what is at key 3. -/
theorem list_filter {map : Map} {h : Bytes} {key : ℕ} (hkey : key ≠ revisionKey) :
    Map.list { head := h, entries := map.entries.filter (fun e => e.key ≠ revisionKey) } key = map.list key := by
  unfold Map.list
  have hsame : (map.entries.filter (fun e => e.key ≠ revisionKey)).filter (fun e => e.key = key) =
      map.entries.filter (fun e => e.key = key) := by
    rw [List.filter_filter]
    apply List.filter_congr
    intro e _
    by_cases he : e.key = key
    · simp [he, hkey]
    · simp [he]
  rw [hsame]

/-- The snapshot a file is unpacked to decodes as the file itself does. -/
theorem decodeSnapshot_unpack {file snapshot : Bytes} {revision : ℕ} (hlen : file.length ≤ maxLen)
    (h : unpack file = .ok (revision, snapshot)) : decodeSnapshot snapshot = decodeSnapshot file := by
  unfold unpack at h
  split at h
  · cases h
  case h_2 map hwalk =>
    obtain ⟨hhead, hentries, hfile⟩ := walk_ok hwalk
    split at h
    · cases h
    · obtain ⟨-, rfl⟩ := Prod.mk.inj (Except.ok.inj h)
      rfl
    case h_3 revision' hrevision =>
      obtain ⟨-, rfl⟩ := Prod.mk.inj (Except.ok.inj h)
      set rest := map.entries.filter (fun e => e.key ≠ revisionKey) with hrest
      have hone : (map.entries.filter (fun e => e.key = revisionKey)).length = 1 := by
        unfold Map.revision at hrevision
        split at hrevision
        · cases (Prod.mk.inj (Except.ok.inj hrevision)).2
        case h_2 e heq => rw [heq]; rfl
        case h_3 => cases hrevision
      have hcount : rest.length = map.entries.length - 1 := by
        have hsplit := List.length_eq_length_filter_add (l := map.entries) (fun e => decide (e.key = revisionKey))
        have hneg : map.entries.filter (fun e => !decide (e.key = revisionKey)) = rest := by
          rw [hrest]
          congr 1
          funext e
          simp
        rw [hneg, hone] at hsplit
        omega
      have hraw : (rest.flatMap Entry.raw).length < 2 ^ 64 := by
        have hsub : rest.Sublist map.entries := List.filter_sublist
        have hle := (hsub.flatMap Entry.raw).length_le
        have hall := congrArg List.length hfile
        rw [List.length_append] at hall
        have hmax : maxLen < 2 ^ 64 := by decide
        omega
      have hcounted : map.entries.length - 1 < 2 ^ 64 := lt_of_le_of_lt (Nat.sub_le _ 1) hhead.lt
      have hrewalk : walk (head 5 (map.entries.length - 1) ++ rest.flatMap Entry.raw) =
          .ok { head := head 5 (map.entries.length - 1), entries := rest } :=
        walk_entries (by rw [hcount]; exact isHead_head (by omega) hcounted)
          (fun e he => hentries e (List.mem_of_mem_filter he)) hraw
      unfold decodeSnapshot
      rw [hrewalk, hwalk]
      dsimp only
      rw [hrest, list_filter (by decide), list_filter (by decide)]

/-- The node's load answers what the file's two lists hold, once its revision can be read. -/
theorem load_eq_ok {file : Bytes} (hlen : file.length ≤ maxLen) {seen : Seen} {snap : SystemSnapshot} :
    (load (some file) seen false).1 = .ok snap ↔
      (∃ x, unpack file = .ok x) ∧ decodeSnapshot file = .ok snap := by
  unfold load
  cases hunpack : unpack file with
  | error why => simp [hunpack]
  | ok x =>
    obtain ⟨revision, snapshot⟩ := x
    have hsame := decodeSnapshot_unpack hlen hunpack
    cases hsnap : decodeSnapshot snapshot with
    | error why => simp [hunpack, hsnap, ← hsame]
    | ok read => simp [hunpack, hsnap, ← hsame]

theorem unpack_of_revision {file : Bytes} {map : Map} (hwalk : walk file = .ok map) {x : ℕ × Bool}
    (h : map.revision = .ok x) : ∃ x, unpack file = .ok x := by
  obtain ⟨revision, held⟩ := x
  unfold unpack
  rw [hwalk]
  dsimp only
  rw [h]
  cases held
  · exact ⟨_, rfl⟩
  · exact ⟨_, rfl⟩

/-- The dry run refuses nothing of a file exactly if its two lists are there, and
none of the records is refused. -/
theorem snapshot_clean {file : Bytes} :
    refusals (File.read .snapshot file) = 0 ↔
      ∃ snap, decodeSnapshot file = .ok snap ∧ ∀ bytes ∈ snap.records, ¬ Refused bytes := by
  unfold File.read DryRun.snapshot
  cases hsnap : decodeSnapshot file with
  | error why => simp [Except.mapError, refusals]
  | ok snap =>
    obtain ⟨-, hrefused, -⟩ := readAll_eq snapshotFate .empty snap.records 1
    rw [show Read.empty.refused = [] from rfl, List.nil_append] at hrefused
    simp only [Except.mapError, refusals, hrefused, List.length_eq_zero_iff, List.filterMap_eq_nil_iff,
      refusal_eq_none, Except.ok.injEq, exists_eq_left']
    constructor
    · intro h bytes hbytes
      obtain ⟨n, hn⟩ := List.mem_iff_getElem?.mp hbytes
      refine h (bytes, n + 1) ?_
      rw [List.mk_mem_zipIdx_iff_le_and_getElem?_sub]
      exact ⟨by omega, by simpa using hn⟩
    · intro h x hx
      exact h x.1 (List.fst_mem_of_mem_zipIdx hx)

/-! ### What the dry run foretells -/

/-- The node reads all of a snapshot: every op, and every home op's record, as
CBOR and as what its fold reads. -/
def ReadsAll (snap : SystemSnapshot) : Prop := ∀ bytes ∈ snap.records, ∃ op, decodeOp bytes = .ok op ∧ ¬ Unread op

theorem readsAll_iff {snap : SystemSnapshot} : ReadsAll snap ↔ ∀ bytes ∈ snap.records, ¬ Refused bytes := by
  refine forall₂_congr fun bytes _ => ?_
  unfold Refused
  cases decodeOp bytes <;> simp

/-- The store's reader of a journal and the dry run's loop take it apart alike. -/
theorem journal_eq (data : Bytes) :
    (journal data).ops = (Frames.split data).1.length ∧
      (journal data).refused = ((Frames.split data).1.zipIdx 1).filterMap (fun x => refusal x.2 journalFate x.1) ∧
      (journal data).tail =
        if (Frames.split data).2 = [] then none
        else some (tornNote (Frames.split data).2.length (Frames.split data).1.length) := by
  have hloop : journalFrom data data.length 0 0 .empty =
      (readAll journalFate .empty (Frames.split data).1 1, data.length - (Frames.split data).2.length,
        (Frames.split data).1.length) := by
    have h := journalFrom_eq data data.length (Nat.zero_le _) 0 .empty
    rw [List.drop_zero, Nat.zero_add, Nat.zero_add] at h
    exact h
  have hle : (Frames.split data).2.length ≤ data.length := Frames.length_splitWith_snd_le data.length data
  obtain ⟨hops, hrefused, hnote⟩ := readAll_eq journalFate .empty (Frames.split data).1 1
  rw [show Read.empty.ops = 0 from rfl, Nat.zero_add] at hops
  unfold journal
  rw [hloop]
  dsimp only
  by_cases htail : (Frames.split data).2 = []
  · have hend : ¬ data.length - (Frames.split data).2.length < data.length := by simp [htail]
    rw [if_neg hend, if_pos htail]
    exact ⟨hops, hrefused, hnote⟩
  · have hpos : 0 < (Frames.split data).2.length := List.length_pos_iff.mpr htail
    have hend : data.length - (Frames.split data).2.length < data.length := by omega
    rw [if_pos hend, if_neg htail]
    refine ⟨hops, hrefused, ?_⟩
    rw [Nat.sub_sub_self hle]

/-- Nothing of a journal's refusals but each unread record, once, at its number. -/
theorem mem_journal_refused {data : Bytes} {m : ℕ} :
    (∃ r ∈ (journal data).refused, r.number = m) ↔
      ∃ n bytes, m = n + 1 ∧ (Frames.split data).1[n]? = some bytes ∧ Refused bytes := by
  rw [(journal_eq data).2.1]
  constructor
  · rintro ⟨r, hr, rfl⟩
    have hrange := (numbers_sublist journalFate (Frames.split data).1 1).subset (List.mem_map_of_mem hr)
    obtain ⟨n, hn⟩ : ∃ n, r.number = n + 1 := ⟨r.number - 1, by have := List.mem_range'_1.mp hrange; omega⟩
    obtain ⟨bytes, hget, hrefused⟩ := mem_refused.mp ⟨r, hr, hn⟩
    exact ⟨n, bytes, hn, hget, hrefused⟩
  · rintro ⟨n, bytes, rfl, hget, hrefused⟩
    exact mem_refused.mpr ⟨bytes, hget, hrefused⟩

/-- What the store's reader makes of a record of the journal. -/
theorem getElem?_readRecords {disk : Store.Disk} {path : Store.Path} {n : ℕ} :
    ((Store.readRecords disk path).1[n]? = some none ∨
        ∃ op, (Store.readRecords disk path).1[n]? = some (some op) ∧ Unread op) ↔
      ∃ bytes, (Frames.split (disk.bytes path)).1[n]? = some bytes ∧ Refused bytes := by
  have hrecords : (Store.readRecords disk path).1 =
      (Frames.split (disk.bytes path)).1.map fun record => (decodeOp record).toOption := rfl
  rw [hrecords, List.getElem?_map]
  cases (Frames.split (disk.bytes path)).1[n]? with
  | none => simp
  | some bytes =>
    unfold Refused
    cases hop : decodeOp bytes <;> simp [Except.toOption, hop]

/-- The store's reader leaves of the journal what is before its torn tail. -/
theorem bytes_readRecords (disk : Store.Disk) (path : Store.Path) :
    ((Store.readRecords disk path).2.bytes path).length + (Frames.split (disk.bytes path)).2.length =
      (disk.bytes path).length := by
  have hle : (Frames.split (disk.bytes path)).2.length ≤ (disk.bytes path).length := Frames.length_splitWith_snd_le _ _
  unfold Store.readRecords
  dsimp only
  split_ifs with htail
  · rw [htail, List.length_nil, Nat.add_zero]
  · rw [Store.Disk.bytes_insert, if_pos rfl, List.length_take]
    omega

/-- A file of records is clean exactly if the node reads all of it, where its
revision can be read; and a journal's refusals, count and torn tail are the ones
of the store's reader. A home record is refused, too, that is no CBOR where no
fold reads it. -/
theorem dry_run_foretells :
    (∀ (file : Bytes) (seen : Seen), file.length ≤ maxLen →
      ((∃ snap, (load (some file) seen false).1 = .ok snap ∧ ReadsAll snap) → refusals (File.read .snapshot file) = 0) ∧
      ((∀ map, walk file = .ok map → ∃ x, map.revision = .ok x) → refusals (File.read .snapshot file) = 0 →
        ∃ snap, (load (some file) seen false).1 = .ok snap ∧ ReadsAll snap)) ∧
    ∀ (disk : Store.Disk) (path : Store.Path), ∃ read, File.read .journal (disk.bytes path) = .ok read ∧
      read.ops = (Store.readRecords disk path).1.length ∧
      (∀ m, (∃ r ∈ read.refused, r.number = m) ↔
        ∃ n, m = n + 1 ∧ ((Store.readRecords disk path).1[n]? = some none ∨
          ∃ op, (Store.readRecords disk path).1[n]? = some (some op) ∧ Unread op)) ∧
      (read.refused.map Refusal.number).Nodup ∧
      read.tail =
        if (Store.readRecords disk path).2.bytes path = disk.bytes path then none
        else some (tornNote ((disk.bytes path).length - ((Store.readRecords disk path).2.bytes path).length) read.ops) := by
  constructor
  · intro file seen hlen
    rw [snapshot_clean]
    constructor
    · rintro ⟨snap, hload, hall⟩
      exact ⟨snap, ((load_eq_ok hlen).mp hload).2, readsAll_iff.mp hall⟩
    · rintro hrevision ⟨snap, hsnap, hall⟩
      refine ⟨snap, (load_eq_ok hlen).mpr ⟨?_, hsnap⟩, readsAll_iff.mpr hall⟩
      cases hwalk : walk file with
      | error why =>
        rw [decodeSnapshot, hwalk] at hsnap
        cases hsnap
      | ok map =>
        obtain ⟨x, hx⟩ := hrevision map hwalk
        exact unpack_of_revision hwalk hx
  · intro disk path
    obtain ⟨hops, hrefused, htail⟩ := journal_eq (disk.bytes path)
    have hcut := bytes_readRecords disk path
    refine ⟨_, rfl, ?_, ?_, ?_, ?_⟩
    · rw [hops]
      exact (List.length_map _).symm
    · intro m
      rw [mem_journal_refused]
      simp only [getElem?_readRecords]
      constructor
      · rintro ⟨n, bytes, hm, h⟩
        exact ⟨n, hm, bytes, h⟩
      · rintro ⟨n, hm, bytes, h⟩
        exact ⟨n, bytes, hm, h⟩
    · rw [hrefused]
      exact (numbers_sublist journalFate _ 1).nodup List.nodup_range'
    · rw [htail, hops]
      by_cases hnone : (Frames.split (disk.bytes path)).2 = []
      · have hsame : (Store.readRecords disk path).2 = disk := if_pos hnone
        rw [if_pos hnone, hsame, if_pos rfl]
      · have hpos : 0 < (Frames.split (disk.bytes path)).2.length := List.length_pos_iff.mpr hnone
        have hne : (Store.readRecords disk path).2.bytes path ≠ disk.bytes path := by
          intro h
          rw [h] at hcut
          omega
        rw [if_neg hnone, if_neg hne]
        congr 2
        omega

/-- An op of a stream that no fold here reads, carrying no record at all. -/
def later : Op :=
  ⟨{ share := home, gladeId := "dir.later", key := [], origin := "a", seq := 0, prev := none, lamport := 0, refs := [],
      shape := .log, payload := [] }, by decide⟩

def laterSnapshot : SystemSnapshot := { records := [later.encoding], heads := [], revision := none }

theorem holdable_laterSnapshot : Holdable laterSnapshot := by
  unfold Holdable
  decide

/-- A record of an unknown stream is refused, though the node loads the file and
no fold skips the record. -/
theorem unknown_stream_refused :
    ¬ ∀ (file : Bytes) (seen : Seen), file.length ≤ maxLen → (refusals (File.read .snapshot file) = 0 ↔
      ∃ snap, (load (some file) seen false).1 = .ok snap ∧
        ∀ bytes ∈ snap.records, ∃ op, decodeOp bytes = .ok op ∧ (op.share = home → ¬ FoldSkips op)) := by
  intro h
  have hread : decodeOp later.encoding = .ok later := decodeOp_encoding later
  have hlen : (encodeSnapshot laterSnapshot).length ≤ maxLen := by
    have := holdable_laterSnapshot
    unfold Holdable at this
    omega
  have hclean : refusals (File.read .snapshot (encodeSnapshot laterSnapshot)) = 0 := by
    apply (h _ .nothing hlen).mpr
    refine ⟨laterSnapshot, ?_, ?_⟩
    · apply (load_eq_ok hlen).mpr
      exact ⟨unpack_of_revision (walk_encodeSnapshot holdable_laterSnapshot) (show _ = Except.ok (1, false) from rfl),
        decodeSnapshot_encodeSnapshot holdable_laterSnapshot⟩
    · intro bytes hbytes
      obtain rfl := List.mem_singleton.mp hbytes
      refine ⟨later, hread, fun _ => ?_⟩
      unfold FoldSkips
      simp [later, gNodes, gWorkspaces, gClaims, gGrants, gRevocations, gBindings, gServices, gBindingRetractions,
        gPrincipals, gRecoveryKeys]
  obtain ⟨snap, hsnap, hall⟩ := snapshot_clean.mp hclean
  rw [decodeSnapshot_encodeSnapshot holdable_laterSnapshot] at hsnap
  obtain rfl := Except.ok.inj hsnap
  apply hall later.encoding (List.mem_singleton.mpr rfl)
  exact .inr ⟨later, hread, rfl, .inl ⟨.truncated, by rfl⟩⟩

end Glade.DryRun
