import Glade.Registry.Snapshot

/-! `records.json` (`node/src/records_file.rs`): the node's snapshot as a map, with
a revision at key 3. The file is walked, not decoded, and a walked entry is kept
as its bytes. A file without key 3, or with a null there, is at revision 1. -/

namespace Glade.RecordsFile

open Wire Node

/-! ### Walking a map -/

/-- What is said of an item cut short, or of a head the wire never writes. -/
def torn : String := "a torn or unreadable item"

/-- Past `items` well-formed items, each skipped by its length: an array adds its
items to the ones still to pass, a map two for each entry. -/
def skipItems : ℕ → ℕ → Bytes → Except String Bytes
  | _, 0, bs => .ok bs
  | 0, _ + 1, _ => .error torn
  | fuel + 1, items + 1, bs =>
    match itemHead bs with
    | none => .error torn
    | some ((major, n), rest) =>
      match major with
      | 0 | 1 | 7 => skipItems fuel items rest
      | 2 | 3 => if n ≤ rest.length then skipItems fuel items (rest.drop n) else .error torn
      | 4 => if items + n < 2 ^ 64 then skipItems fuel (items + n) rest else .error torn
      | 5 => if items + 2 * n < 2 ^ 64 then skipItems fuel (items + 2 * n) rest else .error torn
      | _ => .error "a tag"

/-- Past one item. Every head takes a byte, so there are no more than the bytes. -/
def skip (bs : Bytes) : Except String Bytes := skipItems bs.length 1 bs

/-- An entry of a walked map: its key, its bytes, and its value's. -/
structure Entry where
  key : ℕ
  raw : Bytes
  value : Bytes

/-- A walked map: its head's bytes, and its entries. -/
structure Map where
  head : Bytes
  entries : List Entry

/-- What `bs` holds before `rest`, which it ends with. -/
def before (bs rest : Bytes) : Bytes := bs.take (bs.length - rest.length)

def walkEntries : ℕ → Bytes → Except String (List Entry × Bytes)
  | 0, bs => .ok ([], bs)
  | count + 1, bs =>
    match itemHead bs with
    | none => .error torn
    | some ((major, key), value) =>
      if major ≠ 0 then .error "a key that is not an unsigned integer"
      else
        match skip value with
        | .error why => .error why
        | .ok rest =>
          match walkEntries count rest with
          | .error why => .error why
          | .ok (entries, rest') => .ok ({ key, raw := before bs rest, value := before value rest } :: entries, rest')

/-- `bs` walked as one map, with nothing left over. -/
def walk (bs : Bytes) : Except String Map :=
  match itemHead bs with
  | none => .error torn
  | some ((major, count), body) =>
    if major ≠ 5 then .error "not a map"
    -- An entry takes two bytes at least.
    else if body.length / 2 < count then .error torn
    else
      match walkEntries count body with
      | .error why => .error why
      | .ok (entries, rest) =>
        if rest ≠ [] then .error "bytes left over" else .ok { head := before bs body, entries }

/-! ### The revision -/

/-- The key the revision is kept at. -/
def revisionKey : ℕ := 3

/-- The revision a walked file holds, and whether key 3 is there. -/
def Map.revision (map : Map) : Except String (ℕ × Bool) :=
  match map.entries.filter (fun e => e.key = revisionKey) with
  | [] => .ok (1, false)
  | [e] =>
    if e.value = [0xf6] then .ok (1, true)
    else
      match itemHead e.value with
      | some ((0, revision), _) => if 0 < revision then .ok (revision, true) else .error "key 3 is not a revision"
      | _ => .error "key 3 is not a revision"
  | _ => .error "key 3 twice"

/-- The revision of a file's bytes. -/
def revisionOf (file : Bytes) : Except String ℕ :=
  match walk file with
  | .error why => .error why
  | .ok map => map.revision.map Prod.fst

/-- The file's revision and its snapshot, the map without key 3. -/
def unpack (file : Bytes) : Except String (ℕ × Bytes) :=
  match walk file with
  | .error why => .error why
  | .ok map =>
    match map.revision with
    | .error why => .error why
    | .ok (revision, false) => .ok (revision, file)
    | .ok (revision, true) =>
      let rest := map.entries.filter (fun e => e.key ≠ revisionKey)
      .ok (revision, head 5 (map.entries.length - 1) ++ rest.flatMap Entry.raw)

/-- Whether each key is below the next. -/
def ordered : List Entry → Bool
  | a :: b :: rest => a.key < b.key && ordered (b :: rest)
  | _ => true

/-- `snapshot`, a canonical map without key 3, with `revision` added at key 3. -/
def withRevision (snapshot : Bytes) (revision : ℕ) : Option Bytes :=
  match walk snapshot with
  | .error _ => none
  | .ok map =>
    let count := map.entries.length
    let free := map.entries.all (fun e => e.key ≠ revisionKey)
    if head 5 count ≠ map.head ∨ ¬ ordered map.entries ∨ ¬ free then none
    else
      let below := fun e : Entry => ¬ revisionKey < e.key
      some (head 5 (count + 1) ++ (map.entries.takeWhile below).flatMap Entry.raw ++ head 0 revisionKey ++
        head 0 revision ++ (map.entries.dropWhile below).flatMap Entry.raw)

/-! ### The node's snapshot -/

def byteStrings (items : List Bytes) : Cbor := .array (items.map .bytes)

/-- The snapshot's fields but for the revision, which the file keeps. -/
def encodeSnapshot (snap : SystemSnapshot) : Bytes :=
  encode (.map [(1, byteStrings snap.records), (2, byteStrings snap.heads)])

/-- The byte strings `value` holds, one array of them exactly. -/
def readByteStrings (value : Bytes) : Option (List Bytes) :=
  match parse value with
  | some (.array items) => items.mapM fun
    | .bytes b => some b
    | _ => none
  | _ => none

/-- The one list of byte strings at `key`. -/
def Map.list (map : Map) (key : ℕ) : Option (List Bytes) :=
  match map.entries.filter (fun e => e.key = key) with
  | [e] => readByteStrings e.value
  | _ => none

def decodeSnapshot (bytes : Bytes) : Except String SystemSnapshot :=
  match walk bytes with
  | .error why => .error why
  | .ok map =>
    match map.list 1 with
    | none => .error "key 1, the records, is not one list of byte strings"
    | some records =>
      match map.list 2 with
      | none => .error "key 2, the heads, is not one list of byte strings"
      | some heads => .ok { records, heads, revision := none }

/-! ### The store -/

/-- What the file's store answers instead of a snapshot or a commit. `panicked`
is no answer of the source's: the node stops where its snapshot fills memory. -/
inductive FileError where
  | unavailable
  | corrupt (why : String)
  | conflict (held expected : Option ℕ)
  | exhausted
  | outcomeUnknown
  | notASnapshot
  | panicked
  deriving DecidableEq

/-- An I/O call that fails: one before the file is read under the lock, one that
writes or renames the new file, and the directory's sync after the rename. -/
inductive Fault where
  | lock
  | write
  | sync
  deriving DecidableEq

/-- The revision `records.json` holds; there is none when it is absent. -/
def heldRevision : Option Bytes → Except String (Option ℕ)
  | none => .ok none
  | some file => (revisionOf file).map some

/-- Replace the file with `snapshot` at the next revision, if it holds the one
expected: the answer, and the file after it. -/
def compareExchange (file : Option Bytes) (expected : Option ℕ) (snapshot : Bytes) (fault : Option Fault) :
    Except FileError ℕ × Option Bytes :=
  if fault = some .lock then (.error .unavailable, file)
  else
    match heldRevision file with
    | .error why => (.error (.corrupt why), file)
    | .ok held =>
      if held ≠ expected then (.error (.conflict held expected), file)
      else
        let revision := held.getD 0 + 1
        if 2 ^ 64 ≤ revision then (.error .exhausted, file)
        else
          match withRevision snapshot revision with
          | none => (.error .notASnapshot, file)
          | some bytes =>
            if fault = some .write then (.error .unavailable, file)
            else if fault = some .sync then (.error .outcomeUnknown, some bytes)
            else (.ok revision, some bytes)

/-- What a handle knows of the file's revision. -/
inductive Seen where
  | nothing
  | absent
  | atRevision (revision : ℕ)
  deriving DecidableEq

/-- Load the snapshot; `fails` is whether the read does. -/
def load (file : Option Bytes) (seen : Seen) (fails : Bool) : Except FileError SystemSnapshot × Seen :=
  if fails then (.error .unavailable, seen)
  else
    match file with
    | none => (.ok { records := [], heads := [], revision := none }, .absent)
    | some bytes =>
      match unpack bytes with
      | .error why => (.error (.corrupt why), seen)
      | .ok (revision, snapshot) =>
        match decodeSnapshot snapshot with
        | .error why => (.error (.corrupt why), seen)
        | .ok snap => (.ok snap, .atRevision revision)

/-- What a save expects the file to hold. -/
def expectedOf (file : Option Bytes) : Seen → Except FileError (Option ℕ)
  | .atRevision revision => .ok (some revision)
  | .absent => .ok none
  | .nothing =>
    match heldRevision file with
    | .error why => .error (.corrupt why)
    | .ok held => .ok held

/-- Save the snapshot: the answer, what the handle knows then, and the file. -/
def save (file : Option Bytes) (seen : Seen) (snap : SystemSnapshot) (fault : Option Fault) :
    Except FileError Unit × Seen × Option Bytes :=
  match expectedOf file seen with
  | .error e => (.error e, seen, file)
  | .ok expected =>
    let snapshot := encodeSnapshot snap
    -- A snapshot and ten bytes more are what a buffer must hold.
    if maxLen < snapshot.length + 10 then (.error .panicked, seen, file)
    else
      match compareExchange file expected snapshot fault with
      | (.ok revision, file) => (.ok (), .atRevision revision, file)
      | (.error .outcomeUnknown, file) => (.error .outcomeUnknown, .nothing, file)
      | (.error e, file) => (.error e, seen, file)

end Glade.RecordsFile
