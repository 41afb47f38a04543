import Glade.Store.Append

/-! `Store::open` (`node/src/store.rs`): every journal under the root read and
regrouped into chains, a home journal replayed as its ops would be appended, one
that does not replay set aside, and the proofs read back. -/

namespace Glade.Store

open Wire Node

/-- The order a directory is listed in: any, of the names it holds. -/
structure ReadDir where
  order : Path → List String → List String
  perm : ∀ dir names, (order dir names).Perm names

/-! ### Reading a journal -/

/-- Every complete record of a journal, decoded, and the disk with a torn tail
cut from it. -/
def readRecords (disk : Disk) (path : Path) : List (Option Op) × Disk :=
  let data := disk.bytes path
  let (records, tail) := Frames.split data
  (records.map (fun record => (decodeOp record).toOption),
    if tail = [] then disk else disk.insert path (data.take (data.length - tail.length)))

/-- The ops of a journal, less the ones that could not be read. -/
def readLog (disk : Disk) (path : Path) : List Op × Disk :=
  let (records, disk) := readRecords disk path
  (records.filterMap id, disk)

/-- A flat run of ops, paired up; a pair with an op that could not be read is
dropped whole. -/
def pairs : List (Option Op) → List EquivProof
  | some a :: some b :: rest => { a, b } :: pairs rest
  | _ :: _ :: rest => pairs rest
  | _ => []

def readProofs (disk : Disk) : List EquivProof × Disk :=
  if proofsPath ∈ disk then
    let (records, disk) := readRecords disk proofsPath
    (pairs records, disk)
  else ([], disk)

/-! ### Reading the directory -/

def dirNames (disk : Disk) : List String :=
  (disk.keys.filterMap fun
    | dir :: _ :: _ => some dir
    | _ => none).dedup

def fileNames (disk : Disk) (dir : String) : List String :=
  disk.keys.filterMap fun
    | [d, name] => if d = dir then some name else none
    | _ => none

def isLog (name : String) : Bool := ".log".toList.isSuffixOf name.toList

/-- The first of `stem`, `stem-2`, `stem-3` and so on that names nothing in `dir`. -/
def unusedPath (disk : Disk) (dir stem : String) : Path :=
  let candidate := fun n : ℕ => if n = 1 then [dir, stem] else [dir, stem ++ "-" ++ toString n]
  -- One more candidate than there are files, so one of them is unused.
  (((List.range (disk.size + 1)).map fun n => candidate (n + 1)).find? (fun path => ¬ path ∈ disk)).getD (candidate 1)

structure Opening where
  disk : Disk
  logs : Logs
  register : Register
  /-- The origins whose journals still held ops their checkpoints cover. -/
  covered : List String
  aside : SetAside

variable (C : Crypto)

def openJournal (dir : String) (st : Opening) (name : String) : Except StoreError Opening :=
  if ¬ isLog name then .ok st
  else
    let path := [dir, name]
    let (ops, disk) := readLog st.disk path
    if dir ≠ hex (utf8 home) then .ok { st with disk, logs := ops.foldl push st.logs }
    else
      match ops.find? (fun op => format op = .unknown) with
      | some op => .error (.io (.unreadable path op.gladeId op.origin op.seq))
      | none =>
        match replayed C ops with
        | none =>
          let legacy := unusedPath disk dir (name ++ ".legacy-" ++ st.aside.date)
          .ok { st with
            disk := (disk.erase path).insert legacy (disk.bytes path)
            aside := { st.aside with journals := st.aside.journals + 1, records := st.aside.records + ops.length } }
        | some (held, floors, covers) =>
          .ok { st with
            disk
            logs := st.logs ∪ held
            register := st.register ∪ floors
            covered := if covers then st.covered ++ (ops.head?.map (fun op => op.origin)).toList else st.covered }

def openShare (readDir : ReadDir) (st : Opening) (dir : String) : Except StoreError Opening :=
  if dir = "proofs" then .ok st
  else (readDir.order [dir] (fileNames st.disk dir)).foldlM (openJournal C dir) st

/-- Open the store the disk holds, on the day `date`. -/
def openStore (readDir : ReadDir) (date : String) (disk : Disk) : Except StoreError (Store × Disk) :=
  if sealedMarker ∈ disk then .error (.io .sealed)
  else do
    let st ← (readDir.order [] (dirNames disk)).foldlM (openShare C readDir)
      { disk, logs := ∅, register := ∅, covered := [], aside := { journals := 0, records := 0, date } }
    let (proofs, disk) := readProofs st.disk
    let aside := if 0 < st.aside.journals then some st.aside else none
    let store : Store := { logs := st.logs, register := st.register, proofs, aside }
    return (store, st.covered.foldl (fun disk origin => (rewrite store.logs disk origin none).2) disk)

end Glade.Store
