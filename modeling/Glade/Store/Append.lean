import Glade.Lib.Frames
import Glade.Store.ChainInvariant

/-! `Store::append` (`node/src/store.rs`): the checks before anything is written,
the journals it writes, and what a failed I/O call leaves behind. The disk is
the files under the store's root, each under the names that lead to it; a
directory is there when a file under it is. -/

namespace Glade.Store

open Wire Node LinkedLog

/-! ### The disk -/

/-- The names from the store's root to a file. -/
abbrev Path := List String

abbrev Disk := Std.ExtTreeMap Path Bytes

/-- What a file holds; a file that is not there holds nothing. -/
def Disk.bytes (disk : Disk) (path : Path) : Bytes := disk.getD path []

/-- Joining an empty name leaves a path as it is. -/
def join (dir : Path) (name : String) : Path := if name = "" then dir else dir ++ [name]

/-- A share's directory. -/
def shareDir (share : String) : Path := join [] (hex (utf8 share))

def logName (origin : String) : String := hex (utf8 origin) ++ ".log"

def logPath (share origin : String) : Path := join (shareDir share) (logName origin)

def proofsPath : Path := ["proofs", "equivocations.log"]

/-- The marker of a store retired for migration. -/
def sealedMarker : Path := ["legacy-store.sealed"]

/-- An I/O call of `append` that fails, the first one that does: the lock's,
making a directory, opening the file, a write after its first bytes, syncing
the file, renaming it, and syncing its directory. -/
inductive Fault where
  | guard
  | createDir
  | openFile
  | write (written : ℕ)
  | sync
  | rename
  | syncDir
  deriving DecidableEq

/-- Append `bytes` to the file at `path`, and whether every call went through. -/
def appendFile (disk : Disk) (path : Path) (bytes : Bytes) : Option Fault → Bool × Disk
  | some .createDir | some .openFile => (false, disk)
  | some (.write n) =>
    if n < bytes.length then (false, disk.insert path (disk.bytes path ++ bytes.take n))
    else (true, disk.insert path (disk.bytes path ++ bytes))
  | _ => (true, disk.insert path (disk.bytes path ++ bytes))

/-- Write `bytes` to the file `temp` and rename it over `path`, and whether
every call went through. -/
def replaceFile (disk : Disk) (temp path : Path) (bytes : Bytes) : Option Fault → Bool × Disk
  | some .createDir | some .openFile => (false, disk)
  | some (.write n) =>
    if n < bytes.length then (false, disk.insert temp (bytes.take n))
    else (true, (disk.erase temp).insert path bytes)
  | some .sync | some .rename => (false, disk.insert temp bytes)
  | some .syncDir => (false, (disk.erase temp).insert path bytes)
  | _ => (true, (disk.erase temp).insert path bytes)

/-! ### The store -/

/-- Two ops signed into one slot: the one held and the one that arrived. -/
structure EquivProof where
  a : Op
  b : Op
  deriving DecidableEq

/-- The home journals an open set aside, and the ops they held. -/
structure SetAside where
  journals : ℕ
  records : ℕ
  date : String
  deriving DecidableEq

inductive SwmrPayloadError where
  | tooShort
  | unsupportedVersion (v : UInt8)
  | unsupportedAction (tag : UInt8)
  deriving DecidableEq

inductive IoError where
  | failed
  | sealed
  /-- A home record in a format this build does not know, in `file`. -/
  | unreadable (file : Path) (stream origin : String) (seq : ℤ)
  deriving DecidableEq

inductive StoreError where
  | gap (expected got : ℤ)
  | equivocation (origin : String) (seq : ℤ)
  | chainBreak (origin : String) (seq : ℤ)
  | invalidSwmrPayload (error : SwmrPayloadError)
  | swmrWriterConflict (expected got : String)
  | shapeConflict (expected got : Shape)
  | unverified (origin : String) (seq : ℤ) (why : Refused)
  | rewrite (origin : String) (seq : ℤ)
  | io (error : IoError)
  deriving DecidableEq

inductive Append where
  | appended
  | duplicate
  | belowRetained
  deriving DecidableEq

end Store

structure Store where
  logs : Store.Logs
  register : Store.Register
  proofs : List Store.EquivProof
  aside : Option Store.SetAside

namespace Store

open Wire Node LinkedLog

def empty : Store := { logs := ∅, register := ∅, proofs := [], aside := none }

/-! ### The surface contract -/

/-- Whether a payload is a single-writer action. -/
def decodeSwmr : Bytes → Except SwmrPayloadError Unit
  | version :: tag :: _ =>
    if version ≠ 1 then .error (.unsupportedVersion version)
    else if tag = 0 ∨ tag = 1 ∨ tag = 2 then .ok ()
    else .error (.unsupportedAction tag)
  | _ => .error .tooShort

/-- Why `op` may not join a zone in which `log` is held. -/
def surfaceConflict (op : Op) : ChainId × List Op → Option StoreError
  | (_, []) => none
  | (c, first :: _) =>
    if c.share ≠ op.share ∨ c.gladeId ≠ op.gladeId ∨ c.key ≠ op.key then none
    else if (op.shape = .swmr ∨ first.shape = .swmr ∨ op.shape = .crdt ∨ first.shape = .crdt) ∧
        first.shape ≠ op.shape then
      some (.shapeConflict first.shape op.shape)
    else if op.shape = .swmr ∧ c.origin ≠ op.origin then some (.swmrWriterConflict c.origin op.origin)
    else none

def validateSurfaceContract (logs : Logs) (op : Op) : Except StoreError Unit :=
  let swmr := if op.shape = .swmr then decodeSwmr op.payload else .ok ()
  match swmr with
  | .error e => .error (.invalidSwmrPayload e)
  | .ok () =>
    match logs.toList.findSome? (surfaceConflict op) with
    | some e => .error e
    | none => .ok ()

/-! ### Journals -/

/-- One journal record. -/
def framed (op : Op) : Bytes := Frames.frame op.encoding

/-- The ops held of a home origin, checkpoints first, as its journal is rewritten. -/
def journalOps (logs : Logs) (origin : String) : List Op :=
  let ours := logs.toList.filter (fun e => e.1.share = home ∧ e.1.origin = origin)
  let (checkpoints, rest) := ours.partition (fun e => e.1.gladeId = gCheckpoints)
  (checkpoints ++ rest).flatMap Prod.snd

def rewriteName (origin : String) : String := hex (utf8 origin) ++ ".rewrite"

/-- Rewrite `origin`'s home journal to the ops held of it. -/
def rewrite (logs : Logs) (disk : Disk) (origin : String) (fault : Option Fault) : Bool × Disk :=
  replaceFile disk (join (shareDir home) (rewriteName origin)) (logPath home origin)
    ((journalOps logs origin).flatMap framed) fault

/-! ### Append -/

variable (C : Crypto)

/-- Where `op` lands, by its share's rules. -/
def verdictOf (s : Store) (op : Op) : Verdict :=
  if op.share = home then classifyHome C s.logs s.register op else classify C (s.logs.at (chainOf op)) op

/-- The check of a home op; any other is taken as it is. -/
def checkedOf (s : Store) (op : Op) : Except Refused Unit :=
  if op.share = home then checked C (s.verdictOf C op) op else .ok ()

/-- Keep the two ops that convict an origin: on disk, then in memory. -/
def recordEquivocation (s : Store) (disk : Disk) (proof : EquivProof) (fault : Option Fault) : Bool × Store × Disk :=
  match appendFile disk proofsPath (framed proof.a ++ framed proof.b) fault with
  | (true, disk) => (true, { s with proofs := s.proofs ++ [proof] }, disk)
  | (false, disk) => (false, s, disk)

/-- What `append` does with an op that passed its checks. -/
def commit (s : Store) (disk : Disk) (op : Op) (fault : Option Fault) :
    Verdict → Except StoreError Append × Store × Disk
  | .duplicate => (.ok .duplicate, s, disk)
  | .belowRetained => (.ok .belowRetained, s, disk)
  | .gap expected got => (.error (.gap expected got), s, disk)
  | .chainBreak => (.error (.chainBreak op.origin op.seq), s, disk)
  | .equivocation stored =>
    match s.recordEquivocation disk { a := stored, b := op } fault with
    | (true, s, disk) => (.error (.equivocation op.origin op.seq), s, disk)
    | (false, s, disk) => (.error (.io .failed), s, disk)
  | .rewrite stored =>
    match s.recordEquivocation disk { a := stored, b := op } fault with
    | (true, s, disk) => (.error (.rewrite op.origin op.seq), s, disk)
    | (false, s, disk) => (.error (.io .failed), s, disk)
  | .appended =>
    -- The journal first, then memory.
    match appendFile disk (logPath op.share op.origin) (framed op) fault with
    | (true, disk) => (.ok .appended, { s with logs := push s.logs op }, disk)
    | (false, disk) => (.error (.io .failed), s, disk)
  | .placed folded floor =>
    -- Memory first, then the journal.
    let (logs, register) := place s.logs s.register op folded floor
    let s := { s with logs, register }
    match rewrite s.logs disk op.origin fault with
    | (true, disk) => (.ok .appended, s, disk)
    | (false, disk) => (.error (.io .failed), s, disk)

/-- Append `op` to its chain; `fault` is the I/O call that fails, if one does. -/
def append (s : Store) (disk : Disk) (op : Op) (fault : Option Fault) : Except StoreError Append × Store × Disk :=
  if fault = some .guard then (.error (.io .failed), s, disk)
  else if sealedMarker ∈ disk then (.error (.io .sealed), s, disk)
  else
    match validateSurfaceContract s.logs op with
    | .error e => (.error e, s, disk)
    | .ok () =>
      match s.checkedOf C op with
      | .error why => (.error (.unverified op.origin op.seq why), s, disk)
      | .ok () => s.commit disk op fault (s.verdictOf C op)

/-- The store and the disk after a run of appends. -/
def appends (s : Store) (disk : Disk) (calls : List (Op × Option Fault)) : Store × Disk :=
  calls.foldl (fun st call => (append C st.1 st.2 call.1 call.2).2) (s, disk)

/-- The store and the disk after a run of appends none of whose I/O calls fails. -/
def fed (ops : List Op) : Store × Disk := appends C empty ∅ (ops.map fun op => (op, none))

/-! ### What an append does to memory -/

variable {C}

theorem fed_concat (ops : List Op) (op : Op) :
    fed C (ops ++ [op]) = (append C (fed C ops).1 (fed C ops).2 op none).2 := by
  simp [fed, appends]

/-- Memory changes by a push of an op that may be added at the end of its chain,
or by a checkpoint that is placed; and a home op kept has verified. -/
inductive Change (C : Crypto) (s : Store) (op : Op) : Logs → Register → Prop where
  | none : Change C s op s.logs s.register
  | push : s.verdictOf C op = .appended → s.checkedOf C op = .ok () → Change C s op (push s.logs op) s.register
  | place (folded : ChainId) (floor : Floor) : s.verdictOf C op = .placed folded floor → s.checkedOf C op = .ok () →
      Change C s op (place s.logs s.register op folded floor).1 (place s.logs s.register op folded floor).2

theorem recordEquivocation_logs (s : Store) (disk : Disk) (proof : EquivProof) (fault : Option Fault) :
    (s.recordEquivocation disk proof fault).2.1.logs = s.logs ∧
      (s.recordEquivocation disk proof fault).2.1.register = s.register := by
  rw [recordEquivocation]
  rcases appendFile disk proofsPath (framed proof.a ++ framed proof.b) fault with ⟨_ | _, disk'⟩ <;> exact ⟨rfl, rfl⟩

theorem commit_change {s : Store} {op : Op} (hc : s.checkedOf C op = .ok ()) (disk : Disk) (fault : Option Fault) :
    Change C s op (s.commit disk op fault (s.verdictOf C op)).2.1.logs
      (s.commit disk op fault (s.verdictOf C op)).2.1.register := by
  cases hv : s.verdictOf C op with
  | duplicate => exact .none
  | belowRetained => exact .none
  | gap expected got => exact .none
  | chainBreak => exact .none
  | equivocation stored =>
    obtain ⟨hl, hr⟩ := recordEquivocation_logs s disk { a := stored, b := op } fault
    rw [commit]
    rcases hrec : s.recordEquivocation disk { a := stored, b := op } fault with ⟨_ | _, s', disk'⟩ <;>
      rw [hrec] at hl hr <;> dsimp only <;> rw [hl, hr] <;> exact .none
  | rewrite stored =>
    obtain ⟨hl, hr⟩ := recordEquivocation_logs s disk { a := stored, b := op } fault
    rw [commit]
    rcases hrec : s.recordEquivocation disk { a := stored, b := op } fault with ⟨_ | _, s', disk'⟩ <;>
      rw [hrec] at hl hr <;> dsimp only <;> rw [hl, hr] <;> exact .none
  | appended =>
    rw [commit]
    rcases appendFile disk (logPath op.share op.origin) (framed op) fault with ⟨_ | _, disk'⟩
    · exact .none
    · exact .push hv hc
  | placed folded floor =>
    rw [commit]
    dsimp only
    rcases rewrite (Store.place s.logs s.register op folded floor).1 disk op.origin fault with ⟨_ | _, disk'⟩
    all_goals exact .place folded floor hv hc

/-- Whatever call fails, memory changes in one of these ways or not at all. -/
theorem append_change (s : Store) (disk : Disk) (op : Op) (fault : Option Fault) :
    Change C s op (append C s disk op fault).2.1.logs (append C s disk op fault).2.1.register := by
  rw [append]
  split
  · exact .none
  split
  · exact .none
  split
  · exact .none
  split
  · exact .none
  case h_2 hc => exact commit_change hc disk fault

/-! ### The chain invariant -/

theorem verify_of_checkedOf {s : Store} {op : Op} (hs : op.share = home) (hn : (s.verdictOf C op).needsCheck = true)
    (hc : s.checkedOf C op = .ok ()) : verify C op = .ok () := by
  rwa [checkedOf, if_pos hs, checked, if_pos hn] at hc

theorem Change.inv {s : Store} {op : Op} {logs : Logs} {register : Register} (I : Inv C s.logs s.register)
    (h : Change C s op logs register) : Inv C logs register := by
  cases h with
  | none => exact I
  | push hv hc =>
    by_cases hs : op.share = home
    · have hver := verify_of_checkedOf hs (by rw [hv]; rfl) hc
      rw [verdictOf, if_pos hs] at hv
      -- A checkpoint judged kept is one its own check refuses, so it does not verify.
      have hg : op.gladeId ≠ gCheckpoints := by
        intro hg
        obtain ⟨c, hcheck⟩ := (of_verify hver).2.2 hg
        exact classifyHome_ne_appended hg hcheck hv
      exact I.push (((I.classifyHome_eq_appended hg).mp hv).mono fun h _ => h) fun _ => ⟨hver, hg⟩
    · refine I.push ?_ fun h => absurd h hs
      rw [verdictOf, if_neg hs, classify_eq_appended] at hv
      exact hv.mono fun _ h => absurd h hs
  | place folded floor hv hc =>
    by_cases hs : op.share = home
    · have hver := verify_of_checkedOf hs (by rw [hv]; rfl) hc
      rw [verdictOf, if_pos hs] at hv
      exact I.place hver hv
    · rw [verdictOf, if_neg hs] at hv
      exact absurd hv classify_ne_placed

theorem appends_inv (disk : Disk) (calls : List (Op × Option Fault)) {s : Store} (I : Inv C s.logs s.register) :
    Inv C (appends C s disk calls).1.logs (appends C s disk calls).1.register := by
  induction calls generalizing s disk with
  | nil => exact I
  | cons call calls ih => exact ih _ ((append_change s disk call.1 call.2).inv I)

/-- What a reader of the store may rely on: consecutive seqs, links that match,
and home chains of verified ops that start at seq 0 or right above their floor. -/
structure Sound (C : Crypto) (s : Store) : Prop where
  consecutive : ∀ c, ¬ (c.share = home ∧ c.gladeId = gCheckpoints) → ∀ i (_ : i + 1 < (s.logs.at c).length),
    (s.logs.at c)[i + 1].seq = (s.logs.at c)[i].seq + 1
  nodup : ∀ c, ¬ (c.share = home ∧ c.gladeId = gCheckpoints) → ((s.logs.at c).map (fun op => op.seq)).Nodup
  linked : ∀ c, ¬ (c.share = home ∧ c.gladeId = gCheckpoints) → ∀ i (_ : i + 1 < (s.logs.at c).length) (prev : Bytes),
    (s.logs.at c)[i + 1].prev = some prev → prev = (opHash C (s.logs.at c)[i]).val
  verified : ∀ c, c.share = home → ∀ op ∈ s.logs.at c, verify C op = .ok ()
  aboveFloor : ∀ c cp floor, s.register[c]? = some (cp, floor) → ∀ op ∈ s.logs.at c, floor.1 < op.seq
  startsAtZero : ∀ c, c.share = home → c.gladeId ≠ gCheckpoints → s.register[c]? = none →
    ∀ op, (s.logs.at c).head? = some op → op.seq = 0
  startsAboveFloor : ∀ c cp floor, s.register[c]? = some (cp, floor) →
    ∀ op, (s.logs.at c).head? = some op → op.seq = floor.1 + 1 ∧ op.prev = some floor.2.val

theorem Sound.of_inv {s : Store} (I : Inv C s.logs s.register) : Sound C s where
  consecutive c hc i hi := (follows_getElem (I.chained c hc) i hi).1
  nodup c hc := nodup_map_seq (I.chained c hc)
  linked c hc i hi := (follows_getElem (I.chained c hc) i hi).2
  verified := I.verified
  aboveFloor c cp floor hr := I.lt_seq hr
  startsAtZero c hs hg hr op hop := by
    have h := first_of_head? (I.chained_home hs hg) hop
    rwa [hr] at h
  startsAboveFloor c cp floor hr op hop := by
    obtain ⟨rfl, -, -, hcheck⟩ := I.registered c cp floor hr
    have h := first_of_head? (I.chained_home (c := homeChain gClaims cp.origin) rfl
      (by simp [homeChain, gClaims, gCheckpoints])) hop
    rw [hr] at h
    obtain ⟨hseq, hnames⟩ : op.seq = floor.1 + 1 ∧ ∀ prev, op.prev = some prev → prev = floor.2.val := h
    -- A verified op above seq 0 names a predecessor.
    have hver := I.verified (homeChain gClaims cp.origin) rfl op (List.mem_of_mem_head? hop)
    have hbase : 0 ≤ floor.1 := (check_eq_ok hcheck).2
    obtain ⟨prev, hprev⟩ := Option.isSome_iff_exists.mp ((of_verify hver).2.1.2.mpr (by omega))
    exact ⟨hseq, by rw [hprev, hnames prev hprev]⟩

/-- In every state appends reach from an empty store, whatever I/O call fails on
the way, every chain is sound. -/
theorem appends_sound (C : Crypto) (disk : Disk) (calls : List (Op × Option Fault)) :
    Sound C (appends C empty disk calls).1 :=
  .of_inv (appends_inv disk calls inv_empty)

end Store

end Glade
