import Glade.Lib.LinkedLog
import Glade.Lib.OrdMap
import Glade.Node.Checkpoint

/-! The served store in memory (`node/src/store.rs`): each chain's log, the
register of checkpoints, and where an arriving op lands among them. Nothing
here touches the disk. -/

namespace Glade.Store

open Wire Node LinkedLog

/-! ### Chains -/

/-- A chain: one origin's ops in one zone of one stream of a share. -/
structure ChainId where
  share : String
  gladeId : String
  key : Bytes
  origin : String
  deriving DecidableEq

namespace ChainId

/-- The chains' order, field by field. -/
instance : Ord ChainId where
  compare := compareLex (compareOn share) (compareLex (compareOn gladeId) (compareLex (compareOn key) (compareOn origin)))

instance : Std.TransOrd ChainId :=
  inferInstanceAs (Std.TransCmp (compareLex (compareOn share)
    (compareLex (compareOn gladeId) (compareLex (compareOn key) (compareOn origin)))))

instance : Std.LawfulEqOrd ChainId where
  compare_self := Std.ReflCmp.compare_self
  eq_of_compare := by
    intro a b h
    change compareLex _ _ a b = .eq at h
    simp only [compareLex, compareOn, Ordering.then_eq_eq, Std.LawfulEqOrd.compare_eq_iff_eq] at h
    cases a
    cases b
    simp_all

end ChainId

def chainOf (op : Op) : ChainId := { share := op.share, gladeId := op.gladeId, key := op.key, origin := op.origin }

/-- The chain of `origin` on a directory stream. -/
def homeChain (stream origin : String) : ChainId := { share := home, gladeId := stream, key := [], origin }

abbrev Logs := Std.ExtTreeMap ChainId (List Op)

/-- For each chain a checkpoint folds, the newest one held, and its floor. -/
abbrev Register := Std.ExtTreeMap ChainId (Op × Floor)

/-- A chain's log; a chain never written to has an empty one. -/
def Logs.at (logs : Logs) (chain : ChainId) : List Op := logs.getD chain []

theorem Logs.at_insert (logs : Logs) (c c' : ChainId) (log : List Op) :
    Logs.at (logs.insert c log) c' = if c = c' then log else logs.at c' := by
  simp [Logs.at, Std.ExtTreeMap.getD_insert]

/-! ### Verdicts -/

/-- Where an op lands among the ops held. -/
inductive Verdict where
  | appended
  | duplicate
  | belowRetained
  | gap (expected got : ℤ)
  | chainBreak
  /-- Another op sits at the op's position: the one stored. -/
  | equivocation (stored : Op)
  /-- A checkpoint the register takes: the chain it folds and the floor it gives. -/
  | placed (folded : ChainId) (floor : Floor)
  /-- A checkpoint that moves back from the one held. -/
  | rewrite (stored : Op)
  deriving DecidableEq

variable (C : Crypto)

/-- Ops link by seq, and a `prev`, when present, is the predecessor's hash. -/
def linking : Linking Op Bytes32 where
  seq op := op.seq
  hash := opHash C
  names op h := ∀ prev, op.prev = some prev → prev = h.val

@[simp] theorem linking_seq (op : Op) : (linking C).seq op = op.seq := rfl

@[simp] theorem linking_hash (op : Op) : (linking C).hash op = opHash C op := rfl

@[simp] theorem linking_tip (op : Op) : (linking C).tip op = (op.seq, opHash C op) := rfl

/-- Whether `op` follows its chain's tip. -/
def follows (tip : Floor) (op : Op) : Verdict :=
  if op.seq ≠ tip.1 + 1 then .gap (tip.1 + 1) op.seq
  else
    match op.prev with
    | some prev => if prev ≠ tip.2.val then .chainBreak else .appended
    | none => .appended

def classify (log : List Op) (op : Op) : Verdict :=
  match log.getLast? with
  | none => .appended
  | some last =>
    if op.seq ≤ last.seq then
      match log.find? (fun o => o.seq = op.seq) with
      | some stored => if opHash C stored = opHash C op then .duplicate else .equivocation stored
      | none => .belowRetained
    else follows (last.seq, opHash C last) op

/-- A checkpoint the register takes, judged against the op held at its base. -/
def atBase (logs : Logs) (folded : ChainId) (floor : Floor) : Verdict :=
  match (logs.at folded).find? (fun held => held.seq = floor.1) with
  | some held => if against C floor held = .fork then .equivocation held else .placed folded floor
  | none => .placed folded floor

/-- Where a checkpoint lands. One its own check refuses is judged kept, so that
`checked` refuses it. -/
def classifyCheckpoint (logs : Logs) (register : Register) (op : Op) : Verdict :=
  match check op with
  | .error _ => .appended
  | .ok { stream, floor } =>
    let folded := homeChain stream op.origin
    match register[folded]? with
    | none => atBase C logs folded floor
    | some (held, heldFloor) =>
      match placement C (op, floor) (some (held, heldFloor)) with
      | .placed => atBase C logs folded floor
      | .duplicate => .duplicate
      | .seen => .belowRetained
      | .fork => .equivocation held
      | .chainBreak => .chainBreak
      | .rewrite => .rewrite held

/-- `classify` with the home share's rules. -/
def classifyHome (logs : Logs) (register : Register) (op : Op) : Verdict :=
  if op.gladeId = gCheckpoints then classifyCheckpoint C logs register op
  else
    let log := logs.at (chainOf op)
    match register[chainOf op]? with
    | none => if log = [] ∧ op.seq ≠ 0 then .gap 0 op.seq else classify C log op
    | some (checkpoint, floor) =>
      match against C floor op with
      | .covered => .belowRetained
      | .fork => .equivocation checkpoint
      | .above => if log = [] then follows floor op else classify C log op

/-- The ops in ascending seq, equal ones in their own order. -/
def sortBySeq (ops : List Op) : List Op := ops.insertionSort (fun a b => a.seq ≤ b.seq)

/-- Place `op`, a checkpoint that folds `folded` at `floor`: that chain keeps no
op at or below the base, and the checkpoint replaces the one held, in the
register and in the log of its own chain. -/
def place (logs : Logs) (register : Register) (op : Op) (folded : ChainId) (floor : Floor) : Logs × Register :=
  let logs := logs.insert folded ((logs.at folded).filter (fun held => floor.1 < held.seq))
  let register := register.insert folded (op, floor)
  let newest := (register.toList.filter (fun e => e.1.origin = op.origin)).map (fun e => e.2.1)
  (logs.insert (chainOf op) (sortBySeq newest), register)

/-- A verdict that keeps the op, or convicts its origin. -/
def Verdict.needsCheck : Verdict → Bool
  | .appended | .placed _ _ | .equivocation _ | .rewrite _ => true
  | _ => false

/-- A home op that would be kept, or would convict its origin, must verify. -/
def checked (verdict : Verdict) (op : Op) : Except Refused Unit :=
  if verdict.needsCheck then verify C op else .ok ()

def push (logs : Logs) (op : Op) : Logs := logs.insert (chainOf op) (logs.at (chainOf op) ++ [op])

/-- A home journal's ops, each as `append` would take it after the ones before
it, checkpoints first: the chains they leave, the register, and whether one was
covered; or nothing, if one would not be taken. -/
def replayStep (st : Logs × Register × Bool) (op : Op) : Option (Logs × Register × Bool) :=
  let (logs, register, covered) := st
  let verdict := classifyHome C logs register op
  let taken := (checked C verdict op).isOk
  match verdict with
  | .belowRetained => some (logs, register, true)
  | .appended => if taken then some (push logs op, register, covered) else none
  | .placed folded floor =>
    if taken then
      let (logs, register) := place logs register op folded floor
      some (logs, register, covered)
    else none
  | _ => none

def replayed (ops : List Op) : Option (Logs × Register × Bool) :=
  let (checkpoints, rest) := ops.partition (fun op => op.gladeId = gCheckpoints)
  (checkpoints ++ rest).foldlM (replayStep C) (∅, ∅, false)

end Glade.Store
