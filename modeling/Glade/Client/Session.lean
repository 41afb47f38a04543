import Glade.Store.Append
import Glade.Wire.Messages

/-! A client's session (`client-rs/src/session.rs`): one origin, the logs of the
chains it has seen, and where a refusal stopped a chain of its own. -/

namespace Glade.Client

open Wire Node

/-- Why a session takes no op. The last is an arithmetic overflow. -/
inductive SessionError where
  | unsupportedShape (shape : Shape) (operation : String)
  | invalidSwmr (operation : String) (error : Glade.Store.SwmrPayloadError)
  | stopped (seq : ℤ) (share gladeId origin : String)
  | panicked
  deriving DecidableEq

/-- The shapes that travel as ops, a single-writer op with its action. -/
def requireOp (shape : Shape) (payload : Bytes) (operation : String) : Except SessionError Shape :=
  match shape with
  | .value | .log | .crdt => .ok shape
  | .swmr =>
    match Glade.Store.decodeSwmr payload with
    | .error error => .error (.invalidSwmr operation error)
    | .ok () => .ok shape
  | .stream => .error (.unsupportedShape shape operation)

/-! ### The store -/

/-- Each chain's log, by the chain's key. -/
structure Store where
  logs : Std.ExtTreeMap String (List Op)

namespace Store

def empty : Store := { logs := ∅ }

def chainKey (share gladeId : String) (key : Bytes) (origin : String) : String :=
  share ++ "\x00" ++ gladeId ++ "\x00" ++ hex key ++ "\x00" ++ origin

/-- The key of the chain an op is on. -/
def keyOf (op : Op) : String := chainKey op.share op.gladeId op.key op.origin

/-- A chain's log; a chain never written to has an empty one. -/
def log (s : Store) (chain : String) : List Op := s.logs.getD chain []

/-- Keep `op` unless it repeats or leaves a gap, and whether it was kept. -/
def append (s : Store) (op : Op) : Bool × Store :=
  let log := s.log (keyOf op)
  let kept : Store := { logs := s.logs.insert (keyOf op) (log ++ [op]) }
  match log.getLast? with
  | none => (true, kept)
  | some last =>
    if op.seq ≤ last.seq then (false, s)
    else if op.seq ≠ last.seq + 1 then (false, s)
    else (true, kept)

/-- A chain's ops above `from_`. -/
def scan (s : Store) (share gladeId : String) (key : Bytes) (origin : String) (from_ : ℤ) : List Op :=
  (s.log (chainKey share gladeId key origin)).filter (fun op => from_ < op.seq)

/-- A zone's ops, across origins. -/
def opsFor (s : Store) (share gladeId : String) (key : Bytes) : List Op :=
  let start := share ++ "\x00" ++ gladeId ++ "\x00" ++ hex key ++ "\x00"
  (s.logs.toList.filter (fun e => start.toList.isPrefixOf e.1.toList)).flatMap Prod.snd

/-- A zone's newest op of each origin. -/
def latest (s : Store) (share gladeId : String) (key : Bytes) : Std.ExtTreeMap String Op :=
  (s.opsFor share gladeId key).foldl (fun found op =>
    match found[op.origin]? with
    | some prior => if op.seq ≤ prior.seq then found else found.insert op.origin op
    | none => found.insert op.origin op) ∅

variable (C : Crypto)

/-- A zone's heads, by origin. -/
def streamHeads (s : Store) (share gladeId : String) (key : Bytes) : List Head :=
  (s.latest share gladeId key).toList.map fun e =>
    { origin := e.2.origin, seq := e.2.seq, hash := some (opHash C e.2).val }

end Store

/-! ### The session -/

structure Session where
  origin : String
  lamport : ℤ
  store : Store
  /-- Own chains stopped at a refused seq, until a subscribe acks their zone. -/
  unresumed : Std.ExtTreeMap String ℤ

namespace Session

def new (origin : String) : Session := { origin, lamport := 0, store := .empty, unresumed := ∅ }

/-- The key of this origin's chain in a zone. -/
def ownChain (s : Session) (share gladeId : String) (key : Bytes) : String := Store.chainKey share gladeId key s.origin

variable (C : Crypto)

/-- The seq and predecessor of the next op on this origin's chain in a zone. -/
def next (s : Session) (share gladeId : String) (key : Bytes) : ℤ × Option Bytes :=
  match (s.store.scan share gladeId key s.origin (-2 ^ 63)).getLast? with
  | some last => (last.seq + 1, some (opHash C last).val)
  | none => (0, none)

/-- The op `append` makes. -/
def draft (s : Session) (share gladeId : String) (shape : Shape) (payload key : Bytes) : OpData where
  share
  gladeId
  key
  origin := s.origin
  seq := (s.next C share gladeId key).1
  prev := (s.next C share gladeId key).2
  lamport := s.lamport + 1
  refs := if shape = .crdt then s.store.streamHeads C share gladeId key else []
  shape
  payload

/-- Make this origin's next op in a zone. A chain a refusal stopped takes none
until it is resumed; a seq or a clock past what an `i64` holds is an overflow. -/
def append (s : Session) (share gladeId : String) (shape : Shape) (payload key : Bytes) : Except SessionError (Op × Session) :=
  match requireOp shape payload "append" with
  | .error e => .error e
  | .ok _ =>
    match s.unresumed[s.ownChain share gladeId key]? with
    | some seq => .error (.stopped seq share gladeId s.origin)
    | none =>
      match Op.ofData (s.draft C share gladeId shape payload key) with
      | none => .error .panicked
      | some op => .ok (op, { s with lamport := s.lamport + 1, store := (s.store.append op).2 })

/-- The node refused an op of this session's own: drop it and every later op of
its chain, and stop the chain. Nothing changes when the op is not held. -/
def refused (s : Session) (op : Op) : Session :=
  let chain := Store.keyOf op
  if op.origin ≠ s.origin then s
  else
    match s.store.logs[chain]? with
    | none => s
    | some log =>
      if op ∈ log then
        { s with
          store := { logs := s.store.logs.insert chain (log.take (log.idxOf op)) }
          unresumed := s.unresumed.insert chain op.seq }
      else s

/-- A subscribe of the zone has its replay in, so its own chain goes on. -/
def resumed (s : Session) (share gladeId : String) (key : Bytes) : Session :=
  { s with unresumed := s.unresumed.erase (s.ownChain share gladeId key) }

/-- Whether a refusal stopped this origin's chain in the zone. -/
def stopped (s : Session) (share gladeId : String) (key : Bytes) : Bool :=
  (s.unresumed[s.ownChain share gladeId key]?).isSome

/-- One op received, and the clock it brings. -/
def receive (s : Session) (op : Op) : Session :=
  let (kept, store) := s.store.append op
  { s with store, lamport := if kept ∧ s.lamport < op.lamport then op.lamport else s.lamport }

/-- The ops the node sent, all of them or none. -/
def applyRemote (s : Session) (ops : List Op) : Except SessionError Session :=
  match ops.findSome? (fun op => match requireOp op.shape op.payload "apply_remote" with
    | .error e => some e
    | .ok _ => none) with
  | some e => .error e
  | none => .ok (ops.foldl receive s)

end Session

end Glade.Client
