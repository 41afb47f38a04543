import Glade.Node.Grants
import Glade.Store.Append
import Glade.Wire.Messages

/-! What a session is sent besides what its zones carry (`node/src/session.rs`):
its ack, the gap above its heads, its ops' statuses and its refusals. -/

namespace Glade.Node

open Wire Store

/-- A zone-surface, what a subscription names: share, stream and key. -/
abbrev Zone := String × String × Bytes

def zoneOf (op : Op) : Zone := (op.share, op.gladeId, op.key)

def inZone (op : Op) (zone : Zone) : Bool := zoneOf op = zone

/-- Each origin's highest seq a session announced, or sent and the node holds. -/
abbrev SeqHeads := Std.ExtTreeMap String ℤ

/-- A session's head for `origin` rises to `seq` and never falls. -/
def raise (heads : SeqHeads) (origin : String) (seq : ℤ) : SeqHeads :=
  heads.insert origin (max (heads.getD origin seq) seq)

/-- The chain of `origin` in `zone`. -/
def chainIn (zone : Zone) (origin : String) : ChainId :=
  { share := zone.1, gladeId := zone.2.1, key := zone.2.2, origin }

/-- What a session's queue holds. -/
inductive Frame where
  | heads (h : Heads)
  | ops (ops : List Op)
  | error (e : Error)
  | welcome
  deriving DecidableEq

/-! ### The store's zones -/

variable (C : Crypto)

/-- A chain's tip: its last op's seq and hash, or its floor while it holds none above it. -/
def tipOf (s : Store) (c : ChainId) (log : List Op) : Option Floor :=
  (log.getLast?.map fun op => (op.seq, opHash C op)).or (s.register[c]?.map Prod.snd)

/-- The chains of a zone, each with its log. -/
def chainsIn (s : Store) (zone : Zone) : List (ChainId × List Op) :=
  s.logs.toList.filter fun e => (e.1.share, e.1.gladeId, e.1.key) = zone

def headsOf (s : Store) (zone : Zone) : List (String × ℤ) :=
  (chainsIn s zone).filterMap fun e => (tipOf C s e.1 e.2).map fun tip => (e.1.origin, tip.1)

def zoneHeads (s : Store) (zone : Zone) : StreamHeads :=
  { share := zone.1, gladeId := zone.2.1, key := zone.2.2
    heads := (chainsIn s zone).filterMap fun e =>
      (tipOf C s e.1 e.2).map fun tip => { origin := e.1.origin, seq := tip.1, hash := some tip.2.val } }

/-- A chain's ops above `seq`, in order. -/
def scan (s : Store) (c : ChainId) (seq : ℤ) : List Op := (s.logs.at c).filter fun op => seq < op.seq

/-- The least seq there is. -/
def minSeq : ℤ := -2 ^ 63

/-- The ops of a zone above a reader's heads. -/
def missingFor (s : Store) (zone : Zone) (their : SeqHeads) : List Op :=
  (headsOf C s zone).flatMap fun e => scan s (chainIn zone e.1) (their.getD e.1 minSeq)

/-! ### Frames -/

/-- The ack of an accepted subscribe. -/
def ack (s : Store) (zone : Zone) : Frame := .heads { streams := [zoneHeads C s zone] }

/-- A refusal that names no op. -/
def refusalFrame (code : ErrorCode) (message : String) (zone : Zone) : Frame :=
  .error { code, message, share := some zone.1, gladeId := some zone.2.1, corr := none }

/-- A refused subscribe's two frames. -/
def refusedSubscribe (code : ErrorCode) (message : String) (zone : Zone) : List Frame :=
  [.heads { streams := [] }, refusalFrame code message zone]

/-- The status of one op, naming it by its hash. -/
def opStatus (op : Op) (code : ErrorCode) (message : String) : Error :=
  { code, message, share := some op.share, gladeId := some op.gladeId, corr := some (hex (opHash C op)) }

def Refused.says : Refused → String
  | .unsigned => "unsigned"
  | .form => "not the directory's form"
  | .prev => "its seq and prev disagree"
  | .stream => "not a directory stream"
  | .kind => "not its stream's kind"
  | .origin => "its origin is not a node id"
  | .signature => "its signature does not verify"
  | .checkpoint => "not a checkpoint this build takes"

def swmrSays : SwmrPayloadError → String
  | .tooShort => "TooShort"
  | .unsupportedVersion v => s!"UnsupportedVersion({v.toNat})"
  | .unsupportedAction tag => s!"UnsupportedAction({tag.toNat})"

def shapeSays : Shape → String
  | .value => "Value"
  | .log => "Log"
  | .stream => "Stream"
  | .swmr => "Swmr"
  | .crdt => "Crdt"

/-- The status of an op whose append was refused; `os` is what the system says of a
failed call. -/
def errorFrame (os : String) (op : Op) : StoreError → Error
  | .equivocation origin seq => opStatus C op .equivocation s!"forked chain at ({origin},{seq})"
  | .chainBreak origin seq => opStatus C op .protocol s!"chain break at ({origin},{seq})"
  | .gap expected got => opStatus C op .protocol s!"gap: expected {expected}, got {got}"
  | .invalidSwmrPayload error => opStatus C op .protocol s!"invalid SWMR action envelope: {swmrSays error}"
  | .swmrWriterConflict expected got =>
    opStatus C op .protocol s!"SWMR writer conflict: expected {expected.quote}, got {got.quote}"
  | .shapeConflict expected got =>
    opStatus C op .protocol s!"shape conflict: expected {shapeSays expected}, got {shapeSays got}"
  | .unverified origin seq why => opStatus C op .unauthorized s!"({origin},{seq}) does not verify: {why.says}"
  | .rewrite origin seq => opStatus C op .equivocation s!"rewritten chain at ({origin},{seq})"
  | .io _ => opStatus C op .internal s!"io: {os}"

/-- No refusal of an append says the node holds the op. -/
theorem errorFrame_code_ne_ok (os : String) (op : Op) (e : StoreError) : (errorFrame C os op e).code ≠ .ok := by
  cases e <;> simp [errorFrame, opStatus]

end Glade.Node
