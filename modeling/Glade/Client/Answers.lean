import Glade.Client.Session

/-! The node's answers to a client's ops (`client-rs/src/answers.rs`). Each send is
kept by its op's hash until a status names it; an op the node could not place
is kept to be sent again, and no later op of its chain goes past it. -/

namespace Glade.Client

open Wire Node

/-- A zone, `(share, glade_id, key)`. -/
abbrev Zone := String × String × Bytes

/-- The timers of zones are told apart by comparing. -/
instance timerLawfulBEq : LawfulBEq (Zone × ℕ) := Prod.instLawfulBEq

def zoneOf (op : Op) : Zone := (op.share, op.gladeId, op.key)

def inZone (op : Op) (zone : Zone) : Prop := op.share = zone.1 ∧ op.gladeId = zone.2.1 ∧ op.key = zone.2.2

instance (op : Op) (zone : Zone) : Decidable (inZone op zone) := inferInstanceAs (Decidable (_ ∧ _ ∧ _))

def sameChain (a b : Op) : Prop := a.share = b.share ∧ a.gladeId = b.gladeId ∧ a.key = b.key ∧ a.origin = b.origin

instance (a b : Op) : Decidable (sameChain a b) := inferInstanceAs (Decidable (_ ∧ _ ∧ _ ∧ _))

/-- The node's answer to one op this client sent. -/
inductive OpOutcome where
  | accepted
  | retained
  | notPlaced (message : String)
  | refused (code : ErrorCode) (message : String)
  /-- No status: the connection ended first, or none came. -/
  | unknown
  deriving DecidableEq

/-- A sent op, answered: what became of it, and who waits to hear. -/
structure Answered (W : Type*) where
  op : Op
  outcome : OpOutcome
  waiter : Option W
  /-- Not placed for the first time. -/
  newlyUnplaced : Bool

structure Sent (W : Type*) where
  hash : String
  op : Op
  waiter : Option W

/-- The sends not yet answered, oldest first; the ops not placed, in the order
they were found so; each zone's resends since it last had every op placed, and
the zones whose resend timer runs, by the timer's number. -/
structure Answers (W : Type*) where
  waiting : List (Sent W)
  bound : ℕ
  unplaced : List Op
  resends : Std.ExtTreeMap Zone ℕ
  timers : Std.ExtTreeMap Zone ℕ
  timerCount : ℕ

variable {W : Type*}

def unknown (sent : Sent W) : Answered W :=
  { op := sent.op, outcome := .unknown, waiter := sent.waiter, newlyUnplaced := false }

/-- The wait before a resend, in seconds: 1, doubling, to 30. -/
def resendDelay (attempt : ℕ) : ℕ := min (2 ^ attempt) 30

namespace Answers

def new (bound : ℕ) : Answers W :=
  { waiting := [], bound, unplaced := [], resends := ∅, timers := ∅, timerCount := 0 }

/-- The ops of `op`'s chain before it that are not placed. -/
def unplacedBefore (a : Answers W) (op : Op) : List Op :=
  a.unplaced.filter (fun kept => sameChain kept op ∧ kept.seq < op.seq)

/-- Sent, and waiting for its status. -/
def inFlight (a : Answers W) (op : Op) : Bool := a.waiting.any (fun sent => sent.op = op)

/-- The op `op` is held behind: one of its chain before it, not placed and not
sent again. -/
def before (a : Answers W) (op : Op) : Option Op := (a.unplacedBefore op).find? (fun kept => !a.inFlight kept)

/-- Keep an op as not placed, unless it is kept already. -/
def keep (a : Answers W) (op : Op) : Answers W :=
  if op ∈ a.unplaced then a else { a with unplaced := a.unplaced ++ [op] }

variable (C : Crypto)

/-- Keep a sent op until its status comes. Past the bound the oldest send is let
go, answered `unknown`. -/
def sent (a : Answers W) (op : Op) (waiter : Option W) : Option (Answered W) × Answers W :=
  let waiting := a.waiting ++ [{ hash := hex (opHash C op), op, waiter }]
  if waiting.length ≤ a.bound then (none, { a with waiting })
  else ((waiting.head?).map unknown, { a with waiting := waiting.tail })

/-- One op of `toSend`: to go on the wire now or held, and the answer due at once. -/
def offer (a : Answers W) (op : Op) (waiter : Option W) : Option Op × Option (Answered W) × Answers W :=
  match a.before op with
  | some kept =>
    let message := s!"not sent: seq {kept.seq} of its chain is not placed"
    (none, some { op, outcome := .notPlaced message, waiter, newlyUnplaced := op ∉ a.unplaced }, a.keep op)
  | none => (some op, a.sent C op waiter)

/-- Of ops to send, in order, those to put on the wire now; and the answers due
at once: `unknown` to a send let go past the bound, `notPlaced` to an op held. -/
def toSend (a : Answers W) : List (Op × Option W) → List Op × List (Answered W) × Answers W
  | [] => ([], [], a)
  | (op, waiter) :: rest =>
    let (now, due, a) := a.offer C op waiter
    let (nows, dues, a) := toSend a rest
    (now.toList ++ nows, due.toList ++ dues, a)

/-- What a status says of `op`: a gap past an op of its chain not placed is not
placed either. -/
def outcomeOf (a : Answers W) (op : Op) (status : Error) : OpOutcome :=
  match status.code with
  | .ok => .accepted
  | .retention => .retained
  | .unknownShare => .notPlaced status.message
  | .protocol => if a.unplacedBefore op = [] then .refused .protocol status.message else .notPlaced status.message
  | code => .refused code status.message

/-- The ops kept, and the session, once `op` has its outcome: a refusal drops the
chain from the op's seq on. -/
def settle (a : Answers W) (session : Session) (op : Op) : OpOutcome → Answers W × Session
  | .notPlaced _ => (a.keep op, session)
  | .refused _ _ =>
    ({ a with unplaced := a.unplaced.filter (fun kept => ¬ (sameChain kept op ∧ op.seq ≤ kept.seq)) }, session.refused op)
  | _ => ({ a with unplaced := a.unplaced.filter (fun kept => kept ≠ op) }, session)

/-- Once every op of a zone is placed its timer stops and its count restarts. -/
def quiet (a : Answers W) (zone : Zone) : Answers W :=
  if a.unplaced.any (fun kept => inZone kept zone) then a
  else { a with resends := a.resends.erase zone, timers := a.timers.erase zone }

/-- Apply one status. It answers the oldest send of the op its `corr` names; one
naming nothing this client waits on changes nothing. -/
def status (a : Answers W) (session : Session) (status : Error) : Option (Answered W) × Answers W × Session :=
  match status.corr with
  | none => (none, a, session)
  | some corr =>
    match a.waiting.find? (fun sent => sent.hash = corr) with
    | none => (none, a, session)
    | some { op, waiter, .. } =>
      let outcome := a.outcomeOf op status
      let newlyUnplaced := match outcome with
        | .notPlaced _ => decide (op ∉ a.unplaced)
        | _ => false
      let rest := { a with waiting := a.waiting.eraseP (fun sent => sent.hash = corr) }
      let (settled, session) := rest.settle session op outcome
      (some { op, outcome, waiter, newlyUnplaced }, settled.quiet (zoneOf op), session)

/-- The connection ended: every send is answered `unknown`, ops not placed stay,
and no resend timer runs. -/
def ended (a : Answers W) : List (Answered W) × Answers W :=
  (a.waiting.map unknown, { a with waiting := [], timers := ∅ })

/-- By origin, and then by seq. -/
def InOrder (a b : Op) : Prop := a.origin < b.origin ∨ (a.origin = b.origin ∧ a.seq ≤ b.seq)

instance (a b : Op) : Decidable (InOrder a b) := inferInstanceAs (Decidable (_ ∨ _))

/-- A zone's ops not placed, in their chains' order, to send again. One already
sent again, and waiting for its status, is left out. -/
def unplacedIn (a : Answers W) (zone : Zone) : List Op :=
  (a.unplaced.filter (fun op => inZone op zone ∧ ¬ a.inFlight op)).insertionSort InOrder

/-- A resend timer to start for the zone, by its number, when the zone has ops
not placed and none runs. -/
def startResending (a : Answers W) (zone : Zone) : Option ℕ × Answers W :=
  if zone ∈ a.timers ∨ ¬ a.unplaced.any (fun op => inZone op zone) then (none, a)
  else (some (a.timerCount + 1), { a with timers := a.timers.insert zone (a.timerCount + 1), timerCount := a.timerCount + 1 })

/-- The wait before the zone's next resend, which it counts. -/
def nextResend (a : Answers W) (zone : Zone) : ℕ × Answers W :=
  let count := a.resends.getD zone 0
  (resendDelay count, { a with resends := a.resends.insert zone (min (count + 1) (2 ^ 32 - 1)) })

/-- What the zone's timer `timer` sends again on this tick, or `none` when it has
stopped. -/
def resendTick (a : Answers W) (zone : Zone) (timer : ℕ) : Option (List Op) :=
  if a.timers[zone]? = some timer then some (a.unplacedIn zone) else none

end Answers

end Glade.Client
