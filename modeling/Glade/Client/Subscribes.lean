import Glade.Client.Answers

/-! The subscribes waiting on the node (`client-rs/src/answers.rs`): each for its ack,
in the order sent, then for a refusal's reason or for a replay that reaches the
heads its ack names. -/

namespace Glade.Client

open Wire Node

/-- A subscribe's answer. No code when a refusal's reason did not come. -/
inductive SubscribeOutcome where
  | accepted (heads : List Head)
  | refused (code : Option ErrorCode) (message : String)
  deriving DecidableEq

structure Subscribed (S : Type*) where
  zone : Zone
  outcome : SubscribeOutcome
  waiter : S

/-- Every waiting subscribe, once none can be matched to its answer. -/
structure Abandoned (S : Type*) where
  failed : List S
  refused : List (Subscribed S)

structure ZoneRefusal where
  share : String
  gladeId : String
  key : Bytes
  code : ErrorCode
  message : String
  deriving DecidableEq

/-- What one `Error` naming no op refused after the ack. -/
structure RefusedAfterAck (S : Type*) where
  zones : List ZoneRefusal
  subscribes : List (Subscribed S)

structure Subscribes (S : Type*) where
  /-- Sent and not yet acked: the node acks them in the order sent. -/
  unacked : List (Zone × S)
  /-- Acked as refused, waiting for the reason. -/
  refused : List (Zone × S)
  /-- Acked, waiting for the replay to reach each head the ack names. -/
  catching : List (Zone × List Head × S)
  /-- The highest seq of each origin in each zone this connection has seen. -/
  seen : Std.ExtTreeMap (Zone × String) ℤ
  /-- Named by an ack on this connection, and not refused since. -/
  live : List Zone

/-- Whether an `Error` naming no op names `zone`, by its share and stream. -/
def names (status : Error) (zone : Zone) : Prop := status.share = some zone.1 ∧ status.gladeId = some zone.2.1

instance (status : Error) (zone : Zone) : Decidable (names status zone) := inferInstanceAs (Decidable (_ ∧ _))

variable {S : Type*}

namespace Subscribes

def new : Subscribes S := { unacked := [], refused := [], catching := [], seen := ∅, live := [] }

def sent (s : Subscribes S) (zone : Zone) (waiter : S) : Subscribes S :=
  { s with unacked := s.unacked ++ [(zone, waiter)] }

def reached (s : Subscribes S) (zone : Zone) (head : Head) : Bool :=
  match s.seen[(zone, head.origin)]? with
  | some seq => head.seq ≤ seq
  | none => false

def caughtUp (s : Subscribes S) (zones : List Zone) : List (Subscribed S) × Subscribes S :=
  let (done, rest) := s.catching.partition (fun w => w.1 ∈ zones ∧ w.2.1.all (s.reached w.1))
  (done.map (fun w => { zone := w.1, outcome := .accepted w.2.1, waiter := w.2.2 }), { s with catching := rest })

def abandon (s : Subscribes S) : Abandoned S × Subscribes S :=
  ({ failed := s.unacked.map Prod.snd ++ s.catching.map (fun w => w.2.2),
     refused := s.refused.map (fun w =>
       { zone := w.1, outcome := .refused none "its reason did not come", waiter := w.2 }) },
    { s with unacked := [], refused := [], catching := [] })

def enliven (s : Subscribes S) : List StreamHeads → Subscribes S
  | [] => s
  | named :: _ =>
    let zone : Zone := (named.share, named.gladeId, named.key)
    if zone ∈ s.live then s else { s with live := s.live ++ [zone] }

/-- The ack of the oldest subscribe. One naming its zone waits for its replay,
over at once if the connection has seen every head it names; one naming no zone
is a refusal, whose reason follows; one naming another zone leaves no subscribe
matched to its answer. -/
def acked (s : Subscribes S) (ack : Heads) : Except (Abandoned S) (Option (Subscribed S)) × Subscribes S :=
  let s := s.enliven ack.streams
  match s.unacked with
  | [] => (.ok none, s)
  | (zone, waiter) :: rest =>
    match ack.streams with
    | [] => (.ok none, { s with unacked := rest, refused := s.refused ++ [(zone, waiter)] })
    | named :: _ =>
      if named.share ≠ zone.1 ∨ named.gladeId ≠ zone.2.1 ∨ named.key ≠ zone.2.2 then
        let (abandoned, s) := s.abandon
        (.error abandoned, s)
      else
        let s := { s with unacked := rest, catching := s.catching ++ [(zone, named.heads, waiter)] }
        let (done, s) := s.caughtUp [zone]
        (.ok done.getLast?, s)

/-- An `Error` naming no op is the reason for the oldest refused subscribe of its
share and stream. -/
def reason (s : Subscribes S) (status : Error) : Option (Subscribed S) × Subscribes S :=
  if status.corr.isSome then (none, s)
  else
    match s.refused.find? (fun w => names status w.1) with
    | none => (none, s)
    | some (zone, waiter) =>
      (some { zone, outcome := .refused (some status.code) status.message, waiter },
        { s with refused := s.refused.eraseP (fun w => names status w.1) })

/-- An `Error` naming no op, and no refused subscribe's reason, refuses each live
zone of its share and stream, and the subscribes of them still catching up. -/
def refusedAfterAck (s : Subscribes S) (status : Error) : RefusedAfterAck S × Subscribes S :=
  if status.corr.isSome ∨ s.refused.any (fun w => names status w.1) then ({ zones := [], subscribes := [] }, s)
  else
    let (zones, live) := s.live.partition (names status)
    let (waiting, catching) := s.catching.partition (fun w => names status w.1)
    ({ zones := zones.map (fun zone =>
         { share := zone.1, gladeId := zone.2.1, key := zone.2.2, code := status.code, message := status.message }),
       subscribes := waiting.map (fun w =>
         { zone := w.1, outcome := .refused (some status.code) status.message, waiter := w.2.2 }) },
      { s with live, catching })

def see (s : Subscribes S) (op : Op) : Subscribes S :=
  let at_ := (zoneOf op, op.origin)
  { s with seen := s.seen.insert at_ (max (s.seen.getD at_ op.seq) op.seq) }

def received (s : Subscribes S) (ops : List Op) : List (Subscribed S) × Subscribes S :=
  (ops.foldl see s).caughtUp (ops.map zoneOf)

/-- An op this connection sent, and its answer. One the node holds counts toward
a replay, since the node does not send it back. -/
def answered (s : Subscribes S) (op : Op) (outcome : OpOutcome) : List (Subscribed S) × Subscribes S :=
  if outcome = .accepted then (s.see op).caughtUp [zoneOf op] else ([], s)

/-- A frame the session could not take: the subscribes of its zones fail. -/
def failed (s : Subscribes S) (ops : List Op) : List S × Subscribes S :=
  let (failed, waiting) := s.catching.partition (fun w => w.1 ∈ ops.map zoneOf)
  (failed.map (fun w => w.2.2), { s with catching := waiting })

def notTaken (s : Subscribes S) : Abandoned S × Subscribes S := s.abandon

/-- The connection ended: what it saw goes with it, its live zones too. -/
def ended (s : Subscribes S) : Abandoned S × Subscribes S := { s with seen := ∅, live := [] }.abandon

end Subscribes

end Glade.Client
