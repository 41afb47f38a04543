import Glade.Client.Subscribes

/-! The client (`client-rs/src/client.rs`): its calls, its connections' read loops, its
zones' resend loops and its reconnects, each a task. A task is a script, and a step does
one job of one task: what the source does under one lock, or one frame's write.
Connections are numbered, and a frame written on one that is no longer the client's
does not reach its wire. A read loop that a reconnect aborts goes on until it is
dropped. -/

namespace Glade.Client

open Wire Node

/-- How many sent ops wait for a status at once. -/
def waitingBound : ℕ := 4096

inductive Frame where
  | ops (ops : List Op)
  | subscribe (zone : Zone)
  deriving DecidableEq

/-- A frame of the node, decoded. Those that carry no op, ack or error are left out. -/
inductive Inbound where
  | ops (ops : List Op)
  | heads (ack : Heads)
  | error (status : Error)
  | notTaken

/-- A task: a call, a connection's read loop, or a zone's resend loop, by its timer. -/
inductive Worker where
  | call (id : ℕ)
  | reader (connection : ℕ)
  | resender (zone : Zone) (timer : ℕ)
  deriving DecidableEq

structure Appending (W : Type*) where
  share : String
  gladeId : String
  shape : Shape
  payload : Bytes
  key : Bytes
  waiter : Option W

inductive Job (W S : Type*) where
  /-- Whether there is a writer, before an append, and before ops are let go. -/
  | append (a : Appending W)
  | check (ops : List (Op × Option W))
  /-- The session makes the op, and it is let go under the session's lock. -/
  | make (a : Appending W)
  | letGo (ops : List (Op × Option W))
  | report (answered : Answered W)
  /-- Take the writer that is there, to write a frame of ops let go. -/
  | pick (ops : List Op)
  | write (connection : ℕ) (ops : List Op)
  /-- Write a subscribe's frame and keep it, under the subscribes' lock. -/
  | subscribe (zone : Zone) (waiter : S)
  | abortReader
  | unlink
  | endSends
  | endSubscribes
  | link (connection : ℕ)
  | keepReader (connection : ℕ)
  | apply (ops : List Op)
  | received (ops : List Op)
  | failed (ops : List Op)
  | acked (ack : Heads)
  | notTaken
  | reason (status : Error)
  | refusedAfterAck (status : Error)
  | status (status : Error)
  | answered (answered : Answered W)
  | startResending (zone : Zone)
  /-- Before a subscribe returns, its zone's stopped chain goes on, and its zone's ops
  not placed go again. -/
  | resume (done : Subscribed S)
  | returned (done : Subscribed S)
  | nextResend (zone : Zone)
  | resendTick (zone : Zone) (timer : ℕ)

/-- What a step did: a frame written, an op answered, a subscribe returned or failed. -/
inductive Happening (W S : Type*) where
  | wrote (connection : ℕ) (frame : Frame)
  | answered (answered : Answered W)
  | returned (done : Subscribed S)
  | failed (waiter : S)

inductive Event (W S : Type*) where
  | append (id : ℕ) (a : Appending W)
  | sendOps (id : ℕ) (ops : List (Op × Option W))
  | subscribe (id : ℕ) (zone : Zone) (waiter : S)
  | establish (id : ℕ)
  | frame (connection : ℕ) (inbound : Inbound)
  /-- A read loop's connection closes, or fails. -/
  | closed (connection : ℕ)
  | wake (zone : Zone) (timer : ℕ)
  /-- A caller drops its call, or an aborted read loop is let go. -/
  | drop (w : Worker)
  /-- A caller drops its append between the op's making and its keeping. -/
  | dropMade (id : ℕ)
  /-- A task does its next job; a frame it writes goes through, or fails. -/
  | run (w : Worker) (through : Bool)

structure GladeClient (W S : Type*) where
  session : Session
  answers : Answers W
  subscribes : Subscribes S
  writer : Option ℕ
  connections : ℕ
  /-- The read loop to abort at the next reconnect. -/
  readTask : Option ℕ
  aborted : Finset ℕ
  /-- The connections whose read loops read on. -/
  reading : Finset ℕ
  /-- The resend loops that run, each of a zone's timer. -/
  loops : List (Zone × ℕ)
  scripts : Worker → List (Job W S)

variable {W S : Type*}

/-- Ops to send again have no waiters. -/
def unawaited (ops : List Op) : List (Op × Option W) := ops.map fun op => (op, none)

def takes (ops : List (Op × Option W)) : Bool :=
  ops.all fun send => (requireOp send.1.shape send.1.payload "send_ops").toOption.isSome

/-- Send ops in one frame, if there is a connection. -/
def ship (ops : List (Op × Option W)) : List (Job W S) := if takes ops then [.check ops] else []

def shipAgain (ops : List Op) : List (Job W S) := if ops = [] then [] else ship (unawaited ops)

def abandoned (a : Abandoned S) : List (Happening W S) := a.failed.map .failed ++ a.refused.map .returned

def takeJob : Inbound → Job W S
  | .ops ops => .apply ops
  | .heads ack => .acked ack
  | .error status => .reason status
  | .notTaken => .notTaken

namespace GladeClient

def new (origin : String) : GladeClient W S :=
  { session := .new origin, answers := .new waitingBound, subscribes := .new, writer := none, connections := 0, readTask := none
    aborted := ∅, reading := ∅, loops := [], scripts := fun _ => [] }

def give (c : GladeClient W S) (w : Worker) (jobs : List (Job W S)) : GladeClient W S :=
  { c with scripts := Function.update c.scripts w jobs }

def idle (c : GladeClient W S) (w : Worker) : Bool := (c.scripts w).isEmpty

variable (C : Crypto)

/-- Hand ops to `toSend`: the answers due at once are given, and the ops let go are to
go on the wire, if any, in one frame. -/
def letGo (c : GladeClient W S) (ops : List (Op × Option W)) : GladeClient W S × List (Job W S) :=
  let (now, due, answers) := c.answers.toSend C ops
  ({ c with answers }, due.map .report ++ if now = [] then [] else [.pick now])

/-- Do a job: the client, the jobs it leads to, and what it did. -/
def doJob (c : GladeClient W S) (through : Bool) : Job W S → GladeClient W S × List (Job W S) × List (Happening W S)
  | .append a => (c, if c.writer.isSome then [.make a] else [], [])
  | .check ops => (c, if c.writer.isSome then [.letGo ops] else [], [])
  | .make a =>
    match c.session.append C a.share a.gladeId a.shape a.payload a.key with
    | .error _ => (c, [], [])
    | .ok (op, session) =>
      let (c, jobs) := { c with session }.letGo C [(op, a.waiter)]
      (c, jobs, [])
  | .letGo ops =>
    let (c, jobs) := c.letGo C ops
    (c, jobs, [])
  | .report answered => (c, [], [.answered answered])
  | .pick ops => (c, c.writer.toList.map fun connection => .write connection ops, [])
  | .write connection ops => (c, [], if through then [.wrote connection (.ops ops)] else [])
  | .subscribe zone waiter =>
    match c.writer with
    | none => (c, [], [])
    | some connection =>
      if through then ({ c with subscribes := c.subscribes.sent zone waiter }, [], [.wrote connection (.subscribe zone)])
      else (c, [], [])
  | .abortReader => ({ c with readTask := none, aborted := c.aborted ∪ c.readTask.toFinset }, [], [])
  | .unlink => ({ c with writer := none }, [], [])
  | .endSends =>
    let (answered, answers) := c.answers.ended
    ({ c with answers }, [], answered.map .answered)
  | .endSubscribes =>
    let (gone, subscribes) := c.subscribes.ended
    ({ c with subscribes }, [], abandoned gone)
  | .link connection => ({ c with writer := some connection, reading := insert connection c.reading }, [], [])
  | .keepReader connection => ({ c with readTask := some connection }, [], [])
  | .apply ops =>
    match c.session.applyRemote ops with
    | .error _ => (c, [.failed ops], [])
    | .ok session => ({ c with session }, [.received ops], [])
  | .received ops =>
    let (done, subscribes) := c.subscribes.received ops
    ({ c with subscribes }, done.map .resume, [])
  | .failed ops =>
    let (failed, subscribes) := c.subscribes.failed ops
    ({ c with subscribes }, [], failed.map .failed)
  | .acked ack =>
    match c.subscribes.acked ack with
    | (.ok done, subscribes) => ({ c with subscribes }, done.toList.map .resume, [])
    | (.error gone, subscribes) => ({ c with subscribes }, [], abandoned gone)
  | .notTaken =>
    let (gone, subscribes) := c.subscribes.notTaken
    ({ c with subscribes }, [], abandoned gone)
  | .reason status =>
    match c.subscribes.reason status with
    | (some refused, subscribes) => ({ c with subscribes }, [], [.returned refused])
    | (none, subscribes) => ({ c with subscribes }, [.refusedAfterAck status], [])
  | .refusedAfterAck status =>
    let (after, subscribes) := c.subscribes.refusedAfterAck status
    if after.zones ≠ [] then ({ c with subscribes }, [], after.subscribes.map .returned)
    else ({ c with subscribes }, [.status status], [])
  | .status status =>
    match c.answers.status c.session status with
    | (none, _, _) => (c, [], [])
    | (some answered, answers, session) => ({ c with answers, session }, [.answered answered], [])
  | .answered answered =>
    let (done, subscribes) := c.subscribes.answered answered.op answered.outcome
    ({ c with subscribes }, .report answered :: .startResending (zoneOf answered.op) :: done.map .resume, [])
  | .startResending zone =>
    match c.answers.startResending zone with
    | (none, _) => (c, [], [])
    | (some timer, answers) =>
      ({ c with answers, loops := c.loops ++ [(zone, timer)] }.give (.resender zone timer) [.nextResend zone], [], [])
  | .resume done =>
    let (share, gladeId, key) := done.zone
    ({ c with session := c.session.resumed share gladeId key },
      shipAgain (c.answers.unplacedIn done.zone) ++ [.returned done], [])
  | .returned done => (c, [], [.returned done])
  | .nextResend zone => ({ c with answers := (c.answers.nextResend zone).2 }, [], [])
  | .resendTick zone timer =>
    match c.answers.resendTick zone timer with
    | none => ({ c with loops := c.loops.erase (zone, timer) }, [], [])
    | some again => (c, shipAgain again ++ [.nextResend zone], [])

def run (c : GladeClient W S) (w : Worker) (through : Bool) : GladeClient W S × List (Happening W S) :=
  match c.scripts w with
  | [] => (c, [])
  | job :: rest =>
    let (c, more, did) := c.doJob C through job
    (c.give w (more ++ rest), did)

def call (c : GladeClient W S) (id : ℕ) (jobs : List (Job W S)) : GladeClient W S :=
  if c.idle (.call id) then c.give (.call id) jobs else c

def droppable (c : GladeClient W S) : Worker → Bool
  | .call _ => true
  | .reader connection => connection ∈ c.aborted
  | .resender _ _ => false

def step (c : GladeClient W S) : Event W S → GladeClient W S × List (Happening W S)
  | .append id a => (c.call id [.append a], [])
  | .sendOps id ops => (c.call id (ship ops), [])
  | .subscribe id zone waiter => (c.call id [.subscribe zone waiter], [])
  | .establish id =>
    let connection := c.connections
    ({ c with connections := connection + 1 }.call id
      [.abortReader, .unlink, .endSends, .endSubscribes, .link connection, .keepReader connection], [])
  | .frame connection inbound =>
    if connection ∈ c.reading ∧ c.idle (.reader connection) then (c.give (.reader connection) [takeJob inbound], []) else (c, [])
  | .closed connection =>
    if connection ∈ c.reading ∧ c.idle (.reader connection) then
      ({ c with reading := c.reading.erase connection }.give (.reader connection) [.unlink, .endSends, .endSubscribes], [])
    else (c, [])
  | .wake zone timer =>
    if (zone, timer) ∈ c.loops ∧ c.idle (.resender zone timer) then
      (c.give (.resender zone timer) [.resendTick zone timer], [])
    else (c, [])
  | .drop w =>
    if c.droppable w then
      let reading := match w with
        | .reader connection => c.reading.erase connection
        | _ => c.reading
      ({ c with reading }.give w [], [])
    else (c, [])
  | .dropMade id =>
    match c.scripts (.call id) with
    | .make a :: _ =>
      match c.session.append C a.share a.gladeId a.shape a.payload a.key with
      | .error _ => (c, [])
      | .ok (_, session) => ({ c with session }.give (.call id) [], [])
    | _ => (c, [])
  | .run w through => c.run C w through

end GladeClient

end Glade.Client
