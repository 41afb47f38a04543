import Glade.Lib.Histories
import Glade.Node.Session

/-! The serve paths of one node (`node/src/server.rs`, `accept.rs`, `router.rs`,
`mesh/serve.rs`, `mesh/home.rs`, `mesh/route.rs`): subscribes, clients' and
forwards' ops, what peers bring, the re-check of the grants, and the ends of
sessions and forwards. A task is a script, and a step does one job of one task: what
the source does under one lock, or between two waits. What a task does while it
holds the cut is a script of its own, and no other task has one meanwhile. -/

namespace Glade.Node.Serving

open Wire Store Grants

abbrev SessionId := ℕ

/-- A task: a session's loop, a forward, or another of the node's. -/
inductive Worker where
  | session (sid : SessionId)
  | forward (id : ℕ)
  | other (id : ℕ)
  deriving DecidableEq

inductive Placement where
  | here
  | up (holder : String)
  | not (reason : String)

/-- What carries a session's ops: a client's connection, or the forward of a zone
this node serves to another. -/
inductive Source where
  | client
  | forward (zone : Zone) (node : Bytes32)

structure Write where
  op : Op
  writer : SessionId

/-- A forward to the claim holder `peer`: the writes queued for it, whether it takes
more, and those it holds pending, each in the order sent. -/
structure Forward where
  zone : Zone
  peer : String
  from_ : SessionId
  queued : List Write
  closed : Bool
  pending : List Write

structure Refusal where
  sid : SessionId
  zone : Zone
  why : String

/-! ### Jobs -/

inductive Inner where
  /-- Append a session's op; `relay` is the claim holder's answer, where it gave one. -/
  | place (origin : SessionId) (op : Op) (relay : Option Error)
  | ingest (from_ : SessionId) (op : Op)
  | fanOut (from_ : SessionId) (op : Op)
  | queue (to_ : SessionId) (frame : Frame)
  /-- The grant check of a client's subscribe, and of a peer's. -/
  | admitClient (sid : SessionId) (zone : Zone) (their : SeqHeads) (forward : Option String)
  | admitPeer (sid : SessionId) (zone : Zone) (their : SeqHeads) (node : Bytes32) (chunk : ℕ)
  | enter (sid : SessionId)
  | register (sid : SessionId) (zone : Zone)
  | admitted (sid : SessionId) (node : Bytes32)
  | ackGap (sid : SessionId) (zone : Zone) (their : SeqHeads) (chunk : Option ℕ)
  | readAdmitted (generation : ℕ)
  | readEntries (generation : ℕ) (peers : Std.ExtTreeMap SessionId Bytes32)
  | recheck (generation : ℕ) (peers : Std.ExtTreeMap SessionId Bytes32) (todo : List (SessionId × Zone))
    (refused : List Refusal)
  | lapse (id : ℕ) (code : ErrorCode) (why : String)
  | tellLapsed (zone : Zone) (code : ErrorCode) (why : String)
  /-- Leave a zone; `pass` is the generation of the re-check that makes it, if one does. -/
  | unsubscribe (sid : SessionId) (zone : Zone) (pass : Option ℕ)
  | dropAdmitted (sid : SessionId)
  | shut (sid : SessionId)

inductive Job where
  /-- Wait for the cut, and do these under it. -/
  | cut (inner : List Inner)
  | send (to_ : SessionId) (frame : Frame)
  | answer (to_ : SessionId) (op : Op) (status : Error)
  | accept (sid : SessionId) (source : Source) (op : Op) (placement : Placement)
  | writeUp (write : Write) (holder : String)
  | sendUp (id : ℕ) (write : Write)
  | subscribe (sid : SessionId) (zone : Zone) (forward : Option String)
  | forwardInterest (zone : Zone) (holder : String)
  | announce (sid : SessionId) (heads : List StreamHeads)
  | bind (sid : SessionId) (principal : String)
  | replace (fold : Option Policy)
  | returned (generation : ℕ)
  | shut (sid : SessionId)
  | unsubscribeAll (sid : SessionId)
  | dropAdmitted (sid : SessionId)
  | forget (sid : SessionId)

inductive Happening where
  | opened (sid : SessionId) (source : Source)
  | replaced (generation : ℕ) (fold : Option Policy)
  | returned (generation : ℕ)
  | bound (sid : SessionId) (principal : String)
  | registered (sid : SessionId) (zone : Zone)
  /-- A subscribe's ack and gap are read, to be queued next. -/
  | acked (sid : SessionId) (zone : Zone) (their : SeqHeads) (gap : List Op)
  | appended (from_ : SessionId) (op : Op)
  | queued (worker : Worker) (sid : SessionId) (frame : Frame)
  | left (sid : SessionId) (zone : Zone) (pass : Option ℕ)
  | shut (sid : SessionId)
  | received (sid : SessionId) (ops : List Op)
  | answered (sid : SessionId) (op : Op) (status : Error)

/-! ### The state -/

/-- Of the state the node's tasks share, what serving uses; and the tasks. -/
structure Shared (C : Crypto) where
  store : Store
  disk : Disk
  router : Std.ExtTreeMap Zone (Finset SessionId)
  out : Finset SessionId
  next : SessionId
  /-- The peer streams served, each with the node it serves. -/
  admitted : Std.ExtTreeMap SessionId Bytes32
  principals : Std.ExtTreeMap SessionId String
  policy : PolicyView
  clientGrants : Bool
  heads : SessionId → Zone → SeqHeads
  forwarded : Std.ExtTreeMap Zone ℕ
  forwards : ℕ → Option Forward
  nextForward : ℕ
  loops : Std.ExtTreeMap SessionId Source
  /-- The task that holds the cut, and what it has yet to do under it. -/
  cut : Option (Worker × List Inner)
  scripts : Worker → List Job

/-- What a step takes from outside: the I/O call that fails and what the system says
of it, and whether a live link to the claim holder stands. -/
structure Env where
  fault : Option Fault
  os : String
  linked : Bool

inductive Route where
  /-- A declared exchange surface: a provider attaches. -/
  | attach
  | local_
  | forward (holder : String)
  | absent (reason : String)

inductive Sent where
  | taken
  | overLimit
  | failed

inductive Event where
  | connect
  | peerSubscribe (node : Bytes32) (zone : Zone) (from_ : SeqHeads) (chunk : ℕ)
  | hello (sid : SessionId) (heads : List StreamHeads) (principal : Option String)
  | subscribe (sid : SessionId) (zone : Zone) (route : Route)
  | ops (sid : SessionId) (ops : List Op) (routes : String → Placement)
  | disconnect (sid : SessionId)
  /-- A peer's op lands, or one of the node's own directory records. -/
  | ingest (id : ℕ) (op : Op)
  | refresh (id : ℕ) (fold : Option Policy)
  /-- A link brings a forward back. -/
  | bringBack (id : ℕ) (zone : Zone) (holder : String)
  | carry (id : ℕ) (sent : Sent)
  | arrive (id : ℕ) (ops : List Op)
  | holderAnswers (id : ℕ) (answer : Error)
  | expire (id : ℕ) (count : ℕ)
  | forwardEnds (id : ℕ) (refused : Option Error)
  | run (worker : Worker) (env : Env)

namespace Shared

variable {C : Crypto}

def new (C : Crypto) (clientGrants : Bool) : Shared C :=
  { store := Store.empty, disk := ∅, router := ∅, out := ∅, next := 1, admitted := ∅, principals := ∅
    policy := { generation := 0, fold := none }, clientGrants, heads := fun _ _ => ∅, forwarded := ∅
    forwards := fun _ => none, nextForward := 0, loops := ∅, cut := none, scripts := fun _ => [] }

def doFirst (s : Shared C) (w : Worker) (jobs : List Job) : Shared C :=
  { s with scripts := Function.update s.scripts w (jobs ++ s.scripts w) }

/-! ### The router -/

def subscribers (s : Shared C) (zone : Zone) : Finset SessionId := s.router.getD zone ∅

/-- The sessions an op of `zone` goes to, but the one it comes from. -/
def route (s : Shared C) (from_ : SessionId) (zone : Zone) : List SessionId :=
  ((s.subscribers zone).erase from_).sort (· ≤ ·)

def entries (s : Shared C) : List (SessionId × Zone) :=
  s.router.toList.flatMap fun e => (e.2.sort (· ≤ ·)).map fun sid => (sid, e.1)

def unsubscribe (s : Shared C) (sid : SessionId) (zone : Zone) : Shared C :=
  { s with router := s.router.insert zone ((s.subscribers zone).erase sid) }

/-! ### The grant checks -/

/-- The check of a client session, by the principal its Hello bound. -/
def clientCheck (s : Shared C) (sid : SessionId) (verb share : String) : Except String Unit :=
  match s.principals[sid]? with
  | none => .error (noPrincipal verb share)
  | some principal => (s.policy.check (.principal principal) verb share).mapError (refusal (.principal principal) verb share)

def nodeCheck (s : Shared C) (node : Bytes32) (verb share : String) : Except String Unit :=
  (s.policy.check (.node node) verb share).mapError (refusal (.node node) verb share)

def writeGranted (s : Shared C) (sid : SessionId) (source : Source) (share : String) : Except String Unit :=
  match source with
  | .forward _ node => s.nodeCheck node writeAppend share
  | .client => if s.clientGrants then s.clientCheck sid writeAppend share else .ok ()

def readGranted (s : Shared C) (peers : Std.ExtTreeMap SessionId Bytes32) (sid : SessionId) (share : String) :
    Except String Unit :=
  match peers[sid]? with
  | some node => s.nodeCheck node readSubscribe share
  | none => if s.clientGrants then s.clientCheck sid readSubscribe share else .ok ()

/-! ### Sending -/

def send (s : Shared C) (w : Worker) (sid : SessionId) (frame : Frame) : List Happening :=
  if sid ∈ s.out then [.queued w sid frame] else []

/-- `ops` in order, in chunks of at most 64 ops and, but for one alone, of at most `bytes` bytes. -/
def chunked (bytes : ℕ) : List Op → List Op → ℕ → List (List Op)
  | [], chunk, _ => if chunk = [] then [] else [chunk]
  | op :: ops, chunk, held =>
    let size := op.encoding.length
    if (chunk.length = 64 ∨ bytes < held + size) ∧ chunk ≠ [] then chunk :: chunked bytes ops [op] size
    else chunked bytes ops (chunk ++ [op]) (held + size)

def refuse (zone : Zone) (code : ErrorCode) (why : String) (pass : Option ℕ) (sid : SessionId) : List Inner :=
  [.unsubscribe sid zone pass, .queue sid (refusalFrame code why zone), .dropAdmitted sid]

def zonesOf (s : Shared C) (sid : SessionId) : List Zone :=
  (s.router.toList.filter fun e => sid ∈ e.2).map Prod.fst

/-! ### Under the cut -/

def statusOf (C : Crypto) (os : String) (op : Op) : Except StoreError Append → Error
  | .ok .appended => opStatus C op .ok "appended"
  | .ok .duplicate => opStatus C op .ok "already held"
  | .ok .belowRetained => opStatus C op .retention s!"({op.origin},{op.seq}) is below the first seq its chain holds"
  | .error e => errorFrame C os op e

/-- The answer a writer gets: the claim holder's where it took the op and this node
holds it, else this node's own. -/
def relayed (status : Error) : Option Error → Error
  | none => status
  | some answer => if status.code = .ok then answer else status

/-- A session's heads take the seq of an op the node holds. -/
def hold (s : Shared C) (sid : SessionId) (op : Op) : Shared C :=
  let held := Function.update (s.heads sid) (zoneOf op) (raise (s.heads sid (zoneOf op)) op.origin op.seq)
  { s with heads := Function.update s.heads sid held }

/-- Do a job under the cut: the state, the jobs it leads to there, and what it did. -/
def doInner (s : Shared C) (w : Worker) (env : Env) : Inner → Shared C × List Inner × List Happening
  | .place origin op relay =>
    let (answer, store, disk) := Store.append C s.store s.disk op env.fault
    let s := { s with store, disk }
    let s := s.doFirst w [.answer origin op (relayed (statusOf C env.os op answer) relay)]
    match answer with
    | .ok .appended => (s.hold origin op, [.fanOut origin op], [.appended origin op])
    | .ok .duplicate => (s.hold origin op, [], [])
    | _ => (s, [], [])
  | .ingest from_ op =>
    let (answer, store, disk) := Store.append C s.store s.disk op env.fault
    let s := { s with store, disk }
    match answer with
    | .ok .appended => (s, [.fanOut from_ op], [.appended from_ op])
    | _ => (s, [], [])
  | .fanOut from_ op => (s, (s.route from_ (zoneOf op)).map fun sid => .queue sid (.ops [op]), [])
  | .queue to_ frame => (s, [], s.send w to_ frame)
  | .admitClient sid zone their forward =>
    let checked := if zone.1 ≠ home ∧ s.clientGrants then s.clientCheck sid readSubscribe zone.1 else .ok ()
    match checked with
    | .error why => (s.doFirst w ((refusedSubscribe .unauthorized why zone).map (.send sid ·)), [], [])
    | .ok () =>
      (s.doFirst w (forward.toList.map (.forwardInterest zone ·)), [.register sid zone, .ackGap sid zone their none], [])
  | .admitPeer sid zone their node chunk =>
    let checked := if zone.1 ≠ home then s.nodeCheck node readSubscribe zone.1 else .ok ()
    match checked with
    | .error _ => ({ s with loops := s.loops.erase sid }, [], [])
    | .ok () => (s, [.enter sid, .register sid zone, .admitted sid node, .ackGap sid zone their (some chunk)], [])
  | .enter sid => ({ s with out := insert sid s.out }, [], [])
  | .register sid zone =>
    ({ s with router := s.router.insert zone (insert sid (s.subscribers zone)) }, [], [.registered sid zone])
  | .admitted sid node => ({ s with admitted := s.admitted.insert sid node }, [], [])
  | .ackGap sid zone their chunk =>
    let gap := missingFor C s.store zone their
    let frames := match chunk with
      | none => if gap = [] then [] else [gap]
      | some bytes => chunked bytes gap [] 0
    (s, .queue sid (ack C s.store zone) :: frames.map (fun ops => .queue sid (.ops ops)), [.acked sid zone their gap])
  | .readAdmitted generation => (s, [.readEntries generation s.admitted], [])
  | .readEntries generation peers => (s, [.recheck generation peers s.entries []], [])
  | .recheck generation _ [] refused =>
    (s, refused.flatMap fun r => refuse r.zone .unauthorized r.why (some generation) r.sid, [])
  | .recheck generation peers ((sid, zone) :: todo) refused =>
    if zone.1 = home then (s, [.recheck generation peers todo refused], [])
    else
      match s.readGranted peers sid zone.1 with
      | .ok () => (s, [.recheck generation peers todo refused], [])
      | .error why => (s, [.recheck generation peers todo (refused ++ [{ sid, zone, why }])], [])
  | .lapse id code why =>
    match s.forwards id with
    | none => (s, [], [])
    | some forward => ({ s with forwarded := s.forwarded.erase forward.zone }, [.tellLapsed forward.zone code why], [])
  | .tellLapsed zone code why =>
    (s, (s.entries.filter fun e => e.2 = zone).flatMap fun e => refuse zone code why none e.1, [])
  | .unsubscribe sid zone pass =>
    (s.unsubscribe sid zone, [], if sid ∈ s.subscribers zone then [.left sid zone pass] else [])
  | .dropAdmitted sid =>
    if sid ∈ s.admitted then ({ s with admitted := s.admitted.erase sid }, [.shut sid], []) else (s, [], [])
  | .shut sid => ({ s with out := s.out.erase sid }, [], if sid ∈ s.out then [.shut sid] else [])

/-! ### Without the cut -/

/-- What a forward's end says to those it served. -/
def ending (peer share : String) : Option Error → ErrorCode × String
  | some refused => (refused.code, s!"refused by node {peer}, which serves {share}: {refused.message}")
  | none => (.unknownShare, s!"forward from node {peer} ended")

def unreachable (holder : String) : String := s!"claim holder {holder} unreachable (no live peer link)"

/-- Start a forward of `zone` to `holder`: its id, and the state. -/
def openForward (s : Shared C) (zone : Zone) (holder : String) : ℕ × Shared C :=
  (s.nextForward, { s with
    forwards := Function.update s.forwards s.nextForward
      (some { zone, peer := holder, from_ := s.next, queued := [], closed := false, pending := [] })
    forwarded := s.forwarded.insert zone s.nextForward
    nextForward := s.nextForward + 1
    next := s.next + 1 })

/-- The answer to a client's op on the home share, to its stream op, and to a
forward's op of another zone. -/
def homeRefused (C : Crypto) (op : Op) : Error :=
  opStatus C op .unauthorized s!"refused: only the node writes the {home} share (H-R3)"

def streamRefused (C : Crypto) (op : Op) : Error :=
  opStatus C op .protocol "refused: stream has no op path; a stream is a live channel, never stored"

def offZone (C : Crypto) (op : Op) (zone : Zone) : Error :=
  opStatus C op .protocol s!"refused: the forward of {zone.1} {zone.2.1} carries no other zone's op"

/-- An op's placement; a forward's is taken here or nowhere. -/
def placed (C : Crypto) (sid : SessionId) (source : Source) (op : Op) : Placement → Job
  | .here => .cut [.place sid op none]
  | .not reason => .answer sid op (opStatus C op .unknownShare reason)
  | .up holder =>
    match source with
    | .client => .writeUp { op, writer := sid } holder
    | .forward _ _ => .answer sid op (opStatus C op .unknownShare s!"{op.share} is served by node {holder}, not by this node")

/-- Decide one op of a session's: what is done with it, or its answer. -/
def acceptance (s : Shared C) (sid : SessionId) (source : Source) (op : Op) (placement : Placement) : Job :=
  if op.share = home then .answer sid op (homeRefused C op)
  else if op.shape = .stream then .answer sid op (streamRefused C op)
  else
    match s.writeGranted sid source op.share with
    | .error why => .answer sid op (opStatus C op .unauthorized why)
    | .ok () =>
      match source with
      | .client => placed C sid source op placement
      | .forward zone _ => if inZone op zone then placed C sid source op placement else .answer sid op (offZone C op zone)

/-- Do a job without the cut: the state, and the jobs it leads to. -/
def doJob (s : Shared C) (w : Worker) (env : Env) : Job → Shared C × List Job × List Happening
  | .cut _ => (s, [], [])
  | .send to_ frame => (s, [], s.send w to_ frame)
  | .answer to_ op status => (s, [], if to_ ∈ s.out then [.answered to_ op status] else [])
  | .accept sid source op placement => (s, [s.acceptance sid source op placement], [])
  | .writeUp write holder =>
    match s.forwarded[zoneOf write.op]? with
    | some id => (s, [.sendUp id write], [])
    | none =>
      if env.linked then
        let (id, s) := s.openForward (zoneOf write.op) holder
        (s, [.sendUp id write], [])
      else (s, [.answer write.writer write.op (opStatus C write.op .unknownShare (unreachable holder))], [])
  | .sendUp id write =>
    match s.forwards id with
    | none => (s, [], [])
    | some forward =>
      if forward.closed then
        (s, [.answer write.writer write.op (opStatus C write.op .unknownShare
          s!"forward from node {forward.peer} ended")], [])
      else
        ({ s with forwards := Function.update s.forwards id (some { forward with queued := forward.queued ++ [write] }) },
          [], [])
  | .subscribe sid zone forward => (s, [.cut [.admitClient sid zone (s.heads sid zone) forward]], [])
  | .forwardInterest zone holder =>
    match s.forwarded[zone]? with
    | some _ => (s, [], [])
    | none => if env.linked then ((s.openForward zone holder).2, [], []) else (s, [], [])
  | .announce sid heads =>
    let zoneOf := fun sh : StreamHeads => (sh.share, sh.gladeId, sh.key)
    let raised := fun (m : Zone → SeqHeads) (sh : StreamHeads) =>
      Function.update m (zoneOf sh) (sh.heads.foldl (fun m h => raise m h.origin h.seq) (m (zoneOf sh)))
    ({ s with heads := Function.update s.heads sid (heads.foldl raised (s.heads sid)) }, [], [])
  | .bind sid principal => ({ s with principals := s.principals.insert sid principal }, [], [.bound sid principal])
  | .replace fold =>
    let policy := s.policy.replace fold
    ({ s with policy }, [.cut [.readAdmitted policy.generation], .returned policy.generation],
      [.replaced policy.generation fold])
  | .returned generation => (s, [], [.returned generation])
  | .shut sid => ({ s with out := s.out.erase sid }, [], if sid ∈ s.out then [.shut sid] else [])
  | .unsubscribeAll sid =>
    ({ s with router := s.router.map fun _ set => set.erase sid }, [], (s.zonesOf sid).map fun zone => .left sid zone none)
  | .dropAdmitted sid => ({ s with admitted := s.admitted.erase sid }, [], [])
  | .forget sid => ({ s with principals := s.principals.erase sid }, [], [])

/-! ### Events -/

def idle (s : Shared C) (w : Worker) : Prop := s.scripts w = [] ∧ s.cut.map Prod.fst ≠ some w

def give (s : Shared C) (w : Worker) (jobs : List Job) : Shared C :=
  { s with scripts := Function.update s.scripts w jobs }

def setCut (s : Shared C) (cut : Option (Worker × List Inner)) : Shared C := { s with cut }

/-- A task does its next job: under the cut where it holds it, else in its script. -/
def run (s : Shared C) (w : Worker) (env : Env) : Shared C × List Happening :=
  match s.cut with
  | some (holder, inner) =>
    if holder = w then
      match inner with
      | [] => (s.setCut none, [])
      | job :: rest =>
        let (s, more, did) := s.doInner w env job
        (s.setCut (some (w, more ++ rest)), did)
    else
      match s.scripts w with
      | [] => (s, [])
      | .cut _ :: _ => (s, [])
      | job :: rest =>
        let (s, more, did) := (s.give w rest).doJob w env job
        (s.doFirst w more, did)
  | none =>
    match s.scripts w with
    | [] => (s, [])
    | .cut inner :: rest => ((s.give w rest).setCut (some (w, inner)), [])
    | job :: rest =>
      let (s, more, did) := (s.give w rest).doJob w env job
      (s.doFirst w more, did)

def answering (C : Crypto) (code : ErrorCode) (why : String) (write : Write) : Job :=
  .answer write.writer write.op (opStatus C write.op code why)

/-- A forward ends: it takes no more, each write it has is answered, and its zone lapses. -/
def endForward (s : Shared C) (id : ℕ) (forward : Forward) (refused : Option Error) : Shared C :=
  let (code, why) := ending forward.peer forward.zone.1 refused
  let answers := (forward.pending ++ forward.queued).map (answering C code why)
  let ended := { forward with closed := true, pending := [], queued := [] }
  { s with forwards := Function.update s.forwards id (some ended) }.give (.forward id) (answers ++ [Job.cut [.lapse id code why]])

/-- The first write held whose op the answer names. -/
def answeredIn (C : Crypto) (pending : List Write) (answer : Error) : Option Write :=
  pending.find? fun write => answer.corr = some (hex (opHash C write.op).val)

/-- How long a forward waits for an answer, in seconds. -/
def forwardTimeout : ℕ := 12

/-- What a forward that runs does with what comes to it. -/
def stepForward (s : Shared C) (id : ℕ) (forward : Forward) : Event → Shared C × List Happening
  | .carry _ sent =>
    match forward.queued with
    | [] => (s, [])
    | write :: queued =>
      match sent with
      | .taken =>
        let carried := { forward with queued, pending := forward.pending ++ [write] }
        ({ s with forwards := Function.update s.forwards id (some carried) }, [])
      | .overLimit =>
        let why := "refused: the op is over the peer link's frame limit"
        ({ s with forwards := Function.update s.forwards id (some { forward with queued }) }.give (.forward id)
          [answering C .protocol why write], [])
      | .failed => (s.endForward id { forward with queued, pending := forward.pending ++ [write] } none, [])
  | .arrive _ ops =>
    (s.give (.forward id) ((ops.filter (inZone · forward.zone)).map fun op => Job.cut [.ingest forward.from_ op]), [])
  | .holderAnswers _ answer =>
    match answeredIn C forward.pending answer with
    | none => (s, [])
    | some write =>
      let settled := if answer.code = .ok then Job.cut [.place write.writer write.op (some answer)]
        else .answer write.writer write.op answer
      let rest := forward.pending.eraseP fun write => answer.corr = some (hex (opHash C write.op).val)
      ({ s with forwards := Function.update s.forwards id (some { forward with pending := rest }) }.give (.forward id)
        [settled], [])
  | .expire _ count =>
    let unanswered := s!"no answer from node {forward.peer} in {forwardTimeout} s"
    ({ s with forwards := Function.update s.forwards id (some { forward with pending := forward.pending.drop count }) }.give
      (.forward id) ((forward.pending.take count).map (answering C .unknownShare unanswered)), [])
  | .forwardEnds _ refused => (s.endForward id forward refused, [])
  | _ => (s, [])

instance (s : Shared C) (w : Worker) : Decidable (s.idle w) :=
  decidable_of_iff ((s.scripts w).isEmpty = true ∧ s.cut.map Prod.fst ≠ some w) (by rw [idle, List.isEmpty_iff])

/-- An event of a forward's, while it runs and has nothing else to do. -/
def forwardRuns (s : Shared C) (id : ℕ) (e : Event) : Shared C × List Happening :=
  match s.forwards id with
  | some forward => if s.idle (.forward id) ∧ forward.closed = false then s.stepForward id forward e else (s, [])
  | none => (s, [])

def step (s : Shared C) : Event → Shared C × List Happening
  | .connect =>
    ({ s with out := insert s.next s.out, loops := s.loops.insert s.next .client, next := s.next + 1 },
      [.opened s.next .client])
  | .peerSubscribe node zone from_ chunk =>
    ({ s with loops := s.loops.insert s.next (.forward zone node), next := s.next + 1 }.give (.session s.next)
      [.cut [.admitPeer s.next zone from_ node chunk]], [.opened s.next (.forward zone node)])
  | .hello sid heads principal =>
    match s.loops[sid]? with
    | some .client =>
      let named := principal.filter fun p => p ≠ "" ∧ ¬ namesANode p
      if s.idle (.session sid) then
        (s.give (.session sid) (.announce sid heads :: named.toList.map (.bind sid ·) ++ [.send sid .welcome]), [])
      else (s, [])
    | _ => (s, [])
  | .subscribe sid zone route =>
    match s.loops[sid]? with
    | some .client =>
      if s.idle (.session sid) then
        match route with
        | .attach =>
          let surface : StreamHeads := { share := zone.1, gladeId := zone.2.1, key := zone.2.2, heads := [] }
          (s.give (.session sid) [.send sid (.heads { streams := [surface] })], [])
        | .absent reason => (s.give (.session sid) ((refusedSubscribe .unknownShare reason zone).map (.send sid ·)), [])
        | .local_ => (s.give (.session sid) [.subscribe sid zone none], [])
        | .forward holder => (s.give (.session sid) [.subscribe sid zone (some holder)], [])
      else (s, [])
    | _ => (s, [])
  | .ops sid ops routes =>
    match s.loops[sid]? with
    | some source =>
      if s.idle (.session sid) then
        (s.give (.session sid) (ops.map fun op => .accept sid source op (routes op.share)), [.received sid ops])
      else (s, [])
    | none => (s, [])
  | .disconnect sid =>
    match s.loops[sid]? with
    | some source =>
      if s.idle (.session sid) then
        let last := match source with
          | .client => Job.forget sid
          | .forward _ _ => .dropAdmitted sid
        ({ s with loops := s.loops.erase sid }.give (.session sid) [.shut sid, .unsubscribeAll sid, last], [])
      else (s, [])
    | none => (s, [])
  | .ingest id op =>
    if s.idle (.other id) then ({ s with next := s.next + 1 }.give (.other id) [.cut [.ingest s.next op]], []) else (s, [])
  | .refresh id fold => if s.idle (.other id) then (s.give (.other id) [.replace fold], []) else (s, [])
  | .bringBack id zone holder =>
    if s.idle (.other id) then (s.give (.other id) [.forwardInterest zone holder], []) else (s, [])
  | .run w env => s.run w env
  | .carry id sent => s.forwardRuns id (.carry id sent)
  | .arrive id ops => s.forwardRuns id (.arrive id ops)
  | .holderAnswers id answer => s.forwardRuns id (.holderAnswers id answer)
  | .expire id count => s.forwardRuns id (.expire id count)
  | .forwardEnds id refused => s.forwardRuns id (.forwardEnds id refused)

end Shared

/-- A run's state, and what it did; `clientGrants` says whether client sessions are checked. -/
def runOf (C : Crypto) (clientGrants : Bool) (events : List Event) : Shared C × List Happening :=
  Histories.run Shared.step (.new C clientGrants) events

end Glade.Node.Serving
