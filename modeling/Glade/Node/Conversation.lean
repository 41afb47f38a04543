import Glade.Lib.Histories
import Glade.Lib.Words
import Glade.Node.Chunks
import Glade.Node.Session
import Glade.Node.Side

/-! A carrier link after its HELLO and the conversations it carries
(`node/src/conversation.rs`): each end's table, its writer and its reader, and the calls
of whoever holds a conversation. The link delivers each direction's frames whole and in
order until it ends, which it may at any time. A step holds the table's lock, or is one
the writer or the reader makes between two waits. -/

namespace Glade.Node.Conversations

open Wire Words

/-! ### Frames -/

/-- What follows a header. -/
inductive Kind where
  | frame
  | ending
  | reset
  deriving DecidableEq

def Kind.code : Kind → UInt8
  | .frame => 0
  | .ending => 1
  | .reset => 2

/-- A frame of a link: a conversation's number, a kind and what follows. -/
structure LinkFrame where
  id : ℕ
  kind : Kind
  body : Bytes
  deriving DecidableEq

def LinkFrame.encode (f : LinkFrame) : Bytes := leBytes 4 f.id ++ [f.kind.code] ++ f.body

/-- A conversation's END or RESET: a header alone. -/
def marker (id : ℕ) (kind : Kind) : LinkFrame := { id, kind, body := [] }

def kindOf (code : UInt8) : Option Kind :=
  if code = 0 then some .frame else if code = 1 then some .ending else if code = 2 then some .reset else none

/-- A frame's number, kind and body; none for a frame too short for its header, or of a
kind no end sends. -/
def readHeader (bytes : Bytes) : Option LinkFrame :=
  if bytes.length < header then none
  else (kindOf (bytes.getD 4 0)).map fun kind => { id := ofLe (bytes.take 4), kind, body := bytes.drop header }

theorem readHeader_encode {f : LinkFrame} (h : f.id < 2 ^ 32) : readHeader f.encode = some f := by
  have hlen : ¬ f.encode.length < header := by
    simp only [LinkFrame.encode, header, List.length_append, length_leBytes, List.length_singleton, not_lt]
    omega
  have hcode : f.encode.getD 4 0 = f.kind.code := by simp [LinkFrame.encode, leBytes]
  have hkind : kindOf f.kind.code = some f.kind := by cases f.kind <;> rfl
  have hid : ofLe (f.encode.take 4) = f.id := by
    have htake : f.encode.take 4 = leBytes 4 f.id := by simp [LinkFrame.encode, leBytes]
    rw [htake, ofLe_leBytes]
    exact Nat.mod_eq_of_lt h
  have hbody : f.encode.drop header = f.body := by simp [LinkFrame.encode, leBytes, header]
  rw [readHeader, if_neg hlen, hcode, hkind, hid, hbody]
  rfl

/-! ### An end of a link -/

/-- How many frames a conversation's queue holds before the reader waits. -/
def queueSize : ℕ := 16

/-- How many conversations the peer may hold open at once. -/
def peerOpen : ℕ := 100

/-- What a conversation's queue holds: a frame, or the peer's END. -/
inductive Item where
  | frame (bytes : Bytes)
  | ending
  deriving DecidableEq

/-- A conversation as its holder has it, until it ends or drops it: its number once its
first frame is queued, its queue, and whether the peer's END has been read. -/
structure Conversation where
  number : Option ℕ
  queue : List Item
  finished : Bool
  held : Bool

/-- One open conversation, as the reader and this end see it: where the reader puts its
frames, until the peer ends it, and whether this end has sent its END. -/
structure Route where
  tx : Option ℕ
  done : Bool

/-- What the writer is given. -/
inductive Out where
  | send (frame : Bytes)
  | close

inductive Writer where
  | sending
  /-- It sends nothing more, and closes the link. -/
  | closing
  | gone
  deriving DecidableEq

inductive Reader where
  | receiving
  /-- It waits while a queue is full. -/
  | delivering (h : ℕ) (item : Item)
  | stopped

/-- An end: its frame limit, its table, its tasks, and every conversation it has made. -/
structure Linked where
  max : ℕ
  next : ℕ
  peerHigh : ℕ
  routes : Std.ExtTreeMap ℕ Route
  ended : Bool
  out : List Out
  writer : Writer
  reader : Reader
  conversations : ℕ → Option Conversation
  made : ℕ

/-- What the reader does with a frame. -/
inductive Routed where
  | deliver (h : ℕ) (item : Item)
  | opened (conversation : ℕ)
  | dropped

/-- Why a receive fails. -/
inductive RecvError where
  /-- It sends before it receives. -/
  | unsent
  | reset
  | gone
  deriving DecidableEq

namespace Linked

def start (side : Side) (max : ℕ) : Linked where
  max
  next := if side = .dialer then 1 else 2
  peerHigh := 0
  routes := ∅
  ended := false
  out := []
  writer := .sending
  reader := .receiving
  conversations := fun _ => none
  made := 0

def set (l : Linked) (h : ℕ) (c : Conversation) : Linked :=
  { l with conversations := Function.update l.conversations h (some c) }

/-- A new conversation. -/
def make (l : Linked) (c : Conversation) : ℕ × Linked := (l.made, { l.set l.made c with made := l.made + 1 })

/-- A conversation of this end's. -/
def open_ (l : Linked) : ℕ × Linked := l.make { number := none, queue := [], finished := false, held := true }

/-- Queue a frame for the writer, and what was queued. -/
def queue (l : Linked) (f : LinkFrame) : Linked × List LinkFrame :=
  if l.writer = .gone then (l, []) else ({ l with out := l.out ++ [.send f.encode] }, [f])

/-- Queue a frame for the conversation `h`, which takes this end's next number if it has
none. What was queued is nothing when the call fails. -/
def put (l : Linked) (h : ℕ) (c : Conversation) (body : Bytes) : Linked × List LinkFrame :=
  if l.ended then (l, [])
  else
    match c.number with
    | some id => l.queue { id, kind := .frame, body }
    | none =>
      let id := l.next
      if 2 ^ 32 ≤ id + 2 then (l, [])
      else
        let l := { l with next := id + 2, routes := l.routes.insert id { tx := some h, done := false } }
        (l.set h { c with number := some id }).queue { id, kind := .frame, body }

/-- This end is done with a conversation, by its END or a RESET. One that never sent is
known to no one, and sends nothing. -/
def finish (l : Linked) (c : Conversation) (kind : Kind) : Linked × List LinkFrame :=
  match c.number with
  | none => (l, [])
  | some id =>
    let (l, queued) := if l.ended then (l, []) else l.queue (marker id kind)
    match l.routes[id]? with
    | none => (l, queued)
    | some route =>
      if kind = .reset ∨ route.tx = none then ({ l with routes := l.routes.erase id }, queued)
      else ({ l with routes := l.routes.insert id { route with done := true } }, queued)

/-- How many conversations the peer holds open. -/
def peers (l : Linked) (parity : ℕ) : ℕ := (l.routes.keys.filter fun id => id % 2 = parity).length

/-- Where the reader puts a frame; the peer's numbers are those of `parity`. -/
def route (l : Linked) (f : LinkFrame) (parity : ℕ) : Linked × Routed × List LinkFrame :=
  match l.routes[f.id]? with
  | some { tx := none, .. } => (l, .dropped, [])
  | some { tx := some h, done } =>
    if f.kind = .frame then (l, .deliver h (.frame f.body), [])
    else
      -- The peer sends nothing more.
      let l := { l with routes := if done then l.routes.erase f.id else l.routes.insert f.id { tx := none, done } }
      (l, if f.kind = .ending then .deliver h .ending else .dropped, [])
  | none =>
    if f.id % 2 ≠ parity ∨ f.id ≤ l.peerHigh then (l, .dropped, [])
    else
      let held := l.peers parity
      let l := { l with peerHigh := f.id }
      if f.kind = .reset then (l, .dropped, [])
      else if peerOpen ≤ held then
        let (l, queued) := l.queue (marker f.id .reset)
        (l, .dropped, queued)
      else
        let first := if f.kind = .frame then .frame f.body else .ending
        let (h, l) := l.make { number := some f.id, queue := [first], finished := false, held := true }
        let tx := if f.kind = .frame then some h else none
        ({ l with routes := l.routes.insert f.id { tx, done := false } }, .opened h, [])

/-- The link has ended: every open conversation reads an error, and the writer closes. -/
def linkEnded (l : Linked) : Linked :=
  { l with ended := true, routes := ∅, out := l.out ++ [.close], reader := .stopped }

/-- Whether a conversation's queue may get more: the reader, or its route, has its
sending half. -/
def fed (l : Linked) (h : ℕ) : Bool :=
  (match l.reader with
    | .delivering h' _ => h' = h
    | _ => false) || l.routes.toList.any fun e => e.2.tx = some h

/-- The conversation `h` while it is held. -/
def held (l : Linked) (h : ℕ) : Option Conversation := (l.conversations h).filter fun c => c.held

end Linked

/-! ### What happens at an end -/

inductive Happening where
  | opened (h : ℕ)
  /-- A conversation the peer opened goes to the handler. -/
  | handed (h id : ℕ)
  /-- A send that is not refused. -/
  | sent (h : ℕ) (frame : Bytes)
  | refused (h : ℕ)
  | read (h : ℕ) (frame : Bytes)
  /-- A receive answers a clean end. -/
  | readEnd (h : ℕ)
  | readError (h : ℕ) (why : RecvError)
  | ended (h : ℕ)
  | dropped (h : ℕ)
  /-- A frame is queued for the writer. -/
  | queued (f : LinkFrame)
  /-- The reader takes a frame off the link. -/
  | taken (f : LinkFrame)
  deriving DecidableEq

/-- What an end does, or what is done to it. -/
inductive Act where
  | open_
  | send (h : ℕ) (frame : Bytes)
  | recv (h : ℕ)
  | end_ (h : ℕ)
  | drop (h : ℕ)
  /-- End the link, from anywhere. -/
  | endLink
  /-- No one holds the end any more. -/
  | release
  /-- The reader's frame goes into its queue. -/
  | deliver
  /-- The reader finds the link ended. -/
  | lost
  /-- The writer's next turn; the link takes its frame, or does not. -/
  | write (ok : Bool)
  /-- The reader takes the link's next frame. -/
  | read

namespace Linked

def send (l : Linked) (h : ℕ) (c : Conversation) (frame : Bytes) : Linked × List Happening :=
  if l.max < header + frame.length then (l, [.refused h])
  else
    let (l, queued) := l.put h c frame
    (l, queued.map .queued ++ [if queued = [] then .refused h else .sent h frame])

def recv (l : Linked) (h : ℕ) (c : Conversation) : Linked × List Happening :=
  if c.finished then (l, [.readEnd h])
  else if c.number = none then (l, [.readError h .unsent])
  else
    match c.queue with
    | .frame bytes :: queue => (l.set h { c with queue }, [.read h bytes])
    | .ending :: queue => (l.set h { c with queue, finished := true }, [.readEnd h])
    | [] => if l.fed h then (l, []) else (l, [.readError h (if l.ended then .gone else .reset)])

/-- The holder's half of a conversation is gone, its queue with it. -/
def letGo (l : Linked) (h : ℕ) (c : Conversation) (kind : Kind) (did : Happening) : Linked × List Happening :=
  let (l, queued) := l.finish c kind
  (l.set h { c with queue := [], held := false }, queued.map .queued ++ [did])

/-- A call of whoever holds a conversation, if it is held. -/
def call (l : Linked) (h : ℕ) (f : Conversation → Linked × List Happening) : Linked × List Happening :=
  match l.held h with
  | none => (l, [])
  | some c => f c

def deliver (l : Linked) : Linked :=
  match l.reader with
  | .delivering h item =>
    match l.held h with
    | none => { l with reader := .receiving }
    | some c =>
      if queueSize ≤ c.queue.length then l else { l.set h { c with queue := c.queue ++ [item] } with reader := .receiving }
  | _ => l

/-- What an end does of itself. -/
def does (l : Linked) : Act → Linked × List Happening
  | .open_ =>
    let (h, l) := l.open_
    (l, [.opened h])
  | .send h frame => l.call h fun c => l.send h c frame
  | .recv h => l.call h fun c => l.recv h c
  | .end_ h => l.call h fun c => l.letGo h c .ending (.ended h)
  | .drop h => l.call h fun c => l.letGo h c .reset (.dropped h)
  | .endLink => ({ l with ended := true, out := l.out ++ [.close] }, [])
  | .release =>
    match l.reader with
    | .receiving => if ∀ h < l.made, l.held h = none then (l.linkEnded, []) else (l, [])
    | _ => (l, [])
  | .deliver => (l.deliver, [])
  | .lost =>
    match l.reader with
    | .receiving => (l.linkEnded, [])
    | _ => (l, [])
  | .write _ | .read => (l, [])

/-- A turn of the writer's, and the frame it puts on the link. -/
def write (l : Linked) (ok : Bool) : Linked × Option Bytes :=
  match l.writer, l.out with
  | .sending, .send frame :: out => if ok then ({ l with out }, some frame) else ({ l with writer := .closing }, none)
  | .sending, .close :: _ => ({ l with writer := .closing }, none)
  | .sending, [] => (l, none)
  | .closing, _ => ({ l with writer := .gone }, none)
  | .gone, _ => (l, none)

/-- The reader takes a frame off the link. -/
def take (l : Linked) (parity : ℕ) (bytes : Bytes) : Linked × List Happening :=
  match readHeader bytes with
  | none => (l.linkEnded, [])
  | some f =>
    match l.route f parity with
    | (l, .deliver h item, queued) => ({ l with reader := .delivering h item }, .taken f :: queued.map .queued)
    | (l, .opened h, queued) => (l, .taken f :: queued.map .queued ++ [.handed h f.id])
    | (l, .dropped, queued) => (l, .taken f :: queued.map .queued)

end Linked

/-! ### The link -/

/-- The two ends, and the frames each has put on the link that the other has not taken. -/
structure Link where
  ends : Side → Linked
  wire : Side → List Bytes

namespace Link

def new (max : Side → ℕ) : Link := { ends := fun e => .start e (max e), wire := fun _ => [] }

def set (s : Link) (e : Side) (l : Linked) : Link := { s with ends := Function.update s.ends e l }

def setWire (s : Link) (e : Side) (frames : List Bytes) : Link := { s with wire := Function.update s.wire e frames }

def step (s : Link) (e : Side) : Act → Link × List Happening
  | .write ok =>
    let (l, frame) := (s.ends e).write ok
    ((s.set e l).setWire e (s.wire e ++ frame.toList), [])
  | .read =>
    match (s.ends e).reader, s.wire e.other with
    | .receiving, bytes :: rest =>
      let (l, did) := (s.ends e).take e.other.parity bytes
      ((s.set e l).setWire e.other rest, did)
    | _, _ => (s, [])
  | act =>
    let (l, did) := (s.ends e).does act
    (s.set e l, did)

/-- A run from a link's start, and what happens at its ends. -/
def runOf (max : Side → ℕ) (acts : List (Side × Act)) : Link × List (Side × Happening) :=
  Histories.run (fun s p => ((s.step p.1 p.2).1, (s.step p.1 p.2).2.map fun x => (p.1, x))) (new max) acts

end Link

end Glade.Node.Conversations
