import Glade.Lib.Frames
import Glade.Lib.Histories
import Glade.Node.Side
import Glade.Wire.Cbor

/-! A link of the iroh carrier (`node/src/iroh_carrier.rs`): the two halves of each end, each
behind its own lock, and the calls that send, receive and close, any number of them at
once, each of which may be dropped where it waits. The stream each end writes is a pipe of
bytes that says how many it takes and gives; it may fail at any time. A step is what one
call does between two waits. -/

namespace Glade.Node.IrohLinks

open Wire Words

inductive CarrierError where
  | closed
  | frameTooLarge
  | transport
  deriving DecidableEq

structure Sending where
  /-- A send is under way, or was dropped part-way: its frame may be torn. -/
  torn : Bool

structure Receiving where
  /-- What has arrived of the next frame. -/
  buf : Bytes

/-- A half behind its lock: the call that has the lock, and those it goes to after, in turn. -/
structure Half (α : Type) where
  holder : Option ℕ
  waiting : List ℕ
  half : Option α

namespace Half

variable {α : Type}

def release (h : Half α) : Half α := { h with holder := h.waiting.head?, waiting := h.waiting.tail }

def quit (h : Half α) (id : ℕ) : Half α :=
  if h.holder = some id then h.release else { h with waiting := h.waiting.filter (· ≠ id) }

end Half

inductive Call where
  | send (frame : Bytes)
  /-- For the stream to take the rest of its frame. -/
  | writing (frame rest : Bytes)
  | recv
  | reading (wanted : ℕ)
  /-- A close, until the peer has all that was sent; with the link's connection, or without. -/
  | draining (held : Bool)

/-- How a receive comes to answer that the stream has ended. -/
inductive EndedBy where
  | here
  /-- The peer finished its stream, between two frames. -/
  | finished
  /-- The peer closed the connection, between two frames. -/
  | closed
  deriving DecidableEq

inductive Happening where
  | sent (frame : Bytes)
  | sendFailed (why : CarrierError)
  | cut
  | wrote (bytes : Bytes)
  | took (bytes : Bytes)
  | received (frame : Bytes)
  | recvFailed (why : CarrierError)
  | recvEnded (why : EndedBy)
  | ended
  | closed
  | panicked
  deriving DecidableEq

/-- One end of a link, with what it did to the transport: its send stream finished, its
connection closed. -/
structure LinkState where
  max : ℕ
  ended : Bool
  held : Bool
  send : Half Sending
  recv : Half Receiving
  calls : ℕ → Option Call
  finished : Bool
  closed : Bool

structure Ended where
  sending : Option Sending
  held : Bool

/-- The next whole frame in `buf`, and what follows it. -/
def nextFrame (buf : Bytes) (max : ℕ) : Option (Except CarrierError (Bytes × Bytes)) :=
  if buf.length < 4 then none
  else
    let len := ofLe (buf.take 4)
    if max < len then some (.error .frameTooLarge)
    else if buf.length < 4 + len then none
    else some (.ok ((buf.drop 4).take len, buf.drop (4 + len)))

/-- How many bytes the current frame lacks; none where the subtraction would wrap. -/
def remaining (buf : Bytes) : Option ℕ :=
  if buf.length < 4 then some (4 - buf.length)
  else
    let need := 4 + ofLe (buf.take 4)
    if need < buf.length then none else some (need - buf.length)

def chunk : ℕ := 4096

namespace LinkState

def new (max : ℕ) : LinkState where
  max
  ended := false
  held := true
  send := { holder := none, waiting := [], half := some { torn := false } }
  recv := { holder := none, waiting := [], half := some { buf := [] } }
  calls := fun _ => none
  finished := false
  closed := false

/-- The link ends. What it holds comes out, a half that a call holds apart. -/
def end_ (l : LinkState) : LinkState × Ended :=
  ({ l with
      ended := true
      held := false
      recv := if l.recv.holder = none then { l.recv with half := none } else l.recv
      send := if l.send.holder = none then { l.send with half := none } else l.send },
    { sending := if l.send.holder = none then l.send.half else none, held := l.held })

/-- What an ended link held is let go: the connection is closed, then the stream. A stream
let go is finished, unless its connection is closed. -/
def letGo (l : LinkState) (e : Ended) : LinkState × List Happening :=
  let closed := l.closed || e.held
  ({ l with closed, finished := l.finished || (e.sending.isSome && !closed) }, if e.held then [.closed] else [])

def cutOff (l : LinkState) : LinkState × List Happening :=
  let (l, e) := l.end_
  let (l, did) := l.letGo e
  (l, .ended :: did)

def answered (l : LinkState) (id : ℕ) : LinkState := { l with calls := Function.update l.calls id none }

/-- A call lets the send half go; once the link has ended it gives the half up. -/
def freeSend (l : LinkState) : LinkState :=
  if l.ended then
    { l with
      send := { l.send with half := none }.release
      finished := l.finished || (l.send.half.isSome && !l.closed) }
  else { l with send := l.send.release }

def freeRecv (l : LinkState) : LinkState :=
  if l.ended then { l with recv := { l.recv with half := none }.release } else { l with recv := l.recv.release }

end LinkState

/-! ### Sending -/

namespace IrohLink

/-- A send that has the lock, as far as its first wait on the stream. -/
def startSend (l : LinkState) (id : ℕ) (frame : Bytes) : LinkState × List Happening :=
  match if l.ended then none else l.send.half with
  | none => ((l.answered id).freeSend, [.sendFailed .closed])
  | some half =>
    if l.max < frame.length ∨ 2 ^ 32 ≤ frame.length then ((l.answered id).freeSend, [.sendFailed .frameTooLarge])
    else if half.torn then
      -- Rather than follow a frame that may be torn, the link ends.
      let (l, did) := l.cutOff
      ((l.answered id).freeSend, did ++ [.sendFailed .closed])
    else
      ({ l with
          send := { l.send with half := some { torn := true } }
          calls := Function.update l.calls id (some (.writing frame (Frames.frame frame))) }, [])

def send (l : LinkState) (id : ℕ) (frame : Bytes) : LinkState × List Happening :=
  if l.send.holder = none then startSend { l with send := { l.send with holder := some id } } id frame
  else
    ({ l with
        send := { l.send with waiting := l.send.waiting ++ [id] }
        calls := Function.update l.calls id (some (.send frame)) }, [])

def wrote (l : LinkState) (id : ℕ) (n : ℕ) : LinkState × List Happening :=
  match l.calls id with
  | some (.writing frame rest) =>
    let bytes := rest.take n
    if bytes = [] then (l, [])
    else if rest.drop n = [] then
      (({ l with send := { l.send with half := some { torn := false } } }.answered id).freeSend, [.wrote bytes, .sent frame])
    else ({ l with calls := Function.update l.calls id (some (.writing frame (rest.drop n))) }, [.wrote bytes])
  | _ => (l, [])

def refused (l : LinkState) (id : ℕ) : LinkState × List Happening :=
  match l.calls id with
  | some (.writing _ _) =>
    if l.ended then ((l.answered id).freeSend, [.sendFailed .closed])
    else
      let (l, did) := l.cutOff
      ((l.answered id).freeSend, did ++ [.sendFailed .transport])
  | _ => (l, [])

/-! ### Receiving -/

/-- A receive that has the lock, as far as its next wait on the stream. -/
def turn (l : LinkState) (id : ℕ) : LinkState × List Happening :=
  match if l.ended then none else l.recv.half with
  | none => ((l.answered id).freeRecv, [.recvEnded .here])
  | some half =>
    match nextFrame half.buf l.max with
    | some (.ok (frame, buf)) =>
      (({ l with recv := { l.recv with half := some { buf } } }.answered id).freeRecv, [.received frame])
    | some (.error why) =>
      let (l, did) := l.cutOff
      ((l.answered id).freeRecv, did ++ [.recvFailed why])
    | none =>
      match remaining half.buf with
      | none => ((l.answered id).freeRecv, [.panicked])
      | some n => ({ l with calls := Function.update l.calls id (some (.reading (min n chunk))) }, [])

def recv (l : LinkState) (id : ℕ) : LinkState × List Happening :=
  if l.recv.holder = none then turn { l with recv := { l.recv with holder := some id } } id
  else
    ({ l with
        recv := { l.recv with waiting := l.recv.waiting ++ [id] }
        calls := Function.update l.calls id (some .recv) }, [])

def gave (l : LinkState) (id : ℕ) (bytes : Bytes) : LinkState × List Happening :=
  match l.recv.half with
  | some half =>
    let (l, did) := turn { l with recv := { l.recv with half := some { buf := half.buf ++ bytes } } } id
    (l, .took bytes :: did)
  | none => (l, [])

/-- A read that fails with the link's end, unless it had ended. -/
def readFailed (l : LinkState) (id : ℕ) : LinkState × List Happening :=
  let (l, did) := l.cutOff
  ((l.answered id).freeRecv, did ++ [.recvFailed .transport])

/-- The stream tells a receive that the peer has finished it. -/
def streamEnded (l : LinkState) (id : ℕ) : LinkState × List Happening :=
  match l.recv.half with
  | some half =>
    if half.buf = [] then ((l.answered id).freeRecv, [.recvEnded .finished])
    else readFailed l id
  | none => (l, [])

/-- The stream fails a receive: as the peer has closed the connection, or otherwise. -/
def failed (l : LinkState) (id : ℕ) (byPeer : Bool) : LinkState × List Happening :=
  match l.recv.half with
  | some half =>
    if byPeer ∧ half.buf = [] then ((l.answered id).freeRecv, [.recvEnded .closed])
    else if l.ended then ((l.answered id).freeRecv, [.recvEnded .here])
    else readFailed l id
  | none => (l, [])

/-! ### Closing -/

/-- A close, as far as its wait for the peer to have all that was sent. -/
def close (l : LinkState) (id : ℕ) : LinkState × List Happening :=
  let (l, e) := l.end_
  match e.sending with
  | some { torn := false } =>
    ({ l with finished := true, calls := Function.update l.calls id (some (.draining e.held)) }, [.ended])
  | _ =>
    let (l, did) := l.letGo e
    (l, .ended :: did)

def drained (l : LinkState) (id : ℕ) (held : Bool) : LinkState × List Happening :=
  (l.answered id).letGo { sending := none, held }

/-! ### Dropping -/

def drop (l : LinkState) (id : ℕ) : LinkState × List Happening :=
  match l.calls id with
  | some (.send _) => ({ l.answered id with send := l.send.quit id }, [])
  | some (.writing _ _) => ((l.answered id).freeSend, [.cut])
  | some .recv => ({ l.answered id with recv := l.recv.quit id }, [])
  | some (.reading _) => ((l.answered id).freeRecv, [])
  | some (.draining held) => drained l id held
  | none => (l, [])

/-- No one has the link any more: its streams are let go, and its connection. -/
def release (l : LinkState) : LinkState × List Happening :=
  if l.send.holder = none ∧ l.recv.holder = none then
    let sending := l.send.half
    let (l, _) := l.end_
    ({ l with closed := true, finished := l.finished || (sending.isSome && !l.closed) }, [.ended, .closed])
  else (l, [])

end IrohLink

/-! ### The link -/

inductive Act where
  | send (id : ℕ) (frame : Bytes)
  | recv (id : ℕ)
  | close (id : ℕ)
  /-- A call whose turn at its half has come goes on. -/
  | poll (id : ℕ)
  | drop (id : ℕ)
  | release
  /-- The stream takes as many as `n` bytes of a send's. -/
  | wrote (id n : ℕ)
  | refused (id : ℕ)
  /-- The stream gives a receive as many as `n` bytes. -/
  | gave (id n : ℕ)
  | streamEnded (id : ℕ)
  | failed (id : ℕ) (byPeer : Bool)
  | drained (id : ℕ)

namespace IrohLink

def does (l : LinkState) : Act → LinkState × List Happening
  | .send id frame => if (l.calls id).isNone then send l id frame else (l, [])
  | .recv id => if (l.calls id).isNone then recv l id else (l, [])
  | .close id => if (l.calls id).isNone then close l id else (l, [])
  | .poll id =>
    match l.calls id with
    | some (.send frame) => if l.send.holder = some id then startSend l id frame else (l, [])
    | some .recv => if l.recv.holder = some id then turn l id else (l, [])
    | _ => (l, [])
  | .drop id => drop l id
  | .release => release l
  | .wrote id n => wrote l id n
  | .refused id => refused l id
  | .drained id =>
    match l.calls id with
    | some (.draining held) => drained l id held
    | _ => (l, [])
  | .gave _ _ | .streamEnded _ | .failed _ _ => (l, [])

end IrohLink

def wroteIn (u : List Happening) : Bytes :=
  u.flatMap fun
    | .wrote bytes => bytes
    | _ => []

/-- The two ends, and the bytes of each one's stream that the other has not read. -/
structure Link where
  ends : Side → LinkState
  pipe : Side → Bytes

namespace Link

def new (max : Side → ℕ) : Link := { ends := fun e => .new (max e), pipe := fun _ => [] }

def set (s : Link) (e : Side) (l : LinkState) : Link := { s with ends := Function.update s.ends e l }

def setPipe (s : Link) (e : Side) (bytes : Bytes) : Link := { s with pipe := Function.update s.pipe e bytes }

/-- A receive of `e`'s waits on the stream for `wanted` bytes, or fewer. -/
def reading (s : Link) (e : Side) (id : ℕ) : Option ℕ :=
  match (s.ends e).calls id with
  | some (.reading wanted) => some wanted
  | _ => none

def step (s : Link) (e : Side) : Act → Link × List Happening
  | .gave id n =>
    match s.reading e id with
    | some wanted =>
      let bytes := (s.pipe e.other).take (min n wanted)
      if bytes = [] then (s, [])
      else
        let (l, did) := IrohLink.gave (s.ends e) id bytes
        ((s.set e l).setPipe e.other ((s.pipe e.other).drop (min n wanted)), did)
    | none => (s, [])
  | .streamEnded id =>
    if (s.reading e id).isSome ∧ (s.ends e.other).finished ∧ s.pipe e.other = [] then
      let (l, did) := IrohLink.streamEnded (s.ends e) id
      (s.set e l, did)
    else (s, [])
  | .failed id byPeer =>
    if (s.reading e id).isSome ∧ (byPeer → (s.ends e.other).closed) then
      let (l, did) := IrohLink.failed (s.ends e) id byPeer
      (s.set e l, did)
    else (s, [])
  | act =>
    let (l, did) := IrohLink.does (s.ends e) act
    ((s.set e l).setPipe e (s.pipe e ++ wroteIn did), did)

/-- A run from a link's start, and what happens at its ends. -/
def runOf (max : Side → ℕ) (acts : List (Side × Act)) : Link × List (Side × Happening) :=
  Histories.run (fun s p => ((s.step p.1 p.2).1, (s.step p.1 p.2).2.map fun x => (p.1, x))) (new max) acts

end Link

end Glade.Node.IrohLinks
