import Glade.Lib.Histories
import Glade.Node.Side
import Glade.Node.Transport
import Glade.Wire.CborRoundTrip

/-! HELLO on a carrier link (`node/src/peer.rs`, with the signing domains of `signing.rs`).
Each end signs the link's own transcript and checks the other's; the acceptor answers
only once it has. Any number of links of any nodes run at once, and each end is given
whatever frame the other end, or anyone, makes. -/

namespace Glade.Node.Hello

open Wire

/-- The protocol of the peer link. -/
def protocol : Int64 := 4

/-! ### What is signed -/

/-- A signing domain: a purpose's, or a transport record's. -/
inductive Domain where
  | peerHello
  | originOp
  | localOverlay
  | transportBinding
  | transportRevocation
  deriving DecidableEq

/-- A domain's tag, put before the message. -/
def Domain.tag : Domain → Bytes
  | .peerHello => utf8 "glade/v1/peer-hello" ++ [0]
  | .originOp => originOpTag
  | .localOverlay => utf8 "glade/v1/local-overlay" ++ [0]
  | .transportBinding => Transport.transportBindingTag
  | .transportRevocation => Transport.transportRevocationTag

/-- What both ends of a connection know without sending it: the two endpoint keys, and the
bytes exported from its session. -/
structure Channel where
  dialer : Bytes32
  acceptor : Bytes32
  exported : Bytes32

def roleText : Side → String
  | .dialer => "dialer"
  | .acceptor => "acceptor"

/-- What a HELLO signs. -/
def transcript (role : Side) (nodeId : Bytes32) (channel : Channel) : Bytes :=
  encode (.map [(1, .int protocol), (2, .text (roleText role)), (3, .bytes nodeId), (4, .bytes channel.dialer),
    (5, .bytes channel.acceptor), (6, .bytes channel.exported)])

/-! ### Checks -/

/-- Why a HELLO fails. -/
inductive Why where
  /-- The link names no endpoint key. -/
  | noKey
  /-- The link binds no session. -/
  | noSession
  | idLength
  | protocol (other : Int64)
  | noSignature
  /-- Its signature is not for this connection. -/
  | signature
  | unbound (why : Transport.Refusal)
  | unexpected
  | undecodable
  /-- The link ended before the frame awaited. -/
  | ended
  | carrier
  | late

/-- What a frame of HELLO's says of its sender. -/
structure Greeting where
  nodeId : Bytes
  protocol : Int64
  sig : Option Bytes

variable {C : Crypto}

variable (C) in
/-- Check what the other end sent as `role`: the node it proves, with the signature that
does, or why it does not. -/
def verifyPeer (said : Greeting) (role : Side) (channel : Channel) : Except Why (Bytes32 × Bytes) :=
  if h : said.nodeId.length = 32 then
    if said.protocol ≠ protocol then .error (.protocol said.protocol)
    else
      match said.sig with
      | none => .error .noSignature
      | some sig =>
        if C.verifyStrict ⟨said.nodeId, h⟩ (Domain.peerHello.tag ++ transcript role ⟨said.nodeId, h⟩ channel) sig then
          .ok (⟨said.nodeId, h⟩, sig)
        else .error .signature
  else .error .idLength

/-- The door's check: the node is bound to the endpoint key its connection comes from. -/
def bound (door : Option Door) (peer endpoint : Bytes32) (now : ℤ) : Except Why Unit :=
  match door with
  | none => .ok ()
  | some door => (door.binds peer endpoint now).mapError .unbound

/-! ### Links and nodes -/

/-- A link's transport session. -/
structure Keys where
  key : Side → Bytes32
  exported : Bytes32

def Keys.channel (k : Keys) : Channel := { dialer := k.key .dialer, acceptor := k.key .acceptor, exported := k.exported }

/-- What a link says at one end: the far end's key, as its transport proved it, and the
bytes its session derives; or nothing. -/
structure Seen (k : Keys) (e : Side) where
  remoteId : Option Bytes
  channelBinding : Option Bytes32
  remote : ∀ id, remoteId = some id → id = k.key e.other
  binding : ∀ b, channelBinding = some b → b = k.exported

/-- What HELLO signs on a link, seen from an end whose own endpoint key is `own`. -/
def linkChannel (remoteId : Option Bytes) (channelBinding : Option Bytes32) (own : Bytes32) (role : Side) : Except Why Channel :=
  match remoteId with
  | none => .error .noKey
  | some id =>
    if h : id.length = 32 then
      match channelBinding with
      | none => .error .noSession
      | some exported =>
        match role with
        | .dialer => .ok { dialer := own, acceptor := ⟨id, h⟩, exported }
        | .acceptor => .ok { dialer := ⟨id, h⟩, acceptor := own, exported }
    else .error .noKey

/-- The nodes that keep their keys, and the links: no two have the same session. -/
structure Mesh (C : Crypto) (ι : Type) where
  node : ℕ → NodeIdentity C
  link : ι → Keys
  distinct : ∀ a b, (link a).exported = (link b).exported → a = b

/-- What arrives on a link. -/
inductive Arrived where
  | hello (said : Greeting)
  | welcome (said : Greeting)
  | other
  | undecodable
  | ended
  | failed

inductive Stage where
  | waiting (channel : Channel)
  | done

variable {ι : Type}

inductive Happening (ι : Type) where
  | began (link : ι) (e : Side) (node : ℕ)
  /-- A node signs a message, its domain's tag before it. -/
  | signed (node : ℕ) (message : Bytes)
  /-- A signature is taken for a key's on a message. -/
  | verified (key : Bytes32) (message sig : Bytes)
  /-- An end has the peer that spoke, and the door has let it. -/
  | proved (link : ι) (e : Side) (peer : Bytes32) (door : Option Door) (now : ℤ)
  | welcomed (link : ι)
  | returned (link : ι) (e : Side) (peer : Bytes32)
  | refused (link : ι) (e : Side) (why : Why)

/-- What a node does, or what is given to it. -/
inductive Act (M : Mesh C ι) where
  /-- A node runs its end of a link's HELLO; `ok` is whether the link takes its frame. -/
  | begin_ (link : ι) (e : Side) (node : ℕ) (seen : Seen (M.link link) e) (ok : Bool)
  | hear (link : ι) (e : Side) (arrived : Arrived) (door : Option Door) (now : ℤ) (ok : Bool)
  | late (link : ι) (e : Side)
  /-- A node signs anything else. -/
  | sign (node : ℕ) (domain : Domain) (message : Bytes)

/-- Each end of a link, once a node runs its HELLO. -/
structure State (ι : Type) where
  ends : ι × Side → Option (ℕ × Stage)

variable [DecidableEq ι]

namespace State

def set (s : State ι) (link : ι) (e : Side) (node : ℕ) (stage : Stage) : State ι :=
  { ends := Function.update s.ends (link, e) (some (node, stage)) }

def begin_ (M : Mesh C ι) (s : State ι) (link : ι) (e : Side) (node : ℕ) (seen : Seen (M.link link) e) (ok : Bool) :
    State ι × List (Happening ι) :=
  match linkChannel seen.remoteId seen.channelBinding ((M.link link).key e) e with
  | .error why => (s.set link e node .done, [.began link e node, .refused link e why])
  | .ok channel =>
    match e with
    | .acceptor => (s.set link e node (.waiting channel), [.began link e node])
    | .dialer =>
      let hello := Domain.peerHello.tag ++ transcript .dialer (M.node node).nodeId channel
      if ok then (s.set link e node (.waiting channel), [.began link e node, .signed node hello])
      else (s.set link e node .done, [.began link e node, .signed node hello, .refused link e .carrier])

variable (C) in
/-- What an end makes of what arrives: the peer it proves. -/
def proves (e : Side) (channel : Channel) : Arrived → Except Why (Bytes32 × Bytes)
  | .hello said => if e = .acceptor then verifyPeer C said .dialer channel else .error .unexpected
  | .welcome said => if e = .dialer then verifyPeer C said .acceptor channel else .error .unexpected
  | .other => .error .unexpected
  | .undecodable => .error .undecodable
  | .ended => .error .ended
  | .failed => .error .carrier

def farKey (channel : Channel) : Side → Bytes32
  | .dialer => channel.acceptor
  | .acceptor => channel.dialer

def hear (M : Mesh C ι) (s : State ι) (link : ι) (e : Side) (arrived : Arrived) (door : Option Door) (now : ℤ) (ok : Bool) :
    State ι × List (Happening ι) :=
  match s.ends (link, e) with
  | some (node, .waiting channel) =>
    let s := s.set link e node .done
    match proves C e channel arrived with
    | .error why => (s, [.refused link e why])
    | .ok (peer, sig) =>
      let verified := .verified peer (Domain.peerHello.tag ++ transcript e.other peer channel) sig
      match bound door peer (farKey channel e) now with
      | .error why => (s, [verified, .refused link e why])
      | .ok () =>
        let proved := [verified, .proved link e peer door now]
        match e with
        | .dialer => (s, proved ++ [.returned link e peer])
        | .acceptor =>
          let welcome := Domain.peerHello.tag ++ transcript .acceptor (M.node node).nodeId channel
          if ok then (s, proved ++ [.signed node welcome, .welcomed link, .returned link e peer])
          -- The welcome is signed, and not sent.
          else (s, proved ++ [.signed node welcome])
  | _ => (s, [])

def step (M : Mesh C ι) (s : State ι) : Act M → State ι × List (Happening ι)
  | .begin_ link e node seen ok => if (s.ends (link, e)).isNone then s.begin_ M link e node seen ok else (s, [])
  | .hear link e arrived door now ok => s.hear M link e arrived door now ok
  | .late link e =>
    match s.ends (link, e) with
    | some (node, .waiting _) => (s.set link e node .done, [.refused link e .late])
    | _ => (s, [])
  | .sign node domain message => if domain = .peerHello then (s, []) else (s, [.signed node (domain.tag ++ message)])

end State

def runOf (M : Mesh C ι) (acts : List (Act M)) : State ι × List (Happening ι) :=
  Histories.run (State.step M) { ends := fun _ => none } acts

end Glade.Node.Hello
