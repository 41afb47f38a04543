import Glade.Wire.Op

/-! The home share's records (`node/src/sysdata.rs`, `registry.rs`): the streams
of the directory, the kind of record each holds, and how a record is written.
A record is a map of its fields, numbered from 1. -/

namespace Glade.Node

open Wire

/-! ### Streams -/

def home : String := "home"

def gNodes : String := "dir.nodes"
def gWorkspaces : String := "dir.workspaces"
def gClaims : String := "dir.claims"
def gGrants : String := "dir.grants"
def gRevocations : String := "dir.revocations"
def gBindings : String := "dir.bindings"
def gServices : String := "dir.services"
def gBindingRetractions : String := "dir.binding-retractions"
def gPrincipals : String := "dir.principals"
def gTransportBindings : String := "dir.transport-bindings"
def gTransportRevocations : String := "dir.transport-revocations"
def gRecoveryKeys : String := "dir.recovery-keys"
def gCheckpoints : String := "dir.checkpoints"

/-! ### Records -/

def texts (items : List String) : Cbor := .array (items.map .text)

/-- A node and the operator who runs it. -/
structure NodeRecord where
  nodeId : String
  operator : String

def NodeRecord.toCbor (r : NodeRecord) : Cbor := .map [(1, .text r.nodeId), (2, .text r.operator)]

def NodeRecord.fromCbor (c : Cbor) : Except DecodeError NodeRecord := do
  let nodeId ← (← c.tryGet 1).tryText
  let operator ← (← c.tryGet 2).tryText
  return { nodeId, operator }

/-- A workspace by name, and the nodes with a checkout of it. -/
structure WorkspaceEntry where
  workspace : String
  name : String
  eligibleHosts : List String

def WorkspaceEntry.toCbor (r : WorkspaceEntry) : Cbor :=
  .map [(1, .text r.workspace), (2, .text r.name), (3, texts r.eligibleHosts)]

def WorkspaceEntry.fromCbor (c : Cbor) : Except DecodeError WorkspaceEntry := do
  let workspace ← (← c.tryGet 1).tryText
  let name ← (← c.tryGet 2).tryText
  let eligibleHosts ← (← (← c.tryGet 3).tryArray).mapM Cbor.tryText
  return { workspace, name, eligibleHosts }

/-- A node serves a share until its lease expires, at an epoch of the share. -/
structure ServeClaim where
  node : String
  share : String
  leaseExpiryMs : Int64
  epoch : Int64
  deriving DecidableEq

namespace ServeClaim

def toCbor (r : ServeClaim) : Cbor :=
  .map [(1, .text r.node), (2, .text r.share), (3, .int r.leaseExpiryMs), (4, .int r.epoch)]

def fromCbor (c : Cbor) : Except DecodeError ServeClaim := do
  let node ← (← c.tryGet 1).tryText
  let share ← (← c.tryGet 2).tryText
  let leaseExpiryMs ← (← c.tryGet 3).tryInt
  let epoch ← (← c.tryGet 4).tryInt
  return { node, share, leaseExpiryMs, epoch }

theorem fromCbor_toCbor (r : ServeClaim) : fromCbor r.toCbor = .ok r := by
  simp [fromCbor, toCbor, Cbor.tryGet, Cbor.tryText, Cbor.tryInt, bind, Except.bind, pure, Except.pure]

end ServeClaim

/-- What a principal may do on a share, until a revocation names both. -/
structure CapabilityGrant where
  principal : String
  share : String
  verbs : List String
  deriving DecidableEq

namespace CapabilityGrant

def toCbor (r : CapabilityGrant) : Cbor :=
  .map [(1, .text r.principal), (2, .text r.share), (3, texts r.verbs)]

def fromCbor (c : Cbor) : Except DecodeError CapabilityGrant := do
  let principal ← (← c.tryGet 1).tryText
  let share ← (← c.tryGet 2).tryText
  let verbs ← (← (← c.tryGet 3).tryArray).mapM Cbor.tryText
  return { principal, share, verbs }

end CapabilityGrant

structure CapabilityRevocation where
  principal : String
  share : String
  deriving DecidableEq

namespace CapabilityRevocation

def toCbor (r : CapabilityRevocation) : Cbor := .map [(1, .text r.principal), (2, .text r.share)]

def fromCbor (c : Cbor) : Except DecodeError CapabilityRevocation := do
  let principal ← (← c.tryGet 1).tryText
  let share ← (← c.tryGet 2).tryText
  return { principal, share }

end CapabilityRevocation

/-- A surface that an app declares; its words are kept as strings. -/
structure BindingDecl where
  app : String
  gladeId : String
  shape : String
  authority : String
  zone : String
  retention : String

def BindingDecl.toCbor (r : BindingDecl) : Cbor :=
  .map [(1, .text r.app), (2, .text r.gladeId), (3, .text r.shape), (4, .text r.authority), (5, .text r.zone),
    (6, .text r.retention)]

def BindingDecl.fromCbor (c : Cbor) : Except DecodeError BindingDecl := do
  let app ← (← c.tryGet 1).tryText
  let gladeId ← (← c.tryGet 2).tryText
  let shape ← (← c.tryGet 3).tryText
  let authority ← (← c.tryGet 4).tryText
  let zone ← (← c.tryGet 5).tryText
  let retention ← (← c.tryGet 6).tryText
  return { app, gladeId, shape, authority, zone, retention }

/-- The app's file no longer declares the surface. -/
structure BindingRetraction where
  app : String
  gladeId : String

def BindingRetraction.toCbor (r : BindingRetraction) : Cbor := .map [(1, .text r.app), (2, .text r.gladeId)]

def BindingRetraction.fromCbor (c : Cbor) : Except DecodeError BindingRetraction := do
  let app ← (← c.tryGet 1).tryText
  let gladeId ← (← c.tryGet 2).tryText
  return { app, gladeId }

/-- A service of an app, and the exchange surface it answers. -/
structure ServiceDefinition where
  app : String
  name : String
  gladeId : String

def ServiceDefinition.toCbor (r : ServiceDefinition) : Cbor :=
  .map [(1, .text r.app), (2, .text r.name), (3, .text r.gladeId)]

def ServiceDefinition.fromCbor (c : Cbor) : Except DecodeError ServiceDefinition := do
  let app ← (← c.tryGet 1).tryText
  let name ← (← c.tryGet 2).tryText
  let gladeId ← (← c.tryGet 3).tryText
  return { app, name, gladeId }

structure PrincipalRecord where
  principal : String

def PrincipalRecord.toCbor (r : PrincipalRecord) : Cbor := .map [(1, .text r.principal)]

def PrincipalRecord.fromCbor (c : Cbor) : Except DecodeError PrincipalRecord := do
  let principal ← (← c.tryGet 1).tryText
  return { principal }

/-- An endpoint key carries for the node, under the node's signature. -/
structure NodeTransportBinding where
  node : String
  endpointId : String
  validFrom : Int64
  sig : Bytes

def NodeTransportBinding.toCbor (r : NodeTransportBinding) : Cbor :=
  .map [(1, .text r.node), (2, .text r.endpointId), (3, .int r.validFrom), (4, .bytes r.sig)]

def NodeTransportBinding.fromCbor (c : Cbor) : Except DecodeError NodeTransportBinding := do
  let node ← (← c.tryGet 1).tryText
  let endpointId ← (← c.tryGet 2).tryText
  let validFrom ← (← c.tryGet 3).tryInt
  let sig ← (← c.tryGet 4).tryBytes
  return { node, endpointId, validFrom, sig }

structure NodeTransportRevocation where
  node : String
  endpointId : String
  sig : Bytes

def NodeTransportRevocation.toCbor (r : NodeTransportRevocation) : Cbor :=
  .map [(1, .text r.node), (2, .text r.endpointId), (3, .bytes r.sig)]

def NodeTransportRevocation.fromCbor (c : Cbor) : Except DecodeError NodeTransportRevocation := do
  let node ← (← c.tryGet 1).tryText
  let endpointId ← (← c.tryGet 2).tryText
  let sig ← (← c.tryGet 3).tryBytes
  return { node, endpointId, sig }

/-- A node commits to the public half of a recovery key; nothing reads it yet. -/
structure NodeRecoveryKey where
  node : String
  recoveryKey : String

def NodeRecoveryKey.toCbor (r : NodeRecoveryKey) : Cbor := .map [(1, .text r.node), (2, .text r.recoveryKey)]

def NodeRecoveryKey.fromCbor (c : Cbor) : Except DecodeError NodeRecoveryKey := do
  let node ← (← c.tryGet 1).tryText
  let recoveryKey ← (← c.tryGet 2).tryText
  return { node, recoveryKey }

/-- A node's chain of the stream is folded at the op with this number and hash. -/
structure ChainCheckpoint where
  node : String
  stream : String
  seq : Int64
  hash : Bytes

def ChainCheckpoint.toCbor (r : ChainCheckpoint) : Cbor :=
  .map [(1, .text r.node), (2, .text r.stream), (3, .int r.seq), (4, .bytes r.hash)]

def ChainCheckpoint.fromCbor (c : Cbor) : Except DecodeError ChainCheckpoint := do
  let node ← (← c.tryGet 1).tryText
  let stream ← (← c.tryGet 2).tryText
  let seq ← (← c.tryGet 3).tryInt
  let hash ← (← c.tryGet 4).tryBytes
  return { node, stream, seq, hash }

/-- A record's bytes, and the origin's signature over them and the rest of their op. -/
structure SignedRecord where
  record : Bytes
  sig : Bytes

def SignedRecord.toCbor (r : SignedRecord) : Cbor := .map [(1, .bytes r.record), (2, .bytes r.sig)]

/-- One record of the home share: each is appended to its own stream. -/
inductive Record where
  | node (r : NodeRecord)
  | workspace (r : WorkspaceEntry)
  | serve (r : ServeClaim)
  | grant (r : CapabilityGrant)
  | revoke (r : CapabilityRevocation)
  | binding (r : BindingDecl)
  | retract (r : BindingRetraction)
  | service (r : ServiceDefinition)
  | principal (r : PrincipalRecord)
  | transport (r : NodeTransportBinding)
  | transportRevoke (r : NodeTransportRevocation)
  | recovery (r : NodeRecoveryKey)
  | checkpoint (r : ChainCheckpoint)

namespace Record

def gladeId : Record → String
  | .node _ => gNodes
  | .workspace _ => gWorkspaces
  | .serve _ => gClaims
  | .grant _ => gGrants
  | .revoke _ => gRevocations
  | .binding _ => gBindings
  | .retract _ => gBindingRetractions
  | .service _ => gServices
  | .principal _ => gPrincipals
  | .transport _ => gTransportBindings
  | .transportRevoke _ => gTransportRevocations
  | .recovery _ => gRecoveryKeys
  | .checkpoint _ => gCheckpoints

def toCbor : Record → Cbor
  | .node r => r.toCbor
  | .workspace r => r.toCbor
  | .serve r => r.toCbor
  | .grant r => r.toCbor
  | .revoke r => r.toCbor
  | .binding r => r.toCbor
  | .retract r => r.toCbor
  | .service r => r.toCbor
  | .principal r => r.toCbor
  | .transport r => r.toCbor
  | .transportRevoke r => r.toCbor
  | .recovery r => r.toCbor
  | .checkpoint r => r.toCbor

def encode (r : Record) : Bytes := Wire.encode r.toCbor

/-- A policy record's stream fails closed on a load. -/
def isPolicy (gladeId : String) : Bool := gladeId = gGrants ∨ gladeId = gRevocations

/-- A stream of the binding family, numbered by one clock. -/
def isBindingFamily (gladeId : String) : Bool := gladeId = gBindings ∨ gladeId = gBindingRetractions

end Record

/-! ### Kinds -/

/-- A record field's type. -/
inductive Field where
  | text
  | int
  | bytes
  | texts
  deriving DecidableEq

/-- The kind each directory stream holds: its fields, numbered from 1. -/
def kind (gladeId : String) : Option (List Field) :=
  if gladeId = gNodes ∨ gladeId = gRevocations ∨ gladeId = gBindingRetractions ∨ gladeId = gRecoveryKeys then
    some [.text, .text]
  else if gladeId = gWorkspaces ∨ gladeId = gGrants then some [.text, .text, .texts]
  else if gladeId = gClaims then some [.text, .text, .int, .int]
  else if gladeId = gBindings then some [.text, .text, .text, .text, .text, .text]
  else if gladeId = gServices then some [.text, .text, .text]
  else if gladeId = gPrincipals then some [.text]
  else if gladeId = gTransportBindings ∨ gladeId = gCheckpoints then some [.text, .text, .int, .bytes]
  else if gladeId = gTransportRevocations then some [.text, .text, .bytes]
  else none

/-- Whether a value is of a field's type. -/
def Field.holds : Field → Cbor → Bool
  | .text, .text _ => true
  | .int, .int _ => true
  | .bytes, .bytes _ => true
  | .texts, .array items => items.all fun | .text _ => true | _ => false
  | _, _ => false

/-- Entries that are `fields`, in their order, under the keys from `key` up. -/
def typed (key : Int64) : List Field → List (Int64 × Cbor) → Bool
  | [], [] => true
  | f :: fs, (k, v) :: es => k == key && f.holds v && typed (key + 1) fs es
  | _, _ => false

/-- Every record is of its stream's kind. -/
theorem Record.typed_toCbor (r : Record) :
    ∃ fields entries, kind r.gladeId = some fields ∧ r.toCbor = .map entries ∧ typed 1 fields entries = true := by
  cases r <;> refine ⟨_, _, rfl, rfl, ?_⟩ <;> simp [typed, Field.holds, texts]

theorem shaped_texts (items : List String) : Shaped false 1 (texts items) := by
  intro v hv
  obtain ⟨s, -, rfl⟩ := List.mem_map.mp hv
  exact shaped_text s

theorem Record.shaped_toCbor (r : Record) : Shaped false 2 r.toCbor := by
  cases r <;>
    exact shaped_map _ rfl (by simp) (by simp) (by simp [shaped_text, shaped_int, shaped_bytes, shaped_texts])

theorem ChainCheckpoint.shaped_toCbor (r : ChainCheckpoint) : Shaped false 2 r.toCbor :=
  (Record.checkpoint r).shaped_toCbor

theorem SignedRecord.shaped_toCbor (r : SignedRecord) : Shaped false 1 r.toCbor :=
  shaped_map _ rfl (by simp) (by simp) (by simp [shaped_bytes])

end Glade.Node
