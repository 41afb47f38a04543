import Glade.Lib.OrdMap
import Glade.Wire.Op

/-! The messages a client and a node exchange besides ops (`wire-rs/src/generated.rs`). -/

namespace Glade.Wire

/-- Zones, `(share, glade_id, key)`, are ordered as their parts are. -/
instance zoneTransOrd : Std.TransOrd (String × String × Bytes) := OrdMap.pairTransOrd

inductive ErrorCode where
  | ok
  | equivocation
  | unknownShare
  | unauthorized
  | protocol
  | retention
  | internal
  deriving DecidableEq, Repr

structure Error where
  code : ErrorCode
  message : String
  share : Option String
  gladeId : Option String
  corr : Option String
  deriving DecidableEq

inductive Priority where
  | control
  | interactive
  | bulk
  deriving DecidableEq

def Priority.wire : Priority → Int64
  | .control => 0
  | .interactive => 1
  | .bulk => 2

structure Ops where
  ops : List Op
  pri : Option Priority

def Ops.toCbor (m : Ops) : Cbor :=
  .map [(1, .array (m.ops.map fun op => op.toCbor)), (2, (m.pri.map fun p => Cbor.int p.wire).getD .null)]

structure Heads where
  streams : List StreamHeads
  deriving DecidableEq

structure ExchangeReq where
  share : String
  gladeId : String
  corr : String
  payload : Bytes
  deriving DecidableEq

structure ExchangeRes where
  corr : String
  ok : Bool
  payload : Option Bytes
  error : Option String
  deriving DecidableEq

end Glade.Wire
