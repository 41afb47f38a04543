import Glade.Lib.OrdMap
import Glade.Node.Signing

/-! The grant check at the serve hop (`node/src/grants.rs`, `contracts/grant-api`):
a fold of grants and revocations, and the view of it that the serve paths ask. A
view with no fold refuses. -/

namespace Glade.Node.Grants

open Wire Node

inductive Holder where
  /-- A node, by the id its key is. -/
  | node (id : Bytes32)
  | principal (name : String)
  deriving DecidableEq

inductive Denial where
  | noGrant
  | revoked
  | unavailable
  deriving DecidableEq

def readSubscribe : String := "read.subscribe"

def writeAppend : String := "write.append"

/-- Whether a granted verb admits the one asked for: the same, or one that begins
with a granted `p.*`'s `p.`, `p` not empty. -/
def admits (granted asked : String) : Bool :=
  granted = asked ||
    match granted.toList.reverse with
    | '*' :: '.' :: p => p ≠ [] && ('.' :: p).reverse.isPrefixOf asked.toList
    | _ => false

/-- Whether `name` is written as a node's id: 64 lower-case hex digits. -/
def namesANode (name : String) : Bool :=
  (utf8 name).length = 64 && (utf8 name).all (fun b => (digit b).isSome)

/-- Per principal and share, the verbs granted, and the pairs revoked. -/
structure Policy where
  granted : Std.ExtTreeMap (String × String) (Finset String)
  revoked : Finset (String × String)

def Policy.check (fold : Policy) (principal verb share : String) : Except Denial Unit :=
  if (principal, share) ∈ fold.revoked then .error .revoked
  else if ∃ granted ∈ fold.granted.getD (principal, share) ∅, admits granted verb = true then .ok ()
  else .error .noGrant

/-- The name a grant gives `holder`; a principal written as a node's id has none. -/
def grantName : Holder → Option String
  | .node id => some (hex id)
  | .principal name => if namesANode name then none else some name

/-- The fold the serve paths check, if there is one, and how many times it has
been replaced. -/
structure PolicyView where
  generation : ℕ
  fold : Option Policy

namespace PolicyView

def replace (view : PolicyView) (fold : Option Policy) : PolicyView := { generation := view.generation + 1, fold }

def check (view : PolicyView) (holder : Holder) (verb share : String) : Except Denial Unit :=
  match view.fold with
  | none => .error .unavailable
  | some fold =>
    match grantName holder with
    | none => .error .noGrant
    | some name => fold.check name verb share

end PolicyView

/-! ### What a refusal says -/

def noPrincipal (verb share : String) : String :=
  s!"unauthorized: a session that names no principal holds no grant of {verb} on {share}"

def Holder.says : Holder → String
  | .node id => s!"node {hex id.val}"
  | .principal name => s!"principal {name}"

def refusal (holder : Holder) (verb share : String) : Denial → String
  | .noGrant => s!"unauthorized: {holder.says} holds no grant of {verb} on {share}"
  | .revoked => s!"unauthorized: {holder.says}'s grants on {share} are revoked"
  | .unavailable => s!"unauthorized: the grant fold is unavailable, so {holder.says} may not {verb} on {share}"

end Glade.Node.Grants
