import Glade.Store.Append

/-! The transport door (`node/src/transport.rs`). A record signed by a node binds an
endpoint key to it from a date, and a revocation withdraws the pair for good. The
fold is a union, with the earliest date of each pair, so it is of the op-set and a
revocation never leaves it. The door reads it at accept, with no node, and at the
HELLO of one. -/

namespace Glade.Node

open Wire

instance : Ord Bytes32 := ⟨compareOn Subtype.val⟩

instance : Std.TransOrd Bytes32 := inferInstanceAs (Std.TransCmp (compareOn Subtype.val))

instance : Std.LawfulEqOrd Bytes32 := OrdMap.lawfulEqCmp_compareOn Subtype.val_injective

namespace Transport

/-! ### Records -/

def transportBindingTag : Bytes := utf8 "glade/v1/transport-binding" ++ [0]

def transportRevocationTag : Bytes := utf8 "glade/v1/transport-revocation" ++ [0]

/-- What a record's signature covers: its fields before the signature. -/
def message (node endpointId : String) (validFrom : Option Int64) : Bytes :=
  encode (.map ([(1, .text node), (2, .text endpointId)] ++ (validFrom.map fun at_ => (3, .int at_)).toList))

/-- A binding's pair: its endpoint key and its node's. -/
abbrev Pair : Type := Bytes32 × Bytes32

variable {C : Crypto}

/-- The binding of `endpoint` to a node, from `validFrom`, signed by its key. -/
def signBinding (me : NodeIdentity C) (endpoint : Bytes32) (validFrom : Int64) : NodeTransportBinding :=
  { node := me.name, endpointId := hex endpoint, validFrom
    sig := (C.sign me.seed (transportBindingTag ++ message me.name (hex endpoint) (some validFrom))).val }

/-- The revocation of `endpoint` by a node. -/
def signRevocation (me : NodeIdentity C) (endpoint : Bytes32) : NodeTransportRevocation :=
  { node := me.name, endpointId := hex endpoint
    sig := (C.sign me.seed (transportRevocationTag ++ message me.name (hex endpoint) none)).val }

/-- What a transport record says: its node, its endpoint, a binding's date, and a
signature in its kind's domain. -/
structure Said where
  node : String
  endpointId : String
  validFrom : Option Int64
  sig : Bytes
  domain : Bytes

def saidOf (gladeId : String) : List (Int64 × Cbor) → Option Said
  | [(k₁, .text node), (k₂, .text endpointId), (k₃, .int at_), (k₄, .bytes sig)] =>
    if gladeId = gTransportBindings ∧ k₁ = 1 ∧ k₂ = 2 ∧ k₃ = 3 ∧ k₄ = 4 then
      some { node, endpointId, validFrom := some at_, sig, domain := transportBindingTag }
    else none
  | [(k₁, .text node), (k₂, .text endpointId), (k₃, .bytes sig)] =>
    if gladeId = gTransportRevocations ∧ k₁ = 1 ∧ k₂ = 2 ∧ k₃ = 3 then
      some { node, endpointId, validFrom := none, sig, domain := transportRevocationTag }
    else none
  | _ => none

variable (C) in
/-- The pair a transport record proves, and a binding's date. -/
def proven (op : Op) : Option (Pair × Option ℤ) :=
  let record := recordBytes op.payload
  match parse record with
  | some (.map fields) =>
    match saidOf op.gladeId fields with
    | some said => do
      let endpoint ← keyOf said.endpointId
      let node ← keyOf said.node
      let canonical := encode (.map fields) = record
      let valid := C.verifyStrict node (said.domain ++ message said.node said.endpointId said.validFrom) said.sig = true
      let chain := op.share = home ∧ op.origin = said.node
      if canonical ∧ valid ∧ chain then some ((endpoint, node), said.validFrom.map Int64.toInt) else none
    | none => none
  | _ => none

/-! ### The fold -/

/-- Where a node's binding of an endpoint key stands, at a reader's clock. -/
inductive Bound where
  | live
  | notYet (validFrom : ℤ)
  | revoked
  | unbound
  | clockUncertain
  deriving DecidableEq

inductive Refusal where
  | clockUncertain
  | unknown
  | revoked (node : Bytes32)
  | notYet (validFrom : ℤ)
  | boundElsewhere (bound node : Bytes32)
  deriving DecidableEq

end Transport

structure TransportFold where
  /-- Each bound pair, with the earliest date among its bindings. -/
  bindings : Std.ExtTreeMap Transport.Pair ℤ
  revoked : Std.ExtTreeSet Transport.Pair
  /-- Records that prove nothing. -/
  ignored : ℕ

namespace TransportFold

open Transport

variable {C : Crypto}

def empty : TransportFold := { bindings := ∅, revoked := ∅, ignored := 0 }

/-- The earlier of the date held and another. -/
def earliest : Option ℤ → ℤ → ℤ
  | none, validFrom => validFrom
  | some held, validFrom => min held validFrom

variable (C) in
/-- Fold in one op: the fold with it, and the pair it revoked, if that is new. -/
def note (f : TransportFold) (op : Op) : TransportFold × Option Pair :=
  if ¬ (op.gladeId = gTransportBindings ∨ op.gladeId = gTransportRevocations) then (f, none)
  else
    match proven C op with
    | some (pair, some validFrom) =>
      ({ f with bindings := f.bindings.insert pair (earliest f.bindings[pair]? validFrom) }, none)
    | some (pair, none) =>
      ({ f with revoked := f.revoked.insert pair }, if pair ∈ f.revoked then none else some pair)
    | none => ({ f with ignored := f.ignored + 1 }, none)

variable (C) in
/-- Fold the transport records out of `ops`. -/
def overOps (ops : List Op) : TransportFold := ops.foldl (fun f op => (f.note C op).1) empty

variable (C) in
/-- The fold of the served store's `home` share. -/
def ofStore (s : Store) : TransportFold :=
  overOps C ([gTransportBindings, gTransportRevocations].flatMap fun gladeId =>
    (s.logs.toList.filter (fun e => e.1.share = home ∧ e.1.gladeId = gladeId ∧ e.1.key = [])).flatMap fun e =>
      e.2.filter (fun op => -2 ^ 63 < op.seq))

/-- Where `node`'s binding of `endpoint` stands at the clock `now`. -/
def binds (f : TransportFold) (node endpoint : Bytes32) (now : ℤ) : Bound :=
  if (endpoint, node) ∈ f.revoked then .revoked
  else if now ≤ 0 then .clockUncertain
  else
    match f.bindings[(endpoint, node)]? with
    | some validFrom => if validFrom ≤ now then .live else .notYet validFrom
    | none => .unbound

/-- The nodes some record names with `endpoint`, in their keys' order. -/
def nodesOf (f : TransportFold) (endpoint : Bytes32) : List Bytes32 :=
  (Std.ExtTreeSet.ofList (((f.bindings.keys ++ f.revoked.toList).filter (fun p => p.1 = endpoint)).map Prod.snd)).toList

/-- The refusal of a node that the endpoint is not bound to now. -/
def why (f : TransportFold) (endpoint : Bytes32) (now : ℤ) (node : Bytes32) : Refusal :=
  match f.binds node endpoint now with
  | .revoked => .revoked node
  | .notYet validFrom => .notYet validFrom
  | _ => .unknown

/-- The door's rule for `endpoint`: at accept, with no node, or for a node's HELLO. -/
def door (f : TransportFold) (endpoint : Bytes32) (node : Option Bytes32) (configured : Bool) (now : ℤ) :
    Except Refusal Unit :=
  if now ≤ 0 then .error .clockUncertain
  else
    let nodes := f.nodesOf endpoint
    match nodes.head? with
    | none => if configured then .ok () else .error .unknown
    | some first =>
      let live := nodes.find? (fun n => f.binds n endpoint now = .live)
      match node, live with
      | none, some _ => .ok ()
      | none, none => .error (f.why endpoint now first)
      | some n, live =>
        if f.binds n endpoint now = .live then .ok ()
        else if n ∈ nodes then .error (f.why endpoint now n)
        else
          match live with
          | some m => .error (.boundElsewhere m n)
          | none => .error (f.why endpoint now first)

/-- The endpoint keys `node` has bound and not revoked. -/
def endpointsOf (f : TransportFold) (node : Bytes32) : List Bytes32 :=
  ((f.bindings.keys.filter (fun p => p.2 = node)).filter (fun p => ¬ p ∈ f.revoked)).map Prod.fst

end TransportFold

/-- The door: the keys its operator configured, and the fold of what landed. -/
structure Door where
  configured : Std.ExtTreeSet Bytes32
  fold : TransportFold

namespace Door

open Transport TransportFold

variable {C : Crypto}

def new (configured : List Bytes32) : Door := { configured := .ofList configured, fold := .empty }

variable (C) in
/-- Take in what the served store holds, before the first connection. -/
def load (door : Door) (s : Store) : Door := { door with fold := ofStore C s }

variable (C) in
/-- Take in an op that landed: the door, and the pair it newly revoked. -/
def note (door : Door) (op : Op) : Door × Option Pair :=
  let (fold, revoked) := door.fold.note C op
  ({ door with fold }, revoked)

variable (C) in
/-- The door after ops, each as it lands. -/
def noted (door : Door) (ops : List Op) : Door := ops.foldl (fun door op => (door.note C op).1) door

/-- At accept: whether `endpoint` may connect. -/
def admits (door : Door) (endpoint : Bytes32) (now : ℤ) : Except Refusal Unit :=
  door.fold.door endpoint none (endpoint ∈ door.configured) now

/-- At HELLO: whether `node` may speak through `endpoint`. -/
def binds (door : Door) (node endpoint : Bytes32) (now : ℤ) : Except Refusal Unit :=
  door.fold.door endpoint (some node) (endpoint ∈ door.configured) now

end Door

/-! ### Any order -/

namespace TransportFold

open Transport

variable {C : Crypto}

/-- What an op adds to a fold, whatever the fold holds. -/
inductive Counts where
  | skipped
  | binds (pair : Pair) (validFrom : ℤ)
  | revokes (pair : Pair)
  | ignored

variable (C) in
def countsOf (op : Op) : Counts :=
  if ¬ (op.gladeId = gTransportBindings ∨ op.gladeId = gTransportRevocations) then .skipped
  else
    match proven C op with
    | some (pair, some validFrom) => .binds pair validFrom
    | some (pair, none) => .revokes pair
    | none => .ignored

def count (f : TransportFold) : Counts → TransportFold
  | .skipped => f
  | .binds pair validFrom => { f with bindings := f.bindings.insert pair (earliest f.bindings[pair]? validFrom) }
  | .revokes pair => { f with revoked := f.revoked.insert pair }
  | .ignored => { f with ignored := f.ignored + 1 }

theorem note_fst (f : TransportFold) (op : Op) : (f.note C op).1 = f.count (countsOf C op) := by
  unfold note countsOf
  split
  · rfl
  · cases proven C op with
    | none => rfl
    | some p =>
      obtain ⟨pair, validFrom⟩ := p
      cases validFrom <;> rfl

theorem earliest_comm (held : Option ℤ) (a b : ℤ) :
    earliest (some (earliest held a)) b = earliest (some (earliest held b)) a := by
  cases held with
  | none => exact min_comm a b
  | some h => exact min_right_comm h a b

/-- Two counts, in either order. -/
theorem count_comm (f : TransportFold) (a b : Counts) : (f.count a).count b = (f.count b).count a := by
  cases a <;> cases b <;> try rfl
  case binds.binds p v q w =>
    simp only [count, TransportFold.mk.injEq, and_true]
    refine Std.ExtTreeMap.ext_getElem? fun k => ?_
    simp only [Std.ExtTreeMap.getElem?_insert, Std.LawfulEqOrd.compare_eq_iff_eq]
    by_cases hpq : p = q
    · subst hpq
      simp only [if_true, earliest_comm]
      split_ifs <;> rfl
    · rw [if_neg hpq, if_neg (Ne.symm hpq)]
      by_cases hq : q = k
      · have hp : ¬ p = k := fun h => hpq (h.trans hq.symm)
        simp only [if_pos hq, if_neg hp]
      · simp only [if_neg hq]
  case revokes.revokes p q =>
    simp only [count, TransportFold.mk.injEq, true_and, and_true]
    refine Std.ExtTreeSet.ext_mem fun k => ?_
    simp only [Std.ExtTreeSet.mem_insert, or_left_comm]

/-- Ops noted in any order make one fold. -/
theorem foldl_note_perm {ops ops' : List Op} (h : ops.Perm ops') (f : TransportFold) :
    ops.foldl (fun f op => (f.note C op).1) f = ops'.foldl (fun f op => (f.note C op).1) f := by
  refine h.foldl_eq' (fun a _ b _ f => ?_) f
  simp only [note_fst, count_comm]

/-! ### Revocations -/

theorem mem_revoked_note {f : TransportFold} {pair : Pair} (h : pair ∈ f.revoked) (op : Op) :
    pair ∈ (f.note C op).1.revoked := by
  rw [note_fst]
  cases countsOf C op with
  | revokes p => exact Std.ExtTreeSet.mem_insert.mpr (.inr h)
  | _ => exact h

theorem mem_revoked_foldl {f : TransportFold} {pair : Pair} (h : pair ∈ f.revoked) (ops : List Op) :
    pair ∈ (ops.foldl (fun f op => (f.note C op).1) f).revoked := by
  induction ops generalizing f with
  | nil => exact h
  | cons op ops ih => exact ih (mem_revoked_note h op)

/-- An op that proves a pair is of a transport stream. -/
theorem gladeId_of_proven {op : Op} {p : Pair × Option ℤ} (h : proven C op = some p) :
    op.gladeId = gTransportBindings ∨ op.gladeId = gTransportRevocations := by
  unfold proven at h
  dsimp only at h
  split at h
  case h_2 => cases h
  case h_1 fields _ =>
    split at h
    case h_2 => cases h
    case h_1 said hsaid =>
      unfold saidOf at hsaid
      split at hsaid
      · split_ifs at hsaid with hg
        exact .inl hg.1
      · split_ifs at hsaid with hg
        exact .inr hg.1
      · cases hsaid

/-- A counted revocation is in the fold from then on. -/
theorem mem_revoked_of_proven {f : TransportFold} {op : Op} {pair : Pair} (h : proven C op = some (pair, none)) :
    pair ∈ (f.note C op).1.revoked := by
  rw [note_fst, countsOf, if_neg (not_not.mpr (gladeId_of_proven h)), h]
  exact Std.ExtTreeSet.mem_insert_self

/-! ### The rule -/

theorem binds_eq_live {f : TransportFold} {node endpoint : Bytes32} {now : ℤ} :
    f.binds node endpoint now = .live ↔
      (endpoint, node) ∉ f.revoked ∧ 0 < now ∧ ∃ validFrom, f.bindings[(endpoint, node)]? = some validFrom ∧ validFrom ≤ now := by
  unfold binds
  by_cases hr : (endpoint, node) ∈ f.revoked
  · simp [hr]
  · by_cases hn : now ≤ 0
    · simp [hr, hn]
    · cases hb : f.bindings[(endpoint, node)]? with
      | none => simp [hr, hn]
      | some validFrom =>
        by_cases hv : validFrom ≤ now <;> simp [hr, hn, hv]
        omega

theorem mem_nodesOf {f : TransportFold} {endpoint node : Bytes32} :
    node ∈ f.nodesOf endpoint ↔ (endpoint, node) ∈ f.bindings ∨ (endpoint, node) ∈ f.revoked := by
  simp [nodesOf, Std.ExtTreeSet.mem_toList]

theorem mem_nodesOf_of_live {f : TransportFold} {node endpoint : Bytes32} {now : ℤ}
    (h : f.binds node endpoint now = .live) : node ∈ f.nodesOf endpoint := by
  obtain ⟨-, -, validFrom, hb, -⟩ := binds_eq_live.mp h
  refine mem_nodesOf.mpr (.inl ?_)
  rw [Std.ExtTreeMap.mem_iff_isSome_getElem?, hb]
  rfl

theorem pos_of_live {f : TransportFold} {node endpoint : Bytes32} {now : ℤ} (h : f.binds node endpoint now = .live) :
    0 < now := (binds_eq_live.mp h).2.1

/-- At HELLO the door admits a node its endpoint is live for, or a configured
endpoint that no record names. -/
theorem door_hello {f : TransportFold} {endpoint node : Bytes32} {configured : Bool} {now : ℤ} :
    f.door endpoint (some node) configured now = .ok () ↔
      f.binds node endpoint now = .live ∨ (0 < now ∧ configured = true ∧ f.nodesOf endpoint = []) := by
  unfold door
  by_cases hn : now ≤ 0
  · rw [if_pos hn]
    constructor
    · nofun
    · rintro (h | ⟨h, -⟩)
      · exact absurd (pos_of_live h) (not_lt.mpr hn)
      · exact absurd h (not_lt.mpr hn)
  rw [if_neg hn]
  dsimp only
  cases hh : (f.nodesOf endpoint).head? with
  | none =>
    have hnil : f.nodesOf endpoint = [] := List.head?_eq_none_iff.mp hh
    have hnot : ¬ f.binds node endpoint now = .live := fun h => by simpa [hnil] using mem_nodesOf_of_live h
    cases configured <;> simp [hnot, hnil, not_le.mp hn]
  | some first =>
    have hne : ¬ f.nodesOf endpoint = [] := fun h => by simp [h] at hh
    dsimp only
    by_cases hl : f.binds node endpoint now = .live
    · simp [hl]
    · rw [if_neg hl]
      have hno : ¬ (f.binds node endpoint now = .live ∨ (0 < now ∧ configured = true ∧ f.nodesOf endpoint = [])) := by
        simp [hl, hne]
      refine iff_of_false (fun h => ?_) hno
      split_ifs at h
      split at h <;> cases h

/-- At accept it admits an endpoint live for some node, or a configured one no record names. -/
theorem door_accept {f : TransportFold} {endpoint : Bytes32} {configured : Bool} {now : ℤ} :
    f.door endpoint none configured now = .ok () ↔
      (∃ node, f.binds node endpoint now = .live) ∨ (0 < now ∧ configured = true ∧ f.nodesOf endpoint = []) := by
  unfold door
  by_cases hn : now ≤ 0
  · rw [if_pos hn]
    constructor
    · nofun
    · rintro (⟨node, h⟩ | ⟨h, -⟩)
      · exact absurd (pos_of_live h) (not_lt.mpr hn)
      · exact absurd h (not_lt.mpr hn)
  rw [if_neg hn]
  dsimp only
  cases hh : (f.nodesOf endpoint).head? with
  | none =>
    have hnil : f.nodesOf endpoint = [] := List.head?_eq_none_iff.mp hh
    have hnot : ∀ node, ¬ f.binds node endpoint now = .live := fun node h => by simpa [hnil] using mem_nodesOf_of_live h
    cases configured <;> simp [hnot, hnil, not_le.mp hn]
  | some first =>
    have hne : ¬ f.nodesOf endpoint = [] := fun h => by simp [h] at hh
    cases hf : (f.nodesOf endpoint).find? (fun n => f.binds n endpoint now = .live) with
    | some m =>
      have hm : f.binds m endpoint now = .live := by simpa using List.find?_some hf
      exact iff_of_true rfl (.inl ⟨m, hm⟩)
    | none =>
      refine iff_of_false nofun ?_
      rintro (⟨m, hm⟩ | ⟨-, -, h⟩)
      · have := List.find?_eq_none.mp hf m (mem_nodesOf_of_live hm)
        simp [hm] at this
      · exact hne h

end TransportFold

/-! ### The door over a run -/

open Transport TransportFold

variable {C : Crypto}

theorem Door.noted_fold (door : Door) (ops : List Op) :
    (door.noted C ops).fold = ops.foldl (fun f op => (f.note C op).1) door.fold := by
  unfold noted
  induction ops generalizing door with
  | nil => rfl
  | cons op ops ih => exact ih (door.note C op).1

/-- A revocation a node signs, in its own chain, counts. -/
theorem proven_signRevocation (me : NodeIdentity C) (endpoint : Bytes32) {op : Op}
    (hg : op.gladeId = gTransportRevocations) (hchain : op.share = home ∧ op.origin = me.name)
    (hrecord : recordBytes op.payload = (Record.transportRevoke (signRevocation me endpoint)).encode)
    (hlen : (Record.transportRevoke (signRevocation me endpoint)).encode.length < 2 ^ 64) :
    proven C op = some ((endpoint, me.nodeId), none) := by
  have hparse := parse_encode ⟨(Record.transportRevoke (signRevocation me endpoint)).shaped_toCbor, hlen⟩
  have hsaid : saidOf op.gladeId [(1, .text me.name), (2, .text (hex endpoint)), (3, .bytes (signRevocation me endpoint).sig)] =
      some ⟨me.name, hex endpoint, none, (signRevocation me endpoint).sig, transportRevocationTag⟩ := by
    simp [saidOf, hg]
  have hsig := C.verifyStrict_sign me.seed (transportRevocationTag ++ message me.name (hex endpoint) none)
  have hcbor : (Record.transportRevoke (signRevocation me endpoint)).toCbor =
      .map [(1, .text me.name), (2, .text (hex endpoint)), (3, .bytes (signRevocation me endpoint).sig)] := rfl
  unfold proven
  rw [hrecord, Record.encode]
  dsimp only
  rw [hparse, hcbor]
  dsimp only
  rw [hsaid]
  have hname : keyOf me.name = some me.nodeId := keyOf_hex me.nodeId
  simp only [keyOf_hex, hname, Option.bind_eq_bind, Option.bind_some, true_and, Option.map_none]
  exact if_pos ⟨hsig, hchain⟩

/-- The door's fold is the fold of the ops it noted, in any order, over what it
loaded. A pair whose revocation it noted is revoked from then on, at every clock.
At HELLO it admits a node only with a live binding of the endpoint, or through a
configured endpoint that no record names; and then it admits the endpoint at
accept too. -/
theorem transport_door (C : Crypto) :
    (∀ (configured : List Bytes32) (ops ops' : List Op), ops'.Perm ops →
      ((Door.new configured).noted C ops').fold = overOps C ops) ∧
    (∀ (door : Door) (s : Store) (ops ops' : List Op), ops'.Perm ops →
      ((door.load C s).noted C ops').fold = ((door.load C s).noted C ops).fold) ∧
    (∀ (door : Door) (op : Op) (endpoint node : Bytes32), proven C op = some ((endpoint, node), none) →
      ∀ (later : List Op) (now : ℤ),
        ((door.note C op).1.noted C later).fold.binds node endpoint now = .revoked ∧
        ((door.note C op).1.noted C later).binds node endpoint now ≠ .ok ()) ∧
    (∀ (f : TransportFold) (endpoint node : Bytes32) (configured : Bool) (now : ℤ),
      f.door endpoint (some node) configured now = .ok () →
      ((endpoint, node) ∉ f.revoked ∧ 0 < now ∧
          ∃ validFrom, f.bindings[(endpoint, node)]? = some validFrom ∧ validFrom ≤ now) ∨
        (configured = true ∧ ∀ n, (endpoint, n) ∉ f.bindings ∧ (endpoint, n) ∉ f.revoked)) ∧
    (∀ (f : TransportFold) (endpoint node : Bytes32) (configured : Bool) (now : ℤ),
      f.door endpoint (some node) configured now = .ok () → f.door endpoint none configured now = .ok ()) := by
  refine ⟨fun configured ops ops' h => ?_, fun door s ops ops' h => ?_, fun door op endpoint node h later now => ?_,
    fun f endpoint node configured now h => ?_, fun f endpoint node configured now h => ?_⟩
  · rw [Door.noted_fold]
    exact foldl_note_perm h _
  · rw [Door.noted_fold, Door.noted_fold]
    exact foldl_note_perm h _
  · have hmem : (endpoint, node) ∈ ((door.note C op).1.noted C later).fold.revoked := by
      rw [Door.noted_fold]
      exact mem_revoked_foldl (mem_revoked_of_proven h) later
    have hrevoked : ((door.note C op).1.noted C later).fold.binds node endpoint now = .revoked := if_pos hmem
    refine ⟨hrevoked, fun hok => ?_⟩
    obtain hlive | ⟨-, -, hnil⟩ := door_hello.mp hok
    · rw [hrevoked] at hlive
      cases hlive
    · have := mem_nodesOf.mpr (.inr hmem)
      simp [hnil] at this
  · obtain hlive | ⟨-, hconf, hnil⟩ := door_hello.mp h
    · exact .inl (binds_eq_live.mp hlive)
    · refine .inr ⟨hconf, fun n => ?_⟩
      rw [← not_or, ← mem_nodesOf, hnil]
      exact List.not_mem_nil
  · obtain hlive | hfree := door_hello.mp h
    · exact door_accept.mpr (.inl ⟨node, hlive⟩)
    · exact door_accept.mpr (.inr hfree)

/-! ### A node that leaves its endpoint -/

def mover : NodeIdentity .plain := { seed := filled 1 }

def oldEndpoint : Bytes32 := filled 2

/-- The first op of its chain of such records. -/
def moverData (record : Record) : OpData where
  share := home
  gladeId := record.gladeId
  key := []
  origin := mover.name
  seq := 0
  prev := none
  lamport := 0
  refs := []
  shape := .log
  payload := record.encode

def arriving : Op := ⟨moverData (.transport (signBinding mover oldEndpoint 1)), by decide +kernel⟩

def leaving : Op := ⟨moverData (.transportRevoke (signRevocation mover oldEndpoint)), by decide +kernel⟩

/-- Its binding counts until it has left, and not again. -/
theorem transport_door_mover : ((Door.new []).noted .plain [arriving]).binds mover.nodeId oldEndpoint 5 = .ok () ∧
    (((Door.new []).note .plain leaving).1.noted .plain [arriving]).binds mover.nodeId oldEndpoint 5 ≠ .ok () := by
  have hrecord : recordBytes leaving.payload = (Record.transportRevoke
    (signRevocation mover oldEndpoint)).encode := by decide +kernel
  have hlen : (Record.transportRevoke (signRevocation mover oldEndpoint)).encode.length < 2 ^ 64 := by decide +kernel
  have hproven : proven .plain leaving = some ((oldEndpoint, mover.nodeId), none) :=
    proven_signRevocation mover oldEndpoint rfl ⟨rfl, rfl⟩ hrecord hlen
  obtain ⟨-, -, hrevoked, -⟩ := transport_door .plain
  exact ⟨by decide +kernel, (hrevoked (Door.new []) leaving oldEndpoint mover.nodeId hproven [arriving] 5).2⟩

end Glade.Node
