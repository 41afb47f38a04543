import Glade.Lib.OrdMap
import Glade.Wire.Messages

/-! Directed exchanges on one node (`node/src/exchange.rs`, and the end of a session
in `server.rs`). A step holds one lock, or sends one frame: a call is looked up
and filed under one lock, handed over in a later step, and its bound runs from
then; an answer is taken under the lock, and told in a later step. A session ends
in three: it leaves the session table, it releases its surfaces, and the calls it
filed or holds are taken. -/

namespace Glade.Node.Exchange

open Wire

abbrev SessionId := ℕ

/-- `ExchangeRes{ok:false}` carrying the reason. -/
def resErr (corr error : String) : ExchangeRes := { corr, ok := false, payload := none, error := some error }

/-- The answer to a call its provider has not answered in time. -/
def timedOut (corr : String) : ExchangeRes := resErr corr "provider timeout at claim holder"

/-- The answer to a call whose provider's session ended. -/
def providerLeft (corr : String) : ExchangeRes := resErr corr "the provider left before answering"

/-- A filed call: its caller's session and own correlation, and the session of
the provider it was handed to. -/
structure Call where
  caller : SessionId
  corr : String
  provider : SessionId
  deriving DecidableEq

/-- How many correlations the node has minted, and the calls filed, by theirs. -/
structure Pending where
  minted : ℕ
  calls : Std.ExtTreeMap String Call

namespace Pending

/-- The correlation minted `n`th. -/
def name (n : ℕ) : String := "n" ++ toString n

/-- File a call, under the correlation the handler sees. The count is a `u64`. -/
def file (p : Pending) (call : Call) : Option (String × Pending) :=
  if p.minted + 1 < 2 ^ 64 then
    some (name (p.minted + 1), { minted := p.minted + 1, calls := p.calls.insert (name (p.minted + 1)) call })
  else none

/-- Take the call a reply from `provider` answers: none that was handed to
another session. -/
def answered (p : Pending) (provider : SessionId) (minted : String) : Option Call × Pending :=
  match p.calls[minted]? with
  | none => (none, p)
  | some call =>
    if call.provider ≠ provider then (none, p) else (some call, { p with calls := p.calls.erase minted })

/-- Take the call whose bound has passed. -/
def expired (p : Pending) (minted : String) : Option Call × Pending :=
  match p.calls[minted]? with
  | none => (none, p)
  | some call => (some call, { p with calls := p.calls.erase minted })

/-- Session `sid` has ended: forget every call it filed, and take every call
pending on it. -/
def ended (p : Pending) (sid : SessionId) : List (String × Call) × Pending :=
  (p.calls.toList.filter (fun e => e.2.provider = sid ∧ e.2.caller ≠ sid),
    { p with calls := p.calls.filter (fun _ call => call.caller ≠ sid ∧ call.provider ≠ sid) })

end Pending

/-- What a task has still to do. `tell` carries the correlation minted for the
call it answers, if one was. -/
inductive Task where
  | hand (provider : SessionId) (minted : String) (req : ExchangeReq)
  | bound (minted : String)
  | tell (minted : Option String) (to_ : SessionId) (res : ExchangeRes)
  | forward (corr : String) (to_ : SessionId)
  deriving DecidableEq

/-- How far a session's end has come. -/
inductive Stage where
  | release
  | sweep
  deriving DecidableEq

/-- Of the state the node's tasks share, what exchanges use. -/
structure Shared where
  next : SessionId
  /-- The sessions in the session table. -/
  out : Finset SessionId
  providers : Std.ExtTreeMap (String × String) SessionId
  pending : Pending
  tasks : List Task
  ending : List (SessionId × Stage)

def Shared.new : Shared :=
  { next := 1, out := ∅, providers := ∅, pending := { minted := 0, calls := ∅ }, tasks := [], ending := [] }

/-- Where a request goes: to the echo of an undeclared surface, to a provider
here, to the claim holder, or nowhere. -/
inductive Route where
  | echo
  | here
  | forward
  | absent (reason : String)

inductive Event where
  /-- A session begins: a client's, or the one a forwarded exchange is answered through. -/
  | opened
  | attach (sid : SessionId) (share gladeId : String)
  | request (sid : SessionId) (req : ExchangeReq) (route : Route)
  | respond (sid : SessionId) (res : ExchangeRes)
  /-- A task takes its next step; a forward brings `res`. -/
  | run (task : Task) (res : ExchangeRes)
  /-- A session leaves the session table. One that attached to nothing has no surface to release. -/
  | close (sid : SessionId) (attached : Bool)
  | release (sid : SessionId)
  | sweep (sid : SessionId)

/-- What a step did, for whoever watches: a call filed, a request handed to a
session, an answer queued to one. -/
inductive Happening where
  | filed (minted : String) (call : Call)
  | handed (minted : String) (to_ : SessionId) (req : ExchangeReq)
  | told (minted : Option String) (to_ : SessionId) (res : ExchangeRes)
  deriving DecidableEq

namespace Shared

/-- Hand a call to the provider attached for its surface, or answer that none is. -/
def handleLocal (s : Shared) (sid : SessionId) (req : ExchangeReq) : Shared × List Happening :=
  match s.providers[(req.share, req.gladeId)]? with
  | some psid =>
    let call : Call := { caller := sid, corr := req.corr, provider := psid }
    match s.pending.file call with
    | none => (s, [])
    | some (minted, pending) =>
      ({ s with pending, tasks := .hand psid minted { req with corr := minted } :: s.tasks }, [.filed minted call])
  | none =>
    let reason := s!"no authority provider attached for {req.share}/{req.gladeId}"
    ({ s with tasks := .tell none sid (resErr req.corr reason) :: s.tasks }, [])

def handleRequest (s : Shared) (sid : SessionId) (req : ExchangeReq) : Route → Shared × List Happening
  | .echo => ({ s with
      tasks := .tell none sid { corr := req.corr, ok := true, payload := some req.payload, error := none } :: s.tasks },
      [])
  | .here => s.handleLocal sid req
  | .forward => ({ s with tasks := .forward req.corr sid :: s.tasks }, [])
  | .absent reason => ({ s with tasks := .tell none sid (resErr req.corr reason) :: s.tasks }, [])

/-- The provider's answer, for the caller, under its own correlation again. -/
def handleResponse (s : Shared) (sid : SessionId) (res : ExchangeRes) : Shared :=
  match s.pending.answered sid res.corr with
  | (none, _) => s
  | (some call, pending) =>
    { s with pending, tasks := .tell (some res.corr) call.caller { res with corr := call.corr } :: s.tasks }

/-- One step of a task. A frame for a session no longer in the table is dropped. -/
def runTask (s : Shared) (res : ExchangeRes) : Task → Shared × List Happening
  | .hand provider minted req =>
    ({ s with tasks := .bound minted :: s.tasks }, if provider ∈ s.out then [.handed minted provider req] else [])
  | .bound minted =>
    match s.pending.expired minted with
    | (none, _) => (s, [])
    | (some call, pending) =>
      ({ s with pending, tasks := .tell (some minted) call.caller (timedOut call.corr) :: s.tasks }, [])
  | .tell minted to_ res => (s, if to_ ∈ s.out then [.told minted to_ res] else [])
  | .forward _ to_ => ({ s with tasks := .tell none to_ res :: s.tasks }, [])

def step (s : Shared) : Event → Shared × List Happening
  | .opened => ({ s with next := s.next + 1, out := insert s.next s.out }, [])
  | .attach sid share gladeId =>
    if sid ∈ s.out then ({ s with providers := s.providers.insert (share, gladeId) sid }, []) else (s, [])
  | .request sid req route => if sid ∈ s.out then s.handleRequest sid req route else (s, [])
  | .respond sid res => if sid ∈ s.out then (s.handleResponse sid res, []) else (s, [])
  | .run task res => if task ∈ s.tasks then { s with tasks := s.tasks.erase task }.runTask res task else (s, [])
  | .close sid attached =>
    if sid ∈ s.out then
      ({ s with out := s.out.erase sid, ending := (sid, if attached then .release else .sweep) :: s.ending }, [])
    else (s, [])
  | .release sid =>
    if (sid, Stage.release) ∈ s.ending then
      ({ s with
         providers := s.providers.filter (fun _ psid => psid ≠ sid)
         ending := (sid, .sweep) :: s.ending.erase (sid, .release) }, [])
    else (s, [])
  | .sweep sid =>
    if (sid, Stage.sweep) ∈ s.ending then
      let (orphaned, pending) := s.pending.ended sid
      ({ s with
         pending
         tasks := orphaned.map (fun e => .tell (some e.1) e.2.caller (providerLeft e.2.corr)) ++ s.tasks
         ending := s.ending.erase (sid, .sweep) }, [])
    else (s, [])

/-- A run's state, and what it did. -/
def runOf (events : List Event) : Shared × List Happening :=
  events.foldl (fun p e => ((p.1.step e).1, p.2 ++ (p.1.step e).2)) (.new, [])

end Shared

end Glade.Node.Exchange
