import Glade.Registry.Registration

/-! The workspace entry in force (`replicas_of`, `node/src/registry.rs`): the last one
of a share. Two writers mint it, the registration of an app's file and the call
that serves a workspace (`serve_workspace_on`, `node/src/claims.rs`), and each skips
an entry whose bytes the history has; so a name that is changed back is not
declared again. -/

namespace Glade.Registry

open Wire Node RecordsFile AppFile

variable {C : Crypto}

/-! ### The entry in force -/

/-- The last entry of a share, in the fold's order. -/
def lastEntry (r : Registry C) (share : String) : Option WorkspaceEntry :=
  (((r.foldIter gWorkspaces).filterMap fun o => folded o WorkspaceEntry.fromCbor).filter
    (fun e => e.workspace = share)).getLast?

/-- The nodes that may host a share. -/
def replicasOf (r : Registry C) (share : String) : List String :=
  ((((r.lastEntry share).map (·.eligibleHosts)).getD []).insertionSort (· ≤ ·)).dedup

/-! ### Serving a workspace -/

/-- Whether claim `a` holds a share over `b`: by the higher epoch, then by the lower node. -/
def ClaimAbove (a b : ServeClaim) : Prop := b.epoch < a.epoch ∨ (a.epoch = b.epoch ∧ a.node < b.node)

instance (a b : ServeClaim) : Decidable (ClaimAbove a b) := inferInstanceAs (Decidable (_ ∨ _))

/-- The last known owner of a share, by the claims a replica holds. -/
def lastClaim (claims : List ServeClaim) (share : String) : Option ServeClaim :=
  claims.foldl (fun best c =>
    if c.share = share ∧ best.all (fun b => ClaimAbove c b) then some c else best) none

/-- The highest epoch of a share's claims. -/
def maxClaimEpoch (claims : List ServeClaim) (share : String) : Int64 := ((lastClaim claims share).map (·.epoch)).getD 0

/-- What a node writes its directory through: its registry, the file that is saved
in, and the shares it serves, each at its claim's epoch. -/
structure DirAuthority (C : Crypto) where
  registry : Registry C
  file : Option Bytes
  seen : Seen
  served : Std.ExtTreeMap String Int64

/-- What a call that serves a workspace finds: the claims of the served replica,
the node's own and its peers', the wall clock, the lease, and the I/O call of the
save that fails, if one does. -/
structure Serving where
  claims : List ServeClaim
  nowMs : Int64
  leaseMs : Int64
  fault : Option Fault

inductive ServeError where
  /-- The claim's epoch has no next one. -/
  | exhausted
  /-- The lease's end is no time the clock has: the node stops. -/
  | panicked
  | unaccepted (why : AcceptError)

/-- The entry and the first claim of a workspace, appended together; the entry is
skipped where the history has its bytes. -/
def mint (node : String) (entry : WorkspaceEntry) (claim : ServeClaim) : Change C :=
  let claimed : Change C := .append (.serve claim) node fun answer =>
    match answer with
    | .ok _ => .done
    | .error why => .refuse why
  .look fun r =>
    if r.contains gWorkspaces (Record.workspace entry).encode then claimed
    else .append (.workspace entry) node fun answer =>
      match answer with
      | .ok _ => claimed
      | .error why => .refuse why

/-- Serve a workspace: whether anything was minted, and the directory after. -/
def serveWorkspaceOn (dir : DirAuthority C) (node share name : String) (found : Serving) :
    Except ServeError Bool × DirAuthority C :=
  if share ∈ dir.served then (.ok false, dir)
  else if (lastClaim found.claims share).any (fun c => c.node ≠ node) then (.ok false, dir)
  else if maxClaimEpoch found.claims share = Int64.maxValue then (.error .exhausted, dir)
  else if ¬ IsI64 (found.nowMs.toInt + found.leaseMs.toInt) then (.error .panicked, dir)
  else
    let epoch := maxClaimEpoch found.claims share + 1
    let entry : WorkspaceEntry := { workspace := share, name, eligibleHosts := [node] }
    let claim : ServeClaim := { node, share, leaseExpiryMs := found.nowMs + found.leaseMs, epoch }
    match accept dir.registry dir.file dir.seen (mint node entry claim) found.fault with
    | (.ok _, registry, seen, file) => (.ok true, { registry, seen, file, served := dir.served.insert share epoch })
    | (.error why, registry, seen, file) => (.error (.unaccepted why), { dir with registry, seen, file })

/-- A call of a node that declares workspaces: it registers an app's file, or
serves a workspace. -/
inductive Declaring where
  | register (file : { d : AppDecl // ∃ text, AppFile.parse text = .ok d })
  | serve (share name : String) (found : Serving)

/-- The directory after a call. -/
def DirAuthority.call (node : String) (dir : DirAuthority C) : Declaring → DirAuthority C
  | .register file => { dir with registry := (register file.1 dir.registry node).2 }
  | .serve share name found => (serveWorkspaceOn dir node share name found).2

/-- A node's directory after appends of its own and then the calls, whatever its
file held and it served before them. -/
def declaring (me : NodeIdentity C) (records : List Record) (start : DirAuthority C) (calls : List Declaring) :
    DirAuthority C :=
  calls.foldl (DirAuthority.call me.name)
    { start with registry := appends (fresh (some me)) (records.map fun record => (record, me.name)) }

/-! ### The entry in force after an append -/

theorem WorkspaceEntry.fromCbor_toCbor (e : WorkspaceEntry) : WorkspaceEntry.fromCbor e.toCbor = .ok e := by
  simp [WorkspaceEntry.toCbor, WorkspaceEntry.fromCbor, Cbor.tryGet, Cbor.tryText, Cbor.tryArray, texts, mapM_tryText,
    bind, Except.bind, pure, Except.pure]

/-- What a registry of one origin's appends is, its workspace stream in order. -/
structure Filed (origin : String) (r : Registry C) : Prop extends r.Own origin where
  le_tip : ∀ op ∈ r.ops, op.gladeId = gWorkspaces →
    ∃ tip, r.tips[(⟨gWorkspaces, origin⟩ : StreamId)]? = some tip ∧ op.seq ≤ tip.1
  ordered : (r.ops.filter (fun op => op.gladeId = gWorkspaces)).Pairwise fun a b => a.seq ≤ b.seq

theorem filed_fresh (identity : Option (NodeIdentity C)) (origin : String) : (fresh identity).Filed origin := by
  refine ⟨own_fresh identity origin, ?_, ?_⟩
  · simp [fresh, new]
  · simp [fresh, new]

/-- A placed checkpoint leaves the workspace stream alone. -/
theorem filter_placed (r : Registry C) (op : Op) (origin : String) (floor : Floor) :
    (r.placed op ⟨gClaims, origin⟩ floor).ops.filter (fun held => held.gladeId = gWorkspaces) =
      r.ops.filter (fun held => held.gladeId = gWorkspaces) := by
  have hne : gWorkspaces ≠ gClaims := by decide
  rw [Registry.placed, List.filter_filter]
  refine List.filter_congr fun held _ => ?_
  by_cases hg : held.gladeId = gWorkspaces <;> simp [hg, hne]

theorem Written.lt_seq {r : Registry C} {record : Record} {origin : String} {op : Op} (h : r.Written record origin op)
    (hr : r.Filed origin) (hg : op.gladeId = gWorkspaces) {held : Op} (hheld : held ∈ r.ops)
    (hstream : held.gladeId = gWorkspaces) : held.seq < op.seq := by
  obtain ⟨tip, htip, hle⟩ := hr.le_tip held hheld hstream
  have hseq : op.seq = tip.1 + 1 := by
    rw [h, nextOp, ← h.gladeId_eq, hg, htip]
  omega

theorem Filed.append {r r' : Registry C} {origin : String} (hr : r.Filed origin) {record : Record} {op : Op}
    (h : r.appendReturning record origin = .ok (op, r')) : r'.Filed origin := by
  refine ⟨hr.toOwn.append h, ?_, ?_⟩
  all_goals obtain ⟨-, hw, answer, hlink⟩ := written_of_append h
  · obtain rfl | ⟨-, rfl⟩ | ⟨floor, -, rfl⟩ := link_cases hlink
    · exact hr.le_tip
    · intro held hheld hg
      simp only [take, List.mem_append, List.mem_singleton] at hheld
      simp only [take, Std.ExtTreeMap.getElem?_insert, Std.LawfulEqOrd.compare_eq_iff_eq]
      split_ifs with hstream
      · have hg' : op.gladeId = gWorkspaces := congrArg StreamId.stream hstream
        refine ⟨_, rfl, ?_⟩
        obtain hheld | rfl := hheld
        · exact (hw.lt_seq hr hg' hheld hg).le
        · exact le_rfl
      · obtain hheld | rfl := hheld
        · exact hr.le_tip held hheld hg
        · refine absurd ?_ hstream
          rw [streamOf, hg, hw.origin_eq]
    · intro held hheld hg
      obtain ⟨tip, htip, hle⟩ := hr.le_tip held (List.mem_filter.mp hheld).1 hg
      refine ⟨tip, ?_, hle⟩
      have hcp : (⟨gCheckpoints, op.origin⟩ : StreamId) ≠ ⟨gWorkspaces, origin⟩ := fun heq =>
        (show gCheckpoints ≠ gWorkspaces by decide) (congrArg StreamId.stream heq)
      have hclaims : (⟨gClaims, op.origin⟩ : StreamId) ≠ ⟨gWorkspaces, origin⟩ := fun heq =>
        (show gClaims ≠ gWorkspaces by decide) (congrArg StreamId.stream heq)
      simp only [Registry.placed, Std.ExtTreeMap.getElem?_insert, Std.LawfulEqOrd.compare_eq_iff_eq, if_neg hcp,
        if_neg hclaims, htip]
  · obtain rfl | ⟨-, rfl⟩ | ⟨floor, -, rfl⟩ := link_cases hlink
    · exact hr.ordered
    · rw [take, List.filter_append, List.pairwise_append]
      refine ⟨hr.ordered, by by_cases hg : op.gladeId = gWorkspaces <;> simp [hg], fun held hheld last hlast => ?_⟩
      obtain ⟨hlast, hg⟩ := List.mem_filter.mp hlast
      obtain ⟨hheld, hstream⟩ := List.mem_filter.mp hheld
      obtain rfl := List.mem_singleton.mp hlast
      exact (hw.lt_seq hr (of_decide_eq_true hg) hheld (of_decide_eq_true hstream)).le
    · rw [filter_placed]
      exact hr.ordered

theorem filed_appends (identity : Option (NodeIdentity C)) (origin : String) (records : List Record) :
    (appends (fresh identity) (records.map fun record => (record, origin))).Filed origin := by
  induction records using List.reverseRecOn with
  | nil => exact filed_fresh identity origin
  | append_singleton records record ih =>
    unfold appends at ih ⊢
    rw [List.map_append, List.map_singleton, List.foldl_concat, called]
    split
    case h_1 op r' h => exact ih.append h
    case h_2 => exact ih

/-- The workspace stream is folded in the order it was appended in. -/
theorem Filed.foldIter_eq {r : Registry C} {origin : String} (hr : r.Filed origin) :
    r.foldIter gWorkspaces = r.ops.filter (fun op => op.gladeId = gWorkspaces) := by
  refine List.Pairwise.insertionSort_eq (hr.ordered.imp_of_mem ?_)
  intro a b ha hb hle
  have ha' := hr.origin_eq a (List.mem_filter.mp ha).1
  have hb' := hr.origin_eq b (List.mem_filter.mp hb).1
  exact .inr ⟨ha'.trans hb'.symm, hle⟩

theorem workspace_of_gladeId {record : Record} (h : record.gladeId = gWorkspaces) : ∃ e, record = .workspace e := by
  cases record <;> simp only [Record.gladeId] at h <;> first | exact ⟨_, rfl⟩ | exact absurd h (by decide)

/-- The entry of a share a record is. -/
def entryFor (share : String) : Record → Option WorkspaceEntry
  | .workspace e => if e.workspace = share then some e else none
  | _ => none

/-- The last entry of a share is the one appended last. -/
theorem Filed.lastEntry_append {r r' : Registry C} {origin : String} (hr : r.Filed origin) {record : Record} {op : Op}
    (h : r.appendReturning record origin = .ok (op, r')) (share : String) :
    r'.lastEntry share = (entryFor share record).or (r.lastEntry share) := by
  have hr' := hr.append h
  obtain ⟨-, hw, answer, hlink⟩ := written_of_append h
  unfold lastEntry
  rw [hr'.foldIter_eq, hr.foldIter_eq]
  by_cases hg : record.gladeId = gWorkspaces
  · have hord : Ordinary record := by
      rw [Ordinary, hg]
      decide
    obtain ⟨e, rfl⟩ := workspace_of_gladeId hg
    have hread : readRecord op WorkspaceEntry.fromCbor = .ok e :=
      (hw.readRecord_eq WorkspaceEntry.fromCbor).trans (WorkspaceEntry.fromCbor_toCbor e)
    have hfolded : folded op WorkspaceEntry.fromCbor = some e := by rw [folded, hread]
    have hfilter : [op].filter (fun op => op.gladeId = gWorkspaces) = [op] := by
      simp [hw.gladeId_eq, hg]
    rw [take_of_append hr.plain h hord.1 hord.2, take, List.filter_append, hfilter, List.filterMap_append,
      List.filter_append, List.getLast?_append]
    by_cases he : e.workspace = share <;> simp [entryFor, hfolded, he]
  · have hsame : r'.ops.filter (fun op => op.gladeId = gWorkspaces) = r.ops.filter (fun op => op.gladeId = gWorkspaces) := by
      obtain rfl | ⟨-, rfl⟩ | ⟨floor, -, rfl⟩ := link_cases hlink
      · rfl
      · simp [take, hw.gladeId_eq, hg]
      · exact filter_placed r op op.origin floor
    have hnone : entryFor share record = none := by
      cases record <;> first | rfl | exact absurd rfl hg
    rw [hsame, hnone, Option.none_or]

/-! ### The entry in force after a call -/

section Runs

variable {origin : String} {records : List Record} {r r' : Registry C}

theorem Appended.filed (h : Appended origin records r r') (hr : r.Filed origin) : r'.Filed origin := by
  induction h with
  | nil => exact hr
  | cons happend _ ih => exact ih (hr.append happend)

theorem Appended.lastEntry_eq (h : Appended origin records r r') (hr : r.Filed origin) (share : String) :
    r'.lastEntry share = ((records.filterMap (entryFor share)).getLast?).or (r.lastEntry share) := by
  induction h with
  | nil => rfl
  | cons happend _ ih =>
    rw [ih (hr.append happend), hr.lastEntry_append happend, ← Option.or_assoc]
    congr 1
    rw [List.filterMap_cons]
    cases he : entryFor share _ with
    | none => simp
    | some e => simp [List.getLast?_cons, Option.or_some]

theorem filed_appendMissing (hr : r.Filed origin) (l : List (Record × Bool)) (out : Registered) :
    (appendMissing origin l out r).2.Filed origin := by
  induction l generalizing out r with
  | nil => exact hr
  | cons e l ih =>
    obtain ⟨record, has⟩ := e
    cases has with
    | true => exact ih hr _
    | false =>
      unfold appendMissing
      split
      case h_1 => exact hr
      case h_2 op r₁ happend => exact ih (hr.append happend) _

end Runs

/-- Whether a call may declare an entry: the history has not its bytes, or it is in force. -/
def Redeclared (r : Registry C) (e : WorkspaceEntry) : Prop :=
  r.contains gWorkspaces (Record.workspace e).encode = false ∨ r.lastEntry e.workspace = some e

/-- The entry a file's workspace registers. -/
def entryOf (node : String) (w : WorkspaceDecl) : WorkspaceEntry :=
  { workspace := w.share, name := w.name, eligibleHosts := [node] }

/-- A file's workspace is in force after its registration exactly if it may be declared. -/
theorem Filed.lastEntry_register {r r' : Registry C} {node : String} (hr : r.Filed node) {d : AppDecl} (hd : d.Sound)
    {out : Registered} (h : register d r node = (.ok out, r')) {w : WorkspaceDecl} (hw : w ∈ d.workspaces) :
    r'.lastEntry w.share = some (entryOf node w) ↔ r.Redeclared (entryOf node w) := by
  set e := entryOf node w with he
  set own := (missing (asked d r node)).filterMap (entryFor w.share) with hown
  have hlast : r'.lastEntry w.share = own.getLast?.or (r.lastEntry w.share) :=
    (appended_of_register h).lastEntry_eq hr w.share
  -- The file names each share once.
  have hall : ∀ e' ∈ own, e' = e ∧ (Record.workspace e, false) ∈ asked d r node := by
    intro e' hmem
    obtain ⟨record, hrecord, hentry⟩ := List.mem_filterMap.mp hmem
    rw [mem_missing] at hrecord
    unfold entryFor at hentry
    split at hentry
    case h_2 => cases hentry
    case h_1 e'' =>
      split_ifs at hentry with hshare
      obtain rfl := Option.some.inj hentry
      have hasked := hrecord
      rw [asked, List.mem_append, mem_bindingRecords] at hrecord
      obtain (⟨b, -, hne, -⟩ | ⟨g, -, -, hne⟩) | hother := hrecord
      · cases hne
      · cases hne
      · obtain ⟨record', hother, heq⟩ := List.mem_map.mp hother
        obtain ⟨rfl, -⟩ := Prod.mk.inj heq
        simp only [otherRecords, workspaceRecords, List.mem_append, List.mem_map, reduceCtorEq, and_false, exists_false,
          false_or, Record.workspace.injEq] at hother
        obtain ⟨w', hw', rfl⟩ := hother
        obtain rfl : w' = w := List.inj_on_of_nodup_map hd.shares hw' hw hshare
        exact ⟨rfl, hasked⟩
  have hasked : (Record.workspace e, false) ∈ asked d r node ↔ r.contains gWorkspaces (Record.workspace e).encode = false := by
    have hrecord : Record.workspace e ∈ otherRecords d node := by
      simp only [otherRecords, workspaceRecords, List.mem_append, List.mem_map]
      exact .inr ⟨w, hw, rfl⟩
    have hexisting := @Own.mem_existing _ r node hr.toOwn gWorkspaces (by decide) (Record.workspace e).encode
    rw [asked, List.mem_append, mem_bindingRecords, ← Bool.not_eq_true, ← hexisting]
    constructor
    · rintro ((⟨b, -, hne, -⟩ | ⟨g, -, -, hne⟩) | hother)
      · cases hne
      · cases hne
      · obtain ⟨record', -, heq⟩ := List.mem_map.mp hother
        obtain ⟨rfl, hhas⟩ := Prod.mk.inj heq
        exact of_decide_eq_false hhas
    · intro hhas
      exact .inr (List.mem_map.mpr ⟨_, hrecord, Prod.ext rfl (decide_eq_false hhas)⟩)
  rw [hlast, Redeclared, ← hasked]
  cases hlastOwn : own.getLast? with
  | none =>
    have hnot : (Record.workspace e, false) ∉ asked d r node := by
      intro hmem
      have hin : e ∈ own := List.mem_filterMap.mpr ⟨_, mem_missing.mpr hmem, if_pos rfl⟩
      rw [List.getLast?_eq_none_iff.mp hlastOwn] at hin
      cases hin
    simp only [Option.none_or, hnot, false_or]
    rfl
  | some e' =>
    obtain ⟨rfl, hin⟩ := hall e' (List.mem_of_getLast? hlastOwn)
    simp [hin]

/-- What minting appends. -/
theorem appended_of_mint {node : String} {entry : WorkspaceEntry} {claim : ServeClaim} {r staged : Registry C} {ops : List Op}
    (h : (mint node entry claim).stage r = .ok (staged, ops)) :
    Appended node ((if r.contains gWorkspaces (Record.workspace entry).encode then [] else [.workspace entry]) ++
      [.serve claim]) r staged := by
  have hclaimed : ∀ (r₁ staged : Registry C) (ops : List Op),
      (Change.append (.serve claim) node fun answer =>
        match answer with
        | .ok _ => .done
        | .error why => .refuse why : Change C).stage r₁ = .ok (staged, ops) → Appended node [.serve claim] r₁ staged := by
    intro r₁ staged ops h
    unfold Change.stage at h
    split at h
    case h_1 op r₂ happend =>
      obtain ⟨rfl, -⟩ := Prod.mk.inj (Except.ok.inj h)
      exact .cons happend (.nil _)
    case h_2 => cases h
  unfold mint at h
  rw [Change.stage] at h
  split_ifs at h ⊢
  · exact hclaimed r staged ops h
  · unfold Change.stage at h
    split at h
    case h_1 op r₁ happend =>
      dsimp only at h
      split at h
      case h_1 staged' ops' hnext =>
        obtain ⟨rfl, -⟩ := Prod.mk.inj (Except.ok.inj h)
        exact .cons happend (hclaimed r₁ staged' ops' hnext)
      case h_2 => cases h
    case h_2 => cases h

theorem changes_le_append {r r' : Registry C} {record : Record} {origin : String} {op : Op}
    (h : r.appendReturning record origin = .ok (op, r')) : r.changes ≤ r'.changes := by
  obtain ⟨-, -, answer, hlink⟩ := written_of_append h
  obtain rfl | ⟨-, rfl⟩ | ⟨floor, -, rfl⟩ := link_cases hlink
  · exact le_rfl
  · exact Nat.le_succ _
  · exact Nat.le_succ _

theorem Appended.changes_le {origin : String} {records : List Record} {r r' : Registry C} (h : Appended origin records r r') :
    r.changes ≤ r'.changes := by
  induction h with
  | nil => exact le_rfl
  | cons happend _ ih => exact (changes_le_append happend).trans ih

/-- A call that minted accepted what it staged, unless it took nothing. -/
theorem serveWorkspaceOn_cases (dir : DirAuthority C) (node share name : String) (found : Serving) :
    (serveWorkspaceOn dir node share name found).2.registry = dir.registry ∧
        (serveWorkspaceOn dir node share name found).1 ≠ .ok true ∨
      ∃ claim staged ops, (mint node { workspace := share, name, eligibleHosts := [node] } claim).stage dir.registry =
          .ok (staged, ops) ∧
        ((serveWorkspaceOn dir node share name found).2.registry = staged ∨
          staged.changes = dir.registry.changes ∧ (serveWorkspaceOn dir node share name found).2.registry = dir.registry) := by
  unfold serveWorkspaceOn
  split_ifs
  · exact .inl ⟨rfl, by simp⟩
  · exact .inl ⟨rfl, by simp⟩
  · exact .inl ⟨rfl, by simp⟩
  · dsimp only
    unfold accept
    set claim : ServeClaim :=
      { node, share, leaseExpiryMs := found.nowMs + found.leaseMs, epoch := maxClaimEpoch found.claims share + 1 }
    cases hstage : (mint node { workspace := share, name, eligibleHosts := [node] } claim).stage dir.registry with
    | error why => exact .inl ⟨rfl, by simp⟩
    | ok p =>
      obtain ⟨staged, ops⟩ := p
      dsimp only
      split_ifs with hsame
      · exact .inr ⟨claim, staged, ops, hstage, .inr ⟨hsame, rfl⟩⟩
      · cases hsave : save dir.file dir.seen staged.snapshot found.fault with
        | mk answer rest =>
          cases answer with
          | error why => exact .inl ⟨rfl, by simp⟩
          | ok u => exact .inr ⟨claim, staged, ops, hstage, .inl rfl⟩
  · exact .inl ⟨rfl, by simp⟩

theorem Filed.serve {dir : DirAuthority C} {node : String} (hr : dir.registry.Filed node) (share name : String)
    (found : Serving) : (serveWorkspaceOn dir node share name found).2.registry.Filed node := by
  obtain ⟨hsame, -⟩ | ⟨claim, staged, ops, hstage, hstaged | ⟨-, hsame⟩⟩ :=
    serveWorkspaceOn_cases dir node share name found
  · rw [hsame]
    exact hr
  · rw [hstaged]
    exact (appended_of_mint hstage).filed hr
  · rw [hsame]
    exact hr

/-- A workspace served is in force exactly if it may be declared. -/
theorem Filed.lastEntry_serve {dir dir' : DirAuthority C} {node share name : String} {found : Serving}
    (hr : dir.registry.Filed node) (h : serveWorkspaceOn dir node share name found = (.ok true, dir')) :
    let e : WorkspaceEntry := { workspace := share, name, eligibleHosts := [node] }
    dir'.registry.lastEntry share = some e ↔ dir.registry.Redeclared e := by
  intro e
  have hcases := serveWorkspaceOn_cases dir node share name found
  rw [h] at hcases
  obtain ⟨-, hminted⟩ | ⟨claim, staged, ops, hstage, hcase⟩ := hcases
  · exact absurd rfl hminted
  have happended := appended_of_mint hstage
  have hstaged := happended.lastEntry_eq hr share
  cases hhas : dir.registry.contains gWorkspaces (Record.workspace e).encode with
  | true =>
    rw [if_pos hhas] at hstaged
    have hlast : dir'.registry.lastEntry share = dir.registry.lastEntry share := by
      obtain hs | ⟨-, hs⟩ := hcase
      · rw [hs, hstaged]
        rfl
      · rw [hs]
    rw [hlast, Redeclared, hhas]
    simp
    rfl
  | false =>
    rw [if_neg (by rw [hhas]; simp)] at hstaged happended
    have hentry : staged.lastEntry share = some e := by
      rw [hstaged, List.filterMap_append, show [Record.serve claim].filterMap (entryFor share) = [] from rfl]
      simp [entryFor, e]
    -- The entry was taken, so the change is not nothing.
    have hchanged : dir.registry.changes < staged.changes := by
      cases happended with
      | cons happend hrest =>
        have hord : Ordinary (.workspace e) := ⟨show gWorkspaces ≠ gCheckpoints by decide, show gWorkspaces ≠ gClaims by decide⟩
        have htake := take_of_append hr.plain happend hord.1 hord.2
        have hle := Appended.changes_le hrest
        rw [htake] at hle
        exact hle
    obtain hs | ⟨hsame, -⟩ := hcase
    · rw [hs, Redeclared, hhas]
      simp [hentry]
    · omega

/-! ### Runs of declarations -/

/-- The entries a call declares. -/
def Declaring.entries (node : String) : Declaring → List WorkspaceEntry
  | .register file => file.1.workspaces.map (entryOf node)
  | .serve share name _ => [{ workspace := share, name, eligibleHosts := [node] }]

/-- Whether a call returns `Ok` and, where it serves a workspace, minted. -/
def DirAuthority.took (node : String) (dir : DirAuthority C) : Declaring → Bool
  | .register file => (register file.1 dir.registry node).1.isOk
  | .serve share name found =>
    match (serveWorkspaceOn dir node share name found).1 with
    | .ok minted => minted
    | .error _ => false

/-- Each entry a call declares is in force. -/
def InForce (r : Registry C) (entries : List WorkspaceEntry) : Prop := ∀ e ∈ entries, r.lastEntry e.workspace = some e

theorem filed_call {node : String} {dir : DirAuthority C} (hr : dir.registry.Filed node) (call : Declaring) :
    (dir.call node call).registry.Filed node := by
  cases call with
  | register file => exact filed_appendMissing hr _ _
  | serve share name found => exact hr.serve share name found

theorem declaring_concat (me : NodeIdentity C) (records : List Record) (start : DirAuthority C) (calls : List Declaring)
    (call : Declaring) :
    declaring me records start (calls ++ [call]) = (declaring me records start calls).call me.name call := by
  unfold declaring
  rw [List.foldl_concat]

theorem filed_declaring (me : NodeIdentity C) (records : List Record) (start : DirAuthority C) (calls : List Declaring) :
    (declaring me records start calls).registry.Filed me.name := by
  induction calls using List.reverseRecOn with
  | nil => exact filed_appends (some me) me.name records
  | append_singleton calls call ih =>
    rw [declaring_concat]
    exact filed_call ih call

theorem registry_call_register (dir : DirAuthority C) (node : String)
    (file : { d : AppDecl // ∃ text, AppFile.parse text = .ok d }) :
    (dir.call node (.register file)).registry = (register file.1 dir.registry node).2 := rfl

theorem took_register (dir : DirAuthority C) (node : String)
    (file : { d : AppDecl // ∃ text, AppFile.parse text = .ok d }) :
    dir.took node (.register file) = (register file.1 dir.registry node).1.isOk := rfl

/-- What a call declares is in force after it exactly if each entry may be declared. -/
theorem Filed.inForce_call {node : String} {dir : DirAuthority C} (hr : dir.registry.Filed node) {call : Declaring}
    (htook : dir.took node call = true) :
    InForce (dir.call node call).registry (call.entries node) ↔ ∀ e ∈ call.entries node, dir.registry.Redeclared e := by
  cases call with
  | register file =>
    obtain ⟨d, text, hparse⟩ := file
    unfold DirAuthority.took at htook
    dsimp only at htook
    cases hreg : register d dir.registry node with
    | mk answer r' =>
      rw [hreg] at htook
      cases answer with
      | error why => cases htook
      | ok out =>
        have hcall : (dir.call node (.register ⟨d, text, hparse⟩)).registry = r' := by
          unfold DirAuthority.call
          dsimp only
          rw [hreg]
        rw [hcall]
        simp only [InForce, Declaring.entries, List.forall_mem_map]
        exact forall₂_congr fun w hw => hr.lastEntry_register (sound_of_parse hparse) hreg hw
  | serve share name found =>
    unfold DirAuthority.took at htook
    dsimp only at htook
    cases hserve : serveWorkspaceOn dir node share name found with
    | mk answer dir' =>
      rw [hserve] at htook
      cases answer with
      | error why => cases htook
      | ok minted =>
        dsimp only at htook
        subst htook
        have hcall : dir.call node (.serve share name found) = dir' := by
          unfold DirAuthority.call
          dsimp only
          rw [hserve]
        rw [hcall]
        simp only [InForce, Declaring.entries, List.forall_mem_singleton]
        exact hr.lastEntry_serve hserve

/-- Right after a call that returns `Ok`, and minted, each entry it declared is in
force exactly if its bytes were not in the history before the call, or it was in
force then. So in a run whose calls all meet that, each is in force. -/
theorem workspace_in_force (C : Crypto) (me : NodeIdentity C) (records : List Record) (start : DirAuthority C)
    (calls : List Declaring) :
    (∀ call, (declaring me records start calls).took me.name call = true →
      (InForce (declaring me records start (calls ++ [call])).registry (call.entries me.name) ↔
        ∀ e ∈ call.entries me.name, (declaring me records start calls).registry.Redeclared e)) ∧
    ((∀ before call after, calls = before ++ call :: after → ∀ e ∈ call.entries me.name,
        (declaring me records start before).registry.Redeclared e) →
      ∀ before call after, calls = before ++ call :: after →
        (declaring me records start before).took me.name call = true →
        InForce (declaring me records start (before ++ [call])).registry (call.entries me.name)) := by
  constructor
  · intro call htook
    rw [declaring_concat]
    exact (filed_declaring me records start calls).inForce_call htook
  · intro hmet before call after hsplit htook
    rw [declaring_concat]
    exact ((filed_declaring me records start before).inForce_call htook).mpr (hmet before call after hsplit)

/-! ### A name changed back -/

/-- A file of one workspace. -/
def naming (name : String) : AppDecl := { AppDecl.empty with version := .v1, app := "x", workspaces := [⟨"w", name⟩] }

section Naming

variable {origin : String} {r : Registry C} (hr : r.Own origin) (honly : ∀ op ∈ r.ops, op.gladeId = gWorkspaces)

include hr honly

/-- In a directory of workspaces alone, its registration asks for the one entry. -/
theorem register_naming (name : String) :
    register (naming name) r origin =
      appendMissing origin [(.workspace (entryOf origin ⟨"w", name⟩),
        r.contains gWorkspaces (Record.workspace (entryOf origin ⟨"w", name⟩)).encode)] { appended := 0, unchanged := 0 } r := by
  have hlive : (r.bindingFold.declaredBy "x").toList = [] := by
    rw [List.eq_nil_iff_forall_not_mem]
    rintro ⟨gladeId, bytes⟩ hmem
    rw [Std.ExtTreeMap.mem_toList_iff_getElem?_eq_some, hr.getElem?_declaredBy, declared, Option.map_eq_some_iff] at hmem
    obtain ⟨⟨stamp, decl⟩, hstands, -⟩ := hmem
    obtain ⟨-, op, hop, hc⟩ := BindingFold.origin_of_newestOf (BindingFold.stands_overOps.mp hstands).1
    have hg : op.gladeId = gBindings := (BindingFold.of_candidate hc).2.1
    exact absurd ((honly op hop).symm.trans hg) (by decide)
  have hrecords : bindingRecords (naming name) (r.bindingFold.declaredBy "x") = [] := by
    unfold bindingRecords
    rw [hlive]
    rfl
  have hhas : decide ((gWorkspaces, (Record.workspace (entryOf origin ⟨"w", name⟩)).encode) ∈
        (snapshotOps r.snapshot.records).map fun op => (op.gladeId, recordBytes op.payload)) =
      r.contains gWorkspaces (Record.workspace (entryOf origin ⟨"w", name⟩)).encode := by
    rw [Bool.eq_iff_iff, decide_eq_true_iff]
    exact hr.mem_existing (by decide)
  have hasked : asked (naming name) r origin = [(.workspace (entryOf origin ⟨"w", name⟩),
      r.contains gWorkspaces (Record.workspace (entryOf origin ⟨"w", name⟩)).encode)] := by
    rw [← hhas]
    change bindingRecords (naming name) (r.bindingFold.declaredBy "x") ++ _ = _
    rw [hrecords]
    rfl
  rw [← hasked]
  rfl

end Naming

/-- Its entry, registered by a node, is small. -/
theorem length_encode_naming (me : NodeIdentity C) {name : String} (h : (utf8 name).length = 1) :
    (Record.workspace (entryOf me.name ⟨"w", name⟩)).encode.length < 2 ^ 59 := by
  have hname : (utf8 me.name).length = 64 := by
    rw [show me.name = hex me.nodeId from rfl, length_utf8_hex, me.nodeId.2]
  have hw : (utf8 "w").length = 1 := by decide
  refine lt_of_le_of_lt (length_encode_map_le _) ?_
  have hhead := fun major n => length_head_le major n
  have h1 := hhead 3 1
  have h2 := hhead 3 64
  have h3 := hhead 4 (0 + 1)
  simp only [entryOf, texts, List.map_cons, List.map_nil, List.sum_cons, List.sum_nil, encode, List.length_append, hname, hw, h,
    encodeItems, List.length_cons, List.length_nil]
  omega

/-- A name the directory has not had is registered, and in force. -/
theorem register_naming_new {r : Registry C} {me : NodeIdentity C} (hr : r.Filed me.name) (hme : r.identity = some me)
    (honly : ∀ op ∈ r.ops, op.gladeId = gWorkspaces) {name : String} (hname : (utf8 name).length = 1)
    (hseq : IsI64 (r.nextOp (.workspace (entryOf me.name ⟨"w", name⟩)) me.name).seq)
    (hnew : r.contains gWorkspaces (Record.workspace (entryOf me.name ⟨"w", name⟩)).encode = false) :
    ∃ op, r.Written (.workspace (entryOf me.name ⟨"w", name⟩)) me.name op ∧
      register (naming name) r me.name = (.ok { appended := 1, unchanged := 0 }, r.take op) ∧ (r.take op).Filed me.name ∧
      (r.take op).lastEntry "w" = some (entryOf me.name ⟨"w", name⟩) := by
  have hlen := length_encode_naming me hname
  have hstream : (utf8 gWorkspaces).length < 2 ^ 59 := by decide
  have hord : Ordinary (.workspace (entryOf me.name ⟨"w", name⟩)) :=
    ⟨show gWorkspaces ≠ gCheckpoints by decide, show gWorkspaces ≠ gClaims by decide⟩
  obtain ⟨op, happend⟩ := append_of_small hr.plain hme hord.1 hord.2 rfl hseq (show (utf8 gWorkspaces).length + _ < _ by omega)
  obtain ⟨-, hw, -⟩ := written_of_append happend
  refine ⟨op, hw, ?_, hr.append happend, ?_⟩
  · rw [register_naming hr.toOwn honly, hnew]
    simp only [appendMissing, happend]
  · rw [hr.lastEntry_append happend]
    simp [entryFor, entryOf]

/-- Two entries of one node with names apart have bytes apart. -/
theorem encode_naming_ne (me : NodeIdentity C) {name name' : String} (hname : (utf8 name).length = 1)
    (hname' : (utf8 name').length = 1) (hne : name ≠ name') :
    (Record.workspace (entryOf me.name ⟨"w", name⟩)).encode ≠ (Record.workspace (entryOf me.name ⟨"w", name'⟩)).encode := by
  intro heq
  have hparse := parse_encode ⟨Record.shaped_toCbor (.workspace (entryOf me.name ⟨"w", name⟩)),
    lt_trans (length_encode_naming me hname) (by norm_num)⟩
  have hparse' := parse_encode ⟨Record.shaped_toCbor (.workspace (entryOf me.name ⟨"w", name'⟩)),
    lt_trans (length_encode_naming me hname') (by norm_num)⟩
  unfold Record.encode at heq
  rw [heq, hparse'] at hparse
  simp [Record.toCbor, WorkspaceEntry.toCbor, entryOf, hne.symm] at hparse

/-- A name that is changed and changed back: the entry in force keeps the middle name. -/
theorem renamed_back_lost : ¬ ∃ C : Crypto, ∀ (me : NodeIdentity C) (records : List Record) (start : DirAuthority C)
    (calls : List Declaring) (call : Declaring), (declaring me records start calls).took me.name call = true →
    InForce (declaring me records start (calls ++ [call])).registry (call.entries me.name) := by
  rintro ⟨C, h⟩
  obtain ⟨me⟩ : Nonempty (NodeIdentity C) := ⟨⟨⟨List.replicate 32 0, by simp⟩⟩⟩
  have hparse : ∀ name ∈ ["a", "b"], ∃ text, AppFile.parse text = .ok (naming name) := by
    simp only [List.forall_mem_cons]
    exact ⟨⟨"glade-app v1\napp x\nworkspace w a", rfl⟩, ⟨"glade-app v1\napp x\nworkspace w b", rfl⟩, by simp⟩
  -- The first file's entry is the first op of the directory.
  obtain ⟨opa, hwa, hreg₁, hr₁, -⟩ := register_naming_new (filed_fresh (some me) me.name) rfl
    (by simp [fresh, new]) (show (utf8 "a").length = 1 by decide) (show IsI64 0 by decide) rfl
  set r₁ := (fresh (some me)).take opa with hr₁'
  have hops₁ : r₁.ops = [opa] := rfl
  have hgladeId : opa.gladeId = gWorkspaces := hwa.gladeId_eq
  -- The second's is another, and follows it.
  have hseq : (r₁.nextOp (.workspace (entryOf me.name ⟨"w", "b"⟩)) me.name).seq = 1 := by
    have htip : r₁.tips[(⟨gWorkspaces, me.name⟩ : StreamId)]? = some (0, opHash C opa) := by
      have hzero : opa.seq = 0 := by
        rw [hwa]
        rfl
      have hstream : streamOf opa = ⟨gWorkspaces, me.name⟩ := hwa.streamOf_eq
      rw [hr₁', take, ← hzero, ← hstream]
      simp
    rw [nextOp, show (Record.workspace (entryOf me.name ⟨"w", "b"⟩)).gladeId = gWorkspaces from rfl, htip]
    rfl
  have hne := encode_naming_ne me (show (utf8 "a").length = 1 by decide) (show (utf8 "b").length = 1 by decide) (by decide)
  obtain ⟨opb, hwb, hreg₂, hr₂, hlast⟩ := register_naming_new hr₁ rfl (by simp [hops₁, hgladeId])
    (show (utf8 "b").length = 1 by decide) (by rw [hseq]; decide)
    (by simp [contains, hops₁, hwa.recordBytes_payload.2, hne])
  set r₂ := r₁.take opb
  have hops₂ : r₂.ops = [opa, opb] := rfl
  -- The first's again finds its bytes.
  have hreg₃ : register (naming "a") r₂ me.name = (.ok { appended := 0, unchanged := 1 }, r₂) := by
    have hold : r₂.contains gWorkspaces (Record.workspace (entryOf me.name ⟨"w", "a"⟩)).encode = true := by
      simp [contains, hops₂, hgladeId, hwa.recordBytes_payload.2]
    have honly : ∀ op ∈ r₂.ops, op.gladeId = gWorkspaces := by
      have hgladeId' : opb.gladeId = gWorkspaces := hwb.gladeId_eq
      simp [hops₂, hgladeId, hgladeId']
    rw [register_naming hr₂.toOwn honly, hold]
    rfl
  let a : Declaring := .register ⟨naming "a", hparse _ (by simp)⟩
  let b : Declaring := .register ⟨naming "b", hparse _ (by simp)⟩
  let start : DirAuthority C := { registry := fresh (some me), file := none, seen := .nothing, served := ∅ }
  have hrun : (declaring me [] start [a, b]).registry = r₂ := by
    rw [show [a, b] = [a] ++ [b] from rfl, declaring_concat, registry_call_register, show [a] = [] ++ [a] from rfl,
      declaring_concat, registry_call_register]
    rw [show (declaring me [] start []).registry = fresh (some me) from rfl, hreg₁, hreg₂]
  have hafter : (declaring me [] start ([a, b] ++ [a])).registry = r₂ := by
    rw [declaring_concat, registry_call_register, hrun, hreg₃]
  have htook : (declaring me [] start [a, b]).took me.name a = true := by
    rw [took_register, hrun, hreg₃]
    rfl
  have hinForce := h me [] start [a, b] a htook (entryOf me.name ⟨"w", "a"⟩) (by simp [a, Declaring.entries, naming])
  rw [hafter] at hinForce
  have := hlast.symm.trans hinForce
  simp [entryOf] at this

end Glade.Registry
