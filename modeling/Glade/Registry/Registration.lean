import Glade.Registry.AppFile
import Glade.Registry.BindingFold
import Glade.Registry.Policy

/-! Registering an app's file (`appdecl::register`, `node/src/appdecl.rs`). Bindings
are diffed against what stands for the app, so its last file is its binding set;
every other record is appended unless the directory has its bytes. -/

namespace Glade.Registry

open Wire Node AppFile BindingFold

variable {C : Crypto}

/-! ### The registration -/

/-- The ops a snapshot's records hold; one that cannot be read is skipped. -/
def snapshotOps (records : List Bytes) : List Op := records.filterMap fun bytes => (decodeOp bytes).toOption

/-- What one registration did. -/
structure Registered where
  appended : ℕ
  unchanged : ℕ
  deriving DecidableEq

/-- Append each record in turn, but those the directory has. -/
def appendMissing (origin : String) :
    List (Record × Bool) → Registered → Registry C → Except RegistryError Registered × Registry C
  | [], out, r => (.ok out, r)
  | (_, true) :: rest, out, r => appendMissing origin rest { out with unchanged := out.unchanged + 1 } r
  | (record, false) :: rest, out, r =>
    match r.appendReturning record origin with
    | .error e => (.error e, r)
    | .ok (_, r) => appendMissing origin rest { out with appended := out.appended + 1 } r

/-- A file's bindings, each diffed against what is live, and the retractions of
what is live and the file no longer declares. -/
def bindingRecords (decl : AppDecl) (live : Std.ExtTreeMap String Bytes) : List (Record × Bool) :=
  let gone := (live.toList.map Prod.fst).filter fun gladeId => ¬ decl.bindings.any (fun b => b.gladeId = gladeId)
  (decl.bindings.map fun b => (.binding b, decide (live[b.gladeId]? = some (Record.binding b).encode))) ++
    gone.map fun gladeId => (.retract { app := decl.app, gladeId }, false)

/-- The workspaces of a file, hosted by its registrant. -/
def workspaceRecords (decl : AppDecl) (origin : String) : List Record :=
  decl.workspaces.map fun w => .workspace { workspace := w.share, name := w.name, eligibleHosts := [origin] }

/-- Everything else a file declares. -/
def otherRecords (decl : AppDecl) (origin : String) : List Record :=
  decl.services.map .service ++ decl.seeds.map .grant ++ decl.revocations.map .revoke ++ workspaceRecords decl origin

/-- Register a declaration under `origin`'s chain: what it did, or why an append
was refused, and the registry with what was appended. -/
def register (decl : AppDecl) (r : Registry C) (origin : String) : Except RegistryError Registered × Registry C :=
  let ops := snapshotOps r.snapshot.records
  let live := (overOps ops).declaredBy decl.app
  let existing := ops.map fun op => (op.gladeId, recordBytes op.payload)
  let others := (otherRecords decl origin).map fun record => (record, decide ((record.gladeId, record.encode) ∈ existing))
  appendMissing origin (bindingRecords decl live ++ others) { appended := 0, unchanged := 0 } r

/-- Register files in turn, while each is taken. -/
def registerAll (files : List AppDecl) (r : Registry C) (origin : String) : Except RegistryError (Registry C) :=
  files.foldlM (fun r decl =>
    match register decl r origin with
    | (.ok _, r) => .ok r
    | (.error e, _) => .error e) r

/-- Whether the op-set has a record's bytes on a stream. -/
def contains (r : Registry C) (gladeId : String) (record : Bytes) : Bool :=
  r.ops.any fun op => op.gladeId = gladeId ∧ recordBytes op.payload = record

/-- The binding fold of what a registry is saved as. -/
def bindingFold (r : Registry C) : BindingFold := overOps (snapshotOps r.snapshot.records)

/-! ### Registries of one origin -/

/-- What every registry built by appends of one origin is. -/
structure Own (origin : String) (r : Registry C) : Prop where
  plain : r.Plain
  origin_eq : ∀ op ∈ r.ops, op.origin = origin
  checkpoint : ∀ (c : StreamId) (e : Op × Floor), r.checkpoints[c]? = some e → e.1.gladeId = gCheckpoints

theorem own_fresh (identity : Option (NodeIdentity C)) (origin : String) : (fresh identity).Own origin := by
  refine ⟨plain_fresh identity, ?_, ?_⟩
  · simp [fresh, new]
  · simp [fresh, new]

theorem Own.append {r r' : Registry C} {origin : String} (hr : r.Own origin) {record : Record} {op : Op}
    (h : r.appendReturning record origin = .ok (op, r')) : r'.Own origin := by
  obtain ⟨-, hw, answer, hlink⟩ := written_of_append h
  have hplain := hr.plain.link hlink
  obtain rfl | ⟨-, rfl⟩ | ⟨floor, hg, rfl⟩ := link_cases hlink
  · exact hr
  · refine ⟨hplain, ?_, hr.checkpoint⟩
    simp only [take, List.mem_append, List.mem_singleton]
    rintro held (hheld | rfl)
    · exact hr.origin_eq held hheld
    · exact hw.origin_eq
  · refine ⟨hplain, fun held hheld => hr.origin_eq held (List.mem_filter.mp hheld).1, ?_⟩
    intro c e he
    simp only [Registry.placed, Std.ExtTreeMap.getElem?_insert] at he
    split_ifs at he
    · rw [← Option.some.inj he]
      exact hg
    · exact hr.checkpoint c e he

theorem own_appends (identity : Option (NodeIdentity C)) (origin : String) (records : List Record) :
    (appends (fresh identity) (records.map fun record => (record, origin))).Own origin := by
  induction records using List.reverseRecOn with
  | nil => exact own_fresh identity origin
  | append_singleton records record ih =>
    unfold appends at ih ⊢
    rw [List.map_append, List.map_singleton, List.foldl_concat, called]
    split
    case h_1 op r' h => exact ih.append h
    case h_2 => exact ih

/-- What a snapshot lists reads back. -/
theorem snapshotOps_snapshot (r : Registry C) : snapshotOps r.snapshot.records = r.listed := by
  unfold snapshotOps snapshot
  rw [List.filterMap_map]
  simp [Function.comp_def, decodeOp_encoding, Except.toOption]

theorem candidate_checkpoint {op : Op} (hg : op.gladeId = gCheckpoints) : candidate op = none := by
  have hb : ¬ op.gladeId = gBindings ∧ ¬ op.gladeId = gBindingRetractions := by
    rw [hg]
    decide
  rw [candidate, said, if_neg hb.1, if_neg hb.2]
  rfl

/-- The checkpoints a snapshot lists first say nothing of bindings. -/
theorem Own.bindingFold_eq {r : Registry C} {origin : String} (hr : r.Own origin) : r.bindingFold = overOps r.ops := by
  have hnote : ∀ cps : List Op, (∀ op ∈ cps, candidate op = none) → ∀ f, cps.foldl note f = f := by
    intro cps hcps
    induction cps with
    | nil => exact fun f => rfl
    | cons op cps ih =>
      intro f
      rw [List.foldl_cons, note, hcps op (by simp)]
      exact ih (fun o ho => hcps o (by simp [ho])) f
  have hcps : ∀ op ∈ r.checkpoints.toList.map (fun e => e.2.1), candidate op = none := by
    intro op hop
    obtain ⟨⟨c, e⟩, he, rfl⟩ := List.mem_map.mp hop
    exact candidate_checkpoint (hr.checkpoint c e (Std.ExtTreeMap.mem_toList_iff_getElem?_eq_some.mp he))
  unfold bindingFold overOps
  rw [snapshotOps_snapshot, listed, List.foldl_append, hnote _ hcps]

/-- A record no checkpoint is of is listed where the op-set has it. -/
theorem Own.mem_existing {r : Registry C} {origin : String} (hr : r.Own origin) {gladeId : String} (hg : gladeId ≠ gCheckpoints)
    {record : Bytes} :
    (gladeId, record) ∈ (snapshotOps r.snapshot.records).map (fun op => (op.gladeId, recordBytes op.payload)) ↔
      r.contains gladeId record = true := by
  simp only [snapshotOps_snapshot, listed, List.map_append, List.mem_append, contains, List.any_eq_true, decide_eq_true_iff,
    List.mem_map, Prod.mk.injEq]
  constructor
  · rintro (⟨op, ⟨⟨c, e⟩, he, rfl⟩, rfl, -⟩ | h)
    · exact absurd (hr.checkpoint c e (Std.ExtTreeMap.mem_toList_iff_getElem?_eq_some.mp he)) hg
    · exact h
  · exact .inr

/-! ### Appends in turn -/

/-- Records appended in turn, each taken. -/
inductive Appended (origin : String) : List Record → Registry C → Registry C → Prop where
  | nil (r : Registry C) : Appended origin [] r r
  | cons {record : Record} {records : List Record} {r r₁ r' : Registry C} {op : Op}
      (h : r.appendReturning record origin = .ok (op, r₁)) (hrest : Appended origin records r₁ r') :
      Appended origin (record :: records) r r'

/-- The records a registration appends. -/
def missing (l : List (Record × Bool)) : List Record := (l.filter (fun e => e.2 = false)).map Prod.fst

theorem appended_of_appendMissing {origin : String} {l : List (Record × Bool)} {out out' : Registered} {r r' : Registry C}
    (h : appendMissing origin l out r = (.ok out', r')) : Appended origin (missing l) r r' := by
  induction l generalizing out r with
  | nil =>
    obtain ⟨-, rfl⟩ := Prod.mk.inj h
    exact .nil r
  | cons e l ih =>
    obtain ⟨record, has⟩ := e
    cases has with
    | true => exact ih h
    | false =>
      unfold appendMissing at h
      split at h
      case h_1 => cases h
      case h_2 op r₁ happend => exact .cons happend (ih h)

/-- Where the directory has every record, nothing is appended. -/
theorem appendMissing_of_missing_nil {l : List (Record × Bool)} (h : missing l = []) (origin : String) (out : Registered)
    (r : Registry C) : ∃ unchanged, appendMissing origin l out r = (.ok { out with unchanged }, r) := by
  induction l generalizing out with
  | nil => exact ⟨out.unchanged, rfl⟩
  | cons e l ih =>
    obtain ⟨record, has⟩ := e
    cases has with
    | true =>
      obtain ⟨unchanged, hrest⟩ := ih h { out with unchanged := out.unchanged + 1 }
      exact ⟨unchanged, hrest⟩
    | false => simp [missing] at h

/-- A record no checkpoint folds, and none itself. -/
def Ordinary (record : Record) : Prop := record.gladeId ≠ gCheckpoints ∧ record.gladeId ≠ gClaims

/-- What is so of each append is so of all of them in turn. -/
theorem Appended.induct {origin : String} {P : Registry C → Prop} {records : List Record} {r r' : Registry C}
    (hstep : ∀ record ∈ records, ∀ (r₁ r₂ : Registry C) (op : Op), r₁.Own origin → P r₁ →
      r₁.appendReturning record origin = .ok (op, r₂) → P r₂)
    (h : Appended origin records r r') (hr : r.Own origin) (hP : P r) : P r' := by
  induction h with
  | nil => exact hP
  | cons happend _ ih =>
    exact ih (fun record hrecord => hstep record (List.mem_cons_of_mem _ hrecord)) (hr.append happend)
      (hstep _ List.mem_cons_self _ _ _ hr hP happend)

theorem Appended.own {origin : String} {records : List Record} {r r' : Registry C} (h : Appended origin records r r')
    (hr : r.Own origin) : r'.Own origin := by
  induction h with
  | nil => exact hr
  | cons happend _ ih => exact ih (hr.append happend)

/-- An op the registry holds stays, whatever ordinary records are appended. -/
theorem Appended.mem_ops {origin : String} {records : List Record} {r r' : Registry C} (h : Appended origin records r r')
    (hr : r.Own origin) (hord : ∀ record ∈ records, Ordinary record) {op : Op} (hop : op ∈ r.ops) : op ∈ r'.ops := by
  refine h.induct (P := fun r => op ∈ r.ops) (fun record hrecord r₁ r₂ op' hown hP happend => ?_) hr hop
  rw [take_of_append hown.plain happend (hord record hrecord).1 (hord record hrecord).2]
  exact List.mem_append_left _ hP

/-! ### What stands declared -/

/-- The bytes of the declaration that stands for a pair. -/
def declared (r : Registry C) (pair : Pair) : Option Bytes := ((overOps r.ops).stands pair).map fun s => s.2.2

/-- The pair a record of the binding family sets, and to what: its declaration's
bytes, or nothing. -/
def sets : Record → Option (Pair × Option Bytes)
  | .binding b => some ((b.app, b.gladeId), some (Record.binding b).encode)
  | .retract t => some ((t.app, t.gladeId), none)
  | _ => none

/-- What stands declared once a record is appended. -/
def told (view : Pair → Option Bytes) (record : Record) : Pair → Option Bytes :=
  match sets record with
  | none => view
  | some (pair, bytes) => Function.update view pair bytes

theorem told_of_sets {record : Record} {pair : Pair} {bytes : Option Bytes} (h : sets record = some (pair, bytes))
    (view : Pair → Option Bytes) : told view record = Function.update view pair bytes := by
  rw [told, h]

theorem told_of_none {record : Record} (h : sets record = none) (view : Pair → Option Bytes) : told view record = view := by
  rw [told, h]

theorem Written.candidate_sets {r : Registry C} {record : Record} {origin : String} {op : Op} (h : r.Written record origin op) :
    (sets record = none → candidate op = none) ∧
      ∀ pair bytes, sets record = some (pair, bytes) →
        Record.isBindingFamily record.gladeId = true ∧ ∃ n, candidate op = some (pair, n) ∧ n.decl.map Prod.snd = bytes := by
  constructor
  · intro hsets
    have hg : record.gladeId ≠ gBindings ∧ record.gladeId ≠ gBindingRetractions := by
      cases record <;> simp only [sets, reduceCtorEq] at hsets <;> simp only [Record.gladeId] <;> decide
    rw [candidate, said, h.gladeId_eq, if_neg hg.1, if_neg hg.2]
    rfl
  · intro pair bytes hsets
    unfold sets at hsets
    split at hsets
    case h_1 b =>
      obtain ⟨rfl, rfl⟩ := Prod.mk.inj (Option.some.inj hsets)
      exact ⟨rfl, _, h.candidate_binding rfl, rfl⟩
    case h_2 t =>
      obtain ⟨rfl, rfl⟩ := Prod.mk.inj (Option.some.inj hsets)
      exact ⟨rfl, _, h.candidate_retract rfl, rfl⟩
    case h_3 => cases hsets

theorem overOps_concat_of_none {ops : List Op} {op : Op} (h : candidate op = none) : overOps (ops ++ [op]) = overOps ops := by
  unfold overOps
  rw [List.foldl_concat, note, h]

section OneOrigin

variable {origin : String} {r : Registry C} (hr : r.Own origin)

include hr

theorem Own.origin_of_newestOf {pair : Pair} {other : String} {n : Newest}
    (h : (overOps r.ops).newestOf pair other = some n) : other = origin ∧ n.stamp.origin = origin := by
  obtain ⟨hstamp, op, hop, hc⟩ := BindingFold.origin_of_newestOf h
  have horigin : n.stamp.origin = op.origin := by rw [(of_candidate hc).1]
  rw [hr.origin_eq op hop] at horigin
  exact ⟨hstamp ▸ horigin, horigin⟩

/-- Of one origin's records, what stands is what the newest says. -/
theorem Own.declared_eq (pair : Pair) :
    r.declared pair = ((overOps r.ops).newestOf pair origin).bind fun n => n.decl.map Prod.snd := by
  unfold declared
  cases hs : (overOps r.ops).stands pair with
  | some s =>
    obtain ⟨stamp, decl⟩ := s
    have hn := (stands_overOps.mp hs).1
    obtain ⟨horigin, -⟩ := hr.origin_of_newestOf hn
    rw [horigin] at hn
    rw [hn]
    rfl
  | none =>
    cases hn : (overOps r.ops).newestOf pair origin with
    | none => rfl
    | some n =>
      obtain ⟨stamp, decl⟩ := n
      cases decl with
      | none => rfl
      | some decl =>
        obtain ⟨s, hs', -⟩ := exists_stands hn
        rw [hs] at hs'
        cases hs'

/-- An append sets its own pair, and what stands for any other stays. -/
theorem Own.declared_append {r' : Registry C} {record : Record} {op : Op} (hord : Ordinary record)
    (h : r.appendReturning record origin = .ok (op, r')) : r'.declared = told r.declared record := by
  have hr' := hr.append h
  have htake := take_of_append hr.plain h hord.1 hord.2
  obtain ⟨-, hw, -⟩ := written_of_append h
  obtain ⟨hnone, hsome⟩ := hw.candidate_sets
  funext pair
  cases hsets : sets record with
  | none =>
    have hfold : overOps r'.ops = overOps r.ops := by
      rw [htake]
      exact overOps_concat_of_none (hnone hsets)
    rw [told_of_none hsets, declared, hfold]
    rfl
  | some said =>
    obtain ⟨own, bytes⟩ := said
    obtain ⟨hfamily, n, hc, hn⟩ := hsome own bytes hsets
    rw [told_of_sets hsets, hr'.declared_eq]
    by_cases hpair : pair = own
    · subst hpair
      rw [newestOf_append hr.plain h hfamily hc, Function.update_self, ← hn]
      rfl
    · rw [Function.update_of_ne hpair, hr.declared_eq, htake]
      have hkeep : (overOps (r.ops ++ [op])).newestOf pair origin = (overOps r.ops).newestOf pair origin :=
        newestOf_concat_of_ne hc (.inl hpair)
      change ((overOps (r.ops ++ [op])).newestOf pair origin).bind _ = _
      rw [hkeep]

/-- A record of another pair changes nothing of a pair. -/
theorem Own.newest_append {r' : Registry C} {record : Record} {op : Op} (hord : Ordinary record)
    (h : r.appendReturning record origin = .ok (op, r')) {pair : Pair} (hpair : ∀ bytes, sets record ≠ some (pair, bytes)) :
    (overOps r'.ops).newest[pair]? = (overOps r.ops).newest[pair]? := by
  obtain ⟨-, hw, -⟩ := written_of_append h
  obtain ⟨hnone, hsome⟩ := hw.candidate_sets
  rw [take_of_append hr.plain h hord.1 hord.2]
  change (overOps (r.ops ++ [op])).newest[pair]? = _
  cases hsets : sets record with
  | none => rw [overOps_concat_of_none (hnone hsets)]
  | some said =>
    obtain ⟨own, bytes⟩ := said
    obtain ⟨-, n, hc, -⟩ := hsome own bytes hsets
    refine getElem?_newest_concat_of_ne hc ?_
    rintro rfl
    exact hpair bytes hsets

theorem Own.contains_append {r' : Registry C} {record : Record} {op : Op} (hord : Ordinary record)
    (h : r.appendReturning record origin = .ok (op, r')) : r'.contains record.gladeId record.encode = true := by
  obtain ⟨-, hw, -⟩ := written_of_append h
  rw [take_of_append hr.plain h hord.1 hord.2]
  simp [contains, take, hw.gladeId_eq, hw.recordBytes_payload.2]

end OneOrigin

theorem contains_of_mem_ops {r r' : Registry C} (h : ∀ op ∈ r.ops, op ∈ r'.ops) {gladeId : String} {record : Bytes}
    (hr : r.contains gladeId record = true) : r'.contains gladeId record = true := by
  unfold contains at hr ⊢
  rw [List.any_eq_true] at hr ⊢
  obtain ⟨op, hop, heq⟩ := hr
  exact ⟨op, h op hop, heq⟩

section Runs

variable {origin : String} {records : List Record} {r r' : Registry C} (h : Appended origin records r r') (hr : r.Own origin)
  (hord : ∀ record ∈ records, Ordinary record)

include h hr hord

theorem Appended.declared_eq : r'.declared = records.foldl told r.declared := by
  induction h with
  | nil => rfl
  | cons happend _ ih =>
    have hnext := ih (hr.append happend) fun record hrecord => hord record (List.mem_cons_of_mem _ hrecord)
    rw [hnext, hr.declared_append (hord _ List.mem_cons_self) happend, List.foldl_cons]

/-- What no record sets stays, retractions too. -/
theorem Appended.newest_eq {pair : Pair} (hpair : ∀ record ∈ records, ∀ bytes, sets record ≠ some (pair, bytes)) :
    (overOps r'.ops).newest[pair]? = (overOps r.ops).newest[pair]? := by
  refine h.induct (P := fun r₁ => (overOps r₁.ops).newest[pair]? = (overOps r.ops).newest[pair]?) ?_ hr rfl
  intro record hrecord r₁ r₂ op hown hP happend
  rw [hown.newest_append (hord record hrecord) happend (hpair record hrecord), hP]

/-- Every record appended is there. -/
theorem Appended.contains {record : Record} (hrecord : record ∈ records) :
    r'.contains record.gladeId record.encode = true := by
  induction h with
  | nil => cases hrecord
  | cons happend hrest ih =>
    have hown := hr.append happend
    have hord' := fun record hrecord => hord record (List.mem_cons_of_mem _ hrecord)
    cases hrecord with
    | head =>
      refine contains_of_mem_ops (fun op hop => hrest.mem_ops hown hord' hop) ?_
      exact hr.contains_append (hord _ List.mem_cons_self) happend
    | tail _ hrecord => exact ih hown hord' hrecord

end Runs

/-! ### The table of an app's declarations -/

/-- Where all that set a pair set it alike, it is what they set. -/
theorem foldl_told_of_set {records : List Record} {view : Pair → Option Bytes} {pair : Pair} {bytes : Option Bytes}
    (hall : ∀ record ∈ records, ∀ bytes', sets record = some (pair, bytes') → bytes' = bytes)
    (hone : view pair = bytes ∨ ∃ record ∈ records, sets record = some (pair, bytes)) :
    records.foldl told view pair = bytes := by
  induction records generalizing view with
  | nil =>
    obtain h | ⟨record, hrecord, -⟩ := hone
    · exact h
    · cases hrecord
  | cons record records ih =>
    rw [List.foldl_cons]
    refine ih (fun record hrecord => hall record (List.mem_cons_of_mem _ hrecord)) ?_
    cases hsets : sets record with
    | none =>
      rw [told_of_none hsets]
      refine hone.imp_right fun ⟨record', hrecord', hsets'⟩ => ?_
      cases hrecord' with
      | head =>
        rw [hsets] at hsets'
        cases hsets'
      | tail _ hrecord' => exact ⟨record', hrecord', hsets'⟩
    | some said =>
      obtain ⟨own, bytes'⟩ := said
      rw [told_of_sets hsets]
      by_cases hpair : pair = own
      · subst hpair
        rw [Function.update_self]
        exact .inl (hall record List.mem_cons_self bytes' hsets)
      · rw [Function.update_of_ne hpair]
        refine hone.imp_right fun ⟨record', hrecord', hsets'⟩ => ?_
        cases hrecord' with
        | head =>
          rw [hsets] at hsets'
          exact absurd (Prod.mk.inj (Option.some.inj hsets')).1.symm hpair
        | tail _ hrecord' => exact ⟨record', hrecord', hsets'⟩

/-! ### One registration -/

/-- What a file wants declared of a glade id. -/
def wanted (d : AppDecl) (gladeId : String) : Option Bytes :=
  (d.bindings.find? (fun b => b.gladeId = gladeId)).map fun b => (Record.binding b).encode

theorem wanted_eq_some {d : AppDecl} (hd : d.Sound) {gladeId : String} {bytes : Bytes} :
    wanted d gladeId = some bytes ↔ ∃ b ∈ d.bindings, b.gladeId = gladeId ∧ bytes = (Record.binding b).encode := by
  have hinj : Set.InjOn (fun b : BindingDecl => b.gladeId) {b | b ∈ d.bindings} :=
    List.inj_on_of_nodup_map hd.gladeIds.of_append_left
  unfold wanted
  rw [Option.map_eq_some_iff]
  constructor
  · rintro ⟨b, hb, rfl⟩
    have hid := List.find?_some hb
    exact ⟨b, List.mem_of_find?_eq_some hb, of_decide_eq_true hid, rfl⟩
  · rintro ⟨b, hb, rfl, rfl⟩
    cases hfind : d.bindings.find? (fun b' => b'.gladeId = b.gladeId) with
    | none =>
      rw [List.find?_eq_none] at hfind
      exact absurd (decide_eq_true rfl) (hfind b hb)
    | some b' =>
      have hid := List.find?_some hfind
      rw [hinj (List.mem_of_find?_eq_some hfind) hb (of_decide_eq_true hid)]
      exact ⟨b, rfl, rfl⟩

theorem mem_missing {l : List (Record × Bool)} {record : Record} : record ∈ missing l ↔ (record, false) ∈ l := by
  simp [missing]

/-- What a registration asks of a registry, each record with whether it has it. -/
def asked (d : AppDecl) (r : Registry C) (origin : String) : List (Record × Bool) :=
  bindingRecords d (r.bindingFold.declaredBy d.app) ++
    (otherRecords d origin).map fun record =>
      (record, decide ((record.gladeId, record.encode) ∈
        (snapshotOps r.snapshot.records).map fun op => (op.gladeId, recordBytes op.payload)))

theorem ordinary_other {d : AppDecl} {origin : String} {record : Record} (h : record ∈ otherRecords d origin) :
    Ordinary record ∧ sets record = none := by
  simp only [otherRecords, workspaceRecords, List.mem_append, List.mem_map] at h
  obtain ((⟨_, -, rfl⟩ | ⟨_, -, rfl⟩) | ⟨_, -, rfl⟩) | ⟨_, -, rfl⟩ := h
  · exact ⟨⟨show gServices ≠ gCheckpoints by decide, show gServices ≠ gClaims by decide⟩, rfl⟩
  · exact ⟨⟨show gGrants ≠ gCheckpoints by decide, show gGrants ≠ gClaims by decide⟩, rfl⟩
  · exact ⟨⟨show gRevocations ≠ gCheckpoints by decide, show gRevocations ≠ gClaims by decide⟩, rfl⟩
  · exact ⟨⟨show gWorkspaces ≠ gCheckpoints by decide, show gWorkspaces ≠ gClaims by decide⟩, rfl⟩

section Registering

variable {d : AppDecl} {origin : String} {r : Registry C}

theorem mem_bindingRecords {live : Std.ExtTreeMap String Bytes} {record : Record} :
    (record, false) ∈ bindingRecords d live ↔
      (∃ b ∈ d.bindings, record = .binding b ∧ live[b.gladeId]? ≠ some (Record.binding b).encode) ∨
        ∃ gladeId, live[gladeId]?.isSome ∧ (∀ b ∈ d.bindings, b.gladeId ≠ gladeId) ∧
          record = .retract { app := d.app, gladeId } := by
  simp only [bindingRecords, List.mem_append, List.mem_map, List.mem_filter, Prod.mk.injEq, decide_eq_false_iff_not,
    Prod.exists, exists_and_right, exists_eq_right, Std.ExtTreeMap.mem_toList_iff_getElem?_eq_some, Option.isSome_iff_exists,
    List.any_eq_true, decide_eq_true_iff, not_exists, not_and]
  constructor
  · rintro (⟨b, hb, rfl, hne⟩ | ⟨g, ⟨hlive, hnone⟩, rfl, -⟩)
    · exact .inl ⟨b, hb, rfl, hne⟩
    · exact .inr ⟨g, hlive, hnone, rfl⟩
  · rintro (⟨b, hb, rfl, hne⟩ | ⟨g, hlive, hnone, rfl⟩)
    · exact .inl ⟨b, hb, rfl, hne⟩
    · exact .inr ⟨g, ⟨hlive, hnone⟩, rfl, trivial⟩

theorem ordinary_asked {record : Record} (h : record ∈ missing (asked d r origin)) : Ordinary record := by
  rw [mem_missing, asked, List.mem_append, mem_bindingRecords] at h
  obtain (⟨b, -, rfl, -⟩ | ⟨g, -, -, rfl⟩) | h := h
  · exact ⟨show gBindings ≠ gCheckpoints by decide, show gBindings ≠ gClaims by decide⟩
  · exact ⟨show gBindingRetractions ≠ gCheckpoints by decide, show gBindingRetractions ≠ gClaims by decide⟩
  · obtain ⟨record', hrecord, heq⟩ := List.mem_map.mp h
    obtain ⟨rfl, -⟩ := Prod.mk.inj heq
    exact (ordinary_other hrecord).1

/-- The pairs a registration sets are its app's. -/
theorem asked_sets (hd : d.Sound) {record : Record} (h : record ∈ missing (asked d r origin)) {pair : Pair}
    {bytes : Option Bytes} (hsets : sets record = some (pair, bytes)) :
    pair.1 = d.app ∧ bytes = wanted d pair.2 := by
  rw [mem_missing, asked, List.mem_append, mem_bindingRecords] at h
  obtain (⟨b, hb, rfl, -⟩ | ⟨g, -, hnone, rfl⟩) | h := h
  · obtain ⟨rfl, rfl⟩ := Prod.mk.inj (Option.some.inj hsets)
    exact ⟨hd.bindings b hb, ((wanted_eq_some hd).mpr ⟨b, hb, rfl, rfl⟩).symm⟩
  · obtain ⟨rfl, rfl⟩ := Prod.mk.inj (Option.some.inj hsets)
    refine ⟨rfl, ?_⟩
    symm
    rw [Option.eq_none_iff_forall_ne_some]
    intro bytes hbytes
    obtain ⟨b, hb, hid, -⟩ := (wanted_eq_some hd).mp hbytes
    exact hnone b hb hid
  · obtain ⟨record', hrecord, heq⟩ := List.mem_map.mp h
    obtain ⟨rfl, -⟩ := Prod.mk.inj heq
    rw [(ordinary_other hrecord).2] at hsets
    cases hsets

theorem Own.getElem?_declaredBy (hr : r.Own origin) (app gladeId : String) :
    (r.bindingFold.declaredBy app)[gladeId]? = r.declared (app, gladeId) := by
  rw [hr.bindingFold_eq, BindingFold.getElem?_declaredBy]
  rfl

variable {out : Registered} {r' : Registry C}

theorem appended_of_register (h : register d r origin = (.ok out, r')) : Appended origin (missing (asked d r origin)) r r' :=
  appended_of_appendMissing h

/-- After a registration what its app has declared is what the file wants. -/
theorem Own.declared_register (hr : r.Own origin) (hd : d.Sound) (h : register d r origin = (.ok out, r'))
    (gladeId : String) : r'.declared (d.app, gladeId) = wanted d gladeId := by
  rw [(appended_of_register h).declared_eq hr fun record => ordinary_asked]
  refine foldl_told_of_set (fun record hrecord bytes hsets => (asked_sets hd hrecord hsets).2) ?_
  by_cases hsame : r.declared (d.app, gladeId) = wanted d gladeId
  · exact .inl hsame
  refine .inr ?_
  cases hwanted : wanted d gladeId with
  | some bytes =>
    obtain ⟨b, hb, rfl, rfl⟩ := (wanted_eq_some hd).mp hwanted
    refine ⟨.binding b, ?_, ?_⟩
    · rw [mem_missing, asked, List.mem_append, mem_bindingRecords]
      refine .inl (.inl ⟨b, hb, rfl, ?_⟩)
      rw [hr.getElem?_declaredBy, ← hwanted]
      exact hsame
    · rw [sets, hd.bindings b hb]
  | none =>
    refine ⟨.retract { app := d.app, gladeId }, ?_, rfl⟩
    rw [mem_missing, asked, List.mem_append, mem_bindingRecords]
    refine .inl (.inr ⟨gladeId, ?_, fun b hb hid => ?_, rfl⟩)
    · rw [hr.getElem?_declaredBy, Option.isSome_iff_ne_none]
      rwa [hwanted] at hsame
    · have := (wanted_eq_some hd).mpr ⟨b, hb, hid, rfl⟩
      rw [hwanted] at this
      cases this

/-- Another app's records are as they were. -/
theorem Own.newest_register (hr : r.Own origin) (hd : d.Sound) (h : register d r origin = (.ok out, r')) {pair : Pair}
    (hpair : pair.1 ≠ d.app) : (overOps r'.ops).newest[pair]? = (overOps r.ops).newest[pair]? := by
  refine (appended_of_register h).newest_eq hr (fun record => ordinary_asked) fun record hrecord bytes hsets => ?_
  exact hpair (asked_sets hd hrecord hsets).1

/-- Whatever else the file declares is there. -/
theorem Own.contains_register (hr : r.Own origin) (h : register d r origin = (.ok out, r')) {record : Record}
    (hrecord : record ∈ otherRecords d origin) : r'.contains record.gladeId record.encode = true := by
  have happended := appended_of_register h
  have hord := (ordinary_other hrecord).1
  by_cases hhas : r.contains record.gladeId record.encode = true
  · exact contains_of_mem_ops (fun op hop => happended.mem_ops hr (fun record => ordinary_asked) hop) hhas
  · refine happended.contains hr (fun record => ordinary_asked) ?_
    rw [mem_missing, asked, List.mem_append, List.mem_map]
    refine .inr ⟨record, hrecord, ?_⟩
    rw [Prod.mk.injEq, decide_eq_false_iff_not, hr.mem_existing hord.1]
    exact ⟨rfl, hhas⟩

/-- The file has nothing more to ask. -/
theorem Own.missing_asked_register (hr : r.Own origin) (hd : d.Sound) (h : register d r origin = (.ok out, r')) :
    missing (asked d r' origin) = [] := by
  have hr' := (appended_of_register h).own hr
  rw [List.eq_nil_iff_forall_not_mem]
  intro record hrecord
  rw [mem_missing, asked, List.mem_append, mem_bindingRecords] at hrecord
  obtain (⟨b, hb, rfl, hne⟩ | ⟨g, hlive, hnone, rfl⟩) | hother := hrecord
  · rw [hr'.getElem?_declaredBy, hr.declared_register hd h] at hne
    exact hne ((wanted_eq_some hd).mpr ⟨b, hb, rfl, rfl⟩)
  · rw [hr'.getElem?_declaredBy, hr.declared_register hd h, Option.isSome_iff_exists] at hlive
    obtain ⟨bytes, hbytes⟩ := hlive
    obtain ⟨b, hb, hid, -⟩ := (wanted_eq_some hd).mp hbytes
    exact hnone b hb hid
  · obtain ⟨record', hrecord, heq⟩ := List.mem_map.mp hother
    obtain ⟨rfl, hhas⟩ := Prod.mk.inj heq
    rw [decide_eq_false_iff_not, hr'.mem_existing (ordinary_other hrecord).1.1] at hhas
    exact hhas (hr.contains_register h hrecord)

end Registering

/-! ### Runs of registrations -/

/-- The declarations standing for a file's app are its bindings, byte for byte. -/
def BindingSet (fold : BindingFold) (d : AppDecl) : Prop :=
  ∀ gladeId bytes, (fold.declaredBy d.app)[gladeId]? = some bytes ↔
    ∃ b ∈ d.bindings, b.gladeId = gladeId ∧ bytes = (Record.binding b).encode

/-- What stands for an app, and what is retracted, is the same in two folds. -/
def SameApp (before after : BindingFold) (app : String) : Prop :=
  after.declaredBy app = before.declaredBy app ∧ ∀ gladeId, (app, gladeId) ∈ after.retracted ↔ (app, gladeId) ∈ before.retracted

theorem SameApp.trans {a b c : BindingFold} {app : String} (h : SameApp a b app) (h' : SameApp b c app) : SameApp a c app :=
  ⟨h'.1.trans h.1, fun gladeId => (h'.2 gladeId).trans (h.2 gladeId)⟩

theorem sameApp_of_newest {before after : BindingFold} {app : String}
    (h : ∀ gladeId : String, after.newest[(app, gladeId)]? = before.newest[(app, gladeId)]?) : SameApp before after app := by
  have hstands : ∀ gladeId, after.stands (app, gladeId) = before.stands (app, gladeId) := by
    intro gladeId
    rw [stands, stands, h]
  constructor
  · refine Std.ExtTreeMap.ext_getElem? fun gladeId => ?_
    rw [getElem?_declaredBy, getElem?_declaredBy, hstands]
  · intro gladeId
    simp only [mem_retracted, Std.ExtTreeMap.mem_iff_isSome_getElem?, hstands, h]

section Registering

variable {origin : String}

theorem Own.bindingSet_register {d : AppDecl} {r r' : Registry C} {out : Registered} (hr : r.Own origin) (hd : d.Sound)
    (h : register d r origin = (.ok out, r')) : BindingSet r'.bindingFold d := by
  intro gladeId bytes
  rw [((appended_of_register h).own hr).getElem?_declaredBy, hr.declared_register hd h]
  exact wanted_eq_some hd

theorem Own.sameApp_register {d : AppDecl} {r r' : Registry C} {out : Registered} (hr : r.Own origin) (hd : d.Sound)
    (h : register d r origin = (.ok out, r')) {app : String} (happ : app ≠ d.app) :
    SameApp r.bindingFold r'.bindingFold app := by
  rw [hr.bindingFold_eq, ((appended_of_register h).own hr).bindingFold_eq]
  exact sameApp_of_newest fun gladeId => hr.newest_register hd h happ

theorem registerAll_cons {d : AppDecl} {files : List AppDecl} {r r' : Registry C}
    (h : registerAll (d :: files) r origin = .ok r') :
    ∃ out r₁, register d r origin = (.ok out, r₁) ∧ registerAll files r₁ origin = .ok r' := by
  unfold registerAll at h
  rw [List.foldlM_cons] at h
  cases hreg : register d r origin with
  | mk answer r₁ =>
    rw [hreg] at h
    cases answer with
    | error why => cases h
    | ok out => exact ⟨out, r₁, rfl, h⟩

/-- An app none of the files is of is left as it was. -/
theorem Own.sameApp_registerAll {files : List AppDecl} {r r' : Registry C} (hr : r.Own origin) (hfiles : ∀ d ∈ files, d.Sound)
    (h : registerAll files r origin = .ok r') {app : String} (happ : ∀ d ∈ files, d.app ≠ app) :
    SameApp r.bindingFold r'.bindingFold app := by
  induction files generalizing r with
  | nil =>
    obtain rfl := Except.ok.inj h
    exact ⟨rfl, fun _ => Iff.rfl⟩
  | cons d files ih =>
    obtain ⟨out, r₁, hreg, hrest⟩ := registerAll_cons h
    have hfirst := hr.sameApp_register (hfiles d List.mem_cons_self) hreg (happ d List.mem_cons_self).symm
    refine hfirst.trans (ih ((appended_of_register hreg).own hr) ?_ hrest ?_)
    · exact fun d hd => hfiles d (List.mem_cons_of_mem _ hd)
    · exact fun d hd => happ d (List.mem_cons_of_mem _ hd)

/-- The last file of an app is its binding set. -/
theorem Own.bindingSet_registerAll {before after : List AppDecl} {d : AppDecl} {r r' : Registry C} (hr : r.Own origin)
    (hfiles : ∀ e ∈ before ++ d :: after, e.Sound) (h : registerAll (before ++ d :: after) r origin = .ok r')
    (hlast : ∀ e ∈ after, e.app ≠ d.app) : BindingSet r'.bindingFold d := by
  induction before generalizing r with
  | nil =>
    obtain ⟨out, r₁, hreg, hrest⟩ := registerAll_cons h
    have hset := hr.bindingSet_register (hfiles d (by simp)) hreg
    have hsame := ((appended_of_register hreg).own hr).sameApp_registerAll (fun e he => hfiles e (by simp [he])) hrest hlast
    intro gladeId bytes
    rw [hsame.1]
    exact hset gladeId bytes
  | cons e before ih =>
    obtain ⟨out, r₁, hreg, hrest⟩ := registerAll_cons h
    exact ih ((appended_of_register hreg).own hr) (fun e' he => hfiles e' (List.mem_cons_of_mem _ he)) hrest

end Registering

/-- A registration makes a file its app's binding set, in a directory of one
origin's appends: what stands for the app is the file's bindings byte for byte,
every other app is left alone, everything else the file declares is there, and
what was revoked stays revoked. Registering it again appends nothing. And after
any run of registrations each app has the bindings of its last file, and an app
of none has what it had. -/
theorem registration (C : Crypto) (identity : Option (NodeIdentity C)) (records : List Record) (origin : String) :
    let r := appends (fresh identity) (records.map fun record => (record, origin))
    (∀ (text : String) (d : AppDecl) (out : Registered) (r' : Registry C), AppFile.parse text = .ok d →
      register d r origin = (.ok out, r') →
      BindingSet r'.bindingFold d ∧ (∀ app, app ≠ d.app → SameApp r.bindingFold r'.bindingFold app) ∧
      (∀ record ∈ otherRecords d origin, r'.contains record.gladeId record.encode = true) ∧
      (∀ principal share, (r.foldIter gRevocations).any (mayRevoke principal share) = true →
        r'.grantsFor principal share = []) ∧
      ∃ unchanged, register d r' origin = (.ok { appended := 0, unchanged }, r')) ∧
    ∀ (files : List AppDecl) (r' : Registry C), (∀ d ∈ files, ∃ text, AppFile.parse text = .ok d) →
      registerAll files r origin = .ok r' →
      (∀ before d after, files = before ++ d :: after → (∀ e ∈ after, e.app ≠ d.app) → BindingSet r'.bindingFold d) ∧
      ∀ app, (∀ d ∈ files, d.app ≠ app) → SameApp r.bindingFold r'.bindingFold app := by
  intro r
  have hr : r.Own origin := own_appends identity origin records
  refine ⟨fun text d out r' hparse hreg => ?_, fun files r' hfiles hreg => ?_⟩
  · have hd := sound_of_parse hparse
    refine ⟨hr.bindingSet_register hd hreg, fun app => hr.sameApp_register hd hreg, fun record => hr.contains_register hreg,
      fun principal share hrevoked => ?_, ?_⟩
    · refine if_pos ?_
      rw [List.any_eq_true] at hrevoked ⊢
      obtain ⟨op, hop, hmay⟩ := hrevoked
      rw [mem_foldIter] at hop
      refine ⟨op, mem_foldIter.mpr ⟨?_, hop.2⟩, hmay⟩
      exact (appended_of_register hreg).mem_ops hr (fun record => ordinary_asked) hop.1
    · exact appendMissing_of_missing_nil (hr.missing_asked_register hd hreg) origin _ r'
  · have hsound : ∀ d ∈ files, d.Sound := fun d hd => (hfiles d hd).elim fun text => sound_of_parse
    refine ⟨fun before d after hsplit hlast => ?_, fun app => hr.sameApp_registerAll hsound hreg⟩
    subst hsplit
    exact hr.bindingSet_registerAll hsound hreg hlast

end Glade.Registry
