import Glade.Registry.Handles
import Glade.Registry.Reload

/-! Durable acceptance (`Registry::accept`, `node/src/registry.rs`) and the boot that
reads its file back (`boot_at_with`, `node/src/sysdir.rs`). A change runs on a staged
copy, the copy is saved, and only then is it the fold; what is published was
saved first. So every file a crash can leave reaches every published op, and the
next op of its chain is minted past it. -/

namespace Glade.Registry

open Wire Node RecordsFile

variable {C : Crypto}

/-! ### Changes -/

/-- A change to a staged registry: appends and ingests, each chosen by what the
change reads and by the answers before it. -/
inductive Change (C : Crypto) where
  | done
  | refuse (why : RegistryError)
  | look (next : Registry C → Change C)
  | append (record : Record) (origin : String) (next : Except RegistryError Op → Change C)
  | ingest (op : Op) (next : Except RegistryError Ingested → Change C)

/-- Run a change on a staged copy: the copy after it, and the ops it appended. -/
def Change.stage : Change C → Registry C → Except RegistryError (Registry C × List Op)
  | .done, r => .ok (r, [])
  | .refuse why, _ => .error why
  | .look next, r => (next r).stage r
  | .append record origin next, r =>
    match r.appendReturning record origin with
    | .ok (op, r') =>
      match (next (.ok op)).stage r' with
      | .ok (staged, ops) => .ok (staged, op :: ops)
      | .error why => .error why
    | .error why => (next (.error why)).stage r
  | .ingest op next, r =>
    match r.ingest op with
    | .ok (answer, r') => (next (.ok answer)).stage r'
    | .error why => (next (.error why)).stage r

inductive AcceptError where
  | refused (why : RegistryError)
  | unsaved (why : FileError)

/-- Run `change` on a staged copy and save it: what was appended, the registry,
what the handle knows, and the file. -/
def accept (r : Registry C) (file : Option Bytes) (seen : Seen) (change : Change C) (fault : Option Fault) :
    Except AcceptError (List Op) × Registry C × Seen × Option Bytes :=
  match change.stage r with
  | .error why => (.error (.refused why), r, seen, file)
  | .ok (staged, ops) =>
    if staged.changes = r.changes then (.ok ops, r, seen, file)
    else
      match save file seen staged.snapshot fault with
      | (.ok (), seen, file) => (.ok ops, staged, seen, file)
      | (.error why, seen, file) => (.error (.unsaved why), r, seen, file)

/-! ### Boot -/

/-- The snapshot without its unsigned records, and how many there were. There is
none when a record is in a format this build does not know. -/
def setAside (snap : SystemSnapshot) : Option (SystemSnapshot × ℕ) :=
  let formatOf := fun bytes : Bytes => (decodeOp bytes).toOption.map format
  if snap.records.any (fun bytes => formatOf bytes = some .unknown) then none
  else
    let (old, kept) := snap.records.partition (fun bytes => formatOf bytes = some .unsigned)
    some ({ snap with records := kept }, old.length)

/-- The I/O of a boot that fails: the read of the file, the write of what is set
aside, and a call of the save. -/
structure BootFaults where
  read : Bool
  aside : Bool
  save : Option Fault

/-- Boot from `file`, making the boot's own appends: the registry, what its handle
knows and what it appended, unless the boot fails, and the file. -/
def boot (me : NodeIdentity C) (file : Option Bytes) (change : Change C) (faults : BootFaults) :
    Option (Registry C × Seen × List Op) × Option Bytes :=
  match RecordsFile.load file .nothing faults.read with
  | (.error _, _) => (none, file)
  | (.ok snap, seen) =>
    match setAside snap with
    | none => (none, file)
    | some (snap, aside) =>
      if 0 < aside ∧ faults.aside then (none, file)
      else
        let (r, _) := fromSnapshotAs snap me
        match change.stage r with
        | .error _ => (none, file)
        | .ok (staged, ops) =>
          if aside = 0 ∧ staged.changes = r.changes then (some (staged, seen, ops), file)
          else
            match save file seen staged.snapshot faults.save with
            | (.ok (), seen, file) => (some (staged, seen, ops), file)
            | (.error _, _, file) => (none, file)

/-! ### Runs of one node -/

/-- A node and its `records.json`. -/
structure Host (C : Crypto) where
  /-- The registry and what its handle knows, while the node is up. -/
  up : Option (Registry C × Seen)
  file : Option Bytes
  /-- The files a crash may leave: the last one synced, and each one renamed over
  it since whose sync failed. -/
  survivors : List (Option Bytes)
  published : List Op

/-- What happens to a node: it boots, it makes a change, it stops, or the machine
crashes and leaves one of the files it may. -/
inductive Event (C : Crypto) where
  | boot (change : Change C) (faults : BootFaults)
  | accept (change : Change C) (fault : Option Fault)
  | stop
  | crash (left : ℕ)

/-- The files that may be left after a call that left `file`, which is another one
only where the call renamed it in; then it is alone once it is synced. -/
def survivorsOf (h : Host C) (file : Option Bytes) (synced : Bool) : List (Option Bytes) :=
  if file = h.file then h.survivors else if synced then [file] else h.survivors ++ [file]

def Host.step (me : NodeIdentity C) (h : Host C) : Event C → Host C
  | .boot change faults =>
    match h.up with
    | some _ => h
    | none =>
      match Registry.boot me h.file change faults with
      | (some (r, seen, ops), file) =>
        { up := some (r, seen), file, survivors := survivorsOf h file true, published := h.published ++ ops }
      | (none, file) => { h with file, survivors := survivorsOf h file false }
  | .accept change fault =>
    match h.up with
    | none => h
    | some (r, seen) =>
      match Registry.accept r h.file seen change fault with
      | (.ok ops, r, seen, file) =>
        { up := some (r, seen), file, survivors := survivorsOf h file true, published := h.published ++ ops }
      | (.error _, r, seen, file) => { h with up := some (r, seen), file, survivors := survivorsOf h file false }
  | .stop => { h with up := none }
  | .crash left =>
    let file := h.survivors.getD left h.file
    { h with up := none, file, survivors := [file] }

/-- A node that has published nothing, over any file, and then a run of events. -/
def runHost (me : NodeIdentity C) (file : Option Bytes) (events : List (Event C)) : Host C :=
  events.foldl (Host.step me) { up := none, file, survivors := [file], published := [] }

/-! ### How far a chain has come -/

/-- Whether a chain's tip is at `seq` or past it. -/
def Reached (r : Registry C) (c : StreamId) (seq : ℤ) : Prop := ∃ tip, r.tips[c]? = some tip ∧ seq ≤ tip.1

/-- A registry of `me`, as every run leaves it. -/
def Sound (me : NodeIdentity C) (r : Registry C) : Prop := (∃ s, Agree s r) ∧ r.identity = some me

theorem reached_take {r : Registry C} {op : Op} (hx : r.Extends op) {c : StreamId} {seq : ℤ} (h : r.Reached c seq) :
    (r.take op).Reached c seq := by
  obtain ⟨tip, ht, hle⟩ := h
  rw [Reached, take, Std.ExtTreeMap.getElem?_insert]
  by_cases hc : streamOf op = c
  · subst hc
    have hf := hx.2
    rw [ht] at hf
    have hseq : op.seq = tip.1 + 1 := hf.1
    exact ⟨(op.seq, opHash C op), by simp, by omega⟩
  · exact ⟨tip, by simpa [hc] using ht, hle⟩

theorem reached_placed {s : Store} {r : Registry C} (A : Agree s r) {op : Op} {floor : Floor} (hp : r.Places op floor)
    {c : StreamId} {seq : ℤ} (h : r.Reached c seq) : (r.placed op ⟨gClaims, op.origin⟩ floor).Reached c seq := by
  obtain ⟨tip, ht, hle⟩ := h
  simp only [Reached, placed, Std.ExtTreeMap.getElem?_insert, Std.LawfulEqOrd.compare_eq_iff_eq]
  by_cases hcp : (⟨gCheckpoints, op.origin⟩ : StreamId) = c
  · -- The chain of checkpoints moves to this one, which is newer than the one held.
    subst hcp
    rw [A.checkpointTips] at ht
    obtain ⟨e, he, rfl⟩ := Option.map_eq_some_iff.mp ht
    have hnew := hp.2.1
    rw [he] at hnew
    obtain ⟨hlt, -⟩ := Store.placement_eq_placed.mp hnew
    have hseq : seq ≤ e.1.seq := hle
    exact ⟨(op.seq, opHash C op), by rw [if_pos rfl], by omega⟩
  rw [if_neg hcp]
  by_cases hc : (⟨gClaims, op.origin⟩ : StreamId) = c
  · subst hc
    rw [if_pos rfl, Std.ExtTreeMap.getD_eq_getD_getElem?, ht, Option.getD_some]
    refine ⟨_, rfl, ?_⟩
    split_ifs with h <;> omega
  · exact ⟨tip, by rw [if_neg hc, ht], hle⟩

theorem reached_ingest {me : NodeIdentity C} {r r' : Registry C} (h : Sound me r) {op : Op} {answer : Ingested}
    (hing : r.ingest op = .ok (answer, r')) :
    Sound me r' ∧ (∀ c seq, r.Reached c seq → r'.Reached c seq) ∧ r.changes ≤ r'.changes := by
  obtain ⟨⟨s, A⟩, hme⟩ := h
  have hr' : r.ingested op = r' := by rw [ingested, hing]
  have hstep := A.ingested hme op
  rw [hr'] at hstep
  refine ⟨⟨hstep.1, hstep.2.1⟩, ?_⟩
  rcases ingest_cases r op hme with ⟨-, -, hx, heq⟩ | ⟨floor, -, -, hp, heq⟩ | hk
  · obtain ⟨-, rfl⟩ := Prod.mk.inj (Except.ok.inj (hing.symm.trans heq))
    exact ⟨fun _ _ => reached_take hx, Nat.le_succ _⟩
  · obtain ⟨-, rfl⟩ := Prod.mk.inj (Except.ok.inj (hing.symm.trans heq))
    exact ⟨fun _ _ => reached_placed A hp, Nat.le_succ _⟩
  · rw [ingested_of_kept hk] at hr'
    subst hr'
    exact ⟨fun _ _ hc => hc, le_rfl⟩

/-- An op is minted past its chain's tip, and the tip is at it then. -/
theorem reached_append {me : NodeIdentity C} {r r' : Registry C} (h : Sound me r) {record : Record} {origin : String}
    {op : Op} (happend : r.appendReturning record origin = .ok (op, r')) :
    r.ingest op = .ok (.appended, r') ∧ ¬ r.Reached (streamOf op) op.seq ∧ r'.Reached (streamOf op) op.seq ∧
      r'.changes = r.changes + 1 := by
  obtain ⟨⟨s, A⟩, hme⟩ := h
  obtain ⟨-, hmint, hing, hcase⟩ := appendReturning_cases A hme happend
  refine ⟨hing, ?_, ?_⟩
  · rintro ⟨tip, ht, hle⟩
    rw [hmint.streamOf_eq] at ht
    have hseq := (hmint.follows_tip ht).1
    omega
  · rcases hcase with ⟨-, -, rfl⟩ | ⟨hg, floor, -, rfl⟩
    · exact ⟨⟨_, Std.ExtTreeMap.getElem?_insert_self, le_rfl⟩, rfl⟩
    · have hstream : streamOf op = ⟨gCheckpoints, op.origin⟩ := by rw [streamOf, hg]
      rw [hstream]
      exact ⟨⟨_, Std.ExtTreeMap.getElem?_insert_self, le_rfl⟩, rfl⟩

/-! ### What a change appends -/

/-- The position an op has in the directory. -/
def slotOf (op : Op) : StreamId × ℤ := (streamOf op, op.seq)

/-- A staged copy of `r`: no chain has gone back, and the ops appended on the way
are each past where `r` was, at a position of their own. -/
structure Staged (me : NodeIdentity C) (r r' : Registry C) (ops : List Op) : Prop where
  sound : Sound me r'
  forward : ∀ c seq, r.Reached c seq → r'.Reached c seq
  changes : r.changes + ops.length ≤ r'.changes
  fresh : ∀ op ∈ ops, ¬ r.Reached (streamOf op) op.seq
  reached : ∀ op ∈ ops, r'.Reached (streamOf op) op.seq
  slots : (ops.map slotOf).Nodup

theorem Staged.refl {me : NodeIdentity C} {r : Registry C} (h : Sound me r) : Staged me r r [] :=
  ⟨h, fun _ _ hc => hc, by simp, by simp, by simp, by simp⟩

/-- An op appended first, and then the rest of the change. -/
theorem Staged.append {me : NodeIdentity C} {r r₁ r' : Registry C} (h : Sound me r) {record : Record} {origin : String}
    {op : Op} (happend : r.appendReturning record origin = .ok (op, r₁)) {ops : List Op} (hrest : Staged me r₁ r' ops) :
    Staged me r r' (op :: ops) := by
  obtain ⟨hing, hfresh, hreached, hchanges⟩ := reached_append h happend
  obtain ⟨-, hforward, -⟩ := reached_ingest h hing
  refine ⟨hrest.sound, fun c seq hc => hrest.forward c seq (hforward c seq hc), ?_, ?_, ?_, ?_⟩
  · have := hrest.changes
    rw [List.length_cons]
    omega
  · rw [List.forall_mem_cons]
    exact ⟨hfresh, fun o ho hc => hrest.fresh o ho (hforward _ _ hc)⟩
  · rw [List.forall_mem_cons]
    exact ⟨hrest.forward _ _ hreached, hrest.reached⟩
  · rw [List.map_cons, List.nodup_cons]
    refine ⟨fun hmem => ?_, hrest.slots⟩
    obtain ⟨o, ho, heq⟩ := List.mem_map.mp hmem
    obtain ⟨hstream, hseq⟩ := Prod.mk.inj heq
    refine hrest.fresh o ho ?_
    rw [hstream, hseq]
    exact hreached

/-- What a change leaves, whatever it appends and ingests on the way. -/
theorem Change.staged {me : NodeIdentity C} {change : Change C} {r r' : Registry C} (h : Sound me r) {ops : List Op}
    (hstage : change.stage r = .ok (r', ops)) : Staged me r r' ops := by
  induction change generalizing r ops with
  | done =>
    obtain ⟨rfl, rfl⟩ := Prod.mk.inj (Except.ok.inj hstage)
    exact .refl h
  | refuse why => cases hstage
  | look next ih => exact ih r h hstage
  | append record origin next ih =>
    rw [stage] at hstage
    split at hstage
    case h_1 op r₁ happend =>
      split at hstage
      case h_2 => cases hstage
      case h_1 staged rest hrest =>
        obtain ⟨rfl, rfl⟩ := Prod.mk.inj (Except.ok.inj hstage)
        exact .append h happend (ih _ (reached_ingest h (reached_append h happend).1).1 hrest)
    case h_2 why happend => exact ih _ h hstage
  | ingest op next ih =>
    rw [stage] at hstage
    split at hstage
    case h_1 answer r₁ hing =>
      obtain ⟨hsound, hforward, hchanges⟩ := reached_ingest h hing
      have hrest := ih _ hsound hstage
      exact ⟨hrest.sound, fun c seq hc => hrest.forward c seq (hforward c seq hc), by have := hrest.changes; omega,
        fun o ho hc => hrest.fresh o ho (hforward _ _ hc), hrest.reached, hrest.slots⟩
    case h_2 why hing => exact ih _ h hstage

/-! ### What a boot reads -/

theorem Sound.quarantine {me : NodeIdentity C} {r : Registry C} (h : Sound me r) (quarantined : Bool) :
    Sound me { r with policyQuarantined := quarantined } := by
  obtain ⟨⟨s, A⟩, hme⟩ := h
  exact ⟨⟨s, A.inv, A.streams, A.logs, A.register, A.tips, A.checkpointTips⟩, hme⟩

theorem Sound.loading {me : NodeIdentity C} {st : Loading C} (h : Sound me st.reg) (op : Op) :
    Sound me (st.take op).reg := by
  rw [Loading.take]
  split_ifs
  · exact h.quarantine _
  · split
    case h_1 answer reg hing => exact (reached_ingest h hing).1
    · exact h.quarantine _

/-- A load leaves a registry of its node, whatever the snapshot holds. -/
theorem sound_fromSnapshotAs (me : NodeIdentity C) (snap : SystemSnapshot) : Sound me (fromSnapshotAs snap me).1 := by
  have hfold : ∀ (ops : List Op) (st : Loading C), Sound me st.reg → Sound me (ops.foldl Loading.take st).reg := by
    intro ops
    induction ops with
    | nil => exact fun _ h => h
    | cons op ops ih => exact fun st h => ih _ (h.loading op)
  have hempty : Sound me (sealedAs me) := ⟨⟨_, agree_empty me⟩, rfl⟩
  exact hfold _ _ (hempty.quarantine _)

/-- The registry a boot from `file` folds, before its own appends. -/
def Booted (me : NodeIdentity C) (file : Option Bytes) (r : Registry C) : Prop :=
  ∃ snap seen kept aside, RecordsFile.load file .nothing false = (.ok snap, seen) ∧
    setAside snap = some (kept, aside) ∧ r = (fromSnapshotAs kept me).1

theorem Booted.sound {me : NodeIdentity C} {file : Option Bytes} {r : Registry C} (h : Booted me file r) : Sound me r := by
  obtain ⟨_, _, kept, _, -, -, rfl⟩ := h
  exact sound_fromSnapshotAs me kept

/-- A sound registry's records are all signed. -/
theorem setAside_snapshot {me : NodeIdentity C} {r : Registry C} (h : Sound me r) :
    setAside { r.snapshot with revision := none } = some ({ r.snapshot with revision := none }, 0) := by
  obtain ⟨⟨s, A⟩, -⟩ := h
  have hsealed : ∀ bytes ∈ r.snapshot.records, (decodeOp bytes).toOption.map format = some .sealed := by
    intro bytes hbytes
    obtain ⟨op, hop, rfl⟩ := List.mem_map.mp hbytes
    have hv : verify C op = .ok () := by
      rcases List.mem_append.mp hop with hop | hop
      · obtain ⟨-, floor, hcp⟩ := A.checkpoint_ops.1 op hop
        exact (A.inv.registered _ op floor ((A.register _).trans hcp)).2.2.1
      · exact (A.streams op hop).1
    rw [decodeOp_encoding]
    exact congrArg some (format_of_verify hv)
  have hunknown : r.snapshot.records.any
      (fun bytes => decide ((decodeOp bytes).toOption.map format = some .unknown)) = false := by
    rw [List.any_eq_false]
    intro bytes hbytes
    simp [hsealed bytes hbytes]
  have hpartition : r.snapshot.records.partition
      (fun bytes => decide ((decodeOp bytes).toOption.map format = some .unsigned)) = ([], r.snapshot.records) := by
    rw [List.partition_eq_filter_filter, List.filter_eq_nil_iff.mpr, List.filter_eq_self.mpr]
    · intro bytes hbytes
      rw [Function.comp_apply, hsealed bytes hbytes]
      rfl
    · intro bytes hbytes
      rw [hsealed bytes hbytes]
      decide
  simp only [setAside, hunknown, hpartition]
  rfl

/-- A boot from a saved file folds the chains that were saved. -/
theorem Booted.tips_eq {me : NodeIdentity C} {r r' : Registry C} (h : Sound me r) (hs : Holdable r.snapshot) {revision : ℕ}
    (hr : revision < 2 ^ 64) (h0 : 0 < revision) (hb : Booted me (some (fileOf r.snapshot revision)) r') :
    r'.tips = r.tips := by
  obtain ⟨snap, seen, kept, aside, hload, hkept, rfl⟩ := hb
  rw [RecordsFile.load, if_neg (by simp), unpack_fileOf hs hr h0] at hload
  dsimp only at hload
  rw [decodeSnapshot_encodeSnapshot hs] at hload
  obtain ⟨hsnap, -⟩ := Prod.mk.inj hload
  obtain rfl := Except.ok.inj hsnap
  rw [setAside_snapshot h] at hkept
  obtain ⟨rfl, -⟩ := Prod.mk.inj (Option.some.inj hkept)
  obtain ⟨⟨s, A⟩, -⟩ := h
  exact (load_shuffled A me ⟨.refl _, fun _ => rfl⟩ r.snapshot.heads none).2.2.1

/-! ### Nothing published twice -/

/-- Every registry a boot from `file` folds has reached every op of `ops`. -/
def Covers (me : NodeIdentity C) (file : Option Bytes) (ops : List Op) : Prop :=
  ∀ r, Booted me file r → ∀ op ∈ ops, r.Reached (streamOf op) op.seq

/-- What the next op is minted from has come past everything published: the
registry of a node that is up, and every file a crash may leave. -/
structure Unforked (me : NodeIdentity C) (h : Host C) : Prop where
  up : ∀ r seen, h.up = some (r, seen) → Sound me r ∧ ∀ op ∈ h.published, r.Reached (streamOf op) op.seq
  file : h.file ∈ h.survivors
  survivors : ∀ file ∈ h.survivors, Covers me file h.published
  slots : (h.published.map slotOf).Nodup

/-- What a save of a staged copy leaves: another file, which covers what the copy
has reached, or the file there was, and then it answered no success. -/
theorem covers_save {me : NodeIdentity C} {r : Registry C} (h : Sound me r) {ops : List Op}
    (hops : ∀ op ∈ ops, r.Reached (streamOf op) op.seq) (file : Option Bytes) (seen : Seen) (fault : Option Fault) :
    let saved := save file seen r.snapshot fault
    (saved.2.2 ≠ file ∧ Covers me saved.2.2 ops) ∨ (saved.2.2 = file ∧ saved.1 ≠ .ok ()) := by
  have hwritten : ∀ held : Option ℕ, heldRevision file = .ok held → Holdable r.snapshot → held.getD 0 + 1 < 2 ^ 64 →
      some (fileOf r.snapshot (held.getD 0 + 1)) ≠ file ∧
        Covers me (some (fileOf r.snapshot (held.getD 0 + 1))) ops := by
    intro held hheld hs hr
    refine ⟨?_, fun r' hb op hop => ?_⟩
    · -- Its revision is another one.
      rintro rfl
      rw [heldRevision, revisionOf_fileOf hs hr (Nat.succ_pos _)] at hheld
      have hsame : (some (held.getD 0 + 1)).getD 0 = held.getD 0 := congrArg (·.getD 0) (Except.ok.inj hheld)
      simp at hsame
    · rw [Reached, hb.tips_eq h hs hr (Nat.succ_pos _)]
      exact hops op hop
  rcases save_cases file seen r.snapshot fault with ⟨held, -, hheld, hs, hmax, ⟨-, heq⟩ | ⟨-, heq⟩⟩ | ⟨-, e, -, heq⟩
  · rw [heq]
    exact .inl (hwritten held hheld hs hmax)
  · rw [heq]
    exact .inl (hwritten held hheld hs hmax)
  · rw [heq]
    exact .inr ⟨rfl, by simp⟩

/-- A save that succeeded: what the staged copy appended may be published. -/
theorem Unforked.saved {me : NodeIdentity C} {h : Host C} (hu : Unforked me h) {r r' : Registry C} {ops : List Op}
    (hreached : ∀ op ∈ h.published, r.Reached (streamOf op) op.seq) (hs : Staged me r r' ops) {seen seen' : Seen}
    {fault : Option Fault} {file : Option Bytes} (hsave : save h.file seen r'.snapshot fault = (.ok (), seen', file)) :
    Unforked me { up := some (r', seen'), file, survivors := survivorsOf h file true, published := h.published ++ ops } := by
  have hall : ∀ op ∈ h.published ++ ops, r'.Reached (streamOf op) op.seq := by
    intro op hop
    rcases List.mem_append.mp hop with hop | hop
    · exact hs.forward _ _ (hreached op hop)
    · exact hs.reached op hop
  obtain ⟨hne, hcovers⟩ : file ≠ h.file ∧ Covers me file (h.published ++ ops) := by
    have hsaved := covers_save hs.sound hall h.file seen fault
    rw [hsave] at hsaved
    rcases hsaved with hsaved | ⟨-, hno⟩
    · exact hsaved
    · exact absurd rfl hno
  have hsurvivors : survivorsOf h file true = [file] := by simp [survivorsOf, hne]
  rw [hsurvivors]
  refine ⟨fun r₁ seen₁ hup => ?_, List.mem_singleton_self _, ?_, ?_⟩
  · obtain ⟨rfl, -⟩ := Prod.mk.inj (Option.some.inj hup)
    exact ⟨hs.sound, hall⟩
  · intro f hf
    rw [List.mem_singleton.mp hf]
    exact hcovers
  · rw [List.map_append, List.nodup_append]
    refine ⟨hu.slots, hs.slots, fun a ha b hb hab => ?_⟩
    obtain ⟨op, hop, rfl⟩ := List.mem_map.mp ha
    obtain ⟨op', hop', rfl⟩ := List.mem_map.mp hb
    obtain ⟨hstream, hseq⟩ := Prod.mk.inj hab
    refine hs.fresh op' hop' ?_
    rw [← hstream, ← hseq]
    exact hreached op hop

/-- A save that failed: the file is the one there was, or one that covers what is
published. -/
theorem Unforked.unsaved {me : NodeIdentity C} {h : Host C} (hu : Unforked me h) {r r' : Registry C} {ops : List Op}
    (hreached : ∀ op ∈ h.published, r.Reached (streamOf op) op.seq) (hs : Staged me r r' ops) {seen seen' : Seen}
    {fault : Option Fault} {file : Option Bytes} {e : FileError}
    (hsave : save h.file seen r'.snapshot fault = (.error e, seen', file)) {up : Option (Registry C × Seen)}
    (hup : ∀ r seen, up = some (r, seen) → Sound me r ∧ ∀ op ∈ h.published, r.Reached (streamOf op) op.seq) :
    Unforked me { h with up, file, survivors := survivorsOf h file false } := by
  have hsaved := covers_save hs.sound (fun op hop => hs.forward _ _ (hreached op hop)) h.file seen fault
  rw [hsave] at hsaved
  rcases hsaved with ⟨hne, hcovers⟩ | ⟨heq, -⟩
  · have hsurvivors : survivorsOf h file false = h.survivors ++ [file] := by
      rw [survivorsOf, if_neg hne]
      rfl
    rw [hsurvivors]
    refine ⟨hup, by simp, fun f hf => ?_, hu.slots⟩
    rcases List.mem_append.mp hf with hf | hf
    · exact hu.survivors f hf
    · rw [List.mem_singleton.mp hf]
      exact hcovers
  · obtain rfl : file = h.file := heq
    rw [survivorsOf, if_pos rfl]
    exact ⟨hup, hu.file, hu.survivors, hu.slots⟩

/-- What an accept does: it takes nothing, and then the registry and the file are
as they were, or it saves a staged copy, which is the registry once it is saved. -/
theorem accept_cases (r : Registry C) (file : Option Bytes) (seen : Seen) (change : Change C) (fault : Option Fault) :
    (∃ answer, Registry.accept r file seen change fault = (answer, r, seen, file) ∧
      ∀ ops, answer = .ok ops → ∃ staged, change.stage r = .ok (staged, ops) ∧ staged.changes = r.changes) ∨
    ∃ staged ops, change.stage r = .ok (staged, ops) ∧
      ((∃ seen' file', save file seen staged.snapshot fault = (.ok (), seen', file') ∧
        Registry.accept r file seen change fault = (.ok ops, staged, seen', file')) ∨
      ∃ e seen' file', save file seen staged.snapshot fault = (.error e, seen', file') ∧
        Registry.accept r file seen change fault = (.error (.unsaved e), r, seen', file')) := by
  rw [Registry.accept]
  cases hstage : change.stage r with
  | error why => exact .inl ⟨_, rfl, by simp⟩
  | ok p =>
    obtain ⟨staged, ops⟩ := p
    dsimp only
    split_ifs with hsame
    · refine .inl ⟨_, rfl, fun ops' heq => ?_⟩
      obtain rfl := Except.ok.inj heq
      exact ⟨staged, rfl, hsame⟩
    · refine .inr ⟨staged, ops, rfl, ?_⟩
      rcases hsave : save file seen staged.snapshot fault with ⟨answer, seen', file'⟩
      cases answer with
      | ok _ => exact .inl ⟨seen', file', rfl, rfl⟩
      | error e => exact .inr ⟨e, seen', file', rfl, rfl⟩

/-- What a boot does: it fails before it saves, or it folds the file and makes its
appends, and saves them if there are any. -/
theorem boot_cases (me : NodeIdentity C) (file : Option Bytes) (change : Change C) (faults : BootFaults) :
    Registry.boot me file change faults = (none, file) ∨
    ∃ r staged ops seen, Booted me file r ∧ change.stage r = .ok (staged, ops) ∧
      ((staged.changes = r.changes ∧ Registry.boot me file change faults = (some (staged, seen, ops), file)) ∨
      (∃ seen' file', save file seen staged.snapshot faults.save = (.ok (), seen', file') ∧
        Registry.boot me file change faults = (some (staged, seen', ops), file')) ∨
      ∃ e seen' file', save file seen staged.snapshot faults.save = (.error e, seen', file') ∧
        Registry.boot me file change faults = (none, file')) := by
  rw [Registry.boot]
  cases hread : faults.read with
  | true => exact .inl rfl
  | false =>
    rcases hload : RecordsFile.load file .nothing false with ⟨answer, seen⟩
    cases answer with
    | error e => exact .inl rfl
    | ok snap =>
      dsimp only
      cases haside : setAside snap with
      | none => exact .inl rfl
      | some p =>
        obtain ⟨kept, aside⟩ := p
        have hbooted : Booted me file (fromSnapshotAs kept me).1 := ⟨snap, seen, kept, aside, hload, haside, rfl⟩
        dsimp only
        split_ifs with hfails
        · exact .inl rfl
        cases hstage : change.stage (fromSnapshotAs kept me).1 with
        | error why => exact .inl rfl
        | ok p =>
          obtain ⟨staged, ops⟩ := p
          refine .inr ⟨_, staged, ops, seen, hbooted, hstage, ?_⟩
          dsimp only
          split_ifs with hsame
          · exact .inl ⟨hsame.2, rfl⟩
          · rcases hsave : save file seen staged.snapshot faults.save with ⟨answer, seen', file'⟩
            cases answer with
            | ok _ => exact .inr (.inl ⟨seen', file', rfl, rfl⟩)
            | error e => exact .inr (.inr ⟨e, seen', file', rfl, rfl⟩)

/-- A change that takes nothing appends nothing. -/
theorem Staged.ops_eq_nil {me : NodeIdentity C} {r r' : Registry C} {ops : List Op} (hs : Staged me r r' ops)
    (hsame : r'.changes = r.changes) : ops = [] := by
  have hchanges := hs.changes
  rw [← List.length_eq_zero_iff]
  omega

theorem Unforked.accept {me : NodeIdentity C} {h : Host C} (hu : Unforked me h) (change : Change C)
    (fault : Option Fault) : Unforked me (h.step me (.accept change fault)) := by
  rw [Host.step]
  cases hup : h.up with
  | none => exact hu
  | some p =>
    obtain ⟨r, seen⟩ := p
    obtain ⟨hsound, hreached⟩ := hu.up r seen hup
    dsimp only
    rcases accept_cases r h.file seen change fault with ⟨answer, heq, hnone⟩ |
      ⟨staged, ops, hstage, ⟨seen', file, hsave, heq⟩ | ⟨e, seen', file, hsave, heq⟩⟩
    · rw [heq]
      cases answer with
      | error e =>
        dsimp only
        rw [survivorsOf, if_pos rfl, ← hup]
        exact hu
      | ok ops =>
        obtain ⟨staged, hstage, hsame⟩ := hnone ops rfl
        have hnil := (change.staged hsound hstage).ops_eq_nil hsame
        dsimp only
        rw [hnil, List.append_nil, survivorsOf, if_pos rfl, ← hup]
        exact hu
    · rw [heq]
      exact hu.saved hreached (change.staged hsound hstage) hsave
    · rw [heq]
      refine hu.unsaved hreached (change.staged hsound hstage) hsave fun r₁ seen₁ hup₁ => ?_
      obtain ⟨rfl, -⟩ := Prod.mk.inj (Option.some.inj hup₁)
      exact ⟨hsound, hreached⟩

theorem Unforked.boot {me : NodeIdentity C} {h : Host C} (hu : Unforked me h) (change : Change C)
    (faults : BootFaults) : Unforked me (h.step me (.boot change faults)) := by
  rw [Host.step]
  cases hup : h.up with
  | some p => exact hu
  | none =>
    dsimp only
    rcases boot_cases me h.file change faults with heq | ⟨r, staged, ops, seen, hbooted, hstage, hcase⟩
    · rw [heq]
      dsimp only
      rw [survivorsOf, if_pos rfl]
      exact ⟨fun _ _ hup => (by cases hup), hu.file, hu.survivors, hu.slots⟩
    have hs := change.staged hbooted.sound hstage
    have hreached := hu.survivors h.file hu.file r hbooted
    rcases hcase with ⟨hsame, heq⟩ | ⟨seen', file, hsave, heq⟩ | ⟨e, seen', file, hsave, heq⟩
    · rw [heq, hs.ops_eq_nil hsame]
      dsimp only
      rw [List.append_nil, survivorsOf, if_pos rfl]
      refine ⟨fun r₁ seen₁ hup₁ => ?_, hu.file, hu.survivors, hu.slots⟩
      obtain ⟨rfl, -⟩ := Prod.mk.inj (Option.some.inj hup₁)
      exact ⟨hs.sound, fun op hop => hs.forward _ _ (hreached op hop)⟩
    · rw [heq]
      exact hu.saved hreached hs hsave
    · rw [heq]
      exact hu.unsaved hreached hs hsave fun _ _ hup₁ => by cases hup₁

theorem Unforked.step {me : NodeIdentity C} {h : Host C} (hu : Unforked me h) (event : Event C) :
    Unforked me (h.step me event) := by
  cases event with
  | boot change faults => exact hu.boot change faults
  | accept change fault => exact hu.accept change fault
  | stop => exact ⟨fun _ _ hup => (by cases hup), hu.file, hu.survivors, hu.slots⟩
  | crash left =>
    have hleft : h.survivors.getD left h.file ∈ h.survivors := by
      rw [List.getD_eq_getElem?_getD]
      cases hl : h.survivors[left]? with
      | none => exact hu.file
      | some file => exact List.mem_of_getElem? hl
    refine ⟨fun _ _ hup => (by cases hup), List.mem_singleton_self _, fun file hf => ?_, hu.slots⟩
    rw [List.mem_singleton.mp hf]
    exact hu.survivors _ hleft

/-- Whatever is appended, saved or lost, and wherever the node stops, crashes and
boots again, no two ops are published at one position of one chain. -/
theorem published_once (C : Crypto) (me : NodeIdentity C) (file : Option Bytes) (events : List (Event C)) :
    ((runHost me file events).published.map (fun op => (op.gladeId, op.origin, op.seq))).Nodup := by
  have hrun : Unforked me (runHost me file events) := by
    induction events using List.reverseRecOn with
    | nil => exact ⟨fun _ _ hup => (by cases hup), by simp [runHost], by simp [runHost, Covers], List.nodup_nil⟩
    | append_singleton events event ih =>
      rw [runHost, List.foldl_concat]
      exact ih.step event
  have hslots := hrun.slots.map (f := fun p : StreamId × ℤ => (p.1.stream, p.1.origin, p.2)) fun p q h => by
    obtain ⟨⟨stream, origin⟩, seq⟩ := p
    obtain ⟨⟨stream', origin'⟩, seq'⟩ := q
    simpa [and_assoc] using h
  rwa [List.map_map] at hslots

end Glade.Registry
