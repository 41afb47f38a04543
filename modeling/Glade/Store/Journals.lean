import Glade.Store.Open
import Glade.Store.Replay
import Glade.Store.HomeAppend

/-! The journals on disk. Each is a run of the ops written to it, and lists each
of its chains in order; a share with a name has its own directory, and a share
without one would have its journals among the store's own files. -/

namespace Glade.Store

open Wire Node LinkedLog

variable {C : Crypto}

/-! ### Paths -/

theorem hex_ne_empty {s : String} (h : s ≠ "") : hex (utf8 s) ≠ "" := by
  intro h0
  apply h
  have hu := unhex_utf8_hex (utf8 s)
  rw [h0] at hu
  apply utf8_injective
  rw [← Option.some.inj hu]
  decide

theorem logName_ne_empty (origin : String) : logName origin ≠ "" := by
  intro h
  have := toList_getLast?_logName origin
  simp [h] at this

/-- The journal of a share with a name. -/
theorem logPath_eq {share : String} (hs : share ≠ "") (origin : String) :
    logPath share origin = [hex (utf8 share), logName origin] := by
  rw [logPath, shareDir, join, join, if_neg (hex_ne_empty hs), if_neg (logName_ne_empty origin)]
  rfl

theorem hexName_injective : Function.Injective fun s : String => hex (utf8 s) := hex_injective.comp utf8_injective

theorem logName_injective : Function.Injective logName := by
  intro a b h
  apply hexName_injective
  have ht := congrArg String.toList h
  simp only [logName, String.toList_append, List.append_cancel_right_eq] at ht
  exact String.toList_inj.mp ht

theorem logPath_inj {share share' origin origin' : String} (hs : share ≠ "") (hs' : share' ≠ "")
    (h : logPath share origin = logPath share' origin') : share = share' ∧ origin = origin' := by
  rw [logPath_eq hs, logPath_eq hs'] at h
  simp only [List.cons.injEq, and_true] at h
  exact ⟨hexName_injective h.1, logName_injective h.2⟩

/-- No share's directory is the proofs'. -/
theorem hex_ne_proofs (s : String) : hex (utf8 s) ≠ "proofs" := by
  intro h
  have hu := unhex_utf8_hex (utf8 s)
  rw [h, show unhex (utf8 "proofs") = none by decide] at hu
  cases hu

theorem logPath_ne_proofsPath {share : String} (hs : share ≠ "") (origin : String) :
    logPath share origin ≠ proofsPath := by
  rw [logPath_eq hs, proofsPath]
  intro h
  simp only [List.cons.injEq] at h
  exact hex_ne_proofs share h.1

theorem isLog_logName (origin : String) : isLog (logName origin) = true := by
  rw [isLog, List.isSuffixOf_iff_suffix, logName, String.toList_append]
  exact List.suffix_append _ _

theorem rewriteName_ne_logName (origin origin' : String) : rewriteName origin ≠ logName origin' := by
  intro h
  have hl := toList_getLast?_logName origin'
  rw [← h] at hl
  simp [rewriteName, String.toList_append] at hl

/-! ### Files -/

theorem Disk.mem_of_bytes_ne_nil {disk : Disk} {path : Path} (h : disk.bytes path ≠ []) : path ∈ disk := by
  by_contra hmem
  exact h (Std.ExtTreeMap.getD_eq_fallback hmem)

theorem Disk.bytes_insert (disk : Disk) (path path' : Path) (data : Bytes) :
    Disk.bytes (disk.insert path data) path' = if path = path' then data else disk.bytes path' := by
  simp [Disk.bytes, Std.ExtTreeMap.getD_insert]

/-- Writing a file that is there adds none. -/
theorem Disk.mem_insert_of_mem {disk : Disk} {path : Path} (h : path ∈ disk) (data : Bytes) (path' : Path) :
    path' ∈ disk.insert path data ↔ path' ∈ disk := by
  rw [Std.ExtTreeMap.mem_insert]
  constructor
  · rintro (hp | hp)
    · exact Std.LawfulEqOrd.eq_of_compare hp ▸ h
    · exact hp
  · exact .inr

/-! ### What the journals hold -/

/-- An op a journal can hold: its share has a name, and its length is one a
record's prefix holds. -/
def Journalable (op : Op) : Prop := op.share ≠ "" ∧ op.encoding.length < 2 ^ 32

instance (op : Op) : Decidable (Journalable op) := inferInstanceAs (Decidable (_ ∧ _))

/-- The journals of a store whose memory is `logs`: their ops, and after them
what a write that failed halfway has left. -/
structure Journals (logs : Logs) (disk : Disk) (journal : String → String → List Op) (torn : String → String → Bytes) :
    Prop where
  /-- There are no other files than the journals and the proofs. -/
  paths : ∀ path ∈ disk, path = proofsPath ∨ ∃ share origin, share ≠ "" ∧ path = logPath share origin
  bytes : ∀ share origin, share ≠ "" →
    disk.bytes (logPath share origin) = (journal share origin).flatMap framed ++ torn share origin
  torn : ∀ share origin, Frames.Torn (torn share origin)
  journalable : ∀ share origin, ∀ op ∈ journal share origin, Journalable op
  owned : ∀ share origin, ∀ op ∈ journal share origin, op.share = share ∧ op.origin = origin
  chains : ∀ c : ChainId, (journal c.share c.origin).filter (fun op => chainOf op = c) = logs.at c

theorem journals_empty : Journals ∅ ∅ (fun _ _ => []) (fun _ _ => []) where
  paths := by simp
  bytes := by simp [Disk.bytes]
  torn _ _ := Frames.torn_nil
  journalable := by simp
  owned := by simp
  chains := by simp [Logs.at]

/-- A run of ops a journal can hold reads back, and what is left of an
interrupted write is cut. -/
theorem readRecords_of_bytes {disk : Disk} {path : Path} {ops : List Op} {tail : Bytes}
    (h : disk.bytes path = ops.flatMap framed ++ tail) (ht : Frames.Torn tail)
    (hsmall : ∀ op ∈ ops, op.encoding.length < 2 ^ 32) :
    readRecords disk path =
      (ops.map some, if tail = [] then disk else disk.insert path (ops.flatMap framed)) := by
  have hframes : ops.flatMap framed = (ops.map Op.encoding).flatMap Frames.frame := by
    rw [List.flatMap_map]
    rfl
  have hsplit : Frames.split (disk.bytes path) = (ops.map Op.encoding, tail) := by
    rw [h, hframes]
    exact Frames.split_flatMap_frame (by simpa using hsmall) ht
  have hops : (ops.map Op.encoding).map (fun record => (decodeOp record).toOption) = ops.map some := by
    rw [List.map_map]
    refine List.map_congr_left fun op _ => ?_
    simp [decodeOp_encoding, Except.toOption]
  have hcut : (ops.flatMap framed ++ tail).take ((ops.flatMap framed ++ tail).length - tail.length) =
      ops.flatMap framed := by
    rw [List.length_append, Nat.add_sub_cancel, List.take_left]
  simp only [readRecords, hsplit, hops]
  rw [h, hcut]

/-! ### Writing a journal -/

/-- A table of the journals with one entry replaced. -/
def putAt {α : Type} (table : String → String → α) (share origin : String) (a : α) (s o : String) : α :=
  if s = share ∧ o = origin then a else table s o

theorem putAt_self {α : Type} (table : String → String → α) (share origin : String) (a : α) :
    putAt table share origin a share origin = a := if_pos ⟨rfl, rfl⟩

theorem putAt_eq_self {α : Type} (table : String → String → α) (share origin : String) :
    putAt table share origin (table share origin) = table := by
  funext s o
  rw [putAt]
  split_ifs with h
  · rw [h.1, h.2]
  · rfl

theorem putAt_other {α : Type} (table : String → String → α) {share origin s o : String} (a : α)
    (h : ¬ (s = share ∧ o = origin)) : putAt table share origin a s o = table s o := if_neg h

/-- One journal written anew, and the chains it lists with it. -/
theorem Journals.write {logs logs' : Logs} {disk : Disk} {journal : String → String → List Op}
    {torn : String → String → Bytes} (J : Journals logs disk journal torn) {share origin : String} (hs : share ≠ "")
    {ops : List Op} {tail : Bytes} (htail : Frames.Torn tail) (hjournalable : ∀ op ∈ ops, Journalable op)
    (howned : ∀ op ∈ ops, op.share = share ∧ op.origin = origin)
    (hlisted : ∀ c : ChainId, c.share = share → c.origin = origin → ops.filter (fun op => chainOf op = c) = logs'.at c)
    (hother : ∀ c : ChainId, ¬ (c.share = share ∧ c.origin = origin) → logs'.at c = logs.at c) :
    Journals logs' (disk.insert (logPath share origin) (ops.flatMap framed ++ tail)) (putAt journal share origin ops)
      (putAt torn share origin tail) where
  paths path hpath := by
    rcases Std.ExtTreeMap.mem_insert.mp hpath with h | h
    · exact .inr ⟨share, origin, hs, (Std.LawfulEqOrd.eq_of_compare h).symm⟩
    · exact J.paths path h
  bytes s o hso := by
    rw [Disk.bytes_insert]
    by_cases h : s = share ∧ o = origin
    · obtain ⟨rfl, rfl⟩ := h
      rw [if_pos rfl, putAt_self, putAt_self]
    · have hne : logPath share origin ≠ logPath s o := by
        intro heq
        obtain ⟨rfl, rfl⟩ := logPath_inj hs hso heq
        exact h ⟨rfl, rfl⟩
      rw [if_neg hne, putAt_other _ _ h, putAt_other _ _ h, J.bytes s o hso]
  torn s o := by
    rw [putAt]
    split_ifs
    · exact htail
    · exact J.torn s o
  journalable s o := by
    rw [putAt]
    split_ifs
    · exact hjournalable
    · exact J.journalable s o
  owned s o := by
    rw [putAt]
    split_ifs with h
    · rw [h.1, h.2]
      exact howned
    · exact J.owned s o
  chains c := by
    rw [putAt]
    split_ifs with h
    · exact hlisted c h.1 h.2
    · rw [hother c h]
      exact J.chains c

/-- Another file written where no journal is. -/
theorem Journals.writeProofs {logs : Logs} {disk : Disk} {journal : String → String → List Op}
    {torn : String → String → Bytes} (J : Journals logs disk journal torn) (data : Bytes) :
    Journals logs (disk.insert proofsPath data) journal torn where
  paths path hpath := by
    rcases Std.ExtTreeMap.mem_insert.mp hpath with h | h
    · exact .inl (Std.LawfulEqOrd.eq_of_compare h).symm
    · exact J.paths path h
  bytes s o hso := by
    rw [Disk.bytes_insert, if_neg (logPath_ne_proofsPath hso o).symm]
    exact J.bytes s o hso
  torn := J.torn
  journalable := J.journalable
  owned := J.owned
  chains := J.chains

namespace Journals

variable {logs : Logs} {disk : Disk} {journal : String → String → List Op} {torn : String → String → Bytes}
  (J : Journals logs disk journal torn)

include J

/-- A journal reads to its ops, and the disk is left with the same journals. -/
theorem readLog_eq {share : String} (hs : share ≠ "") (origin : String) :
    ∃ disk' torn', readLog disk [hex (utf8 share), logName origin] = (journal share origin, disk') ∧
      Journals logs disk' journal torn' ∧ (∀ path, path ∈ disk' ↔ path ∈ disk) ∧
      disk'.bytes proofsPath = disk.bytes proofsPath := by
  have hb : disk.bytes [hex (utf8 share), logName origin] = (journal share origin).flatMap framed ++ torn share origin := by
    rw [← logPath_eq hs, J.bytes share origin hs]
  have hsome : (List.map some (journal share origin)).filterMap id = journal share origin := by
    simp [List.filterMap_map]
  rw [readLog, readRecords_of_bytes hb (J.torn share origin) fun op hop => (J.journalable share origin op hop).2,
    ← logPath_eq hs]
  rw [← logPath_eq hs] at hb
  by_cases ht : torn share origin = []
  · rw [if_pos ht]
    exact ⟨disk, torn, Prod.ext hsome rfl, J, fun _ => Iff.rfl, rfl⟩
  · have hmem : logPath share origin ∈ disk := by
      refine Disk.mem_of_bytes_ne_nil ?_
      rw [hb]
      simp [ht]
    have hw := J.write hs Frames.torn_nil (J.journalable share origin) (J.owned share origin)
      (fun c hc ho => by rw [← hc, ← ho]; exact J.chains c) fun _ _ => rfl
    rw [List.append_nil, putAt_eq_self] at hw
    rw [if_neg ht]
    refine ⟨_, _, Prod.ext hsome rfl, hw, Disk.mem_insert_of_mem hmem _, ?_⟩
    rw [Disk.bytes_insert, if_neg (logPath_ne_proofsPath hs origin)]

/-- A share without a name has no journal. -/
theorem journal_nameless (origin : String) : journal "" origin = [] := by
  rw [List.eq_nil_iff_forall_not_mem]
  intro op hop
  exact (J.journalable _ _ op hop).1 (J.owned _ _ op hop).1

/-- A held op is in its journal. -/
theorem journalable_of_mem {c : ChainId} {op : Op} (hop : op ∈ logs.at c) : Journalable op := by
  rw [← J.chains c, List.mem_filter] at hop
  exact J.journalable _ _ op hop.1

theorem sealedMarker_not_mem : sealedMarker ∉ disk := by
  intro h
  rcases J.paths _ h with h | ⟨share, origin, -, h⟩
  · revert h
    decide
  · exact logPath_ne_sealedMarker share origin h.symm

theorem lists (origin : String) : Lists logs origin (journal home origin) where
  owned := J.owned home origin
  chains c hs ho := by
    subst ho
    rw [← hs]
    exact J.chains c

/-- A file at a journal's path for every journal that holds something. -/
theorem journal_eq_nil_of_not_mem {share origin : String} (h : logPath share origin ∉ disk) : journal share origin = [] := by
  by_cases hs : share = ""
  · rw [hs]
    exact J.journal_nameless origin
  have hb := J.bytes share origin hs
  rw [Disk.bytes, Std.ExtTreeMap.getD_eq_fallback h] at hb
  have hnil := List.flatMap_eq_nil_iff.mp (List.append_eq_nil_iff.mp hb.symm).1
  rw [List.eq_nil_iff_forall_not_mem]
  intro op hop
  have := congrArg List.length (hnil op hop)
  simp [framed, Frames.length_frame] at this

end Journals

end Glade.Store
