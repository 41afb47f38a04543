import Glade.Store.Reopen

/-! The journals follow memory. An op appended is written at the end of its
journal, a checkpoint placed rewrites its origin's to the ops held of it, and a
write that fails halfway leaves a tail that is cut when the store opens; so in
every run a store opened on the disk is the store that wrote it. -/

namespace Glade.Store

open Wire Node LinkedLog

variable {C : Crypto}

/-! ### An op written -/

theorem at_push (logs : Logs) (op : Op) (c : ChainId) :
    Logs.at (push logs op) c = if chainOf op = c then logs.at c ++ [op] else logs.at c := by
  rw [push, Logs.at_insert]
  split_ifs with h
  · rw [h]
  · rfl

section

variable {logs : Logs} {register : Register} {disk : Disk} {journal : String → String → List Op}
  {torn : String → String → Bytes} (J : Journals logs disk journal torn) {op : Op}

include J

/-- An op at the end of its journal. -/
theorem Journals.push (hop : Journalable op) (hwhole : torn op.share op.origin = []) :
    Journals (push logs op)
      (disk.insert (logPath op.share op.origin) (disk.bytes (logPath op.share op.origin) ++ framed op))
      (putAt journal op.share op.origin (journal op.share op.origin ++ [op])) (putAt torn op.share op.origin []) := by
  have hbytes : disk.bytes (logPath op.share op.origin) ++ framed op =
      (journal op.share op.origin ++ [op]).flatMap framed ++ [] := by
    rw [J.bytes _ _ hop.1, hwhole, List.flatMap_append]
    simp
  rw [hbytes]
  refine J.write hop.1 Frames.torn_nil ?_ ?_ (fun c hs ho => ?_) fun c hc => ?_
  · intro o ho
    rcases List.mem_append.mp ho with h | h
    · exact J.journalable _ _ o h
    · obtain rfl := List.mem_singleton.mp h
      exact hop
  · intro o ho
    rcases List.mem_append.mp ho with h | h
    · exact J.owned _ _ o h
    · obtain rfl := List.mem_singleton.mp h
      exact ⟨rfl, rfl⟩
  · rw [List.filter_append, at_push, ← hs, ← ho, J.chains c]
    by_cases h : chainOf op = c <;> simp [h]
  · rw [at_push, if_neg]
    rintro rfl
    exact hc ⟨rfl, rfl⟩

/-- The first bytes of an op at the end of its journal. -/
theorem Journals.tear (hop : Journalable op) (hwhole : torn op.share op.origin = []) {n : ℕ}
    (hn : n < (framed op).length) :
    Journals logs
      (disk.insert (logPath op.share op.origin) (disk.bytes (logPath op.share op.origin) ++ (framed op).take n))
      (putAt journal op.share op.origin (journal op.share op.origin))
      (putAt torn op.share op.origin ((framed op).take n)) := by
  rw [J.bytes _ _ hop.1, hwhole, List.append_nil]
  refine J.write hop.1 (Frames.torn_take hop.2 hn) (J.journalable _ _) (J.owned _ _) (fun c hs ho => ?_) fun _ _ => rfl
  rw [← hs, ← ho]
  exact J.chains c

end

/-! ### A journal rewritten -/

theorem mem_journalOps {logs : Logs} {origin : String} {op : Op} :
    op ∈ journalOps logs origin ↔
      ∃ c : ChainId, c.share = home ∧ c.origin = origin ∧ ∃ log, (c, log) ∈ logs.toList ∧ op ∈ log := by
  simp only [journalOps, List.partition_eq_filter_filter, List.mem_flatMap, List.mem_append, List.mem_filter,
    Prod.exists, decide_eq_true_eq, Function.comp_apply, Bool.not_eq_true', decide_eq_false_iff_not]
  constructor
  · rintro ⟨c, log, h | h, hop⟩
    · exact ⟨c, h.1.2.1, h.1.2.2, log, h.1.1, hop⟩
    · exact ⟨c, h.1.2.1, h.1.2.2, log, h.1.1, hop⟩
  · rintro ⟨c, hs, ho, log, hmem, hop⟩
    refine ⟨c, log, ?_, hop⟩
    by_cases hg : c.gladeId = gCheckpoints
    · exact .inl ⟨⟨hmem, hs, ho⟩, hg⟩
    · exact .inr ⟨⟨hmem, hs, ho⟩, hg⟩

/-- The ops an origin's journal is rewritten to list each of its chains. -/
theorem filter_journalOps {logs : Logs} {register : Register} (I : Inv C logs register) {origin : String} {c : ChainId}
    (hs : c.share = home) (ho : c.origin = origin) :
    (journalOps logs origin).filter (fun op => chainOf op = c) = logs.at c := by
  set ours := logs.toList.filter (fun e => e.1.share = home ∧ e.1.origin = origin) with hours
  set listed := ours.filter (fun e => e.1.gladeId = gCheckpoints) ++
    ours.filter (fun e => ! decide (e.1.gladeId = gCheckpoints))
  have hperm : listed.Perm ours := List.filter_append_perm _ ours
  have hone : ∀ e ∈ listed, e.2.filter (fun op => chainOf op = c) = if e.1 = c then e.2 else [] := by
    rintro ⟨c', log⟩ hmem
    have hkeyed := I.keyed c'
    rw [Logs.at_of_mem_toList (List.mem_of_mem_filter (hperm.mem_iff.mp hmem))] at hkeyed
    split_ifs with h
    · rw [List.filter_eq_self]
      intro op hop
      simpa [hkeyed op hop] using h
    · rw [List.filter_eq_nil_iff]
      intro op hop
      simpa [hkeyed op hop] using h
  -- Only the chain's own entry lists ops of it.
  have hentry : listed.filter (fun e => e.1 = c) = (logs[c]?.map fun log => (c, log)).toList := by
    have hfilter : ours.filter (fun e => e.1 = c) = (logs[c]?.map fun log => (c, log)).toList := by
      rw [← OrdMap.filter_toList_eq (p := fun c' => c' = c) rfl (fun _ _ h => h), hours, List.filter_filter]
      refine List.filter_congr fun e _ => ?_
      by_cases h : e.1 = c
      · simp [h, hs, ho]
      · simp [h]
    have hp := hperm.filter (fun e => e.1 = c)
    rw [hfilter] at hp
    cases hc : logs[c]? with
    | none => simpa [hc] using hp
    | some log => simpa [hc] using hp
  have hjournal : journalOps logs origin = listed.flatMap Prod.snd := by
    rw [journalOps, List.partition_eq_filter_filter]
    rfl
  rw [hjournal, List.filter_flatMap]
  calc listed.flatMap (fun e => e.2.filter (fun op => chainOf op = c))
      = listed.flatMap (fun e => if e.1 = c then e.2 else []) := List.flatMap_congr hone
    _ = (listed.filter (fun e => e.1 = c)).flatMap Prod.snd := OrdMap.flatMap_ite _ _ listed
    _ = logs.at c := by
        rw [hentry, Logs.at, Std.ExtTreeMap.getD_eq_getD_getElem?]
        cases logs[c]? <;> simp

/-- No file has the name a journal is rewritten under. -/
theorem Journals.erase_rewriteName {logs : Logs} {disk : Disk} {journal : String → String → List Op}
    {torn : String → String → Bytes} (J : Journals logs disk journal torn) (origin : String) :
    disk.erase (join (shareDir home) (rewriteName origin)) = disk := by
  have hne : rewriteName origin ≠ "" := by
    intro h
    have := congrArg String.toList h
    simp [rewriteName, String.toList_append] at this
  have hpath : join (shareDir home) (rewriteName origin) = [hex (utf8 home), rewriteName origin] := by
    rw [shareDir, join, join, if_neg hne, if_neg (hex_ne_empty (by decide))]
    rfl
  have hmem : join (shareDir home) (rewriteName origin) ∉ disk := by
    rw [hpath]
    intro h
    rcases J.paths _ h with h | ⟨share, o, hs, h⟩
    · exact hex_ne_proofs home (List.cons.inj h).1
    · rw [logPath_eq hs] at h
      exact rewriteName_ne_logName origin o (by simpa using (List.cons.inj h).2)
  refine Std.ExtTreeMap.ext_getElem? fun path => ?_
  rw [Std.ExtTreeMap.getElem?_erase]
  split_ifs with h
  · rw [← Std.LawfulEqOrd.eq_of_compare h, Std.ExtTreeMap.getElem?_eq_none hmem]
  · rfl

/-- A checkpoint placed, and its origin's journal rewritten. -/
theorem Journals.place {logs : Logs} {register : Register} (I : Inv C logs register) {disk : Disk}
    {journal : String → String → List Op} {torn : String → String → Bytes} (J : Journals logs disk journal torn) {op : Op}
    (hop : Journalable op) (hv : verify C op = .ok ()) {folded : ChainId} {floor : Floor}
    (h : classifyHome C logs register op = .placed folded floor) :
    ∃ journal' torn', Journals (place logs register op folded floor).1
      (rewrite (place logs register op folded floor).1 disk op.origin none).2 journal' torn' ∧
      ∀ s o, torn s o = [] → torn' s o = [] := by
  obtain ⟨hg, rfl, -⟩ := classifyHome_eq_placed.mp h
  have I' := I.place hv h
  have hplace := I.place_eq floor hv hg
  set logs' := (Store.place logs register op (homeChain gClaims op.origin) floor).1 with hlogs'
  have hat : ∀ c, logs'.at c = if homeChain gCheckpoints op.origin = c then [op]
      else if homeChain gClaims op.origin = c then (linking C).above floor.1 (logs.at (homeChain gClaims op.origin))
      else logs.at c := by
    intro c
    rw [hlogs', hplace, Logs.at_insert, Logs.at_insert]
  have hheld : ∀ c, ∀ o ∈ logs'.at c, Journalable o := by
    intro c o ho
    rw [hat] at ho
    split_ifs at ho with h1 h2
    · obtain rfl := List.mem_singleton.mp ho
      exact hop
    · exact J.journalable_of_mem (mem_above.mp ho).1
    · exact J.journalable_of_mem ho
  have hmem : ∀ o ∈ journalOps logs' op.origin, Journalable o ∧ o.share = home ∧ o.origin = op.origin := by
    intro o ho
    obtain ⟨c, hs, horigin, log, hlog, hol⟩ := mem_journalOps.mp ho
    have hc := Logs.at_of_mem_toList hlog
    rw [← hc] at hol
    have hkey := I'.keyed c o hol
    rw [← hkey] at hs horigin
    exact ⟨hheld c o hol, hs, horigin⟩
  refine ⟨putAt journal home op.origin (journalOps logs' op.origin), putAt torn home op.origin [], ?_, fun s o hso => ?_⟩
  · rw [rewrite, replaceFile_of_none, J.erase_rewriteName]
    have hne : home ≠ "" := by decide
    have hother : ∀ c : ChainId, ¬ (c.share = home ∧ c.origin = op.origin) → logs'.at c = logs.at c := by
      intro c hc
      rw [hat, if_neg, if_neg]
      · rintro rfl
        exact hc ⟨rfl, rfl⟩
      · rintro rfl
        exact hc ⟨rfl, rfl⟩
    have hw := J.write hne Frames.torn_nil (fun o ho => (hmem o ho).1) (fun o ho => (hmem o ho).2)
      (fun c hs ho => filter_journalOps I' hs ho) hother
    rwa [List.append_nil] at hw
  · rw [putAt]
    split_ifs
    · rfl
    · exact hso

/-! ### An append -/

/-- The checks of an append let `op` through, and `verdict` is where it lands. -/
def Lands (C : Crypto) (s : Store) (op : Op) (verdict : Verdict) : Prop :=
  validateSurfaceContract s.logs op = .ok () ∧ s.checkedOf C op = .ok () ∧ s.verdictOf C op = verdict

/-- An append ends at its checks, with nothing changed, or goes by its verdict. -/
theorem append_cases (s : Store) (disk : Disk) (op : Op) (fault : Option Fault) :
    (append C s disk op fault).2 = (s, disk) ∨
      fault ≠ some .guard ∧ Lands C s op (s.verdictOf C op) ∧
        append C s disk op fault = s.commit disk op fault (s.verdictOf C op) := by
  rw [append]
  split
  · exact .inl rfl
  split
  · exact .inl rfl
  split
  · exact .inl rfl
  split
  · exact .inl rfl
  case h_2 hguard _ _ hv _ hc => exact .inr ⟨hguard, ⟨hv, hc, rfl⟩, rfl⟩

/-- A step that meets none of the defects: what is written fits its journal,
an op goes after whole records, and no I/O call fails under a checkpoint. -/
structure Unharmed (C : Crypto) (s : Store) (disk : Disk) (op : Op) (fault : Option Fault) : Prop where
  appended : Lands C s op .appended → fault ≠ some .guard → fault ≠ some .createDir → fault ≠ some .openFile →
    Journalable op ∧ (Frames.split (disk.bytes (logPath op.share op.origin))).2 = []
  placed : ∀ folded floor, Lands C s op (.placed folded floor) → fault ≠ some .guard → Journalable op ∧ fault = none

theorem Journals.torn_eq {logs : Logs} {disk : Disk} {journal : String → String → List Op}
    {torn : String → String → Bytes} (J : Journals logs disk journal torn) {share : String} (hs : share ≠ "")
    (origin : String) : (Frames.split (disk.bytes (logPath share origin))).2 = torn share origin := by
  have hframes : (journal share origin).flatMap framed = ((journal share origin).map Op.encoding).flatMap Frames.frame := by
    rw [List.flatMap_map]
    rfl
  have hsmall : ∀ r ∈ (journal share origin).map Op.encoding, r.length < 2 ^ 32 := by
    simpa using fun op hop => (J.journalable share origin op hop).2
  rw [J.bytes share origin hs, hframes, Frames.split_flatMap_frame hsmall (J.torn share origin)]

/-- A file is left as it was, or with the first bytes after it, or with all. -/
theorem appendFile_cases (disk : Disk) (path : Path) (bytes : Bytes) (fault : Option Fault) :
    (appendFile disk path bytes fault = (false, disk) ∧ (fault = some .createDir ∨ fault = some .openFile)) ∨
    (∃ n < bytes.length, fault = some (.write n) ∧
      appendFile disk path bytes fault = (false, disk.insert path (disk.bytes path ++ bytes.take n))) ∨
    (appendFile disk path bytes fault = (true, disk.insert path (disk.bytes path ++ bytes)) ∧
      fault ≠ some .createDir ∧ fault ≠ some .openFile) := by
  match fault with
  | some .createDir => exact .inl ⟨rfl, .inl rfl⟩
  | some .openFile => exact .inl ⟨rfl, .inr rfl⟩
  | some (.write n) =>
    by_cases hn : n < bytes.length
    · exact .inr (.inl ⟨n, hn, rfl, by rw [appendFile, if_pos hn]⟩)
    · exact .inr (.inr ⟨by rw [appendFile, if_neg hn], by simp, by simp⟩)
  | some .guard | some .sync | some .rename | some .syncDir | none => exact .inr (.inr ⟨rfl, by simp, by simp⟩)

/-- Recording a proof leaves every file but the proofs'. -/
theorem recordEquivocation_disk (s : Store) (disk : Disk) (proof : EquivProof) (fault : Option Fault) :
    (s.recordEquivocation disk proof fault).2.2 = disk ∨
      ∃ data, (s.recordEquivocation disk proof fault).2.2 = disk.insert proofsPath data := by
  rw [recordEquivocation]
  rcases appendFile_cases disk proofsPath (framed proof.a ++ framed proof.b) fault with
    ⟨h, -⟩ | ⟨n, -, -, h⟩ | ⟨h, -⟩
  · rw [h]
    exact .inl rfl
  · rw [h]
    exact .inr ⟨_, rfl⟩
  · rw [h]
    exact .inr ⟨_, rfl⟩

/-- A conviction changes what recording its proof changes. -/
theorem commit_convicts (s : Store) (disk : Disk) (op stored : Op) (fault : Option Fault) {verdict : Verdict}
    (h : verdict = .equivocation stored ∨ verdict = .rewrite stored) :
    (s.commit disk op fault verdict).2 = (s.recordEquivocation disk { a := stored, b := op } fault).2 := by
  rcases h with rfl | rfl
  all_goals
    rw [commit]
    rcases s.recordEquivocation disk { a := stored, b := op } fault with ⟨_ | _, s', disk'⟩ <;> rfl

/-- Where an append ends, its journals are memory's again. -/
theorem append_journals {s : Store} (I : Inv C s.logs s.register) {disk : Disk} {journal : String → String → List Op}
    {torn : String → String → Bytes} (J : Journals s.logs disk journal torn) {op : Op} {fault : Option Fault}
    (h : Unharmed C s disk op fault) :
    ∃ journal' torn', Journals (append C s disk op fault).2.1.logs (append C s disk op fault).2.2 journal' torn' ∧
      (fault = none → ∀ share origin, torn share origin = [] → torn' share origin = []) := by
  rcases append_cases s disk op fault with heq | ⟨hguard, hlands, heq⟩
  · rw [heq]
    exact ⟨journal, torn, J, fun _ _ _ => id⟩
  rw [heq]
  have hconvicts : ∀ stored verdict, verdict = .equivocation stored ∨ verdict = .rewrite stored →
      Journals (s.commit disk op fault verdict).2.1.logs (s.commit disk op fault verdict).2.2 journal torn := by
    intro stored verdict hv
    rw [commit_convicts s disk op stored fault hv, (recordEquivocation_logs s disk _ fault).1]
    rcases recordEquivocation_disk s disk { a := stored, b := op } fault with hd | ⟨data, hd⟩
    · rw [hd]
      exact J
    · rw [hd]
      exact J.writeProofs data
  cases hverdict : s.verdictOf C op with
  | duplicate => exact ⟨journal, torn, J, fun _ _ _ => id⟩
  | belowRetained => exact ⟨journal, torn, J, fun _ _ _ => id⟩
  | gap expected got => exact ⟨journal, torn, J, fun _ _ _ => id⟩
  | chainBreak => exact ⟨journal, torn, J, fun _ _ _ => id⟩
  | equivocation stored => exact ⟨journal, torn, hconvicts stored _ (.inl rfl), fun _ _ _ => id⟩
  | rewrite stored => exact ⟨journal, torn, hconvicts stored _ (.inr rfl), fun _ _ _ => id⟩
  | appended =>
    rw [hverdict] at hlands
    rw [commit]
    rcases appendFile_cases disk (logPath op.share op.origin) (framed op) fault with
      ⟨hfile, -⟩ | ⟨n, hn, rfl, hfile⟩ | ⟨hfile, hdir, hopen⟩
    · rw [hfile]
      exact ⟨journal, torn, J, fun _ _ _ => id⟩
    · obtain ⟨hop, hwhole⟩ := h.appended hlands hguard (by simp) (by simp)
      rw [J.torn_eq hop.1] at hwhole
      rw [hfile]
      exact ⟨_, _, J.tear hop hwhole hn, by simp⟩
    · obtain ⟨hop, hwhole⟩ := h.appended hlands hguard hdir hopen
      rw [J.torn_eq hop.1] at hwhole
      rw [hfile]
      refine ⟨_, _, J.push hop hwhole, fun _ share origin ht => ?_⟩
      rw [putAt]
      split_ifs
      · rfl
      · exact ht
  | placed folded floor =>
    rw [hverdict] at hlands
    obtain ⟨hop, rfl⟩ := h.placed folded floor hlands hguard
    obtain ⟨-, hc, -⟩ := hlands
    have hs : op.share = home := by
      by_contra hs
      rw [verdictOf, if_neg hs] at hverdict
      exact classify_ne_placed hverdict
    have hv := verify_of_checkedOf hs (by rw [hverdict]; rfl) hc
    rw [verdictOf, if_pos hs] at hverdict
    obtain ⟨journal', torn', J', htorn⟩ := J.place I hop hv hverdict
    exact ⟨journal', torn', J', fun _ => htorn⟩

/-! ### Whole runs -/

/-- The held op a verdict convicts its origin with. -/
def Verdict.stored : Verdict → Option Op
  | .equivocation stored | .rewrite stored => some stored
  | _ => none

theorem stored_follows (tip : Floor) (op : Op) : (follows tip op).stored = none := by
  unfold follows
  split
  · rfl
  split
  · split <;> rfl
  · rfl

theorem mem_of_stored_classify {log : List Op} {op stored : Op} (h : (classify C log op).stored = some stored) :
    stored ∈ log := by
  unfold classify at h
  split at h
  · cases h
  split at h
  · split at h
    case h_1 held hheld =>
      split at h
      · cases h
      · obtain rfl := Option.some.inj h
        exact List.mem_of_find?_eq_some hheld
    · cases h
  · rw [stored_follows] at h
    cases h

theorem mem_of_stored_atBase {logs : Logs} {folded : ChainId} {floor : Floor} {stored : Op}
    (h : (atBase C logs folded floor).stored = some stored) : stored ∈ logs.at folded := by
  unfold atBase at h
  split at h
  case h_1 held hheld =>
    split at h
    · obtain rfl := Option.some.inj h
      exact List.mem_of_find?_eq_some hheld
    · cases h
  · cases h

/-- A registered checkpoint is held. -/
theorem Inv.mem_of_registered {logs : Logs} {register : Register} (I : Inv C logs register) {c : ChainId} {op : Op}
    {floor : Floor} (h : register[c]? = some (op, floor)) : op ∈ logs.at (homeChain gCheckpoints op.origin) := by
  obtain ⟨rfl, -⟩ := I.registered c op floor h
  rw [I.checkpoints, h]
  simp

/-- What a conviction keeps of the chain is a held op. -/
theorem mem_of_stored {s : Store} (I : Inv C s.logs s.register) {op stored : Op}
    (h : (s.verdictOf C op).stored = some stored) : ∃ c, stored ∈ s.logs.at c := by
  unfold verdictOf at h
  split at h
  case isFalse => exact ⟨_, mem_of_stored_classify h⟩
  unfold classifyHome at h
  split at h
  · unfold classifyCheckpoint at h
    split at h
    · cases h
    dsimp only at h
    split at h
    · exact ⟨_, mem_of_stored_atBase h⟩
    case h_2 held heldFloor hr =>
      split at h
      · exact ⟨_, mem_of_stored_atBase h⟩
      · cases h
      · cases h
      · obtain rfl := Option.some.inj h
        exact ⟨_, I.mem_of_registered hr⟩
      · cases h
      · obtain rfl := Option.some.inj h
        exact ⟨_, I.mem_of_registered hr⟩
  · dsimp only at h
    split at h
    · split at h
      · cases h
      · exact ⟨_, mem_of_stored_classify h⟩
    case h_2 checkpoint floor hr =>
      split at h
      · cases h
      · obtain rfl := Option.some.inj h
        exact ⟨_, I.mem_of_registered hr⟩
      · split at h
        · rw [stored_follows] at h
          cases h
        · exact ⟨_, mem_of_stored_classify h⟩

/-- An op the store keeps, or convicts its origin with, is one a journal holds. -/
def Writable (C : Crypto) (s : Store) (op : Op) : Prop :=
  ∀ verdict, Lands C s op verdict → verdict.needsCheck = true → Journalable op

/-- The proofs are the ones their file lists. -/
structure Proved (proofs : List EquivProof) (disk : Disk) : Prop where
  bytes : disk.bytes proofsPath = (proofOps proofs).flatMap framed
  small : ∀ op ∈ proofOps proofs, op.encoding.length < 2 ^ 32

/-- An append none of whose I/O calls fails writes its proof, if it has one. -/
theorem append_proved {s : Store} (I : Inv C s.logs s.register) {disk : Disk} {journal : String → String → List Op}
    {torn : String → String → Bytes} (J : Journals s.logs disk journal torn) (P : Proved s.proofs disk) {op : Op}
    (h : Writable C s op) : Proved (append C s disk op none).2.1.proofs (append C s disk op none).2.2 := by
  rcases append_cases s disk op none with heq | ⟨-, hlands, heq⟩
  · rw [heq]
    exact P
  rw [heq]
  have hconvicts : ∀ stored verdict, s.verdictOf C op = verdict → verdict.stored = some stored →
      verdict.needsCheck = true → verdict = .equivocation stored ∨ verdict = .rewrite stored →
      Proved (s.commit disk op none verdict).2.1.proofs (s.commit disk op none verdict).2.2 := by
    intro stored verdict hverdict hstored hcheck hv
    obtain ⟨c, hc⟩ := mem_of_stored I (hverdict ▸ hstored)
    have hop : Journalable op := h verdict (hverdict ▸ hlands) hcheck
    rw [commit_convicts s disk op stored none hv, recordEquivocation, appendFile_of_none]
    refine ⟨?_, ?_⟩
    · simp [Disk.bytes_insert, P.bytes, proofOps]
    · intro o ho
      rw [proofOps, List.flatMap_append, List.mem_append] at ho
      rcases ho with ho | ho
      · exact P.small o ho
      · simp only [List.flatMap_cons, List.flatMap_nil, List.append_nil, List.mem_cons, List.not_mem_nil, or_false] at ho
        rcases ho with rfl | rfl
        · exact (J.journalable_of_mem hc).2
        · exact hop.2
  cases hverdict : s.verdictOf C op with
  | duplicate => exact P
  | belowRetained => exact P
  | gap expected got => exact P
  | chainBreak => exact P
  | equivocation stored => exact hconvicts stored _ hverdict rfl rfl (.inl rfl)
  | rewrite stored => exact hconvicts stored _ hverdict rfl rfl (.inr rfl)
  | appended =>
    have hop : Journalable op := h .appended (hverdict ▸ hlands) rfl
    rw [commit, appendFile_of_none]
    refine ⟨?_, P.small⟩
    rw [← P.bytes]
    exact (Disk.bytes_insert _ _ _ _).trans (if_neg (logPath_ne_proofsPath hop.1 _))
  | placed folded floor =>
    have hne : home ≠ "" := by decide
    rw [commit]
    simp only [rewrite, replaceFile_of_none, J.erase_rewriteName]
    refine ⟨?_, P.small⟩
    rw [← P.bytes]
    exact (Disk.bytes_insert _ _ _ _).trans (if_neg (logPath_ne_proofsPath hne _))

theorem append_aside (s : Store) (disk : Disk) (op : Op) (fault : Option Fault) :
    (append C s disk op fault).2.1.aside = s.aside := by
  rcases append_cases s disk op fault with heq | ⟨-, -, heq⟩
  · rw [heq]
  rw [heq]
  have hrecord : ∀ proof, (s.recordEquivocation disk proof fault).2.1.aside = s.aside := by
    intro proof
    rw [recordEquivocation]
    rcases appendFile disk proofsPath (framed proof.a ++ framed proof.b) fault with ⟨_ | _, disk'⟩ <;> rfl
  cases s.verdictOf C op with
  | duplicate => rfl
  | belowRetained => rfl
  | gap expected got => rfl
  | chainBreak => rfl
  | equivocation stored =>
    rw [commit_convicts s disk op stored fault (.inl rfl)]
    exact hrecord _
  | rewrite stored =>
    rw [commit_convicts s disk op stored fault (.inr rfl)]
    exact hrecord _
  | appended =>
    rw [commit]
    rcases appendFile disk (logPath op.share op.origin) (framed op) fault with ⟨_ | _, disk'⟩ <;> rfl
  | placed folded floor =>
    rw [commit]
    dsimp only
    rcases Store.rewrite (Store.place s.logs s.register op folded floor).1 disk op.origin fault with ⟨_ | _, disk'⟩ <;> rfl

/-- Without a torn tail and without a failing call, a step of writable ops meets
no defect. -/
theorem Writable.unharmed {s : Store} {disk : Disk} {journal : String → String → List Op}
    (J : Journals s.logs disk journal fun _ _ => []) {op : Op} (h : Writable C s op) : Unharmed C s disk op none where
  appended hlands _ _ _ := by
    have hop := h _ hlands rfl
    exact ⟨hop, J.torn_eq hop.1 op.origin⟩
  placed folded floor hlands _ := ⟨h _ hlands rfl, rfl⟩

/-- The disk of a store fed writable ops. -/
theorem fed_journals {ops : List Op} (h : ∀ before op after, ops = before ++ op :: after → Writable C (fed C before).1 op) :
    Inv C (fed C ops).1.logs (fed C ops).1.register ∧
      (∃ journal, Journals (fed C ops).1.logs (fed C ops).2 journal fun _ _ => []) ∧
      Proved (fed C ops).1.proofs (fed C ops).2 ∧ (fed C ops).1.aside = none := by
  induction ops using List.reverseRecOn with
  | nil =>
    refine ⟨inv_empty, ⟨_, journals_empty⟩, ⟨?_, ?_⟩, rfl⟩
    · rfl
    · simp [fed, appends, empty, proofOps]
  | append_singleton ops op ih =>
    obtain ⟨I, ⟨journal, J⟩, P, haside⟩ := ih fun before o after ho => h before o (after ++ [op]) (by simp [ho])
    have hop := h ops op [] rfl
    obtain ⟨journal', torn', J', htorn⟩ := append_journals I J (hop.unharmed J)
    obtain rfl : torn' = fun _ _ => [] := by
      funext share origin
      exact htorn rfl share origin rfl
    rw [fed_concat]
    exact ⟨(append_change _ _ op none).inv I, ⟨journal', J'⟩, append_proved I J P hop, (append_aside _ _ op none).trans haside⟩

/-- A store fed ops it can journal is, opened again, the store it was. -/
theorem openStore_fed (C : Crypto) (readDir : ReadDir) (date : String) (ops : List Op)
    (h : ∀ before op after, ops = before ++ op :: after → Writable C (fed C before).1 op) :
    ∃ disk, openStore C readDir date (fed C ops).2 = .ok ((fed C ops).1, disk) := by
  obtain ⟨I, ⟨journal, J⟩, P, haside⟩ := fed_journals h
  obtain ⟨disk, -, -, hbytes, hopen⟩ := openStore_of_journals I J readDir date
  have hproofs : readProofs disk = ((fed C ops).1.proofs, disk) :=
    readProofs_of_bytes (hbytes.trans P.bytes) P.small
  refine ⟨disk, ?_⟩
  rw [hopen, hproofs]
  dsimp only
  rw [← haside]

/-- A note of an app share. -/
def namedNote : Op := ⟨⟨"s", "notes", [], "alice", 0, none, 0, [], .value, []⟩, by decide⟩

/-- The same note of the share without a name. -/
def namelessNote : Op := ⟨⟨"", "notes", [], "alice", 0, none, 0, [], .value, []⟩, by decide⟩

/-- The first op of an app share is appended. -/
theorem append_first (op : Op) (hs : op.share ≠ home) (hshape : op.shape ≠ .swmr) (disk : Disk)
    (hm : sealedMarker ∉ disk) (fault : Option Fault) (hg : fault ≠ some .guard) :
    append C empty disk op fault = empty.commit disk op fault .appended := by
  have hcontract : validateSurfaceContract empty.logs op = .ok () := by
    have hnil : empty.logs.toList = [] := rfl
    rw [validateSurfaceContract, if_neg hshape, hnil]
    rfl
  rw [append, if_neg hg, if_neg hm, hcontract, checkedOf, if_neg hs, verdictOf, if_neg hs]
  rfl

theorem openStore_namedNote : Journalable namedNote ∧ ∀ (C : Crypto) (readDir : ReadDir) (date : String),
    ∃ disk, openStore C readDir date (fed C [namedNote]).2 = .ok ((fed C [namedNote]).1, disk) := by
  have hop : Journalable namedNote := by decide
  refine ⟨hop, fun C readDir date => openStore_fed C readDir date [namedNote] ?_⟩
  intro before op after h verdict _ _
  have hmem : op ∈ [namedNote] := by
    rw [h]
    simp
  rw [List.mem_singleton.mp hmem]
  exact hop

/-- The journal of a share without a name stands among the store's own files,
where no journal is looked for. -/
theorem openStore_namelessNote : ¬ ∃ C : Crypto, ∀ (readDir : ReadDir) (date : String) (ops : List Op),
    ∃ disk, openStore C readDir date (fed C ops).2 = .ok ((fed C ops).1, disk) := by
  rintro ⟨C, h⟩
  let listed : ReadDir := ⟨fun _ names => names, fun _ _ => .refl _⟩
  obtain ⟨disk, hopen⟩ := h listed "" [namelessNote]
  have hfed : fed C [namelessNote] =
      ({ empty with logs := push ∅ namelessNote }, (∅ : Disk).insert ["616c696365.log"] (framed namelessNote)) := by
    have hpath : logPath namelessNote.share namelessNote.origin = ["616c696365.log"] := by decide
    have happend := append_first (C := C) namelessNote (by decide) (by decide) ∅ (by simp) none (by simp)
    rw [fed, appends, List.map_singleton, List.foldl_cons, List.foldl_nil, happend, commit, appendFile_of_none, hpath]
    rfl
  have hdirs : dirNames (fed C [namelessNote]).2 = [] := by
    rw [List.eq_nil_iff_forall_not_mem]
    intro dir hdir
    obtain ⟨name, rest, hmem⟩ := mem_dirNames.mp hdir
    rw [hfed] at hmem
    simp at hmem
  have hmarker : sealedMarker ∉ (fed C [namelessNote]).2 := by
    rw [hfed]
    simp [sealedMarker]
  rw [openStore, if_neg hmarker, hdirs] at hopen
  have hlogs : (fed C [namelessNote]).1.logs = ∅ := by
    have hstore := congrArg (fun r => r.toOption.map (fun p => p.1.logs)) hopen
    exact (Option.some.inj hstore).symm
  rw [hfed] at hlogs
  change push ∅ namelessNote = ∅ at hlogs
  have hat := at_push ∅ namelessNote (chainOf namelessNote)
  rw [hlogs] at hat
  simp [Logs.at] at hat

end Glade.Store
