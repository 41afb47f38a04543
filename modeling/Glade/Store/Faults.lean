import Glade.Store.Restart

/-! Appends whose I/O calls fail. A plain append writes its journal before memory,
so a call that fails there leaves memory as it was and at most a torn tail on
disk, which the next open cuts. Two steps do harm: a checkpoint is in memory
before its journal is rewritten, and an op written after a torn tail is lost
with it. A run that takes neither keeps its journals. -/

namespace Glade.Store

open Wire Node LinkedLog

variable {C : Crypto}

/-- What appends, whatever call fails under them, and restarts lead to, as long
as no step does harm. -/
inductive Reaches (C : Crypto) : Store → Disk → Prop where
  | empty : Reaches C empty ∅
  | append {s : Store} {disk : Disk} (op : Op) (fault : Option Fault) : Reaches C s disk → Unharmed C s disk op fault →
      Reaches C (append C s disk op fault).2.1 (append C s disk op fault).2.2
  | restart {s s' : Store} {disk disk' : Disk} (readDir : ReadDir) (date : String) : Reaches C s disk →
      openStore C readDir date disk = .ok (s', disk') → Reaches C s' disk'

theorem Reaches.journals {s : Store} {disk : Disk} (h : Reaches C s disk) :
    Inv C s.logs s.register ∧ ∃ journal torn, Journals s.logs disk journal torn := by
  induction h with
  | empty => exact ⟨inv_empty, _, _, journals_empty⟩
  | append op fault _ hstep ih =>
    obtain ⟨I, journal, torn, J⟩ := ih
    obtain ⟨journal', torn', J', -⟩ := append_journals I J hstep
    exact ⟨(append_change _ _ op fault).inv I, journal', torn', J'⟩
  | restart readDir date _ hopen ih =>
    obtain ⟨I, journal, torn, J⟩ := ih
    obtain ⟨disk₁, torn', J', -, heq⟩ := openStore_of_journals I J readDir date
    rw [hopen] at heq
    obtain ⟨rfl, rfl⟩ := Prod.mk.inj (Except.ok.inj heq)
    exact ⟨I, journal, torn', readProofs_journals J'⟩

/-- A store fed ops that their journals hold is reached. -/
theorem reaches_fed {ops : List Op} (h : ∀ op ∈ ops, Journalable op) : Reaches C (fed C ops).1 (fed C ops).2 := by
  induction ops using List.reverseRecOn with
  | nil => exact .empty
  | append_singleton ops op ih =>
    have hops : ∀ before o after, ops = before ++ o :: after → Writable C (fed C before).1 o := by
      rintro before o after rfl _ _ _
      exact h o (by simp)
    have hop : Writable C (fed C ops).1 op := fun _ _ _ => h op (by simp)
    obtain ⟨-, ⟨journal, J⟩, -, -⟩ := fed_journals hops
    rw [fed_concat]
    exact .append op none (ih fun o ho => h o (List.mem_append_left _ ho)) (hop.unharmed J)

/-- An append adds its own op and no other. -/
theorem Change.mem {s : Store} (I : Inv C s.logs s.register) {op held : Op} {logs : Logs} {register : Register}
    (h : Change C s op logs register) {c : ChainId} (hheld : held ∈ logs.at c) : held = op ∨ held ∈ s.logs.at c := by
  cases h with
  | none => exact .inr hheld
  | push =>
    rw [Store.push, Logs.at_insert] at hheld
    split_ifs at hheld with hc
    · exact (List.mem_append.mp hheld).elim (fun h => .inr (hc ▸ h)) fun h => .inl (List.mem_singleton.mp h)
    · exact .inr hheld
  | place folded floor hv hc =>
    by_cases hs : op.share = home
    case neg =>
      rw [verdictOf, if_neg hs] at hv
      exact absurd hv classify_ne_placed
    have hver := verify_of_checkedOf hs (by rw [hv]; rfl) hc
    rw [verdictOf, if_pos hs] at hv
    obtain ⟨hg, rfl, -⟩ := classifyHome_eq_placed.mp hv
    rw [I.place_eq floor hver hg, Logs.at_insert, Logs.at_insert] at hheld
    split_ifs at hheld with hown hfolded
    · exact .inl (List.mem_singleton.mp hheld)
    · exact .inr (hfolded ▸ (List.mem_filter.mp hheld).1)
    · exact .inr hheld

theorem mem_fed {ops : List Op} {c : ChainId} {op : Op} (h : op ∈ (fed C ops).1.logs.at c) : op ∈ ops := by
  induction ops using List.reverseRecOn with
  | nil =>
    rw [fed, appends, List.map_nil, List.foldl_nil, empty, Logs.at, Std.ExtTreeMap.getD_empty] at h
    cases h
  | append_singleton ops last ih =>
    rw [fed_concat] at h
    have hI : Inv C (fed C ops).1.logs (fed C ops).1.register := appends_inv _ _ inv_empty
    rcases (append_change _ _ last none).mem hI h with rfl | hmem
    · exact List.mem_append_right _ (List.mem_singleton_self _)
    · exact List.mem_append_left _ (ih hmem)

/-- A harmless append that an I/O call fails leaves memory as it was. -/
theorem append_failed {s : Store} {disk : Disk} {op : Op} {fault : Option Fault} (h : Unharmed C s disk op fault)
    {e : IoError} (he : (append C s disk op fault).1 = .error (.io e)) :
    (append C s disk op fault).2.1.logs = s.logs ∧ (append C s disk op fault).2.1.register = s.register := by
  rcases append_cases s disk op fault with heq | ⟨hguard, hlands, heq⟩
  · rw [heq]
    exact ⟨rfl, rfl⟩
  rw [heq] at he ⊢
  cases hverdict : s.verdictOf C op with
  | duplicate => exact ⟨rfl, rfl⟩
  | belowRetained => exact ⟨rfl, rfl⟩
  | gap expected got => exact ⟨rfl, rfl⟩
  | chainBreak => exact ⟨rfl, rfl⟩
  | equivocation stored =>
    rw [commit_convicts s disk op stored fault (.inl rfl)]
    exact recordEquivocation_logs s disk _ fault
  | rewrite stored =>
    rw [commit_convicts s disk op stored fault (.inr rfl)]
    exact recordEquivocation_logs s disk _ fault
  | appended =>
    rw [hverdict, commit] at he
    rw [commit]
    rcases hfile : appendFile disk (logPath op.share op.origin) (framed op) fault with ⟨_ | _, disk'⟩
    · exact ⟨rfl, rfl⟩
    · rw [hfile] at he
      cases he
  | placed folded floor =>
    rw [hverdict] at hlands
    obtain ⟨-, rfl⟩ := h.placed folded floor hlands hguard
    rw [hverdict] at he
    cases he

/-- Whatever call fails under a harmless append, memory is as it was, and however
the run goes on a store opened on the disk holds what the live one holds. -/
theorem failed_appends_change_nothing (C : Crypto) (s : Store) (disk : Disk) (h : Reaches C s disk) :
    (∀ op fault e, Unharmed C s disk op fault → (append C s disk op fault).1 = .error (.io e) →
      (append C s disk op fault).2.1.logs = s.logs ∧ (append C s disk op fault).2.1.register = s.register) ∧
    ∀ readDir date, ∃ s' disk', openStore C readDir date disk = .ok (s', disk') ∧ s'.logs = s.logs ∧
      s'.register = s.register ∧ s'.aside = none := by
  refine ⟨fun op fault e hstep he => append_failed hstep he, fun readDir date => ?_⟩
  obtain ⟨I, journal, torn, J⟩ := h.journals
  obtain ⟨disk', torn', -, -, hopen⟩ := openStore_of_journals I J readDir date
  exact ⟨_, _, hopen, rfl, rfl, rfl⟩

/-- A write that stops after one byte of the store's first op. -/
theorem torn_namedNote : Journalable namedNote ∧ ∀ (C : Crypto) (readDir : ReadDir) (date : String),
    (append C empty ∅ namedNote (some (.write 1))).1 = .error (.io .failed) ∧
    ∃ s' disk', openStore C readDir date (append C empty ∅ namedNote (some (.write 1))).2.2 = .ok (s', disk') ∧
      s'.logs = (append C empty ∅ namedNote (some (.write 1))).2.1.logs := by
  refine ⟨by decide, fun C readDir date => ?_⟩
  have hfail : (append C empty ∅ namedNote (some (.write 1))).1 = .error (.io .failed) := by
    have hlen : 1 < (framed namedNote).length := by decide
    rw [append_first namedNote (by decide) (by decide) ∅ (by simp) _ (by simp), commit, appendFile, if_pos hlen]
  have hstep : Unharmed C empty ∅ namedNote (some (.write 1)) :=
    { appended := fun _ _ _ _ => ⟨by decide, rfl⟩
      placed := by
        rintro folded floor ⟨-, -, hverdict⟩
        cases hverdict }
  obtain ⟨s', disk', hopen, hlogs, -⟩ := (failed_appends_change_nothing C _ _ (.append _ _ .empty hstep)).2 readDir date
  exact ⟨hfail, s', disk', hopen, hlogs⟩

/-- A record's first byte and then the record read as the start of a longer one. -/
theorem torn_take_append : Frames.Torn ((framed namedNote).take 1 ++ framed namedNote) := by
  set tail := (framed namedNote).take 1 ++ framed namedNote with htail
  have hlen : tail.length = 37 := by decide
  have hhead : tail.take 4 = Words.leBytes 4 8224 := by decide
  have hrecord : (tail.drop 4 ++ List.replicate 8191 0).length = 8224 := by
    rw [List.length_append, List.length_drop, List.length_replicate, hlen]
  refine ⟨tail.drop 4 ++ List.replicate 8191 0, by rw [hrecord]; norm_num, ?_, ?_⟩
  · rw [Frames.frame, hrecord, ← hhead, ← List.append_assoc, List.take_append_drop]
    exact List.prefix_append _ _
  · rw [Frames.length_frame, hrecord, hlen]
    norm_num

/-- A journal of nothing but a torn tail is one of an empty store. -/
theorem Journals.write_torn {disk : Disk} {torn : String → String → Bytes} (J : Journals ∅ disk (fun _ _ => []) torn)
    {share : String} (hs : share ≠ "") (origin : String) {tail : Bytes} (ht : Frames.Torn tail) :
    Journals ∅ (disk.insert (logPath share origin) tail) (fun _ _ => []) (putAt torn share origin tail) := by
  have howned : ∀ op ∈ ([] : List Op), op.share = share ∧ op.origin = origin := by simp
  have hw := J.write hs ht (by simp) howned (fun _ _ _ => rfl) fun _ _ => rfl
  have hput : putAt (fun _ _ => ([] : List Op)) share origin [] = fun _ _ => [] := putAt_eq_self _ share origin
  rwa [hput] at hw

/-- The op appended after a torn byte is lost when the store opens. -/
theorem torn_namedNote_lost : ¬ ∃ C : Crypto, ∀ (readDir : ReadDir) (date : String) (op : Op) (fault : Fault)
    (later : List Op), (append C empty ∅ op (some fault)).1 = .error (.io .failed) →
    let failed := (append C empty ∅ op (some fault)).2
    let live := appends C failed.1 failed.2 (later.map fun op => (op, none))
    ∃ s' disk', openStore C readDir date live.2 = .ok (s', disk') ∧ s'.logs = live.1.logs := by
  rintro ⟨C, h⟩
  let listed : ReadDir := ⟨fun _ names => names, fun _ _ => .refl _⟩
  have hlen : 1 < (framed namedNote).length := by decide
  have hs : namedNote.share ≠ "" := by decide
  set path := logPath namedNote.share namedNote.origin with hpath
  set torn : Disk := (∅ : Disk).insert path ((framed namedNote).take 1) with htorn
  have hfirst : append C empty ∅ namedNote (some (.write 1)) = (.error (.io .failed), empty, torn) := by
    rw [append_first namedNote (by decide) (by decide) ∅ (by simp) _ (by simp), commit, appendFile, if_pos hlen]
    rfl
  have hmarker : sealedMarker ∉ torn := by
    simp [htorn, hpath, logPath_ne_sealedMarker]
  have hrun : appends C empty torn [(namedNote, none)] =
      ({ empty with logs := push ∅ namedNote }, torn.insert path ((framed namedNote).take 1 ++ framed namedNote)) := by
    have hsecond := append_first (C := C) namedNote (by decide) (by decide) torn hmarker none (by simp)
    have hbytes : torn.bytes path = (framed namedNote).take 1 := by
      rw [htorn, Disk.bytes_insert, if_pos rfl]
    rw [commit, appendFile_of_none, ← hpath, hbytes] at hsecond
    exact congrArg Prod.snd hsecond
  obtain ⟨s', disk', hopen, hlogs⟩ := h listed "" namedNote (.write 1) [namedNote] (by rw [hfirst])
  simp only [hfirst, List.map_singleton] at hopen hlogs
  rw [hrun] at hopen hlogs
  -- With the second record behind the torn byte, the journal is a torn tail and no op.
  have J := (journals_empty.write_torn hs namedNote.origin (Frames.torn_take (by decide) hlen)).write_torn hs
    namedNote.origin torn_take_append
  obtain ⟨disk₁, torn', -, -, heq⟩ := openStore_of_journals (C := C) inv_empty J listed ""
  obtain ⟨rfl, -⟩ := Prod.mk.inj (Except.ok.inj (hopen.symm.trans heq))
  change ∅ = push ∅ namedNote at hlogs
  have hat := at_push ∅ namedNote (chainOf namedNote)
  rw [← hlogs] at hat
  simp [Logs.at] at hat

end Glade.Store
