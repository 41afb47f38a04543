import Glade.Store.Journals

/-! Opening the journals of a store. Whatever order the directories are listed
in, each journal adds its own chains and no others, so the store opened is the
one whose journals they are. -/

namespace Glade.Store

open Wire Node LinkedLog

variable {C : Crypto}

/-- What `open` has read once it has taken in the journals `done`. -/
structure Reading (logs : Logs) (register : Register) (disk : Disk) (journal : String → String → List Op)
    (done : Set (String × String)) (st : Opening) : Prop where
  journals : ∃ torn, Journals logs st.disk journal torn
  files : ∀ path, path ∈ st.disk ↔ path ∈ disk
  proofBytes : st.disk.bytes proofsPath = disk.bytes proofsPath
  uncovered : st.covered = []
  noneAside : st.aside.journals = 0
  read : ∀ c : ChainId, (c.share, c.origin) ∈ done → st.logs[c]? = logs[c]? ∧ st.register[c]? = register[c]?
  unread : ∀ c : ChainId, (c.share, c.origin) ∉ done → st.logs[c]? = none ∧ st.register[c]? = none

section

variable {logs : Logs} {register : Register} (I : Inv C logs register) {disk : Disk}
  {journal : String → String → List Op}

/-- A chain's entry is its log, where it has one. -/
theorem Logs.getElem?_eq (logs : Logs) (c : ChainId) : logs[c]? = if c ∈ logs then some (logs.at c) else none := by
  split_ifs with h
  · rw [Logs.at, Std.ExtTreeMap.getD_eq_getD_getElem?]
    obtain ⟨log, hlog⟩ := Option.isSome_iff_exists.mp (Std.ExtTreeMap.mem_iff_isSome_getElem?.mp h)
    rw [hlog]
    rfl
  · exact Std.ExtTreeMap.getElem?_eq_none h

theorem Logs.at_eq_nil {logs : Logs} {c : ChainId} (h : logs[c]? = none) : logs.at c = [] := by
  rw [Logs.at, Std.ExtTreeMap.getD_eq_getD_getElem?, h]
  rfl

theorem mem_foldl_push (logs : Logs) (ops : List Op) (c : ChainId) :
    c ∈ ops.foldl push logs ↔ c ∈ logs ∨ ops.filter (fun op => chainOf op = c) ≠ [] := by
  induction ops generalizing logs with
  | nil => simp
  | cons op ops ih =>
    rw [List.foldl_cons, ih, push, Std.ExtTreeMap.mem_insert]
    by_cases h : chainOf op = c <;> simp [h]

/-- Ops of other chains leave a chain as it was. -/
theorem getElem?_foldl_push {logs : Logs} {ops : List Op} {c : ChainId} (h : ∀ op ∈ ops, chainOf op ≠ c) :
    (ops.foldl push logs)[c]? = logs[c]? := by
  have hnil : ops.filter (fun op => chainOf op = c) = [] := by
    rw [List.filter_eq_nil_iff]
    intro op hop
    simpa using h op hop
  have hat := at_foldl_push logs ops c
  have hmem := mem_foldl_push logs ops c
  rw [hnil, List.append_nil] at hat
  rw [Logs.getElem?_eq, Logs.getElem?_eq, hat]
  simp [hmem, hnil]

omit I in
/-- A journal that adds its own chains and no others has been taken in. -/
theorem Reading.insert {done : Set (String × String)} {st : Opening} (R : Reading logs register disk journal done st)
    {share origin : String} {disk' : Disk} (hdisk : ∃ torn, Journals logs disk' journal torn)
    (hfiles : ∀ path, path ∈ disk' ↔ path ∈ st.disk) (hproofs : disk'.bytes proofsPath = st.disk.bytes proofsPath)
    {logs' : Logs} {register' : Register}
    (hown : ∀ c : ChainId, c.share = share → c.origin = origin →
      logs'[c]? = logs[c]? ∧ register'[c]? = register[c]?)
    (hother : ∀ c : ChainId, ¬ (c.share = share ∧ c.origin = origin) →
      logs'[c]? = st.logs[c]? ∧ register'[c]? = st.register[c]?) :
    Reading logs register disk journal (insert (share, origin) done)
      { st with disk := disk', logs := logs', register := register' } where
  journals := hdisk
  files path := (hfiles path).trans (R.files path)
  proofBytes := hproofs.trans R.proofBytes
  uncovered := R.uncovered
  noneAside := R.noneAside
  read c hc := by
    by_cases h : c.share = share ∧ c.origin = origin
    · exact hown c h.1 h.2
    · have hdone : (c.share, c.origin) ∈ done := (Set.mem_insert_iff.mp hc).resolve_left fun he => h (Prod.mk.inj he)
      obtain ⟨h1, h2⟩ := hother c h
      obtain ⟨h3, h4⟩ := R.read c hdone
      exact ⟨h1.trans h3, h2.trans h4⟩
  unread c hc := by
    rw [Set.mem_insert_iff, not_or] at hc
    obtain ⟨h1, h2⟩ := hother c fun h => hc.1 (by rw [h.1, h.2])
    obtain ⟨h3, h4⟩ := R.unread c hc.2
    exact ⟨h1.trans h3, h2.trans h4⟩

include I

/-- An app share's journal adds its own chains. -/
theorem openJournal_app {share : String} (hs : share ≠ "") (hh : share ≠ home) (origin : String)
    {done : Set (String × String)} {st : Opening} (R : Reading logs register disk journal done st)
    (hnew : (share, origin) ∉ done) :
    ∃ st', openJournal C (hex (utf8 share)) st (logName origin) = .ok st' ∧
      Reading logs register disk journal (insert (share, origin) done) st' := by
  have hdir : hex (utf8 share) ≠ hex (utf8 home) := fun h => hh (hexName_injective h)
  obtain ⟨torn, J⟩ := R.journals
  obtain ⟨disk', torn', hread, J', hfiles, hproofs⟩ := J.readLog_eq hs origin
  refine ⟨{ st with disk := disk', logs := (journal share origin).foldl push st.logs }, ?_,
    R.insert ⟨torn', J'⟩ hfiles hproofs (fun c hc ho => ?_) fun c hc => ⟨getElem?_foldl_push fun op hop h => hc ?_, rfl⟩⟩
  · simp only [openJournal, isLog_logName, not_true_eq_false, if_false, hread, if_pos hdir]
  · subst hc ho
    obtain ⟨hl, hr⟩ := R.unread c hnew
    have hnone : register[c]? = none := by
      cases hreg : register[c]? with
      | none => rfl
      | some e =>
        obtain ⟨hkey, -⟩ := I.registered c e.1 e.2 hreg
        exact absurd (congrArg ChainId.share hkey) hh
    refine ⟨?_, hr.trans hnone.symm⟩
    have hat := at_foldl_push st.logs (journal c.share c.origin) c
    rw [J.chains c, Logs.at_eq_nil hl, List.nil_append] at hat
    have hmem : c ∈ (journal c.share c.origin).foldl push st.logs ↔ c ∈ logs := by
      rw [mem_foldl_push, J.chains c, I.present c, Std.ExtTreeMap.mem_iff_isSome_getElem?, hl,
        Std.ExtTreeMap.mem_iff_isSome_getElem?, hnone]
      simp
    rw [Logs.getElem?_eq, Logs.getElem?_eq, hat]
    simp only [hmem]
  · obtain ⟨h1, h2⟩ := J.owned share origin op hop
    exact ⟨h ▸ h1, h ▸ h2⟩

/-- A home journal replays to its origin's chains and adds them. -/
theorem openJournal_home (origin : String) {done : Set (String × String)} {st : Opening}
    (R : Reading logs register disk journal done st) (hnew : (home, origin) ∉ done) :
    ∃ st', openJournal C (hex (utf8 home)) st (logName origin) = .ok st' ∧
      Reading logs register disk journal (insert (home, origin) done) st' := by
  obtain ⟨torn, J⟩ := R.journals
  have hlists := J.lists origin
  have hne : home ≠ "" := by decide
  obtain ⟨disk', torn', hread, J', hfiles, hproofs⟩ := J.readLog_eq hne origin
  obtain ⟨held, floors, hreplay, I', hat, hfloors⟩ := replayed_of_lists I hlists
  have hknown : (journal home origin).find? (fun op => format op = .unknown) = none := by
    rw [List.find?_eq_none]
    intro op hop
    rw [format_of_verify (hlists.verified I hop)]
    decide
  refine ⟨{ st with disk := disk', logs := st.logs ∪ held, register := st.register ∪ floors }, ?_,
    R.insert ⟨torn', J'⟩ hfiles hproofs (fun c hc ho => ?_) fun c hc => ?_⟩
  · simp only [openJournal, isLog_logName, not_true_eq_false, if_false, hread, ne_eq, hknown, hreplay]
    simp
  · have hatc : held.at c = logs.at c := by rw [hat, ownLogs, if_pos ⟨hc, ho⟩]
    have hreg : floors[c]? = register[c]? := by rw [hfloors, ownRegister_eq I ho]
    obtain ⟨hl, hr⟩ := R.unread c (by rw [hc, ho]; exact hnew)
    rw [Std.ExtTreeMap.getElem?_union, Std.ExtTreeMap.getElem?_union, hl, hr, Option.or_none, Option.or_none]
    refine ⟨?_, hreg⟩
    have hmem : c ∈ held ↔ c ∈ logs := by
      rw [I'.present c, I.present c, hatc, Std.ExtTreeMap.mem_iff_isSome_getElem?, hreg,
        Std.ExtTreeMap.mem_iff_isSome_getElem?]
    rw [Logs.getElem?_eq, Logs.getElem?_eq, hatc]
    simp only [hmem]
  · have hatc : held.at c = [] := by rw [hat, ownLogs, if_neg hc]
    have hreg : floors[c]? = none := by
      rw [hfloors, if_neg]
      rintro rfl
      exact hc ⟨rfl, rfl⟩
    have hnot : c ∉ held := by
      rw [I'.present c, hatc, Std.ExtTreeMap.mem_iff_isSome_getElem?, hreg]
      simp
    rw [Std.ExtTreeMap.getElem?_union, Std.ExtTreeMap.getElem?_union, hreg, Std.ExtTreeMap.getElem?_eq_none hnot]
    simp

/-- Any journal adds its own chains. -/
theorem openJournal_reading {share : String} (hs : share ≠ "") (origin : String) {done : Set (String × String)}
    {st : Opening} (R : Reading logs register disk journal done st) (hnew : (share, origin) ∉ done) :
    ∃ st', openJournal C (hex (utf8 share)) st (logName origin) = .ok st' ∧
      Reading logs register disk journal (insert (share, origin) done) st' := by
  by_cases hh : share = home
  · subst hh
    exact openJournal_home I origin R hnew
  · exact openJournal_app I hs hh origin R hnew

/-! ### A directory of journals, and the root -/

/-- The journals of a share, one after another. -/
theorem foldlM_openJournal {share : String} (hs : share ≠ "") {names : List String} (hnodup : names.Nodup)
    (hnames : ∀ name ∈ names, ∃ origin, name = logName origin) {done : Set (String × String)} {st : Opening}
    (R : Reading logs register disk journal done st) (hnew : ∀ origin, logName origin ∈ names → (share, origin) ∉ done) :
    ∃ st', names.foldlM (openJournal C (hex (utf8 share))) st = .ok st' ∧
      Reading logs register disk journal (done ∪ {p | p.1 = share ∧ logName p.2 ∈ names}) st' := by
  induction names generalizing done st with
  | nil =>
    refine ⟨st, rfl, ?_⟩
    simpa using R
  | cons name names ih =>
    obtain ⟨origin, rfl⟩ := hnames name (by simp)
    obtain ⟨hfresh, hnodup⟩ := List.nodup_cons.mp hnodup
    obtain ⟨st₁, hst₁, R₁⟩ := openJournal_reading I hs origin R (hnew origin (by simp))
    have hnew₁ : ∀ o, logName o ∈ names → (share, o) ∉ insert (share, origin) done := by
      intro o ho hmem
      rcases Set.mem_insert_iff.mp hmem with h | h
      · obtain rfl : o = origin := (Prod.mk.inj h).2
        exact hfresh ho
      · exact hnew o (by simp [ho]) h
    obtain ⟨st', hst', R'⟩ := ih hnodup (fun n hn => hnames n (by simp [hn])) R₁ hnew₁
    refine ⟨st', ?_, ?_⟩
    · rw [List.foldlM_cons, hst₁]
      exact hst'
    · convert R' using 1
      ext ⟨share', o⟩
      have horigin : logName o = logName origin ↔ o = origin := logName_injective.eq_iff
      simp only [Set.mem_union, Set.mem_ofPred_eq, Set.mem_insert_iff, Prod.mk.injEq, List.mem_cons, horigin]
      grind

omit I in
theorem mem_fileNames {dir name : String} : name ∈ fileNames disk dir ↔ [dir, name] ∈ disk := by
  rw [fileNames, List.mem_filterMap]
  constructor
  · rintro ⟨path, hpath, hname⟩
    split at hname
    · split_ifs at hname with hd
      obtain rfl := Option.some.inj hname
      rw [← hd]
      exact Std.ExtTreeMap.mem_keys.mp hpath
    · cases hname
  · intro h
    exact ⟨[dir, name], Std.ExtTreeMap.mem_keys.mpr h, by simp⟩

omit I in
theorem nodup_fileNames (disk : Disk) (dir : String) : (fileNames disk dir).Nodup := by
  refine List.Nodup.filterMap ?_ Std.ExtTreeMap.nodup_keys
  intro path path' name h h'
  rw [Option.mem_def] at h h'
  split at h
  · split at h'
    · split_ifs at h h' with hd hd'
      rw [hd, hd', Option.some.inj h, Option.some.inj h']
    · cases h'
  · cases h

omit I in
theorem mem_dirNames {dir : String} : dir ∈ dirNames disk ↔ ∃ name rest, dir :: name :: rest ∈ disk := by
  rw [dirNames, List.mem_dedup, List.mem_filterMap]
  constructor
  · rintro ⟨path, hpath, hdir⟩
    split at hdir
    · obtain rfl := Option.some.inj hdir
      exact ⟨_, _, Std.ExtTreeMap.mem_keys.mp hpath⟩
    · cases hdir
  · rintro ⟨name, rest, h⟩
    exact ⟨_, Std.ExtTreeMap.mem_keys.mpr h, rfl⟩

/-- A share's directory, listed in any order. -/
theorem openShare_reading (readDir : ReadDir) {share : String} (hs : share ≠ "") {done : Set (String × String)}
    {st : Opening} (R : Reading logs register disk journal done st) (hnew : ∀ origin, (share, origin) ∉ done) :
    ∃ st', openShare C readDir st (hex (utf8 share)) = .ok st' ∧
      Reading logs register disk journal (done ∪ {p | p.1 = share ∧ logPath p.1 p.2 ∈ disk}) st' := by
  set names := readDir.order [hex (utf8 share)] (fileNames st.disk (hex (utf8 share))) with hdef
  have hperm := readDir.perm [hex (utf8 share)] (fileNames st.disk (hex (utf8 share)))
  have hmem : ∀ name, name ∈ names ↔ [hex (utf8 share), name] ∈ disk := by
    intro name
    rw [hdef, hperm.mem_iff, mem_fileNames, R.files]
  have hnames : ∀ name ∈ names, ∃ origin, name = logName origin := by
    intro name hname
    obtain ⟨torn, J⟩ := R.journals
    rcases J.paths _ ((R.files _).mpr ((hmem name).mp hname)) with h | ⟨share', origin, hs', h⟩
    · exact absurd (List.cons.inj h).1 (hex_ne_proofs share)
    · rw [logPath_eq hs'] at h
      exact ⟨origin, by simpa using (List.cons.inj h).2⟩
  have hnodup : names.Nodup := hperm.nodup_iff.mpr (nodup_fileNames st.disk _)
  obtain ⟨st', hst', R'⟩ := foldlM_openJournal I hs hnodup hnames R fun origin _ => hnew origin
  refine ⟨st', ?_, ?_⟩
  · rw [openShare, if_neg (hex_ne_proofs share)]
    exact hst'
  · convert R' using 1
    ext ⟨share', origin⟩
    simp only [Set.mem_union, Set.mem_ofPred_eq, hmem]
    constructor
    · rintro (h | ⟨rfl, h⟩)
      · exact .inl h
      · exact .inr ⟨rfl, logPath_eq hs origin ▸ h⟩
    · rintro (h | ⟨rfl, h⟩)
      · exact .inl h
      · exact .inr ⟨rfl, logPath_eq hs origin ▸ h⟩

/-- The directories under the root, one after another. -/
theorem foldlM_openShare (readDir : ReadDir) {dirs : List String} (hnodup : dirs.Nodup)
    (hdirs : ∀ dir ∈ dirs, dir = "proofs" ∨ ∃ share, share ≠ "" ∧ dir = hex (utf8 share)) {done : Set (String × String)}
    {st : Opening} (R : Reading logs register disk journal done st)
    (hnew : ∀ share origin, hex (utf8 share) ∈ dirs → (share, origin) ∉ done) :
    ∃ st', dirs.foldlM (openShare C readDir) st = .ok st' ∧
      Reading logs register disk journal (done ∪ {p | hex (utf8 p.1) ∈ dirs ∧ p.1 ≠ "" ∧ logPath p.1 p.2 ∈ disk}) st' := by
  induction dirs generalizing done st with
  | nil =>
    refine ⟨st, rfl, ?_⟩
    simpa using R
  | cons dir dirs ih =>
    obtain ⟨hfresh, hnodup'⟩ := List.nodup_cons.mp hnodup
    have hrest : ∀ d ∈ dirs, d = "proofs" ∨ ∃ share, share ≠ "" ∧ d = hex (utf8 share) :=
      fun d hd => hdirs d (by simp [hd])
    rcases hdirs dir (by simp) with rfl | ⟨share, hs, rfl⟩
    · obtain ⟨st', hst', R'⟩ := ih hnodup' hrest R fun share origin h => hnew share origin (by simp [h])
      refine ⟨st', ?_, ?_⟩
      · rw [List.foldlM_cons, openShare, if_pos rfl]
        exact hst'
      · simpa [hex_ne_proofs] using R'
    · obtain ⟨st₁, hst₁, R₁⟩ := openShare_reading I readDir hs R fun origin => hnew share origin (by simp)
      have hnew₁ : ∀ share' origin, hex (utf8 share') ∈ dirs →
          (share', origin) ∉ done ∪ {p | p.1 = share ∧ logPath p.1 p.2 ∈ disk} := by
        rintro share' origin hmem (h | ⟨rfl, -⟩)
        · exact hnew share' origin (by simp [hmem]) h
        · exact hfresh hmem
      obtain ⟨st', hst', R'⟩ := ih hnodup' hrest R₁ hnew₁
      refine ⟨st', ?_, ?_⟩
      · rw [List.foldlM_cons, hst₁]
        exact hst'
      · convert R' using 1
        ext ⟨share', origin⟩
        have hshare : hex (utf8 share') = hex (utf8 share) ↔ share' = share := hexName_injective.eq_iff
        simp only [Set.mem_union, Set.mem_ofPred_eq, List.mem_cons, hshare]
        grind

/-- The root's directories, listed in any order, read to the store's memory. -/
theorem openShares_eq {torn : String → String → Bytes} (J : Journals logs disk journal torn) (readDir : ReadDir) (date : String) :
    ∃ st, (readDir.order [] (dirNames disk)).foldlM (openShare C readDir)
        { disk, logs := ∅, register := ∅, covered := [], aside := { journals := 0, records := 0, date } } = .ok st ∧
      (∃ torn', Journals logs st.disk journal torn') ∧ st.disk.bytes proofsPath = disk.bytes proofsPath ∧
        st.logs = logs ∧ st.register = register ∧ st.covered = [] ∧ st.aside.journals = 0 := by
  have hperm := readDir.perm [] (dirNames disk)
  have hdirs : ∀ dir ∈ readDir.order [] (dirNames disk),
      dir = "proofs" ∨ ∃ share, share ≠ "" ∧ dir = hex (utf8 share) := by
    intro dir hdir
    obtain ⟨name, rest, hmem⟩ := mem_dirNames.mp (hperm.mem_iff.mp hdir)
    rcases J.paths _ hmem with h | ⟨share, origin, hs, h⟩
    · exact .inl (List.cons.inj h).1
    · rw [logPath_eq hs] at h
      exact .inr ⟨share, hs, (List.cons.inj h).1⟩
  have R₀ : Reading logs register disk journal ∅
      { disk, logs := ∅, register := ∅, covered := [], aside := { journals := 0, records := 0, date } } :=
    { journals := ⟨torn, J⟩
      files := fun _ => Iff.rfl
      proofBytes := rfl
      uncovered := rfl
      noneAside := rfl
      read := by simp
      unread := by simp }
  have hnodup : (readDir.order [] (dirNames disk)).Nodup := hperm.nodup_iff.mpr (List.nodup_dedup _)
  obtain ⟨st, hst, R⟩ := foldlM_openShare I readDir hnodup hdirs R₀ (by simp)
  -- A chain no journal was read for is one the store does not hold.
  have hunread : ∀ c : ChainId, logPath c.share c.origin ∉ disk ∨ c.share = "" → logs[c]? = none ∧ register[c]? = none := by
    intro c hc
    have hnil : ∀ c' : ChainId, c'.share = c.share → c'.origin = c.origin → logs.at c' = [] := by
      intro c' hs ho
      rw [← J.chains c', hs, ho]
      rcases hc with h | h
      · rw [J.journal_eq_nil_of_not_mem h, List.filter_nil]
      · rw [h, J.journal_nameless, List.filter_nil]
    have hreg : register[c]? = none := by
      cases hr : register[c]? with
      | none => rfl
      | some e =>
        obtain ⟨hkey, -⟩ := I.registered c e.1 e.2 hr
        have hcp := I.checkpoints c.origin
        rw [hnil (homeChain gCheckpoints c.origin) (by rw [hkey]; rfl) rfl,
          show homeChain gClaims c.origin = c by rw [hkey]; rfl, hr] at hcp
        simp at hcp
    refine ⟨?_, hreg⟩
    rw [Logs.getElem?_eq, if_neg]
    rw [I.present c, hnil c rfl rfl, Std.ExtTreeMap.mem_iff_isSome_getElem?, hreg]
    simp
  have hall : ∀ c : ChainId, st.logs[c]? = logs[c]? ∧ st.register[c]? = register[c]? := by
    intro c
    by_cases hc : c.share ≠ "" ∧ logPath c.share c.origin ∈ disk
    · have hdir : hex (utf8 c.share) ∈ readDir.order [] (dirNames disk) := by
        rw [hperm.mem_iff, mem_dirNames]
        exact ⟨logName c.origin, [], logPath_eq hc.1 c.origin ▸ hc.2⟩
      exact R.read c (.inr ⟨hdir, hc⟩)
    · obtain ⟨h1, h2⟩ := hunread c (by tauto)
      obtain ⟨h3, h4⟩ := R.unread c (by rintro (h | ⟨-, h⟩); exacts [h.elim, hc h])
      exact ⟨h3.trans h1.symm, h4.trans h2.symm⟩
  exact ⟨st, hst, R.journals, R.proofBytes, Std.ExtTreeMap.ext_getElem? fun c => (hall c).1,
    Std.ExtTreeMap.ext_getElem? fun c => (hall c).2, R.uncovered, R.noneAside⟩

end

/-! ### The proofs, and the whole store -/

/-- The ops of the proofs, as their file lists them. -/
def proofOps (proofs : List EquivProof) : List Op := proofs.flatMap fun proof => [proof.a, proof.b]

theorem pairs_proofOps (proofs : List EquivProof) : pairs ((proofOps proofs).map some) = proofs := by
  induction proofs with
  | nil => rfl
  | cons proof proofs ih => exact congrArg (proof :: ·) ih

/-- The proofs read back from their file. -/
theorem readProofs_of_bytes {disk : Disk} {proofs : List EquivProof}
    (h : disk.bytes proofsPath = (proofOps proofs).flatMap framed)
    (hsmall : ∀ op ∈ proofOps proofs, op.encoding.length < 2 ^ 32) : readProofs disk = (proofs, disk) := by
  rw [readProofs]
  split_ifs with hmem
  · rw [readRecords_of_bytes (by rw [h, List.append_nil]) Frames.torn_nil hsmall]
    dsimp only
    rw [pairs_proofOps, if_pos rfl]
  · rw [Disk.bytes, Std.ExtTreeMap.getD_eq_fallback hmem] at h
    cases proofs with
    | nil => rfl
    | cons proof proofs =>
      have := congrArg List.length h
      simp [proofOps, framed, Frames.length_frame] at this
      omega

theorem readProofs_journals {logs : Logs} {disk : Disk} {journal : String → String → List Op}
    {torn : String → String → Bytes} (J : Journals logs disk journal torn) :
    Journals logs (readProofs disk).2 journal torn := by
  rw [readProofs]
  split_ifs
  · simp only [readRecords]
    split_ifs
    · exact J
    · exact J.writeProofs _
  · exact J

/-- The journals open to the store whose memory they are the journals of, and
to whatever proofs their file reads to; and they stay its journals. -/
theorem openStore_of_journals {logs : Logs} {register : Register} (I : Inv C logs register) {disk : Disk}
    {journal : String → String → List Op} {torn : String → String → Bytes} (J : Journals logs disk journal torn)
    (readDir : ReadDir) (date : String) :
    ∃ disk' torn', Journals logs disk' journal torn' ∧ disk'.bytes proofsPath = disk.bytes proofsPath ∧
      openStore C readDir date disk =
        .ok ({ logs, register, proofs := (readProofs disk').1, aside := none }, (readProofs disk').2) := by
  obtain ⟨st, hst, ⟨torn', J'⟩, hbytes, hlogs, hregister, hcovered, haside⟩ := openShares_eq I J readDir date
  refine ⟨st.disk, torn', J', hbytes, ?_⟩
  rw [openStore, if_neg J.sealedMarker_not_mem, hst]
  simp only [bind, Except.bind, hlogs, hregister, hcovered, haside]
  rfl

end Glade.Store
