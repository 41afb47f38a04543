import Glade.Registry.RecordsWalk

/-! Any number of handles on one `records.json` (`BlobStore`, `node/src/registry.rs`).
A handle saves over the revision it last read or wrote, each save moves the
revision up by one, and so a file at a revision a handle has seen is the file it
saw. -/

namespace Glade.RecordsFile

open Wire Node

variable {H : Type} [DecidableEq H]

/-- The file, what each handle knows of its revision, and, beside what the code
keeps, the file as each handle last loaded or saved it. -/
structure World (H : Type) where
  file : Option Bytes
  seen : H → Seen
  known : H → Option (Option Bytes)

/-- A call of a handle, and the I/O call of it that fails, if one does. -/
inductive Call (H : Type) where
  | load (handle : H) (fails : Bool)
  | save (handle : H) (snap : SystemSnapshot) (fault : Option Fault)

def World.step (w : World H) : Call H → World H
  | .load handle fails =>
    let (answer, seen) := load w.file (w.seen handle) fails
    { w with
      seen := Function.update w.seen handle seen
      known := match answer with
        | .ok _ => Function.update w.known handle (some w.file)
        | .error _ => w.known }
  | .save handle snap fault =>
    let (answer, seen, file) := save w.file (w.seen handle) snap fault
    { file
      seen := Function.update w.seen handle seen
      known := match answer with
        | .ok _ => Function.update w.known handle (some file)
        | .error .outcomeUnknown => Function.update w.known handle none
        | .error _ => w.known }

/-- A file that handles have not touched yet, and then a run of their calls. -/
def run (file : Option Bytes) (calls : List (Call H)) : World H :=
  calls.foldl World.step { file, seen := fun _ => .nothing, known := fun _ => none }

/-! ### One save -/

/-- What a compare-and-swap does: it writes the next revision of the one held,
which is the one expected, or it is refused and changes nothing. -/
theorem compareExchange_cases (file : Option Bytes) (expected : Option ℕ) {snap : SystemSnapshot} (hs : Holdable snap)
    (fault : Option Fault) :
    (heldRevision file = .ok expected ∧ expected.getD 0 + 1 < 2 ^ 64 ∧
      (fault = none ∧ compareExchange file expected (encodeSnapshot snap) fault =
          (.ok (expected.getD 0 + 1), some (fileOf snap (expected.getD 0 + 1))) ∨
        fault = some .sync ∧ compareExchange file expected (encodeSnapshot snap) fault =
          (.error .outcomeUnknown, some (fileOf snap (expected.getD 0 + 1))))) ∨
    ((fault = none → ¬ (heldRevision file = .ok expected ∧ expected.getD 0 + 1 < 2 ^ 64)) ∧
      ∃ e, e ≠ .outcomeUnknown ∧ compareExchange file expected (encodeSnapshot snap) fault = (.error e, file)) := by
  by_cases hlock : fault = some .lock
  · refine .inr ⟨by simp [hlock], .unavailable, by simp, ?_⟩
    rw [compareExchange, if_pos hlock]
  cases hheld : heldRevision file with
  | error why =>
    refine .inr ⟨by simp, .corrupt why, by simp, ?_⟩
    rw [compareExchange, if_neg hlock, hheld]
  | ok held =>
    by_cases hne : held = expected
    case neg =>
      refine .inr ⟨by simp [hne], .conflict held expected, by simp, ?_⟩
      rw [compareExchange, if_neg hlock, hheld]
      exact if_pos hne
    subst hne
    by_cases hmax : 2 ^ 64 ≤ held.getD 0 + 1
    · refine .inr ⟨fun _ h => ?_, .exhausted, by simp, ?_⟩
      · omega
      · rw [compareExchange, if_neg hlock, hheld]
        simp only [ne_eq, not_true_eq_false, if_false, if_pos hmax]
    have hexchange : compareExchange file held (encodeSnapshot snap) fault =
        if fault = some .write then (.error .unavailable, file)
        else if fault = some .sync then (.error .outcomeUnknown, some (fileOf snap (held.getD 0 + 1)))
        else (.ok (held.getD 0 + 1), some (fileOf snap (held.getD 0 + 1))) := by
      rw [compareExchange, if_neg hlock, hheld]
      simp only [ne_eq, not_true_eq_false, if_false, if_neg hmax, withRevision_encodeSnapshot hs]
    rw [hexchange]
    match fault with
    | some .lock => exact absurd rfl hlock
    | some .write => exact .inr ⟨by simp, .unavailable, by simp, rfl⟩
    | some .sync => exact .inl ⟨rfl, by omega, .inr ⟨rfl, rfl⟩⟩
    | none => exact .inl ⟨rfl, by omega, .inl ⟨rfl, rfl⟩⟩

/-- What a save does: it writes the next revision, and knows it or not, or it is
refused and changes nothing. -/
theorem save_cases (file : Option Bytes) (seen : Seen) (snap : SystemSnapshot) (fault : Option Fault) :
    (∃ held, expectedOf file seen = .ok held ∧ heldRevision file = .ok held ∧ Holdable snap ∧ held.getD 0 + 1 < 2 ^ 64 ∧
      (fault = none ∧ save file seen snap fault =
          (.ok (), .atRevision (held.getD 0 + 1), some (fileOf snap (held.getD 0 + 1))) ∨
        fault = some .sync ∧ save file seen snap fault =
          (.error .outcomeUnknown, .nothing, some (fileOf snap (held.getD 0 + 1))))) ∨
    ((fault = none → Holdable snap → ∀ held, expectedOf file seen = .ok held →
        ¬ (heldRevision file = .ok held ∧ held.getD 0 + 1 < 2 ^ 64)) ∧
      ∃ e, e ≠ .outcomeUnknown ∧ save file seen snap fault = (.error e, seen, file)) := by
  rw [save]
  cases hexp : expectedOf file seen with
  | error e =>
    refine .inr ⟨by simp, e, ?_, rfl⟩
    rintro rfl
    cases seen with
    | nothing =>
      rw [expectedOf] at hexp
      split at hexp <;> simp at hexp
    | absent => cases hexp
    | atRevision revision => cases hexp
  | ok expected =>
    dsimp only
    by_cases hlen : maxLen < (encodeSnapshot snap).length + 10
    · rw [if_pos hlen]
      refine .inr ⟨fun _ hs => ?_, .panicked, by simp, rfl⟩
      rw [Holdable] at hs
      omega
    rw [if_neg hlen]
    have hs : Holdable snap := by
      rw [Holdable]
      omega
    rcases compareExchange_cases file expected hs fault with ⟨hheld, hmax, ⟨hf, heq⟩ | ⟨hf, heq⟩⟩ | ⟨hno, e, he, heq⟩
    · rw [heq]
      exact .inl ⟨expected, rfl, hheld, hs, hmax, .inl ⟨hf, rfl⟩⟩
    · rw [heq]
      exact .inl ⟨expected, rfl, hheld, hs, hmax, .inr ⟨hf, rfl⟩⟩
    · rw [heq]
      refine .inr ⟨fun hf _ held hheld => ?_, e, he, ?_⟩
      · obtain rfl := Except.ok.inj hheld
        exact hno hf
      · cases e <;> first | rfl | exact absurd rfl he

/-! ### What the handles know -/

/-- What a handle knows is the file it last loaded or saved, and the file is that
one still or has moved to a higher revision. -/
def Knows (file : Option Bytes) : Seen → Option (Option Bytes) → Prop
  | .nothing, known => known = none
  | .absent, known => known = some none
  | .atRevision revision, known => ∃ b, known = some (some b) ∧ revisionOf b = .ok revision ∧
      (file = some b ∨ ∃ b' revision', file = some b' ∧ revisionOf b' = .ok revision' ∧ revision < revision')

/-- The revision a handle expects is the file's exactly while the file is the
one it knows. -/
theorem Knows.expected {file known : Option Bytes} {seen : Seen} (h : Knows file seen (some known)) :
    ∃ expected, expectedOf file seen = .ok expected ∧ (heldRevision file = .ok expected ↔ file = known) ∧
      heldRevision known = .ok expected := by
  cases seen with
  | nothing => cases h
  | absent =>
    obtain rfl := Option.some.inj h
    refine ⟨none, rfl, ?_, rfl⟩
    cases file with
    | none => simp [heldRevision]
    | some b =>
      rw [heldRevision]
      cases revisionOf b <;> simp [Except.map]
  | atRevision revision =>
    obtain ⟨b, hknown, hrevision, hfile⟩ := h
    obtain rfl := Option.some.inj hknown
    have hown : heldRevision (some b) = .ok (some revision) := by
      rw [heldRevision, hrevision]
      rfl
    refine ⟨some revision, rfl, ⟨fun hheld => ?_, fun hb => hb ▸ hown⟩, hown⟩
    rcases hfile with rfl | ⟨b', revision', rfl, hrevision', hlt⟩
    · rfl
    · rw [heldRevision, hrevision'] at hheld
      have heq := Option.some.inj (Except.ok.inj hheld)
      omega

/-- A write of the next revision leaves what every handle knows true. -/
theorem Knows.written {file : Option Bytes} {seen : Seen} {known : Option (Option Bytes)} (h : Knows file seen known)
    {held : Option ℕ} (hheld : heldRevision file = .ok held) {b : Bytes} (hb : revisionOf b = .ok (held.getD 0 + 1)) :
    Knows (some b) seen known := by
  cases seen with
  | nothing => exact h
  | absent => exact h
  | atRevision revision =>
    obtain ⟨b₀, hknown, hrevision, hfile⟩ := h
    refine ⟨b₀, hknown, hrevision, .inr ⟨b, _, rfl, hb, ?_⟩⟩
    rcases hfile with rfl | ⟨b', revision', rfl, hrevision', hlt⟩
    · rw [heldRevision, hrevision] at hheld
      obtain rfl := Except.ok.inj hheld
      simp
    · rw [heldRevision, hrevision'] at hheld
      obtain rfl := Except.ok.inj hheld
      simp
      omega

theorem revisionOf_of_unpack {file snapshot : Bytes} {revision : ℕ} (h : unpack file = .ok (revision, snapshot)) :
    revisionOf file = .ok revision := by
  rw [unpack] at h
  rw [revisionOf]
  cases hw : walk file with
  | error why => rw [hw] at h; cases h
  | ok map =>
    rw [hw] at h
    dsimp only at h ⊢
    split at h
    · cases h
    case h_2 r hr =>
      obtain ⟨rfl, -⟩ := Prod.mk.inj (Except.ok.inj h)
      rw [hr]
      rfl
    case h_3 r hr =>
      obtain ⟨rfl, -⟩ := Prod.mk.inj (Except.ok.inj h)
      rw [hr]
      rfl

/-- What a load leaves a handle knowing. -/
theorem load_cases (file : Option Bytes) (seen : Seen) (fails : Bool) :
    (∃ snap, (load file seen fails).1 = .ok snap ∧ Knows file (load file seen fails).2 (some file)) ∨
      ∃ e, load file seen fails = (.error e, seen) := by
  unfold load
  split_ifs
  · exact .inr ⟨_, rfl⟩
  split
  · exact .inl ⟨_, rfl, rfl⟩
  case h_2 bytes =>
    cases hu : unpack bytes with
    | error why => exact .inr ⟨_, rfl⟩
    | ok p =>
      obtain ⟨revision, snapshot⟩ := p
      dsimp only
      cases hd : decodeSnapshot snapshot with
      | error why => exact .inr ⟨_, rfl⟩
      | ok snap => exact .inl ⟨snap, rfl, bytes, rfl, revisionOf_of_unpack hu, .inl rfl⟩

/-- The handles of a world, each knowing what it last loaded or saved. -/
def World.Sound (w : World H) : Prop := ∀ handle, Knows w.file (w.seen handle) (w.known handle)

theorem World.Sound.step {w : World H} (h : w.Sound) (call : Call H) : (w.step call).Sound := by
  cases call with
  | load handle fails =>
    intro other
    rcases load_cases w.file (w.seen handle) fails with ⟨snap, hok, hknows⟩ | ⟨e, he⟩
    · by_cases ho : other = handle
      · subst ho
        simpa [World.step, hok] using hknows
      · simpa [World.step, hok, ho] using h other
    · by_cases ho : other = handle
      · subst ho
        simpa [World.step, he] using h other
      · simpa [World.step, he, ho] using h other
  | save handle snap fault =>
    intro other
    rcases save_cases w.file (w.seen handle) snap fault with
      ⟨held, -, hheld, hs, hmax, ⟨-, heq⟩ | ⟨-, heq⟩⟩ | ⟨-, e, he, heq⟩
    · have hb := revisionOf_fileOf hs hmax (Nat.succ_pos _)
      by_cases ho : other = handle
      · subst ho
        simp only [World.step, heq, Function.update_self]
        exact ⟨_, rfl, hb, .inl rfl⟩
      · simpa [World.step, heq, ho] using (h other).written hheld hb
    · have hb := revisionOf_fileOf hs hmax (Nat.succ_pos _)
      by_cases ho : other = handle
      · subst ho
        simp [World.step, heq, Knows]
      · simpa [World.step, heq, ho] using (h other).written hheld hb
    · have hstep : (w.step (.save handle snap fault)).file = w.file ∧
          (w.step (.save handle snap fault)).seen other = w.seen other ∧
          (w.step (.save handle snap fault)).known other = w.known other := by
        refine ⟨by simp [World.step, heq], by simp [World.step, heq], ?_⟩
        cases e <;> first | exact absurd rfl he | simp [World.step, heq]
      rw [hstep.1, hstep.2.1, hstep.2.2]
      exact h other

theorem sound_run (file : Option Bytes) (calls : List (Call H)) : (run file calls).Sound := by
  induction calls using List.reverseRecOn with
  | nil => exact fun _ => rfl
  | append_singleton calls call ih =>
    rw [run, List.foldl_concat]
    exact ih.step call

/-- A handle that has loaded or saved saves exactly while the file is the one it
last loaded or saved and has a next revision; a save moves the revision up by
one, and one that is refused leaves the file as it was. -/
theorem save_iff_unchanged (H : Type) [DecidableEq H] (file : Option Bytes) (calls : List (Call H)) (handle : H)
    (snap : { snap : SystemSnapshot // Holdable snap }) :
    let w := run file calls
    (∀ known, w.known handle = some known →
      ((save w.file (w.seen handle) snap none).1 = .ok () ↔
        w.file = known ∧ ∀ b revision, known = some b → revisionOf b = .ok revision → revision + 1 < 2 ^ 64)) ∧
    (∀ fault, (save w.file (w.seen handle) snap fault).1 = .ok () →
      ∃ held, heldRevision w.file = .ok held ∧
        heldRevision (save w.file (w.seen handle) snap fault).2.2 = .ok (some (held.getD 0 + 1))) ∧
    ∀ fault e, (save w.file (w.seen handle) snap fault).1 = .error e → e ≠ .outcomeUnknown →
      (save w.file (w.seen handle) snap fault).2.2 = w.file := by
  intro w
  have hknows := sound_run file calls handle
  refine ⟨fun known hknown => ?_, fun fault hok => ?_, fun fault e he hne => ?_⟩
  · obtain ⟨expected, hexp, hiff, hown⟩ := (hknown ▸ hknows).expected
    constructor
    · intro hok
      rcases save_cases w.file (w.seen handle) snap none with ⟨held, hexp', hheld, -, hmax, -⟩ | ⟨-, e, -, heq⟩
      · obtain rfl := Except.ok.inj (hexp.symm.trans hexp')
        refine ⟨hiff.mp hheld, fun b revision hb hrevision => ?_⟩
        rw [hb, heldRevision, hrevision] at hown
        rwa [← Except.ok.inj hown] at hmax
      · rw [heq] at hok
        cases hok
    · rintro ⟨hfile, hmax⟩
      rcases save_cases w.file (w.seen handle) snap none with ⟨held, -, -, -, -, ⟨-, heq⟩ | ⟨hf, -⟩⟩ | ⟨hno, -⟩
      · rw [heq]
      · cases hf
      · refine absurd ⟨hiff.mpr hfile, ?_⟩ (hno rfl snap.2 expected hexp)
        cases known with
        | none =>
          obtain rfl := Except.ok.inj hown
          norm_num
        | some b =>
          rw [heldRevision] at hown
          cases hr : revisionOf b with
          | error why => rw [hr] at hown; cases hown
          | ok revision =>
            rw [hr] at hown
            rw [← Except.ok.inj hown]
            exact hmax b revision rfl hr
  · rcases save_cases w.file (w.seen handle) snap fault with ⟨held, -, hheld, hs, hmax, ⟨-, heq⟩ | ⟨-, heq⟩⟩ | ⟨-, e, -, heq⟩
    · rw [heq]
      refine ⟨held, hheld, ?_⟩
      rw [heldRevision, revisionOf_fileOf hs hmax (Nat.succ_pos _)]
      rfl
    · rw [heq] at hok
      cases hok
    · rw [heq] at hok
      cases hok
  · rcases save_cases w.file (w.seen handle) snap fault with ⟨held, -, -, -, -, ⟨-, heq⟩ | ⟨-, heq⟩⟩ | ⟨-, e', -, heq⟩
    · rw [heq] at he
      cases he
    · rw [heq] at he
      exact absurd (Except.error.inj he).symm hne
    · rw [heq]

/-- The snapshot a file holds, its revision apart. -/
def snapshotIn (file : Option Bytes) : Option Bytes := file.bind fun b => (unpack b).toOption.map Prod.snd

/-- A snapshot that is saved again by another handle is the same snapshot at
another revision. -/
theorem save_refused_after_equal_save : ¬ ∀ (calls : List (Call Bool)) (handle : Bool)
    (snap : { snap : SystemSnapshot // Holdable snap }) (known : Option Bytes),
    (run none calls).known handle = some known →
      ((save (run none calls).file ((run none calls).seen handle) snap none).1 = .ok () ↔
        snapshotIn (run none calls).file = snapshotIn known) := by
  intro h
  let snap : SystemSnapshot := ⟨[], [], none⟩
  have hs : Holdable snap := by
    rw [Holdable]
    decide
  let calls : List (Call Bool) := [.save true snap none, .load false false, .save false snap none]
  have hiff := h calls true ⟨snap, hs⟩ (some (fileOf snap 1)) (by decide)
  have hrefused : (save (run none calls).file ((run none calls).seen true) snap none).1 ≠ .ok () := by decide
  exact hrefused (hiff.mpr (by decide))

end Glade.RecordsFile
