import Glade.Registry.AppFile

/-! The grammar of app files (`docs/AppFileFormat.md`), and that `appdecl::parse`
accepts exactly it. A file is a header, its app, and then directives, each line
one of them to the token; what it declares is read off the directives in their
order. -/

namespace Glade.AppFile

open Node

/-! ### The grammar -/

/-- The number digits are of. -/
def decimal (number : List Char) : ℕ := Nat.ofDigits 10 (number.reverse.map fun c => c.toNat - 48)

/-- What `ttl=` may hold: the digits of a positive number and one unit, which make
`ms` milliseconds, no more than 64 bits hold. -/
def Duration (value : String) (ms : ℕ) : Prop :=
  ∃ (number : List Char) (unit : String) (scale : ℕ), value.toList = number ++ unit.toList ∧ number ≠ [] ∧
    (∀ c ∈ number, isAsciiDigit c = true) ∧ (unit, scale) ∈ units ∧ 0 < decimal number ∧ ms = decimal number * scale ∧
    ms < 2 ^ 63

/-- An entry of a tail: a known key, and a value it may have. -/
inductive TailEntry where
  | ttl (value : String) (ms : ℕ) (h : Duration value ms)
  | profile (p core : String) (h : (p, core) ∈ profiles)

namespace TailEntry

def key : TailEntry → String
  | .ttl .. => "ttl"
  | .profile .. => "shape-profile"

def tok : TailEntry → String
  | .ttl value _ _ => "ttl" ++ "=" ++ value
  | .profile p _ _ => "shape-profile" ++ "=" ++ p

def ms : TailEntry → Option ℕ
  | .ttl _ ms _ => some ms
  | .profile .. => none

/-- The profile, and the core engine it runs over. -/
def named : TailEntry → Option (String × String)
  | .ttl .. => none
  | .profile p core _ => some (p, core)

end TailEntry

/-- A binding line: five tokens, then the tail. -/
structure BindingLine where
  gladeId : String
  shape : String
  authority : String
  zone : String
  retention : String
  tail : List TailEntry

/-- What a line after the file's app declares. -/
inductive Directive where
  | binding (b : BindingLine)
  | service (name gladeId : String)
  | seed (principal share listed : String)
  | revoke (principal share : String)
  | workspace (share name : String)

/-- A tail's entries as parse data. -/
def tailOf (gladeId : String) (entries : List TailEntry) : BindingTail :=
  { gladeId, ttlMs := entries.findSome? TailEntry.ms, shapeProfile := (entries.findSome? TailEntry.named).map Prod.fst }

/-- Whether a binding line is one of the language `v`. -/
structure BindingLine.Fits (v : AppFileVersion) (b : BindingLine) : Prop where
  shape : b.shape ∈ bindingShapes
  authority : b.authority ∈ authorities
  once : (b.tail.map TailEntry.key).Nodup
  ttl : (b.tail.findSome? TailEntry.ms).isSome → b.retention = "ttl"
  profile : ∀ named ∈ b.tail.findSome? TailEntry.named, named.2 = b.shape
  needed : b.shape = "crdt" → (b.tail.findSome? TailEntry.named).isSome
  slots : v = .v1 → '=' ∉ b.zone.toList ∧ '=' ∉ b.retention.toList

namespace Directive

/-- The tokens of a line. -/
def toks : Directive → List String
  | .binding b => "binding" :: b.gladeId :: b.shape :: b.authority :: b.zone :: b.retention :: b.tail.map TailEntry.tok
  | .service name gladeId => ["service", name, gladeId]
  | .seed principal share listed => ["seed", principal, share, listed]
  | .revoke principal share => ["revoke", principal, share]
  | .workspace share name => ["workspace", share, name]

def Fits (v : AppFileVersion) : Directive → Prop
  | .binding b => b.Fits v
  | _ => True

/-- The glade id a line declares. -/
def gladeId : Directive → Option String
  | .binding b => some b.gladeId
  | .service _ gladeId => some gladeId
  | _ => none

/-- The share a line declares. -/
def share : Directive → Option String
  | .workspace share _ => some share
  | _ => none

/-- The verbs a seed lists. -/
def verbsOf (listed : String) : List String := (listed.toList.splitOn ',').map String.ofList

def bindingDecl (app : String) : Directive → Option BindingDecl
  | .binding b =>
    some { app, gladeId := b.gladeId, shape := b.shape, authority := b.authority, zone := b.zone,
           retention := storedRetention b.retention }
  | _ => none

def tail : Directive → Option BindingTail
  | .binding b => if b.tail = [] then none else some (tailOf b.gladeId b.tail)
  | _ => none

def serviceDefinition (app : String) : Directive → Option ServiceDefinition
  | .service name gladeId => some { app, name, gladeId }
  | _ => none

def grant : Directive → Option CapabilityGrant
  | .seed principal share listed => some { principal, share, verbs := verbsOf listed }
  | _ => none

def revocation : Directive → Option CapabilityRevocation
  | .revoke principal share => some { principal, share }
  | _ => none

def workspaceDecl : Directive → Option WorkspaceDecl
  | .workspace share name => some { share, name }
  | _ => none

/-- What line `n` is told. -/
def warnings (v : AppFileVersion) (n : ℕ) : Directive → List String
  | .binding b => externalTold n b.authority ++ (unaccepted b.zone b.retention).map (told v n)
  | .seed principal _ listed => capitalsTold n principal ++ verbsTold n listed (verbsOf listed)
  | .revoke principal _ => capitalsTold n principal
  | _ => []

end Directive

def headerToks : AppFileVersion → List String
  | .v0 => ["glade-app", "v0"]
  | .v1 => ["glade-app", "v1"]

/-- The tokens and the number of each line that has any. -/
def tokened (raws : List (List Char × ℕ)) : List (List String × ℕ) :=
  (raws.map fun raw => (splitWhitespace (content raw.1), raw.2 + 1)).filter (fun l => l.1 ≠ [])

def nonblank (text : String) : List (List String × ℕ) := tokened (lines text.toList).zipIdx

/-- A text is a header, an app, and directives: each glade id and each share is declared once. -/
structure Accepts (text : String) (v : AppFileVersion) (headerLine : ℕ) (app : String) (items : List (Directive × ℕ)) :
    Prop where
  lines : ∃ n, nonblank text =
    (headerToks v, headerLine) :: (["app", app], n) :: items.map fun item => (item.1.toks, item.2)
  fits : ∀ item ∈ items, item.1.Fits v
  gladeIds : (items.filterMap fun item => item.1.gladeId).Nodup
  shares : (items.filterMap fun item => item.1.share).Nodup

/-- What a file declares, in its order. -/
def declOf (v : AppFileVersion) (headerLine : ℕ) (app : String) (items : List (Directive × ℕ)) : AppDecl :=
  { version := v, app
    bindings := items.filterMap fun item => item.1.bindingDecl app
    tails := items.filterMap fun item => item.1.tail
    services := items.filterMap fun item => item.1.serviceDefinition app
    seeds := items.filterMap fun item => item.1.grant
    seedLines := (items.filter fun item => item.1.grant.isSome).map Prod.snd
    revocations := items.filterMap fun item => item.1.revocation
    revocationLines := (items.filter fun item => item.1.revocation.isSome).map Prod.snd
    workspaces := items.filterMap fun item => item.1.workspaceDecl
    warnings := headerTold v headerLine ++ items.flatMap fun item => item.1.warnings v item.2 }

/-! ### Tokens -/

/-- A token's parts around its first `=`. -/
theorem splitOnce_eq_some {tok key value : String} :
    splitOnce tok = some (key, value) ↔ tok = key ++ "=" ++ value ∧ '=' ∉ key.toList := by
  unfold splitOnce
  rw [List.span_eq_takeWhile_dropWhile]
  dsimp only
  constructor
  · intro h
    split at h
    · cases h
    case h_2 c rest hrest =>
      obtain ⟨rfl, rfl⟩ := Prod.mk.inj (Option.some.inj h)
      have hc : c = '=' := by
        have hne : tok.toList.dropWhile (fun c => c ≠ '=') ≠ [] := by
          rw [hrest]
          exact List.cons_ne_nil c rest
        have hhead := List.head_dropWhile_not (fun c : Char => decide (c ≠ '=')) hne
        have hfirst : (tok.toList.dropWhile fun c => decide (c ≠ '=')).head hne = c := by simp only [hrest, List.head_cons]
        rw [hfirst] at hhead
        simpa using hhead
      subst hc
      constructor
      · rw [← String.toList_inj]
        have happ := List.takeWhile_append_dropWhile (p := fun c : Char => decide (c ≠ '=')) (l := tok.toList)
        rw [hrest] at happ
        simpa using happ.symm
      · rw [String.toList_ofList]
        intro hmem
        have := List.mem_takeWhile_imp hmem
        simp at this
  · rintro ⟨rfl, hkey⟩
    have hspan : (key ++ "=" ++ value).toList = key.toList ++ '=' :: value.toList := by simp
    have hall : ∀ c ∈ key.toList, decide (c ≠ '=') = true := by
      intro c hc
      rw [decide_eq_true_iff]
      rintro rfl
      exact hkey hc
    rw [hspan, List.takeWhile_append_of_pos hall, List.dropWhile_append_of_pos hall]
    simp

/-- No piece of a list has what it is split at. -/
theorem forall_of_mem_splitOnP {α : Type} {p : α → Bool} {l piece : List α} (h : piece ∈ l.splitOnP p) :
    ∀ a ∈ piece, p a = false := by
  induction l generalizing piece with
  | nil => simp_all [List.splitOnP_nil]
  | cons x l ih =>
    rw [List.splitOnP_cons_eq_if_modifyHead] at h
    split_ifs at h with hx
    · obtain rfl | h := List.mem_cons.mp h
      · simp
      · exact ih h
    · cases hl : l.splitOnP p with
      | nil => exact absurd hl (List.splitOnP_ne_nil p l)
      | cons first rest =>
        rw [hl] at h ih
        obtain rfl | h := List.mem_cons.mp h
        · rintro a ha
          obtain rfl | ha := List.mem_cons.mp ha
          · simpa using hx
          · exact ih List.mem_cons_self a ha
        · exact ih (List.mem_cons_of_mem _ h)

/-- A token holds no white space, and something. -/
theorem mem_splitWhitespace {line : List Char} {tok : String} (h : tok ∈ splitWhitespace line) :
    tok ≠ "" ∧ ∀ c ∈ tok.toList, isWhitespace c = false := by
  unfold splitWhitespace at h
  obtain ⟨chars, hchars, rfl⟩ := List.mem_map.mp h
  obtain ⟨hmem, hne⟩ := List.mem_filter.mp hchars
  constructor
  · intro heq
    have := congrArg String.toList heq
    simp at this
    simp [this] at hne
  · rw [String.toList_ofList]
    exact forall_of_mem_splitOnP hmem

/-- The header is two tokens. -/
theorem header_eq_iff {toks : List String} (htoks : ∀ tok ∈ toks, ∀ c ∈ tok.toList, isWhitespace c = false)
    (hne : toks ≠ []) (v : AppFileVersion) :
    " ".intercalate toks = " ".intercalate (headerToks v) ↔ toks = headerToks v := by
  refine ⟨fun h => ?_, fun h => by rw [h]⟩
  have hsplit : ∀ toks : List String, (∀ tok ∈ toks, ' ' ∉ tok.toList) → toks ≠ [] →
      (" ".intercalate toks).toList.splitOn ' ' = toks.map String.toList := by
    intro toks htoks hne
    rw [String.toList_intercalate]
    refine List.splitOn_intercalate ' ' (fun l hl => ?_) (by simpa using hne)
    obtain ⟨tok, htok, rfl⟩ := List.mem_map.mp hl
    exact htoks tok htok
  have hspace : isWhitespace ' ' = true := by decide
  have heq := hsplit toks (fun tok htok hmem => by simp [htoks tok htok ' ' hmem] at hspace) hne
  rw [h, hsplit (headerToks v) (by cases v <;> simp [headerToks]) (by cases v <;> simp [headerToks])] at heq
  exact (List.map_injective_iff.mpr (fun a b => String.toList_inj.mp) heq).symm

/-! ### Durations -/

theorem foldl_digits (number : List Char) :
    number.foldl (fun count c => 10 * count + (c.toNat - 48)) 0 = decimal number := by
  rw [decimal, Nat.ofDigits_eq_foldr, List.foldr_map, List.foldr_reverse]
  congr 1
  funext count c
  rw [Nat.cast_id]
  omega

/-- No unit begins with a digit, and none is of two scales. -/
theorem units_apart {unit : String} {scale : ℕ} (h : (unit, scale) ∈ units) :
    units.find? (fun u => u.1 = unit) = some (unit, scale) ∧ (unit.toList.dropWhile isAsciiDigit = unit.toList) ∧
      (unit.toList.takeWhile isAsciiDigit = []) ∧ 0 < scale := by
  simp only [units, List.mem_cons, Prod.mk.injEq, List.not_mem_nil, or_false] at h
  obtain ⟨rfl, rfl⟩ | ⟨rfl, rfl⟩ | ⟨rfl, rfl⟩ | ⟨rfl, rfl⟩ | ⟨rfl, rfl⟩ := h <;> decide

theorem durationMs_eq_ok {n : ℕ} {value : String} {ms : ℕ} : durationMs n value = .ok ms ↔ Duration value ms := by
  unfold durationMs
  rw [List.span_eq_takeWhile_dropWhile]
  dsimp only
  constructor
  · intro h
    split at h
    · cases h
    case h_2 u scale hunit =>
      rw [foldl_digits] at h
      split_ifs at h with hnumber hcount hzero hms
      obtain rfl := Except.ok.inj h
      have hu := List.find?_some hunit
      rw [decide_eq_true_iff] at hu
      refine ⟨value.toList.takeWhile isAsciiDigit, u, scale, ?_, hnumber, fun c hc => List.mem_takeWhile_imp hc,
        List.mem_of_find?_eq_some hunit, Nat.pos_of_ne_zero hzero, rfl, by omega⟩
      dsimp only at hu
      rw [hu, String.toList_ofList, List.takeWhile_append_dropWhile]
  · rintro ⟨number, unit, scale, hvalue, hnumber, hdigits, hunit, hpos, rfl, hms⟩
    obtain ⟨hfind, hdrop, htake, hscale⟩ := units_apart hunit
    have hle : decimal number ≤ decimal number * scale := Nat.le_mul_of_pos_right _ hscale
    rw [hvalue, List.takeWhile_append_of_pos hdigits, List.dropWhile_append_of_pos hdigits, hdrop, htake, List.append_nil,
      String.ofList_toList, hfind]
    dsimp only
    rw [foldl_digits, if_neg hnumber, if_neg (by omega), if_neg (by omega), if_neg (by omega)]

theorem profile_eq_ok {n : ℕ} {value p : String} : profile n value = .ok p ↔ p = value ∧ ∃ core, (value, core) ∈ profiles := by
  unfold profile
  split_ifs with h
  · simp only [List.any_eq_true, decide_eq_true_iff] at h
    obtain ⟨⟨name, core⟩, hmem, rfl⟩ := h
    constructor
    · intro heq
      exact ⟨(Except.ok.inj heq).symm, core, hmem⟩
    · rintro ⟨rfl, -⟩
      rfl
  · refine ⟨fun heq => (by cases heq), ?_⟩
    rintro ⟨-, core, hmem⟩
    refine absurd ?_ h
    rw [List.any_eq_true]
    exact ⟨_, hmem, by simp⟩

/-- Each profile runs over one core engine. -/
theorem core_unique {p core core' : String} (h : (p, core) ∈ profiles) (h' : (p, core') ∈ profiles) : core = core' := by
  simp only [profiles, List.mem_cons, Prod.mk.injEq, List.not_mem_nil, or_false] at h h'
  obtain ⟨rfl, rfl⟩ | ⟨rfl, rfl⟩ := h
  all_goals simpa [eq_comm] using h'

theorem fitsShape_eq_ok {n : ℕ} {shape : String} {named : Option (String × String)}
    (h : ∀ e ∈ named, e ∈ profiles) :
    fitsShape n shape (named.map Prod.fst) = .ok () ↔
      (∀ e ∈ named, e.2 = shape) ∧ (shape = "crdt" → named.isSome = true) := by
  have hover : ∀ p, p ∈ (profiles.filter (fun e => e.2 = shape)).map Prod.fst ↔ (p, shape) ∈ profiles := by
    intro p
    simp only [List.mem_map, List.mem_filter, decide_eq_true_iff]
    constructor
    · rintro ⟨⟨p', core⟩, ⟨hmem, rfl⟩, rfl⟩
      exact hmem
    · intro hmem
      exact ⟨_, ⟨hmem, rfl⟩, rfl⟩
  cases named with
  | none =>
    simp only [fitsShape, Option.map_none, profileRequired, List.mem_singleton]
    split_ifs with hs <;> simp [hs]
  | some e =>
    obtain ⟨p, core⟩ := e
    have hknown := h _ rfl
    have hfits : (p, shape) ∈ profiles ↔ core = shape :=
      ⟨fun hmem => core_unique hknown hmem, fun heq => heq ▸ hknown⟩
    simp only [fitsShape, Option.map_some, Option.mem_def, Option.some.injEq, forall_eq', Option.isSome_some, implies_true,
      and_true]
    split_ifs with hnil hnot
    · refine ⟨fun heq => (by cases heq), fun heq => ?_⟩
      have := (hover p).mpr (hfits.mpr heq)
      rw [hnil] at this
      cases this
    · exact ⟨fun _ => hfits.mp ((hover p).mp hnot), fun _ => rfl⟩
    · exact ⟨fun heq => (by cases heq), fun heq => absurd ((hover p).mpr (hfits.mpr heq)) hnot⟩

/-! ### Tails -/

/-- A tail read so far. -/
def tailState (gladeId : String) (entries : List TailEntry) : BindingTail × List String :=
  (tailOf gladeId entries, entries.map TailEntry.key)

theorem findSome?_ms_eq_none {entries : List TailEntry} (h : "ttl" ∉ entries.map TailEntry.key) :
    entries.findSome? TailEntry.ms = none := by
  rw [List.findSome?_eq_none_iff]
  intro e he
  cases e with
  | ttl => exact absurd (List.mem_map.mpr ⟨_, he, rfl⟩) h
  | profile => rfl

theorem findSome?_named_eq_none {entries : List TailEntry} (h : "shape-profile" ∉ entries.map TailEntry.key) :
    entries.findSome? TailEntry.named = none := by
  rw [List.findSome?_eq_none_iff]
  intro e he
  cases e with
  | ttl => rfl
  | profile => exact absurd (List.mem_map.mpr ⟨_, he, rfl⟩) h

/-- An entry is read exactly if it is of a known key, not seen before. -/
theorem tailEntry_eq_ok {n : ℕ} {gladeId tok : String} {entries : List TailEntry} {st : BindingTail × List String} :
    tailEntry n (tailState gladeId entries) tok = .ok st ↔
      ∃ e : TailEntry, tok = e.tok ∧ e.key ∉ entries.map TailEntry.key ∧ st = tailState gladeId (entries ++ [e]) := by
  unfold tailEntry tailState
  dsimp only
  constructor
  · intro h
    split at h
    · cases h
    case h_2 key value hsplit =>
      obtain ⟨hsplit, -⟩ := Option.filter_eq_some_iff.mp hsplit
      obtain ⟨rfl, -⟩ := splitOnce_eq_some.mp hsplit
      split_ifs at h with hkey hseen httl
      · subst httl
        cases hms : durationMs n value with
        | error why =>
          rw [hms] at h
          cases h
        | ok ms =>
          rw [hms] at h
          obtain rfl := Except.ok.inj h
          refine ⟨.ttl value ms (durationMs_eq_ok.mp hms), rfl, hseen, ?_⟩
          simp [tailOf, List.findSome?_append, findSome?_ms_eq_none hseen, TailEntry.ms, TailEntry.named, TailEntry.key]
      · have hprofile : key = "shape-profile" := by
          simp only [keys, List.mem_cons, List.not_mem_nil, or_false] at hkey
          tauto
        subst hprofile
        cases hp : profile n value with
        | error why =>
          rw [hp] at h
          cases h
        | ok p =>
          rw [hp] at h
          obtain rfl := Except.ok.inj h
          obtain ⟨rfl, core, hmem⟩ := profile_eq_ok.mp hp
          refine ⟨.profile p core hmem, rfl, hseen, ?_⟩
          simp [tailOf, List.findSome?_append, findSome?_named_eq_none hseen, TailEntry.ms, TailEntry.named, TailEntry.key]
  · rintro ⟨e, rfl, hseen, rfl⟩
    cases e with
    | ttl value ms hms =>
      have hsplit : splitOnce (TailEntry.ttl value ms hms).tok = some ("ttl", value) := splitOnce_eq_some.mpr ⟨rfl, by simp⟩
      rw [hsplit]
      simp only [Option.filter_some, ne_eq, String.reduceEq, not_false_eq_true, decide_true, if_true]
      rw [if_neg (by simp [keys]), if_neg (show "ttl" ∉ _ from hseen), durationMs_eq_ok.mpr hms]
      simp [Except.map, tailOf, List.findSome?_append, findSome?_ms_eq_none hseen, TailEntry.ms, TailEntry.named,
        TailEntry.key]
    | profile p core hmem =>
      have hsplit : splitOnce (TailEntry.profile p core hmem).tok = some ("shape-profile", p) :=
        splitOnce_eq_some.mpr ⟨rfl, by simp⟩
      rw [hsplit]
      simp only [Option.filter_some, ne_eq, String.reduceEq, not_false_eq_true, decide_true, if_true, if_false]
      rw [if_neg (by simp [keys]), if_neg (show "shape-profile" ∉ _ from hseen), profile_eq_ok.mpr ⟨rfl, core, hmem⟩]
      simp [Except.map, tailOf, List.findSome?_append, findSome?_named_eq_none hseen, TailEntry.ms, TailEntry.named,
        TailEntry.key]

/-- A tail is read exactly if it is entries, each key once. -/
theorem foldlM_tailEntry {n : ℕ} {gladeId : String} {entries : List TailEntry} {toks : List String}
    {st : BindingTail × List String} (hentries : (entries.map TailEntry.key).Nodup) :
    toks.foldlM (tailEntry n) (tailState gladeId entries) = .ok st ↔
      ∃ more : List TailEntry, toks = more.map TailEntry.tok ∧ ((entries ++ more).map TailEntry.key).Nodup ∧
        st = tailState gladeId (entries ++ more) := by
  induction toks generalizing entries with
  | nil =>
    constructor
    · intro h
      obtain rfl := Except.ok.inj h
      exact ⟨[], rfl, by simpa using hentries, by simp⟩
    · rintro ⟨more, hmore, -, rfl⟩
      obtain rfl := List.map_eq_nil_iff.mp hmore.symm
      simp [List.foldlM_nil, pure, Except.pure]
  | cons tok toks ih =>
    have hnodup : ∀ e : TailEntry, e.key ∉ entries.map TailEntry.key → ((entries ++ [e]).map TailEntry.key).Nodup := by
      intro e hkey
      have hall := hentries.concat hkey
      rwa [List.concat_eq_append, ← List.map_singleton, ← List.map_append] at hall
    rw [List.foldlM_cons]
    constructor
    · intro h
      cases hentry : tailEntry n (tailState gladeId entries) tok with
      | error why =>
        rw [hentry] at h
        cases h
      | ok next =>
        rw [hentry] at h
        obtain ⟨e, rfl, hkey, rfl⟩ := tailEntry_eq_ok.mp hentry
        obtain ⟨more, rfl, hall, rfl⟩ := (ih (hnodup e hkey)).mp h
        exact ⟨e :: more, rfl, by simpa using hall, by simp⟩
    · rintro ⟨more, hmore, hall, rfl⟩
      cases more with
      | nil => cases hmore
      | cons e more =>
        obtain ⟨rfl, rfl⟩ := List.cons.inj hmore
        have hkey : e.key ∉ entries.map TailEntry.key := by
          rw [List.map_append, List.map_cons, List.nodup_append] at hall
          exact fun hmem => hall.2.2 _ hmem _ List.mem_cons_self rfl
        rw [tailEntry_eq_ok.mpr ⟨e, rfl, hkey, rfl⟩]
        apply (ih (hnodup e hkey)).mpr
        exact ⟨more, rfl, by simpa using hall, by simp⟩

theorem slid_eq_none {v : AppFileVersion} {zone retention : String} :
    slid v zone retention = none ↔ (v = .v1 → '=' ∉ zone.toList ∧ '=' ∉ retention.toList) := by
  unfold slid
  split_ifs with hv
  · simp [hv]
  · simp [hv]

/-- The profile a tail names is a known one. -/
theorem named_mem_profiles {entries : List TailEntry} : ∀ e ∈ entries.findSome? TailEntry.named, e ∈ profiles := by
  intro e he
  obtain ⟨entry, -, hentry⟩ := List.exists_of_findSome?_eq_some he
  cases entry with
  | ttl => cases hentry
  | profile p core h =>
    obtain rfl := Option.some.inj hentry
    exact h

/-- A binding line's tail is read exactly if the line is one of the language. -/
theorem parseTail_eq_ok {n : ℕ} {v : AppFileVersion} {gladeId shape authority zone retention : String} {toks : List String}
    {tail : Option BindingTail} (hshape : shape ∈ bindingShapes) (hauthority : authority ∈ authorities) :
    parseTail n v gladeId shape zone retention toks = .ok tail ↔
      ∃ entries : List TailEntry, toks = entries.map TailEntry.tok ∧
        BindingLine.Fits v { gladeId, shape, authority, zone, retention, tail := entries } ∧
        tail = if entries = [] then none else some (tailOf gladeId entries) := by
  have hstart : (({ gladeId, ttlMs := none, shapeProfile := none }, []) : BindingTail × List String) = tailState gladeId [] := rfl
  unfold parseTail
  rw [hstart]
  simp only [bind, Except.bind, throw, throwThe, MonadExceptOf.throw, pure, Except.pure]
  constructor
  · intro h
    cases hslots : slid v zone retention with
    | some slot =>
      rw [hslots] at h
      cases h
    | none =>
      rw [hslots] at h
      cases hread : toks.foldlM (tailEntry n) (tailState gladeId []) with
      | error why =>
        rw [hread] at h
        cases h
      | ok st =>
        rw [hread] at h
        obtain ⟨entries, rfl, honce, rfl⟩ := (foldlM_tailEntry (by simp)).mp hread
        rw [List.nil_append] at honce h
        dsimp only [tailState] at h
        by_cases httl : (tailOf gladeId entries).ttlMs.isSome = true ∧ retention ≠ "ttl"
        · rw [if_pos httl] at h
          cases h
        rw [if_neg httl] at h
        cases hfit : fitsShape n shape (tailOf gladeId entries).shapeProfile with
        | error why =>
          rw [hfit] at h
          cases h
        | ok u =>
          rw [hfit] at h
          obtain rfl := Except.ok.inj h
          obtain ⟨hprofile, hneeded⟩ := (fitsShape_eq_ok named_mem_profiles).mp hfit
          refine ⟨entries, rfl, ⟨hshape, hauthority, honce, ?_, hprofile, hneeded, slid_eq_none.mp hslots⟩, by simp⟩
          intro hms
          by_contra hne
          exact httl ⟨hms, hne⟩
  · rintro ⟨entries, rfl, hfits, rfl⟩
    rw [slid_eq_none.mpr hfits.slots]
    have hread := (@foldlM_tailEntry n gladeId [] _ (tailState gladeId entries) List.nodup_nil).mpr ⟨entries,
      rfl, hfits.once, rfl⟩
    rw [hread]
    have hfit := (@fitsShape_eq_ok n shape _ named_mem_profiles).mpr ⟨hfits.profile, hfits.needed⟩
    dsimp only [tailState, tailOf]
    rw [if_neg (fun h => h.2 (hfits.ttl h.1)), hfit]
    simp

/-! ### Lines -/

/-- A file read so far: its header, its app, and these directives. -/
def parsingOf (v : AppFileVersion) (headerLine : ℕ) (app : String) (items : List (Directive × ℕ)) : Parsing :=
  { decl := declOf v headerLine app items, versioned := true, gladeIds := items.filterMap fun item => item.1.gladeId }

/-- One more directive declares what it declares after the others. -/
theorem declOf_append (v : AppFileVersion) (headerLine : ℕ) (app : String) (items : List (Directive × ℕ)) (d : Directive)
    (n : ℕ) :
    declOf v headerLine app (items ++ [(d, n)]) =
      let before := declOf v headerLine app items
      { before with
        bindings := before.bindings ++ (d.bindingDecl app).toList
        tails := before.tails ++ d.tail.toList
        services := before.services ++ (d.serviceDefinition app).toList
        seeds := before.seeds ++ d.grant.toList
        seedLines := before.seedLines ++ if d.grant.isSome then [n] else []
        revocations := before.revocations ++ d.revocation.toList
        revocationLines := before.revocationLines ++ if d.revocation.isSome then [n] else []
        workspaces := before.workspaces ++ d.workspaceDecl.toList
        warnings := before.warnings ++ d.warnings v n } := by
  have hfilterMap : ∀ {α : Type} (f : Directive → Option α), (items ++ [(d, n)]).filterMap (fun item => f item.1) =
      items.filterMap (fun item => f item.1) ++ (f d).toList := by
    intro α f
    rw [List.filterMap_append]
    cases hf : f d with
    | none => simp [hf]
    | some a => simp [hf]
  have hlines : ∀ p : Directive → Bool, ((items ++ [(d, n)]).filter fun item => p item.1).map Prod.snd =
      ((items.filter fun item => p item.1).map Prod.snd) ++ if p d then [n] else [] := by
    intro p
    cases hp : p d <;> simp [List.filter_append, hp]
  simp only [declOf, hfilterMap, hlines (fun d => d.grant.isSome), hlines (fun d => d.revocation.isSome),
    List.flatMap_append, List.flatMap_singleton, List.append_assoc]

theorem mapM_warning (v : AppFileVersion) (n : ℕ) (us : List Unaccepted) :
    us.mapM (warning v n) = .ok (us.map (told v n)) := by
  have hwarning : warning v n = fun u => .ok (told v n u) := by
    funext u
    simp [warning, v1TokenChecksRefuse]
  rw [hwarning]
  exact List.mapM_pure

theorem pushGladeId_eq_ok {seen ids : List String} {id : String} {line : ℕ} :
    pushGladeId seen id line = .ok ids ↔ id ∉ seen ∧ ids = seen ++ [id] := by
  refine ⟨mem_pushGladeId, ?_⟩
  rintro ⟨hid, rfl⟩
  simp [pushGladeId, hid]

/-- The shares of a file's workspaces are those its lines declare. -/
theorem shares_declOf (v : AppFileVersion) (headerLine : ℕ) (app : String) (items : List (Directive × ℕ)) :
    (declOf v headerLine app items).workspaces.map (·.share) = items.filterMap fun item => item.1.share := by
  rw [declOf, List.map_filterMap]
  congr 1
  funext item
  cases item.1 <;> rfl

variable {v : AppFileVersion} {headerLine n : ℕ} {appName : String} {items : List (Directive × ℕ)} {args : List String}
  {st : Parsing}

/-- A line read is one more directive. -/
theorem parsingOf_append (d : Directive) :
    parsingOf v headerLine appName (items ++ [(d, n)]) =
      { decl := declOf v headerLine appName (items ++ [(d, n)]), versioned := true
        gladeIds := items.filterMap (fun item => item.1.gladeId) ++ d.gladeId.toList } := by
  unfold parsingOf
  rw [List.filterMap_append]
  cases hid : d.gladeId <;> simp [hid]

theorem parsingOf_binding (b : BindingLine) :
    parsingOf v headerLine appName (items ++ [(.binding b, n)]) =
      let st := parsingOf v headerLine appName items
      let registered : BindingDecl :=
        { app := appName, gladeId := b.gladeId, shape := b.shape, authority := b.authority, zone := b.zone,
          retention := storedRetention b.retention }
      let decl := { st.decl with
                    bindings := st.decl.bindings ++ [registered]
                    tails := st.decl.tails ++ (if b.tail = [] then none else some (tailOf b.gladeId b.tail)).toList }
      { st with decl := decl.warn (externalTold n b.authority ++ (unaccepted b.zone b.retention).map (told v n))
                gladeIds := st.gladeIds ++ [b.gladeId] } := by
  rw [parsingOf_append, declOf_append]
  simp [parsingOf, AppDecl.warn, Directive.bindingDecl, Directive.tail, Directive.serviceDefinition, Directive.grant,
    Directive.revocation, Directive.workspaceDecl, Directive.warnings, Directive.gladeId]

theorem parsingOf_service (name gladeId : String) :
    parsingOf v headerLine appName (items ++ [(.service name gladeId, n)]) =
      let st := parsingOf v headerLine appName items
      { st with decl := { st.decl with services := st.decl.services ++ [{ app := appName, name, gladeId }] }
                gladeIds := st.gladeIds ++ [gladeId] } := by
  rw [parsingOf_append, declOf_append]
  simp [parsingOf, Directive.bindingDecl, Directive.tail, Directive.serviceDefinition, Directive.grant,
    Directive.revocation, Directive.workspaceDecl, Directive.warnings, Directive.gladeId]

theorem parsingOf_seed (principal share listed : String) :
    parsingOf v headerLine appName (items ++ [(.seed principal share listed, n)]) =
      let st := parsingOf v headerLine appName items
      let verbs := Directive.verbsOf listed
      let g : CapabilityGrant := { principal, share, verbs }
      let decl := { st.decl with seeds := st.decl.seeds ++ [g]
                                 seedLines := st.decl.seedLines ++ [n] }
      { st with decl := decl.warn (capitalsTold n principal ++ verbsTold n listed verbs) } := by
  rw [parsingOf_append, declOf_append]
  simp [parsingOf, AppDecl.warn, Directive.bindingDecl, Directive.tail, Directive.serviceDefinition, Directive.grant,
    Directive.revocation, Directive.workspaceDecl, Directive.warnings, Directive.gladeId]

theorem parsingOf_revoke (principal share : String) :
    parsingOf v headerLine appName (items ++ [(.revoke principal share, n)]) =
      let st := parsingOf v headerLine appName items
      let t : CapabilityRevocation := { principal, share }
      let decl := { st.decl with revocations := st.decl.revocations ++ [t]
                                 revocationLines := st.decl.revocationLines ++ [n] }
      { st with decl := decl.warn (capitalsTold n principal) } := by
  rw [parsingOf_append, declOf_append]
  simp [parsingOf, AppDecl.warn, Directive.bindingDecl, Directive.tail, Directive.serviceDefinition, Directive.grant,
    Directive.revocation, Directive.workspaceDecl, Directive.warnings, Directive.gladeId]

theorem parsingOf_workspace (share name : String) :
    parsingOf v headerLine appName (items ++ [(.workspace share name, n)]) =
      let st := parsingOf v headerLine appName items
      { st with decl := { st.decl with workspaces := st.decl.workspaces ++ [{ share, name }] } } := by
  rw [parsingOf_append, declOf_append]
  simp [parsingOf, Directive.bindingDecl, Directive.tail, Directive.serviceDefinition, Directive.grant,
    Directive.revocation, Directive.workspaceDecl, Directive.warnings, Directive.gladeId]

theorem service_eq_ok (happ : appName ≠ "") :
    (parsingOf v headerLine appName items).service n args = .ok st ↔
      ∃ name gladeId, args = [name, gladeId] ∧ gladeId ∉ items.filterMap (fun item => item.1.gladeId) ∧
        st = parsingOf v headerLine appName (items ++ [(.service name gladeId, n)]) := by
  unfold Parsing.service
  rw [if_neg (show (parsingOf v headerLine appName items).decl.app ≠ "" from happ)]
  simp only [bind, Except.bind, pure, Except.pure]
  constructor
  · intro h
    split at h
    case h_2 => cases h
    case h_1 name gladeId =>
      split at h
      · cases h
      case h_2 ids hids =>
        obtain rfl := Except.ok.inj h
        obtain ⟨hnew, rfl⟩ := mem_pushGladeId hids
        exact ⟨name, gladeId, rfl, hnew, (parsingOf_service name gladeId).symm⟩
  · rintro ⟨name, gladeId, rfl, hnew, rfl⟩
    have hids : pushGladeId (parsingOf v headerLine appName items).gladeIds gladeId n = .ok _ :=
      pushGladeId_eq_ok.mpr ⟨hnew, rfl⟩
    dsimp only
    rw [hids, parsingOf_service]
    rfl

theorem seed_eq_ok (happ : appName ≠ "") :
    (parsingOf v headerLine appName items).seed n args = .ok st ↔
      ∃ principal share listed, args = [principal, share, listed] ∧
        st = parsingOf v headerLine appName (items ++ [(.seed principal share listed, n)]) := by
  unfold Parsing.seed
  rw [if_neg (show (parsingOf v headerLine appName items).decl.app ≠ "" from happ)]
  constructor
  · intro h
    split at h
    case h_2 => cases h
    case h_1 principal share listed =>
      obtain rfl := Except.ok.inj h
      exact ⟨principal, share, listed, rfl, (parsingOf_seed principal share listed).symm⟩
  · rintro ⟨principal, share, listed, rfl, rfl⟩
    rw [parsingOf_seed]
    rfl

theorem revoke_eq_ok (happ : appName ≠ "") :
    (parsingOf v headerLine appName items).revoke n args = .ok st ↔
      ∃ principal share, args = [principal, share] ∧
        st = parsingOf v headerLine appName (items ++ [(.revoke principal share, n)]) := by
  unfold Parsing.revoke
  rw [if_neg (show (parsingOf v headerLine appName items).decl.app ≠ "" from happ)]
  constructor
  · intro h
    split at h
    case h_2 => cases h
    case h_1 principal share =>
      obtain rfl := Except.ok.inj h
      exact ⟨principal, share, rfl, (parsingOf_revoke principal share).symm⟩
  · rintro ⟨principal, share, rfl, rfl⟩
    rw [parsingOf_revoke]

theorem workspace_eq_ok (happ : appName ≠ "") :
    (parsingOf v headerLine appName items).workspace n args = .ok st ↔
      ∃ share name, args = [share, name] ∧ share ∉ items.filterMap (fun item => item.1.share) ∧
        st = parsingOf v headerLine appName (items ++ [(.workspace share name, n)]) := by
  have hshares : ∀ share, (parsingOf v headerLine appName items).decl.workspaces.any (fun w => w.share = share) = true ↔
      share ∈ items.filterMap (fun item => item.1.share) := by
    intro share
    rw [← shares_declOf v headerLine appName, List.any_eq_true]
    simp [parsingOf]
  unfold Parsing.workspace
  rw [if_neg (show (parsingOf v headerLine appName items).decl.app ≠ "" from happ)]
  constructor
  · intro h
    split at h
    case h_2 => cases h
    case h_1 share name =>
      split_ifs at h with hshare
      obtain rfl := Except.ok.inj h
      exact ⟨share, name, rfl, fun hmem => hshare ((hshares share).mpr hmem), (parsingOf_workspace share name).symm⟩
  · rintro ⟨share, name, rfl, hshare, rfl⟩
    dsimp only
    rw [if_neg (fun hany => hshare ((hshares share).mp hany)), parsingOf_workspace]

theorem binding_eq_ok (happ : appName ≠ "") :
    (parsingOf v headerLine appName items).binding n args = .ok st ↔
      ∃ b : BindingLine, "binding" :: args = (Directive.binding b).toks ∧ b.Fits v ∧
        b.gladeId ∉ items.filterMap (fun item => item.1.gladeId) ∧
        st = parsingOf v headerLine appName (items ++ [(.binding b, n)]) := by
  unfold Parsing.binding
  rw [if_neg (show (parsingOf v headerLine appName items).decl.app ≠ "" from happ)]
  simp only [bind, Except.bind, pure, Except.pure, mapM_warning]
  constructor
  · intro h
    split at h
    case h_2 => cases h
    case h_1 gladeId shape authority zone retention rest =>
      split_ifs at h with hknown hshape hauthority
      split at h
      · cases h
      case h_2 tail htail =>
        split at h
        · cases h
        case h_2 ids hids =>
          obtain rfl := Except.ok.inj h
          obtain ⟨hnew, rfl⟩ := mem_pushGladeId hids
          obtain ⟨entries, rfl, hfits, rfl⟩ := (parseTail_eq_ok hshape hauthority).mp htail
          let b : BindingLine := { gladeId, shape, authority, zone, retention, tail := entries }
          exact ⟨b, rfl, hfits, hnew, (parsingOf_binding b).symm⟩
  · rintro ⟨b, hargs, hfits, hnew, rfl⟩
    obtain ⟨gladeId, shape, authority, zone, retention, entries⟩ := b
    obtain rfl := (List.cons.inj hargs).2
    have hknown : ∀ shape ∈ bindingShapes, shape ∈ knownShapes := by decide
    have htail := (parseTail_eq_ok (n := n) hfits.shape hfits.authority).mpr ⟨entries, rfl, hfits, rfl⟩
    have hids : pushGladeId (parsingOf v headerLine appName items).gladeIds gladeId n = .ok _ :=
      pushGladeId_eq_ok.mpr ⟨hnew, rfl⟩
    dsimp only
    rw [if_neg (not_not.mpr (hknown _ hfits.shape)), if_neg (not_not.mpr hfits.shape), if_neg (not_not.mpr hfits.authority)]
    rw [show (parsingOf v headerLine appName items).decl.version = v from rfl, htail, hids, parsingOf_binding]
    rfl

/-- A line after the file's app is read exactly if it is a directive of the
language, and declares neither a glade id nor a share again. -/
theorem line_eq_ok (happ : appName ≠ "") {raw : List Char × ℕ} (htoks : splitWhitespace (content raw.1) ≠ []) :
    (parsingOf v headerLine appName items).line raw = .ok st ↔
      ∃ d : Directive, splitWhitespace (content raw.1) = d.toks ∧ d.Fits v ∧
        (∀ id ∈ d.gladeId, id ∉ items.filterMap (fun item => item.1.gladeId)) ∧
        (∀ share ∈ d.share, share ∉ items.filterMap (fun item => item.1.share)) ∧
        st = parsingOf v headerLine appName (items ++ [(d, raw.2 + 1)]) := by
  unfold Parsing.line
  dsimp only
  cases hraw : splitWhitespace (content raw.1) with
  | nil => exact absurd hraw htoks
  | cons keyword args =>
    dsimp only
    rw [if_neg (show ¬ ¬ (parsingOf v headerLine appName items).versioned = true by simp [parsingOf])]
    constructor
    · intro h
      split_ifs at h with h1 h2 h3 h4 h5 h6
      · -- The file's app is named already.
        unfold Parsing.app at h
        split at h
        · rw [if_pos (show (parsingOf v headerLine appName items).decl.app ≠ "" from happ)] at h
          cases h
        · cases h
      · obtain ⟨b, hargs, hfits, hnew, rfl⟩ := (binding_eq_ok happ).mp h
        exact ⟨.binding b, by rw [← hargs, h2], hfits, by simpa [Directive.gladeId] using hnew, by simp [Directive.share], rfl⟩
      · obtain ⟨name, gladeId, rfl, hnew, rfl⟩ := (service_eq_ok happ).mp h
        exact ⟨.service name gladeId, by rw [h3]; rfl, trivial, by simpa [Directive.gladeId] using hnew,
          by simp [Directive.share], rfl⟩
      · obtain ⟨principal, share, listed, rfl, rfl⟩ := (seed_eq_ok happ).mp h
        exact ⟨.seed principal share listed, by rw [h4]; rfl, trivial, by simp [Directive.gladeId],
          by simp [Directive.share], rfl⟩
      · obtain ⟨principal, share, rfl, rfl⟩ := (revoke_eq_ok happ).mp h
        exact ⟨.revoke principal share, by rw [h5]; rfl, trivial, by simp [Directive.gladeId], by simp [Directive.share], rfl⟩
      · obtain ⟨share, name, rfl, hnew, rfl⟩ := (workspace_eq_ok happ).mp h
        exact ⟨.workspace share name, by rw [h6]; rfl, trivial, by simp [Directive.gladeId],
          by simpa [Directive.share] using hnew, rfl⟩
    · rintro ⟨d, hd, hfits, hid, hshare, rfl⟩
      cases d with
      | binding b =>
        obtain ⟨rfl, rfl⟩ := List.cons.inj hd
        rw [if_neg (by decide), if_pos rfl]
        exact (binding_eq_ok happ).mpr ⟨b, rfl, hfits, hid _ rfl, rfl⟩
      | service name gladeId =>
        obtain ⟨rfl, rfl⟩ := List.cons.inj hd
        rw [if_neg (by decide), if_neg (by decide), if_pos rfl]
        exact (service_eq_ok happ).mpr ⟨name, gladeId, rfl, hid _ rfl, rfl⟩
      | seed principal share listed =>
        obtain ⟨rfl, rfl⟩ := List.cons.inj hd
        rw [if_neg (by decide), if_neg (by decide), if_neg (by decide), if_pos rfl]
        exact (seed_eq_ok happ).mpr ⟨principal, share, listed, rfl, rfl⟩
      | revoke principal share =>
        obtain ⟨rfl, rfl⟩ := List.cons.inj hd
        rw [if_neg (by decide), if_neg (by decide), if_neg (by decide), if_neg (by decide), if_pos rfl]
        exact (revoke_eq_ok happ).mpr ⟨principal, share, rfl, rfl⟩
      | workspace share name =>
        obtain ⟨rfl, rfl⟩ := List.cons.inj hd
        rw [if_neg (by decide), if_neg (by decide), if_neg (by decide), if_neg (by decide), if_neg (by decide), if_pos rfl]
        exact (workspace_eq_ok happ).mpr ⟨share, name, rfl, hshare _ rfl, rfl⟩

/-! ### Files -/

/-- A file's blank lines are read over. -/
theorem foldlM_line_nil {raws : List (List Char × ℕ)} (h : tokened raws = []) (st : Parsing) :
    raws.foldlM Parsing.line st = .ok st := by
  induction raws with
  | nil => rfl
  | cons raw raws ih =>
    unfold tokened at h
    by_cases hraw : splitWhitespace (content raw.1) = []
    · have hline : st.line raw = .ok st := by simp [Parsing.line, hraw]
      rw [List.foldlM_cons, hline]
      apply ih
      simpa [tokened, hraw] using h
    · simp [hraw] at h

/-- A file's first line that has tokens is read first. -/
theorem foldlM_line_cons {raws : List (List Char × ℕ)} {toks : List String} {rest : List (List String × ℕ)}
    (h : tokened raws = (toks, n) :: rest) :
    ∃ raw raws', splitWhitespace (content raw.1) = toks ∧ toks ≠ [] ∧ raw.2 + 1 = n ∧ tokened raws' = rest ∧
      ∀ st : Parsing, raws.foldlM Parsing.line st = (st.line raw >>= fun next => raws'.foldlM Parsing.line next) := by
  induction raws with
  | nil => cases h
  | cons raw raws ih =>
    unfold tokened at h
    by_cases hraw : splitWhitespace (content raw.1) = []
    · obtain ⟨first, raws', hfirst, hne, hn, hrest, hrun⟩ := ih (by simpa [tokened, hraw] using h)
      refine ⟨first, raws', hfirst, hne, hn, hrest, fun st => ?_⟩
      have hline : st.line raw = .ok st := by simp [Parsing.line, hraw]
      rw [List.foldlM_cons, hline, ← hrun]
      rfl
    · simp only [List.map_cons, ne_eq, decide_not] at h
      rw [List.filter_cons_of_pos (by simpa using hraw)] at h
      obtain ⟨hfirst, hrest⟩ := List.cons.inj h
      obtain ⟨rfl, rfl⟩ := Prod.mk.inj hfirst
      exact ⟨raw, raws, rfl, hraw, rfl, by simpa [tokened] using hrest, fun st => List.foldlM_cons ..⟩

/-- One more line keeps what the lines declare apart exactly if what it declares is new. -/
theorem nodup_append_one (f : Directive → Option String) (d : Directive) :
    ((items ++ [(d, n)]).filterMap fun item => f item.1).Nodup ↔
      (items.filterMap fun item => f item.1).Nodup ∧ ∀ a ∈ f d, a ∉ items.filterMap fun item => f item.1 := by
  rw [List.filterMap_append]
  cases hd : f d with
  | none => simp [hd]
  | some a =>
    have hone : [(d, n)].filterMap (fun item => f item.1) = [a] := by simp [hd]
    rw [hone, ← List.concat_eq_append, List.nodup_concat]
    simp [and_comm]

/-- The lines after a file's app are read exactly if they are directives that fit together. -/
theorem foldlM_line (happ : appName ≠ "") {raws : List (List Char × ℕ)}
    (hids : (items.filterMap fun item => item.1.gladeId).Nodup) (hshares : (items.filterMap fun item => item.1.share).Nodup) :
    raws.foldlM Parsing.line (parsingOf v headerLine appName items) = .ok st ↔
      ∃ more : List (Directive × ℕ), tokened raws = more.map (fun item => (item.1.toks, item.2)) ∧
        (∀ item ∈ more, item.1.Fits v) ∧ ((items ++ more).filterMap fun item => item.1.gladeId).Nodup ∧
        ((items ++ more).filterMap fun item => item.1.share).Nodup ∧ st = parsingOf v headerLine appName (items ++ more) := by
  generalize hlines : tokened raws = toked
  induction toked generalizing raws items with
  | nil =>
    rw [foldlM_line_nil hlines]
    constructor
    · intro h
      obtain rfl := Except.ok.inj h
      exact ⟨[], rfl, by simp, by simpa using hids, by simpa using hshares, by simp⟩
    · rintro ⟨more, hmore, -, -, -, rfl⟩
      obtain rfl := List.map_eq_nil_iff.mp hmore.symm
      rw [List.append_nil]
  | cons first rest ih =>
    obtain ⟨toks, n⟩ := first
    obtain ⟨raw, raws', rfl, hne, rfl, hrest, hrun⟩ := foldlM_line_cons hlines
    rw [hrun]
    constructor
    · intro h
      cases hline : (parsingOf v headerLine appName items).line raw with
      | error why =>
        rw [hline] at h
        cases h
      | ok next =>
        rw [hline] at h
        obtain ⟨d, hd, hfits, hid, hshare, rfl⟩ := (line_eq_ok happ hne).mp hline
        have hids' := (nodup_append_one Directive.gladeId d (n := raw.2 + 1)).mpr ⟨hids, hid⟩
        have hshares' := (nodup_append_one Directive.share d (n := raw.2 + 1)).mpr ⟨hshares, hshare⟩
        obtain ⟨more, hmore, hall, hgladeIds, hallShares, rfl⟩ := (ih hids' hshares' hrest).mp h
        refine ⟨(d, raw.2 + 1) :: more, by rw [hmore, hd]; rfl, ?_, by simpa using hgladeIds, by simpa using hallShares, by simp⟩
        exact List.forall_mem_cons.mpr ⟨hfits, hall⟩
    · rintro ⟨more, hmore, hfits, hgladeIds, hallShares, rfl⟩
      cases more with
      | nil => cases hmore
      | cons item more =>
        obtain ⟨d, n⟩ := item
        obtain ⟨hfirst, hrest'⟩ := List.cons.inj hmore
        obtain ⟨hd, rfl⟩ := Prod.mk.inj hfirst
        have hsplit : items ++ (d, raw.2 + 1) :: more = (items ++ [(d, raw.2 + 1)]) ++ more := by simp
        rw [hsplit] at hgladeIds hallShares
        have hids' := ((List.filterMap_append ..).symm ▸ hgladeIds).of_append_left
        have hshares' := ((List.filterMap_append ..).symm ▸ hallShares).of_append_left
        have hid := ((nodup_append_one Directive.gladeId d).mp hids').2
        have hshare := ((nodup_append_one Directive.share d).mp hshares').2
        have hline : (parsingOf v headerLine appName items).line raw = .ok _ :=
          (line_eq_ok happ hne).mpr ⟨d, hd, hfits _ List.mem_cons_self, hid, hshare, rfl⟩
        rw [hline]
        exact (ih hids' hshares' hrest).mpr ⟨more, hrest', fun item hitem => hfits item (List.mem_cons_of_mem _ hitem),
          hgladeIds, hallShares, by rw [hsplit]⟩

/-- The lines of a file from its first. -/
theorem foldlM_line_first (happ : appName ≠ "") {raws : List (List Char × ℕ)} :
    raws.foldlM Parsing.line (parsingOf v headerLine appName []) = .ok st ↔
      ∃ items : List (Directive × ℕ), tokened raws = items.map (fun item => (item.1.toks, item.2)) ∧
        (∀ item ∈ items, item.1.Fits v) ∧ (items.filterMap fun item => item.1.gladeId).Nodup ∧
        (items.filterMap fun item => item.1.share).Nodup ∧ st = parsingOf v headerLine appName items := by
  refine (foldlM_line happ ?_ ?_).trans ?_
  · exact List.nodup_nil
  · exact List.nodup_nil
  · simp only [List.nil_append]

/-- A file's first line is read exactly if it is a header. -/
theorem header_line_eq_ok {start : Parsing} (hstart : start = { decl := .empty, versioned := false, gladeIds := [] })
    {raw : List Char × ℕ} (htoks : splitWhitespace (content raw.1) ≠ []) :
    start.line raw = .ok st ↔
      ∃ v, splitWhitespace (content raw.1) = headerToks v ∧ st = parsingOf v (raw.2 + 1) "" [] := by
  subst hstart
  have hblank : ∀ tok ∈ splitWhitespace (content raw.1), ∀ c ∈ tok.toList, isWhitespace c = false :=
    fun tok htok => (mem_splitWhitespace htok).2
  have hread : ∀ v, ({ decl := AppDecl.warn { AppDecl.empty with version := v } (headerTold v (raw.2 + 1)), versioned := true,
                        gladeIds := [] } : Parsing) = parsingOf v (raw.2 + 1) "" [] := by
    intro v
    simp [parsingOf, AppDecl.warn, AppDecl.empty, declOf]
  unfold Parsing.line
  dsimp only
  generalize splitWhitespace (content raw.1) = toks at htoks hblank ⊢
  cases toks with
  | nil => exact absurd rfl htoks
  | cons keyword args =>
    have h0 : " ".intercalate (keyword :: args) = "glade-app v0" ↔ keyword :: args = headerToks .v0 :=
      header_eq_iff hblank htoks .v0
    have h1 : " ".intercalate (keyword :: args) = "glade-app v1" ↔ keyword :: args = headerToks .v1 :=
      header_eq_iff hblank htoks .v1
    dsimp only
    rw [if_pos (by simp)]
    unfold Parsing.header headers
    generalize " ".intercalate (keyword :: args) = line at h0 h1 ⊢
    constructor
    · intro h
      split at h
      · cases h
      case h_2 word v hfind =>
        obtain rfl := Except.ok.inj h
        have hword := List.find?_some hfind
        have hmem := List.mem_of_find?_eq_some hfind
        simp only [List.mem_cons, Prod.mk.injEq, List.not_mem_nil, or_false] at hmem
        rw [decide_eq_true_iff] at hword
        dsimp only at hword
        refine ⟨v, ?_, ?_⟩
        · obtain ⟨rfl, rfl⟩ | ⟨rfl, rfl⟩ := hmem
          · exact h0.mp hword.symm
          · exact h1.mp hword.symm
        · exact hread v
    · rintro ⟨v, hv, rfl⟩
      have hfind : [("glade-app v0", AppFileVersion.v0), ("glade-app v1", .v1)].find? (fun h => h.1 = line) = some (line, v) := by
        cases v with
        | v0 => simp [h0.mpr hv]
        | v1 => simp [h1.mpr hv]
      rw [hfind]
      exact congrArg Except.ok (hread v)

/-- The next is read exactly if it names the file's app. -/
theorem app_line_eq_ok {raw : List Char × ℕ} (htoks : splitWhitespace (content raw.1) ≠ []) :
    (parsingOf v headerLine "" []).line raw = .ok st ↔
      ∃ name, splitWhitespace (content raw.1) = ["app", name] ∧ st = parsingOf v headerLine name [] := by
  have happ : (parsingOf v headerLine "" []).decl.app = "" := rfl
  unfold Parsing.line
  dsimp only
  generalize splitWhitespace (content raw.1) = toks at htoks ⊢
  cases toks with
  | nil => exact absurd rfl htoks
  | cons keyword args =>
    dsimp only
    rw [if_neg (show ¬ ¬ (parsingOf v headerLine "" []).versioned = true by simp [parsingOf])]
    constructor
    · intro h
      split_ifs at h with h1
      · subst h1
        unfold Parsing.app at h
        split at h
        · obtain rfl := Except.ok.inj h
          exact ⟨_, rfl, rfl⟩
        · cases h
      all_goals
        simp only [Parsing.binding, Parsing.service, Parsing.seed, Parsing.revoke, Parsing.workspace, happ, if_true] at h
        cases h
    · rintro ⟨name, htoks, rfl⟩
      obtain ⟨rfl, rfl⟩ := List.cons.inj htoks
      rw [if_pos rfl]
      rfl

/-- What is read by two steps. -/
theorem bind_eq_ok {α β : Type} {x : Except String α} {f : α → Except String β} {b : β} :
    (x >>= f) = .ok b ↔ ∃ a, x = .ok a ∧ f a = .ok b := by
  cases x with
  | error why => simp [bind, Except.bind]
  | ok a => simp [bind, Except.bind]

/-- A text is read exactly if it is one of the grammar, and as what its lines declare. -/
theorem parse_eq_ok {text : String} {d : AppDecl} :
    AppFile.parse text = .ok d ↔
      ∃ v headerLine app items, Accepts text v headerLine app items ∧ d = declOf v headerLine app items := by
  unfold AppFile.parse
  rw [bind_eq_ok]
  constructor
  · rintro ⟨st, hst, h⟩
    simp only [bind, Except.bind, throw, throwThe, MonadExceptOf.throw, pure, Except.pure] at h
    split_ifs at h with hversioned happ
    obtain rfl := Except.ok.inj h
    cases hlines : nonblank text with
    | nil =>
      rw [foldlM_line_nil hlines] at hst
      obtain rfl := Except.ok.inj hst
      simp at hversioned
    | cons first rest =>
      obtain ⟨toks, n⟩ := first
      obtain ⟨raw, raws, rfl, hne, rfl, hrest, hrun⟩ := foldlM_line_cons hlines
      rw [hrun, bind_eq_ok] at hst
      obtain ⟨headed, hheaded, hst⟩ := hst
      obtain ⟨v, hv, rfl⟩ := (header_line_eq_ok rfl hne).mp hheaded
      cases rest with
      | nil =>
        rw [foldlM_line_nil hrest] at hst
        obtain rfl := Except.ok.inj hst
        exact absurd rfl happ
      | cons second rest =>
        obtain ⟨toks, m⟩ := second
        obtain ⟨raw', raws', rfl, hne', rfl, hrest', hrun'⟩ := foldlM_line_cons hrest
        rw [hrun', bind_eq_ok] at hst
        obtain ⟨named, hnamed, hst⟩ := hst
        obtain ⟨name, hname, rfl⟩ := (app_line_eq_ok hne').mp hnamed
        have happ' : name ≠ "" := (mem_splitWhitespace (hname ▸ List.mem_cons_of_mem _ List.mem_cons_self)).1
        obtain ⟨items, hitems, hfits, hids, hshares, rfl⟩ := (foldlM_line_first happ').mp hst
        refine ⟨v, raw.2 + 1, name, items, ⟨⟨raw'.2 + 1, ?_⟩, hfits, hids, hshares⟩, rfl⟩
        rw [hlines, hv, hname, ← hitems, hrest']
  · rintro ⟨v, headerLine, app, items, haccepts, rfl⟩
    obtain ⟨n, hlines⟩ := haccepts.lines
    obtain ⟨raw, raws, htoks, hne, rfl, hrest, hrun⟩ := foldlM_line_cons hlines
    obtain ⟨raw', raws', htoks', hne', rfl, hrest', hrun'⟩ := foldlM_line_cons hrest
    have happ : app ≠ "" := by
      have hmem : app ∈ splitWhitespace (content raw'.1) := htoks' ▸ List.mem_cons_of_mem _ List.mem_cons_self
      exact (mem_splitWhitespace hmem).1
    refine ⟨parsingOf v (raw.2 + 1) app items, ?_, ?_⟩
    · have hitems : raws'.foldlM Parsing.line (parsingOf v (raw.2 + 1) app []) = .ok (parsingOf v (raw.2 + 1) app items) :=
        (foldlM_line_first happ).mpr ⟨items, hrest', haccepts.fits, haccepts.gladeIds, haccepts.shares, rfl⟩
      rw [hrun, bind_eq_ok]
      refine ⟨_, (header_line_eq_ok rfl (htoks ▸ hne)).mpr ⟨v, htoks, rfl⟩, ?_⟩
      rw [hrun', bind_eq_ok]
      exact ⟨_, (app_line_eq_ok (htoks' ▸ hne')).mpr ⟨app, htoks', rfl⟩, hitems⟩
    · simp only [bind, Except.bind, pure, Except.pure]
      rw [if_neg (by simp [parsingOf]), if_neg (show (parsingOf v (raw.2 + 1) app items).decl.app ≠ "" from happ)]
      rfl

/-- What a line of the new language declares, one of the old declares too. -/
theorem Directive.Fits.old {d : Directive} (h : d.Fits .v1) : d.Fits .v0 := by
  cases d with
  | binding b =>
    refine ⟨h.shape, h.authority, h.once, h.ttl, h.profile, h.needed, ?_⟩
    intro hv
    cases hv
  | service => trivial
  | seed => trivial
  | revoke => trivial
  | workspace => trivial

/-- An app file parses exactly if it is one of the grammar: a header, its app, and
directives, each line to the token, whose glade ids and whose shares are each
declared once. What it declares is what its lines do, in their order. A file of
the new language is one of the old under the old header, and declares the same. -/
theorem appfile_grammar :
    (∀ (text : String) (d : AppDecl), AppFile.parse text = .ok d ↔
      ∃ v headerLine app items, Accepts text v headerLine app items ∧ d = declOf v headerLine app items) ∧
    ∀ (text text' : String) (n : ℕ) (rest : List (List String × ℕ)) (d : AppDecl),
      nonblank text = (headerToks .v1, n) :: rest → nonblank text' = (headerToks .v0, n) :: rest →
      AppFile.parse text = .ok d →
      ∃ d', AppFile.parse text' = .ok d' ∧ d'.app = d.app ∧ d'.bindings = d.bindings ∧ d'.tails = d.tails ∧
        d'.services = d.services ∧ d'.seeds = d.seeds ∧ d'.seedLines = d.seedLines ∧
        d'.revocations = d.revocations ∧ d'.revocationLines = d.revocationLines ∧ d'.workspaces = d.workspaces := by
  refine ⟨fun _ _ => parse_eq_ok, ?_⟩
  intro text text' n rest d hnew hold hparse
  obtain ⟨v, headerLine, app, items, haccepts, rfl⟩ := parse_eq_ok.mp hparse
  obtain ⟨m, hlines⟩ := haccepts.lines
  rw [hnew] at hlines
  obtain ⟨hheader, rfl⟩ := List.cons.inj hlines
  obtain ⟨hv, rfl⟩ := Prod.mk.inj hheader
  have hnewer : v = .v1 := by
    cases v with
    | v0 => simp [headerToks] at hv
    | v1 => rfl
  subst hnewer
  have hold' : Accepts text' .v0 n app items :=
    ⟨⟨m, hold⟩, fun item hitem => (haccepts.fits item hitem).old, haccepts.gladeIds, haccepts.shares⟩
  exact ⟨_, parse_eq_ok.mpr ⟨.v0, n, app, items, hold', rfl⟩, rfl, rfl, rfl, rfl, rfl, rfl, rfl, rfl, rfl⟩

end Glade.AppFile
