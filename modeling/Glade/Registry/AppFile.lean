import Glade.Node.Records

/-! App files (`node/src/appdecl.rs`, `appdecl/tail.rs`): a text of declaration
lines, read into the records its app contributes. A file is one app's, and names
each glade id and each workspace share once. -/

namespace Glade.AppFile

open Node

/-! ### Text -/

/-- Unicode's `White_Space`. -/
def isWhitespace (c : Char) : Bool :=
  let n := c.toNat
  (9 ≤ n && n ≤ 13) || n == 0x20 || n == 0x85 || n == 0xA0 || n == 0x1680 || (0x2000 ≤ n && n ≤ 0x200A) || n == 0x2028 ||
    n == 0x2029 || n == 0x202F || n == 0x205F || n == 0x3000

def isAsciiDigit (c : Char) : Bool := '0' ≤ c && c ≤ '9'
def isAsciiUppercase (c : Char) : Bool := 'A' ≤ c && c ≤ 'Z'
def isAsciiHexdigit (c : Char) : Bool := isAsciiDigit c || ('a' ≤ c && c ≤ 'f') || ('A' ≤ c && c ≤ 'F')

/-- The lines of a text, without their endings. -/
def lines (text : List Char) : List (List Char) :=
  let pieces := text.splitOn '\n'
  let ended := pieces.dropLast.map fun line => if line.getLast? = some '\r' then line.dropLast else line
  -- After the last line feed there is a line only where there is text.
  ended ++ (pieces.getLast?.filter (fun line => line ≠ [])).toList

/-- A line without its comment and the whitespace around it. -/
def content (raw : List Char) : List Char :=
  ((raw.takeWhile (fun c => c ≠ '#')).dropWhile isWhitespace).rdropWhile isWhitespace

def splitWhitespace (line : List Char) : List String :=
  ((line.splitOnP isWhitespace).filter (fun tok => tok ≠ [])).map String.ofList

/-- The parts of a token around its first `=`. -/
def splitOnce (tok : String) : Option (String × String) :=
  let (key, rest) := tok.toList.span (fun c => c ≠ '=')
  match rest with
  | [] => none
  | _ :: value => some (String.ofList key, String.ofList value)

/-- How a list of tokens is shown. -/
def debug (toks : List String) : String :=
  "[" ++ ", ".intercalate (toks.map fun tok => "\"" ++ tok ++ "\"") ++ "]"

/-! ### What a file declares -/

/-- The language a file's header names. -/
inductive AppFileVersion where
  | v0
  | v1
  deriving DecidableEq

/-- A binding line's keyword tail. -/
structure BindingTail where
  gladeId : String
  ttlMs : Option ℕ
  shapeProfile : Option String
  deriving DecidableEq

structure WorkspaceDecl where
  share : String
  name : String

/-- A parsed app file. -/
structure AppDecl where
  version : AppFileVersion
  app : String
  bindings : List BindingDecl
  tails : List BindingTail
  services : List ServiceDefinition
  seeds : List CapabilityGrant
  /-- The line each seed is on. -/
  seedLines : List ℕ
  revocations : List CapabilityRevocation
  /-- The line each revocation is on. -/
  revocationLines : List ℕ
  workspaces : List WorkspaceDecl
  warnings : List String

/-- No line yet. -/
def AppDecl.empty : AppDecl :=
  { version := .v0, app := "", bindings := [], tails := [], services := [], seeds := [], seedLines := [], revocations := [],
    revocationLines := [], workspaces := [], warnings := [] }

def AppDecl.warn (d : AppDecl) (warnings : List String) : AppDecl := { d with warnings := d.warnings ++ warnings }

/-! ### The vocabulary -/

def knownShapes : List String := ["value", "log", "message", "stream", "exchange", "window", "swmr", "crdt", "atom"]
def bindingShapes : List String := ["value", "log", "swmr", "crdt"]
def reservedShapes : List String := ["message", "window", "atom"]
def bindingTemplate : String :=
  "binding <glade_id> <shape> <authority> <zone> <retention> [ttl=<duration>] [shape-profile=<profile>]"
def zones : List String := ["commons", "private"]
def retentions : List String := ["latest", "from-cursor", "ttl"]
def authorities : List String := ["share", "external"]
def headers : List (String × AppFileVersion) := [("glade-app v0", .v0), ("glade-app v1", .v1)]

/-- The retentions a file may not write, each with what a file of each language is told. -/
def refusedRetentions : List (String × String × String) :=
  [("windowed", "unknown retention `windowed` (removed; use `from-cursor`)",
      "retention `windowed` was removed in `glade-app v1` (use `from-cursor`)"),
    ("from_cursor", "retention `from_cursor` is the contract's spelling (use `from-cursor` in a file)",
      "retention `from_cursor` is written `from-cursor` in `glade-app v1` (`from_cursor` is the contract's spelling)")]

def v0HeaderWarning : String := "header `glade-app v0` names the old language; write `glade-app v1`"
def headerToWrite : String := "write `glade-app v1` (`glade-app v0` is accepted for old files)"
def v1TokenChecksRefuse : Bool := false
def v1RefusedLater : String := "a later node release refuses the line"
def misplacedV0 : String := "it belongs in the tail, after all five tokens (`glade-app v1` refuses it)"
def externalWarning : String :=
  "authority `external` names no source yet: the binding registers, and nothing acts on it"

/-! ### The tail -/

def keys : List String := ["ttl", "shape-profile"]
def profiles : List (String × String) := [("snapshot_delta", "swmr"), ("text_crdt", "crdt")]
def profileRequired : List String := ["crdt"]
def units : List (String × ℕ) := [("ms", 1), ("s", 1000), ("m", 60000), ("h", 3600000), ("d", 86400000)]

def keysSay : String := "binding keys: " ++ ", ".intercalate (keys.map fun key => s!"`{key}`")
def profilesSay : String := "profiles: " ++ ", ".intercalate (profiles.map fun (p, core) => s!"`{p}` over `{core}`")

/-- What a `key=value` entry is told that stands where `slot` goes. -/
def misplacedTail (slot tok : String) : String :=
  s!"`{tok}` is a key=value entry where <{slot}> goes (the tail follows all five tokens)"

/-- A duration in milliseconds: digits, then one unit. -/
def durationMs (n : ℕ) (value : String) : Except String ℕ :=
  let bad : Except String ℕ := .error (s!"line {n}: bad duration `{value}` (`ttl=` takes a whole number above zero and one " ++
    "unit of ms, s, m, h or d, such as `ttl=10m`)")
  let outOfRange : Except String ℕ := .error s!"line {n}: duration `{value}` is out of range"
  let (number, unit) := value.toList.span isAsciiDigit
  match units.find? (fun u => u.1 = String.ofList unit) with
  | none => bad
  | some (_, scale) =>
    let count := number.foldl (fun count c => 10 * count + (c.toNat - 48)) 0
    if number = [] then bad
    else if 2 ^ 63 ≤ count then outOfRange
    else if count = 0 then bad
    else if 2 ^ 63 ≤ count * scale then outOfRange
    else .ok (count * scale)

/-- A profile, by its exact name. -/
def profile (n : ℕ) (value : String) : Except String String :=
  if profiles.any (fun p => p.1 = value) then .ok value
  else .error s!"line {n}: unknown profile `{value}` ({profilesSay})"

/-- Whether a line's profile, or its absence, fits its shape. -/
def fitsShape (n : ℕ) (shape : String) (profile : Option String) : Except String Unit :=
  let overShape := (profiles.filter (fun p => p.2 = shape)).map Prod.fst
  match profile with
  | some p =>
    if overShape = [] then .error s!"line {n}: shape `{shape}` takes no `shape-profile` ({profilesSay})"
    else if p ∉ overShape then
      let core := ((profiles.find? (fun q => q.1 = p)).map Prod.snd).getD ""
      .error s!"line {n}: profile `{p}` is over `{core}`, not `{shape}`"
    else .ok ()
  | none =>
    if shape ∈ profileRequired then
      let needs := " or ".intercalate (overShape.map fun p => s!"`shape-profile={p}`")
      .error s!"line {n}: shape `{shape}` needs {needs} (a `{shape}` line must name its profile)"
    else .ok ()

/-- Read one entry of a tail, the keys before it seen. -/
def tailEntry (n : ℕ) (st : BindingTail × List String) (tok : String) : Except String (BindingTail × List String) :=
  match (splitOnce tok).filter (fun entry => entry.1 ≠ "") with
  | none => .error s!"line {n}: `{tok}` is not a key=value entry ({keysSay})"
  | some (key, value) =>
    if key ∉ keys then .error s!"line {n}: unknown binding key `{key}` ({keysSay})"
    else if key ∈ st.2 then .error s!"line {n}: repeated binding key `{key}`"
    else if key = "ttl" then
      (durationMs n value).map fun ms => ({ st.1 with ttlMs := some ms }, st.2 ++ [key])
    else (profile n value).map fun p => ({ st.1 with shapeProfile := some p }, st.2 ++ [key])

/-- The slot of a `glade-app v1` line that holds a `key=value` entry. -/
def slid (version : AppFileVersion) (zone retention : String) : Option (String × String) :=
  if version = .v1 then [("zone", zone), ("retention", retention)].find? (fun slot => '=' ∈ slot.2.toList) else none

/-- Read a binding line's tail: none for a line that has none and needs none. -/
def parseTail (n : ℕ) (version : AppFileVersion) (gladeId shape zone retention : String) (toks : List String) :
    Except String (Option BindingTail) := do
  if let some (slot, tok) := slid version zone retention then
    throw s!"line {n}: {misplacedTail slot tok}"
  let (tail, seen) ← toks.foldlM (tailEntry n) ({ gladeId, ttlMs := none, shapeProfile := none }, [])
  if tail.ttlMs.isSome ∧ retention ≠ "ttl" then
    throw s!"line {n}: `ttl=` needs the retention `ttl` (this line's is `{retention}`)"
  fitsShape n shape tail.shapeProfile
  return if seen = [] then none else some tail

/-! ### What a line is told -/

/-- A `*` that does not end a pattern matches only a `*`. -/
def strayStar (verb : String) : Bool :=
  let chars := verb.toList
  let literal :=
    if chars.getLast? = some '*' ∧ 1 < chars.dropLast.length ∧ chars.dropLast.getLast? = some '.' then chars.dropLast
    else chars
  '*' ∈ literal

def strayStarVerb (verb : String) : String :=
  s!"a `*` in the verb `{verb}` matches only a `*`, for only a `*` that ends a pattern `p.*` " ++
    "stands for more, as `read.*` allows every verb that begins `read.`; the grant registers"

def emptyVerb (verbs : String) : String :=
  s!"an empty verb in `{verbs}`, which a comma at either end or two commas together leave, " ++
    "allows nothing; the grant registers"

def capitalisedNodeId (principal : String) : String :=
  s!"the principal `{principal}` is a node's id written with capitals, which names no node: " ++
    "a node's id is lower-case hex, and a client may claim this name; the line registers"

def capitalisedHex (principal : String) : Bool :=
  let chars := principal.toList
  chars.length = 64 && chars.all isAsciiHexdigit && chars.any isAsciiUppercase

/-- A zone or retention that `glade-app v1` does not accept, as a file of each
language is told it. -/
structure Unaccepted where
  v1 : String
  v0 : String

def misplaced (slot tok : String) : Unaccepted :=
  { v1 := misplacedTail slot tok
    v0 := s!"`{tok}` is a key=value entry where <{slot}> goes; {misplacedV0}" }

/-- The tokens of a line's zone and retention that `glade-app v1` does not accept. -/
def unaccepted (zone retention : String) : List Unaccepted :=
  let zoneTold : List Unaccepted :=
    if '=' ∈ zone.toList then [misplaced "zone" zone]
    else if zone ∉ zones then
      [{ v1 := s!"unknown zone `{zone}` (one of {debug zones})"
         v0 := s!"zone `{zone}` is not in `glade-app v1` (one of {debug zones})" }]
    else []
  let retentionTold : List Unaccepted :=
    if '=' ∈ retention.toList then [misplaced "retention" retention]
    else
      match refusedRetentions.find? (fun r => r.1 = retention) with
      | some (_, v1, v0) => [{ v1, v0 }]
      | none =>
        if retention ∉ retentions then
          [{ v1 := s!"unknown retention `{retention}` (one of {debug retentions})"
             v0 := s!"retention `{retention}` is not in `glade-app v1` (one of {debug retentions})" }]
        else []
  zoneTold ++ retentionTold

/-- The warning a file of a language is told it by. -/
def told (version : AppFileVersion) (n : ℕ) (u : Unaccepted) : String :=
  match version with
  | .v1 => s!"line {n}: {u.v1}; {v1RefusedLater}"
  | .v0 => s!"line {n}: {u.v0}"

/-- What a line is told of a token that is not accepted; a later release refuses it under `v1`. -/
def warning (version : AppFileVersion) (n : ℕ) (u : Unaccepted) : Except String String :=
  if version = .v1 ∧ v1TokenChecksRefuse then .error s!"line {n}: {u.v1}" else .ok (told version n u)

/-- What a line of an `external` authority is told. -/
def externalTold (n : ℕ) (authority : String) : List String :=
  if authority = "external" then [s!"line {n}: {externalWarning}"] else []

/-- What a `v0` header is told. -/
def headerTold (version : AppFileVersion) (n : ℕ) : List String :=
  if version = .v0 then [s!"line {n}: {v0HeaderWarning}"] else []

/-- What a line is told of a principal that is a node's id with capitals. -/
def capitalsTold (n : ℕ) (principal : String) : List String :=
  if capitalisedHex principal then [s!"line {n}: {capitalisedNodeId principal}"] else []

/-- What a line is told of its odd verbs; one written twice is told once. -/
def verbsTold (n : ℕ) (listed : String) (verbs : List String) : List String :=
  verbs.zipIdx.flatMap fun (verb, i) =>
    if verb ∈ verbs.take i then []
    else
      (if strayStar verb then [s!"line {n}: {strayStarVerb verb}"] else []) ++
        (if verb = "" then [s!"line {n}: {emptyVerb listed}"] else [])

def unbindable (n : ℕ) (shape : String) : String :=
  let implemented := s!"implemented: {debug bindingShapes}"
  let why :=
    if shape = "exchange" then s!"{implemented}; exchange uses `service`"
    else if shape ∈ reservedShapes then s!"recognised and reserved, not bindable; {implemented}"
    else implemented
  s!"line {n}: unsupported binding shape `{shape}` ({why})"

/-- The retention as the record stores it. -/
def storedRetention (token : String) : String := if token = "from-cursor" then "from_cursor" else token

/-! ### Lines -/

/-- A file read so far: what it declares, whether its header was read, and its glade ids. -/
structure Parsing where
  decl : AppDecl
  versioned : Bool
  gladeIds : List String

/-- Each glade id is one declaration's. -/
def pushGladeId (seen : List String) (id : String) (line : ℕ) : Except String (List String) :=
  if id ∈ seen then .error s!"line {line}: duplicate glade id `{id}`" else .ok (seen ++ [id])

namespace Parsing

/-- The version header, the first declaration line. -/
def header (st : Parsing) (n : ℕ) (line : String) (toks : List String) : Except String Parsing :=
  match headers.find? (fun h => h.1 = " ".intercalate toks) with
  | none => .error s!"line {n}: expected a header, got `{line}`: {headerToWrite}"
  | some (_, version) =>
    .ok { st with decl := { st.decl with version }.warn (headerTold version n), versioned := true }

def app (st : Parsing) (n : ℕ) (args : List String) : Except String Parsing :=
  match args with
  | [name] =>
    if st.decl.app ≠ "" then .error s!"line {n}: duplicate `app` declaration"
    else .ok { st with decl := { st.decl with app := name } }
  | _ => .error s!"line {n}: `app <name>`"

def binding (st : Parsing) (n : ℕ) (args : List String) : Except String Parsing :=
  if st.decl.app = "" then .error s!"line {n}: `app` must be declared before any binding"
  else
    match args with
    | gladeId :: shape :: authority :: zone :: retention :: rest =>
      if shape ∉ knownShapes then .error s!"line {n}: unknown shape `{shape}` (known: {debug knownShapes})"
      else if shape ∉ bindingShapes then .error (unbindable n shape)
      else if authority ∉ authorities then
        .error s!"line {n}: unknown authority `{authority}` (one of {debug authorities})"
      else do
        let tail ← parseTail n st.decl.version gladeId shape zone retention rest
        let gladeIds ← pushGladeId st.gladeIds gladeId n
        let told ← (unaccepted zone retention).mapM (warning st.decl.version n)
        let b : BindingDecl :=
          { app := st.decl.app, gladeId, shape, authority, zone, retention := storedRetention retention }
        let decl := { st.decl with bindings := st.decl.bindings ++ [b], tails := st.decl.tails ++ tail.toList }
        return { st with decl := decl.warn (externalTold n authority ++ told), gladeIds }
    | _ => .error s!"line {n}: `{bindingTemplate}`"

def service (st : Parsing) (n : ℕ) (args : List String) : Except String Parsing :=
  if st.decl.app = "" then .error s!"line {n}: `app` must be declared before any service"
  else
    match args with
    | [name, gladeId] => do
      let gladeIds ← pushGladeId st.gladeIds gladeId n
      let s : ServiceDefinition := { app := st.decl.app, name, gladeId }
      return { st with decl := { st.decl with services := st.decl.services ++ [s] }, gladeIds }
    | _ => .error s!"line {n}: `service <name> <exchange-glade-id>`"

def seed (st : Parsing) (n : ℕ) (args : List String) : Except String Parsing :=
  if st.decl.app = "" then .error s!"line {n}: `app` must be declared before any seed"
  else
    match args with
    | [principal, share, listed] =>
      let verbs := (listed.toList.splitOn ',').map String.ofList
      let g : CapabilityGrant := { principal, share, verbs }
      let decl := { st.decl with seeds := st.decl.seeds ++ [g], seedLines := st.decl.seedLines ++ [n] }
      .ok { st with decl := decl.warn (capitalsTold n principal ++ verbsTold n listed verbs) }
    | _ => .error s!"line {n}: `seed <principal> <share> <verb[,verb...]>`"

def revoke (st : Parsing) (n : ℕ) (args : List String) : Except String Parsing :=
  if st.decl.app = "" then .error s!"line {n}: `app` must be declared before any revoke"
  else
    match args with
    | [principal, share] =>
      let t : CapabilityRevocation := { principal, share }
      let decl := { st.decl with
                    revocations := st.decl.revocations ++ [t], revocationLines := st.decl.revocationLines ++ [n] }
      .ok { st with decl := decl.warn (capitalsTold n principal) }
    | _ => .error s!"line {n}: `revoke <principal> <share>`"

def workspace (st : Parsing) (n : ℕ) (args : List String) : Except String Parsing :=
  if st.decl.app = "" then .error s!"line {n}: `app` must be declared before any workspace"
  else
    match args with
    | [share, name] =>
      if st.decl.workspaces.any (fun w => w.share = share) then
        .error s!"line {n}: duplicate workspace share `{share}`"
      else
        let w : WorkspaceDecl := { share, name }
        .ok { st with decl := { st.decl with workspaces := st.decl.workspaces ++ [w] } }
    | _ => .error s!"line {n}: `workspace <share> <name>`"

/-- Read one line of the file. -/
def line (st : Parsing) (raw : List Char × ℕ) : Except String Parsing :=
  let n := raw.2 + 1
  let own := content raw.1
  match splitWhitespace own with
  | [] => .ok st
  | keyword :: args =>
    if ¬ st.versioned then st.header n (String.ofList own) (keyword :: args)
    else if keyword = "app" then st.app n args
    else if keyword = "binding" then st.binding n args
    else if keyword = "service" then st.service n args
    else if keyword = "seed" then st.seed n args
    else if keyword = "revoke" then st.revoke n args
    else if keyword = "workspace" then st.workspace n args
    else .error s!"line {n}: unknown declaration `{keyword}`"

end Parsing

/-- Parse and validate the text of an app file. -/
def parse (text : String) : Except String AppDecl := do
  let st ← (lines text.toList).zipIdx.foldlM Parsing.line { decl := .empty, versioned := false, gladeIds := [] }
  if ¬ st.versioned then throw s!"empty file: expected a header: {headerToWrite}"
  if st.decl.app = "" then throw "missing `app <name>` declaration"
  return st.decl

/-! ### What a parsed file is -/

/-- A declaration is one app's, and names each glade id and each workspace share once. -/
structure AppDecl.Sound (d : AppDecl) : Prop where
  bindings : ∀ b ∈ d.bindings, b.app = d.app
  services : ∀ s ∈ d.services, s.app = d.app
  gladeIds : (d.bindings.map (·.gladeId) ++ d.services.map (·.gladeId)).Nodup
  shares : (d.workspaces.map (·.share)).Nodup

/-- What a file read so far is. -/
structure Parsing.Sound (st : Parsing) : Prop where
  decl : st.decl.Sound
  seen : ∀ id, id ∈ st.gladeIds ↔ id ∈ st.decl.bindings.map (·.gladeId) ++ st.decl.services.map (·.gladeId)
  /-- Nothing is declared before its app. -/
  named : st.decl.app = "" → st.decl.bindings = [] ∧ st.decl.services = []

theorem mem_pushGladeId {seen ids : List String} {id : String} {line : ℕ} (h : pushGladeId seen id line = .ok ids) :
    id ∉ seen ∧ ids = seen ++ [id] := by
  unfold pushGladeId at h
  split_ifs at h with hid
  exact ⟨hid, (Except.ok.inj h).symm⟩

namespace Parsing

variable {st st' : Parsing} {n : ℕ} {args : List String}

theorem Sound.header (hst : st.Sound) {line : String} {toks : List String} (h : st.header n line toks = .ok st') :
    st'.Sound := by
  unfold Parsing.header at h
  split at h
  · cases h
  · obtain rfl := Except.ok.inj h
    exact ⟨⟨hst.decl.bindings, hst.decl.services, hst.decl.gladeIds, hst.decl.shares⟩, hst.seen, hst.named⟩

theorem Sound.app (hst : st.Sound) (h : st.app n args = .ok st') : st'.Sound := by
  unfold Parsing.app at h
  split at h
  · split_ifs at h with happ
    obtain rfl := Except.ok.inj h
    -- Nothing was declared before this line.
    obtain ⟨hb, hs⟩ := hst.named (not_not.mp happ)
    refine ⟨⟨?_, ?_, hst.decl.gladeIds, hst.decl.shares⟩, hst.seen, fun _ => ⟨hb, hs⟩⟩
    · simp [hb]
    · simp [hs]
  · cases h

theorem Sound.binding (hst : st.Sound) (h : st.binding n args = .ok st') : st'.Sound := by
  unfold Parsing.binding at h
  split_ifs at h with happ
  split at h
  case h_2 => cases h
  case h_1 gladeId shape authority zone retention rest =>
    split_ifs at h
    simp only [bind, Except.bind] at h
    split at h
    · cases h
    split at h
    · cases h
    case h_2 ids hids =>
      split at h
      · cases h
      obtain rfl := Except.ok.inj h
      obtain ⟨hnew, rfl⟩ := mem_pushGladeId hids
      rw [hst.seen] at hnew
      have hgladeIds := hst.decl.gladeIds
      refine ⟨⟨?_, hst.decl.services, ?_, hst.decl.shares⟩, ?_, fun h => absurd h happ⟩
      · simpa [AppDecl.warn, forall_and, or_imp] using hst.decl.bindings
      · simp only [AppDecl.warn, List.map_append, List.map_cons, List.map_nil, List.append_assoc, List.singleton_append]
        rw [List.nodup_middle]
        exact List.nodup_cons.mpr ⟨hnew, hgladeIds⟩
      · intro id
        have := hst.seen id
        simp only [AppDecl.warn, List.map_append, List.mem_append, List.map_cons, List.map_nil, List.mem_singleton] at this ⊢
        tauto

theorem Sound.service (hst : st.Sound) (h : st.service n args = .ok st') : st'.Sound := by
  unfold Parsing.service at h
  split_ifs at h with happ
  split at h
  case h_2 => cases h
  case h_1 name gladeId =>
    simp only [bind, Except.bind] at h
    split at h
    · cases h
    case h_2 ids hids =>
      obtain rfl := Except.ok.inj h
      obtain ⟨hnew, rfl⟩ := mem_pushGladeId hids
      rw [hst.seen] at hnew
      refine ⟨⟨hst.decl.bindings, ?_, ?_, hst.decl.shares⟩, ?_, fun h => absurd h happ⟩
      · simpa [forall_and, or_imp] using hst.decl.services
      · have hids := hst.decl.gladeIds.concat hnew
        rw [List.concat_eq_append, List.append_assoc] at hids
        rwa [List.map_append]
      · intro id
        have := hst.seen id
        simp only [List.map_append, List.mem_append, List.map_cons, List.map_nil, List.mem_singleton] at this ⊢
        tauto

theorem Sound.seed (hst : st.Sound) (h : st.seed n args = .ok st') : st'.Sound := by
  unfold Parsing.seed at h
  split_ifs at h with happ
  split at h
  case h_2 => cases h
  case h_1 =>
    obtain rfl := Except.ok.inj h
    exact ⟨⟨hst.decl.bindings, hst.decl.services, hst.decl.gladeIds, hst.decl.shares⟩, hst.seen, hst.named⟩

theorem Sound.revoke (hst : st.Sound) (h : st.revoke n args = .ok st') : st'.Sound := by
  unfold Parsing.revoke at h
  split_ifs at h with happ
  split at h
  case h_2 => cases h
  case h_1 =>
    obtain rfl := Except.ok.inj h
    exact ⟨⟨hst.decl.bindings, hst.decl.services, hst.decl.gladeIds, hst.decl.shares⟩, hst.seen, hst.named⟩

theorem Sound.workspace (hst : st.Sound) (h : st.workspace n args = .ok st') : st'.Sound := by
  unfold Parsing.workspace at h
  split_ifs at h with happ
  split at h
  case h_2 => cases h
  case h_1 share name =>
    split_ifs at h with hshare
    obtain rfl := Except.ok.inj h
    refine ⟨⟨hst.decl.bindings, hst.decl.services, hst.decl.gladeIds, ?_⟩, hst.seen, hst.named⟩
    have hnew : share ∉ st.decl.workspaces.map (·.share) := by simpa using hshare
    have hshares := hst.decl.shares.concat hnew
    rw [List.concat_eq_append] at hshares
    rwa [List.map_append]

theorem Sound.line (hst : st.Sound) {raw : List Char × ℕ} (h : st.line raw = .ok st') : st'.Sound := by
  unfold Parsing.line at h
  dsimp only at h
  cases htoks : splitWhitespace (content raw.1) with
  | nil =>
    rw [htoks] at h
    obtain rfl := Except.ok.inj h
    exact hst
  | cons keyword args =>
    rw [htoks] at h
    dsimp only at h
    split_ifs at h
    · exact hst.app h
    · exact hst.binding h
    · exact hst.service h
    · exact hst.seed h
    · exact hst.revoke h
    · exact hst.workspace h
    · exact hst.header h

theorem Sound.foldlM (raws : List (List Char × ℕ)) (hst : st.Sound) (h : raws.foldlM Parsing.line st = .ok st') : st'.Sound := by
  induction raws generalizing st with
  | nil =>
    obtain rfl := Except.ok.inj h
    exact hst
  | cons raw raws ih =>
    rw [List.foldlM_cons] at h
    cases hline : st.line raw with
    | error why =>
      rw [hline] at h
      cases h
    | ok next =>
      rw [hline] at h
      exact ih (hst.line hline) h

end Parsing

/-- A file that parses is one app's declarations, each glade id and share its own. -/
theorem sound_of_parse {text : String} {d : AppDecl} (h : parse text = .ok d) : d.Sound := by
  have hstart : Parsing.Sound { decl := .empty, versioned := false, gladeIds := [] } := by
    refine ⟨⟨by simp [AppDecl.empty], by simp [AppDecl.empty], by simp [AppDecl.empty], by simp [AppDecl.empty]⟩, ?_, ?_⟩
    · simp [AppDecl.empty]
    · simp [AppDecl.empty]
  unfold parse at h
  cases hlines : (lines text.toList).zipIdx.foldlM Parsing.line { decl := .empty, versioned := false, gladeIds := [] } with
  | error why =>
    rw [hlines] at h
    cases h
  | ok st =>
    rw [hlines] at h
    simp only [bind, Except.bind] at h
    split_ifs at h
    obtain rfl := Except.ok.inj h
    exact (hstart.foldlM _ hlines).decl

end Glade.AppFile
