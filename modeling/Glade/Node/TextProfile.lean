import Glade.Lib.Json
import Glade.Lib.OrdMap
import Glade.Wire.Cbor

/-! The released text profile's edit shape (`node/src/independent/text_profile.rs`): a
JSON recognizer that walks a text by byte index, keeps what is open on a stack of its
own, and reads one object's members. -/

namespace Glade.Node.TextProfile

open Wire Json

/-- Why a call answers no value: it refuses the text, its index is past the machine's
range, or its loop has not come to an end. -/
inductive Stop where
  | refused
  | panicked
  | stuck
  deriving DecidableEq

abbrev Parse (α : Type) := Except Stop α

/-- `None?` -/
def orRefuse {α : Type} : Option α → Parse α
  | some x => .ok x
  | none => .error .refused

/-- `index += n` -/
def bump (i n : ℕ) : Parse ℕ := if i + n < 2 ^ 64 then .ok (i + n) else .error .panicked

/-! ### The text -/

def asBytes (text : List Char) : Bytes := text.flatMap String.utf8EncodeChar

/-- `text.get(i..)` -/
def sliceFrom : List Char → ℕ → Option (List Char)
  | text, 0 => some text
  | [], _ + 1 => none
  | c :: text, i + 1 => if c.utf8Size ≤ i + 1 then sliceFrom text (i + 1 - c.utf8Size) else none

/-- `text.get(..n)` -/
def sliceTo : List Char → ℕ → Option (List Char)
  | _, 0 => some []
  | [], _ + 1 => none
  | c :: text, n + 1 => if c.utf8Size ≤ n + 1 then (sliceTo text (n + 1 - c.utf8Size)).map (c :: ·) else none

/-- How often a loop may run. -/
def budget (text : List Char) : ℕ := (asBytes text).length + 1

section Parser

variable (text : List Char)

/-- Pass over the bytes `p` holds of. -/
def skip (p : UInt8 → Bool) : ℕ → ℕ → Parse ℕ
  | 0, _ => .error .stuck
  | fuel + 1, i => do
    match (asBytes text)[i]? with
    | some b => if p b then skip p fuel (← bump i 1) else .ok i
    | none => .ok i

def isSpace (b : UInt8) : Bool := b = 32 ∨ b = 10 ∨ b = 13 ∨ b = 9

def space (i : ℕ) : Parse ℕ := skip text isSpace (budget text) i

def token (t : UInt8) (i : ℕ) : Parse ℕ := do
  let i ← space text i
  let b ← orRefuse (asBytes text)[i]?
  if b ≠ t then .error .refused else bump i 1

/-! ### Strings -/

/-- `text.get(i..)?.chars().next()?` -/
def charAt (i : ℕ) : Parse Char := do
  match ← orRefuse (sliceFrom text i) with
  | c :: _ => .ok c
  | [] => .error .refused

/-- `u16::from_str_radix(hex, 16)` of hex digits. -/
def fromHex (hex : List Char) : Option ℕ :=
  hex.foldl (fun n c => do return (← n) * 16 + (← hexValue c)) (some 0)

/-- The code unit that `\u` escapes, and the index behind it. -/
def unicode (i : ℕ) : Parse (UInt16 × ℕ) := do
  let last ← if i + 4 < 2 ^ 64 then .ok (i + 4) else .error .refused
  let hex ← orRefuse ((sliceFrom text i).bind (sliceTo · (last - i)))
  let unit ← orRefuse (fromHex hex)
  return (.ofNat unit, ← bump i 4)

def stringLoop : ℕ → ℕ → List UInt16 → Parse (List UInt16 × ℕ)
  | 0, _, _ => .error .stuck
  | fuel + 1, i, value => do
    let character ← charAt text i
    let i ← bump i character.utf8Size
    if character = '"' then return (value, i)
    else if character = '\\' then
      let escape ← charAt text i
      let i ← bump i escape.utf8Size
      match escaped escape with
      | some unit => stringLoop fuel i (value ++ [unit])
      | none =>
        if escape = 'u' then
          let (unit, i) ← unicode text i
          stringLoop fuel i (value ++ [unit])
        else .error .refused
    else if character < ' ' then .error .refused
    else stringLoop fuel i (value ++ units character)

def string (i : ℕ) : Parse (List UInt16 × ℕ) := do
  let i ← token text 34 i
  stringLoop text (budget text) i []

/-! ### Numbers -/

def isDigit (b : UInt8) : Bool := 48 ≤ b ∧ b ≤ 57

/-- Pass over at least one digit. -/
def digits (i : ℕ) : Parse ℕ := do
  let last ← skip text isDigit (budget text) i
  if last = i then .error .refused else .ok last

/-- A byte that may stand at `i`: the index behind it, if it does. -/
def mayBe (p : UInt8 → Bool) (i : ℕ) : Parse (Option ℕ) := do
  match (asBytes text)[i]? with
  | some b => if p b then return some (← bump i 1) else return none
  | none => return none

/-- `number`'s integer part, its fraction and its exponent. -/
def intPart (i : ℕ) : Parse ℕ := do
  let b ← orRefuse (asBytes text)[i]?
  if b = 48 then bump i 1
  else if 49 ≤ b ∧ b ≤ 57 then do skip text isDigit (budget text) (← bump i 1)
  else .error .refused

def fracPart (i : ℕ) : Parse ℕ := do
  match ← mayBe text (· = 46) i with
  | some i => digits text i
  | none => return i

def expPart (i : ℕ) : Parse ℕ := do
  match ← mayBe text (fun b => b = 101 ∨ b = 69) i with
  | some i => digits text ((← mayBe text (fun b => b = 43 ∨ b = 45) i).getD i)
  | none => return i

def number (i : ℕ) : Parse ℕ := do
  let i ← space text i
  let i := (← mayBe text (· = 45) i).getD i
  let i ← intPart text i
  let i ← fracPart text i
  expPart text i

/-! ### Values -/

/-- `text.get(i..)?.starts_with(literal)`: the index behind the literal, if it does. -/
def literal (expected : String) (i : ℕ) : Parse (Option ℕ) := do
  let rest ← orRefuse (sliceFrom text i)
  if expected.toList <+: rest then return some (← bump i expected.utf8ByteSize) else return none

/-- A primitive, or an opening bracket. -/
def atom (i : ℕ) : Parse (Option Bracket × ℕ) := do
  let i ← space text i
  let b ← orRefuse (asBytes text)[i]?
  if b = 91 then return (some .array, ← bump i 1)
  else if b = 123 then return (some .object, ← bump i 1)
  else if b = 34 then return (none, (← string text i).2)
  else
    match ← literal text "null" i with
    | some i => return (none, i)
    | none =>
      match ← literal text "true" i with
      | some i => return (none, i)
      | none =>
        match ← literal text "false" i with
        | some i => return (none, i)
        | none => return (none, ← number text i)

/-- Where an open bracket stands: before its first value, behind a comma, or behind a value. -/
inductive Place where
  | first
  | next
  | behind
  deriving DecidableEq

/-- The byte that closes a bracket. -/
def closing : Bracket → UInt8
  | .array => 93
  | .object => 125

/-- A member's name and its colon, in an object. -/
def name (opening : Bracket) (i : ℕ) : Parse ℕ :=
  if opening = .object then do token text 58 (← string text i).2 else .ok i

/-- What is open is closed, the last opened first. -/
def compositeLoop : ℕ → List (Bracket × Place) → ℕ → Parse ℕ
  | 0, _, _ => .error .stuck
  | _ + 1, [], i => .ok i
  | fuel + 1, (opening, place) :: stack, i => do
    let i ← space text i
    let b ← orRefuse (asBytes text)[i]?
    if place = .behind then
      if b = closing opening then compositeLoop fuel stack (← bump i 1)
      else compositeLoop fuel ((opening, .next) :: stack) (← token text 44 i)
    else if place = .first ∧ b = closing opening then compositeLoop fuel stack (← bump i 1)
    else
      let (child, i) ← atom text (← name text opening i)
      compositeLoop fuel (child.toList.map (·, .first) ++ (opening, .behind) :: stack) i

def composite (opening : Bracket) (i : ℕ) : Parse ℕ := compositeLoop text (budget text) [(opening, .first)] i

def value (i : ℕ) : Parse (Value × ℕ) := do
  let i ← space text i
  if (asBytes text)[i]? = some 34 then
    let (units, i) ← string text i
    return (.string units, i)
  else
    match ← literal text "null" i with
    | some i => return (.null, i)
    | none =>
      match ← atom text i with
      | (some opening, i) => return (.other, ← composite text opening i)
      | (none, i) => return (.other, i)

/-! ### The object -/

abbrev Fields := Std.ExtTreeMap String Value

def objectLoop : ℕ → Fields → ℕ → Parse Fields
  | 0, _, _ => .error .stuck
  | fuel + 1, fields, i => do
    let (units, i) ← string text i
    let key ← orRefuse (decode units)
    let i ← token text 58 i
    let (value, i) ← value text i
    let fields := fields.insert (String.ofList key) value
    let i ← space text i
    let separator ← orRefuse (asBytes text)[i]?
    let i ← bump i 1
    if separator = 125 then
      let i ← space text i
      if i ≠ (asBytes text).length then .error .refused else return fields
    else if separator ≠ 44 then .error .refused
    else objectLoop fuel fields i

def object : Parse Fields := do
  let i ← token text 123 0
  let i ← space text i
  if (asBytes text)[i]? = some 125 then do
    let _ ← bump i 1
    return ∅
  else objectLoop text (budget text) ∅ i

end Parser

/-- `str::encode_utf16` -/
def encodeUtf16 (s : String) : List UInt16 := s.toList.flatMap units

/-- The value of a member that is a string. -/
def stringOf (fields : Fields) (name : String) : Option (List UInt16) :=
  match fields[name]? with
  | some (.string value) => some value
  | _ => none

/-- `matches!(value, Some(Value::Null | Value::String(_)))` -/
def nullOrString : Option Value → Bool
  | some .null | some (.string _) => true
  | _ => false

/-- Whether the members are an edit's. -/
def isEdit (fields : Fields) : Bool :=
  match stringOf fields "kind", stringOf fields "atom_id" with
  | some kind, some atom =>
    if atom = [] then false
    else if kind = encodeUtf16 "delete" then fields.size = 2
    else kind = encodeUtf16 "insert" && fields.size = 4 && (stringOf fields "text").any (· ≠ []) &&
      nullOrString fields["after"]?
  | _, _ => false

/-- A byte slice, which holds at most `isize::MAX` bytes. -/
abbrev Slice := { bytes : Bytes // bytes.length < 2 ^ 63 }

/-- Whether the bytes are an edit; or the call does not answer. -/
def validTextPayload (bytes : Slice) : Parse Bool :=
  match fromUtf8 bytes.val with
  | none => .ok false
  | some text =>
    match object text.toList with
    | .ok fields => .ok (isEdit fields)
    | .error .refused => .ok false
    | .error stop => .error stop

end Glade.Node.TextProfile
