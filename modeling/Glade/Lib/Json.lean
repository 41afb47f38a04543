import Mathlib

/-! The grammar of JSON texts (RFC 8259), over characters. A symbol relates a text to
what is left of it behind the symbol, so that symbols follow each other by chaining.
A string's value is its UTF-16 code units, and an unpaired surrogate may be escaped. -/

namespace Json

/-! ### UTF-16 -/

/-- A character's UTF-16 code units. -/
def units (c : Char) : List UInt16 :=
  if c.toNat < 0x10000 then [.ofNat c.toNat]
  else [.ofNat (0xD800 + (c.toNat - 0x10000) / 0x400), .ofNat (0xDC00 + (c.toNat - 0x10000) % 0x400)]

/-- The characters of a sequence of code units, where every surrogate is paired. -/
def decode : List UInt16 → Option (List Char)
  | [] => some []
  | [u] => if u.toNat < 0xD800 ∨ 0xE000 ≤ u.toNat then some [Char.ofNat u.toNat] else none
  | u :: v :: rest =>
    if u.toNat < 0xD800 ∨ 0xE000 ≤ u.toNat then (decode (v :: rest)).map (Char.ofNat u.toNat :: ·)
    else if u.toNat < 0xDC00 ∧ 0xDC00 ≤ v.toNat ∧ v.toNat < 0xE000 then
      (decode rest).map (Char.ofNat (0x10000 + (u.toNat - 0xD800) * 0x400 + (v.toNat - 0xDC00)) :: ·)
    else none

theorem toNat_cases (c : Char) : c.toNat < 0xD800 ∨ 0xE000 ≤ c.toNat ∧ c.toNat < 0x110000 := by
  have h := c.valid
  simp only [UInt32.isValidChar, Nat.isValidChar] at h
  change c.toNat < 0xD800 ∨ 0xDFFF < c.toNat ∧ c.toNat < 0x110000 at h
  omega

theorem toNat_ofNat {n : ℕ} (h : n < 0xD800 ∨ 0xE000 ≤ n ∧ n < 0x110000) : (Char.ofNat n).toNat = n := by
  have hv : n.isValidChar := by
    unfold Nat.isValidChar
    omega
  rw [Char.ofNat, dif_pos hv]
  rfl

theorem decode_units (c : Char) (rest : List UInt16) : decode (units c ++ rest) = (decode rest).map (c :: ·) := by
  have hc := toNat_cases c
  unfold units
  split_ifs with hsmall
  · have hu : (UInt16.ofNat c.toNat).toNat = c.toNat := by
      rw [UInt16.toNat_ofNat']
      omega
    have hplain : c.toNat < 0xD800 ∨ 0xE000 ≤ c.toNat := by omega
    cases rest with
    | nil =>
      simp only [List.cons_append, List.nil_append, decode, hu, if_pos hplain, Option.map_some, Char.ofNat_toNat]
    | cons v rest =>
      simp only [List.cons_append, List.nil_append, decode, hu, if_pos hplain, Char.ofNat_toNat]
  · have hhigh : (UInt16.ofNat (0xD800 + (c.toNat - 0x10000) / 0x400)).toNat = 0xD800 + (c.toNat - 0x10000) / 0x400 := by
      rw [UInt16.toNat_ofNat']
      omega
    have hlow : (UInt16.ofNat (0xDC00 + (c.toNat - 0x10000) % 0x400)).toNat = 0xDC00 + (c.toNat - 0x10000) % 0x400 := by
      rw [UInt16.toNat_ofNat']
      omega
    have hpair : 0x10000 + (0xD800 + (c.toNat - 0x10000) / 0x400 - 0xD800) * 0x400 +
        (0xDC00 + (c.toNat - 0x10000) % 0x400 - 0xDC00) = c.toNat := by omega
    simp only [List.cons_append, List.nil_append, decode, hhigh, hlow]
    rw [if_neg (by omega), if_pos (by omega), hpair, Char.ofNat_toNat]

theorem decode_flatMap (cs : List Char) : decode (cs.flatMap units) = some cs := by
  induction cs with
  | nil => rfl
  | cons c cs ih => rw [List.flatMap_cons, decode_units, ih, Option.map_some]

/-- What decodes is the encoding of what it decodes to. -/
theorem decode_eq_some {us : List UInt16} {cs : List Char} (h : decode us = some cs) : us = cs.flatMap units := by
  have hplain : ∀ {u : UInt16}, u.toNat < 0xD800 ∨ 0xE000 ≤ u.toNat → units (Char.ofNat u.toNat) = [u] := by
    intro u hu
    have hlt := u.toNat_lt
    rw [units, toNat_ofNat (by omega), if_pos (by omega), UInt16.ofNat_toNat]
  induction us using decode.induct generalizing cs with
  | case1 =>
    obtain rfl := Option.some.inj h
    rfl
  | case2 u hu =>
    rw [decode, if_pos hu] at h
    obtain rfl := Option.some.inj h
    rw [List.flatMap_cons, hplain hu]
    rfl
  | case3 u hu =>
    rw [decode, if_neg hu] at h
    cases h
  | case4 u v rest hu ih =>
    rw [decode, if_pos hu, Option.map_eq_some_iff] at h
    obtain ⟨cs', h, rfl⟩ := h
    rw [List.flatMap_cons, hplain hu, ← ih h]
    rfl
  | case5 u v rest hu hpair ih =>
    rw [decode, if_neg hu, if_pos hpair, Option.map_eq_some_iff] at h
    obtain ⟨cs', h, rfl⟩ := h
    have hnat : (Char.ofNat (0x10000 + (u.toNat - 0xD800) * 0x400 + (v.toNat - 0xDC00))).toNat =
        0x10000 + (u.toNat - 0xD800) * 0x400 + (v.toNat - 0xDC00) := toNat_ofNat (by omega)
    have hhigh : 0xD800 + (0x10000 + (u.toNat - 0xD800) * 0x400 + (v.toNat - 0xDC00) - 0x10000) / 0x400 = u.toNat := by omega
    have hlow : 0xDC00 + (0x10000 + (u.toNat - 0xD800) * 0x400 + (v.toNat - 0xDC00) - 0x10000) % 0x400 = v.toNat := by omega
    rw [List.flatMap_cons, units, hnat, if_neg (by omega), hhigh, hlow, UInt16.ofNat_toNat, UInt16.ofNat_toNat, ← ih h]
    rfl
  | case6 u v rest hu hpair =>
    rw [decode, if_neg hu, if_neg hpair] at h
    cases h

/-! ### The grammar -/

/-- A value's kind, so far as it is asked for. -/
inductive Value where
  | string (units : List UInt16)
  | null
  | other

/-- Characters that `p` holds of, any number of them. -/
inductive Many (p : Char → Prop) : List Char → List Char → Prop where
  | done (rest : List Char) : Many p rest rest
  | more {c : Char} {cs rest : List Char} : p c → Many p cs rest → Many p (c :: cs) rest

def IsWs (c : Char) : Prop := c = ' ' ∨ c = '\n' ∨ c = '\r' ∨ c = '\t'

abbrev Ws : List Char → List Char → Prop := Many IsWs

/-- The two-character escapes. -/
def escaped : Char → Option UInt16
  | '"' => some 34
  | '\\' => some 92
  | '/' => some 47
  | 'b' => some 8
  | 'f' => some 12
  | 'n' => some 10
  | 'r' => some 13
  | 't' => some 9
  | _ => none

def hexValue (c : Char) : Option ℕ :=
  if '0' ≤ c ∧ c ≤ '9' then some (c.toNat - 48)
  else if 'a' ≤ c ∧ c ≤ 'f' then some (c.toNat - 87)
  else if 'A' ≤ c ∧ c ≤ 'F' then some (c.toNat - 55)
  else none

/-- A string behind its opening quotation mark, and its code units. -/
inductive Chars : List Char → List UInt16 → List Char → Prop where
  | close (rest : List Char) : Chars ('"' :: rest) [] rest
  | plain {c : Char} {cs rest : List Char} {us : List UInt16} : ' ' ≤ c → c ≠ '"' → c ≠ '\\' → Chars cs us rest →
    Chars (c :: cs) (units c ++ us) rest
  | escape {e : Char} {u : UInt16} {cs rest : List Char} {us : List UInt16} : escaped e = some u → Chars cs us rest →
    Chars ('\\' :: e :: cs) (u :: us) rest
  | unicode {a b c d : Char} {w x y z : ℕ} {cs rest : List Char} {us : List UInt16} : hexValue a = some w → hexValue b = some x →
    hexValue c = some y → hexValue d = some z → Chars cs us rest →
    Chars ('\\' :: 'u' :: a :: b :: c :: d :: cs) (.ofNat (((w * 16 + x) * 16 + y) * 16 + z) :: us) rest

def Str (cs : List Char) (us : List UInt16) (rest : List Char) : Prop := ∃ body, cs = '"' :: body ∧ Chars body us rest

def IsDigit (c : Char) : Prop := '0' ≤ c ∧ c ≤ '9'

abbrev Digits : List Char → List Char → Prop := Many IsDigit

/-- At least one digit. -/
def SomeDigits (cs rest : List Char) : Prop := ∃ c t, cs = c :: t ∧ IsDigit c ∧ Digits t rest

def Minus (cs rest : List Char) : Prop := cs = rest ∨ cs = '-' :: rest

def Int (cs rest : List Char) : Prop := cs = '0' :: rest ∨ ∃ c t, cs = c :: t ∧ IsDigit c ∧ c ≠ '0' ∧ Digits t rest

def Frac (cs rest : List Char) : Prop := cs = rest ∨ ∃ t, cs = '.' :: t ∧ SomeDigits t rest

def Exp (cs rest : List Char) : Prop :=
  cs = rest ∨ ∃ e t u, cs = e :: t ∧ (e = 'e' ∨ e = 'E') ∧ (t = u ∨ t = '+' :: u ∨ t = '-' :: u) ∧ SomeDigits u rest

def Number (cs rest : List Char) : Prop := ∃ a b c, Minus cs a ∧ Int a b ∧ Frac b c ∧ Exp c rest

/-- Arrays and objects. -/
inductive Bracket where
  | array
  | object
  deriving DecidableEq

def Bracket.opening : Bracket → Char
  | .array => '['
  | .object => '{'

def Bracket.closing : Bracket → Char
  | .array => ']'
  | .object => '}'

/-- What stands before a value: a member's name and its colon, in an object. -/
inductive Name : Bracket → List Char → List UInt16 → List Char → Prop where
  | array (rest : List Char) : Name .array rest [] rest
  | object {cs k k' rest : List Char} {us : List UInt16} : Ws cs k → Str k us k' → Ws k' (':' :: rest) → Name .object cs us rest

mutual

inductive Val : List Char → Value → List Char → Prop where
  | null (rest : List Char) : Val ('n' :: 'u' :: 'l' :: 'l' :: rest) .null rest
  | true (rest : List Char) : Val ('t' :: 'r' :: 'u' :: 'e' :: rest) .other rest
  | false (rest : List Char) : Val ('f' :: 'a' :: 'l' :: 's' :: 'e' :: rest) .other rest
  | number {cs rest : List Char} : Number cs rest → Val cs .other rest
  | string {cs rest : List Char} {us : List UInt16} : Str cs us rest → Val cs (.string us) rest
  | bracket {b : Bracket} {cs rest : List Char} {members : List (List UInt16 × Value)} : Body b cs members rest →
    Val (b.opening :: cs) .other rest

/-- An array or an object behind its opening bracket: its values, an object's each with its name. -/
inductive Body : Bracket → List Char → List (List UInt16 × Value) → List Char → Prop where
  | empty {b : Bracket} {cs rest : List Char} : Ws cs (b.closing :: rest) → Body b cs [] rest
  | elements {b : Bracket} {cs rest : List Char} {members : List (List UInt16 × Value)} : Elements b cs members rest →
    Body b cs members rest

inductive Elements : Bracket → List Char → List (List UInt16 × Value) → List Char → Prop where
  | element {b : Bracket} {cs c v v' rest : List Char} {name : List UInt16} {x : Value} {members : List (List UInt16 × Value)} :
    Name b cs name c → Ws c v → Val v x v' → Tail b v' members rest → Elements b cs ((name, x) :: members) rest

/-- What stands behind a value in brackets. -/
inductive Tail : Bracket → List Char → List (List UInt16 × Value) → List Char → Prop where
  | close {b : Bracket} {cs rest : List Char} : Ws cs (b.closing :: rest) → Tail b cs [] rest
  | comma {b : Bracket} {cs c rest : List Char} {members : List (List UInt16 × Value)} : Ws cs (',' :: c) →
    Elements b c members rest → Tail b cs members rest

end

/-- A text that is one object, with its members. -/
def Object (cs : List Char) (members : List (List UInt16 × Value)) : Prop :=
  ∃ body rest, Ws cs ('{' :: body) ∧ Body .object body members rest ∧ Ws rest []

/-! ### What a symbol leaves -/

/-- A text does not begin with a character that `p` holds of. -/
def Stops (p : Char → Prop) (cs : List Char) : Prop := ∀ c t, cs = c :: t → ¬ p c

theorem stops_nil (p : Char → Prop) : Stops p [] := by
  intro c t h
  cases h

theorem stops_cons {p : Char → Prop} {c : Char} {t : List Char} : Stops p (c :: t) ↔ ¬ p c := by
  constructor
  · intro h
    exact h c t rfl
  · rintro h c' t' heq
    obtain ⟨rfl, -⟩ := List.cons.inj heq
    exact h

theorem Many.length {p : Char → Prop} {cs rest : List Char} (h : Many p cs rest) : rest.length ≤ cs.length := by
  induction h with
  | done => exact le_rfl
  | more _ _ ih => exact ih.trans (Nat.le_succ _)

theorem Many.eq {p : Char → Prop} {cs a b : List Char} (ha : Many p cs a) (hb : Many p cs b) (hsa : Stops p a) (hsb : Stops p b) :
    a = b := by
  induction ha with
  | done rest =>
    cases hb with
    | done => rfl
    | more hp _ => exact absurd hp (stops_cons.mp hsa)
  | more hp _ ih =>
    cases hb with
    | done => exact absurd hp (stops_cons.mp hsb)
    | more _ hb => exact ih hb hsa

/-- Passing over more of the characters comes to the same place. -/
theorem Many.next {p : Char → Prop} {cs a b : List Char} (ha : Many p cs a) (hb : Many p cs b)
    (hsb : Stops p b) : Many p a b := by
  induction ha with
  | done rest => exact hb
  | more hp _ ih =>
    cases hb with
    | done => exact absurd hp (stops_cons.mp hsb)
    | more _ hb => exact ih hb

theorem Many.trans {p : Char → Prop} {cs a b : List Char} (ha : Many p cs a) (hb : Many p a b) : Many p cs b := by
  induction ha with
  | done => exact hb
  | more hp _ ih => exact .more hp (ih hb)

/-- Nothing is passed over where nothing can be. -/
theorem Many.eq_of_stops {p : Char → Prop} {cs rest : List Char} (h : Many p cs rest) (hcs : Stops p cs) : rest = cs := by
  cases h with
  | done => rfl
  | more hp _ => exact absurd hp (stops_cons.mp hcs)

theorem not_isWs_quote : ¬ IsWs '"' := by
  unfold IsWs
  decide

theorem not_isWs_comma : ¬ IsWs ',' := by
  unfold IsWs
  decide

theorem not_isWs_colon : ¬ IsWs ':' := by
  unfold IsWs
  decide

theorem Str.noWs {cs rest : List Char} {us : List UInt16} (h : Str cs us rest) : Stops IsWs cs := by
  obtain ⟨body, rfl, -⟩ := h
  exact stops_cons.mpr not_isWs_quote

theorem escaped_ne_u {e : Char} {u : UInt16} (h : escaped e = some u) : e ≠ 'u' := by
  rintro rfl
  simp [escaped] at h

theorem Chars.eq {cs rest rest' : List Char} {us us' : List UInt16} (h : Chars cs us rest) (h' : Chars cs us' rest') :
    us' = us ∧ rest' = rest := by
  induction h generalizing us' rest' with
  | close =>
    cases h' with
    | close => exact ⟨rfl, rfl⟩
    | plain _ hne => exact absurd rfl hne
  | plain hle hquote hslash _ ih =>
    cases h' with
    | close => exact absurd rfl hquote
    | plain _ _ _ h' =>
      obtain ⟨rfl, rfl⟩ := ih h'
      exact ⟨rfl, rfl⟩
    | escape => exact absurd rfl hslash
    | unicode => exact absurd rfl hslash
  | escape hu _ ih =>
    cases h' with
    | plain _ _ hslash => exact absurd rfl hslash
    | escape hu' h' =>
      obtain ⟨rfl, rfl⟩ := ih h'
      rw [hu] at hu'
      exact ⟨by rw [Option.some.inj hu'], rfl⟩
    | unicode => exact absurd rfl (escaped_ne_u hu)
  | unicode ha hb hc hd _ ih =>
    cases h' with
    | plain _ _ hslash => exact absurd rfl hslash
    | escape hu' => exact absurd rfl (escaped_ne_u hu')
    | unicode ha' hb' hc' hd' h' =>
      obtain ⟨rfl, rfl⟩ := ih h'
      rw [ha] at ha'
      rw [hb] at hb'
      rw [hc] at hc'
      rw [hd] at hd'
      obtain rfl := Option.some.inj ha'
      obtain rfl := Option.some.inj hb'
      obtain rfl := Option.some.inj hc'
      obtain rfl := Option.some.inj hd'
      exact ⟨rfl, rfl⟩

theorem Chars.length {cs rest : List Char} {us : List UInt16} (h : Chars cs us rest) : rest.length < cs.length := by
  induction h with
  | close => exact Nat.lt_succ_self _
  | plain _ _ _ _ ih => exact ih.trans (Nat.lt_succ_self _)
  | escape _ _ ih => exact ih.trans (by simp)
  | unicode _ _ _ _ _ ih => exact ih.trans (by simp only [List.length_cons]; omega)

theorem Str.eq {cs rest rest' : List Char} {us us' : List UInt16} (h : Str cs us rest) (h' : Str cs us' rest') :
    us' = us ∧ rest' = rest := by
  obtain ⟨body, rfl, hbody⟩ := h
  obtain ⟨body', heq, hbody'⟩ := h'
  obtain ⟨-, rfl⟩ := List.cons.inj heq
  exact hbody.eq hbody'

theorem Str.length {cs rest : List Char} {us : List UInt16} (h : Str cs us rest) : rest.length < cs.length := by
  obtain ⟨body, rfl, hbody⟩ := h
  exact hbody.length.trans (Nat.lt_succ_self _)

theorem Name.eq {b : Bracket} {cs rest rest' : List Char} {us us' : List UInt16} (h : Name b cs us rest)
    (h' : Name b cs us' rest') :
    us' = us ∧ rest' = rest := by
  cases h with
  | array =>
    cases h'
    exact ⟨rfl, rfl⟩
  | object hk hstr hcolon =>
    cases h' with
    | object hk' hstr' hcolon' =>
      obtain rfl := hk.eq hk' hstr.noWs hstr'.noWs
      obtain ⟨rfl, rfl⟩ := hstr.eq hstr'
      have heq := hcolon.eq hcolon' (stops_cons.mpr not_isWs_colon) (stops_cons.mpr not_isWs_colon)
      exact ⟨rfl, (List.cons.inj heq).2.symm⟩

theorem Name.length {b : Bracket} {cs rest : List Char} {us : List UInt16} (h : Name b cs us rest) : rest.length ≤ cs.length := by
  cases h with
  | array => exact le_rfl
  | object hk hstr hcolon =>
    have h₁ := hk.length
    have h₂ := hstr.length
    have h₃ := hcolon.length
    rw [List.length_cons] at h₃
    omega

/-! ### Numbers -/

/-- What would go on with a number that it stands behind. -/
def GoesOn (c : Char) : Prop := IsDigit c ∨ c = '.' ∨ c = 'e' ∨ c = 'E'

theorem stops_digit {cs : List Char} (h : Stops GoesOn cs) : Stops IsDigit cs := fun c t heq hdigit => h c t heq (.inl hdigit)

theorem Exp.stops {cs rest : List Char} (h : Exp cs rest) (hrest : Stops GoesOn rest) : Stops IsDigit cs := by
  rcases h with rfl | ⟨e, t, u, rfl, he, -⟩
  · exact stops_digit hrest
  · rw [stops_cons]
    rcases he with rfl | rfl <;> unfold IsDigit <;> decide

theorem Frac.stops {cs mid rest : List Char} (h : Frac cs mid) (hexp : Exp mid rest) (hrest : Stops GoesOn rest) :
    Stops IsDigit cs := by
  rcases h with rfl | ⟨t, rfl, -⟩
  · exact hexp.stops hrest
  · rw [stops_cons]
    unfold IsDigit
    decide

theorem isDigit_zero : IsDigit '0' := by
  unfold IsDigit
  decide

theorem Int.cons {cs rest : List Char} (h : Int cs rest) : ∃ c t, cs = c :: t ∧ IsDigit c := by
  rcases h with rfl | ⟨c, t, rfl, hc, -⟩
  · exact ⟨'0', rest, rfl, isDigit_zero⟩
  · exact ⟨c, t, rfl, hc⟩

theorem Number.noWs {cs rest : List Char} (h : Number cs rest) : Stops IsWs cs := by
  obtain ⟨a, b, c, hminus, hint, -⟩ := h
  rcases hminus with rfl | rfl
  · obtain ⟨c, t, rfl, hc⟩ := hint.cons
    rw [stops_cons]
    rintro (rfl | rfl | rfl | rfl) <;> revert hc <;> unfold IsDigit <;> decide
  · rw [stops_cons]
    unfold IsWs
    decide

theorem Number.length {cs rest : List Char} (h : Number cs rest) : rest.length < cs.length := by
  obtain ⟨a, b, c, hminus, hint, hfrac, hexp⟩ := h
  have h₁ : a.length ≤ cs.length := by
    rcases hminus with rfl | rfl <;> simp
  have h₂ : b.length < a.length := by
    rcases hint with rfl | ⟨_, t, rfl, -, -, hmany⟩
    · simp
    · exact Nat.lt_succ_of_le hmany.length
  have hsome : ∀ {t u : List Char}, SomeDigits t u → u.length ≤ t.length := by
    rintro t u ⟨_, t', rfl, -, hmany⟩
    exact hmany.length.trans (Nat.le_succ _)
  have h₃ : c.length ≤ b.length := by
    rcases hfrac with rfl | ⟨t, rfl, h⟩
    · exact le_rfl
    · exact (hsome h).trans (Nat.le_succ _)
  have h₄ : rest.length ≤ c.length := by
    rcases hexp with rfl | ⟨_, t, u, rfl, -, hsign, h⟩
    · exact le_rfl
    · have := hsome h
      rcases hsign with rfl | rfl | rfl <;> simp only [List.length_cons] <;> omega
  omega

/-! ### Values in brackets -/

theorem Bracket.not_isWs_closing (b : Bracket) : ¬ IsWs b.closing := by
  cases b <;> unfold IsWs <;> decide

theorem Bracket.not_isWs_opening (b : Bracket) : ¬ IsWs b.opening := by
  cases b <;> unfold IsWs <;> decide

theorem Number.cons {cs rest : List Char} (h : Number cs rest) : ∃ c t, cs = c :: t ∧ (c = '-' ∨ IsDigit c) := by
  obtain ⟨a, b, c, hminus, hint, -⟩ := h
  rcases hminus with rfl | rfl
  · obtain ⟨c, t, rfl, hc⟩ := hint.cons
    exact ⟨c, t, rfl, .inr hc⟩
  · exact ⟨'-', a, rfl, .inl rfl⟩

theorem Val.noWs {cs rest : List Char} {x : Value} (h : Val cs x rest) : Stops IsWs cs := by
  cases h with
  | null => rw [stops_cons]; unfold IsWs; decide
  | true => rw [stops_cons]; unfold IsWs; decide
  | false => rw [stops_cons]; unfold IsWs; decide
  | number h => exact h.noWs
  | string h =>
    obtain ⟨body, rfl, -⟩ := h
    exact stops_cons.mpr not_isWs_quote
  | bracket h => exact stops_cons.mpr (Bracket.not_isWs_opening _)

/-- What begins as no literal, string or bracket is a number. -/
theorem Val.number_of {cs rest : List Char} {x : Value} (h : Val cs x rest) (hnull : ¬ ['n', 'u', 'l', 'l'] <+: cs)
    (htrue : ¬ ['t', 'r', 'u', 'e'] <+: cs) (hfalse : ¬ ['f', 'a', 'l', 's', 'e'] <+: cs) (hquote : ∀ t, cs ≠ '"' :: t)
    (hopen : ∀ (b : Bracket) t, cs ≠ b.opening :: t) : Number cs rest ∧ x = .other := by
  cases h with
  | null rest => exact absurd ⟨rest, rfl⟩ hnull
  | true rest => exact absurd ⟨rest, rfl⟩ htrue
  | false rest => exact absurd ⟨rest, rfl⟩ hfalse
  | number h => exact ⟨h, rfl⟩
  | string h =>
    obtain ⟨body, rfl, -⟩ := h
    exact absurd rfl (hquote body)
  | bracket h => exact absurd rfl (hopen _ _)

/-- What begins with a letter is the literal it begins as. -/
theorem Val.literal {c : Char} {t rest : List Char} {x : Value} (h : Val (c :: t) x rest) (hc : c = 'n' ∨ c = 't' ∨ c = 'f') :
    (c :: t = ['n', 'u', 'l', 'l'] ++ rest ∧ x = .null) ∨ (c :: t = ['t', 'r', 'u', 'e'] ++ rest ∧ x = .other) ∨
      (c :: t = ['f', 'a', 'l', 's', 'e'] ++ rest ∧ x = .other) := by
  generalize hcs : c :: t = cs at h
  cases h with
  | null => exact .inl ⟨rfl, rfl⟩
  | true => exact .inr (.inl ⟨rfl, rfl⟩)
  | false => exact .inr (.inr ⟨rfl, rfl⟩)
  | number h =>
    obtain ⟨c', t', rfl, hc'⟩ := h.cons
    obtain ⟨rfl, -⟩ := List.cons.inj hcs
    exfalso
    rcases hc with rfl | rfl | rfl <;> revert hc' <;> unfold IsDigit <;> decide
  | string h =>
    obtain ⟨body, rfl, -⟩ := h
    obtain ⟨rfl, -⟩ := List.cons.inj hcs
    rcases hc with hc | hc | hc <;> cases hc
  | @bracket b _ _ _ h =>
    obtain ⟨rfl, -⟩ := List.cons.inj hcs
    cases b <;> rcases hc with hc | hc | hc <;> cases hc

theorem Val.null_eq {t rest : List Char} {x : Value} (h : Val ('n' :: 'u' :: 'l' :: 'l' :: t) x rest) : x = .null ∧ rest = t := by
  rcases h.literal (.inl rfl) with ⟨heq, rfl⟩ | ⟨heq, -⟩ | ⟨heq, -⟩
  · simpa using heq.symm
  · simp at heq
  · simp at heq

theorem Val.true_eq {t rest : List Char} {x : Value} (h : Val ('t' :: 'r' :: 'u' :: 'e' :: t) x rest) :
    x = .other ∧ rest = t := by
  rcases h.literal (.inr (.inl rfl)) with ⟨heq, -⟩ | ⟨heq, rfl⟩ | ⟨heq, -⟩
  · simp at heq
  · simpa using heq.symm
  · simp at heq

theorem Val.false_eq {t rest : List Char} {x : Value} (h : Val ('f' :: 'a' :: 'l' :: 's' :: 'e' :: t) x rest) :
    x = .other ∧ rest = t := by
  rcases h.literal (.inr (.inr rfl)) with ⟨heq, -⟩ | ⟨heq, -⟩ | ⟨heq, rfl⟩
  · simp at heq
  · simp at heq
  · simpa using heq.symm

theorem Val.quote {t rest : List Char} {x : Value} (h : Val ('"' :: t) x rest) : ∃ us, x = .string us ∧ Chars t us rest := by
  generalize hcs : '"' :: t = cs at h
  cases h with
  | null => cases hcs
  | true => cases hcs
  | false => cases hcs
  | number h =>
    obtain ⟨c', t', rfl, hc'⟩ := h.cons
    obtain ⟨rfl, -⟩ := List.cons.inj hcs
    exfalso
    revert hc'
    unfold IsDigit
    decide
  | @string _ _ us h =>
    obtain ⟨body, rfl, hbody⟩ := h
    obtain ⟨-, rfl⟩ := List.cons.inj hcs
    exact ⟨us, rfl, hbody⟩
  | @bracket b _ _ _ h => cases b <;> cases (List.cons.inj hcs).1

theorem Val.opening {b : Bracket} {t rest : List Char} {x : Value} (h : Val (b.opening :: t) x rest) :
    x = .other ∧ ∃ members, Body b t members rest := by
  generalize hcs : b.opening :: t = cs at h
  cases h with
  | null => cases b <;> cases hcs
  | true => cases b <;> cases hcs
  | false => cases b <;> cases hcs
  | number h =>
    obtain ⟨c', t', rfl, hc'⟩ := h.cons
    obtain ⟨rfl, -⟩ := List.cons.inj hcs
    exfalso
    cases b <;> revert hc' <;> unfold IsDigit <;> decide
  | string h =>
    obtain ⟨body, rfl, -⟩ := h
    cases b <;> cases (List.cons.inj hcs).1
  | @bracket b' _ _ members h =>
    obtain ⟨hopen, rfl⟩ := List.cons.inj hcs
    obtain rfl : b = b' := by
      cases b <;> cases b' <;> first | rfl | cases hopen
    exact ⟨rfl, members, h⟩

/-- No value begins as a bracket is closed. -/
theorem Val.not_closing {b : Bracket} {t rest : List Char} {x : Value} : ¬ Val (b.closing :: t) x rest := by
  intro h
  generalize hcs : b.closing :: t = cs at h
  cases h with
  | null => cases b <;> cases hcs
  | true => cases b <;> cases hcs
  | false => cases b <;> cases hcs
  | number h =>
    obtain ⟨c', t', rfl, hc'⟩ := h.cons
    obtain ⟨rfl, -⟩ := List.cons.inj hcs
    cases b <;> revert hc' <;> unfold IsDigit <;> decide
  | string h =>
    obtain ⟨body, rfl, -⟩ := h
    cases b <;> cases (List.cons.inj hcs).1
  | @bracket b' _ _ _ h =>
    obtain ⟨hopen, -⟩ := List.cons.inj hcs
    cases b <;> cases b' <;> cases hopen

/-- What begins as no string and not as `null` is neither. -/
theorem Val.eq_other {cs rest : List Char} {x : Value} (h : Val cs x rest) (hnull : ¬ ['n', 'u', 'l', 'l'] <+: cs)
    (hquote : ∀ t, cs ≠ '"' :: t) : x = .other := by
  cases h with
  | null rest => exact absurd ⟨rest, rfl⟩ hnull
  | true => rfl
  | false => rfl
  | number => rfl
  | string h =>
    obtain ⟨body, rfl, -⟩ := h
    exact absurd rfl (hquote body)
  | bracket => rfl

mutual

theorem Val.length {cs rest : List Char} {x : Value} : Val cs x rest → rest.length < cs.length
  | .null _ => by simp only [List.length_cons]; omega
  | .true _ => by simp only [List.length_cons]; omega
  | .false _ => by simp only [List.length_cons]; omega
  | .number h => h.length
  | .string h => h.length
  | .bracket h => (Body.length h).trans (Nat.lt_succ_self _)

theorem Body.length {b : Bracket} {cs rest : List Char} {members : List (List UInt16 × Value)} :
    Body b cs members rest → rest.length < cs.length
  | .empty h => h.length
  | .elements h => Elements.length h

theorem Elements.length {b : Bracket} {cs rest : List Char} {members : List (List UInt16 × Value)} :
    Elements b cs members rest → rest.length < cs.length
  | .element hname hv hval htail =>
    (Tail.length htail).trans ((Val.length hval).trans_le (hv.length.trans hname.length))

theorem Tail.length {b : Bracket} {cs rest : List Char} {members : List (List UInt16 × Value)} :
    Tail b cs members rest → rest.length < cs.length
  | .close h => h.length
  | .comma h hmore => (Elements.length hmore).trans ((Nat.lt_succ_self _).trans_le h.length)

end

/-! ### Whitespace in front -/

section Front

variable {b : Bracket} {cs k rest : List Char} {members : List (List UInt16 × Value)}
  (hws : Ws cs k)

include hws

theorem Elements.front : Elements b cs members rest ↔ Elements b k members rest := by
  constructor
  · intro h
    cases h with
    | element hname hv hval htail =>
      cases hname with
      | array => exact .element (.array _) (hws.next hv hval.noWs) hval htail
      | object hk hstr hcolon =>
        have hquote : Stops IsWs _ := hstr.noWs
        exact .element (.object (hws.next hk hquote) hstr hcolon) hv hval htail
  · intro h
    cases h with
    | element hname hv hval htail =>
      cases hname with
      | array => exact .element (.array _) (hws.trans hv) hval htail
      | object hk hstr hcolon => exact .element (.object (hws.trans hk) hstr hcolon) hv hval htail

theorem Body.front : Body b cs members rest ↔ Body b k members rest := by
  constructor
  · intro h
    cases h with
    | empty h => exact .empty (hws.next h (stops_cons.mpr b.not_isWs_closing))
    | elements h => exact .elements ((Elements.front hws).mp h)
  · intro h
    cases h with
    | empty h => exact .empty (hws.trans h)
    | elements h => exact .elements ((Elements.front hws).mpr h)

theorem Tail.front : Tail b cs members rest ↔ Tail b k members rest := by
  constructor
  · intro h
    cases h with
    | close h => exact .close (hws.next h (stops_cons.mpr b.not_isWs_closing))
    | comma h hmore => exact .comma (hws.next h (stops_cons.mpr not_isWs_comma)) hmore
  · intro h
    cases h with
    | close h => exact .close (hws.trans h)
    | comma h hmore => exact .comma (hws.trans h) hmore

end Front

theorem Tail.stops {b : Bracket} {cs rest : List Char} {members : List (List UInt16 × Value)} (h : Tail b cs members rest) :
    Stops GoesOn cs := by
  have hws : ∀ c, IsWs c → ¬ GoesOn c := by
    rintro c (rfl | rfl | rfl | rfl) <;> unfold GoesOn IsDigit <;> decide
  have hmany : ∀ {cs rest : List Char} {c : Char}, Ws cs (c :: rest) → ¬ GoesOn c → Stops GoesOn cs := by
    intro cs rest c h hc
    cases h with
    | done => exact stops_cons.mpr hc
    | more hp _ => exact stops_cons.mpr (hws _ hp)
  cases h with
  | close h => exact hmany h (by cases b <;> unfold GoesOn IsDigit <;> decide)
  | comma h _ => exact hmany h (by unfold GoesOn IsDigit; decide)

end Json
