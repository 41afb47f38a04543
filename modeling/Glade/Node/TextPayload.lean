import Glade.Node.TextTokens

/-! What the text profile accepts: the texts of one JSON object whose members are an
edit's. What is open on the recognizer's stack is told by what it owes: each step of
its loop passes over some of the text and leaves what is owed the same. -/

namespace Glade.Node.TextProfile

open Wire Json

/-! ### Values -/

/-- What an atom is, of the text behind any whitespace: a value read whole, or an opening bracket. -/
inductive AtomAt (k rest : List Char) : Option Bracket → Prop where
  | value (x : Value) : Val k x rest → (∀ x' r, Val k x' r → Stops GoesOn r → x' = x ∧ r = rest) → AtomAt k rest none
  | opening (b : Bracket) : k = b.opening :: rest → AtomAt k rest (some b)

/-- What an open bracket still owes, by where it stands. -/
def Owes (b : Bracket) : Place → List Char → List Char → Prop
  | .first, cs, rest => ∃ members, Body b cs members rest
  | .next, cs, rest => ∃ members, Elements b cs members rest
  | .behind, cs, rest => ∃ members, Tail b cs members rest

/-- What all that is open owes. -/
inductive Closes : List (Bracket × Place) → List Char → List Char → Prop where
  | nil (rest : List Char) : Closes [] rest rest
  | cons {b : Bracket} {place : Place} {stack : List (Bracket × Place)} {cs mid rest : List Char} : Owes b place cs mid →
    Closes stack mid rest → Closes ((b, place) :: stack) cs rest

section Calls

variable {text rest : List Char} {i : ℕ} (hheld : Held text)

include hheld

theorem literal_at (expected : String) (hsize : expected.utf8ByteSize = (asBytes expected.toList).length) (hat : At text i rest) :
    (∃ t i', rest = expected.toList ++ t ∧ literal text expected i = .ok (some i') ∧ At text i' t) ∨
      (¬ expected.toList <+: rest ∧ literal text expected i = .ok none) := by
  rw [literal, hat.sliceFrom, orRefuse, ok_bind]
  by_cases hstarts : expected.toList <+: rest
  · obtain ⟨t, rfl⟩ := hstarts
    have hat' := hat.append
    have hlen := hat'.length
    unfold Held at hheld
    rw [if_pos (List.prefix_append _ _), hsize, bump, if_pos (by omega)]
    exact .inl ⟨t, _, rfl, rfl, hat'⟩
  · rw [if_neg hstarts]
    exact .inr ⟨hstarts, rfl⟩

/-- An atom is read where a value stands, behind any whitespace. -/
theorem atom_at (hat : At text i rest) :
    (∃ child i' k rest', atom text i = .ok (child, i') ∧ At text i' rest' ∧ Ws rest k ∧ Stops IsWs k ∧ rest'.length < k.length ∧
        AtomAt k rest' child) ∨
      (atom text i = .error .refused ∧ ∀ k x r, Ws rest k → Val k x r → ¬ Stops GoesOn r) := by
  obtain ⟨i₁, k, heq, hat₁, hmany, hstops⟩ := space_at hheld hat
  have hsame : ∀ {k' x r}, Ws rest k' → Val k' x r → k' = k := fun h hval => (hmany.eq h hstops hval.noWs).symm
  rw [atom, heq, ok_bind, hat₁.byte]
  rcases first_byte k with ⟨rfl, hbyte⟩ | ⟨c, t, b, hk, hbyte, hleads⟩
  · rw [hbyte]
    refine .inr ⟨rfl, fun k' x r hws hval _ => ?_⟩
    obtain rfl := hsame hws hval
    cases hval with
    | number h =>
      obtain ⟨c, t, heq, -⟩ := h.cons
      cases heq
    | string h =>
      obtain ⟨body, heq, -⟩ := h
      cases heq
  rw [hbyte, orRefuse, ok_bind]
  have harray : b = 91 ↔ c = '[' := hleads.eq_iff '[' (by decide)
  have hobject : b = 123 ↔ c = '{' := hleads.eq_iff '{' (by decide)
  have hquote : b = 34 ↔ c = '"' := hleads.eq_iff '"' (by decide)
  have hascii : c.toNat < 128 → bump i₁ 1 = .ok (i₁ + 1) ∧ At text (i₁ + 1) t := by
    intro hlt
    have hbump := (hk ▸ hat₁).bump_step hheld
    have hstep := (hk ▸ hat₁).step
    rw [size_of_lt hlt] at hbump hstep
    exact ⟨hbump, hstep⟩
  by_cases hc₁ : c = '['
  · rw [if_pos (harray.mpr hc₁)]
    obtain ⟨hbump, hstep⟩ := hascii (by rw [hc₁]; decide)
    rw [hbump]
    exact .inl ⟨some .array, _, k, t, rfl, hstep, hmany, hstops, by rw [hk]; simp, .opening .array (by rw [hk, hc₁]; rfl)⟩
  rw [if_neg fun h => hc₁ (harray.mp h)]
  by_cases hc₂ : c = '{'
  · rw [if_pos (hobject.mpr hc₂)]
    obtain ⟨hbump, hstep⟩ := hascii (by rw [hc₂]; decide)
    rw [hbump]
    exact .inl ⟨some .object, _, k, t, rfl, hstep, hmany, hstops, by rw [hk]; simp, .opening .object (by rw [hk, hc₂]; rfl)⟩
  rw [if_neg fun h => hc₂ (hobject.mp h)]
  by_cases hc₃ : c = '"'
  · rw [if_pos (hquote.mpr hc₃)]
    subst hc₃
    rcases string_at hheld hat₁ with ⟨us, i', k', rest', heq', hat', hws, hstr⟩ | ⟨heq', hnone⟩
    · obtain rfl : k = k' := by
        obtain ⟨body, rfl, -⟩ := hstr
        exact (Many.done k).eq hws hstops (stops_cons.mpr not_isWs_quote)
      rw [heq']
      have hlt : rest'.length < k.length := by
        obtain ⟨body, rfl, hchars⟩ := hstr
        exact hchars.length.trans (Nat.lt_succ_self _)
      refine .inl ⟨none, i', k, rest', rfl, hat', hmany, hstops, hlt, .value (.string us) (.string hstr) fun x' r hval _ => ?_⟩
      rw [hk] at hval hstr
      obtain ⟨us', rfl, hchars'⟩ := hval.quote
      obtain ⟨rfl, rfl⟩ := hstr.eq ⟨t, rfl, hchars'⟩
      exact ⟨rfl, rfl⟩
    · rw [heq']
      refine .inr ⟨rfl, fun k' x r hws hval _ => ?_⟩
      obtain rfl := hsame hws hval
      rw [hk] at hval
      obtain ⟨us, rfl, hchars⟩ := hval.quote
      exact hnone k' us r (.done _) ⟨t, hk, hchars⟩
  rw [if_neg fun h => hc₃ (hquote.mp h)]
  have hopen : ∀ (b : Bracket) t', k ≠ b.opening :: t' := by
    intro b t' h
    rw [hk] at h
    obtain ⟨rfl, -⟩ := List.cons.inj h
    cases b
    · exact hc₁ rfl
    · exact hc₂ rfl
  have hnoquote : ∀ t', k ≠ '"' :: t' := by
    intro t' h
    rw [hk] at h
    exact hc₃ (List.cons.inj h).1
  rcases literal_at hheld "null" rfl hat₁ with ⟨t', i', rfl, heq', hat'⟩ | ⟨hnull, heq'⟩
  · rw [heq']
    exact .inl ⟨none, i', _, t', rfl, hat', hmany, hstops, by rw [List.length_append]; exact Nat.lt_add_of_pos_left (by decide),
      .value .null (.null t') fun x' r hval _ => hval.null_eq⟩
  rw [heq', ok_bind]
  dsimp only
  rcases literal_at hheld "true" rfl hat₁ with ⟨t', i', rfl, heq', hat'⟩ | ⟨htrue, heq'⟩
  · rw [heq']
    exact .inl ⟨none, i', _, t', rfl, hat', hmany, hstops, by rw [List.length_append]; exact Nat.lt_add_of_pos_left (by decide),
      .value .other (.true t') fun x' r hval _ => hval.true_eq⟩
  rw [heq', ok_bind]
  dsimp only
  rcases literal_at hheld "false" rfl hat₁ with ⟨t', i', rfl, heq', hat'⟩ | ⟨hfalse, heq'⟩
  · rw [heq']
    exact .inl ⟨none, i', _, t', rfl, hat', hmany, hstops, by rw [List.length_append]; exact Nat.lt_add_of_pos_left (by decide),
      .value .other (.false t') fun x' r hval _ => hval.false_eq⟩
  rw [heq', ok_bind]
  dsimp only
  rcases number_at hheld hat₁ hstops with ⟨i', rest', heq', hat', hnumber, hone⟩ | ⟨heq', hnone⟩
  · rw [heq']
    refine .inl ⟨none, i', k, rest', rfl, hat', hmany, hstops, hnumber.length,
      .value .other (.number hnumber) fun x' r hval hr => ?_⟩
    obtain ⟨hnumber', rfl⟩ := hval.number_of hnull htrue hfalse hnoquote hopen
    exact ⟨rfl, hone r hnumber' hr⟩
  · rw [heq']
    refine .inr ⟨rfl, fun k' x r hws hval hr => ?_⟩
    obtain rfl := hsame hws hval
    exact hnone r (hval.number_of hnull htrue hfalse hnoquote hopen).1 hr

/-- A name is read where a member stands, and nothing where an array's value does. -/
theorem name_at (b : Bracket) (hat : At text i rest) :
    (∃ us i' rest', name text b i = .ok i' ∧ At text i' rest' ∧
        Name b rest us rest') ∨
      (name text b i = .error .refused ∧ ∀ us r, ¬ Name b rest us r) := by
  cases b with
  | array => exact .inl ⟨[], i, rest, rfl, hat, .array rest⟩
  | object =>
    rw [name, if_pos rfl]
    rcases string_at hheld hat with ⟨us, i₁, k, rest₁, heq, hat₁, hws, hstr⟩ | ⟨heq, hnone⟩
    · rw [heq, ok_bind]
      rcases token_at hheld ':' (by decide) not_isWs_colon hat₁ with ⟨i₂, rest₂, heq₂, hat₂, hcolon⟩ | ⟨heq₂, hnone⟩
      · exact .inl ⟨us, i₂, rest₂, heq₂, hat₂, .object hws hstr hcolon⟩
      · refine .inr ⟨heq₂, fun us' r hname => ?_⟩
        cases hname with
        | object hws' hstr' hcolon =>
          obtain rfl := hws.eq hws' hstr.noWs hstr'.noWs
          obtain ⟨rfl, rfl⟩ := hstr.eq hstr'
          exact hnone r hcolon
    · rw [heq]
      refine .inr ⟨rfl, fun us' r hname => ?_⟩
      cases hname with
      | object hws' hstr' _ => exact hnone _ _ _ hws' hstr'

end Calls

/-! ### What is owed -/

section Owes

variable {b : Bracket} {place : Place} {stack : List (Bracket × Place)} {cs k rest r : List Char}

theorem Owes.front (hws : Ws cs k) : Owes b place cs r ↔ Owes b place k r := by
  cases place with
  | first => exact exists_congr fun _ => Body.front hws
  | next => exact exists_congr fun _ => Elements.front hws
  | behind => exact exists_congr fun _ => Tail.front hws

theorem closes_cons : Closes ((b, place) :: stack) cs r ↔ ∃ mid, Owes b place cs mid ∧ Closes stack mid r := by
  constructor
  · intro h
    cases h with
    | cons h hrest => exact ⟨_, h, hrest⟩
  · rintro ⟨mid, h, hrest⟩
    exact .cons h hrest

theorem Closes.front (hws : Ws cs k) :
    Closes ((b, place) :: stack) cs r ↔ Closes ((b, place) :: stack) k r := by
  rw [closes_cons, closes_cons]
  exact exists_congr fun _ => and_congr_left fun _ => Owes.front hws

/-- A bracket that is closed owes nothing more. -/
theorem owes_closing (hplace : place ≠ .next) : Owes b place (b.closing :: rest) r ↔ r = rest := by
  have hstops : Stops IsWs (b.closing :: rest) := stops_cons.mpr b.not_isWs_closing
  have hws : ∀ {r}, Ws (b.closing :: rest) (b.closing :: r) → r = rest := fun h => (List.cons.inj (h.eq_of_stops hstops)).2
  constructor
  · intro h
    cases place with
    | next => exact absurd rfl hplace
    | first =>
      obtain ⟨members, h⟩ := h
      cases h with
      | empty h => exact hws h
      | elements h =>
        exfalso
        cases h with
        | element hname hv hval _ =>
          cases hname with
          | array =>
            obtain rfl := hv.eq_of_stops hstops
            exact hval.not_closing (b := .array)
          | object hk hstr _ =>
            obtain ⟨body, rfl, -⟩ := hstr
            cases hk.eq_of_stops hstops
    | behind =>
      obtain ⟨members, h⟩ := h
      cases h with
      | close h => exact hws h
      | comma h _ =>
        exfalso
        have heq := (List.cons.inj (h.eq_of_stops hstops)).1
        cases b <;> cases heq
  · rintro rfl
    cases place with
    | next => exact absurd rfl hplace
    | first => exact ⟨[], .empty (.done _)⟩
    | behind => exact ⟨[], .close (.done _)⟩

/-- Behind a value, what is not closed goes on with a comma. -/
theorem owes_behind (hstops : Stops IsWs cs) (hne : ∀ t, cs ≠ b.closing :: t) :
    Owes b .behind cs r ↔ ∃ c, cs = ',' :: c ∧ Owes b .next c r := by
  constructor
  · rintro ⟨members, h⟩
    cases h with
    | close h => exact absurd (h.eq_of_stops hstops).symm (hne _)
    | comma h hmore => exact ⟨_, (h.eq_of_stops hstops).symm, _, hmore⟩
  · rintro ⟨c, rfl, members, h⟩
    exact ⟨members, .comma (.done _) h⟩

/-- Before the first value, what is not closed has one. -/
theorem owes_first (hstops : Stops IsWs cs) (hne : ∀ t, cs ≠ b.closing :: t) : Owes b .first cs r ↔ Owes b .next cs r := by
  constructor
  · rintro ⟨members, h⟩
    cases h with
    | empty h => exact absurd (h.eq_of_stops hstops).symm (hne _)
    | elements h => exact ⟨members, h⟩
  · rintro ⟨members, h⟩
    exact ⟨members, .elements h⟩

theorem owes_next : Owes b .next cs r ↔ ∃ us c v x v', Name b cs us c ∧ Ws c v ∧ Val v x v' ∧ Owes b .behind v' r := by
  constructor
  · rintro ⟨members, h⟩
    cases h with
    | element hname hv hval htail => exact ⟨_, _, _, _, _, hname, hv, hval, _, htail⟩
  · rintro ⟨us, c, v, x, v', hname, hv, hval, members, htail⟩
    exact ⟨(us, x) :: members, .element hname hv hval htail⟩

theorem Owes.stops (h : Owes b .behind cs r) : Stops GoesOn cs := by
  obtain ⟨members, h⟩ := h
  exact h.stops

/-- What an atom leaves owed of the bracket it stands in. -/
theorem owes_atom {us : List UInt16} {c : List Char} {child : Option Bracket} (hname : Name b cs us c) (hws : Ws c k)
    (hstops : Stops IsWs k) (hatom : AtomAt k rest child) :
    Owes b .next cs r ↔ ∃ mid, Closes (child.toList.map (·, .first)) rest mid ∧ Owes b .behind mid r := by
  have hone : ∀ {us' c' v x v'}, Name b cs us' c' → Ws c' v → Val v x v' → v = k := by
    intro us' c' v x v' hname' hv hval
    obtain ⟨rfl, rfl⟩ := hname.eq hname'
    exact hv.eq hws hval.noWs hstops
  rw [owes_next]
  cases hatom with
  | value x hval hx =>
    constructor
    · rintro ⟨us', c', v, x', v', hname', hv, hval', hmore⟩
      obtain rfl := hone hname' hv hval'
      obtain ⟨rfl, rfl⟩ := hx _ _ hval' hmore.stops
      exact ⟨_, .nil _, hmore⟩
    · rintro ⟨mid, hmid, hmore⟩
      cases hmid
      exact ⟨us, c, k, x, rest, hname, hws, hval, hmore⟩
  | opening b' hk =>
    constructor
    · rintro ⟨us', c', v, x', v', hname', hv, hval', hmore⟩
      obtain rfl := hone hname' hv hval'
      subst hk
      obtain ⟨-, members, hbody⟩ := hval'.opening
      exact ⟨v', .cons ⟨members, hbody⟩ (.nil _), hmore⟩
    · rintro ⟨mid, hmid, hmore⟩
      cases hmid with
      | cons h hrest =>
        cases hrest
        obtain ⟨members, hbody⟩ := h
        subst hk
        exact ⟨us, c, _, .other, mid, hname, hws, .bracket hbody, hmore⟩

theorem closes_append {upper lower : List (Bracket × Place)} : Closes (upper ++ lower) cs r ↔ ∃ mid,
    Closes upper cs mid ∧ Closes lower mid r := by
  induction upper generalizing cs with
  | nil =>
    constructor
    · intro h
      exact ⟨cs, .nil cs, h⟩
    · rintro ⟨mid, h, hlower⟩
      cases h
      exact hlower
  | cons e upper ih =>
    obtain ⟨b, place⟩ := e
    rw [List.cons_append, closes_cons]
    simp only [ih, closes_cons]
    constructor
    · rintro ⟨m, h, mid, hupper, hlower⟩
      exact ⟨mid, ⟨m, h, hupper⟩, hlower⟩
    · rintro ⟨mid, ⟨m, h, hupper⟩, hlower⟩
      exact ⟨m, h, mid, hupper, hlower⟩

end Owes

/-! ### The stack -/

section Calls

variable {text rest : List Char} {i : ℕ} (hheld : Held text)

include hheld

/-- An element is passed over, or opened. -/
theorem element_at (b : Bracket) (stack : List (Bracket × Place)) (fuel : ℕ) (hat : At text i rest) :
    (∃ stack' i' rest',
        (do
          let (child, i) ← atom text (← name text b i)
          compositeLoop text fuel (child.toList.map (·, .first) ++ (b, .behind) :: stack) i : Parse ℕ) =
            compositeLoop text fuel stack' i' ∧
        At text i' rest' ∧ rest'.length < rest.length ∧ ∀ r, Closes ((b, .next) :: stack) rest r ↔ Closes stack' rest' r) ∨
      ((do
          let (child, i) ← atom text (← name text b i)
          compositeLoop text fuel (child.toList.map (·, .first) ++ (b, .behind) :: stack) i : Parse ℕ) = .error .refused ∧
        ∀ r, ¬ Closes ((b, .next) :: stack) rest r) := by
  rcases name_at hheld b hat with ⟨us, i₁, rest₁, heq, hat₁, hname⟩ | ⟨heq, hnone⟩
  · rw [heq, ok_bind]
    rcases atom_at hheld hat₁ with ⟨child, i₂, k, rest₂, heq₂, hat₂, hws, hstops, hlt, hatom⟩ | ⟨heq₂, hnone⟩
    · rw [heq₂, ok_bind]
      have hlen := hname.length
      have hlen₂ := hws.length
      refine .inl ⟨_, i₂, rest₂, rfl, hat₂, by omega, fun r => ?_⟩
      rw [closes_append, closes_cons]
      simp only [owes_atom hname hws hstops hatom, closes_cons]
      constructor
      · rintro ⟨mid, ⟨m, h, hbehind⟩, hmore⟩
        exact ⟨m, h, mid, hbehind, hmore⟩
      · rintro ⟨m, h, mid, hbehind, hmore⟩
        exact ⟨mid, ⟨m, h, hbehind⟩, hmore⟩
    · rw [heq₂]
      refine .inr ⟨rfl, fun r h => ?_⟩
      obtain ⟨mid, h, -⟩ := closes_cons.mp h
      obtain ⟨us', c, v, x, v', hname', hv, hval, hmore⟩ := owes_next.mp h
      obtain ⟨rfl, rfl⟩ := hname.eq hname'
      exact hnone v x v' hv hval hmore.stops
  · rw [heq]
    refine .inr ⟨rfl, fun r h => ?_⟩
    obtain ⟨mid, h, -⟩ := closes_cons.mp h
    obtain ⟨us', c, v, x, v', hname', -⟩ := owes_next.mp h
    exact hnone us' c hname'

/-- A step of the loop passes over some of the text, and what is owed stays the same; or
the text is refused, and what is owed cannot be met. -/
theorem step_at (b : Bracket) (place : Place) (stack : List (Bracket × Place)) (fuel : ℕ) (hat : At text i rest) :
    (∃ stack' i' rest', compositeLoop text (fuel + 1) ((b, place) :: stack) i =
      compositeLoop text fuel stack' i' ∧ At text i' rest' ∧
        rest'.length < rest.length ∧ ∀ r, Closes ((b, place) :: stack) rest r ↔ Closes stack' rest' r) ∨
      (compositeLoop text (fuel + 1) ((b, place) :: stack) i = .error .refused ∧ ∀ r, ¬ Closes ((b, place) :: stack) rest r) := by
  obtain ⟨i₁, k, heq, hat₁, hws, hstops⟩ := space_at hheld hat
  have hlen := hws.length
  rw [compositeLoop, heq, ok_bind, hat₁.byte]
  simp only [Closes.front hws]
  rcases first_byte k with ⟨rfl, hbyte⟩ | ⟨c, t, byte, hk, hbyte, hleads⟩
  · -- The text is at its end, and the bracket is open.
    rw [hbyte]
    refine .inr ⟨rfl, fun r h => ?_⟩
    obtain ⟨mid, h, -⟩ := closes_cons.mp h
    have hnext : ¬ Owes b .next [] mid := by
      intro h
      obtain ⟨us, c, v, x, v', hname, hv, hval, -⟩ := owes_next.mp h
      cases hname with
      | array =>
        cases hv.eq_of_stops hstops
        cases hval with
        | number h =>
          obtain ⟨c, t, heq, -⟩ := h.cons
          cases heq
        | string h =>
          obtain ⟨body, heq, -⟩ := h
          cases heq
      | object hk hstr _ =>
        cases hk.eq_of_stops hstops
        obtain ⟨body, heq, -⟩ := hstr
        cases heq
    cases place with
    | next => exact hnext h
    | first => exact hnext ((owes_first hstops (by simp)).mp h)
    | behind =>
      obtain ⟨c, heq, -⟩ := (owes_behind hstops (by simp)).mp h
      cases heq
  rw [hbyte, orRefuse, ok_bind]
  have hclosing : byte = closing b ↔ c = b.closing := by
    cases b
    · exact hleads.eq_iff ']' (by decide)
    · exact hleads.eq_iff '}' (by decide)
  have hlt : b.closing.toNat < 128 := by
    cases b <;> decide
  have hne : c ≠ b.closing → ∀ t', k ≠ b.closing :: t' := by
    intro hc t' h
    rw [hk] at h
    exact hc (List.cons.inj h).1
  -- Behind a bracket that is closed.
  have hclosed : c = b.closing → place ≠ .next → bump i₁ 1 = .ok (i₁ + 1) ∧ At text (i₁ + 1) t ∧ t.length < rest.length ∧
      ∀ r, Closes ((b, place) :: stack) k r ↔ Closes stack t r := by
    rintro rfl hplace
    have hbump := (hk ▸ hat₁).bump_step hheld
    have hstep := (hk ▸ hat₁).step
    rw [size_of_lt hlt] at hbump hstep
    rw [hk, List.length_cons] at hlen
    refine ⟨hbump, hstep, hlen, fun r => ?_⟩
    rw [hk, closes_cons]
    simp only [owes_closing hplace, exists_eq_left]
  cases place with
  | behind =>
    rw [if_pos rfl]
    by_cases hc : c = b.closing
    · rw [if_pos (hclosing.mpr hc)]
      obtain ⟨hbump, hat₂, hlt, hiff⟩ := hclosed hc (by decide)
      rw [hbump]
      exact .inl ⟨stack, _, t, rfl, hat₂, hlt, hiff⟩
    · rw [if_neg fun h => hc (hclosing.mp h)]
      have hbehind : ∀ r, Closes ((b, .behind) :: stack) k r ↔ ∃ c, k = ',' :: c ∧ Closes ((b, .next) :: stack) c r := by
        intro r
        simp only [closes_cons, owes_behind hstops (hne hc)]
        constructor
        · rintro ⟨mid, ⟨c, rfl, h⟩, hmore⟩
          exact ⟨c, rfl, mid, h, hmore⟩
        · rintro ⟨c, rfl, mid, h, hmore⟩
          exact ⟨mid, ⟨c, rfl, h⟩, hmore⟩
      rcases token_at hheld ',' (by decide) not_isWs_comma hat₁ with ⟨i₂, rest₂, heq₂, hat₂, hcomma⟩ | ⟨heq₂, hnone⟩
      · change token text 44 i₁ = _ at heq₂
        rw [heq₂]
        have hk₂ := hcomma.eq_of_stops hstops
        have hlen₂ : (',' :: rest₂).length ≤ rest.length := hk₂ ▸ hlen
        refine .inl ⟨_, i₂, rest₂, rfl, hat₂, hlen₂, fun r => ?_⟩
        rw [hbehind]
        constructor
        · rintro ⟨c', hk', h⟩
          rw [← hk₂] at hk'
          rwa [(List.cons.inj hk').2]
        · intro h
          exact ⟨rest₂, hk₂.symm, h⟩
      · change token text 44 i₁ = _ at heq₂
        rw [heq₂]
        refine .inr ⟨rfl, fun r h => ?_⟩
        obtain ⟨c', rfl, -⟩ := (hbehind r).mp h
        exact hnone c' (.done _)
  | first =>
    rw [if_neg (by decide)]
    by_cases hc : c = b.closing
    · rw [if_pos ⟨rfl, hclosing.mpr hc⟩]
      obtain ⟨hbump, hat₂, hlt, hiff⟩ := hclosed hc (by decide)
      rw [hbump]
      exact .inl ⟨stack, _, t, rfl, hat₂, hlt, hiff⟩
    · rw [if_neg fun h => hc (hclosing.mp h.2)]
      simp only [closes_cons, owes_first hstops (hne hc)]
      simp only [← closes_cons]
      rcases element_at hheld b stack fuel hat₁ with ⟨stack', i', rest', heq', hat', hlt, hiff⟩ | ⟨heq', hnone⟩
      · exact .inl ⟨stack', i', rest', heq', hat', by omega, hiff⟩
      · exact .inr ⟨heq', hnone⟩
  | next =>
    rw [if_neg (by decide), if_neg (by simp)]
    rcases element_at hheld b stack fuel hat₁ with ⟨stack', i', rest', heq', hat', hlt, hiff⟩ | ⟨heq', hnone⟩
    · exact .inl ⟨stack', i', rest', heq', hat', by omega, hiff⟩
    · exact .inr ⟨heq', hnone⟩

/-- The loop reads to where all that is open is closed. -/
theorem compositeLoop_at (fuel : ℕ) : ∀ (stack : List (Bracket × Place)) {i : ℕ} {rest : List Char}, At text i rest →
    rest.length < fuel →
      (∃ i' rest', compositeLoop text fuel stack i = .ok i' ∧ At text i' rest' ∧ ∀ r, Closes stack rest r ↔ r = rest') ∨
        (compositeLoop text fuel stack i = .error .refused ∧ ∀ r, ¬ Closes stack rest r) := by
  induction fuel with
  | zero =>
    intro stack i rest hat hlt
    cases hlt
  | succ fuel ih =>
    intro stack i rest hat hlt
    cases stack with
    | nil =>
      refine .inl ⟨i, rest, rfl, hat, fun r => ⟨fun h => ?_, ?_⟩⟩
      · cases h
        rfl
      · rintro rfl
        exact .nil r
    | cons e stack =>
      obtain ⟨b, place⟩ := e
      rcases step_at hheld b place stack fuel hat with
        ⟨stack', i', rest', heq, hat', hless, hiff⟩ | ⟨heq, hnone⟩
      · rw [heq]
        simp only [hiff]
        exact ih _ hat' (by omega)
      · exact .inr ⟨heq, hnone⟩

/-- A composite is read to where it is closed. -/
theorem composite_at (b : Bracket) (hat : At text i rest) :
    (∃ i' rest', composite text b i = .ok i' ∧ At text i' rest' ∧ ∀ r, (∃ members, Body b rest members r) ↔ r = rest') ∨
      (composite text b i = .error .refused ∧ ∀ members r, ¬ Body b rest members r) := by
  have hcloses : ∀ r, Closes [(b, .first)] rest r ↔ ∃ members, Body b rest members r := by
    intro r
    rw [closes_cons]
    constructor
    · rintro ⟨mid, h, hmid⟩
      cases hmid
      exact h
    · intro h
      exact ⟨r, h, .nil r⟩
  rcases compositeLoop_at hheld _ [(b, .first)] hat hat.lt_budget with ⟨i', rest', heq, hat', hiff⟩ | ⟨heq, hnone⟩
  · simp only [hcloses] at hiff
    exact .inl ⟨i', rest', heq, hat', hiff⟩
  · simp only [hcloses] at hnone
    exact .inr ⟨heq, fun members r h => hnone r ⟨members, h⟩⟩

/-- A value is read where one stands, behind any whitespace. -/
theorem value_at (hat : At text i rest) :
    (∃ x i' k rest', value text i = .ok (x, i') ∧ At text i' rest' ∧ Ws rest k ∧ Val k x rest' ∧
        ∀ k' x' r, Ws rest k' → Val k' x' r → Stops GoesOn r → x' = x ∧ r = rest') ∨
      (value text i = .error .refused ∧ ∀ k x r, Ws rest k → Val k x r → ¬ Stops GoesOn r) := by
  obtain ⟨i₁, k, heq, hat₁, hws, hstops⟩ := space_at hheld hat
  have hsame : ∀ {k' x r}, Ws rest k' → Val k' x r → k' = k := fun h hval => (hws.eq h hstops hval.noWs).symm
  rw [value, heq, ok_bind, hat₁.byte]
  have hquote : (asBytes k)[0]? = some 34 ↔ ∃ t, k = '"' :: t := by
    rcases first_byte k with ⟨rfl, hbyte⟩ | ⟨c, t, byte, rfl, hbyte, hleads⟩
    · simp [hbyte]
    · have hiff : byte = 34 ↔ c = '"' := hleads.eq_iff '"' (by decide)
      simp [hbyte, hiff]
  by_cases hstring : ∃ t, k = '"' :: t
  · rw [if_pos (hquote.mpr hstring)]
    obtain ⟨t, rfl⟩ := hstring
    rcases string_at hheld hat₁ with ⟨us, i', k', rest', heq', hat', hws', hstr⟩ | ⟨heq', hnone⟩
    · obtain rfl := hws'.eq_of_stops hstops
      rw [heq', ok_bind]
      refine .inl ⟨.string us, i', _, rest', rfl, hat', hws, .string hstr, fun k' x' r hk' hval _ => ?_⟩
      obtain rfl := hsame hk' hval
      obtain ⟨us', rfl, hchars⟩ := hval.quote
      obtain ⟨rfl, rfl⟩ := hstr.eq ⟨t, rfl, hchars⟩
      exact ⟨rfl, rfl⟩
    · rw [heq']
      refine .inr ⟨rfl, fun k' x r hk' hval _ => ?_⟩
      obtain rfl := hsame hk' hval
      obtain ⟨us, rfl, hchars⟩ := hval.quote
      exact hnone _ us r (.done _) ⟨t, rfl, hchars⟩
  rw [if_neg fun h => hstring (hquote.mp h)]
  rcases literal_at hheld "null" rfl hat₁ with ⟨t, i', rfl, heq', hat'⟩ | ⟨hnull, heq'⟩
  · rw [heq']
    refine .inl ⟨.null, i', _, t, rfl, hat', hws, .null t, fun k' x' r hk' hval _ => ?_⟩
    obtain rfl := hsame hk' hval
    exact hval.null_eq
  rw [heq', ok_bind]
  dsimp only
  have hother : ∀ {x r}, Val k x r → x = .other := fun hval => hval.eq_other hnull (not_exists.mp hstring)
  rcases atom_at hheld hat₁ with ⟨child, i₂, k₂, rest₂, heq₂, hat₂, hws₂, hstops₂, hlt, hatom⟩ | ⟨heq₂, hnone⟩
  · rw [heq₂, ok_bind]
    obtain rfl := hws₂.eq_of_stops hstops
    cases hatom with
    | value x hval hone =>
      obtain rfl := hother hval
      refine .inl ⟨.other, i₂, _, rest₂, rfl, hat₂, hws, hval, fun k' x' r hk' hval' hr => ?_⟩
      obtain rfl := hsame hk' hval'
      exact hone x' r hval' hr
    | opening b hk =>
      dsimp only
      rcases composite_at hheld b hat₂ with ⟨i₃, rest₃, heq₃, hat₃, hiff⟩ | ⟨heq₃, hnone⟩
      · rw [heq₃]
        obtain ⟨members, hbody⟩ := (hiff rest₃).mpr rfl
        refine .inl ⟨.other, i₃, _, rest₃, rfl, hat₃, hws, hk ▸ .bracket hbody, fun k' x' r hk' hval' hr => ?_⟩
        obtain rfl := hsame hk' hval'
        rw [hk] at hval'
        obtain ⟨rfl, hbody'⟩ := hval'.opening
        exact ⟨rfl, (hiff r).mp hbody'⟩
      · rw [heq₃]
        refine .inr ⟨rfl, fun k' x' r hk' hval' hr => ?_⟩
        obtain rfl := hsame hk' hval'
        rw [hk] at hval'
        obtain ⟨-, members, hbody⟩ := hval'.opening
        exact hnone members r hbody
  · rw [heq₂]
    refine .inr ⟨rfl, fun k' x' r hk' hval' hr => ?_⟩
    obtain rfl := hsame hk' hval'
    exact hnone _ x' r (.done _) hval' hr

end Calls

/-! ### The members -/

abbrev Members := List (List UInt16 × Value)

/-- The map of members that are read in order, where their names decode. -/
def fill (fields : Fields) (members : Members) : Option Fields :=
  members.foldlM (fun fields member => (decode member.1).map fun key => fields.insert (String.ofList key) member.2) fields

/-- The value of the last member of a name. -/
def last (members : Members) (name : List UInt16) : Option Value := members.reverse.lookup name

theorem last_cons (member : List UInt16 × Value) (members : Members) (name : List UInt16) :
    last (member :: members) name = (last members name).or (if member.1 = name then some member.2 else none) := by
  unfold last
  rw [List.reverse_cons, List.lookup_append]
  congr 1
  obtain ⟨us, x⟩ := member
  by_cases h : us = name
  · simp [h]
  · have hne : (name == us) = false := beq_false_of_ne (Ne.symm h)
    simp [List.lookup, h, hne]

theorem fill_cons {fields m : Fields} {member : List UInt16 × Value} {members : Members}
    (h : fill fields (member :: members) = some m) :
    ∃ key, decode member.1 = some key ∧ fill (fields.insert (String.ofList key) member.2) members = some m := by
  unfold fill at h
  rw [List.foldlM_cons] at h
  cases hkey : decode member.1 with
  | none =>
    rw [hkey] at h
    cases h
  | some key =>
    rw [hkey] at h
    exact ⟨key, rfl, h⟩

theorem encodeUtf16_ofList (cs : List Char) : encodeUtf16 (String.ofList cs) = cs.flatMap units := by
  rw [encodeUtf16, String.toList_ofList]

theorem encodeUtf16_injective {a b : String} (h : encodeUtf16 a = encodeUtf16 b) : a = b := by
  have h' := congrArg decode h
  rw [encodeUtf16, encodeUtf16, decode_flatMap, decode_flatMap] at h'
  exact String.toList_injective (Option.some.inj h')

/-- The map holds each name's last value. -/
theorem fill_getElem? {members : Members} : ∀ {fields m : Fields}, fill fields members = some m → ∀ name : String,
    m[name]? = (last members (encodeUtf16 name)).or fields[name]? := by
  induction members with
  | nil =>
    intro fields m h name
    obtain rfl := Option.some.inj h
    rfl
  | cons member members ih =>
    intro fields m h name
    obtain ⟨key, hkey, h⟩ := fill_cons h
    rw [ih h name, last_cons, Option.or_assoc, Std.ExtTreeMap.getElem?_insert]
    congr 1
    have hname : member.1 = encodeUtf16 name ↔ String.ofList key = name := by
      rw [decode_eq_some hkey, ← encodeUtf16_ofList]
      exact ⟨encodeUtf16_injective, congrArg encodeUtf16⟩
    by_cases heq : String.ofList key = name
    · rw [if_pos (Std.LawfulEqCmp.compare_eq_iff_eq.mpr heq), if_pos (hname.mpr heq), Option.some_or]
    · rw [if_neg fun h => heq (Std.LawfulEqCmp.compare_eq_iff_eq.mp h), if_neg fun h => heq (hname.mp h), Option.none_or]

theorem last_isSome {members : Members} {name : List UInt16} : (last members name).isSome ↔ ∃ x, (name, x) ∈ members := by
  induction members with
  | nil => simp [last]
  | cons member members ih =>
    obtain ⟨us, x⟩ := member
    rw [last_cons]
    by_cases h : us = name
    · simp [h]
    · simp [h, Ne.symm h, ih]

/-- Members of names that decode fill a map. -/
theorem fill_isSome {members : Members} : ∀ {fields : Fields}, (∀ member ∈ members, (decode member.1).isSome) →
    ∃ m, fill fields members = some m := by
  induction members with
  | nil =>
    intro fields h
    exact ⟨fields, rfl⟩
  | cons member members ih =>
    intro fields h
    obtain ⟨key, hkey⟩ := Option.isSome_iff_exists.mp (h member (.head _))
    obtain ⟨m, hm⟩ := ih fun member' hmem => h member' (.tail _ hmem)
    refine ⟨m, ?_⟩
    unfold fill
    rw [List.foldlM_cons, hkey]
    exact hm

theorem fill_decodes {members : Members} : ∀ {fields m : Fields}, fill fields members = some m →
    ∀ member ∈ members, ∃ name : String, member.1 = encodeUtf16 name := by
  induction members with
  | nil =>
    intro fields m h member hmem
    cases hmem
  | cons member members ih =>
    intro fields m h member' hmem
    obtain ⟨key, hkey, h⟩ := fill_cons h
    rcases List.mem_cons.mp hmem with rfl | hmem
    · exact ⟨String.ofList key, (decode_eq_some hkey).trans (encodeUtf16_ofList key).symm⟩
    · exact ih h member' hmem

section Begins

variable {rest k t r : List Char} {us : List UInt16} {x : Value} {members : Members}

/-- The rest of an object begins with the member `(us, x)`, and `k` stands after it. -/
structure Begins (rest : List Char) (us : List UInt16) (x : Value) (k : List Char) : Prop where
  shorter : k.length < rest.length
  element : ∀ {members r}, Tail .object k members r → Elements .object rest ((us, x) :: members) r
  only : ∀ {members r}, Elements .object rest members r →
    ∃ members', members = (us, x) :: members' ∧ Tail .object k members' r

theorem Begins.closed (h : Begins rest us x ('}' :: t)) : Elements .object rest members r ↔ members = [(us, x)] ∧ r = t := by
  have hstops : Stops IsWs ('}' :: t) := stops_cons.mpr (Bracket.not_isWs_closing .object)
  constructor
  · intro hmembers
    obtain ⟨members', rfl, htail⟩ := h.only hmembers
    cases htail with
    | close hws => exact ⟨rfl, (List.cons.inj (hws.eq_of_stops hstops)).2⟩
    | comma hws _ => cases (List.cons.inj (hws.eq_of_stops hstops)).1
  · rintro ⟨rfl, rfl⟩
    exact h.element (.close (.done _))

theorem Begins.goesOn (h : Begins rest us x (',' :: t)) :
    Elements .object rest members r ↔ ∃ members', members = (us, x) :: members' ∧ Elements .object t members' r := by
  have hstops : Stops IsWs (',' :: t) := stops_cons.mpr not_isWs_comma
  constructor
  · intro hmembers
    obtain ⟨members', rfl, htail⟩ := h.only hmembers
    cases htail with
    | close hws => cases (List.cons.inj (hws.eq_of_stops hstops)).1
    | comma hws hmore => exact ⟨members', rfl, (List.cons.inj (hws.eq_of_stops hstops)).2 ▸ hmore⟩
  · rintro ⟨members', rfl, hmore⟩
    exact h.element (.comma (.done _) hmore)

/-- A member that neither `}` nor `,` follows is in no object. -/
theorem Begins.cut (h : Begins rest us x k) (hstops : Stops IsWs k) (hclose : ∀ t, k ≠ '}' :: t) (hcomma : ∀ t, k ≠ ',' :: t) :
    ¬ Elements .object rest members r := by
  intro hmembers
  obtain ⟨members', rfl, htail⟩ := h.only hmembers
  cases htail with
  | close hws => exact hclose _ (hws.eq_of_stops hstops).symm
  | comma hws _ => exact hcomma _ (hws.eq_of_stops hstops).symm

/-- An answer for the text of the rest of an object with nothing after it: the map that its
members fill, or a refusal where none fill one. -/
def Answers (fields : Fields) (rest : List Char) (answer : Parse Fields) : Prop :=
  (∃ members r m, answer = .ok m ∧ Elements .object rest members r ∧ Ws r [] ∧ fill fields members = some m ∧
      ∀ members' r', Elements .object rest members' r' → members' = members) ∨
    answer = .error .refused ∧ ∀ members r, Elements .object rest members r → Ws r [] → fill fields members = none

theorem answers_refused {fields : Fields} (h : ∀ members r, ¬ Elements .object rest members r) :
    Answers fields rest (.error .refused) := .inr ⟨rfl, fun members r hmembers _ => absurd hmembers (h members r)⟩

theorem fill_member {fields : Fields} {key : List Char} (hkey : decode us = some key) :
    fill fields ((us, x) :: members) = fill (fields.insert (String.ofList key) x) members := by
  unfold fill
  rw [List.foldlM_cons, hkey]
  rfl

end Begins

/-- The loop from behind a member on. -/
def behindMember (text : List Char) (fuel : ℕ) (fields : Fields) (i : ℕ) : Parse Fields := do
  let separator ← orRefuse (asBytes text)[i]?
  let i ← bump i 1
  if separator = 125 then
    let i ← space text i
    if i ≠ (asBytes text).length then .error .refused else return fields
  else if separator ≠ 44 then .error .refused
  else objectLoop text fuel fields i

section Calls

variable {text : List Char} {i : ℕ} {rest : List Char} (hheld : Held text)

include hheld

/-- A turn of the loop reads a member, or refuses. -/
theorem member_at (fuel : ℕ) (fields : Fields) (hat : At text i rest) :
    (∃ us x key i' k, decode us = some key ∧ Begins rest us x k ∧ At text i' k ∧ Stops IsWs k ∧
        objectLoop text (fuel + 1) fields i = behindMember text fuel (fields.insert (String.ofList key) x) i') ∨
      Answers fields rest (objectLoop text (fuel + 1) fields i) := by
  rw [objectLoop]
  rcases string_at hheld hat with ⟨us, i₁, k, rest₁, heq₁, hat₁, hws₁, hstr⟩ | ⟨heq₁, hnone⟩
  swap
  · rw [heq₁]
    refine .inr (answers_refused fun members r h => ?_)
    cases h with
    | element hname _ _ _ =>
      cases hname with
      | object hk hstr _ => exact hnone _ _ _ hk hstr
  rw [heq₁, ok_bind]
  dsimp only
  have hsame₁ : ∀ {us' c}, Name .object rest us' c → us' = us ∧ Ws rest₁ (':' :: c) := by
    intro us' c hname
    cases hname with
    | object hk hstr' hcolon =>
      obtain rfl := hws₁.eq hk hstr.noWs hstr'.noWs
      obtain ⟨rfl, rfl⟩ := hstr.eq hstr'
      exact ⟨rfl, hcolon⟩
  cases hkey : decode us with
  | none =>
    refine .inr (.inr ⟨rfl, fun members r h _ => ?_⟩)
    cases h with
    | element hname _ _ _ =>
      obtain ⟨rfl, -⟩ := hsame₁ hname
      unfold fill
      rw [List.foldlM_cons, hkey]
      rfl
  | some key =>
    rw [orRefuse, ok_bind]
    rcases token_at hheld ':' (by decide) not_isWs_colon hat₁ with ⟨i₂, rest₂, heq₂, hat₂, hcolon⟩ | ⟨heq₂, hnone⟩
    swap
    · change token text 58 i₁ = _ at heq₂
      rw [heq₂]
      refine .inr (answers_refused fun members r h => ?_)
      cases h with
      | element hname _ _ _ => exact hnone _ (hsame₁ hname).2
    change token text 58 i₁ = _ at heq₂
    rw [heq₂, ok_bind]
    have hname₂ : Name .object rest us rest₂ := .object hws₁ hstr hcolon
    rcases value_at hheld hat₂ with ⟨x, i₃, k₃, rest₃, heq₃, hat₃, hws₃, hval, hone⟩ | ⟨heq₃, hnone⟩
    swap
    · rw [heq₃]
      refine .inr (answers_refused fun members r h => ?_)
      cases h with
      | element hname hv hval htail =>
        obtain ⟨rfl, rfl⟩ := hname₂.eq hname
        exact hnone _ _ _ hv hval htail.stops
    rw [heq₃, ok_bind]
    dsimp only
    obtain ⟨i₄, k₄, heq₄, hat₄, hws₄, hstops₄⟩ := space_at hheld hat₃
    rw [heq₄, ok_bind]
    refine .inl ⟨us, x, key, i₄, k₄, hkey, ⟨?shorter, fun htail => ?element, fun h => ?only⟩, hat₄, hstops₄, rfl⟩
    case shorter => exact (hws₄.length.trans_lt hval.length).trans_le (hws₃.length.trans hname₂.length)
    case element => exact .element hname₂ hws₃ hval ((Tail.front hws₄).mpr htail)
    case only =>
      cases h with
      | element hname hv hval' htail =>
        obtain ⟨rfl, rfl⟩ := hname₂.eq hname
        obtain ⟨rfl, rfl⟩ := hone _ _ _ hv hval' htail.stops
        exact ⟨_, rfl, (Tail.front hws₄).mp htail⟩

/-- Behind the last member the object is closed, and the text is at its end. -/
theorem closed_at {us : List UInt16} {x : Value} {key t : List Char} (fields : Fields) (hat : At text i t)
    (hbegins : Begins rest us x ('}' :: t)) (hkey : decode us = some key) :
    Answers fields rest (do
      let i ← space text i
      if i ≠ (asBytes text).length then .error .refused else return fields.insert (String.ofList key) x) := by
  obtain ⟨i₅, k₅, heq₅, hat₅, hws₅, hstops₅⟩ := space_at hheld hat
  rw [heq₅, ok_bind]
  have hlen₅ := hat₅.length
  by_cases hend : k₅ = []
  · subst hend
    have hend : i₅ = (asBytes text).length := hlen₅
    rw [if_neg (not_not.mpr hend)]
    exact .inl ⟨[(us, x)], t, _, rfl, hbegins.closed.mpr ⟨rfl, rfl⟩, hws₅, fill_member hkey,
      fun members' r' h => (hbegins.closed.mp h).1⟩
  · have hne : i₅ ≠ (asBytes text).length := by
      have := length_le_asBytes k₅
      have := List.length_pos_iff.mpr hend
      omega
    rw [if_pos hne]
    refine .inr ⟨rfl, fun members r h hws => ?_⟩
    obtain ⟨-, rfl⟩ := hbegins.closed.mp h
    exact absurd (hws₅.eq hws hstops₅ (stops_nil _)) hend

/-- Behind a member the object is closed, or goes on as the loop does. -/
theorem behindMember_at {fuel : ℕ} {us : List UInt16} {x : Value} {key k : List Char} (fields : Fields) (hat : At text i k)
    (hbegins : Begins rest us x k) (hkey : decode us = some key) (hstops : Stops IsWs k)
    (ih : ∀ {i t}, k = ',' :: t → At text i t →
      Answers (fields.insert (String.ofList key) x) t (objectLoop text fuel (fields.insert (String.ofList key) x) i)) :
    Answers fields rest (behindMember text fuel (fields.insert (String.ofList key) x) i) := by
  rw [behindMember, hat.byte]
  rcases first_byte k with ⟨rfl, hbyte⟩ | ⟨c, t, byte, rfl, hbyte, hfirst⟩
  · rw [hbyte]
    exact answers_refused fun members r => hbegins.cut hstops (by simp) (by simp)
  rw [hbyte, orRefuse, ok_bind]
  have hbump : bump i 1 = .ok (i + 1) := by
    have hlen := hat.length
    have hpos : 0 < (asBytes (c :: t)).length := by
      rw [asBytes_cons, List.length_append, String.length_utf8EncodeChar]
      exact Nat.add_pos_left c.utf8Size_pos _
    unfold Held at hheld
    rw [bump, if_pos (by omega)]
  rw [hbump, ok_bind]
  have hclose : byte = 125 ↔ c = '}' := hfirst.eq_iff '}' (by decide)
  have hcomma : byte = 44 ↔ c = ',' := hfirst.eq_iff ',' (by decide)
  have hstep : c.toNat < 128 → At text (i + 1) t := by
    intro hlt
    have h := hat.step
    rwa [size_of_lt hlt] at h
  by_cases hc : c = '}'
  · rw [if_pos (hclose.mpr hc)]
    subst hc
    exact closed_at hheld fields (hstep (by decide)) hbegins hkey
  rw [if_neg fun h => hc (hclose.mp h)]
  by_cases hc' : c = ','
  · rw [if_neg (not_not.mpr (hcomma.mpr hc'))]
    subst hc'
    rcases ih rfl (hstep (by decide)) with ⟨members, r, m, heq, helements, hws, hm, hone⟩ | ⟨heq, hnone⟩
    · refine .inl ⟨(us, x) :: members, r, m, heq, hbegins.goesOn.mpr ⟨members, rfl, helements⟩, hws,
        (fill_member hkey).trans hm, fun members' r' h => ?_⟩
      obtain ⟨members'', rfl, hmore⟩ := hbegins.goesOn.mp h
      rw [hone _ _ hmore]
    · refine .inr ⟨heq, fun members r h hws => ?_⟩
      obtain ⟨members', rfl, hmore⟩ := hbegins.goesOn.mp h
      exact (fill_member hkey).trans (hnone _ _ hmore hws)
  · rw [if_pos fun h => hc' (hcomma.mp h)]
    exact answers_refused fun members r =>
      hbegins.cut hstops (fun t' h => hc (List.cons.inj h).1) fun t' h => hc' (List.cons.inj h).1

/-- The loop answers for the text of the rest of an object with nothing after it. -/
theorem objectLoop_at (fuel : ℕ) : ∀ (fields : Fields) {i : ℕ} {rest : List Char}, At text i rest → rest.length < fuel →
    Answers fields rest (objectLoop text fuel fields i) := by
  induction fuel with
  | zero =>
    intro fields i rest hat hlt
    cases hlt
  | succ fuel ih =>
    intro fields i rest hat hlt
    rcases member_at hheld fuel fields hat with ⟨us, x, key, i', k, hkey, hbegins, hat', hstops, heq⟩ | h
    · rw [heq]
      refine behindMember_at hheld fields hat' hbegins hkey hstops fun hk hat'' => ih _ hat'' ?_
      have hshorter := hbegins.shorter
      rw [hk, List.length_cons] at hshorter
      omega
    · exact h

/-- An object is read to the end of the text, except that one with no members is not
told from what begins with it. -/
theorem object_at :
    (∃ m, object text = .ok m ∧
        (m = ∅ ∧ (∀ members, Object text members → members = []) ∨
          ∃ members, Object text members ∧ fill ∅ members = some m ∧ ∀ members', Object text members' → members' = members)) ∨
      (object text = .error .refused ∧ ∀ members, Object text members → fill ∅ members = none) := by
  rw [object]
  have hopen : ¬ IsWs '{' := Bracket.not_isWs_opening .object
  rcases token_at hheld '{' (by decide) hopen (at_zero text) with ⟨i₁, rest₁, heq₁, hat₁, hws₁⟩ | ⟨heq₁, hnone⟩
  swap
  · change token text 123 0 = _ at heq₁
    rw [heq₁]
    exact .inr ⟨rfl, fun members ⟨body, _, hws, _⟩ => (hnone body hws).elim⟩
  change token text 123 0 = _ at heq₁
  rw [heq₁, ok_bind]
  obtain ⟨i₂, k, heq₂, hat₂, hws₂, hstops⟩ := space_at hheld hat₁
  rw [heq₂, ok_bind, hat₂.byte]
  have hbody : ∀ {members}, Object text members → ∃ r, Body .object k members r ∧ Ws r [] := by
    rintro members ⟨body, r, hws, h, hend⟩
    obtain ⟨-, rfl⟩ := List.cons.inj (hws₁.eq hws (stops_cons.mpr hopen) (stops_cons.mpr hopen))
    exact ⟨r, (Body.front hws₂).mp h, hend⟩
  have hclose : (asBytes k)[0]? = some 125 ↔ ∃ t, k = '}' :: t := by
    rcases first_byte k with ⟨rfl, hbyte⟩ | ⟨c, t, byte, rfl, hbyte, hleads⟩
    · simp [hbyte]
    · have hiff : byte = 125 ↔ c = '}' := hleads.eq_iff '}' (by decide)
      simp [hbyte, hiff]
  by_cases hempty : ∃ t, k = '}' :: t
  · rw [if_pos (hclose.mpr hempty)]
    obtain ⟨t, rfl⟩ := hempty
    have hbump : bump i₂ 1 = .ok (i₂ + 1) := hat₂.bump_step hheld
    rw [hbump]
    refine .inl ⟨∅, rfl, .inl ⟨rfl, fun members h => ?_⟩⟩
    obtain ⟨r, h, -⟩ := hbody h
    cases h with
    | empty => rfl
    | elements h =>
      cases h with
      | element hname _ _ _ =>
        cases hname with
        | object hk hstr _ =>
          obtain ⟨body, rfl, -⟩ := hstr
          cases hk.eq_of_stops hstops
  · rw [if_neg fun h => hempty (hclose.mp h)]
    have helements : ∀ {members}, Object text members → ∃ r, Elements .object k members r ∧ Ws r [] := by
      intro members h
      obtain ⟨r, h, hend⟩ := hbody h
      cases h with
      | empty h => exact absurd ⟨r, (h.eq_of_stops hstops).symm⟩ hempty
      | elements h => exact ⟨r, h, hend⟩
    rcases objectLoop_at hheld _ ∅ hat₂ hat₂.lt_budget with ⟨members, r, m, heq, h, hend, hfill, hone⟩ | ⟨heq, hnone⟩
    · refine .inl ⟨m, heq, .inr ⟨members, ?_, hfill, ?_⟩⟩
      · exact ⟨rest₁, r, hws₁, (Body.front hws₂).mpr (.elements h), hend⟩
      · intro members' h'
        obtain ⟨r', h', -⟩ := helements h'
        exact hone members' r' h'
    · refine .inr ⟨heq, fun members h => ?_⟩
      obtain ⟨r, h, hend⟩ := helements h
      exact hnone members r h hend

end Calls

/-! ### Edits -/

/-- The members' names are these. -/
def Named (members : Members) (names : List String) : Prop :=
  ∀ us, (∃ x, (us, x) ∈ members) ↔ ∃ name ∈ names, us = encodeUtf16 name

/-- A name's last value is a string that is not empty. -/
def Filled (members : Members) (name : String) : Prop :=
  ∃ us, us ≠ [] ∧ last members (encodeUtf16 name) = some (.string us)

/-- A deletion's or an insertion's members. -/
def IsEdit (members : Members) : Prop :=
  Named members ["kind", "atom_id"] ∧ last members (encodeUtf16 "kind") = some (.string (encodeUtf16 "delete")) ∧
      Filled members "atom_id" ∨
    Named members ["kind", "atom_id", "text", "after"] ∧
      last members (encodeUtf16 "kind") = some (.string (encodeUtf16 "insert")) ∧ Filled members "atom_id" ∧
      Filled members "text" ∧
      (last members (encodeUtf16 "after") = some .null ∨ ∃ us, last members (encodeUtf16 "after") = some (.string us))

/-- A map that holds some names holds no other if it is no larger. -/
theorem size_eq_iff {m : Fields} {names : List String} (hnodup : names.Nodup) (hmem : ∀ name ∈ names, name ∈ m) :
    m.size = names.length ↔ ∀ name ∈ m, name ∈ names := by
  have hsub : names.Subperm m.keys := List.subperm_of_subset hnodup fun name h => Std.ExtTreeMap.mem_keys.mpr (hmem name h)
  rw [← Std.ExtTreeMap.length_keys]
  constructor
  · intro hlen name h
    exact (hsub.perm_of_length_le hlen.le).mem_iff.mpr (Std.ExtTreeMap.mem_keys.mpr h)
  · intro h
    have hkeys : m.keys.Subperm names := by
      refine List.subperm_of_subset ?_ fun name hname => h name (Std.ExtTreeMap.mem_keys.mp hname)
      exact Std.ExtTreeMap.nodup_keys
    exact le_antisymm hkeys.length_le hsub.length_le

section Edits

variable {members : Members} {m : Fields} (hfill : fill ∅ members = some m)

include hfill

theorem getElem?_fill (name : String) : m[name]? = last members (encodeUtf16 name) := by
  rw [fill_getElem? hfill, Std.ExtTreeMap.getElem?_empty, Option.or_none]

theorem mem_fill (name : String) : name ∈ m ↔ ∃ x, (encodeUtf16 name, x) ∈ members := by
  rw [Std.ExtTreeMap.mem_iff_isSome_getElem?, getElem?_fill hfill, last_isSome]

theorem named_iff (names : List String) (hnodup : names.Nodup) (hmem : ∀ name ∈ names, name ∈ m) :
    m.size = names.length ↔ Named members names := by
  rw [size_eq_iff hnodup hmem]
  constructor
  · intro h us
    constructor
    · rintro ⟨x, hx⟩
      obtain ⟨name, hname⟩ := fill_decodes hfill _ hx
      change us = encodeUtf16 name at hname
      exact ⟨name, h name ((mem_fill hfill name).mpr ⟨x, hname ▸ hx⟩), hname⟩
    · rintro ⟨name, hname, rfl⟩
      exact (mem_fill hfill name).mp (hmem name hname)
  · intro h name hname
    obtain ⟨name', hname', heq⟩ := (h _).mp ((mem_fill hfill name).mp hname)
    rwa [encodeUtf16_injective heq]

theorem stringOf_fill (name : String) (us : List UInt16) :
    stringOf m name = some us ↔ last members (encodeUtf16 name) = some (.string us) := by
  unfold stringOf
  rw [getElem?_fill hfill]
  cases last members (encodeUtf16 name) with
  | none => simp
  | some x => cases x <;> simp

theorem mem_of_last {name : String} {x : Value} (h : last members (encodeUtf16 name) = some x) : name ∈ m := by
  rw [Std.ExtTreeMap.mem_iff_isSome_getElem?, getElem?_fill hfill, h]
  rfl

theorem filled_iff (name : String) : Filled members name ↔ (stringOf m name).any (· ≠ []) = true := by
  rw [Option.any_eq_true]
  constructor
  · rintro ⟨us, hne, h⟩
    exact ⟨us, (stringOf_fill hfill name us).mpr h, by simpa using hne⟩
  · rintro ⟨us, h, hne⟩
    exact ⟨us, by simpa using hne, (stringOf_fill hfill name us).mp h⟩

/-- The map's members are an edit's where the text's are. -/
theorem isEdit_fill : isEdit m = true ↔ IsEdit members := by
  have hkind : ∀ us, last members (encodeUtf16 "kind") = some (.string us) ↔ stringOf m "kind" = some us :=
    fun us => (stringOf_fill hfill "kind" us).symm
  have hafter : nullOrString m["after"]? = true ↔
      (last members (encodeUtf16 "after") = some .null ∨ ∃ us, last members (encodeUtf16 "after") = some (.string us)) := by
    rw [getElem?_fill hfill]
    cases last members (encodeUtf16 "after") with
    | none => simp [nullOrString]
    | some x => cases x <;> simp [nullOrString]
  have hne : encodeUtf16 "insert" ≠ encodeUtf16 "delete" := by decide
  unfold IsEdit
  simp only [hkind, filled_iff hfill]
  rw [isEdit]
  cases hk : stringOf m "kind" with
  | none => simp
  | some kind =>
    cases ha : stringOf m "atom_id" with
    | none => simp
    | some atom =>
      by_cases hatom : atom = []
      · simp [hatom]
      have hmem₁ : "kind" ∈ m := mem_of_last hfill ((stringOf_fill hfill _ _).mp hk)
      have hmem₂ : "atom_id" ∈ m := mem_of_last hfill ((stringOf_fill hfill _ _).mp ha)
      have hany : (some atom).any (· ≠ []) = true := by simpa using hatom
      have hdelete : m.size = 2 ↔ Named members ["kind", "atom_id"] :=
        named_iff hfill ["kind", "atom_id"] (by decide) (by simp [hmem₁, hmem₂])
      dsimp only
      rw [if_neg hatom]
      by_cases hd : kind = encodeUtf16 "delete"
      · subst hd
        simp only [if_true, decide_eq_true_iff, hdelete, hany, Option.some.injEq, hne.symm, false_and,
          and_false, or_false, and_true]
      · rw [if_neg hd]
        simp only [Option.some.injEq, hd, false_and, and_false, false_or, hany, true_and, Bool.and_eq_true, decide_eq_true_iff,
          hafter]
        constructor
        · rintro ⟨⟨⟨hkind, hsize⟩, htext⟩, hafter⟩
          have hmem₃ : "text" ∈ m := by
            obtain ⟨us, -, h⟩ := (filled_iff hfill "text").mpr htext
            exact mem_of_last hfill h
          have hmem₄ : "after" ∈ m := by
            rcases hafter with h | ⟨us, h⟩
            · exact mem_of_last hfill h
            · exact mem_of_last hfill h
          have hinsert : m.size = 4 ↔ Named members ["kind", "atom_id", "text", "after"] :=
            named_iff hfill ["kind", "atom_id", "text", "after"] (by decide) (by simp [hmem₁, hmem₂, hmem₃, hmem₄])
          exact ⟨hinsert.mp hsize, hkind, htext, hafter⟩
        · rintro ⟨hnamed, hkind, htext, hafter⟩
          have hmem : ∀ name ∈ ["kind", "atom_id", "text", "after"], name ∈ m := fun name h =>
            (mem_fill hfill name).mpr ((hnamed _).mpr ⟨name, h, rfl⟩)
          exact ⟨⟨⟨hkind, (named_iff hfill _ (by decide) hmem).mpr hnamed⟩, htext⟩, hafter⟩

end Edits

theorem not_isEdit_nil : ¬ IsEdit [] := by
  rintro (⟨-, h, -⟩ | ⟨-, h, -⟩) <;> cases h

/-- An edit's names all decode. -/
theorem IsEdit.fill {members : Members} (h : IsEdit members) : ∃ m, fill ∅ members = some m := by
  have hdecodes : ∀ {names}, Named members names → ∀ member ∈ members, (decode member.1).isSome := by
    rintro names hnamed ⟨us, x⟩ hmem
    obtain ⟨name, -, rfl⟩ := (hnamed us).mp ⟨x, hmem⟩
    change (decode (name.toList.flatMap units)).isSome
    rw [decode_flatMap]
    rfl
  rcases h with ⟨hnamed, -⟩ | ⟨hnamed, -⟩
  · exact fill_isSome (hdecodes hnamed)
  · exact fill_isSome (hdecodes hnamed)

theorem asBytes_of_fromUtf8 {b : Bytes} {s : String} (h : fromUtf8 b = some s) : asBytes s.toList = b := by
  rw [← utf8_eq_of_fromUtf8 h]
  conv_rhs => rw [← String.ofList_toList (s := s), utf8_ofList]
  rfl

/-- The payload check answers for every slice, and it accepts the texts of one object whose
members are an edit's. -/
theorem valid_text_payload_iff (bytes : Slice) :
    ∃ answer, validTextPayload bytes = .ok answer ∧
      (answer = true ↔ ∃ text members, fromUtf8 bytes.val = some text ∧ Object text.toList members ∧ IsEdit members) := by
  unfold validTextPayload
  cases htext : fromUtf8 bytes.val with
  | none => exact ⟨false, rfl, by simp⟩
  | some text =>
    have hheld : Held text.toList := by
      unfold Held
      rw [asBytes_of_fromUtf8 htext]
      exact bytes.property
    dsimp only
    have hsame : (∃ text' members, some text = some text' ∧ Object text'.toList members ∧ IsEdit members) ↔
        ∃ members, Object text.toList members ∧ IsEdit members := by
      constructor
      · rintro ⟨text', members, heq, h⟩
        obtain rfl := Option.some.inj heq
        exact ⟨members, h⟩
      · rintro ⟨members, h⟩
        exact ⟨text, members, rfl, h⟩
    rw [hsame]
    rcases object_at hheld with ⟨m, heq, ⟨rfl, hnone⟩ | ⟨members, hobject, hfill, hone⟩⟩ | ⟨heq, hnone⟩
    · rw [heq]
      refine ⟨isEdit ∅, rfl, ?_⟩
      constructor
      · intro h
        cases h
      · rintro ⟨members, hobject, hedit⟩
        obtain rfl := hnone members hobject
        exact absurd hedit not_isEdit_nil
    · rw [heq]
      refine ⟨isEdit m, rfl, ?_⟩
      rw [isEdit_fill hfill]
      constructor
      · intro h
        exact ⟨members, hobject, h⟩
      · rintro ⟨members', hobject', hedit⟩
        rwa [← hone members' hobject']
    · rw [heq]
      refine ⟨false, rfl, ?_⟩
      constructor
      · intro h
        cases h
      · rintro ⟨members, hobject, hedit⟩
        obtain ⟨m, hfill⟩ := hedit.fill
        rw [hnone members hobject] at hfill
        cases hfill

/-- A deletion's atom may be named by an unpaired surrogate. -/
example : isEdit ((∅ : Fields).insert "kind" (.string (encodeUtf16 "delete")) |>.insert "atom_id" (.string [0xD800])) = true := by
  decide

end Glade.Node.TextProfile
