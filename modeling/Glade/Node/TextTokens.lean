import Glade.Node.TextProfile
import Glade.Node.Signing

/-! What the text profile's parser accepts. A call that begins at an index of a text is
told by what is left of the text there: it answers where the grammar derives, comes to
an end, and stays in the machine's range. -/

namespace Glade.Node.TextProfile

open Wire Json

/-! ### Indices -/

/-- A text that a slice holds. -/
def Held (text : List Char) : Prop := (asBytes text).length < 2 ^ 63

/-- What is left of a text at an index. -/
def At (text : List Char) (i : ℕ) (rest : List Char) : Prop :=
  ∃ before, text = before ++ rest ∧ i = (asBytes before).length

theorem asBytes_append (a b : List Char) : asBytes (a ++ b) = asBytes a ++ asBytes b := List.flatMap_append

theorem asBytes_cons (c : Char) (cs : List Char) : asBytes (c :: cs) = String.utf8EncodeChar c ++ asBytes cs := List.flatMap_cons

theorem at_zero (text : List Char) : At text 0 text := ⟨[], rfl, rfl⟩

section At

variable {text rest : List Char} {i : ℕ}

theorem At.length (h : At text i rest) : i + (asBytes rest).length = (asBytes text).length := by
  obtain ⟨before, rfl, rfl⟩ := h
  rw [asBytes_append, List.length_append]

theorem At.step {c : Char} (h : At text i (c :: rest)) : At text (i + c.utf8Size) rest := by
  obtain ⟨before, rfl, rfl⟩ := h
  refine ⟨before ++ [c], by simp, ?_⟩
  rw [asBytes_append, List.length_append, asBytes_cons, List.length_append, String.length_utf8EncodeChar]
  rfl

theorem At.append {more : List Char} (h : At text i (more ++ rest)) : At text (i + (asBytes more).length) rest := by
  obtain ⟨before, rfl, rfl⟩ := h
  refine ⟨before ++ more, by simp, ?_⟩
  rw [asBytes_append, List.length_append]

theorem At.byte (h : At text i rest) : (asBytes text)[i]? = (asBytes rest)[0]? := by
  obtain ⟨before, rfl, rfl⟩ := h
  rw [asBytes_append, List.getElem?_append_right le_rfl, Nat.sub_self]

theorem At.sliceFrom (h : At text i rest) : sliceFrom text i = some rest := by
  obtain ⟨before, rfl, rfl⟩ := h
  induction before with
  | nil =>
    change TextProfile.sliceFrom rest 0 = some rest
    rw [TextProfile.sliceFrom]
  | cons c before ih =>
    have hsize := c.utf8Size_pos
    have hlen : (asBytes (c :: before)).length = c.utf8Size + (asBytes before).length := by
      rw [asBytes_cons, List.length_append, String.length_utf8EncodeChar]
    obtain ⟨n, hn⟩ : ∃ n, (asBytes (c :: before)).length = n + 1 := Nat.exists_eq_add_one.mpr (by omega)
    rw [List.cons_append, hn, TextProfile.sliceFrom, if_pos (by omega)]
    rw [show n + 1 - c.utf8Size = (asBytes before).length by omega]
    exact ih

theorem At.bump_step {c : Char} (h : At text i (c :: rest)) (hheld : Held text) :
    bump i c.utf8Size = .ok (i + c.utf8Size) := by
  have hlen := h.step.length
  unfold Held at hheld
  rw [bump, if_pos (by omega)]

end At

/-! ### Bytes and characters -/

/-- A character's first byte: the character itself, where it is ASCII. -/
def Leads (c : Char) (b : UInt8) : Prop := c.toNat < 128 ∧ b.toNat = c.toNat ∨ 128 ≤ c.toNat ∧ 128 ≤ b.toNat

theorem encode_leads (c : Char) : ∃ b t, String.utf8EncodeChar c = b :: t ∧ Leads c b := by
  unfold String.utf8EncodeChar Leads
  have hc : c.val.toNat = c.toNat := rfl
  simp only [hc]
  split_ifs with h₁ h₂ h₃
  · refine ⟨_, _, rfl, .inl ⟨by omega, ?_⟩⟩
    rw [UInt8.toNat_ofNat']
    omega
  all_goals
    refine ⟨_, _, rfl, .inr ⟨by omega, ?_⟩⟩
    rw [UInt8.toNat_ofNat']
    omega

/-- The first byte of a text, and its first character. -/
theorem first_byte (rest : List Char) :
    rest = [] ∧ (asBytes rest)[0]? = none ∨ ∃ c t b, rest = c :: t ∧ (asBytes rest)[0]? = some b ∧ Leads c b := by
  cases rest with
  | nil => exact .inl ⟨rfl, rfl⟩
  | cons c t =>
    obtain ⟨b, more, henc, hleads⟩ := encode_leads c
    refine .inr ⟨c, t, b, rfl, ?_, hleads⟩
    rw [asBytes_cons, henc]
    rfl

/-- An ASCII byte leads the character it is. -/
theorem Leads.eq_iff {c : Char} {b : UInt8} (h : Leads c b) (a : Char) (ha : a.toNat < 128) : b = .ofNat a.toNat ↔ c = a := by
  have hb : b = .ofNat a.toNat ↔ b.toNat = a.toNat := by
    rw [← UInt8.toNat_inj, UInt8.toNat_ofNat']
    rw [Nat.mod_eq_of_lt (by omega)]
  rw [hb, ← Char.toNat_inj]
  rcases h with ⟨h, heq⟩ | ⟨h, hge⟩ <;> omega

/-- A class of ASCII bytes, and the characters they are. -/
def Matches (p : UInt8 → Bool) (q : Char → Prop) : Prop :=
  ∀ c b, Leads c b → (p b = true ↔ q c) ∧ (q c → c.utf8Size = 1)

theorem size_of_lt {c : Char} (h : c.toNat < 128) : c.utf8Size = 1 := by
  have hc : c.val.toNat = c.toNat := rfl
  have hle : c.val ≤ 127 := by
    rw [UInt32.le_iff_toNat_le, hc]
    exact Nat.le_of_lt_succ h
  unfold Char.utf8Size
  exact if_pos hle

theorem matches_char (a : Char) (ha : a.toNat < 128) : Matches (fun b => b = .ofNat a.toNat) (fun c => c = a) := by
  intro c b hleads
  refine ⟨by rw [decide_eq_true_iff]; exact hleads.eq_iff a ha, ?_⟩
  rintro rfl
  exact size_of_lt ha

theorem matches_space : Matches isSpace IsWs := by
  intro c b hleads
  have h := fun a ha => hleads.eq_iff a ha
  refine ⟨?_, ?_⟩
  · unfold isSpace IsWs
    rw [decide_eq_true_iff, ← h ' ' (by decide), ← h '\n' (by decide), ← h '\r' (by decide), ← h '\t' (by decide)]
    exact Iff.rfl
  · rintro (rfl | rfl | rfl | rfl) <;> rfl

theorem toNat_bounds {c : Char} (lo hi : Char) : lo ≤ c ∧ c ≤ hi ↔ lo.toNat ≤ c.toNat ∧ c.toNat ≤ hi.toNat := Iff.rfl

theorem matches_digit : Matches isDigit IsDigit := by
  intro c b hleads
  have hd : IsDigit c ↔ 48 ≤ c.toNat ∧ c.toNat ≤ 57 := toNat_bounds '0' '9'
  refine ⟨?_, fun h => size_of_lt (by have := hd.mp h; omega)⟩
  unfold isDigit
  rw [decide_eq_true_iff, hd, UInt8.le_iff_toNat_le, UInt8.le_iff_toNat_le]
  change 48 ≤ b.toNat ∧ b.toNat ≤ 57 ↔ _
  rcases hleads with ⟨h, heq⟩ | ⟨h, hge⟩ <;> omega

/-! ### Passing over -/

theorem ok_bind {α β : Type} (x : α) (f : α → Parse β) : (Except.ok x >>= f) = f x := rfl

theorem skip_at {text : List Char} {p : UInt8 → Bool} {q : Char → Prop} (hpq : Matches p q) (hheld : Held text) (fuel : ℕ) :
    ∀ {i : ℕ} {rest : List Char}, At text i rest → rest.length < fuel →
      ∃ i' rest', skip text p fuel i = .ok i' ∧ At text i' rest' ∧ Many q rest rest' ∧ Stops q rest' := by
  induction fuel with
  | zero =>
    intro i rest hat hlt
    cases hlt
  | succ fuel ih =>
    intro i rest hat hlt
    rw [skip, hat.byte]
    rcases first_byte rest with ⟨rfl, hbyte⟩ | ⟨c, t, b, rfl, hbyte, hleads⟩
    · rw [hbyte]
      exact ⟨i, [], rfl, hat, .done [], stops_nil q⟩
    · rw [hbyte]
      obtain ⟨hiff, hone⟩ := hpq c b hleads
      dsimp only
      by_cases hq : q c
      · rw [if_pos (hiff.mpr hq)]
        have hbump := hat.bump_step hheld
        have hstep := hat.step
        rw [hone hq] at hbump hstep
        rw [hbump, ok_bind]
        obtain ⟨i', rest', heq, hat', hmany, hstops⟩ := ih hstep (by simpa using hlt)
        exact ⟨i', rest', heq, hat', .more hq hmany, hstops⟩
      · rw [if_neg (fun hp => hq (hiff.mp hp))]
        exact ⟨i, c :: t, rfl, hat, .done _, stops_cons.mpr hq⟩

theorem length_le_asBytes (cs : List Char) : cs.length ≤ (asBytes cs).length := by
  induction cs with
  | nil => exact le_rfl
  | cons c cs ih =>
    have := c.utf8Size_pos
    rw [asBytes_cons, List.length_append, String.length_utf8EncodeChar, List.length_cons]
    omega

theorem At.lt_budget {text rest : List Char} {i : ℕ} (h : At text i rest) : rest.length < budget text := by
  have := h.length
  have := length_le_asBytes rest
  unfold budget
  omega

section Calls

variable {text rest : List Char} {i : ℕ} (hheld : Held text)

include hheld

theorem space_at (hat : At text i rest) :
    ∃ i' rest', space text i = .ok i' ∧ At text i' rest' ∧ Ws rest rest' ∧ Stops IsWs rest' :=
  skip_at matches_space hheld _ hat hat.lt_budget

/-- A token is taken where it stands, behind any whitespace. -/
theorem token_at (a : Char) (ha : a.toNat < 128) (hws : ¬ IsWs a) (hat : At text i rest) :
    (∃ i' rest', token text (.ofNat a.toNat) i = .ok i' ∧ At text i' rest' ∧ Ws rest (a :: rest')) ∨
      (token text (.ofNat a.toNat) i = .error .refused ∧ ∀ rest', ¬ Ws rest (a :: rest')) := by
  obtain ⟨i₁, rest₁, heq, hat₁, hmany, hstops⟩ := space_at hheld hat
  rw [token, heq, ok_bind, hat₁.byte]
  have hnone : ∀ {c t}, rest₁ = c :: t → c ≠ a → ∀ rest', ¬ Ws rest (a :: rest') := by
    rintro c t rfl hne rest' h
    exact hne (List.cons.inj (hmany.eq h hstops (stops_cons.mpr hws))).1
  rcases first_byte rest₁ with ⟨rfl, hbyte⟩ | ⟨c, t, b, rfl, hbyte, hleads⟩
  · rw [hbyte]
    refine .inr ⟨rfl, fun rest' h => ?_⟩
    cases hmany.eq h hstops (stops_cons.mpr hws)
  · rw [hbyte, orRefuse, ok_bind]
    by_cases hc : c = a
    · subst hc
      rw [if_neg (not_not.mpr ((hleads.eq_iff c ha).mpr rfl))]
      have hbump := hat₁.bump_step hheld
      have hstep := hat₁.step
      rw [size_of_lt ha] at hbump hstep
      exact .inl ⟨i₁ + 1, t, hbump, hstep, hmany⟩
    · rw [if_pos fun h => hc ((hleads.eq_iff a ha).mp h)]
      exact .inr ⟨rfl, hnone rfl hc⟩

end Calls

/-! ### Strings -/

theorem sliceTo_eq_some {cs front : List Char} {n : ℕ} :
    sliceTo cs n = some front ↔ ∃ t, cs = front ++ t ∧ (asBytes front).length = n := by
  induction cs generalizing n front with
  | nil =>
    cases n with
    | zero =>
      rw [sliceTo, Option.some_inj]
      constructor
      · rintro rfl
        exact ⟨[], rfl, rfl⟩
      · rintro ⟨t, heq, -⟩
        exact (List.append_eq_nil_iff.mp heq.symm).1.symm
    | succ n =>
      rw [sliceTo]
      refine iff_of_false (by simp) ?_
      rintro ⟨t, heq, hlen⟩
      rw [(List.append_eq_nil_iff.mp heq.symm).1] at hlen
      cases hlen
  | cons c cs ih =>
    have hsize := c.utf8Size_pos
    have hnil : ∀ {front : List Char}, (asBytes front).length = 0 → front = [] := fun {front} h =>
      List.length_eq_zero_iff.mp (Nat.le_zero.mp (h ▸ length_le_asBytes front))
    cases n with
    | zero =>
      rw [sliceTo, Option.some_inj]
      constructor
      · rintro rfl
        exact ⟨c :: cs, rfl, rfl⟩
      · rintro ⟨t, -, hlen⟩
        exact (hnil hlen).symm
    | succ n =>
      rw [sliceTo]
      split_ifs with hle
      · rw [Option.map_eq_some_iff]
        constructor
        · rintro ⟨front, h, rfl⟩
          obtain ⟨t, rfl, hlen⟩ := ih.mp h
          refine ⟨t, rfl, ?_⟩
          rw [asBytes_cons, List.length_append, String.length_utf8EncodeChar]
          omega
        · rintro ⟨t, heq, hlen⟩
          cases front with
          | nil => cases hlen
          | cons c' front =>
            obtain ⟨rfl, rfl⟩ := List.cons.inj heq
            rw [asBytes_cons, List.length_append, String.length_utf8EncodeChar] at hlen
            exact ⟨front, ih.mpr ⟨t, rfl, by omega⟩, rfl⟩
      · refine iff_of_false (by simp) ?_
        rintro ⟨t, heq, hlen⟩
        cases front with
        | nil => cases hlen
        | cons c' front =>
          obtain ⟨rfl, rfl⟩ := List.cons.inj heq
          rw [asBytes_cons, List.length_append, String.length_utf8EncodeChar] at hlen
          omega

theorem hexValue_lt {c : Char} {n : ℕ} (h : hexValue c = some n) : c.toNat < 128 := by
  unfold hexValue at h
  split_ifs at h with h₁ h₂ h₃
  · have := (toNat_bounds '0' '9').mp h₁
    exact this.2.trans_lt (by decide)
  · have := (toNat_bounds 'a' 'f').mp h₂
    exact this.2.trans_lt (by decide)
  · have := (toNat_bounds 'A' 'F').mp h₃
    exact this.2.trans_lt (by decide)

/-- Hex digits are a byte each. -/
theorem fromHex_length {hex : List Char} {n : ℕ} (h : fromHex hex = some n) : (asBytes hex).length = hex.length := by
  induction hex using List.reverseRecOn generalizing n with
  | nil => rfl
  | append_singleton hex c ih =>
    unfold fromHex at h
    rw [List.foldl_append, List.foldl_cons, List.foldl_nil] at h
    obtain ⟨m, hm, h⟩ := Option.bind_eq_some_iff.mp h
    obtain ⟨d, hd, -⟩ := Option.bind_eq_some_iff.mp h
    rw [asBytes_append, List.length_append, List.length_append, ih hm, asBytes_cons, List.length_append,
      String.length_utf8EncodeChar, size_of_lt (hexValue_lt hd)]
    rfl

section Calls

variable {text rest : List Char} {i : ℕ} (hheld : Held text)

theorem charAt_cons {c : Char} (hat : At text i (c :: rest)) : charAt text i = .ok c := by
  rw [charAt, hat.sliceFrom]
  rfl

theorem charAt_nil (hat : At text i []) : charAt text i = .error .refused := by
  rw [charAt, hat.sliceFrom]
  rfl

include hheld

theorem unicode_at (hat : At text i rest) :
    (∃ a b c d w x y z t, rest = a :: b :: c :: d :: t ∧ hexValue a = some w ∧ hexValue b = some x ∧ hexValue c = some y ∧
        hexValue d = some z ∧ unicode text i = .ok (.ofNat (((w * 16 + x) * 16 + y) * 16 + z), i + 4) ∧ At text (i + 4) t) ∨
      (unicode text i = .error .refused ∧ ∀ a b c d w x y z t, rest = a :: b :: c :: d :: t → hexValue a = some w →
        hexValue b = some x → hexValue c = some y → hexValue d ≠ some z) := by
  have hlen := hat.length
  have hrange : i + 4 < 2 ^ 64 := by
    unfold Held at hheld
    omega
  have hstart : unicode text i =
      (orRefuse (sliceTo rest 4) >>= fun hex => orRefuse (fromHex hex) >>= fun unit => bump i 4 >>= fun j =>
        .ok (.ofNat unit, j)) := by
    unfold unicode
    rw [if_pos hrange, ok_bind, hat.sliceFrom]
    dsimp only [Option.bind_some]
    rw [Nat.add_sub_cancel_left]
    rfl
  have hfour : ∀ {a b c d : Char} {w x y z : ℕ} {t : List Char}, rest = a :: b :: c :: d :: t → hexValue a = some w →
      hexValue b = some x → hexValue c = some y → hexValue d = some z →
      sliceTo rest 4 = some [a, b, c, d] ∧ fromHex [a, b, c, d] = some (((w * 16 + x) * 16 + y) * 16 + z) := by
    intro a b c d w x y z t heq ha hb hc hd
    have hhex : fromHex [a, b, c, d] = some (((w * 16 + x) * 16 + y) * 16 + z) := by
      simp [fromHex, ha, hb, hc, hd]
    exact ⟨sliceTo_eq_some.mpr ⟨t, heq, fromHex_length hhex⟩, hhex⟩
  rw [hstart]
  cases hslice : sliceTo rest 4 with
  | none =>
    refine .inr ⟨rfl, fun a b c d w x y z t heq ha hb hc hd => ?_⟩
    rw [(hfour heq ha hb hc hd).1] at hslice
    cases hslice
  | some hex =>
    obtain ⟨t, rfl, hbytes⟩ := sliceTo_eq_some.mp hslice
    rw [orRefuse, ok_bind]
    cases hhex : fromHex hex with
    | none =>
      refine .inr ⟨rfl, fun a b c d w x y z t heq ha hb hc hd => ?_⟩
      obtain ⟨hslice', hhex'⟩ := hfour heq ha hb hc hd
      rw [hslice, Option.some_inj] at hslice'
      rw [← hslice', hhex] at hhex'
      cases hhex'
    | some unit =>
      have hchars : hex.length = 4 := (fromHex_length hhex).symm.trans hbytes
      obtain ⟨a, b, c, d, rfl⟩ : ∃ a b c d, hex = [a, b, c, d] := by
        match hex, hchars with
        | [a, b, c, d], _ => exact ⟨a, b, c, d, rfl⟩
      have hbump : bump i 4 = .ok (i + 4) := if_pos hrange
      have hat' : At text (i + 4) t := hbytes ▸ hat.append
      obtain ⟨z, hz⟩ : ∃ z, hexValue d = some z := by
        cases hd : hexValue d with
        | none => simp [fromHex, hd] at hhex
        | some z => exact ⟨z, rfl⟩
      obtain ⟨y, hy⟩ : ∃ y, hexValue c = some y := by
        cases hc : hexValue c with
        | none => simp [fromHex, hc] at hhex
        | some y => exact ⟨y, rfl⟩
      obtain ⟨x, hx⟩ : ∃ x, hexValue b = some x := by
        cases hb : hexValue b with
        | none => simp [fromHex, hb] at hhex
        | some x => exact ⟨x, rfl⟩
      obtain ⟨w, hw⟩ : ∃ w, hexValue a = some w := by
        cases ha : hexValue a with
        | none => simp [fromHex, ha] at hhex
        | some w => exact ⟨w, rfl⟩
      rw [(hfour rfl hw hx hy hz).2, Option.some_inj] at hhex
      subst hhex
      refine .inl ⟨a, b, c, d, w, x, y, z, t, rfl, hw, hx, hy, hz, ?_, hat'⟩
      rw [orRefuse, ok_bind, hbump, ok_bind]

/-- The string is read to its closing quotation mark. -/
theorem stringLoop_at (fuel : ℕ) : ∀ {i : ℕ} {rest : List Char} (value : List UInt16), At text i rest → rest.length < fuel →
    (∃ us i' rest', stringLoop text fuel i value = .ok (value ++ us, i') ∧ At text i' rest' ∧ Chars rest us rest') ∨
      (stringLoop text fuel i value = .error .refused ∧ ∀ us rest', ¬ Chars rest us rest') := by
  induction fuel with
  | zero =>
    intro i rest value hat hlt
    cases hlt
  | succ fuel ih =>
    intro i rest value hat hlt
    cases rest with
    | nil =>
      rw [stringLoop, charAt_nil hat]
      refine .inr ⟨rfl, fun us rest' h => ?_⟩
      cases h
    | cons c rest =>
      have hat₁ := hat.step
      have hrest : rest.length < fuel := Nat.lt_of_succ_lt_succ hlt
      rw [stringLoop, charAt_cons hat, ok_bind, hat.bump_step hheld, ok_bind]
      by_cases hquote : c = '"'
      · subst hquote
        exact .inl ⟨[], _, rest, by rw [if_pos rfl, List.append_nil]; rfl, hat₁, .close rest⟩
      rw [if_neg hquote]
      by_cases hslash : c = '\\'
      · subst hslash
        rw [if_pos rfl]
        cases rest with
        | nil =>
          rw [charAt_nil hat₁]
          refine .inr ⟨rfl, fun us rest' h => ?_⟩
          cases h with
          | plain _ _ hne => exact hne rfl
        | cons e rest =>
          have hat₂ := hat₁.step
          have hrest₂ : rest.length < fuel := (Nat.lt_succ_self _).trans hrest
          rw [charAt_cons hat₁, ok_bind, hat₁.bump_step hheld, ok_bind]
          cases hescaped : escaped e with
          | some unit =>
            dsimp only
            rcases ih (value ++ [unit]) hat₂ hrest₂ with ⟨us, i', rest', heq, hat', hchars⟩ | ⟨heq, hnone⟩
            · exact .inl ⟨unit :: us, i', rest', by rw [heq, List.append_assoc]; rfl, hat', .escape hescaped hchars⟩
            · refine .inr ⟨heq, fun us rest' h => ?_⟩
              cases h with
              | plain _ _ hne => exact hne rfl
              | escape _ h => exact hnone _ _ h
              | unicode => exact escaped_ne_u hescaped rfl
          | none =>
            dsimp only
            by_cases hu : e = 'u'
            · subst hu
              rw [if_pos rfl]
              rcases unicode_at hheld hat₂ with ⟨a, b, c, d, w, x, y, z, t, rfl, ha, hb, hc, hd, heq, hat₃⟩ | ⟨heq, hnone⟩
              · rw [heq, ok_bind]
                have hrest₃ : t.length < fuel := by
                  simp only [List.length_cons] at hrest₂
                  omega
                rcases ih (value ++ [.ofNat (((w * 16 + x) * 16 + y) * 16 + z)]) hat₃ hrest₃ with
                  ⟨us, i', rest', heq', hat', hchars⟩ | ⟨heq', hnone⟩
                · exact .inl ⟨_ :: us, i', rest', by dsimp only; rw [heq', List.append_assoc]; rfl, hat',
                    .unicode ha hb hc hd hchars⟩
                · refine .inr ⟨heq', fun us rest' h => ?_⟩
                  cases h with
                  | plain _ _ hne => exact hne rfl
                  | escape hescaped' _ => exact escaped_ne_u hescaped' rfl
                  | unicode _ _ _ _ h => exact hnone _ _ h
              · rw [heq]
                refine .inr ⟨rfl, fun us rest' h => ?_⟩
                cases h with
                | plain _ _ hne => exact hne rfl
                | escape hescaped' _ => exact escaped_ne_u hescaped' rfl
                | unicode ha hb hc hd _ => exact hnone _ _ _ _ _ _ _ _ _ rfl ha hb hc hd
            · rw [if_neg hu]
              refine .inr ⟨rfl, fun us rest' h => ?_⟩
              cases h with
              | plain _ _ hne => exact hne rfl
              | escape hescaped' _ =>
                rw [hescaped] at hescaped'
                cases hescaped'
              | unicode => exact hu rfl
      rw [if_neg hslash]
      by_cases hcontrol : c < ' '
      · rw [if_pos hcontrol]
        refine .inr ⟨rfl, fun us rest' h => ?_⟩
        cases h with
        | close => exact hquote rfl
        | plain hle => exact absurd hle (not_le.mpr hcontrol)
        | escape => exact hslash rfl
        | unicode => exact hslash rfl
      · rw [if_neg hcontrol]
        rcases ih (value ++ units c) hat₁ hrest with ⟨us, i', rest', heq, hat', hchars⟩ | ⟨heq, hnone⟩
        · exact .inl ⟨units c ++ us, i', rest', by rw [heq, List.append_assoc], hat',
            .plain (not_lt.mp hcontrol) hquote hslash hchars⟩
        · refine .inr ⟨heq, fun us rest' h => ?_⟩
          cases h with
          | close => exact hquote rfl
          | plain _ _ _ h => exact hnone _ _ h
          | escape => exact hslash rfl
          | unicode => exact hslash rfl

/-- A string is read where one stands, behind any whitespace. -/
theorem string_at (hat : At text i rest) :
    (∃ us i' k rest', string text i = .ok (us, i') ∧ At text i' rest' ∧ Ws rest k ∧ Str k us rest') ∨
      (string text i = .error .refused ∧ ∀ k us rest', Ws rest k → ¬ Str k us rest') := by
  rw [string]
  rcases token_at hheld '"' (by decide) not_isWs_quote hat with ⟨i₁, rest₁, heq, hat₁, hws⟩ | ⟨heq, hnone⟩
  · change token text 34 i = _ at heq
    rw [heq, ok_bind]
    rcases stringLoop_at hheld _ [] hat₁ hat₁.lt_budget with ⟨us, i', rest', heq', hat', hchars⟩ | ⟨heq', hnone⟩
    · exact .inl ⟨us, i', _, rest', heq', hat', hws, rest₁, rfl, hchars⟩
    · refine .inr ⟨heq', ?_⟩
      rintro k us rest' hws' ⟨body, rfl, hchars⟩
      obtain ⟨-, rfl⟩ := List.cons.inj (hws.eq hws' (stops_cons.mpr not_isWs_quote) (stops_cons.mpr not_isWs_quote))
      exact hnone us rest' hchars
  · change token text 34 i = _ at heq
    rw [heq]
    refine .inr ⟨rfl, ?_⟩
    rintro k us rest' hws ⟨body, rfl, -⟩
    exact hnone body hws

end Calls

/-! ### Numbers -/

theorem Many.bytes {p : Char → Prop} {cs rest : List Char} (h : Many p cs rest) :
    cs = rest ∨ (asBytes rest).length < (asBytes cs).length := by
  induction h with
  | done => exact .inl rfl
  | @more c cs rest _ _ ih =>
    have hsize := c.utf8Size_pos
    rw [asBytes_cons, List.length_append, String.length_utf8EncodeChar]
    rcases ih with rfl | ih
    · exact .inr (by omega)
    · exact .inr (by omega)

section Calls

variable {text rest : List Char} {i : ℕ} (hheld : Held text)

include hheld

theorem digits_at (hat : At text i rest) :
    (∃ i' rest', digits text i = .ok i' ∧ At text i' rest' ∧ SomeDigits rest rest' ∧ Stops IsDigit rest') ∨
      (digits text i = .error .refused ∧ ∀ rest', ¬ SomeDigits rest rest') := by
  obtain ⟨i', rest', heq, hat', hmany, hstops⟩ := skip_at matches_digit hheld _ hat hat.lt_budget
  have hlen := hat.length
  have hlen' := hat'.length
  rw [digits, heq, ok_bind]
  by_cases hi : i' = i
  · subst hi
    rw [if_pos rfl]
    obtain rfl : rest = rest' := (Many.bytes hmany).resolve_right (by omega)
    refine .inr ⟨rfl, ?_⟩
    rintro r ⟨c, t, rfl, hc, -⟩
    exact stops_cons.mp hstops hc
  · rw [if_neg hi]
    refine .inl ⟨i', rest', rfl, hat', ?_, hstops⟩
    cases hmany with
    | done =>
      exact absurd (by omega) hi
    | more hc hmany => exact ⟨_, _, rfl, hc, hmany⟩

theorem mayBe_at {p : UInt8 → Bool} {q : Char → Prop} (hpq : Matches p q) (hat : At text i rest) :
    (∃ c t, rest = c :: t ∧ q c ∧ mayBe text p i = .ok (some (i + 1)) ∧ At text (i + 1) t) ∨
      (Stops q rest ∧ mayBe text p i = .ok none) := by
  rw [mayBe, hat.byte]
  rcases first_byte rest with ⟨rfl, hbyte⟩ | ⟨c, t, b, rfl, hbyte, hleads⟩
  · rw [hbyte]
    exact .inr ⟨stops_nil q, rfl⟩
  · rw [hbyte]
    obtain ⟨hiff, hone⟩ := hpq c b hleads
    dsimp only
    by_cases hq : q c
    · have hbump := hat.bump_step hheld
      have hstep := hat.step
      rw [hone hq] at hbump hstep
      rw [if_pos (hiff.mpr hq), hbump]
      exact .inl ⟨c, t, rfl, hq, rfl, hstep⟩
    · rw [if_neg fun hp => hq (hiff.mp hp)]
      exact .inr ⟨stops_cons.mpr hq, rfl⟩

theorem intPart_at (hat : At text i rest) :
    (∃ i' rest', intPart text i = .ok i' ∧ At text i' rest' ∧ Json.Int rest rest' ∧
        ∀ r, Json.Int rest r → Stops IsDigit r → r = rest') ∨
      (intPart text i = .error .refused ∧ ∀ r, ¬ Json.Int rest r) := by
  rw [intPart, hat.byte]
  rcases first_byte rest with ⟨rfl, hbyte⟩ | ⟨c, t, b, rfl, hbyte, hleads⟩
  · rw [hbyte]
    refine .inr ⟨rfl, fun r h => ?_⟩
    obtain ⟨_, _, heq, -⟩ := h.cons
    cases heq
  rw [hbyte, orRefuse, ok_bind]
  have hdigit := matches_digit c b hleads
  have hzero : b = 48 ↔ c = '0' := hleads.eq_iff '0' (by decide)
  have hrange : 49 ≤ b ∧ b ≤ 57 ↔ IsDigit c ∧ c ≠ '0' := by
    rw [← hdigit.1, isDigit, decide_eq_true_iff, ne_eq, ← hzero, UInt8.le_iff_toNat_le, UInt8.le_iff_toNat_le,
      UInt8.le_iff_toNat_le, ← UInt8.toNat_inj]
    change 49 ≤ b.toNat ∧ b.toNat ≤ 57 ↔ (48 ≤ b.toNat ∧ b.toNat ≤ 57) ∧ ¬ b.toNat = 48
    omega
  have hstart : IsDigit c → bump i 1 = .ok (i + 1) ∧ At text (i + 1) t := by
    intro hc
    have hbump := hat.bump_step hheld
    have hstep := hat.step
    rw [hdigit.2 hc] at hbump hstep
    exact ⟨hbump, hstep⟩
  by_cases hc0 : c = '0'
  · rw [if_pos (hzero.mpr hc0)]
    subst hc0
    obtain ⟨hbump, hstep⟩ := hstart isDigit_zero
    refine .inl ⟨i + 1, t, hbump, hstep, .inl rfl, ?_⟩
    rintro r (heq | ⟨c', t', heq, -, hne, -⟩) -
    · exact (List.cons.inj heq).2.symm
    · exact absurd (List.cons.inj heq).1.symm hne
  rw [if_neg fun h => hc0 (hzero.mp h)]
  by_cases hc : IsDigit c
  · rw [if_pos (hrange.mpr ⟨hc, hc0⟩)]
    obtain ⟨hbump, hstep⟩ := hstart hc
    rw [hbump, ok_bind]
    obtain ⟨i', rest', heq, hat', hmany, hstops⟩ := skip_at matches_digit hheld _ hstep hstep.lt_budget
    refine .inl ⟨i', rest', heq, hat', .inr ⟨c, t, rfl, hc, hc0, hmany⟩, ?_⟩
    rintro r (heq' | ⟨c', t', heq', -, -, hmany'⟩) hr
    · exact absurd (List.cons.inj heq').1 hc0
    · obtain ⟨-, rfl⟩ := List.cons.inj heq'
      exact hmany'.eq hmany hr hstops
  · rw [if_neg fun h => hc (hrange.mp h).1]
    refine .inr ⟨rfl, fun r h => ?_⟩
    obtain ⟨c', t', heq, hc'⟩ := h.cons
    obtain ⟨rfl, -⟩ := List.cons.inj heq
    exact hc hc'

/-- A number's end, its exponent and what stands before it. -/
theorem expPart_at (hat : At text i rest) :
    (∃ i' rest', expPart text i = .ok i' ∧ At text i' rest' ∧ Exp rest rest' ∧
        ∀ r, Exp rest r → Stops GoesOn r → r = rest') ∨
      (expPart text i = .error .refused ∧ ∀ r, Exp rest r → ¬ Stops GoesOn r) := by
  have hletter : Matches (fun b => b = 101 ∨ b = 69) (fun c => c = 'e' ∨ c = 'E') := by
    intro c b hleads
    refine ⟨?_, ?_⟩
    · rw [decide_eq_true_iff]
      exact or_congr (hleads.eq_iff 'e' (by decide)) (hleads.eq_iff 'E' (by decide))
    · rintro (rfl | rfl) <;> rfl
  have hsign : Matches (fun b => b = 43 ∨ b = 45) (fun c => c = '+' ∨ c = '-') := by
    intro c b hleads
    refine ⟨?_, ?_⟩
    · rw [decide_eq_true_iff]
      exact or_congr (hleads.eq_iff '+' (by decide)) (hleads.eq_iff '-' (by decide))
    · rintro (rfl | rfl) <;> rfl
  rw [expPart]
  rcases mayBe_at hheld hletter hat with ⟨e, t, rfl, he, heq, hat₁⟩ | ⟨hstops, heq⟩
  · rw [heq, ok_bind]
    dsimp only
    -- Where the digits begin, whichever sign there is.
    obtain ⟨j, u, hmay, hat₂, hu, hone⟩ : ∃ j u, (mayBe text (fun b => b = 43 ∨ b = 45) (i + 1) >>= fun x =>
      Except.ok (x.getD (i + 1)))
        = Except.ok j ∧ At text j u ∧ (t = u ∨ t = '+' :: u ∨ t = '-' :: u) ∧
        ∀ u' r, (t = u' ∨ t = '+' :: u' ∨ t = '-' :: u') → SomeDigits u' r → u' = u := by
      have hnot : ∀ {c : Char} {t r : List Char}, c = '+' ∨ c = '-' → ¬ SomeDigits (c :: t) r := by
        rintro c t r hc ⟨c', t', heq, hdigit, -⟩
        obtain ⟨rfl, -⟩ := List.cons.inj heq
        revert hdigit
        rcases hc with rfl | rfl <;> unfold IsDigit <;> decide
      rcases mayBe_at hheld hsign hat₁ with ⟨c, u, rfl, hc, heq', hat₂⟩ | ⟨hstops, heq'⟩
      · rw [heq']
        refine ⟨_, u, rfl, hat₂, .inr ?_, ?_⟩
        · rcases hc with rfl | rfl
          · exact .inl rfl
          · exact .inr rfl
        · rintro u' r (rfl | h | h) hsome
          · exact absurd hsome (hnot hc)
          · exact (List.cons.inj h).2.symm
          · exact (List.cons.inj h).2.symm
      · rw [heq']
        refine ⟨_, t, rfl, hat₁, .inl rfl, ?_⟩
        rintro u' r (rfl | rfl | rfl) hsome
        · rfl
        · exact absurd (.inl rfl) (stops_cons.mp hstops)
        · exact absurd (.inr rfl) (stops_cons.mp hstops)
    have hrun : (mayBe text (fun b => b = 43 ∨ b = 45) (i + 1) >>= fun x => digits text (x.getD (i + 1))) = digits text j := by
      cases hm : mayBe text (fun b => b = 43 ∨ b = 45) (i + 1) with
      | error stop =>
        rw [hm] at hmay
        cases hmay
      | ok x =>
        rw [hm, ok_bind] at hmay
        rw [ok_bind, Except.ok.inj hmay]
    change (∃ i' rest', (mayBe text (fun b => b = 43 ∨ b = 45) (i + 1) >>= fun x => digits text (x.getD (i + 1))) = _ ∧ _) ∨
      ((mayBe text (fun b => b = 43 ∨ b = 45) (i + 1) >>= fun x => digits text (x.getD (i + 1))) = _ ∧ _)
    rw [hrun]
    have hfirst : ∀ {r}, e :: t = r → ¬ Stops GoesOn r := by
      rintro r rfl h
      exact stops_cons.mp h (.inr (.inr he))
    rcases digits_at hheld hat₂ with ⟨i', rest', heq', hat₃, hsome, hstops⟩ | ⟨heq', hnone⟩
    · refine .inl ⟨i', rest', heq', hat₃, .inr ⟨e, t, u, rfl, he, hu, hsome⟩, ?_⟩
      rintro r (h | ⟨e', t', u', h, -, hu', hsome'⟩) hr
      · exact absurd hr (hfirst h)
      · obtain ⟨-, rfl⟩ := List.cons.inj h
        obtain rfl := hone u' r hu' hsome'
        obtain ⟨c, v, rfl, hc, hmany⟩ := hsome
        obtain ⟨c', v', h, -, hmany'⟩ := hsome'
        obtain ⟨-, rfl⟩ := List.cons.inj h
        exact hmany'.eq hmany (stops_digit hr) hstops
    · refine .inr ⟨heq', ?_⟩
      rintro r (h | ⟨e', t', u', h, -, hu', hsome'⟩) hr
      · exact hfirst h hr
      · obtain ⟨-, rfl⟩ := List.cons.inj h
        obtain rfl := hone u' r hu' hsome'
        exact hnone r hsome'
  · rw [heq]
    refine .inl ⟨i, rest, rfl, hat, .inl rfl, ?_⟩
    rintro r (rfl | ⟨e, t, u, rfl, he, -⟩) -
    · rfl
    · exact absurd he (stops_cons.mp hstops)

theorem fracPart_at (hat : At text i rest) :
    (∃ i' rest', fracPart text i = .ok i' ∧ At text i' rest' ∧ Frac rest rest' ∧
        ∀ m r, Frac rest m → Exp m r → Stops GoesOn r → m = rest') ∨
      (fracPart text i = .error .refused ∧ ∀ m r, Frac rest m → Exp m r → ¬ Stops GoesOn r) := by
  rw [fracPart]
  rcases mayBe_at hheld (matches_char '.' (by decide)) hat with ⟨c, t, rfl, rfl, heq, hat₁⟩ | ⟨hstops, heq⟩
  · change mayBe text (fun b => b = 46) i = _ at heq
    rw [heq, ok_bind]
    dsimp only
    have hfirst : ∀ {m r}, '.' :: t = m → Exp m r → ¬ Stops GoesOn r := by
      rintro m r rfl (rfl | ⟨e, t', u, h, he, -⟩) hr
      · exact stops_cons.mp hr (.inr (.inl rfl))
      · obtain ⟨rfl, -⟩ := List.cons.inj h
        rcases he with he | he <;> cases he
    rcases digits_at hheld hat₁ with ⟨i', rest', heq', hat₂, hsome, hstops⟩ | ⟨heq', hnone⟩
    · refine .inl ⟨i', rest', heq', hat₂, .inr ⟨t, rfl, hsome⟩, ?_⟩
      rintro m r (h | ⟨t', h, hsome'⟩) hexp hr
      · exact absurd hr (hfirst h hexp)
      · obtain ⟨-, rfl⟩ := List.cons.inj h
        obtain ⟨c, v, rfl, hc, hmany⟩ := hsome
        obtain ⟨c', v', h, -, hmany'⟩ := hsome'
        obtain ⟨-, rfl⟩ := List.cons.inj h
        exact hmany'.eq hmany (hexp.stops hr) hstops
    · refine .inr ⟨heq', ?_⟩
      rintro m r (h | ⟨t', h, hsome'⟩) hexp hr
      · exact hfirst h hexp hr
      · obtain ⟨-, rfl⟩ := List.cons.inj h
        exact hnone m hsome'
  · change mayBe text (fun b => b = 46) i = _ at heq
    rw [heq]
    refine .inl ⟨i, rest, rfl, hat, .inl rfl, ?_⟩
    rintro m r (rfl | ⟨t, rfl, -⟩) - -
    · rfl
    · exact (hstops '.' t rfl rfl).elim

/-- A number is read to where it can go on no further. -/
theorem number_at (hat : At text i rest) (hws : Stops IsWs rest) :
    (∃ i' rest', number text i = .ok i' ∧ At text i' rest' ∧ Number rest rest' ∧
        ∀ r, Number rest r → Stops GoesOn r → r = rest') ∨
      (number text i = .error .refused ∧ ∀ r, Number rest r → ¬ Stops GoesOn r) := by
  obtain ⟨i₀, rest₀, heq₀, hat₀, hmany, -⟩ := space_at hheld hat
  obtain rfl : rest = rest₀ := by
    cases hmany with
    | done => rfl
    | more hc _ => exact absurd hc (stops_cons.mp hws)
  -- Behind the sign.
  obtain ⟨j, a, hmay, hat₁, hminus⟩ : ∃ j a, mayBe text (fun b => b = 45) i₀ = .ok j ∧ At text (j.getD i₀) a ∧ Minus rest a ∧
      ∀ a' b, Minus rest a' → Json.Int a' b → a' = a := by
    have hnot : ∀ {t u : List Char}, ¬ Json.Int ('-' :: t) u := by
      intro t u hint
      obtain ⟨c, t', heq, hc⟩ := hint.cons
      obtain ⟨rfl, -⟩ := List.cons.inj heq
      revert hc
      unfold IsDigit
      decide
    rcases mayBe_at hheld (matches_char '-' (by decide)) hat₀ with ⟨c, t, rfl, rfl, heq, hat₁⟩ | ⟨hstops, heq⟩
    · refine ⟨_, t, heq, hat₁, .inr rfl, ?_⟩
      rintro a' b (rfl | h) hint
      · exact absurd hint hnot
      · exact (List.cons.inj h).2.symm
    · refine ⟨_, rest, heq, hat₀, .inl rfl, ?_⟩
      rintro a' b (rfl | rfl) hint
      · rfl
      · exact (hstops '-' a' rfl rfl).elim
  have hstart : number text i = intPart text (j.getD i₀) >>= fun i => fracPart text i >>= fun i => expPart text i := by
    unfold number
    rw [heq₀, ok_bind, hmay]
    rfl
  rw [hstart]
  obtain ⟨hminus, hone⟩ := hminus
  rcases intPart_at hheld hat₁ with ⟨i₂, b, heq₂, hat₂, hint, hone₂⟩ | ⟨heq₂, hnone⟩
  · rw [heq₂, ok_bind]
    have hsame₂ : ∀ {a' b' c' r : List Char}, Minus rest a' → Json.Int a' b' → Frac b' c' → Exp c' r →
      Stops GoesOn r → b' = b := by
      intro a' b' c' r h₁ h₂ h₃ h₄ hr
      obtain rfl := hone a' b' h₁ h₂
      exact hone₂ b' h₂ (h₃.stops h₄ hr)
    rcases fracPart_at hheld hat₂ with ⟨i₃, c, heq₃, hat₃, hfrac, hone₃⟩ | ⟨heq₃, hnone⟩
    · rw [heq₃, ok_bind]
      have hsame₃ : ∀ {a' b' c' r : List Char}, Minus rest a' → Json.Int a' b' → Frac b' c' → Exp c' r →
        Stops GoesOn r → c' = c := by
        intro a' b' c' r h₁ h₂ h₃ h₄ hr
        obtain rfl := hsame₂ h₁ h₂ h₃ h₄ hr
        exact hone₃ c' r h₃ h₄ hr
      rcases expPart_at hheld hat₃ with ⟨i₄, rest', heq₄, hat₄, hexp, hone₄⟩ | ⟨heq₄, hnone⟩
      · refine .inl ⟨i₄, rest', heq₄, hat₄, ⟨a, b, c, hminus, hint, hfrac, hexp⟩, ?_⟩
        rintro r ⟨a', b', c', h₁, h₂, h₃, h₄⟩ hr
        obtain rfl := hsame₃ h₁ h₂ h₃ h₄ hr
        exact hone₄ r h₄ hr
      · refine .inr ⟨heq₄, ?_⟩
        rintro r ⟨a', b', c', h₁, h₂, h₃, h₄⟩ hr
        obtain rfl := hsame₃ h₁ h₂ h₃ h₄ hr
        exact hnone r h₄ hr
    · rw [heq₃]
      refine .inr ⟨rfl, ?_⟩
      rintro r ⟨a', b', c', h₁, h₂, h₃, h₄⟩ hr
      obtain rfl := hsame₂ h₁ h₂ h₃ h₄ hr
      exact hnone c' r h₃ h₄ hr
  · rw [heq₂]
    refine .inr ⟨rfl, ?_⟩
    rintro r ⟨a', b', c', h₁, h₂, -⟩ -
    obtain rfl := hone a' b' h₁ h₂
    exact hnone b' h₂

end Calls

end Glade.Node.TextProfile
