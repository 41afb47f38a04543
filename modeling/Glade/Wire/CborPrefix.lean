import Glade.Wire.Cbor

/-! What the decoder reads does not depend on the bytes after it, so no encoding
is read from a part of it. -/

namespace Glade.Wire

open Words

/-- A reader that reads the same whatever follows what it reads. -/
def Local {α : Type} (r : Reader α) : Prop :=
  ∀ bs a rest, r bs = .ok (a, rest) → ∀ more, r (bs ++ more) = .ok (a, rest ++ more)

theorem bind_ok {ε α β : Type} {x : Except ε α} {f : α → Except ε β} {b : β} (h : x >>= f = .ok b) :
    ∃ a, x = .ok a ∧ f a = .ok b := by
  cases x with
  | error e => cases h
  | ok a => exact ⟨a, rfl, h⟩

theorem local_take (n : ℕ) : Local (take n) := by
  intro bs a rest h more
  rw [take] at h ⊢
  split_ifs at h with hn
  obtain ⟨rfl, rfl⟩ := Prod.mk.inj (Except.ok.inj h)
  rw [if_pos (by rw [List.length_append]; omega), List.take_append_of_le_length hn, List.drop_append_of_le_length hn]

theorem local_readArg (info : ℕ) : Local (readArg info) := by
  intro bs a rest h more
  rw [readArg] at h ⊢
  split_ifs at h ⊢ with hinfo
  · obtain ⟨rfl, rfl⟩ := Prod.mk.inj (Except.ok.inj h)
    rfl
  · split at h
    case h_1 => cases h
    case h_2 w hw =>
      obtain ⟨⟨raw, tail⟩, hraw, h⟩ := bind_ok h
      dsimp only at h
      split_ifs at h with hshort
      obtain ⟨rfl, rfl⟩ := Prod.mk.inj (Except.ok.inj h)
      simp only [local_take w bs raw tail hraw more, bind, Except.bind, hshort, Bool.false_eq_true, if_false]

theorem local_many {item : Reader Cbor} (hitem : Local item) (n : ℕ) : Local (many item n) := by
  induction n with
  | zero =>
    intro bs a rest h more
    obtain ⟨rfl, rfl⟩ := Prod.mk.inj (Except.ok.inj h)
    rfl
  | succ n ih =>
    intro bs a rest h more
    rw [many] at h ⊢
    obtain ⟨⟨v, bs₁⟩, hv, h⟩ := bind_ok h
    obtain ⟨⟨vs, bs₂⟩, hvs, h⟩ := bind_ok h
    obtain ⟨rfl, rfl⟩ := Prod.mk.inj (Except.ok.inj h)
    simp only [hitem bs v bs₁ hv more, ih bs₁ vs bs₂ hvs more, bind, Except.bind]
    rfl

theorem local_decEntries {item : Reader Cbor} (hitem : Local item) (n : ℕ) (seen : List Int64) :
    Local (decEntries item n seen) := by
  induction n generalizing seen with
  | zero =>
    intro bs a rest h more
    obtain ⟨rfl, rfl⟩ := Prod.mk.inj (Except.ok.inj h)
    rfl
  | succ n ih =>
    intro bs a rest h more
    rw [decEntries] at h ⊢
    obtain ⟨⟨k, bs₁⟩, hk, h⟩ := bind_ok h
    simp only [hitem bs k bs₁ hk more, bind, Except.bind]
    cases k with
    | int k =>
      dsimp only at h
      split_ifs at h with hneg hseen
      obtain ⟨⟨v, bs₂⟩, hv, h⟩ := bind_ok h
      obtain ⟨⟨es, bs₃⟩, hes, h⟩ := bind_ok h
      obtain ⟨rfl, rfl⟩ := Prod.mk.inj (Except.ok.inj h)
      simp only [if_neg hneg, if_neg hseen, hitem bs₁ v bs₂ hv more, ih (k :: seen) bs₂ es bs₃ hes more]
      rfl
    | _ => cases h

theorem local_decWith {limit : ℕ} {inner : Option (Reader Cbor)} (hinner : ∀ item, inner = some item → Local item) :
    Local (decWith limit inner) := by
  intro bs a rest h more
  cases bs with
  | nil => cases h
  | cons first bs =>
    rw [List.cons_append, decWith]
    rw [decWith] at h
    dsimp only at h ⊢
    split at h
    · obtain ⟨⟨n, bs₁⟩, hn, h⟩ := bind_ok h
      dsimp only at h
      split_ifs at h with hlt
      obtain ⟨rfl, rfl⟩ := Prod.mk.inj (Except.ok.inj h)
      simp only [local_readArg _ _ _ _ hn more, bind, Except.bind, if_pos hlt]
    · obtain ⟨⟨n, bs₁⟩, hn, h⟩ := bind_ok h
      dsimp only at h
      split_ifs at h with hlt
      obtain ⟨rfl, rfl⟩ := Prod.mk.inj (Except.ok.inj h)
      simp only [local_readArg _ _ _ _ hn more, bind, Except.bind, if_pos hlt]
    · obtain ⟨⟨n, bs₁⟩, hn, h⟩ := bind_ok h
      obtain ⟨⟨b, bs₂⟩, hb, h⟩ := bind_ok h
      obtain ⟨rfl, rfl⟩ := Prod.mk.inj (Except.ok.inj h)
      simp only [local_readArg _ _ _ _ hn more, local_take _ _ _ _ hb more, bind, Except.bind]
      rfl
    · obtain ⟨⟨n, bs₁⟩, hn, h⟩ := bind_ok h
      obtain ⟨⟨b, bs₂⟩, hb, h⟩ := bind_ok h
      simp only [local_readArg _ _ _ _ hn more, local_take _ _ _ _ hb more, bind, Except.bind]
      cases hs : fromUtf8 b with
      | none =>
        simp only [hs] at h
        cases h
      | some s =>
        simp only [hs] at h
        obtain ⟨rfl, rfl⟩ := Prod.mk.inj (Except.ok.inj h)
        rfl
    · obtain ⟨⟨n, bs₁⟩, hn, h⟩ := bind_ok h
      simp only [local_readArg _ _ _ _ hn more, bind, Except.bind]
      cases inner with
      | none => cases h
      | some item =>
        obtain ⟨⟨items, bs₂⟩, hitems, h⟩ := bind_ok h
        obtain ⟨rfl, rfl⟩ := Prod.mk.inj (Except.ok.inj h)
        simp only [local_many (hinner item rfl) n _ _ _ hitems more]
        rfl
    · obtain ⟨⟨n, bs₁⟩, hn, h⟩ := bind_ok h
      simp only [local_readArg _ _ _ _ hn more, bind, Except.bind]
      cases inner with
      | none => cases h
      | some item =>
        obtain ⟨⟨entries, bs₂⟩, hentries, h⟩ := bind_ok h
        obtain ⟨rfl, rfl⟩ := Prod.mk.inj (Except.ok.inj h)
        simp only [local_decEntries (hinner item rfl) n [] _ _ _ hentries more]
        rfl
    · split at h
      · obtain ⟨rfl, rfl⟩ := Prod.mk.inj (Except.ok.inj h)
        rfl
      · obtain ⟨rfl, rfl⟩ := Prod.mk.inj (Except.ok.inj h)
        rfl
      · obtain ⟨rfl, rfl⟩ := Prod.mk.inj (Except.ok.inj h)
        rfl
      · obtain ⟨⟨raw, bs₁⟩, hraw, h⟩ := bind_ok h
        obtain ⟨rfl, rfl⟩ := Prod.mk.inj (Except.ok.inj h)
        simp only [local_take _ _ _ _ hraw more, bind, Except.bind]
        rfl
      · obtain ⟨⟨raw, bs₁⟩, hraw, h⟩ := bind_ok h
        obtain ⟨rfl, rfl⟩ := Prod.mk.inj (Except.ok.inj h)
        simp only [local_take _ _ _ _ hraw more, bind, Except.bind]
        rfl
      · obtain ⟨⟨raw, bs₁⟩, hraw, h⟩ := bind_ok h
        obtain ⟨rfl, rfl⟩ := Prod.mk.inj (Except.ok.inj h)
        simp only [local_take _ _ _ _ hraw more, bind, Except.bind]
        rfl
      · cases h
    · cases h

theorem local_dec (limit d : ℕ) : Local (dec limit d) := by
  induction d with
  | zero => exact local_decWith (by simp)
  | succ d ih =>
    refine local_decWith fun item h => ?_
    obtain rfl := Option.some.inj h
    exact ih

/-- Bytes that decode do not go on to decode: what follows is left over. -/
theorem tryDecode_append {bs more : Bytes} {v : Cbor} (h : tryDecode bs = .ok v) (hmore : more ≠ []) :
    tryDecode (bs ++ more) = .error .trailingBytes := by
  rw [tryDecode] at h ⊢
  obtain ⟨⟨w, rest⟩, hw, h⟩ := bind_ok h
  dsimp only at h
  split_ifs at h with hrest
  rw [local_dec _ _ _ _ _ hw more, hrest]
  simp only [List.nil_append, bind, Except.bind, if_neg hmore]

end Glade.Wire
