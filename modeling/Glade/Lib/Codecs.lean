import Mathlib

/-! Readers that undo writers. A reader and a writer each keep a state of their own, and
stand at the same place of a whole; a codec's reader answers what its writer was given
and leaves them at the same place again, or it is full. -/

namespace Codecs

variable {C W T E α β γ : Type}

/-- Where a reader and a writer meet in a whole, which wholes begin with what is written,
and the answers that any reader may give and that none may. -/
structure Sync (C W T E : Type) where
  meets : C → W → T → Prop
  begins : W → T → Prop
  full : E
  fault : E

abbrev Reader (C E α : Type) := StateT C (Except E) α

/-- The reader answers the values that `P` holds of, each where it was written and nowhere else. -/
structure Codec (S : Sync C W T E) (r : Reader C E α) (w : W → α → W) (P : α → Prop) : Prop where
  begins : ∀ {e a t}, P a → S.begins (w e a) t → S.begins e t
  reads : ∀ {c e t a}, S.meets c e t → P a → S.begins (w e a) t →
    r.run c = .error S.full ∨ ∃ c', r.run c = .ok (a, c') ∧ S.meets c' (w e a) t
  writes : ∀ {c e t a c'}, S.meets c e t → r.run c = .ok (a, c') → P a ∧ S.meets c' (w e a) t
  safe : ∀ {c}, r.run c ≠ .error S.fault

theorem run_bind_ok {r : Reader C E α} {k : α → Reader C E β} {c c' : C} {a : α} (h : r.run c = .ok (a, c')) :
    (r >>= k).run c = (k a).run c' := by
  rw [StateT.run_bind, h]
  rfl

theorem run_bind_error {r : Reader C E α} {k : α → Reader C E β} {c : C} {e : E} (h : r.run c = .error e) :
    (r >>= k).run c = .error e := by
  rw [StateT.run_bind, h]
  rfl

theorem run_bind_eq_ok {r : Reader C E α} {k : α → Reader C E β} {c : C} {b : β} {c' : C} (h : (r >>= k).run c = .ok (b, c')) :
    ∃ a c₁, r.run c = .ok (a, c₁) ∧ (k a).run c₁ = .ok (b, c') := by
  cases hr : r.run c with
  | error e =>
    rw [run_bind_error hr] at h
    cases h
  | ok p =>
    obtain ⟨a, c₁⟩ := p
    rw [run_bind_ok hr] at h
    exact ⟨a, c₁, rfl, h⟩

/-- A reader's answers, one after another. -/
def times (r : Reader C E α) : ℕ → Reader C E (List α)
  | 0 => Pure.pure []
  | n + 1 => do
    let a ← r
    let l ← times r n
    return a :: l

namespace Codec

variable {S : Sync C W T E}

/-- Nothing is written, and one value is answered. -/
theorem pure (b : α) : Codec S (Pure.pure b) (fun e _ => e) (fun a => a = b) where
  begins _ h := h
  reads hmeets ha _ := .inr ⟨_, by rw [ha]; rfl, hmeets⟩
  writes hmeets h := by
    obtain ⟨rfl, rfl⟩ := Prod.mk.inj (Except.ok.inj h)
    exact ⟨rfl, hmeets⟩
  safe h := by cases h

/-- What always refuses answers nothing. -/
theorem refuse {r : Reader C E α} {e : E} (hr : ∀ c, r.run c = .error e) (he : e ≠ S.fault) :
    Codec S r (fun e _ => e) (fun _ => False) where
  begins h := h.elim
  reads _ h := h.elim
  writes _ h := by
    rw [hr] at h
    cases h
  safe h := by
    rw [hr] at h
    exact he (Except.error.inj h)

/-- What never answers is a codec of no values. -/
theorem never {r : Reader C E α} {w : W → α → W} {P : α → Prop} (hP : ∀ a, ¬ P a) (hr : ∀ c p, r.run c ≠ .ok p)
    (hsafe : ∀ c, r.run c ≠ .error S.fault) : Codec S r w P where
  begins h := (hP _ h).elim
  reads _ h := (hP _ h).elim
  writes _ h := (hr _ _ h).elim
  safe := hsafe _

/-- The writer is told by the values that are answered. -/
theorem congr {r r' : Reader C E α} {w w' : W → α → W} {P P' : α → Prop} (h : Codec S r w P) (hr : r' = r)
    (hP : ∀ a, P' a ↔ P a) (hw : ∀ e a, P a → w' e a = w e a) : Codec S r' w' P' where
  begins {e a t} ha hbegins := h.begins ((hP a).mp ha) (hw e a ((hP a).mp ha) ▸ hbegins)
  reads {c e t a} hmeets ha hbegins := by
    rw [hr, hw e a ((hP a).mp ha)]
    exact h.reads hmeets ((hP a).mp ha) (hw e a ((hP a).mp ha) ▸ hbegins)
  writes {c e t a c'} hmeets hrun := by
    rw [hr] at hrun
    obtain ⟨ha, hmeets'⟩ := h.writes hmeets hrun
    rw [hw e a ha]
    exact ⟨(hP a).mpr ha, hmeets'⟩
  safe := by
    rw [hr]
    exact h.safe

/-- One value after another that it is told by. -/
theorem bind {r : Reader C E α} {w : W → α → W} {P : α → Prop} {k : α → Reader C E β} {w₂ : α → W → β → W}
    {Q : α → β → Prop} (h : Codec S r w P) (h₂ : ∀ a, Codec S (k a) (w₂ a) (Q a)) (tag : β → α)
    (htag : ∀ a b, P a → Q a b → tag b = a) :
    Codec S (r >>= k) (fun e b => w₂ (tag b) (w e (tag b)) b) (fun b => P (tag b) ∧ Q (tag b) b) where
  begins hb hbegins := h.begins hb.1 ((h₂ _).begins hb.2 hbegins)
  reads {c e t b} hmeets hb hbegins := by
    rcases h.reads hmeets hb.1 ((h₂ _).begins hb.2 hbegins) with hfull | ⟨c₁, hrun, hmeets₁⟩
    · exact .inl (run_bind_error hfull)
    · rw [run_bind_ok hrun]
      exact (h₂ _).reads hmeets₁ hb.2 hbegins
  writes {c e t b c'} hmeets hrun := by
    obtain ⟨a, c₁, hrun₁, hrun₂⟩ := run_bind_eq_ok hrun
    obtain ⟨ha, hmeets₁⟩ := h.writes hmeets hrun₁
    obtain ⟨hb, hmeets₂⟩ := (h₂ a).writes hmeets₁ hrun₂
    obtain rfl := htag a b ha hb
    exact ⟨⟨ha, hb⟩, hmeets₂⟩
  safe {c} hfault := by
    cases hrun : r.run c with
    | error ε =>
      rw [run_bind_error hrun] at hfault
      rw [Except.error.inj hfault] at hrun
      exact h.safe hrun
    | ok p =>
      obtain ⟨a, c₁⟩ := p
      rw [run_bind_ok hrun] at hfault
      exact (h₂ a).safe hfault

/-- A reader that answers nothing of its own comes first. -/
theorem after {g : Reader C E Unit} {r : Reader C E α} {w : W → α → W} {P : α → Prop}
    (hg : Codec S g (fun e _ => e) (fun _ => True)) (h : Codec S r w P) : Codec S (g >>= fun _ => r) w P := by
  refine (hg.bind (fun _ => h) (fun _ => ()) (fun _ _ _ _ => rfl)).congr rfl ?_ ?_
  · intro a
    exact (true_and _).symm ▸ Iff.rfl
  · intro e a _
    rfl

/-- A reader that is full, or reads on. -/
theorem orFull {r : Reader C E α} {w : W → α → W} {P : α → Prop} (h : Codec S r w P) (full : Prop) [Decidable full]
    (hfull : S.full ≠ S.fault) : Codec S (if full then throw S.full else r) w P := by
  split_ifs
  · exact {
      begins := h.begins
      reads := fun _ _ _ => .inl rfl
      writes := fun _ hrun => by cases hrun
      safe := fun hrun => hfull (Except.error.inj hrun) }
  · exact h

/-- What is read tells the value, or there is none it tells. -/
theorem choose {r : Reader C E α} {w : W → α → W} {P : α → Prop} (h : Codec S r w P) (k : α → Reader C E β) (tag : β → α)
    (htag : Function.Injective tag)
    (hk : ∀ a, (∃ b, tag b = a ∧ k a = Pure.pure b) ∨ (∀ b, tag b ≠ a) ∧ ∃ e, e ≠ S.fault ∧ ∀ c, (k a).run c = .error e) :
    Codec S (r >>= k) (fun e b => w e (tag b)) (fun b => P (tag b)) := by
  have hone : ∀ a, Codec S (k a) (fun e _ => e) (fun b => tag b = a) := by
    intro a
    rcases hk a with ⟨b, hb, hpure⟩ | ⟨hnone, e, he, hrun⟩
    · rw [hpure]
      refine (Codec.pure b).congr rfl ?_ fun _ _ _ => rfl
      intro b'
      rw [← hb]
      exact htag.eq_iff
    · refine (Codec.refuse hrun he).congr rfl ?_ fun _ _ _ => rfl
      intro b
      exact iff_of_false (hnone b) id
  refine (h.bind hone tag fun _ _ _ h => h).congr rfl ?_ fun _ _ _ => rfl
  intro b
  exact (and_iff_left rfl).symm

/-- Values of another form, each of some value that is answered. -/
theorem embed {r : Reader C E α} {w : W → α → W} {P : α → Prop} (h : Codec S r w P) (f : α → β) (w' : W → β → W)
    (hw : ∀ e a, w' e (f a) = w e a) : Codec S (f <$> r) w' (fun b => ∃ a, P a ∧ f a = b) where
  begins := by
    rintro e b t ⟨a, ha, rfl⟩ hbegins
    exact h.begins ha (hw e a ▸ hbegins)
  reads := by
    rintro c e t b hmeets ⟨a, ha, rfl⟩ hbegins
    rw [hw] at hbegins ⊢
    rw [map_eq_pure_bind]
    rcases h.reads hmeets ha hbegins with hfull | ⟨c', hrun, hmeets'⟩
    · exact .inl (run_bind_error hfull)
    · exact .inr ⟨c', run_bind_ok hrun, hmeets'⟩
  writes := by
    intro c e t b c' hmeets hrun
    rw [map_eq_pure_bind] at hrun
    obtain ⟨a, c₁, hrun₁, hrun₂⟩ := run_bind_eq_ok hrun
    obtain ⟨rfl, rfl⟩ := Prod.mk.inj (Except.ok.inj hrun₂)
    obtain ⟨ha, hmeets'⟩ := h.writes hmeets hrun₁
    rw [hw]
    exact ⟨⟨a, ha, rfl⟩, hmeets'⟩
  safe := by
    intro c hfault
    rw [map_eq_pure_bind] at hfault
    cases hrun : r.run c with
    | error ε =>
      rw [run_bind_error hrun] at hfault
      rw [Except.error.inj hfault] at hrun
      exact h.safe hrun
    | ok p =>
      obtain ⟨a, c₁⟩ := p
      rw [run_bind_ok hrun] at hfault
      cases hfault

/-- Values of another form, and back. -/
theorem map {r : Reader C E α} {w : W → α → W} {P : α → Prop} (h : Codec S r w P) (f : α → β) (g : β → α)
    (hfg : ∀ b, f (g b) = b) (hgf : ∀ a, g (f a) = a) : Codec S (f <$> r) (fun e b => w e (g b)) (fun b => P (g b)) := by
  refine (h.embed f (fun e b => w e (g b)) fun e a => congrArg (w e) (hgf a)).congr rfl ?_ ?_
  · intro b
    constructor
    · intro hb
      exact ⟨g b, hb, hfg b⟩
    · rintro ⟨a, ha, rfl⟩
      rwa [hgf]
  · intro e b _
    rfl

/-- Two values, the one behind the other. -/
theorem pair {r : Reader C E α} {w : W → α → W} {P : α → Prop} {r₂ : Reader C E β} {w₂ : W → β → W} {Q : β → Prop}
    (h : Codec S r w P) (h₂ : Codec S r₂ w₂ Q) :
    Codec S (do let a ← r; let b ← r₂; return (a, b)) (fun e p => w₂ (w e p.1) p.2) (fun p => P p.1 ∧ Q p.2) := by
  have hinner : ∀ a, Codec S (do let b ← r₂; return (a, b)) (fun e (p : α × β) => w₂ e p.2) (fun p => Q p.2 ∧ p = (a, p.2)) :=
    fun a => h₂.bind (fun b => Codec.pure (a, b)) Prod.snd (by rintro b p - rfl; rfl)
  refine (h.bind hinner Prod.fst ?_).congr rfl ?_ ?_
  · rintro a p - ⟨-, hp⟩
    rw [hp]
  · intro p
    simp
  · intro e p _
    rfl

/-- A value that may be missing, after whether it is. -/
theorem option {flag : Reader C E Bool} {wflag : W → Bool → W} {r : Reader C E α} {w : W → α → W} {P : α → Prop}
    (hflag : Codec S flag wflag fun _ => True) (h : Codec S r w P) :
    Codec S (do if ← flag then some <$> r else return none)
      (fun e o => match o with | some a => w (wflag e true) a | none => wflag e false) (fun o => ∀ a ∈ o, P a) := by
  let body (e : W) (o : Option α) : W := match o with | some a => w e a | none => e
  have hbody : ∀ b, Codec S (if b = true then some <$> r else Pure.pure none) (fun e o => body e o)
      (fun o => o.isSome = b ∧ ∀ a ∈ o, P a) := by
    intro b
    cases b with
    | true =>
      refine (h.embed some body fun _ _ => rfl).congr rfl ?_ fun _ _ _ => rfl
      intro o
      cases o <;> simp
    | false =>
      refine (Codec.pure none).congr rfl ?_ ?_
      · intro o
        cases o <;> simp
      · rintro e o rfl
        rfl
  refine (hflag.bind hbody Option.isSome fun _ _ _ h => h.1).congr rfl ?_ ?_
  · intro o
    simp
  · intro e o _
    cases o <;> rfl

theorem many {r : Reader C E α} {w : W → α → W} {P : α → Prop} (h : Codec S r w P) (n : ℕ) :
    Codec S (times r n) (fun e l => l.foldl w e) (fun l => l.length = n ∧ ∀ a ∈ l, P a) := by
  induction n with
  | zero =>
    refine (Codec.pure []).congr rfl ?_ ?_
    · intro l
      constructor
      · rintro ⟨hl, -⟩
        exact List.length_eq_zero_iff.mp hl
      · rintro rfl
        simp
    · rintro e l rfl
      rfl
  | succ n ih =>
    refine ((h.pair ih).embed (fun p => p.1 :: p.2) (fun e l => l.foldl w e) fun _ _ => rfl).congr ?_ ?_ fun _ _ _ => rfl
    · rw [times, map_eq_pure_bind]
      simp only [bind_assoc, pure_bind]
    · intro l
      constructor
      · rintro ⟨hl, hP⟩
        obtain ⟨a, l, rfl⟩ := List.exists_cons_of_length_eq_add_one hl
        exact ⟨(a, l), ⟨hP a (.head _), by simpa using hl, fun b hb => hP b (.tail _ hb)⟩, rfl⟩
      · rintro ⟨⟨a, l'⟩, ⟨ha, hl, hP⟩, rfl⟩
        refine ⟨by simp [hl], ?_⟩
        rw [List.forall_mem_cons]
        exact ⟨ha, hP⟩

end Codec

end Codecs
