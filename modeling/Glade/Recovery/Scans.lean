import Glade.Recovery.Bounds

/-! What the preflight makes of canonical bytes: it passes them, or their value is too
much for it. -/

namespace Glade.Recovery.Bounds

open Wire Words

section Scan

variable {bytes : Bytes}

/-- What is left of the bytes. -/
def Cursor.rest (c : Cursor bytes) : Bytes := bytes.drop c.index

/-- A scan passes over the bytes `b` wherever they stand, or is full. -/
def Passes (s : Scan bytes Unit) (b : Bytes) : Prop := ∀ (c : Cursor bytes) rest, c.rest = b ++ rest →
  s.run c = .error .capacity ∨ ∃ c', s.run c = .ok ((), c') ∧ c'.rest = rest

theorem run_bind_ok {α β : Type} {s : Scan bytes α} {k : α → Scan bytes β} {c c' : Cursor bytes} {a : α}
    (h : s.run c = .ok (a, c')) : (s >>= k).run c = (k a).run c' := by
  rw [StateT.run_bind, h]
  rfl

theorem run_bind_error {α β : Type} {s : Scan bytes α} {k : α → Scan bytes β} {c : Cursor bytes} {e : Error}
    (h : s.run c = .error e) : (s >>= k).run c = .error e := by
  rw [StateT.run_bind, h]
  rfl

theorem take_run {b rest : Bytes} {c : Cursor bytes} (h : c.rest = b ++ rest) :
    (take b.length).run c = .error .capacity ∨
      ∃ c', (take b.length).run c = .ok (b, c') ∧ c'.rest = rest ∧ c'.items = c.items := by
  have hlen : c.index + b.length ≤ bytes.length := by
    have := congrArg List.length h
    have hwithin := c.within
    rw [Cursor.rest, List.length_drop, List.length_append] at this
    omega
  by_cases hlt : c.index + b.length < 2 ^ 64
  · refine .inr ⟨{ c with index := c.index + b.length, within := hlen }, ?_, ?_, rfl⟩
    · change take b.length c = _
      rw [take, if_pos hlt, dif_pos hlen]
      change c.rest = _ at h
      unfold Cursor.rest at h
      rw [h, List.take_left]
    · unfold Cursor.rest at h ⊢
      rw [← List.drop_drop, h, List.drop_left]
  · left
    change take b.length c = _
    rw [take, if_neg hlt]

theorem byte_run {b : UInt8} {rest : Bytes} {c : Cursor bytes} (h : c.rest = b :: rest) :
    byte.run c = .error .capacity ∨ ∃ c', byte.run c = .ok (b, c') ∧ c'.rest = rest ∧ c'.items = c.items := by
  unfold byte
  rcases take_run (b := [b]) h with hfull | ⟨c', hrun, hrest, hitems⟩
  · exact .inl (run_bind_error hfull)
  · exact .inr ⟨c', run_bind_ok hrun, hrest, hitems⟩

variable (limits : DecodeLimits)

theorem item_run (c : Cursor bytes) : (item limits).run c = .error .capacity ∨
    ∃ c', (item limits).run c = .ok ((), c') ∧ c'.rest = c.rest := by
  change item limits c = _ ∨ ∃ c', item limits c = _ ∧ _
  unfold item
  split_ifs
  · exact .inl rfl
  · exact .inr ⟨_, rfl, rfl⟩
  · exact .inl rfl

/-- What of a head is left to pass over behind its argument. -/
def body (inner : Option (Scan bytes Unit)) (major n additional : ℕ) : Scan bytes Unit :=
  match major with
  | 0 | 1 => return ()
  | 2 => do let _ ← take n
  | 3 => if n > limits.nameBytes then throw .capacity else do let _ ← take n
  | 4 | 5 => container limits inner major n
  | _ => if major = 7 ∧ 20 ≤ additional ∧ additional ≤ 22 then return () else throw .invalid

theorem valueWith_eq (inner : Option (Scan bytes Unit)) : valueWith limits inner = (do
    item limits
    let b ← byte
    let n ← argument (b.toNat % 32)
    body limits inner (b.toNat / 32) n (b.toNat % 32)) := rfl

/-- A head is passed over, and then what it is the head of. -/
theorem passes_head {inner : Option (Scan bytes Unit)} {major n : ℕ} {b : Bytes} (hm : major < 7) (hn : n < 2 ^ 64)
    (hbody : ∀ additional, Passes (body limits inner major n additional) b) :
    Passes (valueWith limits inner) (head major n ++ b) := by
  intro c rest hrest
  obtain ⟨info, arg, hinfo, hhead, hforms⟩ := head_forms major hn
  rw [valueWith_eq]
  rcases item_run limits c with hfull | ⟨c₁, hrun₁, hrest₁⟩
  · exact .inl (run_bind_error hfull)
  rw [run_bind_ok hrun₁]
  rw [hrest, hhead, List.cons_append, List.cons_append, List.append_assoc] at hrest₁
  rcases byte_run hrest₁ with hfull | ⟨c₂, hrun₂, hrest₂, -⟩
  · exact .inl (run_bind_error hfull)
  rw [run_bind_ok hrun₂, (toNat_first (by omega) hinfo).1, (toNat_first (by omega) hinfo).2]
  rcases hforms with ⟨hlt, rfl, rfl⟩ | ⟨w, hlt, hw, hnw, -, rfl⟩
  · have harg : (argument info : Scan bytes ℕ).run c₂ = .ok (info, c₂) := by
      rw [argument, if_pos (by omega)]
      rfl
    rw [run_bind_ok harg]
    exact hbody info c₂ rest hrest₂
  · have harg : argument info = (do return ofBe (← take w) : Scan bytes ℕ) := by
      rw [argument, if_neg (by omega), hw]
    rw [harg]
    have hlen : (beBytes w n).length = w := length_beBytes w n
    rcases take_run hrest₂ with hfull | ⟨c₃, hrun₃, hrest₃, -⟩
    · rw [hlen] at hfull
      exact .inl (run_bind_error (run_bind_error hfull))
    · rw [hlen] at hrun₃
      have hof : ofBe (beBytes w n) = n := by rw [ofBe_beBytes, Nat.mod_eq_of_lt hnw]
      rw [run_bind_ok (run_bind_ok hrun₃), hof]
      exact hbody info c₃ rest hrest₃

theorem passes_take (b : Bytes) : Passes (do let _ ← take b.length : Scan bytes Unit) b := by
  intro c rest hrest
  rcases take_run hrest with hfull | ⟨c', hrun, hrest', -⟩
  · exact .inl (run_bind_error hfull)
  · exact .inr ⟨c', run_bind_ok hrun, hrest'⟩

theorem passes_return : Passes (return () : Scan bytes Unit) [] := fun c _ hrest => .inr ⟨c, rfl, hrest⟩

theorem passes_full (b : Bytes) : Passes (throw .capacity : Scan bytes Unit) b := fun _ _ _ => .inl rfl

theorem Passes.times {value : Scan bytes Unit} {parts : List Bytes} (h : ∀ b ∈ parts, Passes value b) :
    Passes (times value parts.length) parts.flatten := by
  induction parts with
  | nil => exact passes_return
  | cons b parts ih =>
    intro c rest hrest
    rw [List.flatten_cons, List.append_assoc] at hrest
    rcases h b (.head _) c _ hrest with hfull | ⟨c', hrun, hrest'⟩
    · exact .inl (run_bind_error hfull)
    · rw [List.length_cons, Bounds.times, run_bind_ok hrun]
      exact ih (fun b hb => h b (.tail _ hb)) c' rest hrest'

theorem passes_container {value : Scan bytes Unit} {major n : ℕ} {parts : List Bytes} (h : ∀ b ∈ parts, Passes value b)
    (hcount : (if major = 5 then n * 2 else n) = parts.length) :
    Passes (container limits (some value) major n) parts.flatten := by
  intro c rest hrest
  unfold container
  dsimp only
  rw [hcount]
  split_ifs with hlarge
  · exact .inl rfl
  · change (if parts.length > limits.items - c.items then Except.error Error.capacity else Bounds.times value parts.length c) = _ ∨
      ∃ c', (if parts.length > limits.items - c.items then Except.error Error.capacity else Bounds.times value parts.length c) = _ ∧ _
    split_ifs
    · exact .inl rfl
    · exact Passes.times h c rest hrest

theorem passes_int (inner : Option (Scan bytes Unit)) (n : Int64) : Passes (valueWith limits inner) (encInt n) := by
  have hlo := n.le_toInt
  have hhi := n.toInt_lt
  rw [encInt]
  split_ifs with h0
  · rw [Int64.le_iff_toInt_le, Int64.toInt_zero] at h0
    rw [← List.append_nil (head 0 _)]
    exact passes_head limits (by omega) (by omega) fun _ => passes_return
  · rw [← List.append_nil (head 1 _)]
    exact passes_head limits (by omega) (by omega) fun _ => passes_return

theorem passes_simple (inner : Option (Scan bytes Unit)) {b : UInt8} (hb : b = 0xf4 ∨ b = 0xf5 ∨ b = 0xf6) :
    Passes (valueWith limits inner) [b] := by
  intro c rest hrest
  rw [valueWith_eq]
  rcases item_run limits c with hfull | ⟨c₁, hrun₁, hrest₁⟩
  · exact .inl (run_bind_error hfull)
  rw [run_bind_ok hrun₁]
  rcases byte_run (hrest₁.trans hrest) with hfull | ⟨c₂, hrun₂, hrest₂, -⟩
  · exact .inl (run_bind_error hfull)
  rw [run_bind_ok hrun₂]
  refine .inr ⟨c₂, ?_, hrest₂⟩
  rcases hb with rfl | rfl | rfl <;> rfl

theorem flatMap_append_eq {A : Type} (l : List A) (f g : A → Bytes) :
    l.flatMap (fun a => f a ++ g a) = (l.flatMap fun a => [f a, g a]).flatten := by
  induction l with
  | nil => rfl
  | cons a l ih => simp [ih]

/-- A value's bytes pass at any depth, or it is too deep. -/
theorem passes_encode (levels : ℕ) : ∀ {d : ℕ} {v : Cbor}, Fits true d v →
    Passes (value limits levels : Scan bytes Unit) (encode v) := by
  have hbytes : ∀ (inner : Option (Scan bytes Unit)) (b : Bytes), b.length < 2 ^ 64 →
      Passes (valueWith limits inner) (head 2 b.length ++ b) := fun inner b hlen =>
    passes_head limits (by omega) hlen fun _ => passes_take b
  have htext : ∀ (inner : Option (Scan bytes Unit)) (b : Bytes), b.length < 2 ^ 64 →
      Passes (valueWith limits inner) (head 3 b.length ++ b) := by
    intro inner b hlen
    refine passes_head limits (by omega) hlen fun _ => ?_
    change Passes (if b.length > limits.nameBytes then throw .capacity else do let _ ← take b.length) b
    split_ifs
    · exact passes_full b
    · exact passes_take b
  -- A value that holds no other, and a container with no depth left or with some.
  have hflat : ∀ (inner : Option (Scan bytes Unit)) {d : ℕ} {v : Cbor}, Fits true d v →
      (∀ items, v = .array items → Passes (valueWith limits inner) (encode v)) →
      (∀ entries, v = .map entries → Passes (valueWith limits inner) (encode v)) → Passes
      (valueWith limits inner) (encode v) := by
    intro inner d v hv harray hmap
    cases v with
    | int n => exact passes_int limits inner n
    | float bits => cases d <;> exact hv.1.elim
    | bytes b =>
      have := hv.2
      rw [encode, List.length_append] at this
      exact hbytes inner b (by omega)
    | text s =>
      have := hv.2
      rw [encode, List.length_append] at this
      exact htext inner (utf8 s) (by omega)
    | array items => exact harray items rfl
    | map entries => exact hmap entries rfl
    | bool b => cases b <;> exact passes_simple limits inner (by decide)
    | null => exact passes_simple limits inner (by decide)
  induction levels with
  | zero =>
    intro d v hv
    refine hflat none hv ?_ ?_
    · rintro items rfl
      cases d with
      | zero => exact hv.1.elim
      | succ d => exact passes_head limits (by omega) hv.items.1 fun _ => passes_full _
    · rintro entries rfl
      cases d with
      | zero => exact hv.1.elim
      | succ d => exact passes_head limits (by omega) hv.entries.1 fun _ => passes_full _
  | succ levels ih =>
    intro d v hv
    refine hflat (some (value limits levels)) hv ?_ ?_
    · rintro items rfl
      cases d with
      | zero => exact hv.1.elim
      | succ d =>
        obtain ⟨hlen, hitems⟩ := hv.items
        refine passes_head limits (by omega) hlen fun _ => ?_
        rw [encodeItems_eq, List.flatMap_def]
        refine passes_container limits ?_ ?_
        · intro b hb
          obtain ⟨w, hw, rfl⟩ := List.mem_map.mp hb
          exact ih (hitems w hw)
        · simp
    · rintro entries rfl
      cases d with
      | zero => exact hv.1.elim
      | succ d =>
        obtain ⟨hlen, hsorted, hentries⟩ := hv.entries
        rw [encode, sortEntries_encodeEntries hsorted, encodeEntries_eq, List.flatMap_map]
        refine passes_head limits (by omega) hlen fun _ => ?_
        rw [flatMap_append_eq]
        refine passes_container limits ?_ ?_
        · intro b hb
          obtain ⟨e, he, hb⟩ := List.mem_flatMap.mp hb
          obtain ⟨hpos, hfits⟩ := hentries e he
          rw [List.mem_cons, List.mem_singleton] at hb
          rcases hb with rfl | rfl
          · rw [head_key hpos]
            cases levels <;> exact passes_int limits _ e.1
          · exact ih hfits
        · rw [if_pos rfl, List.length_flatMap]
          simp

/-! ### No index is out of its slice -/

def Safe {α : Type} (s : Scan bytes α) : Prop := ∀ c, s.run c ≠ .error .panicked

theorem safe_return {α : Type} (a : α) : Safe (return a : Scan bytes α) := fun _ h => by cases h

theorem safe_throw {α : Type} {e : Error} (he : e ≠ .panicked) : Safe (throw e : Scan bytes α) := fun _ h =>
    he (Except.error.inj h)

theorem Safe.bind {α β : Type} {s : Scan bytes α} {k : α → Scan bytes β} (hs : Safe s) (hk : ∀ a, Safe (k a)) :
    Safe (s >>= k) := by
  intro c h
  cases hrun : s.run c with
  | error e =>
    rw [run_bind_error hrun] at h
    rw [Except.error.inj h] at hrun
    exact hs c hrun
  | ok p =>
    obtain ⟨a, c'⟩ := p
    rw [run_bind_ok hrun] at h
    exact hk a c' h

theorem safe_take (n : ℕ) : Safe (take n : Scan bytes Bytes) := by
  intro c h
  change take n c = _ at h
  unfold take at h
  split_ifs at h <;> cases h

theorem safe_byte : Safe (byte : Scan bytes UInt8) := by
  intro c h
  unfold byte at h
  cases hrun : (take 1 : Scan bytes Bytes).run c with
  | error e =>
    rw [run_bind_error hrun] at h
    rw [Except.error.inj h] at hrun
    exact safe_take 1 c hrun
  | ok p =>
    obtain ⟨b, c'⟩ := p
    have hlen : b.length = 1 := by
      change take 1 c = _ at hrun
      unfold take at hrun
      split_ifs at hrun with hlt hle
      obtain ⟨rfl, -⟩ := Prod.mk.inj (Except.ok.inj hrun)
      rw [List.length_take, List.length_drop]
      omega
    rw [run_bind_ok hrun] at h
    cases b with
    | nil => cases hlen
    | cons => cases h

theorem Safe.times {value : Scan bytes Unit} (h : Safe value) (count : ℕ) : Safe (times value count) := by
  induction count with
  | zero => exact safe_return ()
  | succ count ih => exact h.bind fun _ => ih

theorem safe_argument (additional : ℕ) : Safe (argument additional : Scan bytes ℕ) := by
  unfold argument
  split_ifs
  · exact safe_return _
  · cases argWidth additional with
    | none => exact safe_throw (by decide)
    | some width => exact (safe_take width).bind fun _ => safe_return _

theorem safe_container {inner : Option (Scan bytes Unit)} (h : ∀ value ∈ inner, Safe value) (major n : ℕ) :
    Safe (container limits inner major n) := by
  cases inner with
  | none => exact safe_throw (by decide)
  | some value =>
    unfold container
    dsimp only
    split_ifs with hmajor hlarge hlarge
    · exact safe_throw (by decide)
    · intro c hc
      change (if n * 2 > limits.items - c.items then Except.error Error.capacity else Bounds.times value (n * 2) c) = _ at hc
      split_ifs at hc
      · cases hc
      · exact (h value rfl).times _ c hc
    · exact safe_throw (by decide)
    · intro c hc
      change (if n > limits.items - c.items then Except.error Error.capacity else Bounds.times value n c) = _ at hc
      split_ifs at hc
      · cases hc
      · exact (h value rfl).times _ c hc

theorem safe_valueWith {inner : Option (Scan bytes Unit)} (h : ∀ value ∈ inner, Safe value) : Safe (valueWith limits inner) := by
  have hitem : Safe (item limits : Scan bytes Unit) := by
    intro c hc
    rcases item_run limits c with hfull | ⟨c', hrun, -⟩
    · rw [hfull] at hc
      cases hc
    · rw [hrun] at hc
      cases hc
  have hskip : ∀ n, Safe (do let _ ← take n : Scan bytes Unit) := fun n => (safe_take n).bind fun _ => safe_return _
  rw [valueWith_eq]
  refine hitem.bind fun _ => safe_byte.bind fun b => (safe_argument _).bind fun n => ?_
  unfold body
  split
  · exact safe_return _
  · exact safe_return _
  · exact hskip n
  · split_ifs
    · exact safe_throw (by decide)
    · exact hskip n
  · exact safe_container limits h _ _
  · exact safe_container limits h _ _
  · split_ifs
    · exact safe_return _
    · exact safe_throw (by decide)

theorem safe_value (levels : ℕ) : Safe (value limits levels : Scan bytes Unit) := by
  induction levels with
  | zero => exact safe_valueWith limits fun _ h => by cases h
  | succ levels ih =>
    refine safe_valueWith limits ?_
    rintro value ⟨⟩
    exact ih

end Scan

theorem scan_safe (limits : DecodeLimits) (items : ℕ) (bytes : Bytes) (depth : ℕ) :
    scan limits items bytes depth ≠ .error .panicked := by
  intro h
  unfold scan at h
  split_ifs at h
  · cases h
  cases hrun : (value limits (limits.depth - depth)).run (⟨0, Nat.zero_le _, items⟩ : Cursor bytes) with
  | error e =>
    rw [hrun] at h
    rw [Except.error.inj h] at hrun
    exact safe_value limits _ _ hrun
  | ok p =>
    rw [hrun] at h
    dsimp only at h
    split_ifs at h
    cases h

/-- The preflight of an op's bytes is passed, or full. -/
theorem scan_encoding (limits : DecodeLimits) (items : ℕ) (op : Op) (depth : ℕ) :
    scan limits items op.encoding depth = .error .capacity ∨ ∃ items', scan limits items op.encoding depth = .ok items' := by
  have hfits : Fits true 3 op.toCbor := ⟨op.shaped_toCbor, lt_of_le_of_lt op.valid.2.2.2 (by decide)⟩
  unfold scan
  split_ifs with hlimits
  · exact .inl rfl
  · rcases passes_encode limits (limits.depth - depth) hfits (⟨0, Nat.zero_le _, items⟩ : Cursor op.encoding) []
      (by simp [Cursor.rest, Op.encoding])
      with hfull | ⟨c, hrun, hrest⟩
    · rw [hfull]
      exact .inl rfl
    · rw [hrun]
      dsimp only
      have hend : c.index = op.encoding.length := by
        have := c.within
        have := List.drop_eq_nil_iff.mp hrest
        omega
      rw [if_neg (not_not.mpr hend)]
      exact .inr ⟨c.items, rfl⟩

end Glade.Recovery.Bounds
