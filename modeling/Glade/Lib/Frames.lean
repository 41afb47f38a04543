import Glade.Lib.Words

/-! Length-prefixed records: a record is its length, in 32 bits, and its bytes.
A run of records reads back whole; a tail too short for its record is what is
left of an interrupted write. -/

namespace Frames

open Words

/-- One record: its length (little endian, cut to 32 bits), then its bytes. -/
def frame (record : List UInt8) : List UInt8 := leBytes 4 record.length ++ record

/-- The complete records at the front of `data`, at most `fuel` of them, and the
bytes after them. -/
def splitWith : ℕ → List UInt8 → List (List UInt8) × List UInt8
  | 0, data => ([], data)
  | fuel + 1, data =>
    if data.length < 4 then ([], data)
    else
      let len := ofLe (data.take 4)
      let body := data.drop 4
      if body.length < len then ([], data)
      else
        let (records, tail) := splitWith fuel (body.drop len)
        (body.take len :: records, tail)

/-- Every complete record of `data`, in order, and the torn tail. -/
def split (data : List UInt8) : List (List UInt8) × List UInt8 := splitWith data.length data

theorem length_frame (record : List UInt8) : (frame record).length = 4 + record.length := by
  simp [frame]

/-- The torn tail is the end of what was read. -/
theorem length_splitWith_snd_le (fuel : ℕ) (data : List UInt8) : (splitWith fuel data).2.length ≤ data.length := by
  induction fuel generalizing data with
  | zero => exact le_rfl
  | succ fuel ih =>
    rw [splitWith]
    split_ifs
    · exact le_rfl
    dsimp only
    split_ifs
    · exact le_rfl
    refine (ih _).trans ?_
    rw [List.length_drop, List.length_drop]
    omega

theorem splitWith_frame_append {record : List UInt8} (h : record.length < 2 ^ 32) (fuel : ℕ) (data : List UInt8) :
    splitWith (fuel + 1) (frame record ++ data) =
      (record :: (splitWith fuel data).1, (splitWith fuel data).2) := by
  have htake : (frame record ++ data).take 4 = leBytes 4 record.length := by
    rw [frame, List.append_assoc, List.take_left' (length_leBytes 4 _)]
  have hdrop : (frame record ++ data).drop 4 = record ++ data := by
    rw [frame, List.append_assoc, List.drop_left' (length_leBytes 4 _)]
  have hlen : ofLe (leBytes 4 record.length) = record.length := by
    rw [ofLe_leBytes, Nat.mod_eq_of_lt (by omega)]
  rw [splitWith, if_neg (by rw [List.length_append, length_frame]; omega)]
  simp only [htake, hdrop, hlen]
  rw [if_neg (by simp), List.take_left' rfl, List.drop_left' rfl]

/-- What an interrupted write of one record leaves: its first bytes, not all. -/
def Torn (tail : List UInt8) : Prop :=
  ∃ record : List UInt8, record.length < 2 ^ 32 ∧ tail <+: frame record ∧ tail.length < (frame record).length

theorem torn_nil : Torn [] := ⟨[], by simp, by simp, by simp [length_frame]⟩

theorem torn_take {record : List UInt8} (h : record.length < 2 ^ 32) {n : ℕ} (hn : n < (frame record).length) :
    Torn ((frame record).take n) :=
  ⟨record, h, List.take_prefix n _, by rw [List.length_take]; omega⟩

/-- A torn tail holds no complete record. -/
theorem splitWith_torn {tail : List UInt8} (h : Torn tail) (fuel : ℕ) : splitWith fuel tail = ([], tail) := by
  obtain ⟨record, hlen, ⟨rest, hrest⟩, hshort⟩ := h
  cases fuel with
  | zero => rfl
  | succ fuel =>
    rw [splitWith]
    split_ifs with h4
    · rfl
    have htake : tail.take 4 = leBytes 4 record.length := by
      have happend : (tail ++ rest).take 4 = tail.take 4 := List.take_append_of_le_length (by omega)
      rw [← happend, hrest, frame, List.take_left' (length_leBytes 4 _)]
    have hbody : (tail.drop 4).length < ofLe (tail.take 4) := by
      rw [length_frame] at hshort
      rw [htake, ofLe_leBytes, Nat.mod_eq_of_lt (by omega), List.length_drop]
      omega
    rw [if_pos hbody]

/-- Records that each fit their length read back from a run of them, and the
torn tail after them is left. -/
theorem split_flatMap_frame {records : List (List UInt8)} (h : ∀ r ∈ records, r.length < 2 ^ 32) {tail : List UInt8}
    (ht : Torn tail) : split (records.flatMap frame ++ tail) = (records, tail) := by
  have general : ∀ fuel, (records.flatMap frame).length ≤ fuel →
      splitWith fuel (records.flatMap frame ++ tail) = (records, tail) := by
    induction records with
    | nil => intro fuel _; exact splitWith_torn ht fuel
    | cons r rs ih =>
      intro fuel hfuel
      rw [List.flatMap_cons, List.length_append, length_frame] at hfuel
      obtain ⟨fuel, rfl⟩ : ∃ n, fuel = n + 1 := ⟨fuel - 1, by omega⟩
      rw [List.flatMap_cons, List.append_assoc, splitWith_frame_append (h r (by simp)),
        ih (fun x hx => h x (by simp [hx])) fuel (by omega)]
  refine general _ ?_
  rw [List.length_append]
  omega

/-- Records whose run starts a run of others are the first of them. -/
theorem records_prefix {rs ss : List (List UInt8)} (hrs : ∀ r ∈ rs, r.length < 2 ^ 32) (hss : ∀ s ∈ ss, s.length < 2 ^ 32)
    {tail : List UInt8} (ht : Torn tail) (h : rs.flatMap frame <+: ss.flatMap frame ++ tail) : rs <+: ss := by
  induction rs generalizing ss with
  | nil => exact List.nil_prefix
  | cons r rs ih =>
    obtain ⟨more, hmore⟩ := h
    rw [List.flatMap_cons, List.append_assoc] at hmore
    have hfirst := splitWith_frame_append (hrs r (by simp)) 0 (rs.flatMap frame ++ more)
    rw [hmore] at hfirst
    cases ss with
    | nil =>
      rw [List.flatMap_nil, List.nil_append, splitWith_torn ht] at hfirst
      cases (Prod.mk.inj hfirst).1
    | cons s ss =>
      rw [List.flatMap_cons, List.append_assoc, splitWith_frame_append (hss s (by simp)) 0] at hfirst
      have heq : s = r := (List.cons.inj (Prod.mk.inj hfirst).1).1
      subst heq
      rw [List.flatMap_cons, List.append_assoc] at hmore
      apply (List.prefix_cons_inj s).mpr
      apply ih (fun x hx => hrs x (by simp [hx])) (fun x hx => hss x (by simp [hx]))
      exact ⟨more, List.append_cancel_left hmore⟩

/-- Records whose run is a whole run of others are those, and nothing is torn. -/
theorem records_eq {rs ss : List (List UInt8)} (hrs : ∀ r ∈ rs, r.length < 2 ^ 32) (hss : ∀ s ∈ ss, s.length < 2 ^ 32)
    {tail : List UInt8} (ht : Torn tail) (h : rs.flatMap frame = ss.flatMap frame ++ tail) : rs = ss ∧ tail = [] := by
  obtain ⟨more, rfl⟩ := records_prefix hrs hss ht (h ▸ List.prefix_refl _)
  have hnil : more.flatMap frame ++ tail = [] := by
    rw [List.flatMap_append, List.append_assoc] at h
    exact List.append_cancel_left (h.symm.trans (List.append_nil _).symm)
  obtain ⟨hmore, htail⟩ := List.append_eq_nil_iff.mp hnil
  cases more with
  | nil => exact ⟨(List.append_nil _).symm, htail⟩
  | cons m more =>
    have hlen := congrArg List.length hmore
    rw [List.flatMap_cons, List.length_append, length_frame, List.length_nil] at hlen
    omega

/-! ### A run cut at a byte

The first bytes of a run hold the records that lie within them, and part of the
next. A record whose length does not fit its prefix is taken for a shorter one as
soon as that shorter one lies within the bytes kept. -/

/-- The items at the front of a run that lie within its first `k` bytes. -/
def whole {α : Type} (size : α → ℕ) : List α → ℕ → List α
  | [], _ => []
  | a :: as, k => if size a ≤ k then a :: whole size as (k - size a) else []

/-- No record is taken for a shorter one in the first `k` bytes of the run. -/
def Legible : List (List UInt8) → ℕ → Prop
  | [], _ => True
  | r :: rs, k =>
    if (frame r).length ≤ k then r.length < 2 ^ 32 ∧ Legible rs (k - (frame r).length) else k < 4 + r.length % 2 ^ 32

/-- The bytes of a record's prefix, and as many bytes as it says. -/
theorem splitWith_frame_take {r : List UInt8} {k : ℕ} (h : k < 4 + r.length % 2 ^ 32) (fuel : ℕ) :
    splitWith fuel ((frame r).take k) = ([], (frame r).take k) := by
  cases fuel with
  | zero => rfl
  | succ fuel =>
    rw [splitWith]
    split_ifs with h4
    · rfl
    have hlen : 4 ≤ k := by
      rw [List.length_take] at h4
      omega
    have htake : ((frame r).take k).take 4 = leBytes 4 r.length := by
      rw [List.take_take, Nat.min_eq_left hlen, frame, List.take_left' (length_leBytes 4 _)]
    have hbody : (((frame r).take k).drop 4).length < ofLe (((frame r).take k).take 4) := by
      rw [htake, ofLe_leBytes, List.length_drop, List.length_take]
      omega
    rw [if_pos hbody]

theorem flatMap_take_cons (r : List UInt8) (rs : List (List UInt8)) (k : ℕ) :
    ((r :: rs).flatMap frame).take k =
      if (frame r).length ≤ k then frame r ++ (rs.flatMap frame).take (k - (frame r).length) else (frame r).take k := by
  rw [List.flatMap_cons, List.take_append]
  split_ifs with h
  · rw [List.take_of_length_le h]
  · rw [Nat.sub_eq_zero_of_le (by omega), List.take_zero, List.append_nil]

/-- A legible run reads back to the records that lie within the bytes kept. -/
theorem split_take {rs : List (List UInt8)} {k : ℕ} (h : Legible rs k) :
    ∃ tail, split ((rs.flatMap frame).take k) = (whole (fun r => (frame r).length) rs k, tail) ∧
      (rs.flatMap frame).take k = (whole (fun r => (frame r).length) rs k).flatMap frame ++ tail := by
  have general : ∀ fuel, ((rs.flatMap frame).take k).length ≤ fuel → ∃ tail,
      splitWith fuel ((rs.flatMap frame).take k) = (whole (fun r => (frame r).length) rs k, tail) ∧
        (rs.flatMap frame).take k = (whole (fun r => (frame r).length) rs k).flatMap frame ++ tail := by
    induction rs generalizing k with
    | nil =>
      intro fuel _
      refine ⟨[], ?_, by simp [whole]⟩
      rw [List.flatMap_nil, List.take_nil, splitWith_torn torn_nil, whole]
    | cons r rs ih =>
      intro fuel hfuel
      rw [Legible] at h
      rw [flatMap_take_cons] at hfuel ⊢
      rw [whole]
      split_ifs at h hfuel ⊢ with hwhole
      · rw [List.length_append, length_frame] at hfuel
        obtain ⟨fuel, rfl⟩ : ∃ n, fuel = n + 1 := ⟨fuel - 1, by omega⟩
        obtain ⟨tail, hsplit, hdata⟩ := ih h.2 fuel (by rw [length_frame]; omega)
        refine ⟨tail, ?_, ?_⟩
        · rw [splitWith_frame_append h.1, hsplit]
        · rw [hdata, List.flatMap_cons, List.append_assoc]
      · exact ⟨_, splitWith_frame_take h fuel, rfl⟩
  exact general _ le_rfl

/-- The front of a record too long for its prefix, read as a record. -/
theorem splitWith_front {r : List UInt8} (h : 2 ^ 32 ≤ r.length) (fuel : ℕ) (tail : List UInt8) :
    ∃ rest, (splitWith (fuel + 1) (leBytes 4 r.length ++ (r.take (r.length % 2 ^ 32) ++ tail))).1 =
      r.take (r.length % 2 ^ 32) :: rest := by
  have htake : (r.take (r.length % 2 ^ 32)).length = r.length % 2 ^ 32 := by
    rw [List.length_take]
    omega
  have hlen : ofLe (leBytes 4 r.length) = r.length % 2 ^ 32 := ofLe_leBytes 4 _
  rw [splitWith, if_neg (by simp)]
  simp only [List.take_left' (length_leBytes 4 _), List.drop_left' (length_leBytes 4 _), hlen]
  rw [if_neg (by rw [List.length_append]; omega), List.take_left' htake]
  exact ⟨_, rfl⟩

/-- In a run that is not legible the first record taken for a shorter one is too
long for its prefix, and what is read for it is its front. -/
theorem split_illegible {rs : List (List UInt8)} {k : ℕ} (h : ¬ Legible rs k) :
    ∃ before r after rest, rs = before ++ r :: after ∧ 2 ^ 32 ≤ r.length ∧
      (split ((rs.flatMap frame).take k)).1 = before ++ r.take (r.length % 2 ^ 32) :: rest ∧
        (whole (fun r => (frame r).length) rs k = before ∨
          ∃ more, whole (fun r => (frame r).length) rs k = before ++ r :: more) := by
  have general : ∀ fuel, ((rs.flatMap frame).take k).length ≤ fuel → ∃ before r after rest,
      rs = before ++ r :: after ∧ 2 ^ 32 ≤ r.length ∧
        (splitWith fuel ((rs.flatMap frame).take k)).1 = before ++ r.take (r.length % 2 ^ 32) :: rest ∧
          (whole (fun r => (frame r).length) rs k = before ∨
            ∃ more, whole (fun r => (frame r).length) rs k = before ++ r :: more) := by
    induction rs generalizing k with
    | nil => exact absurd trivial h
    | cons r rs ih =>
      intro fuel hfuel
      rw [Legible] at h
      rw [flatMap_take_cons] at hfuel ⊢
      rw [whole]
      by_cases hsmall : (frame r).length ≤ k ∧ r.length < 2 ^ 32
      · rw [if_pos hsmall.1] at h hfuel
        rw [if_pos hsmall.1, if_pos hsmall.1]
        rw [List.length_append, length_frame] at hfuel
        obtain ⟨fuel, rfl⟩ : ∃ n, fuel = n + 1 := ⟨fuel - 1, by omega⟩
        obtain ⟨before, r', after, rest, hrs, hbig, hsplit, hwhole⟩ :=
          ih (fun hl => h ⟨hsmall.2, hl⟩) fuel (by rw [length_frame]; omega)
        refine ⟨r :: before, r', after, rest, by rw [hrs, List.cons_append], hbig, ?_, ?_⟩
        · rw [splitWith_frame_append hsmall.2, hsplit, List.cons_append]
        · obtain heq | ⟨more, heq⟩ := hwhole
          · exact .inl (by rw [heq])
          · exact .inr ⟨more, by rw [heq, List.cons_append]⟩
      · -- The record's own front lies within the bytes kept.
        have hbig : 2 ^ 32 ≤ r.length ∧ 4 + r.length % 2 ^ 32 ≤ k := by
          have hlen := length_frame r
          split_ifs at h with hwhole
          · have hr : ¬ r.length < 2 ^ 32 := fun hr => hsmall ⟨hwhole, hr⟩
            omega
          · omega
        obtain ⟨tail, hdata⟩ : ∃ tail, (if (frame r).length ≤ k then
            frame r ++ (rs.flatMap frame).take (k - (frame r).length) else (frame r).take k) =
              leBytes 4 r.length ++ (r.take (r.length % 2 ^ 32) ++ tail) := by
          split_ifs with hwhole
          · refine ⟨r.drop (r.length % 2 ^ 32) ++ (rs.flatMap frame).take (k - (frame r).length), ?_⟩
            rw [← List.append_assoc (r.take _), List.take_append_drop, frame, List.append_assoc]
          · refine ⟨(r.take (k - 4)).drop (r.length % 2 ^ 32), ?_⟩
            have hfront : r.take (r.length % 2 ^ 32) = (r.take (k - 4)).take (r.length % 2 ^ 32) := by
              rw [List.take_take, Nat.min_eq_left (by omega)]
            rw [hfront, List.take_append_drop, frame, List.take_append, length_leBytes,
              List.take_of_length_le (by rw [length_leBytes]; omega)]
        rw [hdata] at hfuel ⊢
        rw [List.length_append, length_leBytes] at hfuel
        obtain ⟨fuel, rfl⟩ : ∃ n, fuel = n + 1 := ⟨fuel - 1, by omega⟩
        obtain ⟨rest, hrest⟩ := splitWith_front hbig.1 fuel tail
        refine ⟨[], r, rs, rest, rfl, hbig.1, hrest, ?_⟩
        split_ifs with hwhole
        · exact .inr ⟨_, rfl⟩
        · exact .inl rfl
  exact general _ le_rfl

end Frames
