import Glade.Kernel.Convergence

/-! Two replicas compare their heads. The heads of one name, origin by origin, the top
of a chain; a replica that holds every top holds every chain, and what it holds above
or beside them it offers. -/

namespace Glade.Kernel

open Wire Node OrdMap

variable {C : Crypto} {s s' : State} {v v' : InstanceState} {i : Instance} {r r' : ReadCut}

variable (C) in
/-- No two operations that either replica accepted have one digest. -/
def NoCommonCollision (v v' : InstanceState) : Prop := ∀ a ∈ v.accepted ++ v'.accepted, ∀ b ∈ v.accepted ++ v'.accepted,
  a.hash C = b.hash C → a.candidate.operation = b.candidate.operation

/-- Two operations of the first replica share a slot at which the other accepted one. -/
def ForksAt (v v' : InstanceState) : Prop := ∃ a ∈ v.accepted, ∃ b ∈ v.accepted, slot a.candidate = slot b.candidate ∧
  a.candidate.operation ≠ b.candidate.operation ∧ ∃ c ∈ v'.accepted, slot c.candidate = slot a.candidate

/-- Whether the replica accepted the operation. -/
def Holds (v : InstanceState) (o : Op) : Prop := ∃ a ∈ v.accepted, a.candidate.operation = o

/-! ### What an observation answers -/

variable (C) in
/-- The replica holds the top each head names. -/
def Matched (v : InstanceState) (heads : Std.ExtTreeMap String (ℤ × Digest)) : Prop :=
  ∀ (origin : String) (n : ℤ) (d : Digest), heads[origin]? = some (n, d) →
    ∃ a ∈ v.accepted, a.candidate.operation.origin = origin ∧ a.candidate.operation.seq = n ∧ a.hash C = d

/-- Whether an operation lies above its origin's head. -/
def Above (heads : Std.ExtTreeMap String (ℤ × Digest)) (a : Accepted) : Prop :=
  ∀ head ∈ heads[a.candidate.operation.origin]?, head.1 < a.candidate.operation.seq

/-- An observation that asks for nothing and refuses nothing finds every head, and
offers what lies above them. -/
theorem frontier_quiet (hv : s.instances[i]? = some v) {heads : Std.ExtTreeMap String (ℤ × Digest)}
    (hask : ∀ slots, .requestMissing slots ∉ (frontier C s i heads).2)
    (hcapacity : .report .capacity ∉ (frontier C s i heads).2) (hinvalid : .report .invalid ∉ (frontier C s i heads).2) :
    Matched C v heads ∧ ∀ a ∈ v.accepted, Above heads a →
      ∃ offered, .offerMissing offered ∈ (frontier C s i heads).2 ∧ a.candidate ∈ offered := by
  generalize heffects : (frontier C s i heads).2 = effects at *
  rw [frontier, hv] at heffects
  dsimp only at heffects
  have hoffers : ∀ a ∈ v.accepted, Above heads a →
      a ∈ v.accepted.filter fun a => ∀ head ∈ heads[a.candidate.operation.origin]?, head.1 < a.candidate.operation.seq :=
    fun a ha habove => List.mem_filter.mpr ⟨ha, decide_eq_true habove⟩
  have hmatched : (∀ e ∈ heads.toList, ∃ a ∈ v.accepted, a.candidate.operation.origin = e.1 ∧
      a.candidate.operation.seq = e.2.1 ∧ opHash C a.candidate.operation = e.2.2) → Matched C v heads :=
    fun h origin n d hhead => h (origin, n, d) (Std.ExtTreeMap.mem_toList_iff_getElem?_eq_some.mpr hhead)
  split_ifs at heffects with hform hnames hfits hlacking hoffered hoffered <;> subst heffects
  · exact absurd (List.mem_singleton.mpr rfl) hinvalid
  · rw [List.map_eq_nil_iff, List.filter_eq_nil_iff] at hlacking
    refine ⟨hmatched (by simpa using hlacking), fun a ha habove => ?_⟩
    exact absurd (hoffers a ha habove) (by rw [hoffered]; exact List.not_mem_nil)
  · rw [List.map_eq_nil_iff, List.filter_eq_nil_iff] at hlacking
    refine ⟨hmatched (by simpa using hlacking), fun a ha habove => ?_⟩
    exact ⟨_, List.mem_singleton.mpr rfl, List.mem_map_of_mem (hoffers a ha habove)⟩
  · exact absurd (List.mem_cons_self ..) (hask _)
  · exact absurd (List.mem_cons_self ..) (hask _)
  · exact absurd (List.mem_singleton.mpr rfl) hcapacity
  · exact absurd (List.mem_singleton.mpr rfl) hcapacity

/-! ### A held top holds its chain -/

/-- What a held operation names is held. -/
theorem held_below (hist : History C i v) (hnc : NoCommonCollision C v v') {a b : Accepted}
    (hheld : Holds v b.candidate.operation) (ha : a ∈ v'.accepted) (hpos : 0 < b.candidate.operation.seq)
    (hprev : b.candidate.operation.prev = some (a.hash C).val) : Holds v a.candidate.operation := by
  obtain ⟨x, hx, hop⟩ := hheld
  obtain ⟨k, hk⟩ := List.mem_iff_getElem?.mp hx
  have hdep : (Slot.mk x.candidate.inst b.candidate.operation.origin (b.candidate.operation.seq - 1), some (a.hash C)) ∈
      dependencies x.candidate := by
    rw [dependencies, hop, if_pos hpos, digestOf_bind_eq_some.mpr hprev]
    exact List.mem_append_left _ (List.mem_singleton.mpr rfl)
  obtain ⟨j, -, y, hy, -, hhash⟩ := hist.closed k x hk _ hdep
  have hymem := List.mem_of_getElem? hy
  exact ⟨y, hymem, hnc y (List.mem_append_left _ hymem) a (List.mem_append_right _ ha) (hhash _ rfl)⟩

/-- Under a held eligible operation every eligible one of its origin is held. -/
theorem held_chain (hist : History C i v) (hist' : History C i v') (hnc : NoCommonCollision C v v')
    (hnc' : NoCollision C v') (n : ℕ) : ∀ b ∈ v'.accepted, b.hash C ∈ eligible C v' → Holds v b.candidate.operation →
    ∀ m : ℤ, 0 ≤ m → b.candidate.operation.seq = m + n →
    ∃ a ∈ v'.accepted, a.hash C ∈ eligible C v' ∧ a.candidate.operation.origin = b.candidate.operation.origin ∧
      a.candidate.operation.seq = m ∧ Holds v a.candidate.operation := by
  induction n with
  | zero => exact fun b hb h hheld m hm hseq => ⟨b, hb, h, rfl, by simpa using hseq, hheld⟩
  | succ n ih =>
    intro b hb h hheld m hm hseq
    obtain ⟨a, ha, haelig, horigin, haseq, hprev⟩ := eligible_below hist' hnc' hb h (by omega)
    have haheld := held_below hist hnc hheld ha (by omega) hprev
    obtain ⟨c, hc, hcelig, hcorigin, hcseq, hcheld⟩ := ih a ha haelig haheld m hm (by omega)
    exact ⟨c, hc, hcelig, hcorigin.trans horigin, hcseq, hcheld⟩

theorem NoCommonCollision.right (h : NoCommonCollision C v v') : NoCollision C v' :=
  fun a ha b hb => h a (List.mem_append_right _ ha) b (List.mem_append_right _ hb)

theorem NoCommonCollision.left (h : NoCommonCollision C v v') : NoCollision C v :=
  fun a ha b hb => h a (List.mem_append_left _ ha) b (List.mem_append_left _ hb)

/-- At or under a head of the other replica that is found here, the other has an
eligible operation, and it is held. -/
theorem held_under_head (hist : History C i v) (hist' : History C i v') (hnc : NoCommonCollision C v v')
    (hr' : Projects C v' r') (hmatched : Matched C v r'.contiguousCommonHeads) {origin : String} {n : ℤ} {d : Digest}
    (hhead : r'.contiguousCommonHeads[origin]? = some (n, d)) {m : ℤ} (hm : 0 ≤ m) (hle : m ≤ n) :
    ∃ b ∈ v'.accepted, b.hash C ∈ eligible C v' ∧ b.candidate.operation.origin = origin ∧
      b.candidate.operation.seq = m ∧ Holds v b.candidate.operation := by
  obtain ⟨x, hx, -, -, hhash⟩ := hmatched origin n d hhead
  have htop := isHead_foldl (C := C) v'.accepted (eligible C v') origin
  rw [← hr'.heads, hhead] at htop
  obtain ⟨⟨t, ht, htelig, rfl, rfl, rfl⟩, -⟩ := htop
  have hheld : Holds v t.candidate.operation :=
    ⟨x, hx, hnc x (List.mem_append_left _ hx) t (List.mem_append_right _ ht) hhash⟩
  exact held_chain hist hist' hnc hnc.right (t.candidate.operation.seq - m).toNat t ht htelig hheld m hm (by omega)

/-- When every head of the other replica is found here, all that is eligible there is
held here. -/
theorem held_of_eligible (hist : History C i v) (hist' : History C i v') (hnc : NoCommonCollision C v v')
    (hr' : Projects C v' r') (hmatched : Matched C v r'.contiguousCommonHeads) {b : Accepted} (hb : b ∈ v'.accepted)
    (hbelig : b.hash C ∈ eligible C v') : Holds v b.candidate.operation := by
  have hhead := isHead_foldl (C := C) v'.accepted (eligible C v') b.candidate.operation.origin
  rw [← hr'.heads] at hhead
  obtain ⟨-, -, -, -, -, -, -, ⟨hpos, -⟩, -⟩ := hist'.formed b hb
  cases htop : r'.contiguousCommonHeads[b.candidate.operation.origin]? with
  | none =>
    rw [htop] at hhead
    exact absurd rfl (hhead b hb hbelig)
  | some top =>
    obtain ⟨n, d⟩ := top
    rw [htop] at hhead
    obtain ⟨a, ha, haelig, horigin, hseq, hheld⟩ :=
      held_under_head hist hist' hnc hr' hmatched htop hpos (hhead.2 b hb hbelig rfl)
    have hslot : slot b.candidate = slot a.candidate := by
      rw [slot, slot, hist'.inst b hb, hist'.inst a ha, horigin, hseq]
    rwa [eligible_slot_unique hist' hnc.right hb ha hslot haelig]

/-- An operation that lies at or under its origin's head shares its slot with one the
other replica has eligible, and this one holds. -/
theorem beside_of_not_above (hist : History C i v) (hist' : History C i v') (hnc : NoCommonCollision C v v')
    (hr' : Projects C v' r') (hmatched : Matched C v r'.contiguousCommonHeads) {a : Accepted} (ha : a ∈ v.accepted)
    (h : ¬ Above r'.contiguousCommonHeads a) :
    ∃ b ∈ v'.accepted, slot b.candidate = slot a.candidate ∧ b.hash C ∈ eligible C v' ∧ Holds v b.candidate.operation := by
  simp only [Above, Option.mem_def, not_forall, not_lt] at h
  obtain ⟨⟨n, d⟩, hhead, hle⟩ := h
  obtain ⟨-, -, -, -, -, -, -, ⟨hpos, -⟩, -⟩ := hist.formed a ha
  obtain ⟨b, hb, hbelig, horigin, hseq, hheld⟩ := held_under_head hist hist' hnc hr' hmatched hhead hpos hle
  refine ⟨b, hb, ?_, hbelig, hheld⟩
  rw [slot, slot, hist'.inst b hb, hist.inst a ha, horigin, hseq]

/-! ### Replicas without forks -/

/-- A replica with one operation a slot has all it accepted eligible. -/
theorem eligible_of_unforked (hist : History C i v)
    (h : ∀ a ∈ v.accepted, ∀ b ∈ v.accepted, slot a.candidate = slot b.candidate → a.candidate.operation = b.candidate.operation)
    {a : Accepted} (ha : a ∈ v.accepted) : a.hash C ∈ eligible C v := by
  obtain ⟨k, hk⟩ := List.mem_iff_getElem?.mp ha
  refine mem_eligible_of_clean hist k a hk fun b _ => ?_
  rintro ⟨floor, hfloor, -⟩
  have hleast := hist.floors b.candidate.operation.origin
  rw [Option.mem_def.mp hfloor] at hleast
  obtain ⟨f, hf, -⟩ := hleast.1
  obtain ⟨hsame, hdiffer, ⟨x, hx, hxslot, hxop⟩, ⟨y, hy, hyslot, hyop⟩⟩ := hist.pairs f hf
  refine hdiffer ?_
  rw [← hxop, ← hyop]
  exact h x hx y hy (by rw [hxslot, hyslot, hsame])

/-- A replica that is told the heads of another, and neither asks for one nor refuses
them, holds all that is eligible there; what it holds it offers, or the other has an
operation at its slot; and when it offers nothing either, and holds no fork at a slot
of the other's, both have the same operations eligible. -/
theorem frontier_complete (h : Reachable C s) (h' : Reachable C s') (hv : s.instances[i]? = some v)
    (hv' : s'.instances[i]? = some v') (hnc : NoCommonCollision C v v') (hcut' : cut C s' i = some r')
    (hask : ∀ slots, .requestMissing slots ∉ (step C s (.observeFrontier i r'.contiguousCommonHeads)).2)
    (hcapacity : .report .capacity ∉ (step C s (.observeFrontier i r'.contiguousCommonHeads)).2)
    (hinvalid : .report .invalid ∉ (step C s (.observeFrontier i r'.contiguousCommonHeads)).2) :
    (∀ b ∈ v'.accepted, b.hash C ∈ r'.eligible → Holds v b.candidate.operation) ∧
    (∀ a ∈ v.accepted, (∃ offered, .offerMissing offered ∈ (step C s (.observeFrontier i r'.contiguousCommonHeads)).2 ∧
      a.candidate ∈ offered) ∨ ∃ b ∈ v'.accepted, slot b.candidate = slot a.candidate) ∧
    ((∀ offered, .offerMissing offered ∉ (step C s (.observeFrontier i r'.contiguousCommonHeads)).2) → ¬ ForksAt v v' →
      ∃ r, cut C s i = some r ∧ r.eligible = r'.eligible) := by
  have hist := h.histories.history i v hv
  have hist' := h'.histories.history i v' hv'
  obtain ⟨r, hcut, hr⟩ := hist.cut hv
  obtain ⟨_, hcut'', hr'⟩ := hist'.cut hv'
  obtain rfl := Option.some.inj (hcut'.symm.trans hcut'')
  obtain ⟨hmatched, hoffered⟩ := frontier_quiet hv hask hcapacity hinvalid
  have hheld : ∀ b ∈ v'.accepted, b.hash C ∈ r'.eligible → Holds v b.candidate.operation := fun b hb hbelig =>
    held_of_eligible hist hist' hnc hr' hmatched hb (hr'.mem_eligible.mp hbelig)
  refine ⟨hheld, fun a ha => ?_, fun hquiet hforks => ⟨r, hcut, ?_⟩⟩
  · by_cases habove : Above r'.contiguousCommonHeads a
    · exact .inl (hoffered a ha habove)
    · obtain ⟨b, hb, hslot, -⟩ := beside_of_not_above hist hist' hnc hr' hmatched ha habove
      exact .inr ⟨b, hb, hslot⟩
  -- Nothing lies above a head, so all that is held shares its slot with what is eligible there.
  have hbeside : ∀ a ∈ v.accepted, ∃ b ∈ v'.accepted, slot b.candidate = slot a.candidate ∧ b.hash C ∈ eligible C v' ∧
      Holds v b.candidate.operation := fun a ha =>
    beside_of_not_above hist hist' hnc hr' hmatched ha fun habove =>
      have ⟨offered, hmem, _⟩ := hoffered a ha habove
      hquiet offered hmem
  have hunforked : ∀ a ∈ v.accepted, ∀ b ∈ v.accepted, slot a.candidate = slot b.candidate →
      a.candidate.operation = b.candidate.operation := by
    intro a ha b hb hslot
    by_contra hne
    obtain ⟨c, hc, hcslot, -⟩ := hbeside a ha
    exact hforks ⟨a, ha, b, hb, hslot, hne, c, hc, hcslot⟩
  have hsame : ∀ d, d ∈ eligible C v ↔ d ∈ eligible C v' := by
    intro d
    constructor
    · intro hd
      obtain ⟨a, ha, rfl⟩ := exists_of_mem_eligible hd
      obtain ⟨b, hb, hslot, hbelig, x, hx, hxop⟩ := hbeside a ha
      have hxslot : slot x.candidate = slot a.candidate := by
        rw [← hslot, slot_congr ((hist.inst x hx).trans (hist'.inst b hb).symm) hxop]
      rw [Accepted.hash, hunforked a ha x hx hxslot.symm, hxop]
      exact hbelig
    · intro hd
      obtain ⟨b, hb, rfl⟩ := exists_of_mem_eligible hd
      obtain ⟨a, ha, hop⟩ := hheld b hb (hr'.mem_eligible.mpr hd)
      rw [Accepted.hash, ← hop]
      exact eligible_of_unforked hist hunforked ha
  rw [hr.eligible, hr'.eligible, Std.ExtTreeSet.ext_mem hsame]

/-- A replica that is idle and waits for nothing answers one that has nothing yet with
all it holds. -/
theorem frontier_empty {n : ℕ} (h : Room C n s v) (hn : n ≤ 100) (hidle : Idle s) :
    (frontier C s (draft C).inst ∅).2 =
      if v.accepted = [] then [] else [.offerMissing (v.accepted.map fun a => a.candidate)] := by
  have hfits := h.pendingFits hn (hidle.plans _) (Nat.zero_le _)
  have hnames : ∃ z ∈ s.storageLimits, (utf8 (draft C).inst.incarnation).length ≤ z.maxNameBytes ∧
      ∀ e ∈ (∅ : Std.ExtTreeMap String (ℤ × Digest)).toList, (utf8 e.1).length ≤ z.maxNameBytes := by
    rw [h.limits]
    exact ⟨deskLimits, rfl, show (utf8 "draft").length ≤ 64 by decide, by simp⟩
  rw [frontier, h.known]
  dsimp only
  rw [if_neg (by simp), if_neg (not_not.mpr hnames)]
  have hnamed : (∅ : Std.ExtTreeMap String (ℤ × Digest)).toList = [] := by simp
  simp only [hnamed, List.filter_nil, List.map_nil, h.pendingSlots_nil (hidle.plans _), hfits, not_true_eq_false, if_false,
    if_true]
  simp

/-- A replica that accepted an operation offers it to one that accepted none. -/
theorem frontier_complete_desk : (∀ C, Reachable C (desk C)) ∧ ∀ C : Crypto, ∃ events v a, v.accepted = [a] ∧
    (run C (desk C) events).instances[(draft C).inst]? = some v ∧ ∃ r', cut C (desk C) (draft C).inst = some r' ∧
      ∃ offered, a.candidate ∈ offered ∧
        .offerMissing offered ∈ (step C (run C (desk C) events)
          (.observeFrontier (draft C).inst r'.contiguousCommonHeads)).2 := by
  refine ⟨fun C => ⟨desk C, [], fresh_desk C, rfl⟩, fun C => ?_⟩
  obtain ⟨events, v, a, hv, haccepted, -, hroom, hidle⟩ := first_accepted C
  have hdesk := (room_desk C).known
  have hreach : Reachable C (desk C) := ⟨desk C, [], fresh_desk C, rfl⟩
  obtain ⟨r', hcut', hr'⟩ := (hreach.histories.history _ _ hdesk).cut hdesk
  have hheads : r'.contiguousCommonHeads = ∅ := hr'.heads
  have heffects := frontier_empty hroom (by omega) hidle
  rw [haccepted, if_neg (by simp)] at heffects
  have hquiet : ∀ x, x ∈ (step C (run C (desk C) events) (.observeFrontier (draft C).inst r'.contiguousCommonHeads)).2 →
      x = .offerMissing ([a].map fun a => a.candidate) := by
    intro x hx
    rw [hheads] at hx
    exact List.mem_singleton.mp (heffects ▸ hx)
  have hnc : NoCommonCollision C v (.opened (draft C) .volatileTest [] { earliestMs := 0, latestMs := 0 }) := by
    simp [NoCommonCollision, haccepted, InstanceState.opened]
  obtain ⟨-, hoffered, -⟩ := frontier_complete ⟨desk C, events, fresh_desk C, rfl⟩ hreach hv hdesk hnc hcut'
    (fun slots h => by cases hquiet _ h) (fun h => by cases hquiet _ h) (fun h => by cases hquiet _ h)
  refine ⟨events, v, a, haccepted, hv, r', hcut', ?_⟩
  rcases hoffered a (by simp [haccepted]) with ⟨offered, hmem, ha⟩ | ⟨b, hb, -⟩
  · exact ⟨offered, ha, hmem⟩
  · simp [InstanceState.opened] at hb

end Glade.Kernel
