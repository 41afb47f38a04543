import Glade.Kernel.History
import Glade.Lib.Passes

/-! What the eligible operations and the heads of an instance are: the operations
whose whole causal past lies below the floors, and the tops of their chains. -/

namespace Glade.Kernel

open Wire Node OrdMap

variable (C : Crypto)

/-- An accepted operation's digest. -/
def Accepted.hash (a : Accepted) : Digest := opHash C a.candidate.operation

/-- No two accepted operations of the instance have one digest. -/
def NoCollision (v : InstanceState) : Prop := ∀ a ∈ v.accepted, ∀ b ∈ v.accepted, a.hash C = b.hash C →
  a.candidate.operation = b.candidate.operation

/-- Whether `b` is accepted and is what some dependency of `a` names. -/
def Names (v : InstanceState) (a b : Accepted) : Prop := b ∈ v.accepted ∧ ∃ dep ∈ dependencies a.candidate, Satisfies C dep b

/-- Whether the whole causal past of an operation, itself included, lies below the
floors of its origins. -/
def Clean (v : InstanceState) (a : Accepted) : Prop := ∀ b, Relation.ReflTransGen (Names C v) a b →
  ¬ Quarantined v b.candidate.operation

/-- Whether an operation may join the eligible ones. -/
def Ready (v : InstanceState) (set : Std.ExtTreeSet Digest) (a : Accepted) : Prop :=
  ¬ Quarantined v a.candidate.operation ∧
    ∀ dep ∈ dependencies a.candidate, ∃ b ∈ v.accepted, Satisfies C dep b ∧ b.hash C ∈ set

instance (v : InstanceState) (set : Std.ExtTreeSet Digest) : DecidablePred (Ready C v set) := fun a => by
  dsimp only [Ready, Accepted.hash]
  infer_instance

variable {C} {v v' : InstanceState} {i : Instance}

theorem eligibleVisit_eq (v : InstanceState) : eligibleVisit C v = Passes.visit (Accepted.hash C) (Ready C v) := by
  funext set a
  rw [eligibleVisit, Passes.visit]
  by_cases hq : Quarantined v a.candidate.operation
  · rw [if_pos hq, if_neg fun h => h.1 hq]
  · rw [if_neg hq]
    exact if_congr ⟨fun h => ⟨hq, h⟩, fun h => h.2⟩ rfl rfl

theorem eligible_eq (v : InstanceState) :
    eligible C v = Passes.close (Accepted.hash C) (Ready C v) v.accepted (v.accepted.length + 1) ∅ := by
  have h : ∀ fuel set, eligibleFrom C v fuel set = Passes.close (Accepted.hash C) (Ready C v) v.accepted fuel set := by
    intro fuel
    induction fuel with
    | zero => exact fun set => rfl
    | succ fuel ih =>
      intro set
      rw [eligibleFrom, Passes.close, eligibleVisit_eq]
      split_ifs
      · rfl
      · exact ih _
  exact h _ _

/-- What may join has joined. -/
theorem mem_eligible_of_ready {a : Accepted} (ha : a ∈ v.accepted) (h : Ready C v (eligible C v) a) :
    a.hash C ∈ eligible C v := by
  rw [eligible_eq] at h ⊢
  exact Passes.close_closed (by simp) (by omega) a ha h

/-- Nothing else has. -/
theorem eligible_induct {P : Digest → Prop} (h : ∀ set : Std.ExtTreeSet Digest, (∀ d ∈ set, P d) → ∀ a ∈ v.accepted,
    Ready C v set a → P (a.hash C)) : ∀ d ∈ eligible C v, P d := by
  rw [eligible_eq]
  exact Passes.close_induct (by simp) h

theorem exists_of_mem_eligible {d : Digest} (h : d ∈ eligible C v) : ∃ a ∈ v.accepted, a.hash C = d :=
  eligible_induct (P := fun d => ∃ a ∈ v.accepted, a.hash C = d) (fun _ _ a ha _ => ⟨a, ha, rfl⟩) d h

/-! ### The causal past -/

theorem History.entry_eq (hist : History C i v) {a b : Accepted} (ha : a ∈ v.accepted) (hb : b ∈ v.accepted)
    (h : a.candidate.operation = b.candidate.operation) : a = b := List.inj_on_of_nodup_map hist.distinct ha hb h

/-- An operation at a convicted slot is quarantined. -/
theorem History.quarantined (hist : History C i v) {f : ForkEvidence} (hf : f ∈ v.qualifiedForks) {a : Accepted}
    (h : slot f.first = slot a.candidate) : Quarantined v a.candidate.operation := by
  obtain ⟨-, horigin, hseq⟩ := Slot.mk.inj h
  have hmem : a.candidate.operation.seq ∈ convictedSeqs v.qualifiedForks a.candidate.operation.origin :=
    ⟨f, hf, horigin, hseq⟩
  have hfloor := hist.floors a.candidate.operation.origin
  cases hq : v.quarantine[a.candidate.operation.origin]? with
  | none =>
    rw [hq] at hfloor
    rw [show convictedSeqs v.qualifiedForks a.candidate.operation.origin = ∅ from hfloor] at hmem
    exact hmem.elim
  | some floor =>
    rw [hq] at hfloor
    exact ⟨floor, hq, hfloor.2 hmem⟩

/-- Below the floors a slot has one operation. -/
theorem History.slot_unique (hist : History C i v) {a b : Accepted} (ha : a ∈ v.accepted) (hb : b ∈ v.accepted)
    (hslot : slot a.candidate = slot b.candidate) (hclean : ¬ Quarantined v b.candidate.operation) : a = b := by
  by_contra hne
  obtain ⟨f, hf, hfirst⟩ := hist.convicted a ha b hb hslot fun h => hne (hist.entry_eq ha hb h)
  exact hclean (hist.quarantined hf (hfirst.trans hslot))

theorem Clean.names {a b : Accepted} (h : Clean C v a) (hab : Names C v a b) : Clean C v b :=
  fun c hc => h c (.head hab hc)

/-- An eligible operation's causal past lies below the floors. -/
theorem clean_of_mem_eligible (hist : History C i v) (hnc : NoCollision C v) {a : Accepted} (ha : a ∈ v.accepted)
    (h : a.hash C ∈ eligible C v) : Clean C v a := by
  refine eligible_induct (P := fun d => ∀ a ∈ v.accepted, a.hash C = d → Clean C v a) ?_ _ h a ha rfl
  rintro set hset a ha ⟨hq, hready⟩ a' ha' hhash
  obtain rfl := hist.entry_eq ha' ha (hnc a' ha' a ha hhash)
  intro c hc
  rcases hc.cases_head with rfl | ⟨b, ⟨hb, dep, hdep, hsat⟩, hbc⟩
  · exact hq
  · -- What joined for the dependency is below its floor, so it is all there is at that slot.
    obtain ⟨b', hb', hsat', hmem⟩ := hready dep hdep
    have hclean : Clean C v b' := hset _ hmem b' hb' rfl
    obtain rfl := hist.slot_unique hb hb' (hsat.1.trans hsat'.1.symm) (hclean b' .refl)
    exact hclean c hbc

/-- An operation whose causal past lies below the floors is eligible: what it depends
on comes before it. -/
theorem mem_eligible_of_clean (hist : History C i v) : ∀ (k : ℕ) (a : Accepted), v.accepted[k]? = some a → Clean C v a →
    a.hash C ∈ eligible C v := by
  intro k
  induction k using Nat.strong_induction_on with
  | _ k ih =>
    intro a ha hclean
    refine mem_eligible_of_ready (List.mem_of_getElem? ha) ⟨hclean a .refl, fun dep hdep => ?_⟩
    obtain ⟨j, hj, b, hb, hsat⟩ := hist.closed k a ha dep hdep
    have hbmem := List.mem_of_getElem? hb
    exact ⟨b, hbmem, hsat, ih j hj b hb (hclean.names ⟨hbmem, dep, hdep, hsat⟩)⟩

/-- The eligible operations are those whose causal past lies below the floors. -/
theorem mem_eligible_iff (hist : History C i v) (hnc : NoCollision C v) {a : Accepted} (ha : a ∈ v.accepted) :
    a.hash C ∈ eligible C v ↔ Clean C v a := by
  refine ⟨clean_of_mem_eligible hist hnc ha, fun h => ?_⟩
  obtain ⟨k, hk⟩ := List.mem_iff_getElem?.mp ha
  exact mem_eligible_of_clean hist k a hk h

/-- At most one operation of a slot is eligible. -/
theorem eligible_slot_unique (hist : History C i v) (hnc : NoCollision C v) {a b : Accepted} (ha : a ∈ v.accepted)
    (hb : b ∈ v.accepted) (hslot : slot a.candidate = slot b.candidate) (h : b.hash C ∈ eligible C v) : a = b :=
  hist.slot_unique ha hb hslot (clean_of_mem_eligible hist hnc hb h b .refl)

/-! ### Heads -/

variable (C) in
/-- What the head of an origin is, of some operations: its highest eligible one. -/
def IsHead (l : List Accepted) (set : Std.ExtTreeSet Digest) (origin : String) : Option (ℤ × Digest) → Prop
  | none => ∀ a ∈ l, a.hash C ∈ set → a.candidate.operation.origin ≠ origin
  | some (n, d) =>
    (∃ a ∈ l, a.hash C ∈ set ∧ a.candidate.operation.origin = origin ∧ a.candidate.operation.seq = n ∧ a.hash C = d) ∧
      ∀ a ∈ l, a.hash C ∈ set → a.candidate.operation.origin = origin → a.candidate.operation.seq ≤ n

/-- The heads of some operations, with one more looked at. -/
theorem IsHead.visit {l : List Accepted} {set : Std.ExtTreeSet Digest} {heads : Std.ExtTreeMap String (ℤ × Digest)}
    {origin : String} (h : IsHead C l set origin heads[origin]?) (a : Accepted) :
    IsHead C (l ++ [a]) set origin (headVisit C set heads a)[origin]? := by
  have hskip : (a.hash C ∈ set → a.candidate.operation.origin ≠ origin ∨
      ∃ entry, heads[origin]? = some entry ∧ a.candidate.operation.seq ≤ entry.1) →
      IsHead C (l ++ [a]) set origin heads[origin]? := by
    intro hno
    cases hhead : heads[origin]? with
    | none =>
      rw [hhead] at h hno
      intro b hb hmem
      rcases List.mem_append.mp hb with hb | hb
      · exact h b hb hmem
      · obtain rfl := List.mem_singleton.mp hb
        simpa using hno hmem
    | some entry =>
      rw [hhead] at h hno
      obtain ⟨⟨c, hc, hc'⟩, hle⟩ := h
      refine ⟨⟨c, List.mem_append_left _ hc, hc'⟩, fun b hb hmem horigin => ?_⟩
      rcases List.mem_append.mp hb with hb | hb
      · exact hle b hb hmem horigin
      · obtain rfl := List.mem_singleton.mp hb
        rcases hno hmem with hne | ⟨entry', hentry, hseq⟩
        · exact absurd horigin hne
        · rwa [Option.some.inj hentry]
  have htake : a.hash C ∈ set → (∀ entry, heads[a.candidate.operation.origin]? = some entry →
      entry.1 < a.candidate.operation.seq) → IsHead C (l ++ [a]) set origin
        (heads.insert a.candidate.operation.origin (a.candidate.operation.seq, a.hash C))[origin]? := by
    intro hmem hhigh
    rw [Std.ExtTreeMap.getElem?_insert]
    by_cases horigin : a.candidate.operation.origin = origin
    · subst horigin
      rw [if_pos (Std.LawfulEqOrd.compare_eq_iff_eq.mpr rfl)]
      refine ⟨⟨a, by simp, hmem, rfl, rfl, rfl⟩, fun b hb hbmem hb' => ?_⟩
      rcases List.mem_append.mp hb with hb | hb
      · cases hhead : heads[a.candidate.operation.origin]? with
        | none =>
          rw [hhead] at h
          exact absurd hb' (h b hb hbmem)
        | some entry =>
          rw [hhead] at h
          exact (h.2 b hb hbmem hb').trans (hhigh entry hhead).le
      · rw [List.mem_singleton.mp hb]
    · rw [if_neg (by rwa [Std.LawfulEqOrd.compare_eq_iff_eq])]
      exact hskip fun _ => .inl horigin
  rw [headVisit]
  change IsHead C (l ++ [a]) set origin (if a.hash C ∈ set then _ else _ : Std.ExtTreeMap String (ℤ × Digest))[origin]?
  by_cases hmem : a.hash C ∈ set
  · rw [if_pos hmem]
    cases hhead : heads[a.candidate.operation.origin]? with
    | none => exact htake hmem (by simp [hhead])
    | some entry =>
      dsimp only
      split_ifs with hlt
      · exact htake hmem fun entry' hentry => by rwa [← Option.some.inj (hhead.symm.trans hentry)]
      · refine hskip fun _ => ?_
        by_cases horigin : a.candidate.operation.origin = origin
        · subst horigin
          exact .inr ⟨entry, hhead, not_lt.mp hlt⟩
        · exact .inl horigin
  · rw [if_neg hmem]
    exact hskip fun h => absurd h hmem

theorem isHead_foldl (l : List Accepted) (set : Std.ExtTreeSet Digest) (origin : String) :
    IsHead C l set origin (l.foldl (headVisit C set) ∅)[origin]? := by
  induction l using List.reverseRecOn with
  | nil => simp [IsHead]
  | append_singleton l a ih =>
    rw [List.foldl_concat]
    exact ih.visit a

/-! ### Reads -/

theorem eligible_congr (haccepted : v'.accepted = v.accepted) (hq : v'.quarantine = v.quarantine) :
    eligible C v' = eligible C v := by
  have hvisit : eligibleVisit C v' = eligibleVisit C v := by
    funext set a
    have hquarantined : Quarantined v' a.candidate.operation ↔ Quarantined v a.candidate.operation := by
      rw [Quarantined, Quarantined, hq]
    refine if_congr hquarantined rfl (if_congr ?_ rfl rfl)
    rw [haccepted]
  have h : ∀ fuel set, eligibleFrom C v' fuel set = eligibleFrom C v fuel set := by
    intro fuel
    induction fuel with
    | zero => exact fun set => rfl
    | succ fuel ih =>
      intro set
      rw [eligibleFrom, eligibleFrom, hvisit, haccepted]
      split_ifs
      · rfl
      · exact ih _
  rw [eligible, eligible, haccepted]
  exact h _ _

theorem IsFloor.unique {seqs : Set ℤ} {floor floor' : Option ℤ} (h : IsFloor seqs floor) (h' : IsFloor seqs floor') :
    floor = floor' := by
  cases floor with
  | none =>
    obtain rfl : seqs = ∅ := h
    cases floor' with
    | none => rfl
    | some n => exact absurd h'.1 (Set.notMem_empty n)
  | some n =>
    cases floor' with
    | none =>
      obtain rfl : seqs = ∅ := h'
      exact absurd h.1 (Set.notMem_empty n)
    | some m => exact congrArg some (IsLeast.unique h h')

/-- The floors are not moved by convicting again. -/
theorem History.refresh_quarantine (hist : History C i v) : (refresh C v).quarantine = v.quarantine := by
  refine Std.ExtTreeMap.ext_getElem? fun origin => ?_
  have hfloor := foldl_convict_floor v.qualifiedForks v.quarantine origin _
    (fun f hf => ⟨(hist.pairs f hf).same, (hist.pairs f hf).differ⟩) (hist.floors origin)
  rw [Set.union_self] at hfloor
  exact hfloor.unique (hist.floors origin)

variable (C) in
/-- What the projection of an instance answers to a read. -/
structure Projects (v : InstanceState) (r : ReadCut) : Prop where
  heads : r.contiguousCommonHeads = v.accepted.foldl (headVisit C (eligible C v)) ∅
  qualified : r.historicallyQualified = (Std.ExtTreeSet.ofList (v.accepted.map fun a => a.hash C)).toList
  forks : r.forkSlots = (Std.ExtTreeSet.ofList (v.qualifiedForks.map fun f => slot f.first)).toList
  eligible : r.eligible = (Kernel.eligible C v).toList
  quarantine : r.quarantine = v.quarantine

theorem History.cut (hist : History C i v) {s : State} (hv : s.instances[i]? = some v) :
    ∃ r, Kernel.cut C s i = some r ∧ Projects C v r := by
  have hq := hist.refresh_quarantine
  refine ⟨_, by rw [Kernel.cut, hv]; rfl, ?_, rfl, rfl, ?_, hq⟩
  · change v.accepted.foldl (headVisit C (Kernel.eligible C { v with quarantine := (refresh C v).quarantine })) ∅ = _
    rw [hq]
  · change (Kernel.eligible C (refresh C v)).toList = _
    exact congrArg _ (eligible_congr rfl hq)

theorem Projects.mem_eligible {r : ReadCut} (h : Projects C v r) {d : Digest} : d ∈ r.eligible ↔ d ∈ Kernel.eligible C v := by
  rw [h.eligible, Std.ExtTreeSet.mem_toList]

/-! ### Chains -/

theorem digestOf_bind_eq_some {prev : Option Bytes} {d : Digest} : prev.bind digestOf = some d ↔ prev = some d.val := by
  rw [Option.bind_eq_some_iff]
  constructor
  · rintro ⟨b, rfl, hb⟩
    rw [digestOf] at hb
    split_ifs at hb
    rw [← Option.some.inj hb]
  · rintro rfl
    exact ⟨d.val, rfl, by rw [digestOf, dif_pos d.property]⟩

/-- The operation below an eligible one is eligible, and is the one it names. -/
theorem eligible_below (hist : History C i v) (hnc : NoCollision C v) {a : Accepted} (ha : a ∈ v.accepted)
    (h : a.hash C ∈ eligible C v) (hseq : 0 < a.candidate.operation.seq) :
    ∃ b ∈ v.accepted, b.hash C ∈ eligible C v ∧ b.candidate.operation.origin = a.candidate.operation.origin ∧
      b.candidate.operation.seq = a.candidate.operation.seq - 1 ∧ a.candidate.operation.prev = some (b.hash C).val := by
  have hclean := clean_of_mem_eligible hist hnc ha h
  obtain ⟨d, hprev⟩ : ∃ d, a.candidate.operation.prev.bind digestOf = some d := by
    obtain ⟨-, -, -, -, -, -, -, -, -, -, hform, -⟩ := hist.formed a ha
    rcases hform with ⟨hzero, -⟩ | ⟨-, hlen⟩
    · omega
    · obtain ⟨p, hp, hlen⟩ := (Option.any_eq_true ..).mp hlen
      exact ⟨⟨p, by simpa using hlen⟩, digestOf_bind_eq_some.mpr hp⟩
  have hdep : (Slot.mk a.candidate.inst a.candidate.operation.origin (a.candidate.operation.seq - 1),
      a.candidate.operation.prev.bind digestOf) ∈ dependencies a.candidate := by
    rw [dependencies, if_pos hseq]
    exact List.mem_append_left _ (List.mem_singleton.mpr rfl)
  obtain ⟨k, hk⟩ := List.mem_iff_getElem?.mp ha
  obtain ⟨j, -, b, hb, hsat⟩ := hist.closed k a hk _ hdep
  have hbmem := List.mem_of_getElem? hb
  obtain ⟨-, horigin, hbseq⟩ := Slot.mk.inj hsat.1
  refine ⟨b, hbmem, ?_, horigin, hbseq, ?_⟩
  · exact (mem_eligible_iff hist hnc hbmem).mpr (hclean.names ⟨hbmem, _, hdep, hsat⟩)
  · rw [digestOf_bind_eq_some.mp hprev, Accepted.hash, hsat.2 d hprev]

/-- Under an eligible operation its origin has an eligible one at every seq. -/
theorem eligible_chain (hist : History C i v) (hnc : NoCollision C v) (n : ℕ) : ∀ a ∈ v.accepted, a.hash C ∈ eligible C v →
    ∀ m : ℤ, 0 ≤ m → a.candidate.operation.seq = m + n →
    ∃ b ∈ v.accepted, b.hash C ∈ eligible C v ∧ b.candidate.operation.origin = a.candidate.operation.origin ∧
      b.candidate.operation.seq = m := by
  induction n with
  | zero => exact fun a ha h m hm hseq => ⟨a, ha, h, rfl, by simpa using hseq⟩
  | succ n ih =>
    intro a ha h m hm hseq
    obtain ⟨b, hb, hbelig, horigin, hbseq, -⟩ := eligible_below hist hnc ha h (by omega)
    obtain ⟨c, hc, hcelig, hcorigin, hcseq⟩ := ih b hb hbelig m hm (by omega)
    exact ⟨c, hc, hcelig, hcorigin.trans horigin, hcseq⟩

variable (C) in
/-- The eligible operations of an origin at a seq. -/
def EligibleAt (v : InstanceState) (r : ReadCut) (origin : String) (seq : ℤ) (o : Op) : Prop :=
  (∃ a ∈ v.accepted, a.candidate.operation = o) ∧ opHash C o ∈ r.eligible ∧ o.origin = origin ∧ o.seq = seq

end Glade.Kernel
