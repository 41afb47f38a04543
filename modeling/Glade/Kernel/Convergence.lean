import Glade.Kernel.Eligible
import Glade.Kernel.Room

/-! What a read of an instance answers is a function of the set of its accepted
operations, and the heads it answers are the tops of whole chains. -/

namespace Glade.Kernel

open Wire Node OrdMap

variable {C : Crypto} {s s' : State} {v v' : InstanceState} {i : Instance}

/-! ### Causal closure -/

variable (C) in
/-- A head stands on a whole chain of eligible operations. -/
structure Chained (v : InstanceState) (r : ReadCut) (origin : String) (n : ℤ) (d : Digest) : Prop where
  start : 0 ≤ n
  each : ∀ m, 0 ≤ m → m ≤ n → ∃! o, EligibleAt C v r origin m o
  linked : ∀ m o o', EligibleAt C v r origin m o → EligibleAt C v r origin (m + 1) o' → o'.prev = some (opHash C o).val
  top : ∃ o, EligibleAt C v r origin n o ∧ opHash C o = d
  above : ∀ m o, EligibleAt C v r origin m o → m ≤ n

theorem eligibleAt_unique (hist : History C i v) (hnc : NoCollision C v) {r : ReadCut} (hr : Projects C v r)
    {origin : String} {m : ℤ} {o o' : Op} (h : EligibleAt C v r origin m o) (h' : EligibleAt C v r origin m o') : o = o' := by
  obtain ⟨⟨a, ha, rfl⟩, -, horigin, hseq⟩ := h
  obtain ⟨⟨b, hb, rfl⟩, helig, horigin', hseq'⟩ := h'
  have hslot : slot a.candidate = slot b.candidate := by
    rw [slot, slot, hist.inst a ha, hist.inst b hb, horigin, horigin', hseq, hseq']
  rw [eligible_slot_unique hist hnc ha hb hslot (hr.mem_eligible.mp helig)]

theorem chained_of_head (hist : History C i v) (hnc : NoCollision C v) {r : ReadCut} (hr : Projects C v r)
    {origin : String} {n : ℤ} {d : Digest} (h : r.contiguousCommonHeads[origin]? = some (n, d)) :
    Chained C v r origin n d := by
  have hhead := isHead_foldl (C := C) v.accepted (eligible C v) origin
  rw [← hr.heads, h] at hhead
  obtain ⟨⟨a, ha, helig, rfl, rfl, rfl⟩, hmax⟩ := hhead
  have htop : EligibleAt C v r a.candidate.operation.origin a.candidate.operation.seq a.candidate.operation :=
    ⟨⟨a, ha, rfl⟩, hr.mem_eligible.mpr helig, rfl, rfl⟩
  obtain ⟨-, -, -, -, -, -, -, ⟨hstart, -⟩, -⟩ := hist.formed a ha
  refine ⟨hstart, fun m hm hle => ?_, fun m o o' ho ho' => ?_, ⟨_, htop, rfl⟩, fun m o ho => ?_⟩
  · obtain ⟨b, hb, hbelig, horigin, hseq⟩ := eligible_chain hist hnc (a.candidate.operation.seq - m).toNat a ha helig m hm
      (by omega)
    refine ⟨b.candidate.operation, ⟨⟨b, hb, rfl⟩, hr.mem_eligible.mpr hbelig, horigin, hseq⟩, fun o ho => ?_⟩
    exact eligibleAt_unique hist hnc hr ho ⟨⟨b, hb, rfl⟩, hr.mem_eligible.mpr hbelig, horigin, hseq⟩
  · obtain ⟨⟨b, hb, rfl⟩, hbelig, hborigin, hbseq⟩ := ho'
    have hbelow : 0 ≤ m := by
      obtain ⟨⟨c, hc, rfl⟩, -, -, rfl⟩ := ho
      obtain ⟨-, -, -, -, -, -, -, ⟨hpos, -⟩, -⟩ := hist.formed c hc
      exact hpos
    obtain ⟨c, hc, hcelig, hcorigin, hcseq, hprev⟩ :=
      eligible_below hist hnc hb (hr.mem_eligible.mp hbelig) (by omega)
    have hat : EligibleAt C v r a.candidate.operation.origin m c.candidate.operation :=
      ⟨⟨c, hc, rfl⟩, hr.mem_eligible.mpr hcelig, hcorigin.trans hborigin, by omega⟩
    rw [hprev, eligibleAt_unique hist hnc hr ho hat]
    rfl
  · obtain ⟨⟨b, hb, rfl⟩, hbelig, horigin, rfl⟩ := ho
    exact hmax b hb (hr.mem_eligible.mp hbelig) horigin

/-- In every reachable state what an accepted operation depends on is accepted before
it, and unless two of the accepted operations have one digest, a slot has at most one
eligible operation and every head stands on a whole chain of them. -/
theorem causally_closed (h : Reachable C s) (hv : s.instances[i]? = some v) : ∃ r, cut C s i = some r ∧
    (∀ (k : ℕ) (a : Accepted), v.accepted[k]? = some a → ∀ dep ∈ dependencies a.candidate,
      ∃ j < k, ∃ b, v.accepted[j]? = some b ∧ Satisfies C dep b) ∧
    (NoCollision C v →
      (∀ a ∈ v.accepted, ∀ b ∈ v.accepted, slot a.candidate = slot b.candidate → a.hash C ∈ r.eligible →
        b.hash C ∈ r.eligible → a.candidate.operation = b.candidate.operation) ∧
      ∀ origin n d, r.contiguousCommonHeads[origin]? = some (n, d) → Chained C v r origin n d) := by
  have hist := h.histories.history i v hv
  obtain ⟨r, hcut, hr⟩ := hist.cut hv
  refine ⟨r, hcut, hist.closed, fun hnc => ⟨fun a ha b hb hslot _ helig => ?_, fun origin n d => chained_of_head hist hnc hr⟩⟩
  rw [eligible_slot_unique hist hnc ha hb hslot (hr.mem_eligible.mp helig)]

theorem causally_closed_desk : (∀ C, Fresh (desk C)) ∧ ∀ C : Crypto, ∃ events v r,
    (run C (desk C) events).instances[(draft C).inst]? = some v ∧ v.accepted ≠ [] ∧
      cut C (run C (desk C) events) (draft C).inst = some r ∧
      ∀ origin n d, r.contiguousCommonHeads[origin]? = some (n, d) → Chained C v r origin n d := by
  refine ⟨fresh_desk, fun C => ?_⟩
  obtain ⟨events, v, a, hv, haccepted, -⟩ := first_accepted C
  have hnc : NoCollision C v := by simp [NoCollision, haccepted]
  obtain ⟨r, hcut, -, hclosed⟩ := causally_closed ⟨desk C, events, fresh_desk C, rfl⟩ hv
  exact ⟨events, v, r, hv, by simp [haccepted], hcut, (hclosed hnc).2⟩

/-! ### Convergence -/

/-- Two states of an instance that accepted the same operations. -/
def SameOps (v v' : InstanceState) : Prop := ∀ o : Op,
  (∃ a ∈ v.accepted, a.candidate.operation = o) ↔ ∃ a ∈ v'.accepted, a.candidate.operation = o

/-- The seqs at which two different accepted operations of an origin share a slot. -/
def sharedSeqs (v : InstanceState) (origin : String) : Set ℤ :=
  { n | ∃ a ∈ v.accepted, ∃ b ∈ v.accepted, slot a.candidate = slot b.candidate ∧
    a.candidate.operation ≠ b.candidate.operation ∧ a.candidate.operation.origin = origin ∧
    a.candidate.operation.seq = n }

theorem SameOps.symm (h : SameOps v v') : SameOps v' v := fun o => (h o).symm

/-- The entry of the other state for the operation of one. -/
theorem SameOps.entry (h : SameOps v v') (hist : History C i v) (hist' : History C i v') {a : Accepted}
    (ha : a ∈ v.accepted) : ∃ a' ∈ v'.accepted, a'.candidate.operation = a.candidate.operation ∧
      a'.candidate.inst = a.candidate.inst := by
  obtain ⟨a', ha', hop⟩ := (h a.candidate.operation).mp ⟨a, ha, rfl⟩
  exact ⟨a', ha', hop, by rw [hist'.inst a' ha', hist.inst a ha]⟩

theorem slot_congr {c c' : Candidate} (hinst : c'.inst = c.inst) (hop : c'.operation = c.operation) : slot c' = slot c := by
  rw [slot, slot, hinst, hop]

theorem dependencies_congr {c c' : Candidate} (hinst : c'.inst = c.inst) (hop : c'.operation = c.operation) :
    dependencies c' = dependencies c := by
  rw [dependencies, dependencies, hinst, hop]

theorem sharedSeqs_subset (h : SameOps v v') (hist : History C i v) (hist' : History C i v') (origin : String) :
    sharedSeqs v origin ⊆ sharedSeqs v' origin := by
  rintro n ⟨a, ha, b, hb, hslot, hne, rfl, rfl⟩
  obtain ⟨a', ha', haop, hainst⟩ := h.entry hist hist' ha
  obtain ⟨b', hb', hbop, hbinst⟩ := h.entry hist hist' hb
  refine ⟨a', ha', b', hb', ?_, by rwa [haop, hbop], by rw [haop], by rw [haop]⟩
  rw [slot_congr hainst haop, slot_congr hbinst hbop, hslot]

theorem convictedSeqs_eq_sharedSeqs (hist : History C i v) (origin : String) :
    convictedSeqs v.qualifiedForks origin = sharedSeqs v origin := by
  ext n
  constructor
  · rintro ⟨f, hf, rfl, rfl⟩
    obtain ⟨hsame, hdiffer, ⟨a, ha, haslot, haop⟩, ⟨b, hb, hbslot, hbop⟩⟩ := hist.pairs f hf
    exact ⟨a, ha, b, hb, by rw [haslot, hbslot, hsame], by rwa [haop, hbop], by rw [haop], by rw [haop]⟩
  · rintro ⟨a, ha, b, hb, hslot, hne, rfl, rfl⟩
    obtain ⟨f, hf, hfirst⟩ := hist.convicted a ha b hb hslot hne
    obtain ⟨-, horigin, hseq⟩ := Slot.mk.inj hfirst
    exact ⟨f, hf, horigin, hseq⟩

theorem quarantine_agree (h : SameOps v v') (hist : History C i v) (hist' : History C i v') :
    v'.quarantine = v.quarantine := by
  refine Std.ExtTreeMap.ext_getElem? fun origin => ?_
  have hshared : sharedSeqs v' origin = sharedSeqs v origin :=
    Set.Subset.antisymm (sharedSeqs_subset h.symm hist' hist origin) (sharedSeqs_subset h hist hist' origin)
  have hfloor := hist.floors origin
  have hfloor' := hist'.floors origin
  rw [convictedSeqs_eq_sharedSeqs hist] at hfloor
  rw [convictedSeqs_eq_sharedSeqs hist', hshared] at hfloor'
  exact hfloor'.unique hfloor

/-- The causal pasts of one operation in the two states are the same. -/
theorem Clean.agree (h : SameOps v v') (hist : History C i v) (hist' : History C i v') {a a' : Accepted}
    (hop : a'.candidate.operation = a.candidate.operation) (hinst : a'.candidate.inst = a.candidate.inst)
    (hclean : Clean C v a) : Clean C v' a' := by
  have hpast : ∀ b', Relation.ReflTransGen (Names C v') a' b' → ∃ b, Relation.ReflTransGen (Names C v) a b ∧
      b'.candidate.operation = b.candidate.operation ∧ b'.candidate.inst = b.candidate.inst := by
    intro b' hb'
    induction hb' with
    | refl => exact ⟨a, .refl, hop, hinst⟩
    | @tail b' c' hab hbc ih =>
      obtain ⟨b, hab, hbop, hbinst⟩ := ih
      obtain ⟨hc', dep, hdep, hsat⟩ := hbc
      obtain ⟨c, hc, hcop, hcinst⟩ := h.symm.entry hist' hist hc'
      refine ⟨c, hab.tail ⟨hc, dep, ?_, ?_, ?_⟩, hcop.symm, hcinst.symm⟩
      · rwa [← dependencies_congr hbinst hbop]
      · rw [slot_congr hcinst hcop, hsat.1]
      · rw [hcop]
        exact hsat.2
  intro b' hb'
  obtain ⟨b, hb, hbop, -⟩ := hpast b' hb'
  rw [Quarantined, quarantine_agree h hist hist', hbop]
  exact hclean b hb

theorem NoCollision.agree (h : SameOps v v') (hist : History C i v) (hist' : History C i v') (hnc : NoCollision C v) :
    NoCollision C v' := by
  intro a' ha' b' hb' hhash
  obtain ⟨a, ha, haop, -⟩ := h.symm.entry hist' hist ha'
  obtain ⟨b, hb, hbop, -⟩ := h.symm.entry hist' hist hb'
  rw [← haop, ← hbop]
  exact hnc a ha b hb (by rw [Accepted.hash, Accepted.hash, haop, hbop]; exact hhash)

theorem eligible_subset (h : SameOps v v') (hist : History C i v) (hist' : History C i v') (hnc : NoCollision C v) :
    ∀ d ∈ eligible C v, d ∈ eligible C v' := by
  intro d hd
  obtain ⟨a, ha, rfl⟩ := exists_of_mem_eligible hd
  obtain ⟨a', ha', hop, hinst⟩ := h.entry hist hist' ha
  have hclean := (clean_of_mem_eligible hist hnc ha hd).agree h hist hist' hop hinst
  rw [Accepted.hash, ← hop]
  exact (mem_eligible_iff hist' (hnc.agree h hist hist') ha').mpr hclean

theorem eligible_agree (h : SameOps v v') (hist : History C i v) (hist' : History C i v') (hnc : NoCollision C v) :
    eligible C v' = eligible C v :=
  Std.ExtTreeSet.ext_mem fun d =>
    ⟨eligible_subset h.symm hist' hist (hnc.agree h hist hist') d, eligible_subset h hist hist' hnc d⟩

/-- A head is read off the operations alone. -/
theorem IsHead.agree (h : SameOps v v') {set : Std.ExtTreeSet Digest} {origin : String} {head : Option (ℤ × Digest)}
    (hh : IsHead C v.accepted set origin head) : IsHead C v'.accepted set origin head := by
  have hback : ∀ a' ∈ v'.accepted, ∃ a ∈ v.accepted, a.candidate.operation = a'.candidate.operation :=
    fun a' ha' => (h a'.candidate.operation).mpr ⟨a', ha', rfl⟩
  cases head with
  | none =>
    intro a' ha' hmem
    obtain ⟨a, ha, hop⟩ := hback a' ha'
    rw [Accepted.hash, ← hop] at hmem
    rw [← hop]
    exact hh a ha hmem
  | some head =>
    obtain ⟨⟨a, ha, hmem, horigin, hseq, hhash⟩, hmax⟩ := hh
    obtain ⟨a', ha', hop⟩ := (h a.candidate.operation).mp ⟨a, ha, rfl⟩
    refine ⟨⟨a', ha', ?_⟩, fun b' hb' hmem' => ?_⟩
    · rw [Accepted.hash, hop]
      exact ⟨hmem, horigin, hseq, hhash⟩
    · obtain ⟨b, hb, hbop⟩ := hback b' hb'
      rw [Accepted.hash, ← hbop] at hmem'
      rw [← hbop]
      exact hmax b hb hmem'

/-- An origin has one head: its highest eligible operation is alone at its slot. -/
theorem IsHead.unique (hist : History C i v) (hnc : NoCollision C v) {origin : String} {head head' : Option (ℤ × Digest)}
    (h : IsHead C v.accepted (eligible C v) origin head) (h' : IsHead C v.accepted (eligible C v) origin head') :
    head' = head := by
  cases head with
  | none =>
    cases head' with
    | none => rfl
    | some head' =>
      obtain ⟨⟨a, ha, hmem, horigin, -⟩, -⟩ := h'
      exact absurd horigin (h a ha hmem)
  | some head =>
    obtain ⟨⟨a, ha, hmem, horigin, hseq, hhash⟩, hmax⟩ := h
    cases head' with
    | none => exact absurd horigin (h' a ha hmem)
    | some head' =>
      obtain ⟨⟨b, hb, hbmem, hborigin, hbseq, hbhash⟩, hmax'⟩ := h'
      have hle := hmax b hb hbmem hborigin
      have hle' := hmax' a ha hmem horigin
      have hslot : slot b.candidate = slot a.candidate := by
        rw [slot, slot, hist.inst a ha, hist.inst b hb, horigin, hborigin]
        congr 1
        omega
      obtain rfl := eligible_slot_unique hist hnc hb ha hslot hmem
      exact congrArg some (Prod.ext (hbseq.symm.trans hseq) (hbhash.symm.trans hhash))

theorem forkSlots_subset (h : SameOps v v') (hist : History C i v) (hist' : History C i v') :
    ∀ f ∈ v.qualifiedForks, ∃ f' ∈ v'.qualifiedForks, slot f'.first = slot f.first := by
  intro f hf
  obtain ⟨hsame, hdiffer, ⟨a, ha, haslot, haop⟩, ⟨b, hb, hbslot, hbop⟩⟩ := hist.pairs f hf
  obtain ⟨a', ha', haop', hainst⟩ := h.entry hist hist' ha
  obtain ⟨b', hb', hbop', hbinst⟩ := h.entry hist hist' hb
  obtain ⟨f', hf', hfirst⟩ := hist'.convicted a' ha' b' hb'
    (by rw [slot_congr hainst haop', slot_congr hbinst hbop', haslot, hbslot, hsame])
    (by rwa [haop', hbop', haop, hbop])
  exact ⟨f', hf', by rw [hfirst, slot_congr hainst haop', haslot]⟩

/-- Two runs after which an instance has accepted the same operations answer a read
alike, however each came to accept them: the floor of an origin is the least seq at
which two of its accepted operations share a slot, and eligible are the operations
whose causal past lies below the floors. -/
theorem cuts_agree (h : Reachable C s) (h' : Reachable C s') (hv : s.instances[i]? = some v)
    (hv' : s'.instances[i]? = some v') (hops : SameOps v v') (hnc : NoCollision C v) :
    ∃ r r', cut C s i = some r ∧ cut C s' i = some r' ∧
      r'.contiguousCommonHeads = r.contiguousCommonHeads ∧ r'.historicallyQualified = r.historicallyQualified ∧
      r'.forkSlots = r.forkSlots ∧ r'.eligible = r.eligible ∧ r'.quarantine = r.quarantine ∧
      (∀ origin : String, IsFloor (sharedSeqs v origin) r.quarantine[origin]?) ∧
      ∀ d, d ∈ r.eligible ↔ ∃ a ∈ v.accepted, a.hash C = d ∧ Clean C v a := by
  have hist := h.histories.history i v hv
  have hist' := h'.histories.history i v' hv'
  obtain ⟨r, hcut, hr⟩ := hist.cut hv
  obtain ⟨r', hcut', hr'⟩ := hist'.cut hv'
  have helig := eligible_agree hops hist hist' hnc
  refine ⟨r, r', hcut, hcut', ?heads, ?qualified, ?forks, ?eligible, ?quarantine, fun origin => ?floors,
    fun d => ?clean⟩
  case heads =>
    rw [hr.heads, hr'.heads, helig]
    refine Std.ExtTreeMap.ext_getElem? fun origin => ?_
    exact (isHead_foldl ..).unique hist hnc ((isHead_foldl ..).agree hops.symm)
  case qualified =>
    rw [hr.qualified, hr'.qualified]
    refine congrArg _ (Std.ExtTreeSet.ext_mem fun d => ?_)
    simp only [Std.ExtTreeSet.mem_ofList, List.contains_iff_mem, List.mem_map]
    constructor
    · rintro ⟨a', ha', rfl⟩
      obtain ⟨a, ha, hop⟩ := (hops a'.candidate.operation).mpr ⟨a', ha', rfl⟩
      exact ⟨a, ha, by rw [Accepted.hash, hop]; rfl⟩
    · rintro ⟨a, ha, rfl⟩
      obtain ⟨a', ha', hop⟩ := (hops a.candidate.operation).mp ⟨a, ha, rfl⟩
      exact ⟨a', ha', by rw [Accepted.hash, hop]; rfl⟩
  case forks =>
    rw [hr.forks, hr'.forks]
    refine congrArg _ (Std.ExtTreeSet.ext_mem fun d => ?_)
    simp only [Std.ExtTreeSet.mem_ofList, List.contains_iff_mem, List.mem_map]
    constructor
    · rintro ⟨f', hf', rfl⟩
      exact forkSlots_subset hops.symm hist' hist f' hf'
    · rintro ⟨f, hf, rfl⟩
      exact forkSlots_subset hops hist hist' f hf
  case eligible =>
    rw [hr.eligible, hr'.eligible, helig]
  case quarantine =>
    rw [hr.quarantine, hr'.quarantine, quarantine_agree hops hist hist']
  case floors =>
    rw [hr.quarantine, ← convictedSeqs_eq_sharedSeqs hist]
    exact hist.floors origin
  case clean =>
    rw [hr.mem_eligible]
    constructor
    · intro hd
      obtain ⟨a, ha, rfl⟩ := exists_of_mem_eligible hd
      exact ⟨a, ha, rfl, clean_of_mem_eligible hist hnc ha hd⟩
    · rintro ⟨a, ha, rfl, hclean⟩
      exact (mem_eligible_iff hist hnc ha).mpr hclean

/-- The first operation, taken from a replica in one run and written in another. -/
theorem cuts_agree_desk : (∀ C, Fresh (desk C)) ∧ ∀ C : Crypto, ∃ events events' v v' r r',
    (run C (desk C) events).instances[(draft C).inst]? = some v ∧ (run C (desk C) events').instances[(draft C).inst]? = some v' ∧
      v.accepted ≠ [] ∧ v'.accepted ≠ v.accepted ∧ cut C (run C (desk C) events) (draft C).inst = some r ∧
      cut C (run C (desk C) events') (draft C).inst = some r' ∧ r'.contiguousCommonHeads = r.contiguousCommonHeads ∧
      r'.eligible = r.eligible ∧ ∀ d, d ∈ r.eligible ↔ ∃ a ∈ v.accepted, a.hash C = d ∧ Clean C v a := by
  refine ⟨fresh_desk, fun C => ?_⟩
  obtain ⟨batch, charges, q, s, -, hfirst⟩ := first_admitted C
  obtain ⟨batch', charges', q', s', hsealed⟩ := first_sealed C
  have hv := hfirst.run_first ▸ hfirst.room.known
  have hv' := hsealed.run_sealed ▸ hsealed.room.known
  have haccepted := accepted_first (C := C) (p := firstPlan C batch charges) rfl ((blank C).revision + 1)
  have haccepted' := accepted_first (C := C) (p := sealedPlan C (blank C) 2 batch' charges') rfl ((blank C).revision + 1)
  have hnc : NoCollision C (installed C (blank C) (firstPlan C batch charges)
    ((blank C).revision + 1)) := by simp [NoCollision, haccepted]
  have hops : SameOps (installed C (blank C) (firstPlan C batch charges) ((blank C).revision + 1))
      (installed C (blank C) (sealedPlan C (blank C) 2 batch' charges') ((blank C).revision + 1)) := by
    intro o
    rw [haccepted, haccepted']
    simp [StagedAcceptance.entry, stagedAcceptance]
  obtain ⟨r, r', hcut, hcut', hheads, -, -, helig, -, -, hclean⟩ := cuts_agree ⟨desk C, _, fresh_desk C, rfl⟩
    ⟨desk C, _, fresh_desk C, rfl⟩ hv hv' hops hnc
  refine ⟨_, _, _, _, r, r', hv, hv', by simp [haccepted], ?_, hcut, hcut', hheads, helig, hclean⟩
  rw [haccepted, haccepted']
  intro hsame
  have hadmission := congrArg (fun a : Accepted => a.candidate.evidence.admission) (List.cons.inj hsame).1
  cases hadmission

end Glade.Kernel
