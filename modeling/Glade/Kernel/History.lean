import Glade.Kernel.Ledger

/-! The history of an instance: what every run keeps true of its accepted
operations, its convictions and its floors. -/

namespace Glade.Kernel

open Wire Node OrdMap

variable (C : Crypto)

/-- Two accepted operations at one slot. -/
structure Paired (v : InstanceState) (f : ForkEvidence) : Prop where
  same : slot f.first = slot f.second
  differ : f.first.operation ≠ f.second.operation
  first : ∃ a ∈ v.accepted, slot a.candidate = slot f.first ∧ a.candidate.operation = f.first.operation
  second : ∃ a ∈ v.accepted, slot a.candidate = slot f.second ∧ a.candidate.operation = f.second.operation

/-- The seqs at which an origin is convicted. -/
def convictedSeqs (forks : List ForkEvidence) (origin : String) : Set ℤ :=
  { n | ∃ f ∈ forks, f.first.operation.origin = origin ∧ f.first.operation.seq = n }

/-- The least of some seqs, where there are any. -/
def IsFloor (seqs : Set ℤ) : Option ℤ → Prop
  | none => seqs = ∅
  | some n => IsLeast seqs n

/-- The history of an instance: every accepted operation comes after what it depends
on, every two of one slot are convicted, and every origin's floor is its least
conviction. -/
structure History (i : Instance) (v : InstanceState) : Prop where
  inst : ∀ a ∈ v.accepted, a.candidate.inst = i
  formed : ∀ a ∈ v.accepted, WellFormed C v.descriptor a.candidate
  distinct : (v.accepted.map fun a => a.candidate.operation).Nodup
  closed : ∀ (k : ℕ) (a : Accepted), v.accepted[k]? = some a → ∀ dep ∈ dependencies a.candidate,
    ∃ j < k, ∃ b, v.accepted[j]? = some b ∧ Satisfies C dep b
  pairs : ∀ f ∈ v.qualifiedForks, Paired v f
  convicted : ∀ a ∈ v.accepted, ∀ b ∈ v.accepted, slot a.candidate = slot b.candidate →
    a.candidate.operation ≠ b.candidate.operation → ∃ f ∈ v.qualifiedForks, slot f.first = slot a.candidate
  floors : ∀ origin : String, IsFloor (convictedSeqs v.qualifiedForks origin) v.quarantine[origin]?

/-- Whether each dependency of a candidate is accepted. -/
def Met (v : InstanceState) (c : Candidate) : Prop := ∀ dep ∈ dependencies c, ∃ b ∈ v.accepted, Satisfies C dep b

/-- What a plan in flight has for the instance it is installed in: an operation all
of whose dependencies are accepted, with the rivals it has, or pairs to convict. -/
inductive Planned (v : InstanceState) (p : CommitPlan) : Prop where
  | accepts (a : StagedAcceptance) (c : Candidate) (haccept : p.acceptances = [a]) (hinst : a.candidate.inst = p.inst)
      (hslot : slot c = slot a.candidate) (hop : c.operation = a.candidate.operation)
      (hform : WellFormed C v.descriptor a.candidate) (hmet : Met C v a.candidate) (hforks : p.qualifiedForks = rivals v c)
  | convicts (haccept : p.acceptances = []) (hforks : ∀ f ∈ p.qualifiedForks, Paired v f)

variable {C} {v v' : InstanceState} {p : CommitPlan} {i : Instance}

theorem missing_eq_nil {c : Candidate} : missing C v c = [] ↔ Met C v c := by
  rw [missing, Std.ExtTreeSet.toList_eq_nil_iff, Std.ExtTreeSet.ofList_eq_empty_iff, List.map_eq_nil_iff,
    List.filter_eq_nil_iff]
  simp [Met]

/-! ### Floors -/

theorem IsFloor.insert {seqs : Set ℤ} {floor : Option ℤ} (h : IsFloor seqs floor) (n : ℤ) :
    IsFloor (insert n seqs) (some ((floor.map (fun floor => min floor n)).getD n)) := by
  cases floor with
  | none =>
    obtain rfl : seqs = ∅ := h
    rw [insert_empty_eq]
    exact isLeast_singleton
  | some floor =>
    rw [Option.map_some, Option.getD_some, min_comm]
    exact IsLeast.insert n h

/-- Convictions move the floors to the least of what was convicted before and of
what is now. -/
theorem foldl_convict_floor (forks : List ForkEvidence) (q : Std.ExtTreeMap String ℤ) (origin : String) (held : Set ℤ)
    (hforks : ∀ f ∈ forks, slot f.first = slot f.second ∧ f.first.operation ≠ f.second.operation)
    (hq : IsFloor held q[origin]?) : IsFloor (held ∪ convictedSeqs forks origin) (forks.foldl convict q)[origin]? := by
  induction forks generalizing q held with
  | nil => simpa [convictedSeqs] using hq
  | cons f forks ih =>
    have hconvict : convict q f = q.insert f.first.operation.origin
        ((q[f.first.operation.origin]?.map (fun floor => min floor f.first.operation.seq)).getD f.first.operation.seq) :=
      if_pos (hforks f (by simp))
    rw [List.foldl_cons, hconvict]
    by_cases ho : f.first.operation.origin = origin
    · have hset : held ∪ convictedSeqs (f :: forks) origin =
          insert f.first.operation.seq held ∪ convictedSeqs forks origin := by
        ext n
        simp only [convictedSeqs, List.mem_cons, exists_eq_or_imp, Set.mem_union, Set.mem_insert_iff, Set.mem_ofPred_eq, ho,
          true_and]
        constructor
        · rintro (h | rfl | h)
          · exact .inl (.inr h)
          · exact .inl (.inl rfl)
          · exact .inr h
        · rintro ((rfl | h) | h)
          · exact .inr (.inl rfl)
          · exact .inl h
          · exact .inr (.inr h)
      rw [hset]
      refine ih _ _ (fun g hg => hforks g (by simp [hg])) ?_
      rw [Std.ExtTreeMap.getElem?_insert, if_pos (Std.LawfulEqOrd.compare_eq_iff_eq.mpr ho), ho]
      exact hq.insert _
    · have hset : convictedSeqs (f :: forks) origin = convictedSeqs forks origin := by
        ext n
        simp [convictedSeqs, ho]
      rw [hset]
      refine ih _ _ (fun g hg => hforks g (by simp [hg])) ?_
      rwa [Std.ExtTreeMap.getElem?_insert, if_neg (by rwa [Std.LawfulEqOrd.compare_eq_iff_eq])]

/-! ### Installing -/

theorem Paired.mono {f : ForkEvidence} (h : Paired v f) (hsub : ∀ a ∈ v.accepted, a ∈ v'.accepted) : Paired v' f := by
  obtain ⟨hsame, hdiffer, ⟨a, ha, hfirst⟩, ⟨b, hb, hsecond⟩⟩ := h
  exact ⟨hsame, hdiffer, ⟨a, hsub a ha, hfirst⟩, ⟨b, hsub b hb, hsecond⟩⟩

theorem Met.mono {c : Candidate} (h : Met C v c) (hsub : ∀ a ∈ v.accepted, a ∈ v'.accepted) : Met C v' c := by
  intro dep hdep
  obtain ⟨b, hb, hsat⟩ := h dep hdep
  exact ⟨b, hsub b hb, hsat⟩

theorem Planned.congr (h : Planned C v p) (hs : SameCustody v v') : Planned C v' p := by
  cases h with
  | accepts a c haccept hinst hslot hop hform hmet hforks =>
    refine .accepts a c haccept hinst hslot hop (hs.descriptor ▸ hform) ?_ ?_
    · exact hmet.mono fun a ha => hs.accepted ▸ ha
    · rw [hforks, rivals, rivals, hs.accepted]
  | convicts haccept hforks => exact .convicts haccept fun f hf => (hforks f hf).mono fun a ha => hs.accepted ▸ ha

theorem History.congr (h : History C i v) (hs : SameCustody v v') : History C i v' := by
  obtain ⟨hinst, hformed, hdistinct, hclosed, hpairs, hconvicted, hfloors⟩ := h
  constructor
  · rwa [hs.accepted]
  · rwa [hs.accepted, hs.descriptor]
  · rwa [hs.accepted]
  · rwa [hs.accepted]
  · rw [hs.qualifiedForks]
    exact fun f hf => (hpairs f hf).mono fun a ha => hs.accepted ▸ ha
  · rwa [hs.accepted, hs.qualifiedForks]
  · rwa [hs.qualifiedForks, hs.quarantine]

/-- Accepted operations stay, each in its place. -/
theorem accepted_prefix_installed (h : Planned C v p) (revision : ℕ) :
    v.accepted <+: (installed C v p revision).accepted := by
  cases h with
  | accepts a c haccept hinst hslot hop hform hmet hforks =>
    rw [installed_accepted_of_single v p revision haccept]
    split_ifs
    · exact List.prefix_refl _
    · exact List.prefix_append _ _
  | convicts haccept hforks =>
    rw [installed_accepted_of_nil v p revision haccept]

theorem accepted_subset_installed (h : Planned C v p) (revision : ℕ) :
    ∀ a ∈ v.accepted, a ∈ (installed C v p revision).accepted := (accepted_prefix_installed h revision).subset

theorem mem_rivals {c : Candidate} {f : ForkEvidence} :
    f ∈ rivals v c ↔ ∃ a ∈ v.accepted, slot a.candidate = slot c ∧ a.candidate.operation ≠ c.operation ∧
      f = { first := a.candidate, second := c } := by
  simp only [rivals, List.mem_map, List.mem_filter, decide_eq_true_eq]
  constructor
  · rintro ⟨a, ⟨ha, hslot, hop⟩, rfl⟩
    exact ⟨a, ha, hslot, hop, rfl⟩
  · rintro ⟨a, ha, hslot, hop, rfl⟩
    exact ⟨a, ⟨ha, hslot, hop⟩, rfl⟩

/-- After a plan that accepts an operation, some entry has it. -/
theorem mem_installed_of_accepts {a : StagedAcceptance} (haccept : p.acceptances = [a]) (revision : ℕ) :
    ∃ b ∈ (installed C v p revision).accepted, b.candidate.operation = a.candidate.operation ∧
      (b ∈ v.accepted ∨ b = a.entry) := by
  rw [installed_accepted_of_single v p revision haccept]
  split_ifs with hknown
  · obtain ⟨b, hb, hop⟩ := hknown
    exact ⟨b, hb, hop, .inl hb⟩
  · exact ⟨a.entry, by simp, rfl, .inr rfl⟩

/-- The entries of an instance after a plan: the ones there were, and the plan's. -/
theorem mem_installed_accepted (hplanned : Planned C v p) (revision : ℕ) {b : Accepted}
    (hb : b ∈ (installed C v p revision).accepted) : b ∈ v.accepted ∨ ∃ a ∈ p.acceptances, b = a.entry := by
  cases hplanned with
  | convicts haccept hforks =>
    rw [installed_accepted_of_nil v p revision haccept] at hb
    exact .inl hb
  | accepts a c haccept hinst hslot hop hform hmet hforks =>
    rw [installed_accepted_of_single v p revision haccept] at hb
    split_ifs at hb with hknown
    · exact .inl hb
    · rcases List.mem_append.mp hb with hb | hb
      · exact .inl hb
      · exact .inr ⟨a, by simp [haccept], List.mem_singleton.mp hb⟩

/-- The pairs a plan convicts are of accepted operations once it is installed. -/
theorem Planned.pairs (h : Planned C v p) (hist : History C p.inst v) (revision : ℕ) :
    ∀ f ∈ p.qualifiedForks, Paired (installed C v p revision) f := by
  intro f hf
  have hsub := accepted_subset_installed h revision
  cases h with
  | accepts a c haccept hinst hslot hop hform hmet hforks =>
    rw [hforks] at hf
    obtain ⟨b, hb, hbslot, hbop, rfl⟩ := mem_rivals.mp hf
    obtain ⟨b', hb', hop', hor⟩ := mem_installed_of_accepts (C := C) (v := v) haccept revision
    refine ⟨hbslot, hbop, ⟨b, hsub b hb, rfl, rfl⟩, ⟨b', hb', ?_, hop'.trans hop.symm⟩⟩
    have hinst' : b'.candidate.inst = a.candidate.inst := by
      rcases hor with hold | rfl
      · rw [hist.inst b' hold, hinst]
      · rfl
    rw [hslot, slot, slot, hinst', hop']
  | convicts haccept hforks => exact (hforks f hf).mono hsub

/-- Once installed, every two operations of one slot are convicted. -/
theorem Planned.convicted (h : Planned C v p) (hist : History C p.inst v) (revision : ℕ) :
    ∀ a ∈ (installed C v p revision).accepted, ∀ b ∈ (installed C v p revision).accepted,
      slot a.candidate = slot b.candidate → a.candidate.operation ≠ b.candidate.operation →
      ∃ f ∈ (installed C v p revision).qualifiedForks, slot f.first = slot a.candidate := by
  have hold : ∀ a ∈ v.accepted, ∀ b ∈ v.accepted, slot a.candidate = slot b.candidate →
      a.candidate.operation ≠ b.candidate.operation →
      ∃ f ∈ (installed C v p revision).qualifiedForks, slot f.first = slot a.candidate := by
    intro a ha b hb hslot hop
    obtain ⟨f, hf, hfirst⟩ := hist.convicted a ha b hb hslot hop
    exact ⟨f, by rw [installed_qualifiedForks]; exact mem_addNew.mpr (.inl hf), hfirst⟩
  cases h with
  | convicts haccept hforks => rwa [installed_accepted_of_nil v p revision haccept]
  | accepts a c haccept hinst hslot hop hform hmet hforks =>
    have hrival : ∀ b ∈ v.accepted, slot b.candidate = slot a.candidate →
        b.candidate.operation ≠ a.candidate.operation →
        ∃ f ∈ (installed C v p revision).qualifiedForks, slot f.first = slot b.candidate := by
      intro b hb hbslot hbop
      refine ⟨{ first := b.candidate, second := c }, ?_, rfl⟩
      rw [installed_qualifiedForks, hforks]
      exact mem_addNew.mpr (.inr (mem_rivals.mpr ⟨b, hb, hbslot.trans hslot.symm, hop ▸ hbop, rfl⟩))
    rw [installed_accepted_of_single v p revision haccept]
    split_ifs with hknown
    · exact hold
    intro x hx y hy hxy hne
    rcases List.mem_append.mp hx with hx | hx <;> rcases List.mem_append.mp hy with hy | hy
    · exact hold x hx y hy hxy hne
    · obtain rfl := List.mem_singleton.mp hy
      exact hrival x hx hxy hne
    · obtain rfl := List.mem_singleton.mp hx
      obtain ⟨f, hf, hfirst⟩ := hrival y hy hxy.symm hne.symm
      exact ⟨f, hf, hfirst.trans hxy.symm⟩
    · rw [List.mem_singleton.mp hx, List.mem_singleton.mp hy] at hne
      exact absurd rfl hne

/-- A plan that is installed keeps the history. -/
theorem History.installed (hist : History C p.inst v) (h : Planned C v p) (revision : ℕ) :
    History C p.inst (installed C v p revision) := by
  have hpairs := h.pairs hist revision
  have hconvicted := h.convicted hist revision
  have hsub := accepted_subset_installed h revision
  have hpairs' : ∀ f ∈ (Kernel.installed C v p revision).qualifiedForks, Paired (Kernel.installed C v p revision) f := by
    intro f hf
    rw [installed_qualifiedForks] at hf
    rcases mem_addNew.mp hf with hf | hf
    · exact (hist.pairs f hf).mono hsub
    · exact hpairs f hf
  have hfloors : ∀ origin : String, IsFloor (convictedSeqs (Kernel.installed C v p revision).qualifiedForks origin)
      (Kernel.installed C v p revision).quarantine[origin]? := by
    intro origin
    have hfloor := foldl_convict_floor (addNew v.qualifiedForks p.qualifiedForks) v.quarantine origin _
      (fun f hf => ?_) (hist.floors origin)
    · rw [installed_qualifiedForks, installed_quarantine]
      rwa [Set.union_eq_self_of_subset_left] at hfloor
      rintro n ⟨f, hf, hn⟩
      exact ⟨f, mem_addNew.mpr (.inl hf), hn⟩
    · have hpair := hpairs' f (by rwa [installed_qualifiedForks])
      exact ⟨hpair.same, hpair.differ⟩
  have hsame : (Kernel.installed C v p revision).accepted = v.accepted →
      History C p.inst (Kernel.installed C v p revision) := by
    intro haccepted
    refine ⟨?_, ?_, ?_, ?_, hpairs', hconvicted, hfloors⟩
    · rw [haccepted]
      exact hist.inst
    · rw [haccepted, installed_descriptor]
      exact hist.formed
    · rw [haccepted]
      exact hist.distinct
    · rw [haccepted]
      exact hist.closed
  cases h with
  | convicts haccept hforks => exact hsame (installed_accepted_of_nil v p revision haccept)
  | accepts a c haccept hinst hslot hop hform hmet hforks =>
    have haccepted := installed_accepted_of_single (C := C) v p revision haccept
    by_cases hknown : ∃ old ∈ v.accepted, old.candidate.operation = a.candidate.operation
    · rw [if_pos hknown] at haccepted
      exact hsame haccepted
    · rw [if_neg hknown] at haccepted
      refine ⟨?_, ?_, ?_, ?_, hpairs', hconvicted, hfloors⟩
      · rw [haccepted]
        intro b hb
        rcases List.mem_append.mp hb with hb | hb
        · exact hist.inst b hb
        · rw [List.mem_singleton.mp hb]
          exact hinst
      · rw [haccepted, installed_descriptor]
        intro b hb
        rcases List.mem_append.mp hb with hb | hb
        · exact hist.formed b hb
        · rw [List.mem_singleton.mp hb]
          exact hform
      · rw [haccepted, List.map_append]
        refine List.nodup_append'.mpr ⟨hist.distinct, List.nodup_singleton _, ?_⟩
        intro o ho ho'
        obtain ⟨old, hold, rfl⟩ := List.mem_map.mp ho
        exact hknown ⟨old, hold, by simpa [StagedAcceptance.entry] using ho'⟩
      · rw [haccepted]
        intro k b hb dep hdep
        by_cases hk : k < v.accepted.length
        · rw [List.getElem?_append_left hk] at hb
          obtain ⟨j, hj, b', hb', hsat⟩ := hist.closed k b hb dep hdep
          exact ⟨j, hj, b', by rw [List.getElem?_append_left (hj.trans hk), hb'], hsat⟩
        · rw [List.getElem?_append_right (Nat.le_of_not_lt hk), List.getElem?_singleton] at hb
          split_ifs at hb with hlast
          obtain rfl := Option.some.inj hb
          obtain ⟨b', hb', hsat⟩ := hmet dep hdep
          obtain ⟨j, hj⟩ := List.mem_iff_getElem?.mp hb'
          have hlt : j < v.accepted.length := (List.getElem?_eq_some_iff.mp hj).1
          exact ⟨j, by omega, b', by rw [List.getElem?_append_left hlt, hj], hsat⟩

/-! ### Every run -/

variable (C) in
/-- A query is about a well-formed candidate of an instance, and one for a seal about
a candidate whose dependencies are accepted. -/
def Asked (s : State) (q : PendingVerification) : Prop := ∃ v, s.instances[q.candidate.inst]? = some v ∧
  WellFormed C v.descriptor q.candidate ∧ (q.query.mode = .admissionSeal → Met C v q.candidate)

variable (C) in
/-- The histories of every instance, with what is asked and planned for them. -/
structure Histories (s : State) : Prop where
  flight : Flight s
  history : ∀ (i : Instance) (v : InstanceState), s.instances[i]? = some v → History C i v
  asked : ∀ (k : ℕ) (q : PendingVerification), s.queries[k]? = some q → Asked C s q
  planned : ∀ n p, InFlight s n p → ∃ v, s.instances[p.inst]? = some v ∧ Planned C v p

theorem Fresh.histories {s : State} (h : Fresh s) : Histories C s := by
  refine ⟨h.flight, fun i v hv => ?_, by simp [h.queries], by simp [InFlight, h.commits, h.unknownCommits]⟩
  have haccepted := h.accepted i v hv
  have hforks := h.forks i v hv
  constructor <;> simp [haccepted, hforks, h.quarantine i v hv, IsFloor, convictedSeqs]

theorem Asked.custody {s s' : State} {q : PendingVerification} (h : Asked C s q)
    (hc : ∀ i : Instance, Option.Rel SameCustody s.instances[i]? s'.instances[i]?) : Asked C s' q := by
  obtain ⟨v, hv, hform, hmet⟩ := h
  have hrel := hc q.candidate.inst
  rw [hv] at hrel
  cases hv' : s'.instances[q.candidate.inst]? with
  | none =>
    rw [hv'] at hrel
    cases hrel
  | some v' =>
    rw [hv'] at hrel
    cases hrel with
    | some hs =>
      exact ⟨v', hv', hs.descriptor ▸ hform, fun hm => (hmet hm).mono fun a ha => hs.accepted ▸ ha⟩

/-- What a move keeps that leaves every instance in its custody. -/
theorem Histories.of_custody {s s' : State} (h : Histories C s) (hf : Flight s')
    (hc : ∀ i : Instance, Option.Rel SameCustody s.instances[i]? s'.instances[i]?)
    (hq : ∀ (k : ℕ) (q : PendingVerification), s'.queries[k]? = some q → s.queries[k]? = some q ∨ Asked C s' q)
    (hp : ∀ n p, InFlight s' n p → InFlight s n p ∨ ∃ v, s'.instances[p.inst]? = some v ∧ Planned C v p) :
    Histories C s' := by
  refine ⟨hf, fun i v' hv' => ?_, fun k q hk => ?_, fun n p hn => ?_⟩
  · obtain ⟨v, hv, hs⟩ := custody_some (hv' ▸ hc i)
    exact (h.history i v hv).congr hs
  · exact (hq k q hk).elim (fun hk => (h.asked k q hk).custody hc) id
  · rcases hp n p hn with hn | hn
    · obtain ⟨v, hv, hplanned⟩ := h.planned n p hn
      have hrel := hc p.inst
      rw [hv] at hrel
      cases hv' : s'.instances[p.inst]? with
      | none =>
        rw [hv'] at hrel
        cases hrel
      | some v' =>
        rw [hv'] at hrel
        cases hrel with
        | some hs => exact ⟨v', rfl, hplanned.congr hs⟩
    · exact hn

/-- A plan is planned for the instance it is staged in. -/
theorem Histories.justified {s₀ : State} {e : Event} (h : Histories C s₀) (hv : s₀.instances[p.inst]? = some v)
    (hj : Justified C s₀ e v p) : Planned C v p := by
  cases hj with
  | historical q f admission hby hmode hadmitted hadmission hinst hcut haccept hforks hkind =>
    obtain ⟨v', hv', hform, -⟩ := h.asked q.query.id q hby.asked
    obtain rfl := Option.some.inj (hv'.symm.trans hby.known)
    exact .accepts _ q.candidate haccept hinst.symm rfl rfl hform (missing_eq_nil.mp hby.present) hforks
  | sealed q f verify admission hby hinst hcut haccept hforks hkind =>
    obtain ⟨v', hv', hform, hmet⟩ := h.asked q.query.id q hby.asked
    obtain rfl := Option.some.inj (hv'.symm.trans hby.known)
    exact .accepts _ q.candidate haccept hinst.symm rfl rfl hform (hmet hby.sealing) hforks
  | kept hcut haccept hforks hkind => exact .convicts haccept (by simp [hforks])
  | convicted pair first second hfirst hsecond hfc hsc hslot hne hcut haccept hforks hkind =>
    refine .convicts haccept fun f hf => ?_
    rw [hforks, List.mem_singleton] at hf
    subst hf
    exact ⟨hslot, hne, ⟨first, hfirst, by rw [hfc], by rw [hfc]⟩, ⟨second, hsecond, by rw [hsc], by rw [hsc]⟩⟩

theorem Histories.move {s₀ s s' : State} {e : Event} {effects : List Effect} (h₀ : Histories C s₀) (h : Histories C s)
    (hm : Move C s₀ e s effects s') : Histories C s' := by
  have hf := h.flight.move hm
  cases hm.shape h.flight with
  | quiet hq => exact h.of_custody hf hq.custody (fun k q hk => .inl (hq.queries k q hk)) fun n p hn => .inl (hq.plans n p hn)
  | verify c v mode hv hform hmode =>
    refine h.of_custody hf (fun i => custody_refl _) (fun k q hk => ?_) fun n p hn => .inl hn
    rcases queries_queried hk with rfl | hk
    · refine .inr ⟨v, hv, hform, fun hseal => ?_⟩
      change mode = .admissionSeal at hseal
      rcases hmode with rfl | rfl <;> cases hseal
    · exact .inl hk
  | sealing v q f cut hby hv =>
    refine h.of_custody hf (fun i => custody_refl _) (fun k q' hk => ?_) fun n p hn => .inl hn
    rcases queries_queried hk with rfl | hk
    · obtain ⟨v', hv', hform, -⟩ := h₀.asked q.query.id q hby.asked
      obtain rfl := Option.some.inj (hv'.symm.trans hby.known)
      exact .inr ⟨v', hv, hform, fun _ => missing_eq_nil.mp hby.present⟩
    · exact .inl hk
  | stage v p q hv hidle hj hv₀ =>
    refine h.of_custody hf (fun i => custody_refl _) (fun k q hk => .inl hk) fun n p' hn => ?_
    rcases inFlight_staged hn with ⟨-, rfl⟩ | hn
    · exact .inr ⟨v, hv, h₀.justified hv₀ hj⟩
    · exact .inl hn
  | installed t p v revision he hend hp hcommitted hv =>
    have hflying := inFlight_of_planOf hp
    obtain ⟨v', hv', hplanned⟩ := h.planned _ p hflying
    obtain rfl := Option.some.inj (hv'.symm.trans hv)
    have hsub := accepted_subset_installed hplanned revision
    refine ⟨hf, fun i w hw => ?_, fun k q hk => ?_, fun n p' hn => ?_⟩
    · rcases instances_installed hv hw with ⟨rfl, rfl⟩ | ⟨hi, hw⟩
      · exact (h.history p.inst v' hv).installed hplanned revision
      · exact h.history i w hw
    · obtain ⟨w, hw, hform, hmet⟩ := h.asked k q hk
      rw [Asked, instances_modify]
      split_ifs with hi
      · rw [← hi] at hw ⊢
        obtain rfl := Option.some.inj (hw.symm.trans hv)
        exact ⟨_, by rw [show (s.ended t).instances[p.inst]? = some w from hv]; rfl, by rwa [installed_descriptor],
          fun hseal => (hmet hseal).mono hsub⟩
      · exact ⟨w, hw, hform, hmet⟩
    · obtain ⟨hne, hn⟩ := inFlight_ended.mp hn
      obtain ⟨w, hw, hplanned'⟩ := h.planned n p' hn
      refine ⟨w, ?_, hplanned'⟩
      rw [instances_modify, if_neg]
      · exact hw
      · exact fun hinst => hne (h.flight.single n _ p' p hn hflying hinst.symm)

/-- Every reachable state keeps the histories. -/
theorem Reachable.histories {s : State} (h : Reachable C s) : Histories C s :=
  h.invariant (fun _ h => h.histories) fun _ _ _ _ _ h₀ h hm => h₀.move h hm

end Glade.Kernel
