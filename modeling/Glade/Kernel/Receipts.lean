import Glade.Kernel.Along
import Glade.Kernel.Eligible
import Glade.Kernel.Room

/-! The receipts of operations. An offer of an accepted operation is answered with
its receipt; the answer to its evidence, which comes later, does not look again
whether it was accepted meanwhile. -/

namespace Glade.Kernel

open Wire Node OrdMap

variable (C : Crypto)

/-- No answer that admits an operation, while no plan is in flight, comes after the
operation was accepted. -/
structure StagesNew (s : State) (e : Event) : Prop where
  historical : ∀ v q f, VerifiedBy C s e v q f → q.query.mode = .historical → HistoricallyAdmitted q.candidate f →
    s.plans q.candidate.inst = [] → ∀ a ∈ v.accepted, a.candidate.operation ≠ q.candidate.operation
  sealed : ∀ v q f verify admission, SealedBy C s e v q f verify admission → s.plans q.candidate.inst = [] →
    ∀ a ∈ v.accepted, a.candidate.operation ≠ q.candidate.operation

/-- The receipts of the accepted operations name them, and no operation of a plan in
flight is accepted yet. -/
structure Receipted (s : State) : Prop where
  accepted : ∀ (i : Instance) (v : InstanceState), s.instances[i]? = some v → ∀ a ∈ v.accepted,
    a.receipt.inst = i ∧ a.receipt.operation = a.hash C
  planned : ∀ n p, InFlight s n p → ∀ v, s.instances[p.inst]? = some v → ∀ a ∈ p.acceptances,
    a.receipt.inst = p.inst ∧ a.receipt.operation = opHash C a.candidate.operation ∧
      ∀ old ∈ v.accepted, old.candidate.operation ≠ a.candidate.operation

/-- A receipt an effect reports. -/
def Effect.reports (r : Receipt) : Effect → Prop
  | .report (.acceptedLocal r') => r' = r
  | .report (.exactRetry r') => r' = r
  | _ => False

/-- Every receipt an effect reports is of an accepted operation of the state. -/
def Held (s : State) (x : Effect) : Prop := ∀ r : Receipt, x.reports r → ∃ v, s.instances[r.inst]? = some v ∧
  ∃ a ∈ v.accepted, a.receipt = r

variable {C} {s₀ s s' : State} {e : Event} {effects : List Effect} {v v' : InstanceState} {p : CommitPlan}

theorem Fresh.receipted (h : Fresh s) : Receipted C s := by
  refine ⟨fun i v hv => ?_, by simp [InFlight, h.commits, h.unknownCommits]⟩
  rw [h.accepted i v hv]
  simp

theorem Receipted.justified (hnew : StagesNew C s₀ e) (hidle : s₀.plans p.inst = []) (hj : Justified C s₀ e v p) :
    ∀ a ∈ p.acceptances, a.receipt.inst = p.inst ∧ a.receipt.operation = opHash C a.candidate.operation ∧
      ∀ old ∈ v.accepted, old.candidate.operation ≠ a.candidate.operation := by
  intro a ha
  cases hj with
  | historical q f admission hby hmode hadmitted hadmission hinst hcut haccept hforks hkind =>
    rw [haccept, List.mem_singleton] at ha
    subst ha
    exact ⟨hinst.symm, rfl, hnew.historical v q f hby hmode hadmitted (hinst ▸ hidle)⟩
  | sealed q f verify admission hby hinst hcut haccept hforks hkind =>
    rw [haccept, List.mem_singleton] at ha
    subst ha
    exact ⟨hinst.symm, rfl, hnew.sealed v q f verify admission hby (hinst ▸ hidle)⟩
  | kept hcut haccept hforks hkind => simp [haccept] at ha
  | convicted pair first second hfirst hsecond hfc hsc hslot hne hcut haccept hforks hkind => simp [haccept] at ha

theorem Receipted.of_custody (h : Receipted C s)
    (hc : ∀ i : Instance, Option.Rel SameCustody s.instances[i]? s'.instances[i]?)
    (hp : ∀ n p, InFlight s' n p → InFlight s n p ∨ ∀ v, s'.instances[p.inst]? = some v → ∀ a ∈ p.acceptances,
      a.receipt.inst = p.inst ∧ a.receipt.operation = opHash C a.candidate.operation ∧
        ∀ old ∈ v.accepted, old.candidate.operation ≠ a.candidate.operation) : Receipted C s' := by
  refine ⟨fun i v' hv' => ?_, fun n p hn v' hv' => ?_⟩
  · obtain ⟨v, hv, hs⟩ := custody_some (hv' ▸ hc i)
    rw [hs.accepted]
    exact h.accepted i v hv
  · rcases hp n p hn with hn | hn
    · obtain ⟨v, hv, hs⟩ := custody_some (hv' ▸ hc p.inst)
      rw [hs.accepted]
      exact h.planned n p hn v hv
    · exact hn v' hv'

/-- The plan's own entries are there, when their operations were not accepted. -/
theorem entry_mem_installed (hplanned : Planned C v p)
    (hnew : ∀ a ∈ p.acceptances, ∀ old ∈ v.accepted, old.candidate.operation ≠ a.candidate.operation) (revision : ℕ) :
    ∀ a ∈ p.acceptances, a.entry ∈ (installed C v p revision).accepted := by
  intro a ha
  cases hplanned with
  | convicts haccept hforks => simp [haccept] at ha
  | accepts a' c haccept hinst hslot hop hform hmet hforks =>
    rw [haccept, List.mem_singleton] at ha
    subst ha
    rw [installed_accepted_of_single v p revision haccept, if_neg]
    · simp
    · rintro ⟨old, hold, heq⟩
      exact hnew a (by simp [haccept]) old hold heq

theorem Receipted.move (hnew : StagesNew C s₀ e) (hist : Histories C s) (h : Receipted C s)
    (hm : Move C s₀ e s effects s') : Receipted C s' := by
  cases hm.shape hist.flight with
  | quiet hq => exact h.of_custody hq.custody fun n p hn => .inl (hq.plans n p hn)
  | verify c v mode hv hform hmode => exact h.of_custody (fun i => custody_refl _) fun n p hn => .inl hn
  | sealing v q f cut hby hv => exact h.of_custody (fun i => custody_refl _) fun n p hn => .inl hn
  | stage v p q hv hidle hj hv₀ =>
    refine h.of_custody (fun i => custody_refl _) fun n p' hn => ?_
    rcases inFlight_staged hn with ⟨-, rfl⟩ | hn
    · refine .inr fun v' hv' => ?_
      obtain rfl := Option.some.inj (hv'.symm.trans hv)
      exact Receipted.justified hnew hidle hj
    · exact .inl hn
  | installed t p v revision he hend hp hcommitted hv =>
    have hflying := inFlight_of_planOf hp
    obtain ⟨v', hv', hplanned⟩ := hist.planned _ p hflying
    obtain rfl := Option.some.inj (hv'.symm.trans hv)
    refine ⟨fun i w hw a ha => ?_, fun n p' hn w hw => ?_⟩
    · rcases instances_installed hv hw with ⟨rfl, rfl⟩ | ⟨-, hw⟩
      · rcases mem_installed_accepted hplanned revision ha with ha | ⟨b, hb, rfl⟩
        · exact h.accepted p.inst v' hv a ha
        · obtain ⟨hinst, hop, -⟩ := h.planned _ p hflying v' hv b hb
          exact ⟨hinst, hop⟩
      · exact h.accepted i w hw a ha
    · obtain ⟨hne, hn⟩ := inFlight_ended.mp hn
      rcases instances_installed hv hw with ⟨hi, -⟩ | ⟨-, hw⟩
      · exact absurd (hist.flight.single n _ p' p hn hflying hi) hne
      · exact h.planned n p' hn w hw

theorem run_receipted (hfresh : Fresh s₀) {events : List Event} (h : Along C (StagesNew C) s₀ events) :
    Receipted C (run C s₀ events) :=
  along_invariant (I := fun _ s => Receipted C s) hfresh hfresh.receipted (fun _ _ _ h => h)
    (fun _ _ _ _ _ hnew _ _ hist h hm _ => h.move hnew hist hm) h

/-! ### Reports -/

theorem Effect.Silent.not_reports {x : Effect} (h : x.Silent) (r : Receipt) : ¬ x.reports r := by
  cases x with
  | report outcome => cases outcome <;> first | exact h.elim | exact fun h => h
  | _ => exact fun h => h

theorem held_of_not_reports {x : Effect} (h : ∀ r, ¬ x.reports r) (s : State) : Held s x := fun r hr => absurd hr (h r)

/-- A move loses no accepted operation. -/
theorem Move.accepted_subset (hist : Histories C s) (hm : Move C s₀ e s effects s') {i : Instance}
    (hv : s.instances[i]? = some v) : ∃ v', s'.instances[i]? = some v' ∧ ∀ a ∈ v.accepted, a ∈ v'.accepted := by
  cases hm.shape hist.flight with
  | quiet hq =>
    have hrel := hq.custody i
    rw [hv] at hrel
    cases hv' : s'.instances[i]? with
    | none =>
      rw [hv'] at hrel
      cases hrel
    | some v' =>
      rw [hv'] at hrel
      cases hrel with
      | some hs => exact ⟨v', rfl, fun a ha => hs.accepted ▸ ha⟩
  | verify c w mode hw hform hmode => exact ⟨v, hv, fun a ha => ha⟩
  | sealing w q f cut hby hw => exact ⟨v, hv, fun a ha => ha⟩
  | stage w p q hw hidle hj hw₀ => exact ⟨v, hv, fun a ha => ha⟩
  | installed t p w revision he hend hp hcommitted hw =>
    rw [instances_modify]
    split_ifs with hi
    · subst hi
      obtain rfl := Option.some.inj (hw.symm.trans hv)
      obtain ⟨w', hw', hplanned⟩ := hist.planned _ p (inFlight_of_planOf hp)
      obtain rfl := Option.some.inj (hw'.symm.trans hw)
      exact ⟨_, by rw [show (s.ended t).instances[p.inst]? = some w' from hw]; rfl, accepted_subset_installed hplanned revision⟩
    · exact ⟨v, hv, fun a ha => ha⟩

theorem Held.move (hist : Histories C s) (hm : Move C s₀ e s effects s') {x : Effect} (h : Held s x) : Held s' x := by
  intro r hr
  obtain ⟨v, hv, a, ha, hreceipt⟩ := h r hr
  obtain ⟨v', hv', hsub⟩ := hm.accepted_subset hist hv
  exact ⟨v', hv', a, hsub a ha, hreceipt⟩

/-- What is reported of an installed plan is of its own entries. -/
theorem held_installReports {t : Terminal} (hist : Histories C s) (h : Receipted C s)
    (hp : s.planOf t.attempt.binding.plan = some p) (hv : s.instances[p.inst]? = some v) (recovering : Bool) (revision : ℕ)
    (storage : StorageClass) : ∀ x ∈ installReports C p recovering revision storage,
      Held ((s.ended t).modify p.inst fun v => installed C v p revision) x := by
  intro x hx r hr
  rw [installReports] at hx
  by_cases hkind : p.kind = .acceptedBatch
  · rw [if_pos hkind] at hx
    obtain ⟨a, ha, rfl⟩ := List.mem_map.mp hx
    obtain rfl : a.receipt = r := by cases recovering <;> exact hr
    have hflying := inFlight_of_planOf hp
    obtain ⟨v', hv', hplanned⟩ := hist.planned _ p hflying
    obtain rfl := Option.some.inj (hv'.symm.trans hv)
    have hplan := h.planned _ p hflying v' hv
    rw [(hplan a ha).1, instances_modify, if_pos rfl, show (s.ended t).instances[p.inst]? = some v' from hv]
    exact ⟨_, rfl, a.entry, entry_mem_installed hplanned (fun a ha => (hplan a ha).2.2) revision a ha, rfl⟩
  · rw [if_neg hkind, List.mem_singleton] at hx
    subst hx
    exact hr.elim

theorem Move.held (hist : Histories C s) (h : Receipted C s) (hm : Move C s₀ e s effects s') : ∀ x ∈ effects, Held s' x := by
  have hone : ∀ {x : Effect} {s' : State}, (∀ r, ¬ x.reports r) → ∀ y ∈ [x], Held s' y := by
    intro x s' hx y hy
    rw [List.mem_singleton.mp hy]
    exact held_of_not_reports hx s'
  cases hm with
  | silent effect hsilent => exact hone hsilent.not_reports
  | receipt i v a hv ha effect heffect =>
    intro x hx r hr
    rw [List.mem_singleton] at hx
    subst hx
    obtain rfl : a.receipt = r := by rcases heffect with rfl | rfl <;> exact hr
    exact ⟨v, by rw [(h.accepted i v hv a ha).1]; exact hv, a, ha, rfl⟩
  | installed t p v revision storage receipts startCut recovering he hend hp hout hv hrevision hused =>
    exact held_installReports hist h hp hv recovering revision storage
  | verify c v mode hv hnew hform hmode => exact hone fun _ h => h
  | sealing v q f cut hby hv => exact hone fun _ h => h
  | stage v p q hv hidle hidle₀ hid hrevision hj hv₀ hb hinv => exact hone fun _ h => h
  | recover q hinv => exact hone fun _ h => h
  | inspect q hop hinv => exact hone fun _ h => h
  | fence q hop hinv => exact hone fun _ h => h
  | begin b v hop hinst hinv hv hv₀ hcurrent hcut => exact hone fun _ h => h
  | _ => simp

theorem run_held (hfresh : Fresh s₀) {events : List Event} (h : Along C (StagesNew C) s₀ events) :
    ∀ x ∈ effectsOf C s₀ events, Held (run C s₀ events) x := by
  refine along_effects (I := fun s => Histories C s ∧ Receipted C s) (fun before hbefore => ?_) ?_ h
  · obtain ⟨after, rfl⟩ := hbefore
    exact ⟨(reachable_run hfresh before).histories, run_receipted hfresh h.of_append⟩
  · rintro s e s₁ effects s₂ hnew ⟨hist, -⟩ ⟨hist₁, h₁⟩ hm
    exact ⟨⟨hist.move hist₁ hm, h₁.move hnew hist₁ hm⟩, hm.held hist₁ h₁, fun x hx => hx.move hist₁ hm⟩

/-! ### Each operation once -/

/-- The operations of the installed plans are accepted. -/
theorem run_installs_accepted (hfresh : Fresh s₀) {events : List Event} (h : Along C (StagesNew C) s₀ events) :
    ∀ p ∈ installsOf C s₀ events, ∀ a ∈ p.acceptances, ∃ v, (run C s₀ events).instances[p.inst]? = some v ∧
      a.entry ∈ v.accepted := by
  induction events using List.reverseRecOn with
  | nil => simp [installsOf]
  | append_singleton events e ih =>
    have hist : Histories C (run C s₀ events) := (reachable_run hfresh events).histories
    intro p hp a ha
    rw [installsOf_concat] at hp
    rw [run_concat]
    rcases List.mem_append.mp hp with hp | hp
    · obtain ⟨v, hv, hmem⟩ := ih h.init p hp a ha
      obtain ⟨v', hv', hprefix⟩ := step_accepted_prefix hist e hv
      exact ⟨v', hv', hprefix.subset hmem⟩
    · rcases step_installs (C := C) hist.flight e with ⟨hnone, -⟩ | ⟨t, p', v, -, hsome, hin⟩
      · simp [hnone] at hp
      · rw [hsome, Option.toList_some, List.mem_singleton] at hp
        subst hp
        have hflying := inFlight_of_planOf hin.flying
        obtain ⟨w, hw, hplanned⟩ := hist.planned _ p hflying
        obtain rfl := Option.some.inj (hw.symm.trans hin.known)
        obtain ⟨v', hv', hs⟩ := hin.done
        refine ⟨v', hv', ?_⟩
        rw [hs.accepted]
        exact entry_mem_installed hplanned
          (fun a ha => ((run_receipted hfresh h.init).planned _ p hflying w hw a ha).2.2) _ a ha

/-- The plans that accept an operation of an instance. -/
def accepting (i : Instance) (o : Op) (log : List CommitPlan) : List CommitPlan :=
  log.filter fun p => p.inst = i ∧ ∃ a ∈ p.acceptances, a.candidate.operation = o

theorem accepting_le_one (hfresh : Fresh s₀) {events : List Event} (h : Along C (StagesNew C) s₀ events) (i : Instance)
    (o : Op) : (accepting i o (installsOf C s₀ events)).length ≤ 1 := by
  induction events using List.reverseRecOn with
  | nil => simp [accepting, installsOf]
  | append_singleton events e ih =>
    have hist : Histories C (run C s₀ events) := (reachable_run hfresh events).histories
    have hle := ih h.init
    rw [installsOf_concat, accepting, List.filter_append, List.length_append, ← accepting]
    rcases step_installs (C := C) hist.flight e with ⟨hnone, -⟩ | ⟨t, p, v, -, hsome, hin⟩
    · simpa [hnone] using hle
    rw [hsome, Option.toList_some]
    by_cases haccepts : p.inst = i ∧ ∃ a ∈ p.acceptances, a.candidate.operation = o
    · -- An earlier one would have left the operation accepted, and the plan would not be in flight.
      obtain ⟨rfl, a, ha, rfl⟩ := haccepts
      have hempty : accepting p.inst a.candidate.operation (installsOf C s₀ events) = [] := by
        rw [accepting, List.filter_eq_nil_iff]
        intro p' hp' hacc
        obtain ⟨hinst, a', ha', hop⟩ := of_decide_eq_true hacc
        obtain ⟨w, hw, hmem⟩ := run_installs_accepted hfresh h.init p' hp' a' ha'
        rw [hinst] at hw
        exact ((run_receipted hfresh h.init).planned _ p (inFlight_of_planOf hin.flying) w hw a ha).2.2 _ hmem hop
      rw [hempty, List.length_nil, Nat.zero_add]
      exact List.length_filter_le _ [p]
    · rw [List.filter_cons_of_neg (by rwa [decide_eq_true_eq])]
      simpa using hle

/-! ### Offers of what is accepted -/

/-- An offer of an accepted operation is answered with its receipt and changes
nothing. -/
theorem offer_accepted {i : Instance} (hist : History C i v) (hv : s.instances[i]? = some v) {a : Accepted}
    (ha : a ∈ v.accepted) {c : Candidate} (hinst : c.inst = i) (hop : c.operation = a.candidate.operation) (isLocal : Bool) :
    offer C s c isLocal = (s, [.report (.exactRetry a.receipt)]) := by
  have hfind : v.accepted.find? (fun b => b.candidate.operation = c.operation) = some a := by
    cases hfind : v.accepted.find? (fun b => b.candidate.operation = c.operation) with
    | none => simpa [hop] using List.find?_eq_none.mp hfind a ha
    | some b =>
      have hb := List.mem_of_find?_eq_some hfind
      have hbop := List.find?_some hfind
      rw [hist.entry_eq hb ha ((of_decide_eq_true hbop).trans hop)]
  rw [offer, hinst, hv]
  dsimp only
  rw [hfind]

/-- An offer leaves every instance in its custody. -/
theorem offer_custody (hf : Flight s) (c : Candidate) (isLocal : Bool) :
    ∀ i : Instance, Option.Rel SameCustody s.instances[i]? (offer C s c isLocal).1.instances[i]? := by
  have hmoves : Moves C s (.read c.inst) s _ _ := moves_offer s c isLocal
  rcases hmoves.keeps_or_ends hf with hkeeps | ⟨s₁, s₂, -, hends, -⟩
  · exact hkeeps.custody
  · obtain ⟨t, ht, -⟩ := hends.retained
    cases ht

/-- A half of the evidence of a fork whose operation is accepted under other evidence
is answered with its receipt. -/
theorem fork_accepted {i : Instance} (hf : Flight s) (hist : History C i v) (hv : s.instances[i]? = some v) {a : Accepted}
    (ha : a ∈ v.accepted) {c : Candidate} (hinst : c.inst = i) (hop : c.operation = a.candidate.operation)
    (hne : a.candidate ≠ c) (hsound : v.storageIntegrityFailed = false) {pair : ForkEvidence}
    (hslot : slot pair.first = slot pair.second) (hdiffer : pair.first.operation ≠ pair.second.operation)
    (hhalf : pair.first = c ∨ pair.second = c) : .report (.exactRetry a.receipt) ∈ (fork C s pair).2 := by
  have hfirst : pair.first.inst = i := by
    obtain ⟨hi, -⟩ := Slot.mk.inj hslot
    rcases hhalf with rfl | rfl
    · exact hinst
    · rw [hi, hinst]
  have hother : (v.accepted.any fun b => b.candidate = c) = false := by
    rw [List.any_eq_false]
    intro b hb hbc
    have hbc : b.candidate = c := of_decide_eq_true hbc
    obtain rfl := hist.entry_eq hb ha (by rw [hbc, hop])
    exact hne hbc
  rw [fork, if_neg (by simp [hslot, hdiffer]), hfirst, hv]
  dsimp only
  rw [hsound, if_neg Bool.false_ne_true]
  rcases hhalf with rfl | rfl
  · rw [hother, if_neg (by simp), if_neg Bool.false_ne_true, offer_accepted hist hv ha hinst hop]
    exact List.mem_append_left _ (List.mem_singleton.mpr rfl)
  · rw [hother, if_neg (by simp)]
    dsimp only
    rw [if_neg Bool.false_ne_true]
    refine List.mem_append_right _ ?_
    by_cases hknown : (v.accepted.any fun b => b.candidate = pair.first) = true
    · rw [if_pos hknown, offer_accepted hist hv ha hinst hop]
      exact List.mem_singleton.mpr rfl
    · rw [if_neg hknown]
      have hrel := offer_custody (C := C) hf pair.first false i
      rw [hv] at hrel
      cases hv' : (offer C s pair.first false).1.instances[i]? with
      | none =>
        rw [hv'] at hrel
        cases hrel
      | some v' =>
        rw [hv'] at hrel
        cases hrel with
        | some hs =>
          rw [offer_accepted (hist.congr hs) hv' (hs.accepted ▸ ha) hinst hop]
          exact List.mem_singleton.mpr rfl

/-- What holds of the receipts of an instance after a run. -/
structure OneReceipt (C : Crypto) (s₀ : State) (events : List Event) (i : Instance) (v : InstanceState) : Prop where
  once : (v.accepted.map fun a => a.candidate.operation).Nodup
  /-- Every receipt that was reported is an accepted operation's. -/
  reported : ∀ x ∈ effectsOf C s₀ events, ∀ r : Receipt, x.reports r → r.inst = i →
    ∃ a ∈ v.accepted, a.receipt = r ∧ r.operation = a.hash C
  /-- Every one reported for an accepted operation is its entry's. -/
  same : NoCollision C v → ∀ a ∈ v.accepted, ∀ x ∈ effectsOf C s₀ events, ∀ r : Receipt, x.reports r → r.inst = i →
    r.operation = a.hash C → r = a.receipt
  committed : ∀ o, (accepting i o (installsOf C s₀ events)).length ≤ 1
  /-- An offer of an accepted operation. -/
  offered : ∀ a ∈ v.accepted, ∀ c : Candidate, c.inst = i → c.operation = a.candidate.operation →
    (∀ isLocal, offer C (run C s₀ events) c isLocal = (run C s₀ events, [.report (.exactRetry a.receipt)])) ∧
    step C (run C s₀ events) (.submitLocal c) = (run C s₀ events, [.report (.exactRetry a.receipt)]) ∧
    step C (run C s₀ events) (.offerReplica c) = (run C s₀ events, [.report (.exactRetry a.receipt)]) ∧
    ∀ pair : ForkEvidence, slot pair.first = slot pair.second → pair.first.operation ≠ pair.second.operation →
      (pair.first = c ∨ pair.second = c) → a.candidate ≠ c → v.storageIntegrityFailed = false →
      .report (.exactRetry a.receipt) ∈ (step C (run C s₀ events) (.offerFork pair)).2

/-- When no answer that admits an operation comes after it was accepted, every
operation has one entry, one receipt and at most one plan. -/
theorem one_receipt (hfresh : Fresh s₀) (events : List Event) (h : Along C (StagesNew C) s₀ events) {i : Instance}
    (hv : (run C s₀ events).instances[i]? = some v) : OneReceipt C s₀ events i v := by
  have hists : Histories C (run C s₀ events) := (reachable_run hfresh events).histories
  have hist := hists.history i v hv
  have hreported : ∀ x ∈ effectsOf C s₀ events, ∀ r : Receipt, x.reports r → r.inst = i →
      ∃ a ∈ v.accepted, a.receipt = r ∧ r.operation = a.hash C := by
    intro x hx r hr hinst
    obtain ⟨w, hw, a, ha, rfl⟩ := run_held hfresh h x hx r hr
    rw [hinst] at hw
    obtain rfl := Option.some.inj (hw.symm.trans hv)
    exact ⟨a, ha, rfl, ((run_receipted hfresh h).accepted i w hv a ha).2⟩
  refine ⟨hist.distinct, hreported, fun hnc a ha x hx r hr hinst hop => ?_, accepting_le_one hfresh h i,
    fun a ha c hinst hop => ⟨offer_accepted hist hv ha hinst hop, offer_accepted hist hv ha hinst hop true,
      offer_accepted hist hv ha hinst hop false, fun pair hslot hdiffer hhalf hne hsound =>
        fork_accepted hists.flight hist hv ha hinst hop hne hsound hslot hdiffer hhalf⟩⟩
  obtain ⟨b, hb, rfl, hbop⟩ := hreported x hx r hr hinst
  rw [hist.entry_eq hb ha (hnc b hb a ha (hbop.symm.trans hop))]

theorem stagesNew_of_ne {s : State} {e : Event} (h : ∀ r, e ≠ .evidenceResolved r) : StagesNew C s e :=
  ⟨fun _ _ _ hby => absurd hby.reply (h _), fun _ _ _ _ _ hby => absurd hby.reply (h _)⟩

/-- A first operation is admitted once. -/
theorem one_receipt_desk : (∀ C, Fresh (desk C)) ∧ ∀ C, ∃ events v, (installsOf C (desk C) events).length = 1 ∧
    OneReceipt C (desk C) events (draft C).inst v := by
  refine ⟨fresh_desk, fun C => ?_⟩
  obtain ⟨batch, charges, q, s', hstep, hadmitted⟩ := first_admitted C
  refine ⟨firstRun C (firstPlan C batch charges) q, _, ?_, one_receipt (fresh_desk C) _ ?_
    (by rw [hadmitted.run_first]; exact hadmitted.room.known)⟩
  · rw [firstRun, installsOf, hstep, hadmitted.installs]
    rfl
  · refine .cons (stagesNew_of_ne (by simp)) ?_
    rw [hstep]
    refine .cons ⟨fun w r f hby _ _ _ a ha => ?_, fun w r f verify admission hby => ?_⟩ ?_
    · rw [(fresh_desk C).accepted _ w hby.known] at ha
      cases ha
    · exact absurd (congrArg EvidenceReply.verdict (Event.evidenceResolved.inj hby.reply)) (by simp [vouching])
    · exact .cons (stagesNew_of_ne (by simp)) (.cons (stagesNew_of_ne (resolved_ne_evidence _)) along_nil)

/-! ### One operation under two permits -/

/-- Two replicas offer one operation, each with a permit of its own, and both answers
admit it: it is committed twice. -/
theorem twice_accepting (C : Crypto) :
    ∃ events, (accepting (draft C).inst (stroke .first) (installsOf C (desk C) events)).length = 2 := by
  have hnil : ([] : Bytes).length ≤ 2 ^ 20 := Nat.zero_le _
  have hone : ([1] : Bytes).length ≤ 2 ^ 20 := by norm_num
  obtain ⟨hstep₁, hroom₁⟩ := (room_desk C).offered .first (by omega) (idle_desk C) hnil hnil
    (by simp [InstanceState.opened]) (by simp [State.queriesOf, values, desk, State.opened])
  set s₁ := (desk C).queried (asked C .first [] [] .historical 0) with hs₁
  have hasked₁ : ∀ (k : ℕ) (q : PendingVerification), s₁.queries[k]? = some q → k = 0 ∧
    q = asked C .first [] [] .historical 0 := by
    intro k q hk
    rw [hs₁, State.queried, Std.ExtTreeMap.getElem?_insert] at hk
    split_ifs at hk with hk₀
    · exact ⟨(Std.LawfulEqOrd.eq_of_compare hk₀).symm, (Option.some.inj hk).symm⟩
    · simp [desk, State.opened] at hk
  obtain ⟨hstep₂, hroom₂⟩ := hroom₁.offered .first (by omega) ((idle_desk C).queried _) hnil hone
    (by simp [InstanceState.opened]) (by
      intro q hq
      obtain ⟨k, hk⟩ := mem_values.mp (List.mem_of_mem_filter hq)
      rw [(hasked₁ k q hk).2]
      simp [asked, sketch])
  set s₂ := s₁.queried (asked C .first [] [1] .historical 1) with hs₂
  have hasked₂ : s₂.queries[0]? = some (asked C .first [] [] .historical 0) ∧
      s₂.queries[1]? = some (asked C .first [] [1] .historical 1) := by
    constructor
    · rw [hs₂, State.queried, Std.ExtTreeMap.getElem?_insert, if_neg (by simp [asked, asking]), hs₁, State.queried]
      exact Std.ExtTreeMap.getElem?_insert_self
    · exact Std.ExtTreeMap.getElem?_insert_self
  have hready : Room C 2 s₂ (.opened (draft C) .volatileTest [] { earliestMs := 0, latestMs := 0 }) := hroom₂
  have hidle : Idle s₂ := ((idle_desk C).queried _).queried _
  -- The first answer.
  obtain ⟨batch, charges, q, s₃, hfirst⟩ := hready.admitted .first (by omega) hidle hnil hnil
    (asking_short C .first hnil hnil .historical 0) (by simp) hnil
    (hready.verified_historical hasked₂.1 (by simp [InstanceState.opened]))
  set p := plot C _ (sketch C .first [] []) (vouched C .first [])
    (asking C .first [] [] .historical 0) none [] s₂.nextEffectId batch
    charges with hp
  -- The second, when the operation is accepted.
  have hasked₃ : s₃.queries[1]? = some (asked C .first [] [1] .historical 1) := by
    rw [hfirst.queries, Std.ExtTreeMap.getElem?_erase, if_neg (by simp [asking])]
    exact hasked₂.2
  obtain ⟨batch', charges', q', s₄, hsecond⟩ := hfirst.room.admitted .first (by omega) hfirst.idle hnil hone
    (asking_short C .first hnil hone .historical 1) (by simp) hnil
    (hfirst.room.verified_historical hasked₃ (by
      rw [certificate_installed rfl rfl (by simp [InstanceState.opened])]
      simp))
  set p' := plot C _ (sketch C .first [] [1]) (vouched C .first [])
    (asking C .first [] [1] .historical 1) none [] s₃.nextEffectId batch'
    charges' with hp'
  have hrun : run C (desk C) [.offerReplica (sketch C .first [] []), .offerReplica (sketch C .first [] [1])] = s₂ := by
    rw [run, List.foldl_cons, hstep₁, List.foldl_cons]
    exact hstep₂
  refine ⟨[.offerReplica (sketch C .first [] []), .offerReplica (sketch C .first [] [1])] ++
    (admitting C s₂ ⟨asking C .first [] [] .historical 0, .verified (vouched C .first [])⟩ p q ++
    admitting C s₃ ⟨asking C .first [] [1] .historical 1, .verified (vouched C .first [])⟩ p' q'), ?_⟩
  rw [installsOf_append, installsOf_append, hrun, hfirst.run, hfirst.installs, hsecond.installs]
  have haccepts : ∀ p'' ∈ [p] ++ [p'], decide (p''.inst = (draft C).inst ∧ ∃ a ∈ p''.acceptances,
      a.candidate.operation = stroke .first) = true := by
    simp [p, p', plot, planOf, stagedAcceptance, sketch]
  rw [accepting, show installsOf C (desk C) [.offerReplica (sketch C .first [] []), .offerReplica (sketch C .first [] [1])] = []
    from rfl, List.nil_append, List.filter_eq_self.mpr haccepts]
  rfl

/-- The claim of one plan for each operation fails whatever the hash is. -/
theorem accepting_not_le_one : ¬ ∃ C : Crypto, ∀ (s₀ : State) (events : List Event) (i : Instance) (o : Op), Fresh s₀ →
    (accepting i o (installsOf C s₀ events)).length ≤ 1 := by
  rintro ⟨C, h⟩
  obtain ⟨events, htwo⟩ := twice_accepting C
  have hle := h (desk C) events (draft C).inst (stroke .first) (fresh_desk C)
  omega

end Glade.Kernel
