import Glade.Kernel.Along
import Glade.Kernel.Eligible
import Glade.Kernel.Room

/-! Local writes. That a write opposes nothing accepted is looked at when its facts
arrive, and not again when its seal does; what is installed in between decides
whether it still holds. -/

namespace Glade.Kernel

open Wire Node OrdMap

variable (C : Crypto)

/-- The accepted operations a candidate depends on, directly or through others. -/
def InPast (v : InstanceState) (c : Candidate) (b : Accepted) : Prop :=
  ∃ a ∈ v.accepted, (∃ dep ∈ dependencies c, Satisfies C dep a) ∧ Relation.ReflTransGen (Names C v) a b

/-- Whether the conviction of a fork quarantines an operation. -/
def Hits (f : ForkEvidence) (o : Op) : Prop := f.first.operation.origin = o.origin ∧ f.first.operation.seq ≤ o.seq

/-- A plan that takes neither a candidate's slot nor convicts at or below it, nor at or
below an operation of its causal past. -/
structure Spares (v : InstanceState) (p : CommitPlan) (c : Candidate) : Prop where
  slot : ∀ a ∈ p.acceptances, Kernel.slot a.candidate ≠ Kernel.slot c
  own : ∀ f ∈ p.qualifiedForks, ¬ Hits f c.operation
  past : ∀ f ∈ p.qualifiedForks, ∀ b, InPast C v c b → ¬ Hits f b.candidate.operation

/-- A step that installs a plan spares every write whose seal is waited for. -/
def SparesSeals (s : State) (e : Event) : Prop := ∀ p v, installs C s e = some p → s.instances[p.inst]? = some v →
  ∀ (k : ℕ) (q : PendingVerification), s.queries[k]? = some q → q.query.mode = .admissionSeal →
    q.candidate.inst = p.inst → Spares C v p q.candidate

/-- No two accepted operations have one digest. -/
def Collisionless (s : State) : Prop := ∀ (i : Instance) (v : InstanceState), s.instances[i]? = some v → NoCollision C v

/-- Every write whose seal is waited for opposes nothing accepted. -/
def Waiting (s : State) : Prop := ∀ (k : ℕ) (q : PendingVerification), s.queries[k]? = some q →
  q.query.mode = .admissionSeal → ∀ v, s.instances[q.candidate.inst]? = some v → Unopposed C v q.candidate

variable {C} {s₀ s s' : State} {e : Event} {effects : List Effect} {v v' : InstanceState} {p : CommitPlan}
  {c : Candidate}

theorem Unopposed.congr (h : Unopposed C v c) (hs : SameCustody v v') : Unopposed C v' c := by
  obtain ⟨hslot, hquarantine, hdeps⟩ := h
  refine ⟨by rwa [hs.accepted], by rwa [Quarantined, hs.quarantine], fun dep hdep => ?_⟩
  obtain ⟨a, ha, hsat, helig⟩ := hdeps dep hdep
  exact ⟨a, hs.accepted ▸ ha, hsat, by rwa [eligible_congr hs.accepted hs.quarantine]⟩

/-- A plan that convicts nothing at or below an operation does not quarantine it. -/
theorem not_quarantined_installed (hist : History C p.inst v) (hplanned : Planned C v p) (revision : ℕ) {o : Op}
    (h : ¬ Quarantined v o) (hspared : ∀ f ∈ p.qualifiedForks, ¬ Hits f o) :
    ¬ Quarantined (installed C v p revision) o := by
  rintro ⟨floor, hfloor, hle⟩
  have hleast := (hist.installed hplanned revision).floors o.origin
  rw [Option.mem_def.mp hfloor] at hleast
  obtain ⟨⟨f, hf, horigin, hseq⟩, -⟩ := hleast
  rw [installed_qualifiedForks] at hf
  rcases mem_addNew.mp hf with hf | hf
  · have hmem : floor ∈ convictedSeqs v.qualifiedForks o.origin := ⟨f, hf, horigin, hseq⟩
    have hold := hist.floors o.origin
    cases hq : v.quarantine[o.origin]? with
    | none =>
      rw [hq] at hold
      rw [show convictedSeqs v.qualifiedForks o.origin = ∅ from hold] at hmem
      exact hmem.elim
    | some n =>
      rw [hq] at hold
      exact h ⟨n, hq, (hold.2 hmem).trans hle⟩
  · exact hspared f hf ⟨horigin, hseq.trans_le hle⟩

/-- The causal past of a spared candidate stays what it was: an operation that came
to one of its slots would be convicted there. -/
theorem past_installed (hist : History C p.inst v) (hplanned : Planned C v p) (revision : ℕ) (hspares : Spares C v p c)
    {a b : Accepted} (ha : a ∈ v.accepted) (hdep₀ : ∃ dep ∈ dependencies c, Satisfies C dep a)
    (h : Relation.ReflTransGen (Names C (installed C v p revision)) a b) : Relation.ReflTransGen (Names C v) a b := by
  induction h with
  | refl => exact .refl
  | @tail b b' _ hnames ih =>
    obtain ⟨hb', dep, hdep, hsat⟩ := hnames
    by_cases hold : b' ∈ v.accepted
    · exact ih.tail ⟨hold, dep, hdep, hsat⟩
    exfalso
    have hbmem : b ∈ v.accepted := by
      rcases ih.cases_tail with rfl | ⟨_, -, hb, -⟩
      · exact ha
      · exact hb
    obtain ⟨k, hk⟩ := List.mem_iff_getElem?.mp hbmem
    obtain ⟨j, -, d, hd, hsat'⟩ := hist.closed k b hk dep hdep
    have hdmem := List.mem_of_getElem? hd
    have hdpast : InPast C v c d := ⟨a, ha, hdep₀, ih.tail ⟨hdmem, dep, hdep, hsat'⟩⟩
    have hslot : slot d.candidate = slot b'.candidate := hsat'.1.trans hsat.1.symm
    cases hplanned with
    | convicts haccept hforks =>
      rw [installed_accepted_of_nil v p revision haccept] at hb'
      exact hold hb'
    | accepts x c' haccept hinst hslot' hop hform hmet hforks =>
      rw [installed_accepted_of_single v p revision haccept] at hb'
      split_ifs at hb' with hknown
      · exact hold hb'
      rcases List.mem_append.mp hb' with hb' | hb'
      · exact hold hb'
      obtain rfl := List.mem_singleton.mp hb'
      have hrival : ({ first := d.candidate, second := c' } : ForkEvidence) ∈ p.qualifiedForks := by
        rw [hforks]
        refine mem_rivals.mpr ⟨d, hdmem, hslot.trans hslot'.symm, fun heq => hknown ⟨d, hdmem, ?_⟩, rfl⟩
        rw [heq, hop]
      exact hspares.past _ hrival d hdpast ⟨rfl, le_rfl⟩

/-- A spared write is still unopposed. -/
theorem Unopposed.installed (hist : History C p.inst v) (hnc : NoCollision C v) (hplanned : Planned C v p)
    (h : Unopposed C v c) (hspares : Spares C v p c) (revision : ℕ) : Unopposed C (installed C v p revision) c := by
  obtain ⟨hslot, hquarantine, hdeps⟩ := h
  refine ⟨fun b hb => ?_, not_quarantined_installed hist hplanned revision hquarantine hspares.own, fun dep hdep => ?_⟩
  · cases hplanned with
    | convicts haccept hforks =>
      rw [installed_accepted_of_nil v p revision haccept] at hb
      exact hslot b hb
    | accepts a c' haccept hinst hslot' hop hform hmet hforks =>
      rw [installed_accepted_of_single v p revision haccept] at hb
      split_ifs at hb
      · exact hslot b hb
      rcases List.mem_append.mp hb with hb | hb
      · exact hslot b hb
      · obtain rfl := List.mem_singleton.mp hb
        exact hspares.slot a (by simp [haccept])
  · obtain ⟨a, ha, hsat, helig⟩ := hdeps dep hdep
    have hclean := clean_of_mem_eligible hist hnc ha helig
    have ha' := accepted_subset_installed hplanned revision a ha
    obtain ⟨k, hk⟩ := List.mem_iff_getElem?.mp ha'
    refine ⟨a, ha', hsat, mem_eligible_of_clean (hist.installed hplanned revision) k a hk fun b hb => ?_⟩
    have hpast := past_installed hist hplanned revision hspares ha ⟨dep, hdep, hsat⟩ hb
    exact not_quarantined_installed hist hplanned revision (hclean b hpast) fun f hf =>
      hspares.past f hf b ⟨a, ha, ⟨dep, hdep, hsat⟩, hpast⟩

theorem Waiting.of_custody (h : Waiting C s) (hc : ∀ i : Instance, Option.Rel SameCustody s.instances[i]? s'.instances[i]?)
    (hq : ∀ (k : ℕ) (q : PendingVerification), s'.queries[k]? = some q → s.queries[k]? = some q ∨
      (q.query.mode = .admissionSeal → ∀ v, s'.instances[q.candidate.inst]? = some v → Unopposed C v q.candidate)) :
    Waiting C s' := by
  intro k q hk hseal v' hv'
  rcases hq k q hk with hk | hk
  · obtain ⟨v, hv, hs⟩ := custody_some (hv' ▸ hc q.candidate.inst)
    exact (h k q hk hseal v hv).congr hs
  · exact hk hseal v' hv'

theorem Waiting.move (hspares : SparesSeals C s₀ e) (hnc : Collisionless C s₀) (hist : Histories C s) (h : Waiting C s)
    (hm : Move C s₀ e s effects s') (htells : Tells C s₀ e s s') : Waiting C s' := by
  cases hm.shape hist.flight with
  | quiet hq => exact h.of_custody hq.custody fun k q hk => .inl (hq.queries k q hk)
  | verify c v mode hv hform hmode =>
    refine h.of_custody (fun i => custody_refl _) fun k q hk => ?_
    rcases queries_queried hk with rfl | hk
    · refine .inr fun hseal => ?_
      change mode = .admissionSeal at hseal
      rcases hmode with rfl | rfl <;> cases hseal
    · exact .inl hk
  | sealing v q f cut hby hv =>
    refine h.of_custody (fun i => custody_refl _) fun k q' hk => ?_
    rcases queries_queried hk with rfl | hk
    · refine .inr fun _ v' hv' => ?_
      obtain rfl := Option.some.inj (hv'.symm.trans hv)
      exact hby.unopposed
    · exact .inl hk
  | stage v p q hv hidle hj hv₀ => exact h.of_custody (fun i => custody_refl _) fun k q hk => .inl hk
  | installed t p v revision he hend hp hcommitted hv =>
    have hinstalls : installs C s₀ e = some p := htells t p he hend hcommitted hp (by simp [State.modify, State.ended])
    obtain ⟨v', hv', hplanned⟩ := hist.planned _ p (inFlight_of_planOf hp)
    obtain rfl := Option.some.inj (hv'.symm.trans hv)
    intro k q hk hseal w hw
    have hk₀ : s₀.queries[k]? = some q := hend.queries ▸ hk
    have hv₀ : s₀.instances[p.inst]? = some v' := hend.instances ▸ hv
    rcases instances_installed hv hw with ⟨hi, rfl⟩ | ⟨-, hw⟩
    · have hopposed := h k q hk hseal v' (by rw [hi]; exact hv)
      exact hopposed.installed (hist.history p.inst v' hv) (hnc p.inst v' hv₀) hplanned
        (hspares p v' hinstalls hv₀ k q hk₀ hseal hi) revision
    · exact h k q hk hseal w hw

/-- A plan is prepared only for the reasons there are. -/
theorem Moves.prepare_justified (h : Moves C s₀ e s effects s') {q : PrepareRequest} (hp : .prepare p q ∈ effects) :
    ∃ v, s₀.instances[p.inst]? = some v ∧ Justified C s₀ e v p := by
  induction h with
  | refl s => simp at hp
  | cons hm hrest ih =>
    rcases List.mem_append.mp hp with hp | hp
    · cases hm with
      | stage v p' q' hv hidle hidle₀ hid hrevision hj hv₀ hb hinv =>
        obtain ⟨rfl, rfl⟩ := Effect.prepare.inj (List.mem_singleton.mp hp)
        exact ⟨v, hv₀, hj⟩
      | silent effect hsilent =>
        rw [← List.mem_singleton.mp hp] at hsilent
        exact hsilent.elim
      | receipt i v a hv ha effect heffect => rcases heffect with rfl | rfl <;> simp at hp
      | installed t p' v revision storage receipts startCut recovering he hend hp' hout hv hrevision hused =>
        rw [installReports] at hp
        split_ifs at hp <;> simp at hp
      | _ => simp at hp
    · exact ih hp

/-- When every step that installs a plan spares the writes whose seals are waited
for, every local write is staged at a free slot, below its origin's floor, with
eligible dependencies. -/
theorem local_writes_unopposed (hfresh : Fresh s₀) (events : List Event)
    (hdigest : Along C (fun s _ => Collisionless C s) s₀ events) (h : Along C (SparesSeals C) s₀ events)
    {before after : List Event} {e : Event} (hevents : events = before ++ e :: after) {q : PrepareRequest}
    (hp : .prepare p q ∈ (step C (run C s₀ before) e).2) (hlocal : p.localPrecondition.isSome) :
    p.kind ≠ .qualifiedFork ∧ ∃ v, (run C s₀ before).instances[p.inst]? = some v ∧
      ∀ a ∈ p.acceptances, Unopposed C v a.candidate := by
  subst hevents
  have hboth : Along C (fun s e => SparesSeals C s e ∧ Collisionless C s) s₀ before := by
    intro pre e' post hpre
    rw [hpre, List.append_assoc] at h hdigest
    exact ⟨h pre e' _ rfl, hdigest pre e' _ rfl⟩
  have hwaiting : Waiting C (run C s₀ before) :=
    along_invariant (I := fun _ s => Waiting C s) hfresh (by simp [Waiting, hfresh.queries]) (fun _ _ _ h => h)
      (fun _ _ _ _ _ hcond _ _ hist h hm htells => h.move hcond.1 hcond.2 hist hm htells) hboth
  obtain ⟨v, hv, hj⟩ := (moves_step (C := C) (run C s₀ before) e).prepare_justified hp
  cases hj with
  | sealed w f verify admission hby hinst hcut haccept hforks hkind =>
    have hopposed := hwaiting w.query.id w hby.asked hby.sealing v hby.known
    have hrivals : rivals v w.candidate = [] := by
      rw [List.eq_nil_iff_forall_not_mem]
      intro f hf
      obtain ⟨b, hb, hslot, -⟩ := mem_rivals.mp hf
      exact hopposed.1 b hb hslot
    refine ⟨by rw [hkind, if_pos hrivals]; simp, v, hv, fun a ha => ?_⟩
    rw [haccept, List.mem_singleton] at ha
    subst ha
    exact hopposed
  | historical w f admission hby hmode hadmitted hadmission hinst hcut haccept hforks hkind => simp [hcut] at hlocal
  | kept hcut haccept hforks hkind => simp [hcut] at hlocal
  | convicted pair first second hfirst hsecond hfc hsc hslot hne hcut haccept hforks hkind => simp [hcut] at hlocal

/-- A write that waits for its seal while its slot is taken is staged as a fork of its
own history, whatever the hash is. -/
theorem local_write_forks : ¬ ∃ C : Crypto, ∀ (s₀ : State) (events : List Event) (e : Event) (p : CommitPlan)
    (q : PrepareRequest), Fresh s₀ → .prepare p q ∈ (step C (run C s₀ events) e).2 → p.localPrecondition.isSome →
      p.kind ≠ .qualifiedFork := by
  rintro ⟨C, h⟩
  obtain ⟨before, batch, charges, q, s', v, hv, hbound, hrivals, hnew, hadmitted⟩ := overtaken C
  refine h (desk C) before (.evidenceResolved (sealingReply C)) _ q (fresh_desk C)
    (by rw [hadmitted.staged]; exact List.mem_singleton.mpr rfl) rfl ?_
  exact if_neg hrivals

/-- A step that brings no terminal installs nothing. -/
theorem sparesSeals_of_terminal (h : e.terminal = none) (s : State) : SparesSeals C s e := by
  intro p v hinstalls
  rw [installs, h] at hinstalls
  cases hinstalls

theorem collisionless_of_instances (h : s.instances = (desk C).instances) : Collisionless C s := by
  intro i v hv a ha
  rw [h] at hv
  rw [(fresh_desk C).accepted i v hv] at ha
  cases ha

/-- A plan of another origin's first operation spares the first write. -/
theorem sparesSeals_crossing {s : State} {batch : Bytes} {charges : Charges}
    (hinstalls : installs C s e = some (crossingPlan C .beside [] batch charges))
    (honly : ∀ (k : ℕ) (w : PendingVerification), s.queries[k]? = some w → w = sealing C .first [] [] (firstCut C) 0 1) :
    SparesSeals C s e := by
  intro p v hp _ k w hk _ _
  rw [hinstalls] at hp
  obtain rfl := Option.some.inj hp
  obtain rfl := honly k w hk
  have hforks : (crossingPlan C .beside [] batch charges).qualifiedForks = [] := by
    simp [crossingPlan, plot, planOf, rivals, blank, InstanceState.opened]
  refine ⟨fun a ha hslot => ?_, by simp [hforks], by simp [hforks]⟩
  rw [List.mem_singleton.mp ha] at hslot
  have horigin : Stroke.beside.origin = Stroke.first.origin := congrArg Slot.origin hslot
  exact absurd horigin (by decide)

/-- An operation of another origin is installed while the first write waits for its
seal: the write is staged, and opposes nothing. -/
theorem local_writes_unopposed_desk : (∀ C, Fresh (desk C)) ∧ ∀ C : Crypto, ∃ before e p q,
    (installsOf C (desk C) before).length = 1 ∧ .prepare p q ∈ (step C (run C (desk C) before) e).2 ∧
      p.localPrecondition.isSome ∧ p.kind ≠ .qualifiedFork ∧
      ∃ v, (run C (desk C) before).instances[p.inst]? = some v ∧ ∀ a ∈ p.acceptances, Unopposed C v a.candidate := by
  refine ⟨fresh_desk, fun C => ?_⟩
  have hwhich : Stroke.beside ≠ .first := by simp
  have hnil : ([] : Bytes).length ≤ 2 ^ 20 := Nat.zero_le _
  obtain ⟨batch, charges, q, s', hfirst, batch', charges', q', s'', hsecond⟩ := crossed C hwhich hnil
  obtain ⟨-, hroom⟩ := room_crossing C hwhich hnil
  set p := crossingPlan C .beside [] batch charges with hp
  have hrun := hfirst.run_crossing hwhich hnil
  have haccepted := accepted_first (C := C) (p := p) rfl ((blank C).revision + 1)
  have hcollisionless : Collisionless C s' := by
    intro i w hw
    obtain ⟨-, rfl⟩ := hfirst.room.eq_of_known hw
    simp [NoCollision, haccepted]
  have hdesk : ∀ {s : State}, s.instances = (desk C).instances → Collisionless C s := collisionless_of_instances
  have hkind : p.kind ≠ .candidate := plot_kind _ _ _ _ _ _ _ _ _ _
  have hdigest : Along C (fun s _ => Collisionless C s) (desk C)
      (crossingRun C .beside [] p q ++ [.evidenceResolved (sealingReply C)]) := by
    refine Along.append (Along.append (along_crossing (hdesk rfl) (fun _ => hdesk rfl) (hdesk rfl)) ?_) ?_
    · rw [run_crossing C hwhich hnil]
      exact along_admitting hroom (by omega) hfirst hkind (hdesk rfl) (hdesk rfl) fun _ _ => hdesk rfl
    · rw [hrun]
      exact .cons hcollisionless along_nil
  have hspares : Along C (SparesSeals C) (desk C) (crossingRun C .beside [] p q ++ [.evidenceResolved (sealingReply C)]) := by
    refine Along.append (Along.append (along_crossing (sparesSeals_of_terminal rfl _) (fun _ => sparesSeals_of_terminal rfl _)
      (sparesSeals_of_terminal rfl _)) ?_) (.cons (sparesSeals_of_terminal rfl _) along_nil)
    rw [run_crossing C hwhich hnil]
    exact along_admitting hroom (by omega) hfirst hkind (sparesSeals_of_terminal rfl _) (sparesSeals_of_terminal rfl _)
      fun _ hinstalls => sparesSeals_crossing hinstalls fun k w hk => only_seal hk
  have hprepare : .prepare (sealedPlan C (installed C (blank C) p 1) s'.nextEffectId batch' charges') q' ∈
      (step C (run C (desk C) (crossingRun C .beside [] p q)) (.evidenceResolved (sealingReply C))).2 := by
    rw [hrun, hsecond.staged]
    exact List.mem_singleton.mpr rfl
  obtain ⟨hplain, hopposed⟩ := local_writes_unopposed (C := C) (fresh_desk C) _ hdigest hspares rfl hprepare rfl
  refine ⟨_, _, _, q', ?_, hprepare, rfl, hplain, hopposed⟩
  have hcrossing : installsOf C (desk C) (crossing C .beside []) = [] := rfl
  rw [crossingRun, installsOf_append, hcrossing, run_crossing C hwhich hnil, hfirst.installs]
  rfl

end Glade.Kernel
