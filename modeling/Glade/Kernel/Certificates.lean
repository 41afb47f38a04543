import Glade.Kernel.Along
import Glade.Kernel.Room

/-! The certificates of origins. A verify reply is compared with the certificate its
origin has; the answer to a seal, which comes later, is not. -/

namespace Glade.Kernel

open Wire Node OrdMap

variable (C : Crypto)

/-- A seal that is answered while no plan is in flight finds its origin without a
certificate, or with the one that was verified. -/
def SealBinds (s : State) (e : Event) : Prop := ∀ v q f verify admission, SealedBy C s e v q f verify admission →
  s.plans q.candidate.inst = [] → ∀ old ∈ v.canonicalOrigins[f.certificate.canonicalOrigin]?, old = f.certificate

/-- Whether a certificate may be bound beside the ones there are. -/
def Binds (v : InstanceState) (o : Op) (cert : OriginCertificate) : Prop :=
  cert.canonicalOrigin = o.origin ∧ ∀ old ∈ v.canonicalOrigins[o.origin]?, old = cert

/-- Every accepted operation has its origin's certificate, and every operation in
flight may be bound to the one it was verified with. -/
structure Certified (s : State) : Prop where
  accepted : ∀ (i : Instance) (v : InstanceState), s.instances[i]? = some v → ∀ a ∈ v.accepted,
    v.canonicalOrigins[a.candidate.operation.origin]? = some a.facts.certificate
  queried : ∀ (k : ℕ) (q : PendingVerification), s.queries[k]? = some q →
    q.query.operation = q.candidate.operation ∧ ∀ f, q.verified = some f →
      f.certificate.canonicalOrigin = q.candidate.operation.origin
  planned : ∀ n p, InFlight s n p → ∀ v, s.instances[p.inst]? = some v → ∀ a ∈ p.acceptances,
    Binds v a.candidate.operation a.facts.certificate

variable {C} {s₀ s s' : State} {e : Event} {effects : List Effect} {v v' : InstanceState} {p : CommitPlan}

theorem Fresh.certified (h : Fresh s) : Certified s := by
  refine ⟨fun i v hv => ?_, by simp [h.queries], by simp [InFlight, h.commits, h.unknownCommits]⟩
  rw [h.accepted i v hv]
  simp

/-- What a plan binds when it is staged in a step that meets the condition. -/
theorem Certified.justified (h : Certified s₀) (hseal : SealBinds C s₀ e) (hidle : s₀.plans p.inst = [])
    (hj : Justified C s₀ e v p) : ∀ a ∈ p.acceptances, Binds v a.candidate.operation a.facts.certificate := by
  intro a ha
  cases hj with
  | historical q f admission hby hmode hadmitted hadmission hinst hcut haccept hforks hkind =>
    rw [haccept, List.mem_singleton] at ha
    subst ha
    obtain ⟨hop, -⟩ := h.queried q.query.id q hby.asked
    obtain ⟨-, -, -, -, horigin, -⟩ := hby.attributable
    rw [hop] at horigin
    refine ⟨horigin, ?_⟩
    change ∀ old ∈ v.canonicalOrigins[q.candidate.operation.origin]?, old = f.certificate
    rw [← horigin]
    exact hby.bindable.1
  | sealed q f verify admission hby hinst hcut haccept hforks hkind =>
    rw [haccept, List.mem_singleton] at ha
    subst ha
    obtain ⟨-, hfacts⟩ := h.queried q.query.id q hby.asked
    have horigin := hfacts f hby.facts
    refine ⟨horigin, ?_⟩
    change ∀ old ∈ v.canonicalOrigins[q.candidate.operation.origin]?, old = f.certificate
    rw [← horigin]
    exact hseal v q f verify admission hby (hinst ▸ hidle)
  | kept hcut haccept hforks hkind => simp [haccept] at ha
  | convicted pair first second hfirst hsecond hfc hsc hslot hne hcut haccept hforks hkind => simp [haccept] at ha

/-- What a move keeps that leaves every instance in its custody. -/
theorem Certified.of_custody (h : Certified s)
    (hc : ∀ i : Instance, Option.Rel SameCustody s.instances[i]? s'.instances[i]?)
    (hq : ∀ (k : ℕ) (q : PendingVerification), s'.queries[k]? = some q → s.queries[k]? = some q ∨
      q.query.operation = q.candidate.operation ∧ ∀ f, q.verified = some f →
        f.certificate.canonicalOrigin = q.candidate.operation.origin)
    (hp : ∀ n p, InFlight s' n p → InFlight s n p ∨ ∀ v, s'.instances[p.inst]? = some v → ∀ a ∈ p.acceptances,
      Binds v a.candidate.operation a.facts.certificate) : Certified s' := by
  refine ⟨fun i v' hv' => ?_, fun k q hk => ?_, fun n p hn v' hv' => ?_⟩
  · obtain ⟨v, hv, hs⟩ := custody_some (hv' ▸ hc i)
    rw [hs.accepted, hs.canonicalOrigins]
    exact h.accepted i v hv
  · exact (hq k q hk).elim (h.queried k q) id
  · rcases hp n p hn with hn | hn
    · obtain ⟨v, hv, hs⟩ := custody_some (hv' ▸ hc p.inst)
      simp only [Binds, hs.canonicalOrigins]
      exact h.planned n p hn v hv
    · exact hn v' hv'

/-- An installed plan keeps every certificate that is bound. -/
theorem installed_keeps_certificate (hplanned : Planned C v p)
    (hbinds : ∀ a ∈ p.acceptances, Binds v a.candidate.operation a.facts.certificate) (revision : ℕ) {origin : String}
    {cert : OriginCertificate} (h : v.canonicalOrigins[origin]? = some cert) :
    (installed C v p revision).canonicalOrigins[origin]? = some cert := by
  cases hplanned with
  | convicts haccept hforks => rwa [installed_canonicalOrigins_of_nil v p revision haccept]
  | accepts a c haccept hinst hslot hop hform hmet hforks =>
    rw [installed_canonicalOrigins_of_single v p revision haccept]
    split_ifs
    · exact h
    · obtain ⟨horigin, hold⟩ := hbinds a (by simp [haccept])
      rw [Std.ExtTreeMap.getElem?_insert]
      split_ifs with heq
      · rw [Std.LawfulEqOrd.compare_eq_iff_eq, horigin] at heq
        rw [hold cert (heq ▸ h)]
      · exact h

/-- After it every accepted operation has its origin's certificate. -/
theorem installed_certified (hplanned : Planned C v p)
    (hbinds : ∀ a ∈ p.acceptances, Binds v a.candidate.operation a.facts.certificate)
    (haccepted : ∀ a ∈ v.accepted, v.canonicalOrigins[a.candidate.operation.origin]? = some a.facts.certificate)
    (revision : ℕ) : ∀ a ∈ (installed C v p revision).accepted,
      (installed C v p revision).canonicalOrigins[a.candidate.operation.origin]? = some a.facts.certificate := by
  intro b hb
  by_cases hold : b ∈ v.accepted
  · exact installed_keeps_certificate hplanned hbinds revision (haccepted b hold)
  cases hplanned with
  | convicts haccept hforks =>
    rw [installed_accepted_of_nil v p revision haccept] at hb
    exact absurd hb hold
  | accepts a c haccept hinst hslot hop hform hmet hforks =>
    rw [installed_accepted_of_single v p revision haccept] at hb
    rw [installed_canonicalOrigins_of_single v p revision haccept]
    split_ifs at hb ⊢ with hknown
    · exact absurd hb hold
    · rcases List.mem_append.mp hb with hb | hb
      · exact absurd hb hold
      · obtain rfl := List.mem_singleton.mp hb
        obtain ⟨horigin, -⟩ := hbinds a (by simp [haccept])
        rw [Std.ExtTreeMap.getElem?_insert]
        exact if_pos (Std.LawfulEqOrd.compare_eq_iff_eq.mpr horigin)

theorem Certified.move (h₀ : Certified s₀) (hseal : SealBinds C s₀ e) (hist : Histories C s) (h : Certified s)
    (hm : Move C s₀ e s effects s') : Certified s' := by
  cases hm.shape hist.flight with
  | quiet hq => exact h.of_custody hq.custody (fun k q hk => .inl (hq.queries k q hk)) fun n p hn => .inl (hq.plans n p hn)
  | verify c v mode hv hform hmode =>
    refine h.of_custody (fun i => custody_refl _) (fun k q hk => ?_) fun n p hn => .inl hn
    rcases queries_queried hk with rfl | hk
    · exact .inr ⟨rfl, by simp⟩
    · exact .inl hk
  | sealing v q f cut hby hv =>
    refine h.of_custody (fun i => custody_refl _) (fun k q' hk => ?_) fun n p hn => .inl hn
    rcases queries_queried hk with rfl | hk
    · obtain ⟨hop, -⟩ := h₀.queried q.query.id q hby.asked
      obtain ⟨-, -, -, -, horigin, -⟩ := hby.attributable
      refine .inr ⟨hop, fun f' hf' => ?_⟩
      obtain rfl := Option.some.inj hf'
      rw [horigin, hop]
    · exact .inl hk
  | stage v p q hv hidle hj hv₀ =>
    refine h.of_custody (fun i => custody_refl _) (fun k q hk => .inl hk) fun n p' hn => ?_
    rcases inFlight_staged hn with ⟨-, rfl⟩ | hn
    · refine .inr fun v' hv' => ?_
      obtain rfl := Option.some.inj (hv'.symm.trans hv)
      exact h₀.justified hseal hidle hj
    · exact .inl hn
  | installed t p v revision he hend hp hcommitted hv =>
    have hflying := inFlight_of_planOf hp
    obtain ⟨v', hv', hplanned⟩ := hist.planned _ p hflying
    obtain rfl := Option.some.inj (hv'.symm.trans hv)
    have hbinds := h.planned _ p hflying v' hv
    refine ⟨fun i w hw => ?_, h.queried, fun n p' hn w hw => ?_⟩
    · rcases instances_installed hv hw with ⟨rfl, rfl⟩ | ⟨-, hw⟩
      · exact installed_certified hplanned hbinds (h.accepted p.inst v' hv) revision
      · exact h.accepted i w hw
    · obtain ⟨hne, hn⟩ := inFlight_ended.mp hn
      rcases instances_installed hv hw with ⟨hi, -⟩ | ⟨-, hw⟩
      · exact absurd (hist.flight.single n _ p' p hn hflying hi) hne
      · exact h.planned n p' hn w hw

/-! ### Every run -/

theorem run_certified (hfresh : Fresh s₀) {events : List Event} (h : Along C (SealBinds C) s₀ events) :
    Certified (run C s₀ events) :=
  along_invariant (I := fun _ s => Certified s) hfresh hfresh.certified (fun _ _ _ h => h)
    (fun _ _ _ _ _ hseal _ h₀ hist h hm _ => h₀.move hseal hist h hm) h

theorem step_keeps_certificates (hist : Histories C s) (h : Certified s) (e : Event) {i : Instance}
    (hv : s.instances[i]? = some v) : ∃ v', (step C s e).1.instances[i]? = some v' ∧
      ∀ (origin : String) (cert : OriginCertificate), v.canonicalOrigins[origin]? = some cert →
        v'.canonicalOrigins[origin]? = some cert := by
  obtain ⟨v', hv'⟩ := step_known (C := C) hist.flight e hv
  refine ⟨v', hv', fun origin cert hcert => ?_⟩
  obtain ⟨w, hw, ⟨hs, -⟩ | ⟨t, p, -, -, rfl, hin, hs⟩⟩ := step_instance hist.flight e hv'
  · obtain rfl := Option.some.inj (hw.symm.trans hv)
    rwa [hs.canonicalOrigins]
  · obtain rfl := Option.some.inj (hw.symm.trans hv)
    have hflying := inFlight_of_planOf hin.flying
    obtain ⟨w', hw', hplanned⟩ := hist.planned _ p hflying
    obtain rfl := Option.some.inj (hw'.symm.trans hw)
    rw [hs.canonicalOrigins]
    exact installed_keeps_certificate hplanned (h.planned _ p hflying w' hw) _ hcert

/-- When every seal that is answered finds its origin without a certificate or with
the one that was verified, a certificate once bound stays bound, and every accepted
operation was verified with its origin's. -/
theorem one_certificate (hfresh : Fresh s₀) (events more : List Event) (h : Along C (SealBinds C) s₀ (events ++ more))
    {i : Instance} (hv : (run C s₀ events).instances[i]? = some v) :
    (∀ a ∈ v.accepted, v.canonicalOrigins[a.candidate.operation.origin]? = some a.facts.certificate) ∧
      ∃ v', (run C s₀ (events ++ more)).instances[i]? = some v' ∧
        ∀ (origin : String) (cert : OriginCertificate), v.canonicalOrigins[origin]? = some cert →
          v'.canonicalOrigins[origin]? = some cert := by
  refine ⟨(run_certified hfresh h.of_append).accepted i v hv, ?_⟩
  induction more using List.reverseRecOn with
  | nil => exact ⟨v, by rwa [List.append_nil], fun _ _ h => h⟩
  | append_singleton more e ih =>
    rw [← List.append_assoc] at h ⊢
    obtain ⟨v', hv', hkept⟩ := ih h.init
    have hist : Histories C (run C s₀ (events ++ more)) := (reachable_run hfresh _).histories
    obtain ⟨v'', hv'', hkept'⟩ := step_keeps_certificates hist (run_certified hfresh h.init) e hv'
    rw [run_concat]
    exact ⟨v'', hv'', fun origin cert hcert => hkept' origin cert (hkept origin cert hcert)⟩

/-- A write that waits for its seal while its origin is bound to another certificate
binds it to its own, whatever the hash is. -/
theorem certificate_changes : ¬ ∃ C : Crypto, ∀ (s₀ : State) (events more : List Event) (i : Instance) (v v' : InstanceState)
    (origin : String) (cert : OriginCertificate), Fresh s₀ → (run C s₀ events).instances[i]? = some v →
      (run C s₀ (events ++ more)).instances[i]? = some v' → v.canonicalOrigins[origin]? = some cert →
      v'.canonicalOrigins[origin]? = some cert := by
  rintro ⟨C, h⟩
  obtain ⟨before, batch, charges, q, s', v, hv, hbound, hrivals, hnew, hadmitted⟩ := overtaken C
  have hafter := h (desk C) before _ (draft C).inst v _ "a" _ (fresh_desk C) hv
    (by rw [run_append, hadmitted.run]; exact hadmitted.room.known) hbound
  have hown := certificate_installed (C := C) (p := sealedPlan C v
    (run C (desk C) before).nextEffectId batch charges) rfl rfl hnew
    (v.revision + 1)
  rw [show Stroke.first.origin = "a" from rfl, hafter] at hown
  have hcanonical := congrArg OriginCertificate.canonical (Option.some.inj hown)
  cases hcanonical

theorem sealBinds_of_ne {s : State} {e : Event} (h : ∀ q admission, e ≠ .evidenceResolved ⟨q, .sealed admission⟩) :
    SealBinds C s e := fun _ _ _ _ _ hby => absurd hby.reply (h _ _)

/-- The seal of the first write, while no certificate of its origin is bound. -/
theorem sealBinds_sealing {s : State} (honly : ∀ (k : ℕ) (w : PendingVerification), s.queries[k]? = some w →
      w = sealing C .first [] [] (firstCut C) 0 1)
    (hunbound : ∀ v, s.instances[(draft C).inst]? = some v → v.canonicalOrigins[Stroke.first.origin]? = none) :
    SealBinds C s (.evidenceResolved (sealingReply C)) := by
  intro v w f verify admission hby _ old hold
  obtain rfl := honly _ w hby.asked
  obtain rfl : vouched C .first [] = f := Option.some.inj hby.facts
  rw [show (vouched C .first []).certificate.canonicalOrigin = Stroke.first.origin from rfl, hunbound v hby.known] at hold
  cases hold

/-- An operation of another origin is admitted while the first write waits for its seal,
and the write after it: each origin keeps its certificate. -/
theorem one_certificate_desk : (∀ C, Fresh (desk C)) ∧ ∀ C : Crypto, ∃ events more v v',
    .evidenceResolved (sealingReply C) ∈ more ∧ (run C (desk C) events).instances[(draft C).inst]? = some v ∧
      (run C (desk C) (events ++ more)).instances[(draft C).inst]? = some v' ∧ v.accepted.length = 1 ∧ v'.accepted.length = 2 ∧
      (∀ a ∈ v.accepted, v.canonicalOrigins[a.candidate.operation.origin]? = some a.facts.certificate) ∧
      ∀ (origin : String) (cert : OriginCertificate), v.canonicalOrigins[origin]? = some cert →
        v'.canonicalOrigins[origin]? = some cert := by
  refine ⟨fresh_desk, fun C => ?_⟩
  have hwhich : Stroke.beside ≠ .first := by simp
  have hnil : ([] : Bytes).length ≤ 2 ^ 20 := Nat.zero_le _
  obtain ⟨batch, charges, q, s', hfirst, batch', charges', q', s'', hsecond⟩ := crossed C hwhich hnil
  set p := crossingPlan C .beside [] batch charges
  set v := installed C (blank C) p 1
  set p' := sealedPlan C v s'.nextEffectId batch' charges'
  have hrun := hfirst.run_crossing hwhich hnil
  have haccepted : v.accepted = [_] := accepted_first (C := C) (p := p) rfl 1
  have hnew : ∀ old ∈ v.accepted, old.candidate.operation ≠ stroke .first := by
    rw [haccepted]
    intro old hold
    rw [List.mem_singleton.mp hold]
    exact stroke_ne_first hwhich
  have hbefore : Along C (SealBinds C) (desk C) (crossingRun C .beside [] p q) := by
    refine along_of_forall fun e he s => sealBinds_of_ne fun w admission heq => ?_
    subst heq
    simp only [crossingRun, crossing, submission, admitting, crossingReply, List.mem_append, List.mem_cons] at he
    rcases he with ((he | he | he) | he | he) | he | he
    case inr.inr => exact ne_evidence_of_storing he _ rfl
    all_goals cases he
  have hseal : SealBinds C s' (.evidenceResolved (sealingReply C)) := by
    refine sealBinds_sealing (fun k w hk => only_seal (hfirst.queries ▸ hk)) fun w hw => ?_
    obtain ⟨-, rfl⟩ := hfirst.room.eq_of_known hw
    rw [installed_canonicalOrigins_of_single (blank C) p _ rfl, if_neg (by simp [blank, InstanceState.opened])]
    have hother : ¬ compare Stroke.beside.origin Stroke.first.origin = .eq := by decide
    exact Std.ExtTreeMap.getElem?_insert.trans (if_neg hother)
  have hmore : Along C (SealBinds C) (run C (desk C) (crossingRun C .beside [] p q)) (admitting C s' (sealingReply C) p' q') := by
    rw [hrun]
    exact .cons hseal (along_of_forall fun e he s => sealBinds_of_ne fun w admission => ne_evidence_of_storing he _)
  obtain ⟨hcert, v', hv', hkept⟩ := one_certificate (fresh_desk C) _ _ (hbefore.append hmore) (hrun ▸ hfirst.room.known)
  refine ⟨_, _, v, v', List.mem_cons_self, hrun ▸ hfirst.room.known, hv', by rw [haccepted]; rfl, ?_, hcert, hkept⟩
  rw [run_append, hrun, hsecond.run, hsecond.room.known] at hv'
  rw [← Option.some.inj hv', accepted_installed (p := p') rfl hnew, haccepted]
  rfl

end Glade.Kernel
