import Glade.Kernel.Along
import Glade.Kernel.Room

/-! The authority of accepted operations: each is traced back through the requests
that were issued for it and the replies they had. -/

namespace Glade.Kernel

open Wire Node OrdMap

section Warrants

variable (C : Crypto) (s₀ : State) (events : List Event) (d : Descriptor)

/-- What a provider is asked of a candidate of the instance described by `d`. -/
structure AskedOf (c : Candidate) (q : Query) : Prop where
  inst : q.inst = c.inst
  descriptor : q.descriptor = d
  operation : q.operation = c.operation
  evidence : q.evidence = c.evidence

/-- A candidate of the form its instance's descriptor asks for, whose own query was
answered with facts that hold of it. -/
structure Verification (c : Candidate) (q : Query) (f : Facts) : Prop where
  formed : WellFormed C d c
  asked : AskedOf d c q
  answered : Happened C (fun s e => e = .evidenceResolved ⟨q, .verified f⟩ ∧
    s.queries[q.id]? = some { query := q, candidate := c, verified := none, verifiedQuery := none }) s₀ events
  attributable : Attributable q f
  payload : f.payloadValid = true
  permitted : SequencePermitted f c.operation

/-- What an acceptance is staged on: the admission it carried, or the seal of the
node that wrote it under the cut that was current. -/
inductive Warrant (cut : Option LocalPrecondition) (x : StagedAcceptance) : Prop where
  | historical (c : Candidate) (q : Query) (h : Verification C s₀ events d c q x.facts) (hmode : q.mode = .historical)
      (hadmitted : HistoricallyAdmitted c x.facts) (hx : x.candidate = c) (hcut : cut = none)
  | sealed (c : Candidate) (q : Query) (id : ℕ) (current : LocalPrecondition) (admission : Bytes)
      (h : Verification C s₀ events d c q x.facts) (hmode : q.mode.localCut = some current)
      (hallowed : x.facts.currentAllowed = true) (hinside : Inside x.facts.permitWindow current.time)
      (hseal : Happened C (fun s e => e = .evidenceResolved ⟨sealOf q x.facts id, .sealed admission⟩ ∧
        CurrentMatches C s c.inst current) s₀ events)
      (hx : x.candidate = { c with evidence := { c.evidence with admission := some admission } }) (hcut : cut = some current)

/-- How an operation entered the accepted ones: by the committed terminal of the plan
that accepts it, which started under the plan's cut. -/
structure Entered (i : Instance) (a : Accepted) (t : Terminal) (p : CommitPlan) (x : StagedAcceptance) : Prop where
  installed : Happened C (fun s e => e.terminal = some t ∧ installs C s e = some p) s₀ events
  inst : p.inst = i
  mem : x ∈ p.acceptances
  entry : a = x.entry
  committed : ∃ revision storage receipts, t.outcome = .committed revision storage receipts p.localPrecondition
  attempt : t.attempt.binding.plan.inst = i ∧ t.attempt.binding.prestart.map (fun s => s.cut) = p.localPrecondition
  warrant : Warrant C s₀ events d p.localPrecondition x

/-- A query without an answer: of a candidate, or of the seal of one that was
verified under its cut. -/
inductive Questioned (q : PendingVerification) : Prop where
  | verify (hform : WellFormed C d q.candidate) (hasked : AskedOf d q.candidate q.query)
      (hnone : q.verified = none ∧ q.verifiedQuery = none)
  | sealing (query : Query) (f : Facts) (id : ℕ) (cut : LocalPrecondition) (hquery : q.query = sealOf query f id)
      (hsome : q.verified = some f ∧ q.verifiedQuery = some query) (h : Verification C s₀ events d q.candidate query f)
      (hcut : query.mode.localCut = some cut) (hallowed : f.currentAllowed = true) (hinside : Inside f.permitWindow cut.time)

end Warrants

/-- The authority of what is asked, planned and accepted after a run. -/
structure Authority (C : Crypto) (s₀ : State) (events : List Event) (s : State) : Prop where
  queried : ∀ (k : ℕ) (q : PendingVerification), s.queries[k]? = some q → ∀ v, s.instances[q.candidate.inst]? = some v →
    Questioned C s₀ events v.descriptor q
  planned : ∀ n p, InFlight s n p → ∀ v, s.instances[p.inst]? = some v → ∀ x ∈ p.acceptances,
    Warrant C s₀ events v.descriptor p.localPrecondition x
  accepted : ∀ (i : Instance) (v : InstanceState), s.instances[i]? = some v → ∀ a ∈ v.accepted,
    ∃ t p x, Entered C s₀ events v.descriptor i a t p x

variable {C : Crypto} {s₀ s s' s₁ : State} {events : List Event} {e : Event} {effects : List Effect}
  {v v' : InstanceState} {p : CommitPlan} {d : Descriptor}

/-! ### Longer runs -/

theorem Verification.grow {c : Candidate} {q : Query} {f : Facts} (h : Verification C s₀ events d c q f) (e : Event) :
    Verification C s₀ (events ++ [e]) d c q f := { h with answered := h.answered.grow e }

theorem Warrant.grow {cut : Option LocalPrecondition} {x : StagedAcceptance} (h : Warrant C s₀ events d cut x) (e : Event) :
    Warrant C s₀ (events ++ [e]) d cut x := by
  cases h with
  | historical c q h hmode hadmitted hx hcut => exact .historical c q (h.grow e) hmode hadmitted hx hcut
  | sealed c q id current admission h hmode hallowed hinside hseal hx hcut =>
    exact .sealed c q id current admission (h.grow e) hmode hallowed hinside (hseal.grow e) hx hcut

theorem Questioned.grow {q : PendingVerification} (h : Questioned C s₀ events d q) (e : Event) :
    Questioned C s₀ (events ++ [e]) d q := by
  cases h with
  | verify hform hasked hnone => exact .verify hform hasked hnone
  | sealing query f id cut hquery hsome h hcut hallowed hinside =>
    exact .sealing query f id cut hquery hsome (h.grow e) hcut hallowed hinside

theorem Entered.grow {i : Instance} {a : Accepted} {t : Terminal} {x : StagedAcceptance}
    (h : Entered C s₀ events d i a t p x) (e : Event) : Entered C s₀ (events ++ [e]) d i a t p x :=
  { h with installed := h.installed.grow e, warrant := h.warrant.grow e }

theorem Authority.grow (h : Authority C s₀ events s) (e : Event) : Authority C s₀ (events ++ [e]) s := by
  refine ⟨fun k q hk v hv => (h.queried k q hk v hv).grow e, fun n p hn v hv x hx => (h.planned n p hn v hv x hx).grow e, ?_⟩
  intro i v hv a ha
  obtain ⟨t, p, x, hentered⟩ := h.accepted i v hv a ha
  exact ⟨t, p, x, hentered.grow e⟩

/-! ### Replies -/

/-- The answer to a query that has not been verified. -/
theorem Questioned.verification {q : PendingVerification} {f : Facts} (h : Questioned C s₀ events v.descriptor q)
    (hby : VerifiedBy C (run C s₀ events) e v q f) (hmode : q.query.mode ≠ .admissionSeal) :
    Verification C s₀ (events ++ [e]) v.descriptor q.candidate q.query f := by
  cases h with
  | sealing query f' id cut hquery hsome h hcut hallowed hinside =>
    exfalso
    rw [hquery] at hmode
    exact hmode rfl
  | verify hform hasked hnone =>
    refine ⟨hform, hasked, .last ⟨hby.reply, ?_⟩, hby.attributable, hby.payload, hby.permitted⟩
    rw [hby.asked, ← hnone.1, ← hnone.2]

/-- A plan's acceptances are warranted when it is staged. -/
theorem Authority.justified (h : Authority C s₀ events (run C s₀ events)) (hj : Justified C (run C s₀ events) e v p) :
    ∀ x ∈ p.acceptances, Warrant C s₀ (events ++ [e]) v.descriptor p.localPrecondition x := by
  intro x hx
  cases hj with
  | historical q f admission hby hmode hadmitted hadmission hinst hcut haccept hforks hkind =>
    rw [haccept, List.mem_singleton] at hx
    subst hx
    have hverification := (h.queried q.query.id q hby.asked v hby.known).verification hby (by rw [hmode]; simp)
    refine .historical q.candidate q.query hverification hmode hadmitted ?_ hcut
    rw [stagedAcceptance, ← hadmission]
  | sealed q f verify admission hby hinst hcut haccept hforks hkind =>
    rw [haccept, List.mem_singleton] at hx
    subst hx
    cases h.queried q.query.id q hby.asked v hby.known with
    | verify hform hasked hnone => cases hnone.1.symm.trans hby.facts
    | sealing query f' id cut hquery hsome hver hmode hallowed hinside =>
      obtain rfl : f' = f := Option.some.inj (hsome.1.symm.trans hby.facts)
      obtain rfl : query = verify := Option.some.inj (hsome.2.symm.trans hby.query)
      refine .sealed q.candidate query id cut admission (hver.grow e) hmode hallowed hinside (.last ⟨?_, ?_⟩) rfl ?_
      · rw [show (stagedAcceptance C v q.candidate f' query (some q.query) admission).facts = f' from rfl, ← hquery]
        exact hby.reply
      · rw [← hver.asked.inst]
        exact hby.current cut hmode
      · rw [hcut, hmode]
  | kept hcut haccept hforks hkind => simp [haccept] at hx
  | convicted pair first second hfirst hsecond hfc hsc hslot hne hcut haccept hforks hkind => simp [haccept] at hx

/-! ### Moves -/

theorem Authority.of_custody (h : Authority C s₀ events s)
    (hc : ∀ i : Instance, Option.Rel SameCustody s.instances[i]? s'.instances[i]?)
    (hq : ∀ (k : ℕ) (q : PendingVerification), s'.queries[k]? = some q → s.queries[k]? = some q ∨
      ∀ v, s'.instances[q.candidate.inst]? = some v → Questioned C s₀ events v.descriptor q)
    (hp : ∀ n p, InFlight s' n p → InFlight s n p ∨ ∀ v, s'.instances[p.inst]? = some v → ∀ x ∈ p.acceptances,
      Warrant C s₀ events v.descriptor p.localPrecondition x) : Authority C s₀ events s' := by
  refine ⟨fun k q hk v' hv' => ?_, fun n p hn v' hv' => ?_, fun i v' hv' => ?_⟩
  · rcases hq k q hk with hk | hk
    · obtain ⟨v, hv, hs⟩ := custody_some (hv' ▸ hc q.candidate.inst)
      rw [hs.descriptor]
      exact h.queried k q hk v hv
    · exact hk v' hv'
  · rcases hp n p hn with hn | hn
    · obtain ⟨v, hv, hs⟩ := custody_some (hv' ▸ hc p.inst)
      rw [hs.descriptor]
      exact h.planned n p hn v hv
    · exact hn v' hv'
  · obtain ⟨v, hv, hs⟩ := custody_some (hv' ▸ hc i)
    rw [hs.accepted, hs.descriptor]
    exact h.accepted i v hv

/-- What a committed terminal says of the plan its attempt is bound to. -/
theorem Ending.committed {t : Terminal} (h : Ending s₁ s t) (hp : s.planOf t.attempt.binding.plan = some p)
    (hv : s.instances[p.inst]? = some v) (hcommitted : t.outcome.isCommitted = true) :
    (∃ revision storage receipts, t.outcome = .committed revision storage receipts p.localPrecondition) ∧
      t.attempt.binding.plan.inst = p.inst ∧ t.attempt.binding.prestart.map (fun s => s.cut) = p.localPrecondition := by
  have hbound := h.bound p hp
  rw [binding, hv, Option.map_some] at hbound
  have hprestart : t.attempt.binding.prestart.map (fun s => s.cut) = p.localPrecondition := by
    rw [← Option.some.inj hbound]
    simp [Function.comp_def]
  have hvalid := h.valid
  cases hout : t.outcome with
  | nonCommit revision storage =>
    rw [hout] at hcommitted
    cases hcommitted
  | committed revision storage receipts startCut =>
    simp only [TerminalValid, hout, true_and] at hvalid
    obtain ⟨-, -, -, hstart⟩ := hvalid
    refine ⟨⟨revision, storage, receipts, ?_⟩, ?_, hprestart⟩
    · rw [hstart, hprestart]
    · rw [← Option.some.inj hbound]
      rfl

theorem Authority.move (h₀ : Authority C s₀ events (run C s₀ events)) (hist : Histories C s)
    (h : Authority C s₀ (events ++ [e]) s) (hm : Move C (run C s₀ events) e s effects s')
    (htells : Tells C (run C s₀ events) e s s') : Authority C s₀ (events ++ [e]) s' := by
  cases hm.shape hist.flight with
  | quiet hq => exact h.of_custody hq.custody (fun k q hk => .inl (hq.queries k q hk)) fun n p hn => .inl (hq.plans n p hn)
  | verify c v mode hv hform hmode =>
    refine h.of_custody (fun i => custody_refl _) (fun k q hk => ?_) fun n p hn => .inl hn
    rcases queries_queried hk with rfl | hk
    · refine .inr fun v' hv' => ?_
      obtain rfl := Option.some.inj (hv'.symm.trans hv)
      exact .verify hform ⟨rfl, rfl, rfl, rfl⟩ ⟨rfl, rfl⟩
    · exact .inl hk
  | sealing v q f cut hby hv =>
    refine h.of_custody (fun i => custody_refl _) (fun k q' hk => ?_) fun n p hn => .inl hn
    rcases queries_queried hk with rfl | hk
    · refine .inr fun v' hv' => ?_
      obtain rfl := Option.some.inj (hv'.symm.trans hv)
      have hmode : q.query.mode ≠ .admissionSeal := by
        intro hmode
        have hcut := hby.cut_eq
        rw [hmode] at hcut
        cases hcut
      exact .sealing q.query f s.nextEffectId cut rfl ⟨rfl, rfl⟩
        ((h₀.queried q.query.id q hby.asked v' hby.known).verification hby.toVerifiedBy hmode) hby.cut_eq hby.allowed
        hby.inside
    · exact .inl hk
  | stage v p q hv hidle hj hv₀ =>
    refine h.of_custody (fun i => custody_refl _) (fun k q hk => .inl hk) fun n p' hn => ?_
    rcases inFlight_staged hn with ⟨-, rfl⟩ | hn
    · refine .inr fun v' hv' => ?_
      obtain rfl := Option.some.inj (hv'.symm.trans hv)
      exact h₀.justified hj
    · exact .inl hn
  | installed t p v revision he hend hp hcommitted hv =>
    have hinstalls : installs C (run C s₀ events) e = some p :=
      htells t p he hend hcommitted hp (by simp [State.modify, State.ended])
    have hflying := inFlight_of_planOf hp
    obtain ⟨v', hv', hplanned⟩ := hist.planned _ p hflying
    obtain rfl := Option.some.inj (hv'.symm.trans hv)
    refine ⟨fun k q hk w hw => ?_, fun n p' hn w hw => ?_, fun i w hw a ha => ?_⟩
    · rcases instances_installed hv hw with ⟨hi, rfl⟩ | ⟨-, hw⟩
      · rw [installed_descriptor]
        exact h.queried k q hk v' (by rw [hi]; exact hv)
      · exact h.queried k q hk w hw
    · obtain ⟨hne, hn⟩ := inFlight_ended.mp hn
      rcases instances_installed hv hw with ⟨hi, -⟩ | ⟨-, hw⟩
      · exact absurd (hist.flight.single n _ p' p hn hflying hi) hne
      · exact h.planned n p' hn w hw
    · rcases instances_installed hv hw with ⟨rfl, rfl⟩ | ⟨-, hw⟩
      · rw [installed_descriptor]
        rcases mem_installed_accepted hplanned revision ha with ha | ⟨x, hx, rfl⟩
        · exact h.accepted p.inst v' hv a ha
        · obtain ⟨hout, hattempt⟩ := hend.committed hp hv hcommitted
          exact ⟨t, p, x, .last ⟨he, hinstalls⟩, rfl, hx, rfl, hout, hattempt, h.planned _ p hflying v' hv x hx⟩
      · exact h.accepted i w hw a ha

theorem Fresh.authority (h : Fresh s₀) : Authority C s₀ [] s₀ := by
  refine ⟨by simp [h.queries], by simp [InFlight, h.commits, h.unknownCommits], fun i v hv => ?_⟩
  rw [h.accepted i v hv]
  simp

theorem run_authority (hfresh : Fresh s₀) (events : List Event) : Authority C s₀ events (run C s₀ events) :=
  along_invariant (P := fun _ _ => True) hfresh hfresh.authority (fun _ e _ h => h.grow e)
    (fun _ _ _ _ _ _ _ h₀ hist h hm htells => h₀.move hist h hm htells) fun _ _ _ _ => trivial

/-! ### Begins -/

/-- An attempt is begun only while its cut is the instance's current one. -/
theorem Moves.begin_current (h : Moves C s₀ e s effects s') {b : BeginRequest} (hb : .begin b ∈ effects) :
    ∀ start ∈ b.request.attempt.binding.prestart, CurrentMatches C s₀ b.request.attempt.binding.plan.inst start.cut ∧
      b.current = start.cut := by
  induction h with
  | refl s => simp at hb
  | cons hm hrest ih =>
    rcases List.mem_append.mp hb with hb | hb
    · cases hm with
      | begin b' v hop hinst hinv hv hv₀ hcurrent hcut =>
        obtain rfl := Effect.begin.inj (List.mem_singleton.mp hb)
        intro start hstart
        obtain ⟨w, hw, hmatch⟩ := hcut start hstart
        obtain rfl := Option.some.inj (hv.symm.trans hw)
        refine ⟨⟨v, hinst ▸ hv₀, hmatch⟩, ?_⟩
        rw [hcurrent, hmatch.1, hmatch.2.1]
      | silent effect hsilent =>
        rw [← List.mem_singleton.mp hb] at hsilent
        exact hsilent.elim
      | receipt i v a hv ha effect heffect => rcases heffect with rfl | rfl <;> simp at hb
      | installed t p' v revision storage receipts startCut recovering he hend hp' hout hv hrevision hused =>
        rw [installReports] at hb
        split_ifs at hb <;> simp at hb
      | _ => simp at hb
    · exact ih hb

/-- Every accepted operation entered by the committed terminal of a plan with a
warrant for it, and stays as it entered; where it was written locally, its attempt
was begun only while the cut it was submitted under was current. -/
theorem admission_sound (hfresh : Fresh s₀) (events : List Event) {i : Instance}
    (hv : (run C s₀ events).instances[i]? = some v) :
    (∀ a ∈ v.accepted, ∃ t p x, Entered C s₀ events v.descriptor i a t p x ∧
      Along C (fun s e => ∀ b : BeginRequest, .begin b ∈ (step C s e).2 → b.request.attempt = t.attempt →
        ∀ cut ∈ p.localPrecondition, CurrentMatches C s i cut ∧ b.current = cut) s₀ events) ∧
      ∀ more, ∃ v', (run C s₀ (events ++ more)).instances[i]? = some v' ∧ v.accepted <+: v'.accepted := by
  refine ⟨fun a ha => ?_, fun more => run_accepted_prefix hfresh events more hv⟩
  obtain ⟨t, p, x, hentered⟩ := (run_authority hfresh events).accepted i v hv a ha
  refine ⟨t, p, x, hentered, fun before e after _ b hb hattempt cut hcut => ?_⟩
  obtain ⟨hinst, hprestart⟩ := hentered.attempt
  rw [← hprestart] at hcut
  obtain ⟨start, hstart, rfl⟩ := Option.map_eq_some_iff.mp hcut
  have hbegin := (moves_step (C := C) (run C s₀ before) e).begin_current hb start (hattempt ▸ hstart)
  rw [hattempt, hinst] at hbegin
  exact hbegin

theorem admission_sound_desk : (∀ C, Fresh (desk C)) ∧ ∀ C : Crypto, ∃ (events : List Event) (v : InstanceState),
    v.accepted ≠ [] ∧ ∀ a ∈ v.accepted, ∃ t p x, Entered C (desk C) events v.descriptor (draft C).inst a t p x := by
  refine ⟨fresh_desk, fun C => ?_⟩
  obtain ⟨events, v, a, hv, haccepted, -⟩ := first_accepted C
  refine ⟨events, v, by simp [haccepted], fun b hb => ?_⟩
  obtain ⟨t, p, x, hentered, -⟩ := (admission_sound (fresh_desk C) events hv).1 b hb
  exact ⟨t, p, x, hentered⟩

/-- The instance under a later policy. -/
def observed (v : InstanceState) (time : TimeInterval) : InstanceState :=
  { v with timeFloorMs := time.earliestMs, policy := [], policyTime := time }

/-- A plan in flight is left where it is by a new policy. -/
theorem Flying.observed {q : PrepareRequest} (hf : Flying s v p q) (h : Room C n s v) (time : TimeInterval) :
    Flying (s.modify (draft C).inst fun v => observed v time) (observed v time) p q :=
  { hf with
    binding := by
      have hinst : p.inst = (draft C).inst := by rw [hf.inst, h.descriptor]
      have hbinding := hf.binding
      rw [Kernel.binding, hinst, h.known] at hbinding
      rw [Kernel.binding, hinst, instances_modify, if_pos rfl, h.known]
      exact hbinding }

theorem Room.observed (h : Room C n s v) (time : TimeInterval) :
    Room C n (s.modify (draft C).inst fun v => observed v time) (observed v time) :=
  { h with
    known := by rw [instances_modify, if_pos rfl, h.known]; rfl
    alone := by
      show (s.instances.modify _ _).size ≤ 1
      rw [Std.ExtTreeMap.size_modify]
      exact h.alone }

/-- A later policy is taken, and nothing is fenced while there is no attempt. -/
theorem Room.step_observe (h : Room C n s v) (hnone : ∀ key : PlanKey, s.attempts[key]? = none) (time : TimeInterval)
    (htime : time.earliestMs ≤ time.latestMs) (hfloor : v.timeFloorMs ≤ time.earliestMs) :
    step C s (.observePolicy (draft C).inst [] time) = (s.modify (draft C).inst fun v => Kernel.observed v time, []) := by
  rw [step, observe, h.known]
  dsimp only
  rw [if_neg (by omega), List.filter_eq_nil_iff.mpr]
  · rfl
  · intro a ha
    obtain ⟨key, hkey⟩ := mem_values.mp ha
    rw [show (s.modify _ _).attempts = s.attempts from rfl, hnone] at hkey
    cases hkey

theorem happened_installs {P : Event → Prop}
    (h : Happened C (fun s e => P e ∧ installs C s e = some p) s₀ events) : p ∈ installsOf C s₀ events := by
  obtain ⟨before, e, after, rfl, -, hinstalls⟩ := h
  rw [installsOf_append, installsOf, hinstalls]
  simp

/-- A write whose attempt is fenced before it is begun is accepted all the same, when
storage had committed it, whatever the hash is. -/
theorem accepted_unbegun : ¬ ∃ C : Crypto, ∀ (s₀ : State) (events : List Event) (i : Instance) (v : InstanceState), Fresh s₀ →
    (run C s₀ events).instances[i]? = some v → ∀ a ∈ v.accepted, ∃ t p x, Entered C s₀ events v.descriptor i a t p x ∧
      ∀ cut ∈ p.localPrecondition, Happened C (fun s e => ∃ b : BeginRequest, .begin b ∈ (step C s e).2 ∧
        CurrentMatches C s i cut) s₀ events := by
  rintro ⟨C, h⟩
  have hnil : ([] : Bytes).length ≤ 2 ^ 20 := Nat.zero_le _
  obtain ⟨hrun, hquiet, hroom, hidle, hseal, -⟩ := room_sealing C
  obtain ⟨batch, charges, q, s', hadmitted⟩ := first_sealed C
  set p := sealedPlan C (blank C) 2 batch charges with hp
  set s₃ := ((sealingDesk C).answered 1).staged p q with hs₃
  have hroom₃ : Room C 3 s₃ (blank C) := (hroom.answered 1).staged p q
  have hflying₃ : Flying s₃ (blank C) p q := hadmitted.flying
  -- The time moves on, and the attempt is fenced.
  set later : TimeInterval := { earliestMs := 1, latestMs := 1 }
  have hobserve := hroom₃.step_observe (fun key => by simp [hs₃, State.staged, State.answered, sealingDesk, submittedDesk,
    State.queried, desk, State.opened]) later le_rfl (Nat.zero_le 1)
  have hroom₄ := hroom₃.observed later
  have hflying₄ := hflying₃.observed hroom₃ later
  set s₄ := s₃.modify (draft C).inst fun v => observed v later with hs₄
  have hstale : Stale C s₄ q := by
    have hbinding := hflying₄.binding
    have hinst : q.binding.plan.inst = (draft C).inst := hflying₄.planKey.1
    rw [binding, show p.inst = (draft C).inst from rfl, hroom₄.known, Option.map_some] at hbinding
    have hprestart : q.binding.prestart = some { cut := firstCut C, windows := [(vouched C .first []).permitWindow] } := by
      rw [← Option.some.inj hbinding]
      rfl
    rw [Stale, hprestart, hinst]
    refine decide_eq_true ?_
    rintro ⟨w, hw, -, htime, -⟩
    rw [hroom₄.known] at hw
    obtain rfl := Option.some.inj hw
    have hearliest := congrArg TimeInterval.earliestMs htime
    cases hearliest
  have hkind : p.kind ≠ .candidate := plot_kind _ _ _ _ _ _ _ _ _ _
  obtain ⟨hstored, hinstalls⟩ := hroom₄.stored (by omega) hflying₄ hkind
  have hsettled := hroom₄.settled (by omega) hflying₄ (nextOf C s₄ q) hkind rfl
    (staged_short C .first (blank C) hnil hnil (vouched C .first []) _ _ (by norm_num))
  have hnext : nextOf C s₄ q = .fence := if_pos hstale
  obtain ⟨recovering, hcommitted⟩ := hroom₄.committed (by omega) hflying₄ .fence hkind
  have hstaged : step C (sealingDesk C) (.evidenceResolved (sealingReply C)) = (s₃, [.prepare p q]) := hadmitted.staged
  set events := submission C ++ .evidenceResolved (sealingReply C) :: .observePolicy
    (draft C).inst [] later :: storing C s₄ q with hevents
  have hend : run C (desk C) events = committed C s₄ p q (nextOf C s₄ q) := by
    rw [hevents, run_append, hrun, run, List.foldl_cons, hstaged, List.foldl_cons, hobserve]
    exact hstored
  have hlog : installsOf C (desk C) events = [p] := by
    rw [hevents, installsOf_append, hrun, installsOf, hstaged, installsOf, hobserve, hinstalls]
    rfl
  have hprepared : step C s₄ (.prepareResolved ⟨q, .prepared (attemptOf q)⟩) = (begun s₄ q .fence,
    [.fence (resolveOf s₄ q .fence)]) :=
    (hroom₄.prepared (by omega) hflying₄).trans (if_pos hstale)
  have hbegins : ∀ x ∈ effectsOf C (desk C) events, ∀ b, x ≠ .begin b := by
    intro x hx b
    rw [hevents, effectsOf_append, hrun, effectsOf, hstaged, effectsOf, hobserve, storing, effectsOf, hprepared, hnext, effectsOf,
      step_resolved, show (committing s₄ q .fence).request.operation = .fence from rfl, hcommitted, effectsOf] at hx
    simp only [List.mem_append, List.mem_singleton, List.not_mem_nil, or_false, false_or, List.mem_map, installReports] at hx
    rcases hx with hx | rfl | rfl | hx | ⟨c, -, rfl⟩
    · exact hquiet x hx b
    · simp
    · simp
    · by_cases hbatch : p.kind = .acceptedBatch
      · rw [if_pos hbatch] at hx
        obtain ⟨a, -, rfl⟩ := List.mem_map.mp hx
        simp
      · rw [if_neg hbatch, List.mem_singleton] at hx
        rw [hx]
        simp
    · simp
  have haccepted : (stagedAcceptance C (blank C) (sketch C .first [] []) (vouched C .first [])
      (asking C .first [] [] (.localWrite (firstCut C).policy (firstCut C).time) 0)
      (some (sealing C .first [] [] (firstCut C) 0 1).query) [1]).entry ∈
        (installed C (observed (blank C) later) p ((observed (blank C) later).revision + 1)).accepted := by
    rw [installed_accepted_of_single _ _ _ rfl, if_neg (by simp [observed, blank, InstanceState.opened])]
    simp
  obtain ⟨t, p', x, hentered, hcurrent'⟩ := h (desk C) events (draft C).inst _ (fresh_desk C)
    (by rw [hend]; exact hsettled.known) _ haccepted
  have hmem := happened_installs hentered.installed
  rw [hlog, List.mem_singleton] at hmem
  obtain ⟨before, e, after, hsplit, b, hb, -⟩ := hcurrent' (firstCut C) (by rw [hmem]; rfl)
  refine hbegins (.begin b) ?_ b rfl
  rw [hsplit, effectsOf_append, effectsOf]
  exact List.mem_append_right _ (List.mem_append_left _ hb)

end Glade.Kernel
