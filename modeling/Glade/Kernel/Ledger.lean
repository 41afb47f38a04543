import Glade.Kernel.Installs
import Glade.Kernel.Room

/-! The ledger of a run: the numbers it issues, the plans it installs, and what an
instance is charged for them. -/

namespace Glade.Kernel

open Wire Node OrdMap

variable {C : Crypto} {s₀ s s' : State} {e : Event} {effects : List Effect}

/-! ### Numbers issued -/

/-- The numbers an effect carries for the first time. -/
def Effect.numbers : Effect → List ℕ
  | .verify q => [q.id]
  | .sealing q => [q.id]
  | .prepare p q => [p.id, q.invocation.number]
  | .recoverPlan q => [q.invocation.number]
  | .begin b => [b.request.invocation.number]
  | .fence q => [q.invocation.number]
  | .lookup q => [q.invocation.number]
  | _ => []

/-- Numbers that climb from `lo` and stay under `hi`. -/
structure Climbs (lo hi : ℕ) (l : List ℕ) : Prop where
  le : lo ≤ hi
  sorted : l.Pairwise (· < ·)
  within : ∀ n ∈ l, lo ≤ n ∧ n < hi

theorem Climbs.append {lo mid hi : ℕ} {l l' : List ℕ} (h : Climbs lo mid l) (h' : Climbs mid hi l') :
    Climbs lo hi (l ++ l') := by
  refine ⟨h.le.trans h'.le, List.pairwise_append.mpr ⟨h.sorted, h'.sorted, fun a ha b hb => ?_⟩, fun n hn => ?_⟩
  · have := h.within a ha
    have := h'.within b hb
    omega
  · have := h.le
    have := h'.le
    rcases List.mem_append.mp hn with hn | hn
    · have := h.within n hn
      omega
    · have := h'.within n hn
      omega

theorem Climbs.nil {lo hi : ℕ} (h : lo ≤ hi) : Climbs lo hi [] := ⟨h, .nil, by simp⟩

theorem Climbs.one (n : ℕ) : Climbs n (n + 1) [n] := ⟨Nat.le_succ n, by simp, by simp⟩

theorem Effect.Silent.numbers {effect : Effect} (h : effect.Silent) : effect.numbers = [] := by
  cases effect <;> first | rfl | exact h.elim

theorem numbers_installReports (p : CommitPlan) (recovering : Bool) (revision : ℕ) (storage : StorageClass) :
    (installReports C p recovering revision storage).flatMap Effect.numbers = [] := by
  rw [installReports]
  by_cases h : p.kind = .acceptedBatch
  · rw [if_pos h]
    simp [Effect.numbers]
  · rw [if_neg h]
    rfl

/-- The numbers a move issues are the next ones. -/
theorem Move.climbs (h : Move C s₀ e s effects s') :
    Climbs s.nextEffectId s'.nextEffectId (effects.flatMap Effect.numbers) := by
  cases h with
  | silent effect h => simpa [h.numbers] using Climbs.nil le_rfl
  | receipt i v a hv ha effect h => rcases h with rfl | rfl <;> exact .nil le_rfl
  | touch i f hf => exact .nil le_rfl
  | skip => exact .nil (Nat.le_succ _)
  | verify c v mode hv hnew hform hmode => exact .one _
  | answered p verdict he hp => exact .nil le_rfl
  | sealing v p f cut h hv => exact .one _
  | stage v p q hv hidle hidle₀ hid hrevision hj hv₀ hb hinv =>
    simp only [List.flatMap_cons, List.flatMap_nil, Effect.numbers, List.append_nil, hid, hinv]
    exact (Climbs.one s.nextEffectId).append (.one _)
  | recover q hinv =>
    simp only [List.flatMap_cons, List.flatMap_nil, Effect.numbers, List.append_nil, hinv]
    exact .one _
  | inspect q hop hinv =>
    simp only [List.flatMap_cons, List.flatMap_nil, Effect.numbers, List.append_nil, hinv]
    exact .one _
  | fence q hop hinv =>
    simp only [List.flatMap_cons, List.flatMap_nil, Effect.numbers, List.append_nil, hinv]
    exact .one _
  | begin b v hop hinst hinv hv hv₀ hcurrent hcut =>
    simp only [List.flatMap_cons, List.flatMap_nil, Effect.numbers, List.append_nil, hinv]
    exact .one _
  | retire id issued h => exact .nil le_rfl
  | forget number => exact .nil le_rfl
  | prepared request a hfits => exact .nil le_rfl
  | unknown number =>
    refine .nil ?_
    rw [State.unknown]
    split <;> exact le_rfl
  | started key cut hopen => exact .nil le_rfl
  | conflict t => exact .nil le_rfl
  | dropped t he h hno => exact .nil le_rfl
  | installed t p v revision storage receipts startCut recovering he h hp hout hv hrevision hused =>
    rw [numbers_installReports]
    exact .nil le_rfl

theorem Moves.climbs (h : Moves C s₀ e s effects s') :
    Climbs s.nextEffectId s'.nextEffectId (effects.flatMap Effect.numbers) := by
  induction h with
  | refl s => exact .nil le_rfl
  | cons hm hrest ih =>
    rw [List.flatMap_append]
    exact hm.climbs.append ih

/-- The numbers a run issues climb. -/
theorem effectsOf_climbs (s : State) (events : List Event) :
    Climbs s.nextEffectId (run C s events).nextEffectId ((effectsOf C s events).flatMap Effect.numbers) := by
  induction events using List.reverseRecOn with
  | nil => exact .nil le_rfl
  | append_singleton events e ih =>
    rw [effectsOf_concat, run_concat, List.flatMap_append]
    exact ih.append (moves_step _ e).climbs

/-! ### The ledger -/

/-- Lane by lane. -/
instance : Add Charges :=
  ⟨fun a b => ⟨a.edit + b.edit, a.recovery + b.recovery, a.evidence + b.evidence, a.pending + b.pending⟩⟩

theorem Charges.add_eq_some {a b c : Charges} (h : a.add b = some c) : c = a + b := by
  simp only [Charges.add, checkedAdd, Option.bind_eq_bind, Option.bind_eq_some_iff] at h
  obtain ⟨edit, h₁, recovery, h₂, evidence, h₃, pending, h₄, h⟩ := h
  split_ifs at h₁ h₂ h₃ h₄
  rw [← Option.some.inj h, ← Option.some.inj h₁, ← Option.some.inj h₂, ← Option.some.inj h₃, ← Option.some.inj h₄]
  rfl

theorem installsOf_append (s : State) (events more : List Event) :
    installsOf C s (events ++ more) = installsOf C s events ++ installsOf C (run C s events) more := by
  induction events generalizing s with
  | nil => rfl
  | cons e events ih =>
    rw [List.cons_append, installsOf, ih, installsOf, List.append_assoc]
    rfl

theorem installsOf_concat (s : State) (events : List Event) (e : Event) :
    installsOf C s (events ++ [e]) = installsOf C s events ++ (installs C (run C s events) e).toList := by
  rw [installsOf_append, installsOf, installsOf, List.append_nil]

/-- What an instance shows of the plans installed for it. -/
def Accounted (s₀ : State) (log : List CommitPlan) (s : State) : Prop := ∀ (i : Instance) (v : InstanceState),
    s.instances[i]? = some v →
  ∃ v₀, s₀.instances[i]? = some v₀ ∧ v.revision = v₀.revision + (log.filter (fun p => p.inst = i)).length ∧
    v.used = ((log.filter (fun p => p.inst = i)).map CommitPlan.charges).foldl (· + ·) v₀.used

theorem reachable_run (h : Fresh s₀) (events : List Event) : Reachable C (run C s₀ events) := ⟨s₀, events, h, rfl⟩

theorem Reachable.flight (h : Reachable C s) : Flight s :=
  h.invariant (fun _ h => h.flight) fun _ _ _ _ _ _ hf hm => hf.move hm

theorem run_accounted (h : Fresh s₀) (events : List Event) :
    Accounted s₀ (installsOf C s₀ events) (run C s₀ events) := by
  induction events using List.reverseRecOn with
  | nil => exact fun i v hv => ⟨v, hv, by simp [installsOf], by simp [installsOf]⟩
  | append_singleton events e ih =>
    have hf : Flight (run C s₀ events) := (reachable_run h events).flight
    intro i v' hv'
    rw [run_concat] at hv'
    rw [installsOf_concat, List.filter_append]
    obtain ⟨v, hv, ⟨hcustody, hothers⟩ | ⟨t, p, ht, hsome, rfl, hin, hcustody⟩⟩ := step_instance hf e hv'
    · obtain ⟨v₀, hv₀, hrevision, hused⟩ := ih i v hv
      have hnone : (installs C (run C s₀ events) e).toList.filter (fun p => p.inst = i) = [] := by
        simpa [List.filter_eq_nil_iff] using hothers
      rw [hnone, List.append_nil, hcustody.revision, hcustody.used]
      exact ⟨v₀, hv₀, hrevision, hused⟩
    · obtain ⟨v₀, hv₀, hrevision, hused⟩ := ih p.inst v hv
      obtain ⟨used, hadd⟩ := Option.isSome_iff_exists.mp hin.affordable
      refine ⟨v₀, hv₀, ?_, ?_⟩
      · rw [hcustody.revision, installed_revision, hrevision, hsome]
        simp [Nat.add_assoc]
      · rw [hcustody.used, installed_used, hadd, Option.getD_some, Charges.add_eq_some hadd, hused, hsome]
        simp

/-! ### Each plan once -/

/-- The numbers of the installed plans are not in flight any more. -/
theorem installed_ids (h : Fresh s₀) (events : List Event) :
    ((installsOf C s₀ events).map CommitPlan.id).Nodup ∧ ∀ p ∈ installsOf C s₀ events,
      p.id < (run C s₀ events).nextEffectId ∧ ∀ q, ¬ InFlight (run C s₀ events) p.id q := by
  induction events using List.reverseRecOn with
  | nil => simp [installsOf]
  | append_singleton events e ih =>
    obtain ⟨hnodup, hgone⟩ := ih
    have hf : Flight (run C s₀ events) := (reachable_run h events).flight
    have hnext := ((moves_step (C := C) (run C s₀ events) e).climbs).le
    have hold : ∀ p ∈ installsOf C s₀ events, p.id < (step C (run C s₀ events) e).1.nextEffectId ∧
        ∀ q, ¬ InFlight (step C (run C s₀ events) e).1 p.id q := by
      intro p hp
      obtain ⟨hlt, hno⟩ := hgone p hp
      refine ⟨hlt.trans_le hnext, fun q hq => ?_⟩
      rcases step_taken hf e hq with hq | hq
      · exact hno q hq
      · omega
    rw [installsOf_concat, run_concat, List.map_append]
    rcases step_installs (C := C) hf e with ⟨hnone, -⟩ | ⟨t, p, v, -, hsome, hin⟩
    · rw [hnone]
      simpa using ⟨hnodup, hold⟩
    · have hflying := inFlight_of_planOf hin.flying
      obtain ⟨hid, hlt⟩ := hf.numbered_of_inFlight hflying
      have hnew : p.id ∉ (installsOf C s₀ events).map CommitPlan.id := by
        intro hmem
        obtain ⟨p', hp', heq⟩ := List.mem_map.mp hmem
        exact (hgone p' hp').2 p (heq ▸ hid ▸ hflying)
      rw [hsome, Option.toList_some, List.map_singleton]
      refine ⟨List.nodup_append'.mpr ⟨hnodup, List.nodup_singleton _, by simpa using hnew⟩, fun p' hp' => ?_⟩
      rcases List.mem_append.mp hp' with hp' | hp'
      · exact hold p' hp'
      · obtain rfl := List.mem_singleton.mp hp'
        refine ⟨by omega, fun q hq => ?_⟩
        have := hin.gone q (hid ▸ hq)
        omega

/-! ### One plan at a time -/

/-- A map's values, each under its own number, are all different. -/
theorem nodup_values_of_id {m : Std.ExtTreeMap ℕ CommitPlan} (h : ∀ (n : ℕ) (p : CommitPlan), m[n]? = some p → p.id = n) :
    (values m).Nodup := by
  refine List.Nodup.of_map CommitPlan.id ?_
  have hkeys : (values m).map CommitPlan.id = m.keys := by
    rw [values, List.map_map, ← Std.ExtTreeMap.map_fst_toList_eq_keys]
    refine List.map_congr_left fun e he => ?_
    exact h e.1 e.2 (Std.ExtTreeMap.mem_toList_iff_getElem?_eq_some.mp he)
  rw [hkeys]
  exact Std.ExtTreeMap.nodup_keys

theorem Flight.plans_le_one (hf : Flight s) (i : Instance) : (s.plans i).length ≤ 1 := by
  have hmem : ∀ p ∈ s.plans i, InFlight s p.id p ∧ p.inst = i := by
    intro p hp
    obtain ⟨hp, hi⟩ := List.mem_filter.mp hp
    refine ⟨?_, by simpa using hi⟩
    rcases List.mem_append.mp hp with hp | hp
    · obtain ⟨n, hp⟩ := mem_values.mp hp
      rw [(hf.numbered.commits n p hp).1]
      exact .inl hp
    · obtain ⟨n, hp⟩ := mem_values.mp hp
      rw [(hf.numbered.unknownCommits n p hp).1]
      exact .inr hp
  have hnodup : (s.plans i).Nodup := by
    refine List.Nodup.filter _ (List.nodup_append'.mpr ⟨?_, ?_, ?_⟩)
    · exact nodup_values_of_id fun n p hp => (hf.numbered.commits n p hp).1
    · exact nodup_values_of_id fun n p hp => (hf.numbered.unknownCommits n p hp).1
    · intro p hp hq
      obtain ⟨m, hp⟩ := mem_values.mp hp
      obtain ⟨n, hq⟩ := mem_values.mp hq
      obtain rfl : m = n := (hf.numbered.commits m p hp).1.symm.trans (hf.numbered.unknownCommits n p hq).1
      exact hf.disjoint m p p hp hq
  match hplans : s.plans i with
  | [] => simp
  | [p] => simp
  | p :: q :: rest =>
    rw [hplans] at hmem hnodup
    obtain ⟨hp, hpi⟩ := hmem p (by simp)
    obtain ⟨hq, hqi⟩ := hmem q (by simp)
    have hid := hf.single p.id q.id p q hp hq (hpi.trans hqi.symm)
    have hplan : s.planOf (planKey s p) = some p := hf.planOf_of_inFlight hp
    have hplan' : s.planOf (planKey s p) = some q := hf.planOf_of_inFlight (by rwa [planKey, hid])
    obtain rfl : p = q := Option.some.inj (hplan.symm.trans hplan')
    simp at hnodup

/-- What holds after every run from a fresh state of its plans, its numbers and its
ledger. -/
structure SingleFlight (C : Crypto) (s₀ : State) (events : List Event) : Prop where
  one_plan : ∀ i, ((run C s₀ events).plans i).length ≤ 1
  disjoint : ∀ n, n ∈ (run C s₀ events).commits → n ∉ (run C s₀ events).unknownCommits
  numbered : Numbered (run C s₀ events)
  issued_once : ((effectsOf C s₀ events).flatMap Effect.numbers).Nodup
  installed_once : ((installsOf C s₀ events).map CommitPlan.id).Nodup
  accounted : Accounted s₀ (installsOf C s₀ events) (run C s₀ events)
  /-- A plan that the next step takes out of flight has its own attempt's terminal. -/
  leaves : ∀ e n p, InFlight (run C s₀ events) n p → InFlight (run C s₀ (events ++ [e])) n p ∨
    ∃ t : Terminal, (run C s₀ (events ++ [e])).terminalResults[t.attempt.id]? = some t ∧
      (run C s₀ events).attempts[planKey (run C s₀ events) p]?.map (fun a => a.attempt) = some t.attempt ∧
      binding (run C s₀ events) p = some t.attempt.binding

theorem single_flight (h : Fresh s₀) (events : List Event) : SingleFlight C s₀ events := by
  have hf : Flight (run C s₀ events) := (reachable_run h events).flight
  refine ⟨hf.plans_le_one, fun n hn hn' => ?_, hf.numbered, ?_, (installed_ids h events).1, run_accounted h events, ?_⟩
  · obtain ⟨p, hp⟩ := Option.isSome_iff_exists.mp (Std.ExtTreeMap.isSome_getElem?_iff_mem.mpr hn)
    obtain ⟨q, hq⟩ := Option.isSome_iff_exists.mp (Std.ExtTreeMap.isSome_getElem?_iff_mem.mpr hn')
    exact hf.disjoint n p q hp hq
  · exact (effectsOf_climbs s₀ events).sorted.imp Nat.ne_of_lt
  · intro e n p hp
    rw [run_concat]
    exact (step_leaves hf e hp).imp_right fun ⟨t, _, hretained, hattempt, hbound⟩ => ⟨t, hretained, hattempt, hbound⟩

/-- The first operation's plan is in flight, and is then installed. -/
theorem single_flight_desk : (∀ C : Crypto, Fresh (desk C)) ∧ ∀ C : Crypto, ∃ before more p,
    InFlight (run C (desk C) before) p.id p ∧ installsOf C (desk C) (before ++ more) = [p] ∧
      SingleFlight C (desk C) before ∧ SingleFlight C (desk C) (before ++ more) := by
  refine ⟨fresh_desk, fun C => ?_⟩
  obtain ⟨batch, charges, q, s', hstep, hadmitted⟩ := first_admitted C
  refine ⟨[.offerReplica (sketch C .first [] []), .evidenceResolved (vouching C)],
    storing C (((posed C).answered 0).staged (firstPlan C batch charges) q) q, firstPlan C batch charges, ?_, ?_,
    single_flight (fresh_desk C) _, single_flight (fresh_desk C) _⟩
  · rw [run, List.foldl_cons, hstep, List.foldl_cons, hadmitted.staged]
    exact .inl hadmitted.flying.plan
  · rw [List.cons_append, installsOf, hstep]
    exact hadmitted.installs

end Glade.Kernel
