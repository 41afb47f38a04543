import Glade.Node.Serving

/-! What a step of the serve paths can do: what a task that runs does, by where it
stands, and what each job leaves as it was. -/

namespace Glade.Node.Serving

open Wire Store Grants

variable {C : Crypto}

namespace Shared

/-! ### The router -/

theorem mem_route {s : Shared C} {from_ sid : SessionId} {zone : Zone} :
    sid ∈ s.route from_ zone ↔ sid ≠ from_ ∧ sid ∈ s.subscribers zone := by
  rw [route, Finset.mem_sort, Finset.mem_erase]

theorem mem_entries {s : Shared C} {sid : SessionId} {zone : Zone} :
    (sid, zone) ∈ s.entries ↔ sid ∈ s.subscribers zone := by
  unfold entries subscribers
  rw [List.mem_flatMap, Std.ExtTreeMap.getD_eq_getD_getElem?]
  constructor
  · rintro ⟨⟨zone', set⟩, hset, hmem⟩
    obtain ⟨sid', hsid, heq⟩ := List.mem_map.mp hmem
    obtain ⟨rfl, rfl⟩ := Prod.mk.inj heq
    rw [Std.ExtTreeMap.mem_toList_iff_getElem?_eq_some] at hset
    rw [hset]
    exact (Finset.mem_sort _).mp hsid
  · intro hmem
    cases hset : s.router[zone]? with
    | none =>
      rw [hset] at hmem
      cases hmem
    | some set =>
      rw [hset] at hmem
      exact ⟨(zone, set), Std.ExtTreeMap.mem_toList_iff_getElem?_eq_some.mpr hset,
        List.mem_map.mpr ⟨sid, (Finset.mem_sort _).mpr hmem, rfl⟩⟩

theorem subscribers_insert (s : Shared C) (router : Std.ExtTreeMap Zone (Finset SessionId)) (zone zone' : Zone)
    (set : Finset SessionId) :
    ({ s with router := router.insert zone set } : Shared C).subscribers zone' =
      if zone = zone' then set else ({ s with router } : Shared C).subscribers zone' := by
  unfold subscribers
  rw [Std.ExtTreeMap.getD_insert]
  simp only [Std.LawfulEqOrd.compare_eq_iff_eq]

theorem subscribers_unsubscribe (s : Shared C) (sid : SessionId) (zone zone' : Zone) :
    (s.unsubscribe sid zone).subscribers zone' = if zone = zone' then (s.subscribers zone).erase sid else s.subscribers zone' :=
  subscribers_insert s s.router zone zone' _

theorem subscribers_map (s : Shared C) (sid : SessionId) (zone : Zone) :
    ({ s with router := s.router.map fun _ set => set.erase sid } : Shared C).subscribers zone =
      (s.subscribers zone).erase sid := by
  unfold subscribers
  rw [Std.ExtTreeMap.getD_eq_getD_getElem?, Std.ExtTreeMap.getD_eq_getD_getElem?, Std.ExtTreeMap.getElem?_map]
  cases s.router[zone]? <;> simp

theorem mem_zonesOf {s : Shared C} {sid : SessionId} {zone : Zone} : zone ∈ s.zonesOf sid ↔ sid ∈ s.subscribers zone := by
  rw [← mem_entries, zonesOf, entries, List.mem_map, List.mem_flatMap]
  constructor
  · rintro ⟨⟨zone', set⟩, hset, rfl⟩
    obtain ⟨hmem, hsid⟩ := List.mem_filter.mp hset
    exact ⟨(zone', set), hmem, List.mem_map.mpr ⟨sid, (Finset.mem_sort _).mpr (of_decide_eq_true hsid), rfl⟩⟩
  · rintro ⟨⟨zone', set⟩, hset, hmem⟩
    obtain ⟨sid', hsid, heq⟩ := List.mem_map.mp hmem
    obtain ⟨rfl, rfl⟩ := Prod.mk.inj heq
    exact ⟨(zone', set), List.mem_filter.mpr ⟨hset, decide_eq_true ((Finset.mem_sort _).mp hsid)⟩, rfl⟩

/-! ### The cut -/

section Cut

variable (s : Shared C) (cut : Option (Worker × List Inner))

@[simp] theorem setCut_cut : (s.setCut cut).cut = cut := rfl

@[simp] theorem setCut_scripts : (s.setCut cut).scripts = s.scripts := rfl

@[simp] theorem setCut_policy : (s.setCut cut).policy = s.policy := rfl

@[simp] theorem setCut_out : (s.setCut cut).out = s.out := rfl

@[simp] theorem setCut_store : (s.setCut cut).store = s.store := rfl

@[simp] theorem setCut_router : (s.setCut cut).router = s.router := rfl

@[simp] theorem setCut_loops : (s.setCut cut).loops = s.loops := rfl

@[simp] theorem setCut_admitted : (s.setCut cut).admitted = s.admitted := rfl

@[simp] theorem setCut_principals : (s.setCut cut).principals = s.principals := rfl

@[simp] theorem setCut_subscribers (zone : Zone) : (s.setCut cut).subscribers zone = s.subscribers zone := rfl

end Cut

/-! ### A task that runs -/

/-- What a task's next job comes to, by where the task stands. -/
inductive Ran (s : Shared C) (w : Worker) (env : Env) : Shared C → List Happening → Prop where
  | nothing : Ran s w env s []
  | release : s.cut = some (w, []) → Ran s w env (s.setCut none) []
  | inner (job : Inner) (rest : List Inner) : s.cut = some (w, job :: rest) →
    Ran s w env ((s.doInner w env job).1.setCut (some (w, (s.doInner w env job).2.1 ++ rest))) (s.doInner w env job).2.2
  | take (inner : List Inner) (rest : List Job) : s.cut = none → s.scripts w = .cut inner :: rest →
    Ran s w env ((s.give w rest).setCut (some (w, inner))) []
  | outer (job : Job) (rest : List Job) : s.cut.map Prod.fst ≠ some w → s.scripts w = job :: rest →
    (∀ inner, job ≠ .cut inner) →
    Ran s w env (((s.give w rest).doJob w env job).1.doFirst w ((s.give w rest).doJob w env job).2.1)
      ((s.give w rest).doJob w env job).2.2

theorem run_ran (s : Shared C) (w : Worker) (env : Env) : Ran s w env (s.run w env).1 (s.run w env).2 := by
  unfold run
  cases hcut : s.cut with
  | some held =>
    obtain ⟨holder, inner⟩ := held
    dsimp only
    by_cases hw : holder = w
    · subst hw
      rw [if_pos rfl]
      cases inner with
      | nil => exact .release hcut
      | cons job rest => exact .inner job rest hcut
    · rw [if_neg hw]
      cases hscript : s.scripts w with
      | nil => exact .nothing
      | cons job rest =>
        cases job
        case cut inner => exact .nothing
        all_goals exact .outer _ rest (by simpa [hcut] using hw) hscript (by simp)
  | none =>
    dsimp only
    cases hscript : s.scripts w with
    | nil => exact .nothing
    | cons job rest =>
      cases job
      case cut inner => exact .take inner rest hcut hscript
      all_goals exact .outer _ rest (by simp [hcut]) hscript (by simp)

/-! ### What jobs leave as it was -/

/-- What a job without the cut leaves as it was. -/
structure OuterFrame (s s' : Shared C) : Prop where
  store : s'.store = s.store
  disk : s'.disk = s.disk
  clientGrants : s'.clientGrants = s.clientGrants
  loops : s'.loops = s.loops
  cut : s'.cut = s.cut
  scripts : s'.scripts = s.scripts
  subscribers : ∀ zone, s'.subscribers zone ⊆ s.subscribers zone
  out : s'.out ⊆ s.out

theorem doJob_frame (s : Shared C) (w : Worker) (env : Env) (job : Job) : OuterFrame s (s.doJob w env job).1 := by
  have hsame : OuterFrame s s := ⟨rfl, rfl, rfl, rfl, rfl, rfl, fun _ => Finset.Subset.refl _, Finset.Subset.refl _⟩
  cases job with
  | writeUp write holder =>
    simp only [doJob]
    split
    · exact hsame
    · split_ifs
      · exact ⟨rfl, rfl, rfl, rfl, rfl, rfl, fun _ => Finset.Subset.refl _, Finset.Subset.refl _⟩
      · exact hsame
  | sendUp id write =>
    simp only [doJob]
    split
    · exact hsame
    · split_ifs
      · exact hsame
      · exact ⟨rfl, rfl, rfl, rfl, rfl, rfl, fun _ => Finset.Subset.refl _, Finset.Subset.refl _⟩
  | forwardInterest zone holder =>
    simp only [doJob]
    split
    · exact hsame
    · split_ifs
      · exact ⟨rfl, rfl, rfl, rfl, rfl, rfl, fun _ => Finset.Subset.refl _, Finset.Subset.refl _⟩
      · exact hsame
  | unsubscribeAll sid =>
    refine ⟨rfl, rfl, rfl, rfl, rfl, rfl, fun zone => ?_, Finset.Subset.refl _⟩
    unfold doJob
    rw [subscribers_map]
    exact Finset.erase_subset _ _
  | shut sid => exact ⟨rfl, rfl, rfl, rfl, rfl, rfl, fun _ => Finset.Subset.refl _, Finset.erase_subset _ _⟩
  | _ => exact ⟨rfl, rfl, rfl, rfl, rfl, rfl, fun _ => Finset.Subset.refl _, Finset.Subset.refl _⟩

/-- What a job under the cut leaves as it was. -/
structure InnerFrame (s s' : Shared C) (w : Worker) : Prop where
  policy : s'.policy = s.policy
  principals : s'.principals = s.principals
  clientGrants : s'.clientGrants = s.clientGrants
  cut : s'.cut = s.cut
  forwards : s'.forwards = s.forwards
  scripts : ∀ w', w' ≠ w → s'.scripts w' = s.scripts w'

theorem doInner_frame (s : Shared C) (w : Worker) (env : Env) (job : Inner) : InnerFrame s (s.doInner w env job).1 w := by
  have hsame : InnerFrame s s w := ⟨rfl, rfl, rfl, rfl, rfl, fun _ _ => rfl⟩
  have hfirst : ∀ jobs, ∀ w', w' ≠ w → (s.doFirst w jobs).scripts w' = s.scripts w' := fun jobs w' hw =>
    Function.update_of_ne hw _ _
  cases job with
  | place origin op relay =>
    simp only [doInner]
    split <;> exact ⟨rfl, rfl, rfl, rfl, rfl, hfirst _⟩
  | ingest from_ op =>
    simp only [doInner]
    split <;> exact ⟨rfl, rfl, rfl, rfl, rfl, fun _ _ => rfl⟩
  | admitClient sid zone their forward =>
    simp only [doInner]
    split <;> exact ⟨rfl, rfl, rfl, rfl, rfl, hfirst _⟩
  | admitPeer sid zone their node chunk =>
    simp only [doInner]
    split
    · exact ⟨rfl, rfl, rfl, rfl, rfl, fun _ _ => rfl⟩
    · exact hsame
  | recheck generation peers todo refused =>
    cases todo with
    | nil => exact hsame
    | cons e todo =>
      simp only [doInner]
      split_ifs
      · exact hsame
      · split <;> exact hsame
  | lapse id code why =>
    simp only [doInner]
    split
    · exact hsame
    · exact ⟨rfl, rfl, rfl, rfl, rfl, fun _ _ => rfl⟩
  | dropAdmitted sid =>
    simp only [doInner]
    split_ifs
    · exact ⟨rfl, rfl, rfl, rfl, rfl, fun _ _ => rfl⟩
    · exact hsame
  | _ => exact ⟨rfl, rfl, rfl, rfl, rfl, fun _ _ => rfl⟩

/-! ### What jobs do -/

/-- What a job under the cut did. -/
inductive InnerDid (s : Shared C) (w : Worker) : Inner → List Happening → Prop where
  | nothing (job : Inner) : InnerDid s w job []
  | placed (origin : SessionId) (op : Op) (relay : Option Error) : InnerDid s w (.place origin op relay) [.appended origin op]
  | ingested (from_ : SessionId) (op : Op) : InnerDid s w (.ingest from_ op) [.appended from_ op]
  | queued (sid : SessionId) (frame : Frame) : sid ∈ s.out → InnerDid s w (.queue sid frame) [.queued w sid frame]
  | registered (sid : SessionId) (zone : Zone) : InnerDid s w (.register sid zone) [.registered sid zone]
  | acked (sid : SessionId) (zone : Zone) (their : SeqHeads) (chunk : Option ℕ) :
    InnerDid s w (.ackGap sid zone their chunk) [.acked sid zone their (missingFor C s.store zone their)]
  | left (sid : SessionId) (zone : Zone) (pass : Option ℕ) : sid ∈ s.subscribers zone →
    InnerDid s w (.unsubscribe sid zone pass) [.left sid zone pass]
  | shut (sid : SessionId) : sid ∈ s.out → InnerDid s w (.shut sid) [.shut sid]

theorem doInner_did (s : Shared C) (w : Worker) (env : Env) (job : Inner) : InnerDid s w job (s.doInner w env job).2.2 := by
  cases job with
  | place origin op relay =>
    unfold doInner
    dsimp only
    split
    · exact .placed origin op relay
    · exact .nothing _
    · exact .nothing _
  | ingest from_ op =>
    unfold doInner
    dsimp only
    split
    · exact .ingested from_ op
    · exact .nothing _
  | queue sid frame =>
    unfold doInner
    dsimp only
    unfold send
    split
    · exact .queued sid frame ‹_›
    · exact .nothing _
  | admitClient sid zone their forward =>
    unfold doInner
    dsimp only
    split <;> exact .nothing _
  | admitPeer sid zone their node chunk =>
    unfold doInner
    dsimp only
    split <;> exact .nothing _
  | register sid zone => exact .registered sid zone
  | ackGap sid zone their chunk => exact .acked sid zone their chunk
  | recheck generation peers todo refused =>
    cases todo with
    | nil => exact .nothing _
    | cons e todo =>
      unfold doInner
      dsimp only
      split
      · exact .nothing _
      · split <;> exact .nothing _
  | lapse id code why =>
    unfold doInner
    dsimp only
    split <;> exact .nothing _
  | unsubscribe sid zone pass =>
    unfold doInner
    dsimp only
    split
    · exact .left sid zone pass ‹_›
    · exact .nothing _
  | dropAdmitted sid =>
    unfold doInner
    dsimp only
    split <;> exact .nothing _
  | shut sid =>
    unfold doInner
    dsimp only
    split
    · exact .shut sid ‹_›
    · exact .nothing _
  | _ => exact .nothing _

/-- What a job without the cut did. -/
inductive JobDid (s : Shared C) (w : Worker) : Job → List Happening → Prop where
  | nothing (job : Job) : JobDid s w job []
  | sent (sid : SessionId) (frame : Frame) : sid ∈ s.out → JobDid s w (.send sid frame) [.queued w sid frame]
  | answered (sid : SessionId) (op : Op) (status : Error) : sid ∈ s.out →
    JobDid s w (.answer sid op status) [.answered sid op status]
  | bound (sid : SessionId) (principal : String) : JobDid s w (.bind sid principal) [.bound sid principal]
  | replaced (fold : Option Policy) : JobDid s w (.replace fold) [.replaced (s.policy.generation + 1) fold]
  | returned (generation : ℕ) : JobDid s w (.returned generation) [.returned generation]
  | shut (sid : SessionId) : sid ∈ s.out → JobDid s w (.shut sid) [.shut sid]
  | left (sid : SessionId) : JobDid s w (.unsubscribeAll sid) ((s.zonesOf sid).map fun zone => .left sid zone none)

theorem doJob_did (s : Shared C) (w : Worker) (env : Env) (job : Job) : JobDid s w job (s.doJob w env job).2.2 := by
  cases job with
  | send sid frame =>
    unfold doJob
    dsimp only
    unfold send
    split
    · exact .sent sid frame ‹_›
    · exact .nothing _
  | answer sid op status =>
    unfold doJob
    dsimp only
    split
    · exact .answered sid op status ‹_›
    · exact .nothing _
  | writeUp write holder =>
    unfold doJob
    dsimp only
    split
    · exact .nothing _
    · split <;> exact .nothing _
  | sendUp id write =>
    unfold doJob
    dsimp only
    split
    · exact .nothing _
    · split <;> exact .nothing _
  | forwardInterest zone holder =>
    unfold doJob
    dsimp only
    split
    · exact .nothing _
    · split <;> exact .nothing _
  | bind sid principal => exact .bound sid principal
  | replace fold => exact .replaced fold
  | returned generation => exact .returned generation
  | shut sid =>
    unfold doJob
    dsimp only
    split
    · exact .shut sid ‹_›
    · exact .nothing _
  | unsubscribeAll sid => exact .left sid
  | _ => exact .nothing _

theorem placed_cases (sid : SessionId) (source : Source) (op : Op) (placement : Placement) :
    (∃ status, status.code ≠ .ok ∧ placed C sid source op placement = .answer sid op status) ∨
      (∃ holder, placed C sid source op placement = .writeUp { op, writer := sid } holder) ∨
        placed C sid source op placement = .cut [.place sid op none] := by
  cases placement with
  | here => exact .inr (.inr rfl)
  | not reason => exact .inl ⟨opStatus C op .unknownShare reason, by simp [opStatus], rfl⟩
  | up holder =>
    cases source with
    | client => exact .inr (.inl ⟨holder, rfl⟩)
    | forward zone node =>
      exact .inl ⟨opStatus C op .unknownShare s!"{op.share} is served by node {holder}, not by this node",
        by simp [opStatus], rfl⟩

/-- An op is refused where it is decided, sent up, or placed. -/
theorem acceptance_cases (s : Shared C) (sid : SessionId) (source : Source) (op : Op) (placement : Placement) :
    (∃ status, status.code ≠ .ok ∧ s.acceptance sid source op placement = .answer sid op status) ∨
      (∃ holder, s.acceptance sid source op placement = .writeUp { op, writer := sid } holder) ∨
        s.acceptance sid source op placement = .cut [.place sid op none] := by
  unfold acceptance
  split
  · exact .inl ⟨homeRefused C op, by simp [homeRefused, opStatus], rfl⟩
  split
  · exact .inl ⟨streamRefused C op, by simp [streamRefused, opStatus], rfl⟩
  split
  · rename_i why _
    exact .inl ⟨opStatus C op .unauthorized why, by simp [opStatus], rfl⟩
  split
  · exact placed_cases sid _ op placement
  · split
    · exact placed_cases sid _ op placement
    · exact .inl ⟨_, by simp [offZone, opStatus], rfl⟩

/-- What a job without the cut leads to: a status, a write's next step up, the cut, or
a refresh's return. -/
theorem doJob_more (s : Shared C) (w : Worker) (env : Env) {job job' : Job} (h : job' ∈ (s.doJob w env job).2.1) :
    (∃ to_ op status, job' = .answer to_ op status) ∨ (∃ write holder, job' = .writeUp write holder) ∨
      (∃ id write, job' = .sendUp id write) ∨ (∃ inner, job' = .cut inner) ∨
        ∃ generation fold, job' = .returned generation ∧ job = .replace fold := by
  cases job with
  | accept sid source op placement =>
    rw [doJob, List.mem_singleton] at h
    subst h
    rcases s.acceptance_cases sid source op placement with ⟨status, -, heq⟩ | ⟨holder, heq⟩ | heq <;> rw [heq]
    · exact .inl ⟨_, _, _, rfl⟩
    · exact .inr (.inl ⟨_, _, rfl⟩)
    · exact .inr (.inr (.inr (.inl ⟨_, rfl⟩)))
  | writeUp write holder =>
    simp only [doJob] at h
    split at h
    · rw [List.mem_singleton.mp h]
      exact .inr (.inr (.inl ⟨_, _, rfl⟩))
    · split_ifs at h <;> rw [List.mem_singleton.mp h]
      · exact .inr (.inr (.inl ⟨_, _, rfl⟩))
      · exact .inl ⟨_, _, _, rfl⟩
  | sendUp id write =>
    simp only [doJob] at h
    split at h
    · simp at h
    · split_ifs at h <;> simp at h
      subst h
      exact .inl ⟨_, _, _, rfl⟩
  | forwardInterest zone holder =>
    simp only [doJob] at h
    split at h
    · simp at h
    · split_ifs at h <;> simp at h
  | subscribe sid zone forward =>
    rw [List.mem_singleton.mp h]
    exact .inr (.inr (.inr (.inl ⟨_, rfl⟩)))
  | replace fold =>
    rcases List.mem_cons.mp h with rfl | h
    · exact .inr (.inr (.inr (.inl ⟨_, rfl⟩)))
    · rw [List.mem_singleton.mp h]
      exact .inr (.inr (.inr (.inr ⟨_, fold, rfl, rfl⟩)))
  | _ => simp [doJob] at h

/-! ### Events -/

/-- What an event that runs no task leaves as it was. -/
structure EventFrame (s s' : Shared C) : Prop where
  store : s'.store = s.store
  router : s'.router = s.router
  admitted : s'.admitted = s.admitted
  principals : s'.principals = s.principals
  policy : s'.policy = s.policy
  clientGrants : s'.clientGrants = s.clientGrants
  cut : s'.cut = s.cut
  heads : s'.heads = s.heads
  forwarded : s'.forwarded = s.forwarded
  out : s.out ⊆ s'.out
  /-- A client's session enters the session table as it opens. -/
  entered : ∀ sid ∈ s'.out, sid ∈ s.out ∨ s.next ≤ sid
  next : s.next ≤ s'.next

theorem EventFrame.refl (s : Shared C) : EventFrame s s :=
  ⟨rfl, rfl, rfl, rfl, rfl, rfl, rfl, rfl, rfl, Finset.Subset.refl _, fun _ => .inl, le_rfl⟩

theorem forwardRuns_frame (s : Shared C) (id : ℕ) (e : Event) : EventFrame s (s.forwardRuns id e).1 := by
  have hsame := EventFrame.refl s
  unfold forwardRuns
  split
  case h_2 => exact hsame
  rename_i forward _
  split_ifs
  case neg => exact hsame
  unfold stepForward
  cases e with
  | carry id sent =>
    dsimp only
    split
    · exact hsame
    · split <;> exact ⟨rfl, rfl, rfl, rfl, rfl, rfl, rfl, rfl, rfl, Finset.Subset.refl _, fun _ => .inl, le_rfl⟩
  | holderAnswers id answer =>
    dsimp only
    split
    · exact hsame
    · exact ⟨rfl, rfl, rfl, rfl, rfl, rfl, rfl, rfl, rfl, Finset.Subset.refl _, fun _ => .inl, le_rfl⟩
  | _ => exact ⟨rfl, rfl, rfl, rfl, rfl, rfl, rfl, rfl, rfl, Finset.Subset.refl _, fun _ => .inl, le_rfl⟩

theorem step_frame (s : Shared C) {e : Event} (he : ∀ w env, e ≠ .run w env) : EventFrame s (s.step e).1 := by
  have hsame := EventFrame.refl s
  cases e with
  | run w env => exact absurd rfl (he w env)
  | connect =>
    refine ⟨rfl, rfl, rfl, rfl, rfl, rfl, rfl, rfl, rfl, Finset.subset_insert _ _, fun sid hsid => ?_, Nat.le_succ _⟩
    rcases Finset.mem_insert.mp hsid with rfl | hsid
    · exact .inr le_rfl
    · exact .inl hsid
  | peerSubscribe node zone from_ chunk =>
    exact ⟨rfl, rfl, rfl, rfl, rfl, rfl, rfl, rfl, rfl, Finset.Subset.refl _, fun _ => .inl, Nat.le_succ _⟩
  | hello sid heads principal =>
    unfold step
    dsimp only
    split
    · split_ifs
      · exact ⟨rfl, rfl, rfl, rfl, rfl, rfl, rfl, rfl, rfl, Finset.Subset.refl _, fun _ => .inl, le_rfl⟩
      · exact hsame
    · exact hsame
  | subscribe sid zone route =>
    unfold step
    dsimp only
    split
    · split_ifs
      · cases route <;> exact ⟨rfl, rfl, rfl, rfl, rfl, rfl, rfl, rfl, rfl, Finset.Subset.refl _, fun _ => .inl, le_rfl⟩
      · exact hsame
    · exact hsame
  | ops sid ops routes =>
    unfold step
    dsimp only
    split
    · split_ifs
      · exact ⟨rfl, rfl, rfl, rfl, rfl, rfl, rfl, rfl, rfl, Finset.Subset.refl _, fun _ => .inl, le_rfl⟩
      · exact hsame
    · exact hsame
  | disconnect sid =>
    unfold step
    dsimp only
    split
    · split_ifs
      · exact ⟨rfl, rfl, rfl, rfl, rfl, rfl, rfl, rfl, rfl, Finset.Subset.refl _, fun _ => .inl, le_rfl⟩
      · exact hsame
    · exact hsame
  | ingest id op =>
    unfold step
    dsimp only
    split_ifs
    · exact ⟨rfl, rfl, rfl, rfl, rfl, rfl, rfl, rfl, rfl, Finset.Subset.refl _, fun _ => .inl, Nat.le_succ _⟩
    · exact hsame
  | refresh id fold =>
    unfold step
    dsimp only
    split_ifs
    · exact ⟨rfl, rfl, rfl, rfl, rfl, rfl, rfl, rfl, rfl, Finset.Subset.refl _, fun _ => .inl, le_rfl⟩
    · exact hsame
  | bringBack id zone holder =>
    unfold step
    dsimp only
    split_ifs
    · exact ⟨rfl, rfl, rfl, rfl, rfl, rfl, rfl, rfl, rfl, Finset.Subset.refl _, fun _ => .inl, le_rfl⟩
    · exact hsame
  | carry id sent => exact forwardRuns_frame s id _
  | arrive id ops => exact forwardRuns_frame s id _
  | holderAnswers id answer => exact forwardRuns_frame s id _
  | expire id count => exact forwardRuns_frame s id _
  | forwardEnds id refused => exact forwardRuns_frame s id _

/-- The jobs an event gives a task. -/
def Gives (s : Shared C) (w : Worker) (job : Job) : Event → Prop
  | .peerSubscribe node zone from_ chunk =>
    w = .session s.next ∧ job = .cut [.admitPeer s.next zone from_ node chunk]
  | .hello sid heads principal =>
    w = .session sid ∧ s.loops[sid]? = some .client ∧
      (job = .announce sid heads ∨ (∃ p, principal = some p ∧ ¬ namesANode p ∧ job = .bind sid p) ∨ job = .send sid .welcome)
  | .subscribe sid zone _ =>
    w = .session sid ∧ s.loops[sid]? = some .client ∧
      ((∃ frame, (∀ ops, frame ≠ .ops ops) ∧ job = .send sid frame) ∨ ∃ forward, job = .subscribe sid zone forward)
  | .ops sid ops routes =>
    w = .session sid ∧ ∃ source, s.loops[sid]? = some source ∧ ∃ op ∈ ops, job = .accept sid source op (routes op.share)
  | .disconnect sid => w = .session sid ∧ (∃ source, s.loops[sid]? = some source) ∧
      (job = .shut sid ∨ job = .unsubscribeAll sid ∨ job = .dropAdmitted sid ∨ job = .forget sid)
  | .ingest id op => w = .other id ∧ job = .cut [.ingest s.next op]
  | .refresh id fold => w = .other id ∧ job = .replace fold
  | .bringBack id zone holder => w = .other id ∧ job = .forwardInterest zone holder
  | .arrive id _ => w = .forward id ∧ ∃ from_ op, job = .cut [.ingest from_ op]
  | .carry id _ | .holderAnswers id _ | .expire id _ | .forwardEnds id _ =>
    w = .forward id ∧ ((∃ to_ op status, job = .answer to_ op status) ∨
      (∃ writer op answer, job = .cut [.place writer op (some answer)]) ∨ ∃ code why, job = .cut [.lapse id code why])
  | .connect | .run _ _ => False

theorem give_scripts (s : Shared C) (w w' : Worker) (jobs : List Job) :
    (s.give w jobs).scripts w' = if w' = w then jobs else s.scripts w' := by
  unfold give
  exact Function.update_apply _ _ _ _

theorem endForward_scripts (s : Shared C) (id : ℕ) (forward : Forward) (refused : Option Error) (w : Worker) :
    (s.endForward id forward refused).scripts w = s.scripts w ∨
      w = .forward id ∧ ∀ job ∈ (s.endForward id forward refused).scripts w,
        (∃ to_ op status, job = .answer to_ op status) ∨ ∃ code why, job = .cut [.lapse id code why] := by
  unfold endForward
  dsimp only
  rw [give_scripts]
  split_ifs with hw
  · refine .inr ⟨hw, fun job hjob => ?_⟩
    rcases List.mem_append.mp hjob with hjob | hjob
    · obtain ⟨write, -, rfl⟩ := List.mem_map.mp hjob
      exact .inl ⟨_, _, _, rfl⟩
    · exact .inr ⟨_, _, List.mem_singleton.mp hjob⟩
  · exact .inl rfl

/-- A forward's own event gives it answers, an append to settle, or its lapse. -/
theorem forwardRuns_scripts (s : Shared C) (id : ℕ) (w : Worker) {e : Event}
    (he : (∃ sent, e = .carry id sent) ∨ (∃ ops, e = .arrive id ops) ∨ (∃ answer, e = .holderAnswers id answer) ∨
      (∃ count, e = .expire id count) ∨ ∃ refused, e = .forwardEnds id refused) :
    (s.forwardRuns id e).1.scripts w = s.scripts w ∨
      s.idle w ∧ ∀ job ∈ (s.forwardRuns id e).1.scripts w, s.Gives w job e := by
  unfold forwardRuns
  split
  case h_2 => exact .inl rfl
  rename_i forward _
  split_ifs with hruns
  case neg => exact .inl rfl
  obtain ⟨hidle, -⟩ := hruns
  rcases he with ⟨sent, rfl⟩ | ⟨ops, rfl⟩ | ⟨answer, rfl⟩ | ⟨count, rfl⟩ | ⟨refused, rfl⟩ <;> unfold stepForward <;> dsimp only
  · split
    · exact .inl rfl
    · split
      · exact .inl rfl
      · rw [give_scripts]
        split_ifs with hw
        · subst hw
          refine .inr ⟨hidle, fun job hjob => ⟨rfl, .inl ⟨_, _, _, List.mem_singleton.mp hjob⟩⟩⟩
        · exact .inl rfl
      · rcases endForward_scripts s id _ none w with hs | ⟨rfl, hs⟩
        · exact .inl hs
        · exact .inr ⟨hidle, fun job hjob => ⟨rfl, (hs job hjob).imp_right .inr⟩⟩
  · rw [give_scripts]
    split_ifs with hw
    · subst hw
      refine .inr ⟨hidle, fun job hjob => ?_⟩
      obtain ⟨op, -, rfl⟩ := List.mem_map.mp hjob
      exact ⟨rfl, _, _, rfl⟩
    · exact .inl rfl
  · split
    · exact .inl rfl
    · rw [give_scripts]
      split_ifs with hw
      all_goals first
        | exact .inl rfl
        | subst hw
          refine .inr ⟨hidle, fun job hjob => ⟨rfl, ?_⟩⟩
          rw [List.mem_singleton.mp hjob]
          first
            | exact .inr (.inl ⟨_, _, _, rfl⟩)
            | exact .inl ⟨_, _, _, rfl⟩
  · rw [give_scripts]
    split_ifs with hw
    · subst hw
      refine .inr ⟨hidle, fun job hjob => ?_⟩
      obtain ⟨write, -, rfl⟩ := List.mem_map.mp hjob
      exact ⟨rfl, .inl ⟨_, _, _, rfl⟩⟩
    · exact .inl rfl
  · rcases endForward_scripts s id forward refused w with hs | ⟨rfl, hs⟩
    · exact .inl hs
    · exact .inr ⟨hidle, fun job hjob => ⟨rfl, (hs job hjob).imp_right .inr⟩⟩

/-- Jobs given to a task that has none. -/
theorem scripts_given {s s' : Shared C} (e : Event) (hscripts : s'.scripts = s.scripts) {w : Worker} (hidle : s.idle w)
    {jobs : List Job} (hjobs : ∀ job ∈ jobs, s.Gives w job e) (w' : Worker) :
    (s'.give w jobs).scripts w' = s.scripts w' ∨
      s.idle w' ∧ ∀ job ∈ (s'.give w jobs).scripts w', s.Gives w' job e := by
  rw [give_scripts]
  split_ifs with hw
  · subst hw
    exact .inr ⟨hidle, hjobs⟩
  · exact .inl (congrFun hscripts w')

/-- An event gives jobs to a task that has none, or to a peer stream's that starts. -/
theorem step_scripts (s : Shared C) {e : Event} (he : ∀ w env, e ≠ .run w env) (w : Worker) :
    (s.step e).1.scripts w = s.scripts w ∨
      (s.idle w ∨ ∃ node zone from_ chunk, e = .peerSubscribe node zone from_ chunk) ∧
        ∀ job ∈ (s.step e).1.scripts w, s.Gives w job e := by
  cases e with
  | run w env => exact absurd rfl (he w env)
  | connect => exact .inl rfl
  | peerSubscribe node zone from_ chunk =>
    unfold step
    rw [give_scripts]
    split_ifs with hw
    · exact .inr ⟨.inr ⟨_, _, _, _, rfl⟩, fun job hjob => ⟨hw, List.mem_singleton.mp hjob⟩⟩
    · exact .inl rfl
  | hello sid heads principal =>
    unfold step
    dsimp only
    split
    case h_2 => exact .inl rfl
    case h_1 hloop =>
      split_ifs with hidle
      case neg => exact .inl rfl
      dsimp only
      apply Or.imp_right (.imp_left .inl)
      refine scripts_given (.hello sid heads principal) rfl hidle (fun job hjob => ⟨rfl, hloop, ?_⟩) w
      simp only [List.cons_append, List.mem_cons, List.mem_append, List.mem_map, Option.mem_toList,
        Option.filter_eq_some_iff, List.mem_nil_iff, or_false] at hjob
      obtain rfl | ⟨p, ⟨hp, hname⟩, rfl⟩ | rfl := hjob
      · exact .inl rfl
      · exact .inr (.inl ⟨p, hp, by simpa using (of_decide_eq_true hname).2, rfl⟩)
      · exact .inr (.inr rfl)
  | subscribe sid zone route =>
    unfold step
    dsimp only
    split
    case h_2 => exact .inl rfl
    case h_1 hloop =>
      split_ifs with hidle
      case neg => exact .inl rfl
      cases route <;> dsimp only <;> apply Or.imp_right (.imp_left .inl) <;>
        refine scripts_given (.subscribe sid zone _) rfl hidle (fun job hjob => ⟨rfl, hloop, ?_⟩) w
      · exact .inl ⟨_, by simp, List.mem_singleton.mp hjob⟩
      · exact .inr ⟨_, List.mem_singleton.mp hjob⟩
      · exact .inr ⟨_, List.mem_singleton.mp hjob⟩
      · obtain ⟨frame, hframe, rfl⟩ := List.mem_map.mp hjob
        refine .inl ⟨frame, fun ops heq => ?_, rfl⟩
        subst heq
        simp [refusedSubscribe, refusalFrame] at hframe
  | ops sid ops routes =>
    unfold step
    dsimp only
    split
    case h_2 => exact .inl rfl
    case h_1 source hloop =>
      split_ifs with hidle
      case neg => exact .inl rfl
      dsimp only
      apply Or.imp_right (.imp_left .inl)
      refine scripts_given (.ops sid ops routes) rfl hidle (fun job hjob => ?_) w
      obtain ⟨op, hop, rfl⟩ := List.mem_map.mp hjob
      exact ⟨rfl, source, hloop, op, hop, rfl⟩
  | disconnect sid =>
    unfold step
    dsimp only
    split
    case h_2 => exact .inl rfl
    case h_1 source hloop =>
      split_ifs with hidle
      case neg => exact .inl rfl
      dsimp only
      apply Or.imp_right (.imp_left .inl)
      refine scripts_given (.disconnect sid) rfl hidle (fun job hjob => ⟨rfl, ⟨source, hloop⟩, ?_⟩) w
      cases source <;> simp only [List.mem_cons, List.mem_nil_iff, or_false] at hjob <;> tauto
  | ingest id op =>
    unfold step
    dsimp only
    split_ifs with hidle
    · dsimp only
      apply Or.imp_right (.imp_left .inl)
      exact scripts_given (.ingest id op) rfl hidle (fun job hjob => ⟨rfl, List.mem_singleton.mp hjob⟩) w
    · exact .inl rfl
  | refresh id fold =>
    unfold step
    dsimp only
    split_ifs with hidle
    · dsimp only
      apply Or.imp_right (.imp_left .inl)
      exact scripts_given (.refresh id fold) rfl hidle (fun job hjob => ⟨rfl, List.mem_singleton.mp hjob⟩) w
    · exact .inl rfl
  | bringBack id zone holder =>
    unfold step
    dsimp only
    split_ifs with hidle
    · dsimp only
      apply Or.imp_right (.imp_left .inl)
      exact scripts_given (.bringBack id zone holder) rfl hidle (fun job hjob => ⟨rfl, List.mem_singleton.mp hjob⟩) w
    · exact .inl rfl
  | carry id sent => exact (forwardRuns_scripts s id w (.inl ⟨sent, rfl⟩)).imp_right (.imp_left .inl)
  | arrive id ops => exact (forwardRuns_scripts s id w (.inr (.inl ⟨ops, rfl⟩))).imp_right (.imp_left .inl)
  | holderAnswers id answer =>
    exact (forwardRuns_scripts s id w (.inr (.inr (.inl ⟨answer, rfl⟩)))).imp_right (.imp_left .inl)
  | expire id count => exact (forwardRuns_scripts s id w (.inr (.inr (.inr (.inl ⟨count, rfl⟩))))).imp_right (.imp_left .inl)
  | forwardEnds id refused =>
    exact (forwardRuns_scripts s id w (.inr (.inr (.inr (.inr ⟨refused, rfl⟩))))).imp_right (.imp_left .inl)

/-- A session's end is begun whole, by a session that has nothing else to do. -/
theorem step_ends (s : Shared C) {e : Event} (he : ∀ w env, e ≠ .run w env) {sid : SessionId} {job : Job}
    (hjob : job ∈ (s.step e).1.scripts (.session sid)) (hends : job = .unsubscribeAll sid ∨
      job = .dropAdmitted sid ∨ job = .forget sid) :
    (s.step e).1.scripts (.session sid) = s.scripts (.session sid) ∨ s.idle (.session sid) ∧
      ∃ last, (last = .forget sid ∨ last = .dropAdmitted sid) ∧
        (s.step e).1.scripts (.session sid) = [.shut sid, .unsubscribeAll sid, last] := by
  rcases s.step_scripts he (.session sid) with hsame | ⟨-, hgives⟩
  · exact .inl hsame
  have hgive := hgives job hjob
  cases e with
  | disconnect sid' =>
    obtain ⟨hw, -, -⟩ := hgive
    obtain rfl := Worker.session.inj hw
    unfold step
    dsimp only
    split
    case h_2 => exact .inl rfl
    case h_1 source hloop =>
      split_ifs with hidle
      case neg => exact .inl rfl
      refine .inr ⟨hidle, ?_⟩
      cases source with
      | client => exact ⟨.forget sid, .inl rfl, by rw [give_scripts, if_pos rfl]⟩
      | forward zone node => exact ⟨.dropAdmitted sid, .inr rfl, by rw [give_scripts, if_pos rfl]⟩
  | _ => rcases hends with rfl | rfl | rfl <;> simp [Gives] at hgive

/-- Whether client sessions are checked never changes. -/
theorem step_clientGrants (s : Shared C) (e : Event) : (s.step e).1.clientGrants = s.clientGrants := by
  by_cases he : ∀ w env, e ≠ .run w env
  · exact (s.step_frame he).clientGrants
  push Not at he
  obtain ⟨w, env, rfl⟩ := he
  change (s.run w env).1.clientGrants = _
  have h := s.run_ran w env
  generalize s.run w env = r at h
  obtain ⟨s', did⟩ := r
  cases h with
  | nothing => rfl
  | release => rfl
  | inner job rest hheld => exact (s.doInner_frame w env job).clientGrants
  | take => rfl
  | outer job rest hfree hscript hcut => exact ((s.give w rest).doJob_frame w env job).clientGrants

end Shared

end Glade.Node.Serving
