import Glade.Node.Sessions

/-! The re-check of the grants (`server.rs`, `refresh_policy` and `recheck`): from
when a replaced fold's pass returns until the next fold is put in force, no op goes
to a session whose holder the fold refuses. A pass holds the cut from reading the
subscriptions to the last refusal, and a subscribe checks and registers under it. -/

namespace Glade.Node.Serving

open Wire Store Grants

variable {C : Crypto}

/-- The session may read the zone, after a history: `home`, or what the fold in force
grants its holder. -/
def Reads (t : List Happening) (sid : SessionId) (zone : Zone) : Prop :=
  zone.1 = home ∨ ∃ holder, holderOf t sid = some holder ∧ (inForce t).check holder readSubscribe zone.1 = .ok ()

/-- The ops a job under the cut queues to a session, or will. -/
def Inner.Serves : Inner → SessionId → Zone → Prop
  | .register sid zone, sid', zone' | .ackGap sid zone _ _, sid', zone' => sid' = sid ∧ zone' = zone
  | .queue sid (.ops ops), sid', zone' => sid' = sid ∧ ∃ op ∈ ops, zoneOf op = zone'
  | _, _, _ => False

/-- The subscriptions a pass has yet to look at, or to end. -/
def Inner.Marks : Inner → SessionId → Zone → Prop
  | .readAdmitted _, _, _ | .readEntries _ _, _, _ => True
  | .recheck _ _ todo refused, sid, zone => (sid, zone) ∈ todo ∨ ∃ r ∈ refused, r.sid = sid ∧ r.zone = zone
  | .unsubscribe sid zone (some _), sid', zone' => sid' = sid ∧ zone' = zone
  | _, _, _ => False

/-- What a pass does under the cut. -/
def Inner.OfPass : Inner → Prop
  | .readAdmitted _ | .readEntries _ _ | .recheck _ _ _ _ | .unsubscribe _ _ (some _) | .dropAdmitted _ | .shut _ => True
  | .queue _ frame => ∀ ops, frame ≠ .ops ops
  | _ => False

theorem Reads.append {t more : List Happening} {sid : SessionId} {zone : Zone} (h : Reads t sid zone)
    (hquiet : inForce (t ++ more) = inForce t) : Reads (t ++ more) sid zone := by
  apply h.imp_right
  rintro ⟨holder, hholder, hcheck⟩
  exact ⟨holder, holderOf_append more hholder, by rwa [hquiet]⟩

theorem Inner.Begins.not_serves {job : Inner} (h : job.Begins) (sid : SessionId) (zone : Zone) : ¬ job.Serves sid zone := by
  cases job with
  | place | ingest | admitClient | admitPeer | readAdmitted | lapse => exact id
  | _ => exact h.elim

/-! ### What is served, and what a pass covers -/

/-- Every subscription, and all that is about to be queued, is what its session may read. -/
structure Clear (t : List Happening) (s : Shared C) : Prop where
  registered : ∀ sid zone, sid ∈ s.subscribers zone → Reads t sid zone
  served : ∀ w inner, s.cut = some (w, inner) → ∀ job ∈ inner, ∀ sid zone, job.Serves sid zone → Reads t sid zone

/-- What a pass has left to do ends every subscription its session may not read. -/
structure Covered (t : List Happening) (s : Shared C) (inner : List Inner) : Prop where
  pass : ∀ job ∈ inner, job.OfPass
  marked : ∀ sid zone, sid ∈ s.subscribers zone → Reads t sid zone ∨ ∃ job ∈ inner, job.Marks sid zone

theorem Clear.mono {t did : List Happening} {s s' : Shared C} (h : Clear t s) (hquiet : inForce (t ++ did) = inForce t)
    (hsub : ∀ zone, s'.subscribers zone ⊆ s.subscribers zone)
    (hcut : ∀ w inner, s'.cut = some (w, inner) →
      s.cut = some (w, inner) ∨ ∀ job ∈ inner, ∀ sid zone, ¬ job.Serves sid zone) : Clear (t ++ did) s' where
  registered sid zone hmem := (h.registered sid zone (hsub zone hmem)).append hquiet
  served w inner hheld job hjob sid zone hserves := by
    rcases hcut w inner hheld with hold | hnone
    · exact (h.served w inner hold job hjob sid zone hserves).append hquiet
    · exact absurd hserves (hnone job hjob sid zone)

theorem Covered.mono {t did : List Happening} {s s' : Shared C} {inner : List Inner} (h : Covered t s inner)
    (hquiet : inForce (t ++ did) = inForce t) (hsub : ∀ zone, s'.subscribers zone ⊆ s.subscribers zone) :
    Covered (t ++ did) s' inner where
  pass := h.pass
  marked sid zone hmem := (h.marked sid zone (hsub zone hmem)).imp_left (·.append hquiet)

/-- A pass that has nothing left to do leaves every subscription one its session may read. -/
theorem Covered.clear {t : List Happening} {s : Shared C} (h : Covered t s []) (hcut : s.cut = none) : Clear t s where
  registered sid zone hmem := (h.marked sid zone hmem).resolve_right (by simp)
  served := by simp [hcut]

section Checks

variable {t : List Happening} {s : Shared C} (K : Kept t s)

include K

/-- A client whose check passes may read what it asks for. -/
theorem Kept.reads_client (hnames : NamesOnce t) {sid : SessionId} {zone : Zone}
    (h : s.clientCheck sid readSubscribe zone.1 = .ok ()) : Reads t sid zone := by
  obtain ⟨p, hp, hcheck⟩ := Shared.clientCheck_ok h
  rw [K.policy] at hcheck
  exact .inr ⟨_, K.holderOf_bound hnames (K.principals sid p hp), hcheck⟩

theorem Kept.reads_node {sid : SessionId} {zone zone' : Zone} {node : Bytes32} (hopened : .opened sid (.forward zone' node) ∈ t)
    (h : s.nodeCheck node readSubscribe zone.1 = .ok ()) : Reads t sid zone := by
  have hcheck := Shared.nodeCheck_ok h
  rw [K.policy] at hcheck
  exact .inr ⟨_, K.holderOf_forward hopened, hcheck⟩

/-- A subscription that passes the re-check may be read. -/
theorem Kept.reads_granted (hnames : NamesOnce t) (hgrants : s.clientGrants = true)
    {peers : Std.ExtTreeMap SessionId Bytes32}
    (hpeers : ∀ (sid : SessionId) (node : Bytes32), peers[sid]? = some node → ∃ zone, .opened sid (.forward zone node) ∈ t)
    {sid : SessionId} {zone : Zone} (h : s.readGranted peers sid zone.1 = .ok ()) : Reads t sid zone := by
  unfold Shared.readGranted at h
  split at h
  · rename_i node hnode
    obtain ⟨zone', hopened⟩ := hpeers sid node hnode
    exact K.reads_node hopened h
  · rw [if_pos hgrants] at h
    exact K.reads_client hnames h

end Checks

/-! ### A step keeps what is served clear -/

/-- What a job under the cut leads to serves only what may be read. -/
theorem Kept.more_serves {t : List Happening} {s : Shared C} (K : Kept t s) (hnames : NamesOnce t)
    (hgrants : s.clientGrants = true) (h : Clear t s) {w : Worker} (env : Env) {job : Inner} {rest : List Inner}
    (hheld : s.cut = some (w, job :: rest)) :
    ∀ job' ∈ (s.doInner w env job).2.1, ∀ sid zone, job'.Serves sid zone → Reads t sid zone := by
  intro job' hjob' sid zone hserves
  have hfits := K.cut w _ hheld job List.mem_cons_self
  cases job with
  | place origin op relay =>
    simp only [Shared.doInner] at hjob'
    split at hjob' <;> simp at hjob'
    subst hjob'
    exact hserves.elim
  | ingest from_ op =>
    simp only [Shared.doInner] at hjob'
    split at hjob' <;> simp at hjob'
    subst hjob'
    exact hserves.elim
  | fanOut from_ op =>
    obtain ⟨sid', hroute, rfl⟩ := List.mem_map.mp hjob'
    obtain ⟨rfl, op', hop', rfl⟩ := hserves
    rw [List.mem_singleton.mp hop']
    exact h.registered _ _ (Shared.mem_route.mp hroute).2
  | admitClient sid' zone' their forward =>
    simp only [Shared.doInner] at hjob'
    split at hjob'
    · simp at hjob'
    rename_i hchecked
    have hreads : Reads t sid' zone' := by
      by_cases hhome : zone'.1 = home
      · exact .inl hhome
      · rw [if_pos ⟨hhome, hgrants⟩] at hchecked
        exact K.reads_client hnames hchecked
    simp at hjob'
    rcases hjob' with rfl | rfl <;> obtain ⟨rfl, rfl⟩ := hserves <;> exact hreads
  | admitPeer sid' zone' their node chunk =>
    simp only [Shared.doInner] at hjob'
    split at hjob'
    · simp at hjob'
    rename_i hchecked
    have hreads : Reads t sid' zone' := by
      by_cases hhome : zone'.1 = home
      · exact .inl hhome
      · rw [if_pos hhome] at hchecked
        exact K.reads_node hfits.2 hchecked
    simp at hjob'
    rcases hjob' with rfl | rfl | rfl | rfl
    · exact hserves.elim
    · obtain ⟨rfl, rfl⟩ := hserves
      exact hreads
    · exact hserves.elim
    · obtain ⟨rfl, rfl⟩ := hserves
      exact hreads
  | ackGap sid' zone' their chunk =>
    have hreads : Reads t sid' zone' := h.served w _ hheld _ List.mem_cons_self _ _ ⟨rfl, rfl⟩
    obtain ⟨frames, hframes, hall⟩ := s.ackGap_more w env sid' zone' their chunk
    rw [hframes] at hjob'
    rcases List.mem_cons.mp hjob' with rfl | hjob'
    · exact hserves.elim
    · obtain ⟨ops, hops, rfl⟩ := List.mem_map.mp hjob'
      obtain ⟨rfl, op, hop, rfl⟩ := hserves
      rwa [K.zoneOf_missing (hall ops hops op hop)]
  | recheck generation peers todo refused =>
    cases todo with
    | nil =>
      simp only [Shared.doInner, Shared.refuse, List.mem_flatMap] at hjob'
      obtain ⟨r, -, hjob'⟩ := hjob'
      simp at hjob'
      rcases hjob' with rfl | rfl | rfl <;> exact hserves.elim
    | cons e todo =>
      simp only [Shared.doInner] at hjob'
      split_ifs at hjob'
      · rw [List.mem_singleton.mp hjob'] at hserves
        exact hserves.elim
      · split at hjob' <;> rw [List.mem_singleton.mp hjob'] at hserves <;> exact hserves.elim
  | tellLapsed zone' code why =>
    simp only [Shared.doInner, Shared.refuse, List.mem_flatMap] at hjob'
    obtain ⟨e, -, hjob'⟩ := hjob'
    simp at hjob'
    rcases hjob' with rfl | rfl | rfl <;> exact hserves.elim
  | lapse id code why =>
    simp only [Shared.doInner] at hjob'
    split at hjob' <;> simp at hjob'
    subst hjob'
    exact hserves.elim
  | dropAdmitted sid' =>
    simp only [Shared.doInner] at hjob'
    split_ifs at hjob' <;> simp at hjob'
    subst hjob'
    exact hserves.elim
  | readAdmitted | readEntries =>
    rw [List.mem_singleton.mp hjob'] at hserves
    exact hserves.elim
  | _ => simp [Shared.doInner] at hjob'

/-- A job under the cut keeps what is served clear. -/
theorem Clear.inner {t : List Happening} {s : Shared C} (h : Clear t s) (K : Kept t s) (hnames : NamesOnce t)
    (hgrants : s.clientGrants = true) {w : Worker} (env : Env) {job : Inner} {rest : List Inner}
    (hheld : s.cut = some (w, job :: rest)) :
    Clear (t ++ (s.doInner w env job).2.2)
      ((s.doInner w env job).1.setCut (some (w, (s.doInner w env job).2.1 ++ rest))) := by
  have hquiet : inForce (t ++ (s.doInner w env job).2.2) = inForce t := inForce_plain (s.doInner_plain w env job)
  have hserved := h.served w _ hheld
  constructor
  · intro sid zone hmem
    rcases s.doInner_subscribers w env job hmem with hold | rfl
    · exact (h.registered sid zone hold).append hquiet
    · exact (hserved _ List.mem_cons_self sid zone ⟨rfl, rfl⟩).append hquiet
  · intro w' inner hinner job' hjob' sid zone hserves
    obtain ⟨rfl, rfl⟩ := Prod.mk.inj (Option.some.inj hinner)
    rcases List.mem_append.mp hjob' with hmore | hrest
    · exact (K.more_serves hnames hgrants h env hheld job' hmore sid zone hserves).append hquiet
    · exact (hserved job' (List.mem_cons_of_mem _ hrest) sid zone hserves).append hquiet

/-- A pass's job leads to no others than a pass's. -/
theorem Inner.OfPass.more {job : Inner} (h : job.OfPass) (s : Shared C) (w : Worker) (env : Env) :
    ∀ job' ∈ (s.doInner w env job).2.1, job'.OfPass := by
  intro job' hjob'
  cases job with
  | recheck generation peers todo refused =>
    cases todo with
    | nil =>
      simp only [Shared.doInner, Shared.refuse, List.mem_flatMap] at hjob'
      obtain ⟨r, -, hjob'⟩ := hjob'
      simp at hjob'
      rcases hjob' with rfl | rfl | rfl
      · trivial
      · exact fun ops => by simp [refusalFrame]
      · trivial
    | cons e todo =>
      simp only [Shared.doInner] at hjob'
      split_ifs at hjob'
      · rw [List.mem_singleton.mp hjob']
        trivial
      · split at hjob' <;> rw [List.mem_singleton.mp hjob'] <;> trivial
  | dropAdmitted sid =>
    simp only [Shared.doInner] at hjob'
    split_ifs at hjob' <;> simp at hjob'
    subst hjob'
    trivial
  | readAdmitted | readEntries =>
    rw [List.mem_singleton.mp hjob']
    trivial
  | queue | unsubscribe | shut => simp [Shared.doInner] at hjob'
  | _ => exact h.elim

/-- What a pass's job marked and is still subscribed to, it leaves marked, unless it may be read. -/
theorem Kept.marks {t : List Happening} {s : Shared C} (K : Kept t s) (hnames : NamesOnce t) (hgrants : s.clientGrants = true)
    {w : Worker} (env : Env) {job : Inner} (hfits : job.Fits t w) (hpass : job.OfPass) {sid : SessionId} {zone : Zone}
    (hmarks : job.Marks sid zone) (hsub : sid ∈ (s.doInner w env job).1.subscribers zone) :
    Reads t sid zone ∨ ∃ job' ∈ (s.doInner w env job).2.1, job'.Marks sid zone := by
  cases job with
  | readAdmitted generation => exact .inr ⟨_, List.mem_cons_self, trivial⟩
  | readEntries generation peers => exact .inr ⟨_, List.mem_cons_self, .inl (Shared.mem_entries.mpr hsub)⟩
  | recheck generation peers todo refused =>
    cases todo with
    | nil =>
      obtain hnone | ⟨r, hr, rfl, rfl⟩ := hmarks
      · cases hnone
      · refine .inr ⟨.unsubscribe r.sid r.zone (some generation), ?_, rfl, rfl⟩
        exact List.mem_flatMap.mpr ⟨r, hr, by simp [Shared.refuse]⟩
    | cons e todo =>
      obtain ⟨sid', zone'⟩ := e
      simp only [Shared.doInner]
      by_cases hhome : zone'.1 = home
      · rw [if_pos hhome]
        rcases hmarks with htodo | hrefused
        · rcases List.mem_cons.mp htodo with heq | htodo
          · obtain ⟨rfl, rfl⟩ := Prod.mk.inj heq
            exact .inl (.inl hhome)
          · exact .inr ⟨_, List.mem_cons_self, .inl htodo⟩
        · exact .inr ⟨_, List.mem_cons_self, .inr hrefused⟩
      · rw [if_neg hhome]
        split
        · rename_i hgranted
          rcases hmarks with htodo | hrefused
          · rcases List.mem_cons.mp htodo with heq | htodo
            · obtain ⟨rfl, rfl⟩ := Prod.mk.inj heq
              exact .inl (K.reads_granted hnames hgrants hfits.2 hgranted)
            · exact .inr ⟨_, List.mem_cons_self, .inl htodo⟩
          · exact .inr ⟨_, List.mem_cons_self, .inr hrefused⟩
        · rename_i why _
          rcases hmarks with htodo | ⟨r, hr, heq⟩
          · rcases List.mem_cons.mp htodo with heq | htodo
            · obtain ⟨rfl, rfl⟩ := Prod.mk.inj heq
              exact .inr ⟨_, List.mem_cons_self, .inr ⟨⟨sid, zone, why⟩, by simp, rfl, rfl⟩⟩
            · exact .inr ⟨_, List.mem_cons_self, .inl htodo⟩
          · exact .inr ⟨_, List.mem_cons_self, .inr ⟨r, by simp [hr], heq⟩⟩
  | unsubscribe sid' zone' pass =>
    cases pass with
    | none => exact hmarks.elim
    | some generation =>
      obtain ⟨rfl, rfl⟩ := hmarks
      simp only [Shared.doInner, Shared.subscribers_unsubscribe, if_pos] at hsub
      exact absurd hsub (by simp)
  | queue to_ frame => cases frame <;> exact hmarks.elim
  | dropAdmitted | shut => exact hmarks.elim
  | _ => exact hpass.elim

/-- A pass's job keeps the pass covering what may not be read. -/
theorem Covered.inner {t : List Happening} {s : Shared C} {w : Worker} {job : Inner} {rest : List Inner}
    (h : Covered t s (job :: rest)) (K : Kept t s) (hnames : NamesOnce t) (hgrants : s.clientGrants = true) (env : Env)
    (hheld : s.cut = some (w, job :: rest)) :
    Covered (t ++ (s.doInner w env job).2.2) (s.doInner w env job).1 ((s.doInner w env job).2.1 ++ rest) := by
  have hquiet : inForce (t ++ (s.doInner w env job).2.2) = inForce t := inForce_plain (s.doInner_plain w env job)
  have hpass := h.pass job List.mem_cons_self
  constructor
  · intro job' hjob'
    rcases List.mem_append.mp hjob' with hmore | hrest
    · exact hpass.more s w env job' hmore
    · exact h.pass job' (List.mem_cons_of_mem _ hrest)
  · intro sid zone hmem
    have hold : sid ∈ s.subscribers zone := by
      refine (s.doInner_subscribers w env job hmem).resolve_right ?_
      rintro rfl
      exact hpass
    rcases h.marked sid zone hold with hreads | ⟨job', hjob', hmarks⟩
    · exact .inl (hreads.append hquiet)
    rcases List.mem_cons.mp hjob' with rfl | hrest
    · rcases K.marks hnames hgrants env (K.cut w _ hheld _ List.mem_cons_self) hpass hmarks hmem
        with hreads | ⟨job'', hmore, hmarks⟩
      · exact .inl (hreads.append hquiet)
      · exact .inr ⟨job'', List.mem_append_left _ hmore, hmarks⟩
    · exact .inr ⟨job', List.mem_append_right _ hrest, hmarks⟩

namespace Shared

theorem doJob_inForce (t : List Happening) (s : Shared C) (w : Worker) (env : Env) {job : Job}
    (hreplace : ∀ fold, job ≠ .replace fold) : inForce (t ++ (s.doJob w env job).2.2) = inForce t := by
  by_cases hbind : ∃ sid p, job = .bind sid p
  · obtain ⟨sid, p, rfl⟩ := hbind
    exact inForce_quiet (by simp [doJob])
  · exact inForce_plain (s.doJob_plain w env (fun sid p h => hbind ⟨sid, p, h⟩) hreplace)

/-- Only a refresh leaves a task to return. -/
theorem not_returned_doJob (s : Shared C) (w : Worker) (env : Env) {job : Job} (hreplace : ∀ fold, job ≠ .replace fold)
    (generation : ℕ) : .returned generation ∉ (s.doJob w env job).2.1 := by
  intro h
  rcases s.doJob_more w env h with ⟨_, _, _, heq⟩ | ⟨_, _, heq⟩ | ⟨_, _, heq⟩ | ⟨_, heq⟩ | ⟨_, fold, -, heq⟩
  · cases heq
  · cases heq
  · cases heq
  · cases heq
  · exact hreplace fold heq

/-- A refresh is told of by the task that returns. -/
theorem returned_of_mem_doJob (s : Shared C) (w : Worker) (env : Env) {job : Job} {generation : ℕ}
    (hx : .returned generation ∈ (s.doJob w env job).2.2) : job = .returned generation := by
  have h := s.doJob_did w env job
  generalize (s.doJob w env job).2.2 = did at h hx
  cases h with
  | returned generation' => rw [Happening.returned.inj (List.mem_singleton.mp hx)]
  | left sid => simp at hx
  | _ => simp at hx

theorem not_returned_doInner (s : Shared C) (w : Worker) (env : Env) (job : Inner) (generation : ℕ) :
    .returned generation ∉ (s.doInner w env job).2.2 := by
  intro hx
  have h := s.doInner_did w env job
  generalize (s.doInner w env job).2.2 = did at h hx
  cases h <;> simp at hx

theorem not_gives_returned (s : Shared C) {w : Worker} {e : Event} {generation : ℕ} : ¬ s.Gives w (.returned generation) e := by
  cases e <;> simp [Gives]

/-- Under the cut a frame is queued by the job that queues it, and it does nothing else. -/
theorem doInner_queued (s : Shared C) (w w' : Worker) (env : Env) {job : Inner} {sid : SessionId} {frame : Frame}
    (hx : .queued w' sid frame ∈ (s.doInner w env job).2.2) :
    job = .queue sid frame ∧ w' = w ∧ sid ∈ s.out ∧ (s.doInner w env job).2.2 = [.queued w sid frame] := by
  have h := s.doInner_did w env job
  generalize (s.doInner w env job).2.2 = did at h hx
  cases h with
  | queued sid' frame' hout =>
    obtain ⟨rfl, rfl, rfl⟩ := Happening.queued.inj (List.mem_singleton.mp hx)
    exact ⟨rfl, rfl, hout, rfl⟩
  | _ => simp at hx

/-- Without the cut a frame is queued by the job that sends it. -/
theorem doJob_queued (s : Shared C) (w w' : Worker) (env : Env) {job : Job} {sid : SessionId} {frame : Frame}
    (hx : .queued w' sid frame ∈ (s.doJob w env job).2.2) : job = .send sid frame ∧ w' = w := by
  have h := s.doJob_did w env job
  generalize (s.doJob w env job).2.2 = did at h hx
  cases h with
  | sent sid' frame' hout =>
    obtain ⟨rfl, rfl, rfl⟩ := Happening.queued.inj (List.mem_singleton.mp hx)
    exact ⟨rfl, rfl⟩
  | left sid' => simp at hx
  | _ => simp at hx

end Shared

/-! ### Passes -/

/-- Where a task whose refresh has replaced the fold stands: about to take the cut,
under it, or past its pass. -/
def Passing (t : List Happening) (s : Shared C) (w : Worker) (generation : ℕ) : Prop :=
  (∃ rest, s.scripts w = .cut [.readAdmitted generation] :: .returned generation :: rest ∧ s.cut.map Prod.fst ≠ some w) ∨
    (∃ inner, s.cut = some (w, inner) ∧ Covered t s inner) ∨ Clear t s

/-- What a refresh makes of the subscriptions, while no other replaces its fold. -/
structure Watched (t : List Happening) (s : Shared C) : Prop where
  scripts : ∀ w generation, .returned generation ∈ s.scripts w → generation ≤ s.policy.generation
  told : ∀ generation, .returned generation ∈ t → generation ≤ s.policy.generation
  passing : ∀ w, .returned s.policy.generation ∈ s.scripts w → Passing t s w s.policy.generation
  settled : .returned s.policy.generation ∈ t → Clear t s

theorem Watched.new (clientGrants : Bool) : Watched [] (Shared.new C clientGrants) where
  scripts := by simp [Shared.new]
  told := by simp
  passing := by simp [Shared.new]
  settled := by simp

/-- What the fold's generation bounds, and the passes of other tasks, while a step
neither replaces the fold nor serves anything. -/
theorem Passing.mono {t did : List Happening} {s s' : Shared C} {w : Worker} {generation : ℕ} (h : Passing t s w generation)
    (hclear : Clear t s → Clear (t ++ did) s') (hquiet : inForce (t ++ did) = inForce t)
    (hsub : ∀ zone, s'.subscribers zone ⊆ s.subscribers zone) (hscript : s'.scripts w = s.scripts w)
    (hcut : ∀ inner, s.cut = some (w, inner) → s'.cut = some (w, inner)) (hholds : s.cut.map Prod.fst ≠ some w →
      s'.cut.map Prod.fst ≠ some w) :
    Passing (t ++ did) s' w generation := by
  rcases h with ⟨rest, hrest, hfree⟩ | ⟨inner, hheld, hcovered⟩ | hclear'
  · exact .inl ⟨rest, by rw [hscript, hrest], hholds hfree⟩
  · exact .inr (.inl ⟨inner, hcut inner hheld, hcovered.mono hquiet hsub⟩)
  · exact .inr (.inr (hclear hclear'))

section Steps

variable {t : List Happening} {s : Shared C} (W : Watched t s)

include W

/-- A refresh puts its fold in force; no other's pass is of it. -/
theorem Watched.replace (w : Worker) (fold : Option Policy) (env : Env) {rest : List Job}
    (hscript : s.scripts w = .replace fold :: rest) (hfree : s.cut.map Prod.fst ≠ some w) :
    Watched (t ++ ((s.give w rest).doJob w env (.replace fold)).2.2)
      (((s.give w rest).doJob w env (.replace fold)).1.doFirst w ((s.give w rest).doJob w env (.replace fold)).2.1) := by
  have hscripts : ∀ w' generation, .returned generation ∈ (((s.give w rest).doJob w env (.replace fold)).1.doFirst w
      ((s.give w rest).doJob w env (.replace fold)).2.1).scripts w' →
      w' = w ∧ generation = s.policy.generation + 1 ∨ generation ≤ s.policy.generation := by
    intro w' generation h
    simp only [Shared.doJob, Shared.doFirst, Shared.give, PolicyView.replace, Function.update_apply] at h
    split_ifs at h with hw
    · subst hw
      simp only [List.cons_append, List.nil_append, List.mem_cons, reduceCtorEq, false_or, Job.returned.injEq] at h
      rcases h with rfl | h
      · exact .inl ⟨rfl, rfl⟩
      · exact .inr (W.scripts w' generation (hscript ▸ List.mem_cons_of_mem _ h))
    · exact .inr (W.scripts w' generation h)
  have hgeneration : (((s.give w rest).doJob w env (.replace fold)).1.doFirst w
      ((s.give w rest).doJob w env (.replace fold)).2.1).policy.generation = s.policy.generation + 1 := rfl
  constructor
  · intro w' generation h
    rw [hgeneration]
    rcases hscripts w' generation h with ⟨-, rfl⟩ | h <;> omega
  · intro generation h
    rw [hgeneration]
    have := W.told generation (by simpa [Shared.doJob] using h)
    omega
  · intro w' h
    rw [hgeneration] at h ⊢
    rcases hscripts w' _ h with ⟨rfl, -⟩ | h
    · exact .inl ⟨rest, by simp [Shared.doJob, Shared.doFirst, Shared.give, PolicyView.replace], hfree⟩
    · omega
  · intro h
    rw [hgeneration] at h
    have := W.told _ (by simpa [Shared.doJob] using h)
    omega

/-- Any other job without the cut leaves the subscriptions as the pass made them. -/
theorem Watched.outer (w : Worker) (env : Env) {job : Job} {rest : List Job} (hscript : s.scripts w = job :: rest)
    (hfree : s.cut.map Prod.fst ≠ some w) (hreplace : ∀ fold, job ≠ .replace fold) (hjob : ∀ inner, job ≠ .cut inner) :
    Watched (t ++ ((s.give w rest).doJob w env job).2.2)
      (((s.give w rest).doJob w env job).1.doFirst w ((s.give w rest).doJob w env job).2.1) := by
  have F := (s.give w rest).doJob_frame w env job
  have hgeneration : (((s.give w rest).doJob w env job).1.doFirst w ((s.give w rest).doJob w env job).2.1).policy.generation =
      s.policy.generation := congrArg PolicyView.generation (((s.give w rest).doJob_tables w env job).2.1 hreplace)
  have hquiet := Shared.doJob_inForce t (s.give w rest) w env hreplace
  have hclear : Clear t s → Clear (t ++ ((s.give w rest).doJob w env job).2.2)
      (((s.give w rest).doJob w env job).1.doFirst w ((s.give w rest).doJob w env job).2.1) := fun h =>
    h.mono hquiet F.subscribers fun w' inner hinner => .inl (by rw [← hinner]; exact F.cut.symm)
  have hscripts : ∀ w' generation, .returned generation ∈ (((s.give w rest).doJob w env job).1.doFirst w
      ((s.give w rest).doJob w env job).2.1).scripts w' → .returned generation ∈ s.scripts w' := by
    intro w' generation h
    simp only [Shared.doFirst, F.scripts, Function.update_apply, Shared.give_scripts] at h
    split_ifs at h with hw
    · subst hw
      rcases List.mem_append.mp h with hmore | hrest
      · exact absurd hmore (Shared.not_returned_doJob _ _ env hreplace generation)
      · exact hscript ▸ List.mem_cons_of_mem _ hrest
    · exact h
  -- A task whose next job is neither the cut nor under it has its pass behind it.
  have hpast : .returned s.policy.generation ∈ s.scripts w → Clear t s := by
    intro h
    rcases W.passing w h with ⟨rest', hrest', -⟩ | ⟨inner, hheld, -⟩ | h
    · rw [hscript] at hrest'
      exact absurd (List.cons.inj hrest').1 (hjob _)
    · exact absurd (by rw [hheld]; rfl) hfree
    · exact h
  constructor
  · intro w' generation h
    rw [hgeneration]
    exact W.scripts w' generation (hscripts w' generation h)
  · intro generation h
    rw [hgeneration]
    rcases List.mem_append.mp h with hold | hnew
    · exact W.told generation hold
    · have := Shared.returned_of_mem_doJob _ _ _ hnew
      exact W.scripts w generation (by rw [hscript, this]; exact List.mem_cons_self)
  · intro w' h
    rw [hgeneration] at h ⊢
    have hold := hscripts w' _ h
    by_cases hw : w' = w
    · subst hw
      exact .inr (.inr (hclear (hpast hold)))
    · refine (W.passing w' hold).mono hclear hquiet F.subscribers ?_ (fun inner hinner => F.cut.trans hinner) fun hnot => ?_
      · simp [Shared.doFirst, F.scripts, Shared.give_scripts, hw]
      · intro heq
        exact hnot (by rw [← heq]; exact congrArg _ F.cut.symm)
  · intro h
    rw [hgeneration] at h
    rcases List.mem_append.mp h with hold | hnew
    · exact hclear (W.settled hold)
    · have := Shared.returned_of_mem_doJob _ _ _ hnew
      exact hclear (hpast (by rw [hscript, this]; exact List.mem_cons_self))

/-- A task takes the cut. -/
theorem Watched.take (w : Worker) {inner : List Inner} {rest : List Job} (hscript : s.scripts w = .cut inner :: rest)
    (hfree : s.cut = none) (hserves : ∀ job ∈ inner, ∀ sid zone, ¬ job.Serves sid zone) :
    Watched t ((s.give w rest).setCut (some (w, inner))) := by
  have hclear : Clear t s → Clear t ((s.give w rest).setCut (some (w, inner))) := by
    intro h
    have : Clear (t ++ []) ((s.give w rest).setCut (some (w, inner))) := h.mono (by simp)
      (fun _ => Finset.Subset.refl _) fun w' inner' heq => by
        obtain ⟨rfl, rfl⟩ := Prod.mk.inj (Option.some.inj heq)
        exact .inr hserves
    simpa using this
  have hscripts : ∀ w' generation, .returned generation ∈ (s.give w rest).scripts w' → .returned generation ∈ s.scripts w' := by
    intro w' generation h
    rw [Shared.give_scripts] at h
    split_ifs at h with hw
    · subst hw
      exact hscript ▸ List.mem_cons_of_mem _ h
    · exact h
  refine ⟨fun w' generation h => W.scripts w' generation (hscripts w' generation h), W.told, fun w' h => ?_,
    fun h => hclear (W.settled h)⟩
  rcases W.passing w' (hscripts w' _ h) with ⟨rest', hrest', hnot⟩ | ⟨inner', hheld, -⟩ | h
  · by_cases hw : w' = w
    · subst hw
      obtain ⟨hinner, -⟩ := List.cons.inj (hscript.symm.trans hrest')
      obtain rfl := Job.cut.inj hinner
      exact .inr (.inl ⟨_, rfl, by simp [Inner.OfPass], fun sid zone _ => .inr ⟨_, List.mem_cons_self, trivial⟩⟩)
    · have hsame : (s.give w rest).scripts w' = s.scripts w' := by rw [Shared.give_scripts, if_neg hw]
      refine .inl ⟨rest', hsame.trans hrest', ?_⟩
      rw [Shared.setCut_cut]
      exact fun heq => hw (Option.some.inj heq).symm
  · rw [hfree] at hheld
    cases hheld
  · exact .inr (.inr (hclear h))

/-- A task lets go of the cut. -/
theorem Watched.release (w : Worker) (hheld : s.cut = some (w, [])) : Watched t (s.setCut none) := by
  have hclear : Clear t s → Clear t (s.setCut none) := fun h =>
    ⟨h.registered, by simp [Shared.setCut_cut]⟩
  refine ⟨W.scripts, W.told, fun w' h => ?_, fun h => hclear (W.settled h)⟩
  rcases W.passing w' h with ⟨rest, hrest, -⟩ | ⟨inner, heq, hcovered⟩ | h
  · exact .inl ⟨rest, hrest, by simp [Shared.setCut_cut]⟩
  · rw [hheld] at heq
    obtain ⟨rfl, rfl⟩ := Prod.mk.inj (Option.some.inj heq)
    exact .inr (.inr (Covered.clear ⟨by simp, hcovered.marked⟩ rfl))
  · exact .inr (.inr (hclear h))

/-- A job under the cut: of a pass, or between two. -/
theorem Watched.inner (K : Kept t s) (hnames : NamesOnce t) (hgrants : s.clientGrants = true) (w : Worker) (env : Env)
    {job : Inner} {rest : List Inner} (hheld : s.cut = some (w, job :: rest)) :
    Watched (t ++ (s.doInner w env job).2.2)
      ((s.doInner w env job).1.setCut (some (w, (s.doInner w env job).2.1 ++ rest))) := by
  have hgeneration : ((s.doInner w env job).1.setCut (some (w, (s.doInner w env job).2.1 ++ rest))).policy.generation =
      s.policy.generation := congrArg PolicyView.generation (s.doInner_frame w env job).policy
  have hclear := fun h : Clear t s => h.inner K hnames hgrants env hheld
  have hscripts : ∀ w' generation, Job.returned generation ∈ (s.doInner w env job).1.scripts w' →
      Job.returned generation ∈ s.scripts w' := by
    intro w' generation h
    rcases s.doInner_scripts w w' env job h with hold | ⟨-, ⟨_, _, _, hnew⟩ | ⟨_, _, hnew⟩ | ⟨_, _, _, _, _, -, -, hnew⟩⟩
    · exact hold
    all_goals cases hnew
  have htold : ∀ generation, Happening.returned generation ∈ t ++ (s.doInner w env job).2.2 → .returned generation ∈ t :=
    fun generation h => (List.mem_append.mp h).resolve_right (s.not_returned_doInner w env job generation)
  constructor
  · intro w' generation h
    rw [hgeneration]
    exact W.scripts w' generation (hscripts w' generation h)
  · intro generation h
    rw [hgeneration]
    exact W.told generation (htold generation h)
  · intro w' h
    rw [hgeneration] at h ⊢
    rcases W.passing w' (hscripts w' _ h) with ⟨rest', hrest', hnot⟩ | ⟨inner, heq, hcovered⟩ | h
    · rw [hheld] at hnot
      have hw : w' ≠ w := fun heq => hnot (by rw [heq]; rfl)
      refine .inl ⟨rest', ((s.doInner_frame w env job).scripts w' hw).trans hrest', ?_⟩
      rw [Shared.setCut_cut]
      exact fun heq => hw (Option.some.inj heq).symm
    · rw [hheld] at heq
      obtain ⟨rfl, rfl⟩ := Prod.mk.inj (Option.some.inj heq)
      have hcovered' := hcovered.inner K hnames hgrants env hheld
      exact .inr (.inl ⟨_, rfl, hcovered'.pass, hcovered'.marked⟩)
    · exact .inr (.inr (hclear h))
  · intro h
    rw [hgeneration] at h
    exact hclear (W.settled (htold _ h))

/-- An event that runs no task. -/
theorem Watched.event {e : Event} (he : ∀ w env, e ≠ .run w env) : Watched (t ++ (s.step e).2) (s.step e).1 := by
  have F := s.step_frame he
  have hdid : ∀ x ∈ (s.step e).2, (∃ sid source, x = .opened sid source) ∨ ∃ sid ops, x = .received sid ops := by
    intro x hx
    rcases s.step_did he with ⟨hdid, -⟩ | ⟨source, hdid, -⟩
    · exact .inr (hdid x hx)
    · rw [hdid] at hx
      exact .inl ⟨_, _, List.mem_singleton.mp hx⟩
  have hquiet : inForce (t ++ (s.step e).2) = inForce t := inForce_quiet fun x hx generation fold heq => by
    rcases hdid x hx with ⟨_, _, rfl⟩ | ⟨_, _, rfl⟩ <;> cases heq
  have htold : ∀ generation, .returned generation ∈ t ++ (s.step e).2 → .returned generation ∈ t := fun generation h =>
    (List.mem_append.mp h).resolve_right fun hx => by
      rcases hdid _ hx with ⟨_, _, heq⟩ | ⟨_, _, heq⟩ <;> cases heq
  have hsub : ∀ zone, (s.step e).1.subscribers zone ⊆ s.subscribers zone := fun zone => by
    rw [Shared.subscribers, F.router]
    exact Finset.Subset.refl _
  have hclear : Clear t s → Clear (t ++ (s.step e).2) (s.step e).1 := fun h =>
    h.mono hquiet hsub fun w inner hinner => .inl (by rw [← F.cut]; exact hinner)
  have hscripts : ∀ w generation, .returned generation ∈ (s.step e).1.scripts w → (s.step e).1.scripts w = s.scripts w := by
    intro w generation h
    rcases s.step_scripts he w with hsame | ⟨-, hgives⟩
    · exact hsame
    · exact absurd (hgives _ h) s.not_gives_returned
  constructor
  · intro w generation h
    rw [F.policy]
    exact W.scripts w generation (hscripts w generation h ▸ h)
  · intro generation h
    rw [F.policy]
    exact W.told generation (htold generation h)
  · intro w h
    rw [F.policy] at h ⊢
    have hsame := hscripts w _ h
    refine (W.passing w (hsame ▸ h)).mono hclear hquiet hsub hsame (fun inner hinner => F.cut.trans hinner) ?_
    rw [F.cut]
    exact id
  · intro h
    rw [F.policy] at h
    exact hclear (W.settled (htold _ h))

theorem Watched.step (K : Kept t s) (hnames : NamesOnce t) (hgrants : s.clientGrants = true) (e : Event) :
    Watched (t ++ (s.step e).2) (s.step e).1 := by
  by_cases he : ∀ w env, e ≠ .run w env
  · exact W.event he
  push Not at he
  obtain ⟨w, env, rfl⟩ := he
  change Watched (t ++ (s.run w env).2) (s.run w env).1
  have h := s.run_ran w env
  generalize s.run w env = r at h
  obtain ⟨s', did⟩ := r
  dsimp only at h ⊢
  cases h with
  | nothing => simpa using W
  | release hheld => simpa using W.release w hheld
  | inner job rest hheld => exact W.inner K hnames hgrants w env hheld
  | take inner rest hfree hscript =>
    obtain ⟨job, rfl, hbegins, -⟩ := K.scripts w _ (hscript ▸ List.mem_cons_self)
    rw [List.append_nil]
    refine W.take w hscript hfree fun job' hjob' => ?_
    rw [List.mem_singleton.mp hjob']
    exact hbegins.not_serves
  | outer job rest hfree hscript hcut =>
    by_cases hreplace : ∃ fold, job = .replace fold
    · obtain ⟨fold, rfl⟩ := hreplace
      exact W.replace w fold env hscript hfree
    · exact W.outer w env hscript hfree (fun fold heq => hreplace ⟨fold, heq⟩) hcut

/-- What a step queues to a session once the fold in force has been checked. -/
theorem Watched.served (K : Kept t s) (e : Event) {w : Worker} {sid : SessionId} {ops : List Op} {before after : List Happening}
    (hdid : (s.step e).2 = before ++ .queued w sid (.ops ops) :: after)
    (hreturned : .returned (inForce (t ++ before)).generation ∈ t ++ before) :
    ∀ op ∈ ops, Reads (t ++ before) sid (zoneOf op) := by
  have hx : .queued w sid (.ops ops) ∈ (s.step e).2 := by rw [hdid]; exact List.mem_append_right _ List.mem_cons_self
  by_cases he : ∀ w env, e ≠ .run w env
  · rcases s.step_did he with ⟨hopened, -⟩ | ⟨source, hopened, -⟩
    · obtain ⟨_, _, heq⟩ := hopened _ hx
      cases heq
    · simp [hopened] at hx
  push Not at he
  obtain ⟨w', env, rfl⟩ := he
  change .queued w sid (.ops ops) ∈ (s.run w' env).2 at hx
  change (s.run w' env).2 = _ at hdid
  have h := s.run_ran w' env
  generalize s.run w' env = r at h hx hdid
  obtain ⟨s', did⟩ := r
  dsimp only at h hx hdid
  cases h with
  | nothing | release | take => cases hx
  | inner job rest hheld =>
    obtain ⟨rfl, -, -, hsingle⟩ := s.doInner_queued w' w env hx
    rw [hsingle] at hdid
    obtain rfl : before = [] := by
      cases before with
      | nil => rfl
      | cons y before => simp at hdid
    rw [List.append_nil, ← K.policy] at hreturned
    rw [List.append_nil]
    exact fun op hop => (W.settled hreturned).served w' _ hheld _ List.mem_cons_self sid _ ⟨rfl, op, hop, rfl⟩
  | outer job rest hfree hscript hcut =>
    obtain ⟨rfl, -⟩ := Shared.doJob_queued _ w' w env hx
    have hfits : (Job.send sid (.ops ops)).Fits t w' := K.scripts w' _ (hscript ▸ List.mem_cons_self)
    exact absurd rfl (hfits.2 ops)

end Steps

/-- Once the pass of the fold in force has returned, no op is queued to a session that
may not read its zone. -/
def Served (t : List Happening) : Prop :=
  Histories.Each (fun before x => ∀ w sid ops, x = .queued w sid (.ops ops) → .returned (inForce before).generation ∈ before →
    ∀ op ∈ ops, Reads before sid (zoneOf op)) t

/-- What a run that checks client sessions keeps. -/
def Guarded (t : List Happening) (s : Shared C) : Prop :=
  Kept t s ∧ s.clientGrants = true ∧ (NamesOnce t → Watched t s ∧ Served t)

theorem Guarded.step {t : List Happening} {s : Shared C} (h : Guarded t s) (e : Event) :
    Guarded (t ++ (s.step e).2) (s.step e).1 := by
  obtain ⟨K, hgrants, ih⟩ := h
  refine ⟨K.step e, (s.step_clientGrants e).trans hgrants, fun hnames => ?_⟩
  obtain ⟨W, hserved⟩ := ih hnames.left
  refine ⟨W.step K hnames.left hgrants e, hserved.append fun before x after hdid w sid ops hx => ?_⟩
  subst hx
  exact W.served K e hdid

theorem guarded_run (C : Crypto) (events : List Event) :
    Guarded (runOf C true events).2 (runOf C true events).1 :=
  Histories.run_inv ⟨.new true, rfl, fun _ => ⟨.new true, Histories.each_nil _⟩⟩
    (fun _ _ e h => h.step e) events

end Glade.Node.Serving
