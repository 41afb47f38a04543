import Glade.Node.Sessions

/-! Where the task under the cut stands: what it has yet to do there is one of a few
scripts, and each says what the router, the session table and the grants' holders
are meanwhile. What other tasks do beside the cut ends sessions, and changes none
of it. -/

namespace Glade.Node.Serving

open Wire Store Grants

variable {C : Crypto}

/-! ### Subscriptions -/

def subscribedAfter (sid : SessionId) (zone : Zone) (was : Bool) : Happening → Bool
  | .registered sid' zone' => was || (sid' = sid && zone' = zone)
  | .left sid' zone' _ => was && !(sid' = sid && zone' = zone)
  | _ => was

/-- Whether a session is subscribed to a zone, after a history. -/
def subscribed (t : List Happening) (sid : SessionId) (zone : Zone) : Bool := t.foldl (subscribedAfter sid zone) false

/-- A session is in the session table, or was taken out of it. -/
def Entered (t : List Happening) (s : Shared C) (sid : SessionId) : Prop := sid ∈ s.out ∨ .shut sid ∈ t

/-- A session is subscribed to a zone, or nothing is sent to it any more. -/
def SubscribedOrGone (s : Shared C) (sid : SessionId) (zone : Zone) : Prop :=
  sid ∈ s.subscribers zone ∨ sid ∉ s.out ∧ sid < s.next

/-- The re-check finds whom a session reads for, `peers` being the streams served. -/
def HasHolder (s : Shared C) (peers : Std.ExtTreeMap SessionId Bytes32) (sid : SessionId) : Prop :=
  (∃ node, peers[sid]? = some node) ∨ ∃ p, s.principals[sid]? = some p

/-- Whom a session reads for, by what it is and what it said. -/
inductive HeldBy (t : List Happening) (sid : SessionId) : Holder → Prop where
  | node (zone : Zone) (id : Bytes32) : .opened sid (.forward zone id) ∈ t → HeldBy t sid (.node id)
  | principal (p : String) : .bound sid p ∈ t → HeldBy t sid (.principal p)

/-- A fold put in force, by the refresh of `generation` or a later one, refuses the
session its zone. -/
def RefusedBy (t : List Happening) (generation : ℕ) (sid : SessionId) (zone : Zone) : Prop :=
  ∃ view : PolicyView, generation ≤ view.generation ∧ .replaced view.generation view.fold ∈ t ∧
    ∃ holder, HeldBy t sid holder ∧ view.check holder readSubscribe zone.1 ≠ .ok ()

/-- What only a task under the cut does to subscriptions, and a pass's refusals. -/
def Happening.UnderCut : Happening → Prop
  | .registered _ _ | .left _ _ (some _) | .queued (.other _) _ (.error _) => True
  | _ => False

/-- The last thing done under the cut took the session out of the zone. -/
def LastLeft (t : List Happening) (generation : ℕ) (sid : SessionId) (zone : Zone) : Prop :=
  ∃ before after, t = before ++ .left sid zone (some generation) :: after ∧ ∀ x ∈ after, ¬ x.UnderCut

/-! ### Stages -/

/-- A frame of ops for a session, of zones it is subscribed to. -/
def QueuesOps (s : Shared C) (job : Inner) : Prop :=
  ∃ sid ops, job = .queue sid (.ops ops) ∧ ∀ op ∈ ops, SubscribedOrGone s sid (zoneOf op)

/-- What is done to refuse subscriptions, one after the other. -/
def refusals (code : ErrorCode) (pass : Option ℕ) (refused : List Refusal) : List Inner :=
  refused.flatMap fun r => Shared.refuse r.zone code r.why pass r.sid

/-- Subscriptions that are to be refused: each once, and by a pass for a fold's sake. -/
structure Refusable (t : List Happening) (s : Shared C) (w : Worker) (code : ErrorCode) (pass : Option ℕ)
    (refused : List Refusal) : Prop where
  lapse : pass = none → ∃ id, w = .forward id
  nodup : (refused.map fun r => (r.sid, r.zone)).Nodup
  each : ∀ r ∈ refused, .registered r.sid r.zone ∈ t ∧ SubscribedOrGone s r.sid r.zone
  why : ∀ generation, pass = some generation →
    (∃ id, w = .other id) ∧ code = .unauthorized ∧ ∀ r ∈ refused, r.sid ∈ s.subscribers r.zone →
      RefusedBy t generation r.sid r.zone

/-- Where a pass's re-check stands: each subscription is yet to be looked at, admitted, or refused. -/
structure Rechecking (t : List Happening) (s : Shared C) (w : Worker) (generation : ℕ) (peers : Std.ExtTreeMap SessionId Bytes32)
    (todo : List (SessionId × Zone)) (refused : List Refusal) : Prop where
  nodup : (todo ++ refused.map fun r => (r.sid, r.zone)).Nodup
  todo : ∀ sid zone, (sid, zone) ∈ todo → (.registered sid zone ∈ t ∧ SubscribedOrGone s sid zone) ∧
    (sid ∈ s.subscribers zone → zone.1 ≠ home → s.clientGrants = true → HasHolder s peers sid)
  refused : Refusable t s w .unauthorized (some generation) refused

/-- What the task under the cut has yet to do there. -/
inductive Stage (t : List Happening) (s : Shared C) (w : Worker) : List Inner → Prop where
  | begins (job : Inner) : job.Begins → Stage t s w [job]
  | fanOut (from_ : SessionId) (op : Op) : Stage t s w [.fanOut from_ op]
  | queues (inner : List Inner) : (∀ job ∈ inner, QueuesOps s job) → Stage t s w inner
  | enter (sid : SessionId) (zone : Zone) (node : Bytes32) (their : SeqHeads) (chunk : ℕ) :
    Stage t s w [.enter sid, .register sid zone, .admitted sid node, .ackGap sid zone their (some chunk)]
  | registerPeer (sid : SessionId) (zone : Zone) (node : Bytes32) (their : SeqHeads) (chunk : ℕ) : Entered t s sid →
    Stage t s w [.register sid zone, .admitted sid node, .ackGap sid zone their (some chunk)]
  | register (sid : SessionId) (zone : Zone) (their : SeqHeads) : Entered t s sid →
    (zone.1 ≠ home → s.clientGrants = true → ∃ p, s.principals[sid]? = some p) →
    Stage t s w [.register sid zone, .ackGap sid zone their none]
  | admitted (sid : SessionId) (zone : Zone) (node : Bytes32) (their : SeqHeads) (chunk : ℕ) : SubscribedOrGone s sid zone →
    Stage t s w [.admitted sid node, .ackGap sid zone their (some chunk)]
  | ackGap (sid : SessionId) (zone : Zone) (their : SeqHeads) (chunk : Option ℕ) : SubscribedOrGone s sid zone →
    Stage t s w [.ackGap sid zone their chunk]
  | ack (sid : SessionId) (h : Heads) (inner : List Inner) : (∀ job ∈ inner, QueuesOps s job) →
    Stage t s w (.queue sid (.heads h) :: inner)
  | readEntries (generation : ℕ) (peers : Std.ExtTreeMap SessionId Bytes32) :
    (∀ sid zone, sid ∈ s.subscribers zone → zone.1 ≠ home → s.clientGrants = true → HasHolder s peers sid) →
    Stage t s w [.readEntries generation peers]
  | recheck (generation : ℕ) (peers : Std.ExtTreeMap SessionId Bytes32) (todo : List (SessionId × Zone))
    (refused : List Refusal) :
    Rechecking t s w generation peers todo refused → Stage t s w [.recheck generation peers todo refused]
  | tellLapsed (zone : Zone) (code : ErrorCode) (why : String) : (∃ id, w = .forward id) → Stage t s w [.tellLapsed zone code why]
  | refuses (code : ErrorCode) (pass : Option ℕ) (refused : List Refusal) : Refusable t s w code pass refused →
    Stage t s w (refusals code pass refused)
  | tells (sid : SessionId) (zone : Zone) (why : String) (code : ErrorCode) (pass : Option ℕ) (refused : List Refusal) :
    Refusable t s w code pass refused → .registered sid zone ∈ t → sid ∉ s.subscribers zone →
    (∀ generation, pass = some generation → sid ∈ s.out → LastLeft t generation sid zone) →
    Stage t s w (.queue sid (refusalFrame code why zone) :: .dropAdmitted sid :: refusals code pass refused)
  | dropAdmitted (sid : SessionId) (zone : Zone) (code : ErrorCode) (pass : Option ℕ) (refused : List Refusal) :
    Refusable t s w code pass refused → .registered sid zone ∈ t → sid ∉ s.subscribers zone →
    Stage t s w (.dropAdmitted sid :: refusals code pass refused)
  | shut (sid : SessionId) (code : ErrorCode) (pass : Option ℕ) (refused : List Refusal) :
    Refusable t s w code pass refused → Stage t s w (.shut sid :: refusals code pass refused)

/-- The jobs that end a session. -/
def Job.Ends (sid : SessionId) (job : Job) : Prop := job = .unsubscribeAll sid ∨ job = .dropAdmitted sid ∨ job = .forget sid

/-- How far a session's end has come. -/
structure Ending (s : Shared C) (sid : SessionId) : Prop where
  free : s.cut.map Prod.fst ≠ some (.session sid)
  script : ∃ last, (last = .forget sid ∨ last = .dropAdmitted sid) ∧
    (s.scripts (.session sid) = [.shut sid, .unsubscribeAll sid, last] ∨
      s.scripts (.session sid) = [.unsubscribeAll sid, last] ∧ sid ∉ s.out ∨
      s.scripts (.session sid) = [last] ∧ sid ∉ s.out ∧ ∀ zone, sid ∉ s.subscribers zone)

/-- What the tables say of the sessions, and where the task under the cut stands. -/
structure Seated (t : List Happening) (s : Shared C) : Prop where
  subscribed : ∀ sid zone, sid ∈ s.subscribers zone ↔ subscribed t sid zone = true
  registered : ∀ sid zone, .registered sid zone ∈ t →
    Entered t s sid ∧ (.opened sid .client ∈ t ∨ ∃ node, .opened sid (.forward zone node) ∈ t)
  clients : ∀ sid, .opened sid .client ∈ t → Entered t s sid
  known : ∀ sid zone, sid ∈ s.subscribers zone → zone.1 ≠ home → s.clientGrants = true →
    HasHolder s s.admitted sid ∨ ∃ node rest, s.cut = some (.session sid, .admitted sid node :: rest)
  ending : ∀ sid, ∀ job ∈ s.scripts (.session sid), job.Ends sid → Ending s sid
  stage : ∀ w inner, s.cut = some (w, inner) → Stage t s w inner

/-! ### Beside the cut -/

theorem HeldBy.append {t : List Happening} {sid : SessionId} {holder : Holder} (more : List Happening) (h : HeldBy t sid holder) :
    HeldBy (t ++ more) sid holder := by
  cases h with
  | node zone id hopened => exact .node zone id (List.mem_append_left _ hopened)
  | principal p hbound => exact .principal p (List.mem_append_left _ hbound)

theorem RefusedBy.append {t : List Happening} {generation : ℕ} {sid : SessionId} {zone : Zone} (more : List Happening)
    (h : RefusedBy t generation sid zone) : RefusedBy (t ++ more) generation sid zone := by
  obtain ⟨view, hle, hreplaced, holder, hheld, hcheck⟩ := h
  exact ⟨view, hle, List.mem_append_left _ hreplaced, holder, hheld.append more, hcheck⟩

theorem LastLeft.append {t more : List Happening} {generation : ℕ} {sid : SessionId} {zone : Zone}
    (h : LastLeft t generation sid zone) (hmore : ∀ x ∈ more, ¬ x.UnderCut) : LastLeft (t ++ more) generation sid zone := by
  obtain ⟨before, after, rfl, hafter⟩ := h
  refine ⟨before, after ++ more, by simp, fun x hx => ?_⟩
  exact (List.mem_append.mp hx).elim (hafter x) (hmore x)

theorem Entered.append {t : List Happening} {s s' : Shared C} {sid : SessionId} (more : List Happening) (h : Entered t s sid)
    (hout : sid ∈ s.out → sid ∈ s'.out ∨ .shut sid ∈ more) : Entered (t ++ more) s' sid := by
  rcases h with h | h
  · exact (hout h).imp_right (List.mem_append_right _)
  · exact .inr (List.mem_append_left _ h)

theorem Refusable.mono {t : List Happening} {s s' : Shared C} {w : Worker} {code : ErrorCode} {pass : Option ℕ} {refused : List Refusal}
    (h : Refusable t s w code pass refused) (more : List Happening)
    (hgone : ∀ r ∈ refused, SubscribedOrGone s r.sid r.zone → SubscribedOrGone s' r.sid r.zone)
    (hsub : ∀ zone, s'.subscribers zone ⊆ s.subscribers zone) : Refusable (t ++ more) s' w code pass refused where
  lapse := h.lapse
  nodup := h.nodup
  each r hr := ⟨List.mem_append_left _ (h.each r hr).1, hgone r hr (h.each r hr).2⟩
  why generation hpass := ⟨(h.why generation hpass).1, (h.why generation hpass).2.1, fun r hr hmem =>
    ((h.why generation hpass).2.2 r hr (hsub _ hmem)).append more⟩

/-- What a step beside the cut may do: end sessions, and nothing a task under the cut does. -/
structure Aside (did : List Happening) (s s' : Shared C) : Prop where
  gone : ∀ sid zone, SubscribedOrGone s sid zone → SubscribedOrGone s' sid zone
  entered : ∀ sid, sid ∈ s.out → sid ∈ s'.out ∨ .shut sid ∈ did
  out : ∀ sid, sid ∈ s'.out → sid ∈ s.out ∨ s.next ≤ sid
  subscribers : ∀ zone, s'.subscribers zone ⊆ s.subscribers zone
  principals : ∀ sid p, s.principals[sid]? = some p → (∃ p', s'.principals[sid]? = some p') ∨
    s.cut.map Prod.fst ≠ some (.session sid) ∧ ∀ zone, sid ∉ s.subscribers zone
  clientGrants : s'.clientGrants = s.clientGrants
  quiet : ∀ x ∈ did, ¬ x.UnderCut

section Aside

variable {t did : List Happening} {s s' : Shared C} {w : Worker} (A : Aside did s s')

include A

theorem Aside.hasHolder {peers : Std.ExtTreeMap SessionId Bytes32} {sid : SessionId} {zone : Zone} (h : HasHolder s peers sid)
    (hsub : sid ∈ s.subscribers zone) : HasHolder s' peers sid := by
  apply h.imp_right
  rintro ⟨p, hp⟩
  rcases A.principals sid p hp with hp' | ⟨-, hnone⟩
  · exact hp'
  · exact absurd hsub (hnone zone)

theorem Aside.queuesOps {job : Inner} (h : QueuesOps s job) : QueuesOps s' job := by
  obtain ⟨sid, ops, rfl, hops⟩ := h
  exact ⟨sid, ops, rfl, fun op hop => A.gone sid _ (hops op hop)⟩

theorem Aside.refusable {code : ErrorCode} {pass : Option ℕ} {refused : List Refusal} (h : Refusable t s w code pass refused) :
    Refusable (t ++ did) s' w code pass refused :=
  h.mono did (fun r _ => A.gone r.sid r.zone) A.subscribers

/-- The task under the cut stands where it stood. -/
theorem Aside.stage {inner : List Inner} (hregister : ∀ sid zone, .register sid zone ∈ inner →
    s.cut.map Prod.fst = some (.session sid))
    (hnext : ∀ sid zone, .registered sid zone ∈ t → sid < s.next) (h : Stage t s w inner) : Stage (t ++ did) s' w inner := by
  cases h with
  | begins job hbegins => exact .begins job hbegins
  | fanOut from_ op => exact .fanOut from_ op
  | queues _ hall => exact .queues _ fun job hjob => A.queuesOps (hall job hjob)
  | enter sid zone node their chunk => exact .enter sid zone node their chunk
  | registerPeer sid zone node their chunk hentered =>
    exact .registerPeer sid zone node their chunk (hentered.append did (A.entered sid))
  | register sid zone their hentered hp =>
    refine .register sid zone their (hentered.append did (A.entered sid)) fun hhome hgrants => ?_
    obtain ⟨p, hp⟩ := hp hhome (A.clientGrants ▸ hgrants)
    rcases A.principals sid p hp with hp' | ⟨hfree, -⟩
    · exact hp'
    · exact absurd (hregister sid zone List.mem_cons_self) hfree
  | admitted sid zone node their chunk hsub => exact .admitted sid zone node their chunk (A.gone sid zone hsub)
  | ackGap sid zone their chunk hsub => exact .ackGap sid zone their chunk (A.gone sid zone hsub)
  | ack sid h inner hall => exact .ack sid h inner fun job hjob => A.queuesOps (hall job hjob)
  | readEntries generation peers hknown =>
    refine .readEntries generation peers fun sid zone hsub hhome hgrants => ?_
    have hold := A.subscribers zone hsub
    exact A.hasHolder (hknown sid zone hold hhome (A.clientGrants ▸ hgrants)) hold
  | recheck generation peers todo refused hre =>
    refine .recheck generation peers todo refused ⟨hre.nodup, fun sid zone hmem => ?_, A.refusable hre.refused⟩
    obtain ⟨⟨hregistered, hgone⟩, hknown⟩ := hre.todo sid zone hmem
    refine ⟨⟨List.mem_append_left _ hregistered, A.gone sid zone hgone⟩, fun hsub hhome hgrants => ?_⟩
    have hold := A.subscribers zone hsub
    exact A.hasHolder (hknown hold hhome (A.clientGrants ▸ hgrants)) hold
  | tellLapsed zone code why hw => exact .tellLapsed zone code why hw
  | refuses code pass refused hre => exact .refuses code pass refused (A.refusable hre)
  | tells sid zone why code pass refused hre hregistered hsub hleft =>
    refine .tells sid zone why code pass refused (A.refusable hre) (List.mem_append_left _ hregistered)
      (fun hmem => hsub (A.subscribers zone hmem)) fun generation hpass hout => ?_
    exact (hleft generation hpass ((A.out sid hout).resolve_right (hnext sid zone hregistered).not_ge)).append A.quiet
  | dropAdmitted sid zone code pass refused hre hregistered hsub =>
    exact .dropAdmitted sid zone code pass refused (A.refusable hre) (List.mem_append_left _ hregistered)
      fun hmem => hsub (A.subscribers zone hmem)
  | shut sid code pass refused hre => exact .shut sid code pass refused (A.refusable hre)

end Aside

/-! ### Under the cut -/

namespace Shared

theorem nodup_entries (s : Shared C) : s.entries.Nodup := by
  unfold entries
  rw [List.nodup_flatMap]
  constructor
  · intro e _
    exact (Finset.sort_nodup _ _).map fun a b h => (Prod.mk.inj h).1
  · refine (Std.ExtTreeMap.distinct_keys_toList (t := s.router)).imp fun {a b} hne x ha hb => ?_
    obtain ⟨sid, -, rfl⟩ := List.mem_map.mp ha
    obtain ⟨sid', -, heq⟩ := List.mem_map.mp hb
    exact hne (by rw [(Prod.mk.inj heq).2]; exact Std.ReflOrd.compare_self)

end Shared

theorem subscribed_append (t more : List Happening) (sid : SessionId) (zone : Zone) :
    subscribed (t ++ more) sid zone = more.foldl (subscribedAfter sid zone) (subscribed t sid zone) := List.foldl_append

/-- A subscription was registered. -/
theorem registered_of_subscribed {t : List Happening} {sid : SessionId} {zone : Zone} (h : subscribed t sid zone = true) :
    .registered sid zone ∈ t := by
  induction t using List.reverseRecOn with
  | nil => simp [subscribed] at h
  | append_singleton t x ih =>
    rw [subscribed_append, List.foldl_cons, List.foldl_nil] at h
    cases x with
    | registered sid' zone' =>
      simp only [subscribedAfter, Bool.or_eq_true, Bool.and_eq_true, decide_eq_true_eq] at h
      rcases h with h | ⟨rfl, rfl⟩
      · exact List.mem_append_left _ (ih h)
      · exact List.mem_append_right _ List.mem_cons_self
    | left sid' zone' pass =>
      simp only [subscribedAfter, Bool.and_eq_true] at h
      exact List.mem_append_left _ (ih h.1)
    | _ => exact List.mem_append_left _ (ih h)

/-- A fold put in force by a refresh, or by one after it, is the last put in force. -/
theorem replaced_inForce {t : List Happening} {generation : ℕ} {fold : Option Policy} (h : .replaced generation fold ∈ t) :
    .replaced (inForce t).generation (inForce t).fold ∈ t := by
  induction t using List.reverseRecOn with
  | nil => cases h
  | append_singleton t x ih =>
    rw [inForce_append, List.foldl_cons, List.foldl_nil]
    cases x with
    | replaced generation' fold' => exact List.mem_append_right _ List.mem_cons_self
    | _ => exact List.mem_append_left _ (ih (by simpa using h))

/-- The re-check refuses only for the sake of the fold in force. -/
theorem Kept.refusedBy {t : List Happening} {s : Shared C} (K : Kept t s) {generation : ℕ} {fold : Option Policy}
    (hreplaced : .replaced generation fold ∈ t) {peers : Std.ExtTreeMap SessionId Bytes32}
    (hpeers : ∀ (sid : SessionId) (node : Bytes32), peers[sid]? = some node → ∃ zone, .opened sid (.forward zone node) ∈ t)
    {sid : SessionId} {zone : Zone} {why : String} (h : s.readGranted peers sid zone.1 = .error why)
    (hknown : s.clientGrants = true → HasHolder s peers sid) : RefusedBy t generation sid zone := by
  have hview : generation ≤ (inForce t).generation := K.policy ▸ K.replaced generation fold hreplaced
  refine ⟨inForce t, hview, replaced_inForce hreplaced, ?_⟩
  unfold Shared.readGranted at h
  split at h
  · rename_i node hnode
    obtain ⟨zone', hopened⟩ := hpeers sid node hnode
    refine ⟨_, .node zone' node hopened, fun hok => ?_⟩
    rw [← K.policy] at hok
    rw [Shared.nodeCheck, hok] at h
    cases h
  · rename_i hnone
    split_ifs at h with hgrants
    rcases hknown hgrants with ⟨node, hnode⟩ | ⟨p, hp⟩
    · rw [hnone] at hnode
      cases hnode
    · refine ⟨_, .principal p (K.principals sid p hp), fun hok => ?_⟩
      rw [← K.policy] at hok
      rw [Shared.clientCheck, hp] at h
      dsimp only at h
      rw [hok] at h
      cases h

/-! ### What a step keeps -/

theorem subscribed_quiet {t more : List Happening} {sid : SessionId} {zone : Zone}
    (h : ∀ x ∈ more, x ≠ .registered sid zone ∧ ∀ pass, x ≠ .left sid zone pass) :
    subscribed (t ++ more) sid zone = subscribed t sid zone := by
  induction more using List.reverseRecOn with
  | nil => rw [List.append_nil]
  | append_singleton more x ih =>
    rw [← List.append_assoc, subscribed_append, List.foldl_cons, List.foldl_nil, ih fun y hy => h y (List.mem_append_left _ hy)]
    obtain ⟨hregistered, hleft⟩ := h x (List.mem_append_right _ List.mem_cons_self)
    cases x with
    | registered sid' zone' =>
      have : ¬ (sid' = sid ∧ zone' = zone) := fun ⟨h1, h2⟩ => hregistered (by rw [h1, h2])
      simpa [subscribedAfter] using fun h1 h2 => absurd ⟨h1, h2⟩ this
    | left sid' zone' pass =>
      have : (decide (sid' = sid) && decide (zone' = zone)) = false := by
        by_contra hne
        simp only [Bool.not_eq_false, Bool.and_eq_true, decide_eq_true_eq] at hne
        exact hleft pass (by rw [hne.1, hne.2])
      rw [subscribedAfter, this, Bool.not_false, Bool.and_true]
    | _ => rfl

/-- A session that leaves zones is subscribed to none of them. -/
theorem subscribed_left (t : List Happening) (sid : SessionId) (zone : Zone) (zones : List Zone) (pass : Option ℕ) :
    subscribed (t ++ zones.map fun zone => .left sid zone pass) sid zone = true ↔ subscribed t sid zone = true ∧
      zone ∉ zones := by
  induction zones using List.reverseRecOn with
  | nil => simp
  | append_singleton zones zone' ih =>
    rw [List.map_append, ← List.append_assoc, subscribed_append]
    simp only [List.map_cons, List.map_nil, List.foldl_cons, List.foldl_nil, subscribedAfter, Bool.and_eq_true, ih]
    by_cases hzone : zone = zone'
    · simp [hzone]
    · simp [hzone, Ne.symm hzone]

namespace Shared

/-- What a job under the cut does to the subscriptions, and says of it. -/
theorem doInner_subscribed (s : Shared C) (w : Worker) (env : Env) (job : Inner) {t : List Happening}
    (h : ∀ sid zone, sid ∈ s.subscribers zone ↔ subscribed t sid zone = true) (sid : SessionId) (zone : Zone) :
    sid ∈ (s.doInner w env job).1.subscribers zone ↔ subscribed (t ++ (s.doInner w env job).2.2) sid zone = true := by
  by_cases hregister : ∃ sid' zone', job = .register sid' zone'
  · obtain ⟨sid', zone', rfl⟩ := hregister
    simp only [doInner, subscribers_insert, subscribed_append, List.foldl_cons, List.foldl_nil, subscribedAfter,
      Bool.or_eq_true, Bool.and_eq_true, decide_eq_true_eq, ← h sid zone]
    split_ifs with hzone
    · subst hzone
      simp only [Finset.mem_insert, and_true]
      tauto
    · simp [hzone]
  by_cases hunsubscribe : ∃ sid' zone' pass, job = .unsubscribe sid' zone' pass
  · obtain ⟨sid', zone', pass, rfl⟩ := hunsubscribe
    simp only [doInner, subscribers_unsubscribe]
    split_ifs with hzone hmem hmem
    · subst hzone
      simp only [subscribed_append, List.foldl_cons, List.foldl_nil, subscribedAfter, Bool.and_eq_true, ← h sid zone',
        Bool.not_eq_true', Bool.and_eq_false_iff, decide_eq_false_iff_not, Finset.mem_erase]
      tauto
    · subst hzone
      rw [List.append_nil, ← h sid zone', Finset.erase_eq_of_notMem hmem]
    · rw [subscribed_quiet (by simp [hzone]), ← h sid zone]
    · rw [List.append_nil, ← h sid zone]
  have hdid := s.doInner_did w env job
  rw [subscribed_quiet, ← h sid zone, subscribers, (s.doInner_keeps w env job).router
    (fun sid zone heq => hregister ⟨sid, zone, heq⟩) fun sid zone pass heq => hunsubscribe ⟨sid, zone, pass, heq⟩]
  · rfl
  intro x hx
  generalize (s.doInner w env job).2.2 = did at hdid hx
  cases hdid with
  | registered sid' zone' => exact absurd ⟨sid', zone', rfl⟩ hregister
  | left sid' zone' pass => exact absurd ⟨sid', zone', pass, rfl⟩ hunsubscribe
  | nothing => cases hx
  | _ =>
    rw [List.mem_singleton.mp hx]
    simp

end Shared

section Under

variable {t : List Happening} {s : Shared C} (S : Seated t s)

include S

theorem Seated.registered_of_mem {sid : SessionId} {zone : Zone} (h : sid ∈ s.subscribers zone) : .registered sid zone ∈ t :=
  registered_of_subscribed ((S.subscribed sid zone).mp h)

/-- The subscriptions of a lapsed zone can be refused. -/
theorem Seated.refusable_lapse {w : Worker} (hw : ∃ id, w = .forward id) (zone : Zone) (code : ErrorCode) (why : String) :
    Refusable t s w code none ((s.entries.filter fun e => e.2 = zone).map fun e => { sid := e.1, zone := e.2, why }) := by
  have hmem : ∀ r ∈ (s.entries.filter fun e => e.2 = zone).map (fun e => ({ sid := e.1, zone := e.2, why } : Refusal)),
      r.sid ∈ s.subscribers r.zone := by
    intro r hr
    obtain ⟨e, he, rfl⟩ := List.mem_map.mp hr
    exact Shared.mem_entries.mp (List.mem_of_mem_filter he)
  refine ⟨fun _ => hw, ?_, fun r hr => ⟨S.registered_of_mem (hmem r hr), .inl (hmem r hr)⟩, by simp⟩
  rw [List.map_map]
  exact ((s.nodup_entries.filter _).map fun a b h => h)

/-- A job a task begins with under the cut leads to a stage. -/
theorem Seated.begun (K : Kept t s) {w : Worker} (env : Env) {job : Inner} (hheld : s.cut = some (w, [job]))
    (hbegins : job.Begins)
    (cut : Option (Worker × List Inner)) :
    Stage (t ++ (s.doInner w env job).2.2) ((s.doInner w env job).1.setCut cut) w ((s.doInner w env job).2.1) := by
  have hfits := K.cut w _ hheld job List.mem_cons_self
  cases job with
  | place origin op relay =>
    unfold Shared.doInner
    dsimp only
    split
    · exact .fanOut origin op
    · exact .queues _ (by simp)
    · exact .queues _ (by simp)
  | ingest from_ op =>
    unfold Shared.doInner
    dsimp only
    split
    · exact .fanOut from_ op
    · exact .queues _ (by simp)
  | admitClient sid zone their forward =>
    unfold Shared.doInner
    dsimp only
    split
    · exact .queues _ (by simp)
    · rename_i hchecked
      refine .register sid zone their ((S.clients sid hfits.2).append _ .inl) fun hhome hgrants => ?_
      have hgrants' : s.clientGrants = true := hgrants
      rw [if_pos ⟨hhome, hgrants'⟩] at hchecked
      obtain ⟨p, hp, -⟩ := Shared.clientCheck_ok hchecked
      exact ⟨p, hp⟩
  | admitPeer sid zone their node chunk =>
    unfold Shared.doInner
    dsimp only
    split
    · exact .queues _ (by simp)
    · exact .enter sid zone node their chunk
  | readAdmitted generation =>
    refine .readEntries generation s.admitted fun sid zone hsub hhome hgrants => ?_
    rcases S.known sid zone hsub hhome hgrants with hknown | ⟨node, rest, heq⟩
    · exact hknown
    · rw [hheld] at heq
      cases heq
  | lapse id code why =>
    unfold Shared.doInner
    dsimp only
    split
    · exact .queues _ (by simp)
    · exact .tellLapsed _ code why hfits
  | _ => exact hbegins.elim

omit S in
/-- A pass's look at its next subscription. -/
theorem Kept.rechecked (K : Kept t s) {w : Worker} (env : Env) {generation : ℕ} {peers : Std.ExtTreeMap SessionId Bytes32}
    {todo : List (SessionId × Zone)} {refused : List Refusal} (hheld : s.cut = some (w, [.recheck generation peers todo refused]))
    (hre : Rechecking t s w generation peers todo refused) (cut : Option (Worker × List Inner)) :
    Stage (t ++ (s.doInner w env (.recheck generation peers todo refused)).2.2)
      ((s.doInner w env (.recheck generation peers todo refused)).1.setCut cut) w
      ((s.doInner w env (.recheck generation peers todo refused)).2.1) := by
  obtain ⟨⟨hw, fold, hreplaced⟩, hpeers⟩ := K.cut w _ hheld _ List.mem_cons_self
  have hmono : ∀ {refused' : List Refusal}, Refusable t s w .unauthorized (some generation) refused' →
      Refusable (t ++ []) (s.setCut cut) w .unauthorized (some generation) refused' := fun h =>
    h.mono [] (fun _ _ => id) fun _ => Finset.Subset.refl _
  cases todo with
  | nil => exact .refuses .unauthorized (some generation) refused (hmono hre.refused)
  | cons e todo =>
    obtain ⟨sid, zone⟩ := e
    have hnodup := hre.nodup
    rw [List.cons_append, List.nodup_cons] at hnodup
    have hstay : Rechecking (t ++ []) (s.setCut cut) w generation peers todo refused := by
      refine ⟨hnodup.2, fun sid' zone' hmem => ?_, hmono hre.refused⟩
      obtain ⟨⟨hregistered, hgone⟩, hknown⟩ := hre.todo sid' zone' (List.mem_cons_of_mem _ hmem)
      exact ⟨⟨List.mem_append_left _ hregistered, hgone⟩, hknown⟩
    unfold Shared.doInner
    dsimp only
    split
    · exact .recheck generation peers todo refused hstay
    rename_i hhome
    split
    · exact .recheck generation peers todo refused hstay
    rename_i why hrefused
    obtain ⟨⟨hregistered, hgone⟩, hknown⟩ := hre.todo sid zone List.mem_cons_self
    refine .recheck generation peers todo _ ⟨?_, hstay.todo, ?_⟩
    · rw [List.map_append, ← List.append_assoc]
      refine List.nodup_append.mpr ⟨hnodup.2, by simp, ?_⟩
      rintro a ha b hb rfl
      rw [List.map_cons, List.map_nil, List.mem_singleton] at hb
      exact hnodup.1 (hb ▸ ha)
    · have hold := hstay.refused
      refine ⟨by simp, ?_, fun r hr => ?_, fun generation' hpass => ?_⟩
      · rw [List.map_append]
        refine List.nodup_append.mpr ⟨hold.nodup, by simp, ?_⟩
        rintro a ha b hb rfl
        rw [List.map_cons, List.map_nil, List.mem_singleton] at hb
        exact hnodup.1 (List.mem_append_right _ (hb ▸ ha))
      · rcases List.mem_append.mp hr with hr | hr
        · exact hold.each r hr
        · rw [List.mem_singleton.mp hr]
          exact ⟨List.mem_append_left _ hregistered, hgone⟩
      · obtain rfl := Option.some.inj hpass
        refine ⟨hw, rfl, fun r hr hsub => ?_⟩
        rcases List.mem_append.mp hr with hr | hr
        · exact (hold.why generation rfl).2.2 r hr hsub
        · rw [List.mem_singleton.mp hr] at hsub ⊢
          exact (K.refusedBy hreplaced hpeers hrefused (hknown hsub hhome)).append []

omit S in
/-- The task that refuses subscriptions takes the next session out of its zone. -/
theorem Refusable.next {w : Worker} {code : ErrorCode} {pass : Option ℕ} {r : Refusal} {refused : List Refusal}
    (h : Refusable t s w code pass (r :: refused)) (env : Env) (cut : Option (Worker × List Inner)) :
    Stage (t ++ (s.doInner w env (.unsubscribe r.sid r.zone pass)).2.2)
      ((s.doInner w env (.unsubscribe r.sid r.zone pass)).1.setCut cut) w
      (.queue r.sid (refusalFrame code r.why r.zone) :: .dropAdmitted r.sid :: refusals code pass refused) := by
  have hnodup := h.nodup
  rw [List.map_cons, List.nodup_cons] at hnodup
  obtain ⟨hregistered, hgone⟩ := h.each r List.mem_cons_self
  have hsub : ∀ zone, (s.unsubscribe r.sid r.zone).subscribers zone ⊆ s.subscribers zone := by
    intro zone
    rw [Shared.subscribers_unsubscribe]
    split_ifs with hzone
    · rw [hzone]
      exact Finset.erase_subset _ _
    · exact Finset.Subset.refl _
  have hrest : Refusable (t ++ (s.doInner w env (.unsubscribe r.sid r.zone pass)).2.2)
      ((s.doInner w env (.unsubscribe r.sid r.zone pass)).1.setCut cut) w code pass refused := by
    have htail : Refusable t s w code pass refused :=
      ⟨h.lapse, hnodup.2, fun r' hr' => h.each r' (List.mem_cons_of_mem _ hr'), fun generation hpass =>
        ⟨(h.why generation hpass).1, (h.why generation hpass).2.1,
          fun r' hr' => (h.why generation hpass).2.2 r' (List.mem_cons_of_mem _ hr')⟩⟩
    refine htail.mono _ (fun r' hr' hold => ?_) hsub
    refine hold.imp_left fun hmem => ?_
    change r'.sid ∈ (s.unsubscribe r.sid r.zone).subscribers r'.zone
    rw [Shared.subscribers_unsubscribe]
    split_ifs with hzone
    · refine Finset.mem_erase.mpr ⟨fun hsid => hnodup.1 (List.mem_map.mpr ⟨r', hr', ?_⟩), hzone ▸ hmem⟩
      rw [hsid, hzone]
    · exact hmem
  refine .tells r.sid r.zone r.why code pass refused hrest (List.mem_append_left _ hregistered) ?_ fun generation hpass hout => ?_
  · change r.sid ∉ (s.unsubscribe r.sid r.zone).subscribers r.zone
    rw [Shared.subscribers_unsubscribe, if_pos rfl]
    exact Finset.notMem_erase _ _
  · obtain rfl := hpass
    have hmem : r.sid ∈ s.subscribers r.zone := hgone.resolve_right fun hnot => hnot.1 hout
    refine ⟨t, [], ?_, by simp⟩
    unfold Shared.doInner
    dsimp only
    rw [if_pos hmem]

/-- A job under the cut leads from stage to stage. -/
theorem Seated.stage_inner (K : Kept t s) {w : Worker} (env : Env) {job : Inner} {rest : List Inner}
    (hheld : s.cut = some (w, job :: rest)) (cut : Option (Worker × List Inner)) :
    Stage (t ++ (s.doInner w env job).2.2) ((s.doInner w env job).1.setCut cut) w ((s.doInner w env job).2.1 ++ rest) := by
  have hstage := S.stage w _ hheld
  have hfits := K.cut w _ hheld job List.mem_cons_self
  generalize hinner : job :: rest = inner at hstage
  cases hstage with
  | begins job' hbegins =>
    obtain ⟨rfl, rfl⟩ := List.cons.inj hinner
    rw [List.append_nil]
    exact S.begun K env hheld hbegins cut
  | fanOut from_ op =>
    obtain ⟨rfl, rfl⟩ := List.cons.inj hinner
    rw [List.append_nil]
    refine .queues _ fun job hjob => ?_
    obtain ⟨sid, hsid, rfl⟩ := List.mem_map.mp hjob
    refine ⟨sid, [op], rfl, fun op' hop' => ?_⟩
    rw [List.mem_singleton.mp hop']
    exact .inl (Shared.mem_route.mp hsid).2
  | queues _ hall =>
    subst hinner
    obtain ⟨sid, ops, rfl, -⟩ := hall job List.mem_cons_self
    exact .queues _ fun job' hjob' => hall job' (List.mem_cons_of_mem _ hjob')
  | enter sid zone node their chunk =>
    obtain ⟨rfl, rfl⟩ := List.cons.inj hinner
    exact .registerPeer sid zone node their chunk (.inl (Finset.mem_insert_self _ _))
  | registerPeer sid zone node their chunk hentered =>
    obtain ⟨rfl, rfl⟩ := List.cons.inj hinner
    refine .admitted sid zone node their chunk (.inl ?_)
    change sid ∈ ((s.doInner w env (.register sid zone)).1).subscribers zone
    unfold Shared.doInner
    rw [Shared.subscribers_insert, if_pos rfl]
    exact Finset.mem_insert_self _ _
  | register sid zone their hentered hp =>
    obtain ⟨rfl, rfl⟩ := List.cons.inj hinner
    refine .ackGap sid zone their none (.inl ?_)
    change sid ∈ ((s.doInner w env (.register sid zone)).1).subscribers zone
    unfold Shared.doInner
    rw [Shared.subscribers_insert, if_pos rfl]
    exact Finset.mem_insert_self _ _
  | admitted sid zone node their chunk hsub =>
    obtain ⟨rfl, rfl⟩ := List.cons.inj hinner
    exact .ackGap sid zone their (some chunk) hsub
  | ackGap sid zone their chunk hsub =>
    obtain ⟨rfl, rfl⟩ := List.cons.inj hinner
    obtain ⟨frames, hframes, hall⟩ := s.ackGap_more w env sid zone their chunk
    rw [hframes, List.append_nil]
    refine .ack sid _ _ fun job hjob => ?_
    obtain ⟨ops, hops, rfl⟩ := List.mem_map.mp hjob
    refine ⟨sid, ops, rfl, fun op hop => ?_⟩
    rwa [K.zoneOf_missing (hall ops hops op hop)]
  | ack sid h inner hall =>
    obtain ⟨rfl, rfl⟩ := List.cons.inj hinner
    exact .queues _ fun job' hjob' => hall job' hjob'
  | readEntries generation peers hknown =>
    obtain ⟨rfl, rfl⟩ := List.cons.inj hinner
    refine .recheck generation peers s.entries [] ⟨by simpa using s.nodup_entries, fun sid zone hmem => ?_, ?_⟩
    · have hsub := Shared.mem_entries.mp hmem
      exact ⟨⟨List.mem_append_left _ (S.registered_of_mem hsub), .inl hsub⟩, fun _ => hknown sid zone hsub⟩
    · exact ⟨by simp, by simp, by simp, fun _ _ => ⟨hfits.1.1, rfl, by simp⟩⟩
  | recheck generation peers todo refused hre =>
    obtain ⟨rfl, rfl⟩ := List.cons.inj hinner
    rw [List.append_nil]
    exact K.rechecked env hheld hre cut
  | tellLapsed zone code why hw =>
    obtain ⟨rfl, rfl⟩ := List.cons.inj hinner
    have hre : Refusable (t ++ []) (s.setCut cut) w code none
        ((s.entries.filter fun e => e.2 = zone).map fun e => { sid := e.1, zone := e.2, why }) :=
      (S.refusable_lapse hw zone code why).mono [] (fun _ _ => id) fun _ => Finset.Subset.refl _
    have hstage := Stage.refuses code none _ hre
    have heq : refusals code none ((s.entries.filter fun e => e.2 = zone).map fun e => { sid := e.1, zone := e.2, why }) =
        (s.doInner w env (.tellLapsed zone code why)).2.1 ++ [] := by
      rw [List.append_nil]
      unfold refusals Shared.doInner
      rw [List.flatMap_map]
      refine List.flatMap_congr fun e he => ?_
      have hzone : e.2 = zone := by simpa using List.of_mem_filter he
      rw [← hzone]
    rwa [heq] at hstage
  | refuses code pass refused hre =>
    cases refused with
    | nil => cases hinner
    | cons r refused =>
      obtain ⟨rfl, rfl⟩ := List.cons.inj hinner
      exact hre.next env cut
  | tells sid zone why code pass refused hre hregistered hsub hleft =>
    obtain ⟨rfl, rfl⟩ := List.cons.inj hinner
    exact .dropAdmitted sid zone code pass refused (hre.mono _ (fun _ _ => id) fun _ => Finset.Subset.refl _)
      (List.mem_append_left _ hregistered) hsub
  | dropAdmitted sid zone code pass refused hre hregistered hsub =>
    obtain ⟨rfl, rfl⟩ := List.cons.inj hinner
    unfold Shared.doInner
    dsimp only
    split
    · exact .shut sid code pass refused (hre.mono _ (fun _ _ => id) fun _ => Finset.Subset.refl _)
    · exact .refuses code pass refused (hre.mono _ (fun _ _ => id) fun _ => Finset.Subset.refl _)
  | shut sid code pass refused hre =>
    obtain ⟨rfl, rfl⟩ := List.cons.inj hinner
    refine .refuses code pass refused (hre.mono _ (fun r _ hold => ?_) fun _ => Finset.Subset.refl _)
    exact hold.imp_right fun h => ⟨fun hmem => h.1 (Finset.mem_of_mem_erase hmem), h.2⟩

/-- A subscription being registered is of a session that has entered. -/
theorem Seated.entered_register {w : Worker} {sid : SessionId} {zone : Zone} {rest : List Inner}
    (hheld : s.cut = some (w, .register sid zone :: rest)) : Entered t s sid := by
  have hstage := S.stage w _ hheld
  generalize hinner : Inner.register sid zone :: rest = inner at hstage
  cases hstage with
  | registerPeer _ _ _ _ _ hentered =>
    obtain ⟨⟨rfl, -⟩, -⟩ := List.cons.inj hinner |>.imp_left Inner.register.inj
    exact hentered
  | register _ _ _ hentered =>
    obtain ⟨⟨rfl, -⟩, -⟩ := List.cons.inj hinner |>.imp_left Inner.register.inj
    exact hentered
  | queues _ hall =>
    subst hinner
    obtain ⟨_, _, heq, -⟩ := hall _ List.mem_cons_self
    cases heq
  | begins job hbegins =>
    obtain ⟨rfl, -⟩ := List.cons.inj hinner
    exact hbegins.elim
  | refuses code pass refused _ => cases refused <;> cases hinner
  | _ => cases hinner

/-- A session whose subscription is registered reads for someone, or is about to be let in. -/
theorem Seated.known_register {w : Worker} {sid : SessionId} {zone : Zone} {rest : List Inner}
    (hheld : s.cut = some (w, .register sid zone :: rest)) (hhome : zone.1 ≠ home) (hgrants : s.clientGrants = true) :
    (∃ p, s.principals[sid]? = some p) ∨ ∃ node rest', rest = .admitted sid node :: rest' := by
  have hstage := S.stage w _ hheld
  generalize hinner : Inner.register sid zone :: rest = inner at hstage
  cases hstage with
  | registerPeer _ _ node _ _ _ =>
    obtain ⟨heq, rfl⟩ := List.cons.inj hinner
    obtain ⟨rfl, rfl⟩ := Inner.register.inj heq
    exact .inr ⟨node, _, rfl⟩
  | register _ _ _ _ hp =>
    obtain ⟨heq, rfl⟩ := List.cons.inj hinner
    obtain ⟨rfl, rfl⟩ := Inner.register.inj heq
    exact .inl (hp hhome hgrants)
  | queues _ hall =>
    subst hinner
    obtain ⟨_, _, heq, -⟩ := hall _ List.mem_cons_self
    cases heq
  | begins job hbegins =>
    obtain ⟨rfl, -⟩ := List.cons.inj hinner
    exact hbegins.elim
  | refuses code pass refused _ => cases refused <;> cases hinner
  | _ => cases hinner

/-- A peer stream that is let go has no subscription left. -/
theorem Seated.unsubscribed_dropAdmitted (K : Kept t s) {w : Worker} {sid : SessionId} {rest : List Inner}
    (hheld : s.cut = some (w, .dropAdmitted sid :: rest)) (hadmitted : sid ∈ s.admitted) (zone : Zone) :
    sid ∉ s.subscribers zone := by
  intro hsub
  obtain ⟨zone', hopened⟩ := K.admitted sid _ (Std.ExtTreeMap.getElem?_eq_some_getElem hadmitted)
  have hone : ∀ zone'', .registered sid zone'' ∈ t → zone'' = zone' := by
    intro zone'' hregistered
    rcases (S.registered sid zone'' hregistered).2 with hclient | ⟨node, hforward⟩
    · cases K.opened _ _ _ hclient hopened
    · cases K.opened _ _ _ hforward hopened
      rfl
  have hstage := S.stage w _ hheld
  generalize hinner : Inner.dropAdmitted sid :: rest = inner at hstage
  cases hstage with
  | dropAdmitted sid' zone'' code pass refused hre hregistered hnot =>
    obtain ⟨heq, -⟩ := List.cons.inj hinner
    obtain rfl := Inner.dropAdmitted.inj heq
    rw [hone zone'' hregistered] at hnot
    rw [hone zone (S.registered_of_mem hsub)] at hsub
    exact hnot hsub
  | queues _ hall =>
    subst hinner
    obtain ⟨_, _, heq, -⟩ := hall _ List.mem_cons_self
    cases heq
  | begins job hbegins =>
    obtain ⟨rfl, -⟩ := List.cons.inj hinner
    exact hbegins.elim
  | refuses code pass refused _ => cases refused <;> cases hinner
  | _ => cases hinner

omit S in
theorem Entered.inner {w : Worker} (env : Env) (job : Inner) (rest : List Inner) {sid : SessionId} (h : Entered t s sid) :
    Entered (t ++ (s.doInner w env job).2.2) ((s.doInner w env job).1.setCut (some (w, (s.doInner w env job).2.1 ++ rest))) sid := by
  have G := s.doInner_keeps w env job
  refine h.append _ fun hout => ?_
  rw [Shared.setCut_out]
  cases job with
  | enter sid' => exact .inl (Finset.mem_insert_of_mem hout)
  | shut sid' =>
    by_cases hsid : sid = sid'
    · subst hsid
      refine .inr ?_
      unfold Shared.doInner
      dsimp only
      rw [if_pos hout]
      exact List.mem_cons_self
    · exact .inl (Finset.mem_erase.mpr ⟨hsid, hout⟩)
  | _ => exact .inl (by rw [G.out (by simp) (by simp)]; exact hout)

/-- A job under the cut leaves every subscribed session a holder, or its node to enter. -/
theorem Seated.known_inner (K : Kept t s) {w : Worker} (env : Env) {job : Inner} {rest : List Inner}
    (hheld : s.cut = some (w, job :: rest)) {sid : SessionId} {zone : Zone} (hsub : sid ∈ (s.doInner w env job).1.subscribers zone)
    (hhome : zone.1 ≠ home) (hgrants : s.clientGrants = true) :
    HasHolder (s.doInner w env job).1 (s.doInner w env job).1.admitted sid ∨
      ∃ node rest', some (w, (s.doInner w env job).2.1 ++ rest) = some (.session sid, .admitted sid node :: rest') := by
  have hfits := K.cut w _ hheld job List.mem_cons_self
  have F := s.doInner_frame w env job
  have G := s.doInner_keeps w env job
  rcases s.doInner_subscribers w env job hsub with hold | rfl
  · rcases S.known sid zone hold hhome hgrants with hknown | ⟨node, rest', heq⟩
    · left
      rcases hknown with ⟨node, hnode⟩ | ⟨p, hp⟩
      · cases job with
        | admitted sid' node' =>
          left
          by_cases hsid : sid' = sid
          · exact ⟨node', by simp [Shared.doInner, hsid]⟩
          · exact ⟨node, by simpa [Shared.doInner, Std.ExtTreeMap.getElem?_insert, hsid] using hnode⟩
        | dropAdmitted sid' =>
          have hadmitted : ∀ (_ : sid' ∈ s.admitted), sid ≠ sid' := by
            rintro hmem rfl
            exact S.unsubscribed_dropAdmitted K hheld hmem zone hold
          refine .inl ⟨node, ?_⟩
          unfold Shared.doInner
          dsimp only
          split
          · rename_i hmem
            change (s.admitted.erase sid')[sid]? = some node
            rw [Std.ExtTreeMap.getElem?_erase, if_neg]
            · exact hnode
            · rw [Std.LawfulEqOrd.compare_eq_iff_eq]
              exact (hadmitted hmem).symm
          · exact hnode
        | _ => exact .inl ⟨node, by rw [G.admitted (by simp) (by simp)]; exact hnode⟩
      · exact .inr ⟨p, by rw [F.principals]; exact hp⟩
    · rw [hheld] at heq
      obtain ⟨rfl, rfl, rfl⟩ : w = .session sid ∧ job = .admitted sid node ∧ rest = rest' := by simpa using heq
      exact .inl (.inl ⟨node, by simp [Shared.doInner]⟩)
  · rcases S.known_register hheld hhome hgrants with ⟨p, hp⟩ | ⟨node, rest', rfl⟩
    · exact .inl (.inr ⟨p, hp⟩)
    · obtain rfl := hfits.1
      exact .inr ⟨node, rest', rfl⟩

/-- A job under the cut leaves the sessions that end to their ends. -/
theorem Seated.ending_inner (K : Kept t s) {w : Worker} (env : Env) {job : Inner} {rest : List Inner}
    (hheld : s.cut = some (w, job :: rest)) {sid : SessionId} {job' : Job}
    (hjob' : job' ∈ (s.doInner w env job).1.scripts (.session sid)) (hends : job'.Ends sid) :
    Ending ((s.doInner w env job).1.setCut (some (w, (s.doInner w env job).2.1 ++ rest))) sid := by
  have hfits := K.cut w _ hheld job List.mem_cons_self
  have F := s.doInner_frame w env job
  have G := s.doInner_keeps w env job
  have hold : job' ∈ s.scripts (.session sid) := by
    rcases s.doInner_scripts w _ env job hjob' with hold | ⟨-, ⟨_, _, _, rfl⟩ | ⟨_, _, rfl⟩ | ⟨_, _, _, _, _, -, -, rfl⟩⟩
    · exact hold
    all_goals rcases hends with heq | heq | heq <;> cases heq
  have hE := S.ending sid job' hold hends
  have hw : w ≠ .session sid := fun heq => hE.free (by rw [hheld, heq]; rfl)
  have hscripts : (s.doInner w env job).1.scripts (.session sid) = s.scripts (.session sid) := F.scripts _ hw.symm
  have hout : sid ∉ s.out → sid ∉ (s.doInner w env job).1.out := by
    intro hnot hmem
    cases job with
    | enter sid' =>
      rcases Finset.mem_insert.mp hmem with rfl | hmem
      · exact hw hfits.1
      · exact hnot hmem
    | shut sid' => exact hnot (Finset.mem_of_mem_erase hmem)
    | _ => exact hnot (by rw [G.out (by simp) (by simp)] at hmem; exact hmem)
  refine ⟨by simpa using hw, ?_⟩
  obtain ⟨last, hlast, hscript⟩ := hE.script
  refine ⟨last, hlast, ?_⟩
  rw [Shared.setCut_scripts, Shared.setCut_out, hscripts]
  refine hscript.imp_right (.imp (And.imp_right hout) ?_)
  rintro ⟨h, hgone, hnone⟩
  refine ⟨h, hout hgone, fun zone hmem => ?_⟩
  rcases s.doInner_subscribers w env job hmem with hmem | rfl
  · exact hnone zone hmem
  · exact hw hfits.1

/-- A job under the cut keeps what the tables say. -/
theorem Seated.inner (K : Kept t s) {w : Worker} (env : Env) {job : Inner} {rest : List Inner}
    (hheld : s.cut = some (w, job :: rest)) :
    Seated (t ++ (s.doInner w env job).2.2)
      ((s.doInner w env job).1.setCut (some (w, (s.doInner w env job).2.1 ++ rest))) := by
  have hfits := K.cut w _ hheld job List.mem_cons_self
  have hplain := s.doInner_plain w env job
  constructor
  case subscribed => exact s.doInner_subscribed w env job S.subscribed
  case registered =>
    intro sid zone hx
    rcases List.mem_append.mp hx with hold | hnew
    · obtain ⟨hin, hopened⟩ := S.registered sid zone hold
      exact ⟨hin.inner env _ rest, hopened.imp (List.mem_append_left _) fun h => h.imp fun _ => List.mem_append_left _⟩
    · obtain rfl : job = .register sid zone := by
        have hdid := s.doInner_did w env job
        generalize (s.doInner w env job).2.2 = did at hdid hnew
        cases hdid with
        | registered sid' zone' =>
          obtain ⟨rfl, rfl⟩ := Happening.registered.inj (List.mem_singleton.mp hnew)
          rfl
        | _ => simp at hnew
      refine ⟨(S.entered_register hheld).inner env _ rest, ?_⟩
      exact hfits.2.imp (List.mem_append_left _) fun h => h.imp fun _ => List.mem_append_left _
  case clients =>
    intro sid hx
    exact (S.clients sid (opened_of_plain hplain hx)).inner env job rest
  case known =>
    intro sid zone hsub hhome hgrants
    exact S.known_inner K env hheld hsub hhome ((s.doInner_frame w env job).clientGrants ▸ hgrants)
  case ending => exact fun sid job' hjob' hends => S.ending_inner K env hheld hjob' hends
  case stage =>
    intro w' inner heq
    rw [Shared.setCut_cut] at heq
    obtain ⟨rfl, rfl⟩ := Prod.mk.inj (Option.some.inj heq)
    exact S.stage_inner K env hheld _

/-- A registered session was opened before. -/
theorem Seated.lt_next (K : Kept t s) {sid : SessionId} {zone : Zone} (h : .registered sid zone ∈ t) : sid < s.next := by
  rcases (S.registered sid zone h).2 with hclient | ⟨node, hforward⟩
  · exact K.next sid _ hclient
  · exact K.next sid _ hforward

/-- A step beside the cut keeps what the tables say. -/
theorem Seated.aside (K : Kept t s) {did : List Happening} {s' : Shared C} (A : Aside did s s') (hcut : s'.cut = s.cut)
    (hsubscribed : ∀ sid zone, sid ∈ s'.subscribers zone ↔ Serving.subscribed (t ++ did) sid zone = true)
    (hclients : ∀ sid, .opened sid .client ∈ did → sid ∈ s'.out)
    (hadmitted : ∀ (sid : SessionId) (node : Bytes32), s.admitted[sid]? = some node →
      s'.admitted[sid]? = some node ∨ ∀ zone, sid ∉ s.subscribers zone)
    (hending : ∀ sid, ∀ job ∈ s'.scripts (.session sid), job.Ends sid → Ending s' sid) : Seated (t ++ did) s' where
  subscribed := hsubscribed
  registered sid zone hx := by
    rcases List.mem_append.mp hx with hold | hnew
    · obtain ⟨hin, hopened⟩ := S.registered sid zone hold
      exact ⟨hin.append did (A.entered sid), hopened.imp (List.mem_append_left _) fun h => h.imp fun _ => List.mem_append_left _⟩
    · exact absurd trivial (A.quiet _ hnew)
  clients sid hx := by
    rcases List.mem_append.mp hx with hold | hnew
    · exact (S.clients sid hold).append did (A.entered sid)
    · exact .inl (hclients sid hnew)
  known sid zone hsub hhome hgrants := by
    have hold := A.subscribers zone hsub
    rcases S.known sid zone hold hhome (A.clientGrants ▸ hgrants) with (⟨node, hnode⟩ | ⟨p, hp⟩) | hheld
    · exact .inl (.inl ⟨node, (hadmitted sid node hnode).resolve_right fun h => h zone hold⟩)
    · rcases A.principals sid p hp with hp' | ⟨-, hnone⟩
      · exact .inl (.inr hp')
      · exact absurd hold (hnone zone)
    · exact .inr (hcut ▸ hheld)
  ending := hending
  stage w inner hheld := by
    rw [hcut] at hheld
    refine A.stage (fun sid zone hmem => ?_) (fun sid zone h => S.lt_next K h) (S.stage w inner hheld)
    have hfits := K.cut w inner hheld _ hmem
    rw [hheld]
    exact congrArg some hfits.1

/-- A session's end goes on by its own task's steps alone. -/
theorem Seated.ending_outer {w : Worker} (env : Env) {job : Job} {rest : List Job} (hscript : s.scripts w = job :: rest)
    (hfree : s.cut.map Prod.fst ≠ some w) {sid : SessionId} {job' : Job}
    (hjob' : job' ∈ (((s.give w rest).doJob w env job).1.doFirst w ((s.give w rest).doJob w env job).2.1).scripts (.session sid))
    (hends : job'.Ends sid) :
    Ending (((s.give w rest).doJob w env job).1.doFirst w ((s.give w rest).doJob w env job).2.1) sid := by
  have F := (s.give w rest).doJob_frame w env job
  have hcut : (((s.give w rest).doJob w env job).1.doFirst w ((s.give w rest).doJob w env job).2.1).cut = s.cut := F.cut
  by_cases hw : w = .session sid
  · subst hw
    have hmore : job' ∉ ((s.give (.session sid) rest).doJob (.session sid) env job).2.1 := by
      intro h
      rcases Shared.doJob_more _ _ env h with ⟨_, _, _, rfl⟩ | ⟨_, _, rfl⟩ | ⟨_, _, rfl⟩ | ⟨_, rfl⟩ | ⟨_, _, rfl, -⟩ <;>
        rcases hends with heq | heq | heq <;> cases heq
    have hrest : job' ∈ rest := by
      simp only [Shared.doFirst, F.scripts, Function.update_self, Shared.give_scripts, if_pos] at hjob'
      exact (List.mem_append.mp hjob').resolve_left hmore
    obtain ⟨last, hlast, hshape⟩ := (S.ending sid job' (hscript ▸ List.mem_cons_of_mem _ hrest) hends).script
    refine ⟨by rw [hcut]; exact hfree, last, hlast, ?_⟩
    rw [hscript] at hshape
    rcases hshape with heq | ⟨heq, hout⟩ | ⟨heq, -⟩
    · obtain ⟨rfl, rfl⟩ := List.cons.inj heq
      refine .inr (.inl ⟨?_, ?_⟩)
      · simp [Shared.doFirst, Shared.doJob, Shared.give]
      · exact Finset.notMem_erase _ _
    · obtain ⟨rfl, rfl⟩ := List.cons.inj heq
      refine .inr (.inr ⟨?_, hout, fun zone => ?_⟩)
      · simp [Shared.doFirst, Shared.doJob, Shared.give]
      · change sid ∉ ((s.give (.session sid) [last]).doJob (.session sid) env (.unsubscribeAll sid)).1.subscribers zone
        unfold Shared.doJob
        rw [Shared.subscribers_map]
        exact Finset.notMem_erase _ _
    · obtain ⟨-, rfl⟩ := List.cons.inj heq
      cases hrest
  · have hsame : (((s.give w rest).doJob w env job).1.doFirst w ((s.give w rest).doJob w env job).2.1).scripts (.session sid) =
        s.scripts (.session sid) := by
      simp [Shared.doFirst, F.scripts, Shared.give_scripts, Ne.symm hw]
    rw [hsame] at hjob'
    obtain ⟨hfree', last, hlast, hshape⟩ := S.ending sid job' hjob' hends
    refine ⟨by rwa [hcut], last, hlast, ?_⟩
    rw [hsame]
    refine hshape.imp_right (.imp (And.imp_right fun hout hmem => hout (F.out hmem)) ?_)
    rintro ⟨h, hgone, hnone⟩
    exact ⟨h, fun hmem => hgone (F.out hmem), fun zone hmem => hnone zone (F.subscribers zone hmem)⟩

/-- A job without the cut does only what a step beside it may. -/
theorem Seated.outer_aside (K : Kept t s) {w : Worker} (env : Env) {job : Job} {rest : List Job}
    (hscript : s.scripts w = job :: rest)
    (hfree : s.cut.map Prod.fst ≠ some w) :
    Aside ((s.give w rest).doJob w env job).2.2 s
      (((s.give w rest).doJob w env job).1.doFirst w ((s.give w rest).doJob w env job).2.1) := by
  have F := (s.give w rest).doJob_frame w env job
  have G := (s.give w rest).doJob_keeps w env job
  have hfits : job.Fits t w := K.scripts w job (hscript ▸ List.mem_cons_self)
  have hmem : job ∈ s.scripts w := hscript ▸ List.mem_cons_self
  obtain ⟨hnext, -, -, -⟩ := (s.give w rest).doJob_tables w env job
  constructor
  case gone =>
    intro sid zone h
    by_cases hall : job = .unsubscribeAll sid
    · -- By now the session's queue is gone.
      subst hall
      obtain ⟨rfl, source, hopened⟩ := hfits
      obtain ⟨last, hlast, hshape⟩ := (S.ending sid _ hmem (.inl rfl)).script
      rw [hscript] at hshape
      rcases hshape with heq | ⟨-, hout⟩ | ⟨heq, -⟩
      · cases heq
      · exact .inr ⟨hout, K.next sid source hopened⟩
      · rcases hlast with rfl | rfl <;> cases heq
    · refine h.imp (fun hsub => ?_) fun ⟨hout, hlt⟩ => ⟨fun h => hout (F.out h), hlt.trans_le hnext⟩
      change sid ∈ ((s.give w rest).doJob w env job).1.subscribers zone
      cases job with
      | unsubscribeAll sid' =>
        unfold Shared.doJob
        rw [Shared.subscribers_map]
        exact Finset.mem_erase.mpr ⟨fun heq => hall (by rw [heq]), hsub⟩
      | _ => rw [Shared.subscribers, G.router (by simp)]; exact hsub
  case entered =>
    intro sid hout
    by_cases hshut : job = .shut sid
    · subst hshut
      refine .inr ?_
      unfold Shared.doJob
      dsimp only
      rw [if_pos (by exact hout)]
      exact List.mem_cons_self
    · refine .inl ?_
      change sid ∈ ((s.give w rest).doJob w env job).1.out
      cases job with
      | shut sid' => exact Finset.mem_erase.mpr ⟨fun heq => hshut (by rw [heq]), hout⟩
      | _ => rw [G.out (by simp)]; exact hout
  case out => exact fun sid hout => .inl (F.out hout)
  case subscribers => exact F.subscribers
  case principals =>
    intro sid p hp
    by_cases hforget : job = .forget sid
    · subst hforget
      obtain ⟨rfl, -⟩ := hfits
      obtain ⟨last, hlast, hshape⟩ := (S.ending sid _ hmem (.inr (.inr rfl))).script
      rw [hscript] at hshape
      rcases hshape with heq | ⟨heq, -⟩ | ⟨-, -, hnone⟩
      · cases heq
      · cases heq
      · exact .inr ⟨hfree, hnone⟩
    · refine .inl ?_
      change ∃ p', ((s.give w rest).doJob w env job).1.principals[sid]? = some p'
      cases job with
      | bind sid' p' =>
        by_cases hsid : sid' = sid
        · exact ⟨p', by simp [Shared.doJob, hsid]⟩
        · refine ⟨p, ?_⟩
          change (s.principals.insert sid' p')[sid]? = some p
          simpa [Std.ExtTreeMap.getElem?_insert, hsid] using hp
      | forget sid' =>
        refine ⟨p, ?_⟩
        change (s.principals.erase sid')[sid]? = some p
        rw [Std.ExtTreeMap.getElem?_erase, if_neg]
        · exact hp
        · rw [Std.LawfulEqOrd.compare_eq_iff_eq]
          exact fun heq => hforget (by rw [heq])
      | _ => exact ⟨p, by rw [G.principals (by simp) (by simp)]; exact hp⟩
  case clientGrants => exact F.clientGrants
  case quiet =>
    intro x hx
    have hdid := (s.give w rest).doJob_did w env job
    generalize ((s.give w rest).doJob w env job).2.2 = did at hdid hx
    cases hdid with
    | nothing => cases hx
    | sent sid frame hout =>
      rw [List.mem_singleton.mp hx, hfits.1]
      cases frame <;> exact id
    | left sid =>
      obtain ⟨zone, -, rfl⟩ := List.mem_map.mp hx
      exact id
    | _ =>
      rw [List.mem_singleton.mp hx]
      exact id

/-- A job without the cut keeps what the tables say. -/
theorem Seated.outer (K : Kept t s) {w : Worker} (env : Env) {job : Job} {rest : List Job} (hscript : s.scripts w = job :: rest)
    (hfree : s.cut.map Prod.fst ≠ some w) :
    Seated (t ++ ((s.give w rest).doJob w env job).2.2)
      (((s.give w rest).doJob w env job).1.doFirst w ((s.give w rest).doJob w env job).2.1) := by
  have F := (s.give w rest).doJob_frame w env job
  have G := (s.give w rest).doJob_keeps w env job
  have hfits : job.Fits t w := K.scripts w job (hscript ▸ List.mem_cons_self)
  refine S.aside K (S.outer_aside K env hscript hfree) F.cut (fun sid zone => ?_) (fun sid hx => ?_) (fun sid node hnode => ?_)
    fun sid job' hjob' hends => S.ending_outer env hscript hfree hjob' hends
  · change sid ∈ ((s.give w rest).doJob w env job).1.subscribers zone ↔ _
    by_cases hall : ∃ sid', job = .unsubscribeAll sid'
    · obtain ⟨sid', rfl⟩ := hall
      unfold Shared.doJob
      rw [Shared.subscribers_map, Finset.mem_erase]
      change _ ∧ sid ∈ s.subscribers zone ↔ _
      rw [S.subscribed sid zone]
      by_cases hsid : sid = sid'
      · subst hsid
        refine iff_of_false (fun h => h.1 rfl) fun h => ?_
        rw [subscribed_left] at h
        exact h.2 (Shared.mem_zonesOf.mpr ((S.subscribed sid zone).mpr h.1))
      · rw [subscribed_quiet fun x hx => ?_]
        · exact and_iff_right hsid
        · obtain ⟨zone', -, rfl⟩ := List.mem_map.mp hx
          exact ⟨by simp, fun pass heq => hsid (Happening.left.inj heq).1.symm⟩
    · rw [Shared.subscribers, G.router fun sid' heq => hall ⟨sid', heq⟩, subscribed_quiet fun x hx => ?_]
      · exact S.subscribed sid zone
      · have hdid := (s.give w rest).doJob_did w env job
        generalize ((s.give w rest).doJob w env job).2.2 = did at hdid hx
        cases hdid with
        | nothing => cases hx
        | left sid' => exact absurd ⟨sid', rfl⟩ hall
        | _ =>
          rw [List.mem_singleton.mp hx]
          simp
  · have hdid := (s.give w rest).doJob_did w env job
    generalize ((s.give w rest).doJob w env job).2.2 = did at hdid hx
    cases hdid <;> simp at hx
  · by_cases hun : job = .dropAdmitted sid
    · subst hun
      obtain ⟨rfl, -⟩ := hfits
      obtain ⟨last, hlast, hshape⟩ := (S.ending sid _ (hscript ▸ List.mem_cons_self) (.inr (.inl rfl))).script
      rw [hscript] at hshape
      rcases hshape with heq | ⟨heq, -⟩ | ⟨-, -, hnone⟩
      · cases heq
      · cases heq
      · exact .inr hnone
    · refine .inl ?_
      change ((s.give w rest).doJob w env job).1.admitted[sid]? = some node
      cases job with
      | dropAdmitted sid' =>
        change (s.admitted.erase sid')[sid]? = some node
        rw [Std.ExtTreeMap.getElem?_erase, if_neg]
        · exact hnode
        · rw [Std.LawfulEqOrd.compare_eq_iff_eq]
          exact fun heq => hun (by rw [heq])
      | _ => rw [G.admitted (by simp)]; exact hnode

/-- An event that runs no task keeps what the tables say. -/
theorem Seated.event (K : Kept t s) {e : Event} (he : ∀ w env, e ≠ .run w env) : Seated (t ++ (s.step e).2) (s.step e).1 := by
  have F := s.step_frame he
  have hdid : (∀ x ∈ (s.step e).2, ∃ sid ops, x = .received sid ops) ∨
      ∃ source, (s.step e).2 = [.opened s.next source] ∧ (source = .client → s.next ∈ (s.step e).1.out) :=
    (s.step_did he).imp And.left (Exists.imp fun _ h => ⟨h.1, h.2.2.2⟩)
  have hout := F.entered
  have hsubscribers : ∀ zone, (s.step e).1.subscribers zone = s.subscribers zone := fun zone => by
    rw [Shared.subscribers, F.router]
    rfl
  have A : Aside (s.step e).2 s (s.step e).1 := by
    refine ⟨fun sid zone h => ?_, fun sid h => .inl (F.out h), hout, fun zone => (hsubscribers zone).subset, ?_,
      F.clientGrants, ?_⟩
    · refine h.imp (fun hsub => (hsubscribers zone).symm ▸ hsub) fun hgone => ⟨fun hmem => ?_, hgone.2.trans_le F.next⟩
      rcases hout sid hmem with h | h
      · exact hgone.1 h
      · exact absurd hgone.2 h.not_gt
    · exact fun sid p hp => .inl ⟨p, by rw [F.principals]; exact hp⟩
    · intro x hx
      rcases hdid with hdid | ⟨source, hdid, -⟩
      · obtain ⟨sid, ops, rfl⟩ := hdid x hx
        exact id
      · rw [hdid, List.mem_singleton] at hx
        subst hx
        exact id
  have hclients : ∀ sid, .opened sid .client ∈ (s.step e).2 → sid ∈ (s.step e).1.out := by
    intro sid hx
    rcases hdid with hdid | ⟨source, hdid, hin⟩
    · obtain ⟨_, _, heq⟩ := hdid _ hx
      cases heq
    · rw [hdid, List.mem_singleton] at hx
      obtain ⟨rfl, rfl⟩ := Happening.opened.inj hx
      exact hin rfl
  refine S.aside K A F.cut (fun sid zone => ?_) hclients (fun sid node hnode => .inl ?_) fun sid job hjob hends => ?_
  · rw [hsubscribers, subscribed_quiet fun x hx => ?_]
    · exact S.subscribed sid zone
    · rcases hdid with hdid | ⟨source, hdid, -⟩
      · obtain ⟨sid, ops, rfl⟩ := hdid x hx
        simp
      · rw [hdid, List.mem_singleton] at hx
        subst hx
        simp
  · rw [F.admitted]
    exact hnode
  · rcases s.step_ends he hjob hends with hsame | ⟨hidle, last, hlast, hscript⟩
    · rw [hsame] at hjob
      obtain ⟨hfree, last, hlast, hshape⟩ := S.ending sid job hjob hends
      have hlt : sid < s.next := by
        have hfits := K.scripts _ job hjob
        rcases hends with rfl | rfl | rfl <;> exact K.next sid _ hfits.2.choose_spec
      have hgone : sid ∉ s.out → sid ∉ (s.step e).1.out := fun hnot hmem => by
        rcases hout sid hmem with h | h
        · exact hnot h
        · exact absurd hlt h.not_gt
      refine ⟨by rwa [F.cut], last, hlast, ?_⟩
      rw [hsame]
      refine hshape.imp_right (.imp (And.imp_right hgone) ?_)
      rintro ⟨h, hnot, hnone⟩
      exact ⟨h, hgone hnot, fun zone => by rw [hsubscribers]; exact hnone zone⟩
    · exact ⟨by rw [F.cut]; exact hidle.2, last, hlast, .inl hscript⟩

/-- A task takes the cut, to begin what it takes it for. -/
theorem Seated.take {w : Worker} {job : Inner} {rest : List Job} (hscript : s.scripts w = .cut [job] :: rest)
    (hfree : s.cut = none) (hbegins : job.Begins) : Seated t ((s.give w rest).setCut (some (w, [job]))) where
  subscribed := S.subscribed
  registered := S.registered
  clients := S.clients
  known sid zone hsub hhome hgrants := by
    rcases S.known sid zone hsub hhome hgrants with hknown | ⟨_, _, heq⟩
    · exact .inl hknown
    · rw [hfree] at heq
      cases heq
  ending sid job' hjob' hends := by
    rw [Shared.setCut_scripts, Shared.give_scripts] at hjob'
    have hw : w ≠ .session sid := by
      rintro rfl
      rw [if_pos rfl] at hjob'
      obtain ⟨last, hlast, hshape⟩ := (S.ending sid job' (hscript ▸ List.mem_cons_of_mem _ hjob') hends).script
      rw [hscript] at hshape
      rcases hshape with heq | ⟨heq, -⟩ | ⟨heq, -⟩
      · cases heq
      · cases heq
      · rcases hlast with rfl | rfl <;> cases heq
    rw [if_neg hw.symm] at hjob'
    obtain ⟨-, last, hlast, hshape⟩ := S.ending sid job' hjob' hends
    refine ⟨by simpa using hw, last, hlast, ?_⟩
    rw [Shared.setCut_scripts, Shared.give_scripts, if_neg hw.symm]
    exact hshape
  stage w' inner heq := by
    rw [Shared.setCut_cut] at heq
    obtain ⟨rfl, rfl⟩ := Prod.mk.inj (Option.some.inj heq)
    exact .begins job hbegins

theorem Seated.release {w : Worker} (hheld : s.cut = some (w, [])) : Seated t (s.setCut none) where
  subscribed := S.subscribed
  registered := S.registered
  clients := S.clients
  known sid zone hsub hhome hgrants := by
    rcases S.known sid zone hsub hhome hgrants with hknown | ⟨_, _, heq⟩
    · exact .inl hknown
    · rw [hheld] at heq
      cases heq
  ending sid job hjob hends := ⟨by simp, (S.ending sid job hjob hends).script⟩
  stage := by simp

theorem Seated.step (K : Kept t s) (e : Event) : Seated (t ++ (s.step e).2) (s.step e).1 := by
  by_cases he : ∀ w env, e ≠ .run w env
  · exact S.event K he
  push Not at he
  obtain ⟨w, env, rfl⟩ := he
  change Seated (t ++ (s.run w env).2) (s.run w env).1
  have h := s.run_ran w env
  generalize s.run w env = r at h
  obtain ⟨s', did⟩ := r
  dsimp only at h ⊢
  cases h with
  | nothing => simpa using S
  | release hheld => simpa using S.release hheld
  | inner job rest hheld => exact S.inner K env hheld
  | take inner rest hfree hscript =>
    obtain ⟨job, rfl, hbegins, -⟩ := K.scripts w _ (hscript ▸ List.mem_cons_self)
    simpa using S.take hscript hfree hbegins
  | outer job rest hfree hscript hcut => exact S.outer K env hscript hfree

end Under

theorem Seated.new (clientGrants : Bool) : Seated [] (Shared.new C clientGrants) where
  subscribed sid zone := by simp [Shared.new, Shared.subscribers, Serving.subscribed]
  registered := by simp
  clients := by simp
  known := by simp [Shared.new, Shared.subscribers]
  ending := by simp [Shared.new]
  stage := by simp [Shared.new]

/-- What every run keeps. -/
def Held (t : List Happening) (s : Shared C) : Prop := Kept t s ∧ Seated t s

end Glade.Node.Serving
