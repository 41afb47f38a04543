import Glade.Node.Revocation
import Glade.Node.Stages

/-! What a re-check tells the sessions it takes out of a zone: each is refused by a
fold, is told once, and is sent no op of the zone from then on. -/

namespace Glade.Node.Serving

open Wire Store Grants Histories

variable {C : Crypto}

/-! ### What a history of removals is -/

/-- Ops are queued to a session for zones it is subscribed to. -/
def QueuedSubscribed (t : List Happening) : Prop :=
  Each (fun before x => ∀ w sid ops, x = .queued w sid (.ops ops) → ∀ op ∈ ops, subscribed before sid (zoneOf op) = true) t

/-- A pass takes a session out of a zone for the sake of a fold that refuses it. -/
def RemovedRefused (t : List Happening) : Prop :=
  Each (fun before x => ∀ sid zone generation, x = .left sid zone (some generation) → RefusedBy before generation sid zone) t

/-- A pass's refusal follows the removal it tells of. -/
def ToldRemoved (t : List Happening) : Prop :=
  Each (fun before x => ∀ id sid e, x = .queued (.other id) sid (.error e) →
    ∃ generation zone why, LastLeft before generation sid zone ∧ .error e = refusalFrame .unauthorized why zone) t

/-- A session a pass takes out of a zone is told next, but for one whose end has
taken it out of the session table; `s` is the state reached. -/
def RemovedTold (t : List Happening) (s : Shared C) : Prop :=
  ∀ before sid zone generation after, t = before ++ .left sid zone (some generation) :: after →
    (∃ mid id why later, after = mid ++ .queued (.other id) sid (refusalFrame .unauthorized why zone) :: later ∧
      ∀ x ∈ mid, ¬ x.UnderCut) ∨
    .shut sid ∈ t ∨
    ∃ id why rest, s.cut = some (.other id, .queue sid (refusalFrame .unauthorized why zone) :: rest) ∧ ∀ x ∈ after, ¬ x.UnderCut

/-! ### The next job under the cut -/

section Next

variable {t : List Happening} {s : Shared C} (S : Seated t s)

include S

theorem Seated.queue_ops {w : Worker} {sid : SessionId} {ops : List Op} {rest : List Inner}
    (hheld : s.cut = some (w, .queue sid (.ops ops) :: rest)) (hout : sid ∈ s.out) : ∀ op ∈ ops,
      sid ∈ s.subscribers (zoneOf op) := by
  have hstage := S.stage w _ hheld
  generalize hinner : Inner.queue sid (.ops ops) :: rest = inner at hstage
  cases hstage with
  | queues _ hall =>
    subst hinner
    obtain ⟨sid', ops', heq, hops⟩ := hall _ List.mem_cons_self
    cases heq
    exact fun op hop => (hops op hop).resolve_right fun h => h.1 hout
  | begins job hbegins =>
    obtain ⟨rfl, -⟩ := List.cons.inj hinner
    exact hbegins.elim
  | refuses code pass refused _ => cases refused <;> cases hinner
  | _ => cases hinner

/-- A refusal queued under the cut tells of the removal just made. -/
theorem Seated.queue_error {w : Worker} {sid : SessionId} {e : Error} {rest : List Inner}
    (hheld : s.cut = some (w, .queue sid (.error e) :: rest)) :
    ∃ zone why code pass refused, .error e = refusalFrame code why zone ∧ Refusable t s w code pass refused ∧
      .registered sid zone ∈ t ∧
      ∀ generation, pass = some generation → sid ∈ s.out → LastLeft t generation sid zone := by
  have hstage := S.stage w _ hheld
  generalize hinner : Inner.queue sid (.error e) :: rest = inner at hstage
  cases hstage with
  | tells sid' zone why code pass refused hre hregistered hsub hleft =>
    obtain ⟨heq, -⟩ := List.cons.inj hinner
    obtain ⟨rfl, hframe⟩ := Inner.queue.inj heq
    exact ⟨zone, why, code, pass, refused, hframe, hre, hregistered, hleft⟩
  | queues _ hall =>
    subst hinner
    obtain ⟨_, _, heq, -⟩ := hall _ List.mem_cons_self
    cases heq
  | begins job hbegins =>
    obtain ⟨rfl, -⟩ := List.cons.inj hinner
    exact hbegins.elim
  | refuses code pass refused _ => cases refused <;> cases hinner
  | _ => cases hinner

/-- A pass takes a session it may out of its zone, and is to tell it next. -/
theorem Seated.unsubscribe_pass {w : Worker} {sid : SessionId} {zone : Zone} {generation : ℕ} {rest : List Inner}
    (hheld : s.cut = some (w, .unsubscribe sid zone (some generation) :: rest)) :
    (∃ id, w = .other id) ∧ (sid ∈ s.subscribers zone → RefusedBy t generation sid zone) ∧
      ∃ why rest', rest = .queue sid (refusalFrame .unauthorized why zone) :: rest' := by
  have hstage := S.stage w _ hheld
  generalize hinner : Inner.unsubscribe sid zone (some generation) :: rest = inner at hstage
  cases hstage with
  | refuses code pass refused hre =>
    cases refused with
    | nil => cases hinner
    | cons r refused =>
      obtain ⟨heq, rfl⟩ := List.cons.inj hinner
      obtain ⟨rfl, rfl, rfl⟩ := Inner.unsubscribe.inj heq
      obtain ⟨hw, rfl, hwhy⟩ := hre.why generation rfl
      exact ⟨hw, hwhy r List.mem_cons_self, r.why, _, rfl⟩
  | queues _ hall =>
    subst hinner
    obtain ⟨_, _, heq, -⟩ := hall _ List.mem_cons_self
    cases heq
  | begins job hbegins =>
    obtain ⟨rfl, -⟩ := List.cons.inj hinner
    exact hbegins.elim
  | _ => cases hinner

end Next

/-! ### Each step -/

/-- A happening that queues no ops, and is no removal for a fold's sake nor its telling. -/
def Happening.Still (x : Happening) : Prop :=
  (∀ w sid ops, x ≠ .queued w sid (.ops ops)) ∧ (∀ sid zone generation, x ≠ .left sid zone (some generation)) ∧
    ∀ id sid e, x ≠ .queued (.other id) sid (.error e)

/-- What is said of a history's removals, and of the ops it queues. -/
def Said (t : List Happening) : Prop := QueuedSubscribed t ∧ RemovedRefused t ∧ ToldRemoved t

theorem Said.still {t did : List Happening} (h : Said t) (hdid : ∀ x ∈ did, x.Still) : Said (t ++ did) := by
  obtain ⟨hqueued, hrefused, htold⟩ := h
  refine ⟨hqueued.quiet fun x hx before w sid ops heq => ?_, hrefused.quiet fun x hx before sid zone generation heq => ?_,
    htold.quiet fun x hx before id sid e heq => ?_⟩
  · exact absurd heq ((hdid x hx).1 w sid ops)
  · exact absurd heq ((hdid x hx).2.1 sid zone generation)
  · exact absurd heq ((hdid x hx).2.2 id sid e)

/-- The removals already made, after a step that adds none. -/
theorem RemovedTold.extend {t did : List Happening} {s s' : Shared C} (h : RemovedTold t s)
    (hdid : ∀ x ∈ did, ∀ sid zone generation, x ≠ .left sid zone (some generation))
    (hpending : ∀ id sid zone why rest after, s.cut = some (.other id, .queue sid (refusalFrame .unauthorized why zone) :: rest) →
      (∀ x ∈ after, ¬ x.UnderCut) →
      (∃ mid id why later, after ++ did = mid ++ .queued (.other id) sid (refusalFrame .unauthorized why zone) :: later ∧
        ∀ x ∈ mid, ¬ x.UnderCut) ∨
      .shut sid ∈ t ++ did ∨
      ∃ id why rest, s'.cut = some (.other id, .queue sid (refusalFrame .unauthorized why zone) :: rest) ∧
        ∀ x ∈ after ++ did, ¬ x.UnderCut) : RemovedTold (t ++ did) s' := by
  intro before sid zone generation after heq
  rcases List.append_eq_append_iff.mp heq with ⟨more, rfl, hdid'⟩ | ⟨more, rfl, hafter⟩
  · exact absurd rfl (hdid _ (hdid' ▸ List.mem_append_right _ List.mem_cons_self) sid zone generation)
  cases more with
  | nil =>
    rw [List.nil_append] at hafter
    exact absurd rfl (hdid _ (hafter ▸ List.mem_cons_self) sid zone generation)
  | cons y more =>
    obtain ⟨rfl, rfl⟩ := List.cons.inj hafter
    rcases h before sid zone generation more rfl with ⟨mid, id, why, later, rfl, hmid⟩ | hshut | ⟨id, why, rest, hheld, hmore⟩
    · exact .inl ⟨mid, id, why, later ++ did, by simp, hmid⟩
    · exact .inr (.inl (List.mem_append_left _ hshut))
    · exact hpending id sid zone why rest more hheld hmore

/-- What a step beside the cut leaves to be told. -/
theorem RemovedTold.aside {t did : List Happening} {s s' : Shared C} (h : RemovedTold t s) (hdid : ∀ x ∈ did, ¬ x.UnderCut)
    (hcut : ∀ w job rest, s.cut = some (w, job :: rest) → s'.cut = some (w, job :: rest)) : RemovedTold (t ++ did) s' := by
  refine h.extend (fun x hx sid zone generation heq => ?_) fun id sid zone why rest after hheld hafter => ?_
  · subst heq
    exact hdid _ hx trivial
  · exact .inr (.inr ⟨id, why, rest, hcut _ _ _ hheld, fun x hx => (List.mem_append.mp hx).elim (hafter x) (hdid x)⟩)

/-- What a job under the cut that tells of no removal leaves to be told. -/
theorem RemovedTold.other {t did : List Happening} {s s' : Shared C} {w : Worker} {job : Inner} {rest : List Inner} (h : RemovedTold t s)
    (hheld : s.cut = some (w, job :: rest)) (hjob : ∀ sid e, job ≠ .queue sid (.error e))
    (hdid : ∀ x ∈ did, ∀ sid zone generation, x ≠ .left sid zone (some generation)) : RemovedTold (t ++ did) s' := by
  refine h.extend hdid fun id sid zone why rest after heq _ => ?_
  rw [hheld] at heq
  obtain ⟨-, heq⟩ := Prod.mk.inj (Option.some.inj heq)
  exact absurd (List.cons.inj heq).1 (hjob _ _)

section Steps

variable {t : List Happening} {s : Shared C} (S : Seated t s) {w : Worker} (env : Env) {rest : List Inner}

include S

/-- Ops are queued, to a session in the session table. -/
theorem Seated.said_ops {sid : SessionId} {ops : List Op} (hheld : s.cut = some (w, .queue sid (.ops ops) :: rest)) (h : Said t) :
    Said (t ++ s.send w sid (.ops ops)) := by
  unfold Shared.send
  split
  · rename_i hout
    obtain ⟨hqueued, hrefused, htold⟩ := h
    refine ⟨hqueued.concat fun w' sid' ops' heq op hop => ?_, hrefused.concat (by simp), htold.concat (by simp)⟩
    obtain ⟨-, rfl, hframe⟩ := Happening.queued.inj heq
    obtain rfl := Frame.ops.inj hframe
    exact (S.subscribed _ _).mp (S.queue_ops hheld hout op hop)
  · rwa [List.append_nil]

/-- A refusal is queued, to a session in the session table. -/
theorem Seated.said_error {sid : SessionId} {e : Error} (hheld : s.cut = some (w, .queue sid (.error e) :: rest)) (h : Said t) :
    Said (t ++ s.send w sid (.error e)) := by
  unfold Shared.send
  split
  · rename_i hout
    obtain ⟨hqueued, hrefused, htold⟩ := h
    refine ⟨hqueued.concat (by simp), hrefused.concat (by simp), htold.concat fun id sid' e' heq => ?_⟩
    obtain ⟨rfl, rfl, hframe⟩ := Happening.queued.inj heq
    obtain rfl := Frame.error.inj hframe
    obtain ⟨zone, why, code, pass, refused, hframe, hre, -, hleft⟩ := S.queue_error hheld
    cases pass with
    | none =>
      obtain ⟨_, hw⟩ := hre.lapse rfl
      cases hw
    | some generation =>
      obtain ⟨-, rfl, -⟩ := hre.why generation rfl
      exact ⟨generation, zone, why, hleft generation rfl hout, hframe⟩
  · rwa [List.append_nil]

/-- A session leaves its zone for a fold's sake. -/
theorem Seated.said_left {sid : SessionId} {zone : Zone} {generation : ℕ}
    (hheld : s.cut = some (w, .unsubscribe sid zone (some generation) :: rest)) (h : Said t) :
    Said (t ++ (s.doInner w env (.unsubscribe sid zone (some generation))).2.2) := by
  obtain ⟨-, hrefusedBy, -⟩ := S.unsubscribe_pass hheld
  unfold Shared.doInner
  dsimp only
  split
  · rename_i hmem
    obtain ⟨hqueued, hrefused, htold⟩ := h
    refine ⟨hqueued.concat (by simp), hrefused.concat fun sid' zone' generation' heq => ?_, htold.concat (by simp)⟩
    obtain ⟨rfl, rfl, hpass⟩ := Happening.left.inj heq
    obtain rfl := Option.some.inj hpass
    exact hrefusedBy hmem
  · rwa [List.append_nil]

/-- A job under the cut says what it should. -/
theorem Seated.said_inner {job : Inner} (hheld : s.cut = some (w, job :: rest)) (h : Said t) :
    Said (t ++ (s.doInner w env job).2.2) := by
  by_cases hqueue : ∃ sid frame, job = .queue sid frame
  · obtain ⟨sid, frame, rfl⟩ := hqueue
    cases frame with
    | ops ops => exact S.said_ops hheld h
    | error e => exact S.said_error hheld h
    | _ =>
      apply h.still
      intro x hx
      obtain ⟨-, rfl⟩ : sid ∈ s.out ∧ x = .queued w sid _ := by simpa [Shared.doInner, Shared.send] using hx
      exact ⟨by simp, by simp, by simp⟩
  by_cases hleft : ∃ sid zone generation, job = .unsubscribe sid zone (some generation)
  · obtain ⟨sid, zone, generation, rfl⟩ := hleft
    exact S.said_left env hheld h
  · apply h.still
    intro x hx
    have hdid := s.doInner_did w env job
    generalize (s.doInner w env job).2.2 = did at hdid hx
    cases hdid with
    | nothing => cases hx
    | queued sid frame => exact absurd ⟨sid, frame, rfl⟩ hqueue
    | left sid zone pass =>
      rw [List.mem_singleton.mp hx]
      refine ⟨by simp, fun sid' zone' generation heq => ?_, by simp⟩
      obtain ⟨-, -, rfl⟩ := Happening.left.inj heq
      exact hleft ⟨sid, zone, generation, rfl⟩
    | _ =>
      rw [List.mem_singleton.mp hx]
      exact ⟨by simp, by simp, by simp⟩

/-- A job under the cut leaves to be told what it should. -/
theorem Seated.told_inner {job : Inner} (hheld : s.cut = some (w, job :: rest)) (h : RemovedTold t s) :
    RemovedTold (t ++ (s.doInner w env job).2.2)
      ((s.doInner w env job).1.setCut (some (w, (s.doInner w env job).2.1 ++ rest))) := by
  by_cases herror : ∃ sid e, job = .queue sid (.error e)
  · obtain ⟨sid, e, rfl⟩ := herror
    refine h.extend (fun x hx sid' zone generation heq => ?_) fun id sid' zone why rest' after heq hafter => ?_
    · subst heq
      simp [Shared.doInner, Shared.send] at hx
    rw [hheld] at heq
    obtain ⟨rfl, hjobs⟩ := Prod.mk.inj (Option.some.inj heq)
    obtain ⟨hqueue, rfl⟩ := List.cons.inj hjobs
    obtain ⟨rfl, hframe⟩ := Inner.queue.inj hqueue
    change (∃ mid id why later, after ++ s.send _ sid _ = _ ∧ _) ∨ .shut sid ∈ t ++ s.send _ sid _ ∨ _
    unfold Shared.send
    split
    · exact .inl ⟨after, id, why, [], by rw [hframe], hafter⟩
    · rename_i hout
      obtain ⟨zone', _, _, _, _, -, -, hregistered, -⟩ := S.queue_error hheld
      refine .inr (.inl (List.mem_append_left _ ?_))
      exact (S.registered sid zone' hregistered).1.resolve_left hout
  by_cases hleft : ∃ sid zone generation, job = .unsubscribe sid zone (some generation)
  · obtain ⟨sid, zone, generation, rfl⟩ := hleft
    obtain ⟨⟨id, rfl⟩, -, why, rest', rfl⟩ := S.unsubscribe_pass hheld
    by_cases hmem : sid ∈ s.subscribers zone
    case neg =>
      refine h.other hheld (by simp) fun x hx => ?_
      simp [Shared.doInner, hmem] at hx
    intro before sid' zone' generation' after heq
    have hdid : (s.doInner (.other id) env (.unsubscribe sid zone (some generation))).2.2 =
      [.left sid zone (some generation)] := if_pos hmem
    rw [hdid] at heq
    cases after using List.reverseRecOn with
    | nil =>
      obtain ⟨-, hlast⟩ := List.append_inj' heq rfl
      obtain ⟨rfl, rfl, -⟩ := Happening.left.inj (List.cons.inj hlast).1
      exact .inr (.inr ⟨id, why, rest', rfl, by simp⟩)
    | append_singleton after x _ =>
      rw [← List.cons_append, ← List.append_assoc] at heq
      obtain ⟨ht, hlast⟩ := List.append_inj' heq rfl
      rw [hdid, hlast]
      rcases h before sid' zone' generation' after ht with ⟨mid, id', why', later, rfl, hmid⟩ | hshut | ⟨_, _, _, heq, -⟩
      · exact .inl ⟨mid, id', why', later ++ [x], by simp, hmid⟩
      · exact .inr (.inl (List.mem_append_left _ hshut))
      · rw [hheld] at heq
        cases heq
  · refine h.other hheld (fun sid e heq => herror ⟨sid, e, heq⟩) fun x hx sid zone generation heq => ?_
    subst heq
    have hdid := s.doInner_did w env job
    generalize (s.doInner w env job).2.2 = did at hdid hx
    cases hdid with
    | left sid' zone' pass =>
      obtain ⟨rfl, rfl, rfl⟩ := Happening.left.inj (List.mem_singleton.mp hx)
      exact hleft ⟨_, _, _, rfl⟩
    | _ => simp at hx

end Steps

/-- Without the cut no ops are queued, and no removal made for a fold's sake or told of. -/
theorem Kept.still_outer {t : List Happening} {s : Shared C} (K : Kept t s) {w : Worker} (env : Env) {job : Job} {rest : List Job}
    (hscript : s.scripts w = job :: rest) : ∀ x ∈ ((s.give w rest).doJob w env job).2.2, x.Still := by
  intro x hx
  have hfits : job.Fits t w := K.scripts w job (hscript ▸ List.mem_cons_self)
  have hdid := (s.give w rest).doJob_did w env job
  generalize ((s.give w rest).doJob w env job).2.2 = did at hdid hx
  cases hdid with
  | nothing => cases hx
  | sent sid frame hout =>
    rw [List.mem_singleton.mp hx, hfits.1]
    exact ⟨fun w' sid' ops heq => hfits.2 ops (Happening.queued.inj heq).2.2, by simp, by simp⟩
  | left sid =>
    obtain ⟨zone, -, rfl⟩ := List.mem_map.mp hx
    exact ⟨by simp, by simp, by simp⟩
  | _ =>
    rw [List.mem_singleton.mp hx]
    exact ⟨by simp, by simp, by simp⟩

/-- What a run says of its removals. -/
def Removing (t : List Happening) (s : Shared C) : Prop := Held t s ∧ Said t ∧ RemovedTold t s

theorem Removing.step {t : List Happening} {s : Shared C} (h : Removing t s) (e : Event) :
    Removing (t ++ (s.step e).2) (s.step e).1 := by
  obtain ⟨⟨K, S⟩, hsaid, htold⟩ := h
  refine ⟨⟨K.step e, S.step K e⟩, ?_⟩
  by_cases he : ∀ w env, e ≠ .run w env
  · have hdid : ∀ x ∈ (s.step e).2, x.Still ∧ ¬ x.UnderCut := by
      intro x hx
      rcases s.step_did he with ⟨hdid, -⟩ | ⟨source, hdid, -⟩
      · obtain ⟨sid, ops, rfl⟩ := hdid x hx
        exact ⟨⟨by simp, by simp, by simp⟩, id⟩
      · rw [hdid, List.mem_singleton] at hx
        subst hx
        exact ⟨⟨by simp, by simp, by simp⟩, id⟩
    exact ⟨hsaid.still fun x hx => (hdid x hx).1, htold.aside (fun x hx => (hdid x hx).2)
      fun w job rest hheld => by rw [(s.step_frame he).cut, hheld]⟩
  push Not at he
  obtain ⟨w, env, rfl⟩ := he
  change Said (t ++ (s.run w env).2) ∧ RemovedTold (t ++ (s.run w env).2) (s.run w env).1
  have h := s.run_ran w env
  generalize s.run w env = r at h
  obtain ⟨s', did⟩ := r
  dsimp only at h ⊢
  cases h with
  | nothing => simpa using ⟨hsaid, htold⟩
  | release hheld =>
    refine ⟨by simpa using hsaid, htold.aside (by simp) fun w' job rest heq => ?_⟩
    rw [hheld] at heq
    cases heq
  | inner job rest hheld => exact ⟨S.said_inner env hheld hsaid, S.told_inner env hheld htold⟩
  | take inner rest hfree hscript =>
    refine ⟨by simpa using hsaid, htold.aside (by simp) fun w' job rest heq => ?_⟩
    rw [hfree] at heq
    cases heq
  | outer job rest hfree hscript hcut =>
    have F := (s.give w rest).doJob_frame w env job
    exact ⟨hsaid.still (K.still_outer env hscript), htold.aside (S.outer_aside K env hscript hfree).quiet
      fun w' job' rest' hheld => F.cut.trans hheld⟩

theorem removing_run (C : Crypto) (clientGrants : Bool) (events : List Event) :
    Removing (runOf C clientGrants events).2 (runOf C clientGrants events).1 := by
  refine Histories.run_inv ⟨⟨.new clientGrants, .new clientGrants⟩, ⟨each_nil _, each_nil _, each_nil _⟩, ?_⟩
    (fun _ _ e h => h.step e) events
  intro before sid zone generation after heq
  simp at heq

/-! ### Revocation -/

/-- A session leaves a zone because of a re-check only where a fold put in force, by
that refresh or one started before it returned, refuses its holder. -/
def RemovedUnheld (t : List Happening) : Prop :=
  Each (fun before x => ∀ sid zone generation, x = .left sid zone (some generation) →
    ∃ view : PolicyView, generation ≤ view.generation ∧ .replaced view.generation view.fold ∈ before ∧
      ∃ holder, holderOf before sid = some holder ∧ view.check holder readSubscribe zone.1 ≠ .ok ()) t

/-- Where sessions name a principal once, whom a session reads for is one holder. -/
theorem HeldBy.holderOf {t before after : List Happening} {s : Shared C} (K : Kept t s) (hnames : NamesOnce t)
    (ht : t = before ++ after) {sid : SessionId} {holder : Holder} (h : HeldBy before sid holder) :
    holderOf before sid = some holder := by
  have hsome : Serving.holderOf before sid ≠ none := by
    intro hnone
    unfold Serving.holderOf at hnone
    rw [List.findSome?_eq_none_iff] at hnone
    cases h with
    | node zone id hopened => simpa [namesHolder] using hnone _ hopened
    | principal p hbound => simpa [namesHolder] using hnone _ hbound
  obtain ⟨holder', hholder'⟩ := Option.ne_none_iff_exists'.mp hsome
  have hwhole : Serving.holderOf t sid = some holder := by
    have h' : HeldBy t sid holder := ht ▸ h.append after
    cases h' with
    | node zone id hopened => exact K.holderOf_forward hopened
    | principal p hbound => exact K.holderOf_bound hnames hbound
  rw [ht, holderOf_append after hholder'] at hwhole
  rw [hholder', hwhole]

/-- Revocation reaches every live subscription. In every run of a node that checks
client sessions, in which no session names a principal twice: once the refresh that put
the fold in force has returned, ops are queued only to sessions whose holder that fold
grants the zone's share, and only for zones they are subscribed to; a session a re-check
takes out of a zone is told next, with one refusal for each such zone, but for one whose
end has already taken it out of the session table; and a re-check takes out only
sessions whose holder a fold put in force refuses. -/
theorem revocation_reaches (C : Crypto) (events : List Event) (hnames : NamesOnce (runOf C true events).2) :
    Served (runOf C true events).2 ∧ QueuedSubscribed (runOf C true events).2 ∧
      RemovedTold (runOf C true events).2 (runOf C true events).1 ∧ ToldRemoved (runOf C true events).2 ∧
      RemovedUnheld (runOf C true events).2 := by
  obtain ⟨K, -, hwatched⟩ := guarded_run C events
  obtain ⟨-, ⟨hqueued, hrefused, hremoved⟩, htold⟩ := removing_run C true events
  refine ⟨(hwatched hnames).2, hqueued, htold, hremoved, fun before x after ht sid zone generation hx => ?_⟩
  obtain ⟨view, hle, hreplaced, holder, hheld, hcheck⟩ := hrefused before x after ht sid zone generation hx
  exact ⟨view, hle, hreplaced, holder, hheld.holderOf K hnames ht, hcheck⟩

/-! ### A peer's stream that ends while a re-check is about to refuse it -/

section PeerEnds

def notes : Zone := ("s", "notes", [])

def peer : Bytes32 := ⟨List.replicate 32 0, by simp⟩

/-- What the peer's node is granted. -/
def peerReads : Policy :=
  { granted := (∅ : Std.ExtTreeMap (String × String) (Finset String)).insert (hex peer.val, "s") {readSubscribe}, revoked := ∅ }

theorem peerReads_check : (PolicyView.mk 1 (some peerReads)).check (.node peer) readSubscribe "s" = .ok () := by
  decide +kernel

def turns (w : Worker) (n : ℕ) : List Event := List.replicate n (.run w { fault := none, os := "", linked := false })

/-- What the peer's end depends on, of a state. -/
structure PeerAt (s : Shared C) (session refresh : List Job) (cut : Option (Worker × List Inner)) (out : Finset SessionId)
    (router : Std.ExtTreeMap Zone (Finset SessionId)) (admitted : Std.ExtTreeMap SessionId Bytes32) (policy : PolicyView)
    (loops : Option Source) (first : List Job) : Prop where
  session : s.scripts (.session 1) = session
  refresh : s.scripts (.other 1) = refresh
  cut : s.cut = cut
  out : s.out = out
  router : s.router = router
  admitted : s.admitted = admitted
  store : s.store = Store.empty
  loops : s.loops[(1 : SessionId)]? = loops
  policy : s.policy = policy
  first : s.scripts (.other 0) = first

/-- Where the peer alone is subscribed. -/
abbrev peerRouter : Std.ExtTreeMap Zone (Finset SessionId) := (∅ : Std.ExtTreeMap Zone (Finset SessionId)).insert notes {1}

abbrev peerAdmitted : Std.ExtTreeMap SessionId Bytes32 := (∅ : Std.ExtTreeMap SessionId Bytes32).insert 1 peer

abbrev peerLoop : Option Source := some (.forward notes peer)

theorem peer_enters (C : Crypto) : ∃ s : Shared C, Histories.run Shared.step (.new C true)
    (.refresh 0 (some peerReads) :: turns (.other 0) 1 ++ .peerSubscribe peer notes ∅ 1 :: turns (.session 1) 3) =
      (s, [.replaced 1 (some peerReads), .opened 1 (.forward notes peer)]) ∧
    PeerAt s [] [] (some (.session 1, [.register 1 notes, .admitted 1 peer, .ackGap 1 notes ∅ (some 1)])) {1} ∅ ∅
      ⟨1, some peerReads⟩ peerLoop [.cut [.readAdmitted 1], .returned 1] := by
  have hcheck := peerReads_check
  refine ⟨_, Prod.ext rfl ?_, ?_⟩
  · simp [turns, Histories.run, Shared.new, Shared.step, Shared.run, Shared.give, Shared.doFirst, Shared.setCut,
      Shared.doJob, Shared.doInner, Shared.idle, PolicyView.replace, notes, hcheck, Shared.nodeCheck, Except.mapError]
  · constructor <;> simp [Shared.new, Shared.step, Shared.run, Shared.give, Shared.doFirst, Shared.setCut, Shared.doJob,
      Shared.doInner, Shared.idle, PolicyView.replace, notes, hcheck, Shared.nodeCheck, Except.mapError]

theorem peer_served {s : Shared C} {policy : PolicyView} {first : List Job}
    (h : PeerAt s [] [] (some (.session 1, [.register 1 notes, .admitted 1 peer,
      .ackGap 1 notes ∅ (some 1)])) {1} ∅ ∅ policy peerLoop first) :
    ∃ s' : Shared C, Histories.run Shared.step s (turns (.session 1) 5) =
      (s', [.registered 1 notes, .acked 1 notes ∅ [], .queued (.session 1) 1 (ack C Store.empty notes)]) ∧
    PeerAt s' [] [] none {1} peerRouter peerAdmitted policy peerLoop first := by
  obtain ⟨hsession, hrefresh, hcut, hout, hrouter, hadmitted, hstore, hloops, hpolicy, hfirst⟩ := h
  have hgap : missingFor C Store.empty notes ∅ = [] := rfl
  have hrun : Histories.run Shared.step s (turns (.session 1) 5) =
      ({ s with router := peerRouter, admitted := peerAdmitted, cut := none },
        [.registered 1 notes, .acked 1 notes ∅ [], .queued (.session 1) 1 (ack C Store.empty notes)]) := by
    simp [turns, Histories.run, Shared.step, Shared.run, Shared.setCut, Shared.doInner, Shared.send, Shared.subscribers,
      Shared.chunked, hcut, hout, hrouter, hadmitted, hstore, hgap]
  exact ⟨_, hrun, hsession, hrefresh, rfl, hout, rfl, rfl, hstore, hloops, hpolicy, hfirst⟩

theorem peer_entries {s : Shared C} (hrouter : s.router = peerRouter) : s.entries = [(1, notes)] := by
  apply List.perm_singleton.mp
  rw [List.perm_ext_iff_of_nodup s.nodup_entries (List.nodup_singleton _)]
  rintro ⟨sid, zone⟩
  rw [Shared.mem_entries, Shared.subscribers, hrouter, Std.ExtTreeMap.getD_insert]
  simp only [Std.compare_eq_iff_eq, List.mem_singleton, Prod.mk.injEq]
  split_ifs with hzone
  · simp [hzone]
  · simpa using fun _ => Ne.symm hzone

theorem peer_rechecked {s : Shared C} {generation : ℕ} {fold : Option Policy} {first : List Job}
    (h : PeerAt s [] [] none {1} peerRouter peerAdmitted ⟨generation, fold⟩ peerLoop first) :
    ∃ s' : Shared C, Histories.run Shared.step s (.refresh 1 none :: turns (.other 1) 2) =
      (s', [.replaced (generation + 1) none]) ∧
    PeerAt s' [] [.returned (generation + 1)] (some (.other 1, [.readAdmitted (generation + 1)])) {1} peerRouter peerAdmitted
      ⟨generation + 1, none⟩ peerLoop first := by
  obtain ⟨hsession, hrefresh, hcut, hout, hrouter, hadmitted, hstore, hloops, hpolicy, hfirst⟩ := h
  have hrun : Histories.run Shared.step s (.refresh 1 none :: turns (.other 1) 2) =
      ({ s.give (.other 1) [.returned (generation + 1)] with
          policy := ⟨generation + 1, none⟩, cut := some (.other 1, [.readAdmitted (generation + 1)]) },
        [.replaced (generation + 1) none]) := by
    simp [turns, Histories.run, Shared.step, Shared.run, Shared.setCut, Shared.doJob, Shared.give, Shared.doFirst,
      Shared.idle, PolicyView.replace, hcut, hrefresh, hpolicy]
  exact ⟨_, hrun, by simpa [Shared.give] using hsession, by simp [Shared.give], rfl, hout, hrouter, hadmitted, hstore, hloops,
    rfl, by simpa [Shared.give] using hfirst⟩

theorem peer_read {s : Shared C} {w : Worker} {generation : ℕ} {refresh first : List Job} {policy : PolicyView}
    (h : PeerAt s [] refresh (some (w, [.readAdmitted generation])) {1} peerRouter peerAdmitted policy peerLoop first) :
    ∃ s' : Shared C, Histories.run Shared.step s (turns w 2) = (s', []) ∧
    PeerAt s' [] refresh (some (w, [.recheck generation peerAdmitted [(1, notes)] []])) {1} peerRouter peerAdmitted policy
      peerLoop first := by
  obtain ⟨hsession, hrefresh, hcut, hout, hrouter, hadmitted, hstore, hloops, hpolicy, hfirst⟩ := h
  have hrun : Histories.run Shared.step s (turns w 2) =
      ({ s with cut := some (w, [.recheck generation peerAdmitted [(1, notes)] []]) }, []) := by
    simp [turns, Histories.run, Shared.step, Shared.run, Shared.setCut, Shared.doInner, hcut, hadmitted]
    exact peer_entries hrouter
  exact ⟨_, hrun, hsession, hrefresh, rfl, hout, hrouter, hadmitted, hstore, hloops, hpolicy, hfirst⟩

theorem peer_shut {s : Shared C} {generation : ℕ} {first : List Job}
    (h : PeerAt s [] [.returned generation] (some (.other 1, [.recheck generation peerAdmitted [(1, notes)] []])) {1}
      peerRouter peerAdmitted ⟨generation, none⟩ peerLoop first) :
    ∃ s' : Shared C, Histories.run Shared.step s (.disconnect 1 :: turns (.session 1) 1) = (s', [.shut 1]) ∧
    PeerAt s' [.unsubscribeAll 1, .dropAdmitted 1] [.returned generation]
      (some (.other 1, [.recheck generation peerAdmitted [(1, notes)] []])) ∅ peerRouter peerAdmitted
      ⟨generation, none⟩ none first := by
  obtain ⟨hsession, hrefresh, hcut, hout, hrouter, hadmitted, hstore, hloops, hpolicy, hfirst⟩ := h
  have hrun : Histories.run Shared.step s (.disconnect 1 :: turns (.session 1) 1) =
      ({ s.give (.session 1) [.unsubscribeAll 1, .dropAdmitted 1] with loops := s.loops.erase 1, out := s.out.erase 1 },
        [.shut 1]) := by
    simp [turns, Histories.run, Shared.step, Shared.run, Shared.doJob, Shared.give, Shared.doFirst, Shared.idle, hcut, hsession,
      hout, hloops]
  exact ⟨_, hrun, by simp [Shared.give], by simpa [Shared.give] using hrefresh, hcut, by rw [hout]; rfl, hrouter, hadmitted,
    hstore, Std.ExtTreeMap.getElem?_erase_self, hpolicy, by simpa [Shared.give] using hfirst⟩

theorem peer_ends {s : Shared C} {generation : ℕ} {session first : List Job}
    (h : PeerAt s session [.returned generation] (some (.other 1, [.recheck generation peerAdmitted [(1, notes)] []])) ∅
      peerRouter peerAdmitted ⟨generation, none⟩ none first) :
    ∃ s' : Shared C, Histories.run Shared.step s (turns (.other 1) 4) = (s', [.left 1 notes (some generation)]) ∧
    s'.scripts (.other 1) = [.returned generation] ∧ s'.cut = some (.other 1, [.dropAdmitted 1]) ∧ s'.out = ∅ ∧
      s'.admitted = peerAdmitted := by
  obtain ⟨hsession, hrefresh, hcut, hout, hrouter, hadmitted, hstore, hloops, hpolicy, hfirst⟩ := h
  have hshare : ¬ notes.1 = home := by decide
  have hrun : Histories.run Shared.step s (turns (.other 1) 4) =
      ({ s.unsubscribe 1 notes with cut := some (.other 1, [.dropAdmitted 1]) }, [.left 1 notes (some generation)]) := by
    simp [turns, Histories.run, Shared.step, Shared.run, Shared.setCut, Shared.doInner, Shared.send, Shared.readGranted,
      Shared.nodeCheck, PolicyView.check, Except.mapError, Shared.refuse, Shared.unsubscribe, Shared.subscribers, hcut,
      hout, hrouter, hpolicy, hshare]
  exact ⟨_, hrun, hrefresh, rfl, hout, hadmitted⟩

theorem peer_let_go {s : Shared C} {generation : ℕ} (hrefresh : s.scripts (.other 1) = [.returned generation])
    (hcut : s.cut = some (.other 1, [.dropAdmitted 1])) (hout : s.out = ∅) (hadmitted : s.admitted = peerAdmitted) :
    (Histories.run Shared.step s (turns (.other 1) 4)).2 = [.returned generation] := by
  simp [turns, Histories.run, Shared.step, Shared.run, Shared.setCut, Shared.doInner, Shared.doJob, Shared.give, Shared.doFirst,
    hcut, hrefresh, hout, hadmitted]

/-- The peer subscribes and is served; a refresh takes every grant away; the stream ends
before the re-check has looked at it. -/
def peerEnds : List Event :=
  (.refresh 0 (some peerReads) :: turns (.other 0) 1 ++ .peerSubscribe peer notes ∅ 1 :: turns (.session 1) 3) ++
    turns (.session 1) 5 ++ (.refresh 1 none :: turns (.other 1) 2) ++ turns (.other 1) 2 ++
    (.disconnect 1 :: turns (.session 1) 1) ++ turns (.other 1) 4 ++ turns (.other 1) 4

theorem peerEnds_did (C : Crypto) : (runOf C true peerEnds).2 =
    [.replaced 1 (some peerReads), .opened 1 (.forward notes peer), .registered 1 notes, .acked 1 notes ∅ [],
      .queued (.session 1) 1 (ack C Store.empty notes), .replaced 2 none, .shut 1, .left 1 notes (some 2), .returned 2] := by
  obtain ⟨s₁, h₁, hs₁⟩ := peer_enters C
  obtain ⟨s₂, h₂, hs₂⟩ := peer_served hs₁
  obtain ⟨s₃, h₃, hs₃⟩ := peer_rechecked hs₂
  obtain ⟨s₄, h₄, hs₄⟩ := peer_read hs₃
  obtain ⟨s₅, h₅, hs₅⟩ := peer_shut hs₄
  obtain ⟨s₆, h₆, hrefresh, hcut, hout, hadmitted⟩ := peer_ends hs₅
  have h₇ := peer_let_go hrefresh hcut hout hadmitted
  unfold runOf peerEnds
  simp only [Histories.run_append, h₁, h₂, h₃, h₄, h₅, h₆, h₇]
  rfl

theorem names_peerEnds (C : Crypto) : NamesOnce (runOf C true peerEnds).2 := by
  rw [peerEnds_did]
  exact (each_nil _).quiet (by simp)

/-- Whether every session a re-check takes out of a zone is told before its refresh returns. -/
def AllTold (t : List Happening) : Prop := ∀ before sid zone generation after,
  t = before ++ .left sid zone (some generation) :: after → .returned generation ∈ after →
    ∃ w why, .queued w sid (refusalFrame .unauthorized why zone) ∈ after

/-- A session a re-check takes out of a zone is not always told: an end of its own that
has taken it out of the session table leaves nobody to tell. -/
theorem ended_not_told : ¬ ∃ C : Crypto, ∀ events : List Event, NamesOnce (runOf C true events).2 →
    AllTold (runOf C true events).2 := by
  rintro ⟨C, h⟩
  obtain ⟨w, why, hqueued⟩ := h peerEnds (names_peerEnds C)
    [.replaced 1 (some peerReads), .opened 1 (.forward notes peer), .registered 1 notes, .acked 1 notes ∅ [],
      .queued (.session 1) 1 (ack C Store.empty notes), .replaced 2 none, .shut 1] 1 notes 2 [.returned 2]
    (by rw [peerEnds_did]; rfl) (by simp)
  simp at hqueued

theorem peerEnds_revoked : (∀ C : Crypto, NamesOnce (runOf C true peerEnds).2) ∧ ∀ C : Crypto,
    Served (runOf C true peerEnds).2 ∧ QueuedSubscribed (runOf C true peerEnds).2 ∧
      RemovedTold (runOf C true peerEnds).2 (runOf C true peerEnds).1 ∧ ToldRemoved (runOf C true peerEnds).2 ∧
      RemovedUnheld (runOf C true peerEnds).2 :=
  ⟨names_peerEnds, fun C => revocation_reaches C peerEnds (names_peerEnds C)⟩

/-! ### A later fold that an earlier pass reads -/

theorem peer_replaced {s : Shared C} {generation : ℕ} {fold : Option Policy} {first : List Job}
    (h : PeerAt s [] [] none {1} peerRouter peerAdmitted ⟨generation, fold⟩ peerLoop first) :
    ∃ s' : Shared C, Histories.run Shared.step s (.refresh 1 none :: turns (.other 1) 1) =
      (s', [.replaced (generation + 1) none]) ∧
    PeerAt s' [] [.cut [.readAdmitted (generation + 1)], .returned (generation + 1)] none {1} peerRouter peerAdmitted
      ⟨generation + 1, none⟩ peerLoop first := by
  obtain ⟨hsession, hrefresh, hcut, hout, hrouter, hadmitted, hstore, hloops, hpolicy, hfirst⟩ := h
  have hrun : Histories.run Shared.step s (.refresh 1 none :: turns (.other 1) 1) =
      ({ s.give (.other 1) [.cut [.readAdmitted (generation + 1)], .returned (generation + 1)] with
          policy := ⟨generation + 1, none⟩ }, [.replaced (generation + 1) none]) := by
    simp [turns, Histories.run, Shared.step, Shared.run, Shared.doJob, Shared.give, Shared.doFirst, Shared.idle,
      PolicyView.replace, hcut, hrefresh, hpolicy]
  exact ⟨_, hrun, by simpa [Shared.give] using hsession, by simp [Shared.give], hcut, hout, hrouter, hadmitted, hstore, hloops,
    rfl, by simpa [Shared.give] using hfirst⟩

/-- The first refresh's pass takes the cut. -/
theorem peer_passes {s : Shared C} {generation : ℕ} {refresh : List Job} {policy : PolicyView}
    (h : PeerAt s [] refresh none {1} peerRouter peerAdmitted policy peerLoop
      [.cut [.readAdmitted generation], .returned generation]) :
    ∃ s' : Shared C, Histories.run Shared.step s (turns (.other 0) 1) = (s', []) ∧
    PeerAt s' [] refresh (some (.other 0, [.readAdmitted generation])) {1} peerRouter peerAdmitted policy peerLoop
      [.returned generation] := by
  obtain ⟨hsession, hrefresh, hcut, hout, hrouter, hadmitted, hstore, hloops, hpolicy, hfirst⟩ := h
  have hrun : Histories.run Shared.step s (turns (.other 0) 1) =
      ({ s.give (.other 0) [.returned generation] with cut := some (.other 0, [.readAdmitted generation]) }, []) := by
    simp [turns, Histories.run, Shared.step, Shared.run, Shared.setCut, Shared.give, Shared.doFirst, hcut, hfirst]
  exact ⟨_, hrun, by simpa [Shared.give] using hsession, by simpa [Shared.give] using hrefresh, rfl, hout, hrouter, hadmitted,
    hstore, hloops, hpolicy, by simp [Shared.give]⟩

theorem peer_removed {s : Shared C} {w : Worker} {generation later : ℕ} {refresh first : List Job}
    (h : PeerAt s [] refresh (some (w, [.recheck generation peerAdmitted [(1, notes)] []])) {1} peerRouter peerAdmitted
      ⟨later, none⟩ peerLoop first) :
    (Histories.run Shared.step s (turns w 3)).2 = [.left 1 notes (some generation)] := by
  obtain ⟨hsession, hrefresh, hcut, hout, hrouter, hadmitted, hstore, hloops, hpolicy, hfirst⟩ := h
  have hshare : ¬ notes.1 = home := by decide
  simp [turns, Histories.run, Shared.step, Shared.run, Shared.setCut, Shared.doInner, Shared.readGranted, Shared.nodeCheck,
    PolicyView.check, Except.mapError, Shared.refuse, Shared.subscribers, hcut, hrouter, hpolicy, hshare]

/-- The peer subscribes and is served under the first fold; a second refresh takes every
grant away before the first one's pass has begun. -/
def overlapping : List Event :=
  (.refresh 0 (some peerReads) :: turns (.other 0) 1 ++ .peerSubscribe peer notes ∅ 1 :: turns (.session 1) 3) ++
    turns (.session 1) 5 ++ (.refresh 1 none :: turns (.other 1) 1) ++ turns (.other 0) 1 ++ turns (.other 0) 2 ++
    turns (.other 0) 3

theorem overlapping_did (C : Crypto) : (runOf C true overlapping).2 =
    [.replaced 1 (some peerReads), .opened 1 (.forward notes peer), .registered 1 notes, .acked 1 notes ∅ [],
      .queued (.session 1) 1 (ack C Store.empty notes), .replaced 2 none, .left 1 notes (some 1)] := by
  obtain ⟨s₁, h₁, hs₁⟩ := peer_enters C
  obtain ⟨s₂, h₂, hs₂⟩ := peer_served hs₁
  obtain ⟨s₃, h₃, hs₃⟩ := peer_replaced hs₂
  obtain ⟨s₄, h₄, hs₄⟩ := peer_passes hs₃
  obtain ⟨s₅, h₅, hs₅⟩ := peer_read hs₄
  have h₆ := peer_removed hs₅
  unfold runOf overlapping
  simp only [Histories.run_append, h₁, h₂, h₃, h₄, h₅, h₆]
  rfl

/-- Whether a re-check leaves in its zones every session whose holder its refresh's fold grants them. -/
def GrantedStay (t : List Happening) : Prop :=
  Each (fun before x => ∀ sid zone generation fold holder, x = .left sid zone (some generation) →
    .replaced generation fold ∈ before → holderOf before sid = some holder →
      (⟨generation, fold⟩ : PolicyView).check holder readSubscribe zone.1 ≠ .ok ()) t

/-- Of two refreshes at once the earlier one's pass takes out whom the later one's fold refuses. -/
theorem later_fold_removes : ¬ ∃ C : Crypto, ∀ events : List Event, NamesOnce (runOf C true events).2 →
    GrantedStay (runOf C true events).2 := by
  rintro ⟨C, h⟩
  have hnames : NamesOnce (runOf C true overlapping).2 := by
    rw [overlapping_did]
    exact (each_nil _).quiet (by simp)
  refine h overlapping hnames
    [.replaced 1 (some peerReads), .opened 1 (.forward notes peer), .registered 1 notes, .acked 1 notes ∅ [],
      .queued (.session 1) 1 (ack C Store.empty notes), .replaced 2 none] _ [] (by rw [overlapping_did]; rfl)
    1 notes 1 (some peerReads) (.node peer) rfl (by simp) ?_ peerReads_check
  rfl

/-- What a re-check does not promise: to tell a session that has ended, and to spare those
its own fold grants while a later one is in force. -/
theorem revocation_limits :
    (¬ ∃ C : Crypto, ∀ events : List Event, NamesOnce (runOf C true events).2 → AllTold (runOf C true events).2) ∧
    ¬ ∃ C : Crypto, ∀ events : List Event, NamesOnce (runOf C true events).2 → GrantedStay (runOf C true events).2 :=
  ⟨ended_not_told, later_fold_removes⟩

end PeerEnds

end Glade.Node.Serving
