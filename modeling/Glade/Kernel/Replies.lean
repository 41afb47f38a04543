import Glade.Kernel.Along
import Glade.Kernel.Room

/-! What answers do that nobody waits for: nothing. A request is waited for from the
step that asks it to the step that takes its answer, and an answer to any other
leaves the state as it was. -/

namespace Glade.Kernel

open Wire Node OrdMap

/-! ### Requests -/

/-- What a provider or storage is asked. -/
inductive Request where
  | evidence (q : Query)
  | prepare (q : PrepareRequest)
  | resolve (q : ResolveRequest)

/-- The request an effect makes. -/
def Effect.request : Effect → Option Request
  | .verify q => some (.evidence q)
  | .sealing q => some (.evidence q)
  | .prepare _ q => some (.prepare q)
  | .recoverPlan q => some (.prepare q)
  | .begin b => some (.resolve b.request)
  | .fence q => some (.resolve q)
  | .lookup q => some (.resolve q)
  | _ => none

/-- The request an answer carries. -/
def Event.request : Event → Option Request
  | .evidenceResolved r => some (.evidence r.query)
  | .prepareResolved r => some (.prepare r.request)
  | .commitResolved r => some (.resolve r.request)
  | .fenceResolved r => some (.resolve r.request)
  | .lookupResolved r => some (.resolve r.request)
  | _ => none

/-- Whether the answer is one of the kind its request asked for, and what it says
fits the binding the request was made with. -/
def Event.Matches : Event → Prop
  | .prepareResolved r => ∀ a, r.result = .prepared a → a.binding = r.request.binding
  | .commitResolved r => r.request.operation = .begin ∧ ReplyValid r
  | .fenceResolved r => r.request.operation = .fence ∧ ReplyValid r
  | .lookupResolved r => r.request.operation = .inspect ∧ ReplyValid r
  | _ => True

def StorageInvocation.invocation : StorageInvocation → InvocationId
  | .prepare q => q.invocation
  | .recoverPlan q => q.invocation
  | .resolve q => q.invocation

/-- The request an entry of the table is for. -/
def StorageInvocation.request : StorageInvocation → Request
  | .prepare q => .prepare q
  | .recoverPlan q => .prepare q
  | .resolve q => .resolve q

/-- Whether the table has the request under its invocation. -/
def Tabled (table : Std.ExtTreeMap InvocationId StorageInvocation) (r : Request) : Prop :=
  ∃ i : StorageInvocation, table[i.invocation]? = some i ∧ i.request = r

/-- Whether the state waits for the answer. -/
def State.Awaits (s : State) (r : Request) : Prop :=
  (∃ p : PendingVerification, s.queries[p.query.id]? = some p ∧ .evidence p.query = r) ∨ Tabled s.storageInvocations r

/-- A valid terminal of an attempt, against the one that is retained. -/
def Contradicts (s : State) (e : Event) (t : Terminal) : Prop :=
  e.terminal = some t ∧ (∀ r, e.reply = some r → TerminalValid t r.request.attempt) ∧
    ∃ original, s.terminalResults[t.attempt.id]? = some original ∧ original ≠ t

variable (C : Crypto)

/-- Whether the step acts on the event as the answer to the request: the state changes,
and not for a contradiction. -/
def Takes (r : Request) (s : State) (e : Event) : Prop :=
  e.request = some r ∧ (step C s e).1 ≠ s ∧ ¬ ∃ t, Contradicts s e t

/-- Whether the run asked this, and no step since acted on an answer to it. -/
def Unanswered (s₀ : State) (events : List Event) (r : Request) : Prop :=
  ∃ before e after, events = before ++ e :: after ∧ (∃ x ∈ (step C (run C s₀ before) e).2, x.request = some r) ∧
    Along C (fun s e => ¬ Takes C r s e) (run C s₀ (before ++ [e])) after

/-- Whether some step of the run asked this. -/
def Requested (s₀ : State) (events : List Event) (r : Request) : Prop := ∃ x ∈ effectsOf C s₀ events, x.request = some r

/-- Whether the event is a fitting answer to what the run still waits for. -/
def Owned (s₀ : State) (events : List Event) (e : Event) : Prop :=
  ∃ r, e.request = some r ∧ Unanswered C s₀ events r ∧ e.Matches

/-- The state with a conflict recorded, unless its attempt has one, and the instance
marked. -/
def State.conflicted (s : State) (t : Terminal) : State :=
  State.modify { s with terminalConflicts := s.terminalConflicts.insertIfNew t.attempt.id t } t.attempt.id.inst
    fun v => { v with storageIntegrityFailed := true }

variable {C} {s₀ s s' : State} {events : List Event} {e : Event} {effects : List Effect}

/-! ### What is waited for was asked -/

theorem tabled_insert {table : Std.ExtTreeMap InvocationId StorageInvocation} {i : StorageInvocation} {id : InvocationId}
    {r : Request} (h : Tabled (table.insert id i) r) : Tabled table r ∨ i.request = r := by
  obtain ⟨i', hi', hr⟩ := h
  rw [Std.ExtTreeMap.getElem?_insert] at hi'
  split_ifs at hi'
  · exact .inr (Option.some.inj hi' ▸ hr)
  · exact .inl ⟨i', hi', hr⟩

theorem tabled_erase {table : Std.ExtTreeMap InvocationId StorageInvocation} {id : InvocationId} {r : Request}
    (h : Tabled (table.erase id) r) : Tabled table r := by
  obtain ⟨i, hi, hr⟩ := h
  rw [Std.ExtTreeMap.getElem?_erase] at hi
  split_ifs at hi
  exact ⟨i, hi, hr⟩

theorem awaits_queried {q : PendingVerification} {r : Request} (h : (s.queried q).Awaits r) :
    s.Awaits r ∨ .evidence q.query = r := by
  rcases h with ⟨p, hp, hr⟩ | h
  · rcases queries_queried hp with rfl | hp
    · exact .inr hr
    · exact .inl (.inl ⟨p, hp, hr⟩)
  · exact .inl (.inr h)

theorem awaits_asked {i : StorageInvocation} {r : Request} (h : (s.asked i).Awaits r) : s.Awaits r ∨ i.request = r := by
  rcases h with h | h
  · exact .inl (.inl h)
  · exact (tabled_insert h).imp_left .inr

/-- Whether the state waits for an answer to the request, or did. -/
def State.Knows (s : State) (r : Request) : Prop := s.Awaits r ∨ Tabled s.retiredStorageInvocations r

/-- What a move waits for it did before, or asks. -/
theorem Move.awaits (h : Move C s₀ e s effects s') {r : Request} (hr : s'.Awaits r) :
    s.Awaits r ∨ ∃ x ∈ effects, x.request = some r := by
  have hasked : ∀ (i : StorageInvocation) (x : Effect), x.request = some i.request → (s.asked i).Awaits r →
      s.Awaits r ∨ ∃ y ∈ [x], y.request = some r := by
    intro i x hx h
    refine (awaits_asked h).imp_right fun hi => ⟨x, List.mem_singleton.mpr rfl, ?_⟩
    rw [hx, hi]
  cases h with
  | verify c v mode hv hnew hform hmode =>
    exact (awaits_queried hr).imp_right fun h => ⟨_, List.mem_singleton.mpr rfl, congrArg some h⟩
  | sealing v p f cut h hv =>
    exact (awaits_queried hr).imp_right fun h => ⟨_, List.mem_singleton.mpr rfl, congrArg some h⟩
  | answered p verdict he hp =>
    refine .inl ?_
    rcases hr with ⟨p', hp', hr⟩ | hr
    · rw [State.answered, Std.ExtTreeMap.getElem?_erase] at hp'
      split_ifs at hp'
      exact .inl ⟨p', hp', hr⟩
    · exact .inr hr
  | stage v p q hv hidle hidle₀ hid hrevision hj hv₀ hb hinv =>
    rcases hr with hr | hr
    · exact .inl (.inl hr)
    · rcases tabled_insert hr with hr | hr
      · exact .inl (.inr hr)
      · exact .inr ⟨_, List.mem_singleton.mpr rfl, congrArg some hr⟩
  | recover q hinv => exact hasked (.recoverPlan q) (.recoverPlan q) rfl hr
  | inspect q hop hinv => exact hasked (.resolve q) (.lookup q) rfl hr
  | fence q hop hinv => exact hasked (.resolve q) (.fence q) rfl hr
  | begin b v hop hinst hinv => exact hasked (.resolve b.request) (.begin b) rfl hr
  | retire id issued h => exact .inl (hr.imp_right tabled_erase)
  | unknown number =>
    rw [State.unknown] at hr
    split at hr <;> exact .inl hr
  | _ => exact .inl hr

/-- What a step waits for it did before, or asks. -/
theorem Moves.awaits (h : Moves C s₀ e s effects s') {r : Request} (hr : s'.Awaits r) :
    s.Awaits r ∨ ∃ x ∈ effects, x.request = some r := by
  induction h with
  | refl s => exact .inl hr
  | cons hm hrest ih =>
    rcases ih hr with hr | ⟨x, hx, hr⟩
    · rcases hm.awaits hr with hr | ⟨x, hx, hr⟩
      · exact .inl hr
      · exact .inr ⟨x, List.mem_append_left _ hx, hr⟩
    · exact .inr ⟨x, List.mem_append_right _ hx, hr⟩

theorem Fresh.awaits (h : Fresh s) (r : Request) : ¬ s.Awaits r := by
  rintro (⟨p, hp, -⟩ | ⟨i, hi, -⟩)
  · simp [h.queries] at hp
  · simp [h.storageInvocations] at hi

theorem Along.grow {P : State → Event → Prop} (h : Along C P s events) (hlast : P (run C s events) e) :
    Along C P s (events ++ [e]) := by
  induction events generalizing s with
  | nil => exact .cons hlast along_nil
  | cons b events ih => exact .cons (h [] b events rfl) (ih (fun before e' after h' => by
      have := h (b :: before) e' after (by rw [h', List.cons_append])
      exact this) hlast)

/-! ### What is answered is waited for no more -/

theorem not_awaits_answered (q : Query) : ¬ (s.answered q.id).Awaits (.evidence q) := by
  rintro (⟨p, hp, hr⟩ | ⟨i, -, hr⟩)
  · rw [Request.evidence.inj hr, State.answered, Std.ExtTreeMap.getElem?_erase_self] at hp
    cases hp
  · cases i <;> cases hr

/-- A request of storage that is retired is tabled no more. -/
theorem not_awaits_retire {id : InvocationId} {issued : StorageInvocation} {r : Request} (hevidence : ∀ q, r ≠ .evidence q)
    (hid : ∀ i : StorageInvocation, i.request = r → i.invocation = id) : ¬ (s.retire id issued).Awaits r := by
  rintro (⟨p, -, hr⟩ | ⟨i, hi, hr⟩)
  · exact hevidence _ hr.symm
  · rw [hid i hr, State.retire, Std.ExtTreeMap.getElem?_erase_self] at hi
    cases hi

theorem contrary_eq_some {r : ResolveReply} {t : Terminal} (h : contrary s r = some t) :
    r.result = .terminal t ∧ ∃ original, s.terminalResults[t.attempt.id]? = some original ∧ original ≠ t := by
  rw [contrary] at h
  split at h
  case h_2 => cases h
  case h_1 t' ht' =>
    split at h
    case h_2 => cases h
    case h_1 original horiginal =>
      split_ifs at h with hne
      obtain rfl := Option.some.inj h
      exact ⟨ht', original, horiginal, hne⟩

/-- A step that acts on an answer waits for it no more, unless it asks it. -/
theorem Takes.asks {r : Request} (h : Takes C r s e) (hr : (step C s e).1.Awaits r) :
    ∃ x ∈ (step C s e).2, x.request = some r := by
  have hprepare : ∀ (q : PrepareRequest) (i : StorageInvocation), i.request = .prepare q → i.invocation = q.invocation := by
    intro q i hi
    cases i with
    | prepare q' | recoverPlan q' => rw [← Request.prepare.inj hi, StorageInvocation.invocation]
    | resolve q' => cases hi
  have hresolve : ∀ (q : ResolveRequest) (i : StorageInvocation), i.request = .resolve q → i.invocation = q.invocation := by
    intro q i hi
    cases i with
    | prepare q' | recoverPlan q' => cases hi
    | resolve q' => rw [← Request.resolve.inj hi, StorageInvocation.invocation]
  have hresolved : ∀ (reply : ResolveReply) (operation : OperationKind), e.reply = some reply → r = .resolve reply.request →
      step C s e = resolve C s reply operation → ∃ x ∈ (step C s e).2, x.request = some r := by
    rintro reply operation he rfl hstep
    rw [hstep] at hr ⊢
    rcases resolve_moves (C := C) s reply operation he with ⟨⟨hvalid, t, ht⟩ | hleft, -⟩ | ⟨-, hmoves⟩
    · obtain ⟨hresult, hretained⟩ := contrary_eq_some ht
      refine absurd ⟨t, ?_, ?_, hretained⟩ h.2.2
      · rw [Event.terminal, he, Option.bind_some, hresult]
      · intro reply' he'
        obtain rfl := Option.some.inj (he.symm.trans he')
        exact hvalid t hresult
    · exact absurd (hstep ▸ hleft) h.2.1
    · exact (hmoves.awaits hr).resolve_left (not_awaits_retire (by simp) (hresolve reply.request))
  cases e with
  | evidenceResolved reply =>
    obtain rfl := Option.some.inj h.1
    rcases evidence_moves (C := C) s reply with ⟨hleft, -⟩ | ⟨-, hmoves⟩
    · exact absurd hleft h.2.1
    · exact (hmoves.awaits hr).resolve_left (not_awaits_answered reply.query)
  | prepareResolved reply =>
    obtain rfl := Option.some.inj h.1
    rcases prepareReply_moves (C := C) (e := .prepareResolved reply) s reply with ⟨hleft, -⟩ | ⟨issued, -, hmoves⟩
    · exact absurd hleft h.2.1
    · exact (hmoves.awaits hr).resolve_left (not_awaits_retire (by simp) (hprepare reply.request))
  | commitResolved reply => exact hresolved reply .begin rfl (Option.some.inj h.1).symm rfl
  | fenceResolved reply => exact hresolved reply .fence rfl (Option.some.inj h.1).symm rfl
  | lookupResolved reply => exact hresolved reply .inspect rfl (Option.some.inj h.1).symm rfl
  | _ => cases h.1

/-- A run waits only for what it asked and acted on no answer to since. -/
theorem unanswered_of_awaits (hfresh : Fresh s₀) {r : Request} (hr : (run C s₀ events).Awaits r) :
    Unanswered C s₀ events r := by
  induction events using List.reverseRecOn with
  | nil => exact (hfresh.awaits r hr).elim
  | append_singleton events e ih =>
    rw [run_concat] at hr
    by_cases hasked : ∃ x ∈ (step C (run C s₀ events) e).2, x.request = some r
    · exact ⟨events, e, [], by simp, hasked, along_nil⟩
    · have hbefore := ((moves_step (run C s₀ events) e).awaits hr).resolve_right hasked
      obtain ⟨before, b, after, rfl, hissued, halong⟩ := ih hbefore
      refine ⟨before, b, after ++ [e], by simp, hissued, halong.grow fun htakes => hasked ?_⟩
      rw [← run_append, List.append_assoc, List.singleton_append] at htakes
      exact htakes.asks hr

/-- What a move knows it did before, or asks. -/
theorem Move.knows (h : Move C s₀ e s effects s') {r : Request} (hr : s'.Knows r) :
    s.Knows r ∨ ∃ x ∈ effects, x.request = some r := by
  rcases hr with hr | hr
  · exact (h.awaits hr).imp_left .inl
  cases h with
  | retire id issued h =>
    refine .inl ?_
    obtain ⟨i, hi, hr⟩ := hr
    change (s.retiredStorageInvocations.insert id issued)[i.invocation]? = some i at hi
    rw [Std.ExtTreeMap.getElem?_insert] at hi
    split_ifs at hi with hid
    · obtain rfl := Option.some.inj hi
      obtain rfl := Std.LawfulEqOrd.eq_of_compare hid
      exact .inl (.inr ⟨issued, h, hr⟩)
    · exact .inr ⟨i, hi, hr⟩
  | unknown number =>
    rw [State.unknown] at hr
    split at hr <;> exact .inl (.inr hr)
  | _ => exact .inl (.inr hr)

theorem Moves.knows (h : Moves C s₀ e s effects s') {r : Request} (hr : s'.Knows r) :
    s.Knows r ∨ ∃ x ∈ effects, x.request = some r := by
  induction h with
  | refl s => exact .inl hr
  | cons hm hrest ih =>
    rcases ih hr with hr | ⟨x, hx, hr⟩
    · rcases hm.knows hr with hr | ⟨x, hx, hr⟩
      · exact .inl hr
      · exact .inr ⟨x, List.mem_append_left _ hx, hr⟩
    · exact .inr ⟨x, List.mem_append_right _ hx, hr⟩

/-- A run knows only what it asked. -/
theorem requested_of_knows (hfresh : Fresh s₀) {r : Request} (hr : (run C s₀ events).Knows r) :
    Requested C s₀ events r := by
  induction events using List.reverseRecOn with
  | nil =>
    rcases hr with hr | ⟨i, hi, -⟩
    · exact (hfresh.awaits r hr).elim
    · simp [hfresh.retiredStorageInvocations] at hi
  | append_singleton events e ih =>
    rw [run_concat] at hr
    rw [Requested, effectsOf_concat]
    rcases (moves_step (run C s₀ events) e).knows hr with hr | ⟨x, hx, hr⟩
    · obtain ⟨x, hx, hr⟩ := ih hr
      exact ⟨x, List.mem_append_left _ hx, hr⟩
    · exact ⟨x, List.mem_append_right _ hx, hr⟩

/-! ### What is asked is asked once -/

/-- The number a request is issued under. -/
def Request.number : Request → ℕ
  | .evidence q => q.id
  | .prepare q => q.invocation.number
  | .resolve q => q.invocation.number

theorem number_mem {x : Effect} {r : Request} (h : x.request = some r) : r.number ∈ x.numbers := by
  cases x with
  | verify q | sealing q | recoverPlan q | begin b | fence q | lookup q =>
    obtain rfl := Option.some.inj h
    exact List.mem_singleton.mpr rfl
  | prepare p q =>
    obtain rfl := Option.some.inj h
    exact List.mem_cons_of_mem _ (List.mem_singleton.mpr rfl)
  | _ => cases h

/-- What a run asked no later step asks. -/
theorem Requested.not_again {r : Request} (h : Requested C s₀ events r) (more : List Event) (e : Event) :
    ¬ ∃ x ∈ (step C (run C s₀ (events ++ more)) e).2, x.request = some r := by
  rintro ⟨y, hy, hyr⟩
  obtain ⟨x, hx, hxr⟩ := h
  have hbefore : r.number ∈ (effectsOf C s₀ (events ++ more)).flatMap Effect.numbers := by
    rw [effectsOf_append]
    exact List.mem_flatMap.mpr ⟨x, List.mem_append_left _ hx, number_mem hxr⟩
  have hlt := ((effectsOf_climbs s₀ (events ++ more)).within _ hbefore).2
  have hle := ((moves_step (C := C) (run C s₀ (events ++ more)) e).climbs.within _ (List.mem_flatMap.mpr ⟨y, hy,
    number_mem hyr⟩)).1
  omega

/-! ### Answers nobody waits for -/

theorem evidence_inert {r : EvidenceReply} (h : ¬ s.Awaits (.evidence r.query)) : (evidence C s r).1 = s := by
  rw [evidence]
  cases hp : s.queries[r.query.id]?.filter (fun p => p.query = r.query) with
  | none => rfl
  | some p =>
    obtain ⟨hp, hquery⟩ := Option.filter_eq_some_iff.mp hp
    have hquery : p.query = r.query := by simpa using hquery
    refine absurd (.inl ⟨p, ?_, congrArg Request.evidence hquery⟩) h
    rw [hquery]
    exact hp

theorem prepareReply_inert {r : PrepareReply}
    (h : ¬ (s.Awaits (.prepare r.request) ∧ ∀ a, r.result = .prepared a → a.binding = r.request.binding)) :
    (prepareReply C s r).1 = s := by
  rw [prepareReply]
  cases hissued : prepareIssued s r.request with
  | none => rfl
  | some issued =>
    obtain ⟨hlive, hrequest⟩ := Option.filter_eq_some_iff.mp hissued
    have hawaits : s.Awaits (.prepare r.request) := by
      cases issued with
      | prepare q =>
        obtain rfl : q = r.request := by simpa using hrequest
        exact .inr ⟨.prepare r.request, hlive, rfl⟩
      | recoverPlan q =>
        obtain rfl : q = r.request := by simpa using hrequest
        exact .inr ⟨.recoverPlan r.request, hlive, rfl⟩
      | resolve q => simp at hrequest
    have hbinding : ¬ ∀ a, r.result = .prepared a → a.binding = r.request.binding := fun hfits => h ⟨hawaits, hfits⟩
    dsimp only
    split_ifs
    · rfl
    cases hresult : r.result with
    | prepared a =>
      dsimp only
      rw [if_pos]
      intro hfits
      refine hbinding fun a' ha' => ?_
      obtain rfl := PrepareResult.prepared.inj (hresult.symm.trans ha')
      exact hfits.1
    | pending => exact absurd (fun a ha => by rw [hresult] at ha; cases ha) hbinding
    | refused fault => exact absurd (fun a ha => by rw [hresult] at ha; cases ha) hbinding

/-- An answer of storage that no request waits for leaves the state, or records its
contradiction. -/
theorem resolve_inert {r : ResolveReply} {operation : OperationKind} (he : e.reply = some r)
    (h : ¬ (s.Awaits (.resolve r.request) ∧ r.request.operation = operation ∧ ReplyValid r)) :
    (resolve C s r operation).1 = s ∨ ∃ t, Contradicts s e t ∧ s.Knows (.resolve r.request) ∧
      (resolve C s r operation).1 = s.conflicted t := by
  rw [resolve]
  by_cases hgone : ¬ Issued s s.storageInvocations r operation ∧ ¬ Issued s s.retiredStorageInvocations r operation
  · rw [if_pos hgone]
    exact .inl rfl
  rw [if_neg hgone]
  by_cases hvalid : ReplyValid r
  case neg =>
    rw [if_pos hvalid]
    exact .inl rfl
  rw [if_neg (not_not.mpr hvalid)]
  cases hcontrary : contrary s r with
  | some t =>
    obtain ⟨hresult, hretained⟩ := contrary_eq_some hcontrary
    refine .inr ⟨t, ⟨?_, ?_, hretained⟩, ?_, rfl⟩
    · rw [Event.terminal, he, Option.bind_some, hresult]
    · intro r' hr'
      obtain rfl := Option.some.inj (he.symm.trans hr')
      exact hvalid t hresult
    · by_contra hunknown
      exact hgone ⟨fun h => hunknown (.inl (.inr ⟨.resolve r.request, h.2.1, rfl⟩)),
        fun h => hunknown (.inr ⟨.resolve r.request, h.2.1, rfl⟩)⟩
  | none =>
    dsimp only
    rw [if_pos fun hlive => h ⟨.inr ⟨.resolve r.request, hlive.2.1, rfl⟩, hlive.1, hvalid⟩]
    exact .inl rfl

/-- An answer the state does not wait for, or that does not fit its request. -/
theorem step_inert {r : Request} (hr : e.request = some r) (h : ¬ (s.Awaits r ∧ e.Matches)) :
    (step C s e).1 = s ∨ ∃ t, Contradicts s e t ∧ s.Knows r ∧ (step C s e).1 = s.conflicted t := by
  cases e with
  | evidenceResolved reply =>
    obtain rfl := Option.some.inj hr
    exact .inl (evidence_inert fun hawaits => h ⟨hawaits, trivial⟩)
  | prepareResolved reply =>
    obtain rfl := Option.some.inj hr
    exact .inl (prepareReply_inert h)
  | commitResolved reply =>
    obtain rfl := Option.some.inj hr
    exact resolve_inert rfl h
  | fenceResolved reply =>
    obtain rfl := Option.some.inj hr
    exact resolve_inert rfl h
  | lookupResolved reply =>
    obtain rfl := Option.some.inj hr
    exact resolve_inert rfl h
  | _ => cases hr

/-! ### What stays -/

/-- A retained terminal stays what it is. -/
theorem Move.keeps_result (h : Move C s₀ e s effects s') {id : AttemptId} {t : Terminal} (ht : s.terminalResults[id]? = some t) :
    s'.terminalResults[id]? = some t := by
  have hended : ∀ t' : Terminal, t'.attempt.id ∉ s.terminalResults → (s.ended t').terminalResults[id]? = some t := by
    intro t' hfresh
    show (s.terminalResults.insert _ _)[_]? = _
    rw [Std.ExtTreeMap.getElem?_insert, if_neg]
    · exact ht
    · rw [Std.LawfulEqOrd.compare_eq_iff_eq]
      rintro rfl
      exact hfresh (Std.ExtTreeMap.isSome_getElem?_iff_mem.mp (by rw [ht]; rfl))
  cases h with
  | unknown number =>
    rw [State.unknown]
    split <;> exact ht
  | dropped t' he h hno => exact hended t' h.fresh
  | installed t' p v revision storage receipts startCut recovering he h hp hout hv hrevision hused => exact hended t' h.fresh
  | _ => exact ht

theorem run_keeps_result (events more : List Event) {id : AttemptId} {t : Terminal}
    (ht : (run C s₀ events).terminalResults[id]? = some t) : (run C s₀ (events ++ more)).terminalResults[id]? = some t := by
  induction more using List.reverseRecOn with
  | nil => rwa [List.append_nil]
  | append_singleton more e ih =>
    rw [← List.append_assoc, run_concat]
    exact (moves_step (C := C) _ e).preserves (fun _ _ _ h hm => hm.keeps_result h) ih

theorem installed_failed (v : InstanceState) (p : CommitPlan) (revision : ℕ) :
    (installed C v p revision).storageIntegrityFailed = v.storageIntegrityFailed := by
  rw [installed_eq]
  change (taken v p revision).storageIntegrityFailed = _
  rw [taken_field v p revision InstanceState.storageIntegrityFailed (fun _ _ => rfl) (fun _ _ => rfl) fun _ _ => rfl]
  exact foldl_install_field InstanceState.storageIntegrityFailed (fun v a => by rw [install]; split_ifs <;> rfl) _ _

/-- An instance that is marked stays marked. -/
theorem run_failed (hfresh : Fresh s₀) (events more : List Event) {i : Instance} {v : InstanceState}
    (hv : (run C s₀ events).instances[i]? = some v) (hfailed : v.storageIntegrityFailed = true) :
    ∃ v', (run C s₀ (events ++ more)).instances[i]? = some v' ∧ v'.storageIntegrityFailed = true := by
  induction more using List.reverseRecOn with
  | nil => exact ⟨v, by rwa [List.append_nil], hfailed⟩
  | append_singleton more e ih =>
    obtain ⟨w, hw, hwfailed⟩ := ih
    have hf : Flight (run C s₀ (events ++ more)) := (reachable_run hfresh _).flight
    rw [← List.append_assoc, run_concat]
    obtain ⟨v', hv'⟩ := step_known (C := C) hf e hw
    refine ⟨v', hv', ?_⟩
    obtain ⟨w', hw', ⟨hs, -⟩ | ⟨t, p, -, -, -, -, hs⟩⟩ := step_instance hf e hv'
    · obtain rfl := Option.some.inj (hw.symm.trans hw')
      exact hs.failed hwfailed
    · obtain rfl := Option.some.inj (hw.symm.trans hw')
      exact hs.failed (by rw [installed_failed, hwfailed])

/-- A plan is staged only where the instance is not marked. -/
theorem Moves.prepare_sound (h : Moves C s₀ e s effects s') {p : CommitPlan} {q : PrepareRequest}
    (hp : .prepare p q ∈ effects) : ∃ v, s₀.instances[p.inst]? = some v ∧ v.storageIntegrityFailed = false := by
  induction h with
  | refl s => simp at hp
  | cons hm hrest ih =>
    rcases List.mem_append.mp hp with hp | hp
    · cases hm with
      | stage v p' q' hv hidle hidle₀ hid hrevision hj hv₀ hb hinv hs hrecords hreserved =>
        obtain ⟨rfl, rfl⟩ := Effect.prepare.inj (List.mem_singleton.mp hp)
        exact ⟨v, hv₀, hreserved.sound⟩
      | silent effect hsilent =>
        rw [← List.mem_singleton.mp hp] at hsilent
        exact hsilent.elim
      | receipt i v a hv ha effect heffect => rcases heffect with rfl | rfl <;> simp at hp
      | installed t p' v revision storage receipts startCut recovering he hend hp' hout hv hrevision hused =>
        rw [installReports] at hp
        split_ifs at hp <;> simp at hp
      | _ => simp at hp
    · exact ih hp

/-- What a step acted on an answer to, no answer after it is owned of. -/
theorem Takes.not_owned (hfresh : Fresh s₀) {r : Request} (h : Takes C r (run C s₀ events) e) (more : List Event) {e' : Event}
    (hr : e'.request = some r) : ¬ Owned C s₀ (events ++ e :: more) e' := by
  rintro ⟨r', hr', ⟨before, b, after, hevents, hasked, halong⟩, -⟩
  obtain rfl := Option.some.inj (hr.symm.trans hr')
  -- It was asked before it was answered.
  have hrequested : Requested C s₀ events r := by
    have hawaits : (run C s₀ events).Awaits r ∧ e.Matches := by
      by_contra hunfit
      rcases step_inert (C := C) h.1 hunfit with hleft | ⟨t, ht, -⟩
      · exact h.2.1 hleft
      · exact h.2.2 ⟨t, ht⟩
    exact requested_of_knows hfresh (.inl hawaits.1)
  rcases List.append_eq_append_iff.mp hevents with ⟨rest, rfl, hrest⟩ | ⟨rest, rfl, hrest⟩
  · exact hrequested.not_again rest b hasked
  · cases rest with
    | nil =>
      rw [List.append_nil] at h hrequested
      have hasked' := hrequested.not_again [] b
      rw [List.append_nil] at hasked'
      exact hasked' hasked
    | cons b' rest =>
      obtain ⟨rfl, rfl⟩ := List.cons.inj hrest
      have hnot := halong rest e more rfl
      rw [← run_append, List.append_assoc, List.singleton_append] at hnot
      exact hnot h

/-- An answer that is not a fitting one to what the run asked and has not acted on an
answer to changes nothing, but that a valid terminal against the retained one of its
attempt is recorded; after an answer a step acts on, another to the same request changes
nothing either; a retained terminal stays, and of an instance that is marked no plan is
staged any more. -/
theorem answers_inert (hfresh : Fresh s₀) (events : List Event) :
    (∀ e r, e.request = some r → ¬ Owned C s₀ events e →
      (step C (run C s₀ events) e).1 = run C s₀ events ∨ ∃ t, Contradicts (run C s₀ events) e t ∧
        Requested C s₀ events r ∧ (step C (run C s₀ events) e).1 = (run C s₀ events).conflicted t) ∧
    (∀ e r, Takes C r (run C s₀ events) e → ∀ more e', e'.request = some r →
      (step C (run C s₀ (events ++ e :: more)) e').1 = run C s₀ (events ++ e :: more) ∨
        ∃ t, Contradicts (run C s₀ (events ++ e :: more)) e' t ∧
          (step C (run C s₀ (events ++ e :: more)) e').1 = (run C s₀ (events ++ e :: more)).conflicted t) ∧
    (∀ (id : AttemptId) (t : Terminal), (run C s₀ events).terminalResults[id]? = some t →
      ∀ more, (run C s₀ (events ++ more)).terminalResults[id]? = some t) ∧
    ∀ (i : Instance) (v : InstanceState), (run C s₀ events).instances[i]? = some v → v.storageIntegrityFailed = true →
      ∀ more e p q, .prepare p q ∈ (step C (run C s₀ (events ++ more)) e).2 → p.inst ≠ i := by
  have hinert : ∀ events e r, e.request = some r → ¬ Owned C s₀ events e →
      (step C (run C s₀ events) e).1 = run C s₀ events ∨ ∃ t, Contradicts (run C s₀ events) e t ∧
        Requested C s₀ events r ∧ (step C (run C s₀ events) e).1 = (run C s₀ events).conflicted t := by
    intro events e r hr howned
    have hunfit : ¬ ((run C s₀ events).Awaits r ∧ e.Matches) := fun h =>
      howned ⟨r, hr, unanswered_of_awaits hfresh h.1, h.2⟩
    refine (step_inert hr hunfit).imp_right fun ⟨t, hcontradicts, hknows, hstate⟩ => ?_
    exact ⟨t, hcontradicts, requested_of_knows hfresh hknows, hstate⟩
  refine ⟨hinert events, fun e r htakes more e' hr => ?_, fun id t ht more => run_keeps_result events more ht,
    fun i v hv hfailed more e p q hp hinst => ?_⟩
  · refine (hinert _ e' r hr (htakes.not_owned hfresh more hr)).imp_right fun ⟨t, hcontradicts, _, hstate⟩ => ?_
    exact ⟨t, hcontradicts, hstate⟩
  · subst hinst
    obtain ⟨v', hv', hfailed'⟩ := run_failed hfresh events more hv hfailed
    obtain ⟨w, hw, hsound⟩ := (moves_step (C := C) _ e).prepare_sound hp
    obtain rfl := Option.some.inj (hv'.symm.trans hw)
    rw [hsound] at hfailed'
    cases hfailed'

/-- The provider's answer of the first operation's facts is acted on once. -/
theorem answers_inert_desk : (∀ C, Fresh (desk C)) ∧
    ∀ C : Crypto, let asked : List Event := [.offerReplica (sketch C .first [] [])]
      Takes C (.evidence (vouching C).query) (run C (desk C) asked) (.evidenceResolved (vouching C)) ∧
        ∀ more, (step C (run C (desk C) (asked ++ .evidenceResolved (vouching C) :: more)) (.evidenceResolved (vouching C))).1 =
          run C (desk C) (asked ++ .evidenceResolved (vouching C) :: more) := by
  refine ⟨fresh_desk, fun C => ?_⟩
  obtain ⟨batch, charges, q, s', hstep, hadmitted⟩ := first_admitted C
  have hrun : run C (desk C) [.offerReplica (sketch C .first [] [])] = posed C := hstep
  have htakes : Takes C (.evidence (vouching C).query) (posed C) (.evidenceResolved (vouching C)) := by
    refine ⟨rfl, fun hsame => ?_, fun ⟨t, ht, _⟩ => by cases ht⟩
    -- The query is gone from the table.
    have hqueries : (posed C).queries[(vouching C).query.id]? = some (asked C .first [] [] .historical 0) :=
      Std.ExtTreeMap.getElem?_insert_self
    rw [← hsame, hadmitted.staged] at hqueries
    have hgone : ((posed C).queries.erase (vouching C).query.id)[(vouching C).query.id]? = none :=
      Std.ExtTreeMap.getElem?_erase_self
    have hqueries : ((posed C).queries.erase (vouching C).query.id)[(vouching C).query.id]? =
        some (asked C .first [] [] .historical 0) := hqueries
    rw [hgone] at hqueries
    cases hqueries
  rw [← hrun] at htakes
  refine ⟨htakes, fun more => ?_⟩
  rcases (answers_inert (fresh_desk C) [.offerReplica (sketch C .first [] [])]).2.1 _ _ htakes more
    (.evidenceResolved (vouching C)) rfl with h | ⟨t, ⟨ht, -⟩, -⟩
  · exact h
  · cases ht

end Glade.Kernel
