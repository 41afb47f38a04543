import Glade.Node.Writes

/-! Every op a session sends is answered once: the count of a run, whose session the
ops come from, and what the answers say. -/

namespace Glade.Node.Serving

open Wire Store Grants Tallies

variable {C : Crypto}

/-! ### The sessions the ops come from -/

/-- A peer stream's admission, which its task does before all else. -/
def Admitting (s : Shared C) (sid : SessionId) : Prop :=
  (∃ zone their node chunk, .cut [.admitPeer sid zone their node chunk] ∈ s.scripts (.session sid)) ∨
    ∃ inner, s.cut = some (.session sid, inner) ∧
      ((∃ zone their node chunk, .admitPeer sid zone their node chunk ∈ inner) ∨ .enter sid ∈ inner)

/-- A session that reads on, or sent ops, has been in the session table. -/
structure Present (t : List Happening) (s : Shared C) : Prop where
  peers : ∀ sid zone node, s.loops[sid]? = some (Source.forward zone node) → Entered t s sid ∨ Admitting s sid
  received : ∀ sid ops, .received sid ops ∈ t → Entered t s sid

namespace Shared

/-- Only what shuts a session takes it out of the session table. -/
theorem step_out (s : Shared C) (e : Event) {sid : SessionId} (h : sid ∈ s.out) :
    sid ∈ (s.step e).1.out ∨ .shut sid ∈ (s.step e).2 := by
  by_cases he : ∀ w env, e ≠ .run w env
  · exact .inl ((s.step_frame he).out h)
  simp only [not_forall, not_not] at he
  obtain ⟨w, env, rfl⟩ := he
  change sid ∈ (s.run w env).1.out ∨ .shut sid ∈ (s.run w env).2
  have hran := s.run_ran w env
  generalize s.run w env = r at hran
  obtain ⟨s', did⟩ := r
  dsimp only at hran ⊢
  cases hran with
  | nothing => exact .inl h
  | release => exact .inl h
  | inner job rest hheld =>
    rw [setCut_out]
    have G := s.doInner_keeps w env job
    cases job with
    | enter sid' => exact .inl (Finset.mem_insert_of_mem h)
    | shut sid' =>
      unfold doInner
      dsimp only
      by_cases hsid : sid = sid'
      · subst hsid
        rw [if_pos h]
        exact .inr (List.mem_singleton_self _)
      · exact .inl (Finset.mem_erase.mpr ⟨hsid, h⟩)
    | _ => exact .inl (by rw [G.out (by simp) (by simp)]; exact h)
  | take => exact .inl h
  | outer job rest hfree hscript hcut =>
    have G := (s.give w rest).doJob_keeps w env job
    change sid ∈ ((s.give w rest).doJob w env job).1.out ∨ _
    cases job with
    | shut sid' =>
      unfold doJob
      dsimp only
      by_cases hsid : sid = sid'
      · subst hsid
        rw [if_pos (show sid ∈ (s.give w rest).out from h)]
        exact .inr (List.mem_singleton_self _)
      · exact .inl (Finset.mem_erase.mpr ⟨hsid, h⟩)
    | _ => exact .inl (by rw [G.out (by simp)]; exact h)

/-- What an event that runs no task did. -/
inductive EventDid (s : Shared C) : Event → List Happening → Prop where
  | nothing (e : Event) : EventDid s e []
  | connected : EventDid s .connect [.opened s.next .client]
  | subscribed (node : Bytes32) (zone : Zone) (from_ : SeqHeads) (chunk : ℕ) :
    EventDid s (.peerSubscribe node zone from_ chunk) [.opened s.next (.forward zone node)]
  | received (sid : SessionId) (ops : List Op) (routes : String → Placement) (source : Source) : s.loops[sid]? = some source →
    s.idle (.session sid) → EventDid s (.ops sid ops routes) [.received sid ops]

theorem event_did (s : Shared C) {e : Event} (he : ∀ w env, e ≠ .run w env) : EventDid s e (s.step e).2 := by
  have hruns : ∀ id e, EventDid s e (s.forwardRuns id e).2 := by
    intro id e
    rcases s.forwardRuns_handed id e with heq | ⟨_, _, _, -, -, H⟩
    · rw [heq]
      exact .nothing e
    · rw [H.eq]
      exact .nothing e
  cases e with
  | run w env => exact absurd rfl (he w env)
  | connect => exact .connected
  | peerSubscribe node zone from_ chunk => exact .subscribed node zone from_ chunk
  | hello sid heads principal =>
    unfold step
    dsimp only
    split
    · split_ifs <;> exact .nothing _
    · exact .nothing _
  | subscribe sid zone route =>
    unfold step
    dsimp only
    split
    · split_ifs
      · cases route <;> exact .nothing _
      · exact .nothing _
    · exact .nothing _
  | ops sid ops routes =>
    unfold step
    dsimp only
    split
    · rename_i source hloop
      split_ifs with hidle
      · exact .received sid ops routes source hloop hidle
      · exact .nothing _
    · exact .nothing _
  | disconnect sid =>
    unfold step
    dsimp only
    split
    · split_ifs <;> exact .nothing _
    · exact .nothing _
  | ingest id op =>
    unfold step
    dsimp only
    split_ifs <;> exact .nothing _
  | refresh id fold =>
    unfold step
    dsimp only
    split_ifs <;> exact .nothing _
  | bringBack id zone holder =>
    unfold step
    dsimp only
    split_ifs <;> exact .nothing _
  | carry id sent => exact hruns id _
  | arrive id ops => exact hruns id _
  | holderAnswers id answer => exact hruns id _
  | expire id count => exact hruns id _
  | forwardEnds id refused => exact hruns id _

/-- A task that runs takes in no op. -/
theorem received_notMem_run (s : Shared C) (w : Worker) (env : Env) (sid : SessionId) (ops : List Op) :
    .received sid ops ∉ (s.run w env).2 := by
  intro h
  have hran := s.run_ran w env
  generalize s.run w env = r at hran h
  obtain ⟨s', did⟩ := r
  dsimp only at hran h
  cases hran with
  | inner job rest hheld =>
    have hdid := s.doInner_did w env job
    generalize (s.doInner w env job).2.2 = did at hdid h
    cases hdid <;> simp at h
  | outer job rest hfree hscript hcut =>
    have hdid := (s.give w rest).doJob_did w env job
    generalize ((s.give w rest).doJob w env job).2.2 = did at hdid h
    cases hdid <;> simp at h
  | _ => cases h

end Shared

theorem Admitting.not_idle {s : Shared C} {sid : SessionId} (h : Admitting s sid) : ¬ s.idle (.session sid) := by
  rintro ⟨hscript, hfree⟩
  rcases h with ⟨_, _, _, _, hmem⟩ | ⟨_, hcut, -⟩
  · rw [hscript] at hmem
    cases hmem
  · exact hfree (by rw [hcut]; rfl)

/-- A peer stream's admission goes on till it is in the session table, or reads no more. -/
theorem Admitting.run {s : Shared C} {sid : SessionId} (h : Admitting s sid) (w : Worker) (env : Env)
    (hloop : ∃ source, (s.run w env).1.loops[sid]? = some source) :
    sid ∈ (s.run w env).1.out ∨ Admitting (s.run w env).1 sid := by
  have hran := s.run_ran w env
  generalize s.run w env = r at hran hloop
  obtain ⟨s', did⟩ := r
  dsimp only at hran hloop ⊢
  cases hran with
  | nothing => exact .inr h
  | release hheld =>
    right
    rcases h with h | ⟨inner, hcut, hmem⟩
    · exact .inl h
    · rw [hheld] at hcut
      cases hcut
      simp at hmem
  | inner job rest hheld =>
    have F := s.doInner_frame w env job
    rcases h with ⟨zone, their, node, chunk, hmem⟩ | ⟨inner, hcut, hmem⟩
    · right
      left
      refine ⟨zone, their, node, chunk, ?_⟩
      obtain ⟨jobs, hscripts, -⟩ := s.doInner_owed w env job
      rw [Shared.setCut_scripts, hscripts, Function.update_apply]
      split_ifs with hw
      · exact List.mem_append_right _ (hw ▸ hmem)
      · exact hmem
    · rw [hheld] at hcut
      cases hcut
      have hrest : ((∃ zone their node chunk, .admitPeer sid zone their node chunk ∈ rest) ∨ .enter sid ∈ rest) →
          Admitting ((s.doInner (.session sid) env job).1.setCut
            (some (.session sid, (s.doInner (.session sid) env job).2.1 ++ rest))) sid := by
        intro hrest
        refine .inr ⟨_, rfl, hrest.imp ?_ (List.mem_append_right _)⟩
        rintro ⟨zone, their, node, chunk, hin⟩
        exact ⟨zone, their, node, chunk, List.mem_append_right _ hin⟩
      rcases hmem with ⟨zone, their, node, chunk, hmem⟩ | hmem
      · rcases List.mem_cons.mp hmem with rfl | hmem
        · right
          unfold Shared.doInner at hloop ⊢
          dsimp only at hloop ⊢
          split at hloop
          · obtain ⟨source, hloop⟩ := hloop
            simp at hloop
          · exact .inr ⟨_, rfl, .inr List.mem_cons_self⟩
        · exact .inr (hrest (.inl ⟨zone, their, node, chunk, hmem⟩))
      · rcases List.mem_cons.mp hmem with rfl | hmem
        · exact .inl (Finset.mem_insert_self sid s.out)
        · exact .inr (hrest (.inr hmem))
  | take inner rest hfree hscript =>
    right
    rcases h with ⟨zone, their, node, chunk, hmem⟩ | ⟨inner', hcut, -⟩
    · by_cases hw : Worker.session sid = w
      · subst hw
        rw [hscript] at hmem
        rcases List.mem_cons.mp hmem with heq | hmem
        · cases heq
          exact .inr ⟨_, rfl, .inl ⟨zone, their, node, chunk, List.mem_singleton_self _⟩⟩
        · refine .inl ⟨zone, their, node, chunk, ?_⟩
          rwa [Shared.setCut_scripts, Shared.give_scripts, if_pos rfl]
      · refine .inl ⟨zone, their, node, chunk, ?_⟩
        rwa [Shared.setCut_scripts, Shared.give_scripts, if_neg hw]
    · rw [hfree] at hcut
      cases hcut
  | outer job rest hfree hscript hcut =>
    have F := (s.give w rest).doJob_frame w env job
    right
    rcases h with ⟨zone, their, node, chunk, hmem⟩ | ⟨inner', hheld, hmem⟩
    · refine .inl ⟨zone, their, node, chunk, ?_⟩
      rw [Shared.doFirst_scripts, F.scripts, Shared.give_scripts, Shared.give_scripts, if_pos rfl]
      by_cases hw : Worker.session sid = w
      · subst hw
        rw [if_pos rfl]
        rw [hscript] at hmem
        exact List.mem_append_right _ ((List.mem_cons.mp hmem).resolve_left fun heq => hcut _ heq.symm)
      · rwa [if_neg hw, if_neg hw]
    · refine .inr ⟨inner', ?_, hmem⟩
      change ((s.give w rest).doJob w env job).1.cut = _
      rw [F.cut]
      exact hheld

theorem Entered.step {t : List Happening} {s : Shared C} {sid : SessionId} (h : Entered t s sid) (e : Event) :
    Entered (t ++ (s.step e).2) (s.step e).1 sid :=
  h.append _ (s.step_out e)

/-- A peer stream's admission goes on through the other events. -/
theorem Admitting.event {s : Shared C} {sid : SessionId} (h : Admitting s sid) (hsid : sid < s.next) {e : Event}
    (he : ∀ w env, e ≠ .run w env) : Admitting (s.step e).1 sid := by
  have hscripts : (s.step e).1.scripts (.session sid) = s.scripts (.session sid) := by
    rcases s.step_scripts he (.session sid) with hsame | ⟨hidle | ⟨node, zone, from_, chunk, rfl⟩, -⟩
    · exact hsame
    · exact absurd hidle h.not_idle
    · unfold Shared.step
      rw [Shared.give_scripts, if_neg (by simpa using hsid.ne)]
  unfold Admitting
  rw [hscripts, (s.step_frame he).cut]
  exact h

/-- Ops come from a session that has been in the session table. -/
theorem Present.entered {t : List Happening} {s : Shared C} (P : Present t s) (K : Kept t s) (S : Seated t s) {e : Event}
    {sid : SessionId} {ops : List Op} (hmem : .received sid ops ∈ (s.step e).2) : Entered t s sid := by
  by_cases he : ∀ w env, e ≠ .run w env
  · have hcases := s.event_did he
    generalize (s.step e).2 = did at hcases hmem
    cases hcases with
    | received sid' ops' routes source hloop hidle =>
      obtain ⟨rfl, rfl⟩ := Happening.received.inj (List.mem_singleton.mp hmem)
      cases source with
      | client => exact S.clients sid (K.loops sid _ hloop)
      | forward zone node => exact (P.peers sid zone node hloop).resolve_right fun h => h.not_idle hidle
    | _ => simp at hmem
  · simp only [not_forall, not_not] at he
    obtain ⟨w, env, rfl⟩ := he
    exact absurd hmem (s.received_notMem_run w env sid ops)

theorem Present.event {t : List Happening} {s : Shared C} (P : Present t s) (K : Kept t s) (S : Seated t s) {e : Event}
    (he : ∀ w env, e ≠ .run w env) : Present (t ++ (s.step e).2) (s.step e).1 := by
  have hold : ∀ (sid : SessionId) (zone : Zone) (node : Bytes32), s.loops[sid]? = some (.forward zone node) →
      Entered (t ++ (s.step e).2) (s.step e).1 sid ∨ Admitting (s.step e).1 sid := by
    intro sid zone node hloop
    apply (P.peers sid zone node hloop).imp
    · exact fun h => h.step e
    · exact fun h => h.event (K.next sid _ (K.loops sid _ hloop)) he
  constructor
  · intro sid zone node hloop
    rcases s.step_did he with ⟨-, hloops⟩ | ⟨source, hdid, -, hloops, -⟩
    · exact hold sid zone node (hloops sid _ hloop)
    · rw [hloops, Std.ExtTreeMap.getElem?_insert] at hloop
      split_ifs at hloop with hsid
      · obtain rfl := Option.some.inj hloop
        have hcases := s.event_did he
        rw [hdid] at hcases
        cases hcases with
        | subscribed node zone from_ chunk =>
          obtain rfl := Std.LawfulEqOrd.eq_of_compare hsid
          refine .inr (.inl ⟨zone, from_, node, chunk, ?_⟩)
          unfold Shared.step
          rw [Shared.give_scripts, if_pos rfl]
          exact List.mem_singleton_self _
      · exact hold sid zone node hloop
  · intro sid ops hmem
    rcases List.mem_append.mp hmem with hmem | hmem
    · exact (P.received sid ops hmem).step e
    · exact (P.entered K S hmem).step e

theorem Present.run {t : List Happening} {s : Shared C} (P : Present t s) (w : Worker) (env : Env) :
    Present (t ++ (s.run w env).2) (s.run w env).1 where
  peers sid zone node hloop := by
    have hold : s.loops[sid]? = some (.forward zone node) := by
      have hran := s.run_ran w env
      generalize s.run w env = r at hran hloop
      obtain ⟨s', did⟩ := r
      dsimp only at hran hloop
      cases hran with
      | inner job rest hheld => exact (s.doInner_tables w env job).2.1 sid _ hloop
      | outer job rest hfree hscript hcut =>
        have hloops := ((s.give w rest).doJob_frame w env job).loops
        exact hloops ▸ hloop
      | _ => exact hloop
    rcases P.peers sid zone node hold with h | h
    · exact .inl (h.step (.run w env))
    · exact (h.run w env ⟨_, hloop⟩).imp_left .inl
  received sid ops hmem := by
    exact (P.received sid ops ((List.mem_append.mp hmem).resolve_right (s.received_notMem_run w env sid ops))).step (.run w env)

theorem Present.step {t : List Happening} {s : Shared C} (P : Present t s) (K : Kept t s) (S : Seated t s) (e : Event) :
    Present (t ++ (s.step e).2) (s.step e).1 := by
  by_cases he : ∀ w env, e ≠ .run w env
  · exact P.event K S he
  · simp only [not_forall, not_not] at he
    obtain ⟨w, env, rfl⟩ := he
    exact P.run w env

/-! ### What the answers say -/

/-- What the scripts, the forwards and the history say of the ops is true. -/
structure Told (lied : Prop) (t : List Happening) (s : Shared C) : Prop where
  scripts : ∀ w, ∀ job ∈ s.scripts w, job.Truthful C lied s.store.logs
  cut : ∀ w inner, s.cut = some (w, inner) → ∀ job ∈ inner, job.Placeable C
  forwards : ∀ id forward, s.forwards id = some forward → ∀ write ∈ forward.pending ++ forward.queued, write.op.share ≠ home
  answered : ∀ sid op status, .answered sid op status ∈ t → Truthful C lied s.store.logs op status

/-- What is held off the home share stays held. -/
def Keeps (C : Crypto) (logs logs' : Logs) : Prop := ∀ op : Op, op.share ≠ home → HoldsOp C logs op → HoldsOp C logs' op

theorem Truthful.keep {lied : Prop} {logs logs' : Logs} {op : Op} {answer : Error} (h : Truthful C lied logs op answer)
    (hkeep : Keeps C logs logs') : Truthful C lied logs' op answer :=
  ⟨h.names, fun hcode => (h.held hcode).imp_right fun ⟨hshare, hholds⟩ => ⟨hshare, hkeep op hshare hholds⟩⟩

theorem Job.Truthful.mono {lied lied' : Prop} {logs : Logs} {job : Job} (h : job.Truthful C lied logs) (hlied : lied → lied') :
    job.Truthful C lied' logs := by
  cases job with
  | answer to_ op status => exact ⟨h.names, fun hcode => (h.held hcode).imp_left hlied⟩
  | _ => exact h

theorem Job.Truthful.keep {lied : Prop} {logs logs' : Logs} {job : Job} (h : job.Truthful C lied logs)
    (hkeep : Keeps C logs logs') :
    job.Truthful C lied logs' := by
  cases job with
  | answer to_ op status => exact Serving.Truthful.keep h hkeep
  | _ => exact h

namespace Shared

theorem doInner_keepsHeld (s : Shared C) (w : Worker) (env : Env) (job : Inner) :
    Keeps C s.store.logs (s.doInner w env job).1.store.logs := by
  intro op hshare h
  cases job with
  | place origin op' relay =>
    unfold doInner
    dsimp only
    split <;> exact Store.append_holds s.store s.disk op' env.fault hshare h
  | ingest from_ op' =>
    unfold doInner
    dsimp only
    split <;> exact Store.append_holds s.store s.disk op' env.fault hshare h
  | _ =>
    rw [s.doInner_store w env _ (by simp) (by simp)]
    exact h

/-- The status of an op off the home share names it, and says `Ok` of one the store holds. -/
theorem statusOf_truthful (lied : Prop) (s : Shared C) (os : String) {op : Op} (fault : Option Fault) (hshare : op.share ≠ home) :
    Truthful C lied (append C s.store s.disk op fault).2.1.logs op (statusOf C os op (append C s.store s.disk op fault).1) := by
  have hholds := @Store.holds_of_append C s.store s.disk op fault hshare
  generalize (append C s.store s.disk op fault).1 = answer at hholds
  cases answer with
  | error e =>
    refine ⟨?_, fun hcode => absurd hcode (errorFrame_code_ne_ok C os op e)⟩
    cases e <;> rfl
  | ok outcome =>
    cases outcome with
    | appended => exact ⟨rfl, fun _ => .inr ⟨hshare, hholds (.inl rfl)⟩⟩
    | duplicate => exact ⟨rfl, fun _ => .inr ⟨hshare, hholds (.inr rfl)⟩⟩
    | belowRetained => exact truthful_opStatus (by simp) _

/-- The claim holder's answer goes to the writer where this node holds the op. -/
theorem relayed_truthful {lied : Prop} {logs : Logs} {op : Op} {status : Error} (h : Truthful C lied logs op status)
    {relay : Option Error} (hrelay : ∀ answer ∈ relay, Names C answer op) : Truthful C lied logs op (relayed status relay) := by
  unfold relayed
  cases relay with
  | none => exact h
  | some answer =>
    dsimp only
    split_ifs with hcode
    · exact ⟨hrelay answer rfl, fun _ => h.held hcode⟩
    · exact h

/-- What a job under the cut gives its task to say is true, and what it leads to may be placed. -/
theorem doInner_truthful (lied : Prop) (s : Shared C) (w : Worker) (env : Env) {job : Inner} (hjob : job.Placeable C) :
    (∃ jobs, (s.doInner w env job).1.scripts = Function.update s.scripts w (jobs ++ s.scripts w) ∧
        ∀ job' ∈ jobs, job'.Truthful C lied (s.doInner w env job).1.store.logs) ∧
      ∀ job' ∈ (s.doInner w env job).2.1, job'.Placeable C := by
  by_cases howed : job.owed = []
  · obtain ⟨jobs, hscripts, heq⟩ := s.doInner_owed w env job
    rw [howed] at heq
    obtain ⟨hjobs, hmore⟩ := List.append_eq_nil_iff.mp heq
    refine ⟨⟨jobs, hscripts, fun job' hmem => ?_⟩, fun job' hmem => ?_⟩
    · exact Job.truthful_of_owed (List.flatMap_eq_nil_iff.mp hjobs job' hmem)
    · exact Inner.placeable_of_owed (List.flatMap_eq_nil_iff.mp hmore job' hmem)
  cases job with
  | place origin op relay =>
    obtain ⟨hshare, hrelay⟩ := hjob
    have hstatus := relayed_truthful (statusOf_truthful lied s env.os env.fault hshare) hrelay
    have hfirst : ∀ job' ∈ [Job.answer origin op (relayed (statusOf C env.os op (append C s.store s.disk op env.fault).1) relay)],
        job'.Truthful C lied (append C s.store s.disk op env.fault).2.1.logs := by
      intro job' hmem
      rw [List.mem_singleton.mp hmem]
      exact hstatus
    unfold doInner
    dsimp only
    split
    · refine ⟨⟨_, rfl, hfirst⟩, fun job' hmem => ?_⟩
      rw [List.mem_singleton.mp hmem]
      trivial
    · exact ⟨⟨_, rfl, hfirst⟩, by simp⟩
    · exact ⟨⟨_, rfl, hfirst⟩, by simp⟩
  | _ => exact absurd rfl howed

theorem placed_truthful (lied : Prop) (logs : Logs) (sid : SessionId) (source : Source) {op : Op} (hshare : op.share ≠ home)
    (placement : Placement) : (placed C sid source op placement).Truthful C lied logs := by
  cases placement with
  | here =>
    intro job hjob
    rw [List.mem_singleton.mp hjob]
    exact ⟨hshare, by simp⟩
  | not reason => exact truthful_opStatus (by simp) _
  | up holder =>
    cases source with
    | client => exact hshare
    | forward zone node => exact truthful_opStatus (by simp) _

theorem acceptance_truthful (lied : Prop) (logs : Logs) (s : Shared C) (sid : SessionId) (source : Source) (op : Op)
    (placement : Placement) : (s.acceptance sid source op placement).Truthful C lied logs := by
  unfold acceptance
  split_ifs with hhome hstream
  · exact truthful_opStatus (by simp) _
  · exact truthful_opStatus (by simp) _
  · split
    · exact truthful_opStatus (by simp) _
    · cases source with
      | client => exact placed_truthful lied logs sid _ hhome placement
      | forward zone node =>
        dsimp only
        split_ifs
        · exact placed_truthful lied logs sid _ hhome placement
        · exact truthful_opStatus (by simp) _

/-- A job that owes no answer leads to none that does. -/
theorem doJob_quiet (s : Shared C) (w : Worker) (env : Env) {job job' : Job} (howed : job.owed = [])
    (hcut : ∀ inner, job ≠ .cut inner)
    {lied : Prop} {logs : Logs} (hmem : job' ∈ (s.doJob w env job).2.1) : job'.Truthful C lied logs := by
  have hsend : ∀ id write, job ≠ .sendUp id write := by
    rintro id write rfl
    cases howed
  obtain ⟨lost, -, heq⟩ := s.doJob_owed w env hcut hsend
  rw [howed] at heq
  have hnil := (List.append_eq_nil_iff.mp heq.symm).2
  exact Job.truthful_of_owed (List.flatMap_eq_nil_iff.mp hnil job' hmem)

/-- What a job without the cut leads to is true, as the job was. -/
theorem doJob_truthful {lied : Prop} (logs : Logs) (s : Shared C) (w : Worker) (env : Env) {job : Job}
    (hjob : job.Truthful C lied logs) : ∀ job' ∈ (s.doJob w env job).2.1, job'.Truthful C lied logs := by
  intro job' hmem
  cases job with
  | accept sid source op placement =>
    rw [List.mem_singleton.mp hmem]
    exact acceptance_truthful lied logs s sid source op placement
  | writeUp write holder =>
    unfold doJob at hmem
    dsimp only at hmem
    split at hmem
    · rw [List.mem_singleton.mp hmem]
      exact hjob
    · split_ifs at hmem
      · rw [List.mem_singleton.mp hmem]
        exact hjob
      · rw [List.mem_singleton.mp hmem]
        exact truthful_opStatus (by simp) _
  | sendUp id write =>
    unfold doJob at hmem
    dsimp only at hmem
    split at hmem
    · cases hmem
    · split_ifs at hmem
      · rw [List.mem_singleton.mp hmem]
        exact truthful_opStatus (by simp) _
      · cases hmem
  | cut inner => cases hmem
  | answer to_ op status => cases hmem
  | _ => exact s.doJob_quiet w env rfl (by simp) hmem

end Shared

namespace Told

variable {lied : Prop} {t : List Happening} {s : Shared C} (T : Told lied t s)

include T

/-- What answers nothing, and keeps what is held, keeps what was said true. -/
theorem keepAnswered {r : Shared C} {did : List Happening} (hkeep : Keeps C s.store.logs r.store.logs)
    (hdid : ∀ sid op status, .answered sid op status ∈ did → Truthful C lied r.store.logs op status) (sid : SessionId) (op : Op)
    (status : Error) (hmem : .answered sid op status ∈ t ++ did) : Truthful C lied r.store.logs op status := by
  rcases List.mem_append.mp hmem with hmem | hmem
  · exact (T.answered sid op status hmem).keep hkeep
  · exact hdid sid op status hmem

theorem run (w : Worker) (env : Env) : Told lied (t ++ (s.run w env).2) (s.run w env).1 := by
  have hran := s.run_ran w env
  generalize s.run w env = r at hran
  obtain ⟨s', did⟩ := r
  dsimp only at hran ⊢
  have hsame : Keeps C s.store.logs s.store.logs := fun _ _ h => h
  cases hran with
  | nothing => exact ⟨T.scripts, T.cut, T.forwards, T.keepAnswered hsame (by simp)⟩
  | release hheld => exact ⟨T.scripts, by simp, T.forwards, T.keepAnswered hsame (by simp)⟩
  | inner job rest hheld =>
    have hplaceable := T.cut w _ hheld
    have hkeep := s.doInner_keepsHeld w env job
    obtain ⟨⟨jobs, hscripts, hjobs⟩, hmore⟩ := s.doInner_truthful lied w env (hplaceable job List.mem_cons_self)
    refine ⟨fun w' job' hmem => ?_, fun w' inner hcut job' hmem => ?_, ?_, T.keepAnswered hkeep fun sid op status hmem => ?_⟩
    · rw [Shared.setCut_scripts, hscripts, Function.update_apply] at hmem
      split_ifs at hmem
      · rcases List.mem_append.mp hmem with hmem | hmem
        · exact hjobs job' hmem
        · exact (T.scripts w job' hmem).keep hkeep
      · exact (T.scripts w' job' hmem).keep hkeep
    · obtain ⟨rfl, rfl⟩ := Prod.mk.inj (Option.some.inj hcut)
      rcases List.mem_append.mp hmem with hmem | hmem
      · exact hmore job' hmem
      · exact hplaceable job' (List.mem_cons_of_mem _ hmem)
    · intro id forward hforward
      exact T.forwards id forward ((s.doInner_frame w env job).forwards ▸ hforward)
    · have hdid := s.doInner_did w env job
      generalize (s.doInner w env job).2.2 = did at hdid hmem
      cases hdid <;> simp at hmem
  | take inner rest hfree hscript =>
    refine ⟨fun w' job' hmem => ?_, fun w' inner' hcut => ?_, T.forwards, T.keepAnswered hsame (by simp)⟩
    · rw [Shared.setCut_scripts, Shared.give_scripts] at hmem
      split_ifs at hmem with hw
      · exact T.scripts w job' (hscript ▸ List.mem_cons_of_mem _ hmem)
      · exact T.scripts w' job' hmem
    · obtain ⟨rfl, rfl⟩ := Prod.mk.inj (Option.some.inj hcut)
      exact T.scripts w (.cut inner) (hscript ▸ List.mem_cons_self)
  | outer job rest hfree hscript hcut =>
    have F := (s.give w rest).doJob_frame w env job
    have hstore : ((s.give w rest).doJob w env job).1.store = s.store := F.store
    have hjob := T.scripts w job (hscript ▸ List.mem_cons_self)
    refine ⟨fun w' job' hmem => ?_, fun w' inner hheld => ?_, fun id forward hforward => ?_, ?_⟩
    · change job'.Truthful C lied ((s.give w rest).doJob w env job).1.store.logs
      rw [hstore]
      rw [Shared.doFirst_scripts, F.scripts, Shared.give_scripts, Shared.give_scripts, if_pos rfl] at hmem
      split_ifs at hmem
      · rcases List.mem_append.mp hmem with hmem | hmem
        · exact (s.give w rest).doJob_truthful s.store.logs w env hjob job' hmem
        · exact T.scripts w job' (hscript ▸ List.mem_cons_of_mem _ hmem)
      · exact T.scripts w' job' hmem
    · exact T.cut w' inner (F.cut ▸ hheld)
    · change ((s.give w rest).doJob w env job).1.forwards id = some forward at hforward
      rcases (s.give w rest).doJob_forwards w env job with ⟨heq, -⟩ | ⟨zone, holder, -, heq⟩ | ⟨id', write,
        before, rfl, hbefore, -, heq⟩
      · rw [heq] at hforward
        exact T.forwards id forward hforward
      · rw [heq] at hforward
        unfold Shared.openForward at hforward
        dsimp only at hforward
        rw [Function.update_apply] at hforward
        split_ifs at hforward
        · obtain rfl := Option.some.inj hforward
          simp
        · exact T.forwards id forward hforward
      · rw [heq] at hforward
        unfold Shared.setForward at hforward
        dsimp only at hforward
        rw [Function.update_apply] at hforward
        split_ifs at hforward
        · obtain rfl := Option.some.inj hforward
          intro write' hmem
          rw [← List.append_assoc] at hmem
          rcases List.mem_append.mp hmem with hmem | hmem
          · exact T.forwards id' before hbefore write' hmem
          · rw [List.mem_singleton.mp hmem]
            exact hjob
        · exact T.forwards id forward hforward
    · refine T.keepAnswered (r := ((s.give w rest).doJob w env job).1.doFirst w _) (fun op _ h => ?_) fun sid op status hmem => ?_
      · change HoldsOp C ((s.give w rest).doJob w env job).1.store.logs op
        rw [hstore]
        exact h
      · change Truthful C lied ((s.give w rest).doJob w env job).1.store.logs op status
        rw [hstore]
        have hdid := (s.give w rest).doJob_did w env job
        generalize ((s.give w rest).doJob w env job).2.2 = did at hdid hmem
        cases hdid with
        | answered sid' op' status' hout =>
          obtain ⟨rfl, rfl, rfl⟩ := Happening.answered.inj (List.mem_singleton.mp hmem)
          exact hjob
        | _ => simp at hmem

/-- A task is given jobs that are true. -/
theorem of_give {s' : Shared C} {w : Worker} {jobs : List Job} {did : List Happening}
    (hjobs : ∀ job ∈ jobs, job.Truthful C lied s.store.logs) (hscripts : s'.scripts = (s.give w jobs).scripts)
    (hcut : s'.cut = s.cut) (hforwards : s'.forwards = s.forwards) (hstore : s'.store = s.store)
    (hdid : ∀ sid op status, .answered sid op status ∉ did) : Told lied (t ++ did) s' where
  scripts w' job hmem := by
    rw [hscripts, Shared.give_scripts] at hmem
    rw [hstore]
    split_ifs at hmem
    · exact hjobs job hmem
    · exact T.scripts w' job hmem
  cut := hcut ▸ T.cut
  forwards := hforwards ▸ T.forwards
  answered := by
    rw [hstore]
    exact T.keepAnswered (r := s) (fun _ _ h => h) fun sid op status hmem => absurd hmem (hdid sid op status)

theorem forwardRuns (id : ℕ) (e : Event) (hlied : e.SaysOk → lied) :
    Told lied (t ++ (s.forwardRuns id e).2) (s.forwardRuns id e).1 := by
  rcases s.forwardRuns_handed id e with heq | ⟨forward, after, jobs, hforward, -, H⟩
  · rw [heq]
    rw [List.append_nil]
    exact T
  rw [H.eq]
  have hset : Told lied t (s.setForward id after) := by
    refine ⟨T.scripts, T.cut, fun i forward' hforward' write hmem => ?_, T.answered⟩
    unfold Shared.setForward at hforward'
    dsimp only at hforward'
    rw [Function.update_apply] at hforward'
    split_ifs at hforward'
    · obtain rfl := Option.some.inj hforward'
      exact T.forwards id forward hforward write (H.kept write hmem)
    · exact T.forwards i forward' hforward' write hmem
  refine hset.of_give (fun job hjob => ?_) rfl rfl rfl rfl (by simp)
  exact (H.told (T.forwards id forward hforward) s.store.logs job hjob).mono hlied

/-- An event given is true of the ops as the history is. -/
theorem event {e : Event} (he : ∀ w env, e ≠ .run w env) (hlied : e.SaysOk → lied) :
    Told lied (t ++ (s.step e).2) (s.step e).1 := by
  have hquiet : ∀ {s' : Shared C} {w : Worker} {jobs : List Job} {did : List Happening}, (∀ job ∈ jobs, job.owed = []) →
      s'.scripts = (s.give w jobs).scripts → s'.cut = s.cut → s'.forwards = s.forwards → s'.store = s.store →
        (∀ sid op status, .answered sid op status ∉ did) → Told lied (t ++ did) s' :=
    fun hjobs => T.of_give fun job hjob => Job.truthful_of_owed (hjobs job hjob)
  have hsame : Told lied (t ++ []) s := by rwa [List.append_nil]
  cases e with
  | run w env => exact absurd rfl (he w env)
  | connect =>
    refine ⟨T.scripts, T.cut, T.forwards, T.keepAnswered (r := s) (fun _ _ h => h) fun sid op status hmem => ?_⟩
    cases List.mem_singleton.mp hmem
  | peerSubscribe node zone from_ chunk =>
    have hjobs : ∀ job ∈ [Job.cut [.admitPeer s.next zone from_ node chunk]], job.owed = [] := by
      intro job hjob
      rw [List.mem_singleton.mp hjob]
      rfl
    refine hquiet (w := .session s.next) hjobs rfl rfl rfl rfl fun sid op status hmem => ?_
    cases List.mem_singleton.mp hmem
  | hello sid heads principal =>
    unfold Shared.step
    dsimp only
    split
    case h_2 => exact hsame
    split_ifs
    case neg => exact hsame
    refine hquiet (fun job hjob => ?_) rfl rfl rfl rfl (by simp)
    simp only [List.cons_append, List.mem_cons, List.mem_append, List.mem_map, List.mem_nil_iff, or_false] at hjob
    obtain rfl | ⟨p, -, rfl⟩ | rfl := hjob <;> rfl
  | subscribe sid zone route =>
    unfold Shared.step
    dsimp only
    split
    case h_2 => exact hsame
    split_ifs
    case neg => exact hsame
    cases route with
    | absent reason =>
      refine hquiet (fun job hjob => ?_) rfl rfl rfl rfl (by simp)
      obtain ⟨frame, -, rfl⟩ := List.mem_map.mp hjob
      rfl
    | _ => exact hquiet (by simp [Job.owed]) rfl rfl rfl rfl (by simp)
  | ops sid ops routes =>
    unfold Shared.step
    dsimp only
    split
    case h_2 => exact hsame
    split_ifs
    case neg => exact hsame
    refine T.of_give (fun job hjob => ?_) rfl rfl rfl rfl (by simp)
    obtain ⟨op, -, rfl⟩ := List.mem_map.mp hjob
    trivial
  | disconnect sid =>
    unfold Shared.step
    dsimp only
    split
    case h_2 => exact hsame
    rename_i source _
    split_ifs
    case neg => exact hsame
    refine hquiet (w := .session sid) (fun job hjob => ?_) rfl rfl rfl rfl (by simp)
    cases source <;> simp only [List.mem_cons, List.mem_nil_iff, or_false] at hjob <;> obtain rfl | rfl | rfl := hjob <;> rfl
  | ingest id op =>
    unfold Shared.step
    dsimp only
    split_ifs
    case neg => exact hsame
    exact hquiet (by simp [Job.owed, Inner.owed]) rfl rfl rfl rfl (by simp)
  | refresh id fold =>
    unfold Shared.step
    dsimp only
    split_ifs
    case neg => exact hsame
    exact hquiet (by simp [Job.owed]) rfl rfl rfl rfl (by simp)
  | bringBack id zone holder =>
    unfold Shared.step
    dsimp only
    split_ifs
    case neg => exact hsame
    exact hquiet (by simp [Job.owed]) rfl rfl rfl rfl (by simp)
  | carry id sent => exact T.forwardRuns id _ hlied
  | arrive id ops => exact T.forwardRuns id _ hlied
  | holderAnswers id answer => exact T.forwardRuns id _ hlied
  | expire id count => exact T.forwardRuns id _ hlied
  | forwardEnds id refused => exact T.forwardRuns id _ hlied

theorem step (e : Event) (hlied : e.SaysOk → lied) : Told lied (t ++ (s.step e).2) (s.step e).1 := by
  by_cases he : ∀ w env, e ≠ .run w env
  · exact T.event he hlied
  · simp only [not_forall, not_not] at he
    obtain ⟨w, env, rfl⟩ := he
    exact T.run w env

end Told

/-! ### Runs -/

/-- What every run keeps of the ops. -/
structure Answering (lied : Prop) (t : List Happening) (s : Shared C) : Prop where
  kept : Kept t s
  seated : Seated t s
  orderly : Orderly s
  present : Present t s
  told : Told lied t s
  /-- Each op received is answered, lost with a session shut down, or waits. -/
  accounts : ∃ lost : List (SessionId × Op), (∀ y ∈ lost, .shut y.1 ∈ t) ∧
    ∀ x, (received t).count x = (answers t).count x + lost.count x + s.owing x

theorem Answering.step {lied : Prop} {t : List Happening} {s : Shared C} (A : Answering lied t s) (e : Event)
    (hlied : e.SaysOk → lied) : Answering lied (t ++ (s.step e).2) (s.step e).1 := by
  refine ⟨A.kept.step e, A.seated.step A.kept e, A.orderly.step A.kept e, A.present.step A.kept A.seated e,
    A.told.step e hlied, ?_⟩
  obtain ⟨lost, hlost, hcount⟩ := A.accounts
  obtain ⟨more, hmore, hstep⟩ := s.step_accounts A.orderly e
  refine ⟨lost ++ more, fun y hy => ?_, fun x => ?_⟩
  · rcases List.mem_append.mp hy with hy | hy
    · exact List.mem_append_left _ (hlost y hy)
    -- What is lost came in before, or in this step, from a session that has left the table.
    obtain ⟨sid, op⟩ := y
    have hpos := List.count_pos_iff.mpr hy
    have hout := hmore _ hy
    have h₁ := hstep (sid, op)
    have h₂ := hcount (sid, op)
    have hcame : 0 < (received t).count (sid, op) ∨ 0 < (received (s.step e).2).count (sid, op) := by omega
    have hentered : Entered t s sid := by
      rcases hcame with hcame | hcame
      · obtain ⟨ops, hops, -⟩ := mem_received (List.count_pos_iff.mp hcame)
        exact A.present.received sid ops hops
      · obtain ⟨ops, hops, -⟩ := mem_received (List.count_pos_iff.mp hcame)
        exact A.present.entered A.kept A.seated hops
    exact List.mem_append_left _ (hentered.resolve_left hout)
  · have h₁ := hstep x
    have h₂ := hcount x
    rw [received_append, answers_append, List.count_append, List.count_append, List.count_append]
    omega

theorem answering_run (C : Crypto) (clientGrants : Bool) {lied : Prop} (events : List Event)
    (hlied : ∀ e ∈ events, e.SaysOk → lied) :
    Answering lied (runOf C clientGrants events).2 (runOf C clientGrants events).1 := by
  unfold runOf
  induction events using List.reverseRecOn with
  | nil =>
    refine ⟨.new clientGrants, .new clientGrants, orderly_new C clientGrants, ⟨?_, by simp [Histories.run_nil]⟩,
      ?_, [], by simp, ?_⟩
    · intro sid zone node h
      simp [Histories.run_nil, Shared.new] at h
    · exact ⟨fun _ _ h => (by cases h), fun _ _ h => (by cases h), fun _ _ h => (by cases h), fun _ _ _ h => (by cases h)⟩
    · intro x
      rw [Histories.run_nil, Shared.owing_eq_zero (fun w h => by cases h) fun id h => by cases h]
      rfl
  | append_singleton events e ih =>
    rw [Histories.run_concat]
    apply (ih fun e' he' => hlied e' (List.mem_append_left _ he')).step
    exact hlied e (List.mem_append_right _ (List.mem_singleton_self e))

/-- Every op a session sends is answered once, whatever path it takes: an op is answered
no more often than it was received; unless its session was shut down, every time it was
received it is answered or still waits, in a task's script, under the cut, or on a
forward, so that where none of these has it, it is answered as often as it was received. An
answer names its op, and `Ok` is said only of an op this node holds, unless a claim
holder refused a forward with `Ok` for its code. -/
theorem each_op_answered (C : Crypto) (clientGrants : Bool) (events : List Event) :
    let s := (runOf C clientGrants events).1
    let t := (runOf C clientGrants events).2
    (∀ x, (answers t).count x + s.owing x ≤ (received t).count x) ∧
      (∀ x, .shut x.1 ∉ t → (received t).count x = (answers t).count x + s.owing x) ∧
        (∀ x, .shut x.1 ∉ t → (∀ w, x ∉ s.atTask w) → (∀ id, x ∉ s.atForward id) → (answers t).count x = (received t).count x) ∧
          ∀ sid op status, .answered sid op status ∈ t → Names C status op ∧
            (status.code = .ok → (∃ e ∈ events, e.SaysOk) ∨ op.share ≠ home ∧ HoldsOp C s.store.logs op) := by
  intro s t
  have A : Answering (∃ e ∈ events, e.SaysOk) t s := answering_run C clientGrants events fun e he hok => ⟨e, he, hok⟩
  obtain ⟨lost, hlost, hcount⟩ := A.accounts
  have hall : ∀ x, .shut x.1 ∉ t → (received t).count x = (answers t).count x + s.owing x := by
    intro x hshut
    have hnone : lost.count x = 0 := List.count_eq_zero.mpr fun hx => hshut (hlost x hx)
    have := hcount x
    omega
  refine ⟨fun x => ?_, hall, fun x hshut htask hforward => ?_, fun sid op status hmem => ?_⟩
  · have := hcount x
    omega
  · rw [hall x hshut, Shared.owing_eq_zero htask hforward]
    rfl
  · have h := A.told.answered sid op status hmem
    exact ⟨h.names, h.held⟩

end Glade.Node.Serving
