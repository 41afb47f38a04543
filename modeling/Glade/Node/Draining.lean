import Glade.Node.WritesAnswered

/-! No op is stranded: wherever a run stands, the tasks can do what is left to them
and the forwards can end, whatever the store's calls come to, and then every op a
session sent is answered. -/

namespace Glade.Node.Serving

open Wire Store Grants Tallies

variable {C : Crypto}

/-- A task's turn, or a forward's end. -/
def Event.Drains (env : Env) (e : Event) : Prop := (∃ w, e = .run w env) ∨ ∃ id, e = .forwardEnds id none

/-- Jobs that are one turn. -/
def Job.Light : Job → Prop
  | .answer .. | .send .. | .forwardInterest .. => True
  | _ => False

namespace Shared

/-- `s'` is where turns and ends lead from `s`. -/
def Drains (env : Env) : Shared C → Shared C → Prop :=
  Relation.ReflTransGen fun s s' => ∃ e : Event, e.Drains env ∧ s' = (s.step e).1

/-- A forward, if there is one, takes no more. -/
def Ended (s : Shared C) (id : ℕ) : Prop := ∀ forward, s.forwards id = some forward → forward.closed = true

/-- What a task leaves as it was on its way. -/
structure Leaves (w : Worker) (s s' : Shared C) : Prop where
  others : ∀ w', w' ≠ w → s'.scripts w' = s.scripts w'
  ended : ∀ id, s.Ended id → s'.Ended id

variable {env : Env} {w : Worker} {s s' s'' : Shared C}

theorem Leaves.trans (h : Leaves w s s') (h' : Leaves w s' s'') : Leaves w s s'' :=
  ⟨fun w' hw => (h'.others w' hw).trans (h.others w' hw), fun id hid => h'.ended id (h.ended id hid)⟩

theorem ended_congr (h : s'.forwards = s.forwards) {id : ℕ} (hid : s.Ended id) : s'.Ended id := by
  unfold Ended
  rw [h]
  exact hid

theorem turn (env : Env) (s : Shared C) (w : Worker) : Drains env s (s.run w env).1 :=
  .single ⟨.run w env, .inl ⟨w, rfl⟩, rfl⟩

/-! ### Under the cut -/

/-- What a job under the cut gives its task to do after the cut is light. -/
theorem doInner_light (s : Shared C) (w : Worker) (env : Env) (job : Inner) :
    ∃ jobs, (s.doInner w env job).1.scripts w = jobs ++ s.scripts w ∧ ∀ job ∈ jobs, job.Light := by
  have hnone : s.scripts w = [] ++ s.scripts w := rfl
  have hfirst : ∀ (s' : Shared C) (jobs : List Job), s'.scripts = s.scripts →
      (s'.doFirst w jobs).scripts w = jobs ++ s.scripts w :=
    fun s' jobs hs => by rw [doFirst_scripts, if_pos rfl, hs]
  cases job with
  | place origin op relay =>
    refine ⟨[.answer origin op (relayed (statusOf C env.os op (append C s.store s.disk op env.fault).1) relay)],
      ?_, by simp [Job.Light]⟩
    simp only [doInner]
    split <;> exact hfirst _ _ rfl
  | admitClient sid zone their forward =>
    simp only [doInner]
    split
    · refine ⟨_, hfirst _ _ rfl, fun job hjob => ?_⟩
      obtain ⟨frame, -, rfl⟩ := List.mem_map.mp hjob
      trivial
    · refine ⟨_, hfirst _ _ rfl, fun job hjob => ?_⟩
      obtain ⟨holder, -, rfl⟩ := List.mem_map.mp hjob
      trivial
  | ingest from_ op =>
    simp only [doInner]
    split <;> exact ⟨[], hnone, by simp⟩
  | admitPeer sid zone their node chunk =>
    simp only [doInner]
    split <;> exact ⟨[], hnone, by simp⟩
  | recheck generation peers todo refused =>
    cases todo with
    | nil => exact ⟨[], hnone, by simp⟩
    | cons e todo =>
      simp only [doInner]
      split_ifs
      · exact ⟨[], hnone, by simp⟩
      · split <;> exact ⟨[], hnone, by simp⟩
  | lapse id code why =>
    simp only [doInner]
    split <;> exact ⟨[], hnone, by simp⟩
  | dropAdmitted sid =>
    simp only [doInner]
    split_ifs <;> exact ⟨[], hnone, by simp⟩
  | _ => exact ⟨[], hnone, by simp⟩

/-- `w` has done what it held the cut for, up to `rest`. -/
structure CutTo (env : Env) (w : Worker) (rest : List Inner) (s s' : Shared C) : Prop extends Leaves w s s' where
  drains : Drains env s s'
  cut : s'.cut = some (w, rest)
  scripts : ∃ jobs, s'.scripts w = jobs ++ s.scripts w ∧ ∀ job ∈ jobs, job.Light

theorem CutTo.trans {rest rest' : List Inner} (h : CutTo env w rest s s') (h' : CutTo env w rest' s' s'') :
    CutTo env w rest' s s'' := by
  obtain ⟨jobs, hjobs, hlight⟩ := h.scripts
  obtain ⟨jobs', hjobs', hlight'⟩ := h'.scripts
  refine ⟨h.toLeaves.trans h'.toLeaves, h.drains.trans h'.drains, h'.cut, jobs' ++ jobs, ?_, ?_⟩
  · rw [hjobs', hjobs, List.append_assoc]
  · intro job hjob
    exact (List.mem_append.mp hjob).elim (hlight' job) (hlight job)

/-- A turn under the cut. -/
theorem cutTo_turn (env : Env) {job : Inner} {rest : List Inner} (hcut : s.cut = some (w, job :: rest)) :
    CutTo env w ((s.doInner w env job).2.1 ++ rest) s (s.run w env).1 := by
  have hrun : (s.run w env).1 = (s.doInner w env job).1.setCut (some (w, (s.doInner w env job).2.1 ++ rest)) := by
    simp [run, hcut]
  have F := s.doInner_frame w env job
  refine ⟨⟨?_, ?_⟩, turn env s w, ?_, ?_⟩ <;> rw [hrun]
  · exact F.scripts
  · exact fun id hid => ended_congr F.forwards hid
  · rfl
  · exact s.doInner_light w env job

end Shared

open Shared

/-- A job under the cut comes to its end, with all it leads to there. -/
def Inner.Finishes (C : Crypto) (env : Env) (w : Worker) (job : Inner) : Prop :=
  ∀ (s : Shared C) (rest : List Inner), s.cut = some (w, job :: rest) → ∃ s', CutTo env w rest s s'

namespace Inner.Finishes

variable {env : Env} {w : Worker}

theorem all {jobs : List Inner} (h : ∀ job ∈ jobs, job.Finishes C env w) (s : Shared C) (rest : List Inner)
    (hcut : s.cut = some (w, jobs ++ rest)) : ∃ s', CutTo env w rest s s' := by
  induction jobs generalizing s with
  | nil => exact ⟨s, ⟨fun _ _ => rfl, fun _ hid => hid⟩, .refl, hcut, [], rfl, by simp⟩
  | cons job jobs ih =>
    obtain ⟨s', hs'⟩ := h job List.mem_cons_self s (jobs ++ rest) hcut
    obtain ⟨s'', hs''⟩ := ih (fun job hjob => h job (List.mem_cons_of_mem _ hjob)) s' hs'.cut
    exact ⟨s'', hs'.trans hs''⟩

/-- A job finishes when what it leads to does. -/
theorem of_more {job : Inner} (h : ∀ s : Shared C, ∀ more ∈ (s.doInner w env job).2.1, more.Finishes C env w) :
    job.Finishes C env w := by
  intro s rest hcut
  have T := cutTo_turn env hcut
  obtain ⟨s', hs'⟩ := all (h s) (s.run w env).1 rest T.cut
  exact ⟨s', T.trans hs'⟩

variable (env w)

theorem queue (sid : SessionId) (frame : Frame) : (Inner.queue sid frame).Finishes C env w :=
  of_more fun _ _ h => by cases h

theorem unsubscribe (sid : SessionId) (zone : Zone) (pass : Option ℕ) : (Inner.unsubscribe sid zone pass).Finishes C env w :=
  of_more fun _ _ h => by cases h

theorem shut (sid : SessionId) : (Inner.shut sid).Finishes C env w :=
  of_more fun _ _ h => by cases h

theorem register (sid : SessionId) (zone : Zone) : (Inner.register sid zone).Finishes C env w :=
  of_more fun _ _ h => by cases h

theorem fanOut (from_ : SessionId) (op : Op) : (Inner.fanOut from_ op).Finishes C env w := by
  apply of_more
  intro s more hmore
  obtain ⟨sid, -, rfl⟩ := List.mem_map.mp hmore
  exact queue env w sid _

theorem ackGap (sid : SessionId) (zone : Zone) (their : SeqHeads) (chunk : Option ℕ) :
    (Inner.ackGap sid zone their chunk).Finishes C env w := by
  apply of_more
  intro s more hmore
  obtain ⟨frames, hframes, -⟩ := s.ackGap_more w env sid zone their chunk
  rw [hframes] at hmore
  rcases List.mem_cons.mp hmore with rfl | hmore
  · exact queue env w sid _
  · obtain ⟨ops, -, rfl⟩ := List.mem_map.mp hmore
    exact queue env w sid _

theorem dropAdmitted (sid : SessionId) : (Inner.dropAdmitted sid).Finishes C env w := by
  apply of_more
  intro s more hmore
  simp only [doInner] at hmore
  split_ifs at hmore
  · rw [List.mem_singleton.mp hmore]
    exact shut env w sid
  · cases hmore

theorem refuse (zone : Zone) (code : ErrorCode) (why : String) (pass : Option ℕ) (sid : SessionId) :
    ∀ job ∈ Shared.refuse zone code why pass sid, job.Finishes C env w := by
  intro job hjob
  simp only [Shared.refuse, List.mem_cons, List.not_mem_nil, or_false] at hjob
  rcases hjob with rfl | rfl | rfl
  · exact unsubscribe env w sid zone pass
  · exact queue env w sid _
  · exact dropAdmitted env w sid

/-- A re-check goes through the entries it read, and refuses those it found wanting. -/
theorem recheck (generation : ℕ) (peers : Std.ExtTreeMap SessionId Bytes32) (todo : List (SessionId × Zone))
    (refused : List Refusal) :
    (Inner.recheck generation peers todo refused).Finishes C env w := by
  induction todo generalizing refused with
  | nil =>
    apply of_more
    intro s more hmore
    obtain ⟨r, -, hr⟩ := List.mem_flatMap.mp hmore
    exact refuse env w r.zone .unauthorized r.why (some generation) r.sid more hr
  | cons e todo ih =>
    apply of_more
    intro s more hmore
    simp only [doInner] at hmore
    split_ifs at hmore
    · rw [List.mem_singleton.mp hmore]
      exact ih refused
    · split at hmore <;> rw [List.mem_singleton.mp hmore] <;> exact ih _

theorem readEntries (generation : ℕ) (peers : Std.ExtTreeMap SessionId Bytes32) :
    (Inner.readEntries generation peers).Finishes C env w := by
  apply of_more
  intro s more hmore
  rw [List.mem_singleton.mp hmore]
  exact recheck env w generation peers s.entries []

theorem tellLapsed (zone : Zone) (code : ErrorCode) (why : String) : (Inner.tellLapsed zone code why).Finishes C env w := by
  apply of_more
  intro s more hmore
  obtain ⟨e, -, he⟩ := List.mem_flatMap.mp hmore
  exact refuse env w zone code why none e.1 more he

theorem every (job : Inner) : job.Finishes C env w := by
  cases job with
  | place origin op relay =>
    apply of_more
    intro s more hmore
    simp only [doInner] at hmore
    split at hmore
    · rw [List.mem_singleton.mp hmore]
      exact fanOut env w origin op
    · cases hmore
    · cases hmore
  | ingest from_ op =>
    apply of_more
    intro s more hmore
    simp only [doInner] at hmore
    split at hmore
    · rw [List.mem_singleton.mp hmore]
      exact fanOut env w from_ op
    · cases hmore
  | fanOut from_ op => exact fanOut env w from_ op
  | admitClient sid zone their forward =>
    apply of_more
    intro s more hmore
    simp only [doInner] at hmore
    split at hmore
    · cases hmore
    · simp only [List.mem_cons, List.not_mem_nil, or_false] at hmore
      rcases hmore with rfl | rfl
      · exact register env w sid zone
      · exact ackGap env w sid zone their none
  | admitPeer sid zone their node chunk =>
    apply of_more
    intro s more hmore
    simp only [doInner] at hmore
    split at hmore
    · cases hmore
    · simp only [List.mem_cons, List.not_mem_nil, or_false] at hmore
      rcases hmore with rfl | rfl | rfl | rfl
      · exact of_more fun _ _ h => by cases h
      · exact register env w sid zone
      · exact of_more fun _ _ h => by cases h
      · exact ackGap env w sid zone their (some chunk)
  | ackGap sid zone their chunk => exact ackGap env w sid zone their chunk
  | readAdmitted generation =>
    apply of_more
    intro s more hmore
    rw [List.mem_singleton.mp hmore]
    exact readEntries env w generation s.admitted
  | readEntries generation peers => exact readEntries env w generation peers
  | recheck generation peers todo refused => exact recheck env w generation peers todo refused
  | lapse id code why =>
    apply of_more
    intro s more hmore
    simp only [doInner] at hmore
    split at hmore
    · cases hmore
    · rw [List.mem_singleton.mp hmore]
      exact tellLapsed env w _ code why
  | tellLapsed zone code why => exact tellLapsed env w zone code why
  | dropAdmitted sid => exact dropAdmitted env w sid
  | _ => exact of_more fun _ _ h => by cases h

end Inner.Finishes

/-! ### Without the cut -/

namespace Shared

variable {env : Env} {w : Worker} {s s' s'' : Shared C}

/-- Without a link no forward begins, and one that ended takes nothing more. -/
theorem doJob_ended (hlinked : env.linked = false) (s : Shared C) (w : Worker) (job : Job) {id : ℕ} (hid : s.Ended id) :
    (s.doJob w env job).1.Ended id := by
  cases job with
  | writeUp write holder =>
    unfold doJob
    dsimp only
    split
    · exact hid
    · rw [hlinked]
      exact hid
  | sendUp i write =>
    unfold doJob
    dsimp only
    split
    · exact hid
    · rename_i forward hforward
      split_ifs with hclosed
      · exact hid
      · intro after hafter
        by_cases hi : id = i
        · subst hi
          exact absurd (hid forward hforward) hclosed
        · dsimp only at hafter
          rw [Function.update_of_ne hi] at hafter
          exact hid after hafter
  | forwardInterest zone holder =>
    unfold doJob
    dsimp only
    split
    · exact hid
    · rw [hlinked]
      exact hid
  | _ => exact ended_congr rfl hid

/-- `w` has done its script up to `rest`, and nobody holds the cut. -/
structure ScriptTo (env : Env) (w : Worker) (rest : List Job) (s s' : Shared C) : Prop extends Leaves w s s' where
  drains : Drains env s s'
  cut : s'.cut = none
  scripts : s'.scripts w = rest

theorem ScriptTo.trans {rest rest' : List Job} (h : ScriptTo env w rest s s') (h' : ScriptTo env w rest' s' s'') :
    ScriptTo env w rest' s s'' :=
  ⟨h.toLeaves.trans h'.toLeaves, h.drains.trans h'.drains, h'.cut, h'.scripts⟩

/-- A turn without the cut. -/
theorem scriptTo_turn (hlinked : env.linked = false) {job : Job} {rest : List Job} (hjob : ∀ inner, job ≠ .cut inner)
    (hcut : s.cut = none) (hscript : s.scripts w = job :: rest) :
    ScriptTo env w (((s.give w rest).doJob w env job).2.1 ++ rest) s (s.run w env).1 := by
  have hrun : (s.run w env).1 = ((s.give w rest).doJob w env job).1.doFirst w ((s.give w rest).doJob w env job).2.1 := by
    cases job
    case cut inner => exact absurd rfl (hjob inner)
    all_goals simp [run, hcut, hscript]
  have F := (s.give w rest).doJob_frame w env job
  refine ⟨⟨fun w' hw => ?_, fun id hid => ?_⟩, turn env s w, ?_, ?_⟩ <;> rw [hrun]
  · rw [doFirst_scripts, if_neg hw, F.scripts, give_scripts, if_neg hw]
  · exact ended_congr rfl (doJob_ended hlinked (s.give w rest) w job (ended_congr rfl hid))
  · exact F.cut.trans hcut
  · rw [doFirst_scripts, if_pos rfl, F.scripts, give_scripts, if_pos rfl]

end Shared

/-- A job of a script comes to its end, with all it leads to. -/
def Job.Finishes (C : Crypto) (env : Env) (w : Worker) (job : Job) : Prop :=
  ∀ (s : Shared C) (rest : List Job), s.cut = none → s.scripts w = job :: rest → ∃ s', ScriptTo env w rest s s'

namespace Job.Finishes

variable {env : Env} {w : Worker}

theorem all {jobs : List Job} (h : ∀ job ∈ jobs, job.Finishes C env w) (s : Shared C) (rest : List Job)
    (hcut : s.cut = none) (hscript : s.scripts w = jobs ++ rest) : ∃ s', ScriptTo env w rest s s' := by
  induction jobs generalizing s with
  | nil => exact ⟨s, ⟨fun _ _ => rfl, fun _ hid => hid⟩, .refl, hcut, hscript⟩
  | cons job jobs ih =>
    obtain ⟨s', hs'⟩ := h job List.mem_cons_self s (jobs ++ rest) hcut hscript
    obtain ⟨s'', hs''⟩ := ih (fun job hjob => h job (List.mem_cons_of_mem _ hjob)) s' hs'.cut hs'.scripts
    exact ⟨s'', hs'.trans hs''⟩

variable (hlinked : env.linked = false)
include hlinked

/-- A job finishes when what it leads to does. -/
theorem of_more {job : Job} (hjob : ∀ inner, job ≠ .cut inner)
    (h : ∀ s : Shared C, ∀ more ∈ (s.doJob w env job).2.1, more.Finishes C env w) : job.Finishes C env w := by
  intro s rest hcut hscript
  have T := scriptTo_turn hlinked hjob hcut hscript
  obtain ⟨s', hs'⟩ := all (h (s.give w rest)) (s.run w env).1 rest T.cut T.scripts
  exact ⟨s', T.trans hs'⟩

theorem of_light {job : Job} (hlight : job.Light) : job.Finishes C env w := by
  cases job with
  | answer to_ op status => exact of_more hlinked (by simp) fun _ _ h => by cases h
  | send to_ frame => exact of_more hlinked (by simp) fun _ _ h => by cases h
  | forwardInterest zone holder =>
    apply of_more hlinked (by simp)
    intro s more hmore
    simp only [doJob, hlinked] at hmore
    split at hmore <;> cases hmore
  | _ => cases hlight

/-- A task that waits for the cut takes it, does what it took it for, and lets it go. -/
theorem cut (inner : List Inner) : (Job.cut inner).Finishes C env w := by
  intro s rest hcut hscript
  have htaken : (s.run w env).1 = (s.give w rest).setCut (some (w, inner)) := by simp [run, hcut, hscript]
  have hheld : (s.run w env).1.cut = some (w, inner ++ []) := by rw [htaken, List.append_nil]; rfl
  obtain ⟨s', hs'⟩ := Inner.Finishes.all (fun job _ => Inner.Finishes.every env w job) _ [] hheld
  obtain ⟨jobs, hjobs, hlight⟩ := hs'.scripts
  have hfree : (s'.run w env).1 = s'.setCut none := by simp [run, hs'.cut]
  have hleft : (s'.run w env).1.scripts w = jobs ++ rest := by
    rw [hfree, setCut_scripts, hjobs, htaken, setCut_scripts, give_scripts, if_pos rfl]
  have T : ScriptTo env w (jobs ++ rest) s (s'.run w env).1 := by
    refine ⟨⟨fun w' hw => ?_, fun id hid => ?_⟩, ((turn env s w).trans hs'.drains).trans (turn env s' w), ?_, hleft⟩
    · rw [hfree, setCut_scripts, hs'.others w' hw, htaken, setCut_scripts, give_scripts, if_neg hw]
    · rw [hfree]
      apply ended_congr rfl (hs'.ended id _)
      rw [htaken]
      exact ended_congr rfl hid
    · rw [hfree]
      rfl
  obtain ⟨s'', hs''⟩ := all (fun job hjob => of_light hlinked (hlight job hjob)) _ rest T.cut hleft
  exact ⟨s'', T.trans hs''⟩

theorem sendUp (id : ℕ) (write : Write) : (Job.sendUp id write).Finishes C env w := by
  apply of_more hlinked (by simp)
  intro s more hmore
  simp only [doJob] at hmore
  split at hmore
  · cases hmore
  · split_ifs at hmore
    · rw [List.mem_singleton.mp hmore]
      exact of_light hlinked trivial
    · cases hmore

theorem writeUp (write : Write) (holder : String) : (Job.writeUp write holder).Finishes C env w := by
  apply of_more hlinked (by simp)
  intro s more hmore
  simp only [doJob, hlinked] at hmore
  split at hmore
  · rw [List.mem_singleton.mp hmore]
    exact sendUp hlinked _ write
  · rw [List.mem_singleton.mp hmore]
    exact of_light hlinked trivial

theorem every (job : Job) : job.Finishes C env w := by
  cases job with
  | cut inner => exact cut hlinked inner
  | accept sid source op placement =>
    apply of_more hlinked (by simp)
    intro s more hmore
    rw [doJob, List.mem_singleton] at hmore
    subst hmore
    rcases s.acceptance_cases sid source op placement with ⟨status, -, heq⟩ | ⟨holder, heq⟩ | heq <;> rw [heq]
    · exact of_light hlinked trivial
    · exact writeUp hlinked _ holder
    · exact cut hlinked _
  | writeUp write holder => exact writeUp hlinked write holder
  | sendUp id write => exact sendUp hlinked id write
  | forwardInterest zone holder => exact of_light hlinked trivial
  | subscribe sid zone forward =>
    apply of_more hlinked (by simp)
    intro s more hmore
    rw [List.mem_singleton.mp hmore]
    exact cut hlinked _
  | replace fold =>
    apply of_more hlinked (by simp)
    intro s more hmore
    rcases List.mem_cons.mp hmore with rfl | hmore
    · exact cut hlinked _
    · rw [List.mem_singleton.mp hmore]
      exact of_more hlinked (by simp) fun _ _ h => by cases h
  | _ => exact of_more hlinked (by simp) fun _ _ h => by cases h

end Job.Finishes

/-! ### The whole node -/

namespace Shared

variable {env : Env} {s : Shared C}

/-- The task that holds the cut does what it took it for, and lets it go. -/
theorem free_cut (env : Env) (s : Shared C) : ∃ s', Drains env s s' ∧ s'.cut = none := by
  cases hcut : s.cut with
  | none => exact ⟨s, .refl, hcut⟩
  | some held =>
    obtain ⟨w, inner⟩ := held
    obtain ⟨s', hs'⟩ := Inner.Finishes.all (fun job _ => .every env w job) s [] (by rw [hcut, List.append_nil])
    refine ⟨(s'.run w env).1, hs'.drains.trans (turn env s' w), ?_⟩
    simp [run, hs'.cut]

theorem endForward_ended (s : Shared C) (id : ℕ) (forward : Forward) (refused : Option Error) {i : ℕ} (hi : i = id ∨ s.Ended i) :
    (s.endForward id forward refused).Ended i := by
  intro after hafter
  simp only [endForward, give] at hafter
  by_cases heq : i = id
  · subst heq
    rw [Function.update_self] at hafter
    rw [← Option.some.inj hafter]
  · rw [Function.update_of_ne heq] at hafter
    exact hi.resolve_left heq after hafter

variable (hlinked : env.linked = false)
include hlinked

/-- A forward's task does what is left to it, and the forward ends. -/
theorem end_forward (hcut : s.cut = none) (id : ℕ) :
    ∃ s', Drains env s s' ∧ s'.cut = none ∧ s'.Ended id ∧ ∀ i, s.Ended i → s'.Ended i := by
  have hscript : s.scripts (.forward id) = s.scripts (.forward id) ++ [] := (List.append_nil _).symm
  obtain ⟨s', hs'⟩ := Job.Finishes.all (fun job _ => .every hlinked job) s [] hcut hscript
  by_cases hended : s'.Ended id
  · exact ⟨s', hs'.drains, hs'.cut, hended, hs'.ended⟩
  · obtain ⟨forward, hforward, hopen⟩ : ∃ forward, s'.forwards id = some forward ∧ forward.closed = false := by
      simpa [Ended] using hended
    have hidle : s'.idle (.forward id) := ⟨hs'.scripts, by simp [hs'.cut]⟩
    have hstep : (s'.step (.forwardEnds id none)).1 = s'.endForward id forward none := by
      simp [step, forwardRuns, hforward, hidle, hopen, stepForward]
    refine ⟨_, hs'.drains.tail ⟨.forwardEnds id none, .inr ⟨id, rfl⟩, rfl⟩, ?_⟩
    rw [hstep]
    refine ⟨hs'.cut, endForward_ended s' id forward none (.inl rfl), fun i hi => ?_⟩
    exact endForward_ended s' id forward none (.inr (hs'.ended i hi))

theorem end_forwards (hcut : s.cut = none) (n : ℕ) :
    ∃ s', Drains env s s' ∧ s'.cut = none ∧ (∀ id, id < n → s'.Ended id) ∧ ∀ i, s.Ended i → s'.Ended i := by
  induction n with
  | zero => exact ⟨s, .refl, hcut, fun id hid => absurd hid (Nat.not_lt_zero id), fun _ hi => hi⟩
  | succ n ih =>
    obtain ⟨s', hdrains, hcut', hended, hkeep⟩ := ih
    obtain ⟨s'', hdrains', hcut'', hlast, hkeep'⟩ := end_forward hlinked hcut' n
    refine ⟨s'', hdrains.trans hdrains', hcut'', fun id hid => ?_, fun i hi => hkeep' i (hkeep i hi)⟩
    rcases Nat.lt_succ_iff_lt_or_eq.mp hid with hid | rfl
    · exact hkeep' id (hended id hid)
    · exact hlast

/-- Task after task does what is left to it; none gives another anything. -/
theorem finish_tasks (hcut : s.cut = none) (tasks : Finset Worker) :
    ∃ s', Drains env s s' ∧ s'.cut = none ∧ (∀ w ∈ tasks, s'.scripts w = []) ∧ (∀ w, s.scripts w = [] → s'.scripts w = []) ∧
      ∀ i, s.Ended i → s'.Ended i := by
  induction tasks using Finset.induction_on with
  | empty => exact ⟨s, .refl, hcut, by simp, fun _ hw => hw, fun _ hi => hi⟩
  | insert w tasks _ ih =>
    obtain ⟨s', hdrains, hcut', hdone, hempty, hended⟩ := ih
    obtain ⟨s'', hs''⟩ := Job.Finishes.all (fun job _ => .every hlinked job) s' [] hcut' (List.append_nil (s'.scripts w)).symm
    have hstay : ∀ w', s'.scripts w' = [] → s''.scripts w' = [] := by
      intro w' hw'
      by_cases hw : w' = w
      · rw [hw, hs''.scripts]
      · rw [hs''.others w' hw, hw']
    refine ⟨s'', hdrains.trans hs''.drains, hs''.cut, fun w' hw' => ?_, fun w' hw' => hstay w' (hempty w' hw'), fun i hi =>
      hs''.ended i (hended i hi)⟩
    rcases Finset.mem_insert.mp hw' with rfl | hw'
    · exact hs''.scripts
    · exact hstay w' (hdone w' hw')

end Shared

/-! ### Runs -/

/-- Turns and ends take in no op. -/
theorem received_drains {env : Env} (s : Shared C) {e : Event} (he : e.Drains env) : received (s.step e).2 = [] := by
  rcases he with ⟨w, rfl⟩ | ⟨id, rfl⟩
  · apply List.flatMap_eq_nil_iff.mpr
    intro x hx
    cases x with
    | received sid ops => exact absurd hx (received_notMem_run s w env sid ops)
    | _ => rfl
  · simp only [Shared.step, Shared.forwardRuns]
    split
    · split_ifs <;> rfl
    · rfl

/-- A run goes on as its state drains. -/
theorem run_drains {env : Env} (C : Crypto) (clientGrants : Bool) (events : List Event) {s : Shared C}
    (h : Drains env (runOf C clientGrants events).1 s) :
    ∃ more : List Event, (∀ e ∈ more, e.Drains env) ∧ (runOf C clientGrants (events ++ more)).1 = s ∧
      received (runOf C clientGrants (events ++ more)).2 = received (runOf C clientGrants events).2 := by
  induction h with
  | refl => exact ⟨[], by simp, by rw [List.append_nil], by rw [List.append_nil]⟩
  | tail _ hstep ih =>
    obtain ⟨more, hmore, hs, hreceived⟩ := ih
    obtain ⟨e, he, rfl⟩ := hstep
    refine ⟨more ++ [e], ?_, ?_, ?_⟩
    · intro e' he'
      rcases List.mem_append.mp he' with he' | he'
      · exact hmore e' he'
      · rwa [List.mem_singleton.mp he']
    · rw [← List.append_assoc, runOf, Histories.run_concat, ← hs]
      rfl
    · rw [← List.append_assoc, runOf, Histories.run_concat, received_append, received_drains _ he, List.append_nil]
      exact hreceived

/-- What a run drained to keeps of every run. -/
theorem orderly_drained {env : Env} (C : Crypto) (clientGrants : Bool) (events : List Event) {s : Shared C}
    (h : Drains env (runOf C clientGrants events).1 s) : Orderly s := by
  obtain ⟨more, -, hs, -⟩ := run_drains C clientGrants events h
  rw [← hs]
  have A : Answering True _ _ := answering_run C clientGrants (events ++ more) fun _ _ _ => trivial
  exact A.orderly

/-- No op is stranded. Wherever a run stands, and whatever the store's calls come to from
there, turns of the tasks and ends of the forwards lead, with nothing more received and no
link to any claim holder, to where no task has anything to do and no forward takes or holds
a write; and there every op a session sent is answered as often as it was received, unless
its session was shut down. -/
theorem no_op_stranded (C : Crypto) (clientGrants : Bool) (events : List Event) (fault : Option Fault) (os : String) :
    ∃ more : List Event, (∀ e ∈ more, e.Drains { fault, os, linked := false }) ∧
      let s := (runOf C clientGrants (events ++ more)).1
      let t := (runOf C clientGrants (events ++ more)).2
      (∀ w, s.idle w) ∧ (∀ id, s.Ended id ∧ s.atForward id = []) ∧ received t = received (runOf C clientGrants events).2 ∧
        ∀ x, .shut x.1 ∉ t → (answers t).count x = (received t).count x := by
  generalize henv : ({ fault, os, linked := false } : Env) = env
  have hlinked : env.linked = false := by rw [← henv]
  -- The cut is let go first; then the forwards end, so that no script can queue on one again.
  obtain ⟨s₁, hdrains₁, hcut₁⟩ := free_cut env (runOf C clientGrants events).1
  have O₁ := orderly_drained C clientGrants events hdrains₁
  obtain ⟨s₂, hdrains₂, hcut₂, hknown₂, hkeep₂⟩ := end_forwards hlinked hcut₁ s₁.nextForward
  have hended₂ : ∀ id, s₂.Ended id := by
    intro id
    by_cases hid : id < s₁.nextForward
    · exact hknown₂ id hid
    · apply hkeep₂
      intro forward hforward
      rw [O₁.fresh id (not_lt.mp hid)] at hforward
      cases hforward
  have O₂ := orderly_drained C clientGrants events (hdrains₁.trans hdrains₂)
  obtain ⟨s₃, hdrains₃, hcut₃, hdone₃, hempty₃, hkeep₃⟩ := finish_tasks hlinked hcut₂ O₂.finite.toFinset
  have hscripts₃ : ∀ w, s₃.scripts w = [] := by
    intro w
    by_cases hw : s₂.scripts w = []
    · exact hempty₃ w hw
    · exact hdone₃ w (O₂.finite.mem_toFinset.mpr hw)
  obtain ⟨more, hmore, hs, hreceived⟩ := run_drains C clientGrants events ((hdrains₁.trans hdrains₂).trans hdrains₃)
  refine ⟨more, hmore, ?_⟩
  have A : Answering True _ _ := answering_run C clientGrants (events ++ more) fun _ _ _ => trivial
  obtain ⟨lost, hlost, hcount⟩ := A.accounts
  have O := A.orderly
  rw [hs] at O hcount ⊢
  have hidle : ∀ w, s₃.idle w := fun w => ⟨hscripts₃ w, by simp [hcut₃]⟩
  have hforward : ∀ id, s₃.atForward id = [] := by
    intro id
    unfold atForward
    split
    · rename_i forward heq
      exact O.ended id forward heq (hkeep₃ id (hended₂ id) forward heq)
    · rfl
  refine ⟨hidle, fun id => ⟨hkeep₃ id (hended₂ id), hforward id⟩, hreceived, fun x hshut => ?_⟩
  have howing : s₃.owing x = 0 := by
    apply owing_eq_zero
    · intro w hw
      rw [atTask_of_idle (hidle w)] at hw
      cases hw
    · intro id hid
      rw [hforward id] at hid
      cases hid
  have hnone : lost.count x = 0 := List.count_eq_zero.mpr fun hx => hshut (hlost x hx)
  have := hcount x
  omega

end Glade.Node.Serving
