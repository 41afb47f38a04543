import Glade.Lib.Tallies
import Glade.Node.Stages
import Glade.Store.Holding

/-! Where an op that a session wrote waits for its answer: in a task's script, under
the cut, queued on a forward, or pending at the claim holder. What a step does to the
ops that wait, counted. -/

namespace Glade.Node.Serving

open Wire Store Grants Tallies

variable {C : Crypto}

/-! ### What waits -/

/-- The op a job has yet to answer, with its writer. -/
def Inner.owed : Inner → List (SessionId × Op)
  | .place origin op _ => [(origin, op)]
  | _ => []

def Write.owed (write : Write) : SessionId × Op := (write.writer, write.op)

def Job.owed : Job → List (SessionId × Op)
  | .cut inner => inner.flatMap Inner.owed
  | .answer to_ op _ => [(to_, op)]
  | .accept sid _ op _ => [(sid, op)]
  | .writeUp write _ | .sendUp _ write => [write.owed]
  | _ => []

def Forward.owed (forward : Forward) : List (SessionId × Op) := (forward.pending ++ forward.queued).map Write.owed

/-- The ops sessions sent, in order, and the ops answered. -/
def received (t : List Happening) : List (SessionId × Op) :=
  t.flatMap fun
    | .received sid ops => ops.map fun op => (sid, op)
    | _ => []

def answers (t : List Happening) : List (SessionId × Op) :=
  t.flatMap fun
    | .answered sid op _ => [(sid, op)]
    | _ => []

namespace Shared

/-- What a task has yet to do under the cut. -/
def underCut (s : Shared C) (w : Worker) : List Inner :=
  match s.cut with
  | some (holder, inner) => if holder = w then inner else []
  | none => []

def atTask (s : Shared C) (w : Worker) : List (SessionId × Op) :=
  (s.underCut w).flatMap Inner.owed ++ (s.scripts w).flatMap Job.owed

def atForward (s : Shared C) (id : ℕ) : List (SessionId × Op) :=
  match s.forwards id with
  | some forward => forward.owed
  | none => []

def setForward (s : Shared C) (id : ℕ) (forward : Forward) : Shared C :=
  { s with forwards := Function.update s.forwards id (some forward) }

/-- How often an op waits for its answer. -/
noncomputable def owing (s : Shared C) (x : SessionId × Op) : ℕ := tally s.atTask x + tally s.atForward x

end Shared

theorem received_append (t more : List Happening) : received (t ++ more) = received t ++ received more :=
  List.flatMap_append

theorem answers_append (t more : List Happening) : answers (t ++ more) = answers t ++ answers more :=
  List.flatMap_append

theorem mem_received {t : List Happening} {sid : SessionId} {op : Op} (h : (sid, op) ∈ received t) :
    ∃ ops, .received sid ops ∈ t ∧ op ∈ ops := by
  obtain ⟨x, hx, hmem⟩ := List.mem_flatMap.mp h
  cases x with
  | received sid' ops =>
    obtain ⟨op', hop, heq⟩ := List.mem_map.mp hmem
    obtain ⟨rfl, rfl⟩ := Prod.mk.inj heq
    exact ⟨ops, hx, hop⟩
  | _ => cases hmem

/-! ### What an answer says -/

/-- An answer names the op, by its hash. -/
def Names (C : Crypto) (answer : Error) (op : Op) : Prop := answer.corr = some (hex (opHash C op).val)

/-- An answer names its op, and says `Ok` of what the store holds alone, unless a claim
holder's own refusal has said it. -/
structure Truthful (C : Crypto) (lied : Prop) (logs : Logs) (op : Op) (answer : Error) : Prop where
  names : Names C answer op
  held : answer.code = .ok → lied ∨ op.share ≠ home ∧ HoldsOp C logs op

/-- What is to be placed is off the home share, and the claim holder's answer names it. -/
def Inner.Placeable (C : Crypto) : Inner → Prop
  | .place _ op relay => op.share ≠ home ∧ ∀ answer ∈ relay, Names C answer op
  | _ => True

def Job.Truthful (C : Crypto) (lied : Prop) (logs : Logs) : Job → Prop
  | .cut inner => ∀ job ∈ inner, job.Placeable C
  | .answer _ op status => Serving.Truthful C lied logs op status
  | .writeUp write _ | .sendUp _ write => write.op.share ≠ home
  | _ => True

/-- A claim holder refuses a forward, and says `Ok` of it. -/
def Event.SaysOk : Event → Prop
  | .forwardEnds _ (some refused) => refused.code = .ok
  | _ => False

theorem truthful_opStatus {lied : Prop} {logs : Logs} {op : Op} {code : ErrorCode} (hcode : code = .ok → lied)
    (message : String) :
    Truthful C lied logs op (opStatus C op code message) := ⟨rfl, fun h => .inl (hcode h)⟩

theorem Inner.placeable_of_owed {job : Inner} (h : job.owed = []) : job.Placeable C := by
  cases job with
  | place => cases h
  | _ => trivial

theorem Job.truthful_of_owed {lied : Prop} {logs : Logs} {job : Job} (h : job.owed = []) : job.Truthful C lied logs := by
  cases job with
  | cut inner => exact fun job hjob => Inner.placeable_of_owed (List.flatMap_eq_nil_iff.mp h job hjob)
  | answer | writeUp | sendUp => cases h
  | _ => trivial

/-! ### What keeps the count -/

/-- What the scripts and the forwards keep, so that no op that waits is written over. -/
structure Orderly (s : Shared C) : Prop where
  finite : (places s.scripts).Finite
  /-- A session not opened yet has nothing to do. -/
  ahead : ∀ sid, s.next ≤ sid → s.idle (.session sid)
  fresh : ∀ id, s.nextForward ≤ id → s.forwards id = none
  known : ∀ (zone : Zone) (id : ℕ), s.forwarded[zone]? = some id → s.forwards id ≠ none
  sends : ∀ w id write, .sendUp id write ∈ s.scripts w → s.forwards id ≠ none
  ended : ∀ id forward, s.forwards id = some forward → forward.closed = true → forward.owed = []

namespace Shared

theorem underCut_of_ne {s : Shared C} {w : Worker} (h : s.cut.map Prod.fst ≠ some w) : s.underCut w = [] := by
  unfold underCut
  cases hcut : s.cut with
  | none => rfl
  | some held =>
    rw [hcut] at h
    exact if_neg fun hw => h (congrArg some hw)

theorem underCut_of_cut {s : Shared C} {w : Worker} {inner : List Inner} (h : s.cut = some (w, inner)) :
    s.underCut w = inner := by
  unfold underCut
  rw [h]
  exact if_pos rfl

theorem atTask_of_idle {s : Shared C} {w : Worker} (h : s.idle w) : s.atTask w = [] := by
  unfold atTask
  rw [underCut_of_ne h.2, h.1]
  rfl

theorem places_atTask {s : Shared C} (O : Orderly s) : (places s.atTask).Finite := by
  have hholder : {w | s.cut.map Prod.fst = some w}.Finite := by
    cases s.cut with
    | none => simp
    | some held => simp
  apply (O.finite.union hholder).subset
  intro w hw
  by_cases hidle : s.idle w
  · exact absurd (atTask_of_idle hidle) hw
  · simp only [idle, not_and_or, not_not] at hidle
    exact hidle

theorem places_atForward {s : Shared C} (O : Orderly s) : (places s.atForward).Finite := by
  apply (Set.finite_lt_nat s.nextForward).subset
  intro id hid
  by_contra hlt
  apply hid
  unfold atForward
  rw [O.fresh id (not_lt.mp hlt)]

end Shared

/-! ### What jobs owe -/

namespace Shared

/-- What a job under the cut leaves owed: what it gives its own task, and what it leads to there. -/
theorem doInner_owed (s : Shared C) (w : Worker) (env : Env) (job : Inner) :
    ∃ jobs, (s.doInner w env job).1.scripts = Function.update s.scripts w (jobs ++ s.scripts w) ∧
      jobs.flatMap Job.owed ++ (s.doInner w env job).2.1.flatMap Inner.owed = job.owed := by
  have hsame : s.scripts = Function.update s.scripts w ([] ++ s.scripts w) := by
    rw [List.nil_append, Function.update_eq_self]
  cases job with
  | place origin op relay =>
    unfold doInner
    dsimp only
    split <;> exact ⟨[_], rfl, rfl⟩
  | ingest from_ op =>
    unfold doInner
    dsimp only
    split <;> exact ⟨[], hsame, rfl⟩
  | fanOut from_ op =>
    refine ⟨[], hsame, ?_⟩
    unfold doInner
    simp [Inner.owed, List.flatMap_map]
  | admitClient sid zone their forward =>
    unfold doInner
    dsimp only
    split
    · refine ⟨_, rfl, ?_⟩
      simp [Inner.owed, Job.owed, List.flatMap_map]
    · refine ⟨_, rfl, ?_⟩
      simp [Inner.owed, Job.owed, List.flatMap_map]
  | admitPeer sid zone their node chunk =>
    unfold doInner
    dsimp only
    split <;> exact ⟨[], hsame, rfl⟩
  | ackGap sid zone their chunk =>
    refine ⟨[], hsame, ?_⟩
    unfold doInner
    simp [Inner.owed, List.flatMap_map]
  | recheck generation peers todo refused =>
    refine ⟨[], ?_, ?_⟩
    · cases todo with
      | nil => exact hsame
      | cons e todo =>
        unfold doInner
        dsimp only
        split
        · exact hsame
        · split <;> exact hsame
    · cases todo with
      | nil =>
        unfold doInner
        simp [Inner.owed, refuse, List.flatMap_assoc]
      | cons e todo =>
        unfold doInner
        dsimp only
        split
        · rfl
        · split <;> rfl
  | lapse id code why =>
    unfold doInner
    dsimp only
    split <;> exact ⟨[], hsame, rfl⟩
  | tellLapsed zone code why =>
    refine ⟨[], hsame, ?_⟩
    unfold doInner
    simp [Inner.owed, refuse, List.flatMap_assoc]
  | dropAdmitted sid =>
    unfold doInner
    dsimp only
    split <;> exact ⟨[], hsame, rfl⟩
  | _ => exact ⟨[], hsame, rfl⟩

/-- What a job without the cut does to the forwards: nothing, it opens one, or it queues a write. -/
theorem doJob_forwards (s : Shared C) (w : Worker) (env : Env) (job : Job) :
    ((s.doJob w env job).1.forwards = s.forwards ∧ (s.doJob w env job).1.nextForward = s.nextForward ∧
        (s.doJob w env job).1.forwarded = s.forwarded ∧ (s.doJob w env job).1.next = s.next) ∨
      (∃ zone holder, (∀ id write, job ≠ .sendUp id write) ∧ (s.doJob w env job).1 = (s.openForward zone holder).2) ∨
        ∃ id write forward, job = .sendUp id write ∧ s.forwards id = some forward ∧ forward.closed = false ∧
          s.doJob w env job = (s.setForward id { forward with queued := forward.queued ++ [write] }, [], []) := by
  cases job with
  | writeUp write holder =>
    unfold doJob
    dsimp only
    split
    · exact .inl ⟨rfl, rfl, rfl, rfl⟩
    · split
      · exact .inr (.inl ⟨zoneOf write.op, holder, fun _ _ => by simp, rfl⟩)
      · exact .inl ⟨rfl, rfl, rfl, rfl⟩
  | sendUp id write =>
    unfold doJob
    dsimp only
    split
    · exact .inl ⟨rfl, rfl, rfl, rfl⟩
    · rename_i forward hforward
      split_ifs with hclosed
      · exact .inl ⟨rfl, rfl, rfl, rfl⟩
      · exact .inr (.inr ⟨id, write, forward, rfl, hforward, Bool.not_eq_true _ ▸ hclosed, rfl⟩)
  | forwardInterest zone holder =>
    unfold doJob
    dsimp only
    split
    · exact .inl ⟨rfl, rfl, rfl, rfl⟩
    · split
      · exact .inr (.inl ⟨zone, holder, fun _ _ => by simp, rfl⟩)
      · exact .inl ⟨rfl, rfl, rfl, rfl⟩
  | _ => exact .inl ⟨rfl, rfl, rfl, rfl⟩

/-- An op is decided for its own writer. -/
theorem acceptance_owed (s : Shared C) (sid : SessionId) (source : Source) (op : Op) (placement : Placement) :
    (s.acceptance sid source op placement).owed = [(sid, op)] := by
  rcases s.acceptance_cases sid source op placement with ⟨status, -, heq⟩ | ⟨holder, heq⟩ | heq <;> rw [heq] <;> rfl

/-- What a job without the cut leaves owed: it answers the op, loses it with its
writer's session, or passes it on. -/
theorem doJob_owed (s : Shared C) (w : Worker) (env : Env) {job : Job} (hcut : ∀ inner, job ≠ .cut inner)
    (hsend : ∀ id write, job ≠ .sendUp id write) :
    ∃ lost : List (SessionId × Op), (∀ y ∈ lost, y.1 ∉ s.out) ∧
      job.owed = answers (s.doJob w env job).2.2 ++ lost ++ (s.doJob w env job).2.1.flatMap Job.owed := by
  cases job with
  | cut inner => exact absurd rfl (hcut inner)
  | sendUp id write => exact absurd rfl (hsend id write)
  | send to_ frame =>
    refine ⟨[], by simp, ?_⟩
    unfold doJob
    dsimp only
    unfold send
    split_ifs <;> rfl
  | answer to_ op status =>
    unfold doJob
    dsimp only
    by_cases hout : to_ ∈ s.out
    · rw [if_pos hout]
      exact ⟨[], by simp, rfl⟩
    · rw [if_neg hout]
      exact ⟨[(to_, op)], by simpa using hout, rfl⟩
  | accept sid source op placement =>
    refine ⟨[], by simp, ?_⟩
    unfold doJob
    rw [List.flatMap_singleton, acceptance_owed]
    rfl
  | writeUp write holder =>
    refine ⟨[], by simp, ?_⟩
    unfold doJob
    dsimp only
    split
    · rfl
    · split <;> rfl
  | forwardInterest zone holder =>
    refine ⟨[], by simp, ?_⟩
    unfold doJob
    dsimp only
    split
    · rfl
    · split <;> rfl
  | shut sid =>
    refine ⟨[], by simp, ?_⟩
    unfold doJob
    dsimp only
    split_ifs <;> rfl
  | unsubscribeAll sid =>
    refine ⟨[], by simp, ?_⟩
    unfold doJob
    simp [answers, List.flatMap_map, Job.owed]
  | _ => exact ⟨[], by simp, rfl⟩

/-- What a forward's own event does: it leaves the forward as `after` and gives it
`jobs`, and the writes it held are still held or theirs to answer. -/
structure Handed (s : Shared C) (id : ℕ) (forward after : Forward) (jobs : List Job) (lied : Prop)
    (r : Shared C × List Happening) : Prop where
  eq : r = ((s.setForward id after).give (.forward id) jobs, [])
  ended : after.closed = true → after.owed = []
  sends : ∀ i write, .sendUp i write ∉ jobs
  count : ∀ x, forward.owed.count x = after.owed.count x + (jobs.flatMap Job.owed).count x
  kept : ∀ write ∈ after.pending ++ after.queued, write ∈ forward.pending ++ forward.queued
  told : (∀ write ∈ forward.pending ++ forward.queued, write.op.share ≠ home) → ∀ logs, ∀ job ∈ jobs, job.Truthful C lied logs

theorem answering_owed (code : ErrorCode) (why : String) (writes : List Write) :
    (writes.map (answering C code why)).flatMap Job.owed = writes.map Write.owed := by
  induction writes with
  | nil => rfl
  | cons write writes ih =>
    rw [List.map_cons, List.flatMap_cons, ih]
    rfl

theorem sendUp_notMem_answering (code : ErrorCode) (why : String) (writes : List Write) (i : ℕ) (write : Write) :
    .sendUp i write ∉ writes.map (answering C code why) := by
  intro hmem
  obtain ⟨write', -, heq⟩ := List.mem_map.mp hmem
  cases heq

theorem answering_truthful {lied : Prop} {code : ErrorCode} (hcode : code = .ok → lied) (why : String) (writes : List Write)
    (logs : Logs) : ∀ job ∈ writes.map (answering C code why), job.Truthful C lied logs := by
  intro job hjob
  obtain ⟨write, -, rfl⟩ := List.mem_map.mp hjob
  exact truthful_opStatus hcode why

theorem endForward_handed (s : Shared C) (id : ℕ) (forward : Forward) (refused : Option Error) :
    ∃ after jobs, ∀ i, Handed s id forward after jobs (Event.SaysOk (.forwardEnds i refused))
      (s.endForward id forward refused, []) := by
  refine ⟨{ forward with closed := true, pending := [], queued := [] }, _, fun i => ⟨rfl, fun _ => rfl, ?_, ?_, by simp, ?_⟩⟩
  · intro i write hmem
    rcases List.mem_append.mp hmem with hmem | hmem
    · exact sendUp_notMem_answering _ _ _ i write hmem
    · cases List.mem_singleton.mp hmem
  · intro x
    rw [List.flatMap_append, answering_owed]
    simp [Forward.owed, Job.owed, Inner.owed]
  · intro _ logs job hjob
    rcases List.mem_append.mp hjob with hjob | hjob
    · refine answering_truthful (fun hcode => ?_) _ _ logs job hjob
      cases refused with
      | none => cases hcode
      | some refused => exact hcode
    · rw [List.mem_singleton.mp hjob]
      exact Job.truthful_of_owed rfl

/-- The write an answer names leaves the writes pending. -/
theorem answeredIn_split {pending : List Write} {answer : Error} {write : Write} (h : answeredIn C pending answer = some write) :
    ∃ before after, Names C answer write.op ∧ pending = before ++ write :: after ∧
      (pending.eraseP fun write => answer.corr = some (hex (opHash C write.op).val)) = before ++ after := by
  unfold answeredIn at h
  obtain ⟨hp, before, after, hsplit, hbefore⟩ := List.find?_eq_some_iff_append.mp h
  have hnames : Names C answer write.op := by simpa [Names] using hp
  refine ⟨before, after, hnames, hsplit, ?_⟩
  rw [hsplit, List.eraseP_append_right _ (by simpa using hbefore)]
  congr 1
  exact List.eraseP_cons_of_pos hp

section Handed

variable {s : Shared C} {id : ℕ} {forward : Forward}

theorem owed_of_open (hopen : forward.closed = false) (after : Forward) (hsame : after.closed = forward.closed)
    (hclosed : after.closed = true) : after.owed = [] := by
  rw [hsame, hopen] at hclosed
  cases hclosed

/-- The first write that is queued is sent, or answered for, or ends the forward. -/
theorem carry_handed (hidle : s.idle (.forward id)) (hopen : forward.closed = false) (i : ℕ) (sent : Sent) :
    s.stepForward id forward (.carry i sent) = (s, []) ∨ ∃ after jobs,
      Handed s id forward after jobs (Event.carry i sent : Event).SaysOk (s.stepForward id forward (.carry i sent)) := by
  unfold stepForward
  dsimp only
  split
  · exact .inl rfl
  rename_i write queued hqueued
  right
  cases sent with
  | taken =>
    refine ⟨{ forward with queued, pending := forward.pending ++ [write] }, [], ?_, owed_of_open hopen _ rfl,
      fun _ _ => List.not_mem_nil, fun x => ?_, by simp [hqueued], by simp⟩
    · dsimp only
      unfold give setForward
      dsimp only
      rw [← hidle.1, Function.update_eq_self]
    · simp [Forward.owed, hqueued]
  | overLimit =>
    refine ⟨{ forward with queued }, _, rfl, owed_of_open hopen _ rfl, sendUp_notMem_answering .protocol _ [write],
      fun x => ?_, fun write' hmem => ?_, fun _ => answering_truthful (by simp) _ [write]⟩
    · simp only [Forward.owed, hqueued, List.map_append, List.map_cons, List.count_append, List.flatMap_singleton, answering,
        Job.owed, Write.owed, List.count_cons, List.count_nil]
      omega
    · rw [hqueued]
      exact (List.mem_append.mp hmem).elim (List.mem_append_left _) fun h => List.mem_append_right _ (List.mem_cons_of_mem _ h)
  | failed =>
    obtain ⟨after, jobs, hhanded⟩ := s.endForward_handed id { forward with queued, pending := forward.pending ++ [write] } none
    have hsame : ({ forward with queued, pending := forward.pending ++ [write] } : Forward).pending ++ queued =
        forward.pending ++ forward.queued := by simp [hqueued]
    refine ⟨after, jobs, (hhanded i).eq, (hhanded i).ended, (hhanded i).sends, fun x => ?_, ?_, ?_⟩
    · rw [← (hhanded i).count]
      simp [Forward.owed, hqueued]
    · exact fun write' hmem => hsame ▸ (hhanded i).kept write' hmem
    · exact fun hall => (hhanded i).told fun write' hmem => hall write' (hsame ▸ hmem)

/-- Ops from the holder are taken, and answered to no one. -/
theorem arrive_handed (hforward : s.forwards id = some forward) (hopen : forward.closed = false) (i : ℕ) (ops : List Op) :
    ∃ after jobs,
      Handed s id forward after jobs (Event.arrive i ops : Event).SaysOk (s.stepForward id forward (.arrive i ops)) := by
  refine ⟨forward, (ops.filter (inZone · forward.zone)).map fun op => Job.cut [.ingest forward.from_ op], ?_,
    owed_of_open hopen _ rfl, fun i write hmem => ?_, fun x => ?_, fun _ hmem => hmem, fun _ logs job hjob => ?_⟩
  · unfold stepForward setForward
    rw [← hforward, Function.update_eq_self]
  · obtain ⟨op, -, heq⟩ := List.mem_map.mp hmem
    cases heq
  · have hnone : ((ops.filter (inZone · forward.zone)).map fun op =>
        Job.cut [.ingest forward.from_ op]).flatMap Job.owed = [] := by
      apply List.flatMap_eq_nil_iff.mpr
      intro job hjob
      obtain ⟨op, -, rfl⟩ := List.mem_map.mp hjob
      rfl
    rw [hnone]
    rfl
  · obtain ⟨op, -, rfl⟩ := List.mem_map.mp hjob
    exact Job.truthful_of_owed rfl

/-- The holder's answer goes to the first write that it names. -/
theorem holderAnswers_handed (hopen : forward.closed = false) (i : ℕ) (answer : Error) :
    s.stepForward id forward (.holderAnswers i answer) = (s, []) ∨ ∃ after jobs,
      Handed s id forward after jobs (Event.holderAnswers i answer : Event).SaysOk
        (s.stepForward id forward (.holderAnswers i answer)) := by
  unfold stepForward
  dsimp only
  split
  · exact .inl rfl
  rename_i write hwrite
  obtain ⟨before, after, hnames, hpending, herase⟩ := answeredIn_split hwrite
  right
  refine ⟨_, _, rfl, owed_of_open hopen _ rfl, fun i write hmem => ?_, fun x => ?_, fun write' hmem => ?_,
    fun hall logs job hjob => ?_⟩
  · rw [List.mem_singleton] at hmem
    split_ifs at hmem
  · have howed : (if answer.code = .ok then Job.cut [.place write.writer write.op (some answer)]
        else .answer write.writer write.op answer).owed = [write.owed] := by
      split_ifs <;> rfl
    rw [List.flatMap_singleton, howed, Forward.owed, Forward.owed, herase, hpending]
    simp only [List.map_append, List.map_cons, List.count_append, List.count_cons, List.count_nil]
    omega
  · rw [herase] at hmem
    simp only [List.mem_append] at hmem
    simp only [hpending, List.mem_append, List.mem_cons]
    tauto
  · rw [List.mem_singleton.mp hjob]
    split_ifs with hcode
    · intro job hjob
      rw [List.mem_singleton.mp hjob]
      refine ⟨hall write ?_, fun answer' hanswer => ?_⟩
      · rw [hpending]
        simp
      · obtain rfl := Option.some.inj hanswer
        exact hnames
    · exact ⟨hnames, fun h => absurd h hcode⟩

/-- The oldest writes are answered for when no answer has come. -/
theorem expire_handed (hopen : forward.closed = false) (i count : ℕ) :
    ∃ after jobs,
      Handed s id forward after jobs (Event.expire i count : Event).SaysOk (s.stepForward id forward (.expire i count)) := by
  refine ⟨_, _, rfl, owed_of_open hopen _ rfl, sendUp_notMem_answering .unknownShare _ _, fun x => ?_, fun write hmem => ?_,
    fun _ => answering_truthful (by simp) _ _⟩
  · rw [answering_owed, Forward.owed, Forward.owed]
    have hsplit : (forward.pending.map Write.owed).count x =
        ((forward.pending.take count).map Write.owed).count x + ((forward.pending.drop count).map Write.owed).count x := by
      rw [← List.count_append, ← List.map_append, List.take_append_drop]
    simp only [List.map_append, List.count_append]
    omega
  · exact (List.mem_append.mp hmem).elim (fun h => List.mem_append_left _ (List.mem_of_mem_drop h)) (List.mem_append_right _)

end Handed

/-- What an event of a forward's does, where it runs: its writes move, or their answers
are its to give. -/
theorem forwardRuns_handed (s : Shared C) (id : ℕ) (e : Event) :
    s.forwardRuns id e = (s, []) ∨
      ∃ forward after jobs, s.forwards id = some forward ∧ s.idle (.forward id) ∧
        Handed s id forward after jobs e.SaysOk (s.forwardRuns id e) := by
  unfold forwardRuns
  split
  case h_2 => exact .inl rfl
  rename_i forward hforward
  split_ifs with hruns
  case neg => exact .inl rfl
  obtain ⟨hidle, hopen⟩ := hruns
  have hruns : ∀ {r : Shared C × List Happening}, (∃ after jobs, Handed s id forward after jobs e.SaysOk r) →
      ∃ forward after jobs, s.forwards id = some forward ∧ s.idle (.forward id) ∧ Handed s id forward after jobs e.SaysOk r :=
    fun ⟨after, jobs, hhanded⟩ => ⟨forward, after, jobs, hforward, hidle, hhanded⟩
  cases e with
  | carry i sent => exact (carry_handed hidle hopen i sent).imp_right hruns
  | arrive i ops => exact .inr (hruns (arrive_handed hforward hopen i ops))
  | holderAnswers i answer => exact (holderAnswers_handed hopen i answer).imp_right hruns
  | expire i count => exact .inr (hruns (expire_handed hopen i count))
  | forwardEnds i refused =>
    obtain ⟨after, jobs, hhanded⟩ := s.endForward_handed id forward refused
    exact .inr (hruns ⟨after, jobs, hhanded i⟩)
  | _ => exact .inl rfl

/-- Nothing waits of an op that no task and no forward has. -/
theorem owing_eq_zero {s : Shared C} {x : SessionId × Op} (htask : ∀ w, x ∉ s.atTask w) (hforward : ∀ id, x ∉ s.atForward id) :
    s.owing x = 0 := by
  unfold owing
  rw [tally_eq_zero htask, tally_eq_zero hforward]

end Shared

/-- A step of the accounts: what came in, and what waited, is answered, lost with its
writer's session, or waits. -/
def Accounts (s s' : Shared C) (did : List Happening) : Prop :=
  ∃ lost : List (SessionId × Op), (∀ y ∈ lost, y.1 ∉ s.out) ∧
    ∀ x, (received did).count x + s.owing x = (answers did).count x + lost.count x + s'.owing x

namespace Shared

/-! ### What a step does to the count -/

variable {s s' : Shared C}

theorem owing_change {s r : Shared C} (O : Orderly s) (w : Worker) (id : ℕ) (htask : ∀ w', w' ≠ w → r.atTask w' = s.atTask w')
    (hforward : ∀ i, i ≠ id → r.atForward i = s.atForward i) (x : SessionId × Op) :
    r.owing x + (s.atTask w).count x + (s.atForward id).count x =
      s.owing x + (r.atTask w).count x + (r.atForward id).count x := by
  have htasks := tally_change (places_atTask O) w htask x
  have hforwards := tally_change (places_atForward O) id hforward x
  unfold owing
  omega

theorem atForward_congr {s s' : Shared C} (h : s'.forwards = s.forwards) (id : ℕ) : s'.atForward id = s.atForward id := by
  unfold atForward
  rw [h]

theorem owing_congr {s s' : Shared C} (htask : ∀ w, s'.atTask w = s.atTask w) (h : s'.forwards = s.forwards)
    (x : SessionId × Op) :
    s'.owing x = s.owing x := by
  unfold owing
  rw [funext htask, funext (atForward_congr h)]

theorem atForward_setForward (s : Shared C) (id : ℕ) (forward : Forward) (i : ℕ) :
    (s.setForward id forward).atForward i = if i = id then forward.owed else s.atForward i := by
  unfold atForward setForward
  dsimp only
  rw [Function.update_apply]
  split_ifs <;> rfl

/-- A job under the cut takes in no op, and answers none. -/
theorem InnerDid.counts {w : Worker} {job : Inner} {did : List Happening} (h : InnerDid s w job did) :
    received did = [] ∧ answers did = [] := by
  cases h <;> exact ⟨rfl, rfl⟩

/-- A job without the cut takes in no op. -/
theorem JobDid.received {w : Worker} {job : Job} {did : List Happening} (h : JobDid s w job did) : received did = [] := by
  cases h with
  | left sid =>
    apply List.flatMap_eq_nil_iff.mpr
    intro x hx
    obtain ⟨zone, -, rfl⟩ := List.mem_map.mp hx
    rfl
  | _ => rfl

theorem underCut_congr {s s' : Shared C} (h : s'.cut = s.cut) (w : Worker) : s'.underCut w = s.underCut w := by
  unfold underCut
  rw [h]

theorem doFirst_underCut (s : Shared C) (w w' : Worker) (jobs : List Job) : (s.doFirst w jobs).underCut w' = s.underCut w' := rfl

theorem doFirst_scripts (s : Shared C) (w w' : Worker) (jobs : List Job) :
    (s.doFirst w jobs).scripts w' = if w' = w then jobs ++ s.scripts w else s.scripts w' := by
  unfold doFirst
  exact Function.update_apply _ _ _ _

theorem underCut_setCut (s : Shared C) (w w' : Worker) (inner : List Inner) :
    (s.setCut (some (w, inner))).underCut w' = if w = w' then inner else [] := rfl

/-- A write sent up is queued on its forward, or answered where the forward takes no more. -/
theorem sendUp_counts {s : Shared C} {id : ℕ} {forward : Forward} (w : Worker) (env : Env) (write : Write)
    (hforward : s.forwards id = some forward) :
    ∃ after, (s.doJob w env (.sendUp id write)).1.forwards = (s.setForward id after).forwards ∧
      ∀ x, (Job.sendUp id write).owed.count x + forward.owed.count x =
        (answers (s.doJob w env (.sendUp id write)).2.2).count x +
          ((s.doJob w env (.sendUp id write)).2.1.flatMap Job.owed).count x + after.owed.count x := by
  unfold doJob
  dsimp only
  rw [hforward]
  dsimp only
  split_ifs with hclosed
  · refine ⟨forward, ?_, fun x => ?_⟩
    · unfold setForward
      dsimp only
      rw [← hforward, Function.update_eq_self]
    · simp [answers, Job.owed, Write.owed]
  · refine ⟨{ forward with queued := forward.queued ++ [write] }, rfl, fun x => ?_⟩
    simp only [Job.owed, Forward.owed, answers, List.flatMap_nil, List.count_nil, List.map_append, List.map_cons, List.map_nil,
      List.count_append]
    omega

/-- A forward that opens holds nothing. -/
theorem atForward_openForward {s : Shared C} (hfresh : s.forwards s.nextForward = none) (zone : Zone) (holder : String) (id : ℕ) :
    (s.openForward zone holder).2.atForward id = s.atForward id := by
  unfold atForward openForward
  dsimp only
  rw [Function.update_apply]
  split_ifs with hid
  · rw [hid, hfresh]
    rfl
  · rfl

theorem release_accounts {w : Worker} (hheld : s.cut = some (w, [])) : Accounts s (s.setCut none) [] := by
  have htask : ∀ w', (s.setCut none).atTask w' = s.atTask w' := by
    intro w'
    unfold atTask underCut
    rw [hheld]
    dsimp only [setCut_cut, setCut_scripts]
    split_ifs <;> rfl
  refine ⟨[], by simp, fun x => ?_⟩
  rw [owing_congr htask rfl]
  simp [received, answers]

/-- A job under the cut keeps the accounts. -/
theorem inner_accounts (O : Orderly s) {w : Worker} (env : Env) {job : Inner} {rest : List Inner}
    (hheld : s.cut = some (w, job :: rest)) :
    Accounts s ((s.doInner w env job).1.setCut (some (w, (s.doInner w env job).2.1 ++ rest))) (s.doInner w env job).2.2 := by
  obtain ⟨jobs, hscripts, howed⟩ := s.doInner_owed w env job
  obtain ⟨hreceived, hanswers⟩ := (s.doInner_did w env job).counts
  have F := s.doInner_frame w env job
  refine ⟨[], by simp, fun x => ?_⟩
  have hchange := owing_change (r := (s.doInner w env job).1.setCut (some (w, (s.doInner w env job).2.1 ++ rest))) O w 0
    (fun w' hw => by
      unfold atTask
      rw [underCut_setCut, if_neg (Ne.symm hw), underCut_of_ne (by rw [hheld]; simpa using Ne.symm hw),
        setCut_scripts, hscripts,
        Function.update_of_ne hw])
    (fun i _ => atForward_congr F.forwards i) x
  have hforward : ((s.doInner w env job).1.setCut (some (w, (s.doInner w env job).2.1 ++ rest))).atForward 0 = s.atForward 0 :=
    atForward_congr F.forwards 0
  have hold : s.atTask w = job.owed ++ rest.flatMap Inner.owed ++ (s.scripts w).flatMap Job.owed := by
    unfold atTask
    rw [underCut_of_cut hheld, List.flatMap_cons]
  have hnew : ((s.doInner w env job).1.setCut (some (w, (s.doInner w env job).2.1 ++ rest))).atTask w =
      ((s.doInner w env job).2.1 ++ rest).flatMap Inner.owed ++ (jobs ++ s.scripts w).flatMap Job.owed := by
    unfold atTask
    rw [underCut_setCut, if_pos rfl, setCut_scripts, hscripts, Function.update_self]
  have hjob := congrArg (List.count x) howed
  rw [hold, hnew, hforward] at hchange
  simp only [List.flatMap_append, List.count_append] at hchange hjob
  rw [hreceived, hanswers]
  simp only [List.count_nil]
  omega

theorem take_accounts {w : Worker} {inner : List Inner} {rest : List Job} (hfree : s.cut = none)
    (hscript : s.scripts w = .cut inner :: rest) : Accounts s ((s.give w rest).setCut (some (w, inner))) [] := by
  have htask : ∀ w', ((s.give w rest).setCut (some (w, inner))).atTask w' = s.atTask w' := by
    intro w'
    unfold atTask
    rw [underCut_setCut, setCut_scripts, give_scripts, underCut_of_ne (by rw [hfree]; simp)]
    by_cases hw : w = w'
    · subst hw
      rw [if_pos rfl, if_pos rfl, hscript]
      rfl
    · rw [if_neg hw, if_neg (Ne.symm hw)]
  refine ⟨[], by simp, fun x => ?_⟩
  rw [owing_congr htask rfl]
  simp [received, answers]

/-- A job without the cut keeps the accounts. -/
theorem outer_accounts (O : Orderly s) {w : Worker} (env : Env) {job : Job} {rest : List Job}
    (hfree : s.cut.map Prod.fst ≠ some w) (hscript : s.scripts w = job :: rest) (hcut : ∀ inner, job ≠ .cut inner) :
    Accounts s (((s.give w rest).doJob w env job).1.doFirst w ((s.give w rest).doJob w env job).2.1)
      ((s.give w rest).doJob w env job).2.2 := by
  have F := (s.give w rest).doJob_frame w env job
  have hdid := ((s.give w rest).doJob_did w env job).received
  have hold : s.atTask w = job.owed ++ rest.flatMap Job.owed := by
    unfold atTask
    rw [underCut_of_ne hfree, hscript, List.flatMap_cons]
    rfl
  have hnew : (((s.give w rest).doJob w env job).1.doFirst w ((s.give w rest).doJob w env job).2.1).atTask w =
      ((s.give w rest).doJob w env job).2.1.flatMap Job.owed ++ rest.flatMap Job.owed := by
    unfold atTask
    rw [doFirst_underCut, underCut_of_ne (by rw [F.cut]; exact hfree), doFirst_scripts, if_pos rfl, F.scripts,
      give_scripts, if_pos rfl,
      List.flatMap_append]
    rfl
  have hothers : ∀ w', w' ≠ w →
      (((s.give w rest).doJob w env job).1.doFirst w ((s.give w rest).doJob w env job).2.1).atTask w' = s.atTask w' := by
    intro w' hw
    unfold atTask
    rw [doFirst_underCut, underCut_congr F.cut, doFirst_scripts, if_neg hw, F.scripts, give_scripts, if_neg hw]
    rfl
  generalize hs' : ((s.give w rest).doJob w env job).1.doFirst w ((s.give w rest).doJob w env job).2.1 = s' at hnew hothers
  have hforwards : s'.forwards = ((s.give w rest).doJob w env job).1.forwards := by
    rw [← hs']
    rfl
  by_cases hsend : ∃ id write, job = .sendUp id write
  · obtain ⟨id, write, rfl⟩ := hsend
    obtain ⟨forward, hforward⟩ := Option.ne_none_iff_exists'.mp (O.sends w id write (hscript ▸ List.mem_cons_self))
    obtain ⟨after, heq, hcounts⟩ := sendUp_counts (s := s.give w rest) w env write hforward
    refine ⟨[], by simp, fun x => ?_⟩
    have hchange := owing_change O w id hothers (fun i hi => by
      rw [atForward_congr (hforwards.trans heq), atForward_setForward, if_neg hi]
      rfl) x
    have hafter : s'.atForward id = after.owed := by
      rw [atForward_congr (hforwards.trans heq), atForward_setForward, if_pos rfl]
    have hbefore : s.atForward id = forward.owed := by
      unfold atForward
      rw [hforward]
    rw [hold, hnew, hafter, hbefore] at hchange
    have hcount := hcounts x
    simp only [List.count_append] at hchange
    rw [hdid]
    simp only [List.count_nil]
    omega
  · have hsend' : ∀ id write, job ≠ .sendUp id write := fun id write heq => hsend ⟨id, write, heq⟩
    obtain ⟨lost, hlost, howed⟩ := (s.give w rest).doJob_owed w env hcut hsend'
    have hsame : ∀ i, s'.atForward i = s.atForward i := by
      intro i
      rw [atForward_congr hforwards]
      rcases (s.give w rest).doJob_forwards w env job with ⟨heq, -⟩ | ⟨zone, holder, -, heq⟩ | ⟨id, write, -, heq, -⟩
      · exact atForward_congr heq i
      · rw [heq]
        exact atForward_openForward (O.fresh s.nextForward le_rfl) zone holder i
      · exact absurd heq (hsend' id write)
    refine ⟨lost, hlost, fun x => ?_⟩
    have hchange := owing_change O w 0 hothers (fun i _ => hsame i) x
    have hcount := congrArg (List.count x) howed
    rw [hold, hnew, hsame 0] at hchange
    simp only [List.count_append] at hchange hcount
    rw [hdid]
    simp only [List.count_nil]
    omega

/-- A task that runs keeps the accounts. -/
theorem run_accounts (O : Orderly s) (w : Worker) (env : Env) : Accounts s (s.run w env).1 (s.run w env).2 := by
  have h := s.run_ran w env
  generalize s.run w env = r at h
  obtain ⟨s', did⟩ := r
  dsimp only at h ⊢
  cases h with
  | nothing => exact ⟨[], by simp, fun x => by simp [received, answers]⟩
  | release hheld => exact release_accounts hheld
  | inner job rest hheld => exact inner_accounts O env hheld
  | take inner rest hfree hscript => exact take_accounts hfree hscript
  | outer job rest hfree hscript hcut => exact outer_accounts O env hfree hscript hcut

/-- An idle task is given jobs: what they owe has come in. -/
theorem give_accounts (O : Orderly s) {w : Worker} (hidle : s.idle w) (jobs : List Job) {did : List Happening}
    (hcut : s'.cut = s.cut) (hforwards : s'.forwards = s.forwards) (hscripts : s'.scripts = (s.give w jobs).scripts)
    (hcame : received did = jobs.flatMap Job.owed) (hanswers : answers did = []) : Accounts s s' did := by
  have hothers : ∀ w', w' ≠ w → s'.atTask w' = s.atTask w' := by
    intro w' hw
    unfold atTask
    rw [underCut_congr hcut, hscripts, give_scripts, if_neg hw]
  have hnew : s'.atTask w = jobs.flatMap Job.owed := by
    unfold atTask
    rw [underCut_congr hcut, underCut_of_ne hidle.2, hscripts, give_scripts, if_pos rfl]
    rfl
  refine ⟨[], by simp, fun x => ?_⟩
  have hchange := owing_change O w 0 hothers (fun i _ => atForward_congr hforwards i) x
  rw [atTask_of_idle hidle, hnew, atForward_congr hforwards 0] at hchange
  rw [hcame, hanswers]
  simp only [List.count_nil] at hchange ⊢
  omega

theorem accounts_refl (s : Shared C) : Accounts s s [] := ⟨[], by simp, fun x => by simp [received, answers]⟩

theorem forwardRuns_accounts (O : Orderly s) (id : ℕ) (e : Event) : Accounts s (s.forwardRuns id e).1 (s.forwardRuns id e).2 := by
  rcases s.forwardRuns_handed id e with heq | ⟨forward, after, jobs, hforward, hidle, H⟩
  · rw [heq]
    exact s.accounts_refl
  rw [H.eq]
  dsimp only
  refine ⟨[], by simp, fun x => ?_⟩
  have hothers : ∀ w', w' ≠ .forward id → ((s.setForward id after).give (.forward id) jobs).atTask w' = s.atTask w' := by
    intro w' hw
    unfold atTask
    rw [give_scripts, if_neg hw]
    rfl
  have hnew : ((s.setForward id after).give (.forward id) jobs).atTask (.forward id) = jobs.flatMap Job.owed := by
    have hcut : ((s.setForward id after).give (.forward id) jobs).cut = s.cut := rfl
    unfold atTask
    rw [underCut_congr hcut, underCut_of_ne hidle.2, give_scripts, if_pos rfl]
    rfl
  have hafter : ∀ i, ((s.setForward id after).give (.forward id) jobs).atForward i = if i =
    id then after.owed else s.atForward i :=
    s.atForward_setForward id after
  have hbefore : s.atForward id = forward.owed := by
    unfold atForward
    rw [hforward]
  have hchange := owing_change O (.forward id) id hothers (fun i hi => by rw [hafter, if_neg hi]) x
  rw [atTask_of_idle hidle, hnew, hafter, if_pos rfl, hbefore, H.count x] at hchange
  simp only [List.count_nil, received, answers, List.flatMap_nil] at hchange ⊢
  omega

/-- An event that runs no task keeps the accounts: the ops a session sends come in. -/
theorem event_accounts (O : Orderly s) {e : Event} (he : ∀ w env, e ≠ .run w env) : Accounts s (s.step e).1 (s.step e).2 := by
  cases e with
  | run w env => exact absurd rfl (he w env)
  | connect => exact s.accounts_refl
  | peerSubscribe node zone from_ chunk => exact give_accounts O (O.ahead s.next le_rfl) _ rfl rfl rfl rfl rfl
  | hello sid heads principal =>
    unfold step
    dsimp only
    split
    case h_2 => exact s.accounts_refl
    split_ifs with hidle
    case neg => exact s.accounts_refl
    refine give_accounts O hidle _ rfl rfl rfl ?_ rfl
    symm
    apply List.flatMap_eq_nil_iff.mpr
    intro job hjob
    simp only [List.cons_append, List.mem_cons, List.mem_append, List.mem_map, List.mem_nil_iff, or_false] at hjob
    obtain rfl | ⟨p, -, rfl⟩ | rfl := hjob <;> rfl
  | subscribe sid zone route =>
    unfold step
    dsimp only
    split
    case h_2 => exact s.accounts_refl
    split_ifs with hidle
    case neg => exact s.accounts_refl
    cases route with
    | absent reason =>
      refine give_accounts O hidle _ rfl rfl rfl ?_ rfl
      simp [received, Job.owed]
    | _ => exact give_accounts O hidle _ rfl rfl rfl rfl rfl
  | ops sid ops routes =>
    unfold step
    dsimp only
    split
    case h_2 => exact s.accounts_refl
    split_ifs with hidle
    case neg => exact s.accounts_refl
    refine give_accounts O hidle _ rfl rfl rfl ?_ rfl
    rw [List.flatMap_map]
    simp [received, List.map_eq_flatMap, Job.owed]
  | disconnect sid =>
    unfold step
    dsimp only
    split
    case h_2 => exact s.accounts_refl
    rename_i source _
    split_ifs with hidle
    case neg => exact s.accounts_refl
    cases source <;> exact give_accounts O hidle _ rfl rfl rfl rfl rfl
  | ingest id op =>
    unfold step
    dsimp only
    split_ifs with hidle
    case neg => exact s.accounts_refl
    exact give_accounts O hidle _ rfl rfl rfl rfl rfl
  | refresh id fold =>
    unfold step
    dsimp only
    split_ifs with hidle
    case neg => exact s.accounts_refl
    exact give_accounts O hidle _ rfl rfl rfl rfl rfl
  | bringBack id zone holder =>
    unfold step
    dsimp only
    split_ifs with hidle
    case neg => exact s.accounts_refl
    exact give_accounts O hidle _ rfl rfl rfl rfl rfl
  | carry id sent => exact forwardRuns_accounts O id _
  | arrive id ops => exact forwardRuns_accounts O id _
  | holderAnswers id answer => exact forwardRuns_accounts O id _
  | expire id count => exact forwardRuns_accounts O id _
  | forwardEnds id refused => exact forwardRuns_accounts O id _

/-- Every step keeps the accounts. -/
theorem step_accounts (O : Orderly s) (e : Event) : Accounts s (s.step e).1 (s.step e).2 := by
  by_cases he : ∀ w env, e ≠ .run w env
  · exact event_accounts O he
  · simp only [not_forall, not_not] at he
    obtain ⟨w, env, rfl⟩ := he
    exact run_accounts O w env

end Shared

/-! ### What a step keeps -/

namespace Orderly

variable {s s' : Shared C} (O : Orderly s)

/-- A job under the cut leaves the forwards, and forwards no zone. -/
theorem doInner_forwarded (s : Shared C) (w : Worker) (env : Env) (job : Inner) :
    (s.doInner w env job).1.nextForward = s.nextForward ∧
      ∀ (zone : Zone) (id : ℕ), (s.doInner w env job).1.forwarded[zone]? = some id → s.forwarded[zone]? = some id := by
  have hsame : s.nextForward = s.nextForward ∧
      ∀ (zone : Zone) (id : ℕ), s.forwarded[zone]? = some id → s.forwarded[zone]? = some id := ⟨rfl, fun _ _ => id⟩
  cases job with
  | place origin op relay => simp only [Shared.doInner]; split <;> exact hsame
  | ingest from_ op => simp only [Shared.doInner]; split <;> exact hsame
  | admitClient sid zone their forward => simp only [Shared.doInner]; split <;> exact hsame
  | admitPeer sid zone their node chunk => simp only [Shared.doInner]; split <;> exact hsame
  | recheck generation peers todo refused =>
    cases todo with
    | nil => exact hsame
    | cons e todo =>
      simp only [Shared.doInner]
      split_ifs
      · exact hsame
      · split <;> exact hsame
  | lapse id code why =>
    simp only [Shared.doInner]
    split
    · exact hsame
    · refine ⟨rfl, fun zone id hzone => ?_⟩
      rw [Std.ExtTreeMap.getElem?_erase] at hzone
      split_ifs at hzone
      exact hzone
  | dropAdmitted sid => simp only [Shared.doInner]; split_ifs <;> exact hsame
  | _ => exact hsame

include O

/-- What a step leaves orderly that changes one task's script, and no forward. -/
theorem of_scripts (w : Worker) (hothers : ∀ w', w' ≠ w → s'.scripts w' = s.scripts w')
    (hahead : ∀ sid, s'.next ≤ sid → s'.idle (.session sid)) (hforwards : s'.forwards = s.forwards)
    (hnext : s'.nextForward = s.nextForward)
    (hforwarded : ∀ (zone : Zone) (id : ℕ), s'.forwarded[zone]? = some id → s.forwarded[zone]? = some id)
    (hsends : ∀ id write, .sendUp id write ∈ s'.scripts w → s.forwards id ≠ none) : Orderly s' where
  finite := places_finite O.finite w hothers
  ahead := hahead
  fresh id hid := by
    rw [hforwards]
    exact O.fresh id (hnext ▸ hid)
  known zone id hzone := by
    rw [hforwards]
    exact O.known zone id (hforwarded zone id hzone)
  sends w' id write hmem := by
    rw [hforwards]
    by_cases hw : w' = w
    · subst hw
      exact hsends id write hmem
    · rw [hothers w' hw] at hmem
      exact O.sends w' id write hmem
  ended id forward hforward := by
    rw [hforwards] at hforward
    exact O.ended id forward hforward

/-- A task that has something to do is of no session yet to come. -/
theorem lt_next {w : Worker} (h : ¬ s.idle w) (sid : SessionId) (hsid : s.next ≤ sid) : .session sid ≠ w := by
  rintro rfl
  exact h (O.ahead sid hsid)

theorem give {w : Worker} (hw : ∀ sid, s.next ≤ sid → .session sid ≠ w) {jobs : List Job}
    (hjobs : ∀ id write, .sendUp id write ∈ jobs → s.forwards id ≠ none) : Orderly (s.give w jobs) := by
  refine O.of_scripts w (fun w' hne => by rw [Shared.give_scripts, if_neg hne]) (fun sid hsid => ?_) rfl rfl (fun _ _ => id) ?_
  · refine ⟨?_, (O.ahead sid hsid).2⟩
    rw [Shared.give_scripts, if_neg (hw sid hsid)]
    exact (O.ahead sid hsid).1
  · intro id write hmem
    rw [Shared.give_scripts, if_pos rfl] at hmem
    exact hjobs id write hmem

theorem doFirst {w : Worker} (hw : ∀ sid, s.next ≤ sid → .session sid ≠ w) {jobs : List Job}
    (hjobs : ∀ id write, .sendUp id write ∈ jobs → s.forwards id ≠ none) : Orderly (s.doFirst w jobs) := by
  refine O.of_scripts w (fun w' hne => by rw [Shared.doFirst_scripts, if_neg hne]) (fun sid hsid => ?_) rfl rfl (fun _ _ => id) ?_
  · refine ⟨?_, (O.ahead sid hsid).2⟩
    rw [Shared.doFirst_scripts, if_neg (hw sid hsid)]
    exact (O.ahead sid hsid).1
  · intro id write hmem
    rw [Shared.doFirst_scripts, if_pos rfl] at hmem
    exact (List.mem_append.mp hmem).elim (hjobs id write) (O.sends w id write)

theorem setForward {id : ℕ} (hid : s.forwards id ≠ none) {after : Forward} (hended : after.closed = true → after.owed = []) :
    Orderly (s.setForward id after) where
  finite := O.finite
  ahead := O.ahead
  fresh i hi := by
    unfold Shared.setForward
    dsimp only
    rw [Function.update_of_ne (fun heq => hid (by rw [← heq]; exact O.fresh i hi))]
    exact O.fresh i hi
  known zone i hzone := by
    unfold Shared.setForward
    dsimp only
    rw [Function.update_apply]
    split_ifs
    · simp
    · exact O.known zone i hzone
  sends w i write hmem := by
    unfold Shared.setForward
    dsimp only
    rw [Function.update_apply]
    split_ifs
    · simp
    · exact O.sends w i write hmem
  ended i forward hforward := by
    unfold Shared.setForward at hforward
    dsimp only at hforward
    rw [Function.update_apply] at hforward
    split_ifs at hforward
    · obtain rfl := Option.some.inj hforward
      exact hended
    · exact O.ended i forward hforward

theorem openForward (zone : Zone) (holder : String) : Orderly (s.openForward zone holder).2 where
  finite := O.finite
  ahead sid hsid := O.ahead sid (Nat.le_of_succ_le hsid)
  fresh i hi := by
    unfold Shared.openForward at hi ⊢
    dsimp only at hi ⊢
    rw [Function.update_of_ne (by omega)]
    exact O.fresh i (by omega)
  known zone' i hzone := by
    unfold Shared.openForward at hzone ⊢
    dsimp only at hzone ⊢
    rw [Std.ExtTreeMap.getElem?_insert] at hzone
    rw [Function.update_apply]
    by_cases hi : i = s.nextForward
    · rw [if_pos hi]
      simp
    · rw [if_neg hi]
      split_ifs at hzone
      · exact absurd (Option.some.inj hzone).symm hi
      · exact O.known zone' i hzone
  sends w i write hmem := by
    unfold Shared.openForward
    dsimp only
    rw [Function.update_apply]
    split_ifs
    · simp
    · exact O.sends w i write hmem
  ended i forward hforward := by
    unfold Shared.openForward at hforward
    dsimp only at hforward
    rw [Function.update_apply] at hforward
    split_ifs at hforward
    · obtain rfl := Option.some.inj hforward
      exact fun _ => rfl
    · exact O.ended i forward hforward

theorem doJob (w : Worker) (env : Env) (job : Job) : Orderly (s.doJob w env job).1 := by
  have F := s.doJob_frame w env job
  rcases s.doJob_forwards w env job with ⟨hforwards, hcount, hforwarded, hnext⟩ | ⟨zone, holder, -, heq⟩ |
    ⟨id, write, forward, rfl, hforward, hopen, heq⟩
  · refine O.of_scripts w (fun w' _ => by rw [F.scripts]) (fun sid hsid => ?_) hforwards hcount (fun _ _ h => hforwarded ▸ h) ?_
    · rw [Shared.idle, F.scripts, F.cut]
      exact O.ahead sid (hnext ▸ hsid)
    · rw [F.scripts]
      exact O.sends w
  · rw [heq]
    exact O.openForward zone holder
  · rw [heq]
    refine O.setForward (by simp [hforward]) fun hclosed => ?_
    rw [hopen] at hclosed
    cases hclosed

omit O in
theorem doJob_next (w : Worker) (env : Env) (job : Job) : s.next ≤ (s.doJob w env job).1.next := by
  rcases s.doJob_forwards w env job with ⟨-, -, -, hnext⟩ | ⟨zone, holder, -, heq⟩ | ⟨id, write, forward, -, -, -, heq⟩
  · exact hnext.ge
  · rw [heq]
    exact Nat.le_succ _
  · rw [heq]
    exact le_rfl

/-- A write is sent up a forward there is. -/
theorem doJob_sends (w : Worker) (env : Env) {job : Job} {id : ℕ} {write : Write}
    (h : .sendUp id write ∈ (s.doJob w env job).2.1) :
    (s.doJob w env job).1.forwards id ≠ none := by
  cases job with
  | writeUp write' holder =>
    unfold Shared.doJob at h ⊢
    dsimp only at h ⊢
    split at h
    · rename_i id' hid
      cases List.mem_singleton.mp h
      exact O.known _ _ hid
    · split_ifs at h with hlinked
      · rw [if_pos hlinked]
        cases List.mem_singleton.mp h
        unfold Shared.openForward
        simp
      · cases List.mem_singleton.mp h
  | accept sid source op placement =>
    have heq := List.mem_singleton.mp h
    rcases s.acceptance_cases sid source op placement with ⟨_, -, hjob⟩ | ⟨_, hjob⟩ | hjob <;> rw [hjob] at heq <;> cases heq
  | sendUp id' write' =>
    unfold Shared.doJob at h
    dsimp only at h
    split at h
    · cases h
    · split_ifs at h
      · cases List.mem_singleton.mp h
      · cases h
  | forwardInterest zone holder =>
    unfold Shared.doJob at h
    dsimp only at h
    split at h
    · cases h
    · split_ifs at h <;> cases h
  | _ => simp [Shared.doJob] at h

theorem run (w : Worker) (env : Env) : Orderly (s.run w env).1 := by
  have h := s.run_ran w env
  generalize s.run w env = r at h
  obtain ⟨s', did⟩ := r
  dsimp only at h ⊢
  cases h with
  | nothing => exact O
  | release hheld =>
    refine O.of_scripts w (fun _ _ => rfl) (fun sid hsid => ?_) rfl rfl (fun _ _ => id) (O.sends w)
    exact ⟨(O.ahead sid hsid).1, by simp⟩
  | inner job rest hheld =>
    have F := s.doInner_frame w env job
    obtain ⟨hnext, hforwarded⟩ := doInner_forwarded s w env job
    have hholds : ¬ s.idle w := fun hidle => hidle.2 (by rw [hheld]; rfl)
    refine O.of_scripts w (fun w' hw => F.scripts w' hw) (fun sid hsid => ?_) F.forwards hnext hforwarded ?_
    · have hsid' : s.next ≤ sid := (s.doInner_tables w env job).1 ▸ hsid
      have hne := O.lt_next hholds sid hsid'
      refine ⟨?_, by simpa using hne.symm⟩
      rw [Shared.setCut_scripts, F.scripts _ hne]
      exact (O.ahead sid hsid').1
    · intro id write hmem
      rcases s.doInner_scripts w w env job hmem with hmem | ⟨-, ⟨_, _, _, heq⟩ | ⟨_, _, heq⟩ | ⟨_, _, _, _, _, _, _, heq⟩⟩
      · exact O.sends w id write hmem
      all_goals cases heq
  | take inner rest hfree hscript =>
    have hholds : ¬ s.idle w := fun hidle => by simp [hidle.1] at hscript
    refine O.of_scripts w (fun w' hw => ?_) (fun sid hsid => ?_) rfl rfl (fun _ _ => id) ?_
    · rw [Shared.setCut_scripts, Shared.give_scripts, if_neg hw]
    · have hne := O.lt_next hholds sid hsid
      refine ⟨?_, by simpa using hne.symm⟩
      rw [Shared.setCut_scripts, Shared.give_scripts, if_neg hne]
      exact (O.ahead sid hsid).1
    · intro id write hmem
      rw [Shared.setCut_scripts, Shared.give_scripts, if_pos rfl] at hmem
      exact O.sends w id write (hscript ▸ List.mem_cons_of_mem _ hmem)
  | outer job rest hfree hscript hcut =>
    have hbusy : ¬ s.idle w := fun hidle => by simp [hidle.1] at hscript
    have O₁ := O.give (O.lt_next hbusy) fun id write hmem => O.sends w id write (hscript ▸ List.mem_cons_of_mem job hmem)
    refine (O₁.doJob w env job).doFirst (fun sid hsid => O.lt_next hbusy sid (le_trans ?_ hsid)) fun id write hmem => ?_
    · exact doJob_next (s := s.give w rest) w env job
    · exact O₁.doJob_sends w env hmem

/-- A task of no session yet to come is given jobs that send up no write. -/
theorem of_give {w : Worker} {jobs : List Job} (hw : ∀ sid, s'.next ≤ sid → .session sid ≠ w)
    (hjobs : ∀ id write, .sendUp id write ∉ jobs) (hscripts : s'.scripts = (s.give w jobs).scripts) (hcut : s'.cut = s.cut)
    (hnext : s.next ≤ s'.next) (hforwards : s'.forwards = s.forwards) (hcount : s'.nextForward = s.nextForward)
    (hforwarded : s'.forwarded = s.forwarded) : Orderly s' := by
  refine O.of_scripts w (fun w' hne => ?_) (fun sid hsid => ?_) hforwards hcount
    (fun _ _ h => hforwarded ▸ h) fun id write hmem => ?_
  · rw [hscripts, Shared.give_scripts, if_neg hne]
  · refine ⟨?_, ?_⟩
    · rw [hscripts, Shared.give_scripts, if_neg (hw sid hsid)]
      exact (O.ahead sid (hnext.trans hsid)).1
    · rw [hcut]
      exact (O.ahead sid (hnext.trans hsid)).2
  · rw [hscripts, Shared.give_scripts, if_pos rfl] at hmem
    exact absurd hmem (hjobs id write)

theorem forwardRuns (id : ℕ) (e : Event) : Orderly (s.forwardRuns id e).1 := by
  rcases s.forwardRuns_handed id e with heq | ⟨forward, after, jobs, hforward, -, H⟩
  · rw [heq]
    exact O
  · rw [H.eq]
    exact (O.setForward (by simp [hforward]) H.ended).of_give (fun _ _ => by simp) H.sends rfl rfl le_rfl rfl rfl rfl

theorem event {t : List Happening} (K : Kept t s) {e : Event} (he : ∀ w env, e ≠ .run w env) : Orderly (s.step e).1 := by
  have hopened : ∀ {sid : SessionId} {source : Source}, s.loops[sid]? = some source →
      ∀ sid', s.next ≤ sid' → Worker.session sid' ≠ .session sid := by
    intro sid source hloop sid' hle heq
    obtain rfl := Worker.session.inj heq
    exact absurd (K.next sid' source (K.loops sid' source hloop)) hle.not_gt
  cases e with
  | run w env => exact absurd rfl (he w env)
  | connect =>
    refine O.of_scripts (.session s.next) (fun _ _ => rfl) (fun sid hsid => ?_) rfl rfl (fun _ _ => id) (O.sends _)
    exact O.ahead sid (Nat.le_of_succ_le hsid)
  | peerSubscribe node zone from_ chunk =>
    refine O.of_give (w := .session s.next) (fun sid hsid heq => ?_) (by simp) rfl rfl (Nat.le_succ _) rfl rfl rfl
    obtain rfl := Worker.session.inj heq
    exact Nat.not_succ_le_self _ hsid
  | hello sid heads principal =>
    unfold Shared.step
    dsimp only
    split
    case h_2 => exact O
    rename_i hloop
    split_ifs
    case neg => exact O
    exact O.of_give (hopened hloop) (by simp) rfl rfl le_rfl rfl rfl rfl
  | subscribe sid zone route =>
    unfold Shared.step
    dsimp only
    split
    case h_2 => exact O
    rename_i hloop
    split_ifs
    case neg => exact O
    cases route <;> exact O.of_give (hopened hloop) (by simp) rfl rfl le_rfl rfl rfl rfl
  | ops sid ops routes =>
    unfold Shared.step
    dsimp only
    split
    case h_2 => exact O
    rename_i hloop
    split_ifs
    case neg => exact O
    exact O.of_give (hopened hloop) (by simp) rfl rfl le_rfl rfl rfl rfl
  | disconnect sid =>
    unfold Shared.step
    dsimp only
    split
    case h_2 => exact O
    rename_i source hloop
    split_ifs
    case neg => exact O
    cases source <;> exact O.of_give (hopened hloop) (by simp) rfl rfl le_rfl rfl rfl rfl
  | ingest id op =>
    unfold Shared.step
    dsimp only
    split_ifs
    case neg => exact O
    exact O.of_give (by simp) (by simp) rfl rfl (Nat.le_succ _) rfl rfl rfl
  | refresh id fold =>
    unfold Shared.step
    dsimp only
    split_ifs
    case neg => exact O
    exact O.of_give (by simp) (by simp) rfl rfl le_rfl rfl rfl rfl
  | bringBack id zone holder =>
    unfold Shared.step
    dsimp only
    split_ifs
    case neg => exact O
    exact O.of_give (by simp) (by simp) rfl rfl le_rfl rfl rfl rfl
  | carry id sent => exact O.forwardRuns id _
  | arrive id ops => exact O.forwardRuns id _
  | holderAnswers id answer => exact O.forwardRuns id _
  | expire id count => exact O.forwardRuns id _
  | forwardEnds id refused => exact O.forwardRuns id _

theorem step {t : List Happening} (K : Kept t s) (e : Event) : Orderly (s.step e).1 := by
  by_cases he : ∀ w env, e ≠ .run w env
  · exact O.event K he
  · simp only [not_forall, not_not] at he
    obtain ⟨w, env, rfl⟩ := he
    exact O.run w env

end Orderly

theorem orderly_new (C : Crypto) (clientGrants : Bool) : Orderly (Shared.new C clientGrants) where
  finite := by
    have hnone : places (Shared.new C clientGrants).scripts = ∅ := by
      apply Set.eq_empty_of_forall_notMem
      intro w hw
      exact hw rfl
    rw [hnone]
    exact Set.finite_empty
  ahead _ _ := ⟨rfl, by simp [Shared.new]⟩
  fresh _ _ := rfl
  known zone id h := by simp [Shared.new] at h
  sends w id write h := by cases h
  ended id forward h := by cases h

end Glade.Node.Serving
