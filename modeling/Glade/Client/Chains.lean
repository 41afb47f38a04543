import Glade.Client.Flights
import Glade.Client.Link

/-! A client's chains stay in order and move on, however its tasks interleave. Between
an op's letting go and its frame's write, and between a status and the start of its
zone's timer, other tasks go on. In the runs whose steps keep to `Spares`, no op is
written past an op of its chain that is kept as not placed and not in flight, what is
sent again goes in its chain's order, and a zone with an op to send again has its one
timer. -/

namespace Glade.Client

open Wire Node

variable {W S : Type*} {C : Crypto}

/-! ### Jobs to come -/

/-- Whether a task's frames of ops are ops sent again: a zone's resend loop does so at
its ticks, and a read loop as subscribes return. -/
def Worker.sendsAgain : Worker → Bool
  | .call _ => false
  | .reader _ | .resender _ _ => true

namespace Job

/-- The ops let go that a job is to write. -/
def unwritten : Job W S → List Op
  | .pick ops | .write _ ops => ops
  | _ => []

/-- The ops a job is to send, in its order. -/
def batch : Job W S → List Op
  | .check ops | .letGo ops => ops.map Prod.fst
  | .pick ops | .write _ ops => ops
  | _ => []

/-- The zone whose timer a job comes to start. -/
def starts : Job W S → Option Zone
  | .answered x => some (zoneOf x.op)
  | .startResending zone => some zone
  | _ => none

/-- Whether a job is of a node's error. -/
def ofError : Job W S → Bool
  | .reason _ | .refusedAfterAck _ | .status _ | .answered _ | .startResending _ => true
  | _ => false

/-- Whether a job leaves the ops sent, the resend loops and the writer as they are. -/
def quiet : Job W S → Bool
  | .make _ | .letGo _ | .unlink | .endSends | .link _ | .status _ | .startResending _ | .nextResend _ | .resendTick _ _ => false
  | _ => true

/-- What is sent again goes in its chains' order, and errors are for read loops. -/
structure Fits (w : Worker) (job : Job W S) : Prop where
  ordered : w.sendsAgain = true → InChainOrder job.batch
  reader : job.ofError = true → ∃ connection, w = .reader connection

/-- The jobs a job leads to: they fit its task, write what it was to write, and one
starts the timer it was to start. -/
structure Follows (w : Worker) (job : Job W S) (more : List (Job W S)) : Prop where
  fits : ∀ job' ∈ more, job'.Fits w
  unwritten : ∀ job' ∈ more, ∀ x ∈ job'.unwritten, x ∈ job.unwritten
  starts : ∀ zone, job.starts = some zone → ∃ job' ∈ more, job'.starts = some zone

/-- A job that sends nothing and is of no error. -/
structure Plain (job : Job W S) : Prop where
  batch : job.batch = []
  ofError : job.ofError = false
  unwritten : job.unwritten = []

theorem Plain.fits {w : Worker} {job : Job W S} (h : job.Plain) : job.Fits w where
  ordered := fun _ => by
    rw [h.batch]
    exact List.Pairwise.nil
  reader := fun herror => by
    rw [h.ofError] at herror
    cases herror

theorem Follows.plain {w : Worker} {job : Job W S} {more : List (Job W S)} (hstarts : job.starts = none)
    (hmore : ∀ job' ∈ more, job'.Plain) : job.Follows w more where
  fits job' hjob' := (hmore job' hjob').fits
  unwritten job' hjob' x hx := by
    rw [(hmore job' hjob').unwritten] at hx
    cases hx
  starts zone hzone := by
    rw [hstarts] at hzone
    cases hzone

theorem Follows.nil {w : Worker} {job : Job W S} (hstarts : job.starts = none) : job.Follows w [] :=
  .plain hstarts fun job' hjob' => by cases hjob'

/-- One job that sends the same ops, and is of an error if the first is. -/
theorem Follows.one {w : Worker} {job job' : Job W S} (h : job.Fits w) (hstarts : job.starts = none)
    (hbatch : job'.batch = job.batch) (herror : job'.ofError = true → job.ofError = true)
    (hunwritten : job'.unwritten = job.unwritten) : job.Follows w [job'] where
  fits := by
    intro job hjob
    obtain rfl := List.mem_singleton.mp hjob
    exact ⟨fun hw => hbatch ▸ h.ordered hw, fun he => h.reader (herror he)⟩
  unwritten := by
    intro job hjob x hx
    obtain rfl := List.mem_singleton.mp hjob
    exact hunwritten ▸ hx
  starts zone hzone := by
    rw [hstarts] at hzone
    cases hzone

theorem Follows.shipAgain {w : Worker} {job last : Job W S} {ops : List Op} (hstarts : job.starts = none)
    (hops : InChainOrder ops) (hlast : last.Plain) : job.Follows w (shipAgain ops ++ [last]) := by
  have hbatch : (unawaited (W := W) ops).map Prod.fst = ops := by simp [unawaited, Function.comp_def]
  have hmem : ∀ job' ∈ (Client.shipAgain ops : List (Job W S)) ++ [last], job' = .check (unawaited ops) ∨ job' = last := by
    intro job' hjob'
    unfold Client.shipAgain ship at hjob'
    split_ifs at hjob'
    · exact .inr (List.mem_singleton.mp hjob')
    · simpa using hjob'
    · exact .inr (List.mem_singleton.mp hjob')
  refine ⟨fun job' hjob' => ?_, fun job' hjob' x hx => ?_, fun zone hzone => ?_⟩
  · rcases hmem job' hjob' with rfl | rfl
    · exact ⟨fun _ => by rwa [batch, hbatch], fun h => by cases h⟩
    · exact hlast.fits
  · rcases hmem job' hjob' with rfl | rfl
    · cases hx
    · rw [hlast.unwritten] at hx
      cases hx
  · rw [hstarts] at hzone
    cases hzone

end Job

namespace GladeClient

/-- An op let go, whose frame is still to be written. -/
def Unwritten (c : GladeClient W S) (x : Op) : Prop := ∃ w, ∃ job ∈ c.scripts w, x ∈ job.unwritten

/-- A read loop has a status of the zone answered, and comes to start its timer. -/
def Starting (c : GladeClient W S) (zone : Zone) : Prop := ∃ w, ∃ job ∈ c.scripts w, job.starts = some zone

def Timed (c : GladeClient W S) (zone : Zone) : Prop := zone ∈ c.answers.timers ∨ c.Starting zone

variable (C) in
/-- What a task's next job has to keep to, the connection having been given the ops of `wire`:
- ops let go push out no op kept as not placed, unless its zone's timer runs and no
  later op of its chain is unwritten or let go with them;
- an op that is written when no longer in flight has no op of its chain before it kept as
  not placed, and is not so kept itself if the frame is the current connection's;
- the sends end only if the connection has been given no op kept as not placed, and none of
  its chain after it;
- a status finds no op not placed with a later op of its chain unwritten;
- a zone sent again keeps no two ops of a chain at one seq. -/
def Keeps (c : GladeClient W S) (wire : List Op) (through : Bool) : Job W S → Prop
  | .make a =>
    match c.session.append C a.share a.gladeId a.shape a.payload a.key with
    | .error _ => True
    | .ok (op, _) => Answers.Spares C (fun x => c.Unwritten x ∨ x = op) c.answers [(op, a.waiter)]
  | .letGo ops => Answers.Spares C (fun x => c.Unwritten x ∨ x ∈ ops.map Prod.fst) c.answers ops
  | .write connection ops => through = true → ∀ op ∈ ops, c.answers.inFlight op = false →
      c.answers.unplacedBefore op = [] ∧ (op ∈ c.answers.unplaced → c.writer ≠ some connection)
  | .endSends => ∀ k ∈ c.answers.unplaced, ∀ x ∈ wire, ¬ AtOrAfter k x
  | .status status => ∀ k, c.answers.Unplaces status k → ∀ x, c.Unwritten x → ¬ (sameChain k x ∧ k.seq < x.seq)
  | .resume done => c.answers.Unforked done.zone
  | .resendTick zone _ => c.answers.Unforked zone
  | _ => True

variable (C) in
/-- A step's jobs keep to `Keeps`, and no read loop is dropped that comes to start a timer. -/
def Spares (c : GladeClient W S) (wire : List Op) : Event W S → Prop
  | .run w through => ∀ job rest, c.scripts w = job :: rest → c.Keeps C wire through job
  | .drop w => ∀ job ∈ c.scripts w, ∀ zone, job.starts = some zone → (c.answers.startResending zone).1 = none
  | _ => True

/-- The ops written on a connection. -/
def opsOn (connection : Option ℕ) (did : List (Happening W S)) : List Op :=
  did.flatMap fun happening => match happening with
    | .wrote written (.ops ops) => if connection = some written then ops else []
    | _ => []

/-- What the client's current connection has been given, after a step. -/
def wireAfter (wire : List Op) (c c' : GladeClient W S) (did : List (Happening W S)) : List Op :=
  if c'.writer = c.writer then wire ++ opsOn c.writer did else []

/-- What keeps a client's chains moving, its connection having been given the ops of
`wire`. -/
structure Moving (c : GladeClient W S) (wire : List Op) : Prop where
  awaited : c.answers.Awaited c.Timed wire
  behind : c.answers.Behind c.Unwritten
  fits : ∀ w, ∀ job ∈ c.scripts w, job.Fits w
  nodup : c.answers.unplaced.Nodup
  looped : ∀ zone timer, c.answers.timers[zone]? = some timer → (zone, timer) ∈ c.loops
  numbered : (c.loops.map Prod.snd).Nodup
  counted : ∀ l ∈ c.loops, l.2 ≤ c.answers.timerCount

/-! ### A task's script -/

@[simp] theorem give_self (c : GladeClient W S) (w : Worker) (jobs : List (Job W S)) : (c.give w jobs).scripts w = jobs :=
  Function.update_self ..

theorem give_of_ne (c : GladeClient W S) {w w' : Worker} (jobs : List (Job W S)) (h : w' ≠ w) :
    (c.give w jobs).scripts w' = c.scripts w' :=
  Function.update_of_ne h ..

theorem unwritten_of_give {c : GladeClient W S} {w : Worker} {jobs : List (Job W S)} {x : Op} (h : (c.give w jobs).Unwritten x) :
    c.Unwritten x ∨ ∃ job ∈ jobs, x ∈ job.unwritten := by
  obtain ⟨w', job, hjob, hx⟩ := h
  by_cases hw : w' = w
  · subst hw
    rw [give_self] at hjob
    exact .inr ⟨job, hjob, hx⟩
  · rw [give_of_ne c jobs hw] at hjob
    exact .inl ⟨w', job, hjob, hx⟩

theorem starting_give {c : GladeClient W S} {w : Worker} {jobs : List (Job W S)} {zone : Zone} (h : c.Starting zone)
    (hkept : ∀ job ∈ c.scripts w, job.starts = some zone → ∃ job' ∈ jobs, job'.starts = some zone) :
    (c.give w jobs).Starting zone := by
  obtain ⟨w', job, hjob, hzone⟩ := h
  by_cases hw : w' = w
  · subst hw
    obtain ⟨job', hjob', hzone'⟩ := hkept job hjob hzone
    exact ⟨w', job', by rwa [give_self], hzone'⟩
  · exact ⟨w', job, by rwa [give_of_ne c jobs hw], hzone⟩

theorem fits_give {c : GladeClient W S} {w : Worker} {jobs : List (Job W S)} (h : ∀ w, ∀ job ∈ c.scripts w, job.Fits w)
    (hjobs : ∀ job ∈ jobs, job.Fits w) : ∀ w', ∀ job ∈ (c.give w jobs).scripts w', job.Fits w' := by
  intro w' job hjob
  by_cases hw : w' = w
  · subst hw
    rw [give_self] at hjob
    exact hjobs job hjob
  · rw [give_of_ne c jobs hw] at hjob
    exact h w' job hjob

/-- A task is given other jobs: none writes what was not to be written, and the timers it
comes to start it starts still, or need no start. -/
theorem Moving.give {c : GladeClient W S} {wire : List Op} (h : c.Moving wire) {w : Worker} {jobs : List (Job W S)}
    (hfits : ∀ job ∈ jobs, job.Fits w) (hunwritten : ∀ job ∈ jobs, ∀ x ∈ job.unwritten, c.Unwritten x)
    (hstarts : ∀ job ∈ c.scripts w, ∀ zone, job.starts = some zone →
      (c.answers.startResending zone).1 = none ∨ ∃ job' ∈ jobs, job'.starts = some zone) : (c.give w jobs).Moving wire where
  awaited := by
    intro k hk htimed
    refine h.awaited k hk fun htimed' => ?_
    rcases htimed' with htimer | hstarting
    · exact htimed (.inl htimer)
    by_cases hnone : (c.answers.startResending (zoneOf k)).1 = none
    · rcases Answers.startResending_eq_none hnone with htimer | hall
      · exact htimed (.inl htimer)
      · exact hall k hk rfl
    · exact htimed (.inr (starting_give hstarting fun job hjob hzone => (hstarts job hjob _ hzone).resolve_left hnone))
  behind := by
    intro x hx
    refine h.behind x ?_
    rcases unwritten_of_give hx with hx | ⟨job, hjob, hx⟩
    · exact hx
    · exact hunwritten job hjob x hx
  fits := fits_give h.fits hfits
  nodup := h.nodup
  looped := h.looped
  numbered := h.numbered
  counted := h.counted

/-- What changes the session, the subscribes and the read loops only. -/
theorem Moving.of_eq {c c' : GladeClient W S} {wire : List Op} (h : c.Moving wire) (hanswers : c'.answers = c.answers)
    (hloops : c'.loops = c.loops) (hscripts : c'.scripts = c.scripts) (hwriter : c'.writer = c.writer) : c'.Moving wire := by
  obtain ⟨session, answers, subscribes, writer, connections, readTask, aborted, reading, loops, scripts⟩ := c
  obtain ⟨session', answers', subscribes', writer', connections', readTask', aborted', reading', loops', scripts'⟩ := c'
  obtain rfl : answers' = answers := hanswers
  obtain rfl : loops' = loops := hloops
  obtain rfl : scripts' = scripts := hscripts
  obtain rfl : writer' = writer := hwriter
  exact ⟨h.awaited, h.behind, h.fits, h.nodup, h.looped, h.numbered, h.counted⟩

/-- A task has done its job, and goes on to the jobs it leads to. -/
theorem Moving.goOn {c : GladeClient W S} {wire : List Op} (h : c.Moving wire) {w : Worker} {job : Job W S}
    {more rest : List (Job W S)} (hscript : c.scripts w = job :: rest) (hfollows : job.Follows w more) :
    (c.give w (more ++ rest)).Moving wire := by
  have hrest : ∀ job' ∈ rest, job' ∈ c.scripts w := fun job' hjob' => hscript ▸ List.mem_cons_of_mem _ hjob'
  refine h.give (fun job' hjob' => ?_) (fun job' hjob' x hx => ?_) (fun job' hjob' zone hzone => ?_)
  · rcases List.mem_append.mp hjob' with hjob' | hjob'
    · exact hfollows.fits job' hjob'
    · exact h.fits w job' (hrest job' hjob')
  · rcases List.mem_append.mp hjob' with hjob' | hjob'
    · exact ⟨w, job, hscript ▸ List.mem_cons_self, hfollows.unwritten job' hjob' x hx⟩
    · exact ⟨w, job', hrest job' hjob', hx⟩
  · rw [hscript] at hjob'
    rcases List.mem_cons.mp hjob' with rfl | hjob'
    · obtain ⟨job'', hjob'', hzone'⟩ := hfollows.starts zone hzone
      exact .inr ⟨job'', List.mem_append_left _ hjob'', hzone'⟩
    · exact .inr ⟨job', List.mem_append_right _ hjob', hzone⟩

/-! ### Jobs that change the answers -/

/-- What an op let go leads to. -/
theorem letGo_jobs (c : GladeClient W S) (ops : List (Op × Option W)) :
    (c.letGo C ops).2 = (c.answers.toSend C ops).2.1.map .report ++
      if (c.answers.toSend C ops).1 = [] then [] else [.pick (c.answers.toSend C ops).1] := rfl

theorem mem_letGo {c : GladeClient W S} {ops : List (Op × Option W)} {job : Job W S} (h : job ∈ (c.letGo C ops).2) :
    (∃ x, job = .report x) ∨ job = .pick (c.answers.toSend C ops).1 := by
  rw [letGo_jobs] at h
  rcases List.mem_append.mp h with h | h
  · obtain ⟨x, -, rfl⟩ := List.mem_map.mp h
    exact .inl ⟨x, rfl⟩
  · split_ifs at h
    · cases h
    · exact .inr (List.mem_singleton.mp h)

/-- Ops handed to `toSend` go behind those of their chains before them. -/
theorem Moving.letGo {c : GladeClient W S} {wire : List Op} (h : c.Moving wire) {w : Worker} {job : Job W S}
    {rest : List (Job W S)} {ops : List (Op × Option W)} {later : Op → Prop} (hscript : c.scripts w = job :: rest)
    (hstarts : job.starts = none) (hordered : w.sendsAgain = true → InChainOrder (ops.map Prod.fst))
    (hspares : Answers.Spares C later c.answers ops) (hlater : ∀ x, c.Unwritten x ∨ x ∈ ops.map Prod.fst → later x) :
    ((c.letGo C ops).1.give w ((c.letGo C ops).2 ++ rest)).Moving wire := by
  have htimers := c.answers.toSend_timers (C := C) ops
  have hrest : ∀ job' ∈ rest, job' ∈ c.scripts w := fun job' hjob' => hscript ▸ List.mem_cons_of_mem _ hjob'
  constructor
  case awaited =>
    have hawaited := Answers.toSend_awaited (fun _ hzone => .inl hzone) h.awaited hspares
    intro k hk htimed
    refine hawaited k hk fun htimed' => htimed ?_
    rcases htimed' with htimer | hstarting
    · exact .inl (htimers.1.symm ▸ htimer)
    · refine .inr (starting_give (c := (c.letGo C ops).1) hstarting fun job' hjob' hzone => ?_)
      have hjob' : job' ∈ job :: rest := hscript ▸ hjob'
      rcases List.mem_cons.mp hjob' with rfl | hjob'
      · rw [hstarts] at hzone
        cases hzone
      · exact ⟨job', List.mem_append_right _ hjob', hzone⟩
  case behind =>
    have hbehind := Answers.toSend_behind h.behind hspares hlater
    intro x hx
    refine hbehind x ?_
    rcases unwritten_of_give hx with hx | ⟨job', hjob', hx⟩
    · exact .inl hx
    · rcases List.mem_append.mp hjob' with hjob' | hjob'
      · rcases mem_letGo hjob' with ⟨y, rfl⟩ | rfl
        · cases hx
        · exact .inr hx
      · exact .inl ⟨w, job', hrest job' hjob', hx⟩
  case fits =>
    refine fits_give (c := (c.letGo C ops).1) h.fits fun job' hjob' => ?_
    rcases List.mem_append.mp hjob' with hjob' | hjob'
    · rcases mem_letGo hjob' with ⟨y, rfl⟩ | rfl
      · exact Job.Plain.fits ⟨rfl, rfl, rfl⟩
      · exact ⟨fun hw => (hordered hw).sublist (c.answers.toSend_sublist ops), fun h => by cases h⟩
    · exact h.fits w job' (hrest job' hjob')
  case nodup => exact (c.answers.toSend_accounts C ops).nodup h.nodup
  case looped => exact fun zone timer htimer => h.looped zone timer (htimers.1 ▸ htimer)
  case numbered => exact h.numbered
  case counted => exact fun l hl => (h.counted l hl).trans_eq htimers.2.symm

/-- A status that answers an op has its zone's timer come to start. -/
theorem Moving.status {c : GladeClient W S} {wire : List Op} (h : c.Moving wire) {w : Worker} {status : Error}
    {rest : List (Job W S)} {x : Answered W} (hscript : c.scripts w = .status status :: rest)
    (hspares : ∀ k, c.answers.Unplaces status k → ∀ x, c.Unwritten x → ¬ (sameChain k x ∧ k.seq < x.seq))
    (hx : (c.answers.status c.session status).1 = some x) :
    ({ c with answers := (c.answers.status c.session status).2.1, session := (c.answers.status c.session status).2.2 }.give w
      (.answered x :: rest)).Moving wire := by
  have htimers := c.answers.status_timers c.session status
  have hrest : ∀ job' ∈ rest, job' ∈ c.scripts w := fun job' hjob' => hscript ▸ List.mem_cons_of_mem _ hjob'
  have hreader := (h.fits w _ (hscript ▸ List.mem_cons_self)).reader rfl
  set c' : GladeClient W S :=
    { c with answers := (c.answers.status c.session status).2.1, session := (c.answers.status c.session status).2.2 }
  constructor
  case awaited =>
    refine Answers.status_awaited h.awaited hx (.inr ⟨w, .answered x, ?_, rfl⟩) fun zone hzone htimed => ?_
    · rw [give_self]
      exact List.mem_cons_self
    rcases htimed with htimer | hstarting
    · rcases c.answers.status_spec c.session status with heq | ⟨y, -, -, hy, -, -, -, hothers⟩
      · rw [heq] at hx
        cases hx
      · obtain rfl := Option.some.inj (hx.symm.trans hy)
        exact .inl ((hothers zone hzone).mpr htimer)
    · refine .inr (starting_give (c := c') hstarting fun job' hjob' hzone' => ?_)
      have hjob' : job' ∈ Job.status status :: rest := hscript ▸ hjob'
      rcases List.mem_cons.mp hjob' with rfl | hjob'
      · cases hzone'
      · exact ⟨job', List.mem_cons_of_mem _ hjob', hzone'⟩
  case behind =>
    have hbehind := Answers.status_behind c.session h.behind hspares
    intro y hy
    refine hbehind y ?_
    rcases unwritten_of_give hy with hy | ⟨job', hjob', hy⟩
    · exact hy
    · rcases List.mem_cons.mp hjob' with rfl | hjob'
      · cases hy
      · exact ⟨w, job', hrest job' hjob', hy⟩
  case fits =>
    refine fits_give (c := c') h.fits fun job' hjob' => ?_
    rcases List.mem_cons.mp hjob' with rfl | hjob'
    · exact ⟨fun _ => List.Pairwise.nil, fun _ => hreader⟩
    · exact h.fits w job' (hrest job' hjob')
  case nodup => exact (c.answers.status_accounts c.session status).nodup h.nodup
  case looped => exact fun zone timer hzone => h.looped zone timer (htimers.1 zone timer hzone)
  case numbered => exact h.numbered
  case counted => exact fun l hl => (h.counted l hl).trans_eq htimers.2.symm

/-- A zone's new timer has its loop. -/
theorem Moving.startTimer {c : GladeClient W S} {wire : List Op} (h : c.Moving wire) (zone : Zone) :
    { c with
      answers := { c.answers with
        timers := c.answers.timers.insert zone (c.answers.timerCount + 1), timerCount := c.answers.timerCount + 1 }
      loops := c.loops ++ [(zone, c.answers.timerCount + 1)] }.Moving wire := by
  refine ⟨?_, h.behind, h.fits, h.nodup, ?_, ?_, ?_⟩
  · intro k hk htimed
    refine h.awaited k hk fun htimed' => htimed ?_
    rcases htimed' with htimer | hstarting
    · exact .inl (Std.ExtTreeMap.mem_insert.mpr (.inr htimer))
    · exact .inr hstarting
  · intro zone' timer htimer
    rw [Std.ExtTreeMap.getElem?_insert] at htimer
    split at htimer
    case isTrue heq =>
      rw [Std.LawfulEqOrd.compare_eq_iff_eq] at heq
      simp [heq, ← Option.some.inj htimer]
    case isFalse => exact List.mem_append_left _ (h.looped zone' timer htimer)
  · rw [List.map_append]
    refine List.nodup_append.mpr ⟨h.numbered, by simp, ?_⟩
    intro n hn m hm
    obtain ⟨l, hl, rfl⟩ := List.mem_map.mp hn
    obtain rfl : m = c.answers.timerCount + 1 := by simpa using hm
    have := h.counted l hl
    omega
  · intro l hl
    rcases List.mem_append.mp hl with hl | hl
    · exact (h.counted l hl).trans (Nat.le_succ _)
    · rw [List.mem_singleton.mp hl]

/-- The sends end: an op kept as not placed is not on the connection, nor is one after it. -/
theorem Moving.endSends {c : GladeClient W S} {wire : List Op} (h : c.Moving wire)
    (hwire : ∀ k ∈ c.answers.unplaced, ∀ x ∈ wire, ¬ AtOrAfter k x) : { c with answers := c.answers.ended.2 }.Moving wire where
  awaited := fun k hk _ _ => hwire k hk
  behind := by
    intro x _ hflight
    cases hflight
  fits := h.fits
  nodup := h.nodup
  looped zone timer htimer := by
    have htimer : (∅ : Std.ExtTreeMap Zone ℕ)[zone]? = some timer := htimer
    simp at htimer
  numbered := h.numbered
  counted := h.counted

theorem Moving.nextResend {c : GladeClient W S} {wire : List Op} (h : c.Moving wire) (zone : Zone) :
    { c with answers := (c.answers.nextResend zone).2 }.Moving wire :=
  ⟨h.awaited, h.behind, h.fits, h.nodup, h.looped, h.numbered, h.counted⟩

/-- A loop whose timer has stopped ends: its zone's timer, if any, is another. -/
theorem Moving.endLoop {c : GladeClient W S} {wire : List Op} (h : c.Moving wire) {zone : Zone} {timer : ℕ}
    (hstopped : c.answers.resendTick zone timer = none) : { c with loops := c.loops.erase (zone, timer) }.Moving wire := by
  have hother : c.answers.timers[zone]? ≠ some timer := by
    intro htimer
    simp [Answers.resendTick, htimer] at hstopped
  refine ⟨h.awaited, h.behind, h.fits, h.nodup, ?_, h.numbered.sublist (List.erase_sublist.map _), ?_⟩
  · intro zone' timer' htimer
    refine (List.mem_erase_of_ne ?_).mpr (h.looped zone' timer' htimer)
    rintro heq
    obtain ⟨rfl, rfl⟩ := Prod.mk.inj heq
    exact hother htimer
  · exact fun l hl => h.counted l (List.mem_of_mem_erase hl)

/-- A writer comes or goes: nothing has been written on it. -/
theorem Moving.setWriter {c : GladeClient W S} {wire : List Op} (h : c.Moving wire) (writer : Option ℕ) (reading : Finset ℕ) :
    { c with writer, reading }.Moving [] where
  awaited := by
    intro k _ _ _ x hx
    cases hx
  behind := h.behind
  fits := h.fits
  nodup := h.nodup
  looped := h.looped
  numbered := h.numbered
  counted := h.counted

/-- A frame of ops reaches the wire with the ops of their chains before them placed or in
flight. -/
theorem Moving.wrote {c : GladeClient W S} {wire : List Op} (h : c.Moving wire) {w : Worker} {connection : ℕ} {ops : List Op}
    {rest : List (Job W S)} (hscript : c.scripts w = .write connection ops :: rest)
    (hkeeps : c.Keeps C wire true (.write connection ops)) :
    c.Moving (wire ++ opsOn c.writer ([.wrote connection (.ops ops)] : List (Happening W S))) where
  awaited := by
    intro k hk htimed hflight x hx hafter
    rcases List.mem_append.mp hx with hx | hx
    · exact h.awaited k hk htimed hflight x hx hafter
    have hx : x ∈ ops ∧ c.writer = some connection := by
      unfold opsOn at hx
      by_cases hcurrent : c.writer = some connection
      · exact ⟨by simpa [hcurrent] using hx, hcurrent⟩
      · simp [hcurrent] at hx
    by_cases hxf : x ∈ c.answers.flights
    · rcases hafter with rfl | ⟨hchain, hseq⟩
      · exact hflight hxf
      · exact hflight (h.behind x ⟨w, .write connection ops, hscript ▸ List.mem_cons_self, hx.1⟩ hxf k hk hchain hseq)
    · have hout : c.answers.inFlight x = false := by
        rw [← Bool.not_eq_true, Answers.inFlight_iff]
        exact hxf
      obtain ⟨hbefore, hcurrent⟩ := hkeeps rfl x hx.1 hout
      rcases hafter with rfl | ⟨hchain, hseq⟩
      · exact hcurrent hk hx.2
      · have hmem : k ∈ c.answers.unplacedBefore x := by
          unfold Answers.unplacedBefore
          exact List.mem_filter.mpr ⟨hk, by simp [hchain, hseq]⟩
        rw [hbefore] at hmem
        cases hmem
  behind := h.behind
  fits := h.fits
  nodup := h.nodup
  looped := h.looped
  numbered := h.numbered
  counted := h.counted

/-! ### Steps -/

theorem doJob_quiet (c : GladeClient W S) (through : Bool) {job : Job W S} (hquiet : job.quiet = true) :
    (c.doJob C through job).1.answers = c.answers ∧ (c.doJob C through job).1.loops = c.loops ∧
      (c.doJob C through job).1.scripts = c.scripts ∧ (c.doJob C through job).1.writer = c.writer := by
  cases job with
  | make | letGo | unlink | endSends | link | status | startResending | nextResend | resendTick => cases hquiet
  | subscribe zone waiter =>
    unfold doJob
    dsimp only
    split
    · exact ⟨rfl, rfl, rfl, rfl⟩
    · split_ifs <;> exact ⟨rfl, rfl, rfl, rfl⟩
  | apply | acked | reason =>
    unfold doJob
    dsimp only
    split <;> exact ⟨rfl, rfl, rfl, rfl⟩
  | refusedAfterAck status =>
    unfold doJob
    dsimp only
    split_ifs <;> exact ⟨rfl, rfl, rfl, rfl⟩
  | _ => exact ⟨rfl, rfl, rfl, rfl⟩

theorem plain_resumes (done : List (Subscribed S)) : ∀ job ∈ (done.map .resume : List (Job W S)), job.Plain := by
  intro job hjob
  obtain ⟨d, -, rfl⟩ := List.mem_map.mp hjob
  exact ⟨rfl, rfl, rfl⟩

theorem doJob_follows {c : GladeClient W S} {wire : List Op} {through : Bool} {w : Worker} {job : Job W S} (hquiet : job.quiet = true)
    (hfits : job.Fits w) (hnodup : c.answers.unplaced.Nodup) (hkeeps : c.Keeps C wire through job) :
    job.Follows w (c.doJob C through job).2.1 := by
  have hone : ∀ job : Job W S, job.Plain → ∀ job' ∈ [job], job'.Plain := by
    rintro job h job' hjob'
    exact List.mem_singleton.mp hjob' ▸ h
  cases job with
  | make | letGo | unlink | endSends | link | status | startResending | nextResend | resendTick => cases hquiet
  | append a =>
    unfold doJob
    dsimp only
    split_ifs
    · exact .plain rfl (hone _ ⟨rfl, rfl, rfl⟩)
    · exact .nil rfl
  | check ops =>
    unfold doJob
    dsimp only
    split_ifs
    · exact .one hfits rfl rfl id rfl
    · exact .nil rfl
  | pick ops =>
    unfold doJob
    dsimp only
    cases c.writer with
    | none => exact .nil rfl
    | some connection => exact .one hfits rfl rfl id rfl
  | subscribe zone waiter =>
    unfold doJob
    dsimp only
    split
    · exact .nil rfl
    · split_ifs <;> exact .nil rfl
  | apply ops =>
    unfold doJob
    dsimp only
    split <;> exact .plain rfl (hone _ ⟨rfl, rfl, rfl⟩)
  | received ops => exact .plain rfl (plain_resumes _)
  | acked ack =>
    unfold doJob
    dsimp only
    split
    · exact .plain rfl (plain_resumes _)
    · exact .nil rfl
  | reason status =>
    unfold doJob
    dsimp only
    split
    · exact .nil rfl
    · exact .one hfits rfl rfl id rfl
  | refusedAfterAck status =>
    unfold doJob
    dsimp only
    split_ifs
    · exact .nil rfl
    · exact .one hfits rfl rfl id rfl
  | answered x =>
    refine ⟨fun job hjob => ?_, fun job hjob y hy => ?_, fun zone hzone => ⟨.startResending (zoneOf x.op),
      by simp [doJob], hzone⟩⟩
    · rcases List.mem_cons.mp hjob with rfl | hjob
      · exact Job.Plain.fits ⟨rfl, rfl, rfl⟩
      rcases List.mem_cons.mp hjob with rfl | hjob
      · exact ⟨fun _ => List.Pairwise.nil, fun _ => hfits.reader rfl⟩
      · exact (plain_resumes _ job hjob).fits
    · rcases List.mem_cons.mp hjob with rfl | hjob
      · cases hy
      rcases List.mem_cons.mp hjob with rfl | hjob
      · cases hy
      · rw [(plain_resumes _ job hjob).unwritten] at hy
        cases hy
  | resume done => exact .shipAgain rfl (Answers.unplacedIn_inChainOrder hnodup hkeeps) ⟨rfl, rfl, rfl⟩
  | _ => exact .nil rfl

/-- Only a write that goes through puts ops on a wire. -/
theorem doJob_wrote {c : GladeClient W S} {through : Bool} {job : Job W S} {connection : ℕ} {ops : List Op}
    (h : .wrote connection (.ops ops) ∈ (c.doJob C through job).2.2) : job = .write connection ops ∧ through = true := by
  have habandoned : ∀ gone : Abandoned S, .wrote connection (.ops ops) ∉ (abandoned gone : List (Happening W S)) := by
    intro gone hmem
    simp [abandoned] at hmem
  cases job with
  | write written ops' =>
    unfold doJob at h
    dsimp only at h
    split_ifs at h with hthrough
    · obtain ⟨rfl, hops⟩ := Happening.wrote.inj (List.mem_singleton.mp h)
      exact ⟨by rw [Frame.ops.inj hops], hthrough⟩
    · cases h
  | make a =>
    unfold doJob at h
    dsimp only at h
    split at h <;> cases h
  | subscribe zone waiter =>
    unfold doJob at h
    dsimp only at h
    split at h
    · cases h
    · split_ifs at h <;> simp at h
  | endSubscribes | notTaken => exact absurd h (habandoned _)
  | apply ops =>
    unfold doJob at h
    dsimp only at h
    split at h <;> cases h
  | acked ack =>
    unfold doJob at h
    dsimp only at h
    split at h
    · cases h
    · exact absurd h (habandoned _)
  | reason status | status status =>
    unfold doJob at h
    dsimp only at h
    split at h <;> simp at h
  | refusedAfterAck status =>
    unfold doJob at h
    dsimp only at h
    split_ifs at h <;> simp at h
  | startResending zone =>
    unfold doJob at h
    dsimp only at h
    split at h <;> cases h
  | resendTick zone timer =>
    unfold doJob at h
    dsimp only at h
    split at h <;> cases h
  | _ => simp [doJob] at h

theorem run_nil {c : GladeClient W S} {w : Worker} (hscript : c.scripts w = []) (through : Bool) :
    c.run C w through = (c, []) := by
  unfold run
  rw [hscript]

theorem run_cons {c : GladeClient W S} {w : Worker} {job : Job W S} {rest : List (Job W S)} (hscript : c.scripts w = job :: rest)
    (through : Bool) : c.run C w through =
      ((c.doJob C through job).1.give w ((c.doJob C through job).2.1 ++ rest), (c.doJob C through job).2.2) := by
  unfold run
  rw [hscript]

theorem opsOn_eq_nil {writer : Option ℕ} {did : List (Happening W S)}
    (h : ∀ connection ops, .wrote connection (.ops ops) ∉ did) : opsOn writer did = [] := by
  unfold opsOn
  rw [List.flatMap_eq_nil_iff]
  intro happening hmem
  split
  · exact absurd hmem (h _ _)
  · rfl

theorem wireAfter_of_writer {wire : List Op} {c c' : GladeClient W S} {did : List (Happening W S)}
    (hwriter : c'.writer = c.writer) :
    wireAfter wire c c' did = wire ++ opsOn c.writer did := if_pos hwriter

theorem wireAfter_nil {wire : List Op} {c c' : GladeClient W S} (hwriter : c'.writer = c.writer) :
    wireAfter wire c c' [] = wire := by
  rw [wireAfter_of_writer hwriter]
  exact List.append_nil wire

theorem moving_run {c c' : GladeClient W S} {wire : List Op} {w : Worker} {through : Bool} {job : Job W S}
    {rest more : List (Job W S)} {did : List (Happening W S)} (hscript : c.scripts w = job :: rest)
    (hjob : c.doJob C through job = (c', more, did)) (h : (c'.give w (more ++ rest)).Moving (wireAfter wire c c' did)) :
    (c.run C w through).1.Moving (wireAfter wire c (c.run C w through).1 (c.run C w through).2) := by
  rw [run_cons hscript, hjob]
  exact h

/-- The same, of a job that writes no ops and keeps the writer. -/
theorem moving_run_silent {c c' : GladeClient W S} {wire : List Op} {w : Worker} {through : Bool} {job : Job W S}
    {rest more : List (Job W S)} {did : List (Happening W S)} (hscript : c.scripts w = job :: rest)
    (hjob : c.doJob C through job = (c', more, did)) (hwriter : c'.writer = c.writer) (hdid : opsOn c.writer did = [])
    (h : (c'.give w (more ++ rest)).Moving wire) :
    (c.run C w through).1.Moving (wireAfter wire c (c.run C w through).1 (c.run C w through).2) := by
  refine moving_run hscript hjob ?_
  rwa [wireAfter_of_writer hwriter, hdid, List.append_nil]

/-- A job that leaves the ops sent as they are, or writes some. -/
theorem Moving.runQuiet {c : GladeClient W S} {wire : List Op} (h : c.Moving wire) {w : Worker} {through : Bool}
    {job : Job W S} {rest : List (Job W S)} (hscript : c.scripts w = job :: rest) (hquiet : job.quiet = true)
    (hkeeps : c.Keeps C wire through job) :
    (c.run C w through).1.Moving (wireAfter wire c (c.run C w through).1 (c.run C w through).2) := by
  obtain ⟨hanswers, hloops, hscripts, hwriter⟩ := c.doJob_quiet (C := C) through hquiet
  have hfollows := doJob_follows hquiet (h.fits w job (hscript ▸ List.mem_cons_self)) h.nodup hkeeps
  have hjob : c.doJob C through job = ((c.doJob C through job).1, (c.doJob C through job).2.1, (c.doJob C through job).2.2) := rfl
  refine moving_run hscript hjob ?_
  rw [wireAfter_of_writer hwriter]
  have hwire : c.Moving (wire ++ opsOn c.writer (c.doJob C through job).2.2) := by
    by_cases hwrite : ∃ connection ops, job = .write connection ops ∧ through = true
    · obtain ⟨connection, ops, rfl, rfl⟩ := hwrite
      exact h.wrote hscript hkeeps
    · rw [opsOn_eq_nil fun connection ops hwrote => hwrite ⟨connection, ops, doJob_wrote hwrote⟩, List.append_nil]
      exact h
  exact (hwire.of_eq hanswers hloops hscripts hwriter).goOn (hscripts ▸ hscript) hfollows

theorem Moving.runMake {c : GladeClient W S} {wire : List Op} (h : c.Moving wire) {w : Worker} {through : Bool}
    {a : Appending W} {rest : List (Job W S)} (hscript : c.scripts w = .make a :: rest) (hkeeps : c.Keeps C wire through (.make a)) :
    (c.run C w through).1.Moving (wireAfter wire c (c.run C w through).1 (c.run C w through).2) := by
  cases hmake : c.session.append C a.share a.gladeId a.shape a.payload a.key with
  | error e =>
    have hjob : c.doJob C through (.make a) = (c, [], []) := by
      unfold doJob
      simp only [hmake]
    exact moving_run_silent hscript hjob rfl rfl <| h.goOn hscript (.nil rfl)
  | ok made =>
    obtain ⟨op, session⟩ := made
    have hjob : c.doJob C through (.make a) =
        (({ c with session }.letGo C [(op, a.waiter)]).1, ({ c with session }.letGo C [(op, a.waiter)]).2, []) := by
      unfold doJob
      simp only [hmake]
    unfold Keeps at hkeeps
    simp only [hmake] at hkeeps
    have hmoving : { c with session }.Moving wire := h.of_eq rfl rfl rfl rfl
    exact moving_run_silent hscript hjob rfl rfl <| hmoving.letGo hscript rfl
      (fun _ => List.pairwise_singleton _ _) hkeeps fun x hx => hx.imp_right (by simp)

theorem Moving.runStatus {c : GladeClient W S} {wire : List Op} (h : c.Moving wire) {w : Worker} {through : Bool}
    {status : Error} {rest : List (Job W S)} (hscript : c.scripts w = .status status :: rest)
    (hkeeps : c.Keeps C wire through (.status status)) :
    (c.run C w through).1.Moving (wireAfter wire c (c.run C w through).1 (c.run C w through).2) := by
  have hmoved := fun x => h.status (x := x) hscript hkeeps
  rcases hstatus : c.answers.status c.session status with ⟨x, answers, session⟩
  rw [hstatus] at hmoved
  cases x with
  | none =>
    have hjob : c.doJob C through (.status status) = (c, [], []) := by
      unfold doJob
      simp only [hstatus]
    exact moving_run_silent hscript hjob rfl rfl <| h.goOn hscript (.nil rfl)
  | some x =>
    have hjob : c.doJob C through (.status status) = ({ c with answers, session }, [.answered x], []) := by
      unfold doJob
      simp only [hstatus]
    exact moving_run_silent hscript hjob rfl rfl <| hmoved x rfl

theorem Moving.runStartResending {c : GladeClient W S} {wire : List Op} (h : c.Moving wire) {w : Worker} {through : Bool}
    {zone : Zone} {rest : List (Job W S)} (hscript : c.scripts w = .startResending zone :: rest) :
    (c.run C w through).1.Moving (wireAfter wire c (c.run C w through).1 (c.run C w through).2) := by
  have hrest : ∀ job ∈ rest, job ∈ c.scripts w := fun job hjob => hscript ▸ List.mem_cons_of_mem _ hjob
  obtain ⟨connection, hreader⟩ := (h.fits w _ (hscript ▸ List.mem_cons_self)).reader rfl
  rcases hstart : c.answers.startResending zone with ⟨timer, answers⟩
  have htimer : (c.answers.startResending zone).1 = timer := congrArg Prod.fst hstart
  cases timer with
  | none =>
    have hjob : c.doJob C through (.startResending zone) = (c, [], []) := by
      unfold doJob
      simp only [hstart]
    refine moving_run_silent hscript hjob rfl rfl ?_
    refine h.give (fun job hjob => h.fits w job (hrest job hjob)) (fun job hjob x hx => ⟨w, job, hrest job hjob, hx⟩) ?_
    intro job hjob zone' hzone
    rw [hscript] at hjob
    rcases List.mem_cons.mp hjob with rfl | hjob
    · obtain rfl := Option.some.inj hzone
      exact .inl htimer
    · exact .inr ⟨job, hjob, hzone⟩
  | some timer =>
    obtain ⟨rfl, hanswers⟩ := Answers.startResending_eq_some htimer
    rw [hstart] at hanswers
    obtain rfl : answers = _ := hanswers
    let c' : GladeClient W S := { c with
      answers := { c.answers with
        timers := c.answers.timers.insert zone (c.answers.timerCount + 1)
        timerCount := c.answers.timerCount + 1 }
      loops := c.loops ++ [(zone, c.answers.timerCount + 1)] }
    have hjob : c.doJob C through (.startResending zone) =
        (c'.give (.resender zone (c.answers.timerCount + 1)) [.nextResend zone], [], []) := by
      unfold doJob
      simp only [hstart]
      rfl
    have hne : w ≠ .resender zone (c.answers.timerCount + 1) := by
      rw [hreader]
      exact fun h => by cases h
    refine moving_run_silent hscript hjob rfl rfl ?_
    -- The new loop's task has no timer to start: only read loops have.
    have hloop : (c'.give (.resender zone (c.answers.timerCount + 1)) [.nextResend zone]).Moving wire := by
      refine (h.startTimer zone).give ?_ ?_ ?_
      · intro job hjob
        obtain rfl := List.mem_singleton.mp hjob
        exact Job.Plain.fits ⟨rfl, rfl, rfl⟩
      · intro job hjob x hx
        obtain rfl := List.mem_singleton.mp hjob
        cases hx
      · intro job hjob zone' hzone
        have herror : job.ofError = true := by
          cases job with
          | answered | startResending => rfl
          | _ => cases hzone
        obtain ⟨connection', heq⟩ := (h.fits _ job hjob).reader herror
        cases heq
    refine hloop.give (fun job hjob => h.fits w job (hrest job hjob)) (fun job hjob x hx => ⟨w, job, ?_, hx⟩) ?_
    · rw [give_of_ne _ _ hne]
      exact hrest job hjob
    · intro job hjob zone' hzone
      have hjob : job ∈ Job.startResending zone :: rest := by
        rw [← hscript]
        rwa [give_of_ne _ _ hne] at hjob
      rcases List.mem_cons.mp hjob with rfl | hjob
      · obtain rfl := Option.some.inj hzone
        refine .inl ?_
        have hmem : zone ∈ c.answers.timers.insert zone (c.answers.timerCount + 1) := by simp
        exact congrArg Prod.fst (if_pos (.inl hmem))
      · exact .inr ⟨job, hjob, hzone⟩

theorem Moving.runResendTick {c : GladeClient W S} {wire : List Op} (h : c.Moving wire) {w : Worker} {through : Bool}
    {zone : Zone} {timer : ℕ} {rest : List (Job W S)} (hscript : c.scripts w = .resendTick zone timer :: rest)
    (hkeeps : c.Keeps C wire through (.resendTick zone timer)) :
    (c.run C w through).1.Moving (wireAfter wire c (c.run C w through).1 (c.run C w through).2) := by
  cases htick : c.answers.resendTick zone timer with
  | none =>
    have hjob : c.doJob C through (.resendTick zone timer) = ({ c with loops := c.loops.erase (zone, timer) }, [], []) := by
      unfold doJob
      simp only [htick]
    exact moving_run_silent hscript hjob rfl rfl <| (h.endLoop htick).goOn hscript (.nil rfl)
  | some again =>
    have hjob : c.doJob C through (.resendTick zone timer) = (c, shipAgain again ++ [.nextResend zone], []) := by
      unfold doJob
      simp only [htick]
    have hagain : again = c.answers.unplacedIn zone := by
      unfold Answers.resendTick at htick
      split_ifs at htick
      exact (Option.some.inj htick).symm
    rw [hagain] at hjob
    exact moving_run_silent hscript hjob rfl rfl <| h.goOn hscript
      (.shipAgain rfl (Answers.unplacedIn_inChainOrder h.nodup hkeeps) ⟨rfl, rfl, rfl⟩)

/-- A writer comes or goes, with its wire. -/
theorem Moving.relink {c : GladeClient W S} {wire : List Op} (h : c.Moving wire) (writer : Option ℕ) (reading : Finset ℕ) :
    { c with writer, reading }.Moving (wireAfter wire c { c with writer, reading } []) := by
  by_cases hsame : writer = c.writer
  · rw [wireAfter_nil hsame]
    exact h.of_eq rfl rfl rfl hsame
  · rw [wireAfter, if_neg hsame]
    exact h.setWriter writer reading

/-- A task's job that keeps to `Keeps` keeps the chains moving. -/
theorem Moving.run {c : GladeClient W S} {wire : List Op} (h : c.Moving wire) {w : Worker} {through : Bool}
    (hspares : c.Spares C wire (.run w through)) :
    (c.run C w through).1.Moving (wireAfter wire c (c.run C w through).1 (c.run C w through).2) := by
  cases hscript : c.scripts w with
  | nil =>
    rw [run_nil hscript, wireAfter_nil rfl]
    exact h
  | cons job rest =>
    have hkeeps := hspares job rest hscript
    cases job with
    | make a => exact h.runMake hscript hkeeps
    | letGo ops =>
      refine moving_run_silent hscript rfl rfl rfl ?_
      have hfits : Job.Fits w (.letGo ops : Job W S) := h.fits w _ (hscript ▸ List.mem_cons_self)
      exact h.letGo hscript rfl hfits.ordered hkeeps fun x hx => hx
    | unlink => exact moving_run hscript rfl ((h.relink none c.reading).goOn hscript (.nil rfl))
    | endSends =>
      refine moving_run_silent hscript rfl rfl (opsOn_eq_nil (by simp)) ?_
      exact (h.endSends hkeeps).goOn hscript (.nil rfl)
    | link connection => exact moving_run hscript rfl ((h.relink (some connection) _).goOn hscript (.nil rfl))
    | status status => exact h.runStatus hscript hkeeps
    | startResending zone => exact h.runStartResending hscript
    | nextResend zone =>
      refine moving_run_silent hscript rfl rfl rfl ?_
      exact (h.nextResend zone).goOn hscript (.nil rfl)
    | resendTick zone timer => exact h.runResendTick hscript hkeeps
    | _ => exact h.runQuiet hscript rfl hkeeps

/-- A task that waits is given jobs that send nothing it had not to send. -/
theorem Moving.begin {c : GladeClient W S} {wire : List Op} (h : c.Moving wire) {w : Worker} {jobs : List (Job W S)}
    (hidle : c.idle w = true) (hfits : ∀ job ∈ jobs, job.Fits w) (hunwritten : ∀ job ∈ jobs, job.unwritten = []) :
    (c.give w jobs).Moving wire := by
  refine h.give hfits (fun job hjob x hx => ?_) fun job hjob => ?_
  · rw [hunwritten job hjob] at hx
    cases hx
  · rw [idle, List.isEmpty_iff] at hidle
    rw [hidle] at hjob
    cases hjob

/-- A task is let go that has no timer to start. -/
theorem Moving.clear {c : GladeClient W S} {wire : List Op} (h : c.Moving wire) {w : Worker}
    (hstarts : ∀ job ∈ c.scripts w, ∀ zone, job.starts = some zone → (c.answers.startResending zone).1 = none) :
    (c.give w []).Moving wire :=
  h.give (by simp) (by simp) fun job hjob zone hzone => .inl (hstarts job hjob zone hzone)

theorem Moving.call {c : GladeClient W S} {wire : List Op} (h : c.Moving wire) (id : ℕ) {jobs : List (Job W S)}
    (herror : ∀ job ∈ jobs, job.ofError = false) (hunwritten : ∀ job ∈ jobs, job.unwritten = []) :
    (c.call id jobs).Moving wire := by
  unfold GladeClient.call
  split_ifs with hidle
  · refine h.begin hidle (fun job hjob => ⟨fun hw => Bool.noConfusion hw, fun he => ?_⟩) hunwritten
    rw [herror job hjob] at he
    cases he
  · exact h

theorem ofError_of_starts {job : Job W S} {zone : Zone} (h : job.starts = some zone) : job.ofError = true := by
  cases job with
  | answered | startResending => rfl
  | _ => cases h

@[simp] theorem call_writer (c : GladeClient W S) (id : ℕ) (jobs : List (Job W S)) : (c.call id jobs).writer = c.writer := by
  unfold call
  split_ifs <;> rfl

/-- What is no job of a task writes nothing, and keeps the writer. -/
theorem step_silent (c : GladeClient W S) {e : Event W S} (he : ∀ w through, e ≠ .run w through) :
    (c.step C e).2 = [] ∧ (c.step C e).1.writer = c.writer := by
  cases e with
  | run w through => exact absurd rfl (he w through)
  | append | sendOps | subscribe => exact ⟨rfl, call_writer ..⟩
  | establish id => exact ⟨rfl, call_writer ..⟩
  | frame | closed | wake | drop =>
    unfold step
    dsimp only
    split_ifs <;> exact ⟨rfl, rfl⟩
  | dropMade id =>
    unfold step
    dsimp only
    split
    · split <;> exact ⟨rfl, rfl⟩
    · exact ⟨rfl, rfl⟩

/-- A step that keeps to `Spares` keeps the chains moving. -/
theorem Moving.step {c : GladeClient W S} {wire : List Op} (h : c.Moving wire) {e : Event W S} (hspares : c.Spares C wire e) :
    (c.step C e).1.Moving (wireAfter wire c (c.step C e).1 (c.step C e).2) := by
  by_cases he : ∃ w through, e = .run w through
  · obtain ⟨w, through, rfl⟩ := he
    exact h.run hspares
  obtain ⟨hdid, hwriter⟩ := c.step_silent (C := C) fun w through heq => he ⟨w, through, heq⟩
  rw [hdid, wireAfter_nil hwriter]
  cases e with
  | run w through => exact absurd ⟨w, through, rfl⟩ he
  | append id a => exact h.call id (by simp [Job.ofError]) (by simp [Job.unwritten])
  | sendOps id ops =>
    have hship : ∀ job ∈ (ship ops : List (Job W S)), job = .check ops := by
      intro job hjob
      unfold ship at hjob
      split_ifs at hjob
      · exact List.mem_singleton.mp hjob
      · cases hjob
    exact h.call id (fun job hjob => by rw [hship job hjob]; rfl) fun job hjob => by rw [hship job hjob]; rfl
  | subscribe id zone waiter => exact h.call id (by simp [Job.ofError]) (by simp [Job.unwritten])
  | establish id =>
    exact Moving.call (c := { c with connections := c.connections + 1 }) (h.of_eq rfl rfl rfl rfl) id (by simp [Job.ofError])
      (by simp [Job.unwritten])
  | frame connection inbound =>
    unfold GladeClient.step
    dsimp only
    split_ifs with hreads
    · refine h.begin hreads.2 (fun job hjob => ?_) fun job hjob => ?_
      · obtain rfl := List.mem_singleton.mp hjob
        refine ⟨fun _ => ?_, fun _ => ⟨connection, rfl⟩⟩
        cases inbound <;> exact List.Pairwise.nil
      · obtain rfl := List.mem_singleton.mp hjob
        cases inbound <;> rfl
    · exact h
  | closed connection =>
    unfold GladeClient.step
    dsimp only
    split_ifs with hreads
    · have hmoving : { c with reading := c.reading.erase connection }.Moving wire := h.of_eq rfl rfl rfl rfl
      refine hmoving.begin hreads.2 (fun job hjob => ?_) (by simp [Job.unwritten])
      simp only [List.mem_cons, List.not_mem_nil, or_false] at hjob
      rcases hjob with rfl | rfl | rfl <;> exact Job.Plain.fits ⟨rfl, rfl, rfl⟩
    · exact h
  | wake zone timer =>
    unfold GladeClient.step
    dsimp only
    split_ifs with hloop
    · refine h.begin hloop.2 (fun job hjob => ?_) (by simp [Job.unwritten])
      rw [List.mem_singleton.mp hjob]
      exact Job.Plain.fits ⟨rfl, rfl, rfl⟩
    · exact h
  | drop w =>
    unfold GladeClient.step
    dsimp only
    split_ifs with hdrop
    · refine Moving.clear ?_ ?_
      · exact h.of_eq rfl rfl rfl rfl
      · exact hspares
    · exact h
  | dropMade id =>
    unfold GladeClient.step
    dsimp only
    split
    · split
      · exact h
      · -- A call starts no timer.
        refine Moving.clear ?_ ?_
        · exact h.of_eq rfl rfl rfl rfl
        intro job hjob zone hzone
        obtain ⟨connection, heq⟩ := (h.fits _ job hjob).reader (ofError_of_starts hzone)
        cases heq
    · exact h

/-! ### Runs -/

end GladeClient

/-! ### A forgotten op -/

namespace GladeClient

/-- A step of a run: the client, and what its current connection has been given. -/
def stepOn (C : Crypto) (p : GladeClient W S × List Op) (e : Event W S) : GladeClient W S × List Op :=
  ((p.1.step C e).1, wireAfter p.2 p.1 (p.1.step C e).1 (p.1.step C e).2)

def runOf (C : Crypto) (origin : String) (events : List (Event W S)) : GladeClient W S × List Op :=
  events.foldl (stepOn C) (.new origin, [])

end GladeClient

open GladeClient

/-- Alice's client on its first connection. -/
def linked : GladeClient Unit Unit :=
  { (GladeClient.new "alice" : GladeClient Unit Unit) with
    writer := some 0, connections := 1, readTask := some 0, reading := {0} }

/-- With her note sent. -/
def sending (C : Crypto) : GladeClient Unit Unit :=
  { linked with
    answers := { (Answers.new waitingBound : Answers Unit) with waiting := [⟨hex (opHash C firstNote), firstNote, none⟩] } }

/-- With her note kept as not placed, and its zone's timer running. -/
def resending : GladeClient Unit Unit :=
  { linked with
    answers := { (Answers.new waitingBound : Answers Unit) with
      unplaced := [firstNote]
      resends := (∅ : Std.ExtTreeMap Zone ℕ).insert (zoneOf firstNote) 1
      timers := (∅ : Std.ExtTreeMap Zone ℕ).insert (zoneOf firstNote) 1
      timerCount := 1 }
    loops := [(zoneOf firstNote, 1)] }

/-- On its second connection, with no timer. -/
def relinked : GladeClient Unit Unit :=
  { resending with
    answers := { resending.answers with timers := ∅ }
    writer := some 1, connections := 2, readTask := some 1, aborted := {0}, reading := {1} }

/-- It is acked with no heads, and returns: the note goes again. -/
def again (C : Crypto) : GladeClient Unit Unit :=
  { relinked with
    session := relinked.session.resumed "s" "notes" []
    subscribes := { (Subscribes.new : Subscribes Unit) with live := [zoneOf firstNote] }
    answers := { relinked.answers with waiting := [⟨hex (opHash C firstNote), firstNote, none⟩] } }

/-- A task's next `n` jobs keep to `Keeps`. -/
def Kept (C : Crypto) (w : Worker) : ℕ → GladeClient W S × List (Job W S) × List Op → Prop
  | 0, _ => True
  | _ + 1, (_, [], _) => True
  | n + 1, (c, job :: rest, wire) =>
    let done := c.doJob C true job
    (c.give w (job :: rest)).Keeps C wire true job ∧
      Kept C w n (done.1, done.2.1 ++ rest, wireAfter wire c done.1 done.2.2)

end Glade.Client
