import Glade.Lib.Histories
import Glade.Node.Session

/-! The gaps a peer's pushes leave in the home share, and the pulls they start
(`node/src/mesh.rs`, `mesh/home.rs`, `mesh/serve.rs`). A step holds one lock, or is
the start or the end of a pull. A loop counts from the note that hands back the gaps
it is to pull for: it starts its first pull some time after. -/

namespace Glade.Node.GapPulls

open Wire Store

/-- A home stream, and an origin of it. -/
abbrev Chain := String × String

/-- The chains a peer's pushes left short: the highest seq of each that they carried,
and how many of them were refused on it. -/
abbrev Gaps := Std.ExtTreeMap Chain (ℤ × ℕ)

namespace Gaps

/-- Add one chain's refusals. -/
def add (gaps : Gaps) (e : Chain × ℤ × ℕ) : Gaps :=
  let (last, refused) := gaps.getD e.1 (e.2.1, 0)
  gaps.insert e.1 (max e.2.1 last, refused + e.2.2)

/-- Note a push refused on `chain` as a gap, at `seq`. -/
def refused (gaps : Gaps) (chain : Chain) (seq : ℤ) : Gaps := gaps.add (chain, seq, 1)

/-- Note that the push carried `chain` to `seq`, if it is short. -/
def reached (gaps : Gaps) (chain : Chain) (seq : ℤ) : Gaps :=
  match gaps[chain]? with
  | some (last, refused) => gaps.insert chain (max seq last, refused)
  | none => gaps

/-- Add `other`'s chains and refusals to these. -/
def merge (gaps other : Gaps) : Gaps := other.toList.foldl add gaps

end Gaps

variable (C : Crypto)

/-- Whether `st` holds `origin`'s chain of home's `stream` up to `seq`. -/
def holds (st : Store) (chain : Chain) (seq : ℤ) : Bool :=
  (headsOf C st (home, chain.1, [])).any fun e => e.1 = chain.2 ∧ seq ≤ e.2

/-- The chains that `st` holds short of their seq, and the others. -/
def splitShort (gaps : Gaps) (st : Store) : Gaps × Gaps :=
  (gaps.filter fun chain e => !holds C st chain e.1, gaps.filter fun chain e => holds C st chain e.1)

/-- Where a pusher's loop stands: what it pulls for, what was noted since, and how the pull went. -/
inductive Stage where
  | ready (gaps : Gaps)
  | pulling (gaps : Gaps)
  | pulled (gaps : Gaps) (ok : Bool)
  | took (gaps during : Gaps) (ok : Bool)
  | judged

structure Loop where
  pusher : Bytes32
  stage : Stage

/-- The pulls a gap has started, by pusher, each with the gaps noted since; and the loops, numbered. -/
structure State where
  gapPulls : Bytes32 → Option Gaps
  loops : ℕ → Option Loop
  next : ℕ

inductive Happening where
  | noted (pusher : Bytes32) (chain : Chain) (seq : ℤ)
  | began (pusher : Bytes32)
  | ended (pusher : Bytes32) (ok : Bool)
  /-- A loop takes what was noted since its pull began, the pull having ended so. -/
  | taken (pusher : Bytes32) (ok : Bool)
  /-- The store is seen to hold a chain up to a seq noted. -/
  | held (pusher : Bytes32) (chain : Chain) (seq : ℤ)
  /-- A pull is reported, with the gaps it was for. -/
  | reported (pusher : Bytes32) (gaps : Gaps) (ok : Bool)

inductive Event where
  | push (pusher : Bytes32) (gaps : Gaps)
  | start (id : ℕ)
  | pulled (id : ℕ) (ok : Bool)
  | take (id : ℕ)
  | judge (id : ℕ) (st : Store)
  | finish (id : ℕ)

namespace State

def new : State := { gapPulls := fun _ => none, loops := fun _ => none, next := 0 }

/-- The loop `id` of `pusher` goes on, or ends. -/
def move (s : State) (id : ℕ) (pusher : Bytes32) (stage : Option Stage) : State :=
  { s with loops := Function.update s.loops id (stage.map fun stage => { pusher, stage }) }

def put (s : State) (pusher : Bytes32) (gaps : Option Gaps) : State :=
  { s with gapPulls := Function.update s.gapPulls pusher gaps }

/-- Note what a push left: with no pull of the pusher's running, one is to start for it. -/
def noteGaps (s : State) (pusher : Bytes32) (gaps : Gaps) : State :=
  if gaps.isEmpty then s
  else
    match s.gapPulls pusher with
    | some waiting => s.put pusher (some (waiting.merge gaps))
    | none => { (s.put pusher (some ∅)).move s.next pusher (some (.ready gaps)) with next := s.next + 1 }

/-- The gaps noted since the pull began. With `last`, and none noted, the pusher's loop ends. -/
def takeGaps (s : State) (pusher : Bytes32) (last : Bool) : Gaps × State :=
  let noted := (s.gapPulls pusher).getD ∅
  (noted, s.put pusher (if last && noted.isEmpty then none else (s.gapPulls pusher).map fun _ => ∅))

def step (s : State) : Event → State × List Happening
  | .push pusher gaps => (s.noteGaps pusher gaps, gaps.toList.map fun e => .noted pusher e.1 e.2.1)
  | .start id =>
    match s.loops id with
    | some ⟨pusher, .ready gaps⟩ => (s.move id pusher (some (.pulling gaps)), [.began pusher])
    | _ => (s, [])
  | .pulled id ok =>
    match s.loops id with
    | some ⟨pusher, .pulling gaps⟩ => (s.move id pusher (some (.pulled gaps ok)), [.ended pusher ok])
    | _ => (s, [])
  | .take id =>
    match s.loops id with
    | some ⟨pusher, .pulled gaps ok⟩ =>
      let (during, s) := s.takeGaps pusher false
      (s.move id pusher (some (.took gaps during ok)), [.taken pusher ok])
    | _ => (s, [])
  | .judge id st =>
    match s.loops id with
    | some ⟨pusher, .took gaps during ok⟩ =>
      let (again, during) := if ok then splitShort C during st else (∅, during)
      let seen := if ok then during.toList.map fun e => Happening.held pusher e.1 e.2.1 else []
      (s.move id pusher (some (if again.isEmpty then .judged else .ready again)), seen ++
        [.reported pusher (gaps.merge during) ok])
    | _ => (s, [])
  | .finish id =>
    match s.loops id with
    | some ⟨pusher, .judged⟩ =>
      let (noted, s) := s.takeGaps pusher true
      (s.move id pusher (if noted.isEmpty then none else some (.ready noted)), [])
    | _ => (s, [])

end State

def runOf (events : List Event) : State × List Happening := Histories.run (State.step C) .new events

/-! ### What a step tells -/

/-- The store's chain has a tip at `seq` or above. -/
def Reaches (st : Store) (chain : Chain) (seq : ℤ) : Prop :=
  ∃ log tip, st.logs[homeChain chain.1 chain.2]? = some log ∧ tipOf C st (homeChain chain.1 chain.2) log = some tip ∧ seq ≤ tip.1

/-- What is told to have happened is what the event does to the loop it moves, and what
the store it reads says. -/
def Told (s : State) (e : Event) : Happening → Prop
  | .noted pusher chain seq => ∃ gaps refused, e = .push pusher gaps ∧ gaps[chain]? = some (seq, refused)
  | .began pusher => ∃ id gaps, e = .start id ∧ s.loops id = some ⟨pusher, .ready gaps⟩
  | .ended pusher ok => ∃ id gaps, e = .pulled id ok ∧ s.loops id = some ⟨pusher, .pulling gaps⟩
  | .taken pusher ok => ∃ id gaps, e = .take id ∧ s.loops id = some ⟨pusher, .pulled gaps ok⟩
  | .held pusher chain seq => ∃ id st gaps during refused, e = .judge id st ∧ s.loops id = some ⟨pusher, .took gaps during true⟩ ∧
      during[chain]? = some (seq, refused) ∧ Reaches C st chain seq
  | .reported pusher _ ok => ∃ id st gaps during, e = .judge id st ∧ s.loops id = some ⟨pusher, .took gaps during ok⟩

theorem holds_iff {st : Store} {chain : Chain} {seq : ℤ} : holds C st chain seq = true ↔ Reaches C st chain seq := by
  unfold holds headsOf chainsIn
  rw [List.any_eq_true]
  constructor
  · rintro ⟨head, hhead, hle⟩
    obtain ⟨⟨c, log⟩, he, htip⟩ := List.mem_filterMap.mp hhead
    obtain ⟨hlog, hzone⟩ := List.mem_filter.mp he
    obtain ⟨tip, hsome, rfl⟩ := Option.map_eq_some_iff.mp htip
    simp only [decide_eq_true_eq, Prod.mk.injEq] at hzone hle
    obtain ⟨hshare, hstream, hkey⟩ := hzone
    have hc : c = homeChain chain.1 chain.2 := by
      cases c
      simp_all [homeChain]
    subst hc
    exact ⟨log, tip, Std.ExtTreeMap.mem_toList_iff_getElem?_eq_some.mp hlog, hsome, hle.2⟩
  · rintro ⟨log, tip, hlog, htip, hle⟩
    refine ⟨(chain.2, tip.1), List.mem_filterMap.mpr ⟨(homeChain chain.1 chain.2, log), ?_, ?_⟩, by simpa using hle⟩
    · rw [List.mem_filter, Std.ExtTreeMap.mem_toList_iff_getElem?_eq_some]
      exact ⟨hlog, by simp [homeChain]⟩
    · rw [htip]
      rfl

/-- What a split leaves held was among the gaps, and the store reaches it. -/
theorem reaches_of_split {gaps : Gaps} {st : Store} {e : Chain × ℤ × ℕ} (h : e ∈ (splitShort C gaps st).2.toList) :
    gaps[e.1]? = some e.2 ∧ Reaches C st e.1 e.2.1 := by
  rw [Std.ExtTreeMap.mem_toList_iff_getElem?_eq_some, splitShort, Std.ExtTreeMap.getElem?_filter', Option.filter_eq_some_iff] at h
  exact ⟨h.1, (holds_iff C).mp h.2⟩

theorem step_told (s : State) (e : Event) : ∀ x ∈ (s.step C e).2, Told C s e x := by
  intro x hx
  cases e with
  | push pusher gaps =>
    obtain ⟨⟨chain, last, refused⟩, hmem, rfl⟩ := List.mem_map.mp hx
    exact ⟨gaps, refused, rfl, Std.ExtTreeMap.mem_toList_iff_getElem?_eq_some.mp hmem⟩
  | start id =>
    simp only [State.step] at hx
    split at hx
    · rename_i pusher gaps hloop
      obtain rfl := List.mem_singleton.mp hx
      exact ⟨id, gaps, rfl, hloop⟩
    · cases hx
  | pulled id ok =>
    simp only [State.step] at hx
    split at hx
    · rename_i pusher gaps hloop
      obtain rfl := List.mem_singleton.mp hx
      exact ⟨id, gaps, rfl, hloop⟩
    · cases hx
  | take id =>
    simp only [State.step] at hx
    split at hx
    · rename_i pusher gaps ok hloop
      obtain rfl := List.mem_singleton.mp hx
      exact ⟨id, gaps, rfl, hloop⟩
    · cases hx
  | judge id st =>
    simp only [State.step] at hx
    split at hx
    · rename_i pusher gaps during ok hloop
      cases ok with
      | true =>
        rcases List.mem_append.mp hx with hx | hx
        · obtain ⟨⟨chain, last, refused⟩, hmem, rfl⟩ := List.mem_map.mp hx
          obtain ⟨hgap, hreach⟩ := reaches_of_split C hmem
          exact ⟨id, st, gaps, during, refused, rfl, hloop, hgap, hreach⟩
        · obtain rfl := List.mem_singleton.mp hx
          exact ⟨id, st, gaps, during, rfl, hloop⟩
      | false =>
        obtain rfl := List.mem_singleton.mp hx
        exact ⟨id, st, gaps, during, rfl, hloop⟩
    · cases hx
  | finish id =>
    simp only [State.step] at hx
    split at hx <;> cases hx

/-- A push's note names each of its gaps. -/
theorem noted_of_push (s : State) {pusher : Bytes32} {gaps : Gaps} {chain : Chain} {seq : ℤ} {refused : ℕ}
    (h : gaps[chain]? = some (seq, refused)) : .noted pusher chain seq ∈ (s.step C (.push pusher gaps)).2 :=
  List.mem_map.mpr ⟨(chain, seq, refused), Std.ExtTreeMap.mem_toList_iff_getElem?_eq_some.mpr h, rfl⟩

/-- Where a pusher's pulls stand: none runs, one does, or one ended and its loop has not
taken the gaps noted since. -/
inductive Pull where
  | idle
  | runs
  | ended (ok : Bool)
  deriving DecidableEq

def Happening.pull (pusher : Bytes32) (now : Pull) : Happening → Pull
  | .began p => if p = pusher then .runs else now
  | .ended p ok => if p = pusher then .ended ok else now
  | .taken p _ => if p = pusher then .idle else now
  | _ => now

def pullOf (t : List Happening) (pusher : Bytes32) : Pull := t.foldl (Happening.pull pusher) .idle

/-- A pull begins while none runs, ends while it runs, and its loop takes the gaps of its end. -/
def InTurn (before : List Happening) : Happening → Prop
  | .began pusher => pullOf before pusher = .idle
  | .ended pusher _ => pullOf before pusher = .runs
  | .taken pusher ok => pullOf before pusher = .ended ok
  | _ => True

def Stage.pull : Stage → Pull
  | .pulling _ => .runs
  | .pulled _ ok => .ended ok
  | _ => .idle

/-! ### What the gaps carry -/

/-- Some of the gaps carries a chain to a seq. -/
def Carries (gaps : Gaps) (chain : Chain) (seq : ℤ) : Prop := ∃ last refused, gaps[chain]? = some (last, refused) ∧ seq ≤ last

theorem carries_of_mem {gaps : Gaps} {e : Chain × ℤ × ℕ} (h : e ∈ gaps.toList) : Carries gaps e.1 e.2.1 :=
  ⟨e.2.1, e.2.2, Std.ExtTreeMap.mem_toList_iff_getElem?_eq_some.mp h, le_rfl⟩

theorem Carries.not_isEmpty {gaps : Gaps} {chain : Chain} {seq : ℤ} (h : Carries gaps chain seq) : gaps.isEmpty = false := by
  obtain ⟨last, refused, hget, -⟩ := h
  rw [Std.ExtTreeMap.isEmpty_eq_false_iff]
  rintro rfl
  simp at hget

namespace Gaps

theorem carries_add (gaps : Gaps) (e : Chain × ℤ × ℕ) : Carries (gaps.add e) e.1 e.2.1 := by
  unfold add
  exact ⟨_, _, Std.ExtTreeMap.getElem?_insert_self, le_max_left _ _⟩

theorem add_carries {gaps : Gaps} {chain : Chain} {seq : ℤ} (h : Carries gaps chain seq) (e : Chain × ℤ × ℕ) :
    Carries (gaps.add e) chain seq := by
  obtain ⟨last, refused, hget, hle⟩ := h
  by_cases hchain : e.1 = chain
  · have hgetD : gaps.getD e.1 (e.2.1, 0) = (last, refused) := by
      rw [Std.ExtTreeMap.getD_eq_getD_getElem?, hchain, hget]
      rfl
    refine ⟨max e.2.1 last, refused + e.2.2, ?_, hle.trans (le_max_right _ _)⟩
    unfold add
    rw [hgetD, hchain]
    exact Std.ExtTreeMap.getElem?_insert_self
  · refine ⟨last, refused, ?_, hle⟩
    unfold add
    rw [Std.ExtTreeMap.getElem?_insert, if_neg, hget]
    rwa [Std.LawfulEqOrd.compare_eq_iff_eq]

theorem foldl_add_carries {gaps : Gaps} {chain : Chain} {seq : ℤ} (h : Carries gaps chain seq) (others : List (Chain × ℤ × ℕ)) :
    Carries (others.foldl add gaps) chain seq := by
  induction others generalizing gaps with
  | nil => exact h
  | cons e others ih => exact ih (add_carries h e)

theorem merge_carries_left {gaps : Gaps} {chain : Chain} {seq : ℤ} (h : Carries gaps chain seq) (other : Gaps) :
    Carries (gaps.merge other) chain seq := foldl_add_carries h _

theorem merge_carries_right (gaps : Gaps) {other : Gaps} {e : Chain × ℤ × ℕ} (h : e ∈ other.toList) :
    Carries (gaps.merge other) e.1 e.2.1 := by
  obtain ⟨before, after, heq⟩ := List.append_of_mem h
  rw [merge, heq, List.foldl_append, List.foldl_cons]
  exact foldl_add_carries (carries_add _ e) after

end Gaps

theorem splitShort_carries {C : Crypto} {gaps : Gaps} {chain : Chain} {seq : ℤ} (h : Carries gaps chain seq) (st : Store) :
    Carries (splitShort C gaps st).1 chain seq ∨
      ∃ last refused, (chain, last, refused) ∈ (splitShort C gaps st).2.toList ∧ seq ≤ last := by
  obtain ⟨last, refused, hget, hle⟩ := h
  cases hholds : holds C st chain last with
  | false =>
    refine .inl ⟨last, refused, ?_, hle⟩
    rw [splitShort, Std.ExtTreeMap.getElem?_filter', hget]
    simp [hholds]
  | true =>
    refine .inr ⟨last, refused, ?_, hle⟩
    rw [Std.ExtTreeMap.mem_toList_iff_getElem?_eq_some, splitShort, Std.ExtTreeMap.getElem?_filter', hget]
    simp [hholds]

/-! ### The loops, and what is noted -/

/-- After it was noted, a gap has been answered: by a pull begun since and ended, by the
store seen to hold it, or by the failure of a pull that its loop learns since. -/
def Answered (after : List Happening) (pusher : Bytes32) (chain : Chain) (seq : ℤ) : Prop :=
  (∃ ok, List.Sublist [.began pusher, .ended pusher ok] after) ∨ (∃ last, seq ≤ last ∧ .held pusher chain last ∈ after) ∨
    .taken pusher false ∈ after

namespace State

/-- A gap waits for the running pull's end, or a loop of its pusher's has it. -/
def Keeps (s : State) (pusher : Bytes32) (chain : Chain) (seq : ℤ) : Prop :=
  (∃ gaps, s.gapPulls pusher = some gaps ∧ Carries gaps chain seq) ∨
    ∃ id stage, s.loops id = some ⟨pusher, stage⟩ ∧
      match stage with
      | .ready gaps | .pulling gaps => Carries gaps chain seq
      | .took _ during _ => Carries during chain seq
      | _ => False

/-- Each pusher has one loop while it has an entry, and none else. -/
structure Paired (s : State) : Prop where
  fresh : ∀ id, s.next ≤ id → s.loops id = none
  one : ∀ id id' pusher stage stage', s.loops id = some ⟨pusher, stage⟩ → s.loops id' = some ⟨pusher, stage'⟩ → id = id'
  entry : ∀ pusher, (∃ gaps, s.gapPulls pusher = some gaps) ↔ ∃ id stage, s.loops id = some ⟨pusher, stage⟩

end State

/-- A gap noted is answered, or kept; where a loop pulls for it, the pull began since. -/
inductive Minded (after : List Happening) (s : State) (pusher : Bytes32) (chain : Chain) (seq : ℤ) : Prop where
  | answered : Answered after pusher chain seq → Minded after s pusher chain seq
  | waits (gaps : Gaps) : s.gapPulls pusher = some gaps → Carries gaps chain seq → Minded after s pusher chain seq
  | ready (id : ℕ) (gaps : Gaps) : s.loops id = some ⟨pusher, .ready gaps⟩ → Carries gaps chain seq →
    Minded after s pusher chain seq
  | pulling (id : ℕ) (gaps : Gaps) : s.loops id = some ⟨pusher, .pulling gaps⟩ → Carries gaps chain seq → .began pusher ∈ after →
    Minded after s pusher chain seq
  | took (id : ℕ) (gaps during : Gaps) : s.loops id = some ⟨pusher, .took gaps during true⟩ → Carries during chain seq →
    Minded after s pusher chain seq

theorem Answered.append {after : List Happening} {pusher : Bytes32} {chain : Chain} {seq : ℤ}
    (h : Answered after pusher chain seq)
    (more : List Happening) : Answered (after ++ more) pusher chain seq := by
  rcases h with ⟨ok, h⟩ | ⟨last, hle, h⟩ | h
  · exact .inl ⟨ok, h.trans (List.sublist_append_left _ _)⟩
  · exact .inr (.inl ⟨last, hle, List.mem_append_left _ h⟩)
  · exact .inr (.inr (List.mem_append_left _ h))

theorem Minded.kept {after : List Happening} {s : State} {pusher : Bytes32} {chain : Chain} {seq : ℤ}
    (h : Minded after s pusher chain seq) : Answered after pusher chain seq ∨ s.Keeps pusher chain seq := by
  cases h with
  | answered h => exact .inl h
  | waits gaps hget hcarries => exact .inr (.inl ⟨gaps, hget, hcarries⟩)
  | ready id gaps hloop hcarries => exact .inr (.inr ⟨id, _, hloop, hcarries⟩)
  | pulling id gaps hloop hcarries _ => exact .inr (.inr ⟨id, _, hloop, hcarries⟩)
  | took id gaps during hloop hcarries => exact .inr (.inr ⟨id, _, hloop, hcarries⟩)

/-! ### One step -/

/-- What a step does, by where the loop it moves stands. -/
inductive Did (s : State) : State → List Happening → Prop where
  | nothing : Did s s []
  | join (pusher : Bytes32) (waiting gaps : Gaps) : s.gapPulls pusher = some waiting →
    Did s (s.put pusher (some (waiting.merge gaps))) (gaps.toList.map fun e => .noted pusher e.1 e.2.1)
  | spawn (pusher : Bytes32) (gaps : Gaps) : s.gapPulls pusher = none →
    Did s { (s.put pusher (some ∅)).move s.next pusher (some (.ready gaps)) with next := s.next + 1 }
      (gaps.toList.map fun e => .noted pusher e.1 e.2.1)
  | start (id : ℕ) (pusher : Bytes32) (gaps : Gaps) : s.loops id = some ⟨pusher, .ready gaps⟩ →
    Did s (s.move id pusher (some (.pulling gaps))) [.began pusher]
  | pulled (id : ℕ) (pusher : Bytes32) (gaps : Gaps) (ok : Bool) : s.loops id = some ⟨pusher, .pulling gaps⟩ →
    Did s (s.move id pusher (some (.pulled gaps ok))) [.ended pusher ok]
  | take (id : ℕ) (pusher : Bytes32) (gaps : Gaps) (ok : Bool) : s.loops id = some ⟨pusher, .pulled gaps ok⟩ →
    Did s ((s.put pusher ((s.gapPulls pusher).map fun _ => ∅)).move id pusher
      (some (.took gaps ((s.gapPulls pusher).getD ∅) ok))) [.taken pusher ok]
  | again (id : ℕ) (pusher : Bytes32) (gaps during : Gaps) (st : Store) : s.loops id = some ⟨pusher, .took gaps during true⟩ →
    Did s (s.move id pusher (some (if (splitShort C during st).1.isEmpty then .judged else .ready (splitShort C during st).1)))
      (((splitShort C during st).2.toList.map fun e => .held pusher e.1 e.2.1) ++
        [.reported pusher (gaps.merge (splitShort C during st).2) true])
  | failed (id : ℕ) (pusher : Bytes32) (gaps during : Gaps) : s.loops id = some ⟨pusher, .took gaps during false⟩ →
    Did s (s.move id pusher (some .judged)) [.reported pusher (gaps.merge during) false]
  | more (id : ℕ) (pusher : Bytes32) : s.loops id = some ⟨pusher, .judged⟩ → ((s.gapPulls pusher).getD ∅).isEmpty = false →
    Did s ((s.put pusher ((s.gapPulls pusher).map fun _ => ∅)).move id pusher (some (.ready ((s.gapPulls pusher).getD ∅)))) []
  | finish (id : ℕ) (pusher : Bytes32) : s.loops id = some ⟨pusher, .judged⟩ → ((s.gapPulls pusher).getD ∅).isEmpty = true →
    Did s ((s.put pusher none).move id pusher none) []

theorem step_did (s : State) (e : Event) : Did C s (s.step C e).1 (s.step C e).2 := by
  cases e with
  | push pusher gaps =>
    simp only [State.step, State.noteGaps]
    split
    · rename_i hempty
      have hnil : gaps.toList = [] := Std.ExtTreeMap.toList_eq_nil_iff.mpr (Std.ExtTreeMap.isEmpty_iff.mp hempty)
      rw [hnil]
      exact .nothing
    · split
      · rename_i waiting hget
        exact .join pusher waiting gaps hget
      · rename_i hget
        exact .spawn pusher gaps hget
  | start id =>
    simp only [State.step]
    split
    · rename_i pusher gaps hloop
      exact .start id pusher gaps hloop
    · exact .nothing
  | pulled id ok =>
    simp only [State.step]
    split
    · rename_i pusher gaps hloop
      exact .pulled id pusher gaps ok hloop
    · exact .nothing
  | take id =>
    simp only [State.step]
    split
    · rename_i pusher gaps ok hloop
      exact .take id pusher gaps ok hloop
    · exact .nothing
  | judge id st =>
    simp only [State.step]
    split
    · rename_i pusher gaps during ok hloop
      cases ok with
      | true => exact .again id pusher gaps during st hloop
      | false => exact .failed id pusher gaps during hloop
    · exact .nothing
  | finish id =>
    simp only [State.step]
    split
    · rename_i pusher hloop
      cases hempty : ((s.gapPulls pusher).getD ∅).isEmpty with
      | true => simpa [State.takeGaps, hempty] using Did.finish id pusher hloop hempty
      | false => simpa [State.takeGaps, hempty] using Did.more id pusher hloop hempty
    · exact .nothing

section Kept

variable {C}
variable {s s' : State} {did after : List Happening} {pusher : Bytes32} {chain : Chain} {seq : ℤ}

namespace State

@[simp] theorem move_gapPulls (s : State) (id : ℕ) (pusher : Bytes32) (stage : Option Stage) :
    (s.move id pusher stage).gapPulls = s.gapPulls := rfl

@[simp] theorem put_loops (s : State) (pusher : Bytes32) (gaps : Option Gaps) : (s.put pusher gaps).loops = s.loops := rfl

theorem put_gapPulls (s : State) (pusher pusher' : Bytes32) (gaps : Option Gaps) :
    (s.put pusher gaps).gapPulls pusher' = if pusher' = pusher then gaps else s.gapPulls pusher' := Function.update_apply ..

theorem move_loops (s : State) (id id' : ℕ) (pusher : Bytes32) (stage : Option Stage) :
    (s.move id pusher stage).loops id' = if id' = id then stage.map fun stage => ⟨pusher, stage⟩ else s.loops id' :=
  Function.update_apply ..

end State

theorem State.Paired.new : State.new.Paired where
  fresh _ _ := rfl
  one := by simp [State.new]
  entry := by simp [State.new]

/-- A loop that goes on keeps its pusher's entry. -/
theorem State.Paired.move (h : s.Paired) {id : ℕ} {pusher : Bytes32} {stage : Stage} (hloop : s.loops id = some ⟨pusher, stage⟩)
    (stage' : Stage) (gaps : Option Gaps) (hgaps : gaps.isSome = (s.gapPulls pusher).isSome) :
    ((s.put pusher gaps).move id pusher (some stage')).Paired := by
  have hlt : id < s.next := by
    by_contra hge
    rw [h.fresh id (Nat.not_lt.mp hge)] at hloop
    cases hloop
  have hback : ∀ id' pusher' stage'', ((s.put pusher gaps).move id pusher (some stage')).loops id' = some ⟨pusher', stage''⟩ →
      ∃ stage, s.loops id' = some ⟨pusher', stage⟩ := by
    intro id' pusher' stage'' hloop'
    rw [State.move_loops] at hloop'
    split_ifs at hloop' with hid
    · rw [Option.map_some, Option.some_inj, Loop.mk.injEq] at hloop'
      exact ⟨stage, by rw [hid, hloop, hloop'.1]⟩
    · exact ⟨stage'', hloop'⟩
  constructor
  · intro id' hid'
    have hne : id' ≠ id := by
      rintro rfl
      exact absurd hlt hid'.not_gt
    rw [State.move_loops, if_neg hne]
    exact h.fresh id' hid'
  · intro id₁ id₂ pusher' stage₁ stage₂ h₁ h₂
    obtain ⟨_, h₁⟩ := hback _ _ _ h₁
    obtain ⟨_, h₂⟩ := hback _ _ _ h₂
    exact h.one id₁ id₂ pusher' _ _ h₁ h₂
  · intro pusher'
    have hsome : (∃ gaps', ((s.put pusher gaps).move id pusher (some stage')).gapPulls pusher' = some gaps') ↔
        ∃ gaps', s.gapPulls pusher' = some gaps' := by
      simp only [← Option.isSome_iff_exists, State.move_gapPulls, State.put_gapPulls]
      split_ifs with hp
      · rw [hgaps, hp]
      · exact Iff.rfl
    rw [hsome, h.entry pusher']
    constructor
    · rintro ⟨id', stage'', hloop'⟩
      by_cases hid : id' = id
      · subst hid
        rw [hloop, Option.some_inj, Loop.mk.injEq] at hloop'
        exact ⟨id', stage', by rw [State.move_loops, if_pos rfl, hloop'.1]; rfl⟩
      · exact ⟨id', stage'', by rw [State.move_loops, if_neg hid]; exact hloop'⟩
    · rintro ⟨id', stage'', hloop'⟩
      obtain ⟨stage, hloop'⟩ := hback _ _ _ hloop'
      exact ⟨id', stage, hloop'⟩

theorem State.put_self (s : State) (pusher : Bytes32) : s.put pusher (s.gapPulls pusher) = s := by
  unfold State.put
  rw [Function.update_eq_self]

theorem State.Paired.step (h : s.Paired) (hdid : Did C s s' did) : s'.Paired := by
  have hmove : ∀ {id : ℕ} {pusher : Bytes32} {stage : Stage}, s.loops id = some ⟨pusher, stage⟩ → ∀ stage' : Stage,
      (s.move id pusher (some stage')).Paired := by
    intro id pusher stage hloop stage'
    have := h.move hloop stage' (s.gapPulls pusher) rfl
    rwa [State.put_self] at this
  cases hdid with
  | nothing => exact h
  | join pusher waiting gaps hget =>
    refine ⟨h.fresh, h.one, fun pusher' => ?_⟩
    rw [State.put_gapPulls, State.put_loops, ← h.entry pusher']
    split_ifs with hp
    · rw [hp, hget]
      simp
    · exact Iff.rfl
  | spawn pusher gaps hget =>
    have hnone : ∀ id stage, s.loops id ≠ some ⟨pusher, stage⟩ := by
      intro id stage hloop
      obtain ⟨gaps, hgaps⟩ := (h.entry pusher).mpr ⟨id, stage, hloop⟩
      rw [hget] at hgaps
      cases hgaps
    have hloops : ∀ id,
        ({ (s.put pusher (some ∅)).move s.next pusher (some (.ready gaps)) with next := s.next + 1 } : State).loops id =
        if id = s.next then some ⟨pusher, .ready gaps⟩ else s.loops id := fun id => State.move_loops _ _ _ _ _
    constructor
    · intro id hid
      have hid' : s.next + 1 ≤ id := hid
      rw [hloops, if_neg (by omega)]
      exact h.fresh id (by omega)
    · intro id id' pusher' stage stage' h₁ h₂
      rw [hloops] at h₁ h₂
      split_ifs at h₁ h₂ with hid hid' hid'
      · rw [hid, hid']
      · cases h₁
        exact absurd h₂ (hnone _ _)
      · cases h₂
        exact absurd h₁ (hnone _ _)
      · exact h.one id id' pusher' stage stage' h₁ h₂
    · intro pusher'
      change (∃ gaps', (s.put pusher (some ∅)).gapPulls pusher' = some gaps') ↔ _
      rw [State.put_gapPulls]
      split_ifs with hp
      · subst hp
        exact iff_of_true ⟨∅, rfl⟩ ⟨s.next, .ready gaps, by rw [hloops, if_pos rfl]⟩
      · rw [h.entry pusher']
        constructor
        · rintro ⟨id, stage, hloop⟩
          have hne : id ≠ s.next := by
            rintro rfl
            rw [h.fresh s.next le_rfl] at hloop
            cases hloop
          exact ⟨id, stage, by rw [hloops, if_neg hne]; exact hloop⟩
        · rintro ⟨id, stage, hloop⟩
          rw [hloops] at hloop
          split_ifs at hloop
          · cases hloop
            exact absurd rfl hp
          · exact ⟨id, stage, hloop⟩
  | start id pusher gaps hloop => exact hmove hloop _
  | pulled id pusher gaps ok hloop => exact hmove hloop _
  | take id pusher gaps ok hloop => exact h.move hloop _ _ (by cases s.gapPulls pusher <;> rfl)
  | again id pusher gaps during st hloop => exact hmove hloop _
  | failed id pusher gaps during hloop => exact hmove hloop _
  | more id pusher hloop _ => exact h.move hloop _ _ (by cases s.gapPulls pusher <;> rfl)
  | finish id pusher hloop _ =>
    have hloops : ∀ id', ((s.put pusher none).move id pusher none).loops id' = if id' = id then none else s.loops id' :=
      fun id' => State.move_loops _ _ _ _ _
    constructor
    · intro id' hid'
      rw [hloops]
      split_ifs
      · rfl
      · exact h.fresh id' hid'
    · intro id₁ id₂ pusher' stage₁ stage₂ h₁ h₂
      rw [hloops] at h₁ h₂
      split_ifs at h₁ h₂
      exact h.one id₁ id₂ pusher' stage₁ stage₂ h₁ h₂
    · intro pusher'
      rw [State.move_gapPulls, State.put_gapPulls]
      split_ifs with hp
      · subst hp
        refine iff_of_false (by simp) ?_
        rintro ⟨id', stage, hloop'⟩
        rw [hloops] at hloop'
        split_ifs at hloop' with hid
        exact hid (h.one id' id pusher' _ _ hloop' hloop)
      · rw [h.entry pusher']
        constructor
        · rintro ⟨id', stage, hloop'⟩
          have hne : id' ≠ id := by
            rintro rfl
            rw [hloop] at hloop'
            cases hloop'
            exact hp rfl
          exact ⟨id', stage, by rw [hloops, if_neg hne]; exact hloop'⟩
        · rintro ⟨id', stage, hloop'⟩
          rw [hloops] at hloop'
          split_ifs at hloop'
          exact ⟨id', stage, hloop'⟩

/-- What becomes of a loop in one step. -/
theorem Did.loop (h : Did C s s' did) {id : ℕ} {pusher : Bytes32} {stage : Stage} (hloop : s.loops id = some ⟨pusher, stage⟩)
    (hlt : id < s.next) :
    s'.loops id = some ⟨pusher, stage⟩ ∨
      (∃ gaps, stage = .ready gaps ∧ s'.loops id = some ⟨pusher, .pulling gaps⟩ ∧ did = [.began pusher]) ∨
      (∃ gaps ok, stage = .pulling gaps ∧ did = [.ended pusher ok]) ∨
      (∃ gaps during st, stage = .took gaps during true ∧
        s'.loops id = some ⟨pusher, if (splitShort C during st).1.isEmpty then .judged else .ready (splitShort C during st).1⟩ ∧
        ∀ e ∈ (splitShort C during st).2.toList, .held pusher e.1 e.2.1 ∈ did) ∨
      (∃ gaps ok, stage = .pulled gaps ok) ∨ (∃ gaps during, stage = .took gaps during false) ∨ stage = .judged := by
  have hother : ∀ {id' : ℕ} (stage' : Option Stage) (pusher' : Bytes32) (s : State), s.loops id = some ⟨pusher, stage⟩ →
      id ≠ id' → (s.move id' pusher' stage').loops id = some ⟨pusher, stage⟩ := by
    intro id' stage' pusher' s hloop hid
    rw [State.move_loops, if_neg hid, hloop]
  cases h with
  | nothing => exact .inl hloop
  | join pusher' waiting gaps hget => exact .inl hloop
  | spawn pusher' gaps hget => exact .inl (hother _ _ (s.put pusher' (some ∅)) hloop hlt.ne)
  | start id' pusher' gaps hloop' =>
    by_cases hid : id = id'
    · subst hid
      rw [hloop, Option.some_inj, Loop.mk.injEq] at hloop'
      obtain ⟨rfl, rfl⟩ := hloop'
      exact .inr (.inl ⟨gaps, rfl, by rw [State.move_loops, if_pos rfl]; rfl, rfl⟩)
    · exact .inl (hother _ _ s hloop hid)
  | pulled id' pusher' gaps ok hloop' =>
    by_cases hid : id = id'
    · subst hid
      rw [hloop, Option.some_inj, Loop.mk.injEq] at hloop'
      obtain ⟨rfl, rfl⟩ := hloop'
      exact .inr (.inr (.inl ⟨gaps, ok, rfl, rfl⟩))
    · exact .inl (hother _ _ s hloop hid)
  | take id' pusher' gaps ok hloop' =>
    by_cases hid : id = id'
    · subst hid
      rw [hloop, Option.some_inj, Loop.mk.injEq] at hloop'
      exact .inr (.inr (.inr (.inr (.inl ⟨gaps, ok, hloop'.2⟩))))
    · exact .inl (hother _ _ (s.put _ _) hloop hid)
  | again id' pusher' gaps during st hloop' =>
    by_cases hid : id = id'
    · subst hid
      rw [hloop, Option.some_inj, Loop.mk.injEq] at hloop'
      obtain ⟨rfl, rfl⟩ := hloop'
      refine .inr (.inr (.inr (.inl ⟨gaps, during, st, rfl, by rw [State.move_loops, if_pos rfl]; rfl, fun e he => ?_⟩)))
      exact List.mem_append_left _ (List.mem_map.mpr ⟨e, he, rfl⟩)
    · exact .inl (hother _ _ s hloop hid)
  | failed id' pusher' gaps during hloop' =>
    by_cases hid : id = id'
    · subst hid
      rw [hloop, Option.some_inj, Loop.mk.injEq] at hloop'
      exact .inr (.inr (.inr (.inr (.inr (.inl ⟨gaps, during, hloop'.2⟩)))))
    · exact .inl (hother _ _ s hloop hid)
  | more id' pusher' hloop' _ =>
    by_cases hid : id = id'
    · subst hid
      rw [hloop, Option.some_inj, Loop.mk.injEq] at hloop'
      exact .inr (.inr (.inr (.inr (.inr (.inr hloop'.2)))))
    · exact .inl (hother _ _ (s.put _ _) hloop hid)
  | finish id' pusher' hloop' _ =>
    by_cases hid : id = id'
    · subst hid
      rw [hloop, Option.some_inj, Loop.mk.injEq] at hloop'
      exact .inr (.inr (.inr (.inr (.inr (.inr hloop'.2)))))
    · exact .inl (hother _ _ (s.put _ _) hloop hid)

/-- What becomes of the gaps that wait, in one step. -/
theorem Did.waits (h : Did C s s' did) {pusher : Bytes32} {gaps : Gaps} (hget : s.gapPulls pusher = some gaps) {chain : Chain}
    {seq : ℤ} (hcarries : Carries gaps chain seq) : Minded (after ++ did) s' pusher chain seq := by
  have hother : ∀ (pusher' : Bytes32) (gaps' : Option Gaps), pusher ≠ pusher' →
    (s.put pusher' gaps').gapPulls pusher = some gaps := by
    intro pusher' gaps' hp
    rw [State.put_gapPulls, if_neg hp, hget]
  have hnoted : (s.gapPulls pusher).getD ∅ = gaps := by rw [hget]; rfl
  cases h with
  | join pusher' waiting more hget' =>
    by_cases hp : pusher = pusher'
    · subst hp
      rw [hget, Option.some_inj] at hget'
      subst hget'
      exact .waits _ (by rw [State.put_gapPulls, if_pos rfl]) (Gaps.merge_carries_left hcarries more)
    · exact .waits gaps (hother _ _ hp) hcarries
  | spawn pusher' more hget' =>
    have hp : pusher ≠ pusher' := by
      rintro rfl
      rw [hget] at hget'
      cases hget'
    exact .waits gaps (hother _ _ hp) hcarries
  | take id pusher' pulled ok hloop =>
    by_cases hp : pusher = pusher'
    · subst hp
      cases ok with
      | true =>
        refine .took id pulled gaps ?_ hcarries
        rw [State.move_loops, if_pos rfl, hnoted]
        rfl
      | false => exact .answered (.inr (.inr (List.mem_append_right _ (List.mem_singleton.mpr rfl))))
    · exact .waits gaps (hother _ _ hp) hcarries
  | more id pusher' hloop hempty =>
    by_cases hp : pusher = pusher'
    · subst hp
      refine .ready id gaps ?_ hcarries
      rw [State.move_loops, if_pos rfl, hnoted]
      rfl
    · exact .waits gaps (hother _ _ hp) hcarries
  | finish id pusher' hloop hempty =>
    by_cases hp : pusher = pusher'
    · subst hp
      rw [hnoted, hcarries.not_isEmpty] at hempty
      cases hempty
    · exact .waits gaps (hother _ _ hp) hcarries
  | _ => exact .waits gaps hget hcarries

theorem State.Paired.lt_next (h : s.Paired) {id : ℕ} {loop : Loop} (hloop : s.loops id = some loop) : id < s.next := by
  by_contra hge
  rw [h.fresh id (Nat.not_lt.mp hge)] at hloop
  cases hloop

theorem Minded.step (h : Minded after s pusher chain seq) (P : s.Paired) (hdid : Did C s s' did) :
    Minded (after ++ did) s' pusher chain seq := by
  cases h with
  | answered h => exact .answered (h.append did)
  | waits gaps hget hcarries => exact hdid.waits hget hcarries
  | ready id gaps hloop hcarries =>
    rcases hdid.loop hloop (P.lt_next hloop) with hsame | ⟨_, heq, hnext, rfl⟩ | ⟨_, _, heq, -⟩ |
      ⟨_, _, _, heq, -⟩ | ⟨_, _, heq⟩ | ⟨_, _, heq⟩ | heq
    · exact .ready id gaps hsame hcarries
    · cases heq
      exact .pulling id gaps hnext hcarries (List.mem_append_right _ (List.mem_singleton.mpr rfl))
    all_goals cases heq
  | pulling id gaps hloop hcarries hbegan =>
    rcases hdid.loop hloop (P.lt_next hloop) with hsame | ⟨_, heq, -⟩ | ⟨_, ok, heq, rfl⟩ | ⟨_, _, _, heq, -⟩ | ⟨_, _, heq⟩ |
      ⟨_, _, heq⟩ | heq
    · exact .pulling id gaps hsame hcarries (List.mem_append_left _ hbegan)
    · cases heq
    · exact .answered (.inl ⟨ok, List.Sublist.append (List.singleton_sublist.mpr hbegan) (List.Sublist.refl [_])⟩)
    all_goals cases heq
  | took id gaps during hloop hcarries =>
    rcases hdid.loop hloop (P.lt_next hloop) with hsame | ⟨_, heq, -⟩ | ⟨_, _, heq, -⟩ |
      ⟨_, _, st, heq, hnext, hseen⟩ | ⟨_, _, heq⟩ | ⟨_, _, heq⟩ | heq
    · exact .took id gaps during hsame hcarries
    · cases heq
    · cases heq
    · cases heq
      rcases splitShort_carries (C := C) hcarries st with hshort | ⟨last, refused, hmem, hle⟩
      · rw [hshort.not_isEmpty] at hnext
        exact .ready id _ hnext hshort
      · exact .answered (.inr (.inl ⟨last, hle, List.mem_append_right _ (hseen _ hmem)⟩))
    all_goals cases heq

/-- What is noted in a step is kept after it. -/
theorem Did.noted (h : Did C s s' did) (hmem : .noted pusher chain seq ∈ did) :
    ∀ after, Minded after s' pusher chain seq := by
  intro after
  cases h with
  | nothing => cases hmem
  | join pusher' waiting gaps hget =>
    obtain ⟨e, he, heq⟩ := List.mem_map.mp hmem
    cases heq
    exact .waits _ (by rw [State.put_gapPulls, if_pos rfl]) (Gaps.merge_carries_right waiting he)
  | spawn pusher' gaps hget =>
    obtain ⟨e, he, heq⟩ := List.mem_map.mp hmem
    cases heq
    refine .ready s.next gaps ?_ (carries_of_mem he)
    change ((s.put pusher (some ∅)).move s.next pusher (some (.ready gaps))).loops s.next = _
    rw [State.move_loops, if_pos rfl]
    rfl
  | again id pusher' gaps during st hloop =>
    rcases List.mem_append.mp hmem with hmem | hmem
    · obtain ⟨e, -, heq⟩ := List.mem_map.mp hmem
      cases heq
    · cases List.mem_singleton.mp hmem
  | more => cases hmem
  | finish => cases hmem
  | _ => cases List.mem_singleton.mp hmem

/-- What happened says where each pusher's pull stands: its loop's stage does, and without
a loop none runs. -/
structure Timely (t : List Happening) (s : State) : Prop where
  stage : ∀ id pusher stage, s.loops id = some ⟨pusher, stage⟩ → pullOf t pusher = stage.pull
  idle : ∀ pusher, s.gapPulls pusher = none → pullOf t pusher = .idle

theorem Timely.new : Timely [] .new where
  stage := by simp [State.new]
  idle _ _ := rfl

theorem pullOf_quiet (t : List Happening) (hquiet : ∀ x ∈ did, ∀ now, x.pull pusher now = now) :
    pullOf (t ++ did) pusher = pullOf t pusher := by
  unfold pullOf
  rw [List.foldl_append]
  generalize t.foldl (Happening.pull pusher) .idle = now
  induction did generalizing now with
  | nil => rfl
  | cons x did ih =>
    rw [List.foldl_cons, hquiet x List.mem_cons_self]
    exact ih (fun y hy => hquiet y (List.mem_cons_of_mem _ hy)) now

theorem pullOf_noted (t : List Happening) (pusher pusher' : Bytes32) (gaps : Gaps) :
    pullOf (t ++ gaps.toList.map fun e => .noted pusher e.1 e.2.1) pusher' = pullOf t pusher' := by
  apply pullOf_quiet
  intro x hx now
  obtain ⟨e, -, rfl⟩ := List.mem_map.mp hx
  rfl

theorem pullOf_judged (t : List Happening) (pusher pusher' : Bytes32) (held reported : Gaps) :
    pullOf (t ++ ((held.toList.map fun e => .held pusher e.1 e.2.1) ++ [.reported pusher reported true])) pusher' =
      pullOf t pusher' := by
  apply pullOf_quiet
  intro x hx now
  rcases List.mem_append.mp hx with hx | hx
  · obtain ⟨e, -, rfl⟩ := List.mem_map.mp hx
    rfl
  · obtain rfl := List.mem_singleton.mp hx
    rfl

/-- A loop that goes on: its pull stands where its next stage says, the others' as before. -/
theorem Timely.move {t : List Happening} (h : Timely t s) (P : s.Paired) {id : ℕ} {pusher : Bytes32} {stage : Stage}
    (hloop : s.loops id = some ⟨pusher, stage⟩) (stage' : Stage) (gaps : Option Gaps)
    (hgaps : gaps.isSome = (s.gapPulls pusher).isSome) (hself : pullOf (t ++ did) pusher = stage'.pull)
    (hother : ∀ p, p ≠ pusher → pullOf (t ++ did) p = pullOf t p) :
    Timely (t ++ did) ((s.put pusher gaps).move id pusher (some stage')) := by
  constructor
  · intro id' pusher' stage'' hloop'
    rw [State.move_loops] at hloop'
    split_ifs at hloop' with hid
    · rw [Option.map_some, Option.some_inj, Loop.mk.injEq] at hloop'
      obtain ⟨rfl, rfl⟩ := hloop'
      exact hself
    · rw [State.put_loops] at hloop'
      have hp : pusher' ≠ pusher := by
        rintro rfl
        exact hid (P.one id' id pusher' _ _ hloop' hloop)
      rw [hother pusher' hp]
      exact h.stage id' pusher' stage'' hloop'
  · intro pusher' hnone
    rw [State.move_gapPulls, State.put_gapPulls] at hnone
    have hp : pusher' ≠ pusher := by
      rintro rfl
      obtain ⟨waiting, hget⟩ := (P.entry pusher').mpr ⟨id, stage, hloop⟩
      rw [if_pos rfl] at hnone
      rw [hnone, hget] at hgaps
      cases hgaps
    rw [if_neg hp] at hnone
    rw [hother pusher' hp]
    exact h.idle pusher' hnone

theorem Timely.step {t : List Happening} (h : Timely t s) (P : s.Paired) (hdid : Did C s s' did) : Timely (t ++ did) s' := by
  have hmove : ∀ {id : ℕ} {pusher : Bytes32} {stage : Stage} (stage' : Stage) (did : List Happening),
      s.loops id = some ⟨pusher, stage⟩ → pullOf (t ++ did) pusher = stage'.pull →
      (∀ p, p ≠ pusher → pullOf (t ++ did) p = pullOf t p) → Timely (t ++ did) (s.move id pusher (some stage')) := by
    intro id pusher stage stage' did hloop hself hother
    have hput := h.move P hloop stage' (s.gapPulls pusher) rfl hself hother
    rwa [State.put_self] at hput
  cases hdid with
  | nothing => rwa [List.append_nil]
  | join pusher waiting gaps hget =>
    constructor
    · intro id pusher' stage hloop
      rw [pullOf_noted]
      exact h.stage id pusher' stage hloop
    · intro pusher' hnone
      rw [State.put_gapPulls] at hnone
      split_ifs at hnone
      rw [pullOf_noted]
      exact h.idle pusher' hnone
  | spawn pusher gaps hget =>
    constructor
    · intro id pusher' stage hloop
      change ((s.put pusher (some ∅)).move s.next pusher (some (.ready gaps))).loops id = _ at hloop
      rw [pullOf_noted]
      rw [State.move_loops] at hloop
      split_ifs at hloop
      · rw [Option.map_some, Option.some_inj, Loop.mk.injEq] at hloop
        obtain ⟨rfl, rfl⟩ := hloop
        exact h.idle pusher hget
      · exact h.stage id pusher' stage hloop
    · intro pusher' hnone
      change (s.put pusher (some ∅)).gapPulls pusher' = none at hnone
      rw [State.put_gapPulls] at hnone
      split_ifs at hnone
      rw [pullOf_noted]
      exact h.idle pusher' hnone
  | start id pusher gaps hloop =>
    refine hmove _ _ hloop ?_ fun p hp => ?_
    · simp [pullOf, Happening.pull, Stage.pull]
    · simp [pullOf, Happening.pull, hp.symm]
  | pulled id pusher gaps ok hloop =>
    refine hmove _ _ hloop ?_ fun p hp => ?_
    · simp [pullOf, Happening.pull, Stage.pull]
    · simp [pullOf, Happening.pull, hp.symm]
  | take id pusher gaps ok hloop =>
    refine h.move P hloop _ _ (by cases s.gapPulls pusher <;> rfl) ?_ fun p hp => ?_
    · simp [pullOf, Happening.pull, Stage.pull]
    · simp [pullOf, Happening.pull, hp.symm]
  | again id pusher gaps during st hloop =>
    refine hmove _ _ hloop ?_ fun p _ => pullOf_judged t pusher p _ _
    rw [pullOf_judged, h.stage id pusher _ hloop]
    split_ifs <;> rfl
  | failed id pusher gaps during hloop =>
    refine hmove _ _ hloop ?_ fun p _ => ?_
    · simpa [pullOf, Happening.pull, Stage.pull] using h.stage id pusher _ hloop
    · simp [pullOf, Happening.pull]
  | more id pusher hloop _ =>
    refine h.move P hloop _ _ (by cases s.gapPulls pusher <;> rfl) ?_ fun p _ => by rw [List.append_nil]
    rw [List.append_nil, h.stage id pusher _ hloop]
    rfl
  | finish id pusher hloop _ =>
    rw [List.append_nil]
    constructor
    · intro id' pusher' stage hloop'
      rw [State.move_loops] at hloop'
      split_ifs at hloop'
      · cases hloop'
      · exact h.stage id' pusher' stage hloop'
    · intro pusher' hnone
      rw [State.move_gapPulls, State.put_gapPulls] at hnone
      split_ifs at hnone with hp
      · rw [hp]
        exact h.stage id pusher _ hloop
      · exact h.idle pusher' hnone

/-- A step's begins, ends and takes come in their pull's turn. -/
theorem Timely.inTurn {t : List Happening} (h : Timely t s) (hdid : Did C s s' did) (hturns : Histories.Each InTurn t) :
    Histories.Each InTurn (t ++ did) := by
  cases hdid with
  | nothing => rwa [List.append_nil]
  | start id pusher gaps hloop => exact hturns.concat (h.stage id pusher _ hloop)
  | pulled id pusher gaps ok hloop => exact hturns.concat (h.stage id pusher _ hloop)
  | take id pusher gaps ok hloop => exact hturns.concat (h.stage id pusher _ hloop)
  | failed id pusher gaps during hloop => exact hturns.concat trivial
  | more id pusher hloop _ => rwa [List.append_nil]
  | finish id pusher hloop _ => rwa [List.append_nil]
  | again id pusher gaps during st hloop =>
    refine hturns.quiet fun x hx before => ?_
    rcases List.mem_append.mp hx with hx | hx
    · obtain ⟨e, -, rfl⟩ := List.mem_map.mp hx
      trivial
    · obtain rfl := List.mem_singleton.mp hx
      trivial
  | _ =>
    refine hturns.quiet fun x hx before => ?_
    obtain ⟨e, -, rfl⟩ := List.mem_map.mp hx
    trivial

end Kept

/-- The loops are paired with the entries, each pusher's pulls come one after the other,
and every gap noted is minded. -/
structure Kept (t : List Happening) (s : State) : Prop where
  paired : s.Paired
  timely : Timely t s
  turns : Histories.Each InTurn t
  minded : ∀ before pusher chain seq after, t = before ++ .noted pusher chain seq :: after → Minded after s pusher chain seq

theorem kept_run (events : List Event) : Kept (runOf C events).2 (runOf C events).1 := by
  refine Histories.run_inv ⟨.new, .new, Histories.each_nil _, by simp⟩ (fun t s e h => ?_) events
  obtain ⟨P, T, hturns, hminded⟩ := h
  have hdid := step_did C s e
  refine ⟨P.step hdid, T.step P hdid, T.inTurn hdid hturns, fun before pusher chain seq after heq => ?_⟩
  rcases List.append_eq_append_iff.mp heq with ⟨mid, rfl, hrest⟩ | ⟨mid, rfl, hrest⟩
  · refine hdid.noted ?_ after
    rw [hrest]
    exact List.mem_append_right _ List.mem_cons_self
  · cases mid with
    | nil =>
      refine hdid.noted ?_ after
      rw [List.nil_append] at hrest
      rw [← hrest]
      exact List.mem_cons_self
    | cons x mid =>
      obtain ⟨rfl, rfl⟩ := List.cons.inj hrest
      exact (hminded before pusher chain seq mid rfl).step P hdid

/-- No gap report is forgotten. In every run, over any pushes and any loops: a pusher has
one loop while it has an entry, and none else; each gap noted waits, or is with its
pusher's loop, until it is answered; a push's note names all its gaps; what a step tells
is what it did, and what its store held; and a pusher's pulls run one after the other. -/
theorem no_gap_forgotten (events : List Event) :
    (∀ id id' pusher stage stage', (runOf C events).1.loops id = some ⟨pusher, stage⟩ →
        (runOf C events).1.loops id' = some ⟨pusher, stage'⟩ → id = id') ∧
      (∀ pusher, (∃ gaps, (runOf C events).1.gapPulls pusher = some gaps) ↔
        ∃ id stage, (runOf C events).1.loops id = some ⟨pusher, stage⟩) ∧
      (∀ before pusher chain seq after, (runOf C events).2 = before ++ .noted pusher chain seq :: after →
        Answered after pusher chain seq ∨ (runOf C events).1.Keeps pusher chain seq) ∧
      (∀ pusher gaps chain seq refused, gaps[chain]? = some (seq, refused) →
        .noted pusher chain seq ∈ ((runOf C events).1.step C (.push pusher gaps)).2) ∧
      (∀ e, ∀ x ∈ ((runOf C events).1.step C e).2, Told C (runOf C events).1 e x) ∧
      Histories.Each InTurn (runOf C events).2 := by
  have h := kept_run C events
  refine ⟨h.paired.one, h.paired.entry, fun before pusher chain seq after heq => ?_, ?_, ?_, h.turns⟩
  · exact (h.minded before pusher chain seq after heq).kept
  · intro pusher gaps chain seq refused hgap
    exact noted_of_push C _ hgap
  · exact step_told C _

/-! ### A push between a pull's failure and its loop's learning of it -/

def pusher : Bytes32 := ⟨List.replicate 32 7, by simp⟩

/-- A chain left short at a seq. -/
def short (seq : ℤ) : Gaps := (∅ : Gaps).insert ("dir", "a") (seq, 1)

theorem toList_short (seq : ℤ) : (short seq).toList = [(("dir", "a"), seq, 1)] := by
  apply List.perm_singleton.mp
  rw [List.perm_ext_iff_of_nodup (OrdMap.nodup_toList _) (List.nodup_singleton _)]
  rintro ⟨chain, last, refused⟩
  rw [Std.ExtTreeMap.mem_toList_iff_getElem?_eq_some, short, Std.ExtTreeMap.getElem?_insert]
  simp only [Std.LawfulEqOrd.compare_eq_iff_eq, List.mem_singleton, Prod.mk.injEq]
  split_ifs with hchain
  · simp [← hchain, eq_comm]
  · simpa using fun h => absurd h.symm hchain

/-- A pull fails, a push is refused, and only then does the loop learn of the failure. -/
def lateFailure : List Event :=
  [.push pusher (short 1), .start 0, .pulled 0 false, .push pusher (short 2), .take 0, .judge 0 Store.empty, .finish 0]

theorem short_ne_empty (seq : ℤ) : short seq ≠ ∅ := Std.ExtTreeMap.insert_ne_empty

theorem lateFailure_did (C : Crypto) : (runOf C lateFailure).2 =
    [.noted pusher ("dir", "a") 1, .began pusher, .ended pusher false] ++
      .noted pusher ("dir", "a") 2 :: [.taken pusher false, .reported pusher ((short 1).merge (short 2)) false] := by
  have h₁ := short_ne_empty 1
  have h₂ := short_ne_empty 2
  have hmerge : (∅ : Gaps).merge (short 2) = short 2 := by
    rw [Gaps.merge, toList_short]
    simp [Gaps.add, short]
  simp [runOf, lateFailure, Histories.run, State.step, State.noteGaps, State.new, State.move, State.put, State.takeGaps, h₁, h₂,
    toList_short, hmerge]

theorem lateFailure_keeps_nothing (C : Crypto) (chain : Chain) (seq : ℤ) : ¬ (runOf C lateFailure).1.Keeps pusher chain seq := by
  have h₁ := short_ne_empty 1
  have h₂ := short_ne_empty 2
  have hpulls : (runOf C lateFailure).1.gapPulls pusher = none := by
    simp [runOf, lateFailure, Histories.run, State.step, State.noteGaps, State.new, State.move, State.put, State.takeGaps, h₁, h₂]
  have hloops : ∀ id, (runOf C lateFailure).1.loops id = none := by
    intro id
    simp [runOf, lateFailure, Histories.run, State.step, State.noteGaps, State.new, State.move, State.put, State.takeGaps, h₁, h₂]
  rintro (⟨gaps, hget, -⟩ | ⟨id, stage, hloop, -⟩)
  · rw [hpulls] at hget
    cases hget
  · rw [hloops] at hloop
    cases hloop

/-- A gap may be let go with no pull since it was noted: one noted between a pull's
failure and its loop's learning of it. -/
theorem late_gap_dropped : ¬ ∃ C : Crypto, ∀ (events : List Event) before pusher chain seq after,
    (runOf C events).2 = before ++ .noted pusher chain seq :: after →
      (∃ ok, List.Sublist [.began pusher, .ended pusher ok] after) ∨ (∃ last, seq ≤ last ∧ .held pusher chain last ∈ after) ∨
        .ended pusher false ∈ after ∨ (runOf C events).1.Keeps pusher chain seq := by
  rintro ⟨C, h⟩
  rcases h lateFailure _ _ _ _ _ (lateFailure_did C) with ⟨ok, hsub⟩ | ⟨last, -, hheld⟩ | hended | hkeeps
  · simpa using hsub.subset List.mem_cons_self
  · simp at hheld
  · simp at hended
  · exact lateFailure_keeps_nothing C _ _ hkeeps

end Glade.Node.GapPulls
