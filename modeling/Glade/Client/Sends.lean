import Glade.Client.Answers

/-! Every send is answered once, and no op not placed is lost. What the calls on
`Answers` hand in comes out as answers or still waits, and the ops kept as not
placed are what those answers say: the ones answered not placed and not settled
since. -/

namespace Glade.Client

open Wire Node

variable {W : Type*}

/-! ### Accounts -/

/-- The send an answer is for. -/
def Answered.send (x : Answered W) : Op × Option W := (x.op, x.waiter)

def Sent.send (x : Sent W) : Op × Option W := (x.op, x.waiter)

/-- The sends that wait for a status. -/
def Answers.sends (a : Answers W) : List (Op × Option W) := a.waiting.map Sent.send

/-- What an answer does to the ops kept. -/
def note (kept : List Op) (x : Answered W) : List Op :=
  match x.outcome with
  | .notPlaced _ => if x.op ∈ kept then kept else kept ++ [x.op]
  | .refused _ _ => kept.filter (fun op => ¬ (sameChain op x.op ∧ x.op.seq ≤ op.seq))
  | .accepted | .retained => kept.filter (fun op => op ≠ x.op)
  | .unknown => kept

/-- A call that was handed sends and gave answers: each send is answered or
waits, and the ops kept are changed as the answers say. -/
structure Accounts (a : Answers W) (handed : List (Op × Option W)) (given : List (Answered W)) (a' : Answers W) : Prop where
  sends : (given.map Answered.send ++ a'.sends).Perm (a.sends ++ handed)
  unplaced : a'.unplaced = given.foldl note a.unplaced
  bound : a'.bound = a.bound
  fits : a.waiting.length ≤ a.bound → a'.waiting.length ≤ a'.bound

namespace Accounts

variable {a a' a'' : Answers W} {handed handed' : List (Op × Option W)} {given given' : List (Answered W)}

theorem refl (a : Answers W) : Accounts a [] [] a where
  sends := by simp
  unplaced := rfl
  bound := rfl
  fits := id

theorem trans (h : Accounts a handed given a') (h' : Accounts a' handed' given' a'') :
    Accounts a (handed ++ handed') (given ++ given') a'' where
  sends := by
    have h₁ : (given.map Answered.send ++ (given'.map Answered.send ++ a''.sends)).Perm
        (given.map Answered.send ++ (a'.sends ++ handed')) := h'.sends.append_left _
    have h₂ : (given.map Answered.send ++ a'.sends ++ handed').Perm (a.sends ++ handed ++ handed') :=
      h.sends.append_right _
    rw [List.map_append, List.append_assoc]
    apply h₁.trans
    rw [← List.append_assoc, ← List.append_assoc a.sends]
    exact h₂
  unplaced := by rw [List.foldl_append, ← h.unplaced, h'.unplaced]
  bound := h'.bound.trans h.bound
  fits hfits := h'.fits (h.fits hfits)

/-- What touches neither the sends nor the ops kept. -/
theorem of_eq (hwaiting : a'.waiting = a.waiting) (hunplaced : a'.unplaced = a.unplaced) (hbound : a'.bound = a.bound) :
    Accounts a [] [] a' where
  sends := by simp [Answers.sends, hwaiting]
  unplaced := hunplaced
  bound := hbound
  fits hfits := by rwa [hwaiting, hbound]

end Accounts

/-! ### One call -/

namespace Answers

variable (C : Crypto)

@[simp] theorem keep_waiting (a : Answers W) (op : Op) : (a.keep op).waiting = a.waiting := by
  unfold keep
  split <;> rfl

@[simp] theorem keep_bound (a : Answers W) (op : Op) : (a.keep op).bound = a.bound := by
  unfold keep
  split <;> rfl

@[simp] theorem keep_timers (a : Answers W) (op : Op) : (a.keep op).timers = a.timers := by
  unfold keep
  split <;> rfl

theorem keep_unplaced (a : Answers W) (op : Op) :
    (a.keep op).unplaced = if op ∈ a.unplaced then a.unplaced else a.unplaced ++ [op] := by
  unfold keep
  split <;> rfl

@[simp] theorem quiet_waiting (a : Answers W) (zone : Zone) : (a.quiet zone).waiting = a.waiting := by
  unfold quiet
  split <;> rfl

@[simp] theorem quiet_bound (a : Answers W) (zone : Zone) : (a.quiet zone).bound = a.bound := by
  unfold quiet
  split <;> rfl

@[simp] theorem quiet_unplaced (a : Answers W) (zone : Zone) : (a.quiet zone).unplaced = a.unplaced := by
  unfold quiet
  split <;> rfl

theorem settle_waiting (a : Answers W) (session : Session) (op : Op) (outcome : OpOutcome) :
    (a.settle session op outcome).1.waiting = a.waiting := by
  cases outcome <;> simp [settle]

theorem settle_bound (a : Answers W) (session : Session) (op : Op) (outcome : OpOutcome) :
    (a.settle session op outcome).1.bound = a.bound := by
  cases outcome <;> simp [settle]

/-- A status never says that none came. -/
theorem outcomeOf_ne_unknown (a : Answers W) (op : Op) (status : Error) : a.outcomeOf op status ≠ .unknown := by
  unfold outcomeOf
  split
  case h_4 => split <;> simp
  all_goals simp

theorem sent_accounts (a : Answers W) (op : Op) (waiter : Option W) :
    Accounts a [(op, waiter)] (a.sent C op waiter).1.toList (a.sent C op waiter).2 := by
  unfold sent
  by_cases hfits : (a.waiting ++ [(⟨hex (opHash C op), op, waiter⟩ : Sent W)]).length ≤ a.bound
  · rw [if_pos hfits]
    exact { sends := by simp [sends, Sent.send], unplaced := rfl, bound := rfl, fits := fun _ => hfits }
  · rw [if_neg hfits]
    cases hw : a.waiting with
    | nil => exact { sends := by simp [sends, hw, unknown, Answered.send], unplaced := rfl, bound := rfl, fits := by simp }
    | cons oldest rest =>
      exact
        { sends := by simp [sends, hw, unknown, Answered.send, Sent.send]
          unplaced := rfl
          bound := rfl
          fits := by simp [hw] }

theorem offer_accounts (a : Answers W) (op : Op) (waiter : Option W) :
    Accounts a [(op, waiter)] (a.offer C op waiter).2.1.toList (a.offer C op waiter).2.2 := by
  unfold offer
  split
  case h_1 kept _ =>
    exact
      { sends := by simpa [sends, Answered.send] using List.perm_append_singleton (op, waiter) _ |>.symm
        unplaced := by simp [note, keep_unplaced]
        bound := keep_bound a op
        fits := by simp }
  case h_2 => exact a.sent_accounts C op waiter

/-- Each op handed to `toSend` is answered at once or waits. -/
theorem toSend_accounts (a : Answers W) (ops : List (Op × Option W)) :
    Accounts a ops (a.toSend C ops).2.1 (a.toSend C ops).2.2 := by
  induction ops generalizing a with
  | nil => exact .refl a
  | cons send rest ih => exact (a.offer_accounts C send.1 send.2).trans (ih _)

theorem settle_unplaced (a : Answers W) (session : Session) (x : Answered W) (h : x.outcome ≠ .unknown) :
    (a.settle session x.op x.outcome).1.unplaced = note a.unplaced x := by
  unfold settle note
  cases hx : x.outcome with
  | notPlaced message => exact keep_unplaced a x.op
  | unknown => exact absurd hx h
  | _ => rfl

/-- A status names nothing that waits, or it answers the oldest send of the hash
it names. -/
theorem status_cases (a : Answers W) (session : Session) (status : Error) :
    a.status session status = (none, a, session) ∨
    ∃ found earlier later newlyUnplaced, status.corr = some found.hash ∧ a.waiting = earlier ++ found :: later ∧
      (∀ s ∈ earlier, s.hash ≠ found.hash) ∧
      let outcome := a.outcomeOf found.op status
      let settled := { a with waiting := earlier ++ later }.settle session found.op outcome
      a.status session status =
        (some { op := found.op, outcome, waiter := found.waiter, newlyUnplaced },
          settled.1.quiet (zoneOf found.op), settled.2) := by
  unfold Answers.status
  cases hcorr : status.corr with
  | none => exact .inl rfl
  | some corr =>
    cases hfind : a.waiting.find? (fun sent => sent.hash = corr) with
    | none => exact .inl (by simp only [hfind])
    | some found =>
      obtain ⟨hhash, earlier, later, hw, hearlier⟩ := List.find?_eq_some_iff_append.mp hfind
      have hhash : found.hash = corr := by simpa using hhash
      have hearlier : ∀ s ∈ earlier, s.hash ≠ found.hash := by
        intro s hs
        simpa [hhash] using hearlier s hs
      have herase : a.waiting.eraseP (fun sent => sent.hash = corr) = earlier ++ later := by
        rw [hw, List.eraseP_append_right _ fun s hs => by simpa [hhash] using hearlier s hs,
          List.eraseP_cons_of_pos (by simpa using hhash)]
      refine .inr ⟨found, earlier, later, ?_, by rw [hhash], hw, hearlier, ?_⟩
      case refine_2 =>
        simp only [hfind, herase]
        rfl

theorem status_accounts (a : Answers W) (session : Session) (status : Error) :
    Accounts a [] (a.status session status).1.toList (a.status session status).2.1 := by
  rcases a.status_cases session status with heq | ⟨found, earlier, later, newlyUnplaced, -, hw, -, heq⟩
  · rw [heq]
    exact .refl a
  · have hperm : (found :: (earlier ++ later)).Perm a.waiting := by
      rw [hw]
      exact List.perm_middle.symm
    rw [heq]
    exact
      { sends := by
          simp only [Option.toList_some, List.map_cons, List.map_nil, sends, quiet_waiting, settle_waiting, List.append_nil]
          exact hperm.map Sent.send
        unplaced := by
          rw [quiet_unplaced]
          exact settle_unplaced _ session ⟨found.op, a.outcomeOf found.op status, none, false⟩
            (outcomeOf_ne_unknown a found.op status)
        bound := by rw [quiet_bound, settle_bound]
        fits := fun hfits => by
          rw [quiet_waiting, settle_waiting, quiet_bound, settle_bound]
          have := hperm.length_eq
          simp only [List.length_cons] at this
          dsimp only
          omega }

theorem ended_accounts (a : Answers W) : Accounts a [] a.ended.1 a.ended.2 where
  sends := by
    have hsend : (Answered.send ∘ unknown : Sent W → Op × Option W) = Sent.send := rfl
    simp [ended, sends, hsend]
  unplaced := by
    have hnote : ∀ sends : List (Sent W), (sends.map unknown).foldl note a.unplaced = a.unplaced := by
      intro sends
      induction sends with
      | nil => rfl
      | cons s rest ih => exact ih
    exact (hnote a.waiting).symm
  bound := rfl
  fits := by simp [ended]

theorem startResending_accounts (a : Answers W) (zone : Zone) : Accounts a [] [] (a.startResending zone).2 := by
  unfold startResending
  split
  · exact .refl a
  · exact .of_eq rfl rfl rfl

end Answers

/-! ### Runs -/

/-- A call on `Answers`. `resend` and `tick` hand back what they send again. -/
inductive Call (W : Type*) where
  | send (ops : List (Op × Option W))
  | status (session : Session) (status : Error)
  | ended
  | resend (zone : Zone)
  | tick (zone : Zone) (timer : ℕ)
  | startResending (zone : Zone)
  | nextResend (zone : Zone)

/-- What calls so far were handed, what they answered, and where they led. -/
structure Past (W : Type*) where
  handed : List (Op × Option W)
  answered : List (Answered W)
  answers : Answers W

namespace Past

variable (C : Crypto)

/-- Hand ops to `toSend`. -/
def send (p : Past W) (ops : List (Op × Option W)) : Past W :=
  let (_, due, a) := p.answers.toSend C ops
  { handed := p.handed ++ ops, answered := p.answered ++ due, answers := a }

/-- Send ops again, with no waiters. -/
def again (p : Past W) (ops : List Op) : Past W := p.send C (ops.map fun op => (op, none))

def step (p : Past W) : Call W → Past W
  | .send ops => p.send C ops
  | .status session status =>
    let (answered, a, _) := p.answers.status session status
    { p with answered := p.answered ++ answered.toList, answers := a }
  | .ended =>
    let (answered, a) := p.answers.ended
    { p with answered := p.answered ++ answered, answers := a }
  | .resend zone => p.again C (p.answers.unplacedIn zone)
  | .tick zone timer =>
    match p.answers.resendTick zone timer with
    | none => p
    | some ops => p.again C ops
  | .startResending zone => { p with answers := (p.answers.startResending zone).2 }
  | .nextResend zone => { p with answers := (p.answers.nextResend zone).2 }

def run (bound : ℕ) (calls : List (Call W)) : Past W :=
  calls.foldl (step C) { handed := [], answered := [], answers := .new bound }

/-- The accounts of everything since `a`. -/
def Balanced (a : Answers W) (p : Past W) : Prop := Accounts a p.handed p.answered p.answers

theorem Balanced.send {a : Answers W} {p : Past W} (h : p.Balanced a) (ops : List (Op × Option W)) :
    (p.send C ops).Balanced a := Accounts.trans h (p.answers.toSend_accounts C ops)

theorem Balanced.step {a : Answers W} {p : Past W} (h : p.Balanced a) (call : Call W) : (p.step C call).Balanced a := by
  -- A call that is handed nothing extends the account by its answers.
  have hnone : ∀ {given : List (Answered W)} {a' : Answers W}, Accounts p.answers [] given a' →
      Accounts a p.handed (p.answered ++ given) a' := by
    intro given a' h'
    have := Accounts.trans h h'
    rwa [List.append_nil] at this
  cases call with
  | send ops => exact h.send C ops
  | status session status => exact hnone (p.answers.status_accounts session status)
  | ended => exact hnone p.answers.ended_accounts
  | resend zone => exact h.send C _
  | tick zone timer =>
    unfold Past.step
    dsimp only
    cases p.answers.resendTick zone timer with
    | none => exact h
    | some ops => exact h.send C _
  | startResending zone =>
    have := hnone (p.answers.startResending_accounts zone)
    rwa [List.append_nil] at this
  | nextResend zone =>
    have : Accounts a p.handed (p.answered ++ []) (p.answers.nextResend zone).2 := hnone (.of_eq rfl rfl rfl)
    rwa [List.append_nil] at this

theorem run_balanced (bound : ℕ) (calls : List (Call W)) : (run C bound calls).Balanced (.new bound) := by
  have hrun : ∀ (calls : List (Call W)) (p : Past W), p.Balanced (.new bound) →
      (calls.foldl (step C) p).Balanced (.new bound) := by
    intro calls
    induction calls with
    | nil => exact fun _ h => h
    | cons call calls ih => exact fun p h => ih _ (h.step C call)
  exact hrun calls _ (.refl _)

end Past

/-! ### The ops kept -/

def OpOutcome.isNotPlaced : OpOutcome → Bool
  | .notPlaced _ => true
  | _ => false

/-- Whether an answer ends the keeping of `op`: it places that op, or refuses an
op of its chain at its seq or below. -/
def Settles (x : Answered W) (op : Op) : Prop :=
  match x.outcome with
  | .accepted | .retained => x.op = op
  | .refused _ _ => sameChain op x.op ∧ x.op.seq ≤ op.seq
  | _ => False

/-- Answered not placed, and not settled since. -/
def Outstanding (answered : List (Answered W)) (op : Op) : Prop :=
  ∃ earlier x later, answered = earlier ++ x :: later ∧ x.op = op ∧ x.outcome.isNotPlaced = true ∧ ∀ y ∈ later, ¬ Settles y op

theorem outstanding_concat {answered : List (Answered W)} {x : Answered W} {op : Op} :
    Outstanding (answered ++ [x]) op ↔ (x.op = op ∧ x.outcome.isNotPlaced = true) ∨ (Outstanding answered op ∧
      ¬ Settles x op) := by
  constructor
  · rintro ⟨earlier, y, later, heq, hop, hout, hlater⟩
    rcases List.eq_nil_or_concat later with rfl | ⟨later, z, rfl⟩
    · obtain ⟨-, rfl⟩ := List.append_inj' heq rfl |>.imp_right List.singleton_inj.mp
      exact .inl ⟨hop, hout⟩
    · rw [List.concat_eq_append, ← List.cons_append, ← List.append_assoc] at heq
      obtain ⟨rfl, hx⟩ := List.append_inj' heq rfl
      obtain rfl := List.singleton_inj.mp hx
      exact .inr ⟨⟨earlier, y, later, rfl, hop, hout, fun z hz => hlater z (by simp [hz])⟩, hlater x (by simp)⟩
  · rintro (⟨hop, hout⟩ | ⟨⟨earlier, y, later, rfl, hop, hout, hlater⟩, hx⟩)
    · exact ⟨answered, x, [], rfl, hop, hout, by simp⟩
    · refine ⟨earlier, y, later ++ [x], by simp, hop, hout, ?_⟩
      intro z hz
      rcases List.mem_append.mp hz with hz | hz
      · exact hlater z hz
      · rwa [List.mem_singleton.mp hz]

theorem nodup_note {kept : List Op} (h : kept.Nodup) (x : Answered W) : (note kept x).Nodup := by
  unfold note
  cases x.outcome with
  | notPlaced message =>
    by_cases hx : x.op ∈ kept
    · simpa [hx] using h
    · simpa [hx] using List.Nodup.concat hx h
  | unknown => exact h
  | _ => exact h.filter _

theorem mem_note {kept : List Op} {x : Answered W} {op : Op} :
    op ∈ note kept x ↔ (x.op = op ∧ x.outcome.isNotPlaced = true) ∨ (op ∈ kept ∧ ¬ Settles x op) := by
  unfold note Settles
  cases x.outcome with
  | notPlaced message =>
    by_cases hx : x.op ∈ kept
    · simp only [if_pos hx, OpOutcome.isNotPlaced, and_true, not_false_eq_true]
      exact ⟨.inr, fun h => h.elim (fun h => h ▸ hx) id⟩
    · simp only [if_neg hx, OpOutcome.isNotPlaced, and_true, not_false_eq_true, List.mem_append, List.mem_singleton]
      rw [or_comm, eq_comm]
  | refused code message =>
    rw [List.mem_filter, decide_eq_true_iff]
    simp [OpOutcome.isNotPlaced]
  | accepted =>
    rw [List.mem_filter, decide_eq_true_iff, ne_comm]
    simp [OpOutcome.isNotPlaced]
  | retained =>
    rw [List.mem_filter, decide_eq_true_iff, ne_comm]
    simp [OpOutcome.isNotPlaced]
  | unknown => simp [OpOutcome.isNotPlaced]

/-- What answers leave kept is what is outstanding, each op once. -/
theorem foldl_note (answered : List (Answered W)) :
    (answered.foldl note []).Nodup ∧ ∀ op, op ∈ answered.foldl note [] ↔ Outstanding answered op := by
  induction answered using List.reverseRecOn with
  | nil => simp [Outstanding]
  | append_singleton answered x ih =>
    rw [List.foldl_concat]
    refine ⟨nodup_note ih.1 x, fun op => ?_⟩
    rw [mem_note, ih.2, outstanding_concat]

/-- Over every sequence of calls each op handed in has exactly one answer, with
its own waiter, or still waits; no more wait than the bound; and the ops kept are
those answered not placed and not settled since, each once. -/
theorem every_send_answered (C : Crypto) (bound : ℕ) (calls : List (Call W)) :
    let p := Past.run C bound calls
    (p.answered.map Answered.send ++ p.answers.sends).Perm p.handed ∧ p.answers.waiting.length ≤ bound ∧
      p.answers.unplaced.Nodup ∧ ∀ op, op ∈ p.answers.unplaced ↔ Outstanding p.answered op := by
  intro p
  have h : Accounts (.new bound) p.handed p.answered p.answers := Past.run_balanced C bound calls
  have hkept := foldl_note p.answered
  refine ⟨by simpa [Answers.new, Answers.sends] using h.sends, ?_, ?_⟩
  · have := h.fits (Nat.zero_le _)
    rwa [h.bound] at this
  · rw [h.unplaced]
    exact hkept

/-! ### Two ops at one seq -/

/-- Alice's note of `text`, at seq 1. -/
def noteOf (text : Bytes) (h : OpData.Valid ⟨"s", "notes", [], "alice", 1, none, 1, [], .log, text⟩) : Op := ⟨_, h⟩

def firstNote : Op := noteOf [1] (by decide)

def secondNote : Op := noteOf [2] (by decide)

/-- A node's status for `op`. -/
def statusOf (C : Crypto) (op : Op) (code : ErrorCode) : Error :=
  { code, message := "", share := some op.share, gladeId := some op.gladeId, corr := some (hex (opHash C op)) }

/-- One note is not placed; another at its seq is sent, and refused. -/
def forkedCalls (C : Crypto) : List (Call Unit) :=
  [.send [(firstNote, none)], .status (.new "alice") (statusOf C firstNote .unknownShare),
    .send [(secondNote, none)], .status (.new "alice") (statusOf C secondNote .equivocation)]

theorem run_forkedCalls (C : Crypto) : (Past.run C 4096 (forkedCalls C)).answers.unplaced = [] ∧
    (Past.run C 4096 (forkedCalls C)).answered =
      [⟨firstNote, .notPlaced "", none, true⟩, ⟨secondNote, .refused .equivocation "", none, false⟩] := by
  have hchain : sameChain firstNote secondNote := by decide
  have hseq : firstNote.seq = 1 := by decide
  have hseq' : secondNote.seq = 1 := by decide
  simp [Past.run, forkedCalls, Past.step, Past.send, Answers.toSend, Answers.offer, Answers.before, Answers.unplacedBefore,
    Answers.sent, Answers.new, Answers.status, statusOf, Answers.outcomeOf, Answers.settle, Answers.keep, Answers.quiet,
    hchain, hseq, hseq']

/-- A refused op drops another op at its own seq, which is neither refused nor
behind a refused one. -/
theorem note_dropped_unrefused : ¬ ∃ C : Crypto, ∀ (bound : ℕ) (calls : List (Call Unit)) (earlier later : List (Answered Unit))
    (x : Answered Unit), (Past.run C bound calls).answered = earlier ++ x :: later → x.outcome.isNotPlaced = true →
    x.op ∈ (Past.run C bound calls).answers.unplaced ∨ ∃ y ∈ later,
      ((y.outcome = .accepted ∨ y.outcome = .retained) ∧ y.op = x.op) ∨
      ∃ code message, y.outcome = .refused code message ∧ (y.op = x.op ∨ (sameChain x.op y.op ∧ y.op.seq < x.op.seq)) := by
  rintro ⟨C, h⟩
  obtain ⟨hunplaced, hanswered⟩ := run_forkedCalls C
  have hne : secondNote ≠ firstNote := by decide
  have hseq : ¬ secondNote.seq < firstNote.seq := by decide
  have := h 4096 (forkedCalls C) [] _ _ hanswered rfl
  simp [hunplaced, hne, hseq] at this

end Glade.Client
