import Glade.Client.Sends

/-! The ops in flight, and those to send again. Ops let go go past no op of their
chain that is kept as not placed and not in flight, what is sent again goes in its
chain's order, and no later op of its chain has reached the wire before an op that is to
be sent again. A send let go past the bound is the exception: an op whose last send is
let go is in flight no more. -/

namespace Glade.Client

open Wire Node

variable {W : Type*} {C : Crypto}

/-- `x` is `k`, or after it on its chain. -/
def AtOrAfter (k x : Op) : Prop := x = k ∨ (sameChain k x ∧ k.seq < x.seq)

/-- The ops of each chain go in the order of their seqs. -/
def InChainOrder (ops : List Op) : Prop := ops.Pairwise fun x y => sameChain x y → x.seq < y.seq

theorem sameChain.zoneOf {a b : Op} (h : sameChain a b) : Client.zoneOf a = Client.zoneOf b := by
  unfold Client.zoneOf
  rw [h.1, h.2.1, h.2.2.1]

theorem sameChain.trans {a b c : Op} (h : sameChain a b) (h' : sameChain b c) : sameChain a c :=
  ⟨h.1.trans h'.1, h.2.1.trans h'.2.1, h.2.2.1.trans h'.2.2.1, h.2.2.2.trans h'.2.2.2⟩

/-- What comes at or after an op comes after those before it. -/
theorem AtOrAfter.after {k x y : Op} (hchain : sameChain k x) (hseq : k.seq < x.seq) (h : AtOrAfter x y) :
    sameChain k y ∧ k.seq < y.seq := by
  rcases h with rfl | ⟨hchain', hseq'⟩
  · exact ⟨hchain, hseq⟩
  · exact ⟨hchain.trans hchain', hseq.trans hseq'⟩

theorem inZone_iff {op : Op} {zone : Zone} : inZone op zone ↔ zoneOf op = zone := by
  obtain ⟨share, gladeId, key⟩ := zone
  simp [inZone, zoneOf]

/-! ### Sends in flight -/

namespace Answers

/-- The ops sent and waiting, oldest first. -/
def flights (a : Answers W) : List Op := a.waiting.map Sent.op

theorem inFlight_iff {a : Answers W} {op : Op} : a.inFlight op = true ↔ op ∈ a.flights := by
  simp [inFlight, flights]

theorem before_eq_none {a : Answers W} {op : Op} :
    a.before op = none ↔ ∀ k ∈ a.unplaced, sameChain k op → k.seq < op.seq → k ∈ a.flights := by
  unfold before unplacedBefore
  rw [List.find?_eq_none]
  constructor
  · intro h k hk hchain hseq
    have := h k (List.mem_filter.mpr ⟨hk, by simp [hchain, hseq]⟩)
    rw [← inFlight_iff]
    simpa using this
  · intro h k hk
    rw [List.mem_filter, decide_eq_true_iff] at hk
    simpa using inFlight_iff.mpr (h k hk.1 hk.2.1 hk.2.2)

theorem of_before_eq_some {a : Answers W} {op k : Op} (h : a.before op = some k) :
    k ∈ a.unplaced ∧ sameChain k op ∧ k.seq < op.seq ∧ k ∉ a.flights := by
  have hmem := List.mem_of_find?_eq_some h
  have hflight := List.find?_some h
  rw [unplacedBefore, List.mem_filter, decide_eq_true_iff] at hmem
  refine ⟨hmem.1, hmem.2.1, hmem.2.2, fun hk => ?_⟩
  rw [inFlight_iff.mpr hk] at hflight
  cases hflight

/-- Sending `op` lets go the last waiting send of `k`, an op kept as not placed. -/
def LetsGo (a : Answers W) (op k : Op) : Prop :=
  a.before op = none ∧ a.bound ≤ a.waiting.length ∧ k ∈ a.unplaced ∧ ∃ rest, a.flights ++ [op] = k :: rest ∧ k ∉ rest

variable (C) in
/-- The ops handed in let go no op kept as not placed, unless its zone's timer runs and
no later op of its chain is one of `later`. -/
def Spares (later : Op → Prop) (a : Answers W) : List (Op × Option W) → Prop
  | [] => True
  | (op, waiter) :: rest =>
    (∀ k, a.LetsGo op k → zoneOf k ∈ a.timers ∧ ∀ x, later x → ¬ (sameChain k x ∧ k.seq < x.seq)) ∧
      Spares later (a.offer C op waiter).2.2 rest

theorem sent_flights (a : Answers W) (op : Op) (waiter : Option W) : (a.sent C op waiter).2.flights =
    if a.flights.length < a.bound then a.flights ++ [op] else (a.flights ++ [op]).tail := by
  have hlen : a.flights.length = a.waiting.length := List.length_map ..
  simp only [sent, List.length_append, List.length_singleton, hlen, Nat.succ_le_iff]
  split
  · simp [flights]
  · simp [flights, List.map_tail]

@[simp] theorem sent_unplaced (a : Answers W) (op : Op) (waiter : Option W) : (a.sent C op waiter).2.unplaced = a.unplaced := by
  simp only [sent]
  split <;> rfl

@[simp] theorem sent_timers (a : Answers W) (op : Op) (waiter : Option W) : (a.sent C op waiter).2.timers = a.timers := by
  simp only [sent]
  split <;> rfl

@[simp] theorem keep_flights (a : Answers W) (op : Op) : (a.keep op).flights = a.flights := by
  rw [flights, keep_waiting]
  rfl

theorem mem_keep {a : Answers W} {op k : Op} : k ∈ (a.keep op).unplaced ↔ k ∈ a.unplaced ∨ k = op := by
  rw [keep_unplaced]
  split
  case isTrue h => exact ⟨.inl, fun hk => hk.elim id fun hk => hk ▸ h⟩
  case isFalse => simp

/-- What is in flight once `op` is sent was before, or is `op`. -/
theorem mem_of_mem_flights_sent {a : Answers W} {op x : Op} {waiter : Option W} (h : x ∈ (a.sent C op waiter).2.flights) :
    x ∈ a.flights ∨ x = op := by
  rw [sent_flights] at h
  have hmem : x ∈ a.flights ++ [op] := by
    split_ifs at h
    · exact h
    · exact List.mem_of_mem_tail h
  simpa using hmem

/-- An op kept as not placed and in flight, or just sent, is in flight still
unless it is let go. -/
theorem mem_flights_sent {a : Answers W} {op k : Op} (waiter : Option W) (hbefore : a.before op = none)
    (hk : k ∈ a.unplaced) (hflight : k ∈ a.flights ∨ k = op) (hgo : ¬ a.LetsGo op k) :
    k ∈ (a.sent C op waiter).2.flights := by
  have hmem : k ∈ a.flights ++ [op] := by simpa using hflight
  rw [sent_flights]
  by_cases hroom : a.flights.length < a.bound
  · rwa [if_pos hroom]
  · rw [if_neg hroom]
    have hfull : a.bound ≤ a.waiting.length := by
      rw [flights, List.length_map] at hroom
      omega
    cases hlist : a.flights ++ [op] with
    | nil => simp at hlist
    | cons oldest rest =>
      by_contra hrest
      rw [List.tail_cons] at hrest
      rw [hlist, List.mem_cons, or_iff_left hrest] at hmem
      exact hgo ⟨hbefore, hfull, hk, rest, by rw [hlist, hmem], hrest⟩

/-! ### One batch -/

/-- In a zone that is not timed, nothing at or after an op to send again is on the wire. -/
def Awaited (a : Answers W) (timed : Zone → Prop) (wire : List Op) : Prop :=
  ∀ k ∈ a.unplaced, ¬ timed (zoneOf k) → k ∉ a.flights → ∀ x ∈ wire, ¬ AtOrAfter k x

/-- Every op of `out` that is in flight has the ops of its chain before it in flight or
placed. -/
def Behind (a : Answers W) (out : Op → Prop) : Prop :=
  ∀ x, out x → x ∈ a.flights → ∀ k ∈ a.unplaced, sameChain k x → k.seq < x.seq → k ∈ a.flights

theorem offer_awaited {a : Answers W} {later : Op → Prop} {rest : List (Op × Option W)} {op : Op} {waiter : Option W}
    {timed : Zone → Prop} {wire : List Op} (htimed : ∀ zone ∈ a.timers, timed zone) (h : a.Awaited timed wire)
    (hspares : Spares C later a ((op, waiter) :: rest)) : (a.offer C op waiter).2.2.Awaited timed wire := by
  unfold offer
  cases hbefore : a.before op with
  | some b =>
    obtain ⟨hb, hchain, hseq, hflight⟩ := of_before_eq_some hbefore
    intro k hk htimer hkf x hx hafter
    rw [keep_flights] at hkf
    rcases mem_keep.mp hk with hk | rfl
    · exact h k hk htimer hkf x hx hafter
    · rw [← hchain.zoneOf] at htimer
      exact h b hb htimer hflight x hx (.inr (hafter.after hchain hseq))
  | none =>
    intro k hk htimer hkf x hx hafter
    simp only [sent_unplaced] at hk
    have hgo : ¬ a.LetsGo op k := fun hgo => htimer (htimed _ (hspares.1 k hgo).1)
    exact h k hk htimer (fun hmem => hkf (mem_flights_sent waiter hbefore hk (.inl hmem) hgo)) x hx hafter

theorem offer_behind {a : Answers W} {out later : Op → Prop} {rest : List (Op × Option W)} {op : Op} {waiter : Option W}
    (h : a.Behind out) (hspares : Spares C later a ((op, waiter) :: rest)) (hlater : ∀ x, out x ∨ x = op → later x) :
    (a.offer C op waiter).2.2.Behind fun x => out x ∨ x ∈ (a.offer C op waiter).1.toList := by
  unfold offer
  cases hbefore : a.before op with
  | some b =>
    obtain ⟨hb, hchain, hseq, hflight⟩ := of_before_eq_some hbefore
    intro x hx hxf k hk hkx hlt
    rw [keep_flights] at hxf ⊢
    have hout : out x := by simpa using hx
    rcases mem_keep.mp hk with hk | rfl
    · exact h x hout hxf k hk hkx hlt
    · exact absurd (h x hout hxf b hb (hchain.trans hkx) (hseq.trans hlt)) hflight
  | none =>
    intro x hx hxf k hk hkx hlt
    rw [sent_unplaced] at hk
    have hx : out x ∨ x = op := by simpa using hx
    have hgo : ¬ a.LetsGo op k := fun hgo => (hspares.1 k hgo).2 x (hlater x hx) ⟨hkx, hlt⟩
    have hflight : k ∈ a.flights := by
      by_cases hop : x = op
      · subst hop
        exact before_eq_none.mp hbefore k hk hkx hlt
      · exact h x (hx.resolve_right hop) ((mem_of_mem_flights_sent hxf).resolve_right hop) k hk hkx hlt
    exact mem_flights_sent waiter hbefore hk (.inl hflight) hgo

theorem offer_timers (a : Answers W) (op : Op) (waiter : Option W) : (a.offer C op waiter).2.2.timers = a.timers ∧
    (a.offer C op waiter).2.2.timerCount = a.timerCount := by
  unfold offer
  split
  · simp only [keep]
    split <;> exact ⟨rfl, rfl⟩
  · simp only [sent]
    split <;> exact ⟨rfl, rfl⟩

theorem toSend_timers (a : Answers W) (ops : List (Op × Option W)) : (a.toSend C ops).2.2.timers = a.timers ∧
    (a.toSend C ops).2.2.timerCount = a.timerCount := by
  induction ops generalizing a with
  | nil => exact ⟨rfl, rfl⟩
  | cons send rest ih =>
    have hoffer := a.offer_timers (C := C) send.1 send.2
    exact ⟨(ih _).1.trans hoffer.1, (ih _).2.trans hoffer.2⟩

theorem toSend_awaited {a : Answers W} {later : Op → Prop} {ops : List (Op × Option W)} {timed : Zone → Prop} {wire : List Op}
    (htimed : ∀ zone ∈ a.timers, timed zone) (h : a.Awaited timed wire) (hspares : Spares C later a ops) :
    (a.toSend C ops).2.2.Awaited timed wire := by
  induction ops generalizing a with
  | nil => exact h
  | cons send rest ih =>
    have htimers := (a.offer_timers (C := C) send.1 send.2).1
    exact ih (fun zone hzone => htimed zone (htimers ▸ hzone)) (offer_awaited htimed h hspares) hspares.2

/-- The ops let go are behind those of their chains before them. -/
theorem toSend_behind {a : Answers W} {out later : Op → Prop} {ops : List (Op × Option W)} (h : a.Behind out)
    (hspares : Spares C later a ops) (hlater : ∀ x, out x ∨ x ∈ ops.map Prod.fst → later x) :
    (a.toSend C ops).2.2.Behind fun x => out x ∨ x ∈ (a.toSend C ops).1 := by
  induction ops generalizing a out with
  | nil =>
    intro x hx
    exact h x (hx.resolve_right (by simp [toSend]))
  | cons send rest ih =>
    have hstep := offer_behind h hspares fun x hx => hlater x (hx.imp_right (by rintro rfl; simp))
    have hoffer : ∀ x ∈ (a.offer C send.1 send.2).1.toList, x = send.1 := by
      unfold offer
      split <;> simp
    have hrest := ih hstep hspares.2 fun x hx => hlater x (by
      rcases hx with (hx | hx) | hx
      · exact .inl hx
      · exact .inr (by simp [hoffer x hx])
      · exact .inr (List.mem_cons_of_mem _ hx))
    intro x hx
    refine hrest x ?_
    rcases hx with hx | hx
    · exact .inl (.inl hx)
    · exact (List.mem_append.mp hx).imp_left .inr

/-- What goes on the wire goes in the order it was handed in. -/
theorem toSend_sublist (a : Answers W) (ops : List (Op × Option W)) : (a.toSend C ops).1.Sublist (ops.map Prod.fst) := by
  induction ops generalizing a with
  | nil => exact List.Sublist.slnil
  | cons send rest ih =>
    have hoffer : (a.offer C send.1 send.2).1.toList.Sublist [send.1] := by
      unfold offer
      split <;> simp
    exact hoffer.append (ih _)

/-! ### Sending again -/

instance : Std.Total (InOrder) where
  total a b := by
    unfold InOrder
    rcases lt_trichotomy a.origin b.origin with h | h | h
    · exact .inl (.inl h)
    · rcases le_total a.seq b.seq with hle | hle
      · exact .inl (.inr ⟨h, hle⟩)
      · exact .inr (.inr ⟨h.symm, hle⟩)
    · exact .inr (.inl h)

instance : IsTrans Op InOrder where
  trans a b c hab hbc := by
    rcases hab with hab | ⟨hab, hseq⟩
    · rcases hbc with hbc | ⟨hbc, -⟩
      · exact .inl (hab.trans hbc)
      · exact .inl (hbc ▸ hab)
    · rcases hbc with hbc | ⟨hbc, hseq'⟩
      · exact .inl (hab ▸ hbc)
      · exact .inr ⟨hab.trans hbc, hseq.trans hseq'⟩

theorem InOrder.seq_le {a b : Op} (h : InOrder a b) (hchain : sameChain a b) : a.seq ≤ b.seq := by
  rcases h with h | ⟨-, h⟩
  · exact absurd (hchain.2.2.2 ▸ h) (lt_irrefl _)
  · exact h

/-- No two of a zone's ops to send again are of one chain and at one seq. -/
def Unforked (a : Answers W) (zone : Zone) : Prop :=
  ∀ x ∈ a.unplaced, ∀ y ∈ a.unplaced, zoneOf x = zone → x ∉ a.flights → y ∉ a.flights → sameChain x y → x.seq = y.seq → x = y

theorem mem_unplacedIn {a : Answers W} {zone : Zone} {op : Op} :
    op ∈ a.unplacedIn zone ↔ op ∈ a.unplaced ∧ zoneOf op = zone ∧ op ∉ a.flights := by
  unfold unplacedIn
  rw [List.mem_insertionSort, List.mem_filter, decide_eq_true_iff, inZone_iff, inFlight_iff]

/-- A zone's ops to send again go in their chains' order. -/
theorem unplacedIn_inChainOrder {a : Answers W} {zone : Zone} (hnodup : a.unplaced.Nodup) (hforks : a.Unforked zone) :
    InChainOrder (a.unplacedIn zone) := by
  have horder : (a.unplacedIn zone).Pairwise InOrder := List.pairwise_insertionSort InOrder _
  have hnodup' : (a.unplacedIn zone).Nodup := (List.perm_insertionSort InOrder _).nodup_iff.mpr (hnodup.filter _)
  refine (List.pairwise_and_iff.mpr ⟨hnodup', horder⟩).imp_of_mem fun {x y} hx hy h hchain => ?_
  obtain ⟨hxkept, hxzone, hxflight⟩ := mem_unplacedIn.mp hx
  obtain ⟨hykept, -, hyflight⟩ := mem_unplacedIn.mp hy
  exact lt_of_le_of_ne (h.2.seq_le hchain) fun hseq => h.1 (hforks x hxkept y hykept hxzone hxflight hyflight hchain hseq)

/-- A zone whose timer does not start has one, or has no op kept as not placed. -/
theorem startResending_eq_none {a : Answers W} {zone : Zone} (h : (a.startResending zone).1 = none) :
    zone ∈ a.timers ∨ ∀ k ∈ a.unplaced, zoneOf k ≠ zone := by
  unfold startResending at h
  split_ifs at h with hstart
  refine hstart.imp_right fun hnone k hk hzone => hnone ?_
  simp only [List.any_eq_true, decide_eq_true_eq]
  exact ⟨k, hk, inZone_iff.mpr hzone⟩

/-- A timer that starts is a new one. -/
theorem startResending_eq_some {a : Answers W} {zone : Zone} {timer : ℕ} (h : (a.startResending zone).1 = some timer) :
    timer = a.timerCount + 1 ∧
      (a.startResending zone).2 = { a with timers := a.timers.insert zone timer, timerCount := timer } := by
  unfold startResending at h ⊢
  split_ifs at h ⊢ with hstart
  obtain rfl := Option.some.inj h
  exact ⟨rfl, rfl⟩

/-! ### Statuses -/

@[simp] theorem quiet_flights (a : Answers W) (zone : Zone) : (a.quiet zone).flights = a.flights := by
  rw [flights, quiet_waiting]
  rfl

theorem mem_quiet_timers {a : Answers W} {zone zone' : Zone} (h : zone' ≠ zone) :
    zone' ∈ (a.quiet zone).timers ↔ zone' ∈ a.timers := by
  unfold quiet
  split
  case isTrue => rfl
  case isFalse => simp [h.symm]

theorem quiet_getElem {a : Answers W} {zone zone' : Zone} {timer : ℕ} (h : (a.quiet zone).timers[zone']? = some timer) :
    a.timers[zone']? = some timer := by
  unfold quiet at h
  split at h
  · exact h
  · rw [Std.ExtTreeMap.getElem?_erase] at h
    split at h
    · cases h
    · exact h

theorem settle_timers (a : Answers W) (session : Session) (op : Op) (outcome : OpOutcome) :
    (a.settle session op outcome).1.timers = a.timers ∧ (a.settle session op outcome).1.timerCount = a.timerCount := by
  cases outcome with
  | notPlaced message =>
    simp only [settle, keep]
    split <;> exact ⟨rfl, rfl⟩
  | _ => exact ⟨rfl, rfl⟩

/-- The status finds `k` not placed. -/
def Unplaces (a : Answers W) (status : Error) (k : Op) : Prop :=
  ∃ sent, a.waiting.find? (fun sent => status.corr = some sent.hash) = some sent ∧ sent.op = k ∧
    (status.code = .unknownShare ∨ status.code = .protocol ∧ a.unplacedBefore k ≠ [])

theorem isNotPlaced_outcomeOf {a : Answers W} {op : Op} {status : Error} (h : (a.outcomeOf op status).isNotPlaced = true) :
    status.code = .unknownShare ∨ status.code = .protocol ∧ a.unplacedBefore op ≠ [] := by
  unfold outcomeOf at h
  split at h
  case h_3 hcode => exact .inl hcode
  case h_4 hcode =>
    split_ifs at h with hbefore
    · cases h
    · exact .inr ⟨hcode, hbefore⟩
  all_goals cases h

/-- A status names nothing that waits, or answers one send: that op is in flight once
less, and is kept if the status finds it not placed, and kept no more otherwise. -/
theorem status_spec (a : Answers W) (session : Session) (status : Error) :
    a.status session status = (none, a, session) ∨
    ∃ x earlier later, (a.status session status).1 = some x ∧ a.flights = earlier ++ x.op :: later ∧
      (a.status session status).2.1.flights = earlier ++ later ∧
      (∀ k ∈ (a.status session status).2.1.unplaced, a.Unplaces status k ∧ k = x.op ∨ k ∈ a.unplaced ∧ k ≠ x.op) ∧
      (∀ zone ≠ zoneOf x.op, zone ∈ (a.status session status).2.1.timers ↔ zone ∈ a.timers) := by
  rcases a.status_cases session status with heq | ⟨found, earlier, later, newlyUnplaced, hcorr, hw, hearlier, heq⟩
  · exact .inl heq
  refine .inr ⟨_, earlier.map Sent.op, later.map Sent.op, by rw [heq], ?_, ?_, fun k hk => ?_, fun zone hzone => ?_⟩
  · simp [flights, hw]
  · rw [heq, quiet_flights, flights, settle_waiting, List.map_append]
  · rw [heq, quiet_unplaced] at hk
    have hsettled := settle_unplaced { a with waiting := earlier ++ later } session
      ⟨found.op, a.outcomeOf found.op status, none, false⟩ (outcomeOf_ne_unknown a found.op status)
    rw [hsettled, mem_note] at hk
    have hfound : a.waiting.find? (fun sent => status.corr = some sent.hash) = some found := by
      rw [List.find?_eq_some_iff_append]
      refine ⟨by simpa using hcorr, earlier, later, hw, fun s hs => ?_⟩
      simpa [hcorr] using (hearlier s hs).symm
    -- Only a status that finds its op not placed leaves that op kept.
    have hself : k = found.op → (a.outcomeOf found.op status).isNotPlaced = true → a.Unplaces status k := by
      rintro rfl hnot
      exact ⟨found, hfound, rfl, isNotPlaced_outcomeOf hnot⟩
    rcases hk with ⟨hop, hnot⟩ | ⟨hk, hsettles⟩
    · exact .inl ⟨hself hop.symm hnot, hop.symm⟩
    by_cases hop : k = found.op
    · refine .inl ⟨hself hop ?_, hop⟩
      subst hop
      have hunknown := outcomeOf_ne_unknown a found.op status
      unfold Settles at hsettles
      cases houtcome : a.outcomeOf found.op status with
      | notPlaced message => rfl
      | unknown => exact absurd houtcome hunknown
      | accepted => simp [houtcome] at hsettles
      | retained => simp [houtcome] at hsettles
      | refused code message => simp [houtcome, sameChain] at hsettles
    · exact .inr ⟨hk, hop⟩
  · rw [heq, mem_quiet_timers hzone, (settle_timers _ _ _ _).1]

/-- A status leaves the zones it is not about as they were. -/
theorem status_awaited {a : Answers W} {timed timed' : Zone → Prop} {wire : List Op} {session : Session} {status : Error}
    {x : Answered W} (h : a.Awaited timed wire) (hx : (a.status session status).1 = some x) (hzone : timed' (zoneOf x.op))
    (htimed : ∀ zone ≠ zoneOf x.op, timed zone → timed' zone) : (a.status session status).2.1.Awaited timed' wire := by
  rcases a.status_spec session status with heq | ⟨x', earlier, later, hx', hflights, hflights', hkept, -⟩
  · rw [heq] at hx
    cases hx
  obtain rfl := Option.some.inj (hx.symm.trans hx')
  intro k hk htimer hflight
  have hother : zoneOf k ≠ zoneOf x.op := fun heq => htimer (heq ▸ hzone)
  rcases hkept k hk with ⟨-, rfl⟩ | ⟨hk, hne⟩
  · exact absurd rfl hother
  · refine h k hk (fun htimed' => htimer (htimed _ hother htimed')) fun hmem => hflight ?_
    rw [hflights] at hmem
    rw [hflights']
    simpa [hne] using hmem

/-- A status that finds no op not placed with a later one of its chain out leaves those
out behind the ones before them. -/
theorem status_behind {a : Answers W} {out : Op → Prop} (session : Session) {status : Error} (h : a.Behind out)
    (hspares : ∀ k, a.Unplaces status k → ∀ x, out x → ¬ (sameChain k x ∧ k.seq < x.seq)) :
    (a.status session status).2.1.Behind out := by
  rcases a.status_spec session status with heq | ⟨y, earlier, later, -, hflights, hflights', hkept, -⟩
  · rwa [heq]
  intro x hx hxf k hk hchain hseq
  rcases hkept k hk with ⟨hunplaces, -⟩ | ⟨hk, hne⟩
  · exact absurd ⟨hchain, hseq⟩ (hspares k hunplaces x hx)
  · have hxf : x ∈ a.flights := by
      rw [hflights'] at hxf
      rw [hflights]
      simpa using (List.mem_append.mp hxf).imp_right Or.inr
    have hmem := h x hx hxf k hk hchain hseq
    rw [hflights] at hmem
    rw [hflights']
    simpa [hne] using hmem

theorem status_timers (a : Answers W) (session : Session) (status : Error) :
    (∀ (zone : Zone) (timer : ℕ), (a.status session status).2.1.timers[zone]? = some timer → a.timers[zone]? = some timer) ∧
      (a.status session status).2.1.timerCount = a.timerCount := by
  rcases a.status_cases session status with heq | ⟨found, earlier, later, newlyUnplaced, -, -, -, heq⟩
  · rw [heq]
    exact ⟨fun _ _ => id, rfl⟩
  · rw [heq]
    have hcount : ∀ (a : Answers W) (zone : Zone), (a.quiet zone).timerCount = a.timerCount := by
      intro a zone
      unfold quiet
      split <;> rfl
    refine ⟨fun zone timer hzone => ?_, (hcount _ _).trans (settle_timers _ _ _ _).2⟩
    have := quiet_getElem hzone
    rwa [(settle_timers _ _ _ _).1] at this

end Answers

theorem Accounts.nodup {a a' : Answers W} {handed : List (Op × Option W)} {given : List (Answered W)}
    (h : Accounts a handed given a') (hnodup : a.unplaced.Nodup) : a'.unplaced.Nodup := by
  rw [h.unplaced]
  clear h
  induction given generalizing a with
  | nil => exact hnodup
  | cons x given ih => exact ih (a := { a with unplaced := note a.unplaced x }) (nodup_note hnodup x)

end Glade.Client
