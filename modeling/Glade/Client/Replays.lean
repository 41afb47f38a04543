import Glade.Client.Subscribes
import Glade.Lib.Histories

/-! What a subscribe's answer is given from: over every sequence of calls on the
subscribes, each is answered once or waits, and is accepted only from an ack of its own
zone, taken in its turn, and a replay this connection saw. -/

namespace Glade.Client

open Wire Node Histories

variable {S : Type*}

namespace Subscribes

/-! ### Calls -/

inductive Call (S : Type*) where
  | sent (zone : Zone) (waiter : S)
  | acked (ack : Heads)
  | reason (status : Error)
  | refusedAfterAck (status : Error)
  | received (ops : List Op)
  | answered (op : Op) (outcome : OpOutcome)
  | failed (ops : List Op)
  | notTaken
  | ended

/-- What the subscribes heard, and what they gave, in order. -/
inductive Heard (S : Type*) where
  | sent (zone : Zone) (waiter : S)
  | acked (ack : Heads)
  | error (status : Error)
  /-- An op received, or sent and answered Ok. -/
  | saw (op : Op)
  | dropped
  | ended
  | answered (x : Subscribed S)
  | failed (waiter : S)

def given (a : Abandoned S) : List (Heard S) := a.failed.map .failed ++ a.refused.map .answered

def step (s : Subscribes S) : Call S → Subscribes S × List (Heard S)
  | .sent zone waiter => (s.sent zone waiter, [.sent zone waiter])
  | .acked ack =>
    match s.acked ack with
    | (.ok done, s) => (s, .acked ack :: done.toList.map .answered)
    | (.error abandoned, s) => (s, .acked ack :: given abandoned)
  | .reason status =>
    let (done, s) := s.reason status
    (s, .error status :: done.toList.map .answered)
  | .refusedAfterAck status =>
    let (refused, s) := s.refusedAfterAck status
    (s, .error status :: refused.subscribes.map .answered)
  | .received ops =>
    let (done, s) := s.received ops
    (s, ops.map .saw ++ done.map .answered)
  | .answered op outcome =>
    let (done, s) := s.answered op outcome
    (s, (if outcome = .accepted then [.saw op] else []) ++ done.map .answered)
  | .failed ops =>
    let (failed, s) := s.failed ops
    (s, failed.map .failed)
  | .notTaken =>
    let (abandoned, s) := s.notTaken
    (s, given abandoned ++ [.dropped])
  | .ended =>
    let (abandoned, s) := s.ended
    (s, given abandoned ++ [.ended])

/-! ### The account -/

/-- Who waits for an answer. -/
def waiting (s : Subscribes S) : List S :=
  s.unacked.map Prod.snd ++ (s.refused.map Prod.snd ++ s.catching.map fun w => w.2.2)

/-- Who comes to wait for an answer, and who was given one or told that none comes. -/
def Heard.subscribes : Heard S → List S
  | .sent _ waiter => [waiter]
  | _ => []

def Heard.settles : Heard S → List S
  | .answered x => [x.waiter]
  | .failed waiter => [waiter]
  | _ => []

def subscribers (t : List (Heard S)) : List S := t.flatMap Heard.subscribes

def settled (t : List (Heard S)) : List S := t.flatMap Heard.settles

@[simp] theorem subscribers_nil : subscribers ([] : List (Heard S)) = [] := rfl

@[simp] theorem settled_nil : settled ([] : List (Heard S)) = [] := rfl

@[simp] theorem subscribers_cons (x : Heard S) (t : List (Heard S)) : subscribers (x :: t) = x.subscribes ++ subscribers t := rfl

@[simp] theorem settled_cons (x : Heard S) (t : List (Heard S)) : settled (x :: t) = x.settles ++ settled t := rfl

theorem subscribers_append (t more : List (Heard S)) : subscribers (t ++ more) = subscribers t ++ subscribers more :=
  List.flatMap_append

theorem settled_append (t more : List (Heard S)) : settled (t ++ more) = settled t ++ settled more := List.flatMap_append

@[simp] theorem subscribers_answered (xs : List (Subscribed S)) : subscribers (xs.map .answered) = [] := by
  simp [subscribers, Heard.subscribes, List.flatMap_map]

@[simp] theorem settled_answered (xs : List (Subscribed S)) : settled (xs.map .answered) = xs.map Subscribed.waiter := by
  rw [settled, List.flatMap_map, List.map_eq_flatMap]
  rfl

@[simp] theorem subscribers_failed (xs : List S) : subscribers (xs.map .failed) = [] := by
  simp [subscribers, Heard.subscribes, List.flatMap_map]

@[simp] theorem settled_failed (xs : List S) : settled (xs.map .failed) = xs := by
  simp [settled, Heard.settles, List.flatMap_map]

@[simp] theorem subscribers_saw (ops : List Op) : subscribers (S := S) (ops.map .saw) = [] := by
  simp [subscribers, Heard.subscribes, List.flatMap_map]

@[simp] theorem settled_saw (ops : List Op) : settled (S := S) (ops.map .saw) = [] := by
  simp [settled, Heard.settles, List.flatMap_map]

/-- No subscribe that has caught up waits. -/
def Short (s : Subscribes S) : Prop := ∀ w ∈ s.catching, w.2.1.all (s.reached w.1) = false

/-- A call gives answers to some that wait, and to none besides. -/
def Accounts (s s' : Subscribes S) (did : List (Heard S)) : Prop :=
  (settled did ++ s'.waiting).Perm (s.waiting ++ subscribers did)

/-! ### What a connection has seen -/

theorem reached_congr {s s' : Subscribes S} (h : s'.seen = s.seen) (zone : Zone) (head : Head) :
    s'.reached zone head = s.reached zone head := by
  unfold reached
  rw [h]

/-- Whether an op takes a replay of `zone` to `head`. -/
def Reaches (op : Op) (zone : Zone) (head : Head) : Prop := zoneOf op = zone ∧ op.origin = head.origin ∧ head.seq ≤ op.seq

theorem reached_see (s : Subscribes S) (op : Op) (zone : Zone) (head : Head) :
    (s.see op).reached zone head = true ↔ s.reached zone head = true ∨ Reaches op zone head := by
  unfold see reached Reaches
  dsimp only
  rw [Std.ExtTreeMap.getElem?_insert]
  by_cases hkey : (zoneOf op, op.origin) = (zone, head.origin)
  · rw [if_pos (Std.LawfulEqOrd.compare_eq_iff_eq.mpr hkey)]
    obtain ⟨hzone, horigin⟩ := Prod.mk.inj hkey
    simp only [hzone, horigin, Std.ExtTreeMap.getD_eq_getD_getElem?, decide_eq_true_eq, true_and]
    cases s.seen[(zone, head.origin)]? with
    | none => simp
    | some seq => simp
  · rw [if_neg fun h => hkey (Std.LawfulEqOrd.compare_eq_iff_eq.mp h)]
    have hnot : ¬ (zoneOf op = zone ∧ op.origin = head.origin ∧ head.seq ≤ op.seq) := fun h => hkey (by rw [h.1, h.2.1])
    simp only [hnot, or_false]

theorem reached_foldl_see (s : Subscribes S) (ops : List Op) (zone : Zone) (head : Head) :
    (ops.foldl see s).reached zone head = true ↔ s.reached zone head = true ∨ ∃ op ∈ ops, Reaches op zone head := by
  induction ops generalizing s with
  | nil => simp
  | cons op ops ih =>
    rw [List.foldl_cons, ih, reached_see]
    simp only [List.mem_cons, exists_eq_or_imp, or_assoc]

/-- Ops of other zones take a replay nowhere. -/
theorem all_reached_foldl_see (s : Subscribes S) {ops : List Op} {zone : Zone} (h : zone ∉ ops.map zoneOf) (heads : List Head) :
    heads.all ((ops.foldl see s).reached zone) = heads.all (s.reached zone) := by
  congr 1
  funext head
  rw [Bool.eq_iff_iff, reached_foldl_see]
  refine or_iff_left ?_
  rintro ⟨op, hop, hzone, -⟩
  exact h (List.mem_map.mpr ⟨op, hop, hzone⟩)

theorem foldl_see_same (s : Subscribes S) (ops : List Op) :
    (ops.foldl see s).unacked = s.unacked ∧ (ops.foldl see s).refused = s.refused ∧
      (ops.foldl see s).catching = s.catching ∧ (ops.foldl see s).live = s.live := by
  induction ops generalizing s with
  | nil => exact ⟨rfl, rfl, rfl, rfl⟩
  | cons op ops ih => exact ih (s.see op)

/-! ### Catching up -/

theorem perm_partition {α : Type*} (p : α → Bool) (l : List α) : ((l.partition p).1 ++ (l.partition p).2).Perm l := by
  simpa [List.partition_eq_filter_filter, Function.comp_def] using List.filter_append_perm p l

/-- Those of `zones` that have seen all their heads are done, and the others wait. -/
theorem mem_caughtUp {s : Subscribes S} {zones : List Zone} {x : Subscribed S} (h : x ∈ (s.caughtUp zones).1) :
    ∃ heads, (x.zone, heads, x.waiter) ∈ s.catching ∧ heads.all (s.reached x.zone) = true ∧ x.outcome = .accepted heads := by
  simp only [caughtUp, List.partition_eq_filter_filter, List.mem_map, List.mem_filter] at h
  obtain ⟨w, ⟨hmem, hw⟩, rfl⟩ := h
  exact ⟨w.2.1, hmem, (of_decide_eq_true hw).2, rfl⟩

theorem mem_caughtUp_catching {s : Subscribes S} {zones : List Zone} {w : Zone × List Head × S} :
    w ∈ (s.caughtUp zones).2.catching ↔ w ∈ s.catching ∧ ¬ (w.1 ∈ zones ∧ w.2.1.all (s.reached w.1) = true) := by
  simp only [caughtUp, List.partition_eq_filter_filter, List.mem_filter, Function.comp_apply, Bool.not_eq_true',
    decide_eq_false_iff_not]

theorem short_caughtUp {s : Subscribes S} {zones : List Zone}
    (h : ∀ w ∈ s.catching, w.1 ∉ zones → w.2.1.all (s.reached w.1) = false) : Short (s.caughtUp zones).2 := by
  intro w hw
  obtain ⟨hmem, hnot⟩ := mem_caughtUp_catching.mp hw
  change w.2.1.all (s.reached w.1) = false
  by_cases hzone : w.1 ∈ zones
  · exact Bool.eq_false_iff.mpr fun hall => hnot ⟨hzone, hall⟩
  · exact h w hmem hzone

theorem caughtUp_waiting (s : Subscribes S) (zones : List Zone) :
    ((s.caughtUp zones).1.map Subscribed.waiter ++ (s.caughtUp zones).2.waiting).Perm s.waiting := by
  have hparts := (perm_partition (fun w => decide (w.1 ∈ zones ∧ w.2.1.all (s.reached w.1) = true)) s.catching).map fun w => w.2.2
  classical
  rw [List.perm_iff_count] at hparts ⊢
  intro a
  have := hparts a
  simp only [caughtUp, waiting, List.map_append, List.map_map, List.count_append, Function.comp_def] at this ⊢
  omega

theorem enliven_same (s : Subscribes S) (streams : List StreamHeads) :
    (s.enliven streams).unacked = s.unacked ∧ (s.enliven streams).refused = s.refused ∧
      (s.enliven streams).catching = s.catching ∧ (s.enliven streams).seen = s.seen ∧ s.live ⊆ (s.enliven streams).live := by
  unfold enliven
  split
  · simp
  · dsimp only
    split_ifs <;> simp

theorem mem_enliven (s : Subscribes S) (named : StreamHeads) (rest : List StreamHeads) :
    (named.share, named.gladeId, named.key) ∈ (s.enliven (named :: rest)).live := by
  unfold enliven
  dsimp only
  split_ifs with h
  · exact h
  · simp

/-! ### An ack -/

/-- The zone an ack names. -/
def zoneNamed (named : StreamHeads) : Zone := (named.share, named.gladeId, named.key)

/-- The oldest subscribe's ack, which names its zone: it waits for its replay. -/
def catch_ (s : Subscribes S) (zone : Zone) (waiter : S) (rest : List (Zone × S)) (named : StreamHeads)
    (more : List StreamHeads) :
    Subscribes S :=
  let s := s.enliven (named :: more)
  { s with unacked := rest, catching := s.catching ++ [(zone, named.heads, waiter)] }

/-- What an ack comes to. -/
inductive Acked (s : Subscribes S) (ack : Heads) : Except (Abandoned S) (Option (Subscribed S)) × Subscribes S → Prop where
  | nobody : s.unacked = [] → Acked s ack (.ok none, s.enliven ack.streams)
  | denied (zone : Zone) (waiter : S) (rest : List (Zone × S)) : s.unacked = (zone, waiter) :: rest → ack.streams = [] →
    Acked s ack (.ok none, { s with unacked := rest, refused := s.refused ++ [(zone, waiter)] })
  | astray (zone : Zone) (waiter : S) (rest : List (Zone × S)) (named : StreamHeads) (more : List StreamHeads) :
    s.unacked = (zone, waiter) :: rest → ack.streams = named :: more → zoneNamed named ≠ zone →
      Acked s ack (.error (s.enliven ack.streams).abandon.1, (s.enliven ack.streams).abandon.2)
  | named (zone : Zone) (waiter : S) (rest : List (Zone × S)) (named : StreamHeads) (more : List StreamHeads) :
    s.unacked = (zone, waiter) :: rest → ack.streams = named :: more → zoneNamed named = zone →
      Acked s ack (.ok ((s.catch_ zone waiter rest named more).caughtUp [zone]).1.getLast?,
        ((s.catch_ zone waiter rest named more).caughtUp [zone]).2)

theorem acked_cases (s : Subscribes S) (ack : Heads) : Acked s ack (s.acked ack) := by
  unfold acked
  dsimp only
  rw [(s.enliven_same ack.streams).1]
  cases hunacked : s.unacked with
  | nil => exact .nobody hunacked
  | cons w rest =>
    obtain ⟨zone, waiter⟩ := w
    cases hstreams : ack.streams with
    | nil => exact .denied zone waiter rest hunacked hstreams
    | cons named more =>
      dsimp only
      split_ifs with hzone
      · have hother : zoneNamed named ≠ zone := by
          rintro rfl
          simp [zoneNamed] at hzone
        have h : Acked s ack _ := .astray zone waiter rest named more hunacked hstreams hother
        rwa [hstreams] at h
      · have hsame : zoneNamed named = zone := by
          simp only [not_or, not_not] at hzone
          exact Prod.ext hzone.1 (Prod.ext hzone.2.1 hzone.2.2)
        exact .named zone waiter rest named more hunacked hstreams hsame

/-- Where no subscribe that has caught up waits, an ack answers its own subscribe or none. -/
theorem acked_last {s : Subscribes S} (hshort : Short s) (zone : Zone) (waiter : S) (rest : List (Zone × S)) (named : StreamHeads)
    (more : List StreamHeads) :
    ((s.catch_ zone waiter rest named more).caughtUp [zone]).1.getLast?.toList =
      ((s.catch_ zone waiter rest named more).caughtUp [zone]).1 := by
  have hreached : (s.catch_ zone waiter rest named more).reached = s.reached := by
    funext zone head
    exact reached_congr (s.enliven_same _).2.2.2.1 zone head
  have hcatching : (s.catch_ zone waiter rest named more).catching = s.catching ++ [(zone, named.heads, waiter)] := by
    rw [catch_, (s.enliven_same _).2.2.1]
  have hnone : s.catching.filter (fun w => decide (w.1 ∈ [zone] ∧ w.2.1.all (s.reached w.1) = true)) = [] := by
    apply List.filter_eq_nil_iff.mpr
    intro w hw hdone
    have := (of_decide_eq_true hdone).2
    rw [hshort w hw] at this
    cases this
  unfold caughtUp
  simp only [hreached, hcatching, List.partition_eq_filter_filter, List.filter_append, hnone, List.nil_append]
  rw [List.filter_singleton]
  rw [Bool.cond_eq_ite]
  split <;> rfl

/-! ### Each subscribe once -/

theorem settled_given (a : Abandoned S) : settled (given a) = a.failed ++ a.refused.map Subscribed.waiter := by
  rw [given, settled_append, settled_failed, settled_answered]

theorem subscribers_given (a : Abandoned S) : subscribers (given a) = [] := by
  rw [given, subscribers_append, subscribers_failed, subscribers_answered, List.append_nil]

theorem abandon_waiting (s : Subscribes S) : (settled (given s.abandon.1) ++ s.abandon.2.waiting).Perm s.waiting := by
  classical
  rw [List.perm_iff_count]
  intro a
  have hwaiter : (Subscribed.waiter ∘ fun w : Zone × S =>
      ({ zone := w.1, outcome := .refused none "its reason did not come", waiter := w.2 } : Subscribed S)) = Prod.snd := rfl
  simp only [settled_given, abandon, waiting, List.map_map, List.map_nil, List.count_append, List.count_nil, hwaiter]
  omega

theorem waiting_congr {s s' : Subscribes S} (hunacked : s'.unacked = s.unacked) (hrefused : s'.refused = s.refused)
    (hcatching : s'.catching = s.catching) : s'.waiting = s.waiting := by
  rw [waiting, hunacked, hrefused, hcatching, waiting]

/-- The refused subscribe a reason is for, and those before and after it. -/
theorem refused_split {refused : List (Zone × S)} {status : Error} {w : Zone × S}
    (h : refused.find? (fun w => names status w.1) = some w) :
    names status w.1 ∧ ∃ before after, refused = before ++ w :: after ∧
      refused.eraseP (fun w => names status w.1) = before ++ after := by
  obtain ⟨hw, before, after, rfl, hbefore⟩ := List.find?_eq_some_iff_append.mp h
  refine ⟨of_decide_eq_true hw, before, after, rfl, ?_⟩
  rw [List.eraseP_append_right _ fun b hb => by simpa using hbefore b hb, List.eraseP_cons, hw]
  rfl

theorem step_accounts {s : Subscribes S} (hshort : Short s) (call : Call S) : Accounts s (s.step call).1 (s.step call).2 := by
  classical
  unfold Accounts
  cases call with
  | sent zone waiter =>
    rw [List.perm_iff_count]
    intro a
    simp only [step, Subscribes.sent, waiting, settled_cons, settled_nil, subscribers_cons, subscribers_nil,
      Heard.settles, Heard.subscribes,
      List.map_append, List.map_cons, List.map_nil, List.count_append, List.count_nil]
    omega
  | acked ack =>
    have A := s.acked_cases ack
    unfold step
    dsimp only
    generalize s.acked ack = r at A
    obtain ⟨hunacked, hrefused, hcatching, -, -⟩ := s.enliven_same ack.streams
    cases A with
    | nobody _ =>
      rw [waiting_congr hunacked hrefused hcatching]
      simp [Heard.settles, Heard.subscribes]
    | denied zone waiter rest hwas _ =>
      rw [List.perm_iff_count]
      intro a
      simp only [waiting, hwas, settled_cons, settled_nil, subscribers_cons, subscribers_nil, Heard.settles, Heard.subscribes,
        Option.toList_none, List.map_append, List.map_cons, List.map_nil, List.count_append, List.count_cons, List.count_nil]
      omega
    | astray zone waiter rest named more _ _ _ =>
      have h := (s.enliven ack.streams).abandon_waiting
      rw [waiting_congr hunacked hrefused hcatching] at h
      simpa [subscribers_given, Heard.settles, Heard.subscribes] using h
    | named zone waiter rest named more hwas _ _ =>
      have h := (s.catch_ zone waiter rest named more).caughtUp_waiting [zone]
      have hlast := acked_last hshort zone waiter rest named more
      obtain ⟨-, hrefused, hcatching, -, -⟩ := s.enliven_same (named :: more)
      rw [List.perm_iff_count] at h ⊢
      intro a
      have := h a
      dsimp only
      rw [hlast]
      have hcaught : (s.catch_ zone waiter rest named more).waiting =
          rest.map Prod.snd ++ (s.refused.map Prod.snd ++ (s.catching ++ [(zone, named.heads, waiter)]).map fun w => w.2.2) := by
        rw [waiting, catch_, hrefused, hcatching]
      have hheld : s.waiting = ((zone, waiter) :: rest).map Prod.snd ++ (s.refused.map Prod.snd ++
        s.catching.map fun w => w.2.2) := by
        rw [waiting, hwas]
      rw [hcaught] at this
      rw [hheld]
      simp only [settled_cons, subscribers_cons, settled_answered, subscribers_answered, Heard.settles,
        Heard.subscribes, List.map_append,
        List.map_cons, List.map_nil, List.count_append, List.count_cons, List.count_nil] at this ⊢
      omega
  | reason status =>
    simp only [step, reason]
    split_ifs
    · simp [Heard.settles, Heard.subscribes]
    · split
      · simp [Heard.settles, Heard.subscribes]
      · rename_i zone waiter hfind
        obtain ⟨-, before, after, hwas, hnow⟩ := refused_split hfind
        have hheld : s.waiting =
            s.unacked.map Prod.snd ++ ((before ++ (zone, waiter) :: after).map Prod.snd ++ s.catching.map fun w => w.2.2) := by
          rw [waiting, hwas]
        rw [List.perm_iff_count, hheld]
        intro a
        simp only [waiting, hnow, settled_cons, settled_nil, subscribers_cons, subscribers_nil, Heard.settles, Heard.subscribes,
          Option.toList_some, List.map_append, List.map_cons, List.map_nil, List.count_append, List.count_cons, List.count_nil]
        omega
  | refusedAfterAck status =>
    simp only [step, refusedAfterAck]
    split_ifs
    · simp [Heard.settles, Heard.subscribes]
    · have h := (perm_partition (fun w : Zone × List Head × S => decide (names status w.1)) s.catching).map fun w => w.2.2
      rw [List.perm_iff_count] at h ⊢
      intro a
      have := h a
      simp only [settled_cons, subscribers_cons, settled_answered, subscribers_answered, Heard.settles, Heard.subscribes, waiting,
        List.map_append, List.count_append, List.count_nil] at this ⊢
      simp only [List.map_map, Function.comp_def]
      omega
  | received ops =>
    obtain ⟨hunacked, hrefused, hcatching, -⟩ := s.foldl_see_same ops
    have h := (ops.foldl see s).caughtUp_waiting (ops.map zoneOf)
    rw [waiting_congr hunacked hrefused hcatching] at h
    simpa [step, received, settled_append, subscribers_append] using h
  | answered op outcome =>
    simp only [step, answered]
    split_ifs
    · have h : List.Perm _ s.waiting := (s.see op).caughtUp_waiting [zoneOf op]
      simpa [settled_append, subscribers_append, Heard.settles, Heard.subscribes] using h
    · simp
  | failed ops =>
    have h := (perm_partition (fun w : Zone × List Head × S => decide (w.1 ∈ ops.map zoneOf)) s.catching).map fun w => w.2.2
    rw [List.perm_iff_count] at h ⊢
    intro a
    have := h a
    simp only [step, Subscribes.failed, settled_failed, subscribers_failed, waiting, List.map_append, List.count_append,
      List.count_nil] at this ⊢
    omega
  | notTaken =>
    have h := s.abandon_waiting
    simpa [step, notTaken, settled_append, subscribers_append, subscribers_given, Heard.settles, Heard.subscribes] using h
  | ended =>
    have h : List.Perm _ s.waiting := ({ s with seen := ∅, live := [] } : Subscribes S).abandon_waiting
    simpa [step, Subscribes.ended, settled_append, subscribers_append, subscribers_given, Heard.settles, Heard.subscribes] using h

/-- Every call answers each subscribe whose replay is in. -/
theorem step_short {s : Subscribes S} (hshort : Short s) (call : Call S) : Short (s.step call).1 := by
  have hfewer : ∀ {s' : Subscribes S}, s'.seen = s.seen → (∀ w ∈ s'.catching, w ∈ s.catching) → Short s' := by
    intro s' hseen hsub w hw
    have hreached : s'.reached w.1 = s.reached w.1 := funext fun head => reached_congr hseen w.1 head
    rw [hreached]
    exact hshort w (hsub w hw)
  have hreceived : ∀ ops : List Op, Short (s.received ops).2 := by
    intro ops
    apply short_caughtUp
    intro w hw hzone
    rw [all_reached_foldl_see s hzone]
    rw [(s.foldl_see_same ops).2.2.1] at hw
    exact hshort w hw
  cases call with
  | sent zone waiter => exact hshort
  | acked ack =>
    have A := s.acked_cases ack
    unfold step
    dsimp only
    generalize s.acked ack = r at A
    obtain ⟨-, -, hcatching, hseen, -⟩ := s.enliven_same ack.streams
    cases A with
    | nobody _ => exact hfewer hseen fun w hw => by rwa [hcatching] at hw
    | denied zone waiter rest _ _ => exact hshort
    | astray zone waiter rest named more _ _ _ => exact fun w hw => by cases hw
    | named zone waiter rest named more _ _ _ =>
      obtain ⟨-, -, hcatching, hseen, -⟩ := s.enliven_same (named :: more)
      apply short_caughtUp
      intro w hw hzone
      have hreached : (s.catch_ zone waiter rest named more).reached w.1 = s.reached w.1 :=
        funext fun head => reached_congr hseen w.1 head
      rw [hreached]
      rw [catch_, hcatching] at hw
      rcases List.mem_append.mp hw with hw | hw
      · exact hshort w hw
      · rw [List.mem_singleton.mp hw] at hzone
        exact absurd (List.mem_singleton_self zone) hzone
  | reason status =>
    simp only [step, reason]
    split_ifs
    · exact hshort
    · split <;> exact hshort
  | refusedAfterAck status =>
    simp only [step, refusedAfterAck]
    split_ifs
    · exact hshort
    · apply hfewer
      · rfl
      · intro w hw
        simp only [List.partition_eq_filter_filter] at hw
        exact (List.mem_filter.mp hw).1
  | received ops => exact hreceived ops
  | answered op outcome =>
    simp only [step, answered]
    split_ifs
    · exact hreceived [op]
    · exact hshort
  | failed ops =>
    apply hfewer
    · rfl
    · intro w hw
      simp only [step, Subscribes.failed, List.partition_eq_filter_filter] at hw
      exact (List.mem_filter.mp hw).1
  | notTaken => exact fun w hw => by cases hw
  | ended => exact fun w hw => by cases hw

/-! ### What an answer is given from -/

/-- The subscribes whose acks are to come: the node acks them in the order sent. -/
def turnAfter (queue : List (Zone × S)) : Heard S → List (Zone × S)
  | .sent zone waiter => queue ++ [(zone, waiter)]
  | .acked ack =>
    match queue, ack.streams with
    | [], _ => []
    | _ :: rest, [] => rest
    | (zone, _) :: rest, named :: _ => if zoneNamed named = zone then rest else []
  | .dropped | .ended => []
  | _ => queue

def turn (t : List (Heard S)) : List (Zone × S) := t.foldl turnAfter []

/-- On the connection that goes on, `p` holds of something heard, given what came before. -/
def Since (p : List (Heard S) → Heard S → Prop) (t : List (Heard S)) : Prop :=
  ∃ before x after, t = before ++ x :: after ∧ .ended ∉ after ∧ p before x

/-- The connection saw an op that takes a replay of `zone` to `head`. -/
def Saw (t : List (Heard S)) (zone : Zone) (head : Head) : Prop := Since (fun _ x => ∃ op, x = .saw op ∧ Reaches op zone head) t

/-- An ack of a subscribe came in its turn, and named its zone and `heads`. -/
def AckedAs (t : List (Heard S)) (zone : Zone) (heads : List Head) (waiter : S) : Prop :=
  Since (fun before x => ∃ ack named more, x = .acked ack ∧ ack.streams = named :: more ∧
    (turn before).head? = some (zone, waiter) ∧ zoneNamed named = zone ∧ named.heads = heads) t

/-- An ack of a subscribe came in its turn, and named no zone. -/
def DeniedAs (t : List (Heard S)) (zone : Zone) (waiter : S) : Prop :=
  Since (fun before x => ∃ ack, x = .acked ack ∧ ack.streams = [] ∧ (turn before).head? = some (zone, waiter)) t

/-- An `Error` gave this reason, once an ack of the subscribe had come. -/
def RefusedAs (t : List (Heard S)) (zone : Zone) (code : ErrorCode) (message : String) (waiter : S) : Prop :=
  Since (fun before x => ∃ status, x = .error status ∧ status.corr = none ∧ names status zone ∧ status.code = code ∧
    status.message = message ∧ (DeniedAs before zone waiter ∨ ∃ heads, AckedAs before zone heads waiter)) t

/-- What a subscribe's answer says of what came before it. -/
def Answerable (before : List (Heard S)) (x : Subscribed S) : Prop :=
  match x.outcome with
  | .accepted heads => AckedAs before x.zone heads x.waiter ∧ ∀ head ∈ heads, Saw before x.zone head
  | .refused none _ => DeniedAs before x.zone x.waiter
  | .refused (some code) message => RefusedAs before x.zone code message x.waiter

def Proven (before : List (Heard S)) : Heard S → Prop
  | .answered x => Answerable before x
  | _ => True

/-- What the subscribes hold, by what was heard. -/
structure Kept (t : List (Heard S)) (s : Subscribes S) : Prop where
  turn : turn t = s.unacked
  seen : ∀ zone head, s.reached zone head = true ↔ Saw t zone head
  catching : ∀ w ∈ s.catching, AckedAs t w.1 w.2.1 w.2.2 ∧ w.1 ∈ s.live
  refused : ∀ w ∈ s.refused, DeniedAs t w.1 w.2
  given : Each Proven t

theorem Since.append {p : List (Heard S) → Heard S → Prop} {t more : List (Heard S)} (h : Since p t) (hmore : .ended ∉ more) :
    Since p (t ++ more) := by
  obtain ⟨before, x, after, rfl, hafter, hp⟩ := h
  refine ⟨before, x, after ++ more, by simp, ?_, hp⟩
  intro hmem
  exact (List.mem_append.mp hmem).elim hafter hmore

theorem saw_append {t more : List (Heard S)} (hmore : .ended ∉ more) (zone : Zone) (head : Head) :
    Saw (t ++ more) zone head ↔ Saw t zone head ∨ ∃ op, .saw op ∈ more ∧ Reaches op zone head := by
  constructor
  · rintro ⟨before, x, after, heq, hafter, op, rfl, hop⟩
    rcases List.append_eq_append_iff.mp heq with ⟨mid, -, hmid⟩ | ⟨mid, ht, hmid⟩
    · exact .inr ⟨op, by simp [hmid], hop⟩
    · cases mid with
      | nil => exact .inr ⟨op, by simp [← show _ = more from hmid], hop⟩
      | cons y mid =>
        obtain ⟨rfl, rfl⟩ := List.cons.inj hmid
        exact .inl ⟨before, _, mid, ht, fun hmem => hafter (List.mem_append_left _ hmem), op, rfl, hop⟩
  · rintro (h | ⟨op, hmem, hop⟩)
    · exact Since.append h hmore
    · obtain ⟨before, after, rfl⟩ := List.append_of_mem hmem
      refine ⟨t ++ before, .saw op, after, by simp, fun hmem' => hmore ?_, op, rfl, hop⟩
      exact List.mem_append_right _ (List.mem_cons_of_mem _ hmem')

theorem Answerable.append {t more : List (Heard S)} {x : Subscribed S} (h : Answerable t x) (hmore : .ended ∉ more) :
    Answerable (t ++ more) x := by
  unfold Answerable at h ⊢
  split at h
  · exact ⟨h.1.append hmore, fun head hhead => Since.append (h.2 head hhead) hmore⟩
  · exact Since.append h hmore
  · exact Since.append h hmore

/-- Answers and failures. -/
def Heard.Gives : Heard S → Prop
  | .answered _ | .failed _ => True
  | _ => False

theorem ended_notMem {outs : List (Heard S)} (h : ∀ x ∈ outs, x.Gives) : .ended ∉ outs := fun hmem => h _ hmem

theorem foldl_turnAfter {outs : List (Heard S)} (h : ∀ x ∈ outs, x.Gives) (queue : List (Zone × S)) :
    outs.foldl turnAfter queue = queue := by
  induction outs with
  | nil => rfl
  | cons x outs ih =>
    rw [List.foldl_cons]
    have hx := h x List.mem_cons_self
    cases x with
    | answered _ => exact ih fun y hy => h y (List.mem_cons_of_mem _ hy)
    | failed _ => exact ih fun y hy => h y (List.mem_cons_of_mem _ hy)
    | _ => cases hx

/-- What is heard, but for an op, takes no replay further. -/
theorem reached_same {s s' : Subscribes S} (h : s'.seen = s.seen) {x : Heard S} (hx : ∀ op, x ≠ .saw op)
    (zone : Zone) (head : Head) :
    s'.reached zone head = true ↔ s.reached zone head = true ∨ ∃ op, x = .saw op ∧ Reaches op zone head := by
  rw [reached_congr h]
  refine (or_iff_left ?_).symm
  rintro ⟨op, rfl, -⟩
  exact hx op rfl

namespace Kept

variable {t : List (Heard S)} {s s' : Subscribes S}

/-- Something is heard that gives no answer. -/
theorem hear (K : Kept t s) {x : Heard S} (hended : x ≠ .ended) (hproven : ∀ before, Proven before x)
    (hturn : turnAfter s.unacked x = s'.unacked)
    (hseen : ∀ zone head, s'.reached zone head = true ↔ s.reached zone head = true ∨ ∃ op, x = .saw op ∧ Reaches op zone head)
    (hcatching : ∀ w ∈ s'.catching, (w ∈ s.catching ∨ AckedAs (t ++ [x]) w.1 w.2.1 w.2.2) ∧ w.1 ∈ s'.live)
    (hrefused : ∀ w ∈ s'.refused, w ∈ s.refused ∨ DeniedAs (t ++ [x]) w.1 w.2) : Kept (t ++ [x]) s' := by
  have hnot : .ended ∉ [x] := fun h => hended (List.mem_singleton.mp h).symm
  refine ⟨?_, fun zone head => ?_, fun w hw => ?_, fun w hw => ?_, K.given.concat (hproven t)⟩
  · rw [Subscribes.turn, List.foldl_append, ← Subscribes.turn, K.turn]
    exact hturn
  · rw [hseen, K.seen, saw_append hnot]
    simp only [List.mem_singleton, eq_comm]
  · obtain ⟨hack, hlive⟩ := hcatching w hw
    exact ⟨hack.elim (fun h => (K.catching w h).1.append hnot) id, hlive⟩
  · exact (hrefused w hw).elim (fun h => Since.append (K.refused w h) hnot) id

/-- Answers are given. -/
theorem give (K : Kept t s) {outs : List (Heard S)} (houts : ∀ x ∈ outs, x.Gives ∧ Proven t x) (hunacked : s'.unacked = s.unacked)
    (hseen : s'.seen = s.seen) (hcatching : ∀ w ∈ s'.catching, w ∈ s.catching ∧ w.1 ∈ s'.live)
    (hrefused : ∀ w ∈ s'.refused, w ∈ s.refused) : Kept (t ++ outs) s' := by
  have hgives : ∀ x ∈ outs, x.Gives := fun x hx => (houts x hx).1
  have hnot := ended_notMem hgives
  refine ⟨?_, fun zone head => ?_, fun w hw => ?_, fun w hw => Since.append (K.refused w (hrefused w hw)) hnot, K.given.append ?_⟩
  · rw [Subscribes.turn, List.foldl_append, ← Subscribes.turn, foldl_turnAfter hgives, K.turn, hunacked]
  · rw [reached_congr hseen, K.seen, saw_append hnot]
    refine (or_iff_left ?_).symm
    rintro ⟨op, hop, -⟩
    exact hgives _ hop
  · exact ⟨(K.catching w (hcatching w hw).1).1.append hnot, (hcatching w hw).2⟩
  · rintro before x after rfl
    obtain ⟨hx, hproven⟩ := houts x (by simp)
    have hbefore : .ended ∉ before := fun h => hnot (List.mem_append_left _ h)
    cases x with
    | answered x => exact Answerable.append hproven hbefore
    | _ => trivial

/-- Replays that are in are answered from their acks, and what the connection saw. -/
theorem caughtUp (K : Kept t s) (zones : List Zone) :
    Kept (t ++ (s.caughtUp zones).1.map .answered) (s.caughtUp zones).2 ∧ ∀ x ∈ (s.caughtUp zones).1, Answerable t x := by
  have hproven : ∀ x ∈ (s.caughtUp zones).1, Answerable t x := by
    intro x hx
    obtain ⟨heads, hmem, hall, houtcome⟩ := mem_caughtUp hx
    unfold Answerable
    rw [houtcome]
    exact ⟨(K.catching _ hmem).1, fun head hhead => (K.seen x.zone head).mp (List.all_eq_true.mp hall head hhead)⟩
  refine ⟨K.give ?_ rfl rfl (fun w hw => ?_) fun _ hw => hw, hproven⟩
  · intro x hx
    obtain ⟨y, hy, rfl⟩ := List.mem_map.mp hx
    exact ⟨trivial, hproven y hy⟩
  · have hmem := (mem_caughtUp_catching.mp hw).1
    exact ⟨hmem, (K.catching w hmem).2⟩

theorem see (K : Kept t s) (ops : List Op) : Kept (t ++ ops.map .saw) (ops.foldl Subscribes.see s) := by
  induction ops generalizing t s with
  | nil => rwa [List.map_nil, List.append_nil]
  | cons op ops ih =>
    rw [List.map_cons, List.append_cons]
    apply ih
    have hsaw : ∀ before, Proven before (.saw op : Heard S) := fun _ => trivial
    apply K.hear (by simp) hsaw
    · rfl
    · intro zone head
      rw [reached_see]
      simp
    · exact fun w hw => ⟨.inl hw, (K.catching w hw).2⟩
    · exact fun w hw => .inl hw

/-- Every subscribe that waits is given up: those refused are told so, without a reason. -/
theorem abandoned (K : Kept t s) : ∀ x ∈ Subscribes.given s.abandon.1, x.Gives ∧ Proven t x := by
  intro x hx
  rcases List.mem_append.mp hx with hx | hx
  · obtain ⟨waiter, -, rfl⟩ := List.mem_map.mp hx
    exact ⟨trivial, trivial⟩
  · obtain ⟨y, hy, rfl⟩ := List.mem_map.mp hx
    obtain ⟨w, hw, rfl⟩ := List.mem_map.mp hy
    exact ⟨trivial, K.refused w hw⟩

/-- What waited for a reason or a replay waits no more. -/
theorem give_up (K : Kept t s) : Kept (t ++ Subscribes.given s.abandon.1) { s with refused := [], catching := [] } := by
  apply K.give K.abandoned
  · rfl
  · rfl
  · exact fun w hw => by cases hw
  · exact fun w hw => by cases hw

/-- An ack answers the oldest subscribe, if it names its zone. -/
theorem acked (K : Kept t s) (hshort : Short s) (ack : Heads) : Kept (t ++ (s.step (.acked ack)).2) (s.step (.acked ack)).1 := by
  have A := s.acked_cases ack
  unfold Subscribes.step
  dsimp only
  generalize s.acked ack = r at A
  have hproven : ∀ before, Proven before (.acked ack : Heard S) := fun _ => trivial
  obtain ⟨hunacked, hrefused, hcatching, hseen, hlive⟩ := s.enliven_same ack.streams
  cases A with
  | nobody hnobody =>
    apply K.hear (by simp) hproven
    · rw [hunacked, hnobody]
      rfl
    · exact reached_same hseen (by simp)
    · intro w hw
      rw [hcatching] at hw
      exact ⟨.inl hw, hlive (K.catching w hw).2⟩
    · intro w hw
      rw [hrefused] at hw
      exact .inl hw
  | denied zone waiter rest hwas hstreams =>
    apply K.hear (by simp) hproven
    · rw [hwas]
      simp only [turnAfter, hstreams]
    · exact reached_same rfl (by simp)
    · exact fun w hw => ⟨.inl hw, (K.catching w hw).2⟩
    · intro w hw
      rcases List.mem_append.mp hw with hw | hw
      · exact .inl hw
      · rw [List.mem_singleton.mp hw]
        exact .inr ⟨t, _, [], rfl, by simp, ack, rfl, hstreams, by rw [K.turn, hwas]; rfl⟩
  | astray zone waiter rest named more hwas hstreams hother =>
    -- The ack clears the turns, and then all that wait are given up.
    have K' : Kept (t ++ [.acked ack]) { s.enliven ack.streams with unacked := [] } := by
      apply K.hear (by simp) hproven
      · rw [hwas]
        simp only [turnAfter, hstreams, if_neg hother]
      · exact reached_same hseen (by simp)
      · intro w hw
        rw [show _ = s.catching from hcatching] at hw
        exact ⟨.inl hw, hlive (K.catching w hw).2⟩
      · intro w hw
        rw [show _ = s.refused from hrefused] at hw
        exact .inl hw
    rw [List.append_cons]
    apply K'.give
    · intro x hx
      rcases List.mem_append.mp hx with hx | hx
      · obtain ⟨waiter, -, rfl⟩ := List.mem_map.mp hx
        exact ⟨trivial, trivial⟩
      · exact K'.abandoned x (List.mem_append_right _ hx)
    · rfl
    · rfl
    · exact fun w hw => by cases hw
    · exact fun w hw => by cases hw
  | named zone waiter rest named more hwas hstreams hsame =>
    obtain ⟨-, hrefused, hcatching, hseen, hlive⟩ := s.enliven_same (named :: more)
    have K' : Kept (t ++ [.acked ack]) (s.catch_ zone waiter rest named more) := by
      apply K.hear (by simp) hproven
      · rw [hwas]
        simp only [turnAfter, hstreams, if_pos hsame]
        rfl
      · exact reached_same hseen (by simp)
      · intro w hw
        rw [catch_, hcatching] at hw
        rcases List.mem_append.mp hw with hw | hw
        · exact ⟨.inl hw, hlive (K.catching w hw).2⟩
        · rw [List.mem_singleton.mp hw]
          refine ⟨.inr ⟨t, _, [], rfl, by simp, ack, named, more, rfl, hstreams, by rw [K.turn, hwas]; rfl, hsame, rfl⟩, ?_⟩
          rw [← hsame]
          exact s.mem_enliven named more
      · intro w hw
        rw [catch_, hrefused] at hw
        exact .inl hw
    rw [List.append_cons]
    dsimp only
    rw [acked_last hshort]
    exact (K'.caughtUp [zone]).1

/-- An error is heard, and answers what it refuses. -/
theorem error (K : Kept t s) (status : Error) : Kept (t ++ [.error status]) s := by
  have hproven : ∀ before, Proven before (.error status : Heard S) := fun _ => trivial
  apply K.hear (by simp) hproven
  · rfl
  · exact reached_same rfl (by simp)
  · exact fun w hw => ⟨.inl hw, (K.catching w hw).2⟩
  · exact fun w hw => .inl hw

/-- The end of a connection forgets what it saw. -/
theorem close (K : Kept t s) : Kept (t ++ [.ended]) s.ended.2 := by
  have hproven : Proven t (.ended : Heard S) := trivial
  refine ⟨?_, fun zone head => ?_, fun w hw => (by cases hw), fun w hw => (by cases hw), K.given.concat hproven⟩
  · rw [Subscribes.turn, List.foldl_append]
    rfl
  · refine iff_of_false (by simp [reached, Subscribes.ended, abandon]) ?_
    rintro ⟨before, x, after, heq, hafter, op, rfl, -⟩
    rcases List.eq_nil_or_concat after with rfl | ⟨front, last, rfl⟩
    · cases (List.append_inj' heq rfl).2
    · rw [List.concat_eq_append, ← List.cons_append, ← List.append_assoc] at heq
      obtain rfl := (List.cons.inj (List.append_inj' heq rfl).2).1
      simp at hafter

theorem step (K : Kept t s) (hshort : Short s) (call : Call S) : Kept (t ++ (s.step call).2) (s.step call).1 := by
  cases call with
  | sent zone waiter =>
    have hproven : ∀ before, Proven before (.sent zone waiter : Heard S) := fun _ => trivial
    apply K.hear (by simp) hproven
    · rfl
    · exact reached_same rfl (by simp)
    · exact fun w hw => ⟨.inl hw, (K.catching w hw).2⟩
    · exact fun w hw => .inl hw
  | acked ack => exact K.acked hshort ack
  | reason status =>
    simp only [Subscribes.step, reason]
    split_ifs with hcorr
    · exact K.error status
    · split
      · exact K.error status
      · rename_i zone waiter hfind
        obtain ⟨hnames, before, after, hwas, hnow⟩ := refused_split hfind
        rw [List.append_cons]
        apply (K.error status).give
        · intro x hx
          rw [List.mem_singleton.mp hx]
          have hdenied : DeniedAs t zone waiter := K.refused (zone, waiter) (by simp [hwas])
          exact ⟨trivial, t, _, [], rfl, by simp, status, rfl, by simpa using hcorr, hnames, rfl, rfl, .inl hdenied⟩
        · rfl
        · rfl
        · exact fun w hw => ⟨hw, (K.catching w hw).2⟩
        · intro w hw
          rw [show _ = before ++ after from hnow] at hw
          rw [hwas]
          exact (List.mem_append.mp hw).elim (List.mem_append_left _) fun h => List.mem_append_right _ (List.mem_cons_of_mem _ h)
  | refusedAfterAck status =>
    simp only [Subscribes.step, refusedAfterAck]
    split_ifs with hreason
    · exact K.error status
    · rw [not_or] at hreason
      rw [List.append_cons]
      simp only [List.partition_eq_filter_filter]
      apply (K.error status).give
      · intro x hx
        simp only [List.map_map, List.mem_map, List.mem_filter, Function.comp_apply] at hx
        obtain ⟨w, ⟨hw, hnames⟩, rfl⟩ := hx
        have hacked : AckedAs t w.1 w.2.1 w.2.2 := (K.catching w hw).1
        exact ⟨trivial, t, _, [], rfl, by simp, status, rfl, by simpa using hreason.1, of_decide_eq_true hnames, rfl, rfl,
          .inr ⟨_, hacked⟩⟩
      · rfl
      · rfl
      · intro w hw
        obtain ⟨hmem, hnot⟩ := List.mem_filter.mp hw
        exact ⟨hmem, List.mem_filter.mpr ⟨(K.catching w hmem).2, hnot⟩⟩
      · exact fun w hw => hw
  | received ops =>
    have h := ((K.see ops).caughtUp (ops.map zoneOf)).1
    rwa [List.append_assoc] at h
  | answered op outcome =>
    simp only [Subscribes.step, answered]
    split_ifs
    · have h := ((K.see [op]).caughtUp [zoneOf op]).1
      rwa [List.append_assoc] at h
    · rwa [List.map_nil, List.append_nil, List.append_nil]
  | failed ops =>
    simp only [Subscribes.step, Subscribes.failed, List.partition_eq_filter_filter]
    apply K.give
    · intro x hx
      obtain ⟨waiter, -, rfl⟩ := List.mem_map.mp hx
      exact ⟨trivial, trivial⟩
    · rfl
    · rfl
    · intro w hw
      have hmem := (List.mem_filter.mp hw).1
      exact ⟨hmem, (K.catching w hmem).2⟩
    · exact fun w hw => hw
  | notTaken =>
    have hproven : ∀ before, Proven before (.dropped : Heard S) := fun _ => trivial
    simp only [Subscribes.step, notTaken]
    rw [← List.append_assoc]
    apply K.give_up.hear (by simp) hproven
    · rfl
    · exact reached_same rfl (by simp)
    · exact fun w hw => by cases hw
    · exact fun w hw => by cases hw
  | ended =>
    have h := K.give_up.close
    rwa [List.append_assoc] at h

end Kept

/-! ### Runs -/

def run (calls : List (Call S)) : Subscribes S × List (Heard S) := Histories.run step new calls

/-- What every run keeps of the subscribes. -/
structure Answering (t : List (Heard S)) (s : Subscribes S) : Prop where
  kept : Kept t s
  short : Short s
  accounts : (settled t ++ s.waiting).Perm (subscribers t)

theorem run_answering (calls : List (Call S)) : Answering (run calls).2 (run calls).1 := by
  apply run_inv
  · refine ⟨⟨rfl, fun zone head => ?_, by simp [new], by simp [new], each_nil _⟩, by simp [Short, new], .refl _⟩
    refine iff_of_false (by simp [reached, new]) ?_
    rintro ⟨before, x, after, heq, -⟩
    simp at heq
  · rintro t s call ⟨K, hshort, hperm⟩
    refine ⟨K.step hshort call, step_short hshort call, ?_⟩
    have h := step_accounts hshort call
    classical
    unfold Accounts at h
    rw [List.perm_iff_count] at hperm h ⊢
    intro a
    have h₁ := hperm a
    have h₂ := h a
    simp only [settled_append, subscribers_append, List.count_append] at h₁ h₂ ⊢
    omega

/-- A subscribe returns only what its replay proves. Over every sequence of calls, each
subscribe is answered or failed once, or waits; it is accepted only with the heads of an ack
that named its zone and was taken in its turn, each reached by an op of that zone which
this connection received, or sent and had answered Ok; it is refused with a code and a
message only by an error that names its zone and came on this connection behind its ack,
and without only when no reason can come; and one that waits for its replay has its zone live, and a
head that the connection has not
reached. -/
theorem each_subscribe_answered (calls : List (Call S)) :
    let s := (run calls).1
    let t := (run calls).2
    (settled t ++ s.waiting).Perm (subscribers t) ∧
      (∀ before x after, t = before ++ .answered x :: after → Answerable before x) ∧ turn t = s.unacked ∧
        (∀ w ∈ s.refused, DeniedAs t w.1 w.2) ∧
          ∀ w ∈ s.catching, AckedAs t w.1 w.2.1 w.2.2 ∧ w.1 ∈ s.live ∧ ∃ head ∈ w.2.1, ¬ Saw t w.1 head := by
  intro s t
  obtain ⟨K, hshort, hperm⟩ := run_answering calls
  refine ⟨hperm, fun before x after heq => K.given before _ after heq, K.turn, K.refused, fun w hw => ?_⟩
  refine ⟨(K.catching w hw).1, (K.catching w hw).2, ?_⟩
  have hall := hshort w hw
  rw [List.all_eq_false] at hall
  obtain ⟨head, hhead, hnot⟩ := hall
  exact ⟨head, hhead, fun hsaw => hnot ((K.seen w.1 head).mpr hsaw)⟩

end Subscribes

end Glade.Client
