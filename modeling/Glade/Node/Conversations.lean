import Glade.Node.ConversationEnd

/-! Conversations stay apart. Whatever the two ends of a link do, in whatever order, what a
conversation reads is what the peer sent on the one conversation it has that number,
in order, and it reads a clean end only after all of it. Each end is followed alone; the
link ties what one end took to what the other queued. -/

namespace Glade.Node.Conversations

open Wire Linked Side Histories

/-! ### What an end owes the link -/

theorem queuedIn_append (u did : List Happening) : queuedIn (u ++ did) = queuedIn u ++ queuedIn did := List.filterMap_append

theorem takenIn_append (u did : List Happening) : takenIn (u ++ did) = takenIn u ++ takenIn did := List.filterMap_append

theorem queuedIn_map (queued : List LinkFrame) : queuedIn (queued.map .queued) = queued := by
  induction queued with
  | nil => rfl
  | cons f queued ih => exact congrArg (f :: ·) ih

theorem takenIn_map (queued : List LinkFrame) : takenIn (queued.map .queued) = [] := by
  induction queued with
  | nil => rfl
  | cons f queued ih => exact ih

/-- What an end does of itself: what it queues goes to its writer, and it takes nothing. -/
structure Accounts (l l' : Linked) (did : List Happening) : Prop where
  out : toSend l'.out = toSend l.out ++ (queuedIn did).map LinkFrame.encode
  taken : takenIn did = []
  high : l'.peerHigh = l.peerHigh
  next : l.next ≤ l'.next

section Accounts

variable {l l' : Linked} {did : List Happening}

/-- What queues nothing. -/
theorem accounts_still (hout : toSend l'.out = toSend l.out) (hhigh : l'.peerHigh = l.peerHigh) (hnext : l'.next = l.next)
    (hdid : ∀ x ∈ did, x.frame = none) : Accounts l l' did where
  out := by
    have hnone : queuedIn did = [] := by
      rw [queuedIn, List.filterMap_eq_nil_iff]
      intro x hx
      have hf := hdid x hx
      cases x with
      | queued f => cases hf
      | _ => rfl
    rw [hout, hnone]
    exact (List.append_nil _).symm
  taken := by
    rw [takenIn, List.filterMap_eq_nil_iff]
    intro x hx
    have hf := hdid x hx
    cases x with
    | taken f => cases hf
    | _ => rfl
  high := hhigh
  next := hnext.ge

theorem accounts_send (l : Linked) (h : ℕ) (c : Conversation) (frame : Bytes) :
    Accounts l (l.send h c frame).1 (l.send h c frame).2 := by
  have hlast : ∀ {x : Happening}, x.frame = none → queuedIn [x] = [] ∧ takenIn [x] = [] := by
    intro x hx
    cases x with
    | queued f => cases hx
    | taken f => cases hx
    | _ => exact ⟨rfl, rfl⟩
  have hqueue : ∀ (l₁ : Linked) (f : LinkFrame), l₁.peerHigh = l.peerHigh → l.next ≤ l₁.next → l₁.out = l.out →
      Accounts l (l₁.queue f).1 ((l₁.queue f).2.map .queued ++ [if (l₁.queue f).2 = [] then .refused h else .sent h frame]) := by
    intro l₁ f hhigh hnext hout
    have hx : ∀ (p : Prop) [Decidable p], queuedIn [if p then Happening.refused h else .sent h frame] = [] ∧
        takenIn [if p then Happening.refused h else .sent h frame] = [] := by
      intro p _
      split_ifs
      · exact hlast rfl
      · exact hlast rfl
    refine ⟨?_, ?_, ?_, ?_⟩
    · rw [queuedIn_append, queuedIn_map, (hx _).1, List.append_nil]
      rcases queue_spec l₁ f with hq | hq
      · rw [hq, hout]
        exact (List.append_nil _).symm
      · rw [hq, ← hout]
        exact toSend_append _ _
    · rw [takenIn_append, takenIn_map, (hx _).2]
      rfl
    · rcases queue_spec l₁ f with hq | hq <;> rw [hq] <;> exact hhigh
    · rcases queue_spec l₁ f with hq | hq <;> rw [hq] <;> exact hnext
  have hsame : Accounts l l [.refused h] := accounts_still rfl rfl rfl (by simp [Happening.frame])
  unfold Linked.send
  split_ifs
  · exact hsame
  unfold Linked.put
  split_ifs
  · exact hsame
  cases hn : c.number with
  | some id => exact hqueue l _ rfl le_rfl rfl
  | none =>
    dsimp only
    by_cases hspent : 2 ^ 32 ≤ l.next + 2
    · rw [if_pos hspent]
      exact hsame
    · rw [if_neg hspent]
      exact hqueue _ _ rfl (Nat.le_add_right _ _) rfl

theorem accounts_recv (l : Linked) (h : ℕ) (c : Conversation) : Accounts l (l.recv h c).1 (l.recv h c).2 := by
  unfold Linked.recv
  by_cases hfin : c.finished = true
  · rw [if_pos hfin]
    exact accounts_still rfl rfl rfl (by simp [Happening.frame])
  rw [if_neg hfin]
  by_cases hn : c.number = none
  · rw [if_pos hn]
    exact accounts_still rfl rfl rfl (by simp [Happening.frame])
  rw [if_neg hn]
  split
  · exact accounts_still rfl rfl rfl (by simp [Happening.frame])
  · exact accounts_still rfl rfl rfl (by simp [Happening.frame])
  · by_cases hfed : l.fed h = true
    · rw [if_pos hfed]
      exact accounts_still rfl rfl rfl (by simp)
    · rw [if_neg hfed]
      exact accounts_still rfl rfl rfl (by simp [Happening.frame])

theorem accounts_letGo (l : Linked) (h : ℕ) (c : Conversation) (kind : Kind) {d : Happening} (hd : d.frame = none) :
    Accounts l (l.letGo h c kind d).1 (l.letGo h c kind d).2 := by
  obtain ⟨out, routes, queued, heq, -, -, hout⟩ := finish_spec l c kind
  have hlast : queuedIn [d] = [] ∧ takenIn [d] = [] := by
    cases d with
    | queued f => cases hd
    | taken f => cases hd
    | _ => exact ⟨rfl, rfl⟩
  unfold Linked.letGo
  rw [heq]
  refine ⟨?_, ?_, rfl, le_rfl⟩
  · rw [queuedIn_append, queuedIn_map, hlast.1, List.append_nil]
    exact hout
  · rw [takenIn_append, takenIn_map, hlast.2]
    rfl

theorem accounts_deliver (l : Linked) : Accounts l l.deliver [] := by
  have hsame : ∀ {l' : Linked}, l'.out = l.out → l'.peerHigh = l.peerHigh → l'.next = l.next → Accounts l l' [] :=
    fun hout hhigh hnext => accounts_still (congrArg toSend hout) hhigh hnext (by simp)
  unfold Linked.deliver
  split
  · split
    · exact hsame rfl rfl rfl
    · split_ifs <;> exact hsame rfl rfl rfl
  · exact hsame rfl rfl rfl

theorem accounts_does (l : Linked) (act : Act) : Accounts l (l.does act).1 (l.does act).2 := by
  have hcall : ∀ {h : ℕ} {f : Conversation → Linked × List Happening}, (∀ c, Accounts l (f c).1 (f c).2) →
      Accounts l (l.call h f).1 (l.call h f).2 := by
    intro h f hf
    unfold Linked.call
    cases l.held h with
    | none => exact accounts_still rfl rfl rfl (by simp)
    | some c => exact hf c
  have hsame : Accounts l l [] := accounts_still rfl rfl rfl (by simp)
  have hover : Accounts l l.linkEnded [] := by
    refine accounts_still ?_ rfl rfl (by simp)
    exact (toSend_append _ _).trans (List.append_nil _)
  cases act with
  | open_ =>
    have hopened : ∀ x ∈ [Happening.opened l.made], x.frame = none := by simp [Happening.frame]
    exact accounts_still rfl rfl rfl hopened
  | send h frame => exact hcall fun c => accounts_send l h c frame
  | recv h => exact hcall fun c => accounts_recv l h c
  | end_ h => exact hcall fun c => accounts_letGo l h c .ending rfl
  | drop h => exact hcall fun c => accounts_letGo l h c .reset rfl
  | endLink =>
    have hout : toSend (l.out ++ [.close]) = toSend l.out := (toSend_append _ _).trans (List.append_nil _)
    have hnone : ∀ x ∈ ([] : List Happening), x.frame = none := by simp
    exact accounts_still hout rfl rfl hnone
  | release =>
    cases hr : l.reader with
    | receiving =>
      simp only [Linked.does, hr]
      split_ifs
      · exact hover
      · exact hsame
    | _ =>
      simp only [Linked.does, hr]
      exact hsame
  | deliver => exact accounts_deliver l
  | lost =>
    cases hr : l.reader with
    | receiving =>
      simp only [Linked.does, hr]
      exact hover
    | _ =>
      simp only [Linked.does, hr]
      exact hsame
  | write _ => exact hsame
  | read => exact hsame

/-- The writer's turn moves the first frame it has yet to send onto the link, or none. -/
theorem write_accounts (l : Linked) (ok : Bool) :
    toSend l.out = (l.write ok).2.toList ++ toSend (l.write ok).1.out ∧ (l.write ok).1.peerHigh = l.peerHigh ∧
      (l.write ok).1.next = l.next := by
  unfold Linked.write
  split
  case h_1 frame out hw hout =>
    split_ifs
    · rw [hout]
      exact ⟨rfl, rfl, rfl⟩
    · exact ⟨rfl, rfl, rfl⟩
  all_goals exact ⟨rfl, rfl, rfl⟩

/-- The reader takes the frame, and what it queues goes to the writer. -/
theorem take_accounts (l : Linked) (parity : ℕ) {f : LinkFrame} (hlt : f.id < 2 ^ 32) :
    toSend (l.take parity f.encode).1.out = toSend l.out ++ (queuedIn (l.take parity f.encode).2).map LinkFrame.encode ∧
      takenIn (l.take parity f.encode).2 = [f] ∧
      ((l.take parity f.encode).1.peerHigh = l.peerHigh ∨ (l.take parity f.encode).1.peerHigh = f.id ∧ f.id % 2 = parity) ∧
      (l.take parity f.encode).1.next = l.next := by
  unfold Linked.take
  rw [readHeader_encode hlt]
  dsimp only
  unfold Linked.route
  have hnil : ∀ {out : List Out}, toSend out = toSend out ++ [] := (List.append_nil _).symm
  cases hr : l.routes[f.id]? with
  | some r =>
    obtain ⟨tx, done⟩ := r
    cases tx with
    | none => exact ⟨hnil, rfl, .inl rfl, rfl⟩
    | some h =>
      dsimp only
      by_cases hframe : f.kind = .frame
      · rw [if_pos hframe]
        exact ⟨hnil, rfl, .inl rfl, rfl⟩
      · rw [if_neg hframe]
        by_cases hend : f.kind = .ending
        · rw [if_pos hend]
          exact ⟨hnil, rfl, .inl rfl, rfl⟩
        · rw [if_neg hend]
          exact ⟨hnil, rfl, .inl rfl, rfl⟩
  | none =>
    dsimp only
    by_cases hknown : f.id % 2 ≠ parity ∨ f.id ≤ l.peerHigh
    · rw [if_pos hknown]
      exact ⟨hnil, rfl, .inl rfl, rfl⟩
    rw [if_neg hknown]
    rw [not_or, not_not] at hknown
    by_cases hreset : f.kind = .reset
    · rw [if_pos hreset]
      exact ⟨hnil, rfl, .inr ⟨rfl, hknown.1⟩, rfl⟩
    rw [if_neg hreset]
    by_cases hfull : peerOpen ≤ l.peers parity
    · rw [if_pos hfull]
      rcases queue_spec { l with peerHigh := f.id } (marker f.id .reset) with hq | hq
      · rw [hq]
        exact ⟨hnil, rfl, .inr ⟨rfl, hknown.1⟩, rfl⟩
      · rw [hq]
        exact ⟨toSend_append _ _, rfl, .inr ⟨rfl, hknown.1⟩, rfl⟩
    · rw [if_neg hfull]
      exact ⟨hnil, rfl, .inr ⟨rfl, hknown.1⟩, rfl⟩

end Accounts

/-! ### The link -/

/-- What ties the two ends: what one has taken is the first of what the other queued, and
the rest is on its way. -/
structure Kept (t : List (Side × Happening)) (s : Link) : Prop where
  ends : ∀ e, Local e (of t e) (s.ends e)
  wire : ∀ e, ∃ rest, queuedIn (of t e) = takenIn (of t e.other) ++ rest ∧
    rest.map LinkFrame.encode = s.wire e ++ toSend (s.ends e).out
  high : ∀ e, (s.ends e).peerHigh < (s.ends e.other).next

theorem kept_new (max : Side → ℕ) : Kept [] (.new max) where
  ends e := by
    cases e <;> constructor <;> simp [Link.new, Linked.start, of, Side.parity]
  wire e := ⟨[], rfl, rfl⟩
  high e := by cases e <;> simp [Link.new, Linked.start, Side.other]

theorem set_ends (s : Link) (e e' : Side) (l : Linked) : (s.set e l).ends e' = if e' = e then l else s.ends e' :=
  Function.update_apply ..

theorem setWire_wire (s : Link) (e e' : Side) (frames : List Bytes) :
    (s.setWire e frames).wire e' = if e' = e then frames else s.wire e' :=
  Function.update_apply ..

section Link

variable {t : List (Side × Happening)} {s : Link}

/-- An end does something of itself. -/
theorem Kept.does (K : Kept t s) (e : Side) {l : Linked} {did : List Happening} (hl : Local e (of t e ++ did) l)
    (ha : Accounts (s.ends e) l did) : Kept (t ++ did.map fun x => (e, x)) (s.set e l) where
  ends e' := by
    rw [of_append, set_ends]
    rcases eq_or_other e e' with rfl | rfl
    · rw [if_pos rfl, if_pos rfl]
      exact hl
    · rw [if_neg (other_ne e).symm, if_neg (other_ne e), List.append_nil]
      exact K.ends _
  wire e' := by
    obtain ⟨rest, hq, hmap⟩ := K.wire e'
    rw [of_append, of_append, set_ends]
    change ∃ rest, _ ∧ _ = s.wire e' ++ _
    rcases eq_or_other e e' with rfl | rfl
    · rw [if_pos rfl, if_pos rfl, if_neg (other_ne e').symm, List.append_nil]
      refine ⟨rest ++ queuedIn did, ?_, ?_⟩
      · rw [queuedIn_append, hq, List.append_assoc]
      · rw [List.map_append, hmap, ha.out, List.append_assoc]
    · rw [if_neg (other_ne e).symm, if_neg (other_ne e), if_pos (other_other e).symm, takenIn_append, ha.taken, List.append_nil,
        List.append_nil]
      exact ⟨rest, hq, hmap⟩
  high e' := by
    rw [set_ends, set_ends]
    rcases eq_or_other e e' with rfl | rfl
    · rw [if_pos rfl, if_neg (other_ne e'), ha.high]
      exact K.high e'
    · rw [if_neg (other_ne e), other_other, if_pos rfl]
      have hhigh := K.high e.other
      rw [other_other] at hhigh
      exact lt_of_lt_of_le hhigh ha.next

/-- The writer's turn. -/
theorem Kept.write (K : Kept t s) (e : Side) (ok : Bool) :
    Kept t ((s.set e ((s.ends e).write ok).1).setWire e (s.wire e ++ ((s.ends e).write ok).2.toList)) := by
  obtain ⟨hout, hhigh, hnext⟩ := write_accounts (s.ends e) ok
  refine ⟨fun e' => ?_, fun e' => ?_, fun e' => ?_⟩
  · change Local e' _ ((s.set e _).ends e')
    rw [set_ends]
    split_ifs with he
    · subst he
      exact (K.ends _).write ok
    · exact K.ends e'
  · obtain ⟨rest, hq, hmap⟩ := K.wire e'
    refine ⟨rest, hq, ?_⟩
    rw [hmap, setWire_wire]
    change _ = _ ++ toSend ((s.set e _).ends e').out
    rw [set_ends]
    split_ifs with he
    · subst he
      rw [hout, List.append_assoc]
    · rfl
  · change ((s.set e _).ends e').peerHigh < ((s.set e _).ends e'.other).next
    have h := K.high e'
    rw [set_ends, set_ends]
    split_ifs with he he' he'
    · exact absurd (he'.trans he.symm) (other_ne e')
    · subst he
      rw [hhigh]
      exact h
    · rw [hnext, ← he']
      exact h
    · exact h

/-- The reader takes the link's next frame. -/
theorem Kept.read (K : Kept t s) (e : Side) (hrecv : (s.ends e).reader = .receiving) {bytes : Bytes} {rest : List Bytes}
    (hwire : s.wire e.other = bytes :: rest) :
    Kept (t ++ ((s.ends e).take e.other.parity bytes).2.map fun x => (e, x))
      ((s.set e ((s.ends e).take e.other.parity bytes).1).setWire e.other rest) := by
  obtain ⟨way, hq, hmap⟩ := K.wire e.other
  rw [hwire, other_other] at *
  cases way with
  | nil => cases hmap
  | cons f way =>
    obtain ⟨rfl, hway⟩ := List.cons.inj hmap
    have hin : .queued f ∈ of t e.other := by
      have hmem : f ∈ queuedIn (of t e.other) := by
        rw [hq]
        simp
      obtain ⟨x, hx, hxf⟩ := List.mem_filterMap.mp hmem
      cases x with
      | queued f' =>
        obtain rfl := Option.some.inj hxf
        exact hx
      | _ => cases hxf
    obtain ⟨hlt, hused, -⟩ := (K.ends e.other).queued f hin
    have hhigh := K.high e.other
    rw [other_other] at hhigh
    have hid : Used e (s.ends e) f.id ∨ f.id % 2 = e.other.parity := by
      rcases hused with ⟨hp, -⟩ | ⟨hp, hle⟩
      · exact .inr hp
      · rw [other_other] at hp
        exact .inl (.inl ⟨hp, lt_of_le_of_lt hle hhigh⟩)
    have hl := (K.ends e).take hrecv hlt hid
    obtain ⟨hout, htaken, hpeer, hnext⟩ := take_accounts (s.ends e) e.other.parity hlt
    refine ⟨fun e' => ?_, fun e' => ?_, fun e' => ?_⟩
    · rw [of_append]
      change Local e' _ ((s.set e _).ends e')
      rw [set_ends]
      rcases eq_or_other e e' with rfl | rfl
      · rw [if_pos rfl, if_pos rfl]
        exact hl
      · rw [if_neg (other_ne e).symm, if_neg (other_ne e), List.append_nil]
        exact K.ends _
    · rw [of_append, of_append, setWire_wire]
      change ∃ rest', _ ∧ _ = _ ++ toSend ((s.set e _).ends e').out
      rw [set_ends]
      rcases eq_or_other e e' with rfl | rfl
      · obtain ⟨out, hq', hmap'⟩ := K.wire e'
        rw [if_pos rfl, if_pos rfl, if_neg (other_ne e').symm, if_neg (other_ne e').symm, List.append_nil]
        refine ⟨out ++ queuedIn ((s.ends e').take e'.other.parity f.encode).2, ?_, ?_⟩
        · rw [queuedIn_append, hq', List.append_assoc]
        · rw [List.map_append, hmap', hout, List.append_assoc]
          rfl
      · rw [if_neg (other_ne e).symm, if_pos rfl, if_neg (other_ne e), other_other, if_pos rfl, takenIn_append,
          htaken, List.append_nil]
        refine ⟨way, ?_, hway⟩
        rw [hq, List.append_assoc]
        rfl
    · change ((s.set e _).ends e').peerHigh < ((s.set e _).ends e'.other).next
      rw [set_ends, set_ends]
      rcases eq_or_other e e' with rfl | rfl
      · rw [if_pos rfl, if_neg (other_ne e')]
        rcases hpeer with hsame | ⟨hnew, hp⟩
        · rw [hsame]
          exact K.high e'
        · rw [hnew]
          rcases hused with ⟨-, hlt'⟩ | ⟨hp', -⟩
          · exact hlt'
          · exact absurd (hp.symm.trans hp') (parity_ne _)
      · rw [if_neg (other_ne e), other_other, if_pos rfl, hnext]
        exact hhigh

theorem kept_run (max : Side → ℕ) (acts : List (Side × Act)) : Kept (Link.runOf max acts).2 (Link.runOf max acts).1 := by
  refine Histories.run_inv (kept_new max) (fun t s p K => ?_) acts
  obtain ⟨e, act⟩ := p
  have hdoes : Kept (t ++ ((s.ends e).does act).2.map fun x => (e, x)) (s.set e ((s.ends e).does act).1) :=
    K.does e ((K.ends e).does act) (accounts_does _ act)
  cases act with
  | write ok =>
    have h := K.write e ok
    rw [← List.append_nil t] at h
    exact h
  | read =>
    dsimp only [Link.step]
    split
    case h_1 bytes rest hrecv hwire => exact K.read e hrecv hwire
    case h_2 => simpa using K
  | _ => exact hdoes

end Link

/-! ### The end of a link -/

/-- A reader that has stopped has left no route, and the link has ended. -/
def Closed (l : Linked) : Prop := l.reader = .stopped → l.ended = true ∧ ∀ id : ℕ, l.routes[id]? = none

section Closed

variable {l l' : Linked}

theorem Closed.mono (hl : Closed l) (hreader : l'.reader = .stopped → l.reader = .stopped)
    (hended : l.ended = true → l'.ended = true)
    (hroutes : ∀ (id : ℕ) r', l'.routes[id]? = some r' → ∃ r, l.routes[id]? = some r) : Closed l' := by
  intro hr
  obtain ⟨he, hnone⟩ := hl (hreader hr)
  refine ⟨hended he, fun id => ?_⟩
  rw [Option.eq_none_iff_forall_ne_some]
  intro r' hr'
  obtain ⟨r, hr⟩ := hroutes id r' hr'
  rw [hnone] at hr
  cases hr

theorem closed_linkEnded (l : Linked) : Closed l.linkEnded := fun _ => ⟨rfl, fun id => by simp [Linked.linkEnded]⟩

theorem Closed.call (hl : Closed l) {h : ℕ} {f : Conversation → Linked × List Happening} (hf : ∀ c, Closed (f c).1) :
    Closed (l.call h f).1 := by
  unfold Linked.call
  cases l.held h with
  | none => exact hl
  | some c => exact hf c

theorem Closed.send (hl : Closed l) (h : ℕ) (c : Conversation) (frame : Bytes) : Closed (l.send h c frame).1 := by
  have hqueue : ∀ {l₁ : Linked} (f : LinkFrame), Closed l₁ → Closed (l₁.queue f).1 := by
    intro l₁ f h₁
    rcases queue_spec l₁ f with hq | hq
    · rw [hq]
      exact h₁
    · rw [hq]
      exact h₁
  unfold Linked.send
  split_ifs
  · exact hl
  unfold Linked.put
  split_ifs with hended
  · exact hl
  cases hn : c.number with
  | some id => exact hqueue _ hl
  | none =>
    dsimp only
    by_cases hspent : 2 ^ 32 ≤ l.next + 2
    · rw [if_pos hspent]
      exact hl
    · rw [if_neg hspent]
      exact hqueue _ fun hr => absurd (hl hr).1 hended

theorem Closed.does (hl : Closed l) (act : Act) : Closed (l.does act).1 := by
  cases act with
  | open_ => exact hl
  | send h frame => exact hl.call fun c => hl.send h c frame
  | recv h =>
    refine hl.call fun c => ?_
    unfold Linked.recv
    by_cases hfin : c.finished = true
    · rw [if_pos hfin]
      exact hl
    rw [if_neg hfin]
    by_cases hn : c.number = none
    · rw [if_pos hn]
      exact hl
    rw [if_neg hn]
    split
    · exact hl
    · exact hl
    · by_cases hfed : l.fed h = true
      · rw [if_pos hfed]
        exact hl
      · rw [if_neg hfed]
        exact hl
  | end_ h | drop h =>
    refine hl.call fun c => ?_
    obtain ⟨out, routes, queued, heq, hroutes, -, -⟩ := finish_spec l c _
    unfold Linked.letGo
    rw [heq]
    refine hl.mono (fun hr => hr) (fun he => he) fun id r' hr' => ?_
    obtain ⟨r, hr, -⟩ := hroutes id r' hr'
    exact ⟨r, hr⟩
  | endLink => exact hl.mono (fun hr => hr) (fun _ => rfl) fun _ r hr => ⟨r, hr⟩
  | release =>
    cases hr : l.reader with
    | receiving =>
      simp only [Linked.does, hr]
      split_ifs
      · exact closed_linkEnded l
      · exact hl
    | _ =>
      simp only [Linked.does, hr]
      exact hl
  | deliver =>
    change Closed l.deliver
    unfold Linked.deliver
    split
    · split
      · exact fun hr => (by cases hr)
      · split_ifs
        · exact hl
        · exact fun hr => (by cases hr)
    · exact hl
  | lost =>
    cases hr : l.reader with
    | receiving =>
      simp only [Linked.does, hr]
      exact closed_linkEnded l
    | _ =>
      simp only [Linked.does, hr]
      exact hl
  | write _ => exact hl
  | read => exact hl

theorem Closed.write (hl : Closed l) (ok : Bool) : Closed (l.write ok).1 := by
  unfold Linked.write
  split
  · split_ifs
    · exact hl
    · exact hl
  all_goals exact hl

theorem closed_take (hrecv : l.reader = .receiving) (parity : ℕ) (bytes : Bytes) : Closed (l.take parity bytes).1 := by
  have hroute : ∀ f, (l.route f parity).1.reader = .receiving := by
    intro f
    unfold Linked.route
    split
    · exact hrecv
    · split_ifs <;> exact hrecv
    · dsimp only
      split_ifs
      · exact hrecv
      · exact hrecv
      · rcases queue_spec { l with peerHigh := f.id } (marker f.id .reset) with hq | hq <;> rw [hq] <;> exact hrecv
      · exact hrecv
      · exact hrecv
  unfold Linked.take
  cases hb : readHeader bytes with
  | none => exact closed_linkEnded l
  | some f =>
    have hr := hroute f
    dsimp only
    rcases hres : l.route f parity with ⟨l', routed, queued⟩
    rw [hres] at hr
    cases routed with
    | deliver h item => exact fun hs => (by cases hs)
    | opened h =>
      intro hs
      rw [hr] at hs
      cases hs
    | dropped =>
      intro hs
      rw [hr] at hs
      cases hs

theorem closed_step (s : Link) (e' : Side) (act : Act) (hs : ∀ e, Closed (s.ends e)) (e : Side) :
    Closed ((s.step e' act).1.ends e) := by
  have hset : ∀ {l : Linked}, Closed l → Closed ((s.set e' l).ends e) := by
    intro l hl
    rw [set_ends]
    split_ifs
    · exact hl
    · exact hs e
  cases act with
  | write ok => exact hset ((hs e').write ok)
  | read =>
    dsimp only [Link.step]
    split
    case h_1 bytes rest hrecv hwire => exact hset (closed_take hrecv _ bytes)
    case h_2 => exact hs e
  | open_ => exact hset ((hs e').does .open_)
  | send h frame => exact hset ((hs e').does (.send h frame))
  | recv h => exact hset ((hs e').does (.recv h))
  | end_ h => exact hset ((hs e').does (.end_ h))
  | drop h => exact hset ((hs e').does (.drop h))
  | endLink => exact hset ((hs e').does .endLink)
  | release => exact hset ((hs e').does .release)
  | deliver => exact hset ((hs e').does .deliver)
  | lost => exact hset ((hs e').does .lost)

theorem closed_run (max : Side → ℕ) (acts : List (Side × Act)) (e : Side) : Closed ((Link.runOf max acts).1.ends e) := by
  have hstart : ∀ e, Closed ((Link.new max).ends e) := by
    intro e hr
    cases e <;> cases hr
  have hkept : ∀ (t : List (Side × Happening)) (s : Link) (p : Side × Act), (∀ e, Closed (s.ends e)) →
      ∀ e, Closed ((s.step p.1 p.2).1.ends e) := fun _ s p hs => closed_step s p.1 p.2 hs
  exact @Histories.run_inv _ _ _ _ _ (fun _ (s : Link) => ∀ e, Closed (s.ends e)) hstart hkept acts e

end Closed

/-! ### Conversations stay apart -/

/-- A conversation's number, once it has one. -/
def numberOf (s : Link) (e : Side) (h : ℕ) : Option ℕ := ((s.ends e).conversations h).bind fun c => c.number

theorem numberOf_eq_some {s : Link} {e : Side} {h id : ℕ} :
    numberOf s e h = some id ↔ ∃ c, (s.ends e).conversations h = some c ∧ c.number = some id := Option.bind_eq_some_iff

theorem items_frames (id : ℕ) (frames : List Bytes) (fin : List LinkFrame) :
    items (frames.map (LinkFrame.mk id .frame) ++ fin) = frames.map .frame ++ items fin := by
  induction frames with
  | nil => rfl
  | cons frame frames ih => exact congrArg (Item.frame frame :: ·) ih

theorem map_frame_prefix {xs ys : List Bytes} (h : xs.map Item.frame <+: ys.map Item.frame) : xs <+: ys := by
  obtain ⟨rest, hrest⟩ := h
  obtain ⟨ys₁, ys₂, rfl, h₁, -⟩ := List.map_eq_append_iff.mp hrest.symm
  rw [List.map_inj_right (by intro a b; exact Item.frame.inj)] at h₁
  exact h₁ ▸ List.prefix_append _ _

theorem ending_not_mem (xs : List Bytes) : Item.ending ∉ xs.map Item.frame := by simp

/-- What a conversation has read is of the peer's conversation of its number. -/
theorem Kept.reads {t : List (Side × Happening)} {s : Link} (K : Kept t s) {e : Side} {h id : ℕ}
    (hid : numberOf s e h = some id) (hread : readsOf (of t e) h ≠ [] ∨ .readEnd h ∈ of t e) :
    ∃ h', numberOf s e.other h' = some id ∧ readsOf (of t e) h <+: sentOn (of t e.other) h' ∧
      (.readEnd h ∈ of t e → .ended h' ∈ of t e.other ∧ .dropped h' ∉ of t e.other ∧
        readsOf (of t e) h = sentOn (of t e.other) h') := by
  obtain ⟨c, hc, hn⟩ := numberOf_eq_some.mp hid
  have F := (K.ends e).fits h c hc
  have P := K.ends e.other
  obtain ⟨rest, hq, -⟩ := K.wire e.other
  rw [other_other] at hq
  have hway : queuedOn (of t e.other) id = takenOn (of t e) id ++ rest.filter fun f => f.id = id := by
    rw [queuedOn, hq, List.filter_append]
    rfl
  have hgot : got (of t e) (s.ends e) h c <+: items (queuedOn (of t e.other) id) := by
    rw [hway]
    exact (F.gets id hn).trans (items_extends _ _)
  by_cases hpeer : ∃ h' c', (s.ends e.other).conversations h' = some c' ∧ c'.number = some id
  · obtain ⟨h', c', hc', hn'⟩ := hpeer
    have F' := P.fits h' c' hc'
    obtain ⟨fin, hfin, -, hkind⟩ := F'.sends id hn'
    rw [hfin, items_frames] at hgot
    have hreads : (readsOf (of t e) h).map Item.frame <+: got (of t e) (s.ends e) h c := by
      rw [got, List.append_assoc]
      exact List.prefix_append _ _
    refine ⟨h', numberOf_eq_some.mpr ⟨c', hc', hn'⟩, ?_, fun hend => ?_⟩
    · apply map_frame_prefix
      rcases hkind with rfl | ⟨rfl, -⟩ | rfl
      · simpa [items] using hreads.trans hgot
      · rcases List.prefix_concat_iff.mp (hreads.trans hgot) with heq | hpre
        · have hin : Item.ending ∈ (readsOf (of t e) h).map Item.frame := by
            rw [heq]
            simp
          exact absurd hin (ending_not_mem _)
        · exact hpre
      · simpa [items, marker] using hreads.trans hgot
    · have hfinished := F.finished hend
      have hpre : (readsOf (of t e) h).map Item.frame ++ [.ending] <+: got (of t e) (s.ends e) h c := by
        rw [got, hfinished]
        exact List.prefix_append _ _
      have hall := hpre.trans hgot
      have hmem : ∀ {xs : List Item}, (readsOf (of t e) h).map Item.frame ++ [.ending] <+: xs → Item.ending ∈ xs :=
        fun hx => hx.subset (by simp)
      rcases hkind with rfl | ⟨rfl, hended⟩ | rfl
      · exact absurd (by simpa [items] using hmem hall) (ending_not_mem (sentOn (of t e.other) h'))
      · refine ⟨hended, fun hdropped => F'.once ⟨hended, hdropped⟩, ?_⟩
        rcases List.prefix_concat_iff.mp hall with heq | hshort
        · have heq' := (List.append_inj' heq rfl).1
          exact (List.map_inj_right (by intro a b; exact Item.frame.inj)).mp heq'
        · exact absurd (hmem hshort) (ending_not_mem _)
      · exact absurd (by simpa [items, marker] using hmem hall) (ending_not_mem (sentOn (of t e.other) h'))
  · -- No conversation of the peer's has the number, so all that was queued for it are resets.
    have hnil : items (queuedOn (of t e.other) id) = [] := by
      cases hcase : queuedOn (of t e.other) id with
      | nil => rfl
      | cons f fs =>
        have hf : f ∈ queuedOn (of t e.other) id := by simp [hcase]
        obtain ⟨hin, hfid⟩ := mem_queuedOn.mp hf
        rcases (P.queued f hin).2.2 with ⟨h', c', hc', hn'⟩ | hreset
        · exact absurd ⟨h', c', hc', hfid ▸ hn'⟩ hpeer
        · simp [items, hreset]
    rw [hnil, List.prefix_nil, got, List.append_eq_nil_iff, List.append_eq_nil_iff, List.map_eq_nil_iff] at hgot
    rcases hread with hread | hend
    · exact absurd hgot.1.1 hread
    · rw [F.finished hend] at hgot
      exact absurd hgot.1.2 (by simp)

/-- Conversations on one link stay apart and in order. Whatever both ends do, in whatever
order, and whenever the link ends: no number is used for two conversations of an end; one
that is handed on is one the peer opened, of the same number; a conversation reads the
first frames sent on the peer's conversation of its number, in order, and a clean end only
once the peer has ended that one, and not dropped it, and it has read all of them; and once
an end's reader has stopped none of its receives waits. -/
theorem conversations_apart (max : Side → ℕ) (acts : List (Side × Act)) :
    let s := (Link.runOf max acts).1
    let t := (Link.runOf max acts).2
    (∀ e h h' id, numberOf s e h = some id → numberOf s e h' = some id → h = h') ∧
      (∀ e h id, .handed h id ∈ of t e → numberOf s e h = some id ∧
        ∃ h', .opened h' ∈ of t e.other ∧ numberOf s e.other h' = some id) ∧
      (∀ e h id, numberOf s e h = some id → readsOf (of t e) h ≠ [] ∨ .readEnd h ∈ of t e →
        ∃ h', numberOf s e.other h' = some id ∧ readsOf (of t e) h <+: sentOn (of t e.other) h' ∧
          (.readEnd h ∈ of t e → .ended h' ∈ of t e.other ∧ .dropped h' ∉ of t e.other ∧
            readsOf (of t e) h = sentOn (of t e.other) h')) ∧
      ∀ e h c, (s.ends e).held h = some c → (s.ends e).reader = .stopped → (s.step e (.recv h)).2 ≠ [] := by
  have K := kept_run max acts
  dsimp only
  refine ⟨fun e h h' id hid hid' => ?_, fun e h id hh => ?_, fun e h id hid hread => K.reads hid hread, fun e h c hh hs => ?_⟩
  · obtain ⟨c, hc, hn⟩ := numberOf_eq_some.mp hid
    obtain ⟨c', hc', hn'⟩ := numberOf_eq_some.mp hid'
    exact (K.ends e).apart h h' c c' id hc hc' hn hn'
  · obtain ⟨hp, hc, f, hf, rfl, hkind⟩ := (K.ends e).handed h id hh
    obtain ⟨rest, hq, -⟩ := K.wire e.other
    rw [other_other] at hq
    have hqueued : .queued f ∈ of (Link.runOf max acts).2 e.other := by
      have htaken : f ∈ takenOn (of (Link.runOf max acts).2 e) f.id := mem_takenOn.mpr ⟨hf, rfl⟩
      have hmem : f ∈ queuedOn (of (Link.runOf max acts).2 e.other) f.id := by
        rw [queuedOn, hq, List.filter_append]
        exact List.mem_append_left _ htaken
      exact (mem_queuedOn.mp hmem).1
    obtain ⟨-, -, hcase⟩ := (K.ends e.other).queued f hqueued
    obtain ⟨h', c', hc', hn'⟩ := hcase.resolve_right hkind
    refine ⟨numberOf_eq_some.mpr hc, h', ?_, numberOf_eq_some.mpr ⟨c', hc', hn'⟩⟩
    exact (((K.ends e.other).fits h' c' hc').used _ hn').2.2 hp
  · obtain ⟨hended, hnone⟩ := closed_run max acts e hs
    have hfed : ((Link.runOf max acts).1.ends e).fed h = false := by
      unfold Linked.fed
      rw [hs, Bool.false_or, List.any_eq_false]
      rintro ⟨id, r⟩ hr
      rw [Std.ExtTreeMap.mem_toList_iff_getElem?_eq_some, hnone] at hr
      cases hr
    change (((Link.runOf max acts).1.ends e).does (.recv h)).2 ≠ []
    simp only [Linked.does, Linked.call, hh]
    unfold Linked.recv
    by_cases hfin : c.finished = true
    · rw [if_pos hfin]
      simp
    by_cases hn : c.number = none
    · rw [if_neg hfin, if_pos hn]
      simp
    · rw [if_neg hfin, if_neg hn, hfed]
      split <;> simp

end Glade.Node.Conversations
