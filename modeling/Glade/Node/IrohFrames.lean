import Glade.Node.IrohEnd

/-! A link delivers whole frames, in order, whatever calls are dropped. Each end is told of
alone; the pipes tie what one wrote to what the other read. -/

namespace Glade.Node.IrohLinks

open Wire Words Side Histories
open Frames (frame Torn)

/-! ### What an end does to its transport -/

/-- What is of this end alone. -/
def Own : Happening → Prop
  | .sent _ | .wrote _ | .took _ | .recvEnded .finished | .recvEnded .closed => False
  | _ => True

/-- A step takes back nothing the peer may have seen, and shows it no frame. -/
structure Moves (l l' : LinkState) (did : List Happening) : Prop where
  finished : l.finished = true → l'.finished = true
  closed : l.closed = true → l'.closed = true
  own : ∀ x ∈ did, Own x

section Moves

variable {l l₁ l₂ : LinkState} {d₁ d₂ : List Happening}

theorem moves_refl (l : LinkState) : Moves l l [] := ⟨id, id, by simp⟩

theorem Moves.trans (h₁ : Moves l l₁ d₁) (h₂ : Moves l₁ l₂ d₂) : Moves l l₂ (d₁ ++ d₂) where
  finished h := h₂.finished (h₁.finished h)
  closed h := h₂.closed (h₁.closed h)
  own x hx := (List.mem_append.mp hx).elim (h₁.own x) (h₂.own x)

theorem Moves.of_eq (h : Moves l₁ l₂ d₁) (hfinished : l.finished = l₁.finished)
    (hclosed : l.closed = l₁.closed) : Moves l l₂ d₁ :=
  ⟨fun hf => h.finished (hfinished ▸ hf), fun hc => h.closed (hclosed ▸ hc), h.own⟩

theorem moves_letGo (l : LinkState) (e : Ended) : Moves l (l.letGo e).1 (l.letGo e).2 where
  finished h := by
    change (l.finished || _) = true
    rw [h, Bool.true_or]
  closed h := by
    change (l.closed || _) = true
    rw [h, Bool.true_or]
  own x hx := by
    rw [(letGo_spec l e).2.2 x hx]
    trivial

theorem moves_cutOff (l : LinkState) : Moves l l.cutOff.1 l.cutOff.2 := by
  have h := moves_letGo l.end_.1 l.end_.2
  refine ⟨h.finished, h.closed, fun x hx => ?_⟩
  rcases List.mem_cons.mp hx with rfl | hx
  · trivial
  · exact h.own x hx

theorem moves_freeSend (l : LinkState) (id : ℕ) {x : Happening} (hx : Own x) : Moves l (l.answered id).freeSend [x] := by
  unfold LinkState.freeSend
  split_ifs
  · refine ⟨fun h => ?_, fun h => h, by simpa using hx⟩
    change (l.finished || _) = true
    rw [h, Bool.true_or]
  · exact ⟨fun h => h, fun h => h, by simpa using hx⟩

theorem moves_freeRecv (l : LinkState) (id : ℕ) {did : List Happening} (hdid : ∀ x ∈ did, Own x) :
    Moves l (l.answered id).freeRecv did := by
  unfold LinkState.freeRecv
  split_ifs
  · exact ⟨fun h => h, fun h => h, hdid⟩
  · exact ⟨fun h => h, fun h => h, hdid⟩

theorem moves_startSend (l : LinkState) (id : ℕ) (f : Bytes) :
    Moves l (IrohLink.startSend l id f).1 (IrohLink.startSend l id f).2 := by
  unfold IrohLink.startSend
  split
  · exact moves_freeSend l id trivial
  · by_cases hlen : l.max < f.length ∨ 2 ^ 32 ≤ f.length
    · rw [if_pos hlen]
      exact moves_freeSend l id trivial
    rw [if_neg hlen]
    split_ifs
    · exact (moves_cutOff l).trans (moves_freeSend _ id trivial)
    · exact ⟨fun h => h, fun h => h, by simp⟩

theorem moves_send (l : LinkState) (id : ℕ) (f : Bytes) : Moves l (IrohLink.send l id f).1 (IrohLink.send l id f).2 := by
  unfold IrohLink.send
  split_ifs
  · exact (moves_startSend { l with send := { l.send with holder := some id } } id f).of_eq rfl rfl
  · exact ⟨fun h => h, fun h => h, by simp⟩

theorem moves_refused (l : LinkState) (id : ℕ) : Moves l (IrohLink.refused l id).1 (IrohLink.refused l id).2 := by
  unfold IrohLink.refused
  split
  · split_ifs
    · exact moves_freeSend l id trivial
    · exact (moves_cutOff l).trans (moves_freeSend _ id trivial)
  · exact moves_refl l

theorem moves_turn (l : LinkState) (id : ℕ) : Moves l (IrohLink.turn l id).1 (IrohLink.turn l id).2 := by
  have hone : ∀ (l : LinkState) {x : Happening}, Own x → Moves l (l.answered id).freeRecv [x] :=
    fun l x hx => moves_freeRecv l id (by simpa using hx)
  unfold IrohLink.turn
  split
  · exact hone l trivial
  · split
    case h_1 f rest _ =>
      have h : Own (.received f) := trivial
      exact (hone { l with recv := { l.recv with half := some { buf := rest } } } h).of_eq rfl rfl
    case h_2 => exact (moves_cutOff l).trans (hone _ trivial)
    case h_3 =>
      split
      · exact hone l trivial
      · exact ⟨fun h => h, fun h => h, by simp⟩

theorem moves_recv (l : LinkState) (id : ℕ) : Moves l (IrohLink.recv l id).1 (IrohLink.recv l id).2 := by
  unfold IrohLink.recv
  split_ifs
  · exact (moves_turn { l with recv := { l.recv with holder := some id } } id).of_eq rfl rfl
  · exact ⟨fun h => h, fun h => h, by simp⟩

theorem moves_close (l : LinkState) (id : ℕ) : Moves l (IrohLink.close l id).1 (IrohLink.close l id).2 := by
  unfold IrohLink.close
  dsimp only
  split
  · exact ⟨fun _ => rfl, fun h => h, by simp [Own]⟩
  · exact moves_cutOff l

theorem moves_drop (l : LinkState) (id : ℕ) : Moves l (IrohLink.drop l id).1 (IrohLink.drop l id).2 := by
  unfold IrohLink.drop
  split
  · exact ⟨fun h => h, fun h => h, by simp⟩
  · exact moves_freeSend l id trivial
  · exact ⟨fun h => h, fun h => h, by simp⟩
  · exact moves_freeRecv l id (by simp)
  · exact (moves_letGo (l.answered id) _).of_eq rfl rfl
  · exact moves_refl l

theorem moves_release (l : LinkState) : Moves l (IrohLink.release l).1 (IrohLink.release l).2 := by
  unfold IrohLink.release
  split_ifs
  · refine ⟨fun h => ?_, fun _ => rfl, by simp [Own]⟩
    change (l.finished || _) = true
    rw [h, Bool.true_or]
  · exact moves_refl l

theorem Moves.silent (M : Moves l l₁ d₁) : wroteIn d₁ = [] ∧ tookIn d₁ = [] ∧ sentIn d₁ = [] := by
  refine ⟨?_, ?_, ?_⟩
  · rw [wroteIn, List.flatMap_eq_nil_iff]
    intro x hx
    have hown := M.own x hx
    cases x with
    | wrote bytes => exact hown.elim
    | _ => rfl
  · rw [tookIn, List.flatMap_eq_nil_iff]
    intro x hx
    have hown := M.own x hx
    cases x with
    | took bytes => exact hown.elim
    | _ => rfl
  · rw [sentIn, List.filterMap_eq_nil_iff]
    intro x hx
    have hown := M.own x hx
    cases x with
    | sent f => exact hown.elim
    | _ => rfl

end Moves

/-! ### The link -/

/-- What ties the two ends: what one has read is the first of what the other wrote, and
the rest is in the pipe. -/
structure Kept (t : List (Side × Happening)) (s : Link) : Prop where
  ends : ∀ e, Local (of t e) (s.ends e)
  pipe : ∀ e, wroteIn (of t e) = tookIn (of t e.other) ++ s.pipe e
  finished : ∀ e, .recvEnded .finished ∈ of t e →
    (s.ends e.other).finished = true ∧ sentIn (of t e.other) <+: receivedIn (of t e)
  closed : ∀ e, .recvEnded .closed ∈ of t e → (s.ends e.other).closed = true

theorem kept_new (max : Side → ℕ) : Kept [] (.new max) where
  ends e :=
    { sent := by simp [of, sentIn]
      wrote := ⟨[], rfl, Frames.torn_nil, fun _ _ _ => rfl, fun _ _ _ hc => by cases hc⟩
      writing := fun _ _ _ hc => by cases hc
      cut := fun h => by cases h
      finished := fun h => by cases h
      received := by simp [of, receivedIn]
      took := ⟨[], rfl, fun half hh => by rw [← Option.some.inj hh]; exact ⟨rfl, Nat.zero_le _⟩⟩
      reading := fun _ _ hc => by cases hc
      live := fun _ h => by cases h
      ended := fun h => by cases h
      said := each_nil _
      idle := fun half hh => by rw [← Option.some.inj hh]; exact nextFrame_nil }
  pipe e := rfl
  finished e h := by cases h
  closed e h := by cases h

theorem set_ends (s : Link) (e e' : Side) (l : LinkState) : (s.set e l).ends e' = if e' = e then l else s.ends e' :=
  Function.update_apply ..

theorem setPipe_pipe (s : Link) (e e' : Side) (bytes : Bytes) :
    (s.setPipe e bytes).pipe e' = if e' = e then bytes else s.pipe e' :=
  Function.update_apply ..

section Run

variable {t : List (Side × Happening)} {s s' : Link} {e : Side} {l : LinkState} {did : List Happening}

/-- A step of one end. -/
theorem Kept.step (K : Kept t s) (hl : Local (of t e ++ did) l) (hends : ∀ e', s'.ends e' = if e' = e then l else s.ends e')
    (hout : s'.pipe e = s.pipe e ++ wroteIn did) (hin : s.pipe e.other = tookIn did ++ s'.pipe e.other)
    (hfinished : (s.ends e).finished = true → l.finished = true ∧ sentIn did = [])
    (hclosed : (s.ends e).closed = true → l.closed = true)
    (hends₁ : .recvEnded .finished ∈ did → (s.ends e.other).finished = true ∧ sentIn (of t e.other) <+: receivedIn (of t e))
    (hends₂ : .recvEnded .closed ∈ did → (s.ends e.other).closed = true) : Kept (t ++ did.map fun x => (e, x)) s' where
  ends e' := by
    rw [of_append, hends]
    rcases eq_or_other e e' with rfl | rfl
    · rw [if_pos rfl, if_pos rfl]
      exact hl
    · rw [if_neg (other_ne e).symm, if_neg (other_ne e), List.append_nil]
      exact K.ends _
  pipe e' := by
    rw [of_append, of_append]
    rcases eq_or_other e e' with rfl | rfl
    · rw [if_pos rfl, if_neg (other_ne e').symm, List.append_nil, wroteIn_append, K.pipe, hout, List.append_assoc]
    · rw [if_neg (other_ne e).symm, if_pos (other_other e).symm, List.append_nil, tookIn_append, K.pipe, hin, other_other,
        List.append_assoc]
  finished e' h := by
    rw [of_append] at h
    rw [of_append, of_append, hends]
    rcases eq_or_other e e' with rfl | rfl
    · rw [if_pos rfl, List.mem_append] at h
      rw [if_neg (other_ne e'), if_neg (other_ne e').symm, if_pos rfl, List.append_nil, receivedIn_append]
      have hone := h.elim (K.finished e') hends₁
      exact ⟨hone.1, hone.2.trans (List.prefix_append _ _)⟩
    · rw [if_neg (other_ne e).symm, List.append_nil] at h
      rw [if_neg (other_ne e).symm, List.append_nil]
      have hone := K.finished _ h
      rw [other_other] at hone ⊢
      obtain ⟨hf, hnone⟩ := hfinished hone.1
      rw [if_pos rfl, if_pos rfl, sentIn_append, hnone, List.append_nil]
      exact ⟨hf, hone.2⟩
  closed e' h := by
    rw [of_append] at h
    rw [hends]
    rcases eq_or_other e e' with rfl | rfl
    · rw [if_pos rfl, List.mem_append] at h
      rw [if_neg (other_ne e')]
      exact h.elim (K.closed e') hends₂
    · rw [if_neg (other_ne e).symm, List.append_nil] at h
      have hone := K.closed _ h
      rw [other_other] at hone ⊢
      rw [if_pos rfl]
      exact hclosed hone

/-- What an end does with its own. -/
theorem Kept.own (K : Kept t s) (hl : Local (of t e ++ did) l) (M : Moves (s.ends e) l did) :
    Kept (t ++ did.map fun x => (e, x)) (s.set e l) := by
  obtain ⟨hwrote, htook, hsent⟩ := M.silent
  refine K.step hl (set_ends s e · l) ?_ ?_ (fun h => ⟨M.finished h, hsent⟩) M.closed
    (fun h => (M.own _ h).elim) fun h => (M.own _ h).elim
  · rw [hwrote, List.append_nil]
    rfl
  · rw [htook]
    rfl

theorem Kept.wrote (K : Kept t s) (id n : ℕ) :
    Kept (t ++ (IrohLink.wrote (s.ends e) id n).2.map fun x => (e, x))
      ((s.set e (IrohLink.wrote (s.ends e) id n).1).setPipe e (s.pipe e ++ wroteIn (IrohLink.wrote (s.ends e) id n).2)) := by
  have hl := (K.ends e).writes id n
  have hquiet : tookIn (IrohLink.wrote (s.ends e) id n).2 = [] ∧ .recvEnded .finished ∉ (IrohLink.wrote (s.ends e) id n).2 ∧
      .recvEnded .closed ∉ (IrohLink.wrote (s.ends e) id n).2 ∧
      ((s.ends e).closed = true → (IrohLink.wrote (s.ends e) id n).1.closed = true) := by
    unfold IrohLink.wrote
    split
    · dsimp only
      split_ifs
      · simp [tookIn]
      · refine ⟨rfl, by simp, by simp, fun h => ?_⟩
        unfold LinkState.freeSend
        split_ifs <;> exact h
      · simp [tookIn]
    · simp [tookIn]
  obtain ⟨htook, hno₁, hno₂, hclosed⟩ := hquiet
  refine K.step hl (set_ends s e · _) ?_ ?_ (fun hf => ?_) hclosed (fun h => absurd h hno₁) fun h => absurd h hno₂
  · rw [setPipe_pipe, if_pos rfl]
  · rw [setPipe_pipe, if_neg (other_ne e), htook]
    rfl
  · -- An end that has finished its stream writes nothing.
    have hnone := (K.ends e).finished hf
    have hsame : IrohLink.wrote (s.ends e) id n = (s.ends e, []) := by
      unfold IrohLink.wrote
      split
      case h_1 f rest hc =>
        have hhalf := ((K.ends e).writing id f rest hc).2
        rw [hnone] at hhalf
        cases hhalf
      case h_2 => rfl
    rw [hsame]
    exact ⟨hf, rfl⟩

/-- What an end returned is the first of what the other answered for. -/
theorem Kept.received (K : Kept t s) (e : Side) : receivedIn (of t e) <+: sentIn (of t e.other) := by
  obtain ⟨held, hheld, -⟩ := (K.ends e).took
  obtain ⟨part, hpart, ht, -, -⟩ := (K.ends e.other).wrote
  have hpipe := K.pipe e.other
  rw [other_other] at hpipe
  refine Frames.records_prefix (K.ends e).received (K.ends e.other).sent ht ?_
  rw [← hpart, hpipe, hheld, List.append_assoc]
  exact List.prefix_append _ _

theorem Kept.streamEnded (K : Kept t s) {id wanted : ℕ} (hc : (s.ends e).calls id = some (.reading wanted))
    (hf : (s.ends e.other).finished = true) (hempty : s.pipe e.other = []) :
    Kept (t ++ (IrohLink.streamEnded (s.ends e) id).2.map fun x => (e, x)) (s.set e (IrohLink.streamEnded (s.ends e) id).1) := by
  have hl := (K.ends e).streamEnded hc
  obtain ⟨-, half, hh, -⟩ := (K.ends e).reading id wanted hc
  by_cases hnil : half.buf = []
  · have heq : IrohLink.streamEnded (s.ends e) id = (((s.ends e).answered id).freeRecv, [.recvEnded .finished]) := by
      unfold IrohLink.streamEnded
      rw [hh]
      exact if_pos hnil
    rw [heq] at hl ⊢
    have hmoves : Moves (s.ends e) ((s.ends e).answered id).freeRecv [] := moves_freeRecv _ id (by simp)
    refine K.step hl (set_ends s e · _) (List.append_nil _).symm rfl (fun h => ⟨hmoves.finished h,
      rfl⟩) hmoves.closed (fun _ => ⟨hf, ?_⟩) (by simp)
    -- All that the peer wrote has been read, and ends between two frames.
    obtain ⟨part, hpart, ht, -, -⟩ := (K.ends e.other).wrote
    have hpipe := K.pipe e.other
    rw [other_other, hempty, List.append_nil, hpart, (K.ends e).between hh hnil] at hpipe
    rw [(Frames.records_eq (K.ends e).received (K.ends e.other).sent ht hpipe.symm).1]
  · have heq : IrohLink.streamEnded (s.ends e) id = IrohLink.readFailed (s.ends e) id := by
      unfold IrohLink.streamEnded
      rw [hh]
      exact if_neg hnil
    rw [heq] at hl ⊢
    exact K.own hl ((moves_cutOff _).trans (moves_freeRecv _ id (by simp [Own])))

theorem Kept.failed (K : Kept t s) {id wanted : ℕ} (hc : (s.ends e).calls id = some (.reading wanted)) {byPeer : Bool}
    (hpeer : byPeer = true → (s.ends e.other).closed = true) :
    Kept (t ++ (IrohLink.failed (s.ends e) id byPeer).2.map fun x => (e, x))
      (s.set e (IrohLink.failed (s.ends e) id byPeer).1) := by
  have hl := (K.ends e).failed hc byPeer
  obtain ⟨-, half, hh, -⟩ := (K.ends e).reading id wanted hc
  by_cases hclean : byPeer = true ∧ half.buf = []
  · have heq : IrohLink.failed (s.ends e) id byPeer = (((s.ends e).answered id).freeRecv, [.recvEnded .closed]) := by
      unfold IrohLink.failed
      rw [hh]
      exact if_pos hclean
    rw [heq] at hl ⊢
    have hmoves : Moves (s.ends e) ((s.ends e).answered id).freeRecv [] := moves_freeRecv _ id (by simp)
    exact K.step hl (set_ends s e · _) (List.append_nil _).symm rfl (fun h => ⟨hmoves.finished h, rfl⟩) hmoves.closed (by simp)
      fun _ => hpeer hclean.1
  · have hmoves : Moves (s.ends e) (IrohLink.failed (s.ends e) id byPeer).1 (IrohLink.failed (s.ends e) id byPeer).2 := by
      unfold IrohLink.failed
      rw [hh]
      dsimp only
      rw [if_neg hclean]
      split_ifs
      · exact moves_freeRecv _ id (by simp [Own])
      · exact (moves_cutOff _).trans (moves_freeRecv _ id (by simp [Own]))
    exact K.own hl hmoves

theorem Kept.gave (K : Kept t s) {id wanted : ℕ} (hc : (s.ends e).calls id = some (.reading wanted)) (n : ℕ) :
    Kept (t ++ (IrohLink.gave (s.ends e) id ((s.pipe e.other).take (min n wanted))).2.map fun x => (e, x))
      ((s.set e (IrohLink.gave (s.ends e) id ((s.pipe e.other).take (min n wanted))).1).setPipe e.other
        ((s.pipe e.other).drop (min n wanted))) := by
  set bytes := (s.pipe e.other).take (min n wanted) with hbytes
  have hlen : bytes.length ≤ wanted := by
    rw [hbytes, List.length_take]
    omega
  have hl := (K.ends e).gave hc hlen
  obtain ⟨-, half, hh, -⟩ := (K.ends e).reading id wanted hc
  unfold IrohLink.gave at hl ⊢
  rw [hh] at hl ⊢
  dsimp only at hl ⊢
  have M := moves_turn { s.ends e with recv := { (s.ends e).recv with half := some { buf := half.buf ++ bytes } } } id
  obtain ⟨hwrote, htook, hsent⟩ := M.silent
  refine K.step hl (set_ends s e · _) ?_ ?_ (fun h => ⟨M.finished h, hsent⟩) M.closed (fun h => ?_) fun h => ?_
  · rw [setPipe_pipe, if_neg (other_ne e).symm]
    change s.pipe e = s.pipe e ++ ([] ++ wroteIn _)
    rw [hwrote, List.append_nil, List.append_nil]
  · rw [setPipe_pipe, if_pos rfl]
    change s.pipe e.other = (bytes ++ tookIn _) ++ _
    rw [htook, List.append_nil, hbytes, List.take_append_drop]
  · exact ((List.mem_cons.mp h).elim (fun heq => by cases heq) (M.own _)).elim
  · exact ((List.mem_cons.mp h).elim (fun heq => by cases heq) (M.own _)).elim

theorem reading_eq_some {s : Link} {e : Side} {id wanted : ℕ} (h : s.reading e id = some wanted) :
    (s.ends e).calls id = some (.reading wanted) := by
  unfold Link.reading at h
  split at h
  case h_1 w hc =>
    rw [hc, Option.some.inj h]
  case h_2 => cases h

/-- What an end does of itself, a send's write apart, is its own. -/
theorem moves_does (l : LinkState) (act : Act) (hact : ∀ id n, act ≠ .wrote id n) :
    Moves l (IrohLink.does l act).1 (IrohLink.does l act).2 := by
  cases act with
  | send id f =>
    simp only [IrohLink.does]
    split_ifs
    · exact moves_send l id f
    · exact moves_refl l
  | recv id =>
    simp only [IrohLink.does]
    split_ifs
    · exact moves_recv l id
    · exact moves_refl l
  | close id =>
    simp only [IrohLink.does]
    split_ifs
    · exact moves_close l id
    · exact moves_refl l
  | poll id =>
    simp only [IrohLink.does]
    split
    · split_ifs
      · exact moves_startSend l id _
      · exact moves_refl l
    · split_ifs
      · exact moves_turn l id
      · exact moves_refl l
    · exact moves_refl l
  | drop id => exact moves_drop l id
  | release => exact moves_release l
  | wrote id n => exact absurd rfl (hact id n)
  | refused id => exact moves_refused l id
  | drained id =>
    simp only [IrohLink.does]
    split
    · exact (moves_letGo (l.answered id) _).of_eq rfl rfl
    · exact moves_refl l
  | gave id n => exact moves_refl l
  | streamEnded id => exact moves_refl l
  | failed id byPeer => exact moves_refl l

theorem Kept.does (K : Kept t s) (e : Side) (act : Act) :
    Kept (t ++ (IrohLink.does (s.ends e) act).2.map fun x => (e, x))
      ((s.set e (IrohLink.does (s.ends e) act).1).setPipe e (s.pipe e ++ wroteIn (IrohLink.does (s.ends e) act).2)) := by
  by_cases hact : ∀ id n, act ≠ .wrote id n
  · have M := moves_does (s.ends e) act hact
    have hsame : (s.set e (IrohLink.does (s.ends e) act).1).setPipe e (s.pipe e ++ wroteIn (IrohLink.does (s.ends e) act).2) =
        s.set e (IrohLink.does (s.ends e) act).1 := by
      have hpipe : Function.update s.pipe e (s.pipe e) = s.pipe := Function.update_eq_self e s.pipe
      rw [M.silent.1, List.append_nil]
      exact congrArg (Link.mk _) hpipe
    rw [hsame]
    exact K.own ((K.ends e).does act) M
  · simp only [ne_eq, not_forall, not_not] at hact
    obtain ⟨id, n, rfl⟩ := hact
    exact K.wrote id n

/-- Whatever either end does, or its transport does, the two stay tied. -/
theorem Kept.stepped (K : Kept t s) (e : Side) (act : Act) : Kept (t ++ (s.step e act).2.map fun x => (e, x))
    (s.step e act).1 := by
  have hsame : Kept (t ++ ([] : List Happening).map fun x => (e, x)) s := by simpa using K
  cases act with
  | gave id n =>
    simp only [Link.step]
    split
    case h_1 wanted hw =>
      split_ifs
      · exact hsame
      · exact K.gave (reading_eq_some hw) n
    case h_2 => exact hsame
  | streamEnded id =>
    simp only [Link.step]
    split_ifs with h
    · obtain ⟨wanted, hw⟩ := Option.isSome_iff_exists.mp h.1
      exact K.streamEnded (reading_eq_some hw) h.2.1 h.2.2
    · exact hsame
  | failed id byPeer =>
    simp only [Link.step]
    split_ifs with h
    · obtain ⟨wanted, hw⟩ := Option.isSome_iff_exists.mp h.1
      exact K.failed (reading_eq_some hw) h.2
    · exact hsame
  | send id f => exact K.does e (.send id f)
  | recv id => exact K.does e (.recv id)
  | close id => exact K.does e (.close id)
  | poll id => exact K.does e (.poll id)
  | drop id => exact K.does e (.drop id)
  | release => exact K.does e .release
  | wrote id n => exact K.does e (.wrote id n)
  | refused id => exact K.does e (.refused id)
  | drained id => exact K.does e (.drained id)

end Run

theorem kept_run (max : Side → ℕ) (acts : List (Side × Act)) : Kept (Link.runOf max acts).2 (Link.runOf max acts).1 :=
  Histories.run_inv (kept_new max) (fun _ _ p K => K.stepped p.1 p.2) acts

/-- A link delivers frames whole, once each and in order. Whatever both ends do, in whatever
order, with any call dropped where it waits and the transport failing at any time: the
frames an end returns are the first of those the other answered for; no byte follows a
frame whose send was dropped while it wrote; a frame is returned once the bytes read end
where it ends, and not later, so that no whole frame is held; nothing read is lost while
the link lasts; a stream's end is told as one only between two frames, and, when the peer
finished it, after every frame the peer answered for; and the lengths never wrap. -/
theorem frames_whole (max : Side → ℕ) (acts : List (Side × Act)) :
    let s := (Link.runOf max acts).1
    let t := (Link.runOf max acts).2
    (∀ e, receivedIn (of t e) <+: sentIn (of t e.other)) ∧
      (∀ e, ∃ part, wroteIn (of t e) = (sentIn (of t e)).flatMap frame ++ part ∧ Torn part) ∧
      (∀ e, Each Said (of t e)) ∧
      (∀ e, (s.ends e).ended = false → ∃ half, (s.ends e).recv.half = some half ∧
        tookIn (of t e) = (receivedIn (of t e)).flatMap frame ++ half.buf ∧ ∀ f, f.length < 2 ^ 32 → ¬ frame f <+: half.buf) ∧
      (∀ e, .recvEnded .finished ∈ of t e → receivedIn (of t e) = sentIn (of t e.other)) ∧
      ∀ e, .recvEnded .closed ∈ of t e → (s.ends e.other).closed = true := by
  have K := kept_run max acts
  dsimp only
  refine ⟨K.received, fun e => ?_, fun e => (K.ends e).said, fun e hl => ?_, fun e h => ?_, K.closed⟩
  · obtain ⟨part, hpart, ht, -⟩ := (K.ends e).wrote
    exact ⟨part, hpart, ht⟩
  · obtain ⟨half, hh⟩ := Option.ne_none_iff_exists'.mp ((K.ends e).live hl)
    obtain ⟨part, hpart, hheld⟩ := (K.ends e).took
    refine ⟨half, hh, by rw [hpart, (hheld half hh).1], fun f hlen hframe => ?_⟩
    exact nextFrame_ne_none hlen hframe ((K.ends e).idle half hh)
  · exact (K.received e).eq_of_length_le (K.finished e h).2.length_le

end Glade.Node.IrohLinks
