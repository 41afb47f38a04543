import Glade.Node.IrohLink

/-! One end of an iroh link, alone. What it writes is the frames it answered for and part
of one more, after which it writes nothing; what it reads is the frames it returned
and what it holds of the next. -/

namespace Glade.Node.IrohLinks

open Wire Words Side Histories
open Frames (frame Torn)

/-! ### What a history tells -/

def sentIn (u : List Happening) : List Bytes :=
  u.filterMap fun
    | .sent f => some f
    | _ => none

def receivedIn (u : List Happening) : List Bytes :=
  u.filterMap fun
    | .received f => some f
    | _ => none

/-- The bytes an end has read. -/
def tookIn (u : List Happening) : Bytes :=
  u.flatMap fun
    | .took bytes => bytes
    | _ => []

/-- What says nothing of bytes or frames. -/
def Quiet : Happening → Prop
  | .sent _ | .cut | .wrote _ | .took _ | .received _ => False
  | _ => True

/-- What is so when something happens at an end: a send dropped while it writes is the last
that writes; a receive returns a frame once it has read that far, and no further; a
stream ends between two frames; and no subtraction wraps. -/
def Said (before : List Happening) : Happening → Prop
  | .wrote _ => .cut ∉ before
  | .received f => tookIn before = (receivedIn before ++ [f]).flatMap frame
  | .recvEnded .here => .ended ∈ before
  | .recvEnded _ => tookIn before = (receivedIn before).flatMap frame
  | .panicked => False
  | _ => True

section Projections

variable {u did : List Happening}

theorem sentIn_append : sentIn (u ++ did) = sentIn u ++ sentIn did := List.filterMap_append

theorem receivedIn_append : receivedIn (u ++ did) = receivedIn u ++ receivedIn did := List.filterMap_append

theorem tookIn_append : tookIn (u ++ did) = tookIn u ++ tookIn did := List.flatMap_append

theorem wroteIn_append : wroteIn (u ++ did) = wroteIn u ++ wroteIn did := List.flatMap_append

theorem sentIn_quiet (h : ∀ x ∈ did, Quiet x) : sentIn did = [] := by
  rw [sentIn, List.filterMap_eq_nil_iff]
  intro x hx
  have hq := h x hx
  cases x with
  | sent f => exact hq.elim
  | _ => rfl

theorem receivedIn_quiet (h : ∀ x ∈ did, Quiet x) : receivedIn did = [] := by
  rw [receivedIn, List.filterMap_eq_nil_iff]
  intro x hx
  have hq := h x hx
  cases x with
  | received f => exact hq.elim
  | _ => rfl

theorem tookIn_quiet (h : ∀ x ∈ did, Quiet x) : tookIn did = [] := by
  rw [tookIn, List.flatMap_eq_nil_iff]
  intro x hx
  have hq := h x hx
  cases x with
  | took bytes => exact hq.elim
  | _ => rfl

theorem wroteIn_quiet (h : ∀ x ∈ did, Quiet x) : wroteIn did = [] := by
  rw [wroteIn, List.flatMap_eq_nil_iff]
  intro x hx
  have hq := h x hx
  cases x with
  | wrote bytes => exact hq.elim
  | _ => rfl

end Projections

/-! ### The buffer of a receive -/

/-- How many bytes the current frame has, as far as its header tells. -/
def need (buf : Bytes) : ℕ := if buf.length < 4 then 4 else 4 + ofLe (buf.take 4)

section Buffer

variable {buf bytes rest f : Bytes} {max : ℕ}

/-- A whole frame is what its header says, and the rest follows it. -/
theorem nextFrame_cut (h : nextFrame buf max = some (.ok (f, rest))) :
    4 ≤ buf.length ∧ 4 + ofLe (buf.take 4) ≤ buf.length ∧ f = (buf.drop 4).take (ofLe (buf.take 4)) ∧
      rest = buf.drop (4 + ofLe (buf.take 4)) := by
  unfold nextFrame at h
  by_cases h4 : buf.length < 4
  · rw [if_pos h4] at h
    cases h
  rw [if_neg h4] at h
  dsimp only at h
  by_cases hmax : max < ofLe (buf.take 4)
  · rw [if_pos hmax] at h
    cases h
  rw [if_neg hmax] at h
  by_cases hshort : buf.length < 4 + ofLe (buf.take 4)
  · rw [if_pos hshort] at h
    cases h
  rw [if_neg hshort] at h
  obtain ⟨rfl, rfl⟩ := Prod.mk.inj (Except.ok.inj (Option.some.inj h))
  exact ⟨not_lt.mp h4, not_lt.mp hshort, rfl, rfl⟩

theorem nextFrame_ok (h : nextFrame buf max = some (.ok (f, rest))) : buf = frame f ++ rest ∧ f.length < 2 ^ 32 := by
  obtain ⟨h4, hshort, rfl, rfl⟩ := nextFrame_cut h
  have hlen : (buf.take 4).length = 4 := by
    rw [List.length_take]
    omega
  have hbody : ((buf.drop 4).take (ofLe (buf.take 4))).length = ofLe (buf.take 4) := by
    rw [List.length_take, List.length_drop]
    omega
  constructor
  · have hhead : leBytes 4 (ofLe (buf.take 4)) = buf.take 4 := by
      have hle := leBytes_ofLe (buf.take 4)
      rwa [hlen] at hle
    rw [frame, hbody, hhead, List.append_assoc, ← List.drop_drop, List.take_append_drop, List.take_append_drop]
  · rw [hbody]
    have hlt := ofLe_lt (buf.take 4)
    rw [hlen] at hlt
    omega

/-- A frame whose bytes are all that is held leaves nothing. -/
theorem nextFrame_rest (h : nextFrame buf max = some (.ok (f, rest))) (hfit : buf.length ≤ need buf) : rest = [] := by
  obtain ⟨h4, -, -, rfl⟩ := nextFrame_cut h
  rw [need, if_neg (by omega)] at hfit
  exact List.drop_eq_nil_of_le hfit

theorem nextFrame_nil : nextFrame [] max = none := rfl

/-- What begins with a whole frame is not waited for. -/
theorem nextFrame_ne_none (hf : f.length < 2 ^ 32) (h : frame f <+: buf) : nextFrame buf max ≠ none := by
  obtain ⟨rest, rfl⟩ := h
  have hlen : (frame f ++ rest).length = 4 + f.length + rest.length := by
    rw [List.length_append, Frames.length_frame]
  have hhead : ofLe ((frame f ++ rest).take 4) = f.length := by
    rw [frame, List.append_assoc, List.take_left' (length_leBytes 4 _), ofLe_leBytes]
    exact Nat.mod_eq_of_lt (by omega)
  unfold nextFrame
  rw [if_neg (by omega), hhead]
  dsimp only
  split_ifs with hmax hshort
  · simp
  · omega
  · simp

/-- What the current frame lacks is some, and never more than it has. -/
theorem remaining_of_none (h : nextFrame buf max = none) : ∃ n, remaining buf = some n ∧ buf.length + n = need buf := by
  unfold nextFrame at h
  unfold remaining need
  by_cases h4 : buf.length < 4
  · rw [if_pos h4, if_pos h4]
    exact ⟨4 - buf.length, rfl, by omega⟩
  rw [if_neg h4] at h
  dsimp only at h
  by_cases hmax : max < ofLe (buf.take 4)
  · rw [if_pos hmax] at h
    cases h
  rw [if_neg hmax] at h
  by_cases hshort : buf.length < 4 + ofLe (buf.take 4)
  · rw [if_neg h4, if_neg h4, if_neg (by omega)]
    exact ⟨4 + ofLe (buf.take 4) - buf.length, rfl, by omega⟩
  · rw [if_neg hshort] at h
    cases h

theorem fits_append (h : buf.length + bytes.length ≤ need buf) : (buf ++ bytes).length ≤ need (buf ++ bytes) := by
  unfold need at h ⊢
  rw [List.length_append]
  by_cases h4 : buf.length < 4
  · rw [if_pos h4] at h
    split_ifs <;> omega
  · rw [if_neg h4] at h
    rw [if_neg (by omega), List.take_append_of_le_length (by omega)]
    exact h

end Buffer

/-! ### One end -/

/-- What an end has written. -/
structure Writes (u : List Happening) (l : LinkState) : Prop where
  sent : ∀ f ∈ sentIn u, f.length < 2 ^ 32
  /-- It is the frames it answered for, and part of one more. -/
  wrote : ∃ part, wroteIn u = (sentIn u).flatMap frame ++ part ∧ Torn part ∧
    (∀ half, l.send.half = some half → half.torn = false → part = []) ∧
    ∀ id f rest, l.calls id = some (.writing f rest) → f.length < 2 ^ 32 ∧ frame f = part ++ rest
  writing : ∀ id f rest, l.calls id = some (.writing f rest) →
    l.send.holder = some id ∧ l.send.half = some { torn := true }
  cut : .cut ∈ u → (∀ half, l.send.half = some half → half.torn = true) ∧ ∀ id f rest, l.calls id ≠ some (.writing f rest)
  finished : l.finished = true → l.send.half = none

/-- What an end has read. -/
structure Reads (u : List Happening) (l : LinkState) : Prop where
  received : ∀ f ∈ receivedIn u, f.length < 2 ^ 32
  /-- It is the frames it returned, and what it holds of the next. -/
  took : ∃ part, tookIn u = (receivedIn u).flatMap frame ++ part ∧
    ∀ half, l.recv.half = some half → half.buf = part ∧ half.buf.length ≤ need half.buf
  reading : ∀ id wanted, l.calls id = some (.reading wanted) →
    l.recv.holder = some id ∧ ∃ half, l.recv.half = some half ∧ half.buf.length + wanted ≤ need half.buf
  live : l.ended = false → l.recv.half ≠ none

/-- What an end is at all times, what it holds of a frame apart. -/
structure Sides (u : List Happening) (l : LinkState) : Prop extends Writes u l, Reads u l where
  ended : l.ended = true → .ended ∈ u
  said : Each Said u

/-- What an end is between two steps: what it holds is no whole frame. -/
structure Local (u : List Happening) (l : LinkState) : Prop extends Sides u l where
  idle : ∀ half, l.recv.half = some half → nextFrame half.buf l.max = none

/-- What a step may do to a half that it has nothing to do with. -/
structure Beside (l l' : LinkState) (did : List Happening) : Prop where
  max : l'.max = l.max
  send : ∀ half, l'.send.half = some half → l.send.half = some half
  writing : ∀ id f rest, l'.calls id = some (.writing f rest) →
    l.calls id = some (.writing f rest) ∧ l'.send.holder = l.send.holder ∧ l'.send.half = l.send.half
  finished : l'.finished = true → l.finished = true ∨ l'.send.half = none
  recv : ∀ half, l'.recv.half = some half → l.recv.half = some half
  reading : ∀ id wanted, l'.calls id = some (.reading wanted) →
    l.calls id = some (.reading wanted) ∧ l'.recv.holder = l.recv.holder ∧ l'.recv.half = l.recv.half
  live : l'.ended = false → l.ended = false ∧ l'.recv.half = l.recv.half
  ended : l'.ended = true → l.ended = true ∨ .ended ∈ did

section End

variable {u did : List Happening} {l l' : LinkState} {id : ℕ}

theorem Writes.beside (W : Writes u l) (B : Beside l l' did) (hsent : sentIn did = []) (hwrote : wroteIn did = [])
    (hcut : .cut ∉ did) : Writes (u ++ did) l' := by
  have hsent' : sentIn (u ++ did) = sentIn u := by rw [sentIn_append, hsent, List.append_nil]
  have hwrote' : wroteIn (u ++ did) = wroteIn u := by rw [wroteIn_append, hwrote, List.append_nil]
  constructor
  case sent => rw [hsent']; exact W.sent
  case wrote =>
    obtain ⟨part, hpart, ht, hfree, hwriting⟩ := W.wrote
    rw [hsent', hwrote']
    exact ⟨part, hpart, ht, fun half hh => hfree half (B.send half hh), fun id f rest hc => hwriting id f rest
      (B.writing id f rest hc).1⟩
  case writing =>
    intro id f rest hc
    obtain ⟨hc', hholder, hhalf⟩ := B.writing id f rest hc
    rw [hholder, hhalf]
    exact W.writing id f rest hc'
  case cut =>
    intro hin
    have hin' : .cut ∈ u := (List.mem_append.mp hin).resolve_right hcut
    exact ⟨fun half hh => (W.cut hin').1 half (B.send half hh), fun id f rest hc => (W.cut hin').2 id f rest
      (B.writing id f rest hc).1⟩
  case finished =>
    intro hf
    rcases B.finished hf with hf | hnone
    · have hnone := W.finished hf
      cases hh : l'.send.half with
      | none => rfl
      | some half =>
        rw [B.send half hh] at hnone
        cases hnone
    · exact hnone

theorem Reads.beside (R : Reads u l) (B : Beside l l' did) (hreceived : receivedIn did = []) (htook : tookIn did = []) :
    Reads (u ++ did) l' := by
  have hreceived' : receivedIn (u ++ did) = receivedIn u := by rw [receivedIn_append, hreceived, List.append_nil]
  have htook' : tookIn (u ++ did) = tookIn u := by rw [tookIn_append, htook, List.append_nil]
  constructor
  case received => rw [hreceived']; exact R.received
  case took =>
    obtain ⟨part, hpart, hhalf⟩ := R.took
    rw [hreceived', htook']
    exact ⟨part, hpart, fun half hh => hhalf half (B.recv half hh)⟩
  case reading =>
    intro id wanted hc
    obtain ⟨hc', hholder, hhalf⟩ := B.reading id wanted hc
    rw [hholder, hhalf]
    exact R.reading id wanted hc'
  case live =>
    intro hlive
    obtain ⟨hl, hhalf⟩ := B.live hlive
    rw [hhalf]
    exact R.live hl

theorem Sides.beside (S : Sides u l) (B : Beside l l' did) (hquiet : ∀ x ∈ did, Quiet x)
    (hsaid : Each (fun before x => Said (u ++ before) x) did) : Sides (u ++ did) l' where
  toWrites := S.toWrites.beside B (sentIn_quiet hquiet) (wroteIn_quiet hquiet) fun h => hquiet _ h
  toReads := S.toReads.beside B (receivedIn_quiet hquiet) (tookIn_quiet hquiet)
  ended he := by
    rcases B.ended he with he | hin
    · exact List.mem_append_left _ (S.ended he)
    · exact List.mem_append_right _ hin
  said := S.said.append hsaid

/-- A step of the send half leaves what was read. -/
theorem Reads.keep (R : Reads u l) (hrecv : l'.recv = l.recv) (hended : l'.ended = l.ended)
    (hcalls : ∀ id wanted, l'.calls id = some (.reading wanted) → l.calls id = some (.reading wanted))
    (hreceived : receivedIn did = []) (htook : tookIn did = []) : Reads (u ++ did) l' where
  received := by
    rw [receivedIn_append, hreceived, List.append_nil]
    exact R.received
  took := by
    rw [receivedIn_append, tookIn_append, hreceived, htook, List.append_nil, List.append_nil, hrecv]
    exact R.took
  reading id wanted hc := by
    rw [hrecv]
    exact R.reading id wanted (hcalls id wanted hc)
  live hl := by
    rw [hrecv]
    exact R.live (hended ▸ hl)

/-- A step of the receive half leaves what was written. -/
theorem Writes.keep (W : Writes u l) (hsend : l'.send = l.send) (hfinished : l'.finished = l.finished)
    (hcalls : ∀ id f rest, l'.calls id = some (.writing f rest) → l.calls id = some (.writing f rest))
    (hsent : sentIn did = []) (hwrote : wroteIn did = []) (hcut : .cut ∉ did) : Writes (u ++ did) l' where
  sent := by
    rw [sentIn_append, hsent, List.append_nil]
    exact W.sent
  wrote := by
    obtain ⟨part, hpart, ht, hfree, hwriting⟩ := W.wrote
    rw [sentIn_append, wroteIn_append, hsent, hwrote, List.append_nil, List.append_nil, hsend]
    exact ⟨part, hpart, ht, hfree, fun id f rest hc => hwriting id f rest (hcalls id f rest hc)⟩
  writing id f rest hc := by
    rw [hsend]
    exact W.writing id f rest (hcalls id f rest hc)
  cut hin := by
    have hin' : .cut ∈ u := (List.mem_append.mp hin).resolve_right hcut
    rw [hsend]
    exact ⟨(W.cut hin').1, fun id f rest hc => (W.cut hin').2 id f rest (hcalls id f rest hc)⟩
  finished hf := by
    rw [hsend]
    exact W.finished (hfinished ▸ hf)

/-- What says nothing that has to be so. -/
def Plain (x : Happening) : Prop := Quiet x ∧ ∀ before, Said before x

theorem Sides.plain (S : Sides u l) (B : Beside l l' did) (hplain : ∀ x ∈ did, Plain x) : Sides (u ++ did) l' := by
  refine S.beside B (fun x hx => (hplain x hx).1) ?_
  rintro before x after rfl
  exact (hplain x (by simp)).2 _

theorem Local.plain (L : Local u l) (B : Beside l l' did) (hplain : ∀ x ∈ did, Plain x) : Local (u ++ did) l' where
  toSides := L.toSides.plain B hplain
  idle half hh := by
    rw [B.max]
    exact L.idle half (B.recv half hh)

/-! ### The link's end -/

theorem end_send_half (l : LinkState) : l.end_.1.send.half = if l.send.holder = none then none else l.send.half := by
  unfold LinkState.end_
  dsimp only
  split_ifs <;> rfl

theorem end_recv_half (l : LinkState) : l.end_.1.recv.half = if l.recv.holder = none then none else l.recv.half := by
  unfold LinkState.end_
  dsimp only
  split_ifs <;> rfl

theorem end_holders (l : LinkState) : l.end_.1.send.holder = l.send.holder ∧ l.end_.1.recv.holder = l.recv.holder := by
  unfold LinkState.end_
  dsimp only
  constructor <;> split_ifs <;> rfl

/-- The end of a link leaves a half to the call that holds it. -/
theorem Sides.beside_end (S : Sides u l) (hmax : l'.max = l.max) (hsend : l'.send = l.end_.1.send)
    (hrecv : l'.recv = l.end_.1.recv)
    (hwriting : ∀ id f rest, l'.calls id = some (.writing f rest) → l.calls id = some (.writing f rest))
    (hreading : ∀ id wanted, l'.calls id = some (.reading wanted) → l.calls id = some (.reading wanted))
    (hfinished : l'.finished = true → l.finished = true ∨ l.send.holder = none) (hended : l'.ended = true) (hin : .ended ∈ did) :
    Beside l l' did where
  max := hmax
  send half hh := by
    rw [hsend, end_send_half] at hh
    split_ifs at hh with hnone
    exact hh
  writing id f rest hc := by
    have hc' := hwriting id f rest hc
    have hholder := (S.writing id f rest hc').1
    refine ⟨hc', ?_, ?_⟩
    · rw [hsend, (end_holders l).1]
    · rw [hsend, end_send_half, if_neg (by simp [hholder])]
  finished hf := by
    refine (hfinished hf).imp_right fun hnone => ?_
    rw [hsend, end_send_half, if_pos hnone]
  recv half hh := by
    rw [hrecv, end_recv_half] at hh
    split_ifs at hh with hnone
    exact hh
  reading id wanted hc := by
    have hc' := hreading id wanted hc
    have hholder := (S.reading id wanted hc').1
    refine ⟨hc', ?_, ?_⟩
    · rw [hrecv, (end_holders l).2]
    · rw [hrecv, end_recv_half, if_neg (by simp [hholder])]
  live hl := by
    rw [hended] at hl
    cases hl
  ended _ := .inr hin

theorem letGo_spec (l : LinkState) (e : Ended) :
    (l.letGo e).1 = { l with closed := (l.letGo e).1.closed, finished := (l.letGo e).1.finished } ∧
      ((l.letGo e).1.finished = true → l.finished = true ∨ e.sending ≠ none) ∧ ∀ x ∈ (l.letGo e).2, x = .closed := by
  refine ⟨rfl, fun hf => ?_, fun x hx => ?_⟩
  · change (l.finished || (e.sending.isSome && !(l.closed || e.held))) = true at hf
    rw [Bool.or_eq_true, Bool.and_eq_true] at hf
    exact hf.imp_right fun h hnone => by simp [hnone] at h
  · change x ∈ (if e.held then [Happening.closed] else []) at hx
    split_ifs at hx
    · simpa using hx
    · cases hx

theorem end_sending (l : LinkState) (h : l.end_.2.sending ≠ none) : l.send.holder = none := by
  by_contra hne
  apply h
  change (if l.send.holder = none then l.send.half else none) = none
  rw [if_neg hne]

theorem plain_ended : Plain .ended := ⟨trivial, fun _ => trivial⟩

theorem plain_closed : Plain .closed := ⟨trivial, fun _ => trivial⟩

theorem plain_sendFailed (why : CarrierError) : Plain (.sendFailed why) := ⟨trivial, fun _ => trivial⟩

theorem cutOff_spec (l : LinkState) :
    l.cutOff.1.calls = l.calls ∧ l.cutOff.1.ended = true ∧ l.cutOff.1.send.holder = l.send.holder ∧
      l.cutOff.1.recv.holder = l.recv.holder ∧ .ended ∈ l.cutOff.2 ∧ ∀ x ∈ l.cutOff.2, Plain x := by
  obtain ⟨-, -, hdid⟩ := letGo_spec l.end_.1 l.end_.2
  refine ⟨rfl, rfl, (end_holders l).1, (end_holders l).2, List.mem_cons_self, fun x hx => ?_⟩
  rcases List.mem_cons.mp hx with rfl | hx
  · exact plain_ended
  · rw [hdid x hx]
    exact plain_closed

theorem Sides.beside_cutOff (S : Sides u l) : Beside l l.cutOff.1 l.cutOff.2 := by
  obtain ⟨-, hended, -, -, hin, -⟩ := cutOff_spec l
  refine S.beside_end rfl rfl rfl (fun _ _ _ h => h) (fun _ _ h => h) (fun hf => ?_) hended hin
  obtain ⟨-, hfin, -⟩ := letGo_spec l.end_.1 l.end_.2
  exact (hfin hf).imp_right (end_sending l)

/-! ### The send half -/

theorem calls_answered (l : LinkState) (id id' : ℕ) (c : Call) (h : (l.answered id).calls id' = some c) :
    id' ≠ id ∧ l.calls id' = some c := by
  change Function.update l.calls id none id' = some c at h
  rw [Function.update_apply] at h
  split_ifs at h with heq
  exact ⟨heq, h⟩

theorem freeSend_spec (l : LinkState) :
    l.freeSend.max = l.max ∧ l.freeSend.recv = l.recv ∧ l.freeSend.calls = l.calls ∧ l.freeSend.ended = l.ended ∧
      (∀ half, l.freeSend.send.half = some half → l.send.half = some half) ∧
      (l.freeSend.finished = true → l.finished = true ∨ l.freeSend.send.half = none) := by
  unfold LinkState.freeSend
  split_ifs with h
  · exact ⟨rfl, rfl, rfl, rfl, fun half hh => (by cases hh), fun _ => .inr rfl⟩
  · exact ⟨rfl, rfl, rfl, rfl, fun half hh => hh, fun hf => .inl hf⟩

theorem freeRecv_spec (l : LinkState) :
    l.freeRecv.max = l.max ∧ l.freeRecv.send = l.send ∧ l.freeRecv.calls = l.calls ∧ l.freeRecv.ended = l.ended ∧
      l.freeRecv.finished = l.finished ∧ (∀ half, l.freeRecv.recv.half = some half → l.recv.half = some half) ∧
      (l.ended = false → l.freeRecv.recv.half = l.recv.half) := by
  unfold LinkState.freeRecv
  split_ifs with h
  · exact ⟨rfl, rfl, rfl, rfl, rfl, fun half hh => (by cases hh), fun hl => by rw [h] at hl; cases hl⟩
  · exact ⟨rfl, rfl, rfl, rfl, rfl, fun half hh => hh, fun _ => rfl⟩

theorem answered_answered (l : LinkState) (id : ℕ) : (l.answered id).answered id = l.answered id := by
  unfold LinkState.answered
  simp only [Function.update_idem]

/-- A call that holds the send half answers, and lets it go. -/
theorem Sides.beside_freeSend (S : Sides u l) (hold : l.send.holder = some id) (did : List Happening) :
    Beside l (l.answered id).freeSend did := by
  obtain ⟨hmax, hrecv, hcalls, hended, hhalf, hfin⟩ := freeSend_spec (l.answered id)
  constructor
  case max => exact hmax
  case send => exact hhalf
  case writing =>
    intro id' f rest hc
    rw [hcalls] at hc
    obtain ⟨hne, hc'⟩ := calls_answered l id id' _ hc
    have hholder := (S.writing id' f rest hc').1
    rw [hold] at hholder
    exact absurd (Option.some.inj hholder).symm hne
  case finished => exact hfin
  case recv =>
    intro half hh
    rw [hrecv] at hh
    exact hh
  case reading =>
    intro id' wanted hc
    rw [hcalls] at hc
    rw [hrecv]
    exact ⟨(calls_answered l id id' _ hc).2, rfl, rfl⟩
  case live =>
    intro hl
    rw [hended] at hl
    rw [hrecv]
    exact ⟨hl, rfl⟩
  case ended =>
    intro he
    rw [hended] at he
    exact .inl he

/-- A call that holds the receive half answers, and lets it go. -/
theorem Sides.beside_freeRecv (S : Sides u l) (hold : l.recv.holder = some id) (did : List Happening) :
    Beside l (l.answered id).freeRecv did := by
  obtain ⟨hmax, hsend, hcalls, hended, hfin, hhalf, hlive⟩ := freeRecv_spec (l.answered id)
  constructor
  case max => exact hmax
  case send =>
    intro half hh
    rw [hsend] at hh
    exact hh
  case writing =>
    intro id' f rest hc
    rw [hcalls] at hc
    rw [hsend]
    exact ⟨(calls_answered l id id' _ hc).2, rfl, rfl⟩
  case finished =>
    intro hf
    rw [hfin] at hf
    exact .inl hf
  case recv => exact hhalf
  case reading =>
    intro id' wanted hc
    rw [hcalls] at hc
    obtain ⟨hne, hc'⟩ := calls_answered l id id' _ hc
    have hholder := (S.reading id' wanted hc').1
    rw [hold] at hholder
    exact absurd (Option.some.inj hholder).symm hne
  case live =>
    intro hl
    rw [hended] at hl
    exact ⟨hl, hlive hl⟩
  case ended =>
    intro he
    rw [hended] at he
    exact .inl he

/-- A send fails: it ends the link first, or not. -/
theorem Local.fail_send (L : Local u l) (hold : l.send.holder = some id) (why : CarrierError) :
    Local (u ++ [.sendFailed why]) (l.answered id).freeSend ∧
      Local (u ++ (l.cutOff.2 ++ [.sendFailed why])) (l.cutOff.1.answered id).freeSend := by
  have hplain : ∀ x ∈ [Happening.sendFailed why], Plain x := by
    intro x hx
    rw [List.mem_singleton.mp hx]
    exact plain_sendFailed why
  refine ⟨L.plain (L.beside_freeSend hold _) hplain, ?_⟩
  obtain ⟨-, -, hholder, -, -, hcut⟩ := cutOff_spec l
  have L₁ := L.plain L.beside_cutOff hcut
  rw [← List.append_assoc]
  exact L₁.plain (L₁.beside_freeSend (hholder.trans hold) _) hplain

theorem Local.startSend (L : Local u l) (hold : l.send.holder = some id) (hcall : ∀ f rest, l.calls id ≠ some (.writing f rest))
    (f : Bytes) : Local (u ++ (IrohLink.startSend l id f).2) (IrohLink.startSend l id f).1 := by
  unfold IrohLink.startSend
  by_cases he : l.ended = true
  · rw [if_pos he]
    exact (L.fail_send hold _).1
  rw [if_neg he]
  cases hh : l.send.half with
  | none => exact (L.fail_send hold _).1
  | some half =>
    dsimp only
    by_cases hlen : l.max < f.length ∨ 2 ^ 32 ≤ f.length
    · rw [if_pos hlen]
      exact (L.fail_send hold _).1
    rw [if_neg hlen]
    by_cases htorn : half.torn = true
    · rw [if_pos htorn]
      exact (L.fail_send hold _).2
    rw [if_neg htorn, List.append_nil]
    rw [Bool.not_eq_true] at htorn
    rw [not_or, not_le] at hlen
    -- No other send writes: it would hold the half.
    have halone : ∀ id' g rest, l.calls id' ≠ some (.writing g rest) := by
      intro id' g rest hc
      have hholder := (L.writing id' g rest hc).1
      rw [hold] at hholder
      exact hcall g rest (Option.some.inj hholder ▸ hc)
    have hcalls : ∀ id' c, Function.update l.calls id (some (.writing f (frame f))) id' = some c →
        id' = id ∧ c = .writing f (frame f) ∨ id' ≠ id ∧ l.calls id' = some c := by
      intro id' c hc
      rw [Function.update_apply] at hc
      split_ifs at hc with heq
      · exact .inl ⟨heq, (Option.some.inj hc).symm⟩
      · exact .inr ⟨heq, hc⟩
    obtain ⟨part, hpart, ht, hfree, -⟩ := L.wrote
    have hnil : part = [] := hfree half hh htorn
    have hreads : Reads (u ++ []) { l with
        send := { l.send with half := some { torn := true } }
        calls := Function.update l.calls id (some (.writing f (frame f))) } := by
      refine L.toReads.keep rfl rfl (fun id' wanted hc => ?_) rfl rfl
      rcases hcalls id' _ hc with ⟨-, hw⟩ | ⟨-, hin⟩
      · cases hw
      · exact hin
    rw [List.append_nil] at hreads
    constructor
    case toSides =>
      constructor
      case toWrites =>
        constructor
        case sent => exact L.sent
        case wrote =>
          refine ⟨part, hpart, ht, fun half' hh' hfalse => ?_, fun id' g rest hc => ?_⟩
          · rw [← Option.some.inj hh'] at hfalse
            cases hfalse
          · rcases hcalls id' _ hc with ⟨-, hw⟩ | ⟨-, hin⟩
            · cases hw
              rw [hnil]
              exact ⟨hlen.2, rfl⟩
            · exact absurd hin (halone id' g rest)
        case writing =>
          intro id' g rest hc
          rcases hcalls id' _ hc with ⟨rfl, -⟩ | ⟨-, hin⟩
          · exact ⟨hold, rfl⟩
          · exact absurd hin (halone id' g rest)
        case cut =>
          intro hcut
          have hbad := (L.cut hcut).1 half hh
          rw [htorn] at hbad
          cases hbad
        case finished =>
          intro hf
          have hnone := L.finished hf
          rw [hh] at hnone
          cases hnone
      case toReads => exact hreads
      case ended => exact L.ended
      case said => exact L.said
    case idle => exact L.idle

/-- Waiting in turn changes nothing of what is held. -/
theorem beside_queue (hl : l' = { l with send := l'.send, recv := l'.recv, calls := l'.calls })
    (hsend : l'.send.half = l.send.half)
    (hrecv : l'.recv.half = l.recv.half)
    (hwriting : ∀ id f rest, l'.calls id = some (.writing f rest) →
      l.calls id = some (.writing f rest) ∧ l'.send.holder = l.send.holder)
    (hreading : ∀ id wanted, l'.calls id = some (.reading wanted) →
      l.calls id = some (.reading wanted) ∧ l'.recv.holder = l.recv.holder) : Beside l l' [] where
  max := by rw [hl]
  send half hh := hsend ▸ hh
  writing id f rest hc := ⟨(hwriting id f rest hc).1, (hwriting id f rest hc).2, hsend⟩
  finished hf := by
    rw [hl] at hf
    exact .inl hf
  recv half hh := hrecv ▸ hh
  reading id wanted hc := ⟨(hreading id wanted hc).1, (hreading id wanted hc).2, hrecv⟩
  live he := by
    rw [hl] at he
    exact ⟨he, hrecv⟩
  ended he := by
    rw [hl] at he
    exact .inl he

theorem Local.send (L : Local u l) (hcall : l.calls id = none) (f : Bytes) :
    Local (u ++ (IrohLink.send l id f).2) (IrohLink.send l id f).1 := by
  unfold IrohLink.send
  by_cases hnone : l.send.holder = none
  · rw [if_pos hnone]
    have L₁ : Local (u ++ []) { l with send := { l.send with holder := some id } } := by
      refine L.plain (beside_queue rfl rfl rfl (fun id' g rest hc => ?_) (fun id' wanted hc => ⟨hc, rfl⟩)) (by simp)
      have hholder := (L.writing id' g rest hc).1
      rw [hnone] at hholder
      cases hholder
    rw [List.append_nil] at L₁
    exact L₁.startSend rfl (fun g rest hc => by rw [hcall] at hc; cases hc) f
  · rw [if_neg hnone]
    refine L.plain (beside_queue rfl rfl rfl (fun id' g rest hc => ?_) (fun id' wanted hc => ?_)) (by simp)
    · change Function.update l.calls id _ id' = _ at hc
      rw [Function.update_apply] at hc
      split_ifs at hc
      · cases hc
      · exact ⟨hc, rfl⟩
    · change Function.update l.calls id _ id' = _ at hc
      rw [Function.update_apply] at hc
      split_ifs at hc
      · cases hc
      · exact ⟨hc, rfl⟩

theorem each_pair {p : List Happening → Happening → Prop} {x y : Happening} (hx : p [] x) (hy : p [x] y) : Each p [x, y] := by
  have h : Each p ([x] ++ [y]) := ((each_nil p).concat hx).concat hy
  exact h

/-- One call writes at a time. -/
theorem Local.writing_alone (L : Local u l) {f rest : Bytes} (hc : l.calls id = some (.writing f rest)) {id' : ℕ} {g rest' : Bytes}
    (hc' : l.calls id' = some (.writing g rest')) : id' = id := by
  have hholder := (L.writing id' g rest' hc').1
  rw [(L.writing id f rest hc).1] at hholder
  exact (Option.some.inj hholder).symm

/-- The stream takes the rest of a frame. -/
theorem Local.wrote_last (L : Local u l) {f rest : Bytes} (hc : l.calls id = some (.writing f rest)) :
    Local (u ++ [.wrote rest, .sent f]) ({ l with send := { l.send with half := some { torn := false } } }.answered id) := by
  have hhalf := (L.writing id f rest hc).2
  have hcut : .cut ∉ u := fun hin => (L.cut hin).2 id f rest hc
  obtain ⟨part, hpart, -, -, hwriting⟩ := L.wrote
  obtain ⟨hlen, hframe⟩ := hwriting id f rest hc
  have hgone : ∀ id' g rest', (l.answered id).calls id' ≠ some (.writing g rest') := by
    intro id' g rest' hc'
    obtain ⟨hne, hin⟩ := calls_answered l id id' _ hc'
    exact hne (L.writing_alone hc hin)
  constructor
  case toSides =>
    constructor
    case toWrites =>
      constructor
      case sent =>
        rw [sentIn_append]
        intro g hg
        rcases List.mem_append.mp hg with hg | hg
        · exact L.sent g hg
        · rw [List.mem_singleton.mp hg]
          exact hlen
      case wrote =>
        refine ⟨[], ?_, Frames.torn_nil, fun _ _ _ => rfl, fun id' g rest' hc' => absurd hc' (hgone id' g rest')⟩
        rw [wroteIn_append, sentIn_append, hpart, List.flatMap_append]
        change _ ++ (rest ++ []) = _ ++ (frame f ++ []) ++ []
        rw [hframe]
        simp
      case writing => exact fun id' g rest' hc' => absurd hc' (hgone id' g rest')
      case cut => exact fun hin => absurd hin (by simp [hcut])
      case finished =>
        intro hf
        have hnone := L.finished hf
        rw [hhalf] at hnone
        cases hnone
    case toReads => exact L.toReads.keep rfl rfl (fun id' wanted hc' => (calls_answered l id id' _ hc').2) rfl rfl
    case ended => exact fun he => List.mem_append_left _ (L.ended he)
    case said => exact L.said.append (each_pair (by simpa [Said] using hcut) trivial)
  case idle => exact L.idle

/-- The stream takes part of a frame. -/
theorem Local.wrote_part (L : Local u l) {f rest : Bytes} (hc : l.calls id = some (.writing f rest)) {n : ℕ}
    (hlast : rest.drop n ≠ []) : Local (u ++ [.wrote (rest.take n)])
      { l with calls := Function.update l.calls id (some (.writing f (rest.drop n))) } := by
  obtain ⟨hold, hhalf⟩ := L.writing id f rest hc
  have hcut : .cut ∉ u := fun hin => (L.cut hin).2 id f rest hc
  obtain ⟨part, hpart, -, -, hwriting⟩ := L.wrote
  obtain ⟨hlen, hframe⟩ := hwriting id f rest hc
  have hcalls : ∀ id' c, Function.update l.calls id (some (.writing f (rest.drop n))) id' = some c →
      id' = id ∧ c = .writing f (rest.drop n) ∨ id' ≠ id ∧ l.calls id' = some c := by
    intro id' c hc'
    rw [Function.update_apply] at hc'
    split_ifs at hc' with heq
    · exact .inl ⟨heq, (Option.some.inj hc').symm⟩
    · exact .inr ⟨heq, hc'⟩
  have hsplit : frame f = (part ++ rest.take n) ++ rest.drop n := by
    rw [hframe, List.append_assoc, List.take_append_drop]
  constructor
  case toSides =>
    constructor
    case toWrites =>
      constructor
      case sent =>
        rw [sentIn_append]
        simpa [sentIn] using L.sent
      case wrote =>
        refine ⟨part ++ rest.take n, ?_, ⟨f, hlen, ⟨_, hsplit.symm⟩, ?_⟩, fun half hh hfalse => ?_,
          fun id' g rest' hc' => ?_⟩
        · rw [wroteIn_append, sentIn_append, hpart]
          simp [wroteIn, sentIn]
        · have hpos : 0 < (rest.drop n).length := List.length_pos_iff.mpr hlast
          have hsum := congrArg List.length hsplit
          rw [List.length_append] at hsum
          omega
        · rw [hhalf] at hh
          rw [← Option.some.inj hh] at hfalse
          cases hfalse
        · rcases hcalls id' _ hc' with ⟨-, hw⟩ | ⟨hne, hin⟩
          · cases hw
            exact ⟨hlen, hsplit⟩
          · exact absurd (L.writing_alone hc hin) hne
      case writing =>
        intro id' g rest' hc'
        rcases hcalls id' _ hc' with ⟨rfl, -⟩ | ⟨hne, hin⟩
        · exact ⟨hold, hhalf⟩
        · exact absurd (L.writing_alone hc hin) hne
      case cut => exact fun hin => absurd hin (by simp [hcut])
      case finished => exact L.finished
    case toReads =>
      refine L.toReads.keep rfl rfl (fun id' wanted hc' => ?_) rfl rfl
      rcases hcalls id' _ hc' with ⟨-, hw⟩ | ⟨-, hin⟩
      · cases hw
      · exact hin
    case ended => exact fun he => List.mem_append_left _ (L.ended he)
    case said => exact L.said.concat hcut
  case idle => exact L.idle

theorem Local.writes (L : Local u l) (id n : ℕ) : Local (u ++ (IrohLink.wrote l id n).2) (IrohLink.wrote l id n).1 := by
  unfold IrohLink.wrote
  cases hc : l.calls id with
  | none => simpa using L
  | some c =>
    cases c with
    | writing f rest =>
      dsimp only
      split_ifs with hnil hlast
      · simpa using L
      · have hrest : rest.take n = rest := by
          have happend := List.take_append_drop n rest
          rwa [hlast, List.append_nil] at happend
        rw [hrest]
        have L₁ := L.wrote_last hc
        have B := L₁.beside_freeSend (L.writing id f rest hc).1 []
        rw [answered_answered] at B
        have L₂ := L₁.plain B (by simp)
        rwa [List.append_nil] at L₂
      · exact L.wrote_part hc hlast
    | _ => simpa using L

theorem Local.refused (L : Local u l) (id : ℕ) : Local (u ++ (IrohLink.refused l id).2) (IrohLink.refused l id).1 := by
  unfold IrohLink.refused
  cases hc : l.calls id with
  | none => simpa using L
  | some c =>
    cases c with
    | writing f rest =>
      have hold := (L.writing id f rest hc).1
      dsimp only
      by_cases he : l.ended = true
      · rw [if_pos he]
        exact (L.fail_send hold _).1
      · rw [if_neg he]
        exact (L.fail_send hold _).2
    | _ => simpa using L

/-! ### The receive half -/

theorem freeRecv_ended (h : l.ended = true) : l.freeRecv.recv.half = none := by
  unfold LinkState.freeRecv
  rw [if_pos h]
  rfl

/-- A receive answers, and the half is given up. -/
theorem Sides.give_up (S : Sides u l) (hold : l.recv.holder = some id) {x : Happening} (hquiet : Quiet x) (hsaid : Said u x)
    (hgone : l.ended = true ∨ l.recv.half = none) : Local (u ++ [x]) (l.answered id).freeRecv where
  toSides := by
    refine S.beside (S.beside_freeRecv hold _) (by simpa using hquiet) ?_
    have h : Each (fun before y => Said (u ++ before) y) ([] ++ [x]) := (each_nil _).concat (by simpa using hsaid)
    exact h
  idle half hh := by
    rcases hgone with he | hnone
    · have hnone : (l.answered id).freeRecv.recv.half = none := freeRecv_ended he
      rw [hnone] at hh
      cases hh
    · have hin := (S.beside_freeRecv hold []).recv half hh
      rw [hnone] at hin
      cases hin

/-- A receive answers with no frame. -/
theorem Local.answer_recv (L : Local u l) (hold : l.recv.holder = some id) {x : Happening} (hquiet : Quiet x) (hsaid : Said u x) :
    Local (u ++ [x]) (l.answered id).freeRecv where
  toSides := by
    refine L.beside (L.beside_freeRecv hold _) (by simpa using hquiet) ?_
    have h : Each (fun before y => Said (u ++ before) y) ([] ++ [x]) := (each_nil _).concat (by simpa using hsaid)
    exact h
  idle half hh := by
    have B := L.beside_freeRecv hold []
    rw [B.max]
    exact L.idle half (B.recv half hh)

/-- A receive fails, and ends the link. -/
theorem Sides.fail_recv (S : Sides u l) (hold : l.recv.holder = some id) (why : CarrierError) :
    Local (u ++ (l.cutOff.2 ++ [.recvFailed why])) (l.cutOff.1.answered id).freeRecv := by
  obtain ⟨-, hended, -, hholder, -, hcut⟩ := cutOff_spec l
  rw [← List.append_assoc]
  exact (S.plain S.beside_cutOff hcut).give_up (hholder.trans hold) trivial trivial (.inl hended)

/-- A receive returns the frame it holds, which is all that it holds. -/
theorem Sides.return_frame (S : Sides u l) (hold : l.recv.holder = some id) {half : Receiving} (hh : l.recv.half = some half)
    {f rest : Bytes} (hf : nextFrame half.buf l.max = some (.ok (f, rest))) :
    Local (u ++ [.received f]) ({ l with recv := { l.recv with half := some { buf := rest } } }.answered id).freeRecv := by
  obtain ⟨part, hpart, hheld⟩ := S.took
  obtain ⟨hbuf, hfit⟩ := hheld half hh
  have hrest : rest = [] := nextFrame_rest hf hfit
  subst hrest
  obtain ⟨hframe, hlen⟩ := nextFrame_ok hf
  rw [List.append_nil] at hframe
  have htook : tookIn u = (receivedIn u ++ [f]).flatMap frame := by
    rw [hpart, ← hbuf, hframe, List.flatMap_append, List.flatMap_singleton]
  have L₁ : Local (u ++ [.received f]) ({ l with recv := { l.recv with half := some { buf := [] } } }.answered id) := by
    constructor
    case toSides =>
      constructor
      case toWrites => exact S.toWrites.keep rfl rfl (fun id' g rest' hc => (calls_answered l id id' _ hc).2) rfl rfl (by simp)
      case toReads =>
        constructor
        case received =>
          rw [receivedIn_append]
          intro g hg
          rcases List.mem_append.mp hg with hg | hg
          · exact S.received g hg
          · rw [List.mem_singleton.mp hg]
            exact hlen
        case took =>
          refine ⟨[], ?_, fun half' hh' => ?_⟩
          · rw [receivedIn_append, tookIn_append, htook]
            simp [receivedIn, tookIn]
          · rw [← Option.some.inj hh']
            exact ⟨rfl, Nat.zero_le _⟩
        case reading =>
          intro id' wanted hc
          obtain ⟨hne, hin⟩ := calls_answered l id id' _ hc
          have hholder := (S.reading id' wanted hin).1
          rw [hold] at hholder
          exact absurd (Option.some.inj hholder).symm hne
        case live => exact fun _ hnone => by cases hnone
      case ended => exact fun he => List.mem_append_left _ (S.ended he)
      case said => exact S.said.concat htook
    case idle =>
      intro half' hh'
      rw [← Option.some.inj hh']
      exact nextFrame_nil
  have B := L₁.beside_freeRecv hold []
  rw [answered_answered] at B
  have L₂ := L₁.plain B (by simp)
  rwa [List.append_nil] at L₂

/-- A receive waits for what its frame lacks. -/
theorem Sides.await (S : Sides u l) (hold : l.recv.holder = some id) {half : Receiving} (hh : l.recv.half = some half)
    (hnone : nextFrame half.buf l.max = none) {wanted : ℕ} (hwanted : half.buf.length + wanted ≤ need half.buf) :
    Local u { l with calls := Function.update l.calls id (some (.reading wanted)) } := by
  have hcalls : ∀ id' c, Function.update l.calls id (some (.reading wanted)) id' = some c →
      id' = id ∧ c = .reading wanted ∨ id' ≠ id ∧ l.calls id' = some c := by
    intro id' c hc
    rw [Function.update_apply] at hc
    split_ifs at hc with heq
    · exact .inl ⟨heq, (Option.some.inj hc).symm⟩
    · exact .inr ⟨heq, hc⟩
  have hwrites : Writes (u ++ []) { l with calls := Function.update l.calls id (some (.reading wanted)) } := by
    refine S.toWrites.keep rfl rfl (fun id' g rest hc => ?_) rfl rfl (by simp)
    rcases hcalls id' _ hc with ⟨-, hw⟩ | ⟨-, hin⟩
    · cases hw
    · exact hin
  rw [List.append_nil] at hwrites
  constructor
  case toSides =>
    constructor
    case toWrites => exact hwrites
    case toReads =>
      constructor
      case received => exact S.received
      case took => exact S.took
      case reading =>
        intro id' wanted' hc
        rcases hcalls id' _ hc with ⟨rfl, hw⟩ | ⟨-, hin⟩
        · cases hw
          exact ⟨hold, half, hh, hwanted⟩
        · exact S.reading id' wanted' hin
      case live => exact S.live
    case ended => exact S.ended
    case said => exact S.said
  case idle =>
    intro half' hh'
    have heq : half = half' := Option.some.inj (hh.symm.trans hh')
    exact heq ▸ hnone

theorem Sides.turn (S : Sides u l) (hold : l.recv.holder = some id) :
    Local (u ++ (IrohLink.turn l id).2) (IrohLink.turn l id).1 := by
  unfold IrohLink.turn
  by_cases he : l.ended = true
  · rw [if_pos he]
    exact S.give_up hold trivial (S.ended he) (.inl he)
  rw [if_neg he]
  rw [Bool.not_eq_true] at he
  cases hh : l.recv.half with
  | none => exact absurd hh (S.live he)
  | some half =>
    dsimp only
    split
    case h_1 f rest hf => exact S.return_frame hold hh hf
    case h_2 why hf => exact S.fail_recv hold why
    case h_3 hnone =>
      obtain ⟨n, hn, hneed⟩ := remaining_of_none hnone
      rw [hn]
      have hwanted : half.buf.length + min n chunk ≤ need half.buf := by omega
      rw [List.append_nil]
      exact S.await hold hh hnone hwanted

theorem Local.recv_ (L : Local u l) (id : ℕ) :
    Local (u ++ (IrohLink.recv l id).2) (IrohLink.recv l id).1 := by
  unfold IrohLink.recv
  by_cases hnone : l.recv.holder = none
  · rw [if_pos hnone]
    have L₁ : Local (u ++ []) { l with recv := { l.recv with holder := some id } } := by
      refine L.plain (beside_queue rfl rfl rfl (fun id' g rest hc => ⟨hc, rfl⟩) (fun id' wanted hc => ?_)) (by simp)
      have hholder := (L.reading id' wanted hc).1
      rw [hnone] at hholder
      cases hholder
    rw [List.append_nil] at L₁
    exact L₁.turn rfl
  · rw [if_neg hnone]
    refine L.plain (beside_queue rfl rfl rfl (fun id' g rest hc => ?_) (fun id' wanted hc => ?_)) (by simp)
    · change Function.update l.calls id _ id' = _ at hc
      rw [Function.update_apply] at hc
      split_ifs at hc
      · cases hc
      · exact ⟨hc, rfl⟩
    · change Function.update l.calls id _ id' = _ at hc
      rw [Function.update_apply] at hc
      split_ifs at hc
      · cases hc
      · exact ⟨hc, rfl⟩

theorem turn_answered (l : LinkState) (id : ℕ) : IrohLink.turn (l.answered id) id = IrohLink.turn l id := by
  unfold IrohLink.turn LinkState.cutOff LinkState.letGo LinkState.end_ LinkState.answered
  simp only [Function.update_idem]

/-- The stream gives a receive no more than it waits for. -/
theorem Local.gave (L : Local u l) {wanted : ℕ} (hc : l.calls id = some (.reading wanted)) {bytes : Bytes}
    (hlen : bytes.length ≤ wanted) : Local (u ++ (IrohLink.gave l id bytes).2) (IrohLink.gave l id bytes).1 := by
  obtain ⟨hold, half, hh, hfit⟩ := L.reading id wanted hc
  obtain ⟨part, hpart, hheld⟩ := L.took
  unfold IrohLink.gave
  rw [hh]
  dsimp only
  rw [← turn_answered]
  have S₁ : Sides (u ++ [.took bytes])
      ({ l with recv := { l.recv with half := some { buf := half.buf ++ bytes } } }.answered id) := by
    constructor
    case toWrites => exact L.toWrites.keep rfl rfl (fun id' g rest' hc' => (calls_answered l id id' _ hc').2) rfl rfl (by simp)
    case toReads =>
      constructor
      case received =>
        rw [receivedIn_append]
        simpa [receivedIn] using L.received
      case took =>
        refine ⟨half.buf ++ bytes, ?_, fun half' hh' => ?_⟩
        · rw [receivedIn_append, tookIn_append, hpart, (hheld half hh).1]
          simp [receivedIn, tookIn]
        · rw [← Option.some.inj hh']
          exact ⟨rfl, fits_append (by omega)⟩
      case reading =>
        intro id' wanted' hc'
        obtain ⟨hne, hin⟩ := calls_answered l id id' _ hc'
        have hholder := (L.reading id' wanted' hin).1
        rw [hold] at hholder
        exact absurd (Option.some.inj hholder).symm hne
      case live => exact fun _ hnone => by cases hnone
    case ended => exact fun he => List.mem_append_left _ (L.ended he)
    case said => exact L.said.concat trivial
  have L₂ := S₁.turn hold
  rw [List.append_assoc] at L₂
  exact L₂

/-- Between two frames, an end has read the frames it returned. -/
theorem Local.between (L : Local u l) {half : Receiving} (hh : l.recv.half = some half) (hnil : half.buf = []) :
    tookIn u = (receivedIn u).flatMap frame := by
  obtain ⟨part, hpart, hheld⟩ := L.took
  rw [hpart, ← (hheld half hh).1, hnil, List.append_nil]

theorem Local.streamEnded (L : Local u l) {wanted : ℕ} (hc : l.calls id = some (.reading wanted)) :
    Local (u ++ (IrohLink.streamEnded l id).2) (IrohLink.streamEnded l id).1 := by
  obtain ⟨hold, half, hh, -⟩ := L.reading id wanted hc
  unfold IrohLink.streamEnded
  rw [hh]
  dsimp only
  by_cases hnil : half.buf = []
  · rw [if_pos hnil]
    exact L.answer_recv hold trivial (L.between hh hnil)
  · rw [if_neg hnil]
    exact L.fail_recv hold _

theorem Local.failed (L : Local u l) {wanted : ℕ} (hc : l.calls id = some (.reading wanted)) (byPeer : Bool) :
    Local (u ++ (IrohLink.failed l id byPeer).2) (IrohLink.failed l id byPeer).1 := by
  obtain ⟨hold, half, hh, -⟩ := L.reading id wanted hc
  unfold IrohLink.failed
  rw [hh]
  dsimp only
  by_cases hpeer : byPeer = true ∧ half.buf = []
  · rw [if_pos hpeer]
    exact L.answer_recv hold trivial (L.between hh hpeer.2)
  rw [if_neg hpeer]
  by_cases he : l.ended = true
  · rw [if_pos he]
    exact L.answer_recv hold trivial (L.ended he)
  · rw [if_neg he]
    exact L.fail_recv hold _

/-! ### Closing and dropping -/

theorem Local.close (L : Local u l) (id : ℕ) : Local (u ++ (IrohLink.close l id).2) (IrohLink.close l id).1 := by
  unfold IrohLink.close
  have hplain : ∀ x ∈ [Happening.ended], Plain x := by
    intro x hx
    rw [List.mem_singleton.mp hx]
    exact plain_ended
  dsimp only
  split
  case h_1 hs =>
    refine L.plain (L.beside_end rfl rfl rfl (fun id' g rest hc => ?_) (fun id' wanted hc => ?_)
      (fun _ => .inr (end_sending l (by simp [hs]))) rfl List.mem_cons_self) hplain
    · change Function.update l.calls id _ id' = _ at hc
      rw [Function.update_apply] at hc
      split_ifs at hc
      · cases hc
      · exact hc
    · change Function.update l.calls id _ id' = _ at hc
      rw [Function.update_apply] at hc
      split_ifs at hc
      · cases hc
      · exact hc
  case h_2 => exact L.plain L.beside_cutOff (cutOff_spec l).2.2.2.2.2

theorem Local.drained (L : Local u l) (id : ℕ) (held : Bool) :
    Local (u ++ (IrohLink.drained l id held).2) (IrohLink.drained l id held).1 := by
  unfold IrohLink.drained
  obtain ⟨heq, hfin, hdid⟩ := letGo_spec (l.answered id) { sending := none, held }
  refine L.plain ?_ fun x hx => ?_
  · rw [heq]
    exact
      { max := rfl
        send := fun half hh => hh
        writing := fun id' g rest hc => ⟨(calls_answered l id id' _ hc).2, rfl, rfl⟩
        finished := fun hf => .inl ((hfin hf).resolve_right fun hne => hne rfl)
        recv := fun half hh => hh
        reading := fun id' wanted hc => ⟨(calls_answered l id id' _ hc).2, rfl, rfl⟩
        live := fun hl => ⟨hl, rfl⟩
        ended := fun he => .inl he }
  · rw [hdid x hx]
    exact plain_closed

theorem quit_spec {α : Type} (h : Half α) (id : ℕ) :
    (h.quit id).half = h.half ∧ (h.holder ≠ some id → (h.quit id).holder = h.holder) := by
  unfold Half.quit
  split_ifs with hold
  · exact ⟨rfl, fun hne => absurd hold hne⟩
  · exact ⟨rfl, fun _ => rfl⟩

/-- A send dropped while it writes leaves its frame torn. -/
theorem Local.cut_off (L : Local u l) {f rest : Bytes} (hc : l.calls id = some (.writing f rest)) :
    Local (u ++ [.cut]) (l.answered id).freeSend := by
  obtain ⟨hold, hhalf⟩ := L.writing id f rest hc
  have hgone : ∀ id' g rest', (l.answered id).calls id' ≠ some (.writing g rest') := by
    intro id' g rest' hc'
    obtain ⟨hne, hin⟩ := calls_answered l id id' _ hc'
    have hholder := (L.writing id' g rest' hin).1
    rw [hold] at hholder
    exact hne (Option.some.inj hholder).symm
  have L₁ : Local (u ++ [.cut]) (l.answered id) := by
    constructor
    case toSides =>
      constructor
      case toWrites =>
        constructor
        case sent =>
          rw [sentIn_append]
          simpa [sentIn] using L.sent
        case wrote =>
          obtain ⟨part, hpart, ht, hfree, -⟩ := L.wrote
          refine ⟨part, ?_, ht, hfree, fun id' g rest' hc' => absurd hc' (hgone id' g rest')⟩
          rw [wroteIn_append, sentIn_append, hpart]
          simp [wroteIn, sentIn]
        case writing => exact fun id' g rest' hc' => absurd hc' (hgone id' g rest')
        case cut =>
          refine fun _ => ⟨fun half hh => ?_, hgone⟩
          have heq : some { torn := true } = some half := hhalf.symm.trans hh
          rw [← Option.some.inj heq]
        case finished => exact L.finished
      case toReads => exact L.toReads.keep rfl rfl (fun id' wanted hc' => (calls_answered l id id' _ hc').2) rfl rfl
      case ended => exact fun he => List.mem_append_left _ (L.ended he)
      case said => exact L.said.concat trivial
    case idle => exact L.idle
  have B := L₁.beside_freeSend hold []
  rw [answered_answered] at B
  have L₂ := L₁.plain B (by simp)
  rwa [List.append_nil] at L₂

theorem Local.drop (L : Local u l) (id : ℕ) : Local (u ++ (IrohLink.drop l id).2) (IrohLink.drop l id).1 := by
  unfold IrohLink.drop
  cases hc : l.calls id with
  | none => simpa using L
  | some c =>
    cases c with
    | send f =>
      obtain ⟨hhalf, hholder⟩ := quit_spec l.send id
      refine L.plain (beside_queue rfl hhalf rfl (fun id' g rest hc' => ?_) (fun id' wanted hc' => ?_)) (by simp)
      · obtain ⟨hne, hin⟩ := calls_answered l id id' _ hc'
        refine ⟨hin, hholder ?_⟩
        rw [(L.writing id' g rest hin).1]
        exact fun heq => hne (Option.some.inj heq)
      · exact ⟨(calls_answered l id id' _ hc').2, rfl⟩
    | writing f rest => exact L.cut_off hc
    | recv =>
      obtain ⟨hhalf, hholder⟩ := quit_spec l.recv id
      refine L.plain (beside_queue rfl rfl hhalf (fun id' g rest hc' => ?_) (fun id' wanted hc' => ?_)) (by simp)
      · exact ⟨(calls_answered l id id' _ hc').2, rfl⟩
      · obtain ⟨hne, hin⟩ := calls_answered l id id' _ hc'
        refine ⟨hin, hholder ?_⟩
        rw [(L.reading id' wanted hin).1]
        exact fun heq => hne (Option.some.inj heq)
    | reading wanted =>
      exact L.plain (L.beside_freeRecv (L.reading id wanted hc).1 _) (by simp)
    | draining held => exact L.drained id held

theorem Local.release (L : Local u l) : Local (u ++ (IrohLink.release l).2) (IrohLink.release l).1 := by
  unfold IrohLink.release
  by_cases hfree : l.send.holder = none ∧ l.recv.holder = none
  · rw [if_pos hfree]
    refine L.plain (L.beside_end rfl rfl rfl (fun _ _ _ h => h) (fun _ _ h => h)
      (fun _ => .inr hfree.1) rfl List.mem_cons_self) ?_
    intro x hx
    rcases List.mem_pair.mp hx with rfl | rfl
    · exact plain_ended
    · exact plain_closed
  · rw [if_neg hfree]
    simpa using L

/-- Whatever an end does of itself, it stays what it always is. -/
theorem Local.does (L : Local u l) (act : Act) : Local (u ++ (IrohLink.does l act).2) (IrohLink.does l act).1 := by
  have hsame : Local (u ++ []) l := by simpa using L
  cases act with
  | send id f =>
    simp only [IrohLink.does]
    split_ifs with hc
    · exact L.send (Option.isNone_iff_eq_none.mp hc) f
    · exact hsame
  | recv id =>
    simp only [IrohLink.does]
    split_ifs
    · exact L.recv_ id
    · exact hsame
  | close id =>
    simp only [IrohLink.does]
    split_ifs
    · exact L.close id
    · exact hsame
  | poll id =>
    simp only [IrohLink.does]
    split
    case h_1 f hc =>
      split_ifs with hold
      · exact L.startSend hold (fun g rest hw => by rw [hc] at hw; cases hw) f
      · exact hsame
    case h_2 hc =>
      split_ifs with hold
      · exact L.turn hold
      · exact hsame
    case h_3 => exact hsame
  | drop id => exact L.drop id
  | release => exact L.release
  | wrote id n => exact L.writes id n
  | refused id => exact L.refused id
  | drained id =>
    simp only [IrohLink.does]
    split
    case h_1 held hc => exact L.drained id held
    case h_2 => exact hsame
  | gave id n => exact hsame
  | streamEnded id => exact hsame
  | failed id byPeer => exact hsame

end End

end Glade.Node.IrohLinks
