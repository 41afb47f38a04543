import Glade.Node.Conversation

/-! One end of a link, alone: by what it made of the frames it took, what each of its
conversations has read and holds is the start of the items its number was fed, and what
its number was queued for is what the conversation sent, and its end. -/

namespace Glade.Node.Conversations

open Wire

/-! ### What a history tells -/

namespace Happening

/-- The conversation something happens to, a call that fails apart. -/
def handle : Happening → Option ℕ
  | opened h | handed h _ | sent h _ | read h _ | readEnd h | ended h | dropped h => some h
  | refused _ | readError _ _ | queued _ | taken _ => none

def frame : Happening → Option LinkFrame
  | queued f | taken f => some f
  | _ => none

end Happening

def queuedIn (u : List Happening) : List LinkFrame :=
  u.filterMap fun
    | .queued f => some f
    | _ => none

def takenIn (u : List Happening) : List LinkFrame :=
  u.filterMap fun
    | .taken f => some f
    | _ => none

/-- What was queued for a number. -/
def queuedOn (u : List Happening) (id : ℕ) : List LinkFrame := (queuedIn u).filter fun f => f.id = id

def takenOn (u : List Happening) (id : ℕ) : List LinkFrame := (takenIn u).filter fun f => f.id = id

/-- What was sent on a conversation. -/
def sentOn (u : List Happening) (h : ℕ) : List Bytes :=
  u.filterMap fun
    | .sent h' frame => if h' = h then some frame else none
    | _ => none

/-- What was read on a conversation. -/
def readsOf (u : List Happening) (h : ℕ) : List Bytes :=
  u.filterMap fun
    | .read h' frame => if h' = h then some frame else none
    | _ => none

section Projections

variable {u did : List Happening} {h id : ℕ}

theorem filterMap_append_none {β : Type} {p : Happening → Option β} (hnone : ∀ x ∈ did, p x = none) :
    (u ++ did).filterMap p = u.filterMap p := by
  rw [List.filterMap_append, List.filterMap_eq_nil_iff.mpr hnone, List.append_nil]

theorem sentOn_quiet (hquiet : ∀ x ∈ did, x.handle ≠ some h) : sentOn (u ++ did) h = sentOn u h := by
  apply filterMap_append_none
  intro x hx
  have := hquiet x hx
  cases x <;> simp_all [Happening.handle]

theorem readsOf_quiet (hquiet : ∀ x ∈ did, x.handle ≠ some h) : readsOf (u ++ did) h = readsOf u h := by
  apply filterMap_append_none
  intro x hx
  have := hquiet x hx
  cases x <;> simp_all [Happening.handle]

theorem queuedOn_quiet (hquiet : ∀ x ∈ did, ∀ f, x.frame = some f → f.id ≠ id) : queuedOn (u ++ did) id = queuedOn u id := by
  rw [queuedOn, queuedIn, List.filterMap_append, List.filter_append, queuedOn, queuedIn]
  rw [List.append_right_eq_self, List.filter_eq_nil_iff]
  intro f hf
  obtain ⟨x, hx, hxf⟩ := List.mem_filterMap.mp hf
  cases x with
  | queued f' =>
    obtain rfl := Option.some.inj hxf
    simpa using hquiet _ hx f' rfl
  | _ => cases hxf

theorem takenOn_quiet (hquiet : ∀ x ∈ did, ∀ f, x.frame = some f → f.id ≠ id) : takenOn (u ++ did) id = takenOn u id := by
  rw [takenOn, takenIn, List.filterMap_append, List.filter_append, takenOn, takenIn]
  rw [List.append_right_eq_self, List.filter_eq_nil_iff]
  intro f hf
  obtain ⟨x, hx, hxf⟩ := List.mem_filterMap.mp hf
  cases x with
  | taken f' =>
    obtain rfl := Option.some.inj hxf
    simpa using hquiet _ hx f' rfl
  | _ => cases hxf

theorem mem_takenOn {f : LinkFrame} : f ∈ takenOn u id ↔ .taken f ∈ u ∧ f.id = id := by
  rw [takenOn, List.mem_filter, decide_eq_true_iff, takenIn, List.mem_filterMap]
  constructor
  · rintro ⟨⟨x, hx, hxf⟩, hid⟩
    cases x with
    | taken f' =>
      obtain rfl := Option.some.inj hxf
      exact ⟨hx, hid⟩
    | _ => cases hxf
  · rintro ⟨hx, hid⟩
    exact ⟨⟨_, hx, rfl⟩, hid⟩

theorem mem_queuedOn {f : LinkFrame} : f ∈ queuedOn u id ↔ .queued f ∈ u ∧ f.id = id := by
  rw [queuedOn, List.mem_filter, decide_eq_true_iff, queuedIn, List.mem_filterMap]
  constructor
  · rintro ⟨⟨x, hx, hxf⟩, hid⟩
    cases x with
    | queued f' =>
      obtain rfl := Option.some.inj hxf
      exact ⟨hx, hid⟩
    | _ => cases hxf
  · rintro ⟨hx, hid⟩
    exact ⟨⟨_, hx, rfl⟩, hid⟩

end Projections

/-- What frames of one number put in a queue: they end at the first that is no frame. -/
def items : List LinkFrame → List Item
  | [] => []
  | f :: fs =>
    match f.kind with
    | .frame => .frame f.body :: items fs
    | .ending => [.ending]
    | .reset => []

theorem items_append_of_frames {fs : List LinkFrame} (h : ∀ f ∈ fs, f.kind = .frame) (gs : List LinkFrame) :
    items (fs ++ gs) = items fs ++ items gs := by
  induction fs with
  | nil => rfl
  | cons f fs ih =>
    rw [List.forall_mem_cons] at h
    simp only [List.cons_append, items, h.1, ih h.2]

theorem items_extends (fs gs : List LinkFrame) : items fs <+: items (fs ++ gs) := by
  induction fs with
  | nil => exact List.nil_prefix
  | cons f fs ih =>
    simp only [List.cons_append, items]
    cases f.kind with
    | frame => exact (List.prefix_cons_inj _).mpr ih
    | ending => exact List.prefix_refl _
    | reset => exact List.prefix_refl _

/-! ### One end -/

namespace Linked

/-- What the reader is about to put in a conversation's queue. -/
def pending (l : Linked) (h : ℕ) : List Item :=
  match l.reader with
  | .delivering h' item => if h' = h then [item] else []
  | _ => []

/-- Whether the frames of a number go to a conversation. -/
def Feeds (l : Linked) (id h : ℕ) : Prop := ∃ r, l.routes[id]? = some r ∧ r.tx = some h

/-- Whether a number has been used. -/
def Used (e : Side) (l : Linked) (id : ℕ) : Prop :=
  id % 2 = e.parity ∧ id < l.next ∨ id % 2 = e.other.parity ∧ id ≤ l.peerHigh

end Linked

open Linked

/-- What a conversation has got: what was read of it, and what its queue holds for it. -/
def got (u : List Happening) (l : Linked) (h : ℕ) (c : Conversation) : List Item :=
  (readsOf u h).map .frame ++ (if c.finished then [.ending] else []) ++ (if c.held then c.queue ++ l.pending h else [])

/-- How a conversation stands to the history of its end. -/
structure Fits (e : Side) (u : List Happening) (l : Linked) (h : ℕ) (c : Conversation) : Prop where
  made : h < l.made
  unsent : c.number = none → .opened h ∈ u ∧ sentOn u h = [] ∧ got u l h c = []
  used : ∀ id, c.number = some id → id < 2 ^ 32 ∧ Used e l id ∧ (id % 2 = e.parity → .opened h ∈ u)
  /-- What was queued for it is what was sent on it, and then its END or a RESET. -/
  sends : ∀ id, c.number = some id → ∃ fin, queuedOn u id = (sentOn u h).map (LinkFrame.mk id .frame) ++ fin ∧
    (c.held = true → fin = []) ∧ (fin = [] ∨ fin = [marker id .ending] ∧ .ended h ∈ u ∨ fin = [marker id .reset])
  /-- It has got what was taken for it, or the first of it. -/
  gets : ∀ id, c.number = some id → got u l h c <+: items (takenOn u id)
  fed : ∀ id, c.number = some id → c.held = true → l.Feeds id h →
    got u l h c = items (takenOn u id) ∧ ∀ f ∈ takenOn u id, f.kind = .frame
  finished : .readEnd h ∈ u → c.finished = true
  ended : .ended h ∈ u ∨ .dropped h ∈ u → c.held = false
  once : ¬ (.ended h ∈ u ∧ .dropped h ∈ u)

/-- What is always true of an end and its history. -/
structure Local (e : Side) (u : List Happening) (l : Linked) : Prop where
  parity : l.next % 2 = e.parity
  queued : ∀ f, .queued f ∈ u → f.id < 2 ^ 32 ∧ Used e l f.id ∧
    ((∃ h c, l.conversations h = some c ∧ c.number = some f.id) ∨ f.kind = .reset)
  taken : ∀ f, .taken f ∈ u → Used e l f.id
  told : ∀ x ∈ u, ∀ h, x.handle = some h → h < l.made
  handed : ∀ h id, .handed h id ∈ u → id % 2 = e.other.parity ∧ (∃ c, l.conversations h = some c ∧ c.number = some id) ∧
    ∃ f, .taken f ∈ u ∧ f.id = id ∧ f.kind ≠ .reset
  apart : ∀ h h' c c' id, l.conversations h = some c → l.conversations h' = some c' → c.number = some id →
    c'.number = some id → h = h'
  routes : ∀ (id : ℕ) r, l.routes[id]? = some r → Used e l id ∧
    ∀ h, r.tx = some h → ∃ c, l.conversations h = some c ∧ c.number = some id
  reader : ∀ h item, l.reader = .delivering h item → ∃ c, l.conversations h = some c ∧ c.number ≠ none
  fits : ∀ h c, l.conversations h = some c → Fits e u l h c

section Frame

variable {e : Side} {u did : List Happening} {l l' : Linked} {h : ℕ} {c : Conversation}

theorem Linked.Used.mono {id : ℕ} (hu : Used e l id) (hnext : l.next ≤ l'.next)
    (hhigh : l.peerHigh ≤ l'.peerHigh) : Used e l' id := by
  unfold Used at hu ⊢
  omega

/-- What happens to other conversations leaves one as it is. -/
theorem Fits.frame (F : Fits e u l h c) (hmade : l.made ≤ l'.made) (hnext : l.next ≤ l'.next)
    (hhigh : l.peerHigh ≤ l'.peerHigh) (hquiet : ∀ x ∈ did, x.handle ≠ some h)
    (hframes : ∀ x ∈ did, ∀ f, x.frame = some f → c.number ≠ some f.id) (hpending : l'.pending h = l.pending h)
    (hfeeds : ∀ id, c.number = some id → l'.Feeds id h → l.Feeds id h) : Fits e (u ++ did) l' h c := by
  have hmem : ∀ x : Happening, x.handle = some h → (x ∈ u ++ did ↔ x ∈ u) := by
    intro x hx
    rw [List.mem_append, or_iff_left]
    exact fun hdid => hquiet x hdid hx
  have hgot : got (u ++ did) l' h c = got u l h c := by
    rw [got, got, readsOf_quiet hquiet, hpending]
  have hq : ∀ id, c.number = some id → queuedOn (u ++ did) id = queuedOn u id := fun id hid =>
    queuedOn_quiet fun x hx f hf heq => hframes x hx f hf (heq ▸ hid)
  have ht : ∀ id, c.number = some id → takenOn (u ++ did) id = takenOn u id := fun id hid =>
    takenOn_quiet fun x hx f hf heq => hframes x hx f hf (heq ▸ hid)
  exact
    { made := lt_of_lt_of_le F.made hmade
      unsent := fun hn => by
        obtain ⟨hopened, hempty⟩ := F.unsent hn
        rw [sentOn_quiet hquiet, hgot]
        exact ⟨List.mem_append_left _ hopened, hempty⟩
      used := fun id hid => by
        obtain ⟨hlt, hused, hopened⟩ := F.used id hid
        exact ⟨hlt, hused.mono hnext hhigh, fun hp => List.mem_append_left _ (hopened hp)⟩
      sends := fun id hid => by
        rw [hq id hid, sentOn_quiet hquiet, hmem (.ended h) rfl]
        exact F.sends id hid
      gets := fun id hid => by
        rw [hgot, ht id hid]
        exact F.gets id hid
      fed := fun id hid hheld hf => by
        rw [hgot, ht id hid]
        exact F.fed id hid hheld (hfeeds id hid hf)
      finished := fun hr => F.finished ((hmem (.readEnd h) rfl).mp hr)
      ended := fun hr => by
        rw [hmem (.ended h) rfl, hmem (.dropped h) rfl] at hr
        exact F.ended hr
      once := fun hr => by
        rw [hmem (.ended h) rfl, hmem (.dropped h) rfl] at hr
        exact F.once hr }

/-- What a step may do, beside what it does to the conversation `h₀`. -/
structure Beside (l l' : Linked) (did : List Happening) (h₀ : ℕ) : Prop where
  next : l.next ≤ l'.next
  high : l.peerHigh ≤ l'.peerHigh
  made : l.made ≤ l'.made
  others : ∀ h, h ≠ h₀ → l'.conversations h = l.conversations h
  number : ∀ c id, l.conversations h₀ = some c → c.number = some id →
    ∃ c', l'.conversations h₀ = some c' ∧ c'.number = some id
  handles : ∀ x ∈ did, ∀ h, x.handle = some h → h = h₀ ∧ h₀ < l'.made
  frames : ∀ x ∈ did, ∀ f, x.frame = some f → ∀ h c, h ≠ h₀ → l.conversations h = some c → c.number ≠ some f.id
  pending : ∀ h, h ≠ h₀ → l'.pending h = l.pending h
  feeds : ∀ id h, h ≠ h₀ → l'.Feeds id h → l.Feeds id h

/-- A number that is a conversation's stays it. -/
theorem Beside.numbered (B : Beside l l' did h₀) {id : ℕ} (hn : ∃ c, l.conversations h = some c ∧ c.number = some id) :
    ∃ c, l'.conversations h = some c ∧ c.number = some id := by
  obtain ⟨c, hc, hid⟩ := hn
  by_cases hh : h = h₀
  · subst hh
    exact B.number c id hc hid
  · exact ⟨c, (B.others h hh).trans hc, hid⟩

/-- A step keeps its end, once what it does to one conversation does. -/
theorem Local.beside (h₀ : ℕ) (L : Local e u l) (B : Beside l l' did h₀) (hparity : l'.next % 2 = e.parity)
    (hqueued : ∀ f, .queued f ∈ did → f.id < 2 ^ 32 ∧ Used e l' f.id ∧
      ((∃ h c, l'.conversations h = some c ∧ c.number = some f.id) ∨ f.kind = .reset))
    (htaken : ∀ f, .taken f ∈ did → Used e l' f.id)
    (hhanded : ∀ h id, .handed h id ∈ did → id % 2 = e.other.parity ∧
      (∃ c, l'.conversations h = some c ∧ c.number = some id) ∧ ∃ f, .taken f ∈ u ++ did ∧ f.id = id ∧ f.kind ≠ .reset)
    (hapart : ∀ c₀ id, l'.conversations h₀ = some c₀ → c₀.number = some id → ∀ h c, h ≠ h₀ → l.conversations h = some c →
      c.number ≠ some id)
    (hroutes : ∀ (id : ℕ) r, l'.routes[id]? = some r → Used e l' id ∧
      ∀ h, r.tx = some h → ∃ c, l'.conversations h = some c ∧ c.number = some id)
    (hreader : ∀ h item, l'.reader = .delivering h item → ∃ c, l'.conversations h = some c ∧ c.number ≠ none)
    (hfits : ∀ c, l'.conversations h₀ = some c → Fits e (u ++ did) l' h₀ c) : Local e (u ++ did) l' where
  parity := hparity
  queued f hf := by
    rcases List.mem_append.mp hf with hf | hf
    · obtain ⟨hlt, hused, hkind⟩ := L.queued f hf
      refine ⟨hlt, hused.mono B.next B.high, hkind.imp_left ?_⟩
      rintro ⟨h, c, hc⟩
      exact ⟨h, B.numbered ⟨c, hc⟩⟩
    · exact hqueued f hf
  taken f hf := by
    rcases List.mem_append.mp hf with hf | hf
    · exact (L.taken f hf).mono B.next B.high
    · exact htaken f hf
  told x hx h hh := by
    rcases List.mem_append.mp hx with hx | hx
    · exact lt_of_lt_of_le (L.told x hx h hh) B.made
    · obtain ⟨rfl, hlt⟩ := B.handles x hx h hh
      exact hlt
  handed h id hh := by
    rcases List.mem_append.mp hh with hh | hh
    · obtain ⟨hid, hc, f, hf, hf'⟩ := L.handed h id hh
      exact ⟨hid, B.numbered hc, f, List.mem_append_left _ hf, hf'⟩
    · exact hhanded h id hh
  apart h h' c c' id hc hc' hid hid' := by
    by_cases hh : h = h₀ <;> by_cases hh' : h' = h₀
    · exact hh.trans hh'.symm
    · subst hh
      rw [B.others h' hh'] at hc'
      exact absurd hid' (hapart c id hc hid h' c' hh' hc')
    · subst hh'
      rw [B.others h hh] at hc
      exact absurd hid (hapart c' id hc' hid' h c hh hc)
    · rw [B.others h hh] at hc
      rw [B.others h' hh'] at hc'
      exact L.apart h h' c c' id hc hc' hid hid'
  routes := hroutes
  reader := hreader
  fits h c hc := by
    by_cases hh : h = h₀
    · subst hh
      exact hfits c hc
    · rw [B.others h hh] at hc
      refine (L.fits h c hc).frame B.made B.next B.high (fun x hx hxh => ?_) (fun x hx f hf => ?_) (B.pending h hh) fun id _ => ?_
      · exact hh (B.handles x hx h hxh).1
      · exact B.frames x hx f hf h c hh hc
      · exact B.feeds id h hh

theorem Local.fresh (L : Local e u l) : l.conversations l.made = none := by
  rw [Option.eq_none_iff_forall_ne_some]
  intro c hc
  exact absurd (L.fits _ c hc).made (lt_irrefl _)

/-- A step that touches no conversation, and no number. -/
theorem Local.still (L : Local e u l) (hnext : l'.next = l.next) (hhigh : l'.peerHigh = l.peerHigh) (hmade : l'.made = l.made)
    (hconv : l'.conversations = l.conversations) (hroutes : ∀ (id : ℕ) r, l'.routes[id]? = some r → l.routes[id]? = some r)
    (hreader : l'.reader = l.reader ∨ l.reader = .receiving ∧ l'.reader = .stopped)
    (hdid : ∀ x ∈ did, x.handle = none ∧ x.frame = none) : Local e (u ++ did) l' := by
  have hnone := L.fresh
  have hpending : ∀ h, l'.pending h = l.pending h := by
    intro h
    rcases hreader with heq | ⟨hr, hs⟩
    · rw [pending, pending, heq]
    · rw [pending, pending, hr, hs]
  have hno : ∀ f, .queued f ∉ did ∧ .taken f ∉ did := fun f =>
    ⟨fun hf => by simpa [Happening.frame] using (hdid _ hf).2, fun hf => by simpa [Happening.frame] using (hdid _ hf).2⟩
  have hused : ∀ id, Used e l' id ↔ Used e l id := fun id => by rw [Used, Used, hnext, hhigh]
  have B : Beside l l' did l.made :=
    { next := hnext.ge
      high := hhigh.ge
      made := hmade.ge
      others := fun h _ => by rw [hconv]
      number := fun c id hc => by
        rw [hnone] at hc
        cases hc
      handles := fun x hx h hh => by
        rw [(hdid x hx).1] at hh
        cases hh
      frames := fun x hx f hf => by
        rw [(hdid x hx).2] at hf
        cases hf
      pending := fun h _ => hpending h
      feeds := fun id h _ hf => by
        obtain ⟨r, hr, htx⟩ := hf
        exact ⟨r, hroutes id r hr, htx⟩ }
  have hunmade : ∀ c, l'.conversations l.made ≠ some c := by
    intro c hc
    rw [hconv, hnone] at hc
    cases hc
  have hrouted : ∀ (id : ℕ) r, l'.routes[id]? = some r → Used e l' id ∧
      ∀ h, r.tx = some h → ∃ c, l'.conversations h = some c ∧ c.number = some id := by
    intro id r hr
    rw [hused, hconv]
    exact L.routes id r (hroutes id r hr)
  have hdelivers : ∀ h item, l'.reader = .delivering h item → ∃ c, l'.conversations h = some c ∧ c.number ≠ none := by
    intro h item hr
    rw [hconv]
    rcases hreader with heq | ⟨-, hs⟩
    · exact L.reader h item (heq ▸ hr)
    · rw [hs] at hr
      cases hr
  exact L.beside _ B (hnext ▸ L.parity) (fun f hf => absurd hf (hno f).1) (fun f hf => absurd hf (hno f).2)
    (fun h id hh => by simpa [Happening.handle] using (hdid _ hh).1) (fun c id hc => absurd hc (hunmade c)) hrouted
    hdelivers fun c hc => absurd hc (hunmade c)

/-- Nothing was told of a conversation that is not made. -/
theorem Local.silent (L : Local e u l) : ∀ x ∈ u, x.handle ≠ some l.made :=
  fun x hx hh => absurd (L.told x hx _ hh) (lt_irrefl _)

theorem Local.pending_fresh (L : Local e u l) : l.pending l.made = [] := by
  unfold pending
  split
  · rename_i h item hr
    obtain ⟨c, hc, -⟩ := L.reader h item hr
    have hne : h ≠ l.made := ((L.fits h c hc).made).ne
    rw [if_neg hne]
  · rfl

theorem set_conversations (l : Linked) (h h' : ℕ) (c : Conversation) :
    (l.set h c).conversations h' = if h' = h then some c else l.conversations h' := by
  rw [Linked.set]
  exact Function.update_apply ..

theorem Local.sentOn_made (L : Local e u l) (hdid : sentOn did l.made = []) : sentOn (u ++ did) l.made = [] := by
  have hu := sentOn_quiet (u := []) L.silent
  rw [List.nil_append] at hu
  rw [sentOn, List.filterMap_append]
  exact List.append_eq_nil_iff.mpr ⟨hu, hdid⟩

theorem Local.readsOf_made (L : Local e u l) (hdid : readsOf did l.made = []) : readsOf (u ++ did) l.made = [] := by
  have hu := readsOf_quiet (u := []) L.silent
  rw [List.nil_append] at hu
  rw [readsOf, List.filterMap_append]
  exact List.append_eq_nil_iff.mpr ⟨hu, hdid⟩

theorem Local.not_mem_made (L : Local e u l) {x : Happening} (hx : x.handle = some l.made) (hdid : x ∉ did) :
    x ∉ u ++ did := by
  intro hmem
  rcases List.mem_append.mp hmem with hmem | hmem
  · exact L.silent x hmem hx
  · exact hdid hmem

theorem open_conversations (l : Linked) (h : ℕ) : l.open_.2.conversations h =
    if h = l.made then some { number := none, queue := [], finished := false, held := true } else l.conversations h :=
  set_conversations l l.made h _

/-- A conversation just made has sent nothing, and got nothing. -/
theorem Local.fits_open (L : Local e u l) : Fits e (u ++ [.opened l.made]) l.open_.2 l.made
    { number := none, queue := [], finished := false, held := true } where
  made := Nat.lt_succ_self _
  unsent _ := by
    have hp : l.open_.2.pending l.made = [] := L.pending_fresh
    refine ⟨by simp, L.sentOn_made rfl, ?_⟩
    rw [got, L.readsOf_made rfl, hp]
    rfl
  used id hid := by cases hid
  sends id hid := by cases hid
  gets id hid := by cases hid
  fed id hid := by cases hid
  finished hr := absurd hr (L.not_mem_made rfl (by simp))
  ended hr := by
    rcases hr with hr | hr
    · exact absurd hr (L.not_mem_made rfl (by simp))
    · exact absurd hr (L.not_mem_made rfl (by simp))
  once hr := absurd hr.1 (L.not_mem_made rfl (by simp))

theorem Local.open_ (L : Local e u l) : Local e (u ++ [.opened l.made]) l.open_.2 := by
  have B : Beside l l.open_.2 [.opened l.made] l.made :=
    { next := le_rfl
      high := le_rfl
      made := Nat.le_succ _
      others := fun h hh => by rw [open_conversations, if_neg hh]
      number := fun c id hc => by
        rw [L.fresh] at hc
        cases hc
      handles := fun x hx h hh => by
        obtain rfl := List.mem_singleton.mp hx
        exact ⟨(Option.some.inj hh).symm, Nat.lt_succ_self _⟩
      frames := fun x hx f hf => by
        obtain rfl := List.mem_singleton.mp hx
        cases hf
      pending := fun h _ => rfl
      feeds := fun id h _ hf => hf }
  have hmade : ∀ c, l.open_.2.conversations l.made = some c →
      c = { number := none, queue := [], finished := false, held := true } := by
    intro c hc
    rw [open_conversations, if_pos rfl] at hc
    exact (Option.some.inj hc).symm
  have hold : ∀ {h c}, l.conversations h = some c → l.open_.2.conversations h = some c := by
    intro h c hc
    rw [open_conversations, if_neg ((L.fits h c hc).made).ne, hc]
  refine L.beside _ B L.parity (by simp) (by simp) (by simp) (fun c id hc hid => ?apart) (fun id r hr => ?routes)
    (fun h item hr => ?reader) fun c hc => ?fits
  case apart =>
    rw [hmade c hc] at hid
    cases hid
  case routes =>
    obtain ⟨hused, htx⟩ := L.routes id r hr
    refine ⟨hused, fun h hh => ?_⟩
    obtain ⟨c, hc, hid⟩ := htx h hh
    exact ⟨c, hold hc, hid⟩
  case reader =>
    obtain ⟨c, hc, hid⟩ := L.reader h item hr
    exact ⟨c, hold hc, hid⟩
  case fits =>
    rw [hmade c hc]
    exact L.fits_open

theorem parity_ne (e : Side) : e.parity ≠ e.other.parity := by cases e <;> decide

/-- This end's next number is not used. -/
theorem Local.not_used_next (L : Local e u l) : ¬ Used e l l.next := by
  rintro (⟨-, hlt⟩ | ⟨hp, -⟩)
  · exact lt_irrefl _ hlt
  · exact parity_ne e (L.parity.symm.trans hp)

/-- What a number no one has used was queued and taken for. -/
theorem Local.unused (L : Local e u l) {id : ℕ} (hid : ¬ Used e l id) : queuedOn u id = [] ∧ takenOn u id = [] := by
  constructor
  · rw [List.eq_nil_iff_forall_not_mem]
    intro f hf
    obtain ⟨hf', rfl⟩ := mem_queuedOn.mp hf
    exact hid (L.queued f hf').2.1
  · rw [List.eq_nil_iff_forall_not_mem]
    intro f hf
    obtain ⟨hf', rfl⟩ := mem_takenOn.mp hf
    exact hid (L.taken f hf')

/-- A conversation takes this end's next number. -/
theorem Local.number (L : Local e u l) (hc : l.conversations h = some c) (hn : c.number = none) (hlt : l.next < 2 ^ 32)
    (hl : l' = { l with next := l.next + 2, routes := l.routes.insert l.next { tx := some h, done := false } }.set h
      { c with number := some l.next }) : Local e u l' := by
  obtain ⟨hopened, hsent, hgot⟩ := (L.fits h c hc).unsent hn
  obtain ⟨hq, ht⟩ := L.unused L.not_used_next
  have hconv : ∀ h', l'.conversations h' = if h' = h then some { c with number := some l.next } else l.conversations h' := by
    intro h'
    rw [hl, set_conversations]
  have hnext : l'.next = l.next + 2 := by rw [hl]; rfl
  have hhigh : l'.peerHigh = l.peerHigh := by rw [hl]; rfl
  have hmade : l'.made = l.made := by rw [hl]; rfl
  have hpending : ∀ h', l'.pending h' = l.pending h' := by
    intro h'
    rw [hl]
    rfl
  have hroute : ∀ id, l'.routes[id]? = if l.next = id then some { tx := some h, done := false } else l.routes[id]? := by
    intro id
    rw [hl]
    change (l.routes.insert l.next _)[id]? = _
    rw [Std.ExtTreeMap.getElem?_insert]
    simp
  have B : Beside l l' [] h :=
    { next := by omega
      high := hhigh.ge
      made := hmade.ge
      others := fun h' hh => by rw [hconv, if_neg hh]
      number := fun c' id hc' hid => by
        rw [hc] at hc'
        obtain rfl := Option.some.inj hc'
        rw [hn] at hid
        cases hid
      handles := by simp
      frames := by simp
      pending := fun h' _ => hpending h'
      feeds := fun id h' hh hf => by
        obtain ⟨r, hr, htx⟩ := hf
        rw [hroute] at hr
        split_ifs at hr
        · obtain rfl := Option.some.inj hr
          exact absurd (Option.some.inj htx).symm hh
        · exact ⟨r, hr, htx⟩ }
  have hgot' : got u l' h { c with number := some l.next } = [] := by
    rw [← hgot, got, got, hpending]
  have hused : Used e l' l.next := .inl ⟨L.parity, by omega⟩
  have F := L.fits h c hc
  have hfits : Fits e u l' h { c with number := some l.next } :=
    { made := hmade ▸ F.made
      unsent := fun hnone => by cases hnone
      used := fun id hid => by
        obtain rfl := Option.some.inj hid
        exact ⟨hlt, hused, fun _ => hopened⟩
      sends := fun id hid => by
        obtain rfl := Option.some.inj hid
        exact ⟨[], by rw [hq, hsent]; rfl, fun _ => rfl, .inl rfl⟩
      gets := fun id hid => by
        rw [hgot']
        exact List.nil_prefix
      fed := fun id hid _ _ => by
        obtain rfl := Option.some.inj hid
        rw [hgot', ht]
        exact ⟨rfl, by simp⟩
      finished := F.finished
      ended := F.ended
      once := F.once }
  rw [← List.append_nil u]
  refine L.beside _ B (by rw [hnext, ← L.parity]; omega) (by simp) (by simp) (by simp) (fun c' id hc' hid => ?apart)
    (fun id r hr => ?routes) (fun h' item hr => ?reader) fun c' hc' => ?fits
  case apart =>
    rw [hconv, if_pos rfl] at hc'
    obtain rfl := Option.some.inj hc'
    obtain rfl := Option.some.inj hid
    intro h' c' _ hc' hid'
    exact L.not_used_next ((L.fits h' c' hc').used _ hid').2.1
  case routes =>
    rw [hroute] at hr
    split_ifs at hr with heq
    · obtain rfl := Option.some.inj hr
      subst heq
      refine ⟨hused, fun h' hh => ?_⟩
      obtain rfl := Option.some.inj hh
      exact ⟨_, by rw [hconv, if_pos rfl], rfl⟩
    · obtain ⟨hu, htx⟩ := L.routes id r hr
      exact ⟨hu.mono B.next B.high, fun h' hh => B.numbered (htx h' hh)⟩
  case reader =>
    have hr' : l.reader = .delivering h' item := by
      rw [← hr, hl]
      rfl
    obtain ⟨c', hc', hn'⟩ := L.reader h' item hr'
    obtain ⟨id, hid⟩ := Option.ne_none_iff_exists'.mp hn'
    obtain ⟨c'', hc'', hid''⟩ := B.numbered ⟨c', hc', hid⟩
    exact ⟨c'', hc'', by rw [hid'']; simp⟩
  case fits =>
    rw [hconv, if_pos rfl] at hc'
    obtain rfl := Option.some.inj hc'
    rw [List.append_nil]
    exact hfits

/-- What a step does to a conversation that keeps its number: its frames are queued for it
alone, no frame is taken, and no route is made. -/
structure Onto (l l' : Linked) (did : List Happening) (h : ℕ) (c c' : Conversation) : Prop where
  next : l'.next = l.next
  high : l'.peerHigh = l.peerHigh
  made : l'.made = l.made
  conversations : l'.conversations = Function.update l.conversations h (some c')
  number : c'.number = c.number
  routes : ∀ (id : ℕ) r', l'.routes[id]? = some r' → ∃ r, l.routes[id]? = some r ∧ (r'.tx = none ∨ r'.tx = r.tx)
  reader : ∀ h item, l'.reader = .delivering h item → l.reader = .delivering h item
  pending : ∀ h', h' ≠ h → l'.pending h' = l.pending h'
  handles : ∀ x ∈ did, ∀ h', x.handle = some h' → h' = h
  frames : ∀ x ∈ did, ∀ f, x.frame = some f → x = .queued f ∧ c.number = some f.id
  handed : ∀ h id, .handed h id ∉ did

theorem Onto.used {c' : Conversation} (O : Onto l l' did h c c') (id : ℕ) : Used e l' id ↔ Used e l id := by
  rw [Used, Used, O.next, O.high]

theorem Onto.feeds {c' : Conversation} (O : Onto l l' did h c c') {id h' : ℕ} (hf : l'.Feeds id h') : l.Feeds id h' := by
  obtain ⟨r', hr', htx⟩ := hf
  obtain ⟨r, hr, hnone | hsame⟩ := O.routes id r' hr'
  · rw [hnone] at htx
    cases htx
  · exact ⟨r, hr, hsame ▸ htx⟩

theorem Local.onto {c' : Conversation} (L : Local e u l) (hc : l.conversations h = some c) (O : Onto l l' did h c c')
    (F : Fits e (u ++ did) l' h c') : Local e (u ++ did) l' := by
  have hconv : ∀ h', l'.conversations h' = if h' = h then some c' else l.conversations h' := by
    intro h'
    rw [O.conversations]
    exact Function.update_apply ..
  have B : Beside l l' did h :=
    { next := O.next.ge
      high := O.high.ge
      made := O.made.ge
      others := fun h' hh => by rw [hconv, if_neg hh]
      number := fun c₁ id hc₁ hid => by
        rw [hc] at hc₁
        obtain rfl := Option.some.inj hc₁
        exact ⟨c', by rw [hconv, if_pos rfl], O.number.trans hid⟩
      handles := fun x hx h' hh => ⟨O.handles x hx h' hh, F.made⟩
      frames := fun x hx f hf h' c₁ hh hc₁ hid => hh (L.apart h' h c₁ c f.id hc₁ hc hid (O.frames x hx f hf).2)
      pending := O.pending
      feeds := fun id h' _ hf => O.feeds hf }
  refine L.beside _ B (O.next ▸ L.parity) (fun f hf => ?queued) (fun f hf => by cases (O.frames _ hf f rfl).1)
    (fun h id hh => absurd hh (O.handed h id)) (fun c₀ id hc₀ hid h' c₁ hh hc₁ hid' => ?apart)
    (fun id r' hr' => ?routes) (fun h' item hr => ?reader) fun c₀ hc₀ => ?fits
  case queued =>
    obtain ⟨-, hid⟩ := O.frames _ hf f rfl
    obtain ⟨hlt, hused, -⟩ := (L.fits h c hc).used _ hid
    exact ⟨hlt, (O.used _).mpr hused, .inl ⟨h, B.numbered ⟨c, hc, hid⟩⟩⟩
  case apart =>
    rw [hconv, if_pos rfl] at hc₀
    obtain rfl := Option.some.inj hc₀
    exact hh (L.apart h' h c₁ c id hc₁ hc hid' (O.number.symm.trans hid))
  case routes =>
    obtain ⟨r, hr, hkind⟩ := O.routes id r' hr'
    obtain ⟨hused, htx⟩ := L.routes id r hr
    refine ⟨(O.used id).mpr hused, fun h' hh => ?_⟩
    rcases hkind with hnone | hsame
    · rw [hnone] at hh
      cases hh
    · exact B.numbered (htx h' (hsame ▸ hh))
  case reader =>
    obtain ⟨c₁, hc₁, hn⟩ := L.reader h' item (O.reader h' item hr)
    obtain ⟨id, hid⟩ := Option.ne_none_iff_exists'.mp hn
    obtain ⟨c₂, hc₂, hid₂⟩ := B.numbered ⟨c₁, hc₁, hid⟩
    exact ⟨c₂, hc₂, by rw [hid₂]; simp⟩
  case fits =>
    rw [hconv, if_pos rfl] at hc₀
    obtain rfl := Option.some.inj hc₀
    exact F

theorem update_eq_self {l : Linked} (hc : l.conversations h = some c) :
    l.conversations = Function.update l.conversations h (some c) := by
  rw [← hc, Function.update_eq_self]

/-- What a conversation with a number is after a frame was sent on it. -/
theorem Fits.send (F : Fits e u l h c) (hheld : c.held = true) {id : ℕ} (hid : c.number = some id) (frame : Bytes)
    (out : List Out) :
    Fits e (u ++ [.queued { id, kind := .frame, body := frame }, .sent h frame]) { l with out } h c := by
  have hmem : ∀ x : Happening, x.handle = some h → (∀ frame, x ≠ .sent h frame) →
      (x ∈ u ++ [.queued { id, kind := .frame, body := frame }, .sent h frame] ↔ x ∈ u) := by
    intro x hx hne
    have hq : x ≠ .queued { id, kind := .frame, body := frame } := by
      rintro rfl
      cases hx
    simp [hne, hq]
  have hreads : readsOf (u ++ [.queued { id, kind := .frame, body := frame }, .sent h frame]) h = readsOf u h := by
    rw [readsOf, List.filterMap_append]
    exact List.append_nil _
  have hgot : got (u ++ [.queued { id, kind := .frame, body := frame }, .sent h frame]) { l with out } h c = got u l h c := by
    rw [got, got, hreads]
    rfl
  have htaken : ∀ id', takenOn (u ++ [.queued { id, kind := .frame, body := frame }, .sent h frame]) id' = takenOn u id' := by
    intro id'
    rw [takenOn, takenIn, List.filterMap_append]
    exact congrArg _ (List.append_nil _)
  have hqueued : queuedOn (u ++ [.queued { id, kind := .frame, body := frame }, .sent h frame]) id =
      queuedOn u id ++ [{ id, kind := .frame, body := frame }] := by
    rw [queuedOn, queuedIn, List.filterMap_append, List.filter_append]
    simp [queuedOn, queuedIn]
  have hsent : sentOn (u ++ [.queued { id, kind := .frame, body := frame }, .sent h frame]) h = sentOn u h ++ [frame] := by
    rw [sentOn, List.filterMap_append]
    simp [sentOn]
  exact
    { made := F.made
      unsent := fun hn => by
        rw [hid] at hn
        cases hn
      used := fun id' hid' => by
        obtain ⟨hlt', hused', hopened⟩ := F.used id' hid'
        exact ⟨hlt', hused', fun hp => List.mem_append_left _ (hopened hp)⟩
      sends := fun id' hid' => by
        rw [hid] at hid'
        obtain rfl := Option.some.inj hid'
        obtain ⟨fin, hq, hfin, -⟩ := F.sends id hid
        refine ⟨[], ?_, fun _ => rfl, .inl rfl⟩
        rw [hqueued, hq, hfin hheld, hsent, List.map_append]
        simp
      gets := fun id' hid' => by
        rw [hgot, htaken]
        exact F.gets id' hid'
      fed := fun id' hid' hheld' hf => by
        rw [hgot, htaken]
        exact F.fed id' hid' hheld' hf
      finished := fun hr => F.finished ((hmem (.readEnd h) rfl (by simp)).mp hr)
      ended := fun hr => by
        rw [hmem (.ended h) rfl (by simp), hmem (.dropped h) rfl (by simp)] at hr
        exact F.ended hr
      once := fun hr => by
        rw [hmem (.ended h) rfl (by simp), hmem (.dropped h) rfl (by simp)] at hr
        exact F.once hr }

/-- A frame is sent on a conversation that has a number. -/
theorem Local.send (L : Local e u l) (hc : l.conversations h = some c) (hheld : c.held = true) {id : ℕ} (hid : c.number = some id)
    (frame : Bytes) (out : List Out) :
    Local e (u ++ [.queued { id, kind := .frame, body := frame }, .sent h frame]) { l with out } := by
  have O : Onto l { l with out } [.queued { id, kind := .frame, body := frame }, .sent h frame] h c c :=
    { next := rfl
      high := rfl
      made := rfl
      conversations := update_eq_self hc
      number := rfl
      routes := fun _ r hr => ⟨r, hr, .inr rfl⟩
      reader := fun _ _ hr => hr
      pending := fun _ _ => rfl
      handles := by simp [Happening.handle]
      frames := by simp [Happening.frame, hid]
      handed := by simp }
  exact L.onto hc O ((L.fits h c hc).send hheld hid frame out)

/-- A receive, or the reader's delivery: what a conversation has got stays what it is. -/
theorem Fits.reads {c' : Conversation} (F : Fits e u l h c) (O : Onto l l' did h c c') (hheld : c'.held = c.held)
    (hgot : got (u ++ did) l' h c' = got u l h c) (hframe : ∀ x ∈ did, x.frame = none)
    (hdid : ∀ x ∈ did, ∀ h', x.handle = some h' → (∃ frame, x = .read h' frame) ∨ x = .readEnd h' ∧ c'.finished = true)
    (hfin : c.finished = true → c'.finished = true) : Fits e (u ++ did) l' h c' := by
  have hmem : ∀ x : Happening, x.handle = some h → (∀ frame, x ≠ .read h frame) → x ≠ .readEnd h → (x ∈ u ++ did ↔ x ∈ u) := by
    intro x hx hne hne'
    rw [List.mem_append, or_iff_left]
    intro hin
    rcases hdid x hin h hx with ⟨frame, heq⟩ | ⟨heq, -⟩
    · exact hne frame heq
    · exact hne' heq
  have hsent : sentOn (u ++ did) h = sentOn u h := by
    apply filterMap_append_none
    intro x hx
    cases x with
    | sent h' frame => simpa using hdid _ hx h' rfl
    | _ => rfl
  have hquiet : ∀ id, ∀ x ∈ did, ∀ f, x.frame = some f → f.id ≠ id := by
    intro id x hx f hf
    rw [hframe x hx] at hf
    cases hf
  exact
    { made := O.made ▸ F.made
      unsent := fun hn => by
        obtain ⟨hopened, hs, hg⟩ := F.unsent (O.number ▸ hn)
        exact ⟨List.mem_append_left _ hopened, hsent.trans hs, hgot.trans hg⟩
      used := fun id hid => by
        obtain ⟨hlt, hused, hopened⟩ := F.used id (O.number ▸ hid)
        exact ⟨hlt, (O.used id).mpr hused, fun hp => List.mem_append_left _ (hopened hp)⟩
      sends := fun id hid => by
        rw [queuedOn_quiet (hquiet id), hsent, hheld, hmem (.ended h) rfl (by simp) (by simp)]
        exact F.sends id (O.number ▸ hid)
      gets := fun id hid => by
        rw [hgot, takenOn_quiet (hquiet id)]
        exact F.gets id (O.number ▸ hid)
      fed := fun id hid hh hf => by
        rw [hgot, takenOn_quiet (hquiet id)]
        exact F.fed id (O.number ▸ hid) (hheld ▸ hh) (O.feeds hf)
      finished := fun hr => by
        rcases List.mem_append.mp hr with hr | hr
        · exact hfin (F.finished hr)
        · rcases hdid _ hr h rfl with ⟨frame, heq⟩ | ⟨-, hf⟩
          · cases heq
          · exact hf
      ended := fun hr => by
        rw [hmem (.ended h) rfl (by simp) (by simp), hmem (.dropped h) rfl (by simp) (by simp)] at hr
        exact hheld.trans (F.ended hr)
      once := fun hr => by
        rw [hmem (.ended h) rfl (by simp) (by simp), hmem (.dropped h) rfl (by simp) (by simp)] at hr
        exact F.once hr }

theorem onto_set {c' : Conversation} (hn : c'.number = c.number)
    (hhandles : ∀ x ∈ did, ∀ h', x.handle = some h' → h' = h) (hframe : ∀ x ∈ did, x.frame = none)
    (hhanded : ∀ h id, .handed h id ∉ did) : Onto l (l.set h c') did h c c' where
  next := rfl
  high := rfl
  made := rfl
  conversations := rfl
  number := hn
  routes _ r hr := ⟨r, hr, .inr rfl⟩
  reader _ _ hr := hr
  pending _ _ := rfl
  handles := hhandles
  frames x hx f hf := by
    rw [hframe x hx] at hf
    cases hf
  handed := hhanded

/-- A receive that finds a frame. -/
theorem Local.read (L : Local e u l) (hc : l.conversations h = some c) (hheld : c.held = true) (hfin : c.finished = false)
    {bytes : Bytes} {queue : List Item} (hq : c.queue = .frame bytes :: queue) :
    Local e (u ++ [.read h bytes]) (l.set h { c with queue }) := by
  have O : Onto l (l.set h { c with queue }) [.read h bytes] h c { c with queue } :=
    onto_set rfl (by simp [Happening.handle]) (by simp [Happening.frame]) (by simp)
  refine L.onto hc O ((L.fits h c hc).reads O rfl ?_ (by simp [Happening.frame]) (by simp [Happening.handle]) id)
  have hreads : readsOf (u ++ [.read h bytes]) h = readsOf u h ++ [bytes] := by
    rw [readsOf, List.filterMap_append]
    simp [readsOf]
  have hpending : (l.set h { c with queue }).pending h = l.pending h := rfl
  rw [got, got, hreads, hpending, hfin, hheld, hq]
  simp

/-- A receive that finds the peer's END. -/
theorem Local.readEnd (L : Local e u l) (hc : l.conversations h = some c) (hheld : c.held = true) (hfin : c.finished = false)
    {queue : List Item} (hq : c.queue = .ending :: queue) :
    Local e (u ++ [.readEnd h]) (l.set h { c with queue, finished := true }) := by
  have O : Onto l (l.set h { c with queue, finished := true }) [.readEnd h] h c { c with queue, finished := true } :=
    onto_set rfl (by simp [Happening.handle]) (by simp [Happening.frame]) (by simp)
  refine L.onto hc O ((L.fits h c hc).reads O rfl ?_ (by simp [Happening.frame]) (by simp [Happening.handle]) fun _ => rfl)
  have hreads : readsOf (u ++ [.readEnd h]) h = readsOf u h := by
    rw [readsOf, List.filterMap_append]
    exact List.append_nil _
  have hpending : (l.set h { c with queue, finished := true }).pending h = l.pending h := rfl
  rw [got, got, hreads, hpending, hfin, hheld, hq]
  simp

/-- A receive after the peer's END. -/
theorem Local.readEnd_again (L : Local e u l) (hc : l.conversations h = some c) (hfin : c.finished = true) :
    Local e (u ++ [.readEnd h]) l := by
  have O : Onto l l [.readEnd h] h c c :=
    { next := rfl
      high := rfl
      made := rfl
      conversations := update_eq_self hc
      number := rfl
      routes := fun _ r hr => ⟨r, hr, .inr rfl⟩
      reader := fun _ _ hr => hr
      pending := fun _ _ => rfl
      handles := by simp [Happening.handle]
      frames := by simp [Happening.frame]
      handed := by simp }
  refine L.onto hc O ((L.fits h c hc).reads O rfl ?_ (by simp [Happening.frame]) (by simp [Happening.handle, hfin]) id)
  have hreads : readsOf (u ++ [.readEnd h]) h = readsOf u h := by
    rw [readsOf, List.filterMap_append]
    exact List.append_nil _
  rw [got, got, hreads]

/-- The reader's frame goes where it was to go, or nowhere. -/
theorem Local.deliver (L : Local e u l) : Local e u l.deliver := by
  unfold Linked.deliver
  split
  case h_2 => exact L
  case h_1 h item hr =>
    obtain ⟨c, hc, hn⟩ := L.reader h item hr
    have hpending : l.pending h = [item] := by
      rw [pending, hr]
      exact if_pos rfl
    have hothers : ∀ h', h' ≠ h → l.pending h' = [] := by
      intro h' hh
      rw [pending, hr]
      exact if_neg (Ne.symm hh)
    rw [← List.append_nil u]
    split
    case h_1 hheld =>
      have hno : c.held = false := by
        simpa [held, hc] using hheld
      have O : Onto l { l with reader := .receiving } [] h c c :=
        { next := rfl
          high := rfl
          made := rfl
          conversations := update_eq_self hc
          number := rfl
          routes := fun _ r hr => ⟨r, hr, .inr rfl⟩
          reader := fun _ _ hr => (by cases hr)
          pending := fun h' hh => (hothers h' hh).symm
          handles := by simp
          frames := by simp
          handed := by simp }
      refine L.onto hc O ((L.fits h c hc).reads O rfl ?_ (by simp) (by simp) id)
      rw [got, got, hno, List.append_nil]
      rfl
    case h_2 c₁ hheld =>
      have hboth : l.conversations h = some c₁ ∧ c₁.held = true := by simpa [held] using hheld
      obtain ⟨hc₁, hyes⟩ := hboth
      rw [hc] at hc₁
      obtain rfl := Option.some.inj hc₁
      split_ifs
      · rw [List.append_nil]
        exact L
      · have O : Onto l { l.set h { c with queue := c.queue ++ [item] } with reader := .receiving } [] h c
            { c with queue := c.queue ++ [item] } :=
          { next := rfl
            high := rfl
            made := rfl
            conversations := rfl
            number := rfl
            routes := fun _ r hr => ⟨r, hr, .inr rfl⟩
            reader := fun _ _ hr => (by cases hr)
            pending := fun h' hh => (hothers h' hh).symm
            handles := by simp
            frames := by simp
            handed := by simp }
        refine L.onto hc O ((L.fits h c hc).reads O rfl ?_ (by simp) (by simp) id)
        have hpending' : Linked.pending { l.set h { c with queue := c.queue ++ [item] } with reader := .receiving } h = [] := rfl
        rw [got, got, hpending, hpending', hyes, List.append_nil, List.append_nil]

/-- The frames the writer has yet to send. -/
def toSend (out : List Out) : List Bytes :=
  out.filterMap fun
    | .send frame => some frame
    | .close => none

theorem toSend_append (out more : List Out) : toSend (out ++ more) = toSend out ++ toSend more := List.filterMap_append

theorem queue_spec (l : Linked) (f : LinkFrame) :
    l.queue f = (l, []) ∨ l.queue f = ({ l with out := l.out ++ [.send f.encode] }, [f]) := by
  unfold Linked.queue
  split_ifs
  · exact .inl rfl
  · exact .inr rfl

/-- What the end of a conversation changes: the writer's queue, and routes that feed what they fed. -/
theorem finish_spec (l : Linked) (c : Conversation) (kind : Kind) :
    ∃ out routes queued, l.finish c kind = ({ l with out, routes }, queued) ∧
      (∀ (id : ℕ) r', routes[id]? = some r' → ∃ r, l.routes[id]? = some r ∧ r'.tx = r.tx) ∧
      (queued = [] ∨ ∃ id, c.number = some id ∧ queued = [marker id kind]) ∧
      toSend out = toSend l.out ++ queued.map LinkFrame.encode := by
  unfold Linked.finish
  cases hn : c.number with
  | none => exact ⟨l.out, l.routes, [], rfl, fun _ r hr => ⟨r, hr, rfl⟩, .inl rfl, (List.append_nil _).symm⟩
  | some id =>
    have hqueued : ∃ out queued, (if l.ended then (l, []) else l.queue (marker id kind)) = ({ l with out }, queued) ∧
        (queued = [] ∨ queued = [marker id kind]) ∧ toSend out = toSend l.out ++ queued.map LinkFrame.encode := by
      split_ifs
      · exact ⟨l.out, [], rfl, .inl rfl, (List.append_nil _).symm⟩
      · rcases queue_spec l (marker id kind) with hsame | hput
        · exact ⟨l.out, [], hsame, .inl rfl, (List.append_nil _).symm⟩
        · exact ⟨_, _, hput, .inr rfl, toSend_append _ _⟩
    obtain ⟨out, queued, heq, hkind, hout⟩ := hqueued
    dsimp only
    rw [heq]
    have hmark : queued = [] ∨ ∃ id', some id = some id' ∧ queued = [marker id' kind] := hkind.imp_right fun h => ⟨id, rfl, h⟩
    cases hr : l.routes[id]? with
    | none => exact ⟨out, l.routes, queued, rfl, fun _ r hr => ⟨r, hr, rfl⟩, hmark, hout⟩
    | some route =>
      dsimp only
      split_ifs
      · refine ⟨out, _, queued, rfl, fun id' r' hr' => ?_, hmark, hout⟩
        rw [Std.ExtTreeMap.getElem?_erase] at hr'
        split_ifs at hr'
        exact ⟨r', hr', rfl⟩
      · refine ⟨out, _, queued, rfl, fun id' r' hr' => ?_, hmark, hout⟩
        rw [Std.ExtTreeMap.getElem?_insert] at hr'
        split_ifs at hr' with heq'
        · obtain rfl := Option.some.inj hr'
          obtain rfl := Std.LawfulEqOrd.eq_of_compare heq'
          exact ⟨route, hr, rfl⟩
        · exact ⟨r', hr', rfl⟩

/-- What a conversation's end does: a marker of its number, or nothing, is queued before it. -/
theorem mem_letGo {kind : Kind} {d : Happening} {queued : List LinkFrame}
    (hqueued : queued = [] ∨ ∃ id, c.number = some id ∧ queued = [marker id kind]) {x : Happening}
    (hx : x ∈ queued.map Happening.queued ++ [d]) : x = d ∨ ∃ id, c.number = some id ∧ x = .queued (marker id kind) := by
  rcases List.mem_append.mp hx with hx | hx
  · rcases hqueued with rfl | ⟨id, hid, rfl⟩
    · cases hx
    · exact .inr ⟨id, hid, by simpa using hx⟩
  · exact .inl (List.mem_singleton.mp hx)

/-- What a conversation is after its end, or after it was dropped. -/
theorem Fits.letGo (F : Fits e u l h c) (hheld : c.held = true) {kind : Kind} {d : Happening}
    (hd : kind = .ending ∧ d = .ended h ∨ kind = .reset ∧ d = .dropped h) {queued : List LinkFrame}
    (hqueued : queued = [] ∨ ∃ id, c.number = some id ∧ queued = [marker id kind]) (hmade : l'.made = l.made)
    (hused : ∀ id, Used e l id → Used e l' id) :
    Fits e (u ++ (queued.map .queued ++ [d])) l' h { c with queue := [], held := false } := by
  set did := queued.map Happening.queued ++ [d] with hdid
  have hnot : ∀ {p : Happening → Option Bytes}, p d = none → (∀ f, p (.queued f) = none) → ∀ x ∈ did, p x = none := by
    intro p hpd hpq x hx
    rcases mem_letGo hqueued hx with rfl | ⟨id, -, rfl⟩
    · exact hpd
    · exact hpq _
  have hsent : sentOn (u ++ did) h = sentOn u h :=
    filterMap_append_none (hnot (by rcases hd with ⟨-, rfl⟩ | ⟨-, rfl⟩ <;> rfl) fun _ => rfl)
  have hreads : readsOf (u ++ did) h = readsOf u h :=
    filterMap_append_none (hnot (by rcases hd with ⟨-, rfl⟩ | ⟨-, rfl⟩ <;> rfl) fun _ => rfl)
  have htaken : ∀ id, takenOn (u ++ did) id = takenOn u id := by
    intro id
    rw [takenOn, takenIn, filterMap_append_none fun x hx => ?_, ← takenIn, ← takenOn]
    rcases mem_letGo hqueued hx with rfl | ⟨_, -, rfl⟩
    · rcases hd with ⟨-, rfl⟩ | ⟨-, rfl⟩ <;> rfl
    · rfl
  have hgot : got (u ++ did) l' h { c with queue := [], held := false } <+: got u l h c := by
    rw [got, got, hreads]
    simp only [hheld, if_true, Bool.false_eq_true, if_false, List.append_nil]
    exact List.prefix_append _ _
  have hnone : .ended h ∉ u ∧ .dropped h ∉ u := by
    constructor <;> intro hin
    · rw [F.ended (.inl hin)] at hheld
      cases hheld
    · rw [F.ended (.inr hin)] at hheld
      cases hheld
  have hin : ∀ x : Happening, x ∉ u → x.frame = none → x ∈ u ++ did → x = d := by
    intro x hx hf hmem
    rcases List.mem_append.mp hmem with hmem | hmem
    · exact absurd hmem hx
    · rcases mem_letGo hqueued hmem with heq | ⟨_, -, rfl⟩
      · exact heq
      · cases hf
  have hqueuedOn : ∀ id, c.number = some id → queuedOn (u ++ did) id = queuedOn u id ++ queued := by
    intro id hid
    rw [queuedOn, queuedIn, List.filterMap_append, List.filter_append, ← queuedIn, ← queuedOn, hdid]
    rcases hqueued with rfl | ⟨id', hid', rfl⟩
    · rcases hd with ⟨-, rfl⟩ | ⟨-, rfl⟩ <;> simp
    · rw [hid] at hid'
      obtain rfl := Option.some.inj hid'
      rcases hd with ⟨-, rfl⟩ | ⟨-, rfl⟩ <;> simp [marker]
  exact
    { made := hmade ▸ F.made
      unsent := fun hn => by
        obtain ⟨hopened, hs, hg⟩ := F.unsent hn
        rw [hg] at hgot
        exact ⟨List.mem_append_left _ hopened, hsent.trans hs, List.prefix_nil.mp hgot⟩
      used := fun id hid => by
        obtain ⟨hlt, hu, hopened⟩ := F.used id hid
        exact ⟨hlt, hused id hu, fun hp => List.mem_append_left _ (hopened hp)⟩
      sends := fun id hid => by
        obtain ⟨fin, hq, hfin, -⟩ := F.sends id hid
        rw [hfin hheld, List.append_nil] at hq
        refine ⟨queued, by rw [hqueuedOn id hid, hq, hsent], fun hh => (by cases hh), ?_⟩
        rcases hqueued with rfl | ⟨id', hid', rfl⟩
        · exact .inl rfl
        · rw [hid] at hid'
          obtain rfl := Option.some.inj hid'
          rcases hd with ⟨rfl, rfl⟩ | ⟨rfl, rfl⟩
          · exact .inr (.inl ⟨rfl, by simp [hdid]⟩)
          · exact .inr (.inr rfl)
      gets := fun id hid => by
        rw [htaken]
        exact hgot.trans (F.gets id hid)
      fed := fun id hid hh => by cases hh
      finished := fun hr => by
        by_cases hold : .readEnd h ∈ u
        · exact F.finished hold
        · have := hin _ hold rfl hr
          rcases hd with ⟨-, rfl⟩ | ⟨-, rfl⟩ <;> cases this
      ended := fun _ => rfl
      once := fun hr => by
        have he := hin _ hnone.1 rfl hr.1
        have hdr := hin _ hnone.2 rfl hr.2
        rw [← he] at hdr
        cases hdr }

/-- A conversation ended or dropped. -/
theorem Local.letGo (L : Local e u l) (hc : l.conversations h = some c) (hheld : c.held = true) {kind : Kind} {d : Happening}
    (hd : kind = .ending ∧ d = .ended h ∨ kind = .reset ∧ d = .dropped h) :
    Local e (u ++ (l.letGo h c kind d).2) (l.letGo h c kind d).1 := by
  obtain ⟨out, routes, queued, heq, hroutes, hqueued, -⟩ := finish_spec l c kind
  have hdh : d.handle = some h ∧ d.frame = none := by rcases hd with ⟨-, rfl⟩ | ⟨-, rfl⟩ <;> exact ⟨rfl, rfl⟩
  unfold Linked.letGo
  rw [heq]
  dsimp only
  have O : Onto l (Linked.set { l with out, routes } h { c with queue := [], held := false })
      (queued.map .queued ++ [d]) h c { c with queue := [], held := false } :=
    { next := rfl
      high := rfl
      made := rfl
      conversations := rfl
      number := rfl
      routes := fun id r' hr' => by
        obtain ⟨r, hr, htx⟩ := hroutes id r' hr'
        exact ⟨r, hr, .inr htx⟩
      reader := fun _ _ hr => hr
      pending := fun _ _ => rfl
      handles := fun x hx h' hh => by
        rcases mem_letGo hqueued hx with rfl | ⟨id, -, rfl⟩
        · rw [hdh.1] at hh
          exact (Option.some.inj hh).symm
        · cases hh
      frames := fun x hx f hf => by
        rcases mem_letGo hqueued hx with rfl | ⟨id, hid, rfl⟩
        · rw [hdh.2] at hf
          cases hf
        · obtain rfl := Option.some.inj hf
          exact ⟨rfl, hid⟩
      handed := fun h' id hx => by
        rcases mem_letGo hqueued hx with hx | ⟨_, -, hx⟩
        · rcases hd with ⟨-, rfl⟩ | ⟨-, rfl⟩ <;> cases hx
        · cases hx }
  exact L.onto hc O ((L.fits h c hc).letGo hheld hd hqueued rfl fun id => (O.used id).mpr)

theorem takenOn_take {f : LinkFrame} {queued : List LinkFrame} (id : ℕ) :
    takenOn (u ++ .taken f :: queued.map .queued) id = takenOn u id ++ if f.id = id then [f] else [] := by
  have hnone : (queued.map Happening.queued).filterMap (fun | .taken f => some f | _ => none) = ([] : List LinkFrame) := by
    rw [List.filterMap_eq_nil_iff]
    intro x hx
    obtain ⟨f', -, rfl⟩ := List.mem_map.mp hx
    rfl
  rw [takenOn, takenIn, List.filterMap_append, List.filterMap_cons, hnone, List.filter_append, ← takenIn, ← takenOn]
  dsimp only
  split_ifs with hid <;> simp [hid]

/-- A step in which the reader takes the frame `f`, which opens nothing; `queued` is what it is answered with. -/
structure Took (e : Side) (u : List Happening) (l l' : Linked) (f : LinkFrame) (queued : List LinkFrame) : Prop where
  idle : l.reader = .receiving
  next : l'.next = l.next
  high : l.peerHigh ≤ l'.peerHigh
  made : l'.made = l.made
  conversations : l'.conversations = l.conversations
  used : Used e l' f.id
  routes : ∀ (id : ℕ) r', l'.routes[id]? = some r' → ∃ r, l.routes[id]? = some r ∧ (r'.tx = none ∨ r'.tx = r.tx)
  queued : queued = [] ∨ queued = [marker f.id .reset] ∧ f.id < 2 ^ 32 ∧ ¬ Used e l f.id
  reader : l'.reader = .receiving ∨ ∃ h item, l'.reader = .delivering h item ∧ l.Feeds f.id h
  got : ∀ h c, l.conversations h = some c → c.number = some f.id → c.held = true →
    got u l' h c <+: items (takenOn u f.id ++ [f]) ∧ (l'.Feeds f.id h →
      got u l' h c = items (takenOn u f.id ++ [f]) ∧ f.kind = .frame ∧ ∀ f' ∈ takenOn u f.id, f'.kind = .frame)

namespace Took

variable {f : LinkFrame} {queued : List LinkFrame}

theorem mono (T : Took e u l l' f queued) {id : ℕ} (hu : Used e l id) : Used e l' id := hu.mono T.next.ge T.high

theorem feeds (T : Took e u l l' f queued) {id h : ℕ} (hf : l'.Feeds id h) : l.Feeds id h := by
  obtain ⟨r', hr', htx⟩ := hf
  obtain ⟨r, hr, hnone | hsame⟩ := T.routes id r' hr'
  · rw [hnone] at htx
    cases htx
  · exact ⟨r, hr, hsame ▸ htx⟩

theorem happens (T : Took e u l l' f queued) {x : Happening} (hx : x ∈ Happening.taken f :: queued.map .queued) :
    x.handle = none ∧ (x = .taken f ∨ x = .queued (marker f.id .reset) ∧ f.id < 2 ^ 32 ∧ ¬ Used e l f.id) := by
  rcases List.mem_cons.mp hx with rfl | hx
  · exact ⟨rfl, .inl rfl⟩
  · rcases T.queued with rfl | ⟨rfl, hlt, hno⟩
    · cases hx
    · obtain rfl := List.mem_singleton.mp hx
      exact ⟨rfl, .inr ⟨rfl, hlt, hno⟩⟩

theorem frame_id (T : Took e u l l' f queued) {x : Happening} (hx : x ∈ Happening.taken f :: queued.map .queued)
    {f' : LinkFrame} (hf' : x.frame = some f') : f'.id = f.id := by
  rcases (T.happens hx).2 with rfl | ⟨rfl, -⟩ <;> obtain rfl := Option.some.inj hf' <;> rfl

theorem quiet (T : Took e u l l' f queued) (h : ℕ) :
    ∀ x ∈ Happening.taken f :: queued.map .queued, x.handle ≠ some h := by
  intro x hx hh
  rw [(T.happens hx).1] at hh
  cases hh

theorem mem_iff (T : Took e u l l' f queued) {x : Happening} (hx : x.handle ≠ none) :
    x ∈ u ++ .taken f :: queued.map .queued ↔ x ∈ u := by
  rw [List.mem_append, or_iff_left]
  exact fun hin => hx (T.happens hin).1

end Took

theorem Local.fed (L : Local e u l) {id : ℕ} (hf : l.Feeds id h) : ∃ c, l.conversations h = some c ∧ c.number = some id := by
  obtain ⟨r, hr, htx⟩ := hf
  exact (L.routes id r hr).2 h htx

/-- What the reader holds is for the conversation of the frame's number. -/
theorem Local.pending_took {f : LinkFrame} {queued : List LinkFrame} (L : Local e u l) (T : Took e u l l' f queued)
    (hc : l.conversations h = some c) (hid : c.number ≠ some f.id) : l'.pending h = [] := by
  unfold pending
  rcases T.reader with hr | ⟨h', item, hr, hf⟩
  · rw [hr]
  · rw [hr]
    refine if_neg fun heq => hid ?_
    obtain ⟨c', hc', hid'⟩ := L.fed hf
    rw [heq, hc] at hc'
    rw [Option.some.inj hc']
    exact hid'

/-- The conversation of the frame's number gets what the frame holds for it. -/
theorem Fits.took {f : LinkFrame} (F : Fits e u l h c) (T : Took e u l l' f []) (hc : l.conversations h = some c)
    (hid : c.number = some f.id) : Fits e (u ++ [.taken f]) l' h c := by
  have hown : ∀ {id}, c.number = some id → id = f.id := fun hid' => Option.some.inj (hid'.symm.trans hid)
  have hquiet : ∀ x ∈ [Happening.taken f], x.handle ≠ some h := T.quiet h
  have hgot : got (u ++ [.taken f]) l' h c = got u l' h c := by
    rw [got, got, readsOf_quiet hquiet]
  have hq : queuedOn (u ++ [.taken f]) f.id = queuedOn u f.id := by
    rw [queuedOn, queuedIn, List.filterMap_append, List.filter_append]
    simp [queuedOn, queuedIn]
  have ht : takenOn (u ++ [.taken f]) f.id = takenOn u f.id ++ [f] :=
    (@takenOn_take u f [] f.id).trans (by rw [if_pos rfl])
  have hmem : ∀ x : Happening, x.handle = some h → (x ∈ u ++ [.taken f] ↔ x ∈ u) := fun x hx =>
    T.mem_iff (by rw [hx]; simp)
  exact
    { made := T.made ▸ F.made
      unsent := fun hn => by
        rw [hid] at hn
        cases hn
      used := fun id hid' => by
        obtain ⟨hlt, hu, hopened⟩ := F.used id hid'
        exact ⟨hlt, T.mono hu, fun hp => List.mem_append_left _ (hopened hp)⟩
      sends := fun id hid' => by
        obtain rfl := hown hid'
        rw [hq, sentOn_quiet hquiet, hmem (.ended h) rfl]
        exact F.sends _ hid
      gets := fun id hid' => by
        obtain rfl := hown hid'
        rw [hgot, ht]
        by_cases hh : c.held = true
        · exact (T.got h c hc hid hh).1
        · have hsame : got u l' h c = got u l h c := by
            rw [got, got, if_neg hh, if_neg hh]
          rw [hsame]
          exact (F.gets _ hid).trans (items_extends _ _)
      fed := fun id hid' hh hf => by
        obtain rfl := hown hid'
        rw [hgot, ht]
        obtain ⟨heq, hkind, hall⟩ := (T.got h c hc hid hh).2 hf
        refine ⟨heq, fun f' hf' => ?_⟩
        rcases List.mem_append.mp hf' with hf' | hf'
        · exact hall f' hf'
        · rw [List.mem_singleton.mp hf', hkind]
      finished := fun hr => F.finished ((hmem (.readEnd h) rfl).mp hr)
      ended := fun hr => by
        rw [hmem (.ended h) rfl, hmem (.dropped h) rfl] at hr
        exact F.ended hr
      once := fun hr => by
        rw [hmem (.ended h) rfl, hmem (.dropped h) rfl] at hr
        exact F.once hr }

/-- The reader takes a frame that opens nothing. -/
theorem Local.took {f : LinkFrame} (queued : List LinkFrame) (L : Local e u l) (T : Took e u l l' f queued) :
    Local e (u ++ .taken f :: queued.map .queued) l' where
  parity := T.next ▸ L.parity
  queued f' hf' := by
    rw [T.conversations]
    rcases List.mem_append.mp hf' with hf' | hf'
    · obtain ⟨hlt, hu, hkind⟩ := L.queued f' hf'
      exact ⟨hlt, T.mono hu, hkind⟩
    · rcases (T.happens hf').2 with heq | ⟨heq, hlt, -⟩
      · cases heq
      · obtain rfl := Happening.queued.inj heq
        exact ⟨hlt, T.used, .inr rfl⟩
  taken f' hf' := by
    rcases List.mem_append.mp hf' with hf' | hf'
    · exact T.mono (L.taken f' hf')
    · rw [T.frame_id hf' rfl]
      exact T.used
  told x hx h hh := by
    rw [T.made]
    exact L.told x ((T.mem_iff (by rw [hh]; simp)).mp hx) h hh
  handed h id hh := by
    obtain ⟨hid, hc, f', hf', hkind⟩ := L.handed h id ((T.mem_iff (by simp [Happening.handle])).mp hh)
    rw [T.conversations]
    exact ⟨hid, hc, f', List.mem_append_left _ hf', hkind⟩
  apart := by
    rw [T.conversations]
    exact L.apart
  routes id r' hr' := by
    obtain ⟨r, hr, hkind⟩ := T.routes id r' hr'
    obtain ⟨hu, htx⟩ := L.routes id r hr
    rw [T.conversations]
    refine ⟨T.mono hu, fun h hh => ?_⟩
    rcases hkind with hnone | hsame
    · rw [hnone] at hh
      cases hh
    · exact htx h (hsame ▸ hh)
  reader h item hr := by
    rw [T.conversations]
    rcases T.reader with hr' | ⟨h', item', hr', hf⟩
    · rw [hr'] at hr
      cases hr
    · rw [hr'] at hr
      obtain ⟨rfl, rfl⟩ := Reader.delivering.inj hr
      obtain ⟨c, hc, hid⟩ := L.fed hf
      exact ⟨c, hc, by rw [hid]; simp⟩
  fits h c hc := by
    rw [T.conversations] at hc
    have F := L.fits h c hc
    by_cases hid : c.number = some f.id
    · -- Nothing is queued for a number that is used.
      obtain rfl := T.queued.resolve_right fun ⟨_, _, hno⟩ => hno (F.used _ hid).2.1
      exact F.took T hc hid
    · have hpending : l'.pending h = l.pending h := by
        rw [L.pending_took T hc hid, pending, T.idle]
      refine F.frame T.made.ge T.next.ge T.high (T.quiet h) (fun x hx f' hf' => ?_) hpending fun id _ => T.feeds
      rw [T.frame_id hx hf']
      exact hid

/-- The peer's first frame of a number, which makes a conversation. -/
structure Opens (e : Side) (l l' : Linked) (f : LinkFrame) (first : Item) (tx : Option ℕ) : Prop where
  idle : l.reader = .receiving
  wide : f.id < 2 ^ 32
  peer : f.id % 2 = e.other.parity
  new : l.peerHigh < f.id
  opener : [first] = items [f]
  fed : tx = none ∨ tx = some l.made ∧ f.kind = .frame
  kind : f.kind ≠ .reset
  state : l' = { { l with peerHigh := f.id }.set l.made
      { number := some f.id, queue := [first], finished := false, held := true } with
    made := l.made + 1, routes := l.routes.insert f.id { tx, done := false } }

namespace Opens

variable {f : LinkFrame} {first : Item} {tx : Option ℕ}

theorem unused (O : Opens e l l' f first tx) : ¬ Used e l f.id := by
  rintro (⟨hp, -⟩ | ⟨-, hle⟩)
  · exact parity_ne e (hp.symm.trans O.peer)
  · exact absurd O.new (not_lt_of_ge hle)

theorem conversations (O : Opens e l l' f first tx) (h : ℕ) : l'.conversations h =
    if h = l.made then some { number := some f.id, queue := [first], finished := false, held := true }
    else l.conversations h := by
  rw [O.state]
  exact set_conversations { l with peerHigh := f.id } l.made h _

theorem next (O : Opens e l l' f first tx) : l'.next = l.next := by
  rw [O.state]
  rfl

theorem high (O : Opens e l l' f first tx) : l'.peerHigh = f.id := by
  rw [O.state]
  rfl

theorem made (O : Opens e l l' f first tx) : l'.made = l.made + 1 := by rw [O.state]

theorem reader (O : Opens e l l' f first tx) : l'.reader = .receiving := by
  rw [O.state]
  exact O.idle

theorem pending (O : Opens e l l' f first tx) (h : ℕ) : l'.pending h = [] := by rw [Linked.pending, O.reader]

theorem route (O : Opens e l l' f first tx) (id : ℕ) :
    l'.routes[id]? = if f.id = id then some { tx, done := false } else l.routes[id]? := by
  rw [O.state]
  change (l.routes.insert f.id _)[id]? = _
  rw [Std.ExtTreeMap.getElem?_insert]
  simp

theorem used (O : Opens e l l' f first tx) : Used e l' f.id := .inr ⟨O.peer, O.high.ge⟩

theorem beside (O : Opens e l l' f first tx) (L : Local e u l) :
    Beside l l' [.taken f, .handed l.made f.id] l.made where
  next := O.next.ge
  high := by
    rw [O.high]
    exact O.new.le
  made := by
    rw [O.made]
    exact Nat.le_succ _
  others h hh := by rw [O.conversations, if_neg hh]
  number c id hc := by
    rw [L.fresh] at hc
    cases hc
  handles x hx h hh := by
    rcases List.mem_pair.mp hx with rfl | rfl
    · cases hh
    · exact ⟨(Option.some.inj hh).symm, by rw [O.made]; exact Nat.lt_succ_self _⟩
  frames x hx f' hf' h c _ hc hid := by
    rcases List.mem_pair.mp hx with rfl | rfl
    · obtain rfl := Option.some.inj hf'
      exact O.unused ((L.fits h c hc).used _ hid).2.1
    · cases hf'
  pending h _ := by rw [O.pending, Linked.pending, O.idle]
  feeds id h hh hf := by
    obtain ⟨r, hr, hrtx⟩ := hf
    rw [O.route] at hr
    split_ifs at hr
    · obtain rfl := Option.some.inj hr
      rcases O.fed with hnone | ⟨hsome, -⟩
      · rw [hnone] at hrtx
        cases hrtx
      · rw [hsome] at hrtx
        exact absurd (Option.some.inj hrtx).symm hh
    · exact ⟨r, hr, hrtx⟩

/-- What the peer opened has got its first frame, and sent nothing. -/
theorem fits (O : Opens e l l' f first tx) (L : Local e u l) : Fits e (u ++ [.taken f, .handed l.made f.id]) l' l.made
    { number := some f.id, queue := [first], finished := false, held := true } := by
  obtain ⟨hq, ht⟩ := L.unused O.unused
  have htaken : takenOn (u ++ [.taken f, .handed l.made f.id]) f.id = [f] := by
    rw [takenOn, takenIn, List.filterMap_append, List.filter_append, ← takenIn, ← takenOn, ht]
    simp
  have hqueued : queuedOn (u ++ [.taken f, .handed l.made f.id]) f.id = [] := by
    rw [queuedOn, queuedIn, List.filterMap_append, List.filter_append, ← queuedIn, ← queuedOn, hq]
    simp
  have hgot : got (u ++ [.taken f, .handed l.made f.id]) l' l.made
      { number := some f.id, queue := [first], finished := false, held := true } = items [f] := by
    rw [got, L.readsOf_made rfl, O.pending, ← O.opener]
    rfl
  exact
    { made := by
        rw [O.made]
        exact Nat.lt_succ_self _
      unsent := fun hn => by cases hn
      used := fun id hid => by
        obtain rfl := Option.some.inj hid
        exact ⟨O.wide, O.used, fun hp => absurd (hp.symm.trans O.peer) (parity_ne e)⟩
      sends := fun id hid => by
        obtain rfl := Option.some.inj hid
        exact ⟨[], by rw [hqueued, L.sentOn_made rfl]; rfl, fun _ => rfl, .inl rfl⟩
      gets := fun id hid => by
        obtain rfl := Option.some.inj hid
        rw [hgot, htaken]
      fed := fun id hid _ hf => by
        obtain rfl := Option.some.inj hid
        rw [hgot, htaken]
        refine ⟨rfl, ?_⟩
        obtain ⟨r, hr, hrtx⟩ := hf
        rw [O.route, if_pos rfl] at hr
        obtain rfl := Option.some.inj hr
        rcases O.fed with hnone | ⟨-, hframe⟩
        · rw [hnone] at hrtx
          cases hrtx
        · simpa using hframe
      finished := fun hr => absurd hr (L.not_mem_made rfl (by simp))
      ended := fun hr => by
        rcases hr with hr | hr
        · exact absurd hr (L.not_mem_made rfl (by simp))
        · exact absurd hr (L.not_mem_made rfl (by simp))
      once := fun hr => absurd hr.1 (L.not_mem_made rfl (by simp)) }

end Opens

/-- A conversation the peer opened. -/
theorem Local.opened {f : LinkFrame} {first : Item} {tx : Option ℕ} (L : Local e u l) (O : Opens e l l' f first tx) :
    Local e (u ++ [.taken f, .handed l.made f.id]) l' := by
  have hmade : l'.conversations l.made =
      some { number := some f.id, queue := [first], finished := false, held := true } := by
    rw [O.conversations, if_pos rfl]
  have B := O.beside L
  refine L.beside _ B (O.next ▸ L.parity) (by simp) (fun f' hf' => ?taken) (fun h id hh => ?handed)
    (fun c id hc hid h c' _ hc' hid' => ?apart) (fun id r hr => ?routes) (fun h item hr => ?reader) fun c hc => ?fits
  case taken =>
    rcases List.mem_pair.mp hf' with heq | heq
    · obtain rfl := Happening.taken.inj heq
      exact O.used
    · cases heq
  case handed =>
    rcases List.mem_pair.mp hh with heq | heq
    · cases heq
    · obtain ⟨rfl, rfl⟩ := Happening.handed.inj heq
      exact ⟨O.peer, ⟨_, hmade, rfl⟩, f, by simp, rfl, O.kind⟩
  case apart =>
    rw [hmade] at hc
    obtain rfl := Option.some.inj hc
    obtain rfl := Option.some.inj hid
    exact O.unused ((L.fits h c' hc').used _ hid').2.1
  case routes =>
    rw [O.route] at hr
    split_ifs at hr with heq
    · obtain rfl := Option.some.inj hr
      subst heq
      refine ⟨O.used, fun h hh => ?_⟩
      rcases O.fed with hnone | ⟨hsome, -⟩
      · rw [hnone] at hh
        cases hh
      · rw [hsome] at hh
        obtain rfl := Option.some.inj hh
        exact ⟨_, hmade, rfl⟩
    · obtain ⟨hu, hrtx⟩ := L.routes id r hr
      exact ⟨hu.mono B.next B.high, fun h hh => B.numbered (hrtx h hh)⟩
  case reader =>
    rw [O.reader] at hr
    cases hr
  case fits =>
    rw [hmade] at hc
    obtain rfl := Option.some.inj hc
    exact O.fits L

/-- A frame for a number no queue is fed by. -/
theorem Local.took_unfed {f : LinkFrame} (queued : List LinkFrame) (L : Local e u l) (hrecv : l.reader = .receiving)
    (hunfed : ∀ h, ¬ l.Feeds f.id h) (hl : l' = { l with peerHigh := l'.peerHigh, out := l'.out })
    (hhigh : l.peerHigh ≤ l'.peerHigh) (hused : Used e l' f.id)
    (hqueued : queued = [] ∨ queued = [marker f.id .reset] ∧ f.id < 2 ^ 32 ∧ ¬ Used e l f.id) :
    Local e (u ++ .taken f :: queued.map .queued) l' := by
  have hroutes : l'.routes = l.routes := by rw [hl]
  refine L.took queued
    { idle := hrecv
      next := by rw [hl]
      high := hhigh
      made := by rw [hl]
      conversations := by rw [hl]
      used := hused
      routes := fun id r' hr' => ⟨r', hroutes ▸ hr', .inr rfl⟩
      queued := hqueued
      reader := .inl (by rw [hl]; exact hrecv)
      got := fun h c hc hid _ => ⟨?_, fun ⟨r, hr, htx⟩ => absurd ⟨r, hroutes ▸ hr, htx⟩ (hunfed h)⟩ }
  have hsame : got u l' h c = got u l h c := by
    rw [got, got, hl]
    rfl
  rw [hsame]
  exact ((L.fits h c hc).gets _ hid).trans (items_extends _ _)

/-- A route that is closed behind its last frame feeds nothing, and the others what they fed. -/
theorem closed_route {routes : Std.ExtTreeMap ℕ Route} {id : ℕ} {r : Route} (hr : routes[id]? = some r) {id' : ℕ} {r' : Route}
    (hr' : (if r.done then routes.erase id else routes.insert id { tx := none, done := r.done })[id']? = some r') :
    (id' = id → r'.tx = none) ∧ ∃ r : Route, routes[id']? = some r ∧ (r'.tx = none ∨ r'.tx = r.tx) := by
  split_ifs at hr'
  · rw [Std.ExtTreeMap.getElem?_erase] at hr'
    split_ifs at hr' with hcmp
    refine ⟨fun heq => absurd ?_ hcmp, r', hr', .inr rfl⟩
    rw [heq]
    exact Std.ReflCmp.compare_self
  · rw [Std.ExtTreeMap.getElem?_insert] at hr'
    split_ifs at hr' with hcmp
    · obtain rfl := Option.some.inj hr'
      obtain rfl := Std.LawfulEqOrd.eq_of_compare hcmp
      exact ⟨fun _ => rfl, _, hr, .inl rfl⟩
    · refine ⟨fun heq => absurd ?_ hcmp, r', hr', .inr rfl⟩
      rw [heq]
      exact Std.ReflCmp.compare_self

section Take

variable {f : LinkFrame}

/-- A conversation that its route feeds has got all that was taken for it: what the reader holds comes next. -/
theorem Local.got_next (L : Local e u l) (hrecv : l.reader = .receiving) (hc : l.conversations h = some c)
    (hid : c.number = some f.id) (hfeeds : l.Feeds f.id h) (hheld : c.held = true) (hp : l'.pending h = items [f]) :
    got u l' h c = items (takenOn u f.id ++ [f]) := by
  obtain ⟨heq, hall⟩ := (L.fits h c hc).fed _ hid hheld hfeeds
  have hbefore : l.pending h = [] := by rw [pending, hrecv]
  rw [items_append_of_frames hall, ← heq, got, got, hp, hbefore, hheld]
  simp

/-- A frame of a number whose route feeds a conversation. -/
theorem Local.take_fed (L : Local e u l) (hrecv : l.reader = .receiving) (hlt : f.id < 2 ^ 32) {done : Bool}
    (hr : l.routes[f.id]? = some { tx := some h, done }) (parity : ℕ) :
    Local e (u ++ (l.take parity f.encode).2) (l.take parity f.encode).1 := by
  obtain ⟨hused, htx⟩ := L.routes _ _ hr
  obtain ⟨c, hc, hidc⟩ := htx h rfl
  have hfeeds : l.Feeds f.id h := ⟨_, hr, rfl⟩
  have hone : ∀ h' c', l.conversations h' = some c' → c'.number = some f.id → h' = h ∧ c' = c := by
    intro h' c' hc' hid'
    have heq := L.apart h' h c' c _ hc' hc hid' hidc
    subst heq
    rw [hc] at hc'
    exact ⟨rfl, (Option.some.inj hc').symm⟩
  unfold Linked.take
  rw [readHeader_encode hlt]
  dsimp only
  unfold Linked.route
  rw [hr]
  dsimp only
  cases hkind : f.kind with
  | frame =>
    rw [if_pos rfl]
    have hpending : Linked.pending { l with reader := .delivering h (.frame f.body) } h = items [f] := by
      rw [pending]
      simp [items, hkind]
    refine L.took []
      { idle := hrecv
        next := rfl
        high := le_rfl
        made := rfl
        conversations := rfl
        used := hused
        routes := fun _ r hr => ⟨r, hr, .inr rfl⟩
        queued := .inl rfl
        reader := .inr ⟨h, _, rfl, hfeeds⟩
        got := fun h' c' hc' hid' hheld => ?_ }
    obtain ⟨rfl, rfl⟩ := hone h' c' hc' hid'
    rw [L.got_next hrecv hc hidc hfeeds hheld hpending]
    exact ⟨List.prefix_refl _, fun _ => ⟨rfl, hkind, ((L.fits _ _ hc).fed _ hidc hheld hfeeds).2⟩⟩
  | ending =>
    rw [if_neg (show Kind.ending ≠ Kind.frame by decide), if_pos rfl]
    refine L.took []
      { idle := hrecv
        next := rfl
        high := le_rfl
        made := rfl
        conversations := rfl
        used := hused
        routes := fun _ _ hr' => (closed_route hr hr').2
        queued := .inl rfl
        reader := .inr ⟨h, _, rfl, hfeeds⟩
        got := fun h' c' hc' hid' hheld => ⟨?_, fun ⟨r', hr', htx'⟩ => ?_⟩ }
    · obtain ⟨rfl, rfl⟩ := hone h' c' hc' hid'
      rw [L.got_next hrecv hc hidc hfeeds hheld (by simp [pending, items, hkind])]
    · rw [(closed_route hr hr').1 rfl] at htx'
      cases htx'
  | reset =>
    rw [if_neg (show Kind.reset ≠ Kind.frame by decide), if_neg (show Kind.reset ≠ Kind.ending by decide)]
    refine L.took []
      { idle := hrecv
        next := rfl
        high := le_rfl
        made := rfl
        conversations := rfl
        used := hused
        routes := fun _ _ hr' => (closed_route hr hr').2
        queued := .inl rfl
        reader := .inl hrecv
        got := fun h' c' hc' hid' _ => ⟨?_, fun ⟨r', hr', htx'⟩ => ?_⟩ }
    · exact ((L.fits h' c' hc').gets _ hid').trans (items_extends _ _)
    · rw [(closed_route hr hr').1 rfl] at htx'
      cases htx'

/-- A frame of a number without a route: the peer opens with it, or it is let fall. -/
theorem Local.take_unrouted (L : Local e u l) (hrecv : l.reader = .receiving) (hlt : f.id < 2 ^ 32)
    (hid : Used e l f.id ∨ f.id % 2 = e.other.parity) (hr : l.routes[f.id]? = none) :
    Local e (u ++ (l.take e.other.parity f.encode).2) (l.take e.other.parity f.encode).1 := by
  have hunfed : ∀ h, ¬ l.Feeds f.id h := by
    rintro h ⟨r, hr', -⟩
    rw [hr] at hr'
    cases hr'
  unfold Linked.take
  rw [readHeader_encode hlt]
  dsimp only
  unfold Linked.route
  rw [hr]
  dsimp only
  by_cases hknown : f.id % 2 ≠ e.other.parity ∨ f.id ≤ l.peerHigh
  · rw [if_pos hknown]
    refine L.took_unfed [] hrecv hunfed rfl le_rfl ?_ (.inl rfl)
    rcases hid with hused | hpeer
    · exact hused
    · rcases hknown with hne | hle
      · exact absurd hpeer hne
      · exact .inr ⟨hpeer, hle⟩
  rw [if_neg hknown]
  rw [not_or, not_not, not_le] at hknown
  obtain ⟨hpeer, hnew⟩ := hknown
  have hunused : ¬ Used e l f.id := by
    rintro (⟨hp, -⟩ | ⟨-, hle⟩)
    · exact parity_ne e (hp.symm.trans hpeer)
    · omega
  by_cases hreset : f.kind = .reset
  · rw [if_pos hreset]
    exact L.took_unfed [] hrecv hunfed rfl hnew.le (.inr ⟨hpeer, le_rfl⟩) (.inl rfl)
  rw [if_neg hreset]
  by_cases hfull : peerOpen ≤ l.peers e.other.parity
  · rw [if_pos hfull]
    rcases queue_spec { l with peerHigh := f.id } (marker f.id .reset) with hq | hq
    · rw [hq]
      exact L.took_unfed [] hrecv hunfed rfl hnew.le (.inr ⟨hpeer, le_rfl⟩) (.inl rfl)
    · rw [hq]
      exact L.took_unfed [marker f.id .reset] hrecv hunfed rfl hnew.le (.inr ⟨hpeer, le_rfl⟩)
        (.inr ⟨rfl, hlt, hunused⟩)
  rw [if_neg hfull]
  refine L.opened
    { idle := hrecv
      wide := hlt
      peer := hpeer
      new := hnew
      opener := ?_
      fed := ?_
      kind := hreset
      state := rfl }
  · cases hkind : f.kind with
    | reset => exact absurd hkind hreset
    | frame => simp [items, hkind]
    | ending => simp [items, hkind]
  · by_cases hframe : f.kind = .frame
    · exact .inr ⟨if_pos hframe, hframe⟩
    · exact .inl (if_neg hframe)

/-- The reader takes a frame of a number that is its end's, or the peer's. -/
theorem Local.take (L : Local e u l) (hrecv : l.reader = .receiving) (hlt : f.id < 2 ^ 32)
    (hid : Used e l f.id ∨ f.id % 2 = e.other.parity) :
    Local e (u ++ (l.take e.other.parity f.encode).2) (l.take e.other.parity f.encode).1 := by
  cases hr : l.routes[f.id]? with
  | none => exact L.take_unrouted hrecv hlt hid hr
  | some r =>
    obtain ⟨tx, done⟩ := r
    cases tx with
    | some h => exact L.take_fed hrecv hlt hr _
    | none =>
      have hunfed : ∀ h, ¬ l.Feeds f.id h := by
        rintro h ⟨r, hr', htx'⟩
        rw [hr] at hr'
        obtain rfl := Option.some.inj hr'
        cases htx'
      unfold Linked.take
      rw [readHeader_encode hlt]
      dsimp only
      unfold Linked.route
      rw [hr]
      exact L.took_unfed [] hrecv hunfed rfl le_rfl (L.routes _ _ hr).1 (.inl rfl)

end Take

theorem of_held (hh : l.held h = some c) : l.conversations h = some c ∧ c.held = true := by simpa [Linked.held] using hh

/-- A call that fails tells nothing. -/
theorem Local.failed (L : Local e u l) {x : Happening} (hx : x.handle = none ∧ x.frame = none) : Local e (u ++ [x]) l :=
  L.still rfl rfl rfl rfl (fun _ _ hr => hr) (.inl rfl) (by simpa using hx)

theorem Local.sends_call (L : Local e u l) (hc : l.conversations h = some c) (hheld : c.held = true) (frame : Bytes) :
    Local e (u ++ (l.send h c frame).2) (l.send h c frame).1 := by
  unfold Linked.send
  split_ifs
  · exact L.failed ⟨rfl, rfl⟩
  -- What a conversation with a number queues, or fails to.
  have hput : ∀ {l₁ : Linked} {c₁ : Conversation} {id : ℕ}, Local e u l₁ → l₁.conversations h = some c₁ → c₁.held = true →
      c₁.number = some id →
      Local e (u ++ ((l₁.queue { id, kind := .frame, body := frame }).2.map .queued ++
        [if (l₁.queue { id, kind := .frame, body := frame }).2 = [] then .refused h else .sent h frame]))
        (l₁.queue { id, kind := .frame, body := frame }).1 := by
    intro l₁ c₁ id L₁ hc₁ hheld₁ hid₁
    rcases queue_spec l₁ { id, kind := .frame, body := frame } with hq | hq
    · rw [hq]
      exact L₁.failed ⟨rfl, rfl⟩
    · rw [hq]
      exact L₁.send hc₁ hheld₁ hid₁ frame _
  unfold Linked.put
  split_ifs
  · exact L.failed ⟨rfl, rfl⟩
  cases hn : c.number with
  | some id => exact hput L hc hheld hn
  | none =>
    dsimp only
    by_cases hspent : 2 ^ 32 ≤ l.next + 2
    · rw [if_pos hspent]
      exact L.failed ⟨rfl, rfl⟩
    · rw [if_neg hspent]
      have hc' : (l.set h { c with number := some l.next }).conversations h = some { c with number := some l.next } := by
        rw [set_conversations, if_pos rfl]
      exact hput (L.number hc hn (by omega) rfl) hc' hheld rfl

theorem Local.recv (L : Local e u l) (hc : l.conversations h = some c) (hheld : c.held = true) :
    Local e (u ++ (l.recv h c).2) (l.recv h c).1 := by
  unfold Linked.recv
  by_cases hfin : c.finished = true
  · rw [if_pos hfin]
    exact L.readEnd_again hc hfin
  rw [if_neg hfin]
  rw [Bool.not_eq_true] at hfin
  by_cases hn : c.number = none
  · rw [if_pos hn]
    exact L.failed ⟨rfl, rfl⟩
  rw [if_neg hn]
  split
  case h_1 bytes queue hq => exact L.read hc hheld hfin hq
  case h_2 queue hq => exact L.readEnd hc hheld hfin hq
  case h_3 =>
    by_cases hfed : l.fed h = true
    · rw [if_pos hfed]
      simpa using L
    · rw [if_neg hfed]
      exact L.failed ⟨rfl, rfl⟩

theorem Local.linkEnded (L : Local e u l) (hrecv : l.reader = .receiving) : Local e (u ++ []) l.linkEnded := by
  refine L.still rfl rfl rfl rfl (fun id r hr => ?_) (.inr ⟨hrecv, rfl⟩) (by simp)
  change (∅ : Std.ExtTreeMap ℕ Route)[id]? = some r at hr
  simp at hr

/-- Whatever an end does of itself, it stays what it always is. -/
theorem Local.does (L : Local e u l) (act : Act) : Local e (u ++ (l.does act).2) (l.does act).1 := by
  have hcall : ∀ {h : ℕ} {f : Conversation → Linked × List Happening},
      (∀ c, l.conversations h = some c → c.held = true → Local e (u ++ (f c).2) (f c).1) →
      Local e (u ++ (l.call h f).2) (l.call h f).1 := by
    intro h f hf
    unfold Linked.call
    cases hh : l.held h with
    | none => simpa using L
    | some c => exact hf c (of_held hh).1 (of_held hh).2
  have hsame : Local e (u ++ []) l := by simpa using L
  cases act with
  | open_ => exact L.open_
  | send h frame => exact hcall fun c hc hheld => L.sends_call hc hheld frame
  | recv h => exact hcall fun c hc hheld => L.recv hc hheld
  | end_ h => exact hcall fun c hc hheld => L.letGo hc hheld (.inl ⟨rfl, rfl⟩)
  | drop h => exact hcall fun c hc hheld => L.letGo hc hheld (.inr ⟨rfl, rfl⟩)
  | endLink =>
    have hnone : ∀ x ∈ ([] : List Happening), x.handle = none ∧ x.frame = none := by simp
    exact L.still rfl rfl rfl rfl (fun _ _ hr => hr) (.inl rfl) hnone
  | release =>
    cases hr : l.reader with
    | receiving =>
      simp only [Linked.does, hr]
      split_ifs
      · exact L.linkEnded hr
      · exact hsame
    | _ =>
      simp only [Linked.does, hr]
      exact hsame
  | deliver =>
    have hd := L.deliver
    rw [← List.append_nil u] at hd
    exact hd
  | lost =>
    cases hr : l.reader with
    | receiving =>
      simp only [Linked.does, hr]
      exact L.linkEnded hr
    | _ =>
      simp only [Linked.does, hr]
      exact hsame
  | write _ => exact hsame
  | read => exact hsame

theorem Local.write (L : Local e u l) (ok : Bool) : Local e u (l.write ok).1 := by
  have hstill : ∀ {l' : Linked}, l' = { l with out := l'.out, writer := l'.writer } → Local e u l' := by
    intro l' hl
    have h : Local e (u ++ []) l' := L.still (by rw [hl]) (by rw [hl]) (by rw [hl]) (by rw [hl])
      (fun id r hr => by rw [hl] at hr; exact hr) (.inl (by rw [hl])) (by simp)
    rwa [List.append_nil] at h
  unfold Linked.write
  split
  · split_ifs
    · exact hstill rfl
    · exact hstill rfl
  all_goals exact hstill rfl

end Frame

end Glade.Node.Conversations
