import Glade.Node.Exchange

/-! Every call is answered once, to its own caller. The provider's answer, a
session's end and the call's bound each take the one entry filed for it, under a
correlation used for no other call; whoever takes it owes its caller the one
answer, and while it is filed its bound still runs. -/

namespace Glade.Node.Exchange

open Wire

/-! ### Correlations -/

theorem Pending.name_injective : Function.Injective Pending.name := by
  intro a b h
  have hrepr : toString a = toString b := by
    have := congrArg String.toList h
    simp only [Pending.name, String.toList_append, List.append_cancel_left_eq] at this
    exact String.toList_inj.mp this
  have hdigits := congrArg String.toList hrepr
  rw [Nat.toString_eq_repr, Nat.toString_eq_repr, Nat.toList_repr, Nat.toList_repr] at hdigits
  rw [← Nat.ofDigitChars_ten_toDigits (n := a), hdigits, Nat.ofDigitChars_ten_toDigits]

/-! ### Counting -/

def Task.tells (m : String) : Task → Bool
  | .tell (some k) _ _ => k = m
  | _ => false

def Task.hands (m : String) : Task → Bool
  | .hand _ k _ => k = m
  | _ => false

/-- Whether a task will yet look at whether `m`'s bound has passed. -/
def Task.bounds (m : String) : Task → Bool
  | .hand _ k _ => k = m
  | .bound k => k = m
  | _ => false

def Happening.tells (m : String) : Happening → Bool
  | .told (some k) _ _ => k = m
  | _ => false

def Happening.hands (m : String) : Happening → Bool
  | .handed k _ _ => k = m
  | _ => false

def Happening.name? : Happening → Option String
  | .filed m _ => some m
  | _ => none

theorem countP_erase_add {α : Type*} [DecidableEq α] {xs : List α} {x : α} (h : x ∈ xs) (p : α → Bool) :
    xs.countP p = (xs.erase x).countP p + if p x then 1 else 0 := by
  rw [(List.perm_cons_erase h).countP_eq, List.countP_cons]

theorem countP_append_none {α : Type*} {xs ys : List α} {p : α → Bool} (h : ∀ y ∈ ys, p y = false) :
    (xs ++ ys).countP p = xs.countP p := by
  have hnone : ys.countP p = 0 := List.countP_eq_zero.mpr fun y hy => by simp [h y hy]
  rw [List.countP_append, hnone, Nat.add_zero]

theorem filed_append {t xs : List Happening} (h : ∀ x ∈ xs, x.name? = none) {m : String} {call : Call} :
    .filed m call ∈ t ++ xs ↔ .filed m call ∈ t := by
  rw [List.mem_append, or_iff_left]
  intro hx
  cases h _ hx

theorem names_append {t xs : List Happening} (h : ∀ x ∈ xs, x.name? = none) :
    (t ++ xs).filterMap Happening.name? = t.filterMap Happening.name? := by
  rw [List.filterMap_append, List.filterMap_eq_nil_iff.mpr h, List.append_nil]

/-! ### The account of one call -/

/-- What an answer to a call may say: what its provider said, that its provider
left, or that it was too late. -/
def Answers (events : List Event) (m : String) (call : Call) (res : ExchangeRes) : Prop :=
  res = providerLeft call.corr ∨ res = timedOut call.corr ∨
    ∃ given : ExchangeRes, .respond call.provider given ∈ events ∧ given.corr = m ∧ res = { given with corr := call.corr }

/-- Where a filed call stands: filed, with its bound to come; taken, with its one
answer owed; answered; or, its caller's session ended, forgotten. -/
inductive Stands (s : Shared) (t : List Happening) (m : String) (call : Call) : Prop where
  | filed (hentry : s.pending.calls[m]? = some call) (howed : s.tasks.countP (Task.tells m) = 0)
      (htold : t.countP (Happening.tells m) = 0) (hbound : ∃ task ∈ s.tasks, task.bounds m = true)
  | taken (hentry : s.pending.calls[m]? = none) (howed : s.tasks.countP (Task.tells m) = 1)
      (htold : t.countP (Happening.tells m) = 0)
  | answered (hentry : s.pending.calls[m]? = none) (howed : s.tasks.countP (Task.tells m) = 0)
      (htold : t.countP (Happening.tells m) = 1)
  | forgotten (hentry : s.pending.calls[m]? = none) (howed : s.tasks.countP (Task.tells m) = 0)
      (htold : t.countP (Happening.tells m) = 0) (hended : call.caller ∉ s.out)

theorem Answers.mono {events events' : List Event} {m : String} {call : Call} {res : ExchangeRes} (h : Answers events m call res)
    (hevents : events ⊆ events') : Answers events' m call res := by
  rcases h with hres | hres | ⟨given, hgiven, hcorr, hres⟩
  · exact .inl hres
  · exact .inr (.inl hres)
  · exact .inr (.inr ⟨given, hevents hgiven, hcorr, hres⟩)

/-- A call stands where it stood, its entry and what it is owed and was told being the same. -/
theorem Stands.of_eq {s s' : Shared} {t t' : List Happening} {m : String} {call : Call} (h : Stands s t m call)
    (hentry : s'.pending.calls[m]? = s.pending.calls[m]?)
    (howed : s'.tasks.countP (Task.tells m) = s.tasks.countP (Task.tells m))
    (htold : t'.countP (Happening.tells m) = t.countP (Happening.tells m))
    (hbound : s.pending.calls[m]? = some call → (∃ task ∈ s.tasks, task.bounds m = true) → ∃ task ∈ s'.tasks, task.bounds m = true)
    (hended : call.caller ∉ s.out → call.caller ∉ s'.out) : Stands s' t' m call := by
  cases h with
  | filed hfiled hnone hnot hruns =>
    exact .filed (hentry.trans hfiled) (howed.trans hnone) (htold.trans hnot) (hbound hfiled hruns)
  | taken hgone hone hnot => exact .taken (hentry.trans hgone) (howed.trans hone) (htold.trans hnot)
  | answered hgone hnone hone => exact .answered (hentry.trans hgone) (howed.trans hnone) (htold.trans hone)
  | forgotten hgone hnone hnot hout =>
    exact .forgotten (hentry.trans hgone) (howed.trans hnone) (htold.trans hnot) (hended hout)

/-- The hand-over of a filed call: to come, done, or lost with its provider. -/
def HandedOver (s : Shared) (t : List Happening) (m : String) (call : Call) : Prop :=
  s.tasks.countP (Task.hands m) + t.countP (Happening.hands m) ≤ 1 ∧
    (s.tasks.countP (Task.hands m) + t.countP (Happening.hands m) = 1 ∨ call.provider ∉ s.out)

/-- What holds of every run: of its correlations, of what its tasks carry and its
sessions were told, and of each call filed. -/
structure Inv (events : List Event) (s : Shared) (t : List Happening) : Prop where
  out_lt : ∀ sid ∈ s.out, sid < s.next
  providers_lt : ∀ (surface : String × String) (sid : SessionId), s.providers[surface]? = some sid → sid < s.next
  ending : ∀ sid stage, (sid, stage) ∈ s.ending → sid ∉ s.out ∧ sid < s.next
  named : ∀ m call, .filed m call ∈ t → ∃ n ≤ s.pending.minted, m = Pending.name n
  nodup : (t.filterMap Happening.name?).Nodup
  sessions : ∀ m call, .filed m call ∈ t → call.caller < s.next ∧ call.provider < s.next
  entries : ∀ (m : String) (call : Call), s.pending.calls[m]? = some call →
    .filed m call ∈ t ∧ (call.caller ∈ s.out ∨ ∃ stage, (call.caller, stage) ∈ s.ending)
  owed : ∀ m to_ res, .tell (some m) to_ res ∈ s.tasks ∨ .told (some m) to_ res ∈ t →
    ∃ call, .filed m call ∈ t ∧ to_ = call.caller ∧ Answers events m call res
  hands : ∀ m to_ req, .hand to_ m req ∈ s.tasks ∨ .handed m to_ req ∈ t →
    ∃ call, .filed m call ∈ t ∧ to_ = call.provider ∧ req.corr = m
  stands : ∀ m call, .filed m call ∈ t → Stands s t m call
  handedOver : ∀ m call, .filed m call ∈ t → HandedOver s t m call

/-! ### Steps that leave every call as it was -/

/-- A step that takes no entry and owes, hands and files nothing. -/
structure Quiet (s s' : Shared) (xs : List Happening) : Prop where
  pending : s'.pending = s.pending
  next : s.next ≤ s'.next
  out_lt : ∀ sid ∈ s'.out, sid < s'.next
  providers_lt : ∀ (surface : String × String) (sid : SessionId), s'.providers[surface]? = some sid → sid < s'.next
  ending : ∀ sid stage, (sid, stage) ∈ s'.ending → sid ∉ s'.out ∧ sid < s'.next
  left : ∀ sid < s.next, sid ∉ s.out → sid ∉ s'.out
  held : ∀ sid, (sid ∈ s.out ∨ ∃ stage, (sid, stage) ∈ s.ending) → sid ∈ s'.out ∨ ∃ stage, (sid, stage) ∈ s'.ending
  tells : ∀ m, s'.tasks.countP (Task.tells m) = s.tasks.countP (Task.tells m)
  hands : ∀ m, s'.tasks.countP (Task.hands m) = s.tasks.countP (Task.hands m)
  owed : ∀ m to_ res, .tell (some m) to_ res ∈ s'.tasks → .tell (some m) to_ res ∈ s.tasks
  handing : ∀ m to_ req, .hand to_ m req ∈ s'.tasks → .hand to_ m req ∈ s.tasks
  bounds : ∀ (m : String) (call : Call), s.pending.calls[m]? = some call → (∃ task ∈ s.tasks, task.bounds m = true) →
    ∃ task ∈ s'.tasks, task.bounds m = true
  idle : ∀ x ∈ xs, ∃ to_ res, x = .told none to_ res

namespace Inv

variable {events : List Event} {s s' : Shared} {t xs : List Happening}

theorem countP_idle (hidle : ∀ x ∈ xs, ∃ to_ res, x = .told none to_ res) (m : String) :
    (t ++ xs).countP (Happening.tells m) = t.countP (Happening.tells m) ∧
      (t ++ xs).countP (Happening.hands m) = t.countP (Happening.hands m) := by
  constructor <;> apply countP_append_none <;> intro x hx <;> obtain ⟨to_, res, rfl⟩ := hidle x hx <;> rfl

theorem quiet (h : Inv events s t) (q : Quiet s s' xs) {events' : List Event} (hevents : events ⊆ events') :
    Inv events' s' (t ++ xs) := by
  have hunnamed : ∀ x ∈ xs, x.name? = none := by
    intro x hx
    obtain ⟨to_, res, rfl⟩ := q.idle x hx
    rfl
  have hfiled : ∀ m call, .filed m call ∈ t ++ xs ↔ .filed m call ∈ t := fun m call => filed_append hunnamed
  have hcount := countP_idle (t := t) q.idle
  exact
    { out_lt := q.out_lt
      providers_lt := q.providers_lt
      ending := q.ending
      named := fun m call hm => by
        rw [q.pending]
        exact h.named m call ((hfiled m call).mp hm)
      nodup := by
        rw [names_append hunnamed]
        exact h.nodup
      sessions := fun m call hm =>
        have hs := h.sessions m call ((hfiled m call).mp hm)
        ⟨hs.1.trans_le q.next, hs.2.trans_le q.next⟩
      entries := fun m call hentry => by
        rw [q.pending] at hentry
        exact ⟨(hfiled m call).mpr (h.entries m call hentry).1, q.held _ (h.entries m call hentry).2⟩
      owed := fun m to_ res hmem => by
        have hold : .tell (some m) to_ res ∈ s.tasks ∨ .told (some m) to_ res ∈ t := by
          rcases hmem with hmem | hmem
          · exact .inl (q.owed m to_ res hmem)
          · rcases List.mem_append.mp hmem with hmem | hmem
            · exact .inr hmem
            · obtain ⟨_, _, heq⟩ := q.idle _ hmem
              cases heq
        obtain ⟨call, hcall, hto, hres⟩ := h.owed m to_ res hold
        exact ⟨call, (hfiled m call).mpr hcall, hto, hres.mono hevents⟩
      hands := fun m to_ req hmem => by
        have hold : .hand to_ m req ∈ s.tasks ∨ .handed m to_ req ∈ t := by
          rcases hmem with hmem | hmem
          · exact .inl (q.handing m to_ req hmem)
          · rcases List.mem_append.mp hmem with hmem | hmem
            · exact .inr hmem
            · obtain ⟨_, _, heq⟩ := q.idle _ hmem
              cases heq
        obtain ⟨call, hcall, hto, hcorr⟩ := h.hands m to_ req hold
        exact ⟨call, (hfiled m call).mpr hcall, hto, hcorr⟩
      stands := fun m call hm => by
        have hm := (hfiled m call).mp hm
        exact (h.stands m call hm).of_eq (by rw [q.pending]) (q.tells m) (hcount m).1 (q.bounds m call)
          (q.left _ (h.sessions m call hm).1)
      handedOver := fun m call hm => by
        have hm := (hfiled m call).mp hm
        obtain ⟨hone, hover⟩ := h.handedOver m call hm
        refine ⟨by rw [q.hands, (hcount m).2]; exact hone, ?_⟩
        rw [q.hands, (hcount m).2]
        exact hover.imp_right (q.left _ (h.sessions m call hm).2) }

theorem more (h : Inv events s t) {events' : List Event} (hevents : events ⊆ events') : Inv events' s t := by
  have q : Quiet s s [] :=
    { pending := rfl
      next := le_rfl
      out_lt := h.out_lt
      providers_lt := h.providers_lt
      ending := h.ending
      left := fun _ _ hsid => hsid
      held := fun _ hsid => hsid
      tells := fun _ => rfl
      hands := fun _ => rfl
      owed := fun _ _ _ hin => hin
      handing := fun _ _ _ hin => hin
      bounds := fun _ _ _ hbound => hbound
      idle := fun x hx => by cases hx }
  simpa using h.quiet q hevents

/-! ### Tasks of no call -/

theorem added (h : Inv events s t) (task : Task) (htells : ∀ m, task.tells m = false) (hhands : ∀ m, task.hands m = false) :
    Inv events { s with tasks := task :: s.tasks } t := by
  have q : Quiet s { s with tasks := task :: s.tasks } [] :=
    { pending := rfl
      next := le_rfl
      out_lt := h.out_lt
      providers_lt := h.providers_lt
      ending := h.ending
      left := fun _ _ hsid => hsid
      held := fun _ hsid => hsid
      tells := fun m => List.countP_cons_of_neg (by simp [htells m])
      hands := fun m => List.countP_cons_of_neg (by simp [hhands m])
      owed := fun m to_ res hmem => by
        refine (List.mem_cons.mp hmem).resolve_left fun heq => ?_
        have := htells m
        rw [← heq] at this
        simp [Task.tells] at this
      handing := fun m to_ req hmem => by
        refine (List.mem_cons.mp hmem).resolve_left fun heq => ?_
        have := hhands m
        rw [← heq] at this
        simp [Task.hands] at this
      bounds := fun m call _ hbound => by
        obtain ⟨task', hmem, hb⟩ := hbound
        exact ⟨task', List.mem_cons_of_mem _ hmem, hb⟩
      idle := fun x hx => by cases hx }
  simpa using h.quiet q (List.Subset.refl events)

/-- A task is done with that answers and hands over nothing, and is no entry's bound. -/
theorem dropped (h : Inv events s t) {task : Task} (hmem : task ∈ s.tasks) (htells : ∀ m, task.tells m = false)
    (hhands : ∀ m, task.hands m = false) (hbounds : ∀ m, task.bounds m = true → s.pending.calls[m]? = none)
    (hidle : ∀ x ∈ xs, ∃ to_ res, x = .told none to_ res) :
    Inv events { s with tasks := s.tasks.erase task } (t ++ xs) := by
  have q : Quiet s { s with tasks := s.tasks.erase task } xs :=
    { pending := rfl
      next := le_rfl
      out_lt := h.out_lt
      providers_lt := h.providers_lt
      ending := h.ending
      left := fun _ _ hsid => hsid
      held := fun _ hsid => hsid
      tells := fun m => by
        rw [countP_erase_add hmem (Task.tells m), htells m]
        simp
      hands := fun m => by
        rw [countP_erase_add hmem (Task.hands m), hhands m]
        simp
      owed := fun _ _ _ hin => List.mem_of_mem_erase hin
      handing := fun _ _ _ hin => List.mem_of_mem_erase hin
      bounds := fun m call hentry hbound => by
        obtain ⟨task', hin, hb⟩ := hbound
        refine ⟨task', (List.mem_erase_of_ne ?_).mpr hin, hb⟩
        rintro rfl
        rw [hbounds m hb] at hentry
        cases hentry
      idle := hidle }
  exact h.quiet q (List.Subset.refl events)

/-! ### Filing, taking, handing over and telling -/

theorem tells_eq {task : Task} {m : String} (h : task.tells m = true) : ∃ to_ res, task = .tell (some m) to_ res := by
  cases task with
  | tell minted to_ res =>
    cases minted with
    | none => cases h
    | some k => exact ⟨to_, res, by rw [of_decide_eq_true h]⟩
  | _ => cases h

theorem hands_eq {task : Task} {m : String} (h : task.hands m = true) : ∃ to_ req, task = .hand to_ m req := by
  cases task with
  | hand to_ k req => exact ⟨to_, req, by rw [of_decide_eq_true h]⟩
  | _ => cases h

theorem told_eq {x : Happening} {m : String} (h : x.tells m = true) : ∃ to_ res, x = .told (some m) to_ res := by
  cases x with
  | told minted to_ res =>
    cases minted with
    | none => cases h
    | some k => exact ⟨to_, res, by rw [of_decide_eq_true h]⟩
  | _ => cases h

theorem handed_eq {x : Happening} {m : String} (h : x.hands m = true) : ∃ to_ req, x = .handed m to_ req := by
  cases x with
  | handed k to_ req => exact ⟨to_, req, by rw [of_decide_eq_true h]⟩
  | _ => cases h

/-- Nothing is owed, handed or told under a name no call has. -/
theorem unused (h : Inv events s t) {m : String} (hm : ∀ call, .filed m call ∉ t) :
    s.tasks.countP (Task.tells m) = 0 ∧ s.tasks.countP (Task.hands m) = 0 ∧
      t.countP (Happening.tells m) = 0 ∧ t.countP (Happening.hands m) = 0 := by
  refine ⟨?_, ?_, ?_, ?_⟩ <;> rw [List.countP_eq_zero] <;> intro x hx hp
  · obtain ⟨to_, res, rfl⟩ := tells_eq hp
    obtain ⟨call, hcall, -⟩ := h.owed m to_ res (.inl hx)
    exact hm call hcall
  · obtain ⟨to_, req, rfl⟩ := hands_eq hp
    obtain ⟨call, hcall, -⟩ := h.hands m to_ req (.inl hx)
    exact hm call hcall
  · obtain ⟨to_, res, rfl⟩ := told_eq hp
    obtain ⟨call, hcall, -⟩ := h.owed m to_ res (.inr hx)
    exact hm call hcall
  · obtain ⟨to_, req, rfl⟩ := handed_eq hp
    obtain ⟨call, hcall, -⟩ := h.hands m to_ req (.inr hx)
    exact hm call hcall

/-- A correlation names one call. -/
theorem call_eq (h : Inv events s t) {m : String} {call call' : Call} (hm : .filed m call ∈ t) (hm' : .filed m call' ∈ t) :
    call = call' := by
  have hnodup := h.nodup
  clear h
  induction t with
  | nil => cases hm
  | cons x t ih =>
    have hname : ∀ call, .filed m call ∈ t → m ∈ t.filterMap Happening.name? := fun call hc =>
      List.mem_filterMap.mpr ⟨_, hc, rfl⟩
    have htail : (t.filterMap Happening.name?).Nodup := hnodup.sublist ((List.sublist_cons_self x t).filterMap _)
    rcases List.mem_cons.mp hm with rfl | hmem <;> rcases List.mem_cons.mp hm' with heq | hmem'
    · cases heq
      rfl
    · exact absurd (hname _ hmem') (List.nodup_cons.mp hnodup).1
    · subst heq
      exact absurd (hname _ hmem) (List.nodup_cons.mp hnodup).1
    · exact ih hmem hmem' htail

/-- A call is filed under a name no call has had. -/
theorem file (h : Inv events s t) {call : Call} {minted : String} {pending : Pending} {req : ExchangeReq}
    (hfile : s.pending.file call = some (minted, pending)) (hcaller : call.caller ∈ s.out) (hprovider : call.provider < s.next)
    (hreq : req.corr = minted) :
    Inv events { s with pending, tasks := .hand call.provider minted req :: s.tasks } (t ++ [.filed minted call]) := by
  rw [Pending.file] at hfile
  split at hfile
  case isFalse => cases hfile
  obtain ⟨rfl, rfl⟩ := Prod.mk.inj (Option.some.inj hfile)
  set minted := Pending.name (s.pending.minted + 1) with hminted
  have hnew : ∀ call, .filed minted call ∉ t := by
    intro call' hc
    obtain ⟨n, hn, heq⟩ := h.named minted call' hc
    have := Pending.name_injective (hminted.symm.trans heq)
    omega
  obtain ⟨htells, hhands, htold, hhanded⟩ := h.unused hnew
  have hfiled : ∀ m call', .filed m call' ∈ t ++ [.filed minted call] ↔ .filed m call' ∈ t ∨ (m = minted ∧ call' = call) := by
    intro m call'
    simp
  have hlookup : ∀ m, m ≠ minted → (s.pending.calls.insert minted call)[m]? = s.pending.calls[m]? := by
    intro m hm
    rw [Std.ExtTreeMap.getElem?_insert, if_neg]
    rw [Std.LawfulEqOrd.compare_eq_iff_eq]
    exact Ne.symm hm
  have hne : ∀ {m call'}, .filed m call' ∈ t → m ≠ minted := fun hm heq => hnew _ (heq ▸ hm)
  have hhand : ∀ m, m ≠ minted → Task.hands m (.hand call.provider minted req) = false := by
    intro m hm
    exact decide_eq_false (Ne.symm hm)
  exact
    { out_lt := h.out_lt
      providers_lt := h.providers_lt
      ending := h.ending
      named := fun m call' hm => by
        rcases (hfiled m call').mp hm with hm | ⟨rfl, -⟩
        · obtain ⟨n, hn, heq⟩ := h.named m call' hm
          exact ⟨n, hn.trans (Nat.le_succ _), heq⟩
        · exact ⟨_, le_rfl, rfl⟩
      nodup := by
        rw [List.filterMap_append]
        refine List.nodup_append.mpr ⟨h.nodup, by simp [Happening.name?], ?_⟩
        intro m hm m' hm'
        obtain ⟨x, hx, hname⟩ := List.mem_filterMap.mp hm
        obtain rfl : m' = minted := by simpa [Happening.name?] using hm'
        cases x with
        | filed k call' =>
          obtain rfl := Option.some.inj hname
          exact hne hx
        | _ => cases hname
      sessions := fun m call' hm => by
        rcases (hfiled m call').mp hm with hm | ⟨-, rfl⟩
        · exact h.sessions m call' hm
        · exact ⟨h.out_lt _ hcaller, hprovider⟩
      entries := fun m call' hentry => by
        by_cases hm : m = minted
        · subst hm
          have hentry : (s.pending.calls.insert minted call)[minted]? = some call' := hentry
          rw [Std.ExtTreeMap.getElem?_insert_self] at hentry
          obtain rfl := Option.some.inj hentry
          exact ⟨(hfiled _ _).mpr (.inr ⟨rfl, rfl⟩), .inl hcaller⟩
        · have hold := h.entries m call' ((hlookup m hm).symm.trans hentry)
          exact ⟨(hfiled _ _).mpr (.inl hold.1), hold.2⟩
      owed := fun m to_ res hmem => by
        obtain ⟨call', hcall, hrest⟩ := h.owed m to_ res (by simpa using hmem)
        exact ⟨call', (hfiled _ _).mpr (.inl hcall), hrest⟩
      hands := fun m to_ req' hmem => by
        rcases hmem with hmem | hmem
        · rcases List.mem_cons.mp hmem with heq | hmem
          · cases heq
            exact ⟨call, (hfiled _ _).mpr (.inr ⟨rfl, rfl⟩), rfl, hreq⟩
          · obtain ⟨call', hcall, hrest⟩ := h.hands m to_ req' (.inl hmem)
            exact ⟨call', (hfiled _ _).mpr (.inl hcall), hrest⟩
        · obtain ⟨call', hcall, hrest⟩ := h.hands m to_ req' (.inr (by simpa using hmem))
          exact ⟨call', (hfiled _ _).mpr (.inl hcall), hrest⟩
      stands := fun m call' hm => by
        rcases (hfiled m call').mp hm with hm | ⟨rfl, rfl⟩
        · have htells' : (Task.hand call.provider minted req :: s.tasks).countP (Task.tells m) = s.tasks.countP (Task.tells m) :=
            List.countP_cons_of_neg (by simp [Task.tells])
          have htold' : (t ++ [Happening.filed minted call]).countP (Happening.tells m) = t.countP (Happening.tells m) := by
            simp [List.countP_append, Happening.tells]
          refine (h.stands m call' hm).of_eq (hlookup m (hne hm)) htells' htold' (fun _ hbound => ?_) id
          obtain ⟨task, hmem, hb⟩ := hbound
          exact ⟨task, List.mem_cons_of_mem _ hmem, hb⟩
        · refine .filed Std.ExtTreeMap.getElem?_insert_self ?_ ?_ ⟨_, List.mem_cons_self, decide_eq_true rfl⟩
          · exact (List.countP_cons_of_neg (by simp [Task.tells])).trans htells
          · rw [List.countP_append, htold]
            rfl
      handedOver := fun m call' hm => by
        have hhanded' : (t ++ [Happening.filed minted call]).countP (Happening.hands m) = t.countP (Happening.hands m) := by
          simp [List.countP_append, Happening.hands]
        unfold HandedOver
        rw [hhanded']
        rcases (hfiled m call').mp hm with hm | ⟨rfl, rfl⟩
        · have hhands' : (Task.hand call.provider minted req :: s.tasks).countP (Task.hands m) = s.tasks.countP (Task.hands m) :=
            List.countP_cons_of_neg (by simp [hhand m (hne hm)])
          dsimp only
          rw [hhands']
          exact h.handedOver m call' hm
        · dsimp only
          rw [List.countP_cons, hhands, hhanded, if_pos (show Task.hands minted (.hand call'.provider minted req) = true from
            decide_eq_true rfl)]
          exact ⟨le_rfl, .inl rfl⟩ }

/-- The one who takes a call's entry owes its answer. -/
theorem take (h : Inv events s t) {m : String} {call : Call} {res : ExchangeRes} (hentry : s.pending.calls[m]? = some call)
    {events' : List Event} (hevents : events ⊆ events') (hres : Answers events' m call res) :
    Inv events' { s with
      pending := { s.pending with calls := s.pending.calls.erase m }
      tasks := .tell (some m) call.caller res :: s.tasks } t := by
  have hfiled := (h.entries m call hentry).1
  have hlookup : ∀ k, k ≠ m → (s.pending.calls.erase m)[k]? = s.pending.calls[k]? := by
    intro k hk
    rw [Std.ExtTreeMap.getElem?_erase, if_neg]
    rw [Std.LawfulEqOrd.compare_eq_iff_eq]
    exact Ne.symm hk
  have hgone : (s.pending.calls.erase m)[m]? = none := Std.ExtTreeMap.getElem?_erase_self
  have hold : ∀ (k : String) (call' : Call), (s.pending.calls.erase m)[k]? = some call' → s.pending.calls[k]? = some call' := by
    intro k call' hk
    by_cases hkm : k = m
    · rw [hkm, hgone] at hk
      cases hk
    · rwa [hlookup k hkm] at hk
  exact
    { out_lt := h.out_lt
      providers_lt := h.providers_lt
      ending := h.ending
      named := h.named
      nodup := h.nodup
      sessions := h.sessions
      entries := fun k call' hk => h.entries k call' (hold k call' hk)
      owed := fun k to_ res' hmem => by
        rcases hmem with hmem | hmem
        · rcases List.mem_cons.mp hmem with heq | hmem
          · cases heq
            exact ⟨call, hfiled, rfl, hres⟩
          · obtain ⟨call', hcall, hto, hans⟩ := h.owed k to_ res' (.inl hmem)
            exact ⟨call', hcall, hto, hans.mono hevents⟩
        · obtain ⟨call', hcall, hto, hans⟩ := h.owed k to_ res' (.inr hmem)
          exact ⟨call', hcall, hto, hans.mono hevents⟩
      hands := fun k to_ req hmem => h.hands k to_ req (hmem.imp_left fun hmem => by simpa using hmem)
      stands := fun k call' hk => by
        by_cases hkm : k = m
        · subst hkm
          cases h.stands k call' hk with
          | filed _ howed htold _ =>
            refine .taken hgone ?_ htold
            change (Task.tell (some k) call.caller res :: s.tasks).countP (Task.tells k) = 1
            rw [List.countP_cons_of_pos (by simp [Task.tells]), howed]
          | taken hnone _ _ => rw [hentry] at hnone; cases hnone
          | answered hnone _ _ => rw [hentry] at hnone; cases hnone
          | forgotten hnone _ _ _ => rw [hentry] at hnone; cases hnone
        · have htells : (Task.tell (some m) call.caller res :: s.tasks).countP (Task.tells k) = s.tasks.countP (Task.tells k) :=
            List.countP_cons_of_neg (by simp [Task.tells, Ne.symm hkm])
          refine (h.stands k call' hk).of_eq (hlookup k hkm) htells rfl (fun _ hbound => ?_) id
          obtain ⟨task, hmem, hb⟩ := hbound
          exact ⟨task, List.mem_cons_of_mem _ hmem, hb⟩
      handedOver := fun k call' hk => by
        have hhands : (Task.tell (some m) call.caller res :: s.tasks).countP (Task.hands k) = s.tasks.countP (Task.hands k) :=
          List.countP_cons_of_neg (by simp [Task.hands])
        unfold HandedOver
        dsimp only
        rw [hhands]
        exact h.handedOver k call' hk }

/-- A call handed over has its bound run from then on. -/
theorem handOver (h : Inv events s t) {provider : SessionId} {m : String} {req : ExchangeReq}
    (hmem : .hand provider m req ∈ s.tasks) :
    Inv events { s with tasks := .bound m :: s.tasks.erase (.hand provider m req) }
      (t ++ if provider ∈ s.out then [.handed m provider req] else []) := by
  obtain ⟨call, hcall, hprovider, hcorr⟩ := h.hands m provider req (.inl hmem)
  set xs : List Happening := if provider ∈ s.out then [.handed m provider req] else [] with hxs
  have hall : ∀ x ∈ xs, x = .handed m provider req := fun x hx => List.mem_singleton.mp (List.mem_ite_nil_right.mp hx).2
  have hunnamed : ∀ x ∈ xs, x.name? = none := fun x hx => by rw [hall x hx]; rfl
  have hfiled : ∀ k call', .filed k call' ∈ t ++ xs ↔ .filed k call' ∈ t := fun k call' => filed_append hunnamed
  have htold : ∀ k, (t ++ xs).countP (Happening.tells k) = t.countP (Happening.tells k) := fun k =>
    countP_append_none fun x hx => by rw [hall x hx]; rfl
  have htells : ∀ k, (Task.bound m :: s.tasks.erase (.hand provider m req)).countP (Task.tells k) =
    s.tasks.countP (Task.tells k) := by
    intro k
    rw [List.countP_cons_of_neg (by simp [Task.tells]), countP_erase_add hmem]
    simp [Task.tells]
  have hbounds : ∀ k, (∃ task ∈ s.tasks, task.bounds k = true) →
      ∃ task ∈ Task.bound m :: s.tasks.erase (.hand provider m req), task.bounds k = true := by
    rintro k ⟨task, htask, hb⟩
    by_cases heq : task = .hand provider m req
    · subst heq
      exact ⟨.bound m, List.mem_cons_self, hb⟩
    · exact ⟨task, List.mem_cons_of_mem _ ((List.mem_erase_of_ne heq).mpr htask), hb⟩
  exact
    { out_lt := h.out_lt
      providers_lt := h.providers_lt
      ending := h.ending
      named := fun k call' hk => h.named k call' ((hfiled k call').mp hk)
      nodup := by
        rw [names_append hunnamed]
        exact h.nodup
      sessions := fun k call' hk => h.sessions k call' ((hfiled k call').mp hk)
      entries := fun k call' hk => (h.entries k call' hk).imp_left (hfiled k call').mpr
      owed := fun k to_ res hk => by
        have hold : .tell (some k) to_ res ∈ s.tasks ∨ .told (some k) to_ res ∈ t := by
          rcases hk with hk | hk
          · exact .inl (List.mem_of_mem_erase ((List.mem_cons.mp hk).resolve_left (by simp)))
          · rcases List.mem_append.mp hk with hk | hk
            · exact .inr hk
            · cases hall _ hk
        obtain ⟨call', hcall', hrest⟩ := h.owed k to_ res hold
        exact ⟨call', (hfiled k call').mpr hcall', hrest⟩
      hands := fun k to_ req' hk => by
        have hold : .hand to_ k req' ∈ s.tasks ∨ .handed k to_ req' ∈ t := by
          rcases hk with hk | hk
          · exact .inl (List.mem_of_mem_erase ((List.mem_cons.mp hk).resolve_left (by simp)))
          · rcases List.mem_append.mp hk with hk | hk
            · exact .inr hk
            · cases hall _ hk
              exact .inl hmem
        obtain ⟨call', hcall', hrest⟩ := h.hands k to_ req' hold
        exact ⟨call', (hfiled k call').mpr hcall', hrest⟩
      stands := fun k call' hk =>
        (h.stands k call' ((hfiled k call').mp hk)).of_eq rfl (htells k) (htold k) (fun _ => hbounds k) id
      handedOver := fun k call' hk => by
        have hkt := (hfiled k call').mp hk
        obtain ⟨hone, hover⟩ := h.handedOver k call' hkt
        have herase := countP_erase_add hmem (Task.hands k)
        have hcons : (Task.bound m :: s.tasks.erase (.hand provider m req)).countP (Task.hands k) =
            (s.tasks.erase (.hand provider m req)).countP (Task.hands k) := List.countP_cons_of_neg (by simp [Task.hands])
        unfold HandedOver
        dsimp only
        rw [hcons, List.countP_append]
        by_cases hkm : k = m
        · subst hkm
          obtain rfl := h.call_eq hkt hcall
          have hself : Task.hands k (.hand provider k req) = true := decide_eq_true rfl
          rw [if_pos hself] at herase
          by_cases hin : provider ∈ s.out
          · have hcount : xs.countP (Happening.hands k) = 1 := by
              rw [hxs, if_pos hin, List.countP_singleton, if_pos (show Happening.hands k (.handed k provider req) = true from
                decide_eq_true rfl)]
            omega
          · have hcount : xs.countP (Happening.hands k) = 0 := by
              rw [hxs, if_neg hin]
              rfl
            exact ⟨by omega, .inr (hprovider ▸ hin)⟩
        · have hself : ¬ Task.hands k (.hand provider m req) = true := by simp [Task.hands, Ne.symm hkm]
          rw [if_neg hself] at herase
          have hcount : xs.countP (Happening.hands k) = 0 := by
            rw [List.countP_eq_zero]
            intro x hx
            rw [hall x hx]
            simp [Happening.hands, Ne.symm hkm]
          rw [hcount, Nat.add_zero]
          rw [herase, Nat.add_zero] at hone hover
          exact ⟨hone, hover⟩ }

/-- The answer owed is told, or its caller's session ended. -/
theorem tell (h : Inv events s t) {m : String} {to_ : SessionId} {res : ExchangeRes} (hmem : .tell (some m) to_ res ∈ s.tasks) :
    Inv events { s with tasks := s.tasks.erase (.tell (some m) to_ res) }
      (t ++ if to_ ∈ s.out then [.told (some m) to_ res] else []) := by
  obtain ⟨call, hcall, hto, hres⟩ := h.owed m to_ res (.inl hmem)
  set xs : List Happening := if to_ ∈ s.out then [.told (some m) to_ res] else [] with hxs
  have hall : ∀ x ∈ xs, x = .told (some m) to_ res := fun x hx => List.mem_singleton.mp (List.mem_ite_nil_right.mp hx).2
  have hunnamed : ∀ x ∈ xs, x.name? = none := fun x hx => by rw [hall x hx]; rfl
  have hfiled : ∀ k call', .filed k call' ∈ t ++ xs ↔ .filed k call' ∈ t := fun k call' => filed_append hunnamed
  have hothers : ∀ k, k ≠ m → (s.tasks.erase (.tell (some m) to_ res)).countP (Task.tells k) = s.tasks.countP (Task.tells k) ∧
      (t ++ xs).countP (Happening.tells k) = t.countP (Happening.tells k) := by
    intro k hkm
    constructor
    · rw [countP_erase_add hmem (Task.tells k)]
      simp [Task.tells, Ne.symm hkm]
    · refine countP_append_none fun x hx => ?_
      rw [hall x hx]
      simp [Happening.tells, Ne.symm hkm]
  have hbounds : ∀ k, (∃ task ∈ s.tasks, task.bounds k = true) →
      ∃ task ∈ s.tasks.erase (.tell (some m) to_ res), task.bounds k = true := by
    rintro k ⟨task, htask, hb⟩
    refine ⟨task, (List.mem_erase_of_ne ?_).mpr htask, hb⟩
    rintro rfl
    cases hb
  exact
    { out_lt := h.out_lt
      providers_lt := h.providers_lt
      ending := h.ending
      named := fun k call' hk => h.named k call' ((hfiled k call').mp hk)
      nodup := by
        rw [names_append hunnamed]
        exact h.nodup
      sessions := fun k call' hk => h.sessions k call' ((hfiled k call').mp hk)
      entries := fun k call' hk => (h.entries k call' hk).imp_left (hfiled k call').mpr
      owed := fun k to' res' hk => by
        have hold : .tell (some k) to' res' ∈ s.tasks ∨ .told (some k) to' res' ∈ t := by
          rcases hk with hk | hk
          · exact .inl (List.mem_of_mem_erase hk)
          · rcases List.mem_append.mp hk with hk | hk
            · exact .inr hk
            · cases hall _ hk
              exact .inl hmem
        obtain ⟨call', hcall', hrest⟩ := h.owed k to' res' hold
        exact ⟨call', (hfiled k call').mpr hcall', hrest⟩
      hands := fun k to' req hk => by
        have hold : .hand to' k req ∈ s.tasks ∨ .handed k to' req ∈ t := by
          rcases hk with hk | hk
          · exact .inl (List.mem_of_mem_erase hk)
          · rcases List.mem_append.mp hk with hk | hk
            · exact .inr hk
            · cases hall _ hk
        obtain ⟨call', hcall', hrest⟩ := h.hands k to' req hold
        exact ⟨call', (hfiled k call').mpr hcall', hrest⟩
      stands := fun k call' hk => by
        have hkt := (hfiled k call').mp hk
        by_cases hkm : k = m
        · subst hkm
          obtain rfl := h.call_eq hkt hcall
          have herase := countP_erase_add hmem (Task.tells k)
          rw [if_pos (show Task.tells k (.tell (some k) to_ res) = true from decide_eq_true rfl)] at herase
          cases h.stands k _ hkt with
          | taken hentry howed hnone =>
            have hzero : (s.tasks.erase (.tell (some k) to_ res)).countP (Task.tells k) = 0 := by omega
            by_cases hin : to_ ∈ s.out
            · refine .answered hentry hzero ?_
              rw [List.countP_append, hnone, hxs, if_pos hin, List.countP_singleton,
                if_pos (show Happening.tells k (.told (some k) to_ res) = true from decide_eq_true rfl)]
            · refine .forgotten hentry hzero ?_ (hto ▸ hin)
              rw [List.countP_append, hnone, hxs, if_neg hin]
              rfl
          | filed _ howed _ _ => omega
          | answered _ howed _ => omega
          | forgotten _ howed _ _ => omega
        · obtain ⟨htells, htold⟩ := hothers k hkm
          exact (h.stands k call' hkt).of_eq rfl htells htold (fun _ => hbounds k) id
      handedOver := fun k call' hk => by
        have hhands : (s.tasks.erase (.tell (some m) to_ res)).countP (Task.hands k) = s.tasks.countP (Task.hands k) := by
          rw [countP_erase_add hmem (Task.hands k)]
          simp [Task.hands]
        have hhanded : (t ++ xs).countP (Happening.hands k) = t.countP (Happening.hands k) :=
          countP_append_none fun x hx => by rw [hall x hx]; rfl
        unfold HandedOver
        dsimp only
        rw [hhands, hhanded]
        exact h.handedOver k call' ((hfiled k call').mp hk) }

/-! ### A session's end -/

/-- Of the calls a session's end takes, one is `m`'s at most. -/
theorem countP_orphaned (p : Pending) (sid : SessionId) (m : String) :
    ((p.ended sid).1.map (fun e => Task.tell (some e.1) e.2.caller (providerLeft e.2.corr))).countP (Task.tells m) =
      ((p.ended sid).1.map Prod.fst).count m := by
  rw [List.countP_map, List.count, List.countP_map]
  apply List.countP_congr
  intro e _
  simp [Task.tells]

theorem count_orphaned_le (p : Pending) (sid : SessionId) (m : String) : ((p.ended sid).1.map Prod.fst).count m ≤ 1 := by
  apply List.nodup_iff_count_le_one.mp
  have hkeys : (p.calls.toList.map Prod.fst).Nodup := by
    rw [Std.ExtTreeMap.map_fst_toList_eq_keys]
    exact Std.ExtTreeMap.nodup_keys
  exact hkeys.sublist (List.filter_sublist.map _)

theorem mem_orphaned {p : Pending} {sid : SessionId} {m : String} {call : Call} :
    (m, call) ∈ (p.ended sid).1 ↔ p.calls[m]? = some call ∧ call.provider = sid ∧ call.caller ≠ sid := by
  unfold Pending.ended
  rw [List.mem_filter, Std.ExtTreeMap.mem_toList_iff_getElem?_eq_some, decide_eq_true_iff]

theorem ended_lookup {p : Pending} {sid : SessionId} {m : String} :
    (p.ended sid).2.calls[m]? = p.calls[m]?.filter (fun call => call.caller ≠ sid ∧ call.provider ≠ sid) := by
  unfold Pending.ended
  exact Std.ExtTreeMap.getElem?_filter'

/-- A session's end takes the calls pending on it, and forgets its own. -/
theorem sweep (h : Inv events s t) {sid : SessionId} (hmem : (sid, Stage.sweep) ∈ s.ending) :
    Inv events { s with
      pending := (s.pending.ended sid).2
      tasks := (s.pending.ended sid).1.map (fun e => .tell (some e.1) e.2.caller (providerLeft e.2.corr)) ++ s.tasks
      ending := s.ending.erase (sid, .sweep) } t := by
  have hgone := (h.ending sid .sweep hmem).1
  set orphaned := (s.pending.ended sid).1 with horphaned
  have hkept : ∀ {m : String} {call : Call}, (s.pending.ended sid).2.calls[m]? = some call →
    s.pending.calls[m]? = some call ∧ call.caller ≠ sid := by
    intro m call hk
    rw [ended_lookup, Option.filter_eq_some_iff, decide_eq_true_iff] at hk
    exact ⟨hk.1, hk.2.1⟩
  have howes : ∀ m, (orphaned.map (fun e => Task.tell (some e.1) e.2.caller (providerLeft e.2.corr)) ++ s.tasks).countP
      (Task.tells m) = (orphaned.map Prod.fst).count m + s.tasks.countP (Task.tells m) := by
    intro m
    rw [List.countP_append, horphaned, countP_orphaned]
  have hnot : ∀ m, (∀ call, (m, call) ∉ orphaned) → (orphaned.map Prod.fst).count m = 0 := by
    intro m hm
    rw [List.count_eq_zero, List.mem_map]
    rintro ⟨⟨_, call⟩, hc, rfl⟩
    exact hm call hc
  exact
    { out_lt := h.out_lt
      providers_lt := h.providers_lt
      ending := fun sid' stage hs => h.ending sid' stage (List.mem_of_mem_erase hs)
      named := h.named
      nodup := h.nodup
      sessions := h.sessions
      entries := fun m call hk => by
        obtain ⟨hentry, hother⟩ := hkept hk
        refine ⟨(h.entries m call hentry).1, (h.entries m call hentry).2.imp_right ?_⟩
        rintro ⟨stage, hs⟩
        exact ⟨stage, (List.mem_erase_of_ne (by simp [hother])).mpr hs⟩
      owed := fun m to_ res hmem' => by
        rcases hmem' with hmem' | hmem'
        · rcases List.mem_append.mp hmem' with hmem' | hmem'
          · obtain ⟨⟨k, call⟩, hc, heq⟩ := List.mem_map.mp hmem'
            cases heq
            exact ⟨call, (h.entries k call (mem_orphaned.mp hc).1).1, rfl, .inl rfl⟩
          · exact h.owed m to_ res (.inl hmem')
        · exact h.owed m to_ res (.inr hmem')
      hands := fun m to_ req hmem' => by
        apply h.hands m to_ req
        refine hmem'.imp_left fun hmem' => (List.mem_append.mp hmem').resolve_left ?_
        simp
      stands := fun m call hm => by
        by_cases hends : s.pending.calls[m]? = some call ∧ (call.caller = sid ∨ call.provider = sid)
        · obtain ⟨hentry, hends⟩ := hends
          have hended : (s.pending.ended sid).2.calls[m]? = none := by
            rw [ended_lookup, hentry]
            rcases hends with hcaller | hprovider
            · simp [hcaller]
            · simp [hprovider]
          cases h.stands m call hm with
          | filed _ howed htold _ =>
            by_cases hcaller : call.caller = sid
            · refine .forgotten hended ?_ htold (hcaller ▸ hgone)
              dsimp only
              rw [howes, howed, hnot]
              intro call' hc
              obtain ⟨hentry', -, hother⟩ := mem_orphaned.mp hc
              obtain rfl := Option.some.inj (hentry.symm.trans hentry')
              exact hother hcaller
            · refine .taken hended ?_ htold
              have hin : m ∈ orphaned.map Prod.fst :=
                List.mem_map.mpr ⟨(m, call), mem_orphaned.mpr ⟨hentry, hends.resolve_left hcaller, hcaller⟩, rfl⟩
              have hle : (orphaned.map Prod.fst).count m ≤ 1 := count_orphaned_le s.pending sid m
              have hpos := List.count_pos_iff.mpr hin
              dsimp only
              rw [howes, howed]
              omega
          | taken hgone _ _ => rw [hentry] at hgone; cases hgone
          | answered hgone _ _ => rw [hentry] at hgone; cases hgone
          | forgotten hgone _ _ _ => rw [hentry] at hgone; cases hgone
        · have hstays : ∀ call', s.pending.calls[m]? = some call' → call'.caller ≠ sid ∧ call'.provider ≠ sid := by
            intro call' hk
            obtain rfl := h.call_eq (h.entries m call' hk).1 hm
            exact not_or.mp fun hc => hends ⟨hk, hc⟩
          have hlookup : (s.pending.ended sid).2.calls[m]? = s.pending.calls[m]? := by
            rw [ended_lookup]
            cases hk : s.pending.calls[m]? with
            | none => rfl
            | some call' => exact Option.filter_some_pos (decide_eq_true (hstays call' hk))
          have hcount : (orphaned.map Prod.fst).count m = 0 := by
            refine hnot m fun call' hc => ?_
            obtain ⟨hk, hprovider, -⟩ := mem_orphaned.mp hc
            exact (hstays call' hk).2 hprovider
          refine (h.stands m call hm).of_eq hlookup ?_ rfl (fun _ hbound => ?_) id
          · dsimp only
            rw [howes, hcount, Nat.zero_add]
          · obtain ⟨task, hin, hb⟩ := hbound
            exact ⟨task, List.mem_append_right _ hin, hb⟩
      handedOver := fun m call hm => by
        have hhands : (orphaned.map (fun e => Task.tell (some e.1) e.2.caller (providerLeft e.2.corr)) ++ s.tasks).countP
            (Task.hands m) = s.tasks.countP (Task.hands m) := by
          rw [List.countP_append, List.countP_map, List.countP_eq_zero.mpr, Nat.zero_add]
          intro e _
          simp [Task.hands]
        unfold HandedOver
        dsimp only
        rw [hhands]
        exact h.handedOver m call hm }

/-! ### Sessions -/

theorem opened (h : Inv events s t) : Inv events { s with next := s.next + 1, out := insert s.next s.out } t := by
  have q : Quiet s { s with next := s.next + 1, out := insert s.next s.out } [] :=
    { pending := rfl
      next := Nat.le_succ _
      out_lt := fun sid hsid => by
        rcases Finset.mem_insert.mp hsid with rfl | hsid
        · exact Nat.lt_succ_self _
        · exact (h.out_lt sid hsid).trans (Nat.lt_succ_self _)
      providers_lt := fun surface sid hsid => (h.providers_lt surface sid hsid).trans (Nat.lt_succ_self _)
      ending := fun sid stage hsid => by
        obtain ⟨hout, hlt⟩ := h.ending sid stage hsid
        refine ⟨?_, hlt.trans (Nat.lt_succ_self _)⟩
        rw [Finset.mem_insert, not_or]
        exact ⟨hlt.ne, hout⟩
      left := fun sid hlt hout => by
        rw [Finset.mem_insert, not_or]
        exact ⟨hlt.ne, hout⟩
      held := fun sid hsid => hsid.imp_left Finset.mem_insert_of_mem
      tells := fun _ => rfl
      hands := fun _ => rfl
      owed := fun _ _ _ hin => hin
      handing := fun _ _ _ hin => hin
      bounds := fun _ _ _ hbound => hbound
      idle := fun x hx => by cases hx }
  simpa using h.quiet q (List.Subset.refl events)

/-- Surfaces change hands, and sessions move on in their ends. -/
theorem surfaces (h : Inv events s t) (providers : Std.ExtTreeMap (String × String) SessionId)
    (ending : List (SessionId × Stage))
    (hproviders : ∀ (surface : String × String) (sid : SessionId), providers[surface]? = some sid → sid < s.next)
    (hending : ∀ sid, (∃ stage, (sid, stage) ∈ ending) ↔ ∃ stage, (sid, stage) ∈ s.ending) :
    Inv events { s with providers, ending } t := by
  have q : Quiet s { s with providers, ending } [] :=
    { pending := rfl
      next := le_rfl
      out_lt := h.out_lt
      providers_lt := hproviders
      ending := fun sid stage hsid => by
        obtain ⟨stage', hold⟩ := (hending sid).mp ⟨stage, hsid⟩
        exact h.ending sid stage' hold
      left := fun _ _ hsid => hsid
      held := fun sid hsid => hsid.imp_right (hending sid).mpr
      tells := fun _ => rfl
      hands := fun _ => rfl
      owed := fun _ _ _ hin => hin
      handing := fun _ _ _ hin => hin
      bounds := fun _ _ _ hbound => hbound
      idle := fun x hx => by cases hx }
  simpa using h.quiet q (List.Subset.refl events)

theorem closed (h : Inv events s t) {sid : SessionId} (hsid : sid ∈ s.out) (stage : Stage) :
    Inv events { s with out := s.out.erase sid, ending := (sid, stage) :: s.ending } t := by
  have q : Quiet s { s with out := s.out.erase sid, ending := (sid, stage) :: s.ending } [] :=
    { pending := rfl
      next := le_rfl
      out_lt := fun k hk => h.out_lt k (Finset.mem_of_mem_erase hk)
      providers_lt := h.providers_lt
      ending := fun k stage' hk => by
        rcases List.mem_cons.mp hk with heq | hk
        · obtain ⟨rfl, -⟩ := Prod.mk.inj heq
          exact ⟨Finset.notMem_erase _ _, h.out_lt _ hsid⟩
        · exact ⟨fun hin => (h.ending k stage' hk).1 (Finset.mem_of_mem_erase hin), (h.ending k stage' hk).2⟩
      left := fun _ _ hout hin => hout (Finset.mem_of_mem_erase hin)
      held := fun k hk => by
        rcases hk with hk | ⟨stage', hk⟩
        · by_cases hks : k = sid
          · exact .inr ⟨stage, hks ▸ List.mem_cons_self⟩
          · exact .inl (Finset.mem_erase.mpr ⟨hks, hk⟩)
        · exact .inr ⟨stage', List.mem_cons_of_mem _ hk⟩
      tells := fun _ => rfl
      hands := fun _ => rfl
      owed := fun _ _ _ hin => hin
      handing := fun _ _ _ hin => hin
      bounds := fun _ _ _ hbound => hbound
      idle := fun x hx => by cases hx }
  simpa using h.quiet q (List.Subset.refl events)

/-! ### Steps -/

theorem new : Inv [] .new [] where
  out_lt := by simp [Shared.new]
  providers_lt := by simp [Shared.new]
  ending := by simp [Shared.new]
  named := by simp
  nodup := by simp
  sessions := by simp
  entries := by simp [Shared.new]
  owed := by simp [Shared.new]
  hands := by simp [Shared.new]
  stands := by simp
  handedOver := by simp

theorem handleLocal (h : Inv events s t) {sid : SessionId} (hsid : sid ∈ s.out) (req : ExchangeReq) :
    Inv events (s.handleLocal sid req).1 (t ++ (s.handleLocal sid req).2) := by
  unfold Shared.handleLocal
  split
  · rename_i psid hprovider
    dsimp only
    split
    · simpa using h
    · rename_i minted pending hfile
      exact h.file hfile hsid (h.providers_lt _ _ hprovider) rfl
  · simpa using h.added (.tell none sid _) (fun _ => rfl) (fun _ => rfl)

theorem handleRequest (h : Inv events s t) {sid : SessionId} (hsid : sid ∈ s.out) (req : ExchangeReq) (route : Route) :
    Inv events (s.handleRequest sid req route).1 (t ++ (s.handleRequest sid req route).2) := by
  cases route with
  | echo => simpa [Shared.handleRequest] using h.added (.tell none sid _) (fun _ => rfl) (fun _ => rfl)
  | here => exact h.handleLocal hsid req
  | forward => simpa [Shared.handleRequest] using h.added (.forward req.corr sid) (fun _ => rfl) (fun _ => rfl)
  | absent reason => simpa [Shared.handleRequest] using h.added (.tell none sid _) (fun _ => rfl) (fun _ => rfl)

theorem handleResponse (h : Inv events s t) {sid : SessionId} {res : ExchangeRes} (hmem : .respond sid res ∈ events) :
    Inv events (s.handleResponse sid res) t := by
  unfold Shared.handleResponse Pending.answered
  cases hentry : s.pending.calls[res.corr]? with
  | none => exact h
  | some call =>
    by_cases hprovider : call.provider = sid
    · subst hprovider
      simp only [ne_eq, not_true_eq_false, if_false]
      exact h.take hentry (List.Subset.refl events) (.inr (.inr ⟨res, hmem, rfl, rfl⟩))
    · simp only [ne_eq, hprovider, not_false_eq_true, if_true]
      exact h

theorem runTask (h : Inv events s t) {task : Task} (hmem : task ∈ s.tasks) (res : ExchangeRes) :
    Inv events ({ s with tasks := s.tasks.erase task }.runTask res task).1
      (t ++ ({ s with tasks := s.tasks.erase task }.runTask res task).2) := by
  cases task with
  | hand provider minted req => exact h.handOver hmem
  | bound minted =>
    unfold Shared.runTask Pending.expired
    dsimp only
    cases hentry : s.pending.calls[minted]? with
    | none =>
      refine h.dropped hmem (fun _ => rfl) (fun _ => rfl) ?_ (fun x hx => by cases hx)
      intro m hm
      rwa [← of_decide_eq_true hm]
    | some call =>
      have htaken := h.take hentry (List.Subset.refl events) (.inr (.inl rfl))
      have hdropped : Inv events _ (t ++ []) := htaken.dropped (List.mem_cons_of_mem _ hmem) (fun _ => rfl) (fun _ => rfl)
        (fun m hm => by rw [← of_decide_eq_true hm]; exact Std.ExtTreeMap.getElem?_erase_self) fun x hx => by cases hx
      rw [List.append_nil] at hdropped ⊢
      rw [List.erase_cons_tail (by simp)] at hdropped
      exact hdropped
  | tell minted to_ res' =>
    cases minted with
    | some m => exact h.tell hmem
    | none =>
      refine h.dropped hmem (fun _ => rfl) (fun _ => rfl) (fun m hm => by cases hm) ?_
      intro x hx
      change x ∈ (if to_ ∈ s.out then [Happening.told none to_ res'] else []) at hx
      split at hx
      · exact ⟨to_, res', List.mem_singleton.mp hx⟩
      · cases hx
  | forward corr to_ =>
    have hdropped : Inv events { s with tasks := s.tasks.erase (.forward corr to_) } (t ++ []) :=
      h.dropped hmem (fun _ => rfl) (fun _ => rfl) (fun m hm => by cases hm) fun x hx => by cases hx
    have hadded := hdropped.added (.tell none to_ res) (fun _ => rfl) (fun _ => rfl)
    exact hadded

theorem step (h : Inv events s t) (e : Event) : Inv (events ++ [e]) (s.step e).1 (t ++ (s.step e).2) := by
  have h := h.more (List.subset_append_left events [e])
  have hself : e ∈ events ++ [e] := List.mem_append_right _ List.mem_cons_self
  unfold Shared.step
  cases e with
  | opened => simpa using h.opened
  | attach sid share gladeId =>
    dsimp only
    split
    case isFalse => simpa using h
    case isTrue hsid =>
      have hattached := h.surfaces (s.providers.insert (share, gladeId) sid) s.ending ?_
        (fun _ => Iff.rfl)
      · simpa using hattached
      · intro surface sid' hget
        rw [Std.ExtTreeMap.getElem?_insert] at hget
        split at hget
        · obtain rfl := Option.some.inj hget
          exact h.out_lt _ hsid
        · exact h.providers_lt _ _ hget
  | request sid req route =>
    dsimp only
    split
    case isFalse => simpa using h
    case isTrue hsid => exact h.handleRequest hsid req route
  | respond sid res =>
    dsimp only
    split
    case isFalse => simpa using h
    case isTrue hsid => simpa using h.handleResponse hself
  | run task res =>
    dsimp only
    split
    case isFalse => simpa using h
    case isTrue hmem => exact h.runTask hmem res
  | close sid attached =>
    dsimp only
    split
    case isFalse => simpa using h
    case isTrue hsid => simpa using h.closed hsid (if attached then .release else .sweep)
  | release sid =>
    dsimp only
    split
    case isFalse => simpa using h
    case isTrue hmem =>
      have hreleased := h.surfaces (s.providers.filter (fun _ psid => psid ≠ sid))
        ((sid, .sweep) :: s.ending.erase (sid, .release)) ?_ ?_
      · simpa using hreleased
      · intro surface sid' hget
        rw [Std.ExtTreeMap.getElem?_filter', Option.filter_eq_some_iff] at hget
        exact h.providers_lt _ _ hget.1
      · intro k
        by_cases hk : k = sid
        · subst hk
          exact ⟨fun _ => ⟨_, hmem⟩, fun _ => ⟨_, List.mem_cons_self⟩⟩
        · have hsame : ∀ stage, (k, stage) ∈ (sid, Stage.sweep) :: s.ending.erase (sid, .release) ↔ (k, stage) ∈ s.ending := by
            intro stage
            rw [List.mem_cons, List.mem_erase_of_ne (by simp [hk])]
            simp [hk]
          simp only [hsame]
  | sweep sid =>
    dsimp only
    split
    case isFalse => simpa using h
    case isTrue hmem => simpa using h.sweep hmem

theorem run (events : List Event) : Inv events (Shared.runOf events).1 (Shared.runOf events).2 := by
  induction events using List.reverseRecOn with
  | nil => exact .new
  | append_singleton events e ih =>
    unfold Shared.runOf
    rw [List.foldl_append]
    exact ih.step e

end Inv

/-! ### Tasks run out -/

/-- What a run's calls come to, after `events`, in state `s`, `t` having happened. -/
structure Accounted (events : List Event) (s : Shared) (t : List Happening) : Prop where
  /-- A call routed to an attached provider is filed, under a correlation new to the node. -/
  filed : ∀ (sid : SessionId) (req : ExchangeReq) (psid : SessionId), sid ∈ s.out →
    s.providers[(req.share, req.gladeId)]? = some psid → s.pending.minted + 1 < 2 ^ 64 →
    ∃ m, (∀ call, .filed m call ∉ t) ∧
      (s.step (.request sid req .here)).2 = [.filed m { caller := sid, corr := req.corr, provider := psid }]
  named : (t.filterMap Happening.name?).Nodup
  handedOver : ∀ m call, .filed m call ∈ t → HandedOver s t m call
  handed : ∀ m to_ req, .handed m to_ req ∈ t → ∃ call, .filed m call ∈ t ∧ to_ = call.provider ∧ req.corr = m
  /-- A response from any session but the one the call was handed to does nothing. -/
  providerOnly : ∀ (sid : SessionId) (res : ExchangeRes),
    (∀ call, s.pending.calls[res.corr]? = some call → call.provider ≠ sid) → s.step (.respond sid res) = (s, [])
  /-- The session it was handed to takes it by its response, which is then owed to the caller. -/
  answered : ∀ (call : Call) (res : ExchangeRes), s.pending.calls[res.corr]? = some call → call.provider ∈ s.out →
    (s.step (.respond call.provider res)).1.pending.calls[res.corr]? = none ∧
      (s.step (.respond call.provider res)).1.tasks = .tell (some res.corr) call.caller { res with corr := call.corr } :: s.tasks
  /-- So does its bound, and its provider's end. -/
  expired : ∀ m call res, s.pending.calls[m]? = some call → .bound m ∈ s.tasks →
    (s.step (.run (.bound m) res)).1.pending.calls[m]? = none ∧
      .tell (some m) call.caller (timedOut call.corr) ∈ (s.step (.run (.bound m) res)).1.tasks
  left : ∀ m call, s.pending.calls[m]? = some call → (call.provider, .sweep) ∈ s.ending → call.caller ≠ call.provider →
    (s.step (.sweep call.provider)).1.pending.calls[m]? = none ∧
      .tell (some m) call.caller (providerLeft call.corr) ∈ (s.step (.sweep call.provider)).1.tasks
  /-- An answer goes to the call's caller, under the caller's correlation. -/
  told : ∀ m to_ res, .told (some m) to_ res ∈ t →
    ∃ call, .filed m call ∈ t ∧ to_ = call.caller ∧ res.corr = call.corr ∧ Answers events m call res
  stands : ∀ m call, .filed m call ∈ t → Stands s t m call
  /-- Once no task has anything left to do, every call is answered once, or its caller has gone. -/
  settled : s.tasks = [] → ∀ m call, .filed m call ∈ t → s.pending.calls[m]? = none ∧
    (t.countP (Happening.tells m) = 1 ∨ t.countP (Happening.tells m) = 0 ∧ call.caller ∉ s.out)
  /-- And the tasks come to that, if they are run. -/
  runsOut : ∃ later : List Event, (∀ e ∈ later, ∃ task res, e = .run task res) ∧ (Shared.runOf (events ++ later)).1.tasks = []

theorem Answers.corr {events : List Event} {m : String} {call : Call} {res : ExchangeRes} (h : Answers events m call res) :
    res.corr = call.corr := by
  rcases h with rfl | rfl | ⟨given, -, -, rfl⟩ <;> rfl

namespace Inv

variable {events : List Event} {s : Shared} {t : List Happening}

theorem settled (h : Inv events s t) (htasks : s.tasks = []) {m : String} {call : Call} (hm : .filed m call ∈ t) :
    s.pending.calls[m]? = none ∧
      (t.countP (Happening.tells m) = 1 ∨ t.countP (Happening.tells m) = 0 ∧ call.caller ∉ s.out) := by
  cases h.stands m call hm with
  | filed _ _ _ hbound =>
    obtain ⟨task, hmem, -⟩ := hbound
    rw [htasks] at hmem
    cases hmem
  | taken _ howed _ =>
    rw [htasks] at howed
    cases howed
  | answered hentry _ htold => exact ⟨hentry, .inl htold⟩
  | forgotten hentry _ htold hended => exact ⟨hentry, .inr ⟨htold, hended⟩⟩

end Inv

end Glade.Node.Exchange
