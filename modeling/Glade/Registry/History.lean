import Glade.Registry.Durable

/-! What a sealed registry ever took. A checkpoint folds its chain away, so the ops a
registry holds do not tell what its checkpoints were placed over; every op it took
does. Whatever appends and ingests it made, a checkpoint gives the hash of the op it
folds at, and an origin's checkpoints go forward and follow one another. -/

namespace Glade.Registry

open Wire Node LinkedLog Store

variable {C : Crypto}

/-- The op a call makes a registry take, if it takes one. -/
def taken (r : Registry C) : Call → Option Op
  | .append record origin =>
    match r.appendReturning record origin with
    | .ok (op, _) => some op
    | .error _ => none
  | .ingest op => if r.answer op = .ok .appended then some op else none

/-- Every op a registry takes over a run of calls, in the order it takes them. -/
def historyFrom (r : Registry C) : List Call → List Op
  | [] => []
  | call :: calls => (r.taken call).toList ++ historyFrom (r.called call) calls

/-- Every op a registry sealed as `me` ever took. -/
def history (me : NodeIdentity C) (calls : List Call) : List Op := historyFrom (sealedAs me) calls

/-- The floor a checkpoint gives its origin's claims chain. -/
def Gives (op : Op) (floor : Floor) : Prop := op.gladeId = gCheckpoints ∧ check op = .ok ⟨gClaims, floor⟩

/-- What the checkpoints among some ops are: each names the hash of the op at its base,
an origin's go forward, and each that comes right after another names it. -/
structure Lawful (C : Crypto) (ops : Op → Prop) : Prop where
  base : ∀ op cp floor, ops op → ops cp → op.gladeId = gClaims → op.origin = cp.origin → Gives cp floor →
    op.seq = floor.1 → opHash C op = floor.2
  forward : ∀ cp cp' floor floor', ops cp → ops cp' → cp.origin = cp'.origin → Gives cp floor → Gives cp' floor' →
    cp.seq < cp'.seq → floor.1 ≤ floor'.1 ∧ (floor.1 = floor'.1 → floor.2 = floor'.2)
  follows : ∀ cp cp' floor floor', ops cp → ops cp' → cp.origin = cp'.origin → Gives cp floor → Gives cp' floor' →
    cp'.seq = cp.seq + 1 → cp'.prev = some (opHash C cp).val

theorem Gives.unique {op : Op} {floor floor' : Floor} (h : Gives op floor) (h' : Gives op floor') : floor = floor' := by
  have heq := Except.ok.inj (h.2.symm.trans h'.2)
  exact congrArg Checkpoint.floor heq

/-- Where a registry stands to the ops it took. -/
structure Traced (me : NodeIdentity C) (r : Registry C) (ops : List Op) : Prop where
  sound : Sound me r
  lawful : Lawful C (· ∈ ops)
  /-- A claim it took is held, or folded; either way its chain has come that far. -/
  claims : ∀ op ∈ ops, op.gladeId = gClaims → r.Reached (streamOf op) op.seq ∧
    (op ∈ r.ops ∨ ∃ e, r.checkpoints[streamOf op]? = some e ∧ op.seq ≤ e.2.1)
  /-- The newest checkpoint is one it took. -/
  newest : ∀ (c : StreamId) e, r.checkpoints[c]? = some e → e.1 ∈ ops ∧ Gives e.1 e.2
  /-- None it took is newer, and each gave a lower base or the same floor. -/
  older : ∀ cp ∈ ops, ∀ floor, Gives cp floor → ∃ e, r.checkpoints[(⟨gClaims, cp.origin⟩ : StreamId)]? = some e ∧
    cp.seq ≤ e.1.seq ∧ (cp.seq = e.1.seq → cp = e.1) ∧ floor.1 ≤ e.2.1 ∧ (floor.1 = e.2.1 → floor.2 = e.2.2)

theorem traced_sealed (me : NodeIdentity C) : Traced me (sealedAs me) [] where
  sound := ⟨⟨_, agree_empty me⟩, rfl⟩
  lawful := by constructor <;> simp
  claims := by simp
  newest := by simp [sealedAs, new]
  older := by simp

/-- An op that is not a checkpoint joins, past the bases of its chain. -/
theorem Lawful.take {ops : List Op} (h : Lawful C (· ∈ ops)) {op : Op} (hg : op.gladeId ≠ gCheckpoints)
    (hpast : ∀ cp ∈ ops, ∀ floor, Gives cp floor → op.gladeId = gClaims → op.origin = cp.origin → floor.1 < op.seq) :
    Lawful C (· ∈ ops ++ [op]) := by
  have hold : ∀ {cp floor}, cp ∈ ops ++ [op] → Gives cp floor → cp ∈ ops := by
    intro cp floor hcp hf
    rcases List.mem_append.mp hcp with hcp | hcp
    · exact hcp
    · rw [List.mem_singleton.mp hcp] at hf
      exact absurd hf.1 hg
  exact
    { base := fun o cp floor ho hcp hclaim horigin hf hseq => by
        rcases List.mem_append.mp ho with ho | ho
        · exact h.base o cp floor ho (hold hcp hf) hclaim horigin hf hseq
        · rw [List.mem_singleton.mp ho] at hclaim horigin hseq
          have hlt := hpast cp (hold hcp hf) floor hf hclaim horigin
          omega
      forward := fun cp cp' floor floor' hcp hcp' horigin hf hf' =>
        h.forward cp cp' floor floor' (hold hcp hf) (hold hcp' hf') horigin hf hf'
      follows := fun cp cp' floor floor' hcp hcp' horigin hf hf' =>
        h.follows cp cp' floor floor' (hold hcp hf) (hold hcp' hf') horigin hf hf' }

/-- What a checkpoint and its floor are to an earlier one of its origin, and the floor that one gave. -/
def After (C : Crypto) (cp old : Op) (floor f : Floor) : Prop :=
  old.seq < cp.seq ∧ f.1 ≤ floor.1 ∧ (f.1 = floor.1 → f.2 = floor.2) ∧
    (cp.seq = old.seq + 1 → cp.prev = some (opHash C old).val)

/-- A checkpoint joins: it comes after those of its origin, and gives the hash of the claim at its base. -/
theorem Lawful.place {ops : List Op} (h : Lawful C (· ∈ ops)) {cp : Op} {floor : Floor} (hgives : Gives cp floor)
    (hbase : ∀ o ∈ ops, o.gladeId = gClaims → o.origin = cp.origin → o.seq = floor.1 → opHash C o = floor.2)
    (hafter : ∀ old ∈ ops, ∀ f, old.origin = cp.origin → Gives old f → After C cp old floor f) :
    Lawful C (· ∈ ops ++ [cp]) where
  base o cp' floor' ho hcp hclaim horigin hf hseq := by
    rcases List.mem_append.mp ho with ho | ho
    · rcases List.mem_append.mp hcp with hcp | hcp
      · exact h.base o cp' floor' ho hcp hclaim horigin hf hseq
      · rw [List.mem_singleton.mp hcp] at hf horigin
        obtain rfl := hf.unique hgives
        exact hbase o ho hclaim horigin hseq
    · rw [List.mem_singleton.mp ho, hgives.1] at hclaim
      exact absurd hclaim (by decide)
  forward old new f f' hold hnew horigin hf hf' hlt := by
    rcases List.mem_append.mp hold with hold | hold <;> rcases List.mem_append.mp hnew with hnew | hnew
    · exact h.forward old new f f' hold hnew horigin hf hf' hlt
    · rw [List.mem_singleton.mp hnew] at horigin hf'
      obtain rfl := hf'.unique hgives
      obtain ⟨-, hle, hhash, -⟩ := hafter old hold f horigin hf
      exact ⟨hle, hhash⟩
    · rw [List.mem_singleton.mp hold] at horigin hlt
      have hback := (hafter new hnew f' horigin.symm hf').1
      omega
    · rw [List.mem_singleton.mp hold, List.mem_singleton.mp hnew] at hlt
      omega
  follows old new f f' hold hnew horigin hf hf' hseq := by
    rcases List.mem_append.mp hold with hold | hold <;> rcases List.mem_append.mp hnew with hnew | hnew
    · exact h.follows old new f f' hold hnew horigin hf hf' hseq
    · rw [List.mem_singleton.mp hnew] at horigin hseq ⊢
      exact (hafter old hold f horigin hf).2.2.2 hseq
    · rw [List.mem_singleton.mp hold] at horigin hseq
      have hback := (hafter new hnew f' horigin.symm hf').1
      omega
    · rw [List.mem_singleton.mp hold, List.mem_singleton.mp hnew] at hseq
      omega

/-- An op that is not a checkpoint, taken at the end of its chain. -/
theorem Traced.take {me : NodeIdentity C} {r : Registry C} {ops : List Op} (h : Traced me r ops) {op : Op}
    (hsound : Sound me (r.take op)) (hg : op.gladeId ≠ gCheckpoints) (hx : r.Extends op) :
    Traced me (r.take op) (ops ++ [op]) where
  sound := hsound
  lawful := by
    -- What a chain takes stands past every base its checkpoints gave.
    refine h.lawful.take hg fun cp hcp floor hf hclaim ho => ?_
    obtain ⟨e, he, -, -, hle, -⟩ := h.older cp hcp floor hf
    have hstream : streamOf op = ⟨gClaims, cp.origin⟩ := by rw [streamOf, hclaim, ho]
    have hlt := hx.1 e (by rw [hstream]; exact he)
    omega
  claims o ho hclaim := by
    rcases List.mem_append.mp ho with ho | ho
    · obtain ⟨hreach, hheld⟩ := h.claims o ho hclaim
      exact ⟨reached_take hx hreach, hheld.imp_left (List.mem_append_left _)⟩
    · obtain rfl := List.mem_singleton.mp ho
      refine ⟨⟨_, Std.ExtTreeMap.getElem?_insert_self, le_rfl⟩, .inl ?_⟩
      simp [Registry.take]
  newest c e he := by
    obtain ⟨hmem, hf⟩ := h.newest c e he
    exact ⟨List.mem_append_left _ hmem, hf⟩
  older cp hcp floor hf := by
    rcases List.mem_append.mp hcp with hcp | hcp
    · exact h.older cp hcp floor hf
    · rw [List.mem_singleton.mp hcp] at hf
      exact absurd hf.1 hg

section Place

variable {me : NodeIdentity C} {r : Registry C} {ops : List Op} {cp : Op} {floor : Floor}

/-- Over one that is held, a checkpoint is newer and gives no lower base, nor the same one with another hash. -/
theorem Places.after (hp : r.Places cp floor) {e : Op × Floor}
    (he : r.checkpoints[(⟨gClaims, cp.origin⟩ : StreamId)]? = some e) : After C cp e.1 floor e.2 := by
  have hplaced := hp.2.1
  rw [he] at hplaced
  obtain ⟨hlt, hbase, hprev⟩ := placement_eq_placed.mp hplaced
  refine ⟨hlt, ?_, fun heq => ?_, hprev⟩
  · rcases hbase with hbase | hbase
    · exact hbase.le
    · rw [hbase]
  · rcases hbase with hbase | hbase
    · omega
    · rw [hbase]

/-- It comes after every one of its origin that was taken. -/
theorem Traced.after (h : Traced me r ops) (hp : r.Places cp floor) {old : Op} (hold : old ∈ ops) {f : Floor}
    (ho : old.origin = cp.origin) (hf : Gives old f) : After C cp old floor f := by
  obtain ⟨e, he, hle, hsame, hbase, hhash⟩ := h.older old hold f hf
  rw [ho] at he
  obtain ⟨hlt, hbase', hhash', hprev⟩ := hp.after he
  refine ⟨by omega, hbase.trans hbase', fun heq => ?_, fun hseq => ?_⟩
  · exact (hhash (by omega)).trans (hhash' (by omega))
  · rw [hsame (by omega)]
    exact hprev (by omega)

/-- A claim at its base that is held is the one whose hash it gives. -/
theorem Traced.held_at_base (h : Traced me r ops) (hp : r.Places cp floor) {o : Op} (hheld : o ∈ r.ops)
    (hclaim : o.gladeId = gClaims) (horigin : o.origin = cp.origin) (hseq : o.seq = floor.1) : opHash C o = floor.2 := by
  obtain ⟨⟨s, A⟩, -⟩ := h.sound
  cases hfind : r.ops.find? (fun held => (held.gladeId = gClaims ∧ held.origin = cp.origin) ∧ held.seq = floor.1) with
  | none =>
    rw [List.find?_eq_none] at hfind
    exact absurd (decide_eq_true ⟨⟨hclaim, horigin⟩, hseq⟩) (hfind o hheld)
  | some held =>
    have hhash := hp.2.2 held hfind
    have hspec : (held.gladeId = gClaims ∧ held.origin = cp.origin) ∧ held.seq = floor.1 := by
      simpa using List.find?_some hfind
    have hclaims : (⟨gClaims, cp.origin⟩ : StreamId).stream ≠ gCheckpoints := show gClaims ≠ gCheckpoints by decide
    have hchain := A.inv.chained_home (c := (⟨gClaims, cp.origin⟩ : StreamId).chainId) rfl hclaims
    rw [A.logs _ hclaims] at hchain
    have hin : ∀ x ∈ r.ops, streamOf x = ⟨gClaims, cp.origin⟩ → x ∈ r.held ⟨gClaims, cp.origin⟩ :=
      fun x hx hs => List.mem_filter.mpr ⟨hx, decide_eq_true hs⟩
    have hsame : o = held := eq_of_seq_eq hchain (hin o hheld (by rw [streamOf, hclaim, horigin]))
      (hin held (List.mem_of_find?_eq_some hfind) (by rw [streamOf, hspec.1.1, hspec.1.2])) (hseq.trans hspec.2.symm)
    rw [hsame, hhash]

/-- It gives the hash of the claim at its base, held or folded. -/
theorem Traced.at_base (h : Traced me r ops) (hp : r.Places cp floor) {o : Op} (ho : o ∈ ops)
    (hclaim : o.gladeId = gClaims) (horigin : o.origin = cp.origin) (hseq : o.seq = floor.1) : opHash C o = floor.2 := by
  obtain ⟨⟨s, A⟩, -⟩ := h.sound
  rcases (h.claims o ho hclaim).2 with hheld | ⟨e, he, hle⟩
  · exact h.held_at_base hp hheld hclaim horigin hseq
  · -- It was folded, so the floor is the one that is replaced.
    rw [show streamOf o = ⟨gClaims, cp.origin⟩ by rw [streamOf, hclaim, horigin]] at he
    obtain ⟨hmem, hfe⟩ := h.newest _ e he
    obtain ⟨-, hbase, hhash, -⟩ := hp.after he
    have horigin' : o.origin = e.1.origin := by
      obtain ⟨hkey, -⟩ := A.inv.registered _ e.1 e.2 ((A.register _).trans he)
      rw [horigin]
      exact congrArg ChainId.origin hkey
    rw [h.lawful.base o e.1 e.2 ho hmem hclaim horigin' hfe (by omega)]
    exact hhash (by omega)

theorem checkpoints_placed (c : StreamId) : (r.placed cp ⟨gClaims, cp.origin⟩ floor).checkpoints[c]? =
    if (⟨gClaims, cp.origin⟩ : StreamId) = c then some (cp, floor) else r.checkpoints[c]? := by
  simp [Registry.placed, Std.ExtTreeMap.getElem?_insert]

/-- A claim that was held is held still, or the checkpoint folds it. -/
theorem Places.held (hp : r.Places cp floor) {o : Op}
    (hheld : o ∈ r.ops ∨ ∃ e, r.checkpoints[streamOf o]? = some e ∧ o.seq ≤ e.2.1) :
    o ∈ (r.placed cp ⟨gClaims, cp.origin⟩ floor).ops ∨
      ∃ e, (r.placed cp ⟨gClaims, cp.origin⟩ floor).checkpoints[streamOf o]? = some e ∧ o.seq ≤ e.2.1 := by
  rw [checkpoints_placed]
  by_cases hstream : (⟨gClaims, cp.origin⟩ : StreamId) = streamOf o
  · rw [if_pos hstream]
    rcases hheld with hheld | ⟨e, he, hle⟩
    · by_cases hle : o.seq ≤ floor.1
      · exact .inr ⟨_, rfl, hle⟩
      · refine .inl (List.mem_filter.mpr ⟨hheld, ?_⟩)
        simp only [decide_eq_true_eq]
        exact .inr (by omega)
    · rw [← hstream] at he
      obtain ⟨-, hbase, -⟩ := hp.after he
      exact .inr ⟨_, rfl, hle.trans hbase⟩
  · rw [if_neg hstream]
    refine hheld.imp_left fun hheld => List.mem_filter.mpr ⟨hheld, ?_⟩
    simp only [decide_eq_true_eq]
    exact .inl fun hnamed => hstream (by rw [streamOf, hnamed.1, hnamed.2])

/-- A checkpoint, placed. -/
theorem Traced.place (h : Traced me r ops) (hsound : Sound me (r.placed cp ⟨gClaims, cp.origin⟩ floor))
    (hg : cp.gladeId = gCheckpoints) (hp : r.Places cp floor) :
    Traced me (r.placed cp ⟨gClaims, cp.origin⟩ floor) (ops ++ [cp]) where
  sound := hsound
  lawful := h.lawful.place ⟨hg, hp.1⟩ (fun _ ho => h.at_base hp ho) fun _ hold _ => h.after hp hold
  claims o ho hclaim := by
    rcases List.mem_append.mp ho with ho | ho
    · obtain ⟨⟨s, A⟩, -⟩ := h.sound
      obtain ⟨hreach, hheld⟩ := h.claims o ho hclaim
      exact ⟨reached_placed A hp hreach, hp.held hheld⟩
    · rw [List.mem_singleton.mp ho, hg] at hclaim
      exact absurd hclaim (by decide)
  newest c e he := by
    rw [checkpoints_placed] at he
    split_ifs at he with hc
    · obtain rfl := Option.some.inj he
      exact ⟨by simp, hg, hp.1⟩
    · obtain ⟨hmem, hf⟩ := h.newest c e he
      exact ⟨List.mem_append_left _ hmem, hf⟩
  older old hold f hf := by
    rw [checkpoints_placed]
    by_cases horigin : old.origin = cp.origin
    · rw [if_pos (by rw [horigin])]
      refine ⟨_, rfl, ?_⟩
      rcases List.mem_append.mp hold with hold | hold
      · obtain ⟨hlt, hle, hhash, -⟩ := h.after hp hold horigin hf
        exact ⟨hlt.le, fun heq => by dsimp only at heq; omega, hle, hhash⟩
      · rw [List.mem_singleton.mp hold] at hf ⊢
        obtain rfl := hf.unique ⟨hg, hp.1⟩
        exact ⟨le_rfl, fun _ => rfl, le_rfl, fun _ => rfl⟩
    · rw [if_neg fun heq => horigin (congrArg StreamId.origin heq).symm]
      rcases List.mem_append.mp hold with hold | hold
      · exact h.older old hold f hf
      · exact absurd (by rw [List.mem_singleton.mp hold]) horigin

end Place

/-- One call, which takes its op or leaves the registry. -/
theorem Traced.called {me : NodeIdentity C} {r : Registry C} {ops : List Op} (h : Traced me r ops) (call : Call) :
    Traced me (r.called call) (ops ++ (r.taken call).toList) := by
  obtain ⟨⟨s, A⟩, hme⟩ := h.sound
  cases call with
  | append record origin =>
    rw [Registry.called, taken]
    cases happend : r.appendReturning record origin with
    | error why => simpa using h
    | ok p =>
      obtain ⟨op, r'⟩ := p
      have hsound := (reached_ingest ⟨⟨s, A⟩, hme⟩ (reached_append ⟨⟨s, A⟩, hme⟩ happend).1).1
      obtain ⟨-, -, -, hcase⟩ := appendReturning_cases A hme happend
      rcases hcase with ⟨hg, hx, rfl⟩ | ⟨hg, floor, hp, rfl⟩
      · exact h.take hsound hg hx
      · exact h.place hsound hg hp
  | ingest op =>
    rw [Registry.called, taken]
    have hsound : Sound me (r.ingested op) := by
      obtain ⟨hs, hme', -⟩ := A.ingested hme op
      exact ⟨hs, hme'⟩
    rcases ingest_cases r op hme with ⟨-, hg, hx, hing⟩ | ⟨floor, -, hg, hp, hing⟩ | hk
    · have hstep : r.ingested op = r.take op := by rw [ingested, hing]
      have hans : r.answer op = .ok .appended := by
        rw [answer, hing]
        rfl
      rw [hans, if_pos rfl, hstep]
      exact h.take (hstep ▸ hsound) hg hx
    · have hstep : r.ingested op = r.placed op ⟨gClaims, op.origin⟩ floor := by rw [ingested, hing]
      have hans : r.answer op = .ok .appended := by
        rw [answer, hing]
        rfl
      rw [hans, if_pos rfl, hstep]
      exact h.place (hstep ▸ hsound) hg hp
    · have hans : r.answer op ≠ .ok .appended := by
        rw [answer]
        obtain ⟨e, hk⟩ | hk | hk := hk <;> rw [hk] <;> simp [Except.map]
      rw [ingested_of_kept hk, if_neg hans]
      simpa using h

theorem Traced.run {me : NodeIdentity C} {r : Registry C} {ops : List Op} (h : Traced me r ops) (calls : List Call) :
    Traced me (calls.foldl Registry.called r) (ops ++ historyFrom r calls) := by
  induction calls generalizing r ops with
  | nil => simpa [historyFrom] using h
  | cons call calls ih =>
    rw [List.foldl_cons, historyFrom, ← List.append_assoc]
    exact ih (h.called call)

/-- What a sealed registry ever took is lawful, whatever it appended and ingested. -/
theorem lawful_history (me : NodeIdentity C) (calls : List Call) : Lawful C (· ∈ history me calls) := by
  have h := ((traced_sealed me).run calls).lawful
  rwa [List.nil_append] at h

end Glade.Registry
