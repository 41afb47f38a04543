import Glade.Registry.Snapshot

/-! Reloading a snapshot. What a sealed registry appends verifies, so every op it
holds is one its own load takes; the load places the checkpoints over nothing
and then extends each chain from its floor, and ends with the same chains. -/

namespace Glade.Registry

open Wire Node LinkedLog Store

variable {C : Crypto}

/-! ### The ops a registry appends -/

theorem Agree.tip_nonneg {s : Store} {r : Registry C} (A : Agree s r) {c : StreamId} {tip : Floor}
    (h : r.tips[c]? = some tip) : 0 ≤ tip.1 := by
  have hfloor : ∀ (c : StreamId) (e : Op × Floor), r.checkpoints[c]? = some e → 0 ≤ e.2.1 ∧ 0 ≤ e.1.seq := by
    intro c e he
    rw [← A.register] at he
    obtain ⟨-, -, hv, hcheck⟩ := A.inv.registered _ e.1 e.2 he
    exact ⟨(check_eq_ok hcheck).2, (of_verify hv).2.1.1⟩
  by_cases hc : c.stream = gCheckpoints
  · obtain ⟨stream, origin⟩ := c
    obtain rfl : stream = gCheckpoints := hc
    rw [A.checkpointTips] at h
    obtain ⟨e, he, rfl⟩ := Option.map_eq_some_iff.mp h
    exact (hfloor _ e he).2
  · rw [A.tips c hc, Linking.endOf] at h
    rcases Option.or_eq_some_iff.mp h with h | ⟨-, h⟩
    · obtain ⟨op, hop, rfl⟩ := Option.map_eq_some_iff.mp h
      have hmem := List.mem_of_mem_filter (List.mem_of_getLast? hop)
      exact (of_verify (A.streams op hmem).1).2.1.1
    · obtain ⟨e, he, rfl⟩ := Option.map_eq_some_iff.mp h
      exact (hfloor c e he).1

/-- The op a sealed registry makes of a record, at the end of its own chain. -/
def Minted (r : Registry C) (me : NodeIdentity C) (record : Record) (op : Op) : Prop :=
  op.toOpData = { r.nextOp record me.name with payload := sealRecord me (r.nextOp record me.name) }

theorem appendReturning_eq_ok {r r' : Registry C} {me : NodeIdentity C} (hme : r.identity = some me) {record : Record}
    {origin : String} {op : Op} (h : r.appendReturning record origin = .ok (op, r')) :
    origin = me.name ∧ r.Minted me record op ∧ ∃ answer, r.link op = .ok (answer, r') := by
  rw [appendReturning, hme] at h
  by_cases horigin : me.name = origin
  case neg =>
    rw [if_pos (by simpa using horigin)] at h
    cases h
  subst horigin
  rw [if_neg (by simp)] at h
  dsimp only at h
  split at h
  · cases h
  case h_2 op' hop =>
    split at h
    · cases h
    case h_2 answer r₁ hlink =>
      obtain ⟨rfl, rfl⟩ := Prod.mk.inj (Except.ok.inj h)
      exact ⟨rfl, Op.toOpData_of_ofData hop, answer, hlink⟩

namespace Minted

variable {s : Store} {r : Registry C} {me : NodeIdentity C} {record : Record} {op : Op} (h : r.Minted me record op)

include h

theorem streamOf_eq : streamOf op = ⟨record.gladeId, me.name⟩ := by
  rw [streamOf, h]
  rfl

theorem gladeId_eq : op.gladeId = record.gladeId := congrArg StreamId.stream h.streamOf_eq

/-- It follows its chain's tip. -/
theorem follows_tip {tip : Floor} (ht : r.tips[(⟨record.gladeId, me.name⟩ : StreamId)]? = some tip) :
    op.seq = tip.1 + 1 ∧ op.prev = some tip.2.val := by
  rw [h, nextOp, ht]
  exact ⟨rfl, rfl⟩

theorem seq_eq_zero (ht : r.tips[(⟨record.gladeId, me.name⟩ : StreamId)]? = none) : op.seq = 0 ∧ op.prev = none := by
  rw [h, nextOp, ht]
  exact ⟨rfl, rfl⟩

theorem verified (A : Agree s r) (hcheck : op.gladeId = gCheckpoints → ∃ c, check op = .ok c) : verify C op = .ok () := by
  refine verify_sealed h rfl rfl rfl ⟨rfl, rfl, rfl, rfl⟩ ?_ fun hg => hcheck (h.gladeId_eq.trans hg)
  have hseq : (r.nextOp record me.name).seq = op.seq ∧ (r.nextOp record me.name).prev = op.prev := by
    rw [h]
    exact ⟨rfl, rfl⟩
  rw [hseq.1, hseq.2]
  cases ht : r.tips[(⟨record.gladeId, me.name⟩ : StreamId)]? with
  | none =>
    obtain ⟨h0, hp⟩ := h.seq_eq_zero ht
    simp [h0, hp]
  | some tip =>
    obtain ⟨h0, hp⟩ := h.follows_tip ht
    have := A.tip_nonneg ht
    rw [h0, hp]
    exact ⟨by omega, by simp; omega⟩

/-- It follows its chain's tip as a linked op does. -/
theorem follows {tip : Floor} (ht : r.tips[(⟨record.gladeId, me.name⟩ : StreamId)]? = some tip) :
    (linking C).Follows tip op := by
  obtain ⟨hseq, hprev⟩ := h.follows_tip ht
  refine ⟨hseq, fun prev hp => ?_⟩
  rw [hprev] at hp
  exact (Option.some.inj hp).symm

/-- A record that is not a checkpoint is taken at the end of its chain. -/
theorem extends_chain (A : Agree s r) (hg : op.gladeId ≠ gCheckpoints) : r.Extends op := by
  have hv := h.verified A fun hg' => absurd hg' hg
  have hstream : (⟨record.gladeId, me.name⟩ : StreamId).stream ≠ gCheckpoints := by
    rw [← h.streamOf_eq]
    exact hg
  have htips := A.tips _ hstream
  rw [A.extends_iff_next hv hg, chainOf_eq_chainId hv, h.streamOf_eq, A.register, A.logs _ hstream]
  obtain hnil | ⟨init, last, hheld⟩ := List.eq_nil_or_concat' (r.held ⟨record.gladeId, me.name⟩)
  · rw [hnil, Linking.endOf] at htips
    rw [hnil, next_nil]
    cases hc : r.checkpoints[(⟨record.gladeId, me.name⟩ : StreamId)]? with
    | none =>
      rw [hc] at htips
      exact (h.seq_eq_zero htips).1
    | some e =>
      rw [hc] at htips
      exact h.follows htips
  · rw [hheld, Linking.endOf, List.getLast?_concat] at htips
    rw [hheld, next_concat]
    exact h.follows htips

/-- A checkpoint's op follows the one its register holds. -/
theorem follows_checkpoint (A : Agree s r) (hg : op.gladeId = gCheckpoints) {cp : Op} {floor : Floor}
    (hcp : r.checkpoints[(⟨gClaims, op.origin⟩ : StreamId)]? = some (cp, floor)) : op.seq = cp.seq + 1 := by
  have horigin : op.origin = me.name := congrArg StreamId.origin h.streamOf_eq
  have htips := A.checkpointTips op.origin
  rw [hcp, horigin, ← hg, h.gladeId_eq] at htips
  exact (h.follows_tip htips).1

/-- It lands as neither a repeat nor an older one. -/
theorem placement_newer (A : Agree s r) (hg : op.gladeId = gCheckpoints) (floor : Floor) :
    placement C (op, floor) r.checkpoints[(⟨gClaims, op.origin⟩ : StreamId)]? ≠ .duplicate ∧
      placement C (op, floor) r.checkpoints[(⟨gClaims, op.origin⟩ : StreamId)]? ≠ .seen := by
  cases hcp : r.checkpoints[(⟨gClaims, op.origin⟩ : StreamId)]? with
  | none => simp [placement]
  | some e =>
    have hseq := h.follows_checkpoint A hg hcp
    simp only [placement, if_neg (show ¬ op.seq < e.1.seq by omega), if_neg (show ¬ op.seq = e.1.seq by omega)]
    split_ifs <;> simp

end Minted

/-- What an append to a sealed registry does: it takes an op at the end of its
node's chain, or places a checkpoint, just as an ingest of the op would. -/
theorem appendReturning_cases {s : Store} {r r' : Registry C} (A : Agree s r) {me : NodeIdentity C}
    (hme : r.identity = some me) {record : Record} {origin : String} {op : Op}
    (h : r.appendReturning record origin = .ok (op, r')) :
    verify C op = .ok () ∧ r.Minted me record op ∧ r.ingest op = .ok (.appended, r') ∧
      ((op.gladeId ≠ gCheckpoints ∧ r.Extends op ∧ r' = r.take op) ∨
        (op.gladeId = gCheckpoints ∧ ∃ floor, r.Places op floor ∧ r' = r.placed op ⟨gClaims, op.origin⟩ floor)) := by
  obtain ⟨-, hmint, answer, hlink⟩ := appendReturning_eq_ok hme h
  have hing : verify C op = .ok () → r.ingest op = r.link op := by
    intro hv
    simp only [ingest, hme, hv]
  by_cases hg : op.gladeId = gCheckpoints
  · have hcheck : ∃ c, check op = .ok c := by
      rw [link, if_pos hg, place] at hlink
      cases hc : check op with
      | error why => rw [hc] at hlink; cases hlink
      | ok c => exact ⟨c, rfl⟩
    have hv := hmint.verified A fun _ => hcheck
    by_cases hp : ∃ floor, r.Places op floor
    · obtain ⟨floor, hp⟩ := hp
      have heq := link_of_places hg hp
      obtain ⟨-, rfl⟩ := Prod.mk.inj (Except.ok.inj (hlink.symm.trans heq))
      exact ⟨hv, hmint, (hing hv).trans heq, .inr ⟨hg, floor, hp, rfl⟩⟩
    · -- An append that places nothing is refused: it is newer than the one held.
      exfalso
      obtain ⟨⟨stream, floor⟩, hc⟩ := hcheck
      obtain rfl : stream = gClaims := (check_eq_ok hc).1
      obtain ⟨hdup, hseen⟩ := hmint.placement_newer A hg floor
      rw [link, if_pos hg, place, hc] at hlink
      dsimp only at hlink
      split at hlink
      case h_1 hd => exact hdup hd
      case h_2 hs => exact hseen hs
      case h_6 hpl =>
        split_ifs at hlink with hfork
        refine hp ⟨floor, hc, hpl, fun held hheld => ?_⟩
        rw [any_fork_iff] at hfork
        push Not at hfork
        exact hfork held hheld
      all_goals cases hlink
  · have hx := hmint.extends_chain A hg
    have hv := hmint.verified A fun hg' => absurd hg' hg
    have heq := link_of_extends hg hx
    obtain ⟨-, rfl⟩ := Prod.mk.inj (Except.ok.inj (hlink.symm.trans heq))
    exact ⟨hv, hmint, (hing hv).trans heq, .inl ⟨hg, hx, rfl⟩⟩

/-! ### Runs of a registry -/

/-- A call that changes a registry. -/
inductive Call where
  | append (record : Record) (origin : String)
  | ingest (op : Op)

/-- The registry after a call, which a refusal leaves as it was. -/
def called (r : Registry C) : Call → Registry C
  | .append record origin =>
    match r.appendReturning record origin with
    | .ok (_, r') => r'
    | .error _ => r
  | .ingest op => r.ingested op

/-- A registry sealed as `me`, after a run of calls. -/
def run (me : NodeIdentity C) (calls : List Call) : Registry C := calls.foldl called (sealedAs me)

/-- What a registry of `me` has after a call that took `op`. -/
theorem Agree.ingested {s : Store} {r : Registry C} (A : Agree s r) {me : NodeIdentity C} (hme : r.identity = some me)
    (op : Op) : (∃ s', Agree s' (r.ingested op)) ∧ (r.ingested op).identity = some me ∧
      (r.ingested op).policyQuarantined = r.policyQuarantined := by
  rcases ingest_cases r op hme with ⟨hv, hg, hx, hing⟩ | ⟨floor, hv, hg, hp, hing⟩ | hk
  · rw [Registry.ingested, hing]
    exact ⟨⟨_, A.push hv hg hx⟩, hme, rfl⟩
  · rw [Registry.ingested, hing]
    exact ⟨⟨_, A.place hv hg hp⟩, hme, rfl⟩
  · rw [ingested_of_kept hk]
    exact ⟨⟨s, A⟩, hme, rfl⟩

theorem Agree.called {s : Store} {r : Registry C} (A : Agree s r) {me : NodeIdentity C} (hme : r.identity = some me)
    (call : Call) : (∃ s', Agree s' (r.called call)) ∧ (r.called call).identity = some me ∧
      (r.called call).policyQuarantined = r.policyQuarantined := by
  cases call with
  | ingest op => exact A.ingested hme op
  | append record origin =>
    rw [Registry.called]
    cases h : r.appendReturning record origin with
    | error e => exact ⟨⟨s, A⟩, hme, rfl⟩
    | ok p =>
      have hing := (appendReturning_cases A hme h).2.2.1
      have hstep := A.ingested hme p.1
      rw [Registry.ingested, hing] at hstep
      exact hstep

/-- Every registry a run reaches holds a directory some store holds. -/
theorem agree_of_run (me : NodeIdentity C) (calls : List Call) :
    (∃ s, Agree s (run me calls)) ∧ (run me calls).identity = some me ∧ (run me calls).policyQuarantined = false := by
  induction calls using List.reverseRecOn with
  | nil => exact ⟨⟨_, agree_empty me⟩, rfl, rfl⟩
  | append_singleton calls call ih =>
    obtain ⟨⟨s, A⟩, hme, hq⟩ := ih
    obtain ⟨h', hme', hq'⟩ := A.called hme call
    rw [run, List.foldl_concat]
    exact ⟨h', hme', hq'.trans hq⟩

/-! ### Loading -/

/-- Each op, ingested after the ones before it, is taken. -/
def AllTaken (r : Registry C) : List Op → Prop
  | [] => True
  | op :: ops => r.answer op = .ok .appended ∧ AllTaken (r.ingested op) ops

theorem allTaken_append {r : Registry C} {ops ops' : List Op} :
    AllTaken r (ops ++ ops') ↔ AllTaken r ops ∧ AllTaken (ingests r ops) ops' := by
  induction ops generalizing r with
  | nil => simp [AllTaken, ingests]
  | cons op ops ih => simp [AllTaken, ih, ingests, and_assoc]

/-- A load of ops that are all taken sets none aside. -/
theorem foldl_take {ops : List Op} {st : Loading C} (hp : st.poisoned = ∅) (h : AllTaken st.reg ops) :
    ops.foldl Loading.take st = { st with reg := ingests st.reg ops } := by
  induction ops generalizing st with
  | nil => rfl
  | cons op ops ih =>
    obtain ⟨hans, hrest⟩ := h
    have htake : st.take op = { st with reg := st.reg.ingested op } := by
      rw [answer] at hans
      rw [Loading.take, hp, Registry.ingested]
      cases hing : st.reg.ingest op with
      | error e => rw [hing] at hans; cases hans
      | ok p => simp
    rw [List.foldl_cons, htake, ih (by exact hp) hrest]
    rfl

theorem ingests_concat (r : Registry C) (ops : List Op) (op : Op) :
    ingests r (ops ++ [op]) = (ingests r ops).ingested op := by
  simp [ingests]

/-- Checkpoints a register holds, in any order, are each placed over nothing. -/
theorem load_checkpoints {s : Store} {r : Registry C} (A : Agree s r) (me : NodeIdentity C) {cps : List Op}
    (hreg : ∀ cp ∈ cps, ∃ floor, r.checkpoints[(⟨gClaims, cp.origin⟩ : StreamId)]? = some (cp, floor))
    (hnodup : cps.Nodup) :
    AllTaken (sealedAs me) cps ∧ (∃ s', Agree s' (ingests (sealedAs me) cps)) ∧
      (ingests (sealedAs me) cps).identity = some me ∧ (ingests (sealedAs me) cps).policyQuarantined = false ∧
      (ingests (sealedAs me) cps).ops = [] ∧
      ∀ c : StreamId, (ingests (sealedAs me) cps).checkpoints[c]? =
        if ∃ cp ∈ cps, c = ⟨gClaims, cp.origin⟩ then r.checkpoints[c]? else none := by
  induction cps using List.reverseRecOn with
  | nil => exact ⟨trivial, ⟨_, agree_empty me⟩, rfl, rfl, rfl, by simp [ingests, sealedAs, new]⟩
  | append_singleton cps cp ih =>
    have hnew : cp ∉ cps := by
      rw [List.nodup_append] at hnodup
      exact fun h => hnodup.2.2 cp h cp (by simp) rfl
    obtain ⟨hall, ⟨s₁, A₁⟩, hme, hq, hops, hcps⟩ := ih (fun c hc => hreg c (by simp [hc])) hnodup.of_append_left
    set r₁ := ingests (sealedAs me) cps with hr₁
    obtain ⟨floor, hcp⟩ := hreg cp (by simp)
    obtain ⟨-, hg, hv, hcheck⟩ := A.inv.registered _ cp floor ((A.register _).trans hcp)
    have hnone : r₁.checkpoints[(⟨gClaims, cp.origin⟩ : StreamId)]? = none := by
      rw [hcps, if_neg]
      rintro ⟨cp', hmem, heq⟩
      obtain ⟨floor', hcp'⟩ := hreg cp' (by simp [hmem])
      rw [← heq, hcp] at hcp'
      obtain ⟨rfl, -⟩ := Prod.mk.inj (Option.some.inj hcp')
      exact hnew hmem
    have hplaces : r₁.Places cp floor := by
      refine ⟨hcheck, ?_, ?_⟩
      · rw [hnone]
        rfl
      · simp [hops]
    have hing : r₁.ingest cp = .ok (.appended, r₁.placed cp ⟨gClaims, cp.origin⟩ floor) := by
      simp only [ingest, hme, hv]
      exact link_of_places hg hplaces
    have hstep : r₁.ingested cp = r₁.placed cp ⟨gClaims, cp.origin⟩ floor := by rw [Registry.ingested, hing]
    rw [ingests_concat, ← hr₁, hstep]
    refine ⟨allTaken_append.mpr ⟨hall, ?_, trivial⟩, ⟨_, A₁.place hv hg hplaces⟩, hme, hq, ?_, fun c => ?_⟩
    · rw [answer, ← hr₁, hing]
      rfl
    · simp [placed, hops]
    · simp only [placed, Std.ExtTreeMap.getElem?_insert, Std.LawfulEqOrd.compare_eq_iff_eq, hcps, List.mem_append,
        List.mem_singleton]
      by_cases h : (⟨gClaims, cp.origin⟩ : StreamId) = c
      · subst h
        rw [if_pos rfl, if_pos ⟨cp, by simp, rfl⟩, hcp]
      · rw [if_neg h]
        congr 1
        rw [eq_iff_iff]
        constructor
        · rintro ⟨cp', hmem, heq⟩
          exact ⟨cp', by simp [hmem], heq⟩
        · rintro ⟨cp', hmem, heq⟩
          rcases List.mem_append.mp hmem with hmem | hmem
          · exact ⟨cp', hmem, heq⟩
          · rw [List.mem_singleton.mp hmem] at heq
            exact absurd heq.symm h

/-- Verified ops that are, chain by chain, what may follow are each taken. -/
theorem load_rest {s : Store} {r : Registry C} (A : Agree s r) {me : NodeIdentity C} (hme : r.identity = some me)
    {ops : List Op} (hv : ∀ op ∈ ops, verify C op = .ok () ∧ op.gladeId ≠ gCheckpoints)
    (hchain : ∀ c : StreamId, c.stream ≠ gCheckpoints →
      (linking C).Chain (FirstHome C r.checkpoints[c]?) (r.held c ++ ops.filter (fun op => streamOf op = c))) :
    AllTaken r ops ∧ (∃ s', Agree s' (ingests r ops)) ∧ (ingests r ops).identity = some me ∧
      (ingests r ops).policyQuarantined = r.policyQuarantined ∧ (ingests r ops).ops = r.ops ++ ops ∧
      (ingests r ops).checkpoints = r.checkpoints := by
  induction ops generalizing s r with
  | nil => exact ⟨trivial, ⟨s, A⟩, hme, rfl, by simp [ingests], rfl⟩
  | cons op ops ih =>
    obtain ⟨hop, hg⟩ := hv op (by simp)
    have hx : r.Extends op := by
      have h := hchain (streamOf op) hg
      rw [List.filter_cons_of_pos (by simp), List.append_cons] at h
      rw [A.extends_iff_next hop hg, chainOf_eq_chainId hop, A.register, A.logs _ hg]
      exact (chain_concat.mp (chain_append_left h)).2
    have hing : r.ingest op = .ok (.appended, r.take op) := by
      simp only [ingest, hme, hop]
      exact link_of_extends hg hx
    have hstep : r.ingested op = r.take op := by rw [Registry.ingested, hing]
    have hrest := ih (A.push hop hg hx) hme (fun o ho => hv o (by simp [ho])) fun c hc => by
      have h := hchain c hc
      have hheld : (r.take op).held c = r.held c ++ [op].filter (fun o => streamOf o = c) := by
        rw [held, held, Registry.take, List.filter_append]
      rw [hheld, List.append_assoc, ← List.filter_append]
      exact h
    have hcons : ingests r (op :: ops) = ingests (r.take op) ops := by rw [← hstep]; rfl
    rw [hcons]
    refine ⟨⟨?_, ?_⟩, hrest.2.1, hrest.2.2.1, hrest.2.2.2.1, ?_, hrest.2.2.2.2.2⟩
    · rw [answer, hing]
      rfl
    · rw [hstep]
      exact hrest.1
    · rw [hrest.2.2.2.2.1, Registry.take]
      simp

/-! ### The whole reload -/

/-- A list of ops in another order that keeps each chain's own. -/
def Shuffled (ops ops' : List Op) : Prop :=
  ops.Perm ops' ∧ ∀ c, ops.filter (fun op => streamOf op = c) = ops'.filter (fun op => streamOf op = c)

/-- What the register lists. -/
theorem Agree.checkpoint_ops {s : Store} {r : Registry C} (A : Agree s r) :
    (∀ cp ∈ r.checkpoints.toList.map (fun e => e.2.1), cp.gladeId = gCheckpoints ∧
      ∃ floor, r.checkpoints[(⟨gClaims, cp.origin⟩ : StreamId)]? = some (cp, floor)) ∧
    (∀ (c : StreamId) (e : Op × Floor), r.checkpoints[c]? = some e →
      c = ⟨gClaims, e.1.origin⟩ ∧ e.1 ∈ r.checkpoints.toList.map (fun e => e.2.1)) ∧
    (r.checkpoints.toList.map (fun e => e.2.1)).Nodup := by
  have hentry : ∀ (c : StreamId) (e : Op × Floor), r.checkpoints[c]? = some e → c = ⟨gClaims, e.1.origin⟩ ∧
    e.1.gladeId = gCheckpoints := by
    intro c e he
    obtain ⟨hkey, hg, -⟩ := A.inv.registered _ e.1 e.2 ((A.register c).trans he)
    exact ⟨chainId_injective hkey, hg⟩
  refine ⟨fun cp hcp => ?_, fun c e he => ⟨(hentry c e he).1, ?_⟩, ?_⟩
  · obtain ⟨⟨c, e⟩, hmem, rfl⟩ := List.mem_map.mp hcp
    have he := Std.ExtTreeMap.mem_toList_iff_getElem?_eq_some.mp hmem
    obtain ⟨rfl, hg⟩ := hentry c e he
    exact ⟨hg, e.2, he⟩
  · exact List.mem_map.mpr ⟨(c, e), Std.ExtTreeMap.mem_toList_iff_getElem?_eq_some.mpr he, rfl⟩
  · refine (OrdMap.nodup_toList r.checkpoints).map_on ?_
    rintro ⟨c, e⟩ hmem ⟨c', e'⟩ hmem' heq
    have he := Std.ExtTreeMap.mem_toList_iff_getElem?_eq_some.mp hmem
    have he' := Std.ExtTreeMap.mem_toList_iff_getElem?_eq_some.mp hmem'
    have hc := (hentry c e he).1
    have hc' := (hentry c' e' he').1
    dsimp only at heq
    rw [← heq, ← hc] at hc'
    subst hc'
    rw [he] at he'
    rw [Option.some.inj he']

/-- Loading a snapshot's records, in any order that keeps each chain's own. -/
theorem load_shuffled {s : Store} {r : Registry C} (A : Agree s r) (me : NodeIdentity C) {ops : List Op}
    (h : Shuffled ops r.listed) (heads : List Bytes) (revision : Option Int64) :
    let loaded := fromSnapshotAs { records := ops.map Op.encoding, heads, revision } me
    loaded.2 = 0 ∧ loaded.1.ops = ops.filter (fun op => ¬ op.gladeId = gCheckpoints) ∧ loaded.1.tips = r.tips ∧
      loaded.1.checkpoints = r.checkpoints ∧ (∃ s', Agree s' loaded.1) ∧ loaded.1.identity = some me ∧
      loaded.1.policyQuarantined = false := by
  obtain ⟨hperm, hchains⟩ := h
  obtain ⟨hcps, hentries, hnodup⟩ := A.checkpoint_ops
  set cps := ops.filter (fun op => op.gladeId = gCheckpoints) with hcpsdef
  set rest := ops.filter (fun op => ¬ op.gladeId = gCheckpoints) with hrestdef
  have hcpsperm : cps.Perm (r.checkpoints.toList.map (fun e => e.2.1)) := by
    have hp := hperm.filter (fun op => op.gladeId = gCheckpoints)
    have hkeep : (r.checkpoints.toList.map (fun e => e.2.1)).filter (fun op => op.gladeId = gCheckpoints) =
        r.checkpoints.toList.map (fun e => e.2.1) := List.filter_eq_self.mpr fun cp hcp => by simp [(hcps cp hcp).1]
    have hdrop : r.ops.filter (fun op => op.gladeId = gCheckpoints) = [] :=
      List.filter_eq_nil_iff.mpr fun op hop => by simp [(A.streams op hop).2]
    rwa [listed, List.filter_append, hkeep, hdrop, List.append_nil] at hp
  have hheld : ∀ c : StreamId, c.stream ≠ gCheckpoints → rest.filter (fun op => streamOf op = c) = r.held c := by
    intro c hc
    have hown : ∀ op, streamOf op = c → ¬ op.gladeId = gCheckpoints := by
      rintro op rfl
      exact hc
    have hrest : rest.filter (fun op => streamOf op = c) = ops.filter (fun op => streamOf op = c) := by
      rw [hrestdef, List.filter_filter]
      refine List.filter_congr fun op _ => ?_
      by_cases hop : streamOf op = c
      · simp [hop, hown op hop]
      · simp [hop]
    have hdrop : (r.checkpoints.toList.map (fun e => e.2.1)).filter (fun op => streamOf op = c) = [] :=
      List.filter_eq_nil_iff.mpr fun cp hcp hop => hown cp (by simpa using hop) (hcps cp hcp).1
    rw [hrest, hchains c, listed, List.filter_append, hdrop, List.nil_append, held]
  obtain ⟨hall, ⟨s₁, A₁⟩, hme₁, hq₁, hops₁, hreg₁⟩ := load_checkpoints A me
    (fun cp hcp => (hcps cp (hcpsperm.mem_iff.mp hcp)).2) (hcpsperm.nodup_iff.mpr hnodup)
  -- Every checkpoint of the register is in the list, so the load's register is it.
  have hregister : (ingests (sealedAs me) cps).checkpoints = r.checkpoints := by
    refine Std.ExtTreeMap.ext_getElem? fun c => ?_
    rw [hreg₁]
    split_ifs with hc
    · rfl
    · cases he : r.checkpoints[c]? with
      | none => rfl
      | some e =>
        obtain ⟨heq, hmem⟩ := hentries c e he
        exact absurd ⟨e.1, hcpsperm.mem_iff.mpr hmem, heq⟩ hc
  have hrestv : ∀ op ∈ rest, verify C op = .ok () ∧ op.gladeId ≠ gCheckpoints := by
    intro op hop
    rw [hrestdef, List.mem_filter] at hop
    have hg : op.gladeId ≠ gCheckpoints := by simpa using hop.2
    rcases List.mem_append.mp (hperm.mem_iff.mp hop.1) with hmem | hmem
    · exact absurd (hcps op hmem).1 hg
    · exact ⟨(A.streams op hmem).1, hg⟩
  obtain ⟨hall₂, ⟨s₂, A₂⟩, hme₂, hq₂, hops₂, hreg₂⟩ := load_rest A₁ hme₁ hrestv fun c hc => by
    have hnil : (ingests (sealedAs me) cps).held c = [] := by rw [held, hops₁, List.filter_nil]
    rw [hnil, List.nil_append, hheld c hc, hregister, ← A.register, ← A.logs c hc]
    exact A.inv.chained_home rfl hc
  set r₂ := ingests (ingests (sealedAs me) cps) rest with hr₂
  have hdecode : (ops.map Op.encoding).filterMap (fun bytes => (decodeOp bytes).toOption) = ops := by
    rw [List.filterMap_map]
    simp [Function.comp_def, decodeOp_encoding, Except.toOption]
  have hload : fromSnapshotAs { records := ops.map Op.encoding, heads, revision } me = (r₂, 0) := by
    have hnot : ops.filter (not ∘ fun op => decide (op.gladeId = gCheckpoints)) = rest :=
      List.filter_congr fun op _ => by simp
    have hfold : (cps ++ rest).foldl Loading.take ⟨sealedAs me, 0, ∅⟩ = ⟨ingests (sealedAs me) (cps ++ rest), 0, ∅⟩ :=
      foldl_take rfl (allTaken_append.mpr ⟨hall, hall₂⟩)
    have hing : ingests (sealedAs me) (cps ++ rest) = r₂ := by rw [ingests, List.foldl_append]; rfl
    rw [fromSnapshotAs, load, hdecode]
    simp only [List.length_map, Nat.sub_self, List.partition_eq_filter_filter, hnot]
    rw [← hing]
    exact congrArg (fun st : Loading C => (st.reg, st.rejected)) hfold
  rw [hload]
  refine ⟨rfl, by rw [hops₂, hops₁, List.nil_append], ?_, hreg₂.trans hregister, ⟨s₂, A₂⟩, hme₂, hq₂.trans hq₁⟩
  refine Std.ExtTreeMap.ext_getElem? fun c => ?_
  by_cases hc : c.stream = gCheckpoints
  · obtain ⟨stream, origin⟩ := c
    obtain rfl : stream = gCheckpoints := hc
    rw [A.checkpointTips, A₂.checkpointTips, hreg₂, hregister]
  · have hsame : r₂.held c = r.held c := by rw [held, hops₂, hops₁, List.nil_append, hheld c hc]
    rw [A.tips c hc, A₂.tips c hc, hreg₂, hregister, hsame]

/-- Every registry a run reaches is loaded whole from its own snapshot; from the
same records in any order that keeps each chain's own, its chains, tips and
checkpoints are, and its ops stand in the order they were listed in. -/
theorem reload_run (C : Crypto) (me : NodeIdentity C) (calls : List Call) :
    let r := run me calls
    let loaded := fromSnapshotAs r.snapshot me
    (loaded.2 = 0 ∧ loaded.1.ops = r.ops ∧ loaded.1.tips = r.tips ∧ loaded.1.checkpoints = r.checkpoints ∧
      loaded.1.snapshot = r.snapshot) ∧
    ∀ ops : List Op, Shuffled ops r.listed →
      let loaded := fromSnapshotAs { r.snapshot with records := ops.map Op.encoding } me
      loaded.2 = 0 ∧ loaded.1.ops = ops.filter (fun op => ¬ op.gladeId = gCheckpoints) ∧ loaded.1.tips = r.tips ∧
        loaded.1.checkpoints = r.checkpoints := by
  intro r loaded
  obtain ⟨⟨s, A⟩, -, -⟩ := agree_of_run me calls
  refine ⟨?_, fun ops hops => ?_⟩
  · obtain ⟨hrejected, hops, htips, hcps, -⟩ := load_shuffled A me ⟨.refl _, fun _ => rfl⟩ r.snapshot.heads none
    have hown : r.listed.filter (fun op => ¬ op.gladeId = gCheckpoints) = r.ops := by
      rw [listed, List.filter_append, List.filter_eq_nil_iff.mpr, List.nil_append, List.filter_eq_self.mpr]
      · exact fun op hop => by simpa using (A.streams op hop).2
      · exact fun cp hcp => by simpa using (A.checkpoint_ops.1 cp hcp).1
    have hops' : loaded.1.ops = r.ops := hops.trans hown
    refine ⟨hrejected, hops', htips, hcps, ?_⟩
    have hlisted : loaded.1.listed = r.listed := by rw [listed, hops', listed, show loaded.1.checkpoints = _ from hcps]
    have hheads : loaded.1.heads = r.heads := by rw [heads, heads, show loaded.1.tips = _ from htips]
    rw [snapshot, snapshot, hlisted, hheads]
  · obtain ⟨hrejected, hops, htips, hcps, -⟩ := load_shuffled A me hops r.snapshot.heads none
    exact ⟨hrejected, hops, htips, hcps⟩

/-- The first record of a chain, when it is small, is appended. -/
theorem appendReturning_first {s : Store} {r : Registry C} (A : Agree s r) {me : NodeIdentity C}
    (hme : r.identity = some me) (record : Record) (hg : record.gladeId ≠ gCheckpoints)
    (hfamily : Record.isBindingFamily record.gladeId = false)
    (ht : r.tips[(⟨record.gladeId, me.name⟩ : StreamId)]? = none)
    (hlen : (utf8 record.gladeId).length + record.encode.length < 2 ^ 60) :
    ∃ op, r.Minted me record op ∧ r.appendReturning record me.name = .ok (op, r.take op) := by
  set d := r.nextOp record me.name with hd
  have hseq : d.seq = 0 := by rw [hd, nextOp, ht]
  have hvalid : OpData.Valid { d with payload := sealRecord me d } :=
    valid_seal_nextOp hfamily (by rw [← hd, hseq]; decide) hlen
  have hmint : r.Minted me record ⟨_, hvalid⟩ := rfl
  have hlink := link_of_extends (hmint.gladeId_eq ▸ hg) (hmint.extends_chain A (hmint.gladeId_eq ▸ hg))
  refine ⟨⟨_, hvalid⟩, hmint, ?_⟩
  rw [appendReturning, hme, if_neg (by simp)]
  simp only [← hd, Op.ofData, dif_pos hvalid, hlink]

/-- Two records of two chains, listed the other way round, load in that order. -/
theorem reload_swapped : ¬ ∃ C : Crypto, ∀ (me : NodeIdentity C) (calls : List Call) (ops : List Op),
    Shuffled ops (run me calls).listed →
    (fromSnapshotAs { (run me calls).snapshot with records := ops.map Op.encoding } me).1.ops = (run me calls).ops := by
  rintro ⟨C, h⟩
  let me : NodeIdentity C := ⟨⟨List.replicate 32 0, by simp⟩⟩
  let first : Record := .principal ⟨"p"⟩
  let second : Record := .revoke ⟨"p", "s"⟩
  obtain ⟨a, hmint₁, happend₁⟩ := appendReturning_first (agree_empty me) rfl first (by decide) (by decide)
    (by simp [sealedAs, new]) (by decide)
  have hrun₁ : run me [.append first me.name] = (sealedAs me).take a := by
    rw [run, List.foldl_cons, List.foldl_nil, called, happend₁]
  obtain ⟨⟨s, A⟩, hme, -⟩ := agree_of_run me [.append first me.name]
  rw [hrun₁] at A hme
  have hne : streamOf a ≠ ⟨second.gladeId, me.name⟩ := by
    rw [hmint₁.streamOf_eq]
    intro heq
    have hstream : gPrincipals = gRevocations := congrArg StreamId.stream heq
    revert hstream
    decide
  obtain ⟨b, hmint₂, happend₂⟩ := appendReturning_first A hme second (by decide) (by decide)
    (by simp [Registry.take, sealedAs, new, hne]) (by decide)
  have hstreams : streamOf a ≠ streamOf b := by rwa [hmint₂.streamOf_eq]
  set r := run me [.append first me.name, .append second me.name] with hr
  have hrun : r = ((sealedAs me).take a).take b := by
    have hstep₁ : (sealedAs me).called (.append first me.name) = (sealedAs me).take a := by rw [called, happend₁]
    have hstep₂ : ((sealedAs me).take a).called (.append second me.name) = ((sealedAs me).take a).take b := by
      rw [called, happend₂]
    rw [hr, run, List.foldl_cons, List.foldl_cons, List.foldl_nil, hstep₁, hstep₂]
  have hshuffled : Shuffled [b, a] r.listed := by
    have hlisted : r.listed = [a, b] := by
      rw [hrun]
      rfl
    rw [hlisted]
    refine ⟨.swap a b [], fun c => ?_⟩
    by_cases ha : streamOf a = c
    · have hb : streamOf b ≠ c := fun hb => hstreams (ha.trans hb.symm)
      simp [ha, hb]
    · simp [ha, List.filter_cons]
  obtain ⟨⟨s', A'⟩, -, -⟩ := agree_of_run me [.append first me.name, .append second me.name]
  have hloaded := (load_shuffled A' me hshuffled r.snapshot.heads none).2.1
  have hswapped := h me _ [b, a] hshuffled
  have hb : b.gladeId ≠ gCheckpoints := by
    rw [hmint₂.gladeId_eq]
    decide
  have ha : a.gladeId ≠ gCheckpoints := by
    rw [hmint₁.gladeId_eq]
    decide
  have heq : [b, a] = [a, b] := by
    have hops : r.ops = [a, b] := by
      rw [hrun]
      rfl
    rw [← hops, hr, ← hswapped]
    refine Eq.trans ?_ hloaded.symm
    simp [ha, hb]
  exact hstreams (congrArg streamOf (List.cons.inj heq).1).symm

end Glade.Registry
