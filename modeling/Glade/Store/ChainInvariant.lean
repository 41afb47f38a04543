import Glade.Store.Logs

/-! What the store's logs always are: a chain of consecutive ops that name each
other's hashes, a home chain of verified ops that starts at seq 0 or right above
its floor, and beside it the one checkpoint its register holds. The invariant is
kept by a push and by a placed checkpoint, the two ways memory changes. -/

namespace Glade.Store

open Wire Node LinkedLog

variable {C : Crypto}

/-! ### The verdicts that change memory -/

theorem follows_eq_appended {tip : Floor} {op : Op} :
    follows tip op = .appended ↔ (linking C).Follows tip op := by
  rw [follows, Linking.Follows]
  by_cases hseq : op.seq = tip.1 + 1
  · rw [if_neg (not_not.mpr hseq)]
    cases hprev : op.prev with
    | none => simp [linking, hseq, hprev]
    | some prev =>
      by_cases hp : prev = tip.2.val
      · simp [linking, hseq, hprev, hp]
      · simp [linking, hseq, hprev, hp]
  · rw [if_pos hseq]
    simp [linking, hseq]

theorem follows_ne_placed {tip : Floor} {op : Op} {folded : ChainId} {floor : Floor} :
    follows tip op ≠ .placed folded floor := by
  rw [follows]
  split
  · simp
  · split
    · split <;> simp
    · simp

theorem classify_eq_appended {log : List Op} {op : Op} :
    classify C log op = .appended ↔ (linking C).Next (fun _ => True) log op := by
  rw [classify, Linking.Next]
  cases hl : log.getLast? with
  | none => simp
  | some last =>
    change (if op.seq ≤ last.seq then _ else _) = _ ↔ (linking C).Follows ((linking C).tip last) op
    split
    case isTrue hle =>
      refine iff_of_false ?_ fun hf => ?_
      · split
        · split <;> simp
        · simp
      · have : op.seq = last.seq + 1 := hf.1
        omega
    case isFalse => exact follows_eq_appended

theorem classify_ne_placed {log : List Op} {op : Op} {folded : ChainId} {floor : Floor} :
    classify C log op ≠ .placed folded floor := by
  rw [classify]
  cases log.getLast? with
  | none => simp
  | some last =>
    dsimp only
    split
    · split
      · split <;> simp
      · simp
    · exact follows_ne_placed

/-- Which ops may start a home chain: one right above its floor, or at seq 0. -/
def FirstHome (C : Crypto) : Option (Op × Floor) → Op → Prop
  | some (_, floor), op => (linking C).Follows floor op
  | none, op => op.seq = 0

/-- Which ops may start a chain. -/
def First (C : Crypto) (register : Register) (c : ChainId) (op : Op) : Prop :=
  c.share = home → FirstHome C register[c]? op

/-- What the logs and the register always are. -/
structure Inv (C : Crypto) (logs : Logs) (register : Register) : Prop where
  /-- A log holds ops of its own chain. -/
  keyed : ∀ c, ∀ op ∈ logs.at c, chainOf op = c
  verified : ∀ c, c.share = home → ∀ op ∈ logs.at c, verify C op = .ok ()
  chained : ∀ c, ¬ (c.share = home ∧ c.gladeId = gCheckpoints) → (linking C).Chain (First C register c) (logs.at c)
  /-- The register holds checkpoints of claims chains, each under the chain it folds. -/
  registered : ∀ c op floor, register[c]? = some (op, floor) →
    c = homeChain gClaims op.origin ∧ op.gladeId = gCheckpoints ∧ verify C op = .ok () ∧
      check op = .ok ⟨gClaims, floor⟩
  /-- An origin's log of checkpoints is the one its register holds. -/
  checkpoints : ∀ origin, logs.at (homeChain gCheckpoints origin) =
    ((register[homeChain gClaims origin]?).map Prod.fst).toList
  /-- Chains come with the ops written to them, and a folded chain with its checkpoint. -/
  present : ∀ c, c ∈ logs ↔ logs.at c ≠ [] ∨ c ∈ register

theorem inv_empty : Inv C ∅ ∅ where
  keyed := by simp [Logs.at]
  verified := by simp [Logs.at]
  chained := by simp [Logs.at]
  registered := by simp
  checkpoints := by simp [Logs.at]
  present := by simp [Logs.at]

theorem homeChain_claims_ne (o o' : String) : homeChain gCheckpoints o ≠ homeChain gClaims o' := by
  simp [homeChain, gCheckpoints, gClaims]

namespace Inv

variable {logs : Logs} {register : Register} (I : Inv C logs register)

include I

/-- A home chain that is not of checkpoints starts at seq 0 or above its floor. -/
theorem chained_home {c : ChainId} (hs : c.share = home) (hg : c.gladeId ≠ gCheckpoints) :
    (linking C).Chain (FirstHome C register[c]?) (logs.at c) :=
  (I.chained c (fun h => hg h.2)).mono fun _ h => h hs

/-- A held op stands above its chain's floor. -/
theorem lt_seq {c : ChainId} {cp : Op} {floor : Floor} (hr : register[c]? = some (cp, floor)) :
    ∀ op ∈ logs.at c, floor.1 < op.seq := by
  obtain ⟨rfl, -⟩ := I.registered c cp floor hr
  have h := I.chained_home (c := homeChain gClaims cp.origin) rfl (by simp [homeChain, gClaims, gCheckpoints])
  rw [hr] at h
  exact lt_seq_of_chain_follows h

/-- A zone of the home share with a key holds nothing. -/
theorem at_eq_nil_of_key {c : ChainId} (hs : c.share = home) (hk : c.key ≠ []) : logs.at c = [] := by
  rw [List.eq_nil_iff_forall_not_mem]
  intro op hop
  have hkey := (of_verify (I.verified c hs op hop)).1.2.1
  rw [← I.keyed c op hop] at hk
  exact hk hkey

/-- A home op that is not a checkpoint is appended exactly when it may be added
at the end of its chain. -/
theorem classifyHome_eq_appended {op : Op} (hg : op.gladeId ≠ gCheckpoints) :
    classifyHome C logs register op = .appended ↔
      (linking C).Next (FirstHome C register[chainOf op]?) (logs.at (chainOf op)) op := by
  rw [classifyHome, if_neg hg]
  cases hr : register[chainOf op]? with
  | none =>
    dsimp only
    obtain hlog | ⟨init, last, hlog⟩ := List.eq_nil_or_concat' (logs.at (chainOf op))
    · rw [hlog, next_nil, FirstHome]
      by_cases h0 : op.seq = 0 <;> simp [h0, classify]
    · rw [if_neg (fun h => by simp [hlog] at h), classify_eq_appended, hlog, next_concat, next_concat]
  | some r =>
    obtain ⟨cp, floor⟩ := r
    dsimp only
    by_cases hab : floor.1 < op.seq
    · simp only [against, if_pos hab]
      obtain hlog | ⟨init, last, hlog⟩ := List.eq_nil_or_concat' (logs.at (chainOf op))
      · rw [if_pos hlog, hlog, next_nil, follows_eq_appended]
        rfl
      · rw [if_neg (by simp [hlog]), classify_eq_appended, hlog, next_concat, next_concat]
    · -- At or below the floor nothing can follow: what is held stands above it.
      refine iff_of_false ?_ fun hnext => hab ?_
      · simp only [against, if_neg hab]
        split_ifs <;> simp
      · obtain hlog | ⟨init, last, hlog⟩ := List.eq_nil_or_concat' (logs.at (chainOf op))
        · rw [hlog, next_nil] at hnext
          have : op.seq = floor.1 + 1 := hnext.1
          omega
        · have hlast := I.lt_seq hr last (by simp [hlog])
          rw [hlog, next_concat] at hnext
          have : op.seq = last.seq + 1 := hnext.1
          omega

end Inv

theorem against_eq_fork {floor : Floor} {op : Op} :
    against C floor op = .fork ↔ op.seq = floor.1 ∧ opHash C op ≠ floor.2 := by
  rw [against]
  split_ifs with hab h
  · simp only [false_iff, not_and]
    omega
  · simpa using h
  · simpa using h

theorem atBase_eq_placed {logs : Logs} {folded folded' : ChainId} {floor floor' : Floor} :
    atBase C logs folded floor = .placed folded' floor' ↔
      folded = folded' ∧ floor = floor' ∧
        ∀ held, (logs.at folded).find? (fun held => held.seq = floor.1) = some held → opHash C held = floor.2 := by
  rw [atBase]
  cases hf : (logs.at folded).find? (fun held => held.seq = floor.1) with
  | none => simp
  | some held =>
    have hseq : held.seq = floor.1 := by simpa using List.find?_some hf
    by_cases hh : opHash C held = floor.2 <;> simp [against_eq_fork, hseq, hh]

/-- A checkpoint is placed over an older one whose base is lower, or the same
with the same hash, and names it if it is right before it. -/
theorem placement_eq_placed {op : Op} {floor : Floor} {held : Op × Floor} :
    placement C (op, floor) (some held) = .placed ↔
      held.1.seq < op.seq ∧ (held.2.1 < floor.1 ∨ held.2 = floor) ∧
        (op.seq = held.1.seq + 1 → op.prev = some (opHash C held.1).val) := by
  simp only [placement]
  split_ifs with h1 h2 h3 h4 h5 <;> simp only [false_iff, true_iff]
  · omega
  · omega
  · omega
  · rintro ⟨-, h | h, -⟩
    · omega
    · simp [h] at h4
  · tauto
  · refine ⟨by omega, ?_, by tauto⟩
    rcases lt_trichotomy held.2.1 floor.1 with h | h | h
    · exact .inl h
    · have : held.2.2 = floor.2 := by tauto
      exact .inr (Prod.ext h this)
    · omega

/-- Only a checkpoint is placed. -/
theorem classifyHome_ne_placed {logs : Logs} {register : Register} {op : Op} {folded : ChainId} {floor : Floor}
    (hg : op.gladeId ≠ gCheckpoints) : classifyHome C logs register op ≠ .placed folded floor := by
  rw [classifyHome, if_neg hg]
  dsimp only
  split
  · split
    · simp
    · exact classify_ne_placed
  · split
    · simp
    · simp
    · split
      · exact follows_ne_placed
      · exact classify_ne_placed

/-- A checkpoint that passes its check is placed or refused, never pushed. -/
theorem classifyHome_ne_appended {logs : Logs} {register : Register} {op : Op} {c : Checkpoint}
    (hg : op.gladeId = gCheckpoints) (hc : check op = .ok c) : classifyHome C logs register op ≠ .appended := by
  have hbase : ∀ folded floor, atBase C logs folded floor ≠ .appended := by
    intro folded floor
    rw [atBase]
    split
    · split <;> simp
    · simp
  rw [classifyHome, if_pos hg, classifyCheckpoint, hc]
  dsimp only
  split
  · exact hbase _ _
  · split
    · exact hbase _ _
    all_goals simp

/-- When a checkpoint is placed: it passes its check, the register takes it over
the one it holds, and the op held at its base, if any, hashes to it. -/
theorem classifyHome_eq_placed {logs : Logs} {register : Register} {op : Op} {folded : ChainId} {floor : Floor} :
    classifyHome C logs register op = .placed folded floor ↔
      op.gladeId = gCheckpoints ∧ folded = homeChain gClaims op.origin ∧ check op = .ok ⟨gClaims, floor⟩ ∧
        placement C (op, floor) register[folded]? = .placed ∧
        ∀ held, (logs.at folded).find? (fun held => held.seq = floor.1) = some held → opHash C held = floor.2 := by
  by_cases hg : op.gladeId = gCheckpoints
  case neg => exact iff_of_false (classifyHome_ne_placed hg) fun h => hg h.1
  rw [classifyHome, if_pos hg, classifyCheckpoint]
  cases hc : check op with
  | error e => simp
  | ok c =>
    obtain ⟨stream, f⟩ := c
    obtain rfl : stream = gClaims := (check_eq_ok hc).1
    dsimp only
    cases hr : register[homeChain gClaims op.origin]? with
    | none =>
      dsimp only
      rw [atBase_eq_placed]
      constructor
      · rintro ⟨rfl, rfl, h⟩
        exact ⟨hg, rfl, rfl, by rw [hr]; rfl, h⟩
      · rintro ⟨-, rfl, hf, -, h⟩
        cases hf
        exact ⟨rfl, rfl, h⟩
    | some held =>
      dsimp only
      cases hp : placement C (op, f) (some held) with
      | placed =>
        dsimp only
        rw [atBase_eq_placed]
        constructor
        · rintro ⟨rfl, rfl, h⟩
          exact ⟨hg, rfl, rfl, by rw [hr]; exact hp, h⟩
        · rintro ⟨-, rfl, hf, -, h⟩
          cases hf
          exact ⟨rfl, rfl, h⟩
      | _ =>
        refine iff_of_false (by simp) ?_
        rintro ⟨-, rfl, hf, hpl, -⟩
        cases hf
        rw [hr, hp] at hpl
        cases hpl

namespace Inv

variable {logs : Logs} {register : Register} (I : Inv C logs register)

include I

/-- A push of an op that may be added at the end of its chain. -/
theorem push {op : Op} (hnext : (linking C).Next (First C register (chainOf op)) (logs.at (chainOf op)) op)
    (hhome : op.share = home → verify C op = .ok () ∧ op.gladeId ≠ gCheckpoints) : Inv C (push logs op) register := by
  have hat : ∀ c, (Store.push logs op).at c = if chainOf op = c then logs.at c ++ [op] else logs.at c := by
    intro c
    rw [Store.push, Logs.at_insert]
    split_ifs with h
    · rw [h]
    · rfl
  refine ⟨fun c => ?_, fun c hs => ?_, fun c hc => ?_, I.registered, fun origin => ?_, fun c => ?_⟩
  all_goals rw [hat]
  · split_ifs with h
    · simpa [or_imp, forall_and, h] using I.keyed c
    · exact I.keyed c
  · split_ifs with h
    · have hv := (hhome (by rw [← hs, ← h]; rfl)).1
      simpa [or_imp, forall_and, hv] using I.verified c hs
    · exact I.verified c hs
  · split_ifs with h
    · rw [chain_concat, ← h]
      exact ⟨I.chained _ (h ▸ hc), hnext⟩
    · exact I.chained c hc
  · rw [if_neg, I.checkpoints]
    intro h
    have hs : op.share = home := congrArg ChainId.share h
    exact (hhome hs).2 (congrArg ChainId.gladeId h)
  · rw [Store.push, Std.ExtTreeMap.mem_insert, I.present]
    split_ifs with h <;> simp [h]

/-- The ops of a folded chain above a floor its checkpoint gives start right above it. -/
theorem chain_above_floor {op : Op} {floor : Floor} (hc : check op = .ok ⟨gClaims, floor⟩)
    (hp : placement C (op, floor) register[homeChain gClaims op.origin]? = .placed)
    (hbase : ∀ held, (logs.at (homeChain gClaims op.origin)).find? (fun held => held.seq = floor.1) = some held →
      opHash C held = floor.2) :
    (linking C).Chain ((linking C).Follows floor)
      ((linking C).above floor.1 (logs.at (homeChain gClaims op.origin))) := by
  have hchain := I.chained_home (c := homeChain gClaims op.origin) rfl (by simp [homeChain, gClaims, gCheckpoints])
  refine chain_above hchain (fun x hx hseq => ?_) (fun x hx => ?_)
  · -- The op the scan finds at the base is the only one there.
    cases hf : (logs.at (homeChain gClaims op.origin)).find? (fun held => held.seq = floor.1) with
    | none => exact absurd hseq (by simpa using List.find?_eq_none.mp hf x hx)
    | some held =>
      have hheld : held.seq = floor.1 := by simpa using List.find?_some hf
      have heq : held = x := eq_of_seq_eq hchain (List.mem_of_find?_eq_some hf) hx (hheld.trans hseq.symm)
      exact heq ▸ hbase held hf
  · cases hr : register[homeChain gClaims op.origin]? with
    | none =>
      rw [hr] at hx
      have h0 : x.seq = 0 := hx
      have hpos : 0 ≤ floor.1 := (check_eq_ok hc).2
      exact .inl (by simpa [h0] using hpos)
    | some r =>
      rw [hr] at hx hp
      obtain ⟨-, hlt | rfl, -⟩ := placement_eq_placed.mp hp
      · have hseq : x.seq = r.2.1 + 1 := hx.1
        exact .inl (show x.seq ≤ floor.1 by omega)
      · exact .inr hx

/-- The register with a new checkpoint lists one for its origin. -/
theorem newest_eq (op : Op) (floor : Floor) :
    ((register.insert (homeChain gClaims op.origin) (op, floor)).toList.filter
      (fun e => e.1.origin = op.origin)).map (fun e => e.2.1) = [op] := by
  rw [OrdMap.filter_toList_eq (p := fun c => c.origin = op.origin) (k := homeChain gClaims op.origin) rfl]
  · simp
  intro c hc horigin
  rcases Std.ExtTreeMap.mem_insert.mp hc with h | h
  · exact (Std.LawfulEqOrd.eq_of_compare h).symm
  · obtain ⟨⟨cp, f⟩, hr⟩ := Option.isSome_iff_exists.mp (Std.ExtTreeMap.mem_iff_isSome_getElem?.mp h)
    obtain ⟨rfl, -⟩ := I.registered c cp f hr
    rw [← horigin]
    rfl

/-- Memory once a checkpoint is placed, chain by chain. -/
theorem place_eq {op : Op} (floor : Floor) (hv : verify C op = .ok ()) (hg : op.gladeId = gCheckpoints) :
    Store.place logs register op (homeChain gClaims op.origin) floor =
      ((logs.insert (homeChain gClaims op.origin) ((linking C).above floor.1 (logs.at (homeChain gClaims op.origin)))).insert
          (homeChain gCheckpoints op.origin) [op],
        register.insert (homeChain gClaims op.origin) (op, floor)) := by
  obtain ⟨⟨hshare, hkey, -⟩, -⟩ := of_verify hv
  have hown : chainOf op = homeChain gCheckpoints op.origin := by rw [chainOf, homeChain, hshare, hkey, hg]
  rw [Store.place]
  simp only [I.newest_eq op floor, hown, sortBySeq, List.insertionSort_cons, List.insertionSort_nil, List.orderedInsert_nil]
  rfl

/-- A placed checkpoint. -/
theorem place {op : Op} {folded : ChainId} {floor : Floor} (hv : verify C op = .ok ())
    (h : classifyHome C logs register op = .placed folded floor) :
    Inv C (place logs register op folded floor).1 (place logs register op folded floor).2 := by
  obtain ⟨hg, rfl, hc, hp, hbase⟩ := classifyHome_eq_placed.mp h
  rw [I.place_eq floor hv hg]
  set folded := homeChain gClaims op.origin with hfolded
  have hat : ∀ c, Logs.at ((logs.insert folded ((linking C).above floor.1 (logs.at folded))).insert
      (homeChain gCheckpoints op.origin) [op]) c =
        if homeChain gCheckpoints op.origin = c then [op]
        else if folded = c then (linking C).above floor.1 (logs.at folded) else logs.at c := by
    intro c
    rw [Logs.at_insert, Logs.at_insert]
  have hreg : ∀ c, (register.insert folded (op, floor))[c]? = if folded = c then some (op, floor) else register[c]? := by
    intro c
    rw [Std.ExtTreeMap.getElem?_insert]
    simp
  obtain ⟨⟨hshare, hkey, -⟩, -⟩ := of_verify hv
  have hown : chainOf op = homeChain gCheckpoints op.origin := by rw [chainOf, homeChain, hshare, hkey, hg]
  exact
    { keyed := fun c => by
        rw [hat]
        split_ifs with h1 h2
        · simp [hown, h1]
        · intro o ho
          exact h2 ▸ I.keyed folded o (mem_above.mp ho).1
        · exact I.keyed c
      verified := fun c hs => by
        rw [hat]
        split_ifs with h1 h2
        · simpa using hv
        · intro o ho
          exact I.verified folded rfl o (mem_above.mp ho).1
        · exact I.verified c hs
      chained := fun c hnc => by
        rw [hat]
        split_ifs with h1 h2
        · exact absurd ⟨h1 ▸ rfl, h1 ▸ rfl⟩ hnc
        · refine (I.chain_above_floor hc hp hbase).mono fun o ho _ => ?_
          rw [hreg, if_pos h2]
          exact ho
        · refine (I.chained c hnc).mono fun o ho hs => ?_
          rw [hreg, if_neg h2]
          exact ho hs
      registered := fun c cp f => by
        rw [hreg]
        split_ifs with h1
        · intro h
          obtain ⟨rfl, rfl⟩ := Prod.mk.inj (Option.some.inj h)
          exact ⟨h1.symm, hg, hv, hc⟩
        · exact I.registered c cp f
      checkpoints := fun origin => by
        rw [hat, hreg, if_neg (c := folded = homeChain gCheckpoints origin) (homeChain_claims_ne _ _).symm]
        by_cases ho : op.origin = origin
        · subst ho
          simp [hfolded]
        · have h1 : homeChain gCheckpoints op.origin ≠ homeChain gCheckpoints origin := by simp [homeChain, ho]
          have h2 : folded ≠ homeChain gClaims origin := by simp [hfolded, homeChain, ho]
          rw [if_neg h1, if_neg h2, I.checkpoints]
      present := fun c => by
        rw [hat, Std.ExtTreeMap.mem_insert, Std.ExtTreeMap.mem_insert, Std.ExtTreeMap.mem_insert, I.present]
        by_cases h1 : homeChain gCheckpoints op.origin = c <;> by_cases h2 : folded = c <;> simp [h1, h2] }

end Inv

end Glade.Store
