import Glade.Store.Append

/-! Replaying a home journal. A journal that lists each chain's held ops in
their own order, checkpoints wherever they stand, replays to those chains and
that register, and covers nothing. -/

namespace Glade.Store

open Wire Node LinkedLog

variable {C : Crypto}

/-- An op that may be added at the end of its chain replays as a push. -/
theorem replayStep_push {logs : Logs} {register : Register} (I : Inv C logs register) {op : Op}
    (hv : verify C op = .ok ()) (hg : op.gladeId ≠ gCheckpoints)
    (hnext : (linking C).Next (FirstHome C register[chainOf op]?) (logs.at (chainOf op)) op) (covered : Bool) :
    replayStep C (logs, register, covered) op = some (push logs op, register, covered) := by
  have hverdict := (I.classifyHome_eq_appended hg).mpr hnext
  simp [replayStep, hverdict, checked, Verdict.needsCheck, hv, Except.isOk, Except.toBool]

/-- A checkpoint of a chain of which nothing is held replays as placed. -/
theorem replayStep_place (logs : Logs) (register : Register) {op : Op} {floor : Floor} (hv : verify C op = .ok ())
    (hg : op.gladeId = gCheckpoints) (hc : check op = .ok ⟨gClaims, floor⟩)
    (hr : register[homeChain gClaims op.origin]? = none) (hl : logs.at (homeChain gClaims op.origin) = [])
    (covered : Bool) :
    classifyHome C logs register op = .placed (homeChain gClaims op.origin) floor ∧
    replayStep C (logs, register, covered) op =
      some ((place logs register op (homeChain gClaims op.origin) floor).1,
        (place logs register op (homeChain gClaims op.origin) floor).2, covered) := by
  have hverdict : classifyHome C logs register op = .placed (homeChain gClaims op.origin) floor := by
    refine classifyHome_eq_placed.mpr ⟨hg, rfl, hc, ?_, ?_⟩
    · rw [hr]
      rfl
    · simp [hl]
  refine ⟨hverdict, ?_⟩
  simp [replayStep, hverdict, checked, Verdict.needsCheck, hv, Except.isOk, Except.toBool]

/-- The logs once `ops` are pushed, one after another. -/
theorem at_foldl_push (logs : Logs) (ops : List Op) (c : ChainId) :
    Logs.at (ops.foldl push logs) c = logs.at c ++ ops.filter (fun op => chainOf op = c) := by
  induction ops generalizing logs with
  | nil => simp
  | cons op ops ih =>
    rw [List.foldl_cons, ih, push, Logs.at_insert]
    by_cases h : chainOf op = c
    · subst h
      simp
    · simp [h]

/-- Verified ops that are, chain by chain, what may follow replay as pushes. -/
theorem foldlM_replayStep {logs : Logs} {register : Register} (I : Inv C logs register) {ops : List Op}
    (hv : ∀ op ∈ ops, verify C op = .ok () ∧ op.gladeId ≠ gCheckpoints)
    (hchain : ∀ c, c.share = home → c.gladeId ≠ gCheckpoints →
      (linking C).Chain (FirstHome C register[c]?) (logs.at c ++ ops.filter (fun op => chainOf op = c)))
    (covered : Bool) :
    ops.foldlM (replayStep C) (logs, register, covered) = some (ops.foldl push logs, register, covered) ∧
      Inv C (ops.foldl push logs) register := by
  induction ops generalizing logs with
  | nil => exact ⟨rfl, I⟩
  | cons op ops ih =>
    obtain ⟨hop, hg⟩ := hv op (by simp)
    have hs : op.share = home := (of_verify hop).1.1
    have hnext : (linking C).Next (FirstHome C register[chainOf op]?) (logs.at (chainOf op)) op := by
      have h := hchain (chainOf op) hs hg
      rw [List.filter_cons_of_pos (by simp), List.append_cons] at h
      exact (chain_concat.mp (chain_append_left h)).2
    have I' : Inv C (push logs op) register := I.push (hnext.mono fun h _ => h) fun _ => ⟨hop, hg⟩
    have hrest := ih I' (fun o ho => hv o (by simp [ho])) fun c hc hcg => by
      have h := hchain c hc hcg
      have hat := at_foldl_push logs [op] c
      rw [List.foldl_cons, List.foldl_nil] at hat
      rw [hat, List.append_assoc, ← List.filter_append]
      exact h
    rw [List.foldlM_cons, replayStep_push I hop hg hnext]
    exact hrest

/-- A listing of one home origin's ops that has each chain's in their order. -/
structure Lists (logs : Logs) (origin : String) (ops : List Op) : Prop where
  owned : ∀ op ∈ ops, op.share = home ∧ op.origin = origin
  chains : ∀ c : ChainId, c.share = home → c.origin = origin → ops.filter (fun op => chainOf op = c) = logs.at c

namespace Lists

variable {logs : Logs} {register : Register} (I : Inv C logs register) {origin : String} {ops : List Op}
  (hl : Lists logs origin ops)

include hl

theorem mem_at {op : Op} (hop : op ∈ ops) : op ∈ logs.at (chainOf op) := by
  obtain ⟨hs, ho⟩ := hl.owned op hop
  rw [← hl.chains (chainOf op) hs ho]
  simp [hop]

include I

theorem verified {op : Op} (hop : op ∈ ops) : verify C op = .ok () :=
  I.verified _ (hl.owned op hop).1 op (hl.mem_at hop)

/-- Its checkpoints are the one the register holds of the origin, if any. -/
theorem checkpoints_eq :
    ops.filter (fun op => op.gladeId = gCheckpoints) = ((register[homeChain gClaims origin]?).map Prod.fst).toList := by
  rw [← I.checkpoints origin, ← hl.chains (homeChain gCheckpoints origin) rfl rfl]
  refine List.filter_congr fun op hop => ?_
  obtain ⟨⟨hs, hk, -⟩, -⟩ := of_verify (hl.verified I hop)
  rw [decide_eq_decide, chainOf, homeChain, hs, hk, (hl.owned op hop).2]
  simp

end Lists

/-- The chains and the register an origin's own part of memory is. -/
def ownLogs (logs : Logs) (origin : String) (c : ChainId) : List Op :=
  if c.share = home ∧ c.origin = origin then logs.at c else []

/-- An origin's own part of the register is its claims chain's entry. -/
theorem ownRegister_eq {logs : Logs} {register : Register} (I : Inv C logs register) {origin : String} {c : ChainId}
    (ho : c.origin = origin) : (if c = homeChain gClaims origin then register[c]? else none) = register[c]? := by
  split_ifs with h
  · rfl
  · cases hr : register[c]? with
    | none => rfl
    | some e =>
      obtain ⟨hc, -⟩ := I.registered c e.1 e.2 hr
      subst ho
      rw [hc] at h
      exact absurd rfl h

/-- Replaying an origin's checkpoint, if it has one, over nothing. -/
theorem replay_checkpoints {logs : Logs} {register : Register} (I : Inv C logs register) (origin : String) :
    ∃ held floors, ((register[homeChain gClaims origin]?).map Prod.fst).toList.foldlM (replayStep C) (∅, ∅, false) =
        some (held, floors, false) ∧ Inv C held floors ∧
      (∀ c, held.at c = if c = homeChain gCheckpoints origin then logs.at c else []) ∧
      ∀ c, floors[c]? = if c = homeChain gClaims origin then register[c]? else none := by
  cases hr : register[homeChain gClaims origin]? with
  | none =>
    refine ⟨∅, ∅, rfl, inv_empty, fun c => ?_, fun c => ?_⟩
    · split_ifs with h
      · rw [h, I.checkpoints, hr]
        rfl
      · rfl
    · split_ifs with h
      · rw [h, hr]
        simp
      · simp
  | some e =>
    obtain ⟨cp, floor⟩ := e
    obtain ⟨hkey, hg, hv, hc⟩ := I.registered _ cp floor hr
    obtain rfl : origin = cp.origin := congrArg ChainId.origin hkey
    obtain ⟨hverdict, hstep⟩ := replayStep_place ∅ ∅ hv hg hc (by simp) (by simp [Logs.at]) false
    refine ⟨_, _, by simpa using hstep, inv_empty.place hv hverdict, fun c => ?_, fun c => ?_⟩
    · rw [inv_empty.place_eq floor hv hg, Logs.at_insert, Logs.at_insert]
      by_cases h : homeChain gCheckpoints cp.origin = c
      · rw [if_pos h, if_pos h.symm, ← h, I.checkpoints, hr]
        rfl
      · rw [if_neg h, if_neg (Ne.symm h)]
        split_ifs <;> simp [Logs.at, Linking.above]
    · rw [inv_empty.place_eq floor hv hg, Std.ExtTreeMap.getElem?_insert]
      by_cases h : homeChain gClaims cp.origin = c
      · simp [h, ← hr]
      · simp [h, Ne.symm h]

/-- A journal that lists what is held of its origin replays to it, whole. -/
theorem replayed_of_lists {logs : Logs} {register : Register} (I : Inv C logs register) {origin : String} {ops : List Op}
    (hl : Lists logs origin ops) :
    ∃ held floors, replayed C ops = some (held, floors, false) ∧ Inv C held floors ∧
      (∀ c, held.at c = ownLogs logs origin c) ∧
      ∀ c, floors[c]? = if c = homeChain gClaims origin then register[c]? else none := by
  obtain ⟨held, floors, hfold, I₀, hat, hfloors⟩ := replay_checkpoints I origin
  set rest := ops.filter (fun op => ¬ op.gladeId = gCheckpoints) with hrest
  have hfilter : ∀ c : ChainId, c.gladeId ≠ gCheckpoints →
      rest.filter (fun op => chainOf op = c) = ops.filter (fun op => chainOf op = c) := by
    intro c hc
    rw [hrest, List.filter_filter]
    refine List.filter_congr fun op _ => ?_
    by_cases h : chainOf op = c
    · have : op.gladeId ≠ gCheckpoints := by
        rw [← h] at hc
        exact hc
      simp [h, this]
    · simp [h]
  have hother : ∀ c : ChainId, ¬ (c.share = home ∧ c.origin = origin) → ops.filter (fun op => chainOf op = c) = [] := by
    intro c hc
    rw [List.filter_eq_nil_iff]
    intro op hop h
    obtain rfl : chainOf op = c := by simpa using h
    exact hc (hl.owned op hop)
  have hchain : ∀ c : ChainId, c.share = home → c.gladeId ≠ gCheckpoints →
      (linking C).Chain (FirstHome C floors[c]?) (held.at c ++ rest.filter (fun op => chainOf op = c)) := by
    intro c hs hg
    rw [hat, if_neg (fun h => hg (congrArg ChainId.gladeId h)), List.nil_append, hfilter c hg]
    by_cases ho : c.origin = origin
    · rw [hl.chains c hs ho, hfloors, ownRegister_eq I ho]
      exact I.chained_home hs hg
    · rw [hother c fun h => ho h.2]
      trivial
  have hv : ∀ op ∈ rest, verify C op = .ok () ∧ op.gladeId ≠ gCheckpoints := by
    intro op hop
    rw [hrest, List.mem_filter] at hop
    exact ⟨hl.verified I hop.1, by simpa using hop.2⟩
  obtain ⟨hpush, hinv⟩ := foldlM_replayStep I₀ hv hchain false
  refine ⟨rest.foldl push held, floors, ?_, hinv, fun c => ?_, hfloors⟩
  · rw [replayed, List.partition_eq_filter_filter]
    dsimp only
    have hnot : ops.filter (not ∘ fun op => decide (op.gladeId = gCheckpoints)) = rest := by
      rw [hrest]
      exact List.filter_congr fun op _ => by simp
    rw [List.foldlM_append, hl.checkpoints_eq I, hfold, hnot]
    exact hpush
  · rw [at_foldl_push, hat, ownLogs]
    by_cases hg : c.gladeId = gCheckpoints
    · have hnone : rest.filter (fun op => chainOf op = c) = [] := by
        rw [List.filter_eq_nil_iff]
        intro op hop h
        obtain rfl : chainOf op = c := by simpa using h
        exact (hv op hop).2 hg
      rw [hnone, List.append_nil]
      by_cases hc : c = homeChain gCheckpoints origin
      · subst hc
        simp [homeChain]
      · -- Another zone of the checkpoints' stream holds nothing.
        rw [if_neg hc]
        split_ifs with hown
        · refine (I.at_eq_nil_of_key hown.1 fun hk => hc ?_).symm
          cases c
          simp_all [homeChain]
        · rfl
    · rw [if_neg (fun h => hg (congrArg ChainId.gladeId h)), List.nil_append, hfilter c hg]
      split_ifs with hown
      · exact hl.chains c hown.1 hown.2
      · exact hother c hown

end Glade.Store
