import Glade.Store.Append

/-! What a store holds: an op it says it appended, or held already, is at its place,
and stays there but on the home share, whose checkpoints fold ops away. -/

namespace Glade.Store

open Wire Node

variable {C : Crypto}

/-- An op is in the log of its chain: itself, or another of its hash. -/
def HoldsOp (C : Crypto) (logs : Logs) (op : Op) : Prop := ∃ held ∈ logs.at (chainOf op), opHash C held = opHash C op

theorem HoldsOp.of_le {logs logs' : Logs} {op : Op} (h : HoldsOp C logs op)
    (hle : ∀ held ∈ logs.at (chainOf op), held ∈ logs'.at (chainOf op)) : HoldsOp C logs' op := by
  obtain ⟨held, hmem, hhash⟩ := h
  exact ⟨held, hle held hmem, hhash⟩

theorem mem_push {logs : Logs} {op held : Op} {chain : ChainId} (h : held ∈ logs.at chain) : held ∈ (push logs op).at chain := by
  unfold push
  rw [Logs.at_insert]
  split_ifs with hchain
  · exact List.mem_append_left _ (hchain ▸ h)
  · exact h

theorem mem_push_self (logs : Logs) (op : Op) : op ∈ (push logs op).at (chainOf op) := by
  unfold push
  rw [Logs.at_insert, if_pos rfl]
  exact List.mem_append_right _ (List.mem_singleton_self op)

/-- A checkpoint placed leaves every chain off the home share as it was. -/
theorem place_at (logs : Logs) (register : Register) {op : Op} (hop : op.share = home) {folded : ChainId}
    (hfolded : folded.share = home) (floor : Floor) {chain : ChainId} (hchain : chain.share ≠ home) :
    (place logs register op folded floor).1.at chain = logs.at chain := by
  unfold place
  dsimp only
  have hself : chainOf op ≠ chain := fun heq => hchain (heq ▸ hop)
  have hfold : folded ≠ chain := fun heq => hchain (heq ▸ hfolded)
  rw [Logs.at_insert, if_neg hself, Logs.at_insert, if_neg hfold]

/-- An append keeps what is held off the home share. -/
theorem append_holds (s : Store) (disk : Disk) (op : Op) (fault : Option Fault) {op' : Op} (hshare : op'.share ≠ home)
    (h : HoldsOp C s.logs op') : HoldsOp C (append C s disk op fault).2.1.logs op' := by
  have hchange := append_change (C := C) s disk op fault
  generalize (append C s disk op fault).2.1.register = register at hchange
  generalize (append C s disk op fault).2.1.logs = logs at hchange
  cases hchange with
  | none => exact h
  | push => exact h.of_le fun _ => mem_push
  | place folded floor hverdict =>
    by_cases hop : op.share = home
    · rw [verdictOf, if_pos hop, classifyHome_eq_placed] at hverdict
      obtain ⟨-, hfolded, -⟩ := hverdict
      have hhome : folded.share = home := by
        rw [hfolded]
        rfl
      have hchain : (chainOf op').share ≠ home := hshare
      have hsame := place_at s.logs s.register hop hhome floor hchain
      exact h.of_le fun held hheld => hsame ▸ hheld
    · rw [verdictOf, if_neg hop] at hverdict
      exact absurd hverdict classify_ne_placed

/-- A duplicate is held, by its hash. -/
theorem holds_of_duplicate {logs : Logs} {op : Op} (h : classify C (logs.at (chainOf op)) op = .duplicate) :
    HoldsOp C logs op := by
  unfold classify at h
  split at h
  · cases h
  · split_ifs at h
    · split at h
      · rename_i stored hfind
        split_ifs at h with hhash
        exact ⟨stored, List.mem_of_find?_eq_some hfind, hhash⟩
      · cases h
    · unfold follows at h
      split_ifs at h
      split at h
      · split_ifs at h
      · cases h

/-- The store holds an op off the home share that it says it appended, or held. -/
theorem holds_of_append {s : Store} {disk : Disk} {op : Op} {fault : Option Fault} (hshare : op.share ≠ home)
    (h : (append C s disk op fault).1 = .ok .appended ∨ (append C s disk op fault).1 = .ok .duplicate) :
    HoldsOp C (append C s disk op fault).2.1.logs op := by
  unfold append at h ⊢
  split_ifs at h ⊢
  · simp at h
  · simp at h
  split at h
  · simp at h
  split at h
  · simp at h
  rw [verdictOf, if_neg hshare] at h ⊢
  cases hverdict : classify C (s.logs.at (chainOf op)) op with
  | duplicate => exact holds_of_duplicate hverdict
  | appended =>
    rw [hverdict] at h
    unfold commit at h ⊢
    dsimp only at h ⊢
    split at h
    · exact ⟨op, mem_push_self s.logs op, rfl⟩
    · simp at h
  | placed folded floor => exact absurd hverdict classify_ne_placed
  | _ =>
    rw [hverdict] at h
    unfold commit at h
    dsimp only at h
    try split at h
    all_goals simp at h

end Glade.Store
