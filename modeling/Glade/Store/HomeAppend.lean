import Glade.Store.Append

/-! Appends whose I/O calls all go through. The surface contract never stands in
the way of a home op that verifies, so such an op is appended exactly when it
may be added at the end of its chain, and a checkpoint exactly when the register
takes it. -/

namespace Glade.Store

open Wire Node LinkedLog

variable {C : Crypto}

/-! ### The marker -/

theorem toList_getLast?_logName (origin : String) : (logName origin).toList.getLast? = some 'g' := by
  simp [logName, String.toList_append]

/-- No journal has the marker's path. -/
theorem logPath_ne_sealedMarker (share origin : String) : logPath share origin ≠ sealedMarker := by
  intro h
  have hname : (logPath share origin).getLast? = some (logName origin) := by
    have hne : logName origin ≠ "" := by
      intro h0
      have := toList_getLast?_logName origin
      simp [h0] at this
    rw [logPath, join, if_neg hne, List.getLast?_concat]
  rw [h] at hname
  have hlast := toList_getLast?_logName origin
  rw [← Option.some.inj hname] at hlast
  revert hlast
  decide

theorem appendFile_of_none (disk : Disk) (path : Path) (bytes : Bytes) :
    appendFile disk path bytes none = (true, disk.insert path (disk.bytes path ++ bytes)) := rfl

theorem replaceFile_of_none (disk : Disk) (temp path : Path) (bytes : Bytes) :
    replaceFile disk temp path bytes none = (true, (disk.erase temp).insert path bytes) := rfl

/-- What an append whose I/O calls all go through leaves on disk. -/
theorem sealedMarker_not_mem_append {s : Store} {disk : Disk} {op : Op} (h : sealedMarker ∉ disk) :
    sealedMarker ∉ (append C s disk op none).2.2 := by
  have hproof : proofsPath ≠ sealedMarker := by decide
  rw [append]
  split
  · exact h
  split
  · exact h
  split
  · exact h
  cases s.verdictOf C op with
  | duplicate => exact h
  | belowRetained => exact h
  | gap expected got => exact h
  | chainBreak => exact h
  | equivocation stored =>
    simp [commit, recordEquivocation, appendFile_of_none, hproof, h]
  | rewrite stored =>
    simp [commit, recordEquivocation, appendFile_of_none, hproof, h]
  | appended =>
    simp [commit, appendFile_of_none, logPath_ne_sealedMarker, h]
  | placed folded floor =>
    simp [commit, rewrite, replaceFile_of_none, logPath_ne_sealedMarker, h]

/-! ### Home ops -/

theorem Logs.mem_toList_of_at {logs : Logs} {c : ChainId} (h : logs.at c ≠ []) : (c, logs.at c) ∈ logs.toList := by
  rw [Std.ExtTreeMap.mem_toList_iff_getElem?_eq_some]
  rw [Logs.at, Std.ExtTreeMap.getD_eq_getD_getElem?] at h ⊢
  cases hget : logs[c]? with
  | none =>
    rw [hget] at h
    exact absurd rfl h
  | some log => rfl

theorem Logs.at_of_mem_toList {logs : Logs} {c : ChainId} {log : List Op} (h : (c, log) ∈ logs.toList) :
    logs.at c = log := by
  rw [Std.ExtTreeMap.mem_toList_iff_getElem?_eq_some] at h
  rw [Logs.at, Std.ExtTreeMap.getD_eq_getD_getElem?, h]
  rfl

/-- A home op that verifies keeps every surface's contract. -/
theorem validateSurfaceContract_of_verify {logs : Logs} {register : Register} (I : Inv C logs register) {op : Op}
    (hv : verify C op = .ok ()) : validateSurfaceContract logs op = .ok () := by
  obtain ⟨⟨hs, -, hshape, -⟩, -⟩ := of_verify hv
  have hnone : logs.toList.findSome? (surfaceConflict op) = none := by
    rw [List.findSome?_eq_none_iff]
    rintro ⟨c, log⟩ hmem
    have hat := Logs.at_of_mem_toList hmem
    cases log with
    | nil => rfl
    | cons first rest =>
      rw [surfaceConflict]
      by_cases hc : c.share ≠ op.share ∨ c.gladeId ≠ op.gladeId ∨ c.key ≠ op.key
      · rw [if_pos hc]
      · push Not at hc
        have hfirst := I.verified c (hc.1.trans hs) first (by simp [hat])
        obtain ⟨⟨-, -, hfshape, -⟩, -⟩ := of_verify hfirst
        simp [hc, hshape, hfshape]
  simp [validateSurfaceContract, hshape, hnone]

theorem checkedOf_of_verify {s : Store} {op : Op} (hv : verify C op = .ok ()) : s.checkedOf C op = .ok () := by
  rw [checkedOf, checked]
  split_ifs
  · exact hv
  · rfl
  · rfl

/-- An append of a home op that verifies goes by its verdict alone. -/
theorem append_of_verify {s : Store} (I : Inv C s.logs s.register) {disk : Disk} (hm : sealedMarker ∉ disk) {op : Op}
    (hv : verify C op = .ok ()) :
    append C s disk op none = s.commit disk op none (classifyHome C s.logs s.register op) := by
  obtain ⟨⟨hs, -⟩, -⟩ := of_verify hv
  rw [append, if_neg (by simp), if_neg hm, validateSurfaceContract_of_verify I hv]
  simp only [checkedOf_of_verify hv, verdictOf, if_pos hs]

/-- A home op that does not verify is never kept. -/
theorem append_of_not_verify (s : Store) (disk : Disk) {op : Op} (hs : op.share = home) (hv : verify C op ≠ .ok ()) :
    (append C s disk op none).1 ≠ .ok .appended ∧ (append C s disk op none).2 = (s, disk) := by
  rw [append]
  split
  · exact ⟨by simp, rfl⟩
  split
  · exact ⟨by simp, rfl⟩
  split
  · exact ⟨by simp, rfl⟩
  split
  · exact ⟨by simp, rfl⟩
  case h_2 hc =>
    -- What passed without a signature is a verdict that keeps and convicts nothing.
    have hn : (s.verdictOf C op).needsCheck ≠ true := by
      intro hn
      exact hv (verify_of_checkedOf hs hn hc)
    cases hverdict : s.verdictOf C op <;> first
      | exact ⟨by simp [commit], rfl⟩
      | simp [hverdict, Verdict.needsCheck] at hn

/-- What an append of a home op does: it pushes an op that may be added at the
end of its chain, places a checkpoint, or leaves the logs and the register. -/
theorem append_home_cases {s : Store} (I : Inv C s.logs s.register) {disk : Disk} (hm : sealedMarker ∉ disk) {op : Op}
    (hs : op.share = home) :
    (verify C op = .ok () ∧ op.gladeId ≠ gCheckpoints ∧
      (linking C).Next (FirstHome C s.register[chainOf op]?) (s.logs.at (chainOf op)) op ∧
      (append C s disk op none).1 = .ok .appended ∧
      (append C s disk op none).2.1 = { s with logs := push s.logs op }) ∨
    (∃ folded floor, verify C op = .ok () ∧ classifyHome C s.logs s.register op = .placed folded floor ∧
      (append C s disk op none).1 = .ok .appended ∧
      (append C s disk op none).2.1 =
        { s with
          logs := (place s.logs s.register op folded floor).1
          register := (place s.logs s.register op folded floor).2 }) ∨
    ((verify C op = .ok () → op.gladeId ≠ gCheckpoints →
        ¬ (linking C).Next (FirstHome C s.register[chainOf op]?) (s.logs.at (chainOf op)) op) ∧
      (verify C op = .ok () → ∀ folded floor, classifyHome C s.logs s.register op ≠ .placed folded floor) ∧
      (append C s disk op none).1 ≠ .ok .appended ∧
      (append C s disk op none).2.1.logs = s.logs ∧ (append C s disk op none).2.1.register = s.register) := by
  by_cases hv : verify C op = .ok ()
  case neg =>
    obtain ⟨hne, heq⟩ := append_of_not_verify s disk hs hv
    exact .inr (.inr ⟨fun h => absurd h hv, fun h => absurd h hv, hne, by rw [heq], by rw [heq]⟩)
  rw [append_of_verify I hm hv]
  have hgo : op.gladeId = gCheckpoints → classifyHome C s.logs s.register op ≠ .appended := by
    intro hg
    obtain ⟨c, hc⟩ := (of_verify hv).2.2 hg
    exact classifyHome_ne_appended hg hc
  have hnext : op.gladeId ≠ gCheckpoints → (classifyHome C s.logs s.register op = .appended ↔ _) :=
    fun hg => I.classifyHome_eq_appended hg
  cases hverdict : classifyHome C s.logs s.register op with
  | appended =>
    have hg : op.gladeId ≠ gCheckpoints := fun hg => hgo hg hverdict
    exact .inl ⟨hv, hg, (hnext hg).mp hverdict, rfl, rfl⟩
  | placed folded floor => exact .inr (.inl ⟨folded, floor, hv, rfl, rfl, rfl⟩)
  | _ =>
    refine .inr (.inr ⟨fun _ hg h => ?_, fun _ _ _ => by simp, by simp [commit, recordEquivocation, appendFile_of_none],
      by simp [commit, recordEquivocation, appendFile_of_none], by simp [commit, recordEquivocation, appendFile_of_none]⟩)
    rw [(hnext hg).mpr h] at hverdict
    cases hverdict

end Glade.Store
