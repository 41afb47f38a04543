import Glade.Store.Faults

/-! Exclusive surfaces (`validate_surface_contract`, `node/src/store.rs`). The
check an append makes looks at the first op of each chain of the zone. That is
enough, as a chain that starts with a single-writer op holds nothing else, and
one that starts with another shape never gets one. -/

namespace Glade.Store

open Wire Node LinkedLog

variable {C : Crypto}

/-- Whether two chains are of one zone. -/
def SameZone (c c' : ChainId) : Prop := c.share = c'.share ∧ c.gladeId = c'.gladeId ∧ c.key = c'.key

/-- A zone with a single-writer op holds only those, all of one origin and each
an action; a zone with a replicated op holds only those. -/
structure Exclusive (logs : Logs) : Prop where
  swmr : ∀ c c', SameZone c c' → ∀ op ∈ logs.at c, op.shape = .swmr →
    ∀ op' ∈ logs.at c', op'.shape = .swmr ∧ op'.origin = op.origin
  action : ∀ c, ∀ op ∈ logs.at c, op.shape = .swmr → decodeSwmr op.payload = .ok ()
  crdt : ∀ c c', SameZone c c' → ∀ op ∈ logs.at c, op.shape = .crdt → ∀ op' ∈ logs.at c', op'.shape = .crdt

theorem exclusive_empty : Exclusive ∅ where
  swmr := by simp [Logs.at]
  action := by simp [Logs.at]
  crdt := by simp [Logs.at]

/-! ### The check -/

/-- What an op that keeps the contract may rely on: it is of the shape its zone
asks for, as the first op of each of the zone's chains has it. -/
theorem of_validateSurfaceContract {logs : Logs} {op : Op} (h : validateSurfaceContract logs op = .ok ()) :
    (op.shape = .swmr → decodeSwmr op.payload = .ok ()) ∧
      ∀ c, SameZone c (chainOf op) → ∀ first rest, logs.at c = first :: rest →
        (op.shape = .swmr ∨ first.shape = .swmr ∨ op.shape = .crdt ∨ first.shape = .crdt → first.shape = op.shape) ∧
          (op.shape = .swmr → c.origin = op.origin) := by
  unfold validateSurfaceContract at h
  dsimp only at h
  split at h
  case h_1 => cases h
  case h_2 hswmr =>
    split at h
    case h_1 => cases h
    case h_2 hnone =>
      refine ⟨fun hshape => by rwa [if_pos hshape] at hswmr, fun c hc first rest hlog => ?_⟩
      rw [List.findSome?_eq_none_iff] at hnone
      have hmem := @Logs.mem_toList_of_at logs c (by rw [hlog]; simp)
      rw [hlog] at hmem
      have hc' := hnone _ hmem
      have hzone : ¬ (c.share ≠ op.share ∨ c.gladeId ≠ op.gladeId ∨ c.key ≠ op.key) := by
        rintro (hne | hne | hne)
        · exact hne hc.1
        · exact hne hc.2.1
        · exact hne hc.2.2
      rw [surfaceConflict, if_neg hzone] at hc'
      split_ifs at hc' with hmix hwriter
      exact ⟨fun hany => not_not.mp fun hne => hmix ⟨hany, hne⟩, fun hshape => not_not.mp fun hne => hwriter ⟨hshape, hne⟩⟩

/-- An op that keeps the contract joins its zone. -/
theorem Exclusive.push {logs : Logs} {register : Register} (E : Exclusive logs) (I : Inv C logs register) {op : Op}
    (h : validateSurfaceContract logs op = .ok ()) : Exclusive (push logs op) := by
  obtain ⟨haction, hfirst⟩ := of_validateSurfaceContract h
  have hmem : ∀ c, ∀ o ∈ (Store.push logs op).at c, o ∈ logs.at c ∨ o = op ∧ c = chainOf op := by
    intro c o ho
    rw [Store.push, Logs.at_insert] at ho
    split_ifs at ho with hc
    · rw [List.mem_append, List.mem_singleton, hc] at ho
      exact ho.imp_right fun heq => ⟨heq, hc.symm⟩
    · exact .inl ho
  -- The op of a zone that shares its zone with an op held: the held op is as the first of its chain.
  have hheld : ∀ c, SameZone c (chainOf op) → ∀ o ∈ logs.at c,
      (o.shape = .swmr ↔ op.shape = .swmr) ∧ (o.shape = .crdt ↔ op.shape = .crdt) ∧
        (op.shape = .swmr → o.origin = op.origin) := by
    intro c hc o ho
    obtain ⟨first, rest, hlog⟩ := List.exists_cons_of_ne_nil (List.ne_nil_of_mem ho)
    have hmemFirst : first ∈ logs.at c := by rw [hlog]; exact List.mem_cons_self
    obtain ⟨hshape, hwriter⟩ := hfirst c hc first rest hlog
    have hself : SameZone c c := ⟨rfl, rfl, rfl⟩
    have horigin : o.origin = c.origin := congrArg ChainId.origin (I.keyed c o ho)
    refine ⟨⟨fun hs => ?_, fun hs => ?_⟩, ⟨fun hs => ?_, fun hs => ?_⟩, fun hs => horigin.trans (hwriter hs)⟩
    · have hf := (E.swmr c c hself o ho hs first hmemFirst).1
      exact (hshape (.inr (.inl hf))).symm.trans hf
    · have hf := (hshape (.inl hs)).trans hs
      exact (E.swmr c c hself first hmemFirst hf o ho).1
    · have hf := E.crdt c c hself o ho hs first hmemFirst
      exact (hshape (.inr (.inr (.inr hf)))).symm.trans hf
    · have hf := (hshape (.inr (.inr (.inl hs)))).trans hs
      exact E.crdt c c hself first hmemFirst hf o ho
  have hsymm : ∀ {c c'}, SameZone c c' → SameZone c' c := fun h => ⟨h.1.symm, h.2.1.symm, h.2.2.symm⟩
  refine ⟨fun c c' hc o ho hs o' ho' => ?_, fun c o ho hs => ?_, fun c c' hc o ho hs o' ho' => ?_⟩
  · obtain ho | ⟨rfl, rfl⟩ := hmem c o ho <;> obtain ho' | ⟨rfl, rfl⟩ := hmem c' o' ho'
    · exact E.swmr c c' hc o ho hs o' ho'
    · obtain ⟨hswmr, -, horigin⟩ := hheld c hc o ‹_›
      exact ⟨hswmr.mp hs, (horigin (hswmr.mp hs)).symm⟩
    · obtain ⟨hswmr, -, horigin⟩ := hheld c' (hsymm hc) o' ho'
      exact ⟨hswmr.mpr hs, horigin hs⟩
    · exact ⟨hs, rfl⟩
  · obtain ho | ⟨rfl, rfl⟩ := hmem c o ho
    · exact E.action c o ho hs
    · exact haction hs
  · obtain ho | ⟨rfl, rfl⟩ := hmem c o ho <;> obtain ho' | ⟨rfl, rfl⟩ := hmem c' o' ho'
    · exact E.crdt c c' hc o ho hs o' ho'
    · exact (hheld c hc o ‹_›).2.1.mp hs
    · exact (hheld c' (hsymm hc) o' ho').2.1.mpr hs
    · exact hs

/-- The home share's ops are none of the exclusive shapes, so what changes there
leaves every surface as it was. -/
theorem Exclusive.of_home {logs logs' : Logs} {register' : Register} (E : Exclusive logs) (I : Inv C logs' register')
    (h : ∀ c, c.share ≠ home → logs'.at c = logs.at c) : Exclusive logs' := by
  have hlog : ∀ c, c.share = home → ∀ op ∈ logs'.at c, op.shape = .log := by
    intro c hs op hop
    exact (of_verify (I.verified c hs op hop)).1.2.2.1
  refine ⟨fun c c' hc op hop hs op' hop' => ?_, fun c op hop hs => ?_, fun c c' hc op hop hs op' hop' => ?_⟩
  all_goals by_cases hhome : c.share = home
  · rw [hlog c hhome op hop] at hs
    cases hs
  · rw [h c hhome] at hop
    rw [h c' fun h' => hhome (hc.1.trans h')] at hop'
    exact E.swmr c c' hc op hop hs op' hop'
  · rw [hlog c hhome op hop] at hs
    cases hs
  · rw [h c hhome] at hop
    exact E.action c op hop hs
  · rw [hlog c hhome op hop] at hs
    cases hs
  · rw [h c hhome] at hop
    rw [h c' fun h' => hhome (hc.1.trans h')] at hop'
    exact E.crdt c c' hc op hop hs op' hop'

/-! ### Runs -/

theorem append_exclusive {s : Store} (I : Inv C s.logs s.register) (E : Exclusive s.logs) (disk : Disk) (op : Op)
    (fault : Option Fault) : Exclusive (append C s disk op fault).2.1.logs := by
  obtain heq | ⟨-, ⟨hcontract, -, -⟩, -⟩ := append_cases (C := C) s disk op fault
  · rw [heq]
    exact E
  have hchange := append_change (C := C) s disk op fault
  have I' := hchange.inv I
  revert hchange I'
  generalize (append C s disk op fault).2.1.logs = logs
  generalize (append C s disk op fault).2.1.register = register
  intro hchange I'
  cases hchange with
  | none => exact E
  | push hv hc => exact E.push I hcontract
  | place folded floor hv hc =>
    refine E.of_home I' fun c hs => ?_
    have hop : op.share = home := by
      by_contra hop
      rw [verdictOf, if_neg hop] at hv
      exact classify_ne_placed hv
    rw [verdictOf, if_pos hop] at hv
    obtain ⟨-, rfl, -⟩ := classifyHome_eq_placed.mp hv
    have hfolded : homeChain gClaims op.origin ≠ c := fun h => hs (h ▸ rfl)
    have hown : chainOf op ≠ c := fun h => hs (h ▸ hop)
    rw [place, Logs.at_insert, if_neg hown, Logs.at_insert, if_neg hfolded]

theorem appends_exclusive (disk : Disk) (calls : List (Op × Option Fault)) {s : Store} (I : Inv C s.logs s.register)
    (E : Exclusive s.logs) : Exclusive (appends C s disk calls).1.logs := by
  induction calls generalizing s disk with
  | nil => exact E
  | cons call calls ih => exact ih _ ((append_change s disk call.1 call.2).inv I) (append_exclusive I E disk call.1 call.2)

theorem Reaches.exclusive {s : Store} {disk : Disk} (h : Reaches C s disk) : Exclusive s.logs := by
  induction h with
  | empty => exact exclusive_empty
  | append op fault hreach _ ih => exact append_exclusive hreach.journals.1 ih _ op fault
  | restart readDir date hreach hopen ih =>
    obtain ⟨I, journal, torn, J⟩ := hreach.journals
    obtain ⟨_, _, _, -, heq⟩ := openStore_of_journals I J readDir date
    rw [hopen] at heq
    obtain ⟨rfl, -⟩ := Prod.mk.inj (Except.ok.inj heq)
    exact ih

/-- An append refused for its shape, its writer or its payload. -/
def StoreError.OfSurface : StoreError → Prop
  | .shapeConflict _ _ | .swmrWriterConflict _ _ | .invalidSwmrPayload _ => True
  | _ => False

theorem commit_not_of_surface (s : Store) (disk : Disk) (op : Op) (fault : Option Fault) (verdict : Verdict) {e : StoreError}
    (h : (s.commit disk op fault verdict).1 = .error e) : ¬ e.OfSurface := by
  cases verdict with
  | duplicate => cases h
  | belowRetained => cases h
  | gap expected got =>
    obtain rfl := Except.error.inj h
    exact id
  | chainBreak =>
    obtain rfl := Except.error.inj h
    exact id
  | equivocation stored =>
    rw [commit] at h
    split at h
    all_goals
      obtain rfl := Except.error.inj h
      exact id
  | rewrite stored =>
    rw [commit] at h
    split at h
    all_goals
      obtain rfl := Except.error.inj h
      exact id
  | appended =>
    rw [commit] at h
    split at h
    · cases h
    · obtain rfl := Except.error.inj h
      exact id
  | placed folded floor =>
    rw [commit] at h
    dsimp only at h
    split at h
    · cases h
    · obtain rfl := Except.error.inj h
      exact id

/-- A surface's refusal comes before anything is written. -/
theorem append_of_surface {s : Store} {disk : Disk} {op : Op} {fault : Option Fault} {e : StoreError}
    (h : (append C s disk op fault).1 = .error e) (he : e.OfSurface) : (append C s disk op fault).2 = (s, disk) := by
  obtain heq | ⟨-, -, heq⟩ := append_cases (C := C) s disk op fault
  · exact heq
  · rw [heq] at h
    exact absurd he (commit_not_of_surface s disk op fault _ h)

/-- In every state appends reach, in whatever order ops arrive and whatever I/O
call fails, a zone with a single-writer op holds only actions of one writer and a
zone with a replicated op only replicated ones, and restarts keep that; an append
refused for shape, writer or payload changes nothing, in memory or on disk. -/
theorem surfaces_exclusive (C : Crypto) :
    (∀ disk calls, Exclusive (appends C empty disk calls).1.logs) ∧ (∀ s disk, Reaches C s disk → Exclusive s.logs) ∧
      ∀ s disk op fault e, (append C s disk op fault).1 = .error e → e.OfSurface →
        (append C s disk op fault).2 = (s, disk) :=
  ⟨fun disk calls => appends_exclusive disk calls inv_empty exclusive_empty, fun _ _ h => h.exclusive,
    fun _ _ _ _ _ h he => append_of_surface h he⟩

end Glade.Store
