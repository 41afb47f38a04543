import Glade.Store.HomeAppend
import Glade.Registry.Ingest

/-! The served store and the sealed registry take the same directory. The store
keeps a log per chain and judges first; the registry keeps one op list and tips,
and verifies first. Fed the same home ops, they hold the same chains and the
same checkpoints after every op, and append the same ones. -/

namespace Glade.Registry

open Wire Node LinkedLog Store

variable {C : Crypto}

/-- A chain's ops, in the order the registry took them. -/
def held (r : Registry C) (c : StreamId) : List Op := r.ops.filter (fun op => streamOf op = c)

/-- The home chain a directory chain is in the store. -/
def StreamId.chainId (c : StreamId) : ChainId := homeChain c.stream c.origin

/-- A store and a sealed registry that hold the same directory. -/
structure Agree (s : Store) (r : Registry C) : Prop where
  inv : Inv C s.logs s.register
  /-- The registry holds verified ops, checkpoints apart. -/
  streams : ∀ op ∈ r.ops, verify C op = .ok () ∧ op.gladeId ≠ gCheckpoints
  logs : ∀ c : StreamId, c.stream ≠ gCheckpoints → s.logs.at c.chainId = r.held c
  register : ∀ c : StreamId, s.register[c.chainId]? = r.checkpoints[c]?
  /-- A tip is its chain's last op, or its floor. -/
  tips : ∀ c : StreamId, c.stream ≠ gCheckpoints →
    r.tips[c]? = (linking C).endOf (r.checkpoints[c]?.map Prod.snd) (r.held c)
  checkpointTips : ∀ origin, r.tips[(⟨gCheckpoints, origin⟩ : StreamId)]? =
    r.checkpoints[(⟨gClaims, origin⟩ : StreamId)]?.map (fun e => (linking C).tip e.1)

theorem agree_empty (me : NodeIdentity C) : Agree Store.empty (sealedAs me) where
  inv := inv_empty
  streams := by simp [sealedAs, new]
  logs := by simp [Store.empty, sealedAs, new, Logs.at, held]
  register := by simp [Store.empty, sealedAs, new]
  tips := by simp [sealedAs, new, held, Linking.endOf]
  checkpointTips := by simp [sealedAs, new]

theorem chainOf_eq_chainId {op : Op} (hv : verify C op = .ok ()) : chainOf op = (streamOf op).chainId := by
  obtain ⟨⟨hs, hk, -⟩, -⟩ := of_verify hv
  rw [chainOf, StreamId.chainId, homeChain, hs, hk, streamOf]

theorem chainId_injective : Function.Injective StreamId.chainId := by
  rintro ⟨a, b⟩ ⟨a', b'⟩ h
  simpa [StreamId.chainId, homeChain] using h

/-- A checkpoint is judged by the chain it folds alone: a store and a registry that hold
that chain alike place it alike. -/
theorem classifyHome_placed_iff {s : Store} {r : Registry C} {op : Op} (hg : op.gladeId = gCheckpoints)
    (hlog : s.logs.at (homeChain gClaims op.origin) = r.held ⟨gClaims, op.origin⟩)
    (hreg : s.register[homeChain gClaims op.origin]? = r.checkpoints[(⟨gClaims, op.origin⟩ : StreamId)]?)
    {folded : ChainId} {floor : Floor} :
    classifyHome C s.logs s.register op = .placed folded floor ↔
      folded = homeChain gClaims op.origin ∧ r.Places op floor := by
  rw [classifyHome_eq_placed, Places]
  have hfind : ∀ f : Floor, (r.held ⟨gClaims, op.origin⟩).find? (fun held => held.seq = f.1) =
      r.ops.find? (fun held => (held.gladeId = gClaims ∧ held.origin = op.origin) ∧ held.seq = f.1) := by
    intro f
    rw [held, List.find?_filter]
    congr 1
    funext x
    simp [streamOf]
  constructor
  · rintro ⟨-, rfl, hc, hp, hbase⟩
    rw [hreg] at hp
    rw [hlog, hfind] at hbase
    exact ⟨rfl, hc, hp, hbase⟩
  · rintro ⟨rfl, hc, hp, hbase⟩
    refine ⟨hg, rfl, hc, by rwa [hreg], ?_⟩
    rwa [hlog, hfind]

namespace Agree

variable {s : Store} {r : Registry C} (A : Agree s r)

include A

/-- The two append the same ops that are not checkpoints. -/
theorem extends_iff_next {op : Op} (hv : verify C op = .ok ()) (hg : op.gladeId ≠ gCheckpoints) :
    r.Extends op ↔ (linking C).Next (FirstHome C s.register[chainOf op]?) (s.logs.at (chainOf op)) op := by
  have hg' : (streamOf op).stream ≠ gCheckpoints := hg
  rw [chainOf_eq_chainId hv, A.register, A.logs _ hg', Extends, A.tips _ hg', Linking.endOf]
  obtain hnil | ⟨init, last, hheld⟩ := List.eq_nil_or_concat' (r.held (streamOf op))
  · rw [hnil, next_nil]
    cases hc : r.checkpoints[streamOf op]? with
    | none => simp [FirstHome]
    | some e =>
      simp only [List.getLast?_nil, Option.map_none, Option.map_some, Option.none_or, FirstHome]
      refine and_iff_right_of_imp fun hf e' he' => ?_
      obtain rfl : e = e' := Option.some.inj he'
      have hseq : op.seq = e.2.1 + 1 := hf.1
      omega
  · rw [hheld, next_concat]
    simp only [List.getLast?_concat, Option.map_some, Option.some_or]
    refine and_iff_right_of_imp fun hf e he => ?_
    -- What the chain holds stands above its floor, and so does what follows it.
    have hr : s.register[(streamOf op).chainId]? = some (e.1, e.2) := by rw [A.register, he]
    have hlast := A.inv.lt_seq hr last (by rw [A.logs _ hg', hheld]; simp)
    have hseq : op.seq = last.seq + 1 := hf.1
    omega

/-- The two place the same checkpoints. -/
theorem places_iff_placed {op : Op} (hg : op.gladeId = gCheckpoints) {folded : ChainId} {floor : Floor} :
    classifyHome C s.logs s.register op = .placed folded floor ↔
      folded = homeChain gClaims op.origin ∧ r.Places op floor :=
  classifyHome_placed_iff hg (A.logs ⟨gClaims, op.origin⟩ (by simp [gClaims, gCheckpoints])) (A.register ⟨gClaims, op.origin⟩)

/-- Both take an op at the end of its chain. -/
theorem push {op : Op} (hv : verify C op = .ok ()) (hg : op.gladeId ≠ gCheckpoints) (hx : r.Extends op) :
    Agree { s with logs := Store.push s.logs op } (r.take op) := by
  have hown := chainOf_eq_chainId hv
  have hheld : ∀ c, (r.take op).held c = if streamOf op = c then r.held c ++ [op] else r.held c := by
    intro c
    simp only [held, take, List.filter_append, List.filter_cons, List.filter_nil]
    split_ifs with h1 h2 h2 <;> simp_all
  have hnext : (linking C).Next (First C s.register (chainOf op)) (s.logs.at (chainOf op)) op :=
    ((A.extends_iff_next hv hg).mp hx).mono fun h _ => h
  refine ⟨A.inv.push hnext fun _ => ⟨hv, hg⟩, fun o ho => ?_, fun c hc => ?_, A.register, fun c hc => ?_,
    fun origin => ?_⟩
  · rcases List.mem_append.mp ho with ho | ho
    · exact A.streams o ho
    · rw [List.mem_singleton.mp ho]
      exact ⟨hv, hg⟩
  · rw [hheld, Store.push, Logs.at_insert, hown]
    by_cases h : streamOf op = c
    · rw [if_pos h, if_pos (by rw [h]), ← A.logs c hc, h]
    · rw [if_neg h, if_neg (fun h' => h (chainId_injective h')), A.logs c hc]
  · rw [hheld, take, Std.ExtTreeMap.getElem?_insert]
    by_cases h : streamOf op = c
    · subst h
      simp [Linking.endOf]
    · simpa [h] using A.tips c hc
  · rw [take, Std.ExtTreeMap.getElem?_insert]
    have h : streamOf op ≠ ⟨gCheckpoints, origin⟩ := fun h => hg (congrArg StreamId.stream h)
    simpa [h] using A.checkpointTips origin

/-- The tip a placed checkpoint leaves its chain. -/
theorem tip_placed {op : Op} {floor : Floor} (hp : r.Places op floor) :
    let c : StreamId := ⟨gClaims, op.origin⟩
    (if (r.tips.getD c floor).1 ≤ floor.1 then floor else r.tips.getD c floor) =
      ((((linking C).above floor.1 (r.held c)).getLast?.map (linking C).tip).getD floor) := by
  intro c
  have hchain := A.inv.chained_home (c := c.chainId) rfl (by simp [c, StreamId.chainId, homeChain, gClaims, gCheckpoints])
  rw [A.logs c (by simp [c, gClaims, gCheckpoints])] at hchain
  rw [Std.ExtTreeMap.getD_eq_getD_getElem?, A.tips c (by simp [c, gClaims, gCheckpoints]), Linking.endOf]
  obtain hnil | ⟨init, last, hheld⟩ := List.eq_nil_or_concat' (r.held c)
  · rw [hnil]
    have hle : ((r.checkpoints[c]?.map Prod.snd).getD floor).1 ≤ floor.1 := by
      cases hc : r.checkpoints[c]? with
      | none => simp
      | some e =>
        have hpl := hp.2.1
        rw [hc] at hpl
        obtain ⟨-, hlt | heq, -⟩ := placement_eq_placed.mp hpl
        · exact hlt.le
        · simp [heq]
    simp only [List.getLast?_nil, Option.map_none, Option.none_or, hle, if_true]
    rfl
  · rw [hheld] at hchain ⊢
    simp only [List.getLast?_concat, Option.map_some, Option.some_or, Option.getD_some, linking_tip]
    split_ifs with hle
    · have hall : (linking C).above floor.1 (init ++ [last]) = [] := by
        rw [List.eq_nil_iff_forall_not_mem]
        intro x hx
        obtain ⟨hx, hlt⟩ := mem_above.mp hx
        have hxl := seq_le_getLast hchain (List.getLast?_concat ..) x hx
        simp only [linking_seq] at hlt hxl
        omega
      rw [hall]
      rfl
    · rw [above_concat (by simpa using hle), List.getLast?_concat]
      rfl

/-- Both place a checkpoint. -/
theorem place {op : Op} {floor : Floor} (hv : verify C op = .ok ()) (hg : op.gladeId = gCheckpoints)
    (hp : r.Places op floor) :
    Agree { s with
        logs := (Store.place s.logs s.register op (homeChain gClaims op.origin) floor).1
        register := (Store.place s.logs s.register op (homeChain gClaims op.origin) floor).2 }
      (r.placed op ⟨gClaims, op.origin⟩ floor) := by
  have hplaced := (A.places_iff_placed hg).mpr ⟨rfl, hp⟩
  have hinv := A.inv.place hv hplaced
  set c₀ : StreamId := ⟨gClaims, op.origin⟩ with hc₀
  have hfold : homeChain gClaims op.origin = c₀.chainId := rfl
  have hheld : ∀ c, (r.placed op c₀ floor).held c =
      if c₀ = c then (linking C).above floor.1 (r.held c) else r.held c := by
    intro c
    simp only [held, placed, Linking.above, List.filter_filter]
    split_ifs with h
    · subst h
      congr 1
      funext x
      rw [Bool.eq_iff_iff]
      simp only [Bool.and_eq_true, decide_eq_true_eq]
      simp only [hc₀, streamOf, StreamId.mk.injEq, linking_seq]
      tauto
    · congr 1
      funext x
      by_cases hx : streamOf x = c
      · have hne : ¬ (x.gladeId = c₀.stream ∧ x.origin = c₀.origin) := by
          rintro ⟨h1, h2⟩
          exact h (by rw [← hx, streamOf, h1, h2])
        simp [hx, hne]
      · simp [hx]
  have hreg : ∀ c, (r.placed op c₀ floor).checkpoints[c]? = if c₀ = c then some (op, floor) else r.checkpoints[c]? := by
    intro c
    simp only [placed, Std.ExtTreeMap.getElem?_insert]
    simp
  refine ⟨hinv, fun o ho => A.streams o (List.mem_filter.mp ho).1, fun c hc => ?_, fun c => ?_, fun c hc => ?_,
    fun origin => ?_⟩
  · rw [A.inv.place_eq floor hv hg, hheld, Logs.at_insert, Logs.at_insert]
    have h1 : homeChain gCheckpoints op.origin ≠ c.chainId := fun h => hc (congrArg ChainId.gladeId h).symm
    rw [if_neg h1]
    by_cases h : c₀ = c
    · subst h
      rw [if_pos rfl, if_pos hfold, ← A.logs c₀ hc, hfold]
    · rw [if_neg h, hfold, if_neg (fun h' => h (chainId_injective h')), A.logs c hc]
  · rw [A.inv.place_eq floor hv hg, hreg, Std.ExtTreeMap.getElem?_insert]
    by_cases h : c₀ = c
    · subst h
      simp [hc₀, StreamId.chainId]
    · have h' : homeChain gClaims op.origin ≠ c.chainId := fun h' => h (chainId_injective h')
      simpa [h, h'] using A.register c
  · have htip := A.tip_placed hp
    rw [hheld, hreg]
    simp only [placed, Std.ExtTreeMap.getElem?_insert]
    have h1 : (⟨gCheckpoints, op.origin⟩ : StreamId) ≠ c := fun h => hc (congrArg StreamId.stream h).symm
    by_cases h : c₀ = c
    · subst h
      rw [if_pos rfl, if_pos rfl]
      simp only [Std.LawfulEqOrd.compare_eq_iff_eq, h1, if_false, if_true, Option.map_some, Linking.endOf]
      rw [htip]
      cases ((linking C).above floor.1 (r.held c₀)).getLast? <;> rfl
    · rw [if_neg h, if_neg h]
      simpa [h, h1] using A.tips c hc
  · simp only [placed, Std.ExtTreeMap.getElem?_insert, Std.LawfulEqOrd.compare_eq_iff_eq]
    by_cases h : op.origin = origin
    · subst h
      simp [hc₀]
    · have h1 : (⟨gCheckpoints, op.origin⟩ : StreamId) ≠ ⟨gCheckpoints, origin⟩ := by simp [h]
      have h2 : c₀ ≠ ⟨gCheckpoints, origin⟩ := by simp [hc₀, gClaims, gCheckpoints]
      have h3 : c₀ ≠ ⟨gClaims, origin⟩ := by simp [hc₀, h]
      simpa [h1, h2, h3] using A.checkpointTips origin

end Agree

/-- One op offered to both: they stay in agreement, and one appends it exactly
when the other does. -/
theorem Agree.step {s : Store} {r : Registry C} (A : Agree s r) {me : NodeIdentity C} (hme : r.identity = some me)
    {disk : Disk} (hm : sealedMarker ∉ disk) {op : Op} (hs : op.share = home) :
    Agree (append C s disk op none).2.1 (r.ingested op) ∧ (r.ingested op).identity = some me ∧
      ((append C s disk op none).1 = .ok .appended ↔ r.answer op = .ok .appended) := by
  rcases append_home_cases A.inv hm hs with
    ⟨hv, hg, hnext, hans, hst⟩ | ⟨folded, floor, hv, hpl, hans, hst⟩ | ⟨hnext, hnpl, hans, hlogs, hreg⟩
  · have hx := (A.extends_iff_next hv hg).mpr hnext
    have hing : r.ingest op = .ok (.appended, r.take op) := by
      simp only [ingest, hme, hv]
      exact link_of_extends hg hx
    rw [hst, ingested, answer, hing]
    exact ⟨A.push hv hg hx, hme, iff_of_true hans rfl⟩
  · have hg := (classifyHome_eq_placed.mp hpl).1
    obtain ⟨rfl, hp⟩ := (A.places_iff_placed hg).mp hpl
    have hing : r.ingest op = .ok (.appended, r.placed op ⟨gClaims, op.origin⟩ floor) := by
      simp only [ingest, hme, hv]
      exact link_of_places hg hp
    rw [hst, ingested, answer, hing]
    exact ⟨A.place hv hg hp, hme, iff_of_true hans rfl⟩
  · have hkept : r.Kept (r.ingest op) := by
      rcases ingest_cases r op hme with ⟨hv, hg, hx, -⟩ | ⟨floor, hv, hg, hp, -⟩ | hk
      · exact absurd ((A.extends_iff_next hv hg).mp hx) (hnext hv hg)
      · exact absurd ((A.places_iff_placed hg).mpr ⟨rfl, hp⟩) (hnpl hv _ floor)
      · exact hk
    rw [ingested_of_kept hkept]
    refine ⟨⟨?_, A.streams, ?_, ?_, A.tips, A.checkpointTips⟩, hme, iff_of_false hans ?_⟩
    · rw [hlogs, hreg]
      exact A.inv
    · rw [hlogs]
      exact A.logs
    · rw [hreg]
      exact A.register
    · rw [answer]
      obtain ⟨e, h⟩ | h | h := hkept <;> rw [h] <;> simp [Except.map]

/-- The registry after a run of ingests. -/
def ingests (r : Registry C) (ops : List Op) : Registry C := ops.foldl ingested r

/-- Fed the same home ops from the start, the two agree after every one. -/
theorem agree_run (me : NodeIdentity C) {ops : List Op} (hs : ∀ op ∈ ops, op.share = home) :
    Agree (fed C ops).1 (ingests (sealedAs me) ops) ∧ (ingests (sealedAs me) ops).identity = some me ∧
      sealedMarker ∉ (fed C ops).2 := by
  induction ops using List.reverseRecOn with
  | nil => exact ⟨agree_empty me, rfl, by simp [fed, appends]⟩
  | append_singleton ops op ih =>
    obtain ⟨A, hme, hm⟩ := ih fun o ho => hs o (by simp [ho])
    have hstep := A.step hme hm (hs op (by simp))
    have hing : ingests (sealedAs me) (ops ++ [op]) = (ingests (sealedAs me) ops).ingested op := by
      simp [ingests]
    rw [fed_concat, hing]
    exact ⟨hstep.1, hstep.2.1, sealedMarker_not_mem_append hm⟩

/-! ### Reading the two -/

/-- The ops the registry holds of a chain, in seq order: for `dir.checkpoints`
the ones its register holds of the origin. -/
def heldOps (r : Registry C) (stream origin : String) : List Op :=
  if stream = gCheckpoints then
    sortBySeq ((r.checkpoints.toList.filter (fun e => e.1.origin = origin)).map (fun e => e.2.1))
  else r.chain stream origin

theorem held_eq_chain {s : Store} {r : Registry C} (A : Agree s r) {stream origin : String} (hg : stream ≠ gCheckpoints) :
    r.chain stream origin = r.held ⟨stream, origin⟩ := by
  have hchain := A.inv.chained_home (c := homeChain stream origin) rfl hg
  have hlogs : s.logs.at (homeChain stream origin) = r.held ⟨stream, origin⟩ := A.logs ⟨stream, origin⟩ hg
  rw [hlogs] at hchain
  have hperm : (r.chain stream origin).Perm (r.held ⟨stream, origin⟩) := by
    have h := (List.perm_insertionSort foldOrder (r.ops.filter (fun o => o.gladeId = stream))).filter
      (fun op => decide (op.origin = origin))
    rw [List.filter_filter] at h
    refine h.trans (List.Perm.of_eq ?_)
    rw [held]
    congr 1
    funext x
    rw [Bool.eq_iff_iff]
    simp [streamOf, and_comm]
  have hsorted : (r.chain stream origin).Pairwise (fun a b => a.seq ≤ b.seq) := by
    have h := (List.pairwise_insertionSort foldOrder (r.ops.filter (fun o => o.gladeId = stream))).filter
      (fun op => decide (op.origin = origin))
    refine h.imp_of_mem fun ha hb hab => ?_
    have ha' : _ = origin := of_decide_eq_true (List.mem_filter.mp ha).2
    have hb' : _ = origin := of_decide_eq_true (List.mem_filter.mp hb).2
    obtain hlt | ⟨-, hle⟩ := hab
    · rw [ha', hb'] at hlt
      exact absurd hlt (lt_irrefl _)
    · exact hle
  refine List.Perm.eq_of_pairwise (fun a b ha hb hab hba => ?_) hsorted ((pairwise_seq hchain).imp fun h => h.le) hperm
  exact eq_of_seq_eq hchain (hperm.mem_iff.mp ha) hb (le_antisymm hab hba)

theorem Agree.heldOps_eq {s : Store} {r : Registry C} (A : Agree s r) (stream origin : String) :
    r.heldOps stream origin = s.logs.at (homeChain stream origin) := by
  rw [heldOps]
  split_ifs with hg
  · subst hg
    have hclaims : s.register[homeChain gClaims origin]? = r.checkpoints[(⟨gClaims, origin⟩ : StreamId)]? :=
      A.register ⟨gClaims, origin⟩
    rw [A.inv.checkpoints origin, hclaims,
      OrdMap.filter_toList_eq (p := fun c => c.origin = origin) (k := (⟨gClaims, origin⟩ : StreamId)) rfl]
    · cases r.checkpoints[(⟨gClaims, origin⟩ : StreamId)]? <;> rfl
    · intro c hc horigin
      obtain ⟨⟨cp, f⟩, hr⟩ := Option.isSome_iff_exists.mp (Std.ExtTreeMap.mem_iff_isSome_getElem?.mp hc)
      rw [← A.register] at hr
      obtain ⟨hkey, -⟩ := A.inv.registered _ cp f hr
      obtain rfl : c = ⟨gClaims, cp.origin⟩ := chainId_injective hkey
      rw [← horigin]
  · rw [held_eq_chain A hg]
    exact (A.logs ⟨stream, origin⟩ hg).symm

/-- The served store and a sealed registry fed the same home ops, whatever they
are, hold the same ops of every chain, the same newest checkpoint and floor, and
append the next op alike. -/
theorem store_agrees_with_registry (C : Crypto) (me : NodeIdentity C) (ops : List { op : Op // op.share = home })
    (next : { op : Op // op.share = home }) :
    let fedOps := ops.map Subtype.val
    let s := (fed C fedOps).1
    let r := ingests (sealedAs me) fedOps
    (∀ stream origin, s.logs.at (homeChain stream origin) = r.heldOps stream origin) ∧
      (∀ c : ChainId, c.share = home → c.key ≠ [] → s.logs.at c = []) ∧
      (∀ stream origin, s.register[homeChain stream origin]? = r.checkpoints[(⟨stream, origin⟩ : StreamId)]?) ∧
      ((append C s (fed C fedOps).2 next none).1 = .ok .appended ↔ r.answer next = .ok .appended) := by
  intro fedOps s r
  have hhome : ∀ op ∈ fedOps, op.share = home := by simp +contextual [fedOps]
  obtain ⟨A, hme, hm⟩ := agree_run me hhome
  exact ⟨fun stream origin => (A.heldOps_eq stream origin).symm, fun c hs hk => A.inv.at_eq_nil_of_key hs hk,
    fun stream origin => A.register ⟨stream, origin⟩, (A.step hme hm next.2).2.2⟩

end Glade.Registry
