import Glade.Node.HomePull
import Glade.Store.Faults

/-! One home pull converges (`node/src/mesh/serve.rs`, `mesh/home.rs`). The two stores are
any that honest origins' ops lead to. What the puller takes is worked out chain by chain:
a checkpoint first moves the floor its chain starts above, then what was shipped of the
chain follows what is left of it. -/

namespace Glade.Node

open Wire Store LinkedLog

variable {C : Crypto}

/-- The ops of honest origins: one at most at a position of a home chain, and an origin's
claims and checkpoints all taken by its own sealed registry. -/
structure Honest (C : Crypto) (world : Op → Prop) : Prop where
  one : ∀ op op', world op → world op' → chainOf op = chainOf op' → op.seq = op'.seq → op = op'
  produced : ∃ owner : String → NodeIdentity C × List Registry.Call, ∀ op, world op →
    op.gladeId = gClaims ∨ op.gladeId = gCheckpoints → op ∈ Registry.history (owner op.origin).1 (owner op.origin).2

theorem Honest.lawful {world : Op → Prop} (h : Honest C world) : Registry.Lawful C world := by
  obtain ⟨owner, hproduced⟩ := h.produced
  have hlaw : ∀ o, Registry.Lawful C (· ∈ Registry.history (owner o).1 (owner o).2) :=
    fun o => Registry.lawful_history _ _
  refine ⟨?_, ?_, ?_⟩
  · intro op cp floor hop hcp hg ho hf hseq
    have hin := hproduced op hop (.inl hg)
    rw [ho] at hin
    exact (hlaw cp.origin).base op cp floor hin (hproduced cp hcp (.inr hf.1)) hg ho hf hseq
  · intro cp cp' floor floor' hcp hcp' ho hf hf' hlt
    have hin := hproduced cp hcp (.inr hf.1)
    rw [ho] at hin
    exact (hlaw cp'.origin).forward cp cp' floor floor' hin (hproduced cp' hcp' (.inr hf'.1)) ho hf hf' hlt
  · intro cp cp' floor floor' hcp hcp' ho hf hf' hseq
    have hin := hproduced cp hcp (.inr hf.1)
    rw [ho] at hin
    exact (hlaw cp'.origin).follows cp cp' floor floor' hin (hproduced cp' hcp' (.inr hf'.1)) ho hf hf' hseq

/-! ### The gap, chain by chain -/

/-- What `b` is shipped of a chain of `a`. -/
def tail (C : Crypto) (a b : Store) (c : ChainId) : List Op := scan a c (((headOf C b c).map Prod.fst).getD minSeq)

/-- The home chains a serve walks the zones `zs` for. -/
def chainsOver (C : Crypto) (a : Store) (zs : List Zone) : List ChainId :=
  (zs.filter fun zone => zone.1 = home).flatMap (chainsOf C a)

/-- The chains of checkpoints, which go first. -/
def foldChains (C : Crypto) (a : Store) : List ChainId := chainsOver C a ((zones a).filter isCheckpoints)

/-- The other home chains. -/
def plainChains (C : Crypto) (a : Store) : List ChainId := chainsOver C a ((zones a).filter fun zone => !isCheckpoints zone)

section Gap

variable {a b : Store}

theorem missingFor_eq (Ib : Inv C b.logs b.register) {zone : Zone} (hz : zone.1 = home) :
    missingFor C a zone (byZone (homeHeads C b) zone) = (chainsOf C a zone).flatMap (tail C a b) := by
  unfold missingFor chainsOf
  rw [List.flatMap_map]
  congr 1
  funext e
  rw [tail, Std.ExtTreeMap.getD_eq_getD_getElem?, byZone_homeHeads Ib hz]

theorem homeGap_eq (Ib : Inv C b.logs b.register) :
    homeGap C a (homeHeads C b) = (foldChains C a ++ plainChains C a).flatMap (tail C a b) := by
  unfold homeGap serveOrder foldChains plainChains chainsOver
  rw [← List.flatMap_append, ← List.filter_append, List.flatMap_assoc]
  apply List.flatMap_congr
  intro zone hzone
  rw [List.mem_filter, decide_eq_true_iff] at hzone
  exact missingFor_eq Ib hzone.2

theorem mem_chainsOver (Ia : Inv C a.logs a.register) {zs : List Zone} {c : ChainId} :
    c ∈ chainsOver C a zs ↔ zoneOfChain c ∈ zs ∧ c.share = home ∧ (headOf C a c).isSome = true := by
  unfold chainsOver
  rw [List.mem_flatMap]
  constructor
  · rintro ⟨zone, hzone, hc⟩
    rw [List.mem_filter, decide_eq_true_iff] at hzone
    obtain ⟨rfl, hhead⟩ := (mem_chainsOf Ia).mp hc
    exact ⟨hzone.1, hzone.2, hhead⟩
  · rintro ⟨hzone, hs, hhead⟩
    refine ⟨zoneOfChain c, ?_, (mem_chainsOf Ia).mpr ⟨rfl, hhead⟩⟩
    rw [List.mem_filter, decide_eq_true_iff]
    exact ⟨hzone, hs⟩

theorem nodup_chainsOver (Ia : Inv C a.logs a.register) {zs : List Zone} (h : zs.Nodup) : (chainsOver C a zs).Nodup := by
  unfold chainsOver
  rw [List.nodup_flatMap]
  refine ⟨fun zone _ => nodup_chainsOf zone, ?_⟩
  refine (List.nodup_iff_pairwise_ne.mp (h.filter _)).imp ?_
  intro zone zone' hne c hc hc'
  rw [mem_chainsOf Ia] at hc hc'
  exact hne (hc.1.symm.trans hc'.1)

theorem mem_zones_of_headOf (Ia : Inv C a.logs a.register) {c : ChainId} (h : (headOf C a c).isSome = true) :
    zoneOfChain c ∈ zones a := by
  obtain ⟨tip, htip⟩ := Option.isSome_iff_exists.mp h
  exact mem_zones.mpr ⟨c, mem_logs_of_headOf Ia htip, rfl⟩

theorem mem_foldChains (Ia : Inv C a.logs a.register) {c : ChainId} :
    c ∈ foldChains C a ↔ c.share = home ∧ c.gladeId = gCheckpoints ∧ (headOf C a c).isSome = true := by
  unfold foldChains
  rw [mem_chainsOver Ia, List.mem_filter, isCheckpoints, decide_eq_true_iff]
  constructor
  · rintro ⟨⟨-, -, hg⟩, hs, hhead⟩
    exact ⟨hs, hg, hhead⟩
  · rintro ⟨hs, hg, hhead⟩
    exact ⟨⟨mem_zones_of_headOf Ia hhead, hs, hg⟩, hs, hhead⟩

theorem mem_plainChains (Ia : Inv C a.logs a.register) {c : ChainId} :
    c ∈ plainChains C a ↔ c.share = home ∧ c.gladeId ≠ gCheckpoints ∧ (headOf C a c).isSome = true := by
  unfold plainChains
  rw [mem_chainsOver Ia, List.mem_filter, isCheckpoints, Bool.not_eq_true', decide_eq_false_iff_not, not_and]
  constructor
  · rintro ⟨⟨-, hg⟩, hs, hhead⟩
    exact ⟨hs, hg hs, hhead⟩
  · rintro ⟨hs, hg, hhead⟩
    exact ⟨⟨mem_zones_of_headOf Ia hhead, fun _ => hg⟩, hs, hhead⟩

theorem nodup_zones : (zones a).Nodup := List.nodup_dedup _

theorem nodup_foldChains (Ia : Inv C a.logs a.register) : (foldChains C a).Nodup :=
  nodup_chainsOver Ia (nodup_zones.filter _)

theorem nodup_plainChains (Ia : Inv C a.logs a.register) : (plainChains C a).Nodup :=
  nodup_chainsOver Ia (nodup_zones.filter _)

end Gap

/-! ### Landing -/

section Landing

variable {knows : Bytes32 → Bool} {round : Round}

/-- A round that refused nothing: it deferred chains of unknown nodes only. -/
structure Clean (C : Crypto) (knows : Bytes32 → Bool) (round : Round) : Prop where
  inv : Inv C round.store.logs round.store.register
  marker : sealedMarker ∉ round.disk
  gaps : round.gaps = ∅
  cut : ∀ (chain : GapPulls.Chain) (e : Cut × ℕ), round.cut[chain]? = some e → e.1 = .deferred ∧ known knows chain.2 = false

theorem clean_new {s : Store} {disk : Disk} (I : Inv C s.logs s.register) (hm : sealedMarker ∉ disk) :
    Clean C knows (.new s disk) where
  inv := I
  marker := hm
  gaps := rfl
  cut := by simp [Round.new]

theorem Clean.rejected_eq_nil (h : Clean C knows round) : round.finish.rejected = [] := by
  unfold Round.finish
  rw [List.filterMap_eq_nil_iff]
  rintro ⟨chain, why, missed⟩ he
  rw [Std.ExtTreeMap.mem_toList_iff_getElem?_eq_some] at he
  obtain rfl := (h.cut chain (why, missed) he).1
  rfl

theorem Clean.take_unknown (h : Clean C knows round) {op : Op} (hk : known knows op.origin = false) :
    Clean C knows (round.take C knows op) ∧ (round.take C knows op).store = round.store ∧
      (round.take C knows op).applied = round.applied := by
  cases hcut : round.cut[(op.gladeId, op.origin)]? with
  | none =>
    have htake : round.take C knows op = { round with cut := round.cut.insert (op.gladeId, op.origin) (.deferred, 1) } := by
      rw [Round.take, hcut]
      exact if_pos (by simp [hk])
    rw [htake]
    refine ⟨⟨h.inv, h.marker, h.gaps, fun chain e he => ?_⟩, rfl, rfl⟩
    rw [Std.ExtTreeMap.getElem?_insert] at he
    split_ifs at he with hc
    · obtain rfl := Std.LawfulEqOrd.eq_of_compare hc
      obtain rfl := Option.some.inj he
      exact ⟨rfl, hk⟩
    · exact h.cut chain e he
  | some e =>
    obtain ⟨why, missed⟩ := e
    have htake : round.take C knows op =
        { round with cut := round.cut.insert (op.gladeId, op.origin) (why, missed + 1)
                     gaps := round.gaps.reached (op.gladeId, op.origin) op.seq } := by rw [Round.take, hcut]
    rw [htake]
    refine ⟨⟨h.inv, h.marker, ?_, fun chain e he => ?_⟩, rfl, rfl⟩
    · simp [GapPulls.Gaps.reached, h.gaps]
    · dsimp only at he
      rw [Std.ExtTreeMap.getElem?_insert] at he
      split_ifs at he with hc
      · obtain rfl := Std.LawfulEqOrd.eq_of_compare hc
        obtain rfl := Option.some.inj he
        exact ⟨(h.cut _ _ hcut).1, hk⟩
      · exact h.cut chain e he

theorem Clean.take_known (h : Clean C knows round) {op : Op} (hk : known knows op.origin = true)
    (happend : (append C round.store round.disk op none).1 = .ok .appended) :
    Clean C knows (round.take C knows op) ∧
      (round.take C knows op).store = (append C round.store round.disk op none).2.1 ∧
      (round.take C knows op).applied = round.applied + 1 := by
  have hcut : round.cut[(op.gladeId, op.origin)]? = none := by
    rw [Option.eq_none_iff_forall_ne_some]
    intro e he
    have hno := (h.cut _ e he).2
    dsimp only at hno
    rw [hk] at hno
    cases hno
  have hinv := (append_change round.store round.disk op none).inv h.inv
  have hmarker := @sealedMarker_not_mem_append C round.store round.disk op h.marker
  rcases hres : append C round.store round.disk op none with ⟨answer, store, disk⟩
  rw [hres] at happend hinv hmarker
  dsimp only at happend
  subst happend
  have htake : round.take C knows op = { round with applied := round.applied + 1, store, disk } := by
    rw [Round.take, hcut]
    exact (if_neg (by simp [hk])).trans (by rw [hres])
  rw [htake]
  exact ⟨⟨hinv, hmarker, h.gaps, h.cut⟩, rfl, rfl⟩

/-- What a chain is shipped lands whole, when it follows what the chain holds. -/
theorem Clean.take_tail (h : Clean C knows round) {c : ChainId} (hg : c.gladeId ≠ gCheckpoints)
    (hk : known knows c.origin = true) {ops : List Op} (hops : ∀ op ∈ ops, chainOf op = c ∧ verify C op = .ok ())
    (hchain : (linking C).Chain (FirstHome C round.store.register[c]?) (round.store.logs.at c ++ ops)) :
    Clean C knows (ops.foldl (Round.take C knows) round) ∧
      (ops.foldl (Round.take C knows) round).store.register = round.store.register ∧
      (∀ c', (ops.foldl (Round.take C knows) round).store.logs.at c' =
        if c' = c then round.store.logs.at c ++ ops else round.store.logs.at c') ∧
      (ops.foldl (Round.take C knows) round).applied = round.applied + ops.length := by
  induction ops generalizing round with
  | nil =>
    refine ⟨h, rfl, fun c' => ?_, rfl⟩
    rw [List.append_nil]
    split_ifs with hc
    · rw [hc]
      rfl
    · rfl
  | cons op ops ih =>
    rw [List.forall_mem_cons] at hops
    obtain ⟨⟨rfl, hv⟩, hrest⟩ := hops
    rw [List.append_cons] at hchain
    have hnext := (chain_concat.mp (chain_append_left hchain)).2
    have happend : append C round.store round.disk op none = round.store.commit round.disk op none .appended := by
      rw [append_of_verify h.inv h.marker hv, (h.inv.classifyHome_eq_appended hg).mpr hnext]
    have hres : (append C round.store round.disk op none).1 = .ok .appended ∧
        (append C round.store round.disk op none).2.1 = { round.store with logs := push round.store.logs op } := by
      rw [happend]
      exact ⟨rfl, rfl⟩
    obtain ⟨hclean, hstore, happlied⟩ := h.take_known hk hres.1
    rw [hres.2] at hstore
    have hat : ∀ c', (round.take C knows op).store.logs.at c' =
        if chainOf op = c' then round.store.logs.at (chainOf op) ++ [op] else round.store.logs.at c' := by
      intro c'
      rw [hstore, push, Logs.at_insert]
    have hreg : (round.take C knows op).store.register = round.store.register := by rw [hstore]
    obtain ⟨hclean', hreg', hat', happlied'⟩ := ih hclean hrest (by rw [hreg, hat, if_pos rfl]; exact hchain)
    rw [List.foldl_cons]
    refine ⟨hclean', hreg'.trans hreg, fun c' => ?_, ?_⟩
    · rw [hat', hat, if_pos rfl, hat]
      by_cases hc : c' = chainOf op
      · rw [if_pos hc, if_pos hc, ← List.append_cons]
      · rw [if_neg hc, if_neg hc, if_neg (Ne.symm hc)]
    · rw [happlied', happlied, List.length_cons]
      omega

/-- What a chain of an unknown node is shipped is left out. -/
theorem Clean.take_deferred (h : Clean C knows round) {ops : List Op} (hops : ∀ op ∈ ops, known knows op.origin = false) :
    Clean C knows (ops.foldl (Round.take C knows) round) ∧
      (ops.foldl (Round.take C knows) round).store = round.store ∧
      (ops.foldl (Round.take C knows) round).applied = round.applied := by
  induction ops generalizing round with
  | nil => exact ⟨h, rfl, rfl⟩
  | cons op ops ih =>
    rw [List.forall_mem_cons] at hops
    obtain ⟨hclean, hstore, happlied⟩ := h.take_unknown hops.1
    obtain ⟨hclean', hstore', happlied'⟩ := ih hclean hops.2
    exact ⟨hclean', hstore'.trans hstore, happlied'.trans happlied⟩

/-- How many of `ops` are of nodes this node knows. -/
def knownOf (knows : Bytes32 → Bool) (ops : List Op) : ℕ := ops.countP fun op => known knows op.origin

/-- Chains land one after the other. -/
theorem Clean.take_tails (h : Clean C knows round) {cs : List ChainId} (hnodup : cs.Nodup) {t : ChainId → List Op}
    (hg : ∀ c ∈ cs, c.gladeId ≠ gCheckpoints) (hops : ∀ c ∈ cs, ∀ op ∈ t c, chainOf op = c ∧ verify C op = .ok ())
    (hchain : ∀ c ∈ cs, known knows c.origin = true →
      (linking C).Chain (FirstHome C round.store.register[c]?) (round.store.logs.at c ++ t c)) :
    Clean C knows ((cs.flatMap t).foldl (Round.take C knows) round) ∧
      ((cs.flatMap t).foldl (Round.take C knows) round).store.register = round.store.register ∧
      (∀ c, ((cs.flatMap t).foldl (Round.take C knows) round).store.logs.at c =
        if c ∈ cs ∧ known knows c.origin = true then round.store.logs.at c ++ t c else round.store.logs.at c) ∧
      ((cs.flatMap t).foldl (Round.take C knows) round).applied = round.applied + knownOf knows (cs.flatMap t) := by
  induction cs generalizing round with
  | nil => exact ⟨h, rfl, fun c => by simp, rfl⟩
  | cons c cs ih =>
    rw [List.nodup_cons] at hnodup
    rw [List.forall_mem_cons] at hg hops hchain
    have hcount : knownOf knows ((c :: cs).flatMap t) = knownOf knows (t c) + knownOf knows (cs.flatMap t) := by
      rw [knownOf, List.flatMap_cons, List.countP_append]
      rfl
    have hmem : ∀ {c'}, c' ∈ cs → c' ≠ c := fun hc' heq => hnodup.1 (heq ▸ hc')
    rw [hcount, List.flatMap_cons, List.foldl_append]
    by_cases hk : known knows c.origin = true
    · obtain ⟨hclean, hreg, hat, happlied⟩ := h.take_tail hg.1 hk hops.1 (hchain.1 hk)
      have hall : knownOf knows (t c) = (t c).length := by
        rw [knownOf, List.countP_eq_length]
        intro op hop
        rwa [← (hops.1 op hop).1] at hk
      obtain ⟨hclean', hreg', hat', happlied'⟩ := ih hclean hnodup.2 hg.2 hops.2 fun c' hc' hk' => by
        rw [hreg, hat, if_neg (hmem hc')]
        exact hchain.2 c' hc' hk'
      refine ⟨hclean', hreg'.trans hreg, fun c' => ?_, by rw [happlied', happlied, hall, Nat.add_assoc]⟩
      rw [hat', hat]
      by_cases hc : c' = c
      · subst hc
        rw [if_neg fun h => hnodup.1 h.1, if_pos rfl, if_pos ⟨List.mem_cons_self, hk⟩]
      · simp [hc]
    · have hno : ∀ op ∈ t c, known knows op.origin = false := by
        intro op hop
        rw [← (hops.1 op hop).1] at hk
        exact Bool.eq_false_iff.mpr hk
      obtain ⟨hclean, hstore, happlied⟩ := h.take_deferred hno
      have hnone : knownOf knows (t c) = 0 := by
        rw [knownOf, List.countP_eq_zero]
        intro op hop
        simp [hno op hop]
      obtain ⟨hclean', hreg', hat', happlied'⟩ := ih hclean hnodup.2 hg.2 hops.2 fun c' hc' hk' => by
        rw [hstore]
        exact hchain.2 c' hc' hk'
      refine ⟨hclean', by rw [hreg', hstore], fun c' => ?_, by rw [happlied', happlied, hnone, Nat.zero_add]⟩
      rw [hat', hstore]
      by_cases hc : c' = c
      · subst hc
        rw [if_neg fun h => hk h.2, if_neg fun h => hk h.2]
      · simp [hc]

/-- A checkpoint that is placed. -/
theorem Clean.take_checkpoint (h : Clean C knows round) {cp : Op} {floor : Floor} (hk : known knows cp.origin = true)
    (hv : verify C cp = .ok ())
    (hplaced : classifyHome C round.store.logs round.store.register cp = .placed (homeChain gClaims cp.origin) floor) :
    Clean C knows (round.take C knows cp) ∧
      (∀ c, (round.take C knows cp).store.register[c]? =
        if homeChain gClaims cp.origin = c then some (cp, floor) else round.store.register[c]?) ∧
      (∀ c, c.gladeId ≠ gCheckpoints → (round.take C knows cp).store.logs.at c =
        if homeChain gClaims cp.origin = c then (linking C).above floor.1 (round.store.logs.at c) else round.store.logs.at c) ∧
      (round.take C knows cp).applied = round.applied + 1 := by
  have happend : append C round.store round.disk cp none =
      round.store.commit round.disk cp none (.placed (homeChain gClaims cp.origin) floor) := by
    rw [append_of_verify h.inv h.marker hv, hplaced]
  have hg : cp.gladeId = gCheckpoints := (classifyHome_eq_placed.mp hplaced).1
  have hres : (append C round.store round.disk cp none).1 = .ok .appended ∧
      (append C round.store round.disk cp none).2.1 =
        { round.store with
          logs := (place round.store.logs round.store.register cp (homeChain gClaims cp.origin) floor).1
          register := (place round.store.logs round.store.register cp (homeChain gClaims cp.origin) floor).2 } := by
    rw [happend]
    exact ⟨rfl, rfl⟩
  obtain ⟨hclean, hstore, happlied⟩ := h.take_known hk hres.1
  rw [hres.2, h.inv.place_eq floor hv hg] at hstore
  refine ⟨hclean, fun c => ?_, fun c hc => ?_, happlied⟩
  · rw [hstore]
    dsimp only
    rw [Std.ExtTreeMap.getElem?_insert]
    simp
  · have hne : homeChain gCheckpoints cp.origin ≠ c := fun heq => hc (heq ▸ rfl)
    rw [hstore]
    dsimp only
    rw [Logs.at_insert, Logs.at_insert, if_neg hne]
    split_ifs with heq
    · rw [heq]
    · rfl

end Landing

/-! ### Two stores of honest ops -/

/-- A store whose home ops are of `world`. -/
structure Holds (C : Crypto) (world : Op → Prop) (s : Store) : Prop where
  inv : Inv C s.logs s.register
  ops : ∀ c, c.share = home → ∀ op ∈ s.logs.at c, world op

section Honest

variable {world : Op → Prop} {a b s : Store}

theorem Holds.registered (H : Holds C world s) {c : ChainId} {cp : Op} {floor : Floor} (h : s.register[c]? = some (cp, floor)) :
    c = homeChain gClaims cp.origin ∧ world cp ∧ verify C cp = .ok () ∧ Registry.Gives cp floor := by
  obtain ⟨rfl, hg, hv, hc⟩ := H.inv.registered c cp floor h
  have hheld : cp ∈ s.logs.at (homeChain gCheckpoints cp.origin) := by
    rw [H.inv.checkpoints, h]
    exact List.mem_singleton_self cp
  exact ⟨rfl, H.ops _ rfl cp hheld, hv, hg, hc⟩

/-- A chain's tip is its last op, or the floor of a chain that holds none above it. -/
theorem headOf_cases {c : ChainId} {tip : Floor} (h : headOf C s c = some tip) :
    (∃ y, (s.logs.at c).getLast? = some y ∧ tip = (y.seq, opHash C y)) ∨
      s.logs.at c = [] ∧ ∃ cp, s.register[c]? = some (cp, tip) := by
  unfold headOf tipOf at h
  rcases Option.or_eq_some_iff.mp h with h | ⟨hnone, h⟩
  · obtain ⟨y, hy, rfl⟩ := Option.map_eq_some_iff.mp h
    exact .inl ⟨y, hy, rfl⟩
  · obtain ⟨⟨cp, floor⟩, hr, rfl⟩ := Option.map_eq_some_iff.mp h
    rw [Option.map_eq_none_iff, List.getLast?_eq_none_iff] at hnone
    exact .inr ⟨hnone, cp, hr⟩

theorem headOf_eq_none {c : ChainId} : headOf C s c = none ↔ s.logs.at c = [] ∧ s.register[c]? = none := by
  unfold headOf tipOf
  rw [Option.or_eq_none_iff, Option.map_eq_none_iff, Option.map_eq_none_iff, List.getLast?_eq_none_iff]

/-- Where two stores hold an op at a seq one's tip has, it is the op the tip names. -/
theorem Honest.tip_eq (hw : Honest C world) (Ha : Holds C world a) (Hb : Holds C world b) {c : ChainId} (hs : c.share = home)
    {z : Op} (hz : z ∈ a.logs.at c) {tip : Floor} (htip : headOf C b c = some tip) (hseq : z.seq = tip.1) :
    (z.seq, opHash C z) = tip := by
  have hzw : world z := Ha.ops c hs z hz
  have hzc : chainOf z = c := Ha.inv.keyed c z hz
  rcases headOf_cases htip with ⟨y, hy, rfl⟩ | ⟨-, cp, hr⟩
  · have hyin := List.mem_of_getLast? hy
    rw [hw.one z y hzw (Hb.ops c hs y hyin) (hzc.trans (Hb.inv.keyed c y hyin).symm) hseq]
  · obtain ⟨rfl, hcp, -, hf⟩ := Hb.registered hr
    exact Prod.ext hseq (hw.lawful.base z cp tip hzw hcp (congrArg ChainId.gladeId hzc) (congrArg ChainId.origin hzc) hf hseq)

/-- Of two stores' checkpoints of a chain, the newer gives no lower floor. -/
theorem Honest.floors (hw : Honest C world) (Ha : Holds C world a) (Hb : Holds C world b) {c : ChainId} {cp cp' : Op}
    {floor floor' : Floor} (ha : a.register[c]? = some (cp, floor)) (hb : b.register[c]? = some (cp', floor'))
    (hle : cp.seq ≤ cp'.seq) : floor.1 ≤ floor'.1 ∧ (floor.1 = floor'.1 → floor = floor') := by
  obtain ⟨rfl, hcp, hv, hf⟩ := Ha.registered ha
  obtain ⟨hc, hcp', hv', hf'⟩ := Hb.registered hb
  have ho : cp.origin = cp'.origin := congrArg ChainId.origin hc
  obtain hlt | heq := lt_or_eq_of_le hle
  · obtain ⟨hbase, hhash⟩ := hw.lawful.forward cp cp' floor floor' hcp hcp' ho hf hf' hlt
    exact ⟨hbase, fun heq => Prod.ext heq (hhash heq)⟩
  · have hchain : chainOf cp = chainOf cp' := by
      obtain ⟨⟨hs, hk, -⟩, -⟩ := of_verify hv
      obtain ⟨⟨hs', hk', -⟩, -⟩ := of_verify hv'
      rw [chainOf, chainOf, hs, hk, hs', hk', hf.1, hf'.1, ho]
    obtain rfl := hw.one cp cp' hcp hcp' hchain heq
    obtain rfl := hf.unique hf'
    exact ⟨le_rfl, fun _ => rfl⟩

/-- A tip stands at or above its chain's floor, on it only when it is the floor. -/
theorem floor_le_tip (I : Inv C s.logs s.register) {c : ChainId} {cp : Op} {floor tip : Floor}
    (hr : s.register[c]? = some (cp, floor)) (htip : headOf C s c = some tip) :
    floor.1 < tip.1 ∨ s.logs.at c = [] ∧ tip = floor := by
  rcases headOf_cases htip with ⟨y, hy, rfl⟩ | ⟨hnil, cp', hr'⟩
  · exact .inl (I.lt_seq hr y (List.mem_of_getLast? hy))
  · rw [hr] at hr'
    obtain ⟨-, rfl⟩ := Prod.mk.inj (Option.some.inj hr')
    exact .inr ⟨hnil, rfl⟩

theorem Holds.seq_nonneg (H : Holds C world s) {c : ChainId} (hs : c.share = home) : ∀ op ∈ s.logs.at c, 0 ≤ op.seq :=
  fun op hop => (of_verify (H.inv.verified c hs op hop)).2.1.1

theorem Holds.tip_nonneg (H : Holds C world s) {c : ChainId} (hs : c.share = home) {tip : Floor}
    (htip : headOf C s c = some tip) : 0 ≤ tip.1 := by
  rcases headOf_cases htip with ⟨y, hy, rfl⟩ | ⟨-, cp, hr⟩
  · exact H.seq_nonneg hs y (List.mem_of_getLast? hy)
  · obtain ⟨-, -, -, -, hcheck⟩ := H.registered hr
    exact (check_eq_ok hcheck).2

/-- A home chain of checkpoints is one under no key. -/
theorem eq_homeChain (I : Inv C s.logs s.register) {c : ChainId} (hs : c.share = home) (hg : c.gladeId = gCheckpoints)
    (hne : s.logs.at c ≠ []) : c = homeChain gCheckpoints c.origin := by
  have hkey : c.key = [] := by
    by_contra hk
    exact hne (I.at_eq_nil_of_key hs hk)
  obtain ⟨share, gladeId, key, origin⟩ := c
  rw [homeChain, ← hs, ← hg, ← hkey]

/-- No op of a chain stands past its tip. -/
theorem seq_le_tip (I : Inv C s.logs s.register) {c : ChainId} (hs : c.share = home) {tip : Floor}
    (htip : headOf C s c = some tip) : ∀ op ∈ s.logs.at c, op.seq ≤ tip.1 := by
  rcases headOf_cases htip with ⟨y, hy, rfl⟩ | ⟨hnil, -⟩
  · by_cases hg : c.gladeId = gCheckpoints
    · -- It is the only one.
      have hlog := I.checkpoints c.origin
      rw [← eq_homeChain I hs hg (List.ne_nil_of_mem (List.mem_of_getLast? hy))] at hlog
      intro op hop
      have hin := List.mem_of_getLast? hy
      rw [hlog, Option.mem_toList] at hop hin
      rw [Option.some.inj (hop.symm.trans hin)]
    · exact seq_le_getLast (I.chained_home hs hg) hy
  · simp [hnil]

/-! ### Checkpoints -/

/-- Whether `a`'s checkpoint of a chain is newer than any `b` holds. -/
def Newer (a b : Store) (c : ChainId) : Prop :=
  ∃ cp floor, a.register[c]? = some (cp, floor) ∧ ∀ e, b.register[c]? = some e → e.1.seq < cp.seq

theorem headOf_checkpoints (I : Inv C s.logs s.register) (o : String) :
    headOf C s (homeChain gCheckpoints o) = (s.register[homeChain gClaims o]?).map fun e => (e.1.seq, opHash C e.1) := by
  have hnone : s.register[homeChain gCheckpoints o]? = none := by
    rw [Option.eq_none_iff_forall_ne_some]
    rintro ⟨cp, floor⟩ he
    exact homeChain_claims_ne o cp.origin (I.registered _ _ _ he).1
  unfold headOf tipOf
  rw [hnone, I.checkpoints]
  cases s.register[homeChain gClaims o]? <;> rfl

theorem tail_newer (Ha : Holds C world a) (Hb : Holds C world b) {o : String} {cp : Op} {floor : Floor}
    (ha : a.register[homeChain gClaims o]? = some (cp, floor))
    (hb : ∀ e, b.register[homeChain gClaims o]? = some e → e.1.seq < cp.seq) : tail C a b (homeChain gCheckpoints o) = [cp] := by
  have hcp : 0 ≤ cp.seq := (of_verify (Ha.registered ha).2.2.1).2.1.1
  have hlt : ((headOf C b (homeChain gCheckpoints o)).map Prod.fst).getD minSeq < cp.seq := by
    rw [headOf_checkpoints Hb.inv]
    cases hr : b.register[homeChain gClaims o]? with
    | none => exact lt_of_lt_of_le (show minSeq < 0 by decide) hcp
    | some e => exact hb e hr
  rw [tail, scan, Ha.inv.checkpoints, ha]
  simp [hlt]

theorem tail_not_newer (Ha : Holds C world a) (Hb : Holds C world b) {o : String} (h : ¬ Newer a b (homeChain gClaims o)) :
    tail C a b (homeChain gCheckpoints o) = [] := by
  rw [tail, scan, Ha.inv.checkpoints, headOf_checkpoints Hb.inv]
  cases ha : a.register[homeChain gClaims o]? with
  | none => rfl
  | some e =>
    cases hb : b.register[homeChain gClaims o]? with
    | none => exact absurd ⟨e.1, e.2, ha, by simp [hb]⟩ h
    | some e' =>
      have hle : e.1.seq ≤ e'.1.seq := by
        by_contra hlt
        refine h ⟨e.1, e.2, ha, fun e'' he'' => ?_⟩
        rw [hb] at he''
        obtain rfl := Option.some.inj he''
        exact not_le.mp hlt
      simp [hle]

/-- A newer checkpoint of an honest origin is placed over what `b` holds. -/
theorem Honest.placed (hw : Honest C world) (Ha : Holds C world a) (Hb : Holds C world b) {logs : Logs} {register : Register}
    {cp : Op} {floor : Floor} (ha : a.register[homeChain gClaims cp.origin]? = some (cp, floor))
    (hb : ∀ e, b.register[homeChain gClaims cp.origin]? = some e → e.1.seq < cp.seq)
    (hreg : register[homeChain gClaims cp.origin]? = b.register[homeChain gClaims cp.origin]?)
    (hlog : logs.at (homeChain gClaims cp.origin) = b.logs.at (homeChain gClaims cp.origin)) :
    classifyHome C logs register cp = .placed (homeChain gClaims cp.origin) floor := by
  obtain ⟨-, hcp, -, hf⟩ := Ha.registered ha
  rw [classifyHome_eq_placed, hreg, hlog]
  refine ⟨hf.1, rfl, hf.2, ?_, fun held hfind => ?_⟩
  · cases hr : b.register[homeChain gClaims cp.origin]? with
    | none => rfl
    | some e =>
      have hlt := hb e hr
      obtain ⟨hc, hcpB, -, hfB⟩ := Hb.registered (show b.register[homeChain gClaims cp.origin]? = some (e.1, e.2) from hr)
      have ho : e.1.origin = cp.origin := (congrArg ChainId.origin hc).symm
      obtain ⟨hle, heq⟩ := hw.floors Hb Ha (show _ = some (e.1, e.2) from hr) ha hlt.le
      rw [placement_eq_placed]
      refine ⟨hlt, ?_, hw.lawful.follows e.1 cp e.2 floor hcpB hcp ho hfB hf⟩
      exact (lt_or_eq_of_le hle).imp_right heq
  · have hmem := List.mem_of_find?_eq_some hfind
    have hkey := Hb.inv.keyed _ held hmem
    have hseq : held.seq = floor.1 := by simpa using List.find?_some hfind
    exact hw.lawful.base held cp floor (Hb.ops _ rfl held hmem) hcp (congrArg ChainId.gladeId hkey)
      (congrArg ChainId.origin hkey) hf hseq

/-! ### The pull's two halves -/

/-- Where a store stands to `b` once `a`'s checkpoints of the chains `moved` are placed. -/
structure Stands (C : Crypto) (a b s : Store) (moved : ChainId → Prop) : Prop where
  new : ∀ c, moved c → ∀ cp floor, a.register[c]? = some (cp, floor) →
    s.register[c]? = some (cp, floor) ∧ s.logs.at c = (linking C).above floor.1 (b.logs.at c)
  old : ∀ c, c.gladeId ≠ gCheckpoints → ¬ moved c → s.register[c]? = b.register[c]? ∧ s.logs.at c = b.logs.at c

variable {knows : Bytes32 → Bool} {round : Round}

/-- A chain of checkpoints in the gap: its origin's claims chain is folded. -/
theorem Holds.of_foldChains (Ha : Holds C world a) {c : ChainId} (hc : c ∈ foldChains C a) :
    c = homeChain gCheckpoints c.origin ∧ ∃ cp floor, a.register[homeChain gClaims c.origin]? = some (cp, floor) := by
  obtain ⟨hs, hg, hhead⟩ := (mem_foldChains Ha.inv).mp hc
  obtain ⟨tip, htip⟩ := Option.isSome_iff_exists.mp hhead
  have heq : c = homeChain gCheckpoints c.origin := by
    rcases headOf_cases htip with ⟨y, hy, -⟩ | ⟨-, cp, hr⟩
    · exact eq_homeChain Ha.inv hs hg (List.ne_nil_of_mem (List.mem_of_getLast? hy))
    · rw [(Ha.registered hr).1] at hg
      exact absurd hg (show gClaims ≠ gCheckpoints by decide)
  refine ⟨heq, ?_⟩
  rw [heq, headOf_checkpoints Ha.inv] at htip
  obtain ⟨⟨cp, floor⟩, hr, -⟩ := Option.map_eq_some_iff.mp htip
  exact ⟨cp, floor, hr⟩

theorem Stands.congr {moved moved' : ChainId → Prop} (S : Stands C a b s moved) (h : ∀ c, moved' c ↔ moved c) :
    Stands C a b s moved' where
  new c hc := S.new c ((h c).mp hc)
  old c hg hc := S.old c hg fun hm => hc ((h c).mpr hm)

/-- A chain's checkpoint lands on what it folds if it is newer than the one held and of a
known node; else nothing changes. -/
theorem Honest.take_fold (hw : Honest C world) (Ha : Holds C world a) (Hb : Holds C world b) (h : Clean C knows round)
    {c : ChainId} (hc : c ∈ foldChains C a) {moved : ChainId → Prop} (S : Stands C a b round.store moved)
    (hnew : ¬ moved (homeChain gClaims c.origin)) :
    Clean C knows ((tail C a b c).foldl (Round.take C knows) round) ∧
      Stands C a b ((tail C a b c).foldl (Round.take C knows) round).store
        (fun c' => moved c' ∨ Newer a b c' ∧ known knows c'.origin = true ∧ homeChain gClaims c.origin = c') ∧
      ((tail C a b c).foldl (Round.take C knows) round).applied = round.applied + knownOf knows (tail C a b c) := by
  obtain ⟨hcheck, cp, floor, hr⟩ := Ha.of_foldChains hc
  obtain ⟨hcp, -, hv, hf⟩ := Ha.registered hr
  have ho : c.origin = cp.origin := congrArg ChainId.origin hcp
  rw [ho] at hr hnew ⊢
  rw [ho] at hcheck
  by_cases hmore : Newer a b (homeChain gClaims cp.origin)
  case neg =>
    rw [hcheck, tail_not_newer Ha Hb hmore]
    refine ⟨h, S.congr fun c' => or_iff_left ?_, rfl⟩
    rintro ⟨hnewer, -, rfl⟩
    exact hmore hnewer
  obtain ⟨cp', floor', hr', hlt⟩ := hmore
  obtain ⟨rfl, rfl⟩ := Prod.mk.inj (Option.some.inj (hr.symm.trans hr'))
  rw [hcheck, tail_newer Ha Hb hr hlt]
  by_cases hk : known knows cp.origin = true
  case neg =>
    obtain ⟨hclean, hstore, happlied⟩ := h.take_unknown (Bool.eq_false_iff.mpr hk)
    refine ⟨hclean, ?_, by simpa [knownOf, hk] using happlied⟩
    rw [List.foldl_cons, List.foldl_nil, hstore]
    refine S.congr fun c' => or_iff_left ?_
    rintro ⟨-, hk', rfl⟩
    exact hk hk'
  obtain ⟨hreg, hlog⟩ := S.old _ (show gClaims ≠ gCheckpoints by decide) hnew
  obtain ⟨hclean, hreg', hlog', happlied⟩ := h.take_checkpoint hk hv (hw.placed Ha Hb hr hlt hreg hlog)
  refine ⟨hclean, ⟨fun c' hmoved cp' floor' hr'' => ?_, fun c' hg hmoved => ?_⟩, by simpa [knownOf, hk] using happlied⟩
  · have hg : c'.gladeId ≠ gCheckpoints := by
      rw [(Ha.registered hr'').1]
      exact show gClaims ≠ gCheckpoints by decide
    rw [List.foldl_cons, List.foldl_nil, hreg', hlog' c' hg]
    by_cases hc' : homeChain gClaims cp.origin = c'
    · subst hc'
      rw [hr] at hr''
      obtain ⟨rfl, rfl⟩ := Prod.mk.inj (Option.some.inj hr'')
      rw [if_pos rfl, if_pos rfl, hlog]
      exact ⟨rfl, rfl⟩
    · rw [if_neg hc', if_neg hc']
      exact S.new c' (hmoved.resolve_right fun hm => hc' hm.2.2) cp' floor' hr''
  · rw [List.foldl_cons, List.foldl_nil, hreg', hlog' c' hg]
    have hc' : homeChain gClaims cp.origin ≠ c' := by
      rintro rfl
      exact hmoved (.inr ⟨⟨cp, floor, hr, hlt⟩, hk, rfl⟩)
    rw [if_neg hc', if_neg hc']
    exact S.old c' hg fun hm => hmoved (.inl hm)

variable (knows) in
/-- The checkpoints that are shipped land, each on the chain it folds. -/
theorem Honest.take_folds (hw : Honest C world) (Ha : Holds C world a) (Hb : Holds C world b) (h : Clean C knows round)
    {cs : List ChainId} (hnodup : cs.Nodup) (hcs : ∀ c ∈ cs, c ∈ foldChains C a) {moved : ChainId → Prop}
    (S : Stands C a b round.store moved) (hnew : ∀ c ∈ cs, ¬ moved (homeChain gClaims c.origin)) :
    Clean C knows ((cs.flatMap (tail C a b)).foldl (Round.take C knows) round) ∧
      Stands C a b ((cs.flatMap (tail C a b)).foldl (Round.take C knows) round).store
        (fun c => moved c ∨ Newer a b c ∧ known knows c.origin = true ∧ ∃ c' ∈ cs, homeChain gClaims c'.origin = c) ∧
      ((cs.flatMap (tail C a b)).foldl (Round.take C knows) round).applied =
        round.applied + knownOf knows (cs.flatMap (tail C a b)) := by
  induction cs generalizing round moved with
  | nil => exact ⟨h, by simpa using S, rfl⟩
  | cons c cs ih =>
    rw [List.nodup_cons] at hnodup
    rw [List.forall_mem_cons] at hcs hnew
    obtain ⟨hclean, S', happlied⟩ := hw.take_fold Ha Hb h hcs.1 S hnew.1
    have hone : ∀ c' ∈ cs, homeChain gClaims c.origin ≠ homeChain gClaims c'.origin := by
      intro c' hc' heq
      have ho : c.origin = c'.origin := by simpa [homeChain] using heq
      have hsame : c = c' := by
        rw [(Ha.of_foldChains hcs.1).1, (Ha.of_foldChains (hcs.2 c' hc')).1, ho]
      exact hnodup.1 (hsame ▸ hc')
    obtain ⟨hclean', S'', happlied'⟩ := ih hclean hnodup.2 hcs.2 S' fun c' hc' => by
      rw [not_or]
      exact ⟨hnew.2 c' hc', fun hm => hone c' hc' hm.2.2⟩
    have hcount : knownOf knows ((c :: cs).flatMap (tail C a b)) =
        knownOf knows (tail C a b c) + knownOf knows (cs.flatMap (tail C a b)) := by
      rw [knownOf, List.flatMap_cons, List.countP_append]
      rfl
    rw [hcount, List.flatMap_cons, List.foldl_append]
    refine ⟨hclean', S''.congr fun c' => ?_, by rw [happlied', happlied, Nat.add_assoc]⟩
    rw [List.exists_mem_cons_iff]
    tauto

/-- What the chain of `a` above `b`'s tip starts with: right above the tip, or the first
op `a` holds above a floor that is no lower. -/
theorem Honest.chain_tail (hw : Honest C world) (Ha : Holds C world a) (Hb : Holds C world b) {c : ChainId} (hs : c.share = home)
    (hg : c.gladeId ≠ gCheckpoints) {tip : Floor} (htip : headOf C b c = some tip) :
    (linking C).Chain (fun y => (∃ z ∈ a.logs.at c, z.seq = tip.1) ∧ (linking C).Follows tip y ∨
      ∃ cp floor, a.register[c]? = some (cp, floor) ∧ tip.1 ≤ floor.1 ∧ (linking C).Follows floor y) (tail C a b c) := by
  have htail : tail C a b c = (linking C).above tip.1 (a.logs.at c) := by
    rw [tail, scan, htip]
    rfl
  rw [htail]
  refine (chain_above_position (Ha.inv.chained_home hs hg)).mono ?_
  rintro y ⟨hlt, ⟨hfirst, -⟩ | ⟨z, hz, hle, hfollows⟩⟩
  · right
    have hpos := Hb.tip_nonneg hs htip
    rw [linking_seq] at hlt
    cases hr : a.register[c]? with
    | none =>
      rw [hr] at hfirst
      have h0 : y.seq = 0 := hfirst
      omega
    | some e =>
      rw [hr] at hfirst
      have hseq : y.seq = e.2.1 + 1 := hfirst.1
      exact ⟨e.1, e.2, rfl, by omega, hfirst⟩
  · left
    have hseq : y.seq = z.seq + 1 := hfollows.1
    rw [linking_seq] at hlt hle
    have hz' : z.seq = tip.1 := by omega
    refine ⟨⟨z, hz, hz'⟩, ?_⟩
    rw [← hw.tip_eq Ha Hb hs hz htip hz']
    exact hfollows

/-- What `b` is shipped of a chain it has not got follows none of it. -/
theorem tail_of_none (Ha : Holds C world a) {c : ChainId} (hs : c.share = home) (h : headOf C b c = none) :
    tail C a b c = a.logs.at c := by
  rw [tail, scan, h]
  apply List.filter_eq_self.mpr
  intro op hop
  have hpos := Ha.seq_nonneg hs op hop
  have hmin : minSeq < 0 := by decide
  exact decide_eq_true (lt_of_lt_of_le hmin hpos)

/-- What `b` is shipped of a chain follows what it holds of it, on the floor it then has. -/
theorem Honest.chain_shipped (hw : Honest C world) (Ha : Holds C world a) (Hb : Holds C world b) {moved : ChainId → Prop}
    (S : Stands C a b s moved) {c : ChainId} (hs : c.share = home) (hg : c.gladeId ≠ gCheckpoints)
    (hmoved : moved c ↔ Newer a b c) :
    (linking C).Chain (FirstHome C s.register[c]?) (s.logs.at c ++ tail C a b c) := by
  by_cases hnewer : Newer a b c
  · -- The floor is the one `a` has.
    obtain ⟨cp, floor, hr, hlt⟩ := hnewer
    obtain ⟨hreg, hlog⟩ := S.new c (hmoved.mpr ⟨cp, floor, hr, hlt⟩) cp floor hr
    rw [hreg, hlog]
    have hchain := Ha.inv.chained_home hs hg
    rw [hr] at hchain
    cases htip : headOf C b c with
    | none =>
      rw [tail_of_none Ha hs htip, (headOf_eq_none.mp htip).1]
      exact hchain
    | some tip =>
      have habove : (linking C).Chain ((linking C).Follows floor) ((linking C).above floor.1 (b.logs.at c)) := by
        obtain ⟨rfl, -⟩ := Ha.registered hr
        obtain ⟨-, -, hcheck, hplaced, hbase⟩ := classifyHome_eq_placed.mp (hw.placed Ha Hb hr hlt rfl rfl)
        exact Hb.inv.chain_above_floor hcheck hplaced hbase
      refine chain_append habove ((hw.chain_tail Ha Hb hs hg htip).mono ?_)
      rintro y (⟨⟨z, hz, hseq⟩, hfollows⟩ | ⟨cp', floor', hr', hle, hfollows⟩)
      · -- `b` stands above the floor, so its last op stays.
        have hz' := Ha.inv.lt_seq hr z hz
        rcases headOf_cases htip with ⟨last, hlast, rfl⟩ | ⟨-, cp', hr'⟩
        · have hend : ((linking C).above floor.1 (b.logs.at c)).getLast? = some last := by
            obtain ⟨ws, hws⟩ := List.getLast?_eq_some_iff.mp hlast
            rw [hws, above_concat (by rw [linking_seq]; dsimp only at hseq; omega), List.getLast?_concat]
          have hlast' : (linking C).endOf none ((linking C).above floor.1 (b.logs.at c)) = some (last.seq, opHash C last) := by
            rw [Linking.endOf, hend]
            rfl
          exact next_of_endOf none hlast' (by simp) hfollows
        · have hback := (hw.floors Hb Ha hr' hr (hlt _ hr').le).1
          omega
      · obtain ⟨rfl, rfl⟩ := Prod.mk.inj (Option.some.inj (hr.symm.trans hr'))
        have hnil : (linking C).above floor.1 (b.logs.at c) = [] := by
          apply List.filter_eq_nil_iff.mpr
          intro op hop
          have hle' := seq_le_tip Hb.inv hs htip op hop
          rw [linking_seq, decide_eq_true_iff]
          omega
        rw [hnil]
        exact hfollows
  · obtain ⟨hreg, hlog⟩ := S.old c hg fun hm => hnewer (hmoved.mp hm)
    rw [hreg, hlog]
    have hheld : ∀ cp floor, a.register[c]? = some (cp, floor) → ∃ e, b.register[c]? = some e ∧ cp.seq ≤ e.1.seq := by
      intro cp floor hr
      by_contra hno
      refine hnewer ⟨cp, floor, hr, fun e he => ?_⟩
      by_contra hle
      exact hno ⟨e, he, not_lt.mp hle⟩
    cases htip : headOf C b c with
    | none =>
      obtain ⟨hnil, hnone⟩ := headOf_eq_none.mp htip
      have hchain := Ha.inv.chained_home hs hg
      cases hr : a.register[c]? with
      | none =>
        rw [hr] at hchain
        rw [tail_of_none Ha hs htip, hnil, hnone]
        exact hchain
      | some e =>
        obtain ⟨e', he', -⟩ := hheld e.1 e.2 hr
        rw [hnone] at he'
        cases he'
    | some tip =>
      refine chain_append (Hb.inv.chained_home hs hg) ((hw.chain_tail Ha Hb hs hg htip).mono ?_)
      intro y hy
      have hfollows : (linking C).Follows tip y := by
        rcases hy with ⟨-, hfollows⟩ | ⟨cp, floor, hr, hle, hfollows⟩
        · exact hfollows
        · -- `b` ends at the floor its checkpoint gives, which is the one `a` has.
          obtain ⟨e, he, hseq⟩ := hheld cp floor hr
          obtain ⟨hbase, heq⟩ := hw.floors Ha Hb hr he hseq
          rcases floor_le_tip Hb.inv he htip with hlt | ⟨-, rfl⟩
          · omega
          · rwa [heq (by omega)] at hfollows
      refine next_of_endOf (b.register[c]?.map Prod.snd) htip (fun y' hstart hy' => ?_) hfollows
      obtain ⟨e, he, rfl⟩ := Option.map_eq_some_iff.mp hstart
      rw [he]
      exact hy'

/-! ### The pull -/

variable (knows) in
/-- The puller's store once `a` has answered: the checkpoints, then the rest. -/
theorem Honest.pulled (hw : Honest C world) (Ha : Holds C world a) (Hb : Holds C world b) {disk : Disk}
    (hm : sealedMarker ∉ disk) :
    let round := (homeGap C a (homeHeads C b)).foldl (Round.take C knows) (.new b disk)
    Clean C knows round ∧ round.applied = knownOf knows (homeGap C a (homeHeads C b)) ∧
      ∃ s, Stands C a b s (fun c => Newer a b c ∧ known knows c.origin = true) ∧ round.store.register = s.register ∧
        ∀ c, round.store.logs.at c =
          if c ∈ plainChains C a ∧ known knows c.origin = true then s.logs.at c ++ tail C a b c else s.logs.at c := by
  have S₀ : Stands C a b (Round.new b disk).store (fun _ => False) :=
    ⟨fun _ h => h.elim, fun _ _ _ => ⟨rfl, rfl⟩⟩
  obtain ⟨hclean, S, happlied⟩ := hw.take_folds knows Ha Hb (clean_new Hb.inv hm) (nodup_foldChains Ha.inv)
    (fun _ hc => hc) S₀ (fun _ _ h => h)
  rw [homeGap_eq Hb.inv, List.flatMap_append, List.foldl_append]
  set mid := ((foldChains C a).flatMap (tail C a b)).foldl (Round.take C knows) (.new b disk) with hmid
  -- Every chain with a newer checkpoint is one that was shipped.
  have S' : Stands C a b mid.store (fun c => Newer a b c ∧ known knows c.origin = true) := by
    refine S.congr fun c => ⟨fun h => .inr ⟨h.1, h.2, ?_⟩, fun h => ?_⟩
    · obtain ⟨cp, floor, hr, -⟩ := h.1
      obtain ⟨rfl, -⟩ := Ha.registered hr
      refine ⟨homeChain gCheckpoints cp.origin, (mem_foldChains Ha.inv).mpr ⟨rfl, rfl, ?_⟩, rfl⟩
      rw [headOf_checkpoints Ha.inv, hr]
      rfl
    · rcases h with h | ⟨h, hk, -⟩
      · exact h.elim
      · exact ⟨h, hk⟩
  have hplain : ∀ c ∈ plainChains C a, c.share = home ∧ c.gladeId ≠ gCheckpoints := fun c hc =>
    ⟨((mem_plainChains Ha.inv).mp hc).1, ((mem_plainChains Ha.inv).mp hc).2.1⟩
  obtain ⟨hclean', hreg, hat, happlied'⟩ := hclean.take_tails (nodup_plainChains Ha.inv) (t := tail C a b)
    (fun c hc => (hplain c hc).2)
    (fun c hc op hop => by
      have hin : op ∈ a.logs.at c := (List.mem_filter.mp hop).1
      exact ⟨Ha.inv.keyed c op hin, Ha.inv.verified c (hplain c hc).1 op hin⟩)
    (fun c hc hk => hw.chain_shipped Ha Hb S' (hplain c hc).1 (hplain c hc).2 (and_iff_left hk))
  refine ⟨hclean', ?_, mid.store, S', hreg, hat⟩
  rw [happlied', happlied, knownOf, knownOf, knownOf, List.countP_append]
  simp [Round.new]

/-- A chain has come to `n`. -/
def Come (C : Crypto) (s : Store) (c : ChainId) (n : ℤ) : Prop := ∃ tip, headOf C s c = some tip ∧ n ≤ tip.1

theorem come_of_mem (I : Inv C s.logs s.register) {c : ChainId} (hs : c.share = home) {op : Op}
    (hop : op ∈ s.logs.at c) : Come C s c op.seq := by
  obtain ⟨tip, htip⟩ : ∃ tip, headOf C s c = some tip := by
    rw [← Option.ne_none_iff_exists', ne_eq, headOf_eq_none]
    exact fun h => List.ne_nil_of_mem hop h.1
  exact ⟨tip, htip, seq_le_tip I hs htip op hop⟩

theorem come_of_floor (I : Inv C s.logs s.register) {c : ChainId} {e : Op × Floor} (hr : s.register[c]? = some e) :
    Come C s c e.2.1 := by
  obtain ⟨tip, htip⟩ : ∃ tip, headOf C s c = some tip := by
    rw [← Option.ne_none_iff_exists', ne_eq, headOf_eq_none, hr]
    simp
  refine ⟨tip, htip, ?_⟩
  obtain ⟨cp, floor⟩ := e
  rcases floor_le_tip I hr htip with hlt | ⟨-, rfl⟩
  · exact hlt.le
  · exact le_rfl

theorem Come.mono {c : ChainId} {m n : ℤ} (h : Come C s c n) (hle : m ≤ n) : Come C s c m := by
  obtain ⟨tip, htip, hn⟩ := h
  exact ⟨tip, htip, hle.trans hn⟩

/-- What a pull leaves of the chains of known nodes: checkpoints at least as new. -/
theorem Honest.newer_held (hw : Honest C world) (Ha : Holds C world a) (Hb : Holds C world b) {moved : ChainId → Prop}
    (S : Stands C a b s moved) {c : ChainId} (hmoved : moved c ↔ Newer a b c) {cp : Op} {floor : Floor}
    (hr : a.register[c]? = some (cp, floor)) : ∃ e, s.register[c]? = some e ∧ cp.seq ≤ e.1.seq ∧ floor.1 ≤ e.2.1 := by
  by_cases hnewer : Newer a b c
  · exact ⟨_, (S.new c (hmoved.mpr hnewer) cp floor hr).1, le_rfl, le_rfl⟩
  · have hg : c.gladeId ≠ gCheckpoints := by
      rw [(Ha.registered hr).1]
      exact show gClaims ≠ gCheckpoints by decide
    obtain ⟨e, he, hle⟩ : ∃ e, b.register[c]? = some e ∧ cp.seq ≤ e.1.seq := by
      by_contra hno
      refine hnewer ⟨cp, floor, hr, fun e he => ?_⟩
      by_contra hle
      exact hno ⟨e, he, not_lt.mp hle⟩
    refine ⟨e, ?_, hle, (hw.floors Ha Hb hr he hle).1⟩
    rw [(S.old c hg fun hm => hnewer (hmoved.mp hm)).1]
    exact he

/-- Where the puller's chain was, it still has come. -/
theorem Honest.come_kept (hw : Honest C world) (Ha : Holds C world a) (Hb : Holds C world b) {moved : ChainId → Prop}
    (S : Stands C a b s moved) {s' : Store} (I' : Inv C s'.logs s'.register) {c : ChainId} (hs : c.share = home)
    (hg : c.gladeId ≠ gCheckpoints) (hmoved : moved c ↔ Newer a b c) (hreg : s'.register[c]? = s.register[c]?)
    (hlog : ∀ op ∈ s.logs.at c, op ∈ s'.logs.at c) {tip : Floor} (htip : headOf C b c = some tip) : Come C s' c tip.1 := by
  by_cases hnewer : Newer a b c
  · obtain ⟨cp, floor, hr, hlt⟩ := hnewer
    obtain ⟨hreg', hlog'⟩ := S.new c (hmoved.mpr ⟨cp, floor, hr, hlt⟩) cp floor hr
    rw [hreg'] at hreg
    have hfloor := come_of_floor I' hreg
    rcases headOf_cases htip with ⟨y, hy, rfl⟩ | ⟨-, cp', hr'⟩
    · by_cases habove : floor.1 < y.seq
      · refine come_of_mem I' hs (hlog y ?_)
        rw [hlog', mem_above]
        exact ⟨List.mem_of_getLast? hy, habove⟩
      · exact hfloor.mono (not_lt.mp habove)
    · exact hfloor.mono (hw.floors Hb Ha hr' hr (hlt _ hr').le).1
  · obtain ⟨hreg', hlog'⟩ := S.old c hg fun hm => hnewer (hmoved.mp hm)
    rcases headOf_cases htip with ⟨y, hy, rfl⟩ | ⟨-, cp', hr'⟩
    · refine come_of_mem I' hs (hlog y ?_)
      rw [hlog']
      exact List.mem_of_getLast? hy
    · exact come_of_floor (e := (cp', tip)) I' (by rw [hreg, hreg', hr'])

/-- Once `a` has answered, each chain of a known node has come as far as `a`'s. -/
theorem Honest.come (hw : Honest C world) (Ha : Holds C world a) (Hb : Holds C world b) {s' : Store}
    (I' : Inv C s'.logs s'.register) (S : Stands C a b s fun c => Newer a b c ∧ known knows c.origin = true)
    (hreg : s'.register = s.register)
    (hat : ∀ c, s'.logs.at c =
      if c ∈ plainChains C a ∧ known knows c.origin = true then s.logs.at c ++ tail C a b c else s.logs.at c)
    {c : ChainId} (hs : c.share = home) (hk : known knows c.origin = true) {tip : Floor} (htip : headOf C a c = some tip) :
    Come C s' c tip.1 := by
  have hmoved : Newer a b c ∧ known knows c.origin = true ↔ Newer a b c := and_iff_left hk
  by_cases hg : c.gladeId = gCheckpoints
  · have hsome : (headOf C a c).isSome = true := Option.isSome_iff_exists.mpr ⟨tip, htip⟩
    obtain ⟨hc, cp, floor, hr⟩ := Ha.of_foldChains ((mem_foldChains Ha.inv).mpr ⟨hs, hg, hsome⟩)
    obtain ⟨e, he, hle, -⟩ := hw.newer_held Ha Hb S (c := homeChain gClaims c.origin) (and_iff_left hk) hr
    rw [hc, headOf_checkpoints Ha.inv, hr] at htip
    obtain rfl := Option.some.inj htip
    refine ⟨(e.1.seq, opHash C e.1), ?_, hle⟩
    rw [hc, headOf_checkpoints I', hreg]
    exact congrArg (Option.map _) he
  · have hkeep : ∀ op ∈ s.logs.at c, op ∈ s'.logs.at c := by
      intro op hop
      rw [hat]
      split_ifs
      · exact List.mem_append_left _ hop
      · exact hop
    rcases headOf_cases htip with ⟨x, hx, rfl⟩ | ⟨-, cp, hr⟩
    · have hxin := List.mem_of_getLast? hx
      by_cases hship : ((headOf C b c).map Prod.fst).getD minSeq < x.seq
      · -- It was shipped.
        have hplain : c ∈ plainChains C a :=
          (mem_plainChains Ha.inv).mpr ⟨hs, hg, Option.isSome_iff_exists.mpr ⟨_, htip⟩⟩
        refine come_of_mem I' hs ?_
        rw [hat, if_pos ⟨hplain, hk⟩]
        exact List.mem_append_right _ (List.mem_filter.mpr ⟨hxin, decide_eq_true hship⟩)
      · cases htipb : headOf C b c with
        | none =>
          rw [htipb] at hship
          have hpos := Ha.seq_nonneg hs x hxin
          exact absurd (lt_of_lt_of_le (show minSeq < 0 by decide) hpos) hship
        | some tipb =>
          rw [htipb] at hship
          exact (hw.come_kept Ha Hb S I' hs hg hmoved (by rw [hreg]) hkeep htipb).mono (not_lt.mp hship)
    · obtain ⟨e, he, -, hle⟩ := hw.newer_held Ha Hb S hmoved hr
      exact (come_of_floor I' (by rw [hreg]; exact he)).mono hle

/-- A chain's ops stand at or below its tip. -/
theorem Holds.tail_eq_nil (Ha : Holds C world a) {c : ChainId} (hs : c.share = home)
    (h : ∀ tip, headOf C a c = some tip → Come C s c tip.1) : tail C a s c = [] := by
  apply List.filter_eq_nil_iff.mpr
  intro op hop
  obtain ⟨tip', htip', hle'⟩ := come_of_mem Ha.inv hs hop
  obtain ⟨tip, htip, hle⟩ := (h tip' htip').mono hle'
  rw [htip, decide_eq_true_iff, not_lt]
  exact hle

end Honest

/-! ### The frames of a pull -/

theorem mem_homeGap {a b : Store} (Ia : Inv C a.logs a.register) (Ib : Inv C b.logs b.register) {op : Op}
    (h : op ∈ homeGap C a (homeHeads C b)) : op.share = home ∧ op ∈ tail C a b (chainOf op) := by
  rw [homeGap_eq Ib, List.mem_flatMap] at h
  obtain ⟨c, hc, hop⟩ := h
  have hs : c.share = home := by
    rcases List.mem_append.mp hc with hc | hc
    · exact ((mem_foldChains Ia).mp hc).1
    · exact ((mem_plainChains Ia).mp hc).1
  obtain rfl := Ia.keyed c op (List.mem_filter.mp hop).1
  exact ⟨hs, hop⟩

theorem pullHome_eq (knows : Bytes32 → Bool) (s : Store) (disk : Disk) (frames : List (List Op)) :
    pullHome C knows s disk frames =
      (frames.flatten.filter fun op => op.share = home).foldl (Round.take C knows) (.new s disk) := by
  unfold pullHome
  generalize Round.new s disk = round
  induction frames generalizing round with
  | nil => rfl
  | cons ops frames ih => rw [List.foldl_cons, ih, List.flatten_cons, List.filter_append, List.foldl_append]

/-- An append of a home op leaves every other share. -/
theorem append_at_of_home {s : Store} {disk : Disk} {op : Op} {fault : Option Fault} (hs : op.share = home) {c : ChainId}
    (hc : c.share ≠ home) : (append C s disk op fault).2.1.logs.at c = s.logs.at c := by
  have hown : chainOf op ≠ c := fun h => hc (h ▸ hs)
  have hchange := append_change (C := C) s disk op fault
  revert hchange
  generalize (append C s disk op fault).2.1.logs = logs
  generalize (append C s disk op fault).2.1.register = register
  intro hchange
  cases hchange with
  | none => rfl
  | push => rw [push, Logs.at_insert, if_neg hown]
  | place folded floor hv =>
    rw [verdictOf, if_pos hs] at hv
    obtain ⟨-, rfl, -⟩ := classifyHome_eq_placed.mp hv
    have hfolded : homeChain gClaims op.origin ≠ c := fun h => hc (h ▸ rfl)
    rw [place, Logs.at_insert, if_neg hown, Logs.at_insert, if_neg hfolded]

theorem take_at_of_home (knows : Bytes32 → Bool) (round : Round) {op : Op} (hs : op.share = home) {c : ChainId}
    (hc : c.share ≠ home) : (round.take C knows op).store.logs.at c = round.store.logs.at c := by
  have happend : (append C round.store round.disk op none).2.1.logs.at c = round.store.logs.at c := append_at_of_home hs hc
  unfold Round.take
  dsimp only
  split
  · rfl
  · split_ifs with hk
    case neg => rfl
    case pos =>
      rcases hres : append C round.store round.disk op none with ⟨answer, store, disk⟩
      rw [hres] at happend
      cases answer with
      | ok => exact happend
      | error e => exact happend

/-- A pull moves the home share alone, whatever the peer sends. Of what honest origins
made, one pull that is sent whole, and under which no I/O call fails, takes all that a peer
ships of the nodes this node knows: it refuses no chain and notes no gap, each such chain
and its checkpoint come as far as the peer's, and the peer then has nothing more of them to
ship. -/
theorem pull_converges (C : Crypto) :
    (∀ knows s disk frames c, c.share ≠ home → (pullHome C knows s disk frames).store.logs.at c = s.logs.at c) ∧
    ∀ (world : Op → Prop) (a b : Store) (diskA diskB : Disk) (knows : Bytes32 → Bool) (bytes : ℕ),
      Honest C world → Reaches C a diskA → Reaches C b diskB →
      (∀ c, c.share = home → (∀ op ∈ a.logs.at c, world op) ∧ ∀ op ∈ b.logs.at c, world op) →
      let gap := homeGap C a (homeHeads C b)
      let round := pullHome C knows b diskB (chunked gap bytes)
      round.finish.rejected = [] ∧ round.gaps = ∅ ∧ round.finish.applied = knownOf knows gap ∧
      (∀ c tip, c.share = home → known knows c.origin = true → headOf C a c = some tip →
        ∃ tip', headOf C round.store c = some tip' ∧ tip.1 ≤ tip'.1) ∧
      (∀ (c : ChainId) cp floor, a.register[c]? = some (cp, floor) → known knows c.origin = true →
        ∃ cp' floor', round.store.register[c]? = some (cp', floor') ∧ cp.seq ≤ cp'.seq) ∧
      ∀ op ∈ homeGap C a (homeHeads C round.store), known knows op.origin = false := by
  refine ⟨fun knows s disk frames c hc => ?_, fun world a b diskA diskB knows bytes hw hA hB hops => ?_⟩
  · rw [pullHome_eq]
    have hhome : ∀ op ∈ frames.flatten.filter (fun op => op.share = home), op.share = home := fun op hop => by
      simpa using (List.mem_filter.mp hop).2
    revert hhome
    generalize (frames.flatten.filter fun op => op.share = home) = ops
    change _ → (ops.foldl (Round.take C knows) (.new s disk)).store.logs.at c = (Round.new s disk).store.logs.at c
    generalize Round.new s disk = round
    intro hhome
    induction ops generalizing round with
    | nil => rfl
    | cons op ops ih =>
      rw [List.forall_mem_cons] at hhome
      rw [List.foldl_cons, ih _ hhome.2, take_at_of_home knows round hhome.1 hc]
  obtain ⟨Ia, -⟩ := hA.journals
  obtain ⟨Ib, journal, torn, J⟩ := hB.journals
  have Ha : Holds C world a := ⟨Ia, fun c hs => (hops c hs).1⟩
  have Hb : Holds C world b := ⟨Ib, fun c hs => (hops c hs).2⟩
  have hround : pullHome C knows b diskB (chunked (homeGap C a (homeHeads C b)) bytes) =
      (homeGap C a (homeHeads C b)).foldl (Round.take C knows) (.new b diskB) := by
    rw [pullHome_eq, (chunked_inv _ _).1]
    congr 1
    apply List.filter_eq_self.mpr
    intro op hop
    exact decide_eq_true (mem_homeGap Ia Ib hop).1
  obtain ⟨hclean, happlied, s, S, hreg, hat⟩ := hw.pulled knows Ha Hb J.sealedMarker_not_mem
  have hcome : ∀ c tip, c.share = home → known knows c.origin = true → headOf C a c = some tip →
      Come C ((homeGap C a (homeHeads C b)).foldl (Round.take C knows) (.new b diskB)).store c tip.1 :=
    fun c tip hs hk htip => hw.come Ha Hb hclean.inv S hreg hat hs hk htip
  dsimp only
  rw [hround]
  refine ⟨?_, hclean.gaps, happlied, hcome, fun c cp floor hr hk => ?_, fun op hop => ?_⟩
  · exact hclean.rejected_eq_nil
  · obtain ⟨e, he, hle, -⟩ := hw.newer_held Ha Hb S (and_iff_left hk) hr
    exact ⟨e.1, e.2, by rw [hreg]; exact he, hle⟩
  · obtain ⟨hs, htail⟩ := mem_homeGap Ia hclean.inv hop
    rw [← Bool.not_eq_true]
    intro hk
    rw [Ha.tail_eq_nil hs fun tip htip => hcome _ tip hs hk htip] at htail
    cases htail

/-! ### A pull of a fold -/

/-- A node that claims a share, and folds its claim. -/
def renewer : NodeIdentity .plain := { seed := filled 1 }

def claiming : Registry.Call :=
  .append (.serve { node := renewer.name, share := "s", leaseExpiryMs := 0, epoch := 1 }) renewer.name

def folding (claim : Op) : Registry.Call :=
  .append (.checkpoint { node := renewer.name, stream := gClaims, seq := 0, hash := (opHash .plain claim).val }) renewer.name

def renewals : List Registry.Call := claiming :: (Registry.history renewer [claiming]).map folding

@[irreducible] def renewed : List Op := Registry.history renewer renewals

theorem honest_renewed : Honest .plain (· ∈ renewed) where
  one op op' hop hop' hchain hseq := by
    have hdistinct : ∀ op ∈ renewed, ∀ op' ∈ renewed, chainOf op = chainOf op' → op.seq = op'.seq → op = op' := by decide +kernel
    exact hdistinct op hop op' hop' hchain hseq
  produced := by
    refine ⟨fun _ => (renewer, renewals), fun op hop _ => ?_⟩
    unfold renewed at hop
    exact hop

/-- A node that holds nothing is shipped the checkpoint alone, and comes as far. -/
theorem pull_converges_renewer :
    let gap := homeGap .plain (fed .plain renewed).1 (homeHeads .plain empty)
    let round := pullHome .plain (fun _ => true) empty ∅ (chunked gap 0)
    round.finish.rejected = [] ∧ round.finish.applied = 1 ∧
      ∃ tip, headOf .plain round.store (homeChain gClaims renewer.name) = some tip ∧ 0 ≤ tip.1 := by
  have hjournalable : ∀ op ∈ renewed, Journalable op := by decide +kernel
  have hone : knownOf (fun _ => true) (homeGap .plain (fed .plain renewed).1 (homeHeads .plain empty)) = 1 := by decide +kernel
  have hhead : (headOf .plain (fed .plain renewed).1 (homeChain gClaims renewer.name)).map Prod.fst = some 0 := by decide +kernel
  have hknown : known (fun _ => true) renewer.name = true := by
    rw [known, NodeIdentity.name, keyOf_hex]
    rfl
  have ha : Reaches .plain (fed .plain renewed).1 (fed .plain renewed).2 := reaches_fed hjournalable
  have hops : ∀ c op, op ∈ (fed .plain renewed).1.logs.at c → op ∈ renewed := fun _ _ => mem_fed
  have hnone : ∀ c op, op ∈ empty.logs.at c → op ∈ renewed := by simp [empty, Logs.at]
  obtain ⟨hrejected, -, happlied, hcome, -, -⟩ := (pull_converges .plain).2 (· ∈ renewed) _ _ _ _ (fun _ => true) 0
    honest_renewed ha .empty fun c _ => ⟨hops c, hnone c⟩
  obtain ⟨tip, htip, hzero⟩ := Option.map_eq_some_iff.mp hhead
  exact ⟨hrejected, happlied.trans hone, hzero ▸ hcome _ tip rfl hknown htip⟩

end Glade.Node
