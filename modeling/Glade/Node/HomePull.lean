import Glade.Node.Chunks
import Glade.Node.GapPulls
import Glade.Registry.History

/-! The home pull (`node/src/session.rs`, `mesh/serve.rs`, `mesh/home.rs`): a node
announces its heads of the home share, and a peer ships what it holds above them, the
checkpoints first. Over honest origins the puller takes every op that is shipped: the
checkpoint a chain was folded under has moved the floor its first claim lands on. -/

namespace Glade.Node

open Wire Store LinkedLog

variable (C : Crypto)

/-! ### The pull -/

/-- Every zone a store holds, once. -/
def zones (s : Store) : List Zone := (s.logs.toList.map fun e => (e.1.share, e.1.gladeId, e.1.key)).dedup

/-- Every zone's heads. -/
def allHeads (s : Store) : List StreamHeads := (zones s).map (zoneHeads C s)

/-- What a puller announces. -/
def homeHeads (s : Store) : List StreamHeads := (allHeads C s).filter fun sh => sh.share = home

def isCheckpoints (zone : Zone) : Bool := zone.1 = home ∧ zone.2.1 = gCheckpoints

/-- The zones a serve walks: the home zones of checkpoints first, the rest in their order. -/
def serveOrder (zones : List Zone) : List Zone := zones.filter isCheckpoints ++ zones.filter fun zone => !isCheckpoints zone

/-- The heads announced of a zone. -/
def byZone (their : List StreamHeads) (zone : Zone) : SeqHeads :=
  (their.filter fun sh => (sh.share, sh.gladeId, sh.key) = zone).foldl
    (fun m sh => sh.heads.foldl (fun m hd => m.insert hd.origin hd.seq) m) ∅

/-- The gap a serve ships, in the order it is sent. -/
def homeGap (s : Store) (their : List StreamHeads) : List Op :=
  ((serveOrder (zones s)).filter fun zone => zone.1 = home).flatMap fun zone => missingFor C s zone (byZone their zone)

/-- Why a round cut a chain short. -/
inductive Cut where
  /-- Its origin is not a node this node knows. -/
  | deferred
  /-- The store refused one of its ops. -/
  | refused (why : StoreError)

/-- One round of a peer's home records: what it took, the chains it cut short, each with
how many of its ops were not taken, those that were cut short as a gap, and the store. -/
structure Round where
  applied : ℕ
  cut : Std.ExtTreeMap GapPulls.Chain (Cut × ℕ)
  gaps : GapPulls.Gaps
  store : Store
  disk : Disk

/-- What a round took, and the chains it refused and deferred. -/
structure SyncOutcome where
  applied : ℕ
  rejected : List ChainId
  deferred : List ChainId

/-- Whether `origin` is a node this node knows, itself or one whose HELLO it has verified. -/
def known (knows : Bytes32 → Bool) (origin : String) : Bool := (keyOf origin).any knows

namespace Round

def new (s : Store) (disk : Disk) : Round := { applied := 0, cut := ∅, gaps := ∅, store := s, disk }

/-- Take a home op the peer sent, unless its chain is cut short. -/
def take (knows : Bytes32 → Bool) (round : Round) (op : Op) : Round :=
  let chain := (op.gladeId, op.origin)
  match round.cut[chain]? with
  | some (why, missed) =>
    { round with cut := round.cut.insert chain (why, missed + 1), gaps := round.gaps.reached chain op.seq }
  | none =>
    if ¬ known knows op.origin then { round with cut := round.cut.insert chain (.deferred, 1) }
    else
      match append C round.store round.disk op none with
      | (.ok _, store, disk) => { round with applied := round.applied + 1, store, disk }
      | (.error e, store, disk) =>
        { round with
          cut := round.cut.insert chain (.refused e, 1)
          gaps := match e with
            | .gap _ _ => round.gaps.refused chain op.seq
            | _ => round.gaps
          store, disk }

def finish (round : Round) : SyncOutcome where
  applied := round.applied
  rejected := round.cut.toList.filterMap fun e =>
    match e.2.1 with
    | .refused _ => some (homeChain e.1.1 e.1.2)
    | .deferred => none
  deferred := round.cut.toList.filterMap fun e =>
    match e.2.1 with
    | .deferred => some (homeChain e.1.1 e.1.2)
    | .refused _ => none

end Round

/-- A pull: the frames a peer sends, up to its END, into a store. Ops that are not of the
home share are dropped. -/
def pullHome (knows : Bytes32 → Bool) (s : Store) (disk : Disk) (frames : List (List Op)) : Round :=
  frames.foldl (fun round ops => (ops.filter fun op => op.share = home).foldl (Round.take C knows) round) (.new s disk)

variable {C}

/-! ### Reading the heads -/

/-- A chain's tip in a store. -/
def headOf (C : Crypto) (s : Store) (c : ChainId) : Option Floor := tipOf C s c (s.logs.at c)

def zoneOfChain (c : ChainId) : Zone := (c.share, c.gladeId, c.key)

theorem chainIn_zoneOfChain (c : ChainId) : chainIn (zoneOfChain c) c.origin = c := rfl

/-- The chains of a zone that have a tip. -/
def chainsOf (C : Crypto) (s : Store) (zone : Zone) : List ChainId := (headsOf C s zone).map fun e => chainIn zone e.1

section Heads

variable {s : Store}

theorem mem_logs_of_headOf (I : Inv C s.logs s.register) {c : ChainId} {tip : Floor} (h : headOf C s c = some tip) :
    c ∈ s.logs := by
  rw [I.present]
  unfold headOf tipOf at h
  rcases Option.or_eq_some_iff.mp h with h | ⟨-, h⟩
  · obtain ⟨op, hop, -⟩ := Option.map_eq_some_iff.mp h
    exact .inl (List.ne_nil_of_mem (List.mem_of_getLast? hop))
  · obtain ⟨e, he, -⟩ := Option.map_eq_some_iff.mp h
    exact .inr (Std.ExtTreeMap.mem_iff_isSome_getElem?.mpr (by rw [he]; rfl))

theorem mem_chainsIn {zone : Zone} {e : ChainId × List Op} :
    e ∈ chainsIn s zone ↔ e.1 ∈ s.logs ∧ e.2 = s.logs.at e.1 ∧ zoneOfChain e.1 = zone := by
  obtain ⟨c, log⟩ := e
  unfold chainsIn
  rw [List.mem_filter, Std.ExtTreeMap.mem_toList_iff_getElem?_eq_some, decide_eq_true_iff, Logs.at,
    Std.ExtTreeMap.getD_eq_getD_getElem?, Std.ExtTreeMap.mem_iff_isSome_getElem?]
  dsimp only
  cases s.logs[c]? with
  | none => simp
  | some held => simp [zoneOfChain, eq_comm]

theorem mem_chainsOf (I : Inv C s.logs s.register) {zone : Zone} {c : ChainId} :
    c ∈ chainsOf C s zone ↔ zoneOfChain c = zone ∧ (headOf C s c).isSome = true := by
  unfold chainsOf headsOf
  rw [List.mem_map]
  constructor
  · rintro ⟨head, hhead, rfl⟩
    obtain ⟨e, he, htip⟩ := List.mem_filterMap.mp hhead
    obtain ⟨-, hlog, rfl⟩ := mem_chainsIn.mp he
    obtain ⟨tip, hsome, rfl⟩ := Option.map_eq_some_iff.mp htip
    refine ⟨rfl, ?_⟩
    rw [hlog] at hsome
    exact Option.isSome_iff_exists.mpr ⟨tip, hsome⟩
  · rintro ⟨rfl, hsome⟩
    obtain ⟨tip, htip⟩ := Option.isSome_iff_exists.mp hsome
    refine ⟨(c.origin, tip.1), List.mem_filterMap.mpr ⟨(c, s.logs.at c), ?_, ?_⟩, chainIn_zoneOfChain c⟩
    · exact mem_chainsIn.mpr ⟨mem_logs_of_headOf I htip, rfl, rfl⟩
    · unfold headOf at htip
      rw [htip]
      rfl

theorem nodup_chainsOf (zone : Zone) : (chainsOf C s zone).Nodup := by
  have hkeys : ((chainsIn s zone).map Prod.fst).Nodup := by
    rw [List.nodup_iff_pairwise_ne, List.pairwise_map]
    refine (Std.ExtTreeMap.distinct_keys_toList.sublist List.filter_sublist).imp ?_
    rintro a b hne heq
    exact hne (by rw [heq]; exact Std.ReflCmp.compare_self)
  have hsub : (chainsOf C s zone).Sublist ((chainsIn s zone).map Prod.fst) := by
    have hall : ∀ e ∈ chainsIn s zone, zoneOfChain e.1 = zone := fun e he => (mem_chainsIn.mp he).2.2
    unfold chainsOf headsOf
    generalize chainsIn s zone = es at hall ⊢
    induction es with
    | nil => simp
    | cons e es ih =>
      have hrest := ih fun e' he' => hall e' (List.mem_cons_of_mem _ he')
      rw [List.filterMap_cons]
      cases tipOf C s e.1 e.2 with
      | none => exact hrest.cons _
      | some tip =>
        have hzone : chainIn zone e.1.origin = e.1 := by
          rw [← hall e List.mem_cons_self]
          exact chainIn_zoneOfChain e.1
        simp only [Option.map_some, List.map_cons, hzone]
        exact hrest.cons_cons _
  exact hkeys.sublist hsub

theorem mem_zones {zone : Zone} : zone ∈ zones s ↔ ∃ c ∈ s.logs, zoneOfChain c = zone := by
  unfold zones
  rw [List.mem_dedup, List.mem_map]
  constructor
  · rintro ⟨⟨c, log⟩, hmem, rfl⟩
    rw [Std.ExtTreeMap.mem_toList_iff_getElem?_eq_some] at hmem
    exact ⟨c, Std.ExtTreeMap.mem_iff_isSome_getElem?.mpr (by rw [hmem]; rfl), rfl⟩
  · rintro ⟨c, hc, rfl⟩
    obtain ⟨log, hlog⟩ := Option.isSome_iff_exists.mp (Std.ExtTreeMap.mem_iff_isSome_getElem?.mp hc)
    exact ⟨(c, log), Std.ExtTreeMap.mem_toList_iff_getElem?_eq_some.mpr hlog, rfl⟩

/-- What a store announces of its home chains is where each ends. -/
theorem byZone_homeHeads (I : Inv C s.logs s.register) {zone : Zone} (hz : zone.1 = home) (origin : String) :
    (byZone (homeHeads C s) zone)[origin]? = (headOf C s (chainIn zone origin)).map Prod.fst := by
  have hnodup : (zones s).Nodup := List.nodup_dedup _
  have hfilter : (homeHeads C s).filter (fun sh => (sh.share, sh.gladeId, sh.key) = zone) =
      ((zones s).filter fun z => z = zone).map (zoneHeads C s) := by
    unfold homeHeads allHeads
    rw [List.filter_filter, List.filter_map]
    congr 1
    apply List.filter_congr
    intro z _
    by_cases h : z = zone
    · subst h
      have hkey : ((zoneHeads C s z).share, (zoneHeads C s z).gladeId, (zoneHeads C s z).key) = z := rfl
      have hshare : (zoneHeads C s z).share = home := hz
      rw [Function.comp_apply, decide_eq_true hkey, decide_eq_true hshare, decide_eq_true rfl]
      rfl
    · have hne : ¬ ((zoneHeads C s z).share, (zoneHeads C s z).gladeId, (zoneHeads C s z).key) = zone := h
      simp [h, hne]
  unfold byZone
  rw [hfilter]
  by_cases hzone : zone ∈ zones s
  · rw [List.filter_eq, List.count_eq_one_of_mem hnodup hzone]
    apply OrdMap.getElem?_foldl_insert_eq
    · intro hd hhd ho
      obtain ⟨e, he, htip⟩ := List.mem_filterMap.mp hhd
      obtain ⟨-, hlog, rfl⟩ := mem_chainsIn.mp he
      obtain ⟨tip, hsome, rfl⟩ := Option.map_eq_some_iff.mp htip
      obtain rfl : e.1.origin = origin := ho
      rw [hlog] at hsome
      rw [chainIn_zoneOfChain, headOf, hsome]
      rfl
    · intro hsome
      obtain ⟨tip, htip⟩ := Option.isSome_iff_exists.mp (Option.isSome_map.symm.trans hsome)
      have hmem : chainIn zone origin ∈ s.logs := mem_logs_of_headOf I htip
      let e := (chainIn zone origin, s.logs.at (chainIn zone origin))
      have hchain : e ∈ chainsIn s zone := mem_chainsIn.mpr ⟨hmem, rfl, rfl⟩
      refine ⟨{ origin, seq := tip.1, hash := some tip.2.val },
        List.mem_filterMap.mpr ⟨e, hchain, ?_⟩, rfl⟩
      unfold headOf at htip
      rw [htip]
      rfl
  · rw [List.filter_eq, List.count_eq_zero_of_not_mem hzone]
    have hnone : headOf C s (chainIn zone origin) = none := by
      rw [Option.eq_none_iff_forall_ne_some]
      intro tip htip
      exact hzone (mem_zones.mpr ⟨_, mem_logs_of_headOf I htip, rfl⟩)
    rw [hnone]
    simp

end Heads

end Glade.Node
