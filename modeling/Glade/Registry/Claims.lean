import Glade.Lib.Ranks
import Glade.Node.Session
import Glade.Registry.Workspaces

/-! The queries of claims, the registry's (`node/src/registry.rs`) and the served
store's (`mesh/route.rs`, `claims.rs`). They rank claims by epoch and then by node,
so some of the claims answer as all of them do wherever each one left out is
covered by one that is kept. -/

namespace Glade.Registry

open Wire Node Store

variable {C : Crypto}

/-! ### The queries -/

/-- The claims a registry folds. -/
def claims (r : Registry C) : List ServeClaim := (r.foldIter gClaims).filterMap fun o => folded o ServeClaim.fromCbor

/-- The claims of a share that are live at a reader's clock. -/
def liveClaims (claims : List ServeClaim) (share : String) (nowMs : Int64) : List ServeClaim :=
  claims.filter fun c => c.share = share ∧ nowMs < c.leaseExpiryMs

/-- Which node serves a share: of the live claims the last of those ranked highest. -/
def whoServes (r : Registry C) (share : String) (nowMs : Int64) : Option String :=
  (Ranks.pick (fun c b => ¬ ClaimAbove b c) (liveClaims r.claims share nowMs)).map (·.node)

/-- The claims a served store holds of `node`, in chain order. -/
def ownClaims (s : Store) (node : String) : List ServeClaim :=
  (scan s (Store.homeChain gClaims node) minSeq).filterMap fun op => folded op ServeClaim.fromCbor

/-- The claims a served store holds, one node after another. -/
def servedClaims (C : Crypto) (s : Store) : List ServeClaim :=
  (headsOf C s (home, gClaims, [])).flatMap fun e => ownClaims s e.1

/-- Which node serves a share, by a served store: of the live claims the first of
those ranked highest. -/
def servedBy (C : Crypto) (s : Store) (share : String) (nowMs : Int64) : Option String :=
  (Ranks.pick ClaimAbove (liveClaims (servedClaims C s) share nowMs)).map (·.node)

/-- The epoch `home` joins the renewal set at: the highest of the node's own claims on it. -/
def homeEpoch (s : Store) (node : String) : Int64 :=
  (Ranks.pick (fun c b => b ≤ c) (((ownClaims s node).filter fun c => c.share = home).map (·.epoch))).getD 1

/-- Whether a served store knows a share: by an entry, or by a claim live or lapsed. -/
def directoryKnows (C : Crypto) (s : Store) (share : String) : Bool :=
  let entries := (headsOf C s (home, gWorkspaces, [])).flatMap fun e =>
    (scan s (Store.homeChain gWorkspaces e.1) minSeq).filterMap fun op => folded op WorkspaceEntry.fromCbor
  entries.any (fun e => e.workspace = share) || (servedClaims C s).any (fun c => c.share = share)

theorem mem_claims {r : Registry C} {c : ServeClaim} :
    c ∈ r.claims ↔ ∃ op ∈ r.ops, op.gladeId = gClaims ∧ folded op ServeClaim.fromCbor = some c := by
  unfold claims
  simp only [List.mem_filterMap, mem_foldIter, and_assoc]

/-! ### What covered claims answer -/

/-- Whether `later` names the same node and share as `claim`, with an epoch at least
as high and a lease that ends no earlier. -/
def Supersedes (later claim : ServeClaim) : Prop :=
  (later.node = claim.node ∧ later.share = claim.share) ∧ claim.epoch ≤ later.epoch ∧
    claim.leaseExpiryMs ≤ later.leaseExpiryMs

instance (later claim : ServeClaim) : Decidable (Supersedes later claim) := inferInstanceAs (Decidable (_ ∧ _ ∧ _))

theorem Supersedes.refl (c : ServeClaim) : Supersedes c c := ⟨⟨rfl, rfl⟩, Int64.le_refl _, Int64.le_refl _⟩

theorem claimAbove_iff {a b : ServeClaim} :
    ClaimAbove a b ↔ b.epoch.toInt < a.epoch.toInt ∨ (a.epoch.toInt = b.epoch.toInt ∧ a.node < b.node) := by
  unfold ClaimAbove
  rw [Int64.lt_iff_toInt_lt, Int64.toInt_inj]

theorem not_claimAbove_iff {a b : ServeClaim} :
    ¬ ClaimAbove a b ↔ a.epoch.toInt ≤ b.epoch.toInt ∧ (a.epoch.toInt = b.epoch.toInt → b.node ≤ a.node) := by
  rw [claimAbove_iff]
  push Not
  rfl

theorem claimAbove_order : Ranks.Order ClaimAbove where
  irrefl a := not_claimAbove_iff.mpr ⟨le_rfl, fun _ => le_rfl⟩
  trans a b c hab hbc := by
    rw [not_claimAbove_iff] at hab hbc ⊢
    refine ⟨hab.1.trans hbc.1, ?_⟩
    intro hac
    have hb : a.epoch.toInt = b.epoch.toInt ∧ b.epoch.toInt = c.epoch.toInt := by omega
    exact (hbc.2 hb.2).trans (hab.2 hb.1)

/-- The fold of the served store, which keeps the first of those ranked highest. -/
theorem judges_first : Ranks.Judges ClaimAbove ClaimAbove where
  of_wins x b h := by
    rw [claimAbove_iff] at h
    rw [not_claimAbove_iff]
    rcases h with h | ⟨he, h⟩
    · exact ⟨h.le, fun he => by omega⟩
    · exact ⟨he.ge, fun _ => h.le⟩
  of_keeps _ _ h := h

/-- The fold of the registry, which keeps the last. -/
theorem judges_last : Ranks.Judges ClaimAbove (fun c b => ¬ ClaimAbove b c) where
  of_wins _ _ h := h
  of_keeps x b h hx := judges_first.of_wins b x (not_not.mp h) hx

/-- Claims neither of which is above the other have one node and one epoch. -/
theorem claimAbove_tie {a b : ServeClaim} (hab : ¬ ClaimAbove a b) (hba : ¬ ClaimAbove b a) :
    a.node = b.node ∧ a.epoch = b.epoch := by
  rw [not_claimAbove_iff] at hab hba
  have he : a.epoch.toInt = b.epoch.toInt := by omega
  exact ⟨le_antisymm (hba.2 he.symm) (hab.2 he), Int64.toInt_inj.mp he⟩

theorem Supersedes.not_above {later claim : ServeClaim} (h : Supersedes later claim) : ¬ ClaimAbove claim later := by
  obtain ⟨⟨hnode, -⟩, hepoch, -⟩ := h
  rw [not_claimAbove_iff]
  exact ⟨Int64.le_iff_toInt_le.mp hepoch, fun _ => hnode.le⟩

/-- A part of some claims that covers all of them. -/
structure Covering (kept all : List ServeClaim) : Prop where
  subset : ∀ c ∈ kept, c ∈ all
  covered : ∀ c ∈ all, ∃ later ∈ kept, Supersedes later c

namespace Covering

variable {kept all : List ServeClaim} (h : Covering kept all)

include h

theorem filter (p : ServeClaim → Bool) (hp : ∀ later c, Supersedes later c → p c = true → p later = true) :
    Covering (kept.filter p) (all.filter p) where
  subset c hc := by
    rw [List.mem_filter] at hc ⊢
    exact ⟨h.subset c hc.1, hc.2⟩
  covered c hc := by
    rw [List.mem_filter] at hc
    obtain ⟨later, hmem, hover⟩ := h.covered c hc.1
    exact ⟨later, List.mem_filter.mpr ⟨hmem, hp later c hover hc.2⟩, hover⟩

theorem live (share : String) (nowMs : Int64) :
    Covering (liveClaims kept share nowMs) (liveClaims all share nowMs) := by
  apply h.filter
  intro later c hover hc
  rw [decide_eq_true_iff] at hc ⊢
  refine ⟨hover.1.2.trans hc.1, ?_⟩
  have hlease := Int64.le_iff_toInt_le.mp hover.2.2
  have hlive := Int64.lt_iff_toInt_lt.mp hc.2
  exact Int64.lt_iff_toInt_lt.mpr (by omega)

theorem share (share : String) : Covering (kept.filter fun c => c.share = share) (all.filter fun c => c.share = share) := by
  apply h.filter
  intro later c hover hc
  rw [decide_eq_true_iff] at hc ⊢
  exact hover.1.2.trans hc

/-- Whichever fold picks it, the claim ranked highest has one node and one epoch. -/
theorem map_pick_eq {β : Type} {wins : ServeClaim → ServeClaim → Prop} [DecidableRel wins]
    (hj : Ranks.Judges ClaimAbove wins) {key : ServeClaim → β}
    (hkey : ∀ a b : ServeClaim, a.node = b.node ∧ a.epoch = b.epoch → key a = key b) :
    (Ranks.pick wins kept).map key = (Ranks.pick wins all).map key := by
  apply Ranks.map_pick_eq hj claimAbove_order
  · exact fun a b hab hba => hkey a b (claimAbove_tie hab hba)
  · exact fun c hc => ⟨c, h.subset c hc, claimAbove_order.irrefl c⟩
  · intro c hc
    obtain ⟨later, hmem, hover⟩ := h.covered c hc
    exact ⟨later, hmem, hover.not_above⟩

theorem maxClaimEpoch_eq (share : String) : maxClaimEpoch kept share = maxClaimEpoch all share := by
  have hlast : ∀ claims, lastClaim claims share = Ranks.pick ClaimAbove (claims.filter fun c => c.share = share) := by
    intro claims
    unfold lastClaim Ranks.pick
    rw [List.foldl_filter]
    congr 1
    funext best c
    by_cases hc : c.share = share <;> simp [hc]
  unfold maxClaimEpoch
  rw [hlast, hlast, (h.share share).map_pick_eq judges_first fun _ _ h => h.2]

theorem maxEpoch_eq :
    Ranks.pick (fun c b : Int64 => b ≤ c) (kept.map (·.epoch)) = Ranks.pick (fun c b : Int64 => b ≤ c) (all.map (·.epoch)) := by
  have hj : Ranks.Judges (fun a b : Int64 => b.toInt < a.toInt) (fun c b => b ≤ c) := by
    constructor
    · intro x b hx
      rw [Int64.le_iff_toInt_le] at hx
      omega
    · intro x b hx
      rw [Int64.le_iff_toInt_le] at hx
      omega
  have ho : Ranks.Order (fun a b : Int64 => b.toInt < a.toInt) :=
    ⟨fun a => lt_irrefl _, fun a b c hab hbc => by omega⟩
  suffices hpick : (Ranks.pick (fun c b : Int64 => b ≤ c) (kept.map (·.epoch))).map id =
      (Ranks.pick (fun c b : Int64 => b ≤ c) (all.map (·.epoch))).map id by simpa using hpick
  apply Ranks.map_pick_eq hj ho
  · exact fun a b hab hba => show a = b from Int64.toInt_inj.mp (by omega)
  · intro e he
    obtain ⟨c, hc, rfl⟩ := List.mem_map.mp he
    exact ⟨c.epoch, List.mem_map_of_mem (h.subset c hc), lt_irrefl _⟩
  · intro e he
    obtain ⟨c, hc, rfl⟩ := List.mem_map.mp he
    obtain ⟨later, hmem, hover⟩ := h.covered c hc
    have hepoch := Int64.le_iff_toInt_le.mp hover.2.1
    exact ⟨later.epoch, List.mem_map_of_mem hmem, by omega⟩

end Covering

/-- What covers its part of the claims covers them with any others. -/
theorem Covering.among {kept all part whole : List ServeClaim} (others : ServeClaim → Prop) (h : Covering part whole)
    (hkept : ∀ c, c ∈ kept ↔ others c ∨ c ∈ part) (hall : ∀ c, c ∈ all ↔ others c ∨ c ∈ whole) : Covering kept all where
  subset c hc := by
    rw [hkept] at hc
    rw [hall]
    exact hc.imp_right (h.subset c)
  covered c hc := by
    rw [hall] at hc
    rcases hc with hc | hc
    · exact ⟨c, (hkept c).mpr (.inl hc), Supersedes.refl c⟩
    · obtain ⟨later, hmem, hover⟩ := h.covered c hc
      exact ⟨later, (hkept later).mpr (.inr hmem), hover⟩

/-! ### The served store's answers -/

/-- A chain that holds an op is one its stream's heads name. -/
theorem exists_headsOf {s : Store} {stream origin : String} {op : Op} (hop : op ∈ s.logs.at (homeChain stream origin)) :
    ∃ e ∈ headsOf C s (home, stream, []), e.1 = origin := by
  have hne : s.logs.at (homeChain stream origin) ≠ [] := List.ne_nil_of_mem hop
  obtain ⟨last, hlast⟩ := Option.isSome_iff_exists.mp (List.getLast?_isSome.mpr hne)
  have hmem : (homeChain stream origin, s.logs.at (homeChain stream origin)) ∈ s.logs.toList := Logs.mem_toList_of_at hne
  refine ⟨(origin, last.seq), ?_, rfl⟩
  unfold headsOf chainsIn
  rw [List.mem_filterMap]
  refine ⟨_, List.mem_filter.mpr ⟨hmem, by simp [homeChain]⟩, ?_⟩
  dsimp only
  rw [tipOf, hlast]
  rfl

section Served

variable {s : Store} (I : Inv C s.logs s.register)

include I

/-- A scan from the least seq there is reads the whole chain. -/
theorem scan_home (c : StreamId) : scan s c.chainId minSeq = s.logs.at c.chainId := by
  unfold scan
  rw [List.filter_eq_self]
  intro op hop
  have hseq := (of_verify (I.verified c.chainId rfl op hop)).2.1.1
  have hmin : minSeq < 0 := by decide
  exact decide_eq_true (lt_of_lt_of_le hmin hseq)

theorem mem_ownClaims {node : String} {c : ServeClaim} :
    c ∈ ownClaims s node ↔
      ∃ op ∈ s.logs.at (homeChain gClaims node), folded op ServeClaim.fromCbor = some c := by
  have hscan : scan s (homeChain gClaims node) minSeq = s.logs.at (homeChain gClaims node) := scan_home I ⟨gClaims, node⟩
  unfold ownClaims
  rw [hscan, List.mem_filterMap]

theorem mem_servedClaims {c : ServeClaim} : c ∈ servedClaims C s ↔ ∃ node, c ∈ ownClaims s node := by
  unfold servedClaims
  rw [List.mem_flatMap]
  constructor
  · rintro ⟨e, -, hc⟩
    exact ⟨e.1, hc⟩
  · rintro ⟨node, hc⟩
    obtain ⟨op, hop, -⟩ := (mem_ownClaims I).mp hc
    obtain ⟨e, he, rfl⟩ := exists_headsOf (C := C) hop
    exact ⟨e, he, hc⟩

end Served

/-- The entries a served store holds. -/
theorem mem_directoryKnows {s : Store} (I : Inv C s.logs s.register) {share : String} :
    directoryKnows C s share = true ↔
      (∃ node, ∃ op ∈ s.logs.at (homeChain gWorkspaces node), ∃ e, folded op WorkspaceEntry.fromCbor = some e ∧
        e.workspace = share) ∨ ∃ c ∈ servedClaims C s, c.share = share := by
  have hscan : ∀ node, scan s (homeChain gWorkspaces node) minSeq = s.logs.at (homeChain gWorkspaces node) :=
    fun node => scan_home I ⟨gWorkspaces, node⟩
  unfold directoryKnows
  rw [Bool.or_eq_true, List.any_eq_true, List.any_eq_true]
  simp only [List.mem_flatMap, List.mem_filterMap, decide_eq_true_eq]
  apply or_congr
  · constructor
    · rintro ⟨e, ⟨head, -, op, hop, hfold⟩, hshare⟩
      rw [hscan] at hop
      exact ⟨head.1, op, hop, e, hfold, hshare⟩
    · rintro ⟨node, op, hop, e, hfold, hshare⟩
      obtain ⟨head, hhead, rfl⟩ := exists_headsOf (C := C) hop
      exact ⟨e, ⟨head, hhead, op, by rwa [hscan], hfold⟩, hshare⟩
  · exact Iff.rfl

/-- What two served stores answer alike about claims. -/
structure SameAnswers (C : Crypto) (s s' : Store) : Prop where
  servedBy : ∀ share nowMs, servedBy C s share nowMs = servedBy C s' share nowMs
  maxClaimEpoch : ∀ share, maxClaimEpoch (servedClaims C s) share = maxClaimEpoch (servedClaims C s') share
  homeEpoch : ∀ node, homeEpoch s node = homeEpoch s' node
  directoryKnows : ∀ share, directoryKnows C s share = directoryKnows C s' share

end Glade.Registry
