import Glade.Node.Hello

/-! HELLO proves the peer on this very link. A signature that an end takes for an honest
node's was made by that node, as the link's other end and for this link alone: the
domains' tags and the transcript's fields read back from the bytes signed, and no two
links derive the same bytes. -/

namespace Glade.Node.Hello

open Wire Side Histories

/-! ### What a signed message says -/

theorem tag_eq_of_prefixed {d d' : Domain} (h : d.tag <+: d'.tag) : d = d' := by
  revert h
  cases d <;> cases d' <;> decide

/-- A message is of one domain. -/
theorem tag_append_inj {d d' : Domain} {m m' : Bytes} (h : d.tag ++ m = d'.tag ++ m') : d = d' ∧ m = m' := by
  have hpre : d.tag <+: d'.tag ++ m' := ⟨m, h⟩
  have hpre' : d'.tag <+: d'.tag ++ m' := List.prefix_append _ _
  have hd : d = d' := by
    rcases List.prefix_or_prefix_of_prefix hpre hpre' with hle | hle
    · exact tag_eq_of_prefixed hle
    · exact (tag_eq_of_prefixed hle).symm
  subst hd
  exact ⟨rfl, List.append_cancel_left h⟩

theorem roleText_injective : Function.Injective roleText := by
  intro a b h
  cases a <;> cases b <;> first | rfl | exact absurd h (by decide)

/-- A transcript is of one end, one node and one connection. -/
theorem transcript_inj {role role' : Side} {id id' : Bytes32} {c c' : Channel}
    (h : transcript role id c = transcript role' id' c') : role = role' ∧ id = id' ∧ c = c' := by
  have hread : ∀ (role : Side) (id : Bytes32) (c : Channel), tryDecode (transcript role id c) =
      .ok (.map [(1, .int protocol), (2, .text (roleText role)), (3, .bytes id), (4, .bytes c.dialer), (5, .bytes c.acceptor),
        (6, .bytes c.exported)]) := by
    intro role id c
    have hbytes : ∀ b : Bytes32, Counted (.bytes b.val) := by
      intro b
      have hlen := b.2
      exact .bytes _ (by omega)
    have hshaped : Shaped true 1 (.map [(1, .int protocol), (2, .text (roleText role)), (3, .bytes id), (4, .bytes c.dialer),
        (5, .bytes c.acceptor), (6, .bytes c.exported)]) := by
      refine shaped_map [1, 2, 3, 4, 5, 6] rfl (by decide) (by simp) ?_
      simp [shaped_int, shaped_text, shaped_bytes]
    have hdepth : 1 ≤ defaultMaxDepth := by decide
    refine tryDecode_of_counted hshaped (.map _ ?_ ?_) hdepth
    · simp only [List.length_cons, List.length_nil]
      omega
    have htext : Counted (.text (roleText role)) := .text _ (by cases role <;> decide)
    intro e he
    simp only [List.mem_cons, List.not_mem_nil, or_false] at he
    rcases he with rfl | rfl | rfl | rfl | rfl | rfl
    · exact .int _
    · exact htext
    · exact hbytes id
    · exact hbytes c.dialer
    · exact hbytes c.acceptor
    · exact hbytes c.exported
  have heq := (hread role id c).symm.trans (h ▸ hread role' id' c')
  simp only [Except.ok.injEq, Cbor.map.injEq, List.cons.injEq, Prod.mk.injEq, true_and, Cbor.text.injEq, Cbor.bytes.injEq,
    and_true] at heq
  obtain ⟨hrole, hid, hd, ha, he⟩ := heq
  refine ⟨roleText_injective hrole, Subtype.ext hid, ?_⟩
  cases c
  cases c'
  simp only [Channel.mk.injEq]
  exact ⟨Subtype.ext hd, Subtype.ext ha, Subtype.ext he⟩

/-! ### What an end knows -/

section Mesh

variable {C : Crypto} {ι : Type} {M : Mesh C ι}

/-- What `role`'s HELLO signs on a link. -/
def signedOn (M : Mesh C ι) (link : ι) (role : Side) (id : Bytes32) : Bytes :=
  Domain.peerHello.tag ++ transcript role id (M.link link).channel

theorem signedOn_inj {link link' : ι} {role role' : Side} {id id' : Bytes32}
    (h : signedOn M link role id = signedOn M link' role' id') : link = link' ∧ role = role' ∧ id = id' := by
  obtain ⟨hrole, hid, hc⟩ := transcript_inj (tag_append_inj h).2
  exact ⟨M.distinct _ _ (congrArg Channel.exported hc), hrole, hid⟩

/-- Both ends see one channel. -/
theorem linkChannel_ok {k : Keys} {e : Side} (seen : Seen k e) {channel : Channel}
    (h : linkChannel seen.remoteId seen.channelBinding (k.key e) e = .ok channel) : channel = k.channel := by
  unfold linkChannel at h
  cases hid : seen.remoteId with
  | none =>
    rw [hid] at h
    cases h
  | some id =>
    rw [hid] at h
    dsimp only at h
    by_cases hlen : id.length = 32
    · rw [dif_pos hlen] at h
      have hfar : (⟨id, hlen⟩ : Bytes32) = k.key e.other := Subtype.ext (seen.remote id hid)
      cases hb : seen.channelBinding with
      | none =>
        rw [hb] at h
        cases h
      | some exported =>
        rw [hb] at h
        have hexp := seen.binding exported hb
        rw [hfar, hexp] at h
        cases e with
        | dialer => exact (Except.ok.inj h).symm
        | acceptor => exact (Except.ok.inj h).symm
    · rw [dif_neg hlen] at h
      cases h

theorem verifyPeer_ok {said : Greeting} {role : Side} {channel : Channel} {peer : Bytes32} {sig : Bytes}
    (h : verifyPeer C said role channel = .ok (peer, sig)) :
    said.protocol = protocol ∧ C.verifyStrict peer (Domain.peerHello.tag ++ transcript role peer channel) sig = true := by
  unfold verifyPeer at h
  by_cases hlen : said.nodeId.length = 32
  · rw [dif_pos hlen] at h
    by_cases hp : said.protocol ≠ protocol
    · rw [if_pos hp] at h
      cases h
    rw [if_neg hp] at h
    cases hs : said.sig with
    | none =>
      rw [hs] at h
      cases h
    | some sig' =>
      rw [hs] at h
      dsimp only at h
      split_ifs at h with hv
      cases h
      exact ⟨not_not.mp hp, hv⟩
  · rw [dif_neg hlen] at h
    cases h

variable {t did : List (Happening ι)} {s : State ι} {link : ι} {e : Side} {node : ℕ} {stage : Stage}

/-- An end's stage and its channel fit what has happened on its link. -/
structure Fits (M : Mesh C ι) (t : List (Happening ι)) (link : ι) (e : Side) (stage : Stage) : Prop where
  channel : ∀ channel, stage = .waiting channel → channel = (M.link link).channel
  /-- An end that waits has not been refused, and an acceptor that waits has not answered. -/
  open_ : ∀ channel, stage = .waiting channel → (∀ why, .refused link e why ∉ t) ∧ (e = .acceptor → .welcomed link ∉ t)

/-- What is so at any time. -/
structure Kept (M : Mesh C ι) (t : List (Happening ι)) (s : State ι) : Prop where
  began : ∀ link e node, .began link e node ∈ t → ∃ stage, s.ends (link, e) = some (node, stage)
  ends : ∀ link e node stage, s.ends (link, e) = some (node, stage) → .began link e node ∈ t ∧ Fits M t link e stage
  quiet : ∀ link e, s.ends (link, e) = none → (∀ why, .refused link e why ∉ t) ∧ (e = .acceptor → .welcomed link ∉ t)
  /-- A node signs for HELLO as an end of one link, and as its acceptor once it has the dialer. -/
  signed : ∀ node message, .signed node message ∈ t → (∃ domain m, domain ≠ Domain.peerHello ∧ message = domain.tag ++ m) ∨
    ∃ link e, message = signedOn M link e (M.node node).nodeId ∧ .began link e node ∈ t ∧
      (e = .acceptor → ∃ peer door now, .proved link .acceptor peer door now ∈ t)
  /-- A peer is proved by its signature as the other end, and the door binds it. -/
  proved : ∀ link e peer door now, .proved link e peer door now ∈ t →
    (∃ sig, .verified peer (signedOn M link e.other peer) sig ∈ t) ∧
      ∀ d, door = some d → d.binds peer ((M.link link).key e.other) now = .ok ()
  verified : ∀ key message sig, .verified key message sig ∈ t → C.verifyStrict key message sig = true
  returned : ∀ link e peer, .returned link e peer ∈ t → ∃ door now, .proved link e peer door now ∈ t
  welcomed : ∀ link, .welcomed link ∈ t → (∃ peer door now, .proved link .acceptor peer door now ∈ t) ∧
    ∀ why, .refused link .acceptor why ∉ t

/-- A signature is taken for one of an honest node's on a message that no node of that key
has signed. -/
def Forged (M : Mesh C ι) (t : List (Happening ι)) : Prop :=
  ∃ node message sig, .verified (M.node node).nodeId message sig ∈ t ∧
    ∀ node', (M.node node').nodeId = (M.node node).nodeId → .signed node' message ∉ t

/-- What an honest node's proof shows: it runs the link's other end, and as the acceptor it
has the dialer's proof. -/
theorem Kept.other_end (K : Kept M t s) {peer : Bytes32} {door : Option Door} {now : ℤ}
    (hp : .proved link e peer door now ∈ t) (hnode : (M.node node).nodeId = peer) :
    Forged M t ∨ ∃ node', (M.node node').nodeId = peer ∧ .began link e.other node' ∈ t ∧
      (e.other = .acceptor → ∃ peer' door' now', .proved link .acceptor peer' door' now' ∈ t) := by
  obtain ⟨⟨sig, hv⟩, -⟩ := K.proved _ _ _ _ _ hp
  by_cases hsigned : ∃ node', (M.node node').nodeId = peer ∧ .signed node' (signedOn M link e.other peer) ∈ t
  · obtain ⟨node', hid, hin⟩ := hsigned
    rcases K.signed _ _ hin with ⟨domain, m, hd, hm⟩ | ⟨link', e', hm, hb, hpeer⟩
    · exact absurd (tag_append_inj hm).1.symm hd
    · obtain ⟨rfl, rfl, -⟩ := signedOn_inj hm
      exact .inr ⟨node', hid, hb, hpeer⟩
  · refine .inl ⟨node, signedOn M link e.other peer, sig, hnode ▸ hv, fun node' hid hin => hsigned ⟨node', ?_, hin⟩⟩
    exact hid.trans hnode

/-- What one end's step may say. -/
structure Says (M : Mesh C ι) (link : ι) (e : Side) (node : ℕ) (stage : Stage) (did : List (Happening ι)) : Prop where
  began : ∀ link' e' node', .began link' e' node' ∈ did → link' = link ∧ e' = e ∧ node' = node
  refused : ∀ link' e' why, .refused link' e' why ∈ did → link' = link ∧ e' = e ∧ stage = .done ∧ .welcomed link ∉ did
  welcomed : ∀ link', .welcomed link' ∈ did → link' = link ∧ e = .acceptor ∧ stage = .done ∧
    ∃ peer door now, .proved link .acceptor peer door now ∈ did
  channel : ∀ channel, stage = .waiting channel → channel = (M.link link).channel
  signed : ∀ node' message, .signed node' message ∈ did → node' = node ∧ message = signedOn M link e (M.node node).nodeId ∧
    (e = .acceptor → ∃ peer door now, .proved link .acceptor peer door now ∈ did)
  proved : ∀ link' e' peer door now, .proved link' e' peer door now ∈ did → link' = link ∧ e' = e ∧
    (∃ sig, .verified peer (signedOn M link e.other peer) sig ∈ did) ∧
      ∀ d, door = some d → d.binds peer ((M.link link).key e.other) now = .ok ()
  verified : ∀ key message sig, .verified key message sig ∈ did → C.verifyStrict key message sig = true
  returned : ∀ link' e' peer, .returned link' e' peer ∈ did → link' = link ∧ e' = e ∧ ∃ door now,
    .proved link e peer door now ∈ did

/-- A signature in another domain is none of HELLO's. -/
theorem Kept.sign (K : Kept M t s) (node : ℕ) {domain : Domain} (hd : domain ≠ .peerHello) (message : Bytes) :
    Kept M (t ++ [.signed node (domain.tag ++ message)]) s := by
  constructor
  case began => simpa using K.began
  case ends =>
    intro link e node' stage hs
    obtain ⟨hin, hfits⟩ := K.ends link e node' stage hs
    refine ⟨List.mem_append_left _ hin, hfits.channel, fun channel hw => ?_⟩
    simpa using hfits.open_ channel hw
  case quiet => simpa using K.quiet
  case signed =>
    intro node' message' hin
    rcases List.mem_append.mp hin with hin | hin
    · refine (K.signed node' message' hin).imp_right ?_
      rintro ⟨link, e, hm, hb, hp⟩
      refine ⟨link, e, hm, List.mem_append_left _ hb, fun he => ?_⟩
      obtain ⟨peer, door, now, hin'⟩ := hp he
      exact ⟨peer, door, now, List.mem_append_left _ hin'⟩
    · cases List.mem_singleton.mp hin
      exact .inl ⟨domain, message, hd, rfl⟩
  case proved => simpa using K.proved
  case verified => simpa using K.verified
  case returned => simpa using K.returned
  case welcomed => simpa using K.welcomed

variable [DecidableEq ι]

theorem ends_set (s : State ι) (link link' : ι) (e e' : Side) (node : ℕ) (stage : Stage) :
    (s.set link e node stage).ends (link', e') = if link' = link ∧ e' = e then some (node, stage) else s.ends (link', e') := by
  unfold State.set
  simp only [Function.update_apply, Prod.mk.injEq]

theorem Kept.move (K : Kept M t s) (S : Says M link e node stage did)
    (hbefore : s.ends (link, e) = none ∧ .began link e node ∈ did ∨ ∃ channel, s.ends (link, e) = some (node, .waiting channel)) :
    Kept M (t ++ did) (s.set link e node stage) := by
  -- The end was open: not refused, and the dialer not answered.
  have hopen : (∀ why, .refused link e why ∉ t) ∧ (e = .acceptor → .welcomed link ∉ t) := by
    rcases hbefore with ⟨hnone, -⟩ | ⟨channel, hw⟩
    · exact K.quiet link e hnone
    · exact (K.ends link e node _ hw).2.open_ channel rfl
  have hbegan : .began link e node ∈ t ++ did := by
    rcases hbefore with ⟨-, hin⟩ | ⟨channel, hw⟩
    · exact List.mem_append_right _ hin
    · exact List.mem_append_left _ (K.ends link e node _ hw).1
  -- Another end's happenings are what they were.
  have hrefused : ∀ {link' e' why}, ¬ (link' = link ∧ e' = e) → .refused link' e' why ∈ t ++ did → .refused link' e' why ∈ t := by
    intro link' e' why hne hin
    exact (List.mem_append.mp hin).resolve_right fun h => hne ⟨(S.refused _ _ _ h).1, (S.refused _ _ _ h).2.1⟩
  have hwelcomed : ∀ {link' e'}, ¬ (link' = link ∧ e' = e) → e' = .acceptor → .welcomed link' ∈ t ++ did →
    .welcomed link' ∈ t := by
    intro link' e' hne he hin
    refine (List.mem_append.mp hin).resolve_right fun h => hne ?_
    obtain ⟨hl, hacc, -⟩ := S.welcomed _ h
    exact ⟨hl, he.trans hacc.symm⟩
  constructor
  case began =>
    intro link' e' node' hin
    rw [ends_set]
    rcases List.mem_append.mp hin with hin | hin
    · obtain ⟨stage', hs⟩ := K.began _ _ _ hin
      split_ifs with h
      · obtain ⟨rfl, rfl⟩ := h
        rcases hbefore with ⟨hnone, -⟩ | ⟨channel, hw⟩
        · rw [hnone] at hs
          cases hs
        · rw [hw] at hs
          obtain ⟨rfl, -⟩ := Prod.mk.inj (Option.some.inj hs)
          exact ⟨stage, rfl⟩
      · exact ⟨stage', hs⟩
    · obtain ⟨rfl, rfl, rfl⟩ := S.began _ _ _ hin
      rw [if_pos ⟨rfl, rfl⟩]
      exact ⟨stage, rfl⟩
  case ends =>
    intro link' e' node' stage' hs
    rw [ends_set] at hs
    split_ifs at hs with h
    · obtain ⟨rfl, rfl⟩ := h
      obtain ⟨rfl, rfl⟩ := Prod.mk.inj (Option.some.inj hs)
      refine ⟨hbegan, S.channel, fun channel hw => ⟨fun why hin => ?_, fun he hin => ?_⟩⟩
      · rcases List.mem_append.mp hin with hin | hin
        · exact hopen.1 why hin
        · have hdone := (S.refused _ _ _ hin).2.2.1
          rw [hw] at hdone
          cases hdone
      · rcases List.mem_append.mp hin with hin | hin
        · exact hopen.2 he hin
        · have hdone := (S.welcomed _ hin).2.2.1
          rw [hw] at hdone
          cases hdone
    · obtain ⟨hin, hfits⟩ := K.ends _ _ _ _ hs
      refine ⟨List.mem_append_left _ hin, hfits.channel, fun channel hw => ?_⟩
      obtain ⟨hr, hno⟩ := hfits.open_ channel hw
      exact ⟨fun why hin => hr why (hrefused h hin), fun he hin => hno he (hwelcomed h he hin)⟩
  case quiet =>
    intro link' e' hnone
    rw [ends_set] at hnone
    split_ifs at hnone with h
    obtain ⟨hr, hno⟩ := K.quiet link' e' hnone
    exact ⟨fun why hin => hr why (hrefused h hin), fun he hin => hno he (hwelcomed h he hin)⟩
  case signed =>
    intro node' message hin
    rcases List.mem_append.mp hin with hin | hin
    · refine (K.signed node' message hin).imp_right ?_
      rintro ⟨link', e', hm, hb, hp⟩
      refine ⟨link', e', hm, List.mem_append_left _ hb, fun he => ?_⟩
      obtain ⟨peer, door, now, hin'⟩ := hp he
      exact ⟨peer, door, now, List.mem_append_left _ hin'⟩
    · obtain ⟨rfl, hm, hp⟩ := S.signed _ _ hin
      refine .inr ⟨link, e, hm, hbegan, fun he => ?_⟩
      obtain ⟨peer, door, now, hin'⟩ := hp he
      exact ⟨peer, door, now, List.mem_append_right _ hin'⟩
  case proved =>
    intro link' e' peer door now hin
    rcases List.mem_append.mp hin with hin | hin
    · obtain ⟨⟨sig, hv⟩, hd⟩ := K.proved _ _ _ _ _ hin
      exact ⟨⟨sig, List.mem_append_left _ hv⟩, hd⟩
    · obtain ⟨rfl, rfl, ⟨sig, hv⟩, hd⟩ := S.proved _ _ _ _ _ hin
      exact ⟨⟨sig, List.mem_append_right _ hv⟩, hd⟩
  case verified =>
    intro key message sig hin
    exact (List.mem_append.mp hin).elim (K.verified _ _ _) (S.verified _ _ _)
  case returned =>
    intro link' e' peer hin
    rcases List.mem_append.mp hin with hin | hin
    · obtain ⟨door, now, hp⟩ := K.returned _ _ _ hin
      exact ⟨door, now, List.mem_append_left _ hp⟩
    · obtain ⟨rfl, rfl, door, now, hp⟩ := S.returned _ _ _ hin
      exact ⟨door, now, List.mem_append_right _ hp⟩
  case welcomed =>
    intro link' hin
    rcases List.mem_append.mp hin with hin | hin
    · obtain ⟨⟨peer, door, now, hp⟩, hr⟩ := K.welcomed _ hin
      refine ⟨⟨peer, door, now, List.mem_append_left _ hp⟩, fun why hin' => ?_⟩
      rcases List.mem_append.mp hin' with hin' | hin'
      · exact hr why hin'
      · obtain ⟨rfl, hacc, -⟩ := S.refused _ _ _ hin'
        exact hopen.2 hacc.symm hin
    · obtain ⟨rfl, hacc, -, peer, door, now, hp⟩ := S.welcomed _ hin
      refine ⟨⟨peer, door, now, List.mem_append_right _ hp⟩, fun why hin' => ?_⟩
      rcases List.mem_append.mp hin' with hin' | hin'
      · exact hopen.1 why (hacc ▸ hin')
      · exact (S.refused _ _ _ hin').2.2.2 hin

theorem Kept.begin_ (K : Kept M t s) (seen : Seen (M.link link) e) (ok : Bool) (hnone : s.ends (link, e) = none) :
    Kept M (t ++ (s.begin_ M link e node seen ok).2) (s.begin_ M link e node seen ok).1 := by
  unfold State.begin_
  cases hc : linkChannel seen.remoteId seen.channelBinding ((M.link link).key e) e with
  | error why =>
    refine K.move ?_ (.inl ⟨hnone, by simp⟩)
    constructor <;> intros <;> simp_all
  | ok channel =>
    have hch := linkChannel_ok seen hc
    subst hch
    cases e with
    | acceptor =>
      refine K.move ?_ (.inl ⟨hnone, by simp⟩)
      constructor <;> intros <;> simp_all
    | dialer =>
      dsimp only
      cases ok with
      | true =>
        rw [if_pos rfl]
        refine K.move ?_ (.inl ⟨hnone, by simp⟩)
        constructor <;> intros <;> simp_all [signedOn]
      | false =>
        rw [if_neg (by simp)]
        refine K.move ?_ (.inl ⟨hnone, by simp⟩)
        constructor <;> intros <;> simp_all [signedOn]

/-- What an end takes for proof is the other end's signature on the link's own transcript. -/
theorem proves_ok {channel : Channel} {arrived : Arrived} {peer : Bytes32} {sig : Bytes}
    (h : State.proves C e channel arrived = .ok (peer, sig)) :
    C.verifyStrict peer (Domain.peerHello.tag ++ transcript e.other peer channel) sig = true := by
  cases arrived with
  | hello said =>
    simp only [State.proves] at h
    split_ifs at h with he
    subst he
    exact (verifyPeer_ok h).2
  | welcome said =>
    simp only [State.proves] at h
    split_ifs at h with he
    subst he
    exact (verifyPeer_ok h).2
  | _ => cases h

theorem bound_ok {door : Option Door} {peer endpoint : Bytes32} {now : ℤ} (h : bound door peer endpoint now = .ok ()) :
    ∀ d, door = some d → d.binds peer endpoint now = .ok () := by
  rintro d rfl
  unfold bound at h
  dsimp only at h
  cases hb : d.binds peer endpoint now with
  | error why =>
    rw [hb] at h
    cases h
  | ok u => rfl

theorem farKey_channel (k : Keys) (e : Side) : State.farKey k.channel e = k.key e.other := by cases e <;> rfl

theorem Kept.hear (K : Kept M t s) (arrived : Arrived) (door : Option Door) (now : ℤ) (ok : Bool) :
    Kept M (t ++ (s.hear M link e arrived door now ok).2) (s.hear M link e arrived door now ok).1 := by
  unfold State.hear
  split
  case h_1 node channel hw =>
    have hch : channel = (M.link link).channel := (K.ends link e node _ hw).2.channel channel rfl
    subst hch
    have hbefore : ∀ did : List (Happening ι), s.ends (link, e) = none ∧ .began link e node ∈ did ∨
        ∃ channel, s.ends (link, e) = some (node, .waiting channel) := fun _ => .inr ⟨_, hw⟩
    dsimp only
    cases hp : State.proves C e (M.link link).channel arrived with
    | error why =>
      refine K.move ?_ (hbefore _)
      constructor <;> intros <;> simp_all
    | ok p =>
      obtain ⟨peer, sig⟩ := p
      have hv := proves_ok hp
      dsimp only
      cases hb : bound door peer (State.farKey (M.link link).channel e) now with
      | error why =>
        refine K.move ?_ (hbefore _)
        constructor <;> intros <;> simp_all
      | ok u =>
        have hd := bound_ok hb
        rw [farKey_channel] at hd
        dsimp only
        cases e with
        | dialer =>
          refine K.move ?_ (hbefore _)
          constructor <;> intros <;> simp_all [signedOn]
        | acceptor =>
          dsimp only
          cases ok with
          | true =>
            rw [if_pos rfl]
            refine K.move ?_ (hbefore _)
            constructor <;> intros <;> simp_all [signedOn]
          | false =>
            rw [if_neg (by simp)]
            refine K.move ?_ (hbefore _)
            constructor <;> intros <;> simp_all [signedOn]
  case h_2 => simpa using K

theorem Kept.step (K : Kept M t s) (act : Act M) : Kept M (t ++ (s.step M act).2) (s.step M act).1 := by
  have hsame : Kept M (t ++ []) s := by simpa using K
  cases act with
  | begin_ link e node seen ok =>
    simp only [State.step]
    split_ifs with hnone
    · exact K.begin_ seen ok (Option.isNone_iff_eq_none.mp hnone)
    · exact hsame
  | hear link e arrived door now ok => exact K.hear arrived door now ok
  | late link e =>
    simp only [State.step]
    split
    case h_1 node channel hw =>
      refine K.move ?_ (.inr ⟨channel, hw⟩)
      constructor <;> intros <;> simp_all
    case h_2 => exact hsame
  | sign node domain message =>
    simp only [State.step]
    split_ifs with hd
    · exact hsame
    · exact K.sign node hd message

theorem kept_run (M : Mesh C ι) (acts : List (Act M)) : Kept M (runOf M acts).2 (runOf M acts).1 := by
  refine Histories.run_inv ?_ (fun _ _ act K => K.step act) acts
  constructor <;> simp

/-- HELLO proves the peer on this very link, or a signature was forged. Whatever any number
of nodes do on any number of links, in whatever order, and whatever arrives at any end:
a peer returned that holds an honest node's key is that node, running the other end of
this link, and an acceptor only once it has its own dialer's proof; the door, if one is
given, binds the peer to the far end's key; an acceptor answers only a HELLO that it has
not refused; and one node at most runs an end. -/
theorem hello_binds (M : Mesh C ι) (acts : List (Act M)) :
    let t := (runOf M acts).2
    (∀ link e node node', .began link e node ∈ t → .began link e node' ∈ t → node = node') ∧
      (∀ link e peer, .returned link e peer ∈ t → ∃ door now, .proved link e peer door now ∈ t) ∧
      (∀ link e peer door now, .proved link e peer door now ∈ t →
        (∃ sig, C.verifyStrict peer (signedOn M link e.other peer) sig = true) ∧
        (∀ d, door = some d → d.binds peer ((M.link link).key e.other) now = .ok ()) ∧
        ∀ node, (M.node node).nodeId = peer → Forged M t ∨ ∃ node', (M.node node').nodeId = peer ∧ .began link e.other node' ∈ t ∧
          (e.other = .acceptor → ∃ peer' door' now', .proved link .acceptor peer' door' now' ∈ t)) ∧
      ∀ link, .welcomed link ∈ t → (∃ peer door now, .proved link .acceptor peer door now ∈ t) ∧
        ∀ why, .refused link .acceptor why ∉ t := by
  have K := kept_run M acts
  dsimp only
  refine ⟨fun link e node node' h h' => ?_, K.returned, fun link e peer door now hp => ⟨?_, ?_, fun node hnode => ?_⟩, K.welcomed⟩
  · obtain ⟨stage, hs⟩ := K.began _ _ _ h
    obtain ⟨stage', hs'⟩ := K.began _ _ _ h'
    rw [hs] at hs'
    exact (Prod.mk.inj (Option.some.inj hs')).1
  · obtain ⟨⟨sig, hv⟩, -⟩ := K.proved _ _ _ _ _ hp
    exact ⟨sig, K.verified _ _ _ hv⟩
  · exact (K.proved _ _ _ _ _ hp).2
  · exact K.other_end hp hnode

/-! ### Two honest ends -/

/-- What a link that names its keys says at one end. -/
def shown (k : Keys) (e : Side) : Seen k e where
  remoteId := some (k.key e.other)
  channelBinding := some k.exported
  remote := by rintro _ ⟨⟩; rfl
  binding := by rintro _ ⟨⟩; rfl

variable (M) in
def helloSig (link : ι) (role : Side) (node : ℕ) : Bytes :=
  C.sign (M.node node).seed (signedOn M link role (M.node node).nodeId)

variable (M) in
/-- What an honest node sends as `role`. -/
def greeting (link : ι) (role : Side) (node : ℕ) : Greeting where
  nodeId := (M.node node).nodeId
  protocol := protocol
  sig := some (helloSig M link role node)

variable (M) in
/-- Two nodes' HELLO on a link that carries every frame. -/
def shake (link : ι) (dialer acceptor : ℕ) : List (Act M) :=
  [.begin_ link .dialer dialer (shown _ _) true,
   .begin_ link .acceptor acceptor (shown _ _) true,
   .hear link .acceptor (.hello (greeting M link .dialer dialer)) none 0 true,
   .hear link .dialer (.welcome (greeting M link .acceptor acceptor)) none 0 true]

theorem linkChannel_shown (k : Keys) (e : Side) :
    linkChannel (shown k e).remoteId (shown k e).channelBinding (k.key e) e = .ok k.channel := by
  simp only [linkChannel, shown, dif_pos (k.key e.other).2]
  cases e with
  | dialer => rfl
  | acceptor => rfl

omit [DecidableEq ι] in
theorem verifyPeer_greeting (link : ι) (role : Side) (node : ℕ) :
    verifyPeer C (greeting M link role node) role (M.link link).channel =
      .ok ((M.node node).nodeId, helloSig M link role node) := by
  have hverifies := C.verifyStrict_sign (M.node node).seed (signedOn M link role (M.node node).nodeId)
  unfold verifyPeer greeting
  rw [dif_pos (M.node node).nodeId.2, if_neg (not_not.mpr rfl)]
  exact if_pos hverifies

/-- Each of two honest ends has the other, by what the other has signed. -/
theorem run_shake (link : ι) (dialer acceptor : ℕ) : (runOf M (shake M link dialer acceptor)).2 =
    [.began link .dialer dialer, .signed dialer (signedOn M link .dialer (M.node dialer).nodeId),
     .began link .acceptor acceptor,
     .verified (M.node dialer).nodeId (signedOn M link .dialer (M.node dialer).nodeId) (helloSig M link .dialer dialer),
     .proved link .acceptor (M.node dialer).nodeId none 0,
     .signed acceptor (signedOn M link .acceptor (M.node acceptor).nodeId), .welcomed link,
     .returned link .acceptor (M.node dialer).nodeId,
     .verified (M.node acceptor).nodeId (signedOn M link .acceptor (M.node acceptor).nodeId) (helloSig M link .acceptor acceptor),
     .proved link .dialer (M.node acceptor).nodeId none 0, .returned link .dialer (M.node acceptor).nodeId] := by
  have hdialer := verifyPeer_greeting (M := M) link .dialer dialer
  have hacceptor := verifyPeer_greeting (M := M) link .acceptor acceptor
  simp [runOf, shake, Histories.run, State.step, State.begin_, State.hear, State.set, State.proves, linkChannel_shown,
    hdialer, hacceptor, bound, signedOn, Side.other]

/-- No signature was taken that was not made. -/
theorem not_forged_shake (link : ι) (dialer acceptor : ℕ) : ¬ Forged M (runOf M (shake M link dialer acceptor)).2 := by
  rw [run_shake]
  rintro ⟨node, message, sig, hv, hnone⟩
  simp only [List.mem_cons, reduceCtorEq, Happening.verified.injEq, false_or, List.not_mem_nil, or_false] at hv
  rcases hv with ⟨hkey, rfl, -⟩ | ⟨hkey, rfl, -⟩
  · exact hnone dialer hkey.symm (by simp)
  · exact hnone acceptor hkey.symm (by simp)

end Mesh

/-- Nodes and two links. -/
def pair : Mesh .plain Bool where
  node n := { seed := filled (UInt8.ofNat n) }
  link l := {
    key := fun e => match e with
      | .dialer => filled 2
      | .acceptor => filled 3
    exported := filled (if l then 4 else 5) }
  distinct := by decide

theorem hello_binds_pair :
    let t := (runOf pair (shake pair true 0 1)).2
    .returned true .dialer (pair.node 1).nodeId ∈ t ∧ ∃ node, (pair.node node).nodeId = (pair.node 1).nodeId ∧
      .began true .acceptor node ∈ t ∧ ∃ peer door now, .proved true .acceptor peer door now ∈ t := by
  dsimp only
  have hreturned : .returned true .dialer (pair.node 1).nodeId ∈ (runOf pair (shake pair true 0 1)).2 := by
    rw [run_shake]
    simp
  obtain ⟨-, hreturns, hproves, -⟩ := hello_binds pair (shake pair true 0 1)
  obtain ⟨door, now, hproved⟩ := hreturns _ _ _ hreturned
  obtain ⟨-, -, hends⟩ := hproves _ _ _ _ _ hproved
  rcases hends 1 rfl with hforged | ⟨node, hid, hbegan, hdialer⟩
  · exact absurd hforged (not_forged_shake true 0 1)
  · exact ⟨hreturned, node, hid, hbegan, hdialer rfl⟩

end Glade.Node.Hello
