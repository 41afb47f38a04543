import Glade.Node.Chunks
import Glade.Node.Steps

/-! What a run's history says of its sessions and of the fold in force, and what the
node's tables and its tasks' scripts keep of it: whom a session reads for never
changes, and a task acts only for sessions of its own. -/

namespace Glade.Node.Serving

open Wire Store Grants

variable {C : Crypto}

/-! ### What a history says -/

def policyAfter (view : PolicyView) : Happening → PolicyView
  | .replaced generation fold => { generation, fold }
  | _ => view

/-- The view the serve paths check, after a history. -/
def inForce (t : List Happening) : PolicyView := t.foldl policyAfter { generation := 0, fold := none }

/-- Whom a happening says a session reads and writes for. -/
def namesHolder (sid : SessionId) : Happening → Option Holder
  | .opened sid' (.forward _ node) => if sid' = sid then some (.node node) else none
  | .bound sid' principal => if sid' = sid then some (.principal principal) else none
  | _ => none

/-- Whom a session reads and writes for: the node whose forward it is, or the
principal its Hello named. -/
def holderOf (t : List Happening) (sid : SessionId) : Option Holder := t.findSome? (namesHolder sid)

/-- No session names a principal twice. -/
def NamesOnce (t : List Happening) : Prop :=
  Histories.Each (fun before x => ∀ sid principal, x = .bound sid principal → ∀ p, .bound sid p ∉ before) t

theorem NamesOnce.eq {t : List Happening} (h : NamesOnce t) {sid : SessionId} {p p' : String} (hp : .bound sid p ∈ t)
    (hp' : .bound sid p' ∈ t) : p = p' := by
  obtain ⟨before, after, rfl⟩ := List.append_of_mem hp
  rcases List.mem_append.mp hp' with hbefore | hrest
  · exact absurd hbefore (h before _ after rfl sid p rfl p')
  rcases List.mem_cons.mp hrest with heq | hafter
  · exact (Happening.bound.inj heq).2.symm
  · obtain ⟨mid, later, rfl⟩ := List.append_of_mem hafter
    exact absurd (by simp) (h (before ++ .bound sid p :: mid) _ later (by simp) sid p' rfl p)

theorem inForce_append (t more : List Happening) : inForce (t ++ more) = more.foldl policyAfter (inForce t) :=
  List.foldl_append

theorem inForce_quiet {t more : List Happening} (h : ∀ x ∈ more, ∀ generation fold, x ≠ .replaced generation fold) :
    inForce (t ++ more) = inForce t := by
  rw [inForce_append]
  induction more using List.reverseRecOn with
  | nil => rfl
  | append_singleton more x ih =>
    rw [List.foldl_concat, ih fun y hy => h y (List.mem_append_left _ hy)]
    cases x with
    | replaced generation fold => exact absurd rfl (h _ (by simp) generation fold)
    | _ => rfl

/-- Whom a session reads for is settled for good. -/
theorem holderOf_append {t : List Happening} {sid : SessionId} {holder : Holder} (more : List Happening)
    (h : holderOf t sid = some holder) : holderOf (t ++ more) sid = some holder := by
  unfold holderOf at h ⊢
  rw [List.findSome?_append, h]
  rfl

/-! ### What a task's jobs are -/

/-- What a task may have to do under the cut: what concerns a session, for its own; a
pass, as a refresh; and a lapse, as the forward that ends. -/
def Inner.Fits (t : List Happening) (w : Worker) : Inner → Prop
  | .admitClient sid _ _ _ => w = .session sid ∧ .opened sid .client ∈ t
  | .admitPeer sid zone _ node _ => w = .session sid ∧ .opened sid (.forward zone node) ∈ t
  | .enter sid => w = .session sid ∧ ∃ zone node, .opened sid (.forward zone node) ∈ t
  | .register sid zone | .ackGap sid zone _ _ =>
    w = .session sid ∧ (.opened sid .client ∈ t ∨ ∃ node, .opened sid (.forward zone node) ∈ t)
  | .admitted sid node => w = .session sid ∧ ∃ zone, .opened sid (.forward zone node) ∈ t
  | .readAdmitted generation | .unsubscribe _ _ (some generation) =>
    (∃ id, w = .other id) ∧ ∃ fold, .replaced generation fold ∈ t
  | .readEntries generation peers | .recheck generation peers _ _ =>
    ((∃ id, w = .other id) ∧ ∃ fold, .replaced generation fold ∈ t) ∧
      ∀ sid node, peers[sid]? = some node → ∃ zone, .opened sid (.forward zone node) ∈ t
  | .lapse _ _ _ | .tellLapsed _ _ _ | .unsubscribe _ _ none => ∃ id, w = .forward id
  | _ => True

/-- What a task takes the cut for. -/
def Inner.Begins : Inner → Prop
  | .place _ _ _ | .ingest _ _ | .admitClient _ _ _ _ | .admitPeer _ _ _ _ _ | .readAdmitted _ | .lapse _ _ _ => True
  | _ => False

def Job.Fits (t : List Happening) (w : Worker) : Job → Prop
  | .cut inner => ∃ job, inner = [job] ∧ job.Begins ∧ job.Fits t w
  | .send sid frame => w = .session sid ∧ ∀ ops, frame ≠ .ops ops
  | .bind sid _ | .subscribe sid _ _ => w = .session sid ∧ .opened sid .client ∈ t
  | .accept sid source _ _ => w = .session sid ∧ .opened sid source ∈ t
  | .replace _ => ∃ id, w = .other id
  | .shut sid | .unsubscribeAll sid | .dropAdmitted sid | .forget sid => w = .session sid ∧ ∃ source, .opened sid source ∈ t
  | _ => True

theorem Inner.Fits.append {t : List Happening} {w : Worker} {job : Inner} (more : List Happening) (h : job.Fits t w) :
    job.Fits (t ++ more) w := by
  have hmem : ∀ {x}, x ∈ t → x ∈ t ++ more := fun hx => List.mem_append_left _ hx
  cases job with
  | admitClient | admitPeer => exact ⟨h.1, hmem h.2⟩
  | enter => exact ⟨h.1, h.2.imp fun _ => .imp fun _ => hmem⟩
  | register | ackGap => exact ⟨h.1, h.2.imp hmem fun hx => hx.imp fun _ => hmem⟩
  | admitted => exact ⟨h.1, h.2.imp fun _ => hmem⟩
  | readAdmitted => exact ⟨h.1, h.2.imp fun _ => hmem⟩
  | readEntries | recheck =>
    exact ⟨⟨h.1.1, h.1.2.imp fun _ => hmem⟩, fun sid node hpeer => (h.2 sid node hpeer).imp fun _ => hmem⟩
  | unsubscribe sid zone pass =>
    cases pass with
    | none => exact h
    | some generation => exact And.imp_right (Exists.imp fun _ => hmem) h
  | lapse | tellLapsed => exact h
  | _ => trivial

theorem Job.Fits.append {t : List Happening} {w : Worker} {job : Job} (more : List Happening) (h : job.Fits t w) :
    job.Fits (t ++ more) w := by
  have hmem : ∀ {x}, x ∈ t → x ∈ t ++ more := fun hx => List.mem_append_left _ hx
  cases job with
  | cut inner =>
    obtain ⟨job, rfl, hbegins, hfits⟩ := h
    exact ⟨job, rfl, hbegins, hfits.append more⟩
  | bind | subscribe | accept => exact ⟨h.1, hmem h.2⟩
  | send | replace => exact h
  | shut | unsubscribeAll | dropAdmitted | forget => exact ⟨h.1, h.2.imp fun _ => hmem⟩
  | _ => trivial

/-! ### What every run keeps -/

/-- What the tables and the scripts keep of a history. -/
structure Kept (t : List Happening) (s : Shared C) : Prop where
  store : Inv C s.store.logs s.store.register
  policy : s.policy = inForce t
  next : ∀ sid source, .opened sid source ∈ t → sid < s.next
  opened : ∀ sid a b, .opened sid a ∈ t → .opened sid b ∈ t → a = b
  bound : ∀ sid p, .bound sid p ∈ t → .opened sid .client ∈ t
  replaced : ∀ generation fold, .replaced generation fold ∈ t → generation ≤ s.policy.generation
  loops : ∀ sid source, s.loops[sid]? = some source → .opened sid source ∈ t
  admitted : ∀ sid node, s.admitted[sid]? = some node → ∃ zone, .opened sid (.forward zone node) ∈ t
  principals : ∀ sid p, s.principals[sid]? = some p → .bound sid p ∈ t
  scripts : ∀ w, ∀ job ∈ s.scripts w, job.Fits t w
  cut : ∀ w inner, s.cut = some (w, inner) → ∀ job ∈ inner, job.Fits t w

namespace Kept

/-- A peer's session reads for the node its forward is of. -/
theorem holderOf_forward {t : List Happening} {s : Shared C} (K : Kept t s) {sid : SessionId} {zone : Zone} {node : Bytes32}
    (h : .opened sid (.forward zone node) ∈ t) : holderOf t sid = some (.node node) := by
  unfold holderOf
  cases hfind : t.findSome? (namesHolder sid) with
  | none =>
    have := List.findSome?_eq_none_iff.mp hfind _ h
    simp [namesHolder] at this
  | some holder =>
    obtain ⟨x, hx, hnames⟩ := List.exists_of_findSome?_eq_some hfind
    cases x with
    | opened sid' source =>
      cases source with
      | client => simp [namesHolder] at hnames
      | forward zone' node' =>
        simp only [namesHolder] at hnames
        split_ifs at hnames with hsid
        subst hsid
        cases K.opened _ _ _ hx h
        exact hnames.symm
    | bound sid' p =>
      simp only [namesHolder] at hnames
      split_ifs at hnames with hsid
      subst hsid
      cases K.opened _ _ _ (K.bound _ _ hx) h
    | _ => simp [namesHolder] at hnames

/-- A session that names its principal reads for it. -/
theorem holderOf_bound {t : List Happening} {s : Shared C} (K : Kept t s) (hnames : NamesOnce t) {sid : SessionId} {p : String}
    (h : .bound sid p ∈ t) : holderOf t sid = some (.principal p) := by
  unfold holderOf
  cases hfind : t.findSome? (namesHolder sid) with
  | none =>
    have := List.findSome?_eq_none_iff.mp hfind _ h
    simp [namesHolder] at this
  | some holder =>
    obtain ⟨x, hx, hname⟩ := List.exists_of_findSome?_eq_some hfind
    cases x with
    | opened sid' source =>
      cases source with
      | client => simp [namesHolder] at hname
      | forward zone node =>
        simp only [namesHolder] at hname
        split_ifs at hname with hsid
        subst hsid
        cases K.opened _ _ _ (K.bound _ _ h) hx
    | bound sid' p' =>
      simp only [namesHolder] at hname
      split_ifs at hname with hsid
      subst hsid
      have : p' = p := hnames.eq hx h
      subst this
      exact hname.symm
    | _ => simp [namesHolder] at hname

end Kept

/-! ### What a step keeps -/

/-- A happening that neither opens a session, names a principal nor replaces the fold. -/
def Happening.Plain : Happening → Prop
  | .opened _ _ | .bound _ _ | .replaced _ _ => False
  | _ => True

theorem inForce_plain {t did : List Happening} (h : ∀ x ∈ did, x.Plain) : inForce (t ++ did) = inForce t :=
  inForce_quiet fun x hx generation fold heq => by
    subst heq
    exact h _ hx

theorem opened_of_plain {t did : List Happening} (h : ∀ x ∈ did, x.Plain) {sid : SessionId} {source : Source}
    (hx : .opened sid source ∈ t ++ did) : .opened sid source ∈ t :=
  (List.mem_append.mp hx).resolve_right fun hx => h _ hx

theorem bound_of_plain {t did : List Happening} (h : ∀ x ∈ did, x.Plain) {sid : SessionId} {p : String}
    (hx : .bound sid p ∈ t ++ did) : .bound sid p ∈ t :=
  (List.mem_append.mp hx).resolve_right fun hx => h _ hx

/-- A step of plain happenings keeps what the tables and the scripts it leaves keep. -/
theorem Kept.plain {t did : List Happening} {s s' : Shared C} (K : Kept t s) (hdid : ∀ x ∈ did, x.Plain)
    (hstore : Inv C s'.store.logs s'.store.register) (hpolicy : s'.policy = s.policy) (hnext : s.next ≤ s'.next)
    (hloops : ∀ (sid : SessionId) (source : Source), s'.loops[sid]? = some source → s.loops[sid]? = some source)
    (hadmitted : ∀ (sid : SessionId) (node : Bytes32), s'.admitted[sid]? = some node →
      s.admitted[sid]? = some node ∨ ∃ zone, .opened sid (.forward zone node) ∈ t)
    (hprincipals : ∀ (sid : SessionId) (p : String), s'.principals[sid]? = some p → s.principals[sid]? = some p)
    (hscripts : ∀ w, ∀ job ∈ s'.scripts w, job ∈ s.scripts w ∨ job.Fits (t ++ did) w)
    (hcut : ∀ w inner, s'.cut = some (w, inner) → ∀ job ∈ inner, job.Fits t w) : Kept (t ++ did) s' where
  store := hstore
  policy := by rw [hpolicy, K.policy, inForce_plain hdid]
  next sid source hx := lt_of_lt_of_le (K.next sid source (opened_of_plain hdid hx)) hnext
  opened sid a b ha hb := K.opened sid a b (opened_of_plain hdid ha) (opened_of_plain hdid hb)
  bound sid p hx := List.mem_append_left _ (K.bound sid p (bound_of_plain hdid hx))
  replaced generation fold hx := by
    rw [hpolicy]
    exact K.replaced generation fold ((List.mem_append.mp hx).resolve_right fun hx => hdid _ hx)
  loops sid source hx := List.mem_append_left _ (K.loops sid source (hloops sid source hx))
  admitted sid node hx := ((hadmitted sid node hx).elim (K.admitted sid node) id).imp fun _ => List.mem_append_left _
  principals sid p hx := List.mem_append_left _ (K.principals sid p (hprincipals sid p hx))
  scripts w job hjob := (hscripts w job hjob).elim (fun hold => (K.scripts w job hold).append did) id
  cut w inner hheld job hjob := (hcut w inner hheld job hjob).append did

namespace Shared

/-- A job under the cut opens no session, names no principal and replaces no fold. -/
theorem doInner_plain (s : Shared C) (w : Worker) (env : Env) (job : Inner) : ∀ x ∈ (s.doInner w env job).2.2, x.Plain := by
  intro x hx
  have h := s.doInner_did w env job
  generalize (s.doInner w env job).2.2 = did at h hx
  cases h with
  | nothing => cases hx
  | _ =>
    rw [List.mem_singleton.mp hx]
    trivial

theorem doInner_store (s : Shared C) (w : Worker) (env : Env) (job : Inner) (hplace : ∀ origin op relay,
    job ≠ .place origin op relay)
    (hingest : ∀ from_ op, job ≠ .ingest from_ op) : (s.doInner w env job).1.store = s.store := by
  cases job with
  | place origin op relay => exact absurd rfl (hplace origin op relay)
  | ingest from_ op => exact absurd rfl (hingest from_ op)
  | admitClient sid zone their forward => simp only [doInner]; split <;> rfl
  | admitPeer sid zone their node chunk => simp only [doInner]; split <;> rfl
  | recheck generation peers todo refused =>
    cases todo with
    | nil => rfl
    | cons e todo =>
      simp only [doInner]
      split_ifs
      · rfl
      · split <;> rfl
  | lapse id code why => simp only [doInner]; split <;> rfl
  | dropAdmitted sid => simp only [doInner]; split_ifs <;> rfl
  | _ => rfl

/-- Which jobs under the cut change the router, the session table and the peer streams served. -/
structure InnerKeeps (s s' : Shared C) (job : Inner) : Prop where
  router : (∀ sid zone, job ≠ .register sid zone) → (∀ sid zone pass, job ≠ .unsubscribe sid zone pass) → s'.router = s.router
  out : (∀ sid, job ≠ .enter sid) → (∀ sid, job ≠ .shut sid) → s'.out = s.out
  admitted : (∀ sid node, job ≠ .admitted sid node) → (∀ sid, job ≠ .dropAdmitted sid) → s'.admitted = s.admitted

theorem doInner_keeps (s : Shared C) (w : Worker) (env : Env) (job : Inner) : InnerKeeps s (s.doInner w env job).1 job := by
  have hsame : ∀ {s' : Shared C}, s'.router = s.router → s'.out = s.out → s'.admitted = s.admitted → InnerKeeps s s' job :=
    fun hrouter hout hadmitted => ⟨fun _ _ => hrouter, fun _ _ => hout, fun _ _ => hadmitted⟩
  cases job with
  | register sid zone => exact ⟨fun h _ => absurd rfl (h sid zone), fun _ _ => rfl, fun _ _ => rfl⟩
  | unsubscribe sid zone pass => exact ⟨fun _ h => absurd rfl (h sid zone pass), fun _ _ => rfl, fun _ _ => rfl⟩
  | enter sid => exact ⟨fun _ _ => rfl, fun h _ => absurd rfl (h sid), fun _ _ => rfl⟩
  | shut sid => exact ⟨fun _ _ => rfl, fun _ h => absurd rfl (h sid), fun _ _ => rfl⟩
  | admitted sid node => exact ⟨fun _ _ => rfl, fun _ _ => rfl, fun h _ => absurd rfl (h sid node)⟩
  | dropAdmitted sid =>
    unfold doInner
    dsimp only
    split
    · exact ⟨fun _ _ => rfl, fun _ _ => rfl, fun _ h => absurd rfl (h sid)⟩
    · exact hsame rfl rfl rfl
  | place origin op relay =>
    unfold doInner
    dsimp only
    split <;> exact hsame rfl rfl rfl
  | ingest from_ op =>
    unfold doInner
    dsimp only
    split <;> exact hsame rfl rfl rfl
  | admitClient sid zone their forward =>
    unfold doInner
    dsimp only
    split <;> exact hsame rfl rfl rfl
  | admitPeer sid zone their node chunk =>
    unfold doInner
    dsimp only
    split <;> exact hsame rfl rfl rfl
  | recheck generation peers todo refused =>
    cases todo with
    | nil => exact hsame rfl rfl rfl
    | cons e todo =>
      unfold doInner
      dsimp only
      split
      · exact hsame rfl rfl rfl
      · split <;> exact hsame rfl rfl rfl
  | lapse id code why =>
    unfold doInner
    dsimp only
    split <;> exact hsame rfl rfl rfl
  | _ => exact hsame rfl rfl rfl

/-- A job under the cut opens no session, lets no task read on, and enters a peer
stream only as its own. -/
theorem doInner_tables (s : Shared C) (w : Worker) (env : Env) (job : Inner) :
    (s.doInner w env job).1.next = s.next ∧
      (∀ (sid : SessionId) (source : Source), (s.doInner w env job).1.loops[sid]? = some source → s.loops[sid]? = some source) ∧
      ∀ (sid : SessionId) (node : Bytes32), (s.doInner w env job).1.admitted[sid]? = some node →
        s.admitted[sid]? = some node ∨ job = .admitted sid node := by
  have hsame : s.next = s.next ∧ (∀ (sid : SessionId) (source : Source), s.loops[sid]? = some source →
    s.loops[sid]? = some source) ∧
      ∀ (sid : SessionId) (node : Bytes32), s.admitted[sid]? = some node → s.admitted[sid]? = some node ∨
        job = .admitted sid node :=
    ⟨rfl, fun _ _ => id, fun _ _ => .inl⟩
  cases job with
  | place origin op relay => simp only [doInner]; split <;> exact hsame
  | ingest from_ op => simp only [doInner]; split <;> exact hsame
  | admitClient sid zone their forward => simp only [doInner]; split <;> exact hsame
  | admitPeer sid zone their node chunk =>
    simp only [doInner]
    split
    · refine ⟨rfl, fun sid' source hloop => ?_, fun _ _ => .inl⟩
      rw [Std.ExtTreeMap.getElem?_erase] at hloop
      split_ifs at hloop
      exact hloop
    · exact hsame
  | admitted sid node =>
    refine ⟨rfl, fun _ _ => id, fun sid' node' hnode => ?_⟩
    simp only [doInner, Std.ExtTreeMap.getElem?_insert, Std.LawfulEqOrd.compare_eq_iff_eq] at hnode
    split_ifs at hnode with hsid
    · exact .inr (by rw [hsid, Option.some.inj hnode])
    · exact .inl hnode
  | recheck generation peers todo refused =>
    cases todo with
    | nil => exact hsame
    | cons e todo =>
      simp only [doInner]
      split_ifs
      · exact ⟨rfl, fun _ _ => id, fun _ _ => .inl⟩
      · split <;> exact ⟨rfl, fun _ _ => id, fun _ _ => .inl⟩
  | lapse id code why => simp only [doInner]; split <;> exact hsame
  | dropAdmitted sid =>
    simp only [doInner]
    split_ifs
    · refine ⟨rfl, fun _ _ => id, fun sid' node hnode => ?_⟩
      rw [Std.ExtTreeMap.getElem?_erase] at hnode
      split_ifs at hnode
      exact .inl hnode
    · exact ⟨rfl, fun _ _ => id, fun _ _ => .inl⟩
  | _ => exact hsame

theorem doInner_subscribers (s : Shared C) (w : Worker) (env : Env) (job : Inner) {sid : SessionId} {zone : Zone}
    (h : sid ∈ (s.doInner w env job).1.subscribers zone) : sid ∈ s.subscribers zone ∨ job = .register sid zone := by
  by_cases hregister : ∃ sid' zone', job = .register sid' zone'
  · obtain ⟨sid', zone', rfl⟩ := hregister
    simp only [doInner, subscribers_insert] at h
    split_ifs at h with hzone
    · subst hzone
      rcases Finset.mem_insert.mp h with rfl | h
      · exact .inr rfl
      · exact .inl h
    · exact .inl h
  by_cases hunsubscribe : ∃ sid' zone' pass, job = .unsubscribe sid' zone' pass
  · obtain ⟨sid', zone', pass, rfl⟩ := hunsubscribe
    simp only [doInner, subscribers_unsubscribe] at h
    split_ifs at h with hzone
    · subst hzone
      exact .inl (Finset.mem_of_mem_erase h)
    · exact .inl h
  · rw [subscribers, (s.doInner_keeps w env job).router (fun sid zone heq => hregister ⟨sid, zone, heq⟩)
      fun sid zone pass heq => hunsubscribe ⟨sid, zone, pass, heq⟩] at h
    exact .inl h

/-- The jobs a job under the cut leaves its task for after the cut. -/
theorem doInner_scripts (s : Shared C) (w w' : Worker) (env : Env) (inner : Inner) {job : Job}
    (hjob : job ∈ (s.doInner w env inner).1.scripts w') :
    job ∈ s.scripts w' ∨ w' = w ∧ ((∃ to_ op status, job = .answer to_ op status) ∨
      (∃ zone holder, job = .forwardInterest zone holder) ∨
        ∃ sid frame zone their forward, inner = .admitClient sid zone their forward ∧
          (∀ ops, frame ≠ .ops ops) ∧ job = .send sid frame) := by
  by_cases hw : w' = w
  case neg => exact .inl (by rwa [(doInner_frame s w env inner).scripts w' hw] at hjob)
  subst hw
  have hfirst : ∀ {s' : Shared C} {jobs : List Job}, s'.scripts = s.scripts → job ∈ (s'.doFirst w' jobs).scripts w' →
      job ∈ s.scripts w' ∨ job ∈ jobs := by
    intro s' jobs hs hmem
    simp only [doFirst, Function.update_self, List.mem_append, hs] at hmem
    exact hmem.symm
  cases inner with
  | place origin op relay =>
    have : job ∈ s.scripts w' ∨ job ∈ [Job.answer origin op
      (relayed (statusOf C env.os op (append C s.store s.disk op env.fault).1) relay)] := by
      simp only [doInner] at hjob
      split at hjob <;> exact hfirst rfl hjob
    exact this.imp_right fun h => ⟨rfl, .inl ⟨_, _, _, List.mem_singleton.mp h⟩⟩
  | admitClient sid zone their forward =>
    simp only [doInner] at hjob
    split at hjob
    · refine (hfirst rfl hjob).imp_right fun h => ⟨rfl, .inr (.inr ?_)⟩
      obtain ⟨frame, hframe, rfl⟩ := List.mem_map.mp h
      refine ⟨sid, frame, zone, their, forward, rfl, fun ops heq => ?_, rfl⟩
      subst heq
      simp [refusedSubscribe, refusalFrame] at hframe
    · refine (hfirst rfl hjob).imp_right fun h => ⟨rfl, .inr (.inl ?_)⟩
      obtain ⟨holder, -, rfl⟩ := List.mem_map.mp h
      exact ⟨zone, holder, rfl⟩
  | ingest from_ op =>
    simp only [doInner] at hjob
    split at hjob <;> exact .inl hjob
  | admitPeer sid zone their node chunk =>
    simp only [doInner] at hjob
    split at hjob <;> exact .inl hjob
  | recheck generation peers todo refused =>
    cases todo with
    | nil => exact .inl hjob
    | cons e todo =>
      simp only [doInner] at hjob
      split_ifs at hjob
      · exact .inl hjob
      · split at hjob <;> exact .inl hjob
  | lapse id code why =>
    simp only [doInner] at hjob
    split at hjob <;> exact .inl hjob
  | dropAdmitted sid =>
    simp only [doInner] at hjob
    split_ifs at hjob <;> exact .inl hjob
  | _ => exact .inl hjob

end Shared

/-- What a job under the cut leads to fits as it does. -/
theorem Kept.more_fits {t : List Happening} {s : Shared C} (K : Kept t s) {w : Worker} (env : Env) {job : Inner}
    (hfits : job.Fits t w) : ∀ job' ∈ (s.doInner w env job).2.1, job'.Fits t w := by
  intro job' hjob'
  cases job with
  | place origin op relay =>
    simp only [Shared.doInner] at hjob'
    split at hjob' <;> simp at hjob'
    subst hjob'
    trivial
  | ingest from_ op =>
    simp only [Shared.doInner] at hjob'
    split at hjob' <;> simp at hjob'
    subst hjob'
    trivial
  | fanOut from_ op =>
    obtain ⟨sid, -, rfl⟩ := List.mem_map.mp hjob'
    trivial
  | admitClient sid zone their forward =>
    simp only [Shared.doInner] at hjob'
    split at hjob' <;> simp at hjob'
    rcases hjob' with rfl | rfl <;> exact ⟨hfits.1, .inl hfits.2⟩
  | admitPeer sid zone their node chunk =>
    simp only [Shared.doInner] at hjob'
    split at hjob' <;> simp at hjob'
    obtain ⟨hw, hopened⟩ := hfits
    rcases hjob' with rfl | rfl | rfl | rfl
    · exact ⟨hw, zone, node, hopened⟩
    · exact ⟨hw, .inr ⟨node, hopened⟩⟩
    · exact ⟨hw, zone, hopened⟩
    · exact ⟨hw, .inr ⟨node, hopened⟩⟩
  | ackGap sid zone their chunk =>
    simp only [Shared.doInner, List.mem_cons, List.mem_map] at hjob'
    rcases hjob' with rfl | ⟨ops, -, rfl⟩ <;> trivial
  | readAdmitted generation =>
    rw [List.mem_singleton.mp hjob']
    exact ⟨hfits, K.admitted⟩
  | readEntries generation peers =>
    rw [List.mem_singleton.mp hjob']
    exact hfits
  | recheck generation peers todo refused =>
    cases todo with
    | nil =>
      simp only [Shared.doInner, Shared.refuse, List.mem_flatMap] at hjob'
      obtain ⟨r, -, hjob'⟩ := hjob'
      simp at hjob'
      rcases hjob' with rfl | rfl | rfl
      · exact hfits.1
      all_goals trivial
    | cons e todo =>
      simp only [Shared.doInner] at hjob'
      split_ifs at hjob'
      · rw [List.mem_singleton.mp hjob']
        exact hfits
      · split at hjob' <;> rw [List.mem_singleton.mp hjob'] <;> exact hfits
  | lapse id code why =>
    simp only [Shared.doInner] at hjob'
    split at hjob' <;> simp at hjob'
    subst hjob'
    exact hfits
  | tellLapsed zone code why =>
    simp only [Shared.doInner, Shared.refuse, List.mem_flatMap] at hjob'
    obtain ⟨e, -, hjob'⟩ := hjob'
    simp at hjob'
    rcases hjob' with rfl | rfl | rfl
    · exact hfits
    all_goals trivial
  | dropAdmitted sid =>
    simp only [Shared.doInner] at hjob'
    split_ifs at hjob' <;> simp at hjob'
    subst hjob'
    trivial
  | _ => simp [Shared.doInner] at hjob'

/-- A job under the cut keeps them. -/
theorem Kept.inner {t : List Happening} {s : Shared C} (K : Kept t s) {w : Worker} (env : Env) {job : Inner} {rest : List Inner}
    (hheld : s.cut = some (w, job :: rest)) :
    Kept (t ++ (s.doInner w env job).2.2)
      ((s.doInner w env job).1.setCut (some (w, (s.doInner w env job).2.1 ++ rest))) := by
  have hfits := K.cut w _ hheld job List.mem_cons_self
  have F := s.doInner_frame w env job
  have hcut : ∀ job' ∈ (s.doInner w env job).2.1 ++ rest, job'.Fits t w := by
    intro job' hjob'
    rcases List.mem_append.mp hjob' with hmore | hrest
    · exact K.more_fits env hfits job' hmore
    · exact K.cut w _ hheld job' (List.mem_cons_of_mem _ hrest)
  have hstore : Inv C (s.doInner w env job).1.store.logs (s.doInner w env job).1.store.register := by
    cases job with
    | place origin op relay =>
      simp only [Shared.doInner]
      split <;> exact (append_change s.store s.disk op env.fault).inv K.store
    | ingest from_ op =>
      simp only [Shared.doInner]
      split <;> exact (append_change s.store s.disk op env.fault).inv K.store
    | _ => rw [s.doInner_store w env _ (by simp) (by simp)]; exact K.store
  obtain ⟨hnext, hloops, hadmitted⟩ := s.doInner_tables w env job
  refine K.plain (s.doInner_plain w env job) hstore F.policy hnext.ge hloops ?_ ?_ ?_ ?_
  · intro sid node hnode
    rcases hadmitted sid node hnode with hold | rfl
    · exact .inl hold
    · exact .inr hfits.2
  · intro sid p hp
    rwa [← F.principals]
  · intro w' job' hjob'
    rcases s.doInner_scripts w w' env job hjob' with
      hold | ⟨rfl, ⟨_, _, _, rfl⟩ | ⟨_, _, rfl⟩ | ⟨_, _, _, _, _, rfl, hframe, rfl⟩⟩
    · exact .inl hold
    · exact .inr trivial
    · exact .inr trivial
    · exact .inr ⟨hfits.1, hframe⟩
  · intro w' inner hinner job' hjob'
    obtain ⟨rfl, rfl⟩ := Prod.mk.inj (Option.some.inj hinner)
    exact hcut job' hjob'

namespace Shared

/-- What a job without the cut does, but for what names a principal or replaces the fold. -/
theorem doJob_plain (s : Shared C) (w : Worker) (env : Env) {job : Job} (hbind : ∀ sid p, job ≠ .bind sid p)
    (hreplace : ∀ fold, job ≠ .replace fold) : ∀ x ∈ (s.doJob w env job).2.2, x.Plain := by
  intro x hx
  have h := s.doJob_did w env job
  generalize (s.doJob w env job).2.2 = did at h hx
  cases h with
  | nothing => cases hx
  | bound sid principal => exact absurd rfl (hbind sid principal)
  | replaced fold => exact absurd rfl (hreplace fold)
  | left sid =>
    obtain ⟨zone, -, rfl⟩ := List.mem_map.mp hx
    trivial
  | _ =>
    rw [List.mem_singleton.mp hx]
    trivial

/-- Which jobs without the cut change the router, the session table, the peer streams
served and the principals. -/
structure JobKeeps (s s' : Shared C) (job : Job) : Prop where
  router : (∀ sid, job ≠ .unsubscribeAll sid) → s'.router = s.router
  out : (∀ sid, job ≠ .shut sid) → s'.out = s.out
  admitted : (∀ sid, job ≠ .dropAdmitted sid) → s'.admitted = s.admitted
  principals : (∀ sid p, job ≠ .bind sid p) → (∀ sid, job ≠ .forget sid) → s'.principals = s.principals

theorem doJob_keeps (s : Shared C) (w : Worker) (env : Env) (job : Job) : JobKeeps s (s.doJob w env job).1 job := by
  have hsame : ∀ {s' : Shared C}, s'.router = s.router → s'.out = s.out → s'.admitted = s.admitted →
      s'.principals = s.principals → JobKeeps s s' job := fun hrouter hout hadmitted hprincipals =>
    ⟨fun _ => hrouter, fun _ => hout, fun _ => hadmitted, fun _ _ => hprincipals⟩
  cases job with
  | unsubscribeAll sid => exact ⟨fun h => absurd rfl (h sid), fun _ => rfl, fun _ => rfl, fun _ _ => rfl⟩
  | shut sid => exact ⟨fun _ => rfl, fun h => absurd rfl (h sid), fun _ => rfl, fun _ _ => rfl⟩
  | dropAdmitted sid => exact ⟨fun _ => rfl, fun _ => rfl, fun h => absurd rfl (h sid), fun _ _ => rfl⟩
  | bind sid p => exact ⟨fun _ => rfl, fun _ => rfl, fun _ => rfl, fun h _ => absurd rfl (h sid p)⟩
  | forget sid => exact ⟨fun _ => rfl, fun _ => rfl, fun _ => rfl, fun _ h => absurd rfl (h sid)⟩
  | writeUp write holder =>
    unfold doJob
    dsimp only
    split
    · exact hsame rfl rfl rfl rfl
    · split <;> exact hsame rfl rfl rfl rfl
  | sendUp id write =>
    unfold doJob
    dsimp only
    split
    · exact hsame rfl rfl rfl rfl
    · split <;> exact hsame rfl rfl rfl rfl
  | forwardInterest zone holder =>
    unfold doJob
    dsimp only
    split
    · exact hsame rfl rfl rfl rfl
    · split <;> exact hsame rfl rfl rfl rfl
  | _ => exact hsame rfl rfl rfl rfl

/-- What a job without the cut leaves of the node's tables. -/
theorem doJob_tables (s : Shared C) (w : Worker) (env : Env) (job : Job) :
    s.next ≤ (s.doJob w env job).1.next ∧
      ((∀ fold, job ≠ .replace fold) → (s.doJob w env job).1.policy = s.policy) ∧
      (∀ (sid : SessionId) (node : Bytes32), (s.doJob w env job).1.admitted[sid]? = some node → s.admitted[sid]? = some node) ∧
      ∀ (sid : SessionId) (p : String), (s.doJob w env job).1.principals[sid]? = some p →
        s.principals[sid]? = some p ∨ job = .bind sid p := by
  have hsame : ∀ {s' : Shared C}, s.next ≤ s'.next → s'.policy = s.policy → s'.admitted = s.admitted →
      s'.principals = s.principals → s.next ≤ s'.next ∧ ((∀ fold, job ≠ .replace fold) → s'.policy = s.policy) ∧
        (∀ (sid : SessionId) (node : Bytes32), s'.admitted[sid]? = some node → s.admitted[sid]? = some node) ∧
        ∀ (sid : SessionId) (p : String), s'.principals[sid]? = some p → s.principals[sid]? = some p ∨ job = .bind sid p := by
    intro s' hnext hpolicy hadmitted hprincipals
    refine ⟨hnext, fun _ => hpolicy, ?_, ?_⟩
    · rw [hadmitted]
      exact fun _ _ => id
    · rw [hprincipals]
      exact fun _ _ => .inl
  cases job with
  | writeUp write holder =>
    unfold doJob
    dsimp only
    split
    · exact hsame le_rfl rfl rfl rfl
    · split
      · exact hsame (Nat.le_succ _) rfl rfl rfl
      · exact hsame le_rfl rfl rfl rfl
  | sendUp id write =>
    unfold doJob
    dsimp only
    split
    · exact hsame le_rfl rfl rfl rfl
    · split <;> exact hsame le_rfl rfl rfl rfl
  | forwardInterest zone holder =>
    unfold doJob
    dsimp only
    split
    · exact hsame le_rfl rfl rfl rfl
    · split
      · exact hsame (Nat.le_succ _) rfl rfl rfl
      · exact hsame le_rfl rfl rfl rfl
  | replace fold => exact ⟨le_rfl, fun h => absurd rfl (h fold), fun _ _ => id, fun _ _ => .inl⟩
  | bind sid p =>
    refine ⟨le_rfl, fun _ => rfl, fun _ _ => id, fun sid' p' hp => ?_⟩
    simp only [doJob, Std.ExtTreeMap.getElem?_insert, Std.LawfulEqOrd.compare_eq_iff_eq] at hp
    split_ifs at hp with hsid
    · exact .inr (by rw [hsid, Option.some.inj hp])
    · exact .inl hp
  | dropAdmitted sid =>
    refine ⟨le_rfl, fun _ => rfl, fun sid' node hnode => ?_, fun _ _ => .inl⟩
    simp only [doJob, Std.ExtTreeMap.getElem?_erase] at hnode
    split_ifs at hnode
    exact hnode
  | forget sid =>
    refine ⟨le_rfl, fun _ => rfl, fun _ _ => id, fun sid' p hp => ?_⟩
    simp only [doJob, Std.ExtTreeMap.getElem?_erase] at hp
    split_ifs at hp
    exact .inl hp
  | _ => exact hsame le_rfl rfl rfl rfl

end Shared

/-- The jobs a job without the cut leads to fit as it does. -/
theorem Kept.jobs_fit {t : List Happening} {s : Shared C} {w : Worker} (env : Env) {job : Job} (hfits : job.Fits t w) :
    ∀ job' ∈ (s.doJob w env job).2.1, job'.Fits (t ++ (s.doJob w env job).2.2) w := by
  intro job' hjob'
  cases job with
  | accept sid source op placement =>
    rw [Shared.doJob, List.mem_singleton] at hjob'
    subst hjob'
    rcases s.acceptance_cases sid source op placement with ⟨status, -, heq⟩ | ⟨holder, heq⟩ | heq <;> rw [heq]
    · trivial
    · trivial
    · exact ⟨_, rfl, trivial, trivial⟩
  | writeUp write holder =>
    simp only [Shared.doJob] at hjob'
    split at hjob'
    · rw [List.mem_singleton.mp hjob']
      trivial
    · split_ifs at hjob' <;> rw [List.mem_singleton.mp hjob'] <;> trivial
  | sendUp id write =>
    simp only [Shared.doJob] at hjob'
    split at hjob'
    · simp at hjob'
    · split_ifs at hjob' <;> simp at hjob'
      subst hjob'
      trivial
  | forwardInterest zone holder =>
    simp only [Shared.doJob] at hjob'
    split at hjob'
    · simp at hjob'
    · split_ifs at hjob' <;> simp at hjob'
  | subscribe sid zone forward =>
    rw [Shared.doJob, List.mem_singleton] at hjob'
    subst hjob'
    exact ⟨_, rfl, trivial, hfits.1, List.mem_append_left _ hfits.2⟩
  | replace fold =>
    simp only [Shared.doJob, List.mem_cons, List.mem_nil_iff, or_false] at hjob'
    rcases hjob' with rfl | rfl
    · exact ⟨_, rfl, trivial, hfits, fold, List.mem_append_right _ List.mem_cons_self⟩
    · trivial
  | _ => simp [Shared.doJob] at hjob'

/-- A task that starts its next job has no more to do than it had. -/
theorem Kept.taken {t : List Happening} {s : Shared C} (K : Kept t s) {w : Worker} {job : Job} {rest : List Job}
    (hscript : s.scripts w = job :: rest) : Kept t (s.give w rest) where
  __ := K
  scripts w' job' hjob' := by
    rw [Shared.give_scripts] at hjob'
    split_ifs at hjob' with hw
    · subst hw
      exact K.scripts w' job' (hscript ▸ List.mem_cons_of_mem _ hjob')
    · exact K.scripts w' job' hjob'

/-- A job without the cut keeps them. -/
theorem Kept.outer {t : List Happening} {s : Shared C} (K : Kept t s) {w : Worker} (env : Env) {job : Job} {rest : List Job}
    (hscript : s.scripts w = job :: rest) :
    Kept (t ++ ((s.give w rest).doJob w env job).2.2)
      (((s.give w rest).doJob w env job).1.doFirst w ((s.give w rest).doJob w env job).2.1) := by
  have hfits : job.Fits t w := K.scripts w job (hscript ▸ List.mem_cons_self)
  have K' := K.taken hscript
  generalize s.give w rest = s' at K'
  have F := s'.doJob_frame w env job
  obtain ⟨hnext, hpolicy, hadmitted, hprincipals⟩ := s'.doJob_tables w env job
  have hscripts : ∀ w', ∀ job' ∈ ((s'.doJob w env job).1.doFirst w (s'.doJob w env job).2.1).scripts w',
      job' ∈ s'.scripts w' ∨ job'.Fits (t ++ (s'.doJob w env job).2.2) w' := by
    intro w' job' hjob'
    simp only [Shared.doFirst, Function.update_apply, F.scripts] at hjob'
    split_ifs at hjob' with hw
    · subst hw
      exact (List.mem_append.mp hjob').symm.imp_right (Kept.jobs_fit env hfits job')
    · exact .inl hjob'
  have hstore : Inv C (s'.doJob w env job).1.store.logs (s'.doJob w env job).1.store.register := by
    rw [F.store]
    exact K'.store
  have hloops : ∀ (sid : SessionId) (source : Source), (s'.doJob w env job).1.loops[sid]? = some source →
    s'.loops[sid]? = some source := by
    rw [F.loops]
    exact fun _ _ => id
  have hcut : ∀ w' inner, (s'.doJob w env job).1.cut = some (w', inner) → ∀ job' ∈ inner, job'.Fits t w' := by
    rw [F.cut]
    exact K'.cut
  by_cases hreplace : ∃ fold, job = .replace fold
  · obtain ⟨fold, rfl⟩ := hreplace
    have hopened : ∀ {sid source g}, .opened sid source ∈ t ++ [Happening.replaced g fold] → .opened sid source ∈ t := by simp
    exact {
      store := hstore
      policy := by rw [Shared.doJob, inForce_append]; rfl
      next := fun sid source h => K'.next sid source (hopened h)
      opened := fun sid a b ha hb => K'.opened sid a b (hopened ha) (hopened hb)
      bound := fun sid p h => List.mem_append_left _ (K'.bound sid p (by simpa [Shared.doJob] using h))
      replaced := fun g f h => by
        change g ≤ s'.policy.generation + 1
        rcases List.mem_append.mp h with hold | hnew
        · exact (K'.replaced g f hold).trans (Nat.le_succ _)
        · rw [(Happening.replaced.inj (List.mem_singleton.mp hnew)).1]
          exact le_rfl
      loops := fun sid source h => List.mem_append_left _ (K'.loops sid source h)
      admitted := fun sid node h => (K'.admitted sid node h).imp fun _ => List.mem_append_left _
      principals := fun sid p h => List.mem_append_left _ (K'.principals sid p h)
      scripts := fun w' job' h => (hscripts w' job' h).elim (fun hold => (K'.scripts w' job' hold).append _) id
      cut := fun w' inner h job' hjob' => (hcut w' inner h job' hjob').append _ }
  by_cases hbind : ∃ sid p, job = .bind sid p
  · obtain ⟨sid, p, rfl⟩ := hbind
    have hopened : ∀ {sid' source}, .opened sid' source ∈ t ++ [Happening.bound sid p] → .opened sid' source ∈ t := by simp
    exact {
      store := hstore
      policy := by rw [inForce_quiet (by simp [Shared.doJob])]; exact K'.policy
      next := fun sid source h => K'.next sid source (hopened h)
      opened := fun sid a b ha hb => K'.opened sid a b (hopened ha) (hopened hb)
      bound := fun sid' p' h => List.mem_append_left _ <| by
        simp only [Shared.doJob, List.mem_append, List.mem_singleton, Happening.bound.injEq] at h
        rcases h with hold | ⟨rfl, rfl⟩
        · exact K'.bound sid' p' hold
        · exact hfits.2
      replaced := fun g f h => K'.replaced g f (by simpa [Shared.doJob] using h)
      loops := fun sid source h => List.mem_append_left _ (K'.loops sid source h)
      admitted := fun sid node h => (K'.admitted sid node h).imp fun _ => List.mem_append_left _
      principals := fun sid' p' h => by
        rcases hprincipals sid' p' h with hold | heq
        · exact List.mem_append_left _ (K'.principals sid' p' hold)
        · obtain ⟨rfl, rfl⟩ := Job.bind.inj heq
          exact List.mem_append_right _ List.mem_cons_self
      scripts := fun w' job' h => (hscripts w' job' h).elim (fun hold => (K'.scripts w' job' hold).append _) id
      cut := fun w' inner h job' hjob' => (hcut w' inner h job' hjob').append _ }
  have hreplace' : ∀ fold, job ≠ .replace fold := fun fold h => hreplace ⟨fold, h⟩
  have hbind' : ∀ sid p, job ≠ .bind sid p := fun sid p h => hbind ⟨sid, p, h⟩
  exact K'.plain (s'.doJob_plain w env hbind' hreplace') hstore (hpolicy hreplace') hnext hloops
    (fun sid node h => .inl (hadmitted sid node h)) (fun sid p h => (hprincipals sid p h).resolve_right (hbind' sid p))
    hscripts hcut

namespace Shared

/-- What an event that runs no task did: it opened the next session, or took ops in. -/
theorem step_did (s : Shared C) {e : Event} (he : ∀ w env, e ≠ .run w env) :
    ((∀ x ∈ (s.step e).2, ∃ sid ops, x = .received sid ops) ∧
        ∀ (sid : SessionId) (source : Source), (s.step e).1.loops[sid]? = some source → s.loops[sid]? = some source) ∨
      ∃ source, (s.step e).2 = [.opened s.next source] ∧ (s.step e).1.next = s.next + 1 ∧
        (s.step e).1.loops = s.loops.insert s.next source ∧ (source = .client → s.next ∈ (s.step e).1.out) := by
  have hsame : (∀ x ∈ ([] : List Happening), ∃ sid ops, x = .received sid ops) ∧
      ∀ (sid : SessionId) (source : Source), s.loops[sid]? = some source → s.loops[sid]? = some source := by simp
  have hruns : ∀ id e, (∀ x ∈ (s.forwardRuns id e).2, ∃ sid ops, x = .received sid ops) ∧
      ∀ (sid : SessionId) (source : Source), (s.forwardRuns id e).1.loops[sid]? = some source → s.loops[sid]? = some source := by
    intro id e
    unfold forwardRuns
    split
    case h_2 => exact hsame
    split_ifs
    case neg => exact hsame
    unfold stepForward
    cases e with
    | carry id sent =>
      dsimp only
      split
      · exact hsame
      · split <;> exact hsame
    | holderAnswers id answer =>
      dsimp only
      split <;> exact hsame
    | _ => exact hsame
  cases e with
  | run w env => exact absurd rfl (he w env)
  | connect => exact .inr ⟨.client, rfl, rfl, rfl, fun _ => Finset.mem_insert_self _ _⟩
  | peerSubscribe node zone from_ chunk => exact .inr ⟨.forward zone node, rfl, rfl, rfl, by simp⟩
  | hello sid heads principal =>
    unfold step
    dsimp only
    split
    · split_ifs <;> exact .inl hsame
    · exact .inl hsame
  | subscribe sid zone route =>
    unfold step
    dsimp only
    split
    · split_ifs
      · cases route <;> exact .inl hsame
      · exact .inl hsame
    · exact .inl hsame
  | ops sid ops routes =>
    unfold step
    dsimp only
    split
    · split_ifs
      · exact .inl ⟨fun x hx => ⟨sid, ops, List.mem_singleton.mp hx⟩, fun _ _ => id⟩
      · exact .inl hsame
    · exact .inl hsame
  | disconnect sid =>
    unfold step
    dsimp only
    split
    · split_ifs
      · refine .inl ⟨by simp, fun sid' source hloop => ?_⟩
        simp only [give, Std.ExtTreeMap.getElem?_erase] at hloop
        split_ifs at hloop
        exact hloop
      · exact .inl hsame
    · exact .inl hsame
  | ingest id op =>
    unfold step
    dsimp only
    split_ifs <;> exact .inl hsame
  | refresh id fold =>
    unfold step
    dsimp only
    split_ifs <;> exact .inl hsame
  | bringBack id zone holder =>
    unfold step
    dsimp only
    split_ifs <;> exact .inl hsame
  | carry id sent => exact .inl (hruns id _)
  | arrive id ops => exact .inl (hruns id _)
  | holderAnswers id answer => exact .inl (hruns id _)
  | expire id count => exact .inl (hruns id _)
  | forwardEnds id refused => exact .inl (hruns id _)

end Shared

/-- An event's jobs fit what its happenings say. -/
theorem Kept.gives_fit {t : List Happening} {s : Shared C} (K : Kept t s) {e : Event} {w : Worker} {job : Job}
    (h : s.Gives w job e) : job.Fits (t ++ (s.step e).2) w := by
  cases e with
  | connect | run => exact h.elim
  | peerSubscribe node zone from_ chunk =>
    obtain ⟨rfl, rfl⟩ := h
    exact ⟨_, rfl, trivial, rfl, List.mem_append_right _ List.mem_cons_self⟩
  | hello sid heads principal =>
    obtain ⟨rfl, hloop, rfl | ⟨p, -, -, rfl⟩ | rfl⟩ := h
    · trivial
    · exact ⟨rfl, List.mem_append_left _ (K.loops sid _ hloop)⟩
    · exact ⟨rfl, fun ops => by simp⟩
  | subscribe sid zone route =>
    obtain ⟨rfl, hloop, ⟨frame, hframe, rfl⟩ | ⟨forward, rfl⟩⟩ := h
    · exact ⟨rfl, hframe⟩
    · exact ⟨rfl, List.mem_append_left _ (K.loops sid _ hloop)⟩
  | ops sid ops routes =>
    obtain ⟨rfl, source, hloop, op, -, rfl⟩ := h
    exact ⟨rfl, List.mem_append_left _ (K.loops sid _ hloop)⟩
  | disconnect sid =>
    obtain ⟨rfl, ⟨source, hloop⟩, rfl | rfl | rfl | rfl⟩ := h <;>
      exact ⟨rfl, source, List.mem_append_left _ (K.loops sid _ hloop)⟩
  | ingest id op =>
    obtain ⟨-, rfl⟩ := h
    exact ⟨_, rfl, trivial, trivial⟩
  | refresh id fold =>
    obtain ⟨rfl, rfl⟩ := h
    exact ⟨id, rfl⟩
  | bringBack id zone holder =>
    obtain ⟨-, rfl⟩ := h
    trivial
  | arrive id ops =>
    obtain ⟨-, from_, op, rfl⟩ := h
    exact ⟨_, rfl, trivial, trivial⟩
  | carry | holderAnswers | expire | forwardEnds =>
    obtain ⟨hw, ⟨_, _, _, rfl⟩ | ⟨_, _, _, rfl⟩ | ⟨_, _, rfl⟩⟩ := h
    · trivial
    · exact ⟨_, rfl, trivial, trivial⟩
    · exact ⟨_, rfl, trivial, _, hw⟩

/-- An event that runs no task keeps them. -/
theorem Kept.event {t : List Happening} {s : Shared C} (K : Kept t s) {e : Event} (he : ∀ w env, e ≠ .run w env) :
    Kept (t ++ (s.step e).2) (s.step e).1 := by
  have F := s.step_frame he
  have hscripts : ∀ w, ∀ job ∈ (s.step e).1.scripts w, job.Fits (t ++ (s.step e).2) w := by
    intro w job hjob
    rcases s.step_scripts he w with hsame | ⟨-, hgives⟩
    · rw [hsame] at hjob
      exact (K.scripts w job hjob).append _
    · exact K.gives_fit (hgives job hjob)
  have hstore : Inv C (s.step e).1.store.logs (s.step e).1.store.register := by
    rw [F.store]
    exact K.store
  rcases s.step_did he with ⟨hdid, hloops⟩ | ⟨source, hdid, hnext, hloops, -⟩
  · have hplain : ∀ x ∈ (s.step e).2, x.Plain := by
      intro x hx
      obtain ⟨sid, ops, rfl⟩ := hdid x hx
      trivial
    exact K.plain hplain hstore F.policy F.next hloops (fun sid node h => .inl (by rwa [← F.admitted]))
      (fun sid p h => by rwa [← F.principals]) (fun w job hjob => .inr (hscripts w job hjob)) (by rw [F.cut]; exact K.cut)
  have hopened : ∀ {sid source'}, .opened sid source' ∈ t ++ (s.step e).2 →
      .opened sid source' ∈ t ∨ sid = s.next ∧ source' = source := by simp [hdid]
  have hold : ∀ {x}, x ∈ t → x ∈ t ++ (s.step e).2 := fun hx => List.mem_append_left _ hx
  exact {
    store := hstore
    policy := by rw [F.policy, K.policy, inForce_quiet (by simp [hdid])]
    next := fun sid source' h => by
      rw [hnext]
      rcases hopened h with hbefore | ⟨rfl, -⟩
      · exact Nat.lt_succ_of_lt (K.next sid source' hbefore)
      · exact Nat.lt_succ_self _
    opened := fun sid a b ha hb => by
      rcases hopened ha with ha | ⟨rfl, rfl⟩ <;> rcases hopened hb with hb | ⟨hsid, rfl⟩
      · exact K.opened sid a b ha hb
      · exact absurd (K.next _ a ha) (hsid ▸ lt_irrefl _)
      · exact absurd (K.next _ b hb) (lt_irrefl _)
      · rfl
    bound := fun sid p h => hold (K.bound sid p (by simpa [hdid] using h))
    replaced := fun g f h => by
      rw [F.policy]
      exact K.replaced g f (by simpa [hdid] using h)
    loops := fun sid source' h => by
      rw [hloops, Std.ExtTreeMap.getElem?_insert] at h
      simp only [Std.LawfulEqOrd.compare_eq_iff_eq] at h
      split_ifs at h with hsid
      · rw [hdid, ← hsid, ← Option.some.inj h]
        exact List.mem_append_right _ List.mem_cons_self
      · exact hold (K.loops sid source' h)
    admitted := fun sid node h => (K.admitted sid node (by rwa [← F.admitted])).imp fun _ => hold
    principals := fun sid p h => hold (K.principals sid p (by rwa [← F.principals]))
    scripts := hscripts
    cut := fun w inner h job hjob => (K.cut w inner (by rwa [← F.cut]) job hjob).append _ }

theorem Kept.new (clientGrants : Bool) : Kept [] (Shared.new C clientGrants) where
  store := inv_empty
  policy := rfl
  next := by simp
  opened := by simp
  bound := by simp
  replaced := by simp
  loops := by simp [Shared.new]
  admitted := by simp [Shared.new]
  principals := by simp [Shared.new]
  scripts := by simp [Shared.new]
  cut := by simp [Shared.new]

theorem Kept.step {t : List Happening} {s : Shared C} (K : Kept t s) (e : Event) : Kept (t ++ (s.step e).2) (s.step e).1 := by
  by_cases he : ∀ w env, e ≠ .run w env
  · exact K.event he
  push Not at he
  obtain ⟨w, env, rfl⟩ := he
  change Kept (t ++ (s.run w env).2) (s.run w env).1
  generalize hran : s.run w env = r
  have h := s.run_ran w env
  rw [hran] at h
  obtain ⟨s', did⟩ := r
  dsimp only at h ⊢
  cases h with
  | nothing => simpa using K
  | release hheld => exact { (by simpa using K : Kept (t ++ []) s) with cut := by simp [Shared.setCut] }
  | inner job rest hheld => exact K.inner env hheld
  | take inner rest hfree hscript =>
    have hfits := K.scripts w _ (hscript ▸ List.mem_cons_self)
    obtain ⟨job, rfl, -, hfits⟩ := hfits
    refine { (by simpa using K.taken hscript : Kept (t ++ []) (s.give w rest)) with cut := fun w' inner h job' hjob' => ?_ }
    obtain ⟨rfl, rfl⟩ := Prod.mk.inj (Option.some.inj h)
    rw [List.mem_singleton.mp hjob', List.append_nil]
    exact hfits
  | outer job rest hfree hscript hcut => exact K.outer env hscript

/-! ### What a session is sent -/

/-- The ops of a zone's gap are of the zone. -/
theorem Kept.zoneOf_missing {t : List Happening} {s : Shared C} (K : Kept t s) {zone : Zone} {their : SeqHeads} {op : Op}
    (h : op ∈ missingFor C s.store zone their) :
    zoneOf op = zone := by
  obtain ⟨e, -, hop⟩ := List.mem_flatMap.mp h
  have hkeyed := K.store.keyed _ op (List.mem_of_mem_filter hop)
  have := congrArg (fun c : ChainId => (c.share, c.gladeId, c.key)) hkeyed
  exact this

/-- The loop that fills a gap's chunks, from any that are filled. -/
theorem Shared.append_chunked (bytes : ℕ) (ops : List Op) (c : Chunking) :
    c.chunks ++ Shared.chunked bytes ops c.chunk c.held =
      if (ops.foldl (Chunking.push bytes) c).chunk ≠ [] then
        (ops.foldl (Chunking.push bytes) c).chunks ++ [(ops.foldl (Chunking.push bytes) c).chunk]
      else (ops.foldl (Chunking.push bytes) c).chunks := by
  induction ops generalizing c with
  | nil =>
    rw [Shared.chunked, List.foldl_nil]
    by_cases hnil : c.chunk = []
    · rw [if_pos hnil, if_neg (not_not.mpr hnil), List.append_nil]
    · rw [if_neg hnil, if_pos hnil]
  | cons op ops ih =>
    rw [List.foldl_cons, ← ih (c.push bytes op), Shared.chunked, Chunking.push, opsPerChunk]
    split_ifs with hfull
    · rw [List.append_assoc, List.singleton_append]
    · rfl

/-- They are the chunks that a gap is sent to a peer in. -/
theorem Shared.chunked_eq (bytes : ℕ) (ops : List Op) : Shared.chunked bytes ops [] 0 = Node.chunked ops bytes :=
  Shared.append_chunked bytes ops { chunks := [], chunk := [], held := 0 }

namespace Shared

/-- A subscribe's ack comes first, and then its gap. -/
theorem ackGap_more (s : Shared C) (w : Worker) (env : Env) (sid : SessionId) (zone : Zone) (their : SeqHeads)
    (chunk : Option ℕ) :
    ∃ frames : List (List Op), (s.doInner w env (.ackGap sid zone their chunk)).2.1 =
        .queue sid (ack C s.store zone) :: frames.map (fun ops => .queue sid (.ops ops)) ∧
      ∀ ops ∈ frames, ∀ op ∈ ops, op ∈ missingFor C s.store zone their := by
  cases chunk with
  | none =>
    refine ⟨_, rfl, fun ops hops op hop => ?_⟩
    dsimp only at hops
    split_ifs at hops
    · cases hops
    · rwa [← List.mem_singleton.mp hops]
  | some bytes =>
    refine ⟨_, rfl, fun ops hops op hop => ?_⟩
    rw [← (chunked_inv (missingFor C s.store zone their) bytes).1]
    exact List.mem_flatten_of_mem (chunked_eq bytes _ ▸ hops) hop

/-! ### The grant checks -/

theorem clientCheck_ok {s : Shared C} {sid : SessionId} {verb share : String} (h : s.clientCheck sid verb share = .ok ()) :
    ∃ p, s.principals[sid]? = some p ∧ s.policy.check (.principal p) verb share = .ok () := by
  unfold clientCheck at h
  split at h
  · cases h
  · rename_i p hp
    refine ⟨p, hp, ?_⟩
    cases hcheck : s.policy.check (.principal p) verb share with
    | ok => rfl
    | error denial =>
      rw [hcheck] at h
      cases h

theorem nodeCheck_ok {s : Shared C} {node : Bytes32} {verb share : String} (h : s.nodeCheck node verb share = .ok ()) :
    s.policy.check (.node node) verb share = .ok () := by
  unfold nodeCheck at h
  cases hcheck : s.policy.check (.node node) verb share with
  | ok => rfl
  | error denial =>
    rw [hcheck] at h
    cases h

end Shared

end Glade.Node.Serving
