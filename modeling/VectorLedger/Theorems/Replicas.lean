import Mathlib.Data.List.Chain
import VectorLedger.Theorems.Network

/-! The numbers that a replica applies, and when they go up by one. -/

namespace VectorLedger.Replication

open List Slots

def Request.record : Request → Option WalRecordMsg
  | .ship rec => some rec
  | .heartbeat _ => none

def numbers (msgs : List ReplicationMessage) : List Lsn :=
  msgs.filterMap fun
    | .walRecord rec => some rec.lsn
    | .heartbeat _ => none

def stops (outcome : ReadOutcome) (line : Option (Option AckMessage)) (lsn : Lsn) : Bool :=
  match outcome, line with
  | .timedOut _, _ | .closed, _ => true
  | .line, some (some (.ack got)) => got ≠ lsn
  | _, _ => false

/-- The connections that a call has not written its record to, from the next one on. -/
def Request.owes (request : Request) (i : Nat) (conns : List Nat) : List Nat :=
  match request with
  | .ship _ => conns.drop i
  | .heartbeat _ => []

def Call.owes (c : Call) (conns : List Nat) : List Nat :=
  match c.pc with
  | .writing i _ => c.request.owes i conns
  | .reading i _ => c.request.owes (i + 1) conns
  | .locking | .done _ | .finished => []

namespace Network

variable {blake3 : List UInt8 → Hash} {q q' : Network} {a : Action} {n i l r : Nat} {c : Call} {k k' : Link}
  {rp rp' : Replica} {s : Session} {dead : List Nat} {pc : Pc} {rec : WalRecordMsg} {g : Lsn} {ackTimeoutMs replicas : Nat}

def owed (q : Network) : List Nat :=
  match q.lock.bind (q.calls[·]?) with
  | some c => c.owes q.conns
  | none => []

def stream (q : Network) (rp : Replica) : List Lsn :=
  match rp.session.bind fun s => q.links[s.link]? with
  | some k => numbers k.toReplica
  | none => []

def trail (q : Network) (rp : Replica) : List Lsn := rp.applied.map WalRecordMsg.lsn ++ q.stream rp

/-- Each number is the next of the one before. -/
def Consecutive (lsns : List Lsn) : Prop := lsns.IsChain fun a b => b = a + 1

/-- The calls of ship have the lock in the order of their numbers. A replica that has applied a record joins only if that is
    the last one for which the lock was taken. A call returns at once only if no replica reads from the connections behind
    the one at hand. -/
def InOrder (q : Network) : Action → Prop
  | .acquire n => ∀ c ∈ q.calls[n]?, ∀ rec ∈ c.request.record, ∀ d ∈ q.calls, d.pc = .locking →
    ∀ rec' ∈ d.request.record, rec.lsn ≤ rec'.lsn
  | .join l => ∀ rp ∈ q.replicas, ∀ s ∈ rp.session, s.link = l → ∀ last ∈ rp.applied.getLast?,
    ∀ c ∈ q.calls, c.pc ≠ .locking → ∀ rec ∈ c.request.record, rec.lsn ≤ last.lsn
  | .read n outcome => ∀ c ∈ q.calls[n]?, ∀ rec ∈ c.request.record, ∀ x ∈ c.pc.place, ∀ l ∈ q.conns[x.1]?, ∀ k ∈ q.links[l]?,
    stops outcome k.toPrimary.head? rec.lsn = true → ∀ m ∈ q.conns.drop (x.1 + 1), q.inUse m = false
  | _ => True

instance : DecidablePred (InOrder q) := fun a => by
  unfold InOrder
  split <;> infer_instance

/-- A replica is in line: its numbers go up by one, and the last of them is the number that was last written to it. -/
structure Line (q : Network) (g : Lsn) (rp : Replica) : Prop where
  chain : Consecutive (q.trail rp)
  below : ∀ m ∈ q.trail rp, m ≤ g
  last : ∀ s ∈ rp.session, ∀ k ∈ q.links[s.link]?, s.link ∈ q.conns → k.severed = false → ∀ m ∈ (q.trail rp).getLast?,
    if s.link ∈ q.owed then m + 1 = g else m = g

/-- What every step keeps, where `g` is the last number for which the lock was taken. -/
structure Series (q : Network) (g : Lsn) : Prop where
  filled : ∀ m, 1 ≤ m → m < q.nextLsn → ∃ rec, q.Ships rec ∧ rec.lsn = m
  past : ∀ c ∈ q.calls, ∀ rec, c.request = .ship rec → (c.pc = .locking ↔ g < rec.lsn)
  holder : ∀ (n : Nat) (c : Call), q.calls[n]? = some c → ∀ rec, c.request = .ship rec → c.pc.place ≠ none → rec.lsn = g
  bound : g < q.nextLsn
  unjoined : ∀ (l : Nat) (k : Link), q.links[l]? = some k → k.joined = false → k.toReplica = []
  lines : ∀ (r : Nat) (rp : Replica), q.replicas[r]? = some rp → q.Line g rp

/-! ### Connections still to be written to -/

theorem owed_of_free (free : q.lock = none) : q.owed = [] := by
  simp [owed, free]

theorem owed_eq (mine : q.lock = some n) (call : q.calls[n]? = some c) : q.owed = c.owes q.conns := by
  simp [owed, mine, call]

theorem owed_passOn (mine : q.lock = some n) (call : q.calls[n]? = some c) (i : Nat) (dead : List Nat) :
    (q.passOn n c i dead).owed = c.request.owes i q.conns := by
  by_cases hi : i < q.conns.length
  · rw [passOn, if_pos hi]
    exact owed_eq (q := q.setPc n c (.writing i dead)) mine (getElem?_set_self call _)
  · rw [passOn, if_neg hi, owed_of_free rfl]
    cases c.request with
    | ship => exact (drop_eq_nil_of_le (by omega)).symm
    | heartbeat => rfl

theorem passOn_conns_subset (q : Network) (n : Nat) (c : Call) (i : Nat) (dead : List Nat) :
    ∀ l ∈ (q.passOn n c i dead).conns, l ∈ q.conns := by
  intro l hl
  unfold passOn at hl
  split at hl
  · exact hl
  · exact mem_of_mem_removeDead hl

/-! ### Replicas in line -/

theorem stream_of_session (session : rp.session = some s) (link : q.links[s.link]? = some k) :
    q.stream rp = numbers k.toReplica := by
  simp [stream, session, link]

theorem stream_of_idle (idle : rp.session = none) : q.stream rp = [] := by
  simp [stream, idle]

/-- For a replica that reads from this connection, nothing changes that matters. -/
def SameLink (q q' : Network) (l : Nat) : Prop :=
  ∀ k, q.links[l]? = some k → ∃ k', q'.links[l]? = some k' ∧ numbers k'.toReplica = numbers k.toReplica ∧
    (k'.severed = false → l ∈ q'.conns → k.severed = false ∧ l ∈ q.conns ∧ (l ∈ q'.owed ↔ l ∈ q.owed))

section
variable (h : q.Line g rp)
include h

theorem Line.congr (owner : ∀ s ∈ rp.session, ∃ k, q.links[s.link]? = some k)
    (same : ∀ s ∈ rp.session, SameLink q q' s.link) : q'.Line g rp := by
  cases session : rp.session with
  | none =>
    have htrail : q'.trail rp = q.trail rp := by simp only [trail, stream_of_idle session]
    refine ⟨htrail ▸ h.chain, htrail ▸ h.below, fun s hs => ?_⟩
    rw [session] at hs
    cases hs
  | some s =>
    obtain ⟨k, hk⟩ := owner s session
    obtain ⟨k', hk', hnumbers, hkept⟩ := same s session k hk
    have htrail : q'.trail rp = q.trail rp := by
      simp only [trail, stream_of_session session hk, stream_of_session session hk', hnumbers]
    refine ⟨htrail ▸ h.chain, htrail ▸ h.below, fun s' hs' d hd hconn hsevered m hm => ?_⟩
    obtain rfl := Option.some.inj (session.symm.trans hs')
    obtain rfl := Option.some.inj (hk'.symm.trans hd)
    obtain ⟨hsev, hin, howed⟩ := hkept hsevered hconn
    rw [htrail] at hm
    have hlast := h.last s session k hk hin hsev m hm
    by_cases hl : s.link ∈ q.owed
    · rw [if_pos hl] at hlast
      rwa [if_pos (howed.2 hl)]
    · rw [if_neg hl] at hlast
      rwa [if_neg (fun hin' => hl (howed.1 hin'))]

theorem Line.applied : Consecutive (rp.applied.map WalRecordMsg.lsn) ∧ ∀ m ∈ rp.applied.map WalRecordMsg.lsn, m ≤ g :=
  ⟨h.chain.left_of_append, fun m hm => h.below m (mem_append_left _ hm)⟩

theorem Line.quiet (applied : rp'.applied = rp.applied) (empty : q'.stream rp' = [])
    (outside : ∀ s ∈ rp'.session, s.link ∉ q'.conns) : q'.Line g rp' := by
  have htrail : q'.trail rp' = rp.applied.map WalRecordMsg.lsn := by rw [trail, empty, append_nil, applied]
  exact ⟨htrail ▸ h.applied.1, htrail ▸ h.applied.2, fun s hs k _ hconn => absurd hconn (outside s hs)⟩

theorem Line.idle (applied : rp'.applied = rp.applied) (idle : rp'.session = none) : q'.Line g rp' :=
  h.quiet applied (stream_of_idle idle) (by simp [idle])

theorem Line.goOn (session : rp.session = some s) (link : q.links[s.link]? = some k)
    {s' : Session} (session' : rp'.session = some s') (sameLink : s'.link = s.link) (link' : q'.links[s.link]? = some k')
    (trail : rp'.applied.map WalRecordMsg.lsn ++ numbers k'.toReplica = rp.applied.map WalRecordMsg.lsn ++ numbers k.toReplica)
    (severed : k'.severed = k.severed) (conns : q'.conns = q.conns) (owed : q'.owed = q.owed) : q'.Line g rp' := by
  have htrail : q'.trail rp' = q.trail rp := by
    rw [Network.trail, Network.trail, stream_of_session session link, stream_of_session session' (sameLink ▸ link'), trail]
  refine ⟨htrail ▸ h.chain, htrail ▸ h.below, fun t ht d hd hconn hsevered m hm => ?_⟩
  obtain rfl := Option.some.inj (session'.symm.trans ht)
  rw [sameLink] at hd hconn ⊢
  obtain rfl := Option.some.inj (link'.symm.trans hd)
  rw [owed]
  exact h.last s session k link (conns ▸ hconn) (severed ▸ hsevered) m (htrail ▸ hm)

theorem Line.deliver (session : rp.session = some s) (link : q.links[s.link]? = some k)
    (alive : k.severed = false) (conn : s.link ∈ q.conns) (due : s.link ∈ q.owed)
    (link' : q'.links[s.link]? = some { k with toReplica := k.toReplica ++ [.walRecord rec] }) (hlsn : rec.lsn = g)
    (paid : s.link ∉ q'.owed) : q'.Line g rp := by
  have htrail : q'.trail rp = q.trail rp ++ [g] := by
    rw [trail, trail, stream_of_session session link, stream_of_session session link', append_assoc, numbers, numbers,
      filterMap_append, ← hlsn]
    rfl
  refine ⟨?_, fun m hm => ?_, fun t ht d hd _ _ m hm => ?_⟩
  · rw [htrail, Consecutive, isChain_append]
    refine ⟨h.chain, isChain_singleton _, fun m hm m' hm' => ?_⟩
    cases hm'
    have hlast := h.last s session k link conn alive m hm
    rw [if_pos due] at hlast
    exact hlast.symm
  · rw [htrail, mem_append, mem_singleton] at hm
    rcases hm with hold | rfl
    · exact h.below m hold
    · exact Nat.le_refl _
  · obtain rfl := Option.some.inj (session.symm.trans ht)
    rw [htrail, getLast?_concat] at hm
    rw [if_neg paid]
    exact (Option.some.inj hm).symm

end

/-! ### Steps of the primary -/

theorem mem_owes_succ (request : Request) {conns : List Nat} (conn : conns[i]? = some l) {m : Nat} (hne : m ≠ l) :
    m ∈ request.owes (i + 1) conns ↔ m ∈ request.owes i conns := by
  cases request with
  | heartbeat => rfl
  | ship =>
    obtain ⟨hi, rfl⟩ := List.getElem?_eq_some_iff.1 conn
    simp only [Request.owes, drop_eq_getElem_cons hi, mem_cons, hne, false_or]

theorem Series.goOn (h : Series q g) (call : q.calls[n]? = some c) (place : c.pc.place ≠ none)
    (calls : ∃ pc, pc ≠ .locking ∧ q'.calls = q.calls.set n { c with pc := pc }) (nextLsn : q'.nextLsn = q.nextLsn)
    (unjoined : ∀ (l : Nat) (k : Link), q'.links[l]? = some k → k.joined = false → k.toReplica = [])
    (lines : ∀ (r : Nat) (rp : Replica), q'.replicas[r]? = some rp → q'.Line g rp) : Series q' g := by
  obtain ⟨pc, hpc, calls⟩ := calls
  refine ⟨fun m hm hlt => ?_, fun d hd rec hrec => ?_, fun m d hd rec hrec hplace => ?_, nextLsn ▸ h.bound, unjoined, lines⟩
  · obtain ⟨rec, hships, hlsn⟩ := h.filled m hm (nextLsn ▸ hlt)
    exact ⟨rec, (ships_set call ⟨pc, calls⟩).2 hships, hlsn⟩
  · rw [calls] at hd
    rcases mem_set_cases hd with rfl | ⟨m, -, hold⟩
    · have hnot : c.pc ≠ .locking := fun hlocking => place (by rw [hlocking]; rfl)
      exact iff_of_false hpc fun hlt => hnot ((h.past c (mem_of_getElem? call) rec hrec).2 hlt)
    · exact h.past d (mem_of_getElem? hold) rec hrec
  · rw [calls] at hd
    rcases getElem?_set_cases hd with ⟨rfl, rfl⟩ | ⟨-, hold⟩
    · exact h.holder _ c call rec hrec place
    · exact h.holder m d hold rec hrec hplace

theorem passOn_calls_ne_locking (q : Network) (n : Nat) (c : Call) (i : Nat) (dead : List Nat) :
    ∃ pc, pc ≠ .locking ∧ (q.passOn n c i dead).calls = q.calls.set n { c with pc := pc } := by
  unfold passOn
  split
  · exact ⟨_, by simp, rfl⟩
  · refine ⟨returned c.request, ?_, rfl⟩
    cases c.request <;> simp [returned]

theorem Series.unjoined_setLink (h : Series q g) (turns : Turns q) (conn : q.conns[i]? = some l) (link : q.links[l]? = some k)
    (k' : Link) (joined : k'.joined = k.joined) :
    ∀ (m : Nat) (d : Link), (q.links.set l k')[m]? = some d → d.joined = false → d.toReplica = [] := by
  intro m d hd hnot
  rcases getElem?_set_cases hd with ⟨-, rfl⟩ | ⟨-, hold⟩
  · obtain ⟨k₁, hk₁, hj⟩ := turns.joined l (mem_of_getElem? conn)
    obtain rfl := Option.some.inj (link.symm.trans hk₁)
    rw [joined, hj] at hnot
    cases hnot
  · exact h.unjoined m d hold hnot

theorem sameLink_of_set {m : Nat} {d : Link} (link : q.links[m]? = some d) (d' : Link) (links : q'.links = q.links.set m d')
    (sameNumbers : numbers d'.toReplica = numbers d.toReplica) (severed : d'.severed = false → d.severed = false)
    (conns : ∀ l ∈ q'.conns, l ∈ q.conns) (owed : (l = m → d'.severed = false) → (l ∈ q'.owed ↔ l ∈ q.owed)) :
    SameLink q q' l := by
  intro k hk
  by_cases hl : l = m
  · subst hl
    obtain rfl := Option.some.inj (link.symm.trans hk)
    exact ⟨d', links ▸ getElem?_set_self link d', sameNumbers,
      fun hsev hconn => ⟨severed hsev, conns l hconn, owed fun _ => hsev⟩⟩
  · refine ⟨k, ?_, rfl, fun hsev hconn => ⟨hsev, conns l hconn, owed fun heq => absurd heq hl⟩⟩
    rw [links, getElem?_set_ne (Ne.symm hl)]
    exact hk

theorem numbers_deliver_heartbeat (k : Link) (lastLsn : Lsn) :
    numbers (k.deliver (.heartbeat lastLsn)).toReplica = numbers k.toReplica := by
  unfold Link.deliver
  split
  · rfl
  · simp [numbers]

theorem deliver_severed (k : Link) (msg : ReplicationMessage) : (k.deliver msg).severed = k.severed := by
  unfold Link.deliver
  split <;> rfl

theorem Series.line_same (h : Series q g) (wire : Wire q) (replica : q.replicas[r]? = some rp)
    (same : ∀ s ∈ rp.session, SameLink q q' s.link) : q'.Line g rp := by
  refine (h.lines r rp replica).congr (fun s hs => ?_) same
  obtain ⟨k, hk, -⟩ := wire.owner r rp replica s hs
  exact ⟨k, hk⟩

theorem Series.lines_same (h : Series q g) (wire : Wire q) (replicas : q'.replicas = q.replicas)
    (same : ∀ (r : Nat) (rp : Replica), q.replicas[r]? = some rp → ∀ s ∈ rp.session, SameLink q q' s.link) :
    ∀ (r : Nat) (rp : Replica), q'.replicas[r]? = some rp → q'.Line g rp := by
  intro r rp hrp
  rw [replicas] at hrp
  exact h.line_same wire hrp (same r rp hrp)

theorem owed_call {c : Call} (waiting : c.pc = .locking) (nextLsn : Lsn) :
    owed { q with nextLsn := nextLsn, calls := q.calls ++ [c] } = q.owed := by
  cases hlock : q.lock with
  | none => simp [owed, hlock]
  | some n =>
    simp only [owed, hlock, Option.bind_some]
    cases hcall : q.calls[n]? with
    | some => rw [getElem?_append_of_some hcall]
    | none =>
      cases hnew : (q.calls ++ [c])[n]? with
      | none => rfl
      | some =>
        rcases getElem?_append_cases hnew with hold | ⟨-, rfl⟩
        · rw [hcall] at hold
          cases hold
        · simp [Call.owes, waiting]

theorem Series.call (h : Series q g) (wire : Wire q) {c : Call} {nextLsn : Lsn} (waiting : c.pc = .locking)
    (le : q.nextLsn ≤ nextLsn) (fresh : ∀ rec, c.request = .ship rec → q.nextLsn ≤ rec.lsn)
    (filled : ∀ m, q.nextLsn ≤ m → m < nextLsn → ∃ rec, c.request = .ship rec ∧ rec.lsn = m) :
    Series { q with nextLsn := nextLsn, calls := q.calls ++ [c] } g := by
  refine ⟨fun m hm hlt => ?_, fun d hd rec hrec => ?_, fun m d hd rec hrec hplace => ?_, lt_of_lt_of_le h.bound le, h.unjoined,
    h.lines_same wire rfl fun r rp hrp s hs k hk => ?_⟩
  · rcases lt_or_ge m q.nextLsn with hold | hnew
    · obtain ⟨rec, ⟨d, hd, hrec⟩, hlsn⟩ := h.filled m hm hold
      exact ⟨rec, ⟨d, mem_append_left _ hd, hrec⟩, hlsn⟩
    · obtain ⟨rec, hrec, hlsn⟩ := filled m hnew hlt
      exact ⟨rec, ⟨c, by simp, hrec⟩, hlsn⟩
  · rcases mem_append.1 hd with hold | hnew
    · exact h.past d hold rec hrec
    · obtain rfl := mem_singleton.1 hnew
      exact iff_of_true waiting (lt_of_lt_of_le h.bound (fresh rec hrec))
  · rcases getElem?_append_cases hd with hold | ⟨-, rfl⟩
    · exact h.holder m d hold rec hrec hplace
    · rw [waiting] at hplace
      exact absurd rfl hplace
  · exact ⟨k, hk, rfl, fun hsev hconn => ⟨hsev, hconn, by rw [owed_call waiting]⟩⟩

theorem Series.next_number (h : Series q g) (turns : Turns q) (call : q.calls[n]? = some ⟨.ship rec, .locking⟩)
    (ok : InOrder q (.acquire n)) : rec.lsn = g + 1 := by
  have hafter : g < rec.lsn := (h.past _ (mem_of_getElem? call) rec rfl).1 rfl
  have hlt := (turns.numbered rec ⟨_, mem_of_getElem? call, rfl⟩).2
  obtain ⟨rec', ⟨d, hd, hrec'⟩, hlsn⟩ := h.filled (g + 1) (Nat.succ_le_succ (Nat.zero_le g)) (lt_of_le_of_lt hafter hlt)
  have hwaits : d.pc = .locking := (h.past d hd rec' hrec').2 (hlsn ▸ Nat.lt_succ_self g)
  have hle := ok _ call rec rfl d hd hwaits rec' (by simp [Request.record, hrec'])
  exact le_antisymm (hlsn ▸ hle) hafter

theorem Series.acquire {g' : Lsn} (h : Series q g) (turns : Turns q) (call : q.calls[n]? = some c) (free : q.lock = none)
    (mine : ∀ rec, c.request = .ship rec → rec.lsn = g')
    (past : ∀ (m : Nat) (d : Call), m ≠ n → q.calls[m]? = some d → ∀ rec, d.request = .ship rec →
      (d.pc = .locking ↔ g' < rec.lsn))
    (bound : g' < q.nextLsn)
    (lines : ∀ (r : Nat) (rp : Replica), q.replicas[r]? = some rp → Line ({ q with lock := some n }.passOn n c 0 []) g' rp) :
    Series ({ q with lock := some n }.passOn n c 0 []) g' := by
  obtain ⟨pc, hpc, calls⟩ := { q with lock := some n }.passOn_calls_ne_locking n c 0 []
  refine ⟨fun m hm hm' => ?_, fun d hd rec' hrec' => ?_, fun m d hd rec' hrec' hplace => ?_, by simpa using bound, ?_,
    fun r rp hrp => lines r rp (by simpa using hrp)⟩
  · obtain ⟨rec', hships, hm⟩ := h.filled m hm (by simpa using hm')
    exact ⟨rec', (ships_passOn (q := { q with lock := some n }) call 0 []).2 hships, hm⟩
  · rw [calls] at hd
    rcases mem_set_cases hd with rfl | ⟨m, hm, hold⟩
    · exact iff_of_false hpc (mine rec' hrec' ▸ Nat.lt_irrefl _)
    · exact past m d hm hold rec' hrec'
  · rw [calls] at hd
    rcases getElem?_set_cases hd with ⟨rfl, rfl⟩ | ⟨hm, hold⟩
    · exact mine rec' hrec'
    · exact absurd ((turns.locked free).others rfl hold hm) hplace
  · rw [passOn_links]
    exact h.unjoined

theorem Series.acquire_ship (h : Series q g) (turns : Turns q) (call : q.calls[n]? = some ⟨.ship rec, .locking⟩)
    (free : q.lock = none) (ok : InOrder q (.acquire n)) :
    Series ({ q with lock := some n }.passOn n ⟨.ship rec, .locking⟩ 0 []) (g + 1) := by
  have hlsn := h.next_number turns call ok
  have hlt := (turns.numbered rec ⟨_, mem_of_getElem? call, rfl⟩).2
  have howed : owed ({ q with lock := some n }.passOn n ⟨.ship rec, .locking⟩ 0 []) = q.conns :=
    owed_passOn (q := { q with lock := some n }) rfl call 0 []
  refine h.acquire turns call free (fun rec' hrec' => ?_) (fun m d hm hold rec' hrec' => ?_) (hlsn ▸ hlt) fun r rp hrp => ?_
  · cases hrec'
    exact hlsn
  · -- Another call has another number.
    have hne : rec'.lsn ≠ g + 1 := fun heq => hm (turns.distinct m n d _ hold call rec' rec hrec' rfl (heq.trans hlsn.symm))
    rw [h.past d (mem_of_getElem? hold) rec' hrec']
    exact ⟨fun hgt => lt_of_le_of_ne hgt hne.symm, fun hgt => lt_trans (Nat.lt_succ_self g) hgt⟩
  · have hline := h.lines r rp hrp
    have htrail : trail ({ q with lock := some n }.passOn n ⟨.ship rec, .locking⟩ 0 []) rp = q.trail rp := by
      simp [trail, stream]
    refine ⟨htrail ▸ hline.chain, htrail ▸ fun m hm => Nat.le_succ_of_le (hline.below m hm), fun s hs k hk hconn hsev m hm => ?_⟩
    have hold : s.link ∈ q.conns := passOn_conns_subset { q with lock := some n } _ _ _ _ _ hconn
    have hlast := hline.last s hs k (by simpa using hk) hold hsev m (htrail ▸ hm)
    rw [owed_of_free free, if_neg not_mem_nil] at hlast
    rw [howed, if_pos hold, hlast]

section
variable (h : Series q g) (wire : Wire q)
include h wire

theorem Series.acquire_heartbeat (turns : Turns q) {lastLsn : Lsn}
    (call : q.calls[n]? = some ⟨.heartbeat lastLsn, .locking⟩) (free : q.lock = none) :
    Series ({ q with lock := some n }.passOn n ⟨.heartbeat lastLsn, .locking⟩ 0 []) g := by
  have howed : owed ({ q with lock := some n }.passOn n ⟨.heartbeat lastLsn, .locking⟩ 0 []) = [] :=
    owed_passOn (q := { q with lock := some n }) rfl call 0 []
  refine h.acquire turns call free nofun (fun m d _ hold => h.past d (mem_of_getElem? hold)) h.bound fun r rp hrp =>
    h.line_same wire hrp fun s hs k hk => ⟨k, by simpa using hk, rfl, fun hsev hconn => ⟨hsev, ?_, ?_⟩⟩
  · exact passOn_conns_subset { q with lock := some n } _ _ _ _ _ hconn
  · rw [howed, owed_of_free free]

theorem Series.passOn (turns : Turns q) (call : q.calls[n]? = some c) (place : c.pc.place = some (i, dead))
    (conn : q.conns[i]? = some l) (link : q.links[l]? = some k) (k' : Link) (joined : k'.joined = k.joined)
    (sameNumbers : numbers k'.toReplica = numbers k.toReplica) (severed : k'.severed = false → k.severed = false)
    (dead' : List Nat) (owed : ∀ m, (m = l → k'.severed = false) → (m ∈ c.request.owes (i + 1) q.conns ↔ m ∈ q.owed)) :
    Series ((q.setLink l k').passOn n c (i + 1) dead') g := by
  obtain ⟨mine, -⟩ := turns.turn n c call i dead place
  refine h.goOn call (by simp [place]) ((q.setLink l k').passOn_calls_ne_locking n c (i + 1) dead') (by simp) ?_
    (h.lines_same wire (by simp) fun r rp hrp s hs => ?_)
  · rw [passOn_links]
    exact h.unjoined_setLink turns conn link k' joined
  · refine sameLink_of_set link k' (by simp) sameNumbers severed (passOn_conns_subset (q.setLink l k') _ _ _ _) fun hlive => ?_
    rw [owed_passOn (q := q.setLink l k') mine call]
    exact owed s.link hlive

theorem Series.giveUp (turns : Turns q) (call : q.calls[n]? = some ⟨.ship rec, .reading i dead⟩)
    (conn : q.conns[i]? = some l) (link : q.links[l]? = some k) (k' : Link) (joined : k'.joined = k.joined)
    (sameReplica : k'.toReplica = k.toReplica) (severed : k'.severed = k.severed)
    (behind : ∀ m ∈ q.conns.drop (i + 1), q.inUse m = false) (e : ReplicationError) :
    Series ((q.setLink l k').giveUp n ⟨.ship rec, .reading i dead⟩ e) g := by
  obtain ⟨mine, -⟩ := turns.turn n _ call i dead rfl
  have howed : q.owed = q.conns.drop (i + 1) := owed_eq mine call
  refine h.goOn call (by simp [Pc.place]) ⟨_, by simp, rfl⟩ rfl (h.unjoined_setLink turns conn link k' joined)
    (h.lines_same wire rfl fun r rp hrp s hs => ?_)
  refine sameLink_of_set link k' rfl (by rw [sameReplica]) (fun hsev => severed ▸ hsev) (fun _ => id) fun _ => ?_
  have hused : q.inUse s.link = true := by
    rw [inUse, any_eq_true]
    exact ⟨rp, mem_of_getElem? hrp, (Option.any_eq_true _ _).2 ⟨s, hs, decide_eq_true rfl⟩⟩
  refine iff_of_false ?_ fun hl => ?_
  · rw [owed_of_free (q := (q.setLink l k').giveUp n ⟨.ship rec, .reading i dead⟩ e) rfl]
    exact not_mem_nil
  · rw [howed] at hl
    rw [behind s.link hl] at hused
    cases hused

theorem Series.wrote (turns : Turns q) (call : q.calls[n]? = some ⟨.ship rec, .writing i dead⟩)
    (conn : q.conns[i]? = some l) (link : q.links[l]? = some k) :
    Series ((q.setLink l (k.deliver (.walRecord rec))).setPc n ⟨.ship rec, .writing i dead⟩ (.reading i dead)) g := by
  obtain ⟨mine, hi, -⟩ := turns.turn n _ call i dead rfl
  have hlsn : rec.lsn = g := h.holder n _ call rec rfl (by simp [Pc.place])
  have hbefore : q.owed = q.conns.drop i := owed_eq mine call
  have hafter : owed ((q.setLink l (k.deliver (.walRecord rec))).setPc n ⟨.ship rec, .writing i dead⟩ (.reading i dead)) =
      q.conns.drop (i + 1) :=
    owed_eq (q := (q.setLink l (k.deliver (.walRecord rec))).setPc n _ (.reading i dead)) mine (getElem?_set_self call _)
  have hcons : q.conns.drop i = l :: q.conns.drop (i + 1) := by
    obtain ⟨hi, rfl⟩ := List.getElem?_eq_some_iff.1 conn
    exact drop_eq_getElem_cons hi
  have hpaid : l ∉ q.conns.drop (i + 1) := by
    have hnodup : (q.conns.drop i).Nodup := turns.nodup.sublist (drop_sublist i _)
    rw [hcons] at hnodup
    exact (nodup_cons.1 hnodup).1
  refine h.goOn call (by simp [Pc.place]) ⟨_, by simp, rfl⟩ rfl
    (h.unjoined_setLink turns conn link _ (deliver_joined k _)) fun r rp hrp => ?_
  have hline := h.lines r rp hrp
  by_cases hread : ∃ s, rp.session = some s ∧ s.link = l ∧ k.severed = false
  · obtain ⟨s, hs, rfl, halive⟩ := hread
    refine hline.deliver hs link halive (mem_of_getElem? conn) (by rw [hbefore, hcons]; exact mem_cons_self) ?_ hlsn
      (hafter ▸ hpaid)
    have hdelivered : k.deliver (.walRecord rec) = { k with toReplica := k.toReplica ++ [.walRecord rec] } := by
      rw [Link.deliver, if_neg (by simp [halive])]
    rw [← hdelivered]
    exact getElem?_set_self link _
  · -- The replica reads from another connection, or what is written does not arrive.
    refine h.line_same wire hrp fun s hs d hd => ?_
    by_cases hl : s.link = l
    · have hsev : k.severed = true := by
        rw [← Bool.not_eq_false]
        exact fun halive => hread ⟨s, hs, hl, halive⟩
      subst hl
      obtain rfl := Option.some.inj (link.symm.trans hd)
      refine ⟨_, getElem?_set_self link _, ?_, fun hnot => ?_⟩
      · rw [Link.deliver, if_pos hsev]
      · rw [deliver_severed, hsev] at hnot
        cases hnot
    · refine ⟨d, (getElem?_set_ne (Ne.symm hl)).trans hd, rfl, fun halive hconn => ⟨halive, hconn, ?_⟩⟩
      rw [hafter, hbefore, hcons, mem_cons]
      exact ⟨.inr, fun hin => hin.resolve_left hl⟩

theorem Series.join (link : q.links[l]? = some k) (new : k.joined = false) (free : q.lock = none)
    (ok : InOrder q (.join l)) : Series ({ q with conns := q.conns ++ [l] }.setLink l { k with joined := true }) g := by
  have howed : owed ({ q with conns := q.conns ++ [l] }.setLink l { k with joined := true }) = [] := owed_of_free free
  have hempty := h.unjoined l k link new
  refine ⟨h.filled, h.past, h.holder, h.bound, fun m d hd hnot => ?_, fun r rp hrp => ?_⟩
  · rcases getElem?_set_cases hd with ⟨-, rfl⟩ | ⟨-, hold⟩
    · cases hnot
    · exact h.unjoined m d hold hnot
  · have hline := h.lines r rp hrp
    by_cases hread : ∃ s, rp.session = some s ∧ s.link = l
    · obtain ⟨s, hs, rfl⟩ := hread
      have htrail : trail ({ q with conns := q.conns ++ [s.link] }.setLink s.link { k with joined := true }) rp =
          rp.applied.map WalRecordMsg.lsn := by
        rw [trail, stream_of_session hs (getElem?_set_self link _), hempty]
        exact append_nil _
      refine ⟨htrail ▸ hline.applied.1, htrail ▸ hline.applied.2, fun t ht d hd _ _ m hm => ?_⟩
      rw [howed, if_neg not_mem_nil]
      rw [htrail] at hm
      -- Nothing behind what the replica has applied was sent.
      refine le_antisymm (hline.applied.2 m (mem_of_getLast? hm)) ?_
      rcases Nat.eq_zero_or_pos g with rfl | hpos
      · exact Nat.zero_le m
      · obtain ⟨rec, ⟨c, hc, hrec⟩, hlsn⟩ := h.filled g hpos h.bound
        have hpast : c.pc ≠ .locking := fun hlocking =>
          absurd ((h.past c hc rec hrec).1 hlocking) (by rw [hlsn]; exact Nat.lt_irrefl _)
        rw [getLast?_map] at hm
        obtain ⟨last, hlast, rfl⟩ := Option.map_eq_some_iff.1 hm
        rw [← hlsn]
        exact ok rp (mem_of_getElem? hrp) s hs rfl last hlast c hc hpast rec (by simp [Request.record, hrec])
    · refine h.line_same wire hrp fun s hs d hd => ?_
      have hne : s.link ≠ l := fun heq => hread ⟨s, hs, heq⟩
      refine ⟨d, (getElem?_set_ne (Ne.symm hne)).trans hd, rfl, fun hsev hconn => ⟨hsev, ?_, ?_⟩⟩
      · exact (mem_append.1 hconn).resolve_right fun hin => hne (mem_singleton.1 hin)
      · rw [howed, owed_of_free free]

/-! ### Steps of a replica -/

theorem Series.replica (replica : q.replicas[r]? = some rp) (session : rp.session = some s)
    (link : q.links[s.link]? = some k) (k' : Link) (joined : k'.joined = k.joined)
    (empty : k.toReplica = [] → k'.toReplica = []) (rp' : Replica)
    (line : ((q.setLink s.link k').setReplica r rp').Line g rp') :
    Series ((q.setLink s.link k').setReplica r rp') g := by
  refine ⟨h.filled, h.past, h.holder, h.bound, fun m d hd hnot => ?_, fun r₁ rp₁ hrp₁ => ?_⟩
  · rcases getElem?_set_cases hd with ⟨-, rfl⟩ | ⟨-, hold⟩
    · exact empty (h.unjoined s.link k link (joined ▸ hnot))
    · exact h.unjoined m d hold hnot
  · rcases getElem?_set_cases hrp₁ with ⟨-, rfl⟩ | ⟨hr, hold⟩
    · exact line
    · obtain ⟨k₁, hk₁, hown⟩ := wire.owner r rp replica s session
      obtain rfl := Option.some.inj (link.symm.trans hk₁)
      refine h.line_same wire hold fun t ht d hd => ?_
      -- Two replicas do not read from one connection.
      have hne : t.link ≠ s.link := by
        intro heq
        obtain ⟨d', hd', hown'⟩ := wire.owner r₁ rp₁ hold t ht
        rw [heq] at hd'
        obtain rfl := Option.some.inj (link.symm.trans hd')
        exact hr (hown'.symm.trans hown)
      exact ⟨d, (getElem?_set_ne (Ne.symm hne)).trans hd, rfl, fun hsev hconn => ⟨hsev, hconn, Iff.rfl⟩⟩

theorem Series.connect (turns : Turns q) (replica : q.replicas[r]? = some rp) :
    Series ({ q with links := q.links ++ [Link.opened r] }.setReplica r
      { rp with session := some ⟨q.links.length, 0, .receiving⟩ }) g := by
  refine ⟨h.filled, h.past, h.holder, h.bound, fun m d hd hnot => ?_, fun r₁ rp₁ hrp₁ => ?_⟩
  · rcases getElem?_append_cases hd with hold | ⟨-, rfl⟩
    · exact h.unjoined m d hold hnot
    · rfl
  · rcases getElem?_set_cases hrp₁ with ⟨-, rfl⟩ | ⟨-, hold⟩
    · refine (h.lines r rp replica).quiet rfl ?_ fun s hs hconn => ?_
      · rw [stream_of_session rfl (k := Link.opened r) (by simp)]
        rfl
      · cases hs
        obtain ⟨k, hk, -⟩ := turns.joined _ hconn
        simp at hk
    · exact h.line_same wire hold fun t ht d hd =>
        ⟨d, getElem?_append_of_some hd _, rfl, fun hsev hconn => ⟨hsev, hconn, Iff.rfl⟩⟩

theorem Series.drop (replica : q.replicas[r]? = some rp) : Series (q.setReplica r { rp with session := none }) g := by
  refine ⟨h.filled, h.past, h.holder, h.bound, h.unjoined, fun r₁ rp₁ hrp₁ => ?_⟩
  rcases getElem?_set_cases hrp₁ with ⟨-, rfl⟩ | ⟨-, hold⟩
  · exact (h.lines r rp replica).idle rfl rfl
  · exact h.line_same wire hold fun t ht d hd => ⟨d, hd, rfl, fun hsev hconn => ⟨hsev, hconn, Iff.rfl⟩⟩

/-! ### Runs -/

/-- An action keeps the records of each replica in series. -/
theorem Series.step (turns : Turns q) (ok : InOrder q a) (hs : step blake3 q a = some q') : ∃ g', Series q' g' := by
  -- The connection that the call at hand is at.
  have linkOf {i l : Nat} (conn : q.conns[i]? = some l) : ∃ k, q.links[l]? = some k := by
    obtain ⟨k, hk, -⟩ := turns.joined l (mem_of_getElem? conn)
    exact ⟨k, hk⟩
  cases step_effect hs with
  | ship =>
    refine ⟨g, h.call wire rfl (Nat.le_succ _) (fun rec hrec => ?_) fun m hle hlt => ⟨_, rfl, ?_⟩⟩
    · cases hrec
      exact Nat.le_refl _
    · exact le_antisymm hle (Nat.lt_succ_iff.1 hlt)
  | heartbeat =>
    refine ⟨g, h.call wire rfl (Nat.le_refl _) (fun rec hrec => ?_) fun m hle hlt => ?_⟩
    · cases hrec
    · exact absurd hlt (not_lt_of_ge hle)
  | @acquire n c call waiting free =>
    obtain ⟨request, pc⟩ := c
    obtain rfl : pc = .locking := waiting
    cases request with
    | ship => exact ⟨g + 1, h.acquire_ship turns call free ok⟩
    | heartbeat => exact ⟨g, h.acquire_heartbeat wire turns call free⟩
  | wrote call conn link => exact ⟨g, h.wrote wire turns call conn link⟩
  | @beat n i l lastLsn dead k call conn link =>
    have howed : q.owed = [] := owed_eq (turns.turn n _ call i dead rfl).1 call
    exact ⟨g, h.passOn wire turns call rfl conn link _ (deliver_joined k _) (numbers_deliver_heartbeat k lastLsn)
      (fun hsev => deliver_severed k _ ▸ hsev) dead fun m _ => by rw [howed]; rfl⟩
  | @writeFailed n i l request dead k call conn link =>
    have howed : q.owed = request.owes i q.conns := owed_eq (turns.turn n _ call i dead rfl).1 call
    refine ⟨g, h.passOn wire turns call rfl conn link { k with severed := true } rfl rfl (by simp) (dead ++ [i])
      fun m hlive => ?_⟩
    rw [howed]
    exact mem_owes_succ request conn fun heq => by simpa using hlive heq
  | @answered n i l rec dead k a lines call conn link next =>
    have howed : q.owed = q.conns.drop (i + 1) := owed_eq (turns.turn n _ call i dead rfl).1 call
    have onward (dead' : List Nat) : Series ((q.setLink l { k with toPrimary := lines }).passOn n
        ⟨.ship rec, .reading i dead⟩ (i + 1) dead') g :=
      h.passOn wire turns call rfl conn link { k with toPrimary := lines } rfl rfl id dead' fun m _ => by rw [howed]; rfl
    rcases a with _ | (got | lastLsn | ⟨which, message⟩)
    · exact ⟨g, onward dead⟩
    · by_cases hgot : got = rec.lsn
      · subst hgot
        simp only [takeAnswer, ne_eq, not_true, if_false]
        exact ⟨g, onward dead⟩
      · simp only [takeAnswer, ne_eq, hgot, not_false_eq_true, if_true]
        refine ⟨g, h.giveUp wire turns call conn link { k with toPrimary := lines } rfl rfl rfl ?_ _⟩
        exact ok _ call rec rfl _ rfl l conn k link (by simp [next, stops, hgot])
    · exact ⟨g, onward dead⟩
    · exact ⟨g, onward (dead ++ [i])⟩
  | @torn n i l rec dead k a lines call conn link =>
    exact ⟨g, h.giveUp wire turns call conn link { k with toPrimary := none :: lines } rfl rfl rfl
      (ok _ call rec rfl _ rfl l conn k link rfl) _⟩
  | @timedOut n i l rec dead call conn =>
    obtain ⟨k, link⟩ := linkOf conn
    have hsame := h.giveUp wire turns call conn link k rfl rfl rfl (ok _ call rec rfl _ rfl l conn k link rfl)
      (.ackTimeout rec.lsn q.ackTimeoutMs)
    rw [setLink_self link] at hsame
    exact ⟨g, hsame⟩
  | @readFailed n i l rec dead call conn =>
    obtain ⟨k, link⟩ := linkOf conn
    have howed : q.owed = q.conns.drop (i + 1) := owed_eq (turns.turn n _ call i dead rfl).1 call
    have hsame := h.passOn wire turns call rfl conn link k rfl rfl id (dead ++ [i]) fun m _ => by rw [howed]; rfl
    rw [setLink_self link] at hsame
    exact ⟨g, hsame⟩
  | @closed n i l rec dead call conn =>
    obtain ⟨k, link⟩ := linkOf conn
    have hsame := h.giveUp wire turns call conn link k rfl rfl rfl (ok _ call rec rfl _ rfl l conn k link rfl) .streamEnded
    rw [setLink_self link] at hsame
    exact ⟨g, hsame⟩
  | join link new free => exact ⟨g, h.join wire link new free ok⟩
  | connect replica => exact ⟨g, h.connect wire turns replica⟩
  | @applied r rp s k rec msgs recordBytes replica session link next
  | @beaten r rp s k lastLsn msgs outcome replica session link next =>
    refine ⟨g, h.replica wire replica session link { k with toReplica := msgs } rfl (by simp [next]) _ ?_⟩
    refine (h.lines r rp replica).goOn session link (by rfl) (by rfl) (getElem?_set_self link _) ?_ rfl rfl rfl
    simp [next, numbers]
  | @refused r rp s k rec msgs outcome wal answers replica session link next =>
    refine ⟨g, h.replica wire replica session link { k with toReplica := msgs, toPrimary := k.toPrimary ++ answers } rfl
      (by simp [next]) _ ?_⟩
    exact (h.lines r rp replica).idle rfl rfl
  | @replied r rp s k a replica session link =>
    refine ⟨g, h.replica wire replica session link { k with toPrimary := k.toPrimary ++ [some a] } rfl id _ ?_⟩
    exact (h.lines r rp replica).goOn session link (by rfl) (by rfl) (getElem?_set_self link _) rfl rfl rfl rfl
  | @lost r rp s k torn left next replica session link noAck goesOn =>
    refine ⟨g, h.replica wire replica session link { k with toPrimary := k.toPrimary ++ left } rfl id _ ?_⟩
    rcases goesOn with rfl | rfl
    · exact (h.lines r rp replica).idle rfl rfl
    · exact (h.lines r rp replica).goOn session link (by rfl) (by rfl) (getElem?_set_self link _) rfl rfl rfl rfl
  | drop replica => exact ⟨g, h.drop wire replica⟩

end

theorem Series.start (ackTimeoutMs replicas : Nat) : Series (start ackTimeoutMs replicas) 0 := by
  refine ⟨fun m hm hlt => ?_, by simp [Network.start], by simp [Network.start], Nat.zero_lt_one, by simp [Network.start],
    fun r rp hrp => ?_⟩
  · exact absurd hlt (not_lt_of_ge hm)
  · obtain rfl : rp = ⟨none, [], []⟩ := eq_of_mem_replicate (mem_of_getElem? hrp)
    exact ⟨isChain_nil, by simp [trail, stream], by simp⟩

/-- In every run in which the steps are in order, the numbers that a replica applies go up by one. -/
theorem applied_consecutive (h : Run.Reachable (step blake3) InOrder (start ackTimeoutMs replicas) q) :
    ∀ rp ∈ q.replicas, Consecutive (rp.applied.map WalRecordMsg.lsn) := by
  obtain ⟨-, -, g, hseries⟩ := h.invariant (P := fun q => Wire q ∧ Turns q ∧ ∃ g, Series q g)
    ⟨.start _ _, .start _ _, 0, .start _ _⟩ fun s a t ⟨wire, turns, g, hseries⟩ ok hs =>
      ⟨wire.step hs, turns.step hs, hseries.step wire turns ok hs⟩
  intro rp hrp
  obtain ⟨r, hr⟩ := mem_iff_getElem?.1 hrp
  exact (hseries.lines r rp hr).applied.1

def appliedNumbers (q : Network) : List (List Lsn) := q.replicas.map fun rp => rp.applied.map WalRecordMsg.lsn

namespace Sample

def blank (_ : List UInt8) : Hash := zeroHash

def exchange (n r : Nat) : List Action := [.write n true, .receive r .all, .answer r .sent, .read n .line]

def first : List Action := [.connect 0, .join 0, .ship [7] 0, .acquire 0] ++ exchange 0 0

def reconnecting : List Action := first ++ [.drop 0, .connect 0, .join 1, .ship [8] 0, .acquire 1, .write 1 false, .write 1 true,
  .receive 0 .all]

def overtaking : List Action :=
  [.connect 0, .join 0, .ship [7] 0, .ship [8] 0, .acquire 1] ++ exchange 1 0 ++ [.acquire 0, .write 0 true, .receive 0 .all]

def away : List Action :=
  first ++ [.drop 0, .ship [8] 0, .acquire 1, .write 1 false, .connect 0, .join 1, .ship [9] 0, .acquire 2, .write 2 true,
    .receive 0 .all]

/-- A read that is given up on one connection leaves the replica behind the other without the record. -/
def skipping : List Action :=
  [.connect 0, .connect 1, .join 0, .join 1, .ship [7] 0, .acquire 0] ++ exchange 0 0 ++ exchange 0 1 ++
    [.ship [8] 0, .acquire 1, .write 1 true, .read 1 (.timedOut false), .ship [9] 0, .acquire 2, .write 2 true,
      .read 2 .failed, .write 2 true, .receive 1 .all]

end Sample

open Network.Sample

theorem applied_consecutive_reconnected :
    ∃ q, Run.Reachable (step blank) InOrder (start 1000 1) q ∧ q.appliedNumbers = [[1, 2]] ∧
      ∀ rp ∈ q.replicas, Consecutive (rp.applied.map WalRecordMsg.lsn) := by
  have hq : Run.exec (step blank) (start 1000 1) reconnecting = some _ := rfl
  have run := Run.reachable_of_exec (by decide +kernel : Run.Allowed _ InOrder _ _) hq
  exact ⟨_, run, by decide +kernel, applied_consecutive run⟩

/-- Numbers applied in another order, and numbers left out. -/
theorem applied_out_of_order :
    ∃ q₁ q₂ q₃, Run.exec (step blank) (start 1000 1) overtaking = some q₁ ∧ q₁.appliedNumbers = [[2, 1]] ∧
      Run.exec (step blank) (start 1000 1) away = some q₂ ∧ q₂.appliedNumbers = [[1, 3]] ∧
      Run.exec (step blank) (start 1000 2) skipping = some q₃ ∧ q₃.appliedNumbers = [[1], [1, 3]] ∧
      ¬ Consecutive [2, 1] ∧ ¬ Consecutive [1, 3] :=
  ⟨_, _, _, rfl, by decide +kernel, rfl, by decide +kernel, rfl, by decide +kernel, by simp [Consecutive],
    by simp [Consecutive]⟩

end Network

end VectorLedger.Replication
