import VectorLedger.Theorems.Network

/-! When ship returns a number, and whether the replicas that are left have applied its record. -/

namespace VectorLedger.Replication

open List Slots

def answersRecord : Option AckMessage → Bool
  | some (.ack _) | some (.error _ _) => true
  | some (.heartbeatAck _) | none => false

namespace Network

variable {blake3 : List UInt8 → Hash} {q q₁ q' : Network} {a : Action} {n i l r : Nat} {c : Call} {k : Link}
  {rp : Replica} {dead : List Nat} {rec : WalRecordMsg} {lsn : Lsn} {ackTimeoutMs replicas : Nat}

/-- The replica at this connection has applied the record. -/
def Reached (q : Network) (l : Nat) (rec : WalRecordMsg) : Prop := ∃ k, q.links[l]? = some k ∧ q.HasApplied k.replica rec

/-- A call that ships the record was under way, and has returned this number. -/
def Returns (q q' : Network) (n : Nat) (rec : WalRecordMsg) (lsn : Lsn) : Prop :=
  (∃ pc, q.calls[n]? = some ⟨.ship rec, pc⟩ ∧ ∀ result, pc ≠ .done result) ∧
    q'.calls[n]? = some ⟨.ship rec, .done (.ok lsn)⟩

/-- A line that a shipping call reads is about a record, not the answer to a heartbeat. -/
def Answered (q : Network) : Action → Prop
  | .read n .line => ∀ c ∈ q.calls[n]?, ∀ x ∈ c.pc.place, ∀ l ∈ q.conns[x.1]?, ∀ k ∈ q.links[l]?,
    ∀ a ∈ k.toPrimary.head?, answersRecord a = true
  | _ => True

instance : DecidablePred (Answered q) := fun a => by
  unfold Answered
  split <;> infer_instance

/-- The connections that a call has passed, those that failed apart, are of replicas that have applied its record. -/
def Passed (q : Network) : Prop :=
  ∀ (n : Nat) (c : Call) rec, q.calls[n]? = some c → c.request = .ship rec → ∀ i dead, c.pc.place = some (i, dead) →
    ∀ j l, j < i → j ∉ dead → q.conns[j]? = some l → q.Reached l rec

/-- What a step has to show: the invariant, and the property if ship returns a number. -/
structure Progress (q q' : Network) : Prop where
  passed : Passed q'
  returned : ∀ n rec lsn, Returns q q' n rec lsn → rec.lsn = lsn ∧ ∀ l ∈ q'.conns, q'.Reached l rec

theorem Progress.congr (h : Progress q₁ q') (calls : q₁.calls = q.calls) : Progress q q' := by
  refine ⟨h.passed, fun n rec lsn hret => h.returned n rec lsn ?_⟩
  unfold Returns
  rw [calls]
  exact hret

/-! ### Replicas that have applied a record -/

theorem Reached.setLink (h : q.Reached l rec) {m : Nat} (link : q.links[m]? = some k) (k' : Link)
    (same : k'.replica = k.replica) : (q.setLink m k').Reached l rec := by
  obtain ⟨d, hd, happlied⟩ := h
  by_cases hm : l = m
  · subst hm
    obtain rfl := Option.some.inj (link.symm.trans hd)
    exact ⟨k', getElem?_set_self link k', same ▸ happlied⟩
  · exact ⟨d, (getElem?_set_ne (Ne.symm hm)).trans hd, happlied⟩

theorem Reached.setReplica (h : q.Reached l rec) (replica : q.replicas[r]? = some rp) (rp' : Replica)
    (grows : ∀ rec ∈ rp.applied, rec ∈ rp'.applied) : (q.setReplica r rp').Reached l rec := by
  obtain ⟨k, hk, happlied⟩ := h
  exact ⟨k, hk, happlied.setReplica replica grows⟩

/-! ### Steps -/

theorem Passed.quiet (h : Passed q) (calls : q'.calls = q.calls) (conns : q'.conns = q.conns)
    (reached : ∀ l rec, q.Reached l rec → q'.Reached l rec) : Progress q q' := by
  refine ⟨fun n c rec hc hrequest i dead hplace j l hj hdead hl => ?_, fun n rec lsn hret => ?_⟩
  · rw [calls] at hc
    rw [conns] at hl
    exact reached l rec (h n c rec hc hrequest i dead hplace j l hj hdead hl)
  · obtain ⟨⟨pc, hc, hpc⟩, hdone⟩ := hret
    rw [calls, hc] at hdone
    cases hdone
    exact absurd rfl (hpc _)

theorem Passed.call (h : Passed q) (waiting : c.pc = .locking) (nextLsn : Lsn) :
    Progress q { q with nextLsn := nextLsn, calls := q.calls ++ [c] } := by
  refine ⟨fun n d rec hd hrequest i dead hplace => ?_, fun n rec lsn hret => ?_⟩
  · rcases getElem?_append_cases hd with hold | ⟨-, rfl⟩
    · exact h n d rec hold hrequest i dead hplace
    · rw [waiting] at hplace
      cases hplace
  · obtain ⟨⟨pc, hc, hpc⟩, hdone⟩ := hret
    rw [getElem?_append_of_some hc] at hdone
    cases hdone
    exact absurd rfl (hpc _)

theorem goOn_progress {pc : Pc} (turns : Turns q) (mine : q.lock = some n)
    (calls : q'.calls = q.calls.set n { c with pc := pc }) (notOk : ∀ lsn, pc ≠ .done (.ok lsn))
    (upto : ∀ rec, c.request = .ship rec → ∀ i dead, pc.place = some (i, dead) → ∀ j l, j < i → j ∉ dead →
      q'.conns[j]? = some l → q'.Reached l rec) : Progress q q' := by
  refine ⟨fun m d rec hd hrequest i dead hplace => ?_, fun m rec lsn hret => ?_⟩
  · rw [calls] at hd
    rcases getElem?_set_cases hd with ⟨rfl, rfl⟩ | ⟨hm, hold⟩
    · exact upto rec hrequest i dead hplace
    · rw [turns.others mine hold hm] at hplace
      cases hplace
  · obtain ⟨⟨pc', hc, hpc⟩, hdone⟩ := hret
    rw [calls] at hdone
    rcases getElem?_set_cases hdone with ⟨-, heq⟩ | ⟨-, hold⟩
    · exact absurd (Call.mk.inj heq).2.symm (notOk lsn)
    · rw [hc] at hold
      cases hold
      exact absurd rfl (hpc _)

theorem giveUp_progress (turns : Turns q) (mine : q.lock = some n) (c : Call) (e : ReplicationError) :
    Progress q (q.giveUp n c e) :=
  goOn_progress turns mine rfl (by simp) fun _ _ _ _ hplace => by cases hplace

theorem passOn_progress (turns : Turns q) (mine : q.lock = some n) (sorted : dead.Pairwise (· < ·))
    (below : ∀ d ∈ dead, d < i) (inside : i ≤ q.conns.length)
    (upto : ∀ rec, c.request = .ship rec → ∀ j l, j < i → j ∉ dead → q.conns[j]? = some l → q.Reached l rec) :
    Progress q (q.passOn n c i dead) := by
  by_cases hi : i < q.conns.length
  · rw [passOn, if_pos hi]
    refine goOn_progress turns mine rfl (by simp) fun rec hrequest i' dead' hplace => ?_
    cases hplace
    exact upto rec hrequest
  · rw [passOn, if_neg hi]
    refine ⟨fun m d rec hd hrequest i' dead' hplace => ?_, fun m rec lsn hret => ?_⟩
    · rcases getElem?_set_cases hd with ⟨rfl, rfl⟩ | ⟨hm, hold⟩
      · simp [returned, show c.request = .ship rec from hrequest, Pc.place] at hplace
      · rw [turns.others mine hold hm] at hplace
        cases hplace
    · obtain ⟨⟨pc, hc, hpc⟩, hdone⟩ := hret
      rcases getElem?_set_cases hdone with ⟨rfl, heq⟩ | ⟨-, hold⟩
      · obtain ⟨hrequest, hlsn⟩ := Call.mk.inj heq
        rw [← hrequest] at hlsn
        obtain rfl : lsn = rec.lsn := Except.ok.inj (Pc.done.inj hlsn)
        refine ⟨rfl, fun l hl => ?_⟩
        have hperm := @removeDead_perm _ q.conns _ sorted fun d hd => lt_of_lt_of_le (below d hd) inside
        obtain ⟨j, halive, hj⟩ := mem_survivors.1 (hperm.mem_iff.1 hl)
        have hjlt := (List.getElem?_eq_some_iff.1 hj).1
        exact upto rec hrequest.symm j l (by omega) halive hj
      · rw [hc] at hold
        cases hold
        exact absurd rfl (hpc _)

theorem upto_failed {P : Nat → Prop} (h : ∀ j l, j < i → j ∉ dead → q.conns[j]? = some l → P l) :
    ∀ j l, j < i + 1 → j ∉ dead ++ [i] → q.conns[j]? = some l → P l := by
  intro j l hj hdead
  rw [mem_append, mem_singleton, not_or] at hdead
  exact h j l (by omega) hdead.1

theorem upto_next {P : Nat → Prop} (h : ∀ j l, j < i → j ∉ dead → q.conns[j]? = some l → P l) (conn : q.conns[i]? = some l)
    (hl : P l) : ∀ j l, j < i + 1 → j ∉ dead → q.conns[j]? = some l → P l := by
  intro j m hj hdead hm
  rcases Nat.lt_succ_iff_lt_or_eq.1 hj with hlt | rfl
  · exact h j m hlt hdead hm
  · exact Option.some.inj (conn.symm.trans hm) ▸ hl

theorem reached_of_ack (wire : Wire q) (turns : Turns q) (link : q.links[l]? = some k) (ships : q.Ships rec)
    (hack : some (.ack rec.lsn) ∈ k.toPrimary) : q.Reached l rec := by
  obtain ⟨rec', happlied, hlsn⟩ := wire.acks l k link rec.lsn hack
  obtain rfl := turns.record_unique (wire.applied _ _ happlied) ships hlsn
  exact ⟨k, link, happlied⟩

/-- After an action the connections that a call has passed have still applied its record. -/
theorem Passed.step (h : Passed q) (wire : Wire q) (turns : Turns q) (ok : Answered q a) (hs : step blake3 q a = some q') :
    Progress q q' := by
  -- The connections that the call at hand has passed, after a write or a read on one of them.
  have linked {n i m : Nat} {c : Call} {dead : List Nat} {d : Link} (call : q.calls[n]? = some c)
      (place : c.pc.place = some (i, dead)) (link : q.links[m]? = some d) (d' : Link) (same : d'.replica = d.replica) :
      ∀ rec, c.request = .ship rec → ∀ j l, j < i → j ∉ dead → (q.setLink m d').conns[j]? = some l →
        (q.setLink m d').Reached l rec :=
    fun rec hrequest j l hj hdead hl => (h n c rec call hrequest i dead place j l hj hdead hl).setLink link d' same
  cases step_effect hs with
  | ship | heartbeat => exact h.call rfl _
  | @acquire n c call waiting free =>
    have hlocked : Turns { q with lock := some n } := turns.locked free
    exact (passOn_progress hlocked rfl List.Pairwise.nil (by simp) (Nat.zero_le _) (by simp)).congr rfl
  | @wrote n i l rec dead k call conn link =>
    obtain ⟨mine, -⟩ := turns.turn n _ call i dead rfl
    refine (goOn_progress (turns.setLink link _ fun hj => (deliver_joined k (.walRecord rec)).trans hj) mine rfl (by simp)
      fun rec' hrequest i' dead' hplace => ?_).congr rfl
    cases hplace
    exact linked call rfl link _ (deliver_replica k _) rec' hrequest
  | @beat n i l lastLsn dead k call conn link =>
    obtain ⟨mine, inside, sorted, below⟩ := turns.turn n _ call i dead rfl
    refine (passOn_progress (turns.setLink link _ fun hj => (deliver_joined k (.heartbeat lastLsn)).trans hj) mine sorted
      (fun d hd => Nat.lt_succ_of_lt (below d hd)) inside fun rec hrequest => ?_).congr rfl
    cases hrequest
  | @writeFailed n i l request dead k call conn link =>
    obtain ⟨mine, inside, sorted, below⟩ := turns.turn n _ call i dead rfl
    refine (passOn_progress (turns.setLink link { k with severed := true } id) mine (sorted_concat sorted below)
      (below_concat below) inside fun rec hrequest => ?_).congr rfl
    exact upto_failed (linked call rfl link { k with severed := true } rfl rec hrequest)
  | @answered n i l rec dead k a lines call conn link next =>
    obtain ⟨mine, inside, sorted, below⟩ := turns.turn n _ call i dead rfl
    have hread : Turns (q.setLink l { k with toPrimary := lines }) := turns.setLink link _ id
    have hupto := linked call rfl link { k with toPrimary := lines } rfl
    have hanswers : answersRecord a = true := ok _ call _ rfl l conn k link a (by simp [next])
    rcases (q.setLink l { k with toPrimary := lines }).takeAnswer_cases n ⟨.ship rec, .reading i dead⟩ i dead rec.lsn a with
      ⟨got, heq⟩ | ⟨hskipped, heq⟩ | heq
    · exact heq ▸ (giveUp_progress hread mine _ _).congr rfl
    · -- A line that counts as an answer is the acknowledgement of this record.
      have hack : a = some (.ack rec.lsn) := by
        rcases hskipped with hack | rfl | ⟨lastLsn, rfl⟩
        · exact hack
        · cases hanswers
        · cases hanswers
      have hreached : q.Reached l rec :=
        reached_of_ack wire turns link ⟨_, mem_of_getElem? call, rfl⟩ (by simp [next, hack])
      refine heq ▸ (passOn_progress hread mine sorted (fun d hd => Nat.lt_succ_of_lt (below d hd)) inside
        fun rec' hrequest => ?_).congr rfl
      cases hrequest
      exact upto_next (hupto rec rfl) conn (hreached.setLink link _ rfl)
    · refine heq ▸ (passOn_progress hread mine (sorted_concat sorted below) (below_concat below) inside
        fun rec' hrequest => ?_).congr rfl
      exact upto_failed (hupto rec' hrequest)
  | @torn n i l rec dead k a lines call conn link =>
    obtain ⟨mine, -⟩ := turns.turn n _ call i dead rfl
    exact (giveUp_progress (turns.setLink link { k with toPrimary := none :: lines } id) mine _ _).congr rfl
  | @timedOut n i l rec dead call | @closed n i l rec dead call =>
    exact giveUp_progress turns (turns.turn n _ call i dead rfl).1 _ _
  | @readFailed n i l rec dead call =>
    obtain ⟨mine, inside, sorted, below⟩ := turns.turn n _ call i dead rfl
    refine passOn_progress turns mine (sorted_concat sorted below) (below_concat below) inside fun rec' hrequest => ?_
    exact upto_failed (h n _ rec' call hrequest i dead rfl)
  | @join l k link new free =>
    refine ⟨fun n c rec hc hrequest i dead hplace => ?_, fun n rec lsn hret => ?_⟩
    · obtain ⟨hlock, -⟩ := turns.turn n c hc i dead hplace
      rw [free] at hlock
      cases hlock
    · obtain ⟨⟨pc, hc, hpc⟩, hdone⟩ := hret
      exact absurd (Call.mk.inj (Option.some.inj (hc.symm.trans hdone))).2 (hpc _)
  | @connect r rp replica =>
    refine h.quiet rfl rfl fun l rec hreached => ?_
    obtain ⟨k, hk, happlied⟩ := hreached
    have hopened : Reached { q with links := q.links ++ [Link.opened r] } l rec := ⟨k, getElem?_append_of_some hk _, happlied⟩
    exact hopened.setReplica replica _ fun _ => id
  | applied replica _ link =>
    exact h.quiet rfl rfl fun _ _ hreached =>
      (hreached.setLink link _ (by exact rfl)).setReplica replica _ fun _ => mem_append_left _
  | beaten _ replica _ link | refused _ _ _ replica _ link | replied replica _ link | lost _ _ _ replica _ link =>
    exact h.quiet rfl rfl fun _ _ hreached => (hreached.setLink link _ (by exact rfl)).setReplica replica _ fun _ => id
  | drop replica => exact h.quiet rfl rfl fun _ _ hreached => hreached.setReplica replica _ fun _ => id

theorem passed_of_reachable (h : Run.Reachable (step blake3) Answered (start ackTimeoutMs replicas) q) :
    Wire q ∧ Turns q ∧ Passed q := by
  refine h.invariant (P := fun q => Wire q ∧ Turns q ∧ Passed q) ⟨.start _ _, .start _ _, fun n c rec hc => by simp [start] at hc⟩ ?_
  rintro s a t ⟨wire, turns, passed⟩ ok hs
  exact ⟨wire.step hs, turns.step hs, (passed.step wire turns ok hs).passed⟩

/-- If every line that ship reads is an answer to a record, then whenever ship returns a number, the replicas still in the
    list of connections have applied the record with that number. -/
theorem applied_of_returns (h : Run.Reachable (step blake3) Answered (start ackTimeoutMs replicas) q) (ok : Answered q a)
    (hs : step blake3 q a = some q') (hret : Returns q q' n rec lsn) :
    rec.lsn = lsn ∧ ∀ l ∈ q'.conns, q'.Reached l rec := by
  obtain ⟨wire, turns, passed⟩ := passed_of_reachable h
  exact (passed.step wire turns ok hs).returned n rec lsn hret

namespace Sample

def hash (_ : List UInt8) : Hash := zeroHash

def record : WalRecordMsg := .of hash 1 [7] 0

def sending : List Action := [.connect 0, .join 0, .ship [7] 0, .acquire 0, .write 0 true]

def beating : List Action :=
  [.connect 0, .join 0, .heartbeat, .acquire 0, .write 0 true, .receive 0 .all, .answer 0 .sent,
    .ship [7] 0, .acquire 1, .write 1 true]

end Sample

open Network.Sample

theorem applied_of_returns_shipped :
    ∃ q q', Run.Reachable (step hash) Answered (start 1000 1) q ∧ step hash q (.read 0 .line) = some q' ∧
      Returns q q' 0 record 1 ∧ q'.conns = [0] ∧ q'.Reached 0 record := by
  have hq : Run.exec (step hash) (start 1000 1) (sending ++ [.receive 0 .all, .answer 0 .sent]) = some _ := rfl
  have run := Run.reachable_of_exec (by decide +kernel : Run.Allowed _ Answered _ _) hq
  exact ⟨_, _, run, rfl, ⟨⟨_, rfl, by simp⟩, rfl⟩, rfl, (applied_of_returns run (by decide +kernel)
    (rfl : step hash _ (.read 0 .line) = some _) (⟨⟨_, rfl, by simp⟩, rfl⟩ : Returns _ _ 0 record 1)).2 0 (by decide)⟩

/-- The answer to a heartbeat is taken for the answer to a record that the replica has not read. -/
theorem returns_before_applied : ∃ q q', Run.Reachable (step hash) (fun _ _ => True) (start 1000 1) q ∧
      step hash q (.read 1 .line) = some q' ∧ Returns q q' 1 record 1 ∧ q'.conns = [0] ∧
      q'.replicas.map Replica.applied = [[]] ∧ ¬ q'.Reached 0 record := by
  have hq : Run.exec (step hash) (start 1000 1) beating = some _ := rfl
  refine ⟨_, _, Run.reachable_of_exec (by decide +kernel) hq, rfl, ⟨⟨_, rfl, by simp⟩, rfl⟩, rfl, rfl, ?_⟩
  rintro ⟨k, -, rp, hrp, hrec⟩
  have hmem := mem_map_of_mem (f := Replica.applied) (mem_of_getElem? hrp)
  cases mem_singleton.1 hmem ▸ hrec

/-- No two replicas have applied different records with one number, and a replica acknowledges only records that the
    primary ships and that it has applied. -/
theorem replicas_agree (h : Run.Reachable (step blake3) (fun _ _ => True) (start ackTimeoutMs replicas) q) :
    (∀ r r' rec rec', q.HasApplied r rec → q.HasApplied r' rec' → rec.lsn = rec'.lsn → rec = rec') ∧
      ∀ l k lsn, q.links[l]? = some k → some (.ack lsn) ∈ k.toPrimary → ∃ rec, q.Ships rec ∧ rec.lsn = lsn ∧ q.Reached l rec := by
  obtain ⟨wire, turns⟩ : Wire q ∧ Turns q := h.invariant (P := fun q => Wire q ∧ Turns q) ⟨.start _ _, .start _ _⟩
    fun _ _ _ ⟨wire, turns⟩ _ hs => ⟨wire.step hs, turns.step hs⟩
  refine ⟨fun r r' rec rec' hrec hrec' => ?_, fun l k lsn link hack => ?_⟩
  · exact turns.record_unique (wire.applied r rec hrec) (wire.applied r' rec' hrec')
  · obtain ⟨rec, happlied, hlsn⟩ := wire.acks l k link lsn hack
    exact ⟨rec, wire.applied _ rec happlied, hlsn, k, link, happlied⟩

theorem replicas_agree_answered : ∃ q, Run.exec (step hash) (start 1000 1) (sending ++ [.receive 0 .all, .answer 0 .sent]) = some q ∧
    ∃ rec, q.Ships rec ∧ rec.lsn = 1 ∧ q.Reached 0 rec :=
  Run.exists_of_exec (by decide +kernel) rfl fun run => (replicas_agree run).2 0 _ 1 rfl (by decide +kernel)

/-! ### Dead connections -/

/-- The action finds that the connection at a position is dead. -/
def findsDead (q : Network) (i : Nat) : Action → Bool
  | .write _ ok => !ok
  | .read _ .failed => true
  | .read _ .line => (q.conns[i]?.bind (q.links[·]?)).any fun k =>
    match k.toPrimary with
    | some (.error _ _) :: _ => true
    | _ => false
  | _ => false

/-- The positions that a call has recorded as dead when the action is done. -/
def recorded (q : Network) (a : Action) (pc : Pc) : List Nat :=
  match pc.place with
  | some (i, dead) => if q.findsDead i a then dead ++ [i] else dead
  | none => []

section Left
variable {m : Nat} {d : Call} {dead : List Nat} (call : q.calls[n]? = some c) (running : c.pc ≠ returned c.request)
include call running

theorem not_returned (same : q'.calls[n]? = q.calls[n]?) : q'.calls[n]? ≠ some { c with pc := returned c.request } := by
  intro hret
  rw [same, call] at hret
  exact running (congrArg Call.pc (Option.some.inj hret))

theorem returned_of_set {pc : Pc} (calls : q'.calls = q.calls.set m { d with pc := pc })
    (hret : q'.calls[n]? = some { c with pc := returned c.request }) : n = m ∧ pc = returned c.request := by
  by_cases hm : n = m
  · rw [calls, hm, getElem?_set_self'] at hret
    obtain ⟨x, -, hx⟩ := Option.map_eq_some_iff.1 hret
    exact ⟨hm, congrArg Call.pc hx⟩
  · exact absurd hret (not_returned call running (calls ▸ getElem?_set_ne (Ne.symm hm)))

theorem not_returned_of_set {pc : Pc} (calls : q'.calls = q.calls.set m { d with pc := pc })
    (hpc : ∀ request, returned request ≠ pc) : q'.calls[n]? ≠ some { c with pc := returned c.request } :=
  fun hret => hpc _ (returned_of_set call running calls hret).2.symm

theorem passOn_left (links : List Link) {dead' : List Nat} (turns : Turns q) (call' : q.calls[m]? = some d)
    (place : d.pc.place = some (i, dead)) (hdead : q.recorded a d.pc = dead')
    (hret : ({ q with links := links }.passOn m d (i + 1) dead').calls[n]? = some { c with pc := returned c.request }) :
    ({ q with links := links }.passOn m d (i + 1) dead').conns.Perm (survivors q.conns (q.recorded a c.pc)) := by
  obtain ⟨-, inside, sorted, below⟩ := turns.turn m d call' i dead place
  have hsorted : dead'.Pairwise (· < ·) ∧ ∀ d ∈ dead', d < i + 1 := by
    rw [← hdead, recorded, place]
    dsimp only
    split
    · exact ⟨sorted_concat sorted below, below_concat below⟩
    · exact ⟨sorted, fun d hd => Nat.lt_succ_of_lt (below d hd)⟩
  unfold passOn at hret ⊢
  split at hret
  · cases not_returned_of_set call running rfl (by rintro (_ | _) <;> simp [returned]) hret
  · next hi =>
    obtain ⟨rfl, -⟩ := returned_of_set call running rfl hret
    obtain rfl := Option.some.inj (call.symm.trans call')
    rw [if_neg hi, hdead]
    exact removeDead_perm hsorted.1 fun d hd => lt_of_lt_of_le (hsorted.2 d hd) inside

end Left

/-- In every run, when a heartbeat or a call of ship returns without an error, the connections left are those at the
    positions that it has not recorded as dead, each once. -/
theorem connections_left (h : Run.Reachable (step blake3) (fun _ _ => True) (start ackTimeoutMs replicas) q)
    (hs : step blake3 q a = some q') (call : q.calls[n]? = some c) (running : c.pc ≠ returned c.request)
    (hret : q'.calls[n]? = some { c with pc := returned c.request }) :
    q'.conns.Perm (survivors q.conns (q.recorded a c.pc)) ∧ q'.conns.Nodup := by
  have turns : Turns q := h.invariant (.start _ _) fun _ _ _ turns _ hs => turns.step hs
  refine ⟨?_, (turns.step hs).nodup⟩
  cases step_effect hs with
  | ship | heartbeat => exact absurd hret (not_returned call running ((getElem?_append_of_some call _).trans call.symm))
  | @acquire m d call' waiting =>
    rw [passOn] at hret ⊢
    split at hret
    · cases not_returned_of_set call running rfl (by rintro (_ | _) <;> simp [returned]) hret
    · next hi =>
      have hnil : q.conns = [] := by simpa using hi
      simp [hnil, removeDead, survivors]
  | beat call' | writeFailed call' | readFailed call' => exact passOn_left call running _ turns call' rfl rfl hret
  | @answered m i l rec dead k answer lines call' conn link next =>
    have hleft {dead' : List Nat} (hdead : q.recorded (.read m .line) (.reading i dead) = dead') := passOn_left (a := .read m .line)
      call running (q.links.set l { k with toPrimary := lines }) turns call' rfl hdead
    rcases answer with _ | (got | lastLsn | ⟨which, message⟩)
    · exact hleft (by simp [recorded, Pc.place, findsDead, conn, link, next]) hret
    · by_cases hgot : got = rec.lsn
      · simp only [takeAnswer, hgot, ne_eq, not_true_eq_false, if_false] at hret ⊢
        exact hleft (by simp [recorded, Pc.place, findsDead, conn, link, next]) hret
      · simp only [takeAnswer, hgot, ne_eq, not_false_eq_true, if_true] at hret
        cases not_returned_of_set call running rfl (by rintro (_ | _) <;> simp [returned]) hret
    · exact hleft (by simp [recorded, Pc.place, findsDead, conn, link, next]) hret
    · exact hleft (by simp [recorded, Pc.place, findsDead, conn, link, next]) hret
  | wrote | torn | timedOut | closed =>
    cases not_returned_of_set call running rfl (by rintro (_ | _) <;> simp [returned]) hret
  | join | connect | applied | beaten | refused | replied | lost | drop => exact absurd hret (not_returned call running rfl)

def Sample.failing : List Action :=
  [.connect 0, .join 0, .connect 1, .join 1, .heartbeat, .acquire 0, .write 0 false]

/-- The write of a heartbeat fails on the first of two connections. -/
theorem connections_left_heartbeat : ∃ q q', Run.exec (step hash) (start 1000 2) failing = some q ∧ q.conns = [0, 1] ∧
      step hash q (.write 0 true) = some q' ∧ q'.conns.Perm (survivors q.conns [0]) := by
  have hq : Run.exec (step hash) (start 1000 2) failing = some _ := rfl
  exact ⟨_, _, hq, rfl, rfl, (connections_left (n := 0) (c := ⟨.heartbeat 0, .writing 1 [0]⟩) (a := .write 0 true)
    (Run.reachable_of_exec (by decide +kernel) hq) rfl rfl (by decide) rfl).1⟩

end Network

end VectorLedger.Replication
