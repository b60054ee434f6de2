import VectorLedger.Lib.Run
import VectorLedger.Lib.Slots
import VectorLedger.Replication.Network

/-! What every run of a primary and its replicas keeps of the records and acknowledgements under way and of the lock. -/

namespace VectorLedger.Replication

open List Slots

/-! ### Removal of connections -/

section Removal
variable {α : Type} {xs : List α} {x : α} {i j : Nat} {dead : List Nat}

theorem swapRemove_concat (xs : List α) (z : α) (i : Nat) : swapRemove (xs ++ [z]) i = xs.set i z := by
  simp only [swapRemove, getLast?_concat]
  rcases Nat.lt_or_ge i xs.length with hi | hi
  · simp [hi]
  · rw [set_append_right _ _ hi, set_eq_of_length_le hi]
    rcases Nat.eq_zero_or_pos (i - xs.length) with hzero | hpos
    · simp [hzero]
    · rw [set_eq_of_length_le (by simp; omega), dropLast_concat]

theorem mem_of_mem_swapRemove (h : x ∈ swapRemove xs i) : x ∈ xs := by
  rcases eq_nil_or_concat xs with rfl | ⟨ys, z, rfl⟩
  · cases h
  · rw [concat_eq_append, swapRemove_concat] at h
    rw [concat_eq_append]
    rcases mem_or_eq_of_mem_set h with hold | rfl
    · exact mem_append_left _ hold
    · simp

theorem nodup_swapRemove (h : xs.Nodup) (i : Nat) : (swapRemove xs i).Nodup := by
  rcases eq_nil_or_concat xs with rfl | ⟨ys, z, rfl⟩
  · exact nodup_nil
  · rw [concat_eq_append] at h ⊢
    rw [swapRemove_concat]
    obtain ⟨hys, -, hdisjoint⟩ := nodup_append.1 h
    exact hys.set fun hz => hdisjoint z hz z (by simp) rfl

theorem perm_swapRemove (hi : xs[i]? = some x) : xs.Perm (x :: swapRemove xs i) := by
  rcases eq_nil_or_concat' xs with rfl | ⟨ys, z, rfl⟩
  · cases hi
  · rw [swapRemove_concat]
    refine (perm_append_singleton z ys).trans ?_
    rcases getElem?_append_cases hi with hold | ⟨rfl, rfl⟩
    · obtain ⟨hlt, rfl⟩ := List.getElem?_eq_some_iff.1 hold
      -- The last element takes the place of the removed one.
      calc z :: ys
          ~ z :: ys[i] :: ys.eraseIdx i := (getElem_cons_eraseIdx_perm hlt).symm.cons z
        _ ~ ys[i] :: z :: ys.eraseIdx i := .swap _ _ _
        _ ~ ys[i] :: ys.set i z := (set_perm_cons_eraseIdx hlt z).symm.cons _
    · rw [set_eq_of_length_le (Nat.le_refl _)]

theorem getElem?_swapRemove (hij : j < i) (hi : i < xs.length) : (swapRemove xs i)[j]? = xs[j]? := by
  rcases eq_nil_or_concat xs with rfl | ⟨ys, z, rfl⟩
  · cases hi
  · rw [concat_eq_append] at hi ⊢
    rw [length_append, length_singleton] at hi
    rw [swapRemove_concat, getElem?_set_ne (by omega), getElem?_append_left (by omega)]

theorem mem_of_mem_removeDead (h : x ∈ removeDead xs dead) : x ∈ xs := by
  induction dead with
  | nil => exact h
  | cons d dead ih => exact ih (mem_of_mem_swapRemove h)

theorem nodup_removeDead (h : xs.Nodup) (dead : List Nat) : (removeDead xs dead).Nodup := by
  induction dead with
  | nil => exact h
  | cons d dead ih => exact nodup_swapRemove ih d

theorem getElem?_removeDead (hdead : dead.Pairwise (· < ·)) (hlt : ∀ d ∈ dead, d < xs.length) (hj : ∀ d ∈ dead, j < d) :
    (removeDead xs dead)[j]? = xs[j]? := by
  induction dead generalizing j with
  | nil => rfl
  | cons d dead ih =>
    obtain ⟨hd, hdead⟩ := pairwise_cons.1 hdead
    have hrest : ∀ e ∈ dead, e < xs.length := fun e he => hlt e (mem_cons_of_mem _ he)
    have hdlt : d < (removeDead xs dead).length := by
      have hsame := ih hdead hrest hd
      rw [getElem?_eq_getElem (hlt d mem_cons_self)] at hsame
      exact (List.getElem?_eq_some_iff.1 hsame).1
    calc (removeDead xs (d :: dead))[j]?
        = (removeDead xs dead)[j]? := getElem?_swapRemove (hj d mem_cons_self) hdlt
      _ = xs[j]? := ih hdead hrest fun e he => hj e (mem_cons_of_mem _ he)

/-- The elements whose positions are not in `dead`. -/
def survivors (xs : List α) (dead : List Nat) : List α :=
  (range xs.length).filterMap fun i => if i ∈ dead then none else xs[i]?

theorem survivors_nil : survivors xs [] = xs := by
  induction xs with
  | nil => rfl
  | cons x xs ih => simpa [survivors, range_succ_eq_map, filterMap_map, Function.comp_def] using ih

theorem mem_survivors : x ∈ survivors xs dead ↔ ∃ j, j ∉ dead ∧ xs[j]? = some x := by
  simp only [survivors, mem_filterMap, mem_range, Option.ite_none_left_eq_some]
  exact ⟨fun ⟨j, _, h⟩ => ⟨j, h⟩, fun ⟨j, h⟩ => ⟨j, (List.getElem?_eq_some_iff.1 h.2).1, h⟩⟩

theorem survivors_perm_cons (hi : xs[i]? = some x) (hdead : i ∉ dead) :
    (survivors xs dead).Perm (x :: survivors xs (i :: dead)) := by
  have hrange : (range xs.length).Perm (i :: (range xs.length).erase i) :=
    perm_cons_erase (mem_range.2 (List.getElem?_eq_some_iff.1 hi).1)
  refine (hrange.filterMap _).trans (.trans (.of_eq ?_) ((hrange.filterMap _).symm.cons x))
  rw [filterMap_cons_some (by simpa [hdead] using hi), filterMap_cons_none (by simp)]
  refine congrArg _ (filterMap_congr fun j hj => ?_)
  simp [((nodup_range.mem_erase_iff).1 hj).1]

/-- From the last position to the first, each removal moves an element that is kept. -/
theorem removeDead_perm (hdead : dead.Pairwise (· < ·)) (hlt : ∀ d ∈ dead, d < xs.length) :
    (removeDead xs dead).Perm (survivors xs dead) := by
  induction dead with
  | nil => exact .of_eq survivors_nil.symm
  | cons d dead ih =>
    obtain ⟨hd, hdead⟩ := pairwise_cons.1 hdead
    have hrest : ∀ e ∈ dead, e < xs.length := fun e he => hlt e (mem_cons_of_mem _ he)
    have hx := getElem?_eq_getElem (hlt d mem_cons_self)
    have hremoved := perm_swapRemove ((getElem?_removeDead hdead hrest hd).trans hx)
    exact ((hremoved.symm.trans (ih hdead hrest)).trans (survivors_perm_cons hx fun hmem => (hd d hmem).ne rfl)).cons_inv

theorem sorted_concat (hdead : dead.Pairwise (· < ·)) (below : ∀ d ∈ dead, d < i) : (dead ++ [i]).Pairwise (· < ·) :=
  pairwise_append.2 ⟨hdead, pairwise_singleton _ _, fun d hd e he => by simp_all⟩

theorem below_concat (below : ∀ d ∈ dead, d < i) : ∀ d ∈ dead ++ [i], d < i + 1 := by
  intro d hd
  rcases mem_append.1 hd with hold | hnew
  · exact Nat.lt_succ_of_lt (below d hold)
  · exact mem_singleton.1 hnew ▸ Nat.lt_succ_self _

end Removal

namespace Network

variable {blake3 : List UInt8 → Hash} {q q' : Network} {a : Action} {n i l r : Nat} {c : Call} {k k' : Link}
  {rp rp' : Replica} {dead : List Nat} {pc : Pc} {rec : WalRecordMsg}

/-! ### Effects of a step -/

variable (blake3 q) in
/-- What each action does to the network. -/
inductive Effect : Action → Network → Prop where
  | ship (recordBytes : List UInt8) (segment : Nat) :
      Effect (.ship recordBytes segment) (q.ship blake3 recordBytes segment)
  | heartbeat : Effect .heartbeat q.heartbeat
  | acquire {n : Nat} {c : Call} (call : q.calls[n]? = some c) (waiting : c.pc = .locking) (free : q.lock = none) :
      Effect (.acquire n) ({ q with lock := some n }.passOn n c 0 [])
  | wrote {n i l : Nat} {rec : WalRecordMsg} {dead : List Nat} {k : Link}
      (call : q.calls[n]? = some ⟨.ship rec, .writing i dead⟩) (conn : q.conns[i]? = some l) (link : q.links[l]? = some k) :
      Effect (.write n true)
        ((q.setLink l (k.deliver (.walRecord rec))).setPc n ⟨.ship rec, .writing i dead⟩ (.reading i dead))
  | beat {n i l : Nat} {lastLsn : Lsn} {dead : List Nat} {k : Link}
      (call : q.calls[n]? = some ⟨.heartbeat lastLsn, .writing i dead⟩) (conn : q.conns[i]? = some l)
      (link : q.links[l]? = some k) :
      Effect (.write n true)
        ((q.setLink l (k.deliver (.heartbeat lastLsn))).passOn n ⟨.heartbeat lastLsn, .writing i dead⟩ (i + 1) dead)
  | writeFailed {n i l : Nat} {request : Request} {dead : List Nat} {k : Link}
      (call : q.calls[n]? = some ⟨request, .writing i dead⟩) (conn : q.conns[i]? = some l) (link : q.links[l]? = some k) :
      Effect (.write n false)
        ((q.setLink l { k with severed := true }).passOn n ⟨request, .writing i dead⟩ (i + 1) (dead ++ [i]))
  | answered {n i l : Nat} {rec : WalRecordMsg} {dead : List Nat} {k : Link} {a : Option AckMessage}
      {lines : List (Option AckMessage)} (call : q.calls[n]? = some ⟨.ship rec, .reading i dead⟩)
      (conn : q.conns[i]? = some l) (link : q.links[l]? = some k) (next : k.toPrimary = a :: lines) :
      Effect (.read n .line)
        ((q.setLink l { k with toPrimary := lines }).takeAnswer n ⟨.ship rec, .reading i dead⟩ i dead rec.lsn a)
  | torn {n i l : Nat} {rec : WalRecordMsg} {dead : List Nat} {k : Link} {a : Option AckMessage}
      {lines : List (Option AckMessage)} (call : q.calls[n]? = some ⟨.ship rec, .reading i dead⟩)
      (conn : q.conns[i]? = some l) (link : q.links[l]? = some k) (next : k.toPrimary = a :: lines) :
      Effect (.read n (.timedOut true))
        ((q.setLink l { k with toPrimary := none :: lines }).giveUp n ⟨.ship rec, .reading i dead⟩
          (.ackTimeout rec.lsn q.ackTimeoutMs))
  | timedOut {n i l : Nat} {rec : WalRecordMsg} {dead : List Nat}
      (call : q.calls[n]? = some ⟨.ship rec, .reading i dead⟩) (conn : q.conns[i]? = some l) :
      Effect (.read n (.timedOut false))
        (q.giveUp n ⟨.ship rec, .reading i dead⟩ (.ackTimeout rec.lsn q.ackTimeoutMs))
  | readFailed {n i l : Nat} {rec : WalRecordMsg} {dead : List Nat}
      (call : q.calls[n]? = some ⟨.ship rec, .reading i dead⟩) (conn : q.conns[i]? = some l) :
      Effect (.read n .failed) (q.passOn n ⟨.ship rec, .reading i dead⟩ (i + 1) (dead ++ [i]))
  | closed {n i l : Nat} {rec : WalRecordMsg} {dead : List Nat}
      (call : q.calls[n]? = some ⟨.ship rec, .reading i dead⟩) (conn : q.conns[i]? = some l) :
      Effect (.read n .closed) (q.giveUp n ⟨.ship rec, .reading i dead⟩ .streamEnded)
  | join {l : Nat} {k : Link} (link : q.links[l]? = some k) (new : k.joined = false) (free : q.lock = none) :
      Effect (.join l) ({ q with conns := q.conns ++ [l] }.setLink l { k with joined := true })
  | connect {r : Nat} {rp : Replica} (replica : q.replicas[r]? = some rp) (idle : rp.session = none) :
      Effect (.connect r) ({ q with links := q.links ++ [Link.opened r] }.setReplica r
        { rp with session := some ⟨q.links.length, 0, .receiving⟩ })
  | applied {r : Nat} {rp : Replica} {s : Session} {k : Link} {rec : WalRecordMsg} {msgs : List ReplicationMessage}
      {recordBytes : List UInt8} (replica : q.replicas[r]? = some rp) (session : rp.session = some s)
      (link : q.links[s.link]? = some k) (next : k.toReplica = .walRecord rec :: msgs)
      (handled : handle blake3 s.lastLsn (.walRecord rec) = .apply rec recordBytes) :
      Effect (.receive r .all) ((q.setLink s.link { k with toReplica := msgs }).setReplica r
        { session := some { s with lastLsn := rec.lsn, pc := .answering (.ack rec.lsn) }
          wal := applyBytes recordBytes rec.segment rp.wal
          applied := rp.applied ++ [rec] })
  | beaten {r : Nat} {rp : Replica} {s : Session} {k : Link} {lastLsn : Lsn} {msgs : List ReplicationMessage}
      (outcome : Written) (replica : q.replicas[r]? = some rp) (session : rp.session = some s)
      (link : q.links[s.link]? = some k) (next : k.toReplica = .heartbeat lastLsn :: msgs) :
      Effect (.receive r outcome) ((q.setLink s.link { k with toReplica := msgs }).setReplica r
        { rp with session := some { s with pc := .answering (.heartbeatAck s.lastLsn) } })
  /-- The record cannot be applied, and the session ends. -/
  | refused {r : Nat} {rp : Replica} {s : Session} {k : Link} {rec : WalRecordMsg} {msgs : List ReplicationMessage}
      (outcome : Written) (wal : Wal.Dir) (answers : List (Option AckMessage)) (replica : q.replicas[r]? = some rp)
      (session : rp.session = some s) (link : q.links[s.link]? = some k) (next : k.toReplica = .walRecord rec :: msgs)
      (noAck : ∀ lsn, some (.ack lsn) ∉ answers)
      (written : wal = rp.wal ∨ ∃ recordBytes bytes, handle blake3 s.lastLsn (.walRecord rec) = .apply rec recordBytes ∧
        wal = applyBytes (recordBytes.take bytes) rec.segment rp.wal) :
      Effect (.receive r outcome)
        ((q.setLink s.link { k with toReplica := msgs, toPrimary := k.toPrimary ++ answers }).setReplica r
          { rp with session := none, wal := wal })
  | replied {r : Nat} {rp : Replica} {s : Session} {k : Link} {a : AckMessage} (replica : q.replicas[r]? = some rp)
      (session : rp.session = some s) (link : q.links[s.link]? = some k) (due : s.pc = .answering a) :
      Effect (.answer r .sent) ((q.setLink s.link { k with toPrimary := k.toPrimary ++ [some a] }).setReplica r
        { rp with session := some { s with pc := .receiving } })
  /-- The answer is lost, with the session or without. -/
  | lost {r : Nat} {rp : Replica} {s : Session} {k : Link} (torn : Bool) (left : List (Option AckMessage))
      (next : Option Session) (replica : q.replicas[r]? = some rp) (session : rp.session = some s)
      (link : q.links[s.link]? = some k) (noAck : ∀ lsn, some (.ack lsn) ∉ left)
      (goesOn : next = none ∨ next = some { s with pc := .receiving }) :
      Effect (.answer r (.failed torn))
        ((q.setLink s.link { k with toPrimary := k.toPrimary ++ left }).setReplica r { rp with session := next })
  | drop {r : Nat} {rp : Replica} (replica : q.replicas[r]? = some rp) :
      Effect (.drop r) (q.setReplica r { rp with session := none })

theorem setLink_self (link : q.links[l]? = some k) : q.setLink l k = q := by
  obtain ⟨h, heq⟩ := List.getElem?_eq_some_iff.1 link
  rw [setLink, ← heq, set_getElem_self]

theorem write_effect {ok : Bool} (h : q.write n ok = some q') : Effect blake3 q (.write n ok) q' := by
  simp only [write, Option.bind_eq_bind, Option.bind_eq_some_iff] at h
  obtain ⟨⟨request, pc⟩, hc, h⟩ := h
  cases pc with
  | writing =>
    simp only [Option.bind_eq_some_iff] at h
    obtain ⟨l, hl, k, hk, h⟩ := h
    cases ok with
    | true =>
      cases request with
      | ship =>
        cases h
        exact .wrote hc hl hk
      | heartbeat =>
        cases h
        exact .beat hc hl hk
    | false =>
      cases h
      exact .writeFailed hc hl hk
  | locking | reading | done | finished => cases h

theorem read_effect {outcome : ReadOutcome} (h : q.read n outcome = some q') : Effect blake3 q (.read n outcome) q' := by
  simp only [read, Option.bind_eq_bind, Option.bind_eq_some_iff] at h
  obtain ⟨⟨request, pc⟩, hc, h⟩ := h
  split at h
  case h_2 => cases h
  case h_1 pc request i dead rec hpc hrequest =>
    obtain rfl : _ = Pc.reading i dead := hpc
    obtain rfl : _ = Request.ship rec := hrequest
    simp only [Option.bind_eq_some_iff] at h
    obtain ⟨l, hl, k, hk, h⟩ := h
    split at h
    case h_1 next =>
      cases h
      exact .answered hc hl hk next
    case h_2 next =>
      cases h
      exact .torn hc hl hk next
    case h_3 =>
      cases h
      exact .timedOut hc hl
    case h_4 =>
      cases h
      exact .readFailed hc hl
    case h_5 =>
      obtain ⟨-, h⟩ := Option.ite_none_left_eq_some.1 h
      cases h
      exact .closed hc hl
    case h_6 => cases h

theorem receive_effect {outcome : Written} (h : q.receive blake3 r outcome = some q') :
    Effect blake3 q (.receive r outcome) q' := by
  simp only [receive, Option.bind_eq_bind, Option.bind_eq_some_iff] at h
  obtain ⟨rp, hrp, s, hs, k, hk, h⟩ := h
  split at h
  case h_2 => cases h
  case h_1 msg msgs hpc next =>
    cases msg with
    | heartbeat =>
      cases h
      exact .beaten outcome hrp hs hk next
    | walRecord rec =>
      have refuse (answers : List (Option AckMessage)) (wal : Wal.Dir) (noAck : ∀ lsn, some (.ack lsn) ∉ answers)
          (written : wal = rp.wal ∨ ∃ recordBytes bytes, handle blake3 s.lastLsn (.walRecord rec) = .apply rec recordBytes ∧
            wal = applyBytes (recordBytes.take bytes) rec.segment rp.wal) :
          Effect blake3 q (.receive r outcome)
            ((q.setLink s.link { k with toReplica := msgs, toPrimary := k.toPrimary ++ answers }).setReplica r
              { rp with session := none, wal := wal }) :=
        .refused outcome wal answers hrp hs hk next noAck written
      have silent : Effect blake3 q (.receive r outcome)
          ((q.setLink s.link { k with toReplica := msgs }).setReplica r { rp with session := none }) := by
        simpa using refuse [] rp.wal (by simp) (.inl rfl)
      cases hdecoded : FourEyes.hexDecode rec.recordHex with
      | error =>
        simp only [handle, hdecoded] at h
        cases outcome <;> exact Option.some.inj h ▸ silent
      | ok recordBytes =>
        by_cases hhash : hexEncode (blake3 recordBytes).toList = rec.recordHashHex
        · have handled : handle blake3 s.lastLsn (.walRecord rec) = .apply rec recordBytes := by
            simp only [handle, hdecoded, ne_eq, hhash, not_true, if_false]
          simp only [handled] at h
          cases outcome with
          | all => exact Option.some.inj h ▸ .applied hrp hs hk next handled
          | part bytes =>
            refine Option.some.inj h ▸ ?_
            simpa using refuse [] _ (by simp) (.inr ⟨recordBytes, bytes, handled, rfl⟩)
        · simp only [handle, hdecoded, ne_eq, hhash] at h
          cases outcome with
          | all =>
            refine Option.some.inj h ▸ ?_
            simpa [setLink] using
              refuse [some (.error (some rec.lsn) "hash mismatch on received WAL record")] rp.wal (by simp) (.inl rfl)
          | part => exact Option.some.inj h ▸ silent

theorem answer_effect {outcome : Sent} (h : q.answer r outcome = some q') : Effect blake3 q (.answer r outcome) q' := by
  simp only [answer, Option.bind_eq_bind, Option.bind_eq_some_iff] at h
  obtain ⟨rp, hrp, s, hs, k, hk, h⟩ := h
  cases hpc : s.pc with
  | receiving => simp [hpc] at h
  | answering a =>
    simp only [hpc] at h
    cases outcome with
    | sent => exact Option.some.inj h ▸ .replied hrp hs hk hpc
    | failed torn =>
      have lose (next : Option Session) (goesOn : next = none ∨ next = some { s with pc := .receiving }) :
          Effect blake3 q (.answer r (.failed torn))
            ((if torn then q.setLink s.link { k with toPrimary := k.toPrimary ++ [none] } else q).setReplica r
              { rp with session := next }) := by
        cases torn with
        | true => exact .lost true [none] next hrp hs hk (by simp) goesOn
        | false =>
          have hlost : Effect blake3 q (.answer r (.failed false)) _ := .lost false [] next hrp hs hk (by simp) goesOn
          rwa [append_nil, setLink_self hk] at hlost
      cases a with
      | heartbeatAck => exact Option.some.inj h ▸ lose _ (.inr rfl)
      | ack | error => exact Option.some.inj h ▸ lose _ (.inl rfl)

theorem step_effect (h : step blake3 q a = some q') : Effect blake3 q a q' := by
  cases a with
  | ship recordBytes segment => exact Option.some.inj h ▸ .ship recordBytes segment
  | heartbeat => exact Option.some.inj h ▸ .heartbeat
  | acquire =>
    simp only [step, acquire, Option.bind_eq_bind, Option.bind_eq_some_iff] at h
    obtain ⟨c, hc, h⟩ := h
    obtain ⟨⟨hpc, hfree⟩, h⟩ := Option.ite_none_right_eq_some.1 h
    exact Option.some.inj h ▸ .acquire hc hpc hfree
  | write => exact write_effect h
  | read => exact read_effect h
  | join =>
    simp only [step, join, Option.bind_eq_bind, Option.bind_eq_some_iff] at h
    obtain ⟨k, hk, h⟩ := h
    obtain ⟨hguard, h⟩ := Option.ite_none_left_eq_some.1 h
    obtain ⟨hnew, hfree⟩ := not_or.1 hguard
    exact Option.some.inj h ▸ .join hk (by simpa using hnew) (by simpa using hfree)
  | connect =>
    simp only [step, connect, Option.bind_eq_bind, Option.bind_eq_some_iff] at h
    obtain ⟨rp, hrp, h⟩ := h
    cases hs : rp.session with
    | some => simp [hs] at h
    | none =>
      simp only [hs] at h
      exact Option.some.inj h ▸ .connect hrp hs
  | receive => exact receive_effect h
  | answer => exact answer_effect h
  | drop =>
    simp only [step, drop, Option.bind_eq_bind, Option.bind_eq_some_iff] at h
    obtain ⟨rp, hrp, s, hs, h⟩ := h
    exact Option.some.inj h ▸ .drop hrp

/-! ### What a step leaves as it is -/

section Frames
variable (q : Network) (n i : Nat) (c : Call) (dead : List Nat)

@[simp] theorem passOn_links : (q.passOn n c i dead).links = q.links := by unfold passOn; split <;> rfl
@[simp] theorem passOn_replicas : (q.passOn n c i dead).replicas = q.replicas := by unfold passOn; split <;> rfl
@[simp] theorem passOn_nextLsn : (q.passOn n c i dead).nextLsn = q.nextLsn := by unfold passOn; split <;> rfl

end Frames

theorem passOn_calls (q : Network) (n : Nat) (c : Call) (i : Nat) (dead : List Nat) :
    ∃ pc, (q.passOn n c i dead).calls = q.calls.set n { c with pc := pc } := by
  unfold passOn
  split <;> exact ⟨_, rfl⟩

theorem takeAnswer_cases (q : Network) (n : Nat) (c : Call) (i : Nat) (dead : List Nat) (lsn : Lsn) (a : Option AckMessage) :
    (∃ got, q.takeAnswer n c i dead lsn a = q.giveUp n c (.ackMismatch lsn got)) ∨
      (a = some (.ack lsn) ∨ a = none ∨ ∃ lastLsn, a = some (.heartbeatAck lastLsn)) ∧
        q.takeAnswer n c i dead lsn a = q.passOn n c (i + 1) dead ∨
      q.takeAnswer n c i dead lsn a = q.passOn n c (i + 1) (dead ++ [i]) := by
  rcases a with _ | (got | lastLsn | ⟨which, message⟩)
  · exact .inr (.inl ⟨.inr (.inl rfl), rfl⟩)
  · by_cases hgot : got = lsn
    · subst hgot
      exact .inr (.inl ⟨.inl rfl, by simp [takeAnswer]⟩)
    · exact .inl ⟨got, by simp [takeAnswer, hgot]⟩
  · exact .inr (.inl ⟨.inr (.inr ⟨lastLsn, rfl⟩), rfl⟩)
  · exact .inr (.inr rfl)

@[simp] theorem takeAnswer_replicas (q : Network) (n : Nat) (c : Call) (i : Nat) (dead : List Nat) (lsn : Lsn)
    (a : Option AckMessage) : (q.takeAnswer n c i dead lsn a).replicas = q.replicas := by
  rcases q.takeAnswer_cases n c i dead lsn a with ⟨got, heq⟩ | ⟨-, heq⟩ | heq
  · rw [heq]
    rfl
  · rw [heq, passOn_replicas]
  · rw [heq, passOn_replicas]

/-! ### Records and acknowledgements under way -/

/-- A call ships the record. -/
def Ships (q : Network) (rec : WalRecordMsg) : Prop := ∃ c ∈ q.calls, c.request = .ship rec

/-- The replica has applied the record. -/
def HasApplied (q : Network) (r : Nat) (rec : WalRecordMsg) : Prop := ∃ rp, q.replicas[r]? = some rp ∧ rec ∈ rp.applied

/-- The records under way and those applied are those of ship, and an acknowledgement is for a record applied. -/
structure Wire (q : Network) : Prop where
  sent : ∀ (l : Nat) (k : Link), q.links[l]? = some k → ∀ rec, .walRecord rec ∈ k.toReplica → q.Ships rec
  applied : ∀ r rec, q.HasApplied r rec → q.Ships rec
  owner : ∀ (r : Nat) (rp : Replica), q.replicas[r]? = some rp → ∀ s ∈ rp.session, ∃ k, q.links[s.link]? = some k ∧ k.replica = r
  answering : ∀ (r : Nat) (rp : Replica), q.replicas[r]? = some rp → ∀ s ∈ rp.session, ∀ lsn, s.pc = .answering (.ack lsn) →
    ∃ rec, q.HasApplied r rec ∧ rec.lsn = lsn
  acks : ∀ (l : Nat) (k : Link), q.links[l]? = some k → ∀ lsn, some (.ack lsn) ∈ k.toPrimary →
    ∃ rec, q.HasApplied k.replica rec ∧ rec.lsn = lsn

theorem ships_set (call : q.calls[n]? = some c) (calls : ∃ pc, q'.calls = q.calls.set n { c with pc := pc }) :
    q'.Ships rec ↔ q.Ships rec := by
  obtain ⟨pc, calls⟩ := calls
  unfold Ships
  rw [calls]
  constructor
  · rintro ⟨d, hd, hrec⟩
    rcases mem_set_cases hd with rfl | ⟨m, -, hold⟩
    · exact ⟨c, mem_of_getElem? call, hrec⟩
    · exact ⟨d, mem_of_getElem? hold, hrec⟩
  · rintro ⟨d, hd, hrec⟩
    rcases mem_set_or call { c with pc := pc } hd with hold | rfl
    · exact ⟨d, hold, hrec⟩
    · exact ⟨_, mem_set_self call _, hrec⟩

theorem ships_passOn (call : q.calls[n]? = some c) (i : Nat) (dead : List Nat) :
    (q.passOn n c i dead).Ships rec ↔ q.Ships rec :=
  ships_set call (q.passOn_calls n c i dead)

theorem ships_giveUp (call : q.calls[n]? = some c) (e : ReplicationError) : (q.giveUp n c e).Ships rec ↔ q.Ships rec :=
  ships_set call ⟨_, rfl⟩

theorem Wire.congr (h : Wire q) (links : q'.links = q.links) (replicas : q'.replicas = q.replicas)
    (ships : ∀ rec, q.Ships rec → q'.Ships rec) : Wire q' := by
  have hasApplied : q'.HasApplied = q.HasApplied := by
    unfold HasApplied
    rw [replicas]
  refine ⟨fun l k hk rec hrec => ?_, fun r rec hrec => ?_, fun r rp hrp => ?_, fun r rp hrp => ?_, fun l k hk => ?_⟩
  · exact ships rec (h.sent l k (links ▸ hk) rec hrec)
  · exact ships rec (h.applied r rec (hasApplied ▸ hrec))
  · rw [links]
    exact h.owner r rp (replicas ▸ hrp)
  · rw [hasApplied]
    exact h.answering r rp (replicas ▸ hrp)
  · rw [hasApplied]
    exact h.acks l k (links ▸ hk)

theorem Wire.passOn (h : Wire q) (call : q.calls[n]? = some c) (i : Nat) (dead : List Nat) : Wire (q.passOn n c i dead) :=
  h.congr (by simp) (by simp) fun _ => (ships_passOn call i dead).2

theorem Wire.giveUp (h : Wire q) (call : q.calls[n]? = some c) (e : ReplicationError) : Wire (q.giveUp n c e) :=
  h.congr rfl rfl fun _ => (ships_giveUp call e).2

theorem Wire.setLink (h : Wire q) (link : q.links[l]? = some k) (k' : Link) (same : k'.replica = k.replica)
    (sent : ∀ rec, .walRecord rec ∈ k'.toReplica → .walRecord rec ∈ k.toReplica ∨ q.Ships rec)
    (acks : ∀ lsn, some (.ack lsn) ∈ k'.toPrimary → some (.ack lsn) ∈ k.toPrimary ∨
      ∃ rec, q.HasApplied k.replica rec ∧ rec.lsn = lsn) : Wire (q.setLink l k') := by
  refine ⟨fun m d hd rec hrec => ?_, h.applied, fun r rp hrp s hs => ?_, h.answering, fun m d hd lsn hlsn => ?_⟩
  · rcases getElem?_set_cases hd with ⟨-, rfl⟩ | ⟨-, hold⟩
    · exact (sent rec hrec).elim (h.sent l k link rec) id
    · exact h.sent m d hold rec hrec
  · obtain ⟨d, hd, hr⟩ := h.owner r rp hrp s hs
    by_cases hl : s.link = l
    · subst hl
      obtain rfl := Option.some.inj (link.symm.trans hd)
      exact ⟨k', getElem?_set_self link k', same.trans hr⟩
    · exact ⟨d, (getElem?_set_ne (Ne.symm hl)).trans hd, hr⟩
  · rcases getElem?_set_cases hd with ⟨-, rfl⟩ | ⟨-, hold⟩
    · rw [same]
      exact (acks lsn hlsn).elim (h.acks l k link lsn) id
    · exact h.acks m d hold lsn hlsn

theorem HasApplied.setReplica (replica : q.replicas[r]? = some rp) (grows : ∀ rec ∈ rp.applied, rec ∈ rp'.applied) {r₁ : Nat}
    (h : q.HasApplied r₁ rec) : (q.setReplica r rp').HasApplied r₁ rec := by
  obtain ⟨rp₁, hrp₁, hrec⟩ := h
  by_cases hr : r₁ = r
  · subst hr
    obtain rfl := Option.some.inj (replica.symm.trans hrp₁)
    exact ⟨rp', getElem?_set_self replica rp', grows rec hrec⟩
  · exact ⟨rp₁, (getElem?_set_ne (Ne.symm hr)).trans hrp₁, hrec⟩

theorem Wire.setReplica (h : Wire q) (replica : q.replicas[r]? = some rp) (grows : ∀ rec ∈ rp.applied, rec ∈ rp'.applied)
    (ships : ∀ rec ∈ rp'.applied, rec ∈ rp.applied ∨ q.Ships rec)
    (owner : ∀ s ∈ rp'.session, ∃ k, q.links[s.link]? = some k ∧ k.replica = r)
    (answering : ∀ s ∈ rp'.session, ∀ lsn, s.pc = .answering (.ack lsn) → ∃ rec ∈ rp'.applied, rec.lsn = lsn) :
    Wire (q.setReplica r rp') := by
  have keeps {r₁ : Nat} {lsn : Lsn} (hex : ∃ rec, q.HasApplied r₁ rec ∧ rec.lsn = lsn) :
      ∃ rec, (q.setReplica r rp').HasApplied r₁ rec ∧ rec.lsn = lsn := by
    obtain ⟨rec, hrec, hlsn⟩ := hex
    exact ⟨rec, hrec.setReplica replica grows, hlsn⟩
  refine ⟨h.sent, ?_, fun r₁ rp₁ hrp₁ s hs => ?_, fun r₁ rp₁ hrp₁ s hs lsn hpc => ?_, fun l k hk lsn hlsn => ?_⟩
  · rintro r₁ rec ⟨rp₁, hrp₁, hrec⟩
    rcases getElem?_set_cases hrp₁ with ⟨-, rfl⟩ | ⟨-, hold⟩
    · exact (ships rec hrec).elim (fun hin => h.applied r rec ⟨rp, replica, hin⟩) id
    · exact h.applied r₁ rec ⟨rp₁, hold, hrec⟩
  · rcases getElem?_set_cases hrp₁ with ⟨rfl, rfl⟩ | ⟨-, hold⟩
    · exact owner s hs
    · exact h.owner r₁ rp₁ hold s hs
  · rcases getElem?_set_cases hrp₁ with ⟨rfl, rfl⟩ | ⟨-, hold⟩
    · obtain ⟨rec, hrec, hlsn⟩ := answering s hs lsn hpc
      exact ⟨rec, ⟨_, hrp₁, hrec⟩, hlsn⟩
    · exact keeps (h.answering r₁ rp₁ hold s hs lsn hpc)
  · exact keeps (h.acks l k hk lsn hlsn)

theorem Wire.setSession (h : Wire q) (replica : q.replicas[r]? = some rp) (same : rp'.applied = rp.applied)
    (owner : ∀ s ∈ rp'.session, ∃ k, q.links[s.link]? = some k ∧ k.replica = r)
    (noAck : ∀ s ∈ rp'.session, ∀ lsn, s.pc ≠ .answering (.ack lsn)) : Wire (q.setReplica r rp') :=
  h.setReplica replica (fun _ hrec => same ▸ hrec) (fun _ hrec => .inl (same ▸ hrec)) owner
    fun s hs lsn hpc => absurd hpc (noAck s hs lsn)

theorem deliver_replica (k : Link) (msg : ReplicationMessage) : (k.deliver msg).replica = k.replica := by
  unfold Link.deliver
  split <;> rfl

theorem deliver_joined (k : Link) (msg : ReplicationMessage) : (k.deliver msg).joined = k.joined := by
  unfold Link.deliver
  split <;> rfl

theorem deliver_toPrimary (k : Link) (msg : ReplicationMessage) : (k.deliver msg).toPrimary = k.toPrimary := by
  unfold Link.deliver
  split <;> rfl

theorem mem_deliver {msg m : ReplicationMessage} (h : m ∈ (k.deliver msg).toReplica) : m ∈ k.toReplica ∨ m = msg := by
  unfold Link.deliver at h
  split at h
  · exact .inl h
  · simpa using h

theorem Wire.deliver (h : Wire q) (link : q.links[l]? = some k) (msg : ReplicationMessage)
    (ships : ∀ rec, msg = .walRecord rec → q.Ships rec) : Wire (q.setLink l (k.deliver msg)) := by
  refine h.setLink link _ (deliver_replica k msg) (fun rec hrec => ?_) fun lsn hlsn => .inl (deliver_toPrimary k msg ▸ hlsn)
  exact (mem_deliver hrec).imp_right fun heq => ships rec heq.symm

theorem Wire.call (h : Wire q) (nextLsn : Lsn) (c : Call) : Wire { q with nextLsn := nextLsn, calls := q.calls ++ [c] } :=
  h.congr rfl rfl fun _ ⟨d, hd, hrec⟩ => ⟨d, mem_append_left _ hd, hrec⟩

theorem Wire.openLink (h : Wire q) (r : Nat) : Wire { q with links := q.links ++ [Link.opened r] } := by
  refine ⟨fun l k hk rec hrec => ?_, h.applied, fun r₁ rp hrp s hs => ?_, h.answering, fun l k hk lsn hlsn => ?_⟩
  · rcases getElem?_append_cases hk with hold | ⟨-, rfl⟩
    · exact h.sent l k hold rec hrec
    · cases hrec
  · obtain ⟨k, hk, hr⟩ := h.owner r₁ rp hrp s hs
    exact ⟨k, getElem?_append_of_some hk _, hr⟩
  · rcases getElem?_append_cases hk with hold | ⟨-, rfl⟩
    · exact h.acks l k hold lsn hlsn
    · cases hlsn

theorem Wire.takeAnswer (h : Wire q) (call : q.calls[n]? = some c) (i : Nat) (dead : List Nat) (lsn : Lsn)
    (a : Option AckMessage) : Wire (q.takeAnswer n c i dead lsn a) := by
  rcases q.takeAnswer_cases n c i dead lsn a with ⟨got, heq⟩ | ⟨-, heq⟩ | heq
  · exact heq ▸ h.giveUp call _
  · exact heq ▸ h.passOn call _ _
  · exact heq ▸ h.passOn call _ _

/-- An action keeps what is on the wire drawn from what was shipped. -/
theorem Wire.step (h : Wire q) (hs : step blake3 q a = some q') : Wire q' := by
  cases step_effect hs with
  | ship | heartbeat => exact h.call _ _
  | @acquire n c call =>
    have hlocked : Wire { q with lock := some n } := h.congr rfl rfl fun _ => id
    exact hlocked.passOn call _ _
  | @wrote n i l rec dead k call conn link =>
    have hdelivered := h.deliver link (.walRecord rec) fun rec' heq => by
      cases heq
      exact ⟨_, mem_of_getElem? call, rfl⟩
    exact hdelivered.congr rfl rfl fun _ => (ships_set call ⟨_, rfl⟩).2
  | beat call _ link => exact (h.deliver link (.heartbeat _) (by simp)).passOn call _ _
  | @writeFailed n i l request dead k call conn link =>
    have hsevered := h.setLink link { k with severed := true } rfl (fun _ => .inl) fun _ => .inl
    exact hsevered.passOn call _ _
  | @answered n i l rec dead k a lines call conn link next =>
    have hread := h.setLink link { k with toPrimary := lines } rfl (fun _ => .inl)
      fun lsn hlsn => .inl (next ▸ mem_cons_of_mem _ hlsn)
    exact hread.takeAnswer call _ _ _ _
  | @torn n i l rec dead k a lines call conn link next =>
    have htorn := h.setLink link { k with toPrimary := none :: lines } rfl (fun _ => .inl) fun lsn hlsn =>
      .inl (next ▸ mem_cons_of_mem _ (by simpa using hlsn))
    exact htorn.giveUp call _
  | timedOut call | closed call => exact h.giveUp call _
  | readFailed call => exact h.passOn call _ _
  | @join l k link =>
    have hjoined : Wire { q with conns := q.conns ++ [l] } := h.congr rfl rfl fun _ => id
    exact hjoined.setLink link _ rfl (fun _ => .inl) fun _ => .inl
  | @connect r rp replica =>
    refine (h.openLink r).setSession replica rfl (fun s hs => ?_) fun s hs lsn => ?_
    · cases hs
      exact ⟨Link.opened r, by simp, rfl⟩
    · cases hs
      simp
  | @applied r rp s k rec msgs recordBytes replica session link next =>
    have hships : q.Ships rec := h.sent s.link k link rec (by simp [next])
    have hread := h.setLink link { k with toReplica := msgs } rfl
      (fun rec' hrec => .inl (next ▸ mem_cons_of_mem _ hrec)) fun _ => .inl
    refine hread.setReplica replica (fun rec' hrec => mem_append_left _ hrec) (fun rec' hrec => ?_) (fun s' hs' => ?_)
      fun s' hs' lsn hpc => ?_
    · rcases mem_append.1 hrec with hold | hnew
      · exact .inl hold
      · obtain rfl := mem_singleton.1 hnew
        exact .inr hships
    · cases hs'
      exact hread.owner r rp replica s session
    · cases hs'
      cases hpc
      exact ⟨rec, by simp, rfl⟩
  | @beaten r rp s k lastLsn msgs outcome replica session link next =>
    have hread := h.setLink link { k with toReplica := msgs } rfl
      (fun rec' hrec => .inl (next ▸ mem_cons_of_mem _ hrec)) fun _ => .inl
    refine hread.setSession replica rfl (fun s' hs' => ?_) fun s' hs' lsn => ?_
    · cases hs'
      exact hread.owner r rp replica s session
    · cases hs'
      simp
  | @refused r rp s k rec msgs outcome wal answers replica session link next noAck =>
    refine Wire.setSession (h.setLink link _ rfl (fun rec' hrec => .inl (next ▸ mem_cons_of_mem _ hrec))
      fun lsn hlsn => .inl ?_) replica rfl (by simp) (by simp)
    exact (mem_append.1 hlsn).elim id fun hnew => absurd hnew (noAck lsn)
  | @replied r rp s k a replica session link due =>
    obtain ⟨k₁, hk₁, hr⟩ := h.owner r rp replica s session
    obtain rfl := Option.some.inj (link.symm.trans hk₁)
    have hsent := h.setLink link { k with toPrimary := k.toPrimary ++ [some a] } rfl (fun _ => .inl) fun lsn hlsn => by
      rcases mem_append.1 hlsn with hold | hnew
      · exact .inl hold
      · obtain rfl := Option.some.inj (mem_singleton.1 hnew)
        rw [hr]
        exact .inr (h.answering r rp replica s session lsn due)
    refine hsent.setSession replica rfl (fun s' hs' => ?_) fun s' hs' lsn => ?_
    · cases hs'
      exact hsent.owner r rp replica s session
    · cases hs'
      simp
  | @lost r rp s k torn left next replica session link noAck goesOn =>
    have hsent := h.setLink link { k with toPrimary := k.toPrimary ++ left } rfl (fun _ => .inl) fun lsn hlsn =>
      .inl ((mem_append.1 hlsn).elim id fun hnew => absurd hnew (noAck lsn))
    rcases goesOn with rfl | rfl
    · exact hsent.setSession replica rfl (by simp) (by simp)
    · refine hsent.setSession replica rfl (fun s' hs' => ?_) fun s' hs' lsn => ?_
      · cases hs'
        exact hsent.owner r rp replica s session
      · cases hs'
        simp
  | drop replica => exact h.setSession replica rfl (by simp) (by simp)

theorem Wire.start (ackTimeoutMs replicas : Nat) : Wire (start ackTimeoutMs replicas) := by
  have idle {r : Nat} {rp : Replica} (h : (Network.start ackTimeoutMs replicas).replicas[r]? = some rp) : rp = ⟨none, [], []⟩ :=
    eq_of_mem_replicate (mem_of_getElem? h)
  refine ⟨by simp [Network.start], ?_, fun r rp hrp => ?_, fun r rp hrp => ?_, by simp [Network.start]⟩
  · rintro r rec ⟨rp, hrp, hrec⟩
    simp [idle hrp] at hrec
  · simp [idle hrp]
  · simp [idle hrp]

/-! ### The lock -/

end Network

/-- The place of a call in the list of connections, and those that have failed. -/
def Pc.place : Pc → Option (Nat × List Nat)
  | .writing i dead | .reading i dead => some (i, dead)
  | .locking | .done _ | .finished => none

namespace Network

/-- Every record has its own number, and only the call that has the lock is at a place of the list of connections. -/
structure Turns (q : Network) : Prop where
  numbered : ∀ rec, q.Ships rec → 1 ≤ rec.lsn ∧ rec.lsn < q.nextLsn
  distinct : ∀ (m n : Nat) (c d : Call), q.calls[m]? = some c → q.calls[n]? = some d → ∀ rec rec', c.request = .ship rec →
    d.request = .ship rec' → rec.lsn = rec'.lsn → m = n
  turn : ∀ (n : Nat) (c : Call), q.calls[n]? = some c → ∀ i dead, c.pc.place = some (i, dead) →
    q.lock = some n ∧ i < q.conns.length ∧ dead.Pairwise (· < ·) ∧ ∀ d ∈ dead, d < i
  joined : ∀ l ∈ q.conns, ∃ k, q.links[l]? = some k ∧ k.joined = true
  nodup : q.conns.Nodup
  positive : 1 ≤ q.nextLsn

section
variable (h : Turns q)
include h

theorem Turns.record_unique {rec rec' : WalRecordMsg} (hrec : q.Ships rec) (hrec' : q.Ships rec')
    (hlsn : rec.lsn = rec'.lsn) : rec = rec' := by
  obtain ⟨c, hc, hrequest⟩ := hrec
  obtain ⟨d, hd, hrequest'⟩ := hrec'
  obtain ⟨m, hm⟩ := mem_iff_getElem?.1 hc
  obtain ⟨n, hn⟩ := mem_iff_getElem?.1 hd
  obtain rfl := h.distinct m n c d hm hn rec rec' hrequest hrequest' hlsn
  obtain rfl := Option.some.inj (hm.symm.trans hn)
  exact Request.ship.inj (hrequest.symm.trans hrequest')

theorem Turns.congr (calls : q'.calls = q.calls) (nextLsn : q'.nextLsn = q.nextLsn) (conns : q'.conns = q.conns)
    (lock : q'.lock = q.lock)
    (joined : ∀ (l : Nat) (k : Link), q.links[l]? = some k → k.joined = true → ∃ k', q'.links[l]? = some k' ∧ k'.joined = true) :
    Turns q' := by
  have hships : q'.Ships = q.Ships := by
    unfold Ships
    rw [calls]
  refine ⟨?_, ?_, ?_, fun l hl => ?_, conns ▸ h.nodup, nextLsn ▸ h.positive⟩
  · rw [hships, nextLsn]
    exact h.numbered
  · rw [calls]
    exact h.distinct
  · rw [calls, lock, conns]
    exact h.turn
  · obtain ⟨k, hk, hj⟩ := h.joined l (conns ▸ hl)
    exact joined l k hk hj

theorem Turns.setReplica (r : Nat) (rp : Replica) : Turns (q.setReplica r rp) :=
  h.congr rfl rfl rfl rfl fun _ k hk hj => ⟨k, hk, hj⟩

theorem Turns.setLink (link : q.links[l]? = some k) (k' : Link) (keeps : k.joined = true → k'.joined = true) :
    Turns (q.setLink l k') := by
  refine h.congr rfl rfl rfl rfl fun m d hd hj => ?_
  by_cases hm : m = l
  · subst hm
    obtain rfl := Option.some.inj (link.symm.trans hd)
    exact ⟨k', getElem?_set_self link k', keeps hj⟩
  · exact ⟨d, (getElem?_set_ne (Ne.symm hm)).trans hd, hj⟩

theorem Turns.others (mine : q.lock = some n) {m : Nat} {d : Call} (hd : q.calls[m]? = some d) (hm : m ≠ n) :
    d.pc.place = none := by
  cases hplace : d.pc.place with
  | none => rfl
  | some x =>
    obtain ⟨hlock, -⟩ := h.turn m d hd x.1 x.2 hplace
    exact absurd (Option.some.inj (hlock.symm.trans mine)) hm

section
variable (call : q.calls[n]? = some c) (mine : q.lock = some n)
include call mine

theorem Turns.goOn (calls : q'.calls = q.calls.set n { c with pc := pc }) (links : q'.links = q.links)
    (nextLsn : q'.nextLsn = q.nextLsn) (conns : ∀ l ∈ q'.conns, l ∈ q.conns) (nodup : q'.conns.Nodup)
    (turn : ∀ i dead, pc.place = some (i, dead) → q'.lock = some n ∧ i < q'.conns.length ∧ dead.Pairwise (· < ·) ∧ ∀ d ∈ dead, d < i) :
    Turns q' := by
  have hships (rec : WalRecordMsg) : q'.Ships rec ↔ q.Ships rec := ships_set call ⟨pc, calls⟩
  -- The request at a place of the list is the one that was there.
  have hrequest {m : Nat} {d : Call} (hd : q'.calls[m]? = some d) : ∃ d', q.calls[m]? = some d' ∧ d'.request = d.request := by
    rw [calls] at hd
    rcases getElem?_set_cases hd with ⟨rfl, rfl⟩ | ⟨-, hold⟩
    · exact ⟨c, call, rfl⟩
    · exact ⟨d, hold, rfl⟩
  refine ⟨fun rec hrec => ?_, fun m m' d d' hd hd' rec rec' hrec hrec' => ?_, fun m d hd i dead hplace => ?_, fun l hl => ?_,
    nodup, nextLsn ▸ h.positive⟩
  · rw [nextLsn]
    exact h.numbered rec ((hships rec).1 hrec)
  · obtain ⟨e, he, heq⟩ := hrequest hd
    obtain ⟨e', he', heq'⟩ := hrequest hd'
    exact h.distinct m m' e e' he he' rec rec' (heq.trans hrec) (heq'.trans hrec')
  · rw [calls] at hd
    rcases getElem?_set_cases hd with ⟨rfl, rfl⟩ | ⟨hm, hold⟩
    · exact turn i dead hplace
    · rw [h.others mine hold hm] at hplace
      cases hplace
  · rw [links]
    exact h.joined l (conns l hl)

theorem Turns.passOn (sorted : dead.Pairwise (· < ·)) (below : ∀ d ∈ dead, d < i) : Turns (q.passOn n c i dead) := by
  unfold Network.passOn
  split
  case isTrue hi =>
    refine h.goOn call mine rfl rfl rfl (fun _ => id) h.nodup fun i' dead' hplace => ?_
    cases hplace
    exact ⟨mine, hi, sorted, below⟩
  case isFalse =>
    refine h.goOn call mine rfl rfl rfl (fun _ => mem_of_mem_removeDead) (nodup_removeDead h.nodup dead)
      fun i' dead' hplace => ?_
    cases hrequest : c.request <;> simp [returned, hrequest, Pc.place] at hplace

theorem Turns.giveUp (e : ReplicationError) : Turns (q.giveUp n c e) :=
  h.goOn call mine rfl rfl rfl (fun _ => id) h.nodup fun _ _ hplace => by cases hplace

end

theorem Turns.takeAnswer (call : q.calls[n]? = some c) (place : c.pc.place = some (i, dead)) (lsn : Lsn)
    (a : Option AckMessage) : Turns (q.takeAnswer n c i dead lsn a) := by
  obtain ⟨mine, -, sorted, below⟩ := h.turn n c call i dead place
  rcases q.takeAnswer_cases n c i dead lsn a with ⟨got, heq⟩ | ⟨-, heq⟩ | heq
  · exact heq ▸ h.giveUp call mine _
  · exact heq ▸ h.passOn call mine sorted fun d hd => Nat.lt_succ_of_lt (below d hd)
  · exact heq ▸ h.passOn call mine (sorted_concat sorted below) (below_concat below)

theorem Turns.call {c : Call} {nextLsn : Lsn} (le : q.nextLsn ≤ nextLsn) (waiting : c.pc = .locking)
    (numbered : ∀ rec, c.request = .ship rec → rec.lsn = q.nextLsn ∧ q.nextLsn < nextLsn) :
    Turns { q with nextLsn := nextLsn, calls := q.calls ++ [c] } := by
  refine ⟨?_, fun m m' d d' hd hd' rec rec' hrec hrec' hlsn => ?_, fun m d hd i dead hplace => ?_, h.joined, h.nodup,
    le_trans h.positive le⟩
  · rintro rec ⟨d, hd, heq⟩
    rcases mem_append.1 hd with hold | hnew
    · obtain ⟨hone, hlt⟩ := h.numbered rec ⟨d, hold, heq⟩
      exact ⟨hone, lt_of_lt_of_le hlt le⟩
    · obtain rfl := mem_singleton.1 hnew
      obtain ⟨hlsn, hlt⟩ := numbered rec heq
      exact ⟨hlsn ▸ h.positive, hlsn ▸ hlt⟩
  · -- A number that was given out before is not the next one.
    have old {m : Nat} {d : Call} {rec : WalRecordMsg} (hd : q.calls[m]? = some d) (hrec : d.request = .ship rec) :
        rec.lsn ≠ q.nextLsn :=
      ((h.numbered rec ⟨d, mem_of_getElem? hd, hrec⟩).2).ne
    rcases getElem?_append_cases hd with hold | ⟨rfl, rfl⟩ <;> rcases getElem?_append_cases hd' with hold' | ⟨rfl, rfl⟩
    · exact h.distinct m m' d d' hold hold' rec rec' hrec hrec' hlsn
    · exact absurd (hlsn.trans (numbered rec' hrec').1) (old hold hrec)
    · exact absurd (hlsn.symm.trans (numbered rec hrec).1) (old hold' hrec')
    · rfl
  · rcases getElem?_append_cases hd with hold | ⟨-, rfl⟩
    · exact h.turn m d hold i dead hplace
    · rw [waiting] at hplace
      cases hplace

theorem Turns.locked (free : q.lock = none) : Turns { q with lock := some n } := by
  refine ⟨h.numbered, h.distinct, fun m d hd i dead hplace => ?_, h.joined, h.nodup, h.positive⟩
  obtain ⟨hlock, -⟩ := h.turn m d hd i dead hplace
  rw [free] at hlock
  cases hlock

theorem Turns.step (hs : step blake3 q a = some q') : Turns q' := by
  cases step_effect hs with
  | ship => exact h.call (Nat.le_succ _) rfl fun rec hrec => by cases hrec; exact ⟨rfl, Nat.lt_succ_self _⟩
  | heartbeat => exact h.call (Nat.le_refl _) rfl fun rec hrec => by cases hrec
  | @acquire n c call waiting free => exact (h.locked free).passOn call rfl List.Pairwise.nil (by simp)
  | @wrote n i l rec dead k call conn link =>
    have hsent := h.setLink link (k.deliver (.walRecord rec)) fun hj => (deliver_joined k _).trans hj
    refine hsent.goOn call (h.turn n _ call i dead rfl).1 rfl rfl rfl (fun _ => id) h.nodup fun i' dead' hplace => ?_
    cases hplace
    exact h.turn n _ call i dead rfl
  | @beat n i l lastLsn dead k call conn link =>
    have hsent := h.setLink link (k.deliver (.heartbeat lastLsn)) fun hj => (deliver_joined k _).trans hj
    obtain ⟨mine, -, sorted, below⟩ := h.turn n _ call i dead rfl
    exact hsent.passOn call mine sorted fun d hd => Nat.lt_succ_of_lt (below d hd)
  | @writeFailed n i l request dead k call conn link =>
    obtain ⟨mine, -, sorted, below⟩ := h.turn n _ call i dead rfl
    have hsevered := h.setLink link { k with severed := true } id
    exact hsevered.passOn call mine (sorted_concat sorted below) (below_concat below)
  | @answered n i l rec dead k a lines call conn link =>
    exact (h.setLink link { k with toPrimary := lines } id).takeAnswer call rfl _ _
  | @torn n i l rec dead k a lines call conn link =>
    exact (h.setLink link { k with toPrimary := none :: lines } id).giveUp call (h.turn n _ call i dead rfl).1 _
  | @timedOut n i l rec dead call | @closed n i l rec dead call =>
    exact h.giveUp call (h.turn n _ call i dead rfl).1 _
  | @readFailed n i l rec dead call =>
    obtain ⟨mine, -, sorted, below⟩ := h.turn n _ call i dead rfl
    exact h.passOn call mine (sorted_concat sorted below) (below_concat below)
  | @join l k link new free =>
    have hlinked := h.setLink link { k with joined := true } fun _ => rfl
    refine ⟨h.numbered, h.distinct, fun m d hd i dead hplace => ?_, fun m hm => ?_, ?_, h.positive⟩
    · obtain ⟨hlock, -⟩ := h.turn m d hd i dead hplace
      rw [free] at hlock
      cases hlock
    · rcases mem_append.1 hm with hold | hnew
      · exact hlinked.joined m hold
      · obtain rfl := mem_singleton.1 hnew
        exact ⟨_, getElem?_set_self link _, rfl⟩
    · refine concat_eq_append ▸ h.nodup.concat fun hl => ?_
      obtain ⟨d, hd, hj⟩ := h.joined l hl
      obtain rfl := Option.some.inj (link.symm.trans hd)
      rw [new] at hj
      cases hj
  | @connect r =>
    have hopened : Turns { q with links := q.links ++ [Link.opened r] } :=
      h.congr rfl rfl rfl rfl fun l k hk hj => ⟨k, getElem?_append_of_some hk _, hj⟩
    exact hopened.setReplica r _
  | applied _ _ link | beaten _ _ _ link | refused _ _ _ _ _ link | replied _ _ link | lost _ _ _ _ _ link =>
    exact (h.setLink link _ (by exact id)).setReplica _ _
  | drop => exact h.setReplica _ _

end

theorem Turns.start (ackTimeoutMs replicas : Nat) : Turns (start ackTimeoutMs replicas) := by
  refine ⟨?_, by simp [Network.start], by simp [Network.start], by simp [Network.start], nodup_nil, Nat.le_refl 1⟩
  rintro rec ⟨c, hc, -⟩
  cases hc

end Network

end VectorLedger.Replication
