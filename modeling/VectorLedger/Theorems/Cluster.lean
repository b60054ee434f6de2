import VectorLedger.Replication.Cluster
import VectorLedger.Theorems.Network
import VectorLedger.Theorems.Shipping
import VectorLedger.Theorems.Texts

/-! The log of a replica. What is shipped are rows and not records of a log, so recovery reads nothing of it. -/

namespace VectorLedger

open List Slots

/-! ### Bytes of entries -/

/-- The encoding of an entry starts with its identifier, and an identifier is its bytes behind their number. -/
def Config.IdFirst (cfg : Config) : Prop := ∀ e : JournalEntry, ∃ rest, cfg.encode (.entry e) = 16 :: (Uuid.asBytes e.id ++ rest)

/-- The bytes are those of an entry. -/
def Config.IsEntry (cfg : Config) (bytes : List UInt8) : Prop := ∃ e, bytes = cfg.encode (.entry e)

variable {cfg : Config} {env : Sql.Env} {io : Io} {s s' : LedgerStore}

theorem Effect.lastEntryBytes_cases {op : Op} (h : Effect cfg io s op s') :
    s'.lastEntryBytes = s.lastEntryBytes ∨ ∃ e, s'.lastEntryBytes = some (cfg.encode (.entry e)) := by
  cases h with
  | failed op =>
    refine .inl ?_
    cases op <;> first | rfl | (simp only [Op.begun]; split <;> rfl)
  | posted => exact .inr ⟨_, rfl⟩
  | _ => exact .inl rfl

namespace Sql

theorem execute_lastEntryBytes (cfg : Config) (env : Env) (io : Io) (s : LedgerStore) (plan : LogicalPlan) :
    (execute cfg env io s plan).2.lastEntryBytes = s.lastEntryBytes ∨
      ∃ e, (execute cfg env io s plan).2.lastEntryBytes = some (cfg.encode (.entry e)) := by
  cases plan with
  | postEntry spec =>
    simp only [execute, execPostEntry]
    rcases buildEntry cfg env io s spec with err | e
    · exact .inl rfl
    · have heffect := (LedgerStore.postEntry_called cfg io s e).effect.lastEntryBytes_cases
      rcases hpost : s.postEntry cfg io e with ⟨err | seq, s'⟩ <;> simpa [hpost] using heffect
  | createAccount spec =>
    rcases execCreateAccount_cases cfg env io s spec with hsame | ⟨a, hcreate⟩
    · exact .inl (congrArg LedgerStore.lastEntryBytes hsame)
    · have heffect := (LedgerStore.createAccount_called cfg io s a).effect.lastEntryBytes_cases
      rw [← hcreate] at heffect
      exact heffect

theorem execute_entries (cfg : Config) (env : Env) (io : Io) (plan : LogicalPlan) (ahead : s.txManager.Ahead) :
    (execute cfg env io s plan).2.txManager.Ahead ∧
      ∃ new, committedEntries (execute cfg env io s plan).2.txManager.wal = committedEntries s.txManager.wal ++ new := by
  have hcases := execute_cases cfg env io s plan
  rcases hrun : execute cfg env io s plan with ⟨result, s'⟩
  rw [hrun] at hcases
  cases hcases with
  | nothing _ _ _ ps wrote | posted _ _ _ _ ps wrote =>
    exact ⟨wrote.ahead ahead, _, wrote.entries_eq ahead.noLeftover⟩
  | duplicate => exact ⟨ahead, [], (append_nil _).symm⟩

end Sql

/-! ### The writes of a server -/

namespace WriteServer

variable {q q' : WriteServer} {a : WriteAction}

/-- What is cached and what is still to be shipped are entries, and the entries committed only become more. -/
structure ShipsEntries (cfg : Config) (s : LedgerStore) (q : WriteServer) : Prop where
  ahead : q.ledger.txManager.Ahead
  entries : ∃ new, committedEntries q.ledger.txManager.wal = committedEntries s.txManager.wal ++ new
  cached : ∀ bytes ∈ q.ledger.lastEntryBytes, cfg.IsEntry bytes
  shipping : ∀ c ∈ q.writes, ∀ bytes segment result, c.pc = .shipping bytes segment result → cfg.IsEntry bytes

theorem ShipsEntries.setPc (h : ShipsEntries cfg s q) (n : Nat) (c : WriteCall) {pc : WritePc}
    (hpc : ∀ bytes segment result, pc = .shipping bytes segment result → cfg.IsEntry bytes) :
    ShipsEntries cfg s (q.setPc n c pc) := by
  refine ⟨h.ahead, h.entries, h.cached, fun d hd bytes segment result heq => ?_⟩
  rcases mem_set_cases hd with rfl | ⟨m, -, hold⟩
  · exact hpc bytes segment result heq
  · exact h.shipping d (mem_of_getElem? hold) bytes segment result heq

theorem ShipsEntries.execute (h : ShipsEntries cfg s q) (n : Nat) (c : WriteCall) (plan : Sql.LogicalPlan) :
    ShipsEntries cfg s (q.execute cfg env io n c plan) := by
  have hbytes := Sql.execute_lastEntryBytes cfg env io q.ledger plan
  obtain ⟨ahead, hgrown⟩ := Sql.execute_entries cfg env io plan h.ahead
  rcases hrun : Sql.execute cfg env io q.ledger plan with ⟨result, ledger⟩
  rw [hrun] at hbytes ahead hgrown
  have hcached : ∀ bytes ∈ ledger.lastEntryBytes, cfg.IsEntry bytes := by
    intro bytes hmem
    rcases hbytes with hsame | ⟨e, hentry⟩
    · exact h.cached bytes (hsame ▸ hmem)
    · exact ⟨e, Option.some.inj (hmem.symm.trans hentry)⟩
  have hledger : ShipsEntries cfg s { q with ledger := ledger } := by
    refine ⟨ahead, ?_, hcached, h.shipping⟩
    obtain ⟨new, hnew⟩ := h.entries
    obtain ⟨more, hmore⟩ := hgrown
    exact ⟨new ++ more, by rw [hmore, hnew, append_assoc]⟩
  -- What a post captures is what is cached.
  have hcaptured : ∀ bytes ∈ capture plan result ledger, cfg.IsEntry bytes := by
    intro bytes hmem
    unfold capture at hmem
    split at hmem
    · exact hcached bytes hmem
    · cases hmem
  simp only [WriteServer.execute, hrun]
  split
  case h_1 bytes hlistener hcapture =>
    have hpending : ShipsEntries cfg s { q with ledger := ledger, pending := q.pending ++ [(n, bytes)] } :=
      ⟨hledger.ahead, hledger.entries, hledger.cached, hledger.shipping⟩
    refine hpending.setPc n c fun bytes' segment result' heq => ?_
    cases heq
    exact hcaptured bytes hcapture
  case h_2 => exact hledger.setPc n c (by simp)

/-- Only entries are ever shipped. -/
theorem ShipsEntries.step (h : ShipsEntries cfg s q) (hstep : q.step cfg env a = some q') : ShipsEntries cfg s q' := by
  have submitted (c : WriteCall) (hpc : ∀ bytes segment result, c.pc ≠ .shipping bytes segment result) :
      ShipsEntries cfg s { q with writes := q.writes ++ [c] } := by
    refine ⟨h.ahead, h.entries, h.cached, fun d hd bytes segment result heq => ?_⟩
    rcases mem_append.1 hd with hold | hnew
    · exact h.shipping d hold bytes segment result heq
    · obtain rfl := mem_singleton.1 hnew
      exact absurd heq (hpc bytes segment result)
  cases a with
  | submit listener role ins =>
    simp only [WriteServer.step] at hstep
    rcases haccepted : accept env role ins with err | plan <;> rw [haccepted] at hstep <;> cases hstep <;>
      exact submitted _ (by simp)
  | run n =>
    obtain ⟨c, call, hrun⟩ := Option.bind_eq_some_iff.1 hstep
    rcases hpc : c.pc with plan | ⟨bytes, segment, result⟩ | result <;> simp only [hpc] at hrun <;> cases hrun
    exact h.execute n c plan
  | timeOut n =>
    obtain ⟨c, call, hrun⟩ := Option.bind_eq_some_iff.1 hstep
    rcases hpc : c.pc with plan | ⟨bytes, segment, result⟩ | result <;> rcases hlistener : c.listener with _ | username <;>
      simp only [hpc, hlistener, reduceCtorEq] at hrun
    split at hrun
    · cases hrun
    · cases hrun
      exact h.setPc n c (by simp)
  | ship n =>
    obtain ⟨c, call, hrun⟩ := Option.bind_eq_some_iff.1 hstep
    rcases hpc : c.pc with plan | ⟨bytes, segment, result⟩ | result <;> simp only [hpc] at hrun <;> cases hrun
    have hshipped : ShipsEntries cfg s { q with shipped := q.shipped ++ [(bytes, segment)], pending := q.pending.filter (·.1 ≠ n) } :=
      ⟨h.ahead, h.entries, h.cached, h.shipping⟩
    exact hshipped.setPc n c (by simp)

end WriteServer

namespace Replication

/-! ### The records and the logs of the replicas -/

namespace Network

variable {blake3 : List UInt8 → Hash} {q q' : Network} {a : Action} {rec : WalRecordMsg}

theorem Ships.of_step (hs : step blake3 q a = some q') (hrec : q'.Ships rec) :
    q.Ships rec ∨ ∃ recordBytes segment, a = .ship recordBytes segment ∧ rec = .of blake3 q.nextLsn recordBytes segment := by
  have appended {c : Call} {q₁ : Network} (calls : q₁.calls = q.calls ++ [c]) (hrec : q₁.Ships rec) :
      q.Ships rec ∨ c.request = .ship rec := by
    obtain ⟨d, hd, hrequest⟩ := hrec
    rw [calls] at hd
    rcases mem_append.1 hd with hold | hnew
    · exact .inl ⟨d, hold, hrequest⟩
    · exact .inr (mem_singleton.1 hnew ▸ hrequest)
  cases step_effect hs with
  | ship recordBytes segment =>
    refine (appended rfl hrec).imp_right fun hrequest => ⟨recordBytes, segment, rfl, ?_⟩
    exact (Request.ship.inj hrequest).symm
  | heartbeat => exact .inl ((appended rfl hrec).resolve_right (by simp))
  | @acquire n c call => exact .inl ((ships_passOn (q := { q with lock := some n }) call 0 []).1 hrec)
  | wrote call => exact .inl ((ships_set call ⟨_, rfl⟩).1 hrec)
  | @beat n i l lastLsn dead k call | @writeFailed n i l request dead k call =>
    exact .inl ((ships_passOn (q := q.setLink l _) call _ _).1 hrec)
  | @answered n i l rec' dead k a lines call =>
    rcases (q.setLink l { k with toPrimary := lines }).takeAnswer_cases n ⟨.ship rec', .reading i dead⟩ i dead rec'.lsn a with
      ⟨got, heq⟩ | ⟨-, heq⟩ | heq <;> rw [heq] at hrec
    · exact .inl ((ships_giveUp (q := q.setLink l _) call _).1 hrec)
    · exact .inl ((ships_passOn (q := q.setLink l _) call _ _).1 hrec)
    · exact .inl ((ships_passOn (q := q.setLink l _) call _ _).1 hrec)
  | @torn n i l rec' dead k a lines call => exact .inl ((ships_giveUp (q := q.setLink l _) call _).1 hrec)
  | timedOut call | closed call => exact .inl ((ships_giveUp call _).1 hrec)
  | readFailed call => exact .inl ((ships_passOn call _ _).1 hrec)
  | _ => exact .inl hrec

theorem hexDecode_of_handle {lastLsn : Lsn} {recordBytes : List UInt8}
    (h : handle blake3 lastLsn (.walRecord rec) = .apply rec recordBytes) : FourEyes.hexDecode rec.recordHex = .ok recordBytes := by
  simp only [handle] at h
  split at h
  · cases h
  next hdecoded =>
    split at h
    · cases h
    · cases h
      exact hdecoded

/-- The log of a replica is as it was, or has grown by the bytes of a record, or by a part of them. -/
def Took (q : Network) (rp rp' : Replica) : Prop :=
  rp'.wal = rp.wal ∨ ∃ rec recordBytes part, q.Ships rec ∧ FourEyes.hexDecode rec.recordHex = .ok recordBytes ∧
    part <+: recordBytes ∧ rp'.wal = applyBytes part rec.segment rp.wal

theorem wal_of_step (wire : Wire q) (hs : step blake3 q a = some q') {rp' : Replica} (hrp' : rp' ∈ q'.replicas) :
    ∃ rp ∈ q.replicas, Took q rp rp' := by
  have same (replicas : q'.replicas = q.replicas) : ∃ rp ∈ q.replicas, Took q rp rp' := ⟨rp', replicas ▸ hrp', .inl rfl⟩
  have other {r : Nat} {rp₁ : Replica} (replica : q.replicas[r]? = some rp₁) {rp₂ : Replica} (hmem : rp' ∈ q.replicas.set r rp₂)
      (own : Took q rp₁ rp₂) : ∃ rp ∈ q.replicas, Took q rp rp' := by
    rcases mem_set_cases hmem with rfl | ⟨m, -, hold⟩
    · exact ⟨rp₁, mem_of_getElem? replica, own⟩
    · exact ⟨rp', mem_of_getElem? hold, .inl rfl⟩
  cases step_effect hs with
  | connect replica | beaten _ replica | replied replica | lost _ _ _ replica | drop replica =>
    exact other replica hrp' (.inl rfl)
  | @applied r rp s k rec msgs recordBytes replica session link next handled =>
    refine other replica hrp' (.inr ⟨rec, recordBytes, recordBytes, ?_, hexDecode_of_handle handled, prefix_rfl, rfl⟩)
    exact wire.sent s.link k link rec (by simp [next])
  | @refused r rp s k rec msgs outcome wal answers replica session link next noAck written =>
    refine other replica hrp' (written.imp_right ?_)
    rintro ⟨recordBytes, n, handled, rfl⟩
    refine ⟨rec, recordBytes, recordBytes.take n, ?_, hexDecode_of_handle handled, take_prefix _ _, rfl⟩
    exact wire.sent s.link k link rec (by simp [next])
  | _ => first | exact same rfl | exact same (by simp)

end Network

/-! ### Recovery on a replica -/

/-- Every file is empty or begins with a byte that begins no record. -/
def Foreign (d : Wal.Dir) : Prop := ∀ f ∈ d, ∀ b ∈ f.bytes.head?, b = 16

theorem Foreign.applyBytes {d : Wal.Dir} (h : Foreign d) {part : List UInt8} (hpart : ∀ b ∈ part.head?, b = 16) (segment : Nat) :
    Foreign (applyBytes part segment d) := by
  have hnew : ∀ b ∈ (⟨segment, part⟩ : Wal.SegmentFile).bytes.head?, b = 16 := hpart
  induction d with
  | nil =>
    intro f hf
    obtain rfl := mem_singleton.1 hf
    exact hnew
  | cons f fs ih =>
    have hf : ∀ b ∈ f.bytes.head?, b = 16 := h f mem_cons_self
    have hfs : Foreign fs := fun g hg => h g (mem_cons_of_mem _ hg)
    unfold Replication.applyBytes
    split
    · exact forall_mem_cons.2 ⟨hnew, h⟩
    · split
      · refine forall_mem_cons.2 ⟨fun b hb => ?_, hfs⟩
        rw [Option.mem_def, head?_append, Option.or_eq_some_iff] at hb
        exact hb.elim (hf b) fun hlast => hpart b hlast.2
      · exact forall_mem_cons.2 ⟨hf, ih hfs⟩

theorem readSegment_foreign (c : Wal.Crypto) (masterKey : Option Wal.WalKey) (index : Nat) {bs : Wal.Bytes}
    (h : ∀ b ∈ bs.head?, b = 16) : Wal.readSegment c masterKey index bs = [] := by
  have hended (offset : Nat) : Wal.nextRecord c masterKey index offset bs = .ended := by
    cases bs with
    | nil => rfl
    | cons b bs =>
      obtain rfl : b = 16 := h b rfl
      -- The last byte of both magic numbers is another one.
      have hmagic : leNat ((16 :: bs).take 4) = 16 + 256 * leNat (bs.take 3) := rfl
      have hencrypted : leNat ((16 :: bs).take 4) ≠ Wal.encryptedMagic.toNat := by
        rw [hmagic, show Wal.encryptedMagic.toNat = 82 + 256 * 4544332 from rfl]
        omega
      have hplain : leNat ((16 :: bs).take 4) ≠ Wal.walMagic.toNat := by
        rw [hmagic, show Wal.walMagic.toNat = 66 + 256 * 5654340 from rfl]
        omega
      unfold Wal.nextRecord Wal.readExact
      by_cases hlen : (16 :: bs).length < 4
      · simp only [if_pos hlen]
      · simp only [if_neg hlen, if_neg hencrypted, ne_eq, hplain, not_false_eq_true, if_true]
  simp only [Wal.readSegment, Frames.readFrom, Frames.scan, hended]

theorem replayWal_foreign (c : Wal.Crypto) (v : Wal.Verifier) {d : Wal.Dir} (h : Foreign d) :
    (replayWal c v d).map entryRows = .ok [] := by
  have hread : Wal.readDir c none d = [] :=
    flatMap_eq_nil_iff.2 fun f hf => readSegment_foreign c none f.index (h f hf)
  simp only [replayWal, Wal.recover, Wal.recoverWithOptions, hread]
  rfl

namespace Cluster

variable {q q' : Cluster} {a : ClusterAction}

/-- What is shipped are entries, and so is what the logs of the replicas start with. -/
structure RowsOnly (cfg : Config) (s : LedgerStore) (q : Cluster) : Prop where
  server : q.server.ShipsEntries cfg s
  wire : q.network.Wire
  ships : ∀ rec, q.network.Ships rec → ∃ bytes, cfg.IsEntry bytes ∧ rec.recordHex = hexEncode bytes
  wal : ∀ rp ∈ q.network.replicas, Foreign rp.wal

theorem RowsOnly.network (h : RowsOnly cfg s q) (first : cfg.IdFirst) {act : Action} {network : Network}
    (hs : q.network.step cfg.blake3 act = some network)
    (entries : ∀ recordBytes segment, act = .ship recordBytes segment → cfg.IsEntry recordBytes) :
    network.Wire ∧ (∀ rec, network.Ships rec → ∃ bytes, cfg.IsEntry bytes ∧ rec.recordHex = hexEncode bytes) ∧
      ∀ rp ∈ network.replicas, Foreign rp.wal := by
  refine ⟨h.wire.step hs, fun rec hrec => ?_, fun rp' hrp' => ?_⟩
  · rcases hrec.of_step hs with hold | ⟨recordBytes, segment, rfl, rfl⟩
    · exact h.ships rec hold
    · exact ⟨recordBytes, entries recordBytes segment rfl, rfl⟩
  · obtain ⟨rp, hrp, hsame | ⟨rec, recordBytes, part, hships, hdecoded, hpart, hwal⟩⟩ := Network.wal_of_step h.wire hs hrp'
    · exact hsame ▸ h.wal rp hrp
    · obtain ⟨bytes, ⟨e, rfl⟩, hhex⟩ := h.ships rec hships
      rw [hhex, FourEyes.hexDecode_hexEncode] at hdecoded
      cases hdecoded
      obtain ⟨rest, hrest⟩ := first e
      rw [hwal]
      refine (h.wal rp hrp).applyBytes (fun b hb => ?_) rec.segment
      -- The front of an entry starts with the number of bytes of its identifier.
      rw [hrest] at hpart
      cases part with
      | nil => cases hb
      | cons =>
        cases hb
        exact (cons_prefix_cons.1 hpart).1

theorem RowsOnly.step (h : RowsOnly cfg s q) (first : cfg.IdFirst) (hs : q.step cfg env a = some q') : RowsOnly cfg s q' := by
  have hserver {act : WriteAction} {server : WriteServer} (hstep : q.server.step cfg env act = some server) :
      RowsOnly cfg s { q with server := server } := ⟨h.server.step hstep, h.wire, h.ships, h.wal⟩
  have hnetwork {act : Action} {network : Network} (hstep : q.network.step cfg.blake3 act = some network)
      (quiet : ∀ recordBytes segment, act ≠ .ship recordBytes segment) : RowsOnly cfg s { q with network := network } := by
    obtain ⟨wire, ships, wal⟩ := h.network first hstep fun recordBytes segment heq => absurd heq (quiet recordBytes segment)
    exact ⟨h.server, wire, ships, wal⟩
  cases a with
  | server act =>
    cases act with
    | ship =>
      simp only [Cluster.step, Option.bind_eq_bind, Option.bind_eq_some_iff] at hs
      obtain ⟨c, call, server, hstep, hs⟩ := hs
      cases hpc : c.pc with
      | shipping bytes segment result =>
        simp only [hpc] at hs
        cases hs
        have hentry := h.server.shipping c (mem_of_getElem? call) bytes segment result hpc
        obtain ⟨wire, ships, wal⟩ := h.network first (rfl : q.network.step cfg.blake3 (.ship bytes segment) = some _) fun recordBytes segment' heq => by
          cases heq
          exact hentry
        exact ⟨h.server.step hstep, wire, ships, wal⟩
      | locking | done => simp [hpc] at hs
    | submit | run | timeOut =>
      obtain ⟨server, hstep, rfl⟩ := Option.map_eq_some_iff.1 hs
      exact hserver hstep
  | network act =>
    cases act with
    | ship => cases hs
    | _ =>
      simp only [Cluster.step, Option.map_eq_some_iff] at hs
      obtain ⟨network, hstep, rfl⟩ := hs
      exact hnetwork hstep (by simp)

theorem RowsOnly.start (ahead : s.txManager.Ahead) (cold : s.lastEntryBytes = none) (queryTimeoutMs ackTimeoutMs replicas : Nat) :
    RowsOnly cfg s (Cluster.start s queryTimeoutMs ackTimeoutMs replicas) := by
  refine ⟨⟨ahead, ⟨[], (append_nil _).symm⟩, ?_, fun _ h => nomatch h⟩, .start _ _, ?_, fun rp hrp => ?_⟩
  · intro bytes hbytes
    rw [show (Cluster.start s queryTimeoutMs ackTimeoutMs replicas).server.ledger.lastEntryBytes = none from cold] at hbytes
    cases hbytes
  · rintro rec ⟨c, hc, -⟩
    cases hc
  · obtain rfl : rp = ⟨none, [], []⟩ := eq_of_mem_replicate hrp
    exact fun f hf => nomatch hf

/-- In every run on a ledger that was just opened, a replica recovers the entries committed since the start exactly if
    there are none. -/
theorem replayed_iff (cfg : Config) (env : Sql.Env) (first : cfg.IdFirst) (s : LedgerStore)
    (ahead : s.txManager.Ahead) (cold : s.lastEntryBytes = none) (queryTimeoutMs ackTimeoutMs replicas : Nat) (q : Cluster)
    (run : Run.Reachable (step cfg env) (fun _ _ => True) (start s queryTimeoutMs ackTimeoutMs replicas) q) :
    ∃ new, committedEntries q.server.ledger.txManager.wal = committedEntries s.txManager.wal ++ new ∧
      ∀ rp ∈ q.network.replicas, ∀ c v,
        ((replayWal c v rp.wal).map entryRows = .ok (new.map fun e => cfg.encode (.entry e)) ↔ new = []) := by
  have h : RowsOnly cfg s q := run.invariant (RowsOnly.start ahead cold _ _ _) fun _ _ _ h _ hs => h.step first hs
  obtain ⟨new, hnew⟩ := h.server.entries
  refine ⟨new, hnew, fun rp hrp c v => ?_⟩
  rw [replayWal_foreign c v (h.wal rp hrp), Except.ok.injEq, eq_comm, map_eq_nil_iff]

/-- No line is lost, and no connection breaks. -/
def Connected : ClusterAction → Prop
  | .network (.write _ ok) => ok = true
  | .network (.read _ outcome) => outcome = .line
  | .network (.receive _ outcome) => outcome = .all
  | .network (.answer _ outcome) => outcome = .sent
  | .network (.drop _) => False
  | _ => True

instance : DecidablePred Connected := fun a => by
  unfold Connected
  split <;> infer_instance

namespace Sample

/-- A configuration in which the bytes of an entry are its identifier and its sequence number. -/
def config : Config := { VectorLedger.Sample.config with
  encode
    | .entry e => 16 :: (Uuid.asBytes e.id ++ [UInt8.ofNat e.sequence])
    | _ => [] }

def cluster : Cluster := .start (.initial (.fresh none)) 500 1000 1

def shipping : List ClusterAction :=
  [.network (.connect 0), .network (.join 0)] ++ WriteServer.Sample.accounts.map .server ++
    [.server (.submit .native .admin (WriteServer.Sample.keyed "a")), .server (WriteServer.Sample.run 2 10), .server (.ship 2),
      .network (.acquire 0), .network (.write 0 true), .network (.receive 0 .all), .network (.answer 0 .sent),
      .network (.read 0 .line)]

end Sample

open Cluster.Sample

theorem replayed_iff_shipped : ∃ q new, Run.exec (step config VectorLedger.Sample.sqlEnv) cluster shipping = some q ∧
      committedEntries q.server.ledger.txManager.wal = new ∧ new.length = 1 ∧ ∀ rp ∈ q.network.replicas, ∀ c v,
        ((replayWal c v rp.wal).map entryRows = .ok (new.map fun e => config.encode (.entry e)) ↔ new = []) := by
  have hq : Run.exec (step config VectorLedger.Sample.sqlEnv) cluster shipping = some _ := rfl
  have run := Run.reachable_of_exec (by decide +kernel : Run.Allowed _ (fun _ _ => True) _ _) hq
  obtain ⟨new, hnew, hreplayed⟩ := replayed_iff config VectorLedger.Sample.sqlEnv (fun _ => ⟨_, rfl⟩) _
    (LedgerStore.ahead_initial none) rfl 500 1000 1 _ run
  exact ⟨_, new, hq, hnew, (congrArg length hnew).symm.trans (by decide +kernel), hreplayed⟩

/-- The replica has acknowledged the entry, and does not recover it. -/
theorem shipped_not_replayed :
    ∃ q e, Run.Reachable (step config VectorLedger.Sample.sqlEnv) (fun _ => Connected) cluster q ∧
      q.network.calls.map Call.pc = [.done (.ok 1)] ∧ committedEntries q.server.ledger.txManager.wal = [e] ∧
      q.network.replicas.length = 1 ∧ ∀ rp ∈ q.network.replicas, rp.applied.map WalRecordMsg.lsn = [1] ∧
        ∀ c v, (replayWal c v rp.wal).map entryRows = .ok [] := by
  have hq : Run.exec (step config VectorLedger.Sample.sqlEnv) cluster shipping = some _ := rfl
  have run := Run.reachable_of_exec (by decide +kernel : Run.Allowed _ (fun _ => Connected) _ _) hq
  refine ⟨_, _, run, by decide +kernel, rfl, by decide +kernel, fun rp hrp => ?_⟩
  have hlogs : rp.applied.map WalRecordMsg.lsn = [1] ∧ ∀ f ∈ rp.wal, ∀ b ∈ f.bytes.head?, b = 16 := by
    revert rp
    decide +kernel
  exact ⟨hlogs.1, fun c v => replayWal_foreign c v hlogs.2⟩

end Cluster

end Replication

end VectorLedger
