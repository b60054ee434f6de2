import VectorLedger.Lib.Slots
import VectorLedger.Server.Shipping
import VectorLedger.Theorems.Amounts
import VectorLedger.Theorems.Events

/-! What is handed to the WAL shipper, and when it is the entries committed. -/

namespace VectorLedger

open List Slots

/-! ### One write -/

variable {cfg : Config} {env : Sql.Env} {io : Io} {s s' : LedgerStore}

theorem LedgerStore.postEntry_cases (cfg : Config) (io : Io) (s : LedgerStore) (e : JournalEntry) :
    (∃ err s', s.postEntry cfg io e = (.error err, s') ∧ Wrote cfg s.txManager [] s'.txManager) ∨
      (∃ seq, s.duplicateOf e = some seq ∧ s.postEntry cfg io e = (.ok seq, s)) ∨
      ∃ s' ps, s.postEntry cfg io e = (.ok (s.sealEntry cfg io e).sequence, s') ∧ Wrote cfg s.txManager ps s'.txManager ∧
        entriesOf ps = [s.sealEntry cfg io e] ∧
        s'.lastEntryBytes = some (cfg.encode (.entry (s.sealEntry cfg io e))) := by
  unfold postEntry
  rcases valid : e.validate with err | ⟨⟩
  · exact .inl ⟨err, s, rfl, .nothing⟩
  cases fresh : s.duplicateOf e with
  | some sequence => exact .inr (.inl ⟨sequence, rfl, rfl⟩)
  | none =>
    rcases checked : s.checkEntry cfg e with err | ⟨⟩
    · exact .inl ⟨err, s, rfl, .nothing⟩
    rcases persistRow_effect cfg io s.takeSequence (.entry (s.sealEntry cfg io e)) .insert
        (some (s.sealEntry cfg io e).prevHash) with
      ⟨tm, c₁, c₂, page, slot, hrun, wrote, -⟩ | ⟨err, tm, c₁, c₂, hrun, wrote, -⟩
    · simp only [hrun, updateBalances_eq]
      exact .inr (.inr ⟨_, [_], rfl, wrote, rfl, rfl⟩)
    · simp only [hrun]
      exact .inl ⟨err, _, rfl, wrote⟩

namespace Sql

/-- What an INSERT can do: commit no entry and give nothing to ship, be answered from its idempotency key, or commit the
    entry whose bytes are cached. -/
inductive Executed (cfg : Config) (env : Env) (io : Io) (s : LedgerStore) :
    LogicalPlan → Except SqlError QueryResult → LedgerStore → Prop where
  | nothing (plan : LogicalPlan) (result : Except SqlError QueryResult) (s' : LedgerStore) (ps : List DataPayload)
      (wrote : Wrote cfg s.txManager ps s'.txManager) (empty : entriesOf ps = [])
      (uncaptured : WriteServer.capture plan result s' = none) : Executed cfg env io s plan result s'
  | duplicate (spec : EntrySpec) (e : JournalEntry) (seq : Nat) (result : QueryResult)
      (built : buildEntry cfg env io s spec = .ok e) (known : s.duplicateOf e = some seq) :
      Executed cfg env io s (.postEntry spec) (.ok result) s
  | posted (spec : EntrySpec) (e : JournalEntry) (result : QueryResult) (s' : LedgerStore) (ps : List DataPayload)
      (wrote : Wrote cfg s.txManager ps s'.txManager) (one : entriesOf ps = [e])
      (cached : s'.lastEntryBytes = some (cfg.encode (.entry e))) :
      Executed cfg env io s (.postEntry spec) (.ok result) s'

theorem execute_cases (cfg : Config) (env : Env) (io : Io) (s : LedgerStore) (plan : LogicalPlan) :
    Executed cfg env io s plan (execute cfg env io s plan).1 (execute cfg env io s plan).2 := by
  cases plan with
  | postEntry spec =>
    simp only [execute, execPostEntry]
    rcases built : buildEntry cfg env io s spec with err | e
    · exact .nothing _ _ _ [] .nothing rfl rfl
    · rcases s.postEntry_cases cfg io e with ⟨err, s', hpost, wrote⟩ | ⟨seq, known, hpost⟩ |
          ⟨s', ps, hpost, wrote, one, cached⟩
      · simp only [hpost]
        exact .nothing _ _ _ [] wrote rfl rfl
      · simp only [hpost]
        exact .duplicate spec e seq _ built known
      · simp only [hpost]
        exact .posted spec _ _ s' ps wrote one cached
  | createAccount spec =>
    obtain ⟨ps, wrote, hentries⟩ : ∃ ps, Wrote cfg s.txManager ps (execCreateAccount cfg env io s spec).2.txManager ∧
        entriesOf ps = [] := by
      rcases execCreateAccount_cases cfg env io s spec with hsame | ⟨a, hcreate⟩
      · exact ⟨[], by rw [hsame]; exact .nothing, rfl⟩
      · rw [hcreate]
        obtain ⟨ps, wrote, hnone | ⟨e, -, origin⟩⟩ := (LedgerStore.createAccount_called cfg io s a).effect.origin
        · exact ⟨ps, wrote, hnone⟩
        · cases origin
    exact .nothing _ _ _ ps wrote hentries rfl

end Sql

namespace WriteServer

variable {q q' : WriteServer} {n : Nat} {c : WriteCall} {pc : WritePc}

def record (cfg : Config) (e : JournalEntry) : List UInt8 := cfg.encode (.entry e)

/-- What holds at every moment of a run: the entries committed since the start are those shipped and those still to be
    shipped, in this order. -/
structure Kept (cfg : Config) (s : LedgerStore) (q : WriteServer) : Prop where
  ahead : q.ledger.txManager.Ahead
  entries : ∃ new, committedEntries q.ledger.txManager.wal = committedEntries s.txManager.wal ++ new ∧
    new.map (record cfg) = q.shipped.map Prod.fst ++ q.pending.map Prod.snd
  pending : ∀ x ∈ q.pending, ∃ listener segment result, q.writes[x.1]? = some ⟨listener, .shipping x.2 segment result⟩
  distinct : (q.pending.map Prod.fst).Nodup

def toPost : WritePc → Option Sql.EntrySpec
  | .locking (.postEntry spec) => some spec
  | _ => none

/-- Entries are posted over the native listener, none is answered from its idempotency key once there are bytes to ship
    again, and the writes ship in the order in which they had the lock. -/
def Orderly (cfg : Config) (env : Sql.Env) (q : WriteServer) : WriteAction → Prop
  | .run n io => ∀ c ∈ q.writes[n]?, ∀ spec ∈ toPost c.pc, c.listener = .native ∧
    ∀ e ∈ (Sql.buildEntry cfg env io q.ledger spec).toOption, q.ledger.duplicateOf e = none ∨ q.ledger.lastEntryBytes = none
  | .ship n => q.pending.head?.map Prod.fst = some n
  | .submit _ _ _ | .timeOut _ => True

theorem Kept.set (h : Kept cfg s q) (idle : ∀ x ∈ q.pending, x.1 ≠ n) (pc : WritePc) : Kept cfg s (q.setPc n c pc) := by
  refine ⟨h.ahead, h.entries, fun x hx => ?_, h.distinct⟩
  obtain ⟨listener, segment, result, hcall⟩ := h.pending x hx
  refine ⟨listener, segment, result, ?_⟩
  rw [setPc, getElem?_set_ne (Ne.symm (idle x hx)), hcall]

theorem Kept.idle (h : Kept cfg s q) (call : q.writes[n]? = some c)
    (hpc : ∀ bytes segment result, c.pc ≠ .shipping bytes segment result) : ∀ x ∈ q.pending, x.1 ≠ n := by
  rintro x hx rfl
  obtain ⟨listener, segment, result, hcall⟩ := h.pending x hx
  obtain rfl := Option.some.inj (call.symm.trans hcall)
  exact hpc _ _ _ rfl

theorem Kept.unshipped {ps : List DataPayload} (h : Kept cfg s q) (wrote : Wrote cfg q.ledger.txManager ps s'.txManager)
    (empty : entriesOf ps = []) : Kept cfg s { q with ledger := s' } := by
  refine ⟨wrote.ahead h.ahead, ?_, h.pending, h.distinct⟩
  obtain ⟨new, hentries, hrecords⟩ := h.entries
  refine ⟨new, ?_, hrecords⟩
  rw [wrote.entries_eq h.ahead.noLeftover, empty, append_nil, hentries]

theorem Kept.posted {ps : List DataPayload} {e : JournalEntry} (h : Kept cfg s q) (call : q.writes[n]? = some c)
    (idle : ∀ x ∈ q.pending, x.1 ≠ n) (wrote : Wrote cfg q.ledger.txManager ps s'.txManager) (one : entriesOf ps = [e])
    (segment : Nat) (result : Except WriteError Sql.QueryResult) :
    Kept cfg s ({ q with ledger := s', pending := q.pending ++ [(n, record cfg e)] }.setPc n c
      (.shipping (record cfg e) segment result)) := by
  refine ⟨wrote.ahead h.ahead, ?_, fun x hx => ?_, ?_⟩
  · obtain ⟨new, hentries, hrecords⟩ := h.entries
    refine ⟨new ++ [e], ?_, ?_⟩
    · rw [setPc, wrote.entries_eq h.ahead.noLeftover, one, hentries, append_assoc]
    · simp [setPc, hrecords]
  · rcases mem_append.1 hx with hold | hnew
    · obtain ⟨listener, segment', result', hcall⟩ := h.pending x hold
      refine ⟨listener, segment', result', ?_⟩
      rw [setPc, getElem?_set_ne (Ne.symm (idle x hold)), hcall]
    · obtain rfl := mem_singleton.1 hnew
      exact ⟨c.listener, segment, result, getElem?_set_self call _⟩
  · simp only [setPc, map_append, map_cons, map_nil, nodup_append, mem_map]
    refine ⟨h.distinct, nodup_singleton n, ?_⟩
    rintro _ ⟨x, hx, rfl⟩ b hb rfl
    exact idle x hx (mem_singleton.1 hb)

theorem execute_uncaptured {plan : Sql.LogicalPlan} {result : Except Sql.SqlError Sql.QueryResult}
    (hrun : Sql.execute cfg env io q.ledger plan = (result, s')) (uncaptured : capture plan result s' = none) :
    q.execute cfg env io n c plan = { q with ledger := s' }.setPc n c (.done (result.mapError .execution)) := by
  simp only [WriteServer.execute, hrun, uncaptured]
  cases c.listener <;> rfl

theorem Kept.execute {plan : Sql.LogicalPlan} (h : Kept cfg s q) (call : q.writes[n]? = some c)
    (locking : c.pc = .locking plan) (orderly : Orderly cfg env q (.run n io)) : Kept cfg s (q.execute cfg env io n c plan) := by
  have idle := h.idle call (by simp [locking])
  rcases hrun : Sql.execute cfg env io q.ledger plan with ⟨result, s'⟩
  have hcases := Sql.execute_cases cfg env io q.ledger plan
  rw [hrun] at hcases
  cases hcases with
  | nothing _ _ _ ps wrote empty uncaptured =>
    rw [execute_uncaptured hrun uncaptured]
    exact (h.unshipped wrote empty).set idle _
  | duplicate spec e seq result built known =>
    -- with nothing cached there is nothing to ship again
    obtain ⟨-, hdup⟩ := orderly c call spec (by simp [toPost, locking])
    rcases hdup e (by rw [built]; rfl) with hfresh | hcold
    · simp [known] at hfresh
    · rw [execute_uncaptured hrun hcold]
      exact h.set idle _
  | posted spec e result _ ps wrote one cached =>
    obtain ⟨native, -⟩ := orderly c call spec (by simp [toPost, locking])
    simp only [WriteServer.execute, hrun, capture, cached, native]
    exact h.posted call idle wrote one _ _

theorem Kept.shipped {bytes : List UInt8} {segment : Nat} {result : Except WriteError Sql.QueryResult} (h : Kept cfg s q)
    (call : q.writes[n]? = some c) (shipping : c.pc = .shipping bytes segment result)
    (first : q.pending.head?.map Prod.fst = some n) :
    Kept cfg s ({ q with
      shipped := q.shipped ++ [(bytes, segment)]
      pending := q.pending.filter (·.1 ≠ n) }.setPc n c (.done result)) := by
  obtain ⟨x, rest, hpending, rfl⟩ : ∃ x rest, q.pending = x :: rest ∧ x.1 = n := by
    cases hp : q.pending with
    | nil => simp [hp] at first
    | cons x rest => exact ⟨x, rest, rfl, by simpa [hp] using first⟩
  have hdistinct : x.1 ∉ rest.map Prod.fst ∧ (rest.map Prod.fst).Nodup := by
    simpa [hpending] using h.distinct
  have hrest : ∀ y ∈ rest, y.1 ≠ x.1 := fun y hy heq => hdistinct.1 (heq ▸ mem_map_of_mem hy)
  have hfilter : (q.pending.filter fun y => decide (y.1 ≠ x.1)) = rest := by
    rw [hpending, filter_cons_of_neg (by simp)]
    exact filter_eq_self.2 fun y hy => by simpa using hrest y hy
  have hbytes : x.2 = bytes := by
    obtain ⟨listener, segment', result', hcall⟩ := h.pending x (by simp [hpending])
    obtain rfl := Option.some.inj (call.symm.trans hcall)
    cases shipping
    rfl
  rw [hfilter]
  refine ⟨h.ahead, ?_, fun y hy => ?_, hdistinct.2⟩
  · obtain ⟨new, hentries, hrecords⟩ := h.entries
    exact ⟨new, hentries, by simp [setPc, hrecords, hpending, hbytes]⟩
  · obtain ⟨listener, segment', result', hcall⟩ := h.pending y (hpending ▸ mem_cons_of_mem x hy)
    refine ⟨listener, segment', result', ?_⟩
    rw [setPc, getElem?_set_ne (Ne.symm (hrest y hy)), hcall]

theorem Kept.submitted (h : Kept cfg s q) (c : WriteCall) : Kept cfg s { q with writes := q.writes ++ [c] } := by
  refine ⟨h.ahead, h.entries, fun x hx => ?_, h.distinct⟩
  obtain ⟨listener, segment, result, hcall⟩ := h.pending x hx
  exact ⟨listener, segment, result, getElem?_append_of_some hcall _⟩

/-- An action keeps the entries committed those shipped and still to be shipped. -/
theorem Kept.step {a : WriteAction} (h : Kept cfg s q) (orderly : Orderly cfg env q a)
    (hstep : q.step cfg env a = some q') : Kept cfg s q' := by
  cases a with
  | submit listener role ins =>
    simp only [WriteServer.step] at hstep
    rcases haccepted : accept env role ins with err | plan <;> rw [haccepted] at hstep <;> cases hstep <;> exact h.submitted _
  | run =>
    obtain ⟨c, call, hrun⟩ := Option.bind_eq_some_iff.1 hstep
    rcases hpc : c.pc with plan | ⟨bytes, segment, result⟩ | result <;> simp only [hpc] at hrun <;> cases hrun
    exact h.execute call hpc orderly
  | timeOut =>
    obtain ⟨c, call, hrun⟩ := Option.bind_eq_some_iff.1 hstep
    rcases hpc : c.pc with plan | ⟨bytes, segment, result⟩ | result <;> rcases hlistener : c.listener with _ | username <;>
      simp only [hpc, hlistener, reduceCtorEq] at hrun
    -- the statement still awaits the lock, so it has committed nothing
    split at hrun
    · cases hrun
    · cases hrun
      exact h.set (h.idle call (by simp [hpc])) _
  | ship =>
    obtain ⟨c, call, hrun⟩ := Option.bind_eq_some_iff.1 hstep
    rcases hpc : c.pc with plan | ⟨bytes, segment, result⟩ | result <;> simp only [hpc] at hrun <;> cases hrun
    exact h.shipped call hpc orderly

theorem Kept.start (ahead : s.txManager.Ahead) (ms : Nat) : Kept cfg s (start s ms) :=
  ⟨ahead, ⟨[], by simp [WriteServer.start], rfl⟩, fun _ h => (nomatch h), nodup_nil⟩

def finished : WritePc → Bool
  | .done _ => true
  | .locking _ | .shipping _ _ _ => false

/-- In every run that is orderly, the records shipped, and after them those that are still to be shipped, are the entries
    committed since the start, each once and in order; and once every write is over, nothing is still to be shipped. -/
theorem shipped_records_committed (cfg : Config) (env : Sql.Env) (s : LedgerStore) (ms : Nat) (ahead : s.txManager.Ahead)
    (q : WriteServer) (run : Run.Reachable (step cfg env) (Orderly cfg env) (.start s ms) q) :
    ∃ new, committedEntries q.ledger.txManager.wal = committedEntries s.txManager.wal ++ new ∧
      new.map (record cfg) = q.shipped.map Prod.fst ++ q.pending.map Prod.snd ∧
      ((∀ c ∈ q.writes, finished c.pc) → new.map (record cfg) = q.shipped.map Prod.fst) := by
  have h : Kept cfg s q := run.invariant (Kept.start ahead ms) fun _ _ _ h orderly hstep => h.step orderly hstep
  obtain ⟨new, hentries, hrecords⟩ := h.entries
  refine ⟨new, hentries, hrecords, fun hover => ?_⟩
  have hpending : q.pending = [] := eq_nil_iff_forall_not_mem.2 fun x hx => by
    obtain ⟨listener, segment, result, hcall⟩ := h.pending x hx
    exact absurd (hover _ (mem_of_getElem? hcall)) Bool.false_ne_true
  rw [hrecords, hpending, map_nil, append_nil]

instance (cfg : Config) (env : Sql.Env) (q : WriteServer) (a : WriteAction) : Decidable (Orderly cfg env q a) := by
  cases a <;> unfold Orderly <;> infer_instance

namespace Sample

def config : Config := { VectorLedger.Sample.config with
  encode
    | .entry e => [UInt8.ofNat e.sequence]
    | _ => [] }

def server : WriteServer := .start (.initial (.fresh none)) 500

def account (code accountType : String) : Sql.Insert where
  tableName := "accounts"
  columns := ["code", "name", "account_type", "currency"]
  source := some (.values [[.singleQuotedString code, .singleQuotedString "sample", .singleQuotedString accountType,
    .singleQuotedString "USD"]])

def keyed (key : String) : Sql.Insert where
  tableName := "ledger"
  columns := ["amount", "description", "debit_account", "credit_account", "currency", "idempotency_key"]
  source := some (.values [[.number "5", .singleQuotedString "sample", .singleQuotedString "1001",
    .singleQuotedString "4001", .singleQuotedString "USD", .singleQuotedString key]])

def accounts : List WriteAction :=
  [.submit .native .admin (account "1001" "asset"), .run 0 { VectorLedger.Sample.io with newId := 1 },
    .submit .native .admin (account "4001" "income"), .run 1 { VectorLedger.Sample.io with newId := 2 }]

def run (n : Nat) (id : Uuid) : WriteAction := .run n { VectorLedger.Sample.io with newId := id }

def outcome (q : WriteServer) : List (List UInt8) × List (List UInt8) :=
  ((committedEntries q.ledger.txManager.wal).map (record config), q.shipped.map Prod.fst)

/-- Three posts, two of which have the lock before either ships; the other times out. -/
def orderly : List WriteAction :=
  accounts ++ [.submit .native .admin (keyed "a"), .submit .native .admin (keyed "b"), .submit .native .admin (keyed "c"),
    run 3 10, .timeOut 4, run 2 11, .ship 3, .ship 2]

end Sample

theorem shipped_records_committed_two :
    ∃ q, Run.exec (step Sample.config Sample.sqlEnv) Sample.server Sample.orderly = some q ∧
      (committedEntries q.ledger.txManager.wal).map (record Sample.config) = q.shipped.map Prod.fst ∧
      q.shipped.map Prod.fst = [[1], [2]] := by
  obtain ⟨q, hq, hshipped, hover⟩ : ∃ q,
      Run.exec (step Sample.config Sample.sqlEnv) Sample.server Sample.orderly = some q ∧ q.shipped.map Prod.fst =
      [[1], [2]] ∧ ∀ c ∈ q.writes, finished c.pc := by decide +kernel
  have run := Run.reachable_of_exec (by decide +kernel : Run.Allowed _ (Orderly Sample.config Sample.sqlEnv) _ _) hq
  obtain ⟨new, hentries, -, hnew⟩ := shipped_records_committed Sample.config Sample.sqlEnv _ 500
    (LedgerStore.ahead_initial none) q run
  rw [show committedEntries (LedgerStore.initial (.fresh none)).txManager.wal = [] from rfl, nil_append] at hentries
  exact ⟨q, hq, hentries ▸ hnew hover, hshipped⟩

/-- A post that is sent again ships the entry posted last, which is another one; two posts ship in the order opposite to that
    in which they had the lock; and a post over pgwire is not shipped at all. -/
theorem shipped_records_differ : (Run.exec (step Sample.config Sample.sqlEnv) Sample.server (Sample.accounts ++
      [.submit .native .admin (Sample.keyed "a"), Sample.run 2 10, .ship 2,
        .submit .native .admin (Sample.keyed "b"), Sample.run 3 11, .ship 3,
        .submit .native .admin (Sample.keyed "a"), Sample.run 4 12, .ship 4])).map Sample.outcome =
      some ([[1], [2]], [[1], [2], [2]]) ∧
    (Run.exec (step Sample.config Sample.sqlEnv) Sample.server (Sample.accounts ++
      [.submit .native .admin (Sample.keyed "a"), .submit .native .admin (Sample.keyed "b"), Sample.run 2 10,
        Sample.run 3 11, .ship 3, .ship 2])).map Sample.outcome =
      some ([[1], [2]], [[2], [1]]) ∧
    (Run.exec (step Sample.config Sample.sqlEnv) Sample.server (Sample.accounts ++
      [.submit (.pgwire "teller") .admin (Sample.keyed "a"), Sample.run 2 10])).map Sample.outcome =
      some ([[1]], []) := by
  decide +kernel

end WriteServer

end VectorLedger
