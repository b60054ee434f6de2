import VectorLedger.Merkle
import VectorLedger.Sql.Select
import Mathlib.Data.List.Lex
import Mathlib.Data.List.Sort
import Mathlib.Data.String.Basic

/-! The executor of SELECT plans, on an open ledger. -/

namespace VectorLedger

/-- An open ledger, with the order in which its map of accounts is iterated. -/
structure Ledger where
  store : LedgerStore
  order : List AccountId
  nodup : order.Nodup
  mem_order : ∀ id, id ∈ order ↔ id ∈ store.accounts

def Ledger.allAccounts (g : Ledger) : List Account := g.order.filterMap g.store.accounts.lookup

/-! ### Reads of the store -/

def EntryStatus.debug : EntryStatus → String
  | .posted => "Posted"
  | .reversed => "Reversed"
  | .reversal => "Reversal"
  | .pendingApproval => "PendingApproval"
  | .rejected => "Rejected"
  | .pending => "Pending"
  | .settled => "Settled"
  | .failed => "Failed"

def DrCr.debug : DrCr → String
  | .debit => "Debit"
  | .credit => "Credit"

def AccountType.debug : AccountType → String
  | .asset => "Asset"
  | .liability => "Liability"
  | .equity => "Equity"
  | .income => "Income"
  | .expense => "Expense"
  | .contra => "Contra"
  | .suspense => "Suspense"

def AccountStatus.debug : AccountStatus → String
  | .active => "Active"
  | .closed => "Closed"
  | .frozen => "Frozen"

/-- The rows that LIMIT leaves: SQLite gets the bound as an `i64`, and a negative one is none. -/
def sqlLimit {α : Type} (n : Nat) (rows : List α) : List α := if EntryDb.asI64 n < 0 then rows else rows.take n

namespace LedgerStore

def defaultQueryLimit : Nat := 10000

def normaliseStatus (env : Sql.ReadEnv) (status : String) : String :=
  match (env.toLowercase status).toList with
  | [] => ""
  | c :: cs => env.upperChar c ++ String.ofList cs

def entriesByDomainLimited (s : LedgerStore) (domain : String) (limit : Nat) : List JournalEntry :=
  sqlLimit limit (s.entryDb.entries.filter fun e => e.domain = domain)

def entriesByStatusLimited (env : Sql.ReadEnv) (s : LedgerStore) (status : String) (limit : Nat) : List JournalEntry :=
  sqlLimit limit (s.entryDb.entries.filter fun e => e.status.debug = normaliseStatus env status)

def entriesByExternalRef (s : LedgerStore) (ref : String) : List JournalEntry :=
  sqlLimit defaultQueryLimit (s.entryDb.entries.filter fun e => e.externalRef = some ref)

def entriesScan (s : LedgerStore) (limit : Nat) : List JournalEntry := sqlLimit limit s.entryDb.entries

/-- The full-text query for a text: without operator characters, and quoted as one phrase. -/
def ftsQuery (query : String) : String :=
  let sanitized := query.toList.filter fun c => c ≠ '*' ∧ c ≠ '^' ∧ c ≠ '-'
  String.ofList ('"' :: (sanitized.flatMap fun c => if c = '"' then ['"', '"'] else [c]) ++ ['"'])

def searchMetadata (env : Sql.ReadEnv) (s : LedgerStore) (query : String) (limit : Nat) : List JournalEntry :=
  sqlLimit limit (s.entryDb.entries.filter fun e => env.ftsMatch (ftsQuery query) (e.metadata.getD ""))

def verifyChainRange (cfg : Config) (s : LedgerStore) (fromSeq toSeq : Option Nat) : Except LedgerError (Nat × Hash) :=
  match s.entryDb.scanRange (fromSeq.getD 1) (toSeq.getD (2 ^ 64 - 1)) with
  | [] => .ok (0, zeroHash)
  | e :: es =>
    (verifyChain cfg.blake3 e.prevHash (e :: es)).map fun _ =>
      ((e :: es).length, ((e :: es).getLast?.map (·.chainHash)).getD zeroHash)

end LedgerStore

namespace Sql.Read

/-! ### Results -/

inductive Value where
  | null
  | int (n : Int)
  | bigInt (n : Int)
  | text (s : String)
  | bool (b : Bool)
  | timestamp (s : String)
  | hash (hex : String)
  | uuid (text : String)
  deriving DecidableEq, Repr

def Value.display : Value → String
  | .null => "NULL"
  | .int n | .bigInt n => toString n
  | .bool b => toString b
  | .text s | .timestamp s | .hash s | .uuid s => s

structure Row where
  columns : List String
  values : List Value
  deriving DecidableEq, Repr

def Row.new (columns : List String) (values : List Value) : Except QueryError Row :=
  if columns.length = values.length then .ok ⟨columns, values⟩ else .error .panicked

def Row.get (row : Row) (col : String) : Option Value := (row.columns.idxOf? col).bind (row.values[·]?)

structure QueryResult where
  columns : List String
  rows : List Row
  message : String
  deriving DecidableEq, Repr

def QueryResult.empty (message : String) : QueryResult := ⟨[], [], message⟩

/-- The result with the named columns only. Names that it does not have are passed over, and it stays as it is if none is
    named or as many as it has. -/
def QueryResult.project (r : QueryResult) (keep : List String) : QueryResult :=
  if keep.isEmpty then r
  else
    let newCols := keep.filter (· ∈ r.columns)
    if newCols.length = r.columns.length then r
    else { r with
      columns := newCols
      rows := r.rows.map fun row => ⟨newCols, newCols.map fun col => (row.get col).getD .null⟩ }

/-! ### Scans of entries -/

def defaultScanLimit : Nat := 10000

structure Selected where
  entries : List JournalEntry
  capped : Bool

def Selected.upToDefault (entries : List JournalEntry) : Selected := ⟨entries, entries.length = defaultScanLimit⟩

/-- The entries that pass a test, found by reading the ledger from the start up to the default limit. -/
def streamed (s : LedgerStore) (test : JournalEntry → Bool) : Selected :=
  ⟨(s.entryDb.entries.filter test).take defaultScanLimit, false⟩

def containsText (needle text : String) : Bool := needle.toList <:+: text.toList

/-- The entries that a filter selects. A filter that no case is for selects all of them. -/
def selectEntries (env : ReadEnv) (s : LedgerStore) : Option EntryFilter → Selected
  | some (.bySequence n) => ⟨(s.entryDb.getBySequence n).toList, false⟩
  | some (.bySequenceIn ns) =>
    ⟨(ns.filterMap s.entryDb.getBySequence).insertionSort fun a b => a.sequence ≤ b.sequence, false⟩
  | some (.byDomain domain) => .upToDefault (s.entriesByDomainLimited domain defaultScanLimit)
  | some (.byStatus status) => .upToDefault (s.entriesByStatusLimited env status defaultScanLimit)
  | some (.byExternalRef ref) => ⟨s.entriesByExternalRef ref, false⟩
  | some (.byMetadataSearch query) => ⟨s.searchMetadata env query defaultScanLimit, false⟩
  | some (.byMetadataEq text) => streamed s fun e => e.metadata = some text
  | some (.byMetadataContains text) =>
    streamed s fun e => e.metadata.any fun m => containsText (env.toLowercase text) (env.toLowercase m)
  | some (.limit n) => ⟨s.entriesScan n, false⟩
  | some (.byDrCr _) | some (.byAccountId _) | some (.byAccountCode _) | some (.byAccountName _)
  | some (.byValueIn _ _) | none => .upToDefault (s.entriesScan defaultScanLimit)

def entryColumns : List String :=
  ["sequence", "id", "status", "description", "domain", "effective_at", "posted_at", "external_ref", "content_hash",
    "chain_hash", "lines", "metadata"]

def lineText (l : JournalLine) : String :=
  Uuid.toText l.accountId ++ ": " ++ l.drCr.debug ++ " " ++ toString l.amount.asI64 ++ " " ++ l.currencyCode

def entryRow (env : ReadEnv) (e : JournalEntry) : Row where
  columns := entryColumns
  values := [.bigInt e.sequence, .uuid (Uuid.toText e.id), .text e.status.debug, .text e.description, .text e.domain,
    .timestamp (env.toRfc3339 e.effectiveAt), .timestamp (env.toRfc3339 e.postedAt), .text (e.externalRef.getD ""),
    .hash (hexEncode e.contentHash.toList), .hash (hexEncode e.chainHash.toList),
    .text ("; ".intercalate (e.lines.map lineText)), .text (e.metadata.getD "")]

def execScanEntries (env : ReadEnv) (s : LedgerStore) (filter : Option EntryFilter) : QueryResult :=
  let selected := selectEntries env s filter
  let rows := selected.entries.map (entryRow env)
  let message := if selected.capped then
      toString rows.length ++ " rows (capped at " ++ toString defaultScanLimit ++
        " — use LIMIT n or WHERE sequence = x to paginate)"
    else toString rows.length ++ " rows"
  ⟨entryColumns, rows, message⟩

def lineColumns : List String :=
  ["date", "sequence", "entry_id", "description", "domain", "account_id", "dr_cr", "amount", "currency", "status", "metadata"]

def lineRow (env : ReadEnv) (e : JournalEntry) (l : JournalLine) : Row where
  columns := lineColumns
  values := [.text (env.showDate e.effectiveAt), .bigInt e.sequence, .uuid (Uuid.toText e.id), .text e.description,
    .text e.domain, .uuid (Uuid.toText l.accountId), .text l.drCr.debug, .bigInt l.amount.asI64.toInt, .text l.currencyCode,
    .text e.status.debug, .text (e.metadata.getD "")]

def eqIgnoreAsciiCase (a b : String) : Bool := a.toList.map Char.toLower = b.toList.map Char.toLower

def acceptsLine (filter : Option EntryFilter) (l : JournalLine) : Bool :=
  match filter with
  | some (.byDrCr wanted) => eqIgnoreAsciiCase l.drCr.debug wanted
  | _ => true

def execScanLedgerLines (env : ReadEnv) (s : LedgerStore) (filter : Option EntryFilter) : QueryResult :=
  let selected := selectEntries env s filter
  let rows := selected.entries.flatMap fun e => (e.lines.filter (acceptsLine filter)).map (lineRow env e)
  let message := if selected.capped then
      toString rows.length ++ " rows (capped at " ++ toString defaultScanLimit ++
        " entries — use LIMIT n or WHERE sequence = x to paginate)"
    else toString rows.length ++ " rows"
  ⟨lineColumns, rows, message⟩

/-! ### Scans of accounts -/

def trimStart (pat : List Char) : Nat → List Char → List Char
  | 0, cs => cs
  | fuel + 1, cs => if pat <+: cs then trimStart pat fuel (cs.drop pat.length) else cs

def trimStartMatches (pat text : String) : String := String.ofList (trimStart pat.toList text.length text.toList)

def startsWith (pat text : String) : Bool := pat.toList <+: text.toList

/-- The filter on accounts. A filter that no case is for accepts all of them. -/
def acceptsAccount (filter : Option EntryFilter) (a : Account) : Bool :=
  match filter with
  | some (.byAccountId id) => Uuid.toText a.id = id
  | some (.byAccountCode code) => a.code = code
  | some (.byAccountName name) => a.name = name
  | some (.byValueIn column values) =>
    match column with
    | "id" => Uuid.toText a.id ∈ values
    | "code" => a.code ∈ values
    | "name" => a.name ∈ values
    | "domain" => a.domain ∈ values
    | "currency" => a.currencyCode ∈ values
    | _ => true
  | some (.byDomain domain) =>
    if startsWith "__account_code:" domain then a.code = trimStartMatches "__account_code:" domain
    else if startsWith "__account_currency:" domain then a.currencyCode = trimStartMatches "__account_currency:" domain
    else a.domain = domain
  | _ => true

def accountColumns : List String := ["id", "code", "name", "account_type", "currency", "status", "domain", "balance"]

def accountRow (s : LedgerStore) (a : Account) : Row where
  columns := accountColumns
  values := [.uuid (Uuid.toText a.id), .text a.code, .text a.name, .text a.accountType.debug, .text a.currencyCode,
    .text a.status.debug, .text a.domain, .bigInt (s.balance a.id)]

def execScanAccounts (g : Ledger) (filter : Option EntryFilter) : QueryResult :=
  let rows := (g.allAccounts.filter (acceptsAccount filter)).map (accountRow g.store)
  ⟨accountColumns, rows, toString rows.length ++ " accounts"⟩

/-! ### Functions of the ledger -/

def execConstant (col val : String) : QueryResult := ⟨[col], [⟨[col], [.text val]⟩], ""⟩

def execGetBalance (env : ReadEnv) (g : Ledger) (accountRef : String) : Except QueryError QueryResult := do
  let id ← (resolveAccount { env.toEnv with accountOrder := fun _ => g.order } g.store accountRef).mapError .sql
  let cols := ["account", "balance"]
  return ⟨cols, [⟨cols, [.text accountRef, .bigInt (g.store.balance id)]⟩], "balance = " ++ toString (g.store.balance id)⟩

def chainColumns : List String := ["status", "entries_verified", "chain_tip"]

def chainRow (count : Nat) (tip : Hash) : Row := ⟨chainColumns, [.text "OK", .bigInt count, .hash (hexEncode tip.toList)]⟩

def integrityFailure : LedgerError → QueryResult
  | .serialization reason => .empty ("INTEGRITY FAILURE: Serialization error: " ++ reason)
  | _ => .empty "INTEGRITY FAILURE"

def execVerifyChain (cfg : Config) (g : Ledger) (fromSeq toSeq : Option Nat) : QueryResult :=
  if fromSeq.isNone && toSeq.isNone then
    match g.store.verifyChainIntegrity cfg with
    | .ok () => ⟨chainColumns, [chainRow g.store.entryDb.count g.store.chainTip], "Chain integrity verified"⟩
    | .error e => integrityFailure e
  else
    match g.store.verifyChainRange cfg fromSeq toSeq with
    | .ok (count, tip) =>
      ⟨chainColumns, [chainRow count tip], "Chain range verified (" ++ toString count ++ " entries)"⟩
    | .error e => integrityFailure e

def execVerifyEntry (cfg : Config) (g : Ledger) (sequence : Nat) : QueryResult :=
  match g.store.entryDb.getBySequence sequence with
  | none => .empty ("entry with sequence " ++ toString sequence ++ " not found")
  | some e =>
    let ok := e.verifyHashes cfg.blake3
    let cols := ["sequence", "status", "content_hash", "chain_hash", "description"]
    ⟨cols, [⟨cols, [.bigInt e.sequence, .text (if ok then "VALID" else "CORRUPTED"), .hash (hexEncode e.contentHash.toList),
      .hash (hexEncode e.chainHash.toList), .text e.description]⟩],
      if ok then "Entry hash verified" else "INTEGRITY FAILURE: hash mismatch"⟩

def execMerkleRoot (cfg : Config) (g : Ledger) (fromSeq toSeq : Nat) : QueryResult :=
  let entries := g.store.entryDb.scanRange fromSeq toSeq
  let root := Merkle.merkleRoot cfg.blake3 (entries.map (·.contentHash.toList))
  let range := "[" ++ toString fromSeq ++ ", " ++ toString toSeq ++ "]"
  let cols := ["from_seq", "to_seq", "entry_count", "merkle_root"]
  ⟨cols, [⟨cols, [.bigInt fromSeq, .bigInt toSeq, .bigInt entries.length, .hash (hexEncode root.toList)]⟩],
    if entries.isEmpty then "No entries in range " ++ range
    else "Merkle root over " ++ toString entries.length ++ " entries " ++ range⟩

/-! ### Joins -/

def rightKeyCol (columns : List String) : Nat := (columns.findIdx? fun c => c = "id" || c = "code").getD 0

/-- The row that a key stands for on the right. Of several, the last one counts. -/
def rightRow (right : QueryResult) (key : String) : Option Row :=
  right.rows.reverse.find? fun row => (row.values[rightKeyCol right.columns]?).any fun v => v.display = key

def joinKey (row : Row) : String :=
  match row.get "account_id" <|> row.values.head? with
  | some v => v.display
  | none => ""

/-- The columns of a join. One that the left side has too is not there a second time. -/
def joinColumns (left right : List String) : List String :=
  right.foldl (fun out c => if c ∈ out then out else out ++ ["r_" ++ c]) left

def joinRow (joinType : JoinType) (left right : QueryResult) (row : Row) : Except QueryError (Option Row) :=
  let cols := joinColumns left.columns right.columns
  match joinType, rightRow right (joinKey row) with
  | _, some rr => (Row.new cols (row.values ++ rr.values)).map some
  | .leftOuter, none => (Row.new cols (row.values ++ right.columns.map fun _ => .null)).map some
  | .inner, none => .ok none

def execJoin (joinType : JoinType) (left right : QueryResult) : Except QueryError QueryResult := do
  let rows ← left.rows.mapM (joinRow joinType left right)
  let rows := rows.filterMap id
  return ⟨joinColumns left.columns right.columns, rows, toString rows.length ++ " rows (join)"⟩

/-! ### Aggregates -/

def QueryResult.cell (r : QueryResult) (col : String) (row : Row) : Option Value :=
  (r.columns.idxOf? col).bind (row.values[·]?)

def Value.num? : Value → Option Int
  | .int n | .bigInt n => some n
  | .null | .text _ | .bool _ | .timestamp _ | .hash _ | .uuid _ => none

def QueryResult.groupKey (r : QueryResult) (groupBy : List String) (row : Row) : List String :=
  if groupBy.isEmpty then ["__all__"] else groupBy.map fun col => ((r.cell col row).map Value.display).getD ""

def computeAggregate (func : AggFn) (cells : List (Option Value)) : Value :=
  let nums := cells.filterMap fun v => v.bind Value.num?
  match func with
  | .count => .bigInt cells.length
  | .sum => .bigInt nums.sum
  | .min => .bigInt (nums.min?.getD 0)
  | .max => .bigInt (nums.max?.getD 0)
  | .avg => if nums.isEmpty then .null else .bigInt (nums.sum.tdiv nums.length)

def groupRow (input : QueryResult) (groupBy : List String) (aggregates : List AggExpr) (key : List String) :
    Except QueryError Row :=
  let rows := input.rows.filter fun row => input.groupKey groupBy row = key
  Row.new (groupBy ++ aggregates.map (·.aliasName))
    ((if groupBy.isEmpty then [] else key.map .text) ++
      aggregates.map fun agg => computeAggregate agg.func (rows.map (input.cell agg.column)))

def execAggregate (input : QueryResult) (groupBy : List String) (aggregates : List AggExpr) :
    Except QueryError QueryResult := do
  let keys := ((input.rows.map (input.groupKey groupBy)).dedup).insertionSort (· ≤ ·)
  let rows ← keys.mapM (groupRow input groupBy aggregates)
  return ⟨groupBy ++ aggregates.map (·.aliasName), rows, toString rows.length ++ " groups"⟩

/-! ### Windows -/

structure PartitionState where
  runningSum : Int
  runningCount : Nat
  rowNumber : Nat

def windowValue (windowFn : WindowFn) (state : PartitionState) (raw : Int) : Value :=
  match windowFn with
  | .rowNumber | .rank | .denseRank => .bigInt state.rowNumber
  | .runningSum => .bigInt state.runningSum
  | .runningAvg => .bigInt (state.runningSum.tdiv (max state.runningCount 1))
  | .lag => .bigInt (state.runningSum - raw)
  | .lead => .bigInt raw

def windowRows (windowFn : WindowFn) (aliasName : String) (partKey : Row → List String) (raw : Row → Int) :
    (List String → PartitionState) → List Row → List Row
  | _, [] => []
  | states, row :: rows =>
    let old := states (partKey row)
    let state : PartitionState := ⟨old.runningSum + raw row, old.runningCount + 1, old.rowNumber + 1⟩
    ⟨row.columns ++ [aliasName], row.values ++ [windowValue windowFn state (raw row)]⟩ ::
      windowRows windowFn aliasName partKey raw (Function.update states (partKey row) state) rows

def execWindow (input : QueryResult) (windowFn : WindowFn) (column aliasName : String) (partitionBy : List String) :
    QueryResult :=
  let partKey := fun row => (partitionBy.filter (· ∈ input.columns)).map fun col =>
    ((input.cell col row).map Value.display).getD ""
  let raw := fun row => ((input.cell column row).bind Value.num?).getD 0
  let rows := windowRows windowFn aliasName partKey raw (fun _ => ⟨0, 0, 0⟩) input.rows
  ⟨input.columns ++ [aliasName], rows, toString rows.length ++ " rows (window)"⟩

/-! ### Plans -/

def execScan (env : ReadEnv) (g : Ledger) (table : ScanTable) (filter : Option EntryFilter) : QueryResult :=
  match table with
  | .ledger => execScanEntries env g.store filter
  | .ledgerLines => execScanLedgerLines env g.store filter
  | .accounts => execScanAccounts g filter

def execute (cfg : Config) (env : ReadEnv) (g : Ledger) : ReadPlan → Except QueryError QueryResult
  | .scan table filter projections => .ok ((execScan env g table filter).project projections)
  | .getBalance accountRef => execGetBalance env g accountRef
  | .verifyChain fromSeq toSeq => .ok (execVerifyChain cfg g fromSeq toSeq)
  | .verifyEntry sequence => .ok (execVerifyEntry cfg g sequence)
  | .merkleRoot fromSeq toSeq => .ok (execMerkleRoot cfg g fromSeq toSeq)
  | .constant col val => .ok (execConstant col val)
  | .join left right joinType => do execJoin joinType (← execute cfg env g left) (← execute cfg env g right)
  | .aggregate input groupBy aggregates => do execAggregate (← execute cfg env g input) groupBy aggregates
  | .window input windowFn column aliasName partitionBy => do
    return execWindow (← execute cfg env g input) windowFn column aliasName partitionBy

end Sql.Read

end VectorLedger
