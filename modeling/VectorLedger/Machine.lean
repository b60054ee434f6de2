import VectorLedger.Lib.Run
import VectorLedger.Replay

/-! The ledger over its life: opened, called, closed and crashed, any number of times. -/

namespace VectorLedger

inductive Op where
  | createAccount (a : Account)
  | closeAccount (id : AccountId)
  | postEntry (e : JournalEntry)
  | reverseEntry (entryId : Uuid) (description domain : String)
  | importEntryDirect (e : JournalEntry)
  | setLegalHold (id : AccountId) (hold : Bool)
  | applySettlementEvent (entryId : Uuid) (newStatus : EntryStatus) (notes : Option String)
  | reconcileAndRecord

def LedgerStore.call (cfg : Config) (io : Io) (s : LedgerStore) : Op → Except LedgerError Unit × LedgerStore
  | .createAccount a => (s.createAccount cfg io a).map (·.map fun _ => ()) id
  | .closeAccount a => s.closeAccount cfg io a
  | .postEntry e => (s.postEntry cfg io e).map (·.map fun _ => ()) id
  | .reverseEntry entryId description domain =>
    (s.reverseEntry cfg io entryId description domain).map (·.map fun _ => ()) id
  | .importEntryDirect e => (s.importEntryDirect cfg io e).map (·.map fun _ => ()) id
  | .setLegalHold a hold => s.setLegalHold cfg io a hold
  | .applySettlementEvent entryId newStatus notes => s.applySettlementEvent cfg io entryId newStatus notes
  | .reconcileAndRecord => (s.reconcileAndRecord cfg io).map (·.map fun _ => ()) id

inductive Machine where
  | down (d : Disk)
  | up (s : LedgerStore)

def Machine.disk : Machine → Disk
  | .down d => d
  | .up s => s.disk

inductive Event where
  | openStore
  | openForImport
  | call (io : Io) (op : Op)
  | close
  /-- The process dies in an operation, at the point where its writes stop. -/
  | crash (io : Io) (op : Op)

def Machine.afterOpen (d : Disk) : Except LedgerError LedgerStore → Machine
  | .ok s => .up s
  | .error _ => .down d

def Machine.step (cfg : Config) : Machine → Event → Option Machine
  | .down d, .openStore => some (.afterOpen d (LedgerStore.openStore cfg d))
  | .down d, .openForImport => some (.afterOpen d (LedgerStore.openForImport cfg d))
  | .up s, .call io op => some (.up (s.call cfg io op).2)
  | .up s, .close => some (.down s.disk)
  | .up s, .crash io op => some (.down (s.call cfg io op).2.disk)
  | _, _ => none

def committedEntries (w : Segments WalRecord) : List JournalEntry :=
  (TxLog.rows w.records).filterMap fun p =>
    match p.row with
    | .entry e => some e
    | _ => none

/-! ### Values for concrete runs -/

namespace Sample

/-- A configuration that can be evaluated: hashes are zero, a row has a byte for each of its lines, and a signature is 64
    bytes of the key and the message. -/
def config : Config where
  blake3 _ := zeroHash
  encode
    | .entry e => List.replicate e.lines.length 0
    | _ => []
  payloadLen _ := 0
  toUppercase := id
  discrepancyJson _ := "[]"
  sign key msg := (key ++ msg).take 64
  publicKey key := key
  verify publicKey msg signature :=
    if signature = (publicKey ++ msg).take 64 then .ok () else .error "signature mismatch"

def hash (bytes : List UInt8) : Hash :=
  let n := bytes.foldl (fun h b => (h * 257 + b.toNat + 1) % (2 ^ 256 - 189)) 1
  Vector.ofFn fun i => UInt8.ofNat (n / 256 ^ i.val)

/-- The row of an entry with the length that bincode gives it, with the texts of `entry`: a line with a small amount takes 41
    bytes (17 for each of its two ids, 4 for the currency and 1 for each other field), the rest of the entry 196. -/
def sized : Config where
  __ := config
  encode
    | .entry e => List.replicate (196 + 41 * e.lines.length) 0
    | _ => []

def hashing : Config := { config with blake3 := hash }

theorem config_signaturesVerify : config.SignaturesVerify := fun _ _ => if_pos rfl

def signingKey : SigningKey := List.replicate 32 7

def io : Io where
  now := 0
  effectiveNow := 0
  newId := 900
  newLineId n := 901 + BitVec.ofNat 128 n
  pageWrite _ := true
  walStop := none
  sqliteRow := true
  sqliteFts := true
  sqliteRef _ := true
  sqliteAccount := true

def account (id : AccountId) (accountType : AccountType) : Account :=
  Account.new config.toUppercase id 0 "1001" "sample" accountType "USD" "test"

def entry (id : Uuid) (key : Option String) (lines : List (AccountId × Int64 × DrCr)) : JournalEntry where
  id := id
  sequence := 0
  status := .posted
  description := "sample"
  lines := lines.map fun l => ⟨0, l.1, "USD", ⟨l.2.1⟩, l.2.2, none⟩
  effectiveAt := 0
  postedAt := 0
  externalRef := none
  idempotencyKey := key
  reversesEntryId := none
  reversedByEntryId := none
  domain := "test"
  contentHash := zeroHash
  prevHash := zeroHash
  chainHash := zeroHash
  approvedBy := none
  metadata := none

def transfer (id : Uuid) (key : Option String) (amount : Int64) (source target : AccountId) : JournalEntry :=
  entry id key [(target, amount, .debit), (source, amount, .credit)]

/-- Open a new ledger and create an asset account, 1, and an income account, 2. -/
def twoAccounts : List Event :=
  [.openStore, .call io (.createAccount (account 1 .asset)), .call io (.createAccount (account 2 .income))]

/-- The process dies inside the second record of the post, after so many bytes of it. -/
def crashInRecord (bytes : Nat) (e : JournalEntry) : Event :=
  .crash { io with walStop := some ⟨1, false, bytes⟩ } (.postEntry e)

end Sample

end VectorLedger
