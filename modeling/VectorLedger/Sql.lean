import VectorLedger.Machine

/-! SQL INSERT: the planner turns a parsed statement into a plan, and the executor runs the plan on the store. -/

namespace VectorLedger.Sql

/-! ### Statements -/

inductive SqlError where
  | unsupported (reason : String)
  | unknownTable (table : String)
  | typeError (reason : String)
  | missingField (field : String)
  | invalidValue (field reason : String)
  | ledger (e : LedgerError)
  | execution (reason : String)
  deriving DecidableEq, Repr

/-- An expression in a row of VALUES. Those without a text value keep only how they print. -/
inductive Expr where
  | singleQuotedString (s : String)
  | number (n : String)
  | boolean (b : Bool)
  | null
  | identifier (name : String)
  | other (text : String)
  deriving DecidableEq, Repr

inductive InsertSource where
  | values (rows : List (List Expr))
  | query
  deriving DecidableEq, Repr

structure Insert where
  tableName : String
  columns : List String
  source : Option InsertSource
  deriving DecidableEq, Repr

/-- What the planner and the executor take from other code. -/
structure Env where
  toLowercase : String → String
  parseUuid : String → Option Uuid
  /-- The order in which the map of accounts is iterated. -/
  accountOrder : Accounts → List AccountId

/-! ### Planner -/

structure EntrySpec where
  description : String
  debitAccount : String
  creditAccount : String
  amount : Int64
  currency : String
  externalRef : Option String
  idempotencyKey : Option String
  domain : String
  deriving DecidableEq, Repr

structure AccountSpec where
  code : String
  name : String
  accountType : String
  currency : String
  domain : String
  deriving DecidableEq, Repr

inductive LogicalPlan where
  | postEntry (spec : EntrySpec)
  | createAccount (spec : AccountSpec)
  deriving DecidableEq, Repr

def exprToString : Expr → Except SqlError String
  | .singleQuotedString s => .ok s
  | .number n => .ok n
  | .boolean b => .ok (toString b)
  | .null => .ok ""
  | .identifier name => .ok name
  | .other text => .error (.typeError ("unsupported expression: " ++ text))

def parseDigits (digits : List Char) : Option Nat :=
  if digits.isEmpty || !digits.all Char.isDigit then none
  else some (digits.foldl (fun n c => 10 * n + (c.toNat - '0'.toNat)) 0)

def i64OfInt (v : Int) : Option Int64 := if -(2 ^ 63) ≤ v ∧ v < 2 ^ 63 then some (.ofInt v) else none

def parseI64 (text : String) : Option Int64 :=
  match text.toList with
  | '+' :: digits => (parseDigits digits).bind fun n => i64OfInt n
  | '-' :: digits => (parseDigits digits).bind fun n => i64OfInt (-n)
  | digits => (parseDigits digits).bind fun n => i64OfInt n

def firstRow : Option InsertSource → Except SqlError (List Expr)
  | none => .error (.missingField "VALUES")
  | some .query => .error (.unsupported "INSERT with non-VALUES source")
  | some (.values []) => .error (.missingField "at least one VALUES row")
  | some (.values (vals :: _)) => .ok vals

def getColumn (cols : List String) (vals : List Expr) (name : String) : Except SqlError String :=
  match cols.idxOf? name with
  | none => .error (.missingField name)
  | some idx =>
    match vals[idx]? with
    | none => .error (.missingField ("column '" ++ name ++ "' is at position " ++ toString idx ++
        " in the column list but VALUES only has " ++ toString vals.length ++ " element(s)"))
    | some val => exprToString val

def parseAmount (text : String) : Except SqlError Int64 :=
  match parseI64 text with
  | some amount => .ok amount
  | none => .error (.invalidValue "amount" "must be an integer (minor units)")

def domainOr (domain : Except SqlError String) : String :=
  match domain with
  | .ok d => d
  | .error _ => "default"

/-- The plan of an INSERT into the ledger. The amount is read first. -/
def entrySpec (get : String → Except SqlError String) : Except SqlError EntrySpec := do
  let amount ← parseAmount (← get "amount")
  let description ← get "description"
  let debitAccount ← get "debit_account"
  let creditAccount ← get "credit_account"
  let currency ← get "currency"
  return {
    description, debitAccount, creditAccount, amount, currency
    externalRef := (get "external_ref").toOption
    idempotencyKey := (get "idempotency_key").toOption
    domain := domainOr (get "domain") }

def accountSpec (get : String → Except SqlError String) : Except SqlError AccountSpec := do
  let code ← get "code"
  let name ← get "name"
  let accountType ← get "account_type"
  let currency ← get "currency"
  return { code, name, accountType, currency, domain := domainOr (get "domain") }

def planInsert (env : Env) (ins : Insert) : Except SqlError LogicalPlan := do
  let table := env.toLowercase ins.tableName
  let cols := ins.columns.map env.toLowercase
  if table = "ledger" then
    let vals ← firstRow ins.source
    return .postEntry (← entrySpec (getColumn cols vals))
  else if table = "accounts" then
    let vals ← firstRow ins.source
    return .createAccount (← accountSpec (getColumn cols vals))
  else throw (.unknownTable table)

/-! ### Executor -/

inductive Value where
  | bigInt (n : Int)
  | uuid (text : String)
  | text (s : String)
  deriving DecidableEq, Repr

structure QueryResult where
  columns : List String
  rows : List (List Value)
  rowsAffected : Nat
  message : String
  entryId : Option Uuid
  entrySequence : Option Nat
  domain : Option String
  amountSum : Option Int64
  deriving DecidableEq, Repr

def QueryResult.ofRows (columns : List String) (rows : List (List Value)) (message : String) : QueryResult where
  columns := columns
  rows := rows
  rowsAffected := rows.length
  message := message
  entryId := none
  entrySequence := none
  domain := none
  amountSum := none

def resolveAccount (env : Env) (s : LedgerStore) (ref : String) : Except SqlError AccountId :=
  match (env.parseUuid ref).filter fun id => (s.accounts.lookup id).isSome with
  | some id => .ok id
  | none =>
    match ((env.accountOrder s.accounts).filterMap s.accounts.lookup).find? fun a => a.code = ref with
    | some a => .ok a.id
    | none => .error (.execution ("account '" ++ ref ++ "' not found"))

def amountOf (minorUnits : Int64) : Except SqlError Amount :=
  match Amount.new minorUnits with
  | some amount => .ok amount
  | none => .error (.invalidValue "amount" "must be non-zero")

def buildEntry (cfg : Config) (env : Env) (io : Io) (s : LedgerStore) (spec : EntrySpec) :
    Except SqlError JournalEntry := do
  let debitId ← resolveAccount env s spec.debitAccount
  let creditId ← resolveAccount env s spec.creditAccount
  let amount ← amountOf spec.amount
  let builder := ((JournalEntryBuilder.new io.effectiveNow spec.description spec.domain).debit cfg.toUppercase
    (io.newLineId 0) debitId amount spec.currency).credit cfg.toUppercase (io.newLineId 1) creditId amount spec.currency
  return { builder with externalRef := spec.externalRef, idempotencyKey := spec.idempotencyKey }.build io.newId io.now

def postedResult (s : LedgerStore) (spec : EntrySpec) (seq : Nat) : QueryResult :=
  let (id, domain, amount) :=
    match s.entryDb.getBySequence seq with
    | some e => (e.id, e.domain, ((e.lines.filter fun l => l.drCr = .debit).map (·.amount.asI64)).sum)
    | none => (0, spec.domain, spec.amount)
  { QueryResult.ofRows ["sequence", "id", "status"] [[.bigInt seq, .uuid (Uuid.toText id), .text "Posted"]]
      ("1 entry posted (sequence=" ++ toString seq ++ ")") with
    entryId := some id
    entrySequence := some seq
    domain := some domain
    amountSum := some amount }

def execPostEntry (cfg : Config) (env : Env) (io : Io) (s : LedgerStore) (spec : EntrySpec) :
    Except SqlError QueryResult × LedgerStore :=
  match buildEntry cfg env io s spec with
  | .error e => (.error e, s)
  | .ok entry =>
    match s.postEntry cfg io entry with
    | (.error e, s) => (.error (.ledger e), s)
    | (.ok seq, s) => (.ok (postedResult s spec seq), s)

def parseAccountType (env : Env) (text : String) : Except SqlError AccountType :=
  match env.toLowercase text with
  | "asset" => .ok .asset
  | "liability" => .ok .liability
  | "equity" => .ok .equity
  | "income" => .ok .income
  | "expense" => .ok .expense
  | "contra" => .ok .contra
  | "suspense" => .ok .suspense
  | other => .error (.invalidValue "account_type" ("unknown type '" ++ other ++ "'"))

def execCreateAccount (cfg : Config) (env : Env) (io : Io) (s : LedgerStore) (spec : AccountSpec) :
    Except SqlError QueryResult × LedgerStore :=
  match parseAccountType env spec.accountType with
  | .error e => (.error e, s)
  | .ok accountType =>
    let acct := Account.new cfg.toUppercase io.newId io.now spec.code spec.name accountType spec.currency spec.domain
    match s.createAccount cfg io acct with
    | (.error e, s) => (.error (.ledger e), s)
    | (.ok id, s) =>
      (.ok (.ofRows ["id", "code", "status"] [[.uuid (Uuid.toText id), .text spec.code, .text "Created"]]
        ("Account '" ++ spec.code ++ "' created")), s)

def execute (cfg : Config) (env : Env) (io : Io) (s : LedgerStore) :
    LogicalPlan → Except SqlError QueryResult × LedgerStore
  | .postEntry spec => execPostEntry cfg env io s spec
  | .createAccount spec => execCreateAccount cfg env io s spec

def runInsert (cfg : Config) (env : Env) (io : Io) (s : LedgerStore) (ins : Insert) :
    Except SqlError QueryResult × LedgerStore :=
  match planInsert env ins with
  | .error e => (.error e, s)
  | .ok plan => execute cfg env io s plan

end VectorLedger.Sql
