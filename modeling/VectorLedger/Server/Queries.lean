import VectorLedger.Server.Auth
import VectorLedger.Sql.Read

/-! SELECT statements on the native and on the pgwire listener. -/

namespace VectorLedger.Sql.Read

/-- Confine a scan to the domain of a user. An explicit filter on anything but the domain is left as it is. -/
def applyDomainFilter (plan : ReadPlan) (domain : Option String) : ReadPlan :=
  match domain, plan with
  | some d, .scan table filter projections =>
    if d = "" then plan
    else
      match filter with
      | some (.byDomain _) | none => .scan table (some (.byDomain d)) projections
      | some other => .scan table (some other) projections
  | _, plan => plan

def checkPlanPrivilege (role : Role) : ReadPlan → Except String Unit
  | .verifyChain _ _ =>
    if role.canVerify then .ok () else .error ("role '" ++ role.display ++ "' cannot run VERIFY_CHAIN")
  | .merkleRoot _ _ => if role.canVerify then .ok () else .error ("role '" ++ role.display ++ "' cannot run MERKLE_ROOT")
  | .scan .ledger _ _ | .scan .accounts _ _ | .getBalance _ | .join _ _ _ | .aggregate _ _ _ | .window _ _ _ _ _ =>
    if role.canSelect then .ok () else .error ("role '" ++ role.display ++ "' cannot execute SELECT")
  | .scan .ledgerLines _ _ | .verifyEntry _ | .constant _ _ => .ok ()

inductive AnswerError where
  | parse (reason : String)
  | plan (e : QueryError)
  | denied (reason : String)
  | execution (e : QueryError)
  | integrity (message : String)
  deriving DecidableEq, Repr

inductive Answer where
  /-- Rows of the native listener, with their values. -/
  | rows (rows : List Row)
  /-- Data rows of the pgwire listener, as texts. -/
  | dataRows (rows : List (List (Option String)))
  | error (e : AnswerError)
  /-- The task of the connection has panicked. -/
  | closed
  deriving DecidableEq, Repr

def Answer.SameRows : Answer → Answer → Prop
  | .rows rs, .rows rs' => rs.Perm rs'
  | .dataRows rs, .dataRows rs' => rs.Perm rs'
  | .error _, .error _ => True
  | .closed, .closed => True
  | _, _ => False

/-! ### The native listener -/

def capRows (max : UInt64) (rows : List Row) : List Row := if 0 < max then rows.take max.toNat else rows

def nativeAnswer (maxResultRows : UInt64) : Except QueryError QueryResult → Answer
  | .ok r => .rows (capRows maxResultRows r.rows)
  | .error .panicked => .closed
  | .error e => .error (.execution e)

def executeSql (cfg : Config) (env : ReadEnv) (maxResultRows : UInt64) (role : Role) (domainFilter : Option String)
    (sql : String) (g : Ledger) : Answer :=
  match env.parseOne sql with
  | .error e => .error (.parse e)
  | .ok q =>
    match plan env q with
    | .error e => .error (.plan e)
    | .ok plan =>
      match checkPlanPrivilege role plan with
      | .error e => .error (.denied e)
      | .ok () => nativeAnswer maxResultRows (execute cfg env g (applyDomainFilter plan domainFilter))

/-! ### The pgwire listener -/

def trimSemicolons (text : String) : String := String.ofList (text.toList.reverse.dropWhile (· = ';')).reverse

def showVariable (env : ReadEnv) (var : String) : String :=
  match env.toUppercase var with
  | "SERVER_VERSION" => "15.0"
  | "SERVER_ENCODING" => "UTF8"
  | "CLIENT_ENCODING" => "UTF8"
  | "DATESTYLE" => "ISO, MDY"
  | "TIMEZONE" => "UTC"
  | "INTEGER_DATETIMES" => "on"
  | "IS_SUPERUSER" => "on"
  | "MAX_CONNECTIONS" => "200"
  | _ => ""

def isTransactionControl (text : String) : Bool :=
  text ∈ ["BEGIN", "BEGIN TRANSACTION", "START TRANSACTION", "BEGIN WORK", "COMMIT", "COMMIT TRANSACTION", "COMMIT WORK",
    "END", "END TRANSACTION", "END WORK", "ROLLBACK", "ROLLBACK TRANSACTION", "ROLLBACK WORK", "ABORT", "SAVEPOINT",
    "RELEASE"] ||
  ["ROLLBACK TO", "ROLLBACK TRANSACTION TO", "SAVEPOINT ", "RELEASE ", "RELEASE SAVEPOINT "].any (startsWith · text)

/-- The data rows of a statement that is answered from its text. -/
def compatibilityStub (env : ReadEnv) (role : Role) (sql : String) : Option (List (List (Option String))) :=
  let upper := env.toUppercase sql
  if sql = "" || sql = ";" then some []
  else if isTransactionControl (trimSemicolons upper) then some []
  else if startsWith "SET " upper || startsWith "SET\t" upper then some []
  else if startsWith "SHOW " upper then
    some [[some (showVariable env (trimSemicolons (env.trim (String.ofList (sql.toList.drop 5)))))]]
  else if containsText "PG_CATALOG" upper || containsText "INFORMATION_SCHEMA" upper then some []
  else if startsWith "SELECT VERSION()" upper || startsWith "SELECT VERSION ()" upper then
    some [[some "PostgreSQL 15.0 (VectorLedger vgdb)"]]
  else if startsWith "SELECT CURRENT_SCHEMA" upper then some [[some "public"]]
  else if startsWith "SELECT CURRENT_DATABASE" upper || startsWith "SELECT CURRENT_CATALOG" upper then
    some [[some "vledger"]]
  else if startsWith "SELECT CURRENT_USER" upper || startsWith "SELECT USER" upper then some [[some role.display]]
  else if startsWith "SELECT CURRENT_SETTING(" upper then some [[some ""]]
  else none

/-- A row as it is sent: for each column the first value under its name. -/
def dataRow (columns : List String) (row : Row) : List (Option String) :=
  columns.map fun col => (row.get col).map Value.display

def pgwireAnswer : Except QueryError QueryResult → Answer
  | .ok r =>
    if r.columns.isEmpty && r.rows.isEmpty && startsWith "INTEGRITY FAILURE" r.message then .error (.integrity r.message)
    else .dataRows (r.rows.map (dataRow r.columns))
  | .error .panicked => .closed
  | .error e => .error (.execution e)

def executeQuery (cfg : Config) (env : ReadEnv) (role : Role) (sql : String) (g : Ledger) : Answer :=
  let sql := env.trim sql
  match compatibilityStub env role sql with
  | some rows => .dataRows rows
  | none =>
    match env.parseOne sql with
    | .error e => .error (.parse e)
    | .ok q =>
      match plan env q with
      | .error e => .error (.plan e)
      | .ok plan =>
        match checkPlanPrivilege role plan with
        | .error e => .error (.denied e)
        | .ok () => pgwireAnswer (execute cfg env g plan)

def statementText (env : ReadEnv) (sql : String) : Listener → String
  | .native => sql
  | .pgwire _ => env.trim sql

def answer (cfg : Config) (env : ReadEnv) (listener : Listener) (maxResultRows : UInt64) (role : Role) (domain sql : String)
    (g : Ledger) : Answer :=
  match listener with
  | .native => executeSql cfg env maxResultRows role (some domain) sql g
  | .pgwire _ => executeQuery cfg env role sql g

end VectorLedger.Sql.Read
