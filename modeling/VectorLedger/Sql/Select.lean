import VectorLedger.Sql

/-! SQL SELECT: the parts of a parsed query that the planner reads, and the plans it gives. -/

namespace VectorLedger.Sql

/-! ### Queries -/

/-- An operand: a literal, a name, or another expression, of which only how it prints is kept. -/
inductive Operand where
  | number (n : String)
  | singleQuotedString (s : String)
  | boolean (b : Bool)
  | null
  | otherValue (text : String)
  | identifier (name : String)
  | compoundIdentifier (parts : List String) (text : String)
  | other (text : String)
  deriving DecidableEq, Repr

inductive FunctionArg where
  | unnamed (e : Operand)
  | wildcard
  | other
  deriving DecidableEq, Repr

inductive FunctionArguments where
  | list (args : List FunctionArg)
  | other
  deriving DecidableEq, Repr

inductive WindowType where
  | windowSpec (partitionBy : List Operand)
  | namedWindow
  deriving DecidableEq, Repr

structure Function where
  name : String
  args : FunctionArguments
  overClause : Option WindowType
  text : String
  deriving DecidableEq, Repr

inductive ItemExpr where
  | operand (e : Operand)
  | function (f : Function)
  deriving DecidableEq, Repr

inductive SelectItem where
  | unnamedExpr (e : ItemExpr)
  | exprWithAlias (e : ItemExpr) (aliasName : String)
  | wildcard
  | qualifiedWildcard
  deriving DecidableEq, Repr

/-- The condition after WHERE. LIKE stands for ILIKE too. -/
inductive Condition where
  | inList (col : Operand) (list : List Operand) (negated : Bool)
  | like (col pattern : Operand) (negated : Bool)
  | eq (left right : Operand)
  | other
  deriving DecidableEq, Repr

inductive TableFactor where
  | table (name : String)
  | other (text : String)
  deriving DecidableEq, Repr

inductive JoinType where
  | inner
  | leftOuter
  deriving DecidableEq, Repr

/-- A table with the tables joined to it. Every operator but LEFT OUTER counts as an inner join. -/
structure TableWithJoins where
  relation : TableFactor
  joins : List (TableFactor × JoinType)
  deriving DecidableEq, Repr

inductive GroupByExpr where
  | expressions (exprs : List Operand)
  | all
  deriving DecidableEq, Repr

structure Select where
  projection : List SelectItem
  tables : List TableWithJoins
  selection : Option Condition
  groupBy : GroupByExpr
  deriving DecidableEq, Repr

inductive SetExpr where
  | select (s : Select)
  | other (text : String)
  deriving DecidableEq, Repr

structure Query where
  body : SetExpr
  limit : Option Operand
  deriving DecidableEq, Repr

/-! ### Plans -/

inductive QueryError where
  | sql (e : SqlError)
  | columnNotFound (column : String)
  | panicked
  deriving DecidableEq, Repr

structure ReadEnv extends Env where
  toUppercase : String → String
  upperChar : Char → String
  display : Operand → String
  trim : String → String
  /-- The date of a timestamp, and the whole timestamp. -/
  showDate : DateTime → String
  toRfc3339 : DateTime → String
  /-- Whether a text of the full-text index matches a query. -/
  ftsMatch : String → String → Bool
  parseOne : String → Except String Query

inductive EntryFilter where
  | bySequence (n : Nat)
  | byExternalRef (ref : String)
  | byDomain (domain : String)
  | byStatus (status : String)
  | byDrCr (drCr : String)
  | limit (n : Nat)
  | byAccountId (id : String)
  | byAccountCode (code : String)
  | byAccountName (name : String)
  | bySequenceIn (ns : List Nat)
  | byValueIn (column : String) (values : List String)
  | byMetadataEq (text : String)
  | byMetadataContains (text : String)
  | byMetadataSearch (query : String)
  deriving DecidableEq, Repr

inductive AggFn where
  | sum
  | count
  | avg
  | min
  | max
  deriving DecidableEq, Repr

def AggFn.display : AggFn → String
  | .sum => "SUM"
  | .count => "COUNT"
  | .avg => "AVG"
  | .min => "MIN"
  | .max => "MAX"

structure AggExpr where
  func : AggFn
  column : String
  aliasName : String
  deriving DecidableEq, Repr

inductive WindowFn where
  | rowNumber
  | rank
  | denseRank
  | runningSum
  | runningAvg
  | lag
  | lead
  deriving DecidableEq, Repr

def WindowFn.display : WindowFn → String
  | .rowNumber => "ROW_NUMBER"
  | .rank => "RANK"
  | .denseRank => "DENSE_RANK"
  | .runningSum => "SUM"
  | .runningAvg => "AVG"
  | .lag => "LAG"
  | .lead => "LEAD"

inductive ScanTable where
  | ledger
  | ledgerLines
  | accounts
  deriving DecidableEq, Repr

/-- The plans of a SELECT. A scan of each of the three tables is a plan of its own in the source. -/
inductive ReadPlan where
  | scan (table : ScanTable) (filter : Option EntryFilter) (projections : List String)
  | getBalance (accountRef : String)
  | verifyChain (fromSeq toSeq : Option Nat)
  | verifyEntry (sequence : Nat)
  | merkleRoot (fromSeq toSeq : Nat)
  | constant (col val : String)
  | join (left right : ReadPlan) (joinType : JoinType)
  | aggregate (input : ReadPlan) (groupBy : List String) (aggregates : List AggExpr)
  | window (input : ReadPlan) (windowFn : WindowFn) (column aliasName : String) (partitionBy : List String)
  deriving DecidableEq, Repr

/-! ### Reading expressions -/

def Operand.toText : Operand → Except SqlError String
  | .singleQuotedString s => .ok s
  | .number n => .ok n
  | .boolean b => .ok (toString b)
  | .null => .ok ""
  | .identifier name => .ok name
  | .otherValue text | .compoundIdentifier _ text | .other text => .error (.typeError ("unsupported expression: " ++ text))

def operandToColName (env : ReadEnv) : Operand → String
  | .identifier name => name
  | .compoundIdentifier parts _ => parts.getLast?.getD ""
  | e => env.display e

def exprToColName (env : ReadEnv) : ItemExpr → String
  | .operand e => operandToColName env e
  | .function f => f.text

def conditionColumn (env : ReadEnv) (unsupported : String) : Operand → Except QueryError String
  | .identifier name => .ok (env.toLowercase name)
  | .compoundIdentifier parts _ => .ok ((parts.getLast?.map env.toLowercase).getD "")
  | _ => .error (.sql (.unsupported unsupported))

def parseU64 (text : String) : Option Nat :=
  let digits := match text.toList with
    | '+' :: digits => digits
    | digits => digits
  (parseDigits digits).filter (· < 2 ^ 64)

def trimPercent (text : String) : String :=
  String.ofList (((text.toList.dropWhile (· = '%')).reverse.dropWhile (· = '%')).reverse)

def extractTableName (env : ReadEnv) : TableFactor → Except QueryError String
  | .table name => .ok (env.toLowercase name)
  | .other text => .error (.sql (.unsupported ("table factor: " ++ text)))

/-! ### Functions without a table -/

def extractFunctionStringArg (fname : String) : FunctionArguments → Except QueryError String
  | .list (.unnamed e :: _) =>
    match e.toText with
    | .ok text => .ok text
    | .error _ => .error (.sql (.missingField (fname ++ "() requires a string argument")))
  | .list _ => .error (.sql (.missingField (fname ++ "() requires a string argument")))
  | .other => .error (.sql (.missingField (fname ++ "() requires arguments")))

def parseArg (args : List FunctionArg) (n : Nat) : Except QueryError (Option Nat) :=
  match args[n]? with
  | some (.unnamed e) =>
    match e.toText with
    | .error err => .error (.sql err)
    | .ok text =>
      match parseU64 text with
      | some value => .ok (some value)
      | none => .error (.sql (.typeError ("argument " ++ toString (n + 1) ++ " must be an integer")))
  | _ => .ok none

def extractOptionalU64Range : FunctionArguments → Except QueryError (Option Nat × Option Nat)
  | .other => .ok (none, none)
  | .list args => do
    let fromSeq ← parseArg args 0
    let toSeq ← parseArg args 1
    return (fromSeq, toSeq)

def planFunction (env : ReadEnv) (f : Function) : Option (Except QueryError ReadPlan) :=
  match env.toUppercase f.name with
  | "BALANCE" => some ((extractFunctionStringArg "BALANCE" f.args).map .getBalance)
  | "VERIFY_CHAIN" => some ((extractOptionalU64Range f.args).map fun r => .verifyChain r.1 r.2)
  | "VERIFY_ENTRY" => some do
    match ← extractOptionalU64Range f.args with
    | (some sequence, _) => return .verifyEntry sequence
    | (none, _) => throw (.sql (.missingField "VERIFY_ENTRY() requires a sequence number argument"))
  | "MERKLE_ROOT" => some do
    match ← extractOptionalU64Range f.args with
    | (some fromSeq, toSeq) => return .merkleRoot fromSeq (toSeq.getD fromSeq)
    | (none, _) => throw (.sql (.missingField
        "MERKLE_ROOT() requires at least one argument: MERKLE_ROOT(seq) or MERKLE_ROOT(from_seq, to_seq)"))
  | "VERSION" => some (.ok (.constant "version" "PostgreSQL 15.0 (VectorLedger 1.0.0)"))
  | "CURRENT_USER" => some (.ok (.constant "current_user" "vledger"))
  | "CURRENT_DATABASE" => some (.ok (.constant "current_database" "vledger"))
  | _ => none

def literalText : Operand → Option String
  | .number n => some n
  | .singleQuotedString s => some s
  | .boolean b => some (toString b)
  | .null => some "NULL"
  | .otherValue text => some text
  | .identifier _ | .compoundIdentifier _ _ | .other _ => none

def planConstant (items : List SelectItem) : Except QueryError ReadPlan :=
  let unsupported := QueryError.sql (.unsupported "SELECT with no FROM")
  match items.head? with
  | some (.unnamedExpr (.operand e)) =>
    match literalText e with
    | some val => .ok (.constant "?column?" val)
    | none => .error unsupported
  | some (.exprWithAlias (.operand e) name) =>
    match literalText e with
    | some val => .ok (.constant name val)
    | none => .error unsupported
  | _ => .error unsupported

def planTableless (env : ReadEnv) (items : List SelectItem) : Except QueryError ReadPlan :=
  match items.head? with
  | some (.unnamedExpr (.function f)) => (planFunction env f).getD (planConstant items)
  | _ => planConstant items

/-! ### Conditions -/

def isEntryTable (table : String) : Bool := table = "ledger" ∨ table = "ledger_lines"

def parseInList (env : ReadEnv) (table : String) (col : Operand) (list : List Operand) : Except QueryError EntryFilter := do
  let column ← conditionColumn env "IN clause left-hand side must be a column name" col
  let values ← (list.mapM Operand.toText).mapError .sql
  if values.isEmpty then throw (.sql (.unsupported "IN list must not be empty"))
  if column = "sequence" ∧ isEntryTable table then
    match values.mapM parseU64 with
    | some ns => return .bySequenceIn ns
    | none => throw (.sql (.typeError "sequence values in IN list must be integers"))
  return .byValueIn column values

/-- LIKE on the metadata is a full-text search for the pattern without its outer wildcards. -/
def parseLike (env : ReadEnv) (table : String) (col pattern : Operand) : Except QueryError EntryFilter := do
  let column ← conditionColumn env "LIKE left-hand side must be a column name" col
  if column = "metadata" ∧ isEntryTable table then
    return .byMetadataSearch (trimPercent (← pattern.toText.mapError .sql))
  throw (.sql (.unsupported "LIKE is only supported on the metadata column"))

def entryEquation (table column val : String) : Except QueryError EntryFilter :=
  match column with
  | "sequence" =>
    match parseU64 val with
    | some n => .ok (.bySequence n)
    | none => .error (.sql (.typeError "sequence must be integer"))
  | "external_ref" => .ok (.byExternalRef val)
  | "domain" => .ok (.byDomain val)
  | "status" => .ok (.byStatus val)
  | "metadata" => .ok (.byMetadataSearch val)
  | "dr_cr" => if table = "ledger_lines" then .ok (.byDrCr val) else .error (.columnNotFound column)
  | _ => .error (.columnNotFound column)

/-- An equation on a column of the accounts. The currency goes under a name of its own in the filter on the domain. -/
def accountEquation (column val : String) : Except QueryError EntryFilter :=
  match column with
  | "id" => .ok (.byAccountId val)
  | "code" => .ok (.byAccountCode val)
  | "name" => .ok (.byAccountName val)
  | "domain" => .ok (.byDomain val)
  | "currency" => .ok (.byDomain ("__account_currency:" ++ val))
  | _ => .error (.columnNotFound column)

def parseEquation (env : ReadEnv) (table : String) (left right : Operand) : Except QueryError EntryFilter := do
  let column ← conditionColumn env "complex WHERE clauses not yet supported" left
  let val ← right.toText.mapError .sql
  if isEntryTable table then entryEquation table column val
  else if table = "accounts" then accountEquation column val
  else throw (.columnNotFound column)

def parseWhereToEntryFilter (env : ReadEnv) (table : String) : Condition → Except QueryError EntryFilter
  | .inList col list false => parseInList env table col list
  | .inList _ _ true => .error (.sql (.unsupported "NOT IN is not supported — use separate queries"))
  | .like col pattern false => parseLike env table col pattern
  | .eq left right => parseEquation env table left right
  | .like _ _ true | .other =>
    .error (.sql (.unsupported "only simple column = 'value' WHERE clauses are supported"))

/-! ### Scans -/

def scanOf (table : String) (filter : Option EntryFilter) (projections : List String) : Except QueryError ReadPlan :=
  match table with
  | "ledger" => .ok (.scan .ledger filter projections)
  | "ledger_lines" => .ok (.scan .ledgerLines filter projections)
  | "accounts" => .ok (.scan .accounts filter projections)
  | t => .error (.sql (.unknownTable t))

def parseLimit (n : String) : Except QueryError Nat :=
  match parseU64 n with
  | some n => .ok n
  | none => .error (.sql (.typeError "LIMIT must be integer"))

def baseScan (env : ReadEnv) (table : String) (selection : Option Condition) (limit : Option Operand) :
    Except QueryError ReadPlan := do
  match selection, limit with
  | some condition, _ => scanOf table (some (← parseWhereToEntryFilter env table condition)) []
  | none, some (.number n) => scanOf table (some (.limit (← parseLimit n))) []
  | none, _ => scanOf table none []

def parseProjections (env : ReadEnv) (items : List SelectItem) : List String :=
  if .wildcard ∈ items then []
  else
    (items.map fun
      | .unnamedExpr e => exprToColName env e
      | .exprWithAlias _ name => name
      | .wildcard | .qualifiedWildcard => "*").filter fun col => col ≠ "" ∧ col ≠ "*"

/-- A LIMIT counts only without a condition, and not for the accounts. -/
def planScan (env : ReadEnv) (table : String) (items : List SelectItem) (selection : Option Condition)
    (limit : Option Operand) : Except QueryError ReadPlan := do
  match selection, limit with
  | some condition, _ =>
    scanOf table (some (← parseWhereToEntryFilter env table condition)) (parseProjections env items)
  | none, some (.number n) =>
    let n ← parseLimit n
    scanOf table (if table = "accounts" then none else some (.limit n)) (parseProjections env items)
  | none, _ => scanOf table none (parseProjections env items)

/-! ### Aggregates and windows -/

def aggFn (env : ReadEnv) (f : Function) : Option AggFn :=
  match env.toUppercase f.name with
  | "SUM" => some .sum
  | "COUNT" => some .count
  | "AVG" => some .avg
  | "MIN" => some .min
  | "MAX" => some .max
  | _ => none

def aggColumn (env : ReadEnv) : FunctionArguments → String
  | .list (.unnamed e :: _) => operandToColName env e
  | _ => "*"

/-- The aggregate that an item asks for. A call with OVER is none. -/
def aggregateExpr (env : ReadEnv) (f : Function) (aliasName : Option String) : Option AggExpr := do
  let func ← aggFn env f
  if f.overClause.isSome then none
  let column := aggColumn env f.args
  return ⟨func, column, aliasName.getD (env.toLowercase (func.display ++ "(" ++ column ++ ")"))⟩

def collectAggregateExprs (env : ReadEnv) (items : List SelectItem) : List AggExpr :=
  items.filterMap fun
    | .unnamedExpr (.function f) => aggregateExpr env f none
    | .exprWithAlias (.function f) name => aggregateExpr env f (some name)
    | _ => none

def parseWindowFn (env : ReadEnv) (f : Function) : Except QueryError (WindowFn × String) := do
  let windowFn ← match env.toUppercase f.name with
    | "ROW_NUMBER" => .ok .rowNumber
    | "RANK" => .ok .rank
    | "DENSE_RANK" => .ok .denseRank
    | "SUM" => .ok .runningSum
    | "AVG" => .ok .runningAvg
    | "LAG" => .ok .lag
    | "LEAD" => .ok .lead
    | other => .error (.sql (.unsupported ("window function '" ++ other ++ "'")))
  let column := match f.args with
    | .list (.unnamed e :: _) => operandToColName env e
    | _ => "amount"
  return (windowFn, column)

def firstWindow : List SelectItem → Option (Function × List Operand × Option String)
  | [] => none
  | .unnamedExpr (.function f@⟨_, _, some (.windowSpec partitionBy), _⟩) :: _ => some (f, partitionBy, none)
  | .exprWithAlias (.function f@⟨_, _, some (.windowSpec partitionBy), _⟩) name :: _ => some (f, partitionBy, some name)
  | _ :: items => firstWindow items

/-! ### Queries -/

/-- The plan of a SELECT from a table: a window if there is one, else aggregates, else a join, else a scan. -/
def planTable (env : ReadEnv) (body : Select) (from₀ : TableWithJoins) (limit : Option Operand) :
    Except QueryError ReadPlan := do
  let table ← extractTableName env from₀.relation
  match firstWindow body.projection, collectAggregateExprs env body.projection, from₀.joins with
  | some (f, partitionBy, aliasName), _, _ =>
    let (windowFn, column) ← parseWindowFn env f
    let scan ← baseScan env table body.selection limit
    return .window scan windowFn column (aliasName.getD windowFn.display) (partitionBy.map (operandToColName env))
  | none, agg :: aggs, _ =>
    let groupBy := match body.groupBy with
      | .expressions exprs => exprs.map (operandToColName env)
      | .all => []
    return .aggregate (← baseScan env table body.selection limit) groupBy (agg :: aggs)
  | none, [], (relation, joinType) :: _ =>
    let rightTable ← extractTableName env relation
    let left ← baseScan env table body.selection limit
    let right ← baseScan env rightTable none none
    return .join left right joinType
  | none, [], [] => planScan env table body.projection body.selection limit

def planQuery (env : ReadEnv) (q : Query) : Except QueryError ReadPlan :=
  match q.body with
  | .other text => .error (.sql (.unsupported ("query body: " ++ text)))
  | .select body =>
    match body.tables with
    | [] => planTableless env body.projection
    | from₀ :: _ => planTable env body from₀ q.limit

/-! ### Optimizer -/

def predicatePushdown : ReadPlan → ReadPlan
  | .join left right joinType => .join (predicatePushdown left) (predicatePushdown right) joinType
  | .aggregate input groupBy aggregates => .aggregate (predicatePushdown input) groupBy aggregates
  | .window input windowFn column aliasName partitionBy =>
    .window (predicatePushdown input) windowFn column aliasName partitionBy
  | plan => plan

def constantFold : ReadPlan → ReadPlan
  | .scan .ledger (some (.limit 0)) projections => .scan .ledger (some (.limit 0)) projections
  | .join left right joinType => .join (constantFold left) (constantFold right) joinType
  | .aggregate input groupBy aggregates => .aggregate (constantFold input) groupBy aggregates
  | .window input windowFn column aliasName partitionBy =>
    .window (constantFold input) windowFn column aliasName partitionBy
  | plan => plan

def optimize (plan : ReadPlan) : ReadPlan := constantFold (predicatePushdown plan)

def plan (env : ReadEnv) (q : Query) : Except QueryError ReadPlan := (planQuery env q).map optimize

end VectorLedger.Sql
