import VectorLedger.Server.Queries

/-! The pgwire listener: the messages of a client, the loop that answers them, and the messages of a result. -/

namespace VectorLedger.Pgwire

inductive FrontendMessage where
  | query (sql : String)
  | parse (name query : String)
  | bind (portal statement : String)
  | describe (kind : UInt8) (name : String)
  | execute (portal : String)
  | sync
  | flush
  | terminate
  | unknown (msgType : UInt8)
  deriving DecidableEq, Repr

/-- What the loop is run with. -/
structure Env (σ : Type) where
  fromUtf8Lossy : List UInt8 → String
  /-- Whether nothing is left of a text that is trimmed. -/
  isBlank : String → Bool
  /-- `execute_query` on a text, the ledger and the status of the transaction: the answer, and both afterwards. -/
  executeQuery : String → σ → UInt8 → List (List UInt8) × σ × UInt8

variable {σ : Type}

/-- A string up to a NUL byte or to the end, and what follows. -/
def readCstrPos (env : Env σ) (buf : List UInt8) : String × List UInt8 :=
  if buf = [] then ("", []) else (env.fromUtf8Lossy (buf.takeWhile (· ≠ 0)), (buf.dropWhile (· ≠ 0)).tail)

/-- `FrontendMessage::parse` on the type byte and the payload of a message. -/
def parseMessage (env : Env σ) (m : UInt8 × List UInt8) : FrontendMessage :=
  let (first, rest) := readCstrPos env m.2
  match Char.ofNat m.1.toNat with
  | 'Q' => .query (env.fromUtf8Lossy (m.2.takeWhile (· ≠ 0)))
  | 'P' => .parse first (readCstrPos env rest).1
  | 'B' => .bind first (readCstrPos env rest).1
  | 'D' => .describe (m.2.headD 'S'.toUInt8) (readCstrPos env m.2.tail).1
  | 'E' => .execute first
  | 'S' => .sync
  | 'H' => .flush
  | 'X' => .terminate
  | _ => .unknown m.1

/-- A connection behind its authentication. The texts that were executed are kept for the statements about it. -/
structure Connection (σ : Type) where
  ledger : σ
  txStatus : UInt8
  sent : List (List UInt8)
  executed : List String

def beBytes (n v : Nat) : List UInt8 := (leBytes n v).reverse

/-- A message of the server. Its length is cast to 32 bits. -/
def message (msgType : Char) (payload : List UInt8) : List UInt8 :=
  msgType.toUInt8 :: (beBytes 4 (4 + payload.length) ++ payload)

namespace Connection

def send (c : Connection σ) (messages : List (List UInt8)) : Connection σ := { c with sent := c.sent ++ messages }

def run (env : Env σ) (c : Connection σ) (sql : String) : Connection σ :=
  let (responses, ledger, txStatus) := env.executeQuery sql c.ledger c.txStatus
  ⟨ledger, txStatus, c.sent ++ responses, c.executed ++ [sql]⟩

def handle (env : Env σ) (c : Connection σ) : FrontendMessage → Connection σ
  | .query sql => c.run env sql
  | .parse _ query => c.send (message '1' [] :: if env.isBlank query then [message 'n' []] else [])
  | .bind _ _ => c.send [message '2' []]
  | .describe _ _ => c.send [message 'n' []]
  | .execute portal => c.run env portal
  | .sync | .flush => c.send [message 'Z' [c.txStatus]]
  | .terminate | .unknown _ => c

/-- The query loop of `handle_authenticated` on the messages that it reads before the connection ends. -/
def queryLoop (env : Env σ) (c : Connection σ) : List (UInt8 × List UInt8) → Connection σ
  | [] => c
  | m :: ms =>
    match parseMessage env m with
    | .terminate => c
    | msg => queryLoop env (c.handle env msg) ms

end Connection

/-! ### Results -/

open JournalEntry Sql.Read

/-- A column of type bigint or text, after its name: no table, no type modifier and the text format. -/
def fieldDesc (name : String) : List UInt8 :=
  let (typeOid, typeSize) := if name ∈ ["balance", "sequence", "entries_verified"] then (20, 8) else (25, 2 ^ 16 - 1)
  utf8 name ++ [0] ++
    (beBytes 4 0 ++ beBytes 2 0 ++ beBytes 4 typeOid ++ beBytes 2 typeSize ++ beBytes 4 (2 ^ 32 - 1) ++ beBytes 2 0)

def rowDescription (columns : List String) : List UInt8 :=
  message 'T' (beBytes 2 columns.length ++ columns.flatMap fieldDesc)

def cellBytes : Option String → List UInt8
  | none => beBytes 4 (2 ^ 32 - 1)
  | some text => beBytes 4 (utf8 text).length ++ utf8 text

def dataRowMessage (values : List (Option String)) : List UInt8 :=
  message 'D' (beBytes 2 values.length ++ values.flatMap cellBytes)

/-- The row description and the data rows of a result. -/
def resultMessages (r : QueryResult) : List (List UInt8) :=
  if r.columns = [] ∧ r.rows = [] then []
  else rowDescription r.columns :: r.rows.map fun row => dataRowMessage (dataRow r.columns row)

end VectorLedger.Pgwire
