import VectorLedger.Lib.Binary64
import VectorLedger.Sql

/-! Rows of an import file: the fields of a record under the names of the column mapping, with the amount in minor units. -/

namespace VectorLedger.Import

open Binary64

/-- `special` gives the amount for the other texts that parse as a floating-point number: with an exponent, an infinity or
    NaN. -/
structure Env where
  trim : String → String
  toUppercase : String → String
  special : String → Option Int64

structure ImportRow where
  description : String
  debitAccount : String
  creditAccount : String
  amount : Int64
  currency : String
  domain : String
  externalRef : Option String
  idempotencyKey : Option String
  effectiveDate : Option String
  raw : String
  rawFields : List (String × String)

def splitSign : List Char → Int × List Char
  | '+' :: cs => (1, cs)
  | '-' :: cs => (-1, cs)
  | cs => (1, cs)

/-- The number of a text of digits with at most one point among them, after an optional sign. -/
def decimal (text : String) : Option ℚ :=
  let (sign, cs) := splitSign text.toList
  let fraction := (cs.dropWhile (· ≠ '.')).drop 1
  (Sql.parseDigits (cs.takeWhile (· ≠ '.') ++ fraction)).map fun n : Nat => (sign * n : Int) / 10 ^ fraction.length

/-- An integer is taken as it is, any other number as binary64 times 100. -/
def parseAmount (env : Env) (text : String) : Option Int64 :=
  match Sql.parseI64 (env.trim text), decimal (env.trim text) with
  | some amount, _ => some amount
  | none, some v => some (toI64 (roundAway (nearest (nearest v * 100))))
  | none, none => env.special (env.trim text)

def rowFromMap (env : Env) (map : String → Option String) (raw : String) (rawFields : List (String × String))
    (defaultDomain defaultCurrency : String) : Except String ImportRow :=
  let get key := (map key).getD ""
  let optional key := if get key = "" then none else some (get key)
  match parseAmount env (get "amount") with
  | none => .error ("Cannot parse amount '" ++ get "amount" ++ "' as integer or decimal")
  | some amount => .ok {
      description := get "description"
      debitAccount := get "debit_account"
      creditAccount := get "credit_account"
      amount
      currency := if get "currency" = "" then defaultCurrency else env.toUppercase (get "currency")
      domain := if get "domain" = "" then defaultDomain else get "domain"
      externalRef := optional "external_ref"
      idempotencyKey := optional "idempotency_key"
      effectiveDate := optional "effective_date"
      raw
      rawFields }

end VectorLedger.Import
