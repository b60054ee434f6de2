import Mathlib.Algebra.BigOperators.Ring.Finset
import Mathlib.Data.Finmap

/-! Identifiers, hashes, amounts, accounts and currencies, and the errors of the ledger. -/

namespace VectorLedger

abbrev Uuid := BitVec 128

abbrev AccountId := Uuid

abbrev Hash := Vector UInt8 32

def zeroHash : Hash := Vector.replicate 32 0

def CollisionFree (blake3 : List UInt8 → Hash) (strings : List (List UInt8)) : Prop :=
  ∀ a ∈ strings, ∀ b ∈ strings, blake3 a = blake3 b → a = b

instance (blake3 : List UInt8 → Hash) (strings : List (List UInt8)) : Decidable (CollisionFree blake3 strings) := by
  unfold CollisionFree
  infer_instance

/-- Nanoseconds since the Unix epoch. -/
abbrev DateTime := Int

/-! ### Bytes and hexadecimal text -/

def leBytes : Nat → Nat → List UInt8
  | 0, _ => []
  | n + 1, v => UInt8.ofNat v :: leBytes n (v / 256)

def leNat : List UInt8 → Nat
  | [] => 0
  | b :: bs => b.toNat + 256 * leNat bs

@[simp] theorem length_leBytes (n v : Nat) : (leBytes n v).length = n := by
  induction n generalizing v with
  | zero => rfl
  | succ n ih => rw [leBytes, List.length_cons, ih]

theorem leNat_leBytes {n v : Nat} (h : v < 256 ^ n) : leNat (leBytes n v) = v := by
  induction n generalizing v with
  | zero => simp at h; simp [leBytes, leNat, h]
  | succ n ih =>
    have hdiv : v / 256 < 256 ^ n := Nat.div_lt_of_lt_mul (by rwa [Nat.pow_succ, Nat.mul_comm] at h)
    rw [leBytes, leNat, ih hdiv, UInt8.toNat_ofNat']
    omega

theorem leBytes_inj {n v w : Nat} (hv : v < 256 ^ n) (hw : w < 256 ^ n) (h : leBytes n v = leBytes n w) : v = w := by
  rw [← leNat_leBytes hv, h, leNat_leBytes hw]

theorem leNat_lt (bs : List UInt8) : leNat bs < 256 ^ bs.length := by
  induction bs with
  | nil => exact Nat.one_pos
  | cons b =>
    have hb := b.toNat_lt
    rw [leNat, List.length_cons, Nat.pow_succ]
    omega

theorem leBytes_leNat {n : Nat} {bs : List UInt8} (h : bs.length = n) : leBytes n (leNat bs) = bs := by
  subst h
  induction bs with
  | nil => rfl
  | cons b bs ih =>
    have hb := b.toNat_lt
    have hlow : UInt8.ofNat (b.toNat + 256 * leNat bs) = b := by
      apply UInt8.toNat_inj.1
      rw [UInt8.toNat_ofNat']
      omega
    have hhigh : (b.toNat + 256 * leNat bs) / 256 = leNat bs := by omega
    rw [leNat, List.length_cons, leBytes, hlow, hhigh, ih]

def hexDigit (n : Nat) : Char := ("0123456789abcdef".toList.getD n '0')

def hexEncode (bytes : List UInt8) : String :=
  String.ofList (bytes.flatMap fun b => [hexDigit (b.toNat / 16), hexDigit (b.toNat % 16)])

def Uuid.asBytes (u : Uuid) : List UInt8 := (leBytes 16 u.toNat).reverse

/-- The hyphenated form, in groups of 8, 4, 4, 4 and 12 digits. -/
def Uuid.toText (u : Uuid) : String :=
  let digits := (hexEncode (Uuid.asBytes u)).toList
  let group := fun i n => String.ofList ((digits.drop i).take n)
  group 0 8 ++ "-" ++ group 8 4 ++ "-" ++ group 12 4 ++ "-" ++ group 16 4 ++ "-" ++ group 20 12

/-! ### Amounts -/

structure Amount where
  minorUnits : Int64
  deriving DecidableEq, Repr

def Amount.new (minorUnits : Int64) : Option Amount := if minorUnits = 0 then none else some ⟨minorUnits⟩

def Amount.zero : Amount := ⟨0⟩

def Amount.asI64 (a : Amount) : Int64 := a.minorUnits

def Amount.asI128 (a : Amount) : Int := a.minorUnits.toInt

/-! ### Accounts -/

inductive AccountType where
  | asset
  | liability
  | equity
  | income
  | expense
  | contra
  | suspense
  deriving DecidableEq, Repr

def AccountType.normalBalanceSign : AccountType → Int
  | .asset | .expense => 1
  | .liability | .equity | .income => -1
  | .contra => -1
  | .suspense => 1

/-- The test for Asset and Expense that the balance cache, the checks of an entry and the snapshots make. -/
def AccountType.isDebitNormal : AccountType → Bool
  | .asset | .expense => true
  | _ => false

def AccountType.onCreditSide : AccountType → Bool
  | .liability | .equity | .income => true
  | _ => false

inductive AccountStatus where
  | active
  | closed
  | frozen
  deriving DecidableEq, Repr

structure Account where
  id : AccountId
  code : String
  name : String
  accountType : AccountType
  currencyCode : String
  status : AccountStatus
  requireNonNegativeBalance : Bool
  exposureLimit : Option Int64
  requireFourEyes : Bool
  parentId : Option AccountId
  createdAt : DateTime
  domain : String
  legalHold : Bool
  deriving DecidableEq, Repr

/-- An account with the default settings, under the identifier and the time the caller drew. -/
def Account.new (toUppercase : String → String) (id : AccountId) (now : DateTime) (code name : String)
    (accountType : AccountType) (currencyCode domain : String) : Account where
  id := id
  code := code
  name := name
  accountType := accountType
  currencyCode := toUppercase currencyCode
  status := .active
  requireNonNegativeBalance := true
  exposureLimit := none
  requireFourEyes := false
  parentId := none
  createdAt := now
  domain := domain
  legalHold := false

def Account.isActive (a : Account) : Bool := a.status == .active

/-! ### Currencies -/

structure Currency where
  code : String
  precision : UInt8
  name : String
  isCrypto : Bool
  deriving DecidableEq, Repr

abbrev CurrencyRegistry := Finmap fun _ : String => Currency

namespace CurrencyRegistry

def register (r : CurrencyRegistry) (c : Currency) : CurrencyRegistry := r.insert c.code c

def preloaded : List Currency :=
  [⟨"USD", 2, "US Dollar", false⟩, ⟨"EUR", 2, "Euro", false⟩, ⟨"GBP", 2, "British Pound", false⟩,
    ⟨"BTC", 8, "Bitcoin", true⟩, ⟨"ETH", 18, "Ethereum", true⟩, ⟨"USDC", 6, "USD Coin", true⟩,
    ⟨"JPY", 0, "Japanese Yen", false⟩]

def new : CurrencyRegistry := preloaded.foldl register ∅

def get (toUppercase : String → String) (r : CurrencyRegistry) (code : String) : Option Currency :=
  r.lookup (toUppercase code)

def precision (toUppercase : String → String) (r : CurrencyRegistry) (code : String) : Option UInt8 :=
  (get toUppercase r code).map (·.precision)

end CurrencyRegistry

/-! ### Entry status and errors -/

inductive EntryStatus where
  | posted
  | reversed
  | reversal
  | pendingApproval
  | rejected
  | pending
  | settled
  | failed
  deriving DecidableEq, Repr

/-- The errors of the write-ahead log that the ledger can meet. -/
inductive WalError where
  | io (reason : String)
  | signatureInvalid (reason : String)
  | unsupportedVersion (version : UInt8)
  deriving DecidableEq, Repr

inductive LedgerError where
  | transaction (e : WalError)
  | wal (e : WalError)
  | unbalancedEntry (debits credits : Int)
  | tooFewLines (lines : Nat)
  | insufficientFunds (accountId : String) (balance debit : Int)
  | accountNotFound (accountId : String)
  | accountClosed (accountId : String)
  | currencyMismatch (accountCurrency entryCurrency : String)
  | entryNotFound (entryId : String)
  | cannotReverse (entryId : String) (status : EntryStatus)
  | alreadyReversed (entryId reversalId : String)
  | exposureLimitExceeded (accountId : String) (limit attempted : Int)
  | fourEyesRequired
  | accountUnderLegalHold (accountId : String)
  | precisionViolation (currency : String) (precision : UInt8) (amount maxMinorUnits : Int64)
  | serialization (reason : String)
  deriving DecidableEq, Repr

end VectorLedger
