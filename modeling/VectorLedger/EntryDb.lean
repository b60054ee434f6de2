import VectorLedger.Wal
import VectorLedger.Lib.Tally

/-! The SQLite index: the entries with the constraints of their table, the cross-reference from accounts to
    entries, and the accounts. -/

namespace VectorLedger

abbrev Accounts := Finmap fun _ : AccountId => Account

abbrev BalanceCache := Tally AccountId Int

/-- Two entries that the `entries` table does not hold together: it has one row for a sequence and one for a
    key that is not null. -/
def Clash (a b : JournalEntry) : Prop :=
  a.sequence = b.sequence ∨ a.idempotencyKey ≠ none ∧ a.idempotencyKey = b.idempotencyKey

instance (a b : JournalEntry) : Decidable (Clash a b) := by unfold Clash; infer_instance

theorem Clash.symm {a b : JournalEntry} (h : Clash a b) : Clash b a := by
  rcases h with h | ⟨h, heq⟩
  · exact .inl h.symm
  · exact .inr ⟨heq ▸ h, heq.symm⟩

structure EntryDb where
  entries : List JournalEntry
  accountEntries : Finset (AccountId × Nat)
  accounts : List Account
  sorted : entries.Pairwise fun a b => a.sequence < b.sequence
  noClash : entries.Pairwise fun a b => ¬ Clash a b
  positive : ∀ e ∈ entries, 0 < e.sequence

namespace EntryDb

def empty : EntryDb where
  entries := []
  accountEntries := ∅
  accounts := []
  sorted := List.Pairwise.nil
  noClash := List.Pairwise.nil
  positive := by simp

/-! ### Writing -/

def Refused (db : EntryDb) (e : JournalEntry) : Prop :=
  e.sequence = 0 ∨ ∃ row ∈ db.entries, Clash e row

instance (db : EntryDb) (e : JournalEntry) : Decidable (db.Refused e) := by unfold Refused; infer_instance

def insertBySequence (e : JournalEntry) : List JournalEntry → List JournalEntry
  | [] => [e]
  | row :: rows => if e.sequence < row.sequence then e :: row :: rows else row :: insertBySequence e rows

variable {e : JournalEntry} {rows : List JournalEntry}

theorem mem_insertBySequence {x : JournalEntry} : x ∈ insertBySequence e rows ↔ x = e ∨ x ∈ rows := by
  induction rows with
  | nil => simp [insertBySequence]
  | cons row rows ih =>
    unfold insertBySequence
    split
    · simp
    · simp only [List.mem_cons, ih, or_left_comm]

theorem sorted_insertBySequence
    (h : rows.Pairwise fun a b => a.sequence < b.sequence) (hne : ∀ row ∈ rows, e.sequence ≠ row.sequence) :
    (insertBySequence e rows).Pairwise fun a b => a.sequence < b.sequence := by
  induction rows with
  | nil => simp [insertBySequence]
  | cons row rows ih =>
    rw [List.pairwise_cons] at h
    rw [List.forall_mem_cons] at hne
    unfold insertBySequence
    split
    · next hlt =>
      refine List.pairwise_cons.2 ⟨?_, List.pairwise_cons.2 h⟩
      intro x hx
      rcases List.mem_cons.1 hx with rfl | hx
      · exact hlt
      · exact Nat.lt_trans hlt (h.1 x hx)
    · next hge =>
      refine List.pairwise_cons.2 ⟨?_, ih h.2 hne.2⟩
      intro x hx
      rcases mem_insertBySequence.1 hx with rfl | hx
      · have := hne.1
        omega
      · exact h.1 x hx

theorem noClash_insertBySequence (h : rows.Pairwise fun a b => ¬ Clash a b) (hne : ∀ row ∈ rows, ¬ Clash e row) :
    (insertBySequence e rows).Pairwise fun a b => ¬ Clash a b := by
  induction rows with
  | nil => simp [insertBySequence]
  | cons row rows ih =>
    rw [List.pairwise_cons] at h
    unfold insertBySequence
    split
    · exact List.pairwise_cons.2 ⟨hne, List.pairwise_cons.2 h⟩
    · rw [List.forall_mem_cons] at hne
      refine List.pairwise_cons.2 ⟨?_, ih h.2 hne.2⟩
      intro x hx
      rcases mem_insertBySequence.1 hx with rfl | hx
      · exact fun hc => hne.1 (Clash.symm hc)
      · exact h.1 x hx

/-- `INSERT OR IGNORE` into `entries`: a refused row is skipped without an error. -/
def insert (db : EntryDb) (e : JournalEntry) : EntryDb :=
  if h : db.Refused e then db
  else
    { db with
      entries := insertBySequence e db.entries
      sorted := sorted_insertBySequence db.sorted fun row hrow heq => h (.inr ⟨row, hrow, .inl heq⟩)
      noClash := noClash_insertBySequence db.noClash fun row hrow hc => h (.inr ⟨row, hrow, hc⟩)
      positive := by
        intro x hx
        rcases mem_insertBySequence.1 hx with rfl | hx
        · exact Nat.pos_of_ne_zero fun h0 => h (.inl h0)
        · exact db.positive x hx }

def insertAccountEntry (db : EntryDb) (a : AccountId) (sequence : Nat) : EntryDb :=
  { db with accountEntries := Insert.insert (a, sequence) db.accountEntries }

def upsertAccount (db : EntryDb) (a : Account) : EntryDb :=
  { db with accounts := db.accounts.filter (fun row => row.id ≠ a.id) ++ [a] }

/-! ### Reading -/

def getBySequence (db : EntryDb) (sequence : Nat) : Option JournalEntry :=
  db.entries.find? fun e => e.sequence = sequence

def idempotencyKeyExists (db : EntryDb) (key : String) : Bool :=
  db.entries.any fun e => e.idempotencyKey = some key

def sequenceForIdempotencyKey (db : EntryDb) (key : String) : Option Nat :=
  (db.entries.find? fun e => e.idempotencyKey = some key).map (·.sequence)

def count (db : EntryDb) : Nat := db.entries.length

def maxSequence (db : EntryDb) : Nat := (db.entries.getLast?.map (·.sequence)).getD 0

def chainTip (db : EntryDb) : Option Hash := db.entries.getLast?.map (·.chainHash)

def asI64 (n : Nat) : Int := Int.bmod n (2 ^ 64)

def scanRange (db : EntryDb) (fromSeq toSeq : Nat) : List JournalEntry :=
  db.entries.filter fun e => asI64 fromSeq ≤ e.sequence ∧ (e.sequence : Int) ≤ asI64 toSeq

def findById (db : EntryDb) (entryId : Uuid) : Option JournalEntry :=
  db.entries.foldl (fun found e => if e.id = entryId then some e else found) none

def entriesForAccount (db : EntryDb) (a : AccountId) : List JournalEntry :=
  db.entries.filter fun e => (a, e.sequence) ∈ db.accountEntries

/-- Add the lines of one entry to the cache, up to the first account that is not known. -/
def rebuildLines (accounts : Accounts) (cache : BalanceCache) : List JournalLine → BalanceCache
  | [] => cache
  | line :: lines =>
    match accounts.lookup line.accountId with
    | some acct =>
      rebuildLines accounts (cache.add line.accountId (line.delta acct.accountType.isDebitNormal)) lines
    | none => cache

def rebuildBalanceCache (db : EntryDb) (accounts : Accounts) (cache : BalanceCache) : BalanceCache :=
  db.entries.foldl
    (fun cache e => if e.status.affectsBalance then rebuildLines accounts cache e.lines else cache) cache

end EntryDb

end VectorLedger
