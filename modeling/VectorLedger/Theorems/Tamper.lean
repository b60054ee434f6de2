import VectorLedger.Theorems.Atomic
import VectorLedger.Theorems.Recoveries

/-! Recovery of files that someone has changed. The signature of a commit covers the row hashes of its data records and
    nothing else of them. -/

namespace VectorLedger

open List

namespace Wal

/-! ### Transactions that passed the check -/

/-- The commit passes verification with the data records that are reported. -/
structure CommittedTransaction.Checked (v : Verifier) (t : CommittedTransaction) : Prop where
  commit : verifyCommitFull v t.commitRecord t.dataRecords = .ok ()
  payloads : t.dataPayloads = t.dataRecords.filterMap decodeDataPayload

section Checked
variable {ε : Type} {v : Verifier} {fromWal : RecoveryError → ε} {skip : Option UInt32}

theorem streamItems_checked (items : List (Except WalError Record)) :
    ∀ t ∈ (streamItems v fromWal true skip noteCall .start [] items).1, t.Checked v := by
  obtain ⟨ts, -, hchecked, hcalls, -⟩ := (recordReader v true).run_spec items ∅ 0 []
  rw [streamItems_verified, hcalls, nil_append, forall_mem_map]
  exact fun t ht => ⟨hchecked t ht, rfl⟩

theorem rowHashes_ok {rs : List Record} {hashes : List Hash} (h : rowHashes v rs = .ok hashes) :
    hashes = (rs.filterMap decodeDataPayload).map (·.rowHash) := by
  induction rs generalizing hashes with
  | nil => exact (Except.ok.inj h).symm
  | cons r rs ih =>
    rw [rowHashes] at h
    cases hp : decodeDataPayload r with
    | none => simp [hp] at h
    | some =>
      simp only [hp] at h
      cases hrest : rowHashes v rs with
      | error => simp [hrest, Except.map] at h
      | ok =>
        rw [hrest] at h
        cases h
        rw [filterMap_cons_some hp, map_cons, ← ih hrest]

theorem CommittedTransaction.Checked.commitPayload {t : CommittedTransaction} (h : t.Checked v) :
    ∃ p, decodeCommitPayload t.commitRecord = some p ∧ txHash v (t.dataPayloads.map (·.rowHash)) = p.txHash ∧
      verifyCommitSignature v t.commitRecord = .ok () := by
  have hcommit := h.commit
  unfold verifyCommitFull at hcommit
  cases hp : decodeCommitPayload t.commitRecord with
  | none => simp [hp] at hcommit
  | some p =>
    simp only [hp] at hcommit
    split at hcommit
    · cases hcommit
    · cases hhashes : rowHashes v t.dataRecords with
      | error => simp [hhashes] at hcommit
      | ok =>
        simp only [hhashes] at hcommit
        split at hcommit
        · cases hcommit
        · next hhash =>
          refine ⟨p, rfl, ?_, hcommit⟩
          rw [h.payloads, ← rowHashes_ok hhashes]
          exact not_not.1 hhash

theorem verify_of_signature {r : Record} {p : CommitPayload} (h : verifyCommitSignature v r = .ok ())
    (hp : decodeCommitPayload r = some p) (key : p.signerPubkey.length = 32) (nonzero : p.signerPubkey ≠ replicate 32 0)
    (signature : p.signature.length = 64) :
    v.verify p.signerPubkey (commitMessage p.txHash p.recordCount.toNat) p.signature = .ok () := by
  have hempty : p.signerPubkey ≠ [] := fun hnil => by simp [hnil] at key
  simp only [verifyCommitSignature, hp] at h
  rw [if_neg (not_or_intro hempty nonzero), if_neg (by simp [key, signature])] at h
  split at h
  · assumption
  · cases h
  · cases h

end Checked

theorem flatMap_toList_inj {hs hs' : List Hash} (h : hs.flatMap Vector.toList = hs'.flatMap Vector.toList) : hs = hs' := by
  induction hs generalizing hs' with
  | nil =>
    cases hs' with
    | nil => rfl
    | cons =>
      have hlen := congrArg length h
      simp at hlen
      omega
  | cons x xs ih =>
    cases hs' with
    | nil =>
      have hlen := congrArg length h
      simp at hlen
    | cons =>
      rw [flatMap_cons, flatMap_cons] at h
      obtain ⟨hfirst, hrest⟩ := append_inj h (by simp)
      rw [Vector.toList_inj.1 hfirst, ih hrest]

end Wal

namespace Tx

open Wal Frames

/-! ### What a signature covers -/

/-- The commit carries the public key of this key, which is not the zero one, and something of the length of a signature. -/
structure SignedBy (env : Env) (key : SigningKey) (c : Wal.CommittedTransaction) (p : Wal.CommitPayload) : Prop where
  payload : decodeCommitPayload c.commitRecord = some p
  signer : p.signerPubkey = (env.publicKey key).toList
  nonzero : p.signerPubkey ≠ List.replicate 32 0
  signature : p.signature.length = 64

/-- Every message with a signature that verifies under the key is the message of a commit record in the files that the
    managers wrote. -/
def Unforged (env : Env) (key : SigningKey) (masterKey : Option WalKey) (written : Dir)
    (calls : List Wal.CommittedTransaction) : Prop :=
  ∀ c ∈ calls, ∀ p, SignedBy env key c p →
    env.verifier.verify p.signerPubkey (commitMessage p.txHash p.recordCount.toNat) p.signature = .ok () →
    ∃ r ∈ (good (readDir env.crypto masterKey written)).filter Record.isCommit, ∃ p', decodeCommitPayload r = some p' ∧
      p'.signerPubkey = p.signerPubkey ∧
      commitMessage p'.txHash p'.recordCount.toNat = commitMessage p.txHash p.recordCount.toNat

/-- The strings that were hashed for the transactions that were committed, and for those that are reported. -/
def hashedStrings (env : Env) (entries : List CommitEntry) (calls : List Wal.CommittedTransaction) : List Bytes :=
  entries.flatMap (fun k => k.mutations.map (·.rowData) ++
    [(k.mutations.map fun m => env.verifier.blake3 m.rowData).flatMap Vector.toList]) ++
  calls.flatMap (fun c => c.dataPayloads.map (·.rowData) ++ [(c.dataPayloads.map (·.rowHash)).flatMap Vector.toList])

/-- A reported transaction has the table, the kind and the row of each mutation of one that was committed. -/
def SameRows (k : CommitEntry) (c : Wal.CommittedTransaction) : Prop :=
  c.dataPayloads.map (fun p => (p.tableId, p.mutation, p.rowData)) = k.mutations.map fun m => (m.tableId, m.kind, m.rowData)

instance (k : CommitEntry) (c : Wal.CommittedTransaction) : Decidable (SameRows k c) :=
  inferInstanceAs (Decidable (_ = _))

/-- The row hashes of a reported transaction are those of the rows of one that was committed. -/
def SameHashes (env : Env) (k : CommitEntry) (c : Wal.CommittedTransaction) : Prop :=
  c.dataPayloads.map (·.rowHash) = k.mutations.map fun m => env.verifier.blake3 m.rowData

instance (env : Env) (k : CommitEntry) (c : Wal.CommittedTransaction) : Decidable (SameHashes env k c) :=
  inferInstanceAs (Decidable (_ = _))

/-- The hash that each data record carries is the hash of its row, and the tables and kinds are those that were committed
    with these hashes. -/
structure RowsIntact (env : Env) (entries : List CommitEntry) (c : Wal.CommittedTransaction) : Prop where
  hashes : ∀ p ∈ c.dataPayloads, p.rowHash = env.verifier.blake3 p.rowData
  tables : ∀ k ∈ entries, SameHashes env k c →
    c.dataPayloads.map (fun p => (p.tableId, p.mutation)) = k.mutations.map fun m => (m.tableId, m.kind)

instance (env : Env) (entries : List CommitEntry) (c : Wal.CommittedTransaction) : Decidable (RowsIntact env entries c) :=
  decidable_of_iff (_ ∧ _) ⟨fun h => ⟨h.1, h.2⟩, fun h => ⟨h.1, h.2⟩⟩

section Covered
variable {env : Env} {k : CommitEntry} {c : Wal.CommittedTransaction}

theorem sameRows_of_intact {ps : List Wal.DataPayload} {ms : List Mutation}
    (hashes : ps.map (·.rowHash) = ms.map fun m => env.verifier.blake3 m.rowData)
    (free : ∀ p ∈ ps, ∀ m ∈ ms, env.verifier.blake3 p.rowData = env.verifier.blake3 m.rowData → p.rowData = m.rowData)
    (intact : ∀ p ∈ ps, p.rowHash = env.verifier.blake3 p.rowData)
    (tables : ps.map (fun p => (p.tableId, p.mutation)) = ms.map fun m => (m.tableId, m.kind)) :
    ps.map (fun p => (p.tableId, p.mutation, p.rowData)) = ms.map fun m => (m.tableId, m.kind, m.rowData) := by
  induction ps generalizing ms with
  | nil =>
    obtain rfl : ms = [] := by simpa using hashes.symm
    rfl
  | cons p ps ih =>
    obtain ⟨m, ms, rfl⟩ : ∃ m ms', ms = m :: ms' := by
      cases ms with
      | nil => cases hashes
      | cons m ms => exact ⟨m, ms, rfl⟩
    obtain ⟨hhash, hhashes⟩ := cons.inj hashes
    obtain ⟨htable, htables⟩ := cons.inj tables
    rw [forall_mem_cons] at intact
    have hrow := free p mem_cons_self m mem_cons_self (intact.1.symm.trans hhash)
    rw [map_cons, map_cons, hrow, (Prod.mk.inj htable).1, (Prod.mk.inj htable).2,
      ih hhashes (fun q hq m' hm' => free q (mem_cons_of_mem _ hq) m' (mem_cons_of_mem _ hm')) intact.2 htables]

theorem mem_hashedStrings_entry {entries : List CommitEntry} (calls : List Wal.CommittedTransaction) (hk : k ∈ entries)
    {s : Bytes} (hs : s ∈ k.mutations.map (·.rowData) ++
      [(k.mutations.map fun m => env.verifier.blake3 m.rowData).flatMap Vector.toList]) :
    s ∈ hashedStrings env entries calls :=
  mem_append_left _ (mem_flatMap.2 ⟨k, hk, hs⟩)

theorem mem_hashedStrings_call (entries : List CommitEntry) {calls : List Wal.CommittedTransaction} (hc : c ∈ calls)
    {s : Bytes} (hs : s ∈ c.dataPayloads.map (·.rowData) ++ [(c.dataPayloads.map (·.rowHash)).flatMap Vector.toList]) :
    s ∈ hashedStrings env entries calls :=
  mem_append_right _ (mem_flatMap.2 ⟨c, hc, hs⟩)

end Covered

namespace Sample

/-- A hash of the length and the first bytes, and a signature that is the message. -/
def signer : Env where
  crypto := env.crypto
  verifier :=
    { blake3 := fun bs => Vector.ofFn fun i => if i.val = 0 then .ofNat bs.length else bs.getD (i.val - 1) 0
      verify := fun _ msg sig => if sig = msg ++ List.replicate 28 0 then .ok () else .error (.mismatch "signature error")
      decodeError := fun _ => "unexpected end" }
  sign _ msg := Vector.ofFn fun i => msg.getD i.val 0
  publicKey _ := Vector.replicate 32 1

def key : SigningKey := [7]

def signed : List Event :=
  [.openManager (some key), call (.begin none), call (.addMutation 1 (mutation [1])), call (.commit 1)]

def forged (data : Wal.DataPayload) (commit : Wal.CommitPayload) : Dir :=
  ((WalWriter.openWithOptions signer.crypto [] defaultSegmentSize none).appendAll signer.crypto
    (stamped 1 stamps [(.begin, beginBytes none), (.data, data.toBytes), (.commit, commit.toBytes)])).2.dir

/-- The row is another one, and the row hash and the commit record are as they were. -/
def otherRow : Dir :=
  forged { (mutation [1]).payload signer with rowData := [9] } (commitPayload signer (some key) (hashOf signer [mutation [1]]) 1)

/-- The row is another one with its own hash, and the commit record is one without a signature. -/
def unsigned : Dir :=
  forged ((mutation [9]).payload signer) (commitPayload signer none (hashOf signer [mutation [9]]) 1)

end Sample

open Tx.Sample Wal.Sample

/-- No reported commit carries the key, unless its payload is one that was written. -/
def OldPayloads (env : Env) (key : SigningKey) (masterKey : Option WalKey) (written : Dir)
    (calls : List Wal.CommittedTransaction) : Prop :=
  ∀ c ∈ calls, ((decodeCommitPayload c.commitRecord).all fun p => p.signerPubkey ≠ (env.publicKey key).toList) = true ∨
    ∃ r ∈ (good (readDir env.crypto masterKey written)).filter Record.isCommit,
      decodeCommitPayload r = decodeCommitPayload c.commitRecord

instance (env : Env) (key : SigningKey) (masterKey : Option WalKey) (written : Dir)
    (calls : List Wal.CommittedTransaction) : Decidable (OldPayloads env key masterKey written calls) := by
  unfold OldPayloads
  infer_instance

theorem OldPayloads.unforged {env : Env} {key : SigningKey} {masterKey : Option WalKey} {written : Dir}
    {calls : List Wal.CommittedTransaction} (h : OldPayloads env key masterKey written calls) :
    Unforged env key masterKey written calls := by
  intro c hc p signed _
  rcases h c hc with hother | ⟨r, hr, hsame⟩
  · rw [signed.payload] at hother
    exact absurd signed.signer (by simpa using hother)
  · exact ⟨r, hr, p, hsame.trans signed.payload, rfl, rfl⟩

/-- All commits are signed with the key, no signature is forged and no hash collides, and yet recovery of the changed files,
    which verifies signatures, reports rows that no transaction has committed. -/
def Sample.Misreported (changed : Dir) : Prop :=
  ∃ t, Run.Reachable (Tracked.step signer) (Tracked.Fits signer) .start t ∧ (∀ k ∈ t.entries, k.signingKey = some key) ∧
    Unforged signer key none t.db.dir (streamed signer.crypto signer.verifier changed none true none 0).1 ∧
    CollisionFree signer.verifier.blake3
      (hashedStrings signer t.entries (streamed signer.crypto signer.verifier changed none true none 0).1) ∧
    ∃ c ∈ (streamed signer.crypto signer.verifier changed none true none 0).1, ∀ k ∈ t.entries, ¬SameRows k c

end Tx

end VectorLedger
