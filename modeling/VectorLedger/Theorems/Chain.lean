import VectorLedger.Lib.HashChain
import VectorLedger.Theorems.Events
import VectorLedger.Theorems.Indexed
import VectorLedger.Theorems.Sequence

/-! The hash chain of the index: which runs leave a chain that verifies, and what the tip of a chain that
    verifies says about the entries below it. -/

namespace VectorLedger

open HashChain Sample JournalEntry List

/-! ### Verified entries -/

namespace JournalEntry

variable {blake3 : List UInt8 → Hash} {e : JournalEntry} {prev : Hash}

theorem verifyHashes_iff :
    e.verifyHashes blake3 = true ↔ e.contentHash = blake3 e.canonicalBytes ∧ e.chainHash = blake3 e.chainBytes := by
  unfold verifyHashes
  split
  · next hne => exact iff_of_false Bool.false_ne_true fun h => hne h.1.symm
  · next heq =>
    rw [beq_iff_eq]
    exact ⟨fun h => ⟨(not_not.1 heq).symm, h.symm⟩, fun h => h.2.symm⟩

theorem verifyHashes_finalizeChainHash (h : e.contentHash = zeroHash ∨ e.contentHash = blake3 e.canonicalBytes) :
    (e.finalizeChainHash blake3 prev).verifyHashes blake3 = true := by
  rw [verifyHashes_iff]
  by_cases hzero : e.contentHash = zeroHash
  · simp only [finalizeChainHash, if_pos hzero]
    exact ⟨rfl, rfl⟩
  · have hcontent := h.resolve_left hzero
    simp only [finalizeChainHash, if_neg hzero]
    exact ⟨hcontent, rfl⟩

theorem verifyHashes_finalizeHashes : (e.finalizeHashes blake3 prev).verifyHashes blake3 = true :=
  verifyHashes_finalizeChainHash (.inr rfl)

end JournalEntry

/-- Each entry carries the chain hash of the one before. -/
abbrev Linked (g : Hash) (es : List JournalEntry) : Prop :=
  HashChain.Linked JournalEntry.prevHash JournalEntry.chainHash g es

theorem verifyChain_iff {blake3 : List UInt8 → Hash} {g : Hash} {es : List JournalEntry} :
    LedgerStore.verifyChain blake3 g es = .ok () ↔ (∀ e ∈ es, e.verifyHashes blake3 = true) ∧ Linked g es := by
  induction es generalizing g with
  | nil => simp [LedgerStore.verifyChain, HashChain.Linked]
  | cons e es ih =>
    rw [LedgerStore.verifyChain, Linked, linked_cons]
    by_cases hverify : e.verifyHashes blake3 = true
    · by_cases hprev : e.prevHash = g
      · simp [hverify, hprev, ih]
      · simp [hverify, hprev]
    · simp [hverify]

/-! ### Sessions -/

/-- A post that comes to its write carries no content hash, or that of the entry it becomes. -/
def ContentHashed (cfg : Config) (io : Io) (s : LedgerStore) : Op → Prop
  | .postEntry e => (Op.postEntry e).Reaches cfg s → e.contentHash = zeroHash ∨
      e.contentHash = cfg.blake3 { e with sequence := s.nextSequence, postedAt := io.now }.canonicalBytes
  | _ => True

/-- The calls that keep the chain whole. An import is not among them: it leaves its entry out of the index. -/
def ChainCall (cfg : Config) (io : Io) (s : LedgerStore) (op : Op) : Prop :=
  op.Normal ∧ RowTaken io op ∧ ContentHashed cfg io s op

instance (cfg : Config) (io : Io) (s : LedgerStore) (op : Op) : Decidable (ContentHashed cfg io s op) := by
  rcases op with _ | _ <;> unfold ContentHashed <;> infer_instance

instance (cfg : Config) (io : Io) (s : LedgerStore) (op : Op) : Decidable (ChainCall cfg io s op) := by
  unfold ChainCall
  infer_instance

section Sessions
variable {cfg : Config} {io : Io} {s s' : LedgerStore} {op : Op} {e : JournalEntry}

/-- The index holds a chain that verifies, and its tip is the one in memory. -/
structure LedgerStore.Chained (cfg : Config) (s : LedgerStore) : Prop where
  positive : 0 < s.nextSequence
  below : ∀ e ∈ s.entryDb.entries, e.sequence < s.nextSequence
  verified : ∀ e ∈ s.entryDb.entries, e.verifyHashes cfg.blake3 = true
  linked : Linked zeroHash s.entryDb.entries
  tip : s.lastChainHash = HashChain.tip JournalEntry.chainHash zeroHash s.entryDb.entries

theorem EntryOrigin.verified (origin : EntryOrigin cfg io s op e) (allowed : ChainCall cfg io s op) :
    io.sqliteRow = true ∧ e.verifyHashes cfg.blake3 = true := by
  cases origin with
  | posted valid fresh checked =>
    exact ⟨allowed.2.1, verifyHashes_finalizeChainHash (allowed.2.2 ⟨valid, fresh, checked⟩)⟩
  | reversed => exact ⟨allowed.2.1, verifyHashes_finalizeHashes⟩
  | imported => exact allowed.1.elim

theorem LedgerStore.Chained.events (h : s.Chained cfg) (effect : EventEffect cfg io s op s')
    (allowed : ChainCall cfg io s op) : s'.Chained cfg := by
  cases effect with
  | kept log entries tip next =>
    refine ⟨Nat.lt_of_lt_of_le h.positive next, ?_, entries ▸ h.verified, entries ▸ h.linked, ?_⟩
    · intro e he
      rw [entries] at he
      exact Nat.lt_of_lt_of_le (h.below e he) next
    · rw [tip, entries]
      exact h.tip
  | committed e origin normal log entryDb tip =>
    obtain ⟨hseq, hprev⟩ := origin.counters
    obtain ⟨row, hverified⟩ := origin.verified allowed
    have hentries : s'.entryDb.entries = s.entryDb.entries ++ [e] := by
      rw [entryDb]
      exact LedgerStore.entries_indexEntry row (origin.not_refused h.positive h.below) (hseq ▸ h.below)
    refine ⟨by omega, ?_, ?_, ?_, ?_⟩
    · intro x hx
      rw [hentries, mem_append, mem_singleton] at hx
      rcases hx with hx | rfl
      · have := h.below x hx
        omega
      · omega
    · intro x hx
      rw [hentries, mem_append, mem_singleton] at hx
      rcases hx with hx | rfl
      · exact h.verified x hx
      · exact hverified
    · rw [hentries, Linked, linked_concat]
      exact ⟨h.linked, hprev.trans h.tip⟩
    · rw [tip, hentries, tip_concat]
  | imported e hop =>
    subst hop
    exact allowed.1.elim
  | marked entryId status notes hop log entryDb tip next =>
    exact ⟨next ▸ h.positive, next ▸ entryDb ▸ h.below, entryDb ▸ h.verified, entryDb ▸ h.linked,
      by rw [tip, entryDb]; exact h.tip⟩

theorem LedgerStore.Chained.initial (cfg : Config) (key : Option SigningKey) :
    (LedgerStore.initial (.fresh key)).Chained cfg where
  positive := Nat.zero_lt_one
  below _ he := nomatch he
  verified _ he := nomatch he
  linked := trivial
  tip := rfl

theorem tip_eq_of_largest {db : EntryDb} (he : e ∈ db.entries)
    (largest : ∀ x ∈ db.entries, x.sequence ≤ e.sequence) :
    tip chainHash zeroHash db.entries = e.chainHash := by
  obtain ⟨init, last, hlast⟩ : ∃ init last, db.entries = init ++ [last] :=
    ⟨_, _, (dropLast_append_getLast (ne_nil_of_mem he)).symm⟩
  have hmem : last ∈ db.entries := by simp [hlast]
  have hmax : last.sequence = db.maxSequence := by simp [EntryDb.maxSequence, hlast]
  have hle : e.sequence ≤ last.sequence := hmax ▸ EntryDb.sequence_le_maxSequence he
  rw [EntryDb.eq_of_sequence_eq he hmem (Nat.le_antisymm hle (largest last hmem)), hlast, tip_concat]

end Sessions

/-- In every session of such calls the chain verifies, and its tip is the chain hash of the entry with the
    largest sequence, or zero when there is no entry. -/
theorem chain_verifies_in_session (cfg : Config) (key : Option SigningKey) (s : LedgerStore)
    (run : Run.Reachable (Machine.step cfg) (SessionStep (ChainCall cfg)) (.down (.fresh key)) (.up s)) :
    s.verifyChainIntegrity cfg = .ok () ∧
      (∀ e ∈ s.entryDb.entries, (∀ x ∈ s.entryDb.entries, x.sequence ≤ e.sequence) → s.chainTip = e.chainHash) ∧
      (s.entryDb.entries = [] → s.chainTip = zeroHash) := by
  have chained : s.Chained cfg :=
    session_invariant run (.initial cfg key) fun _ _ _ _ h allowed effect => h.events effect.events allowed
  refine ⟨verifyChain_iff.2 ⟨chained.verified, chained.linked⟩, ?_, ?_⟩
  · intro e he largest
    exact chained.tip.trans (tip_eq_of_largest he largest)
  · intro hnone
    exact chained.tip.trans (by rw [hnone, tip_nil])

def Sample.chainedRun : List Event :=
  twoAccounts ++ [.call io (.postEntry (transfer 10 none 5 2 1)),
    .call io (.reverseEntry 10 "undo" "test"), .call io (.postEntry (transfer 11 none 7 2 1))]

theorem chain_verifies_in_session_sample :
    ∃ s, Run.exec (Machine.step hashing) (.down (.fresh none)) chainedRun = some (.up s) ∧
      s.entryDb.entries.length = 3 ∧ s.verifyChainIntegrity hashing = .ok () :=
  Run.exists_of_exec (by decide +kernel) rfl fun run => ⟨by decide +kernel, (chain_verifies_in_session hashing none _ run).1⟩

/-- An entry whose content hash was computed before it was posted was hashed without its sequence, and the
    chain no longer verifies once it is posted. -/
theorem precomputed_hash_breaks_chain : ((Run.exec (Machine.step hashing) (.down (.fresh none)) (twoAccounts ++ [.call io
        (.postEntry ((transfer 10 none 5 2 1).precomputeContentHash hash))])).bind
      Machine.store?).map (·.verifyChainIntegrity hashing) =
      some (.error (.serialization "Hash chain broken at sequence 1")) := by
  decide +kernel

/-! ### What the tip determines -/

def hashedBytes (es : List JournalEntry) : List (List UInt8) :=
  es.flatMap fun e => [e.canonicalBytes, e.chainBytes]

namespace JournalEntry

def bound (e : JournalEntry) : Nat × List UInt8 × Hash × Hash × Hash :=
  (e.sequence, e.canonicalBytes, e.prevHash, e.contentHash, e.chainHash)

theorem mem_hashedBytes {e : JournalEntry} {es : List JournalEntry} (he : e ∈ es) :
    e.canonicalBytes ∈ hashedBytes es ∧ e.chainBytes ∈ hashedBytes es :=
  ⟨mem_flatMap.2 ⟨e, he, by simp⟩, mem_flatMap.2 ⟨e, he, by simp⟩⟩

theorem eq_of_chainBytes_eq {e e' : JournalEntry} (h : e.chainBytes = e'.chainBytes) (hlt : e.sequence < 2 ^ 64)
    (hlt' : e'.sequence < 2 ^ 64) :
    e.sequence = e'.sequence ∧ e.prevHash = e'.prevHash ∧ e.contentHash = e'.contentHash := by
  obtain ⟨hfront, hcontent⟩ := append_inj' h (by simp)
  obtain ⟨hsequence, hprev⟩ := append_inj' hfront (by simp)
  exact ⟨leBytes_inj hlt hlt' hsequence, Vector.toList_inj.1 hprev, Vector.toList_inj.1 hcontent⟩

theorem bound_eq {blake3 : List UInt8 → Hash} {e e' : JournalEntry} (h : e.verifyHashes blake3 = true)
    (h' : e'.verifyHashes blake3 = true)
    (content : blake3 e.canonicalBytes = blake3 e'.canonicalBytes → e.canonicalBytes = e'.canonicalBytes)
    (chain : blake3 e.chainBytes = blake3 e'.chainBytes → e.chainBytes = e'.chainBytes)
    (hlt : e.sequence < 2 ^ 64) (hlt' : e'.sequence < 2 ^ 64) (same : e.chainHash = e'.chainHash) :
    e.bound = e'.bound ∧ e.prevHash = e'.prevHash := by
  obtain ⟨hcontent, hchain⟩ := verifyHashes_iff.1 h
  obtain ⟨hcontent', hchain'⟩ := verifyHashes_iff.1 h'
  have hbytes := chain (by rw [← hchain, ← hchain', same])
  obtain ⟨hsequence, hprev, hhash⟩ := eq_of_chainBytes_eq hbytes hlt hlt'
  have hcanonical := content (by rw [← hcontent, ← hcontent', hhash])
  refine ⟨?_, hprev⟩
  rw [bound, bound, hsequence, hcanonical, hprev, hhash, same]

end JournalEntry

/-- Two lists of entries that both verify and have one tip agree, position by position, in all that the chain
    binds, when the hash does not collide on their bytes and gives no zero hash on them. -/
theorem chain_determined_by_tip (blake3 : List UInt8 → Hash) (es es' : List JournalEntry)
    (ok : LedgerStore.verifyChain blake3 zeroHash es = .ok ())
    (ok' : LedgerStore.verifyChain blake3 zeroHash es' = .ok ())
    (same : tip chainHash zeroHash es = tip chainHash zeroHash es')
    (collisionFree : ∀ x ∈ hashedBytes (es ++ es'), ∀ y ∈ hashedBytes (es ++ es'), blake3 x = blake3 y → x = y)
    (nonzero : ∀ x ∈ hashedBytes (es ++ es'), blake3 x ≠ zeroHash)
    (u64 : ∀ e ∈ es ++ es', e.sequence < 2 ^ 64) :
    es.length = es'.length ∧ ∀ (i : Nat) (e e' : JournalEntry), es[i]? = some e → es'[i]? = some e' →
      e.sequence = e'.sequence ∧ e.canonicalBytes = e'.canonicalBytes ∧ e.prevHash = e'.prevHash ∧
        e.contentHash = e'.contentHash ∧ e.chainHash = e'.chainHash := by
  obtain ⟨verified, linked⟩ := verifyChain_iff.1 ok
  obtain ⟨verified', linked'⟩ := verifyChain_iff.1 ok'
  have hverified : ∀ e ∈ es ++ es', e.verifyHashes blake3 = true := by
    intro e he
    exact (mem_append.1 he).elim (verified e) (verified' e)
  have hdetermined : ∀ e ∈ es ++ es', ∀ e' ∈ es ++ es', e.chainHash = e'.chainHash →
      e.bound = e'.bound ∧ e.prevHash = e'.prevHash := by
    intro e he e' he' heq
    obtain ⟨hcanonical, hchain⟩ := mem_hashedBytes he
    obtain ⟨hcanonical', hchain'⟩ := mem_hashedBytes he'
    exact bound_eq (hverified e he) (hverified e' he') (collisionFree _ hcanonical _ hcanonical')
      (collisionFree _ hchain _ hchain') (u64 e he) (u64 e' he') heq
  have hfresh : ∀ e ∈ es ++ es', e.chainHash ≠ zeroHash := by
    intro e he
    rw [(verifyHashes_iff.1 (hverified e he)).2]
    exact nonzero _ (mem_hashedBytes he).2
  have hmap := linked.map_eq linked' same hdetermined hfresh
  refine ⟨by simpa using congrArg length hmap, ?_⟩
  intro i e e' hi hi'
  have hbound := congrArg (·[i]?) hmap
  simpa [hi, hi', bound] using hbound

/-- Two linked entries, the first of them effective at a time that does not fit in 64 bits. -/
def Sample.chain (effectiveAt : DateTime) : List JournalEntry :=
  let e₁ := { transfer 10 none 5 2 1 with sequence := 1, effectiveAt }.finalizeHashes hash zeroHash
  [e₁, { transfer 11 none 7 2 1 with sequence := 2 }.finalizeHashes hash e₁.chainHash]

/-- The tip binds the canonical bytes and not the entry: two times out of range have the same bytes. -/
theorem chain_determined_by_tip_sample : chain (2 ^ 63) ≠ chain (2 ^ 64) ∧
      ∀ (i : Nat) (e e' : JournalEntry), (chain (2 ^ 63))[i]? = some e →
        (chain (2 ^ 64))[i]? = some e' → e.canonicalBytes = e'.canonicalBytes := by
  refine ⟨by decide +kernel, ?_⟩
  intro i e e' hi hi'
  have agree := (chain_determined_by_tip hash (chain (2 ^ 63)) (chain (2 ^ 64))
    (by decide +kernel) (by decide +kernel) (by decide +kernel) (by decide +kernel) (by decide +kernel)
    (by decide +kernel)).2 i e e' hi hi'
  exact agree.2.1

end VectorLedger
