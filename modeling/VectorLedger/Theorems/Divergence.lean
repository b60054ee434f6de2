import VectorLedger.Replication.Divergence
import VectorLedger.Theorems.AuditPackage
import VectorLedger.Theorems.Torn

/-! What the rolling hash of a log says about its records, and which checkpoints a replica answers. -/

namespace VectorLedger

open Wal AuditPackage HashChain FourEyes List

namespace Replication

variable {blake3 : Bytes → Hash} {targetLsn : UInt64} {chain chain' : Hash} {r r' : Record} {rs : List Record}

/-! ### The hash of a log -/

def recordsUpTo (targetLsn : UInt64) : List (Except Wal.WalError Record) → List Record
  | .ok r :: items => if r.header.sequence > targetLsn then [] else r :: recordsUpTo targetLsn items
  | _ => []

def links (blake3 : Bytes → Hash) : Hash → List Record → List (Hash × Record)
  | _, [] => []
  | chain, r :: rs => (chain, r) :: links blake3 (blake3 (linkBytes chain r)) rs

def linked (x : Hash × Record) : Bytes := linkBytes x.1 x.2

def hashedBytes (c : Crypto) (blake3 : Bytes → Hash) (targetLsn : UInt64) (d : Dir) : List Bytes :=
  (links blake3 zeroHash (recordsUpTo targetLsn (readDir c none d))).map linked

def content (r : Record) : UInt64 × UInt64 × UInt8 × Bytes :=
  (r.header.sequence, r.header.txId, r.header.recordType, r.payload)

theorem linked_links : HashChain.Linked Prod.fst (blake3 ∘ linked) chain (links blake3 chain rs) := by
  induction rs generalizing chain with
  | nil => trivial
  | cons r rs ih => exact ⟨rfl, ih⟩

theorem map_links : (links blake3 chain rs).map (content ∘ Prod.snd) = rs.map content := by
  induction rs generalizing chain with
  | nil => rfl
  | cons r rs ih => rw [links, map_cons, map_cons, ih, Function.comp_apply]

theorem foldRecords_eq (items : List (Except Wal.WalError Record)) : foldRecords blake3 targetLsn chain items =
      tip (blake3 ∘ linked) chain (links blake3 chain (recordsUpTo targetLsn items)) := by
  fun_induction foldRecords blake3 targetLsn chain items with
  | case1 chain r items hbehind => rw [recordsUpTo, if_pos hbehind, links, tip_nil]
  | case2 chain r items hupTo ih =>
    rw [ih, recordsUpTo, if_neg hupTo, links, tip_cons]
    rfl
  | case3 chain items hstop =>
    rw [recordsUpTo.eq_2 _ _ hstop]
    rfl

theorem linkBytes_inj (h : linkBytes chain r = linkBytes chain' r') : content r = content r' ∧ chain = chain' := by
  obtain ⟨hchain, h⟩ := append_inj h (by simp)
  obtain ⟨hsequence, h⟩ := append_inj h (by simp)
  obtain ⟨htx, h⟩ := append_inj h (by simp)
  obtain ⟨htype, hpayload⟩ := cons.inj h
  have hsequence := UInt64.toNat_inj.1 (leBytes_inj r.header.sequence.toNat_lt r'.header.sequence.toNat_lt hsequence)
  have htx := UInt64.toNat_inj.1 (leBytes_inj r.header.txId.toNat_lt r'.header.txId.toNat_lt htx)
  exact ⟨by rw [content, content, hsequence, htx, htype, hpayload], Vector.toList_inj.1 hchain⟩

/-- Logs with one hash have as many records up to the target, and the same in each of them but for the times. -/
theorem same_records_of_same_hash (c : Crypto) (blake3 : Bytes → Hash) (d d' : Dir) (targetLsn : UInt64)
    (free : CollisionFree blake3 (hashedBytes c blake3 targetLsn d ++ hashedBytes c blake3 targetLsn d'))
    (nonzero : ∀ s ∈ hashedBytes c blake3 targetLsn d ++ hashedBytes c blake3 targetLsn d', blake3 s ≠ zeroHash)
    (same : computeWalChainHash c blake3 (.ok d) targetLsn = computeWalChainHash c blake3 (.ok d') targetLsn) :
    (recordsUpTo targetLsn (readDir c none d)).map content = (recordsUpTo targetLsn (readDir c none d')).map content := by
  have htips := Except.ok.inj same
  rw [foldRecords_eq, foldRecords_eq] at htips
  rw [hashedBytes, hashedBytes, ← map_append] at free nonzero
  refine map_links.symm.trans ((linked_links.map_eq linked_links htips (fun x hx x' hx' heq => ?_) fun x hx => ?_).trans
    map_links)
  · exact linkBytes_inj (free _ (mem_map_of_mem hx) _ (mem_map_of_mem hx') heq)
  · exact nonzero _ (mem_map_of_mem hx)

namespace Sample

def pair (now : Int64) : Dir :=
  let w := ((WalWriter.openWithOptions Wal.Sample.crypto [] 1000 none).append Wal.Sample.crypto
    { Wal.Sample.append 1 .begin with now }).2
  (w.append Wal.Sample.crypto { Wal.Sample.append 1 .data with payload := [1, 2, 3], now }).2.dir

end Sample

theorem same_records_pair : let d := Sample.pair 1; let d' := Sample.pair 2
    d ≠ d' ∧ (recordsUpTo 2 (readDir Wal.Sample.crypto none d)).length = 2 ∧
      (recordsUpTo 2 (readDir Wal.Sample.crypto none d)).map content =
        (recordsUpTo 2 (readDir Wal.Sample.crypto none d')).map content :=
  ⟨by decide +kernel, by decide +kernel, same_records_of_same_hash Wal.Sample.crypto Sample.hash (Sample.pair 1)
    (Sample.pair 2) 2 (by decide +kernel) (by decide +kernel) (by decide +kernel)⟩

/-! ### Checkpoints -/

theorem utf8Size_of_hexValue {ch : Char} {index v : Nat} (h : hexValue ch index = .ok v) : ch.utf8Size = 1 := by
  have hascii : ch.val.toNat ≤ 127 := by
    unfold hexValue at h
    split at h
    · next hdigit => exact le_trans (Char.le_def.1 hdigit.2) (by decide)
    split at h
    · next _ hlower => exact le_trans (Char.le_def.1 hlower.2) (by decide)
    split at h
    · next _ _ hupper => exact le_trans (Char.le_def.1 hupper.2) (by decide)
    · cases h
  exact if_pos hascii

theorem exists_sliceTo_of_hexPairs {index : Nat} {cs : List Char} {bs : List UInt8} (h : hexPairs index cs = .ok bs)
    (n : Nat) (hn : n ≤ bs.length) : ∃ p, sliceTo (2 * n) cs = some p := by
  induction n generalizing index cs bs with
  | zero => exact ⟨[], by rw [sliceTo]⟩
  | succ n ih =>
    match cs with
    | [] =>
      cases h
      cases hn
    | [_] => cases h
    | high :: low :: cs =>
      obtain ⟨hv, hhigh, h⟩ := Except.bind_eq_ok.1 h
      obtain ⟨lv, hlow, h⟩ := Except.bind_eq_ok.1 h
      obtain ⟨rest, hrest, h⟩ := Except.bind_eq_ok.1 h
      cases h
      obtain ⟨p, hp⟩ := ih hrest (Nat.le_of_succ_le_succ hn)
      refine ⟨high :: low :: p, ?_⟩
      rw [Nat.mul_succ, sliceTo, utf8Size_of_hexValue hhigh, if_pos (by omega), Nat.add_sub_cancel, sliceTo,
        utf8Size_of_hexValue hlow, if_pos (by omega), Nat.add_sub_cancel, hp]
      rfl

theorem isSome_sliceTo {hex : String} {h : Hash} (hdecoded : decodeHash hex = some h) : (sliceTo 16 hex.toList).isSome := by
  obtain ⟨bytes, hbytes, -⟩ := Option.map_eq_some_iff.1 hdecoded
  unfold decodeBytes hexDecode at hbytes
  split at hbytes
  · next bs hbs =>
    split at hbytes
    · next hlength =>
      split at hbs
      · cases hbs
      · obtain ⟨p, hp⟩ := exists_sliceTo_of_hexPairs hbs 8 (by omega)
        exact Option.isSome_of_mem hp
    · cases hbytes
  · cases hbytes

theorem isSome_mismatch (what : String) (n : UInt64) (hex : String) (own : Hash) :
    (mismatch what n hex own).isSome = (sliceTo 16 hex.toList).isSome := by
  obtain ⟨p, hp⟩ := Option.isSome_iff_exists.1 (isSome_sliceTo (decodeHash_hashToHex own))
  rw [mismatch, hp]
  cases sliceTo 16 hex.toList <;> rfl

section Checkpoints
variable (c : Crypto) (blake3 : Bytes → Hash) (wal : Except String Dir) (checkpoint : DivergenceCheckpoint) (localTip : Hash)

/-- There is an answer, and one without divergence only where both hashes are those of the replica. -/
def Answered : Prop :=
  ∃ report, verifyCheckpoint c blake3 wal checkpoint localTip = some report ∧ (report.diverged = false →
    ∃ localHash, computeWalChainHash c blake3 wal checkpoint.lsn = .ok localHash ∧
      decodeHash checkpoint.chainHashHex = some localHash ∧ decodeHash checkpoint.ledgerChainTipHex = some localTip)

variable {c blake3 wal checkpoint} {localHash primaryHash : Hash}

theorem verifyCheckpoint_diverged (hwal : computeWalChainHash c blake3 wal checkpoint.lsn = .ok localHash)
    (hprimary : decodeHash checkpoint.chainHashHex = some primaryHash) :
    (verifyCheckpoint c blake3 wal checkpoint localTip).map DivergenceReport.diverged =
      if localTip = (decodeHash checkpoint.ledgerChainTipHex).getD zeroHash then some (decide (localHash ≠ primaryHash))
      else if (sliceTo 16 checkpoint.ledgerChainTipHex.toList).isSome then some true else none := by
  obtain ⟨walText, hwalText⟩ := Option.isSome_iff_exists.1 <|
    (isSome_mismatch "WAL chain hash mismatch at LSN " checkpoint.lsn checkpoint.chainHashHex localHash).trans
      (isSome_sliceTo hprimary)
  have htip := isSome_mismatch "Ledger chain tip mismatch at sequence " checkpoint.ledgerSequence
    checkpoint.ledgerChainTipHex localTip
  unfold verifyCheckpoint
  simp only [hwal, hprimary, hwalText, ← htip]
  by_cases hledger : localTip = (decodeHash checkpoint.ledgerChainTipHex).getD zeroHash
  · by_cases hequal : localHash = primaryHash <;> simp [hledger, hequal]
  · cases mismatch "Ledger chain tip mismatch at sequence " checkpoint.ledgerSequence checkpoint.ledgerChainTipHex
      localTip <;> by_cases hequal : localHash = primaryHash <;> simp [hledger, hequal]

/-- A checkpoint is answered unless its tip is no hash and is taken for zero: then it must differ from the tip of the
    replica, with a text that can be cut, or the logs must differ. -/
theorem answered_iff : Answered c blake3 wal checkpoint localTip ↔
    ∀ localHash primaryHash, computeWalChainHash c blake3 wal checkpoint.lsn = .ok localHash →
      decodeHash checkpoint.chainHashHex = some primaryHash → decodeHash checkpoint.ledgerChainTipHex = none →
      if localTip = zeroHash then localHash ≠ primaryHash
      else (sliceTo 16 checkpoint.ledgerChainTipHex.toList).isSome := by
  cases hwal : computeWalChainHash c blake3 wal checkpoint.lsn with
  | error =>
    unfold Answered verifyCheckpoint
    simp [hwal]
  | ok localHash =>
  cases hprimary : decodeHash checkpoint.chainHashHex with
  | none =>
    unfold Answered verifyCheckpoint
    simp [hwal, hprimary]
  | some =>
  have hreport := verifyCheckpoint_diverged localTip hwal hprimary
  unfold Answered
  rw [hwal, hprimary]
  cases htip : decodeHash checkpoint.ledgerChainTipHex with
  | some tip =>
    rw [htip, isSome_sliceTo htip, if_pos rfl, ← apply_ite some, Option.map_eq_some_iff] at hreport
    obtain ⟨report, hreport, hdiverged⟩ := hreport
    refine iff_of_true ⟨report, hreport, fun hsame => ⟨localHash, rfl, ?_⟩⟩ (by simp)
    rw [hsame] at hdiverged
    by_cases hequal : localTip = tip <;> simp_all
  | none =>
    rw [htip, Option.getD_none] at hreport
    simp only [reduceCtorEq, and_false, exists_false, imp_false, Bool.not_eq_false]
    rw [← Option.map_eq_some_iff (f := DivergenceReport.diverged), hreport]
    by_cases hzero : localTip = zeroHash <;> simp [hzero, Option.isSome_iff_ne_none]

end Checkpoints

def Sample.tipless : DivergenceCheckpoint := ⟨0, hashToHex zeroHash, 0, ""⟩

theorem tipless_unanswered :
    verifyCheckpoint Wal.Sample.crypto (fun _ => zeroHash) (.ok []) Sample.tipless (.replicate 32 1) = none ∧
    decodeHash Sample.tipless.ledgerChainTipHex = none ∧
    ∃ report, verifyCheckpoint Wal.Sample.crypto (fun _ => zeroHash) (.ok []) Sample.tipless zeroHash = some report ∧
      report.diverged = false := by
  have hprimary : decodeHash Sample.tipless.chainHashHex = some zeroHash := decodeHash_hashToHex _
  have hwal : computeWalChainHash Wal.Sample.crypto (fun _ => zeroHash) (.ok []) 0 = .ok zeroHash := rfl
  exact ⟨Option.map_eq_none_iff.1 (verifyCheckpoint_diverged (.replicate 32 1) hwal hprimary), by decide,
    Option.map_eq_some_iff.1 (verifyCheckpoint_diverged zeroHash hwal hprimary)⟩

end Replication

end VectorLedger
