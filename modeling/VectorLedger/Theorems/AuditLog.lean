import VectorLedger.AuditLog
import VectorLedger.Lib.HashChain
import VectorLedger.Machine
import VectorLedger.Theorems.Texts

/-! Verification of the audit log. Two files that are accepted and end with one chain hash agree in all that the hashes
    bind. -/

namespace VectorLedger

open Sample List

/-! ### Bytes of texts -/

theorem toList_loop (b : ByteArray) (i : Nat) (r : List UInt8) :
    ByteArray.toList.loop b i r = r.reverse ++ b.data.toList.drop i := by
  fun_induction ByteArray.toList.loop b i r with
  | case1 i r hi ih =>
    have hlt : i < b.data.toList.length := by
      exact hi
    have hget : b.get! i = b.data.toList[i] := getElem!_pos b.data i hi
    rw [ih, drop_eq_getElem_cons hlt, reverse_cons, append_assoc, hget]
    rfl
  | case2 i r hi =>
    have hle : b.data.toList.length ≤ i := by
      exact Nat.le_of_not_lt hi
    rw [drop_of_length_le hle, append_nil]

namespace JournalEntry

theorem utf8_eq (s : String) : utf8 s = s.toByteArray.data.toList := by
  rw [utf8, ByteArray.toList, toList_loop]
  rfl

theorem utf8_inj {s t : String} (h : utf8 s = utf8 t) : s = t := by
  rw [utf8_eq, utf8_eq] at h
  exact String.toByteArray_inj.1 (ByteArray.ext (Array.ext' h))

theorem fromUTF8_utf8 (s : String) : String.fromUTF8? ⟨(utf8 s).toArray⟩ = some s := by
  rw [utf8_eq]
  exact dif_pos s.isValidUTF8

end JournalEntry

open JournalEntry (utf8)

theorem readLine_utf8 (s : String) : readLine (utf8 s) = .ok s := by
  rw [readLine, JournalEntry.fromUTF8_utf8]

theorem utf8Size_hexDigit : ∀ n < 16, (hexDigit n).utf8Size = 1 := by decide +kernel

theorem length_utf8_hexEncode (bs : List UInt8) : (utf8 (hexEncode bs)).length = 2 * bs.length := by
  rw [JournalEntry.utf8_eq, hexEncode, String.toByteArray_ofList, utf8Encode, toList_data_toByteArray]
  induction bs with
  | nil => rfl
  | cons b bs ih =>
    have hb := b.toNat_lt
    simp only [flatMap_cons, flatMap_append, flatMap_nil, append_nil, length_append,
      String.length_utf8EncodeChar, length_cons] at ih ⊢
    rw [utf8Size_hexDigit _ (by omega), utf8Size_hexDigit _ (by omega)]
    omega

/-- Of these events serde_json writes texts of one line, and reads them back. -/
structure AuditEnv.Reads (env : AuditEnv) (es : List AuditEvent) : Prop where
  back : ∀ e ∈ es, env.fromJson (env.toJson e) = .ok e
  plain : ∀ e ∈ es, Lines.Plain (AuditLog.line env e)
  notBlank : ∀ e ∈ es, isBlank (env.toJson e) = false

theorem AuditEnv.Reads.mono {env : AuditEnv} {es es' : List AuditEvent} (h : env.Reads es) (hsub : ∀ e ∈ es', e ∈ es) :
    env.Reads es' :=
  ⟨fun e he => h.back e (hsub e he), fun e he => h.plain e (hsub e he), fun e he => h.notBlank e (hsub e he)⟩

theorem AuditEnv.Reads.append {env : AuditEnv} {es es' : List AuditEvent} (h : env.Reads es) (h' : env.Reads es') :
    env.Reads (es ++ es') :=
  ⟨forall_mem_append.2 ⟨h.back, h'.back⟩, forall_mem_append.2 ⟨h.plain, h'.plain⟩,
    forall_mem_append.2 ⟨h.notBlank, h'.notBlank⟩⟩

/-! ### Reading -/

namespace AuditLog

variable {env : AuditEnv} {prevHash : String} {count n : Nat} {es es' : List AuditEvent} {e e' : AuditEvent}

def readEvents (env : AuditEnv) : List (List UInt8) → Except AuditError (List AuditEvent)
  | [] => .ok []
  | line :: lines => do
    let text ← readLine line
    if isBlank text then readEvents env lines
    else do
      let event ← (env.fromJson text).mapError .serialisation
      let events ← readEvents env lines
      pure (event :: events)

def events (env : AuditEnv) (file : List UInt8) : Except AuditError (List AuditEvent) := readEvents env (Lines.split file)

/-- Each event has the hashes of its content, and the chain hash of the one before it. -/
def Chained (env : AuditEnv) (prevHash : String) (es : List AuditEvent) : Prop :=
  (∀ e ∈ es, e.verify env = true) ∧ HashChain.Linked AuditEvent.prevHash AuditEvent.chainHash prevHash es

theorem chained_cons : Chained env prevHash (e :: es) ↔
    e.verify env = true ∧ e.prevHash = prevHash ∧ Chained env e.chainHash es := by
  rw [Chained, Chained, forall_mem_cons, HashChain.linked_cons]
  tauto

theorem chained_concat : Chained env prevHash (es ++ [e]) ↔
    Chained env prevHash es ∧ e.verify env = true ∧ e.prevHash = HashChain.tip AuditEvent.chainHash prevHash es := by
  rw [Chained, Chained, HashChain.linked_concat, forall_mem_append, forall_mem_singleton]
  tauto

theorem readEvents_cons {line : List UInt8} {text : String} (hread : readLine line = .ok text)
    (hblank : isBlank text = false) (hjson : env.fromJson text = .ok e) (lines : List (List UInt8)) :
    readEvents env (line :: lines) = .ok es ↔ ∃ rest, readEvents env lines = .ok rest ∧ es = e :: rest := by
  simp only [readEvents, hread, hblank, hjson, bind, Except.bind, Except.mapError, Bool.false_eq_true]
  cases readEvents env lines with
  | error => simp
  | ok => simp [pure, Except.pure, eq_comm]

theorem verifyLines_iff {lines : List (List UInt8)} : verifyLines env prevHash count lines = .ok n ↔
    ∃ es, readEvents env lines = .ok es ∧ Chained env prevHash es ∧ n = count + es.length := by
  induction lines generalizing prevHash count with
  | nil =>
    simp only [verifyLines, readEvents, Except.ok.injEq]
    constructor
    · rintro rfl
      exact ⟨[], rfl, ⟨nofun, trivial⟩, rfl⟩
    · rintro ⟨es, rfl, -, rfl⟩
      rfl
  | cons line lines ih =>
    cases hread : readLine line with
    | error => simp [verifyLines, readEvents, hread, bind, Except.bind]
    | ok text =>
      by_cases hblank : isBlank text = true
      · simp only [verifyLines, readEvents, hread, bind, Except.bind, hblank]
        exact ih
      cases hjson : env.fromJson text with
      | error => simp [verifyLines, readEvents, hread, hblank, hjson, bind, Except.bind, Except.mapError]
      | ok event =>
        -- Its hashes, its link and the lines behind it are checked in turn.
        have hevents : (∃ es, readEvents env (line :: lines) = .ok es ∧ Chained env prevHash es ∧ n = count + es.length) ↔
            event.verify env = true ∧ event.prevHash = prevHash ∧
              ∃ rest, readEvents env lines = .ok rest ∧ Chained env event.chainHash rest ∧ n = count + 1 + rest.length := by
          simp only [readEvents_cons hread (Bool.eq_false_iff.2 hblank) hjson]
          constructor
          · rintro ⟨_, ⟨rest, hrest, rfl⟩, hchained, rfl⟩
            obtain ⟨hverify, hprev, hchained⟩ := chained_cons.1 hchained
            exact ⟨hverify, hprev, rest, hrest, hchained, by rw [length_cons]; omega⟩
          · rintro ⟨hverify, hprev, rest, hrest, hchained, rfl⟩
            exact ⟨_, ⟨rest, hrest, rfl⟩, chained_cons.2 ⟨hverify, hprev, hchained⟩, by rw [length_cons]; omega⟩
        simp only [hevents, verifyLines, hread, hblank, hjson, bind, Except.bind, Except.mapError, Bool.false_eq_true]
        cases hverify : event.verify env with
        | false => simp
        | true =>
          by_cases hprev : event.prevHash = prevHash
          · simp only [hprev, ne_eq, true_and]
            exact ih
          · simp [hprev]

theorem verifyChain_iff {file : List UInt8} : verifyChain env file = .ok n ↔
    ∃ es, events env file = .ok es ∧ Chained env AuditEvent.zeroHash es ∧ n = es.length := by
  rw [verifyChain, verifyLines_iff]
  simp only [Nat.zero_add, events]

/-! ### Files that were written -/

def fileOf (env : AuditEnv) (es : List AuditEvent) : List UInt8 := Lines.join (es.map (line env))

theorem plain_lines (h : env.Reads es) : ∀ l ∈ es.map (line env), Lines.Plain l := by
  intro l hl
  obtain ⟨e, he, rfl⟩ := mem_map.1 hl
  exact h.plain e he

theorem readEvents_append (h : env.Reads es) (lines : List (List UInt8)) :
    readEvents env (es.map (line env) ++ lines) = (readEvents env lines).map (es ++ ·) := by
  induction es with
  | nil =>
    cases hlines : readEvents env lines <;> simp [hlines, Except.map]
  | cons e es ih =>
    have hrest := ih (h.mono fun e he => mem_cons_of_mem _ he)
    have hread : readLine (line env e) = .ok (env.toJson e) := readLine_utf8 _
    have hmem : e ∈ e :: es := mem_cons_self
    rw [map_cons, cons_append, readEvents]
    simp only [hread, h.notBlank e hmem, h.back e hmem, bind, Except.bind, Bool.false_eq_true, hrest]
    cases readEvents env lines <;> rfl

theorem events_fileOf_append (h : env.Reads es) (rest : List UInt8) :
    events env (fileOf env es ++ rest) = (readEvents env (Lines.split rest)).map (es ++ ·) := by
  rw [events, fileOf, Lines.split_join_append (plain_lines h), readEvents_append h]

theorem events_fileOf (h : env.Reads es) : events env (fileOf env es) = .ok es := by
  have happend := events_fileOf_append h []
  rwa [append_nil, Lines.split_nil, readEvents, Except.map, append_nil] at happend

theorem line_ne_nil (h : isBlank (env.toJson e) = false) : line env e ≠ [] := by
  intro hnil
  have hempty : env.toJson e = "" := JournalEntry.utf8_inj (hnil.trans (by decide +kernel))
  rw [hempty] at h
  cases h

theorem events_fileOf_unended (h : env.Reads (es ++ [e])) : events env (fileOf env es ++ line env e) = .ok (es ++ [e]) := by
  have hinit : env.Reads es := h.mono fun _ he => mem_append_left _ he
  have hlast : env.Reads [e] := h.mono fun _ he => mem_append_right _ he
  have hmem := mem_singleton_self e
  have hread := readEvents_append hlast []
  rw [events_fileOf_append hinit, Lines.split_plain (hlast.plain e hmem) (line_ne_nil (hlast.notBlank e hmem))]
  exact congrArg (Except.map (es ++ ·)) hread

theorem verifyChain_fileOf (h : env.Reads es) (hchained : Chained env AuditEvent.zeroHash es) :
    verifyChain env (fileOf env es) = .ok es.length :=
  verifyChain_iff.2 ⟨es, events_fileOf h, hchained, rfl⟩

/-! ### What the last chain hash determines -/

def hashedBytes (env : AuditEnv) (es : List AuditEvent) : List (List UInt8) :=
  es.flatMap fun e => [e.canonicalBytes env, AuditEvent.chainBytes e.sequence e.prevHash (e.contentHex env)]

theorem mem_hashedBytes (env : AuditEnv) (he : e ∈ es) : e.canonicalBytes env ∈ hashedBytes env es ∧
    AuditEvent.chainBytes e.sequence e.prevHash (e.contentHex env) ∈ hashedBytes env es := by
  constructor <;> exact mem_flatMap.2 ⟨e, he, by simp⟩

def bound (e : AuditEvent) : UInt64 × AuditEventKind × String × String × String :=
  (e.sequence, e.event, e.contentHash, e.prevHash, e.chainHash)

end AuditLog

namespace AuditEvent

variable {env : AuditEnv} {e e' : AuditEvent}

theorem verify_iff : e.verify env = true ↔
    e.contentHash = e.contentHex env ∧ e.chainHash = chainHex env e.sequence e.prevHash (e.contentHex env) := by
  rw [verify, Bool.and_eq_true, beq_iff_eq, beq_iff_eq]
  exact and_congr eq_comm eq_comm

theorem length_utf8_contentHex (env : AuditEnv) (e : AuditEvent) : (utf8 (e.contentHex env)).length = 64 := by
  rw [contentHex, length_utf8_hexEncode]
  simp

theorem sequence_eq {s s' : UInt64} (h : leBytes 8 s.toNat = leBytes 8 s'.toNat) : s = s' :=
  UInt64.toNat_inj.1 (leBytes_inj s.toNat_lt s'.toNat_lt h)

theorem eq_of_chainBytes_eq {s s' : UInt64} {prev prev' content content' : String}
    (h : chainBytes s prev content = chainBytes s' prev' content')
    (hlength : (utf8 content).length = (utf8 content').length) : s = s' ∧ prev = prev' ∧ content = content' := by
  obtain ⟨hfront, hcontent⟩ := append_inj' h hlength
  obtain ⟨hsequence, hprev⟩ := append_inj hfront (by simp)
  exact ⟨sequence_eq hsequence, JournalEntry.utf8_inj hprev, JournalEntry.utf8_inj hcontent⟩

theorem eq_of_canonicalBytes_eq (h : e.canonicalBytes env = e'.canonicalBytes env) :
    e.sequence = e'.sequence ∧ env.kindJson e.event = env.kindJson e'.event := by
  obtain ⟨hfront, hkind⟩ := append_inj h (by simp [JournalEntry.leBytesI64])
  exact ⟨sequence_eq (append_inj hfront (by simp)).1, JournalEntry.utf8_inj hkind⟩

theorem bound_eq (h : e.verify env = true) (h' : e'.verify env = true)
    (content : env.blake3 (e.canonicalBytes env) = env.blake3 (e'.canonicalBytes env) →
      e.canonicalBytes env = e'.canonicalBytes env)
    (chain : env.blake3 (chainBytes e.sequence e.prevHash (e.contentHex env)) =
        env.blake3 (chainBytes e'.sequence e'.prevHash (e'.contentHex env)) →
      chainBytes e.sequence e.prevHash (e.contentHex env) = chainBytes e'.sequence e'.prevHash (e'.contentHex env))
    (kind : env.kindJson e.event = env.kindJson e'.event → e.event = e'.event) (same : e.chainHash = e'.chainHash) :
    AuditLog.bound e = AuditLog.bound e' ∧ e.prevHash = e'.prevHash := by
  obtain ⟨hcontent, hchain⟩ := verify_iff.1 h
  obtain ⟨hcontent', hchain'⟩ := verify_iff.1 h'
  have hhash := chain (Vector.toList_inj.1 (hexEncode_inj (by rwa [hchain, hchain'] at same)))
  obtain ⟨hsequence, hprev, hhex⟩ :=
    eq_of_chainBytes_eq hhash (by rw [length_utf8_contentHex, length_utf8_contentHex])
  have hcanonical := content (Vector.toList_inj.1 (hexEncode_inj hhex))
  have hkind := kind (eq_of_canonicalBytes_eq hcanonical).2
  refine ⟨?_, hprev⟩
  rw [AuditLog.bound, AuditLog.bound, hsequence, hkind, hcontent, hcontent', hhex, hprev, same]

theorem zeroHash_eq : zeroHash = hexEncode VectorLedger.zeroHash.toList := by decide +kernel

theorem chainHash_ne_zeroHash (h : e.verify env = true)
    (nonzero : env.blake3 (chainBytes e.sequence e.prevHash (e.contentHex env)) ≠ VectorLedger.zeroHash) :
    e.chainHash ≠ zeroHash := by
  intro hzero
  rw [(verify_iff.1 h).2, zeroHash_eq] at hzero
  exact nonzero (Vector.toList_inj.1 (hexEncode_inj hzero))

end AuditEvent

namespace AuditLog

/-- Two files that verification accepts and whose last events have one chain hash have the same number of events, and agree
    event by event in number, payload and hashes, when the hash does not collide on the bytes of these events and gives no
    zero hash on them, and serde_json does not give two of the payloads one text. -/
theorem audit_logs_agree (env : AuditEnv) (file file' : List UInt8) {n n' : Nat} {es es' : List AuditEvent}
    (ok : verifyChain env file = .ok n) (ok' : verifyChain env file' = .ok n') (read : events env file = .ok es)
    (read' : events env file' = .ok es') {last : String} (ends : es.getLast?.map (·.chainHash) = some last)
    (ends' : es'.getLast?.map (·.chainHash) = some last)
    (collisionFree : ∀ x ∈ hashedBytes env (es ++ es'), ∀ y ∈ hashedBytes env (es ++ es'),
      env.blake3 x = env.blake3 y → x = y)
    (nonzero : ∀ x ∈ hashedBytes env (es ++ es'), env.blake3 x ≠ zeroHash)
    (kinds : ∀ e ∈ es ++ es', ∀ e' ∈ es ++ es', env.kindJson e.event = env.kindJson e'.event → e.event = e'.event) :
    n = n' ∧ es.length = n ∧ es'.length = n' ∧ ∀ (i : Nat) (e e' : AuditEvent), es[i]? = some e → es'[i]? = some e' →
        e.sequence = e'.sequence ∧ e.event = e'.event ∧ e.contentHash = e'.contentHash ∧ e.prevHash = e'.prevHash ∧
          e.chainHash = e'.chainHash := by
  obtain ⟨es₀, hes₀, ⟨verified, linked⟩, rfl⟩ := verifyChain_iff.1 ok
  obtain rfl := Except.ok.inj (read.symm.trans hes₀)
  obtain ⟨es₀, hes₀, ⟨verified', linked'⟩, rfl⟩ := verifyChain_iff.1 ok'
  obtain rfl := Except.ok.inj (read'.symm.trans hes₀)
  have hverified : ∀ e ∈ es ++ es', e.verify env = true := by
    intro e he
    exact (mem_append.1 he).elim (verified e) (verified' e)
  have hdetermined : ∀ e ∈ es ++ es', ∀ e' ∈ es ++ es', e.chainHash = e'.chainHash →
      bound e = bound e' ∧ e.prevHash = e'.prevHash := by
    intro e he e' he'
    obtain ⟨hcanonical, hchain⟩ := mem_hashedBytes env he
    obtain ⟨hcanonical', hchain'⟩ := mem_hashedBytes env he'
    exact AuditEvent.bound_eq (hverified e he) (hverified e' he') (collisionFree _ hcanonical _ hcanonical')
      (collisionFree _ hchain _ hchain') (kinds e he e' he')
  have hfresh : ∀ e ∈ es ++ es', e.chainHash ≠ AuditEvent.zeroHash := fun e he =>
    AuditEvent.chainHash_ne_zeroHash (hverified e he) (nonzero _ (mem_hashedBytes env he).2)
  have hmap := linked.map_eq linked' (by rw [HashChain.tip, HashChain.tip, ends, ends']) hdetermined hfresh
  refine ⟨by simpa using congrArg length hmap, rfl, rfl, ?_⟩
  intro i e e' hi hi'
  have hbound := congrArg (·[i]?) hmap
  simpa [hi, hi', bound] using hbound

end AuditLog

theorem AuditEvent.verify_finalise (env : AuditEnv) (e : AuditEvent) (prev : String) :
    (e.finalise env prev).verify env = true := verify_iff.2 ⟨rfl, rfl⟩

namespace Sample

/-- The text of an event, by which the events of a concrete run can be told apart. -/
def auditJson (e : AuditEvent) : String := "\x7b" ++ toString e.sequence.toNat ++ " " ++ toString e.ts ++ "\x7d"

def shortHash (bytes : List UInt8) : Hash := Vector.ofFn fun i => (UInt8.ofNat bytes.length :: bytes).getD i 1

def auditEnv (blake3 : List UInt8 → Hash) (known : List AuditEvent) : AuditEnv where
  blake3 := blake3
  kindJson
    | .serverStarted bindAddr version => bindAddr ++ " " ++ version
    | _ => ""
  toJson := auditJson
  fromJson text :=
    match known.find? fun e => auditJson e == text with
    | some e => .ok e
    | none => .error "expected an event"

def started (blake3 : List UInt8 → Hash) (sequence : UInt64) (ts : DateTime) (prev : String) : AuditEvent :=
  (AuditLog.newEvent sequence ts (.serverStarted "::1" "1")).finalise (auditEnv blake3 []) prev

/-- Two linked events of one time. -/
def farLog (ts : DateTime) : List AuditEvent :=
  let first := started shortHash 1 ts AuditEvent.zeroHash
  [first, started shortHash 2 ts first.chainHash]

def farEnv : AuditEnv := auditEnv shortHash (farLog (2 ^ 63) ++ farLog (2 ^ 64))

end Sample

namespace AuditLog

/-- The chain does not bind the time: two logs with one chain hash have events of different times. -/
theorem audit_logs_agree_far : farLog (2 ^ 63) ≠ farLog (2 ^ 64) ∧ ∀ (i : Nat) (e e' : AuditEvent),
      (farLog (2 ^ 63))[i]? = some e → (farLog (2 ^ 64))[i]? = some e' → e.event = e'.event ∧ e.prevHash = e'.prevHash := by
  have hreads : ∀ ts, ts = 2 ^ 63 ∨ ts = 2 ^ 64 → farEnv.Reads (farLog ts) := by
    rintro ts (rfl | rfl) <;> exact ⟨by decide +kernel, by decide +kernel, by decide +kernel⟩
  have hchained : ∀ ts, Chained farEnv AuditEvent.zeroHash (farLog ts) := fun ts =>
    chained_cons.2 ⟨AuditEvent.verify_finalise farEnv _ _, rfl,
      chained_cons.2 ⟨AuditEvent.verify_finalise farEnv _ _, rfl, by simp [Chained, HashChain.Linked]⟩⟩
  have hevent : ∀ e ∈ farLog (2 ^ 63) ++ farLog (2 ^ 64), e.event = .serverStarted "::1" "1" := by
    decide +kernel
  have hread₁ := hreads (2 ^ 63) (.inl rfl)
  have hread₂ := hreads (2 ^ 64) (.inr rfl)
  obtain ⟨-, -, -, hagree⟩ := audit_logs_agree farEnv _ _ (verifyChain_fileOf hread₁ (hchained _))
    (verifyChain_fileOf hread₂ (hchained _)) (events_fileOf hread₁) (events_fileOf hread₂) rfl (by decide +kernel)
    (by decide +kernel) (by decide +kernel) (fun e he e' he' _ => (hevent e he).trans (hevent e' he').symm)
  refine ⟨by decide, fun i e e' he he' => ?_⟩
  obtain ⟨-, hkind, -, hprev, -⟩ := hagree i e e' he he'
  exact ⟨hkind, hprev⟩

end AuditLog

end VectorLedger
