import VectorLedger.Theorems.AuditAppends

/-! Audit logs that a crash has cut. The part of a line that is left stays in the file, and the next event is written
    behind it. -/

namespace VectorLedger

open List

namespace AuditLog

variable {env : AuditEnv} {es new : List AuditEvent} {e : AuditEvent} {log : AuditLog}

def appendAll (env : AuditEnv) : AuditLog → List (DateTime × AuditEventKind) → AuditLog × List AuditEvent
  | log, [] => (log, [])
  | log, (ts, kind) :: rest =>
    let (log, e) := log.append env ts kind
    let (log, es) := appendAll env log rest
    (log, e :: es)

def reopen (env : AuditEnv) (file : List UInt8) (after : List (DateTime × AuditEventKind)) :
    Except AuditError (AuditLog × List AuditEvent) := do
  let log ← openLog env file
  pure (appendAll env log after)

def unread (env : AuditEnv) (l : List UInt8) : Bool :=
  match readLine l with
  | .error _ => true
  | .ok text =>
    !isBlank text &&
      match env.fromJson text with
      | .error _ => true
      | .ok _ => false

/-- What is left of the text of an event when it is cut is not read by serde_json, alone or before another text. -/
structure Torn (env : AuditEnv) (e : AuditEvent) (new : List AuditEvent) : Prop where
  part : ∀ k < (line env e).length, 0 < k → unread env ((line env e).take k) = true
  joined : ∀ e' ∈ new, ∀ k ≤ (line env e).length, 0 < k → unread env ((line env e).take k ++ line env e') = true

def cutFile (env : AuditEnv) (es : List AuditEvent) (e : AuditEvent) (k : Nat) : List UInt8 :=
  fileOf env es ++ (line env e).take k

theorem appendAll_spec (env : AuditEnv) (log : AuditLog) (after : List (DateTime × AuditEventKind)) :
    (appendAll env log after).1.file = log.file ++ fileOf env (appendAll env log after).2 ∧
      Chained env log.lastChain (appendAll env log after).2 ∧ (appendAll env log after).2.length = after.length := by
  induction after generalizing log with
  | nil => exact ⟨(append_nil _).symm, ⟨nofun, trivial⟩, rfl⟩
  | cons x rest ih =>
    obtain ⟨hfile, hchained, hlength⟩ := ih (log.append env x.1 x.2).1
    refine ⟨?_, chained_cons.2 ⟨AuditEvent.verify_finalise env _ _, rfl, hchained⟩, congrArg (· + 1) hlength⟩
    refine hfile.trans ?_
    simp only [append, takeNumber, write, appendAll, fileOf, Lines.join, map_cons, flatMap_cons, append_assoc]

theorem fileOf_append (es es' : List AuditEvent) : fileOf env (es ++ es') = fileOf env es ++ fileOf env es' := by
  rw [fileOf, fileOf, fileOf, map_append, Lines.join_append]

theorem chained_append {prev : String} {es' : List AuditEvent} : Chained env prev (es ++ es') ↔
    Chained env prev es ∧ Chained env (HashChain.tip AuditEvent.chainHash prev es) es' := by
  induction es generalizing prev with
  | nil => exact ⟨fun h => ⟨⟨nofun, trivial⟩, h⟩, And.right⟩
  | cons e es ih =>
    rw [cons_append, chained_cons, chained_cons, ih, HashChain.tip_cons]
    tauto

theorem readEvents_ne_ok {l : List UInt8} {lines : List (List UInt8)} (hl : l ∈ lines) (h : unread env l = true) :
    ∀ es, readEvents env lines ≠ .ok es := by
  induction lines with
  | nil => cases hl
  | cons l' lines ih =>
    intro es hes
    cases hread : readLine l' with
    | error =>
      rw [readEvents, hread] at hes
      cases hes
    | ok text =>
      rcases mem_cons.1 hl with rfl | hl
      · simp only [unread, hread, Bool.and_eq_true, Bool.not_eq_true'] at h
        obtain ⟨hblank, hjson⟩ := h
        cases hparse : env.fromJson text with
        | error => simp [readEvents, hread, hblank, hparse, bind, Except.bind, Except.mapError] at hes
        | ok =>
          rw [hparse] at hjson
          cases hjson
      · by_cases hblank : isBlank text = true
        · simp only [readEvents, hread, hblank, bind, Except.bind, if_true] at hes
          exact ih hl es hes
        · cases hparse : env.fromJson text with
          | error => simp [readEvents, hread, hblank, hparse, bind, Except.bind, Except.mapError] at hes
          | ok =>
            obtain ⟨rest, hrest, -⟩ := (readEvents_cons hread (Bool.eq_false_iff.2 hblank) hparse lines).1 hes
            exact ih hl rest hrest

theorem openLog_unended (h : env.Reads (es ++ [e])) : ∃ log, openLog env (fileOf env es ++ line env e) = .ok log := by
  have hinit : env.Reads es := h.mono fun _ he => mem_append_left _ he
  have hlast : env.Reads [e] := h.mono fun _ he => mem_append_right _ he
  have hmem := mem_singleton_self e
  have hscan := scanLines_append hlast (tailOf (0, AuditEvent.zeroHash) es) []
  rw [append_nil] at hscan
  refine ⟨_, openLog_iff.2 ⟨tailOf (tailOf (0, AuditEvent.zeroHash) es) [e], ?_, rfl⟩⟩
  rw [fileOf, Lines.split_join_append (plain_lines hinit),
    Lines.split_plain (hlast.plain e hmem) (line_ne_nil (hlast.notBlank e hmem)), scanLines_append hinit]
  exact hscan

theorem reopen_iff {file : List UInt8} {after : List (DateTime × AuditEventKind)} : reopen env file after = .ok (log, new) ↔
      ∃ log₀, openLog env file = .ok log₀ ∧ log₀.file = file ∧ appendAll env log₀ after = (log, new) := by
  simp only [reopen, bind, Except.bind]
  cases hopen : openLog env file with
  | error => simp
  | ok =>
    obtain ⟨tail, -, rfl⟩ := openLog_iff.1 hopen
    simp [pure, Except.pure]

theorem torn_line_mem (h : env.Reads (es ++ [e])) (hnew : env.Reads new) {k : Nat} (hk : 0 < k) :
    (line env e).take k ++ (new.head?.map (line env)).getD [] ∈ Lines.split (cutFile env es e k ++ fileOf env new) := by
  have hinit : env.Reads es := h.mono fun _ he => mem_append_left _ he
  have hmem : e ∈ es ++ [e] := mem_append_right _ (mem_singleton_self e)
  have hplain := (h.plain e hmem).take k
  have hne : (line env e).take k ≠ [] := by
    rw [Ne, take_eq_nil_iff]
    exact not_or.2 ⟨by omega, line_ne_nil (h.notBlank e hmem)⟩
  rw [cutFile, append_assoc, fileOf, Lines.split_join_append (plain_lines hinit)]
  refine mem_append_right _ ?_
  cases new with
  | nil =>
    rw [fileOf, map_nil, Lines.join_nil, append_nil, Lines.split_plain hplain hne]
    simp
  | cons e' rest =>
    have hcons : (line env e).take k ++ fileOf env (e' :: rest) =
        ((line env e).take k ++ line env e') ++ Lines.lineFeed :: fileOf env rest := by
      simp [fileOf, Lines.join]
    rw [hcons, Lines.split_line (forall_mem_append.2 ⟨hplain, hnew.plain e' mem_cons_self⟩)]
    exact mem_cons_self

/-- A log that was cut inside its last line, opened again and appended to, is accepted with every event of a complete text
    and every new event if and only if nothing is left of the line, or all of its text and nothing is appended. -/
theorem torn_log_iff (env : AuditEnv) (es : List AuditEvent) (e : AuditEvent) (k : Nat)
    (after : List (DateTime × AuditEventKind))
    (valid : verifyChain env (fileOf env (es ++ [e])) = .ok (es.length + 1)) (cut : k ≤ (line env e).length)
    (reads : env.Reads (es ++ [e]))
    (appended : ∀ log new, reopen env (cutFile env es e k) after = .ok (log, new) → env.Reads new ∧ Torn env e new) :
    (∃ log new, reopen env (cutFile env es e k) after = .ok (log, new) ∧ verifyChain env log.file =
        .ok (es.length + (if k = (line env e).length then 1 else 0) + after.length)) ↔
      k = 0 ∨ (k = (line env e).length ∧ after = []) := by
  have hinit : env.Reads es := reads.mono fun _ he => mem_append_left _ he
  have hmem : e ∈ es ++ [e] := mem_append_right _ (mem_singleton_self e)
  have hlength : 0 < (line env e).length := length_pos_of_ne_nil (line_ne_nil (reads.notBlank e hmem))
  obtain ⟨es₀, hes₀, hchained, -⟩ := verifyChain_iff.1 valid
  obtain rfl := Except.ok.inj ((events_fileOf reads).symm.trans hes₀)
  constructor
  · rintro ⟨log, new, hreopen, hverify⟩
    obtain ⟨hnew, htorn⟩ := appended log new hreopen
    obtain ⟨events, hevents, -, -⟩ := verifyChain_iff.1 hverify
    obtain ⟨log₀, -, hfile₀, hall⟩ := reopen_iff.1 hreopen
    obtain ⟨hfile, -, hcount⟩ := appendAll_spec env log₀ after
    rw [hall] at hfile hcount
    by_contra hnot
    obtain ⟨hk, hfull⟩ := not_or.1 hnot
    have hline := torn_line_mem reads hnew (k := k) (by omega)
    rw [← hfile₀, ← hfile] at hline
    refine readEvents_ne_ok hline ?_ events hevents
    cases new with
    | nil =>
      have hafter : after = [] := length_eq_zero_iff.1 hcount.symm
      rw [head?_nil, Option.map_none, Option.getD_none, append_nil]
      exact htorn.part k (lt_of_le_of_ne cut fun heq => hfull ⟨heq, hafter⟩) (by omega)
    | cons e' => exact htorn.joined e' mem_cons_self k cut (by omega)
  · rintro (rfl | ⟨rfl, rfl⟩)
    · -- Nothing is left of the line, and the new events follow the one before it.
      have hcut : cutFile env es e 0 = fileOf env es := by rw [cutFile, take_zero, append_nil]
      obtain ⟨log₀, hopen, hfile₀, htip⟩ : ∃ log₀, openLog env (fileOf env es) = .ok log₀ ∧ log₀.file = fileOf env es ∧
          log₀.lastChain = HashChain.tip AuditEvent.chainHash AuditEvent.zeroHash es := ⟨_, openLog_fileOf hinit, rfl, rfl⟩
      obtain ⟨hfile, hlinked, hcount⟩ := appendAll_spec env log₀ after
      generalize hall : appendAll env log₀ after = result at hfile hlinked hcount
      obtain ⟨log, new⟩ := result
      rw [hfile₀] at hfile
      rw [htip] at hlinked
      have hreopen : reopen env (cutFile env es e 0) after = .ok (log, new) :=
        reopen_iff.2 ⟨log₀, by rw [hcut]; exact hopen, hfile₀.trans hcut.symm, hall⟩
      have hreads : env.Reads (es ++ new) := hinit.append (appended log new hreopen).1
      have hverify := verifyChain_fileOf hreads (chained_append.2 ⟨(chained_append.1 hchained).1, hlinked⟩)
      refine ⟨log, new, hreopen, ?_⟩
      rw [hfile, ← fileOf_append, hverify, length_append, hcount, if_neg (by omega), Nat.add_zero]
    · -- The whole text is left, and read as if its line were ended.
      have hcut : cutFile env es e (line env e).length = fileOf env es ++ line env e := by rw [cutFile, take_length]
      obtain ⟨log, hopen⟩ := openLog_unended reads
      obtain ⟨tail, -, rfl⟩ := openLog_iff.1 hopen
      rw [hcut]
      refine ⟨_, [], reopen_iff.2 ⟨_, hopen, rfl, rfl⟩, ?_⟩
      refine verifyChain_iff.2 ⟨es ++ [e], events_fileOf_unended reads, hchained, ?_⟩
      simp

end AuditLog

namespace Sample

/-- A log of two events, the last of which is cut to `k` bytes, is opened and one event is appended. -/
def torn (k : Nat) : Except AuditError (AuditLog × List AuditEvent) :=
  AuditLog.reopen zeroEnv
    (AuditLog.cutFile zeroEnv [zeroEvent 1 AuditEvent.zeroHash] (zeroEvent 2 AuditEvent.zeroHash) k)
    [(0, .serverStarted "::1" "1")]

end Sample

namespace AuditLog

open Sample (zeroEnv zeroEvent torn)

/-- When nothing is left of the last line, the log is accepted with the new event. -/
theorem torn_log_iff_nothing_left : ∃ log new, torn 0 = .ok (log, new) ∧ verifyChain zeroEnv log.file = .ok 2 := by
  have hreads : zeroEnv.Reads Sample.inOrderEvents := by
    refine ⟨?_, by decide +kernel, by decide +kernel⟩
    simp only [Sample.inOrderEvents, forall_mem_cons]
    exact ⟨rfl, rfl, rfl, forall_mem_nil _⟩
  have hlog : zeroEnv.Reads ([zeroEvent 1 AuditEvent.zeroHash] ++ [zeroEvent 2 AuditEvent.zeroHash]) :=
    hreads.mono fun e he => mem_append_left [_] he
  have hvalid := verifyChain_fileOf hlog ⟨by decide +kernel, rfl, by decide +kernel, trivial⟩
  have hnew : (torn 0).map Prod.snd = .ok [zeroEvent 2 AuditEvent.zeroHash] := by decide +kernel
  obtain ⟨log, new, hopen, hverify⟩ := (torn_log_iff zeroEnv _ _ 0 [(0, .serverStarted "::1" "1")] hvalid
    (Nat.zero_le _) hlog fun log new hopen => by
      rw [show torn 0 = .ok (log, new) from hopen] at hnew
      cases hnew
      exact ⟨hreads.mono fun e he => mem_append_left [_] (mem_append_right [_] he), by decide +kernel,
        by decide +kernel⟩).2 (.inl rfl)
  exact ⟨log, new, hopen, hverify.trans (by decide +kernel)⟩

/-- When three bytes are left of the last line, the new event is written behind them, and the log is not accepted. -/
theorem torn_log_rejected : (torn 3).map (fun x => verifyChain zeroEnv x.1.file) =
    .ok (.error (.serialisation "expected an event")) := by decide +kernel

end AuditLog

end VectorLedger
