import VectorLedger.Lib.Slots
import VectorLedger.Theorems.AuditLog

/-! Concurrent appends to the audit log. The lock on the chain keeps the events linked, but their numbers are taken
    before it. -/

namespace VectorLedger

open Sample List Slots

/-! ### Restoring -/

namespace AuditLog

variable {env : AuditEnv} {es : List AuditEvent}

def tailOf (tail : UInt64 × String) (es : List AuditEvent) : UInt64 × String :=
  (es.getLast?.map fun e => (e.sequence, e.chainHash)).getD tail

theorem scanLines_append (h : env.Reads es) (tail : UInt64 × String) (lines : List (List UInt8)) :
    scanLines env tail (es.map (line env) ++ lines) = scanLines env (tailOf tail es) lines := by
  induction es generalizing tail with
  | nil => rfl
  | cons e es ih =>
    have hread : readLine (line env e) = .ok (env.toJson e) := readLine_utf8 _
    have hmem : e ∈ e :: es := mem_cons_self
    have htail : tailOf tail (e :: es) = tailOf (e.sequence, e.chainHash) es := by
      cases es <;> simp [tailOf, getLast?_cons]
    rw [map_cons, cons_append, scanLines, htail]
    simp only [hread, h.notBlank e hmem, h.back e hmem, bind, Except.bind, Bool.false_eq_true]
    exact ih (h.mono fun e he => mem_cons_of_mem _ he) _

theorem openLog_iff {file : List UInt8} {log : AuditLog} : openLog env file = .ok log ↔
    ∃ tail, scanLines env (0, AuditEvent.zeroHash) (Lines.split file) = .ok tail ∧ log = ⟨file, tail.1 + 1, tail.2⟩ := by
  simp only [openLog, scanTail, bind, Except.bind]
  cases scanLines env (0, AuditEvent.zeroHash) (Lines.split file) with
  | error => simp
  | ok => simp [pure, Except.pure, eq_comm]

theorem openLog_fileOf (h : env.Reads es) : openLog env (fileOf env es) =
    .ok ⟨fileOf env es, (tailOf (0, AuditEvent.zeroHash) es).1 + 1,
      HashChain.tip AuditEvent.chainHash AuditEvent.zeroHash es⟩ := by
  have hscan := scanLines_append h (0, AuditEvent.zeroHash) []
  have htip : (tailOf (0, AuditEvent.zeroHash) es).2 = HashChain.tip AuditEvent.chainHash AuditEvent.zeroHash es := by
    cases hlast : es.getLast? <;> simp [tailOf, HashChain.tip, hlast]
  rw [append_nil] at hscan
  refine openLog_iff.2 ⟨tailOf (0, AuditEvent.zeroHash) es, ?_, by rw [htip]⟩
  rw [fileOf, Lines.split_join (plain_lines h), hscan]
  rfl

theorem fileOf_concat (es : List AuditEvent) (e : AuditEvent) :
    fileOf env (es ++ [e]) = fileOf env es ++ line env e ++ [Lines.lineFeed] := by
  rw [fileOf, fileOf, map_append, Lines.join_append, map_singleton, Lines.join_singleton, append_assoc]

end AuditLog

/-! ### Appends -/

def AppendPc.holds : AppendPc → Bool
  | .writing _ | .ending _ | .storing _ => true
  | .waiting _ | .done _ => false

def AppendPc.number : AppendPc → Option Nat
  | .waiting sequence => some sequence.toNat
  | .writing e => some e.sequence.toNat
  | .ending _ | .storing _ | .done _ => none

def AppendPc.written : AppendPc → Option AuditEvent
  | .ending e | .storing e => some e
  | .waiting _ | .writing _ | .done _ => none

namespace AuditProcess

open AuditLog (Chained fileOf line events verifyChain)

variable {env : AuditEnv} {p p' : AuditProcess} {a : AuditAction} {n : Nat} {c : AppendCall} {e : AuditEvent}

/-- The events that were written: those of the appends that have returned, and that of an append that is about to. -/
def recorded (p : AuditProcess) : List AuditEvent := p.completed ++ p.calls.filterMap (·.pc.written)

/-- What each action does to the log and the calls. -/
inductive Stepped (env : AuditEnv) (p : AuditProcess) : AuditAction → AuditProcess → Prop where
  | appended (ts : DateTime) (kind : AuditEventKind) : Stepped env p (.append ts kind)
      { p with
        log := { p.log with nextSeq := p.log.nextSeq + 1 }
        calls := p.calls ++ [⟨ts, kind, .waiting p.log.nextSeq⟩] }
  | locked (n : Nat) (c : AppendCall) (seq : UInt64) (call : p.calls[n]? = some c) (pc : c.pc = .waiting seq)
      (free : p.holder = none) (e : AuditEvent)
      (event : e = (AuditLog.newEvent seq c.ts c.kind).finalise env p.log.lastChain) :
      Stepped env p (.step n) ({ p with holder := some n }.setPc n c (.writing e))
  | wrote (n : Nat) (c : AppendCall) (e : AuditEvent) (call : p.calls[n]? = some c) (pc : c.pc = .writing e) :
      Stepped env p (.step n) ({ p with log := p.log.write (line env e) }.setPc n c (.ending e))
  | ended (n : Nat) (c : AppendCall) (e : AuditEvent) (call : p.calls[n]? = some c) (pc : c.pc = .ending e) :
      Stepped env p (.step n) ({ p with log := p.log.write [Lines.lineFeed] }.setPc n c (.storing e))
  | stored (n : Nat) (c : AppendCall) (e : AuditEvent) (call : p.calls[n]? = some c) (pc : c.pc = .storing e) :
      Stepped env p (.step n)
        ({ p with
          log := { p.log with lastChain := e.chainHash }
          holder := none
          completed := p.completed ++ [e] }.setPc n c (.done (.ok e)))
  | failed (n written : Nat) (c : AppendCall) (p' : AuditProcess) (call : p.calls[n]? = some c)
      (h : p.failAt env n c written = some p') : Stepped env p (.fail n written) p'
  | restarted (hover : ∀ c ∈ p.calls, c.pc.over = true) (log : AuditLog)
      (opened : AuditLog.openLog env p.log.file = .ok log) : Stepped env p .restart ⟨log, none, [], p.completed⟩

theorem step_cases (h : p.step env a = some p') : Stepped env p a p' := by
  cases a with
  | append ts kind =>
    cases h
    exact .appended ts kind
  | step n =>
    obtain ⟨c, hc, hact⟩ := Option.bind_eq_some_iff.1 h
    unfold act at hact
    split at hact
    · next seq hpc =>
      obtain ⟨hfree, hact⟩ := Option.ite_none_right_eq_some.1 hact
      cases hact
      exact .locked n c seq hc hpc hfree _ rfl
    · next e hpc =>
      cases hact
      exact .wrote n c e hc hpc
    · next e hpc =>
      cases hact
      exact .ended n c e hc hpc
    · next e hpc =>
      cases hact
      exact .stored n c e hc hpc
    · cases hact
  | fail n written =>
    obtain ⟨c, hc, hfail⟩ := Option.bind_eq_some_iff.1 h
    exact .failed n written c p' hc hfail
  | restart =>
    obtain ⟨hover, hopen⟩ := Option.ite_none_right_eq_some.1 h
    split at hopen
    · next log hlog =>
      cases hopen
      exact .restarted (all_eq_true.1 hover) log hlog
    · cases hopen

/-! ### The chain -/

/-- The file has the completed events, and memory has the hash of the last one. -/
def Settled (env : AuditEnv) (p : AuditProcess) : Prop :=
  p.log.file = fileOf env p.completed ∧ p.log.lastChain = HashChain.tip AuditEvent.chainHash AuditEvent.zeroHash p.completed

/-- What holds while an append has the lock, by how far it has come. -/
def Holding (env : AuditEnv) (p : AuditProcess) (pc : AppendPc) : Prop :=
  match pc with
  | .writing e => p.Settled env ∧ Chained env AuditEvent.zeroHash (p.completed ++ [e])
  | .ending e => p.log.file = fileOf env p.completed ++ line env e ∧ Chained env AuditEvent.zeroHash (p.completed ++ [e])
  | .storing e => p.log.file = fileOf env (p.completed ++ [e]) ∧ Chained env AuditEvent.zeroHash (p.completed ++ [e])
  | .waiting _ | .done _ => False

/-- The holder of the lock is the one call that writes, and the completed events are chained. -/
structure Sound (env : AuditEnv) (p : AuditProcess) : Prop where
  holder : ∀ i, p.holder = some i → ∃ c, p.calls[i]? = some c ∧ p.Holding env c.pc
  alone : ∀ (i : Nat) (c : AppendCall), p.calls[i]? = some c → c.pc.holds = true → p.holder = some i
  settled : p.holder = none → p.Settled env
  chained : Chained env AuditEvent.zeroHash p.completed

section
variable (h : p.Sound env)
include h

theorem Sound.written_eq_none {i : Nat} (hc : p.calls[i]? = some c) (hne : p.holder ≠ some i) : c.pc.written = none := by
  cases hpc : c.pc with
  | ending e | storing e => exact absurd (h.alone i c hc (by rw [hpc]; rfl)) hne
  | waiting | writing | done => rfl

theorem Sound.recorded_of_free (free : p.holder = none) : p.recorded = p.completed := by
  have hnone : p.calls.filterMap (·.pc.written) = [] := by
    rw [filterMap_eq_nil_iff]
    intro c hc
    obtain ⟨i, hi⟩ := mem_iff_getElem?.1 hc
    refine h.written_eq_none hi ?_
    rw [free]
    nofun
  rw [recorded, hnone, append_nil]

theorem Sound.recorded_of_holder (held : p.holder = some n) (hc : p.calls[n]? = some c) :
    p.recorded = p.completed ++ c.pc.written.toList := by
  rw [recorded, filterMap_eq_toList hc]
  intro i d hd hne
  refine h.written_eq_none hd ?_
  rw [held]
  exact fun heq => hne (Option.some.inj heq).symm

theorem Sound.holding (hc : p.calls[n]? = some c) {pc : AppendPc} (hpc : c.pc = pc) (hholds : pc.holds = true) :
    p.holder = some n ∧ p.Holding env pc := by
  subst hpc
  have hn := h.alone n c hc hholds
  obtain ⟨d, hd, hholding⟩ := h.holder n hn
  obtain rfl := Option.some.inj (hc.symm.trans hd)
  exact ⟨hn, hholding⟩

theorem Sound.hold (hc : p.calls[n]? = some c) (hfree : p.holder = none ∨ p.holder = some n) (log : AuditLog)
    (pc : AppendPc) (hpc : Holding env { p with log } pc) :
    Sound env ({ p with log, holder := some n }.setPc n c pc) := by
  refine ⟨?_, ?_, nofun, h.chained⟩
  · rintro _ ⟨⟩
    refine ⟨_, getElem?_set_self hc _, ?_⟩
    cases pc <;> exact hpc
  · intro i d hd hholds
    rcases getElem?_set_cases hd with ⟨rfl, -⟩ | ⟨hne, hold⟩
    · rfl
    · have hi := h.alone i d hold hholds
      rcases hfree with hfree | hfree
      · rw [hfree] at hi
        cases hi
      · rw [hfree] at hi
        exact absurd (Option.some.inj hi).symm hne

theorem Sound.free_of_over (hover : ∀ c ∈ p.calls, c.pc.over = true) : p.holder = none := by
  cases hholder : p.holder with
  | none => rfl
  | some i =>
    obtain ⟨c, hc, hholding⟩ := h.holder i hholder
    have hended := hover c (mem_of_getElem? hc)
    cases hpc : c.pc with
    | done =>
      rw [hpc] at hholding
      exact hholding.elim
    | waiting | writing | ending | storing =>
      rw [hpc] at hended
      cases hended

/-- An action keeps the log sound. -/
theorem Sound.step (hreads : env.Reads p.recorded) (hfail : ∀ n written, a ≠ .fail n written)
    (hstep : p.step env a = some p') : p'.Sound env := by
  cases step_cases hstep with
  | appended =>
    refine ⟨?_, ?_, h.settled, h.chained⟩
    · intro i hi
      obtain ⟨c, hc, hholding⟩ := h.holder i hi
      refine ⟨c, getElem?_append_of_some hc _, ?_⟩
      cases hpc : c.pc <;> rw [hpc] at hholding <;> exact hholding
    · intro i c hc hholds
      rcases getElem?_append_cases hc with hold | ⟨-, rfl⟩
      · exact h.alone i c hold hholds
      · cases hholds
  | locked n c seq call pc free e event =>
    have hsettled := h.settled free
    refine h.hold call (.inl free) p.log (.writing e) ⟨hsettled, ?_⟩
    rw [AuditLog.chained_concat, event]
    exact ⟨h.chained, AuditEvent.verify_finalise env _ _, hsettled.2⟩
  | wrote n c e call pc =>
    obtain ⟨hn, hsettled, hchained⟩ := h.holding call pc rfl
    have hnext := h.hold call (.inr hn) (p.log.write (line env e)) (.ending e)
      ⟨congrArg (· ++ line env e) hsettled.1, hchained⟩
    rwa [← hn] at hnext
  | ended n c e call pc =>
    obtain ⟨hn, hfile, hchained⟩ := h.holding call pc rfl
    have hnext := h.hold call (.inr hn) (p.log.write [Lines.lineFeed]) (.storing e)
      ⟨(congrArg (· ++ [Lines.lineFeed]) hfile).trans (AuditLog.fileOf_concat _ _).symm, hchained⟩
    rwa [← hn] at hnext
  | stored n c e call pc =>
    obtain ⟨hn, hfile, hchained⟩ := h.holding call pc rfl
    have htip : HashChain.tip AuditEvent.chainHash AuditEvent.zeroHash (p.completed ++ [e]) = e.chainHash :=
      HashChain.tip_concat
    refine ⟨nofun, ?_, fun _ => ⟨hfile, htip.symm⟩, hchained⟩
    intro i d hd hholds
    rcases getElem?_set_cases hd with ⟨-, rfl⟩ | ⟨hne, hold⟩
    · cases hholds
    · rw [h.alone i d hold hholds] at hn
      exact absurd (Option.some.inj hn) hne
  | failed n written => exact absurd rfl (hfail n written)
  | restarted hover log opened =>
    have free := h.free_of_over hover
    obtain ⟨hfile, -⟩ := h.settled free
    rw [h.recorded_of_free free] at hreads
    rw [hfile, AuditLog.openLog_fileOf hreads] at opened
    cases opened
    exact ⟨nofun, (fun i c hc => nomatch hc), fun _ => ⟨rfl, rfl⟩, h.chained⟩

end

theorem sound_start : start.Sound env where
  holder _ hi := nomatch hi
  alone _ _ hc := nomatch hc
  settled _ := ⟨rfl, rfl⟩
  chained := ⟨nofun, trivial⟩

theorem Sound.events_eq (h : p.Sound env) (hreads : env.Reads p.recorded) :
    events env p.log.file = .ok p.recorded ∧ Chained env AuditEvent.zeroHash p.recorded := by
  cases hholder : p.holder with
  | none =>
    rw [h.recorded_of_free hholder] at hreads ⊢
    rw [(h.settled hholder).1]
    exact ⟨AuditLog.events_fileOf hreads, h.chained⟩
  | some n =>
    obtain ⟨c, hc, hholding⟩ := h.holder n hholder
    have hrecorded := h.recorded_of_holder hholder hc
    rw [hrecorded] at hreads ⊢
    cases hpc : c.pc with
    | waiting | done =>
      rw [hpc] at hholding
      exact hholding.elim
    | writing e =>
      rw [hpc] at hholding hreads
      obtain ⟨⟨hfile, -⟩, -⟩ := hholding
      rw [show AppendPc.written (.writing e) = none from rfl, Option.toList_none, append_nil] at hreads ⊢
      rw [hfile]
      exact ⟨AuditLog.events_fileOf hreads, h.chained⟩
    | ending =>
      rw [hpc] at hholding hreads
      obtain ⟨hfile, hchained⟩ := hholding
      rw [hfile]
      exact ⟨AuditLog.events_fileOf_unended hreads, hchained⟩
    | storing =>
      rw [hpc] at hholding hreads
      rw [hholding.1]
      exact ⟨AuditLog.events_fileOf hreads, hholding.2⟩

/-! ### The numbers -/

theorem recorded_mono (hstep : p.step env a = some p') (hfail : ∀ n written, a ≠ .fail n written) (he : e ∈ p.recorded) :
    e ∈ p'.recorded := by
  rw [recorded, mem_append, mem_filterMap] at he ⊢
  -- The call that goes on keeps its event or has none.
  have hset : ∀ {n c pc}, p.calls[n]? = some c → (c.pc.written = some e → pc.written = some e ∨ e ∈ p'.completed) →
      (∃ d ∈ p.calls, d.pc.written = some e) →
      e ∈ p'.completed ∨ ∃ d ∈ p.calls.set n { c with pc }, d.pc.written = some e := by
    rintro n c pc hc hpc ⟨d, hd, hde⟩
    rcases mem_set_or hc { c with pc } hd with hd' | rfl
    · exact .inr ⟨d, hd', hde⟩
    · exact (hpc hde).symm.imp_right fun hpc => ⟨_, mem_set_self hc _, hpc⟩
  cases step_cases hstep with
  | appended => exact he.imp_right fun ⟨d, hd, hde⟩ => ⟨d, mem_append_left _ hd, hde⟩
  | locked n c seq call pc | wrote n c e' call pc =>
    refine he.elim .inl (hset call fun hpc => ?_)
    rw [pc] at hpc
    cases hpc
  | ended n c e' call pc =>
    refine he.elim .inl (hset call fun hpc => .inl ?_)
    rw [pc] at hpc
    exact hpc
  | stored n c e' call pc =>
    refine he.elim (fun hold => .inl (mem_append_left _ hold)) (hset call fun hpc => .inr ?_)
    rw [pc] at hpc
    cases hpc
    exact mem_append_right _ (mem_singleton_self _)
  | failed n written => exact absurd rfl (hfail n written)
  | restarted hover =>
    refine he.elim .inl fun ⟨d, hd, hde⟩ => ?_
    have hended := hover d hd
    cases hpc : d.pc with
    | done =>
      rw [hpc] at hde
      cases hde
    | waiting | writing | ending | storing =>
      rw [hpc] at hended
      cases hended

/-- The events in the file are numbered from 1, and the appends that have not written have the numbers behind them. -/
structure Numbered (p : AuditProcess) : Prop where
  sequences : p.recorded.map (·.sequence.toNat) = List.range' 1 p.recorded.length
  next : p.recorded.length < p.log.nextSeq.toNat
  numbers : ∀ s, (∃ c ∈ p.calls, c.pc.number = some s) ↔ p.recorded.length < s ∧ s < p.log.nextSeq.toNat
  distinct : ∀ (i j : Nat) (c d : AppendCall) (s : Nat), p.calls[i]? = some c → p.calls[j]? = some d →
    c.pc.number = some s → d.pc.number = some s → i = j
  first : ∀ c ∈ p.calls, ∀ e, c.pc = .writing e → e.sequence.toNat = p.recorded.length + 1

theorem Numbered.setPc (h : p.Numbered) (hc : p.calls[n]? = some c) {pc : AppendPc}
    (hcalls : p'.calls = p.calls.set n { c with pc }) (hnumber : pc.number = c.pc.number)
    (hrecorded : p'.recorded = p.recorded) (hnext : p'.log.nextSeq = p.log.nextSeq)
    (hfirst : ∀ e, pc = .writing e → e.sequence.toNat = p.recorded.length + 1) : p'.Numbered := by
  refine ⟨?_, ?_, ?_, ?_, ?_⟩
  · rw [hrecorded]
    exact h.sequences
  · rw [hrecorded, hnext]
    exact h.next
  · intro s
    rw [hrecorded, hnext, ← h.numbers s, hcalls]
    constructor
    · rintro ⟨d, hd, hs⟩
      rcases mem_set_cases hd with rfl | ⟨i, -, hi⟩
      · exact ⟨c, mem_of_getElem? hc, hnumber.symm.trans hs⟩
      · exact ⟨d, mem_of_getElem? hi, hs⟩
    · rintro ⟨d, hd, hs⟩
      rcases mem_set_or hc { c with pc } hd with hd' | rfl
      · exact ⟨d, hd', hs⟩
      · exact ⟨_, mem_set_self hc _, hnumber.trans hs⟩
  · have hback : ∀ {i : Nat} {d : AppendCall} {s : Nat}, p'.calls[i]? = some d → d.pc.number = some s →
        ∃ d₀, p.calls[i]? = some d₀ ∧ d₀.pc.number = some s := by
      intro i d s hd hs
      rw [hcalls] at hd
      rcases getElem?_set_cases hd with ⟨rfl, rfl⟩ | ⟨-, hold⟩
      · exact ⟨c, hc, hnumber.symm.trans hs⟩
      · exact ⟨d, hold, hs⟩
    intro i j d d' s hd hd' hs hs'
    obtain ⟨d₀, hd₀, hs₀⟩ := hback hd hs
    obtain ⟨d₁, hd₁, hs₁⟩ := hback hd' hs'
    exact h.distinct i j d₀ d₁ s hd₀ hd₁ hs₀ hs₁
  · intro d hd e he
    rw [hrecorded]
    rw [hcalls] at hd
    rcases mem_set_cases hd with rfl | ⟨i, -, hi⟩
    · exact hfirst e he
    · exact h.first d (mem_of_getElem? hi) e he

theorem Numbered.wrote (h : p.Numbered) (hc : p.calls[n]? = some c) (hpc : c.pc = .writing e)
    (hcalls : p'.calls = p.calls.set n { c with pc := .ending e }) (hrecorded : p'.recorded = p.recorded ++ [e])
    (hnext : p'.log.nextSeq = p.log.nextSeq) (halone : ∀ i d, p.calls[i]? = some d → i ≠ n → ∀ e, d.pc ≠ .writing e) :
    p'.Numbered := by
  have hsequence := h.first c (mem_of_getElem? hc) e hpc
  have hnumber : c.pc.number = some (p.recorded.length + 1) := by
    rw [hpc, ← hsequence]
    rfl
  obtain ⟨-, hlt⟩ := (h.numbers _).1 ⟨c, mem_of_getElem? hc, hnumber⟩
  have hlength : p'.recorded.length = p.recorded.length + 1 := by
    rw [hrecorded, length_append, length_singleton]
  refine ⟨?_, by rw [hlength, hnext]; exact hlt, ?_, ?_, ?_⟩
  · rw [hlength, hrecorded, map_append, h.sequences, range'_concat, map_singleton, hsequence, Nat.one_mul, Nat.add_comm 1]
  · intro s
    rw [hnext, hcalls]
    constructor
    · rintro ⟨d, hd, hs⟩
      rcases mem_set_cases hd with rfl | ⟨i, hi, hid⟩
      · cases hs
      · obtain ⟨hlow, hhigh⟩ := (h.numbers s).1 ⟨d, mem_of_getElem? hid, hs⟩
        refine ⟨?_, hhigh⟩
        -- Another append has another number.
        have hne : s ≠ p.recorded.length + 1 := by
          rintro rfl
          exact hi (h.distinct i n d c _ hid hc hs hnumber)
        omega
    · rintro ⟨hlow, hhigh⟩
      obtain ⟨d, hd, hs⟩ := (h.numbers s).2 ⟨by omega, hhigh⟩
      rcases mem_set_or hc { c with pc := .ending e } hd with hd' | rfl
      · exact ⟨d, hd', hs⟩
      · have heq := Option.some.inj (hnumber.symm.trans hs)
        omega
  · intro i j d d' s hd hd' hs hs'
    rw [hcalls] at hd hd'
    rcases getElem?_set_cases hd with ⟨-, rfl⟩ | ⟨-, hold⟩
    · cases hs
    · rcases getElem?_set_cases hd' with ⟨-, rfl⟩ | ⟨-, hold'⟩
      · cases hs'
      · exact h.distinct i j d d' s hold hold' hs hs'
  · intro d hd e' he'
    rw [hcalls] at hd
    rcases mem_set_cases hd with rfl | ⟨i, hi, hid⟩
    · cases he'
    · exact absurd he' (halone i d hid hi e')

theorem Numbered.append (h : p.Numbered) {ts : DateTime} {kind : AuditEventKind}
    (hlog : p'.log.nextSeq = p.log.nextSeq + 1) (hroom : p.log.nextSeq.toNat + 1 < 2 ^ 64)
    (hcalls : p'.calls = p.calls ++ [⟨ts, kind, .waiting p.log.nextSeq⟩]) (hrecorded : p'.recorded = p.recorded) :
    p'.Numbered := by
  have hnext : p'.log.nextSeq.toNat = p.log.nextSeq.toNat + 1 := by
    rw [hlog, UInt64.toNat_add, UInt64.toNat_one, Nat.mod_eq_of_lt hroom]
  have hnumbers := h.numbers
  refine ⟨by rw [hrecorded]; exact h.sequences, ?_, ?_, ?_, ?_⟩
  · have := h.next
    rw [hrecorded]
    omega
  · intro s
    rw [hrecorded, hcalls]
    constructor
    · rintro ⟨d, hd, hs⟩
      rcases mem_append.1 hd with hold | hlast
      · obtain ⟨hlow, hhigh⟩ := (hnumbers s).1 ⟨d, hold, hs⟩
        exact ⟨hlow, by omega⟩
      · obtain rfl := mem_singleton.1 hlast
        cases hs
        exact ⟨h.next, by omega⟩
    · rintro ⟨hlow, hhigh⟩
      by_cases hs : s = p.log.nextSeq.toNat
      · exact ⟨_, mem_append_right _ (mem_singleton_self _), congrArg some hs.symm⟩
      · obtain ⟨d, hd, hd'⟩ := (hnumbers s).2 ⟨hlow, by omega⟩
        exact ⟨d, mem_append_left _ hd, hd'⟩
  · -- The new number is above those of the other appends.
    have hbelow : ∀ {i : Nat} {d : AppendCall}, p.calls[i]? = some d → d.pc.number ≠ some p.log.nextSeq.toNat := by
      intro i d hd hs
      obtain ⟨-, hlt⟩ := (hnumbers _).1 ⟨d, mem_of_getElem? hd, hs⟩
      omega
    intro i j d d' s hd hd' hs hs'
    rw [hcalls] at hd hd'
    rcases getElem?_append_cases hd with hold | ⟨rfl, rfl⟩
    · rcases getElem?_append_cases hd' with hold' | ⟨-, rfl⟩
      · exact h.distinct i j d d' s hold hold' hs hs'
      · cases hs'
        exact absurd hs (hbelow hold)
    · rcases getElem?_append_cases hd' with hold' | ⟨rfl, -⟩
      · cases hs
        exact absurd hs' (hbelow hold')
      · rfl
  · intro d hd e he
    rw [hrecorded]
    rw [hcalls] at hd
    rcases mem_append.1 hd with hold | hlast
    · exact h.first d hold e he
    · obtain rfl := mem_singleton.1 hlast
      cases he

theorem tailOf_numbered {es : List AuditEvent} (h : es.map (·.sequence.toNat) = range' 1 es.length) :
    (AuditLog.tailOf (0, AuditEvent.zeroHash) es).1.toNat = es.length := by
  rcases eq_nil_or_concat es with rfl | ⟨init, e, rfl⟩
  · rfl
  · rw [concat_eq_append] at h ⊢
    rw [length_append, length_singleton, map_append, range'_concat] at h
    obtain ⟨-, hlast⟩ := append_inj' h rfl
    have hsequence : e.sequence.toNat = 1 + 1 * init.length := (cons.inj hlast).1
    have htail : (AuditLog.tailOf (0, AuditEvent.zeroHash) (init ++ [e])).1 = e.sequence := by simp [AuditLog.tailOf]
    rw [htail, length_append, length_singleton]
    omega

/-- Appends take the lock in the order of their numbers, there is a number for each, and no write fails. -/
def InOrder (p : AuditProcess) : AuditAction → Prop
  | .append _ _ => p.log.nextSeq.toNat + 1 < 2 ^ 64
  | .step n => ∀ c ∈ p.calls[n]?,
    match c.pc with
    | .waiting seq => ∀ d ∈ p.calls, ∀ s ∈ d.pc.number, seq.toNat ≤ s
    | _ => True
  | .fail _ _ => False
  | .restart => True

/-- An action keeps the numbers in order. -/
theorem Numbered.step (h : p.Numbered) (hsound : p.Sound env) (hsound' : p'.Sound env) (hreads : env.Reads p.recorded)
    (inOrder : p.InOrder a) (hstep : p.step env a = some p') : p'.Numbered := by
  cases step_cases hstep with
  | appended =>
    refine h.append rfl inOrder rfl ?_
    rw [recorded, recorded, filterMap_append]
    simp [AppendPc.written]
  | locked n c seq call pc free e event =>
    have hmem := mem_of_getElem? call
    have hnumber : c.pc.number = some seq.toNat := by rw [pc]; rfl
    have horder := inOrder c call
    rw [pc] at horder
    have hsequence : e.sequence = seq := by rw [event]; rfl
    obtain ⟨hlow, hhigh⟩ := (h.numbers _).1 ⟨c, hmem, hnumber⟩
    refine h.setPc call rfl ?_ ?_ rfl ?_
    · rw [hnumber, ← hsequence]
      rfl
    · rw [hsound'.recorded_of_holder rfl (getElem?_set_self call _), hsound.recorded_of_free free]
      exact append_nil _
    · -- The first number behind the file is that of some append, and this one has the least.
      rintro _ ⟨⟩
      obtain ⟨d, hd, hs⟩ := (h.numbers (p.recorded.length + 1)).2 ⟨by omega, by omega⟩
      have hle := horder d hd _ hs
      rw [hsequence]
      omega
  | wrote n c e call pc =>
    obtain ⟨hn, -⟩ := hsound.holding call pc rfl
    have hwritten : c.pc.written = none := by rw [pc]; rfl
    refine h.wrote call pc rfl ?_ rfl ?_
    · rw [hsound'.recorded_of_holder hn (getElem?_set_self call _), hsound.recorded_of_holder hn call, hwritten]
      exact congrArg (· ++ [e]) (append_nil _).symm
    · intro i d hd hne e' hd'
      have hi := hsound.alone i d hd (by rw [hd']; rfl)
      rw [hn] at hi
      exact hne (Option.some.inj hi).symm
  | ended n c e call pc =>
    obtain ⟨hn, -⟩ := hsound.holding call pc rfl
    refine h.setPc call rfl (by rw [pc]; rfl) ?_ rfl (by nofun)
    rw [hsound'.recorded_of_holder hn (getElem?_set_self call _), hsound.recorded_of_holder hn call, pc]
    rfl
  | stored n c e call pc =>
    obtain ⟨hn, -⟩ := hsound.holding call pc rfl
    refine h.setPc call rfl (by rw [pc]; rfl) ?_ rfl (by nofun)
    rw [hsound'.recorded_of_free rfl, hsound.recorded_of_holder hn call, pc]
    rfl
  | failed => exact inOrder.elim
  | restarted hover log opened =>
    have free := hsound.free_of_over hover
    have hrecorded := hsound.recorded_of_free free
    rw [hrecorded] at hreads
    rw [(hsound.settled free).1, AuditLog.openLog_fileOf hreads] at opened
    cases opened
    have hsequences := h.sequences
    have hnext := h.next
    rw [hrecorded] at hsequences hnext
    have htail := tailOf_numbered hsequences
    have hlt := p.log.nextSeq.toNat_lt
    have hseq : ((AuditLog.tailOf (0, AuditEvent.zeroHash) p.completed).1 + 1).toNat = p.completed.length + 1 := by
      rw [UInt64.toNat_add, htail, UInt64.toNat_one, Nat.mod_eq_of_lt (by omega)]
    have hsame : recorded ⟨_, none, [], p.completed⟩ = p.completed := hsound'.recorded_of_free rfl
    refine ⟨?_, ?_, ?_, (fun i j c d s hc => nomatch hc), (fun c hc => nomatch hc)⟩
    · rw [hsame]
      exact hsequences
    · rw [hsame]
      exact hseq ▸ Nat.lt_succ_self _
    · intro s
      rw [hsame]
      refine ⟨fun ⟨c, hc, _⟩ => (nomatch hc), fun ⟨hlow, hhigh⟩ => ?_⟩
      have hhigh : s < ((AuditLog.tailOf (0, AuditEvent.zeroHash) p.completed).1 + 1).toNat := hhigh
      omega

theorem numbered_start : start.Numbered where
  sequences := rfl
  next := Nat.one_pos
  numbers s := ⟨fun ⟨c, hc, _⟩ => (nomatch hc), fun ⟨hlow, hhigh⟩ => by
    have hlow : 0 < s := hlow
    have hhigh : s < 1 := hhigh
    omega⟩
  distinct _ _ _ _ _ hc := nomatch hc
  first _ hc := nomatch hc

/-- In every run in which appends take the lock in the order of their numbers, verification succeeds at every moment and
    counts the events that were written, which are those of the appends that have returned when none holds the lock; and
    the numbers of the events are 1, 2, 3 and so on in the order of the file. -/
theorem audit_log_in_order (run : Run.Reachable (step env) InOrder start p) (reads : env.Reads p.recorded) :
    verifyChain env p.log.file = .ok p.recorded.length ∧ events env p.log.file = .ok p.recorded ∧
      p.recorded.map (·.sequence.toNat) = range' 1 p.recorded.length ∧
      (p.holder = none → p.recorded = p.completed) := by
  have hinvariant : env.Reads p.recorded → p.Sound env ∧ p.Numbered := by
    refine run.invariant (P := fun p => env.Reads p.recorded → p.Sound env ∧ p.Numbered)
      (fun _ => ⟨sound_start, numbered_start⟩) ?_
    intro p a p' ih inOrder hstep hreads'
    have hfail : ∀ n written, a ≠ .fail n written := by
      rintro n written rfl
      exact inOrder
    have hreads : env.Reads p.recorded := hreads'.mono fun e he => recorded_mono hstep hfail he
    obtain ⟨hsound, hnumbered⟩ := ih hreads
    have hsound' := hsound.step hreads hfail hstep
    exact ⟨hsound', hnumbered.step hsound hsound' hreads inOrder hstep⟩
  obtain ⟨hsound, hnumbered⟩ := hinvariant reads
  obtain ⟨hevents, hchained⟩ := hsound.events_eq reads
  exact ⟨AuditLog.verifyChain_iff.2 ⟨_, hevents, hchained, rfl⟩, hevents, hnumbered.sequences, hsound.recorded_of_free⟩

instance (p : AuditProcess) (a : AuditAction) : Decidable (p.InOrder a) := by
  cases a with
  | step =>
    unfold InOrder
    have (c : AppendCall) : Decidable (match c.pc with
        | .waiting seq => ∀ d ∈ p.calls, ∀ s ∈ d.pc.number, seq.toNat ≤ s
        | _ => True) := by
      split <;> infer_instance
    infer_instance
  | _ => unfold InOrder; infer_instance

end AuditProcess

namespace Sample

def appendStarted : AuditAction := .append 0 (.serverStarted "::1" "1")

def appendAll (n : Nat) : List AuditAction := List.replicate 4 (.step n)

def zeroEvent (sequence : UInt64) (prev : String) : AuditEvent := started (fun _ => zeroHash) sequence 0 prev

def inOrderEvents : List AuditEvent :=
  [zeroEvent 1 AuditEvent.zeroHash, zeroEvent 2 AuditEvent.zeroHash, zeroEvent 3 AuditEvent.zeroHash]

def zeroEnv : AuditEnv := auditEnv (fun _ => zeroHash) inOrderEvents

/-- Two appends take their numbers, and then write in that order; the log is opened again before the third. -/
def appendsInOrder : List AuditAction :=
  [appendStarted, appendStarted] ++ appendAll 0 ++ appendAll 1 ++ [.restart, appendStarted] ++ appendAll 0

def appendsCrossed : List AuditAction :=
  [appendStarted, appendStarted] ++ appendAll 1 ++ appendAll 0 ++ [.restart, appendStarted] ++ appendAll 0

end Sample

namespace AuditProcess

open AuditLog (verifyChain events)

/-- Three events, of which two are appended at once and one after the log was opened again. -/
theorem audit_log_in_order_three : ∃ p, Run.exec (step zeroEnv) start appendsInOrder = some p ∧
      p.completed.length = 3 ∧ verifyChain zeroEnv p.log.file = .ok 3 := by
  obtain ⟨p, hp, hrecorded, hlength⟩ : ∃ p, Run.exec (step zeroEnv) start appendsInOrder = some p ∧
      p.recorded = inOrderEvents ∧ p.completed.length = 3 := by decide +kernel
  have hreads : zeroEnv.Reads p.recorded := by
    rw [hrecorded]
    refine ⟨?_, by decide +kernel, by decide +kernel⟩
    simp only [inOrderEvents, forall_mem_cons]
    exact ⟨rfl, rfl, rfl, nofun⟩
  obtain ⟨hverify, -⟩ := audit_log_in_order (Run.reachable_of_exec (by decide +kernel) hp) hreads
  exact ⟨p, hp, hlength, by rw [hverify, hrecorded]; rfl⟩

/-- Two appends that cross write the number 2 before the number 1, and a process that opens the log gives the number 2 once
    more. -/
theorem audit_numbers_crossed : ∃ p, Run.exec (step zeroEnv) start appendsCrossed = some p ∧
      p.completed.map (·.sequence.toNat) = [2, 1, 2] ∧ p.holder = none := by
  decide +kernel

end AuditProcess

end VectorLedger
