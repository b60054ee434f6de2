import VectorLedger.FourEyes.Queue
import VectorLedger.Lib.Run
import VectorLedger.Lib.Except

/-! Decisions of the four-eyes queue. In every run no entry is decided by its submitter. -/

namespace VectorLedger

open Function List

namespace FourEyes

/-! ### Files -/

namespace TextFile

variable {f : TextFile} {r : ApprovalRecord} {X : Uuid} {r : ApprovalRecord}

def ids (f : TextFile) : List Uuid := f.records.map (·.id)

theorem mem_records_empty : r ∉ empty.records := by
  simp [empty, records, allLines, parseLine]

theorem mem_records_created {created : Prop} [Decidable created] (h : r ∈ (if created then empty else f).records) :
    r ∈ f.records := by
  split at h
  · exact absurd h mem_records_empty
  · exact h

theorem mem_records_write {p : Piece} (h : r ∈ (f.write p).records) : r ∈ f.records ∨ p = .text r := by
  unfold records allLines write at *
  rw [filterMap_append, mem_append] at h ⊢
  rcases h with hold | hlast
  · exact .inl (.inl hold)
  · obtain ⟨line, hline, hparse⟩ := mem_filterMap.1 hlast
    obtain rfl := mem_singleton.1 hline
    cases hf : f.last with
    | nil =>
      rw [hf] at hparse
      cases p with
      | text => exact .inr (congrArg Piece.text (Option.some.inj hparse))
      | part => cases hparse
    | cons p' ps =>
      rw [hf] at hparse
      cases ps <;> simp [parseLine] at hparse

theorem records_writeNewline (f : TextFile) : f.writeNewline.records = f.records := by
  have hempty : filterMap parseLine [[]] = [] := rfl
  rw [records, records, allLines, allLines, writeNewline, filterMap_append, hempty, append_nil]

theorem mem_records_linesWithout {id : Uuid} (h : r ∈ records ⟨f.linesWithout id, []⟩) : r ∈ f.records ∧ r.id ≠ id := by
  unfold records allLines at h ⊢
  rw [filterMap_append, mem_append] at h
  rcases h with hold | hlast
  · obtain ⟨line, hline, hparse⟩ := mem_filterMap.1 hold
    obtain ⟨hmem, htest⟩ := mem_filter.1 hline
    exact ⟨mem_filterMap.2 ⟨line, hmem, hparse⟩, (of_decide_eq_true htest).2 r hparse⟩
  · simp [parseLine] at hlast

end TextFile

theorem foldl_update_some (rs : List ApprovalRecord) (m : Index)
    (h : rs.foldl (fun (index : Index) r => update index r.id (some r)) m X = some r) :
    m X = some r ∨ (r ∈ rs ∧ r.id = X) := by
  induction rs generalizing m with
  | nil => exact .inl h
  | cons r' rs ih =>
    rcases ih _ h with hfirst | ⟨hmem, hid⟩
    · have hfirst : update m r'.id (some r') X = some r := hfirst
      by_cases hX : X = r'.id
      · subst hX
        rw [update_self] at hfirst
        cases hfirst
        exact .inr ⟨mem_cons_self, rfl⟩
      · rw [update_of_ne hX] at hfirst
        exact .inl hfirst
    · exact .inr ⟨mem_cons_of_mem _ hmem, hid⟩

theorem loadPending_some {f : TextFile}
    (h : FourEyesQueue.loadPending f X = some r) : r ∈ f.records ∧ r.id = X := by
  rcases foldl_update_some f.records (fun _ => none) h with hnone | hmem
  · cases hnone
  · exact hmem

/-! ### Traces -/

def Outcome.id : Outcome → Uuid
  | .posted id _ _ => id
  | .recorded r => r.id

def Outcome.decider : Outcome → Option String
  | .posted _ approverId _ => some approverId
  | .recorded r => r.approverId

def Outcome.isPosted : Outcome → Bool
  | .posted _ _ _ => true
  | .recorded _ => false

/-- The trace of a queue that keeps its promises: each entry is posted at most once, has no records of both decisions, is
    not posted after its rejection, and is not decided by its submitter. -/
structure Proper (issued : List ApprovalRecord) (trace : List Outcome) : Prop where
  postedOnce : ∀ X, trace.countP (fun o => o.isPosted && o.id == X) ≤ 1
  oneDecision : ∀ r r', .recorded r ∈ trace → .recorded r' ∈ trace → r.id = r'.id → r.status = .approved →
    r'.status ≠ .rejected
  notAfterRejection : ∀ before X approverId entry after, trace = before ++ .posted X approverId entry :: after →
    ∀ r, .recorded r ∈ before → r.id = X → r.status ≠ .rejected
  notBySubmitter : ∀ r ∈ issued, ∀ o ∈ trace, o.id = r.id → o.decider ≠ some r.submitterId

/-- How far the decision on an entry has come. -/
inductive Fate where
  | fresh
  | posted
  | approved
  | rejected
  | broken
  deriving DecidableEq

def Fate.next : Fate → Outcome → Fate
  | .fresh, .posted _ _ _ => .posted
  | .fresh, .recorded r => if r.status = .rejected then .rejected else .broken
  | .posted, .recorded r => if r.status = .approved then .approved else .broken
  | _, _ => .broken

def fate (X : Uuid) (trace : List Outcome) : Fate := (trace.filter (·.id == X)).foldl Fate.next .fresh

theorem fate_append_same (trace : List Outcome) {o : Outcome} (h : o.id = X) :
    fate X (trace ++ [o]) = (fate X trace).next o := by
  simp [fate, h]

theorem fate_append_other (trace : List Outcome) {o : Outcome} (h : o.id ≠ X) :
    fate X (trace ++ [o]) = fate X trace := by
  simp [fate, h]

theorem foldl_broken (os : List Outcome) : os.foldl Fate.next .broken = .broken := by
  induction os with
  | nil => rfl
  | cons o os ih => exact ih

/-- The outcomes of one entry, if they are in order. -/
inductive Shape : List Outcome → Prop where
  | none : Shape []
  | posted (X : Uuid) (approverId : String) (entry : List UInt8) : Shape [.posted X approverId entry]
  | approved (X : Uuid) (approverId : String) (entry : List UInt8) (r : ApprovalRecord) (h : r.status = .approved) :
      Shape [.posted X approverId entry, .recorded r]
  | rejected (r : ApprovalRecord) (h : r.status = .rejected) : Shape [.recorded r]

theorem shape_of_fold {os : List Outcome} (h : os.foldl Fate.next .fresh ≠ .broken) : Shape os := by
  match os with
  | [] => exact .none
  | .posted X a e :: rest =>
    match rest with
    | [] => exact .posted X a e
    | .posted X' a' e' :: rest' => exact absurd (foldl_broken rest') h
    | .recorded r :: rest' =>
      by_cases hstatus : r.status = .approved
      · simp only [foldl_cons, Fate.next, hstatus, if_true] at h
        match rest' with
        | [] => exact .approved X a e r hstatus
        | o :: rest'' =>
          rw [foldl_cons, show Fate.next .approved o = .broken by cases o <;> rfl, foldl_broken] at h
          exact absurd rfl h
      · simp only [foldl_cons, Fate.next, if_neg hstatus, foldl_broken] at h
        exact absurd rfl h
  | .recorded r :: rest =>
    by_cases hstatus : r.status = .rejected
    · simp only [foldl_cons, Fate.next, hstatus, if_true] at h
      match rest with
      | [] => exact .rejected r hstatus
      | o :: rest' =>
        rw [foldl_cons, show Fate.next .rejected o = .broken by cases o <;> rfl, foldl_broken] at h
        exact absurd rfl h
    · simp only [foldl_cons, Fate.next, if_neg hstatus, foldl_broken] at h
      exact absurd rfl h

theorem shape_of_fate {trace : List Outcome} (h : fate X trace ≠ .broken) :
    Shape (trace.filter (·.id == X)) := shape_of_fold h

section Unbroken
variable {trace : List Outcome} (h : ∀ X, fate X trace ≠ .broken)
include h

theorem posted_once (X : Uuid) : trace.countP (fun o => o.isPosted && o.id == X) ≤ 1 := by
  have hcount : trace.countP (fun o => o.isPosted && o.id == X) = (trace.filter (·.id == X)).countP Outcome.isPosted :=
    (countP_filter ..).symm
  have hshape := shape_of_fate (h X)
  rw [hcount]
  generalize trace.filter (·.id == X) = os at hshape
  cases hshape <;> simp [countP_cons, Outcome.isPosted]

theorem one_decision {r r' : ApprovalRecord} (hr : .recorded r ∈ trace) (hr' : .recorded r' ∈ trace)
    (hid : r.id = r'.id) (happroved : r.status = .approved) : r'.status ≠ .rejected := by
  have hmem : .recorded r ∈ trace.filter (·.id == r.id) := mem_filter.2 ⟨hr, beq_self_eq_true _⟩
  have hmem' : .recorded r' ∈ trace.filter (·.id == r.id) := mem_filter.2 ⟨hr', beq_iff_eq.2 hid.symm⟩
  have hshape := shape_of_fate (h r.id)
  generalize trace.filter (·.id == r.id) = os at hmem hmem' hshape
  -- There is at most one record among the outcomes of an entry.
  cases hshape with
  | none => cases hmem
  | posted => simp at hmem
  | approved X a e s hs =>
    have heq : r' = s := by simpa using hmem'
    rw [heq, hs]
    nofun
  | rejected s hs =>
    have heq : r = s := by simpa using hmem
    rw [heq, hs] at happroved
    cases happroved

theorem not_after_rejection {before after : List Outcome} {approverId : String} {entry : List UInt8}
    (htrace : trace = before ++ .posted X approverId entry :: after) (hr : .recorded r ∈ before)
    (hid : r.id = X) : False := by
  have hmem : .recorded r ∈ before.filter (·.id == X) := mem_filter.2 ⟨hr, beq_iff_eq.2 hid⟩
  have hshape := shape_of_fate (h X)
  have hfilter : trace.filter (·.id == X) =
      before.filter (·.id == X) ++ .posted X approverId entry :: after.filter (·.id == X) := by
    rw [htrace]
    simp [Outcome.id]
  rw [hfilter] at hshape
  obtain ⟨o, os, hos⟩ := exists_cons_of_ne_nil (ne_nil_of_mem hmem)
  rw [hos] at hmem hshape
  -- A posting is the first outcome of its entry.
  cases os with
  | nil =>
    obtain rfl := mem_singleton.1 hmem
    cases hshape
  | cons o' os =>
    cases os with
    | nil | cons => cases hshape

end Unbroken

/-! ### Submitters -/

def Request.decides : Request → Option Uuid
  | .submit _ _ _ _ _ _ => none
  | .approve id _ _ => some id
  | .reject id _ _ _ => some id

def Request.approver : Request → Option String
  | .submit _ _ _ _ _ _ => none
  | .approve _ approverId _ => some approverId
  | .reject _ approverId _ _ => some approverId

def Request.status : Request → ApprovalStatus
  | .submit _ _ _ _ _ _ => .pending
  | .approve _ _ _ => .approved
  | .reject _ _ _ _ => .rejected

def Pc.found : Pc → Option ApprovalRecord
  | .posting r _ => some r
  | _ => none

def Pc.record : Pc → Option ApprovalRecord
  | .seeking r | .making r | .opening r | .recording r _ | .ending r _ | .inserting r | .reading r | .creating r _
  | .writing r _ | .replacing r | .forgetting r => some r
  | .checking | .getting | .posting _ _ | .done _ => none

/-- The call has opened the pending file to write to it, or has read it to replace it. -/
def Pc.hasPending : Pc → Bool
  | .recording r _ | .ending r _ => r.status == .pending
  | .creating _ _ | .writing _ _ | .replacing _ => true
  | _ => false

def Pc.kept : Pc → List (List Piece)
  | .creating _ kept | .writing _ kept => kept
  | _ => []

namespace FourEyesQueue

variable {q q' : FourEyesQueue} {index : Index} {request : Request} {pc pc' : Pc} {r : ApprovalRecord} {X : Uuid} {ev : QueueEvent} {opened : Nat}

/-- The record is that of a submission. -/
def Known (issued : List ApprovalRecord) (r : ApprovalRecord) : Prop :=
  ∃ r₀ ∈ issued, r₀.id = r.id ∧ r₀.submitterId = r.submitterId

/-- A record that a call has looked up: it is about the right id, and of another submitter than the user of the call. -/
structure Found (issued : List ApprovalRecord) (request : Request) (r : ApprovalRecord) : Prop where
  known : Known issued r
  id : ∀ X, request.decides = some X → r.id = X
  other : ∀ a, request.approver = some a → r.submitterId ≠ a

/-- The records that a call has at hand are those it may have. -/
structure Holding (issued : List ApprovalRecord) (request : Request) (pc : Pc) : Prop where
  found : ∀ r, pc.found = some r → Found issued request r
  record : ∀ r, pc.record = some r → Found issued request r ∧ r.status = request.status ∧ r.approverId = request.approver
  kept : ∀ r ∈ TextFile.records ⟨pc.kept, []⟩, Known issued r

/-- Every record anywhere is that of a submission, and nothing was decided by a submitter. -/
structure Attributed (q : FourEyesQueue) : Prop where
  distinct : (q.issued.map (·.id)).Nodup
  pending : ∀ r ∈ q.pendingFile.records, Known q.issued r
  tmp : ∀ f, q.tmpFile = some f → ∀ r ∈ f.records, Known q.issued r
  index : ∀ m, q.index = some m → ∀ X r, m X = some r → r.id = X ∧ Known q.issued r
  calls : ∀ c ∈ q.calls, Holding q.issued c.request c.pc
  trace : ∀ o ∈ q.trace, ∃ r ∈ q.issued, r.id = o.id ∧ o.decider ≠ some r.submitterId

theorem holding_of_none {issued : List ApprovalRecord} (hfound : pc.found = none) (hrecord : pc.record = none)
    (hkept : pc.kept = []) : Holding issued request pc := by
  refine ⟨?_, ?_, ?_⟩
  · intro r hr
    rw [hfound] at hr
    cases hr
  · intro r hr
    rw [hrecord] at hr
    cases hr
  · rw [hkept]
    exact fun r hr => absurd hr TextFile.mem_records_empty

theorem holding_done (issued : List ApprovalRecord) (request : Request) (result : Except FourEyesError ApprovalRecord) :
    Holding issued request (.done result) := holding_of_none rfl rfl rfl

theorem Holding.go {issued : List ApprovalRecord} (h : Holding issued request pc) (hr : pc.record = some r)
    (hrecord : pc'.record = some r) (hfound : pc'.found = none)
    (hkept : ∀ r ∈ TextFile.records ⟨pc'.kept, []⟩, Known issued r) : Holding issued request pc' := by
  refine ⟨?_, ?_, hkept⟩
  · intro r' hr'
    rw [hfound] at hr'
    cases hr'
  · rw [hrecord]
    rintro r ⟨⟩
    exact h.record _ hr

theorem getPending_ok {id : Uuid} (h : getPending index id = .ok r) : index id = some r := by
  unfold getPending at h
  split at h
  · next r' hr' =>
    rw [hr', Except.ok.inj h]
  · cases h

theorem checkApprover_ok {approverId : String} {u : Unit} (h : checkApprover r approverId = .ok u) :
    r.submitterId ≠ approverId := by
  unfold checkApprover at h
  split at h
  · cases h
  · assumption

theorem afterGetting_ok (h : afterGetting index request = .ok pc) :
    (∃ id approverId now r entry, request = .approve id approverId now ∧ index id = some r ∧
        r.submitterId ≠ approverId ∧ pc = .posting r entry) ∨
      ∃ id approverId reason now r, request = .reject id approverId reason now ∧ index id = some r ∧
        r.submitterId ≠ approverId ∧ pc = .seeking (rejectedRecord r approverId reason now) := by
  cases request with
  | submit => cases h
  | approve id approverId now =>
    obtain ⟨r, hr, h⟩ := Except.bind_eq_ok.1 h
    obtain ⟨_, happrover, h⟩ := Except.bind_eq_ok.1 h
    obtain ⟨entry, -, h⟩ := Except.bind_eq_ok.1 h
    exact .inl ⟨id, approverId, now, r, entry, rfl, getPending_ok hr, checkApprover_ok happrover, (Except.ok.inj h).symm⟩
  | reject id approverId reason now =>
    obtain ⟨r, hr, h⟩ := Except.bind_eq_ok.1 h
    obtain ⟨_, happrover, h⟩ := Except.bind_eq_ok.1 h
    exact .inr ⟨id, approverId, reason, now, r, rfl, getPending_ok hr, checkApprover_ok happrover, (Except.ok.inj h).symm⟩

variable (q index request) in
/-- What a call does at each of its steps. -/
inductive Acted : Pc → FourEyesQueue → Pc → Prop where
  | absent : Acted .checking q .getting
  | present (r : ApprovalRecord) : Acted .checking q (.done (.ok r))
  | refused (e : FourEyesError) : Acted .getting q (.done (.error e))
  | toPost (id : Uuid) (approverId : String) (now : DateTime) (r : ApprovalRecord) (entry : List UInt8)
      (approve : request = .approve id approverId now) (found : index id = some r) (other : r.submitterId ≠ approverId) :
      Acted .getting q (.posting r entry)
  | toReject (id : Uuid) (approverId reason : String) (now : DateTime) (r : ApprovalRecord)
      (reject : request = .reject id approverId reason now) (found : index id = some r)
      (other : r.submitterId ≠ approverId) :
      Acted .getting q (.seeking (rejectedRecord r approverId reason now))
  | sought (r : ApprovalRecord) : Acted (.seeking r) q (.opening r)
  | missed (r : ApprovalRecord) : Acted (.seeking r) q (.making r)
  | made (r : ApprovalRecord) : Acted (.making r) (q.create r.status) (.opening r)
  | opened (r : ApprovalRecord) : Acted (.opening r) (q.setPresent r.status) (.recording r q.replaced)
  | recorded (r : ApprovalRecord) (opened : Nat) :
      Acted (.recording r opened) (q.record r opened) (.ending r opened)
  | submitted (r : ApprovalRecord) (opened : Nat) (pending : r.status = .pending) :
      Acted (.ending r opened) (q.writeTo .pending opened (·.writeNewline)) (.inserting r)
  | decided (r : ApprovalRecord) (opened : Nat) (decided : r.status ≠ .pending) (q' : FourEyesQueue)
      (file : q' = q.writeTo r.status opened (·.writeNewline)) : Acted (.ending r opened) q' (.reading r)
  | inserted (r : ApprovalRecord) :
      Acted (.inserting r) { q with index := some (Function.update index r.id (some r)) } (.done (.ok r))
  | read (r : ApprovalRecord) (present : q.present .pending = true) :
      Acted (.reading r) q (.creating r (q.pendingFile.linesWithout r.id))
  | unread (r : ApprovalRecord) (absent : q.present .pending = false) : Acted (.reading r) q (.forgetting r)
  | created (r : ApprovalRecord) (kept : List (List Piece)) :
      Acted (.creating r kept) { q with tmpFile := some .empty } (.writing r kept)
  | wrote (r : ApprovalRecord) (kept : List (List Piece)) :
      Acted (.writing r kept) { q with tmpFile := some ⟨kept, []⟩ } (.replacing r)
  | writeGone (r : ApprovalRecord) (kept : List (List Piece)) (gone : q.tmpFile = none) :
      Acted (.writing r kept) q (.done (.error .io))
  | renamed (r : ApprovalRecord) (f : TextFile) (tmp : q.tmpFile = some f) :
      Acted (.replacing r) { q with pendingFile := f, tmpFile := none, replaced := q.replaced + 1 }
        (.forgetting r)
  | renameGone (r : ApprovalRecord) (gone : q.tmpFile = none) : Acted (.replacing r) q (.done (.error .io))
  | forgot (r : ApprovalRecord) :
      Acted (.forgetting r) { q with index := some (Function.update index r.id none) } (.done (.ok r))

theorem act_cases (h : q.act index request pc = some (q', pc')) : Acted q index request pc q' pc' := by
  cases pc with
  | checking =>
    simp only [act] at h
    split at h
    · split at h
      · cases h
        exact .present _
      · cases h
        exact .absent
    · cases h
  | getting =>
    simp only [act] at h
    split at h
    · next pc hafter =>
      cases h
      rcases afterGetting_ok hafter with
        ⟨id, a, now, r, entry, hreq, hr, ha, rfl⟩ | ⟨id, a, reason, now, r, hreq, hr, ha, rfl⟩
      · exact .toPost id a now r entry hreq hr ha
      · exact .toReject id a reason now r hreq hr ha
    · cases h
      exact .refused _
  | posting => cases h
  | seeking r =>
    cases h
    split
    · exact .sought r
    · exact .missed r
  | making r =>
    cases h
    exact .made r
  | opening r =>
    cases h
    exact .opened r
  | recording r opened =>
    cases h
    exact .recorded r opened
  | ending r opened =>
    cases h
    by_cases hpending : r.status = .pending
    · simp only [hpending]
      exact .submitted r opened hpending
    · simp only [hpending]
      exact .decided r opened hpending _ rfl
  | inserting r =>
    cases h
    exact .inserted r
  | reading r =>
    cases h
    split
    · next hpresent => exact .read r hpresent
    · next habsent => exact .unread r (Bool.eq_false_iff.2 habsent)
  | creating r kept =>
    cases h
    exact .created r kept
  | writing r kept =>
    simp only [act] at h
    split at h
    · cases h
      exact .wrote r kept
    · next hgone =>
      cases h
      exact .writeGone r kept hgone
  | replacing r =>
    simp only [act] at h
    split at h
    · next f hf =>
      cases h
      exact .renamed r f hf
    · next hgone =>
      cases h
      exact .renameGone r hgone
  | forgetting r =>
    cases h
    exact .forgot r
  | done => cases h

theorem post_cases {result : Except String Unit} (h : q.post request result pc = some (q', pc')) :
    (∃ r entry e, pc = .posting r entry ∧ q' = q ∧ pc' = .done (.error e)) ∨
      ∃ id approverId now r entry, request = .approve id approverId now ∧ pc = .posting r entry ∧
        q' = { q with trace := q.trace ++ [.posted id approverId entry] } ∧
        pc' = .seeking (approvedRecord r approverId now) := by
  cases pc with
  | posting r entry =>
    simp only [post] at h
    split at h
    · cases h
      exact .inr ⟨_, _, _, r, entry, rfl, rfl, rfl, rfl⟩
    · cases h
      exact .inl ⟨r, entry, _, rfl, rfl, rfl⟩
    · cases h
  | _ => cases h

/-- What a failed action leaves: only the file that was written to has changed, and has no record more. -/
theorem failAt_cases {partly : Bool} (h : q.failAt partly pc = some q') :
    (∃ r opened file, pc = .recording r opened ∧ q' = q.writeTo r.status opened file ∧
        ∀ f r, r ∈ (file f).records → r ∈ f.records) ∨
      (∃ r kept tmp, pc = .writing r kept ∧ q' = { q with tmpFile := tmp } ∧
        ∀ f ∈ tmp, f.records = [] ∨ q.tmpFile = some f) ∨
      (q' = q ∧ ∀ r opened, pc ≠ .recording r opened) := by
  cases pc with
  | recording r opened =>
    refine .inl ⟨r, opened, if partly then (·.write .part) else id, rfl, ?_, ?_⟩
    · cases partly with
      | true => exact (Option.some.inj h).symm
      | false =>
        rw [← Option.some.inj h]
        simp only [Bool.false_eq_true, writeTo]
        cases hs : r.status <;> simp [changeFile]
    · intro f r hr
      cases partly with
      | true => exact (TextFile.mem_records_write hr).resolve_right nofun
      | false => exact hr
  | writing r kept =>
    refine .inr (.inl ⟨r, kept, if partly then q.tmpFile.map fun _ => ⟨[], [.part]⟩ else q.tmpFile, rfl, ?_, ?_⟩)
    · cases partly with
      | true | false => exact (Option.some.inj h).symm
    · intro f hf
      cases partly with
      | true =>
        left
        obtain ⟨f', -, rfl⟩ := Option.map_eq_some_iff.1 hf
        rfl
      | false => exact .inr hf
  | getting | posting r entry | seeking r | inserting r | forgetting r | done result => cases h
  | checking | making r | opening r | ending r opened | reading r | creating r kept | replacing r =>
    exact .inr (.inr ⟨(Option.some.inj h).symm, fun _ _ hpc => nomatch hpc⟩)

/-- What each event does to the queue. -/
inductive Stepped (q : FourEyesQueue) : QueueEvent → FourEyesQueue → Prop where
  | opened (closed : q.index = none) : Stepped q .openQueue { q with index := some (loadPending q.pendingFile) }
  | began (request : Request) (q' : FourEyesQueue) (running : q.index ≠ none) (h : q.begin request = some q') :
      Stepped q (.call request) q'
  | acted (index : Index) (n : Nat) (c : Call) (q' : FourEyesQueue) (pc : Pc) (running : q.index = some index)
      (call : q.calls[n]? = some c) (acted : Acted q index c.request c.pc q' pc) :
      Stepped q (.step n) (q'.setPc n c.request pc)
  | posted (n : Nat) (result : Except String Unit) (c : Call) (q' : FourEyesQueue) (pc : Pc) (running : q.index ≠ none)
      (call : q.calls[n]? = some c) (h : q.post c.request result c.pc = some (q', pc)) :
      Stepped q (.post n result) (q'.setPc n c.request pc)
  | failed (n : Nat) (partly : Bool) (c : Call) (q' : FourEyesQueue) (running : q.index ≠ none)
      (call : q.calls[n]? = some c) (h : q.failAt partly c.pc = some q') :
      Stepped q (.fail n partly) (q'.setPc n c.request (.done (.error .io)))
  | crashed : Stepped q .crash { q with index := none, calls := [] }

theorem step_cases (h : q.step ev = some q') : Stepped q ev q' := by
  unfold step at h
  split at h
  · next hclosed =>
    cases h
    exact .opened hclosed
  · next hrunning => exact .began _ _ (by rw [hrunning]; nofun) h
  · next index n hrunning =>
    obtain ⟨c, hc, h⟩ := Option.bind_eq_some_iff.1 h
    obtain ⟨⟨q₁, pc⟩, hact, h⟩ := Option.bind_eq_some_iff.1 h
    cases h
    exact .acted index n c q₁ pc hrunning hc (act_cases hact)
  · next n result hrunning =>
    obtain ⟨c, hc, h⟩ := Option.bind_eq_some_iff.1 h
    obtain ⟨⟨q₁, pc⟩, hpost, h⟩ := Option.bind_eq_some_iff.1 h
    cases h
    exact .posted n result c q₁ pc (by rw [hrunning]; nofun) hc hpost
  · next n partly hrunning =>
    obtain ⟨c, hc, h⟩ := Option.bind_eq_some_iff.1 h
    obtain ⟨q₁, hfail, h⟩ := Option.bind_eq_some_iff.1 h
    cases h
    exact .failed n partly c q₁ (by rw [hrunning]; nofun) hc hfail
  · cases h
    exact .crashed
  · cases h

/-- What is written through a file that was opened before the pending file was replaced is not read again. -/
theorem writeTo_pending (q : FourEyesQueue) (opened : Nat) (file : TextFile → TextFile) : q.writeTo .pending opened file =
    { q with pendingFile := if opened = q.replaced then file q.pendingFile else q.pendingFile } := by
  by_cases hopened : opened = q.replaced
  · simp [writeTo, hopened, changeFile]
  · simp [writeTo, hopened]

theorem writeTo_decided {status : ApprovalStatus} (h : status ≠ .pending) {file : TextFile → TextFile}
    (hwrite : q' = q.writeTo status opened file) : ∃ approvedFile rejectedFile,
      q' = { q with approvedFile := approvedFile, rejectedFile := rejectedFile } := by
  cases status with
  | pending => exact absurd rfl h
  | approved | rejected => exact ⟨_, _, hwrite⟩

theorem record_pending (h : r.status = .pending) (q : FourEyesQueue) (opened : Nat) : q.record r opened =
    { q with pendingFile := if opened = q.replaced then q.pendingFile.write (.text r) else q.pendingFile } := by
  simp only [FourEyesQueue.record, h, writeTo_pending, if_true]

theorem record_decided (h : r.status ≠ .pending) (q : FourEyesQueue) (opened : Nat) :
    ∃ approvedFile rejectedFile, q.record r opened =
      { q with approvedFile := approvedFile, rejectedFile := rejectedFile, trace := q.trace ++ [.recorded r] } := by
  obtain ⟨approvedFile, rejectedFile, hwrite⟩ := writeTo_decided h (rfl : _ = q.writeTo r.status opened (·.write (.text r)))
  refine ⟨approvedFile, rejectedFile, ?_⟩
  simp only [FourEyesQueue.record, hwrite, h, if_false]

theorem create_eq (q : FourEyesQueue) (status : ApprovalStatus) : q.create status = { q with
      pendingFile := if status = .pending then .empty else q.pendingFile
      approvedFile := if status = .approved then .empty else q.approvedFile
      rejectedFile := if status = .rejected then .empty else q.rejectedFile
      present := update q.present status true } := by
  cases status <;> rfl

theorem Attributed.setPc (h : q.Attributed) (n : Nat) (hpc : Holding q.issued request pc) :
    (q.setPc n request pc).Attributed := by
  refine ⟨h.distinct, h.pending, h.tmp, h.index, ?_, h.trace⟩
  intro c hc
  rcases mem_or_eq_of_mem_set hc with hold | rfl
  · exact h.calls c hold
  · exact hpc

theorem mem_records_written {opened replaced : Nat} (file : TextFile → TextFile) {f : TextFile}
    (hr : r ∈ (if opened = replaced then file f else f).records) : r ∈ f.records ∨ r ∈ (file f).records := by
  split at hr
  · exact .inr hr
  · exact .inl hr

section
variable (h : q.Attributed)
include h

theorem Attributed.record (hpc : Holding q.issued request (.recording r opened)) :
    (q.record r opened).Attributed := by
  obtain ⟨⟨⟨r₀, hr₀, hid, hsubmitter⟩, -, hother⟩, hstatus, happrover⟩ := hpc.record r rfl
  by_cases hpending : r.status = .pending
  · rw [record_pending hpending]
    refine ⟨h.distinct, ?_, h.tmp, h.index, h.calls, h.trace⟩
    intro r' hr'
    rcases mem_records_written (·.write (.text r)) hr' with hold | hnew
    · exact h.pending r' hold
    rcases TextFile.mem_records_write hnew with hold | heq
    · exact h.pending r' hold
    · obtain rfl := Piece.text.inj heq
      exact ⟨r₀, hr₀, hid, hsubmitter⟩
  · obtain ⟨approvedFile, rejectedFile, hrecord⟩ := record_decided hpending q opened
    rw [hrecord]
    refine ⟨h.distinct, h.pending, h.tmp, h.index, h.calls, ?_⟩
    intro o ho
    rcases mem_append.1 ho with hold | hnew
    · exact h.trace o hold
    · obtain rfl := mem_singleton.1 hnew
      refine ⟨r₀, hr₀, hid, fun hdecider => ?_⟩
      have hsame : r.approverId = some r₀.submitterId := hdecider
      rw [happrover] at hsame
      exact hother _ hsame hsubmitter.symm

theorem Attributed.index_update (running : q.index = some index) {v : Option ApprovalRecord}
    (hv : ∀ r' ∈ v, r'.id = r.id ∧ Known q.issued r') :
    ∀ m, some (update index r.id v) = some m → ∀ X r', m X = some r' → r'.id = X ∧ Known q.issued r' := by
  rintro m ⟨⟩ X r' hr'
  by_cases hX : X = r.id
  · subst hX
    rw [update_self] at hr'
    exact hv r' hr'
  · rw [update_of_ne hX] at hr'
    exact h.index index running X r' hr'

theorem Attributed.acted (running : q.index = some index) {c : Call} (hc : c ∈ q.calls)
    (hacted : Acted q index c.request c.pc q' pc') : q'.Attributed ∧ Holding q'.issued c.request pc' := by
  have hpc := h.calls c hc
  generalize c.request = request at hacted hpc
  generalize c.pc = pc at hacted hpc
  have hnone : ∀ r ∈ TextFile.records ⟨[], []⟩, Known q.issued r := fun r hr => absurd hr TextFile.mem_records_empty
  cases hacted with
  | absent => exact ⟨h, holding_of_none rfl rfl rfl⟩
  | present | refused | writeGone | renameGone => exact ⟨h, holding_done ..⟩
  | toPost id approverId now r entry approve found other =>
    obtain ⟨hid, hknown⟩ := h.index index running id r found
    subst approve
    refine ⟨h, ?_, (fun _ hr => nomatch hr), hnone⟩
    rintro r ⟨⟩
    refine ⟨hknown, ?_, ?_⟩
    · rintro X ⟨⟩
      exact hid
    · rintro a ⟨⟩
      exact other
  | toReject id approverId reason now r reject found other =>
    obtain ⟨hid, hknown⟩ := h.index index running id r found
    subst reject
    refine ⟨h, (fun _ hr => nomatch hr), ?_, hnone⟩
    rintro _ ⟨⟩
    refine ⟨⟨hknown, ?_, ?_⟩, rfl, rfl⟩
    · rintro X ⟨⟩
      exact hid
    · rintro a ⟨⟩
      exact other
  | sought | missed | unread => exact ⟨h, hpc.go rfl rfl rfl hnone⟩
  | made =>
    rw [create_eq]
    refine ⟨⟨h.distinct, ?_, h.tmp, h.index, h.calls, h.trace⟩, hpc.go rfl rfl rfl hnone⟩
    exact fun r' hr' => h.pending r' (TextFile.mem_records_created hr')
  | opened => exact ⟨⟨h.distinct, h.pending, h.tmp, h.index, h.calls, h.trace⟩, hpc.go rfl rfl rfl hnone⟩
  | recorded r opened =>
    have hissued : (q.record r opened).issued = q.issued := by
      by_cases hpending : r.status = .pending
      · rw [record_pending hpending]
      · obtain ⟨approvedFile, rejectedFile, hrecord⟩ := record_decided hpending q opened
        rw [hrecord]
    refine ⟨h.record hpc, ?_⟩
    rw [hissued]
    exact hpc.go rfl rfl rfl hnone
  | submitted =>
    rw [writeTo_pending]
    refine ⟨⟨h.distinct, ?_, h.tmp, h.index, h.calls, h.trace⟩, hpc.go rfl rfl rfl hnone⟩
    intro r' hr'
    rcases mem_records_written (·.writeNewline) hr' with hold | hnew
    · exact h.pending r' hold
    · exact h.pending r' (TextFile.records_writeNewline q.pendingFile ▸ hnew)
  | decided r opened decided q' file =>
    obtain ⟨approvedFile, rejectedFile, rfl⟩ := writeTo_decided decided file
    exact ⟨⟨h.distinct, h.pending, h.tmp, h.index, h.calls, h.trace⟩, hpc.go rfl rfl rfl hnone⟩
  | inserted r =>
    refine ⟨⟨h.distinct, h.pending, h.tmp, h.index_update running ?_, h.calls, h.trace⟩, holding_done ..⟩
    rintro _ ⟨⟩
    exact ⟨rfl, (hpc.record r rfl).1.known⟩
  | read =>
    exact ⟨h, hpc.go rfl rfl rfl fun r' hr' => h.pending r' (TextFile.mem_records_linesWithout hr').1⟩
  | created r =>
    refine ⟨⟨h.distinct, h.pending, ?_, h.index, h.calls, h.trace⟩, hpc.go rfl rfl rfl hpc.kept⟩
    rintro f ⟨⟩ r hr
    exact absurd hr TextFile.mem_records_empty
  | wrote =>
    refine ⟨⟨h.distinct, h.pending, ?_, h.index, h.calls, h.trace⟩, hpc.go rfl rfl rfl hnone⟩
    rintro f ⟨⟩
    exact hpc.kept
  | renamed r f tmp =>
    exact ⟨⟨h.distinct, h.tmp f tmp, (fun _ hf => nomatch hf), h.index, h.calls, h.trace⟩, hpc.go rfl rfl rfl hnone⟩
  | forgot =>
    exact ⟨⟨h.distinct, h.pending, h.tmp, h.index_update running (by simp), h.calls, h.trace⟩, holding_done ..⟩

theorem Attributed.posted {c : Call} (hc : c ∈ q.calls) {result : Except String Unit}
    (hpost : q.post c.request result c.pc = some (q', pc')) : q'.Attributed ∧ Holding q'.issued c.request pc' := by
  have hpc := h.calls c hc
  rcases post_cases hpost with ⟨-, -, e, -, rfl, rfl⟩ | ⟨id, approverId, now, r, entry, hreq, hposting, rfl, rfl⟩
  · exact ⟨h, holding_done ..⟩
  · rw [hposting] at hpc
    rw [hreq] at hpc ⊢
    obtain ⟨⟨r₀, hr₀, hid, hsubmitter⟩, hX, hother⟩ := hpc.found r rfl
    refine ⟨⟨h.distinct, h.pending, h.tmp, h.index, h.calls, ?_⟩, (fun _ hr => nomatch hr), ?_, ?_⟩
    · intro o ho
      rcases mem_append.1 ho with hold | hnew
      · exact h.trace o hold
      · obtain rfl := mem_singleton.1 hnew
        refine ⟨r₀, hr₀, hid.trans (hX id rfl), fun hdecider => ?_⟩
        exact hother approverId rfl (hsubmitter.symm.trans (Option.some.inj hdecider).symm)
    · rintro _ ⟨⟩
      exact ⟨⟨⟨r₀, hr₀, hid, hsubmitter⟩, hX, hother⟩, rfl, rfl⟩
    · exact fun r hr => absurd hr TextFile.mem_records_empty

theorem Attributed.failed {partly : Bool} (hfail : q.failAt partly pc = some q') : q'.Attributed := by
  rcases failAt_cases hfail with ⟨r, opened, file, -, rfl, hfile⟩ | ⟨r, kept, tmp, -, rfl, htmp⟩ | ⟨rfl, -⟩
  · by_cases hpending : r.status = .pending
    · rw [hpending, writeTo_pending]
      refine ⟨h.distinct, fun r hr => h.pending r ?_, h.tmp, h.index, h.calls, h.trace⟩
      exact (mem_records_written file hr).elim id (hfile _ r)
    · obtain ⟨approvedFile, rejectedFile, hwrite⟩ := writeTo_decided hpending (rfl : _ = q.writeTo r.status opened file)
      rw [hwrite]
      exact ⟨h.distinct, h.pending, h.tmp, h.index, h.calls, h.trace⟩
  · refine ⟨h.distinct, h.pending, ?_, h.index, h.calls, h.trace⟩
    intro f hf r hr
    rcases htmp f hf with hempty | hold
    · rw [hempty] at hr
      cases hr
    · exact h.tmp f hold r hr
  · exact h

theorem Attributed.begin (hbegin : q.begin request = some q') : q'.Attributed := by
  have hcall : ∀ {pc}, Holding q.issued request pc → Attributed { q with calls := q.calls ++ [⟨request, pc⟩] } := by
    intro pc hpc
    refine ⟨h.distinct, h.pending, h.tmp, h.index, ?_, h.trace⟩
    intro c hc
    rcases mem_append.1 hc with hold | hnew
    · exact h.calls c hold
    · obtain rfl := mem_singleton.1 hnew
      exact hpc
  cases request with
  | submit id entryBytes description domain submitterId now =>
    obtain ⟨hnew, ⟨⟩⟩ := Option.ite_none_left_eq_some.1 hbegin
    generalize hr : newRecord id entryBytes description domain submitterId now = r
    have hid : r.id = id := by rw [← hr]; rfl
    have hmore : ∀ r', Known q.issued r' → Known (q.issued ++ [r]) r' := by
      rintro r' ⟨r₀, hr₀, hsame⟩
      exact ⟨r₀, mem_append_left _ hr₀, hsame⟩
    have hself : Known (q.issued ++ [r]) r :=
      ⟨r, mem_append_right _ (mem_singleton_self r), rfl, rfl⟩
    refine ⟨?_, fun r hr => hmore r (h.pending r hr), fun f hf r hr => hmore r (h.tmp f hf r hr), ?_, ?_, ?_⟩
    · rw [map_append, map_singleton, hid]
      exact nodup_append.2 ⟨h.distinct, nodup_singleton _, by
        intro a ha b hb
        obtain rfl := mem_singleton.1 hb
        rintro rfl
        exact hnew ha⟩
    · intro m hm X r hX
      exact (h.index m hm X r hX).imp_right (hmore r)
    · intro c hc
      rcases mem_append.1 hc with hold | hlast
      · have hc := h.calls c hold
        refine ⟨?_, ?_, fun r hr => hmore r (hc.kept r hr)⟩
        · intro r hr
          obtain ⟨hknown, hX, hother⟩ := hc.found r hr
          exact ⟨hmore r hknown, hX, hother⟩
        · intro r hr
          obtain ⟨⟨hknown, hX, hother⟩, hstatus⟩ := hc.record r hr
          exact ⟨⟨hmore r hknown, hX, hother⟩, hstatus⟩
      · obtain rfl := mem_singleton.1 hlast
        refine ⟨(fun _ hr => nomatch hr), ?_, fun r hr => absurd hr TextFile.mem_records_empty⟩
        rintro _ ⟨⟩
        exact ⟨⟨hself, nofun, nofun⟩, by rw [← hr]; rfl, by rw [← hr]; rfl⟩
    · intro o ho
      obtain ⟨r₀, hr₀, hdecided⟩ := h.trace o ho
      exact ⟨r₀, mem_append_left _ hr₀, hdecided⟩
  | approve | reject =>
    cases hbegin
    exact hcall (holding_of_none rfl rfl rfl)

/-- An event keeps every record that of a submission. -/
theorem Attributed.step (hstep : q.step ev = some q') : q'.Attributed := by
  cases step_cases hstep with
  | opened =>
    refine ⟨h.distinct, h.pending, h.tmp, ?_, h.calls, h.trace⟩
    rintro m ⟨⟩ X r hr
    obtain ⟨hmem, hid⟩ := loadPending_some hr
    exact ⟨hid, h.pending r hmem⟩
  | began request q' running hbegin => exact h.begin hbegin
  | acted index n c q' pc running call acted =>
    obtain ⟨h', hpc⟩ := h.acted running (mem_of_getElem? call) acted
    exact h'.setPc n hpc
  | posted n result c q' pc running call hpost =>
    obtain ⟨h', hpc⟩ := h.posted (mem_of_getElem? call) hpost
    exact h'.setPc n hpc
  | failed n partly c q' running call hfail => exact (h.failed hfail).setPc n (holding_done ..)
  | crashed =>
    refine ⟨h.distinct, h.pending, h.tmp, ?_, ?_, h.trace⟩
    · intro m hm
      cases hm
    · intro c hc
      cases hc

end

theorem attributed_start : start.Attributed where
  distinct := nodup_nil
  pending _ hr := absurd hr TextFile.mem_records_empty
  tmp _ hf := by cases hf
  index _ hm := by cases hm
  calls _ hc := by cases hc
  trace _ ho := by cases ho

/-! ### The pending file -/

/-- A pending file that does not exist has no text, and no call has opened or read it. -/
structure Created (q : FourEyesQueue) : Prop where
  file : q.present .pending = false → q.pendingFile = .empty
  calls : ∀ c ∈ q.calls, c.pc.hasPending = true → q.present .pending = true

theorem Created.setPc (h : q.Created) {n : Nat} (hcalls : q'.calls = q.calls)
    (hpresent : q.present .pending = true → q'.present .pending = true)
    (hfile : q'.present .pending = false → q.pendingFile = .empty → q'.pendingFile = .empty)
    (hpc : pc'.hasPending = true → q'.present .pending = true) : (q'.setPc n request pc').Created := by
  refine ⟨fun habsent => hfile habsent (h.file ?_), ?_⟩
  · cases hp : q.present .pending with
    | false => rfl
    | true => exact absurd (hpresent hp) (Bool.eq_false_iff.1 habsent)
  · intro c hc hhas
    change c ∈ q'.calls.set n _ at hc
    rw [hcalls] at hc
    rcases mem_or_eq_of_mem_set hc with hold | rfl
    · exact hpresent (h.calls c hold hhas)
    · exact hpc hhas

theorem writeTo_present (q : FourEyesQueue) (status : ApprovalStatus) (opened : Nat) (file : TextFile → TextFile) :
    (q.writeTo status opened file).present = q.present ∧ (q.writeTo status opened file).calls = q.calls := by
  by_cases hpending : status = .pending
  · rw [hpending, writeTo_pending]
    exact ⟨rfl, rfl⟩
  · obtain ⟨approvedFile, rejectedFile, hwrite⟩ := writeTo_decided hpending (rfl : _ = q.writeTo status opened file)
    rw [hwrite]
    exact ⟨rfl, rfl⟩

theorem writeTo_pendingFile {status : ApprovalStatus} {file : TextFile → TextFile}
    (hopened : status = .pending → q.present .pending = true) (habsent : q.present .pending = false) :
    (q.writeTo status opened file).pendingFile = q.pendingFile := by
  obtain ⟨approvedFile, rejectedFile, hwrite⟩ := writeTo_decided (fun hpending => by
    rw [hopened hpending] at habsent
    cases habsent) (rfl : _ = q.writeTo status opened file)
  rw [hwrite]

theorem present_update {present : ApprovalStatus → Bool} (status : ApprovalStatus) (h : present .pending = true) :
    update present status true .pending = true := by
  by_cases hpending : status = .pending
  · rw [hpending, update_self]
  · rw [update_of_ne (Ne.symm hpending), h]

theorem Created.acted (h : q.Created) {c : Call} (hc : c ∈ q.calls) (hacted : Acted q index c.request c.pc q' pc') {n : Nat} :
    (q'.setPc n c.request pc').Created := by
  have hhas := h.calls c hc
  generalize c.pc = pc at hacted hhas
  cases hacted with
  | made r =>
    rw [create_eq]
    refine h.setPc rfl (present_update r.status) (fun habsent hfile => ?_) (by nofun)
    simp only [hfile, ite_self]
  | opened r =>
    refine h.setPc rfl (present_update r.status) (fun _ hfile => hfile) (fun hpc => ?_)
    have hpending : r.status = .pending := by simpa [Pc.hasPending] using hpc
    simp [setPresent, hpending]
  | recorded r opened =>
    obtain ⟨hpresent, hcalls⟩ := writeTo_present q r.status opened (·.write (.text r))
    have hopened : r.status = .pending → q.present .pending = true := fun hp => hhas (by simp [Pc.hasPending, hp])
    refine h.setPc hcalls (fun hp => hpresent ▸ hp) (fun habsent hfile => ?_) (fun hpc => ?_)
    · exact (writeTo_pendingFile hopened (hpresent ▸ habsent)).trans hfile
    · exact hpresent ▸ hopened (by simpa [Pc.hasPending] using hpc)
  | submitted r opened pending =>
    rw [writeTo_pending]
    refine h.setPc rfl id (fun habsent hfile => ?_) (by nofun)
    have hp := hhas (by simp [Pc.hasPending, pending])
    exact absurd hp (Bool.eq_false_iff.1 habsent)
  | decided r opened decided q' file =>
    obtain ⟨approvedFile, rejectedFile, rfl⟩ := writeTo_decided decided file
    exact h.setPc rfl id (fun _ hfile => hfile) (by nofun)
  | read r present => exact h.setPc rfl id (fun _ hfile => hfile) (fun _ => present)
  | created | wrote => exact h.setPc rfl id (fun _ hfile => hfile) (fun _ => hhas rfl)
  | renamed =>
    refine h.setPc rfl id (fun habsent _ => ?_) (by nofun)
    exact absurd (hhas rfl) (Bool.eq_false_iff.1 habsent)
  | _ => exact h.setPc rfl id (fun _ hfile => hfile) (by nofun)

theorem Created.step (h : q.Created) (hstep : q.step ev = some q') : q'.Created := by
  cases step_cases hstep with
  | opened => exact ⟨h.file, h.calls⟩
  | began request q' running hbegin =>
    have hcall : ∀ {pc issued}, pc.hasPending = false →
        Created { q with calls := q.calls ++ [⟨request, pc⟩], issued := issued } := by
      refine fun hpc => ⟨h.file, fun c hc hhas => ?_⟩
      rcases mem_append.1 hc with hold | hnew
      · exact h.calls c hold hhas
      · obtain rfl := mem_singleton.1 hnew
        rw [hpc] at hhas
        cases hhas
    cases request with
    | submit =>
      obtain ⟨-, ⟨⟩⟩ := Option.ite_none_left_eq_some.1 hbegin
      exact hcall rfl
    | approve | reject =>
      cases hbegin
      exact hcall rfl
  | acted index n c q' pc running call acted => exact h.acted (mem_of_getElem? call) acted
  | posted n result c q' pc running call hpost =>
    rcases post_cases hpost with ⟨r, entry, e, -, rfl, rfl⟩ | ⟨id, approverId, now, r, entry, -, -, rfl, rfl⟩
    · exact h.setPc rfl id (fun _ hfile => hfile) (by nofun)
    · exact h.setPc rfl (fun hp => hp) (fun _ hfile => hfile) (by nofun)
  | failed n partly c q' running call hfail =>
    have hhas := h.calls c (mem_of_getElem? call)
    rcases failAt_cases hfail with ⟨r, opened, file, hpc, rfl, -⟩ | ⟨r, kept, tmp, -, rfl, -⟩ | ⟨rfl, -⟩
    · obtain ⟨hpresent, hcalls⟩ := writeTo_present q r.status opened file
      refine h.setPc hcalls (fun hp => hpresent ▸ hp) (fun habsent hfile => ?_) (by nofun)
      refine (writeTo_pendingFile (fun hp => hhas ?_) (hpresent ▸ habsent)).trans hfile
      simp [hpc, Pc.hasPending, hp]
    · exact h.setPc rfl id (fun _ hfile => hfile) (by nofun)
    · exact h.setPc rfl id (fun _ hfile => hfile) (by nofun)
  | crashed => exact ⟨h.file, fun c hc => by cases hc⟩

end FourEyesQueue

end FourEyes

end VectorLedger
