import VectorLedger.Theorems.Decisions

/-! The pending file, when no call is under way: the entries that were submitted and are not decided. -/

namespace VectorLedger

open List

namespace FourEyes

/-! ### Files -/

namespace TextFile

variable {f : TextFile} {r : ApprovalRecord}

@[simp] theorem records_empty : empty.records = [] := rfl

theorem records_write (h : f.last = []) (r : ApprovalRecord) : (f.write (.text r)).records = f.records ++ [r] := by
  simp [records, allLines, write, h, parseLine]

theorem records_linesWithout (f : TextFile) (id : Uuid) :
    records ⟨f.linesWithout id, []⟩ = f.records.filter fun r => r.id ≠ id := by
  have hend : filterMap parseLine [[]] = [] := rfl
  rw [records, allLines, filterMap_append, hend, append_nil, linesWithout, filterMap_filter, records, filter_filterMap]
  refine filterMap_congr fun line _ => ?_
  cases hparse : parseLine line with
  | none => simp
  | some r =>
    have hline : line ≠ [] := by
      rintro rfl
      cases hparse
    by_cases hid : r.id = id <;> simp [hline, hid, Option.filter]

end TextFile

theorem loadPending_eq_some {f : TextFile} (h : f.ids.Nodup) {X : Uuid} {r : ApprovalRecord} :
    FourEyesQueue.loadPending f X = some r ↔ r ∈ f.records ∧ r.id = X := by
  refine ⟨loadPending_some, ?_⟩
  suffices hfold : ∀ (rs : List ApprovalRecord) (m : Index), (rs.map (·.id)).Nodup → r ∈ rs → r.id = X →
      rs.foldl (fun (index : Index) r => Function.update index r.id (some r)) m X = some r from
    fun ⟨hmem, hid⟩ => hfold f.records _ h hmem hid
  intro rs
  induction rs with
  | nil => exact fun m _ hmem => nomatch hmem
  | cons r' rs ih =>
    intro m hnodup hmem hid
    obtain ⟨hnot, hnodup⟩ := nodup_cons.1 hnodup
    rcases mem_cons.1 hmem with rfl | hmem
    · -- No later record replaces it.
      have hkeep : ∀ (rs : List ApprovalRecord) (m : Index), X ∉ rs.map (·.id) →
          rs.foldl (fun (index : Index) r => Function.update index r.id (some r)) m X = m X := by
        intro rs
        induction rs with
        | nil => exact fun m _ => rfl
        | cons r' rs ih =>
          intro m hX
          obtain ⟨hne, hX⟩ := not_or.1 (mt mem_cons.2 hX)
          exact (ih _ hX).trans (Function.update_of_ne hne _ _)
      rw [foldl_cons, hkeep rs _ (hid ▸ hnot), hid, Function.update_self]
    · exact ih _ hnodup hmem hid

/-! ### The invariant -/

def Pc.unwritten : Pc → Option ApprovalRecord
  | .seeking r | .making r | .opening r | .recording r _ => if r.status = .pending then some r else none
  | _ => none

/-- The record of a decision that is in its file, while the pending file may have the entry still. -/
def Pc.removing : Pc → Option ApprovalRecord
  | .ending r _ => if r.status = .pending then none else some r
  | .reading r | .creating r _ | .writing r _ | .replacing r => some r
  | _ => none

def Pc.over : Pc → Bool
  | .done _ => true
  | _ => false

def decided (trace : List Outcome) (X : Uuid) : Bool :=
  trace.any fun
    | .recorded r => r.id == X
    | .posted _ _ _ => false

theorem decided_iff {trace : List Outcome} {X : Uuid} : decided trace X = true ↔ ∃ r, .recorded r ∈ trace ∧ r.id = X := by
  rw [decided, any_eq_true]
  constructor
  · rintro ⟨o, ho, htest⟩
    cases o with
    | posted => cases htest
    | recorded r => exact ⟨r, ho, beq_iff_eq.1 htest⟩
  · rintro ⟨r, hr, hid⟩
    exact ⟨.recorded r, hr, beq_iff_eq.2 hid⟩

theorem decided_eq_false_of_fresh {trace : List Outcome} {X : Uuid} (h : fate X trace = .fresh) :
    decided trace X = false := by
  rw [Bool.eq_false_iff]
  intro hdecided
  obtain ⟨r, hr, hid⟩ := decided_iff.1 hdecided
  have hmem : .recorded r ∈ trace.filter (·.id == X) := mem_filter.2 ⟨hr, beq_iff_eq.2 hid⟩
  have hshape : Shape (trace.filter (·.id == X)) := shape_of_fate (by rw [h]; nofun)
  unfold fate at h
  generalize trace.filter (·.id == X) = os at h hmem hshape
  cases hshape with
  | none => cases hmem
  | posted => cases h
  | approved Y approverId entry s hs | rejected s hs => simp [Fate.next, hs] at h

namespace FourEyesQueue

open Slots

variable {q q' : FourEyesQueue} {index : Index} {request : Request} {pc pc' : Pc} {n : Nat} {r : ApprovalRecord}

/-- The copy that a call makes of the pending file is the file without the entry. -/
def Copied (q : FourEyesQueue) (pc : Pc) : Prop :=
  match pc with
  | .creating r kept => TextFile.records ⟨kept, []⟩ = q.pendingFile.records.filter fun r' => r'.id ≠ r.id
  | .writing r kept =>
    TextFile.records ⟨kept, []⟩ = (q.pendingFile.records.filter fun r' => r'.id ≠ r.id) ∧ q.tmpFile ≠ none
  | .replacing r => ∃ f, q.tmpFile = some f ∧ f.records = q.pendingFile.records.filter fun r' => r'.id ≠ r.id
  | _ => True

/-- The pending file has the entries that were submitted, apart from those that are not written yet, and those that are
    not decided, apart from those that a call is about to take out. -/
structure Listing (q : FourEyesQueue) : Prop where
  distinct : q.pendingFile.ids.Nodup
  issued : ∀ r ∈ q.pendingFile.records, r ∈ q.issued
  complete : ∀ r ∈ q.issued, decided q.trace r.id = false →
    r ∈ q.pendingFile.records ∨ ∃ c ∈ q.calls, c.pc.unwritten = some r
  removed : ∀ r ∈ q.pendingFile.records, decided q.trace r.id = true →
    ∃ c ∈ q.calls, ∃ r', c.pc.removing = some r' ∧ r'.id = r.id
  removing : ∀ c ∈ q.calls, ∀ r, c.pc.removing = some r → decided q.trace r.id = true
  unwritten : ∀ c ∈ q.calls, ∀ r, c.pc.unwritten = some r → r ∈ q.issued ∧ r.id ∉ q.pendingFile.ids
  rewriting : OneRewriting q.calls
  copied : ∀ c ∈ q.calls, q.Copied c.pc

theorem Copied.congr (h : q.Copied pc) (hrecords : q'.pendingFile.records = q.pendingFile.records)
    (htmp : q'.tmpFile = q.tmpFile ∨ pc.rewriting = false) : q'.Copied pc := by
  cases pc with
  | creating =>
    rw [Copied, hrecords]
    exact h
  | writing | replacing =>
    rw [Copied, hrecords, htmp.resolve_right nofun]
    exact h
  | _ => trivial

theorem copied_of_not_rewriting (h : pc.rewriting = false) : q.Copied pc := by
  cases pc with
  | creating | writing | replacing => cases h
  | _ => trivial

theorem ids_congr {f f' : TextFile} (h : f'.records = f.records) : f'.ids = f.ids := by
  rw [TextFile.ids, TextFile.ids, h]

section
variable (h : q.Listing) (hc : q.calls[n]? = some ⟨request, pc⟩) (hcalls : q'.calls = q.calls)
  (hissued : q'.issued = q.issued) (hrecords : q'.pendingFile.records = q.pendingFile.records)
include h hc hcalls hissued hrecords

theorem Listing.setPc (hold : ∀ X, decided q.trace X = true → decided q'.trace X = true)
    (hnew : ∀ X, decided q'.trace X = true → decided q.trace X = true ∨ ∃ r', pc'.removing = some r' ∧ r'.id = X)
    (htmp : q'.tmpFile = q.tmpFile ∨ pc.rewriting = true) (hunwritten : pc'.unwritten = pc.unwritten)
    (hremoving : ∀ r, pc.removing = some r → r.id ∈ q.pendingFile.ids → pc'.removing = some r)
    (hdecided : ∀ r, pc'.removing = some r → decided q'.trace r.id = true)
    (hrewriting : pc'.rewriting = true → ∀ i d, q.calls[i]? = some d → i ≠ n → d.pc.rewriting = false)
    (hcopied : q'.Copied pc') : (q'.setPc n request pc').Listing := by
  have hset := calls_setPc (n := n) hcalls request pc'
  have hids : q'.pendingFile.ids = q.pendingFile.ids := ids_congr hrecords
  have hmem := mem_of_getElem? hc
  have hself : (⟨request, pc'⟩ : Call) ∈ (q'.setPc n request pc').calls := hset ▸ mem_set_self hc _
  have hother : ∀ d ∈ q.calls, d ∈ (q'.setPc n request pc').calls ∨ d = ⟨request, pc⟩ :=
    fun d hd => hset ▸ mem_set_or hc _ hd
  refine ⟨hids ▸ h.distinct, ?_, ?_, ?_, ?_, ?_, ?_, ?_⟩
  · intro r hr
    exact hissued ▸ h.issued r (hrecords ▸ hr)
  · intro r hr hundecided
    change r ∈ q'.issued at hr
    change r ∈ q'.pendingFile.records ∨ _
    rw [hissued] at hr
    rw [hrecords]
    have hundecided₀ : decided q.trace r.id = false := by
      cases hd : decided q.trace r.id with
      | false => rfl
      | true => exact absurd (hold _ hd) (Bool.eq_false_iff.1 hundecided)
    refine (h.complete r hr hundecided₀).imp_right fun ⟨d, hd, hdr⟩ => ?_
    rcases hother d hd with hd' | rfl
    · exact ⟨d, hd', hdr⟩
    · exact ⟨_, hself, hunwritten.trans hdr⟩
  · intro r hr hdecided'
    change r ∈ q'.pendingFile.records at hr
    rw [hrecords] at hr
    rcases hnew r.id hdecided' with hbefore | ⟨r', hr', hid⟩
    · obtain ⟨d, hd, r', hr', hid⟩ := h.removed r hr hbefore
      rcases hother d hd with hd' | rfl
      · exact ⟨d, hd', r', hr', hid⟩
      · exact ⟨_, hself, r', hremoving r' hr' (hid ▸ mem_map_of_mem hr), hid⟩
    · exact ⟨_, hself, r', hr', hid⟩
  · intro d hd r hr
    rw [hset] at hd
    rcases mem_set_cases hd with rfl | ⟨i, -, hi⟩
    · exact hdecided r hr
    · exact hold _ (h.removing d (mem_of_getElem? hi) r hr)
  · intro d hd r hr
    rw [hset] at hd
    change r ∈ q'.issued ∧ r.id ∉ q'.pendingFile.ids
    rw [hissued, hids]
    rcases mem_set_cases hd with rfl | ⟨i, -, hi⟩
    · exact h.unwritten _ hmem r (hunwritten.symm.trans hr)
    · exact h.unwritten d (mem_of_getElem? hi) r hr
  · rw [hset]
    exact h.rewriting.set hrewriting
  · intro d hd
    rw [hset] at hd
    rcases mem_set_cases hd with rfl | ⟨i, hi, hid⟩
    · exact hcopied
    · refine (h.copied d (mem_of_getElem? hid)).congr hrecords (htmp.imp_right fun hway => ?_)
      exact h.rewriting.others hc hway i d hid hi

theorem Listing.go (htrace : q'.trace = q.trace) (htmp : q'.tmpFile = q.tmpFile)
    (hunwritten : pc'.unwritten = pc.unwritten) (hremoving : pc'.removing = pc.removing)
    (hrewriting : pc'.rewriting = false) : (q'.setPc n request pc').Listing := by
  refine h.setPc hc hcalls hissued hrecords (fun X => htrace ▸ id) (fun X hX => .inl (htrace ▸ hX)) (.inl htmp)
    hunwritten (fun r hr _ => hremoving.trans hr) (fun r hr => ?_) (fun hway => ?_) (copied_of_not_rewriting hrewriting)
  · rw [htrace]
    exact h.removing _ (mem_of_getElem? hc) r (hremoving.symm.trans hr)
  · rw [hrewriting] at hway
    cases hway

end

theorem Ground.submits_of_unwritten (hg : q.Ground) {c : Call} (hc : c ∈ q.calls) (h : c.pc.unwritten = some r) :
    c.Submits r.id := by
  have hrecord : c.pc.record = some r ∧ r.status = .pending := by
    cases hpc : c.pc with
    | seeking | making | opening | recording =>
      rw [hpc] at h
      obtain ⟨hpending, heq⟩ := Option.ite_none_right_eq_some.1 h
      cases heq
      exact ⟨rfl, hpending⟩
    | _ =>
      rw [hpc] at h
      cases h
  obtain ⟨-, hstatus, -⟩ := (hg.attributed.calls c hc).record r hrecord.1
  exact ⟨(status_eq_pending_iff c.request).1 (hstatus.symm.trans hrecord.2), r, hrecord.1, rfl⟩

theorem Listing.write (h : q.Listing) (hg : q.Ground) {opened : Nat}
    (hc : q.calls[n]? = some ⟨request, .recording r opened⟩) (hpending : r.status = .pending)
    (hlast : q.pendingFile.last = []) (hrewriting : ∀ d ∈ q.calls, d.pc.rewriting = false)
    (hfile : q' = { q with pendingFile := q.pendingFile.write (.text r) }) :
    (q'.setPc n request (.ending r opened)).Listing := by
  have hmem := mem_of_getElem? hc
  have hwritten : (q.pendingFile.write (.text r)).records = q.pendingFile.records ++ [r] :=
    TextFile.records_write hlast r
  have hids : (q.pendingFile.write (.text r)).ids = q.pendingFile.ids ++ [r.id] := by
    rw [TextFile.ids, hwritten, map_append]
    rfl
  have hself : Pc.unwritten (.recording r opened) = some r := if_pos hpending
  have hending : Pc.removing (.ending r opened) = none := if_pos hpending
  obtain ⟨hr, hnot⟩ := h.unwritten _ hmem r hself
  obtain ⟨hfresh, -, -, hone⟩ := hg.unfound r.id n _ hc (hg.submits_of_unwritten hmem hself)
  subst hfile
  refine ⟨?_, ?_, ?_, ?_, ?_, ?_, h.rewriting.set (by rintro ⟨⟩), ?_⟩
  · change (q.pendingFile.write (.text r)).ids.Nodup
    rw [hids, ← concat_eq_append]
    exact h.distinct.concat hnot
  · intro r' hr'
    rcases mem_append.1 (hwritten ▸ hr' : r' ∈ q.pendingFile.records ++ [r]) with hold | hnew
    · exact h.issued r' hold
    · obtain rfl := mem_singleton.1 hnew
      exact hr
  · intro r' hr' hundecided
    change r' ∈ (q.pendingFile.write (.text r)).records ∨ _
    rw [hwritten]
    rcases h.complete r' hr' hundecided with hold | ⟨d, hd, hdr⟩
    · exact .inl (mem_append_left _ hold)
    · rcases mem_set_or hc ⟨request, .ending r opened⟩ hd with hd' | rfl
      · exact .inr ⟨d, hd', hdr⟩
      · obtain rfl := Option.some.inj (hself.symm.trans hdr)
        exact .inl (mem_append_right _ (mem_singleton_self _))
  · intro r' hr' hdecided
    rcases mem_append.1 (hwritten ▸ hr' : r' ∈ q.pendingFile.records ++ [r]) with hold | hnew
    · obtain ⟨d, hd, r'', hr'', hid⟩ := h.removed r' hold hdecided
      rcases mem_set_or hc ⟨request, .ending r opened⟩ hd with hd' | rfl
      · exact ⟨d, hd', r'', hr'', hid⟩
      · cases hr''
    · obtain rfl := mem_singleton.1 hnew
      exact absurd hdecided (Bool.eq_false_iff.1 (decided_eq_false_of_fresh hfresh))
  · intro d hd r' hr'
    rcases mem_set_cases hd with rfl | ⟨i, -, hi⟩
    · rw [hending] at hr'
      cases hr'
    · exact h.removing d (mem_of_getElem? hi) r' hr'
  · intro d hd r' hr'
    change r' ∈ q.issued ∧ r'.id ∉ (q.pendingFile.write (.text r)).ids
    rw [hids]
    rcases mem_set_cases hd with rfl | ⟨i, hi, hid⟩
    · cases hr'
    · have hd := mem_of_getElem? hid
      obtain ⟨hr'', hnot'⟩ := h.unwritten d hd r' hr'
      refine ⟨hr'', fun hin => ?_⟩
      rcases mem_append.1 hin with hold | hnew
      · exact hnot' hold
      · -- No other call submits the entry.
        have hsub := hg.submits_of_unwritten hd hr'
        rw [mem_singleton.1 hnew] at hsub
        exact hi (hone i d hid hsub)
  · intro d hd
    refine copied_of_not_rewriting ?_
    rcases mem_set_cases hd with rfl | ⟨i, -, hi⟩
    · rfl
    · exact hrewriting d (mem_of_getElem? hi)

theorem Listing.replace (h : q.Listing) (hc : q.calls[n]? = some ⟨request, .replacing r⟩) {f : TextFile}
    (htmp : q.tmpFile = some f)
    (hfile : q' = { q with pendingFile := f, tmpFile := none, replaced := q.replaced + 1 }) :
    (q'.setPc n request (.forgetting r)).Listing := by
  have hmem := mem_of_getElem? hc
  obtain ⟨f', hf', hrecords⟩ : q.Copied (.replacing r) := h.copied _ hmem
  obtain rfl := Option.some.inj (htmp.symm.trans hf')
  have hmemf : ∀ r', r' ∈ f.records ↔ r' ∈ q.pendingFile.records ∧ r'.id ≠ r.id := by
    intro r'
    rw [hrecords, mem_filter, decide_eq_true_eq]
  have hids : f.ids.Sublist q.pendingFile.ids := by
    rw [TextFile.ids, hrecords]
    exact filter_sublist.map _
  subst hfile
  refine ⟨h.distinct.sublist hids, fun r' hr' => h.issued r' ((hmemf r').1 hr').1, ?_, ?_, ?_, ?_,
    h.rewriting.set (by rintro ⟨⟩), ?_⟩
  · intro r' hr' hundecided
    rcases h.complete r' hr' hundecided with hold | ⟨d, hd, hdr⟩
    · refine .inl ((hmemf r').2 ⟨hold, fun hid => ?_⟩)
      -- The record that is left out is of an entry that is decided.
      have hdecided := h.removing _ hmem r rfl
      rw [← hid] at hdecided
      exact absurd hdecided (Bool.eq_false_iff.1 hundecided)
    · rcases mem_set_or hc ⟨request, .forgetting r⟩ hd with hd' | rfl
      · exact .inr ⟨d, hd', hdr⟩
      · cases hdr
  · intro r' hr' hdecided
    obtain ⟨hold, hne⟩ := (hmemf r').1 hr'
    obtain ⟨d, hd, r'', hr'', hid⟩ := h.removed r' hold hdecided
    rcases mem_set_or hc ⟨request, .forgetting r⟩ hd with hd' | rfl
    · exact ⟨d, hd', r'', hr'', hid⟩
    · obtain rfl := Option.some.inj hr''
      exact absurd hid.symm hne
  · intro d hd r' hr'
    rcases mem_set_cases hd with rfl | ⟨i, -, hi⟩
    · cases hr'
    · exact h.removing d (mem_of_getElem? hi) r' hr'
  · intro d hd r' hr'
    rcases mem_set_cases hd with rfl | ⟨i, -, hi⟩
    · cases hr'
    · exact (h.unwritten d (mem_of_getElem? hi) r' hr').imp_right fun hnot hin => hnot (hids.subset hin)
  · intro d hd
    refine copied_of_not_rewriting ?_
    rcases mem_set_cases hd with rfl | ⟨i, hi, hid⟩
    · rfl
    · exact h.rewriting.others hc rfl i d hid hi

/-! ### Runs -/

/-- When a submission creates the pending file, it has no record; when a submission writes, the file that it has opened is
    the pending file, the last line of it is ended and no call rewrites it; when a call reads the pending file to rewrite it,
    no other call does. -/
def Exclusive (q : FourEyesQueue) (c : Call) : Prop :=
  match c.pc with
  | .making r => r.status = .pending → q.pendingFile.records = []
  | .recording r opened => r.status = .pending →
    opened = q.replaced ∧ q.pendingFile.last = [] ∧ ∀ d ∈ q.calls, d.pc.rewriting = false
  | .reading _ => ∀ d ∈ q.calls, d.pc.rewriting = false
  | _ => True

/-- Runs in which submissions and rewrites do not overlap, no action fails, and the queue is closed only when no call is
    under way. -/
def Careful (q : FourEyesQueue) : QueueEvent → Prop
  | .step n => ∀ c ∈ q.calls[n]?, Exclusive q c
  | .fail _ _ => False
  | .crash => ∀ c ∈ q.calls, c.pc.over = true
  | .openQueue | .call _ | .post _ _ => True

theorem decided_append (trace : List Outcome) (o : Outcome) (X : Uuid) :
    decided (trace ++ [o]) X = (decided trace X || decided [o] X) := by
  rw [decided, any_append]
  rfl

section
variable (h : q.Listing)
include h

theorem Listing.acted (hg : q.Ground) (hc : q.calls[n]? = some ⟨request, pc⟩)
    (hacted : Acted q index request pc q' pc') (hexclusive : Exclusive q ⟨request, pc⟩) :
    (q'.setPc n request pc').Listing := by
  have hmem := mem_of_getElem? hc
  have hcopied := h.copied _ hmem
  have hremoving := h.removing _ hmem
  cases hacted with
  | absent | present | refused | toPost | toReject | sought | missed | opened | inserted | forgot =>
    exact h.go hc rfl rfl rfl rfl rfl rfl rfl rfl
  | made r =>
    rw [create_eq]
    refine h.go hc rfl rfl ?_ rfl rfl rfl rfl rfl
    by_cases hpending : r.status = .pending
    · exact (congrArg TextFile.records (if_pos hpending)).trans (hexclusive hpending).symm
    · exact congrArg TextFile.records (if_neg hpending)
  | recorded r opened =>
    by_cases hpending : r.status = .pending
    · obtain ⟨hopened, hlast, hrewriting⟩ := hexclusive hpending
      refine h.write hg hc hpending hlast hrewriting ?_
      rw [record_pending hpending, if_pos hopened]
    · obtain ⟨approvedFile, rejectedFile, hrecord⟩ := record_decided hpending q opened
      have hending : Pc.removing (.ending r opened) = some r := if_neg hpending
      rw [hrecord]
      refine h.setPc hc rfl rfl rfl ?_ ?_ (.inl rfl) (if_neg hpending).symm (by nofun) ?_ (by nofun) trivial
      · intro X hX
        rw [decided_append, hX, Bool.true_or]
      · intro X hX
        rw [decided_append, Bool.or_eq_true] at hX
        refine hX.imp_right fun hnew => ⟨r, hending, ?_⟩
        simpa [decided] using hnew
      · intro r' hr'
        obtain rfl := Option.some.inj (hending.symm.trans hr')
        simp [decided]
  | submitted r opened pending =>
    rw [writeTo_pending]
    refine h.go hc rfl rfl ?_ rfl rfl rfl (if_pos pending).symm rfl
    by_cases hopened : opened = q.replaced
    · exact (congrArg TextFile.records (if_pos hopened)).trans (TextFile.records_writeNewline _)
    · exact congrArg TextFile.records (if_neg hopened)
  | decided r opened decided q' file =>
    obtain ⟨approvedFile, rejectedFile, rfl⟩ := writeTo_decided decided file
    exact h.go hc rfl rfl rfl rfl rfl rfl (if_neg decided).symm rfl
  | read =>
    refine h.setPc hc rfl rfl rfl (fun _ => id) (fun _ => .inl) (.inl rfl) rfl (fun _ hr _ => hr) hremoving ?_
      (TextFile.records_linesWithout _ _)
    exact fun _ i d hd _ => hexclusive d (mem_of_getElem? hd)
  | unread r absent =>
    -- A file that does not exist has no record to take out.
    refine h.setPc hc rfl rfl rfl (fun _ => id) (fun _ => .inl) (.inl rfl) rfl (fun _ _ hin => ?_) (by nofun) (by nofun)
      trivial
    rw [hg.created.file absent] at hin
    cases hin
  | created =>
    exact h.setPc hc rfl rfl rfl (fun _ => id) (fun _ => .inl) (.inr rfl) rfl (fun _ hr _ => hr) hremoving
      (fun _ => h.rewriting.others hc rfl) ⟨hcopied, nofun⟩
  | wrote =>
    exact h.setPc hc rfl rfl rfl (fun _ => id) (fun _ => .inl) (.inr rfl) rfl (fun _ hr _ => hr) hremoving
      (fun _ => h.rewriting.others hc rfl) ⟨_, rfl, hcopied.1⟩
  | writeGone r kept gone => exact absurd gone hcopied.2
  | renamed r f tmp => exact h.replace hc tmp rfl
  | renameGone r gone =>
    obtain ⟨f, hf, -⟩ := hcopied
    rw [gone] at hf
    cases hf

theorem Listing.posted (hc : q.calls[n]? = some ⟨request, pc⟩) {result : Except String Unit}
    (hpost : q.post request result pc = some (q', pc')) : (q'.setPc n request pc').Listing := by
  rcases post_cases hpost with ⟨r, entry, e, rfl, rfl, rfl⟩ | ⟨id, approverId, now, r, entry, rfl, rfl, rfl, rfl⟩
  · exact h.go hc rfl rfl rfl rfl rfl rfl rfl rfl
  · refine h.setPc hc rfl rfl rfl ?_ ?_ (.inl rfl) rfl (by nofun) (by nofun) (by nofun) trivial
    · intro X hX
      rw [decided_append, hX, Bool.true_or]
    · intro X hX
      rw [decided_append, Bool.or_eq_true] at hX
      exact hX.imp_right nofun

theorem Listing.append {c' : Call} {issued : List ApprovalRecord}
    (hissued : issued = q.issued ++ c'.pc.unwritten.toList)
    (hdrawn : ∀ r, c'.pc.unwritten = some r → r.id ∉ q.issued.map (·.id)) (hremoving : c'.pc.removing = none)
    (hrewriting : c'.pc.rewriting = false) : Listing { q with calls := q.calls ++ [c'], issued := issued } := by
  have hnew : c' ∈ q.calls ++ [c'] := mem_append_right _ (mem_singleton_self _)
  have hmem : ∀ r, r ∈ issued ↔ r ∈ q.issued ∨ c'.pc.unwritten = some r := by
    intro r
    rw [hissued, mem_append, Option.mem_toList]
  refine ⟨h.distinct, fun r hr => (hmem r).2 (.inl (h.issued r hr)), ?_, ?_, ?_, ?_, h.rewriting.append hrewriting, ?_⟩
  · intro r hr hundecided
    rcases (hmem r).1 hr with hold | hr'
    · exact (h.complete r hold hundecided).imp_right fun ⟨d, hd, hdr⟩ => ⟨d, mem_append_left _ hd, hdr⟩
    · exact .inr ⟨c', hnew, hr'⟩
  · intro r hr hdecided
    obtain ⟨d, hd, hdr⟩ := h.removed r hr hdecided
    exact ⟨d, mem_append_left _ hd, hdr⟩
  · intro d hd r hr
    rcases mem_append.1 hd with hold | hlast
    · exact h.removing d hold r hr
    · obtain rfl := mem_singleton.1 hlast
      rw [hremoving] at hr
      cases hr
  · intro d hd r hr
    rcases mem_append.1 hd with hold | hlast
    · exact (h.unwritten d hold r hr).imp_left fun hin => (hmem r).2 (.inl hin)
    · obtain rfl := mem_singleton.1 hlast
      refine ⟨(hmem r).2 (.inr hr), fun hin => hdrawn r hr ?_⟩
      obtain ⟨r', hr', hid⟩ := mem_map.1 hin
      exact mem_map.2 ⟨r', h.issued r' hr', hid⟩
  · intro d hd
    rcases mem_append.1 hd with hold | hlast
    · exact (h.copied d hold).congr rfl (.inl rfl)
    · obtain rfl := mem_singleton.1 hlast
      exact copied_of_not_rewriting hrewriting

theorem Listing.begin (hbegin : q.begin request = some q') : q'.Listing := by
  cases request with
  | submit =>
    obtain ⟨hnew, ⟨⟩⟩ := Option.ite_none_left_eq_some.1 hbegin
    refine h.append rfl ?_ rfl rfl
    intro r hr
    cases hr
    exact hnew
  | approve | reject =>
    cases hbegin
    exact h.append (append_nil _).symm (fun r hr => by cases hr) rfl rfl

theorem Listing.idle (idle : ∀ c ∈ q.calls, c.pc.over = true) :
    (∀ r ∈ q.issued, decided q.trace r.id = false → r ∈ q.pendingFile.records) ∧
      ∀ r ∈ q.pendingFile.records, decided q.trace r.id = false := by
  have hover : ∀ c ∈ q.calls, c.pc.unwritten = none ∧ c.pc.removing = none := by
    intro c hc
    have hdone := idle c hc
    cases hpc : c.pc with
    | done => exact ⟨rfl, rfl⟩
    | _ =>
      rw [hpc] at hdone
      cases hdone
  constructor
  · intro r hr hundecided
    refine (h.complete r hr hundecided).resolve_right fun ⟨c, hc, hcr⟩ => ?_
    rw [(hover c hc).1] at hcr
    cases hcr
  · intro r hr
    cases hdecided : decided q.trace r.id with
    | false => rfl
    | true =>
      obtain ⟨c, hc, r', hcr, -⟩ := h.removed r hr hdecided
      rw [(hover c hc).2] at hcr
      cases hcr

/-- A careful event keeps the pending file exact. -/
theorem Listing.step (hg : q.Ground) {ev : QueueEvent} (careful : q.Careful ev)
    (hstep : q.step ev = some q') : q'.Listing := by
  cases step_cases hstep with
  | opened =>
    exact ⟨h.distinct, h.issued, h.complete, h.removed, h.removing, h.unwritten, h.rewriting,
      fun c hc => (h.copied c hc).congr rfl (.inl rfl)⟩
  | began request q' running hbegin => exact h.begin hbegin
  | acted index n c q' pc running call acted => exact h.acted hg call acted (careful c call)
  | posted n result c q' pc running call hpost => exact h.posted call hpost
  | failed => exact careful.elim
  | crashed =>
    obtain ⟨hcomplete, hundecided⟩ := h.idle careful
    refine ⟨h.distinct, h.issued, fun r hr hun => .inl (hcomplete r hr hun), fun r hr hdecided => ?_,
      (fun c hc => nomatch hc), (fun c hc => nomatch hc), (fun _ _ c _ hc => nomatch hc), fun c hc => nomatch hc⟩
    exact absurd hdecided (Bool.eq_false_iff.1 (hundecided r hr))

end

theorem listing_start : start.Listing where
  distinct := nodup_nil
  issued _ hr := absurd hr TextFile.mem_records_empty
  complete _ hr := nomatch hr
  removed _ hr := absurd hr TextFile.mem_records_empty
  removing _ hc := nomatch hc
  unwritten _ hc := nomatch hc
  rewriting _ _ _ _ hc := nomatch hc
  copied _ hc := nomatch hc

/-- In every careful run, whenever no call is under way the pending file has exactly the entries that were submitted and are
    not decided, each once, and a queue that is opened on it has just these. -/
theorem pending_file_exact (run : Run.Reachable step Careful start q) (idle : ∀ c ∈ q.calls, c.pc.over = true) :
    q.pendingFile.records.Perm (q.issued.filter fun r => !decided q.trace r.id) ∧
      ∀ X r, loadPending q.pendingFile X = some r ↔ r ∈ q.issued ∧ r.id = X ∧ decided q.trace X = false := by
  obtain ⟨hg, h⟩ : q.Ground ∧ q.Listing := run.invariant (P := fun q => q.Ground ∧ q.Listing)
    ⟨ground_start, listing_start⟩ fun _ _ _ ⟨hg, h⟩ careful hstep => ⟨hg.step hstep, h.step hg careful hstep⟩
  obtain ⟨hcomplete, hundecided⟩ := h.idle idle
  have hmem : ∀ r, r ∈ q.pendingFile.records ↔ r ∈ q.issued ∧ decided q.trace r.id = false :=
    fun r => ⟨fun hr => ⟨h.issued r hr, hundecided r hr⟩, fun ⟨hr, hun⟩ => hcomplete r hr hun⟩
  constructor
  · refine (perm_ext_iff_of_nodup h.distinct.of_map (hg.attributed.distinct.of_map.filter _)).2 fun r => ?_
    rw [hmem, mem_filter, Bool.not_eq_true']
  · intro X r
    rw [loadPending_eq_some h.distinct, hmem]
    constructor
    · rintro ⟨⟨hr, hun⟩, rfl⟩
      exact ⟨hr, rfl, hun⟩
    · rintro ⟨hr, rfl, hun⟩
      exact ⟨⟨hr, hun⟩, rfl⟩

instance (q : FourEyesQueue) (c : Call) : Decidable (q.Exclusive c) :=
  match c with
  | ⟨_, .making r⟩ => inferInstanceAs (Decidable (r.status = .pending → _ = _))
  | ⟨_, .recording r _⟩ => inferInstanceAs (Decidable (r.status = .pending → _ ∧ _ ∧ ∀ d ∈ q.calls, _))
  | ⟨_, .reading _⟩ => inferInstanceAs (Decidable (∀ d ∈ q.calls, _))
  | ⟨_, .checking⟩ | ⟨_, .getting⟩ | ⟨_, .posting _ _⟩ | ⟨_, .seeking _⟩ | ⟨_, .opening _⟩ | ⟨_, .ending _ _⟩
  | ⟨_, .inserting _⟩ | ⟨_, .creating _ _⟩ | ⟨_, .writing _ _⟩ | ⟨_, .replacing _⟩ | ⟨_, .forgetting _⟩ | ⟨_, .done _⟩ =>
    inferInstanceAs (Decidable True)

instance (q : FourEyesQueue) (ev : QueueEvent) : Decidable (q.Careful ev) :=
  match ev with
  | .step n => inferInstanceAs (Decidable (∀ c ∈ q.calls[n]?, Exclusive q c))
  | .fail _ _ => inferInstanceAs (Decidable False)
  | .crash => inferInstanceAs (Decidable (∀ c ∈ q.calls, c.pc.over = true))
  | .openQueue | .call _ | .post _ _ => inferInstanceAs (Decidable True)

end FourEyesQueue

namespace Sample

/-- Two submissions, an approval of one of them, and the queue is closed and opened again. -/
def reopened : List QueueEvent :=
  [.openQueue] ++ submitted 0 1 true ++ submitted 1 2 false ++ found 2 1 "bob" ++ approved 2 true ++ removed 2 ++
    [.crash, .openQueue]

/-- An approval has read the pending file, a submission writes to it, and the approval replaces it. -/
def lostUpdate : List QueueEvent :=
  [.openQueue] ++ submitted 0 1 true ++ found 1 1 "bob" ++ approved 1 true ++ [.step 1] ++ submitted 2 2 false ++
    List.replicate 4 (.step 1)

/-- Two submissions find no pending file. The second creates it after the first has written to it. -/
def createdTwice : List QueueEvent :=
  [.openQueue, .call (.submit 1 [] "Rent" "USD" "alice" 0), .call (.submit 2 [] "Rent" "USD" "alice" 0), .step 0,
    .step 1] ++ List.replicate 5 (.step 0) ++ List.replicate 5 (.step 1)

end Sample

namespace FourEyesQueue

/-- Of two entries that were submitted one is approved; the other is in the index after the queue is opened again. -/
theorem pending_file_exact_reopened :
    ∃ q, Run.exec step start Sample.reopened = some q ∧ (q.pendingFile.ids = [2] ∧ q.issued.length = 2) ∧
      q.pendingFile.records.Perm (q.issued.filter fun r => !decided q.trace r.id) :=
  Run.exists_of_exec (by decide +kernel) rfl fun run => ⟨by decide +kernel, (pending_file_exact run (by decide +kernel)).1⟩

/-- A submission that writes between the reading and the replacing of the pending file is lost, and so is one whose file
    another submission creates again: no call is under way, the entry is not decided, and a queue that is opened does not
    have it. -/
theorem pending_record_lost : (∃ q, Run.exec step start Sample.lostUpdate = some q ∧ (∀ c ∈ q.calls, c.pc.over = true) ∧
      2 ∈ q.issued.map (·.id) ∧ decided q.trace 2 = false ∧ loadPending q.pendingFile 2 = none) ∧
    ∃ q, Run.exec step start Sample.createdTwice = some q ∧ (∀ c ∈ q.calls, c.pc.over = true) ∧
      1 ∈ q.issued.map (·.id) ∧ decided q.trace 1 = false ∧ loadPending q.pendingFile 1 = none := by
  constructor
  · decide +kernel
  · decide +kernel

end FourEyesQueue

end FourEyes

end VectorLedger
