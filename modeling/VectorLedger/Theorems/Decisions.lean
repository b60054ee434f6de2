import VectorLedger.Theorems.Submissions

/-! Decisions on one entry. Once the call that has decided it is over, no later call finds it. -/

namespace VectorLedger.FourEyes

/-! ### Calls on an entry -/

def Pc.copy (tmpFile : Option TextFile) : Pc → Option TextFile
  | .creating _ kept | .writing _ kept => some ⟨kept, []⟩
  | .replacing _ => tmpFile
  | _ => none

/-- The call has posted or recorded its decision, and the pending file still has the entry. -/
def Call.inWindow (c : Call) : Bool :=
  match c.pc with
  | .seeking _ | .making _ | .opening _ | .recording _ _ => c.request.status == .approved
  | .ending _ _ => c.request.status != .pending
  | .reading _ | .creating _ _ | .writing _ _ | .replacing _ => true
  | _ => false

def Call.touched (c : Call) : Bool :=
  match c.pc with
  | .forgetting _ => true
  | _ => c.inWindow

theorem touched_of_inWindow {c : Call} (h : c.inWindow = true) : c.touched = true := by
  unfold Call.touched
  split
  · rfl
  · exact h

theorem copy_eq_none {pc : Pc} (h : pc.rewriting = false) (tmpFile : Option TextFile) : pc.copy tmpFile = none := by
  cases pc <;> first | rfl | cases h

theorem hasPending_of_copy {pc : Pc} {tmpFile : Option TextFile} {f : TextFile} (h : pc.copy tmpFile = some f) :
    pc.hasPending = true := by
  cases pc <;> first | rfl | cases h

namespace FourEyesQueue

open TextFile List Slots

variable {q q' : FourEyesQueue} {index : Index} {c c' : Call} {n : Nat} {X Y : Uuid}

/-- The entry is in the pending file, or in a copy that a call makes of it. -/
def Listed (q : FourEyesQueue) (X : Uuid) : Prop :=
  X ∈ q.pendingFile.ids ∨ ∃ c ∈ q.calls, ∃ f, c.pc.copy q.tmpFile = some f ∧ X ∈ f.ids

/-- What holds while a call decides the entry, by how far it has come. -/
def Stage (X : Uuid) (fate : Fate) (tmpFile : Option TextFile) (c : Call) : Prop :=
  match c.pc with
  | .posting _ _ => fate = .fresh
  | .seeking _ | .making _ | .opening _ | .recording _ _ => fate = if c.request.status = .approved then .posted else .fresh
  | .creating _ kept => X ∉ TextFile.ids ⟨kept, []⟩
  | .writing _ kept => X ∉ TextFile.ids ⟨kept, []⟩ ∧ tmpFile ≠ none
  | .replacing _ => ∃ f, tmpFile = some f ∧ X ∉ f.ids
  | _ => True

/-- The decisions on one entry are in order, and at most one call decides it. -/
structure SafeAt (q : FourEyesQueue) (X : Uuid) : Prop where
  unbroken : fate X q.trace ≠ .broken
  one : ∀ (i j : Nat) (c d : Call), q.calls[i]? = some c → q.calls[j]? = some d → c.On X → d.On X → i = j
  /-- Once it is decided, it is in the index only while the call that has decided is under way. -/
  memory : ∀ m, q.index = some m → fate X q.trace ≠ .fresh → (∀ c ∈ q.calls, c.On X → c.touched = false) → m X = none
  /-- And in the pending file only until that call has replaced it. -/
  file : fate X q.trace ≠ .fresh → (∀ c ∈ q.calls, c.On X → c.inWindow = false) → ¬q.Listed X
  stage : ∀ c ∈ q.calls, c.On X → Stage X (fate X q.trace) q.tmpFile c

/-- At most one call rewrites the pending file. -/
def OneRewriting (calls : List Call) : Prop :=
  ∀ (i j : Nat) (c d : Call), calls[i]? = some c → calls[j]? = some d → c.pc.rewriting = true → d.pc.rewriting = true → i = j

/-- The invariant: it holds of every entry, and one call at a time rewrites the pending file. -/
structure Safe (q : FourEyesQueue) : Prop where
  entries : ∀ X, q.SafeAt X
  rewriting : OneRewriting q.calls

/-! ### Entries that a step is not about -/

theorem stage_congr {fate : Fate} {tmp tmp' : Option TextFile} (htmp : tmp' = tmp ∨ c.pc.rewriting = false)
    (h : Stage X fate tmp c) : Stage X fate tmp' c := by
  rcases htmp with rfl | hnot
  · exact h
  · unfold Stage at h ⊢
    split <;> simp_all [Pc.rewriting]

section Frame
variable (h : q.SafeAt Y) (hfate : fate Y q'.trace = fate Y q.trace)
  (hmemory : ∀ m', q'.index = some m' → ∃ m, q.index = some m ∧ (m Y = none → m' Y = none))
  (hlisted : q'.Listed Y → q.Listed Y)
  (htmp : q'.tmpFile = q.tmpFile ∨ ∀ d ∈ q.calls, d.On Y → d.pc.rewriting = false)
include h hfate hmemory hlisted htmp

theorem SafeAt.frame (hold : ∀ (i : Nat) (d : Call), q'.calls[i]? = some d → d.On Y → q.calls[i]? = some d)
    (hkept : ∀ d ∈ q.calls, d.On Y → d ∈ q'.calls) : q'.SafeAt Y := by
  have hmem : ∀ {d}, d ∈ q'.calls → d.On Y → d ∈ q.calls := by
    intro d hd hon
    obtain ⟨i, hi⟩ := mem_iff_getElem?.1 hd
    exact mem_of_getElem? (hold i d hi hon)
  refine ⟨by rw [hfate]; exact h.unbroken, ?_, ?_, ?_, ?_⟩
  · intro i j a b ha hb hona honb
    exact h.one i j a b (hold i a ha hona) (hold j b hb honb) hona honb
  · intro m' hm' hdecided huntouched
    rw [hfate] at hdecided
    obtain ⟨m, hm, hless⟩ := hmemory m' hm'
    exact hless (h.memory m hm hdecided fun d hd hon => huntouched d (hkept d hd hon) hon)
  · intro hdecided hout hin
    rw [hfate] at hdecided
    exact h.file hdecided (fun d hd hon => hout d (hkept d hd hon) hon) (hlisted hin)
  · intro d hd hon
    rw [hfate]
    refine stage_congr ?_ (h.stage d (hmem hd hon) hon)
    exact htmp.imp_right fun hall => hall d (hmem hd hon) hon

theorem SafeAt.frame_set (hc : q.calls[n]? = some c) (hcalls : q'.calls = q.calls.set n c') (hnot : ¬c.On Y)
    (hnot' : ¬c'.On Y) : q'.SafeAt Y := by
  refine h.frame hfate hmemory hlisted htmp ?_ ?_
  · intro i d hd hon
    rw [hcalls] at hd
    rcases getElem?_set_cases hd with ⟨-, rfl⟩ | ⟨-, hold⟩
    · exact absurd hon hnot'
    · exact hold
  · intro d hd hon
    obtain ⟨i, hi⟩ := mem_iff_getElem?.1 hd
    have hne : n ≠ i := by
      rintro rfl
      obtain rfl := Option.some.inj (hi.symm.trans hc)
      exact hnot hon
    rw [hcalls]
    refine mem_iff_getElem?.2 ⟨i, ?_⟩
    rw [getElem?_set_ne hne]
    exact hi

end Frame

/-! ### One call goes on -/

theorem safeAt_of_fresh (hfresh : fate X q.trace = .fresh) (hnone : ∀ d ∈ q.calls, ¬d.On X) : q.SafeAt X where
  unbroken := by
    rw [hfresh]
    nofun
  one _ _ c _ hc _ hon := absurd hon (hnone c (mem_of_getElem? hc))
  memory _ _ hdecided := absurd hfresh hdecided
  file hdecided := absurd hfresh hdecided
  stage c hc hon := absurd hon (hnone c hc)

section Set
variable (hc : q.calls[n]? = some c) (hcalls : q'.calls = q.calls.set n c')
include hc hcalls

section Alone
variable (hdecides : c'.request.decides = some X)
  (halone : ∀ (i : Nat) (d : Call), q.calls[i]? = some d → d.On X → i = n)
include hdecides halone

theorem safeAt_set (hunbroken : fate X q'.trace ≠ .broken)
    (hmemory : (c'.On X → c'.touched = false) → fate X q'.trace ≠ .fresh → ∀ m, q'.index = some m → m X = none)
    (hfile : (c'.On X → c'.inWindow = false) → fate X q'.trace ≠ .fresh → ¬q'.Listed X)
    (hstage : c'.On X → Stage X (fate X q'.trace) q'.tmpFile c') : q'.SafeAt X := by
  have honly : ∀ {i d}, q'.calls[i]? = some d → d.On X → i = n ∧ d = c' := by
    intro i d hd hon
    rw [hcalls] at hd
    rcases getElem?_set_cases hd with hnew | ⟨hne, hold⟩
    · exact hnew
    · exact absurd (halone i d hold hon) hne
  have hmem : c' ∈ q'.calls := by
    obtain ⟨hlt, -⟩ := List.getElem?_eq_some_iff.1 hc
    rw [hcalls]
    exact mem_set hlt c'
  refine ⟨hunbroken, ?_, ?_, ?_, ?_⟩
  · intro i j a b ha hb hona honb
    rw [(honly ha hona).1, (honly hb honb).1]
  · intro m hm hdecided huntouched
    exact hmemory (huntouched c' hmem) hdecided m hm
  · intro hdecided hout
    exact hfile (hout c' hmem) hdecided
  · intro d hd hon
    obtain ⟨i, hi⟩ := mem_iff_getElem?.1 hd
    obtain ⟨-, rfl⟩ := honly hi hon
    exact hstage hon

theorem safeAt_set_fresh (hfresh : fate X q'.trace = .fresh) (hstage : c'.On X → Stage X .fresh q'.tmpFile c') :
    q'.SafeAt X := by
  refine safeAt_set hc hcalls hdecides halone (by rw [hfresh]; nofun) ?_ ?_ (by rw [hfresh]; exact hstage)
  · exact fun _ hdecided => absurd hfresh hdecided
  · exact fun _ hdecided => absurd hfresh hdecided

theorem safeAt_set_inWindow (hunder : c'.pc.underWay = true) (hin : c'.inWindow = true)
    (hunbroken : fate X q'.trace ≠ .broken) (hstage : Stage X (fate X q'.trace) q'.tmpFile c') : q'.SafeAt X := by
  refine safeAt_set hc hcalls hdecides halone hunbroken ?_ ?_ fun _ => hstage
  · intro huntouched
    have hout := huntouched ⟨hdecides, hunder⟩
    rw [touched_of_inWindow hin] at hout
    cases hout
  · intro hout
    have hout := hout ⟨hdecides, hunder⟩
    rw [hin] at hout
    cases hout

/-- The call goes on towards its record: an approval has posted the entry, a rejection has done nothing yet. -/
theorem safeAt_set_filing (hunder : c'.pc.underWay = true) (hin : c'.inWindow = (c'.request.status == .approved))
    (hfate : fate X q'.trace = if c'.request.status = .approved then .posted else .fresh)
    (hstage : Stage X (fate X q'.trace) q'.tmpFile c') : q'.SafeAt X := by
  by_cases happroved : c'.request.status = .approved
  · rw [if_pos happroved] at hfate
    refine safeAt_set_inWindow hc hcalls hdecides halone hunder ?_ (by rw [hfate]; nofun) hstage
    rw [hin, happroved]
    rfl
  · rw [if_neg happroved] at hfate
    exact safeAt_set_fresh hc hcalls hdecides halone hfate fun _ => hfate ▸ hstage

end Alone

end Set

/-! ### Actions -/

variable {request : Request} {pc' pc : Pc} {calls : List Call}

theorem listed_setPc (h : (q'.setPc n request pc').Listed Y) (hcalls : q'.calls = q.calls)
    (hpending : Y ∈ q'.pendingFile.ids → q.Listed Y)
    (htmp : q'.tmpFile = q.tmpFile ∨ ∀ i d, q.calls[i]? = some d → i ≠ n → d.pc.rewriting = false)
    (hcopy : ∀ f, pc'.copy q'.tmpFile = some f → Y ∈ f.ids → q.Listed Y) : q.Listed Y := by
  rcases h with hfile | ⟨d, hd, f, hf, hY⟩
  · exact hpending hfile
  · change d ∈ q'.calls.set n _ at hd
    change d.pc.copy q'.tmpFile = _ at hf
    rw [hcalls] at hd
    rcases mem_set_cases hd with rfl | ⟨i, hi, hold⟩
    · exact hcopy f hf hY
    · rcases htmp with htmp | hnone
      · rw [htmp] at hf
        exact .inr ⟨d, mem_of_getElem? hold, f, hf, hY⟩
      · rw [copy_eq_none (hnone i d hold hi)] at hf
        cases hf

theorem OneRewriting.others (h : OneRewriting calls) (hc : calls[n]? = some c)
    (hrewriting : c.pc.rewriting = true) : ∀ i d, calls[i]? = some d → i ≠ n → d.pc.rewriting = false := by
  intro i d hd hne
  by_contra hnot
  exact hne (h i n d c hd hc (by simpa using hnot) hrewriting)

theorem OneRewriting.set (h : OneRewriting calls)
    (hrewriting : c'.pc.rewriting = true → ∀ i d, calls[i]? = some d → i ≠ n → d.pc.rewriting = false) :
    OneRewriting (calls.set n c') := by
  intro i j a b ha hb hwa hwb
  rcases getElem?_set_cases ha with ⟨rfl, rfl⟩ | ⟨hi, hold⟩
  · rcases getElem?_set_cases hb with ⟨rfl, -⟩ | ⟨hj, hold'⟩
    · rfl
    · rw [hrewriting hwa j b hold' hj] at hwb
      cases hwb
  · rcases getElem?_set_cases hb with ⟨rfl, rfl⟩ | ⟨hj, hold'⟩
    · rw [hrewriting hwb i a hold hi] at hwa
      cases hwa
    · exact h i j a b hold hold' hwa hwb

theorem OneRewriting.append (h : OneRewriting calls) (hrewriting : c'.pc.rewriting = false) :
    OneRewriting (calls ++ [c']) := by
  intro i j a b ha hb hwa hwb
  rcases getElem?_append_cases ha with hold | ⟨-, rfl⟩
  · rcases getElem?_append_cases hb with hold' | ⟨-, rfl⟩
    · exact h i j a b hold hold' hwa hwb
    · rw [hrewriting] at hwb
      cases hwb
  · rw [hrewriting] at hwa
    cases hwa

theorem Safe.listed_acted (h : q.Safe) (hc : q.calls[n]? = some ⟨request, pc⟩)
    (hacted : Acted q index request pc q' pc') (hY : ∀ r, pc.record = some r → r.status = .pending → r.id ≠ Y)
    (hlisted : (q'.setPc n request pc').Listed Y) : q.Listed Y := by
  have hmem := mem_of_getElem? hc
  have hothers := h.rewriting.others hc
  cases hacted with
  | absent | present | refused | toPost | toReject | sought | missed | opened | inserted | unread | writeGone | renameGone
  | forgot =>
    exact listed_setPc hlisted rfl .inl (.inl rfl) (by nofun)
  | made =>
    rw [create_eq] at hlisted
    refine listed_setPc hlisted rfl (fun hin => .inl ?_) (.inl rfl) (by nofun)
    obtain ⟨r', hr', rfl⟩ := mem_map.1 hin
    exact mem_map_of_mem (mem_records_created hr')
  | recorded r opened =>
    by_cases hpending : r.status = .pending
    · rw [record_pending hpending] at hlisted
      refine listed_setPc hlisted rfl (fun hin => .inl ?_) (.inl rfl) (by nofun)
      obtain ⟨r', hr', rfl⟩ := mem_map.1 hin
      rcases mem_records_written (·.write (.text r)) hr' with hold | hnew
      · exact mem_map_of_mem hold
      rcases mem_records_write hnew with hold | heq
      · exact mem_map_of_mem hold
      · exact absurd (congrArg ApprovalRecord.id (Piece.text.inj heq)) (hY r rfl hpending)
    · obtain ⟨approvedFile, rejectedFile, hrecord⟩ := record_decided hpending q opened
      rw [hrecord] at hlisted
      exact listed_setPc hlisted rfl .inl (.inl rfl) (by nofun)
  | submitted =>
    rw [writeTo_pending] at hlisted
    refine listed_setPc hlisted rfl (fun hin => .inl ?_) (.inl rfl) (by nofun)
    obtain ⟨r', hr', rfl⟩ := mem_map.1 hin
    rcases mem_records_written (·.writeNewline) hr' with hold | hnew
    · exact mem_map_of_mem hold
    · exact mem_map_of_mem (records_writeNewline q.pendingFile ▸ hnew)
  | decided r opened decided q' file =>
    obtain ⟨approvedFile, rejectedFile, rfl⟩ := writeTo_decided decided file
    exact listed_setPc hlisted rfl .inl (.inl rfl) (by nofun)
  | read =>
    refine listed_setPc hlisted rfl .inl (.inl rfl) ?_
    rintro f ⟨⟩ hin
    obtain ⟨r', hr', rfl⟩ := mem_map.1 hin
    exact .inl (mem_map_of_mem (mem_records_linesWithout hr').1)
  | created | wrote =>
    refine listed_setPc hlisted rfl .inl (.inr (hothers rfl)) ?_
    rintro f ⟨⟩ hin
    exact .inr ⟨_, hmem, _, rfl, hin⟩
  | renamed r f tmp =>
    exact listed_setPc hlisted rfl (fun hin => .inr ⟨_, hmem, f, tmp, hin⟩) (.inr (hothers rfl)) (by nofun)

theorem Safe.acted_on (h : q.Safe) (hg : q.Ground) (running : q.index = some index)
    (hc : q.calls[n]? = some ⟨request, pc⟩) (hacted : Acted q index request pc q' pc') (hX : request.decides = some X)
    (halone : pc = .getting → ∀ d ∈ q.calls, ¬d.On X) (hunder : pc.underWay = true ∨ pc'.underWay = true) :
    (q'.setPc n request pc').SafeAt X := by
  have hmem := mem_of_getElem? hc
  have hfits := hg.fits _ hmem
  have hpc := hg.attributed.calls _ hmem
  have hat := h.entries X
  have hid : ∀ r, pc.record = some r → r.id = X := fun r hr => (hpc.record r hr).1.id X hX
  have hdecided : request.status ≠ .pending := by
    rw [Ne, status_eq_pending_iff, hX]
    exact Option.some_ne_none X
  -- What is known when the call is on the entry already.
  have hone : pc.underWay = true → ∀ (i : Nat) (d : Call), q.calls[i]? = some d → d.On X → i = n :=
    fun hway i d hd hon => hat.one i n d _ hd hc hon ⟨hX, hway⟩
  have hstage : pc.underWay = true → Stage X (fate X q.trace) q.tmpFile ⟨request, pc⟩ :=
    fun hway => hat.stage _ hmem ⟨hX, hway⟩
  have hunbroken := hat.unbroken
  -- What is known when it finds the record.
  have hfind : pc = .getting → ∀ r, index X = some r → fate X q.trace = .fresh ∧
      ∀ (i : Nat) (d : Call), q.calls[i]? = some d → d.On X → i = n := by
    intro hgetting r hr
    constructor
    · by_contra hnot
      rw [hat.memory index running hnot fun d hd hon => absurd hon (halone hgetting d hd)] at hr
      cases hr
    · exact fun i d hd hon => absurd hon (halone hgetting d (mem_of_getElem? hd))
  cases hacted with
  | absent | present | refused => simp [Pc.underWay] at hunder
  | toPost id approverId now r entry approve found =>
    subst approve
    cases hX
    obtain ⟨hfresh, hone⟩ := hfind rfl r found
    exact safeAt_set_fresh hc rfl rfl hone hfresh fun _ => rfl
  | toReject id approverId reason now r reject found =>
    subst reject
    cases hX
    obtain ⟨hfresh, hone⟩ := hfind rfl r found
    exact safeAt_set_fresh hc rfl rfl hone hfresh fun _ => rfl
  | sought | missed | opened => exact safeAt_set_filing hc rfl hX (hone rfl) rfl rfl (hstage rfl) (hstage rfl)
  | made =>
    rw [create_eq]
    exact safeAt_set_filing hc rfl hX (hone rfl) rfl rfl (hstage rfl) (hstage rfl)
  | recorded r opened =>
    obtain ⟨-, hstatus, -⟩ := hpc.record r rfl
    have hpending : r.status ≠ .pending := hstatus ▸ hdecided
    have hfate : fate X q.trace = if request.status = .approved then .posted else .fresh := hstage rfl
    obtain ⟨approvedFile, rejectedFile, hrecord⟩ := record_decided hpending q opened
    rw [hrecord]
    refine safeAt_set_inWindow hc rfl hX (hone rfl) rfl (bne_iff_ne.2 hdecided) ?_ trivial
    change fate X (q.trace ++ [.recorded r]) ≠ .broken
    rw [fate_append_same q.trace (o := .recorded r) (hid r rfl), hfate]
    cases hrequest : request.status with
    | pending => exact absurd hrequest hdecided
    | approved | rejected => simp [Fate.next, hstatus, hrequest]
  | submitted r opened pending => exact absurd ((hpc.record r rfl).2.1.symm.trans pending) hdecided
  | decided r opened decided q' file =>
    obtain ⟨approvedFile, rejectedFile, rfl⟩ := writeTo_decided decided file
    exact safeAt_set_inWindow hc rfl hX (hone rfl) rfl rfl hunbroken trivial
  | inserted =>
    have hsubmission : request.decides = none := hfits
    rw [hX] at hsubmission
    cases hsubmission
  | unread r absent =>
    have hacted : Acted q index request (.reading r) q (.forgetting r) := .unread r absent
    refine safeAt_set hc rfl hX (hone rfl) hunbroken ?_ ?_ fun _ => trivial
    · intro huntouched
      cases huntouched ⟨hX, rfl⟩
    · -- Nothing stands in a file that does not exist, and no call has read it.
      intro _ _ hlisted
      rcases h.listed_acted hc hacted (fun r' hr' hpending =>
        absurd ((hpc.record r' hr').2.1.symm.trans hpending) hdecided) hlisted with hin | ⟨d, hd, f, hf, -⟩
      · rw [hg.created.file absent] at hin
        exact absurd hin (by simp [ids, empty, records, allLines, parseLine])
      · have hpresent := hg.created.calls d hd (hasPending_of_copy hf)
        rw [absent] at hpresent
        cases hpresent
  | read r =>
    refine safeAt_set_inWindow hc rfl hX (hone rfl) rfl rfl hunbroken fun hin => ?_
    obtain ⟨r', hr', hX'⟩ := mem_map.1 hin
    exact (mem_records_linesWithout hr').2 (hX'.trans (hid r rfl).symm)
  | created =>
    exact safeAt_set_inWindow hc rfl hX (hone rfl) rfl rfl hunbroken ⟨hstage rfl, Option.some_ne_none _⟩
  | wrote r kept =>
    have hkept : X ∉ ids ⟨kept, []⟩ ∧ q.tmpFile ≠ none := hstage rfl
    exact safeAt_set_inWindow hc rfl hX (hone rfl) rfl rfl hunbroken ⟨_, rfl, hkept.1⟩
  | writeGone r kept gone =>
    have hkept : X ∉ ids ⟨kept, []⟩ ∧ q.tmpFile ≠ none := hstage rfl
    exact absurd gone hkept.2
  | renamed r f tmp =>
    refine safeAt_set hc rfl hX (hone rfl) hunbroken ?_ ?_ fun _ => trivial
    · intro huntouched
      cases huntouched ⟨hX, rfl⟩
    · obtain ⟨f', hf', hnot⟩ : ∃ f, q.tmpFile = some f ∧ X ∉ f.ids := hstage rfl
      obtain rfl := Option.some.inj (tmp.symm.trans hf')
      rintro - - (hin | ⟨d, hd, f', hf', -⟩)
      · exact hnot hin
      · -- No other call has a copy of the file.
        rcases mem_set_cases hd with rfl | ⟨i, hi, hold⟩
        · cases hf'
        · rw [copy_eq_none (h.rewriting.others hc rfl i d hold hi)] at hf'
          cases hf'
  | renameGone r gone =>
    obtain ⟨f, hf, -⟩ : ∃ f, q.tmpFile = some f ∧ X ∉ f.ids := hstage rfl
    rw [gone] at hf
    cases hf
  | forgot r =>
    refine safeAt_set hc rfl hX (hone rfl) hunbroken ?_ ?_ fun hon => by cases hon.2
    · rintro - - m ⟨⟩
      rw [← hid r rfl, Function.update_self]
    · intro _ hdecided' hlisted
      refine hat.file hdecided' ?_ (h.listed_acted hc (.forgot r) (fun r' hr' hpending =>
        absurd ((hpc.record r' hr').2.1.symm.trans hpending) hdecided) hlisted)
      intro d hd hon
      obtain ⟨i, hi⟩ := mem_iff_getElem?.1 hd
      obtain rfl := hone rfl i d hi hon
      obtain rfl := Option.some.inj (hi.symm.trans hc)
      rfl

theorem Safe.setPc (h : q.Safe) (hcalls : q'.calls = q.calls) (hentries : ∀ X, (q'.setPc n request pc').SafeAt X)
    (hrewriting : pc'.rewriting = true → ∀ i d, q.calls[i]? = some d → i ≠ n → d.pc.rewriting = false) :
    (q'.setPc n request pc').Safe := by
  refine ⟨hentries, ?_⟩
  rw [calls_setPc hcalls]
  exact h.rewriting.set hrewriting

theorem Safe.acted (h : q.Safe) (hg : q.Ground) (running : q.index = some index)
    (hc : q.calls[n]? = some ⟨request, pc⟩) (hacted : Acted q index request pc q' pc')
    (halone : pc = .getting → ∀ X, request.decides = some X → ∀ d ∈ q.calls, ¬d.On X)
    (hreading : ∀ r, pc = .reading r → ∀ d ∈ q.calls, d.pc.rewriting = false) :
    (q'.setPc n request pc').Safe := by
  have hmem := mem_of_getElem? hc
  have hpc := hg.attributed.calls _ hmem
  obtain ⟨hcalls, -⟩ := acted_running running hacted
  have hset := calls_setPc (n := n) hcalls request pc'
  obtain ⟨-, -, hrewriting⟩ := acted_fits hacted hpc (hg.fits _ hmem)
  refine h.setPc hcalls ?_ ?_
  · intro X
    by_cases hon : request.decides = some X ∧ (pc.underWay = true ∨ pc'.underWay = true)
    · exact h.acted_on hg running hc hacted hon.1 (fun hgetting => halone hgetting X hon.1) hon.2
    have hnot : ¬Call.On ⟨request, pc⟩ X := fun hX => hon ⟨hX.1, .inl hX.2⟩
    have hnot' : ¬Call.On ⟨request, pc'⟩ X := fun hX => hon ⟨hX.1, .inr hX.2⟩
    by_cases hsub : Call.Submits ⟨request, pc⟩ X
    · -- It submits the entry, which no call is on.
      obtain ⟨-, -, hnone, -⟩ := hg.unfound X n _ hc hsub
      refine safeAt_of_fresh (hg.acted_submits hc hacted hsub).1 fun d hd => ?_
      rw [hset] at hd
      rcases mem_set_cases hd with rfl | ⟨i, -, hi⟩
      · exact hnot'
      · exact hnone d (mem_of_getElem? hi)
    -- The action is about another entry.
    have hother : ∀ r, pc.record = some r → r.id ≠ X := by
      rintro r hr rfl
      exact (hpc.about hr).elim hsub hnot
    obtain ⟨hfate, hmemory, htmp⟩ := acted_other running hacted hother
    refine (h.entries X).frame_set hfate hmemory ?_ ?_ hc hset hnot hnot'
    · exact h.listed_acted hc hacted fun r hr _ => hother r hr
    · refine htmp.imp_right fun hway d hd hdX => ?_
      obtain ⟨i, hi⟩ := mem_iff_getElem?.1 hd
      refine h.rewriting.others hc hway i d hi ?_
      rintro rfl
      obtain rfl := Option.some.inj (hi.symm.trans hc)
      exact hnot hdX
  · intro hway i d hd hne
    rcases hrewriting hway with hway' | ⟨r, hr⟩
    · exact h.rewriting.others hc hway' i d hd hne
    · exact hreading r hr d (mem_of_getElem? hd)

/-! ### Posting and failing -/

theorem SafeAt.frame_trace (h : q.SafeAt X) (hc : q.calls[n]? = some ⟨request, pc⟩)
    {trace : List Outcome} (hfate : fate X trace = fate X q.trace) (hother : request.decides ≠ some X)
    (hcopy : pc'.copy q.tmpFile = none) :
    (FourEyesQueue.setPc { q with trace := trace } n request pc').SafeAt X := by
  refine h.frame_set hfate (fun m hm => ⟨m, hm, id⟩) ?_ (.inl rfl) hc rfl (fun hon => hother hon.1)
    fun hon => hother hon.1
  intro hlisted
  refine listed_setPc hlisted rfl .inl (.inl rfl) ?_
  intro f hf
  rw [hcopy] at hf
  cases hf

theorem Safe.posted (h : q.Safe) (hc : q.calls[n]? = some ⟨request, pc⟩) {result : Except String Unit}
    (hpost : q.post request result pc = some (q', pc')) : (q'.setPc n request pc').Safe := by
  have hmem := mem_of_getElem? hc
  rcases post_cases hpost with ⟨r, entry, e, rfl, rfl, rfl⟩ | ⟨id, approverId, now, r, entry, rfl, rfl, rfl, rfl⟩
  · refine h.setPc rfl ?_ (by nofun)
    intro X
    by_cases hX : request.decides = some X
    · have hon : Call.On ⟨request, .posting r entry⟩ X := ⟨hX, rfl⟩
      have hone := fun (i : Nat) (d : Call) hd hon' => (h.entries X).one i n d _ hd hc hon' hon
      exact safeAt_set_fresh hc rfl hX hone ((h.entries X).stage _ hmem hon) fun hdone => nomatch hdone.2
    · exact (h.entries X).frame_trace hc rfl hX rfl
  · refine h.setPc rfl ?_ (by nofun)
    intro X
    by_cases hX : id = X
    · subst hX
      have hon : Call.On ⟨.approve id approverId now, .posting r entry⟩ id := ⟨rfl, rfl⟩
      have hone := fun (i : Nat) (d : Call) hd hon' => (h.entries id).one i n d _ hd hc hon' hon
      have hfresh : fate id q.trace = .fresh := (h.entries id).stage _ hmem hon
      have hfate : fate id (q.trace ++ [.posted id approverId entry]) = .posted :=
        calc fate id (q.trace ++ [.posted id approverId entry])
          _ = (fate id q.trace).next (.posted id approverId entry) :=
            fate_append_same q.trace (show Outcome.id (.posted id approverId entry) = id from rfl)
          _ = .posted := by rw [hfresh]; rfl
      refine safeAt_set_inWindow hc rfl rfl hone rfl rfl ?_ hfate
      exact fun hbroken => nomatch hfate.symm.trans hbroken
    · exact (h.entries X).frame_trace hc (fate_append_other _ hX) (fun heq => hX (Option.some.inj heq)) rfl

theorem Safe.failed (h : q.Safe) {partly : Bool}
    (hc : q.calls[n]? = some ⟨request, pc⟩) (hfail : q.failAt partly pc = some q')
    (hout : Call.inWindow ⟨request, pc⟩ = false) : (q'.setPc n request (.done (.error .io))).Safe := by
  have hmem := mem_of_getElem? hc
  obtain ⟨htrace, hindex, hcalls, htmp, hpending⟩ := failAt_frame hfail
  have htmp : q'.tmpFile = q.tmpFile := htmp.resolve_right fun ⟨r, kept, hpc⟩ => by
    rw [hpc] at hout
    cases hout
  have hset := calls_setPc (n := n) hcalls request (.done (.error .io))
  -- A call that has not yet decided.
  have hfresh : ∀ X, Call.On ⟨request, pc⟩ X → fate X q.trace = .fresh := by
    intro X hon
    have hstage := (h.entries X).stage _ hmem hon
    have hdecided : request.status ≠ .pending := by
      rw [Ne, status_eq_pending_iff, hon.1]
      nofun
    cases pc with
    | making | opening | recording =>
      have happroved : request.status ≠ .approved := by simpa [Call.inWindow] using hout
      exact hstage.trans (if_neg happroved)
    | ending => exact absurd (by simpa [Call.inWindow] using hout) hdecided
    | reading | creating | writing | replacing => cases hout
    | checking | done => cases hon.2
    | getting | posting | seeking | inserting | forgetting => cases hfail
  refine h.setPc hcalls ?_ (by nofun)
  intro X
  by_cases hon : Call.On ⟨request, pc⟩ X
  · have hone := fun (i : Nat) (d : Call) hd hon' => (h.entries X).one i n d _ hd hc hon' hon
    refine safeAt_set_fresh hc hset hon.1 hone ?_ fun hdone => nomatch hdone.2
    exact (congrArg (fate X) htrace).trans (hfresh X hon)
  · refine (h.entries X).frame_set (congrArg (fate X) htrace) ?_ ?_ (.inl htmp) hc hset hon fun hdone => nomatch hdone.2
    · intro m hm
      exact ⟨m, hindex.symm.trans hm, id⟩
    · exact fun hlisted => listed_setPc hlisted hcalls (fun hX => .inl (hpending X hX)) (.inl htmp) (by nofun)

/-! ### New calls -/

theorem SafeAt.frame_append (h : q.SafeAt X) (hcalls : q'.calls = q.calls ++ [c']) (hnot : ¬c'.On X)
    (htrace : q'.trace = q.trace) (hindex : q'.index = q.index)
    (hpending : q'.pendingFile = q.pendingFile) (htmp : q'.tmpFile = q.tmpFile) (hcopy : c'.pc.rewriting = false) :
    q'.SafeAt X := by
  refine h.frame (congrArg (fate X) htrace) ?_ ?_ (.inl htmp) ?_ ?_
  · intro m hm
    exact ⟨m, hindex.symm.trans hm, id⟩
  · rintro (hfile | ⟨d, hd, f, hf, hin⟩)
    · exact .inl (hpending ▸ hfile)
    · rw [hcalls] at hd
      rw [htmp] at hf
      rcases mem_append.1 hd with hold | hnew
      · exact .inr ⟨d, hold, f, hf, hin⟩
      · obtain rfl := mem_singleton.1 hnew
        rw [copy_eq_none hcopy] at hf
        cases hf
  · intro i d hd hon
    rw [hcalls] at hd
    rcases getElem?_append_cases hd with hold | ⟨-, rfl⟩
    · exact hold
    · exact absurd hon hnot
  · intro d hd _
    rw [hcalls]
    exact mem_append_left _ hd

theorem Safe.append (h : q.Safe) (hcalls : q'.calls = q.calls ++ [c']) (hentries : ∀ X, q'.SafeAt X)
    (hrewriting : c'.pc.rewriting = false) : q'.Safe := by
  refine ⟨hentries, ?_⟩
  rw [hcalls]
  exact h.rewriting.append hrewriting

theorem Safe.begin (h : q.Safe) (hbegin : q.begin request = some q') : q'.Safe := by
  cases request with
  | submit =>
    obtain ⟨-, ⟨⟩⟩ := Option.ite_none_left_eq_some.1 hbegin
    refine h.append rfl (fun X => ?_) rfl
    exact (h.entries X).frame_append rfl (fun hon => by cases hon.1) rfl rfl rfl rfl rfl
  | approve | reject =>
    cases hbegin
    refine h.append rfl (fun X => ?_) rfl
    exact (h.entries X).frame_append rfl (fun hon => by cases hon.2) rfl rfl rfl rfl rfl

/-! ### Crashes and reopening -/

theorem safe_of_no_calls (hcalls : q.calls = []) (hunbroken : ∀ X, fate X q.trace ≠ .broken)
    (hfile : ∀ X, fate X q.trace ≠ .fresh → X ∉ q.pendingFile.ids)
    (hmemory : ∀ m, q.index = some m → ∀ X, fate X q.trace ≠ .fresh → m X = none) : q.Safe := by
  have hnone : ∀ (i : Nat) (c : Call), q.calls[i]? ≠ some c := by
    intro i c hc
    rw [hcalls] at hc
    cases hc
  have hempty : ∀ c, c ∉ q.calls := by
    intro c hc
    rw [hcalls] at hc
    cases hc
  refine ⟨fun X => ⟨hunbroken X, ?_, ?_, ?_, ?_⟩, ?_⟩
  · exact fun i _ c _ hc => absurd hc (hnone i c)
  · exact fun m hm hdecided _ => hmemory m hm X hdecided
  · rintro hdecided - (hin | ⟨c, hc, -⟩)
    · exact hfile X hdecided hin
    · exact hempty c hc
  · exact fun c hc => absurd hc (hempty c)
  · exact fun i _ c _ hc => absurd hc (hnone i c)

theorem Safe.opened (h : q.Safe) (hg : q.Ground) (closed : q.index = none) :
    Safe { q with index := some (loadPending q.pendingFile) } := by
  have hcalls := hg.closed closed
  have hfile : ∀ X, fate X q.trace ≠ .fresh → X ∉ q.pendingFile.ids := by
    intro X hdecided hin
    refine (h.entries X).file hdecided ?_ (.inl hin)
    intro c hc
    rw [hcalls] at hc
    cases hc
  refine safe_of_no_calls hcalls (fun X => (h.entries X).unbroken) hfile ?_
  rintro m ⟨⟩ X hdecided
  cases hr : loadPending q.pendingFile X with
  | none => rfl
  | some =>
    obtain ⟨hmem, rfl⟩ := loadPending_some hr
    exact absurd (mem_map_of_mem hmem) (hfile _ hdecided)

theorem Safe.crashed (h : q.Safe) (hout : ∀ c ∈ q.calls, c.inWindow = false) :
    Safe { q with index := none, calls := [] } := by
  refine safe_of_no_calls rfl (fun X => (h.entries X).unbroken) ?_ (by nofun)
  intro X hdecided hin
  exact (h.entries X).file hdecided (fun c hc _ => hout c hc) (.inl hin)

/-! ### The files of decisions -/

/-- What stands in the files of decisions has been recorded there. -/
structure Filed (q : FourEyesQueue) : Prop where
  approved : ∀ r ∈ q.approvedFile.records, .recorded r ∈ q.trace ∧ r.status = .approved
  rejected : ∀ r ∈ q.rejectedFile.records, .recorded r ∈ q.trace ∧ r.status = .rejected

theorem Filed.congr (h : q.Filed) (happroved : q'.approvedFile = q.approvedFile)
    (hrejected : q'.rejectedFile = q.rejectedFile) (htrace : ∀ o ∈ q.trace, o ∈ q'.trace) : q'.Filed := by
  refine ⟨fun r hr => ?_, fun r hr => ?_⟩
  · rw [happroved] at hr
    exact (h.approved r hr).imp_left (htrace _)
  · rw [hrejected] at hr
    exact (h.rejected r hr).imp_left (htrace _)

theorem Filed.writeTo (h : q.Filed) {status : ApprovalStatus} {opened : Nat} {file : TextFile → TextFile}
    {trace : List Outcome} (htrace : ∀ o ∈ q.trace, o ∈ trace)
    (hfile : ∀ f, ∀ r ∈ (file f).records, r ∈ f.records ∨ (status ≠ .pending → .recorded r ∈ trace ∧ r.status = status)) :
    Filed { q.writeTo status opened file with trace := trace } := by
  have happroved := fun r hr => (h.approved r hr).imp_left (htrace _)
  have hrejected := fun r hr => (h.rejected r hr).imp_left (htrace _)
  cases status with
  | pending =>
    rw [writeTo_pending]
    exact ⟨happroved, hrejected⟩
  | approved =>
    refine ⟨fun r hr => ?_, hrejected⟩
    exact (hfile _ r hr).elim (happroved r) fun hnew => hnew nofun
  | rejected =>
    refine ⟨happroved, fun r hr => ?_⟩
    exact (hfile _ r hr).elim (hrejected r) fun hnew => hnew nofun

theorem writeTo_trace (q : FourEyesQueue) (status : ApprovalStatus) (opened : Nat) (file : TextFile → TextFile) :
    { q.writeTo status opened file with trace := q.trace } = q.writeTo status opened file := by
  cases status with
  | pending => rw [writeTo_pending]
  | approved | rejected => rfl

theorem Filed.acted (h : q.Filed) (hacted : Acted q index request pc q' pc') : q'.Filed := by
  cases hacted with
  | made =>
    rw [create_eq]
    constructor
    · exact fun r' hr' => h.approved r' (mem_records_created hr')
    · exact fun r' hr' => h.rejected r' (mem_records_created hr')
  | recorded =>
    refine h.writeTo ?_ ?_
    · intro o ho
      split
      · exact ho
      · exact mem_append_left _ ho
    · intro f r' hr'
      refine (mem_records_write hr').imp_right fun heq hdecided => ?_
      obtain rfl := Piece.text.inj heq
      rw [if_neg hdecided]
      exact ⟨mem_append_right _ (mem_singleton_self _), rfl⟩
  | submitted =>
    rw [writeTo_pending]
    exact h.congr rfl rfl fun _ ho => ho
  | decided r opened decided q' file =>
    rw [file, ← writeTo_trace]
    refine h.writeTo (fun _ => id) fun f r' hr' => .inl ?_
    rwa [records_writeNewline] at hr'
  | _ => exact h.congr rfl rfl fun _ => id

/-- An event keeps the decided files made of decisions. -/
theorem Filed.step (h : q.Filed) {ev : QueueEvent} (hstep : q.step ev = some q') : q'.Filed := by
  cases step_cases hstep with
  | opened | crashed => exact h.congr rfl rfl fun _ ho => ho
  | began request q' running hbegin =>
    cases request with
    | submit =>
      obtain ⟨-, ⟨⟩⟩ := Option.ite_none_left_eq_some.1 hbegin
      exact h.congr rfl rfl fun _ ho => ho
    | approve | reject =>
      cases hbegin
      exact h.congr rfl rfl fun _ ho => ho
  | acted index n c q' pc running call acted => exact (h.acted acted).congr rfl rfl fun _ ho => ho
  | posted n result c q' pc running call hpost =>
    rcases post_cases hpost with ⟨r, entry, e, -, rfl, -⟩ | ⟨id, approverId, now, r, entry, -, -, rfl, -⟩
    · exact h.congr rfl rfl fun _ ho => ho
    · exact h.congr rfl rfl fun _ ho => mem_append_left _ ho
  | failed n partly c q' running call hfail =>
    rcases failAt_cases hfail with ⟨r, opened, file, -, rfl, hfile⟩ | ⟨r, kept, tmp, -, rfl, -⟩ | ⟨rfl, -⟩
    · rw [← writeTo_trace]
      exact (h.writeTo (fun _ ho => ho) fun f r' hr' => .inl (hfile f r' hr')).congr rfl rfl fun _ ho => ho
    · exact h.congr rfl rfl fun _ ho => ho
    · exact h.congr rfl rfl fun _ ho => ho

/-! ### Runs -/

/-- When a call looks up its record, no other call is on that entry; when it reads the pending file to rewrite it, no other
    call is rewriting it. -/
def Clear (calls : List Call) (c : Call) : Prop :=
  match c.pc with
  | .getting => ∀ d ∈ calls, d.pc.underWay = true → d.request.decides ≠ c.request.decides
  | .reading _ => ∀ d ∈ calls, d.pc.rewriting = false
  | _ => True

/-- Runs without overlapping decisions on one entry and without overlapping rewrites of the pending file, in which no call
    breaks off, by a crash or a failed action on a file, between its decision and the end of its rewrite. -/
def Orderly (q : FourEyesQueue) : QueueEvent → Prop
  | .step n => ∀ c ∈ q.calls[n]?, Clear q.calls c
  | .fail n _ => ∀ c ∈ q.calls[n]?, c.inWindow = false
  | .crash => ∀ c ∈ q.calls, c.inWindow = false
  | .openQueue | .call _ | .post _ _ => True

/-- An orderly event keeps the decisions of every entry in order. -/
theorem Safe.step (h : q.Safe) (hg : q.Ground) {ev : QueueEvent} (orderly : q.Orderly ev)
    (hstep : q.step ev = some q') : q'.Safe := by
  cases step_cases hstep with
  | opened closed => exact h.opened hg closed
  | began request q' running hbegin => exact h.begin hbegin
  | acted index n c q' pc running call acted =>
    have hclear : Clear q.calls c := orderly c call
    refine h.acted hg running call acted ?_ ?_
    · intro hgetting X hX d hd hon
      rw [Clear, hgetting] at hclear
      exact hclear d hd hon.2 (hon.1.trans hX.symm)
    · intro r hreading
      rw [Clear, hreading] at hclear
      exact hclear
  | posted n result c q' pc running call hpost => exact h.posted call hpost
  | failed n partly c q' running call hfail => exact h.failed call hfail (orderly c call)
  | crashed => exact h.crashed orderly

theorem safe_start : start.Safe :=
  safe_of_no_calls rfl (fun _ => nofun) (fun _ hdecided => absurd rfl hdecided) (by nofun)

/-- In every orderly run each entry is posted at most once, is not both approved and rejected, is not posted after its
    rejection, and is not decided by its submitter; no id stands in both files of decisions. -/
theorem decisions_proper (run : Run.Reachable step Orderly start q) :
    Proper q.issued q.trace ∧ ∀ r ∈ q.approvedFile.records, ∀ r' ∈ q.rejectedFile.records, r.id ≠ r'.id := by
  have hfiled : q.Filed := run.invariant ⟨fun _ hr => absurd hr mem_records_empty, fun _ hr => absurd hr mem_records_empty⟩
    fun _ _ _ h _ hstep => h.step hstep
  obtain ⟨hground, hsafe⟩ : q.Ground ∧ q.Safe := run.invariant (P := fun q => q.Ground ∧ q.Safe) ⟨ground_start, safe_start⟩
    fun _ _ _ ⟨hg, h⟩ orderly hstep => ⟨hg.step hstep, h.step hg orderly hstep⟩
  have hunbroken : ∀ X, fate X q.trace ≠ .broken := fun X => (hsafe.entries X).unbroken
  refine ⟨⟨posted_once hunbroken, fun r r' => one_decision hunbroken, ?_, ?_⟩, ?_⟩
  · intro before X approverId entry after htrace r hr hid
    exact (not_after_rejection hunbroken htrace hr hid).elim
  · intro r hr o ho hid
    obtain ⟨r', hr', hid', hdecider⟩ := hground.attributed.trace o ho
    rwa [inj_on_of_nodup_map hground.attributed.distinct hr hr' (hid.symm.trans hid'.symm)]
  · intro r hr r' hr' hid
    obtain ⟨happroved, hstatus⟩ := hfiled.approved r hr
    obtain ⟨hrejected, hstatus'⟩ := hfiled.rejected r' hr'
    exact one_decision hunbroken happroved hrejected hid hstatus hstatus'

/-- Across overlapping calls and crashes no outcome of an entry comes from its submitter, and what stands in the two files
    of decisions was recorded by a decision. -/
theorem decided_by_another (run : Run.Reachable step (fun _ _ => True) start q) :
    (∀ o ∈ q.trace, ∃ r ∈ q.issued, r.id = o.id ∧ o.decider ≠ some r.submitterId) ∧
      ∀ r ∈ q.approvedFile.records ++ q.rejectedFile.records, .recorded r ∈ q.trace := by
  obtain ⟨hground, hfiled⟩ : q.Ground ∧ q.Filed := run.invariant (P := fun q => q.Ground ∧ q.Filed)
    ⟨ground_start, fun _ hr => absurd hr mem_records_empty, fun _ hr => absurd hr mem_records_empty⟩
    fun _ _ _ ⟨hg, h⟩ _ hstep => ⟨hg.step hstep, h.step hstep⟩
  refine ⟨hground.attributed.trace, fun r hr => ?_⟩
  rcases List.mem_append.1 hr with happroved | hrejected
  · exact (hfiled.approved r happroved).1
  · exact (hfiled.rejected r hrejected).1

instance (calls : List Call) (c : Call) : Decidable (Clear calls c) := by
  unfold Clear
  split <;> infer_instance

instance (q : FourEyesQueue) (ev : QueueEvent) : Decidable (q.Orderly ev) := by
  cases ev <;> unfold Orderly <;> infer_instance

end FourEyesQueue

namespace Sample

def filed (n : Nat) (create : Bool) : List QueueEvent := List.replicate (if create then 5 else 4) (.step n)

def submitted (n : Nat) (id : Uuid) (create : Bool) : List QueueEvent :=
  .call (.submit id [] "Rent" "USD" "alice" 0) :: filed n create ++ [.step n]

def found (n : Nat) (id : Uuid) (approverId : String) : List QueueEvent :=
  [.call (.approve id approverId 1), .step n, .step n]

def approved (n : Nat) (create : Bool) : List QueueEvent := .post n (.ok ()) :: filed n create

def removed (n : Nat) : List QueueEvent := List.replicate 5 (.step n)

def rejected (n : Nat) (id : Uuid) (approverId : String) : List QueueEvent :=
  [.call (.reject id approverId "Twice" 2), .step n] ++ filed n true

/-- An approval and a rejection, a crash, and one more approval of the entry that was rejected. -/
def inOrder : List QueueEvent :=
  [.openQueue] ++ submitted 0 1 true ++ submitted 1 2 false ++ found 2 1 "bob" ++ approved 2 true ++ removed 2 ++
    rejected 3 2 "bob" ++ removed 3 ++ [.crash, .openQueue] ++ found 0 2 "carol"

def overlapping : List QueueEvent :=
  [.openQueue] ++ submitted 0 1 true ++ found 1 1 "bob" ++ found 2 1 "carol" ++ approved 1 true ++ approved 2 false

/-- A crash between an approval and the removal of the record, and a rejection by another user. -/
def interrupted : List QueueEvent :=
  [.openQueue] ++ submitted 0 1 true ++ found 1 1 "bob" ++ approved 1 true ++ [.crash, .openQueue] ++ rejected 0 1 "carol"

end Sample

namespace FourEyesQueue

/-- Of two entries one is approved and one rejected; the latter is not found again after a crash. -/
theorem decisions_proper_in_order :
    ∃ q, Run.exec step start Sample.inOrder = some q ∧ q.trace.length = 3 ∧ q.pendingFile.records = [] ∧
      Proper q.issued q.trace :=
  Run.exists_of_exec (by decide +kernel) rfl fun run => ⟨by decide +kernel, by decide +kernel, (decisions_proper run).1⟩

/-- Two approvals that overlap post the entry twice. After a crash between the approval and the removal of the record, the
    entry can be rejected. -/
theorem decisions_improper : (∃ q, Run.exec step start Sample.overlapping = some q ∧
      q.trace.countP (fun o => o.isPosted && o.id == 1) = 2) ∧
    ∃ q, Run.exec step start Sample.interrupted = some q ∧ (1 ∈ q.approvedFile.ids ∧ 1 ∈ q.rejectedFile.ids) := by
  constructor
  · decide +kernel
  · decide +kernel

theorem decided_by_another_overlapping : ∃ q, Run.exec step start Sample.overlapping = some q ∧
    ∀ o ∈ q.trace, ∃ r ∈ q.issued, r.id = o.id ∧ o.decider ≠ some r.submitterId :=
  Run.exists_of_exec (by decide +kernel) rfl fun run => (decided_by_another run).1

end FourEyesQueue

end VectorLedger.FourEyes
