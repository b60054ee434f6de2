import VectorLedger.Lib.Slots
import VectorLedger.Theorems.FourEyes

/-! Submissions. While an entry is being submitted it is not in the index, and nothing is decided about it. -/

namespace VectorLedger.FourEyes

/-! ### Calls on an entry -/

def Pc.underWay : Pc → Bool
  | .checking | .getting | .done _ => false
  | _ => true

def Pc.rewriting : Pc → Bool
  | .creating _ _ | .writing _ _ | .replacing _ => true
  | _ => false

/-- The call is under way to decide the entry. -/
def Call.On (c : Call) (X : Uuid) : Prop := c.request.decides = some X ∧ c.pc.underWay = true

/-- The call submits the entry. -/
def Call.Submits (c : Call) (X : Uuid) : Prop := c.request.decides = none ∧ ∃ r, c.pc.record = some r ∧ r.id = X

/-- The call is at a step that its request has. -/
def Call.Fits (c : Call) : Prop :=
  match c.pc with
  | .inserting _ => c.request.decides = none
  | .seeking _ | .making _ | .opening _ | .recording _ _ | .ending _ _ | .done _ => True
  | _ => c.request.decides ≠ none

theorem status_eq_pending_iff (request : Request) : request.status = .pending ↔ request.decides = none := by
  cases request <;> simp [Request.status, Request.decides]

theorem underWay_of_record {pc : Pc} {r : ApprovalRecord} (h : pc.record = some r) : pc.underWay = true := by
  cases pc <;> first | rfl | cases h

namespace FourEyesQueue

open List Slots

variable {q q' : FourEyesQueue} {index : Index} {c c' : Call} {n : Nat} {X Y : Uuid}

theorem calls_setPc (hcalls : q'.calls = q.calls) (request : Request) (pc' : Pc) :
    (q'.setPc n request pc').calls = q.calls.set n ⟨request, pc'⟩ := by
  rw [← hcalls]
  rfl

/-! ### What an action leaves -/

variable {request : Request} {pc pc' : Pc}

theorem acted_fits (hacted : Acted q index request pc q' pc')
    (hpc : Holding q.issued request pc) (hfits : Call.Fits ⟨request, pc⟩) :
    Call.Fits ⟨request, pc'⟩ ∧ (request.decides = none → ∀ r, pc'.record = some r → pc.record = some r) ∧
      (pc'.rewriting = true → pc.rewriting = true ∨ ∃ r, pc = .reading r) := by
  cases hacted with
  | absent | toPost => exact ⟨hfits, (fun _ _ hr => nomatch hr), fun hway => nomatch hway⟩
  | present | refused | inserted | writeGone | renameGone | forgot =>
    exact ⟨trivial, (fun _ _ hr => nomatch hr), fun hway => nomatch hway⟩
  | toReject =>
    exact ⟨trivial, fun hnone => absurd hnone hfits, fun hway => nomatch hway⟩
  | sought | missed | made | opened | recorded => exact ⟨trivial, fun _ _ => id, fun hway => nomatch hway⟩
  | submitted r opened pending =>
    have hstatus := (hpc.record r rfl).2.1.symm.trans pending
    exact ⟨(status_eq_pending_iff request).1 hstatus, fun _ _ => id, fun hway => nomatch hway⟩
  | decided r opened decided =>
    have hstatus : request.status ≠ .pending := (hpc.record r rfl).2.1 ▸ decided
    refine ⟨?_, fun _ _ => id, fun hway => nomatch hway⟩
    exact fun hnone => hstatus ((status_eq_pending_iff request).2 hnone)
  | read r => exact ⟨hfits, fun _ _ => id, fun _ => .inr ⟨r, rfl⟩⟩
  | unread | renamed => exact ⟨hfits, fun _ _ => id, fun hway => nomatch hway⟩
  | created | wrote => exact ⟨hfits, fun _ _ => id, fun _ => .inl rfl⟩

section
variable {request : Request} {pc pc' : Pc} (running : q.index = some index) (hacted : Acted q index request pc q' pc')
include running hacted

theorem acted_running : q'.calls = q.calls ∧ q'.index ≠ none := by
  have hrunning : q.index ≠ none := by
    rw [running]
    nofun
  cases hacted with
  | made =>
    rw [create_eq]
    exact ⟨rfl, hrunning⟩
  | recorded r opened =>
    by_cases hpending : r.status = .pending
    · rw [record_pending hpending]
      exact ⟨rfl, hrunning⟩
    · obtain ⟨approvedFile, rejectedFile, hrecord⟩ := record_decided hpending q opened
      rw [hrecord]
      exact ⟨rfl, hrunning⟩
  | submitted =>
    rw [writeTo_pending]
    exact ⟨rfl, hrunning⟩
  | decided r opened decided q' file =>
    obtain ⟨approvedFile, rejectedFile, rfl⟩ := writeTo_decided decided file
    exact ⟨rfl, hrunning⟩
  | inserted | forgot => exact ⟨rfl, nofun⟩
  | _ => exact ⟨rfl, hrunning⟩

theorem acted_other (hY : ∀ r, pc.record = some r → r.id ≠ Y) :
    fate Y q'.trace = fate Y q.trace ∧ (∀ m', q'.index = some m' → ∃ m, q.index = some m ∧ (m Y = none → m' Y = none)) ∧
      (q'.tmpFile = q.tmpFile ∨ pc.rewriting = true) := by
  have hsame : ∀ m', q.index = some m' → ∃ m, q.index = some m ∧ (m Y = none → m' Y = none) :=
    fun m' hm' => ⟨m', hm', id⟩
  have hupdate : ∀ (r : ApprovalRecord) (v : Option ApprovalRecord), r.id ≠ Y → ∀ m',
      some (Function.update index r.id v) = some m' → ∃ m, q.index = some m ∧ (m Y = none → m' Y = none) := by
    rintro r v hne m' ⟨⟩
    exact ⟨index, running, fun hnone => by rw [Function.update_of_ne hne.symm, hnone]⟩
  cases hacted with
  | absent | present | refused | toPost | toReject | sought | missed | opened | read | unread | writeGone | renameGone =>
    exact ⟨rfl, hsame, .inl rfl⟩
  | made =>
    rw [create_eq]
    exact ⟨rfl, hsame, .inl rfl⟩
  | submitted =>
    rw [writeTo_pending]
    exact ⟨rfl, hsame, .inl rfl⟩
  | created | wrote | renamed => exact ⟨rfl, hsame, .inr rfl⟩
  | recorded r opened =>
    by_cases hpending : r.status = .pending
    · rw [record_pending hpending]
      exact ⟨rfl, hsame, .inl rfl⟩
    · obtain ⟨approvedFile, rejectedFile, hrecord⟩ := record_decided hpending q opened
      rw [hrecord]
      exact ⟨fate_append_other _ (hY r rfl), hsame, .inl rfl⟩
  | decided r opened decided q' file =>
    obtain ⟨approvedFile, rejectedFile, rfl⟩ := writeTo_decided decided file
    exact ⟨rfl, hsame, .inl rfl⟩
  | inserted r | forgot r => exact ⟨rfl, hupdate r _ (hY r rfl), .inl rfl⟩

end

theorem failAt_frame {partly : Bool} (hfail : q.failAt partly pc = some q') :
    q'.trace = q.trace ∧ q'.index = q.index ∧ q'.calls = q.calls ∧
      (q'.tmpFile = q.tmpFile ∨ ∃ r kept, pc = .writing r kept) ∧ ∀ X ∈ q'.pendingFile.ids, X ∈ q.pendingFile.ids := by
  rcases failAt_cases hfail with ⟨r, opened, file, -, rfl, hfile⟩ | ⟨r, kept, tmp, hpc, rfl, -⟩ | ⟨rfl, -⟩
  · by_cases hpending : r.status = .pending
    · rw [hpending, writeTo_pending]
      refine ⟨rfl, rfl, rfl, .inl rfl, fun X hX => ?_⟩
      obtain ⟨r', hr', rfl⟩ := mem_map.1 hX
      exact mem_map_of_mem ((mem_records_written file hr').elim id (hfile _ r'))
    · obtain ⟨approvedFile, rejectedFile, hwrite⟩ := writeTo_decided hpending (rfl : _ = q.writeTo r.status opened file)
      rw [hwrite]
      exact ⟨rfl, rfl, rfl, .inl rfl, fun _ hX => hX⟩
  · exact ⟨rfl, rfl, rfl, .inr ⟨r, kept, hpc⟩, fun _ hX => hX⟩
  · exact ⟨rfl, rfl, rfl, .inl rfl, fun _ hX => hX⟩

/-! ### Entries that are being submitted -/

theorem Attributed.unknown (h : q.Attributed) (hX : X ∉ q.issued.map (·.id)) :
    fate X q.trace = .fresh ∧ (∀ m, q.index = some m → m X = none) ∧ ∀ d ∈ q.calls, ¬d.On X ∧ ¬d.Submits X := by
  have hknown : ∀ r, Known q.issued r → r.id ≠ X := by
    rintro r ⟨r₀, hr₀, hid, -⟩ rfl
    exact hX (mem_map.2 ⟨r₀, hr₀, hid⟩)
  refine ⟨?_, ?_, ?_⟩
  · have hnone : q.trace.filter (·.id == X) = [] := by
      refine filter_eq_nil_iff.2 fun o ho heq => ?_
      obtain ⟨r, hr, hid, -⟩ := h.trace o ho
      exact hX (mem_map.2 ⟨r, hr, hid.trans (beq_iff_eq.1 heq)⟩)
    rw [fate, hnone]
    rfl
  · intro m hm
    cases hr : m X with
    | none => rfl
    | some r =>
      obtain ⟨hid, hr'⟩ := h.index m hm X r hr
      exact absurd hid (hknown r hr')
  · intro d hd
    have hpc := h.calls d hd
    constructor
    · rintro ⟨hdecides, hunder⟩
      cases hrecord : d.pc.record with
      | some r =>
        obtain ⟨hfound, -⟩ := hpc.record r hrecord
        exact hknown r hfound.known (hfound.id X hdecides)
      | none =>
        cases hposting : d.pc with
        | posting r =>
          have hfound := hpc.found r (by rw [hposting]; rfl)
          exact hknown r hfound.known (hfound.id X hdecides)
        | _ => simp_all [Pc.underWay, Pc.record]
    · rintro ⟨-, r, hr, hid⟩
      exact hknown r (hpc.record r hr).1.known hid

/-- An entry that is being submitted is not decided or listed yet, and by no second call submitted. -/
def Unfound (q : FourEyesQueue) (X : Uuid) : Prop :=
  ∀ (i : Nat) (c : Call), q.calls[i]? = some c → c.Submits X →
    fate X q.trace = .fresh ∧ (∀ m, q.index = some m → m X = none) ∧ (∀ d ∈ q.calls, ¬d.On X) ∧
      ∀ (j : Nat) (d : Call), q.calls[j]? = some d → d.Submits X → j = i

/-- What holds in every run, whether or not a decision goes wrong. -/
structure Ground (q : FourEyesQueue) : Prop where
  attributed : q.Attributed
  created : q.Created
  unfound : ∀ X, q.Unfound X
  fits : ∀ c ∈ q.calls, c.Fits
  closed : q.index = none → q.calls = []

theorem Unfound.set (h : q.Unfound X) (hc : q.calls[n]? = some c) (hcalls : q'.calls = q.calls.set n c')
    (hsubmits : c'.Submits X → c.Submits X)
    (hnext : ∀ (i : Nat) (d : Call), q.calls[i]? = some d → d.Submits X → (i = n → c'.Submits X) →
      ¬c'.On X ∧ fate X q'.trace = .fresh ∧ ∀ m, q'.index = some m → m X = none) : q'.Unfound X := by
  have hback : ∀ {i d}, q'.calls[i]? = some d → d.Submits X →
      ∃ e, q.calls[i]? = some e ∧ e.Submits X ∧ (i = n → c'.Submits X) := by
    intro i d hd hsub
    rw [hcalls] at hd
    rcases getElem?_set_cases hd with ⟨rfl, rfl⟩ | ⟨hne, hold⟩
    · exact ⟨c, hc, hsubmits hsub, fun _ => hsub⟩
    · exact ⟨d, hold, hsub, fun heq => absurd heq hne⟩
  intro i d hd hsub
  obtain ⟨e, he, hsube, hself⟩ := hback hd hsub
  obtain ⟨-, -, hnone, hone⟩ := h i e he hsube
  obtain ⟨hnot, hfresh, habsent⟩ := hnext i e he hsube hself
  refine ⟨hfresh, habsent, ?_, ?_⟩
  · intro d' hd' hon
    rw [hcalls] at hd'
    rcases mem_set_cases hd' with rfl | ⟨j, -, hj⟩
    · exact hnot hon
    · exact hnone d' (mem_of_getElem? hj) hon
  · intro j d' hd' hsub'
    obtain ⟨e', he', hsube', -⟩ := hback hd' hsub'
    exact hone j e' he' hsube'

theorem Ground.acted_submits (h : q.Ground) (hc : q.calls[n]? = some ⟨request, pc⟩)
    (hacted : Acted q index request pc q' pc') (hsub : Call.Submits ⟨request, pc⟩ X) :
    fate X q'.trace = .fresh ∧ (Call.Submits ⟨request, pc'⟩ X → ∀ m, q'.index = some m → m X = none) := by
  have hmem := mem_of_getElem? hc
  obtain ⟨hfresh, habsent, -, -⟩ := h.unfound X n _ hc hsub
  obtain ⟨hdecides, r, hr, -⟩ := hsub
  have hstatus : r.status = .pending :=
    ((h.attributed.calls _ hmem).record r hr).2.1.trans ((status_eq_pending_iff request).2 hdecides)
  cases hacted with
  | absent | present | refused | toPost | toReject => cases hr
  | sought | missed | opened => exact ⟨hfresh, fun _ => habsent⟩
  | made =>
    rw [create_eq]
    exact ⟨hfresh, fun _ => habsent⟩
  | recorded =>
    cases hr
    rw [record_pending hstatus]
    exact ⟨hfresh, fun _ => habsent⟩
  | submitted =>
    rw [writeTo_pending]
    exact ⟨hfresh, fun _ => habsent⟩
  | decided r' opened decided =>
    cases hr
    exact absurd hstatus decided
  | inserted => exact ⟨hfresh, fun hsub' => nomatch hsub'.2⟩
  | read | unread | created | wrote | writeGone | renamed | renameGone | forgot => exact absurd hdecides (h.fits _ hmem)

theorem acted_on_cases (hacted : Acted q index request pc q' pc')
    (hon : Call.On ⟨request, pc'⟩ X) : Call.On ⟨request, pc⟩ X ∨ ∃ r, index X = some r := by
  cases hacted with
  | absent | present | refused | inserted | writeGone | renameGone | forgot => exact nomatch hon.2
  | toPost id approverId now r entry approve found =>
    subst approve
    obtain rfl := Option.some.inj hon.1
    exact .inr ⟨r, found⟩
  | toReject id approverId reason now r reject found =>
    subst reject
    obtain rfl := Option.some.inj hon.1
    exact .inr ⟨r, found⟩
  | _ => exact .inl ⟨hon.1, rfl⟩

theorem Holding.about {issued : List ApprovalRecord} {r : ApprovalRecord}
    (h : Holding issued request pc) (hr : pc.record = some r) :
    Call.Submits ⟨request, pc⟩ r.id ∨ Call.On ⟨request, pc⟩ r.id := by
  cases hdecides : request.decides with
  | none => exact .inl ⟨hdecides, r, hr, rfl⟩
  | some Y =>
    obtain rfl : r.id = Y := (h.record r hr).1.id Y hdecides
    exact .inr ⟨hdecides, underWay_of_record hr⟩

theorem Ground.unfound_acted (h : q.Ground) (running : q.index = some index)
    (hc : q.calls[n]? = some ⟨request, pc⟩) (hacted : Acted q index request pc q' pc') :
    (q'.setPc n request pc').Unfound X := by
  have hmem := mem_of_getElem? hc
  have hpc := h.attributed.calls _ hmem
  obtain ⟨hcalls, -⟩ := acted_running running hacted
  obtain ⟨-, hkeeps, -⟩ := acted_fits hacted hpc (h.fits _ hmem)
  refine (h.unfound X).set hc (calls_setPc hcalls request pc') ?_ ?_
  · rintro ⟨hdecides, r, hr, hid⟩
    exact ⟨hdecides, r, hkeeps hdecides r hr, hid⟩
  · intro i d hd hsub hself
    obtain ⟨hfresh, habsent, hnone, hone⟩ := h.unfound X i d hd hsub
    have hnot : ¬Call.On ⟨request, pc'⟩ X := by
      intro hon
      rcases acted_on_cases hacted hon with hold | ⟨r, hr⟩
      · exact hnone _ hmem hold
      · rw [habsent index running] at hr
        cases hr
    refine ⟨hnot, ?_⟩
    by_cases hi : i = n
    · subst hi
      obtain rfl := Option.some.inj (hd.symm.trans hc)
      obtain ⟨hfresh', habsent'⟩ := h.acted_submits hc hacted hsub
      exact ⟨hfresh', habsent' (hself rfl)⟩
    · -- The action is about another entry.
      have hother : ∀ r, pc.record = some r → r.id ≠ X := by
        rintro r hr rfl
        rcases hpc.about hr with hsub' | hon
        · exact hi (hone n _ hc hsub').symm
        · exact hnone _ hmem hon
      obtain ⟨hfate, hmemory, -⟩ := acted_other running hacted hother
      refine ⟨hfate.trans hfresh, fun m hm => ?_⟩
      obtain ⟨m₀, hm₀, hless⟩ := hmemory m hm
      exact hless (habsent m₀ hm₀)

theorem Ground.unfound_posted (h : q.Ground) (hc : q.calls[n]? = some ⟨request, pc⟩) {result : Except String Unit}
    (hpost : q.post request result pc = some (q', pc')) : (q'.setPc n request pc').Unfound X := by
  have hmem := mem_of_getElem? hc
  rcases post_cases hpost with ⟨r, entry, e, rfl, rfl, rfl⟩ | ⟨id, approverId, now, r, entry, rfl, rfl, rfl, rfl⟩
  · refine (h.unfound X).set hc rfl (fun hsub => nomatch hsub.2) fun i d hd hsub _ => ?_
    obtain ⟨hfresh, habsent, -, -⟩ := h.unfound X i d hd hsub
    exact ⟨(fun hon => nomatch hon.2), hfresh, habsent⟩
  · refine (h.unfound X).set hc rfl (fun hsub => nomatch hsub.1) fun i d hd hsub _ => ?_
    obtain ⟨hfresh, habsent, hnone, -⟩ := h.unfound X i d hd hsub
    have hne : id ≠ X := by
      rintro rfl
      exact hnone _ hmem ⟨rfl, rfl⟩
    have hfate : fate X (q.trace ++ [.posted id approverId entry]) = fate X q.trace := fate_append_other q.trace hne
    exact ⟨fun hon => hne (Option.some.inj hon.1), hfate.trans hfresh, habsent⟩

theorem Ground.unfound_failed (h : q.Ground) {partly : Bool}
    (hc : q.calls[n]? = some ⟨request, pc⟩) (hfail : q.failAt partly pc = some q') :
    (q'.setPc n request (.done (.error .io))).Unfound X := by
  obtain ⟨htrace, hindex, hcalls, -, -⟩ := failAt_frame hfail
  refine (h.unfound X).set hc (calls_setPc hcalls request _) (fun hsub => nomatch hsub.2) fun i d hd hsub _ => ?_
  obtain ⟨hfresh, habsent, -, -⟩ := h.unfound X i d hd hsub
  exact ⟨(fun hon => nomatch hon.2), (congrArg (fate X) htrace).trans hfresh, fun m hm => habsent m (hindex.symm.trans hm)⟩

theorem Unfound.append (h : q.Unfound X) (hcalls : q'.calls = q.calls ++ [c']) (htrace : q'.trace = q.trace)
    (hindex : q'.index = q.index) (hnot : ¬c'.On X)
    (hnew : c'.Submits X → fate X q.trace = .fresh ∧ (∀ m, q.index = some m → m X = none) ∧
      ∀ d ∈ q.calls, ¬d.On X ∧ ¬d.Submits X) : q'.Unfound X := by
  intro i d hd hsub
  rw [htrace, hindex, hcalls]
  rw [hcalls] at hd
  rcases getElem?_append_cases hd with hold | ⟨rfl, rfl⟩
  · obtain ⟨hfresh, habsent, hnone, hone⟩ := h i d hold hsub
    refine ⟨hfresh, habsent, ?_, ?_⟩
    · intro e he hon
      rcases mem_append.1 he with hold' | hlast
      · exact hnone e hold' hon
      · obtain rfl := mem_singleton.1 hlast
        exact hnot hon
    · intro j e he hsub'
      rcases getElem?_append_cases he with hold' | ⟨-, rfl⟩
      · exact hone j e hold' hsub'
      · exact absurd hsub ((hnew hsub').2.2 d (mem_of_getElem? hold)).2
  · obtain ⟨hfresh, habsent, hnone⟩ := hnew hsub
    refine ⟨hfresh, habsent, ?_, ?_⟩
    · intro e he hon
      rcases mem_append.1 he with hold | hlast
      · exact (hnone e hold).1 hon
      · obtain rfl := mem_singleton.1 hlast
        exact hnot hon
    · intro j e he hsub'
      rcases getElem?_append_cases he with hold | ⟨hj, -⟩
      · exact absurd hsub' (hnone e (mem_of_getElem? hold)).2
      · exact hj

theorem Ground.unfound_begin (h : q.Ground) (hbegin : q.begin request = some q') : q'.Unfound X := by
  cases request with
  | submit =>
    obtain ⟨hnew, ⟨⟩⟩ := Option.ite_none_left_eq_some.1 hbegin
    refine (h.unfound X).append rfl rfl rfl (fun hon => by cases hon.1) ?_
    rintro ⟨-, r, hr, rfl⟩
    cases hr
    exact h.attributed.unknown hnew
  | approve | reject =>
    cases hbegin
    exact (h.unfound X).append rfl rfl rfl (fun hon => by cases hon.2) fun hsub => by cases hsub.1

theorem begin_calls (hbegin : q.begin request = some q') :
    q'.index = q.index ∧ ∃ c', q'.calls = q.calls ++ [c'] ∧ c'.Fits ∧ c'.pc.rewriting = false := by
  cases request with
  | submit =>
    obtain ⟨-, ⟨⟩⟩ := Option.ite_none_left_eq_some.1 hbegin
    exact ⟨rfl, _, rfl, trivial, rfl⟩
  | approve | reject =>
    cases hbegin
    exact ⟨rfl, _, rfl, (fun h => by cases h), rfl⟩

theorem fits_set {cs : List Call} (h : ∀ d ∈ cs, d.Fits) (hfits : c'.Fits) : ∀ d ∈ cs.set n c', d.Fits := by
  intro d hd
  rcases mem_set_cases hd with rfl | ⟨i, -, hi⟩
  · exact hfits
  · exact h d (mem_of_getElem? hi)

theorem post_frame {result : Except String Unit} (hpost : q.post request result pc = some (q', pc')) :
    q'.calls = q.calls ∧ q'.index = q.index ∧ Call.Fits ⟨request, pc'⟩ := by
  rcases post_cases hpost with ⟨r, entry, e, -, rfl, rfl⟩ | ⟨id, approverId, now, r, entry, -, -, rfl, rfl⟩
  · exact ⟨rfl, rfl, trivial⟩
  · exact ⟨rfl, rfl, trivial⟩

/-- What the decisions rest on is kept by every event. -/
theorem Ground.step (h : q.Ground) {ev : QueueEvent} (hstep : q.step ev = some q') : q'.Ground := by
  have ha := h.attributed.step hstep
  have hcreated := h.created.step hstep
  cases step_cases hstep with
  | opened closed =>
    have hcalls := h.closed closed
    refine ⟨ha, hcreated, fun X i c hc => ?_, h.fits, nofun⟩
    rw [show q.calls = [] from hcalls] at hc
    cases hc
  | began request q' running hbegin =>
    obtain ⟨hindex, c', hcalls, hfits, -⟩ := begin_calls hbegin
    refine ⟨ha, hcreated, fun X => h.unfound_begin hbegin, ?_, fun hnone => absurd (hindex.symm.trans hnone) running⟩
    intro d hd
    rw [hcalls] at hd
    rcases mem_append.1 hd with hold | hlast
    · exact h.fits d hold
    · obtain rfl := mem_singleton.1 hlast
      exact hfits
  | acted index n c q' pc running call acted =>
    have hmem := mem_of_getElem? call
    obtain ⟨hcalls, hindex⟩ := acted_running running acted
    obtain ⟨hfits, -, -⟩ := acted_fits acted (h.attributed.calls _ hmem) (h.fits _ hmem)
    refine ⟨ha, hcreated, fun X => h.unfound_acted running call acted, ?_, fun hnone => absurd hnone hindex⟩
    rw [calls_setPc hcalls]
    exact fits_set h.fits hfits
  | posted n result c q' pc running call hpost =>
    obtain ⟨hcalls, hindex, hfits⟩ := post_frame hpost
    refine ⟨ha, hcreated, fun X => h.unfound_posted call hpost, ?_, fun hnone => absurd (hindex.symm.trans hnone) running⟩
    rw [calls_setPc hcalls]
    exact fits_set h.fits hfits
  | failed n partly c q' running call hfail =>
    obtain ⟨-, hindex, hcalls, -, -⟩ := failAt_frame hfail
    refine ⟨ha, hcreated, fun X => h.unfound_failed call hfail, ?_, fun hnone => absurd (hindex.symm.trans hnone) running⟩
    rw [calls_setPc hcalls]
    exact fits_set h.fits trivial
  | crashed => exact ⟨ha, hcreated, fun X i c hc => (nomatch hc), fun c hc => (nomatch hc), fun _ => rfl⟩

theorem ground_start : start.Ground where
  attributed := attributed_start
  created := ⟨fun _ => rfl, fun _ hc => nomatch hc⟩
  unfound _ _ _ hc := nomatch hc
  fits _ hc := nomatch hc
  closed _ := rfl

end FourEyesQueue

end VectorLedger.FourEyes
