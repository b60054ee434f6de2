import VectorLedger.Theorems.Index

/-! Signed sums: what entries add up to on an account, in the account's normal direction. -/

namespace VectorLedger

/-! ### Entries -/

namespace JournalEntry

/-- The change of an entry to the balance of `a`, before its status is looked at. -/
def lineSum (debitNormal : Bool) (a : AccountId) (lines : List JournalLine) : Int :=
  ((lines.filter fun l => l.accountId = a).map (·.delta debitNormal)).sum

def balanceDelta (debitNormal : Bool) (a : AccountId) (e : JournalEntry) : Int :=
  if e.status.affectsBalance then lineSum debitNormal a e.lines else 0

end JournalEntry

def signedSum (debitNormal : Bool) (a : AccountId) (es : List JournalEntry) : Int :=
  (es.map (·.balanceDelta debitNormal a)).sum

section Sums
variable {debitNormal : Bool} {a : AccountId} {e : JournalEntry} {es es' : List JournalEntry}
  {line : JournalLine} {lines : List JournalLine}

theorem JournalLine.delta_not (line : JournalLine) (debitNormal : Bool) :
    line.delta (!debitNormal) = -line.delta debitNormal := by
  cases debitNormal <;> cases hdir : line.drCr <;> simp [JournalLine.delta, hdir]

namespace JournalEntry

@[simp] theorem lineSum_nil : lineSum debitNormal a [] = 0 := rfl

theorem lineSum_cons : lineSum debitNormal a (line :: lines) =
      (if line.accountId = a then line.delta debitNormal else 0) + lineSum debitNormal a lines := by
  by_cases h : line.accountId = a <;> simp [lineSum, h]

theorem lineSum_eq_zero (h : ∀ l ∈ lines, l.accountId ≠ a) : lineSum debitNormal a lines = 0 := by
  have hnil : (lines.filter fun l => l.accountId = a) = [] := by
    rw [List.filter_eq_nil_iff]
    intro l hl
    simpa using h l hl
  simp [lineSum, hnil]

theorem lineSum_not : lineSum (!debitNormal) a lines = -lineSum debitNormal a lines := by
  induction lines with
  | nil => rfl
  | cons line lines ih =>
    rw [lineSum_cons, lineSum_cons, ih, JournalLine.delta_not]
    split <;> omega

theorem balanceDelta_eq_zero (h : ∀ l ∈ e.lines, l.accountId ≠ a) : e.balanceDelta debitNormal a = 0 := by
  unfold balanceDelta
  split
  · exact lineSum_eq_zero h
  · rfl

end JournalEntry

@[simp] theorem signedSum_nil : signedSum debitNormal a [] = 0 := rfl

@[simp] theorem signedSum_cons :
    signedSum debitNormal a (e :: es) = e.balanceDelta debitNormal a + signedSum debitNormal a es := by
  simp [signedSum]

/-- What a recount adds to the balance of `a` when it adds the lines of each entry that counts. -/
theorem get_foldl_affecting {f : BalanceCache → List JournalLine → BalanceCache}
    (h : ∀ e ∈ es, ∀ cache, (f cache e.lines).get a = cache.get a + JournalEntry.lineSum debitNormal a e.lines)
    (cache : BalanceCache) :
    (es.foldl (fun cache e => if e.status.affectsBalance then f cache e.lines else cache) cache).get a =
      cache.get a + signedSum debitNormal a es := by
  induction es generalizing cache with
  | nil => simp
  | cons e es ih =>
    rw [List.forall_mem_cons] at h
    rw [List.foldl_cons, ih h.2, signedSum_cons, ← add_assoc]
    congr 1
    unfold JournalEntry.balanceDelta
    split
    · exact h.1 cache
    · exact (add_zero _).symm

@[simp] theorem signedSum_append :
    signedSum debitNormal a (es ++ es') = signedSum debitNormal a es + signedSum debitNormal a es' := by
  simp [signedSum]

theorem signedSum_not : signedSum (!debitNormal) a es = -signedSum debitNormal a es := by
  induction es with
  | nil => rfl
  | cons e es ih =>
    have hdelta : e.balanceDelta (!debitNormal) a = -e.balanceDelta debitNormal a := by
      unfold JournalEntry.balanceDelta
      split
      · exact JournalEntry.lineSum_not
      · rfl
    rw [signedSum_cons, signedSum_cons, ih, hdelta]
    omega

theorem signedSum_filter {p : JournalEntry → Bool} (h : ∀ e ∈ es, p e = false → e.balanceDelta debitNormal a = 0) :
    signedSum debitNormal a (es.filter p) = signedSum debitNormal a es := by
  induction es with
  | nil => rfl
  | cons e es ih =>
    rw [List.forall_mem_cons] at h
    cases hp : p e with
    | true => rw [List.filter_cons_of_pos hp, signedSum_cons, signedSum_cons, ih h.2]
    | false =>
      have hneg : ¬ p e = true := by simp [hp]
      rw [List.filter_cons_of_neg hneg, signedSum_cons, ih h.2, h.1 hp, zero_add]

theorem signedSum_eq_zero (h : ∀ e ∈ es, ∀ l ∈ e.lines, l.accountId ≠ a) : signedSum debitNormal a es = 0 := by
  refine List.sum_eq_zero fun x hx => ?_
  obtain ⟨e, he, rfl⟩ := List.mem_map.1 hx
  exact JournalEntry.balanceDelta_eq_zero (h e he)

end Sums

/-! ### The cache -/

namespace LedgerStore

variable {accounts accounts' : Accounts} {a : AccountId} {acct : Account} {e : JournalEntry}
  {lines : List JournalLine}

def lineDeltas (accounts : Accounts) (lines : List JournalLine) : List (AccountId × Int) :=
  lines.filterMap fun l =>
    (accounts.lookup l.accountId).map fun acct => (l.accountId, l.delta acct.accountType.isDebitNormal)

theorem total_lineDeltas (found : accounts.lookup a = some acct) :
    Tally.total a (lineDeltas accounts lines) = JournalEntry.lineSum acct.accountType.isDebitNormal a lines := by
  induction lines with
  | nil => rfl
  | cons line lines ih =>
    unfold lineDeltas at ih ⊢
    rw [JournalEntry.lineSum_cons, List.filterMap_cons, ← ih]
    by_cases hline : line.accountId = a
    · subst hline
      simp [found, Tally.total_cons]
    · cases haccts : accounts.lookup line.accountId <;> simp [hline, Tally.total_cons]

theorem total_lineDeltas_unknown (unknown : accounts.lookup a = none) : Tally.total a (lineDeltas accounts lines) = 0 := by
  refine Tally.total_eq_zero fun p hp => ?_
  obtain ⟨line, -, hline⟩ := List.mem_filterMap.1 hp
  obtain ⟨acct, hacct, rfl⟩ := Option.map_eq_some_iff.1 hline
  rintro rfl
  rw [unknown] at hacct
  cases hacct

theorem entryDeltas_eq : entryDeltas accounts e = if e.status.affectsBalance then lineDeltas accounts e.lines else [] :=
  rfl

theorem total_entryDeltas (found : accounts.lookup a = some acct) :
    Tally.total a (entryDeltas accounts e) = e.balanceDelta acct.accountType.isDebitNormal a := by
  rw [entryDeltas_eq, JournalEntry.balanceDelta]
  split
  · exact total_lineDeltas found
  · rfl

theorem total_entryDeltas_unknown (unknown : accounts.lookup a = none) : Tally.total a (entryDeltas accounts e) = 0 := by
  rw [entryDeltas_eq]
  split
  · exact total_lineDeltas_unknown unknown
  · rfl

end LedgerStore

end VectorLedger
