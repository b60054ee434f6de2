import Mathlib.Data.Finmap
import Mathlib.Data.List.Basic

/-! Logs of transactions, kept in segments. A transaction writes a begin record, its rows and a commit record; a reader keeps
    the rows of each open transaction and hands them over at the commit. `Grows` says what appends do to the log, read from
    any segment on, and `Sliced` that what such a reader sees is the end of what the log has committed. -/

section
/-- The first bytes of a record, left in a segment behind so many whole records by a write that failed. -/
structure Tear where
  segment : Nat
  before : Nat
  bytes : Nat
  deriving DecidableEq, Repr

/-- The whole records of a log, segment by segment, and in the order of the log the torn ones between them. -/
structure Segments (R : Type) where
  sealedSegments : List (List R)
  active : List R
  tears : List Tear
  deriving DecidableEq, Repr

namespace Segments

open List

variable {R : Type} {w w' w'' : Segments R} {r : R} {rs rs' : List R} {k : Nat}

def empty : Segments R := ⟨[], [], []⟩

def all (w : Segments R) : List (List R) := w.sealedSegments ++ [w.active]

def lastIndex (w : Segments R) : Nat := w.sealedSegments.length

def records (w : Segments R) : List R := w.all.flatten

def recordsFrom (w : Segments R) (k : Nat) : List R := (w.all.drop k).flatten

def roll (w : Segments R) : Segments R := { w with sealedSegments := w.sealedSegments ++ [w.active], active := [] }

def append (fits : Segments R → R → Bool) (w : Segments R) (r : R) : Segments R :=
  if fits w r then { w with active := w.active ++ [r] } else { w.roll with active := [r] }

def appendAll (fits : Segments R → R → Bool) (w : Segments R) (rs : List R) : Segments R :=
  rs.foldl (append fits) w

def tear (w : Segments R) (bytes : Nat) : Segments R :=
  { w with tears := w.tears ++ [⟨w.lastIndex, w.active.length, bytes⟩] }

/-- What an append that fails leaves: it may have opened a new segment, and written so many bytes of the record. -/
def stopAt (w : Segments R) (rolled : Bool) (torn : Nat) : Segments R :=
  let w := if rolled then w.roll else w
  if 0 < torn then w.tear torn else w

/-- No record stands behind a torn one. -/
def TornAtEnd (w : Segments R) : Prop := w.tears = [] ∨ ∃ n, w.tears = [⟨w.lastIndex, w.active.length, n⟩]

@[simp] theorem recordsFrom_zero : w.recordsFrom 0 = w.records := rfl

@[simp] theorem length_all : w.all.length = w.lastIndex + 1 := by
  simp [all, lastIndex]

theorem recordsFrom_of_lastIndex_lt (hk : w.lastIndex < k) : w.recordsFrom k = [] := by
  rw [recordsFrom, drop_of_length_le (by rw [length_all]; exact hk), flatten_nil]

theorem mem_of_mem_recordsFrom (h : r ∈ w.recordsFrom k) : r ∈ w.records := by
  obtain ⟨segment, hsegment, hr⟩ := mem_flatten.1 h
  exact mem_flatten.2 ⟨segment, mem_of_mem_drop hsegment, hr⟩

theorem appendAll_tears (fits : Segments R → R → Bool) : (w.appendAll fits rs).tears = w.tears := by
  refine foldlRecOn (motive := fun w' : Segments R => w'.tears = w.tears) rs _ rfl fun w' hw r _ => ?_
  unfold append
  split <;> exact hw

theorem tornAtEnd_stopAt (untorn : w.tears = []) (rolled : Bool) (torn : Nat) : (w.stopAt rolled torn).TornAtEnd := by
  have tear : ∀ w' : Segments R, w'.tears = [] → (if 0 < torn then w'.tear torn else w').TornAtEnd := fun w' h => by
    split
    · exact .inr ⟨torn, by simp [Segments.tear, h, lastIndex]⟩
    · exact .inl h
  cases rolled <;> exact tear _ untorn

/-- `w'` is `w` with the records `rs` appended, and possibly some rolls and torn records. -/
structure Grows (w w' : Segments R) (rs : List R) : Prop where
  lastIndex_le : w.lastIndex ≤ w'.lastIndex
  records : w'.records = w.records ++ rs
  recordsFrom : ∀ k ≤ w.lastIndex, w'.recordsFrom k = w.recordsFrom k ++ rs
  /-- A segment opened meanwhile starts somewhere inside `rs`. -/
  fresh : ∀ k, w.lastIndex < k → ∃ n, w'.recordsFrom k = rs.drop n

namespace Grows

theorem refl (w : Segments R) : Grows w w [] where
  lastIndex_le := Nat.le_refl _
  records := (append_nil _).symm
  recordsFrom _ _ := (append_nil _).symm
  fresh _ hk := ⟨0, recordsFrom_of_lastIndex_lt hk⟩

theorem trans (h₁ : Grows w w' rs) (h₂ : Grows w' w'' rs') : Grows w w'' (rs ++ rs') where
  lastIndex_le := Nat.le_trans h₁.lastIndex_le h₂.lastIndex_le
  records := by rw [h₂.records, h₁.records, append_assoc]
  recordsFrom k hk := by
    rw [h₂.recordsFrom k (Nat.le_trans hk h₁.lastIndex_le), h₁.recordsFrom k hk, append_assoc]
  fresh k hk := by
    by_cases hk' : k ≤ w'.lastIndex
    · obtain ⟨n, hn⟩ := h₁.fresh k hk
      refine ⟨min n rs.length, ?_⟩
      rw [h₂.recordsFrom k hk', hn]
      rcases Nat.le_total n rs.length with hle | hle
      · rw [Nat.min_eq_left hle, drop_append_of_le_length hle]
      · rw [Nat.min_eq_right hle, drop_of_length_le hle, drop_left]
        rfl
    · obtain ⟨n, hn⟩ := h₂.fresh k (Nat.lt_of_not_le hk')
      exact ⟨rs.length + n, by rw [hn, drop_append]; simp⟩

theorem push (w : Segments R) (r : R) : Grows w { w with active := w.active ++ [r] } [r] where
  lastIndex_le := Nat.le_refl _
  records := by simp [Segments.records, Segments.all]
  recordsFrom k hk := by
    have hk' : k - w.sealedSegments.length = 0 := Nat.sub_eq_zero_of_le hk
    simp [Segments.recordsFrom, Segments.all, drop_append, hk']
  fresh _ hk := ⟨1, recordsFrom_of_lastIndex_lt hk⟩

theorem roll (w : Segments R) : Grows w w.roll [] where
  lastIndex_le := by simp [Segments.roll, Segments.lastIndex]
  records := by simp [Segments.records, Segments.all, Segments.roll]
  recordsFrom k hk := by
    have hk' : k - w.sealedSegments.length = 0 := Nat.sub_eq_zero_of_le hk
    simp [Segments.recordsFrom, Segments.all, Segments.roll, drop_append, hk']
  fresh k hk := ⟨0, by
    rcases Nat.eq_or_lt_of_le hk with rfl | hlt
    · show ((w.all ++ [[]]).drop (w.lastIndex + 1)).flatten = []
      rw [← length_all, drop_left]
      rfl
    · exact recordsFrom_of_lastIndex_lt (by simpa [Segments.roll, Segments.lastIndex] using hlt)⟩

theorem stopAt (h : Grows w w' rs) (rolled : Bool) (torn : Nat) : Grows w (w'.stopAt rolled torn) rs := by
  have tear : ∀ w'' : Segments R, Grows w w'' rs → Grows w (if 0 < torn then w''.tear torn else w'') rs := fun w'' h => by
    split
    · exact ⟨h.lastIndex_le, h.records, h.recordsFrom, h.fresh⟩
    · exact h
  cases rolled
  · exact tear w' h
  · exact tear w'.roll (append_nil rs ▸ h.trans (roll w'))

theorem append (fits : Segments R → R → Bool) (w : Segments R) (r : R) : Grows w (w.append fits r) [r] := by
  unfold Segments.append
  split
  · exact push w r
  · exact (roll w).trans (push w.roll r)

theorem appendAll (fits : Segments R → R → Bool) (w : Segments R) (rs : List R) : Grows w (w.appendAll fits rs) rs := by
  induction rs generalizing w with
  | nil => exact refl w
  | cons r rs ih => exact (append fits w r).trans (ih (w.append fits r))

end Grows

end Segments

end

namespace TxLog

open List

/-- A record of the log. `mark` stands for the records a reader passes over. -/
inductive Record (β α κ : Type) where
  | begin (tx : Nat) (info : β)
  | data (tx : Nat) (row : α)
  | commit (tx : Nat) (info : κ)
  | rollback (tx : Nat)
  | mark
  deriving DecidableEq, Repr

structure Committed (α κ : Type) where
  tx : Nat
  rows : List α
  info : κ
  deriving DecidableEq, Repr

abbrev Pending (α : Type) := Finmap fun _ : Nat => List α

variable {β α κ ε σ : Type}

def rowsOf (p : Pending α) (tx : Nat) : List α := (p.lookup tx).getD []

def read (p : Pending α) : Record β α κ → Pending α × Option (Committed α κ)
  | .begin tx _ => (p.insert tx (rowsOf p tx), none)
  | .data tx row => (p.insert tx (rowsOf p tx ++ [row]), none)
  | .commit tx info => (p.erase tx, some ⟨tx, rowsOf p tx, info⟩)
  | .rollback tx => (p.erase tx, none)
  | .mark => (p, none)

/-- Read a log, check each transaction at its commit and hand it to `onCommit`. -/
def recover (check : Committed α κ → Except ε Unit) (onCommit : σ → Committed α κ → σ) :
    Pending α → σ → List (Record β α κ) → Except ε σ
  | _, acc, [] => .ok acc
  | p, acc, r :: rs =>
    match read p r with
    | (p', none) => recover check onCommit p' acc rs
    | (p', some t) => do
      check t
      recover check onCommit p' (onCommit acc t) rs

/-- The transactions a reader with the pending rows `p` gets from a log. -/
def committedFrom (p : Pending α) : List (Record β α κ) → List (Committed α κ)
  | [] => []
  | r :: rs => (read p r).2.toList ++ committedFrom (read p r).1 rs

def pendingFrom (p : Pending α) (rs : List (Record β α κ)) : Pending α :=
  rs.foldl (fun p r => (read p r).1) p

def committed (rs : List (Record β α κ)) : List (Committed α κ) := committedFrom ∅ rs

def rows (rs : List (Record β α κ)) : List α := (committed rs).flatMap (·.rows)

/-- The rows that a log leaves pending under `tx`. -/
def leftover (rs : List (Record β α κ)) (tx : Nat) : List α := rowsOf (pendingFrom ∅ rs) tx

def transaction (tx : Nat) (b : β) (rs : List α) (c : κ) : List (Record β α κ) :=
  .begin tx b :: (rs.map (.data tx) ++ [.commit tx c])

variable {p : Pending α} {rs rs' : List (Record β α κ)} {r : Record β α κ} {tx tx' : Nat} {b : β} {c : κ}
  {as : List α}

/-! ### Reading in two parts -/

@[simp] theorem committedFrom_append :
    committedFrom p (rs ++ rs') = committedFrom p rs ++ committedFrom (pendingFrom p rs) rs' := by
  induction rs generalizing p with
  | nil => rfl
  | cons r rs ih => simp [committedFrom, pendingFrom, ih]

@[simp] theorem pendingFrom_append : pendingFrom p (rs ++ rs') = pendingFrom (pendingFrom p rs) rs' := by
  simp [pendingFrom]

theorem committed_append : committed (rs ++ rs') = committed rs ++ committedFrom (pendingFrom ∅ rs) rs' :=
  committedFrom_append

theorem rows_append : rows (rs ++ rs') = rows rs ++ (committedFrom (pendingFrom ∅ rs) rs').flatMap (·.rows) := by
  simp only [rows, committed_append, flatMap_append]

section
variable {check : Committed α κ → Except ε Unit} {onCommit : σ → Committed α κ → σ}

theorem recover_eq {acc : σ} (h : ∀ t ∈ committedFrom p rs, check t = .ok ()) :
    recover check onCommit p acc rs = .ok ((committedFrom p rs).foldl onCommit acc) := by
  induction rs generalizing p acc with
  | nil => rfl
  | cons r rs ih =>
    unfold recover
    rcases hread : read p r with ⟨p', _ | t⟩
    · simp only [committedFrom, hread] at h ⊢
      exact ih h
    · simp only [committedFrom, hread, Option.toList_some, singleton_append, mem_cons, forall_eq_or_imp] at h ⊢
      rw [h.1]
      exact ih h.2

theorem recover_ok {acc res : σ} (h : recover check onCommit p acc rs = .ok res) :
    res = (committedFrom p rs).foldl onCommit acc := by
  induction rs generalizing p acc with
  | nil => exact (Except.ok.inj h).symm
  | cons r rs ih =>
    unfold recover at h
    rcases hread : read p r with ⟨p', _ | t⟩
    · simp only [hread] at h
      simp only [committedFrom, hread]
      exact ih h
    · simp only [hread] at h
      simp only [committedFrom, hread]
      cases hcheck : check t with
      | error => simp [hcheck, bind, Except.bind] at h
      | ok =>
        simp only [hcheck] at h
        exact ih h

end

def Record.isCommit : Record β α κ → Bool
  | .commit _ _ => true
  | _ => false

theorem length_committedFrom : (committedFrom p rs).length = rs.countP Record.isCommit := by
  induction rs generalizing p with
  | nil => rfl
  | cons r rs ih =>
    rw [committedFrom, length_append, ih, countP_cons, Nat.add_comm]
    cases r <;> rfl

/-! ### Rows of a transaction -/

@[simp] theorem rowsOf_empty : rowsOf (∅ : Pending α) tx = [] := by
  simp [rowsOf]

theorem rowsOf_insert : rowsOf (p.insert tx as) tx' = if tx' = tx then as else rowsOf p tx' := by
  unfold rowsOf
  split
  · next h => rw [h, Finmap.lookup_insert, Option.getD_some]
  · next h => rw [Finmap.lookup_insert_of_ne _ h]

theorem rowsOf_erase : rowsOf (p.erase tx) tx' = if tx' = tx then [] else rowsOf p tx' := by
  unfold rowsOf
  split
  · next h => rw [h, Finmap.lookup_erase, Option.getD_none]
  · next h => rw [Finmap.lookup_erase_ne h]

theorem committedFrom_data : committedFrom (κ := κ) (β := β) p (as.map (.data tx)) = [] := by
  induction as generalizing p with
  | nil => rfl
  | cons a as ih => exact ih

theorem rowsOf_data : rowsOf (pendingFrom (κ := κ) (β := β) p (as.map (.data tx))) tx' =
      if tx' = tx then rowsOf p tx ++ as else rowsOf p tx' := by
  induction as generalizing p with
  | nil =>
    split
    · next h => simp [pendingFrom, h]
    · rfl
  | cons a as ih =>
    show rowsOf (pendingFrom (read p (.data tx a : Record β α κ)).1 _) tx' = _
    rw [ih]
    simp only [read, rowsOf_insert]
    split <;> simp

theorem committedFrom_transaction : committedFrom p (transaction tx b as c) = [⟨tx, rowsOf p tx ++ as, c⟩] := by
  show committedFrom (p.insert tx (rowsOf p tx)) (as.map (.data tx) ++ [.commit tx c]) = _
  rw [committedFrom_append, committedFrom_data]
  simp [committedFrom, read, rowsOf_data, rowsOf_insert]

theorem take_transaction {n : Nat} (hn : n ≤ as.length + 1) : (transaction tx b as c).take n = [] ∨
      ∃ as', as' <+: as ∧ (transaction tx b as c).take n = .begin tx b :: as'.map (.data tx) := by
  cases n with
  | zero => exact .inl rfl
  | succ n =>
    refine .inr ⟨as.take n, take_prefix n as, ?_⟩
    have hn' : n ≤ (as.map (Record.data (β := β) (κ := κ) tx)).length := by
      rw [length_map]; exact Nat.le_of_succ_le_succ hn
    rw [transaction, take_succ_cons, take_append_of_le_length hn', map_take]

theorem committedFrom_take_transaction {n : Nat} (hn : n ≤ as.length + 1) :
    committedFrom p ((transaction tx b as c).take n) = [] := by
  rcases take_transaction hn with h | ⟨as', -, h⟩
  · rw [h]; rfl
  · rw [h]; exact committedFrom_data

theorem data_of_mem_committedFrom {t : Committed α κ} {a : α} (ht : t ∈ committedFrom p rs) (ha : a ∈ t.rows) :
    a ∈ rowsOf p t.tx ∨ Record.data t.tx a ∈ rs := by
  induction rs generalizing p with
  | nil => cases ht
  | cons r rs ih =>
    rw [committedFrom, mem_append] at ht
    have hread : a ∈ rowsOf (read p r).1 t.tx → a ∈ rowsOf p t.tx ∨ Record.data t.tx a = r := by
      intro hmem
      cases r with
      | begin =>
        rw [read, rowsOf_insert] at hmem
        split at hmem
        · next heq => exact .inl (heq ▸ hmem)
        · exact .inl hmem
      | data =>
        rw [read, rowsOf_insert] at hmem
        split at hmem
        · next heq =>
          rcases mem_append.1 hmem with hold | hnew
          · exact .inl (heq ▸ hold)
          · rw [mem_singleton.1 hnew, heq]
            exact .inr rfl
        · exact .inl hmem
      | commit | rollback =>
        rw [read, rowsOf_erase] at hmem
        split at hmem
        · cases hmem
        · exact .inl hmem
      | mark => exact .inl hmem
    rcases ht with hnow | hlater
    · cases r with
      | commit =>
        obtain rfl := mem_singleton.1 hnow
        exact .inl ha
      | _ => cases hnow
    · rcases ih hlater with hpending | hdata
      · refine (hread hpending).imp_right ?_
        rintro rfl
        exact mem_cons_self
      · exact .inr (mem_cons_of_mem _ hdata)

theorem data_of_mem_rows {a : α} (ha : a ∈ rows rs) : ∃ tx, Record.data tx a ∈ rs := by
  obtain ⟨t, ht, hrow⟩ := mem_flatMap.1 ha
  rcases data_of_mem_committedFrom ht hrow with hnone | hdata
  · cases hnone
  · exact ⟨t.tx, hdata⟩

/-! ### Readers of some rows

A reader that keeps of each row what `f` gives, and passes over the rows that it refuses, gets the same transactions
with their rows so reduced. -/

def Record.filterRow {γ : Type} (f : α → Option γ) : Record β α κ → Record β γ κ
  | .begin tx info => .begin tx info
  | .data tx row =>
    match f row with
    | some x => .data tx x
    | none => .mark
  | .commit tx info => .commit tx info
  | .rollback tx => .rollback tx
  | .mark => .mark

section Filter
variable {γ : Type} {f : α → Option γ} {q : Pending γ}

section
variable (h : ∀ tx, rowsOf q tx = (rowsOf p tx).filterMap f)
include h

theorem rowsOf_read_filterRow (r : Record β α κ) (tx : Nat) :
    rowsOf (read q (r.filterRow f)).1 tx = (rowsOf (read p r).1 tx).filterMap f := by
  cases r with
  | begin =>
    simp only [Record.filterRow, read, rowsOf_insert, h]
    split <;> rfl
  | data t row =>
    cases hrow : f row with
    | none =>
      simp only [Record.filterRow, hrow, read, rowsOf_insert, h]
      split
      · next heq => simp [heq, hrow]
      · rfl
    | some =>
      simp only [Record.filterRow, hrow, read, rowsOf_insert, h]
      split
      · simp [hrow]
      · rfl
  | commit | rollback =>
    simp only [Record.filterRow, read, rowsOf_erase, h]
    split <;> rfl
  | mark => exact h tx

theorem read_filterRow_snd (r : Record β α κ) :
    (read q (r.filterRow f)).2 = (read p r).2.map fun t => ⟨t.tx, t.rows.filterMap f, t.info⟩ := by
  cases r with
  | data t row => cases hrow : f row <;> simp [Record.filterRow, hrow, read]
  | commit => simp [Record.filterRow, read, h]
  | _ => rfl

theorem committedFrom_filterRow : committedFrom q (rs.map (Record.filterRow f)) =
      (committedFrom p rs).map fun t => ⟨t.tx, t.rows.filterMap f, t.info⟩ := by
  induction rs generalizing p q with
  | nil => rfl
  | cons r rs ih =>
    rw [map_cons, committedFrom, committedFrom, ih (rowsOf_read_filterRow h r), read_filterRow_snd h]
    cases (read p r).2 <;> rfl

end

end Filter

/-! ### Late readers

A reader that started later has fewer pending rows. Over the records of a single transaction it still gets
the end of what the other reader gets. -/

/-- The record belongs to transaction `tx`, or to none. -/
def Record.OfTx (tx : Nat) : Record β α κ → Prop
  | .begin t _ | .data t _ | .commit t _ | .rollback t => t = tx
  | .mark => True

theorem transaction_ofTx : ∀ r ∈ transaction tx b as c, r.OfTx tx := by
  intro r hr
  simp only [transaction, mem_cons, mem_append, mem_map, not_mem_nil, or_false] at hr
  rcases hr with rfl | ⟨a, -, rfl⟩ | rfl <;> rfl

theorem rowsOf_pendingFrom_of_ne (hrs : ∀ r ∈ rs, r.OfTx tx) (hne : tx' ≠ tx) :
    rowsOf (pendingFrom p rs) tx' = rowsOf p tx' := by
  induction rs generalizing p with
  | nil => rfl
  | cons r rs ih =>
    rw [forall_mem_cons] at hrs
    show rowsOf (pendingFrom (read p r).1 rs) tx' = _
    rw [ih hrs.2]
    have hr := hrs.1
    cases r with
    | begin | data => cases hr; simp [read, rowsOf_insert, hne]
    | commit | rollback => cases hr; simp [read, rowsOf_erase, hne]
    | mark => rfl

section
variable {q : Pending α} (hrs : ∀ r ∈ rs, r.OfTx tx)
include hrs

theorem committedFrom_congr (h : rowsOf q tx = rowsOf p tx) : committedFrom q rs = committedFrom p rs := by
  induction rs generalizing p q with
  | nil => rfl
  | cons r rs ih =>
    rw [forall_mem_cons] at hrs
    have hr := hrs.1
    cases r with
    | begin | data => cases hr; exact ih hrs.2 (by simp [read, rowsOf_insert, h])
    | commit =>
      cases hr
      have hrest : committedFrom (q.erase tx) rs = committedFrom (p.erase tx) rs :=
        ih hrs.2 (by simp [rowsOf_erase])
      simp only [committedFrom, read, h, hrest]
    | rollback => cases hr; exact ih hrs.2 (by simp [read, rowsOf_erase])
    | mark => exact ih hrs.2 h

theorem suffix_of_rowsOf (h : rowsOf q tx <:+ rowsOf p tx) : rowsOf (pendingFrom q rs) tx <:+ rowsOf (pendingFrom p rs) tx ∧
      (committedFrom q rs).flatMap (·.rows) <:+ (committedFrom p rs).flatMap (·.rows) := by
  induction rs generalizing p q with
  | nil => exact ⟨h, suffix_refl _⟩
  | cons r rs ih =>
    rw [forall_mem_cons] at hrs
    have hr := hrs.1
    cases r with
    | begin => cases hr; exact ih hrs.2 (by simpa [read, rowsOf_insert] using h)
    | data =>
      cases hr
      obtain ⟨l, hl⟩ := h
      exact ih hrs.2 ⟨l, by simp [read, rowsOf_insert, ← hl]⟩
    | commit =>
      cases hr
      -- after the commit both readers have nothing pending, so only this transaction can differ
      have hrest : committedFrom (q.erase tx) rs = committedFrom (p.erase tx) rs :=
        committedFrom_congr hrs.2 (by simp [rowsOf_erase])
      obtain ⟨l, hl⟩ := h
      exact ⟨(ih hrs.2 (by simp [read, rowsOf_erase])).1, l, by simp [committedFrom, read, hrest, ← hl]⟩
    | rollback => cases hr; exact ih hrs.2 (by simp [read, rowsOf_erase])
    | mark => exact ih hrs.2 h

end

/-! ### Reading a log from a later segment -/

/-- Read from any of its segments, the log gives the end of what it gives as a whole. -/
structure Sliced (w : Segments (Record β α κ)) : Prop where
  rows_suffix : ∀ k ≤ w.lastIndex, rows (w.recordsFrom k) <:+ rows w.records
  leftover_suffix : ∀ k ≤ w.lastIndex, ∀ tx, leftover (w.recordsFrom k) tx <:+ leftover w.records tx

theorem Sliced.empty : Sliced (Segments.empty : Segments (Record β α κ)) where
  rows_suffix k hk := by
    obtain rfl : k = 0 := Nat.le_zero.1 hk
    exact suffix_refl _
  leftover_suffix k hk tx := by
    obtain rfl : k = 0 := Nat.le_zero.1 hk
    exact suffix_refl _

theorem Sliced.grow {w w' : Segments (Record β α κ)} (h : Sliced w) (g : w.Grows w' rs)
    (hrs : ∀ r ∈ rs, r.OfTx tx)
    (hnew : leftover w.records tx = [] ∨ ∀ p, committedFrom p rs = []) : Sliced w' where
  rows_suffix k hk := by
    rw [g.records, rows_append]
    by_cases hold : k ≤ w.lastIndex
    · rw [g.recordsFrom k hold, rows_append]
      have hsame : committedFrom (pendingFrom ∅ (w.recordsFrom k)) rs = committedFrom (pendingFrom ∅ w.records) rs := by
        rcases hnew with hnil | hnone
        · have hk' := h.leftover_suffix k hold tx
          rw [hnil, suffix_nil] at hk'
          exact committedFrom_congr hrs (hk'.trans hnil.symm)
        · rw [hnone, hnone]
      obtain ⟨l, hl⟩ := h.rows_suffix k hold
      rw [hsame]
      exact ⟨l, by rw [← append_assoc, hl]⟩
    · obtain ⟨n, hn⟩ := g.fresh k (Nat.lt_of_not_le hold)
      rw [hn]
      refine List.IsSuffix.trans ?_ (suffix_append _ _)
      nth_rewrite 2 [← take_append_drop n rs]
      rw [committedFrom_append, flatMap_append]
      refine List.IsSuffix.trans ?_ (suffix_append _ _)
      exact (suffix_of_rowsOf (fun r hr => hrs r (mem_of_mem_drop hr)) (by simp)).2
  leftover_suffix k hk t := by
    simp only [leftover, g.records, pendingFrom_append]
    by_cases hold : k ≤ w.lastIndex
    · rw [g.recordsFrom k hold, pendingFrom_append]
      by_cases ht : t = tx
      · subst ht
        exact (suffix_of_rowsOf hrs (h.leftover_suffix k hold t)).1
      · rw [rowsOf_pendingFrom_of_ne hrs ht, rowsOf_pendingFrom_of_ne hrs ht]
        exact h.leftover_suffix k hold t
    · obtain ⟨n, hn⟩ := g.fresh k (Nat.lt_of_not_le hold)
      have hdrop : ∀ r ∈ rs.drop n, r.OfTx tx := fun r hr => hrs r (mem_of_mem_drop hr)
      rw [hn]
      by_cases ht : t = tx
      · subst ht
        nth_rewrite 2 [← take_append_drop n rs]
        rw [pendingFrom_append]
        exact (suffix_of_rowsOf hdrop (by simp)).1
      · rw [rowsOf_pendingFrom_of_ne hdrop ht, rowsOf_empty]
        exact nil_suffix

/-! ### Readers that start later -/

theorem rows_sublist {q p : Pending α} (h : ∀ tx, rowsOf q tx <+ rowsOf p tx) :
    (committedFrom q rs).flatMap (·.rows) <+ (committedFrom p rs).flatMap (·.rows) := by
  induction rs generalizing p q with
  | nil => exact Sublist.refl _
  | cons r rs ih =>
    have erased (tx : Nat) : ∀ tx', rowsOf (q.erase tx) tx' <+ rowsOf (p.erase tx) tx' := fun tx' => by
      rw [rowsOf_erase, rowsOf_erase]
      split
      · exact Sublist.refl _
      · exact h tx'
    have inserted (tx : Nat) (as : List α) : ∀ tx', rowsOf (q.insert tx (rowsOf q tx ++ as)) tx' <+
        rowsOf (p.insert tx (rowsOf p tx ++ as)) tx' := fun tx' => by
      rw [rowsOf_insert, rowsOf_insert]
      split
      · exact (h tx).append_right as
      · exact h tx'
    cases r with
    | begin tx b => exact ih (by simpa [read] using inserted tx [])
    | data tx row => exact ih (inserted tx [row])
    | commit tx info => exact (h tx).append (ih (erased tx))
    | rollback tx => exact ih (erased tx)
    | mark => exact ih h

theorem rows_recordsFrom_sublist (w : Segments (Record β α κ)) (k : Nat) : rows (w.recordsFrom k) <+ rows w.records := by
  rw [Segments.records, ← take_append_drop k w.all, flatten_append, rows_append]
  exact (rows_sublist fun _ => by simp).trans (sublist_append_right _ _)

end TxLog
