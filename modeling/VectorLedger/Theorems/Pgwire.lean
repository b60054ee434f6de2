import VectorLedger.Lib.Codec
import VectorLedger.Server.Pgwire
import VectorLedger.Theorems.AuditLog

/-! The extended query protocol, where the name of a portal is executed, and the messages of a result. -/

namespace VectorLedger.Pgwire

open List Pgwire.Connection

variable {σ : Type} {env : Env σ} {c : Connection σ} {before : List (UInt8 × List UInt8)} {m : UInt8 × List UInt8}

/-- The statement that a portal was last bound to. -/
def boundStatement (history : List FrontendMessage) (portal : String) : Option String :=
  history.reverse.findSome? fun
    | .bind p statement => if p = portal then some statement else none
    | _ => none

/-- The text that was last parsed under the name of a statement. -/
def parsedQuery (history : List FrontendMessage) (statement : String) : Option String :=
  history.reverse.findSome? fun
    | .parse name query => if name = statement then some query else none
    | _ => none

def boundQuery (history : List FrontendMessage) (portal : String) : Option String :=
  (boundStatement history portal).bind (parsedQuery history)

/-- A message Parse, Bind, Describe, Execute or Sync. -/
def Extended (m : UInt8 × List UInt8) : Prop := m.1 ∈ "PBDES".toList.map Char.toUInt8

theorem Extended.ne_terminate (h : Extended m) (env : Env σ) : parseMessage env m ≠ .terminate := by
  obtain ⟨msgType, payload⟩ := m
  have hmem : msgType ∈ ([80, 66, 68, 69, 83] : List UInt8) := h
  simp only [mem_cons, not_mem_nil, or_false] at hmem
  rcases hmem with rfl | rfl | rfl | rfl | rfl <;> exact fun h => by cases h

theorem queryLoop_snoc (extended : ∀ m ∈ before, Extended m) (hm : Extended m) :
    queryLoop env c (before ++ [m]) = (queryLoop env c before).handle env (parseMessage env m) := by
  induction before generalizing c with
  | nil =>
    have hne := hm.ne_terminate env
    simp only [nil_append, queryLoop]
  | cons a as ih =>
    have hne := (extended a mem_cons_self).ne_terminate env
    simp only [cons_append, queryLoop]
    exact ih fun m hm => extended m (mem_cons_of_mem a hm)

/-- Each Execute runs the text last parsed under the statement that its portal was last bound to exactly if that text is the
    name of the portal. -/
theorem executes_bound_iff (env : Env σ) (c : Connection σ) (ms : List (UInt8 × List UInt8)) (extended : ∀ m ∈ ms, Extended m) :
    (∀ i m portal, ms[i]? = some m → parseMessage env m = .execute portal →
      ∃ text, boundQuery ((ms.take i).map (parseMessage env)) portal = some text ∧
        (queryLoop env c (ms.take (i + 1))).executed = (queryLoop env c (ms.take i)).executed ++ [text]) ↔
    ∀ i m portal, ms[i]? = some m → parseMessage env m = .execute portal →
      boundQuery ((ms.take i).map (parseMessage env)) portal = some portal := by
  refine forall₃_congr fun i m portal => forall₂_congr fun hm hexecute => ?_
  have hrun : queryLoop env c (ms.take (i + 1)) = (queryLoop env c (ms.take i)).run env portal := by
    rw [take_add_one, hm, Option.toList_some, queryLoop_snoc (fun m hm => extended m (mem_of_mem_take hm))
      (extended m (mem_of_getElem? hm)), hexecute]
    rfl
  simp [hrun, Connection.run]

namespace Sample

def cstr (text : String) : List UInt8 := text.toList.map Char.toUInt8 ++ [0]

def asciiEnv : Env Unit := ⟨fun bs => .ofList (bs.map fun b => Char.ofNat b.toNat), fun _ => false, fun _ _ s => ([], (), s)⟩

def messages (query : String) : List (UInt8 × List UInt8) :=
  [('P'.toUInt8, cstr "s" ++ cstr query), ('B'.toUInt8, cstr "p" ++ cstr "s"), ('E'.toUInt8, cstr "p")]

end Sample

open Pgwire.Sample

instance : DecidablePred Extended := fun _ => inferInstanceAs (Decidable (_ ∈ _))

/-- A portal whose name is the text. -/
theorem executes_bound_named : ∃ text, boundQuery (((messages "p").take 2).map (parseMessage asciiEnv)) "p" = some text ∧
    (queryLoop asciiEnv ⟨(), 0, [], []⟩ (messages "p")).executed = [text] := by
  refine (executes_bound_iff asciiEnv ⟨(), 0, [], []⟩ (messages "p") (by decide)).2 ?_ 2 _ "p" rfl (by decide +kernel)
  rintro (_ | _ | _ | i) m portal hm hexecute <;> cases hm <;> cases hexecute
  decide +kernel

/-- The text under the statement is another one, and the name of the portal is executed. -/
theorem executes_portal_name :
    boundQuery (((messages "SELECT 1").take 2).map (parseMessage asciiEnv)) "p" = some "SELECT 1" ∧
      (queryLoop asciiEnv ⟨(), 0, [], []⟩ (messages "SELECT 1")).executed = ["p"] := by
  decide +kernel

/-! ### Results -/

section

open Codec (Decoder Decodes many decodes_pure decodes_take decodes_many)
open JournalEntry Sql.Read

variable {α γ : Type} {item : Decoder UInt8 α}

def readNat (n : Nat) : Decoder UInt8 Nat := (fun bs => leNat bs.reverse) <$> Codec.take n

/-- The name of a column. Its NUL and what else a row description has of the column are passed over. -/
def readField : Decoder UInt8 (List UInt8) := fun bs =>
  let name := bs.takeWhile (· ≠ 0)
  if bs.length < name.length + 19 then none else some (name, bs.drop (name.length + 19))

def readCell : Decoder UInt8 (Option (List UInt8)) := do
  let n ← readNat 4
  if n = 2 ^ 32 - 1 then return none else some <$> Codec.take n

/-- The items of a message of a type. Its length is a signed number. -/
def readMessage (msgType : Char) (item : Decoder UInt8 α) (m : List UInt8) : Option (List α) :=
  if m.take 5 = msgType.toUInt8 :: beBytes 4 (m.length - 1) ∧ m.length ≤ 2 ^ 31 then
    Codec.decode (readNat 2 >>= many item) (m.drop 5)
  else none

/-- The names of the columns and the cells of each row. -/
def readResult : List (List UInt8) → Option (List (List UInt8)) × List (Option (List (Option (List UInt8))))
  | [] => (some [], [])
  | t :: ds => (readMessage 'T' readField t, ds.map (readMessage 'D' readCell))

/-- The cell that shows a value. -/
def cellOf (v : Value) : Option String := if v = .null then none else some v.display

@[simp] theorem length_beBytes (n v : Nat) : (beBytes n v).length = n := by simp [beBytes]

theorem decodes_readNat {n v : Nat} (h : v < 256 ^ n) : Decodes (readNat n) v (beBytes n v) := by
  have hread := (decodes_take (length_beBytes n v)).map fun bs => leNat bs.reverse
  rwa [beBytes, reverse_reverse, leNat_leBytes h] at hread

theorem decodes_readField {name : String} (h : 0 ∉ utf8 name) : Decodes readField (utf8 name) (fieldDesc name) := by
  intro rest
  have hne : ∀ b ∈ utf8 name, decide (b ≠ 0) = true := fun b hb => decide_eq_true fun h0 => h (h0 ▸ hb)
  have hname : (fieldDesc name ++ rest).takeWhile (· ≠ 0) = utf8 name := by
    rw [fieldDesc, append_assoc, append_assoc, takeWhile_append_of_pos hne]
    simp
  have hlen : (fieldDesc name).length = (utf8 name).length + 19 := by simp [fieldDesc]
  show (if _ then _ else _) = _
  rw [hname, if_neg (by simp [hlen]), drop_left' hlen]

theorem decodes_readCell {text : Option String} (h : (cellBytes text).length < 2 ^ 31) :
    Decodes readCell (text.map utf8) (cellBytes text) := by
  cases text with
  | none => exact (decodes_readNat (by decide)).bind (decodes_pure none)
  | some text =>
    rw [cellBytes, length_append] at h
    refine (decodes_readNat (by omega)).bind ?_
    rw [if_neg (by omega)]
    exact (decodes_take rfl).map some

theorem readMessage_message {f : γ → α} {enc : γ → List UInt8} {xs : List γ} {t : Char} (few : xs.length < 2 ^ 16)
    (all : ∀ x ∈ xs, Decodes item (f x) (enc x))
    (short : (message t (beBytes 2 xs.length ++ xs.flatMap enc)).length ≤ 2 ^ 31) :
    readMessage t item (message t (beBytes 2 xs.length ++ xs.flatMap enc)) = some (xs.map f) := by
  rw [readMessage, if_pos ⟨by simp [message], short⟩]
  exact ((decodes_readNat few).bind (decodes_many all)).decode

theorem rowDescription_read {columns : List String} (few : columns.length < 2 ^ 16) :
    readMessage 'T' readField (rowDescription columns) = some (columns.map utf8) ↔
      (∀ col ∈ columns, 0 ∉ utf8 col) ∧ (rowDescription columns).length ≤ 2 ^ 31 := by
  refine ⟨fun h => ?_, fun ⟨hnul, short⟩ => readMessage_message few (fun col hcol => decodes_readField (hnul col hcol)) short⟩
  obtain ⟨⟨_, short⟩, hdecode⟩ := Option.ite_none_right_eq_some.1 h
  obtain ⟨r, hrun, hnames⟩ := Option.map_eq_some_iff.1 hdecode
  rw [StateT.run_bind] at hrun
  obtain ⟨_, _, hmany⟩ := Option.bind_eq_some_iff.1 hrun
  have hnul := Codec.forall_many (P := fun name => 0 ∉ name) (fun bs name rest hfield => ?_) hmany
  · exact ⟨fun col hcol => hnul _ (hnames ▸ mem_map_of_mem hcol), short⟩
  obtain ⟨_, heq⟩ := Option.ite_none_left_eq_some.1 hfield
  cases heq
  exact fun h0 => by simpa using all_eq_true.1 all_takeWhile 0 h0

theorem dataRow_read {values : List (Option String)} (few : values.length < 2 ^ 16) (cells : List (Option (List UInt8))) :
    readMessage 'D' readCell (dataRowMessage values) = some cells ↔
      (dataRowMessage values).length ≤ 2 ^ 31 ∧ values.map (·.map utf8) = cells := by
  by_cases short : (dataRowMessage values).length ≤ 2 ^ 31
  · have hcells (text : Option String) (h : text ∈ values) : Decodes readCell (text.map utf8) (cellBytes text) := by
      have hle := (sublist_flatten_of_mem (mem_map_of_mem (f := cellBytes) h)).length_le
      rw [← flatMap_def] at hle
      simp only [dataRowMessage, message, length_cons, length_append] at short
      exact decodes_readCell (by omega)
    rw [and_iff_right short, dataRowMessage, readMessage_message few hcells short, Option.some.injEq]
  · rw [readMessage, if_neg fun h => short h.2]
    simp only [short, false_and, reduceCtorEq]

/-- The messages of a result say what it holds exactly if no name of a column has a NUL, no message is longer than its
    length can say, and the first value under the name of each column has the text of the value in its place, which is
    Null only in a column that the row does not name. -/
theorem result_read_iff (r : QueryResult) (few : r.columns.length < 65536) :
    readResult (resultMessages r) =
      (some (r.columns.map utf8), r.rows.map fun row => some (row.values.map fun v => (cellOf v).map utf8)) ↔
    (∀ col ∈ r.columns, 0 ∉ utf8 col) ∧ (rowDescription r.columns).length ≤ 2 ^ 31 ∧
      ∀ row ∈ r.rows, (dataRowMessage (dataRow r.columns row)).length ≤ 2 ^ 31 ∧
        Forall₂ (fun col v => (row.get col).map Value.display = cellOf v) r.columns row.values := by
  have hcells (row : Sql.Read.Row) : (dataRow r.columns row).map (·.map utf8) = row.values.map (fun v => (cellOf v).map utf8) ↔
      Forall₂ (fun col v => (row.get col).map Value.display = cellOf v) r.columns row.values := by
    rw [dataRow, map_map, ← forall₂_eq_eq_eq, forall₂_map_left_iff, forall₂_map_right_iff]
    simp only [Function.comp_apply, (Option.map_injective fun _ _ => utf8_inj).eq_iff]
  unfold resultMessages
  split
  case isTrue hempty => simp [readResult, hempty, rowDescription, message]
  case isFalse =>
    have hfew (row : Sql.Read.Row) : (dataRow r.columns row).length < 2 ^ 16 := by rwa [dataRow, length_map]
    simp only [readResult, Prod.mk.injEq, map_map, map_inj_left, Function.comp_apply, rowDescription_read few,
      dataRow_read (hfew _), hcells, and_assoc]

def Sample.resultOf (columns : List String) (values : List Value) : QueryResult := ⟨columns, [⟨columns, values⟩], ""⟩

theorem result_read_text : readResult (resultMessages (Sample.resultOf ["a", "b", "c"] [.text "x", .int 7, .bool true])) =
      (some [utf8 "a", utf8 "b", utf8 "c"], [some [some (utf8 "x"), some (utf8 "7"), some (utf8 "true")]]) :=
  (result_read_iff (Sample.resultOf ["a", "b", "c"] [.text "x", .int 7, .bool true]) (by decide)).2 (by decide +kernel)

/-- A Null is sent as a text, and the first of two values of one name for both. -/
theorem null_sent_text : (readResult (resultMessages (Sample.resultOf ["a", "b", "b"] [.null, .int 1, .int 2]))).2 =
    [some ([some "NULL", some "1", some "1"].map (·.map utf8))] := by
  decide +kernel

end

end VectorLedger.Pgwire
