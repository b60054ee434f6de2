import VectorLedger.Server.Limits

/-! The limits against their purpose. An unterminated comment is read one byte short, and a line is measured after it was
    read. -/

namespace VectorLedger.Limits

open List

/-! ### Statements -/

/-- Where a byte stands, with the one before it in the same place. -/
inductive Mode where
  | code (prev : Option UInt8)
  | quoted (quote : UInt8)
  | lineComment
  | blockComment (prev : Option UInt8)
  deriving DecidableEq

/-- One byte of a statement, at a depth of open parentheses. A quote that is written twice ends a literal and begins the next
    one. Nothing if the parentheses nest too deep. -/
def lexByte : Mode × Nat → UInt8 → Option (Mode × Nat)
  | (.code prev, depth), b =>
    if b = '\x27'.toUInt8 ∨ b = '"'.toUInt8 then some (.quoted b, depth)
    else if b = '-'.toUInt8 ∧ prev = some '-'.toUInt8 then some (.lineComment, depth)
    else if b = '*'.toUInt8 ∧ prev = some '/'.toUInt8 then some (.blockComment none, depth)
    else if b = '('.toUInt8 then if depth < maxNestingDepth then some (.code none, depth + 1) else none
    else if b = ')'.toUInt8 then some (.code none, depth - 1)
    else some (.code (some b), depth)
  | (.quoted quote, depth), b => some (if b = quote then .code none else .quoted quote, depth)
  | (.lineComment, depth), b => some (if b = '\n'.toUInt8 then .code none else .lineComment, depth)
  | (.blockComment prev, depth), b =>
    some (if b = '/'.toUInt8 ∧ prev = some '*'.toUInt8 then .code none else .blockComment (some b), depth)

/-- Where a statement ends, if its parentheses never nest too deep. -/
def lex (sql : List UInt8) : Option (Mode × Nat) := sql.foldlM lexByte (.code none, 0)

/-- The end of a comment that is not closed, behind as many open parentheses as there may be, whose last byte is another. -/
def cut : Mode × Nat := (.blockComment (some '('.toUInt8), maxNestingDepth)

/-- The bytes are read to their end, and do not end inside a comment that is cut. -/
def Accepts (m : Mode × Nat) (bs : List UInt8) : Prop := ∃ e, bs.foldlM lexByte m = some e ∧ e ≠ cut

section
variable {m : Mode × Nat} {b q : UInt8} {bs : List UInt8} {depth maxDepth : Nat} {p : Option UInt8}

@[simp] theorem accepts_nil : Accepts m [] ↔ m ≠ cut := by simp [Accepts]

@[simp] theorem accepts_cons : Accepts m (b :: bs) ↔ ∃ m', lexByte m b = some m' ∧ Accepts m' bs := by
  simp only [Accepts, foldlM_cons, Option.bind_eq_bind, Option.bind_eq_some_iff]
  grind

theorem accepts_quoted (hq : q = '\x27'.toUInt8 ∨ q = '"'.toUInt8) :
    Accepts (.quoted q, depth) bs ↔ Accepts (.code none, depth) (skipQuoted q bs) := by
  fun_induction skipQuoted q bs <;> simp_all [lexByte, cut]

theorem accepts_lineComment : Accepts (.lineComment, depth) bs ↔ Accepts (.code none, depth) (skipLine bs) := by
  induction bs with
  | nil => simp [skipLine, cut]
  | cons b bs ih =>
    by_cases hb : b = '\n'.toUInt8
    · simp [lexByte, skipLine, hb]
    · simpa [lexByte, skipLine, hb] using ih

theorem accepts_blockComment (hd : depth ≤ maxNestingDepth) :
    Accepts (.blockComment none, depth) bs ↔ Accepts (.code none, depth) (skipBlock bs) := by
  -- Behind its first byte the comment is read with the byte before, as the loop reads it.
  have hbehind (a : UInt8) (bs : List UInt8) :
      Accepts (.blockComment (some a), depth) bs ↔ Accepts (.code none, depth) (skipBlock (a :: bs)) := by
    induction bs generalizing a with
    | nil =>
      -- The last byte of a comment that is not closed is read as code.
      by_cases ha : a = '('.toUInt8
      · subst ha
        simp +decide [skipBlock, lexByte, cut]
        omega
      · simp only [skipBlock, accepts_nil, accepts_cons, lexByte, cut]
        split_ifs <;> simp [ha]
    | cons b bs ih =>
      by_cases hend : a = '*'.toUInt8 ∧ b = '/'.toUInt8
      · simp [lexByte, skipBlock, hend]
      · rw [skipBlock, if_neg hend, ← ih]
        simp [lexByte, and_comm, hend]
  cases bs with
  | nil => simp [skipBlock, cut]
  | cons a bs => simpa [lexByte] using hbehind a bs

theorem accepts_code (hline : ¬(b = '-'.toUInt8 ∧ bs.head? = some '-'.toUInt8))
    (hblock : ¬(b = '/'.toUInt8 ∧ bs.head? = some '*'.toUInt8)) :
    Accepts (.code (some b), depth) bs ↔ Accepts (.code none, depth) bs := by
  cases bs with
  | nil => simp [cut]
  | cons c cs =>
    have hsame : lexByte (.code (some b), depth) c = lexByte (.code none, depth) c := by
      simp only [head?_cons, Option.some.injEq] at hline hblock
      simp only [lexByte]
      grind
    rw [accepts_cons, accepts_cons, hsame]

theorem scan_ok_iff (hdepth : depth ≤ maxDepth) (hmax : maxDepth ≤ maxNestingDepth) :
    scan depth maxDepth bs = .ok () ↔ Accepts (.code none, depth) bs := by
  fun_induction scan depth maxDepth bs with
  | case1 => simp [cut]
  | case2 depth maxDepth b bs hq ih =>
    rw [ih hdepth hmax, ← accepts_quoted hq]
    simp [lexByte, hq]
  | case3 depth maxDepth b bs hq hline ih =>
    obtain ⟨rfl, hnext⟩ := hline
    obtain ⟨cs, rfl⟩ := head?_eq_some_iff.1 hnext
    rw [ih hdepth hmax, tail_cons, ← accepts_lineComment]
    simp +decide [lexByte]
  | case4 depth maxDepth b bs hq hline hblock ih =>
    obtain ⟨rfl, hnext⟩ := hblock
    obtain ⟨cs, rfl⟩ := head?_eq_some_iff.1 hnext
    rw [ih hdepth hmax, tail_cons, ← accepts_blockComment (Nat.le_trans hdepth hmax)]
    simp +decide [lexByte]
  | case5 depth maxDepth bs hq hline hblock hdeep =>
    have hfull : ¬depth < maxNestingDepth := by omega
    simp +decide [lexByte, hfull]
  | case6 depth maxDepth bs hq hline hblock hdeep ih =>
    have hroom : depth < maxNestingDepth := by omega
    rw [ih (by omega) (by omega)]
    simp +decide [lexByte, hroom]
  | case7 depth maxDepth bs hq hline hblock hopen ih =>
    rw [ih (by omega) hmax]
    simp +decide [lexByte]
  | case8 depth maxDepth b bs hq hline hblock hopen hclose ih =>
    rw [ih hdepth hmax, ← accepts_code hline hblock]
    simp [lexByte, hq, hopen, hclose]

/-- The check accepts exactly the statements that are short enough and do not nest too deep, unless one ends in a comment that
    is not closed, as deep as it may be, with a parenthesis for its last byte. -/
theorem limits_checked_iff (sql : List UInt8) :
    (checkQueryLimits sql = .ok () ↔ sql.length ≤ maxSqlBytes ∧ (lex sql).isSome) ↔
      ¬(sql.length ≤ maxSqlBytes ∧ lex sql = some cut) := by
  have hscan : scan 0 0 sql = .ok () ↔ ∃ e, lex sql = some e ∧ e ≠ cut := scan_ok_iff (Nat.le_refl _) (Nat.zero_le _)
  unfold checkQueryLimits
  by_cases hlen : sql.length ≤ maxSqlBytes
  · rw [if_neg (Nat.not_lt.2 hlen), hscan]
    cases lex sql <;> simp [hlen]
  · simp [Nat.not_le.1 hlen, hlen]

/-- Twenty parentheses and a comment with another one. -/
theorem comment_rejected :
    let sql := replicate 20 '('.toUInt8 ++ "/*(".toList.map Char.toUInt8
    lex sql = some cut ∧ checkQueryLimits sql = .error (.nestingTooDeep 21 20) := by
  decide +kernel

end

/-! ### Lines -/

section
variable {capacity : Nat} {utf8 : List UInt8 → Bool} {maxBytes : Nat} {r : BufReader capacity}

/-- No line that is returned exceeds the limit, and what is held of it at any time exceeds it by a buffer at most. -/
def Bounded (capacity maxBytes : Nat) (out : List (List UInt8) × Except String (Option (List UInt8))) : Prop :=
  (∀ held, held <+: out.1 → held.flatten.length ≤ maxBytes + capacity) ∧
    ∀ line, out.2 = .ok (some line) → line.length ≤ maxBytes

theorem bounded_iff {out : List (List UInt8) × Except String (Option (List UInt8))} : Bounded capacity maxBytes out ↔
    out.1.flatten.length ≤ maxBytes + capacity ∧ ∀ line, out.2 = .ok (some line) → line.length ≤ maxBytes := by
  refine and_congr_left fun _ => ⟨fun h => h _ prefix_rfl, ?_⟩
  rintro h held ⟨later, hlater⟩
  rw [← hlater, flatten_append, length_append] at h
  exact Nat.le_trans (Nat.le_add_right _ _) h

theorem readLineBounded_of_mem (h : newline ∈ r.left) : ∃ text, lineOf r.left = text ++ [newline] ∧
    (readLineBounded utf8 maxBytes r).1.flatten = lineOf r.left ∧
    (readLineBounded utf8 maxBytes r).2 =
      if utf8 (lineOf r.left) then .ok (some text) else .error "stream did not contain valid UTF-8" := by
  obtain ⟨text, rest, hleft, hnone⟩ := eq_append_cons_of_mem h
  have hline : lineOf r.left = text ++ [newline] := by
    simp [hleft, lineOf, idxOf_append_of_notMem hnone, take_length_add_append]
  have htrim : text.reverse.dropWhile (· = newline) = text.reverse := by
    cases hlast : text.reverse with
    | nil => rfl
    | cons c cs =>
      have hc : c ∈ text := mem_reverse.1 (hlast ▸ mem_cons_self)
      exact dropWhile_cons_of_neg (by simpa using ne_of_mem_of_not_mem hc hnone)
  refine ⟨text, hline, ?_⟩
  rw [readLineBounded, readLineLoop]
  simp only [nil_append, (readUntil_eq r).1, hline]
  cases hutf8 : utf8 (text ++ [newline]) <;> simp [(readUntil_eq r).1, hline, htrim]

theorem readLineBounded_of_notMem (h : newline ∉ r.left) : (readLineBounded utf8 maxBytes r).1.flatten = lineOf r.left ∧
      ∀ line, (readLineBounded utf8 maxBytes r).2 = .ok (some line) → line.length ≤ maxBytes := by
  have hline : lineOf r.left = r.left := take_of_length_le (by rw [idxOf_eq_length h]; omega)
  have hlast : r.left.getLast? ≠ some newline := fun hlast => h (mem_of_getLast? hlast)
  have hend : (readUntil r.buffer r.reads).2.left = [] := by
    rw [(readUntil_eq r).2, idxOf_eq_length h]
    simp
  have hempty : (readUntil (readUntil r.buffer r.reads).2.buffer (readUntil r.buffer r.reads).2.reads).1.flatten = [] := by
    rw [(readUntil_eq _).1, hend]
    rfl
  rw [readLineBounded, readLineLoop]
  simp only [nil_append, (readUntil_eq r).1, hline, if_neg hlast]
  -- Without a newline the stream was read to its end, and the loop runs once more.
  rw [readLineLoop]
  simp only [flatten_append, (readUntil_eq r).1, hline, hempty, append_nil]
  split_ifs <;> simp_all [(readUntil_eq r).1, -flatten_eq_nil_iff]

/-- The limits are kept exactly if the stream has a newline, or its end, within the limit and a buffer, and a line that is
    ended by a newline and is returned fits the limit. -/
theorem line_bounded_iff (utf8 : List UInt8 → Bool) (maxBytes : Nat) (r : BufReader capacity) :
    Bounded capacity maxBytes (readLineBounded utf8 maxBytes r) ↔ (lineOf r.left).length ≤ maxBytes + capacity ∧
        (newline ∈ r.left → utf8 (lineOf r.left) → (lineOf r.left).length ≤ maxBytes + 1) := by
  rw [bounded_iff]
  by_cases h : newline ∈ r.left
  · obtain ⟨text, hline, hheld, hresult⟩ := @readLineBounded_of_mem capacity utf8 maxBytes r h
    rw [hheld, hresult]
    cases hutf8 : utf8 (lineOf r.left) <;> simp [h, hline]
  · obtain ⟨hheld, hresult⟩ := @readLineBounded_of_notMem capacity utf8 maxBytes r h
    simpa [hheld, h] using fun _ => hresult

/-- With a limit of one byte and a buffer of two, a line of five bytes is read and returned. -/
theorem long_line_returned : ∃ r : BufReader 2, (readLineBounded (fun _ => true) 1 r).1.map length = [0, 2, 2, 2] ∧
      (readLineBounded (fun _ => true) 1 r).2 = .ok (some (replicate 5 97)) :=
  ⟨⟨[], [⟨[97, 97], by decide⟩, ⟨[97, 97], by decide⟩, ⟨[97, newline], by decide⟩]⟩, by decide +kernel, by decide +kernel⟩

end

end VectorLedger.Limits
