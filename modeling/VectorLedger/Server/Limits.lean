import Mathlib.Data.List.Basic

/-! Limits on what a client sends: the length and the nesting of a statement, and the length of a line. -/

namespace VectorLedger.Limits

open List

/-! ### Statements -/

inductive LimitError where
  | queryTooLong (len limit : Nat)
  | nestingTooDeep (depth limit : Nat)
  deriving DecidableEq, Repr

def maxSqlBytes : Nat := 64 * 1024

def maxNestingDepth : Nat := 20

/-- What is left behind the quote that ends a literal. A quote in it is written twice. -/
def skipQuoted (quote : UInt8) : List UInt8 → List UInt8
  | [] => []
  | b :: bs =>
    if b = quote then
      match bs with
      | c :: cs => if c = quote then skipQuoted quote cs else c :: cs
      | [] => []
    else skipQuoted quote bs

def skipLine (bs : List UInt8) : List UInt8 := (bs.dropWhile (· ≠ '\n'.toUInt8)).drop 1

def skipBlock : List UInt8 → List UInt8
  | a :: b :: bs => if a = '*'.toUInt8 ∧ b = '/'.toUInt8 then bs else skipBlock (b :: bs)
  -- The loop looks at two bytes and stops before the last one.
  | bs => bs

theorem length_skipQuoted_le (quote : UInt8) (bs : List UInt8) : (skipQuoted quote bs).length ≤ bs.length := by
  fun_induction skipQuoted quote bs <;> simp_all <;> omega

theorem length_skipLine_le (bs : List UInt8) : (skipLine bs).length ≤ bs.length := by
  have hle := (dropWhile_sublist (l := bs) fun b => b ≠ '\n'.toUInt8).length_le
  rw [skipLine, length_drop]
  omega

theorem length_skipBlock_le (bs : List UInt8) : (skipBlock bs).length ≤ bs.length := by
  fun_induction skipBlock bs <;> simp_all <;> omega

def scan (depth maxDepth : Nat) : List UInt8 → Except LimitError Unit
  | [] => .ok ()
  | b :: bs =>
    if b = '\x27'.toUInt8 ∨ b = '"'.toUInt8 then scan depth maxDepth (skipQuoted b bs)
    else if b = '-'.toUInt8 ∧ bs.head? = some '-'.toUInt8 then scan depth maxDepth (skipLine bs.tail)
    else if b = '/'.toUInt8 ∧ bs.head? = some '*'.toUInt8 then scan depth maxDepth (skipBlock bs.tail)
    else if b = '('.toUInt8 then
      if max maxDepth (depth + 1) > maxNestingDepth then .error (.nestingTooDeep (max maxDepth (depth + 1)) maxNestingDepth)
      else scan (depth + 1) (max maxDepth (depth + 1)) bs
    else if b = ')'.toUInt8 then scan (depth - 1) maxDepth bs
    else scan depth maxDepth bs
termination_by bs => bs.length
decreasing_by
  all_goals simp only [length_cons]
  · exact Nat.lt_succ_of_le (length_skipQuoted_le _ _)
  · exact Nat.lt_succ_of_le (Nat.le_trans (length_skipLine_le _) (by simp))
  · exact Nat.lt_succ_of_le (Nat.le_trans (length_skipBlock_le _) (by simp))
  all_goals omega

/-- The check of the bytes of a statement, before it is parsed. -/
def checkQueryLimits (sql : List UInt8) : Except LimitError Unit :=
  if sql.length > maxSqlBytes then .error (.queryTooLong sql.length maxSqlBytes) else scan 0 0 sql

/-! ### Lines -/

/-- A reader with its buffer: the bytes in it, and the reads to come, each of at least one byte and at most the buffer. Behind
    them the stream ends. -/
structure BufReader (capacity : Nat) where
  buffer : List UInt8
  reads : List { c : List UInt8 // c ≠ [] ∧ c.length ≤ capacity }

def BufReader.left {capacity : Nat} (r : BufReader capacity) : List UInt8 := r.buffer ++ (r.reads.map (·.1)).flatten

def newline : UInt8 := '\n'.toUInt8

/-- A stream up to its first newline. -/
def lineOf (bs : List UInt8) : List UInt8 := bs.take (bs.idxOf newline + 1)

section
variable {capacity : Nat}

/-- `read_until` of tokio: the pieces that are appended one after the other, and the reader behind them. -/
def readUntil (buffer : List UInt8) (reads : List { c : List UInt8 // c ≠ [] ∧ c.length ≤ capacity }) :
    List (List UInt8) × BufReader capacity :=
  if newline ∈ buffer then ([lineOf buffer], ⟨buffer.drop (buffer.idxOf newline + 1), reads⟩)
  else
    match reads with
    | [] => ([buffer], ⟨[], []⟩)
    | c :: cs => (buffer :: (readUntil c.1 cs).1, (readUntil c.1 cs).2)

theorem readUntil_eq (r : BufReader capacity) :
    (readUntil r.buffer r.reads).1.flatten = lineOf r.left ∧
      (readUntil r.buffer r.reads).2.left = r.left.drop (r.left.idxOf newline + 1) := by
  obtain ⟨buffer, reads⟩ := r
  induction reads generalizing buffer with
  | nil =>
    unfold readUntil
    split
    · simp [BufReader.left]
    · next h => simp [BufReader.left, lineOf, idxOf_eq_length h, take_of_length_le]
  | cons c cs ih =>
    unfold readUntil
    by_cases h : newline ∈ buffer
    · have hlt := idxOf_lt_length_of_mem h
      rw [if_pos h]
      simp only [BufReader.left, lineOf, idxOf_append_of_mem h, take_append_of_le_length hlt,
        drop_append_of_le_length hlt]
      simp
    · obtain ⟨hline, hleft⟩ := ih c.1
      rw [if_neg h]
      simp only [BufReader.left, lineOf] at hline hleft
      simp only [BufReader.left, lineOf, idxOf_append_of_notMem h, map_cons, flatten_cons, Nat.add_assoc,
        take_length_add_append, drop_length_add_append, hline, hleft, and_self]

/-- `read_line_bounded`, with the pieces that the line is made of so far: those that were ever held, and the result. -/
def readLineLoop (utf8 : List UInt8 → Bool) (maxBytes : Nat) (held : List (List UInt8)) (r : BufReader capacity) :
    List (List UInt8) × Except String (Option (List UInt8)) :=
  if held.flatten.length > maxBytes then (held, .error s!"request line exceeds {maxBytes} bytes")
  else
    let read := readUntil r.buffer r.reads
    let buf := (held ++ read.1).flatten
    if utf8 buf = false then (held ++ read.1, .error "stream did not contain valid UTF-8")
    else if read.1.flatten = [] then (held ++ read.1, .ok (if buf = [] then none else some buf))
    else if buf.getLast? = some newline then
      (held ++ read.1, .ok (some (buf.reverse.dropWhile (· = newline)).reverse))
    else readLineLoop utf8 maxBytes (held ++ read.1) read.2
termination_by r.left.length
decreasing_by
  next hread _ =>
  rw [(readUntil_eq r).1, lineOf, take_eq_nil_iff] at hread
  have hpos := length_pos_iff.2 fun h => hread (.inr h)
  rw [(readUntil_eq r).2, length_drop]
  omega

def readLineBounded (utf8 : List UInt8 → Bool) (maxBytes : Nat) (r : BufReader capacity) :
    List (List UInt8) × Except String (Option (List UInt8)) :=
  readLineLoop utf8 maxBytes [] r

end

end VectorLedger.Limits
