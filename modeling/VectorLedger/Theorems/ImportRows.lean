import Mathlib.Data.List.TakeWhile
import VectorLedger.Import

/-! The amounts of imported rows. An amount that is an integer counts minor units, and a number with a point whole units. -/

namespace VectorLedger.Import

open List Sql

variable {env : Env} {text : String} {k : ℤ}

theorem parseI64_eq (text : String) : parseI64 text =
    (parseDigits (splitSign text.toList).2).bind fun n => i64OfInt ((splitSign text.toList).1 * n) := by
  unfold parseI64
  generalize text.toList = cs
  fun_cases splitSign cs <;> simp

theorem mem_splitSign (cs : List Char) : '.' ∈ (splitSign cs).2 ↔ '.' ∈ cs := by
  unfold splitSign
  split <;> simp

/-- The amount read from a text that denotes k hundredths: k with a point in it, a hundredth of k without. -/
theorem parseAmount_eq (denotes : decimal (env.trim text) = some ((k : ℚ) / 100)) (small : |(k : ℚ)| < 10 ^ 14) :
    ∃ a : ℤ, parseAmount env text = some (.ofInt a) ∧ k = if '.' ∈ (env.trim text).toList then a else 100 * a := by
  have hlo : -(10 ^ 14) < k := by exact_mod_cast (abs_lt.1 small).1
  have hhi : k < 10 ^ 14 := by exact_mod_cast (abs_lt.1 small).2
  simp only [← mem_splitSign (env.trim text).toList]
  split
  case isTrue hpoint =>
    -- the point is no digit, so the integer reading fails and the number is multiplied by 100 and rounded
    have hdigits : parseDigits (splitSign (env.trim text).toList).2 = none :=
      if_pos (by simpa using .inr ⟨'.', hpoint, by decide⟩)
    refine ⟨k, ?_, rfl⟩
    rw [parseAmount, parseI64_eq, hdigits, denotes]
    simp only [Option.bind_none, Binary64.roundAway_hundred small, Binary64.toI64]
    rw [min_eq_left (by omega), max_eq_right (by omega)]
  case isFalse hpoint =>
    -- the integer reading succeeds and is taken as minor units
    have hall : ∀ c ∈ (splitSign (env.trim text).toList).2, decide (c ≠ '.') = true := fun c hc =>
      decide_eq_true fun heq => hpoint (heq ▸ hc)
    simp only [decimal, takeWhile_eq_self_iff.2 hall, dropWhile_eq_nil_iff.2 hall, drop_nil, append_nil, length_nil,
      pow_zero, div_one, Option.map_eq_some_iff] at denotes
    obtain ⟨n, hn, hvalue⟩ := denotes
    have hk : k = 100 * ((splitSign (env.trim text).toList).1 * n) := by
      have hq : (k : ℚ) = 100 * ((splitSign (env.trim text).toList).1 * n : Int) := by linarith
      exact_mod_cast hq
    refine ⟨_, ?_, hk⟩
    rw [parseAmount, parseI64_eq, hn, Option.bind_some, i64OfInt, if_pos (by omega)]

/-- Two texts that denote one number with at most two decimals give one amount exactly if both of them have a point or none
    of them has, or the number is zero. -/
theorem amounts_agree_iff (env : Env) (map map' : String → Option String) (raw raw' : String)
    (rawFields rawFields' : List (String × String)) (domain currency text text' : String) (v : ℚ)
    (amount : (map "amount").getD "" = text) (amount' : ( map' "amount").getD "" = text')
    (denotes : decimal (env.trim text) = some v) (denotes' : decimal (env.trim text') = some v)
    (cents : ∃ k : ℤ, v = k / 100) (small : |v| < 10 ^ 12) :
    (∃ row row', rowFromMap env map raw rawFields domain currency = .ok row ∧
        rowFromMap env map' raw' rawFields' domain currency = .ok row' ∧ row.amount = row'.amount) ↔
      ('.' ∈ (env.trim text).toList ↔ '.' ∈ (env.trim text').toList) ∨ v = 0 := by
  obtain ⟨k, rfl⟩ := cents
  have hsmall : |(k : ℚ)| < 10 ^ 14 := by
    rw [abs_lt] at small ⊢
    constructor <;> linarith
  have hlo : -(10 ^ 14) < k := by exact_mod_cast (abs_lt.1 hsmall).1
  have hhi : k < 10 ^ 14 := by exact_mod_cast (abs_lt.1 hsmall).2
  obtain ⟨a, ha, hk⟩ := parseAmount_eq denotes hsmall
  obtain ⟨a', ha', hk'⟩ := parseAmount_eq denotes' hsmall
  have hsame : Int64.ofInt a = Int64.ofInt a' ↔ a = a' := by
    rw [← Int64.toInt_inj, Int64.toInt_ofInt_of_le, Int64.toInt_ofInt_of_le] <;> split at hk <;> split at hk' <;> omega
  have hrows : (∃ row row', rowFromMap env map raw rawFields domain currency = .ok row ∧
      rowFromMap env map' raw' rawFields' domain currency = .ok row' ∧ row.amount = row'.amount) ↔ a = a' := by
    simp [rowFromMap, amount, amount', ha, ha', hsame]
  have hzero : (k : ℚ) / 100 = 0 ↔ k = 0 := by simp
  rw [hrows, hzero]
  by_cases hpoint : '.' ∈ (env.trim text).toList <;> by_cases hpoint' : '.' ∈ (env.trim text').toList <;>
    simp only [hpoint, hpoint', if_true, if_false, iff_true, iff_false, not_true, true_or, false_or] at hk hk' ⊢ <;> omega

def sampleEnv : Env := ⟨id, id, fun _ => none⟩

theorem decimals_agree : ∃ row row', rowFromMap sampleEnv (fun _ => some "5.00") "" [] "" "" = .ok row ∧
      rowFromMap sampleEnv (fun _ => some "5.0") "" [] "" "" = .ok row' ∧ row.amount = row'.amount :=
  (amounts_agree_iff sampleEnv _ _ "" "" [] [] "" "" _ _ 5 rfl rfl (by decide +kernel) (by decide +kernel)
    ⟨500, by norm_num⟩ (by norm_num)).2 (.inl (by decide))

/-- The amount 5 is five minor units, and 5.00 is five hundred. -/
theorem whole_amount_differs : decimal "5" = decimal "5.00" ∧
      (rowFromMap sampleEnv (fun _ => some "5") "" [] "" "").toOption.map (·.amount) = some 5 ∧
      (rowFromMap sampleEnv (fun _ => some "5.00") "" [] "" "").toOption.map (·.amount) = some 500 := by
  decide +kernel

end VectorLedger.Import
