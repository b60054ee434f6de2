import Mathlib.Tactic.IntervalCases
import VectorLedger.FourEyes.Queue

/-! Hexadecimal texts and identifiers. Different values have different texts, and the text of an identifier is no number. -/

namespace VectorLedger

open List

theorem isDigit_of_mem_toString {n : Nat} {c : Char} (h : c ∈ (toString n).toList) : c.isDigit := by
  rw [show toString n = n.repr from rfl, Nat.repr_eq_ofList_toDigits, String.toList_ofList] at h
  exact Nat.isDigit_of_mem_toDigits (by decide) (by decide) h

theorem hexDigit_inj : ∀ m < 16, ∀ n < 16, hexDigit m = hexDigit n → m = n := by decide +kernel

theorem hexEncode_inj {bs bs' : List UInt8} (h : hexEncode bs = hexEncode bs') : bs = bs' := by
  have hlist := String.ofList_injective h
  clear h
  induction bs generalizing bs' with
  | nil =>
    cases bs' with
    | nil => rfl
    | cons => cases hlist
  | cons b bs ih =>
    cases bs' with
    | nil => cases hlist
    | cons b' =>
      simp only [flatMap_cons, cons_append, nil_append, cons.injEq] at hlist
      obtain ⟨hhigh, hlow, hrest⟩ := hlist
      have hb := b.toNat_lt
      have hb' := b'.toNat_lt
      have hdiv := hexDigit_inj _ (by omega) _ (by omega) hhigh
      have hmod := hexDigit_inj _ (by omega) _ (by omega) hlow
      rw [ih hrest, UInt8.toNat_inj.1 (show b.toNat = b'.toNat by omega)]

theorem length_hexEncode (bs : List UInt8) : (hexEncode bs).toList.length = 2 * bs.length := by
  rw [hexEncode, String.toList_ofList, length_flatMap]
  simp [Nat.mul_comm]

namespace FourEyes

theorem hexValue_hexDigit (index : Nat) : ∀ n < 16, hexValue (hexDigit n) index = .ok n := by
  intro n hn
  interval_cases n <;> rfl

theorem hexPairs_hexEncode (index : Nat) (bs : List UInt8) :
    hexPairs index (bs.flatMap fun b => [hexDigit (b.toNat / 16), hexDigit (b.toNat % 16)]) = .ok bs := by
  induction bs generalizing index with
  | nil => rfl
  | cons b bs ih =>
    have hb := b.toNat_lt
    have hbyte : UInt8.ofNat (16 * (b.toNat / 16) + b.toNat % 16) = b := by rw [Nat.div_add_mod, UInt8.ofNat_toNat]
    simp only [flatMap_cons, cons_append, nil_append, hexPairs, hexValue_hexDigit _ _ (show b.toNat / 16 < 16 by omega),
      hexValue_hexDigit _ _ (show b.toNat % 16 < 16 by omega), ih, bind, Except.bind, pure, Except.pure, hbyte]

theorem hexDecode_hexEncode (bs : List UInt8) : hexDecode (hexEncode bs) = .ok bs := by
  have heven : (hexEncode bs).length % 2 ≠ 1 := by
    rw [← String.length_toList, length_hexEncode]
    omega
  rw [hexDecode, if_neg heven, hexEncode, String.toList_ofList]
  exact hexPairs_hexEncode 0 bs

end FourEyes

theorem Uuid.length_asBytes (u : Uuid) : (Uuid.asBytes u).length = 16 := by
  rw [Uuid.asBytes, length_reverse, length_leBytes]

theorem Uuid.toList_toText (u : Uuid) (digits : List Char) (h : digits = (hexEncode (Uuid.asBytes u)).toList) :
    (Uuid.toText u).toList = digits.take 8 ++ '-' :: ((digits.drop 8).take 4 ++ '-' :: ((digits.drop 12).take 4 ++ '-' ::
      ((digits.drop 16).take 4 ++ '-' :: (digits.drop 20).take 12))) := by
  subst h
  simp [Uuid.toText]

theorem Uuid.toText_inj {u v : Uuid} (h : Uuid.toText u = Uuid.toText v) : u = v := by
  have hlen (w : Uuid) : (hexEncode (Uuid.asBytes w)).toList.length = 32 := by
    rw [length_hexEncode, Uuid.length_asBytes]
  have htext := congrArg String.toList h
  rw [Uuid.toList_toText u _ rfl, Uuid.toList_toText v _ rfl] at htext
  have hu := hlen u
  have hv := hlen v
  have hbytes : hexEncode (Uuid.asBytes u) = hexEncode (Uuid.asBytes v) := by
    apply String.toList_inj.1
    generalize (hexEncode (Uuid.asBytes u)).toList = x at *
    generalize (hexEncode (Uuid.asBytes v)).toList = y at *
    obtain ⟨h₀, h⟩ := append_inj htext (by simp [hu, hv])
    obtain ⟨h₁, h⟩ := append_inj (cons.inj h).2 (by simp [hu, hv])
    obtain ⟨h₂, h⟩ := append_inj (cons.inj h).2 (by simp [hu, hv])
    obtain ⟨h₃, h⟩ := append_inj (cons.inj h).2 (by simp [hu, hv])
    have h₄ := (cons.inj h).2
    have hsplit (z : List Char) (hz : z.length = 32) :
        z = z.take 8 ++ ((z.drop 8).take 4 ++ ((z.drop 12).take 4 ++ ((z.drop 16).take 4 ++ (z.drop 20).take 12))) := by
      have hstep (n m : Nat) : z.drop n = (z.drop n).take m ++ z.drop (n + m) := by
        rw [← drop_drop, take_append_drop]
      have hlast : (z.drop 20).take 12 = z.drop 20 := take_of_length_le (by simp [hz])
      rw [hlast, ← hstep 16 4, ← hstep 12 4, ← hstep 8 4, take_append_drop]
    rw [hsplit x hu, hsplit y hv, h₀, h₁, h₂, h₃, h₄]
  have hnat := leBytes_inj (n := 16) (by simpa using u.isLt) (by simpa using v.isLt) (reverse_inj.1 (hexEncode_inj hbytes))
  exact BitVec.eq_of_toNat_eq hnat

theorem Uuid.toText_ne_toString (u : Uuid) (n : Nat) : Uuid.toText u ≠ toString n := by
  intro h
  have hmem : '-' ∈ (Uuid.toText u).toList := by
    rw [Uuid.toList_toText u _ rfl]
    simp
  rw [h] at hmem
  exact absurd (isDigit_of_mem_toString hmem) (by decide)
end VectorLedger
