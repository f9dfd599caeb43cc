import Mathlib.Data.Nat.Digits.Defs

/-!
# Decimal numerals

The text of a number as a list of characters: an optional minus sign and digits without a leading
zero. Printing is `toString`; `Decimal.toInt` reads a numeral back.
-/

namespace Decimal

/-- The characters of a natural number. -/
def ofNat (n : ℕ) : List Char := Nat.toDigits 10 n

/-- The characters of an integer. -/
def ofInt (z : ℤ) : List Char := if 0 ≤ z then ofNat z.toNat else '-' :: ofNat (-z).toNat

/-- The integer of a numeral. -/
def toInt : List Char → ℤ
  | '-' :: cs => -(Nat.ofDigitChars 10 cs 0 : ℤ)
  | cs => (Nat.ofDigitChars 10 cs 0 : ℤ)

theorem toList_toString_nat (n : ℕ) : (toString n).toList = ofNat n := Nat.toList_repr

theorem toList_toString_int (z : ℤ) : (toString z).toList = ofInt z := by
  change z.repr.toList = _
  rw [Int.repr_eq_if, ofInt]
  split_ifs
  · exact Nat.toList_repr
  · rw [String.toList_append, Nat.toList_repr]
    rfl

theorem ofNat_ne_nil (n : ℕ) : ofNat n ≠ [] := Nat.toDigits_ne_nil

theorem isDigit_of_mem_ofNat {n : ℕ} {c : Char} (h : c ∈ ofNat n) : c.isDigit = true :=
  Nat.isDigit_of_mem_toDigits (by decide) (by decide) h

/-- Only the numeral of zero starts with a zero. -/
theorem head_ofNat_ne {n : ℕ} (h : n ≠ 0) : (ofNat n).head (ofNat_ne_nil n) ≠ '0' := by
  induction n using Nat.strong_induction_on with
  | _ n ih =>
    obtain hlt | hle := Nat.lt_or_ge n 10
    · simpa [ofNat, Nat.toDigits_of_lt_base hlt] using h
    · have hstep : ofNat n = ofNat (n / 10) ++ [(n % 10).digitChar] :=
        Nat.toDigits_of_base_le (by decide) hle
      simp only [hstep, List.head_append_of_ne_nil (ofNat_ne_nil (n / 10))]
      exact ih (n / 10) (by omega) (by omega)

theorem ofDigitChars_ofNat (n : ℕ) : Nat.ofDigitChars 10 (ofNat n) 0 = n :=
  Nat.ofDigitChars_ten_toDigits

theorem length_ofNat_le_iff {n k : ℕ} (hk : 0 < k) : (ofNat n).length ≤ k ↔ n < 10 ^ k :=
  Nat.length_toDigits_le_iff (by decide) hk

/-- A numeral has a minus and digits only. -/
theorem eq_or_isDigit_of_mem_ofInt {z : ℤ} {c : Char} (h : c ∈ ofInt z) :
    c = '-' ∨ c.isDigit = true := by
  rw [ofInt] at h
  split_ifs at h with hz
  · exact .inr (isDigit_of_mem_ofNat h)
  · exact (List.mem_cons.mp h).imp_right isDigit_of_mem_ofNat

theorem ofInt_ne_nil (z : ℤ) : ofInt z ≠ [] := by
  rw [ofInt]
  split_ifs
  · exact ofNat_ne_nil _
  · exact List.cons_ne_nil _ _

theorem length_ofInt_le {z : ℤ} {k : ℕ} (hk : 0 < k) (h : z.natAbs < 10 ^ k) :
    (ofInt z).length ≤ k + 1 := by
  rw [ofInt]
  split_ifs with hz
  · have hlen := (length_ofNat_le_iff hk).mpr (show z.toNat < 10 ^ k by omega)
    omega
  · have hlen := (length_ofNat_le_iff hk).mpr (show (-z).toNat < 10 ^ k by omega)
    rw [List.length_cons]
    omega

theorem ofInt_natCast (n : ℕ) : ofInt n = ofNat n := by
  rw [ofInt, if_pos (Int.natCast_nonneg n), Int.toNat_natCast]

/-- A numeral is read back. -/
theorem toInt_ofInt (z : ℤ) : toInt (ofInt z) = z := by
  rw [ofInt]
  split_ifs with h
  · have hdash : ∀ cs, ofNat z.toNat ≠ '-' :: cs := by
      intro cs hcs
      have hmem : '-' ∈ ofNat z.toNat := by simp [hcs]
      exact absurd (isDigit_of_mem_ofNat hmem) (by decide)
    rw [toInt, ofDigitChars_ofNat]
    · exact Int.toNat_of_nonneg h
    · exact hdash
  · rw [toInt, ofDigitChars_ofNat]
    omega

end Decimal
