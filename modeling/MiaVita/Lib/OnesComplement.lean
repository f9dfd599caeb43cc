import Mathlib.Data.List.Basic
import Mathlib.Data.List.Induction
import Mathlib.Algebra.BigOperators.Group.List.Basic
import Mathlib.Algebra.GroupWithZero.Nat

/-!
# One's-complement sums of 16-bit words

The sum of 16-bit words modulo `2 ^ 16 - 1`, computed by adding them up in a wider register and
folding the carries back twice. `foldCarry` is the folded sum: it is congruent to the sum
(`foldCarry_spec`), and it is `0` only for the sum `0`. So a word that complements the folded sum
makes the sum of all words fold to `2 ^ 16 - 1` (`foldCarry_add_complement`). `onesSum` adds word by
word and carries around each time, which comes to the same (`onesSum_eq_foldCarry`).
-/

namespace OnesComplement

/-- The low half of a 32-bit sum after its upper half has been added to it twice. -/
def foldCarry (s : ℕ) : ℕ :=
  (s / 65536 + s % 65536 + (s / 65536 + s % 65536) / 65536) % 65536

theorem foldCarry_lt (s : ℕ) : foldCarry s < 65536 := Nat.mod_lt _ (by decide)

/-- Folding keeps the residue modulo `2 ^ 16 - 1` and represents `0` by `2 ^ 16 - 1` unless the
sum itself is `0`. -/
theorem foldCarry_spec {s : ℕ} (h : s < 2 ^ 32) :
    s % 65535 = foldCarry s % 65535 ∧ (0 < s → 0 < foldCarry s) := by
  obtain ⟨t, ht⟩ : ∃ t, t = s / 65536 + s % 65536 := ⟨_, rfl⟩
  have hle : t ≤ 131070 := by omega
  -- the second fold carries at most once and leaves nothing to fold
  have hfold : foldCarry s = if t < 65536 then t else t - 65535 := by
    rw [foldCarry, ← ht]
    split_ifs <;> omega
  rw [hfold]
  split_ifs <;> omega

/-- A sum folds to `2 ^ 16 - 1` if it is a multiple of it, `0` apart. -/
theorem foldCarry_eq_ones_iff {s : ℕ} (h : s < 2 ^ 32) :
    foldCarry s = 65535 ↔ 0 < s ∧ s % 65535 = 0 := by
  obtain ⟨hmod, hpos⟩ := foldCarry_spec h
  have hlt := foldCarry_lt s
  constructor
  · intro hones
    rw [hones] at hmod
    refine ⟨Nat.pos_of_ne_zero ?_, hmod⟩
    rintro rfl
    cases hones
  · rintro ⟨hs, hzero⟩
    have := hpos hs
    omega

/-- **The complement closes the sum.** -/
theorem foldCarry_add_complement {s : ℕ} (h : s + (65535 - foldCarry s) < 2 ^ 32) :
    foldCarry (s + (65535 - foldCarry s)) = 65535 := by
  obtain ⟨hmod, hpos⟩ := foldCarry_spec (s := s) (by omega)
  obtain ⟨hmod', hpos'⟩ := foldCarry_spec h
  have hlt := foldCarry_lt s
  have hlt' := foldCarry_lt (s + (65535 - foldCarry s))
  have hsum : 0 < s + (65535 - foldCarry s) := by
    rcases Nat.eq_zero_or_pos s with rfl | hs
    · decide
    · omega
  have := hpos' hsum
  omega

/-- The sum of two words, with the carry added at the lower end. -/
def onesAdd (a b : ℕ) : ℕ := if a + b < 65536 then a + b else a + b - 65535

/-- The one's-complement sum. -/
def onesSum (ws : List ℕ) : ℕ := ws.foldl onesAdd 0

/-- One word more. -/
theorem onesAdd_spec {a b : ℕ} (ha : a < 65536) (hb : b < 65536) :
    onesAdd a b < 65536 ∧ onesAdd a b % 65535 = (a + b) % 65535 ∧
      (0 < onesAdd a b ↔ 0 < a + b) := by
  rw [onesAdd]
  split_ifs <;> omega

/-- The one's-complement sum is a word with the residue of the sum, and `0` only for the sum `0`. -/
theorem onesSum_spec {ws : List ℕ} (h : ∀ w ∈ ws, w < 65536) :
    onesSum ws < 65536 ∧ onesSum ws % 65535 = ws.sum % 65535 ∧ (0 < onesSum ws ↔ 0 < ws.sum) := by
  induction ws using List.reverseRecOn with
  | nil => exact ⟨by decide, rfl, Iff.rfl⟩
  | append_singleton ws w ih =>
    obtain ⟨hlt, hmod, hpos⟩ := ih fun w hw => h w (List.mem_append_left _ hw)
    obtain ⟨hlt', hmod', hpos'⟩ := onesAdd_spec hlt (h w (by simp))
    have hsum : onesSum (ws ++ [w]) = onesAdd (onesSum ws) w := by
      rw [onesSum, List.foldl_append]
      rfl
    rw [hsum, List.sum_append, List.sum_singleton]
    refine ⟨hlt', by omega, hpos'.trans ?_⟩
    rw [Nat.add_pos_iff_pos_or_pos, Nat.add_pos_iff_pos_or_pos, hpos]

/-- **Carrying around each time or twice at the end** is the same. -/
theorem onesSum_eq_foldCarry {ws : List ℕ} (h : ∀ w ∈ ws, w < 65536) (hsum : ws.sum < 2 ^ 32) :
    onesSum ws = foldCarry ws.sum := by
  obtain ⟨hlt, hmod, hpos⟩ := onesSum_spec h
  obtain ⟨hmod', hpos'⟩ := foldCarry_spec hsum
  have hlt' := foldCarry_lt ws.sum
  rcases Nat.eq_zero_or_pos ws.sum with hzero | hsum
  · have hnot : ¬ 0 < onesSum ws := by
      rw [hpos, hzero]
      exact Nat.lt_irrefl 0
    rw [Nat.eq_zero_of_not_pos hnot, hzero]
    rfl
  · have := hpos.mpr hsum
    have := hpos' hsum
    omega

/-- Replacing a zero word adds the new word to the sum. -/
theorem sum_set_of_zero {ws : List ℕ} {i : ℕ} (h : ws[i]? = some 0) (c : ℕ) :
    (ws.set i c).sum = ws.sum + c := by
  induction ws generalizing i with
  | nil => simp at h
  | cons w ws ih =>
    cases i with
    | zero =>
      obtain rfl : w = 0 := by simpa using h
      simp [Nat.add_comm]
    | succ i =>
      rw [List.set_cons_succ, List.sum_cons, List.sum_cons, ih (by simpa using h)]
      omega

end OnesComplement
