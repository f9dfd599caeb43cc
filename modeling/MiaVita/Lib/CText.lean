import MiaVita.Lib.Decimal
import MiaVita.Lib.Memory

/-!
# Texts in arrays of characters

A C text is an array of characters that ends with a zero. `memcpy` and `clear` write to the start of
an array and `strtol` reads a numeral from it; each stops with a fault where it would leave the
array. `field` cuts the next field out of a text whose fields end with a separator.
-/

namespace CText

open Memory Fallible

/-- The character that ends a text. -/
def nul : Char := Char.ofNat 0

/-- An array of zeros. -/
def zeros (n : ℕ) : List Char := List.replicate n nul

theorem length_zeros (n : ℕ) : (zeros n).length = n := List.length_replicate

theorem zeros_of_pos {n : ℕ} (h : 0 < n) : zeros n = nul :: zeros (n - 1) := by
  obtain ⟨n, rfl⟩ := Nat.exists_eq_succ_of_ne_zero (Nat.ne_of_gt h)
  rfl

/-! ### Arrays -/

/-- `memcpy` to the start of an array. -/
def memcpy (arr text : List Char) : Except Fault (List Char) :=
  if text.length ≤ arr.length then .ok (text ++ arr.drop text.length)
  else .error (.write 0 text.length)

/-- `memset(arr, 0, n)`. -/
def clear (arr : List Char) (n : ℕ) : Except Fault (List Char) :=
  if n ≤ arr.length then .ok (zeros n ++ arr.drop n) else .error (.write 0 n)

theorem memcpy_zeros {text : List Char} {n : ℕ} (h : text.length ≤ n) :
    memcpy (zeros n) text = .ok (text ++ zeros (n - text.length)) := by
  rw [memcpy, if_pos (by rwa [length_zeros]), zeros, List.drop_replicate, zeros]

/-- An array that is cleared as far as it was written is an array of zeros. -/
theorem clear_memcpy {text : List Char} {n k : ℕ} (h : text.length ≤ k) (hk : k ≤ n) :
    clear (text ++ zeros (n - text.length)) k = .ok (zeros n) := by
  have hlen : k ≤ (text ++ zeros (n - text.length)).length := by
    rw [List.length_append, length_zeros]
    omega
  have hdrop : (text ++ zeros (n - text.length)).drop k = zeros (n - k) := by
    rw [List.drop_append, List.drop_eq_nil_of_le h, List.nil_append, zeros, List.drop_replicate,
      show n - text.length - (k - text.length) = n - k by omega, zeros]
  rw [clear, if_pos hlen, hdrop, zeros, zeros, ← List.replicate_add,
    show k + (n - k) = n by omega, zeros]

/-! ### Numerals -/

/-- `simple_strtoul` with base ten, from the value `n` of the digits in front. -/
def strtoul : List Char → ℕ → Except Fault ℕ
  | [], _ => .error (.read 0 1)
  | c :: cs, n => if c.isDigit then strtoul cs (10 * n + (c.toNat - '0'.toNat)) else .ok n

/-- `simple_strtol` with base ten. The caller keeps as many bits of the number as it has room for.
-/
def strtol : List Char → Except Fault ℤ
  | '-' :: cs => do
    let n ← strtoul cs 0
    return -(n : ℤ)
  | cs => do
    let n ← strtoul cs 0
    return (n : ℤ)

private theorem strtoul_append {cs : List Char} (hcs : ∀ c ∈ cs, c.isDigit = true) {c : Char}
    (hc : c.isDigit = false) (rest : List Char) (n : ℕ) :
    strtoul (cs ++ c :: rest) n = .ok (Nat.ofDigitChars 10 cs n) := by
  induction cs generalizing n with
  | nil =>
    rw [List.nil_append, strtoul, if_neg (by rw [hc]; decide)]
    rfl
  | cons d cs ih =>
    obtain ⟨hd, hcs⟩ := List.forall_mem_cons.mp hcs
    rw [List.cons_append, strtoul, if_pos hd, ih hcs]
    rfl

/-- **A numeral that a zero follows is read back.** -/
theorem strtol_ofInt (z : ℤ) (rest : List Char) :
    strtol (Decimal.ofInt z ++ nul :: rest) = .ok z := by
  have hread : ∀ n : ℕ, strtoul (Decimal.ofNat n ++ nul :: rest) 0 = .ok n := by
    intro n
    rw [strtoul_append (fun c hc => Decimal.isDigit_of_mem_ofNat hc) (by decide),
      Decimal.ofDigitChars_ofNat]
  rw [Decimal.ofInt]
  split_ifs with h
  · obtain ⟨n, rfl⟩ := Int.eq_ofNat_of_zero_le h
    rw [Int.toNat_natCast]
    rw [strtol, hread]
    · rfl
    · -- no numeral of a natural number starts with a minus
      intro cs hcs
      have hne := Decimal.ofNat_ne_nil n
      cases hof : Decimal.ofNat n with
      | nil => exact hne hof
      | cons c ds =>
        rw [hof, List.cons_append, List.cons.injEq] at hcs
        have hdigit : c.isDigit = true := Decimal.isDigit_of_mem_ofNat (n := n) (by simp [hof])
        rw [hcs.1] at hdigit
        exact absurd hdigit (by decide)
  · rw [List.cons_append, strtol, hread, ok_bind]
    congr 1
    omega

private theorem safe_strtoul {cs : List Char} (h : nul ∈ cs) (n : ℕ) : Safe (strtoul cs n) := by
  induction cs generalizing n with
  | nil => exact absurd h List.not_mem_nil
  | cons c cs ih =>
    rw [strtoul]
    split_ifs with hc
    · refine ih ((List.mem_cons.mp h).resolve_left ?_) _
      rintro rfl
      exact absurd hc (by decide)
    · exact safe_ok n

/-- Reading a number stays inside an array that has a zero. -/
theorem safe_strtol {cs : List Char} (h : nul ∈ cs) : Safe (strtol cs) := by
  rw [strtol.eq_def]
  split
  · exact safe_bind_ok.mpr (safe_strtoul ((List.mem_cons.mp h).resolve_left (by decide)) 0)
  · exact safe_bind_ok.mpr (safe_strtoul h 0)

/-! ### Fields -/

/-- The loop `for (; *end != ':' && *end != 0; end++)`, over the rest of the text. -/
def fieldEnd (sep : Char) : List Char → ℕ → Except Fault ℕ
  | [], i => .error (.read i 1)
  | c :: cs, i => if c ≠ sep ∧ c ≠ nul then fieldEnd sep cs (i + 1) else .ok i

/-- The field of a text that starts at some place, and the place where it ends. -/
def field (sep : Char) (text : List Char) (start : ℕ) : Except Fault (List Char × ℕ) := do
  let stop ← fieldEnd sep (text.drop start) start
  return ((text.drop start).take (stop - start), stop)

private theorem fieldEnd_append {sep : Char} {f : List Char} (hf : ∀ c ∈ f, c ≠ sep ∧ c ≠ nul)
    {c : Char} (hc : c = sep ∨ c = nul) (rest : List Char) (i : ℕ) :
    fieldEnd sep (f ++ c :: rest) i = .ok (i + f.length) := by
  induction f generalizing i with
  | nil =>
    rw [List.nil_append, fieldEnd, if_neg fun h => hc.elim h.1 h.2]
    rfl
  | cons d f ih =>
    obtain ⟨hd, hf⟩ := List.forall_mem_cons.mp hf
    rw [List.cons_append, fieldEnd, if_pos hd, ih hf, List.length_cons]
    congr 1
    omega

private theorem take_fieldEnd {sep : Char} {cs : List Char} {i j : ℕ}
    (h : fieldEnd sep cs i = .ok j) :
    ∀ c ∈ cs.take (j - i), c ≠ sep ∧ c ≠ nul := by
  induction cs generalizing i with
  | nil => cases h
  | cons c cs ih =>
    rw [fieldEnd] at h
    split_ifs at h with hc
    · intro d hd
      by_cases hij : i < j
      · rw [show j - i = j - (i + 1) + 1 by omega, List.take_succ_cons] at hd
        rcases List.mem_cons.mp hd with rfl | hd
        · exact hc
        · exact ih h d hd
      · rw [Nat.sub_eq_zero_of_le (Nat.le_of_not_lt hij), List.take_zero] at hd
        cases hd
    · cases h
      rw [Nat.sub_self, List.take_zero]
      exact fun d hd => absurd hd List.not_mem_nil

/-- A field has no zero in it. -/
theorem nul_notMem_of_field {sep : Char} {text f : List Char} {start stop : ℕ}
    (h : field sep text start = .ok (f, stop)) : nul ∉ f := by
  obtain ⟨stop', hstop, hf⟩ := bind_eq_ok.mp h
  cases hf
  exact fun hmem => (take_fieldEnd hstop nul hmem).2 rfl

/-- **A field in front of a separator, or of the end, is cut out.** What follows the separator is
where the next field starts. -/
theorem field_of_drop {sep : Char} {f : List Char} (hf : ∀ c ∈ f, c ≠ sep ∧ c ≠ nul) {c : Char}
    (hc : c = sep ∨ c = nul) {text rest : List Char} {start : ℕ}
    (h : text.drop start = f ++ c :: rest) :
    field sep text start = .ok (f, start + f.length) ∧
      text.drop (start + f.length + 1) = rest := by
  refine ⟨?_, ?_⟩
  · rw [field, h, fieldEnd_append hf hc, ok_bind, Nat.add_sub_cancel_left, List.take_left]
    rfl
  · rw [Nat.add_assoc, ← List.drop_drop, h, ← List.drop_drop, List.drop_left]
    rfl

end CText
