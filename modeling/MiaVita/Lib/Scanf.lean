import Mathlib.Algebra.Ring.Nat
import Mathlib.Data.List.TakeWhile

/-!
# Numbers that are read from a text

A text is the list of its bytes, with or without the zero that ends it: a zero is neither a blank
nor a digit. `atoi` and the conversions of `sscanf` skip blanks, take a sign and go on as long as
there are digits. They differ in how many characters they may take and in what they make of a number
that is too large. A conversion that finds no digit assigns nothing.
-/

namespace Scanf

/-! ### Pieces of a number -/

/-- `isspace`. -/
def isSpace (b : UInt8) : Bool := b = 0x20 || (0x09 ≤ b && b ≤ 0x0d)

/-- The value of a digit, up to base 16. -/
def digit? (base : ℕ) (b : UInt8) : Option ℕ :=
  let v :=
    if 0x30 ≤ b ∧ b ≤ 0x39 then some (b.toNat - 0x30)
    else if 0x41 ≤ b ∧ b ≤ 0x46 then some (b.toNat - 0x41 + 10)
    else if 0x61 ≤ b ∧ b ≤ 0x66 then some (b.toNat - 0x61 + 10)
    else none
  v.filter (· < base)

/-- The digits at the start of a text. -/
def digits (base : ℕ) : List UInt8 → List ℕ
  | [] => []
  | b :: bs =>
    match digit? base b with
    | some d => d :: digits base bs
    | none => []

/-- The number that some digits make. -/
def value (base : ℕ) (ds : List ℕ) : ℕ := ds.foldl (base * · + ·) 0

/-- The sign at the start of a text, whether it is a minus, and what follows. -/
def sign : List UInt8 → Bool × List UInt8
  | 0x2d :: bs => (true, bs)
  | 0x2b :: bs => (false, bs)
  | bs => (false, bs)

/-- The prefix `0x` at the start of a text, and what follows. -/
def hexMark : List UInt8 → Bool × List UInt8
  | 0x30 :: 0x78 :: bs => (true, bs)
  | 0x30 :: 0x58 :: bs => (true, bs)
  | bs => (false, bs)

/-- A number with its sign. -/
def signed (negative : Bool) (n : ℕ) : ℤ := if negative then -n else n

/-! ### Conversions -/

/-- `atoi`, for numbers that an `int` can hold. -/
def atoi (text : List UInt8) : ℤ :=
  let (negative, t) := sign (text.dropWhile isSpace)
  signed negative (value 10 (digits 10 t))

/-- The conversion `%nd` with a width `n`: the number, and the rest of the text. The blanks do not
count, the sign does. -/
def scanDecimal (width : ℕ) (text : List UInt8) : Option (ℤ × List UInt8) :=
  let t := text.dropWhile isSpace
  let (negative, t') := sign (t.take width)
  let ds := digits 10 t'
  if ds = [] then none
  else some (signed negative (value 10 ds), t.drop ((t.take width).length - t'.length + ds.length))

/-- The conversion `%hhX`, where `unsigned long` has `w` bits: a number that does not fit in it is
the greatest one, and of the result the last byte is taken. After the prefix there need not be a
digit, its zero is one. -/
def scanHexByte (w : ℕ) (text : List UInt8) : Option UInt8 :=
  let (negative, t) := sign (text.dropWhile isSpace)
  let (mark, t) := hexMark t
  let ds := digits 16 t
  if ds = [] ∧ mark = false then none
  else
    let n := value 16 ds
    let ul := if 2 ^ w ≤ n then 2 ^ w - 1 else if negative then (2 ^ w - n) % 2 ^ w else n
    some (UInt8.ofNat ul)

/-! ### Texts of digits -/

section Digits

variable {base : ℕ} {b : UInt8} {bs : List UInt8} {d : ℕ}

/-- A digit stands for a number below the base, and it is one of the ten or one of the letters. -/
theorem digit?_eq_some (h : digit? base b = some d) :
    d < base ∧ (0x30 ≤ b.toNat ∧ b.toNat ≤ 0x39 ∨ 0x41 ≤ b.toNat ∧ b.toNat ≤ 0x46 ∨
      0x61 ≤ b.toNat ∧ b.toNat ≤ 0x66) := by
  obtain ⟨hv, hd⟩ := Option.filter_eq_some_iff.mp h
  refine ⟨of_decide_eq_true hd, ?_⟩
  simp only [UInt8.le_iff_toNat_le] at hv
  split_ifs at hv with h₁ h₂ h₃
  · exact .inl h₁
  · exact .inr (.inl h₂)
  · exact .inr (.inr h₃)

private theorem isSpace_of_digit? (h : digit? base b = some d) : isSpace b = false := by
  have hrange := (digit?_eq_some h).2
  by_contra hspace
  have hblank : b.toNat = 0x20 ∨ 0x09 ≤ b.toNat ∧ b.toNat ≤ 0x0d := by
    simpa [isSpace, UInt8.le_iff_toNat_le, ← UInt8.toNat_inj, or_iff_not_imp_left] using hspace
  omega

/-- A text that starts with a digit has no sign. -/
theorem sign_of_digit? (h : digit? base b = some d) : sign (b :: bs) = (false, b :: bs) := by
  have hrange := (digit?_eq_some h).2
  unfold sign
  split
  · next heq =>
    cases heq
    exact absurd hrange (by decide)
  · next heq =>
    cases heq
    exact absurd hrange (by decide)
  · rfl

/-- Two digits are not the prefix `0x`. -/
theorem hexMark_of_digit? {c : UInt8} (h : digit? base c = some d) :
    hexMark (b :: c :: bs) = (false, b :: c :: bs) := by
  have hrange := (digit?_eq_some h).2
  unfold hexMark
  split
  · next heq =>
    cases heq
    exact absurd hrange (by decide)
  · next heq =>
    cases heq
    exact absurd hrange (by decide)
  · rfl

private theorem digits_cons (h : digit? base b = some d) :
    digits base (b :: bs) = d :: digits base bs := by
  rw [digits, h]

theorem digits_cons_of_none (h : digit? base b = none) : digits base (b :: bs) = [] := by
  rw [digits, h]

/-- **Two hexadecimal digits** are read as a byte. -/
theorem scanHexByte_pair {w : ℕ} (hw : 8 ≤ w) {hi lo : UInt8} {h l : ℕ}
    (hhi : digit? 16 hi = some h) (hlo : digit? 16 lo = some l) :
    scanHexByte w [hi, lo] = some (UInt8.ofNat (16 * h + l)) := by
  have hh := (digit?_eq_some hhi).1
  have hl := (digit?_eq_some hlo).1
  have hfits : ¬ 2 ^ w ≤ 16 * h + l := by
    have := Nat.pow_le_pow_right (by decide : 0 < 2) hw
    omega
  have hdigits : digits 16 [hi, lo] = [h, l] := by
    rw [digits_cons hhi, digits_cons hlo]
    rfl
  have hvalue : value 16 [h, l] = 16 * h + l := by simp [value]
  rw [scanHexByte, List.dropWhile_cons_of_neg (by rw [isSpace_of_digit? hhi]; decide),
    sign_of_digit? hhi]
  dsimp only
  rw [hexMark_of_digit? hlo]
  dsimp only
  rw [hdigits, hvalue, if_neg (by rintro ⟨⟨⟩, -⟩), if_neg hfits]
  rfl

private theorem digits_append (hbs : ∀ b ∈ bs, ∃ d, digit? base b = some d) (rest : List UInt8) :
    digits base (bs ++ rest) = digits base bs ++ digits base rest := by
  induction bs with
  | nil => rfl
  | cons b bs ih =>
    obtain ⟨⟨d, hd⟩, hbs⟩ := List.forall_mem_cons.mp hbs
    rw [List.cons_append, digits_cons hd, digits_cons hd, ih hbs, List.cons_append]

private theorem value_concat (ds : List ℕ) : value base (ds ++ [d]) = base * value base ds + d := by
  rw [value, List.foldl_append]
  rfl

end Digits

/-! ### Hexadecimal numerals

The text that `%hhX` converts, by its parts. The conversion takes as much as it can, so the parts of
a text are determined: `0x` is never a zero in front of an `x`, and the digits go on up to something
else. -/

/-- The sign in front of a number. -/
inductive Sign where
  | none
  | plus
  | minus
  deriving DecidableEq

/-- The text of a sign. -/
def Sign.text : Sign → List UInt8
  | none => []
  | plus => [0x2b]
  | minus => [0x2d]

/-- The mark of a hexadecimal number. -/
inductive HexMark where
  | none
  | lower
  | upper
  deriving DecidableEq

/-- The text of a mark, `0x` or `0X`. -/
def HexMark.text : HexMark → List UInt8
  | none => []
  | lower => [0x30, 0x78]
  | upper => [0x30, 0x58]

/-- A text that starts with a hexadecimal numeral. There is a digit in it, or the zero of the mark
is one. -/
structure HexNumeral where
  blanks : List UInt8
  sign : Sign
  mark : HexMark
  digits : List UInt8
  rest : List UInt8
  isSpace_blanks : ∀ b ∈ blanks, isSpace b = true
  digit_digits : ∀ b ∈ digits, ∃ d, digit? 16 b = some d
  digit_rest : ∀ b bs, rest = b :: bs → digit? 16 b = Option.none
  mark_taken : mark = .none → ∀ m : HexMark, m.text <+: digits ++ rest → m = .none
  nonempty : mark = .none → digits ≠ []

namespace HexNumeral

/-- The text from its first digit on. -/
def number (n : HexNumeral) : List UInt8 := n.mark.text ++ (n.digits ++ n.rest)

/-- The whole text. -/
def text (n : HexNumeral) : List UInt8 := n.blanks ++ (n.sign.text ++ n.number)

/-- The value of the digits. -/
def value (n : HexNumeral) : ℕ := Scanf.value 16 (n.digits.filterMap (digit? 16))

/-- The byte that a numeral stands for, where `unsigned long` has `w` bits: its value modulo 256,
with its sign, and the greatest byte if the value is too large. -/
def byte (w : ℕ) (n : HexNumeral) : UInt8 :=
  if 2 ^ w ≤ n.value then 0xff
  else if n.sign = .minus then -UInt8.ofNat n.value
  else UInt8.ofNat n.value

end HexNumeral

/-- **A text without a number**: behind blanks and at most one sign, there is no digit. -/
def NoHexNumeral (text : List UInt8) : Prop :=
  ∀ (blanks : List UInt8) (sign : Sign) (b : UInt8) (rest : List UInt8),
    text = blanks ++ (sign.text ++ b :: rest) → (∀ c ∈ blanks, isSpace c = true) →
      digit? 16 b = Option.none

section HexNumerals

variable {b : UInt8} {bs text : List UInt8} {d w : ℕ}

/-- The blanks and the sign in front of a digit are passed over. -/
theorem sign_dropWhile_digit {blanks : List UInt8} (hblanks : ∀ c ∈ blanks, isSpace c = true)
    (sg : Sign) (hd : digit? 16 b = some d) :
    sign ((blanks ++ (sg.text ++ b :: bs)).dropWhile isSpace) =
      (decide (sg = .minus), b :: bs) := by
  rw [List.dropWhile_append_of_pos hblanks]
  cases sg with
  | none =>
    rw [Sign.text, List.nil_append,
      List.dropWhile_cons_of_neg (by rw [isSpace_of_digit? hd]; decide), sign_of_digit? hd]
    rfl
  | plus => rfl
  | minus => rfl

/-- Every text starts with blanks and at most one sign. -/
theorem exists_sign (text : List UInt8) :
    ∃ (blanks : List UInt8) (sg : Sign), (∀ c ∈ blanks, isSpace c = true) ∧
      text = blanks ++ (sg.text ++ (sign (text.dropWhile isSpace)).2) := by
  have hsign : ∀ t, ∃ sg : Sign, t = sg.text ++ (sign t).2 := by
    intro t
    unfold sign
    split
    · exact ⟨.minus, rfl⟩
    · exact ⟨.plus, rfl⟩
    · exact ⟨.none, rfl⟩
  obtain ⟨sg, hsg⟩ := hsign (text.dropWhile isSpace)
  refine ⟨text.takeWhile isSpace, sg, fun c hc => List.mem_takeWhile_imp hc, ?_⟩
  rw [← hsg, List.takeWhile_append_dropWhile]

/-- Every text starts with at most one mark. -/
theorem exists_mark (text : List UInt8) :
    ∃ (m : HexMark) (t : List UInt8), hexMark text = (decide (m ≠ .none), t) ∧
      text = m.text ++ t ∧ (m = .none → ∀ m' : HexMark, m'.text <+: t → m' = .none) := by
  unfold hexMark
  split
  · exact ⟨.lower, _, rfl, rfl, fun h => nomatch h⟩
  · exact ⟨.upper, _, rfl, rfl, fun h => nomatch h⟩
  · next hlower hupper =>
    refine ⟨.none, text, rfl, rfl, fun _ m' hm' => ?_⟩
    obtain ⟨rest, hrest⟩ := hm'
    cases m' with
    | none => rfl
    | lower => exact absurd hrest.symm (hlower rest)
    | upper => exact absurd hrest.symm (hupper rest)

private theorem hexMark_append {m : HexMark}
    (h : m = .none → ∀ m' : HexMark, m'.text <+: text → m' = .none) :
    hexMark (m.text ++ text) = (decide (m ≠ .none), text) := by
  cases m with
  | none =>
    obtain ⟨m', t, hm', rfl, -⟩ := exists_mark text
    obtain rfl : m' = .none := h rfl m' ⟨t, rfl⟩
    exact hm'
  | lower => rfl
  | upper => rfl

/-- Digits are read up to something else. -/
theorem digits_append_rest {base : ℕ} {ds rest : List UInt8}
    (hds : ∀ b ∈ ds, ∃ d, digit? base b = some d)
    (hrest : ∀ b bs, rest = b :: bs → digit? base b = none) :
    digits base (ds ++ rest) = ds.filterMap (digit? base) := by
  induction ds with
  | nil =>
    cases rest with
    | nil => rfl
    | cons b bs => exact digits_cons_of_none (hrest b bs rfl)
  | cons b ds ih =>
    obtain ⟨⟨d, hd⟩, hds⟩ := List.forall_mem_cons.mp hds
    rw [List.cons_append, digits_cons hd, ih hds, List.filterMap_cons_some hd]

/-- A number starts with a digit. -/
theorem number_start (n : HexNumeral) : ∃ b bs d, n.number = b :: bs ∧ digit? 16 b = some d := by
  rw [HexNumeral.number]
  cases hmark : n.mark with
  | none =>
    obtain ⟨b, bs, hdigits⟩ := List.exists_cons_of_ne_nil (n.nonempty hmark)
    obtain ⟨d, hd⟩ := n.digit_digits b (hdigits ▸ List.mem_cons_self)
    exact ⟨b, bs ++ n.rest, d, by rw [hdigits]; rfl, hd⟩
  | lower => exact ⟨0x30, _, 0, rfl, rfl⟩
  | upper => exact ⟨0x30, _, 0, rfl, rfl⟩

/-- What the parts of a numeral mean to the conversion. -/
theorem scan_parts (n : HexNumeral) :
    sign (n.text.dropWhile isSpace) = (decide (n.sign = .minus), n.number) ∧
      hexMark n.number = (decide (n.mark ≠ .none), n.digits ++ n.rest) ∧
      digits 16 (n.digits ++ n.rest) = n.digits.filterMap (digit? 16) := by
  refine ⟨?_, hexMark_append n.mark_taken, digits_append_rest n.digit_digits n.digit_rest⟩
  obtain ⟨b, bs, d, hnumber, hd⟩ := number_start n
  rw [HexNumeral.text, hnumber]
  exact sign_dropWhile_digit n.isSpace_blanks n.sign hd

/-- `unsigned long` has whole bytes in it, so what overflows does not change the last one. -/
theorem ofNat_scanned (hw : 8 ≤ w) (n : HexNumeral) :
    UInt8.ofNat (if 2 ^ w ≤ n.value then 2 ^ w - 1
      else if decide (n.sign = .minus) then (2 ^ w - n.value) % 2 ^ w else n.value) = n.byte w := by
  obtain ⟨k, rfl⟩ := Nat.exists_eq_add_of_le hw
  have hpow : 2 ^ (8 + k) = 256 * 2 ^ k := by rw [Nat.pow_add]
  have hpos : 0 < 2 ^ k := Nat.two_pow_pos k
  rw [HexNumeral.byte]
  apply UInt8.toNat_inj.mp
  simp only [decide_eq_true_eq]
  split_ifs with hlarge hminus
  · rw [UInt8.toNat_ofNat']
    change (2 ^ (8 + k) - 1) % 256 = 255
    omega
  · rw [UInt8.toNat_neg, UInt8.toNat_ofNat', UInt8.toNat_ofNat', hpow, Nat.mod_mul_right_mod]
    change (256 * 2 ^ k - n.value) % 256 = (256 - n.value % 256) % 256
    omega
  · rfl

/-- **A numeral is converted** to its byte. -/
theorem scanHexByte_text (hw : 8 ≤ w) (n : HexNumeral) :
    scanHexByte w n.text = some (n.byte w) := by
  obtain ⟨hsign, hmark, hdigits⟩ := scan_parts n
  have hconverts : ¬ (n.digits.filterMap (digit? 16) = [] ∧ decide (n.mark ≠ .none) = false) := by
    rintro ⟨hnil, hnone⟩
    obtain ⟨b, bs, hcons⟩ := List.exists_cons_of_ne_nil (n.nonempty (by simpa using hnone))
    obtain ⟨d, hd⟩ := n.digit_digits b (hcons ▸ List.mem_cons_self)
    rw [hcons, List.filterMap_cons_some hd] at hnil
    exact absurd hnil (List.cons_ne_nil _ _)
  rw [scanHexByte, hsign]
  dsimp only
  rw [hmark]
  dsimp only
  rw [hdigits, if_neg hconverts]
  exact congrArg some (ofNat_scanned hw n)

/-- A text with a digit behind its blanks and its sign is a numeral. -/
theorem exists_hexNumeral {blanks : List UInt8} (hblanks : ∀ c ∈ blanks, isSpace c = true)
    (sg : Sign) (hd : digit? 16 b = some d) :
    ∃ n : HexNumeral, n.text = blanks ++ (sg.text ++ b :: bs) := by
  obtain ⟨m, t, -, htext, htaken⟩ := exists_mark (b :: bs)
  let isDigit : UInt8 → Bool := fun c => (digit? 16 c).isSome
  have hsplit : t.takeWhile isDigit ++ t.dropWhile isDigit = t := List.takeWhile_append_dropWhile
  refine ⟨⟨blanks, sg, m, t.takeWhile isDigit, t.dropWhile isDigit, hblanks, fun c hc => ?_,
    fun c cs hcs => ?_, fun hm => ?_, fun hm => ?_⟩, ?_⟩
  · have hdigit : isDigit c = true := List.mem_takeWhile_imp hc
    exact Option.isSome_iff_exists.mp hdigit
  · have hhead := List.head_dropWhile_not isDigit (by rw [hcs]; exact List.cons_ne_nil _ _)
    simp only [hcs, List.head_cons] at hhead
    exact Option.not_isSome_iff_eq_none.mp (ne_true_of_eq_false hhead)
  · rw [hsplit]
    exact htaken hm
  · subst hm
    obtain rfl : b :: bs = t := htext
    have hdigit : isDigit b = true := Option.isSome_iff_exists.mpr ⟨d, hd⟩
    rw [List.takeWhile_cons_of_pos hdigit]
    exact List.cons_ne_nil _ _
  · change blanks ++ (sg.text ++ (m.text ++ (t.takeWhile isDigit ++ t.dropWhile isDigit))) = _
    rw [hsplit, htext]

/-- **Without a number nothing is converted.** -/
theorem NoHexNumeral.scanHexByte_eq_none (h : NoHexNumeral text) : scanHexByte w text = none := by
  obtain ⟨blanks, sg, hblanks, htext⟩ := exists_sign text
  cases hnumber : (sign (text.dropWhile isSpace)).2 with
  | nil =>
    rw [scanHexByte]
    simp only [hnumber]
    rfl
  | cons b bs =>
    rw [hnumber] at htext
    have hb : digit? 16 b = none := h blanks sg b bs htext hblanks
    have hmark : hexMark (b :: bs) = (false, b :: bs) := by
      unfold hexMark
      split
      · next heq => cases heq; cases hb
      · next heq => cases heq; cases hb
      · rfl
    rw [scanHexByte]
    simp only [hnumber, hmark, digits_cons_of_none hb, and_self, if_pos]

/-- A text starts with a numeral, or it has no number. -/
theorem exists_hexNumeral_or (text : List UInt8) :
    (∃ n : HexNumeral, n.text = text) ∨ NoHexNumeral text := by
  by_cases h : NoHexNumeral text
  · exact .inr h
  · simp only [NoHexNumeral, not_forall] at h
    obtain ⟨blanks, sg, b, bs, rfl, hblanks, hb⟩ := h
    obtain ⟨d, hd⟩ := Option.ne_none_iff_exists'.mp hb
    exact .inl (exists_hexNumeral hblanks sg hd)

/-- **The byte that `%hhX` leaves in a variable** with the value 0, by the text: that of a numeral,
and the 0 if there is no number. -/
theorem scanHexByte_getD_iff (hw : 8 ≤ w) (text : List UInt8) (v : UInt8) :
    (scanHexByte w text).getD 0 = v ↔
      (∃ n : HexNumeral, n.text = text ∧ n.byte w = v) ∨ NoHexNumeral text ∧ v = 0 := by
  constructor
  · rintro rfl
    obtain ⟨n, rfl⟩ | h := exists_hexNumeral_or text
    · exact .inl ⟨n, rfl, by rw [scanHexByte_text hw]; rfl⟩
    · exact .inr ⟨h, by rw [h.scanHexByte_eq_none]; rfl⟩
  · rintro (⟨n, rfl, rfl⟩ | ⟨h, rfl⟩)
    · rw [scanHexByte_text hw]
      rfl
    · rw [h.scanHexByte_eq_none]
      rfl

end HexNumerals

/-! ### Numbers with leading zeros -/

/-- A number with a fixed count of decimal digits. -/
def decimal : ℕ → ℕ → List UInt8
  | 0, _ => []
  | k + 1, n => decimal k (n / 10) ++ [UInt8.ofNat (0x30 + n % 10)]

section Decimal

variable {k n : ℕ} {rest : List UInt8}

@[simp] theorem length_decimal (k n : ℕ) : (decimal k n).length = k := by
  induction k generalizing n with
  | zero => rfl
  | succ k ih => rw [decimal, List.length_append, ih, List.length_singleton]

private theorem digit?_ofNat {d : ℕ} (h : d < 10) :
    digit? 10 (UInt8.ofNat (0x30 + d)) = some d := by
  revert d
  decide

theorem digit?_of_mem_decimal {b : UInt8} (h : b ∈ decimal k n) : ∃ d, digit? 10 b = some d := by
  induction k generalizing n with
  | zero => cases h
  | succ k ih =>
    obtain h | h := List.mem_append.mp h
    · exact ih h
    · rw [List.mem_singleton.mp h]
      exact ⟨n % 10, digit?_ofNat (Nat.mod_lt n (by decide))⟩

private theorem digits_decimal (k n : ℕ) :
    (digits 10 (decimal k n)).length = k ∧ value 10 (digits 10 (decimal k n)) = n % 10 ^ k := by
  induction k generalizing n with
  | zero => exact ⟨rfl, (Nat.mod_one n).symm⟩
  | succ k ih =>
    obtain ⟨hlength, hvalue⟩ := ih (n / 10)
    have hlast : digits 10 [UInt8.ofNat (0x30 + n % 10)] = [n % 10] :=
      digits_cons (digit?_ofNat (Nat.mod_lt n (by decide)))
    rw [decimal, digits_append fun b hb => digit?_of_mem_decimal hb, hlast]
    constructor
    · rw [List.length_append, hlength, List.length_singleton]
    · rw [value_concat, hvalue, Nat.pow_succ', Nat.mod_mul, Nat.add_comm]

/-- A number starts with a digit, hence neither with a blank nor with a sign. -/
theorem decimal_append_start (hk : 0 < k) (rest : List UInt8) :
    (decimal k n ++ rest).dropWhile isSpace = decimal k n ++ rest ∧
      sign (decimal k n ++ rest) = (false, decimal k n ++ rest) := by
  have hlength := length_decimal k n
  cases hdecimal : decimal k n with
  | nil =>
    rw [hdecimal] at hlength
    exact absurd hlength (Nat.ne_of_lt hk)
  | cons b bs =>
    have hmem : b ∈ decimal k n := hdecimal ▸ List.mem_cons_self
    obtain ⟨d, hd⟩ := digit?_of_mem_decimal hmem
    exact ⟨List.dropWhile_cons_of_neg (by rw [isSpace_of_digit? hd]; decide), sign_of_digit? hd⟩

/-- **`atoi` reads a number** up to a character that is not a digit. -/
theorem atoi_decimal (hk : 0 < k) (hn : n < 10 ^ k) (hrest : digits 10 rest = []) :
    atoi (decimal k n ++ rest) = n := by
  obtain ⟨hblank, hsign⟩ := decimal_append_start (n := n) hk rest
  rw [atoi, hblank, hsign]
  dsimp only
  rw [digits_append fun b hb => digit?_of_mem_decimal hb, hrest, List.append_nil,
    (digits_decimal k n).2, Nat.mod_eq_of_lt hn]
  rfl

/-- **A conversion with a width reads a number** of that width, whatever follows. -/
theorem scanDecimal_decimal (hk : 0 < k) (hn : n < 10 ^ k) (rest : List UInt8) :
    scanDecimal k (decimal k n ++ rest) = some (↑n, rest) := by
  have hblank := (decimal_append_start (n := n) hk rest).1
  have hsign := (decimal_append_start (n := n) hk []).2
  rw [List.append_nil] at hsign
  have htake : (decimal k n ++ rest).take k = decimal k n := List.take_left' (length_decimal k n)
  obtain ⟨hlength, hvalue⟩ := digits_decimal k n
  rw [scanDecimal, hblank]
  dsimp only
  rw [htake, hsign]
  dsimp only
  have hne : digits 10 (decimal k n) ≠ [] := fun hnil => by
    rw [hnil] at hlength
    exact absurd hlength (Nat.ne_of_lt hk)
  rw [if_neg hne, hvalue, Nat.mod_eq_of_lt hn, Nat.sub_self, Nat.zero_add, hlength,
    List.drop_left' (length_decimal k n)]
  rfl

end Decimal

end Scanf
