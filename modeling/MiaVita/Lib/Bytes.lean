import Mathlib.Data.UInt
import Mathlib.Tactic.Ring

/-!
# Byte order and byte regions

Two small vocabularies every packed wire format is read and written with.

* **Fixed-width encodings.** `le w n` and `be w n` are the `w` bytes of a natural number,
  least and most significant byte first; `leVal` and `beVal` read them back. The round trips
  are `leVal_le`, `le_leVal` and their big-endian forms, truncation being `% 256 ^ w`.
* **Regions of a sequence.** `slice m i n` is the run of `n` cells of `m` from position `i`,
  `patch m i xs` overwrites the cells from `i` on by `xs`. Both are total; the lemmas that
  speak about lengths and contents ask for the region to lie inside the sequence, and the
  frame law is `slice_patch_of_disjoint`.
-/

namespace Bytes

/-! ### Fixed-width encodings -/

/-- The `w` bytes of `n`, least significant first; what lies above is dropped. -/
def le : ℕ → ℕ → List UInt8
  | 0, _ => []
  | w + 1, n => UInt8.ofNat n :: le w (n / 256)

/-- The number whose bytes are given, least significant first. -/
def leVal : List UInt8 → ℕ
  | [] => 0
  | b :: bs => b.toNat + 256 * leVal bs

/-- The `w` bytes of `n`, most significant first. -/
def be (w n : ℕ) : List UInt8 := (le w n).reverse

/-- The number whose bytes are given, most significant first. -/
def beVal (bs : List UInt8) : ℕ := leVal bs.reverse

@[simp] theorem length_le (w n : ℕ) : (le w n).length = w := by
  induction w generalizing n with
  | zero => rfl
  | succ w ih => rw [le, List.length_cons, ih]

@[simp] theorem length_be (w n : ℕ) : (be w n).length = w := by
  rw [be, List.length_reverse, length_le]

/-- Reading back the little-endian bytes of `n` keeps its low `w` bytes. -/
theorem leVal_le (w n : ℕ) : leVal (le w n) = n % 256 ^ w := by
  induction w generalizing n with
  | zero => simp [le, leVal, Nat.mod_one]
  | succ w ih =>
    rw [le, leVal, ih, UInt8.toNat_ofNat', pow_succ' 256, Nat.mod_mul]

theorem leVal_le_of_lt {w n : ℕ} (h : n < 256 ^ w) : leVal (le w n) = n := by
  rw [leVal_le, Nat.mod_eq_of_lt h]

/-- A byte string is the encoding of its own value. -/
theorem le_leVal (bs : List UInt8) : le bs.length (leVal bs) = bs := by
  induction bs with
  | nil => rfl
  | cons b bs ih =>
    have hb : b.toNat < 256 := b.toNat_lt
    have hdiv : (b.toNat + 256 * leVal bs) / 256 = leVal bs := by omega
    have hlow : UInt8.ofNat (b.toNat + 256 * leVal bs) = b := by
      apply UInt8.toNat_inj.mp
      rw [UInt8.toNat_ofNat']
      omega
    rw [List.length_cons, leVal, le, hdiv, hlow, ih]

theorem leVal_lt (bs : List UInt8) : leVal bs < 256 ^ bs.length := by
  induction bs with
  | nil => simp [leVal]
  | cons b bs ih =>
    have hb : b.toNat < 256 := b.toNat_lt
    rw [leVal, List.length_cons, pow_succ]
    omega

/-- The bytes of a number, cut in two. -/
theorem leVal_append (as bs : List UInt8) :
    leVal (as ++ bs) = leVal as + 256 ^ as.length * leVal bs := by
  induction as with
  | nil => simp [leVal]
  | cons a as ih =>
    rw [List.cons_append, leVal, ih, leVal, List.length_cons]
    ring

theorem beVal_be (w n : ℕ) : beVal (be w n) = n % 256 ^ w := by
  rw [beVal, be, List.reverse_reverse, leVal_le]

theorem beVal_be_of_lt {w n : ℕ} (h : n < 256 ^ w) : beVal (be w n) = n := by
  rw [beVal_be, Nat.mod_eq_of_lt h]

theorem be_beVal (bs : List UInt8) : be bs.length (beVal bs) = bs := by
  have h := le_leVal bs.reverse
  rw [List.length_reverse] at h
  rw [be, beVal, h, List.reverse_reverse]

theorem beVal_lt (bs : List UInt8) : beVal bs < 256 ^ bs.length := by
  simpa [beVal] using leVal_lt bs.reverse

/-! ### Regions -/

section Regions

variable {α : Type*}

/-- The `n` cells of `m` from position `i` on. -/
def slice (m : List α) (i n : ℕ) : List α := (m.drop i).take n

/-- `m` with the cells from position `i` on overwritten by `xs`. -/
def patch (m : List α) (i : ℕ) (xs : List α) : List α :=
  m.take i ++ xs ++ m.drop (i + xs.length)

theorem length_slice_le (m : List α) (i n : ℕ) : (slice m i n).length ≤ n := by
  rw [slice, List.length_take]
  exact Nat.min_le_left _ _

theorem getElem?_slice (m : List α) (i n k : ℕ) :
    (slice m i n)[k]? = if k < n then m[i + k]? else none := by
  rw [slice, List.getElem?_take]
  split_ifs <;> simp

/-- Two adjacent regions are one. -/
theorem slice_add (m : List α) (i a b : ℕ) :
    slice m i (a + b) = slice m i a ++ slice m (i + a) b := by
  rw [slice, slice, slice, List.take_add, List.drop_drop]

theorem length_slice {m : List α} {i n : ℕ} (h : i + n ≤ m.length) :
    (slice m i n).length = n := by
  rw [slice, List.length_take, List.length_drop]
  omega

theorem length_patch {m xs : List α} {i : ℕ} (h : i + xs.length ≤ m.length) :
    (patch m i xs).length = m.length := by
  simp only [patch, List.length_append, List.length_take, List.length_drop]
  omega

theorem getElem?_patch {m xs : List α} {i : ℕ} (h : i + xs.length ≤ m.length) (k : ℕ) :
    (patch m i xs)[k]? =
      if k < i then m[k]? else if k < i + xs.length then xs[k - i]? else m[k]? := by
  have hlen : (m.take i).length = i := by
    rw [List.length_take]
    omega
  rw [patch, List.append_assoc, List.getElem?_append, hlen]
  split_ifs with hi hx
  · rw [List.getElem?_take, if_pos hi]
  · rw [List.getElem?_append, if_pos (by omega)]
  · rw [List.getElem?_append, if_neg (by omega), List.getElem?_drop]
    congr 1
    omega

@[simp] theorem slice_zero_length (m : List α) : slice m 0 m.length = m := by
  simp [slice]

theorem slice_append_left {a b : List α} {i n : ℕ} (h : i + n ≤ a.length) :
    slice (a ++ b) i n = slice a i n := by
  refine List.ext_getElem? fun k => ?_
  rw [getElem?_slice, getElem?_slice]
  split_ifs with hk
  · exact List.getElem?_append_left (by omega)
  · rfl

theorem slice_append_right (a b : List α) (i n : ℕ) :
    slice (a ++ b) (a.length + i) n = slice b i n := by
  rw [slice, slice, ← List.drop_drop, List.drop_left]

theorem slice_drop (m : List α) (h i n : ℕ) : slice (m.drop h) i n = slice m (h + i) n := by
  rw [slice, slice, List.drop_drop]

theorem slice_take {m : List α} {i n r : ℕ} (h : i + n ≤ r) :
    slice (m.take r) i n = slice m i n := by
  refine List.ext_getElem? fun k => ?_
  rw [getElem?_slice, getElem?_slice]
  split_ifs with hk
  · rw [List.getElem?_take, if_pos (by omega)]
  · rfl

/-- A middle piece of a concatenation, read off exactly. -/
theorem slice_append_mid (a b c : List α) : slice (a ++ (b ++ c)) a.length b.length = b := by
  have h := slice_append_right a (b ++ c) 0 b.length
  rw [Nat.add_zero] at h
  rw [h, slice_append_left (by omega), slice_zero_length]

theorem patch_append_left {a b xs : List α} {i : ℕ} (h : i + xs.length ≤ a.length) :
    patch (a ++ b) i xs = patch a i xs ++ b := by
  rw [patch, patch, List.take_append_of_le_length (by omega),
    List.drop_append_of_le_length h]
  simp

theorem patch_append_right (a b xs : List α) (i : ℕ) :
    patch (a ++ b) (a.length + i) xs = a ++ patch b i xs := by
  rw [patch, patch, List.take_append, List.take_of_length_le (by omega), Nat.add_assoc,
    ← List.drop_drop, List.drop_left]
  simp

/-- A write over the whole sequence replaces it. -/
theorem patch_zero_of_length_eq {m xs : List α} (h : xs.length = m.length) : patch m 0 xs = xs := by
  rw [patch, Nat.zero_add, h, List.drop_length, List.take_zero]
  simp

/-- Reading the region just written gives what was written. -/
theorem slice_patch_self {m xs : List α} {i : ℕ} (h : i + xs.length ≤ m.length) :
    slice (patch m i xs) i xs.length = xs := by
  refine List.ext_getElem? fun k => ?_
  rw [getElem?_slice, getElem?_patch h]
  split_ifs with h₁ h₂ h₃
  · omega
  · rw [Nat.add_sub_cancel_left]
  · omega
  · rw [List.getElem?_eq_none (by omega)]

/-- **Frame law**: a write leaves every disjoint region alone. -/
theorem slice_patch_of_disjoint {m xs : List α} {i j n : ℕ} (h : i + xs.length ≤ m.length)
    (hd : j + n ≤ i ∨ i + xs.length ≤ j) : slice (patch m i xs) j n = slice m j n := by
  refine List.ext_getElem? fun k => ?_
  rw [getElem?_slice, getElem?_slice]
  split_ifs with hk
  · rw [getElem?_patch h]
    split_ifs with h₁ h₂
    · rfl
    · omega
    · rfl
  · rfl

/-- The second of two writes to one region is the one that stays. -/
theorem patch_patch_self {m xs ys : List α} {i : ℕ} (h : i + xs.length ≤ m.length)
    (hxy : ys.length = xs.length) : patch (patch m i xs) i ys = patch m i ys := by
  have hp : i + ys.length ≤ (patch m i xs).length := by rw [length_patch h]; omega
  refine List.ext_getElem? fun k => ?_
  rw [getElem?_patch hp, getElem?_patch h, getElem?_patch (by omega)]
  split_ifs <;> first | rfl | omega

/-- A write that a later one covers might as well not have been made. -/
theorem patch_patch_patch {m xs ys zs : List α} {i j : ℕ} (hx : i + xs.length ≤ m.length)
    (hy : j + ys.length ≤ m.length) (hz : zs.length = xs.length) :
    patch (patch (patch m i xs) j ys) i zs = patch (patch m j ys) i zs := by
  have h₁ : j + ys.length ≤ (patch m i xs).length := by rw [length_patch hx]; exact hy
  have h₂ : i + zs.length ≤ (patch (patch m i xs) j ys).length := by
    rw [length_patch h₁, length_patch hx]
    omega
  refine List.ext_getElem? fun k => ?_
  rw [getElem?_patch h₂, getElem?_patch h₁, getElem?_patch hx,
    getElem?_patch (by rw [length_patch hy]; omega), getElem?_patch hy]
  split_ifs <;> first | rfl | omega

/-- Writing a region's own contents back changes nothing. -/
theorem patch_slice_self {m : List α} {i n : ℕ} (h : i + n ≤ m.length) :
    patch m i (slice m i n) = m := by
  have hn := length_slice h
  refine List.ext_getElem? fun k => ?_
  rw [getElem?_patch (by omega), hn, getElem?_slice]
  split_ifs with h₁ h₂ h₃
  · rfl
  · congr 1
    omega
  · omega
  · rfl

/-- A write above `h` cells is a write into what remains after dropping them. -/
theorem drop_patch_of_le {m xs : List α} {i h : ℕ} (hi : h ≤ i) (hm : i ≤ m.length) :
    (patch m i xs).drop h = patch (m.drop h) (i - h) xs := by
  have hsplit : m = m.take h ++ m.drop h := (List.take_append_drop h m).symm
  have hlen : (m.take h).length = h := by
    rw [List.length_take]
    omega
  have hp : patch m i xs = m.take h ++ patch (m.drop h) (i - h) xs := by
    have hq := patch_append_right (m.take h) (m.drop h) xs (i - h)
    rw [← hsplit, hlen] at hq
    rw [← hq]
    congr 1
    omega
  rw [hp]
  nth_rewrite 1 [← hlen]
  exact List.drop_left

/-- A write below `h` does not reach what remains after dropping `h` cells. -/
theorem drop_patch_of_ge {m xs : List α} {i h : ℕ} (hi : i + xs.length ≤ h)
    (hm : h ≤ m.length) : (patch m i xs).drop h = m.drop h := by
  refine List.ext_getElem? fun k => ?_
  rw [List.getElem?_drop, List.getElem?_drop, getElem?_patch (by omega), if_neg (by omega),
    if_neg (by omega)]

end Regions

end Bytes
