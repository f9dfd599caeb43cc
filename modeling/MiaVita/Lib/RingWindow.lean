import Mathlib.Data.List.Basic
import Mathlib.Data.Fin.Basic
import Mathlib.Data.Nat.ModEq
import Mathlib.Logic.Function.Basic

/-!
# Windows of a circular store

`c` cells addressed modulo `c`, used as a queue whose oldest element sits one cell after a
base position. `Holds cells base xs` says that the cells after `base` carry `xs` in order;
the relation is what a producer extends by one cell (`Holds.push`, as long as the window does
not lap itself) and a consumer shortens from the front (`Holds.drop`). `window` reads the
cells back.

`HoldsFrom cells start xs` is for stores whose oldest element sits at `start` itself. Positions are
numbers on a line that is wound around the store; two of them less than a revolution apart are
different cells, so what is written at one position is not seen at the others (`HoldsFrom.congr`,
`writeFrom_of_lt`).
-/

namespace RingWindow

variable {α : Type*} {c : ℕ} [NeZero c]

/-- The cells after position `base` carry `xs`, in order. -/
def Holds (cells : Fin c → α) (base : ℕ) (xs : List α) : Prop :=
  ∀ (j : ℕ) (h : j < xs.length), cells (Fin.ofNat c (base + j + 1)) = xs[j]

/-- The `n` cells after position `base`. -/
def window (cells : Fin c → α) (base n : ℕ) : List α :=
  (List.range n).map fun i => cells (Fin.ofNat c (base + i + 1))

@[simp] theorem length_window (cells : Fin c → α) (base n : ℕ) :
    (window cells base n).length = n := by simp [window]

theorem holds_nil (cells : Fin c → α) (base : ℕ) : Holds cells base [] := by
  intro j h
  simp at h

/-- Two positions less than one revolution apart are different cells. -/
theorem ofNat_ne_of_lt {a b : ℕ} (hab : a < b) (hbc : b < a + c) :
    Fin.ofNat c a ≠ Fin.ofNat c b := by
  intro h
  have hmod : a % c = b % c := congrArg Fin.val h
  have hdvd : c ∣ b - a := (Nat.modEq_iff_dvd' hab.le).mp hmod
  have := Nat.le_of_dvd (by omega) hdvd
  omega

/-- **Producing**: writing the next cell extends the window, unless it would lap itself. -/
theorem Holds.push {cells : Fin c → α} {base : ℕ} {xs : List α} (h : Holds cells base xs)
    (hroom : xs.length < c) (x : α) :
    Holds (Function.update cells (Fin.ofNat c (base + xs.length + 1)) x) base (xs ++ [x]) := by
  intro j hj
  rw [List.length_append, List.length_singleton] at hj
  rcases Nat.lt_or_ge j xs.length with hlt | hge
  · have hne : Fin.ofNat c (base + j + 1) ≠ Fin.ofNat c (base + xs.length + 1) :=
      ofNat_ne_of_lt (by omega) (by omega)
    rw [Function.update_of_ne hne, h j hlt, List.getElem_append_left hlt]
  · obtain rfl : j = xs.length := by omega
    rw [Function.update_self]
    simp

/-- **Consuming**: moving the base forward drops the oldest elements. -/
theorem Holds.drop {cells : Fin c → α} {base : ℕ} {xs : List α} (h : Holds cells base xs)
    (n : ℕ) : Holds cells (base + n) (xs.drop n) := by
  intro j hj
  rw [List.length_drop] at hj
  have hcell := h (n + j) (by omega)
  rw [List.getElem_drop, ← hcell]
  congr 2
  omega

/-- The window's elements are the ones the cells hold. -/
theorem Holds.window_eq {cells : Fin c → α} {base : ℕ} {xs : List α} (h : Holds cells base xs)
    {n : ℕ} (hn : n ≤ xs.length) : window cells base n = xs.take n := by
  refine List.ext_getElem (by simp [hn]) fun i h₁ h₂ => ?_
  have hi : i < xs.length := by
    rw [length_window] at h₁
    omega
  simp only [window, List.getElem_map, List.getElem_range, List.getElem_take]
  exact h i hi

/-! ### Stores read from the position itself -/

/-- The cells from position `start` on carry `xs`, in order. -/
def HoldsFrom (cells : Fin c → α) : ℕ → List α → Prop
  | _, [] => True
  | start, x :: xs => cells (Fin.ofNat c start) = x ∧ HoldsFrom cells (start + 1) xs

theorem holdsFrom_append {cells : Fin c → α} {start : ℕ} {xs ys : List α} :
    HoldsFrom cells start (xs ++ ys) ↔
      HoldsFrom cells start xs ∧ HoldsFrom cells (start + xs.length) ys := by
  induction xs generalizing start with
  | nil => exact (and_iff_right trivial).symm
  | cons x xs ih =>
    rw [List.cons_append, HoldsFrom, HoldsFrom, ih, and_assoc, List.length_cons,
      Nat.add_assoc start 1, Nat.add_comm 1]

theorem HoldsFrom.take {cells : Fin c → α} {start : ℕ} {xs : List α} (h : HoldsFrom cells start xs)
    (n : ℕ) : HoldsFrom cells start (xs.take n) := by
  rw [← List.take_append_drop n xs, holdsFrom_append] at h
  exact h.1

/-- **Consuming** the first elements. -/
theorem HoldsFrom.drop {cells : Fin c → α} {start : ℕ} {xs : List α} (h : HoldsFrom cells start xs)
    {n : ℕ} (hn : n ≤ xs.length) : HoldsFrom cells (start + n) (xs.drop n) := by
  rw [← List.take_append_drop n xs, holdsFrom_append, List.length_take, Nat.min_eq_left hn] at h
  exact h.2

/-- Positions that differ by revolutions are the same. -/
theorem HoldsFrom.of_modEq {cells : Fin c → α} {start start' : ℕ} {xs : List α}
    (h : HoldsFrom cells start xs) (heq : start ≡ start' [MOD c]) : HoldsFrom cells start' xs := by
  induction xs generalizing start start' with
  | nil => trivial
  | cons x xs ih =>
    have hcell : Fin.ofNat c start = Fin.ofNat c start' := Fin.ext heq
    exact ⟨hcell ▸ h.1, ih h.2 (heq.add_right 1)⟩

/-- Cells that agree with the others where the elements are. -/
theorem HoldsFrom.congr {cells cells' : Fin c → α} {start : ℕ} {xs : List α}
    (h : HoldsFrom cells start xs) (heq : ∀ q, start ≤ q → q < start + xs.length →
      cells' (Fin.ofNat c q) = cells (Fin.ofNat c q)) : HoldsFrom cells' start xs := by
  induction xs generalizing start with
  | nil => trivial
  | cons x xs ih =>
    rw [List.length_cons] at heq
    refine ⟨(heq start le_rfl (by omega)).trans h.1, ih h.2 fun q hlo hhi => ?_⟩
    exact heq q (by omega) (by omega)

/-- Writing a cell behind the elements, within a revolution. -/
theorem HoldsFrom.update {cells : Fin c → α} {start pos : ℕ} {xs : List α}
    (h : HoldsFrom cells start xs) (hpos : start + xs.length ≤ pos) (hlap : pos < start + c)
    (x : α) : HoldsFrom (Function.update cells (Fin.ofNat c pos) x) start xs := by
  refine h.congr fun q hlo hhi => ?_
  rw [Function.update_of_ne (ofNat_ne_of_lt (by omega) (by omega))]

/-- The `n` cells from position `start` on. -/
def readFrom (cells : Fin c → α) : ℕ → ℕ → List α
  | _, 0 => []
  | start, n + 1 => cells (Fin.ofNat c start) :: readFrom cells (start + 1) n

theorem HoldsFrom.readFrom_eq {cells : Fin c → α} {start : ℕ} {xs : List α}
    (h : HoldsFrom cells start xs) : readFrom cells start xs.length = xs := by
  induction xs generalizing start with
  | nil => rfl
  | cons x xs ih => rw [List.length_cons, readFrom, h.1, ih h.2]

/-- The elements written to the cells from position `start` on. -/
def writeFrom (cells : Fin c → α) : ℕ → List α → (Fin c → α)
  | _, [] => cells
  | start, x :: xs => writeFrom (Function.update cells (Fin.ofNat c start) x) (start + 1) xs

theorem writeFrom_of_modEq (cells : Fin c → α) {start start' : ℕ} (xs : List α)
    (h : start ≡ start' [MOD c]) : writeFrom cells start xs = writeFrom cells start' xs := by
  induction xs generalizing cells start start' with
  | nil => rfl
  | cons x xs ih =>
    have hcell : Fin.ofNat c start = Fin.ofNat c start' := Fin.ext h
    rw [writeFrom, writeFrom, hcell, ih _ (h.add_right 1)]

/-- A cell before those that are written, within a revolution, stays as it is. -/
theorem writeFrom_of_lt {cells : Fin c → α} {start q : ℕ} {xs : List α} (hq : q < start)
    (hlap : start + xs.length ≤ q + c) :
    writeFrom cells start xs (Fin.ofNat c q) = cells (Fin.ofNat c q) := by
  induction xs generalizing cells start with
  | nil => rfl
  | cons x xs ih =>
    rw [List.length_cons] at hlap
    rw [writeFrom, ih (by omega) (by omega),
      Function.update_of_ne (ofNat_ne_of_lt hq (by omega))]

theorem holdsFrom_writeFrom (cells : Fin c → α) {start : ℕ} {xs : List α} (hlap : xs.length ≤ c) :
    HoldsFrom (writeFrom cells start xs) start xs := by
  induction xs generalizing cells start with
  | nil => trivial
  | cons x xs ih =>
    rw [List.length_cons] at hlap
    refine ⟨?_, ih _ (by omega)⟩
    rw [writeFrom, writeFrom_of_lt (by omega) (by omega), Function.update_self]

/-- **Producing** more than one element. -/
theorem HoldsFrom.append {cells : Fin c → α} {start : ℕ} {xs ys : List α}
    (h : HoldsFrom cells start xs) (hlap : xs.length + ys.length ≤ c) :
    HoldsFrom (writeFrom cells (start + xs.length) ys) start (xs ++ ys) := by
  refine holdsFrom_append.mpr ⟨h.congr fun q hlo hhi => ?_, holdsFrom_writeFrom _ (by omega)⟩
  exact writeFrom_of_lt hhi (by omega)

end RingWindow
