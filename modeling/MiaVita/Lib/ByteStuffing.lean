import MiaVita.Lib.Framing

/-!
# Frames with stuffed marks

A frame is a mark `dle`, a first element, data in which every `dle` is doubled, and the marks `dle`
and `etx`. The end of a frame is the first `etx` behind an odd number of consecutive `dle`; `scan`
looks for it with a count of them.

`scan_frame` says that the end found is the end of the frame, whatever follows it. `framer` gives
the frames to a reader.
-/

namespace ByteStuffing

variable {α : Type*} [DecidableEq α] (dle etx : α)

/-- Data with its marks doubled. -/
def stuff (xs : List α) : List α := xs.flatMap fun x => if x = dle then [dle, dle] else [x]

/-- A frame. -/
def frame (x : α) (xs : List α) : List α := dle :: x :: (stuff dle xs ++ [dle, etx])

/-- The number of elements up to the end of a frame, from a place with `count` marks before it. -/
def scan (count : ℕ) : List α → Option ℕ
  | [] => none
  | x :: xs =>
    if x = dle then (scan (count + 1) xs).map (· + 1)
    else if x = etx ∧ count % 2 = 1 then some 1
    else (scan 0 xs).map (· + 1)

variable {dle etx} {x : α} {xs ys : List α} {count n : ℕ}

@[simp] theorem stuff_nil : stuff dle [] = [] := rfl

theorem stuff_append (xs ys : List α) : stuff dle (xs ++ ys) = stuff dle xs ++ stuff dle ys :=
  List.flatMap_append

theorem stuff_singleton_self : stuff dle [dle] = [dle, dle] := by simp [stuff]

theorem stuff_singleton_of_ne (h : x ≠ dle) : stuff dle [x] = [x] := by simp [stuff, h]

theorem length_le_length_stuff (dle : α) (xs : List α) : xs.length ≤ (stuff dle xs).length := by
  induction xs with
  | nil => exact le_rfl
  | cons x xs ih =>
    rw [← List.singleton_append, stuff_append, List.length_append, List.length_append]
    have hone : 1 ≤ (stuff dle [x]).length := by
      rw [stuff, List.flatMap_singleton]
      split_ifs <;> simp
    exact Nat.add_le_add hone ih

theorem length_frame (x : α) (xs : List α) :
    (frame dle etx x xs).length = (stuff dle xs).length + 4 := by
  simp [frame]

private theorem scan_dle (xs : List α) :
    scan dle etx count (dle :: xs) = (scan dle etx (count + 1) xs).map (· + 1) := by
  rw [scan, if_pos rfl]

private theorem scan_pos (h : scan dle etx count xs = some n) : 0 < n := by
  cases xs with
  | nil => cases h
  | cons x xs =>
    rw [scan] at h
    split_ifs at h
    · obtain ⟨k, -, rfl⟩ := Option.map_eq_some_iff.mp h
      exact Nat.succ_pos k
    · cases h
      exact Nat.one_pos
    · obtain ⟨k, -, rfl⟩ := Option.map_eq_some_iff.mp h
      exact Nat.succ_pos k

/-- An end that is found is found in any continuation. -/
theorem scan_append (h : scan dle etx count xs = some n) (ys : List α) :
    n ≤ xs.length ∧ scan dle etx count (xs ++ ys) = some n := by
  induction xs generalizing count n with
  | nil => cases h
  | cons x xs ih =>
    -- in both recursive branches the end is one further than in the tail
    have hnext : ∀ count', (scan dle etx count' xs).map (· + 1) = some n →
        n ≤ (x :: xs).length ∧ (scan dle etx count' (xs ++ ys)).map (· + 1) = some n := by
      intro count' h'
      obtain ⟨k, hk, rfl⟩ := Option.map_eq_some_iff.mp h'
      obtain ⟨hle, hscan⟩ := ih hk
      exact ⟨Nat.succ_le_succ hle, by rw [hscan, Option.map_some]⟩
    rw [List.cons_append, scan]
    rw [scan] at h
    split_ifs at h ⊢ with hdle hetx
    · exact hnext _ h
    · cases h
      exact ⟨Nat.succ_le_succ (Nat.zero_le _), rfl⟩
    · exact hnext _ h

/-- Stuffed data has no end of a frame in it, and the two marks behind it are one. -/
theorem scan_stuff (hne : etx ≠ dle) (xs ys : List α) (hcount : count % 2 = 0) :
    scan dle etx count (stuff dle xs ++ dle :: etx :: ys) = some ((stuff dle xs).length + 2) := by
  induction xs generalizing count with
  | nil =>
    have hodd : (count + 1) % 2 = 1 := by omega
    rw [stuff_nil, List.nil_append, scan_dle, scan, if_neg hne, if_pos ⟨rfl, hodd⟩]
    rfl
  | cons x xs ih =>
    rw [← List.singleton_append, stuff_append, List.append_assoc, List.length_append]
    by_cases hx : x = dle
    · rw [hx, stuff_singleton_self, List.cons_append, List.singleton_append, scan_dle, scan_dle,
        ih (by omega), Option.map_some, Option.map_some]
      simp only [List.length_cons, List.length_nil]
      congr 1
      omega
    · have hnot : ¬ (x = etx ∧ count % 2 = 1) := by omega
      rw [stuff_singleton_of_ne hx, List.singleton_append, scan, if_neg hx, if_neg hnot,
        ih (by omega), Option.map_some]
      simp only [List.length_cons, List.length_nil]
      congr 1
      omega

/-- **The end of a frame** is found where the frame ends. -/
theorem scan_frame (hne : etx ≠ dle) (hdle : x ≠ dle) (hetx : x ≠ etx) (xs ys : List α) :
    scan dle etx 0 (frame dle etx x xs ++ ys) = some (frame dle etx x xs).length := by
  have hfirst : ¬ (x = etx ∧ (0 + 1) % 2 = 1) := fun h => hetx h.1
  rw [length_frame, frame, List.cons_append, List.cons_append, List.append_assoc, scan_dle, scan,
    if_neg hdle, if_neg hfirst]
  simp only [List.cons_append, List.nil_append]
  rw [scan_stuff hne xs ys rfl]
  rfl

/-- An end that is found in a continuation is found without it, if it is there. -/
theorem scan_of_append (h : scan dle etx count (xs ++ ys) = some n) (hn : n ≤ xs.length) :
    scan dle etx count xs = some n := by
  induction xs generalizing count n with
  | nil =>
    obtain rfl : n = 0 := Nat.le_zero.mp hn
    exact absurd (scan_pos h) (Nat.lt_irrefl 0)
  | cons x xs ih =>
    have hnext : ∀ count', (scan dle etx count' (xs ++ ys)).map (· + 1) = some n →
        (scan dle etx count' xs).map (· + 1) = some n := by
      intro count' h'
      obtain ⟨k, hk, rfl⟩ := Option.map_eq_some_iff.mp h'
      rw [ih hk (Nat.le_of_succ_le_succ hn), Option.map_some]
    rw [List.cons_append, scan] at h
    rw [scan]
    split_ifs at h ⊢ with hdle hetx
    · exact hnext _ h
    · exact h
    · exact hnext _ h

variable (dle etx) in
/-- The frames as they are found in a stream, from four elements on. -/
def framer : Framer α where
  mark := dle
  minimum := 4
  minimum_pos := by decide
  scan := scan dle etx 0
  scan_pos := scan_pos
  scan_append := scan_append
  scan_of_append := scan_of_append

end ByteStuffing
