import Mathlib.Data.List.Chain
import Mathlib.Data.Rat.Defs
import MiaVita.Lib.Exceptional
import MiaVita.Lib.Run

/-!
# The history of the live plot (`gnuplot`, `s.py`)

The plot polls a server for the latest samples of each node. The batches overlap, so that
`clean_values` takes over only what is newer than the last sample of the node, fills the gap before
it and smooths the battery voltage. A sample that looks wrong is replaced by what is around it; this
test may raise an `IndexError`, which the main loop catches, and the next poll goes on with what the
failed one left.

The arithmetic of the floating point numbers does not matter, so any will do (`Arithmetic`); nor
does the size of the integers of `xrange` (`maxint`). There is enough memory for the history.

A row is taken over completely or not at all, since everything that can fail comes before the first
change (`after_cleanRow`). So the sequence numbers of a node are consecutive after every poll,
failed or not, and after the history has been cut (`history_consecutive`).
-/

namespace MiaVita.Gnuplot

open Exceptional Fallible

/-! ### The source -/

/-- The keys of the dictionaries, in the order of `keys()`. -/
inductive Node where
  | one
  | two
  | three
  deriving DecidableEq

/-- `keys()`. -/
def Node.keys : List Node := [.one, .two, .three]

/-- The exceptions that can be raised. -/
inductive PyException where
  | indexError
  | overflowError

/-- The floating point numbers, with the constants of the program. -/
structure Arithmetic (F : Type) where
  const : ℚ → F
  abs : F → F
  add : F → F → F
  sub : F → F → F
  mul : F → F → F
  half : F → F
  lt : F → F → Bool

/-- Four channels. -/
structure Channels (F : Type) where
  c0 : F
  c1 : F
  c2 : F
  c3 : F

/-- A row of a batch: `[c1, c2, c3, c4, seq]`. -/
structure Row (F : Type) extends Channels F where
  seq : ℤ

/-- A cell of the history. `average_neighbours` may return a row where a number is meant. -/
inductive Cell (F : Type) where
  | number (x : F)
  | row (r : Row F)

/-- A row of the history. -/
structure PlotRow (F : Type) where
  c0 : Cell F
  c1 : Cell F
  c2 : Cell F
  c3 : F
  seq : ℤ

/-- `previous`, `last_seq` and `means`. -/
structure Plot (F : Type) where
  previous : Node → List (PlotRow F)
  lastSeq : Node → ℤ
  means : Node → Channels F

/-- `l[i]`, where a negative index counts from the end. -/
def pyGet {α : Type} (l : List α) (i : ℤ) : Except PyException α :=
  let j := if i < 0 then i + l.length else i
  if j < 0 then .error .indexError
  else
    match l[j.toNat]? with
    | some a => .ok a
    | none => .error .indexError

/-- `range(lo, hi)`. -/
def pyRange (lo hi : ℤ) : List ℤ := (List.range (hi - lo).toNat).map fun (j : ℕ) => lo + j

/-- `xrange(lo, hi)`, for integers that fit in a `long`. -/
def xrange (maxint lo hi : ℤ) : Except PyException (List ℤ) :=
  if -maxint - 1 ≤ lo ∧ lo ≤ maxint ∧ -maxint - 1 ≤ hi ∧ hi ≤ maxint then .ok (pyRange lo hi)
  else .error .overflowError

section Source

variable {F : Type} (A : Arithmetic F)

/-- `min(x, y)`. -/
def pyMin (x y : F) : F := if A.lt y x then y else x

/-- `abs(l[i][3] - l[j][3])`. -/
def difference (l : List (Row F)) (i j : ℤ) : Except PyException F := do
  let a ← pyGet l i
  let b ← pyGet l j
  return A.abs (A.sub a.c3 b.c3)

/-- `to_compare`. -/
def toCompare (index : ℤ) (l : List (Row F)) : List ℤ :=
  let next := pyRange (index + 1) (min (index + 1 + 10) l.length)
  if next.length < 10 then next ++ pyRange (max 0 (index - (10 - next.length))) index else next

/-- `neighbour_diff`. -/
def neighbourDiff (index : ℤ) (l : List (Row F)) : Except PyException F :=
  (toCompare index l).foldlM
    (fun diff (i : ℤ) =>
      if i + 1 = l.length then .ok diff
      else do
        let d ← difference A l i (i + 1)
        return A.add diff d)
    (A.const 0)

/-- The smaller one of two differences. -/
def smallerDifference (l : List (Row F)) (index i j : ℤ) : Except PyException F := do
  let x ← difference A l index i
  let y ← difference A l index j
  return pyMin A x y

/-- `point_dif`. -/
def pointDif (index : ℤ) (l : List (Row F)) : Except PyException F :=
  if index = 0 then smallerDifference A l index (index + 1) (index + 2)
  else if index + 1 = l.length then smallerDifference A l index (index - 1) (index - 2)
  else smallerDifference A l index (index + 1) (index - 1)

/-- `is_outlier`. -/
def isOutlier (index : ℤ) (l : List (Row F)) : Except PyException Bool :=
  if l.isEmpty then .ok false
  else do
    let p ← pyGet l index
    if A.lt (A.abs p.c3) (A.const 11500) then return true
    else if A.lt (A.const 2500) (A.abs p.c0) then return true
    else if A.lt (A.const 2500) (A.abs p.c1) then return true
    else if A.lt (A.const 2500) (A.abs p.c2) then return true
    else do
      let diff ← neighbourDiff A index l
      let point ← pointDif A index l
      return A.lt (A.mul diff (A.const (3 / 2))) point

/-- The mean of a channel in two rows. -/
def meanOf (l : List (Row F)) (pos : Row F → F) (i j : ℤ) : Except PyException (Cell F) := do
  let a ← pyGet l i
  let b ← pyGet l j
  return .number (A.half (A.add (pos a) (pos b)))

/-- `average_neighbours`. -/
def averageNeighbours (i : ℤ) (l : List (Row F)) (pos : Row F → F) :
    Except PyException (Cell F) :=
  if l.length < 3 then do
    let row ← pyGet l i
    return .row row
  else if i = 0 then meanOf A l pos (i + 1) (i + 2)
  else if i + 1 = l.length then meanOf A l pos (i - 1) (i - 2)
  else meanOf A l pos (i - 1) (i + 1)

/-- `n[:]`. -/
def Row.clone (n : Row F) : PlotRow F :=
  ⟨.number n.c0, .number n.c1, .number n.c2, n.c3, n.seq⟩

/-- `clone`, after the test. -/
def cleanClone (means : Channels F) (l : List (Row F)) (i : ℕ) (n : Row F) :
    Except PyException (PlotRow F) := do
  let outlier ← isOutlier A i l
  if outlier then do
    let c0 ← averageNeighbours A i l fun r => r.c0
    let c1 ← averageNeighbours A i l fun r => r.c1
    let c2 ← averageNeighbours A i l fun r => r.c2
    return { n.clone with c0, c1, c2, c3 := means.c3 }
  else return n.clone

/-- `previous[k].append(row)`. -/
def Plot.append (k : Node) (row : PlotRow F) (s : Plot F) : Plot F :=
  { s with previous := Function.update s.previous k (s.previous k ++ [row]) }

/-- The row that fills a gap. -/
def Plot.filler (s : Plot F) (k : Node) (x : ℤ) : PlotRow F :=
  ⟨.number (s.means k).c0, .number (s.means k).c1, .number (s.means k).c2, (s.means k).c3, x⟩

/-- `means[k][3] = means[k][3] * alpha + clone[3] * (1 - alpha)`. -/
def Plot.smooth (k : Node) (clone : PlotRow F) (s : Plot F) : Plot F :=
  { s with
    means := Function.update s.means k
      { s.means k with
        c3 := A.add (A.mul (s.means k).c3 (A.const (4 / 5)))
          (A.mul clone.c3 (A.sub (A.const 1) (A.const (4 / 5)))) } }

/-- `last_seq[k] = seq`. -/
def Plot.setLastSeq (k : Node) (seq : ℤ) (s : Plot F) : Plot F :=
  { s with lastSeq := Function.update s.lastSeq k seq }

/-- The body of the loop over the rows of a node. -/
def cleanRow (maxint : ℤ) (k : Node) (l : List (Row F)) (i : ℕ) (n : Row F) :
    EStateM PyException (Plot F) PUnit := do
  let s ← get
  let clone ← attempt (cleanClone A (s.means k) l i n)
  if n.seq ≤ s.lastSeq k then return ⟨⟩
  else do
    let xs ← attempt (xrange maxint (s.lastSeq k + 1) n.seq)
    xs.forM fun x => modify fun s => s.append k (s.filler k x)
    modify (Plot.smooth A k clone)
    modify (Plot.setLastSeq k n.seq)
    modify fun s => s.append k { clone with c3 := (s.means k).c3 }

/-- The loop over the rows of a node. -/
def cleanNode (maxint : ℤ) (k : Node) (l : List (Row F)) : EStateM PyException (Plot F) PUnit :=
  l.zipIdx.forM fun p => cleanRow A maxint k l p.2 p.1

/-- `clean_values`. -/
def cleanValues (maxint : ℤ) (new : Node → List (Row F)) : EStateM PyException (Plot F) PUnit :=
  Node.keys.forM fun k => cleanNode A maxint k ((new k).mergeSort fun a b => a.seq ≤ b.seq)

/-- `limit_size`. -/
def limitSize (maxi : ℕ) (s : Plot F) : Plot F :=
  { s with
    previous := fun k =>
      if (s.previous k).length ≥ maxi then (s.previous k).drop ((s.previous k).length - maxi)
      else s.previous k }

/-! The main loop polls, cuts the history and draws it; an exception takes it back to the next
poll. -/

/-- What happens to the history. -/
inductive Event (F : Type) where
  | poll (new : Node → List (Row F))
  | limitSize (maxi : ℕ)

/-- The start of the program. -/
def Plot.start : Plot F :=
  ⟨fun _ => [], fun _ => 0, fun _ => ⟨A.const 0, A.const 0, A.const 0, A.const 0⟩⟩

/-- One event. -/
def plotStep (maxint : ℤ) (s : Plot F) : Event F → Plot F
  | .poll new => after (cleanValues A maxint new) s
  | .limitSize maxi => limitSize maxi s

end Source

/-! ### One row -/

variable {F : Type} {A : Arithmetic F}

/-- The sequence numbers in the history of a node. -/
def Plot.seqs (s : Plot F) (k : Node) : List ℤ := (s.previous k).map PlotRow.seq

private theorem cleanClone_seq {means : Channels F} {l : List (Row F)} {i : ℕ} {n : Row F}
    {clone : PlotRow F} (h : cleanClone A means l i n = .ok clone) : clone.seq = n.seq := by
  obtain ⟨outlier, -, h⟩ := bind_eq_ok.mp h
  cases outlier with
  | true =>
    obtain ⟨c0, -, h⟩ := bind_eq_ok.mp h
    obtain ⟨c1, -, h⟩ := bind_eq_ok.mp h
    obtain ⟨c2, -, h⟩ := bind_eq_ok.mp h
    cases h
    rfl
  | false =>
    cases h
    rfl

@[simp] theorem seqs_append (k : Node) (row : PlotRow F) (s : Plot F) :
    (s.append k row).seqs = Function.update s.seqs k (s.seqs k ++ [row.seq]) := by
  funext j
  by_cases hj : j = k
  · subst hj
    simp [Plot.seqs, Plot.append]
  · simp [Plot.seqs, Plot.append, hj]

@[simp] theorem seqs_smooth (k : Node) (clone : PlotRow F) (s : Plot F) :
    (s.smooth A k clone).seqs = s.seqs := rfl

@[simp] theorem seqs_setLastSeq (k : Node) (seq : ℤ) (s : Plot F) :
    (s.setLastSeq k seq).seqs = s.seqs := rfl

/-- The rows that fill a gap. -/
private theorem foldl_filler (k : Node) (xs : List ℤ) (s : Plot F) :
    (xs.foldl (fun s x => s.append k (s.filler k x)) s).lastSeq = s.lastSeq ∧
      (xs.foldl (fun s x => s.append k (s.filler k x)) s).seqs =
        Function.update s.seqs k (s.seqs k ++ xs) := by
  induction xs generalizing s with
  | nil =>
    refine ⟨rfl, ?_⟩
    rw [List.append_nil, Function.update_eq_self]
    rfl
  | cons x xs ih =>
    obtain ⟨hlast, hseqs⟩ := ih (s.append k (s.filler k x))
    refine ⟨hlast, hseqs.trans ?_⟩
    rw [seqs_append, Function.update_self, Function.update_idem, List.append_assoc]
    rfl

/-- The history takes over a row of a node, with the rows that are missing before it. -/
structure Plot.Takes (s : Plot F) (k : Node) (seq : ℤ) (s' : Plot F) : Prop where
  newer : s.lastSeq k < seq
  lastSeq_eq : s'.lastSeq = Function.update s.lastSeq k seq
  seqs_eq : s'.seqs =
    Function.update s.seqs k (s.seqs k ++ (pyRange (s.lastSeq k + 1) seq ++ [seq]))

/-- **A row is taken over completely or not at all**, whether the test of the row fails or not. -/
theorem after_cleanRow (maxint : ℤ) (k : Node) (l : List (Row F)) (i : ℕ) (n : Row F)
    (s : Plot F) :
    after (cleanRow A maxint k l i n) s = s ∨
      s.Takes k n.seq (after (cleanRow A maxint k l i n) s) := by
  rw [cleanRow, after_get_bind]
  cases hclone : cleanClone A (s.means k) l i n with
  | error e => exact Or.inl (after_error_bind e _ s)
  | ok clone =>
    have hseq := cleanClone_seq hclone
    rw [after_ok_bind]
    split_ifs with hold
    · exact Or.inl rfl
    · cases hxs : xrange maxint (s.lastSeq k + 1) n.seq with
      | error e => exact Or.inl (after_error_bind e _ s)
      | ok xs =>
        obtain rfl : xs = pyRange (s.lastSeq k + 1) n.seq := by
          rw [xrange] at hxs
          split_ifs at hxs
          exact (Except.ok.inj hxs).symm
        obtain ⟨hlast, hseqs⟩ := foldl_filler k (pyRange (s.lastSeq k + 1) n.seq) s
        rw [after_ok_bind, after_forM_modify_bind, after_modify_bind, after_modify_bind]
        refine Or.inr ⟨Int.not_le.mp hold, ?_, ?_⟩
        · exact congrArg (Function.update · k n.seq) hlast
        · refine (seqs_append k _ _).trans ?_
          rw [seqs_setLastSeq, seqs_smooth, hseqs, Function.update_self, Function.update_idem,
            List.append_assoc]
          exact congrArg (fun x => Function.update s.seqs k (s.seqs k ++ (_ ++ [x]))) hseq

/-! ### The history -/

/-- **No gaps and no repetitions**: the sequence numbers of each node are consecutive, and the last
one is the one to go on from. -/
def Plot.Gapless (s : Plot F) : Prop :=
  ∀ k, (s.seqs k).IsChain (fun x y => y = x + 1) ∧ ∀ x ∈ (s.seqs k).getLast?, x = s.lastSeq k

/-- The history stays without gaps, and no node goes back. -/
def Plot.Leads (s s' : Plot F) : Prop :=
  (s.Gapless → s'.Gapless) ∧ ∀ k, s.lastSeq k ≤ s'.lastSeq k

private theorem Plot.Leads.refl (s : Plot F) : s.Leads s := ⟨id, fun _ => Int.le_refl _⟩

private theorem Plot.Leads.trans (s t u : Plot F) (h : s.Leads t) (h' : t.Leads u) : s.Leads u :=
  ⟨h'.1 ∘ h.1, fun k => Int.le_trans (h.2 k) (h'.2 k)⟩

private theorem isChain_pyRange (lo hi : ℤ) : (pyRange lo hi).IsChain fun x y => y = x + 1 := by
  rw [pyRange, List.isChain_map, List.isChain_iff_getElem]
  intro i hi
  simp only [List.getElem_range]
  omega

/-- A range and its end are a range. -/
private theorem pyRange_concat {lo hi : ℤ} (h : lo ≤ hi) :
    pyRange lo hi ++ [hi] = pyRange lo (hi + 1) := by
  have hlen : (hi + 1 - lo).toNat = (hi - lo).toNat + 1 := by omega
  rw [pyRange, pyRange, hlen, List.range_succ, List.map_append, List.map_singleton,
    show lo + ((hi - lo).toNat : ℤ) = hi by omega]

private theorem head?_pyRange {lo hi x : ℤ} (h : x ∈ (pyRange lo hi).head?) : x = lo := by
  rw [pyRange, List.head?_map, List.head?_range] at h
  split_ifs at h
  · cases h
  · cases h
    exact Int.add_zero lo

private theorem Plot.Takes.leads {s s' : Plot F} {k : Node} {seq : ℤ} (h : s.Takes k seq s') :
    s.Leads s' := by
  have hnewer := h.newer
  refine ⟨fun hs j => ?_, fun j => ?_⟩
  · rw [h.seqs_eq, h.lastSeq_eq]
    by_cases hj : j = k
    · subst hj
      obtain ⟨hchain, hlast⟩ := hs j
      rw [Function.update_self, Function.update_self]
      constructor
      · rw [pyRange_concat (by omega)]
        refine List.isChain_append.mpr ⟨hchain, isChain_pyRange _ _, fun x hx y hy => ?_⟩
        rw [hlast x hx, head?_pyRange hy]
      · intro x hx
        rw [← List.append_assoc, List.getLast?_concat] at hx
        exact (Option.some.inj hx).symm
    · rw [Function.update_of_ne hj, Function.update_of_ne hj]
      exact hs j
  · rw [h.lastSeq_eq]
    by_cases hj : j = k
    · subst hj
      rw [Function.update_self]
      exact Int.le_of_lt hnewer
    · exact Int.le_of_eq (Function.update_of_ne hj _ _).symm

/-- **A poll**, failed or not. -/
theorem along_cleanValues (maxint : ℤ) (new : Node → List (Row F)) :
    Along Plot.Leads (cleanValues A maxint new) := by
  refine Along.forM Plot.Leads.refl Plot.Leads.trans fun k _ => ?_
  refine Along.forM Plot.Leads.refl Plot.Leads.trans fun p _ s => ?_
  rcases after_cleanRow maxint k _ p.2 p.1 s with h | h
  · rw [h]
    exact Plot.Leads.refl s
  · exact h.leads

private theorem leads_limitSize (maxi : ℕ) (s : Plot F) : s.Leads (limitSize maxi s) := by
  refine ⟨fun hs k => ?_, fun _ => Int.le_refl _⟩
  obtain ⟨hchain, hlast⟩ := hs k
  by_cases hn : (s.previous k).length ≥ maxi
  · have hseqs : (limitSize maxi s).seqs k =
        (s.seqs k).drop ((s.previous k).length - maxi) := by
      rw [Plot.seqs, limitSize, Plot.seqs, ← List.map_drop]
      exact congrArg (List.map PlotRow.seq) (if_pos hn)
    rw [hseqs]
    refine ⟨hchain.drop _, fun x hx => hlast x ?_⟩
    rw [List.getLast?_drop] at hx
    split_ifs at hx
    · cases hx
    · exact hx
  · have hseqs : (limitSize maxi s).seqs k = s.seqs k :=
      congrArg (List.map PlotRow.seq) (if_neg hn)
    rw [hseqs]
    exact ⟨hchain, hlast⟩

private theorem leads_plotStep (maxint : ℤ) (s : Plot F) (e : Event F) :
    s.Leads (plotStep A maxint s e) := by
  cases e with
  | poll new => exact along_cleanValues maxint new s
  | limitSize maxi => exact leads_limitSize maxi s

private theorem leads_run (maxint : ℤ) (s : Plot F) (events : List (Event F)) :
    s.Leads (Run.exec (plotStep A maxint) s events) :=
  Run.always (fun t e h => h.trans _ _ _ (leads_plotStep maxint t e)) (Plot.Leads.refl s) events

private theorem gapless_start : (Plot.start A).Gapless := fun _ =>
  ⟨List.IsChain.nil, fun _ h => nomatch h⟩

/-- **The history of the plot has no gaps and no repetitions**, after any polls and cuts: the
sequence numbers of each node are consecutive, the last one is `last_seq`, and `last_seq` never goes
back. -/
theorem history_consecutive (A : Arithmetic F) (maxint : ℤ) (events later : List (Event F))
    (k : Node) :
    ((Run.exec (plotStep A maxint) (.start A) events).seqs k).IsChain (fun x y => y = x + 1) ∧
      ((Run.exec (plotStep A maxint) (.start A) events).previous k ≠ [] →
        ((Run.exec (plotStep A maxint) (.start A) events).seqs k).getLast? =
          some ((Run.exec (plotStep A maxint) (.start A) events).lastSeq k)) ∧
      (Run.exec (plotStep A maxint) (.start A) events).lastSeq k ≤
        (Run.exec (plotStep A maxint) (.start A) (events ++ later)).lastSeq k := by
  obtain ⟨hchain, hlast⟩ := (leads_run maxint (.start A) events).1 gapless_start k
  refine ⟨hchain, fun hne => ?_, ?_⟩
  · cases h : ((Run.exec (plotStep A maxint) (.start A) events).seqs k).getLast? with
    | none => exact absurd (List.map_eq_nil_iff.mp (List.getLast?_eq_none_iff.mp h)) hne
    | some x => rw [hlast x h]
  · rw [Run.exec_append]
    exact (leads_run maxint _ later).2 k

end MiaVita.Gnuplot
