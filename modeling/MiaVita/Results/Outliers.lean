import MiaVita.Results.SlidingWindow

/-!
# Outliers among the samples (`results/resultsReader`, `App.java`)

Before the samples are written out, `validSampleList` goes through them and collects those that
stand out: the sums of the ten values before and of the ten behind are both less than twice the
value itself. For this a `SlidingWindow` is moved over the list, with a buffer on each side of a
middle and the sum of each buffer kept up to date.

The window needs twenty-one samples to be full, and the eleventh sample is in its middle from the
moment it comes. The question whether the middle is an outlier is asked after every sample, also
while the buffer behind the middle is still being filled. `scan_outlierList` gives the list that
results as what is found over all prefixes of the samples; it does not depend on what the samples
and the window are, so that `validSampleList` is stated for any of them (`Windowed`). The first
windows contribute to it
whatever the eleventh sample looks like against the buffer so far, and since that buffer is empty at
first, the list is the right one exactly if this sample does not stand out against the ten before it
(`outliers_exact_iff`).
-/

namespace MiaVita.Results

open Window (centre centre_of_le)

/-! ### The scan -/

section Scan

variable {α ω : Type}

/-- What `validSampleList` uses of its samples and of its window. -/
structure Windowed (α ω : Type) where
  ts : α → Int64
  new : ω
  add : ω → α → ω
  isMiddleOutlier : ω → Bool
  getMiddle : ω → Option α

/-- `Sample.equals`. -/
def Windowed.equals (W : Windowed α ω) (s other : α) : Bool := W.ts s == W.ts other

/-- The local variables of `validSampleList` and the two counters. -/
structure Scan (α ω : Type) where
  lastSampleTime : Int64
  valid : Bool
  first : Bool
  window : ω
  outlierList : List α
  numberGaps : ℕ
  numberOverlaps : ℕ

/-- The body of the loop. `late` is the comparison of a time difference with the sampling interval
and the margin of error, in `float`. -/
def scanStep (W : Windowed α ω) (late : Int64 → Bool) (st : Scan α ω) (s : α) : Scan α ω :=
  let delta := W.ts s - st.lastSampleTime
  let gap := late delta && !st.first
  let repeated := W.ts s == st.lastSampleTime && !st.first
  let window := W.add st.window s
  { lastSampleTime := W.ts s
    valid := st.valid && !gap && !repeated
    first := false
    window
    outlierList := st.outlierList ++
      if W.isMiddleOutlier window then (W.getMiddle window).toList else []
    numberGaps := st.numberGaps + if gap then 1 else 0
    numberOverlaps := st.numberOverlaps + if repeated then 1 else 0 }

/-- What `validSampleList` returns, and the lists and counters it changes. -/
structure Validated (α : Type) where
  valid : Bool
  sampleList : List α
  outlierList : List α
  numberGaps : ℕ
  numberOverlaps : ℕ

/-- The variables before the loop. -/
def initScan (W : Windowed α ω) (lastSampleTime : Int64) (outlierList : List α)
    (numberGaps numberOverlaps : ℕ) : Scan α ω :=
  ⟨lastSampleTime, true, true, W.new, outlierList, numberGaps, numberOverlaps⟩

/-- `validSampleList`. Two samples are equal for `removeAll` if their times are. -/
def validSampleList (W : Windowed α ω) (late : Int64 → Bool) (sampleList outlierList : List α)
    (numberGaps numberOverlaps : ℕ) : Except JavaException (Validated α) :=
  match sampleList with
  | [] => .error .indexOutOfBounds
  | s :: _ =>
    let st := sampleList.foldl (scanStep W late)
      (initScan W (W.ts s) outlierList numberGaps numberOverlaps)
    let kept := sampleList.filter fun s => !st.outlierList.any fun out => W.equals out s
    .ok ⟨st.valid, kept, st.outlierList, st.numberGaps, st.numberOverlaps⟩

/-- The window after some samples. -/
def Windowed.moved (W : Windowed α ω) (samples : List α) : ω := samples.foldl W.add W.new

/-- The sample that is put into the list of outliers when these samples have come, if any. -/
def Windowed.found (W : Windowed α ω) (samples : List α) : Option α :=
  if W.isMiddleOutlier (W.moved samples) then W.getMiddle (W.moved samples) else none

variable (W : Windowed α ω) (late : Int64 → Bool)

/-- The window of the scan has gone over the samples. -/
private theorem scan_window (st : Scan α ω) (samples : List α) :
    (samples.foldl (scanStep W late) st).window = samples.foldl W.add st.window := by
  induction samples generalizing st with
  | nil => rfl
  | cons s samples ih => exact ih (scanStep W late st s)

/-- **The list of outliers** gets what is found over each prefix of the samples. -/
theorem scan_outlierList (t : Int64) (out : List α) (gaps overlaps : ℕ) (samples : List α) :
    (samples.foldl (scanStep W late) (initScan W t out gaps overlaps)).outlierList =
      out ++ (List.range samples.length).filterMap fun k => W.found (samples.take (k + 1)) := by
  induction samples using List.reverseRecOn with
  | nil => exact (List.append_nil out).symm
  | append_singleton samples s ih =>
    have hwindow : W.add (samples.foldl (scanStep W late)
        (initScan W t out gaps overlaps)).window s = W.moved (samples ++ [s]) := by
      rw [scan_window, Windowed.moved, List.foldl_append]
      rfl
    rw [List.foldl_append, List.foldl_cons, List.foldl_nil, scanStep]
    dsimp only
    rw [hwindow, ih, List.length_append, List.length_singleton, List.range_succ,
      List.filterMap_append, List.append_assoc]
    congr 2
    · refine List.filterMap_congr fun k hk => ?_
      rw [List.take_append_of_le_length (List.mem_range.mp hk)]
    · rw [List.filterMap_cons, List.filterMap_nil, List.take_of_length_le (by simp),
        Windowed.found]
      split_ifs with hout
      · cases W.getMiddle (W.moved (samples ++ [s])) <;> rfl
      · rfl

end Scan

/-- The samples and the window of the reader. -/
def reader : Windowed Sample SlidingWindow where
  ts := Sample.ts
  new := .new 10
  add := SlidingWindow.add
  isMiddleOutlier := SlidingWindow.isMiddleOutlier
  getMiddle := SlidingWindow.getMiddle

/-- The list of outliers after the call in `main`, which hands over an empty one. Where there is no
sample, nothing is added. -/
def outliersFound (late : Int64 → Bool) (sampleList : List Sample) : List Sample :=
  match validSampleList reader late sampleList [] 0 0 with
  | .ok validated => validated.outlierList
  | .error _ => []

/-! ### What an outlier is -/

/-- **Standing out**: both sums are less than twice the value. -/
def StandsOut (before : List Sample) (middle : Sample) (after : List Sample) : Prop :=
  absSum before < 2 * middle.magnitude ∧ absSum after < 2 * middle.magnitude

instance (before : List Sample) (middle : Sample) (after : List Sample) :
    Decidable (StandsOut before middle after) := inferInstanceAs (Decidable (_ ∧ _))

/-- The sample at position `i`, if it stands out between the `w` before and the `w` behind it. -/
def outlierAt (w : ℕ) (samples : List Sample) (i : ℕ) : Option Sample :=
  samples[i]?.filter fun middle =>
    StandsOut ((samples.take i).drop (i - w)) middle ((samples.drop (i + 1)).take w)

/-- **The outliers**, of the positions that have `w` samples before and `w` behind them. -/
def outliers (w : ℕ) (samples : List Sample) : List Sample :=
  (List.range (samples.length - 2 * w)).filterMap fun k => outlierAt w samples (w + k)

/-! ### The verdicts -/

/-- What the window says after some samples: the middle, if it stands out between the buffers. -/
def verdict (w : ℕ) (samples : List Sample) : Option Sample :=
  samples[centre w samples.length]?.filter fun middle =>
    StandsOut ((samples.take (centre w samples.length)).drop (centre w samples.length - w)) middle
      (samples.drop (centre w samples.length + 1))

section Verdict

variable {w : ℕ} {samples : List Sample}

/-- A comparison of the reader, with an exact sum. -/
private theorem floatLt_twice {n : ℕ} {middle : Sample} (h : middle.Small) :
    floatLt (some (.finite n)) (some middle.v.abs.twice) = decide (n < 2 * middle.magnitude) := by
  rw [h.twice_eq, floatLt]
  exact decide_eq_decide.mpr Nat.cast_lt

private theorem SlidingWindow.isMiddleOutlier_eq {win : SlidingWindow} {before after : List Sample}
    {middle : Sample} (hbefore : win.before.getSum = some (.finite (absSum before)))
    (hafter : win.after.getSum = some (.finite (absSum after)))
    (hmiddle : win.middle = some middle) (hsmall : middle.Small) :
    win.isMiddleOutlier = decide (StandsOut before middle after) := by
  rw [SlidingWindow.isMiddleOutlier, hmiddle]
  dsimp only
  rw [hbefore, hafter, floatLt_twice hsmall, floatLt_twice hsmall]
  exact (Bool.decide_and _ _).symm

/-- **What is found** over small samples is what stands out. -/
theorem found_reader (hsamples : ∀ s ∈ samples, s.Small) :
    reader.found samples = verdict 10 samples := by
  obtain ⟨hbefore, hmiddle, hafter⟩ := SlidingWindow.spans_windowOf (by decide : 0 < 10) samples
  obtain ⟨hsum, hsum'⟩ := summed_windowOf (by decide : 0 < 10)
    (fun s hs => (hsamples s hs).whole) (exactSums_of_small le_rfl hsamples)
  rw [show (windowOf 10 samples).before.buff = _ from hbefore.items] at hsum
  rw [show (windowOf 10 samples).after.buff = _ from hafter.items] at hsum'
  change (windowOf 10 samples).middle = _ at hmiddle
  change (if (windowOf 10 samples).isMiddleOutlier then (windowOf 10 samples).middle else none) = _
  rw [verdict, ← hmiddle]
  cases hm : (windowOf 10 samples).middle with
  | none => exact ite_self _
  | some middle =>
    have hsmall := hsamples middle (List.mem_of_getElem? (hmiddle.symm.trans hm))
    rw [SlidingWindow.isMiddleOutlier_eq hsum hsum' hm hsmall, Option.filter_some]

/-- The verdicts over a full window are those on the positions that have samples on both sides. -/
private theorem verdict_take_full {k : ℕ} (hk : 2 * w + k < samples.length) :
    verdict w (samples.take (2 * w + k + 1)) = outlierAt w samples (w + k) := by
  have hlen : (samples.take (2 * w + k + 1)).length = 2 * w + k + 1 := by
    rw [List.length_take]
    omega
  have hc : centre w (2 * w + k + 1) = w + k := by
    rw [centre]
    omega
  have hafter : (samples.take (2 * w + k + 1)).drop (w + k + 1) =
      (samples.drop (w + k + 1)).take w := by
    rw [List.drop_take]
    congr 1
    omega
  rw [verdict, outlierAt, hlen, hc, hafter, List.getElem?_take_of_lt (by omega), List.take_take,
    Nat.min_eq_left (by omega)]

/-- Before, the verdicts are on position `w`, with what has come behind it. -/
private theorem verdict_take_early {k : ℕ} (hk : k < 2 * w) :
    verdict w (samples.take (k + 1)) =
      (samples.take (k + 1))[w]?.filter fun middle =>
        StandsOut ((samples.take (k + 1)).take w) middle ((samples.take (k + 1)).drop (w + 1)) := by
  have hlen : (samples.take (k + 1)).length ≤ 2 * w + 1 := by
    rw [List.length_take]
    omega
  rw [verdict, centre_of_le hlen, Nat.sub_self, List.drop_zero]

/-- **The first verdicts** say nothing exactly if the sample at position `w` does not stand out
against those before it. -/
theorem early_eq_nil_iff (hpos : 0 < w) :
    ((List.range (min samples.length (2 * w))).filterMap
        fun k => verdict w (samples.take (k + 1))) = [] ↔
      ∀ middle, samples[w]? = some middle → 2 * middle.magnitude ≤ absSum (samples.take w) := by
  rw [List.filterMap_eq_nil_iff]
  constructor
  · intro h middle hmiddle
    have hlt : w < samples.length := (List.getElem?_eq_some_iff.mp hmiddle).1
    have hnone := h w (List.mem_range.mpr (by omega))
    rw [verdict_take_early (by omega), List.getElem?_take_of_lt (by omega), hmiddle,
      List.take_take, Nat.min_eq_left (by omega), List.drop_of_length_le (by simp),
      Option.filter_some] at hnone
    by_contra hle
    have hstands : StandsOut (samples.take w) middle [] := by
      rw [StandsOut, absSum_nil]
      omega
    rw [if_pos (decide_eq_true hstands)] at hnone
    cases hnone
  · intro h k hk
    obtain ⟨hk, hk'⟩ := Nat.lt_min.mp (List.mem_range.mp hk)
    rw [verdict_take_early hk']
    rcases Nat.lt_or_ge w (k + 1) with hw | hw
    · rw [List.getElem?_take_of_lt hw, List.take_take, Nat.min_eq_left hw.le]
      refine Option.filter_eq_none_iff.mpr fun middle hmiddle hstands => ?_
      exact absurd (of_decide_eq_true hstands).1 (h middle hmiddle).not_gt
    · rw [List.getElem?_eq_none (by simp; omega), Option.filter_none]

end Verdict

/-! ### The list of outliers -/

/-- The verdicts of the first windows come before the outliers. -/
private theorem outliersFound_eq (late : Int64 → Bool) {samples : List Sample}
    (hsamples : ∀ s ∈ samples, s.Small) :
    outliersFound late samples =
      ((List.range (min samples.length (2 * 10))).filterMap
        fun k => verdict 10 (samples.take (k + 1))) ++ outliers 10 samples := by
  have hfound : outliersFound late samples =
      (List.range samples.length).filterMap fun k => verdict 10 (samples.take (k + 1)) := by
    cases samples with
    | nil => rfl
    | cons s samples =>
      refine (scan_outlierList reader late s.ts [] 0 0 (s :: samples)).trans ?_
      refine List.filterMap_congr fun k _ => found_reader fun s' hs' => ?_
      exact hsamples s' (List.mem_of_mem_take hs')
  have hrange : List.range samples.length = List.range (min samples.length (2 * 10)) ++
      (List.range (samples.length - 2 * 10)).map (min samples.length (2 * 10) + ·) := by
    rw [← List.range_add]
    congr 1
    omega
  rw [hfound, hrange, List.filterMap_append, List.filterMap_map, outliers]
  congr 1
  refine List.filterMap_congr fun k hk => ?_
  have hk := List.mem_range.mp hk
  rw [Function.comp_apply, Nat.min_eq_right (by omega), verdict_take_full (by omega)]

/-- **The outliers are found, exactly if the eleventh sample does not stand out against the ten
before it.** For samples whose values are integers of at most `2 ^ 20`, so that all sums are exact:
the list that `validSampleList` fills is the list of outliers if and only if there are no more than
ten samples, or twice the absolute value of the eleventh is not greater than the sum of the ten
before. -/
theorem outliers_exact_iff (late : Int64 → Bool) (samples : List Sample)
    (hsamples : ∀ s ∈ samples, s.Small) :
    outliersFound late samples = outliers 10 samples ↔
      ∀ middle, samples[10]? = some middle → 2 * middle.magnitude ≤ absSum (samples.take 10) := by
  rw [outliersFound_eq late hsamples, List.append_left_eq_self]
  exact early_eq_nil_iff (by decide)

deriving instance DecidableEq for Sample

/-- The comparison at 50 samples a second. -/
def lateAt50 (delta : Int64) : Bool := 35 < delta

/-- A sample that is a spike. -/
def spike : Sample := ⟨1000, .finite 50⟩

/-- Samples of value 1. -/
def flat (n : ℕ) : List Sample := List.replicate n ⟨0, .finite 1⟩

private theorem small_of_flat (m n : ℕ) : ∀ s ∈ flat m ++ spike :: flat n, s.Small := by
  have hflat : ∀ k, ∀ s ∈ flat k, s.Small := fun k s hs =>
    ⟨1, congrArg Sample.v (List.eq_of_mem_replicate hs), by decide⟩
  intro s hs
  rcases List.mem_append.mp hs with hs | hs
  · exact hflat m s hs
  · rcases List.mem_cons.mp hs with rfl | hs
    · exact ⟨50, rfl, by decide⟩
    · exact hflat n s hs

/-- A spike behind the first window is found. -/
theorem outliers_exact_later :
    outliersFound lateAt50 (flat 12 ++ spike :: flat 10) = [spike] := by
  refine (outliers_exact_iff lateAt50 _ (small_of_flat 12 10)).mpr fun middle h => ?_
  cases h
  decide

/-- **The eleventh sample**: with nothing behind it, it is taken for an outlier, and with ten
samples behind it it is found eleven times. -/
theorem eleventh_repeated :
    outliersFound lateAt50 (flat 10 ++ [spike]) = [spike] ∧
      outliers 10 (flat 10 ++ [spike]) = [] ∧
      outliersFound lateAt50 (flat 10 ++ spike :: flat 10) = List.replicate 11 spike ∧
      outliers 10 (flat 10 ++ spike :: flat 10) = [spike] := by
  decide +kernel

end MiaVita.Results
