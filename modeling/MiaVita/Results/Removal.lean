import MiaVita.Results.Outliers

/-!
# Removing the outliers (`results/resultsReader`, `App.java`, `Sample.java`)

At its end `validSampleList` removes the outliers that it has collected, with
`sampleList.removeAll(outlierList)`. This goes through `Sample.equals`, for which two samples are
the same if their times are. A sample that is not an outlier goes with one that is, if it has the
same time.

Which samples are flagged depends on the values, which may be any numbers of type `float`; what is
removed then does not. So the function is taken for samples of any kind: what it needs of them is
the time, how the two sums of the window are kept, and the comparison of a sample with the sums
(`SampleKind`). With the values of `Results.Sample` this is the function of the reader
(`validSampleList_floatKind`). Samples are told apart by their positions; `flagged` are those of the
samples that are put into the list of outliers.
-/

namespace MiaVita.Results

open Window (Tally centre)

/-! ### Samples of any kind -/

variable {α σ : Type}

/-- What `validSampleList` needs of its samples. -/
structure SampleKind (α σ : Type) where
  ts : α → Int64
  tally : Tally α σ
  outlier : σ → α → σ → Bool

/-- `isMiddleOutlier`. -/
def SampleKind.isMiddleOutlier (K : SampleKind α σ) (win : Window α σ) : Bool :=
  match win.middle with
  | none => false
  | some middle => K.outlier win.before.total middle win.after.total

/-- The samples, with a window of the library. -/
def SampleKind.windowed (K : SampleKind α σ) : Windowed α (Window α σ) where
  ts := K.ts
  new := .new K.tally 10
  add := Window.add K.tally
  isMiddleOutlier := K.isMiddleOutlier
  getMiddle := Window.middle

/-! ### Samples with values of type `float` -/

/-- The samples of the reader. -/
def floatKind : SampleKind Sample (Option JavaFloat) where
  ts := Sample.ts
  tally := sumTally
  outlier before middle after :=
    floatLt before (some middle.v.abs.twice) && floatLt after (some middle.v.abs.twice)

private theorem isMiddleOutlier_toWindow (win : SlidingWindow) :
    floatKind.isMiddleOutlier win.toWindow = win.isMiddleOutlier := by
  obtain ⟨before, after, middle⟩ := win
  cases middle <;> rfl

/-- The variables of the scan, with the window as one of the library. -/
private def Scan.toWindow (st : Scan Sample SlidingWindow) :
    Scan Sample (Window Sample (Option JavaFloat)) :=
  { st with window := st.window.toWindow }

private theorem scanStep_toWindow (late : Int64 → Bool) (st : Scan Sample SlidingWindow)
    (s : Sample) :
    scanStep floatKind.windowed late st.toWindow s = (scanStep reader late st s).toWindow := by
  have hwindow : floatKind.windowed.add st.toWindow.window s = (st.window.add s).toWindow :=
    (SlidingWindow.toWindow_add st.window s).symm
  have hout : floatKind.windowed.isMiddleOutlier (st.window.add s).toWindow =
      (st.window.add s).isMiddleOutlier := isMiddleOutlier_toWindow (st.window.add s)
  rw [scanStep, hwindow, hout]
  rfl

/-- **The function of the reader** is that for these samples. -/
theorem validSampleList_floatKind (late : Int64 → Bool) (sampleList outlierList : List Sample)
    (numberGaps numberOverlaps : ℕ) :
    validSampleList floatKind.windowed late sampleList outlierList numberGaps numberOverlaps =
      validSampleList reader late sampleList outlierList numberGaps numberOverlaps := by
  cases sampleList with
  | nil => rfl
  | cons s samples =>
    have hscan : (s :: samples).foldl (scanStep floatKind.windowed late)
        (initScan reader s.ts outlierList numberGaps numberOverlaps).toWindow =
          ((s :: samples).foldl (scanStep reader late)
            (initScan reader s.ts outlierList numberGaps numberOverlaps)).toWindow :=
      List.foldl_hom Scan.toWindow (scanStep_toWindow late)
    have hinit : initScan floatKind.windowed (floatKind.windowed.ts s) outlierList numberGaps
        numberOverlaps =
          (initScan reader s.ts outlierList numberGaps numberOverlaps).toWindow := rfl
    rw [validSampleList, validSampleList]
    change Except.ok _ = Except.ok _
    rw [hinit, hscan]
    rfl

/-! ### Which samples are flagged -/

/-- The positions of the samples that are put into the list of outliers, in the order in which that
is done: the middle of the window after each of the samples, if it is taken for an outlier. -/
def flagged (K : SampleKind α σ) (samples : List α) : List ℕ :=
  (List.range samples.length).filterMap fun k =>
    if K.isMiddleOutlier (.moved K.tally 10 (samples.take (k + 1))) then some (centre 10 (k + 1))
    else none

section Flagged

variable {K : SampleKind α σ} {samples : List α}

/-- The sample that a verdict is about has been seen. -/
private theorem centre_lt_of_isMiddleOutlier
    (h : K.isMiddleOutlier (.moved K.tally 10 samples) = true) :
    centre 10 samples.length < samples.length := by
  by_contra hle
  have hmiddle := (Window.spans_moved K.tally (by decide : 0 < 10) samples).middle
  rw [List.getElem?_eq_none (Nat.le_of_not_lt hle)] at hmiddle
  rw [SampleKind.isMiddleOutlier, hmiddle] at h
  cases h

/-- **What is found** over each prefix are the samples at the flagged positions. -/
theorem filterMap_found (K : SampleKind α σ) (samples : List α) :
    ((List.range samples.length).filterMap fun k => K.windowed.found (samples.take (k + 1))) =
      (flagged K samples).filterMap (samples[·]?) := by
  rw [flagged, List.filterMap_filterMap]
  refine List.filterMap_congr fun k hk => ?_
  have hlen : (samples.take (k + 1)).length = k + 1 := by
    rw [List.length_take]
    have := List.mem_range.mp hk
    omega
  change (if K.isMiddleOutlier (.moved K.tally 10 (samples.take (k + 1))) then
    (Window.moved K.tally 10 (samples.take (k + 1))).middle else none) = _
  split_ifs with hout
  · have hlt := centre_lt_of_isMiddleOutlier hout
    have hmiddle := (Window.spans_moved K.tally (by decide : 0 < 10) (samples.take (k + 1))).middle
    rw [hlen] at hlt hmiddle
    rw [hmiddle, List.getElem?_take_of_lt hlt]
    rfl
  · rfl

end Flagged

/-! ### What is removed -/

/-- The list of outliers after the call in `main`, which hands over an empty one. -/
def outliersOf (K : SampleKind α σ) (late : Int64 → Bool) (sampleList : List α) : List α :=
  match validSampleList K.windowed late sampleList [] 0 0 with
  | .ok validated => validated.outlierList
  | .error _ => []

/-- The list of samples after the call. -/
def samplesLeft (K : SampleKind α σ) (late : Int64 → Bool) (sampleList : List α) : List α :=
  match validSampleList K.windowed late sampleList [] 0 0 with
  | .ok validated => validated.sampleList
  | .error _ => sampleList

/-- **What should be left**: the samples that were not flagged, in their order. -/
def unflagged (K : SampleKind α σ) (samples : List α) : List α :=
  (samples.zipIdx.filter fun p => p.2 ∉ flagged K samples).map Prod.fst

/-- No sample that was not flagged has the time of one that was. -/
def TimesApart (K : SampleKind α σ) (samples : List α) : Prop :=
  ∀ i j a b, samples[i]? = some a → samples[j]? = some b → i ∉ flagged K samples →
    j ∈ flagged K samples → K.ts a ≠ K.ts b

/-- A filter that lets less through gives the same list only if it lets the same through. -/
private theorem map_filter_eq_iff {β γ : Type} {l : List β} {p q : β → Bool} (f : β → γ)
    (hpq : ∀ x ∈ l, p x → q x) :
    (l.filter p).map f = (l.filter q).map f ↔ ∀ x ∈ l, q x → p x := by
  have hsub : l.filter p = (l.filter q).filter p := by
    rw [List.filter_filter]
    refine List.filter_congr fun x hx => ?_
    cases hp : p x with
    | false => rfl
    | true => exact (hpq x hx hp).symm
  constructor
  · intro h x hx hq
    have hlen := congrArg List.length h
    rw [List.length_map, List.length_map, hsub] at hlen
    exact List.length_filter_eq_length_iff.mp hlen x (List.mem_filter.mpr ⟨hx, hq⟩)
  · intro h
    rw [hsub, List.filter_eq_self.mpr fun x hx => ?_]
    obtain ⟨hx, hq⟩ := List.mem_filter.mp hx
    exact h x hx hq

section Removed

variable (K : SampleKind α σ) (late : Int64 → Bool) (samples : List α)

private theorem outliersOf_eq :
    outliersOf K late samples = (flagged K samples).filterMap (samples[·]?) := by
  cases samples with
  | nil => rfl
  | cons s samples =>
    exact (scan_outlierList K.windowed late (K.ts s) [] 0 0 (s :: samples)).trans
      (filterMap_found K (s :: samples))

/-- Every sample goes that has the time of one of the outliers. -/
private theorem samplesLeft_eq :
    samplesLeft K late samples =
      samples.filter fun s =>
        !(outliersOf K late samples).any fun out => K.windowed.equals out s := by
  cases samples with
  | nil => rfl
  | cons s samples => rfl

/-- A sample is kept if no outlier has its time. -/
private theorem kept_iff (s : α) :
    (!(outliersOf K late samples).any fun out => K.windowed.equals out s) = true ↔
      ∀ j b, samples[j]? = some b → j ∈ flagged K samples → K.ts s ≠ K.ts b := by
  rw [Bool.not_eq_true', List.any_eq_false, outliersOf_eq]
  constructor
  · intro h j b hb hj heq
    refine h b (List.mem_filterMap.mpr ⟨j, hj, hb⟩) ?_
    exact beq_iff_eq.mpr heq.symm
  · intro h out hout hequals
    obtain ⟨j, hj, hb⟩ := List.mem_filterMap.mp hout
    exact h j out hb hj (beq_iff_eq.mp hequals).symm

/-- **Only flagged samples are dropped, exactly if no other sample has the time of one of them.**
For samples of any kind and any values: the list of outliers holds the samples at the flagged
positions; and the list of samples is left with exactly those that were not flagged, in their order,
if and only if none of these has the same time as one that was flagged. -/
theorem only_flagged_dropped_iff :
    outliersOf K late samples = (flagged K samples).filterMap (samples[·]?) ∧
      (samplesLeft K late samples = unflagged K samples ↔ TimesApart K samples) := by
  refine ⟨outliersOf_eq K late samples, ?_⟩
  obtain ⟨keep, hkeep⟩ : ∃ keep : α → Bool, keep = fun s =>
    !(outliersOf K late samples).any fun out => K.windowed.equals out s := ⟨_, rfl⟩
  have hiff : ∀ s, keep s = true ↔
      ∀ j b, samples[j]? = some b → j ∈ flagged K samples → K.ts s ≠ K.ts b := by
    rw [hkeep]
    exact kept_iff K late samples
  have hzip : samples.filter keep = (samples.zipIdx.filter fun p => keep p.1).map Prod.fst := by
    have hfilter := List.filter_map (p := keep) (f := Prod.fst) (l := samples.zipIdx)
    rw [List.zipIdx_map_fst] at hfilter
    exact hfilter
  have hmem : ∀ p ∈ samples.zipIdx, samples[p.2]? = some p.1 := fun p hp =>
    List.mem_zipIdx_iff_getElem?.mp hp
  rw [samplesLeft_eq, ← hkeep, hzip, unflagged, map_filter_eq_iff Prod.fst]
  · constructor
    · intro h i j a b ha hb hi hj
      have hkept := h (a, i) (List.mem_zipIdx_iff_getElem?.mpr ha) (decide_eq_true hi)
      exact (hiff a).mp hkept j b hb hj
    · intro h p hp hunflagged
      exact (hiff p.1).mpr fun j b hb hj =>
        h p.2 j p.1 b (hmem p hp) hb (of_decide_eq_true hunflagged) hj
  · -- a flagged sample has its own time
    intro p hp hkept
    refine decide_eq_true fun hflagged => ?_
    exact (hiff p.1).mp hkept p.2 p.1 (hmem p hp) hflagged rfl

end Removed

/-- A sample of value 1 in the same millisecond as the spike. -/
def beside : Sample := ⟨1000, .finite 1⟩

/-- **A good sample is dropped** with the outlier that has its time. -/
theorem good_sample_dropped :
    flagged floatKind (flat 12 ++ spike :: beside :: flat 10) = [12] ∧
      samplesLeft floatKind lateAt50 (flat 12 ++ spike :: beside :: flat 10) = flat 22 ∧
      unflagged floatKind (flat 12 ++ spike :: beside :: flat 10) =
        flat 12 ++ beside :: flat 10 := by
  decide +kernel

end MiaVita.Results
