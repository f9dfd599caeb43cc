import MiaVita.Lib.Window
import MiaVita.Results.ReadJson

/-!
# The sliding window (`results/resultsReader`, `SlidingWindow.java`, `SampleBuffer.java`)

A `SlidingWindow` is moved over the samples to look at one of them between those before and those
behind it. It is a window of the library (`toWindow_add`), whose totals are the sums of the absolute
values in its two buffers, in `float`.

What it holds does not depend on the values. The sums are right as long as all sums of consecutive
samples that fit in a buffer are numbers of type `float` (`ExactSums`): then neither adding the new
sample nor subtracting the oldest one is rounded.
-/

namespace MiaVita.Results

open Window (Tally centre)

/-! ### Arithmetic of the reader -/

/-- `Math.abs`. -/
def JavaFloat.abs : JavaFloat → JavaFloat
  | finite z => finite z.natAbs
  | infinity _ => infinity false

/-- Unary minus. -/
def JavaFloat.neg : JavaFloat → JavaFloat
  | finite z => finite (-z)
  | infinity negative => infinity (!negative)

/-- `x * 2`. -/
def JavaFloat.twice : JavaFloat → JavaFloat
  | finite z => floatOfInt (z * 2)
  | infinity negative => infinity negative

/-- `x + y`, where `none` is what is not a number. -/
def floatAdd : Option JavaFloat → Option JavaFloat → Option JavaFloat
  | some (.finite x), some (.finite y) => some (floatOfInt (x + y))
  | some (.finite _), some (.infinity t) => some (.infinity t)
  | some (.infinity s), some (.finite _) => some (.infinity s)
  | some (.infinity s), some (.infinity t) => if s = t then some (.infinity s) else none
  | _, _ => none

/-- `x - y`. -/
def floatSub (x y : Option JavaFloat) : Option JavaFloat := floatAdd x (y.map .neg)

/-- `x < y`. -/
def floatLt : Option JavaFloat → Option JavaFloat → Bool
  | some (.finite x), some (.finite y) => x < y
  | some (.finite _), some (.infinity t) => !t
  | some (.infinity s), some (.finite _) => s
  | some (.infinity s), some (.infinity t) => s && !t
  | _, _ => false

/-! ### The buffers and the window -/

/-- `SampleBuffer`: a bounded queue, its oldest sample first, and the sum of the absolute values in
it. -/
structure SampleBuffer where
  maxSize : ℕ
  buff : List Sample
  sums : Option JavaFloat

namespace SampleBuffer

/-- The constructor. -/
def new (size : ℕ) : SampleBuffer := ⟨size, [], some (.finite 0)⟩

/-- `isFull`. -/
def isFull (b : SampleBuffer) : Bool := b.buff.length = b.maxSize

/-- `get`: the oldest sample. -/
def get (b : SampleBuffer) : Option Sample := b.buff.head?

/-- `getSum`. -/
def getSum (b : SampleBuffer) : Option JavaFloat := b.sums

/-- `add`. A full queue drops its oldest sample. -/
def add (b : SampleBuffer) (newSample : Sample) : SampleBuffer :=
  let sums :=
    if b.maxSize > b.buff.length then b.sums
    else floatSub b.sums (b.get.map fun oldest => oldest.v.abs)
  let buff := if b.maxSize > b.buff.length then b.buff else b.buff.tail
  { b with buff := buff ++ [newSample], sums := floatAdd sums (some newSample.v.abs) }

end SampleBuffer

/-- `SlidingWindow`. -/
structure SlidingWindow where
  before : SampleBuffer
  after : SampleBuffer
  middle : Option Sample

namespace SlidingWindow

/-- The constructor. -/
def new (size : ℕ) : SlidingWindow := ⟨.new size, .new size, none⟩

/-- `add`. -/
def add (w : SlidingWindow) (s : Sample) : SlidingWindow :=
  if !w.before.isFull then { w with before := w.before.add s }
  else
    match w.middle with
    | none => { w with middle := some s }
    | some middle =>
      if !w.after.isFull then { w with after := w.after.add s }
      -- everything is full
      else ⟨w.before.add middle, w.after.add s, w.after.get⟩

/-- `isMiddleOutlier`. -/
def isMiddleOutlier (w : SlidingWindow) : Bool :=
  match w.middle with
  | none => false
  | some middle =>
    floatLt w.before.getSum (some middle.v.abs.twice) &&
      floatLt w.after.getSum (some middle.v.abs.twice)

/-- `getMiddle`. -/
def getMiddle (w : SlidingWindow) : Option Sample := w.middle

end SlidingWindow

/-- The window after some samples. -/
def windowOf (size : ℕ) (samples : List Sample) : SlidingWindow :=
  samples.foldl SlidingWindow.add (.new size)

/-! ### A window of the library -/

/-- The sums of the buffers. -/
def sumTally : Tally Sample (Option JavaFloat) where
  zero := some (.finite 0)
  plus sums s := floatAdd sums (some s.v.abs)
  minus sums oldest := floatSub sums (oldest.map fun s => s.v.abs)

/-- The buffer as a queue. -/
def SampleBuffer.toQueue (b : SampleBuffer) : Window.Queue Sample (Option JavaFloat) :=
  ⟨b.maxSize, b.buff, b.sums⟩

private theorem SampleBuffer.not_isFull_iff (b : SampleBuffer) :
    (!b.isFull) = true ↔ b.toQueue.items.length ≠ b.toQueue.maxSize := by
  rw [Bool.not_eq_true', ← Bool.not_eq_true, isFull, decide_eq_true_iff]
  exact Iff.rfl

namespace SlidingWindow

/-- The window as one of the library. -/
def toWindow (win : SlidingWindow) : Window Sample (Option JavaFloat) :=
  ⟨win.before.toQueue, win.after.toQueue, win.middle⟩

theorem toWindow_add (win : SlidingWindow) (s : Sample) :
    (win.add s).toWindow = win.toWindow.add sumTally s := by
  rw [add, Window.add]
  simp only [SampleBuffer.not_isFull_iff]
  cases hmiddle : win.middle with
  | none =>
    simp only [toWindow, hmiddle]
    split_ifs <;> rfl
  | some m =>
    simp only [toWindow, hmiddle]
    split_ifs <;> rfl

private theorem toWindow_windowOf (size : ℕ) (samples : List Sample) :
    (windowOf size samples).toWindow = Window.moved sumTally size samples := by
  induction samples using List.reverseRecOn with
  | nil => rfl
  | append_singleton samples s ih =>
    rw [Window.moved, List.foldl_append, ← Window.moved, ← ih, windowOf, List.foldl_append]
    exact toWindow_add _ s

/-- **What the window holds after any samples.** -/
theorem spans_windowOf {size : ℕ} (hpos : 0 < size) (samples : List Sample) :
    (windowOf size samples).toWindow.Spans size samples := by
  rw [toWindow_windowOf]
  exact Window.spans_moved sumTally hpos samples

end SlidingWindow

/-! ### The sums -/

/-- The absolute value of a sample. -/
def Sample.magnitude (s : Sample) : ℕ :=
  match s.v with
  | .finite z => z.natAbs
  | .infinity _ => 0

/-- The sum of the absolute values. -/
def absSum (samples : List Sample) : ℕ := (samples.map Sample.magnitude).sum

@[simp] theorem absSum_nil : absSum [] = 0 := rfl

@[simp] theorem absSum_cons (s : Sample) (samples : List Sample) :
    absSum (s :: samples) = s.magnitude + absSum samples := by
  simp [absSum]

@[simp] theorem absSum_append (samples rest : List Sample) :
    absSum (samples ++ rest) = absSum samples + absSum rest := by
  simp [absSum]

/-- A sample whose value is an integer. -/
def Sample.Whole (s : Sample) : Prop := ∃ z : ℤ, s.v = .finite z

private theorem Sample.Whole.abs_eq {s : Sample} (h : s.Whole) : s.v.abs = .finite s.magnitude := by
  obtain ⟨z, hv⟩ := h
  simp only [Sample.magnitude, hv, JavaFloat.abs]

/-- The sum of the absolute values is a `float`. -/
def ExactSum (samples : List Sample) : Prop :=
  floatOfInt (absSum samples) = .finite (absSum samples)

/-- **The sums are exact**: those of any `w` consecutive samples or less. -/
def ExactSums (w : ℕ) (samples : List Sample) : Prop :=
  ∀ part, part <:+: samples → part.length ≤ w → ExactSum part

private theorem floatAdd_finite {x y : ℕ} (h : floatOfInt (x + y : ℕ) = .finite (x + y : ℕ)) :
    floatAdd (some (.finite x)) (some (.finite y)) = some (.finite (x + y : ℕ)) := by
  rw [floatAdd, ← Nat.cast_add, h]

private theorem floatSub_finite {x y : ℕ} (h : floatOfInt y = .finite y) :
    floatSub (some (.finite (x + y : ℕ))) (some (.finite x)) = some (.finite y) := by
  have hsub : ((x + y : ℕ) : ℤ) + -(x : ℤ) = y := by omega
  rw [floatSub, Option.map_some, JavaFloat.neg, floatAdd, hsub, h]

/-- **Exact sums are kept up to date without rounding.** -/
theorem sumTally_rightOn {w : ℕ} {samples : List Sample} (hwhole : ∀ s ∈ samples, s.Whole)
    (hexact : ExactSums w samples) :
    sumTally.RightOn (fun part => some (.finite (absSum part))) w samples := by
  refine ⟨rfl, fun part s hpart hlen => ?_, fun s part hpart hlen => ?_⟩
  · have hs : s.Whole := hwhole s (hpart.subset (by simp))
    have hsum := hexact _ hpart (by rwa [List.length_append])
    rw [ExactSum, absSum_append, absSum_cons, absSum_nil, Nat.add_zero] at hsum
    rw [absSum_append, absSum_cons, absSum_nil, Nat.add_zero]
    change floatAdd _ (some s.v.abs) = _
    rw [hs.abs_eq]
    exact floatAdd_finite hsum
  · have hs : s.Whole := hwhole s (hpart.subset List.mem_cons_self)
    have hrest : part <:+: samples := (List.suffix_cons s part).isInfix.trans hpart
    rw [absSum_cons]
    change floatSub _ (some s.v.abs) = _
    rw [hs.abs_eq]
    exact floatSub_finite (hexact part hrest (Nat.le_of_succ_le hlen))

/-- The sums after any samples. -/
theorem summed_windowOf {w : ℕ} {samples : List Sample} (hpos : 0 < w)
    (hwhole : ∀ s ∈ samples, s.Whole) (hexact : ExactSums w samples) :
    (windowOf w samples).before.getSum =
        some (.finite (absSum (windowOf w samples).before.buff)) ∧
      (windowOf w samples).after.getSum =
        some (.finite (absSum (windowOf w samples).after.buff)) := by
  have htotals := Window.totals_moved hpos (sumTally_rightOn hwhole hexact)
  rw [← SlidingWindow.toWindow_windowOf] at htotals
  exact ⟨htotals.before, htotals.after⟩

/-! ### Samples whose sums are exact -/

/-- A sample whose value is an integer of at most `2 ^ 20`. -/
def Sample.Small (s : Sample) : Prop := ∃ z : ℤ, s.v = .finite z ∧ z.natAbs ≤ 2 ^ 20

private theorem Sample.Small.magnitude_le {s : Sample} (h : s.Small) : s.magnitude ≤ 2 ^ 20 := by
  obtain ⟨z, hv, hz⟩ := h
  simpa only [Sample.magnitude, hv] using hz

theorem Sample.Small.whole {s : Sample} (h : s.Small) : s.Whole := by
  obtain ⟨z, hv, -⟩ := h
  exact ⟨z, hv⟩

theorem Sample.Small.twice_eq {s : Sample} (h : s.Small) :
    s.v.abs.twice = .finite (2 * s.magnitude : ℕ) := by
  have hle := h.magnitude_le
  rw [h.whole.abs_eq, JavaFloat.twice, floatOfInt_eq (by omega)]
  push_cast
  rw [Int.mul_comm]

private theorem absSum_le {samples : List Sample} (h : ∀ s ∈ samples, s.Small) :
    absSum samples ≤ samples.length * 2 ^ 20 := by
  induction samples with
  | nil => exact Nat.zero_le _
  | cons s samples ih =>
    obtain ⟨hs, hrest⟩ := List.forall_mem_cons.mp h
    have hle := hs.magnitude_le
    have hrec := ih hrest
    rw [absSum_cons, List.length_cons]
    omega

/-- **Ten small samples** have an exact sum. -/
theorem exactSums_of_small {w : ℕ} {samples : List Sample} (hw : w ≤ 10)
    (h : ∀ s ∈ samples, s.Small) : ExactSums w samples := by
  intro part hpart hlen
  have hle := absSum_le fun s hs => h s (hpart.subset hs)
  refine floatOfInt_eq ?_
  rw [Int.natAbs_natCast]
  omega

/-! ### The last samples -/

/-- **The window represents the last `2 k + 1` samples.** For every size from 1 on and all samples
whose values are integers and whose sums are exact: after `2 k + 1` samples or more, the window
holds the last `k` samples behind its middle and the `k` samples in front of the middle before it,
the oldest ones first. With fewer samples, the first `k` are before the middle, the next one is the
middle and the others are behind it. The sums are always those of the absolute values in the two
buffers. -/
theorem window_holds_last (k : ℕ) (hk : 1 ≤ k) (samples : List Sample)
    (hwhole : ∀ s ∈ samples, s.Whole) (hexact : ExactSums k samples) :
    (2 * k + 1 ≤ samples.length →
      (windowOf k samples).before.buff = (samples.drop (samples.length - 2 * k - 1)).take k ∧
      (windowOf k samples).middle = samples[samples.length - k - 1]? ∧
      (windowOf k samples).after.buff = samples.drop (samples.length - k)) ∧
    (samples.length < 2 * k + 1 →
      (windowOf k samples).before.buff = samples.take k ∧
      (windowOf k samples).middle = samples[k]? ∧
      (windowOf k samples).after.buff = samples.drop (k + 1)) ∧
    (windowOf k samples).before.getSum =
      some (.finite (absSum (windowOf k samples).before.buff)) ∧
    (windowOf k samples).after.getSum =
      some (.finite (absSum (windowOf k samples).after.buff)) := by
  have hspans := SlidingWindow.spans_windowOf hk samples
  obtain ⟨hbefore, hafter⟩ := summed_windowOf hk hwhole hexact
  refine ⟨fun hn => ?_, fun hn => ?_, hbefore, hafter⟩
  · obtain ⟨hbefore, hmiddle, hafter⟩ := hspans
    rw [Window.centre_of_ge hn] at hbefore hmiddle hafter
    refine ⟨?_, ?_, ?_⟩
    · refine hbefore.items.trans ?_
      rw [List.drop_take]
      congr 1
      · omega
      · congr 1
        omega
    · refine hmiddle.trans ?_
      congr 1
      omega
    · refine hafter.items.trans ?_
      congr 1
      omega
  · obtain ⟨hbefore, hmiddle, hafter⟩ := (Window.spans_iff_of_le hn.le).mp hspans
    exact ⟨hbefore.items, hmiddle, hafter.items⟩

/-- Four samples. -/
def fourSamples : List Sample :=
  [⟨0, .finite 5⟩, ⟨1, .finite (-3)⟩, ⟨2, .finite 4⟩, ⟨3, .finite (-7)⟩]

/-- A window of size 1 holds the last three of them. -/
theorem window_holds_last_three :
    (windowOf 1 fourSamples).before.buff = [⟨1, .finite (-3)⟩] ∧
      (windowOf 1 fourSamples).middle = some ⟨2, .finite 4⟩ ∧
      (windowOf 1 fourSamples).after.getSum = some (.finite 7) := by
  have hsmall : ∀ s ∈ fourSamples, s.Small := by
    simp [fourSamples, Sample.Small]
  obtain ⟨hfull, -, -, hafter⟩ := window_holds_last 1 le_rfl fourSamples
    (fun s hs => (hsmall s hs).whole) (exactSums_of_small (by decide) hsmall)
  obtain ⟨hbefore, hmiddle, -⟩ := hfull (by decide)
  exact ⟨hbefore, hmiddle, hafter⟩

end MiaVita.Results
