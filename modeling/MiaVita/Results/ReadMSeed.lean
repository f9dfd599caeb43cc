import Mathlib.Algebra.Order.BigOperators.Group.List
import Mathlib.Algebra.Order.Ring.Int
import MiaVita.Lib.SortedMap
import MiaVita.Results.ReadJson

/-!
# Reading miniSEED records (`results/resultsReader`, `ReadMSeed.java`)

A record has a start time, a number of samples per second, and the values that the codec decodes.
The reader puts the records into a `TreeMap` that compares start times only, and then gives each
value its time: the start of the record and a number of milliseconds for each value before it. The
start time has a resolution of 0.1 ms, which is the unit of time here, and is read without its last
digit. It is parsed in a time zone whose clock is never changed.

Three things can go wrong. Of two records with the same start the map keeps the values of the second
one only. The last digit of a start time is lost. And the step is rounded to a number of
milliseconds before it is multiplied, so that the times of a record fall behind unless the rate
divides 1000 or the record is short. `samplesRead_perm` says that nothing else can go wrong, unless
an empty record has the start of another one.
-/

namespace MiaVita.Results

variable {V : Type}

/-! ### The source -/

/-- `DataRecord`: the start time, the sample rate factor (the multiplier being 1) and what the codec
decodes. The number of samples is a field of 16 bits. -/
structure DataRecord (V : Type) where
  startTime : ℤ
  sampleRateFactor : ℕ
  values : List V
  factor_pos : 0 < sampleRateFactor
  numSamples_lt : values.length < 2 ^ 16

/-- `decompressDataRecord`, with a codec that is right. -/
def decompressDataRecord (dr : DataRecord V) : List V := dr.values

/-- `decompressDataRecordList`. The keys are compared by `DataRecordBeginComparator`. -/
def decompressDataRecordList (records : List (DataRecord V)) : List (DataRecord V × List V) :=
  SortedMap.putAll DataRecord.startTime decompressDataRecord [] records

/-- `Sample`, with the sequence number that the constructor gives it. -/
structure SeedSample (V : Type) where
  ts : ℤ
  v : V
  sn : ℤ

/-- The start time in milliseconds, parsed without its last digit. -/
def parseStart (dr : DataRecord V) : ℤ := dr.startTime / 10

/-- `timeInRecord`, an `int`. -/
def timeInRecord (dr : DataRecord V) (i : ℕ) : ℤ :=
  ((1000 / dr.sampleRateFactor : ℕ) * (i : ℤ)).bmod (2 ^ 32)

/-- The loop over the values of a record. -/
def timedValues (dr : DataRecord V) (values : List V) : List (ℤ × V) :=
  values.zipIdx.map fun p => (parseStart dr + timeInRecord dr p.2, p.1)

/-- `new Sample`, for one value after the other; `numberSamples` counts the samples of the program,
in an `int`. -/
def newSamples (numberSamples : ℤ) (timed : List (ℤ × V)) : List (SeedSample V) :=
  timed.zipIdx.map fun p => ⟨p.1.1, p.1.2, (numberSamples + p.2).bmod (2 ^ 32)⟩

/-- `transformToOrderedSampleList`. -/
def transformToOrderedSampleList (orderedRecordDataMap : List (DataRecord V × List V))
    (inputWithSequenceNumber : Bool) (numberSamples : ℤ) : List (SeedSample V) :=
  let sampleList := newSamples numberSamples
    (orderedRecordDataMap.flatMap fun entry => timedValues entry.1 entry.2)
  if inputWithSequenceNumber then sampleList.mergeSort fun s₁ s₂ => s₁.sn ≤ s₂.sn
  else sampleList.mergeSort fun s₁ s₂ => s₁.ts ≤ s₂.ts

/-! ### The samples of a collection of records -/

/-- What is read of a collection of records, sorted by time: times and values. -/
def samplesRead (records : List (DataRecord V)) (numberSamples : ℤ) : List (ℤ × V) :=
  (transformToOrderedSampleList (decompressDataRecordList records) false numberSamples).map
    fun s => (10 * s.ts, s.v)

/-- What is to be read: each value of each record, at the start of the record and the milliseconds,
rounded down, that the values before it take. -/
def samplesExpected (records : List (DataRecord V)) : List (ℤ × V) :=
  records.flatMap fun dr =>
    dr.values.zipIdx.map fun p => (dr.startTime + 10 * (1000 * p.2 / dr.sampleRateFactor : ℕ), p.1)

/-- The start of the record is a whole number of milliseconds, and the rounding of the step does not
add up to a millisecond. -/
def DataRecord.Timed (dr : DataRecord V) : Prop :=
  10 ∣ dr.startTime ∧ 1000 % dr.sampleRateFactor * (dr.values.length - 1) < dr.sampleRateFactor

/-! ### The time of a value -/

/-- There is no overflow. -/
private theorem timeInRecord_eq (dr : DataRecord V) {i : ℕ} (hi : i < 2 ^ 16) :
    timeInRecord dr i = (1000 / dr.sampleRateFactor * i : ℕ) := by
  unfold timeInRecord
  rw [← Int.natCast_mul]
  have hle : 1000 / dr.sampleRateFactor * i ≤ 1000 * i :=
    Nat.mul_le_mul_right i (Nat.div_le_self 1000 _)
  generalize 1000 / dr.sampleRateFactor * i = time at hle
  rw [Int.bmod_eq_of_le (by omega) (by omega)]

/-- What the rounding of the step adds up to. -/
private theorem mul_div_eq_add {r : ℕ} (hr : 0 < r) (i : ℕ) :
    1000 * i / r = 1000 / r * i + 1000 % r * i / r := by
  conv_lhs => rw [← Nat.div_add_mod 1000 r, Nat.add_mul, Nat.mul_assoc, Nat.mul_add_div hr]

/-- **The time of a value** is never too late. -/
theorem time_le (dr : DataRecord V) {i : ℕ} (hi : i < 2 ^ 16) :
    10 * (parseStart dr + timeInRecord dr i) ≤
      dr.startTime + 10 * (1000 * i / dr.sampleRateFactor : ℕ) := by
  rw [timeInRecord_eq dr hi, mul_div_eq_add dr.factor_pos, parseStart]
  generalize 1000 % dr.sampleRateFactor * i / dr.sampleRateFactor = lag
  omega

private theorem time_eq_iff (dr : DataRecord V) {i : ℕ} (hi : i < 2 ^ 16) :
    10 * (parseStart dr + timeInRecord dr i) =
        dr.startTime + 10 * (1000 * i / dr.sampleRateFactor : ℕ) ↔
      10 ∣ dr.startTime ∧ 1000 % dr.sampleRateFactor * i < dr.sampleRateFactor := by
  rw [timeInRecord_eq dr hi, mul_div_eq_add dr.factor_pos, parseStart,
    ← Nat.div_eq_zero_iff_lt dr.factor_pos]
  generalize 1000 % dr.sampleRateFactor * i / dr.sampleRateFactor = lag
  omega

/-- A record is timed if all its values are. -/
private theorem DataRecord.timed_iff (dr : DataRecord V) (hvalues : dr.values ≠ []) :
    dr.Timed ↔ ∀ i < dr.values.length,
      10 ∣ dr.startTime ∧ 1000 % dr.sampleRateFactor * i < dr.sampleRateFactor := by
  have hpos := List.length_pos_of_ne_nil hvalues
  constructor
  · rintro ⟨hstart, hlast⟩ i hi
    exact ⟨hstart, (Nat.mul_le_mul_left _ (by omega)).trans_lt hlast⟩
  · intro h
    exact h (dr.values.length - 1) (by omega)

/-! ### All values -/

/-- Every value of every record, with its place. -/
def indexedValues (records : List (DataRecord V)) : List (DataRecord V × V × ℕ) :=
  records.flatMap fun dr => dr.values.zipIdx.map fun p => (dr, p)

private theorem mem_indexedValues {records : List (DataRecord V)} {dr : DataRecord V} {f : V}
    {i : ℕ} (h : (dr, f, i) ∈ indexedValues records) : dr ∈ records ∧ i < dr.values.length := by
  obtain ⟨dr', hdr', h⟩ := List.mem_flatMap.mp h
  obtain ⟨p, hp, heq⟩ := List.mem_map.mp h
  cases heq
  exact ⟨hdr', by simpa using List.snd_lt_of_mem_zipIdx hp⟩

private theorem exists_mem_indexedValues {records : List (DataRecord V)} {dr : DataRecord V}
    (hdr : dr ∈ records) {i : ℕ} (hi : i < dr.values.length) :
    ∃ f, (dr, f, i) ∈ indexedValues records := by
  refine ⟨dr.values[i], List.mem_flatMap.mpr ⟨dr, hdr, List.mem_map.mpr ⟨_, ?_, rfl⟩⟩⟩
  rw [List.mem_zipIdx_iff_getElem?]
  exact List.getElem?_eq_getElem hi

/-- The time that a value is given. -/
def timeGiven (q : DataRecord V × V × ℕ) : ℤ := 10 * (parseStart q.1 + timeInRecord q.1 q.2.2)

/-- The time that a value should be given. -/
private def timeDue (q : DataRecord V × V × ℕ) : ℤ :=
  q.1.startTime + 10 * (1000 * q.2.2 / q.1.sampleRateFactor : ℕ)

private theorem samplesExpected_eq (records : List (DataRecord V)) :
    samplesExpected records = (indexedValues records).map fun q => (timeDue q, q.2.1) := by
  rw [samplesExpected, indexedValues, List.map_flatMap]
  simp only [List.map_map]
  rfl

/-- The entries of the map give the samples, whatever they are counted with. -/
private theorem samplesRead_perm_entries (records : List (DataRecord V)) (numberSamples : ℤ) :
    (samplesRead records numberSamples).Perm
      (((decompressDataRecordList records).flatMap fun entry => timedValues entry.1 entry.2).map
        fun x => (10 * x.1, x.2)) := by
  refine ((List.mergeSort_perm _ _).map _).trans (List.Perm.of_eq ?_)
  rw [newSamples, List.map_map]
  conv_rhs => rw [← List.zipIdx_map_fst 0 (List.flatMap _ _), List.map_map]
  rfl

private theorem length_samplesRead (records : List (DataRecord V)) (numberSamples : ℤ) :
    (samplesRead records numberSamples).length =
      SortedMap.weight List.length (decompressDataRecordList records) := by
  rw [(samplesRead_perm_entries records numberSamples).length_eq, List.length_map,
    List.length_flatMap, SortedMap.weight]
  simp only [timedValues, List.length_map, List.length_zipIdx]

private theorem length_samplesExpected (records : List (DataRecord V)) :
    (samplesExpected records).length =
      (records.map fun dr => (decompressDataRecord dr).length).sum := by
  rw [samplesExpected, List.length_flatMap]
  simp only [List.length_map, List.length_zipIdx]
  rfl

/-- **Different starts**: every value is given a time. -/
theorem samplesRead_perm_indexed {records : List (DataRecord V)}
    (hstarts : (records.map DataRecord.startTime).Nodup) (numberSamples : ℤ) :
    (samplesRead records numberSamples).Perm
      ((indexedValues records).map fun q => (timeGiven q, q.2.1)) := by
  have hentries : (decompressDataRecordList records).Perm _ := SortedMap.putAll_perm hstarts
  refine (samplesRead_perm_entries records numberSamples).trans
    (((hentries.flatMap_right _).map _).trans (List.Perm.of_eq ?_))
  rw [List.flatMap_map, indexedValues, List.map_flatMap, List.map_flatMap]
  simp only [timedValues, List.map_map]
  rfl

/-- **All samples are read** only if the starts are different. -/
theorem nodup_of_samplesRead_perm {records : List (DataRecord V)} {numberSamples : ℤ}
    (hvalues : ∀ dr ∈ records, dr.values ≠ [])
    (h : (samplesRead records numberSamples).Perm (samplesExpected records)) :
    (records.map DataRecord.startTime).Nodup := by
  have hlength := h.length_eq
  rw [length_samplesRead, length_samplesExpected] at hlength
  exact SortedMap.nodup_of_weight_putAll
    (fun dr hdr => List.length_pos_of_ne_nil (hvalues dr hdr)) hlength

/-- If each value is given some time and no sample differs, then each value is given its own time:
none is given a later one, so that the times of all would add up to less. -/
private theorem timeGiven_eq_of_perm {records : List (DataRecord V)}
    (h : ((indexedValues records).map fun q => (timeGiven q, q.2.1)).Perm
      ((indexedValues records).map fun q => (timeDue q, q.2.1))) :
    ∀ q ∈ indexedValues records, timeGiven q = timeDue q := by
  have hle : ∀ q ∈ indexedValues records, timeGiven q ≤ timeDue q := by
    rintro ⟨dr, f, i⟩ hq
    exact time_le dr ((mem_indexedValues hq).2.trans dr.numSamples_lt)
  have hsum := (h.map Prod.fst).sum_eq
  rw [List.map_map, List.map_map] at hsum
  intro q hq
  by_contra hne
  exact (List.sum_lt_sum timeGiven timeDue hle ⟨q, hq, lt_of_le_of_ne (hle q hq) hne⟩).ne hsum

/-- Different starts and timed records give the right samples. -/
private theorem perm_samplesExpected {records : List (DataRecord V)}
    (hstarts : (records.map DataRecord.startTime).Nodup) (htimed : ∀ dr ∈ records, dr.Timed)
    (numberSamples : ℤ) :
    (samplesRead records numberSamples).Perm (samplesExpected records) := by
  rw [samplesExpected_eq]
  refine (samplesRead_perm_indexed hstarts numberSamples).trans (List.Perm.of_eq ?_)
  refine List.map_congr_left ?_
  rintro ⟨dr, f, i⟩ hq
  obtain ⟨hdr, hi⟩ := mem_indexedValues hq
  have htime := (dr.timed_iff (List.ne_nil_of_length_pos (by omega))).mp (htimed dr hdr) i hi
  exact congrArg (·, f) ((time_eq_iff dr (hi.trans dr.numSamples_lt)).mpr htime)

/-- If no record is empty, nothing else gives them. -/
private theorem timed_of_perm {records : List (DataRecord V)} {numberSamples : ℤ}
    (hvalues : ∀ dr ∈ records, dr.values ≠ [])
    (h : (samplesRead records numberSamples).Perm (samplesExpected records)) :
    (records.map DataRecord.startTime).Nodup ∧ ∀ dr ∈ records, dr.Timed := by
  have hstarts := nodup_of_samplesRead_perm hvalues h
  refine ⟨hstarts, fun dr hdr => (dr.timed_iff (hvalues dr hdr)).mpr fun i hi => ?_⟩
  rw [samplesExpected_eq] at h
  obtain ⟨f, hf⟩ := exists_mem_indexedValues hdr hi
  exact (time_eq_iff dr (hi.trans dr.numSamples_lt)).mp
    (timeGiven_eq_of_perm ((samplesRead_perm_indexed hstarts numberSamples).symm.trans h) _ hf)

/-! ### Empty records -/

/-- The records that have values. -/
def nonEmpty (records : List (DataRecord V)) : List (DataRecord V) :=
  records.filter fun dr => !dr.values.isEmpty

/-- No empty record has the start of a record with values. The map would keep the first of the two
for its start and rate, and the values of the second. -/
def EmptyApart (records : List (DataRecord V)) : Prop :=
  ∀ dr ∈ records, ∀ empty ∈ records, dr.values ≠ [] → empty.values = [] →
    empty.startTime ≠ dr.startTime

private theorem mem_nonEmpty {records : List (DataRecord V)} {dr : DataRecord V} :
    dr ∈ nonEmpty records ↔ dr ∈ records ∧ dr.values ≠ [] := by
  simp [nonEmpty]

private theorem flatMap_filter {α β : Type*} {p : α → Bool} {f : α → List β} {l : List α}
    (h : ∀ a ∈ l, p a = false → f a = []) : (l.filter p).flatMap f = l.flatMap f := by
  induction l with
  | nil => rfl
  | cons a l ih =>
    obtain ⟨ha, hl⟩ := List.forall_mem_cons.mp h
    rw [List.filter_cons, List.flatMap_cons, ← ih hl]
    cases hp : p a with
    | false => rw [ha hp, if_neg Bool.false_ne_true, List.nil_append]
    | true => rw [if_pos rfl, List.flatMap_cons]

private theorem samplesExpected_nonEmpty (records : List (DataRecord V)) :
    samplesExpected (nonEmpty records) = samplesExpected records := by
  refine flatMap_filter fun dr _ hempty => ?_
  have hvalues : dr.values = [] := by simpa using hempty
  rw [hvalues]
  rfl

/-- A record with values has this start. -/
private def isStart (records : List (DataRecord V)) (start : ℤ) : Bool :=
  (nonEmpty records).any fun dr => dr.startTime == start

/-- Whether a record is empty can be told from its start. -/
private theorem isStart_eq {records : List (DataRecord V)} (hempty : EmptyApart records)
    {dr : DataRecord V} (hdr : dr ∈ records) :
    isStart records dr.startTime = !dr.values.isEmpty := by
  rw [Bool.eq_iff_iff, isStart, List.any_eq_true]
  simp only [Bool.not_eq_true', List.isEmpty_eq_false_iff, beq_iff_eq]
  constructor
  · rintro ⟨dr', hdr', hstart⟩ hvalues
    obtain ⟨hmem, hvalues'⟩ := mem_nonEmpty.mp hdr'
    exact hempty dr' hmem dr hdr hvalues' hvalues hstart.symm
  · intro hvalues
    exact ⟨dr, mem_nonEmpty.mpr ⟨hdr, hvalues⟩, rfl⟩

private theorem decompressDataRecordList_nonEmpty {records : List (DataRecord V)}
    (hempty : EmptyApart records) :
    decompressDataRecordList (nonEmpty records) =
      (decompressDataRecordList records).filter fun entry => isStart records entry.1.startTime := by
  have hfilter : nonEmpty records = records.filter fun dr => isStart records dr.startTime :=
    List.filter_congr fun dr hdr => (isStart_eq hempty hdr).symm
  rw [decompressDataRecordList, hfilter]
  exact (SortedMap.filter_putAll (isStart records) SortedMap.ordered_nil).symm

/-- **Empty records** that are apart change nothing: their entries have no values. -/
private theorem samplesRead_nonEmpty {records : List (DataRecord V)} (hempty : EmptyApart records)
    (numberSamples : ℤ) :
    (samplesRead (nonEmpty records) numberSamples).Perm (samplesRead records numberSamples) := by
  have hnone : ∀ entry ∈ decompressDataRecordList records,
      isStart records entry.1.startTime = false → timedValues entry.1 entry.2 = [] := by
    intro entry hentry hstart
    rcases SortedMap.exists_mem_of_mem_putAll SortedMap.ordered_nil hentry with
      ⟨dr, hdr, heq, hvalues⟩ | hentry
    · rw [← heq, isStart_eq hempty hdr] at hstart
      have hnil : dr.values = [] := by simpa using hstart
      rw [← hvalues, decompressDataRecord, hnil]
      rfl
    · exact absurd hentry List.not_mem_nil
  have hflat := flatMap_filter hnone
  rw [← decompressDataRecordList_nonEmpty hempty] at hflat
  refine (samplesRead_perm_entries _ numberSamples).trans ?_
  rw [hflat]
  exact (samplesRead_perm_entries _ numberSamples).symm

/-- **The samples of a collection of records.** They are always sorted by time. They are the right
ones if the starts of the records are different and all records are timed. Empty records do not
matter as long as they do not have the start of another record: then the samples are the right ones
exactly if the starts of the records with values are different and these records are timed. -/
theorem samplesRead_perm (records : List (DataRecord V)) (numberSamples : ℤ) :
    ((samplesRead records numberSamples).map Prod.fst).Pairwise (· ≤ ·) ∧
      ((records.map DataRecord.startTime).Nodup → (∀ dr ∈ records, dr.Timed) →
        (samplesRead records numberSamples).Perm (samplesExpected records)) ∧
      (EmptyApart records →
        ((samplesRead records numberSamples).Perm (samplesExpected records) ↔
          ((nonEmpty records).map DataRecord.startTime).Nodup ∧
            ∀ dr ∈ nonEmpty records, dr.Timed)) := by
  refine ⟨?_, fun hstarts htimed => perm_samplesExpected hstarts htimed numberSamples,
    fun hempty => ?_⟩
  · have hsorted := (isStableSort_mergeSort SeedSample.ts (newSamples numberSamples
      ((decompressDataRecordList records).flatMap fun entry => timedValues entry.1 entry.2))).1
    rw [List.pairwise_map] at hsorted
    rw [samplesRead, List.map_map, List.pairwise_map]
    refine hsorted.imp fun hle => ?_
    exact Int.mul_le_mul_of_nonneg_left hle (by decide)
  · have hread := samplesRead_nonEmpty hempty numberSamples
    rw [← samplesExpected_nonEmpty]
    constructor
    · intro h
      exact timed_of_perm (fun dr hdr => (mem_nonEmpty.mp hdr).2) (hread.trans h)
    · rintro ⟨hstarts, htimed⟩
      exact hread.symm.trans (perm_samplesExpected hstarts htimed numberSamples)

/-- Four samples at three per second: the last one is a millisecond early. -/
def threePerSecond : DataRecord ℕ := ⟨0, 3, [1, 2, 3, 4], Nat.succ_pos 2, by decide⟩

/-- Two records with one sample each, and the same start. -/
def sameStart : List (DataRecord ℕ) :=
  [⟨0, 50, [1], Nat.succ_pos 49, by decide⟩, ⟨0, 50, [2], Nat.succ_pos 49, by decide⟩]

/-- A sample that has the wrong time, and one that is lost. -/
theorem samples_wrong_or_lost :
    ((samplesRead [threePerSecond] 0).Perm [(0, 1), (3330, 2), (6660, 3), (9990, 4)] ∧
        samplesExpected [threePerSecond] = [(0, 1), (3330, 2), (6660, 3), (10000, 4)] ∧
        ¬ (samplesRead [threePerSecond] 0).Perm (samplesExpected [threePerSecond])) ∧
      (samplesRead sameStart 0).Perm [(0, 2)] ∧ samplesExpected sameStart = [(0, 1), (0, 2)] ∧
        ¬ (samplesRead sameStart 0).Perm (samplesExpected sameStart) := by
  have hthree := samplesRead_perm_entries [threePerSecond] 0
  have hsame := samplesRead_perm_entries sameStart 0
  refine ⟨⟨hthree.trans (List.Perm.of_eq (by decide)), by decide, fun h => ?_⟩,
    hsame.trans (List.Perm.of_eq (by decide)), by decide, fun h => ?_⟩
  · exact absurd (hthree.symm.trans h) (by decide)
  · exact absurd (hsame.symm.trans h) (by decide)

end MiaVita.Results
