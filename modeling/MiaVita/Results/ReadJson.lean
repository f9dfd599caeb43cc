import MiaVita.KernelSender.Codec
import MiaVita.KernelSender.Receiver
import MiaVita.Lib.Regex

/-!
# Reading the receiver's file (`results/resultsReader`, `ReadJson.java`)

The reader takes the file line by line and looks for a record in each line of more than four
characters. The lines are not the records: a session starts with a brace and a comma on the line
that the session before has left open, so that the last record of a session has them behind it.

`getSamples_fileOf` says that the reader nevertheless finds every packet of every session. The
pattern asks for a record and not for a whole line, and the line with which the file starts is too
short to be looked at. The numbers survive too: a channel has 24 bits, as many as the significand of
a `float`, and a timestamp of 64 bits is divided before it becomes a `long`.
-/

namespace MiaVita.Results

/-! ### Numbers of the reader -/

/-- A `float` that is the value of an integer numeral. -/
inductive JavaFloat where
  | finite (value : ℤ)
  | infinity (negative : Bool)
  deriving DecidableEq

/-- `m` without its last `s` bits, to the nearest and to an even one if there are two. -/
def roundShift (m s : ℕ) : ℕ :=
  let q := m / 2 ^ s
  let r := m % 2 ^ s
  if 2 * r < 2 ^ s ∨ 2 * r = 2 ^ s ∧ q % 2 = 0 then q else q + 1

/-- The nearest number of 24 significant bits. -/
def nearest (m : ℕ) : ℕ :=
  let s := m.log2 + 1 - 24
  roundShift m s * 2 ^ s

/-- The `float` nearest to an integer. -/
def floatOfInt (z : ℤ) : JavaFloat :=
  if nearest z.natAbs < 2 ^ 128 then .finite (z.sign * nearest z.natAbs) else .infinity (z < 0)

/-- `Float.parseFloat`, of an integer numeral. -/
def parseFloat (cs : List Char) : JavaFloat := floatOfInt (Decimal.toInt cs)

private theorem nearest_eq_self {m : ℕ} (h : m < 2 ^ 24) : nearest m = m := by
  have hshift : m.log2 + 1 - 24 = 0 := by
    by_cases hm : m = 0
    · rw [hm]
      decide
    · have := (Nat.log2_lt hm).mpr h
      omega
  simp [nearest, roundShift, hshift, Nat.mod_one]

/-- **An integer of 24 bits is a `float`.** -/
theorem floatOfInt_eq {z : ℤ} (h : z.natAbs < 2 ^ 24) : floatOfInt z = .finite z := by
  rw [floatOfInt, nearest_eq_self h, if_pos (by omega), Int.sign_mul_natAbs]

private theorem parseFloat_ofInt {z : ℤ} (h : z.natAbs < 2 ^ 24) :
    parseFloat (Decimal.ofInt z) = .finite z := by
  rw [parseFloat, Decimal.toInt_ofInt, floatOfInt_eq h]

/-! ### The reader -/

/-- `Sample`, without its number. -/
structure Sample where
  ts : Int64
  v : JavaFloat

/-- What the reader throws: no match where one is asked for, or no such group or sample. -/
inductive JavaException where
  | illegalState
  | indexOutOfBounds

/-- One or more digits. -/
def digits : Regex := .oneOrMore Char.isDigit

/-- Digits with or without a minus sign. -/
def integer : Regex := .append (.optional (.literal ['-'])) digits

/-- The pattern of a record. -/
def pattern : Regex :=
  .seq [.literal "\"".toList, .group 1 digits, .literal ":".toList, .group 2 digits,
    .literal "\":\x7b\"ts\":".toList, .group 3 digits, .literal ",\"1\":".toList, .group 4 integer,
    .literal ",\"2\":".toList, .group 5 integer, .literal ",\"3\":".toList, .group 6 integer,
    .literal ",\"4\": ".toList, .group 7 integer, .literal "\x7d".toList,
    .optional (.literal ",".toList)]

/-- `Matcher.group` after a match: all seven groups have captured something. -/
def groupOf (g : Regex.Groups) (i : ℕ) : Except JavaException (List Char) :=
  match g i with
  | none => .error .indexOutOfBounds
  | some text => .ok text

/-- The sample in a line. -/
def readSample (channel : ℕ) (line : List Char) : Except JavaException Sample :=
  match pattern.find line with
  | none => .error .illegalState
  | some g => do
    let timestamp ← groupOf g 3
    let value ← groupOf g (channel + 3)
    let timestampOnlyMiliSeconds := Nat.ofDigitChars 10 timestamp 0 / 1000
    return ⟨Int64.ofNat timestampOnlyMiliSeconds - 1000 * 60 * 60, parseFloat value⟩

/-- `BufferedReader.readLine`, called until it returns `null`; `line` is what has been read of the
line so far. -/
def readLines (line : List Char) : List Char → List (List Char)
  | [] => if line = [] then [] else [line]
  | '\r' :: '\n' :: cs => line :: readLines [] cs
  | '\r' :: cs => line :: readLines [] cs
  | '\n' :: cs => line :: readLines [] cs
  | c :: cs => readLines (line ++ [c]) cs

/-- The loop of `getAllSamples`. -/
def readSamples (channel : ℕ) : List (List Char) → Except JavaException (List Sample)
  | [] => .ok []
  | line :: lines =>
    if line.length > 4 then do
      let sample ← readSample channel line
      let samples ← readSamples channel lines
      return sample :: samples
    else readSamples channel lines

/-- `getAllSamples`, which is what `getSamples` returns. The rate is computed from the first two
samples, so that there have to be two. -/
def getAllSamples (file : String) (channel : ℕ) : Except JavaException (List Sample) := do
  let sampleList ← readSamples channel (readLines [] file.toList)
  if sampleList.length < 2 then .error .indexOutOfBounds
  else .ok (sampleList.mergeSort fun s₁ s₂ => s₁.ts ≤ s₂.ts)

/-! ### A record is found -/

/-- The channels of a record. -/
def channelOf (r : JsonRecord) : Fin 4 → ℤ
  | 0 => r.ch1
  | 1 => r.ch2
  | 2 => r.ch3
  | 3 => r.ch4

section Found

variable {l rest : List Char} {g : Regex.Groups}

/-- A number, and a piece that does not start with a digit. -/
private theorem matches_digits (hl : l.head?.map Char.isDigit = some false) (n : ℕ) :
    digits.Matches (Decimal.ofNat n ++ (l ++ rest)) g (l ++ rest) g := by
  obtain ⟨c, hc, hdigit⟩ := Option.map_eq_some_iff.mp hl
  refine Regex.matches_oneOrMore (Decimal.ofNat_ne_nil n)
    (fun c hc => Decimal.isDigit_of_mem_ofNat hc) (fun c' hc' => ?_) g
  rw [List.head?_append, hc] at hc'
  cases hc'
  exact hdigit

private theorem matches_integer (hl : l.head?.map Char.isDigit = some false) (z : ℤ) :
    integer.Matches (Decimal.ofInt z ++ (l ++ rest)) g (l ++ rest) g := by
  rw [Decimal.ofInt]
  split_ifs with hz
  · -- no sign: the numeral starts with a digit
    have hnone : Regex.dropLiteral ['-'] (Decimal.ofNat z.toNat ++ (l ++ rest)) = none := by
      obtain ⟨d, ds, hds⟩ := List.exists_cons_of_ne_nil (Decimal.ofNat_ne_nil z.toNat)
      have hd : d.isDigit = true := Decimal.isDigit_of_mem_ofNat (by rw [hds]; simp)
      have hne : '-' ≠ d := by
        rintro rfl
        exact absurd hd (by decide)
      rw [hds, List.cons_append, Regex.dropLiteral, if_neg hne]
    exact (Regex.matches_optional_literal_none hnone g).append (matches_digits hl _)
  · exact (Regex.matches_literal ['-'] _ g).optional.append (matches_digits hl _)

end Found

/-- What the groups capture in a record. -/
def captured (r : JsonRecord) : Regex.Groups :=
  let g₃ := Function.update (Function.update (Function.update Regex.Groups.empty
    1 (Decimal.ofNat r.id)) 2 (Decimal.ofNat r.seq)) 3 (Decimal.ofNat r.ts)
  Function.update (Function.update (Function.update (Function.update g₃ 4 (Decimal.ofInt r.ch1))
    5 (Decimal.ofInt r.ch2)) 6 (Decimal.ofInt r.ch3)) 7 (Decimal.ofInt r.ch4)

/-- **The pattern finds a record** at the start of a line, whatever is behind it. -/
theorem find_record (r : JsonRecord) (rest : List Char) :
    pattern.find (r.text.toList ++ rest) = some (captured r) := by
  obtain ⟨rest', hcomma⟩ :=
    Regex.exists_matches_optional_literal ",".toList rest (captured r)
  refine Regex.Matches.find rest' ?_
  rw [JsonRecord.toList_text_append]
  refine .field (matches_digits rfl _) ?_
  refine .field (matches_digits rfl _) ?_
  refine .field (matches_digits rfl _) ?_
  refine .field (matches_integer rfl _) ?_
  refine .field (matches_integer rfl _) ?_
  refine .field (matches_integer rfl _) ?_
  refine .field (matches_integer rfl _) ?_
  exact .seq_cons (Regex.matches_literal _ _ _) (.seq_cons hcomma (Regex.matches_seq_nil _ _))

private theorem captured_channel (r : JsonRecord) (c : Fin 4) :
    captured r (c + 1 + 3) = some (Decimal.ofInt (channelOf r c)) := by
  match c with
  | 0 | 1 | 2 | 3 => rfl

/-- The sample of a record. -/
def sampleOf (c : Fin 4) (r : JsonRecord) : Sample :=
  ⟨Int64.ofNat (r.ts / 1000) - 1000 * 60 * 60, parseFloat (Decimal.ofInt (channelOf r c))⟩

private theorem readSample_record (c : Fin 4) (r : JsonRecord) (rest : List Char) :
    readSample (c + 1) (r.text.toList ++ rest) = .ok (sampleOf c r) := by
  simp only [readSample, find_record, groupOf, captured_channel]
  change Except.ok (Sample.mk (Int64.ofNat (Nat.ofDigitChars 10 (Decimal.ofNat r.ts) 0 / 1000) - _)
    _) = _
  rw [Decimal.ofDigitChars_ofNat]
  rfl

/-! ### Lines -/

/-- No character ends a line. -/
def OneLine (cs : List Char) : Prop := ∀ c ∈ cs, c ≠ '\r' ∧ c ≠ '\n'

instance (cs : List Char) : Decidable (OneLine cs) := List.decidableBAll _ cs

private theorem readLines_append {cs : List Char} (h : OneLine cs) (line rest : List Char) :
    readLines line (cs ++ rest) = readLines (line ++ cs) rest := by
  induction cs generalizing line with
  | nil => simp
  | cons c cs ih =>
    obtain ⟨⟨hr, hn⟩, hcs⟩ := List.forall_mem_cons.mp h
    have hstep : readLines line (c :: (cs ++ rest)) = readLines (line ++ [c]) (cs ++ rest) := by
      simp [readLines, hr]
    rw [List.cons_append, hstep, ih hcs, List.append_assoc, List.singleton_append]

private theorem oneLine_append {cs cs' : List Char} (h : OneLine cs) (h' : OneLine cs') :
    OneLine (cs ++ cs') :=
  fun c hc => (List.mem_append.mp hc).elim (h c) (h' c)

private theorem oneLine_ofNat (n : ℕ) : OneLine (Decimal.ofNat n) := by
  intro c hc
  have hdigit := Decimal.isDigit_of_mem_ofNat hc
  constructor
  · rintro rfl
    exact absurd hdigit (by decide)
  · rintro rfl
    exact absurd hdigit (by decide)

private theorem oneLine_ofInt (z : ℤ) : OneLine (Decimal.ofInt z) := by
  rw [Decimal.ofInt]
  split_ifs
  · exact oneLine_ofNat _
  · exact oneLine_append (by decide : OneLine ['-']) (oneLine_ofNat _)

/-- A record does not end its line. -/
private theorem oneLine_text (r : JsonRecord) : OneLine r.text.toList := by
  rw [← List.append_nil r.text.toList, r.toList_text_append]
  refine oneLine_append (by decide) (oneLine_append (oneLine_ofNat _) ?_)
  refine oneLine_append (by decide) (oneLine_append (oneLine_ofNat _) ?_)
  refine oneLine_append (by decide) (oneLine_append (oneLine_ofNat _) ?_)
  refine oneLine_append (by decide) (oneLine_append (oneLine_ofInt _) ?_)
  refine oneLine_append (by decide) (oneLine_append (oneLine_ofInt _) ?_)
  refine oneLine_append (by decide) (oneLine_append (oneLine_ofInt _) ?_)
  exact oneLine_append (by decide) (oneLine_append (oneLine_ofInt _) (by decide))

private theorem four_lt_length_text (r : JsonRecord) (rest : List Char) :
    4 < (r.text.toList ++ rest).length := by
  rw [List.length_append, String.length_toList, r.length_text]
  omega

/-- A line with a record in it. -/
private theorem readSamples_record (c : Fin 4) (r : JsonRecord) (rest : List Char)
    {lines : List (List Char)} {samples : List Sample}
    (h : readSamples (c + 1) lines = .ok samples) :
    readSamples (c + 1) ((r.text.toList ++ rest) :: lines) = .ok (sampleOf c r :: samples) := by
  rw [readSamples, if_pos (four_lt_length_text r rest), readSample_record, h]
  rfl

/-! ### Sessions -/

/-- What is left of a file after a record, with the samples in it. -/
def Continues (c : Fin 4) (rest : List Char) (samples : List Sample) : Prop :=
  ∀ r : JsonRecord, readSamples (c + 1) (readLines r.text.toList rest) =
    .ok (sampleOf c r :: samples)

/-- The samples of some packets. -/
def samplesOf (c : Fin 4) (ps : List Packet) : List Sample :=
  ps.map fun p => sampleOf c (jsonRecord p)

/-- The end of the file. -/
private theorem continues_nil (c : Fin 4) : Continues c [] [] := by
  intro r
  have hne : r.text.toList ≠ [] := by
    intro h
    have := four_lt_length_text r []
    rw [h] at this
    exact absurd this (by decide)
  rw [readLines, if_neg hne]
  simpa using readSamples_record c r [] rfl

/-- A line feed and a record. -/
private theorem Continues.record {c : Fin 4} {rest : List Char} {samples : List Sample}
    (h : Continues c rest samples) (ps : List Packet) :
    Continues c ((String.join (ps.map (writeJson · 1))).toList ++ rest)
      (samplesOf c ps ++ samples) := by
  induction ps with
  | nil => simpa [samplesOf] using h
  | cons p ps ih =>
    intro r
    have hline : readLines r.text.toList ((String.join ((p :: ps).map (writeJson · 1))).toList ++
        rest) = r.text.toList :: readLines (jsonRecord p).text.toList
          ((String.join (ps.map (writeJson · 1))).toList ++ rest) := by
      have htext : (String.join ((p :: ps).map (writeJson · 1))).toList ++ rest =
          '\n' :: ((jsonRecord p).text.toList ++
            ((String.join (ps.map (writeJson · 1))).toList ++ rest)) := by
        simp [toList_writeJson_ne_zero p (by decide : (1 : UInt8) ≠ 0)]
      rw [htext, readLines, readLines_append (oneLine_text _), List.nil_append]
    rw [hline]
    simpa [samplesOf] using readSamples_record c r [] (ih (jsonRecord p))

/-- The header of a session, behind an open line. -/
private theorem readLines_session (line rest : List Char) (p : Packet) (ps : List Packet) :
    readLines line ('{' :: ((sessionText (p :: ps)).toList ++ rest)) =
      (line ++ ['{', ',']) :: readLines (jsonRecord p).text.toList
        ((String.join (ps.map (writeJson · 1))).toList ++ rest) := by
  have htext : '{' :: ((sessionText (p :: ps)).toList ++ rest) = ['{', ','] ++ '\n' ::
      ((jsonRecord p).text.toList ++ ((String.join (ps.map (writeJson · 1))).toList ++ rest)) := by
    simp [sessionText, toList_writeJson_zero]
  rw [htext, readLines_append (by decide), readLines, readLines_append (oneLine_text _),
    List.nil_append]

/-- **Any number of sessions** behind a record. -/
theorem continues_sessions (c : Fin 4) (sessions : List (List Packet))
    (h : ∀ ps ∈ sessions, ps ≠ []) :
    Continues c (sessions.flatMap fun ps => '{' :: (sessionText ps).toList)
      (samplesOf c sessions.flatten) := by
  induction sessions with
  | nil => exact continues_nil c
  | cons ps sessions ih =>
    obtain ⟨hne, hrest⟩ := List.forall_mem_cons.mp h
    obtain ⟨p, ps, rfl⟩ := List.exists_cons_of_ne_nil hne
    intro r
    rw [List.flatMap_cons, List.cons_append, readLines_session]
    have hrecords := (ih hrest).record ps (jsonRecord p)
    have := readSamples_record c r ['{', ','] hrecords
    simpa [samplesOf] using this

/-- The file after some runs of `serve`. -/
def fileOf (sessions : List (List (List UInt8))) : String := sessions.foldl serve ""

/-- The packets of all runs, in the order in which they were received. -/
def packetsOf (sessions : List (List (List UInt8))) : List Packet :=
  sessions.flatMap receivedPackets

private theorem toList_foldl_serve (file : String) (sessions : List (List (List UInt8))) :
    (sessions.foldl serve file).toList = file.toList ++
      (sessions.map receivedPackets).flatMap fun ps => '{' :: (sessionText ps).toList := by
  induction sessions generalizing file with
  | nil => simp
  | cons received sessions ih =>
    rw [List.foldl_cons, ih, serve_eq]
    simp

/-- **Every record of the file is found**, in order. -/
theorem readSamples_fileOf (c : Fin 4) (sessions : List (List (List UInt8)))
    (h : ∀ received ∈ sessions, receivedPackets received ≠ []) :
    readSamples (c + 1) (readLines [] (fileOf sessions).toList) =
      .ok (samplesOf c (packetsOf sessions)) := by
  have hne : ∀ ps ∈ sessions.map receivedPackets, ps ≠ [] := by
    simpa using h
  rw [fileOf, toList_foldl_serve, packetsOf, List.flatMap_def (f := receivedPackets)]
  generalize sessions.map receivedPackets = packets at hne
  rw [String.toList_empty, List.nil_append]
  cases packets with
  | nil => rfl
  | cons ps packets =>
    obtain ⟨hps, hrest⟩ := List.forall_mem_cons.mp hne
    obtain ⟨p, ps, rfl⟩ := List.exists_cons_of_ne_nil hps
    -- the first line is too short to be looked at
    rw [List.flatMap_cons, List.cons_append, readLines_session, readSamples, if_neg (by decide)]
    have hrecords := (continues_sessions c packets hrest).record ps (jsonRecord p)
    simpa [samplesOf] using hrecords

/-! ### The values -/

theorem toNat_sampleWord_lt (byte₀ byte₁ byte₂ : UInt8) :
    (sampleWord byte₀ byte₁ byte₂).toNat < 2 ^ 24 := by
  have hval : Bytes.leVal [byte₀, byte₁, byte₂, 0] < 2 ^ 24 := by
    have h₀ := byte₀.toNat_lt
    have h₁ := byte₁.toNat_lt
    have h₂ := byte₂.toNat_lt
    simp only [Bytes.leVal, UInt8.toNat_zero]
    omega
  rw [sampleWord, loadU32, UInt32.toNat_ofNat']
  exact lt_of_le_of_lt (Nat.mod_le _ _) hval

/-- A channel has 24 bits. -/
private theorem natAbs_channelOf_lt (p : Packet) (c : Fin 4) :
    (channelOf (jsonRecord p) c).natAbs < 2 ^ 24 := by
  have hlt : ∀ byte₀ byte₁ byte₂,
      (asInt (signExtend (sampleWord byte₀ byte₁ byte₂))).natAbs < 2 ^ 24 := by
    intro byte₀ byte₁ byte₂
    have h := toNat_sampleWord_lt byte₀ byte₁ byte₂
    rw [asInt_signExtend h]
    split_ifs <;> omega
  match c with
  | 0 | 1 | 2 | 3 =>
    simp only [channelOf, jsonRecord]
    exact hlt _ _ _

/-- The time of a sample, in milliseconds, and its value. -/
def Sample.read (s : Sample) : ℤ × JavaFloat := (s.ts.toInt, s.v)

/-- What is to be read of a packet. -/
def expected (c : Fin 4) (p : Packet) : ℤ × JavaFloat :=
  ((jsonRecord p).ts / 1000 - 3600000, .finite (channelOf (jsonRecord p) c))

theorem read_sampleOf (c : Fin 4) (p : Packet) :
    (sampleOf c (jsonRecord p)).read = expected c p := by
  have hts : (jsonRecord p).ts < 2 ^ 64 := UInt64.toNat_lt _
  have htime : (sampleOf c (jsonRecord p)).ts.toInt = (jsonRecord p).ts / 1000 - 3600000 := by
    have hhour : (1000 * 60 * 60 : Int64).toInt = 3600000 := by decide
    rw [sampleOf, Int64.toInt_sub, hhour, Int64.toInt_ofNat_of_lt (by omega),
      Int.bmod_eq_of_le (by omega) (by omega)]
    rfl
  rw [Sample.read, expected, htime, sampleOf, parseFloat_ofInt (natAbs_channelOf_lt p c)]

/-! ### Sorting -/

section Sorting

variable {α β κ : Type*} [LinearOrder κ]

/-- **A stable sort**: sorted by the key, and those with the same key in their old order. -/
def IsStableSort (key : α → κ) (result input : List α) : Prop :=
  (result.map key).Pairwise (· ≤ ·) ∧
    ∀ k, result.filter (fun a => key a = k) = input.filter fun a => key a = k

theorem isStableSort_mergeSort (key : α → κ) (input : List α) :
    IsStableSort key (input.mergeSort fun a b => key a ≤ key b) input := by
  have htrans : ∀ a b c : α, decide (key a ≤ key b) = true → decide (key b ≤ key c) = true →
      decide (key a ≤ key c) = true := by
    intro a b c hab hbc
    exact decide_eq_true ((of_decide_eq_true hab).trans (of_decide_eq_true hbc))
  have htotal : ∀ a b : α, (decide (key a ≤ key b) || decide (key b ≤ key a)) = true := by
    intro a b
    simpa using le_total (key a) (key b)
  constructor
  · rw [List.pairwise_map]
    exact (List.pairwise_mergeSort htrans htotal input).imp of_decide_eq_true
  · intro k
    -- those with key `k` are in order, so the sort keeps them as a sublist; there are no others
    have hsorted : (input.filter fun a => key a = k).Pairwise
        fun a b => decide (key a ≤ key b) = true := by
      refine List.pairwise_filter.mpr (List.pairwise_of_forall fun a b ha hb => ?_)
      rw [of_decide_eq_true ha, of_decide_eq_true hb]
      exact decide_eq_true le_rfl
    have hsub := List.sublist_mergeSort htrans htotal hsorted List.filter_sublist
    have hfilter := hsub.filter fun a => key a = k
    simp only [List.filter_filter, Bool.and_self] at hfilter
    refine (hfilter.eq_of_length ?_).symm
    exact ((List.mergeSort_perm input _).filter _).length_eq.symm

theorem IsStableSort.map {key : β → κ} {f : α → β} {result input : List α}
    (h : IsStableSort (key ∘ f) result input) :
    IsStableSort key (result.map f) (input.map f) := by
  refine ⟨?_, fun k => ?_⟩
  · rw [List.map_map]
    exact h.1
  · rw [List.filter_map, List.filter_map]
    exact congrArg (List.map f) (h.2 k)

end Sorting

/-- **The reader reads what the receiver wrote.** Whatever was received in any number of sessions,
in each of them a packet or more and two in all: the samples that are read from the file are those
of the packets, each with its channel as it is and its time in milliseconds, sorted by time, and in
the order of reception where the time is the same. -/
theorem getSamples_fileOf (sessions : List (List (List UInt8)))
    (hne : ∀ received ∈ sessions, receivedPackets received ≠ [])
    (htwo : 2 ≤ (packetsOf sessions).length) (c : Fin 4) :
    ∃ samples, getAllSamples (fileOf sessions) (c + 1) = .ok samples ∧
      IsStableSort Prod.fst (samples.map Sample.read) ((packetsOf sessions).map (expected c)) := by
  have hle : (fun s₁ s₂ : Sample => decide (s₁.ts ≤ s₂.ts)) =
      fun s₁ s₂ => decide ((Prod.fst ∘ Sample.read) s₁ ≤ (Prod.fst ∘ Sample.read) s₂) := by
    funext s₁ s₂
    exact decide_eq_decide.mpr Int64.le_iff_toInt_le
  have hexpected : (packetsOf sessions).map (expected c) =
      (samplesOf c (packetsOf sessions)).map Sample.read := by
    rw [samplesOf, List.map_map]
    exact List.map_congr_left fun p _ => (read_sampleOf c p).symm
  have hlength : ¬ (samplesOf c (packetsOf sessions)).length < 2 := by
    rw [samplesOf, List.length_map]
    omega
  refine ⟨(samplesOf c (packetsOf sessions)).mergeSort fun s₁ s₂ => s₁.ts ≤ s₂.ts, ?_, ?_⟩
  · rw [getAllSamples, readSamples_fileOf c sessions hne]
    exact if_neg hlength
  · rw [hexpected, hle]
    exact (isStableSort_mergeSort _ _).map

/-- Two sessions with a packet each. -/
theorem getSamples_two_sessions :
    ∃ samples, getAllSamples (fileOf [[List.replicate 25 0], [List.replicate 25 255]]) 4 =
        .ok samples ∧
      IsStableSort Prod.fst (samples.map Sample.read)
        ((packetsOf [[List.replicate 25 0], [List.replicate 25 255]]).map (expected 3)) :=
  getSamples_fileOf [[List.replicate 25 0], [List.replicate 25 255]]
    (List.forall_mem_cons.mpr ⟨nofun, List.forall_mem_singleton.mpr nofun⟩) (by decide) 3

end MiaVita.Results
