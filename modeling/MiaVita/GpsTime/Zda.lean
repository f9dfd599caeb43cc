import MiaVita.GpsTime.Sentences
import MiaVita.Lib.Calendar

/-!
# The time of a GPZDA sentence (`gps_time/trimble_condor/gps_time.c`)

A GPZDA sentence has the time and the date in UTC: `GPZDA,hhmmss.sss,dd,mm,yyyy,...`. The driver
fills a broken-down time and gives it to `mktime`. Of the fields of `struct tm` the year counts from
1900, which the driver respects, and the month from 0, which it does not: January is stored as month
1. `mktime` has no objection, not even to month 12, which it takes as January of the year after. So
the time that is stored is the right one plus the length of the month that the sentence names
(`zda_month_late`), for all dates.

The assumptions on `mktime` are those of a system in UTC: it counts the seconds of the proleptic
Gregorian calendar, with fields out of range carried over, and the fields that the driver leaves
alone have no influence.
-/

namespace MiaVita.Condor

open Memory Scanf Calendar Fallible
open LassenIq (MsgRing msgBufSize)

/-! ### The time that is stored -/

/-- `mktime`. A field that has not been assigned gives no particular result. -/
def mktime (tm : Tm) : Option ℤ := do
  let hour ← tm.tmHour
  let min ← tm.tmMin
  let sec ← tm.tmSec
  let day := firstDay (12 * (tm.tmYear + 1900) + tm.tmMon) - firstDay (12 * 1970) + (tm.tmMday - 1)
  return 86400 * day + 3600 * hour + 60 * min + sec

/-- `struct timeval`. -/
structure Timeval where
  tvSec : ℤ
  tvUsec : ℤ
  deriving DecidableEq

/-- What a sentence with the time assigns to `*current_time`. -/
def timeOf (text : List UInt8) : Except Fault (Option Timeval) := do
  let brokenTime ← readZda text
  return (mktime brokenTime).map fun tvSec => { tvSec, tvUsec := 0 }

/-! ### Dates and their sentences -/

/-- A date from 1970 to 9999, and a time of that day. -/
structure DateTime where
  year : ℕ
  month : ℕ
  day : ℕ
  hour : ℕ
  minute : ℕ
  second : ℕ
  year_range : 1970 ≤ year ∧ year ≤ 9999
  month_range : 1 ≤ month ∧ month ≤ 12
  day_range : 1 ≤ day ∧ (day : ℤ) ≤ lengthInYear year (month - 1)
  hour_lt : hour < 24
  minute_lt : minute < 60
  second_lt : second < 60

/-- The days from the first of January 1970: those of the months in between, and those of the month
itself. -/
def DateTime.days (d : DateTime) : ℤ :=
  ∑ k ∈ Finset.range (12 * (d.year - 1970) + (d.month - 1)), monthLength (12 * 1970 + k) +
    (d.day - 1)

/-- **The seconds** from the first of January 1970, 00:00:00. -/
def DateTime.seconds (d : DateTime) : ℤ :=
  86400 * d.days + 3600 * d.hour + 60 * d.minute + d.second

/-- The fraction of a second: nothing, or a point and digits. -/
def IsFraction (text : List UInt8) : Prop :=
  text = [] ∨ ∃ digits, text = 0x2e :: digits ∧ ∀ b ∈ digits, ∃ v, digit? 10 b = some v

/-- The text of a sentence with the time: behind the year there may be anything. -/
def DateTime.zda (d : DateTime) (fraction rest : List UInt8) : List UInt8 :=
  gpsMsgTime ++ comma ::
    (decimal 2 d.hour ++ (decimal 2 d.minute ++ (decimal 2 d.second ++ fraction)) ++ comma ::
      (decimal 2 d.day ++ comma :: (decimal 2 d.month ++ comma ::
        (decimal 4 d.year ++ comma :: rest))))

section Ranges

variable (d : DateTime)

private theorem DateTime.day_lt : d.day < 10 ^ 2 := by
  have hle := d.day_range.2
  have hlength := (lengthInYear_range d.year (d.month - 1)).2
  omega

private theorem DateTime.month_lt : d.month < 10 ^ 2 := d.month_range.2.trans_lt (by decide)

private theorem DateTime.year_lt : d.year < 10 ^ 4 := d.year_range.2.trans_lt (by decide)

end Ranges

/-! ### Reading -/

private theorem digit?_comma : digit? 10 comma = none := by decide

private theorem comma_notMem_decimal (k n : ℕ) : comma ∉ decimal k n := fun h => by
  obtain ⟨v, hv⟩ := digit?_of_mem_decimal h
  cases digit?_comma.symm.trans hv

private theorem IsFraction.comma_notMem {text : List UInt8} (h : IsFraction text) :
    comma ∉ text := by
  obtain rfl | ⟨digits, rfl, hdigits⟩ := h
  · exact List.not_mem_nil
  · rw [List.mem_cons]
    rintro (hpoint | hmem)
    · exact absurd hpoint (by decide)
    · obtain ⟨v, hv⟩ := hdigits comma hmem
      cases digit?_comma.symm.trans hv

/-- The number of a field ends at the comma. -/
private theorem atoi_field {k n : ℕ} (hk : 0 < k) (hn : n < 10 ^ k) (rest : List UInt8) :
    atoi (decimal k n ++ comma :: rest) = n :=
  atoi_decimal hk hn (digits_cons_of_none digit?_comma)

private theorem scanTime_decimal {h m s : ℕ} (hh : h < 100) (hm : m < 100) (hs : s < 100)
    (rest : List UInt8) :
    scanTime (decimal 2 h ++ (decimal 2 m ++ (decimal 2 s ++ rest))) =
      (some ↑h, some ↑m, some ↑s) := by
  rw [scanTime, scanDecimal_decimal (by decide) hh]
  dsimp only
  rw [scanDecimal_decimal (by decide) hm]
  dsimp only
  rw [scanDecimal_decimal (by decide) hs]
  rfl

/-- **The fields** that the driver reads. -/
theorem readZda_zda (d : DateTime) {fraction : List UInt8} (hfraction : IsFraction fraction)
    (rest : List UInt8) :
    readZda (d.zda fraction rest) = .ok ⟨some d.hour, some d.minute, some d.second, d.day, d.month,
      d.year - 1900⟩ := by
  have htime : comma ∉
      decimal 2 d.hour ++ (decimal 2 d.minute ++ (decimal 2 d.second ++ fraction)) := by
    simp [comma_notMem_decimal, hfraction.comma_notMem]
  have hscan : ∀ rest', scanTime
      (decimal 2 d.hour ++ (decimal 2 d.minute ++ (decimal 2 d.second ++ fraction)) ++ rest') =
        (some ↑d.hour, some ↑d.minute, some ↑d.second) := by
    intro rest'
    rw [List.append_assoc, List.append_assoc, List.append_assoc]
    exact scanTime_decimal (d.hour_lt.trans (by decide)) (d.minute_lt.trans (by decide))
      (d.second_lt.trans (by decide)) _
  have hstart : (d.zda fraction rest).drop 0 = gpsMsgTime ++ comma :: _ := rfl
  obtain ⟨hx₁, hrest₁⟩ := nextComma_eq hstart (by decide)
  obtain ⟨hx₂, hrest₂⟩ := nextComma_eq hrest₁ htime
  obtain ⟨hx₃, hrest₃⟩ := nextComma_eq hrest₂ (comma_notMem_decimal _ _)
  obtain ⟨hx₄, hrest₄⟩ := nextComma_eq hrest₃ (comma_notMem_decimal _ _)
  rw [readZda, hx₁, ok_bind, hrest₁, hscan]
  dsimp only
  rw [hx₂, ok_bind, hrest₂, hx₃, ok_bind, hrest₃, hx₄, ok_bind, hrest₄,
    atoi_field (by decide) d.day_lt, atoi_field (by decide) d.month_lt,
    atoi_field (by decide) d.year_lt]
  rfl

/-- The month of a date, counted through. -/
private theorem DateTime.month_eq (d : DateTime) :
    (12 * 1970 + ((12 * (d.year - 1970) + (d.month - 1) : ℕ) : ℤ)) = 12 * d.year + d.month - 1 := by
  have hyear := d.year_range
  have hmonth := d.month_range
  omega

/-- **A month late**: the time that is stored for a date. -/
theorem timeOf_zda (d : DateTime) {fraction : List UInt8} (hfraction : IsFraction fraction)
    (rest : List UInt8) :
    timeOf (d.zda fraction rest) =
      .ok (some ⟨d.seconds + 86400 * lengthInYear d.year (d.month - 1), 0⟩) := by
  have hmonth := d.month_range
  have hthis : monthLength (12 * d.year + d.month - 1) = lengthInYear d.year (d.month - 1) := by
    rw [monthLength]
    congr <;> omega
  have hnext := firstDay_succ (12 * d.year + d.month - 1)
  rw [hthis, sub_add_cancel] at hnext
  rw [timeOf, readZda_zda d hfraction, ok_bind, DateTime.seconds, DateTime.days, sum_monthLength,
    d.month_eq]
  have hsec : mktime ⟨some d.hour, some d.minute, some d.second, d.day, d.month, d.year - 1900⟩ =
      some (86400 * (firstDay (12 * d.year + d.month - 1) - firstDay (12 * 1970) + (d.day - 1)) +
        3600 * d.hour + 60 * d.minute + d.second + 86400 * lengthInYear d.year (d.month - 1)) := by
    refine congrArg some ?_
    rw [sub_add_cancel, hnext]
    ring
  rw [hsec]
  rfl

/-- A sentence with the time, during a query. -/
private theorem handleMsg_zda {w : ℕ} (d : DateTime) {fraction rest : List UInt8}
    (hfraction : IsFraction fraction) (hvalid : validNmeaChecksum w (d.zda fraction rest) = true)
    {gps : Gps} (hexited : gps.exited = false) (hquery : gps.currentTime = true) :
    handleMsg w gps (d.zda fraction rest) =
      .ok { gps with
        tv := some (d.zda fraction rest)
        gpsState := .ready
        caller := gps.caller.signal } := by
  have hread : readSentence w gps.currentTime (d.zda fraction rest) =
      .ok (some (.zda (d.zda fraction rest))) := by
    have hkind : gpsMsgTime <+: d.zda fraction rest := List.prefix_append _ _
    have hantenna : ¬ gpsMsgAntenna.isPrefixOf (d.zda fraction rest) = true := fun h =>
      not_both_kinds hkind (by decide) (by decide) (List.isPrefixOf_iff_prefix.mp h)
    have hstatus : ¬ gpsMsgStatusTimePos.isPrefixOf (d.zda fraction rest) = true := fun h =>
      not_both_kinds hkind (by decide) (by decide) (List.isPrefixOf_iff_prefix.mp h)
    rw [readSentence, if_pos hvalid, if_neg hantenna, if_neg hstatus,
      if_pos (List.isPrefixOf_iff_prefix.mpr hkind), if_pos hquery, readZda_zda d hfraction]
    rfl
  rw [handleMsg, hread]
  simp only [handleSentence, handleZda, hquery, if_true]
  rw [if_neg (by rw [hexited]; decide)]

/-- **The time is a month late.** Any date from 1970 to 9999 and any time of day, in a sentence with
a right checksum that is next in the buffer, during a query: the driver takes the sentence, becomes
ready and signals the thread that waits. The seconds that it stores are those of the date and 86400
for each day of the month of the date; the microseconds are 0. -/
theorem zda_month_late (w : ℕ) (d : DateTime) (fraction rest : List UInt8)
    (hfraction : IsFraction fraction) (b : Body) (hb : b.bytes = d.zda fraction rest)
    (hvalid : validNmeaChecksum w b.bytes = true) (hzero : 0 ∉ b.bytes) (s : Driver)
    (more : List UInt8) (hring : s.nmea.ring.Pending (b.encode ++ more))
    (hinst : s.nmea.instBuf.length = instBufSize) (hexited : s.gps.exited = false)
    (hquery : s.gps.currentTime = true) :
    ∃ s' time, processMsg w s = .ok s' ∧ s'.gps.gpsState = .ready ∧
      s'.gps.caller = s.gps.caller.signal ∧ s'.gps.tv = some b.bytes ∧
      timeOf b.bytes = .ok (some time) ∧ time.tvUsec = 0 ∧
      time.tvSec = d.seconds + 86400 * lengthInYear d.year (d.month - 1) ∧
      time.tvSec ≠ d.seconds := by
  have htext : cString b.bytes = b.bytes :=
    List.takeWhile_eq_self_iff.mpr fun x hx => decide_eq_true fun h0 => hzero (h0 ▸ hx)
  have hlong : 8 ≤ (b.encode ++ more).length := by
    rw [Body.encode, hb, DateTime.zda]
    simp only [List.length_append, List.length_cons, length_decimal]
    omega
  have hgps := handleMsg_zda d hfraction (hb ▸ hvalid) hexited hquery
  rw [← hb] at hgps
  obtain ⟨nmea, hstep, -⟩ := Held.process_body ⟨hring, hinst⟩ hlong
    ((congrArg (handleMsg w s.gps) htext).trans hgps)
  have hlength := (lengthInYear_range d.year (d.month - 1)).1
  have htime := timeOf_zda d hfraction rest
  rw [← hb] at htime
  refine ⟨_, _, hstep, rfl, rfl, rfl, htime, rfl, rfl, ?_⟩
  dsimp only
  omega

/-- The first of January 1970, 00:00:00. -/
def epoch : DateTime where
  year := 1970
  month := 1
  day := 1
  hour := 0
  minute := 0
  second := 0
  year_range := by decide
  month_range := by decide
  day_range := by decide
  hour_lt := by decide
  minute_lt := by decide
  second_lt := by decide

/-- The sentence `GPZDA,000000,01,01,1970,*6B`. -/
def epochSentence : Body := ⟨epoch.zda [] [0x2a, 0x36, 0x42], by decide, by decide⟩

/-- A driver with a query, and with a sentence in the buffer. -/
def asked : Driver where
  nmea := ⟨⟨RingWindow.writeFrom (fun _ => 0) 0 epochSentence.encode, 0, 30⟩, List.replicate 100 0,
    [], []⟩
  gps := { initGps false with
    gpsState := .query
    currentTime := true
    caller := .waiting false
    processing := true }

private theorem pending_asked : asked.nmea.ring.Pending epochSentence.encode :=
  ⟨RingWindow.holdsFrom_writeFrom _ (by decide), by decide, rfl⟩

/-- The sentence of the first moment gives the first of February. -/
theorem zda_month_late_epoch :
    ∃ s' time, processMsg 32 asked = .ok s' ∧ s'.gps.tv = some epochSentence.bytes ∧
      timeOf epochSentence.bytes = .ok (some time) ∧ time.tvSec ≠ epoch.seconds := by
  have hpending : asked.nmea.ring.Pending (epochSentence.encode ++ []) := by
    rw [List.append_nil]
    exact pending_asked
  obtain ⟨s', time, hstep, -, -, htv, htime, -, -, hne⟩ := zda_month_late 32 epoch []
    [0x2a, 0x36, 0x42] (.inl rfl) epochSentence rfl (by decide) (by decide) asked [] hpending rfl
    rfl rfl
  exact ⟨s', time, hstep, htv, htime, hne⟩

/-- **The first moment of 1970** is taken for one that is 31 days later. -/
theorem epoch_stored_late :
    validNmeaChecksum 32 epochSentence.bytes = true ∧ epoch.seconds = 0 ∧
      timeOf epochSentence.bytes = .ok (some ⟨31 * 86400, 0⟩) :=
  ⟨by decide, rfl, by decide⟩

end MiaVita.Condor
