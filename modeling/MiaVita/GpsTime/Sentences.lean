import MiaVita.GpsTime.Checksum
import MiaVita.GpsTime.CondorQuery
import MiaVita.GpsTime.Nmea

/-!
# What the Condor driver reads of a sentence (`gps_time/trimble_condor/gps_time.c`)

`process_msg` takes a sentence from the instruction buffer. It gets to a field of the sentence by
loops that look for the next comma: `for( x++; inst_buf[x] != ','; x++);`. None of these loops looks
for the end of the text, so that a sentence with too few commas is read behind the zero that ends
it, and a checksum says nothing about commas. The position of the receiver is up to nine commas
behind the start, the time up to four. The buffer itself is filled without a test, too: a body of
more than 99 bytes does not fit.

`Driver` puts the parts together: the bytes that arrive, `process_msg`, and the thread that calls
`getGPStimeUTC`. `driver_in_bounds_iff` says exactly which runs stay inside of the buffer and of the
sentences.

The position (`current_latitude` and so on) is not part of the model: it does not influence anything
else. The bytes that tell north from south and east from west are behind a comma, hence not behind
the zero.
-/

namespace MiaVita.Condor

open Memory Scanf Fallible
open LassenIq (MsgRing GpsState msgBufSize)

/-! ### One sentence -/

/-- The comma. -/
def comma : UInt8 := 0x2c

/-- `GPS_MSG_ANTENNA`, PMTKANT. -/
def gpsMsgAntenna : List UInt8 := [0x50, 0x4d, 0x54, 0x4b, 0x41, 0x4e, 0x54]

/-- `GPS_MSG_STATUS_TIME_POS`, GPGGA. -/
def gpsMsgStatusTimePos : List UInt8 := [0x47, 0x50, 0x47, 0x47, 0x41]

/-- `GPS_MSG_TIME`, GPZDA. -/
def gpsMsgTime : List UInt8 := [0x47, 0x50, 0x5a, 0x44, 0x41]

/-- A loop that looks for a comma, with the bytes from `x` up to the zero. -/
def commaLoop : List UInt8 → ℕ → Except Fault ℕ
  | [], x => .error (.read x 1)
  | b :: bs, x => if b ≠ comma then commaLoop bs (x + 1) else .ok x

/-- The next comma of a text, from `x` on. To read behind the zero is a fault. -/
def nextComma (text : List UInt8) (x : ℕ) : Except Fault ℕ := commaLoop ((text ++ [0]).drop x) x

/-- The quality indicators that the driver knows: `'0'`, `'1'` and `'2'`. -/
def KnownQuality (b : UInt8) : Prop := b = 0x30 ∨ b = 0x31 ∨ b = 0x32

instance (b : UInt8) : Decidable (KnownQuality b) := inferInstanceAs (Decidable (_ ∨ _ ∨ _))

/-- The status of the fix. With a quality that it does not know the driver exits before it comes to
the number of satellites. -/
def readGga (text : List UInt8) : Except Fault Sentence := do
  let x ← nextComma text 0
  let x ← nextComma text (x + 1) -- latitude
  let x ← nextComma text (x + 1)
  let x ← nextComma text (x + 1) -- longitude
  let x ← nextComma text (x + 1)
  let x ← nextComma text (x + 1) -- GPS quality indicator
  let quality := text[x + 1]?.getD 0
  if KnownQuality quality then do
    let x ← nextComma text (x + 1)
    let numSatellites := atoi (text.drop (x + 1))
    let x ← nextComma text (x + 1)
    let _ ← nextComma text (x + 1) -- altitude
    return .gga (Char.ofNat quality.toNat) numSatellites
  else return .gga (Char.ofNat quality.toNat) 0

/-- The conversions `%2d%2d%2d`. The first one that fails ends them. -/
def scanTime (text : List UInt8) : Option ℤ × Option ℤ × Option ℤ :=
  match scanDecimal 2 text with
  | none => (none, none, none)
  | some (h, text) =>
    match scanDecimal 2 text with
    | none => (some h, none, none)
    | some (m, text) => (some h, some m, (scanDecimal 2 text).map Prod.fst)

/-- `struct tm`. What has not been assigned is `none`. -/
structure Tm where
  tmHour : Option ℤ
  tmMin : Option ℤ
  tmSec : Option ℤ
  tmMday : ℤ
  tmMon : ℤ
  tmYear : ℤ
  deriving DecidableEq

/-- The time. -/
def readZda (text : List UInt8) : Except Fault Tm := do
  let x ← nextComma text 0
  let (tmHour, tmMin, tmSec) := scanTime (text.drop (x + 1))
  let x ← nextComma text (x + 1)
  let tmMday := atoi (text.drop (x + 1))
  let x ← nextComma text (x + 1)
  let tmMon := atoi (text.drop (x + 1))
  let x ← nextComma text (x + 1)
  let tmYear := atoi (text.drop (x + 1)) - 1900
  return { tmHour, tmMin, tmSec, tmMday, tmMon, tmYear }

/-- What `process_msg` makes of a text, nothing if the checksum is wrong. The time is only looked at
when somebody asks for it. -/
def readSentence (w : ℕ) (currentTime : Bool) (text : List UInt8) :
    Except Fault (Option Sentence) :=
  if validNmeaChecksum w text = true then
    if gpsMsgAntenna.isPrefixOf text then
      return some (.antenna (atoi (text.drop (gpsMsgAntenna.length + 1))))
    else if gpsMsgStatusTimePos.isPrefixOf text then do
      let m ← readGga text
      return some m
    else if gpsMsgTime.isPrefixOf text then
      if currentTime then do
        let _ ← readZda text
        return some (.zda text)
      else return some (.zda text)
    else return some .other
  else return none

/-! ### The whole driver -/

/-- The string at the start of an array. -/
def cString (arr : List UInt8) : List UInt8 := arr.takeWhile (· ≠ 0)

/-- The texts of the exits of `process_msg`. -/
def exitText : Sentence → String
  | .antenna _ => "Unknown antenna status code!"
  | _ => "Unknown GPS quality indicator code!"

/-- A sentence in the instruction buffer is handled. -/
def handleMsg (w : ℕ) (gps : Gps) (text : List UInt8) : Except Halt Gps :=
  match readSentence w gps.currentTime text with
  | .error f => .error (.fault f)
  | .ok none => .ok gps
  | .ok (some m) =>
    let gps := handleSentence m gps
    if gps.exited then .error (.exit (exitText m)) else .ok gps

/-- The bytes and the threads. -/
structure Driver where
  nmea : Nmea
  gps : Gps

/-- The next `n` bytes arrive; the thread calls `getGPStimeUTC` or resumes in it; `process_msg` gets
the mutex, or goes once through its loop. -/
inductive DriverEvent where
  | output (n : ℕ)
  | call
  | resume
  | wake
  | process

/-- The buffers when a message that ends at `stop` has been handled. -/
def took (s : Nmea) (instBuf : List UInt8) (stop : Fin msgBufSize) : Nmea :=
  { s with ring := consumed s.ring stop, instBuf, reports := s.reports ++ [instBuf] }

/-- One turn of the loop of `process_msg`. -/
def processMsg (w : ℕ) (s : Driver) : Except Halt Driver := do
  match ← lookupPacket s.nmea.ring.msgBuf s.nmea.instBuf s.nmea.ring.buffStart
      s.nmea.ring.buffEnd with
  | none => return { s with gps := gpsStep s.gps .wait }
  | some (instBuf, stop) =>
    let gps ← handleMsg w s.gps (cString instBuf)
    return { nmea := took s.nmea instBuf stop, gps }

/-- One event. Bytes are only stored while `process_msg` does not hold the mutex. -/
def driverStep (w : ℕ) (s : Driver) : DriverEvent → Except Halt Driver
  | .output n =>
    if s.gps.processing then .ok s
    else do
      let nmea ← nmeaStep s.nmea (.output s.gps.gpsState n)
      return { s with nmea }
  | .call => .ok { s with gps := gpsStep s.gps .call }
  | .resume => .ok { s with gps := gpsStep s.gps .resume }
  | .wake => .ok { s with gps := gpsStep s.gps .wake }
  | .process => if s.gps.processing then processMsg w s else .ok s

/-! ### Commas -/

/-- The number of commas. -/
def commas (text : List UInt8) : ℕ := text.count comma

/-- What is behind the first comma. -/
def behindComma (text : List UInt8) : List UInt8 := (text.dropWhile (· ≠ comma)).drop 1

private theorem commaLoop_append {front : List UInt8} (h : comma ∉ front) (rest : List UInt8)
    (x : ℕ) :
    commaLoop (front ++ comma :: rest) x = .ok (x + front.length) := by
  induction front generalizing x with
  | nil => rfl
  | cons b front ih =>
    obtain ⟨hb, hfront⟩ := not_or.mp (List.mem_cons.not.mp h)
    rw [List.cons_append, commaLoop, if_pos (Ne.symm hb), ih hfront, List.length_cons]
    congr 1
    omega

private theorem commaLoop_of_notMem {bytes : List UInt8} (h : comma ∉ bytes) (x : ℕ) :
    commaLoop bytes x = .error (.read (x + bytes.length) 1) := by
  induction bytes generalizing x with
  | nil => rfl
  | cons b bytes ih =>
    obtain ⟨hb, hbytes⟩ := not_or.mp (List.mem_cons.not.mp h)
    rw [commaLoop, if_pos (Ne.symm hb), ih hbytes, List.length_cons, Nat.add_right_comm]
    rfl

private theorem behindComma_append {front : List UInt8} (h : comma ∉ front) (rest : List UInt8) :
    behindComma (front ++ comma :: rest) = rest := by
  have hfront : ∀ b ∈ front, decide (b ≠ comma) = true := fun b hb =>
    decide_eq_true fun hcomma => h (hcomma ▸ hb)
  rw [behindComma, List.dropWhile_append_of_pos hfront, List.dropWhile_cons_of_neg (by decide)]
  rfl

/-- **One loop** goes to the next comma, and the place behind it is the next field. -/
theorem nextComma_eq {text front rest : List UInt8} {z : ℕ}
    (h : text.drop z = front ++ comma :: rest) (hfront : comma ∉ front) :
    nextComma text z = .ok (z + front.length) ∧ text.drop (z + front.length + 1) = rest := by
  have hz : z ≤ text.length := by
    by_contra hlt
    rw [List.drop_eq_nil_of_le (Nat.le_of_not_le hlt)] at h
    cases List.append_eq_nil_iff.mp h.symm |>.2
  constructor
  · rw [nextComma, List.drop_append_of_le_length hz, h, List.append_assoc, List.cons_append,
      commaLoop_append hfront]
  · rw [Nat.add_assoc, ← List.drop_drop, h, List.drop_length_add_append]
    rfl

/-- `z` is the place behind comma number `n` of the text. -/
structure Behind (text : List UInt8) (n z : ℕ) : Prop where
  drop_eq : text.drop z = behindComma^[n] text
  commas_eq : commas text = commas (text.drop z) + n

private theorem behind_zero (text : List UInt8) : Behind text 0 0 := ⟨rfl, rfl⟩

section Behind

variable {text : List UInt8} {n z : ℕ}

/-- A loop stops at the next comma if there is one, and at a fault if there is none. -/
private theorem Behind.nextComma_cases (h : Behind text n z) :
    (∃ y, nextComma text z = .ok y ∧ Behind text (n + 1) (y + 1) ∧ n + 1 ≤ commas text) ∨
      (∃ f, nextComma text z = .error f) ∧ commas text = n := by
  by_cases hmem : comma ∈ text.drop z
  · obtain ⟨front, rest, heq, hfront⟩ := List.eq_append_cons_of_mem hmem
    obtain ⟨hnext, hrest⟩ := nextComma_eq heq hfront
    have hcount : commas (text.drop z) = commas rest + 1 := by
      rw [heq, commas, List.count_append, List.count_eq_zero_of_not_mem hfront,
        List.count_cons_self, Nat.zero_add, commas]
    refine .inl ⟨z + front.length, hnext, ⟨?_, ?_⟩, ?_⟩
    · rw [Function.iterate_succ_apply', ← h.drop_eq, heq, behindComma_append hfront, hrest]
    · rw [hrest, h.commas_eq, hcount]
      omega
    · rw [h.commas_eq, hcount]
      omega
  · have hzero : comma ∉ (text ++ [0]).drop z := by
      rw [List.drop_append, List.mem_append, not_or]
      refine ⟨hmem, fun h0 => ?_⟩
      have hcomma := List.mem_singleton.mp (List.mem_of_mem_drop h0)
      exact absurd hcomma (by decide)
    refine .inr ⟨⟨_, commaLoop_of_notMem hzero z⟩, ?_⟩
    rw [h.commas_eq, commas, List.count_eq_zero_of_not_mem hmem, Nat.zero_add]

/-- A loop needs a comma more than the loops before it. -/
private theorem Behind.safe_bind {α : Type} (h : Behind text n z) {f : ℕ → Except Fault α}
    {P : Prop} (hf : ∀ y, Behind text (n + 1) (y + 1) → (Safe (f y) ↔ P)) :
    Safe (nextComma text z >>= f) ↔ n + 1 ≤ commas text ∧ P := by
  obtain ⟨y, hy, hbehind, hle⟩ | ⟨⟨e, he⟩, hcommas⟩ := h.nextComma_cases
  · rw [hy, ok_bind, hf y hbehind]
    exact (and_iff_right hle).symm
  · rw [he, error_bind]
    refine iff_of_false (not_safe_error e) fun hle => ?_
    omega

end Behind

/-- The first byte of the sixth field. -/
def qualityOf (text : List UInt8) : UInt8 := (behindComma^[6] text).head?.getD 0

/-- **The status of the fix needs nine commas**, or six if the quality is unknown. -/
theorem safe_readGga_iff (text : List UInt8) :
    Safe (readGga text) ↔
      6 ≤ commas text ∧ (KnownQuality (qualityOf text) → 9 ≤ commas text) := by
  have hchain : Safe (readGga text) ↔ 1 ≤ commas text ∧ 2 ≤ commas text ∧ 3 ≤ commas text ∧
      4 ≤ commas text ∧ 5 ≤ commas text ∧ 6 ≤ commas text ∧ (KnownQuality (qualityOf text) →
        7 ≤ commas text ∧ 8 ≤ commas text ∧ 9 ≤ commas text ∧ True) := by
    refine (behind_zero text).safe_bind fun x₁ h₁ => h₁.safe_bind fun x₂ h₂ =>
      h₂.safe_bind fun x₃ h₃ => h₃.safe_bind fun x₄ h₄ => h₄.safe_bind fun x₅ h₅ =>
      h₅.safe_bind fun x₆ h₆ => ?_
    have hquality : text[x₆ + 1]?.getD 0 = qualityOf text := by
      rw [qualityOf, ← h₆.drop_eq, List.head?_drop]
    dsimp only
    rw [hquality]
    split_ifs with hknown
    · rw [forall_prop_of_true hknown]
      exact h₆.safe_bind fun x₇ h₇ => h₇.safe_bind fun x₈ h₈ => h₈.safe_bind fun x₉ h₉ =>
        iff_of_true (safe_ok _) trivial
    · exact iff_of_true (safe_ok _) fun h => absurd h hknown
  rw [hchain]
  constructor
  · rintro ⟨-, -, -, -, -, h₆, hknown⟩
    exact ⟨h₆, fun h => (hknown h).2.2.1⟩
  · rintro ⟨h₆, hknown⟩
    refine ⟨by omega, by omega, by omega, by omega, by omega, h₆, fun h => ?_⟩
    have h₉ := hknown h
    exact ⟨by omega, by omega, h₉, trivial⟩

/-- **The time needs four commas.** -/
theorem safe_readZda_iff (text : List UInt8) : Safe (readZda text) ↔ 4 ≤ commas text := by
  have hchain : Safe (readZda text) ↔
      1 ≤ commas text ∧ 2 ≤ commas text ∧ 3 ≤ commas text ∧ 4 ≤ commas text ∧ True :=
    (behind_zero text).safe_bind fun x₁ h₁ => h₁.safe_bind fun x₂ h₂ =>
      h₂.safe_bind fun x₃ h₃ => h₃.safe_bind fun x₄ h₄ => iff_of_true (safe_ok _) trivial
  rw [hchain, and_true]
  omega

/-- **A sentence has enough commas**: if its checksum is right, for its kind. -/
def EnoughCommas (w : ℕ) (currentTime : Bool) (text : List UInt8) : Prop :=
  validNmeaChecksum w text = true →
    (gpsMsgStatusTimePos <+: text →
      6 ≤ commas text ∧ (KnownQuality (qualityOf text) → 9 ≤ commas text)) ∧
    (gpsMsgTime <+: text → currentTime = true → 4 ≤ commas text)

/-- No text begins as two kinds of sentences do. -/
theorem not_both_kinds {kind kind' text : List UInt8} (h : kind <+: text)
    (hne : ¬ kind <+: kind') (hne' : ¬ kind' <+: kind) : ¬ kind' <+: text := by
  intro h'
  obtain hkind | hkind := List.prefix_or_prefix_of_prefix h h'
  · exact hne hkind
  · exact hne' hkind

private theorem safe_readSentence_iff (w : ℕ) (currentTime : Bool) (text : List UInt8) :
    Safe (readSentence w currentTime text) ↔ EnoughCommas w currentTime text := by
  simp only [readSentence, EnoughCommas, List.isPrefixOf_iff_prefix]
  split_ifs with hvalid hantenna hstatus htime hcurrent
  · refine iff_of_true (safe_ok _) fun _ => ⟨fun h => ?_, fun h => ?_⟩
    · exact absurd h (not_both_kinds hantenna (by decide) (by decide))
    · exact absurd h (not_both_kinds hantenna (by decide) (by decide))
  · rw [forall_prop_of_true hvalid, forall_prop_of_true hstatus, ← safe_readGga_iff]
    refine safe_bind_ok.trans (and_iff_left fun h => ?_).symm
    exact absurd h (not_both_kinds hstatus (by decide) (by decide))
  · rw [forall_prop_of_true hvalid, forall_prop_of_true htime, forall_prop_of_true hcurrent,
      ← safe_readZda_iff]
    refine safe_bind_ok.trans (and_iff_right fun h => absurd h hstatus).symm
  · exact iff_of_true (safe_ok _) fun _ => ⟨fun h => absurd h hstatus, fun _ h => absurd h hcurrent⟩
  · exact iff_of_true (safe_ok _) fun _ => ⟨fun h => absurd h hstatus, fun h => absurd h htime⟩
  · exact iff_of_true (safe_ok _) fun h => absurd h hvalid

/-! ### Runs -/

/-- The bytes that are in the buffer. -/
def contents (r : MsgRing) : List UInt8 :=
  RingWindow.readFrom r.msgBuf r.buffStart r.unprocessed

/-- No array is left, and no sentence. -/
def NoFault {α : Type} (x : Except Halt α) : Prop := ∀ f, x ≠ .error (.fault f)

/-- **What is asked of the events**: when `process_msg` finds a sentence, its body is not longer
than 99 bytes, and it has enough commas. -/
def DriverSafe (w : ℕ) (s : Driver) : DriverEvent → Prop
  | .process => s.gps.processing = true →
    ∀ n, sentences.look (contents s.nmea.ring) = .ok (some n) →
    let body := bodyOf ((contents s.nmea.ring).take n)
    body.length ≤ 99 ∧ EnoughCommas w s.gps.currentTime (cString body)
  | _ => True

/-- The buffers are as they have to be. -/
structure Held (s : Nmea) (pending : List UInt8) : Prop where
  ring : s.ring.Pending pending
  instBuf : s.instBuf.length = instBufSize

private theorem contents_eq {r : MsgRing} {pending : List UInt8} (h : r.Pending pending) :
    contents r = pending := by
  rw [contents, MsgRing.unprocessed, h.linearEnd_eq, Nat.add_sub_cancel_left]
  exact h.holds.readFrom_eq

/-- The zero behind a body ends the text, where the body has none. -/
private theorem cString_append (body rest : List UInt8) :
    cString (body ++ 0 :: rest) = cString body := by
  induction body with
  | nil => rfl
  | cons b body ih =>
    rw [List.cons_append, cString, cString, List.takeWhile_cons, List.takeWhile_cons]
    rw [cString, cString] at ih
    rw [ih]

private theorem noFault_ok {α : Type} (a : α) :
    NoFault (.ok a : Except Halt α) := fun f h => by cases h

private theorem noFault_exit {α : Type} (text : String) :
    NoFault (.error (.exit text) : Except Halt α) :=
  fun f h => by cases h

private theorem noFault_bind_ok {α β : Type} {x : Except Halt α} {f : α → β} :
    NoFault (x >>= fun a => .ok (f a)) ↔ NoFault x := by
  cases x with
  | error e => exact forall_congr' fun f => not_congr ⟨by rintro ⟨⟩; rfl, by rintro ⟨⟩; rfl⟩
  | ok a => exact iff_of_true (noFault_ok (f a)) (noFault_ok a)

private theorem noFault_handleMsg_iff (w : ℕ) (gps : Gps) (text : List UInt8) :
    NoFault (handleMsg w gps text) ↔ EnoughCommas w gps.currentTime text := by
  rw [← safe_readSentence_iff, handleMsg]
  cases hread : readSentence w gps.currentTime text with
  | error f => exact iff_of_false (fun h => h f rfl) (not_safe_error f)
  | ok found =>
    refine iff_of_true ?_ (safe_ok found)
    cases found with
    | none => exact noFault_ok gps
    | some m =>
      dsimp only
      split_ifs
      · exact noFault_exit _
      · exact noFault_ok _

section Held

variable {w : ℕ} {s s' : Driver} {pending : List UInt8}

private theorem noFault_nmeaStep_output (s : Nmea) (gpsState : GpsState) (n : ℕ) :
    NoFault (nmeaStep s (.output gpsState n)) := by
  rw [nmeaStep, outputFromGps]
  cases LassenIq.outputFromGps gpsState s.ring (s.toCome.take n) with
  | error e => exact noFault_exit _
  | ok ring => exact noFault_ok _

private theorem Held.output {s s' : Nmea} (h : Held s pending) {gpsState : GpsState} {n : ℕ}
    (hstep : nmeaStep s (.output gpsState n) = .ok s') : ∃ pending', Held s' pending' := by
  rw [nmeaStep, outputFromGps] at hstep
  by_cases hinit : gpsState = .preInit
  · subst hinit
    cases hstep
    exact ⟨pending, h.ring, h.instBuf⟩
  by_cases hroom : pending.length + (s.toCome.take n).length ≤ 1023
  · obtain ⟨ring, hring, hpending⟩ := LassenIq.outputFromGps_eq hinit h.ring hroom
    rw [hring] at hstep
    cases hstep
    exact ⟨_, hpending, h.instBuf⟩
  · rw [LassenIq.outputFromGps_full hinit h.ring (Nat.lt_of_not_le hroom)] at hstep
    cases hstep

/-- **One turn of the loop.** -/
theorem noFault_processMsg_iff (h : Held s.nmea pending) :
    NoFault (processMsg w s) ↔ ∀ n, sentences.look pending = .ok (some n) →
      (bodyOf (pending.take n)).length ≤ 99 ∧
        EnoughCommas w s.gps.currentTime (cString (bodyOf (pending.take n))) := by
  rw [processMsg]
  cases hlook : sentences.look pending with
  | error e =>
    rw [lookupPacket_error h.ring hlook]
    exact iff_of_true (noFault_exit _) nofun
  | ok found =>
    cases found with
    | none =>
      rw [lookupPacket_none h.ring hlook]
      exact iff_of_true (noFault_ok _) nofun
    | some n =>
      have hsome : (∀ n', (Except.ok (some n) : Except Framer.Ended (Option ℕ)) = .ok (some n') →
          (bodyOf (pending.take n')).length ≤ 99 ∧
            EnoughCommas w s.gps.currentTime (cString (bodyOf (pending.take n')))) ↔
          (bodyOf (pending.take n)).length ≤ 99 ∧
            EnoughCommas w s.gps.currentTime (cString (bodyOf (pending.take n))) := by
        constructor
        · exact fun hall => hall n rfl
        · rintro hn n' ⟨⟩
          exact hn
      rw [hsome, lookupPacket_some h.ring hlook, h.instBuf]
      by_cases hroom : (bodyOf (pending.take n)).length < instBufSize
      · rw [if_pos hroom, and_iff_right (Nat.le_of_lt_succ hroom), ← noFault_handleMsg_iff]
        rw [← cString_append _ (s.nmea.instBuf.drop ((bodyOf (pending.take n)).length + 1))]
        exact noFault_bind_ok
      · rw [if_neg hroom]
        exact iff_of_false (fun hno => hno _ rfl) fun hle => hroom (Nat.lt_succ_of_le hle.1)

private theorem processMsg_found {instBuf : List UInt8} {stop : Fin msgBufSize} {gps : Gps}
    (hfound : lookupPacket s.nmea.ring.msgBuf s.nmea.instBuf s.nmea.ring.buffStart
      s.nmea.ring.buffEnd = .ok (some (instBuf, stop)))
    (hgps : handleMsg w s.gps (cString instBuf) = .ok gps) :
    processMsg w s = .ok ⟨took s.nmea instBuf stop, gps⟩ := by
  rw [processMsg, hfound]
  change (handleMsg w s.gps (cString instBuf) >>= _) = _
  rw [hgps]
  rfl

private theorem Held.process (h : Held s.nmea pending) (hstep : processMsg w s = .ok s') :
    ∃ pending', Held s'.nmea pending' := by
  rw [processMsg] at hstep
  cases hlook : sentences.look pending with
  | error e =>
    rw [lookupPacket_error h.ring hlook] at hstep
    cases hstep
  | ok found =>
    cases found with
    | none =>
      rw [lookupPacket_none h.ring hlook] at hstep
      cases hstep
      exact ⟨pending, h⟩
    | some n =>
      obtain ⟨-, -, hscan⟩ := Framer.look_eq_some hlook
      have hle := (sentences.scan_append hscan []).1
      rw [lookupPacket_some h.ring hlook] at hstep
      split_ifs at hstep with hroom
      · obtain ⟨found, hfound, hstep⟩ := bind_eq_ok.mp hstep
        cases hfound
        obtain ⟨gps, -, hs'⟩ := bind_eq_ok.mp hstep
        cases hs'
        refine ⟨pending.drop n, pending_consumed h.ring hle, ?_⟩
        rw [took, List.length_append, List.length_cons, List.length_drop]
        have := h.instBuf
        omega
      · cases hstep

/-- **A sentence that is next in the buffer** is handled, if it is long enough to be looked at. -/
theorem Held.process_body {b : Body} {more : List UInt8} (h : Held s.nmea (b.encode ++ more))
    (hlong : 8 ≤ (b.encode ++ more).length) {gps : Gps}
    (hgps : handleMsg w s.gps (cString b.bytes) = .ok gps) :
    ∃ nmea, processMsg w s = .ok ⟨nmea, gps⟩ ∧ Held nmea more := by
  have hlook : sentences.look (b.encode ++ more) = .ok (some b.encode.length) :=
    b.isFrame.look_append hlong
  have hroom : b.bytes.length < s.nmea.instBuf.length := by
    rw [h.instBuf]
    exact Nat.lt_succ_of_le b.length_le
  have hfound : lookupPacket s.nmea.ring.msgBuf s.nmea.instBuf s.nmea.ring.buffStart
      s.nmea.ring.buffEnd = _ := lookupPacket_some h.ring hlook
  rw [List.take_left, b.bodyOf_encode, if_pos hroom] at hfound
  have hring := pending_consumed h.ring (List.length_append ▸ Nat.le_add_right _ _)
  rw [List.drop_left] at hring
  refine ⟨_, processMsg_found hfound (by rwa [cString_append]), hring, ?_⟩
  have hinst := h.instBuf
  rw [took, List.length_append, List.length_cons, List.length_drop]
  omega

private theorem noFault_driverStep_iff (h : Held s.nmea pending) (e : DriverEvent) :
    NoFault (driverStep w s e) ↔ DriverSafe w s e := by
  cases e with
  | output n =>
    refine iff_of_true ?_ trivial
    rw [driverStep]
    split_ifs
    · exact noFault_ok s
    · exact noFault_bind_ok.mpr (noFault_nmeaStep_output _ _ n)
  | process =>
    rw [driverStep, DriverSafe, contents_eq h.ring]
    split_ifs with hprocessing
    · rw [forall_prop_of_true hprocessing]
      exact noFault_processMsg_iff h
    · exact iff_of_true (noFault_ok s) fun hp => absurd hp hprocessing
  | call | resume | wake => exact iff_of_true (noFault_ok _) trivial

private theorem Held.step (h : Held s.nmea pending) {e : DriverEvent}
    (hstep : driverStep w s e = .ok s') :
    ∃ pending', Held s'.nmea pending' := by
  cases e with
  | output n =>
    rw [driverStep] at hstep
    split_ifs at hstep
    · cases hstep
      exact ⟨pending, h⟩
    · obtain ⟨nmea, hnmea, hs'⟩ := bind_eq_ok.mp hstep
      cases hs'
      exact h.output hnmea
  | process =>
    rw [driverStep] at hstep
    split_ifs at hstep
    · exact h.process hstep
    · cases hstep
      exact ⟨pending, h⟩
  | call | resume | wake =>
    cases hstep
    exact ⟨pending, h⟩

end Held

/-- **Inside of the buffers.** Any bytes, arriving in any pieces at any position of the buffer, in
any state of the driver and with any calls of `getGPStimeUTC` in between: `lookup_packet` never
writes behind the instruction buffer and the loops of `process_msg` never read behind the zero of a
sentence, if and only if every sentence that `process_msg` finds has a body of at most 99 bytes and,
if its checksum is right, enough commas: nine for the status of the fix, or six if the quality is
unknown, and four for the time if there is a query. -/
theorem driver_in_bounds_iff (w : ℕ) (ring : MsgRing) (hempty : ring.buffStart = ring.buffEnd)
    (instBuf : List UInt8) (hinst : instBuf.length = instBufSize) (bytes : List UInt8) (gps : Gps)
    (es : List DriverEvent) :
    NoFault (Run.execM (driverStep w) ⟨⟨ring, instBuf, bytes, []⟩, gps⟩ es) ↔
      Run.AllStepsM (driverStep w) (DriverSafe w) ⟨⟨ring, instBuf, bytes, []⟩, gps⟩ es := by
  have hstart : Held ⟨ring, instBuf, bytes, []⟩ [] := ⟨(Reads.start hempty hinst bytes).ring, hinst⟩
  have hkept : ∀ (s : Driver) e s', (∃ pending, Held s.nmea pending) →
      driverStep w s e = .ok s' → ∃ pending, Held s'.nmea pending := by
    rintro s e s' ⟨pending, h⟩ hstep
    exact h.step hstep
  have hstep : ∀ (s : Driver) e, (∃ pending, Held s.nmea pending) →
      (NoFault (driverStep w s e) ↔ DriverSafe w s e) := by
    rintro s e ⟨pending, h⟩
    exact noFault_driverStep_iff h e
  exact Run.execM_ne_error_iff hkept hstep ⟨[], hstart⟩ es

/-- A driver that searches, and whose `process_msg` waits. -/
def searching (bytes : List UInt8) : Driver :=
  ⟨⟨⟨fun _ => 0, 0, 0⟩, List.replicate 100 0, bytes, []⟩, initGps false⟩

/-- The sentence `GPGGA,,,,,,1,,,*4B`: a fix, and nothing else. -/
def fixOnly : List UInt8 :=
  0x24 :: gpsMsgStatusTimePos ++
    [0x2c, 0x2c, 0x2c, 0x2c, 0x2c, 0x2c, 0x31, 0x2c, 0x2c, 0x2c, 0x2a, 0x34, 0x42, 0x0d, 0x0a]

/-- Nine commas are enough. -/
theorem driver_in_bounds_fix :
    NoFault (Run.execM (driverStep 32) (searching fixOnly) [.output 21, .wake, .process]) := by
  refine (driver_in_bounds_iff 32 ⟨fun _ => 0, 0, 0⟩ rfl (List.replicate 100 0) (by decide) fixOnly
    (initGps false) _).mpr ⟨trivial, ?_⟩
  rintro s₁ ⟨⟩
  refine ⟨trivial, ?_⟩
  rintro s₂ ⟨⟩
  refine ⟨fun _ n hn => ?_, fun _ _ => trivial⟩
  obtain rfl : 21 = n := Option.some.inj (Except.ok.inj hn)
  refine ⟨by decide, fun _ => ⟨fun _ => by decide, fun _ h => by cases h⟩⟩

/-- **A sentence without commas** is read behind its end: `GPGGA*56`, in a dollar sign and the end
of a line. And a sentence of a hundred letters leaves the instruction buffer. -/
theorem driver_leaves_buffers :
    Run.execM (driverStep 32)
        (searching [0x24, 0x47, 0x50, 0x47, 0x47, 0x41, 0x2a, 0x35, 0x36, 0x0d, 0x0a])
        [.output 11, .wake, .process] = .error (.fault (.read 9 1)) ∧
      Run.execM (driverStep 32) (searching (0x24 :: List.replicate 100 0x41 ++ [0x0d, 0x0a]))
        [.output 103, .wake, .process] = .error (.fault (.write 100 1)) :=
  ⟨Fallible.eq_error_of_map (by decide +kernel), Fallible.eq_error_of_map (by decide +kernel)⟩

end MiaVita.Condor
