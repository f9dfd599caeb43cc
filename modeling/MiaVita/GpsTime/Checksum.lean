import MiaVita.Lib.Scanf

/-!
# Checksums of NMEA sentences (`gps_time/trimble_condor/gps_time.c`)

A sentence ends with an asterisk and two hexadecimal digits, which give the exclusive or of all
bytes before the asterisk. `valid_NMEA_checksum` computes it on the way to the asterisk and leaves
the digits to `sscanf`. The conversion `%hhX` is not the test whether there are two digits: it skips
blanks, takes a sign and a prefix, takes as many digits as there are and leaves alone what follows;
and where it finds no digit at all, the zero stays that the variable was initialised with.

`validNmeaChecksum_iff` is the language that is accepted, by the text behind the asterisk. Every
valid sentence is in it, and a sentence that is not valid is in it when the numeral that is found
there has the right value modulo 256, or when there is none and the bytes cancel out
(`checksum_exact_iff`).

A string is the list of its bytes without the zero that ends it.
-/

namespace MiaVita.Condor

open Scanf

/-! ### The test -/

/-- The asterisk. -/
def star : UInt8 := 0x2a

/-- The loop over the bytes before the asterisk: the checksum, and the string from where the loop
stops. -/
def checksumLoop : UInt8 → List UInt8 → UInt8 × List UInt8
  | checksum, [] => (checksum, [])
  | checksum, b :: msg =>
    if b ≠ star then checksumLoop (checksum ^^^ b) msg else (checksum, b :: msg)

/-- `valid_NMEA_checksum`, where `unsigned long` has `w` bits. -/
def validNmeaChecksum (w : ℕ) (msg : List UInt8) : Bool :=
  let (checksum, rest) := checksumLoop 0 msg
  match rest with
  | [] => false
  | _ :: rest =>
    let providedChecksum := (scanHexByte w rest).getD 0
    checksum = providedChecksum

/-! ### Valid sentences -/

/-- The exclusive or of some bytes. -/
def xorBytes (bytes : List UInt8) : UInt8 := bytes.foldl (· ^^^ ·) 0

/-- Exactly two hexadecimal digits, with their value. -/
def TwoHexDigits (text : List UInt8) (v : UInt8) : Prop :=
  ∃ hi lo h l, text = [hi, lo] ∧ digit? 16 hi = some h ∧ digit? 16 lo = some l ∧
    v = UInt8.ofNat (16 * h + l)

/-- **A valid sentence**: behind its first asterisk there are exactly two hexadecimal digits, and
they give the exclusive or of what is before. -/
def ValidSentence (msg : List UInt8) : Prop :=
  ∃ body rest, msg = body ++ star :: rest ∧ star ∉ body ∧ TwoHexDigits rest (xorBytes body)

private theorem checksumLoop_append {body : List UInt8} (h : star ∉ body) (checksum : UInt8)
    (rest : List UInt8) :
    checksumLoop checksum (body ++ star :: rest) =
      (body.foldl (· ^^^ ·) checksum, star :: rest) := by
  induction body generalizing checksum with
  | nil => rfl
  | cons b body ih =>
    obtain ⟨hb, hbody⟩ := not_or.mp (List.mem_cons.not.mp h)
    rw [List.cons_append, checksumLoop, if_pos (Ne.symm hb), ih hbody]
    rfl

private theorem checksumLoop_of_notMem {msg : List UInt8} (h : star ∉ msg) (checksum : UInt8) :
    (checksumLoop checksum msg).2 = [] := by
  induction msg generalizing checksum with
  | nil => rfl
  | cons b msg ih =>
    obtain ⟨hb, hmsg⟩ := not_or.mp (List.mem_cons.not.mp h)
    rw [checksumLoop, if_pos (Ne.symm hb), ih hmsg]

private theorem validNmeaChecksum_append {w : ℕ} {body : List UInt8} (h : star ∉ body)
    (rest : List UInt8) :
    validNmeaChecksum w (body ++ star :: rest) = true ↔
      xorBytes body = (scanHexByte w rest).getD 0 := by
  rw [validNmeaChecksum, checksumLoop_append h]
  exact decide_eq_true_iff

private theorem validNmeaChecksum_of_notMem {w : ℕ} {msg : List UInt8} (h : star ∉ msg) :
    validNmeaChecksum w msg = false := by
  simp only [validNmeaChecksum, checksumLoop_of_notMem h]

private theorem takeWhile_star {body : List UInt8} (h : star ∉ body) (rest : List UInt8) :
    (body ++ star :: rest).takeWhile (· ≠ star) = body := by
  have hbody : ∀ b ∈ body, decide (b ≠ star) = true := fun b hb =>
    decide_eq_true fun hstar => h (hstar ▸ hb)
  rw [List.takeWhile_append_of_pos hbody, List.takeWhile_cons_of_neg (by decide), List.append_nil]

/-- The first asterisk is at one place only. -/
private theorem eq_of_append_star {body body' rest rest' : List UInt8} (h : star ∉ body)
    (h' : star ∉ body') (heq : body ++ star :: rest = body' ++ star :: rest') :
    body = body' ∧ rest = rest' := by
  have hbody : body = body' := by
    rw [← takeWhile_star h rest, heq, takeWhile_star h']
  subst hbody
  exact ⟨rfl, (List.cons.inj (List.append_cancel_left heq)).2⟩

private theorem validSentence_append {body : List UInt8} (h : star ∉ body) (rest : List UInt8) :
    ValidSentence (body ++ star :: rest) ↔ TwoHexDigits rest (xorBytes body) := by
  constructor
  · rintro ⟨body', rest', heq, h', hdigits⟩
    obtain ⟨rfl, rfl⟩ := eq_of_append_star h h' heq
    exact hdigits
  · exact fun hdigits => ⟨body, rest, rfl, h, hdigits⟩

/-- The conversion of two digits. -/
private theorem TwoHexDigits.scan {w : ℕ} (hw : 8 ≤ w) {rest : List UInt8} {v : UInt8}
    (h : TwoHexDigits rest v) : (scanHexByte w rest).getD 0 = v := by
  obtain ⟨hi, lo, h, l, rfl, hhi, hlo, rfl⟩ := h
  rw [scanHexByte_pair hw hhi hlo]
  rfl

/-- **The accepted language**, by the text. Behind the first asterisk, there is a numeral with
blanks, a sign, a mark and digits in front of anything, and its byte is the exclusive or of what is
before the asterisk; or there is no number at all, and the exclusive or is 0. -/
def AcceptedSentence (w : ℕ) (msg : List UInt8) : Prop :=
  ∃ body rest, msg = body ++ star :: rest ∧ star ∉ body ∧
    ((∃ n : HexNumeral, n.text = rest ∧ n.byte w = xorBytes body) ∨
      NoHexNumeral rest ∧ xorBytes body = 0)

theorem validNmeaChecksum_iff {w : ℕ} (hw : 8 ≤ w) (msg : List UInt8) :
    validNmeaChecksum w msg = true ↔ AcceptedSentence w msg := by
  constructor
  · intro hvalid
    have hstar : star ∈ msg := by
      by_contra hstar
      rw [validNmeaChecksum_of_notMem hstar] at hvalid
      cases hvalid
    obtain ⟨body, rest, rfl, hbody⟩ := List.eq_append_cons_of_mem hstar
    rw [validNmeaChecksum_append hbody, eq_comm, scanHexByte_getD_iff hw] at hvalid
    exact ⟨body, rest, rfl, hbody, hvalid⟩
  · rintro ⟨body, rest, rfl, hbody, haccepted⟩
    rw [validNmeaChecksum_append hbody, eq_comm, scanHexByte_getD_iff hw]
    exact haccepted

/-- What is not accepted, by the text behind the asterisk. -/
private theorem validNmeaChecksum_not_iff {w : ℕ} (hw : 8 ≤ w) {body : List UInt8} (h : star ∉ body)
    (rest : List UInt8) :
    ¬ validNmeaChecksum w (body ++ star :: rest) = true ↔
      (∃ n : HexNumeral, n.text = rest ∧ n.byte w ≠ xorBytes body) ∨
        NoHexNumeral rest ∧ xorBytes body ≠ 0 := by
  rw [validNmeaChecksum_append h]
  constructor
  · intro hne
    obtain ⟨n, hn, hbyte⟩ | ⟨hnone, hzero⟩ := (scanHexByte_getD_iff hw rest _).mp rfl
    · exact .inl ⟨n, hn, fun heq => hne (heq.symm.trans hbyte)⟩
    · exact .inr ⟨hnone, fun heq => hne (heq.trans hzero.symm)⟩
  · rintro (⟨n, hn, hne⟩ | ⟨hnone, hne⟩) heq
    · exact hne (heq.trans ((scanHexByte_getD_iff hw rest _).mpr (.inl ⟨n, hn, rfl⟩))).symm
    · exact hne (heq.trans ((scanHexByte_getD_iff hw rest _).mpr (.inr ⟨hnone, rfl⟩)))

/-- **What the test accepts, and where it is right.** A string is accepted exactly if it is in the
accepted language. It is accepted if and only if it is a valid sentence, if and only if what follows
its first asterisk is exactly two hexadecimal digits, or a numeral for another byte than the
exclusive or of what is before, or no number while that exclusive or is not 0. -/
theorem checksum_exact_iff {w : ℕ} (hw : 8 ≤ w) (msg : List UInt8) :
    (validNmeaChecksum w msg = true ↔ AcceptedSentence w msg) ∧
    ((validNmeaChecksum w msg = true ↔ ValidSentence msg) ↔
      ∀ body rest, msg = body ++ star :: rest → star ∉ body →
        (∃ v, TwoHexDigits rest v) ∨
        (∃ n : HexNumeral, n.text = rest ∧ n.byte w ≠ xorBytes body) ∨
        NoHexNumeral rest ∧ xorBytes body ≠ 0) := by
  refine ⟨validNmeaChecksum_iff hw msg, ?_⟩
  by_cases hstar : star ∈ msg
  · obtain ⟨body, rest, rfl, hbody⟩ := List.eq_append_cons_of_mem hstar
    rw [validSentence_append hbody]
    constructor
    · intro h body' rest' heq hbody'
      obtain ⟨rfl, rfl⟩ := eq_of_append_star hbody hbody' heq
      rw [← validNmeaChecksum_not_iff hw hbody]
      by_cases hvalid : validNmeaChecksum w (body ++ star :: rest) = true
      · exact .inl ⟨_, h.mp hvalid⟩
      · exact .inr hvalid
    · intro h
      have hrest := h body rest rfl hbody
      rw [← validNmeaChecksum_not_iff hw hbody, validNmeaChecksum_append hbody] at hrest
      rw [validNmeaChecksum_append hbody]
      -- a valid sentence is accepted in any case
      refine ⟨fun hvalue => ?_, fun hdigits => (hdigits.scan hw).symm⟩
      obtain ⟨v, hdigits⟩ | hne := hrest
      · rw [hvalue, hdigits.scan hw]
        exact hdigits
      · exact absurd hvalue hne
  · refine iff_of_true (iff_of_false ?_ ?_) ?_
    · rw [validNmeaChecksum_of_notMem hstar]
      decide
    · rintro ⟨body, rest, rfl, -⟩
      exact hstar (List.mem_append_cons_self)
    · rintro body rest rfl -
      exact absurd (List.mem_append_cons_self) hstar

/-- `A*41`. -/
theorem checksum_exact_letter :
    validNmeaChecksum 32 [0x41, 0x2a, 0x34, 0x31] = true ↔
      ValidSentence [0x41, 0x2a, 0x34, 0x31] := by
  refine (checksum_exact_iff (by decide) [0x41, 0x2a, 0x34, 0x31]).2.mpr
    fun body rest heq hbody => ?_
  have hletter : star ∉ [0x41] := by decide
  obtain ⟨rfl, rfl⟩ := eq_of_append_star hletter hbody heq
  exact .inl ⟨_, 0x34, 0x31, 4, 1, rfl, rfl, rfl, rfl⟩

/-- **A sentence without a checksum is accepted**: `AA*`, whose bytes cancel out. So is one with
more than two digits, `A*141`. -/
theorem checksum_lenient :
    validNmeaChecksum 32 [0x41, 0x41, 0x2a] = true ∧ ¬ ValidSentence [0x41, 0x41, 0x2a] ∧
      validNmeaChecksum 32 [0x41, 0x2a, 0x31, 0x34, 0x31] = true ∧
      ¬ ValidSentence [0x41, 0x2a, 0x31, 0x34, 0x31] := by
  have hletters : star ∉ [0x41, 0x41] := by decide
  have hletter : star ∉ [0x41] := by decide
  refine ⟨by decide, fun hvalid => ?_, by decide, fun hvalid => ?_⟩
  · obtain ⟨hi, lo, h, l, heq, -⟩ := (validSentence_append hletters []).mp hvalid
    cases heq
  · obtain ⟨hi, lo, h, l, heq, -⟩ := (validSentence_append hletter [0x31, 0x34, 0x31]).mp hvalid
    cases heq

end MiaVita.Condor
