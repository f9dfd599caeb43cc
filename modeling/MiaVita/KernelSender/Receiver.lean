import MiaVita.KernelSender.Packet
import MiaVita.Lib.Json

/-!
# The receiver and its file (`kernel_sender/receiver/main.c`)

`serve` opens the output file for appending, writes an opening brace and then one record for each
packet. Whether a comma or only a line feed separates a record from what stands before is decided by
a flag that `serve` passes to `write_json`; `write_json` expects it to be set for the first record,
and `serve` sets it for all but the first.

So the first record has the comma (`serve_isText_iff`) and no other has one. The records are
members of an object, and with the flags the other way round the file would be one
(`isText_of_flags`).

The file is opened and every write succeeds in full. `serve` is given the datagrams that it
receives; it returns on an empty one, or it is interrupted.
-/

namespace MiaVita

/-- `open_output_files`: what is in the file afterwards. -/
def openOutputFiles (file : String) : String := file ++ "\x7b"

/-- The loop of `serve`. -/
def serveLoop (first : UInt8) (file : String) : List (List UInt8) → String
  | [] => file
  | [] :: _ => file
  | (b :: bs) :: received => serveLoop 1 (file ++ writeJson (.ofBytes (b :: bs)) first) received

/-- `serve`: what is in the file afterwards. -/
def serve (file : String) (received : List (List UInt8)) : String :=
  serveLoop 0 (openOutputFiles file) received

/-- The packets that a run of `serve` receives. -/
def receivedPackets (received : List (List UInt8)) : List Packet :=
  (received.takeWhile (· ≠ [])).map .ofBytes

/-! ### The text of a session -/

/-- The records of a session, each with what separates it from the text before. -/
def sessionText : List Packet → String
  | [] => ""
  | p :: ps => writeJson p 0 ++ String.join (ps.map (writeJson · 1))

private theorem serveLoop_one (file : String) (received : List (List UInt8)) :
    serveLoop 1 file received =
      file ++ String.join ((receivedPackets received).map (writeJson · 1)) := by
  induction received generalizing file with
  | nil => simp [serveLoop, receivedPackets]
  | cons bs received ih =>
    cases bs with
    | nil => simp [serveLoop, receivedPackets]
    | cons b bs =>
      rw [serveLoop, ih]
      simp [receivedPackets, String.append_assoc]

/-- **A session** appends an opening brace and the records of its packets. -/
theorem serve_eq (file : String) (received : List (List UInt8)) :
    serve file received = file ++ "\x7b" ++ sessionText (receivedPackets received) := by
  rw [serve, openOutputFiles]
  rcases received with - | ⟨- | ⟨b, bs⟩, received⟩
  · simp [serveLoop, receivedPackets, sessionText]
  · simp [serveLoop, receivedPackets, sessionText]
  · rw [serveLoop, serveLoop_one]
    simp [receivedPackets, sessionText, String.append_assoc]

/-! ### A record as a member -/

/-- The name of a record. -/
def JsonRecord.key (r : JsonRecord) : List Char := Decimal.ofNat r.id ++ ':' :: Decimal.ofNat r.seq

/-- The member of an object that a record stands for. -/
def JsonRecord.member (r : JsonRecord) : List Char × Json.Value :=
  (r.key, .object [
    ("ts".toList, .number (Decimal.ofNat r.ts)), ("1".toList, .number (Decimal.ofInt r.ch1)),
    ("2".toList, .number (Decimal.ofInt r.ch2)), ("3".toList, .number (Decimal.ofInt r.ch3)),
    ("4".toList, .number (Decimal.ofInt r.ch4))])

/-- The characters of a record, with what follows it in the file. -/
theorem JsonRecord.toList_text_append (r : JsonRecord) (rest : List Char) :
    r.text.toList ++ rest = "\"".toList ++ (Decimal.ofNat r.id ++ (":".toList ++
      (Decimal.ofNat r.seq ++ ("\":\x7b\"ts\":".toList ++ (Decimal.ofNat r.ts ++
      (",\"1\":".toList ++ (Decimal.ofInt r.ch1 ++ (",\"2\":".toList ++ (Decimal.ofInt r.ch2 ++
      (",\"3\":".toList ++ (Decimal.ofInt r.ch3 ++ (",\"4\": ".toList ++ (Decimal.ofInt r.ch4 ++
      ("\x7d".toList ++ rest)))))))))))))) := by
  unfold text
  simp only [String.toList_append, Decimal.toList_toString_nat, Decimal.toList_toString_int,
    List.append_assoc]

/-- The same, as a name and an object. -/
private theorem JsonRecord.toList_text_append_member (r : JsonRecord) (rest : List Char) :
    r.text.toList ++ rest = '\"' :: r.key ++ '\"' :: ':' :: '{' ::
      ('\"' :: "ts".toList ++ '\"' :: ':' :: ([] ++ (Decimal.ofNat r.ts ++ ',' ::
      ('\"' :: "1".toList ++ '\"' :: ':' :: ([] ++ (Decimal.ofInt r.ch1 ++ ',' ::
      ('\"' :: "2".toList ++ '\"' :: ':' :: ([] ++ (Decimal.ofInt r.ch2 ++ ',' ::
      ('\"' :: "3".toList ++ '\"' :: ':' :: ([] ++ (Decimal.ofInt r.ch3 ++ ',' ::
      ('\"' :: "4".toList ++ '\"' :: ':' :: ([' '] ++ (Decimal.ofInt r.ch4 ++
      '}' :: rest))))))))))))))) := by
  rw [toList_text_append]
  simp [key]

private theorem JsonRecord.isStringBody_key (r : JsonRecord) : Json.IsStringBody r.key := by
  have hplain : ∀ c : Char, c.isDigit = true ∨ c = ':' → 0x20 ≤ c.toNat ∧ c ≠ '\"' ∧ c ≠ '\\' := by
    rintro c (hdigit | rfl)
    · rw [Char.isDigit_iff_toNat] at hdigit
      refine ⟨le_trans (by decide) hdigit.1, ?_, ?_⟩
      · rintro rfl
        exact absurd hdigit.1 (by decide)
      · rintro rfl
        exact absurd hdigit.2 (by decide)
    · decide
  refine Json.isStringBody_of_forall fun c hc => hplain c ?_
  rw [key, List.mem_append, List.mem_cons] at hc
  rcases hc with hid | hcolon | hseq
  · exact .inl (Decimal.isDigit_of_mem_ofNat hid)
  · exact .inr hcolon
  · exact .inl (Decimal.isDigit_of_mem_ofNat hseq)

/-- **A record is a member** of an object: its name and, in an object of its own, its numbers. -/
theorem JsonRecord.readsMember (r : JsonRecord) (rest : List Char) :
    Json.ReadsMember ('\n' :: (r.text.toList ++ rest)) r.member rest := by
  have hdigit : ∀ c ∈ ['1', '2', '3', '4', 't', 's'], 0x20 ≤ c.toNat ∧ c ≠ '\"' ∧ c ≠ '\\' := by
    simp
  have hname : ∀ {raw}, raw ⊆ ['1', '2', '3', '4', 't', 's'] → Json.IsStringBody raw :=
    fun hraw => Json.isStringBody_of_forall fun c hc => hdigit c (hraw hc)
  rw [toList_text_append_member]
  refine .ws (by decide) (Json.readsMember_object r.isStringBody_key ?_)
  refine .cons (Json.readsMember_number (hname (by simp)) (by simp) (Json.isNumber_ofNat _)) ?_
  refine .cons (Json.readsMember_number (hname (by simp)) (by simp) (Json.isNumber_ofInt _)) ?_
  refine .cons (Json.readsMember_number (hname (by simp)) (by simp) (Json.isNumber_ofInt _)) ?_
  refine .cons (Json.readsMember_number (hname (by simp)) (by simp) (Json.isNumber_ofInt _)) ?_
  exact .single
    (Json.readsMember_number (hname (by simp)) (by simp [Json.isWs]) (Json.isNumber_ofInt _))

/-! ### The file as a JSON text -/

/-- The members that the packets stand for. -/
def membersOf (ps : List Packet) : List (List Char × Json.Value) :=
  ps.map fun p => (jsonRecord p).member

theorem toList_writeJson_zero (p : Packet) :
    (writeJson p 0).toList = ',' :: '\n' :: (jsonRecord p).text.toList := by
  rw [writeJson, if_pos rfl, String.toList_append]
  rfl

theorem toList_writeJson_ne_zero (p : Packet) {first : UInt8} (h : first ≠ 0) :
    (writeJson p first).toList = '\n' :: (jsonRecord p).text.toList := by
  rw [writeJson, if_neg h, String.toList_append]
  rfl

/-- Records with commas in between. -/
private theorem readsMembers_records (p : Packet) (ps : List Packet) :
    Json.ReadsMembers ('\n' :: ((jsonRecord p).text.toList ++
        ((String.join (ps.map (writeJson · 0))).toList ++ ['}'])))
      (membersOf (p :: ps)) ['}'] := by
  induction ps generalizing p with
  | nil =>
    have h := (jsonRecord p).readsMember ['}']
    simpa [membersOf] using Json.ReadsMembers.single h
  | cons q ps ih =>
    have h := (jsonRecord p).readsMember (',' :: '\n' :: ((jsonRecord q).text.toList ++
        ((String.join (ps.map (writeJson · 0))).toList ++ ['}'])))
    have hcons := Json.ReadsMembers.cons h (ih q)
    simpa [membersOf, toList_writeJson_zero] using hcons

/-- **With the flags that `write_json` expects**, set for the first record and clear for the others,
the file is an object whose members are the records. -/
theorem isText_of_flags (p : Packet) (ps : List Packet) {first : UInt8} (h : first ≠ 0) :
    Json.IsText ((openOutputFiles "" ++ writeJson p first ++
        String.join (ps.map (writeJson · 0))).toList ++ ['}']) (.object (membersOf (p :: ps))) := by
  have hmembers := Json.isText_object (readsMembers_records p ps)
  simpa [openOutputFiles, toList_writeJson_ne_zero p h] using hmembers

/-- The file of a session that has received a packet is no object. -/
private theorem not_isText_session (p : Packet) (ps : List Packet)
    (ms : List (List Char × Json.Value)) :
    ¬ Json.IsText (("\x7b" ++ sessionText (p :: ps)).toList ++ ['}']) (.object ms) := by
  intro h
  rw [sessionText, String.toList_append, String.toList_append, toList_writeJson_zero] at h
  exact Json.not_isText_comma h

/-- **The file is a JSON object** with one member for each packet, after a closing brace has been
added to it, if and only if there is no packet. -/
theorem serve_isText_iff (received : List (List UInt8)) :
    Json.IsText ((serve "" received).toList ++ ['}'])
        (.object (membersOf (receivedPackets received))) ↔
      receivedPackets received = [] := by
  rw [serve_eq, String.empty_append]
  rcases receivedPackets received with - | ⟨p, ps⟩
  · simpa [sessionText, membersOf] using Json.isText_emptyObject
  · exact iff_of_false (not_isText_session p ps _) nofun

/-- **One packet** is enough: the brace is followed by a comma. -/
theorem serve_not_isText :
    receivedPackets [List.replicate 25 0] ≠ [] ∧
      ∀ ms, ¬ Json.IsText ((serve "" [List.replicate 25 0]).toList ++ ['}']) (.object ms) := by
  refine ⟨nofun, fun ms h => ?_⟩
  rw [serve_eq, String.empty_append] at h
  exact not_isText_session _ _ ms h

end MiaVita
