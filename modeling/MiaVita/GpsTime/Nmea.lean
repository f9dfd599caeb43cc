import MiaVita.GpsTime.Tsip
import MiaVita.Lib.Framing
import MiaVita.Lib.Memory
import Mathlib.Data.List.Forall2

/-!
# Sentences of the Condor receiver (`gps_time/trimble_condor/gps_time.c`)

The Condor sends text: a sentence is a dollar sign, a body, a carriage return and a line feed. The
bytes arrive in the circular buffer of the Lassen iQ driver, by the same code. `lookupPacket` looks
for the line feed and copies what is between the dollar sign and the last two bytes, with a zero
behind it, to `inst_buf`, an array of 100 bytes.

`lookupPacket_none`, `lookupPacket_error` and `lookupPacket_some` give a call in terms of the bytes
that are in the buffer: what it finds is what the reader of frames (`Framer.look`) finds there. From
this a run of the driver is a run of that reader, and `nmea_framing` is what the library says about
streams of frames. A call does nothing as long as there are less than eight bytes, so that sentences
which are shorter than that may have to wait for others.
-/

namespace MiaVita.Condor

open RingWindow Memory Fallible
open LassenIq (MsgRing GpsState LineEvent SameEnd linearEnd msgBufSize)

/-! ### The driver -/

/-- What stops the driver: `exit(1)`, with what is printed before, or an access outside of an
array. -/
inductive Halt where
  | exit (text : String)
  | fault (f : Fault)
  deriving DecidableEq

/-- `GPS_START_CHAR`. -/
def gpsStartChar : UInt8 := 0x24

/-- `GPS_END_CHAR`. -/
def gpsEndChar : UInt8 := 0x0a

/-- `INST_BUF_SIZE`. -/
abbrev instBufSize : ℕ := 100

/-- Look for message end: `n` bytes are left. -/
def lookForEnd (b : Fin msgBufSize → UInt8) : ℕ → ℕ → ℕ
  | 0, pos => pos
  | n + 1, pos =>
    if b (Fin.ofNat msgBufSize pos) ≠ gpsEndChar then lookForEnd b n (pos + 1) else pos

/-- The loop that copies a message from `start` to the instruction buffer, from its byte `x` on, and
the zero behind it. -/
def copyMessage (b : Fin msgBufSize → UInt8) (start : ℕ) :
    ℕ → ℕ → List UInt8 → Except Fault (List UInt8)
  | 0, x, instBuf => store instBuf x [0]
  | n + 1, x, instBuf => do
    let instBuf ← store instBuf x [b (Fin.ofNat msgBufSize (start + 1 + x))]
    copyMessage b start n (x + 1) instBuf

/-- The text of the exit of `lookup_packet`. -/
def notAMessage : String := "Message does not start with $. Should never happen rewrite code!"

/-- A packet was found, from `start` to the line feed at `pos`: it is copied to the instruction
buffer. -/
def takeMessage (b : Fin msgBufSize → UInt8) (instBuf : List UInt8) (start pos : ℕ) :
    Except Halt (Option (List UInt8 × Fin msgBufSize)) :=
  match copyMessage b start (pos - start - 2) 0 instBuf with
  | .error f => .error (.fault f)
  | .ok instBuf => .ok (some (instBuf, Fin.ofNat msgBufSize (pos + 1)))

/-- `lookup_packet`: the instruction buffer and the end of the message, if there is one. -/
def lookupPacket (b : Fin msgBufSize → UInt8) (instBuf : List UInt8)
    (start stop : Fin msgBufSize) : Except Halt (Option (List UInt8 × Fin msgBufSize)) :=
  if stop = start then .ok none
  else
    let last := linearEnd start stop
    if last - start < 8 then .ok none
    else if b start ≠ gpsStartChar then .error (.exit notAMessage)
    else
      let pos := lookForEnd b (last - start) start
      -- the byte at the end of the data is read, but does not count
      if b (Fin.ofNat msgBufSize pos) ≠ gpsEndChar ∨ pos = last then .ok none
      else takeMessage b instBuf start pos

/-- `output_from_gps`, which is the code of the other driver. -/
def outputFromGps (gpsState : GpsState) (r : MsgRing) (msg : List UInt8) : Except Halt MsgRing :=
  match LassenIq.outputFromGps gpsState r msg with
  | .error e => .error (.exit e.text)
  | .ok r => .ok r

/-- `buff_start` after a message that ends at `stop`. -/
def consumed (r : MsgRing) (stop : Fin msgBufSize) : MsgRing :=
  { r with buffStart := Fin.ofNat msgBufSize (linearEnd r.buffStart stop) }

/-! ### One call -/

/-- The frames that the driver looks for. -/
def sentences : Framer UInt8 := Framer.delimited gpsStartChar gpsEndChar 8 (by decide)

/-- What is copied of a frame. -/
def bodyOf (frame : List UInt8) : List UInt8 := (frame.drop 1).take (frame.length - 3)

/-- The loop over the buffer goes up to the end, or to the end of the data. -/
private theorem lookForEnd_append {b : Fin msgBufSize → UInt8} {body rest : List UInt8} {pos : ℕ}
    (h : HoldsFrom b pos (body ++ gpsEndChar :: rest)) (hbody : gpsEndChar ∉ body) :
    lookForEnd b (body ++ gpsEndChar :: rest).length pos = pos + body.length := by
  induction body generalizing pos with
  | nil => exact if_neg (not_not.mpr h.1)
  | cons x body ih =>
    obtain ⟨hx, hbody⟩ := not_or.mp (List.mem_cons.not.mp hbody)
    rw [List.cons_append, List.length_cons, lookForEnd, if_pos (by rw [h.1]; exact Ne.symm hx),
      ih h.2 hbody, List.length_cons]
    omega

private theorem lookForEnd_of_notMem {b : Fin msgBufSize → UInt8} {xs : List UInt8} {pos : ℕ}
    (h : HoldsFrom b pos xs) (hxs : gpsEndChar ∉ xs) :
    lookForEnd b xs.length pos = pos + xs.length := by
  induction xs generalizing pos with
  | nil => rfl
  | cons x xs ih =>
    obtain ⟨hx, hxs⟩ := not_or.mp (List.mem_cons.not.mp hxs)
    rw [List.length_cons, lookForEnd, if_pos (by rw [h.1]; exact Ne.symm hx), ih h.2 hxs]
    omega

/-- **The copy** fills the instruction buffer with the message and a zero, or leaves it. -/
theorem copyMessage_eq {b : Fin msgBufSize → UInt8} {start : ℕ} {body front rest : List UInt8}
    (h : HoldsFrom b (start + 1 + front.length) body) :
    copyMessage b start body.length front.length (front ++ rest) =
      if body.length < rest.length then .ok (front ++ body ++ 0 :: rest.drop (body.length + 1))
      else .error (.write (front ++ rest).length 1) := by
  induction body generalizing front rest with
  | nil =>
    cases rest with
    | nil =>
      rw [List.append_nil, List.length_nil, copyMessage, store_singleton_end, if_neg (by simp)]
    | cons y rest =>
      rw [List.length_nil, copyMessage, store_singleton, if_pos (by simp), List.append_nil]
      rfl
  | cons x body ih =>
    cases rest with
    | nil =>
      rw [List.append_nil, List.length_cons, copyMessage, store_singleton_end, if_neg (by simp)]
      rfl
    | cons y rest =>
      have hx : b (Fin.ofNat msgBufSize (start + 1 + front.length)) = x := h.1
      have hfront : (front ++ [x]).length = front.length + 1 := List.length_append
      have hrest : HoldsFrom b (start + 1 + (front ++ [x]).length) body := by
        rw [hfront]
        exact h.2
      have hnext : copyMessage b start body.length (front ++ [x]).length (front ++ [x] ++ rest) =
          _ := ih hrest
      rw [hfront, List.append_assoc, List.singleton_append] at hnext
      rw [List.length_cons, copyMessage, hx, store_singleton, ok_bind, hnext]
      simp

section Lookup

variable {r : MsgRing} {pending instBuf : List UInt8}

/-- Eight bytes or more are not an empty buffer. -/
private theorem buffEnd_ne_of_le (h : r.Pending pending) (hle : 8 ≤ pending.length) :
    r.buffEnd ≠ r.buffStart := by
  have hlt := h.length_lt
  have hstart := r.buffStart.isLt
  intro heq
  have hmod : r.buffStart.val = (r.buffStart + pending.length) % msgBufSize :=
    congrArg Fin.val (heq.symm.trans h.end_eq)
  simp only [msgBufSize] at hlt hstart hmod
  omega

private theorem lookupPacket_of_lt (h : r.Pending pending) (hlt : pending.length < 8) :
    lookupPacket r.msgBuf instBuf r.buffStart r.buffEnd = .ok none := by
  rw [lookupPacket]
  simp only [h.linearEnd_eq, Nat.add_sub_cancel_left]
  rw [if_pos hlt, ite_self]

/-- With eight bytes or more it is the first one that counts. -/
private theorem buffStart_mark_iff (h : r.Pending pending) (hle : 8 ≤ pending.length) :
    r.msgBuf r.buffStart = gpsStartChar ↔ pending.head? = some gpsStartChar :=
  h.first_eq_iff (List.ne_nil_of_length_pos (by omega)) gpsStartChar

/-- And then the line feed. -/
private theorem lookupPacket_of_mark (h : r.Pending pending) (hle : 8 ≤ pending.length)
    (hmark : pending.head? = some gpsStartChar) {pos : ℕ}
    (hpos : lookForEnd r.msgBuf pending.length r.buffStart = pos) :
    lookupPacket r.msgBuf instBuf r.buffStart r.buffEnd =
      if r.msgBuf (Fin.ofNat msgBufSize pos) ≠ gpsEndChar ∨ pos = r.buffStart + pending.length
      then .ok none
      else takeMessage r.msgBuf instBuf r.buffStart pos := by
  rw [lookupPacket, if_neg (buffEnd_ne_of_le h hle)]
  simp only [h.linearEnd_eq, Nat.add_sub_cancel_left]
  rw [if_neg hle.not_gt, if_neg (not_not.mpr ((buffStart_mark_iff h hle).mpr hmark)), hpos]

theorem lookupPacket_none (h : r.Pending pending) (hlook : sentences.look pending = .ok none) :
    lookupPacket r.msgBuf instBuf r.buffStart r.buffEnd = .ok none := by
  by_cases hmin : pending.length < 8
  · exact lookupPacket_of_lt h hmin
  obtain hlt | ⟨hmark, hscan⟩ := Framer.look_eq_none hlook
  · exact absurd hlt hmin
  have hend := lookForEnd_of_notMem h.holds (Framer.scanLast_eq_none_iff.mp hscan)
  rw [lookupPacket_of_mark h (Nat.le_of_not_lt hmin) hmark hend, if_pos (.inr rfl)]

theorem lookupPacket_error (h : r.Pending pending) {e : Framer.Ended}
    (hlook : sentences.look pending = .error e) :
    lookupPacket r.msgBuf instBuf r.buffStart r.buffEnd = .error (.exit notAMessage) := by
  obtain ⟨hmin, hmark, -⟩ := Framer.look_eq_error hlook
  have hle : 8 ≤ pending.length := hmin
  rw [lookupPacket, if_neg (buffEnd_ne_of_le h hle)]
  simp only [h.linearEnd_eq, Nat.add_sub_cancel_left]
  rw [if_neg hle.not_gt, if_pos fun hstart => hmark ((buffStart_mark_iff h hle).mp hstart)]

/-- What is copied of a frame: all but its first byte and its last two. -/
private theorem bodyOf_eq (x y : UInt8) (body : List UInt8) :
    bodyOf (x :: body ++ [y]) = body.dropLast := by
  have hlen : (x :: body ++ [y]).length - 3 = body.length - 1 := by
    simp only [List.length_append, List.length_cons, List.length_nil]
    omega
  rw [bodyOf, hlen, List.cons_append, List.drop_one, List.tail_cons,
    List.take_append_of_le_length (Nat.sub_le _ _), List.dropLast_eq_take]

/-- **A sentence is copied** with a zero behind it, if there is room for that. -/
theorem takeMessage_eq {b : Fin msgBufSize → UInt8} {start : ℕ} {body : List UInt8}
    (h : HoldsFrom b start (gpsStartChar :: body)) :
    takeMessage b instBuf start (start + (gpsStartChar :: body).length) =
      if body.dropLast.length < instBuf.length then
        .ok (some (body.dropLast ++ 0 :: instBuf.drop (body.dropLast.length + 1),
          Fin.ofNat msgBufSize (start + ((gpsStartChar :: body).length + 1))))
      else .error (.fault (.write instBuf.length 1)) := by
  have hheld : HoldsFrom b (start + 1 + ([] : List UInt8).length) body.dropLast := by
    rw [List.dropLast_eq_take]
    exact h.2.take _
  have hcopy : copyMessage b start body.dropLast.length 0 instBuf = _ := copyMessage_eq hheld
  have hcount : start + (gpsStartChar :: body).length - start - 2 = body.dropLast.length := by
    rw [List.length_dropLast, List.length_cons]
    omega
  rw [takeMessage, hcount, hcopy]
  split_ifs <;> rfl

/-- **A sentence is found.** -/
theorem lookupPacket_some (h : r.Pending pending) {n : ℕ}
    (hlook : sentences.look pending = .ok (some n)) :
    lookupPacket r.msgBuf instBuf r.buffStart r.buffEnd =
      if (bodyOf (pending.take n)).length < instBuf.length then
        .ok (some (bodyOf (pending.take n) ++
          0 :: instBuf.drop ((bodyOf (pending.take n)).length + 1),
          Fin.ofNat msgBufSize (r.buffStart + n)))
      else .error (.fault (.write instBuf.length 1)) := by
  obtain ⟨hmin, hmark, hscan⟩ := Framer.look_eq_some hlook
  obtain ⟨front, rest, rfl, hfront, rfl⟩ := Framer.scanLast_eq_some hscan
  have hend := lookForEnd_append h.holds hfront
  obtain ⟨hheld, hrest⟩ := holdsFrom_append.mp h.holds
  -- the first byte is not the line feed
  obtain ⟨body, rfl⟩ : ∃ body, front = gpsStartChar :: body := by
    cases front with
    | nil => exact absurd (Option.some.inj hmark) (by decide)
    | cons x body => exact ⟨body, by rw [Option.some.inj hmark]; rfl⟩
  have htake : (gpsStartChar :: body ++ gpsEndChar :: rest).take
      ((gpsStartChar :: body).length + 1) = gpsStartChar :: body ++ [gpsEndChar] := by
    rw [List.take_length_add_append, List.take_one]
    rfl
  have hfound : ¬ (r.msgBuf (Fin.ofNat msgBufSize (r.buffStart + (gpsStartChar :: body).length)) ≠
      gpsEndChar ∨ r.buffStart + (gpsStartChar :: body).length =
        r.buffStart + (gpsStartChar :: body ++ gpsEndChar :: rest).length) := by
    rintro (hne | hlen)
    · exact hne hrest.1
    · rw [List.length_append, List.length_cons (a := gpsEndChar)] at hlen
      omega
  rw [lookupPacket_of_mark h hmin hmark hend, if_neg hfound, takeMessage_eq hheld, htake, bodyOf_eq]

/-- What is left in the buffer behind a sentence. -/
theorem pending_consumed (h : r.Pending pending) {n : ℕ} (hn : n ≤ pending.length) :
    (consumed r (Fin.ofNat msgBufSize (r.buffStart + n))).Pending (pending.drop n) := by
  have hlt := h.length_lt
  have hlast : linearEnd r.buffStart (Fin.ofNat msgBufSize (r.buffStart + n)) = r.buffStart + n :=
    LassenIq.linearEnd_sub (by omega) (Fin.ofNat_val_eq_self _).symm rfl
  rw [consumed, hlast]
  exact h.advance hn (h.holds.drop hn)

end Lookup

/-! ### Runs -/

/-- The driver, what is still to come over the line, and the contents of the instruction buffer each
time that `lookup_packet` returned 1. -/
structure Nmea where
  ring : MsgRing
  instBuf : List UInt8
  toCome : List UInt8
  reports : List (List UInt8)

/-- One event. -/
def nmeaStep (s : Nmea) : LineEvent → Except Halt Nmea
  | .output gpsState n => do
    let ring ← outputFromGps gpsState s.ring (s.toCome.take n)
    return { s with ring, toCome := s.toCome.drop n }
  | .lookup => do
    match ← lookupPacket s.ring.msgBuf s.instBuf s.ring.buffStart s.ring.buffEnd with
    | none => return s
    | some (instBuf, stop) =>
      return { s with ring := consumed s.ring stop, instBuf, reports := s.reports ++ [instBuf] }

/-- A text in the instruction buffer, with the zero that ends it. -/
def Shows (instBuf text : List UInt8) : Prop :=
  instBuf.length = instBufSize ∧ ∃ rest, instBuf = text ++ 0 :: rest

/-- The driver as a reader of frames. -/
structure Reads (s : Nmea) (r : Framer.Reader UInt8) : Prop where
  ring : s.ring.Pending r.pending
  toCome : s.toCome = r.toCome
  instBuf : s.instBuf.length = instBufSize
  reports : List.Forall₂ (fun instBuf frame => Shows instBuf (bodyOf frame)) s.reports r.frames

section Reads

variable {s : Nmea} {r : Framer.Reader UInt8}

theorem Reads.start {ring : MsgRing} (h : ring.buffStart = ring.buffEnd) {instBuf : List UInt8}
    (hinst : instBuf.length = instBufSize) (bytes : List UInt8) :
    Reads ⟨ring, instBuf, bytes, []⟩ ⟨[], bytes, []⟩ :=
  ⟨LassenIq.MsgRing.pending_nil h, rfl, hinst, .nil⟩

private theorem Reads.unprocessed_eq (h : Reads s r) : s.ring.unprocessed = r.pending.length := by
  rw [MsgRing.unprocessed, h.ring.linearEnd_eq, Nat.add_sub_cancel_left]

theorem Reads.output (h : Reads s r) {gpsState : GpsState} (hinit : gpsState ≠ .preInit) (n : ℕ) :
    Run.Agree Reads (SameEnd Halt.exit notAMessage) (nmeaStep s (.output gpsState n))
      (sentences.step 1023 r (.receive n)) := by
  rw [nmeaStep, outputFromGps, h.toCome, Framer.step]
  split_ifs with hroom
  · obtain ⟨ring, hring, hpending⟩ := LassenIq.outputFromGps_eq hinit h.ring hroom
    rw [hring]
    exact ⟨hpending, rfl, h.instBuf, h.reports⟩
  · rw [LassenIq.outputFromGps_full hinit h.ring (Nat.lt_of_not_le hroom)]
    exact rfl

/-- `process_msg` looks for a message, and what it finds has room in the instruction buffer. -/
theorem Reads.lookup (h : Reads s r)
    (hshort : ∀ n, sentences.look r.pending = .ok (some n) →
      (bodyOf (r.pending.take n)).length < instBufSize) :
    Run.Agree Reads (SameEnd Halt.exit notAMessage) (nmeaStep s .lookup)
      (sentences.step 1023 r .look) := by
  rw [nmeaStep]
  cases hlook : sentences.look r.pending with
  | error e =>
    obtain ⟨-, -, rfl⟩ := Framer.look_eq_error hlook
    rw [lookupPacket_error h.ring hlook, Framer.step_look_error hlook]
    exact rfl
  | ok found =>
    cases found with
    | none =>
      rw [lookupPacket_none h.ring hlook, Framer.step_look_none hlook]
      exact h
    | some n =>
      obtain ⟨-, -, hscan⟩ := Framer.look_eq_some hlook
      have hle := (sentences.scan_append hscan []).1
      have hroom := hshort n hlook
      rw [← h.instBuf] at hroom
      rw [lookupPacket_some h.ring hlook, if_pos hroom, Framer.step_look_some hlook]
      have hlen : (bodyOf (r.pending.take n) ++
          0 :: s.instBuf.drop ((bodyOf (r.pending.take n)).length + 1)).length = instBufSize := by
        rw [List.length_append, List.length_cons, List.length_drop]
        have := h.instBuf
        omega
      exact ⟨pending_consumed h.ring hle, h.toCome, hlen,
        List.rel_append h.reports (.cons ⟨hlen, _, rfl⟩ .nil)⟩

end Reads

/-! ### Streams of sentences -/

/-- The body of a sentence. -/
structure Body where
  bytes : List UInt8
  length_le : bytes.length ≤ 99
  no_end : gpsEndChar ∉ bytes

/-- The sentence on the line. -/
def Body.encode (b : Body) : List UInt8 := gpsStartChar :: (b.bytes ++ [0x0d]) ++ [gpsEndChar]

/-- Sentences one after the other. -/
def nmeaStream (bs : List Body) : List UInt8 := (bs.map Body.encode).flatten

theorem Body.isFrame (b : Body) : sentences.IsFrame b.encode := by
  have hend : gpsEndChar ∉ gpsStartChar :: (b.bytes ++ [0x0d]) := by
    rw [List.mem_cons, List.mem_append, List.mem_singleton]
    rintro (h | h | h)
    · exact absurd h (by decide)
    · exact b.no_end h
    · exact absurd h (by decide)
  have hlength : b.encode.length = (gpsStartChar :: (b.bytes ++ [0x0d])).length + 1 :=
    List.length_append
  exact ⟨rfl, (Framer.scanLast_append hend []).trans (congrArg some hlength.symm)⟩

theorem Body.bodyOf_encode (b : Body) : bodyOf b.encode = b.bytes := by
  rw [Body.encode, bodyOf_eq, List.dropLast_concat]

/-- There is room for the next byte, and the driver is initialised. -/
def NmeaFits (s : Nmea) : LineEvent → Prop
  | .output gpsState n =>
    gpsState ≠ .preInit ∧ s.ring.unprocessed + (s.toCome.take n).length ≤ 1023
  | .lookup => True

instance : ∀ (s : Nmea) (e : LineEvent), Decidable (NmeaFits s e)
  | s, .output gpsState n => inferInstanceAs (Decidable
      (gpsState ≠ .preInit ∧ s.ring.unprocessed + (s.toCome.take n).length ≤ 1023))
  | _, .lookup => inferInstanceAs (Decidable True)

/-- `process_msg` has to wait for more data. -/
def NmeaWaiting (s : Nmea) : Prop :=
  lookupPacket s.ring.msgBuf s.instBuf s.ring.buffStart s.ring.buffEnd = .ok none

/-- **The invariant**: some sentences have been reported, and what is in the buffer and what is to
come are the others as they were sent. -/
structure NmeaFramed (bs : List Body) (s : Nmea) (reported later : List Body)
    (pending : List UInt8) : Prop where
  split : bs = reported ++ later
  reports : List.Forall₂ (fun instBuf b => Shows instBuf b.bytes) s.reports reported
  stream_eq : pending ++ s.toCome = nmeaStream later
  ring : s.ring.Pending pending

section Framed

variable {bs : List Body} {s : Nmea} {r : Framer.Reader UInt8} {later : List (List UInt8)}

theorem isFrame_of_mem_map {x : List UInt8} (h : x ∈ bs.map Body.encode) : sentences.IsFrame x := by
  obtain ⟨b, -, rfl⟩ := List.mem_map.mp h
  exact b.isFrame

/-- A sentence that is found has room in the instruction buffer. -/
private theorem short_of_framed (h : Framer.Framed (bs.map Body.encode) r later) {n : ℕ}
    (hlook : sentences.look r.pending = .ok (some n)) :
    (bodyOf (r.pending.take n)).length < instBufSize := by
  obtain ⟨hnone, -⟩ | ⟨x, later', rest, rfl, hrest, -, hsome⟩ :=
    h.look_eq fun x => isFrame_of_mem_map
  · cases hlook.symm.trans hnone
  · cases hlook.symm.trans hsome
    have hmem : x ∈ bs.map Body.encode := by
      rw [h.split]
      simp
    obtain ⟨b, -, rfl⟩ := List.mem_map.mp hmem
    rw [hrest, List.take_left, b.bodyOf_encode]
    exact Nat.lt_succ_of_le b.length_le

/-- **One event** with room for what arrives. -/
theorem Reads.step (h : Reads s r) (hframed : Framer.Framed (bs.map Body.encode) r later)
    {e : LineEvent} (hfits : NmeaFits s e) :
    Framer.Fits 1023 r e.forReader ∧
      Run.Agree Reads (SameEnd Halt.exit notAMessage) (nmeaStep s e)
        (sentences.step 1023 r e.forReader) := by
  cases e with
  | output gpsState n =>
    obtain ⟨hinit, hroom⟩ := hfits
    rw [h.unprocessed_eq, h.toCome] at hroom
    exact ⟨hroom, h.output hinit n⟩
  | lookup => exact ⟨trivial, h.lookup fun n => short_of_framed hframed⟩

/-- What has been read are the first sentences. -/
private theorem Reads.framed (h : Reads s r)
    (hframed : Framer.Framed (bs.map Body.encode) r later) :
    ∃ reported later', NmeaFramed bs s reported later' r.pending ∧
      later = later'.map Body.encode := by
  obtain ⟨reported, later', rfl, hreported, hlater⟩ := List.map_eq_append_iff.mp hframed.split
  refine ⟨reported, later', ⟨rfl, ?_, ?_, h.ring⟩, hlater.symm⟩
  · have hreports := h.reports
    rw [← hreported, List.forall₂_map_right_iff] at hreports
    simpa only [Body.bodyOf_encode] using hreports
  · rw [h.toCome, hframed.stream_eq, ← hlater]
    rfl

private theorem Reads.waiting_iff (h : Reads s r)
    (hframed : Framer.Framed (bs.map Body.encode) r later) :
    NmeaWaiting s ↔ sentences.look r.pending = .ok none := by
  rw [NmeaWaiting]
  obtain ⟨hnone, -⟩ | ⟨x, later', rest, -, -, -, hsome⟩ :=
    hframed.look_eq fun x => isFrame_of_mem_map
  · exact iff_of_true (lookupPacket_none h.ring hnone) hnone
  · have hroom := short_of_framed hframed hsome
    rw [← h.instBuf] at hroom
    refine iff_of_false ?_ (by rw [hsome]; nofun)
    rw [lookupPacket_some h.ring hsome, if_pos hroom]
    nofun

end Framed

/-- **Framing.** Any sentences with bodies of at most 99 bytes, sent one after the other, arriving
in any pieces at any position of the buffer, with `process_msg` looking for messages at any moments
in between, as long as there is room for what arrives: the driver does not stop; at every moment the
instruction buffer has held the bodies of some first sentences with a zero behind each, in order,
each of them once; what is in the buffer and what is to come are the other sentences as they were
sent; the driver waits if and only if there are less than eight bytes or the next sentence has not
come as a whole; and when everything has come and it waits, it has reported all sentences or one to
seven bytes are left. -/
theorem nmea_framing (bs : List Body) (ring : MsgRing) (hempty : ring.buffStart = ring.buffEnd)
    (instBuf : List UInt8) (hinst : instBuf.length = instBufSize) (es : List LineEvent)
    (hfits : Run.AllStepsM nmeaStep NmeaFits ⟨ring, instBuf, nmeaStream bs, []⟩ es) :
    ∃ s, Run.execM nmeaStep ⟨ring, instBuf, nmeaStream bs, []⟩ es = .ok s ∧
      (∃ reported later pending, NmeaFramed bs s reported later pending ∧
        (NmeaWaiting s ↔
          pending.length < 8 ∨ ∀ b ∈ later.head?, pending.length < b.encode.length)) ∧
      (s.toCome = [] → NmeaWaiting s → 0 < s.ring.unprocessed ∧ s.ring.unprocessed < 8 ∨
        List.Forall₂ (fun instBuf b => Shows instBuf b.bytes) s.reports bs) := by
  obtain ⟨s, hs, r, later, h, hframer⟩ := Framer.execM_framed LineEvent.forReader
    (fun x => isFrame_of_mem_map) (fun s r _ e h hframed hfits => h.step hframed hfits)
    (Reads.start hempty hinst (nmeaStream bs)) hfits
  obtain ⟨reported, later', hframed, rfl⟩ := h.framed hframer
  have hwaiting := h.waiting_iff hframer
  refine ⟨s, hs, ⟨reported, later', r.pending, hframed, ?_⟩, fun hcome hwait => ?_⟩
  · rw [hwaiting, hframer.look_eq_none_iff fun x => isFrame_of_mem_map]
    refine or_congr_right ?_
    cases later' <;> simp
  · rw [h.unprocessed_eq]
    have hdone := hframer.done (fun x => isFrame_of_mem_map) (h.toCome ▸ hcome)
      (hwaiting.mp hwait)
    refine hdone.symm.imp_right fun hnone => ?_
    rw [hframed.split, List.map_eq_nil_iff.mp hnone, List.append_nil]
    exact hframed.reports

/-- A body of six letters. -/
def letters : Body := ⟨[0x41, 0x42, 0x43, 0x44, 0x45, 0x46], by decide, by decide⟩

/-- A body of six digits. -/
def digits : Body := ⟨[0x31, 0x32, 0x33, 0x34, 0x35, 0x36], by decide, by decide⟩

/-- The two sentences are to come, and the end of the buffer is near. -/
def twoToCome : Nmea :=
  ⟨⟨fun _ => 0, 1020, 1020⟩, List.replicate 100 0, nmeaStream [letters, digits], []⟩

/-- They arrive in three pieces. -/
def threePieces : List LineEvent :=
  [.output .search 5, .lookup, .output .search 7, .lookup, .lookup, .output .search 6, .lookup]

theorem nmea_framing_threePieces :
    ∃ s, Run.execM nmeaStep twoToCome threePieces = .ok s ∧
      List.Forall₂ (fun instBuf b => Shows instBuf b.bytes) s.reports [letters, digits] := by
  have hfits : Run.AllStepsM nmeaStep NmeaFits twoToCome threePieces := by decide +kernel
  obtain ⟨s, hs, -, hall⟩ := nmea_framing [letters, digits] ⟨fun _ => 0, 1020, 1020⟩ rfl
    (List.replicate 100 0) List.length_replicate threePieces hfits
  -- everything has come in the end, and nothing is in the buffer
  obtain ⟨s', hs', hend⟩ := Fallible.exists_ok_of_toOption
    (show (Run.execM nmeaStep twoToCome threePieces).toOption.map
      (fun s => (s.toCome, s.ring.buffStart, s.ring.buffEnd)) = some ([], 14, 14) by
        decide +kernel)
  cases hs.symm.trans hs'
  obtain ⟨hcome, hstart, hstop⟩ : s.toCome = [] ∧ s.ring.buffStart = 14 ∧ s.ring.buffEnd = 14 := by
    simpa using hend
  have hwait : NmeaWaiting s := if_pos (hstop.trans hstart.symm)
  have hnone : s.ring.unprocessed = 0 := by
    rw [MsgRing.unprocessed, hstart, hstop]
    rfl
  refine ⟨s, hs, (hall hcome hwait).resolve_left fun hleft => ?_⟩
  omega

end MiaVita.Condor
