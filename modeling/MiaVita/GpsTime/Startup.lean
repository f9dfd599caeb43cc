import MiaVita.GpsTime.Nmea

/-!
# Starting the driver (`gps_time`)

The receiver sends all the time, and the thread that reads from it is started before the driver is
initialised. Until then `output_from_gps` throws away what it is given, one piece after the other.
The pieces are what `read` returned and not the packets: the first one that is kept may start in the
middle of a packet. Both drivers take it for the start of one and exit if it does not look like one.

A run of either driver is a run of the reader of frames, also on bytes that are not packets. With
`Framer.badStart_iff` this gives the condition on the bytes that are kept (`neverReached_iff`). For
the sentences of the Condor it comes down to their first byte, since the line feed at the end of a
sentence cannot be mistaken; a packet of the Lassen iQ may contain what looks like the end of one if
it is entered in the middle of a doubled `DLE`.
-/

namespace MiaVita

open LassenIq (LineEvent SameEnd)

/-! ### A driver that is started late -/

section Driver

variable {σ ε : Type} (step : σ → LineEvent → Except ε σ) (start : List UInt8 → σ)

/-- The driver is initialised, and the bytes that arrive are what `read` may return. -/
def Running : LineEvent → Prop
  | .output gpsState n => gpsState ≠ .preInit ∧ 1 ≤ n ∧ n ≤ 100
  | .lookup => True

/-- **An exit is never reached**: whatever the driver is given in pieces of up to 100 bytes, when
the first pieces were thrown away. -/
def NeverReached (exit : ε) (bytes : List UInt8) (ns : List ℕ) : Prop :=
  ∀ es, (∀ e ∈ es, Running e) →
    Run.execM step (start bytes) (ns.map (.output .preInit) ++ es) ≠ .error exit

/-- Any event of a reader that is running. -/
private def ofReader : Framer.Event → LineEvent
  | .receive n => .output .search n
  | .look => .lookup

private theorem SameEnd.bad_iff {exit : String → ε} {text : String}
    (hexit : exit text ≠ exit LassenIq.noSpaceLeft) (x : ε) (y : Framer.Ended)
    (h : SameEnd exit text x y) : x = exit text ↔ y = .badStart := by
  cases y with
  | overflow =>
    obtain rfl : x = exit LassenIq.noSpaceLeft := h
    exact iff_of_false hexit.symm nofun
  | badStart => exact iff_of_true h rfl

variable {step start} {f : Framer UInt8} {R : σ → Framer.Reader UInt8 → Prop} {exit : String → ε}
  {text : String}

/-- **A driver that reads frames**, and throws away what comes before it is initialised, never exits
for the start of a frame if and only if a reader is not lost on the rest. -/
theorem neverReached_iff
    (hstep : ∀ s r e, R s r → Running e →
      Run.Agree R (SameEnd exit text) (step s e) (f.step 1023 r e.forReader))
    (hdiscard : ∀ bytes n, step (start bytes) (.output .preInit n) = .ok (start (bytes.drop n)))
    (hexit : exit text ≠ exit LassenIq.noSpaceLeft) (hcap : f.minimum ≤ 1023) {bytes : List UInt8}
    {ns : List ℕ} (hstart : R (start (bytes.drop ns.sum)) ⟨[], bytes.drop ns.sum, []⟩) :
    NeverReached step start (exit text) bytes ns ↔ ¬ f.Lost 1023 (bytes.drop ns.sum) := by
  have hinv : ∀ e, (ofReader e).forReader = e := by
    rintro (n | -) <;> rfl
  have hrun := Framer.execM_discard start (LineEvent.output .preInit) hdiscard bytes ns
  simp only [NeverReached, hrun]
  exact Framer.never_bad_iff LineEvent.forReader ofReader hstep hinv ⟨nofun, le_rfl, by decide⟩
    trivial (SameEnd.bad_iff hexit) hcap hstart

end Driver

/-! ### The Lassen iQ on any bytes -/

namespace LassenIq

/-- The exit of `lookup_packet` is never reached. -/
def NeverExits (ring : MsgRing) (bytes : List UInt8) (ns : List ℕ) : Prop :=
  NeverReached tsipStep (fun bytes => ⟨ring, bytes, []⟩) ⟨notAPacket⟩ bytes ns

private theorem neverExits_iff {ring : MsgRing} (hempty : ring.buffStart = ring.buffEnd)
    (bytes : List UInt8) (ns : List ℕ) :
    NeverExits ring bytes ns ↔ ¬ packets.Lost 1023 (bytes.drop ns.sum) := by
  refine neverReached_iff (R := Reads) (fun s r e h hrunning => ?_) (fun _ _ => rfl) ?_ (by decide)
    (.start hempty _)
  · cases e with
    | output gpsState n => exact h.output hrunning.1 n
    | lookup => exact h.lookup
  · rw [ne_eq, Exit.mk.injEq]
    decide

/-- Between two packets nobody gets lost. -/
private theorem not_lost_stream (ps : List TsipPacket) : ¬ packets.Lost 1023 (stream ps) := by
  rw [stream, List.flatMap_def]
  exact Framer.not_lost_of_frames fun x => isFrame_of_mem_map

end LassenIq

/-! ### The Condor on sentences -/

namespace Condor

open LassenIq (MsgRing msgBufSize)

/-- Whatever is left of some sentences starts with what is left of one of them. -/
private theorem drop_nmeaStream (bs : List Body) (k : ℕ) :
    (nmeaStream bs).drop k = [] ∨ ∃ front bs', gpsEndChar ∉ front ∧ front.length ≤ 101 ∧
      (nmeaStream bs).drop k = front ++ [gpsEndChar] ++ nmeaStream bs' := by
  induction bs generalizing k with
  | nil => exact .inl List.drop_nil
  | cons b bs ih =>
    have hcons : nmeaStream (b :: bs) = b.encode ++ nmeaStream bs := rfl
    by_cases hk : k < b.encode.length
    · obtain ⟨-, hscan⟩ := b.isFrame
      obtain ⟨front, rest, hencode, hfront, hlen⟩ := Framer.scanLast_eq_some hscan
      have hrest : rest = [] := by
        have := congrArg List.length hencode
        rw [List.length_append, List.length_cons] at this
        exact List.eq_nil_of_length_eq_zero (by omega)
      have hle : front.length ≤ 101 := by
        have hb := b.length_le
        simp only [Body.encode, List.length_append, List.length_cons, List.length_nil] at hlen
        omega
      rw [hrest] at hencode
      refine .inr ⟨front.drop k, bs, fun h => hfront (List.mem_of_mem_drop h), ?_, ?_⟩
      · rw [List.length_drop]
        omega
      · rw [hcons, List.drop_append_of_le_length hk.le, hencode,
          List.drop_append_of_le_length (by omega)]
    · rw [hcons, List.drop_append, List.drop_eq_nil_of_le (Nat.le_of_not_lt hk), List.nil_append]
      exact ih _

/-- No sentence in the bytes is too long for the instruction buffer, wherever it is entered. -/
private def Short (bytes : List UInt8) : Prop :=
  ∀ k n, sentences.scan (bytes.drop k) = some n → n ≤ 102

private theorem short_nmeaStream (bs : List Body) : Short (nmeaStream bs) := by
  intro k n hscan
  obtain hnil | ⟨front, bs', hfront, hlen, heq⟩ := drop_nmeaStream bs k
  · rw [hnil] at hscan
    cases hscan
  · rw [heq, List.append_assoc] at hscan
    have hn := Option.some.inj (hscan.symm.trans (Framer.scanLast_append hfront _))
    omega

private theorem Short.drop {bytes : List UInt8} (h : Short bytes) (m : ℕ) :
    Short (bytes.drop m) := by
  intro k n hscan
  rw [List.drop_drop] at hscan
  exact h _ n hscan

/-- **Set onto sentences at any place**, the reader is lost exactly if there are bytes to look at
and they do not start with a dollar sign. -/
theorem lost_drop_iff (bs : List Body) (k : ℕ) :
    sentences.Lost 1023 ((nmeaStream bs).drop k) ↔
      ¬ (((nmeaStream bs).drop k).length < 8 ∨
        ((nmeaStream bs).drop k).head? = some gpsStartChar) := by
  rw [not_or, Nat.not_lt]
  refine ⟨fun h => ⟨h.minimum_le, fun hmark => ?_⟩, fun h => .here h.1 h.2⟩
  obtain hnil | ⟨front, bs', hfront, -, heq⟩ := drop_nmeaStream bs k
  · rw [hnil] at hmark
    cases hmark
  · -- what is left of the first sentence is a sentence by itself
    have hframe : sentences.IsFrame (front ++ [gpsEndChar]) := by
      refine ⟨?_, (Framer.scanLast_append hfront []).trans (by rw [List.length_append]; rfl)⟩
      rw [heq] at hmark
      cases front with
      | nil => exact absurd (Option.some.inj hmark) (by decide)
      | cons x front => exact hmark
    have hframes : ∀ x ∈ (front ++ [gpsEndChar]) :: bs'.map Body.encode, sentences.IsFrame x :=
      List.forall_mem_cons.mpr ⟨hframe, fun x => isFrame_of_mem_map⟩
    rw [heq] at h
    exact Framer.not_lost_of_frames hframes h

/-- The driver as a reader of frames, none of them too long. -/
private def ReadsShort (s : Nmea) (r : Framer.Reader UInt8) : Prop :=
  Reads s r ∧ Short (r.pending ++ r.toCome)

private theorem ReadsShort.step {s : Nmea} {r : Framer.Reader UInt8} {e : LineEvent}
    (h : ReadsShort s r) (hrunning : Running e) :
    Run.Agree ReadsShort (SameEnd Halt.exit notAMessage) (nmeaStep s e)
      (sentences.step 1023 r e.forReader) := by
  obtain ⟨h, hshort⟩ := h
  have hagree : Run.Agree Reads (SameEnd Halt.exit notAMessage) (nmeaStep s e)
      (sentences.step 1023 r e.forReader) := by
    cases e with
    | output gpsState n => exact h.output hrunning.1 n
    | lookup =>
      refine h.lookup fun n hlook => ?_
      obtain ⟨-, -, hscan⟩ := Framer.look_eq_some hlook
      have hn := hshort 0 n (sentences.scan_append hscan r.toCome).2
      rw [bodyOf, List.length_take, List.length_take]
      change _ < 100
      omega
  refine hagree.and fun r' hr' => ?_
  obtain ⟨n, hn⟩ := Framer.step_stream hr'
  rw [hn]
  exact hshort.drop n

/-- The exit of `lookup_packet` is never reached. -/
def NeverExits (ring : MsgRing) (instBuf bytes : List UInt8) (ns : List ℕ) : Prop :=
  NeverReached nmeaStep (fun bytes => ⟨ring, instBuf, bytes, []⟩) (.exit notAMessage) bytes ns

private theorem neverExits_iff {ring : MsgRing} (hempty : ring.buffStart = ring.buffEnd)
    {instBuf : List UInt8} (hinst : instBuf.length = instBufSize) (bs : List Body) (ns : List ℕ) :
    NeverExits ring instBuf (nmeaStream bs) ns ↔
      ((nmeaStream bs).drop ns.sum).length < 8 ∨
        ((nmeaStream bs).drop ns.sum).head? = some gpsStartChar := by
  rw [← not_not (a := _ ∨ _), ← lost_drop_iff]
  exact neverReached_iff (R := ReadsShort) (fun s r e h hrunning => h.step hrunning)
    (fun _ _ => rfl) (by decide) (by decide)
    ⟨.start hempty hinst _, (short_nmeaStream bs).drop _⟩

end Condor

/-! ### Both drivers -/

/-- **Starting does not kill the program, exactly where what is kept can be read.** For any packets
of the Lassen iQ and any sentences of the Condor, whatever pieces are thrown away before the driver
is initialised, and for all pieces of up to 100 bytes that follow, with calls of `lookup_packet` at
any moments in between: the Lassen iQ driver never exits because a packet does not start with `DLE`
if and only if a reader of frames that is set onto the rest of the stream never comes to a place
where none starts; the Condor driver never exits because a message does not start with a dollar sign
if and only if less than eight bytes are left or the first of them is one. -/
theorem startup_safe_iff (ring : LassenIq.MsgRing) (hempty : ring.buffStart = ring.buffEnd)
    (instBuf : List UInt8) (hinst : instBuf.length = Condor.instBufSize)
    (ps : List LassenIq.TsipPacket) (bs : List Condor.Body) (ns : List ℕ) :
    (LassenIq.NeverExits ring (LassenIq.stream ps) ns ↔
        ¬ LassenIq.packets.Lost 1023 ((LassenIq.stream ps).drop ns.sum)) ∧
      (Condor.NeverExits ring instBuf (Condor.nmeaStream bs) ns ↔
        ((Condor.nmeaStream bs).drop ns.sum).length < 8 ∨
          ((Condor.nmeaStream bs).drop ns.sum).head? = some Condor.gpsStartChar) :=
  ⟨LassenIq.neverExits_iff hempty (LassenIq.stream ps) ns,
    Condor.neverExits_iff hempty hinst bs ns⟩

/-- An empty buffer. -/
def freshRing : LassenIq.MsgRing := ⟨fun _ => 0, 0, 0⟩

/-- Drivers that are initialised before anything arrives. -/
theorem startup_safe_fresh :
    LassenIq.NeverExits freshRing (LassenIq.stream [LassenIq.marksPacket]) [] ∧
      Condor.NeverExits freshRing (List.replicate 100 0)
        (Condor.nmeaStream [Condor.letters]) [] := by
  obtain ⟨hlassen, hcondor⟩ := startup_safe_iff freshRing rfl (List.replicate 100 0) (by decide)
    [LassenIq.marksPacket] [Condor.letters] []
  exact ⟨hlassen.mpr (LassenIq.not_lost_stream _), hcondor.mpr (.inr rfl)⟩

/-- **One byte too late**: the first byte of the packet or of the sentence is thrown away, the rest
is kept, and the program exits. -/
theorem startup_exits :
    ¬ LassenIq.NeverExits freshRing (LassenIq.stream [LassenIq.marksPacket]) [1] ∧
      ¬ Condor.NeverExits freshRing (List.replicate 100 0)
        (Condor.nmeaStream [Condor.letters]) [1] := by
  refine ⟨fun h => ?_, fun h => ?_⟩
  · exact h [.output .search 6, .lookup] (by simp [Running]) rfl
  · exact h [.output .search 8, .lookup] (by simp [Running]) rfl

end MiaVita
