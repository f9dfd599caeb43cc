import MiaVita.Lib.ByteStuffing
import MiaVita.Lib.RingWindow
import MiaVita.Lib.Run

/-!
# Packets of the Lassen iQ receiver (`gps_time/trimble_lassen_iq/gps_time.c`)

The GPS receiver sends packets that start with `DLE`, end with `DLE ETX` and have every `DLE` of
their data doubled. What comes over the line is stored, in whatever pieces it arrives, in a circular
buffer of 1024 bytes (`outputFromGps`). `lookupPacket` looks for the end of the packet at the start
of the buffer and, when it has come, takes the packet out of its frame in place: from the last byte
to the first it moves the data towards the end of the frame and drops one `DLE` of two, so that the
message ends where the frame ends.

A call of `lookupPacket` is a look of the reader of frames (`Framer.look`), also on bytes that are
not packets, so that a run of the driver is a run of that reader (`Reads`). What is found is the
packet if it is one (`nextMessage_some`), and `tsip_framing` is what the library says about streams
of frames.
-/

namespace MiaVita.LassenIq

open RingWindow ByteStuffing

/-! ### The driver -/

/-- `DLE`. -/
def dle : UInt8 := 0x10

/-- `ETX`. -/
def etx : UInt8 := 0x03

/-- `MSG_BUF_SIZE`. -/
abbrev msgBufSize : ℕ := 1024

instance : NeZero msgBufSize := ⟨by decide⟩

/-- `gps_state_t`. -/
inductive GpsState where
  | preInit
  | reset
  | search
  | ready
  | query
  deriving DecidableEq

/-- `exit(1)`, with what is printed before. -/
structure Exit where
  text : String

/-- `msg_buf` and the positions of the data in it, the first inclusive and the last exclusive. -/
structure MsgRing where
  msgBuf : Fin msgBufSize → UInt8
  buffStart : Fin msgBufSize
  buffEnd : Fin msgBufSize

/-- The end of the data, with the circular buffer made linear. -/
def linearEnd (start stop : Fin msgBufSize) : ℕ := if stop < start then stop + msgBufSize else stop

/-- Look for message end: `n` bytes are left, and `dleCount` bytes `DLE` are directly before. -/
def lookForEnd (b : Fin msgBufSize → UInt8) : ℕ → ℕ → ℕ → Option ℕ
  | 0, _, _ => none
  | n + 1, pos, dleCount =>
    let byte := b (Fin.ofNat msgBufSize pos)
    if byte = dle then lookForEnd b n (pos + 1) (dleCount + 1)
    else if byte = etx ∧ dleCount % 2 = 1 then some (pos + 1)
    else lookForEnd b n (pos + 1) 0

/-- Remove header, trailer and padding: `origin` is `n` bytes behind `start`. The loop ends when it
has come to `start`, also by a step of two. -/
def unpad (b : Fin msgBufSize → UInt8) (start : ℕ) : ℕ → ℕ → (Fin msgBufSize → UInt8) × ℕ
  | 0, pos => (b, pos)
  | 1, pos =>
    (Function.update b (Fin.ofNat msgBufSize pos) (b (Fin.ofNat msgBufSize (start + 1))), pos - 1)
  | n + 2, pos =>
    let origin := start + (n + 2)
    let b := Function.update b (Fin.ofNat msgBufSize pos) (b (Fin.ofNat msgBufSize origin))
    if b (Fin.ofNat msgBufSize origin) = dle ∧ b (Fin.ofNat msgBufSize (origin - 1)) = dle then
      unpad b start n (pos - 1)
    else unpad b start (n + 1) (pos - 1)

/-- A message that has been found: the buffer, and the positions of the message in it. -/
structure Found where
  msgBuf : Fin msgBufSize → UInt8
  start : Fin msgBufSize
  stop : Fin msgBufSize

/-- The text of the exit of `lookup_packet`. -/
def notAPacket : String := "Packet does not start with DLE. Should never happen rewrite code!"

/-- `lookup_packet`. -/
def lookupPacket (b : Fin msgBufSize → UInt8) (start stop : Fin msgBufSize) :
    Except Exit (Option Found) :=
  let last := linearEnd start stop
  if last - start < 4 then .ok none
  else if b start ≠ dle then .error ⟨notAPacket⟩
  else
    match lookForEnd b (last - start) start 0 with
    | none => .ok none
    | some pos =>
      let stop := Fin.ofNat msgBufSize pos
      let pos := pos - 1
      let origin := pos - 2
      let (b, pos) := unpad b start (origin - start) pos
      .ok (some ⟨b, Fin.ofNat msgBufSize (pos + 1), stop⟩)

/-- The text of the exit of `output_from_gps`. -/
def noSpaceLeft : String := "No space left on buffer to hold message! Quitting.\n"

/-- `output_from_gps`. -/
def outputFromGps (gpsState : GpsState) (r : MsgRing) (msg : List UInt8) : Except Exit MsgRing :=
  if gpsState = .preInit then .ok r
  else
    -- we always leave one free position in the buffer
    if msgBufSize - (linearEnd r.buffStart r.buffEnd - r.buffStart) > msg.length then
      .ok { r with
        msgBuf := writeFrom r.msgBuf r.buffEnd msg
        buffEnd := Fin.ofNat msgBufSize (r.buffEnd + msg.length) }
    else .error ⟨noSpaceLeft⟩

/-- One round of `process_msg`: the message it finds, if it does not have to wait for more. -/
def nextMessage (r : MsgRing) : Except Exit (MsgRing × Option (List UInt8)) := do
  match ← lookupPacket r.msgBuf r.buffStart r.buffEnd with
  | none => return (r, none)
  | some found =>
    let last := linearEnd found.start found.stop
    let message := readFrom found.msgBuf found.start (last - found.start)
    return (⟨found.msgBuf, Fin.ofNat msgBufSize last, r.buffEnd⟩, some message)

/-! ### Packets -/

/-- A packet of the receiver. -/
structure TsipPacket where
  id : UInt8
  data : List UInt8
  id_ne_dle : id ≠ dle
  id_ne_etx : id ≠ etx

/-- The packet on the line. -/
def TsipPacket.encode (p : TsipPacket) : List UInt8 := frame dle etx p.id p.data

/-- The packet as a message. -/
def TsipPacket.message (p : TsipPacket) : List UInt8 := p.id :: p.data

/-- Packets one after the other. -/
def stream (ps : List TsipPacket) : List UInt8 := ps.flatMap TsipPacket.encode

private theorem etx_ne_dle : etx ≠ dle := by decide

private theorem TsipPacket.length_encode (p : TsipPacket) :
    p.encode.length = (stuff dle p.data).length + 4 := length_frame p.id p.data

/-! ### One call of `lookup_packet` -/

/-- The data in the buffer. -/
structure MsgRing.Pending (r : MsgRing) (pending : List UInt8) : Prop where
  holds : HoldsFrom r.msgBuf r.buffStart pending
  length_lt : pending.length < msgBufSize
  end_eq : r.buffEnd = Fin.ofNat msgBufSize (r.buffStart + pending.length)

/-- The linear end of `n` bytes. -/
theorem linearEnd_sub {start stop : Fin msgBufSize} {a n : ℕ} (hn : n < msgBufSize)
    (hstart : start = Fin.ofNat msgBufSize a) (hstop : stop = Fin.ofNat msgBufSize (a + n)) :
    linearEnd start stop = start + n := by
  rw [hstart, hstop, linearEnd]
  simp only [Fin.lt_def, Fin.val_ofNat, msgBufSize] at hn ⊢
  split_ifs <;> omega

theorem MsgRing.Pending.linearEnd_eq {r : MsgRing} {pending : List UInt8} (h : r.Pending pending) :
    linearEnd r.buffStart r.buffEnd = r.buffStart + pending.length :=
  linearEnd_sub h.length_lt (Fin.ofNat_val_eq_self _).symm h.end_eq

theorem MsgRing.Pending.first_eq_iff {r : MsgRing} {pending : List UInt8} (h : r.Pending pending)
    (hne : pending ≠ []) (x : UInt8) : r.msgBuf r.buffStart = x ↔ pending.head? = some x := by
  obtain ⟨y, ys, rfl⟩ := List.exists_cons_of_ne_nil hne
  have hy := h.holds.1
  rw [Fin.ofNat_val_eq_self] at hy
  rw [hy, List.head?_cons, Option.some.injEq]

/-- The first `n` bytes are used up. The buffer may have changed, but not in the others. -/
theorem MsgRing.Pending.advance {r : MsgRing} {pending : List UInt8} (h : r.Pending pending)
    {n : ℕ} (hn : n ≤ pending.length) {b : Fin msgBufSize → UInt8}
    (hb : HoldsFrom b (r.buffStart + n) (pending.drop n)) :
    (MsgRing.mk b (Fin.ofNat msgBufSize (r.buffStart + n)) r.buffEnd).Pending (pending.drop n) := by
  have hlt := h.length_lt
  have hmod : r.buffStart + n ≡ (r.buffStart + n) % msgBufSize [MOD msgBufSize] :=
    (Nat.mod_modEq _ _).symm
  have hsum : r.buffStart + pending.length = r.buffStart + n + (pending.length - n) := by omega
  refine ⟨hb.of_modEq hmod, ?_, ?_⟩
  · rw [List.length_drop]
    omega
  · rw [h.end_eq, List.length_drop, hsum]
    exact Fin.ext (hmod.add_right _)

/-- The loop over the buffer is the search in its data. -/
private theorem lookForEnd_eq {b : Fin msgBufSize → UInt8} {pos : ℕ} {xs : List UInt8}
    (h : HoldsFrom b pos xs) (dleCount : ℕ) :
    lookForEnd b xs.length pos dleCount = (scan dle etx dleCount xs).map (pos + ·) := by
  induction xs generalizing pos dleCount with
  | nil => rfl
  | cons x xs ih =>
    have hmap : ∀ o : Option ℕ, o.map (pos + 1 + ·) = (o.map (· + 1)).map (pos + ·) := by
      intro o
      rw [Option.map_map]
      congr 1
      funext k
      exact Nat.add_right_comm pos 1 k
    simp only [List.length_cons, lookForEnd, h.1, scan]
    split_ifs
    · rw [ih h.2, hmap]
    · rfl
    · rw [ih h.2, hmap]

/-- One round of the loop: the last byte of the data is moved to `pos`. -/
private theorem unpad_concat {id x : UInt8} {data : List UInt8} {b : Fin msgBufSize → UInt8}
    {start pos : ℕ} (hholds : HoldsFrom b start (dle :: id :: stuff dle (data ++ [x])))
    (hpos : start + ((stuff dle (data ++ [x])).length + 1) < pos)
    (hlap : pos < start + msgBufSize) :
    unpad b start ((stuff dle (data ++ [x])).length + 1) pos =
      unpad (Function.update b (Fin.ofNat msgBufSize pos) x) start ((stuff dle data).length + 1)
        (pos - 1) := by
  rw [stuff_append, ← List.cons_append, ← List.cons_append, holdsFrom_append, List.length_cons,
    List.length_cons] at hholds
  rw [stuff_append, List.length_append] at hpos ⊢
  have hlast := hholds.2
  -- `pos` is behind all bytes that are still to be read
  have hread : ∀ q (y : UInt8), start ≤ q → q < pos →
      Function.update b (Fin.ofNat msgBufSize pos) y (Fin.ofNat msgBufSize q) =
        b (Fin.ofNat msgBufSize q) := by
    intro q y hlo hhi
    rw [Function.update_of_ne (ofNat_ne_of_lt hhi (by omega))]
  by_cases hx : x = dle
  · subst hx
    rw [stuff_singleton_self] at hlast hpos ⊢
    simp only [List.length_cons, List.length_nil] at hpos ⊢
    have hprev : b (Fin.ofNat msgBufSize (start + ((stuff dle data).length + 1 + 2) - 1)) = dle :=
      hlast.1
    have horigin : b (Fin.ofNat msgBufSize (start + ((stuff dle data).length + 1 + 2))) = dle :=
      hlast.2.1
    rw [unpad, horigin]
    rw [hread _ _ (by omega) (by omega), hread _ _ (by omega) (by omega), horigin, hprev,
      if_pos ⟨rfl, rfl⟩]
  · rw [stuff_singleton_of_ne hx] at hlast hpos ⊢
    simp only [List.length_cons, List.length_nil] at hpos ⊢
    have horigin : b (Fin.ofNat msgBufSize (start + ((stuff dle data).length + 2))) = x := hlast.1
    rw [unpad, horigin]
    rw [hread _ _ (by omega) (by omega), horigin, if_neg fun h => hx h.1]

/-- **Taking a packet out of its frame**: from `pos` backwards the message is written, and nothing
behind it in the buffer changes. -/
theorem unpad_eq {id : UInt8} (data : List UInt8) {b : Fin msgBufSize → UInt8} {start pos : ℕ}
    (hholds : HoldsFrom b start (dle :: id :: stuff dle data))
    (hpos : start + ((stuff dle data).length + 1) < pos) (hlap : pos < start + msgBufSize) :
    ∃ b', unpad b start ((stuff dle data).length + 1) pos = (b', pos - data.length - 1) ∧
      HoldsFrom b' (pos - data.length) (id :: data) ∧
      ∀ q, pos < q → q < start + msgBufSize →
        b' (Fin.ofNat msgBufSize q) = b (Fin.ofNat msgBufSize q) := by
  -- from the last byte of the data to the first
  induction data using List.reverseRecOn generalizing b pos with
  | nil =>
    refine ⟨_, rfl, ⟨?_, trivial⟩, fun q hlo hhi => ?_⟩
    · rw [List.length_nil, Nat.sub_zero, Function.update_self]
      exact hholds.2.1
    · rw [Function.update_of_ne (ofNat_ne_of_lt (by omega) (by omega)).symm]
  | append_singleton data x ih =>
    have hle := length_le_length_stuff dle (data ++ [x])
    have hfront : HoldsFrom b start (dle :: id :: stuff dle data) := by
      rw [stuff_append, ← List.cons_append, ← List.cons_append, holdsFrom_append] at hholds
      exact hholds.1
    have hlt : (stuff dle data).length < (stuff dle (data ++ [x])).length := by
      have := length_le_length_stuff dle [x]
      rw [stuff_append, List.length_append]
      rw [List.length_singleton] at this
      omega
    rw [List.length_append, List.length_singleton] at hle ⊢
    obtain ⟨b', hb', hmessage, hframe⟩ :=
      ih (hfront.update (by simp only [List.length_cons]; omega) hlap x)
        (by omega : start + ((stuff dle data).length + 1) < pos - 1) (by omega)
    refine ⟨b', ?_, ?_, fun q hlo hhi => ?_⟩
    · rw [unpad_concat hholds hpos hlap, hb']
      congr 1
      omega
    · rw [← List.cons_append, holdsFrom_append, List.length_cons]
      have hpos' : pos - (data.length + 1) + (data.length + 1) = pos := by omega
      have hstart : pos - 1 - data.length = pos - (data.length + 1) := by omega
      rw [hpos', ← hstart]
      refine ⟨hmessage, ?_, trivial⟩
      rw [hframe pos (by omega) hlap, Function.update_self]
    · rw [hframe q (by omega) hhi,
        Function.update_of_ne (ofNat_ne_of_lt (by omega) (by omega)).symm]

/-- The frames that the driver looks for. -/
def packets : Framer UInt8 := ByteStuffing.framer dle etx

/-- Taking a packet out of its frame does not touch what is behind it. -/
private theorem unpad_behind (b : Fin msgBufSize → UInt8) (start n pos : ℕ) {q : ℕ} (hpos : pos < q)
    (hlap : q + n ≤ pos + msgBufSize) :
    (unpad b start n pos).1 (Fin.ofNat msgBufSize q) = b (Fin.ofNat msgBufSize q) := by
  have hwritten : ∀ (b : Fin msgBufSize → UInt8) (pos : ℕ) (x : UInt8), pos < q →
      q < pos + msgBufSize → Function.update b (Fin.ofNat msgBufSize pos) x
        (Fin.ofNat msgBufSize q) = b (Fin.ofNat msgBufSize q) := by
    intro b pos x hpos hlap
    rw [Function.update_of_ne (ofNat_ne_of_lt hpos hlap).symm]
  fun_induction unpad b start n pos with
  | case1 => rfl
  | case2 => exact hwritten _ _ _ hpos (by omega)
  | case3 b pos n origin b' hdle ih =>
    rw [ih (by omega) (by omega)]
    exact hwritten _ _ _ hpos (by omega)
  | case4 b pos n origin b' hdle ih =>
    rw [ih (by omega) (by omega)]
    exact hwritten _ _ _ hpos (by omega)

/-- The end of the data, modulo the size of the buffer. -/
private theorem ofNat_linearEnd (start stop : Fin msgBufSize) :
    Fin.ofNat msgBufSize (linearEnd start stop) = stop := by
  rw [linearEnd]
  split_ifs
  · exact Fin.ext ((Nat.add_mod_right _ _).trans (Nat.mod_eq_of_lt stop.isLt))
  · exact Fin.ofNat_val_eq_self stop

section Lookup

variable {r : MsgRing} {pending : List UInt8}

private theorem buffStart_mark_iff (h : r.Pending pending) (hle : 4 ≤ pending.length) :
    r.msgBuf r.buffStart = dle ↔ pending.head? = some dle :=
  h.first_eq_iff (List.ne_nil_of_length_pos (by omega)) dle

private theorem lookupPacket_none (h : r.Pending pending)
    (hlook : packets.look pending = .ok none) :
    lookupPacket r.msgBuf r.buffStart r.buffEnd = .ok none := by
  rw [lookupPacket]
  simp only [h.linearEnd_eq, Nat.add_sub_cancel_left]
  by_cases hmin : pending.length < 4
  · exact if_pos hmin
  obtain hlt | ⟨hmark, hscan⟩ := Framer.look_eq_none hlook
  · exact absurd hlt hmin
  have hstart := (buffStart_mark_iff h (Nat.le_of_not_lt hmin)).mpr hmark
  have hend : lookForEnd r.msgBuf pending.length r.buffStart 0 = none := by
    rw [lookForEnd_eq h.holds]
    exact Option.map_eq_none_iff.mpr hscan
  rw [if_neg hmin, if_neg (not_not.mpr hstart), hend]

private theorem lookupPacket_error (h : r.Pending pending) {e : Framer.Ended}
    (hlook : packets.look pending = .error e) :
    lookupPacket r.msgBuf r.buffStart r.buffEnd = .error ⟨notAPacket⟩ := by
  obtain ⟨hmin, hmark, -⟩ := Framer.look_eq_error hlook
  have hle : 4 ≤ pending.length := hmin
  rw [lookupPacket]
  simp only [h.linearEnd_eq, Nat.add_sub_cancel_left]
  rw [if_neg hle.not_gt, if_pos fun hstart => hmark ((buffStart_mark_iff h hle).mp hstart)]

/-- **Anything that looks like a packet is taken for one.** -/
theorem lookupPacket_some (h : r.Pending pending) {n : ℕ}
    (hlook : packets.look pending = .ok (some n)) :
    lookupPacket r.msgBuf r.buffStart r.buffEnd =
      .ok (some ⟨(unpad r.msgBuf r.buffStart (n - 3) (r.buffStart + n - 1)).1,
        Fin.ofNat msgBufSize ((unpad r.msgBuf r.buffStart (n - 3) (r.buffStart + n - 1)).2 + 1),
        Fin.ofNat msgBufSize (r.buffStart + n)⟩) := by
  obtain ⟨hmin, hmark, hscan⟩ := Framer.look_eq_some hlook
  have hle : 4 ≤ pending.length := hmin
  have hstart := (buffStart_mark_iff h hle).mpr hmark
  have hend : lookForEnd r.msgBuf pending.length r.buffStart 0 = some (r.buffStart + n) := by
    rw [lookForEnd_eq h.holds]
    exact (congrArg _ hscan).trans rfl
  have horigin : (r.buffStart + n - 1 - 2 - r.buffStart : ℕ) = n - 3 := by omega
  rw [lookupPacket]
  simp only [h.linearEnd_eq, Nat.add_sub_cancel_left]
  rw [if_neg hle.not_gt, if_neg (not_not.mpr hstart), hend]
  simp only [horigin]

/-- **The message** of what is found, which is that of the packet if it is one. What is behind is
not touched. -/
theorem nextMessage_some (h : r.Pending pending) {n : ℕ}
    (hlook : packets.look pending = .ok (some n)) :
    ∃ r' message, nextMessage r = .ok (r', some message) ∧ r'.Pending (pending.drop n) ∧
      ∀ p : TsipPacket, pending.take n = p.encode → message = p.message := by
  obtain ⟨-, -, hscan⟩ := Framer.look_eq_some hlook
  have hn := (packets.scan_append hscan []).1
  have hpos := packets.scan_pos hscan
  have hlt := h.length_lt
  refine ⟨_, _, by rw [nextMessage, lookupPacket_some h hlook]; rfl, ?_, fun p hp => ?_⟩
  · rw [ofNat_linearEnd]
    refine h.advance hn ((h.holds.drop hn).congr fun q hlo hhi => unpad_behind _ _ _ _ ?_ ?_)
    · omega
    · rw [List.length_drop] at hhi
      omega
  · have hlen : n = (stuff dle p.data).length + 4 := by
      rw [← p.length_encode, ← hp, List.length_take, Nat.min_eq_left hn]
    have hle := length_le_length_stuff dle p.data
    have hframe : HoldsFrom r.msgBuf r.buffStart p.encode := by
      have hholds := h.holds
      rw [← List.take_append_drop n pending, hp, holdsFrom_append] at hholds
      exact hholds.1
    have hfront : HoldsFrom r.msgBuf r.buffStart (dle :: p.id :: stuff dle p.data) := by
      have hencode : p.encode = (dle :: p.id :: stuff dle p.data) ++ [dle, etx] := rfl
      rw [hencode, holdsFrom_append] at hframe
      exact hframe.1
    obtain ⟨b, hb, hmessage, -⟩ := unpad_eq p.data hfront
      (by omega : r.buffStart + _ < r.buffStart + n - 1) (by omega)
    obtain ⟨a, ha⟩ : ∃ a, a = (r.buffStart + n - 1 - p.data.length : ℕ) := ⟨_, rfl⟩
    rw [← ha] at hb hmessage
    have hmessageLen : p.message.length = p.data.length + 1 := rfl
    have hcount : n - 3 = (stuff dle p.data).length + 1 := by omega
    have hfirst : a - 1 + 1 = a := by omega
    have hstop : r.buffStart + n = a + p.message.length := by omega
    have hlast := linearEnd_sub (a := a) (n := p.message.length) (by omega) rfl rfl
    rw [hcount, hb]
    simp only [hfirst]
    rw [hstop, hlast, Nat.add_sub_cancel_left]
    exact (hmessage.of_modEq (Nat.mod_modEq _ msgBufSize).symm).readFrom_eq

end Lookup

theorem outputFromGps_eq {r : MsgRing} {pending msg : List UInt8} {gpsState : GpsState}
    (hinit : gpsState ≠ .preInit) (h : r.Pending pending)
    (hroom : pending.length + msg.length ≤ 1023) :
    ∃ r', outputFromGps gpsState r msg = .ok r' ∧ r'.Pending (pending ++ msg) := by
  have hmod : r.buffEnd.val ≡ r.buffStart + pending.length [MOD msgBufSize] := by
    rw [h.end_eq]
    exact Nat.mod_modEq _ _
  refine ⟨⟨writeFrom r.msgBuf r.buffEnd msg, r.buffStart,
    Fin.ofNat msgBufSize (r.buffEnd + msg.length)⟩, ?_, ?_, ?_, ?_⟩
  · rw [outputFromGps, if_neg hinit, h.linearEnd_eq, Nat.add_sub_cancel_left,
      if_pos (by simp only [msgBufSize]; omega)]
  · rw [writeFrom_of_modEq _ _ hmod]
    exact h.holds.append (by simp only [msgBufSize]; omega)
  · rw [List.length_append]
    simp only [msgBufSize]
    omega
  · rw [List.length_append, ← Nat.add_assoc]
    exact Fin.ext (hmod.add_right msg.length)

theorem outputFromGps_full {r : MsgRing} {pending msg : List UInt8} {gpsState : GpsState}
    (hinit : gpsState ≠ .preInit) (h : r.Pending pending)
    (hroom : 1023 < pending.length + msg.length) :
    outputFromGps gpsState r msg = .error ⟨noSpaceLeft⟩ := by
  rw [outputFromGps, if_neg hinit, h.linearEnd_eq, Nat.add_sub_cancel_left,
    if_neg (by simp only [msgBufSize]; omega)]

/-! ### Runs -/

/-- The driver, what is still to come over the line, and the messages reported so far. -/
structure Tsip where
  ring : MsgRing
  toCome : List UInt8
  messages : List (List UInt8)

/-- The next `n` bytes arrive, or `process_msg` looks for a message. -/
inductive LineEvent where
  | output (gpsState : GpsState) (n : ℕ)
  | lookup

/-- One event. -/
def tsipStep (s : Tsip) : LineEvent → Except Exit Tsip
  | .output gpsState n => do
    let ring ← outputFromGps gpsState s.ring (s.toCome.take n)
    return { s with ring, toCome := s.toCome.drop n }
  | .lookup => do
    let (ring, message) ← nextMessage s.ring
    return { s with ring, messages := s.messages ++ message.toList }

/-- The number of bytes in the buffer. -/
def MsgRing.unprocessed (r : MsgRing) : ℕ := linearEnd r.buffStart r.buffEnd - r.buffStart

/-- The driver is initialised, and there is room for what arrives. -/
def Fits (s : Tsip) : LineEvent → Prop
  | .output gpsState n =>
    gpsState ≠ .preInit ∧ s.ring.unprocessed + (s.toCome.take n).length ≤ 1023
  | .lookup => True

/-- `process_msg` has to wait for more data. -/
def Waiting (s : Tsip) : Prop :=
  lookupPacket s.ring.msgBuf s.ring.buffStart s.ring.buffEnd = .ok none

instance : ∀ (s : Tsip) (e : LineEvent), Decidable (Fits s e)
  | s, .output gpsState n => inferInstanceAs (Decidable
      (gpsState ≠ .preInit ∧ s.ring.unprocessed + (s.toCome.take n).length ≤ 1023))
  | _, .lookup => inferInstanceAs (Decidable True)

/-- **The invariant**: some packets have been reported, and what is in the buffer and what is to
come are the others as they were sent. -/
structure Framed (ps : List TsipPacket) (s : Tsip) (reported later : List TsipPacket)
    (pending : List UInt8) : Prop where
  split : ps = reported ++ later
  messages : s.messages = reported.map TsipPacket.message
  stream_eq : pending ++ s.toCome = stream later
  ring : s.ring.Pending pending

/-! ### The driver as a reader of frames -/

/-- The event for a reader of frames. -/
def LineEvent.forReader : LineEvent → Framer.Event
  | output _ n => .receive n
  | lookup => .look

/-- The reasons to stop, for a driver that exits with a text. -/
def SameEnd {ε : Type} (exit : String → ε) (badStart : String) (x : ε) : Framer.Ended → Prop
  | .overflow => x = exit noSpaceLeft
  | .badStart => x = exit badStart

/-- The driver as a reader of frames, with the messages of the packets that it has read. -/
structure Reads (s : Tsip) (r : Framer.Reader UInt8) : Prop where
  ring : s.ring.Pending r.pending
  toCome : s.toCome = r.toCome
  messages : ∀ ps : List TsipPacket, r.frames = ps.map TsipPacket.encode →
    s.messages = ps.map TsipPacket.message

section Reads

variable {s : Tsip} {r : Framer.Reader UInt8}

theorem MsgRing.pending_nil {ring : MsgRing} (h : ring.buffStart = ring.buffEnd) :
    ring.Pending [] :=
  ⟨trivial, (by decide : 0 < msgBufSize), by rw [← h]; exact (Fin.ofNat_val_eq_self _).symm⟩

theorem Reads.start {ring : MsgRing} (h : ring.buffStart = ring.buffEnd) (bytes : List UInt8) :
    Reads ⟨ring, bytes, []⟩ ⟨[], bytes, []⟩ :=
  ⟨MsgRing.pending_nil h, rfl, fun _ hps => by rw [List.map_eq_nil_iff.mp hps.symm]; rfl⟩

private theorem Reads.unprocessed_eq (h : Reads s r) : s.ring.unprocessed = r.pending.length := by
  rw [MsgRing.unprocessed, h.ring.linearEnd_eq, Nat.add_sub_cancel_left]

theorem Reads.output (h : Reads s r) {gpsState : GpsState} (hinit : gpsState ≠ .preInit) (n : ℕ) :
    Run.Agree Reads (SameEnd Exit.mk notAPacket) (tsipStep s (.output gpsState n))
      (packets.step 1023 r (.receive n)) := by
  rw [tsipStep, h.toCome, Framer.step]
  split_ifs with hroom
  · obtain ⟨ring, hring, hpending⟩ := outputFromGps_eq hinit h.ring hroom
    rw [hring]
    exact ⟨hpending, rfl, h.messages⟩
  · rw [outputFromGps_full hinit h.ring (Nat.lt_of_not_le hroom)]
    exact rfl

/-- One message more. -/
private theorem Reads.messages_concat (h : Reads s r) {x message : List UInt8}
    (hmessage : ∀ p : TsipPacket, x = p.encode → message = p.message) (ps : List TsipPacket)
    (hps : r.frames ++ [x] = ps.map TsipPacket.encode) :
    s.messages ++ [message] = ps.map TsipPacket.message := by
  obtain ⟨ps₀, qs, rfl, hps₀, hqs⟩ := List.map_eq_append_iff.mp hps.symm
  obtain ⟨p, rfl, hp⟩ := List.map_eq_singleton_iff.mp hqs
  rw [List.map_append, h.messages ps₀ hps₀.symm, hmessage p hp.symm]
  rfl

theorem Reads.lookup (h : Reads s r) :
    Run.Agree Reads (SameEnd Exit.mk notAPacket) (tsipStep s .lookup)
      (packets.step 1023 r .look) := by
  rw [tsipStep]
  cases hlook : packets.look r.pending with
  | error e =>
    obtain ⟨-, -, rfl⟩ := Framer.look_eq_error hlook
    rw [nextMessage, lookupPacket_error h.ring hlook, Framer.step_look_error hlook]
    exact rfl
  | ok found =>
    cases found with
    | none =>
      rw [nextMessage, lookupPacket_none h.ring hlook, Framer.step_look_none hlook]
      exact ⟨h.ring, h.toCome, fun ps hps => (List.append_nil _).trans (h.messages ps hps)⟩
    | some n =>
      obtain ⟨ring, message, hnext, hpending, hmessage⟩ := nextMessage_some h.ring hlook
      rw [hnext, Framer.step_look_some hlook]
      exact ⟨hpending, h.toCome, h.messages_concat hmessage⟩

/-- **One event** with room for what arrives. -/
theorem Reads.step (h : Reads s r) {e : LineEvent} (hfits : Fits s e) :
    Framer.Fits 1023 r e.forReader ∧
      Run.Agree Reads (SameEnd Exit.mk notAPacket) (tsipStep s e)
        (packets.step 1023 r e.forReader) := by
  cases e with
  | output gpsState n =>
    obtain ⟨hinit, hroom⟩ := hfits
    rw [h.unprocessed_eq, h.toCome] at hroom
    exact ⟨hroom, h.output hinit n⟩
  | lookup => exact ⟨trivial, h.lookup⟩

end Reads

private theorem TsipPacket.isFrame (p : TsipPacket) : packets.IsFrame p.encode := by
  have hscan := scan_frame etx_ne_dle p.id_ne_dle p.id_ne_etx p.data []
  rw [List.append_nil] at hscan
  exact ⟨rfl, hscan⟩

theorem isFrame_of_mem_map {ps : List TsipPacket} {x : List UInt8}
    (h : x ∈ ps.map TsipPacket.encode) : packets.IsFrame x := by
  obtain ⟨p, -, rfl⟩ := List.mem_map.mp h
  exact p.isFrame

section Framed

variable {ps : List TsipPacket} {s : Tsip} {r : Framer.Reader UInt8} {later : List (List UInt8)}

/-- What has been read are the first packets. -/
private theorem Reads.framed (h : Reads s r)
    (hframed : Framer.Framed (ps.map TsipPacket.encode) r later) :
    ∃ reported later', Framed ps s reported later' r.pending ∧
      later = later'.map TsipPacket.encode := by
  obtain ⟨reported, later', rfl, hreported, hlater⟩ := List.map_eq_append_iff.mp hframed.split
  refine ⟨reported, later', ⟨rfl, h.messages reported hreported.symm, ?_, h.ring⟩, hlater.symm⟩
  rw [h.toCome, hframed.stream_eq, ← hlater]
  exact (List.flatMap_def ..).symm

/-- **When there is nothing to report**: the next packet has not come as a whole. -/
theorem Reads.waiting_iff {later : List TsipPacket} (h : Reads s r)
    (hframed : Framer.Framed (ps.map TsipPacket.encode) r (later.map TsipPacket.encode)) :
    Waiting s ↔ ∀ p ∈ later.head?, r.pending.length < p.encode.length := by
  have hlook : Waiting s ↔ packets.look r.pending = .ok none := by
    rw [Waiting]
    obtain ⟨hnone, -⟩ | ⟨x, later', rest, -, -, -, hsome⟩ :=
      hframed.look_eq fun x => isFrame_of_mem_map
    · exact iff_of_true (lookupPacket_none h.ring hnone) hnone
    · refine iff_of_false ?_ (by rw [hsome]; nofun)
      rw [lookupPacket_some h.ring hsome]
      nofun
  rw [hlook, hframed.look_eq_none_iff fun x => isFrame_of_mem_map]
  -- no packet has less than four bytes
  have hmin : r.pending.length < 4 → ∀ p ∈ later.head?, r.pending.length < p.encode.length :=
    fun hlt p _ => Nat.lt_of_lt_of_le hlt (p.length_encode ▸ Nat.le_add_left 4 _)
  have hhead : (∀ x ∈ (later.map TsipPacket.encode).head?, r.pending.length < x.length) ↔
      ∀ p ∈ later.head?, r.pending.length < p.encode.length := by
    cases later <;> simp
  rw [hhead]
  exact or_iff_right_of_imp hmin

end Framed

/-- **Framing.** Any packets, sent one after the other, arriving in any pieces at any position of
the buffer, with `process_msg` looking for messages at any moments in between, as long as there is
room for what arrives: the driver does not exit; at every moment it has reported the messages of
some first packets, in order, each of them once; what is in the buffer and what is to come are the
other packets as they were sent; it waits if and only if the next packet has not come as a whole;
and when everything has come and it waits, it has reported all packets. -/
theorem tsip_framing (ps : List TsipPacket) (ring : MsgRing)
    (hempty : ring.buffStart = ring.buffEnd) (es : List LineEvent)
    (hfits : Run.AllStepsM tsipStep Fits ⟨ring, stream ps, []⟩ es) :
    ∃ s, Run.execM tsipStep ⟨ring, stream ps, []⟩ es = .ok s ∧
      (∃ reported later pending, Framed ps s reported later pending ∧
        (Waiting s ↔ ∀ p ∈ later.head?, pending.length < p.encode.length)) ∧
      (s.toCome = [] → Waiting s → s.messages = ps.map TsipPacket.message) := by
  have hstream : stream ps = (ps.map TsipPacket.encode).flatten := List.flatMap_def ..
  have hstart := Reads.start hempty (stream ps)
  rw [hstream] at hstart hfits ⊢
  obtain ⟨s, hs, r, later, hreads, hframer⟩ := Framer.execM_framed LineEvent.forReader
    (fun x => isFrame_of_mem_map) (fun s r _ e hreads _ hfits => hreads.step hfits) hstart hfits
  obtain ⟨reported, later', h, rfl⟩ := hreads.framed hframer
  have hwaiting := hreads.waiting_iff hframer
  refine ⟨s, hs, ⟨reported, later', r.pending, h, hwaiting⟩, fun hcome hwait => ?_⟩
  -- a packet that has not been reported would be in the buffer as a whole
  have hnone : later' = [] := by
    rcases hlater : later' with - | ⟨p, ps'⟩
    · rfl
    · have hrest := h.stream_eq
      rw [hcome, List.append_nil, hlater, stream, List.flatMap_cons] at hrest
      have hlt := hwaiting.mp hwait p (by rw [hlater]; rfl)
      rw [hrest, List.length_append] at hlt
      omega
  rw [h.messages, h.split, hnone, List.append_nil]

/-- A packet whose data are the two marks. -/
def marksPacket : TsipPacket := ⟨0x41, [dle, etx], by decide, by decide⟩

/-- A packet with two other bytes. -/
def plainPacket : TsipPacket := ⟨0x46, [8, 0], by decide, by decide⟩

/-- The two packets are to come, and the end of the buffer is near. -/
def twoToCome : Tsip := ⟨⟨fun _ => 0, 1020, 1020⟩, stream [marksPacket, plainPacket], []⟩

/-- They arrive in three pieces. -/
def threePieces : List LineEvent :=
  [.output .search 5, .lookup, .output .search 4, .lookup, .lookup, .output .search 4, .lookup]

theorem tsip_framing_threePieces :
    ∃ s, Run.execM tsipStep twoToCome threePieces = .ok s ∧
      s.messages = [[0x41, dle, etx], [0x46, 8, 0]] := by
  have hfits : Run.AllStepsM tsipStep Fits twoToCome threePieces := by decide +kernel
  obtain ⟨s, hs, -, hall⟩ := tsip_framing [marksPacket, plainPacket] ⟨fun _ => 0, 1020, 1020⟩ rfl
    threePieces hfits
  -- everything has come in the end, and nothing is in the buffer
  obtain ⟨s', hs', hend⟩ := Fallible.exists_ok_of_toOption
    (show (Run.execM tsipStep twoToCome threePieces).toOption.map
      (fun s => (s.toCome, s.ring.unprocessed)) = some ([], 0) by decide +kernel)
  cases hs.symm.trans hs'
  obtain ⟨hcome, hnone⟩ := Prod.mk.inj hend
  have hlt : s.ring.unprocessed < 4 := hnone ▸ Nat.succ_pos 3
  exact ⟨s, hs, hall hcome (if_pos hlt)⟩

end MiaVita.LassenIq
