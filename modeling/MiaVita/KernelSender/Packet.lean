import MiaVita.Interruption.Fpga

/-!
# The packet and its two ends (`kernel_sender`)

`packet_t` is a packed structure of 25 bytes. `preparePacket` fills it on the node
(`sender_kthread.c`); `ntohpkt` and `writeJson` take it apart on the sink (`receiver/list.c`).
Both machines are little-endian, so `cpu_to_be64` and `be64toh` are the same byte reversal
(`swap64`), and a field in memory is its bytes from the least significant one on.

`writeJson` is modelled up to the text it writes: the two `write` calls with every write
succeeding in full.
-/

namespace MiaVita

open Bytes

/-- `packet_t`, the fields as the processor sees them in memory. -/
structure Packet where
  timestamp : UInt64
  seq : UInt32
  samples : List UInt8
  id : UInt8
  /-- `uint8_t samples[12]`. -/
  samples_length : samples.length = 12

/-- The bytes of the packed structure, in memory and on the wire. -/
def Packet.toBytes (p : Packet) : List UInt8 :=
  le 8 p.timestamp.toNat ++ le 4 p.seq.toNat ++ p.samples ++ [p.id]

/-- `recvfrom` into a zeroed `packet_t`: a longer datagram is cut, a shorter one leaves zeros. -/
def Packet.ofBytes (bs : List UInt8) : Packet where
  timestamp := UInt64.ofNat (leVal (slice (bs ++ List.replicate 25 0) 0 8))
  seq := UInt32.ofNat (leVal (slice (bs ++ List.replicate 25 0) 8 4))
  samples := slice (bs ++ List.replicate 25 0) 12 12
  id := (bs ++ List.replicate 25 0).getD 24 0
  samples_length := length_slice (by rw [List.length_append, List.length_replicate]; omega)

/-- A packet read back from its own bytes. -/
theorem Packet.ofBytes_toBytes (p : Packet) : Packet.ofBytes p.toBytes = p := by
  obtain ⟨ts, seq, samples, id, hlen⟩ := p
  have hts : leVal (le 8 ts.toNat) = ts.toNat :=
    leVal_le_of_lt (by have := ts.toNat_lt; omega)
  have hseq : leVal (le 4 seq.toNat) = seq.toNat :=
    leVal_le_of_lt (by have := seq.toNat_lt; omega)
  have h₀ := slice_append_mid [] (le 8 ts.toNat)
    (le 4 seq.toNat ++ (samples ++ ([id] ++ List.replicate 25 0)))
  have h₁ := slice_append_mid (le 8 ts.toNat) (le 4 seq.toNat)
    (samples ++ ([id] ++ List.replicate 25 0))
  have h₂ := slice_append_mid (le 8 ts.toNat ++ le 4 seq.toNat) samples
    ([id] ++ List.replicate 25 0)
  simp only [List.nil_append, List.length_nil, List.length_append, length_le, hlen,
    List.append_assoc] at h₀ h₁ h₂
  have hid : (le 8 ts.toNat ++ (le 4 seq.toNat ++ (samples ++ ([id] ++ List.replicate 25 0)))).getD
      24 0 = id := by
    rw [List.getD_eq_getElem?_getD, List.getElem?_append_right (by simp),
      List.getElem?_append_right (by simp), List.getElem?_append_right (by simp [hlen])]
    simp [hlen]
  simp only [ofBytes, toBytes, List.append_assoc, h₀, h₁, h₂, hid, hts, hseq, UInt64.ofNat_toNat,
    UInt32.ofNat_toNat]

theorem Packet.length_toBytes (p : Packet) : p.toBytes.length = 25 := by
  simp [Packet.toBytes, p.samples_length]

/-- The fields of a packet received in full. -/
theorem Packet.ofBytes_fields {bs : List UInt8} (h : bs.length = 25) :
    (Packet.ofBytes bs).seq = UInt32.ofNat (leVal (slice bs 8 4)) ∧
      (Packet.ofBytes bs).samples = slice bs 12 12 ∧
      (Packet.ofBytes bs).id = (slice bs 24 1).getD 0 0 := by
  have hseq : slice (bs ++ List.replicate 25 0) 8 4 = slice bs 8 4 := slice_append_left (by omega)
  have hid : (bs ++ List.replicate 25 0).getD 24 0 = (slice bs 24 1).getD 0 0 := by
    rw [List.getD_eq_getElem?_getD, List.getD_eq_getElem?_getD, getElem?_slice,
      if_pos (by decide), List.getElem?_append_left (by omega)]
  exact ⟨congrArg (fun xs => UInt32.ofNat (leVal xs)) hseq, slice_append_left (by omega), hid⟩

/-- `cpu_to_be64` and `be64toh` on a little-endian machine. -/
def swap64 (x : UInt64) : UInt64 := UInt64.ofNat (leVal (be 8 x.toNat))

/-- `cpu_to_be32` and `be32toh` on a little-endian machine. -/
def swap32 (x : UInt32) : UInt32 := UInt32.ofNat (leVal (be 4 x.toNat))

/-- Reversing the bytes of a number below `256 ^ w` twice gives it back. -/
private theorem leVal_be_leVal_be {w n : ℕ} (h : n < 256 ^ w) :
    leVal (be w (leVal (be w n))) = n := by
  have hle := le_leVal (be w n)
  rw [length_be] at hle
  rw [be, hle, be, List.reverse_reverse, leVal_le_of_lt h]

@[simp] theorem swap64_swap64 (x : UInt64) : swap64 (swap64 x) = x := by
  have hx : x.toNat < 256 ^ 8 := by have := x.toNat_lt; omega
  have hlt : leVal (be 8 x.toNat) < 256 ^ 8 := by simpa using leVal_lt (be 8 x.toNat)
  rw [swap64, swap64, UInt64.toNat_ofNat', Nat.mod_eq_of_lt (by omega), leVal_be_leVal_be hx,
    UInt64.ofNat_toNat]

@[simp] theorem swap32_swap32 (x : UInt32) : swap32 (swap32 x) = x := by
  have hx : x.toNat < 256 ^ 4 := by have := x.toNat_lt; omega
  have hlt : leVal (be 4 x.toNat) < 256 ^ 4 := by simpa using leVal_lt (be 4 x.toNat)
  rw [swap32, swap32, UInt32.toNat_ofNat', Nat.mod_eq_of_lt (by omega), leVal_be_leVal_be hx,
    UInt32.ofNat_toNat]

/-- `prepare_packet`, `none` being a failed `kmalloc`. The sequence number that goes out is the
sample's own; the `seq` parameter is not used. -/
def preparePacket (kmalloc : Bool) (sample : Sample) (_seq : UInt32) (nodeId : UInt8) :
    Option Packet :=
  if kmalloc then
    some
      { timestamp := swap64 sample.timestamp.toUInt64
        seq := swap32 sample.seqNumber.toUInt32
        id := nodeId
        samples := memWords sample.data
        samples_length := length_memWords _ }
  else none

/-- `ntohpkt`. -/
def ntohpkt (p : Packet) : Packet :=
  { p with timestamp := swap64 p.timestamp, seq := swap32 p.seq }

/-! ### The record a packet becomes -/

/-- The values of one line of the output file. -/
structure JsonRecord where
  id : ℕ
  seq : ℕ
  ts : ℕ
  ch1 : ℤ
  ch2 : ℤ
  ch3 : ℤ
  ch4 : ℤ
  deriving DecidableEq

/-- The `sprintf` of `write_json`, format string included. -/
def JsonRecord.text (r : JsonRecord) : String :=
  "\"" ++ toString r.id ++ ":" ++ toString r.seq ++ "\":\x7b\"ts\":" ++ toString r.ts ++
    ",\"1\":" ++ toString r.ch1 ++ ",\"2\":" ++ toString r.ch2 ++ ",\"3\":" ++ toString r.ch3 ++
    ",\"4\": " ++ toString r.ch4 ++ "\x7d"

/-- A `uint32_t` assembled in memory from three bytes, the fourth being `0`. -/
def sampleWord (byte₀ byte₁ byte₂ : UInt8) : UInt32 := loadU32 [byte₀, byte₁, byte₂, 0]

/-- The sign extension of a 24-bit reading, by hand: the test is `>` where the most negative
reading would need `>=`. -/
def signExtend (s : UInt32) : UInt32 :=
  if s > 0x800000 then (((~~~s) + 1) &&& 0x00FFFFFF) * (-1) else s

/-- A `uint32_t` passed to `%d`. -/
def asInt (s : UInt32) : ℤ := s.toInt32.toInt

/-- The values `write_json` passes to `sprintf`. -/
def jsonRecord (p : Packet) : JsonRecord :=
  let s := p.samples
  let sample₁ := sampleWord (s.getD (0 + 2) 0) (s.getD (0 + 1) 0) (s.getD (0 + 0) 0)
  let sample₂ := sampleWord (s.getD (4 + 1) 0) (s.getD (4 + 0) 0) (s.getD (0 + 3) 0)
  let sample₃ := sampleWord (s.getD (8 + 0) 0) (s.getD (4 + 3) 0) (s.getD (4 + 2) 0)
  let sample₄ := sampleWord (s.getD (8 + 3) 0) (s.getD (8 + 2) 0) (s.getD (8 + 1) 0)
  let p' := ntohpkt p
  { id := p'.id.toNat
    seq := p'.seq.toNat
    ts := p'.timestamp.toNat
    ch1 := asInt (signExtend sample₁)
    ch2 := asInt (signExtend sample₂)
    ch3 := asInt (signExtend sample₃)
    ch4 := asInt (signExtend sample₄) }

/-- `write_json`: what goes to the file. The caller passes `first = 0` for the first packet of a
session, so the separator comes before it and not before the others. -/
def writeJson (p : Packet) (first : UInt8) : String :=
  (if first = 0 then ",\n" else "\n") ++ (jsonRecord p).text

end MiaVita
