import MiaVita.KernelSender.Packet

/-!
# From the converter to the output file

A sample crosses four representations on its way: six 16-bit words on the SPI bus, twelve packed
bytes in the ring, a big-endian packet, and two's complement rebuilt byte by byte on the sink.
`emittedText_eq_iff` says which readings come out as they went in: all but the most negative
one, which `write_json`'s sign extension leaves positive.
-/

namespace MiaVita

open Bytes

/-- A signed 24-bit reading of one channel. -/
abbrev Reading := { v : ℤ // -2 ^ 23 ≤ v ∧ v < 2 ^ 23 }

/-- The 24-bit two's complement code of a reading. -/
def Reading.code (v : Reading) : ℕ := (v.1 % 2 ^ 24).toNat

private theorem Reading.code_lt (v : Reading) : v.code < 2 ^ 24 := by
  rw [code]
  omega

/-- The words in which the FPGA presents four readings: their codes, three bytes each, most
significant first. -/
def AdcWords.ofReadings (v₁ v₂ v₃ v₄ : Reading) : AdcWords :=
  .ofBytes ⟨(be 3 v₁.code ++ be 3 v₂.code ++ be 3 v₃.code ++ be 3 v₄.code).toArray, by simp⟩

/-- The whole way of one sample: read, stored in the ring, taken from its cell, packed, sent,
received and written. `none` is only there for the packet's `kmalloc`. -/
def emittedText (r : Ring) (w : AdcWords) (timestamp : Int64) (seqNumber : Int32)
    (seq : UInt32) (nodeId first : UInt8) : Option String :=
  let r' := (r.writeToBuffer (readFourChannels w) timestamp seqNumber).1
  (preparePacket true (r'.circBuffer (cell r'.lastWrite)) seq nodeId).map fun p =>
    writeJson (.ofBytes p.toBytes) first

/-! ### One reading -/

/-- The hand-written sign extension, as arithmetic. -/
theorem asInt_signExtend {s : UInt32} (h : s.toNat < 2 ^ 24) :
    asInt (signExtend s) =
      if 2 ^ 23 < s.toNat then (s.toNat : ℤ) - 2 ^ 24 else (s.toNat : ℤ) := by
  have htoInt : ∀ t : UInt32, asInt t = if 2 * t.toNat < 2 ^ 32 then (t.toNat : ℤ)
      else (t.toNat : ℤ) - 2 ^ 32 := by
    intro t
    change t.toBitVec.toInt = _
    rw [BitVec.toInt_eq_toNat_cond]
    rfl
  have hgt : s > 0x800000 ↔ 2 ^ 23 < s.toNat := UInt32.lt_iff_toNat_lt
  rw [signExtend]
  split_ifs with hs hs' hs'
  · have hneg : (((~~~s) + 1) &&& 0x00FFFFFF).toNat = 2 ^ 24 - s.toNat := by
      rw [UInt32.toNat_and, UInt32.toNat_add, UInt32.toNat_not]
      change (UInt32.size - 1 - s.toNat + 1) % 2 ^ 32 &&& 2 ^ 24 - 1 = _
      rw [Nat.and_two_pow_sub_one_eq_mod]
      change (2 ^ 32 - 1 - s.toNat + 1) % 2 ^ 32 % 2 ^ 24 = _
      omega
    have hmul : ((((~~~s) + 1) &&& 0x00FFFFFF) * (-1)).toNat = 2 ^ 32 - (2 ^ 24 - s.toNat) := by
      rw [UInt32.mul_neg, UInt32.mul_one, UInt32.toNat_neg, hneg]
      change (2 ^ 32 - (2 ^ 24 - s.toNat)) % 2 ^ 32 = _
      omega
    rw [htoInt, hmul, if_neg (by omega)]
    omega
  · exact absurd (hgt.mp hs) hs'
  · exact absurd (hgt.mpr hs') hs
  · rw [htoInt, if_pos (by omega)]

/-- What comes out for a reading. -/
def Reading.emitted (v : Reading) : ℤ := if v.1 = -2 ^ 23 then 2 ^ 23 else v.1

/-- Three big-endian bytes of a reading, put together and sign-extended by the sink. -/
private theorem asInt_signExtend_code (v : Reading) :
    asInt (signExtend (sampleWord (UInt8.ofNat v.code) (UInt8.ofNat (v.code / 256))
      (UInt8.ofNat (v.code / 256 / 256)))) = v.emitted := by
  have hcode := v.code_lt
  have hword : (sampleWord (UInt8.ofNat v.code) (UInt8.ofNat (v.code / 256))
      (UInt8.ofNat (v.code / 256 / 256))).toNat = v.code := by
    have hval : leVal [UInt8.ofNat v.code, UInt8.ofNat (v.code / 256),
        UInt8.ofNat (v.code / 256 / 256), 0] = v.code := by
      simp only [leVal, UInt8.toNat_ofNat', UInt8.toNat_zero]
      omega
    rw [sampleWord, loadU32, UInt32.toNat_ofNat']
    change leVal [_, _, _, _] % _ = _
    rw [hval, Nat.mod_eq_of_lt (by omega)]
  rw [asInt_signExtend (by rw [hword]; exact hcode), hword, Reading.emitted]
  have hdef : (v.code : ℤ) = v.1 % 2 ^ 24 := by
    rw [Reading.code]
    omega
  obtain ⟨x, hlo, hhi⟩ := v
  simp only at hdef ⊢
  split_ifs <;> omega

/-- The length of an alternation of eight fixed and seven varying pieces. -/
private theorem length_append_pieces (k₁ s₁ k₂ s₂ k₃ s₃ k₄ s₄ k₅ s₅ k₆ s₆ k₇ s₇ k₈ : String) :
    (k₁ ++ s₁ ++ k₂ ++ s₂ ++ k₃ ++ s₃ ++ k₄ ++ s₄ ++ k₅ ++ s₅ ++ k₆ ++ s₆ ++ k₇ ++ s₇ ++
        k₈).length =
      (k₁.length + k₂.length + k₃.length + k₄.length + k₅.length + k₆.length + k₇.length +
        k₈.length) +
      (s₁.length + s₂.length + s₃.length + s₄.length + s₅.length + s₆.length + s₇.length) := by
  simp only [String.length_append]
  omega

/-- The length of a line: 32 fixed characters and the numbers. -/
theorem JsonRecord.length_text (r : JsonRecord) : r.text.length = 32 +
    ((toString r.id).length + (toString r.seq).length + (toString r.ts).length +
      (toString r.ch1).length + (toString r.ch2).length + (toString r.ch3).length +
      (toString r.ch4).length) := by
  refine (length_append_pieces _ _ _ _ _ _ _ _ _ _ _ _ _ _ _).trans (congrArg (· + _) ?_)
  decide

/-- The sign is lost in the text of the most negative reading and of no other. -/
private theorem Reading.length_emitted (v : Reading) :
    (toString v.emitted).length + (if v.1 = -2 ^ 23 then 1 else 0) = (toString v.1).length := by
  rw [Reading.emitted]
  split_ifs with h
  · rw [h]
    decide
  · rfl

/-! ### The whole way -/

/-- The values that reach the file, for every input. -/
private theorem emittedText_eq (r : Ring) (v₁ v₂ v₃ v₄ : Reading) (timestamp : Int64)
    (seqNumber : Int32) (seq : UInt32) (nodeId first : UInt8) :
    emittedText r (.ofReadings v₁ v₂ v₃ v₄) timestamp seqNumber seq nodeId first =
      some ((if first = 0 then ",\n" else "\n") ++
        (JsonRecord.mk nodeId.toNat seqNumber.toUInt32.toNat timestamp.toUInt64.toNat
          v₁.emitted v₂.emitted v₃.emitted v₄.emitted).text) := by
  have hcell : ∀ x : Sample,
      let r' := (r.writeToBuffer x.data x.timestamp x.seqNumber).1
      r'.circBuffer (cell r'.lastWrite) = x := by
    intro x
    rw [Ring.writeToBuffer_fst]
    have hslot : cell (quickModule (r.lastWrite + 1)) =
        Fin.ofNat circBufSize (r.lastWrite.toNat + 1) := by
      rw [cell_eq_ofNat, toNat_quickModule, UInt32.toNat_add, UInt32.toNat_one]
      refine Fin.ext ?_
      change (r.lastWrite.toNat + 1) % 2 ^ 32 % 1024 % 1024 = (r.lastWrite.toNat + 1) % 1024
      omega
    simp only [hslot, Function.update_self]
  have hbytes : memWords (readFourChannels (.ofReadings v₁ v₂ v₃ v₄)) =
      be 3 v₁.code ++ be 3 v₂.code ++ be 3 v₃.code ++ be 3 v₄.code := by
    rw [AdcWords.ofReadings, memWords_readFourChannels]
    simp
  have hx := hcell ⟨timestamp, seqNumber, readFourChannels (.ofReadings v₁ v₂ v₃ v₄)⟩
  simp only at hx
  simp only [emittedText, hx, preparePacket, if_true, Option.map_some, Packet.ofBytes_toBytes,
    writeJson, jsonRecord, ntohpkt, swap64_swap64, swap32_swap32, hbytes]
  simp only [be, le, List.reverse_cons, List.reverse_nil, List.nil_append, List.cons_append,
    List.getD_cons_succ, List.getD_cons_zero, Nat.zero_add, Nat.add_zero, Nat.reduceAdd,
    asInt_signExtend_code]

/-- **End-to-end codec.** Four readings, a non-negative timestamp, a sequence number and a node
id come out of the sink's file as the record of these very values if and only if none of the
readings is the most negative one. -/
theorem emittedText_eq_iff (r : Ring) (v₁ v₂ v₃ v₄ : Reading) (timestamp : Int64)
    (hts : 0 ≤ timestamp) (seqNumber : Int32) (seq : UInt32) (nodeId first : UInt8) :
    emittedText r (.ofReadings v₁ v₂ v₃ v₄) timestamp seqNumber seq nodeId first =
        some ((if first = 0 then ",\n" else "\n") ++
          (JsonRecord.mk nodeId.toNat seqNumber.toUInt32.toNat timestamp.toInt.toNat
            v₁ v₂ v₃ v₄).text) ↔
      v₁.1 ≠ -2 ^ 23 ∧ v₂.1 ≠ -2 ^ 23 ∧ v₃.1 ≠ -2 ^ 23 ∧ v₄.1 ≠ -2 ^ 23 := by
  have hnat : timestamp.toUInt64.toNat = timestamp.toInt.toNat :=
    Int64.toNat_toUInt64_of_le hts
  rw [emittedText_eq, hnat]
  constructor
  · intro h
    have hlen := congrArg String.length (Option.some.inj h)
    rw [String.length_append, String.length_append, JsonRecord.length_text,
      JsonRecord.length_text] at hlen
    simp only at hlen
    -- the two texts are equally long, so no sign was lost
    have h₁ := v₁.length_emitted
    have h₂ := v₂.length_emitted
    have h₃ := v₃.length_emitted
    have h₄ := v₄.length_emitted
    have hsum : (if v₁.1 = -2 ^ 23 then 1 else 0) + (if v₂.1 = -2 ^ 23 then 1 else 0) +
        (if v₃.1 = -2 ^ 23 then 1 else 0) + (if v₄.1 = -2 ^ 23 then 1 else 0) = 0 := by
      omega
    simpa [and_assoc] using hsum
  · rintro ⟨h₁, h₂, h₃, h₄⟩
    simp only [Reading.emitted, h₁, h₂, h₃, h₄, if_false]

/-- The extremes of the range but one come out as they are. -/
theorem emittedText_of_extremes :
    emittedText (.start fun _ => ⟨0, 0, #v[0, 0, 0]⟩)
        (.ofReadings ⟨-2 ^ 23 + 1, by decide⟩ ⟨2 ^ 23 - 1, by decide⟩ ⟨-1, by decide⟩
          ⟨0, by decide⟩) 1234567 (-1) 0 9 1 =
      some ("\n" ++ (JsonRecord.mk 9 4294967295 1234567 (-8388607) 8388607 (-1) 0).text) :=
  (emittedText_eq_iff _ _ _ _ _ 1234567 (by decide) (-1) 0 9 1).mpr
    ⟨by decide, by decide, by decide, by decide⟩

/-- The most negative reading comes out positive. -/
theorem emittedText_mostNegative :
    emittedText (.start fun _ => ⟨0, 0, #v[0, 0, 0]⟩)
        (.ofReadings ⟨-2 ^ 23, by decide⟩ ⟨0, by decide⟩ ⟨0, by decide⟩ ⟨0, by decide⟩)
        0 0 0 0 1 ≠
      some ("\n" ++ (JsonRecord.mk 0 0 0 (-2 ^ 23) 0 0 0).text) := by
  rw [emittedText_eq]
  decide

end MiaVita
