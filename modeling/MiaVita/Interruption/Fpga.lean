import MiaVita.Interruption.ProcEntry
import MiaVita.Lib.Bytes

/-!
# The FPGA bus (`interruption/fpga.c`)

`read_four_channels` takes six 16-bit words from the FPGA and lays them down as twelve bytes in
three words of memory. The node is little-endian, so byte `k` of a `uint32_t` in memory is its
`k`-th least significant one (`memU32`).

`AdcWords.ofBytes` is the other side of the bus: twelve bytes, presented two at a time, most
significant first. `memWords_readFourChannels` says that the function writes the twelve bytes to
memory in their original order, through both changes of word size.

The other functions of the file that the interrupt handlers call are given by their accesses to
the 16-bit registers of the FPGA (`FpgaCall.accesses`). What a read returns is the device's choice
and an argument here.
-/

namespace MiaVita

open Bytes

/-- The words `a` to `f` of one conversion, as `peek16` returns them. -/
structure AdcWords where
  a : UInt16
  b : UInt16
  c : UInt16
  d : UInt16
  e : UInt16
  f : UInt16
  deriving DecidableEq

/-- The bytes of a `uint32_t` in the memory of a little-endian node. -/
def memU32 (x : UInt32) : List UInt8 := le 4 x.toNat

/-- The `uint32_t` found at the start of some memory. -/
def loadU32 (bs : List UInt8) : UInt32 := UInt32.ofNat (leVal (slice bs 0 4))

/-- `read_four_channels`: the `value_buffer` it fills. The bytes of the three temporaries go to
the buffer one by one, each temporary from its last byte to its first. -/
def readFourChannels (w : AdcWords) : Vector UInt32 3 :=
  let t₁ := memU32 (w.a.toUInt32 <<< 16 ||| w.b.toUInt32)
  let t₂ := memU32 (w.c.toUInt32 <<< 16 ||| w.d.toUInt32)
  let t₃ := memU32 (w.e.toUInt32 <<< 16 ||| w.f.toUInt32)
  let readBuffer :=
    [t₁.getD 3 0, t₁.getD 2 0, t₁.getD 1 0,
     t₁.getD 0 0, t₂.getD 3 0, t₂.getD 2 0,
     t₂.getD 1 0, t₂.getD 0 0, t₃.getD 3 0,
     t₃.getD 2 0, t₃.getD 1 0, t₃.getD 0 0]
  #v[loadU32 readBuffer, loadU32 (readBuffer.drop 4), loadU32 (readBuffer.drop 8)]

/-- The memory of a `uint32_t[3]`. -/
def memWords (data : Vector UInt32 3) : List UInt8 :=
  data.toList.flatMap memU32

@[simp] theorem length_memWords (data : Vector UInt32 3) : (memWords data).length = 12 := by
  simp [memWords, memU32, List.length_flatMap]

/-- Two bytes presented as one word, the first the more significant. -/
def wordOfBytes (hi lo : UInt8) : UInt16 := UInt16.ofNat (beVal [hi, lo])

/-- The six words in which the FPGA presents twelve bytes. -/
def AdcWords.ofBytes (bs : Vector UInt8 12) : AdcWords where
  a := wordOfBytes bs[0] bs[1]
  b := wordOfBytes bs[2] bs[3]
  c := wordOfBytes bs[4] bs[5]
  d := wordOfBytes bs[6] bs[7]
  e := wordOfBytes bs[8] bs[9]
  f := wordOfBytes bs[10] bs[11]

private theorem toNat_wordOfBytes (hi lo : UInt8) :
    (wordOfBytes hi lo).toNat = hi.toNat * 256 + lo.toNat := by
  have h₁ : hi.toNat < 256 := hi.toNat_lt
  have h₂ : lo.toNat < 256 := lo.toNat_lt
  simp only [wordOfBytes, UInt16.toNat_ofNat', beVal, List.reverse_cons, List.reverse_nil,
    List.nil_append, List.cons_append, leVal]
  omega

/-- A temporary holds four consecutive bytes, the first of them the most significant. -/
private theorem memU32_temporary (b₀ b₁ b₂ b₃ : UInt8) :
    memU32 ((wordOfBytes b₀ b₁).toUInt32 <<< 16 ||| (wordOfBytes b₂ b₃).toUInt32) =
      [b₃, b₂, b₁, b₀] := by
  have hlow : (wordOfBytes b₂ b₃).toNat < 2 ^ 16 := UInt16.toNat_lt _
  have hhigh : (wordOfBytes b₀ b₁).toNat < 2 ^ 16 := UInt16.toNat_lt _
  have hval : ((wordOfBytes b₀ b₁).toUInt32 <<< 16 ||| (wordOfBytes b₂ b₃).toUInt32).toNat =
      leVal [b₃, b₂, b₁, b₀] := by
    rw [UInt32.toNat_or, UInt32.toNat_shiftLeft, UInt16.toNat_toUInt32, UInt16.toNat_toUInt32]
    change (wordOfBytes b₀ b₁).toNat <<< 16 % 2 ^ 32 ||| (wordOfBytes b₂ b₃).toNat = _
    have hfit : (wordOfBytes b₀ b₁).toNat <<< 16 % 2 ^ 32 = (wordOfBytes b₀ b₁).toNat <<< 16 := by
      rw [Nat.shiftLeft_eq]
      omega
    rw [hfit, ← Nat.shiftLeft_add_eq_or_of_lt hlow, Nat.shiftLeft_eq, toNat_wordOfBytes,
      toNat_wordOfBytes]
    simp only [leVal]
    omega
  rw [memU32, hval]
  exact le_leVal [b₃, b₂, b₁, b₀]

/-- A word loaded from memory has the bytes it was loaded from. -/
private theorem memU32_loadU32 (b₀ b₁ b₂ b₃ : UInt8) (rest : List UInt8) :
    memU32 (loadU32 (b₀ :: b₁ :: b₂ :: b₃ :: rest)) = [b₀, b₁, b₂, b₃] := by
  have hslice : slice (b₀ :: b₁ :: b₂ :: b₃ :: rest) 0 4 = [b₀, b₁, b₂, b₃] := rfl
  have hlt : leVal [b₀, b₁, b₂, b₃] < 256 ^ 4 := leVal_lt _
  rw [loadU32, hslice, memU32, UInt32.toNat_ofNat', Nat.mod_eq_of_lt (by omega)]
  exact le_leVal [b₀, b₁, b₂, b₃]

/-- **The bytes survive the words.** What `read_four_channels` leaves in memory are the twelve
bytes the FPGA presented, in order. -/
theorem memWords_readFourChannels (bs : Vector UInt8 12) :
    memWords (readFourChannels (.ofBytes bs)) = bs.toList := by
  have hlist : bs.toList = [bs[0], bs[1], bs[2], bs[3], bs[4], bs[5], bs[6], bs[7], bs[8], bs[9],
      bs[10], bs[11]] := by
    refine List.ext_getElem (by simp) fun i h₁ h₂ => ?_
    rw [Vector.getElem_toList]
    simp only [List.length_cons, List.length_nil] at h₂
    match i, h₂ with
    | 0, _ | 1, _ | 2, _ | 3, _ | 4, _ | 5, _ | 6, _ | 7, _ | 8, _ | 9, _ | 10, _ | 11, _ => rfl
  rw [hlist]
  simp only [readFourChannels, AdcWords.ofBytes, memU32_temporary, memWords]
  simp [memU32_loadU32]

/-! ### Accesses to the bus -/

/-- An access to a register of the FPGA, with what was read or written. -/
inductive BusAccess where
  | peek16 (adr : ℕ) (dat : UInt16)
  | poke16 (adr : ℕ) (dat : UInt16)
  deriving DecidableEq

/-- `1 << pinOffSet`, the bit of DIO26 in the registers of the upper pins. -/
def dio26Mask : UInt16 := (1 : UInt16) <<< 5

/-- `write_dio26`, where the data register reads as `dio` and the direction register as `dir`. -/
def writeDio26 (b : Bool) (dio dir : UInt16) : List BusAccess :=
  [.peek16 0x6a dio,
   .poke16 0x6a (if b then dio ||| dio26Mask else dio &&& ~~~dio26Mask),
   .peek16 0x6c dir, .poke16 0x6c (dir ||| dio26Mask)]

/-- `write_watchdog`: `WATCHDOG_TIME_10SEG` goes to `WATCHDOG_FPGA_ADDRESS`. -/
def writeWatchdog : List BusAccess := [.poke16 0x74 2]

/-- The accesses of `read_four_channels`. -/
def AdcWords.accesses (w : AdcWords) : List BusAccess :=
  [.peek16 0x4a w.a, .peek16 0x4a w.b, .peek16 0x4a w.c, .peek16 0x4a w.d, .peek16 0x4a w.e,
   .peek16 0x4c w.f]

/-- A call of one of the functions the interrupt handlers use. -/
inductive FpgaCall where
  | readFourChannels (w : AdcWords)
  | writeDio26 (b : Bool) (dio dir : UInt16)
  | writeWatchdog
  deriving DecidableEq

/-- What a call does on the bus. -/
def FpgaCall.accesses : FpgaCall → List BusAccess
  | readFourChannels w => w.accesses
  | writeDio26 b dio dir => MiaVita.writeDio26 b dio dir
  | writeWatchdog => MiaVita.writeWatchdog

/-- What an access writes to the pin DIO26, a bit of register `0x6a`. -/
def BusAccess.dio26 : BusAccess → Option Bool
  | poke16 adr dat => if adr = 0x6a then some (dat &&& dio26Mask ≠ 0) else none
  | peek16 _ _ => none

/-- What was last written to the pin. -/
def lastDio26 : List BusAccess → Option Bool
  | [] => none
  | a :: as => (lastDio26 as).or a.dio26

theorem lastDio26_append (as bs : List BusAccess) :
    lastDio26 (as ++ bs) = (lastDio26 bs).or (lastDio26 as) := by
  induction as with
  | nil => rw [List.nil_append, lastDio26, Option.or_none]
  | cons a as ih => rw [List.cons_append, lastDio26, ih, lastDio26, Option.or_assoc]

/-- A pin is set by `|` and cleared by `& ~`, whatever was read before. -/
private theorem dio26_written (b : Bool) (dio : UInt16) :
    decide ((if b then dio ||| dio26Mask else dio &&& ~~~dio26Mask) &&& dio26Mask ≠ 0) = b := by
  cases b with
  | false =>
    have h : (dio &&& ~~~dio26Mask) &&& dio26Mask = 0 := by
      rw [UInt16.and_assoc]
      exact UInt16.and_zero
    simp [h]
  | true =>
    have h : (dio ||| dio26Mask) &&& dio26Mask = dio26Mask := by
      apply UInt16.toBitVec_inj.mp
      rw [UInt16.toBitVec_and, UInt16.toBitVec_or, BitVec.and_or_distrib_right, BitVec.and_self]
      ext i hi
      simp
    rw [if_pos rfl, h]
    rfl

/-- Only `write_dio26` touches the pin, and leaves its argument there. -/
theorem lastDio26_accesses (call : FpgaCall) :
    lastDio26 call.accesses = match call with
      | .writeDio26 b _ _ => some b
      | _ => none := by
  cases call with
  | readFourChannels w => rfl
  | writeDio26 b dio dir => exact congrArg some (dio26_written b dio)
  | writeWatchdog => rfl

end MiaVita
