import MiaVita.FredFramework.Aggregation

/-!
# The deaggregation hook (`deaggregation/deaggregation.c`)

An aggregate holds its packets newest first. Both functions walk over it, put each inner packet
into the next lower slot of a table of 27 pointers, and then hand the table, from the last slot
filled upwards, to the injection queue (`injection_thread.c`). `l3Deaggregate` takes IP packets
out of protocol 144 and works on them in place; `appDeagregate` takes UDP datagrams out of
protocol 143 and copies each behind a header of its own.

The received packet is an object of exactly its `tot_len` bytes and every access is checked
against it, so that a run that ends with `ok` has stayed inside the packet and inside the table.
The table is the stack of what has been put into it; the unsigned 8-bit index that runs below `0`
is the index 255.

The kernel's part is `DeaggEnv`: the outcomes of the allocations and what is read through `pdu`
in `app_deagregate`, which is never assigned.
-/

namespace MiaVita

open Bytes Memory Fallible

/-- `MAX_SCATTERS`. -/
abbrev maxScatters : ℕ := 27

/-- What the code does not decide. -/
structure DeaggEnv where
  /-- The `k`-th read through the uninitialised `pdu`; `none` when the address cannot be read. -/
  wild : ℕ → Option UInt64
  /-- Whether the allocation of the `k`-th rebuilt packet succeeds. -/
  newOk : ℕ → Bool
  /-- Whether the allocation for the `k`-th injected packet succeeds. -/
  injectOk : ℕ → Bool

/-- Every allocation succeeds. -/
def DeaggEnv.allocOk (wild : ℕ → Option UInt64) : DeaggEnv := ⟨wild, fun _ => true, fun _ => true⟩

/-- Receiving a packet: a header that does not describe the bytes that came is dropped, and what
follows `tot_len` bytes is cut off. -/
def ipRcv (packet : List UInt8) : Option (List UInt8) :=
  if sizeofIphdr ≤ packet.length ∧ 5 ≤ ihlOf packet ∧ 4 * ihlOf packet ≤ totLenOf packet ∧
      totLenOf packet ≤ packet.length then
    some (packet.take (totLenOf packet))
  else none

/-- **A valid outer header**: it is not shorter than a header, lies in the packet, and its length
field is the packet's length. Nothing is said about the bytes behind it. -/
structure ValidOuter (m : List UInt8) : Prop where
  ihl_ge : 5 ≤ ihlOf m
  header_le : 4 * ihlOf m ≤ m.length
  totLen_eq : totLenOf m = m.length

/-- What is received has a valid outer header. -/
theorem validOuter_of_ipRcv {packet m : List UInt8} (h : ipRcv packet = some m) :
    ValidOuter m := by
  rw [ipRcv] at h
  split_ifs at h with hvalid
  obtain ⟨-, hihl, hhead, htot⟩ := hvalid
  obtain rfl := Option.some.inj h
  have hlen : (packet.take (totLenOf packet)).length = totLenOf packet :=
    List.length_take_of_le htot
  have hihl' : ihlOf (packet.take (totLenOf packet)) = ihlOf packet := by
    rw [ihlOf, slice_take (by omega), ihlOf]
  have htot' : totLenOf (packet.take (totLenOf packet)) = totLenOf packet := by
    rw [totLenOf, slice_take (by omega), totLenOf]
  refine ⟨?_, ?_, ?_⟩
  · rw [hihl']
    exact hihl
  · rw [hihl', hlen]
    exact hhead
  · rw [htot', hlen]

/-- A packet with a valid outer header is received as it is. -/
private theorem ValidOuter.ipRcv_eq {m : List UInt8} (h : ValidOuter m) : ipRcv m = some m := by
  obtain ⟨hihl, hhead, htot⟩ := h
  rw [ipRcv, htot, List.take_length, if_pos]
  exact ⟨by simp only [sizeofIphdr]; omega, hihl, hhead, le_rfl⟩

/-- An aggregate whose length is what its header field says. -/
private theorem validOuter_aggregate {proto : ℕ} (hproto : proto < 256) {n : ℕ}
    (saddr daddr : UInt32) {payload : List UInt8} (h : n % 65536 = sizeofIphdr + payload.length) :
    ValidOuter (aggregateHeader proto n saddr daddr ++ payload) := by
  obtain ⟨hihl, htot, -, -⟩ := fields_aggregateHeader hproto n saddr daddr payload
  have hlen : (aggregateHeader proto n saddr daddr ++ payload).length =
      sizeofIphdr + payload.length := by rw [List.length_append, length_aggregateHeader]
  exact ⟨hihl.ge, by rw [hihl, hlen]; exact Nat.le_add_right _ _, by rw [htot, h, hlen]⟩

/-- An aggregate is received as it was sent when its length fits the header field. -/
theorem ipRcv_aggregate {proto : ℕ} (hproto : proto < 256) (saddr daddr : UInt32)
    {payload : List UInt8} (h : sizeofIphdr + payload.length < 65536) :
    ipRcv (aggregateHeader proto (sizeofIphdr + payload.length) saddr daddr ++ payload) =
      some (aggregateHeader proto (sizeofIphdr + payload.length) saddr daddr ++ payload) :=
  (validOuter_aggregate hproto saddr daddr (Nat.mod_eq_of_lt h)).ipRcv_eq

/-! ### Injection -/

/-- `inject_packet`: the copy that is put into the queue. -/
def injectPacket (allocated : Bool) (m : List UInt8) (ip : ℕ) :
    Except Fault (Option (List UInt8)) := do
  let totLen ← ipTotLen m ip
  if allocated then do
    let new ← load id m ip totLen
    .ok (some new)
  else .ok none

/-- The packets of `scatters`, each an address in an object, in the order of their injection. -/
def injectAll (injectOk : ℕ → Bool) :
    ℕ → List (List UInt8 × ℕ) → Except Fault (List (List UInt8))
  | _, [] => .ok []
  | k, (m, ip) :: scatters => do
    let packet ← injectPacket (injectOk k) m ip
    let packets ← injectAll injectOk (k + 1) scatters
    .ok (packet.toList ++ packets)

/-- Packets that can each be copied are all injected. -/
theorem injectAll_eq {scatters : List (List UInt8 × ℕ)} {packets : List (List UInt8)}
    (h : List.Forall₂ (fun s bs => injectPacket true s.1 s.2 = .ok (some bs)) scatters packets)
    (k : ℕ) : injectAll (fun _ => true) k scatters = .ok packets := by
  induction h generalizing k with
  | nil => rfl
  | cons hhead _ ih =>
    rw [injectAll, hhead, ok_bind, ih, ok_bind]
    rfl

/-- Without allocation failures nothing is left out. -/
theorem length_injectAll {scatters : List (List UInt8 × ℕ)} {k : ℕ} {packets : List (List UInt8)}
    (h : injectAll (fun _ => true) k scatters = .ok packets) :
    packets.length = scatters.length := by
  induction scatters generalizing k packets with
  | nil =>
    cases h
    rfl
  | cons s scatters ih =>
    obtain ⟨m, ip⟩ := s
    rw [injectAll] at h
    obtain ⟨packet, hpacket, h⟩ := bind_eq_ok.mp h
    obtain ⟨rest, hrest, h⟩ := bind_eq_ok.mp h
    cases h
    rw [injectPacket] at hpacket
    obtain ⟨totLen, -, hpacket⟩ := bind_eq_ok.mp hpacket
    rw [if_pos rfl] at hpacket
    obtain ⟨new, -, hpacket⟩ := bind_eq_ok.mp hpacket
    cases hpacket
    rw [List.length_append, ih hrest, List.length_cons, Nat.add_comm]
    rfl

/-- A packet is injected in bounds if its length field lies in the object, and, when there is memory
for the copy, so does the packet. -/
theorem safe_injectPacket_iff (allocated : Bool) (m : List UInt8) (ip : ℕ) :
    Safe (injectPacket allocated m ip) ↔
      ip + 4 ≤ m.length ∧ (allocated = true → ip + totLenAt m ip ≤ m.length) := by
  rw [injectPacket, ipTotLen, safe_load_bind]
  refine and_congr_right fun _ => ?_
  cases allocated with
  | false => simp
  | true => simp [safe_load_bind, totLenAt]

theorem safe_injectAll_cons (injectOk : ℕ → Bool) (k : ℕ) (m : List UInt8) (ip : ℕ)
    (scatters : List (List UInt8 × ℕ)) :
    Safe (injectAll injectOk k ((m, ip) :: scatters)) ↔
      Safe (injectPacket (injectOk k) m ip) ∧ Safe (injectAll injectOk (k + 1) scatters) := by
  constructor
  · rintro ⟨packets, h⟩
    obtain ⟨packet, hpacket, h⟩ := bind_eq_ok.mp h
    obtain ⟨rest, hrest, -⟩ := bind_eq_ok.mp h
    exact ⟨⟨packet, hpacket⟩, rest, hrest⟩
  · rintro ⟨⟨packet, hpacket⟩, hrest⟩
    rw [injectAll, hpacket, ok_bind, safe_bind_ok]
    exact hrest

/-- Packets that each lie in their object are injected in bounds. -/
theorem safe_injectAll (injectOk : ℕ → Bool) (k : ℕ) {scatters : List (List UInt8 × ℕ)}
    (h : ∀ s ∈ scatters, s.2 + 4 ≤ s.1.length ∧ s.2 + totLenAt s.1 s.2 ≤ s.1.length) :
    Safe (injectAll injectOk k scatters) := by
  induction scatters generalizing k with
  | nil => exact safe_ok _
  | cons s scatters ih =>
    obtain ⟨hhead, htail⟩ := List.forall_mem_cons.mp h
    rw [safe_injectAll_cons, safe_injectPacket_iff]
    exact ⟨⟨hhead.1, fun _ => hhead.2⟩, ih (k + 1) htail⟩

/-! ### IP packets -/

/-- `pdu->timestamp` in the processor's own byte order. -/
def hostTimestamp (m : List UInt8) (pdu : ℕ) : Except Fault UInt64 :=
  load (fun bs => UInt64.ofNat (leVal bs)) m pdu 8

/-- `pdu->timestamp = t` in the processor's own byte order. -/
def setHostTimestamp (m : List UInt8) (pdu : ℕ) (t : UInt64) : Except Fault (List UInt8) :=
  store m pdu (le 8 t.toNat)

/-- `pdu->timestamp = cpu_to_be64(pdu->timestamp)`. -/
def swapTimestamp (m : List UInt8) (pdu : ℕ) : Except Fault (List UInt8) := do
  let t ← hostTimestamp m pdu
  setPduTimestamp m pdu t

section

variable {m : List UInt8} {pdu : ℕ} (h : pdu + 8 ≤ m.length) (t : UInt64)

include h

private theorem setHostTimestamp_eq : setHostTimestamp m pdu t = .ok (patch m pdu (le 8 t.toNat)) :=
  store_eq (by rw [length_le]; exact h)

/-- The value just stored is read back. -/
private theorem hostTimestamp_patch : hostTimestamp (patch m pdu (le 8 t.toNat)) pdu = .ok t := by
  have hle : pdu + (le 8 t.toNat).length ≤ m.length := by rw [length_le]; exact h
  have hlt : t.toNat < 256 ^ 8 := t.toNat_lt
  have hslice := slice_patch_self hle
  rw [length_le] at hslice
  rw [hostTimestamp, load_eq (by rw [length_patch hle]; exact h), hslice, leVal_le_of_lt hlt,
    UInt64.ofNat_toNat]

/-- In the end the value stands there in network order. -/
private theorem swapTimestamp_patch :
    swapTimestamp (patch m pdu (le 8 t.toNat)) pdu = .ok (patch m pdu (be 8 t.toNat)) := by
  have hle : pdu + (le 8 t.toNat).length ≤ m.length := by rw [length_le]; exact h
  rw [swapTimestamp, hostTimestamp_patch h, ok_bind, setPduTimestamp,
    store_eq (by rw [length_patch hle, length_be]; exact h),
    patch_patch_self hle (by rw [length_be, length_le])]

end

/-- The timestamp code of one round of `l3_deaggregate`: the value is stored, what is stored is
added to the accumulator unless it is the first time, and the bytes are swapped. -/
def stampPdu (m : List UInt8) (pdu : ℕ) (ts tsAcc : UInt64) (firstTime : Bool) :
    Except Fault (List UInt8 × UInt64) := do
  let m ← setHostTimestamp m pdu (ts - tsAcc)
  let stored ← hostTimestamp m pdu
  let m ← swapTimestamp m pdu
  .ok (m, if firstTime then tsAcc else tsAcc + stored)

/-- What the round leaves in the packet and in the accumulator. -/
theorem stampPdu_eq (m : List UInt8) (pdu : ℕ) (h : pdu + 8 ≤ m.length) (ts tsAcc : UInt64)
    (firstTime : Bool) :
    stampPdu m pdu ts tsAcc firstTime =
      .ok (patch m pdu (be 8 (ts - tsAcc).toNat),
        if firstTime then tsAcc else tsAcc + (ts - tsAcc)) := by
  rw [stampPdu, setHostTimestamp_eq h, ok_bind, hostTimestamp_patch h, ok_bind,
    swapTimestamp_patch h, ok_bind]

/-- How the loop of `l3_deaggregate` ends. -/
inductive Scattered where
  /-- With a packet of another protocol. -/
  | unsupported
  /-- With the whole aggregate taken apart. -/
  | all (m : List UInt8) (scatters : List ℕ)

/-- The loop of `l3_deaggregate`, with `room` slots of the table left. What is written lies behind
the first six bytes of the packet at `first`, so the fields the code reads a second time, its
`ihl` and its `tot_len`, are what they were. -/
def l3Scatter (ts : UInt64) (aggLen : ℕ) (room : ℕ) (m : List UInt8) (first accLen : ℕ)
    (tsAcc : UInt64) (firstTime : Bool) (scatters : List ℕ) : Except Fault Scattered :=
  if aggLen ≤ accLen then .ok (.all m scatters)
  else do
    let totLen ← ipTotLen m first
    match room with
    | 0 => .error (.index 255)
    | room + 1 => do
      let protocol ← ipProtocol m first
      if supported protocol = false then .ok .unsupported
      else do
        let ihl ← ipIhl m first
        let m ← clearUdpCheck m (first + 4 * ihl)
        let (m, tsAcc) ← stampPdu m (first + (4 * ihl + sizeofUdphdr)) ts tsAcc firstTime
        -- `uint16_t acc_len`
        l3Scatter ts aggLen room m (first + totLen) ((accLen + totLen) % 65536) tsAcc false
          (first :: scatters)

/-- An object after a round on the packet at `first`: its checksum cleared, its timestamp set. -/
def rewritten (m : List UInt8) (first : ℕ) (t : UInt64) : List UInt8 :=
  patch (patch m (first + 4 * ihlAt m first + 6) [0, 0])
    (first + (4 * ihlAt m first + sizeofUdphdr)) (be 8 t.toNat)

theorem length_rewritten {m : List UInt8} {first : ℕ} (t : UInt64)
    (h : first + (4 * ihlAt m first + 16) ≤ m.length) :
    (rewritten m first t).length = m.length := by
  have hcheck : first + 4 * ihlAt m first + 6 + [(0 : UInt8), 0].length ≤ m.length := by
    simp only [List.length_cons, List.length_nil]
    omega
  rw [rewritten, length_patch (by
    rw [length_patch hcheck, length_be]
    simp only [sizeofUdphdr]
    omega), length_patch hcheck]

/-- A round leaves everything before the checksum alone. -/
theorem slice_rewritten {m : List UInt8} {first i n : ℕ} (t : UInt64)
    (h : first + (4 * ihlAt m first + 16) ≤ m.length) (hi : i + n ≤ first + 6) :
    slice (rewritten m first t) i n = slice m i n := by
  have hcheck : first + 4 * ihlAt m first + 6 + [(0 : UInt8), 0].length ≤ m.length := by
    simp only [List.length_cons, List.length_nil]
    omega
  rw [rewritten, slice_patch_of_disjoint (by
    rw [length_patch hcheck, length_be]
    simp only [sizeofUdphdr]
    omega) (by simp only [sizeofUdphdr]; omega), slice_patch_of_disjoint hcheck (by omega)]

/-- A round on a packet in the middle of an object changes that packet only. -/
private theorem rewritten_mid (a : List UInt8) {bs : List UInt8} (c : List UInt8) (t : UInt64)
    (hhead : 10 ≤ bs.length) (hpdu : 4 * ihlOf bs + 16 ≤ bs.length) :
    rewritten (a ++ (bs ++ c)) a.length t = a ++ (rewritten bs 0 t ++ c) := by
  have hihl := (fieldsAt_mid a bs c hhead).1
  have hcheck : patch (a ++ (bs ++ c)) (a.length + (4 * ihlOf bs + 6)) [0, 0] =
      a ++ (patch bs (4 * ihlOf bs + 6) [0, 0] ++ c) := by
    rw [patch_append_right, patch_append_left
      (by simp only [List.length_cons, List.length_nil]; omega)]
  have hlen : (patch bs (4 * ihlOf bs + 6) [0, 0]).length = bs.length :=
    length_patch (by simp only [List.length_cons, List.length_nil]; omega)
  rw [rewritten, hihl, Nat.add_assoc, hcheck, patch_append_right, patch_append_left
    (by rw [length_be, hlen]; simp only [sizeofUdphdr]; omega), rewritten, Nat.zero_add,
    Nat.zero_add]
  rfl

/-- **One round** of the loop on a packet of a supported protocol that lies in the object up to
its timestamp. -/
theorem l3Scatter_step {ts : UInt64} {aggLen room : ℕ} {m : List UInt8} {first accLen : ℕ}
    {tsAcc : UInt64} {firstTime : Bool} {scatters : List ℕ} (hacc : accLen < aggLen)
    (hhead : first + 10 ≤ m.length) (hsup : supported (protocolAt m first) = true)
    (hpdu : first + (4 * ihlAt m first + 16) ≤ m.length) :
    l3Scatter ts aggLen (room + 1) m first accLen tsAcc firstTime scatters =
      l3Scatter ts aggLen room (rewritten m first (ts - tsAcc)) (first + totLenAt m first)
        ((accLen + totLenAt m first) % 65536)
        (if firstTime then tsAcc else tsAcc + (ts - tsAcc)) false (first :: scatters) := by
  have hcheck : first + 4 * ihlAt m first + 6 + [(0 : UInt8), 0].length ≤ m.length := by
    simp only [List.length_cons, List.length_nil]
    omega
  have hclear : clearUdpCheck m (first + 4 * ihlAt m first) =
      .ok (patch m (first + 4 * ihlAt m first + 6) [0, 0]) := store_eq hcheck
  have hstamp := stampPdu_eq (patch m (first + 4 * ihlAt m first + 6) [0, 0])
    (first + (4 * ihlAt m first + sizeofUdphdr))
    (by rw [length_patch hcheck]; simp only [sizeofUdphdr]; omega) ts tsAcc firstTime
  rw [l3Scatter, if_neg (Nat.not_le.mpr hacc), ipTotLen_at (by omega)]
  simp only [ok_bind, ipProtocol_at hhead, hsup, Bool.true_eq_false, if_false,
    ipIhl_at (show first + 1 ≤ m.length by omega), hclear, hstamp]
  rfl

/-- One round on a packet between other bytes: the walk goes on behind it, and what lies there is as
it was. -/
theorem l3Scatter_mid (a : List UInt8) {bs : List UInt8} (c : List UInt8) {ts : UInt64}
    {aggLen room accLen : ℕ} {tsAcc : UInt64} {firstTime : Bool} {scatters : List ℕ}
    (hacc : accLen < aggLen) (hhead : 10 ≤ bs.length) (hpdu : 4 * ihlOf bs + 16 ≤ bs.length)
    (hsup : supported (protocolOf bs) = true) (htotLen : totLenOf bs = bs.length) :
    l3Scatter ts aggLen (room + 1) (a ++ (bs ++ c)) a.length accLen tsAcc firstTime scatters =
      l3Scatter ts aggLen room (a ++ (rewritten bs 0 (ts - tsAcc) ++ c)) (a.length + bs.length)
        ((accLen + bs.length) % 65536) (if firstTime then tsAcc else tsAcc + (ts - tsAcc)) false
        (a.length :: scatters) := by
  obtain ⟨hihlAt, htotLenAt, hprotocolAt⟩ := fieldsAt_mid a bs c hhead
  have hlen : (a ++ (bs ++ c)).length = a.length + (bs.length + c.length) := by
    rw [List.length_append, List.length_append]
  rw [l3Scatter_step hacc (by omega) (by rw [hprotocolAt, hsup]) (by rw [hihlAt]; omega),
    rewritten_mid a c _ hhead hpdu, htotLenAt, htotLen]

/-- `l3_deaggregate` from the first inner header, at `iph`, on: the verdict and the packets
injected. -/
def l3Inner (env : DeaggEnv) (m : List UInt8) (iph aggLen : ℕ) :
    Except Fault (Verdict × List (List UInt8)) := do
  let protocol ← ipProtocol m iph
  if supported protocol = false then .ok (.accept, [])
  else do
    let ihl ← ipIhl m iph
    let firstTs ← pduTimestamp m (iph + (4 * ihl + sizeofUdphdr))
    let scattered ← l3Scatter firstTs aggLen maxScatters m iph 0 0 true []
    match scattered with
    | .unsupported => .ok (.drop, [])
    | .all m scatters => do
      let injected ← injectAll env.injectOk 0 (scatters.map fun ip => (m, ip))
      .ok (.stolen, injected)

/-- `l3_deaggregate`. -/
def l3Deaggregate (env : DeaggEnv) (m : List UInt8) :
    Except Fault (Verdict × List (List UInt8)) := do
  let totLen ← ipTotLen m 0
  let ihl ← ipIhl m 0
  -- `uint16_t agg_len`
  l3Inner env m (4 * ihl) ((totLen + 65536 - 4 * ihl) % 65536)

theorem l3Deaggregate_eq (env : DeaggEnv) {m : List UInt8} (h : 4 ≤ m.length) :
    l3Deaggregate env m =
      l3Inner env m (4 * ihlOf m) ((totLenOf m + 65536 - 4 * ihlOf m) % 65536) := by
  rw [l3Deaggregate, ipTotLen_eq h, ok_bind, ipIhl_eq (by omega), ok_bind]

/-! ### Application datagrams -/

/-- The header fields of a rebuilt packet put right: its length, its protocol and its checksum. -/
def fixHeader (new : List UInt8) (ihl len : ℕ) : Except Fault (List UInt8) := do
  let new ← store new 2 (be 2 (4 * ihl + len))
  let new ← store new 9 [UInt8.ofNat ipprotoUdp]
  let new ← store new 10 [0, 0]
  let buff ← load words new 0 (4 * ihl)
  store new 10 (le 2 (csum buff).toNat)

/-- The packet `app_deagregate` builds for the datagram of `len` bytes at `udph`: a copy of the
outer header, put right, and the datagram. -/
def prependIphdr (m : List UInt8) (udph len : ℕ) : Except Fault (List UInt8) := do
  let ihl ← ipIhl m 0
  let new := List.replicate (4 * ihl + len) 0
  let iph ← load id m 0 (4 * ihl)
  let new ← store new 0 iph
  let udp ← load id m udph len
  let new ← store new (4 * ihl) udp
  fixHeader new ihl len

/-- A header with its length, its protocol and its checksum put right. -/
def rebuildHeader (iph : List UInt8) (totLen : ℕ) : List UInt8 :=
  let iph := patch iph 2 (be 2 totLen)
  let iph := patch iph 9 [UInt8.ofNat ipprotoUdp]
  let iph := patch iph 10 [0, 0]
  patch iph 10 (le 2 (csum (words iph)).toNat)

/-- The header after each of the first three writes, which all lie inside it. -/
structure RebuildSteps (iph : List UInt8) (totLen : ℕ) (iph₁ iph₂ iph₃ : List UInt8) : Prop where
  eq₁ : iph₁ = patch iph 2 (be 2 totLen)
  eq₂ : iph₂ = patch iph₁ 9 [UInt8.ofNat ipprotoUdp]
  eq₃ : iph₃ = patch iph₂ 10 [0, 0]
  length₂ : iph₂.length = iph.length
  length₃ : iph₃.length = iph.length
  totLen_in : 2 + (be 2 totLen).length ≤ iph.length
  protocol_in : 9 + [UInt8.ofNat ipprotoUdp].length ≤ iph₁.length
  check_in : 10 + [(0 : UInt8), 0].length ≤ iph₂.length
  sum_in : ∀ sum, 10 + (le 2 sum).length ≤ iph₃.length

theorem exists_rebuildSteps {iph : List UInt8} (h : 12 ≤ iph.length) (totLen : ℕ) :
    ∃ iph₁ iph₂ iph₃, RebuildSteps iph totLen iph₁ iph₂ iph₃ ∧
      rebuildHeader iph totLen = patch iph₃ 10 (le 2 (csum (words iph₃)).toNat) := by
  have hin₀ : 2 + (be 2 totLen).length ≤ iph.length := by
    rw [length_be]
    omega
  have hlen₁ := length_patch hin₀
  have hin₁ : 9 + [UInt8.ofNat ipprotoUdp].length ≤ (patch iph 2 (be 2 totLen)).length := by
    rw [List.length_singleton]
    omega
  have hlen₂ := (length_patch hin₁).trans hlen₁
  have hin₂ : 10 + [(0 : UInt8), 0].length ≤
      (patch (patch iph 2 (be 2 totLen)) 9 [UInt8.ofNat ipprotoUdp]).length := by
    rw [List.length_cons, List.length_singleton]
    omega
  have hlen₃ := (length_patch hin₂).trans hlen₂
  refine ⟨_, _, _, ⟨rfl, rfl, rfl, hlen₂, hlen₃, hin₀, hin₁, hin₂, fun sum => ?_⟩, rfl⟩
  rw [length_le, hlen₃]
  exact h

private theorem fixHeader_eq {iph : List UInt8} {ihl : ℕ} (hihl : 5 ≤ ihl)
    (hlen : iph.length = 4 * ihl) (udp : List UInt8) (len : ℕ) :
    fixHeader (iph ++ udp) ihl len = .ok (rebuildHeader iph (4 * ihl + len) ++ udp) := by
  obtain ⟨iph₁, iph₂, iph₃, steps, hrebuild⟩ :=
    exists_rebuildSteps (show 12 ≤ iph.length by omega) (4 * ihl + len)
  have hlen₃ := steps.length₃
  have hbuff : load words (iph₃ ++ udp) 0 (4 * ihl) = .ok (words iph₃) := by
    rw [load_eq (by rw [List.length_append]; omega), slice_append_left (by omega), ← hlen, ← hlen₃,
      slice_zero_length]
  rw [hrebuild, fixHeader, store_left _ steps.totLen_in, ok_bind, ← steps.eq₁,
    store_left _ steps.protocol_in, ok_bind, ← steps.eq₂, store_left _ steps.check_in, ok_bind,
    ← steps.eq₃, hbuff, ok_bind, store_left _ (steps.sum_in _)]

/-- **The rebuilt packet**: the header put right, and the datagram. -/
theorem prependIphdr_eq {m : List UInt8} {udph len : ℕ} (hihl : 5 ≤ ihlOf m)
    (hhead : 4 * ihlOf m ≤ m.length) (hudp : udph + len ≤ m.length) :
    prependIphdr m udph len =
      .ok (rebuildHeader (m.take (4 * ihlOf m)) (4 * ihlOf m + len) ++ slice m udph len) := by
  obtain ⟨iph, hiph⟩ : ∃ iph, iph = m.take (4 * ihlOf m) := ⟨_, rfl⟩
  obtain ⟨udp, hudp'⟩ : ∃ udp, udp = slice m udph len := ⟨_, rfl⟩
  have hlen : iph.length = 4 * ihlOf m := by
    rw [hiph, List.length_take]
    omega
  have hlen' : udp.length = len := by rw [hudp', length_slice hudp]
  have hcopy : load id m 0 (4 * ihlOf m) = .ok iph := by
    rw [load_eq (by omega), hiph]
    rfl
  have hcopy' : load id m udph len = .ok udp := by
    rw [load_eq hudp, hudp']
    rfl
  have hstore := store_fresh_left iph len
  have hstore' := store_fresh_right iph udp
  rw [hlen] at hstore hstore'
  rw [hlen'] at hstore'
  rw [prependIphdr, ipIhl_eq (by omega), ok_bind, hcopy, ok_bind, hstore, ok_bind, hcopy', ok_bind,
    hstore', ok_bind, fixHeader_eq hihl hlen udp len, hiph, hudp']

theorem safe_prependIphdr_iff {m : List UInt8} {udph len : ℕ} (hihl : 5 ≤ ihlOf m)
    (hhead : 4 * ihlOf m ≤ m.length) :
    Safe (prependIphdr m udph len) ↔ udph + len ≤ m.length := by
  constructor
  · rintro ⟨new, h⟩
    rw [prependIphdr] at h
    obtain ⟨ihl, -, h⟩ := bind_eq_ok.mp h
    obtain ⟨iph, -, h⟩ := bind_eq_ok.mp h
    obtain ⟨block, -, h⟩ := bind_eq_ok.mp h
    obtain ⟨udp, hudp, -⟩ := bind_eq_ok.mp h
    by_contra hout
    rw [load, if_neg hout] at hudp
    cases hudp
  · intro h
    exact ⟨_, prependIphdr_eq hihl hhead h⟩

/-- `ts_acc += pdu->timestamp` through the uninitialised pointer, but for the first time. -/
def accumulateWild (wild : Option UInt64) (tsAcc : UInt64) (firstTime : Bool) :
    Except Fault UInt64 :=
  if firstTime then .ok tsAcc
  else match wild with
    | none => .error .uninitialised
    | some t => .ok (tsAcc + t)

/-- What a round of the loop of `app_deagregate` leaves: the object, the accumulator, the length of
the datagram and the packet built for it. -/
structure AppRound where
  m : List UInt8
  tsAcc : UInt64
  len : ℕ
  new : List UInt8

/-- One round, the `k`-th, on the datagram at `udph`. The timestamp is always written at `first`,
which is the first datagram's. -/
def appRound (env : DeaggEnv) (ts : UInt64) (first : ℕ) (m : List UInt8) (udph : ℕ)
    (tsAcc : UInt64) (k : ℕ) : Except Fault AppRound := do
  let m ← clearUdpCheck m udph
  let m ← setHostTimestamp m first (ts - tsAcc)
  let tsAcc ← accumulateWild (env.wild (k - 1)) tsAcc (k = 0)
  let m ← swapTimestamp m first
  let len ← udpLen m udph
  if env.newOk k = false then .error .null
  else do
    let new ← prependIphdr m udph len
    .ok ⟨m, tsAcc, len, new⟩

/-- The object after a round of `app_deagregate`. -/
def appRewritten (ts : UInt64) (first : ℕ) (m : List UInt8) (udph : ℕ) (tsAcc : UInt64) :
    List UInt8 :=
  patch (patch m (udph + 6) [0, 0]) first (be 8 (ts - tsAcc).toNat)

theorem length_appRewritten {ts : UInt64} {first : ℕ} {m : List UInt8} {udph : ℕ}
    {tsAcc : UInt64} (hudp : udph + 8 ≤ m.length) (hfirst : first + 8 ≤ m.length) :
    (appRewritten ts first m udph tsAcc).length = m.length := by
  have hcheck : (patch m (udph + 6) [(0 : UInt8), 0]).length = m.length := length_patch hudp
  rw [appRewritten, length_patch (by rw [hcheck, length_be]; exact hfirst), hcheck]

theorem ihlOf_appRewritten (ts : UInt64) {first : ℕ} {m : List UInt8} {udph : ℕ} (tsAcc : UInt64)
    (hudp : udph + 8 ≤ m.length) (hpdu : first + 8 ≤ m.length) (hfirst : 1 ≤ first) :
    ihlOf (appRewritten ts first m udph tsAcc) = ihlOf m := by
  have hcheck : (patch m (udph + 6) [(0 : UInt8), 0]).length = m.length := length_patch hudp
  rw [ihlOf, appRewritten, slice_patch_of_disjoint (by rw [hcheck, length_be]; exact hpdu)
    (by omega), slice_patch_of_disjoint hudp (by omega), ihlOf]

/-- The first round does not touch the length of its datagram. -/
theorem udpLenAt_appRewritten (ts : UInt64) {m : List UInt8} {udph : ℕ} (tsAcc : UInt64)
    (h : udph + sizeofUdphdr + 8 ≤ m.length) :
    udpLenAt (appRewritten ts (udph + sizeofUdphdr) m udph tsAcc) udph = udpLenAt m udph := by
  simp only [sizeofUdphdr] at h ⊢
  have hudp : udph + 6 + [(0 : UInt8), 0].length ≤ m.length := by
    simp only [List.length_cons, List.length_nil]
    omega
  rw [udpLenAt, appRewritten,
    slice_patch_of_disjoint (by rw [length_patch hudp, length_be]; exact h) (by omega),
    slice_patch_of_disjoint hudp (by omega), udpLenAt]

/-- A round whose two writes are in bounds. -/
theorem appRound_eq (env : DeaggEnv) (ts : UInt64) {first : ℕ} {m : List UInt8} {udph : ℕ}
    (tsAcc : UInt64) (k : ℕ) (hudp : udph + 8 ≤ m.length) (hfirst : first + 8 ≤ m.length) :
    appRound env ts first m udph tsAcc k =
      (accumulateWild (env.wild (k - 1)) tsAcc (k = 0) >>= fun tsAcc' =>
        if env.newOk k = false then .error .null
        else
          prependIphdr (appRewritten ts first m udph tsAcc) udph
              (udpLenAt (appRewritten ts first m udph tsAcc) udph) >>= fun new =>
            .ok ⟨appRewritten ts first m udph tsAcc, tsAcc',
              udpLenAt (appRewritten ts first m udph tsAcc) udph, new⟩) := by
  have hcheck : (patch m (udph + 6) [(0 : UInt8), 0]).length = m.length := length_patch hudp
  have hin : first + 8 ≤ (patch m (udph + 6) [(0 : UInt8), 0]).length := by
    rw [hcheck]
    exact hfirst
  rw [appRound, clearUdpCheck, store_eq hudp, ok_bind, setHostTimestamp_eq hin, ok_bind,
    swapTimestamp_patch hin]
  simp only [ok_bind]
  rw [← appRewritten, udpLen_at (by rw [length_appRewritten hudp hfirst]; omega)]
  rfl

/-- **When a round stays in bounds**: the datagram's header and the first timestamp lie in the
object, the read through `pdu` succeeds unless it is the first round, the packet is allocated, and
the datagram ends inside the object. -/
theorem safe_appRound_iff (env : DeaggEnv) (ts : UInt64) {first : ℕ} {m : List UInt8} {udph : ℕ}
    (tsAcc : UInt64) (k : ℕ) (hihl : 5 ≤ ihlOf m) (hhead : 4 * ihlOf m ≤ m.length)
    (hfirst : 1 ≤ first) :
    Safe (appRound env ts first m udph tsAcc k) ↔
      udph + 8 ≤ m.length ∧ first + 8 ≤ m.length ∧ (k = 0 ∨ (env.wild (k - 1)).isSome) ∧
        env.newOk k = true ∧
        udph + udpLenAt (appRewritten ts first m udph tsAcc) udph ≤ m.length := by
  by_cases hudp : udph + 8 ≤ m.length
  swap
  · refine iff_of_false ?_ fun h => hudp h.1
    have hfault : clearUdpCheck m udph = .error (.write (udph + 6) 2) := if_neg hudp
    rw [appRound, hfault, error_bind]
    exact not_safe_error _
  by_cases hpdu : first + 8 ≤ m.length
  swap
  · refine iff_of_false ?_ fun h => hpdu h.2.1
    have hcheck : (patch m (udph + 6) [(0 : UInt8), 0]).length = m.length := length_patch hudp
    rw [appRound, clearUdpCheck, store_eq hudp, ok_bind, setHostTimestamp, store,
      if_neg (by rw [hcheck, length_le]; exact hpdu), error_bind]
    exact not_safe_error _
  have hlen : (appRewritten ts first m udph tsAcc).length = m.length :=
    length_appRewritten hudp hpdu
  have hsame := ihlOf_appRewritten ts tsAcc hudp hpdu hfirst
  rw [appRound_eq env ts tsAcc k hudp hpdu, and_iff_right hudp, and_iff_right hpdu]
  have hrest : ∀ tsAcc' : UInt64,
      Safe (if env.newOk k = false then .error .null
        else
          prependIphdr (appRewritten ts first m udph tsAcc) udph
              (udpLenAt (appRewritten ts first m udph tsAcc) udph) >>= fun new =>
            .ok (AppRound.mk (appRewritten ts first m udph tsAcc) tsAcc'
              (udpLenAt (appRewritten ts first m udph tsAcc) udph) new)) ↔
      env.newOk k = true ∧
        udph + udpLenAt (appRewritten ts first m udph tsAcc) udph ≤ m.length := by
    intro tsAcc'
    cases hnew : env.newOk k with
    | false => simp
    | true =>
      rw [if_neg (by decide), safe_bind_ok, safe_prependIphdr_iff (by rw [hsame]; exact hihl)
        (by rw [hsame, hlen]; exact hhead), hlen]
      simp
  cases k with
  | zero => simpa [accumulateWild] using hrest tsAcc
  | succ k =>
    rw [Nat.add_sub_cancel]
    cases hwild : env.wild k with
    | none => simp [accumulateWild]
    | some t => simpa [accumulateWild] using hrest (tsAcc + t)

/-- The loop of `app_deagregate` with `n` packets to go and `room` slots of the table left. -/
def appScatter (env : DeaggEnv) (ts : UInt64) (first : ℕ) (room n : ℕ) (m : List UInt8)
    (udph : ℕ) (tsAcc : UInt64) (k : ℕ) (scatters : List (List UInt8)) :
    Except Fault (List (List UInt8)) :=
  match n with
  | 0 => .ok scatters
  | n + 1 => do
    let r ← appRound env ts first m udph tsAcc k
    match room with
    | 0 => .error (.index 255)
    | room + 1 =>
      appScatter env ts first room n r.m (udph + r.len) r.tsAcc (k + 1) (r.new :: scatters)

/-- `app_deagregate` on an aggregate of its protocol, given its header length and the number of
packets computed. -/
def appInner (env : DeaggEnv) (m : List UInt8) (ihl numberOfPackets : ℕ) :
    Except Fault (Verdict × List (List UInt8)) := do
  let udph := 4 * ihl
  let first := udph + sizeofUdphdr
  let firstTs ← pduTimestamp m first
  let scatters ← appScatter env firstTs first maxScatters numberOfPackets m udph 0 0 []
  let injected ← injectAll env.injectOk 0 (scatters.map fun new => (new, 0))
  .ok (.stolen, injected)

/-- `app_deagregate`. -/
def appDeagregate (env : DeaggEnv) (m : List UInt8) :
    Except Fault (Verdict × List (List UInt8)) := do
  let protocol ← ipProtocol m 0
  if protocol ≠ agregatedApplicationEncapUdpProto then .ok (.accept, [])
  else do
    let ihl ← ipIhl m 0
    let totLen ← ipTotLen m 0
    -- `uint32_t number_of_packets`
    appInner env m ihl ((totLen + 2 ^ 32 - 4 * ihl) % 2 ^ 32 / (sizeofUdphdr + sizeofPacket))

theorem appDeagregate_eq (env : DeaggEnv) {m : List UInt8} (h : 10 ≤ m.length)
    (hproto : protocolOf m = agregatedApplicationEncapUdpProto)
    (htot : 4 * ihlOf m ≤ totLenOf m) :
    appDeagregate env m =
      appInner env m (ihlOf m) ((totLenOf m - 4 * ihlOf m) / (sizeofUdphdr + sizeofPacket)) := by
  have hlt := totLenOf_lt m
  have hcount : (totLenOf m + 2 ^ 32 - 4 * ihlOf m) % 2 ^ 32 = totLenOf m - 4 * ihlOf m := by
    omega
  rw [appDeagregate, ipProtocol_eq h, ok_bind, hproto, if_neg (by decide), ipIhl_eq (by omega),
    ok_bind, ipTotLen_eq (by omega), ok_bind, hcount]

/-- `deaggregation_local_in_hook`. -/
def deaggregationLocalInHook (env : DeaggEnv) (m : List UInt8) :
    Except Fault (Verdict × List (List UInt8)) := do
  let protocol ← ipProtocol m 0
  if protocol = agregatedApplicationEncapUdpProto then appDeagregate env m
  else if protocol = agregatedIpEncapIpProto then l3Deaggregate env m
  else .ok (.accept, [])

end MiaVita
