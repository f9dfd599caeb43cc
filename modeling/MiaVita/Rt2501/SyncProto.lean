import MiaVita.FredFramework.Headers

/-!
# The synchronisation hooks of the driver (`rt2501`, `sync_proto.c`)

The driver rewrites the timestamp of the packets that its filters select: on the way out the time of
creation becomes an age (`synchOutDataPacket`), on the way in the age becomes a time of creation on
the clock of the receiver (`synchInDataPacket`). On the way out it also adds to the estimated time
on the air and stores what its counters of failures and retries have gained, and in both directions
it computes the UDP checksum anew (`checkUdp`).

A filter gives addresses and ports, `0` standing for any. `match_filter` compares the two addresses
and the two ports, and takes a packet that agrees in one of the two groups. So a filter that gives
ports only takes every packet. `untouched_iff` says which packets the hooks leave alone.
-/

namespace MiaVita.Rt2501

open Bytes Memory Fallible

/-! ### Filters -/

/-- `filter`, without the protocol, which is not read. -/
structure Filter where
  dstAddr : UInt32
  srcAddr : UInt32
  dstPort : UInt16
  srcPort : UInt16

/-- `ip->saddr`. -/
def ipSaddr (m : List UInt8) (iph : ℕ) : Except Fault UInt32 :=
  load (fun bs => UInt32.ofNat (beVal bs)) m (iph + 12) 4

/-- `udp->source`. -/
def udpSource (m : List UInt8) (udph : ℕ) : Except Fault UInt16 :=
  load (fun bs => UInt16.ofNat (beVal bs)) m udph 2

/-- `udp->dest`. -/
def udpDest (m : List UInt8) (udph : ℕ) : Except Fault UInt16 :=
  load (fun bs => UInt16.ofNat (beVal bs)) m (udph + 2) 2

/-- `value != 0 && field != value`, the field being read in the second part only. -/
def differs {α : Type} [DecidableEq α] [OfNat α 0] (value : α) (field : Except Fault α) :
    Except Fault Bool :=
  if value = 0 then .ok false
  else do
    let x ← field
    return decide (x ≠ value)

/-- The two tests of a group, one after the other. -/
def neither (dst src : Except Fault Bool) : Except Fault Bool := do
  if ← dst then return false
  else do
    if ← src then return false
    else return true

/-- `match_filter_against_udp_ports`. -/
def matchFilterAgainstUdpPorts (m : List UInt8) (udph : ℕ) (f : Filter) : Except Fault Bool :=
  neither (differs f.dstPort (udpDest m udph)) (differs f.srcPort (udpSource m udph))

/-- `match_filter_against_ip_ips`. -/
def matchFilterAgainstIpIps (m : List UInt8) (iph : ℕ) (f : Filter) : Except Fault Bool :=
  neither (differs f.dstAddr (ipDaddr m iph)) (differs f.srcAddr (ipSaddr m iph))

/-- `match_filter`, with the `|` of the source. -/
def matchFilter (m : List UInt8) (iph : ℕ) (f : Filter) : Except Fault Bool := do
  let ips ← matchFilterAgainstIpIps m iph f
  let ihl ← ipIhl m iph
  let ports ← matchFilterAgainstUdpPorts m (iph + 4 * ihl) f
  return ips || ports

/-- The loop over the table, which the first filter that matches ends. -/
def anyMatch (m : List UInt8) (iph : ℕ) : List Filter → Except Fault Bool
  | [] => .ok false
  | f :: fs => do
    if ← matchFilter m iph f then return true
    else anyMatch m iph fs

/-! ### The UDP checksum -/

/-- `while(sum & 0x00010000)`: the carry is added again. -/
def readdCarry (sum : ℕ) : ℕ :=
  if sum / 65536 % 2 = 1 then readdCarry (sum % 65536 + 1) else sum
termination_by sum
decreasing_by omega

/-- `ntohs` of the 16-bit words of a buffer. -/
def netWords : List UInt8 → List ℕ
  | a :: b :: bs => beVal [a, b] :: netWords bs
  | _ => []

/-- `pseudo_hdr_len`, in words, from the length of the datagram. -/
def pseudoHdrLen (len : ℕ) : ℕ :=
  let udpDataLen := (len + 65536 - sizeofUdphdr) % 65536
  if udpDataLen % 2 = 1 then (udpDataLen + 21) / 2 else (udpDataLen + 20) / 2

/-- The pseudo header with the datagram behind it, in a buffer of the size that is allocated. -/
def pseudoHdr (m : List UInt8) (udph saddr daddr : ℕ) : Except Fault (List UInt8) := do
  let len ← udpLen m udph
  let hdr ← store (List.replicate (2 * pseudoHdrLen len) 0) 0 (le 4 saddr)
  let hdr ← store hdr 4 (le 4 daddr)
  let hdr ← store hdr 9 (le 2 ipprotoUdp)
  let lenField ← load id m (udph + 4) 2
  let hdr ← store hdr 10 lenField
  let datagram ← load id m udph len
  store hdr 12 datagram

/-- `check_udp`. Nothing happens if there is no memory for the pseudo header. -/
def checkUdp (kmalloc : Bool) (m : List UInt8) (udph saddr daddr : ℕ) :
    Except Fault (List UInt8) := do
  let _ ← udpLen m udph
  if kmalloc then do
    let m ← clearUdpCheck m udph
    let hdr ← pseudoHdr m udph saddr daddr
    let sum := (netWords hdr).foldl (fun sum w => readdCarry (sum + w)) 0
    let check := 65535 - sum % 65536
    store m (udph + 6) (le 2 (if check = 0 then 0xFFFF else check))
  else return m

/-! ### The hooks -/

/-- `sizeof(TXD_STRUC)`. -/
abbrev sizeofTxd : ℕ := 24

/-- `sizeof(HEADER_802_11)`. -/
abbrev sizeofHeader80211 : ℕ := 24

/-- `ETH_P_IP`. -/
abbrev ethPIp : ℕ := 0x0800

/-- What the hooks read of the adapter. The rate is one of `RATE_1` to `RATE_54`. -/
structure Adapter where
  /-- `ADHOC_ON`. -/
  adhocOn : Bool
  /-- `fOP_STATUS_SHORT_PREAMBLE_INUSED`. -/
  shortPreamble : Bool
  /-- `PortCfg.TxRate`. -/
  txRate : Fin 12
  /-- `WlanCounters.FailedCount.vv.LowPart`. -/
  failedCount : UInt32
  /-- `WlanCounters.RetryCount.vv.LowPart`. -/
  retryCount : UInt32

/-- The static variables of `synch_out_data_packet`. -/
structure Statics where
  lastFails : UInt32
  lastRetries : UInt32
  deriving DecidableEq

/-- `RateIdTo500Kbps`. -/
def rateIdTo500Kbps (rate : Fin 12) : ℕ :=
  [2, 4, 11, 22, 12, 18, 24, 36, 48, 72, 96, 108].get rate

/-- `RTMPCalcDuration`, with its truncations to 16 bits. -/
def rtmpCalcDuration (pad : Adapter) (size : ℕ) : ℕ :=
  let rate := rateIdTo500Kbps pad.txRate
  let duration :=
    if pad.txRate < 4 then
      (if pad.txRate > 0 ∧ pad.shortPreamble then 96 else 192) + size * 16 / rate % 65536 +
        if size * 16 % rate ≠ 0 then 1 else 0
    else
      26 + 4 * ((11 + size * 4) / rate % 65536) + if (11 + size * 4) % rate ≠ 0 then 4 else 0
  duration % 65536

/-- `be64_to_cpu(pdu->air)`. -/
def pduAir (m : List UInt8) (pdu : ℕ) : Except Fault UInt64 :=
  load (fun bs => UInt64.ofNat (beVal bs)) m (pdu + 8) 8

/-- What is added to `pdu->air`: `__ieee80211b_diffs__` and the duration of the frame. -/
def airTime (pad : Adapter) (totLen : ℕ) : ℕ :=
  50 + rtmpCalcDuration pad (sizeofHeader80211 + 8 + totLen)

/-- A counter that has changed is stored, as the difference in 8 bits. -/
def storeChange (m : List UInt8) (i : ℕ) (last count : UInt32) : Except Fault (List UInt8) :=
  if last ≠ count then store m i [(last - count).toUInt8] else .ok m

/-- What `synch_out_data_packet` does to a packet that a filter takes. -/
def stampOut (pad : Adapter) (now : UInt64) (kmalloc : Bool) (st : Statics) (m : List UInt8)
    (iph udph : ℕ) : Except Fault (List UInt8 × Statics) := do
  let pdu := udph + sizeofUdphdr
  let incommingTs ← pduTimestamp m pdu
  let m ← setPduTimestamp m pdu (now - incommingTs)
  let air ← pduAir m pdu
  let totLen ← ipTotLen m iph
  let m ← store m (pdu + 8) (be 8 (air + UInt64.ofNat (airTime pad totLen)).toNat)
  let m ← storeChange m (pdu + 20) st.lastFails pad.failedCount
  let m ← storeChange m (pdu + 21) st.lastRetries pad.retryCount
  -- `ntohs` keeps two of the four bytes of an address
  let saddr ← load beVal m (iph + 12) 2
  let daddr ← load beVal m (iph + 16) 2
  let m ← checkUdp kmalloc m udph saddr daddr
  return (m, ⟨pad.failedCount, pad.retryCount⟩)

/-- Whether the logical link control header starts with `SNAP` twice. -/
def isSnap (m : List UInt8) (llc : ℕ) : Except Fault Bool := do
  let dsap ← load leVal m llc 1
  if dsap = 0xAA then do
    let ssap ← load leVal m (llc + 1) 1
    return decide (ssap = 0xAA)
  else return false

/-- Whether the packet at an address is one that the hooks rewrite, and where its datagram is. -/
def selected (filters : List Filter) (m : List UInt8) (iph : ℕ) : Except Fault (Option ℕ) := do
  let ihl ← ipIhl m iph
  let protocol ← ipProtocol m iph
  if protocol = ipprotoUdp then do
    if ← anyMatch m iph filters then return some (iph + 4 * ihl)
    else return none
  else return none

/-- `synch_out_data_packet`, on the transfer buffer. -/
def synchOutDataPacket (filters : List Filter) (pad : Adapter) (now : UInt64) (kmalloc : Bool)
    (st : Statics) (m : List UInt8) : Except Fault (List UInt8 × Statics) :=
  if pad.adhocOn then do
    let llc := sizeofTxd + sizeofHeader80211
    if ← isSnap m llc then do
      let pid ← load beVal m (llc + 6) 2
      if pid = ethPIp then do
        let iph := llc + 8
        match ← selected filters m iph with
        | some udph => stampOut pad now kmalloc st m iph udph
        | none => return (m, st)
      else return (m, st)
    else return (m, st)
  else .ok (m, st)

/-- What `synch_in_data_packet` does to a packet that a filter takes. -/
def stampIn (now : UInt64) (kmalloc : Bool) (m : List UInt8) (iph udph : ℕ) :
    Except Fault (List UInt8) := do
  let pdu := udph + sizeofUdphdr
  let otherTs ← pduTimestamp m pdu
  let m ← setPduTimestamp m pdu (now - otherTs)
  let saddr ← load beVal m (iph + 12) 2
  let daddr ← load beVal m (iph + 16) 2
  checkUdp kmalloc m udph saddr daddr

/-- `synch_in_data_packet`, on the Ethernet header and the packet. -/
def synchInDataPacket (filters : List Filter) (pad : Adapter) (now : UInt64) (kmalloc : Bool)
    (hdr data : List UInt8) : Except Fault (List UInt8) :=
  if pad.adhocOn then do
    let pid ← load beVal hdr 12 2
    if pid = ethPIp then do
      match ← selected filters data 0 with
      | some udph => stampIn now kmalloc data 0 udph
      | none => return data
    else return data
  else .ok data

/-! ### What a filter takes -/

/-- The source address. -/
def saddrOf (bs : List UInt8) : UInt32 := UInt32.ofNat (beVal (slice bs 12 4))

/-- The source port of the datagram at an offset. -/
def sportOf (bs : List UInt8) (udph : ℕ) : UInt16 := UInt16.ofNat (beVal (slice bs udph 2))

/-- The destination port of the datagram at an offset. -/
def dportOf (bs : List UInt8) (udph : ℕ) : UInt16 := UInt16.ofNat (beVal (slice bs (udph + 2) 2))

namespace Filter

/-- The packet has the addresses that the filter gives. -/
def MatchesAddrs (f : Filter) (bs : List UInt8) : Prop :=
  (f.dstAddr = 0 ∨ daddrOf bs = f.dstAddr) ∧ (f.srcAddr = 0 ∨ saddrOf bs = f.srcAddr)

/-- The packet has the ports that the filter gives. -/
def MatchesPorts (f : Filter) (bs : List UInt8) : Prop :=
  (f.dstPort = 0 ∨ dportOf bs (4 * ihlOf bs) = f.dstPort) ∧
    (f.srcPort = 0 ∨ sportOf bs (4 * ihlOf bs) = f.srcPort)

instance (f : Filter) (bs : List UInt8) : Decidable (f.MatchesAddrs bs) :=
  inferInstanceAs (Decidable (_ ∧ _))

instance (f : Filter) (bs : List UInt8) : Decidable (f.MatchesPorts bs) :=
  inferInstanceAs (Decidable (_ ∧ _))

end Filter

/-- Some filter takes the packet, by its addresses or by its ports. -/
def Taken (filters : List Filter) (bs : List UInt8) : Prop :=
  ∃ f ∈ filters, f.MatchesAddrs bs ∨ f.MatchesPorts bs

private theorem differs_ok {α : Type} [DecidableEq α] [OfNat α 0] (value x : α) :
    differs value (.ok x) = .ok (decide (¬ (value = 0 ∨ x = value))) := by
  rw [differs]
  split_ifs with h <;> simp [h]

private theorem neither_ok (dst src : Bool) : neither (.ok dst) (.ok src) = .ok (!dst && !src) := by
  cases dst <;> cases src <;> rfl

section Packet

/-! A packet `p` with its IP header and the ports, at the end of an object. -/

variable {p : List UInt8} (hlong : 20 ≤ p.length) (hports : 4 * ihlOf p + 4 ≤ p.length)
  (a : List UInt8)
include hlong hports

private theorem matchFilter_eq (f : Filter) :
    matchFilter (a ++ p) a.length f = .ok (decide (f.MatchesAddrs p ∨ f.MatchesPorts p)) := by
  have hdaddr : ipDaddr (a ++ p) a.length = .ok (daddrOf p) := load_right (by omega) a
  have hsaddr : ipSaddr (a ++ p) a.length = .ok (saddrOf p) := load_right (by omega) a
  have hihl : ipIhl (a ++ p) a.length = .ok (ihlOf p) :=
    load_right (i := 0) (n := 1) (by omega) a
  have hdest : udpDest (a ++ p) (a.length + 4 * ihlOf p) = .ok (dportOf p (4 * ihlOf p)) := by
    rw [udpDest, Nat.add_assoc]
    exact load_right (by omega) a
  have hsource : udpSource (a ++ p) (a.length + 4 * ihlOf p) = .ok (sportOf p (4 * ihlOf p)) :=
    load_right (by omega) a
  rw [matchFilter, matchFilterAgainstIpIps, hdaddr, hsaddr, differs_ok, differs_ok, neither_ok,
    ok_bind, hihl, ok_bind, matchFilterAgainstUdpPorts, hdest, hsource, differs_ok, differs_ok,
    neither_ok, ok_bind]
  refine congrArg Except.ok ?_
  rw [Bool.eq_iff_iff, decide_eq_true_iff]
  simp [Filter.MatchesAddrs, Filter.MatchesPorts]

private theorem anyMatch_eq (filters : List Filter) :
    anyMatch (a ++ p) a.length filters =
      .ok (filters.any fun f => decide (f.MatchesAddrs p ∨ f.MatchesPorts p)) := by
  induction filters with
  | nil => rfl
  | cons f fs ih =>
    rw [anyMatch, matchFilter_eq hlong hports, ok_bind, ih, List.any_cons]
    split_ifs with hf
    · rw [hf, Bool.true_or]
      rfl
    · rw [Bool.eq_false_iff.mpr hf, Bool.false_or]

/-- **What the hooks take**: a UDP packet that some filter takes. -/
theorem selected_of_taken (hproto : protocolOf p = ipprotoUdp) {filters : List Filter}
    (h : Taken filters p) :
    selected filters (a ++ p) a.length = .ok (some (a.length + 4 * ihlOf p)) := by
  have hihl : ipIhl (a ++ p) a.length = .ok (ihlOf p) :=
    load_right (i := 0) (n := 1) (by omega) a
  have hprotocol : ipProtocol (a ++ p) a.length = .ok (protocolOf p) := load_right (by omega) a
  have hany : (filters.any fun f => decide (f.MatchesAddrs p ∨ f.MatchesPorts p)) = true := by
    simpa [Taken] using h
  rw [selected, hihl, ok_bind, hprotocol, ok_bind, if_pos hproto, anyMatch_eq hlong hports, ok_bind,
    if_pos hany]
  rfl

private theorem selected_of_not_taken {filters : List Filter} (h : ¬ Taken filters p) :
    selected filters (a ++ p) a.length = .ok none := by
  have hihl : ipIhl (a ++ p) a.length = .ok (ihlOf p) :=
    load_right (i := 0) (n := 1) (by omega) a
  have hprotocol : ipProtocol (a ++ p) a.length = .ok (protocolOf p) := load_right (by omega) a
  have hany : ¬ (filters.any fun f => decide (f.MatchesAddrs p ∨ f.MatchesPorts p)) = true := by
    simpa [Taken] using h
  rw [selected, hihl, ok_bind, hprotocol, ok_bind, anyMatch_eq hlong hports, ok_bind, if_neg hany]
  split_ifs <;> rfl

end Packet

/-! ### What the hooks write -/

/-- The timestamp of the `packet_t` at an address. -/
def timestampAt (m : List UInt8) (pdu : ℕ) : UInt64 := UInt64.ofNat (beVal (slice m pdu 8))

/-- The time on the air of the driver's `packet_t` at an address. -/
def airAt (m : List UInt8) (pdu : ℕ) : UInt64 := UInt64.ofNat (beVal (slice m (pdu + 8) 8))

/-- `check_udp` writes the checksum only. -/
theorem frame_checkUdp {kmalloc : Bool} {m m' : List UInt8} {udph saddr daddr : ℕ}
    (h : checkUdp kmalloc m udph saddr daddr = .ok m') :
    Frame (fun k => udph + 6 ≤ k ∧ k < udph + 8) m m' := by
  obtain ⟨len, -, h⟩ := bind_eq_ok.mp h
  split_ifs at h
  · obtain ⟨m₁, hm₁, h⟩ := bind_eq_ok.mp h
    obtain ⟨hdr, -, h⟩ := bind_eq_ok.mp h
    have hclear := (store_spec hm₁).2.2
    have hcheck := (store_spec h).2.2
    rw [length_le] at hcheck
    exact hclear.trans hcheck
  · cases h
    exact .refl _ m

private theorem length_of_store {m m' xs : List UInt8} {i : ℕ} (h : store m i xs = .ok m') :
    m'.length = m.length := (store_spec h).2.2.length_eq

private theorem safe_store {m xs : List UInt8} {i : ℕ} (h : i + xs.length ≤ m.length) :
    Safe (store m i xs) := ⟨_, store_eq h⟩

private theorem safe_load {α : Type} {decode : List UInt8 → α} {m : List UInt8} {i n : ℕ}
    (h : i + n ≤ m.length) : Safe (load decode m i n) := ⟨_, load_eq h⟩

private theorem pseudoHdrLen_ge {len : ℕ} (h : len < 65536) :
    len + 12 ≤ 2 * pseudoHdrLen len ∧ 20 ≤ 2 * pseudoHdrLen len := by
  simp only [pseudoHdrLen, sizeofUdphdr]
  split_ifs <;> omega

/-- The pseudo header and the datagram fit the buffer that is allocated for them. -/
private theorem safe_pseudoHdr {m : List UInt8} {udph : ℕ} (h : udph + 8 ≤ m.length)
    (hlen : udph + udpLenAt m udph ≤ m.length) (saddr daddr : ℕ) :
    Safe (pseudoHdr m udph saddr daddr) := by
  have hlt : udpLenAt m udph < 65536 := beVal_slice_two_lt m (udph + 4)
  rw [pseudoHdr, udpLen_at (by omega), ok_bind]
  have hn := pseudoHdrLen_ge hlt
  refine (safe_bind_iff_left fun hdr₀ h₀ => ?_).mpr (safe_store (by simp; omega))
  have hlen₀ := length_of_store h₀
  rw [List.length_replicate] at hlen₀
  refine (safe_bind_iff_left fun hdr₁ h₁ => ?_).mpr (safe_store (by simp; omega))
  have hlen₁ := length_of_store h₁
  refine (safe_bind_iff_left fun hdr₂ h₂ => ?_).mpr (safe_store (by simp; omega))
  have hlen₂ := length_of_store h₂
  rw [load_eq (by omega), ok_bind]
  have hfield : (slice m (udph + 4) 2).length = 2 := length_slice (by omega)
  refine (safe_bind_iff_left fun hdr₃ h₃ => ?_).mpr (safe_store (by simp [hfield]; omega))
  have hlen₃ := length_of_store h₃
  have hdatagram : (slice m udph (udpLenAt m udph)).length = udpLenAt m udph := length_slice hlen
  rw [load_eq hlen, ok_bind]
  exact safe_store (by simp [hdatagram]; omega)

private theorem safe_checkUdp {m : List UInt8} {udph : ℕ} (h : udph + 8 ≤ m.length)
    (hlen : udph + udpLenAt m udph ≤ m.length) (kmalloc : Bool) (saddr daddr : ℕ) :
    Safe (checkUdp kmalloc m udph saddr daddr) := by
  rw [checkUdp, udpLen_at (by omega), ok_bind]
  split_ifs
  · refine (safe_bind_iff_left fun m₁ hm₁ => ?_).mpr (safe_store (by simp; omega))
    have hclear := (store_spec hm₁).2.2
    have hlen₁ := hclear.length_eq
    have hudpLen : udpLenAt m₁ udph = udpLenAt m udph := by
      rw [udpLenAt, hclear.slice_eq (fun k h₁ h₂ => by simp; omega), udpLenAt]
    refine (safe_bind_iff_left fun hdr _ => ?_).mpr
      (safe_pseudoHdr (by omega) (by rw [hudpLen]; omega) saddr daddr)
    exact safe_store (by rw [length_le]; omega)
  · exact safe_ok m

theorem frame_storeChange {m m' : List UInt8} {i : ℕ} {last count : UInt32}
    (h : storeChange m i last count = .ok m') : Frame (fun k => k = i) m m' := by
  rw [storeChange] at h
  split_ifs at h
  · exact (store_spec h).2.2.mono fun k hk => by simp at hk; omega
  · cases h
    exact .refl _ m

private theorem safe_storeChange {m : List UInt8} {i : ℕ} (h : i < m.length) (last count : UInt32) :
    Safe (storeChange m i last count) := by
  rw [storeChange]
  split_ifs
  · exact safe_store h
  · exact safe_ok m

/-- **What the hook does to a packet on its way out**: the creation time becomes an age, the time on
the air grows, and the other writes stay in the checksum and in the counters of the driver's
`packet_t`. -/
structure StampedOut (pad : Adapter) (now : UInt64) (iph udph : ℕ) (m m' : List UInt8) : Prop where
  frame : Frame (fun k => udph + 6 ≤ k ∧ k < udph + 24 ∨ udph + 28 ≤ k ∧ k < udph + 30) m m'
  timestamp : timestampAt m' (udph + 8) = now - timestampAt m (udph + 8)
  air : airAt m' (udph + 8) = airAt m (udph + 8) + UInt64.ofNat (airTime pad (totLenAt m iph))

/-- The number in eight bytes that were just written. -/
private theorem ofNat_beVal_be (t : UInt64) : UInt64.ofNat (beVal (be 8 t.toNat)) = t := by
  have hlt : t.toNat < 256 ^ 8 := t.toNat_lt
  rw [beVal_be_of_lt hlt, UInt64.ofNat_toNat]

/-- The writes of the hook, one after the other: the two times, the two counters, and the checksum
over the first halves of the addresses. -/
theorem stampOut_steps {pad : Adapter} {now : UInt64} {kmalloc : Bool} {st st' : Statics}
    {m m' : List UInt8} {iph udph : ℕ} (hiph : iph ≤ udph)
    (h : stampOut pad now kmalloc st m iph udph = .ok (m', st')) :
    ∃ m₁ m₂ m₃, Frame (fun k => udph + 8 ≤ k ∧ k < udph + 24) m m₁ ∧
      timestampAt m₁ (udph + 8) = now - timestampAt m (udph + 8) ∧
      airAt m₁ (udph + 8) = airAt m (udph + 8) + UInt64.ofNat (airTime pad (totLenAt m iph)) ∧
      storeChange m₁ (udph + 28) st.lastFails pad.failedCount = .ok m₂ ∧
      storeChange m₂ (udph + 29) st.lastRetries pad.retryCount = .ok m₃ ∧
      checkUdp kmalloc m₃ udph (beVal (slice m₃ (iph + 12) 2)) (beVal (slice m₃ (iph + 16) 2)) =
        .ok m' ∧
      st' = ⟨pad.failedCount, pad.retryCount⟩ := by
  obtain ⟨ts, hts, h⟩ := bind_eq_ok.mp h
  obtain ⟨m₀, hm₀, h⟩ := bind_eq_ok.mp h
  obtain ⟨air, hair, h⟩ := bind_eq_ok.mp h
  obtain ⟨totLen, htotLen, h⟩ := bind_eq_ok.mp h
  obtain ⟨m₁, hm₁, h⟩ := bind_eq_ok.mp h
  obtain ⟨m₂, hm₂, h⟩ := bind_eq_ok.mp h
  obtain ⟨m₃, hm₃, h⟩ := bind_eq_ok.mp h
  obtain ⟨saddr, hsaddr, h⟩ := bind_eq_ok.mp h
  obtain ⟨daddr, hdaddr, h⟩ := bind_eq_ok.mp h
  obtain ⟨m₄, hm₄, h⟩ := bind_eq_ok.mp h
  cases h
  obtain ⟨-, rfl⟩ := load_eq_ok.mp hts
  obtain ⟨-, rfl⟩ := load_eq_ok.mp hair
  obtain ⟨-, rfl⟩ := load_eq_ok.mp htotLen
  obtain ⟨-, rfl⟩ := load_eq_ok.mp hsaddr
  obtain ⟨-, rfl⟩ := load_eq_ok.mp hdaddr
  obtain ⟨-, hslice₀, hframe₀⟩ := store_spec hm₀
  obtain ⟨-, hslice₁, hframe₁⟩ := store_spec hm₁
  rw [length_be] at hslice₀ hframe₀ hslice₁ hframe₁
  simp only [sizeofUdphdr] at hslice₀ hframe₀ hslice₁ hframe₁
  refine ⟨m₁, m₂, m₃, ?_, ?_, ?_, hm₂, hm₃, hm₄, rfl⟩
  · exact (hframe₀.mono fun k hk => by omega).trans (hframe₁.mono fun k hk => by omega)
  · rw [timestampAt, hframe₁.slice_eq fun k h₁ h₂ => by omega, hslice₀, ofNat_beVal_be]
    rfl
  · have hair' : airAt m₀ (udph + 8) = airAt m (udph + 8) := by
      rw [airAt, hframe₀.slice_eq fun k h₁ h₂ => by omega, airAt]
    have htotLen' : totLenAt m₀ iph = totLenAt m iph := by
      rw [totLenAt, hframe₀.slice_eq fun k h₁ h₂ => by omega, totLenAt]
    rw [airAt, hslice₁, ofNat_beVal_be, ← hair', ← htotLen']
    rfl

theorem stampOut_spec {pad : Adapter} {now : UInt64} {kmalloc : Bool} {st st' : Statics}
    {m m' : List UInt8} {iph udph : ℕ} (hiph : iph ≤ udph)
    (h : stampOut pad now kmalloc st m iph udph = .ok (m', st')) :
    StampedOut pad now iph udph m m' := by
  obtain ⟨m₁, m₂, m₃, hframe₁, hts, hair, hm₂, hm₃, hcheck, -⟩ := stampOut_steps hiph h
  have hframe₂ := frame_storeChange hm₂
  have hframe₃ := frame_storeChange hm₃
  have hframe₄ := frame_checkUdp hcheck
  -- no later write reaches the two times
  have hrest : Frame (fun k => udph + 6 ≤ k ∧ k < udph + 8 ∨ udph + 28 ≤ k ∧ k < udph + 30) m₁ m' :=
    ((hframe₂.mono fun k hk => by omega).trans (hframe₃.mono fun k hk => by omega)).trans
      (hframe₄.mono fun k hk => by omega)
  refine ⟨?_, ?_, ?_⟩
  · exact (hframe₁.mono fun k hk => by omega).trans (hrest.mono fun k hk => by omega)
  · rw [timestampAt, hrest.slice_eq fun k h₁ h₂ => by omega, ← hts, timestampAt]
  · rw [airAt, hrest.slice_eq fun k h₁ h₂ => by omega, ← hair, airAt]

theorem safe_stampOut {m : List UInt8} {iph udph : ℕ} (hiph : iph + 20 ≤ udph)
    (hpdu : udph + 30 ≤ m.length) (hlen : udph + udpLenAt m udph ≤ m.length) (pad : Adapter)
    (now : UInt64) (kmalloc : Bool) (st : Statics) :
    Safe (stampOut pad now kmalloc st m iph udph) := by
  rw [stampOut]
  refine (safe_bind_iff_left fun ts _ => ?_).mpr (safe_load (by simp only [sizeofUdphdr]; omega))
  refine (safe_bind_iff_left fun m₁ hm₁ => ?_).mpr
    (safe_store (by simp only [sizeofUdphdr, length_be]; omega))
  obtain ⟨-, -, hframe₁⟩ := store_spec hm₁
  have hlen₁ := hframe₁.length_eq
  refine (safe_bind_iff_left fun air _ => ?_).mpr (safe_load (by simp only [sizeofUdphdr]; omega))
  refine (safe_bind_iff_left fun totLen _ => ?_).mpr (safe_load (by omega))
  refine (safe_bind_iff_left fun m₂ hm₂ => ?_).mpr
    (safe_store (by simp only [sizeofUdphdr, length_be]; omega))
  obtain ⟨-, -, hframe₂⟩ := store_spec hm₂
  have hlen₂ := hframe₂.length_eq
  refine (safe_bind_iff_left fun m₃ hm₃ => ?_).mpr
    (safe_storeChange (by simp only [sizeofUdphdr]; omega) _ _)
  have hframe₃ := frame_storeChange hm₃
  have hlen₃ := hframe₃.length_eq
  refine (safe_bind_iff_left fun m₄ hm₄ => ?_).mpr
    (safe_storeChange (by simp only [sizeofUdphdr]; omega) _ _)
  have hframe₄ := frame_storeChange hm₄
  have hlen₄ := hframe₄.length_eq
  refine (safe_bind_iff_left fun saddr _ => ?_).mpr (safe_load (by omega))
  refine (safe_bind_iff_left fun daddr _ => ?_).mpr (safe_load (by omega))
  rw [length_be] at hframe₁ hframe₂
  simp only [sizeofUdphdr] at hframe₁ hframe₂ hframe₃ hframe₄
  have hudpLen : udpLenAt m₄ udph = udpLenAt m udph := by
    rw [udpLenAt, hframe₄.slice_eq fun k h₁ h₂ => by omega,
      hframe₃.slice_eq fun k h₁ h₂ => by omega, hframe₂.slice_eq fun k h₁ h₂ => by omega,
      hframe₁.slice_eq fun k h₁ h₂ => by omega, udpLenAt]
  exact (safe_bind_iff_left fun m₅ _ => safe_ok _).mpr
    (safe_checkUdp (by omega) (by omega) kmalloc saddr daddr)

/-- **What the hook does to a packet on its way in**: the age becomes a creation time, and the
checksum is computed anew. -/
structure StampedIn (now : UInt64) (udph : ℕ) (m m' : List UInt8) : Prop where
  frame : Frame (fun k => udph + 6 ≤ k ∧ k < udph + 16) m m'
  timestamp : timestampAt m' (udph + 8) = now - timestampAt m (udph + 8)

theorem stampIn_spec {now : UInt64} {kmalloc : Bool} {m m' : List UInt8} {iph udph : ℕ}
    (h : stampIn now kmalloc m iph udph = .ok m') : StampedIn now udph m m' := by
  obtain ⟨ts, hts, h⟩ := bind_eq_ok.mp h
  obtain ⟨m₁, hm₁, h⟩ := bind_eq_ok.mp h
  obtain ⟨saddr, -, h⟩ := bind_eq_ok.mp h
  obtain ⟨daddr, -, hcheck⟩ := bind_eq_ok.mp h
  obtain ⟨-, rfl⟩ := load_eq_ok.mp hts
  obtain ⟨-, hslice₁, hframe₁⟩ := store_spec hm₁
  rw [length_be] at hslice₁ hframe₁
  have hframe₂ := frame_checkUdp hcheck
  simp only [sizeofUdphdr] at hslice₁ hframe₁
  constructor
  · exact (hframe₁.mono fun k hk => by omega).trans (hframe₂.mono fun k hk => by omega)
  · rw [timestampAt, hframe₂.slice_eq fun k h₁ h₂ => by omega, hslice₁, ofNat_beVal_be]
    rfl

theorem safe_stampIn {m : List UInt8} {iph udph : ℕ} (hiph : iph + 20 ≤ udph)
    (hpdu : udph + 16 ≤ m.length) (hlen : udph + udpLenAt m udph ≤ m.length) (now : UInt64)
    (kmalloc : Bool) : Safe (stampIn now kmalloc m iph udph) := by
  rw [stampIn]
  refine (safe_bind_iff_left fun ts _ => ?_).mpr (safe_load (by simp only [sizeofUdphdr]; omega))
  refine (safe_bind_iff_left fun m₁ hm₁ => ?_).mpr
    (safe_store (by simp only [sizeofUdphdr, length_be]; omega))
  obtain ⟨-, -, hframe₁⟩ := store_spec hm₁
  have hlen₁ := hframe₁.length_eq
  refine (safe_bind_iff_left fun saddr _ => ?_).mpr (safe_load (by omega))
  refine (safe_bind_iff_left fun daddr _ => ?_).mpr (safe_load (by omega))
  rw [length_be] at hframe₁
  simp only [sizeofUdphdr] at hframe₁
  have hudpLen : udpLenAt m₁ udph = udpLenAt m udph := by
    rw [udpLenAt, hframe₁.slice_eq fun k h₁ h₂ => by omega, udpLenAt]
  exact safe_checkUdp (by omega) (by omega) kmalloc saddr daddr

/-! ### Traffic outside of the filters -/

/-- What stands before an IP packet in the transfer buffer: the driver's descriptor, the 802.11
header, and the logical link control header that announces IP. -/
structure TxHeader where
  bytes : List UInt8
  length_eq : bytes.length = 56
  dsap : slice bytes 48 1 = [0xAA]
  ssap : slice bytes 49 1 = [0xAA]
  pid : slice bytes 54 2 = [0x08, 0x00]

namespace TxHeader

variable (hdr : TxHeader) (p : List UInt8)

theorem length_append : (hdr.bytes ++ p).length = 56 + p.length := by
  rw [List.length_append, hdr.length_eq]

/-- What stands behind the header. -/
theorem slice_append (i n : ℕ) : slice (hdr.bytes ++ p) (56 + i) n = slice p i n := by
  rw [← hdr.length_eq, slice_append_right]

theorem udpLenAt_append (udph : ℕ) : udpLenAt (hdr.bytes ++ p) (56 + udph) = udpLenAt p udph := by
  rw [udpLenAt, Nat.add_assoc, slice_append, udpLenAt]

end TxHeader

/-- The Ethernet header of an IP packet. -/
structure EthHeader where
  bytes : List UInt8
  pid : slice bytes 12 2 = [0x08, 0x00]

/-- A UDP packet, as far as the hooks look at it: the two headers are there. -/
structure UdpIp where
  bytes : List UInt8
  ihl_ge : 5 ≤ ihlOf bytes
  protocol_eq : protocolOf bytes = ipprotoUdp
  headers : 4 * ihlOf bytes + sizeofUdphdr ≤ bytes.length

theorem UdpIp.long (p : UdpIp) : 20 ≤ p.bytes.length ∧ 4 * ihlOf p.bytes + 8 ≤ p.bytes.length := by
  have hihl := p.ihl_ge
  have hheaders := p.headers
  simp only [sizeofUdphdr] at hheaders
  omega

section Hooks

variable (filters : List Filter) {pad : Adapter} (now : UInt64) (kmalloc : Bool)

theorem synchOutDataPacket_of_not_adhoc (hadhoc : ¬ pad.adhocOn) (st : Statics) (m : List UInt8) :
    synchOutDataPacket filters pad now kmalloc st m = .ok (m, st) := by
  rw [synchOutDataPacket, if_neg hadhoc]

theorem synchInDataPacket_of_not_adhoc (hadhoc : ¬ pad.adhocOn) (hdr data : List UInt8) :
    synchInDataPacket filters pad now kmalloc hdr data = .ok data := by
  rw [synchInDataPacket, if_neg hadhoc]

/-- The tests before the filters pass for an IP packet. -/
private theorem synchOutDataPacket_eq (hadhoc : pad.adhocOn) (st : Statics) (hdr : TxHeader)
    (p : List UInt8) :
    synchOutDataPacket filters pad now kmalloc st (hdr.bytes ++ p) =
      selected filters (hdr.bytes ++ p) 56 >>= fun
        | some udph => stampOut pad now kmalloc st (hdr.bytes ++ p) 56 udph
        | none => .ok (hdr.bytes ++ p, st) := by
  have hlen := hdr.length_eq
  have hdsap : load leVal (hdr.bytes ++ p) 48 1 = .ok 0xAA := by
    rw [load_eq (by rw [List.length_append]; omega), slice_append_left (by omega), hdr.dsap]
    rfl
  have hssap : load leVal (hdr.bytes ++ p) 49 1 = .ok 0xAA := by
    rw [load_eq (by rw [List.length_append]; omega), slice_append_left (by omega), hdr.ssap]
    rfl
  have hpid : load beVal (hdr.bytes ++ p) 54 2 = .ok ethPIp := by
    rw [load_eq (by rw [List.length_append]; omega), slice_append_left (by omega), hdr.pid]
    rfl
  have hsnap : isSnap (hdr.bytes ++ p) 48 = .ok true := by
    rw [isSnap, hdsap, ok_bind, if_pos rfl, hssap]
    rfl
  rw [synchOutDataPacket, if_pos hadhoc]
  change isSnap (hdr.bytes ++ p) 48 >>= _ = _
  rw [hsnap, ok_bind, if_pos rfl]
  change load beVal (hdr.bytes ++ p) 54 2 >>= _ = _
  rw [hpid, ok_bind, if_pos rfl]
  rfl

private theorem synchInDataPacket_eq (hadhoc : pad.adhocOn) (hdr : EthHeader) (p : List UInt8) :
    synchInDataPacket filters pad now kmalloc hdr.bytes p =
      selected filters p 0 >>= fun
        | some udph => stampIn now kmalloc p 0 udph
        | none => .ok p := by
  have hlen : 14 ≤ hdr.bytes.length := by
    have h := congrArg List.length hdr.pid
    rw [slice, List.length_take, List.length_drop] at h
    simp at h
    omega
  have hpid : load beVal hdr.bytes 12 2 = .ok ethPIp := by
    rw [load_eq hlen, hdr.pid]
    rfl
  rw [synchInDataPacket, if_pos hadhoc, hpid, ok_bind, if_pos rfl]
  rfl

/-- The outgoing hook rewrites a packet that a filter takes. -/
theorem synchOutDataPacket_of_taken (hadhoc : pad.adhocOn) (st : Statics) (hdr : TxHeader)
    {p : UdpIp} (htaken : Taken filters p.bytes) :
    synchOutDataPacket filters pad now kmalloc st (hdr.bytes ++ p.bytes) =
      stampOut pad now kmalloc st (hdr.bytes ++ p.bytes) 56 (56 + 4 * ihlOf p.bytes) := by
  obtain ⟨hlong, hports⟩ := p.long
  have hselected := selected_of_taken hlong (by omega) hdr.bytes p.protocol_eq htaken
  rw [hdr.length_eq] at hselected
  rw [synchOutDataPacket_eq filters now kmalloc hadhoc, hselected, ok_bind]

/-- The incoming hook rewrites a packet that a filter takes. -/
theorem synchInDataPacket_of_taken (hadhoc : pad.adhocOn) (hdr : EthHeader) {p : UdpIp}
    (htaken : Taken filters p.bytes) :
    synchInDataPacket filters pad now kmalloc hdr.bytes p.bytes =
      stampIn now kmalloc p.bytes 0 (4 * ihlOf p.bytes) := by
  obtain ⟨hlong, hports⟩ := p.long
  have hselected : selected filters p.bytes 0 = _ :=
    selected_of_taken hlong (by omega) [] p.protocol_eq htaken
  rw [List.length_nil, Nat.zero_add] at hselected
  rw [synchInDataPacket_eq filters now kmalloc hadhoc, hselected, ok_bind]

/-- The time on the air always grows. -/
theorem airAt_ne {m m' : List UInt8} {iph udph : ℕ} (h : StampedOut pad now iph udph m m') :
    airAt m' (udph + 8) ≠ airAt m (udph + 8) := by
  intro heq
  have hair := h.air
  rw [heq] at hair
  have hzero : UInt64.ofNat (airTime pad (totLenAt m iph)) = 0 := by
    simpa using hair
  have hlt : rtmpCalcDuration pad (sizeofHeader80211 + 8 + totLenAt m iph) < 65536 :=
    Nat.mod_lt _ (by decide)
  have hnat := congrArg UInt64.toNat hzero
  rw [UInt64.toNat_ofNat', airTime, Nat.mod_eq_of_lt (by omega)] at hnat
  simp at hnat

/-- The outgoing hook leaves a packet alone if and only if no filter takes it. -/
theorem synchOutDataPacket_unchanged_iff (hadhoc : pad.adhocOn) (st : Statics) (hdr : TxHeader)
    (p : UdpIp) :
    (∃ st', synchOutDataPacket filters pad now kmalloc st (hdr.bytes ++ p.bytes) =
      .ok (hdr.bytes ++ p.bytes, st')) ↔ ¬ Taken filters p.bytes := by
  by_cases h : Taken filters p.bytes
  · rw [synchOutDataPacket_of_taken filters now kmalloc hadhoc st hdr h]
    refine iff_of_false ?_ (not_not.mpr h)
    rintro ⟨st', hst'⟩
    exact airAt_ne now (stampOut_spec (by omega) hst') rfl
  · obtain ⟨hlong, hports⟩ := p.long
    have hselected := selected_of_not_taken hlong (by omega) hdr.bytes h
    rw [hdr.length_eq] at hselected
    rw [synchOutDataPacket_eq filters now kmalloc hadhoc, hselected, ok_bind]
    exact iff_of_true ⟨st, rfl⟩ h

/-- The incoming hook leaves a packet alone if no filter takes it. -/
theorem synchInDataPacket_of_not_taken (hadhoc : pad.adhocOn) (hdr : EthHeader) (p : UdpIp)
    (h : ¬ Taken filters p.bytes) :
    synchInDataPacket filters pad now kmalloc hdr.bytes p.bytes = .ok p.bytes := by
  obtain ⟨hlong, hports⟩ := p.long
  rw [synchInDataPacket_eq filters now kmalloc hadhoc]
  have hselected : selected filters p.bytes 0 = _ :=
    selected_of_not_taken hlong (by omega) [] h
  rw [hselected, ok_bind]

/-- **Which packets the hooks leave alone**: those whose addresses and whose ports both differ from
what every filter gives. One of the two is not enough. -/
theorem untouched_iff (pad : Adapter) (nowOut nowIn : UInt64) (st : Statics) (txHdr : TxHeader)
    (ethHdr : EthHeader) (p : UdpIp) :
    ((∃ st', synchOutDataPacket filters pad nowOut kmalloc st (txHdr.bytes ++ p.bytes) =
        .ok (txHdr.bytes ++ p.bytes, st')) ∧
      synchInDataPacket filters pad nowIn kmalloc ethHdr.bytes p.bytes = .ok p.bytes) ↔
    (pad.adhocOn → ∀ f ∈ filters, ¬ f.MatchesAddrs p.bytes ∧ ¬ f.MatchesPorts p.bytes) := by
  by_cases hadhoc : pad.adhocOn
  · have htaken : (∀ f ∈ filters, ¬ f.MatchesAddrs p.bytes ∧ ¬ f.MatchesPorts p.bytes) ↔
        ¬ Taken filters p.bytes := by simp [Taken]
    rw [forall_prop_of_true hadhoc, htaken,
      synchOutDataPacket_unchanged_iff filters nowOut kmalloc hadhoc]
    exact and_iff_left_of_imp (synchInDataPacket_of_not_taken filters nowIn kmalloc hadhoc ethHdr p)
  · exact iff_of_true ⟨⟨st, synchOutDataPacket_of_not_adhoc filters nowOut kmalloc hadhoc st _⟩,
      synchInDataPacket_of_not_adhoc filters nowIn kmalloc hadhoc _ _⟩ fun h => absurd h hadhoc

end Hooks

/-- An adapter in ad-hoc mode that sends at `RATE_1` and has not counted anything. -/
def plainAdapter : Adapter where
  adhocOn := true
  shortPreamble := false
  txRate := ⟨0, Nat.succ_pos 11⟩
  failedCount := 0
  retryCount := 0

/-- A transfer buffer with nothing but the marks of an IP packet. -/
def plainTxHeader : TxHeader where
  bytes := List.replicate 48 0 ++ [0xAA, 0xAA, 3, 0, 0, 0, 0x08, 0x00]
  length_eq := rfl
  dsap := rfl
  ssap := rfl
  pid := rfl

/-- A datagram from 10.0.0.1 to port 5000 of 10.0.0.2, with a zeroed `packet_t` of the driver. -/
def plainUdpIp : UdpIp where
  bytes := [0x45, 0, 0, 63, 0, 0, 0, 0, 64, 17, 0, 0, 10, 0, 0, 1, 10, 0, 0, 2] ++
    [0x30, 0x39, 0x13, 0x88, 0, 43, 0, 0] ++ List.replicate 35 0
  ihl_ge := by decide
  protocol_eq := by decide
  headers := by decide

theorem plainUdpIp_len_le : 4 * ihlOf plainUdpIp.bytes +
    udpLenAt plainUdpIp.bytes (4 * ihlOf plainUdpIp.bytes) ≤ plainUdpIp.bytes.length := by decide

theorem plainUdpIp_room : 4 * ihlOf plainUdpIp.bytes + 30 ≤ plainUdpIp.bytes.length := by decide

/-- A filter that gives nothing takes it. -/
theorem plainUdpIp_taken : Taken [⟨0, 0, 0, 0⟩] plainUdpIp.bytes :=
  ⟨_, List.mem_singleton_self _, .inl ⟨.inl rfl, .inl rfl⟩⟩

/-- The only filter is for port 57843. It is not the port of the datagram, and the datagram is
rewritten all the same. -/
theorem not_untouched :
    (∀ f ∈ [(⟨0, 0, 57843, 0⟩ : Filter)],
      ¬ (f.MatchesAddrs plainUdpIp.bytes ∧ f.MatchesPorts plainUdpIp.bytes)) ∧
    ¬ ∃ st', synchOutDataPacket [⟨0, 0, 57843, 0⟩] plainAdapter 0 true ⟨0, 0⟩
        (plainTxHeader.bytes ++ plainUdpIp.bytes) =
      .ok (plainTxHeader.bytes ++ plainUdpIp.bytes, st') := by
  constructor
  · intro f hf
    rw [List.mem_singleton.mp hf]
    decide
  · rw [synchOutDataPacket_unchanged_iff _ _ _ rfl, not_not]
    exact ⟨_, List.mem_singleton_self _, .inl (by decide)⟩

end MiaVita.Rt2501
