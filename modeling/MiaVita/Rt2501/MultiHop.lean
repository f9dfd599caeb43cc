import MiaVita.KernelSender.Packet
import MiaVita.Lib.Run
import MiaVita.Rt2501.SyncProto

/-!
# A packet on its way through the network

At each hop a datagram passes `synch_out_data_packet` of the sender and `synch_in_data_packet` of
the receiver. Between two hops the node in the middle forwards it: the IP header may change, the
datagram does not.

* `multiHop_timestamp`: what the timestamp is at the end of a path on which every driver takes the
  packet. The clocks of the nodes in between cancel out.
* `senderPacket_preserved_iff`: the `packet_t` of `kernel_sender` has its sequence number and its
  samples where that of the driver has the time on the air, so that they survive only if the driver
  of the sender does not take the packet.
-/

namespace MiaVita.Rt2501

open Bytes Memory StampChain Fallible

/-! ### Hops -/

/-- The IP header of a UDP packet. -/
structure UdpIpHeader where
  bytes : List UInt8
  length_eq : bytes.length = 4 * ihlOf bytes
  ihl_ge : 5 ≤ ihlOf bytes
  protocol_eq : protocolOf bytes = ipprotoUdp

/-- A hop: the two drivers, with the readings of their clocks, and the headers of the packet. -/
structure Hop where
  sender : Adapter
  senderFilters : List Filter
  statics : Statics
  outClock : UInt64
  outKmalloc : Bool
  txHeader : TxHeader
  ipHeader : UdpIpHeader
  ethHeader : EthHeader
  receiver : Adapter
  receiverFilters : List Filter
  inClock : UInt64
  inKmalloc : Bool

namespace Hop

variable (h : Hop)

/-- The datagram passes the hook of the sender and that of the receiver. -/
def pass (udp : List UInt8) : Except Fault (List UInt8) := do
  let (buffer, _) ← synchOutDataPacket h.senderFilters h.sender h.outClock h.outKmalloc h.statics
    (h.txHeader.bytes ++ (h.ipHeader.bytes ++ udp))
  let data ← synchInDataPacket h.receiverFilters h.receiver h.inClock h.inKmalloc h.ethHeader.bytes
    (buffer.drop h.txHeader.bytes.length)
  return data.drop h.ipHeader.bytes.length

/-- Both drivers are in ad-hoc mode and have a filter that takes the packet. -/
structure Serves (udp : List UInt8) : Prop where
  sender_adhoc : h.sender.adhocOn
  sender_taken : Taken h.senderFilters (h.ipHeader.bytes ++ udp)
  receiver_adhoc : h.receiver.adhocOn
  receiver_taken : Taken h.receiverFilters (h.ipHeader.bytes ++ udp)

/-- The readings of the two clocks. -/
def clocks : UInt64 × UInt64 := (h.outClock, h.inClock)

end Hop

/-- A datagram that the driver can work on: what it writes to is there, and so is what the length
field announces. -/
structure HasPdu (udp : List UInt8) : Prop where
  room : 30 ≤ udp.length
  len_le : udpLenAt udp 0 ≤ udp.length

/-! ### The packet at one end of a hop -/

section Ends

variable (ip : UdpIpHeader) (udp : List UInt8)

private theorem UdpIpHeader.fields_append :
    ihlOf (ip.bytes ++ udp) = ihlOf ip.bytes ∧ protocolOf (ip.bytes ++ udp) = ipprotoUdp := by
  have hlen := ip.length_eq
  have hihl := ip.ihl_ge
  obtain ⟨h₁, -, h₂, -⟩ := MiaVita.fields_append ip.bytes (by omega) udp
  exact ⟨h₁, h₂.trans ip.protocol_eq⟩

/-- A header and a datagram make a packet. -/
def UdpIpHeader.packet (hudp : 8 ≤ udp.length) : UdpIp where
  bytes := ip.bytes ++ udp
  ihl_ge := by
    rw [(ip.fields_append udp).1]
    exact ip.ihl_ge
  protocol_eq := (ip.fields_append udp).2
  headers := by
    rw [(ip.fields_append udp).1, List.length_append, ip.length_eq]
    simp only [sizeofUdphdr]
    omega

@[simp] theorem UdpIpHeader.bytes_packet (hudp : 8 ≤ udp.length) :
    (ip.packet udp hudp).bytes = ip.bytes ++ udp := rfl

/-- The filters look at the headers and at the ports only. -/
private theorem taken_congr {filters : List Filter} {udp udp' : List UInt8}
    (hframe : Frame (fun k => 6 ≤ k) udp udp') :
    Taken filters (ip.bytes ++ udp') ↔ Taken filters (ip.bytes ++ udp) := by
  have hlen := ip.length_eq
  have hihl := ip.ihl_ge
  have hp := hframe.prepend ip.bytes
  have hihl' : ihlOf (ip.bytes ++ udp') = ihlOf (ip.bytes ++ udp) := by
    rw [(ip.fields_append udp').1, (ip.fields_append udp).1]
  have hsaddr : saddrOf (ip.bytes ++ udp') = saddrOf (ip.bytes ++ udp) := by
    rw [saddrOf, hp.slice_eq fun k h₁ h₂ => by omega, saddrOf]
  have hdaddr : daddrOf (ip.bytes ++ udp') = daddrOf (ip.bytes ++ udp) := by
    rw [daddrOf, hp.slice_eq fun k h₁ h₂ => by omega, daddrOf]
  have hsport : sportOf (ip.bytes ++ udp') (4 * ihlOf ip.bytes) =
      sportOf (ip.bytes ++ udp) (4 * ihlOf ip.bytes) := by
    rw [sportOf, hp.slice_eq fun k h₁ h₂ => by omega, sportOf]
  have hdport : dportOf (ip.bytes ++ udp') (4 * ihlOf ip.bytes) =
      dportOf (ip.bytes ++ udp) (4 * ihlOf ip.bytes) := by
    rw [dportOf, hp.slice_eq fun k h₁ h₂ => by omega, dportOf]
  simp only [Taken, Filter.MatchesAddrs, Filter.MatchesPorts, hihl', hsaddr, hdaddr,
    (ip.fields_append udp).1, hsport, hdport]

private theorem HasPdu.congr {udp udp' : List UInt8} (h : HasPdu udp)
    (hframe : Frame (fun k => 6 ≤ k) udp udp') : HasPdu udp' := by
  have hlen := hframe.length_eq
  have hroom := h.room
  refine ⟨by omega, ?_⟩
  rw [udpLenAt, hframe.slice_eq fun k h₁ h₂ => by omega, hlen]
  exact h.len_le

private theorem timestampAt_append (a b : List UInt8) (i : ℕ) :
    timestampAt (a ++ b) (a.length + i) = timestampAt b i := by
  rw [timestampAt, slice_append_right, timestampAt]

private theorem udpLenAt_append (a b : List UInt8) : udpLenAt (a ++ b) a.length = udpLenAt b 0 := by
  rw [udpLenAt, slice_append_right, udpLenAt, Nat.zero_add]

end Ends

/-! ### One hop -/

namespace Hop

variable {h : Hop} {udp : List UInt8}

/-- **The sender's half of a hop.** -/
theorem synchOut_spec (hadhoc : h.sender.adhocOn)
    (htaken : Taken h.senderFilters (h.ipHeader.bytes ++ udp)) (hpdu : HasPdu udp) :
    ∃ udp' st', synchOutDataPacket h.senderFilters h.sender h.outClock h.outKmalloc h.statics
        (h.txHeader.bytes ++ (h.ipHeader.bytes ++ udp)) =
          .ok (h.txHeader.bytes ++ (h.ipHeader.bytes ++ udp'), st') ∧
      Frame (fun k => 6 ≤ k ∧ k < 30) udp udp' ∧
      timestampAt udp' 8 = h.outClock - timestampAt udp 8 ∧ airAt udp' 8 ≠ airAt udp 8 := by
  have hroom := hpdu.room
  have hlen := hpdu.len_le
  have htx := h.txHeader.length_eq
  have hihl := h.ipHeader.ihl_ge
  have hip := h.ipHeader.length_eq
  have hstamp : synchOutDataPacket h.senderFilters h.sender h.outClock h.outKmalloc h.statics
      (h.txHeader.bytes ++ (h.ipHeader.bytes ++ udp)) = _ :=
    synchOutDataPacket_of_taken h.senderFilters h.outClock h.outKmalloc hadhoc h.statics h.txHeader
      (p := h.ipHeader.packet udp (by omega)) htaken
  rw [UdpIpHeader.bytes_packet, (h.ipHeader.fields_append udp).1, ← hip] at hstamp
  rw [hstamp]
  -- the two headers make one piece in front of the datagram
  obtain ⟨a, ha⟩ : ∃ a, a = h.txHeader.bytes ++ h.ipHeader.bytes := ⟨_, rfl⟩
  have halen : a.length = 56 + h.ipHeader.bytes.length := by rw [ha, List.length_append, htx]
  rw [← List.append_assoc, ← ha, ← halen]
  have hsafe : Safe (stampOut h.sender h.outClock h.outKmalloc h.statics (a ++ udp) 56 a.length) :=
    safe_stampOut (by omega) (by rw [List.length_append]; omega)
      (by rw [udpLenAt_append, List.length_append]; omega) _ _ _ _
  obtain ⟨⟨m', st'⟩, hm'⟩ := hsafe
  have hspec := stampOut_spec (by omega) hm'
  obtain ⟨udp', rfl, hframe⟩ := hspec.frame.append_left fun k hk => by omega
  refine ⟨udp', st', ?_, hframe.mono fun k hk => by omega, ?_, ?_⟩
  · rw [← List.append_assoc, ← ha]
    exact hm'
  · have hts := hspec.timestamp
    rwa [timestampAt_append, timestampAt_append] at hts
  · have hair := airAt_ne h.outClock hspec
    rw [airAt, airAt, Nat.add_assoc, slice_append_right, slice_append_right] at hair
    exact hair

/-- **The receiver's half of a hop.** -/
theorem synchIn_spec (hadhoc : h.receiver.adhocOn)
    (htaken : Taken h.receiverFilters (h.ipHeader.bytes ++ udp)) (hpdu : HasPdu udp) :
    ∃ udp', synchInDataPacket h.receiverFilters h.receiver h.inClock h.inKmalloc h.ethHeader.bytes
        (h.ipHeader.bytes ++ udp) = .ok (h.ipHeader.bytes ++ udp') ∧
      Frame (fun k => 6 ≤ k ∧ k < 16) udp udp' ∧
      timestampAt udp' 8 = h.inClock - timestampAt udp 8 := by
  have hroom := hpdu.room
  have hlen := hpdu.len_le
  have hihl := h.ipHeader.ihl_ge
  have hip := h.ipHeader.length_eq
  have hstamp : synchInDataPacket h.receiverFilters h.receiver h.inClock h.inKmalloc
      h.ethHeader.bytes (h.ipHeader.bytes ++ udp) = _ :=
    synchInDataPacket_of_taken h.receiverFilters h.inClock h.inKmalloc hadhoc h.ethHeader
      (p := h.ipHeader.packet udp (by omega)) htaken
  rw [UdpIpHeader.bytes_packet, (h.ipHeader.fields_append udp).1, ← hip] at hstamp
  rw [hstamp]
  have hsafe : Safe (stampIn h.inClock h.inKmalloc (h.ipHeader.bytes ++ udp) 0
      h.ipHeader.bytes.length) :=
    safe_stampIn (by omega) (by rw [List.length_append]; omega)
      (by rw [udpLenAt_append, List.length_append]; omega) _ _
  obtain ⟨m', hm'⟩ := hsafe
  have hspec := stampIn_spec hm'
  obtain ⟨udp', rfl, hframe⟩ := hspec.frame.append_left fun k hk => by omega
  refine ⟨udp', hm', hframe.mono fun k hk => by omega, ?_⟩
  have hts := hspec.timestamp
  rwa [timestampAt_append, timestampAt_append] at hts

private theorem pass_eq {udp₁ udp₂ : List UInt8} {st' : Statics}
    (hout : synchOutDataPacket h.senderFilters h.sender h.outClock h.outKmalloc h.statics
      (h.txHeader.bytes ++ (h.ipHeader.bytes ++ udp)) =
        .ok (h.txHeader.bytes ++ (h.ipHeader.bytes ++ udp₁), st'))
    (hin : synchInDataPacket h.receiverFilters h.receiver h.inClock h.inKmalloc h.ethHeader.bytes
      (h.ipHeader.bytes ++ udp₁) = .ok (h.ipHeader.bytes ++ udp₂)) : h.pass udp = .ok udp₂ := by
  rw [pass, hout, ok_bind]
  dsimp only
  rw [List.drop_left, hin, ok_bind, List.drop_left]
  rfl

/-- **One hop**: the creation time is passed on, and nothing changes but the timestamp, the checksum
and what the driver takes for its own fields. -/
theorem pass_spec (hserves : h.Serves udp) (hpdu : HasPdu udp) :
    ∃ udp', h.pass udp = .ok udp' ∧ Frame (fun k => 6 ≤ k ∧ k < 30) udp udp' ∧
      timestampAt udp' 8 = passOn (timestampAt udp 8) h.clocks := by
  obtain ⟨udp₁, st', hout, hframe₁, hts₁, -⟩ :=
    synchOut_spec hserves.sender_adhoc hserves.sender_taken hpdu
  have hports : Frame (fun k => 6 ≤ k) udp udp₁ := hframe₁.mono fun k hk => hk.1
  obtain ⟨udp₂, hin, hframe₂, hts₂⟩ := synchIn_spec hserves.receiver_adhoc
    ((taken_congr h.ipHeader hports).mpr hserves.receiver_taken) (hpdu.congr hports)
  refine ⟨udp₂, pass_eq hout hin, hframe₁.trans (hframe₂.mono fun k hk => by omega), ?_⟩
  rw [hts₂, hts₁]
  rfl

end Hop

/-! ### A path -/

/-- **A path**: the timestamp that arrives is what the clock readings along the path make of the
first one. -/
theorem pass_path {udp : List UInt8} (hpdu : HasPdu udp) {hops : List Hop}
    (hserves : ∀ h ∈ hops, h.Serves udp) :
    ∃ udp', Run.execM (fun udp (h : Hop) => h.pass udp) udp hops = .ok udp' ∧
      timestampAt udp' 8 = (hops.map Hop.clocks).foldl passOn (timestampAt udp 8) := by
  -- along the path the ports and the length field stay as they are
  let Carries (udp' : List UInt8) (t : UInt64) : Prop :=
    Frame (fun k => 6 ≤ k) udp udp' ∧ timestampAt udp' 8 = t
  have hstep : ∀ udp' t (h : Hop), Carries udp' t → h.Serves udp →
      ∃ udp'', h.pass udp' = .ok udp'' ∧ Carries udp'' (passOn t h.clocks) := by
    rintro udp' t h ⟨hframe, rfl⟩ hserves
    have hserves' : h.Serves udp' :=
      { hserves with
        sender_taken := (taken_congr h.ipHeader hframe).mpr hserves.sender_taken
        receiver_taken := (taken_congr h.ipHeader hframe).mpr hserves.receiver_taken }
    obtain ⟨udp'', hpass, hframe', hts⟩ := Hop.pass_spec hserves' (hpdu.congr hframe)
    exact ⟨udp'', hpass, hframe.trans (hframe'.mono fun k hk => hk.1), hts⟩
  obtain ⟨udp', hrun, -, hts⟩ :=
    Run.simulation hstep (s := udp) (a := timestampAt udp 8) ⟨.refl _ udp, rfl⟩ hserves
  refine ⟨udp', hrun, ?_⟩
  rw [hts, List.foldl_map]
  rfl

/-- **The synchronisation telescopes**: on a path on which every driver takes the packet, the
timestamp at the end is the last reading of a clock, less the time from the creation to the first
transmission and less the time from each reception to the next transmission. Adding a constant to
both readings of a node in between changes nothing. -/
theorem multiHop_timestamp {udp : List UInt8} (hpdu : HasPdu udp) {hops : List Hop}
    (hne : hops ≠ []) (hserves : ∀ h ∈ hops, h.Serves udp) :
    ∃ udp', Run.execM (fun udp (h : Hop) => h.pass udp) udp hops = .ok udp' ∧
      timestampAt udp' 8 =
        (hops.getLast hne).inClock - residence (timestampAt udp 8) (hops.map Hop.clocks) ∧
      ∀ before a b after (k : UInt64), hops = before ++ a :: b :: after →
        ∃ udp'', Run.execM (fun udp (h : Hop) => h.pass udp) udp
            (before ++ { a with inClock := a.inClock + k } ::
              { b with outClock := b.outClock + k } :: after) = .ok udp'' ∧
          timestampAt udp'' 8 = timestampAt udp' 8 := by
  obtain ⟨udp', hrun, hts⟩ := pass_path hpdu hserves
  refine ⟨udp', hrun, ?_, ?_⟩
  · rw [hts, foldl_passOn, lastReception_eq _ (List.map_eq_nil_iff.not.mpr hne), List.getLast_map]
    rfl
  · rintro before a b after k rfl
    have hserves' : ∀ h ∈ before ++ { a with inClock := a.inClock + k } ::
        { b with outClock := b.outClock + k } :: after, h.Serves udp := by
      intro h hh
      simp only [List.mem_append, List.mem_cons] at hh hserves
      rcases hh with hh | rfl | rfl | hh
      · exact hserves h (.inl hh)
      · exact { hserves a (.inr (.inl rfl)) with }
      · exact { hserves b (.inr (.inr (.inl rfl))) with }
      · exact hserves h (.inr (.inr (.inr hh)))
    obtain ⟨udp'', hrun', hts'⟩ := pass_path hpdu hserves'
    refine ⟨udp'', hrun', ?_⟩
    rw [hts', hts]
    simp only [List.map_append, List.map_cons]
    exact foldl_passOn_shift _ k _ _ a.clocks b.clocks

/-- A header without options, from 10.0.0.1 to 10.0.0.2. -/
def plainUdpIpHeader : UdpIpHeader where
  bytes := [0x45, 0, 0, 63, 0, 0, 0, 0, 64, 17, 0, 0, 10, 0, 0, 1, 10, 0, 0, 2]
  length_eq := by decide
  ihl_ge := by decide
  protocol_eq := by decide

/-- An Ethernet header without addresses. -/
def plainEthHeader : EthHeader where
  bytes := List.replicate 12 0 ++ [0x08, 0x00]
  pid := rfl

/-- A hop between two drivers that take every packet. -/
def plainHop (sent received : UInt64) : Hop where
  sender := plainAdapter
  senderFilters := [⟨0, 0, 0, 0⟩]
  statics := ⟨0, 0⟩
  outClock := sent
  outKmalloc := true
  txHeader := plainTxHeader
  ipHeader := plainUdpIpHeader
  ethHeader := plainEthHeader
  receiver := plainAdapter
  receiverFilters := [⟨0, 0, 0, 0⟩]
  inClock := received
  inKmalloc := true

private theorem plainHop_serves (sent received : UInt64) (udp : List UInt8) :
    (plainHop sent received).Serves udp := by
  have htaken : Taken [⟨0, 0, 0, 0⟩] (plainUdpIpHeader.bytes ++ udp) :=
    ⟨_, List.mem_singleton_self _, .inl ⟨.inl rfl, .inl rfl⟩⟩
  exact ⟨rfl, htaken, rfl, htaken⟩

/-- Created at 0, sent at 100; received at 5000 and sent at 5030 on another clock; received at 900
on a third one. -/
theorem multiHop_timestamp_two :
    ∃ udp', Run.execM (fun udp (h : Hop) => h.pass udp)
        ([0x30, 0x39, 0x13, 0x88, 0, 43, 0, 0] ++ List.replicate 35 0)
        [plainHop 100 5000, plainHop 5030 900] = .ok udp' ∧ timestampAt udp' 8 = 770 := by
  have hpdu : HasPdu ([0x30, 0x39, 0x13, 0x88, 0, 43, 0, 0] ++ List.replicate 35 0) :=
    ⟨by decide, by decide⟩
  have hserves : ∀ h ∈ [plainHop 100 5000, plainHop 5030 900],
      h.Serves ([0x30, 0x39, 0x13, 0x88, 0, 43, 0, 0] ++ List.replicate 35 0) := by
    intro h hh
    simp only [List.mem_cons, List.not_mem_nil, or_false] at hh
    rcases hh with rfl | rfl <;> exact plainHop_serves _ _ _
  obtain ⟨udp', hrun, hts, -⟩ := multiHop_timestamp hpdu (List.cons_ne_nil _ _) hserves
  exact ⟨udp', hrun, hts.trans (by decide)⟩

/-! ### The packet of the sender -/

/-- The datagram in which `kernel_sender` sends a packet. -/
def senderDatagram (sport dport check : UInt16) (p : Packet) : List UInt8 :=
  be 2 sport.toNat ++ be 2 dport.toNat ++ be 2 33 ++ be 2 check.toNat ++ p.toBytes

/-- The receiver decodes the same sequence number, samples and node. -/
def ReadAs (p : Packet) (udp : List UInt8) : Prop :=
  (ntohpkt (Packet.ofBytes (udp.drop 8))).seq = (ntohpkt p).seq ∧
    (ntohpkt (Packet.ofBytes (udp.drop 8))).samples = (ntohpkt p).samples ∧
    (ntohpkt (Packet.ofBytes (udp.drop 8))).id = (ntohpkt p).id

/-- The byte order does not matter for that. -/
private theorem ntohpkt_fields_iff (p q : Packet) :
    ((ntohpkt q).seq = (ntohpkt p).seq ∧ (ntohpkt q).samples = (ntohpkt p).samples ∧
      (ntohpkt q).id = (ntohpkt p).id) ↔ q.seq = p.seq ∧ q.samples = p.samples ∧ q.id = p.id := by
  have hseq : swap32 q.seq = swap32 p.seq ↔ q.seq = p.seq := by
    constructor
    · intro h
      rw [← swap32_swap32 q.seq, h, swap32_swap32]
    · intro h
      rw [h]
  simp only [ntohpkt, hseq]

private theorem drop_senderDatagram (sport dport check : UInt16) (p : Packet) :
    (senderDatagram sport dport check p).drop 8 = p.toBytes := by
  rw [senderDatagram, List.drop_append_of_le_length (by simp), List.drop_of_length_le (by simp)]
  rfl

private theorem hasPdu_senderDatagram (sport dport check : UInt16) (p : Packet) :
    HasPdu (senderDatagram sport dport check p) := by
  have hlen : (senderDatagram sport dport check p).length = 33 := by
    simp [senderDatagram, Packet.length_toBytes]
  refine ⟨by omega, ?_⟩
  have hslice : slice (senderDatagram sport dport check p) 4 2 = be 2 33 := by
    have h := slice_append_mid (be 2 sport.toNat ++ be 2 dport.toNat) (be 2 33)
      (be 2 check.toNat ++ p.toBytes)
    simpa [senderDatagram, List.append_assoc] using h
  rw [udpLenAt, Nat.zero_add, hslice, beVal_be_of_lt (by decide), hlen]

/-- A sequence number and samples that are read as they were sent stand in the bytes that the driver
takes for the time on the air. -/
private theorem slice_eq_of_fields {bs bs' : List UInt8} (h : bs.length = 25) (h' : bs'.length = 25)
    (hseq : (Packet.ofBytes bs).seq = (Packet.ofBytes bs').seq)
    (hsamples : (Packet.ofBytes bs).samples = (Packet.ofBytes bs').samples) :
    slice bs 8 8 = slice bs' 8 8 := by
  rw [(Packet.ofBytes_fields h).1, (Packet.ofBytes_fields h').1] at hseq
  rw [(Packet.ofBytes_fields h).2.1, (Packet.ofBytes_fields h').2.1] at hsamples
  have hlen : (slice bs 8 4).length = 4 := length_slice (by omega)
  have hlen' : (slice bs' 8 4).length = 4 := length_slice (by omega)
  have hlt := leVal_lt (slice bs 8 4)
  have hlt' := leVal_lt (slice bs' 8 4)
  rw [hlen] at hlt
  rw [hlen'] at hlt'
  have hval : leVal (slice bs 8 4) = leVal (slice bs' 8 4) := by
    have hnat := congrArg UInt32.toNat hseq
    rwa [UInt32.toNat_ofNat', UInt32.toNat_ofNat', Nat.mod_eq_of_lt (by omega),
      Nat.mod_eq_of_lt (by omega)] at hnat
  have hfour : slice bs 8 4 = slice bs' 8 4 := by
    rw [← le_leVal (slice bs 8 4), ← le_leVal (slice bs' 8 4), hlen, hlen', hval]
  have htake : ∀ xs : List UInt8, slice xs 12 4 = (slice xs 12 12).take 4 := by
    intro xs
    rw [slice, slice, List.take_take]
    rfl
  rw [slice_add bs 8 4 4, slice_add bs' 8 4 4, hfour, htake, htake, hsamples]

/-- A packet of which only the timestamp has changed is read as it was sent. -/
private theorem readAs_of_frame {udp udp' : List UInt8} {p : Packet} (hudp : udp.drop 8 = p.toBytes)
    (hframe : Frame (fun k => 6 ≤ k ∧ k < 16) udp udp') : ReadAs p udp' := by
  have hpayload := hframe.drop 8
  rw [hudp] at hpayload
  have hlen := hpayload.length_eq
  rw [p.length_toBytes] at hlen
  obtain ⟨hseq, hsamples, hid⟩ := Packet.ofBytes_fields hlen
  obtain ⟨hseq', hsamples', hid'⟩ := Packet.ofBytes_fields p.length_toBytes
  rw [hpayload.slice_eq fun k h₁ h₂ => by omega, ← hseq', p.ofBytes_toBytes] at hseq
  rw [hpayload.slice_eq fun k h₁ h₂ => by omega, ← hsamples', p.ofBytes_toBytes] at hsamples
  rw [hpayload.slice_eq fun k h₁ h₂ => by omega, ← hid', p.ofBytes_toBytes] at hid
  exact (ntohpkt_fields_iff p _).mpr ⟨hseq, hsamples, hid⟩

/-- A packet that is read as it was sent has the same bytes where the driver has the time on the
air. -/
private theorem airAt_of_readAs {udp udp' : List UInt8} {p : Packet} (hudp : udp.drop 8 = p.toBytes)
    (hlen : udp'.length = udp.length) (h : ReadAs p udp') : airAt udp' 8 = airAt udp 8 := by
  obtain ⟨hseq, hsamples, -⟩ := (ntohpkt_fields_iff p _).mp h
  have hlenDrop : (udp.drop 8).length = 25 := by rw [hudp, p.length_toBytes]
  have hlenDrop' : (udp'.drop 8).length = 25 := by
    rw [List.length_drop, hlen, ← List.length_drop, hlenDrop]
  have hp : Packet.ofBytes (udp.drop 8) = p := by rw [hudp, p.ofBytes_toBytes]
  rw [← hp] at hseq hsamples
  have hslice := slice_eq_of_fields hlenDrop' hlenDrop hseq hsamples
  rw [slice_drop, slice_drop] at hslice
  rw [airAt, airAt, hslice]

/-- The receiver's driver, whatever its filters, changes the timestamp and the checksum only. -/
private theorem Hop.synchIn_frame (h : Hop) {udp : List UInt8} (hpdu : HasPdu udp) :
    ∃ udp', synchInDataPacket h.receiverFilters h.receiver h.inClock h.inKmalloc h.ethHeader.bytes
        (h.ipHeader.bytes ++ udp) = .ok (h.ipHeader.bytes ++ udp') ∧
      Frame (fun k => 6 ≤ k ∧ k < 16) udp udp' := by
  by_cases hadhoc : h.receiver.adhocOn
  · by_cases htaken : Taken h.receiverFilters (h.ipHeader.bytes ++ udp)
    · obtain ⟨udp', hin, hframe, -⟩ := synchIn_spec hadhoc htaken hpdu
      exact ⟨udp', hin, hframe⟩
    · have hroom := hpdu.room
      have hin := synchInDataPacket_of_not_taken h.receiverFilters h.inClock h.inKmalloc hadhoc
        h.ethHeader (h.ipHeader.packet udp (by omega)) htaken
      rw [UdpIpHeader.bytes_packet] at hin
      exact ⟨udp, hin, .refl _ udp⟩
  · exact ⟨udp, synchInDataPacket_of_not_adhoc _ _ _ hadhoc _ _, .refl _ udp⟩

/-- What the receiver reads is not what was sent if the driver of the sender takes the packet. -/
private theorem Hop.not_readAs {h : Hop} {udp udp' : List UInt8} {p : Packet}
    (hdrop : udp.drop 8 = p.toBytes) (hpdu : HasPdu udp) (hadhoc : h.sender.adhocOn)
    (htaken : Taken h.senderFilters (h.ipHeader.bytes ++ udp)) (hpass : h.pass udp = .ok udp') :
    ¬ ReadAs p udp' := by
  intro hread
  obtain ⟨udp₁, st', hout, hframe₁, -, hair⟩ := synchOut_spec hadhoc htaken hpdu
  obtain ⟨udp₂, hin, hframe₂⟩ := h.synchIn_frame (hpdu.congr (hframe₁.mono fun k hk => hk.1))
  rw [pass_eq hout hin] at hpass
  cases hpass
  have hlen := hframe₂.length_eq.trans hframe₁.length_eq
  have hair₂ : airAt udp' 8 = airAt udp₁ 8 := by
    rw [airAt, hframe₂.slice_eq fun k h₁ h₂ => by omega, airAt]
  exact hair (hair₂.symm.trans (airAt_of_readAs hdrop hlen hread))

/-- **The packet of the sender survives a hop** if and only if the driver that sends it does not
take it: with a filter that takes it, its sequence number and samples are overwritten. -/
theorem senderPacket_preserved_iff (h : Hop) (sport dport check : UInt16) (p : Packet) :
    (∃ udp', h.pass (senderDatagram sport dport check p) = .ok udp' ∧ ReadAs p udp' ∧
        Frame (fun k => 6 ≤ k ∧ k < 16) (senderDatagram sport dport check p) udp') ↔
      (h.sender.adhocOn →
        ¬ Taken h.senderFilters (h.ipHeader.bytes ++ senderDatagram sport dport check p)) := by
  have hpdu := hasPdu_senderDatagram sport dport check p
  have hdrop := drop_senderDatagram sport dport check p
  generalize senderDatagram sport dport check p = udp at *
  constructor
  · rintro ⟨udp', hpass, hread, -⟩ hadhoc htaken
    exact Hop.not_readAs hdrop hpdu hadhoc htaken hpass hread
  · intro hnot
    have hroom := hpdu.room
    have hout : ∃ st', synchOutDataPacket h.senderFilters h.sender h.outClock h.outKmalloc h.statics
        (h.txHeader.bytes ++ (h.ipHeader.bytes ++ udp)) =
          .ok (h.txHeader.bytes ++ (h.ipHeader.bytes ++ udp), st') := by
      by_cases hadhoc : h.sender.adhocOn
      · have hiff := synchOutDataPacket_unchanged_iff h.senderFilters h.outClock h.outKmalloc hadhoc
          h.statics h.txHeader (h.ipHeader.packet udp (by omega))
        rw [UdpIpHeader.bytes_packet] at hiff
        exact hiff.mpr (hnot hadhoc)
      · exact ⟨h.statics, synchOutDataPacket_of_not_adhoc _ _ _ hadhoc _ _⟩
    obtain ⟨st', hout⟩ := hout
    obtain ⟨udp₂, hin, hframe⟩ := h.synchIn_frame hpdu
    exact ⟨udp₂, Hop.pass_eq hout hin, readAs_of_frame hdrop hframe, hframe⟩

/-- A sample of zeros, sent through a driver with a filter that takes every packet. -/
theorem senderPacket_overwritten :
    ∃ p, preparePacket true ⟨0, 0, #v[0, 0, 0]⟩ 0 1 = some p ∧
      ∃ udp', (plainHop 100 5000).pass (senderDatagram 12345 5000 0 p) = .ok udp' ∧
        ¬ ReadAs p udp' := by
  have hany : ∀ p, ∃ udp', (plainHop 100 5000).pass (senderDatagram 12345 5000 0 p) = .ok udp' ∧
      ¬ ReadAs p udp' := by
    intro p
    have hserves := plainHop_serves 100 5000 (senderDatagram 12345 5000 0 p)
    have hpdu := hasPdu_senderDatagram 12345 5000 0 p
    obtain ⟨udp', hpass, -⟩ := Hop.pass_spec hserves hpdu
    exact ⟨udp', hpass, Hop.not_readAs (drop_senderDatagram 12345 5000 0 p) hpdu
      hserves.sender_adhoc hserves.sender_taken hpass⟩
  exact ⟨_, rfl, hany _⟩

end MiaVita.Rt2501
