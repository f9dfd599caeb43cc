import MiaVita.FredFramework.InjectionThread
import MiaVita.FredFramework.L3RoundTrip
import MiaVita.Results.EndToEnd

/-!
# Through the aggregation to the results

Between a station and the sink there may be the interceptors of `fred_framework`: the station's
packets leave it in aggregates, the deaggregation module of the sink takes them apart, its injection
thread gives them to a raw socket, and the UDP layer hands what they carry to the receiver. Here the
whole way is put together, from the packets that a station sends to the samples that are read from
the file.

The values arrive, each once and in order. The times do not: `aggregated_samples` says which times
the reader sees instead. Of an aggregate of two packets or more the last two samples have the time
of the last one, and all others the time `0`.
-/

namespace MiaVita.Results

open Bytes Framework

/-! ### A packet that was in an aggregate -/

/-- What the UDP layer hands to the receiver: what follows the headers of a packet. -/
def udpPayload (bs : List UInt8) : List UInt8 := bs.drop (4 * ihlOf bs + sizeofUdphdr)

/-- The outgoing packet carries a `packet_t`. -/
def Carries (o : Outgoing) (p : Packet) : Prop := udpPayload o.packet.bytes = p.toBytes

instance (o : Outgoing) (p : Packet) : Decidable (Carries o p) :=
  inferInstanceAs (Decidable (udpPayload o.packet.bytes = p.toBytes))

/-- The packet with another time, which the sink reads as `t`. -/
def retimed (p : Packet) (t : UInt64) : Packet := { p with timestamp := swap64 t }

/-- A time as the sink gets it in memory. -/
private theorem le_swap64 (t : UInt64) : le 8 (swap64 t).toNat = be 8 t.toNat := by
  have hlt : leVal (be 8 t.toNat) < 256 ^ 8 := by simpa using leVal_lt (be 8 t.toNat)
  have hle := le_leVal (be 8 t.toNat)
  rw [length_be] at hle
  rw [swap64, UInt64.toNat_ofNat', Nat.mod_eq_of_lt (by omega), hle]

private theorem Carries.length {o : Outgoing} {p : Packet} (h : Carries o p) :
    o.packet.bytes.length = 4 * ihlOf o.packet.bytes + 33 := by
  have hlen := congrArg List.length h
  have hstamped := o.packet.stamped
  rw [udpPayload, List.length_drop, p.length_toBytes] at hlen
  simp only [sizeofUdphdr] at hlen hstamped
  omega

/-- **A packet that was in an aggregate** carries what it carried, with the time of the loop. -/
theorem Carries.restored {o : Outgoing} {p : Packet} (h : Carries o p) (t : UInt64) :
    udpPayload (o.packet.restored t).bytes = (retimed p t).toBytes := by
  have hlen := h.length
  have hpdu : o.packet.uncheck.pdu = 4 * ihlOf o.packet.bytes + 8 := by
    rw [UdpPacket.pdu, UdpPacket.ihlOf_uncheck]
  have hunchecked : o.packet.uncheck.bytes.drop (4 * ihlOf o.packet.bytes + 8) = p.toBytes := by
    rw [← h, udpPayload]
    exact drop_patch_of_ge le_rfl (by omega)
  have hihl : ihlOf (o.packet.restored t).bytes = ihlOf o.packet.bytes := by
    rw [UdpPacket.restored, UdpPacket.ihlOf_stamp, UdpPacket.ihlOf_uncheck]
  have hbytes : (o.packet.restored t).bytes =
      patch o.packet.uncheck.bytes (4 * ihlOf o.packet.bytes + 8) (be 8 t.toNat) := by
    rw [← hpdu]
    rfl
  rw [udpPayload, hihl, hbytes]
  change List.drop (4 * ihlOf o.packet.bytes + 8) _ = _
  rw [drop_patch_of_le le_rfl (by rw [UdpPacket.length_uncheck]; omega), hunchecked, Nat.sub_self,
    patch, length_be, Packet.toBytes, Packet.toBytes, retimed, le_swap64, List.append_assoc,
    List.append_assoc, List.append_assoc, List.append_assoc, List.take_zero, List.nil_append,
    List.drop_append_of_le_length (by rw [length_le]), List.drop_of_length_le (by rw [length_le])]
  rfl

/-- The time that the interceptors see is the one that the sink would read. -/
private theorem Carries.timestamp {o : Outgoing} {p : Packet} (h : Carries o p) :
    o.packet.timestamp = (ntohpkt p).timestamp := by
  have hslice : slice o.packet.bytes (4 * ihlOf o.packet.bytes + sizeofUdphdr) 8 =
      le 8 p.timestamp.toNat := by
    have hpayload : o.packet.bytes.drop (4 * ihlOf o.packet.bytes + sizeofUdphdr) = p.toBytes := h
    rw [slice, hpayload, Packet.toBytes, List.append_assoc, List.append_assoc]
    exact List.take_left' (length_le _ _)
  change UInt64.ofNat (beVal (slice o.packet.bytes (4 * ihlOf o.packet.bytes + sizeofUdphdr) 8)) = _
  rw [hslice]
  rfl

/-- What is read of a packet with another time. -/
private theorem expected_retimed (c : Fin 4) (p : Packet) (t : UInt64) :
    expected c (retimed p t) = ((t.toNat : ℤ) / 1000 - 3600000, (expected c p).2) := by
  have hts : (jsonRecord (retimed p t)).ts = t.toNat := by
    change (swap64 (swap64 t)).toNat = _
    rw [swap64_swap64]
  rw [expected, hts, channelOf_jsonRecord, expected, channelOf_jsonRecord]
  rfl

/-! ### The packets of an aggregate -/

section Lists

variable {os : List Outgoing} {ps : List Packet}

private theorem zipWith_udpPayload_restored (h : List.Forall₂ Carries os ps) (ts : List UInt64) :
    (List.zipWith (fun (o : Outgoing) t => (o.packet.restored t).bytes) os ts).map udpPayload =
      (List.zipWith retimed ps ts).map Packet.toBytes := by
  induction h generalizing ts with
  | nil => rfl
  | cons ho _ ih =>
    cases ts with
    | nil => rfl
    | cons t ts =>
      rw [List.zipWith_cons_cons, List.map_cons, ih, ho.restored, List.zipWith_cons_cons,
        List.map_cons]

/-- No packet of a station has more than 93 bytes, so that an aggregate of them is one packet. -/
private theorem sum_lens_le (h : List.Forall₂ Carries os ps) :
    (lens UdpPacket.record os).sum ≤ 93 * os.length := by
  induction h with
  | nil => exact Nat.le_refl 0
  | @cons o p os ps ho _ ih =>
    have hihl : ihlOf o.packet.bytes < 16 := Nat.mod_lt _ (by decide)
    have hlen := ho.length
    have hsum : (lens UdpPacket.record (o :: os)).sum =
        o.packet.bytes.length + (lens UdpPacket.record os).sum := rfl
    rw [hsum, List.length_cons]
    omega

private theorem map_timestamp (h : List.Forall₂ Carries os ps) :
    (os.map fun o => o.packet.timestamp) = ps.map fun p => (ntohpkt p).timestamp := by
  induction h with
  | nil => rfl
  | cons ho _ ih => rw [List.map_cons, List.map_cons, ih, ho.timestamp]

/-- The times of the packets are the given ones. -/
private theorem map_ts_retimed (ps : List Packet) {ts : List UInt64} (h : ts.length = ps.length) :
    (List.zipWith retimed ps ts).map (fun p => (jsonRecord p).ts) = ts.map UInt64.toNat := by
  induction ps generalizing ts with
  | nil =>
    obtain rfl := List.length_eq_zero_iff.mp h
    rfl
  | cons p ps ih =>
    obtain ⟨t, ts, rfl⟩ := List.exists_cons_of_length_eq_add_one h
    rw [List.zipWith_cons_cons, List.map_cons, List.map_cons, ih (Nat.succ.inj h)]
    change (swap64 (swap64 t)).toNat :: _ = _
    rw [swap64_swap64]

/-- **Samples whose times do not decrease** are read as they were received. -/
theorem getAllSamples_retimed (ps : List Packet) (ts : List UInt64) (hlen : ts.length = ps.length)
    (htwo : 2 ≤ ps.length) (hsorted : (ts.map UInt64.toNat).Pairwise (· ≤ ·)) (c : Fin 4) :
    ∃ samples, getAllSamples (fileOf [(List.zipWith retimed ps ts).map Packet.toBytes]) (c + 1) =
        .ok samples ∧
      samples.map Sample.read = List.zipWith
        (fun p (t : UInt64) => ((t.toNat : ℤ) / 1000 - 3600000, (expected c p).2)) ps ts := by
  have hreceived := receivedPackets_map_toBytes (List.zipWith retimed ps ts)
  have hlength : (List.zipWith retimed ps ts).length = ps.length := by
    rw [List.length_zipWith, hlen, Nat.min_self]
  have hpackets : packetsOf [(List.zipWith retimed ps ts).map Packet.toBytes] =
      List.zipWith retimed ps ts := by
    rw [packetsOf, List.flatMap_singleton, hreceived]
  have hne : ∀ received ∈ [(List.zipWith retimed ps ts).map Packet.toBytes],
      receivedPackets received ≠ [] := by
    intro received hmem
    rw [List.mem_singleton.mp hmem, hreceived, ← List.length_pos_iff, hlength]
    omega
  have hinorder : (samplesOf c (List.zipWith retimed ps ts)).Pairwise
      fun s₁ s₂ => decide (s₁.ts ≤ s₂.ts) = true := by
    rw [← map_ts_retimed ps hlen, List.pairwise_map] at hsorted
    rw [samplesOf, List.pairwise_map]
    refine hsorted.imp fun {p q} hle => decide_eq_true (Int64.le_iff_toInt_le.mpr ?_)
    have hp : (sampleOf c (jsonRecord p)).ts.toInt = (jsonRecord p).ts / 1000 - 3600000 :=
      congrArg Prod.fst (read_sampleOf c p)
    have hq : (sampleOf c (jsonRecord q)).ts.toInt = (jsonRecord q).ts / 1000 - 3600000 :=
      congrArg Prod.fst (read_sampleOf c q)
    omega
  have hread : (samplesOf c (List.zipWith retimed ps ts)).map Sample.read = List.zipWith
      (fun p (t : UInt64) => ((t.toNat : ℤ) / 1000 - 3600000, (expected c p).2)) ps ts := by
    rw [samplesOf, List.map_map, List.map_zipWith]
    congr 1
    funext p t
    exact (read_sampleOf c _).trans (expected_retimed c p t)
  refine ⟨samplesOf c (List.zipWith retimed ps ts), (getAllSamples_fileOf hne c).trans ?_, hread⟩
  rw [hpackets, if_neg (by omega), List.mergeSort_of_pairwise hinorder]

end Lists

/-! ### Main result -/

/-- **What is read behind an aggregate.** A station's packets `ps`, two to 27 of them, leave it in
one aggregate and are taken apart at the sink; the injection thread gives them to the raw socket,
and the receiver writes them to a file. The samples that are read from it have the values of `ps`,
each once and in order. The last two have the time of the last one, and all others the time `0`,
which the reader takes for one an hour before the epoch. -/
theorem aggregated_samples (ifaAddress sourceIp ip : UInt32) (path : EmitPath) (size : ℕ)
    (wild : ℕ → Option UInt64) {os : List Outgoing} {ps : List Packet} {last : Packet}
    (hcarries : List.Forall₂ Carries os ps) (htwo : 2 ≤ ps.length) (h27 : ps.length ≤ maxScatters)
    (hlast : ps.getLast? = some last) (hadm : path.Admits size (lens UdpPacket.record os)) :
    ∃ packet received out,
      emit (pushIpPacket ifaAddress .ok) agregatedIpEncapIpProto sourceIp path size ip os =
        .ok [packet] ∧
      ipRcv packet = some received ∧
      l3Deaggregate (.allocOk wild) received = .ok (.stolen, out) ∧
      ∀ (es : List InjectorEvent) (rets : List Bool), es.filterMap InjectorEvent.copy = out →
        Run.AllStepsM Injector.step Injector.Allocates .start es →
        Run.AllStepsM Injector.step Injector.Willing .start
          (es ++ rets.map InjectorEvent.thread) →
        5 * ps.length + 3 ≤ rets.length →
        ∃ s, Run.execM Injector.step .start (es ++ rets.map InjectorEvent.thread) = .ok s ∧
          ∀ c : Fin 4, ∃ samples,
            getAllSamples (fileOf [s.handed.map fun x => udpPayload x.bytes]) (c + 1) =
              .ok samples ∧
            samples.map Sample.read = List.zipWith (fun p t => (t, (expected c p).2)) ps
              (List.replicate (ps.length - 2) (-3600000) ++
                [(expected c last).1, (expected c last).1]) := by
  have hlength := hcarries.length_eq
  have hsum := sum_lens_le hcarries
  simp only [maxScatters] at h27
  have hne : os ≠ [] := List.length_pos_iff.mp (by omega)
  obtain ⟨packet, t, hemit, hrcv, ht, hdeagg⟩ := l3_emitted ifaAddress sourceIp ip wild hne
    (by simp only [maxScatters]; omega) hadm (by simp only [sizeofIphdr]; omega)
  refine ⟨packet, packet, _, hemit, hrcv, hdeagg, fun es rets hcopy hes hwilling hlen => ?_⟩
  have hcount : (es.filterMap InjectorEvent.copy).length = ps.length := by
    rw [hcopy, List.length_zipWith, List.length_reverse, length_restoredTimes, Nat.min_self,
      hlength]
  obtain ⟨s, hs, hhanded⟩ := Injector.drained_run hes hwilling (hcount ▸ hlen)
  refine ⟨s, hs, fun c => ?_⟩
  -- the times of the loop, with the time of the last packet
  obtain ⟨n, hn⟩ := Nat.exists_eq_add_of_le' htwo
  have htimes : (restoredTimes t 0 true os.length).reverse = List.replicate n 0 ++ [t, t] := by
    rw [hlength, hn, restoredTimes_eq]
    simp
  obtain rfl : t = (ntohpkt last).timestamp := by
    rw [map_timestamp hcarries, List.getLast?_map, hlast] at ht
    exact (Option.some.inj ht).symm
  have hsession : (s.handed.map fun x => udpPayload x.bytes) =
      (List.zipWith retimed ps (List.replicate n 0 ++ [(ntohpkt last).timestamp,
        (ntohpkt last).timestamp])).map Packet.toBytes := by
    rw [← zipWith_udpPayload_restored hcarries, ← htimes, ← hcopy, ← hhanded, List.map_map]
    rfl
  obtain ⟨samples, hsamples, hread⟩ := getAllSamples_retimed ps
    (List.replicate n 0 ++ [(ntohpkt last).timestamp, (ntohpkt last).timestamp])
    (by simp [hn]) htwo (by simp [List.pairwise_append, List.pairwise_replicate]) c
  refine ⟨samples, hsession ▸ hsamples, hread.trans ?_⟩
  have hread' : List.replicate (ps.length - 2) (-3600000) ++
      [(expected c last).1, (expected c last).1] =
        (List.replicate n 0 ++ [(ntohpkt last).timestamp, (ntohpkt last).timestamp]).map
          fun t : UInt64 => (t.toNat : ℤ) / 1000 - 3600000 := by
    rw [hn, Nat.add_sub_cancel, List.map_append, List.map_replicate]
    rfl
  rw [hread', List.zipWith_map_right]

/-- The `packet_t` of a packet of the examples. -/
def examplePacket (t : UInt64) : Packet := retimed (Packet.ofBytes []) t

/-- The calls of the hook for an aggregate of three packets. -/
def threeInjections : List InjectorEvent :=
  [.thread true, .inject (nodePacket 0).bytes 0 (some 1) (some 1), .thread true, .thread false,
    .inject (nodePacket 3000000).bytes 0 (some 2) (some 2), .thread false,
    .inject (nodePacket 3000000).bytes 0 (some 3) (some 3)]

/-- Three packets, one second apart. -/
theorem aggregated_samples_three :
    ∃ packet received,
      emit (pushIpPacket 1 .ok) agregatedIpEncapIpProto 2 .flush 120 3
          [⟨nodePacket 1000000, 0, 0⟩, ⟨nodePacket 2000000, 0, 0⟩, ⟨nodePacket 3000000, 0, 0⟩] =
        .ok [packet] ∧
      ipRcv packet = some received ∧
      l3Deaggregate (.allocOk fun _ => none) received =
        .ok (.stolen, threeInjections.filterMap InjectorEvent.copy) ∧
      ∃ s, Run.execM Injector.step .start
          (threeInjections ++ (List.replicate 18 false).map InjectorEvent.thread) = .ok s ∧
        ∃ samples,
          getAllSamples (fileOf [s.handed.map fun x => udpPayload x.bytes]) 1 = .ok samples ∧
          samples.map Sample.read = [(-3600000, .finite 0), (-3597000, .finite 0),
            (-3597000, .finite 0)] := by
  have hcarries : List.Forall₂ Carries
      [⟨nodePacket 1000000, 0, 0⟩, ⟨nodePacket 2000000, 0, 0⟩, ⟨nodePacket 3000000, 0, 0⟩]
      ([1000000, 2000000, 3000000].map examplePacket) :=
    .cons (by decide +kernel) (.cons (by decide +kernel) (.cons (by decide +kernel) .nil))
  obtain ⟨packet, received, out, hemit, hrcv, hdeagg, hall⟩ :=
    aggregated_samples 1 2 3 .flush 120 (fun _ => none) hcarries (by decide) (by decide) rfl
      ⟨by decide, by decide⟩
  have hout : ((emit (pushIpPacket 1 .ok) agregatedIpEncapIpProto 2 .flush 120 3
      [⟨nodePacket 1000000, 0, 0⟩, ⟨nodePacket 2000000, 0, 0⟩,
        ⟨nodePacket 3000000, 0, 0⟩]).toOption.bind List.head?).bind
          (fun packet => (ipRcv packet).bind fun received =>
            (l3Deaggregate (.allocOk fun _ => none) received).toOption.map Prod.snd) =
      some (threeInjections.filterMap InjectorEvent.copy) := by decide +kernel
  rw [hemit] at hout
  simp only [Except.toOption, List.head?_cons, Option.bind_some, hrcv, hdeagg, Option.map_some,
    Option.some.injEq] at hout
  obtain ⟨s, hs, hsamples⟩ := hall threeInjections (List.replicate 18 false) hout.symm
    (by decide +kernel) (by decide +kernel) (by decide)
  exact ⟨packet, received, hemit, hrcv, hout ▸ hdeagg, s, hs, hsamples 0⟩

end MiaVita.Results
