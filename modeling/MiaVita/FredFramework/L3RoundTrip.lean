import MiaVita.FredFramework.Emission
import MiaVita.FredFramework.Tiling

/-!
# IP aggregation and back

`l3Deaggregate` undoes `pushIpPacket` up to the timestamps: the packets of an aggregate are
injected one for one, oldest first, with the UDP checksum cleared. What it writes into the
timestamp fields does not depend on what is stored there: the code overwrites a field before it
reads the difference from it, so the newest packet keeps its timestamp `t`, the one before it gets
`t` as well and all older ones `0` (`restoredTimes_eq`). The aggregation of a sequence of
timestamps is undone exactly when they are of that form.
-/

namespace MiaVita

open Bytes Memory StampChain Fallible

/-- An inner packet after its round of the loop. -/
def UdpPacket.restored (q : UdpPacket) (t : UInt64) : UdpPacket := q.uncheck.stamp t

@[simp] theorem UdpPacket.length_restored (q : UdpPacket) (t : UInt64) :
    (q.restored t).bytes.length = q.bytes.length := by
  rw [UdpPacket.restored, UdpPacket.length_stamp, UdpPacket.length_uncheck]

/-- The timestamps the loop writes into `n` packets. -/
def restoredTimes (ts : UInt64) : UInt64 → Bool → ℕ → List UInt64
  | _, _, 0 => []
  | tsAcc, firstTime, n + 1 =>
    (ts - tsAcc) ::
      restoredTimes ts (if firstTime then tsAcc else tsAcc + (ts - tsAcc)) false n

/-! ### The walk over an aggregate -/

/-- One round on a well-formed packet. -/
private theorem l3Scatter_round (q : UdpPacket) (a c : List UInt8) {ts : UInt64}
    {aggLen room accLen : ℕ}
    {tsAcc : UInt64} {firstTime : Bool} {scatters : List ℕ} (h : accLen < aggLen) :
    l3Scatter ts aggLen (room + 1) (a ++ (q.bytes ++ c)) a.length accLen tsAcc firstTime scatters =
      l3Scatter ts aggLen room (a ++ ((q.restored (ts - tsAcc)).bytes ++ c))
        (a.length + q.bytes.length) ((accLen + q.bytes.length) % 65536)
        (if firstTime then tsAcc else tsAcc + (ts - tsAcc)) false (a.length :: scatters) := by
  have hlong := q.stamped
  have hihl := q.ihl_ge
  simp only [sizeofUdphdr] at hlong
  have hmem : rewritten q.bytes 0 (ts - tsAcc) = (q.restored (ts - tsAcc)).bytes := by
    rw [rewritten, Nat.zero_add, Nat.zero_add]
    change patch q.uncheck.bytes (4 * ihlOf q.bytes + sizeofUdphdr) _ = _
    rw [← q.ihlOf_uncheck]
    rfl
  rw [l3Scatter_mid a c h (by omega) hlong (by rw [q.protocol_eq]; rfl) q.totLen_eq, hmem]

/-- The addresses of packets that follow each other from `base` on. -/
def offsets (base : ℕ) : List UdpPacket → List ℕ
  | [] => []
  | q :: qs => base :: offsets (base + q.bytes.length) qs

/-- **The walk**: it visits every packet, and leaves each with the next timestamp. -/
theorem l3Scatter_eq (qs : List UdpPacket) (a : List UInt8) (ts : UInt64)
    (aggLen room accLen : ℕ) (tsAcc : UInt64) (firstTime : Bool) (scatters : List ℕ)
    (hroom : qs.length ≤ room) (hagg : aggLen = accLen + (qs.map fun q => q.bytes.length).sum)
    (hlt : aggLen < 65536) :
    l3Scatter ts aggLen room (a ++ (qs.map UdpPacket.bytes).flatten) a.length accLen tsAcc
        firstTime scatters =
      .ok (.all
        (a ++ ((List.zipWith UdpPacket.restored qs
          (restoredTimes ts tsAcc firstTime qs.length)).map UdpPacket.bytes).flatten)
        ((offsets a.length qs).reverse ++ scatters)) := by
  induction qs generalizing a room accLen tsAcc firstTime scatters with
  | nil =>
    have hend : aggLen ≤ accLen := by simp [hagg]
    unfold l3Scatter
    rw [if_pos hend]
    simp [offsets, restoredTimes]
  | cons q qs ih =>
    obtain ⟨room, rfl⟩ : ∃ r, room = r + 1 := by
      rw [List.length_cons] at hroom
      exact ⟨room - 1, by omega⟩
    rw [List.map_cons, List.sum_cons] at hagg
    have hpos := q.stamped
    have hacc : (accLen + q.bytes.length) % 65536 = accLen + q.bytes.length :=
      Nat.mod_eq_of_lt (by omega)
    rw [List.map_cons, List.flatten_cons, l3Scatter_round q a _ (by omega), hacc]
    have hnext := ih (a ++ (q.restored (ts - tsAcc)).bytes) room (accLen + q.bytes.length)
      (if firstTime then tsAcc else tsAcc + (ts - tsAcc)) false (a.length :: scatters)
      (by rw [List.length_cons] at hroom; omega) (by omega)
    rw [List.length_append, UdpPacket.length_restored, List.append_assoc] at hnext
    rw [hnext]
    simp [offsets, restoredTimes]

/-- The addresses are where the packets are. -/
private theorem forall₂_offsets (qs : List UdpPacket) (a : List UInt8) :
    List.Forall₂
      (fun ip bs => injectPacket true (a ++ (qs.map UdpPacket.bytes).flatten) ip = .ok (some bs))
      (offsets a.length qs) (qs.map UdpPacket.bytes) := by
  induction qs generalizing a with
  | nil => exact .nil
  | cons q qs ih =>
    refine .cons ?_ ?_
    · have hlong := q.stamped
      have hihl := q.ihl_ge
      rw [List.map_cons, List.flatten_cons, injectPacket, ipTotLen_at (by simp; omega),
        (fieldsAt_mid _ _ _ (by omega)).2.1, q.totLen_eq, ok_bind, if_pos rfl]
      have hcopy : load id (a ++ (q.bytes ++ (qs.map UdpPacket.bytes).flatten)) (a.length + 0)
          q.bytes.length = .ok (slice q.bytes 0 q.bytes.length) := load_mid (by omega)
      rw [Nat.add_zero, slice_zero_length] at hcopy
      rw [hcopy]
      rfl
    · have hrest := ih (a ++ q.bytes)
      rw [List.length_append] at hrest
      simpa only [List.map_cons, List.flatten_cons, List.append_assoc] using hrest

private theorem injectAll_offsets (qs : List UdpPacket) (a : List UInt8) :
    injectAll (fun _ => true) 0 ((offsets a.length qs).reverse.map fun ip =>
        (a ++ (qs.map UdpPacket.bytes).flatten, ip)) =
      .ok (qs.map UdpPacket.bytes).reverse := by
  refine injectAll_eq ?_ 0
  rw [List.forall₂_map_left_iff]
  exact List.forall₂_reverse_iff.mpr (forall₂_offsets qs a)

@[simp] theorem length_restoredTimes (ts tsAcc : UInt64) (firstTime : Bool) (n : ℕ) :
    (restoredTimes ts tsAcc firstTime n).length = n := by
  induction n generalizing tsAcc firstTime with
  | zero => rfl
  | succ n ih => rw [restoredTimes, List.length_cons, ih]

/-- Rounds do not move packets. -/
private theorem offsets_restored (qs : List UdpPacket) (base : ℕ) {ts : List UInt64}
    (h : ts.length = qs.length) :
    offsets base (List.zipWith UdpPacket.restored qs ts) = offsets base qs := by
  induction qs generalizing base ts with
  | nil => simp [offsets]
  | cons q qs ih =>
    obtain ⟨t, ts, rfl⟩ : ∃ t ts', ts = t :: ts' :=
      List.exists_cons_of_length_eq_add_one (by rw [h, List.length_cons])
    rw [List.zipWith_cons_cons, offsets, offsets, UdpPacket.length_restored,
      ih _ (by simpa using h)]

/-- **An aggregate of well-formed packets is taken apart**, oldest packet first. -/
theorem l3Deaggregate_packets (wild : ℕ → Option UInt64) (q : UdpPacket) (qs : List UdpPacket)
    (saddr daddr : UInt32) (hroom : (q :: qs).length ≤ maxScatters)
    (hlen : sizeofIphdr + ((q :: qs).map fun q => q.bytes.length).sum < 65536) :
    l3Deaggregate (.allocOk wild)
        (aggregateHeader agregatedIpEncapIpProto
          (sizeofIphdr + ((q :: qs).map fun q => q.bytes.length).sum) saddr daddr ++
          ((q :: qs).map UdpPacket.bytes).flatten) =
      .ok (.stolen, ((List.zipWith UdpPacket.restored (q :: qs)
        (restoredTimes q.timestamp 0 true (q :: qs).length)).map UdpPacket.bytes).reverse) := by
  have htotal : ((q :: qs).map fun q => q.bytes.length).sum =
      ((q :: qs).map UdpPacket.bytes).flatten.length := by
    rw [List.length_flatten, List.map_map]
    rfl
  obtain ⟨header, hheader⟩ : ∃ bs, bs = aggregateHeader agregatedIpEncapIpProto
    (sizeofIphdr + ((q :: qs).map UdpPacket.bytes).flatten.length) saddr daddr := ⟨_, rfl⟩
  have hscatter := l3Scatter_eq (q :: qs) header q.timestamp
    ((q :: qs).map UdpPacket.bytes).flatten.length maxScatters 0 0 true [] hroom
    (by rw [htotal, Nat.zero_add]) (by omega)
  have hinject := injectAll_offsets (List.zipWith UdpPacket.restored (q :: qs)
    (restoredTimes q.timestamp 0 true (q :: qs).length)) header
  rw [offsets_restored _ _ (length_restoredTimes _ _ _ _)] at hinject
  rw [htotal] at hlen ⊢
  rw [← hheader]
  refine (l3Deaggregate_aggregate _ q.toIpPacket (qs.map UdpPacket.bytes).flatten saddr daddr
    hheader (congrArg supported q.protocol_eq) hlen).trans ?_
  change l3Scatter q.timestamp ((q :: qs).map UdpPacket.bytes).flatten.length maxScatters
    (header ++ ((q :: qs).map UdpPacket.bytes).flatten) header.length 0 0 true [] >>= _ = _
  rw [hscatter, ok_bind, List.append_nil, injectScattered]
  simp only [DeaggEnv.allocOk, hinject, ok_bind]

/-! ### The aggregate of a stack -/

/-- A round hides what the timestamp was before. -/
theorem UdpPacket.restored_stamp (p : UdpPacket) (d t : UInt64) :
    (p.stamp d).restored t = p.restored t := by
  have hlong := p.stamped
  simp only [sizeofUdphdr] at hlong
  apply UdpPacket.ext
  change patch (patch (patch p.bytes p.pdu _) (4 * ihlOf (p.stamp d).bytes + 6) [0, 0])
    (4 * ihlOf (p.stamp d).uncheck.bytes + sizeofUdphdr) _ =
    patch (patch p.bytes (4 * ihlOf p.bytes + 6) [0, 0])
      (4 * ihlOf p.uncheck.bytes + sizeofUdphdr) _
  rw [UdpPacket.ihlOf_uncheck, UdpPacket.ihlOf_uncheck, UdpPacket.ihlOf_stamp]
  exact patch_patch_patch (by rw [length_be]; exact p.stamped)
    (by simp only [List.length_cons, List.length_nil]; omega) (by rw [length_be, length_be])

private theorem zipWith_restored_stamp (ps : List UdpPacket) {ds : List UInt64}
    (h : ds.length = ps.length) (ts : List UInt64) :
    List.zipWith UdpPacket.restored (List.zipWith UdpPacket.stamp ps ds) ts =
      List.zipWith UdpPacket.restored ps ts := by
  induction ps generalizing ds ts with
  | nil => rfl
  | cons p ps ih =>
    obtain ⟨d, ds, rfl⟩ := List.exists_cons_of_length_eq_add_one h
    cases ts with
    | nil => rfl
    | cons t ts =>
      simp only [List.zipWith_cons_cons, UdpPacket.restored_stamp]
      rw [ih (by simpa using h)]

/-- **What comes back**: the packets of the stack, oldest first, with the checksum cleared and the
timestamps of the loop. -/
theorem l3Deaggregate_chain (wild : ℕ → Option UInt64) (p : UdpPacket) (ps : List UdpPacket)
    (saddr daddr : UInt32) (hroom : (p :: ps).length ≤ maxScatters)
    (hlen : sizeofIphdr + (chain ((p :: ps).map UdpPacket.record)).length < 65536) :
    l3Deaggregate (.allocOk wild)
        (aggregateHeader agregatedIpEncapIpProto
          (sizeofIphdr + (chain ((p :: ps).map UdpPacket.record)).length) saddr daddr ++
          chain ((p :: ps).map UdpPacket.record)) =
      .ok (.stolen, ((List.zipWith UdpPacket.restored (p :: ps)
        (restoredTimes p.timestamp 0 true (p :: ps).length)).map UdpPacket.bytes).reverse) := by
  have hds : (deltas ((p :: ps).map UdpPacket.timestamp)).length = (p :: ps).length := by simp
  -- the aggregate begins with the newest packet as it is
  obtain ⟨qs, hqs⟩ : ∃ qs, List.zipWith UdpPacket.stamp (p :: ps)
      (deltas ((p :: ps).map UdpPacket.timestamp)) = p :: qs :=
    ⟨_, congrArg (· :: _) (UdpPacket.ext p.record.stamp_time)⟩
  have hcount : (p :: qs).length = (p :: ps).length := by
    rw [← hqs, List.length_zipWith, hds, Nat.min_self]
  have hbytes : chain ((p :: ps).map UdpPacket.record) =
      ((p :: qs).map UdpPacket.bytes).flatten := by rw [chain_records, hqs]
  have hsum : (chain ((p :: ps).map UdpPacket.record)).length =
      ((p :: qs).map fun q => q.bytes.length).sum := by
    rw [hbytes, List.length_flatten, List.map_map]
    rfl
  have h := l3Deaggregate_packets wild p qs saddr daddr (by rw [hcount]; exact hroom)
    (by rw [← hsum]; exact hlen)
  rw [← hsum, ← hbytes, hcount, ← hqs, zipWith_restored_stamp _ hds] at h
  exact h

/-! ### Which timestamps come back -/

/-- **The timestamps of the loop**: the newest one twice, then zeros. -/
theorem restoredTimes_eq (t : UInt64) (n : ℕ) :
    restoredTimes t 0 true (n + 2) = t :: t :: List.replicate n 0 := by
  have hzero : ∀ n, restoredTimes t t false n = List.replicate n 0 := by
    intro n
    induction n with
    | zero => rfl
    | succ n ih =>
      rw [restoredTimes, sub_self, List.replicate_succ]
      simp only [Bool.false_eq_true, if_false, add_zero, ih]
  simp only [restoredTimes, sub_zero, if_true, Bool.false_eq_true, if_false, zero_add, hzero]

/-- The timestamp field of a packet. -/
def timestampOf (bs : List UInt8) : UInt64 :=
  UInt64.ofNat (beVal (slice bs (4 * ihlOf bs + sizeofUdphdr) 8))

private theorem UdpPacket.timestampOf_restored (p : UdpPacket) (t : UInt64) :
    timestampOf (p.restored t).bytes = t := by
  rw [timestampOf, UdpPacket.restored, UdpPacket.ihlOf_stamp]
  exact p.uncheck.record.time_stamp t

/-! ### The round trip -/

section RoundTrip

variable {ifaAddress sourceIp ip : UInt32} {path : EmitPath} {size : ℕ} {os : List Outgoing}

/-- The packets injected for the aggregate of a sequence, each with a timestamp of the loop. -/
theorem l3_emitted (ifaAddress sourceIp ip : UInt32) (wild : ℕ → Option UInt64) (hne : os ≠ [])
    (h27 : os.length ≤ maxScatters)
    (hadm : path.Admits size (lens UdpPacket.record os))
    (hlen : sizeofIphdr + (lens UdpPacket.record os).sum < 65536) :
    ∃ packet t,
      emit (pushIpPacket ifaAddress .ok) agregatedIpEncapIpProto sourceIp path size ip os =
        .ok [packet] ∧
      ipRcv packet = some packet ∧
      (os.map fun o => o.packet.timestamp).getLast? = some t ∧
      l3Deaggregate (.allocOk wild) packet =
        .ok (.stolen, List.zipWith (fun o t => (o.packet.restored t).bytes) os
          (restoredTimes t 0 true os.length).reverse) := by
  obtain ⟨os, o, rfl⟩ : ∃ os' o, os = os' ++ [o] := ⟨_, _, (List.dropLast_append_getLast hne).symm⟩
  have hstack : stack UdpPacket.record (os ++ [o]) =
      (o.packet :: (os.map Outgoing.packet).reverse).map UdpPacket.record :=
    stack_append_singleton os o
  have hsum := length_chain_stack UdpPacket.record (os ++ [o])
  rw [hstack] at hsum
  have hemit := emit_eq (stacks_pushIpPacket ifaAddress) sourceIp ip hne hadm hlen
  rw [hstack, ← hsum] at hemit
  refine ⟨_, o.packet.timestamp, hemit, ipRcv_aggregate (by decide) _ _ (by rw [hsum]; exact hlen),
    by simp, ?_⟩
  rw [l3Deaggregate_chain wild o.packet _ _ _ (by simpa using h27) (by rw [hsum]; exact hlen),
    ← List.map_reverse, List.reverse_zipWith (by simp)]
  simp only [List.reverse_cons, List.reverse_reverse, List.length_cons, List.length_reverse,
    List.length_map, List.length_append, List.length_nil, List.map_zipWith]
  rw [← List.map_singleton, ← List.map_append, List.zipWith_map_left]

/-- `bs` is the packet with the checksum `0` and with any timestamp. -/
def UdpPacket.PreservedIn (p : UdpPacket) (bs : List UInt8) : Prop :=
  bs.length = p.bytes.length ∧
    slice bs (4 * ihlOf p.bytes + 6) 2 = [0, 0] ∧
    ∀ i, i < 4 * ihlOf p.bytes + 6 ∨ 4 * ihlOf p.bytes + 16 ≤ i → bs[i]? = p.bytes[i]?

theorem UdpPacket.preservedIn_restored (p : UdpPacket) (t : UInt64) :
    p.PreservedIn (p.restored t).bytes := by
  have hlong := p.stamped
  simp only [sizeofUdphdr] at hlong
  have hcheck : 4 * ihlOf p.bytes + 6 + [(0 : UInt8), 0].length ≤ p.bytes.length := by
    simp only [List.length_cons, List.length_nil]
    omega
  have hbytes : (p.restored t).bytes =
      patch (patch p.bytes (4 * ihlOf p.bytes + 6) [0, 0]) (4 * ihlOf p.bytes + 8)
        (be 8 t.toNat) := by
    change patch _ (4 * ihlOf p.uncheck.bytes + 8) _ = _
    rw [p.ihlOf_uncheck]
    rfl
  have hstamp : 4 * ihlOf p.bytes + 8 + (be 8 t.toNat).length ≤
      (patch p.bytes (4 * ihlOf p.bytes + 6) [(0 : UInt8), 0]).length := by
    rw [length_patch hcheck, length_be]
    exact hlong
  refine ⟨p.length_restored t, ?_, fun i hi => ?_⟩
  · rw [hbytes, slice_patch_of_disjoint hstamp (by omega)]
    exact slice_patch_self hcheck
  · rw [hbytes, getElem?_patch hstamp, getElem?_patch hcheck]
    simp only [length_be, List.length_cons, List.length_nil]
    split_ifs <;> first | rfl | omega

/-- **IP aggregation and deaggregation preserve packets and order.** One to 27 packets with fewer
than 65515 bytes in all, pushed one by one and emitted on either path with no flush in between,
come back as the same packets, each once and in the same order, with nothing changed but the UDP
checksum, now `0`, and the timestamp. -/
theorem l3_roundTrip (ifaAddress sourceIp ip : UInt32) (path : EmitPath) (size : ℕ)
    (os : List Outgoing) (wild : ℕ → Option UInt64) (hpos : 1 ≤ os.length)
    (h27 : os.length ≤ maxScatters) (htotal : (lens UdpPacket.record os).sum < 65515)
    (hadm : path.Admits size (lens UdpPacket.record os)) :
    ∃ packet received out,
      emit (pushIpPacket ifaAddress .ok) agregatedIpEncapIpProto sourceIp path size ip os =
        .ok [packet] ∧
      ipRcv packet = some received ∧
      l3Deaggregate (.allocOk wild) received = .ok (.stolen, out) ∧
      List.Forall₂ (fun o bs => o.packet.PreservedIn bs) os out := by
  obtain ⟨packet, t, hemit, hrcv, -, hdeagg⟩ := l3_emitted ifaAddress sourceIp ip wild
    (List.length_pos_iff.mp hpos) h27 hadm
    (by simp only [sizeofIphdr]; omega)
  refine ⟨packet, packet, _, hemit, hrcv, hdeagg, ?_⟩
  rw [forall₂_zipWith_right (by simp), List.forall₂_iff_zip]
  exact ⟨by simp, fun _ => UdpPacket.preservedIn_restored _ _⟩

/-- Two packets that leave together when the second one fills a buffer of 60 bytes. -/
theorem l3_roundTrip_two :
    ∃ packet received out,
      emit (pushIpPacket 1 .ok) agregatedIpEncapIpProto 2 .flush 60 3
          [⟨nodePacket 5, 0, 0⟩, ⟨nodePacket 7, 16, 100⟩] = .ok [packet] ∧
      ipRcv packet = some received ∧
      l3Deaggregate (.allocOk fun _ => none) received = .ok (.stolen, out) ∧
      List.Forall₂ (fun (o : Outgoing) bs => o.packet.PreservedIn bs)
        [⟨nodePacket 5, 0, 0⟩, ⟨nodePacket 7, 16, 100⟩] out :=
  l3_roundTrip 1 2 3 .flush 60 [⟨nodePacket 5, 0, 0⟩, ⟨nodePacket 7, 16, 100⟩] (fun _ => none)
    (by decide) (by decide) (by decide) ⟨by decide, by decide⟩

/-! ### The timestamps of the round trip -/

/-- **A packet cut off before its end does not tile its aggregate.** -/
theorem not_tilesAggregate_truncated (p : UdpPacket) {n r : ℕ} (hr : r < p.bytes.length)
    (saddr daddr : UInt32) :
    ¬ TilesAggregate (fun _ => true)
      (aggregateHeader agregatedIpEncapIpProto n saddr daddr ++ p.bytes.take r) := by
  obtain ⟨hihl, -⟩ := fields_aggregateHeader (show agregatedIpEncapIpProto < 256 by decide) n saddr
    daddr (p.bytes.take r)
  have hlength := length_aggregateHeader agregatedIpEncapIpProto n saddr daddr
  generalize aggregateHeader agregatedIpEncapIpProto n saddr daddr = header at hihl hlength ⊢
  have hcut : (p.bytes.take r).length = r := List.length_take_of_le hr.le
  have hlen : (header ++ p.bytes.take r).length = header.length + r := by
    rw [List.length_append, hcut]
  rw [TilesAggregate, hihl, show 4 * 5 = header.length from hlength.symm]
  rintro ⟨hhead, hrest⟩
  -- the header is whole, so its fields are those of the packet
  obtain ⟨-, htotLen, hprotocol⟩ := fieldsAt_mid header (p.bytes.take r) [] (by omega)
  rw [List.append_nil, totLenOf, slice_take (by omega), ← totLenOf, p.totLen_eq] at htotLen
  rw [List.append_nil, protocolOf, slice_take (by omega), ← protocolOf, p.protocol_eq] at hprotocol
  obtain ⟨-, hend⟩ := hrest (by rw [hprotocol]; rfl)
  rw [htotLen, hlen] at hend
  obtain hend | hend | hend := hend
  · omega
  · omega
  · exact Bool.false_ne_true hend.2.2

/-- The packets injected for the aggregate of a sequence carry the timestamps of the sequence. -/
def TimestampsRestored (ifaAddress sourceIp ip : UInt32) (path : EmitPath) (size : UInt16)
    (os : List Outgoing) (wild : ℕ → Option UInt64) : Prop :=
  ∃ packet received out,
    emit (pushIpPacket ifaAddress .ok) agregatedIpEncapIpProto sourceIp path size.toNat ip os =
      .ok [packet] ∧
    ipRcv packet = some received ∧
    l3Deaggregate (.allocOk wild) received = .ok (.stolen, out) ∧
    out.map timestampOf = os.map fun o => o.packet.timestamp

private theorem map_timestampOf_restored (os : List Outgoing) (ts : List UInt64)
    (h : ts.length = os.length) :
    (List.zipWith (fun (o : Outgoing) t => (o.packet.restored t).bytes) os ts).map timestampOf =
      ts := by
  induction os generalizing ts with
  | nil => simpa using (List.length_eq_zero_iff.mp h).symm
  | cons o os ih =>
    obtain ⟨t, ts, rfl⟩ := List.exists_cons_of_length_eq_add_one h
    rw [List.zipWith_cons_cons, List.map_cons, UdpPacket.timestampOf_restored,
      ih _ (by simpa using h)]

/-- The timestamps of the loop are the given ones, oldest first, for a single packet, or when the
last two agree and all others are `0`. -/
private theorem restoredTimes_reverse_eq_iff {ts : List UInt64} {t : UInt64}
    (hlast : ts.getLast? = some t) :
    (restoredTimes t 0 true ts.length).reverse = ts ↔
      ts.length = 1 ∨ ∃ k u, ts = List.replicate k 0 ++ [u, u] := by
  obtain ⟨ts, rfl⟩ : ∃ ts', ts = ts' ++ [t] := List.getLast?_eq_some_iff.mp hlast
  cases hn : ts.length with
  | zero =>
    obtain rfl := List.length_eq_zero_iff.mp hn
    simp [restoredTimes]
  | succ n =>
    have hlen : (ts ++ [t]).length = n + 2 := by simp [hn]
    have hrev : (restoredTimes t 0 true (ts ++ [t]).length).reverse =
        List.replicate n 0 ++ [t, t] := by
      rw [hlen, restoredTimes_eq]
      simp
    rw [hrev, hlen]
    constructor
    · intro h
      exact .inr ⟨n, t, h.symm⟩
    · rintro (h | ⟨k, u, h⟩)
      · omega
      · have hk : n = k := by
          have := congrArg List.length h
          rw [hlen] at this
          simpa using this
        have hu : t = u := by
          have := congrArg List.getLast? h
          simpa using this
        rw [h, hk, hu]

/-- The timestamps of an aggregate that fits its header field. -/
private theorem timestampsRestored_iff_of_short {size : UInt16} (wild : ℕ → Option UInt64)
    (hne : os ≠ []) (h27 : os.length ≤ maxScatters)
    (hadm : path.Admits size.toNat (lens UdpPacket.record os))
    (hlen : sizeofIphdr + (lens UdpPacket.record os).sum < 65536) :
    TimestampsRestored ifaAddress sourceIp ip path size os wild ↔
      os.length = 1 ∨
        ∃ k t, (os.map fun o => o.packet.timestamp) = List.replicate k 0 ++ [t, t] := by
  obtain ⟨packet, t, hemit, hrcv, hlast, hdeagg⟩ := l3_emitted ifaAddress sourceIp ip
    wild hne h27 hadm hlen
  have htimes := map_timestampOf_restored os (restoredTimes t 0 true os.length).reverse
    (by simp)
  have hiff := restoredTimes_reverse_eq_iff hlast
  rw [List.length_map] at hiff
  rw [← hiff]
  constructor
  · rintro ⟨packet', received, out, hemit', hrcv', hdeagg', hout⟩
    obtain rfl : packet = packet' := by simpa [hemit] using hemit'
    obtain rfl : packet = received := by simpa [hrcv] using hrcv'
    obtain rfl : _ = out := by simpa [hdeagg] using hdeagg'
    rw [← hout, htimes]
  · intro h
    exact ⟨packet, packet, _, hemit, hrcv, hdeagg, htimes.trans h⟩

/-- An aggregate whose length does not fit the header field loses timestamps. -/
private theorem not_timestampsRestored_of_long {size : UInt16} (wild : ℕ → Option UInt64)
    (hne : os ≠ []) (hadm : path.Admits size.toNat (lens UdpPacket.record os))
    (hlong : 65536 ≤ sizeofIphdr + (lens UdpPacket.record os).sum) :
    ¬ TimestampsRestored ifaAddress sourceIp ip path size os wild := by
  rintro ⟨packet, received, out, hemit, hrcv, hdeagg, -⟩
  cases path with
  | consuela =>
    exact not_safe_emit_consuela (stacks_pushIpPacket ifaAddress) sourceIp ip hne hadm hlong
      ⟨_, hemit⟩
  | flush =>
    rw [emit_flush (stacks_pushIpPacket ifaAddress) sourceIp ip hadm] at hemit
    obtain rfl : _ = packet := by simpa using hemit
    obtain ⟨os, o, rfl⟩ : ∃ os' o, os = os' ++ [o] :=
      ⟨_, _, (List.dropLast_append_getLast hne).symm⟩
    obtain ⟨r, hcut, -, rfl⟩ := ipRcv_long (by decide) UdpPacket.record size
      (by simpa [lens] using hadm.1) hlong o.packet.length_lt hrcv
    have htiles := (safe_l3Deaggregate_iff (validOuter_of_ipRcv hrcv)).mp ⟨_, hdeagg⟩
    exact not_tilesAggregate_truncated o.packet hcut ifaAddress ip htiles

/-- **Which timestamps survive IP aggregation.** For one to 27 packets, emitted on either path with
no flush in between, the timestamps come back if and only if the aggregate's length fits its header
field and there is a single packet, or the last two timestamps agree and all others are `0`. -/
theorem timestampsRestored_iff (ifaAddress sourceIp ip : UInt32) (path : EmitPath) (size : UInt16)
    (os : List Outgoing) (wild : ℕ → Option UInt64) (hpos : 1 ≤ os.length)
    (h27 : os.length ≤ maxScatters)
    (hadm : path.Admits size.toNat (lens UdpPacket.record os)) :
    TimestampsRestored ifaAddress sourceIp ip path size os wild ↔
      sizeofIphdr + (lens UdpPacket.record os).sum < 65536 ∧
        (os.length = 1 ∨
          ∃ k t, (os.map fun o => o.packet.timestamp) = List.replicate k 0 ++ [t, t]) := by
  have hne := List.length_pos_iff.mp hpos
  by_cases hlen : sizeofIphdr + (lens UdpPacket.record os).sum < 65536
  · rw [and_iff_right hlen]
    exact timestampsRestored_iff_of_short wild hne h27 hadm hlen
  · refine iff_of_false (not_timestampsRestored_of_long wild hne hadm (by omega)) ?_
    exact fun h => hlen h.1

/-- Three packets that keep their timestamps: the last two were taken at the same time. -/
theorem timestampsRestored_three :
    TimestampsRestored 1 2 3 .flush 120
      [⟨nodePacket 0, 0, 0⟩, ⟨nodePacket 7, 16, 100⟩, ⟨nodePacket 7, 32, 200⟩] fun _ => none :=
  (timestampsRestored_iff 1 2 3 .flush 120
    [⟨nodePacket 0, 0, 0⟩, ⟨nodePacket 7, 16, 100⟩, ⟨nodePacket 7, 32, 200⟩] (fun _ => none)
    (by decide) (by decide) ⟨by decide, by decide⟩).mpr ⟨by decide, .inr ⟨1, 7, by decide⟩⟩

/-- Of two packets of different times, the first comes back with the time of the second. -/
theorem timestamps_lost_two :
    ¬ TimestampsRestored 1 2 3 .flush 60
      [⟨nodePacket 5, 0, 0⟩, ⟨nodePacket 7, 16, 100⟩] fun _ => none := by
  intro hrestored
  have hadm : EmitPath.flush.Admits (60 : UInt16).toNat (lens UdpPacket.record
      [⟨nodePacket 5, 0, 0⟩, ⟨nodePacket 7, 16, 100⟩]) := ⟨by decide, by decide⟩
  obtain h | ⟨k, t, h⟩ := (timestampsRestored_iff_of_short _ (by simp) (by decide) hadm
    (by decide)).mp hrestored
  · cases h
  · have hlen := congrArg List.length h
    obtain rfl : k = 0 := by simpa using hlen
    have htimes : [5, 7] = [t, t] := h
    simp only [List.cons.injEq, and_true] at htimes
    exact absurd (htimes.1.trans htimes.2.symm) (by decide)

end RoundTrip

end MiaVita
