import Mathlib.Algebra.Order.BigOperators.Group.List
import Mathlib.Data.List.Flatten
import Mathlib.Data.List.Perm.Subperm
import MiaVita.FredFramework.L3RoundTrip
import MiaVita.FredFramework.WireFormat

/-!
# From the aggregator of one host to the deaggregation of another

Packets for any destinations pass the hook of the aggregator, passes of the flush thread come in
between, and the network takes the aggregates to their destinations. It may lose some of them and
change their order. `delivered_packets` says what a destination gets: no packet that was not sent to
it, none twice, all that were in the aggregates that arrived, and in the order in which they were
sent if the aggregates come in order. Nothing is held back behind a last pass.

Receiving has no state: each aggregate is taken apart by itself (`receive_aggregate`). What is left
to show is that the receiver's table has a slot for each packet of it, which follows from the size
of the buffers (`length_le_maxScatters`), as no batch is full before its last packet.
-/

namespace MiaVita

open Bytes Memory StampChain Fallible

/-! ### The receiving host -/

/-- What a host hands on of the packets that arrive at it, one after the other: those that the hook
of the deaggregation module injects and those that it lets pass. -/
def receive (env : DeaggEnv) : List (List UInt8) → Except Fault (List (List UInt8))
  | [] => .ok []
  | packet :: packets =>
    match ipRcv packet with
    | none => receive env packets
    | some m => do
      let (verdict, injected) ← deaggregationLocalInHook env m
      let rest ← receive env packets
      .ok (injected ++ (if verdict = .accept then [m] else []) ++ rest)

/-- An aggregate arrives. -/
private theorem receive_cons {env : DeaggEnv} {packet : List UInt8}
    {injected rest : List (List UInt8)}
    {packets : List (List UInt8)} (hrcv : ipRcv packet = some packet)
    (hhook : deaggregationLocalInHook env packet = .ok (.stolen, injected))
    (hrest : receive env packets = .ok rest) :
    receive env (packet :: packets) = .ok (injected ++ rest) := by
  simp only [receive, hrcv, hhook, ok_bind, hrest]
  rw [if_neg (by decide), List.append_nil]

/-- Packets of an aggregate after the loop, whatever timestamps were stored in them. -/
private theorem forall₂_restored {ps qs : List UdpPacket} {ts : List UInt64}
    (h : List.Forall₂ (fun p q => ∃ t, q = p.stamp t) ps qs) (hts : ts.length = qs.length) :
    List.Forall₂ (fun p (q : UdpPacket) => p.PreservedIn q.bytes) ps
      (List.zipWith UdpPacket.restored qs ts) := by
  induction h generalizing ts with
  | nil => exact .nil
  | @cons p q ps qs hq _ ih =>
    obtain ⟨t, ts, rfl⟩ := List.exists_cons_of_length_eq_add_one hts
    obtain ⟨u, rfl⟩ := hq
    refine .cons ?_ (ih (Nat.succ.inj hts))
    rw [UdpPacket.restored_stamp]
    exact p.preservedIn_restored t

/-- **An aggregate is taken apart** by the hook, if there are slots for its packets. -/
theorem IsAggregate.hook {d : UInt32} {ps : List UdpPacket} {packet : List UInt8}
    (h : IsAggregate d ps packet) (hne : ps ≠ []) (hroom : ps.length ≤ maxScatters)
    (wild : ℕ → Option UInt64) :
    ipRcv packet = some packet ∧ ∃ injected,
      deaggregationLocalInHook (.allocOk wild) packet = .ok (.stolen, injected) ∧
      List.Forall₂ UdpPacket.PreservedIn ps.reverse injected := by
  obtain ⟨saddr, qs, hpacket, htotal, hstamped, -, -⟩ := h
  have hcount := hstamped.length_eq
  have hlen : packet.length = sizeofIphdr + (qs.map UdpPacket.bytes).flatten.length := by
    conv_lhs => rw [hpacket]
    rw [List.length_append, length_aggregateHeader]
  have hsum : (qs.map UdpPacket.bytes).flatten.length = (qs.map fun q => q.bytes.length).sum := by
    rw [List.length_flatten, List.map_map]
    rfl
  -- the length field has two bytes
  have hshort : packet.length < 65536 := by
    have hfield := beVal_lt (slice packet 2 2)
    have htwo : (slice packet 2 2).length ≤ 2 := List.length_take_le _ _
    have hpow : 256 ^ (slice packet 2 2).length ≤ 256 ^ 2 := Nat.pow_le_pow_right (by decide) htwo
    rw [← htotal]
    exact hfield.trans_le hpow
  rw [hlen] at hpacket hshort
  obtain ⟨q, qs, rfl⟩ : ∃ q qs', qs = q :: qs' := by
    refine List.exists_cons_of_length_pos ?_
    rw [← hcount]
    exact List.length_pos_iff.mpr hne
  have hrcv := ipRcv_aggregate (show agregatedIpEncapIpProto < 256 by decide) saddr d hshort
  have hprotocol := (fields_aggregateHeader (show agregatedIpEncapIpProto < 256 by decide)
    (sizeofIphdr + ((q :: qs).map UdpPacket.bytes).flatten.length) saddr d
    ((q :: qs).map UdpPacket.bytes).flatten).2.2.1
  rw [← hpacket] at hrcv hprotocol
  have hdeagg := l3Deaggregate_packets wild q qs saddr d (by rw [← hcount]; exact hroom)
    (by rw [← hsum]; exact hshort)
  rw [← hsum, ← hpacket] at hdeagg
  have hhook : deaggregationLocalInHook (.allocOk wild) packet =
      l3Deaggregate (.allocOk wild) packet := by
    rw [deaggregationLocalInHook, ipProtocol_eq (by rw [hlen]; simp only [sizeofIphdr]; omega),
      ok_bind, hprotocol, if_neg (by decide), if_pos rfl]
  refine ⟨hrcv, _, hhook.trans hdeagg, List.forall₂_reverse_iff.mpr ?_⟩
  rw [List.forall₂_map_right_iff]
  exact forall₂_restored hstamped (length_restoredTimes _ _ _ _)

/-- Aggregates one after the other. -/
private theorem receive_aggregates {d : UInt32} {groups : List (List UdpPacket)}
    {packets : List (List UInt8)}
    (h : List.Forall₂ (fun g packet => IsAggregate d g.reverse packet) groups packets)
    (hgroups : ∀ g ∈ groups, g ≠ [] ∧ g.length ≤ maxScatters) (wild : ℕ → Option UInt64) :
    ∃ out, receive (.allocOk wild) packets = .ok out ∧
      List.Forall₂ UdpPacket.PreservedIn groups.flatten out := by
  induction h with
  | nil => exact ⟨[], rfl, .nil⟩
  | @cons g packet groups packets hg _ ih =>
    obtain ⟨⟨hne, hroom⟩, hgroups⟩ := List.forall_mem_cons.mp hgroups
    obtain ⟨rest, hrest, hpreserved⟩ := ih hgroups
    obtain ⟨hrcv, injected, hhook, hinjected⟩ := hg.hook (by simpa using hne) (by simpa using hroom)
      wild
    rw [List.reverse_reverse] at hinjected
    exact ⟨_, receive_cons hrcv hhook hrest, List.rel_append hinjected hpreserved⟩

/-! ### The batches of a run -/

private theorem batchFull_append (size : ℕ) (g : List UdpPacket) (p : UdpPacket)
    (h : batchFull size g = true) : batchFull size (g ++ [p]) = true := by
  simp only [batchFull, decide_eq_true_iff, List.map_append, List.sum_append] at h ⊢
  omega

/-- No batch of a run is full before its last packet. -/
private theorem tight_batchStep (size : ℕ) (events : List AggregatorEvent) (d : UInt32) :
    (Run.exec (batchStep size) (fun _ => Batches.empty) events d).Tight (batchFull size) :=
  Run.always (P := fun a : BatchTable => ∀ d, (a d).Tight (batchFull size))
    (fun _ e h => Batches.tight_step _ (batchFull_append size) h e.op)
    (fun _ => ⟨by simp [Batches.empty], .inl rfl⟩) events d

/-- **There are slots enough** for a batch that is not full before its last packet, in buffers of
the size of 27 packets that are not longer than these. -/
theorem length_le_maxScatters {size least : ℕ} {g : List UdpPacket}
    (hg : g.dropLast = [] ∨ batchFull size g.dropLast = false)
    (hleast : ∀ p ∈ g, least ≤ p.bytes.length) (hsize : size ≤ maxScatters * least) :
    g.length ≤ maxScatters := by
  obtain hnil | hopen := hg
  · have hlen := congrArg List.length hnil
    rw [List.length_dropLast, List.length_nil] at hlen
    simp only [maxScatters]
    omega
  · have hsum : (g.dropLast.map fun p => p.bytes.length).sum < size := by
      simpa [batchFull] using hopen
    have hcount : g.dropLast.length * least ≤ (g.dropLast.map fun p => p.bytes.length).sum := by
      have hle := List.card_nsmul_le_sum (g.dropLast.map fun p => p.bytes.length) least ?_
      · simpa using hle
      · intro n hn
        obtain ⟨p, hp, rfl⟩ := List.mem_map.mp hn
        exact hleast p (List.dropLast_subset g hp)
    have hlt : g.dropLast.length < maxScatters :=
      Nat.lt_of_mul_lt_mul_right (hcount.trans_lt (hsum.trans_le hsize))
    rw [List.length_dropLast] at hlt
    omega

/-- Behind a last pass nothing is left in a batch. -/
private theorem pending_of_pass (size : ℕ) (a : BatchTable) (events : List AggregatorEvent)
    (d : UInt32)
    (h : events.getLast? = some .pass) : (Run.exec (batchStep size) a events d).pending = [] := by
  obtain ⟨events, rfl⟩ := List.getLast?_eq_some_iff.mp h
  rw [Run.exec_append]
  exact Batches.pending_close _

/-! ### The network -/

section Related

variable {α β : Type*} {R : α → β → Prop}

/-- What is related to a part of a list is a part of what is related to the list. -/
private theorem exists_sublist_forall₂ {as : List α} {bs bs' : List β} (h : List.Forall₂ R as bs)
    (hsub : bs'.Sublist bs) : ∃ as', as'.Sublist as ∧ List.Forall₂ R as' bs' := by
  induction hsub generalizing as with
  | slnil => exact ⟨[], List.nil_sublist _, .nil⟩
  | cons b _ ih =>
    obtain ⟨a, as, -, has, rfl⟩ := List.forall₂_cons_right_iff.mp h
    obtain ⟨as', hsub', h'⟩ := ih has
    exact ⟨as', hsub'.cons a, h'⟩
  | cons_cons b _ ih =>
    obtain ⟨a, as, ha, has, rfl⟩ := List.forall₂_cons_right_iff.mp h
    obtain ⟨as', hsub', h'⟩ := ih has
    exact ⟨a :: as', hsub'.cons_cons a, .cons ha h'⟩

/-- The same in another order. -/
private theorem exists_subperm_forall₂ {as : List α} {bs bs' : List β} (h : List.Forall₂ R as bs)
    (hsub : bs'.Subperm bs) : ∃ as', as'.Subperm as ∧ List.Forall₂ R as' bs' := by
  obtain ⟨bs₁, hperm, hbs₁⟩ := hsub
  obtain ⟨as₁, has₁, h₁⟩ := exists_sublist_forall₂ h hbs₁
  obtain ⟨as', h', hperm'⟩ := List.perm_comp_forall₂ (r := fun b a => R a b) hperm.symm h₁.flip
  exact ⟨as', ⟨as₁, hperm'.symm, has₁⟩, h'.flip⟩

end Related

/-- **What a destination gets.** Let the buffers have at most 1431 bytes and every packet from 53, a
`packet_t` with its headers, to 1500. After any run of packets and passes, of the aggregates that
have left for a destination any may arrive, in any order. What the destination hands on then are
packets that were sent to it, with nothing changed but the checksum and the timestamp, and none of
them twice. If the aggregates arrive in order, so do the packets. If all do and a pass was the last
event, these are all the packets that were sent to it. -/
theorem delivered_packets (size : ℕ) (sourceIp : UInt32) (events : List AggregatorEvent)
    (wild : ℕ → Option UInt64)
    (hsize : size ≤ maxScatters * (sizeofIphdr + (sizeofUdphdr + sizeofPacket)))
    (hpackets : ∀ e ∈ events, ∀ p, e.packet? = some p →
      sizeofIphdr + (sizeofUdphdr + sizeofPacket) ≤ p.bytes.length ∧ p.bytes.length ≤ 1500) :
    ∃ s, Run.execM (aggregatorStep size sourceIp) ⟨[], []⟩ events = .ok s ∧
      ∀ d arrived, arrived.Subperm (s.emitted.filter fun packet => daddrOf packet = d) →
        ∃ ps out, receive (.allocOk wild) arrived = .ok out ∧
          List.Forall₂ UdpPacket.PreservedIn ps out ∧
          ps.Subperm (packetsTo d events) ∧
          (arrived.Sublist (s.emitted.filter fun packet => daddrOf packet = d) →
            ps.Sublist (packetsTo d events)) ∧
          (arrived = s.emitted.filter (fun packet => daddrOf packet = d) →
            events.getLast? = some .pass → ps = packetsTo d events) := by
  have hshort : size ≤ 1480 := hsize.trans (by decide)
  obtain ⟨s, hrun, -, -, hemitted⟩ := Run.simulation
    (fun s a e (h : Represents size s a) he => aggregatorStep_represents h sourceIp e hshort he)
    (represents_empty size) fun e he p hp => (hpackets e he p hp).2
  refine ⟨s, hrun, fun d arrived harrived => ?_⟩
  have hemitted := hemitted d
  have hitems := items_batchStep size events d
  have htight := tight_batchStep size events d
  have hpending := pending_of_pass size (fun _ => Batches.empty) events d
  generalize Run.exec (batchStep size) (fun _ => Batches.empty) events d = b at *
  -- there are slots for the packets of every batch
  have hgroups : ∀ g ∈ b.closed, g ≠ [] ∧ g.length ≤ maxScatters := by
    intro g hg
    refine ⟨b.ne_nil g hg, length_le_maxScatters (htight.closed g hg) ?_ hsize⟩
    intro p hp
    have hsent : p ∈ packetsTo d events := by
      rw [← hitems]
      exact List.mem_append_left _ (List.mem_flatten_of_mem hg hp)
    obtain ⟨e, he, hep⟩ := List.mem_filterMap.mp (List.mem_of_mem_filter hsent)
    exact (hpackets e he p hep).1
  have hfrom : ∀ gs : List (List UdpPacket), gs ⊆ b.closed →
      List.Forall₂ (fun g packet => IsAggregate d g.reverse packet) gs arrived →
      ∃ out, receive (.allocOk wild) arrived = .ok out ∧
        List.Forall₂ UdpPacket.PreservedIn gs.flatten out := by
    intro gs hgs hall
    exact receive_aggregates hall (fun g hg => hgroups g (hgs hg)) wild
  have hclosed : b.closed.flatten.Sublist (packetsTo d events) :=
    hitems ▸ List.sublist_append_left _ _
  by_cases hsub : arrived.Sublist (s.emitted.filter fun packet => daddrOf packet = d)
  · obtain ⟨gs, hgs, hall⟩ := exists_sublist_forall₂ hemitted hsub
    obtain ⟨out, hout, hpreserved⟩ := hfrom gs hgs.subset hall
    have hps : gs.flatten.Sublist (packetsTo d events) := hgs.flatten.trans hclosed
    refine ⟨gs.flatten, out, hout, hpreserved, hps.subperm, fun _ => hps, fun hall' hlast => ?_⟩
    have hlength : gs.length = b.closed.length := by
      rw [hall.length_eq, hall', hemitted.length_eq]
    rw [hgs.eq_of_length hlength, ← hitems, Batches.items, hpending hlast, List.append_nil]
  · obtain ⟨gs, hgs, hall⟩ := exists_subperm_forall₂ hemitted harrived
    obtain ⟨out, hout, hpreserved⟩ := hfrom gs hgs.subset hall
    refine ⟨gs.flatten, out, hout, hpreserved, ?_, fun h => absurd h hsub, fun h => ?_⟩
    · obtain ⟨gs₁, hperm, hgs₁⟩ := hgs
      exact (hperm.flatten.symm.subperm).trans (hgs₁.flatten.trans hclosed).subperm
    · exact absurd (h ▸ List.Sublist.refl _) hsub

/-- Three packets and two passes: all of them arrive. -/
theorem delivered_packets_three :
    ∃ s out, Run.execM (aggregatorStep 100 2) ⟨[], []⟩
        [.packet ⟨nodePacket 5, 0, 0⟩ 1, .packet ⟨nodePacket 7, 16, 100⟩ 1, .pass,
          .packet ⟨nodePacket 9, 16, 100⟩ 1, .pass] = .ok s ∧
      receive (.allocOk fun _ => none)
        (s.emitted.filter fun packet => daddrOf packet = daddrOf (nodePacket 5).bytes) = .ok out ∧
      List.Forall₂ UdpPacket.PreservedIn [nodePacket 5, nodePacket 7, nodePacket 9] out := by
  obtain ⟨s, hs, h⟩ := delivered_packets 100 2 [.packet ⟨nodePacket 5, 0, 0⟩ 1,
    .packet ⟨nodePacket 7, 16, 100⟩ 1, .pass, .packet ⟨nodePacket 9, 16, 100⟩ 1, .pass]
    (fun _ => none) (by decide) (by
      intro e he p hp
      simp only [List.mem_cons, List.not_mem_nil, or_false] at he
      rcases he with rfl | rfl | rfl | rfl | rfl <;> cases hp <;> decide)
  obtain ⟨ps, out, hout, hps, -, -, hall⟩ :=
    h (daddrOf (nodePacket 5).bytes) _ (List.Subperm.refl _)
  rw [hall rfl rfl] at hps
  exact ⟨s, out, hs, hout, hps⟩

end MiaVita
