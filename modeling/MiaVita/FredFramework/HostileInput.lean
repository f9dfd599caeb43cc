import MiaVita.FredFramework.AppRoundTrip
import MiaVita.FredFramework.L3RoundTrip

/-!
# Deaggregation of hostile input

Both loops of the deaggregation hook are driven by lengths that stand in the packet itself, and
none is compared with what is left of it. This module says exactly for which packets they stay
inside the packet and inside the table.

For IP aggregates that is the tiling of `TilesAggregate`. For application aggregates the second
datagram is fatal, because a pointer is read that was never assigned; a single one must end inside
the packet (`OneDatagram`).
-/

namespace MiaVita

open Bytes Memory Fallible

/-- The environment in which a read through the uninitialised pointer is no read of the packet. -/
def DeaggEnv.strict (newOk injectOk : ℕ → Bool) : DeaggEnv := ⟨fun _ => none, newOk, injectOk⟩

/-! ### Application aggregates -/

/-- **At most one datagram is counted**, and if one is, then there is memory for its packet and it
ends inside the aggregate. -/
def OneDatagram (newOk : ℕ → Bool) (m : List UInt8) : Prop :=
  4 * ihlOf m + sizeofUdphdr + 8 ≤ m.length ∧
    (m.length - 4 * ihlOf m < sizeofUdphdr + sizeofPacket ∨
      m.length - 4 * ihlOf m < 2 * (sizeofUdphdr + sizeofPacket) ∧ newOk 0 = true ∧
        4 * ihlOf m + udpLenAt m (4 * ihlOf m) ≤ m.length)

section Datagrams

variable {env : DeaggEnv} {m : List UInt8}

/-- A rebuilt packet is as long as its length field says, or longer, so its injection reads
nothing else. -/
private theorem safe_injectPacket_of_prependIphdr {udph len : ℕ} {new : List UInt8}
    (allocated : Bool) (hihl : 5 ≤ ihlOf m) (hhead : 4 * ihlOf m ≤ m.length)
    (h : prependIphdr m udph len = .ok new) : Safe (injectPacket allocated new 0) := by
  have hudp := (safe_prependIphdr_iff hihl hhead).mp ⟨new, h⟩
  rw [prependIphdr_eq hihl hhead hudp] at h
  obtain ⟨iph, hiph⟩ : ∃ iph, iph = m.take (4 * ihlOf m) := ⟨_, rfl⟩
  have hlen : iph.length = 4 * ihlOf m := by
    rw [hiph, List.length_take]
    omega
  have hlt := ihlOf_lt m
  obtain ⟨hheader, htot, -⟩ := rebuildHeader_spec (show 20 ≤ iph.length by omega) (by omega)
    (4 * ihlOf m + len)
  rw [← hiph] at h
  cases h
  have hfield := (fields_append (rebuildHeader iph (4 * ihlOf m + len)) (by omega)
    (slice m udph len)).2.1
  have hsize : (rebuildHeader iph (4 * ihlOf m + len) ++ slice m udph len).length =
      4 * ihlOf m + len := by
    rw [List.length_append, hheader, hlen, length_slice hudp]
  refine (safe_injectPacket_iff _ _ _).mpr ⟨by omega, fun _ => ?_⟩
  change 0 + totLenOf _ ≤ _
  rw [hfield, htot, hsize, Nat.zero_add]
  exact Nat.mod_le _ _

/-- The packet a round has built is injected in bounds. -/
private theorem safe_injectPacket_of_appRound {ts tsAcc : UInt64} {first udph k : ℕ} {r : AppRound}
    (allocated : Bool) (hihl : 5 ≤ ihlOf m) (hhead : 4 * ihlOf m ≤ m.length) (hfirst : 1 ≤ first)
    (h : appRound env ts first m udph tsAcc k = .ok r) : Safe (injectPacket allocated r.new 0) := by
  obtain ⟨hudp, hpdu, -, hnew, -⟩ :=
    (safe_appRound_iff env ts tsAcc k hihl hhead hfirst).mp ⟨r, h⟩
  rw [appRound_eq env ts tsAcc k hudp hpdu] at h
  obtain ⟨tsAcc', -, h⟩ := bind_eq_ok.mp h
  rw [if_neg (by rw [hnew]; decide)] at h
  obtain ⟨new, hprepend, h⟩ := bind_eq_ok.mp h
  cases h
  have hsame := ihlOf_appRewritten ts tsAcc hudp hpdu hfirst
  refine safe_injectPacket_of_prependIphdr allocated ?_ ?_ hprepend
  · rw [hsame]
    exact hihl
  · rw [hsame, length_appRewritten hudp hpdu]
    exact hhead

/-- No datagram is counted: only the first timestamp is read. -/
private theorem safe_appInner_zero_iff {ihl : ℕ} :
    Safe (appInner env m ihl 0) ↔ 4 * ihl + sizeofUdphdr + 8 ≤ m.length := by
  rw [appInner, pduTimestamp, safe_load_bind]
  refine and_iff_left ?_
  unfold appScatter
  exact safe_ok _

/-- One datagram is counted: its round must stay in bounds. -/
private theorem safe_appInner_one_iff (hihl : 5 ≤ ihlOf m) (hhead : 4 * ihlOf m ≤ m.length) :
    Safe (appInner env m (ihlOf m) 1) ↔
      4 * ihlOf m + sizeofUdphdr + 8 ≤ m.length ∧ env.newOk 0 = true ∧
        4 * ihlOf m + udpLenAt m (4 * ihlOf m) ≤ m.length := by
  rw [appInner, pduTimestamp, safe_load_bind]
  refine and_congr_right fun hpdu => ?_
  generalize UInt64.ofNat (beVal (slice m (4 * ihlOf m + sizeofUdphdr) 8)) = ts
  have hfirst : 1 ≤ 4 * ihlOf m + sizeofUdphdr := by omega
  have hinject : ∀ r, appRound env ts (4 * ihlOf m + sizeofUdphdr) m (4 * ihlOf m) 0 0 = .ok r →
      Safe (injectAll env.injectOk 0 [(r.new, 0)] >>= fun injected =>
        .ok (Verdict.stolen, injected)) := by
    intro r hr
    rw [safe_bind_ok, safe_injectAll_cons]
    exact ⟨safe_injectPacket_of_appRound _ hihl hhead hfirst hr, safe_ok _⟩
  have hscatter : appScatter env ts (4 * ihlOf m + sizeofUdphdr) maxScatters 1 m (4 * ihlOf m) 0 0
      [] = appRound env ts (4 * ihlOf m + sizeofUdphdr) m (4 * ihlOf m) 0 0 >>= fun r =>
        .ok [r.new] := by
    rw [appScatter]
    rfl
  rw [hscatter, bind_assoc]
  simp only [ok_bind]
  refine (safe_bind_iff_left hinject).trans ?_
  rw [safe_appRound_iff env ts 0 0 hihl hhead hfirst, udpLenAt_appRewritten ts 0 hpdu,
    and_iff_right (by omega), and_iff_right hpdu, and_iff_right (.inl rfl)]

/-- Two datagrams are counted: the second round reads through the uninitialised pointer. -/
private theorem not_safe_appInner_two {newOk injectOk : ℕ → Bool} {ihl n : ℕ} :
    ¬ Safe (appInner (.strict newOk injectOk) m ihl (n + 2)) := by
  rintro ⟨r, h⟩
  rw [appInner] at h
  obtain ⟨firstTs, -, h⟩ := bind_eq_ok.mp h
  obtain ⟨built, hbuilt, -⟩ := bind_eq_ok.mp h
  obtain ⟨r, room, -, -, hrest⟩ := appScatter_succ_ok hbuilt
  exact Bool.false_ne_true (isSome_of_appScatter hrest 0 n.succ_pos)

/-- **Application aggregates that are taken apart in bounds.** -/
theorem safe_appDeagregate_iff {newOk injectOk : ℕ → Bool}
    (hproto : protocolOf m = agregatedApplicationEncapUdpProto) (hvalid : ValidOuter m) :
    Safe (appDeagregate (.strict newOk injectOk) m) ↔ OneDatagram newOk m := by
  obtain ⟨hihl, hhead, htot⟩ := hvalid
  rw [appDeagregate_eq _ (by omega) hproto (by omega), htot, OneDatagram]
  obtain ⟨n, hn⟩ : ∃ n, n = (m.length - 4 * ihlOf m) / (sizeofUdphdr + sizeofPacket) := ⟨_, rfl⟩
  rw [← hn]
  simp only [sizeofUdphdr, sizeofPacket] at hn ⊢
  match n, hn with
  | 0, hn =>
    rw [safe_appInner_zero_iff, and_iff_left (.inl (by omega))]
  | 1, hn =>
    refine (safe_appInner_one_iff hihl hhead).trans (and_congr_right fun _ => ?_)
    have htwo : m.length - 4 * ihlOf m < 2 * (8 + 25) := by omega
    rw [or_iff_right (by omega), and_iff_right htwo]
    rfl
  | n + 2, hn =>
    exact iff_of_false not_safe_appInner_two (by omega)

end Datagrams

/-! ### The hook -/

/-- **Which packets are taken apart in bounds.** Of the packets with a valid outer header and one of
the two protocols: the IP aggregates that are tiled, and the application aggregates that count as
one datagram at most. -/
theorem deaggregation_inBounds_iff (newOk injectOk : ℕ → Bool) (m : List UInt8)
    (hvalid : ValidOuter m)
    (hproto : protocolOf m = agregatedIpEncapIpProto ∨
      protocolOf m = agregatedApplicationEncapUdpProto) :
    Safe (deaggregationLocalInHook (.strict newOk injectOk) m) ↔
      protocolOf m = agregatedIpEncapIpProto ∧ TilesAggregate injectOk m ∨
        protocolOf m = agregatedApplicationEncapUdpProto ∧ OneDatagram newOk m := by
  have hlen : 20 ≤ m.length := by
    have := hvalid.ihl_ge
    have := hvalid.header_le
    omega
  have hne : agregatedIpEncapIpProto ≠ agregatedApplicationEncapUdpProto := by decide
  rw [deaggregationLocalInHook, ipProtocol_eq (by omega), ok_bind]
  obtain hip | happ := hproto
  · rw [hip, if_neg hne, if_pos rfl, safe_l3Deaggregate_iff hvalid, and_iff_right rfl,
      or_iff_left fun h => hne h.1]
    rfl
  · rw [happ, if_pos rfl, safe_appDeagregate_iff happ hvalid, and_iff_right rfl,
      or_iff_right fun h => hne h.1.symm]

/-- An IP aggregate of two packets. -/
def aggregateOfTwo : List UInt8 :=
  aggregateHeader agregatedIpEncapIpProto 126 1 2 ++ ((nodePacket 7).bytes ++ (nodePacket 2).bytes)

/-- The aggregate of two packets is taken apart in bounds. -/
theorem deaggregation_inBounds_two :
    ValidOuter aggregateOfTwo ∧
      Safe (deaggregationLocalInHook (.strict (fun _ => true) fun _ => true) aggregateOfTwo) := by
  have hvalid : ValidOuter aggregateOfTwo := ⟨by decide, by decide +kernel, by decide +kernel⟩
  have hproto : protocolOf aggregateOfTwo = agregatedIpEncapIpProto := by decide
  refine ⟨hvalid, (deaggregation_inBounds_iff _ _ _ hvalid (.inl hproto)).mpr (.inl ⟨hproto, ?_⟩)⟩
  decide +kernel

/-- An IP aggregate whose inner packet has the length `0` in its header. -/
def zeroLength : List UInt8 :=
  aggregateHeader agregatedIpEncapIpProto 73 1 2 ++ patch (nodePacket 5).bytes 2 [0, 0]

/-- An application aggregate of two datagrams, as the aggregator sends it. -/
def twoDatagrams : List UInt8 :=
  aggregateHeader agregatedApplicationEncapUdpProto 86 1 2 ++
    ((nodePacket 7).bytes.drop 20 ++ (nodePacket 2).bytes.drop 20)

/-- **Neither loop stays in bounds.** On an inner packet of length `0` the walk does not move, and
the 28th round writes behind the table; the second datagram of an application aggregate makes the
loop read through a pointer that was never assigned. -/
theorem deaggregation_outOfBounds :
    (ValidOuter zeroLength ∧ protocolOf zeroLength = agregatedIpEncapIpProto ∧
      deaggregationLocalInHook (.strict (fun _ => true) fun _ => true) zeroLength =
        .error (.index 255)) ∧
    ValidOuter twoDatagrams ∧ protocolOf twoDatagrams = agregatedApplicationEncapUdpProto ∧
      deaggregationLocalInHook (.strict (fun _ => true) fun _ => true) twoDatagrams =
        .error .uninitialised := by
  refine ⟨⟨⟨by decide, by decide, by decide⟩, by decide, by decide +kernel⟩,
    ⟨by decide, by decide, by decide⟩, by decide, by decide +kernel⟩

end MiaVita
