import MiaVita.FredFramework.Deaggregation

/-!
# The walk over an IP aggregate

`l3_deaggregate` is driven by the length fields of the inner packets, and compares none of them
with what is left of the aggregate. The walk stays inside the packet and inside its table exactly
when the inner packets tile what follows the outer header (`Tiles`): at most 27 of them, each with
its timestamp inside, unless the walk ends early at a packet of another protocol.

The argument follows the loop: what one round needs (`safe_l3Scatter_succ_iff`), then the whole
walk by induction on the slots left (`safe_walk_iff`), with the invariant that every packet put
into the table so far ends where the walk stands or before (`EndBy`).
-/

namespace MiaVita

open Bytes Memory Fallible

/-! ### One round -/

/-- The timestamp code of a round needs the timestamp in the object, and nothing else. -/
private theorem safe_stampPdu_bind {β : Type} {m : List UInt8} {pdu : ℕ} {ts tsAcc : UInt64}
    {firstTime : Bool} {f : List UInt8 × UInt64 → Except Fault β} :
    Safe (stampPdu m pdu ts tsAcc firstTime >>= f) ↔
      pdu + 8 ≤ m.length ∧ Safe (f (patch m pdu (be 8 (ts - tsAcc).toNat),
        if firstTime then tsAcc else tsAcc + (ts - tsAcc))) := by
  by_cases h : pdu + 8 ≤ m.length
  · rw [stampPdu_eq m pdu h, ok_bind, and_iff_right h]
  · refine iff_of_false ?_ fun h' => h h'.1
    rw [stampPdu, setHostTimestamp, store, if_neg (by rw [length_le]; exact h), error_bind,
      error_bind]
    exact not_safe_error _

section Round

variable {β : Type} {ts : UInt64} {aggLen room : ℕ} {m : List UInt8} {first accLen : ℕ}
  {tsAcc : UInt64} {firstTime : Bool} {scatters : List ℕ} {f : Scattered → Except Fault β}

/-- The loop goes on only if the header lies in the object and there is a slot left. -/
private theorem header_of_safe_l3Scatter (hacc : accLen < aggLen)
    (h : Safe (l3Scatter ts aggLen room m first accLen tsAcc firstTime scatters >>= f)) :
    first + 10 ≤ m.length ∧ 0 < room := by
  obtain ⟨b, hb⟩ := h
  obtain ⟨scattered, hscatter, -⟩ := bind_eq_ok.mp hb
  unfold l3Scatter at hscatter
  rw [if_neg (Nat.not_le.mpr hacc)] at hscatter
  obtain ⟨totLen, -, hscatter⟩ := bind_eq_ok.mp hscatter
  cases room with
  | zero => cases hscatter
  | succ room =>
    refine ⟨?_, room.succ_pos⟩
    obtain ⟨protocol, hprotocol, -⟩ := bind_eq_ok.mp hscatter
    by_contra hhead
    rw [ipProtocol, load, if_neg hhead] at hprotocol
    cases hprotocol

/-- **What a round needs**: the header in the object and, if the protocol is a supported one, the
timestamp in the object and the rest of the walk. -/
theorem safe_l3Scatter_succ_iff (hacc : accLen < aggLen) (hf : Safe (f .unsupported)) :
    Safe (l3Scatter ts aggLen (room + 1) m first accLen tsAcc firstTime scatters >>= f) ↔
      first + 10 ≤ m.length ∧ (supported (protocolAt m first) = true →
        first + (4 * ihlAt m first + 16) ≤ m.length ∧
        Safe (l3Scatter ts aggLen room (rewritten m first (ts - tsAcc)) (first + totLenAt m first)
          ((accLen + totLenAt m first) % 65536)
          (if firstTime then tsAcc else tsAcc + (ts - tsAcc)) false (first :: scatters) >>=
            f)) := by
  by_cases hhead : first + 10 ≤ m.length
  swap
  · exact iff_of_false (fun h => hhead (header_of_safe_l3Scatter hacc h).1) fun h => hhead h.1
  rw [and_iff_right hhead, l3Scatter, if_neg (Nat.not_le.mpr hacc), ipTotLen_at (by omega)]
  simp only [ok_bind, ipProtocol_at hhead]
  cases hsup : supported (protocolAt m first) with
  | false =>
    rw [if_pos rfl, ok_bind]
    exact iff_of_true hf fun h => absurd h (by decide)
  | true =>
    rw [if_neg (by decide), ipIhl_at (by omega), ok_bind, bind_assoc, clearUdpCheck,
      safe_store_bind]
    simp only [bind_assoc, safe_stampPdu_bind, List.length_cons, List.length_nil, sizeofUdphdr]
    constructor
    · rintro ⟨hcheck, hpdu, hrest⟩ -
      rw [length_patch hcheck] at hpdu
      exact ⟨by omega, hrest⟩
    · intro h
      obtain ⟨hpdu, hrest⟩ := h trivial
      have hcheck : first + 4 * ihlAt m first + 6 + [(0 : UInt8), 0].length ≤ m.length := by
        simp only [List.length_cons, List.length_nil]
        omega
      exact ⟨hcheck, by rw [length_patch hcheck]; omega, hrest⟩

end Round

/-! ### The whole walk -/

/-- **The walk stays in the object**, from the inner packet at `first` on, with `room` slots of the
table left. `m` is the object as the rounds before have left it and `base` the end of the outer
header. A packet that ends behind the object is left alone only if the accumulated length, kept to
16 bits, ends the walk and there is no memory to inject that packet (`lost`). -/
def Tiles (ts : UInt64) (base : ℕ) (lost : Bool) :
    ℕ → List UInt8 → ℕ → UInt64 → Bool → Prop
  | 0, _, _, _, _ => False
  | room + 1, m, first, tsAcc, firstTime =>
    first + 10 ≤ m.length ∧ (supported (protocolAt m first) = true →
      first + (4 * ihlAt m first + 16) ≤ m.length ∧
      (first + totLenAt m first = m.length ∨
        first + totLenAt m first < m.length ∧
          Tiles ts base lost room (rewritten m first (ts - tsAcc)) (first + totLenAt m first)
            (if firstTime then tsAcc else tsAcc + (ts - tsAcc)) false ∨
        m.length < first + totLenAt m first ∧
          m.length - base ≤ (first - base + totLenAt m first) % 65536 ∧ lost = true))

instance decidableTiles (ts : UInt64) (base : ℕ) (lost : Bool) :
    ∀ room m first tsAcc firstTime, Decidable (Tiles ts base lost room m first tsAcc firstTime)
  | 0, _, _, _, _ => inferInstanceAs (Decidable False)
  | room + 1, m, first, tsAcc, firstTime =>
    have := decidableTiles ts base lost room (rewritten m first (ts - tsAcc))
      (first + totLenAt m first) (if firstTime then tsAcc else tsAcc + (ts - tsAcc)) false
    inferInstanceAs (Decidable (_ ∧ (_ → _ ∧ (_ ∨ _ ∧ _ ∨ _))))

/-- `l3_deaggregate` after its loop. -/
def injectScattered (env : DeaggEnv) : Scattered → Except Fault (Verdict × List (List UInt8))
  | .unsupported => .ok (.drop, [])
  | .all m scatters => do
    let injected ← injectAll env.injectOk 0 (scatters.map fun ip => (m, ip))
    .ok (.stolen, injected)

/-- `l3_deaggregate` on an aggregate that starts with a packet of a supported protocol: the walk,
with the timestamp of that packet. -/
theorem l3Deaggregate_aggregate (env : DeaggEnv) (p : IpPacket) (c : List UInt8)
    (saddr daddr : UInt32) {header : List UInt8}
    (hheader : header = aggregateHeader agregatedIpEncapIpProto
      (sizeofIphdr + (p.bytes ++ c).length) saddr daddr)
    (hsup : supported (protocolOf p.bytes) = true)
    (hlen : sizeofIphdr + (p.bytes ++ c).length < 65536) :
    l3Deaggregate env (header ++ (p.bytes ++ c)) =
      l3Scatter p.timestamp (p.bytes ++ c).length maxScatters (header ++ (p.bytes ++ c))
        header.length 0 0 true [] >>= injectScattered env := by
  obtain ⟨hihl, htot, -, -⟩ := fields_aggregateHeader
    (show agregatedIpEncapIpProto < 256 by decide) (sizeofIphdr + (p.bytes ++ c).length) saddr daddr
    (p.bytes ++ c)
  rw [← hheader] at hihl htot
  have hlength : 4 * 5 = header.length := by rw [hheader, length_aggregateHeader]
  have hlong := p.length_ge
  -- the first inner packet, seen from the whole object
  obtain ⟨hihlAt, -, hprotocolAt⟩ := fieldsAt_mid header p.bytes c (by omega)
  have hts : pduTimestamp (header ++ (p.bytes ++ c))
      (header.length + (4 * ihlOf p.bytes + sizeofUdphdr)) = .ok p.timestamp := load_mid p.stamped
  have hagg : (sizeofIphdr + (p.bytes ++ c).length + 65536 - header.length) % 65536 =
      (p.bytes ++ c).length := by
    simp only [sizeofIphdr] at hlen ⊢
    omega
  have hsize : header.length + p.bytes.length ≤ (header ++ (p.bytes ++ c)).length := by
    rw [List.length_append, List.length_append]
    omega
  rw [l3Deaggregate_eq env (by omega), htot, hihl, Nat.mod_eq_of_lt hlen, hlength, hagg, l3Inner,
    ipProtocol_at (by omega), ok_bind, hprotocolAt, hsup, if_neg (by decide),
    ipIhl_at (by omega), ok_bind, hihlAt, hts, ok_bind]
  rfl

/-- Every packet put into the table ends at `first` or before. -/
def EndBy (m : List UInt8) (scatters : List ℕ) (first : ℕ) : Prop :=
  ∀ s ∈ scatters, s + 4 ≤ m.length ∧ s + totLenAt m s ≤ first

section Walk

variable {env : DeaggEnv} {ts : UInt64} {room : ℕ} {m : List UInt8} {base first : ℕ}
  {tsAcc : UInt64} {firstTime : Bool} {scatters : List ℕ}

/-- A round changes no length field of a packet before. -/
private theorem totLenAt_rewritten {s : ℕ} (t : UInt64) (hs : s ≤ first)
    (hpdu : first + (4 * ihlAt m first + 16) ≤ m.length) :
    totLenAt (rewritten m first t) s = totLenAt m s := by
  rw [totLenAt, slice_rewritten t hpdu (by omega), totLenAt]

/-- A round leaves the packets of the table where they are. -/
private theorem EndBy.rewritten (t : UInt64) (h : EndBy m scatters first)
    (hpdu : first + (4 * ihlAt m first + 16) ≤ m.length) :
    EndBy (rewritten m first t) scatters first := by
  intro s hs
  obtain ⟨hlen, hend⟩ := h s hs
  rw [length_rewritten t hpdu, totLenAt_rewritten t (by omega) hpdu]
  exact ⟨hlen, hend⟩

/-- A packet is put into the table, and the walk goes on behind it. -/
private theorem EndBy.cons (h : EndBy m scatters first) (hhead : first + 4 ≤ m.length) :
    EndBy m (first :: scatters) (first + totLenAt m first) := by
  intro s hs
  obtain rfl | hs := List.mem_cons.mp hs
  · exact ⟨hhead, le_rfl⟩
  · obtain ⟨hlen, hend⟩ := h s hs
    exact ⟨hlen, by omega⟩

/-- When the walk has ended, only the packet it ended with can leave the object, and only if there
is memory to inject it. -/
private theorem EndBy.safe_injectScattered_iff (h : EndBy m scatters first)
    (hhead : first + 4 ≤ m.length) :
    Safe (injectScattered env (.all m (first :: scatters))) ↔
      (env.injectOk 0 = true → first + totLenAt m first ≤ m.length) := by
  have hfirst : first ≤ m.length := by omega
  have hrest : Safe (injectAll env.injectOk (0 + 1) (scatters.map fun ip => (m, ip))) := by
    refine safe_injectAll _ _ fun s hs => ?_
    obtain ⟨ip, hip, rfl⟩ := List.mem_map.mp hs
    obtain ⟨hlen, hend⟩ := h ip hip
    exact ⟨hlen, hend.trans hfirst⟩
  rw [injectScattered, safe_bind_ok, List.map_cons, safe_injectAll_cons, and_iff_left hrest,
    safe_injectPacket_iff, and_iff_right hhead]

theorem l3Scatter_of_le {aggLen accLen : ℕ} (h : aggLen ≤ accLen) :
    l3Scatter ts aggLen room m first accLen tsAcc firstTime scatters =
      .ok (.all m scatters) := by
  unfold l3Scatter
  rw [if_pos h]

/-- After a round on a packet that reaches the end of the object or leaves it, the next header lies
outside: the walk must end here, and the packet must end in the object or not be copied. -/
private theorem safe_walk_end_iff (hbase : base ≤ first) (hhead : first + 4 ≤ m.length)
    (hlen : m.length < 65536) (hend : EndBy m scatters first)
    (hout : m.length ≤ first + totLenAt m first) :
    Safe (l3Scatter ts (m.length - base) room m (first + totLenAt m first)
        ((first - base + totLenAt m first) % 65536) tsAcc firstTime (first :: scatters) >>=
      injectScattered env) ↔
      first + totLenAt m first = m.length ∨ m.length < first + totLenAt m first ∧
        m.length - base ≤ (first - base + totLenAt m first) % 65536 ∧
        (!env.injectOk 0) = true := by
  have hinject : Safe (injectScattered env (.all m (first :: scatters))) ↔
      (env.injectOk 0 = true → first + totLenAt m first ≤ m.length) :=
    hend.safe_injectScattered_iff hhead
  obtain heq | hgt := hout.eq_or_lt'
  · rw [l3Scatter_of_le (by omega), ok_bind, hinject]
    exact iff_of_true (fun _ => heq.le) (.inl heq)
  rw [or_iff_right hgt.ne', and_iff_right hgt]
  by_cases hstop : m.length - base ≤ (first - base + totLenAt m first) % 65536
  · rw [l3Scatter_of_le hstop, ok_bind, hinject, and_iff_right hstop, Bool.not_eq_true']
    constructor
    · intro h
      by_contra hok
      exact absurd (h (Bool.eq_true_of_not_eq_false hok)) (Nat.not_le.mpr hgt)
    · intro hlost hok
      rw [hok] at hlost
      cases hlost
  · refine iff_of_false (fun h => ?_) fun h => hstop h.1
    have := (header_of_safe_l3Scatter (Nat.not_le.mp hstop) h).1
    omega

/-- **The walk, to its end.** The invariant is that the length accumulated is the distance from the
outer header and that every packet in the table ends where the walk stands. -/
theorem safe_walk_iff (hbase : base ≤ first) (hfirst : first < m.length) (hlen : m.length < 65536)
    (hend : EndBy m scatters first) :
    Safe (l3Scatter ts (m.length - base) room m first (first - base) tsAcc firstTime scatters >>=
      injectScattered env) ↔ Tiles ts base (!env.injectOk 0) room m first tsAcc firstTime := by
  have hacc : first - base < m.length - base := by omega
  induction room generalizing m first tsAcc firstTime scatters with
  | zero => exact iff_of_false (fun h => absurd (header_of_safe_l3Scatter hacc h).2 (by decide)) id
  | succ room ih =>
    have hunsupported : Safe (injectScattered env .unsupported) := safe_ok _
    rw [safe_l3Scatter_succ_iff hacc hunsupported, Tiles]
    refine and_congr_right fun hhead => imp_congr_right fun _ => and_congr_right fun hpdu => ?_
    -- What the round has left of the object has the same lengths.
    have hend' := hend.rewritten (ts - tsAcc) hpdu
    have htot := totLenAt_rewritten (ts - tsAcc) le_rfl hpdu
    rw [← htot, ← length_rewritten (ts - tsAcc) hpdu]
    rw [← length_rewritten (ts - tsAcc) hpdu] at hfirst hlen hhead
    generalize rewritten m first (ts - tsAcc) = m' at hend' hfirst hlen hhead ⊢
    by_cases hlt : first + totLenAt m' first < m'.length
    · have hacc' : (first - base + totLenAt m' first) % 65536 =
          first + totLenAt m' first - base := by omega
      rw [hacc', or_iff_right hlt.ne, and_iff_right hlt, or_iff_left fun h => hlt.not_gt h.1]
      exact ih (by omega) hlt hlen (hend'.cons (by omega)) (by omega)
    · refine (safe_walk_end_iff hbase (by omega) hlen hend' (Nat.not_lt.mp hlt)).trans ?_
      exact or_congr_right (or_iff_right fun h => hlt h.1).symm

end Walk

/-- The timestamp of the first inner packet. -/
def firstTimestamp (m : List UInt8) (iph : ℕ) : UInt64 :=
  UInt64.ofNat (beVal (slice m (iph + (4 * ihlAt m iph + sizeofUdphdr)) 8))

/-- **The inner packets of an IP aggregate tile it**, as the walk from the outer header on sees
them. -/
def TilesAggregate (injectOk : ℕ → Bool) (m : List UInt8) : Prop :=
  Tiles (firstTimestamp m (4 * ihlOf m)) (4 * ihlOf m) (!injectOk 0) maxScatters m (4 * ihlOf m) 0
    true

instance (injectOk : ℕ → Bool) (m : List UInt8) : Decidable (TilesAggregate injectOk m) :=
  decidableTiles _ _ _ _ _ _ _ _

section Aggregate

variable {env : DeaggEnv} {m : List UInt8}

/-- What `l3_deaggregate` does before its loop needs nothing that the first round does not. -/
private theorem safe_l3Inner_iff {iph : ℕ} (hlen : m.length < 65536) :
    Safe (l3Inner env m iph (m.length - iph)) ↔
      Tiles (firstTimestamp m iph) iph (!env.injectOk 0) maxScatters m iph 0 true := by
  by_cases hhead : iph + 10 ≤ m.length
  swap
  · refine iff_of_false ?_ fun h => hhead h.1
    rw [l3Inner, ipProtocol, load, if_neg hhead, error_bind]
    exact not_safe_error _
  rw [l3Inner, ipProtocol_at hhead, ok_bind]
  cases hsup : supported (protocolAt m iph) with
  | false =>
    rw [if_pos rfl]
    refine iff_of_true (safe_ok _) ⟨hhead, fun h => ?_⟩
    rw [hsup] at h
    cases h
  | true =>
    rw [if_neg (by decide), ipIhl_at (by omega), ok_bind, pduTimestamp, safe_load_bind]
    have hwalk : Safe (l3Scatter (firstTimestamp m iph) (m.length - iph) maxScatters m iph
        (iph - iph) 0 true [] >>= injectScattered env) ↔ _ :=
      safe_walk_iff le_rfl (by omega) hlen fun s hs => absurd hs List.not_mem_nil
    rw [Nat.sub_self] at hwalk
    refine (and_congr_right fun _ => hwalk).trans (and_iff_right_of_imp fun htiles => ?_)
    have := (htiles.2 hsup).1
    simp only [sizeofUdphdr]
    omega

theorem safe_l3Deaggregate_iff (hvalid : ValidOuter m) :
    Safe (l3Deaggregate env m) ↔ TilesAggregate env.injectOk m := by
  obtain ⟨hihl, hhead, htot⟩ := hvalid
  have hlt := totLenOf_lt m
  have hagg : (totLenOf m + 65536 - 4 * ihlOf m) % 65536 = m.length - 4 * ihlOf m := by omega
  rw [l3Deaggregate_eq env (by omega), hagg, safe_l3Inner_iff (htot ▸ hlt), TilesAggregate]

end Aggregate

end MiaVita
