import MiaVita.FredFramework.Emission
import MiaVita.FredFramework.Sender
import MiaVita.FredFramework.Tiling

/-!
# How large an aggregate gets

A hook compares what is buffered, together with the new packet, with the size of the buffer, and
when that size is reached it sends both. So an aggregate is what had room in the buffer and one
packet more, and two limits that are meant to hold do not.

* The receiver has a table for 27 packets. An aggregate has at most 27 exactly when 27 records of
  the smallest kind fill the buffer (`fitsScatterTable_iff`): 891 bytes for datagrams, 1431 for IP
  packets, where sizes up to 1480 are allowed.
* The configured size is that of the aggregate. It is exceeded by every aggregate whose last packet
  does not fill the buffer to the byte (`withinSize_iff`).
-/

namespace MiaVita

open Bytes Memory StampChain Fallible

/-! ### Filling a buffer -/

private theorem Offer.length_stacked (o : Offer) (held : UInt32 → List IpPacket) :
    (o.stacked held).length = (chain ((held o.daddr).map o.level.recordOf)).length + o.len := by
  rw [stacked, length_chain, length_chain, List.map_cons, List.map_cons, List.sum_cons,
    Nat.add_comm]
  rfl

/-- The bytes a level buffers of the smallest packet. -/
def Level.least : Level → ℕ
  | app => sizeofUdphdr + sizeofPacket
  | ip => sizeofIphdr + (sizeofUdphdr + sizeofPacket)

/-- A packet as the nodes send them, for the hook of a level. -/
def nodeOffer (level : Level) : Offer :=
  ⟨level, (nodePacket 0).toIpPacket, level.takes_toIpPacket _, 16, 0⟩

/-- Its arrival, with every allocation granted. -/
def nodeEvent (level : Level) : SenderEvent := .packet (nodeOffer level) 0 true .ok

private theorem len_nodeOffer (level : Level) : (nodeOffer level).len = level.least := by
  cases level <;> decide

/-- The aggregate of `n` such packets. -/
def fullAggregate (level : Level) (n : ℕ) : Aggregate where
  level := level
  packets := List.replicate n (nodePacket 0).toIpPacket
  bytes :=
    let stacked := chain ((List.replicate n (nodePacket 0).toIpPacket).map level.recordOf)
    aggregateHeader level.proto (sizeofIphdr + stacked.length) 0 (nodeOffer level).daddr ++ stacked

section Fill

variable {size : Level → ℕ} {level : Level} {k : ℕ}

/-- The state after `k` packets that fit. -/
structure Filled (size : Level → ℕ) (level : Level) (k : ℕ) (s : Sender) : Prop where
  inv : s.Inv size
  noneMissing : none ∉ (s.levels level).buffers
  held_eq : (s.levels level).held (nodeOffer level).daddr =
    List.replicate k (nodePacket 0).toIpPacket

/-- The next packet is held, or fills the buffer. -/
private theorem Filled.step {s : Sender} (h : Filled size level k s) (sourceIp : UInt32) :
    ∃ s', senderStep size sourceIp s (nodeEvent level) = .ok s' ∧
      ((k + 1) * level.least < size level → Filled size level (k + 1) s') ∧
      (size level ≤ (k + 1) * level.least → fullAggregate level (k + 1) ∈ s'.aggregates) := by
  have hkeeps : Keeps (size level) (nodeOffer level).level (s.levels level).buffers
    (s.levels level).held := h.inv.keeps level
  have hlen : ((nodeOffer level).stacked (s.levels level).held).length =
      (k + 1) * level.least := by
    rw [Offer.length_stacked, h.held_eq, length_chain, List.map_replicate, List.map_replicate,
      List.sum_replicate_nat, Nat.succ_mul, len_nodeOffer]
    exact congrArg (k * · + _) (len_nodeOffer level)
  obtain ⟨sent, ls, happly, hnone⟩ := hkeeps.packet_returns sourceIp 0 .ok h.noneMissing
  have hstep : senderStep size sourceIp s (nodeEvent level) =
      .ok ⟨Function.update s.levels level ls, s.aggregates ++ sent⟩ :=
    bind_eq_ok.mpr ⟨(sent, ls), happly, rfl⟩
  refine ⟨_, hstep, fun hfit => ?_, fun hfull => ?_⟩
  · obtain ⟨-, ⟨-, -, hheld⟩ | ⟨hge, -⟩ | ⟨hgranted, -⟩⟩ := hkeeps.packet happly
    · refine ⟨h.inv.step hstep, ?_, ?_⟩
      · simpa only [Function.update_self] using hnone
      · simp only [Function.update_self]
        rw [hheld, h.held_eq]
        rfl
    · rw [hlen] at hge
      exact absurd hfit (Nat.not_lt.mpr hge)
    · exact absurd ⟨rfl, rfl, rfl⟩ hgranted
  · obtain ⟨-, ⟨hlt, -, -⟩ | ⟨-, -, rfl⟩ | ⟨hgranted, -⟩⟩ := hkeeps.packet happly
    · rw [hlen] at hlt
      exact absurd hlt (Nat.not_lt.mpr hfull)
    · refine List.mem_append_right _ (List.mem_singleton.mpr ?_)
      rw [Offer.stacked, h.held_eq]
      rfl
    · exact absurd ⟨rfl, rfl, rfl⟩ hgranted

/-- **Filling a buffer**: packets that fit are held. -/
theorem exec_fill (sourceIp : UInt32) (hk : k = 0 ∨ k * level.least < size level) :
    ∃ s, Run.execM (senderStep size sourceIp) .start (List.replicate k (nodeEvent level)) = .ok s ∧
      Filled size level k s := by
  induction k with
  | zero => exact ⟨.start, rfl, Sender.inv_start size, List.not_mem_nil, rfl⟩
  | succ k ih =>
    have hlt := hk.resolve_left k.succ_ne_zero
    obtain ⟨s, hs, hfilled⟩ := ih (.inr (by rw [Nat.succ_mul] at hlt; omega))
    obtain ⟨s', hs', hnext, -⟩ := hfilled.step sourceIp
    refine ⟨s', ?_, hnext hlt⟩
    rw [List.replicate_succ']
    exact Run.execM_append_ok hs (Run.execM_cons_ok.mpr ⟨s', hs', rfl⟩)

/-- **The packet that no longer fits** leaves with those that did. -/
theorem exec_full (size : Level → ℕ) (level : Level) (sourceIp : UInt32)
    (hk : k * level.least < size level)
    (hfull : size level ≤ (k + 1) * level.least) :
    ∃ s, Run.execM (senderStep size sourceIp) .start
        (List.replicate (k + 1) (nodeEvent level)) = .ok s ∧
      fullAggregate level (k + 1) ∈ s.aggregates := by
  obtain ⟨s, hs, hfilled⟩ := exec_fill sourceIp (.inr hk)
  obtain ⟨s', hs', -, hnext⟩ := hfilled.step sourceIp
  refine ⟨s', ?_, hnext hfull⟩
  rw [List.replicate_succ']
  exact Run.execM_append_ok hs (Run.execM_cons_ok.mpr ⟨s', hs', rfl⟩)

/-- If `n` packets leave room in the buffer, then some aggregate has more than `n`. -/
private theorem exists_full {n : ℕ} (hn : n * level.least < size level) (sourceIp : UInt32) :
    ∃ k s, Run.execM (senderStep size sourceIp) .start (List.replicate k (nodeEvent level)) =
      .ok s ∧ ∃ a ∈ s.aggregates, n < a.packets.length := by
  have hpos : 0 < level.least := by cases level <;> decide
  obtain ⟨k, hk⟩ : ∃ k, k = (size level - 1) / level.least := ⟨_, rfl⟩
  have hfit : k * level.least < size level := by
    have := Nat.div_mul_le_self (size level - 1) level.least
    rw [← hk] at this
    omega
  have hfull : size level ≤ (k + 1) * level.least := by
    have := Nat.lt_mul_div_succ (size level - 1) hpos
    rw [← hk, Nat.mul_comm] at this
    omega
  have hle : n ≤ k := by
    rw [hk, Nat.le_div_iff_mul_le hpos]
    omega
  obtain ⟨s, hs, hmem⟩ := exec_full size level sourceIp hfit hfull
  refine ⟨k + 1, s, hs, _, hmem, ?_⟩
  rw [fullAggregate, List.length_replicate]
  exact Nat.lt_succ_of_le hle

end Fill

/-! ### The configured size -/

/-- No aggregate of two packets or more is longer than its outer header and the buffer size of its
level. -/
private def WithinSize (size : Level → ℕ) (s : Sender) : Prop :=
  ∀ a ∈ s.aggregates, 2 ≤ a.packets.length → a.bytes.length ≤ sizeofIphdr + size a.level

/-- **The buffer is not overshot**: a packet for a destination with buffered data fits into the
rest of the buffer, or fills it to the byte. -/
def NoOvershoot (s : Sender) : SenderEvent → Prop
  | .packet o _ created expand => Granted created expand →
      ∀ b, some b ∈ (s.levels o.level).buffers → b.ip = o.daddr → 0 < b.bufferDataLen →
        b.bufferDataLen + o.len ≤ b.bufferLen
  | _ => True

/-- Overshooting, in terms of the packets held. -/
private theorem Keeps.overshoot_iff {size : ℕ} {o : Offer} {buffers : List (Option AggregateBuffer)}
    {held : UInt32 → List IpPacket} (h : Keeps size o.level buffers held) :
    (∀ b, some b ∈ buffers → b.ip = o.daddr → 0 < b.bufferDataLen →
        b.bufferDataLen + o.len ≤ b.bufferLen) ↔
      (held o.daddr ≠ [] → (o.stacked held).length ≤ size) := by
  rw [o.length_stacked]
  constructor
  · intro hroom hne
    obtain ⟨b, hb, hip⟩ : ∃ b, some b ∈ buffers ∧ b.ip = o.daddr := by
      by_contra hnone
      exact hne (eq_nil_of_chain (h.absent o.daddr fun b hb hip => hnone ⟨b, hb, hip⟩))
    have hholds := h.holds b hb
    rw [hip] at hholds
    have hroom := hroom b hb hip (by
      rw [hholds.dataLen_eq, List.length_pos_iff]
      exact chain_ne_nil (by simpa using hne))
    rwa [hholds.dataLen_eq, hholds.len_eq] at hroom
  · intro hle b hb hip hpos
    have hholds := h.holds b hb
    rw [hip] at hholds
    rw [hholds.dataLen_eq] at hpos ⊢
    rw [hholds.len_eq]
    refine hle fun hnil => ?_
    rw [hnil] at hpos
    exact Nat.lt_irrefl 0 hpos

/-- One step exceeds the size exactly when it overshoots the buffer. -/
private theorem withinSize_step {size : Level → ℕ} {sourceIp : UInt32} {s s' : Sender}
    {e : SenderEvent} (hinv : s.Inv size) (h : senderStep size sourceIp s e = .ok s') :
    WithinSize size s' ↔ WithinSize size s ∧ NoOvershoot s e := by
  obtain ⟨sent, ls, happly, rfl⟩ := senderStep_ok h
  have hkeeps := hinv.keeps e.level
  rw [WithinSize, List.forall_mem_append]
  refine and_congr_right fun _ => ?_
  cases e with
  | packet o ifaAddress created expand =>
    have hkeeps : Keeps (size o.level) o.level (s.levels o.level).buffers
      (s.levels o.level).held := hkeeps
    have hover := hkeeps.overshoot_iff
    have hne : 2 ≤ (o.packet :: (s.levels o.level).held o.daddr).length ↔
        (s.levels o.level).held o.daddr ≠ [] := by
      rw [List.length_cons, ← List.length_pos_iff]
      omega
    obtain ⟨-, ⟨hfit, rfl, -⟩ | ⟨-, hgranted, rfl⟩ | ⟨hgranted, rfl⟩⟩ := hkeeps.packet happly
    · exact iff_of_true (by simp) fun _ => hover.mpr fun _ => hfit.le
    · rw [List.forall_mem_singleton, List.length_append, length_aggregateHeader,
        Nat.add_le_add_iff_left, hne, NoOvershoot, imp_iff_right hgranted]
      exact hover.symm
    · exact iff_of_true (by simp) fun hgranted' => absurd hgranted' hgranted
  | bystander p ifaAddress created expand =>
    obtain ⟨-, rfl⟩ := hkeeps.bystander happly
    exact iff_of_true (by simp) trivial
  | pass level allocs =>
    obtain ⟨-, hsent⟩ := hkeeps.pass happly
    refine iff_of_true (fun a ha _ => ?_) trivial
    obtain ⟨d, hne, rfl⟩ := hsent a ha
    have hlt := (hkeeps.lt d).resolve_left hne
    rw [List.length_append, length_aggregateHeader]
    exact Nat.add_le_add_left hlt.le _

/-- **Aggregates within the configured size.** For any buffer sizes, in any run of packets through
the two hooks and passes of the flush thread: no aggregate of two packets or more has more bytes
behind its outer header than the buffer size of its level, if and only if no packet overshoots the
buffer it is to be stacked on. -/
theorem withinSize_iff (size : Level → ℕ) (sourceIp : UInt32) (es : List SenderEvent) (s : Sender)
    (h : Run.execM (senderStep size sourceIp) .start es = .ok s) :
    (∀ a ∈ s.aggregates, 2 ≤ a.packets.length → a.bytes.length ≤ sizeofIphdr + size a.level) ↔
      Run.AllStepsM (senderStep size sourceIp) NoOvershoot .start es := by
  have hstart : WithinSize size .start := fun a ha => absurd ha List.not_mem_nil
  have hexact := Run.execM_iff (fun _ _ _ => Sender.Inv.step) (fun _ _ _ => withinSize_step)
    (Sender.inv_start size) h
  exact hexact.trans (and_iff_right hstart)

/-- Two packets that fill a buffer of 106 bytes to the byte leave within its size. -/
theorem withinSize_two :
    ∃ s, Run.execM (senderStep (fun _ => 106) 0) .start (List.replicate 2 (nodeEvent .ip)) =
        .ok s ∧ fullAggregate .ip 2 ∈ s.aggregates ∧
      ((∀ a ∈ s.aggregates, 2 ≤ a.packets.length → a.bytes.length ≤ sizeofIphdr + 106) ↔
        Run.AllStepsM (senderStep (fun _ => 106) 0) NoOvershoot .start
          (List.replicate 2 (nodeEvent .ip))) := by
  obtain ⟨s, hs, hmem⟩ := exec_full (fun _ => 106) .ip (k := 1) 0 (by decide) (by decide)
  exact ⟨s, hs, hmem, withinSize_iff _ _ _ s hs⟩

/-- **Aggregates do exceed the configured size.** With the default of 256 bytes at the application
level, seven datagrams of 33 bytes wait for an eighth and leave with it: 264 bytes behind the
header. -/
theorem overshoot_default :
    ∃ s, Run.execM (senderStep (fun _ => 256) 0) .start (List.replicate 8 (nodeEvent .app)) =
        .ok s ∧ ∃ a ∈ s.aggregates, a.level = .app ∧ a.packets.length = 8 ∧
          a.bytes.length = sizeofIphdr + 264 := by
  obtain ⟨s, hs, hmem⟩ := exec_full (fun _ => 256) .app (k := 7) 0 (by decide) (by decide)
  exact ⟨s, hs, _, hmem, rfl, rfl, by decide +kernel⟩

/-! ### The receiver's table -/

private theorem indexSafe_injectAll (injectOk : ℕ → Bool) (k : ℕ)
    (scatters : List (List UInt8 × ℕ)) :
    IndexSafe (injectAll injectOk k scatters) := by
  induction scatters generalizing k with
  | nil => exact indexSafe_ok _
  | cons s scatters ih =>
    have hpacket : IndexSafe (injectPacket (injectOk k) s.1 s.2) := by
      refine (indexSafe_load _ _ _ _).bind fun totLen _ => ?_
      cases injectOk k with
      | false => exact indexSafe_ok _
      | true => exact (indexSafe_load _ _ _ _).bind fun _ _ => indexSafe_ok _
    exact hpacket.bind fun _ _ => (ih (k + 1)).bind fun _ _ => indexSafe_ok _

private theorem indexSafe_swapTimestamp (m : List UInt8) (pdu : ℕ) :
    IndexSafe (swapTimestamp m pdu) :=
  (indexSafe_load _ _ _ _).bind fun _ _ => indexSafe_store _ _ _

private theorem indexSafe_stampPdu (m : List UInt8) (pdu : ℕ) (ts tsAcc : UInt64)
    (firstTime : Bool) :
    IndexSafe (stampPdu m pdu ts tsAcc firstTime) :=
  (indexSafe_store _ _ _).bind fun _ _ => (indexSafe_load _ _ _ _).bind fun _ _ =>
    (indexSafe_swapTimestamp _ _).bind fun _ _ => indexSafe_ok _

private theorem indexSafe_prependIphdr (m : List UInt8) (udph len : ℕ) :
    IndexSafe (prependIphdr m udph len) := by
  refine (indexSafe_load _ _ _ _).bind fun _ _ => (indexSafe_load _ _ _ _).bind fun _ _ =>
    (indexSafe_store _ _ _).bind fun _ _ => (indexSafe_load _ _ _ _).bind fun _ _ =>
    (indexSafe_store _ _ _).bind fun _ _ => ?_
  exact (indexSafe_store _ _ _).bind fun _ _ => (indexSafe_store _ _ _).bind fun _ _ =>
    (indexSafe_store _ _ _).bind fun _ _ => (indexSafe_load _ _ _ _).bind fun _ _ =>
    indexSafe_store _ _ _

private theorem indexSafe_appRound (env : DeaggEnv) (ts : UInt64) (first : ℕ) (m : List UInt8)
    (udph : ℕ) (tsAcc : UInt64) (k : ℕ) : IndexSafe (appRound env ts first m udph tsAcc k) := by
  have hwild : IndexSafe (accumulateWild (env.wild (k - 1)) tsAcc (k = 0)) := by
    intro i h
    unfold accumulateWild at h
    split_ifs at h
    split at h <;> cases h
  refine (indexSafe_store _ _ _).bind fun _ _ => (indexSafe_store _ _ _).bind fun _ _ =>
    hwild.bind fun _ _ => (indexSafe_swapTimestamp _ _).bind fun _ _ =>
    (indexSafe_load _ _ _ _).bind fun _ _ => ?_
  split_ifs
  · exact fun i h => nomatch h
  · exact (indexSafe_prependIphdr _ _ _).bind fun _ _ => indexSafe_ok _

/-- The table is large enough for the datagrams counted. -/
private theorem indexSafe_appScatter (env : DeaggEnv) (ts : UInt64) (first : ℕ) {room n : ℕ}
    (m : List UInt8) (udph : ℕ) (tsAcc : UInt64) (k : ℕ) (scatters : List (List UInt8))
    (h : n ≤ room) :
    IndexSafe (appScatter env ts first room n m udph tsAcc k scatters) := by
  induction n generalizing room m udph tsAcc k scatters with
  | zero =>
    unfold appScatter
    exact indexSafe_ok _
  | succ n ih =>
    obtain ⟨room, rfl⟩ : ∃ r, room = r + 1 := ⟨room - 1, by omega⟩
    rw [appScatter]
    exact (indexSafe_appRound _ _ _ _ _ _ _).bind fun r _ => ih _ _ _ _ _ (by omega)

section Round

variable {ts : UInt64} {aggLen room : ℕ} {m : List UInt8} {first accLen : ℕ}
  {tsAcc : UInt64} {firstTime : Bool} {scatters : List ℕ}

/-- A walk that ends with the packet it is at needs one slot. -/
private theorem indexSafe_l3Scatter_last
    (h : ∀ n, ipTotLen m first = .ok n → aggLen ≤ (accLen + n) % 65536) :
    IndexSafe (l3Scatter ts aggLen (room + 1) m first accLen tsAcc firstTime scatters) := by
  rw [l3Scatter]
  split_ifs
  · exact indexSafe_ok _
  refine (indexSafe_load _ _ _ _).bind fun totLen htotLen =>
    (indexSafe_load _ _ _ _).bind fun protocol _ => ?_
  split_ifs
  · exact indexSafe_ok _
  refine (indexSafe_load _ _ _ _).bind fun ihl _ => (indexSafe_store _ _ _).bind fun m' _ =>
    (indexSafe_stampPdu _ _ _ _ _).bind fun stamped _ => ?_
  simp only [l3Scatter_of_le (h totLen htotLen)]
  exact indexSafe_ok _

/-- A round on a packet of a supported protocol: the walk goes on behind it, and what lies there is
as it was. -/
private theorem l3Scatter_packet (q : IpPacket) (a c : List UInt8)
    (hsup : supported (protocolOf q.bytes) = true) (hacc : accLen < aggLen) :
    l3Scatter ts aggLen (room + 1) (a ++ (q.bytes ++ c)) a.length accLen tsAcc firstTime scatters =
      l3Scatter ts aggLen room (a ++ rewritten q.bytes 0 (ts - tsAcc) ++ c)
        (a ++ rewritten q.bytes 0 (ts - tsAcc)).length ((accLen + q.bytes.length) % 65536)
        (if firstTime then tsAcc else tsAcc + (ts - tsAcc)) false (a.length :: scatters) := by
  have hlong := q.length_ge
  have hpdu : 4 * ihlOf q.bytes + 16 ≤ q.bytes.length := q.stamped
  have hend : (a ++ rewritten q.bytes 0 (ts - tsAcc)).length = a.length + q.bytes.length := by
    rw [List.length_append, length_rewritten _ (by rw [Nat.zero_add]; exact hpdu)]
  rw [l3Scatter_mid a c hacc (by omega) hpdu hsup q.totLen_eq, hend, List.append_assoc]

/-- **The table is large enough for a sequence of packets**: by induction on the packets, of which
each round takes one. -/
theorem indexSafe_l3Scatter (qs : List IpPacket) (a : List UInt8) (hroom : qs.length ≤ room)
    (hsup : ∀ q ∈ qs, supported (protocolOf q.bytes) = true)
    (hagg : aggLen = accLen + (qs.map fun q => q.bytes.length).sum) (hlt : aggLen < 65536) :
    IndexSafe (l3Scatter ts aggLen room (a ++ (qs.map IpPacket.bytes).flatten) a.length accLen
      tsAcc firstTime scatters) := by
  induction qs generalizing a room accLen tsAcc firstTime scatters with
  | nil =>
    rw [l3Scatter_of_le (by simp [hagg])]
    exact indexSafe_ok _
  | cons q qs ih =>
    rw [List.length_cons] at hroom
    obtain ⟨room, rfl⟩ : ∃ r, room = r + 1 := ⟨room - 1, by omega⟩
    obtain ⟨hq, hqs⟩ := List.forall_mem_cons.mp hsup
    have hlong := q.length_ge
    rw [List.map_cons, List.sum_cons] at hagg
    rw [List.map_cons, List.flatten_cons, l3Scatter_packet q a _ hq (by omega),
      Nat.mod_eq_of_lt (by omega)]
    exact ih _ (by omega) hqs (by omega)

/-- **The table is too small for more packets**: the round after the last slot leaves it. -/
theorem l3Scatter_overflow (qs : List IpPacket) (a : List UInt8) (hroom : room < qs.length)
    (hsup : ∀ q ∈ qs, supported (protocolOf q.bytes) = true)
    (hagg : aggLen = accLen + (qs.map fun q => q.bytes.length).sum) (hlt : aggLen < 65536) :
    l3Scatter ts aggLen room (a ++ (qs.map IpPacket.bytes).flatten) a.length accLen tsAcc firstTime
      scatters = .error (.index 255) := by
  induction qs generalizing a room accLen tsAcc firstTime scatters with
  | nil => exact absurd hroom (Nat.not_lt_zero room)
  | cons q qs ih =>
    obtain ⟨hq, hqs⟩ := List.forall_mem_cons.mp hsup
    have hlong := q.length_ge
    rw [List.map_cons, List.sum_cons] at hagg
    rw [List.map_cons, List.flatten_cons]
    cases room with
    | zero =>
      unfold l3Scatter
      rw [if_neg (by omega), ipTotLen_at (by rw [List.length_append, List.length_append]; omega)]
      rfl
    | succ room =>
      rw [List.length_cons] at hroom
      rw [l3Scatter_packet q a _ hq (by omega), Nat.mod_eq_of_lt (by omega)]
      exact ih _ (by omega) hqs (by omega)

end Round

/-- `l3_deaggregate` stays in its table if its loop does. -/
private theorem indexSafe_l3Deaggregate (env : DeaggEnv) {m : List UInt8} (hvalid : ValidOuter m)
    (h : ∀ ts, IndexSafe (l3Scatter ts (m.length - 4 * ihlOf m) maxScatters m (4 * ihlOf m) 0 0 true
      [])) :
    IndexSafe (l3Deaggregate env m) := by
  obtain ⟨hihl, hhead, htot⟩ := hvalid
  have hlt := totLenOf_lt m
  have hagg : (totLenOf m + 65536 - 4 * ihlOf m) % 65536 = m.length - 4 * ihlOf m := by omega
  rw [l3Deaggregate_eq env (by omega), hagg]
  refine (indexSafe_load _ _ _ _).bind fun protocol _ => ?_
  split_ifs
  · exact indexSafe_ok _
  refine (indexSafe_load _ _ _ _).bind fun ihl _ => (indexSafe_load _ _ _ _).bind fun ts _ =>
    (h ts).bind fun scattered _ => ?_
  cases scattered with
  | unsupported => exact indexSafe_ok _
  | all m' scatters => exact (indexSafe_injectAll _ _ _).bind fun _ _ => indexSafe_ok _

/-- `app_deagregate` stays in its table if it counts no more datagrams than there are slots. -/
private theorem indexSafe_appDeagregate (env : DeaggEnv) {m : List UInt8} (hvalid : ValidOuter m)
    (hproto : protocolOf m = agregatedApplicationEncapUdpProto)
    (h : (m.length - 4 * ihlOf m) / (sizeofUdphdr + sizeofPacket) ≤ maxScatters) :
    IndexSafe (appDeagregate env m) := by
  obtain ⟨hihl, hhead, htot⟩ := hvalid
  rw [appDeagregate_eq env (by omega) hproto (by omega), htot]
  exact (indexSafe_load _ _ _ _).bind fun ts _ =>
    (indexSafe_appScatter _ _ _ _ _ _ _ _ h).bind fun _ _ =>
    (indexSafe_injectAll _ _ _).bind fun _ _ => indexSafe_ok _

/-! ### How many packets an aggregate has -/

/-- A packet with one `packet_t`: at the application level a datagram with nothing else, at the IP
level such a datagram behind a header, or more. -/
def OnePacket : Level → IpPacket → Prop
  | .app, p => p.datagram.bytes.length = sizeofUdphdr + sizeofPacket
  | .ip, p => sizeofIphdr + (sizeofUdphdr + sizeofPacket) ≤ p.bytes.length

private theorem onePacket_node (level : Level) : OnePacket level (nodePacket 0).toIpPacket := by
  cases level with
  | app => exact (by decide : (nodePacket 0).toIpPacket.datagram.bytes.length = 33)
  | ip => exact (by decide : 53 ≤ (nodePacket 0).toIpPacket.bytes.length)

private theorem OnePacket.least_le {level : Level} {p : IpPacket} (h : OnePacket level p) :
    level.least ≤ (level.recordOf p).bytes.length := by
  cases level with
  | app => exact h.ge
  | ip => exact h

private theorem least_mul_length_le {level : Level} {ps : List IpPacket}
    (h : ∀ p ∈ ps, OnePacket level p) :
    level.least * ps.length ≤ (chain (ps.map level.recordOf)).length := by
  induction ps with
  | nil => exact Nat.zero_le _
  | cons p ps ih =>
    obtain ⟨hp, hps⟩ := List.forall_mem_cons.mp h
    have hrest := ih hps
    rw [length_chain] at hrest ⊢
    rw [List.map_cons, List.map_cons, List.sum_cons, List.length_cons, Nat.mul_succ, Nat.add_comm]
    exact Nat.add_le_add hp.least_le hrest

/-- **The number of packets of an aggregate**: all but one of them have been in the buffer. -/
theorem Aggregate.Sound.length_packets_le {size n : ℕ} {a : Aggregate} (h : a.Sound size)
    (hall : ∀ p ∈ a.packets, OnePacket a.level p) (hsize : size ≤ (n + 1) * a.level.least) :
    a.packets.length ≤ n + 1 := by
  have htail := least_mul_length_le fun p hp => hall p (List.mem_of_mem_tail hp)
  have hlen : a.packets.length = a.packets.tail.length + 1 := by
    rw [List.length_tail, Nat.sub_add_cancel (List.length_pos_iff.mpr h.ne_nil)]
  rw [hlen]
  obtain hnil | hlt := h.tail_lt
  · rw [hnil]
    exact Nat.succ_le_succ (Nat.zero_le n)
  · refine Nat.succ_le_succ (Nat.le_of_lt_succ (Nat.lt_of_mul_lt_mul_left ?_ (a := a.level.least)))
    rw [Nat.mul_comm _ (n + 1)]
    exact htail.trans_lt (hlt.trans_le hsize)

section Received

variable {n : ℕ} {saddr daddr : UInt32} {payload m : List UInt8}

/-- What is received of an aggregate: as many bytes as its 16-bit length says. -/
private theorem ipRcv_aggregate_eq_some {proto : ℕ} (hproto : proto < 256)
    (h : ipRcv (aggregateHeader proto n saddr daddr ++ payload) = some m) :
    ∃ k ≤ payload.length, n % 65536 = sizeofIphdr + k ∧
      m = aggregateHeader proto n saddr daddr ++ payload.take k ∧ m.length = sizeofIphdr + k := by
  obtain ⟨hihl, htot, -, -⟩ := fields_aggregateHeader hproto n saddr daddr payload
  have hhead := length_aggregateHeader proto n saddr daddr
  rw [ipRcv, hihl, htot, List.length_append, hhead] at h
  split_ifs at h with hvalid
  obtain ⟨-, -, hge, hle⟩ := hvalid
  have hk : n % 65536 - sizeofIphdr ≤ payload.length := by omega
  have hm : m = aggregateHeader proto n saddr daddr ++ payload.take (n % 65536 - sizeofIphdr) := by
    rw [← Option.some.inj h, List.take_append, hhead,
      List.take_of_length_le (by rw [hhead]; exact hge)]
  refine ⟨n % 65536 - sizeofIphdr, hk, ?_, hm, ?_⟩
  · simp only [sizeofIphdr]
    omega
  · rw [hm, List.length_append, hhead, List.length_take_of_le hk]

/-- An application aggregate that is not longer than 27 datagrams stays in the table. -/
private theorem indexSafe_hook_app (env : DeaggEnv)
    (hm : ipRcv (aggregateHeader agregatedApplicationEncapUdpProto n saddr daddr ++ payload) =
      some m) (h : payload.length ≤ maxScatters * (sizeofUdphdr + sizeofPacket)) :
    IndexSafe (deaggregationLocalInHook env m) := by
  have hvalid := validOuter_of_ipRcv hm
  obtain ⟨k, hk, -, rfl, hlen⟩ := ipRcv_aggregate_eq_some (by decide) hm
  obtain ⟨hihl, -, hprotocol, -⟩ := fields_aggregateHeader
    (show agregatedApplicationEncapUdpProto < 256 by decide) n saddr daddr (payload.take k)
  rw [deaggregationLocalInHook, ipProtocol_eq (by rw [hlen]; simp only [sizeofIphdr]; omega),
    ok_bind, hprotocol, if_pos rfl]
  refine indexSafe_appDeagregate env hvalid hprotocol ?_
  rw [hihl, hlen]
  refine Nat.div_le_of_le_mul ?_
  simp only [sizeofIphdr, sizeofUdphdr, sizeofPacket] at h ⊢
  omega

/-- An IP aggregate stays in the table if the walk over what is received of it does. -/
private theorem indexSafe_hook_ip (env : DeaggEnv)
    (hm : ipRcv (aggregateHeader agregatedIpEncapIpProto n saddr daddr ++ payload) = some m)
    (h : ∀ k ts, n % 65536 = sizeofIphdr + k → k ≤ payload.length →
      IndexSafe (l3Scatter ts k maxScatters
        (aggregateHeader agregatedIpEncapIpProto n saddr daddr ++ payload.take k) sizeofIphdr 0 0
        true [])) :
    IndexSafe (deaggregationLocalInHook env m) := by
  have hvalid := validOuter_of_ipRcv hm
  obtain ⟨k, hk, hmod, rfl, hlen⟩ := ipRcv_aggregate_eq_some (by decide) hm
  obtain ⟨hihl, -, hprotocol, -⟩ := fields_aggregateHeader
    (show agregatedIpEncapIpProto < 256 by decide) n saddr daddr (payload.take k)
  rw [deaggregationLocalInHook, ipProtocol_eq (by rw [hlen]; simp only [sizeofIphdr]; omega),
    ok_bind, hprotocol, if_neg (by decide), if_pos rfl]
  refine indexSafe_l3Deaggregate env hvalid fun ts => ?_
  rw [hihl, hlen, Nat.add_sub_cancel_left]
  exact h k ts hmod hk

end Received

/-- The packets in an aggregate of packets of supported protocols. -/
private theorem exists_supported_of_chain {ps : List IpPacket} (h : ∀ p ∈ ps, Level.ip.Takes p) :
    ∃ qs : List IpPacket, chain (ps.map IpPacket.record) = (qs.map IpPacket.bytes).flatten ∧
      qs.length = ps.length ∧ ∀ q ∈ qs, supported (protocolOf q.bytes) = true := by
  obtain ⟨qs, hqs, hcount, hprotocol⟩ := IpPacket.exists_packets_of_chain ps
  refine ⟨qs, hqs, hcount, fun q hq => ?_⟩
  obtain ⟨p, hp, hsame⟩ := hprotocol q hq
  rw [hsame]
  exact h p hp

/-- **The walk over an IP aggregate** of at most 27 packets stays in the table, also when the
aggregate is longer than an IP packet can be and arrives cut: then it ends with the newest
packet. -/
theorem indexSafe_walk (header : List UInt8) (hheader : header.length = sizeofIphdr)
    (p : IpPacket) (ps : List IpPacket) (hcount : (p :: ps).length ≤ maxScatters)
    (hsup : ∀ q ∈ p :: ps, Level.ip.Takes q)
    (hps : (chain (ps.map IpPacket.record)).length < 65536 - sizeofIphdr) {k : ℕ} (ts : UInt64)
    (hk : (sizeofIphdr + (chain ((p :: ps).map IpPacket.record)).length) % 65536 =
      sizeofIphdr + k) :
    IndexSafe (l3Scatter ts k maxScatters
      (header ++ (chain ((p :: ps).map IpPacket.record)).take k) sizeofIphdr 0 0 true []) := by
  have hlong := p.length_lt
  have hlen : (chain ((p :: ps).map IpPacket.record)).length =
      p.bytes.length + (chain (ps.map IpPacket.record)).length := by
    rw [length_chain, length_chain, List.map_cons, List.map_cons, List.sum_cons]
    rfl
  simp only [sizeofIphdr] at hk hps
  rw [← hheader]
  by_cases hfits : 20 + (chain ((p :: ps).map IpPacket.record)).length < 65536
  · obtain rfl : k = (chain ((p :: ps).map IpPacket.record)).length := by omega
    obtain ⟨qs, hqs, hcount', hsup'⟩ := exists_supported_of_chain hsup
    rw [List.take_length, hqs]
    rw [hqs] at hfits
    refine indexSafe_l3Scatter qs header (by rw [hcount']; exact hcount) hsup' ?_ (by omega)
    rw [Nat.zero_add, List.length_flatten, List.map_map]
    rfl
  · refine indexSafe_l3Scatter_last fun n hn => ?_
    obtain ⟨hin, rfl⟩ := load_eq_ok.mp hn
    rw [List.length_append, List.length_take_of_le (by omega)] at hin
    have hfield : beVal (slice (header ++ (chain ((p :: ps).map IpPacket.record)).take k)
        (header.length + 2) 2) = p.bytes.length := by
      rw [slice_append_right, slice_take (by omega), List.map_cons, chain_cons,
        slice_append_left (by have := p.length_ge; change 2 + 2 ≤ p.bytes.length; omega)]
      exact p.totLen_eq
    rw [hfield, Nat.zero_add, Nat.mod_eq_of_lt hlong]
    omega

/-- **An IP aggregate of more than 27 packets** does not stay in the table. -/
theorem hook_overflow (env : DeaggEnv) (saddr daddr : UInt32) (p : IpPacket) (ps : List IpPacket)
    (hcount : maxScatters < (p :: ps).length) (hsup : ∀ q ∈ p :: ps, Level.ip.Takes q)
    (hlen : sizeofIphdr + (chain ((p :: ps).map IpPacket.record)).length < 65536) :
    deaggregationLocalInHook env (aggregateHeader agregatedIpEncapIpProto
        (sizeofIphdr + (chain ((p :: ps).map IpPacket.record)).length) saddr daddr ++
      chain ((p :: ps).map IpPacket.record)) = .error (.index 255) := by
  obtain ⟨-, -, hprotocol, -⟩ := fields_aggregateHeader
    (show agregatedIpEncapIpProto < 256 by decide)
    (sizeofIphdr + (chain ((p :: ps).map IpPacket.record)).length) saddr daddr
    (chain ((p :: ps).map IpPacket.record))
  obtain ⟨header, hheader⟩ : ∃ bs, bs = aggregateHeader agregatedIpEncapIpProto
    (sizeofIphdr + (chain ((p :: ps).map IpPacket.record)).length) saddr daddr := ⟨_, rfl⟩
  rw [← hheader] at hprotocol ⊢
  have hlong : 10 ≤ (header ++ chain ((p :: ps).map IpPacket.record)).length := by
    rw [List.length_append, hheader, length_aggregateHeader]
    exact Nat.le_add_right_of_le (by decide)
  rw [deaggregationLocalInHook, ipProtocol_eq hlong, ok_bind, hprotocol, if_neg (by decide),
    if_pos rfl]
  -- the walk starts at the newest packet, and needs a slot for each of them
  have hchain : chain ((p :: ps).map IpPacket.record) =
      p.bytes ++ below p.timestamp (ps.map IpPacket.record) := chain_cons _ _
  obtain ⟨qs, hqs, hcount', hsup'⟩ := exists_supported_of_chain hsup
  have hwalk := l3Deaggregate_aggregate env p (below p.timestamp (ps.map IpPacket.record)) saddr
    daddr (hchain ▸ hheader) (hsup p List.mem_cons_self) (hchain ▸ hlen)
  rw [← hchain, hqs] at hwalk
  rw [hqs] at hlen ⊢
  rw [hwalk, l3Scatter_overflow qs header (by rw [hcount']; exact hcount) hsup' ?_ (by omega),
    error_bind]
  rw [Nat.zero_add, List.length_flatten, List.map_map]
  rfl

/-- **An aggregate of at most 27 packets stays in the receiver's table.** -/
theorem Aggregate.Sound.indexSafe {size : ℕ} {a : Aggregate} (h : a.Sound size)
    (hall : ∀ p ∈ a.packets, OnePacket a.level p) (hcount : a.packets.length ≤ maxScatters)
    (hsize : size ≤ 65536 - sizeofIphdr) (env : DeaggEnv) {m : List UInt8}
    (hm : ipRcv a.bytes = some m) : IndexSafe (deaggregationLocalInHook env m) := by
  obtain ⟨level, packets, bytes⟩ := a
  obtain ⟨hne, htakes, htail, saddr, d, hbytes⟩ := h
  simp only at hne htakes htail hbytes hall hcount hm
  subst hbytes
  cases level with
  | app =>
    refine indexSafe_hook_app env hm ?_
    have hsum : (chain (packets.map Level.app.recordOf)).length =
        packets.length * (sizeofUdphdr + sizeofPacket) := by
      have hmap : packets.map ((fun r => r.bytes.length) ∘ Level.app.recordOf) =
          packets.map fun _ => sizeofUdphdr + sizeofPacket := List.map_congr_left hall
      rw [length_chain, List.map_map, hmap, List.map_const', List.sum_replicate_nat]
    rw [hsum]
    exact Nat.mul_le_mul_right _ hcount
  | ip =>
    obtain ⟨p, ps, rfl⟩ := List.exists_cons_of_ne_nil hne
    refine indexSafe_hook_ip env hm fun k ts hk _ => ?_
    refine indexSafe_walk _ (length_aggregateHeader _ _ _ _) p ps hcount htakes ?_ ts hk
    obtain hnil | hlt := htail
    · rw [show ps = [] from hnil]
      decide
    · exact hlt.trans_le hsize

/-- **The receiver's table is large enough** exactly for buffer sizes of at most 27 packets of the
smallest kind: 891 bytes at the application level and 1431 at the IP level. Then, in any run of
packets with a `packet_t` each, every aggregate has at most 27 packets and its deaggregation, by
whatever is received of it, leaves the table neither in `l3_deaggregate` nor in `app_deagregate`;
otherwise some run has an aggregate of more. -/
theorem fitsScatterTable_iff (size : Level → ℕ) :
    (∀ sourceIp es s, (∀ e ∈ es, e.Carries OnePacket) →
        Run.execM (senderStep size sourceIp) .start es = .ok s → ∀ a ∈ s.aggregates,
          a.packets.length ≤ maxScatters ∧ ∀ env m, ipRcv a.bytes = some m →
            IndexSafe (deaggregationLocalInHook env m)) ↔
      size .app ≤ maxScatters * (sizeofUdphdr + sizeofPacket) ∧
        size .ip ≤ maxScatters * (sizeofIphdr + (sizeofUdphdr + sizeofPacket)) := by
  constructor
  · intro h
    have hsize : ∀ level, size level ≤ maxScatters * level.least := by
      intro level
      by_contra hlt
      obtain ⟨k, s, hs, a, ha, hlong⟩ := exists_full (Nat.not_le.mp hlt) 0
      refine absurd (h 0 _ s ?_ hs a ha).1 (Nat.not_le.mpr hlong)
      intro e he
      rw [List.eq_of_mem_replicate he]
      exact onePacket_node level
    exact ⟨hsize .app, hsize .ip⟩
  · rintro ⟨happ, hip⟩ sourceIp es s hes hs a ha
    have hsize : size a.level ≤ (26 + 1) * a.level.least := by
      cases a.level with
      | app => exact happ
      | ip => exact hip
    have hinv := (Sender.inv_start size).exec hs
    have hall : Sender.start.All OnePacket :=
      ⟨fun _ _ _ hp => absurd hp List.not_mem_nil, fun _ ha => absurd ha List.not_mem_nil⟩
    have hpackets := (hall.exec hes hs).sent a ha
    have hcount := (hinv.sound a ha).length_packets_le hpackets hsize
    refine ⟨hcount, fun env m hm => (hinv.sound a ha).indexSafe hpackets hcount ?_ env hm⟩
    refine hsize.trans ?_
    cases a.level <;> decide

/-- The receiver on a full aggregate of more packets than its table has slots. -/
private theorem hook_fullAggregate (env : DeaggEnv) {n : ℕ} (hn : maxScatters ≤ n)
    (hlen : sizeofIphdr + (n + 1) * Level.ip.least < 65536) :
    ipRcv (fullAggregate .ip (n + 1)).bytes = some (fullAggregate .ip (n + 1)).bytes ∧
      deaggregationLocalInHook env (fullAggregate .ip (n + 1)).bytes = .error (.index 255) := by
  have hchain : (chain ((List.replicate (n + 1) (nodePacket 0).toIpPacket).map
      IpPacket.record)).length = (n + 1) * Level.ip.least := by
    rw [length_chain, List.map_replicate, List.map_replicate, List.sum_replicate_nat]
    exact congrArg ((n + 1) * ·) (len_nodeOffer .ip)
  rw [← hchain] at hlen
  refine ⟨ipRcv_aggregate (by decide) _ _ hlen, hook_overflow env _ _ (nodePacket 0).toIpPacket
    (List.replicate n (nodePacket 0).toIpPacket) ?_ (fun q hq => ?_) hlen⟩
  · rw [List.length_cons, List.length_replicate]
    exact Nat.lt_succ_of_le hn
  · rw [List.eq_of_mem_replicate (n := n + 1) hq]
    exact Level.ip.takes_toIpPacket _

/-- **The table does overflow.** With a buffer of 1480 bytes at the IP level 27 packets of 53 bytes
fit, the 28th leaves with them, and the receiver's index runs below `0`. -/
theorem scatterTable_overflow :
    ∃ s, Run.execM (senderStep (fun _ => 1480) 0) .start (List.replicate 28 (nodeEvent .ip)) =
        .ok s ∧ ∃ a ∈ s.aggregates, a.packets.length = 28 ∧ ipRcv a.bytes = some a.bytes ∧
          deaggregationLocalInHook (.allocOk fun _ => none) a.bytes = .error (.index 255) := by
  obtain ⟨s, hs, hmem⟩ := exec_full (fun _ => 1480) .ip (k := 27) 0 (by decide) (by decide)
  exact ⟨s, hs, _, hmem, List.length_replicate, hook_fullAggregate _ le_rfl (by decide)⟩

end MiaVita
