import MiaVita.FredFramework.Hooks

/-!
# What a filter asks for (`fred_framework`, `match_filter` of `hooks.c`)

A specification has a bit for each criterion: the protocol, the two addresses of the outer header,
and the two ports of the first UDP header. The UDP header is behind the outer header, or in the
first packet of an aggregate of IP packets. `Meets` says that a packet has everything that is asked
for; a packet without a UDP header has it as long as no port is asked for.

`match_filter` compares the addresses and the ports. It has no comparison for
`FILTER_BY_L4_PROTO`, although the bit is set for every rule with a protocol. For the ports it
looks at the first packet of an aggregate, and it wants UDP or an aggregate of datagrams there
whether a port is asked for or not: an aggregate of aggregates, or one of other packets, does not
match. `decides_specsMatch` is what it does answer, and `honoursCriteria_iff` says for which packets
that is the right answer.
-/

namespace MiaVita.Framework

open Memory Fallible

/-! ### Answers -/

/-- A test that ends, with an answer. -/
def Decides (x : Except Crash Bool) (P : Prop) : Prop := ∃ b, x = .ok b ∧ (b = true ↔ P)

namespace Decides

variable {x y : Except Crash Bool} {P Q : Prop}

private theorem congr (h : Decides x P) (hPQ : P ↔ Q) : Decides x Q := by
  obtain ⟨b, hb, hP⟩ := h
  exact ⟨b, hb, hP.trans hPQ⟩

/-- A test answers one question. -/
private theorem unique (hP : Decides x P) (hQ : Decides x Q) : P ↔ Q := by
  obtain ⟨b, hb, hP⟩ := hP
  obtain ⟨c, hc, hQ⟩ := hQ
  cases hb.symm.trans hc
  exact hP.symm.trans hQ

private theorem eq_false (h : Decides x P) (hP : ¬ P) : x = .ok false := by
  obtain ⟨b, hb, hbP⟩ := h
  rw [hb, Bool.eq_false_iff.mpr fun hb => hP (hbP.mp hb)]

/-- A second test, made if the first one succeeds. -/
private theorem and (hx : Decides x P) (hy : Decides y Q) :
    Decides (x >>= fun b => if b then y else return false) (P ∧ Q) := by
  obtain ⟨b, rfl, hP⟩ := hx
  rw [ok_bind]
  cases b with
  | false => exact ⟨false, rfl, iff_of_false (fun h => nomatch h) fun h => nomatch hP.mpr h.1⟩
  | true =>
    obtain ⟨c, rfl, hQ⟩ := hy
    exact ⟨c, rfl, hQ.trans (and_iff_right (hP.mp rfl)).symm⟩

end Decides

/-! ### Packets -/

/-- An IP header at an address, with its length and its protocol. -/
structure IpAt (skb : List UInt8) (iph ihl protocol : ℕ) : Prop where
  ihl_eq : ipIhl skb iph = .ok ihl
  ihl_ge : 5 ≤ ihl
  inside : iph + 4 * ihl ≤ skb.length
  protocol_eq : ipProtocol skb iph = .ok protocol

/-- The first UDP header of the packet at `iph` is at `udph`. -/
inductive FirstUdp (skb : List UInt8) : ℕ → ℕ → Prop
  | udp {iph ihl protocol : ℕ} (hip : IpAt skb iph ihl protocol)
      (hprotocol : protocol = agregatedApplicationEncapUdpProto ∨ protocol = ipprotoUdp)
      (hudp : iph + 4 * ihl + sizeofUdphdr ≤ skb.length) : FirstUdp skb iph (iph + 4 * ihl)
  | ipAggregate {iph ihl udph : ℕ} (hip : IpAt skb iph ihl agregatedIpEncapIpProto)
      (hinner : FirstUdp skb (iph + 4 * ihl) udph) : FirstUdp skb iph udph

/-- The protocols of the interceptors. -/
def interceptedProtocols : List ℕ :=
  [ipprotoUdp, agregatedApplicationEncapUdpProto, agregatedIpEncapIpProto]

/-- A well-formed packet at an address, with its protocol: the headers that its protocol announces
are there, and an aggregate of IP packets starts with a well-formed packet of any protocol. -/
inductive WellFormed (skb : List UInt8) : ℕ → ℕ → Prop
  | udp {iph ihl protocol : ℕ} (hip : IpAt skb iph ihl protocol)
      (hprotocol : protocol = agregatedApplicationEncapUdpProto ∨ protocol = ipprotoUdp)
      (hudp : iph + 4 * ihl + sizeofUdphdr ≤ skb.length) : WellFormed skb iph protocol
  | ipAggregate {iph ihl protocol : ℕ} (hip : IpAt skb iph ihl agregatedIpEncapIpProto)
      (hinner : WellFormed skb (iph + 4 * ihl) protocol) :
      WellFormed skb iph agregatedIpEncapIpProto
  | other {iph ihl protocol : ℕ} (hip : IpAt skb iph ihl protocol)
      (hprotocol : protocol ∉ interceptedProtocols) : WellFormed skb iph protocol

/-- If the packet is an aggregate of IP packets, then its first packet is UDP or an aggregate of
datagrams. -/
def FirstInnerUdp (skb : List UInt8) : Prop :=
  ∀ ihl, IpAt skb 0 ihl agregatedIpEncapIpProto → ∃ protocol,
    ipProtocol skb (4 * ihl) = .ok protocol ∧
      (protocol = agregatedApplicationEncapUdpProto ∨ protocol = ipprotoUdp)

private theorem IpAt.unique {skb : List UInt8} {iph ihl ihl' protocol protocol' : ℕ}
    (h : IpAt skb iph ihl protocol) (h' : IpAt skb iph ihl' protocol') :
    ihl = ihl' ∧ protocol = protocol' :=
  ⟨Except.ok.inj (h.ihl_eq.symm.trans h'.ihl_eq),
    Except.ok.inj (h.protocol_eq.symm.trans h'.protocol_eq)⟩

private theorem WellFormed.exists_ipAt {skb : List UInt8} {iph protocol : ℕ}
    (h : WellFormed skb iph protocol) : ∃ ihl, IpAt skb iph ihl protocol := by
  cases h with
  | udp hip _ _ => exact ⟨_, hip⟩
  | ipAggregate hip _ => exact ⟨_, hip⟩
  | other hip _ => exact ⟨_, hip⟩

private theorem ne_ipAggregate {protocol : ℕ}
    (h : protocol = agregatedApplicationEncapUdpProto ∨ protocol = ipprotoUdp) :
    protocol ≠ agregatedIpEncapIpProto := by
  rcases h with rfl | rfl
  · decide
  · decide

/-- A packet has one first UDP header. -/
private theorem FirstUdp.unique {skb : List UInt8} {iph udph udph' : ℕ} (h : FirstUdp skb iph udph)
    (h' : FirstUdp skb iph udph') : udph = udph' := by
  induction h with
  | udp hip hprotocol _ =>
    cases h' with
    | udp hip' _ _ => rw [(hip.unique hip').1]
    | ipAggregate hip' _ => exact absurd (hip.unique hip').2 (ne_ipAggregate hprotocol)
  | ipAggregate hip _ ih =>
    cases h' with
    | udp hip' hprotocol _ => exact absurd (hip'.unique hip).2 (ne_ipAggregate hprotocol)
    | ipAggregate hip' hinner' =>
      obtain ⟨rfl, -⟩ := hip.unique hip'
      exact ih hinner'

private theorem FirstUdp.exists_iff {skb : List UInt8} {iph udph : ℕ} (h : FirstUdp skb iph udph)
    (P : ℕ → Prop) : (∃ udph, FirstUdp skb iph udph ∧ P udph) ↔ P udph := by
  constructor
  · rintro ⟨udph', h', hP⟩
    rwa [h.unique h']
  · exact fun hP => ⟨udph, h, hP⟩

/-! ### Criteria -/

/-- The bit of a criterion is set. -/
def FilterSpecs.Asks (sp : FilterSpecs) (bit : UInt8) : Prop := sp.filterBy &&& bit ≠ 0

instance (sp : FilterSpecs) (bit : UInt8) : Decidable (sp.Asks bit) :=
  inferInstanceAs (Decidable (sp.filterBy &&& bit ≠ 0))

/-- The criteria on addresses and ports. -/
structure Addressed (sp : FilterSpecs) (skb : List UInt8) : Prop where
  srcAddr : sp.Asks filterBySrcAddr → ipSaddrBe skb 0 = .ok sp.srcAddr
  dstAddr : sp.Asks filterByDstAddr → ipDaddrBe skb 0 = .ok sp.dstAddr
  dstPort : sp.Asks filterByDstPort →
    ∃ udph, FirstUdp skb 0 udph ∧ udpDestBe skb udph = .ok sp.dstPort
  srcPort : sp.Asks filterBySrcPort →
    ∃ udph, FirstUdp skb 0 udph ∧ udpSourceBe skb udph = .ok sp.srcPort

/-- All the criteria, for a packet with a protocol. -/
structure Meets (sp : FilterSpecs) (skb : List UInt8) (protocol : ℕ) : Prop extends
    Addressed sp skb where
  protocol : sp.Asks filterByL4Proto → protocol = sp.protocol.toNat

/-- What `match_filter` should do with a packet: find out whether it has what is asked for, and let
no other protocol than those of the interceptors match. -/
structure HonoursCriteria (s : Chains) (f : ℕ) (sp : FilterSpecs) (skb : List UInt8)
    (protocol : ℕ) : Prop where
  matching : protocol ∈ interceptedProtocols →
    Decides (matchFilter s f skb) (Meets sp skb protocol)
  other : protocol ∉ interceptedProtocols → matchFilter s f skb = .ok false

section Matching

variable {sp : FilterSpecs} {skb : List UInt8} {iph ihl protocol : ℕ}

private theorem decides_criterion {α : Type} [DecidableEq α] {sp : FilterSpecs} {bit : UInt8}
    {x y : α} {field : Except Fault α} (h : field = .ok y) :
    Decides (criterion sp bit x field) (sp.Asks bit → field = .ok x) := by
  subst h
  rw [criterion]
  split_ifs with hbit
  · exact ⟨true, rfl, iff_of_true rfl fun hasks => absurd hbit hasks⟩
  · refine ⟨decide (x = y), rfl, ?_⟩
    rw [decide_eq_true_iff, Except.ok.injEq, eq_comm]
    exact ⟨fun h _ => h, fun h => h hbit⟩

/-- The ports, once the header in front of them is found. -/
private theorem decides_portsMatch (hinner : innerHeader skb = .ok iph)
    (hip : IpAt skb iph ihl protocol)
    (hprotocol : protocol = agregatedApplicationEncapUdpProto ∨ protocol = ipprotoUdp)
    (hudp : iph + 4 * ihl + sizeofUdphdr ≤ skb.length) :
    Decides (portsMatch sp skb)
      ((sp.Asks filterByDstPort → udpDestBe skb (iph + 4 * ihl) = .ok sp.dstPort) ∧
        (sp.Asks filterBySrcPort → udpSourceBe skb (iph + 4 * ihl) = .ok sp.srcPort)) := by
  rw [portsMatch, hinner, ok_bind, hip.protocol_eq, packetRead, ok_bind, if_pos hprotocol,
    hip.ihl_eq, packetRead, ok_bind]
  have hlen : iph + 4 * ihl + 8 ≤ skb.length := hudp
  exact (decides_criterion (load_eq (by omega))).and (decides_criterion (load_eq (by omega)))

/-- No ports are found behind another header. -/
private theorem portsMatch_other (hinner : innerHeader skb = .ok iph)
    (hip : ipProtocol skb iph = .ok protocol)
    (hprotocol : ¬ (protocol = agregatedApplicationEncapUdpProto ∨ protocol = ipprotoUdp)) :
    portsMatch sp skb = .ok false := by
  rw [portsMatch, hinner, ok_bind, hip, packetRead, ok_bind, if_neg hprotocol]
  rfl

private theorem innerHeader_ipAggregate (hip : IpAt skb 0 ihl agregatedIpEncapIpProto) :
    innerHeader skb = .ok (4 * ihl) := by
  rw [innerHeader, hip.protocol_eq, packetRead, ok_bind, if_pos rfl, hip.ihl_eq, packetRead]
  rfl

private theorem innerHeader_other (hip : IpAt skb 0 ihl protocol)
    (hprotocol : protocol ≠ agregatedIpEncapIpProto) : innerHeader skb = .ok 0 := by
  rw [innerHeader, hip.protocol_eq, packetRead, ok_bind, if_neg hprotocol]
  rfl

/-- A packet that is no aggregate of IP packets has no inner packet that could be wrong. -/
private theorem firstInnerUdp_of_ne (hip : IpAt skb 0 ihl protocol)
    (hprotocol : protocol ≠ agregatedIpEncapIpProto) : FirstInnerUdp skb :=
  fun _ hip' => absurd (hip.unique hip').2 hprotocol

/-- In an aggregate of IP packets, the protocol of the first packet decides. -/
private theorem firstInnerUdp_iff {ihl' : ℕ} (hip : IpAt skb 0 ihl agregatedIpEncapIpProto)
    (hinner : IpAt skb (4 * ihl) ihl' protocol) :
    FirstInnerUdp skb ↔ protocol = agregatedApplicationEncapUdpProto ∨ protocol = ipprotoUdp := by
  constructor
  · intro h
    obtain ⟨protocol', hprotocol', hudp⟩ := h ihl hip
    cases hinner.protocol_eq.symm.trans hprotocol'
    exact hudp
  · intro h ihl'' hip'
    obtain ⟨rfl, -⟩ := hip.unique hip'
    exact ⟨protocol, hinner.protocol_eq, h⟩

/-- The ports of a packet are those of its first UDP header, if that is looked for. -/
private theorem decides_firstUdp {udph : ℕ} (hudp : FirstUdp skb 0 udph)
    (h : Decides (portsMatch sp skb)
      ((sp.Asks filterByDstPort → udpDestBe skb udph = .ok sp.dstPort) ∧
        (sp.Asks filterBySrcPort → udpSourceBe skb udph = .ok sp.srcPort)))
    (hinner : FirstInnerUdp skb) :
    Decides (portsMatch sp skb)
      (((sp.Asks filterByDstPort →
          ∃ udph, FirstUdp skb 0 udph ∧ udpDestBe skb udph = .ok sp.dstPort) ∧
        (sp.Asks filterBySrcPort →
          ∃ udph, FirstUdp skb 0 udph ∧ udpSourceBe skb udph = .ok sp.srcPort)) ∧
        FirstInnerUdp skb) := by
  refine h.congr ?_
  rw [hudp.exists_iff fun udph => udpDestBe skb udph = .ok sp.dstPort,
    hudp.exists_iff fun udph => udpSourceBe skb udph = .ok sp.srcPort]
  exact (and_iff_left hinner).symm

/-- The ports of a packet: those of its first UDP header, and no match at all if an aggregate does
not start with UDP. -/
private theorem decides_ports (hwf : WellFormed skb 0 protocol)
    (hprotocol : protocol ∈ interceptedProtocols) :
    Decides (portsMatch sp skb)
      (((sp.Asks filterByDstPort →
          ∃ udph, FirstUdp skb 0 udph ∧ udpDestBe skb udph = .ok sp.dstPort) ∧
        (sp.Asks filterBySrcPort →
          ∃ udph, FirstUdp skb 0 udph ∧ udpSourceBe skb udph = .ok sp.srcPort)) ∧
        FirstInnerUdp skb) := by
  cases hwf with
  | udp hip hudpProtocol hudp =>
    have hne := ne_ipAggregate hudpProtocol
    exact decides_firstUdp (.udp hip hudpProtocol hudp)
      (decides_portsMatch (innerHeader_other hip hne) hip hudpProtocol hudp)
      (firstInnerUdp_of_ne hip hne)
  | @ipAggregate _ ihl protocol' hip hinner =>
    -- `match_ports` goes down one level, and looks at the first packet in the aggregate
    rw [Nat.zero_add] at hinner
    have hheader := innerHeader_ipAggregate hip
    obtain ⟨ihl', hip'⟩ := hinner.exists_ipAt
    by_cases hinnerUdp : protocol' = agregatedApplicationEncapUdpProto ∨ protocol' = ipprotoUdp
    · cases hinner with
      | udp hip' _ hudp =>
        refine decides_firstUdp (.ipAggregate hip ?_)
          (decides_portsMatch hheader hip' hinnerUdp hudp)
          ((firstInnerUdp_iff hip hip').mpr hinnerUdp)
        rw [Nat.zero_add]
        exact .udp hip' hinnerUdp hudp
      | ipAggregate hip' _ => exact absurd rfl (ne_ipAggregate hinnerUdp)
      | other hip' hother =>
        exact absurd hinnerUdp fun h => hother (by rcases h with rfl | rfl <;> decide)
    · -- another protocol is taken for one without ports, whether ports are asked for or not
      refine ⟨false, portsMatch_other hheader hip'.protocol_eq hinnerUdp, ?_⟩
      exact iff_of_false Bool.false_ne_true fun h => hinnerUdp ((firstInnerUdp_iff hip hip').mp h.2)
  | other hip hother => exact absurd hprotocol hother

/-- The addresses are compared first. -/
private theorem decides_addresses (hip : IpAt skb 0 ihl protocol) {P : Prop}
    (hports : Decides (portsMatch sp skb) P) :
    Decides (specsMatch sp skb) ((sp.Asks filterBySrcAddr → ipSaddrBe skb 0 = .ok sp.srcAddr) ∧
      (sp.Asks filterByDstAddr → ipDaddrBe skb 0 = .ok sp.dstAddr) ∧ P) := by
  have hlen : 20 ≤ skb.length := by
    have hge := hip.ihl_ge
    have hinside := hip.inside
    omega
  exact (decides_criterion (load_eq (by omega))).and
    ((decides_criterion (load_eq (by omega))).and hports)

/-- **What `match_filter` answers**: whether addresses and ports are right, for a packet that is not
an aggregate with another first packet than UDP. -/
theorem decides_specsMatch (hwf : WellFormed skb 0 protocol)
    (hprotocol : protocol ∈ interceptedProtocols) :
    Decides (specsMatch sp skb) (Addressed sp skb ∧ FirstInnerUdp skb) := by
  obtain ⟨ihl, hip⟩ := hwf.exists_ipAt
  refine (decides_addresses hip (decides_ports hwf hprotocol)).congr ?_
  constructor
  · rintro ⟨hsrc, hdst, ⟨hdstPort, hsrcPort⟩, hinner⟩
    exact ⟨⟨hsrc, hdst, hdstPort, hsrcPort⟩, hinner⟩
  · rintro ⟨⟨hsrc, hdst, hdstPort, hsrcPort⟩, hinner⟩
    exact ⟨hsrc, hdst, ⟨hdstPort, hsrcPort⟩, hinner⟩

/-- **No other protocol matches.** -/
theorem specsMatch_other (hip : IpAt skb 0 ihl protocol)
    (hprotocol : protocol ∉ interceptedProtocols) : specsMatch sp skb = .ok false := by
  simp only [interceptedProtocols, List.mem_cons, List.not_mem_nil, or_false, not_or] at hprotocol
  obtain ⟨hudp, happ, hipAgg⟩ := hprotocol
  have hports : portsMatch sp skb = .ok false :=
    portsMatch_other (innerHeader_other hip hipAgg) hip.protocol_eq (not_or.mpr ⟨happ, hudp⟩)
  have hfalse : Decides (portsMatch sp skb) False :=
    ⟨false, hports, iff_of_false Bool.false_ne_true not_false⟩
  exact (decides_addresses hip hfalse).eq_false fun h => h.2.2

/-- **The criteria are honoured** for a well-formed packet exactly if its protocol is none of the
interceptors', or an address or a port is wrong, or the protocol makes the same difference as the
first packet of an aggregate: the packet has the protocol that is asked for and is not an aggregate
that starts with something else than UDP, or neither. -/
theorem honoursCriteria_iff {s : Chains} {f : ℕ} {r : Filter} (hf : s.filters f = some r)
    (hsp : s.specs r.filterSpecs = some sp) (hwf : WellFormed skb 0 protocol) :
    HonoursCriteria s f sp skb protocol ↔
      (protocol ∈ interceptedProtocols → Addressed sp skb →
        ((sp.Asks filterByL4Proto → protocol = sp.protocol.toNat) ↔ FirstInnerUdp skb)) := by
  have hmatch := matchFilter_eq hf hsp skb
  constructor
  · intro h hprotocol haddressed
    have hmeets := h.matching hprotocol
    rw [hmatch] at hmeets
    have hiff := hmeets.unique (decides_specsMatch hwf hprotocol)
    constructor
    · exact fun hasked => (hiff.mp ⟨haddressed, hasked⟩).2
    · exact fun hinner => (hiff.mpr ⟨haddressed, hinner⟩).protocol
  · intro h
    refine ⟨fun hprotocol => ?_, fun hother => ?_⟩
    · rw [hmatch]
      refine (decides_specsMatch hwf hprotocol).congr ⟨?_, ?_⟩
      · rintro ⟨haddressed, hinner⟩
        exact ⟨haddressed, (h hprotocol haddressed).mpr hinner⟩
      · rintro ⟨haddressed, hasked⟩
        exact ⟨haddressed, (h hprotocol haddressed).mp hasked⟩
    · obtain ⟨ihl, hip⟩ := hwf.exists_ipAt
      rw [hmatch]
      exact specsMatch_other hip hother

end Matching

/-! ### A rule for one protocol -/

/-- The specification of `mkrule -p`: a protocol and nothing else. -/
def protocolSpecs (protocol : UInt8) : FilterSpecs := ⟨filterByL4Proto, protocol, 0, 0, 0, 0⟩

/-- The chains with one filter. -/
def oneFilter (sp : FilterSpecs) : Chains where
  chains := initChains.chains
  filters f := if f = 0 then some ⟨0xff, filterAtPostRt, 0, 0⟩ else none
  specs p := if p = 0 then some sp else none

/-- An empty datagram. -/
def plainPacket : List UInt8 :=
  [0x45, 0, 0, 28, 0, 0, 0, 0, 60, 17, 0, 0, 10, 0, 0, 1, 10, 0, 0, 2, 0, 1, 0, 2, 0, 8, 0, 0]

private theorem ipAt_plainPacket : IpAt plainPacket 0 5 ipprotoUdp :=
  ⟨by decide, by decide, by decide, by decide⟩

theorem wellFormed_plainPacket : WellFormed plainPacket 0 ipprotoUdp :=
  .udp ipAt_plainPacket (.inr rfl) (by decide)

theorem honoursCriteria_udp :
    HonoursCriteria (oneFilter (protocolSpecs 17)) 0 (protocolSpecs 17) plainPacket ipprotoUdp := by
  refine (honoursCriteria_iff rfl rfl wellFormed_plainPacket).mpr fun _ _ =>
    iff_of_true (fun _ => rfl) fun ihl hip => ?_
  exact absurd (ipAt_plainPacket.unique hip).2 (by decide)

/-- **A rule for aggregates of datagrams** takes a plain datagram. -/
theorem appagg_matches_udp :
    WellFormed plainPacket 0 ipprotoUdp ∧ ¬ Meets (protocolSpecs 143) plainPacket ipprotoUdp ∧
      matchFilter (oneFilter (protocolSpecs 143)) 0 plainPacket = .ok true ∧
      ¬ HonoursCriteria (oneFilter (protocolSpecs 143)) 0 (protocolSpecs 143) plainPacket
        ipprotoUdp := by
  have hmeets : ¬ Meets (protocolSpecs 143) plainPacket ipprotoUdp := fun h =>
    absurd (h.protocol (by decide)) (by decide)
  have hmatch : matchFilter (oneFilter (protocolSpecs 143)) 0 plainPacket = .ok true := by
    decide
  refine ⟨wellFormed_plainPacket, hmeets, hmatch, fun h => ?_⟩
  have hfalse := (h.matching (by decide)).eq_false hmeets
  cases hmatch.symm.trans hfalse

end MiaVita.Framework
