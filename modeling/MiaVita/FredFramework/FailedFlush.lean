import MiaVita.FredFramework.Aggregation

/-!
# A flush that fails (`aggregation/aggregation.c`)

When a buffer is full, the packet at hand becomes the aggregate: `flush_buffer_app` takes its IP
header off, both functions put the buffered bytes behind it and a new header in front. Room for them
may have to be asked for with `pskb_expand_head`, first behind the data and then in front. Where
that fails the function returns, and the packet is passed on as it is by then.

* For datagrams the header is gone before anything is asked for. The room in front is then always
  enough, so that the second request is never made (`appIntact_iff`).
* For IP packets nothing has happened when the first request fails; when the second one fails, the
  buffered bytes are already behind the packet (`ipIntact_iff`).
-/

namespace MiaVita

open Bytes Memory Fallible

/-- A packet whose header describes its bytes. -/
structure SoundHeader (bs : List UInt8) : Prop where
  ihl_ge : 5 ≤ ihlOf bs
  ihl_le : 4 * ihlOf bs ≤ bs.length
  totLen_eq : totLenOf bs = bs.length

/-- What netfilter should be given: the complete aggregate, or, if an expansion failed, the packet
as it was. -/
def PassedIntact (expand : Expand) (original complete : List UInt8) (skb : SkBuff) : Prop :=
  skb.data = complete ∨ ((expand.tail = false ∨ expand.head = false) ∧ skb.data = original)

section Flush

variable (ifaAddress : UInt32) (expand : Expand) (skb : SkBuff) (b : AggregateBuffer)

/-- A new header, and behind it some bytes of the packet and all buffered ones. -/
def completeAggregate (protocol : ℕ) (packet : List UInt8) : List UInt8 :=
  aggregateHeader protocol (sizeofIphdr + (packet ++ b.data).length) ifaAddress b.ip ++
    (packet ++ b.data)

/-- `flush_buffer_app` leaves the packet intact. -/
def AppIntact : Prop :=
  ∃ skb', flushBufferApp ifaAddress expand skb b = .ok (skb', b.resetBuffer) ∧
    PassedIntact expand skb.data (completeAggregate ifaAddress b agregatedApplicationEncapUdpProto
      (skb.data.drop (4 * ihlOf skb.data))) skb'

/-- `flush_buffer_ip` leaves the packet intact. -/
def IpIntact : Prop :=
  ∃ skb', flushBufferIp ifaAddress expand skb b = .ok (skb', b.resetBuffer) ∧
    PassedIntact expand skb.data
      (completeAggregate ifaAddress b agregatedIpEncapIpProto skb.data) skb'

/-- The room behind the data is asked for, and there is none. -/
def TailFails : Prop := skb.tailroom < b.bufferDataLen ∧ expand.tail = false

/-- The room in front of the data is asked for, and there is none. -/
def HeadFails : Prop := skb.headroom < sizeofIphdr ∧ expand.head = false

end Flush

variable {ifaAddress : UInt32} {expand : Expand} {skb : SkBuff} {b : AggregateBuffer}
  {protocol len : ℕ}

/-! ### The three ways of a flush -/

private theorem reserveTail_of_fails {n : ℕ} (h : skb.tailroom < n ∧ expand.tail = false) :
    skb.reserveTail n expand.tail = none := by
  rw [SkBuff.reserveTail, if_pos h.1, h.2]
  rfl

private theorem reserveTail_of_not_fails {n : ℕ} (h : ¬ (skb.tailroom < n ∧ expand.tail = false)) :
    ∃ skb', skb.reserveTail n expand.tail = some skb' ∧ n ≤ skb'.tailroom ∧
      skb'.data = skb.data ∧ skb'.headroom = skb.headroom := by
  rw [SkBuff.reserveTail]
  split_ifs with hlt hexpand
  · exact ⟨_, rfl, by change n ≤ _ + _; omega, rfl, rfl⟩
  · exact absurd ⟨hlt, Bool.eq_false_iff.mpr hexpand⟩ h
  · exact ⟨skb, rfl, Nat.le_of_not_lt hlt, rfl, rfl⟩

private theorem reserveHead_of_fails (h : HeadFails expand skb) :
    skb.reserveHead sizeofIphdr expand.head = none := by
  rw [SkBuff.reserveHead, if_pos h.1, h.2]
  rfl

private theorem reserveHead_of_not_fails (h : ¬ HeadFails expand skb) :
    ∃ skb', skb.reserveHead sizeofIphdr expand.head = some skb' ∧
      sizeofIphdr ≤ skb'.headroom ∧ skb'.data = skb.data := by
  rw [SkBuff.reserveHead]
  split_ifs with hlt hexpand
  · exact ⟨_, rfl, by change sizeofIphdr ≤ _ + _; omega, rfl⟩
  · exact absurd ⟨hlt, Bool.eq_false_iff.mpr hexpand⟩ h
  · exact ⟨skb, rfl, Nat.le_of_not_lt hlt, rfl⟩

/-- Without room behind the data, the packet is passed on as it came to the flush. -/
private theorem flushBuffer_tailFails (h : TailFails expand skb b) :
    flushBuffer protocol len ifaAddress expand skb b = .ok (skb, b.resetBuffer) := by
  rw [flushBuffer, reserveTail_of_fails h]

/-- The rest of a flush, behind the copy of the buffered bytes. -/
private def pushHeader (protocol total : ℕ) (ifaAddress : UInt32) (expand : Expand) (skb : SkBuff)
    (b : AggregateBuffer) : Except Fault (SkBuff × AggregateBuffer) :=
  match skb.reserveHead sizeofIphdr expand.head with
  | none => .ok (skb, b.resetBuffer)
  | some skb => do
    let skb ← skb.push (aggregateHeader protocol total ifaAddress b.ip)
    .ok (skb, b.resetBuffer)

/-- With room behind the data, the buffered bytes go there. -/
private theorem flushBuffer_put (htail : ¬ TailFails expand skb b) :
    ∃ skb₁ : SkBuff, skb₁.data = skb.data ++ b.data ∧ skb₁.headroom = skb.headroom ∧
      flushBuffer protocol len ifaAddress expand skb b =
        pushHeader protocol (sizeofIphdr + b.bufferDataLen + len) ifaAddress expand skb₁ b := by
  obtain ⟨skb₀, hskb₀, hroom, hdata, hheadroom⟩ := reserveTail_of_not_fails htail
  have hput : skb₀.put b.data =
      .ok { skb₀ with data := skb₀.data ++ b.data, tailroom := skb₀.tailroom - b.data.length } :=
    if_pos (by rw [b.length_data]; exact hroom)
  refine ⟨{ skb₀ with data := skb₀.data ++ b.data, tailroom := skb₀.tailroom - b.data.length },
    congrArg (· ++ b.data) hdata, hheadroom, ?_⟩
  rw [flushBuffer, hskb₀]
  dsimp only
  rw [hput, ok_bind]
  rfl

/-- Without room in front of the data, the packet is passed on with the buffered bytes behind it. -/
private theorem flushBuffer_headFails (htail : ¬ TailFails expand skb b)
    (hhead : HeadFails expand skb) :
    ∃ skb', flushBuffer protocol len ifaAddress expand skb b = .ok (skb', b.resetBuffer) ∧
      skb'.data = skb.data ++ b.data := by
  obtain ⟨skb₁, hdata, hheadroom, hflush⟩ := flushBuffer_put htail
  have hnone : skb₁.reserveHead sizeofIphdr expand.head = none :=
    reserveHead_of_fails ⟨hheadroom ▸ hhead.1, hhead.2⟩
  exact ⟨skb₁, by rw [hflush, pushHeader, hnone], hdata⟩

/-- With room on both sides, the aggregate is complete. -/
private theorem flushBuffer_complete (htail : ¬ TailFails expand skb b)
    (hhead : ¬ HeadFails expand skb) (hlen : len = skb.data.length) :
    ∃ skb', flushBuffer protocol len ifaAddress expand skb b = .ok (skb', b.resetBuffer) ∧
      skb'.data = completeAggregate ifaAddress b protocol skb.data := by
  obtain ⟨skb₁, hdata, hheadroom, hflush⟩ := flushBuffer_put htail
  obtain ⟨skb₂, hskb₂, hroom, hdata₂⟩ :=
    reserveHead_of_not_fails fun h : HeadFails expand skb₁ => hhead ⟨hheadroom ▸ h.1, h.2⟩
  obtain ⟨skb₃, hpush, hdata₃⟩ := SkBuff.push_ok skb₂
    (aggregateHeader protocol (sizeofIphdr + b.bufferDataLen + len) ifaAddress b.ip)
    (by rw [length_aggregateHeader]; exact hroom)
  have htotal : sizeofIphdr + b.bufferDataLen + len =
      sizeofIphdr + (skb.data ++ b.data).length := by
    rw [hlen, List.length_append, b.length_data]
    omega
  refine ⟨skb₃, ?_, ?_⟩
  · rw [hflush, pushHeader, hskb₂]
    dsimp only
    rw [hpush, ok_bind]
  · rw [hdata₃, hdata₂, hdata, htotal, completeAggregate]

/-! ### Intact or not -/

private theorem length_completeAggregate (packet : List UInt8) :
    (completeAggregate ifaAddress b protocol packet).length =
      20 + packet.length + b.data.length := by
  rw [completeAggregate, List.length_append, List.length_append, length_aggregateHeader]
  change 20 + _ = _
  omega

/-- A packet of another length than both is not intact. -/
private theorem not_passedIntact {original complete : List UInt8}
    (horiginal : skb.data.length ≠ original.length)
    (hcomplete : skb.data.length ≠ complete.length) :
    ¬ PassedIntact expand original complete skb := by
  rintro (h | ⟨-, h⟩)
  · exact hcomplete (congrArg List.length h)
  · exact horiginal (congrArg List.length h)

namespace SoundHeader

variable (h : SoundHeader skb.data)

include h

private theorem length_ge : 20 ≤ skb.data.length := by
  have hge := h.ihl_ge
  have hle := h.ihl_le
  omega

private theorem ipTotLen_eq : ipTotLen skb.data 0 = .ok skb.data.length := by
  have hlen := h.length_ge
  rw [← h.totLen_eq]
  exact load_eq (by omega)

/-- What `flush_buffer_app` comes to. -/
private theorem flushBufferApp_eq :
    flushBufferApp ifaAddress expand skb b =
      flushBuffer agregatedApplicationEncapUdpProto (skb.data.length - 4 * ihlOf skb.data)
        ifaAddress expand (skb.pull (4 * ihlOf skb.data)) b := by
  have hlen := h.length_ge
  have hihl : ipIhl skb.data 0 = .ok (ihlOf skb.data) := load_eq (by omega)
  have hlt := totLenOf_lt skb.data
  have hle := h.ihl_le
  rw [h.totLen_eq] at hlt
  have hmod : (skb.data.length + 65536 - 4 * ihlOf skb.data) % 65536 =
      skb.data.length - 4 * ihlOf skb.data := by
    omega
  rw [flushBufferApp, h.ipTotLen_eq, ok_bind, hihl, ok_bind]
  dsimp only
  rw [hmod]

/-- What `flush_buffer_ip` comes to. -/
private theorem flushBufferIp_eq :
    flushBufferIp ifaAddress expand skb b =
      flushBuffer agregatedIpEncapIpProto skb.data.length ifaAddress expand skb b := by
  rw [flushBufferIp, h.ipTotLen_eq, ok_bind]

/-- What is left of the packet without its header. -/
private theorem pull_eq :
    (skb.pull (4 * ihlOf skb.data)).data = skb.data.drop (4 * ihlOf skb.data) ∧
      (skb.pull (4 * ihlOf skb.data)).headroom = skb.headroom + 4 * ihlOf skb.data ∧
      (skb.pull (4 * ihlOf skb.data)).tailroom = skb.tailroom := by
  rw [SkBuff.pull, if_pos h.ihl_le]
  exact ⟨rfl, rfl, rfl⟩

/-- **Datagrams**: the packet is intact unless room behind it is asked for in vain. -/
theorem appIntact_iff :
    AppIntact ifaAddress expand skb b ↔ ¬ TailFails expand skb b := by
  have hge := h.ihl_ge
  have hle := h.ihl_le
  obtain ⟨hdata, hheadroom, htailroom⟩ := h.pull_eq
  have hfails : TailFails expand (skb.pull (4 * ihlOf skb.data)) b ↔ TailFails expand skb b := by
    rw [TailFails, htailroom, TailFails]
  rw [AppIntact, h.flushBufferApp_eq, ← hfails]
  by_cases htail : TailFails expand (skb.pull (4 * ihlOf skb.data)) b
  · refine iff_of_false ?_ (not_not.mpr htail)
    rintro ⟨skb', hflush, hintact⟩
    -- the packet goes out without its IP header
    rw [flushBuffer_tailFails htail] at hflush
    cases hflush
    refine not_passedIntact ?_ ?_ hintact
    · rw [hdata, List.length_drop]
      omega
    · rw [hdata, length_completeAggregate]
      omega
  · refine iff_of_true ?_ htail
    -- the header that was taken off left enough room
    have hhead : ¬ HeadFails expand (skb.pull (4 * ihlOf skb.data)) := by
      rintro ⟨hlt, -⟩
      rw [hheadroom] at hlt
      change skb.headroom + 4 * ihlOf skb.data < 20 at hlt
      omega
    obtain ⟨skb', hflush, hskb'⟩ := flushBuffer_complete htail hhead
      (show skb.data.length - 4 * ihlOf skb.data = _ by rw [hdata, List.length_drop])
    rw [hdata] at hskb'
    exact ⟨skb', hflush, .inl hskb'⟩

/-- **IP packets**: the packet is intact unless bytes were put behind it, and room in front of it is
asked for in vain. -/
theorem ipIntact_iff :
    IpIntact ifaAddress expand skb b ↔
      TailFails expand skb b ∨ ¬ HeadFails expand skb ∨ b.data = [] := by
  rw [IpIntact, h.flushBufferIp_eq]
  by_cases htail : TailFails expand skb b
  · refine iff_of_true ⟨skb, flushBuffer_tailFails htail, .inr ⟨.inl htail.2, rfl⟩⟩ (.inl htail)
  rw [or_iff_right htail]
  by_cases hhead : HeadFails expand skb
  · obtain ⟨skb', hflush, hdata⟩ := flushBuffer_headFails htail hhead
    rw [or_iff_right (not_not.mpr hhead), hflush]
    constructor
    · rintro ⟨skb'', hskb'', hintact⟩
      cases hskb''
      -- the buffered bytes stand behind the packet, and no header says so
      by_contra hne
      have hpos := List.length_pos_iff.mpr hne
      refine not_passedIntact ?_ ?_ hintact
      · rw [hdata, List.length_append]
        omega
      · rw [hdata, List.length_append, length_completeAggregate]
        omega
    · intro hnil
      refine ⟨skb', rfl, .inr ⟨.inr hhead.2, ?_⟩⟩
      rw [hdata, hnil, List.append_nil]
  · obtain ⟨skb', hflush, hdata⟩ := flushBuffer_complete htail hhead rfl
    exact iff_of_true ⟨skb', hflush, .inl hdata⟩ (.inl hhead)

end SoundHeader

/-- **A flush leaves the packet in flight intact** exactly if no expansion fails after the packet
was changed: for datagrams the one behind the data, and for IP packets the one in front of them. -/
theorem flush_intact_iff (h : SoundHeader skb.data) (ifaAddress : UInt32) (expand : Expand)
    (b : AggregateBuffer) :
    (AppIntact ifaAddress expand skb b ↔ ¬ TailFails expand skb b) ∧
      (IpIntact ifaAddress expand skb b ↔
        TailFails expand skb b ∨ ¬ HeadFails expand skb ∨ b.data = []) :=
  ⟨h.appIntact_iff, h.ipIntact_iff⟩

/-- A datagram with a timestamp, and no room around it. -/
def tightSkb : SkBuff where
  headroom := 0
  data := [0x45, 0, 0, 36, 0, 0, 0, 0, 64, 17, 0, 0, 10, 0, 0, 1, 10, 0, 0, 2,
    0, 7, 0, 9, 0, 16, 0, 0, 0, 0, 0, 0, 0, 0, 0, 5]
  tailroom := 0

/-- A buffer with another datagram. -/
def nearlyFull : AggregateBuffer where
  ip := 7
  mem := [0, 0, 0, 0, 0, 7, 0, 9, 0, 16, 0, 0, 0, 0, 0, 0, 0, 0, 0, 3]
  head := 4
  head_le := by decide

private theorem soundHeader_tightSkb :
    SoundHeader tightSkb.data := ⟨by decide, by decide, by decide⟩

theorem flush_intact_tightSkb :
    SoundHeader tightSkb.data ∧ AppIntact 7 .ok tightSkb nearlyFull ∧
      IpIntact 7 .ok tightSkb nearlyFull := by
  obtain ⟨happ, hip⟩ := flush_intact_iff soundHeader_tightSkb 7 .ok nearlyFull
  refine ⟨soundHeader_tightSkb, happ.mpr ?_, hip.mpr (.inr (.inl ?_))⟩
  · rintro ⟨-, h⟩
    cases h
  · rintro ⟨-, h⟩
    cases h

/-- **A datagram without its header** is passed on when there is no memory behind it, and **an IP
packet with foreign bytes behind it** when there is none in front. -/
theorem flush_not_intact :
    (∃ skb' b', pushAppPacket 7 ⟨false, true⟩ nearlyFull tightSkb = .ok (.accept, skb', b') ∧
      skb'.data = tightSkb.data.drop 20) ∧
    (∃ skb', flushBufferIp 7 ⟨true, false⟩ tightSkb nearlyFull =
        .ok (skb', nearlyFull.resetBuffer) ∧
      skb'.data = tightSkb.data ++ nearlyFull.data) ∧
    ¬ AppIntact 7 ⟨false, true⟩ tightSkb nearlyFull ∧
    ¬ IpIntact 7 ⟨true, false⟩ tightSkb nearlyFull := by
  refine ⟨⟨_, _, rfl, rfl⟩, ⟨_, rfl, rfl⟩, fun h => ?_, fun h => ?_⟩
  · exact soundHeader_tightSkb.appIntact_iff.mp h ⟨by decide, rfl⟩
  · rcases soundHeader_tightSkb.ipIntact_iff.mp h with ⟨-, h⟩ | h | h
    · cases h
    · exact h ⟨by decide, rfl⟩
    · exact absurd h (by decide)

end MiaVita
