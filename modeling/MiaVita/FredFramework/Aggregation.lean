import MiaVita.FredFramework.ByteBuffer
import MiaVita.FredFramework.Headers

/-!
# The aggregation hooks (`aggregation/aggregation.c`)

A hook that takes a packet stacks it on the buffer of its destination: it first rewrites the
timestamp of the packet on top of the buffer, in place, to the difference to the new one, and
then either pushes the new packet (`NF_STOLEN`), or, when the buffer would be full, turns the
packet itself into the aggregate, its own bytes first and the buffered ones behind them
(`NF_ACCEPT`). `pushAppPacket` stacks UDP datagrams and `pushIpPacket` whole IP packets.

What the kernel decides is a parameter: the outcome of each `pskb_expand_head` and of the
allocation of a buffer, and the address of the outgoing device. A socket buffer is its data and
the room before and behind it.
-/

namespace MiaVita

open Bytes Memory StampChain Fallible

/-- What a hook tells netfilter to do with the packet. -/
inductive Verdict where
  | accept
  | stolen
  | drop
  deriving DecidableEq, Repr

/-! ### Socket buffers -/

/-- `struct sk_buff`: the packet and the room around it. -/
structure SkBuff where
  headroom : ℕ
  data : List UInt8
  tailroom : ℕ

namespace SkBuff

/-- `skb_pull`; it does nothing when there are not that many bytes. -/
def pull (skb : SkBuff) (n : ℕ) : SkBuff :=
  if n ≤ skb.data.length then
    { skb with headroom := skb.headroom + n, data := skb.data.drop n }
  else skb

/-- Makes room for `n` bytes behind the data with `pskb_expand_head`, if there is not enough;
`none` when that fails. -/
def reserveTail (skb : SkBuff) (n : ℕ) (expanded : Bool) : Option SkBuff :=
  if skb.tailroom < n then
    if expanded then some { skb with tailroom := skb.tailroom + (n - skb.tailroom) } else none
  else some skb

/-- Makes room for `n` bytes before the data. -/
def reserveHead (skb : SkBuff) (n : ℕ) (expanded : Bool) : Option SkBuff :=
  if skb.headroom < n then
    if expanded then some { skb with headroom := skb.headroom + (n - skb.headroom) } else none
  else some skb

/-- `skb_put` and the copy into the new space; without room the kernel panics. -/
def put (skb : SkBuff) (xs : List UInt8) : Except Fault SkBuff :=
  if xs.length ≤ skb.tailroom then
    .ok { skb with data := skb.data ++ xs, tailroom := skb.tailroom - xs.length }
  else .error .panic

/-- `skb_push` of a header; without room the kernel panics. -/
def push (skb : SkBuff) (xs : List UInt8) : Except Fault SkBuff :=
  if xs.length ≤ skb.headroom then
    .ok { skb with headroom := skb.headroom - xs.length, data := xs ++ skb.data }
  else .error .panic

private theorem reserveTail_true (skb : SkBuff) (n : ℕ) :
    ∃ skb', skb.reserveTail n true = some skb' ∧
    n ≤ skb'.tailroom ∧ skb'.data = skb.data := by
  by_cases h : skb.tailroom < n
  · exact ⟨_, (if_pos h).trans (if_pos rfl), by change n ≤ _ + _; omega, rfl⟩
  · exact ⟨skb, if_neg h, Nat.le_of_not_lt h, rfl⟩

theorem reserveHead_true (skb : SkBuff) (n : ℕ) : ∃ skb', skb.reserveHead n true = some skb' ∧
    n ≤ skb'.headroom ∧ skb'.data = skb.data := by
  by_cases h : skb.headroom < n
  · exact ⟨_, (if_pos h).trans (if_pos rfl), by change n ≤ _ + _; omega, rfl⟩
  · exact ⟨skb, if_neg h, Nat.le_of_not_lt h, rfl⟩

private theorem put_ok (skb : SkBuff) (xs : List UInt8) (h : xs.length ≤ skb.tailroom) :
    ∃ skb', skb.put xs = .ok skb' ∧ skb'.data = skb.data ++ xs :=
  ⟨_, if_pos h, rfl⟩

theorem push_ok (skb : SkBuff) (xs : List UInt8) (h : xs.length ≤ skb.headroom) :
    ∃ skb', skb.push xs = .ok skb' ∧ skb'.data = xs ++ skb.data :=
  ⟨_, if_pos h, rfl⟩

end SkBuff

/-! ### Flushing into the packet at hand -/

/-- Whether the two `pskb_expand_head` calls of a flush succeed. -/
structure Expand where
  tail : Bool
  head : Bool

/-- Both expansions succeed. -/
def Expand.ok : Expand := ⟨true, true⟩

/-- The common part of `flush_buffer_app` and `flush_buffer_ip`: the buffered bytes go behind the
`len` bytes of the packet and a new header in front; the buffer is reset in every case. -/
def flushBuffer (protocol len : ℕ) (ifaAddress : UInt32) (expand : Expand) (skb : SkBuff)
    (b : AggregateBuffer) : Except Fault (SkBuff × AggregateBuffer) :=
  match skb.reserveTail b.bufferDataLen expand.tail with
  | none => .ok (skb, b.resetBuffer)
  | some skb => do
    let skb ← skb.put b.data
    match skb.reserveHead sizeofIphdr expand.head with
    | none => .ok (skb, b.resetBuffer)
    | some skb => do
      let skb ← skb.push
        (aggregateHeader protocol (sizeofIphdr + b.bufferDataLen + len) ifaAddress b.ip)
      .ok (skb, b.resetBuffer)

/-- `flush_buffer_app`: the packet loses its IP header first. -/
def flushBufferApp (ifaAddress : UInt32) (expand : Expand) (skb : SkBuff) (b : AggregateBuffer) :
    Except Fault (SkBuff × AggregateBuffer) := do
  let totLen ← ipTotLen skb.data 0
  let ihl ← ipIhl skb.data 0
  -- `uint16_t len`
  let len := (totLen + 65536 - 4 * ihl) % 65536
  flushBuffer agregatedApplicationEncapUdpProto len ifaAddress expand (skb.pull (4 * ihl)) b

/-- `flush_buffer_ip`. -/
def flushBufferIp (ifaAddress : UInt32) (expand : Expand) (skb : SkBuff) (b : AggregateBuffer) :
    Except Fault (SkBuff × AggregateBuffer) := do
  let len ← ipTotLen skb.data 0
  flushBuffer agregatedIpEncapIpProto len ifaAddress expand skb b

/-! ### Pushing a packet -/

/-- Rewrites the timestamp at `pdu` in the buffer to the difference of the one at `pushed` in the
new packet `m` to it. -/
def restamp (b : AggregateBuffer) (pdu : ℕ) (m : List UInt8) (pushed : ℕ) :
    Except Fault AggregateBuffer := do
  let new ← pduTimestamp m pushed
  let old ← pduTimestamp b.mem pdu
  b.storeAt pdu (be 8 (new - old).toNat)

/-- `push_bytes` of `len` bytes at `from` in `m`; the hooks panic when it fails. -/
def pushOrPanic (b : AggregateBuffer) (m : List UInt8) (start len : ℕ) :
    Except Fault AggregateBuffer := do
  let bytes ← load id m start len
  match b.pushBytes bytes with
  | none => .error .panic
  | some b => .ok b

/-- The middle of `__push_app_packet`: a buffered datagram has its timestamp behind its UDP
header. -/
def restampUdp (b : AggregateBuffer) (m : List UInt8) (pushed : ℕ) :
    Except Fault AggregateBuffer :=
  match b.peekPacket with
  | none => .ok b
  | some udpHelper => restamp b (udpHelper + sizeofUdphdr) m pushed

/-- `__push_app_packet`. -/
def pushAppPacket (ifaAddress : UInt32) (expand : Expand) (b : AggregateBuffer) (skb : SkBuff) :
    Except Fault (Verdict × SkBuff × AggregateBuffer) := do
  let protocol ← ipProtocol skb.data 0
  if protocol ≠ ipprotoUdp then
    .ok (.accept, skb, b)
  else do
    let ihl ← ipIhl skb.data 0
    let totLen ← ipTotLen skb.data 0
    -- `uint16_t len`
    let len := (totLen + 65536 - 4 * ihl) % 65536
    let b ← restampUdp b skb.data (4 * ihl + sizeofUdphdr)
    if b.bufferLen ≤ b.bufferDataLen + len then do
      let (skb, b) ← flushBufferApp ifaAddress expand skb b
      .ok (.accept, skb, b)
    else do
      let b ← pushOrPanic b skb.data (4 * ihl) len
      .ok (.stolen, skb, b)

/-- What `__push_ip_packet` finds on top of the buffer. -/
inductive Peeked where
  | nothing
  | unsupported
  | pdu (address : ℕ)
  deriving DecidableEq

/-- The protocols an aggregate of IP packets may hold. -/
def supported (protocol : ℕ) : Bool :=
  protocol = agregatedApplicationEncapUdpProto ∨ protocol = ipprotoUdp

/-- The first part of `__push_ip_packet`: where the newest buffered timestamp is. -/
def seekPdu (b : AggregateBuffer) : Except Fault Peeked :=
  match b.peekPacket with
  | none => .ok .nothing
  | some seeker => do
    let protocol ← ipProtocol b.mem seeker
    if supported protocol then do
      let ihl ← ipIhl b.mem seeker
      .ok (.pdu (seeker + (4 * ihl + sizeofUdphdr)))
    else .ok .unsupported

/-- The middle of `__push_ip_packet`. -/
def restampPeeked (b : AggregateBuffer) (m : List UInt8) (pushed : ℕ) :
    Peeked → Except Fault AggregateBuffer
  | .pdu pdu => restamp b pdu m pushed
  | _ => .ok b

/-- `__push_ip_packet`. -/
def pushIpPacket (ifaAddress : UInt32) (expand : Expand) (b : AggregateBuffer) (skb : SkBuff) :
    Except Fault (Verdict × SkBuff × AggregateBuffer) := do
  let totLen ← ipTotLen skb.data 0
  let peeked ← seekPdu b
  if peeked = .unsupported then
    .ok (.accept, skb, b)
  else do
    let protocol ← ipProtocol skb.data 0
    -- packets that are IP aggregates already are passed on like unsupported ones
    if supported protocol = false then
      .ok (.accept, skb, b)
    else do
      let ihl ← ipIhl skb.data 0
      let b ← restampPeeked b skb.data (4 * ihl + sizeofUdphdr) peeked
      if b.bufferLen ≤ b.bufferDataLen + totLen then do
        let (skb, b) ← flushBufferIp ifaAddress expand skb b
        .ok (.accept, skb, b)
      else do
        let b ← pushOrPanic b skb.data 0 totLen
        .ok (.stolen, skb, b)

/-! ### The hooks -/

/-- `get_app_buffer_for` and `get_ip_buffer_for`: the node of the buffer for `ip`, added to the
list when there is none; `created` is the outcome of the allocation. A node may hold `NULL`, from
an allocation that failed, and the walk then stops the kernel. -/
def getBufferFor (size : ℕ) (created : Bool) (ip : UInt32) :
    List (Option AggregateBuffer) → Except Fault (ℕ × List (Option AggregateBuffer))
  | [] => .ok (0, [createAggregateBuffer size ip created])
  | none :: _ => .error .null
  | some ab :: abs =>
    if ab.ip = ip then .ok (0, some ab :: abs)
    else do
      let (i, abs) ← getBufferFor size created ip abs
      .ok (i + 1, some ab :: abs)

/-- What a hook does with the buffer found. -/
def pushTo (push : AggregateBuffer → SkBuff → Except Fault (Verdict × SkBuff × AggregateBuffer))
    (i : ℕ) (buffers : List (Option AggregateBuffer)) (skb : SkBuff) :
    Except Fault (Verdict × SkBuff × List (Option AggregateBuffer)) :=
  match buffers[i]? with
  | some (some ab) => do
    let (verdict, skb, ab) ← push ab skb
    .ok (verdict, skb, buffers.set i (some ab))
  | _ => .ok (.accept, skb, buffers)

/-- `aggregation_post_routing_hook`. Its protocol test is the body of a `switch` without a case
label, which is never entered. -/
def aggregationPostRoutingHook (aggregateIpBufferSize : ℕ) (ifaAddress : UInt32) (created : Bool)
    (expand : Expand) (ipBuffers : List (Option AggregateBuffer)) (skb : SkBuff) :
    Except Fault (Verdict × SkBuff × List (Option AggregateBuffer)) := do
  let daddr ← ipDaddr skb.data 0
  let (i, ipBuffers) ← getBufferFor aggregateIpBufferSize created daddr ipBuffers
  pushTo (pushIpPacket ifaAddress expand) i ipBuffers skb

/-- `aggregation_local_out_hook`. -/
def aggregationLocalOutHook (aggregateAppPacketsBufferSize : ℕ) (ifaAddress : UInt32)
    (created : Bool) (expand : Expand) (appBuffers : List (Option AggregateBuffer))
    (skb : SkBuff) : Except Fault (Verdict × SkBuff × List (Option AggregateBuffer)) := do
  let protocol ← ipProtocol skb.data 0
  if protocol ≠ ipprotoUdp then
    .ok (.accept, skb, appBuffers)
  else do
    let daddr ← ipDaddr skb.data 0
    let (i, appBuffers) ← getBufferFor aggregateAppPacketsBufferSize created daddr appBuffers
    pushTo (pushAppPacket ifaAddress expand) i appBuffers skb

/-! ### A flush -/

private theorem SkBuff.put_of_reserveTail {skb skb₁ : SkBuff} {n : ℕ} {expanded : Bool}
    (h : skb.reserveTail n expanded = some skb₁) {xs : List UInt8} (hxs : xs.length = n) :
    ∃ skb₂, skb₁.put xs = .ok skb₂ := by
  rw [reserveTail] at h
  have hroom : xs.length ≤ skb₁.tailroom := by
    split_ifs at h with hlt hexpanded
    · cases h
      change _ ≤ skb.tailroom + (n - skb.tailroom)
      omega
    · cases h
      omega
  exact ⟨_, if_pos hroom⟩

private theorem SkBuff.push_of_reserveHead {skb skb₁ : SkBuff} {n : ℕ} {expanded : Bool}
    (h : skb.reserveHead n expanded = some skb₁) {xs : List UInt8} (hxs : xs.length = n) :
    ∃ skb₂, skb₁.push xs = .ok skb₂ := by
  rw [reserveHead] at h
  have hroom : xs.length ≤ skb₁.headroom := by
    split_ifs at h with hlt hexpanded
    · cases h
      change _ ≤ skb.headroom + (n - skb.headroom)
      omega
    · cases h
      omega
  exact ⟨_, if_pos hroom⟩

/-- A flush never panics, and the buffer is empty afterwards. -/
theorem flushBuffer_returns (protocol len : ℕ) (ifaAddress : UInt32) (expand : Expand)
    (skb : SkBuff) (b : AggregateBuffer) :
    ∃ skb', flushBuffer protocol len ifaAddress expand skb b = .ok (skb', b.resetBuffer) := by
  rw [flushBuffer]
  cases htail : skb.reserveTail b.bufferDataLen expand.tail with
  | none => exact ⟨skb, rfl⟩
  | some skb₁ =>
    obtain ⟨skb₂, hput⟩ := SkBuff.put_of_reserveTail htail b.length_data
    simp only [hput, ok_bind]
    cases hhead : skb₂.reserveHead sizeofIphdr expand.head with
    | none => exact ⟨skb₂, rfl⟩
    | some skb₃ =>
      obtain ⟨skb₄, hpush⟩ := SkBuff.push_of_reserveHead hhead (length_aggregateHeader protocol
        (sizeofIphdr + b.bufferDataLen + len) ifaAddress b.ip)
      simp only [hpush, ok_bind]
      exact ⟨skb₄, rfl⟩

/-- A flush with both expansions: a new header, the packet, the buffered data. -/
theorem flushBuffer_ok (protocol len : ℕ) (ifaAddress : UInt32) (skb : SkBuff)
    (b : AggregateBuffer) :
    ∃ skb', flushBuffer protocol len ifaAddress .ok skb b = .ok (skb', b.resetBuffer) ∧
      skb'.data = aggregateHeader protocol (sizeofIphdr + b.bufferDataLen + len) ifaAddress b.ip ++
        (skb.data ++ b.data) := by
  obtain ⟨skb₁, htail, hroom₁, hdata₁⟩ := skb.reserveTail_true b.bufferDataLen
  obtain ⟨skb₂, hput, hdata₂⟩ := SkBuff.put_ok skb₁ b.data
    (by rw [AggregateBuffer.length_data]; exact hroom₁)
  obtain ⟨skb₃, hhead, hroom₃, hdata₃⟩ := skb₂.reserveHead_true sizeofIphdr
  obtain ⟨skb₄, hpush, hdata₄⟩ := SkBuff.push_ok skb₃
    (aggregateHeader protocol (sizeofIphdr + b.bufferDataLen + len) ifaAddress b.ip)
    (by rw [length_aggregateHeader]; exact hroom₃)
  refine ⟨skb₄, ?_, ?_⟩
  · simp only [flushBuffer, Expand.ok, htail, hput, ok_bind, hhead, hpush]
  · rw [hdata₄, hdata₃, hdata₂, hdata₁]

end MiaVita
