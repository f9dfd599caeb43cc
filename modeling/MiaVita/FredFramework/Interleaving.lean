import MiaVita.FredFramework.Emission
import MiaVita.Lib.Run

/-!
# A hook and the flush thread on one buffer

Each operation on a buffer runs under its lock, but a hook makes several of them in a row, and
reads and writes buffered bytes in between without the lock; the flush thread's `mv_data` may fall
between any two. `hookStep` cuts `__push_app_packet` and `__push_ip_packet`, with the flush they
may end in, into such steps; the values a hook takes from the packet at hand are its own and need
no step. Run alone, the steps compute what the hooks compute (`hook_alone`).

In an interleaving with steps of `mv_data` there is one window in which the flush thread does
harm: from the write that makes the newest buffered timestamp relative to the packet at hand up to
the `push_bytes` or `reset_buffer` that ends the hook. Data taken out in it leaves without its
newest absolute timestamp, and may leave twice. Taken out at any other point, earlier than the
write included, it does not matter.
-/

namespace MiaVita

open Bytes Memory StampChain Fallible

/-! ### The steps of a hook -/

/-- Where a hook is: what its next step on the buffer will be. -/
inductive Pc where
  /-- `peek_packet(b)`. -/
  | peek
  /-- The read of `seeker->protocol`. -/
  | readProtocol (seeker : ℕ)
  /-- The read of `seeker->ihl`. -/
  | readIhl (seeker : ℕ)
  /-- The read of `pdu->timestamp`. -/
  | readTimestamp (pdu : ℕ)
  /-- The write of `pdu->timestamp`. -/
  | writeTimestamp (pdu : ℕ) (t : UInt64)
  /-- `buffer_data_len(b)` in the test for room. -/
  | testRoom
  /-- `push_bytes`. -/
  | pushBytes
  /-- `buffer_data_len(b)` compared with the tailroom. -/
  | tailTest (skb : SkBuff)
  /-- `buffer_data_len(b)` for the expansion of the tail. -/
  | tailExpand (skb : SkBuff)
  /-- `skb_put` of `buffer_data_len(b)` bytes. -/
  | put (skb : SkBuff)
  /-- `buffer_data_len(b)` for the `memcpy` to offset `dst`. -/
  | copyLen (skb : SkBuff) (dst : ℕ)
  /-- `b->head` for the `memcpy`. -/
  | copyHead (skb : SkBuff) (dst n : ℕ)
  /-- The `memcpy` of `n` bytes from `src`. -/
  | copyBytes (skb : SkBuff) (dst n src : ℕ)
  /-- `buffer_data_len(b)` for the length of the aggregate. -/
  | setTotLen (skb : SkBuff)
  /-- `reset_buffer`. -/
  | reset (skb : SkBuff)
  | done (verdict : Verdict) (skb : SkBuff)
  | fault (f : Fault)

/-- What comes after a packet was found on top of the buffer. A buffered datagram has its timestamp
behind its UDP header; in an IP packet it is looked for. -/
def Level.peeked : Level → ℕ → Pc
  | app, udpHelper => .readTimestamp (udpHelper + sizeofUdphdr)
  | ip, seeker => .readProtocol seeker

section Machine

variable (level : Level) (ifaAddress : UInt32) (expand : Expand) (o : Outgoing)

/-- One step of the hook on the buffer, for the packet `o`. -/
def hookStep (b : AggregateBuffer) : Pc → Except Fault (AggregateBuffer × Pc)
  | .peek => .ok (b, b.peekPacket.elim .testRoom level.peeked)
  | .readProtocol seeker => do
    let protocol ← ipProtocol b.mem seeker
    .ok (b, if supported protocol then .readIhl seeker else .done .accept o.skb)
  | .readIhl seeker => do
    let ihl ← ipIhl b.mem seeker
    .ok (b, .readTimestamp (seeker + (4 * ihl + sizeofUdphdr)))
  | .readTimestamp pdu => do
    let old ← pduTimestamp b.mem pdu
    .ok (b, .writeTimestamp pdu (o.packet.timestamp - old))
  | .writeTimestamp pdu t => do
    let b ← b.storeAt pdu (be 8 t.toNat)
    .ok (b, .testRoom)
  | .testRoom =>
    .ok (b, if b.bufferLen ≤ b.bufferDataLen + (level.record o.packet).bytes.length
      then .tailTest (level.stripped o.skb o.packet.toIpPacket) else .pushBytes)
  | .pushBytes =>
    match b.pushBytes (level.record o.packet).bytes with
    | none => .error .panic
    | some b => .ok (b, .done .stolen o.skb)
  | .tailTest skb =>
    .ok (b, if skb.tailroom < b.bufferDataLen then .tailExpand skb else .put skb)
  | .tailExpand skb =>
    -- the amount is a difference of two `int`s, and the buffer may be shorter by now
    .ok (b, if expand.tail then .put { skb with tailroom := b.bufferDataLen } else .reset skb)
  | .put skb =>
    if b.bufferDataLen ≤ skb.tailroom then
      -- the new bytes are not cleared; their value does not matter
      .ok (b, .copyLen { skb with
        data := skb.data ++ List.replicate b.bufferDataLen 0
        tailroom := skb.tailroom - b.bufferDataLen } skb.data.length)
    else .error .panic
  | .copyLen skb dst => .ok (b, .copyHead skb dst b.bufferDataLen)
  | .copyHead skb dst n => .ok (b, .copyBytes skb dst n b.head)
  | .copyBytes skb dst n src => do
    let bytes ← load id b.mem src n
    let data ← store skb.data dst bytes
    let skb := { skb with data }
    match skb.reserveHead sizeofIphdr expand.head with
    | none => .ok (b, .reset skb)
    | some skb => .ok (b, .setTotLen skb)
  | .setTotLen skb => do
    let skb ← skb.push (aggregateHeader level.proto
      (sizeofIphdr + b.bufferDataLen + (level.record o.packet).bytes.length) ifaAddress b.ip)
    .ok (b, .reset skb)
  | .reset skb => .ok (b.resetBuffer, .done .accept skb)
  | .done verdict skb => .ok (b, .done verdict skb)
  | .fault f => .error f

/-- The buffer, the hook, and the blocks `mv_data` has taken out so far. -/
structure Interleaved where
  b : AggregateBuffer
  pc : Pc
  sent : List (List UInt8)

/-- A step of an interleaving: of the hook, or `mv_data` with the outcome of its allocation. -/
inductive Atom where
  | hook
  | mvData (allocated : Bool)
  deriving DecidableEq

/-- One step of an interleaving. -/
def interleave (s : Interleaved) : Atom → Interleaved
  | .hook =>
    match hookStep level ifaAddress expand o s.b s.pc with
    | .ok (b, pc) => { s with b, pc }
    | .error f => { s with pc := .fault f }
  | .mvData allocated =>
    { s with
      b := (s.b.mvData allocated).2
      sent := s.sent ++ (s.b.mvData allocated).1.toList }

/-! ### The hook alone -/

/-- Run alone from `s`, the hook comes to its end with the given result. -/
def Ends (s : Interleaved) : Except Fault (Verdict × SkBuff × AggregateBuffer) → Prop
  | .ok (verdict, skb, b) => ∃ n, Run.exec (interleave level ifaAddress expand o) s
      (List.replicate n .hook) = ⟨b, .done verdict skb, s.sent⟩
  | .error f => ∃ n b, Run.exec (interleave level ifaAddress expand o) s
      (List.replicate n .hook) = ⟨b, .fault f, s.sent⟩

variable {level ifaAddress expand o} {b b' : AggregateBuffer} {pc pc' : Pc}
  {sent : List (List UInt8)} {r : Except Fault (Verdict × SkBuff × AggregateBuffer)}

private theorem Ends.done (verdict : Verdict) (skb : SkBuff) :
    Ends level ifaAddress expand o ⟨b, .done verdict skb, sent⟩ (.ok (verdict, skb, b)) :=
  ⟨0, rfl⟩

private theorem Ends.fault {f : Fault} (h : hookStep level ifaAddress expand o b pc = .error f) :
    Ends level ifaAddress expand o ⟨b, pc, sent⟩ (.error f) := by
  refine ⟨1, b, ?_⟩
  rw [List.replicate_one, Run.exec_cons, interleave, h]
  rfl

private theorem Ends.step (h : hookStep level ifaAddress expand o b pc = .ok (b', pc'))
    (hrest : Ends level ifaAddress expand o ⟨b', pc', sent⟩ r) :
    Ends level ifaAddress expand o ⟨b, pc, sent⟩ r := by
  have hexec : ∀ n, Run.exec (interleave level ifaAddress expand o) ⟨b, pc, sent⟩
      (List.replicate (n + 1) .hook) = Run.exec (interleave level ifaAddress expand o)
        ⟨b', pc', sent⟩ (List.replicate n .hook) := by
    intro n
    rw [List.replicate_succ, Run.exec_cons, interleave, h]
  cases r with
  | ok r =>
    obtain ⟨n, hn⟩ := hrest
    exact ⟨n + 1, (hexec n).trans hn⟩
  | error f =>
    obtain ⟨n, b'', hn⟩ := hrest
    exact ⟨n + 1, b'', (hexec n).trans hn⟩

/-- A step that may fault is a bind of the hook. -/
private theorem Ends.bind {α : Type} {x : Except Fault α} {next : α → AggregateBuffer × Pc}
    {f : α → Except Fault (Verdict × SkBuff × AggregateBuffer)}
    (h : hookStep level ifaAddress expand o b pc = (x >>= fun a => .ok (next a)))
    (hrest : ∀ a, x = .ok a →
      Ends level ifaAddress expand o ⟨(next a).1, (next a).2, sent⟩ (f a)) :
    Ends level ifaAddress expand o ⟨b, pc, sent⟩ (x >>= f) := by
  cases x with
  | error e => exact .fault h
  | ok a => exact .step h (hrest a rfl)

/-- The copy of the buffered bytes behind those of the packet. -/
private theorem hookStep_copyBytes (skb : SkBuff) {dst n src : ℕ} {bs d : List UInt8}
    (hload : load id b.mem src n = .ok d)
    (hdata : skb.data = bs ++ List.replicate d.length 0) (hdst : dst = bs.length) :
    hookStep level ifaAddress expand o b (.copyBytes skb dst n src) =
      match ({ skb with data := bs ++ d } : SkBuff).reserveHead sizeofIphdr expand.head with
      | none => .ok (b, .reset { skb with data := bs ++ d })
      | some skb => .ok (b, .setTotLen skb) := by
  rw [hookStep, hload, ok_bind, hdata, hdst, store_fresh_right, ok_bind]

/-- The flush from `skb_put` on, when there is room. -/
private theorem ends_put (skb : SkBuff) (hroom : b.bufferDataLen ≤ skb.tailroom) :
    Ends level ifaAddress expand o ⟨b, .put skb, sent⟩ ((do
      let skb ← skb.put b.data
      match skb.reserveHead sizeofIphdr expand.head with
      | none => .ok (skb, b.resetBuffer)
      | some skb => do
        let skb ← skb.push (aggregateHeader level.proto (sizeofIphdr + b.bufferDataLen +
          (level.record o.packet).bytes.length) ifaAddress b.ip)
        .ok (skb, b.resetBuffer)) >>= fun r => .ok (.accept, r.1, r.2)) := by
  obtain ⟨skb₁, hskb₁⟩ : ∃ skb₁ : SkBuff, skb₁ =
      ⟨skb.headroom, skb.data ++ b.data, skb.tailroom - b.bufferDataLen⟩ := ⟨_, rfl⟩
  have hput : skb.put b.data = .ok skb₁ := by
    rw [SkBuff.put, b.length_data, if_pos hroom, hskb₁]
  have hload : load id b.mem b.head b.bufferDataLen = .ok b.data := by
    have hall : load id b.mem (b.head + 0) b.data.length = .ok (slice b.data 0 b.data.length) :=
      b.load_head (by omega)
    rwa [Nat.add_zero, slice_zero_length, b.length_data] at hall
  have hstep : hookStep level ifaAddress expand o b (.put skb) =
      .ok (b, .copyLen ⟨skb.headroom, skb.data ++ List.replicate b.bufferDataLen 0,
        skb.tailroom - b.bufferDataLen⟩ skb.data.length) := if_pos hroom
  have hcopy : hookStep level ifaAddress expand o b (.copyBytes ⟨skb.headroom,
      skb.data ++ List.replicate b.bufferDataLen 0, skb.tailroom - b.bufferDataLen⟩
      skb.data.length b.bufferDataLen b.head) =
      match skb₁.reserveHead sizeofIphdr expand.head with
      | none => .ok (b, .reset skb₁)
      | some skb => .ok (b, .setTotLen skb) := by
    rw [hskb₁]
    exact hookStep_copyBytes _ hload (by rw [b.length_data]) rfl
  rw [hput, ok_bind]
  refine .step hstep (.step rfl (.step rfl ?_))
  cases hhead : skb₁.reserveHead sizeofIphdr expand.head with
  | none =>
    rw [hhead] at hcopy
    exact .step hcopy (.step rfl (.done _ _))
  | some skb₂ =>
    rw [hhead] at hcopy
    refine .step hcopy ?_
    rw [bind_assoc]
    refine .bind rfl fun skb₃ _ => ?_
    exact .step rfl (.done _ _)

/-- The flush, step by step. -/
private theorem ends_flushBuffer (skb : SkBuff) :
    Ends level ifaAddress expand o ⟨b, .tailTest skb, sent⟩
      (flushBuffer level.proto (level.record o.packet).bytes.length ifaAddress expand skb b >>=
        fun r => .ok (.accept, r.1, r.2)) := by
  rw [flushBuffer, SkBuff.reserveTail]
  by_cases hroom : skb.tailroom < b.bufferDataLen
  · have htest : hookStep level ifaAddress expand o b (.tailTest skb) =
        .ok (b, .tailExpand skb) := by rw [hookStep, if_pos hroom]
    refine .step htest ?_
    rw [if_pos hroom]
    cases htail : expand.tail with
    | false =>
      have hfail : hookStep level ifaAddress expand o b (.tailExpand skb) =
          .ok (b, .reset skb) := by rw [hookStep, htail]; rfl
      exact .step hfail (.step rfl (.done _ _))
    | true =>
      have hexpand : hookStep level ifaAddress expand o b (.tailExpand skb) =
          .ok (b, .put { skb with tailroom := b.bufferDataLen }) := by rw [hookStep, htail]; rfl
      refine .step hexpand ?_
      rw [if_pos rfl, Nat.add_sub_cancel' (Nat.le_of_lt hroom)]
      exact ends_put _ le_rfl
  · have htest : hookStep level ifaAddress expand o b (.tailTest skb) =
        .ok (b, .put skb) := by rw [hookStep, if_neg hroom]
    refine .step htest ?_
    rw [if_neg hroom]
    exact ends_put skb (Nat.le_of_not_lt hroom)

/-- The end of both hooks, step by step. -/
private theorem ends_pushRecord :
    Ends level ifaAddress expand o ⟨b, .testRoom, sent⟩
      (pushRecord level ifaAddress expand o.skb o.packet.toIpPacket b) := by
  rw [pushRecord, ← Level.record]
  by_cases hfull : b.bufferLen ≤ b.bufferDataLen + (level.record o.packet).bytes.length
  · have htest : hookStep level ifaAddress expand o b .testRoom =
        .ok (b, .tailTest (level.stripped o.skb o.packet.toIpPacket)) := by
      rw [hookStep, if_pos hfull]
    rw [if_pos hfull]
    exact .step htest (ends_flushBuffer _)
  · have htest : hookStep level ifaAddress expand o b .testRoom = .ok (b, .pushBytes) := by
      rw [hookStep, if_neg hfull]
    rw [if_neg hfull]
    refine .step htest ?_
    cases hpush : b.pushBytes (level.record o.packet).bytes with
    | none => exact .fault (by rw [hookStep, hpush])
    | some b' =>
      have hstep : hookStep level ifaAddress expand o b .pushBytes =
          .ok (b', .done .stolen o.skb) := by rw [hookStep, hpush]
      exact .step hstep (.done _ _)

/-- The rewrite of a timestamp and the rest, step by step. -/
private theorem ends_restamp (pdu : ℕ) :
    Ends level ifaAddress expand o ⟨b, .readTimestamp pdu, sent⟩
      (pduTimestamp b.mem pdu >>= fun old =>
        b.storeAt pdu (be 8 (o.packet.timestamp - old).toNat) >>=
          pushRecord level ifaAddress expand o.skb o.packet.toIpPacket) :=
  .bind rfl fun _ _ => .bind rfl fun _ _ => ends_pushRecord

end Machine

/-- **The steps of a hook compute the hook**, when nothing comes between them. -/
theorem hook_alone (level : Level) (ifaAddress : UInt32) (expand : Expand) (b : AggregateBuffer)
    (o : Outgoing) (sent : List (List UInt8)) :
    Ends level ifaAddress expand o ⟨b, .peek, sent⟩ (level.push ifaAddress expand b o.skb) := by
  have hpeek : hookStep level ifaAddress expand o b .peek =
    .ok (b, b.peekPacket.elim .testRoom level.peeked) := rfl
  refine .step hpeek ?_
  cases level with
  | app =>
    rw [Level.push, pushAppPacket_eq_pushRecord _ _ _ rfl (Level.takes_toIpPacket .app o.packet)]
    cases b.peekPacket with
    | none => exact ends_pushRecord
    | some udpHelper => exact ends_restamp _
  | ip =>
    rw [Level.push, pushIpPacket_eq_pushRecord _ _ _ rfl (Level.takes_toIpPacket .ip o.packet)]
    cases b.peekPacket with
    | none => exact ends_pushRecord
    | some seeker =>
      refine .bind rfl fun protocol _ => ?_
      cases supported protocol with
      | true => exact .bind rfl fun ihl _ => ends_restamp _
      | false => exact .done _ _

/-! ### What an interleaving must leave -/

/-- `bs` are the bytes of the stack `rs`, newest first, in which the newest record is as it was,
with its absolute time, and the others have any times. -/
def CarriesStack (rs : List Stamped) (bs : List UInt8) : Prop :=
  ∃ ts, ts.length = rs.length ∧ ts.head? = (rs.map Stamped.time).head? ∧
    bs = (List.zipWith Stamped.stamp rs ts).flatten

private theorem carriesStack_chain (rs : List Stamped) : CarriesStack rs (chain rs) := by
  refine ⟨deltas (rs.map Stamped.time), by simp, ?_, rfl⟩
  cases rs <;> rfl

private theorem CarriesStack.length_eq {rs : List Stamped} {bs : List UInt8}
    (h : CarriesStack rs bs) :
    bs.length = (rs.map fun r => r.bytes.length).sum := by
  obtain ⟨ts, hlen, -, rfl⟩ := h
  exact length_flatten_stamp hlen

/-- A record alone is there as it was. -/
private theorem CarriesStack.eq_bytes {r : Stamped} {bs : List UInt8} (h : CarriesStack [r] bs) :
    bs = r.bytes := by
  obtain ⟨ts, hlen, hhead, rfl⟩ := h
  obtain ⟨t, ts, rfl⟩ := List.exists_cons_of_length_eq_add_one hlen
  obtain rfl : t = r.time := by simpa using hhead
  simp

/-- **Every record is accounted for**: each is in exactly one of the aggregates that left, or is
still buffered, and every aggregate, and the buffer, begins with an absolute time. -/
def Accounted (rs : List Stamped) (emitted : List (List UInt8)) (data : List UInt8) : Prop :=
  ∃ groups rest, List.Perm (List.flatten groups ++ rest) rs ∧
    List.Forall₂ CarriesStack groups emitted ∧ CarriesStack rest data

/-- What has left: the blocks taken out by the flush thread, and the packet at hand if the hook has
passed it on, without its outer header. -/
def Interleaved.emitted (s : Interleaved) : List (List UInt8) :=
  s.sent ++ match s.pc with
    | .done .accept skb => [skb.data.drop sizeofIphdr]
    | _ => []

/-- The hook has rewritten the newest timestamp, and has not pushed the packet or reset the buffer
yet. -/
def Pc.inWindow : Pc → Bool
  | .testRoom | .pushBytes | .tailTest _ | .tailExpand _ | .put _ | .copyLen _ _
  | .copyHead _ _ _ | .copyBytes _ _ _ _ | .setTotLen _ | .reset _ => true
  | _ => false

/-- A step that is not a flush in the window of a buffer with anything in it. -/
def Undisturbed (s : Interleaved) : Atom → Prop
  | .hook => True
  | .mvData allocated => s.pc.inWindow = true → s.b.data = [] ∨ allocated = false

/-- How many steps the hook may still need. -/
private def Pc.rank : Pc → ℕ
  | .peek => 14
  | .readProtocol _ => 13
  | .readIhl _ => 12
  | .readTimestamp _ => 11
  | .writeTimestamp _ _ => 10
  | .testRoom => 9
  | .tailTest _ => 8
  | .tailExpand _ => 7
  | .put _ => 6
  | .copyLen _ _ => 5
  | .copyHead _ _ _ => 4
  | .copyBytes _ _ _ _ => 3
  | .setTotLen _ => 2
  | .pushBytes | .reset _ => 1
  | .done _ _ | .fault _ => 0

section Rank

variable {level : Level} {ifaAddress : UInt32} {expand : Expand} {o : Outgoing}

private theorem rank_hookStep {b b' : AggregateBuffer} {pc pc' : Pc}
    (h : hookStep level ifaAddress expand o b pc = .ok (b', pc')) : pc'.rank ≤ pc.rank - 1 := by
  cases pc with
  | peek =>
    cases h
    cases b.peekPacket with
    | none => simp [Pc.rank]
    | some head => cases level <;> simp [Level.peeked, Pc.rank]
  | readProtocol seeker =>
    obtain ⟨protocol, -, h⟩ := bind_eq_ok.mp h
    cases h
    split <;> simp [Pc.rank]
  | readIhl seeker =>
    obtain ⟨ihl, -, h⟩ := bind_eq_ok.mp h
    cases h
    simp [Pc.rank]
  | readTimestamp pdu =>
    obtain ⟨old, -, h⟩ := bind_eq_ok.mp h
    cases h
    simp [Pc.rank]
  | writeTimestamp pdu t =>
    obtain ⟨b₁, -, h⟩ := bind_eq_ok.mp h
    cases h
    simp [Pc.rank]
  | testRoom =>
    cases h
    split <;> simp [Pc.rank]
  | pushBytes =>
    rw [hookStep] at h
    split at h
    · cases h
    · cases h
      exact Nat.zero_le _
  | tailTest skb =>
    cases h
    split <;> simp [Pc.rank]
  | tailExpand skb =>
    cases h
    split <;> simp [Pc.rank]
  | put skb =>
    rw [hookStep] at h
    split at h
    · cases h
      simp [Pc.rank]
    · cases h
  | copyLen skb dst =>
    cases h
    simp [Pc.rank]
  | copyHead skb dst n =>
    cases h
    simp [Pc.rank]
  | copyBytes skb dst n src =>
    obtain ⟨bytes, -, h⟩ := bind_eq_ok.mp h
    obtain ⟨data, -, h⟩ := bind_eq_ok.mp h
    dsimp only at h
    split at h <;> cases h <;> simp [Pc.rank]
  | setTotLen skb =>
    obtain ⟨skb₁, -, h⟩ := bind_eq_ok.mp h
    cases h
    simp [Pc.rank]
  | reset skb =>
    cases h
    exact Nat.zero_le _
  | done verdict skb =>
    cases h
    exact Nat.zero_le _
  | fault f => cases h

private theorem rank_interleave_hook (s : Interleaved) :
    (interleave level ifaAddress expand o s .hook).pc.rank ≤ s.pc.rank - 1 := by
  cases h : hookStep level ifaAddress expand o s.b s.pc with
  | error f =>
    simp only [interleave, h]
    exact Nat.zero_le _
  | ok r =>
    simp only [interleave, h]
    exact rank_hookStep h

/-- A hook ends after at most 14 steps. -/
private theorem rank_exec (s : Interleaved) (es : List Atom) :
    (Run.exec (interleave level ifaAddress expand o) s es).pc.rank ≤
      s.pc.rank - es.count .hook := by
  induction es generalizing s with
  | nil => simp
  | cons e es ih =>
    have hrest := ih (interleave level ifaAddress expand o s e)
    cases e with
    | hook =>
      have hstep : (interleave level ifaAddress expand o s .hook).pc.rank ≤ s.pc.rank - 1 :=
        rank_interleave_hook s
      rw [Run.exec_cons, List.count_cons_self]
      omega
    | mvData allocated =>
      rw [Run.exec_cons, List.count_cons_of_ne (by simp)]
      exact hrest

end Rank

/-! ### The invariant -/

section Invariant

variable (level : Level) (o : Outgoing) (ps : List UdpPacket) (ip : UInt32) (size : ℕ)

/-- How much of the stack `ps` is still buffered: all of it, or nothing after one flush. -/
def Taken (sent : List (List UInt8)) (rest : List UdpPacket) : Prop :=
  sent = [] ∧ rest = ps ∨ sent = [chain (ps.map level.record)] ∧ rest = [] ∧ ps ≠ []

/-- The stack was at `seeker` when the hook looked, and its bytes are still there, flushed or
not. -/
structure Seen (b : AggregateBuffer) (seeker : ℕ) (rest : List UdpPacket) : Prop where
  le : seeker ≤ b.mem.length
  drop_eq : b.mem.drop seeker = chain (ps.map level.record)
  head_eq : rest = ps → b.head = seeker

/-- What holds at each point of the hook when `rest` is still buffered. -/
def AtPc (b : AggregateBuffer) (rest : List UdpPacket) : Pc → Prop
  | .peek => b.Holds ip size (chain (rest.map level.record))
  | .readProtocol seeker | .readIhl seeker =>
    b.Holds ip size (chain (rest.map level.record)) ∧ level = .ip ∧ ps ≠ [] ∧
      Seen level ps b seeker rest
  | .readTimestamp pdu =>
    b.Holds ip size (chain (rest.map level.record)) ∧ ∃ seeker p ps', ps = p :: ps' ∧
      pdu = seeker + (level.record p).off ∧ Seen level ps b seeker rest
  | .writeTimestamp pdu t =>
    b.Holds ip size (chain (rest.map level.record)) ∧ ∃ seeker p ps', ps = p :: ps' ∧
      pdu = seeker + (level.record p).off ∧ Seen level ps b seeker rest ∧
      t = o.packet.timestamp - p.timestamp
  | .testRoom => b.Holds ip size (below o.packet.timestamp (rest.map level.record))
  | .pushBytes =>
    b.Holds ip size (below o.packet.timestamp (rest.map level.record)) ∧
      (below o.packet.timestamp (rest.map level.record)).length +
        (level.record o.packet).bytes.length ≤ size
  | .tailTest skb | .tailExpand skb =>
    b.Holds ip size (below o.packet.timestamp (rest.map level.record)) ∧
      skb.data = (level.record o.packet).bytes
  | .put skb =>
    b.Holds ip size (below o.packet.timestamp (rest.map level.record)) ∧
      skb.data = (level.record o.packet).bytes ∧
      (below o.packet.timestamp (rest.map level.record)).length ≤ skb.tailroom
  | .copyLen skb dst =>
    b.Holds ip size (below o.packet.timestamp (rest.map level.record)) ∧
      skb.data = (level.record o.packet).bytes ++
        List.replicate (below o.packet.timestamp (rest.map level.record)).length 0 ∧
      dst = (level.record o.packet).bytes.length
  | .copyHead skb dst n =>
    b.Holds ip size (below o.packet.timestamp (rest.map level.record)) ∧
      skb.data = (level.record o.packet).bytes ++
        List.replicate (below o.packet.timestamp (rest.map level.record)).length 0 ∧
      dst = (level.record o.packet).bytes.length ∧
      n = (below o.packet.timestamp (rest.map level.record)).length
  | .copyBytes skb dst n src =>
    b.Holds ip size (below o.packet.timestamp (rest.map level.record)) ∧
      skb.data = (level.record o.packet).bytes ++
        List.replicate (below o.packet.timestamp (rest.map level.record)).length 0 ∧
      dst = (level.record o.packet).bytes.length ∧
      n = (below o.packet.timestamp (rest.map level.record)).length ∧ src = b.head
  | .setTotLen skb =>
    b.Holds ip size (below o.packet.timestamp (rest.map level.record)) ∧
      skb.data = chain ((o.packet :: rest).map level.record) ∧ sizeofIphdr ≤ skb.headroom
  | .reset skb =>
    b.Holds ip size (below o.packet.timestamp (rest.map level.record)) ∧
      skb.data.drop sizeofIphdr = chain ((o.packet :: rest).map level.record)
  | .done .stolen _ => b.Holds ip size (chain ((o.packet :: rest).map level.record))
  | .done .accept skb =>
    b.Holds ip size [] ∧ skb.data.drop sizeofIphdr = chain ((o.packet :: rest).map level.record)
  | .done .drop _ | .fault _ => False

/-- The invariant: the hook is at some point with part of the stack buffered, or it has pushed the
packet and everything was flushed afterwards. -/
def HookInv (s : Interleaved) : Prop :=
  ∃ rest sent, Taken level ps sent rest ∧
    (s.sent = sent ∧ AtPc level o ps ip size s.b rest s.pc ∨
      s.sent = sent ++ [chain ((o.packet :: rest).map level.record)] ∧ s.b.Holds ip size [] ∧
        ∃ skb, s.pc = .done .stolen skb)

variable {level o ps ip size} {b : AggregateBuffer} {rest : List UdpPacket}
  {sent : List (List UInt8)}

private theorem Seen.length_mem {seeker : ℕ} (h : Seen level ps b seeker rest) :
    b.mem.length = seeker + (chain (ps.map level.record)).length := by
  have hlen := congrArg List.length h.drop_eq
  rw [List.length_drop] at hlen
  rw [← hlen, Nat.add_sub_cancel' h.le]

/-- The timestamp of the record on top lies in the stack. -/
private theorem off_le_length_chain (level : Level) (p : UdpPacket) (ps : List UdpPacket) :
    (level.record p).off + 8 ≤ (chain ((p :: ps).map level.record)).length := by
  have hfits := (level.record p).fits
  rw [List.map_cons, chain_cons, List.length_append]
  omega

/-- What a step of the hook must lead to. -/
abbrev StepsTo (level : Level) (ifaAddress : UInt32) (o : Outgoing) (ps : List UdpPacket)
    (ip : UInt32) (size : ℕ) (rest : List UdpPacket) (b : AggregateBuffer) (pc : Pc) : Prop :=
  ∃ b' pc', hookStep level ifaAddress .ok o b pc = .ok (b', pc') ∧
    AtPc level o ps ip size b' rest pc'

variable {ifaAddress : UInt32}

private theorem stepsTo_peek (htaken : Taken level ps sent rest)
    (h : AtPc level o ps ip size b rest .peek) :
    StepsTo level ifaAddress o ps ip size rest b .peek := by
  change b.Holds ip size (chain (rest.map level.record)) at h
  cases rest with
  | nil => exact ⟨b, .testRoom, by rw [hookStep, h.peekPacket_nil]; rfl, h⟩
  | cons p rest =>
    have hps : p :: rest = ps := by
      rcases htaken with ⟨-, hrest⟩ | ⟨-, hnil, -⟩
      · exact hrest
      · cases hnil
    have hne : chain ((p :: rest).map level.record) ≠ [] := chain_ne_nil (by simp)
    have hseen : Seen level ps b b.head (p :: rest) :=
      ⟨b.head_le, by rw [← hps]; exact h.data_eq, fun _ => rfl⟩
    refine ⟨b, level.peeked b.head, by rw [hookStep, h.peekPacket hne]; rfl, ?_⟩
    cases level with
    | app => exact ⟨h, b.head, p, rest, hps.symm, rfl, hseen⟩
    | ip => exact ⟨h, rfl, by rw [← hps]; simp, hseen⟩

/-- The header fields of the packet that was on top. -/
private theorem Seen.fields {p : UdpPacket} {ps : List UdpPacket} {seeker : ℕ}
    (h : Seen .ip (p :: ps) b seeker rest) :
    ipProtocol b.mem seeker = .ok ipprotoUdp ∧ ipIhl b.mem seeker = .ok (ihlOf p.bytes) :=
  p.fields_of_drop (h.drop_eq.trans (chain_cons _ _))

private theorem stepsTo_readProtocol {seeker : ℕ}
    (h : AtPc level o ps ip size b rest (.readProtocol seeker)) :
    StepsTo level ifaAddress o ps ip size rest b (.readProtocol seeker) := by
  obtain ⟨hb, rfl, hne, hseen⟩ := h
  obtain ⟨p, ps, rfl⟩ := List.exists_cons_of_ne_nil hne
  exact ⟨b, .readIhl seeker, by rw [hookStep, hseen.fields.1]; rfl, hb, rfl, hne, hseen⟩

private theorem stepsTo_readIhl {seeker : ℕ}
    (h : AtPc level o ps ip size b rest (.readIhl seeker)) :
    StepsTo level ifaAddress o ps ip size rest b (.readIhl seeker) := by
  obtain ⟨hb, rfl, hne, hseen⟩ := h
  obtain ⟨p, ps, rfl⟩ := List.exists_cons_of_ne_nil hne
  refine ⟨b, .readTimestamp (seeker + (4 * ihlOf p.bytes + sizeofUdphdr)), ?_, hb, seeker, p, ps,
    rfl, rfl, hseen⟩
  rw [hookStep, hseen.fields.2]
  rfl

private theorem stepsTo_readTimestamp {pdu : ℕ}
    (h : AtPc level o ps ip size b rest (.readTimestamp pdu)) :
    StepsTo level ifaAddress o ps ip size rest b (.readTimestamp pdu) := by
  obtain ⟨hb, seeker, p, ps, rfl, rfl, hseen⟩ := h
  have hin := off_le_length_chain level p ps
  have hold : pduTimestamp b.mem (seeker + (level.record p).off) = .ok p.timestamp := by
    have hsame : slice b.mem (seeker + (level.record p).off) 8 =
        slice (chain ((p :: ps).map level.record)) (level.record p).off 8 := by
      rw [← hseen.drop_eq, slice, slice, List.drop_drop]
    rw [pduTimestamp, load_eq (by rw [hseen.length_mem]; omega), hsame, List.map_cons,
      slice_chain_cons, ← Stamped.slice_bytes, ← level.time_record p]
    rfl
  refine ⟨b, .writeTimestamp (seeker + (level.record p).off) (o.packet.timestamp - p.timestamp), ?_,
    hb, seeker, p, ps, rfl, rfl, hseen, rfl⟩
  rw [hookStep, hold]
  rfl

/-- The write makes the newest buffered timestamp relative, or goes to memory that is not in use any
more. -/
private theorem stepsTo_writeTimestamp (htaken : Taken level ps sent rest) {pdu : ℕ} {t : UInt64}
    (h : AtPc level o ps ip size b rest (.writeTimestamp pdu t)) :
    StepsTo level ifaAddress o ps ip size rest b (.writeTimestamp pdu t) := by
  obtain ⟨hb, seeker, p, ps, rfl, rfl, hseen, rfl⟩ := h
  rcases htaken with ⟨-, rfl⟩ | ⟨-, rfl, -⟩
  · obtain ⟨-, b', hstore, hb'⟩ := hb.restamp o.packet.timestamp
    rw [hseen.head_eq rfl, level.time_record] at hstore
    exact ⟨b', .testRoom, by rw [hookStep, hstore]; rfl, hb'⟩
  · have hin := off_le_length_chain level p ps
    have hmem : seeker + (level.record p).off +
        (be 8 (o.packet.timestamp - p.timestamp).toNat).length ≤ b.mem.length := by
      rw [length_be, hseen.length_mem]
      omega
    obtain ⟨b', hstore, hb'⟩ := AggregateBuffer.Holds.storeAt_nil hb hmem
    exact ⟨b', .testRoom, by rw [hookStep, hstore]; rfl, hb'⟩

private theorem stepsTo_testRoom (h : AtPc level o ps ip size b rest .testRoom) :
    StepsTo level ifaAddress o ps ip size rest b .testRoom := by
  change b.Holds ip size _ at h
  by_cases hfull : b.bufferLen ≤ b.bufferDataLen + (level.record o.packet).bytes.length
  · exact ⟨b, .tailTest (level.stripped o.skb o.packet.toIpPacket),
      by rw [hookStep, if_pos hfull], h, level.data_stripped rfl⟩
  · refine ⟨b, .pushBytes, by rw [hookStep, if_neg hfull], h, ?_⟩
    rw [h.len_eq, h.dataLen_eq] at hfull
    omega

private theorem stepsTo_pushBytes (h : AtPc level o ps ip size b rest .pushBytes) :
    StepsTo level ifaAddress o ps ip size rest b .pushBytes := by
  obtain ⟨hb, hfit⟩ := h
  obtain ⟨b', hpush, hb'⟩ := hb.pushBytes (level.record o.packet).bytes hfit
  refine ⟨b', .done .stolen o.skb, by rw [hookStep, hpush], ?_⟩
  change b'.Holds ip size (chain ((o.packet :: rest).map level.record))
  rw [chain_push]
  exact hb'

private theorem stepsTo_tailTest {skb : SkBuff}
    (h : AtPc level o ps ip size b rest (.tailTest skb)) :
    StepsTo level ifaAddress o ps ip size rest b (.tailTest skb) := by
  obtain ⟨hb, hdata⟩ := h
  by_cases hroom : skb.tailroom < b.bufferDataLen
  · exact ⟨b, .tailExpand skb, by rw [hookStep, if_pos hroom], hb, hdata⟩
  · refine ⟨b, .put skb, by rw [hookStep, if_neg hroom], hb, hdata, ?_⟩
    rw [← hb.dataLen_eq]
    exact Nat.le_of_not_lt hroom

private theorem stepsTo_put {skb : SkBuff} (h : AtPc level o ps ip size b rest (.put skb)) :
    StepsTo level ifaAddress o ps ip size rest b (.put skb) := by
  obtain ⟨hb, hdata, hroom⟩ := h
  rw [← hb.dataLen_eq] at hroom
  refine ⟨b, _, if_pos hroom, hb, ?_, ?_⟩
  · change skb.data ++ List.replicate b.bufferDataLen 0 = _
    rw [hdata, hb.dataLen_eq]
  · rw [hdata]

private theorem stepsTo_copyBytes {skb : SkBuff} {dst n src : ℕ}
    (h : AtPc level o ps ip size b rest (.copyBytes skb dst n src)) :
    StepsTo level ifaAddress o ps ip size rest b (.copyBytes skb dst n src) := by
  obtain ⟨hb, hdata, hdst, rfl, rfl⟩ := h
  have hload : load id b.mem (b.head + 0)
      (below o.packet.timestamp (rest.map level.record)).length = .ok (slice _ 0 _) :=
    hb.load_head (by omega)
  rw [Nat.add_zero, slice_zero_length] at hload
  obtain ⟨skb', hhead, hroom, hdata'⟩ := SkBuff.reserveHead_true ⟨skb.headroom,
    (level.record o.packet).bytes ++ below o.packet.timestamp (rest.map level.record),
    skb.tailroom⟩ sizeofIphdr
  refine ⟨b, .setTotLen skb', ?_, hb, ?_, hroom⟩
  · rw [hookStep_copyBytes skb hload hdata hdst]
    simp only [Expand.ok, hhead]
  · rw [hdata', chain_push]

private theorem stepsTo_setTotLen {skb : SkBuff}
    (h : AtPc level o ps ip size b rest (.setTotLen skb)) :
    StepsTo level ifaAddress o ps ip size rest b (.setTotLen skb) := by
  obtain ⟨hb, hdata, hroom⟩ := h
  obtain ⟨skb', hpush, hdata'⟩ := skb.push_ok (aggregateHeader level.proto
    (sizeofIphdr + b.bufferDataLen + (level.record o.packet).bytes.length) ifaAddress b.ip)
    (by rw [length_aggregateHeader]; exact hroom)
  refine ⟨b, .reset skb', by rw [hookStep, hpush]; rfl, hb, ?_⟩
  rw [hdata', List.drop_left' (length_aggregateHeader _ _ _ _), hdata]

/-- **A step of the hook** leads from what holds at one point to what holds at the next. -/
theorem hookStep_atPc (htaken : Taken level ps sent rest) {pc : Pc}
    (h : AtPc level o ps ip size b rest pc) :
    StepsTo level ifaAddress o ps ip size rest b pc := by
  cases pc with
  | peek => exact stepsTo_peek htaken h
  | readProtocol seeker => exact stepsTo_readProtocol h
  | readIhl seeker => exact stepsTo_readIhl h
  | readTimestamp pdu => exact stepsTo_readTimestamp h
  | writeTimestamp pdu t => exact stepsTo_writeTimestamp htaken h
  | testRoom => exact stepsTo_testRoom h
  | pushBytes => exact stepsTo_pushBytes h
  | tailTest skb => exact stepsTo_tailTest h
  | tailExpand skb =>
    obtain ⟨hb, hdata⟩ := h
    exact ⟨b, .put { skb with tailroom := b.bufferDataLen }, rfl, hb, hdata,
      Nat.le_of_eq hb.dataLen_eq.symm⟩
  | put skb => exact stepsTo_put h
  | copyLen skb dst =>
    obtain ⟨hb, hdata, hdst⟩ := h
    exact ⟨b, .copyHead skb dst b.bufferDataLen, rfl, hb, hdata, hdst, hb.dataLen_eq⟩
  | copyHead skb dst n =>
    obtain ⟨hb, hdata, hdst, hn⟩ := h
    exact ⟨b, .copyBytes skb dst n b.head, rfl, hb, hdata, hdst, hn, rfl⟩
  | copyBytes skb dst n src => exact stepsTo_copyBytes h
  | setTotLen skb => exact stepsTo_setTotLen h
  | reset skb => exact ⟨b.resetBuffer, .done .accept skb, rfl, h.1.reset, h.2⟩
  | done verdict skb => exact ⟨b, .done verdict skb, rfl, h⟩
  | fault f => exact h.elim

/-- Before the window the buffer holds the rest of the stack, and nothing else is known about it
that a flush would change. -/
private theorem AtPc.before_window {pc : Pc} (h : AtPc level o ps ip size b rest pc)
    (hwindow : pc.inWindow = false) (hdone : ∀ verdict skb, pc ≠ .done verdict skb) :
    b.Holds ip size (chain (rest.map level.record)) ∧
      (ps ≠ [] → AtPc level o ps ip size b.resetBuffer [] pc) := by
  have hflushed : ∀ {seeker}, Seen level ps b seeker rest → ps ≠ [] →
      Seen level ps b.resetBuffer seeker [] :=
    fun hseen hne => ⟨hseen.le, hseen.drop_eq, fun hnil => absurd hnil.symm hne⟩
  cases pc with
  | peek => exact ⟨h, fun _ => h.reset⟩
  | readProtocol seeker | readIhl seeker =>
    obtain ⟨hb, hlevel, hne, hseen⟩ := h
    exact ⟨hb, fun _ => ⟨hb.reset, hlevel, hne, hflushed hseen hne⟩⟩
  | readTimestamp pdu =>
    obtain ⟨hb, seeker, p, ps', hps, hpdu, hseen⟩ := h
    exact ⟨hb, fun hne => ⟨hb.reset, seeker, p, ps', hps, hpdu, hflushed hseen hne⟩⟩
  | writeTimestamp pdu t =>
    obtain ⟨hb, seeker, p, ps', hps, hpdu, hseen, ht⟩ := h
    exact ⟨hb, fun hne => ⟨hb.reset, seeker, p, ps', hps, hpdu, hflushed hseen hne, ht⟩⟩
  | done verdict skb => exact absurd rfl (hdone verdict skb)
  | fault f => exact h.elim
  | _ => cases hwindow

/-- **A step of the hook keeps the invariant.** -/
theorem HookInv.hook {s : Interleaved} (h : HookInv level o ps ip size s) :
    HookInv level o ps ip size (interleave level ifaAddress .ok o s .hook) := by
  obtain ⟨rest, sent, htaken, ⟨hsent, hpc⟩ | ⟨hsent, hb, skb, hpc⟩⟩ := h
  · obtain ⟨b', pc', hstep, hpc'⟩ := hookStep_atPc htaken hpc
    refine ⟨rest, sent, htaken, .inl ?_⟩
    rw [interleave, hstep]
    exact ⟨hsent, hpc'⟩
  · refine ⟨rest, sent, htaken, .inr ?_⟩
    have hstep : hookStep level ifaAddress .ok o s.b s.pc = .ok (s.b, s.pc) := by
      rw [hpc]
      rfl
    rw [interleave, hstep]
    exact ⟨hsent, hb, skb, hpc⟩

/-- **A flush that does not fall in the window keeps the invariant.** -/
theorem HookInv.mvData {s : Interleaved} (h : HookInv level o ps ip size s) {allocated : Bool}
    (hstep : Undisturbed s (.mvData allocated)) :
    HookInv level o ps ip size (interleave level ifaAddress .ok o s (.mvData allocated)) := by
  obtain hmv | ⟨rfl, hdata, hmv⟩ := s.b.mvData_cases allocated
  · simp only [interleave, hmv, Option.toList_none, List.append_nil]
    exact h
  have hwindow : s.pc.inWindow = false := by
    cases hw : s.pc.inWindow with
    | false => rfl
    | true =>
      rcases hstep hw with hnil | hfalse
      · exact absurd hnil hdata
      · cases hfalse
  obtain ⟨rest, sent, htaken, ⟨hsent, hpc⟩ | ⟨-, hb, -⟩⟩ := h
  swap
  · exact absurd hb.data_eq hdata
  simp only [interleave, hmv, Option.toList_some]
  by_cases hdone : ∃ verdict skb, s.pc = .done verdict skb
  · obtain ⟨verdict, skb, hdone⟩ := hdone
    rw [hdone] at hpc
    cases verdict with
    | stolen =>
      refine ⟨rest, sent, htaken, .inr ⟨?_, hpc.reset, skb, hdone⟩⟩
      rw [hsent, hpc.data_eq]
    | accept => exact absurd hpc.1.data_eq hdata
    | drop => exact hpc.elim
  · obtain ⟨hb, hflush⟩ := hpc.before_window hwindow
      (fun verdict skb hpc => hdone ⟨verdict, skb, hpc⟩)
    rcases htaken with ⟨rfl, rfl⟩ | ⟨-, rfl, -⟩
    · have hne : rest ≠ [] := by
        rintro rfl
        exact hdata hb.data_eq
      refine ⟨[], [chain (rest.map level.record)], .inr ⟨rfl, rfl, hne⟩, .inl ⟨?_, hflush hne⟩⟩
      rw [hsent, hb.data_eq]
      rfl
    · exact absurd hb.data_eq hdata

private theorem Taken.groups (h : Taken level ps sent rest) :
    ∃ groups, List.Forall₂ CarriesStack groups sent ∧
      List.Perm (List.flatten groups ++ (o.packet :: rest).map level.record)
        ((o.packet :: ps).map level.record) := by
  rcases h with ⟨rfl, rfl⟩ | ⟨rfl, rfl, -⟩
  · exact ⟨[], .nil, .rfl⟩
  · refine ⟨[ps.map level.record], .cons (carriesStack_chain _) .nil, ?_⟩
    rw [List.flatten_singleton]
    exact List.perm_append_singleton _ _

/-- At the end of the hook everything is accounted for. -/
private theorem HookInv.accounted {s : Interleaved} (h : HookInv level o ps ip size s)
    {verdict : Verdict} {skb : SkBuff} (hdone : s.pc = .done verdict skb) :
    Accounted ((o.packet :: ps).map level.record) s.emitted s.b.data := by
  obtain ⟨rest, sent, htaken, hend⟩ := h
  obtain ⟨groups, hgroups, hperm⟩ := htaken.groups (o := o)
  have hstack := carriesStack_chain ((o.packet :: rest).map level.record)
  -- the packet left with the rest of the stack, and nothing is buffered
  have hleft : s.emitted = sent ++ [chain ((o.packet :: rest).map level.record)] →
      s.b.data = [] → Accounted ((o.packet :: ps).map level.record) s.emitted s.b.data := by
    intro hemitted hdata
    refine ⟨groups ++ [(o.packet :: rest).map level.record], [], ?_, ?_, ?_⟩
    · rw [List.flatten_append, List.flatten_singleton, List.append_nil]
      exact hperm
    · rw [hemitted]
      exact List.rel_append hgroups (.cons hstack .nil)
    · rw [hdata]
      exact carriesStack_chain []
  rcases hend with ⟨hsent, hpc⟩ | ⟨hsent, hb, skb', hpc⟩
  · rw [hdone] at hpc
    cases verdict with
    | stolen =>
      have hemitted : s.emitted = sent := by
        rw [Interleaved.emitted, hdone, hsent]
        exact List.append_nil sent
      refine ⟨groups, (o.packet :: rest).map level.record, hperm, ?_, ?_⟩
      · rw [hemitted]
        exact hgroups
      · rw [hpc.data_eq]
        exact hstack
    | accept =>
      refine hleft ?_ hpc.1.data_eq
      rw [Interleaved.emitted, hdone, hsent]
      exact congrArg (fun bs => sent ++ [bs]) hpc.2
    | drop => exact hpc.elim
  · refine hleft ?_ hb.data_eq
    rw [Interleaved.emitted, hpc, hsent]
    exact List.append_nil _

/-- Without a flush in the window the invariant holds all along an interleaving. -/
private theorem hookInv_exec (hb : b.Holds ip size (chain (ps.map level.record))) {es : List Atom}
    (hes : Run.AllSteps (interleave level ifaAddress .ok o) Undisturbed ⟨b, .peek, []⟩ es) :
    HookInv level o ps ip size
      (Run.exec (interleave level ifaAddress .ok o) ⟨b, .peek, []⟩ es) := by
  refine Run.invariant (fun s e h he => ?_) ⟨ps, [], .inl ⟨rfl, rfl⟩, .inl ⟨rfl, hb⟩⟩ hes
  cases e with
  | hook => exact h.hook
  | mvData allocated => exact h.mvData he

end Invariant

/-! ### Interleavings -/

/-- **A hook and the flush thread on one buffer.** In every interleaving of the steps of a hook with
steps of `mv_data` in which no non-empty buffer is flushed in the window, the hook comes to its end
after at most 14 steps of its own, and then every packet, the one at hand and those buffered at the
start, is in exactly one aggregate that has left or still buffered, and every aggregate begins with
an absolute timestamp. -/
theorem interleaving_accounted (level : Level) (ifaAddress : UInt32) (o : Outgoing)
    (ps : List UdpPacket) (ip : UInt32) (size : ℕ) (b : AggregateBuffer) (es : List Atom)
    (hb : b.Holds ip size (chain (ps.map level.record)))
    (hes : Run.AllSteps (interleave level ifaAddress .ok o) Undisturbed ⟨b, .peek, []⟩ es) :
    (14 ≤ es.count .hook → ∃ verdict skb,
      (Run.exec (interleave level ifaAddress .ok o) ⟨b, .peek, []⟩ es).pc = .done verdict skb) ∧
    ∀ verdict skb,
      (Run.exec (interleave level ifaAddress .ok o) ⟨b, .peek, []⟩ es).pc = .done verdict skb →
      Accounted ((o.packet :: ps).map level.record)
        (Run.exec (interleave level ifaAddress .ok o) ⟨b, .peek, []⟩ es).emitted
        (Run.exec (interleave level ifaAddress .ok o) ⟨b, .peek, []⟩ es).b.data := by
  have hinv := hookInv_exec hb hes
  refine ⟨fun hcount => ?_, fun verdict skb hdone => hinv.accounted hdone⟩
  have hrank : (Run.exec (interleave level ifaAddress .ok o) ⟨b, .peek, []⟩ es).pc.rank ≤
      14 - es.count .hook := rank_exec _ es
  rw [Nat.sub_eq_zero_of_le hcount] at hrank
  obtain ⟨s, hs⟩ : ∃ s, s = Run.exec (interleave level ifaAddress .ok o) ⟨b, .peek, []⟩ es :=
    ⟨_, rfl⟩
  rw [← hs] at hinv hrank ⊢
  obtain ⟨b', pc, sent⟩ := s
  cases pc with
  | done verdict skb => exact ⟨verdict, skb, rfl⟩
  | fault f =>
    obtain ⟨rest, sent', -, ⟨-, hpc⟩ | ⟨-, -, skb, hpc⟩⟩ := hinv
    · exact hpc.elim
    · cases hpc
  | _ => exact absurd hrank (by simp [Pc.rank])

/-- A buffer of 120 bytes with one packet in it. -/
def bufferOfOne : AggregateBuffer where
  ip := 3
  mem := List.replicate 67 0 ++ (nodePacket 5).bytes
  head := 67
  head_le := by decide

private theorem holds_bufferOfOne :
    bufferOfOne.Holds 3 120 (chain ([nodePacket 5].map (Level.record .ip))) := by
  refine ⟨rfl, rfl, ?_⟩
  rw [List.map_singleton, chain_cons, below_nil, List.append_nil]
  rfl

/-- A flush before the first step of a hook, which then goes on alone. -/
theorem interleaving_accounted_early :
    (14 ≤ (Atom.mvData true :: List.replicate 14 .hook).count .hook → ∃ verdict skb,
      (Run.exec (interleave .ip 1 .ok ⟨nodePacket 7, 0, 0⟩) ⟨bufferOfOne, .peek, []⟩
        (.mvData true :: List.replicate 14 .hook)).pc = .done verdict skb) ∧
    ∀ verdict skb,
      (Run.exec (interleave .ip 1 .ok ⟨nodePacket 7, 0, 0⟩) ⟨bufferOfOne, .peek, []⟩
        (.mvData true :: List.replicate 14 .hook)).pc = .done verdict skb →
      Accounted ([nodePacket 7, nodePacket 5].map (Level.record .ip))
        (Run.exec (interleave .ip 1 .ok ⟨nodePacket 7, 0, 0⟩) ⟨bufferOfOne, .peek, []⟩
          (.mvData true :: List.replicate 14 .hook)).emitted
        (Run.exec (interleave .ip 1 .ok ⟨nodePacket 7, 0, 0⟩) ⟨bufferOfOne, .peek, []⟩
          (.mvData true :: List.replicate 14 .hook)).b.data :=
  interleaving_accounted .ip 1 ⟨nodePacket 7, 0, 0⟩ [nodePacket 5] 3 120 bufferOfOne
    (.mvData true :: List.replicate 14 .hook) holds_bufferOfOne
    ⟨fun h => absurd h (by decide), trivial, trivial, trivial, trivial, trivial, trivial, trivial,
      trivial, trivial, trivial, trivial, trivial, trivial, trivial, trivial⟩

/-- A flush right after the hook has rewritten the buffered timestamp. -/
def lateFlush : Interleaved :=
  Run.exec (interleave .ip 1 .ok ⟨nodePacket 7, 0, 0⟩) ⟨bufferOfOne, .peek, []⟩
    ([.hook, .hook, .hook, .hook, .hook, .mvData true] ++ List.replicate 9 .hook)

/-- The buffered packet leaves with a difference for a timestamp. -/
theorem lateFlush_not_accounted :
    (∃ verdict skb, lateFlush.pc = .done verdict skb) ∧
      ¬ Accounted ([nodePacket 7, nodePacket 5].map (Level.record .ip)) lateFlush.emitted
        lateFlush.b.data := by
  have hdone : lateFlush.pc = .done .stolen ⟨0, (nodePacket 7).bytes, 0⟩ := by
    set_option maxRecDepth 4000 in rfl
  have hemitted : lateFlush.emitted = [((nodePacket 5).stamp 2).bytes] := by
    set_option maxRecDepth 4000 in decide
  refine ⟨⟨_, _, hdone⟩, ?_⟩
  rintro ⟨groups, rest, hperm, hgroups, -⟩
  rw [hemitted] at hgroups
  obtain ⟨g, hg, rfl⟩ : ∃ g, CarriesStack g ((nodePacket 5).stamp 2).bytes ∧ groups = [g] := by
    cases hgroups with
    | cons hg hnil =>
      cases hnil
      exact ⟨_, hg, rfl⟩
  have hmem : ∀ r ∈ g, r = (nodePacket 7).record ∨ r = (nodePacket 5).record := by
    intro r hr
    have := hperm.subset (List.mem_append_left rest (by simpa using hr))
    simpa [Level.record, Level.recordOf, UdpPacket.record] using this
  have hlen : ∀ r ∈ g, r.bytes.length = 53 := by
    intro r hr
    rcases hmem r hr with rfl | rfl <;> rfl
  have hsum := hg.length_eq
  rw [List.map_congr_left hlen, List.map_const', List.sum_replicate_nat] at hsum
  have hone : g.length = 1 := by
    have : ((nodePacket 5).stamp 2).bytes.length = 53 := by decide
    omega
  obtain ⟨r, rfl⟩ := List.length_eq_one_iff.mp hone
  have hbytes := hg.eq_bytes
  rcases hmem r List.mem_cons_self with rfl | rfl
  · exact absurd hbytes (by decide)
  · exact absurd hbytes (by decide)

end MiaVita
