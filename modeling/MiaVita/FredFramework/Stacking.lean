import MiaVita.FredFramework.Aggregation

/-!
# Both hooks stack records

`__push_app_packet` and `__push_ip_packet` differ in what they buffer of a packet, its datagram or
all of it, and in how they find the timestamp of what is on top of the buffer. `Level` names the
difference; `pushAppPacket_eq_pushRecord` and `pushIpPacket_eq_pushRecord` bring both to one form,
a rewrite of that timestamp followed by `pushRecord`.

What a hook does to a stack of packets is then said once: the buffer holds the difference chain of
the stack, a packet that fits goes on top (`Level.push_stolen`), and one that fills the buffer
becomes the aggregate, the same chain behind an outer header (`Level.push_accept`). The packets may
be any that the level takes (`Level.Takes`), which for the IP level includes the aggregates of the
other one; `Stacks` is the same for UDP packets alone.
-/

namespace MiaVita

open Bytes Memory StampChain Fallible

/-- A packet on its way out, in a socket buffer with some room around it. -/
structure Outgoing where
  packet : UdpPacket
  headroom : ℕ
  tailroom : ℕ

/-- The socket buffer a hook is given. -/
def Outgoing.skb (o : Outgoing) : SkBuff := ⟨o.headroom, o.packet.bytes, o.tailroom⟩

/-- `__push_app_packet` or `__push_ip_packet`. -/
abbrev Push := AggregateBuffer → SkBuff → Except Fault (Verdict × SkBuff × AggregateBuffer)

/-- The two levels of aggregation. -/
inductive Level where
  | app
  | ip

namespace Level

/-- The protocol of the level's aggregates. -/
def proto : Level → ℕ
  | app => agregatedApplicationEncapUdpProto
  | ip => agregatedIpEncapIpProto

/-- The packets whose data the level's hook looks at: UDP packets, at the IP level also the
aggregates of the application level. -/
def Takes : Level → IpPacket → Prop
  | app, p => protocolOf p.bytes = ipprotoUdp
  | ip, p => supported (protocolOf p.bytes) = true

/-- What the level buffers of a packet. -/
def recordOf : Level → IpPacket → Stamped
  | app => IpPacket.datagram
  | ip => IpPacket.record

@[inherit_doc recordOf]
def record (level : Level) (p : UdpPacket) : Stamped := level.recordOf p.toIpPacket

/-- `__push_app_packet` or `__push_ip_packet`. -/
def push (ifaAddress : UInt32) (expand : Expand) : Level → Push
  | app => pushAppPacket ifaAddress expand
  | ip => pushIpPacket ifaAddress expand

/-- The socket buffer a flush starts with; `flush_buffer_app` takes the IP header off. -/
def stripped (skb : SkBuff) (p : IpPacket) : Level → SkBuff
  | app => skb.pull (4 * ihlOf p.bytes)
  | ip => skb

@[simp] theorem time_recordOf (level : Level) (p : IpPacket) :
    (level.recordOf p).time = p.timestamp := by
  cases level with
  | app => exact p.time_datagram
  | ip => rfl

@[simp] theorem time_record (level : Level) (p : UdpPacket) :
    (level.record p).time = p.timestamp := level.time_recordOf p.toIpPacket

theorem takes_toIpPacket (level : Level) (p : UdpPacket) : level.Takes p.toIpPacket := by
  cases level with
  | app => exact p.protocol_eq
  | ip => exact (congrArg supported p.protocol_eq).trans rfl

theorem data_stripped (level : Level) {skb : SkBuff} {p : IpPacket} (h : skb.data = p.bytes) :
    (level.stripped skb p).data = (level.recordOf p).bytes := by
  cases level with
  | app =>
    have hlong := p.stamped
    have hin : 4 * ihlOf p.bytes ≤ skb.data.length := by
      rw [h]
      omega
    rw [stripped, SkBuff.pull, if_pos hin, h]
    rfl
  | ip => exact h

end Level

/-! ### One form for both hooks -/

/-- The end of both hooks, from the test for room on. -/
def pushRecord (level : Level) (ifaAddress : UInt32) (expand : Expand) (skb : SkBuff)
    (p : IpPacket) (b : AggregateBuffer) : Except Fault (Verdict × SkBuff × AggregateBuffer) :=
  if b.bufferLen ≤ b.bufferDataLen + (level.recordOf p).bytes.length then
    flushBuffer level.proto (level.recordOf p).bytes.length ifaAddress expand
      (level.stripped skb p) b >>= fun r => .ok (.accept, r.1, r.2)
  else
    match b.pushBytes (level.recordOf p).bytes with
    | none => .error .panic
    | some b => .ok (.stolen, skb, b)

section Sequential

variable (ifaAddress : UInt32) (expand : Expand) (b : AggregateBuffer) {skb : SkBuff}
  {p : IpPacket}

/-- The end of `__push_app_packet`. -/
private theorem pushRecord_app (hskb : skb.data = p.bytes) :
    (if b.bufferLen ≤ b.bufferDataLen + p.datagram.bytes.length then
      flushBufferApp ifaAddress expand skb b >>= fun r => .ok (.accept, r.1, r.2)
    else
      pushOrPanic b skb.data (4 * ihlOf p.bytes) p.datagram.bytes.length >>=
        fun b => .ok (.stolen, skb, b)) = pushRecord .app ifaAddress expand skb p b := by
  have hlong := p.stamped
  have hload : load id p.bytes (4 * ihlOf p.bytes) p.datagram.bytes.length =
      .ok p.datagram.bytes := by
    rw [load_eq (by rw [p.length_datagram]; omega)]
    exact congrArg Except.ok List.take_length
  rw [pushRecord, flushBufferApp, hskb, p.ipTotLen_bytes, ok_bind, p.ipIhl_bytes, ok_bind,
    pushOrPanic, hload, ok_bind]
  simp only [p.length_datagram_mod]
  refine if_congr Iff.rfl rfl ?_
  cases hpush : b.pushBytes p.datagram.bytes with
  | none => simp only [Level.recordOf, hpush, error_bind]
  | some b' => simp only [Level.recordOf, hpush, ok_bind]

/-- The end of `__push_ip_packet`. -/
private theorem pushRecord_ip (hskb : skb.data = p.bytes) :
    (if b.bufferLen ≤ b.bufferDataLen + p.bytes.length then
      flushBufferIp ifaAddress expand skb b >>= fun r => .ok (.accept, r.1, r.2)
    else
      pushOrPanic b skb.data 0 p.bytes.length >>= fun b => .ok (.stolen, skb, b)) =
      pushRecord .ip ifaAddress expand skb p b := by
  have hload : load id p.bytes 0 p.bytes.length = .ok p.bytes := by
    rw [load_eq (by omega), slice_zero_length]
    rfl
  rw [pushRecord, flushBufferIp, hskb, p.ipTotLen_bytes, ok_bind, pushOrPanic, hload, ok_bind]
  refine if_congr Iff.rfl rfl ?_
  cases hpush : b.pushBytes p.bytes with
  | none => simp only [Level.recordOf, IpPacket.record, hpush, error_bind]
  | some b' => simp only [Level.recordOf, IpPacket.record, hpush, ok_bind]

/-- `__push_app_packet` on a UDP packet, by its steps. -/
theorem pushAppPacket_eq_pushRecord (hskb : skb.data = p.bytes) (hp : Level.app.Takes p) :
    pushAppPacket ifaAddress expand b skb =
      match b.peekPacket with
      | none => pushRecord .app ifaAddress expand skb p b
      | some udpHelper => pduTimestamp b.mem (udpHelper + sizeofUdphdr) >>= fun old =>
          b.storeAt (udpHelper + sizeofUdphdr) (be 8 (p.timestamp - old).toNat) >>=
            pushRecord .app ifaAddress expand skb p := by
  have hprotocol : protocolOf p.bytes = ipprotoUdp := hp
  have htail := fun b => pushRecord_app ifaAddress expand b hskb
  simp only [hskb] at htail
  simp only [pushAppPacket, hskb, p.ipProtocol_bytes, hprotocol, ok_bind, p.ipIhl_bytes,
    p.ipTotLen_bytes, p.length_datagram_mod, ne_eq, not_true_eq_false, if_false, restampUdp, htail]
  cases b.peekPacket with
  | none => rfl
  | some udpHelper =>
    simp only [restamp, p.pduTimestamp_bytes, ok_bind, bind_assoc]

/-- `__push_ip_packet` on a packet of a supported protocol, by its steps. -/
theorem pushIpPacket_eq_pushRecord (hskb : skb.data = p.bytes) (hp : Level.ip.Takes p) :
    pushIpPacket ifaAddress expand b skb =
      match b.peekPacket with
      | none => pushRecord .ip ifaAddress expand skb p b
      | some seeker => ipProtocol b.mem seeker >>= fun protocol =>
          if supported protocol then
            ipIhl b.mem seeker >>= fun ihl =>
              pduTimestamp b.mem (seeker + (4 * ihl + sizeofUdphdr)) >>= fun old =>
                b.storeAt (seeker + (4 * ihl + sizeofUdphdr))
                    (be 8 (p.timestamp - old).toNat) >>=
                  pushRecord .ip ifaAddress expand skb p
          else .ok (.accept, skb, b) := by
  have hsupported : supported (protocolOf p.bytes) = true := hp
  have htail := fun b => pushRecord_ip ifaAddress expand b hskb
  simp only [hskb] at htail
  simp only [pushIpPacket, hskb, p.ipTotLen_bytes, ok_bind, p.ipProtocol_bytes,
    hsupported, p.ipIhl_bytes, htail, seekPdu]
  cases b.peekPacket with
  | none => rfl
  | some seeker =>
    simp only [bind_assoc]
    congr 1
    funext protocol
    cases supported protocol with
    | false => rfl
    | true =>
      simp only [if_true, bind_assoc]
      congr 1
      funext ihl
      simp [restampPeeked, restamp, p.pduTimestamp_bytes, bind_assoc]

end Sequential

/-! ### A hook on a stack of records -/

section Stack

variable {b : AggregateBuffer} {ip : UInt32} {size : ℕ} {skb : SkBuff} {p : IpPacket}
  {ps : List IpPacket}

/-- The buffer of a stack, with the newest timestamp made relative to `t`, is the stack below a
record of time `t`. -/
theorem AggregateBuffer.Holds.restamp {r : Stamped} {rs : List Stamped}
    (h : b.Holds ip size (chain (r :: rs))) (t : UInt64) :
    pduTimestamp b.mem (b.head + r.off) = .ok r.time ∧
      ∃ b', b.storeAt (b.head + r.off) (be 8 (t - r.time).toNat) = .ok b' ∧
        b'.Holds ip size (below t (r :: rs)) := by
  have hin : r.off + 8 ≤ (chain (r :: rs)).length := by
    have := r.fits
    rw [chain_cons, List.length_append]
    omega
  constructor
  · refine (h.load_head hin).trans ?_
    rw [slice_chain_cons, ← r.slice_bytes]
    rfl
  · obtain ⟨b', hstore, hb'⟩ := h.storeAt r.off (be 8 (t - r.time).toNat)
      (by rw [length_be]; exact hin)
    rw [patch_chain_cons] at hb'
    exact ⟨b', hstore, hb'⟩

private theorem chain_recordOf_cons (level : Level) (p : IpPacket) (ps : List IpPacket) :
    chain ((p :: ps).map level.recordOf) =
      (level.recordOf p).bytes ++ below p.timestamp (ps.map level.recordOf) := by
  rw [List.map_cons, chain_cons, level.time_recordOf]

theorem chain_push {level : Level} (o : Outgoing) (rest : List UdpPacket) :
    chain ((o.packet :: rest).map level.record) = (level.record o.packet).bytes ++
      below o.packet.timestamp (rest.map level.record) := by
  rw [List.map_cons, chain_cons, level.time_record]

/-- **The first half of a hook** makes what is on top of the buffer relative to the packet. -/
theorem Level.push_eq_pushRecord (level : Level) (ifaAddress : UInt32) (expand : Expand)
    (hskb : skb.data = p.bytes) (hp : level.Takes p) (hps : ∀ q ∈ ps, level.Takes q)
    (h : b.Holds ip size (chain (ps.map level.recordOf))) :
    ∃ b', level.push ifaAddress expand b skb = pushRecord level ifaAddress expand skb p b' ∧
      b'.Holds ip size (below p.timestamp (ps.map level.recordOf)) := by
  cases ps with
  | nil =>
    refine ⟨b, ?_, h⟩
    cases level with
    | app => rw [Level.push, pushAppPacket_eq_pushRecord _ _ _ hskb hp, h.peekPacket_nil]
    | ip => rw [Level.push, pushIpPacket_eq_pushRecord _ _ _ hskb hp, h.peekPacket_nil]
  | cons q qs =>
    have hpeek := h.peekPacket (chain_ne_nil (by simp))
    obtain ⟨hold, b', hstore, hb'⟩ := h.restamp p.timestamp
    refine ⟨b', ?_, hb'⟩
    cases level with
    | app =>
      have hold' : pduTimestamp b.mem (b.head + sizeofUdphdr) = .ok q.datagram.time := hold
      have hstore' : b.storeAt (b.head + sizeofUdphdr)
          (be 8 (p.timestamp - q.datagram.time).toNat) = .ok b' := hstore
      rw [Level.push, pushAppPacket_eq_pushRecord _ _ _ hskb hp, hpeek]
      simp only [hold', hstore', ok_bind]
    | ip =>
      obtain ⟨hprotocol, hihl⟩ := q.fields_of_drop (h.data_eq.trans (chain_cons _ _))
      have hold' : pduTimestamp b.mem (b.head + (4 * ihlOf q.bytes + sizeofUdphdr)) =
          .ok q.record.time := hold
      have hstore' : b.storeAt (b.head + (4 * ihlOf q.bytes + sizeofUdphdr))
          (be 8 (p.timestamp - q.record.time).toNat) = .ok b' := hstore
      have hsupported : supported (protocolOf q.bytes) = true := hps q List.mem_cons_self
      rw [Level.push, pushIpPacket_eq_pushRecord _ _ _ hskb hp, hpeek]
      simp only [hprotocol, hsupported, if_true, hihl, hold', hstore', ok_bind]

/-- **A packet that fits** goes on top of the stack. -/
theorem Level.push_stolen (level : Level) (ifaAddress : UInt32) (expand : Expand)
    (hskb : skb.data = p.bytes) (hp : level.Takes p) (hps : ∀ q ∈ ps, level.Takes q)
    (h : b.Holds ip size (chain (ps.map level.recordOf)))
    (hfit : (chain ((p :: ps).map level.recordOf)).length < size) :
    ∃ b', level.push ifaAddress expand b skb = .ok (.stolen, skb, b') ∧
      b'.Holds ip size (chain ((p :: ps).map level.recordOf)) := by
  obtain ⟨b₁, hpush, hb₁⟩ := level.push_eq_pushRecord ifaAddress expand hskb hp hps h
  rw [chain_recordOf_cons, List.length_append] at hfit
  have hroom : ¬ b₁.bufferLen ≤ b₁.bufferDataLen + (level.recordOf p).bytes.length := by
    rw [hb₁.len_eq, hb₁.dataLen_eq]
    omega
  obtain ⟨b', hbytes, hb'⟩ := hb₁.pushBytes (level.recordOf p).bytes (by omega)
  refine ⟨b', ?_, by rw [chain_recordOf_cons]; exact hb'⟩
  rw [hpush, pushRecord, if_neg hroom, hbytes]

/-- **A packet that fills the buffer** is passed on and leaves the buffer empty; if the socket
buffer has the room, or gets it, then as the aggregate of the stack with itself on top. -/
theorem Level.push_accept (level : Level) (ifaAddress : UInt32) (expand : Expand)
    (hskb : skb.data = p.bytes) (hp : level.Takes p) (hps : ∀ q ∈ ps, level.Takes q)
    (h : b.Holds ip size (chain (ps.map level.recordOf)))
    (hfull : size ≤ (chain ((p :: ps).map level.recordOf)).length) :
    ∃ skb' b', level.push ifaAddress expand b skb = .ok (.accept, skb', b') ∧
      b'.Holds ip size [] ∧
      (expand = .ok → skb'.data = aggregateHeader level.proto
        (sizeofIphdr + (chain ((p :: ps).map level.recordOf)).length) ifaAddress ip ++
        chain ((p :: ps).map level.recordOf)) := by
  obtain ⟨b₁, hpush, hb₁⟩ := level.push_eq_pushRecord ifaAddress expand hskb hp hps h
  rw [chain_recordOf_cons, List.length_append] at hfull ⊢
  have hroom : b₁.bufferLen ≤ b₁.bufferDataLen + (level.recordOf p).bytes.length := by
    rw [hb₁.len_eq, hb₁.dataLen_eq]
    omega
  obtain ⟨skb', hflush⟩ := flushBuffer_returns level.proto (level.recordOf p).bytes.length
    ifaAddress expand (level.stripped skb p) b₁
  refine ⟨skb', b₁.resetBuffer, ?_, hb₁.reset, ?_⟩
  · rw [hpush, pushRecord, if_pos hroom, hflush, ok_bind]
  · rintro rfl
    obtain ⟨skb₁, hflush₁, hdata⟩ := flushBuffer_ok level.proto (level.recordOf p).bytes.length
      ifaAddress (level.stripped skb p) b₁
    rw [hflush] at hflush₁
    cases hflush₁
    rw [hdata, level.data_stripped hskb, hb₁.data_eq, hb₁.dataLen_eq, hb₁.ip_eq,
      Nat.add_comm (level.recordOf p).bytes.length, Nat.add_assoc]

end Stack

/-- **A push function stacks records**: the buffer holds the difference chain of a stack of
packets, each as its record; a packet that fits goes on top, and one that fills the buffer leaves
as the aggregate of the whole stack with itself on top. -/
structure Stacks (push : Push) (proto : ℕ) (ifaAddress : UInt32) (record : UdpPacket → Stamped) :
    Prop where
  stolen : ∀ {b ip size} (ps : List UdpPacket) (p : UdpPacket) (skb : SkBuff),
    b.Holds ip size (chain (ps.map record)) → skb.data = p.bytes →
    (chain ((p :: ps).map record)).length < size →
    ∃ b', push b skb = .ok (.stolen, skb, b') ∧ b'.Holds ip size (chain ((p :: ps).map record))
  accept : ∀ {b ip size} (ps : List UdpPacket) (p : UdpPacket) (skb : SkBuff),
    b.Holds ip size (chain (ps.map record)) → skb.data = p.bytes →
    size ≤ (chain ((p :: ps).map record)).length →
    ∃ skb' b', push b skb = .ok (.accept, skb', b') ∧
      skb'.data = aggregateHeader proto (sizeofIphdr + (chain ((p :: ps).map record)).length)
        ifaAddress ip ++ chain ((p :: ps).map record) ∧
      b'.Holds ip size []

private theorem map_recordOf_toIpPacket (level : Level) (ps : List UdpPacket) :
    (ps.map UdpPacket.toIpPacket).map level.recordOf = ps.map level.record := by
  rw [List.map_map]
  rfl

/-- **Both hooks stack records.** -/
theorem stacks_push (level : Level) (ifaAddress : UInt32) :
    Stacks (level.push ifaAddress .ok) level.proto ifaAddress level.record where
  stolen ps p skb h hskb hfit := by
    have htakes : ∀ q ∈ ps.map UdpPacket.toIpPacket, level.Takes q :=
      List.forall_mem_map.mpr fun q _ => level.takes_toIpPacket q
    have hcons := map_recordOf_toIpPacket level (p :: ps)
    rw [← map_recordOf_toIpPacket] at h
    rw [← hcons] at hfit ⊢
    exact level.push_stolen ifaAddress .ok hskb (level.takes_toIpPacket p) htakes h hfit
  accept ps p skb h hskb hfull := by
    have htakes : ∀ q ∈ ps.map UdpPacket.toIpPacket, level.Takes q :=
      List.forall_mem_map.mpr fun q _ => level.takes_toIpPacket q
    have hcons := map_recordOf_toIpPacket level (p :: ps)
    rw [← map_recordOf_toIpPacket] at h
    rw [← hcons] at hfull ⊢
    obtain ⟨skb', b', hpush, hb', hdata⟩ :=
      level.push_accept ifaAddress .ok hskb (level.takes_toIpPacket p) htakes h hfull
    exact ⟨skb', b', hpush, hdata rfl, hb'⟩

theorem stacks_pushIpPacket (ifaAddress : UInt32) :
    Stacks (pushIpPacket ifaAddress .ok) agregatedIpEncapIpProto ifaAddress UdpPacket.record :=
  stacks_push .ip ifaAddress

theorem stacks_pushAppPacket (ifaAddress : UInt32) :
    Stacks (pushAppPacket ifaAddress .ok) agregatedApplicationEncapUdpProto ifaAddress
      UdpPacket.datagram :=
  stacks_push .app ifaAddress

end MiaVita
