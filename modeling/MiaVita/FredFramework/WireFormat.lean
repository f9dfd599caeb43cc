import MiaVita.FredFramework.BufferList
import MiaVita.FredFramework.Emission
import MiaVita.Lib.Batches

/-!
# The aggregator over whole runs

The post-routing hook takes packets for any destinations, in any order, and between packets the
flush thread may make a pass over all the buffers. What the aggregator is for is a table of
batches (`Batches`), one sequence of packets for each destination: a packet goes to the open batch
of its destination, which is closed when it reaches the size of a buffer, and a pass closes all
open batches.

`Represents` relates the buffers and the packets sent so far to such a table: the buffers store the
open batches, and the closed ones have left as aggregates, in order.
`aggregatorStep_represents` says that every step keeps it, and the wire format over a run follows
from what is known about batches.
-/

namespace MiaVita

open Bytes Memory StampChain Fallible

/-! ### Runs -/

/-- The buffers of the aggregator and everything that has left. -/
structure Aggregator where
  ipBuffers : List (Option AggregateBuffer)
  emitted : List (List UInt8)

/-- A packet reaches the hook, on its way to a device with the given address, or the flush thread
makes a pass. -/
inductive AggregatorEvent where
  | packet (o : Outgoing) (ifaAddress : UInt32)
  | pass

/-- The packet of an event, if there is one. -/
def AggregatorEvent.packet? : AggregatorEvent → Option UdpPacket
  | packet o _ => some o.packet
  | pass => none

/-- One event, with all allocations succeeding. -/
def aggregatorStep (size : ℕ) (sourceIp : UInt32) (s : Aggregator) :
    AggregatorEvent → Except Fault Aggregator
  | .packet o ifaAddress => do
    let (verdict, skb, ipBuffers) ←
      aggregationPostRoutingHook size ifaAddress true .ok s.ipBuffers o.skb
    .ok ⟨ipBuffers, s.emitted ++ if verdict = .accept then [skb.data] else []⟩
  | .pass => do
    let (sent, ipBuffers) ←
      buildAndSendPackets agregatedIpEncapIpProto sourceIp FlushAllocs.ok s.ipBuffers
    .ok ⟨ipBuffers, s.emitted ++ sent⟩

/-- The packets of a run that are sent to `d`, in order. -/
def packetsTo (d : UInt32) (events : List AggregatorEvent) : List UdpPacket :=
  (events.filterMap AggregatorEvent.packet?).filter fun p => daddrOf p.bytes = d

/-! ### Aggregates -/

/-- `bs` is an aggregate for `d` of the packets `ps`, newest first: behind an outer header of the
right length it has these packets, with nothing changed but the timestamps, which are the newest
one and then the differences, so that subtracting along gives back those of the packets. -/
def IsAggregate (d : UInt32) (ps : List UdpPacket) (bs : List UInt8) : Prop :=
  ∃ saddr qs,
    bs = aggregateHeader agregatedIpEncapIpProto bs.length saddr d ++
      (qs.map UdpPacket.bytes).flatten ∧
    totLenOf bs = bs.length ∧
    List.Forall₂ (fun p q => ∃ t, q = p.stamp t) ps qs ∧
    qs.map UdpPacket.timestamp = deltas (ps.map UdpPacket.timestamp) ∧
    recover (qs.map UdpPacket.timestamp) = ps.map UdpPacket.timestamp

private theorem map_timestamp_stamp (ps : List UdpPacket) {ts : List UInt64}
    (h : ts.length = ps.length) :
    (List.zipWith UdpPacket.stamp ps ts).map UdpPacket.timestamp = ts := by
  induction ps generalizing ts with
  | nil => simpa using (List.length_eq_zero_iff.mp h).symm
  | cons p ps ih =>
    obtain ⟨t, ts, rfl⟩ := List.exists_cons_of_length_eq_add_one h
    rw [List.zipWith_cons_cons, List.map_cons, UdpPacket.timestamp_stamp, ih (by simpa using h)]

/-- What leaves, on either path, is an aggregate of the stack. -/
private theorem isAggregate_chain (saddr d : UInt32) (ps : List UdpPacket)
    (hshort : sizeofIphdr + (chain (ps.map UdpPacket.record)).length < 65536) :
    IsAggregate d ps (aggregateHeader agregatedIpEncapIpProto
      (sizeofIphdr + (chain (ps.map UdpPacket.record)).length) saddr d ++
        chain (ps.map UdpPacket.record)) := by
  have hlen : (deltas (ps.map UdpPacket.timestamp)).length = ps.length := by simp
  have htimes := map_timestamp_stamp ps hlen
  obtain ⟨-, htot, -, -⟩ := fields_aggregateHeader (show agregatedIpEncapIpProto < 256 by decide)
    (sizeofIphdr + (chain (ps.map UdpPacket.record)).length) saddr d
    (chain (ps.map UdpPacket.record))
  refine ⟨saddr, _, ?_, ?_, ?_, htimes, by rw [htimes, recover_deltas]⟩
  · rw [List.length_append, length_aggregateHeader, chain_records]
  · rw [htot, Nat.mod_eq_of_lt hshort, List.length_append, length_aggregateHeader]
  · rw [forall₂_zipWith_right hlen, List.forall₂_iff_zip]
    exact ⟨hlen.symm, fun _ => ⟨_, rfl⟩⟩

private theorem daddrOf_aggregate (n : ℕ) (saddr d : UInt32) (payload : List UInt8) :
    daddrOf (aggregateHeader agregatedIpEncapIpProto n saddr d ++ payload) = d :=
  (fields_aggregateHeader (by decide) n saddr d payload).2.2.2

/-! ### The buffers and the open batches -/

/-- The table of batches behind the aggregator. -/
abbrev BatchTable := UInt32 → Batches UdpPacket

/-- A batch is closed when it has as many bytes as a buffer. -/
def batchFull (size : ℕ) (ps : List UdpPacket) : Bool :=
  size ≤ (ps.map fun p => p.bytes.length).sum

/-- What an event does to the table. -/
def AggregatorEvent.op : AggregatorEvent → Batches.Op UdpPacket
  | packet o _ => .item o.packet
  | pass => .closeAll

/-- One event on the table. -/
def batchStep (size : ℕ) (a : BatchTable) (e : AggregatorEvent) : BatchTable :=
  e.op.step (fun p => daddrOf p.bytes) (batchFull size) a

/-- What the buffers hold for a destination: the chain of its open batch. -/
def openBytes (a : BatchTable) (d : UInt32) : List UInt8 :=
  chain ((a d).pending.reverse.map UdpPacket.record)

/-- The buffers hold the open batches and the closed ones have left as aggregates. -/
structure Represents (size : ℕ) (s : Aggregator) (a : BatchTable) : Prop where
  live : none ∉ s.ipBuffers
  stored : Stored size s.ipBuffers (openBytes a)
  emitted : ∀ d, List.Forall₂ (fun g packet => IsAggregate d g.reverse packet) (a d).closed
    (s.emitted.filter fun packet => daddrOf packet = d)

theorem represents_empty (size : ℕ) : Represents size ⟨[], []⟩ fun _ => Batches.empty where
  live := List.not_mem_nil
  stored := stored_nil size
  emitted _ := .nil

private theorem openBytes_update (a : BatchTable) (d : UInt32) (c : Batches UdpPacket) :
    openBytes (Function.update a d c) =
      Function.update (openBytes a) d (chain (c.pending.reverse.map UdpPacket.record)) :=
  Function.comp_update (fun c : Batches UdpPacket =>
    chain (c.pending.reverse.map UdpPacket.record)) a d c

private theorem pending_eq_nil {a : BatchTable} {d : UInt32} (h : openBytes a d = []) :
    (a d).pending = [] := by
  simpa [openBytes] using h

section Step

variable {size : ℕ} {a : BatchTable}

/-- The entries of a list without `NULL` are buffers. -/
private theorem exists_map_some {buffers : List (Option AggregateBuffer)} (h : none ∉ buffers) :
    ∃ bs : List AggregateBuffer, buffers = bs.map some := by
  induction buffers with
  | nil => exact ⟨[], rfl⟩
  | cons x buffers ih =>
    cases x with
    | none => exact absurd List.mem_cons_self h
    | some b =>
      obtain ⟨bs, rfl⟩ := ih fun hmem => h (List.mem_cons_of_mem _ hmem)
      exact ⟨b :: bs, rfl⟩

/-- The buffers for a destination, in a list without `NULL`. -/
private theorem filter_ip_map {buffers : List (Option AggregateBuffer)}
    {content : UInt32 → List UInt8}
    {bs : List AggregateBuffer} (h : Stored size buffers content) (hbs : buffers = bs.map some)
    (d : UInt32) :
    bs.filter (fun b => b.ip = d) = [] ∧ content d = [] ∨
      ∃ b, bs.filter (fun b => b.ip = d) = [b] ∧ b.Holds d size (content d) := by
  have hfilter : (bs.map some).filter (fun b => b.any fun b => b.ip = d) =
      (bs.filter fun b => b.ip = d).map some := by
    rw [List.filter_map]
    rfl
  have hcases := h.filter_ip d
  rw [hbs, hfilter] at hcases
  refine hcases.imp (And.imp_left List.map_eq_nil_iff.mp) fun ⟨b, hone, hb⟩ => ⟨b, ?_, hb⟩
  obtain ⟨b', hone, heq⟩ := List.map_eq_singleton_iff.mp hone
  rw [hone, Option.some.inj heq]

/-- A walk for which allocation succeeds leaves no entry without a buffer. -/
private theorem none_notMem_of_created {d : UInt32} {i : ℕ}
    {buffers buffers' : List (Option AggregateBuffer)}
    (h : getBufferFor size true d buffers = .ok (i, buffers')) (hnone : none ∉ buffers) :
    none ∉ buffers' := by
  obtain ⟨pre, b, post, -, -, -, rfl⟩ | ⟨-, -, rfl⟩ := getBufferFor_cases h
  · exact hnone
  · obtain ⟨b, hcreate, -⟩ := AggregateBuffer.holds_create size d
    rw [hcreate]
    simpa using hnone

/-- The packets of a pass for one destination. -/
private theorem filter_flushed (sourceIp d : UInt32) (bs : List AggregateBuffer) :
    (bs.filterMap (flushed agregatedIpEncapIpProto sourceIp)).filter (fun p => daddrOf p = d) =
      (bs.filter fun b => b.ip = d).filterMap (flushed agregatedIpEncapIpProto sourceIp) := by
  rw [List.filter_filterMap, List.filterMap_filter]
  refine List.filterMap_congr fun b _ => ?_
  by_cases hd : b.data = []
  · simp [flushed, hd]
  · simp [flushed, hd, Option.filter, daddrOf_aggregate]

variable {s : Aggregator}

/-- **The hook**: it pushes on a buffer with the open batch of the destination, and what the push
leaves there is the new open batch. -/
theorem Represents.hook (h : Represents size s a) (o : Outgoing) (ifaAddress : UInt32) :
    ∃ b : AggregateBuffer,
      b.Holds (daddrOf o.packet.bytes) size (openBytes a (daddrOf o.packet.bytes)) ∧
      ∀ {verdict skb b'} (c : Batches UdpPacket),
        pushIpPacket ifaAddress .ok b o.skb = .ok (verdict, skb, b') →
        b'.Holds (daddrOf o.packet.bytes) size
          (chain (c.pending.reverse.map UdpPacket.record)) →
        ∃ ipBuffers,
          aggregationPostRoutingHook size ifaAddress true .ok s.ipBuffers o.skb =
            .ok (verdict, skb, ipBuffers) ∧
          none ∉ ipBuffers ∧
          Stored size ipBuffers (openBytes (Function.update a (daddrOf o.packet.bytes) c)) := by
  have hdaddr : ipDaddr o.skb.data 0 = .ok (daddrOf o.packet.bytes) := o.packet.ipDaddr_bytes
  obtain ⟨⟨i, found⟩, hget⟩ := getBufferFor_returns size true (daddrOf o.packet.bytes) h.live
  have hlive := none_notMem_of_created hget h.live
  obtain ⟨hstored, ⟨pre, b, post, rfl, hip, rfl⟩ | ⟨hfalse, -, -⟩⟩ := h.stored.getBufferFor hget
  swap
  · cases hfalse
  refine ⟨b, hip ▸ hstored.holds b (by simp), fun {verdict skb b'} c hpush hb' => ?_⟩
  refine ⟨pre ++ some b' :: post, ?_, by simpa using hlive, ?_⟩
  · rw [aggregationPostRoutingHook, hdaddr, ok_bind, hget, ok_bind]
    exact (pushTo_append ..).trans (by rw [hpush, ok_bind])
  · rw [openBytes_update, ← hip]
    exact hstored.replace (hip ▸ hb')

/-- The stack of a batch is full when the batch is. -/
private theorem batchFull_iff (ps : List UdpPacket) :
    batchFull size ps = true ↔ size ≤ (chain (ps.reverse.map UdpPacket.record)).length := by
  rw [batchFull, decide_eq_true_iff, length_chain, List.map_map, List.map_reverse,
    List.sum_reverse]
  rfl

/-- A packet that fits goes to the open batch of its destination. -/
private theorem Represents.stolen (h : Represents size s a) (o : Outgoing)
    (ifaAddress sourceIp : UInt32)
    (hfull : ¬ batchFull size ((a (daddrOf o.packet.bytes)).add o.packet).pending = true) :
    ∃ s', aggregatorStep size sourceIp s (.packet o ifaAddress) = .ok s' ∧
      Represents size s' (Function.update a (daddrOf o.packet.bytes)
        ((a (daddrOf o.packet.bytes)).add o.packet)) := by
  obtain ⟨b, hb, hhook⟩ := h.hook o ifaAddress
  have hpending : ((a (daddrOf o.packet.bytes)).add o.packet).pending.reverse =
      o.packet :: (a (daddrOf o.packet.bytes)).pending.reverse := List.reverse_concat
  rw [batchFull_iff, hpending] at hfull
  obtain ⟨b', hpush, hb'⟩ := (stacks_pushIpPacket ifaAddress).stolen _ o.packet o.skb hb rfl
    (Nat.lt_of_not_le hfull)
  obtain ⟨ipBuffers, hook, hlive, hstored⟩ := hhook _ hpush (by rw [hpending]; exact hb')
  refine ⟨⟨ipBuffers, s.emitted⟩, ?_, hlive, hstored, fun d => ?_⟩
  · rw [aggregatorStep, hook, ok_bind]
    simp
  · have hclosed : (Function.update a (daddrOf o.packet.bytes)
        ((a (daddrOf o.packet.bytes)).add o.packet) d).closed = (a d).closed := by
      by_cases hd : d = daddrOf o.packet.bytes
      · rw [hd, Function.update_self]
        rfl
      · rw [Function.update_of_ne hd]
    rw [hclosed]
    exact h.emitted d

/-- A packet that fills the buffer leaves as the aggregate of the batch, which is closed. -/
private theorem Represents.accept (h : Represents size s a) (o : Outgoing)
    (ifaAddress sourceIp : UInt32) (hsize : size ≤ 1480) (hpacket : o.packet.bytes.length ≤ 1500)
    (hfull : batchFull size ((a (daddrOf o.packet.bytes)).add o.packet).pending = true) :
    ∃ s', aggregatorStep size sourceIp s (.packet o ifaAddress) = .ok s' ∧
      Represents size s' (Function.update a (daddrOf o.packet.bytes)
        ((a (daddrOf o.packet.bytes)).add o.packet).close) := by
  obtain ⟨b, hb, hhook⟩ := h.hook o ifaAddress
  obtain ⟨ps, hps⟩ : ∃ ps, ps = (a (daddrOf o.packet.bytes)).pending := ⟨_, rfl⟩
  have hpending : ((a (daddrOf o.packet.bytes)).add o.packet).pending = ps ++ [o.packet] := by
    rw [hps]
    rfl
  rw [batchFull_iff, hpending, List.reverse_concat] at hfull
  rw [openBytes, ← hps] at hb
  obtain ⟨skb', b', hpush, hdata, hb'⟩ := (stacks_pushIpPacket ifaAddress).accept _ o.packet o.skb
    hb rfl hfull
  obtain ⟨ipBuffers, hook, hlive, hstored⟩ := hhook
    ((a (daddrOf o.packet.bytes)).add o.packet).close hpush
    (by rw [Batches.pending_close]; exact hb')
  have hlen : (chain ((o.packet :: ps.reverse).map UdpPacket.record)).length ≤ 1500 + size := by
    have hbelow := b.bufferDataLen_le
    rw [hb.dataLen_eq, hb.len_eq] at hbelow
    rw [length_chain, List.map_cons, List.map_cons, List.sum_cons, ← length_chain]
    exact Nat.add_le_add hpacket hbelow
  refine ⟨⟨ipBuffers, s.emitted ++ [skb'.data]⟩, ?_, hlive, hstored, fun d => ?_⟩
  · rw [aggregatorStep, hook, ok_bind]
    rfl
  · rw [List.filter_append]
    by_cases hd : d = daddrOf o.packet.bytes
    · subst hd
      have hclosed : ((a (daddrOf o.packet.bytes)).add o.packet).close.closed =
          (a (daddrOf o.packet.bytes)).closed ++ [ps ++ [o.packet]] := by
        rw [Batches.closed_close (by rw [hpending]; simp), hpending]
        rfl
      rw [Function.update_self, hclosed, hdata,
        List.filter_cons_of_pos (by rw [daddrOf_aggregate]; simp)]
      refine List.rel_append (h.emitted _) (.cons ?_ .nil)
      rw [List.reverse_concat]
      exact isAggregate_chain _ _ _ (by simp only [sizeofIphdr]; omega)
    · rw [Function.update_of_ne hd, hdata,
        List.filter_cons_of_neg (by rw [daddrOf_aggregate]; simpa using Ne.symm hd),
        List.filter_nil, List.append_nil]
      exact h.emitted d

/-- A pass sends and closes every open batch. -/
private theorem Represents.pass (h : Represents size s a) (sourceIp : UInt32)
    (hsize : size ≤ 1480) :
    ∃ s', aggregatorStep size sourceIp s .pass = .ok s' ∧
      Represents size s' fun d => (a d).close := by
  obtain ⟨bs, hbs⟩ := exists_map_some h.live
  have hholds : ∀ b ∈ bs, b.Holds b.ip size (openBytes a b.ip) := fun b hb =>
    h.stored.holds b (hbs ▸ List.mem_map_of_mem hb)
  have hshort : ∀ b ∈ bs, sizeofIphdr + b.data.length < 65536 := by
    intro b hb
    have hle := b.bufferDataLen_le
    rw [(hholds b hb).len_eq, ← b.length_data] at hle
    simp only [sizeofIphdr]
    omega
  have hpass := buildAndSendFrom_ok agregatedIpEncapIpProto sourceIp 0 bs hshort
  refine ⟨⟨bs.map fun b => some b.resetBuffer, s.emitted ++
    bs.filterMap (flushed agregatedIpEncapIpProto sourceIp)⟩, ?_, by simp, ?_, fun d => ?_⟩
  · rw [aggregatorStep, hbs, buildAndSendPackets, hpass, ok_bind]
  · refine h.stored.of_ips ?_ ?_ fun d _ => by rw [openBytes, Batches.pending_close]; rfl
    · rw [ips, ips, hbs, List.map_map, List.map_map]
      rfl
    · intro b' hb'
      obtain ⟨b, hb, heq⟩ := List.mem_map.mp hb'
      cases heq
      rw [openBytes, Batches.pending_close]
      exact (hholds b hb).reset
  · rw [List.filter_append, filter_flushed]
    obtain ⟨hnil, hpending⟩ | ⟨b, hone, hb⟩ := filter_ip_map h.stored hbs d
    · rw [hnil, Batches.close_of_nil (pending_eq_nil hpending), List.filterMap_nil, List.append_nil]
      exact h.emitted d
    rw [hone]
    by_cases hpending : (a d).pending = []
    · have hdata : b.data = [] := by
        rw [hb.data_eq, openBytes, hpending]
        rfl
      have hnone : flushed agregatedIpEncapIpProto sourceIp b = none := if_pos hdata
      rw [List.filterMap_cons_none hnone, List.filterMap_nil, List.append_nil,
        Batches.close_of_nil hpending]
      exact h.emitted d
    · have hdata : b.data ≠ [] := by
        rw [hb.data_eq]
        exact fun hnil => hpending (pending_eq_nil hnil)
      have hsome : flushed agregatedIpEncapIpProto sourceIp b = some _ := if_neg hdata
      have hlen := hshort b (List.mem_of_mem_filter (by rw [hone]; exact List.mem_singleton_self b))
      rw [List.filterMap_cons_some hsome, List.filterMap_nil, Batches.closed_close hpending]
      refine List.rel_append (h.emitted d) (.cons ?_ .nil)
      rw [hb.data_eq] at hlen
      rw [hb.data_eq, hb.ip_eq]
      exact isAggregate_chain _ _ _ hlen

/-- **One step of the aggregator is one step on the table.** -/
theorem aggregatorStep_represents (h : Represents size s a) (sourceIp : UInt32)
    (e : AggregatorEvent) (hsize : size ≤ 1480)
    (hpacket : ∀ p, e.packet? = some p → p.bytes.length ≤ 1500) :
    ∃ s', aggregatorStep size sourceIp s e = .ok s' ∧ Represents size s' (batchStep size a e) := by
  cases e with
  | pass => exact h.pass sourceIp hsize
  | packet o ifaAddress =>
    simp only [batchStep, AggregatorEvent.op, Batches.Op.step]
    by_cases hfull : batchFull size ((a (daddrOf o.packet.bytes)).add o.packet).pending = true
    · rw [if_pos hfull]
      exact h.accept o ifaAddress sourceIp hsize (hpacket o.packet rfl) hfull
    · rw [if_neg hfull]
      exact h.stolen o ifaAddress sourceIp hfull

end Step

/-! ### The wire format -/

/-- There is at most one buffer for `d`, and it holds the difference chain of the packets `ps`,
oldest first; without a buffer there are none. -/
def BufferedFor (size : ℕ) (ipBuffers : List (Option AggregateBuffer)) (d : UInt32)
    (ps : List UdpPacket) : Prop :=
  ipBuffers.filter (fun b => b.any fun b => b.ip = d) = [] ∧ ps = [] ∨
    ∃ b, ipBuffers.filter (fun b => b.any fun b => b.ip = d) = [some b] ∧
      b.Holds d size (chain (ps.reverse.map UdpPacket.record))

private theorem Represents.bufferedFor {size : ℕ} {s : Aggregator} {a : BatchTable}
    (h : Represents size s a) (d : UInt32) : BufferedFor size s.ipBuffers d (a d).pending :=
  (h.stored.filter_ip d).imp_left fun ⟨hnone, hnil⟩ => ⟨hnone, pending_eq_nil hnil⟩

/-- The events of a run, on the table. -/
theorem items_batchStep (size : ℕ) (events : List AggregatorEvent) (d : UInt32) :
    (Run.exec (batchStep size) (fun _ => Batches.empty) events d).items = packetsTo d events := by
  have hexec : Run.exec (batchStep size) (fun _ => Batches.empty) events =
      Run.exec (Batches.Op.step (fun p => daddrOf p.bytes) (batchFull size))
        (fun _ => Batches.empty) (events.map AggregatorEvent.op) := by
    rw [Run.exec, Run.exec, List.foldl_map]
    rfl
  have hitems : (events.map AggregatorEvent.op).filterMap Batches.Op.item? =
      events.filterMap AggregatorEvent.packet? := by
    rw [List.filterMap_map]
    refine List.filterMap_congr fun e _ => ?_
    cases e <;> rfl
  rw [hexec, Batches.items_exec, Batches.itemsFor, hitems]
  rfl

/-- **The wire format over whole runs.** For buffers of at most 1480 bytes and packets of at most
1500, in any run of packets and passes: the packets for a destination, in order, are cut into
groups and a rest. The aggregates that have left for the destination are those of the groups, one
for each and in order, each with its packets newest first and the differences of their timestamps;
the rest is in the one buffer of the destination. -/
theorem aggregator_wireFormat (size : ℕ) (sourceIp : UInt32) (events : List AggregatorEvent)
    (hsize : size ≤ 1480)
    (hpackets : ∀ e ∈ events, ∀ p, e.packet? = some p → p.bytes.length ≤ 1500) :
    ∃ s, Run.execM (aggregatorStep size sourceIp) ⟨[], []⟩ events = .ok s ∧
      ∀ d, ∃ (groups : List (List UdpPacket)) (rest : List UdpPacket),
        groups.flatten ++ rest = packetsTo d events ∧
        (∀ g ∈ groups, g ≠ []) ∧
        List.Forall₂ (fun g packet => IsAggregate d g.reverse packet) groups
          (s.emitted.filter fun packet => daddrOf packet = d) ∧
        BufferedFor size s.ipBuffers d rest := by
  obtain ⟨s, hrun, hrep⟩ := Run.simulation
    (fun s a e (h : Represents size s a) he => aggregatorStep_represents h sourceIp e hsize he)
    (represents_empty size) hpackets
  refine ⟨s, hrun, fun d => ?_⟩
  obtain ⟨b, hb⟩ : ∃ b, b = Run.exec (batchStep size) (fun _ => Batches.empty) events d := ⟨_, rfl⟩
  refine ⟨b.closed, b.pending, ?_, b.ne_nil, ?_, ?_⟩
  · rw [← items_batchStep size, ← hb, Batches.items]
  · rw [hb]
    exact hrep.emitted d
  · rw [hb]
    exact hrep.bufferedFor d

/-- Three packets to one destination and a pass between them, on buffers of 100 bytes. -/
theorem aggregator_wireFormat_three :
    ∃ s, Run.execM (aggregatorStep 100 2) ⟨[], []⟩
        [.packet ⟨nodePacket 5, 0, 0⟩ 1, .packet ⟨nodePacket 7, 16, 100⟩ 1, .pass,
          .packet ⟨nodePacket 9, 16, 100⟩ 1] = .ok s ∧
      ∀ d, ∃ (groups : List (List UdpPacket)) (rest : List UdpPacket),
        groups.flatten ++ rest = packetsTo d
          [.packet ⟨nodePacket 5, 0, 0⟩ 1, .packet ⟨nodePacket 7, 16, 100⟩ 1, .pass,
            .packet ⟨nodePacket 9, 16, 100⟩ 1] ∧
        (∀ g ∈ groups, g ≠ []) ∧
        List.Forall₂ (fun g packet => IsAggregate d g.reverse packet) groups
          (s.emitted.filter fun packet => daddrOf packet = d) ∧
        BufferedFor 100 s.ipBuffers d rest :=
  aggregator_wireFormat 100 2 [.packet ⟨nodePacket 5, 0, 0⟩ 1, .packet ⟨nodePacket 7, 16, 100⟩ 1,
    .pass, .packet ⟨nodePacket 9, 16, 100⟩ 1] (by decide) (by
      intro e he p hp
      simp only [List.mem_cons, List.not_mem_nil, or_false] at he
      rcases he with rfl | rfl | rfl | rfl <;> cases hp <;> decide)

end MiaVita
