import MiaVita.FredFramework.Aggregation

/-!
# The flush thread (`aggregation/consuela.c`)

Once per timeout the thread walks the list of buffers, takes the data of each out with `mv_data`,
puts a header in front and sends the packet. `buildAndSendPackets` is one pass: it gives the
packets handed to `send_it` and the buffers afterwards, given the outcome of each allocation.

The local pointer `buffered` is carried from one buffer to the next, and is left pointing to a
freed block when the packet could not be allocated; `Buffered` says what it points to.
-/

namespace MiaVita

open Bytes Memory Fallible

/-- The outcomes of the two allocations made for a buffer: in `mv_data` and for the packet. -/
structure FlushAllocs where
  mv : Bool
  packet : Bool

/-- Every allocation of a pass succeeds. -/
def FlushAllocs.ok : ℕ → FlushAllocs := fun _ => ⟨true, true⟩

/-- What the local variable `buffered` points to. -/
inductive Buffered where
  | null
  | live (block : List UInt8)
  | freed

/-- The packet built around the data of one buffer: `kmalloc(ntohs(iph.tot_len))`, then the
header and the data copied into it. -/
def buildPacket (proto : ℕ) (sourceIp daddr : UInt32) (buffered : List UInt8) :
    Except Fault (List UInt8) := do
  let totLen := sizeofIphdr + buffered.length
  let packet := List.replicate (totLen % 65536) 0
  let packet ← store packet 0 (aggregateHeader proto totLen sourceIp daddr)
  store packet sizeofIphdr buffered

/-- The loop of `build_and_send_packets` from the `i`-th buffer on. -/
def buildAndSendFrom (proto : ℕ) (sourceIp : UInt32) (allocs : ℕ → FlushAllocs) :
    ℕ → Buffered → List (Option AggregateBuffer) →
      Except Fault (List (List UInt8) × List (Option AggregateBuffer))
  | _, _, [] => .ok ([], [])
  | _, _, none :: _ => .error .null
  | i, buffered, some b :: bs =>
    let moved := b.mvData (allocs i).mv
    match moved.1.elim buffered .live with
    | .null => do
      let (sent, bs) ← buildAndSendFrom proto sourceIp allocs (i + 1) .null bs
      .ok (sent, some moved.2 :: bs)
    | .live block =>
      if (allocs i).packet then do
        let packet ← buildPacket proto sourceIp b.ip block
        let (sent, bs) ← buildAndSendFrom proto sourceIp allocs (i + 1) .null bs
        .ok (packet :: sent, some moved.2 :: bs)
      else do
        -- `continue` without resetting the pointer
        let (sent, bs) ← buildAndSendFrom proto sourceIp allocs (i + 1) .freed bs
        .ok (sent, some moved.2 :: bs)
    -- with or without a packet to send, the block is freed again
    | .freed => .error .doubleFree

/-- `build_and_send_packets`. -/
def buildAndSendPackets (proto : ℕ) (sourceIp : UInt32) (allocs : ℕ → FlushAllocs)
    (buffs : List (Option AggregateBuffer)) :
    Except Fault (List (List UInt8) × List (Option AggregateBuffer)) :=
  buildAndSendFrom proto sourceIp allocs 0 .null buffs

/-! ### A pass without allocation failures -/

/-- The packet is built if and only if its length fits the 16 bits of the header field. -/
theorem safe_buildPacket_iff (proto : ℕ) (sourceIp daddr : UInt32) (d : List UInt8) :
    Safe (buildPacket proto sourceIp daddr d) ↔ sizeofIphdr + d.length < 65536 := by
  constructor
  · intro h
    simp only [buildPacket, safe_store_bind, List.length_replicate] at h
    obtain ⟨h₁, packet, h₂⟩ := h
    rw [length_aggregateHeader] at h₁
    by_contra hge
    rw [store, if_neg] at h₂
    · cases h₂
    · rw [length_patch (by rw [length_aggregateHeader, List.length_replicate]; omega),
        List.length_replicate]
      have := Nat.mod_lt (sizeofIphdr + d.length) (by decide : 0 < 65536)
      omega
  · intro h
    refine safe_store_bind.mpr ⟨?_, _, store_eq ?_⟩
    · rw [length_aggregateHeader, List.length_replicate, Nat.mod_eq_of_lt h]
      omega
    · rw [length_patch (by rw [length_aggregateHeader, List.length_replicate,
        Nat.mod_eq_of_lt h]; omega), List.length_replicate, Nat.mod_eq_of_lt h]

theorem buildPacket_eq (proto : ℕ) (sourceIp daddr : UInt32) {d : List UInt8}
    (h : sizeofIphdr + d.length < 65536) :
    buildPacket proto sourceIp daddr d =
      .ok (aggregateHeader proto (sizeofIphdr + d.length) sourceIp daddr ++ d) := by
  obtain ⟨header, hheader⟩ : ∃ header,
      header = aggregateHeader proto (sizeofIphdr + d.length) sourceIp daddr := ⟨_, rfl⟩
  have hlen : sizeofIphdr = header.length := by rw [hheader, length_aggregateHeader]
  rw [buildPacket, Nat.mod_eq_of_lt h, ← hheader, hlen, store_fresh_left, ok_bind,
    store_fresh_right]

/-- The packet a buffer's data leaves in. -/
def flushed (proto : ℕ) (sourceIp : UInt32) (b : AggregateBuffer) : Option (List UInt8) :=
  if b.data = [] then none
  else some (aggregateHeader proto (sizeofIphdr + b.data.length) sourceIp b.ip ++ b.data)

private theorem AggregateBuffer.resetBuffer_of_data_eq_nil {b : AggregateBuffer} (h : b.data = []) :
    b.resetBuffer = b := by
  have hlen := congrArg List.length h
  have hle := b.head_le
  rw [length_data, List.length_nil, bufferDataLen] at hlen
  have hhead : b.mem.length = b.head := by omega
  cases b
  simp only [resetBuffer, AggregateBuffer.mk.injEq, true_and]
  exact hhead

/-- **A pass empties every buffer** and sends the data of each non-empty one. -/
theorem buildAndSendFrom_ok (proto : ℕ) (sourceIp : UInt32) (i : ℕ) (bs : List AggregateBuffer)
    (h : ∀ b ∈ bs, sizeofIphdr + b.data.length < 65536) :
    buildAndSendFrom proto sourceIp FlushAllocs.ok i .null (bs.map some) =
      .ok (bs.filterMap (flushed proto sourceIp), bs.map fun b => some b.resetBuffer) := by
  induction bs generalizing i with
  | nil => rfl
  | cons b bs ih =>
    have hrest := ih (i + 1) fun b' hb' => h b' (List.mem_cons_of_mem _ hb')
    have hb := h b List.mem_cons_self
    have hself : b.Holds b.ip b.bufferLen b.data := ⟨rfl, rfl, rfl⟩
    rw [List.map_cons, buildAndSendFrom, List.filterMap_cons]
    by_cases hd : b.data = []
    · rw [hd] at hself
      simp only [hself.mvData_nil, Option.elim_none]
      rw [hrest, ok_bind, flushed, if_pos hd, List.map_cons,
        AggregateBuffer.resetBuffer_of_data_eq_nil hd]
    · simp only [show (FlushAllocs.ok i).mv = true from rfl,
        show (FlushAllocs.ok i).packet = true from rfl, hself.mvData hd, Option.elim_some, if_true]
      rw [buildPacket_eq _ _ _ hb, ok_bind, hrest, ok_bind, flushed, if_neg hd, List.map_cons]

end MiaVita
