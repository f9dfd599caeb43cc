import MiaVita.FredFramework.Consuela

/-!
# The flush thread without memory (`aggregation/consuela.c`, `mv_data` of `byte_buffer.c`)

For each buffer with data a pass asks for memory twice: `mv_data` for a copy of the data, and
`build_and_send_packets` for the packet around it. `flushPass` says what a pass is for, whatever the
outcomes are: a buffer whose two requests succeed is sent and emptied, and any other one stays as it
is.

`mv_data` empties the buffer before the packet is asked for. If there is no memory for the packet,
the copy is freed and the data are gone; the pointer to the copy stays as it was, and is freed again
at the next buffer that nothing is taken out of. `flushesRight_iff` says which outcomes are
harmless.
-/

namespace MiaVita

open Bytes Memory Fallible

section Pass

variable (proto : ℕ) (sourceIp : UInt32) (allocs : ℕ → FlushAllocs)

/-- The packet around the data of a buffer. -/
def packetOf (b : AggregateBuffer) : List UInt8 :=
  aggregateHeader proto (sizeofIphdr + b.data.length) sourceIp b.ip ++ b.data

/-- What a pass is for, from the `i`-th buffer on: the packets, and the buffers afterwards. -/
def flushPass : ℕ → List AggregateBuffer → List (List UInt8) × List AggregateBuffer
  | _, [] => ([], [])
  | i, b :: bs =>
    let rest := flushPass (i + 1) bs
    if b.data ≠ [] ∧ (allocs i).mv ∧ (allocs i).packet then
      (packetOf proto sourceIp b :: rest.1, b.resetBuffer :: rest.2)
    else (rest.1, b :: rest.2)

/-- The pass from the `i`-th buffer on does what it is for. -/
def FlushesRightFrom (i : ℕ) (bs : List AggregateBuffer) : Prop :=
  buildAndSendFrom proto sourceIp allocs i .null (bs.map some) =
    .ok ((flushPass proto sourceIp allocs i bs).1,
      (flushPass proto sourceIp allocs i bs).2.map some)

/-- A pass of the flush thread does what it is for. -/
def FlushesRight (bs : List AggregateBuffer) : Prop :=
  buildAndSendPackets proto sourceIp allocs (bs.map some) =
    .ok ((flushPass proto sourceIp allocs 0 bs).1,
      (flushPass proto sourceIp allocs 0 bs).2.map some)

end Pass

variable {proto : ℕ} {sourceIp : UInt32} {allocs : ℕ → FlushAllocs} {i : ℕ} {b : AggregateBuffer}
  {bs : List AggregateBuffer}

/-- Both parts of a result of a pass. -/
private theorem ok_pair_inj {α β : Type} {x x' : α} {y y' : β} {e : Type} :
    (.ok (x, y) : Except e (α × β)) = .ok (x', y') ↔ x = x' ∧ y = y' := by
  rw [Except.ok.injEq, Prod.mk.injEq]

/-- A buffer that nothing is taken out of is passed over. -/
private theorem flushesRightFrom_kept (h : ¬ (b.data ≠ [] ∧ (allocs i).mv)) :
    FlushesRightFrom proto sourceIp allocs i (b :: bs) ↔
      FlushesRightFrom proto sourceIp allocs (i + 1) bs := by
  rw [FlushesRightFrom, List.map_cons, buildAndSendFrom, flushPass,
    if_neg fun h' => h ⟨h'.1, h'.2.1⟩, b.mvData_eq, if_neg h]
  dsimp only [Option.elim_none]
  rw [FlushesRightFrom]
  cases buildAndSendFrom proto sourceIp allocs (i + 1) .null (bs.map some) with
  | error e => exact iff_of_false (by rintro ⟨⟩) (by rintro ⟨⟩)
  | ok x =>
    obtain ⟨sent, bs'⟩ := x
    rw [ok_bind, ok_pair_inj, ok_pair_inj, List.map_cons, List.cons.injEq, and_iff_right rfl]

/-- A buffer whose packet cannot be allocated loses its data. -/
private theorem not_flushesRightFrom_lost (hdata : b.data ≠ []) (hmv : (allocs i).mv)
    (hpacket : ¬ (allocs i).packet) : ¬ FlushesRightFrom proto sourceIp allocs i (b :: bs) := by
  rw [FlushesRightFrom, List.map_cons, buildAndSendFrom, flushPass,
    if_neg fun h => hpacket h.2.2, b.mvData_eq, if_pos ⟨hdata, hmv⟩]
  dsimp only [Option.elim_some]
  rw [if_neg hpacket]
  intro h
  obtain ⟨x, -, h⟩ := bind_eq_ok.mp h
  rw [ok_pair_inj, List.map_cons, List.cons.injEq, Option.some.injEq] at h
  rw [← h.2.1, b.data_resetBuffer] at hdata
  exact hdata rfl

/-- A buffer whose packet is allocated is sent, if the length has room in its header field. -/
private theorem flushesRightFrom_sent (hdata : b.data ≠ []) (hmv : (allocs i).mv)
    (hpacket : (allocs i).packet) :
    FlushesRightFrom proto sourceIp allocs i (b :: bs) ↔
      sizeofIphdr + b.data.length < 65536 ∧
        FlushesRightFrom proto sourceIp allocs (i + 1) bs := by
  rw [FlushesRightFrom, List.map_cons, buildAndSendFrom, flushPass,
    if_pos ⟨hdata, hmv, hpacket⟩, b.mvData_eq, if_pos ⟨hdata, hmv⟩]
  dsimp only [Option.elim_some]
  rw [if_pos hpacket]
  by_cases hlen : sizeofIphdr + b.data.length < 65536
  · rw [buildPacket_eq proto sourceIp b.ip hlen, ok_bind, and_iff_right hlen,
      FlushesRightFrom]
    cases buildAndSendFrom proto sourceIp allocs (i + 1) .null (bs.map some) with
    | error e => exact iff_of_false (by rintro ⟨⟩) (by rintro ⟨⟩)
    | ok x =>
      obtain ⟨sent, bs'⟩ := x
      rw [ok_bind, ok_pair_inj, ok_pair_inj, List.map_cons, List.cons.injEq,
        List.cons.injEq, and_iff_right rfl, packetOf, and_iff_right rfl]
  · refine iff_of_false (fun h => ?_) fun h => hlen h.1
    obtain ⟨packet, hbuild, -⟩ := bind_eq_ok.mp h
    exact hlen ((safe_buildPacket_iff proto sourceIp b.ip b.data).mp ⟨packet, hbuild⟩)

/-- **The rest of a pass** does what it is for exactly if every copy gets its packet, and every
packet its length. -/
theorem flushesRightFrom_iff (bs : List AggregateBuffer) (i : ℕ) :
    FlushesRightFrom proto sourceIp allocs i bs ↔
      ∀ k b, bs[k]? = some b → b.data ≠ [] → (allocs (i + k)).mv →
        (allocs (i + k)).packet ∧ sizeofIphdr + b.data.length < 65536 := by
  induction bs generalizing i with
  | nil => exact iff_of_true rfl fun k b h => by simp at h
  | cons b bs ih =>
    -- the condition on the first buffer, and the one on the rest
    have hsplit : (∀ k b', (b :: bs)[k]? = some b' → b'.data ≠ [] → (allocs (i + k)).mv →
          (allocs (i + k)).packet ∧ sizeofIphdr + b'.data.length < 65536) ↔
        (b.data ≠ [] → (allocs i).mv →
          (allocs i).packet ∧ sizeofIphdr + b.data.length < 65536) ∧
        FlushesRightFrom proto sourceIp allocs (i + 1) bs := by
      rw [ih (i + 1)]
      constructor
      · intro h
        refine ⟨h 0 b rfl, fun k b' hb' => ?_⟩
        rw [Nat.add_right_comm]
        exact h (k + 1) b' hb'
      · rintro ⟨hfirst, hrest⟩ (_ | k) b' hb'
        · cases hb'
          exact hfirst
        · have hk := hrest k b' hb'
          rwa [Nat.add_right_comm] at hk
    rw [hsplit]
    -- data that were taken out are sent or lost, others stay where they are
    by_cases hmoved : b.data ≠ [] ∧ (allocs i).mv
    · by_cases hpacket : (allocs i).packet
      · rw [flushesRightFrom_sent hmoved.1 hmoved.2 hpacket]
        refine and_congr_left fun _ => ⟨fun hlen _ _ => ⟨hpacket, hlen⟩, fun h => ?_⟩
        exact (h hmoved.1 hmoved.2).2
      · refine iff_of_false (not_flushesRightFrom_lost hmoved.1 hmoved.2 hpacket) fun h => ?_
        exact hpacket (h.1 hmoved.1 hmoved.2).1
    · rw [flushesRightFrom_kept hmoved]
      exact (and_iff_right fun hdata hmv => absurd ⟨hdata, hmv⟩ hmoved).symm

/-- **A pass does what it is for** exactly if there is memory for the packet of every buffer whose
data were taken out, and the packet is not too long. -/
theorem flushesRight_iff (proto : ℕ) (sourceIp : UInt32) (allocs : ℕ → FlushAllocs)
    (bs : List AggregateBuffer) :
    FlushesRight proto sourceIp allocs bs ↔
      ∀ k b, bs[k]? = some b → b.data ≠ [] → (allocs k).mv →
        (allocs k).packet ∧ sizeofIphdr + b.data.length < 65536 := by
  have h : FlushesRightFrom proto sourceIp allocs 0 bs ↔ _ := flushesRightFrom_iff bs 0
  simp only [Nat.zero_add] at h
  exact h

/-- A buffer of two bytes with some data in it. -/
def smallBuffer (data : List UInt8) : AggregateBuffer where
  ip := 1
  mem := List.replicate (2 - data.length) 0 ++ data
  head := 2 - data.length
  head_le := by rw [List.length_append, List.length_replicate]; exact Nat.le_add_right _ _

/-- **No memory for the first packet**: the data are lost, and if the next buffer is empty, the copy
is freed twice. -/
theorem flush_without_memory :
    buildAndSendPackets 143 7 (fun _ => ⟨true, false⟩)
        [some (smallBuffer [5]), some (smallBuffer [])] = .error .doubleFree ∧
    (∃ b, buildAndSendPackets 143 7 (fun _ => ⟨true, false⟩) [some (smallBuffer [5])] =
      .ok ([], [some b]) ∧ b.data = []) ∧
    ¬ FlushesRight 143 7 (fun _ => ⟨true, false⟩) [smallBuffer [5], smallBuffer []] := by
  have hfree : buildAndSendPackets 143 7 (fun _ => ⟨true, false⟩)
      [some (smallBuffer [5]), some (smallBuffer [])] = .error .doubleFree := rfl
  refine ⟨hfree, ⟨_, rfl, rfl⟩, fun h => ?_⟩
  cases hfree.symm.trans h

end MiaVita
