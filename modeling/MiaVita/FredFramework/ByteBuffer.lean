import MiaVita.Lib.Memory

/-!
# The aggregation buffer (`aggregation/byte_buffer.c`)

```
|------------------------------------|
|                  |  2      |   1   |
|------------------------------------|
^-start            ^-head            ^-end
```

The buffer fills from its end towards its start: `head` is the address of the newest byte and
everything from it to `end` is buffered. Addresses are offsets from `start`, so that `end` is the
length of the memory. Each operation runs under the buffer's lock and is one step here.

The abstract view of a buffer is its `data`: `pushBytes` prepends to it, `resetBuffer` and
`mvData` empty it, and a write behind `head` goes to the corresponding place of it.
-/

namespace MiaVita

open Bytes Memory

/-- `aggregate_buffer`. -/
structure AggregateBuffer where
  ip : UInt32
  /-- The bytes from `start` to `end`. -/
  mem : List UInt8
  head : ℕ
  head_le : head ≤ mem.length

/-- `create_aggregate_buffer`, given whether its two allocations succeed. -/
def createAggregateBuffer (len : ℕ) (ip : UInt32) (allocated : Bool) : Option AggregateBuffer :=
  if allocated then
    some { ip, mem := List.replicate len 0, head := len, head_le := by simp }
  else none

namespace AggregateBuffer

/-- `buffer_len`. -/
def bufferLen (b : AggregateBuffer) : ℕ := b.mem.length

/-- `buffer_data_len`. -/
def bufferDataLen (b : AggregateBuffer) : ℕ := b.mem.length - b.head

/-- `peek_packet`: the address of the newest packet, if there is one. -/
def peekPacket (b : AggregateBuffer) : Option ℕ :=
  if b.bufferDataLen = 0 then none else some b.head

/-- `push_bytes`; `none` is `-ENOMEM`. -/
def pushBytes (b : AggregateBuffer) (bytes : List UInt8) : Option AggregateBuffer :=
  if h : b.bufferDataLen + bytes.length ≤ b.bufferLen then
    some
      { b with
        mem := patch b.mem (b.head - bytes.length) bytes
        head := b.head - bytes.length
        head_le := by
          have := b.head_le
          simp only [bufferDataLen, bufferLen] at h
          rw [length_patch (by omega)]
          omega }
  else none

/-- `reset_buffer`. -/
def resetBuffer (b : AggregateBuffer) : AggregateBuffer :=
  { b with head := b.mem.length, head_le := le_rfl }

/-- The buffered bytes. -/
def data (b : AggregateBuffer) : List UInt8 := b.mem.drop b.head

/-- `mv_data`, given whether its allocation succeeds: the block handed to the caller, if any, and
the buffer afterwards. The length returned is that of the block, or `0`. -/
def mvData (b : AggregateBuffer) (allocated : Bool) : Option (List UInt8) × AggregateBuffer :=
  if 0 < b.bufferDataLen then
    if allocated then (some b.data, b.resetBuffer) else (none, b)
  else (none, b)

/-- A write through a pointer into the buffer. -/
def storeAt (b : AggregateBuffer) (i : ℕ) (xs : List UInt8) : Except Fault AggregateBuffer :=
  if h : i + xs.length ≤ b.mem.length then
    .ok { b with mem := patch b.mem i xs, head_le := by rw [length_patch h]; exact b.head_le }
  else .error (.write i xs.length)

/-! ### The buffered data under the operations -/

variable {b : AggregateBuffer}

@[simp] theorem length_data (b : AggregateBuffer) : b.data.length = b.bufferDataLen :=
  List.length_drop

theorem bufferDataLen_le (b : AggregateBuffer) : b.bufferDataLen ≤ b.bufferLen :=
  Nat.sub_le _ _

/-- The memory is what lies below `head`, then the data. -/
private theorem mem_eq (b : AggregateBuffer) : b.mem = b.mem.take b.head ++ (b.data ++ []) := by
  rw [List.append_nil, data, List.take_append_drop]

private theorem length_take_head (b : AggregateBuffer) : (b.mem.take b.head).length = b.head := by
  rw [List.length_take]
  exact Nat.min_eq_left b.head_le

private theorem peekPacket_eq_none (h : b.data = []) : b.peekPacket = none := by
  rw [peekPacket, ← length_data, h]
  rfl

private theorem peekPacket_eq_some (h : b.data ≠ []) : b.peekPacket = some b.head := by
  rw [peekPacket, if_neg]
  rw [← length_data]
  exact fun h' => h (List.length_eq_zero_iff.mp h')

/-- A read behind `head` is a read of the data. -/
theorem load_head {α : Type} {decode : List UInt8 → α} {i n : ℕ}
    (h : i + n ≤ b.data.length) :
    load decode b.mem (b.head + i) n = .ok (decode (slice b.data i n)) := by
  have hmid : load decode (b.mem.take b.head ++ (b.data ++ [])) ((b.mem.take b.head).length + i) n =
      .ok (decode (slice b.data i n)) := load_mid h
  rwa [← mem_eq, length_take_head] at hmid

@[simp] theorem data_resetBuffer (b : AggregateBuffer) : b.resetBuffer.data = [] :=
  List.drop_length

end AggregateBuffer

theorem AggregateBuffer.mvData_eq (b : AggregateBuffer) (allocated : Bool) :
    b.mvData allocated =
      if b.data ≠ [] ∧ allocated then (some b.data, b.resetBuffer) else (none, b) := by
  have hlen : 0 < b.bufferDataLen ↔ b.data ≠ [] := by
    rw [← b.length_data, List.length_pos_iff]
  rw [mvData]
  by_cases hdata : b.data ≠ []
  · rw [if_pos (hlen.mpr hdata)]
    simp only [hdata, not_false_eq_true, ne_eq, true_and]
  · rw [if_neg fun h => hdata (hlen.mp h), if_neg fun h => hdata h.1]

/-- `mv_data` changes nothing, or takes everything out. -/
theorem AggregateBuffer.mvData_cases (b : AggregateBuffer) (allocated : Bool) :
    b.mvData allocated = (none, b) ∨
      allocated = true ∧ b.data ≠ [] ∧ b.mvData allocated = (some b.data, b.resetBuffer) := by
  rw [mvData_eq]
  split_ifs with h
  · exact .inr ⟨h.2, h.1, rfl⟩
  · exact .inl rfl

/-- What the rest of the module sees of a buffer: its destination, its size and its data. -/
structure AggregateBuffer.Holds (b : AggregateBuffer) (ip : UInt32) (size : ℕ)
    (d : List UInt8) : Prop where
  ip_eq : b.ip = ip
  len_eq : b.bufferLen = size
  data_eq : b.data = d

namespace AggregateBuffer

variable {b : AggregateBuffer} {ip : UInt32} {size : ℕ} {d : List UInt8}

theorem Holds.dataLen_eq (h : b.Holds ip size d) : b.bufferDataLen = d.length := by
  rw [← length_data, h.data_eq]

theorem holds_create (len : ℕ) (ip : UInt32) :
    ∃ b, createAggregateBuffer len ip true = some b ∧ b.Holds ip len [] := by
  refine ⟨_, rfl, rfl, List.length_replicate, ?_⟩
  exact List.drop_of_length_le (by simp)

theorem Holds.reset (h : b.Holds ip size d) : b.resetBuffer.Holds ip size [] :=
  ⟨h.ip_eq, h.len_eq, data_resetBuffer b⟩

/-- Bytes that fit go in front of the data. -/
theorem Holds.pushBytes (h : b.Holds ip size d) (xs : List UInt8)
    (hfit : d.length + xs.length ≤ size) :
    ∃ b', b.pushBytes xs = some b' ∧ b'.Holds ip size (xs ++ d) := by
  have hle := b.head_le
  have hlen : b.bufferDataLen + xs.length ≤ b.bufferLen := by
    rw [h.dataLen_eq, h.len_eq]
    exact hfit
  have hin : b.head - xs.length + xs.length ≤ b.mem.length := by
    simp only [bufferDataLen, bufferLen] at hlen
    omega
  refine ⟨_, dif_pos hlen, h.ip_eq, ?_, ?_⟩
  · change (patch b.mem (b.head - xs.length) xs).length = size
    rw [length_patch hin]
    exact h.len_eq
  · change (patch b.mem (b.head - xs.length) xs).drop (b.head - xs.length) = xs ++ d
    have htop : b.head - xs.length + xs.length = b.head := by
      simp only [bufferDataLen, bufferLen] at hlen
      omega
    rw [drop_patch_of_le le_rfl (by omega), Nat.sub_self, patch, List.take_zero,
      List.nil_append, Nat.zero_add, List.drop_drop, htop, ← h.data_eq]
    rfl

theorem Holds.mvData_nil (h : b.Holds ip size []) (allocated : Bool) :
    b.mvData allocated = (none, b) := by
  rw [mvData, if_neg]
  rw [h.dataLen_eq]
  exact Nat.lt_irrefl 0

theorem Holds.mvData (h : b.Holds ip size d) (hd : d ≠ []) :
    b.mvData true = (some d, b.resetBuffer) := by
  rw [AggregateBuffer.mvData, if_pos, if_pos rfl, h.data_eq]
  rw [h.dataLen_eq]
  exact List.length_pos_iff.mpr hd

theorem Holds.peekPacket_nil (h : b.Holds ip size []) : b.peekPacket = none :=
  peekPacket_eq_none h.data_eq

theorem Holds.peekPacket (h : b.Holds ip size d) (hd : d ≠ []) : b.peekPacket = some b.head :=
  peekPacket_eq_some (by rw [h.data_eq]; exact hd)

theorem Holds.load_head (h : b.Holds ip size d) {α : Type} {decode : List UInt8 → α} {i n : ℕ}
    (hin : i + n ≤ d.length) : load decode b.mem (b.head + i) n = .ok (decode (slice d i n)) := by
  rw [AggregateBuffer.load_head (by rw [h.data_eq]; exact hin), h.data_eq]

/-- A write behind `head` goes to the data. -/
theorem Holds.storeAt (h : b.Holds ip size d) (i : ℕ) (xs : List UInt8)
    (hin : i + xs.length ≤ d.length) :
    ∃ b', b.storeAt (b.head + i) xs = .ok b' ∧ b'.Holds ip size (patch d i xs) := by
  have hle := b.head_le
  have hlen := h.dataLen_eq
  have hmem : b.head + i + xs.length ≤ b.mem.length := by
    simp only [bufferDataLen] at hlen
    omega
  refine ⟨_, dif_pos hmem, h.ip_eq, ?_, ?_⟩
  · change (patch b.mem (b.head + i) xs).length = size
    rw [length_patch hmem]
    exact h.len_eq
  · change (patch b.mem (b.head + i) xs).drop b.head = patch d i xs
    rw [drop_patch_of_le (Nat.le_add_right _ _) (by omega), Nat.add_sub_cancel_left,
      ← h.data_eq]
    rfl

/-- A write into an empty buffer leaves it empty. -/
theorem Holds.storeAt_nil (h : b.Holds ip size []) {i : ℕ} {xs : List UInt8}
    (hin : i + xs.length ≤ b.mem.length) :
    ∃ b', b.storeAt i xs = .ok b' ∧ b'.Holds ip size [] := by
  refine ⟨_, dif_pos hin, h.ip_eq, ?_, ?_⟩
  · change (patch b.mem i xs).length = size
    rw [length_patch hin]
    exact h.len_eq
  · have hempty : b.mem.length ≤ b.head := Nat.sub_eq_zero_iff_le.mp h.dataLen_eq
    exact List.drop_of_length_le (by rw [length_patch hin]; exact hempty)

end AggregateBuffer

end MiaVita
