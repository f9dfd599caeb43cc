import MiaVita.Lib.Run
import MiaVita.Rt2501.SyncProto

/-!
# The failures and retries that the driver reports (`rt2501`, `sync_proto.c`)

The driver counts the failures and the retries of its transmissions. `synch_out_data_packet` keeps
the values of the last packet and stores in each packet what has come since, in 8 bits, so that a
receiver can add up the fields and follow the counters modulo 256.

The difference is taken the wrong way around: `last_fails - FailedCount`. Nothing is lost by the
truncation or by the fields that are not written, and the differences telescope
(`negated_reportStep`), but to the negated counter. `counts_iff` is what follows for a receiver
that adds them up.
-/

namespace MiaVita.Rt2501

open Bytes Memory Fallible

/-! ### Packets that go out -/

/-- A packet that a filter takes, at the moment it goes out: the driver with its counters, and a
buffer in which the two fields are `0`. -/
structure Outgoing (filters : List Filter) where
  pad : Adapter
  now : UInt64
  kmalloc : Bool
  tx : TxHeader
  packet : UdpIp
  adhoc : pad.adhocOn
  taken : Taken filters packet.bytes
  room : 4 * ihlOf packet.bytes + 30 ≤ packet.bytes.length
  len_le : 4 * ihlOf packet.bytes + udpLenAt packet.bytes (4 * ihlOf packet.bytes) ≤
    packet.bytes.length
  fails_eq : slice packet.bytes (4 * ihlOf packet.bytes + 28) 1 = [0]
  retries_eq : slice packet.bytes (4 * ihlOf packet.bytes + 29) 1 = [0]

variable {filters : List Filter}

namespace Outgoing

/-- The transfer buffer. -/
def buffer (o : Outgoing filters) : List UInt8 := o.tx.bytes ++ o.packet.bytes

/-- The datagram in the transfer buffer. -/
def udph (o : Outgoing filters) : ℕ := 56 + 4 * ihlOf o.packet.bytes

/-- `synch_out_data_packet` on the packet. -/
def send (o : Outgoing filters) (st : Statics) : Except Fault (List UInt8 × Statics) :=
  synchOutDataPacket filters o.pad o.now o.kmalloc st o.buffer

end Outgoing

/-- The static variables, and the sums of the fields of the packets sent so far. -/
structure Ledger where
  statics : Statics
  fails : ℕ
  retries : ℕ
  deriving DecidableEq

/-- The driver has just been loaded. -/
def initLedger : Ledger := ⟨⟨0, 0⟩, 0, 0⟩

/-- A packet goes out and its fields are added up. -/
def reportStep (l : Ledger) (o : Outgoing filters) : Except Fault Ledger := do
  let (m, st) ← o.send l.statics
  let fails ← load leVal m (o.udph + 28) 1
  let retries ← load leVal m (o.udph + 29) 1
  return ⟨st, l.fails + fails, l.retries + retries⟩

/-! ### The fields of one packet -/

/-- A field that was `0` ends up with the difference, whether or not it is written. -/
private theorem slice_storeChange {m m' : List UInt8} {i : ℕ} {last count : UInt32}
    (hzero : slice m i 1 = [0]) (h : storeChange m i last count = .ok m') :
    slice m' i 1 = [(last - count).toUInt8] := by
  rw [storeChange] at h
  split_ifs at h with hne
  · exact (store_spec h).2.1
  · -- a counter that has not changed is not stored, and the difference is the `0` that is there
    cases h
    rw [hzero, not_not.mp hne, UInt32.sub_self]
    rfl

/-- The difference in 8 bits leads from the new count to the last one. -/
private theorem toNat_toUInt8_sub (last count : UInt32) :
    ((last - count).toUInt8.toNat + count.toNat) % 256 = last.toNat % 256 := by
  have hlast := last.toNat_lt
  have hcount := count.toNat_lt
  rw [UInt32.toNat_toUInt8, UInt32.toNat_sub]
  omega

/-- The fields of one packet hold the differences, and the counters are kept. -/
private theorem stampOut_counts {pad : Adapter} {now : UInt64} {kmalloc : Bool} {st st' : Statics}
    {m m' : List UInt8} {iph udph : ℕ} (hiph : iph ≤ udph)
    (hfails : slice m (udph + 28) 1 = [0]) (hretries : slice m (udph + 29) 1 = [0])
    (h : stampOut pad now kmalloc st m iph udph = .ok (m', st')) :
    slice m' (udph + 28) 1 = [(st.lastFails - pad.failedCount).toUInt8] ∧
      slice m' (udph + 29) 1 = [(st.lastRetries - pad.retryCount).toUInt8] ∧
      st' = ⟨pad.failedCount, pad.retryCount⟩ := by
  obtain ⟨m₁, m₂, m₃, hframe₁, -, -, hm₂, hm₃, hcheck, rfl⟩ := stampOut_steps hiph h
  have hframe₂ := frame_storeChange hm₂
  have hframe₃ := frame_storeChange hm₃
  have hframe₄ := frame_checkUdp hcheck
  have hfails₁ : slice m₁ (udph + 28) 1 = [0] := by
    rw [hframe₁.slice_eq fun k h₁ h₂ => by omega, hfails]
  have hretries₂ : slice m₂ (udph + 29) 1 = [0] := by
    rw [hframe₂.slice_eq fun k h₁ h₂ => by omega, hframe₁.slice_eq fun k h₁ h₂ => by omega,
      hretries]
  -- each field keeps what was stored: the checksum stands in front of both
  refine ⟨?_, ?_, rfl⟩
  · rw [hframe₄.slice_eq fun k h₁ h₂ => by omega, hframe₃.slice_eq fun k h₁ h₂ => by omega]
    exact slice_storeChange hfails₁ hm₂
  · rw [hframe₄.slice_eq fun k h₁ h₂ => by omega]
    exact slice_storeChange hretries₂ hm₃

namespace Outgoing

/-- **One packet**: it is sent, its fields hold the differences, and the counters are kept. -/
theorem send_spec (o : Outgoing filters) (st : Statics) :
    ∃ m', o.send st = .ok (m', ⟨o.pad.failedCount, o.pad.retryCount⟩) ∧
      load leVal m' (o.udph + 28) 1 = .ok (st.lastFails - o.pad.failedCount).toUInt8.toNat ∧
      load leVal m' (o.udph + 29) 1 = .ok (st.lastRetries - o.pad.retryCount).toUInt8.toNat := by
  have hihl := o.packet.ihl_ge
  have hroom := o.room
  have hle := o.len_le
  have hudpLen := o.tx.udpLenAt_append o.packet.bytes (4 * ihlOf o.packet.bytes)
  have hlength := o.tx.length_append o.packet.bytes
  have hfails₀ := (o.tx.slice_append o.packet.bytes _ _).trans o.fails_eq
  have hretries₀ := (o.tx.slice_append o.packet.bytes _ _).trans o.retries_eq
  rw [← Nat.add_assoc] at hfails₀ hretries₀
  rw [send, buffer, udph,
    synchOutDataPacket_of_taken filters o.now o.kmalloc o.adhoc st o.tx o.taken]
  obtain ⟨⟨m', st'⟩, hm'⟩ : Safe (stampOut o.pad o.now o.kmalloc st
      (o.tx.bytes ++ o.packet.bytes) 56 (56 + 4 * ihlOf o.packet.bytes)) :=
    safe_stampOut (by omega) (by omega) (by omega) o.pad o.now o.kmalloc st
  obtain ⟨hfails, hretries, rfl⟩ := stampOut_counts (by omega) hfails₀ hretries₀ hm'
  have hlength' := (stampOut_spec (by omega) hm').frame.length_eq
  refine ⟨m', hm', ?_, ?_⟩
  · rw [load_eq (by omega), hfails]
    rfl
  · rw [load_eq (by omega), hretries]
    rfl

end Outgoing

/-! ### All packets -/

/-- The sums are the negated counters. -/
structure Ledger.Negated (l : Ledger) : Prop where
  fails : (l.fails + l.statics.lastFails.toNat) % 256 = 0
  retries : (l.retries + l.statics.lastRetries.toNat) % 256 = 0

private theorem reportStep_eq (l : Ledger) (o : Outgoing filters) :
    reportStep l o = .ok ⟨⟨o.pad.failedCount, o.pad.retryCount⟩,
      l.fails + (l.statics.lastFails - o.pad.failedCount).toUInt8.toNat,
      l.retries + (l.statics.lastRetries - o.pad.retryCount).toUInt8.toNat⟩ := by
  obtain ⟨m', hsend, hfails, hretries⟩ := o.send_spec l.statics
  rw [reportStep, hsend, ok_bind]
  dsimp only
  rw [hfails, ok_bind, hretries, ok_bind]
  rfl

/-- **The differences telescope**, to the negated counters. -/
theorem negated_reportStep {l : Ledger} (hl : l.Negated) (o : Outgoing filters) :
    ∃ l', reportStep l o = .ok l' ∧ l'.Negated ∧
      l'.statics = ⟨o.pad.failedCount, o.pad.retryCount⟩ := by
  refine ⟨_, reportStep_eq l o, ⟨?_, ?_⟩, rfl⟩
  · have hfails := hl.fails
    have hdiff := toNat_toUInt8_sub l.statics.lastFails o.pad.failedCount
    dsimp only
    omega
  · have hretries := hl.retries
    have hdiff := toNat_toUInt8_sub l.statics.lastRetries o.pad.retryCount
    dsimp only
    omega

private theorem execM_reportStep (os : List (Outgoing filters)) :
    ∃ l, Run.execM reportStep initLedger os = .ok l ∧ l.Negated := by
  refine Run.alwaysM (fun l o hl => ?_) ⟨rfl, rfl⟩ os
  obtain ⟨l', hl', hneg, -⟩ := negated_reportStep hl o
  exact ⟨l', hl', hneg⟩

/-- **What the fields add up to**, for packets of any number and counters that evolve in any way:
the sum over all packets is the counter at the last one, modulo 256, if and only if the counter is a
multiple of 128. -/
theorem counts_iff (os : List (Outgoing filters)) (o : Outgoing filters) :
    ∃ l, Run.execM reportStep initLedger (os ++ [o]) = .ok l ∧
      (l.fails % 256 = o.pad.failedCount.toNat % 256 ↔ o.pad.failedCount.toNat % 128 = 0) ∧
      (l.retries % 256 = o.pad.retryCount.toNat % 256 ↔ o.pad.retryCount.toNat % 128 = 0) := by
  obtain ⟨l₁, hrun, hl₁⟩ := execM_reportStep os
  obtain ⟨l, hl, ⟨hfails, hretries⟩, hstatics⟩ := negated_reportStep hl₁ o
  rw [hstatics] at hfails hretries
  refine ⟨l, Run.execM_append_ok hrun (Run.execM_cons_ok.mpr ⟨l, hl, rfl⟩), ?_, ?_⟩
  · dsimp only at hfails
    omega
  · dsimp only at hretries
    omega

/-- A datagram from 10.0.0.1 to port 5000 of 10.0.0.2 goes out when the driver has counted some
failures and no retries. -/
def plainOutgoing (failedCount : UInt32) : Outgoing [⟨0, 0, 0, 0⟩] where
  pad := { plainAdapter with failedCount := failedCount }
  now := 0
  kmalloc := true
  tx := plainTxHeader
  packet := plainUdpIp
  adhoc := rfl
  taken := plainUdpIp_taken
  room := plainUdpIp_room
  len_le := plainUdpIp_len_le
  fails_eq := by decide
  retries_eq := by decide

/-- Three failures, one before the first packet and two before the second. The fields are 255 and
254, which add up to 253. -/
theorem counts_negated :
    Run.execM reportStep initLedger [plainOutgoing 1, plainOutgoing 3] =
        .ok ⟨⟨3, 0⟩, 255 + 254, 0⟩ ∧
      (255 + 254) % 256 ≠ (plainOutgoing 3).pad.failedCount.toNat % 256 := by
  refine ⟨?_, by decide⟩
  rw [Run.execM_cons_of_ok (reportStep_eq _ _), Run.execM_cons_of_ok (reportStep_eq _ _)]
  rfl

end MiaVita.Rt2501
