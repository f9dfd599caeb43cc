import Mathlib.Algebra.Order.BigOperators.Group.List
import Mathlib.Data.List.Chain
import MiaVita.FredFramework.Emission

/-!
# Application aggregation and back

`appDeagregate` takes the datagrams of an aggregate out again, each behind a copy of the outer
header. It counts them by dividing the length of the aggregate by 33, the size of a datagram with
one `packet_t`, but walks over them by the length field of each. And it keeps the timestamps
through two pointers that are not moved along: `first` stays at the first datagram, and `pdu`,
which is read for every further one, is never assigned. So the newest datagram comes out as it was
and the others with the difference that was stored for them, if the read through `pdu` does not
stop the kernel.
-/

namespace MiaVita

open Bytes Memory StampChain Fallible

/-! ### Datagrams -/

/-- A UDP datagram whose length field is its length, and that is long enough for a timestamp. -/
@[ext] structure Datagram where
  bytes : List UInt8
  udpLen_eq : beVal (slice bytes 4 2) = bytes.length
  long : sizeofUdphdr + 8 ≤ bytes.length

namespace Datagram

variable (d : Datagram)

/-- The datagram as a record that carries its time. -/
def record : Stamped := ⟨d.bytes, sizeofUdphdr, d.long⟩

/-- The timestamp behind the UDP header. -/
def timestamp : UInt64 := d.record.time

/-- Overwriting bytes behind the length field gives a datagram again. -/
def patched (i : ℕ) (xs : List UInt8) (hi : 6 ≤ i) (h : i + xs.length ≤ d.bytes.length) :
    Datagram where
  bytes := patch d.bytes i xs
  udpLen_eq := by
    rw [slice_patch_of_disjoint h (by omega), length_patch h]
    exact d.udpLen_eq
  long := by
    rw [length_patch h]
    exact d.long

/-- The datagram with its timestamp replaced. -/
def stamp (t : UInt64) : Datagram :=
  d.patched sizeofUdphdr (be 8 t.toNat) (by decide) (by rw [length_be]; exact d.long)

/-- The datagram with its checksum cleared. -/
def uncheck : Datagram :=
  d.patched 6 [0, 0] le_rfl
    (by have := d.long; simp only [sizeofUdphdr, List.length_cons, List.length_nil] at *; omega)

@[simp] theorem length_stamp (t : UInt64) : (d.stamp t).bytes.length = d.bytes.length :=
  length_patch (by rw [length_be]; exact d.long)

@[simp] theorem length_uncheck : d.uncheck.bytes.length = d.bytes.length :=
  length_patch
    (by have := d.long; simp only [sizeofUdphdr, List.length_cons, List.length_nil] at *; omega)

/-- Clearing the checksum does not touch the timestamp. -/
@[simp] theorem timestamp_uncheck : d.uncheck.timestamp = d.timestamp := by
  have hslice : slice d.uncheck.bytes sizeofUdphdr 8 = slice d.bytes sizeofUdphdr 8 :=
    slice_patch_of_disjoint
      (by have := d.long; simp only [sizeofUdphdr, List.length_cons, List.length_nil] at *; omega)
      (Or.inr (by simp))
  exact congrArg (fun bs => UInt64.ofNat (beVal bs)) hslice

/-- The length fits its field. -/
private theorem length_lt : d.bytes.length < 65536 := by
  rw [← d.udpLen_eq]
  exact beVal_slice_two_lt d.bytes 4

@[simp] theorem timestamp_stamp (t : UInt64) : (d.stamp t).timestamp = t := d.record.time_stamp t

@[simp] theorem stamp_timestamp : d.stamp d.timestamp = d := Datagram.ext d.record.stamp_time

end Datagram

/-- The difference chain of a stack of datagrams is a sequence of datagrams. -/
private theorem chain_datagrams (ds : List Datagram) :
    chain (ds.map Datagram.record) =
      ((List.zipWith Datagram.stamp ds (deltas (ds.map Datagram.timestamp))).map
        Datagram.bytes).flatten := by
  rw [chain, List.map_map, List.zipWith_map_left, List.map_zipWith]
  rfl

/-! ### The rebuilt packet -/

section Rebuilt

variable {iph : List UInt8} (h20 : 20 ≤ iph.length) (h60 : iph.length ≤ 60) (totLen : ℕ)

include h20 h60

/-- **The rebuilt header**: it has the new length and protocol and a checksum that verifies, and is
otherwise the outer header. -/
theorem rebuildHeader_spec :
    (rebuildHeader iph totLen).length = iph.length ∧
      totLenOf (rebuildHeader iph totLen) = totLen % 65536 ∧
      protocolOf (rebuildHeader iph totLen) = ipprotoUdp ∧
      csum (words (rebuildHeader iph totLen)) = 0 ∧
      ∀ i, i < 2 ∨ 4 ≤ i ∧ i < 9 ∨ 12 ≤ i → (rebuildHeader iph totLen)[i]? = iph[i]? := by
  obtain ⟨iph₁, iph₂, iph₃, steps, hrebuild⟩ :=
    exists_rebuildSteps (show 12 ≤ iph.length by omega) totLen
  obtain ⟨h₁, h₂, h₃, hlen₂, hlen₃, hin₀, hin₁, hin₂, hin₃⟩ := steps
  obtain ⟨sum, hsum⟩ : ∃ sum, sum = csum (words iph₃) := ⟨_, rfl⟩
  rw [hrebuild, ← hsum]
  refine ⟨by rw [length_patch (hin₃ _), hlen₃], ?_, ?_, ?_, fun i hi => ?_⟩
  · rw [totLenOf, slice_patch_of_disjoint (hin₃ _) (by omega), h₃,
      slice_patch_of_disjoint hin₂ (by omega), h₂, slice_patch_of_disjoint hin₁ (by omega), h₁]
    have hself := slice_patch_self hin₀
    rw [length_be] at hself
    rw [hself]
    exact beVal_be 2 totLen
  · rw [protocolOf, slice_patch_of_disjoint (hin₃ _) (by omega), h₃,
      slice_patch_of_disjoint hin₂ (by omega), h₂]
    exact congrArg leVal (slice_patch_self hin₁)
  · have hzero : words iph₃ = (words iph₂).set 5 0 := by
      rw [h₃]
      exact words_patch 5 hin₂ 0
    have hwords : (words iph₂).length = iph.length / 2 := by rw [length_words, hlen₂]
    have hset : words (patch iph₃ 10 (le 2 sum.toNat)) = (words iph₃).set 5 sum :=
      words_patch 5 (by omega) sum
    rw [hset, hsum]
    refine csum_set_self (by rw [hzero, List.length_set, hwords]; omega) ?_
    rw [hzero, List.getElem?_set_self (by rw [hwords]; omega)]
  · rw [getElem?_patch (hin₃ _), h₃, getElem?_patch hin₂, h₂, getElem?_patch hin₁, h₁,
      getElem?_patch hin₀]
    simp only [length_le, length_be, List.length_cons, List.length_nil]
    split_ifs <;> first | rfl | omega

end Rebuilt

/-- The packet injected for a datagram taken out of an aggregate with the outer header `iph`. -/
def Datagram.rebuilt (iph : List UInt8) (d : Datagram) : List UInt8 :=
  rebuildHeader iph (sizeofIphdr + d.bytes.length) ++ d.uncheck.bytes

/-! ### The walk over an aggregate -/

section Walk

variable {wild : ℕ → Option UInt64} {iph : List UInt8} (hlen : iph.length = sizeofIphdr)
  (hihl : ihlOf iph = 5)

include hlen hihl

/-- The packet built for the datagram behind `x`. -/
private theorem prependIphdr_mid (x : List UInt8) (d : Datagram) (c : List UInt8) :
    udpLenAt (iph ++ (x ++ (d.bytes ++ c))) (sizeofIphdr + x.length) = d.bytes.length ∧
      prependIphdr (iph ++ (x ++ (d.bytes ++ c))) (sizeofIphdr + x.length) d.bytes.length =
        .ok (rebuildHeader iph (sizeofIphdr + d.bytes.length) ++ d.bytes) := by
  have hlong := d.long
  have hfields := (fields_append iph (by rw [hlen]) (x ++ (d.bytes ++ c))).1
  rw [hihl] at hfields
  have hslice : ∀ i n, i + n ≤ d.bytes.length →
      slice (iph ++ (x ++ (d.bytes ++ c))) (sizeofIphdr + x.length + i) n = slice d.bytes i n := by
    intro i n hi
    rw [← hlen, Nat.add_assoc, slice_append_right, slice_append_right, slice_append_left hi]
  have hsize : (iph ++ (x ++ (d.bytes ++ c))).length =
      sizeofIphdr + (x.length + (d.bytes.length + c.length)) := by
    simp only [List.length_append, hlen]
  constructor
  · rw [udpLenAt, hslice 4 2 (by simp only [sizeofUdphdr] at hlong; omega), d.udpLen_eq]
  · have hall := hslice 0 d.bytes.length (by omega)
    rw [Nat.add_zero, slice_zero_length] at hall
    rw [prependIphdr_eq (by rw [hfields]) (by rw [hfields, hsize]; exact Nat.le_add_right _ _)
      (by rw [hsize]; omega),
      hfields, hall]
    have htake : (iph ++ (x ++ (d.bytes ++ c))).take (4 * 5) = iph :=
      List.take_left' hlen
    rw [htake]

/-- A round that leaves the datagram behind `x` without its checksum builds its packet. -/
private theorem appRound_of_mem (x : List UInt8) (d : Datagram) (c : List UInt8) {ts : UInt64}
    {first : ℕ} {m : List UInt8} {tsAcc tsAcc' : UInt64} {k : ℕ}
    (hudp : sizeofIphdr + x.length + 8 ≤ m.length) (hfirst : first + 8 ≤ m.length)
    (hmem : appRewritten ts first m (sizeofIphdr + x.length) tsAcc =
      iph ++ (x ++ (d.uncheck.bytes ++ c)))
    (hacc : accumulateWild (wild (k - 1)) tsAcc (k = 0) = .ok tsAcc') :
    appRound (.allocOk wild) ts first m (sizeofIphdr + x.length) tsAcc k =
      .ok ⟨iph ++ (x ++ (d.uncheck.bytes ++ c)), tsAcc', d.bytes.length, d.rebuilt iph⟩ := by
  obtain ⟨hudpLen, hprepend⟩ := prependIphdr_mid hlen hihl x d.uncheck c
  have hacc' : accumulateWild ((DeaggEnv.allocOk wild).wild (k - 1)) tsAcc (k = 0) = .ok tsAcc' :=
    hacc
  rw [appRound_eq _ _ _ _ hudp hfirst, hmem, hacc', ok_bind, hudpLen, hprepend, ok_bind,
    d.length_uncheck]
  rfl

/-- The first round: the newest datagram keeps its timestamp. -/
private theorem appRound_first (d : Datagram) (c : List UInt8) :
    appRound (.allocOk wild) d.timestamp (sizeofIphdr + sizeofUdphdr) (iph ++ (d.bytes ++ c))
        sizeofIphdr 0 0 =
      .ok ⟨iph ++ (d.uncheck.bytes ++ c), 0, d.bytes.length, d.rebuilt iph⟩ := by
  have hlong := d.long
  have hsize : (iph ++ (d.bytes ++ c)).length = sizeofIphdr + (d.bytes.length + c.length) := by
    simp only [List.length_append, hlen]
  have hmem : appRewritten d.timestamp (sizeofIphdr + sizeofUdphdr) (iph ++ (d.bytes ++ c))
      (sizeofIphdr + ([] : List UInt8).length) 0 = iph ++ ([] ++ (d.uncheck.bytes ++ c)) := by
    have hcheck : patch (iph ++ (d.bytes ++ c)) (sizeofIphdr + 6) [0, 0] =
        iph ++ (d.uncheck.bytes ++ c) := by
      rw [← hlen, patch_append_right, patch_append_left]
      · rfl
      · simp only [sizeofUdphdr, List.length_cons, List.length_nil] at hlong ⊢
        omega
    have hstamp : patch d.uncheck.bytes sizeofUdphdr (be 8 d.timestamp.toNat) =
        d.uncheck.bytes := by
      have := congrArg Datagram.bytes d.uncheck.stamp_timestamp
      rwa [d.timestamp_uncheck] at this
    rw [appRewritten, List.length_nil, Nat.add_zero, hcheck, ← hlen, patch_append_right,
      patch_append_left (by rw [length_be, d.length_uncheck]; exact hlong), sub_zero, hstamp,
      List.nil_append]
  refine appRound_of_mem hlen hihl [] d c ?_ ?_ hmem rfl
  · rw [hsize, List.length_nil]
    simp only [sizeofUdphdr] at hlong
    omega
  · rw [hsize]
    omega

/-- A later round, on the datagram behind `x`: the timestamp of the first datagram is overwritten,
and nothing else but the checksum. -/
private theorem appRound_later (d : Datagram) (x c : List UInt8) (hx : sizeofUdphdr + 8 ≤ x.length)
    (ts tsAcc : UInt64) {k : ℕ} {t : UInt64} (hwild : wild k = some t) :
    ∃ x', x'.length = x.length ∧
      appRound (.allocOk wild) ts (sizeofIphdr + sizeofUdphdr) (iph ++ (x ++ (d.bytes ++ c)))
          (sizeofIphdr + x.length) tsAcc (k + 1) =
        .ok ⟨iph ++ (x' ++ (d.uncheck.bytes ++ c)), tsAcc + t, d.bytes.length, d.rebuilt iph⟩ := by
  have hlong := d.long
  have hfits : sizeofUdphdr + (be 8 (ts - tsAcc).toNat).length ≤ x.length := by
    rw [length_be]
    exact hx
  obtain ⟨x', hx'⟩ : ∃ x', x' = patch x sizeofUdphdr (be 8 (ts - tsAcc).toNat) := ⟨_, rfl⟩
  have hlen' : x'.length = x.length := by rw [hx', length_patch hfits]
  have hsize : (iph ++ (x ++ (d.bytes ++ c))).length =
      sizeofIphdr + (x.length + (d.bytes.length + c.length)) := by
    simp only [List.length_append, hlen]
  have hmem : appRewritten ts (sizeofIphdr + sizeofUdphdr) (iph ++ (x ++ (d.bytes ++ c)))
      (sizeofIphdr + x'.length) tsAcc = iph ++ (x' ++ (d.uncheck.bytes ++ c)) := by
    have hcheck : patch (iph ++ (x ++ (d.bytes ++ c))) (sizeofIphdr + x.length + 6) [0, 0] =
        iph ++ (x ++ (d.uncheck.bytes ++ c)) := by
      rw [← hlen, Nat.add_assoc, patch_append_right, patch_append_right, patch_append_left]
      · rfl
      · simp only [sizeofUdphdr, List.length_cons, List.length_nil] at hlong ⊢
        omega
    rw [appRewritten, hlen', hcheck, ← hlen, patch_append_right, patch_append_left hfits, hx']
  refine ⟨x', hlen', ?_⟩
  rw [← hlen']
  refine appRound_of_mem hlen hihl x' d c ?_ ?_ hmem ?_
  · rw [hsize, hlen']
    simp only [sizeofUdphdr] at hlong
    omega
  · rw [hsize]
    omega
  · rw [Nat.add_sub_cancel, hwild]
    rfl

/-- **The walk behind the first datagram**: as long as the reads through `pdu` succeed, a packet is
built for every datagram. -/
theorem appScatter_later (ds : List Datagram) (x : List UInt8) (hx : sizeofUdphdr + 8 ≤ x.length)
    (ts tsAcc : UInt64) (room k : ℕ) (scatters : List (List UInt8)) (hroom : ds.length ≤ room)
    (hwild : ∀ j < ds.length, (wild (k + j)).isSome) :
    appScatter (.allocOk wild) ts (sizeofIphdr + sizeofUdphdr) room ds.length
        (iph ++ (x ++ (ds.map Datagram.bytes).flatten)) (sizeofIphdr + x.length) tsAcc (k + 1)
        scatters =
      .ok ((ds.map (Datagram.rebuilt iph)).reverse ++ scatters) := by
  induction ds generalizing x tsAcc room k scatters with
  | nil =>
    unfold appScatter
    rfl
  | cons d ds ih =>
    obtain ⟨t, ht⟩ := Option.isSome_iff_exists.mp (hwild 0 (Nat.succ_pos _))
    obtain ⟨room, rfl⟩ : ∃ r, room = r + 1 :=
      Nat.exists_eq_succ_of_ne_zero (by rw [List.length_cons] at hroom; omega)
    obtain ⟨x', hlen', hround⟩ := appRound_later hlen hihl d x (ds.map Datagram.bytes).flatten hx ts
      tsAcc ht
    have hrest := ih (x' ++ d.uncheck.bytes)
      (by rw [List.length_append, hlen']; omega) (tsAcc + t) room (k + 1)
      (d.rebuilt iph :: scatters) (Nat.le_of_succ_le_succ hroom) (by
        intro j hj
        have := hwild (j + 1) (Nat.succ_lt_succ hj)
        rwa [← Nat.add_assoc, Nat.add_right_comm] at this)
    rw [List.length_append, hlen', d.length_uncheck, ← Nat.add_assoc, List.append_assoc] at hrest
    rw [List.length_cons, List.map_cons, List.flatten_cons, appScatter, hround, ok_bind]
    simp only [hrest, List.map_cons, List.reverse_cons, List.append_assoc, List.cons_append,
      List.nil_append]

/-- **The walk over an aggregate** of as many datagrams as were counted. -/
theorem appScatter_all (d : Datagram) (ds : List Datagram) (hroom : (d :: ds).length ≤ maxScatters)
    (hwild : ∀ j < ds.length, (wild j).isSome) :
    appScatter (.allocOk wild) d.timestamp (sizeofIphdr + sizeofUdphdr) maxScatters
        (d :: ds).length (iph ++ ((d :: ds).map Datagram.bytes).flatten) sizeofIphdr 0 0 [] =
      .ok ((d :: ds).map (Datagram.rebuilt iph)).reverse := by
  have hlater := appScatter_later hlen hihl ds d.uncheck.bytes d.uncheck.long d.timestamp 0 26 0
    [d.rebuilt iph] (Nat.le_of_succ_le_succ hroom) (by simpa using hwild)
  rw [d.length_uncheck] at hlater
  rw [List.length_cons, List.map_cons, List.flatten_cons, appScatter,
    appRound_first hlen hihl, ok_bind]
  simp only [hlater, List.map_cons, List.reverse_cons]

end Walk

/-! ### What a walk that ends has done -/

section Ended

variable {env : DeaggEnv} {ts : UInt64} {first room n : ℕ} {m : List UInt8} {udph : ℕ}
  {tsAcc : UInt64} {k : ℕ} {scatters out : List (List UInt8)}

theorem appScatter_succ_ok
    (h : appScatter env ts first room (n + 1) m udph tsAcc k scatters = .ok out) :
    ∃ r room', room = room' + 1 ∧ appRound env ts first m udph tsAcc k = .ok r ∧
      appScatter env ts first room' n r.m (udph + r.len) r.tsAcc (k + 1) (r.new :: scatters) =
        .ok out := by
  rw [appScatter] at h
  obtain ⟨r, hr, h⟩ := bind_eq_ok.mp h
  cases room with
  | zero => cases h
  | succ room => exact ⟨r, room, rfl, hr, h⟩

/-- It has built as many packets as were counted. -/
private theorem length_appScatter
    (h : appScatter env ts first room n m udph tsAcc k scatters = .ok out) :
    out.length = scatters.length + n := by
  induction n generalizing room m udph tsAcc k scatters with
  | zero =>
    unfold appScatter at h
    cases h
    rfl
  | succ n ih =>
    obtain ⟨r, room', -, -, h⟩ := appScatter_succ_ok h
    rw [ih h, List.length_cons, Nat.add_right_comm, Nat.add_assoc]

private theorem isSome_of_appRound {r : AppRound}
    (h : appRound env ts first m udph tsAcc (k + 1) = .ok r) : (env.wild k).isSome := by
  rw [appRound] at h
  obtain ⟨m₁, -, h⟩ := bind_eq_ok.mp h
  obtain ⟨m₂, -, h⟩ := bind_eq_ok.mp h
  obtain ⟨tsAcc', hacc, -⟩ := bind_eq_ok.mp h
  rw [Nat.add_sub_cancel] at hacc
  cases hwild : env.wild k with
  | none =>
    rw [hwild] at hacc
    cases hacc
  | some t => rfl

/-- It has read through the uninitialised pointer in every round but the first. -/
theorem isSome_of_appScatter
    (h : appScatter env ts first room n m udph tsAcc (k + 1) scatters = .ok out) :
    ∀ j < n, (env.wild (k + j)).isSome := by
  induction n generalizing room m udph tsAcc k scatters with
  | zero =>
    intro j hj
    exact absurd hj (Nat.not_lt_zero j)
  | succ n ih =>
    obtain ⟨r, room', -, hround, h⟩ := appScatter_succ_ok h
    intro j hj
    cases j with
    | zero => exact isSome_of_appRound hround
    | succ j =>
      have := ih h j (Nat.lt_of_succ_lt_succ hj)
      rwa [Nat.add_right_comm, Nat.add_assoc] at this

/-- **An aggregate that was taken apart**: as many packets were injected as were counted, and the
uninitialised pointer was read once less. -/
theorem appInner_ok {wild : ℕ → Option UInt64} {ihl : ℕ} {verdict : Verdict}
    (h : appInner (.allocOk wild) m ihl n = .ok (verdict, out)) :
    out.length = n ∧ ∀ j < n - 1, (wild j).isSome := by
  rw [appInner] at h
  obtain ⟨firstTs, -, h⟩ := bind_eq_ok.mp h
  obtain ⟨built, hbuilt, h⟩ := bind_eq_ok.mp h
  obtain ⟨injected, hinjected, h⟩ := bind_eq_ok.mp h
  cases h
  constructor
  · rw [length_injectAll hinjected, List.length_map, length_appScatter hbuilt, List.length_nil,
      Nat.zero_add]
  · cases n with
    | zero =>
      intro j hj
      exact absurd hj (Nat.not_lt_zero j)
    | succ n =>
      obtain ⟨r, room', -, -, hrest⟩ := appScatter_succ_ok hbuilt
      intro j hj
      have := isSome_of_appScatter hrest j hj
      rwa [Nat.zero_add] at this

end Ended

/-! ### The aggregate of a stack -/

section Stack

variable {wild : ℕ → Option UInt64}

/-- A rebuilt packet is injected as it is. -/
private theorem injectPacket_rebuilt {iph : List UInt8} (hlen : iph.length = sizeofIphdr)
    (d : Datagram) (hshort : sizeofIphdr + d.bytes.length < 65536) :
    injectPacket true (d.rebuilt iph) 0 = .ok (some (d.rebuilt iph)) := by
  obtain ⟨hheader, htot, -, -, -⟩ := rebuildHeader_spec (by rw [hlen]) (by rw [hlen]; decide)
    (sizeofIphdr + d.bytes.length)
  rw [hlen] at hheader
  have hsize : (d.rebuilt iph).length = sizeofIphdr + d.bytes.length := by
    rw [Datagram.rebuilt, List.length_append, hheader, d.length_uncheck]
  have hfield : totLenOf (d.rebuilt iph) = (d.rebuilt iph).length := by
    rw [hsize, Datagram.rebuilt, (fields_append _ (by rw [hheader]) _).2.1, htot,
      Nat.mod_eq_of_lt hshort]
  have hcopy : load id (d.rebuilt iph) 0 (d.rebuilt iph).length = .ok (d.rebuilt iph) := by
    rw [load_eq (by omega), slice_zero_length]
    rfl
  rw [injectPacket, ipTotLen_eq (by rw [hsize]; simp only [sizeofIphdr]; omega), hfield, ok_bind,
    if_pos rfl, hcopy, ok_bind]

private theorem injectAll_rebuilt {iph : List UInt8} (hlen : iph.length = sizeofIphdr)
    (ds : List Datagram) (hshort : ∀ d ∈ ds, sizeofIphdr + d.bytes.length < 65536) :
    injectAll (fun _ => true) 0 ((ds.map (Datagram.rebuilt iph)).reverse.map fun new => (new, 0)) =
      .ok (ds.map (Datagram.rebuilt iph)).reverse := by
  refine injectAll_eq (List.forall₂_map_left_iff.mpr (List.forall₂_same.mpr ?_)) 0
  intro new hnew
  obtain ⟨d, hd, rfl⟩ := List.mem_map.mp (List.mem_reverse.mp hnew)
  exact injectPacket_rebuilt hlen d (hshort d hd)

/-- **An aggregate of as many datagrams as are counted is taken apart**, oldest datagram first. -/
theorem appDeagregate_datagrams (d : Datagram) (ds : List Datagram) (saddr daddr : UInt32)
    (hroom : (d :: ds).length ≤ maxScatters)
    (hcount : ((d :: ds).map fun d => d.bytes.length).sum / (sizeofUdphdr + sizeofPacket) =
      (d :: ds).length)
    (hwild : ∀ j < ds.length, (wild j).isSome) :
    appDeagregate (.allocOk wild)
        (aggregateHeader agregatedApplicationEncapUdpProto
          (sizeofIphdr + ((d :: ds).map fun d => d.bytes.length).sum) saddr daddr ++
          ((d :: ds).map Datagram.bytes).flatten) =
      .ok (.stolen, ((d :: ds).map (Datagram.rebuilt (aggregateHeader
        agregatedApplicationEncapUdpProto (sizeofIphdr + ((d :: ds).map fun d =>
          d.bytes.length).sum) saddr daddr))).reverse) := by
  obtain ⟨total, htotal⟩ : ∃ n, n = ((d :: ds).map fun d => d.bytes.length).sum := ⟨_, rfl⟩
  rw [← htotal] at hcount ⊢
  have hbound : total < 924 := by
    simp only [sizeofUdphdr, sizeofPacket, maxScatters] at hcount hroom
    omega
  obtain ⟨hihl, htot, hprotocol, -⟩ := fields_aggregateHeader
    (show agregatedApplicationEncapUdpProto < 256 by decide) (sizeofIphdr + total) saddr daddr
    ((d :: ds).map Datagram.bytes).flatten
  rw [Nat.mod_eq_of_lt (by simp only [sizeofIphdr]; omega)] at htot
  obtain ⟨iph, hiph⟩ : ∃ bs, bs = aggregateHeader agregatedApplicationEncapUdpProto
    (sizeofIphdr + total) saddr daddr := ⟨_, rfl⟩
  have hlen : iph.length = sizeofIphdr := by rw [hiph, length_aggregateHeader]
  have hihl' : ihlOf iph = 5 := by
    have := (fields_append iph (by rw [hlen]) ((d :: ds).map Datagram.bytes).flatten).1
    rw [hiph, hihl] at this
    rw [hiph, ← this]
  rw [← hiph] at hihl htot hprotocol ⊢
  have hts : pduTimestamp (iph ++ ((d :: ds).map Datagram.bytes).flatten)
      (4 * 5 + sizeofUdphdr) = .ok d.timestamp := by
    have hmid : pduTimestamp (iph ++ (d.bytes ++ (ds.map Datagram.bytes).flatten))
        (iph.length + sizeofUdphdr) = .ok d.timestamp := load_mid d.long
    rw [hlen] at hmid
    exact hmid
  have hscatter := appScatter_all hlen hihl' d ds hroom hwild
  have hsize : (iph ++ ((d :: ds).map Datagram.bytes).flatten).length = sizeofIphdr + total := by
    rw [List.length_append, hlen, List.length_flatten, List.map_map, htotal]
    rfl
  rw [appDeagregate_eq _ (by rw [hsize]; simp only [sizeofIphdr]; omega) hprotocol
    (by rw [hihl, htot]; exact Nat.le_add_right _ _), hihl, htot, Nat.add_sub_cancel_left, hcount,
    appInner]
  have hinject := injectAll_rebuilt hlen (d :: ds) fun d' hd' => by
    have hle : d'.bytes.length ≤ total := by
      rw [htotal]
      exact List.le_sum_of_mem (List.mem_map.mpr ⟨d', hd', rfl⟩)
    simp only [sizeofIphdr]
    omega
  simp only [hts, ok_bind, DeaggEnv.allocOk] at hscatter ⊢
  rw [show 4 * 5 = sizeofIphdr from rfl, hscatter, ok_bind, hinject, ok_bind]

/-- **What comes back** from a stack of datagrams: each behind a rebuilt header, oldest first, with
the difference that was stored as its timestamp. -/
theorem appDeagregate_chain (ds : List Datagram) (hne : ds ≠ []) (saddr daddr : UInt32)
    (hroom : ds.length ≤ maxScatters)
    (hcount : (ds.map fun d => d.bytes.length).sum / (sizeofUdphdr + sizeofPacket) = ds.length)
    (hwild : ∀ j < ds.length - 1, (wild j).isSome) :
    appDeagregate (.allocOk wild)
        (aggregateHeader agregatedApplicationEncapUdpProto
          (sizeofIphdr + (ds.map fun d => d.bytes.length).sum) saddr daddr ++
          chain (ds.map Datagram.record)) =
      .ok (.stolen, (List.zipWith (fun d t => (d.stamp t).rebuilt (aggregateHeader
        agregatedApplicationEncapUdpProto (sizeofIphdr + (ds.map fun d => d.bytes.length).sum)
          saddr daddr)) ds (deltas (ds.map Datagram.timestamp))).reverse) := by
  obtain ⟨qs, hqs⟩ : ∃ qs,
      List.zipWith Datagram.stamp ds (deltas (ds.map Datagram.timestamp)) = qs := ⟨_, rfl⟩
  have hbytes : chain (ds.map Datagram.record) = (qs.map Datagram.bytes).flatten := by
    rw [chain_datagrams, hqs]
  have hsum : (qs.map fun d => d.bytes.length).sum = (ds.map fun d => d.bytes.length).sum := by
    have hlength := congrArg List.length hbytes
    rw [length_chain, List.length_flatten, List.map_map, List.map_map] at hlength
    exact hlength.symm
  have hsame : qs.length = ds.length := by
    rw [← hqs, List.length_zipWith, length_deltas, List.length_map, Nat.min_self]
  cases qs with
  | nil => exact absurd (List.length_eq_zero_iff.mp hsame.symm) hne
  | cons q qs =>
    have hwild' : ∀ j < qs.length, (wild j).isSome := by
      rw [← hsame] at hwild
      exact hwild
    have h := appDeagregate_datagrams q qs saddr daddr (by rw [hsame]; exact hroom)
      (by rw [hsum, hsame]; exact hcount) hwild'
    rw [hsum, ← hbytes, ← hqs, List.map_zipWith] at h
    exact h

end Stack

/-! ### The round trip -/

/-- A packet on its way out whose UDP length field is the length of its datagram. -/
structure AppOutgoing extends Outgoing where
  udpLen_eq : beVal (slice packet.datagram.bytes 4 2) = packet.datagram.bytes.length

/-- The datagram in the packet. -/
def AppOutgoing.datagram (o : AppOutgoing) : Datagram :=
  ⟨o.packet.datagram.bytes, o.udpLen_eq, o.packet.datagram.fits⟩

/-- The timestamps as they are stored for a sequence, oldest first. -/
def storedTimes (ts : List UInt64) : List UInt64 := (deltas ts.reverse).reverse

@[simp] theorem length_storedTimes (ts : List UInt64) : (storedTimes ts).length = ts.length := by
  rw [storedTimes, List.length_reverse, length_deltas, List.length_reverse]

section RoundTrip

variable {ifaAddress sourceIp ip : UInt32} {path : EmitPath} {size : ℕ} {os : List AppOutgoing}

/-- What is on top of a buffer of datagrams is a stack of datagrams. -/
private theorem stack_datagrams (os : List AppOutgoing) :
    stack UdpPacket.datagram (os.map AppOutgoing.toOutgoing) =
      ((os.map AppOutgoing.datagram).reverse).map Datagram.record := by
  rw [stack, List.map_reverse, List.map_reverse, List.map_map, List.map_map, List.map_map]
  rfl

private theorem sum_lens_datagrams (os : List AppOutgoing) :
    (((os.map AppOutgoing.datagram).reverse).map fun d => d.bytes.length).sum =
      (lens UdpPacket.datagram (os.map AppOutgoing.toOutgoing)).sum := by
  rw [List.map_reverse, List.sum_reverse, lens, List.map_map, List.map_map]
  rfl

/-- The packets injected for the aggregate of a sequence of as many datagrams as are counted. -/
private theorem app_emitted (ifaAddress sourceIp ip : UInt32) {wild : ℕ → Option UInt64}
    (hne : os ≠ []) (h27 : os.length ≤ maxScatters)
    (hadm : path.Admits size (lens UdpPacket.datagram (os.map AppOutgoing.toOutgoing)))
    (hcount : (lens UdpPacket.datagram (os.map AppOutgoing.toOutgoing)).sum /
      (sizeofUdphdr + sizeofPacket) = os.length)
    (hwild : ∀ j < os.length - 1, (wild j).isSome) :
    ∃ iph body, iph.length = sizeofIphdr ∧
      emit (pushAppPacket ifaAddress .ok) agregatedApplicationEncapUdpProto sourceIp path size ip
        (os.map AppOutgoing.toOutgoing) = .ok [iph ++ body] ∧
      ipRcv (iph ++ body) = some (iph ++ body) ∧
      appDeagregate (.allocOk wild) (iph ++ body) =
        .ok (.stolen, List.zipWith (fun o t => (o.datagram.stamp t).rebuilt iph) os
          (storedTimes (os.map fun o => o.datagram.timestamp))) := by
  have hlen : sizeofIphdr +
      (lens UdpPacket.datagram (os.map AppOutgoing.toOutgoing)).sum < 65536 := by
    simp only [sizeofIphdr, sizeofUdphdr, sizeofPacket, maxScatters] at hcount h27 ⊢
    omega
  have hemit := emit_eq (stacks_pushAppPacket ifaAddress) sourceIp ip
    (by simpa using hne) hadm hlen
  have hwild' : ∀ j < (os.map AppOutgoing.datagram).reverse.length - 1, (wild j).isSome := by
    simpa using hwild
  have hdeagg := appDeagregate_chain (os.map AppOutgoing.datagram).reverse
    (by simpa using hne) (path.source ifaAddress sourceIp) ip (by simpa using h27)
    (by rw [sum_lens_datagrams]; simpa using hcount) hwild'
  have hsum := length_chain_stack UdpPacket.datagram (os.map AppOutgoing.toOutgoing)
  have hrcv := ipRcv_aggregate (show agregatedApplicationEncapUdpProto < 256 by decide)
    (path.source ifaAddress sourceIp) ip (by rw [hsum]; exact hlen)
  rw [hsum] at hrcv
  rw [sum_lens_datagrams, ← stack_datagrams] at hdeagg
  refine ⟨_, _, length_aggregateHeader _ _ _ _, hemit, hrcv, hdeagg.trans ?_⟩
  rw [storedTimes, List.reverse_zipWith (by simp), List.reverse_reverse, List.zipWith_map_left,
    List.map_reverse, List.map_map]
  rfl

/-- A datagram cut off before its end is not injected. -/
private theorem appDeagregate_truncated {wild : ℕ → Option UInt64} (d : Datagram) {n r : ℕ}
    (hr : r < d.bytes.length) (hn : n % 65536 = sizeofIphdr + r) {saddr daddr : UInt32}
    {verdict : Verdict} {out : List (List UInt8)}
    (h : appDeagregate (.allocOk wild)
      (aggregateHeader agregatedApplicationEncapUdpProto n saddr daddr ++ d.bytes.take r) =
        .ok (verdict, out)) : out = [] := by
  obtain ⟨hihl, htot, hprotocol, -⟩ := fields_aggregateHeader
    (show agregatedApplicationEncapUdpProto < 256 by decide) n saddr daddr (d.bytes.take r)
  obtain ⟨iph, hiph⟩ : ∃ bs, bs = aggregateHeader agregatedApplicationEncapUdpProto n saddr daddr :=
    ⟨_, rfl⟩
  have hlen : iph.length = sizeofIphdr := by rw [hiph, length_aggregateHeader]
  rw [← hiph] at hihl htot hprotocol h
  have hsize : (iph ++ d.bytes.take r).length = sizeofIphdr + r := by
    rw [List.length_append, hlen, List.length_take, Nat.min_eq_left (Nat.le_of_lt hr)]
  rw [hn] at htot
  rw [appDeagregate_eq _ (by rw [hsize]; simp only [sizeofIphdr]; omega) hprotocol
    (by rw [hihl, htot]; exact Nat.le_add_right _ _), hihl, htot, Nat.add_sub_cancel_left] at h
  cases hcount : r / (sizeofUdphdr + sizeofPacket) with
  | zero =>
    rw [hcount] at h
    exact List.length_eq_zero_iff.mp (appInner_ok h).1
  | succ count =>
    -- the first datagram would have to end inside what was received
    rw [hcount, appInner] at h
    obtain ⟨firstTs, -, h⟩ := bind_eq_ok.mp h
    obtain ⟨built, hbuilt, -⟩ := bind_eq_ok.mp h
    obtain ⟨round, -, -, hround, -⟩ := appScatter_succ_ok hbuilt
    obtain ⟨-, hfirst, -, -, hend⟩ := (safe_appRound_iff _ _ _ _ (by rw [hihl])
      (by rw [hihl, hsize]; exact Nat.le_add_right _ _) (by omega)).mp ⟨round, hround⟩
    have hlong := d.long
    rw [hsize] at hfirst
    rw [udpLenAt_appRewritten _ _ (by rw [hsize]; exact hfirst), hsize, udpLenAt,
      show 4 * 5 = iph.length from hlen.symm, slice_append_right,
      slice_take (by simp only [sizeofIphdr, sizeofUdphdr] at hfirst; omega), d.udpLen_eq, hlen]
      at hend
    omega

/-- The aggregate of a sequence is taken apart into packets that are related, one by one, to the
datagrams of the sequence. -/
def AppDelivers (ifaAddress sourceIp ip : UInt32) (path : EmitPath) (size : UInt16)
    (os : List AppOutgoing) (wild : ℕ → Option UInt64)
    (related : List UInt8 → Datagram → List UInt8 → Prop) : Prop :=
  ∃ packet received out,
    emit (pushAppPacket ifaAddress .ok) agregatedApplicationEncapUdpProto sourceIp path size.toNat
      ip (os.map AppOutgoing.toOutgoing) = .ok [packet] ∧
    ipRcv packet = some received ∧
    appDeagregate (.allocOk wild) received = .ok (.stolen, out) ∧
    List.Forall₂ (fun o bs => related packet o.datagram bs) os out

variable {size : UInt16} {wild : ℕ → Option UInt64}
  {related : List UInt8 → Datagram → List UInt8 → Prop}

/-- Nothing is delivered of an aggregate whose length does not fit the header field. -/
private theorem AppDelivers.short (hne : os ≠ [])
    (hadm : path.Admits size.toNat (lens UdpPacket.datagram (os.map AppOutgoing.toOutgoing)))
    (h : AppDelivers ifaAddress sourceIp ip path size os wild related) :
    sizeofIphdr + (lens UdpPacket.datagram (os.map AppOutgoing.toOutgoing)).sum < 65536 := by
  obtain ⟨packet, received, out, hemit, hrcv, hdeagg, hout⟩ := h
  by_contra hlong
  cases path with
  | consuela =>
    exact not_safe_emit_consuela (stacks_pushAppPacket ifaAddress) sourceIp ip (by simpa using hne)
      hadm (by omega) ⟨_, hemit⟩
  | flush =>
    rw [emit_flush (stacks_pushAppPacket ifaAddress) sourceIp ip hadm] at hemit
    obtain rfl : _ = packet := by simpa using hemit
    obtain ⟨os, o, rfl⟩ : ∃ os' o, os = os' ++ [o] :=
      ⟨_, _, (List.dropLast_append_getLast hne).symm⟩
    have hshort := o.datagram.length_lt
    rw [List.map_append, List.map_singleton] at hadm hlong hrcv
    obtain ⟨r, hcut, hr, rfl⟩ := ipRcv_long (by decide) UdpPacket.datagram size
      (by simpa [lens] using hadm.1) (Nat.le_of_not_lt hlong) hshort hrcv
    obtain rfl := appDeagregate_truncated o.datagram hcut hr hdeagg
    simpa using hout.length_eq

/-- **What is delivered was counted**, and the uninitialised pointer was read once less. -/
theorem AppDelivers.counted (hne : os ≠ [])
    (hadm : path.Admits size.toNat (lens UdpPacket.datagram (os.map AppOutgoing.toOutgoing)))
    (h : AppDelivers ifaAddress sourceIp ip path size os wild related) :
    (lens UdpPacket.datagram (os.map AppOutgoing.toOutgoing)).sum /
        (sizeofUdphdr + sizeofPacket) = os.length ∧
      ∀ j < os.length - 1, (wild j).isSome := by
  have hlen := h.short hne hadm
  obtain ⟨packet, received, out, hemit, hrcv, hdeagg, hout⟩ := h
  have hsum := length_chain_stack UdpPacket.datagram (os.map AppOutgoing.toOutgoing)
  have hproto : agregatedApplicationEncapUdpProto < 256 := by decide
  rw [emit_eq (stacks_pushAppPacket ifaAddress) sourceIp ip (by simpa using hne) hadm hlen] at hemit
  obtain rfl : _ = packet := by simpa using hemit
  rw [← hsum, ipRcv_aggregate hproto _ _ (by rw [hsum]; exact hlen), hsum] at hrcv
  obtain rfl := Option.some.inj hrcv
  obtain ⟨hihl, htot, hprotocol, -⟩ := fields_aggregateHeader hproto (sizeofIphdr + (lens
    UdpPacket.datagram (os.map AppOutgoing.toOutgoing)).sum) (path.source ifaAddress sourceIp) ip
    (chain (stack UdpPacket.datagram (os.map AppOutgoing.toOutgoing)))
  rw [Nat.mod_eq_of_lt hlen] at htot
  rw [appDeagregate_eq _
    (by rw [List.length_append, length_aggregateHeader]; simp only [sizeofIphdr]; omega) hprotocol
    (by rw [hihl, htot]; exact Nat.le_add_right _ _), hihl, htot, Nat.add_sub_cancel_left] at hdeagg
  obtain ⟨hcount, hwild⟩ := appInner_ok hdeagg
  rw [← hout.length_eq] at hcount
  rw [← hcount] at hwild
  exact ⟨hcount.symm, hwild⟩

/-- **What is delivered**, when as many datagrams are counted as there are. -/
theorem appDelivers_iff (ifaAddress sourceIp ip : UInt32)
    (related : List UInt8 → Datagram → List UInt8 → Prop) (hne : os ≠ [])
    (h27 : os.length ≤ maxScatters)
    (hadm : path.Admits size.toNat (lens UdpPacket.datagram (os.map AppOutgoing.toOutgoing)))
    (hcount : (lens UdpPacket.datagram (os.map AppOutgoing.toOutgoing)).sum /
      (sizeofUdphdr + sizeofPacket) = os.length)
    (hwild : ∀ j < os.length - 1, (wild j).isSome) :
    ∃ iph body : List UInt8, iph.length = sizeofIphdr ∧
      (AppDelivers ifaAddress sourceIp ip path size os wild related ↔
        List.Forall₂ (fun o t => related (iph ++ body) o.datagram
          ((o.datagram.stamp t).rebuilt iph)) os
          (storedTimes (os.map fun o => o.datagram.timestamp))) := by
  obtain ⟨iph, body, hlen, hemit, hrcv, hdeagg⟩ :=
    app_emitted ifaAddress sourceIp ip hne h27 hadm hcount hwild
  refine ⟨iph, body, hlen, ?_⟩
  rw [← forall₂_zipWith_right (by simp)]
  constructor
  · rintro ⟨packet, received, out, hemit', hrcv', hdeagg', hout⟩
    obtain rfl : iph ++ body = packet := by simpa [hemit] using hemit'
    obtain rfl : iph ++ body = received := by simpa [hrcv] using hrcv'
    obtain rfl : _ = out := by simpa [hdeagg] using hdeagg'
    exact hout
  · intro h
    exact ⟨_, _, _, hemit, hrcv, hdeagg, h⟩

/-! ### Datagrams with one `packet_t` -/

/-- The packet `bs` carries the datagram with its checksum cleared, behind the header of the
aggregate with the length, the protocol and the checksum put right. -/
structure RebuiltFrom (aggregate : List UInt8) (d : Datagram) (bs : List UInt8) : Prop where
  totLen_eq : totLenOf bs = bs.length
  protocol_eq : protocolOf bs = ipprotoUdp
  checksum : csum (words (bs.take sizeofIphdr)) = 0
  copied : ∀ i < sizeofIphdr, i ∉ [2, 3, 9, 10, 11] → bs[i]? = aggregate[i]?
  datagram : bs.drop sizeofIphdr = patch d.bytes 6 [0, 0]

private theorem rebuiltFrom_rebuilt_iff {iph : List UInt8} (hlen : iph.length = sizeofIphdr)
    (body : List UInt8) (d : Datagram) (hshort : sizeofIphdr + d.bytes.length < 65536)
    (t : UInt64) :
    RebuiltFrom (iph ++ body) d ((d.stamp t).rebuilt iph) ↔ t = d.timestamp := by
  obtain ⟨hheader, htot, hprotocol, hcsum, hother⟩ :=
    rebuildHeader_spec (by rw [hlen]) (by rw [hlen]; decide)
      (sizeofIphdr + (d.stamp t).bytes.length)
  rw [hlen] at hheader
  constructor
  · intro h
    have hdrop := h.datagram
    rw [Datagram.rebuilt, List.drop_left' hheader] at hdrop
    have hsame : (d.stamp t).uncheck = d.uncheck := Datagram.ext hdrop
    have htime := congrArg Datagram.timestamp hsame
    rwa [Datagram.timestamp_uncheck, Datagram.timestamp_uncheck, Datagram.timestamp_stamp] at htime
  · rintro rfl
    rw [d.stamp_timestamp] at *
    obtain ⟨-, htotLen, hproto, -⟩ :=
      fields_append (rebuildHeader iph (sizeofIphdr + d.bytes.length)) (by rw [hheader])
        d.uncheck.bytes
    refine ⟨?_, ?_, ?_, fun i hi hne => ?_, ?_⟩
    · rw [Datagram.rebuilt, htotLen, htot, Nat.mod_eq_of_lt hshort, List.length_append, hheader,
        d.length_uncheck]
    · rw [Datagram.rebuilt, hproto, hprotocol]
    · rw [Datagram.rebuilt, List.take_left' hheader, hcsum]
    · simp only [List.mem_cons, List.not_mem_nil, or_false, not_or] at hne
      rw [Datagram.rebuilt, List.getElem?_append_left (by rw [hheader]; exact hi),
        hother i (by omega), List.getElem?_append_left (by rw [hlen]; exact hi)]
    · rw [Datagram.rebuilt, List.drop_left' hheader]
      rfl

private theorem storedTimes_eq_self_iff (ts : List UInt64) :
    storedTimes ts = ts ↔ ts.IsChain fun t t' => t' - t = t := by
  have hreverse : storedTimes ts = ts ↔ deltas ts.reverse = ts.reverse := by
    rw [storedTimes, List.reverse_eq_iff]
  rw [hreverse, deltas_eq_self_iff, List.isChain_reverse]

/-- Datagrams with one `packet_t` each are counted right. -/
private theorem count_packets
    (h33 : ∀ o ∈ os, o.datagram.bytes.length = sizeofUdphdr + sizeofPacket) :
    (lens UdpPacket.datagram (os.map AppOutgoing.toOutgoing)).sum /
      (sizeofUdphdr + sizeofPacket) = os.length := by
  have hconst : lens UdpPacket.datagram (os.map AppOutgoing.toOutgoing) =
      os.map fun _ => sizeofUdphdr + sizeofPacket := by
    rw [lens, List.map_map]
    exact List.map_congr_left h33
  rw [hconst, List.map_const', List.sum_replicate_nat, Nat.mul_div_cancel _ (by decide)]

/-- Datagrams with one `packet_t` each, when the reads through the uninitialised pointer succeed. -/
private theorem appIdentity_iff_of_wild (hne : os ≠ []) (h27 : os.length ≤ maxScatters)
    (h33 : ∀ o ∈ os, o.datagram.bytes.length = sizeofUdphdr + sizeofPacket)
    (hadm : path.Admits size.toNat (lens UdpPacket.datagram (os.map AppOutgoing.toOutgoing)))
    (hwild : ∀ j < os.length - 1, (wild j).isSome) :
    AppDelivers ifaAddress sourceIp ip path size os wild RebuiltFrom ↔
      (os.map fun o => o.datagram.timestamp).IsChain fun t t' => t' - t = t := by
  obtain ⟨iph, body, hlen, hdelivers⟩ := appDelivers_iff ifaAddress sourceIp ip RebuiltFrom hne
    h27 hadm (count_packets h33) hwild
  have hrebuilt : ∀ o ∈ os, ∀ t, RebuiltFrom (iph ++ body) o.datagram
      ((o.datagram.stamp t).rebuilt iph) ↔ o.datagram.timestamp = t := by
    intro o ho t
    rw [rebuiltFrom_rebuilt_iff hlen body _ (by rw [h33 o ho]; decide), eq_comm]
  rw [hdelivers, ← storedTimes_eq_self_iff, eq_comm, ← List.forall₂_eq_eq_eq,
    List.forall₂_map_left_iff]
  simp only [List.forall₂_iff_zip]
  refine and_congr_right fun _ => ?_
  constructor
  · intro h o t hmem
    exact (hrebuilt o (List.of_mem_zip hmem).1 t).mp (h hmem)
  · intro h o t hmem
    exact (hrebuilt o (List.of_mem_zip hmem).1 t).mpr (h hmem)

/-- **When application aggregation is undone.** One to 27 datagrams with one `packet_t` each,
emitted on either path with no flush in between, come back in order as they were, behind headers
made from that of the aggregate, if and only if every read through the uninitialised pointer
succeeds and each timestamp but the last is its own difference to the next. -/
theorem appIdentity_iff (ifaAddress sourceIp ip : UInt32) (path : EmitPath) (size : UInt16)
    (os : List AppOutgoing) (wild : ℕ → Option UInt64) (hpos : 1 ≤ os.length)
    (h27 : os.length ≤ maxScatters)
    (h33 : ∀ o ∈ os, o.datagram.bytes.length = sizeofUdphdr + sizeofPacket)
    (hadm : path.Admits size.toNat (lens UdpPacket.datagram (os.map AppOutgoing.toOutgoing))) :
    AppDelivers ifaAddress sourceIp ip path size os wild RebuiltFrom ↔
      (∀ j < os.length - 1, (wild j).isSome) ∧
        (os.map fun o => o.datagram.timestamp).IsChain fun t t' => t' - t = t := by
  have hne := List.length_pos_iff.mp hpos
  by_cases hwild : ∀ j < os.length - 1, (wild j).isSome
  · rw [and_iff_right hwild]
    exact appIdentity_iff_of_wild hne h27 h33 hadm hwild
  · exact iff_of_false (fun h => hwild (h.counted hne hadm).2) fun h => hwild h.1

/-- Three datagrams that come back: each of the times is twice the time before it. -/
theorem appIdentity_three :
    AppDelivers 1 2 3 .flush 90 [⟨⟨nodePacket 5, 0, 0⟩, by decide⟩,
      ⟨⟨nodePacket 10, 16, 100⟩, by decide⟩, ⟨⟨nodePacket 20, 32, 200⟩, by decide⟩]
      (fun _ => some 0) RebuiltFrom :=
  (appIdentity_iff 1 2 3 .flush 90 [⟨⟨nodePacket 5, 0, 0⟩, by decide⟩,
    ⟨⟨nodePacket 10, 16, 100⟩, by decide⟩, ⟨⟨nodePacket 20, 32, 200⟩, by decide⟩]
    (fun _ => some 0) (by decide) (by decide) (by decide) ⟨by decide, by decide⟩).mpr
    ⟨by simp, by decide⟩

/-- Of two datagrams of different times the first comes back with the difference, even if the read
through the uninitialised pointer succeeds. -/
theorem appIdentity_lost_two :
    ¬ AppDelivers 1 2 3 .flush 60 [⟨⟨nodePacket 5, 0, 0⟩, by decide⟩,
      ⟨⟨nodePacket 7, 16, 100⟩, by decide⟩] (fun _ => some 0) RebuiltFrom := by
  have hadm : EmitPath.flush.Admits (60 : UInt16).toNat (lens UdpPacket.datagram
      [⟨nodePacket 5, 0, 0⟩, ⟨nodePacket 7, 16, 100⟩]) := ⟨by decide, by decide⟩
  intro h
  have htimes := (appIdentity_iff_of_wild (by simp) (by decide) (by decide) hadm (by simp)).mp h
  exact absurd htimes (by decide)

/-! ### Datagrams of any size -/

/-- The packet `bs` has the length of the datagram behind its header, and its bytes behind the
timestamp. -/
def SamePayload (d : Datagram) (bs : List UInt8) : Prop :=
  bs.length = sizeofIphdr + d.bytes.length ∧
    bs.drop (sizeofIphdr + (sizeofUdphdr + 8)) = d.bytes.drop (sizeofUdphdr + 8)

private theorem samePayload_rebuilt {iph : List UInt8} (hlen : iph.length = sizeofIphdr)
    (d : Datagram) (t : UInt64) : SamePayload d ((d.stamp t).rebuilt iph) := by
  obtain ⟨hheader, -⟩ := rebuildHeader_spec (by rw [hlen]) (by rw [hlen]; decide)
    (sizeofIphdr + (d.stamp t).bytes.length)
  rw [hlen] at hheader
  constructor
  · rw [Datagram.rebuilt, List.length_append, hheader, Datagram.length_uncheck, d.length_stamp]
  · have huncheck : (d.stamp t).uncheck.bytes.drop (sizeofUdphdr + 8) =
        (d.stamp t).bytes.drop (sizeofUdphdr + 8) :=
      drop_patch_of_ge (by decide) (d.stamp t).long
    have hstamp : (d.stamp t).bytes.drop (sizeofUdphdr + 8) = d.bytes.drop (sizeofUdphdr + 8) :=
      drop_patch_of_ge (by rw [length_be]) d.long
    rw [Datagram.rebuilt, ← List.drop_drop, List.drop_left' hheader, huncheck, hstamp]

/-- **When the datagrams are split right.** One to 27 datagrams of any lengths, emitted on either
path with no flush in between, come back as so many packets with the same lengths and the same
bytes behind the timestamp, if and only if their lengths, divided by that of a datagram with one
`packet_t`, give their number, and every read through the uninitialised pointer succeeds. -/
theorem appSplit_iff (ifaAddress sourceIp ip : UInt32) (path : EmitPath) (size : UInt16)
    (os : List AppOutgoing) (wild : ℕ → Option UInt64) (hpos : 1 ≤ os.length)
    (h27 : os.length ≤ maxScatters)
    (hadm : path.Admits size.toNat (lens UdpPacket.datagram (os.map AppOutgoing.toOutgoing))) :
    AppDelivers ifaAddress sourceIp ip path size os wild (fun _ => SamePayload) ↔
      (lens UdpPacket.datagram (os.map AppOutgoing.toOutgoing)).sum /
          (sizeofUdphdr + sizeofPacket) = os.length ∧
        ∀ j < os.length - 1, (wild j).isSome := by
  have hne := List.length_pos_iff.mp hpos
  constructor
  · exact fun h => h.counted hne hadm
  · rintro ⟨hcount, hwild⟩
    obtain ⟨iph, body, hlen, hdelivers⟩ := appDelivers_iff ifaAddress sourceIp ip
      (fun _ => SamePayload) hne h27 hadm hcount hwild
    rw [hdelivers, List.forall₂_iff_zip]
    exact ⟨by simp, fun _ => samePayload_rebuilt hlen _ _⟩

/-- Two datagrams with one `packet_t` each are split right, if the read succeeds. -/
theorem appSplit_two :
    AppDelivers 1 2 3 .flush 60 [⟨⟨nodePacket 5, 0, 0⟩, by decide⟩,
      ⟨⟨nodePacket 7, 16, 100⟩, by decide⟩] (fun _ => some 0)
      fun _ => SamePayload :=
  (appSplit_iff 1 2 3 .flush 60 [⟨⟨nodePacket 5, 0, 0⟩, by decide⟩,
    ⟨⟨nodePacket 7, 16, 100⟩, by decide⟩] (fun _ => some 0) (by decide) (by decide)
    ⟨by decide, by decide⟩).mpr ⟨by decide, by simp⟩

/-- A packet with nothing but a timestamp in its datagram. -/
def bareTimestamp (t : UInt64) : UdpPacket where
  bytes := [0x45, 0, 0, 36, 0, 0, 0, 0, 60, 17, 0, 0, 10, 0, 0, 1, 10, 0, 0, 2] ++
    [0x15, 0xb3, 0x15, 0xb3, 0, 16, 0, 0] ++ be 8 t.toNat
  ihl_ge := by change 5 ≤ leVal [0x45] % 16; decide
  totLen_eq := by change beVal [0, 36] = 36; decide
  protocol_eq := by change leVal [17] = 17; decide
  stamped := by change 4 * (leVal [0x45] % 16) + 8 + 8 ≤ 36; decide

/-- Two datagrams of 16 bytes are too short to be counted, and are lost. -/
theorem appSplit_lost_two :
    ¬ AppDelivers 1 2 3 .consuela 60 [⟨⟨bareTimestamp 5, 0, 0⟩, by decide⟩,
      ⟨⟨bareTimestamp 7, 16, 100⟩, by decide⟩] (fun _ => some 0)
      fun _ => SamePayload := by
  intro h
  have hcount := (h.counted (by simp) (show _ < _ by decide)).1
  exact absurd hcount (by decide)

end RoundTrip

end MiaVita
