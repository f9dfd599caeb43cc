import MiaVita.Rt2501.MultiHop

/-!
# The checksum that the driver leaves (`rt2501`, `sync_proto.c`)

A packet that a hook has rewritten needs a new UDP checksum, and `check_udp` computes one. The sum
is to be over the words of the addresses, the protocol, the length and the datagram, in the order of
the network. `check_udp` departs from this twice.

* Both hooks call it with `ntohs(ip->saddr)` and `ntohs(ip->daddr)`. That is the first half of each
  address only, with its two bytes swapped.
* The complement of the sum is stored as it is, so that on a little-endian machine the bytes of the
  checksum are swapped too.

Modulo `2 ^ 16 - 1` to swap the bytes of a word is to multiply it by `256`, and to swap them twice
is nothing. So the first halves of the addresses come out right, their second halves are missing,
and the rest is counted `256` times instead of once. `validUdpCheck_iff` is what is left of it: the
checksum is right if and only if the second halves make up for the `255` surplus copies. Where there
is no memory for the pseudo header, the old checksum stays, and is right only by chance. The pseudo
header itself, the padding and the carries are all in order (`pseudoHdr_eq`, `foldl_readdCarry`).

The conditions are on the packet as the hook found it. What it writes into the datagram before it
calls `check_udp` are the fields of its `packet_t` (`rewrittenOut`, `rewrittenIn`), whether the
datagram is long enough for them or not: behind a short one they go to the rest of the buffer, which
has 2342 bytes for a frame.
-/

namespace MiaVita.Rt2501

open Bytes Memory OnesComplement Fallible

/-! ### The checksum as it should be -/

/-- A zero byte fills up the last word. -/
def padEven (bs : List UInt8) : List UInt8 := bs ++ List.replicate (bs.length % 2) 0

/-- What the checksum is over: the two addresses, zero, the protocol, the length, and the datagram
with its checksum. -/
def checkedBytes (m : List UInt8) (iph udph : ℕ) : List UInt8 :=
  slice m (iph + 12) 8 ++ [0, 17] ++ be 2 (udpLenAt m udph) ++
    padEven (slice m udph (udpLenAt m udph))

/-- The checksum field, as it goes over the network. -/
def udpCheckAt (m : List UInt8) (udph : ℕ) : ℕ := beVal (slice m (udph + 6) 2)

/-- The datagram at an address has a checksum that a receiver accepts. -/
structure ValidUdpCheck (m : List UInt8) (iph udph : ℕ) : Prop where
  sum_eq : foldCarry (netWords (checkedBytes m iph udph)).sum = 0xFFFF
  ne_zero : udpCheckAt m udph ≠ 0

instance (m : List UInt8) (iph udph : ℕ) : Decidable (ValidUdpCheck m iph udph) :=
  decidable_of_iff (_ ∧ _) ⟨fun h => ⟨h.1, h.2⟩, fun h => ⟨h.1, h.2⟩⟩

/-- The words of the datagram, without its checksum. -/
def datagramSum (m : List UInt8) (udph : ℕ) : ℕ :=
  (netWords (slice m udph 6)).sum +
    (netWords (padEven (slice m (udph + 8) (udpLenAt m udph - 8)))).sum

/-- The words of the two addresses. -/
def addrSum (m : List UInt8) (iph : ℕ) : ℕ :=
  beVal (slice m (iph + 12) 2) + beVal (slice m (iph + 14) 2) +
    (beVal (slice m (iph + 16) 2) + beVal (slice m (iph + 18) 2))

/-- The second halves of the addresses make up for what `check_udp` counts `255` times too often. -/
def HalvesMakeUp (m : List UInt8) (iph udph : ℕ) : Prop :=
  (beVal (slice m (iph + 14) 2) + beVal (slice m (iph + 18) 2)) % 65535 =
    255 * (17 + udpLenAt m udph + datagramSum m udph) % 65535

instance (m : List UInt8) (iph udph : ℕ) : Decidable (HalvesMakeUp m iph udph) :=
  inferInstanceAs (Decidable (_ = _))

/-- The checksum that the packet has is the right one: it is there, and with it the words add up. -/
def OldCheckFits (m : List UInt8) (iph udph : ℕ) : Prop :=
  udpCheckAt m udph ≠ 0 ∧
    (addrSum m iph + (17 + udpLenAt m udph + datagramSum m udph) + udpCheckAt m udph) % 65535 = 0

instance (m : List UInt8) (iph udph : ℕ) : Decidable (OldCheckFits m iph udph) :=
  inferInstanceAs (Decidable (_ ∧ _))

/-- What has to hold of the packet that `check_udp` is given, with or without memory for the pseudo
header. -/
def CheckComesOut (kmalloc : Bool) (m : List UInt8) (iph udph : ℕ) : Prop :=
  if kmalloc then HalvesMakeUp m iph udph else OldCheckFits m iph udph

/-! ### Words -/

private theorem netWords_append {as : List UInt8} (h : as.length % 2 = 0) (bs : List UInt8) :
    netWords (as ++ bs) = netWords as ++ netWords bs := by
  fun_induction netWords as with
  | case1 a b as ih =>
    rw [List.length_cons, List.length_cons] at h
    rw [List.cons_append, List.cons_append, netWords, ih (by omega), List.cons_append]
  | case2 as has =>
    match as, has with
    | [], _ => rfl
    | [a], _ => cases h
    | a :: b :: as, has => exact absurd rfl (has a b as)

private theorem netWords_lt {bs : List UInt8} {w : ℕ} (h : w ∈ netWords bs) : w < 65536 := by
  fun_induction netWords bs with
  | case1 a b bs ih =>
    rcases List.mem_cons.mp h with rfl | h
    · exact beVal_slice_two_lt [a, b] 0
    · exact ih h
  | case2 bs => cases h

private theorem two_mul_sum_netWords_le (bs : List UInt8) :
    2 * (netWords bs).sum ≤ 65535 * bs.length := by
  fun_induction netWords bs with
  | case1 a b bs ih =>
    have hw : beVal [a, b] < 65536 := beVal_slice_two_lt [a, b] 0
    rw [List.sum_cons, List.length_cons, List.length_cons]
    omega
  | case2 bs => exact Nat.zero_le _

private theorem netWords_of_length_two {bs : List UInt8} (h : bs.length = 2) :
    netWords bs = [beVal bs] := by
  obtain ⟨a, b, rfl⟩ := List.length_eq_two.mp h
  rfl

private theorem length_padEven (bs : List UInt8) :
    (padEven bs).length = bs.length + bs.length % 2 := by
  rw [padEven, List.length_append, List.length_replicate]

/-- The padding is that of the last part. -/
private theorem padEven_append {as : List UInt8} (h : as.length % 2 = 0) (bs : List UInt8) :
    padEven (as ++ bs) = as ++ padEven bs := by
  rw [padEven, padEven, List.length_append, ← List.append_assoc]
  congr 2
  omega

/-- To store a word in the other order is to multiply it by `256`. -/
private theorem beVal_le_two {c : ℕ} (h : c < 65536) :
    beVal (le 2 c) % 65535 = 256 * c % 65535 ∧ (beVal (le 2 c) = 0 ↔ c = 0) := by
  have hval : beVal (le 2 c) = c / 256 + 256 * (c % 256) := by
    change (UInt8.ofNat (c / 256)).toNat + 256 * ((UInt8.ofNat c).toNat + 256 * 0) = _
    rw [UInt8.toNat_ofNat', UInt8.toNat_ofNat']
    omega
  omega

/-- The words of what `ntohs` leaves of an address. -/
private theorem sum_netWords_le_four {a : ℕ} (h : a < 65536) :
    (netWords (le 4 a)).sum % 65535 = 256 * a % 65535 := by
  have hzero : le 2 (a / 256 / 256) = [0, 0] := by
    rw [Nat.div_div_eq_div_mul, Nat.div_eq_of_lt h]
    rfl
  change (netWords (le 2 a ++ le 2 (a / 256 / 256))).sum % 65535 = _
  rw [netWords_append (by rw [length_le]), netWords_of_length_two (length_le 2 a), hzero]
  change (beVal (le 2 a) + 0) % 65535 = _
  exact (beVal_le_two h).1

/-! ### The sum -/

private theorem readdCarry_add {s w : ℕ} (hs : s < 65536) (hw : w < 65536) :
    readdCarry (s + w) = if s + w < 65536 then s + w else s + w - 65535 := by
  rw [readdCarry]
  split_ifs with hcarry hlt
  · omega
  · -- with the carry added there is no second one
    rw [readdCarry, if_neg (by omega)]
    omega
  · rfl
  · omega

/-- **The sum is kept in 16 bits**: adding the carry after each word neither changes the sum modulo
`2 ^ 16 - 1` nor makes it `0`. -/
theorem foldl_readdCarry {ws : List ℕ} (hws : ∀ w ∈ ws, w < 65536) {s : ℕ} (hs : s < 65536) :
    ws.foldl (fun sum w => readdCarry (sum + w)) s < 65536 ∧
      ws.foldl (fun sum w => readdCarry (sum + w)) s % 65535 = (s + ws.sum) % 65535 := by
  induction ws generalizing s with
  | nil => exact ⟨hs, rfl⟩
  | cons w ws ih =>
    have hw : w < 65536 := hws w List.mem_cons_self
    have hcarry := readdCarry_add hs hw
    obtain ⟨hlt, hmod⟩ := ih (fun w' hw' => hws w' (List.mem_cons_of_mem w hw'))
      (s := readdCarry (s + w)) (by rw [hcarry]; split_ifs <;> omega)
    refine ⟨hlt, ?_⟩
    rw [List.foldl_cons, hmod, List.sum_cons, hcarry]
    split_ifs <;> omega

/-! ### The pseudo header -/

private theorem pseudoHdrLen_eq {len : ℕ} (h : 8 ≤ len) (hlt : len < 65536) :
    2 * pseudoHdrLen len = 12 + (len + len % 2) := by
  simp only [pseudoHdrLen, sizeofUdphdr]
  split_ifs <;> omega

/-- **The pseudo header** is laid out as it should be, whatever is taken for the addresses: the
length overwrites the second byte of the protocol, and a datagram of odd length is padded. -/
theorem pseudoHdr_eq {m : List UInt8} {udph : ℕ} (h : udph + 8 ≤ m.length)
    (hlen : 8 ≤ udpLenAt m udph) (hfits : udph + udpLenAt m udph ≤ m.length) (saddr daddr : ℕ) :
    pseudoHdr m udph saddr daddr =
      .ok (le 4 saddr ++ le 4 daddr ++ [0, 17] ++ be 2 (udpLenAt m udph) ++
        padEven (slice m udph (udpLenAt m udph))) := by
  have hlt : udpLenAt m udph < 65536 := beVal_slice_two_lt m (udph + 4)
  have hfield : slice m (udph + 4) 2 = be 2 (udpLenAt m udph) := by
    have hbe := be_beVal (slice m (udph + 4) 2)
    rwa [length_slice (by omega), eq_comm] at hbe
  have hdatagram : (slice m udph (udpLenAt m udph)).length = udpLenAt m udph := length_slice hfits
  rw [pseudoHdr, udpLen_at (by omega), ok_bind, pseudoHdrLen_eq hlen hlt, List.replicate_add,
    store_left _ (Nat.le_of_ble_eq_true rfl), ok_bind, store_left _ (Nat.le_of_ble_eq_true rfl),
    ok_bind, store_left _ (Nat.le_of_ble_eq_true rfl), ok_bind, load_eq (by omega), ok_bind, hfield,
    store_left _ (Nat.le_of_ble_eq_true rfl), ok_bind, load_eq hfits, ok_bind, padEven, hdatagram]
  -- the four writes to the first twelve bytes
  change store (le 4 saddr ++ le 4 daddr ++ [0, 17] ++ be 2 (udpLenAt m udph) ++ _) 12
    (slice m udph (udpLenAt m udph)) = _
  nth_rewrite 2 [← hdatagram]
  rw [← hdatagram]
  exact store_fresh_mid _ _ _

/-- The words of a pseudo header and the datagram behind it, added up. -/
private theorem sum_netWords_pseudoHdr {m : List UInt8} {udph : ℕ} (hlen : 8 ≤ udpLenAt m udph)
    (hfits : udph + udpLenAt m udph ≤ m.length) {addrs : List UInt8}
    (haddrs : addrs.length % 2 = 0) :
    (netWords (addrs ++ [0, 17] ++ be 2 (udpLenAt m udph) ++
        padEven (slice m udph (udpLenAt m udph)))).sum =
      (netWords addrs).sum + (17 + udpLenAt m udph + datagramSum m udph) + udpCheckAt m udph := by
  have hlt : udpLenAt m udph < 256 ^ 2 := beVal_slice_two_lt m (udph + 4)
  have hbe : (be 2 (udpLenAt m udph)).length = 2 := length_be 2 _
  have hproto : (addrs ++ [0, 17]).length = addrs.length + 2 := List.length_append
  have hports : (slice m udph 6).length = 6 := length_slice (by omega)
  have hcheck : (slice m (udph + 6) 2).length = 2 := length_slice (by omega)
  -- the datagram is cut before and behind its checksum
  have hcut : slice m udph (udpLenAt m udph) =
      slice m udph 6 ++ (slice m (udph + 6) 2 ++ slice m (udph + 8) (udpLenAt m udph - 8)) := by
    obtain ⟨n, hn⟩ : ∃ n, udpLenAt m udph = 6 + (2 + n) := ⟨udpLenAt m udph - 8, by omega⟩
    rw [hn, slice_add, slice_add]
    congr 3
    omega
  rw [hcut, padEven_append (by rw [hports]), padEven_append (by rw [hcheck]),
    netWords_append (by rw [List.length_append, hproto, hbe]; omega),
    netWords_append (by rw [hproto]; omega),
    netWords_append haddrs, netWords_append (by rw [hports]), netWords_append (by rw [hcheck]),
    netWords_of_length_two hbe, netWords_of_length_two hcheck, beVal_be_of_lt hlt]
  simp only [List.sum_append, List.sum_cons, List.sum_nil, datagramSum, udpCheckAt]
  change _ + (17 + 0) + _ + _ = _
  omega

/-- The words of the two addresses. -/
private theorem sum_netWords_addrs {m : List UInt8} {iph : ℕ} (h : iph + 20 ≤ m.length) :
    (netWords (slice m (iph + 12) 8)).sum = addrSum m iph := by
  have hcut : slice m (iph + 12) 8 = slice m (iph + 12) 2 ++ (slice m (iph + 14) 2 ++
      (slice m (iph + 16) 2 ++ slice m (iph + 18) 2)) := by
    rw [← slice_add, ← slice_add, ← slice_add]
  have htwo : ∀ i ≤ 18, (slice m (iph + i) 2).length = 2 := fun i hi => length_slice (by omega)
  have h₁ := htwo 12 (by decide)
  have h₂ := htwo 14 (by decide)
  have h₃ := htwo 16 (by decide)
  have h₄ := htwo 18 (by decide)
  rw [hcut, netWords_append (by rw [h₁]), netWords_append (by rw [h₂]),
    netWords_append (by rw [h₃]), netWords_of_length_two h₁, netWords_of_length_two h₂,
    netWords_of_length_two h₃, netWords_of_length_two h₄, addrSum]
  simp only [List.sum_append, List.sum_cons, List.sum_nil]
  omega

private theorem length_checkedBytes {m : List UInt8} {iph udph : ℕ} (hiph : iph + 20 ≤ m.length)
    (hfits : udph + udpLenAt m udph ≤ m.length) :
    (checkedBytes m iph udph).length = 12 + (udpLenAt m udph + udpLenAt m udph % 2) := by
  have haddrs : (slice m (iph + 12) 8).length = 8 := length_slice (by omega)
  rw [checkedBytes, List.length_append, length_padEven, length_slice hfits, List.length_append,
    List.length_append, haddrs, length_be]
  rfl

/-- The checksum is all that `check_udp` writes. -/
private theorem sums_of_frame {m m' : List UInt8} {udph : ℕ}
    (h : Frame (fun k => udph + 6 ≤ k ∧ k < udph + 8) m m') :
    udpLenAt m' udph = udpLenAt m udph ∧ datagramSum m' udph = datagramSum m udph := by
  have hlen : udpLenAt m' udph = udpLenAt m udph := by
    rw [udpLenAt, h.slice_eq fun k h₁ h₂ => by omega, udpLenAt]
  refine ⟨hlen, ?_⟩
  rw [datagramSum, hlen, h.slice_eq fun k h₁ h₂ => by omega,
    h.slice_eq fun k h₁ h₂ => by omega, datagramSum]

/-- **What `check_udp` stores** is the complement of its sum with the bytes swapped, and never
`0`. -/
theorem checkUdp_spec {m m' : List UInt8} {udph saddr daddr : ℕ} (hlen : 8 ≤ udpLenAt m udph)
    (hfits : udph + udpLenAt m udph ≤ m.length)
    (h : checkUdp true m udph saddr daddr = .ok m') :
    udpCheckAt m' udph ≠ 0 ∧
      (udpCheckAt m' udph + 256 * ((netWords (le 4 saddr ++ le 4 daddr)).sum +
        (17 + udpLenAt m' udph + datagramSum m' udph))) % 65535 = 0 := by
  obtain ⟨len, -, h⟩ := bind_eq_ok.mp h
  rw [if_pos rfl] at h
  obtain ⟨m₁, hm₁, h⟩ := bind_eq_ok.mp h
  obtain ⟨-, hzero, hframe₁⟩ := store_spec hm₁
  -- the sum is over the datagram with `0` for its checksum
  obtain ⟨hlen₁, -⟩ := sums_of_frame hframe₁
  have hlength₁ := hframe₁.length_eq
  rw [pseudoHdr_eq (by omega) (by omega) (by omega), ok_bind] at h
  obtain ⟨-, hcheck, hframe⟩ := store_spec h
  rw [length_le] at hcheck hframe
  obtain ⟨hlen', hsum'⟩ := sums_of_frame hframe
  have hzero : udpCheckAt m₁ udph = 0 := congrArg beVal hzero
  have hge₁ : 8 ≤ udpLenAt m₁ udph := by omega
  have haddrs : (le 4 saddr ++ le 4 daddr).length % 2 = 0 := by
    rw [List.length_append, length_le, length_le]
  have hsum := sum_netWords_pseudoHdr hge₁ (by omega) haddrs
  obtain ⟨ws, hws⟩ : ∃ ws, ws = netWords (le 4 saddr ++ le 4 daddr ++ [0, 17] ++
      be 2 (udpLenAt m₁ udph) ++ padEven (slice m₁ udph (udpLenAt m₁ udph))) := ⟨_, rfl⟩
  have hlt : ∀ w ∈ ws, w < 65536 := by
    rw [hws]
    exact fun w hw => netWords_lt hw
  obtain ⟨hS, hmod⟩ := foldl_readdCarry hlt (s := 0) (by decide)
  rw [← hws] at hcheck hsum
  generalize ws.foldl (fun sum w => readdCarry (sum + w)) 0 = S at hcheck hS hmod
  obtain ⟨c, hc⟩ : ∃ c, c = if 65535 - S % 65536 = 0 then 0xFFFF else 65535 - S % 65536 := ⟨_, rfl⟩
  -- `0` and `0xFFFF` are the same modulo 65535, so that the last test does no harm
  have hcompl : c ≠ 0 ∧ c < 65536 ∧ (c + S) % 65535 = 0 := by
    rw [hc]
    split_ifs <;> omega
  obtain ⟨hswap, hne⟩ := beVal_le_two hcompl.2.1
  rw [← hc] at hcheck
  have hval : udpCheckAt m' udph = beVal (le 2 c) := congrArg beVal hcheck
  rw [hval, hlen', hsum']
  refine ⟨fun h => hcompl.1 (hne.mp h), ?_⟩
  rw [hsum, hzero] at hmod
  omega

/-- **When a receiver accepts a checksum**: it is there, and the words add up to a multiple of
`2 ^ 16 - 1`. -/
theorem validUdpCheck_iff_oldCheckFits {m : List UInt8} {iph udph : ℕ} (hiph : iph + 20 ≤ m.length)
    (hlen : 8 ≤ udpLenAt m udph) (hfits : udph + udpLenAt m udph ≤ m.length) :
    ValidUdpCheck m iph udph ↔ OldCheckFits m iph udph := by
  have hlt : udpLenAt m udph < 65536 := beVal_slice_two_lt m (udph + 4)
  have haddrs : (slice m (iph + 12) 8).length = 8 := length_slice (by omega)
  have hsum := sum_netWords_pseudoHdr hlen hfits (by rw [haddrs])
  rw [← checkedBytes, sum_netWords_addrs (by omega)] at hsum
  have hle := two_mul_sum_netWords_le (checkedBytes m iph udph)
  rw [length_checkedBytes hiph hfits] at hle
  have hones := foldCarry_eq_ones_iff (s := (netWords (checkedBytes m iph udph)).sum) (by omega)
  rw [OldCheckFits, ← hsum]
  constructor
  · exact fun h => ⟨h.ne_zero, (hones.mp h.sum_eq).2⟩
  · exact fun h => ⟨hones.mpr ⟨by omega, h.2⟩, h.1⟩

/-- **When the checksum is right**: the second halves of the addresses have to make up for the
surplus. -/
theorem validUdpCheck_checkUdp_iff {m m' : List UInt8} {iph udph : ℕ} (hiph : iph + 20 ≤ udph)
    (hlen : 8 ≤ udpLenAt m udph) (hfits : udph + udpLenAt m udph ≤ m.length)
    (h : checkUdp true m udph (beVal (slice m (iph + 12) 2)) (beVal (slice m (iph + 16) 2)) =
      .ok m') :
    udpCheckAt m' udph ≠ 0 ∧ (ValidUdpCheck m' iph udph ↔ HalvesMakeUp m iph udph) := by
  obtain ⟨hne, hcheck⟩ := checkUdp_spec hlen hfits h
  refine ⟨hne, ?_⟩
  have hframe := frame_checkUdp h
  have hlength := hframe.length_eq
  obtain ⟨hlen', hsum'⟩ := sums_of_frame hframe
  have haddr : ∀ i ≤ 18, slice m' (iph + i) 2 = slice m (iph + i) 2 := fun i hi =>
    hframe.slice_eq fun k h₁ h₂ => by omega
  have haddrSum : addrSum m' iph = addrSum m iph := by
    rw [addrSum, haddr 12 (by decide), haddr 14 (by decide), haddr 16 (by decide),
      haddr 18 (by decide), addrSum]
  -- what `check_udp` takes for the addresses
  have hsaddr := sum_netWords_le_four (beVal_slice_two_lt m (iph + 12))
  have hdaddr := sum_netWords_le_four (beVal_slice_two_lt m (iph + 16))
  rw [netWords_append (by rw [length_le]), List.sum_append, hlen', hsum'] at hcheck
  rw [validUdpCheck_iff_oldCheckFits (by omega) (by omega) (by omega), OldCheckFits,
    and_iff_right hne, haddrSum, hlen', hsum', HalvesMakeUp, addrSum]
  -- 256 * 256 is 1 modulo 65535
  omega

/-- Without memory for the pseudo header the packet stays as it is. -/
private theorem checkUdp_false {m m' : List UInt8} {udph saddr daddr : ℕ}
    (h : checkUdp false m udph saddr daddr = .ok m') : m' = m := by
  obtain ⟨len, -, h⟩ := bind_eq_ok.mp h
  cases h
  rfl

/-! ### The hooks -/

/-- A UDP packet with all of its datagram, which may be of any length. -/
structure WholeUdpIp extends UdpIp where
  len_ge : sizeofUdphdr ≤ udpLenAt bytes (4 * ihlOf bytes)
  len_le : 4 * ihlOf bytes + udpLenAt bytes (4 * ihlOf bytes) ≤ bytes.length

/-- The packet that `check_udp` is given on the way in: its timestamp is a time of creation. -/
def rewrittenIn (now : UInt64) (m : List UInt8) (udph : ℕ) : List UInt8 :=
  patch m (udph + 8) (be 8 (now - timestampAt m (udph + 8)).toNat)

/-- The packet that `check_udp` is given on the way out: its timestamp is an age, its time on the
air has grown, and the counters that have changed are stored. -/
def rewrittenOut (pad : Adapter) (now : UInt64) (st : Statics) (m : List UInt8) (iph udph : ℕ) :
    List UInt8 :=
  let m := rewrittenIn now m udph
  let m := patch m (udph + 16)
    (be 8 (airAt m (udph + 8) + UInt64.ofNat (airTime pad (totLenAt m iph))).toNat)
  let m := if st.lastFails ≠ pad.failedCount then
    patch m (udph + 28) [(st.lastFails - pad.failedCount).toUInt8] else m
  if st.lastRetries ≠ pad.retryCount then
    patch m (udph + 29) [(st.lastRetries - pad.retryCount).toUInt8] else m

private theorem eq_patch_of_store {m m' xs : List UInt8} {i : ℕ} (h : store m i xs = .ok m') :
    m' = patch m i xs := by
  rw [store_eq (store_spec h).1] at h
  exact (Except.ok.inj h).symm

private theorem eq_patch_of_storeChange {m m' : List UInt8} {i : ℕ} {last count : UInt32}
    (h : storeChange m i last count = .ok m') :
    m' = if last ≠ count then patch m i [(last - count).toUInt8] else m := by
  rw [storeChange] at h
  split_ifs at h ⊢
  · exact eq_patch_of_store h
  · exact (Except.ok.inj h).symm

/-- The hook for packets that come in ends in `check_udp`. -/
private theorem checkUdp_of_stampIn {now : UInt64} {kmalloc : Bool} {m m' : List UInt8}
    {iph udph : ℕ} (h : stampIn now kmalloc m iph udph = .ok m') :
    checkUdp kmalloc (rewrittenIn now m udph) udph
      (beVal (slice (rewrittenIn now m udph) (iph + 12) 2))
      (beVal (slice (rewrittenIn now m udph) (iph + 16) 2)) = .ok m' := by
  obtain ⟨ts, hts, h⟩ := bind_eq_ok.mp h
  obtain ⟨m₁, hm₁, h⟩ := bind_eq_ok.mp h
  obtain ⟨saddr, hsaddr, h⟩ := bind_eq_ok.mp h
  obtain ⟨daddr, hdaddr, h⟩ := bind_eq_ok.mp h
  obtain ⟨-, rfl⟩ := load_eq_ok.mp hts
  obtain ⟨-, rfl⟩ := load_eq_ok.mp hsaddr
  obtain ⟨-, rfl⟩ := load_eq_ok.mp hdaddr
  obtain rfl : m₁ = rewrittenIn now m udph := eq_patch_of_store hm₁
  exact h

/-- So does the hook for packets that go out. -/
private theorem checkUdp_of_stampOut {pad : Adapter} {now : UInt64} {kmalloc : Bool}
    {st st' : Statics} {m m' : List UInt8} {iph udph : ℕ}
    (h : stampOut pad now kmalloc st m iph udph = .ok (m', st')) :
    checkUdp kmalloc (rewrittenOut pad now st m iph udph) udph
      (beVal (slice (rewrittenOut pad now st m iph udph) (iph + 12) 2))
      (beVal (slice (rewrittenOut pad now st m iph udph) (iph + 16) 2)) = .ok m' := by
  obtain ⟨ts, hts, h⟩ := bind_eq_ok.mp h
  obtain ⟨m₀, hm₀, h⟩ := bind_eq_ok.mp h
  obtain ⟨air, hair, h⟩ := bind_eq_ok.mp h
  obtain ⟨totLen, htotLen, h⟩ := bind_eq_ok.mp h
  obtain ⟨m₁, hm₁, h⟩ := bind_eq_ok.mp h
  obtain ⟨m₂, hm₂, h⟩ := bind_eq_ok.mp h
  obtain ⟨m₃, hm₃, h⟩ := bind_eq_ok.mp h
  obtain ⟨saddr, hsaddr, h⟩ := bind_eq_ok.mp h
  obtain ⟨daddr, hdaddr, h⟩ := bind_eq_ok.mp h
  obtain ⟨m₄, hm₄, h⟩ := bind_eq_ok.mp h
  cases h
  obtain ⟨-, rfl⟩ := load_eq_ok.mp hts
  obtain ⟨-, rfl⟩ := load_eq_ok.mp hair
  obtain ⟨-, rfl⟩ := load_eq_ok.mp htotLen
  obtain ⟨-, rfl⟩ := load_eq_ok.mp hsaddr
  obtain ⟨-, rfl⟩ := load_eq_ok.mp hdaddr
  obtain rfl : m₀ = rewrittenIn now m udph := eq_patch_of_store hm₀
  obtain rfl := eq_patch_of_store hm₁
  obtain rfl := eq_patch_of_storeChange hm₂
  obtain rfl : m₃ = rewrittenOut pad now st m iph udph := eq_patch_of_storeChange hm₃
  exact hm₄

/-- The length of the datagram is not written to on the way to its checksum. -/
private theorem validUdpCheck_of_frame {kmalloc : Bool} {m m₁ m' : List UInt8} {iph udph : ℕ}
    (hiph : iph + 20 ≤ udph) (hlen : 8 ≤ udpLenAt m udph)
    (hfits : udph + udpLenAt m udph ≤ m.length) (hframe : Frame (fun k => udph + 6 ≤ k) m m')
    (hcheck : checkUdp kmalloc m₁ udph (beVal (slice m₁ (iph + 12) 2))
      (beVal (slice m₁ (iph + 16) 2)) = .ok m') :
    (kmalloc = true → udpCheckAt m' udph ≠ 0) ∧
      (ValidUdpCheck m' iph udph ↔ CheckComesOut kmalloc m₁ iph udph) := by
  have hframe₁ := frame_checkUdp hcheck
  have hlength := hframe.length_eq
  have hlength₁ := hframe₁.length_eq
  obtain ⟨hlen₁, -⟩ := sums_of_frame hframe₁
  have hlen' : udpLenAt m' udph = udpLenAt m udph := by
    rw [udpLenAt, hframe.slice_eq fun k h₁ h₂ => by omega, udpLenAt]
  cases kmalloc with
  | false =>
    obtain rfl := checkUdp_false hcheck
    exact ⟨fun h => absurd h Bool.false_ne_true,
      validUdpCheck_iff_oldCheckFits (by omega) (by omega) (by omega)⟩
  | true =>
    obtain ⟨hne, hiff⟩ := validUdpCheck_checkUdp_iff hiph (by omega) (by omega) hcheck
    exact ⟨fun _ => hne, hiff⟩

/-- What is behind a packet does not change the lengths that it states. -/
private theorem WholeUdpIp.lengths_append (p : WholeUdpIp) (room : List UInt8) :
    ihlOf (p.bytes ++ room) = ihlOf p.bytes ∧
      udpLenAt (p.bytes ++ room) (4 * ihlOf (p.bytes ++ room)) =
        udpLenAt p.bytes (4 * ihlOf p.bytes) := by
  have hheaders : 4 * ihlOf p.bytes + 8 ≤ p.bytes.length := p.headers
  have hihl := (MiaVita.fields_append p.bytes p.long.1 room).1
  refine ⟨hihl, ?_⟩
  rw [hihl, udpLenAt, slice_append_left (by omega), udpLenAt]

/-- A packet in a buffer that goes on behind it. -/
def WholeUdpIp.inBuffer (p : WholeUdpIp) (room : List UInt8) : WholeUdpIp where
  bytes := p.bytes ++ room
  ihl_ge := p.ihl_ge.trans_eq (p.lengths_append room).1.symm
  protocol_eq := (MiaVita.fields_append p.bytes p.long.1 room).2.2.1.trans p.protocol_eq
  headers := (congrArg (4 * · + sizeofUdphdr) (p.lengths_append room).1).trans_le
    (p.headers.trans (List.sublist_append_left _ _).length_le)
  len_ge := p.len_ge.trans_eq (p.lengths_append room).2.symm
  len_le := (congrArg₂ (4 * · + ·) (p.lengths_append room).1 (p.lengths_append room).2).trans_le
    (p.len_le.trans (List.sublist_append_left _ _).length_le)

/-- The filters do not look behind the packet. -/
private theorem WholeUdpIp.taken_inBuffer {filters : List Filter} (p : WholeUdpIp)
    (htaken : Taken filters p.bytes) (room : List UInt8) :
    Taken filters (p.inBuffer room).bytes := by
  obtain ⟨f, hf, hmatches⟩ := htaken
  have hihl := p.ihl_ge
  have hheaders : 4 * ihlOf p.bytes + 8 ≤ p.bytes.length := p.headers
  obtain ⟨hihl', -, -, hdaddr⟩ := MiaVita.fields_append p.bytes p.long.1 room
  have hsaddr : saddrOf (p.bytes ++ room) = saddrOf p.bytes := by
    rw [saddrOf, slice_append_left (by omega), saddrOf]
  have hdport : dportOf (p.bytes ++ room) (4 * ihlOf p.bytes) =
      dportOf p.bytes (4 * ihlOf p.bytes) := by
    rw [dportOf, slice_append_left (by omega), dportOf]
  have hsport : sportOf (p.bytes ++ room) (4 * ihlOf p.bytes) =
      sportOf p.bytes (4 * ihlOf p.bytes) := by
    rw [sportOf, slice_append_left (by omega), sportOf]
  refine ⟨f, hf, ?_⟩
  change f.MatchesAddrs (p.bytes ++ room) ∨ f.MatchesPorts (p.bytes ++ room)
  rw [Filter.MatchesAddrs, Filter.MatchesPorts, hihl', hdaddr, hsaddr, hdport, hsport]
  exact hmatches

section Hooks

variable (filters : List Filter) (pad : Adapter) (hadhoc : pad.adhocOn) (p : WholeUdpIp)
  (htaken : Taken filters p.bytes)
include hadhoc htaken

private theorem validUdpCheck_synchOut_iff (hroom : 4 * ihlOf p.bytes + 30 ≤ p.bytes.length)
    (now : UInt64) (kmalloc : Bool) (st : Statics) (tx : TxHeader) :
    ∃ m' st', synchOutDataPacket filters pad now kmalloc st (tx.bytes ++ p.bytes) = .ok (m', st') ∧
      (kmalloc = true → udpCheckAt m' (56 + 4 * ihlOf p.bytes) ≠ 0) ∧
      (ValidUdpCheck m' 56 (56 + 4 * ihlOf p.bytes) ↔
        CheckComesOut kmalloc (rewrittenOut pad now st (tx.bytes ++ p.bytes) 56
          (56 + 4 * ihlOf p.bytes)) 56 (56 + 4 * ihlOf p.bytes)) := by
  have hihl := p.ihl_ge
  have hge : 8 ≤ udpLenAt p.bytes (4 * ihlOf p.bytes) := p.len_ge
  have hle := p.len_le
  have hudpLen := tx.udpLenAt_append p.bytes (4 * ihlOf p.bytes)
  have hlength := tx.length_append p.bytes
  rw [synchOutDataPacket_of_taken filters now kmalloc hadhoc st tx htaken]
  obtain ⟨⟨m', st'⟩, hm'⟩ : Safe (stampOut pad now kmalloc st (tx.bytes ++ p.bytes) 56
      (56 + 4 * ihlOf p.bytes)) :=
    safe_stampOut (by omega) (by omega) (by omega) pad now kmalloc st
  have hframe := (stampOut_spec (by omega) hm').frame
  exact ⟨m', st', hm', validUdpCheck_of_frame (by omega) (by omega) (by omega)
    (hframe.mono fun k hk => by omega) (checkUdp_of_stampOut hm')⟩

private theorem validUdpCheck_synchIn_iff (hroom : 4 * ihlOf p.bytes + 16 ≤ p.bytes.length)
    (now : UInt64) (kmalloc : Bool) (eth : EthHeader) :
    ∃ m', synchInDataPacket filters pad now kmalloc eth.bytes p.bytes = .ok m' ∧
      (kmalloc = true → udpCheckAt m' (4 * ihlOf p.bytes) ≠ 0) ∧
      (ValidUdpCheck m' 0 (4 * ihlOf p.bytes) ↔
        CheckComesOut kmalloc (rewrittenIn now p.bytes (4 * ihlOf p.bytes)) 0
          (4 * ihlOf p.bytes)) := by
  have hihl := p.ihl_ge
  have hge : 8 ≤ udpLenAt p.bytes (4 * ihlOf p.bytes) := p.len_ge
  have hle := p.len_le
  rw [synchInDataPacket_of_taken filters now kmalloc hadhoc eth htaken]
  obtain ⟨m', hm'⟩ : Safe (stampIn now kmalloc p.bytes 0 (4 * ihlOf p.bytes)) :=
    safe_stampIn (by omega) (by omega) (by omega) now kmalloc
  have hframe := (stampIn_spec hm').frame
  exact ⟨m', hm', validUdpCheck_of_frame (by omega) (by omega) (by omega)
    (hframe.mono fun k hk => by omega) (checkUdp_of_stampIn hm')⟩

/-- **When a receiver accepts a packet that was rewritten**, whatever the length of its datagram: if
there is memory for the pseudo header, if and only if in the packet with its new fields the second
halves of the addresses make up for what `check_udp` counts too often; if there is none, if and only
if the old checksum fits the new fields. With memory, the checksum is never sent as `0`, which would
mean that there is none. In the buffer there has to be room for the new fields, behind the packet if
the datagram is short. -/
theorem validUdpCheck_iff (room : List UInt8) (nowOut nowIn : UInt64) (kmallocOut kmallocIn : Bool)
    (st : Statics) (tx : TxHeader) (eth : EthHeader) :
    (4 * ihlOf p.bytes + 30 ≤ p.bytes.length + room.length →
      ∃ m' st', synchOutDataPacket filters pad nowOut kmallocOut st
          (tx.bytes ++ (p.bytes ++ room)) = .ok (m', st') ∧
        (kmallocOut = true → udpCheckAt m' (56 + 4 * ihlOf p.bytes) ≠ 0) ∧
        (ValidUdpCheck m' 56 (56 + 4 * ihlOf p.bytes) ↔
          CheckComesOut kmallocOut (rewrittenOut pad nowOut st (tx.bytes ++ (p.bytes ++ room)) 56
            (56 + 4 * ihlOf p.bytes)) 56 (56 + 4 * ihlOf p.bytes))) ∧
    (4 * ihlOf p.bytes + 16 ≤ p.bytes.length + room.length →
      ∃ m', synchInDataPacket filters pad nowIn kmallocIn eth.bytes (p.bytes ++ room) = .ok m' ∧
        (kmallocIn = true → udpCheckAt m' (4 * ihlOf p.bytes) ≠ 0) ∧
        (ValidUdpCheck m' 0 (4 * ihlOf p.bytes) ↔
          CheckComesOut kmallocIn (rewrittenIn nowIn (p.bytes ++ room) (4 * ihlOf p.bytes)) 0
            (4 * ihlOf p.bytes))) := by
  have htaken' := p.taken_inBuffer htaken room
  have hlength : (p.bytes ++ room).length = p.bytes.length + room.length := List.length_append
  have hihl : ihlOf (p.inBuffer room).bytes = ihlOf p.bytes :=
    (MiaVita.fields_append p.bytes p.long.1 room).1
  constructor
  · intro hroom
    have h := validUdpCheck_synchOut_iff filters pad hadhoc (p.inBuffer room) htaken'
      (by rw [hihl]; exact hlength ▸ hroom) nowOut kmallocOut st tx
    rwa [hihl] at h
  · intro hroom
    have h := validUdpCheck_synchIn_iff filters pad hadhoc (p.inBuffer room) htaken'
      (by rw [hihl]; exact hlength ▸ hroom) nowIn kmallocIn eth
    rwa [hihl] at h

end Hooks

/-- An empty datagram, the shortest one. -/
def emptyWhole : WholeUdpIp where
  bytes := plainUdpIpHeader.bytes ++ [0x30, 0x39, 0x13, 0x88, 0, 8, 0, 0]
  ihl_ge := by decide
  protocol_eq := by decide
  headers := by decide
  len_ge := by decide
  len_le := by decide

private theorem emptyWhole_taken : Taken [⟨0, 0, 0, 0⟩] emptyWhole.bytes :=
  ⟨_, List.mem_singleton_self _, .inl ⟨.inl rfl, .inl rfl⟩⟩

/-- An empty datagram, out with memory for the pseudo header and in without. -/
theorem validUdpCheck_empty :
    plainAdapter.adhocOn ∧ Taken [⟨0, 0, 0, 0⟩] emptyWhole.bytes ∧
    (∃ m' st', synchOutDataPacket [⟨0, 0, 0, 0⟩] plainAdapter 0 true ⟨0, 0⟩
        (plainTxHeader.bytes ++ (emptyWhole.bytes ++ List.replicate 22 0)) = .ok (m', st') ∧
      (true = true → udpCheckAt m' 76 ≠ 0) ∧
      (ValidUdpCheck m' 56 76 ↔ CheckComesOut true (rewrittenOut plainAdapter 0 ⟨0, 0⟩
        (plainTxHeader.bytes ++ (emptyWhole.bytes ++ List.replicate 22 0)) 56 76) 56 76)) ∧
    ∃ m', synchInDataPacket [⟨0, 0, 0, 0⟩] plainAdapter 0 false plainEthHeader.bytes
        (emptyWhole.bytes ++ List.replicate 22 0) = .ok m' ∧
      (false = true → udpCheckAt m' 20 ≠ 0) ∧
      (ValidUdpCheck m' 0 20 ↔ CheckComesOut false
        (rewrittenIn 0 (emptyWhole.bytes ++ List.replicate 22 0) 20) 0 20) := by
  obtain ⟨hout, hin⟩ := validUdpCheck_iff [⟨0, 0, 0, 0⟩] plainAdapter rfl emptyWhole
    emptyWhole_taken (List.replicate 22 0) 0 0 true false ⟨0, 0⟩ plainTxHeader plainEthHeader
  exact ⟨rfl, emptyWhole_taken, hout (by decide), hin (by decide)⟩

/-- `plainUdpIp` with a checksum and a time on the air. -/
def plainRewritten (check₀ check₁ air₀ air₁ : UInt8) : List UInt8 :=
  plainUdpIpHeader.bytes ++ [0x30, 0x39, 0x13, 0x88, 0, 43, check₀, check₁] ++
    List.replicate 14 0 ++ [air₀, air₁] ++ List.replicate 19 0

/-- A packet from 10.0.0.1 to 10.0.0.2 leaves either hook with a checksum that no receiver accepts.
On the way in it should be `A7D4`, and is `C3BB`. -/
theorem rewritten_rejected :
    (synchOutDataPacket [⟨0, 0, 0, 0⟩] plainAdapter 0 true ⟨0, 0⟩
        (plainTxHeader.bytes ++ plainUdpIp.bytes) =
      .ok (plainTxHeader.bytes ++ plainRewritten 0xD9 0xB7 0x03 0xEA, ⟨0, 0⟩) ∧
      ¬ ValidUdpCheck (plainTxHeader.bytes ++ plainRewritten 0xD9 0xB7 0x03 0xEA) 56 76) ∧
    (synchInDataPacket [⟨0, 0, 0, 0⟩] plainAdapter 0 true plainEthHeader.bytes plainUdpIp.bytes =
      .ok (plainRewritten 0xC3 0xBB 0 0) ∧ ¬ ValidUdpCheck (plainRewritten 0xC3 0xBB 0 0) 0 20 ∧
      ValidUdpCheck (plainRewritten 0xA7 0xD4 0 0) 0 20) := by
  refine ⟨⟨?_, ?_⟩, ?_, ?_, ?_⟩ <;> decide +kernel

end MiaVita.Rt2501
