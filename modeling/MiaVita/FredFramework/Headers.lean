import MiaVita.Lib.Memory
import MiaVita.Lib.OnesComplement
import MiaVita.Lib.StampChain

/-!
# Packet headers (`fred_framework/interceptors`)

The interceptors work on raw packets: an `iphdr`, the `udphdr` behind it at `4 * ihl`, and a
`packet_t` behind that, whose first field is the timestamp. The fields are read and written in
place, at an address in some object; each access here is checked against that object's bounds.

`UdpPacket` is a packet whose header describes its own bytes: it is what the interceptors are
built for. `csum` is the header checksum (`utils.h`) and `aggregateHeader` the outer header that
the aggregation module and its flush thread build.
-/

namespace MiaVita

open Bytes Memory OnesComplement StampChain

/-! ### Protocol numbers and sizes -/

/-- `IPPROTO_UDP`. -/
abbrev ipprotoUdp : ℕ := 17

/-- `AGREGATED_APPLICATION_ENCAP_UDP_PROTO`. -/
abbrev agregatedApplicationEncapUdpProto : ℕ := 143

/-- `AGREGATED_IP_ENCAP_IP_PROTO`. -/
abbrev agregatedIpEncapIpProto : ℕ := 144

/-- `sizeof(struct iphdr)`. -/
abbrev sizeofIphdr : ℕ := 20

/-- `sizeof(struct udphdr)`. -/
abbrev sizeofUdphdr : ℕ := 8

/-- `sizeof(packet_t)`. -/
abbrev sizeofPacket : ℕ := 25

/-! ### Fields at an address -/

/-- `iph->ihl`, the low half of the first byte. -/
def ipIhl (m : List UInt8) (iph : ℕ) : Except Fault ℕ := load (fun bs => leVal bs % 16) m iph 1

/-- `ntohs(iph->tot_len)`. -/
def ipTotLen (m : List UInt8) (iph : ℕ) : Except Fault ℕ := load beVal m (iph + 2) 2

/-- `iph->protocol`. -/
def ipProtocol (m : List UInt8) (iph : ℕ) : Except Fault ℕ := load leVal m (iph + 9) 1

/-- `iph->daddr`. -/
def ipDaddr (m : List UInt8) (iph : ℕ) : Except Fault UInt32 :=
  load (fun bs => UInt32.ofNat (beVal bs)) m (iph + 16) 4

/-- `ntohs(udph->len)`. -/
def udpLen (m : List UInt8) (udph : ℕ) : Except Fault ℕ := load beVal m (udph + 4) 2

/-- `udph->check = 0`. -/
def clearUdpCheck (m : List UInt8) (udph : ℕ) : Except Fault (List UInt8) :=
  store m (udph + 6) [0, 0]

/-- `be64_to_cpu(pdu->timestamp)`. -/
def pduTimestamp (m : List UInt8) (pdu : ℕ) : Except Fault UInt64 :=
  load (fun bs => UInt64.ofNat (beVal bs)) m pdu 8

/-- `pdu->timestamp = cpu_to_be64(t)`. -/
def setPduTimestamp (m : List UInt8) (pdu : ℕ) (t : UInt64) : Except Fault (List UInt8) :=
  store m pdu (be 8 t.toNat)

/-! ### The header checksum -/

/-- The 16-bit words of a header as the little-endian processor loads them. -/
def words : List UInt8 → List UInt16
  | a :: b :: bs => UInt16.ofNat (leVal [a, b]) :: words bs
  | _ => []

/-- `csum` of `utils.h`. -/
def csum (buff : List UInt16) : UInt16 :=
  let sum : UInt32 := buff.foldl (fun sum w => sum + w.toUInt32) 0
  let sum := (sum >>> 16) + (sum &&& 0xffff)
  let sum := sum + (sum >>> 16)
  (~~~ sum).toUInt16

private theorem toNat_foldl_words (ws : List UInt16) (s : UInt32)
    (h : s.toNat + (ws.map UInt16.toNat).sum < 2 ^ 32) :
    (ws.foldl (fun sum w => sum + w.toUInt32) s).toNat =
      s.toNat + (ws.map UInt16.toNat).sum := by
  induction ws generalizing s with
  | nil => simp
  | cons w ws ih =>
    rw [List.map_cons, List.sum_cons] at h
    have hadd : (s + w.toUInt32).toNat = s.toNat + w.toNat := by
      rw [UInt32.toNat_add, UInt16.toNat_toUInt32]
      exact Nat.mod_eq_of_lt (by omega)
    rw [List.foldl_cons, ih _ (by omega), hadd, List.map_cons, List.sum_cons]
    omega

private theorem sum_words_le (ws : List UInt16) :
    (ws.map UInt16.toNat).sum ≤ ws.length * 65535 := by
  induction ws with
  | nil => simp
  | cons w ws ih =>
    have hw : w.toNat < 65536 := w.toNat_lt
    rw [List.map_cons, List.sum_cons, List.length_cons]
    omega

private theorem toNat_upper (x : UInt32) : (x >>> 16).toNat = x.toNat / 65536 := by
  rw [UInt32.toNat_shiftRight, Nat.shiftRight_eq_div_pow]
  rfl

private theorem toNat_lower (x : UInt32) : (x &&& 0xffff).toNat = x.toNat % 65536 := by
  rw [UInt32.toNat_and]
  exact Nat.and_two_pow_sub_one_eq_mod x.toNat 16

/-- One fold of the carry: the upper half of a 32-bit sum added to its lower half. -/
private theorem toNat_fold (x : UInt32) :
    ((x >>> 16) + (x &&& 0xffff)).toNat = x.toNat / 65536 + x.toNat % 65536 := by
  have hx := x.toNat_lt
  rw [UInt32.toNat_add, toNat_upper, toNat_lower]
  exact Nat.mod_eq_of_lt (by omega)

/-- The second fold, the complement and the truncation. -/
private theorem toNat_complement_fold {x : UInt32} (h : x.toNat ≤ 131070) :
    (~~~ (x + (x >>> 16))).toUInt16.toNat = 65535 - (x.toNat + x.toNat / 65536) % 65536 := by
  have hadd : (x + (x >>> 16)).toNat = x.toNat + x.toNat / 65536 := by
    rw [UInt32.toNat_add, toNat_upper]
    exact Nat.mod_eq_of_lt (by omega)
  rw [UInt32.toNat_toUInt16, UInt32.toNat_not, hadd]
  change (2 ^ 32 - 1 - _) % 2 ^ 16 = _
  omega

/-- No 32-bit sum of at most `2 ^ 16` words overflows, and the result is the complement of the
folded sum. -/
private theorem toNat_csum {ws : List UInt16} (h : ws.length ≤ 65536) :
    (csum ws).toNat = 65535 - foldCarry (ws.map UInt16.toNat).sum := by
  have hle := sum_words_le ws
  have hsum := toNat_foldl_words ws 0 (by rw [UInt32.toNat_zero]; omega)
  rw [UInt32.toNat_zero, Nat.zero_add] at hsum
  have hfold := toNat_fold (ws.foldl (fun sum w => sum + w.toUInt32) 0)
  rw [hsum] at hfold
  refine (toNat_complement_fold (by rw [hfold]; omega)).trans ?_
  rw [hfold]
  rfl

/-- **The stored checksum verifies**: over a header whose checksum word held `0`, the checksum
of the header that stores its own checksum is `0`. -/
theorem csum_set_self {ws : List UInt16} {i : ℕ} (h : ws.length ≤ 65536)
    (hi : ws[i]? = some 0) : csum (ws.set i (csum ws)) = 0 := by
  have hlt : i < ws.length := (List.getElem?_eq_some_iff.mp hi).1
  have hset : ((ws.set i (csum ws)).map UInt16.toNat).sum =
      (ws.map UInt16.toNat).sum + (65535 - foldCarry (ws.map UInt16.toNat).sum) := by
    rw [List.map_set, sum_set_of_zero (by rw [List.getElem?_map, hi]; rfl), toNat_csum h]
  have hle := sum_words_le (ws.set i (csum ws))
  rw [List.length_set, hset] at hle
  apply UInt16.toNat_inj.mp
  rw [toNat_csum (by rw [List.length_set]; exact h), hset,
    foldCarry_add_complement (by omega), Nat.sub_self]
  rfl

/-- A 32-bit sum, if it does not overflow. -/
def checkedAdd (x y : UInt32) : Option UInt32 :=
  if x.toNat + y.toNat < 2 ^ 32 then some (x + y) else none

/-- `csum` with all its additions checked. -/
def csumChecked (buff : List UInt16) : Option UInt16 := do
  let sum ← buff.foldlM (fun sum w => checkedAdd sum w.toUInt32) 0
  let sum ← checkedAdd (sum >>> 16) (sum &&& 0xffff)
  let sum ← checkedAdd sum (sum >>> 16)
  return (~~~ sum).toUInt16

private theorem checkedAdd_of_lt {x y : UInt32} (h : x.toNat + y.toNat < 2 ^ 32) :
    checkedAdd x y = some (x + y) := if_pos h

/-- The loop does not overflow as long as the sum of all words does not. -/
private theorem foldlM_checkedAdd (ws : List UInt16) (s : UInt32)
    (h : s.toNat + (ws.map UInt16.toNat).sum < 2 ^ 32) :
    ws.foldlM (fun sum w => checkedAdd sum w.toUInt32) s =
      some (ws.foldl (fun sum w => sum + w.toUInt32) s) := by
  induction ws generalizing s with
  | nil => rfl
  | cons w ws ih =>
    rw [List.map_cons, List.sum_cons] at h
    have hlt : s.toNat + w.toUInt32.toNat < 2 ^ 32 := by
      rw [UInt16.toNat_toUInt32]
      omega
    have hadd : (s + w.toUInt32).toNat = s.toNat + w.toNat := by
      rw [UInt32.toNat_add, Nat.mod_eq_of_lt hlt, UInt16.toNat_toUInt32]
    rw [List.foldlM_cons, checkedAdd_of_lt hlt, List.foldl_cons]
    exact ih _ (by omega)

/-- **No 32-bit sum overflows** for at most `2 ^ 16` words. -/
theorem csumChecked_eq {ws : List UInt16} (h : ws.length ≤ 65536) :
    csumChecked ws = some (csum ws) := by
  have hle := sum_words_le ws
  have hloop := foldlM_checkedAdd ws 0 (by rw [UInt32.toNat_zero]; omega)
  obtain ⟨sum, hsum⟩ : ∃ sum, sum = ws.foldl (fun sum w => sum + w.toUInt32) (0 : UInt32) :=
    ⟨_, rfl⟩
  have hfold := toNat_fold sum
  have hlt := sum.toNat_lt
  rw [csumChecked, csum, hloop, ← hsum]
  change (checkedAdd (sum >>> 16) (sum &&& 0xffff) >>= fun sum => _) = _
  rw [checkedAdd_of_lt (by rw [toNat_upper, toNat_lower]; omega)]
  change (checkedAdd _ _ >>= fun sum => _) = _
  rw [checkedAdd_of_lt (by rw [toNat_upper, hfold]; omega)]
  rfl

/-- **The header checksum verifies.** For at most `2 ^ 16` words, one of them 0, neither the sums
for the checksum nor those for its verification overflow; with the checksum in the place of the
zero, `csum` returns 0 and the one's-complement sum of the words is `0xffff`. -/
theorem csum_verifies (ws : List UInt16) (hlen : ws.length ≤ 65536) (i : ℕ)
    (hi : ws[i]? = some 0) :
    csumChecked ws = some (csum ws) ∧ csumChecked (ws.set i (csum ws)) = some 0 ∧
      csum (ws.set i (csum ws)) = 0 ∧
      onesSum ((ws.set i (csum ws)).map UInt16.toNat) = 0xffff := by
  have hset : (ws.set i (csum ws)).length ≤ 65536 := by
    rw [List.length_set]
    exact hlen
  have hzero := csum_set_self hlen hi
  refine ⟨csumChecked_eq hlen, ?_, hzero, ?_⟩
  · rw [csumChecked_eq hset, hzero]
  · have hle := sum_words_le (ws.set i (csum ws))
    have hwords : ∀ w ∈ (ws.set i (csum ws)).map UInt16.toNat, w < 65536 := by
      intro w hw
      obtain ⟨x, -, rfl⟩ := List.mem_map.mp hw
      exact x.toNat_lt
    have hfold := toNat_csum hset
    rw [hzero, UInt16.toNat_zero] at hfold
    have hlt := foldCarry_lt ((ws.set i (csum ws)).map UInt16.toNat).sum
    rw [onesSum_eq_foldCarry hwords (by omega)]
    omega

/-- Two words of a header, with the place of the checksum between them. -/
theorem csum_verifies_header :
    csum [0x4500, 0xbac3, 0x003c] = 0 ∧ onesSum [0x4500, 0xbac3, 0x003c] = 0xffff := by
  have h := csum_verifies [0x4500, 0, 0x003c] (by decide) 1 rfl
  exact ⟨h.2.2.1, h.2.2.2⟩

theorem length_words (bs : List UInt8) : (words bs).length = bs.length / 2 := by
  fun_induction words bs with
  | case1 a b bs ih => rw [List.length_cons, List.length_cons, List.length_cons, ih]; omega
  | case2 bs h =>
    match bs, h with
    | [], _ => rfl
    | [_], _ => simp
    | a :: b :: bs, h => exact (h a b bs rfl).elim

/-- A word written into a header replaces that word. -/
theorem words_patch {bs : List UInt8} (i : ℕ) (h : 2 * i + 2 ≤ bs.length) (w : UInt16) :
    words (patch bs (2 * i) (le 2 w.toNat)) = (words bs).set i w := by
  induction i generalizing bs with
  | zero =>
    obtain ⟨a, b, bs, rfl⟩ : ∃ a b bs', bs = a :: b :: bs' := by
      match bs, h with
      | a :: b :: bs', _ => exact ⟨a, b, bs', rfl⟩
    have hw : w.toNat < 256 ^ 2 := w.toNat_lt
    have hword : UInt16.ofNat (leVal (le 2 w.toNat)) = w := by
      rw [leVal_le_of_lt hw, UInt16.ofNat_toNat]
    change UInt16.ofNat (leVal (le 2 w.toNat)) :: words bs = w :: words bs
    rw [hword]
  | succ i ih =>
    obtain ⟨a, b, bs, rfl⟩ : ∃ a b bs', bs = a :: b :: bs' := by
      match bs, h with
      | a :: b :: bs', _ => exact ⟨a, b, bs', rfl⟩
    have hp : patch (a :: b :: bs) (2 * (i + 1)) (le 2 w.toNat) =
        a :: b :: patch bs (2 * i) (le 2 w.toNat) := by
      have := patch_append_right [a, b] bs (le 2 w.toNat) (2 * i)
      rw [show 2 * (i + 1) = [a, b].length + 2 * i by simp; omega]
      exact this
    have hbs : 2 * i + 2 ≤ bs.length := by
      rw [List.length_cons, List.length_cons] at h
      omega
    rw [hp, words, words, ih hbs, List.set_cons_succ]

/-! ### The header of an aggregate -/

/-- The outer header `flush_buffer_app`, `flush_buffer_ip` and `build_and_send_packets` fill in:
no options, ttl 60, the given protocol, length (kept to 16 bits) and addresses, the checksum
computed over a zero checksum field. -/
def aggregateHeader (protocol totLen : ℕ) (saddr daddr : UInt32) : List UInt8 :=
  let iph := [0x45, 0] ++ be 2 totLen ++ [0, 0, 0, 0] ++ [60, UInt8.ofNat protocol] ++ [0, 0] ++
    be 4 saddr.toNat ++ be 4 daddr.toNat
  patch iph 10 (le 2 (csum (words iph)).toNat)

@[simp] theorem length_aggregateHeader (protocol totLen : ℕ) (saddr daddr : UInt32) :
    (aggregateHeader protocol totLen saddr daddr).length = sizeofIphdr := by
  simp only [aggregateHeader]
  rw [length_patch] <;> simp

/-! ### The fields of a packet's own bytes -/

/-- The header length field, in 32-bit words. -/
def ihlOf (bs : List UInt8) : ℕ := leVal (slice bs 0 1) % 16

/-- The total length field. -/
def totLenOf (bs : List UInt8) : ℕ := beVal (slice bs 2 2)

/-- The protocol field. -/
def protocolOf (bs : List UInt8) : ℕ := leVal (slice bs 9 1)

/-- The destination address. -/
def daddrOf (bs : List UInt8) : UInt32 := UInt32.ofNat (beVal (slice bs 16 4))

theorem ihlOf_lt (bs : List UInt8) : ihlOf bs < 16 := Nat.mod_lt _ (by decide)

/-- A field of two bytes. -/
theorem beVal_slice_two_lt (bs : List UInt8) (i : ℕ) : beVal (slice bs i 2) < 65536 :=
  (beVal_lt _).trans_le (Nat.pow_le_pow_right (by decide) (length_slice_le bs i 2))

theorem totLenOf_lt (bs : List UInt8) : totLenOf bs < 65536 := beVal_slice_two_lt bs 2

/-- The header length field of the packet at an address. -/
def ihlAt (m : List UInt8) (iph : ℕ) : ℕ := leVal (slice m iph 1) % 16

/-- The total length field of the packet at an address. -/
def totLenAt (m : List UInt8) (iph : ℕ) : ℕ := beVal (slice m (iph + 2) 2)

/-- The protocol field of the packet at an address. -/
def protocolAt (m : List UInt8) (iph : ℕ) : ℕ := leVal (slice m (iph + 9) 1)

/-- The length field of the datagram at an address. -/
def udpLenAt (m : List UInt8) (udph : ℕ) : ℕ := beVal (slice m (udph + 4) 2)

section Region

variable {bs : List UInt8}

theorem udpLen_at {m : List UInt8} {udph : ℕ} (h : udph + 6 ≤ m.length) :
    udpLen m udph = .ok (udpLenAt m udph) := load_eq h

theorem ipIhl_at {m : List UInt8} {iph : ℕ} (h : iph + 1 ≤ m.length) :
    ipIhl m iph = .ok (ihlAt m iph) := load_eq h

theorem ipTotLen_at {m : List UInt8} {iph : ℕ} (h : iph + 4 ≤ m.length) :
    ipTotLen m iph = .ok (totLenAt m iph) := load_eq h

theorem ipProtocol_at {m : List UInt8} {iph : ℕ} (h : iph + 10 ≤ m.length) :
    ipProtocol m iph = .ok (protocolAt m iph) := load_eq h

/-- The fields of a packet inside a larger object are those of its bytes. -/
theorem fieldsAt_mid (a bs c : List UInt8) (h : 10 ≤ bs.length) :
    ihlAt (a ++ (bs ++ c)) a.length = ihlOf bs ∧
      totLenAt (a ++ (bs ++ c)) a.length = totLenOf bs ∧
      protocolAt (a ++ (bs ++ c)) a.length = protocolOf bs := by
  have h₀ := slice_append_right a (bs ++ c) 0 1
  rw [Nat.add_zero] at h₀
  simp only [ihlAt, totLenAt, protocolAt, ihlOf, totLenOf, protocolOf, h₀, slice_append_right]
  rw [slice_append_left (by omega), slice_append_left (by omega), slice_append_left (by omega)]
  exact ⟨rfl, rfl, rfl⟩

/-- A write behind the first 20 bytes leaves the header fields alone. -/
private theorem fields_patch {xs : List UInt8} {i : ℕ} (h20 : 20 ≤ i)
    (h : i + xs.length ≤ bs.length) :
    ihlOf (patch bs i xs) = ihlOf bs ∧ totLenOf (patch bs i xs) = totLenOf bs ∧
      protocolOf (patch bs i xs) = protocolOf bs ∧ daddrOf (patch bs i xs) = daddrOf bs := by
  simp only [ihlOf, totLenOf, protocolOf, daddrOf]
  rw [slice_patch_of_disjoint h (by omega), slice_patch_of_disjoint h (by omega),
    slice_patch_of_disjoint h (by omega), slice_patch_of_disjoint h (by omega)]
  exact ⟨rfl, rfl, rfl, rfl⟩

theorem fields_append (bs : List UInt8) (h : 20 ≤ bs.length) (c : List UInt8) :
    ihlOf (bs ++ c) = ihlOf bs ∧ totLenOf (bs ++ c) = totLenOf bs ∧
      protocolOf (bs ++ c) = protocolOf bs ∧ daddrOf (bs ++ c) = daddrOf bs := by
  simp only [ihlOf, totLenOf, protocolOf, daddrOf]
  rw [slice_append_left (by omega), slice_append_left (by omega), slice_append_left (by omega),
    slice_append_left (by omega)]
  exact ⟨rfl, rfl, rfl, rfl⟩

theorem ipIhl_eq (h : 1 ≤ bs.length) : ipIhl bs 0 = .ok (ihlOf bs) := load_eq h

theorem ipTotLen_eq (h : 4 ≤ bs.length) : ipTotLen bs 0 = .ok (totLenOf bs) := load_eq h

theorem ipProtocol_eq (h : 10 ≤ bs.length) : ipProtocol bs 0 = .ok (protocolOf bs) := load_eq h

end Region

/-- The header of an aggregate holds what was asked for, with the length kept to 16 bits. -/
theorem fields_aggregateHeader {protocol : ℕ} (hproto : protocol < 256) (totLen : ℕ)
    (saddr daddr : UInt32) (payload : List UInt8) :
    ihlOf (aggregateHeader protocol totLen saddr daddr ++ payload) = 5 ∧
      totLenOf (aggregateHeader protocol totLen saddr daddr ++ payload) = totLen % 65536 ∧
      protocolOf (aggregateHeader protocol totLen saddr daddr ++ payload) = protocol ∧
      daddrOf (aggregateHeader protocol totLen saddr daddr ++ payload) = daddr := by
  obtain ⟨hihl, htot, hprotocol, hdaddr⟩ :=
    fields_append (aggregateHeader protocol totLen saddr daddr)
      (by rw [length_aggregateHeader]) payload
  rw [hihl, htot, hprotocol, hdaddr]
  simp only [ihlOf, totLenOf, protocolOf, daddrOf, aggregateHeader]
  rw [slice_patch_of_disjoint (by simp) (by simp), slice_patch_of_disjoint (by simp) (by simp),
    slice_patch_of_disjoint (by simp) (by simp), slice_patch_of_disjoint (by simp) (by simp)]
  refine ⟨?_, ?_, ?_, ?_⟩
  · change leVal [0x45] % 16 = 5
    rw [leVal, leVal]
    decide
  · exact beVal_be 2 totLen
  · change leVal [UInt8.ofNat protocol] = protocol
    rw [leVal, leVal, UInt8.toNat_ofNat']
    omega
  · change UInt32.ofNat (beVal (be 4 daddr.toNat)) = daddr
    have hlt : daddr.toNat < 256 ^ 4 := daddr.toNat_lt
    rw [beVal_be_of_lt hlt, UInt32.ofNat_toNat]

/-! ### Packets -/

/-- **A packet that can be stacked**: its IP header describes its bytes, and behind it there is
room for a UDP header and the timestamp of a `packet_t`. -/
structure IpPacket where
  bytes : List UInt8
  ihl_ge : 5 ≤ ihlOf bytes
  totLen_eq : totLenOf bytes = bytes.length
  stamped : 4 * ihlOf bytes + sizeofUdphdr + 8 ≤ bytes.length

namespace IpPacket

variable (p : IpPacket)

/-- The packet as a record that carries its time, behind the IP header and the UDP header. -/
def record : Stamped := ⟨p.bytes, 4 * ihlOf p.bytes + sizeofUdphdr, p.stamped⟩

/-- The timestamp of the `packet_t` inside. -/
def timestamp : UInt64 := p.record.time

/-- What follows the IP header, as a record that carries its time. -/
def datagram : Stamped where
  bytes := p.bytes.drop (4 * ihlOf p.bytes)
  off := sizeofUdphdr
  fits := by
    have := p.stamped
    rw [List.length_drop]
    omega

theorem length_lt : p.bytes.length < 65536 := by
  rw [← p.totLen_eq]
  exact totLenOf_lt p.bytes

theorem length_ge : 36 ≤ p.bytes.length := by
  have hlong := p.stamped
  have hihl := p.ihl_ge
  simp only [sizeofUdphdr] at hlong
  omega

theorem ipIhl_bytes : ipIhl p.bytes 0 = .ok (ihlOf p.bytes) :=
  load_eq (by have := p.length_ge; omega)

theorem ipTotLen_bytes : ipTotLen p.bytes 0 = .ok p.bytes.length := by
  refine (load_eq (by have := p.length_ge; omega)).trans ?_
  rw [Nat.zero_add]
  exact congrArg Except.ok p.totLen_eq

theorem ipProtocol_bytes : ipProtocol p.bytes 0 = .ok (protocolOf p.bytes) := by
  refine (load_eq (by have := p.length_ge; omega)).trans ?_
  rw [Nat.zero_add]
  rfl

theorem ipDaddr_bytes : ipDaddr p.bytes 0 = .ok (daddrOf p.bytes) := by
  refine (load_eq (by have := p.length_ge; omega)).trans ?_
  rw [Nat.zero_add]
  rfl

theorem pduTimestamp_bytes :
    pduTimestamp p.bytes (4 * ihlOf p.bytes + sizeofUdphdr) = .ok p.timestamp :=
  load_eq p.stamped

/-- The header fields of a packet that stands at an address of an object. -/
theorem fields_of_drop {m c : List UInt8} {s : ℕ} (h : m.drop s = p.bytes ++ c) :
    ipProtocol m s = .ok (protocolOf p.bytes) ∧ ipIhl m s = .ok (ihlOf p.bytes) := by
  have hlong := p.length_ge
  have hlen := congrArg List.length h
  rw [List.length_drop, List.length_append] at hlen
  have hslice : ∀ i, i < p.bytes.length → slice m (s + i) 1 = slice p.bytes i 1 := by
    intro i hi
    have hsame : slice m (s + i) 1 = slice (m.drop s) i 1 := by rw [slice, slice, List.drop_drop]
    rw [hsame, h, slice_append_left hi]
  constructor
  · rw [ipProtocol, load_eq (by omega), hslice 9 (by omega)]
    rfl
  · rw [ipIhl, load_eq (by omega)]
    exact congrArg (fun bs => Except.ok (leVal bs % 16)) (hslice 0 (by omega))

theorem length_datagram : p.datagram.bytes.length = p.bytes.length - 4 * ihlOf p.bytes :=
  List.length_drop

/-- The length of the datagram as the code computes it, in 16 bits. -/
theorem length_datagram_mod :
    (p.bytes.length + 65536 - 4 * ihlOf p.bytes) % 65536 = p.datagram.bytes.length := by
  have hlong := p.stamped
  have hlt := p.length_lt
  rw [p.length_datagram]
  omega

@[simp] theorem time_datagram : p.datagram.time = p.timestamp := by
  have hslice : slice p.datagram.bytes sizeofUdphdr 8 =
      slice p.bytes (4 * ihlOf p.bytes + sizeofUdphdr) 8 := by
    change ((p.bytes.drop _).drop _).take 8 = (p.bytes.drop _).take 8
    rw [List.drop_drop]
  exact congrArg (fun bs => UInt64.ofNat (beVal bs)) hslice

/-- Overwriting bytes behind the IP header gives a packet again. -/
def patched (i : ℕ) (xs : List UInt8) (hi : 4 * ihlOf p.bytes ≤ i)
    (h : i + xs.length ≤ p.bytes.length) : IpPacket where
  bytes := patch p.bytes i xs
  ihl_ge := by
    rw [(fields_patch (by have := p.ihl_ge; omega) h).1]
    exact p.ihl_ge
  totLen_eq := by
    rw [(fields_patch (by have := p.ihl_ge; omega) h).2.1, length_patch h]
    exact p.totLen_eq
  stamped := by
    rw [(fields_patch (by have := p.ihl_ge; omega) h).1, length_patch h]
    exact p.stamped

/-- The packet with its timestamp replaced. -/
def stamp (t : UInt64) : IpPacket :=
  p.patched (4 * ihlOf p.bytes + sizeofUdphdr) (be 8 t.toNat) (Nat.le_add_right _ _)
    (by rw [length_be]; exact p.stamped)

@[simp] theorem protocolOf_stamp (t : UInt64) :
    protocolOf (p.stamp t).bytes = protocolOf p.bytes := by
  have hihl := p.ihl_ge
  have hstamped := p.stamped
  exact (fields_patch (by omega) (by rw [length_be]; exact hstamped)).2.2.1

/-- The difference chain of a stack of packets is a sequence of packets of the same protocols. -/
theorem exists_packets_of_chain (ps : List IpPacket) :
    ∃ qs : List IpPacket, chain (ps.map record) = (qs.map bytes).flatten ∧
      qs.length = ps.length ∧
      ∀ q ∈ qs, ∃ p ∈ ps, protocolOf q.bytes = protocolOf p.bytes := by
  refine ⟨List.zipWith stamp ps (deltas (ps.map timestamp)), ?_, by simp, ?_⟩
  · rw [chain, List.map_map, List.zipWith_map_left, List.map_zipWith]
    rfl
  · intro q hq
    rw [← List.map_uncurry_zip_eq_zipWith] at hq
    obtain ⟨⟨p, t⟩, hmem, rfl⟩ := List.mem_map.mp hq
    exact ⟨p, (List.of_mem_zip hmem).1, p.protocolOf_stamp t⟩

end IpPacket

/-- **An IP packet that the interceptors are meant for**: its header describes its bytes, and it
carries a UDP datagram that is long enough for the timestamp of a `packet_t`. -/
@[ext] structure UdpPacket where
  bytes : List UInt8
  ihl_ge : 5 ≤ ihlOf bytes
  totLen_eq : totLenOf bytes = bytes.length
  protocol_eq : protocolOf bytes = ipprotoUdp
  stamped : 4 * ihlOf bytes + sizeofUdphdr + 8 ≤ bytes.length

namespace UdpPacket

variable (p : UdpPacket)

/-- A UDP packet is a packet that can be stacked. -/
def toIpPacket : IpPacket := ⟨p.bytes, p.ihl_ge, p.totLen_eq, p.stamped⟩

/-- The offset of the timestamp: behind the IP header and the UDP header. -/
def pdu : ℕ := 4 * ihlOf p.bytes + sizeofUdphdr

/-- The packet as a record that carries its time. -/
def record : Stamped := p.toIpPacket.record

/-- The timestamp of the `packet_t` inside. -/
def timestamp : UInt64 := p.toIpPacket.timestamp

theorem length_lt : p.bytes.length < 65536 := p.toIpPacket.length_lt

@[simp] theorem ipDaddr_bytes : ipDaddr p.bytes 0 = .ok (daddrOf p.bytes) :=
  p.toIpPacket.ipDaddr_bytes

/-- The header fields of a packet that stands at an address of an object. -/
theorem fields_of_drop {m c : List UInt8} {s : ℕ} (h : m.drop s = p.bytes ++ c) :
    ipProtocol m s = .ok ipprotoUdp ∧ ipIhl m s = .ok (ihlOf p.bytes) := by
  obtain ⟨hprotocol, hihl⟩ := p.toIpPacket.fields_of_drop h
  exact ⟨hprotocol.trans (congrArg Except.ok p.protocol_eq), hihl⟩

/-- The UDP datagram inside, as a record that carries its time. -/
def datagram : Stamped := p.toIpPacket.datagram

/-- Overwriting bytes behind the headers gives a packet again. -/
def patched (i : ℕ) (xs : List UInt8) (hi : 4 * ihlOf p.bytes ≤ i)
    (h : i + xs.length ≤ p.bytes.length) : UdpPacket where
  bytes := patch p.bytes i xs
  ihl_ge := (p.toIpPacket.patched i xs hi h).ihl_ge
  totLen_eq := (p.toIpPacket.patched i xs hi h).totLen_eq
  protocol_eq := by
    rw [(fields_patch (by have := p.ihl_ge; omega) h).2.2.1]
    exact p.protocol_eq
  stamped := (p.toIpPacket.patched i xs hi h).stamped

/-- The packet with its timestamp replaced. -/
def stamp (t : UInt64) : UdpPacket :=
  p.patched p.pdu (be 8 t.toNat) (Nat.le_add_right _ _) (by rw [length_be]; exact p.stamped)

/-- The packet with its UDP checksum cleared. -/
def uncheck : UdpPacket :=
  p.patched (4 * ihlOf p.bytes + 6) [0, 0] (Nat.le_add_right _ _)
    (by have := p.stamped; simp only [List.length_cons, List.length_nil]; omega)

private theorem ihlOf_patched {i : ℕ} {xs : List UInt8} (hi : 4 * ihlOf p.bytes ≤ i)
    (h : i + xs.length ≤ p.bytes.length) : ihlOf (p.patched i xs hi h).bytes = ihlOf p.bytes :=
  (fields_patch (by have := p.ihl_ge; omega) h).1

@[simp] theorem ihlOf_stamp (t : UInt64) : ihlOf (p.stamp t).bytes = ihlOf p.bytes :=
  p.ihlOf_patched _ _

@[simp] theorem ihlOf_uncheck : ihlOf p.uncheck.bytes = ihlOf p.bytes := p.ihlOf_patched _ _

@[simp] theorem length_stamp (t : UInt64) : (p.stamp t).bytes.length = p.bytes.length :=
  length_patch (by rw [length_be]; exact p.stamped)

/-- A stamped packet has the new timestamp. -/
@[simp] theorem timestamp_stamp (t : UInt64) : (p.stamp t).timestamp = t := by
  have hoff : (p.stamp t).pdu = p.pdu := by rw [pdu, ihlOf_stamp, pdu]
  have htime : (p.stamp t).timestamp =
      UInt64.ofNat (beVal (slice (p.stamp t).bytes (p.stamp t).pdu 8)) := rfl
  rw [htime, hoff]
  exact p.record.time_stamp t

@[simp] theorem length_uncheck : p.uncheck.bytes.length = p.bytes.length :=
  length_patch (by have := p.stamped; simp only [List.length_cons, List.length_nil]; omega)

end UdpPacket

end MiaVita
