import MiaVita.FredFramework.Consuela
import MiaVita.FredFramework.Stacking
import MiaVita.FredFramework.Deaggregation

/-!
# From a sequence of packets to one aggregate

A sequence of packets to one destination goes through a fresh buffer and leaves as one aggregate,
on one of two ways: the flush thread empties the buffer after the last packet, or the last packet
finds the buffer full and becomes the aggregate itself. `emit` runs either way and collects every
packet that leaves; `emit_eq` says what the one aggregate is.

Both levels of aggregation stack records: IP packets or the datagrams in them. `Stacks` is what
they have in common, and all that is used of them here.
-/

namespace MiaVita

open Bytes Memory StampChain Fallible

/-- The difference chain of a stack of packets is a sequence of packets. -/
theorem chain_records (ps : List UdpPacket) :
    chain (ps.map UdpPacket.record) =
      ((List.zipWith UdpPacket.stamp ps (deltas (ps.map UdpPacket.timestamp))).map
        UdpPacket.bytes).flatten := by
  rw [chain, List.map_map, List.zipWith_map_left, List.map_zipWith]
  rfl

/-- A packet as the nodes send them: no IP options, and one `packet_t` that holds `t` and is
otherwise zero. -/
def nodePacket (t : UInt64) : UdpPacket where
  bytes := [0x45, 0, 0, 53, 0, 0, 0, 0, 60, 17, 0, 0, 10, 0, 0, 1, 10, 0, 0, 2] ++
    [0x15, 0xb3, 0x15, 0xb3, 0, 33, 0, 0] ++ be 8 t.toNat ++ List.replicate 17 0
  ihl_ge := by change 5 ≤ leVal [0x45] % 16; decide
  totLen_eq := by change beVal [0, 53] = 53; decide
  protocol_eq := by change leVal [17] = 17; decide
  stamped := by change 4 * (leVal [0x45] % 16) + 8 + 8 ≤ 53; decide

/-- A relation between a list and a zip of it is one between the two that are zipped. -/
theorem forall₂_zipWith_right {α β γ : Type*} {R : α → γ → Prop} {f : α → β → γ} {xs : List α}
    {ys : List β} (h : ys.length = xs.length) :
    List.Forall₂ R xs (List.zipWith f xs ys) ↔ List.Forall₂ (fun x y => R x (f x y)) xs ys := by
  induction xs generalizing ys with
  | nil =>
    obtain rfl := List.length_eq_zero_iff.mp h
    simp
  | cons x xs ih =>
    obtain ⟨y, ys, rfl⟩ := List.exists_cons_of_length_eq_add_one h
    rw [List.zipWith_cons_cons, List.forall₂_cons, List.forall₂_cons, ih (by simpa using h)]

/-! ### The two ways out -/

/-- How an aggregate leaves: the flush thread sends it, or the last packet takes it along. -/
inductive EmitPath where
  | consuela
  | flush

/-- Packets pushed one by one on one buffer; every packet passed on leaves. -/
def pushAll (push : Push) :
    AggregateBuffer → List SkBuff → Except Fault (List (List UInt8) × AggregateBuffer)
  | b, [] => .ok ([], b)
  | b, skb :: skbs => do
    let (verdict, skb, b) ← push b skb
    let (out, b) ← pushAll push b skbs
    .ok ((if verdict = .accept then [skb.data] else []) ++ out, b)

/-- Everything that leaves while the packets are pushed on a fresh buffer of `size` bytes for
`ip`, followed on the first path by a pass of the flush thread. -/
def emit (push : Push) (proto : ℕ) (sourceIp : UInt32) (path : EmitPath) (size : ℕ) (ip : UInt32)
    (os : List Outgoing) : Except Fault (List (List UInt8)) :=
  match createAggregateBuffer size ip true with
  | none => .error .null
  | some b => do
    let (out, b) ← pushAll push b (os.map Outgoing.skb)
    match path with
    | .flush => .ok out
    | .consuela => do
      let (sent, _) ← buildAndSendPackets proto sourceIp FlushAllocs.ok [some b]
      .ok (out ++ sent)

/-- **No flush in between**: with records of these lengths a buffer of `size` bytes takes all of
them, or all but the last one. -/
def EmitPath.Admits (size : ℕ) (lens : List ℕ) : EmitPath → Prop
  | .consuela => lens.sum < size
  | .flush => lens.dropLast.sum < size ∧ size ≤ lens.sum

/-- The source address the aggregate gets. -/
def EmitPath.source (ifaAddress sourceIp : UInt32) : EmitPath → UInt32
  | .consuela => sourceIp
  | .flush => ifaAddress

section

variable {push : Push} {proto : ℕ} {ifaAddress : UInt32} {record : UdpPacket → Stamped}
  (hstacks : Stacks push proto ifaAddress record)

/-- The stack a sequence of packets leaves in a buffer, newest first. -/
def stack (record : UdpPacket → Stamped) (os : List Outgoing) : List Stamped :=
  ((os.map Outgoing.packet).reverse).map record

theorem stack_append_singleton (os : List Outgoing) (o : Outgoing) :
    stack record (os ++ [o]) = record o.packet :: stack record os := by
  simp [stack]

/-- The lengths of the records of a sequence of packets. -/
def lens (record : UdpPacket → Stamped) (os : List Outgoing) : List ℕ :=
  os.map fun o => (record o.packet).bytes.length

theorem length_chain_stack (record : UdpPacket → Stamped) (os : List Outgoing) :
    (chain (stack record os)).length = (lens record os).sum := by
  rw [length_chain, stack, lens, List.map_map, List.map_reverse, List.sum_reverse, List.map_map]
  rfl

private theorem pushAll_append {b b₁ b₂ : AggregateBuffer} {xs ys : List SkBuff}
    {out out' : List (List UInt8)} (hxs : pushAll push b xs = .ok (out, b₁))
    (hys : pushAll push b₁ ys = .ok (out', b₂)) :
    pushAll push b (xs ++ ys) = .ok (out ++ out', b₂) := by
  induction xs generalizing b out with
  | nil =>
    cases hxs
    exact hys
  | cons x xs ih =>
    rw [pushAll] at hxs
    rw [List.cons_append, pushAll]
    cases hpush : push b x with
    | error e => simp only [hpush, error_bind] at hxs; cases hxs
    | ok r =>
      rw [hpush, ok_bind] at hxs
      rw [ok_bind]
      cases hrest : pushAll push r.2.2 xs with
      | error e => simp only [hrest, error_bind] at hxs; cases hxs
      | ok r' =>
        simp only [hrest, ok_bind] at hxs
        cases hxs
        simp only [ih hrest, ok_bind, List.append_assoc]

include hstacks

/-- Packets that all fit are all stacked. -/
private theorem pushAll_stolen {b : AggregateBuffer} {ip : UInt32} {size : ℕ}
    (done os : List Outgoing) (h : b.Holds ip size (chain (stack record done)))
    (hfit : (lens record (done ++ os)).sum < size) :
    ∃ b', pushAll push b (os.map Outgoing.skb) = .ok ([], b') ∧
      b'.Holds ip size (chain (stack record (done ++ os))) := by
  induction os generalizing b done with
  | nil => exact ⟨b, rfl, by rw [List.append_nil]; exact h⟩
  | cons o os ih =>
    have hsplit : done ++ o :: os = (done ++ [o]) ++ os := by simp
    have hone : (chain (record o.packet :: stack record done)).length < size := by
      rw [← stack_append_singleton, length_chain_stack]
      rw [hsplit] at hfit
      simp only [lens, List.map_append, List.sum_append] at hfit ⊢
      omega
    obtain ⟨b₁, hpush, hb₁⟩ := hstacks.stolen (done.map Outgoing.packet).reverse o.packet
      o.skb h rfl hone
    have hb₁' : b₁.Holds ip size (chain (stack record (done ++ [o]))) := by
      rw [stack_append_singleton]
      exact hb₁
    obtain ⟨b', hrest, hb'⟩ := ih _ hb₁' (by rw [← hsplit]; exact hfit)
    refine ⟨b', ?_, by rw [hsplit]; exact hb'⟩
    rw [List.map_cons, pushAll, hpush, ok_bind]
    simp only [hrest, ok_bind]
    rfl

/-- **The flush path**: the last packet fills the buffer and leaves with everything in it. -/
theorem emit_flush (sourceIp : UInt32) {size : ℕ} (ip : UInt32) {os : List Outgoing}
    (h : EmitPath.flush.Admits size (lens record os)) :
    emit push proto sourceIp .flush size ip os =
      .ok [aggregateHeader proto (sizeofIphdr + (lens record os).sum) ifaAddress ip ++
        chain (stack record os)] := by
  obtain ⟨hfit, hfull⟩ := h
  have hne : os ≠ [] := by
    rintro rfl
    simp only [lens, List.map_nil, List.dropLast_nil] at hfit hfull
    omega
  obtain ⟨os, o, rfl⟩ : ∃ os' o, os = os' ++ [o] := ⟨_, _, (List.dropLast_append_getLast hne).symm⟩
  obtain ⟨b, hcreate, hb⟩ := AggregateBuffer.holds_create size ip
  have hlens : (lens record (os ++ [o])).dropLast = lens record os := by simp [lens]
  obtain ⟨b₁, hall, hb₁⟩ := pushAll_stolen hstacks [] os hb
    (by rw [List.nil_append, ← hlens]; exact hfit)
  obtain ⟨skb', b₂, hlast, hdata, -⟩ := hstacks.accept (os.map Outgoing.packet).reverse
    o.packet o.skb hb₁ rfl
    (by
      rw [← length_chain_stack, stack_append_singleton] at hfull
      exact hfull)
  have hstack : (o.packet :: (os.map Outgoing.packet).reverse).map record =
      stack record (os ++ [o]) := (stack_append_singleton os o).symm
  rw [hstack, length_chain_stack] at hdata
  have hone : pushAll push b₁ [o.skb] = .ok ([skb'.data], b₂) := by
    simp only [pushAll, hlast, ok_bind]
    rfl
  have hpushAll := pushAll_append hall hone
  rw [List.nil_append] at hpushAll
  simp only [emit, hcreate, List.map_append, List.map_cons, List.map_nil, hpushAll, ok_bind]
  rw [hdata]

/-- **The flush thread's path**: a pass after the last packet takes the whole buffer. -/
theorem emit_consuela (sourceIp : UInt32) {size : ℕ} (ip : UInt32) {os : List Outgoing}
    (hne : os ≠ []) (h : EmitPath.consuela.Admits size (lens record os)) :
    emit push proto sourceIp .consuela size ip os =
      (buildPacket proto sourceIp ip (chain (stack record os)) >>= fun packet => .ok [packet]) := by
  obtain ⟨b, hcreate, hb⟩ := AggregateBuffer.holds_create size ip
  obtain ⟨b₁, hall, hb₁⟩ := pushAll_stolen hstacks [] os hb h
  rw [List.nil_append] at hb₁
  have hdata : chain (stack record os) ≠ [] := chain_ne_nil (by simpa [stack] using hne)
  simp only [emit, hcreate, hall, ok_bind, buildAndSendPackets, buildAndSendFrom, FlushAllocs.ok,
    hb₁.mvData hdata, Option.elim_some, if_true, hb₁.ip_eq]
  cases buildPacket proto sourceIp ip (chain (stack record os)) <;> rfl

/-- The flush thread faults on an aggregate that is too long for its header. -/
theorem not_safe_emit_consuela (sourceIp : UInt32) {size : ℕ} (ip : UInt32) {os : List Outgoing}
    (hne : os ≠ []) (h : EmitPath.consuela.Admits size (lens record os))
    (hlong : 65536 ≤ sizeofIphdr + (lens record os).sum) :
    ¬ Safe (emit push proto sourceIp .consuela size ip os) := by
  rw [emit_consuela hstacks sourceIp ip hne h, safe_bind_ok, safe_buildPacket_iff,
    length_chain_stack]
  omega

/-- **What leaves**: one aggregate, the outer header and the difference chain of the stack. -/
theorem emit_eq (sourceIp : UInt32) {path : EmitPath} {size : ℕ} (ip : UInt32)
    {os : List Outgoing} (hne : os ≠ []) (h : path.Admits size (lens record os))
    (hlen : sizeofIphdr + (lens record os).sum < 65536) :
    emit push proto sourceIp path size ip os =
      .ok [aggregateHeader proto (sizeofIphdr + (lens record os).sum)
        (path.source ifaAddress sourceIp) ip ++ chain (stack record os)] := by
  cases path with
  | flush => exact emit_flush hstacks sourceIp ip h
  | consuela =>
    rw [emit_consuela hstacks sourceIp ip hne h,
      buildPacket_eq _ _ _ (by rw [length_chain_stack]; exact hlen), length_chain_stack]
    rfl

omit hstacks

/-- **An aggregate that is too long**: the length field wraps, and what is received of the
aggregate, if anything, ends inside its first record. -/
theorem ipRcv_long (hproto : proto < 256) (record : UdpPacket → Stamped) (size : UInt16)
    {saddr daddr : UInt32} {os : List Outgoing} {o : Outgoing}
    (hfit : (lens record os).sum < size.toNat)
    (hlong : 65536 ≤ sizeofIphdr + (lens record (os ++ [o])).sum)
    (hshort : (record o.packet).bytes.length < 65536) {received : List UInt8}
    (hrcv : ipRcv (aggregateHeader proto (sizeofIphdr + (lens record (os ++ [o])).sum) saddr
      daddr ++ chain (stack record (os ++ [o]))) = some received) :
    ∃ r, r < (record o.packet).bytes.length ∧
      (sizeofIphdr + (lens record (os ++ [o])).sum) % 65536 = sizeofIphdr + r ∧
      received = aggregateHeader proto (sizeofIphdr + (lens record (os ++ [o])).sum) saddr daddr ++
        (record o.packet).bytes.take r := by
  have hsum : (lens record (os ++ [o])).sum =
      (lens record os).sum + (record o.packet).bytes.length := by simp [lens]
  have hsize : size.toNat < 65536 := size.toNat_lt
  obtain ⟨n, hn⟩ : ∃ n, n = sizeofIphdr + (lens record (os ++ [o])).sum := ⟨_, rfl⟩
  rw [← hn] at hlong hrcv ⊢
  obtain ⟨hihl, htot, -, -⟩ := fields_aggregateHeader hproto n saddr daddr
    (chain (stack record (os ++ [o])))
  rw [ipRcv, hihl, htot] at hrcv
  split_ifs at hrcv with hvalid
  obtain rfl := Option.some.inj hrcv
  obtain ⟨r, hr⟩ : ∃ r, n % 65536 = sizeofIphdr + r :=
    ⟨n % 65536 - sizeofIphdr, (Nat.add_sub_cancel' hvalid.2.2.1).symm⟩
  have hcut : r < (record o.packet).bytes.length := by
    simp only [sizeofIphdr] at hn hr
    omega
  refine ⟨r, hcut, hr, ?_⟩
  rw [hr, stack_append_singleton, chain_cons, List.take_append, length_aggregateHeader,
    Nat.add_sub_cancel_left, List.take_append_of_le_length (Nat.le_of_lt hcut),
    List.take_of_length_le (by rw [length_aggregateHeader]; exact Nat.le_add_right _ _)]

end

end MiaVita
