import MiaVita.FredFramework.Emission
import MiaVita.FredFramework.Hooks
import MiaVita.FredFramework.InjectionQueue

/-!
# The injection thread (`fred_framework/interceptors/deaggregation`, `injection_thread.c`)

The hook of the deaggregation module hands each packet of an aggregate to `inject_packet`, which
copies it to memory of its own and puts the address of the copy into the injection queue. A thread
takes the addresses out of the queue, sends each packet through a raw socket and frees it. The hook
runs in an interrupt: calls of `inject_packet` come between any two steps of the thread. Memory that
was freed may be handed out again.

* `injector_accounts`: over every run nothing is touched that was freed, the packets that the socket
  was given are the first ones of those that were put into the queue, whole and in order, and what
  is allocated is what waits, what the thread has in hand, and the copies that no node could be
  allocated for: these are never freed.
* `injector_drains`: the thread sends all that waits within five steps for each packet.
* `stop_touches_freed`: `stop_injection_thread` frees the queue before it stops the thread, which
  comes back to it.
-/

namespace MiaVita.Framework

open Bytes Memory LinkedList Fallible

/-! ### The source -/

/-- Where the thread is in `main_loop`. -/
inductive InjectorPc where
  | sockCreate
  | setsockopt
  | kthreadShouldStop
  | dequeue
  | sendIt (packet : ℕ)
  | kfree (packet : ℕ)
  | schedule
  | exited
  deriving DecidableEq

/-- The steps from a place in the loop to the next `spin_lock_queue_dequeue`. -/
def InjectorPc.turns : InjectorPc → ℕ
  | .dequeue | .exited => 0
  | .kthreadShouldStop => 1
  | .schedule | .setsockopt => 2
  | .kfree _ | .sockCreate => 3
  | .sendIt _ => 4

private theorem InjectorPc.turns_le (pc : InjectorPc) : pc.turns ≤ 4 := by
  cases pc <;> simp [turns]

/-- A call of `sock_sendmsg`: the destination, the bytes, and whether it succeeded. -/
structure RawSend where
  daddr : UInt32
  bytes : List UInt8
  ok : Bool
  deriving DecidableEq

/-- The thread, the queue with the addresses of packets, and the packets that are allocated. The
other fields only record: the calls of `sock_sendmsg`, the packets that were put into the queue, and
those that were left outside of it. -/
structure Injector where
  queue : SlQueue ℕ
  queueFreed : Bool
  packets : ℕ → Option (List UInt8)
  pc : InjectorPc
  handed : List RawSend
  accepted : List (List UInt8)
  leaked : List ℕ

/-- What may happen: a hook calls `inject_packet` for the packet at `ip` in an object `m`, where
`kmalloc` returns the given addresses for the copy and for the node, or null; or the thread makes
its next step, with what the kernel returns to it. -/
inductive InjectorEvent where
  | inject (m : List UInt8) (ip : ℕ) (new node : Option ℕ)
  | thread (ret : Bool)

/-- The packet that an event puts into the queue. -/
def InjectorEvent.copy : InjectorEvent → Option (List UInt8)
  | .inject m ip (some _) (some _) => some (slice m ip (totLenAt m ip))
  | _ => none

/-- The event leaves a copy outside of the queue. -/
def InjectorEvent.lost : InjectorEvent → Bool
  | .inject _ _ (some _) none => true
  | _ => false

/-- The block of the queue itself. -/
abbrev queueBlock : ℕ := 0

namespace Injector

/-- `start_injection_thread`. -/
def start : Injector := ⟨makeSpinLockQueue, false, fun _ => none, .sockCreate, [], [], []⟩

/-- `spin_lock_queue_enqueue`, for a copy at `a`. Without memory for a node it just returns. -/
def enqueue (s : Injector) (node : Option ℕ) (a : ℕ) (bs : List UInt8) :
    Except Crash Injector :=
  match node with
  | none => .ok { s with leaked := a :: s.leaked }
  | some n =>
    if s.queueFreed then .error (.freed queueBlock)
    else do
      let q ← spinLockQueueEnqueue s.queue n a
      return { s with queue := q, accepted := s.accepted ++ [bs] }

/-- `inject_packet`. -/
def inject (s : Injector) (m : List UInt8) (ip : ℕ) (new node : Option ℕ) :
    Except Crash Injector := do
  let copy ← packetRead (injectPacket new.isSome m ip)
  match new, copy with
  | some a, some bs => enqueue { s with packets := Function.update s.packets a (some bs) } node a bs
  | _, _ => return s

/-- `*p`, for a packet. -/
def packet (s : Injector) (p : ℕ) : Except Crash (List UInt8) :=
  match s.packets p with
  | some bs => .ok bs
  | none => .error (.freed p)

/-- `send_it`. -/
def sendIt (s : Injector) (p : ℕ) (ret : Bool) : Except Crash Injector := do
  let ip ← s.packet p
  let daddr ← packetRead (ipDaddrBe ip 0)
  let totLen ← packetRead (ipTotLen ip 0)
  let bytes ← packetRead (load id ip 0 totLen)
  return { s with handed := s.handed ++ [⟨daddr, bytes, ret⟩] }

/-- The next step of `main_loop`. -/
def threadStep (s : Injector) (ret : Bool) : Except Crash Injector :=
  match s.pc with
  | .sockCreate => .ok { s with pc := if ret then .setsockopt else .exited }
  | .setsockopt => .ok { s with pc := if ret then .kthreadShouldStop else .exited }
  | .kthreadShouldStop => .ok { s with pc := if ret then .exited else .dequeue }
  | .dequeue =>
    if s.queueFreed then .error (.freed queueBlock)
    else do
      let x ← spinLockQueueDequeue s.queue
      return { s with
        queue := x.1
        pc := match x.2 with
          | some p => .sendIt p
          | none => .schedule }
  | .sendIt p => do
    let s ← s.sendIt p ret
    return { s with pc := .kfree p }
  | .kfree p => do
    let _ ← s.packet p
    return { s with packets := Function.update s.packets p none, pc := .schedule }
  | .schedule => .ok { s with pc := .kthreadShouldStop }
  | .exited => .ok s

/-- One event. -/
def step (s : Injector) : InjectorEvent → Except Crash Injector
  | .inject m ip new node => s.inject m ip new node
  | .thread ret => s.threadStep ret

/-- `free_spin_lock_queue`, as `stop_injection_thread` calls it before `kthread_stop`: the nodes,
the packets that wait and the queue are freed. -/
def freeQueue (s : Injector) (fuel : ℕ) : Except Crash Injector := do
  let x ← freeSpinLockQueue fuel s.queue
  return { s with
    queueFreed := true
    queue := { s.queue with nodes := x.2 }
    packets := fun a => if a ∈ x.1.map Prod.snd then none else s.packets a }

/-- `kmalloc` hands out memory that is not in use, and a packet that is injected lies in its object
with its header. -/
def Allocates (s : Injector) : InjectorEvent → Prop
  | .inject m ip new node =>
    (∀ a ∈ new, s.packets a = none) ∧ (∀ n ∈ node, s.queue.nodes n = none) ∧
      sizeofIphdr ≤ totLenAt m ip ∧ ip + totLenAt m ip ≤ m.length
  | .thread _ => True

/-- The thread gets its socket and is not told to stop. -/
def Willing (s : Injector) : InjectorEvent → Prop
  | .inject _ _ _ _ => True
  | .thread ret =>
    match s.pc with
    | .sockCreate | .setsockopt => ret = true
    | .kthreadShouldStop => ret = false
    | _ => True

instance decidableAllocates (s : Injector) : DecidablePred s.Allocates
  | .inject m ip new node => inferInstanceAs (Decidable
    ((∀ a ∈ new, s.packets a = none) ∧ (∀ n ∈ node, s.queue.nodes n = none) ∧
      sizeofIphdr ≤ totLenAt m ip ∧ ip + totLenAt m ip ≤ m.length))
  | .thread _ => inferInstanceAs (Decidable True)

instance decidableWilling (s : Injector) : DecidablePred s.Willing
  | .inject _ _ _ _ => inferInstanceAs (Decidable True)
  | .thread ret => by
    rw [Willing]
    split <;> infer_instance

/-! ### The invariant -/

/-- The packet that the thread has in hand. -/
def hand (s : Injector) : List ℕ :=
  match s.pc with
  | .sendIt p | .kfree p => [p]
  | _ => []

/-- The packet that the thread has in hand and has not sent. -/
def toSend (s : Injector) : List ℕ :=
  match s.pc with
  | .sendIt p => [p]
  | _ => []

private theorem toSend_subset (s : Injector) : ∀ x ∈ s.toSend, x ∈ s.hand := by
  intro x hx
  cases hpc : s.pc <;> simp_all [toSend, hand]

/-- A packet is as long as its header says. -/
def Whole (bs : List UInt8) : Prop := sizeofIphdr ≤ bs.length ∧ totLenOf bs = bs.length

/-- The queue has the nodes `l`, the newest one first; every packet that is allocated is accounted
for; and what was put into the queue was sent, is in hand or waits, in this order. -/
structure Inv (s : Injector) (l : List (ℕ × ℕ)) : Prop where
  holds : ∃ tail, s.queue.Holds tail l
  usable : s.queueFreed = false
  nodup : (s.hand ++ (l.map Prod.snd ++ s.leaked)).Nodup
  live : ∀ a, s.packets a ≠ none ↔ a ∈ s.hand ++ (l.map Prod.snd ++ s.leaked)
  whole : ∀ a bs, s.packets a = some bs → Whole bs
  order : (s.handed.map fun x => some x.bytes) ++
    (s.toSend ++ (l.map Prod.snd).reverse).map s.packets = s.accepted.map some

private theorem inv_start : start.Inv [] where
  holds := ⟨none, SlQueue.Holds.make⟩
  usable := rfl
  nodup := List.nodup_nil
  live _ := iff_of_false (fun h => h rfl) List.not_mem_nil
  whole _ _ h := nomatch h
  order := rfl

/-- The copy of a packet. -/
private theorem injectPacket_eq {m : List UInt8} {ip : ℕ} (hhead : sizeofIphdr ≤ totLenAt m ip)
    (hend : ip + totLenAt m ip ≤ m.length) :
    injectPacket true m ip = .ok (some (slice m ip (totLenAt m ip))) ∧
      injectPacket false m ip = .ok none ∧ Whole (slice m ip (totLenAt m ip)) := by
  simp only [sizeofIphdr] at hhead
  have hread : ipTotLen m ip = .ok (totLenAt m ip) := ipTotLen_at (by omega)
  have hlen : (slice m ip (totLenAt m ip)).length = totLenAt m ip := length_slice hend
  refine ⟨?_, ?_, ?_, ?_⟩
  · rw [injectPacket, hread, ok_bind, if_pos rfl, load_eq hend]
    rfl
  · rw [injectPacket, hread]
    rfl
  · rw [hlen]
    exact hhead
  · rw [hlen, totLenOf, totLenAt]
    change beVal (slice ((m.drop ip).take (totLenAt m ip)) 2 2) = _
    rw [slice_take (by omega), slice, slice, List.drop_drop]

/-- A block more is allocated. -/
private theorem live_update {packets : ℕ → Option (List UInt8)} {blocks blocks' : List ℕ}
    (h : ∀ x, packets x ≠ none ↔ x ∈ blocks) {a : ℕ} (hblocks : blocks'.Perm (a :: blocks))
    (bs : List UInt8) : ∀ x, Function.update packets a (some bs) x ≠ none ↔ x ∈ blocks' := by
  intro x
  rw [hblocks.mem_iff, List.mem_cons]
  by_cases hx : x = a
  · rw [hx, Function.update_self]
    exact iff_of_true (Option.some_ne_none bs) (.inl rfl)
  · rw [Function.update_of_ne hx, h x]
    exact (or_iff_right hx).symm

/-- **A call of `inject_packet`.** -/
theorem Inv.inject {s : Injector} {l : List (ℕ × ℕ)} (h : s.Inv l) {m : List UInt8} {ip : ℕ}
    {new node : Option ℕ} (hevent : s.Allocates (.inject m ip new node)) :
    ∃ s' l', s.inject m ip new node = .ok s' ∧ s'.Inv l' ∧ s'.pc = s.pc ∧
      s'.accepted = s.accepted ++ (InjectorEvent.inject m ip new node).copy.toList ∧
      s'.leaked.length = s.leaked.length + (InjectorEvent.inject m ip new node).lost.toNat := by
  obtain ⟨hnew, hnode, hhead, hend⟩ := hevent
  obtain ⟨hcopy, hnone, hwhole⟩ := injectPacket_eq hhead hend
  cases new with
  | none =>
    refine ⟨s, l, ?_, h, rfl, (List.append_nil _).symm, rfl⟩
    rw [Injector.inject, Option.isSome_none, hnone]
    rfl
  | some a =>
    have haccepted : ∀ n, (InjectorEvent.inject m ip (some a) (some n)).copy.toList =
      [slice m ip (totLenAt m ip)] := fun _ => rfl
    generalize slice m ip (totLenAt m ip) = bs at hcopy hwhole haccepted
    have hfree : s.packets a = none := hnew a rfl
    have ha : a ∉ s.hand ++ (l.map Prod.snd ++ s.leaked) := fun hmem => (h.live a).mpr hmem hfree
    have hnodup : (a :: (s.hand ++ (l.map Prod.snd ++ s.leaked))).Nodup :=
      List.nodup_cons.mpr ⟨ha, h.nodup⟩
    have hwhole' : ∀ x xs, Function.update s.packets a (some bs) x = some xs → Whole xs := by
      intro x xs hx
      by_cases hxa : x = a
      · rw [hxa, Function.update_self] at hx
        cases hx
        exact hwhole
      · rw [Function.update_of_ne hxa] at hx
        exact h.whole x xs hx
    -- what waits is where it was
    have hsame : (s.toSend ++ (l.map Prod.snd).reverse).map
        (Function.update s.packets a (some bs)) =
          (s.toSend ++ (l.map Prod.snd).reverse).map s.packets := by
      refine List.map_congr_left fun x hx => Function.update_of_ne ?_ _ _
      rintro rfl
      refine ha ?_
      rcases List.mem_append.mp hx with hx | hx
      · exact List.mem_append_left _ (s.toSend_subset x hx)
      · exact List.mem_append_right _ (List.mem_append_left _ (List.mem_reverse.mp hx))
    rw [Injector.inject, Option.isSome_some, hcopy]
    cases node with
    | none =>
      have hperm : (s.hand ++ (l.map Prod.snd ++ a :: s.leaked)).Perm
          (a :: (s.hand ++ (l.map Prod.snd ++ s.leaked))) :=
        (List.perm_middle.append_left s.hand).trans List.perm_middle
      exact ⟨_, l, rfl, ⟨h.holds, h.usable, hperm.nodup_iff.mpr hnodup,
        live_update h.live hperm bs, hwhole', (congrArg _ hsame).trans h.order⟩, rfl,
        (List.append_nil _).symm, rfl⟩
    | some n =>
      obtain ⟨tail, hholds⟩ := h.holds
      obtain ⟨q, hq, hholds'⟩ := hholds.enqueue (hnode n rfl) a
      have hperm : (s.hand ++ (a :: l.map Prod.snd ++ s.leaked)).Perm
          (a :: (s.hand ++ (l.map Prod.snd ++ s.leaked))) := List.perm_middle
      refine ⟨{ s with
        packets := Function.update s.packets a (some bs), queue := q
        accepted := s.accepted ++ [bs] }, (n, a) :: l, ?_, ⟨⟨tail, hholds'⟩, h.usable,
        hperm.nodup_iff.mpr hnodup, live_update h.live hperm bs, hwhole', ?_⟩, rfl,
        congrArg _ (haccepted n).symm, rfl⟩
      · rw [packetRead, ok_bind]
        dsimp only [enqueue]
        rw [h.usable, if_neg Bool.false_ne_true, hq]
        rfl
      · change (s.handed.map fun x => some x.bytes) ++
          (s.toSend ++ (a :: l.map Prod.snd).reverse).map
            (Function.update s.packets a (some bs)) = (s.accepted ++ [bs]).map some
        rw [List.reverse_cons, ← List.append_assoc, List.map_append, hsame, ← List.append_assoc,
          h.order, List.map_append, List.map_singleton, List.map_singleton, Function.update_self]

/-- A packet that is allocated can be sent as it is. -/
private theorem sendIt_eq {s : Injector} {p : ℕ} {bs : List UInt8} (hp : s.packets p = some bs)
    (hbs : Whole bs) (ret : Bool) :
    ∃ daddr, s.sendIt p ret = .ok { s with handed := s.handed ++ [⟨daddr, bs, ret⟩] } := by
  obtain ⟨hhead, htot⟩ := hbs
  simp only [sizeofIphdr] at hhead
  refine ⟨UInt32.ofNat (leVal (slice bs 16 4)), ?_⟩
  have hdaddr : ipDaddrBe bs 0 = .ok (UInt32.ofNat (leVal (slice bs 16 4))) := load_eq hhead
  have hbytes : load id bs 0 bs.length = .ok bs := by
    rw [load_eq (Nat.zero_add _).le, slice_zero_length]
    rfl
  rw [sendIt, packet, hp, ok_bind, hdaddr, packetRead, ok_bind, ipTotLen_eq (by omega), htot,
    packetRead, ok_bind, hbytes]
  rfl

/-- Nothing waits, and all is sent that the thread took. -/
def Drained (s : Injector) (l : List (ℕ × ℕ)) : Prop := l = [] ∧ s.toSend = []

/-- The steps from here until all is sent and the thread comes back to the queue. -/
def work (s : Injector) (l : List (ℕ × ℕ)) : ℕ := 5 * l.length + s.pc.turns

/-- What a step of the thread does: the queue has the nodes `l` before and `l'` after it. -/
structure Turn (s : Injector) (l : List (ℕ × ℕ)) (ret : Bool) (s' : Injector)
    (l' : List (ℕ × ℕ)) : Prop where
  step : s.threadStep ret = .ok s'
  inv : s'.Inv l'
  accepted : s'.accepted = s.accepted
  leaked : s'.leaked = s.leaked
  alive : s.Willing (.thread ret) → s.pc ≠ .exited → s'.pc ≠ .exited
  drained : s.Drained l → s'.Drained l'
  work : s.Willing (.thread ret) → s.pc ≠ .exited → s.Drained l ∨ s'.work l' < s.work l

/-- A step that only moves the thread on, with nothing in hand. -/
private theorem Turn.moveTo {s : Injector} {l : List (ℕ × ℕ)} (h : s.Inv l) {ret : Bool}
    {pc : InjectorPc} (hstep : s.threadStep ret = .ok { s with pc := pc })
    (hhand : hand { s with pc := pc } = s.hand) (hsend : toSend { s with pc := pc } = s.toSend)
    (halive : s.Willing (.thread ret) → pc ≠ .exited)
    (hturns : s.Willing (.thread ret) → pc.turns < s.pc.turns) :
    Turn s l ret { s with pc := pc } l where
  step := hstep
  inv := ⟨h.holds, h.usable, by rw [hhand]; exact h.nodup, by rw [hhand]; exact h.live, h.whole,
    by rw [hsend]; exact h.order⟩
  accepted := rfl
  leaked := rfl
  alive hwilling _ := halive hwilling
  drained hdrained := ⟨hdrained.1, hsend.trans hdrained.2⟩
  work hwilling _ := .inr (Nat.add_lt_add_left (hturns hwilling) _)

section ThreadSteps

variable {queue : SlQueue ℕ} {queueFreed : Bool} {packets : ℕ → Option (List UInt8)}
  {handed : List RawSend} {accepted : List (List UInt8)} {leaked : List ℕ} {l : List (ℕ × ℕ)}

/-- The oldest packet goes from the queue into the hand of the thread. -/
private theorem Inv.thread_dequeue
    (h : Inv ⟨queue, queueFreed, packets, .dequeue, handed, accepted, leaked⟩ l) (ret : Bool) :
    ∃ s' l', Turn ⟨queue, queueFreed, packets, .dequeue, handed, accepted, leaked⟩ l ret s' l' := by
  obtain ⟨⟨tail, hholds⟩, husable, hnodup, hlive, hwhole, horder⟩ := h
  obtain rfl : queueFreed = false := husable
  rcases List.eq_nil_or_concat l with rfl | ⟨l, ⟨b, y⟩, rfl⟩
  · refine ⟨⟨queue, false, packets, .schedule, handed, accepted, leaked⟩, [], ?_,
      ⟨⟨tail, hholds⟩, rfl, hnodup, hlive, hwhole, horder⟩, rfl, rfl, nofun, id,
      fun _ _ => .inl ⟨rfl, rfl⟩⟩
    rw [threadStep]
    dsimp only
    rw [if_neg Bool.false_ne_true, hholds.dequeue_nil]
    rfl
  · rw [List.concat_eq_append] at hholds hnodup hlive horder ⊢
    obtain ⟨q, hq, hholds'⟩ := hholds.dequeue
    have hperm : ([y] ++ (l.map Prod.snd ++ leaked)).Perm
        ((l ++ [(b, y)]).map Prod.snd ++ leaked) := by
      rw [List.map_append, List.append_assoc]
      exact (@List.perm_middle _ y (l.map Prod.snd) leaked).symm
    refine ⟨⟨q, false, packets, .sendIt y, handed, accepted, leaked⟩, l, ?_,
      ⟨⟨_, hholds'⟩, rfl, hperm.nodup_iff.mpr hnodup,
        fun a => (hlive a).trans hperm.mem_iff.symm, hwhole, ?_⟩, rfl, rfl, nofun, ?_, ?_⟩
    · rw [threadStep]
      dsimp only
      rw [if_neg Bool.false_ne_true, hq]
      rfl
    · rw [← horder, @List.map_append _ _ Prod.snd l, List.reverse_append]
      rfl
    · exact fun hdrained => absurd hdrained.1 (by simp)
    · refine fun _ _ => .inr ?_
      rw [work, work, List.length_append]
      exact Nat.lt_of_lt_of_eq (Nat.lt_succ_self _) (Nat.mul_add 5 l.length 1).symm

/-- The packet in hand is sent. -/
private theorem Inv.thread_sendIt {p : ℕ}
    (h : Inv ⟨queue, queueFreed, packets, .sendIt p, handed, accepted, leaked⟩ l) (ret : Bool) :
    ∃ s' l',
      Turn ⟨queue, queueFreed, packets, .sendIt p, handed, accepted, leaked⟩ l ret s' l' := by
  obtain ⟨hholds, husable, hnodup, hlive, hwhole, horder⟩ := h
  have hp : packets p ≠ none := (hlive p).mpr List.mem_cons_self
  obtain ⟨bs, hbs⟩ := Option.ne_none_iff_exists'.mp hp
  obtain ⟨daddr, hsend⟩ := sendIt_eq
    (s := ⟨queue, queueFreed, packets, .sendIt p, handed, accepted, leaked⟩) hbs (hwhole p bs hbs)
    ret
  refine ⟨⟨queue, queueFreed, packets, .kfree p, handed ++ [⟨daddr, bs, ret⟩], accepted, leaked⟩,
    l, ?_, ⟨hholds, husable, hnodup, hlive, hwhole, ?_⟩, rfl, rfl, nofun,
    fun hdrained => ⟨hdrained.1, rfl⟩, fun _ _ => .inr (Nat.lt_succ_self _)⟩
  · rw [threadStep]
    dsimp only
    rw [hsend]
    rfl
  · rw [← horder, List.map_append, List.append_assoc]
    refine congrArg _ ?_
    change _ = packets p :: _
    rw [hbs]
    rfl

/-- The packet that was sent is freed. -/
private theorem Inv.thread_kfree {p : ℕ}
    (h : Inv ⟨queue, queueFreed, packets, .kfree p, handed, accepted, leaked⟩ l) (ret : Bool) :
    ∃ s' l',
      Turn ⟨queue, queueFreed, packets, .kfree p, handed, accepted, leaked⟩ l ret s' l' := by
  obtain ⟨hholds, husable, hnodup, hlive, hwhole, horder⟩ := h
  have hp : packets p ≠ none := (hlive p).mpr List.mem_cons_self
  obtain ⟨bs, hbs⟩ := Option.ne_none_iff_exists'.mp hp
  have hnot : p ∉ l.map Prod.snd ++ leaked := (List.nodup_cons.mp hnodup).1
  refine ⟨⟨queue, queueFreed, Function.update packets p none, .schedule, handed, accepted,
    leaked⟩, l, ?_, ⟨hholds, husable, hnodup.of_cons, fun a => ?_, fun a xs hxs => ?_, ?_⟩, rfl,
    rfl, nofun, id, fun _ _ => .inr (Nat.lt_succ_self _)⟩
  · rw [threadStep]
    dsimp only [packet]
    rw [hbs]
    rfl
  · by_cases hap : a = p
    · rw [hap]
      exact iff_of_false (fun hne => hne (Function.update_self _ _ _)) hnot
    · refine (iff_of_eq (congrArg (· ≠ none) (Function.update_of_ne hap _ _))).trans ?_
      exact (hlive a).trans (List.mem_cons.trans (or_iff_right hap))
  · by_cases hap : a = p
    · rw [hap] at hxs
      exact absurd hxs (by simp)
    · exact hwhole a xs ((Function.update_of_ne hap _ _).symm.trans hxs)
  · rw [← horder]
    refine congrArg _ (List.map_congr_left fun a ha => Function.update_of_ne ?_ _ _)
    rintro rfl
    have ha : a ∈ (l.map Prod.snd).reverse := ha
    exact hnot (List.mem_append_left _ (List.mem_reverse.mp ha))

end ThreadSteps

/-- **A step of the thread.** -/
theorem Inv.thread {s : Injector} {l : List (ℕ × ℕ)} (h : s.Inv l) (ret : Bool) :
    ∃ s' l', Turn s l ret s' l' := by
  obtain ⟨queue, queueFreed, packets, pc, handed, accepted, leaked⟩ := s
  cases pc with
  | sockCreate | setsockopt =>
    cases ret with
    | false => exact ⟨_, l, .moveTo h rfl rfl rfl nofun nofun⟩
    | true => exact ⟨_, l, .moveTo h rfl rfl rfl (fun _ => nofun) fun _ => Nat.lt_succ_self _⟩
  | kthreadShouldStop =>
    cases ret with
    | false => exact ⟨_, l, .moveTo h rfl rfl rfl (fun _ => nofun) fun _ => Nat.lt_succ_self _⟩
    | true => exact ⟨_, l, .moveTo h rfl rfl rfl nofun nofun⟩
  | schedule => exact ⟨_, l, .moveTo h rfl rfl rfl (fun _ => nofun) fun _ => Nat.lt_succ_self _⟩
  | exited =>
    exact ⟨_, l, rfl, h, rfl, rfl, fun _ hpc => hpc, id, fun _ hpc => absurd rfl hpc⟩
  | dequeue => exact h.thread_dequeue ret
  | sendIt p => exact h.thread_sendIt ret
  | kfree p => exact h.thread_kfree ret

/-- **Every event keeps the invariant**, and touches nothing that was freed. -/
theorem Inv.step {s : Injector} {l : List (ℕ × ℕ)} (h : s.Inv l) {e : InjectorEvent}
    (he : s.Allocates e) :
    ∃ s' l', s.step e = .ok s' ∧ s'.Inv l' ∧ s'.accepted = s.accepted ++ e.copy.toList ∧
      s'.leaked.length = s.leaked.length + e.lost.toNat ∧
      (s.Willing e → s.pc ≠ .exited → s'.pc ≠ .exited) := by
  cases e with
  | inject m ip new node =>
    obtain ⟨s', l', hs', hinv, hpc, haccepted, hleaked⟩ := h.inject he
    exact ⟨s', l', hs', hinv, haccepted, hleaked, fun _ hne => hpc ▸ hne⟩
  | thread ret =>
    obtain ⟨s', l', hturn⟩ := h.thread ret
    exact ⟨s', l', hturn.step, hturn.inv, hturn.accepted.trans (List.append_nil _).symm,
      congrArg List.length hturn.leaked, hturn.alive⟩

/-- **Every run keeps the invariant.** -/
theorem Inv.run {s : Injector} {l : List (ℕ × ℕ)} (h : s.Inv l) {es : List InjectorEvent}
    (hes : Run.AllStepsM Injector.step Allocates s es) :
    ∃ s' l', Run.execM Injector.step s es = .ok s' ∧ s'.Inv l' ∧
      s'.accepted = s.accepted ++ es.filterMap InjectorEvent.copy ∧
      s'.leaked.length = s.leaked.length + es.countP InjectorEvent.lost ∧
      (Run.AllStepsM Injector.step Willing s es → s.pc ≠ .exited → s'.pc ≠ .exited) := by
  induction es generalizing s l with
  | nil => exact ⟨s, l, rfl, h, (List.append_nil _).symm, rfl, fun _ hpc => hpc⟩
  | cons e es ih =>
    obtain ⟨s₁, l₁, hs₁, hinv₁, haccepted₁, hleaked₁, halive₁⟩ := h.step hes.1
    obtain ⟨s', l', hs', hinv', haccepted', hleaked', halive'⟩ := ih hinv₁ (hes.2 s₁ hs₁)
    refine ⟨s', l', Run.execM_cons_ok.mpr ⟨s₁, hs₁, hs'⟩, hinv', ?_, ?_, ?_⟩
    · rw [haccepted', haccepted₁, List.append_assoc]
      cases hcopy : e.copy <;> simp [hcopy]
    · rw [hleaked', hleaked₁, List.countP_cons]
      cases hlost : e.lost <;> simp [Nat.add_assoc, Nat.add_comm 1]
    · exact fun hwilling hpc => halive' (hwilling.2 s₁ hs₁) (halive₁ hwilling.1 hpc)

/-- What was sent is where the packets began that were put into the queue. -/
private theorem Inv.isPrefix {s : Injector} {l : List (ℕ × ℕ)} (h : s.Inv l) :
    s.handed.map RawSend.bytes <+: s.accepted := by
  have hpre : (s.handed.map RawSend.bytes).map some <+: s.accepted.map some := by
    rw [← h.order, List.map_map]
    exact List.prefix_append _ _
  simpa using hpre.filterMap id

/-- Nothing is left to send. -/
private theorem Inv.eq_of_drained {s : Injector} {l : List (ℕ × ℕ)} (h : s.Inv l)
    (hdrained : s.Drained l) : s.handed.map RawSend.bytes = s.accepted := by
  refine (List.map_injective_iff.mpr (Option.some_injective _)) ?_
  rw [← h.order, hdrained.1, hdrained.2, List.map_map]
  exact (List.append_nil _).symm

/-- What waits and what is to be sent was put into the queue. -/
private theorem Inv.length_le {s : Injector} {l : List (ℕ × ℕ)} (h : s.Inv l) :
    s.toSend.length + l.length ≤ s.accepted.length := by
  have hlen := congrArg List.length h.order
  simp only [List.length_append, List.length_map, List.length_reverse] at hlen
  omega

/-- At most five steps for each packet of the run, and three for the socket. -/
private theorem Inv.work_le {s : Injector} {l : List (ℕ × ℕ)} (h : s.Inv l) :
    s.work l ≤ 5 * s.accepted.length + 3 := by
  have hlen := h.length_le
  have hturns : s.pc.turns ≤ 5 * s.toSend.length + 3 := by
    rw [toSend]
    cases s.pc <;> simp [InjectorPc.turns]
  rw [work]
  omega

/-- **The thread alone** sends all that waits. -/
theorem Inv.drains {s : Injector} {l : List (ℕ × ℕ)} (h : s.Inv l) (hpc : s.pc ≠ .exited)
    {rets : List Bool}
    (hrets : Run.AllStepsM Injector.step Willing s (rets.map InjectorEvent.thread))
    (hwork : s.Drained l ∨ s.work l ≤ rets.length) :
    ∃ s' l', Run.execM Injector.step s (rets.map InjectorEvent.thread) = .ok s' ∧ s'.Inv l' ∧
      s'.Drained l' ∧ s'.accepted = s.accepted := by
  induction rets generalizing s l with
  | nil =>
    refine ⟨s, l, rfl, h, hwork.elim id fun hzero => ?_, rfl⟩
    obtain ⟨hl, hturns⟩ := Nat.add_eq_zero_iff.mp (Nat.le_zero.mp hzero)
    refine ⟨List.length_eq_zero_iff.mp (by omega), ?_⟩
    cases hpc' : s.pc <;> simp_all [InjectorPc.turns, toSend]
  | cons ret rets ih =>
    obtain ⟨s₁, l₁, hturn⟩ := h.thread ret
    have hwork₁ : s₁.Drained l₁ ∨ s₁.work l₁ ≤ rets.length := by
      rcases hwork with hdrained | hwork
      · exact .inl (hturn.drained hdrained)
      · refine (hturn.work hrets.1 hpc).imp hturn.drained fun hlt => ?_
        exact Nat.le_of_lt_succ (hlt.trans_le hwork)
    obtain ⟨s', l', hs', hinv', hdrained', haccepted'⟩ :=
      ih hturn.inv (hturn.alive hrets.1 hpc) (hrets.2 s₁ hturn.step) hwork₁
    exact ⟨s', l', Run.execM_cons_ok.mpr ⟨s₁, hturn.step, hs'⟩, hinv', hdrained',
      haccepted'.trans hturn.accepted⟩

/-! ### The thread after the queue is freed -/

/-- The queue is freed, and the thread goes on with the packet that it has. -/
structure Orphaned (s : Injector) : Prop where
  freed : s.queueFreed = true
  hand : ∀ p ∈ s.hand, ∃ bs, s.packets p = some bs ∧ Whole bs
  alive : s.pc ≠ .exited

/-- **A step of the thread without its queue** comes nearer to the queue, or is at it. -/
theorem Orphaned.thread {s : Injector} (h : s.Orphaned) {ret : Bool}
    (hret : s.Willing (.thread ret)) :
    s.threadStep ret = .error (.freed queueBlock) ∨
      ∃ s', s.threadStep ret = .ok s' ∧ s'.Orphaned ∧ s'.pc.turns < s.pc.turns := by
  have hhand := h.hand
  have halive := h.alive
  obtain ⟨queue, queueFreed, packets, pc, handed, accepted, leaked⟩ := s
  obtain rfl : queueFreed = true := h.freed
  cases pc with
  | sockCreate =>
    obtain rfl : ret = true := hret
    exact .inr ⟨_, rfl, ⟨rfl, nofun, nofun⟩, Nat.lt_succ_self _⟩
  | setsockopt =>
    obtain rfl : ret = true := hret
    exact .inr ⟨_, rfl, ⟨rfl, nofun, nofun⟩, Nat.lt_succ_self _⟩
  | kthreadShouldStop =>
    obtain rfl : ret = false := hret
    exact .inr ⟨_, rfl, ⟨rfl, nofun, nofun⟩, Nat.lt_succ_self _⟩
  | schedule => exact .inr ⟨_, rfl, ⟨rfl, nofun, nofun⟩, Nat.lt_succ_self _⟩
  | exited => exact absurd rfl halive
  | dequeue => exact .inl rfl
  | sendIt p =>
    obtain ⟨bs, hbs, hwhole⟩ := hhand p List.mem_cons_self
    obtain ⟨daddr, hsend⟩ := sendIt_eq
      (s := ⟨queue, true, packets, .sendIt p, handed, accepted, leaked⟩) hbs hwhole ret
    refine .inr ⟨⟨queue, true, packets, .kfree p, handed ++ [⟨daddr, bs, ret⟩], accepted, leaked⟩,
      ?_, ⟨rfl, hhand, nofun⟩, Nat.lt_succ_self 3⟩
    rw [threadStep]
    dsimp only
    rw [hsend]
    rfl
  | kfree p =>
    obtain ⟨bs, hbs, -⟩ := hhand p List.mem_cons_self
    refine .inr ⟨⟨queue, true, Function.update packets p none, .schedule, handed, accepted,
      leaked⟩, ?_, ⟨rfl, nofun, nofun⟩, Nat.lt_succ_self 2⟩
    have hpacket : packets p = some bs := hbs
    rw [threadStep]
    dsimp only [packet]
    rw [hpacket]
    rfl

private theorem Orphaned.run {s : Injector} (h : s.Orphaned) {rets : List Bool}
    (hrets : Run.AllStepsM Injector.step Willing s (rets.map InjectorEvent.thread))
    (hlen : s.pc.turns < rets.length) :
    Run.execM Injector.step s (rets.map InjectorEvent.thread) = .error (.freed queueBlock) := by
  induction rets generalizing s with
  | nil => exact absurd hlen (Nat.not_lt_zero _)
  | cons ret rets ih =>
    rcases h.thread hrets.1 with hfault | ⟨s₁, hs₁, h₁, hlt⟩
    · exact Run.execM_cons_of_error (e := InjectorEvent.thread ret) hfault _
    · rw [List.length_cons] at hlen
      rw [List.map_cons, Run.execM_cons_of_ok (e := InjectorEvent.thread ret) hs₁]
      exact ih h₁ (hrets.2 s₁ hs₁) (by omega)

/-- A teardown that comes to its end frees what waits. -/
private theorem freeSpinLockQueue_ok {q : SlQueue ℕ} {tail : Option ℕ} {l : List (ℕ × ℕ)}
    (h : q.Holds tail l) {fuel : ℕ} (hfuel : l.length ≤ fuel) {x : List (ℕ × ℕ) × Heap ℕ ℕ}
    (hx : freeSpinLockQueue fuel q = .ok x) : x.1 = l := by
  obtain ⟨k, rfl⟩ := Nat.exists_eq_add_of_le hfuel
  rw [h.freeSpinLockQueue_eq k] at hx
  cases tail with
  | none =>
    rw [freeLoop] at hx
    cases hx
    exact List.append_nil l
  | some b => cases k <;> cases hx

/-- After the teardown the thread has what it had in hand. -/
private theorem Inv.freeQueue {s s' : Injector} {l : List (ℕ × ℕ)} (h : s.Inv l)
    (hpc : s.pc ≠ .exited)
    {fuel : ℕ} (hfuel : l.length ≤ fuel) (hs' : s.freeQueue fuel = .ok s') : s'.Orphaned := by
  obtain ⟨tail, hholds⟩ := h.holds
  obtain ⟨x, hx, hs'⟩ := bind_eq_ok.mp hs'
  cases hs'
  refine ⟨rfl, fun p hp => ?_, hpc⟩
  have hp : p ∈ s.hand := hp
  obtain ⟨bs, hbs⟩ := Option.ne_none_iff_exists'.mp ((h.live p).mpr (List.mem_append_left _ hp))
  refine ⟨bs, ?_, h.whole p bs hbs⟩
  dsimp only
  rw [freeSpinLockQueue_ok hholds hfuel hx, if_neg fun hmem => ?_, hbs]
  exact List.disjoint_of_nodup_append h.nodup hp (List.mem_append_left _ hmem)

/-- A run in which the thread gets its socket and is not told to stop. -/
private theorem run_start {es : List InjectorEvent} (hes : Run.AllStepsM step Allocates start es)
    (hwilling : Run.AllStepsM step Willing start es) :
    ∃ s l, Run.execM step start es = .ok s ∧ s.Inv l ∧
      s.accepted = es.filterMap InjectorEvent.copy ∧ s.pc ≠ .exited := by
  obtain ⟨s, l, hs, hinv, haccepted, -, halive⟩ := inv_start.run hes
  exact ⟨s, l, hs, hinv, haccepted, halive hwilling nofun⟩

/-- All that waits is sent. -/
theorem drained_run {es : List InjectorEvent} {rets : List Bool}
    (hes : Run.AllStepsM step Allocates start es)
    (hwilling : Run.AllStepsM step Willing start (es ++ rets.map InjectorEvent.thread))
    (hlen : 5 * (es.filterMap InjectorEvent.copy).length + 3 ≤ rets.length) :
    ∃ s, Run.execM step start (es ++ rets.map InjectorEvent.thread) = .ok s ∧
      s.handed.map RawSend.bytes = es.filterMap InjectorEvent.copy := by
  obtain ⟨s, l, hs, hinv, haccepted, halive⟩ := run_start hes (hwilling.append_left _)
  have hwork : s.work l ≤ rets.length := (haccepted ▸ hinv.work_le).trans hlen
  obtain ⟨s', l', hs', hinv', hdrained', haccepted'⟩ :=
    hinv.drains halive (hwilling.append_right hs) (.inr hwork)
  refine ⟨s', Run.execM_append_ok hs hs', ?_⟩
  rw [hinv'.eq_of_drained hdrained', haccepted', haccepted]

end Injector

open Injector

/-! ### Main results -/

/-- **The injection thread accounts for every packet.** In every order of the calls of
`inject_packet` and the steps of the thread, with memory that is handed out again, nothing is
touched that was freed. The socket was given the packets of the first calls, whole and in order. A
packet is allocated exactly if it waits, if the thread has it in hand, or if there was no node for
it, and each call without a node leaves such a packet behind. -/
theorem injector_accounts {es : List InjectorEvent}
    (hes : Run.AllStepsM step Injector.Allocates start es) :
    ∃ s, Run.execM step start es = .ok s ∧
      s.handed.map RawSend.bytes <+: es.filterMap InjectorEvent.copy ∧
      ∃ tail l, s.queue.Holds tail l ∧ (s.hand ++ (l.map Prod.snd ++ s.leaked)).Nodup ∧
        (∀ a, s.packets a ≠ none ↔ a ∈ s.hand ++ (l.map Prod.snd ++ s.leaked)) ∧
        s.leaked.length = es.countP InjectorEvent.lost := by
  obtain ⟨s, l, hs, hinv, haccepted, hleaked, -⟩ := inv_start.run hes
  obtain ⟨tail, hholds⟩ := hinv.holds
  have haccepted : s.accepted = es.filterMap InjectorEvent.copy := haccepted
  refine ⟨s, hs, haccepted ▸ hinv.isPrefix, tail, l, hholds, hinv.nodup, hinv.live, ?_⟩
  exact hleaked.trans (Nat.zero_add _)

/-- The thread sends and frees a packet while another one finds no memory for a node, and the memory
of the first one is handed out again. -/
def reusingInjections : List InjectorEvent :=
  [.inject (nodePacket 5).bytes 0 (some 1) (some 1), .thread true, .thread true,
    .inject (nodePacket 6).bytes 0 (some 2) none, .thread false, .thread true, .thread true,
    .thread true, .inject (nodePacket 7).bytes 0 (some 1) (some 1)]

/-- The second of three packets is never freed. -/
theorem injector_accounts_reusing :
    Run.AllStepsM step Injector.Allocates start reusingInjections ∧
      ∃ s, Run.execM step start reusingInjections = .ok s ∧
        s.handed.map RawSend.bytes <+: [(nodePacket 5).bytes, (nodePacket 7).bytes] ∧
        s.leaked.length = 1 := by
  have hes : Run.AllStepsM step Injector.Allocates start reusingInjections := by decide +kernel
  obtain ⟨s, hs, hhanded, -, -, -, -, -, hleaked⟩ := injector_accounts hes
  have hcopy : reusingInjections.filterMap InjectorEvent.copy =
      [(nodePacket 5).bytes, (nodePacket 7).bytes] := by decide +kernel
  exact ⟨hes, s, hs, hcopy ▸ hhanded, hleaked⟩

/-- **The thread sends all that waits.** A thread that has its socket and is not told to stop has
sent every packet of the calls after five steps of its own for each of them, and three more. -/
theorem injector_drains {es : List InjectorEvent} {rets : List Bool}
    (hes : Run.AllStepsM step Injector.Allocates start es)
    (hwilling : Run.AllStepsM step Willing start (es ++ rets.map InjectorEvent.thread))
    (hlen : 5 * (es.filterMap InjectorEvent.copy).length + 3 ≤ rets.length) :
    ∃ s, Run.execM step start (es ++ rets.map InjectorEvent.thread) = .ok s ∧
      s.handed.map RawSend.bytes = es.filterMap InjectorEvent.copy :=
  drained_run hes hwilling hlen

/-- After the run before, with thirteen steps more. -/
theorem injector_drains_reusing :
    Run.AllStepsM step Injector.Allocates start reusingInjections ∧
      Run.AllStepsM step Willing start
        (reusingInjections ++ (List.replicate 13 false).map InjectorEvent.thread) ∧
      ∃ s, Run.execM step start
          (reusingInjections ++ (List.replicate 13 false).map InjectorEvent.thread) = .ok s ∧
        s.handed.map RawSend.bytes = reusingInjections.filterMap InjectorEvent.copy := by
  have hes : Run.AllStepsM step Injector.Allocates start reusingInjections := by decide +kernel
  have hwilling : Run.AllStepsM step Willing start
      (reusingInjections ++ (List.replicate 13 false).map InjectorEvent.thread) := by
    decide +kernel
  exact ⟨hes, hwilling, injector_drains hes hwilling (by decide +kernel)⟩

/-- **The thread comes back to the freed queue.** `stop_injection_thread` frees the queue before it
tells the thread to stop. Whatever happened before, a thread that makes five more steps until it is
told reads the queue that is no longer there. -/
theorem stop_touches_freed {es : List InjectorEvent}
    (hes : Run.AllStepsM step Injector.Allocates start es)
    (hwilling : Run.AllStepsM step Willing start es) :
    ∃ s, Run.execM step start es = .ok s ∧
      ∀ fuel s', (es.filterMap InjectorEvent.copy).length ≤ fuel → s.freeQueue fuel = .ok s' →
        ∀ rets : List Bool, Run.AllStepsM step Willing s' (rets.map InjectorEvent.thread) →
          5 ≤ rets.length →
          Run.execM step s' (rets.map InjectorEvent.thread) = .error (.freed queueBlock) := by
  obtain ⟨s, l, hs, hinv, haccepted, halive⟩ := run_start hes hwilling
  refine ⟨s, hs, fun fuel s' hfuel hs' rets hrets hlen => ?_⟩
  have hwaits : l.length ≤ s.accepted.length := (Nat.le_add_left _ _).trans hinv.length_le
  have horphaned := hinv.freeQueue halive ((haccepted ▸ hwaits).trans hfuel) hs'
  exact horphaned.run hrets (s'.pc.turns_le.trans_lt hlen)

/-- A packet waits when the queue is freed. -/
theorem stop_touches_freed_waiting :
    ∃ s s', Run.execM step start [.inject (nodePacket 5).bytes 0 (some 1) (some 1)] = .ok s ∧
      s.freeQueue 1 = .ok s' ∧
      Run.execM step s' ([true, true, false, true, true].map InjectorEvent.thread) =
        .error (.freed queueBlock) := by
  have hes : Run.AllStepsM step Injector.Allocates start
      [.inject (nodePacket 5).bytes 0 (some 1) (some 1)] := by decide +kernel
  obtain ⟨s, hs, hfreed⟩ := stop_touches_freed hes (by decide +kernel)
  obtain ⟨s', hs'⟩ : ∃ s', s.freeQueue 1 = .ok s' := by
    cases hs
    exact ⟨_, rfl⟩
  refine ⟨s, s', hs, hs', hfreed 1 s' (by decide) hs' [true, true, false, true, true] ?_ ?_⟩
  swap
  · decide
  cases hs
  cases hs'
  decide +kernel

end MiaVita.Framework
