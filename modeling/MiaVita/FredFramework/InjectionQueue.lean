import MiaVita.FredFramework.KList
import MiaVita.Lib.Run

/-!
# The injection queue (`fred_framework/interceptors/deaggregation`, `spin_lock_queue.c`)

The packets to be injected wait in a queue of nodes with two links. New nodes come in at `first`;
`next` leads from a node to the one that came before it, `before` to the one that came after it.
`last` is the oldest node and the next one to go. All functions take the lock of the queue, so that
a run of the system is a sequence of calls. The memory of a node that is freed may be handed out
again for another one: the address of a new node is any one that is not in use.

Taking a node out moves `last` along `before` and frees the node, but the `next` of the new `last`
keeps the address of the freed node. The queue itself never looks at this link, and it is a FIFO
(`queue_fifo`). `free_spin_lock_queue` does follow it: tearing down the queue is safe exactly if no
node has been taken out since the queue was last empty, other than the last one
(`teardown_safe_iff`).
-/

namespace MiaVita.Framework

open LinkedList Fallible

variable {α : Type}

/-! ### The source -/

/-- `sl_queue_t`, with the nodes that are allocated. In a `sl_queue_node_t` the link `next` is
`front` here, and `before` is `back`. -/
structure SlQueue (α : Type) where
  nodes : Heap ℕ α
  first : Option ℕ
  last : Option ℕ

/-- `make_spin_lock_queue`. -/
def makeSpinLockQueue : SlQueue α := ⟨fun _ => none, none, none⟩

/-- `kfree`, of a node. -/
def kfree (nodes : Heap ℕ α) : Option ℕ → Heap ℕ α
  | none => nodes
  | some a => Function.update nodes a none

/-- `free_spin_lock_queue_node`: the nodes that are left, and the data of the node. -/
def freeSpinLockQueueNode (nodes : Heap ℕ α) (node : Option ℕ) : Except Crash (Heap ℕ α × α) := do
  let n ← loadNode nodes node
  return (kfree nodes node, n.data)

/-- `spin_lock_queue_enqueue`, where `kmalloc` returns the address `n`. -/
def spinLockQueueEnqueue (q : SlQueue α) (n : ℕ) (data : α) : Except Crash (SlQueue α) := do
  let nodes := Function.update q.nodes n (some ⟨data, none, none⟩)
  if q.first = none then return ⟨nodes, some n, some n⟩
  else do
    let nodes ← storeBack nodes q.first (some n)
    let nodes ← storeFront nodes (some n) q.first
    return { q with nodes, first := some n }

/-- `spin_lock_queue_dequeue`: the queue and what is returned. -/
def spinLockQueueDequeue (q : SlQueue α) : Except Crash (SlQueue α × Option α) :=
  if q.first = none then .ok (q, none)
  else if q.first = q.last then do
    let n ← loadNode q.nodes q.last
    let (nodes, _) ← freeSpinLockQueueNode q.nodes q.last
    return (⟨nodes, none, none⟩, some n.data)
  else do
    let n ← loadNode q.nodes q.last
    let (nodes, _) ← freeSpinLockQueueNode q.nodes q.last
    return (⟨nodes, q.first, n.back⟩, some n.data)

/-- The loop of `free_spin_lock_queue`, for a number of turns: the nodes that it frees, in order,
with their data, and those that are left. -/
def freeLoop : ℕ → Heap ℕ α → Option ℕ → Except Crash (List (ℕ × α) × Heap ℕ α)
  | _, nodes, none => .ok ([], nodes)
  | 0, _, some _ => .error .endless
  | fuel + 1, nodes, some it => do
    let n ← loadNode nodes (some it)
    let (nodes, data) ← freeSpinLockQueueNode nodes (some it)
    let (freed, nodes) ← freeLoop fuel nodes n.front
    return ((it, data) :: freed, nodes)

/-- `free_spin_lock_queue`. -/
def freeSpinLockQueue (fuel : ℕ) (q : SlQueue α) : Except Crash (List (ℕ × α) × Heap ℕ α) :=
  freeLoop fuel q.nodes q.first

/-! ### What a queue holds -/

private theorem freeSpinLockQueueNode_some {nodes : Heap ℕ α} {a : ℕ} {n : Node ℕ α}
    (h : nodes a = some n) :
    freeSpinLockQueueNode nodes (some a) = .ok (Function.update nodes a none, n.data) := by
  rw [freeSpinLockQueueNode, loadNode_some h]
  rfl

/-- No node is left outside of a list after one has been freed. -/
private theorem update_none_of_notMem {nodes : Heap ℕ α} {a : ℕ} {s t : List ℕ}
    (honly : ∀ b, b ∉ t → nodes b = none) (ht : ∀ b ∈ t, b = a ∨ b ∈ s) :
    ∀ b, b ∉ s → Function.update nodes a none b = none := by
  intro b hb
  by_cases hba : b = a
  · rw [hba, Function.update_self]
  · rw [Function.update_of_ne hba]
    exact honly b fun hmem => (ht b hmem).elim hba hb

/-- The queue holds the given nodes, the newest one first, and no other node is allocated. `tail` is
the link `next` of the oldest one, none if there is no node. -/
structure SlQueue.Holds (q : SlQueue α) (tail : Option ℕ) (l : List (ℕ × α)) : Prop where
  first_eq : q.first = headAddr none l
  last_eq : q.last = lastAddr none l
  linked : Linked q.nodes none tail l
  nodup : (l.map Prod.fst).Nodup
  only : ∀ a, a ∉ l.map Prod.fst → q.nodes a = none
  tail_nil : l = [] → tail = none

namespace SlQueue.Holds

variable {q : SlQueue α} {tail : Option ℕ} {l : List (ℕ × α)}

theorem make : (makeSpinLockQueue : SlQueue α).Holds none [] :=
  ⟨rfl, rfl, trivial, List.nodup_nil, fun _ _ => rfl, fun _ => rfl⟩

private theorem notMem_of_free (h : q.Holds tail l) {n : ℕ} (hn : q.nodes n = none) :
    n ∉ l.map Prod.fst := by
  intro hmem
  obtain ⟨⟨a, x⟩, hax, rfl⟩ := List.mem_map.mp hmem
  obtain ⟨l₁, l₂, rfl⟩ := List.append_of_mem hax
  have hnode := (linked_append.mp h.linked).2.1
  rw [hn] at hnode
  cases hnode

/-- **A node more.** -/
theorem enqueue (h : q.Holds tail l) {n : ℕ} (hn : q.nodes n = none) (data : α) :
    ∃ q', spinLockQueueEnqueue q n data = .ok q' ∧
      q'.Holds tail ((n, data) :: l) := by
  have hnew := h.notMem_of_free hn
  have hnodup : (((n, data) :: l).map Prod.fst).Nodup := by
    rw [List.map_cons, List.nodup_cons]
    exact ⟨hnew, h.nodup⟩
  obtain ⟨nodes, first, last⟩ := q
  obtain ⟨hfirst, hlast, hlinked, -, honly, htail⟩ := h
  dsimp only at hfirst hlast hlinked honly hn
  have honly' : ∀ a, a ∉ ((n, data) :: l).map Prod.fst → nodes a = none ∧ a ≠ n := by
    intro a ha
    rw [List.map_cons, List.mem_cons, not_or] at ha
    exact ⟨honly a ha.2, ha.1⟩
  rw [spinLockQueueEnqueue]
  dsimp only
  cases l with
  | nil =>
    obtain rfl : first = none := hfirst
    obtain rfl := htail rfl
    rw [if_pos rfl]
    refine ⟨_, rfl, rfl, rfl, ⟨Function.update_self _ _ _, trivial⟩, hnodup, fun a ha => ?_,
      fun _ => rfl⟩
    obtain ⟨ha, hne⟩ := honly' a ha
    exact (Function.update_of_ne hne _ _).trans ha
  | cons m l =>
    obtain ⟨b, y⟩ := m
    obtain rfl : first = some b := hfirst
    have hbn : b ≠ n := by
      rintro rfl
      exact hnew (by simp)
    have hnode : Function.update nodes n (some ⟨data, none, none⟩) b = _ :=
      (Function.update_of_ne hbn _ _).trans hlinked.1
    have hself : setBack (Function.update nodes n (some ⟨data, none, none⟩)) (some b) (some n) n =
        some ⟨data, none, none⟩ := by
      rw [setBack_of_ne fun heq => hbn (Option.some.inj heq), Function.update_self]
    rw [if_neg (Option.some_ne_none b), storeBack_some hnode, ok_bind, storeFront_some hself]
    refine ⟨_, rfl, rfl, hlast, ⟨?_, ?_⟩, hnodup, fun a ha => ?_, fun h => absurd h (by simp)⟩
    · refine (Function.update_self n _ _).trans ?_
      rw [hself]
      rfl
    · -- the nodes of before, the newest of which gets its link to the new one
      have hold : Linked (Function.update nodes n (some ⟨data, none, none⟩)) none tail
          ((b, y) :: l) := hlinked.congr fun a ha => update_of_notMem hnew ha nodes _
      refine (hold.relink_back (List.nodup_cons.mp hnodup).2 (some n)).congr fun a ha => ?_
      dsimp only [headAddr]
      refine setFront_of_ne fun heq => hnew ?_
      rw [Option.some.inj heq]
      exact ha
    · obtain ⟨ha, hne⟩ := honly' a ha
      dsimp only
      exact setFront_eq_none (setBack_eq_none ((Function.update_of_ne hne _ _).trans ha) _ _) _ _

theorem dequeue_nil (h : q.Holds tail []) : spinLockQueueDequeue q = .ok (q, none) :=
  if_pos h.first_eq

/-- **A node less.** The link of the node behind which it was keeps its address. -/
theorem dequeue {b : ℕ} {y : α} (h : q.Holds tail (l ++ [(b, y)])) :
    ∃ q', spinLockQueueDequeue q = .ok (q', some y) ∧
      q'.Holds (if l = [] then none else some b) l := by
  obtain ⟨nodes, first, last⟩ := q
  obtain ⟨hfirst, hlast, hlinked, hnodup, honly, -⟩ := h
  obtain rfl : last = some b := hlast.trans (lastAddr_concat none l (b, y))
  obtain ⟨hl, hnode, -⟩ := linked_append.mp hlinked
  dsimp only at hfirst hl hnode honly
  rw [List.map_append, List.nodup_append] at hnodup
  obtain ⟨hnodup, -, hdisj⟩ := hnodup
  have hb : b ∉ l.map Prod.fst := fun hb => hdisj b hb b (by simp) rfl
  have honly' : ∀ a, a ∉ l.map Prod.fst → Function.update nodes b none a = none := by
    refine update_none_of_notMem honly fun a ha => ?_
    rw [List.map_append, List.mem_append, or_comm] at ha
    exact ha.imp_left List.mem_singleton.mp
  rw [spinLockQueueDequeue]
  dsimp only
  rw [loadNode_some hnode, ok_bind, freeSpinLockQueueNode_some hnode, ok_bind]
  by_cases hl' : l = []
  · subst hl'
    obtain rfl : first = some b := hfirst
    rw [if_neg (Option.some_ne_none b), if_pos rfl, if_pos rfl]
    exact ⟨_, rfl, rfl, rfl, trivial, List.nodup_nil, honly', fun _ => rfl⟩
  · obtain ⟨c, x, l', rfl, hc⟩ := exists_headAddr hl' (some b)
    obtain rfl : first = some c := hfirst.trans ((headAddr_append none _ _).trans hc)
    have hcb : some c ≠ some b := by
      intro heq
      exact hb (by simp [Option.some.inj heq])
    rw [if_neg (Option.some_ne_none c), if_neg hcb, if_neg hl']
    refine ⟨_, rfl, rfl, rfl, ?_, hnodup, honly', fun h => absurd h hl'⟩
    exact hl.congr fun a ha => update_of_notMem hb ha nodes _

end SlQueue.Holds

/-! ### Tearing down -/

/-- **The loop of the teardown**, over nodes that are linked: it frees them all, and then comes to
the link behind the last one, with no node left. -/
theorem freeLoop_linked {nodes : Heap ℕ α} {prev tail : Option ℕ} {l : List (ℕ × α)}
    (hlinked : Linked nodes prev tail l) (hnodup : (l.map Prod.fst).Nodup)
    (honly : ∀ a, a ∉ l.map Prod.fst → nodes a = none) (fuel : ℕ) :
    freeLoop (l.length + fuel) nodes (headAddr tail l) =
      (freeLoop fuel (fun _ => none) tail).map fun r => (l ++ r.1, r.2) := by
  induction l generalizing nodes prev with
  | nil =>
    obtain rfl : nodes = fun _ => none := funext fun a => honly a (by simp)
    rw [List.length_nil, Nat.zero_add, headAddr]
    cases freeLoop fuel (fun _ => none) tail <;> rfl
  | cons m l ih =>
    obtain ⟨a, x⟩ := m
    obtain ⟨hnode, hlinked⟩ := hlinked
    rw [List.map_cons, List.nodup_cons] at hnodup
    have hrest : Linked (Function.update nodes a none) (some a) tail l :=
      hlinked.congr fun b hb => update_of_notMem hnodup.1 hb nodes _
    have honly' : ∀ b, b ∉ l.map Prod.fst → Function.update nodes a none b = none :=
      update_none_of_notMem honly fun b hb => List.mem_cons.mp hb
    rw [List.length_cons, Nat.succ_add, headAddr, freeLoop, loadNode_some hnode, ok_bind,
      freeSpinLockQueueNode_some hnode, ok_bind]
    dsimp only
    rw [ih hrest hnodup.2 honly']
    cases freeLoop fuel (fun _ => none) tail <;> rfl

/-- The teardown follows a link to a node that is not there. -/
private theorem freeLoop_stale (fuel b : ℕ) :
    freeLoop (fuel + 1) (fun _ => none : Heap ℕ α) (some b) = .error (.freed b) := rfl

namespace SlQueue.Holds

variable {q : SlQueue α} {tail : Option ℕ} {l : List (ℕ × α)}

theorem freeSpinLockQueue_eq (h : q.Holds tail l) (fuel : ℕ) :
    freeSpinLockQueue (l.length + fuel) q =
      (freeLoop fuel (fun _ => none) tail).map fun r => (l ++ r.1, r.2) := by
  have hfirst : q.first = headAddr tail l := by
    rw [h.first_eq]
    by_cases hl : l = []
    · rw [hl, h.tail_nil hl]
    · exact headAddr_of_ne_nil hl none tail
  rw [freeSpinLockQueue, hfirst]
  exact freeLoop_linked h.linked h.nodup h.only fuel

/-- **The teardown** frees the nodes of the queue and nothing else exactly if the oldest one has no
stale link. -/
theorem freeSpinLockQueue_iff (h : q.Holds tail l) :
    (∀ fuel, l.length ≤ fuel → freeSpinLockQueue fuel q = .ok (l, fun _ => none)) ↔
      tail = none := by
  constructor
  · intro hall
    have hfree := hall (l.length + 1) (Nat.le_succ _)
    rw [h.freeSpinLockQueue_eq 1] at hfree
    cases tail with
    | none => rfl
    | some b =>
      rw [freeLoop_stale] at hfree
      cases hfree
  · rintro rfl fuel hfuel
    obtain ⟨k, rfl⟩ := Nat.exists_eq_add_of_le hfuel
    rw [h.freeSpinLockQueue_eq k, freeLoop]
    exact congrArg (fun r => Except.ok (r, fun _ => none)) (List.append_nil l)

/-- The links `next` list the nodes and end behind the oldest one exactly if that one has no stale
link. -/
private theorem represents_iff (h : q.Holds tail l) :
    Represents q.nodes q.first q.last l ↔ tail = none := by
  constructor
  · intro hrep
    rcases List.eq_nil_or_concat l with hl | ⟨l', m, hl⟩
    · exact h.tail_nil hl
    · rw [List.concat_eq_append] at hl
      subst hl
      have hnode := (linked_append.mp h.linked).2.1
      rw [(linked_append.mp hrep.linked).2.1] at hnode
      exact (congrArg Node.front (Option.some.inj hnode)).symm
  · rintro rfl
    exact ⟨h.first_eq, h.last_eq, h.linked, h.nodup⟩

end SlQueue.Holds

/-! ### Runs -/

/-- A call. A new node comes with the address that `kmalloc` gives it. -/
inductive QueueCall (α : Type) where
  | enqueue (n : ℕ) (data : α)
  | dequeue

/-- A queue, with the values that were put in and what the dequeues returned, in order. -/
structure QueueRun (α : Type) where
  queue : SlQueue α
  enqueued : List α
  returned : List (Option α)

/-- A new queue. -/
def QueueRun.start : QueueRun α := ⟨makeSpinLockQueue, [], []⟩

/-- One call. -/
def queueStep (s : QueueRun α) : QueueCall α → Except Crash (QueueRun α)
  | .enqueue n data => do
    let q ← spinLockQueueEnqueue s.queue n data
    return { s with queue := q, enqueued := s.enqueued ++ [data] }
  | .dequeue => do
    let (q, data) ← spinLockQueueDequeue s.queue
    return { s with queue := q, returned := s.returned ++ [data] }

/-- `kmalloc` hands out memory that is not in use. It may have been in use before. -/
def Allocates (s : QueueRun α) : QueueCall α → Prop
  | .enqueue n _ => s.queue.nodes n = none
  | .dequeue => True

/-- **What the queue is for**: the nodes that wait, the newest one first; and whether one has been
taken out, with others left, since no node was waiting. -/
structure Waiting (α : Type) where
  nodes : List (ℕ × α)
  stale : Bool

/-- No node waits. -/
def Waiting.empty : Waiting α := ⟨[], false⟩

/-- What a call does to the nodes that wait. -/
def Waiting.step (w : Waiting α) : QueueCall α → Waiting α
  | .enqueue n data => { w with nodes := (n, data) :: w.nodes }
  | .dequeue => ⟨w.nodes.dropLast, !w.nodes.dropLast.isEmpty⟩

/-- The nodes that wait after some calls on a new queue. -/
def Waiting.after (calls : List (QueueCall α)) : Waiting α := Run.exec Waiting.step .empty calls

/-- The values that the dequeues returned. -/
def QueueRun.values (s : QueueRun α) : List α := s.returned.filterMap id

/-- The memory has the nodes that wait, and the values that were put in have been returned or wait,
in this order. -/
structure QueueRun.Models (s : QueueRun α) (w : Waiting α) : Prop where
  holds : ∃ tail : Option ℕ, s.queue.Holds tail w.nodes ∧ tail.isSome = w.stale
  enqueued_eq : s.enqueued = s.values ++ (w.nodes.map Prod.snd).reverse

private theorem models_start : (QueueRun.start : QueueRun α).Models .empty :=
  ⟨⟨none, SlQueue.Holds.make, rfl⟩, rfl⟩

/-- **One call** on the memory is one on the nodes that wait. -/
theorem models_queueStep (s : QueueRun α) (w : Waiting α) (c : QueueCall α) (h : s.Models w)
    (hc : Allocates s c) : ∃ s', queueStep s c = .ok s' ∧ s'.Models (w.step c) := by
  obtain ⟨⟨tail, hholds, hstale⟩, henqueued⟩ := h
  cases c with
  | enqueue n data =>
    obtain ⟨q, hq, hholds⟩ := hholds.enqueue hc data
    rw [queueStep, hq, ok_bind]
    refine ⟨_, rfl, ⟨tail, hholds, hstale⟩, ?_⟩
    dsimp only [Waiting.step]
    rw [henqueued, List.map_cons, List.reverse_cons, List.append_assoc]
    rfl
  | dequeue =>
    obtain ⟨nodes, stale⟩ := w
    rw [queueStep]
    rcases List.eq_nil_or_concat nodes with rfl | ⟨l, m, rfl⟩
    · rw [hholds.dequeue_nil, ok_bind]
      refine ⟨_, rfl, ⟨tail, hholds, ?_⟩, ?_⟩
      · rw [hholds.tail_nil rfl]
        rfl
      · rw [henqueued, QueueRun.values, QueueRun.values, List.filterMap_append]
        simp [Waiting.step]
    · obtain ⟨b, y⟩ := m
      rw [List.concat_eq_append] at hholds henqueued
      obtain ⟨q, hq, hholds⟩ := hholds.dequeue
      rw [hq, ok_bind, Waiting.step]
      dsimp only
      rw [List.concat_eq_append, List.dropLast_concat]
      refine ⟨_, rfl, ⟨_, hholds, ?_⟩, ?_⟩
      · cases l <;> rfl
      · rw [henqueued, QueueRun.values, QueueRun.values, List.filterMap_append]
        simp

/-- **Every run** on the memory is one on the nodes that wait. -/
theorem models_run {calls : List (QueueCall α)}
    (hcalls : Run.AllStepsM queueStep Allocates .start calls) :
    ∃ s, Run.execM queueStep .start calls = .ok s ∧ s.Models (.after calls) :=
  Run.simulation_allStepsM models_queueStep models_start hcalls

/-- **The queue is a FIFO.** The values that the dequeues returned are the first ones that were put
in, and the next dequeue returns `NULL` exactly if all of them have been returned. -/
theorem queue_fifo (calls : List (QueueCall α))
    (hcalls : Run.AllStepsM queueStep Allocates .start calls) :
    ∃ s, Run.execM queueStep .start calls = .ok s ∧ s.values <+: s.enqueued ∧
      ∃ q data, spinLockQueueDequeue s.queue = .ok (q, data) ∧
        (data = none ↔ s.values = s.enqueued) := by
  obtain ⟨s, hs, ⟨tail, hholds, -⟩, henqueued⟩ := models_run hcalls
  generalize Waiting.after calls = w at hholds henqueued
  obtain ⟨nodes, stale⟩ := w
  refine ⟨s, hs, ⟨_, henqueued.symm⟩, ?_⟩
  rcases List.eq_nil_or_concat nodes with rfl | ⟨l, m, rfl⟩
  · refine ⟨s.queue, none, hholds.dequeue_nil, iff_of_true rfl ?_⟩
    rw [henqueued]
    exact (List.append_nil _).symm
  · rw [List.concat_eq_append] at hholds henqueued
    obtain ⟨q, hq, -⟩ := hholds.dequeue
    refine ⟨q, some m.2, hq, iff_of_false (Option.some_ne_none _) fun heq => ?_⟩
    have hlen := congrArg List.length (heq.trans henqueued)
    simp at hlen

/-- The memory of a node that was taken out is used again. -/
def reusingCalls : List (QueueCall ℕ) := [.enqueue 0 5, .enqueue 1 6, .dequeue, .enqueue 0 7]

private theorem allocates_reusingCalls : Run.AllStepsM queueStep Allocates .start reusingCalls := by
  refine ⟨rfl, ?_⟩
  rintro _ ⟨⟩
  refine ⟨rfl, ?_⟩
  rintro _ ⟨⟩
  refine ⟨trivial, ?_⟩
  rintro _ ⟨⟩
  refine ⟨rfl, ?_⟩
  rintro _ ⟨⟩
  trivial

/-- A run in which memory is used again. -/
theorem queue_fifo_reusing :
    Run.AllStepsM queueStep Allocates .start reusingCalls ∧
      ∃ s, Run.execM queueStep .start reusingCalls = .ok s ∧ s.values <+: s.enqueued ∧
        ∃ q data, spinLockQueueDequeue s.queue = .ok (q, data) ∧
          (data = none ↔ s.values = s.enqueued) :=
  ⟨allocates_reusingCalls, queue_fifo reusingCalls allocates_reusingCalls⟩

/-- **The teardown is safe** exactly if no node has been taken out, with others left, since the
queue was last empty: then it frees the nodes that wait, the newest one first, and no node is left.
This is also exactly when the links `next` list these nodes and end behind the oldest one. -/
theorem teardown_safe_iff (calls : List (QueueCall α))
    (hcalls : Run.AllStepsM queueStep Allocates .start calls) :
    ∃ s, Run.execM queueStep .start calls = .ok s ∧
      ((∀ fuel, (Waiting.after calls).nodes.length ≤ fuel →
        freeSpinLockQueue fuel s.queue = .ok ((Waiting.after calls).nodes, fun _ => none)) ↔
          (Waiting.after calls).stale = false) ∧
      (Represents s.queue.nodes s.queue.first s.queue.last (Waiting.after calls).nodes ↔
        (Waiting.after calls).stale = false) := by
  obtain ⟨s, hs, ⟨tail, hholds, hstale⟩, -⟩ := models_run hcalls
  have htail : tail = none ↔ (Waiting.after calls).stale = false := by
    rw [← hstale, Option.isSome_eq_false_iff, Option.isNone_iff_eq_none]
  exact ⟨s, hs, hholds.freeSpinLockQueue_iff.trans htail, hholds.represents_iff.trans htail⟩

/-- Two nodes that wait, with none taken out. -/
theorem teardown_safe_two :
    Run.AllStepsM queueStep Allocates .start [.enqueue 0 5, .enqueue 1 6] ∧
      ∃ s, Run.execM queueStep .start [.enqueue 0 5, .enqueue 1 6] = .ok s ∧
        ∀ fuel, 2 ≤ fuel →
          freeSpinLockQueue fuel s.queue = .ok ([(1, 6), (0, 5)], fun _ => none) := by
  have hcalls : Run.AllStepsM queueStep Allocates .start [.enqueue 0 5, .enqueue 1 6] :=
    Run.AllStepsM.append_left [.dequeue, .enqueue 0 7] allocates_reusingCalls
  obtain ⟨s, hs, hfree, -⟩ := teardown_safe_iff [.enqueue 0 5, .enqueue 1 6] hcalls
  exact ⟨hcalls, s, hs, hfree.mpr rfl⟩

/-- Of two nodes the older one is taken out, and the teardown comes to it again. -/
theorem teardown_touches_freed :
    Run.AllStepsM queueStep Allocates .start [.enqueue 0 5, .enqueue 1 6, .dequeue] ∧
      ∃ s, Run.execM queueStep .start [.enqueue 0 5, .enqueue 1 6, .dequeue] = .ok s ∧
        s.returned = [some 5] ∧
        ∀ fuel, freeSpinLockQueue (fuel + 2) s.queue = .error (.freed 0) := by
  refine ⟨?_, _, rfl, rfl, fun fuel => rfl⟩
  exact Run.AllStepsM.append_left [.enqueue 0 7] allocates_reusingCalls

end MiaVita.Framework
