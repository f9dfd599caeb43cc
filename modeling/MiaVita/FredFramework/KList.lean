import MiaVita.Lib.LinkedList
import MiaVita.Lib.Memory

/-!
# The lists of the framework (`fred_framework`, `klist.c`)

A `klist` is a doubly linked list of nodes with a pointer each, with iterators that can remove and
insert. The functions are translated as they are, access by access: a step through a null pointer,
or to a block that is not allocated, stops the kernel (`Crash`).

`kmalloc` never hands out a block that is in use, so that the nodes of two lists never meet. Each
list has its own part of the heap here, with addresses given out in order. No node is ever freed by
these functions: `free_klist_node` frees null pointers only.

`KList.Holds` relates a list in memory to the list of its nodes; one lemma for each function says
what it does to that list. The loops of the framework go over a list with an iterator; from what
such a loop does at one node, `walk_to` and `walk_past` say where it comes to.
-/

namespace MiaVita.Framework

open LinkedList Fallible

/-- What stops the kernel. -/
inductive Crash where
  /-- An access through a null pointer. -/
  | null
  /-- An access to a block that is not allocated. -/
  | freed (address : ℕ)
  /-- A loop that does not end. -/
  | endless
  /-- A read outside of a packet. -/
  | packet (fault : Memory.Fault)
  deriving DecidableEq

variable {α : Type}

/-! ### Nodes with two links -/

/-- `*p`. -/
def loadNode (nodes : Heap ℕ α) : Option ℕ → Except Crash (Node ℕ α)
  | none => .error .null
  | some a =>
    match nodes a with
    | some n => .ok n
    | none => .error (.freed a)

/-- `p->front = q`. -/
def storeFront (nodes : Heap ℕ α) (p q : Option ℕ) : Except Crash (Heap ℕ α) := do
  let _ ← loadNode nodes p
  return setFront nodes p q

/-- `p->back = q`. -/
def storeBack (nodes : Heap ℕ α) (p q : Option ℕ) : Except Crash (Heap ℕ α) := do
  let _ ← loadNode nodes p
  return setBack nodes p q

section Access

variable {nodes : Heap ℕ α} {a : ℕ} {n : Node ℕ α} (h : nodes a = some n)
include h

theorem loadNode_some : loadNode nodes (some a) = .ok n := by
  rw [loadNode, h]

theorem storeFront_some (q : Option ℕ) :
    storeFront nodes (some a) q = .ok (setFront nodes (some a) q) := by
  rw [storeFront, loadNode_some h]
  rfl

theorem storeBack_some (q : Option ℕ) :
    storeBack nodes (some a) q = .ok (setBack nodes (some a) q) := by
  rw [storeBack, loadNode_some h]
  rfl

end Access

/-! ### The source -/

/-- `klist`, with the nodes of the list and the place of the next one. -/
structure KList where
  nodes : Heap ℕ ℕ
  next : ℕ
  first : Option ℕ
  last : Option ℕ

/-- `make_klist`. -/
def makeKlist : KList := ⟨fun _ => none, 0, none, none⟩

namespace KList

/-- `*p`. -/
def node (kl : KList) (p : Option ℕ) : Except Crash (Node ℕ ℕ) := loadNode kl.nodes p

/-- `p->front = q`. -/
def writeFront (kl : KList) (p q : Option ℕ) : Except Crash KList := do
  let nodes ← storeFront kl.nodes p q
  return { kl with nodes }

/-- `p->back = q`. -/
def writeBack (kl : KList) (p q : Option ℕ) : Except Crash KList := do
  let nodes ← storeBack kl.nodes p q
  return { kl with nodes }

/-- `make_klist_node`, where there is memory. -/
def makeKlistNode (kl : KList) (data : ℕ) : KList × ℕ :=
  ({ kl with
      nodes := Function.update kl.nodes kl.next (some ⟨data, none, none⟩)
      next := kl.next + 1 },
    kl.next)

/-- `add_klist_node_to_klist`. -/
def addKlistNodeToKlist (kl : KList) (kn : ℕ) : Except Crash KList :=
  if kl.first = none then .ok { kl with first := some kn, last := some kn }
  else do
    let kl ← kl.writeBack (some kn) kl.last
    let kl ← kl.writeFront kl.last (some kn)
    return { kl with last := some kn }

/-- `remove_klist_node_from_klist`. -/
def removeKlistNodeFromKlist (kl : KList) (kn : ℕ) : Except Crash KList :=
  if kl.first = some kn ∧ kl.last = some kn then .ok { kl with first := none, last := none }
  else if kl.first = some kn then do
    let n ← kl.node (some kn)
    let kl := { kl with first := n.front }
    kl.writeBack kl.first none
  else if kl.last = some kn then do
    let n ← kl.node (some kn)
    let kl := { kl with last := n.back }
    kl.writeFront kl.last none
  else do
    let n ← kl.node (some kn)
    let kl ← kl.writeFront n.back n.front
    let n ← kl.node (some kn)
    kl.writeBack n.front n.back

/-! An iterator is its current node; `klist_iterator_has_next` asks whether there is one. -/

/-- `klist_iterator_next`: the node that is returned and the one behind it. -/
def klistIteratorNext (kl : KList) (cur : Option ℕ) : Except Crash (Option ℕ × Option ℕ) :=
  if cur = none then .ok (none, none)
  else do
    let n ← kl.node cur
    return (cur, n.front)

/-- `klist_iterator_remove_current`: the list, the current node and the datum that is returned. -/
def klistIteratorRemoveCurrent (kl : KList) (cur : Option ℕ) :
    Except Crash (KList × Option ℕ × Option ℕ) :=
  match cur with
  | some kn => do
    let n ← kl.node cur
    let kl ← kl.removeKlistNodeFromKlist kn
    return (kl, n.front, some n.data)
  | none => .ok (kl, none, none)

/-- `klist_iterator_insert_before`. -/
def klistIteratorInsertBefore (kl : KList) (cur : Option ℕ) (data : ℕ) : Except Crash KList := do
  let new := (kl.makeKlistNode data).2
  let kl := (kl.makeKlistNode data).1
  let kl := if cur = kl.first then { kl with first := some new } else kl
  let kl ← kl.writeFront (some new) cur
  let c ← kl.node cur
  let kl ← kl.writeBack (some new) c.back
  let c ← kl.node cur
  let kl ← if c.back ≠ none then kl.writeFront c.back (some new) else .ok kl
  kl.writeBack cur (some new)

/-! ### What a list holds -/

/-- The list in memory holds the given nodes, and nothing is allocated from `next` on. -/
structure Holds (kl : KList) (l : List (ℕ × ℕ)) : Prop extends
    Represents kl.nodes kl.first kl.last l where
  fresh : ∀ a, kl.next ≤ a → kl.nodes a = none

theorem holds_makeKlist : makeKlist.Holds [] := ⟨.nil _, fun _ _ => rfl⟩

/-- The list has a node with the datum. -/
def Has (kl : KList) (x : ℕ) : Prop := ∃ l, kl.Holds l ∧ x ∈ l.map Prod.snd

theorem Holds.has_iff {kl : KList} {l : List (ℕ × ℕ)} (h : kl.Holds l) (x : ℕ) :
    kl.Has x ↔ x ∈ l.map Prod.snd := by
  constructor
  · rintro ⟨l', hl', hx⟩
    rwa [h.toRepresents.unique hl'.toRepresents]
  · exact fun hx => ⟨l, h, hx⟩

section Access

variable {nodes : Heap ℕ ℕ} {a : ℕ} {n : Node ℕ ℕ} (h : nodes a = some n) (next : ℕ)
  (first last q : Option ℕ)
include h

theorem node_mk : (⟨nodes, next, first, last⟩ : KList).node (some a) = .ok n := loadNode_some h

private theorem writeFront_mk : (⟨nodes, next, first, last⟩ : KList).writeFront (some a) q =
    .ok ⟨setFront nodes (some a) q, next, first, last⟩ := by
  rw [writeFront, storeFront_some h]
  rfl

private theorem writeBack_mk : (⟨nodes, next, first, last⟩ : KList).writeBack (some a) q =
    .ok ⟨setBack nodes (some a) q, next, first, last⟩ := by
  rw [writeBack, storeBack_some h]
  rfl

end Access

section Writes

variable {kl kl' : KList} {p q : Option ℕ}

theorem writeFront_ok (h : kl.writeFront p q = .ok kl') :
    kl' = { kl with nodes := setFront kl.nodes p q } := by
  obtain ⟨nodes, hnodes, h⟩ := bind_eq_ok.mp h
  obtain ⟨n, -, hnodes⟩ := bind_eq_ok.mp hnodes
  cases hnodes
  cases h
  rfl

theorem writeBack_ok (h : kl.writeBack p q = .ok kl') :
    kl' = { kl with nodes := setBack kl.nodes p q } := by
  obtain ⟨nodes, hnodes, h⟩ := bind_eq_ok.mp h
  obtain ⟨n, -, hnodes⟩ := bind_eq_ok.mp hnodes
  cases hnodes
  cases h
  rfl

end Writes

namespace Holds

variable {kl : KList} {l l₁ l₂ : List (ℕ × ℕ)} {a x : ℕ}

/-- The node at an address of the list. -/
theorem node_ok (h : kl.Holds (l₁ ++ (a, x) :: l₂)) :
    kl.node (some a) = .ok ⟨x, headAddr none l₂, lastAddr none l₁⟩ := node_mk h.node _ _ _

/-- The node at the start. -/
theorem node_first (h : kl.Holds ((a, x) :: l)) :
    kl.node (some a) = .ok ⟨x, headAddr none l, none⟩ := node_ok (show kl.Holds ([] ++ _) from h)

private theorem next_notMem (h : kl.Holds l) : kl.next ∉ l.map Prod.fst := by
  intro hmem
  obtain ⟨⟨a, x⟩, hmem, rfl⟩ := List.mem_map.mp hmem
  obtain ⟨l₁, l₂, rfl⟩ := List.append_of_mem hmem
  have hnode := h.node
  rw [h.fresh _ (Nat.le_refl _)] at hnode
  cases hnode

private theorem addr_ne_next (h : kl.Holds (l₁ ++ (a, x) :: l₂)) : a ≠ kl.next := by
  rintro rfl
  exact h.next_notMem (by simp)

theorem addr_notMem (h : kl.Holds (l₁ ++ (a, x) :: l₂)) :
    a ∉ l₁.map Prod.fst ∧ a ∉ l₂.map Prod.fst := by
  have hnodup := h.nodup
  rw [List.map_append, List.map_cons, List.nodup_append, List.nodup_cons] at hnodup
  exact ⟨fun ha => hnodup.2.2 a ha a List.mem_cons_self rfl, hnodup.2.1.1⟩

private theorem first_ne (h : kl.Holds (l₁ ++ (a, x) :: l₂)) (hl₁ : l₁ ≠ []) :
    kl.first ≠ some a := by
  rw [h.first_eq, headAddr_append, headAddr_of_ne_nil hl₁ _ none]
  exact headAddr_ne h.addr_notMem.1

private theorem last_ne (h : kl.Holds (l₁ ++ (a, x) :: l₂)) (hl₂ : l₂ ≠ []) : kl.last ≠ some a := by
  rw [h.last_eq, lastAddr_append, lastAddr, lastAddr_of_ne_nil hl₂ _ none]
  exact lastAddr_ne h.addr_notMem.2

/-- The node behind another one. -/
private theorem front_node (h : kl.Holds (l₁ ++ (a, x) :: l₂)) {c : ℕ}
    (hc : headAddr none l₂ = some c) :
    ∃ n, kl.nodes c = some n := by
  cases l₂ with
  | nil => cases hc
  | cons m l₂ =>
    cases hc
    have h' : kl.Holds ((l₁ ++ [(a, x)]) ++ (m.1, m.2) :: l₂) := by simpa using h
    exact ⟨_, h'.node⟩

/-- The node in front of another one. -/
private theorem back_node (h : kl.Holds (l₁ ++ (a, x) :: l₂)) {b : ℕ}
    (hb : lastAddr none l₁ = some b) :
    ∃ n, kl.nodes b = some n := by
  rcases List.eq_nil_or_concat l₁ with rfl | ⟨l₁, m, rfl⟩
  · cases hb
  · rw [List.concat_eq_append] at h hb
    rw [lastAddr_concat] at hb
    cases hb
    rw [List.append_assoc] at h
    exact ⟨_, h.node⟩

/-- **A new node behind the last one.** -/
theorem push (h : kl.Holds l) (data : ℕ) :
    ∃ kl', (kl.makeKlistNode data).1.addKlistNodeToKlist (kl.makeKlistNode data).2 = .ok kl' ∧
      kl'.Holds (l ++ [(kl.next, data)]) := by
  have hpush := h.toRepresents.push (x := data) h.next_notMem
  obtain ⟨nodes, next, first, last⟩ := kl
  have hfresh : ∀ a, next + 1 ≤ a → ∀ q,
      Function.update nodes next (some ⟨data, none, q⟩) a = none := by
    intro a ha q
    rw [Function.update_of_ne (by omega)]
    exact h.fresh a (Nat.le_of_succ_le ha)
  rw [makeKlistNode, addKlistNodeToKlist]
  dsimp only at hpush ⊢
  by_cases hl : l = []
  · subst hl
    obtain rfl : first = none := h.first_eq
    obtain rfl : last = none := h.last_eq
    exact ⟨_, if_pos rfl, hpush, fun a ha => hfresh a ha none⟩
  · obtain ⟨b, y, l', rfl, hb⟩ := exists_lastAddr hl none
    obtain ⟨c, -, -, -, hc⟩ := exists_headAddr hl none
    obtain rfl : last = some b := h.last_eq.trans hb
    obtain rfl : first = some c := h.first_eq.trans hc
    have hnode : Function.update nodes next (some ⟨data, none, some b⟩) b = _ :=
      (Function.update_of_ne h.addr_ne_next _ _).trans h.node
    rw [if_neg (Option.some_ne_none c), writeBack_mk (Function.update_self next _ nodes), ok_bind,
      setBack_update]
    dsimp only
    rw [writeFront_mk hnode, ok_bind]
    rw [headAddr_of_ne_nil hl _ none, hc] at hpush
    exact ⟨_, rfl, hpush, fun a ha => setFront_eq_none (hfresh a ha _) (some b) (some next)⟩

/-- **A node less.** -/
theorem remove (h : kl.Holds (l₁ ++ (a, x) :: l₂)) :
    ∃ kl', kl.removeKlistNodeFromKlist a = .ok kl' ∧ kl'.Holds (l₁ ++ l₂) := by
  have herase := h.toRepresents.erase
  have hnode := h.node_ok
  have hfirstNe := h.first_ne
  have hlastNe := h.last_ne
  obtain ⟨nodes, next, first, last⟩ := kl
  have hfresh : ∀ b, next ≤ b → ∀ p q p' q', setBack (setFront nodes p q) p' q' b = none :=
    fun b hb p q p' q' => setBack_eq_none (setFront_eq_none (h.fresh b hb) p q) p' q'
  rw [removeKlistNodeFromKlist]
  dsimp only at hfirstNe hlastNe ⊢
  by_cases hl₁ : l₁ = []
  · subst hl₁
    obtain rfl : first = some a := h.first_eq
    by_cases hl₂ : l₂ = []
    · -- the only node
      subst hl₂
      obtain rfl : last = some a := h.last_eq
      exact ⟨_, if_pos ⟨rfl, rfl⟩, herase, h.fresh⟩
    · -- the first of several
      obtain ⟨c, -, -, -, hc⟩ := exists_headAddr hl₂ none
      obtain ⟨n, hn⟩ := h.front_node hc
      obtain rfl : last = lastAddr (some a) l₂ := h.last_eq
      rw [List.nil_append, lastAddr_of_ne_nil hl₂ none (some a), hc] at herase
      rw [if_neg fun h' => hlastNe hl₂ h'.2, if_pos rfl, hnode, ok_bind]
      dsimp only
      rw [hc, writeBack_mk hn]
      exact ⟨_, rfl, herase, fun b hb => hfresh b hb none (some c) (some c) none⟩
  · have hfirst := hfirstNe hl₁
    obtain ⟨b, -, -, -, hb⟩ := exists_lastAddr hl₁ none
    obtain ⟨nb, hnb⟩ := h.back_node hb
    obtain rfl : first = headAddr (some a) l₁ := h.first_eq.trans (headAddr_append none l₁ _)
    by_cases hl₂ : l₂ = []
    · -- the last of several
      subst hl₂
      obtain rfl : last = some a := h.last_eq.trans (lastAddr_concat none l₁ (a, x))
      rw [List.append_nil, headAddr_of_ne_nil hl₁ none (some a), hb] at herase
      rw [if_neg fun h' => hfirst h'.1, if_neg hfirst, if_pos rfl, hnode, ok_bind]
      dsimp only
      rw [hb, writeFront_mk hnb, List.append_nil]
      exact ⟨_, rfl, herase, fun b' hb' => hfresh b' hb' (some b) none none (some b)⟩
    · -- a node between two others
      obtain ⟨c, -, -, -, hc⟩ := exists_headAddr hl₂ none
      obtain ⟨nc, hnc⟩ := h.front_node hc
      obtain ⟨nc', hnc'⟩ := exists_setFront hnc (some b) (some c)
      obtain rfl : last = lastAddr (some a) l₂ := h.last_eq.trans (lastAddr_append none l₁ _)
      have hba : some b ≠ some a := by
        rw [← hb]
        exact lastAddr_ne h.addr_notMem.1
      have hnode' : setFront nodes (some b) (some c) a = some ⟨x, some c, some b⟩ := by
        rw [setFront_of_ne hba, ← hb, ← hc]
        exact h.node
      rw [headAddr_append, lastAddr_append, hb, hc, headAddr_of_ne_nil hl₁ (some c) (some a),
        lastAddr_of_ne_nil hl₂ (some b) (some a)] at herase
      rw [if_neg fun h' => hfirst h'.1, if_neg hfirst, if_neg (hlastNe hl₂), hnode, ok_bind]
      dsimp only
      rw [hb, hc, writeFront_mk hnb, ok_bind, node_mk hnode', ok_bind]
      dsimp only
      rw [writeBack_mk hnc']
      exact ⟨_, rfl, herase, fun b' hb' => hfresh b' hb' (some b) (some c) (some c) (some b)⟩

/-- **A new node before another one.** -/
theorem insertBefore (h : kl.Holds (l₁ ++ (a, x) :: l₂)) (data : ℕ) :
    ∃ kl', kl.klistIteratorInsertBefore (some a) data = .ok kl' ∧
      kl'.Holds (l₁ ++ (kl.next, data) :: (a, x) :: l₂) := by
  have hinsert := h.toRepresents.insert (y := data) h.next_notMem
  have hfirstNe := h.first_ne
  have hanext := h.addr_ne_next
  obtain ⟨nodes, next, first, last⟩ := kl
  have hfirst : (if some a = first then some next else first) = headAddr (some next) l₁ := by
    by_cases hl₁ : l₁ = []
    · subst hl₁
      exact if_pos h.first_eq.symm
    · rw [if_neg (hfirstNe hl₁).symm, headAddr_of_ne_nil hl₁ (some next) (some a)]
      exact h.first_eq.trans (headAddr_append none l₁ _)
  have hif : ∀ new : Heap ℕ ℕ, (if some a = first then
      (⟨new, next + 1, some next, last⟩ : KList) else ⟨new, next + 1, first, last⟩) =
      ⟨new, next + 1, headAddr (some next) l₁, last⟩ := by
    intro new
    rw [← hfirst]
    split_ifs <;> rfl
  have hnode : ∀ n, Function.update nodes next n a =
      some ⟨x, headAddr none l₂, lastAddr none l₁⟩ := fun n =>
    (Function.update_of_ne hanext n nodes).trans h.node
  have hself : ∀ n, Function.update nodes next (some n) next = some n := fun n =>
    Function.update_self next (some n) nodes
  have hfresh : ∀ b, next + 1 ≤ b → ∀ n p q p' q',
      setBack (setFront (Function.update nodes next n) p q) p' q' b = none := by
    intro b hb n p q p' q'
    refine setBack_eq_none (setFront_eq_none ?_ p q) p' q'
    rw [Function.update_of_ne (by omega)]
    exact h.fresh b (Nat.le_of_succ_le hb)
  rw [klistIteratorInsertBefore, makeKlistNode]
  dsimp only at hinsert hfirst ⊢
  rw [hif, writeFront_mk (hself _), ok_bind, setFront_update, node_mk (hnode _), ok_bind]
  dsimp only
  rw [writeBack_mk (hself _), ok_bind, setBack_update, node_mk (hnode _), ok_bind]
  dsimp only
  by_cases hl₁ : l₁ = []
  · subst hl₁
    rw [lastAddr, if_neg (not_not.mpr rfl), ok_bind, writeBack_mk (hnode _)]
    exact ⟨_, rfl, hinsert, fun b hb => hfresh b hb _ none (some next) (some a) (some next)⟩
  · obtain ⟨b, -, -, -, hb⟩ := exists_lastAddr hl₁ none
    obtain ⟨nb, hnb⟩ := h.back_node hb
    have hbnext : b ≠ next := by
      rintro rfl
      have hnone := h.fresh b (Nat.le_refl b)
      rw [hnb] at hnone
      cases hnone
    have hnb' : ∀ n, Function.update nodes next n b = some nb := fun n =>
      (Function.update_of_ne hbnext n nodes).trans hnb
    have hba : some b ≠ some a := by
      rw [← hb]
      exact lastAddr_ne h.addr_notMem.1
    have hnode' : ∀ n q, setFront (Function.update nodes next n) (some b) q a =
        some ⟨x, headAddr none l₂, lastAddr none l₁⟩ := fun n q =>
      (setFront_of_ne hba).trans (hnode n)
    rw [hb] at hinsert hnode' ⊢
    rw [if_pos (Option.some_ne_none b), writeFront_mk (hnb' _), ok_bind, writeBack_mk (hnode' _ _)]
    exact ⟨_, rfl, hinsert, fun c hc => hfresh c hc _ (some b) (some next) (some a) (some next)⟩

/-- **The current node of an iterator removed**: the iterator goes on behind it. -/
theorem removeCurrent (h : kl.Holds (l₁ ++ (a, x) :: l₂)) :
    ∃ kl', kl.klistIteratorRemoveCurrent (some a) = .ok (kl', headAddr none l₂, some x) ∧
      kl'.Holds (l₁ ++ l₂) := by
  obtain ⟨kl', hkl', hholds⟩ := h.remove
  refine ⟨kl', ?_, hholds⟩
  rw [klistIteratorRemoveCurrent, h.node_ok, ok_bind, hkl']
  rfl

/-- A step of an iterator. -/
theorem iteratorNext (h : kl.Holds (l₁ ++ (a, x) :: l₂)) :
    kl.klistIteratorNext (some a) = .ok (some a, headAddr none l₂) := by
  rw [klistIteratorNext, if_neg (Option.some_ne_none a), h.node_ok]
  rfl

/-- A list is not longer than the number of nodes that were ever made. -/
theorem length_le_next (h : kl.Holds l) : l.length ≤ kl.next := by
  have hsub : l.map Prod.fst ⊆ List.range kl.next := by
    intro a ha
    obtain ⟨⟨a, x⟩, hmem, rfl⟩ := List.mem_map.mp ha
    obtain ⟨l₁, l₂, rfl⟩ := List.append_of_mem hmem
    rw [List.mem_range]
    by_contra hle
    have hnode := h.node
    rw [h.fresh a (Nat.le_of_not_lt hle)] at hnode
    cases hnode
  have hlen := (h.nodup.subperm hsub).length_le
  rwa [List.length_map, List.length_range] at hlen

/-! ### Loops over a list -/

section Walk

/-! A loop `f` has a bound, the node it looks at, and the node it came from. -/

variable {β : Type} {f : ℕ → Option ℕ → Option ℕ → β}

/-- **Walk rule**: a loop that goes on behind every node of a piece goes past the piece. -/
theorem walk {l₀ : List (ℕ × ℕ)} (h : kl.Holds (l₀ ++ (l₁ ++ l₂)))
    (hstep : ∀ l n l', kl.Holds (l ++ n :: l') → n ∈ l₁ → ∀ fuel prev,
      f (fuel + 1) (some n.1) prev = f fuel (headAddr none l') (some n.1))
    (fuel : ℕ) (prev : Option ℕ) :
    f (l₁.length + fuel) (headAddr none (l₁ ++ l₂)) prev =
      f fuel (headAddr none l₂) (lastAddr prev l₁) := by
  induction l₁ generalizing l₀ prev with
  | nil => rw [List.length_nil, Nat.zero_add, List.nil_append, lastAddr]
  | cons n l₁ ih =>
    have hnext : kl.Holds ((l₀ ++ [n]) ++ (l₁ ++ l₂)) := by
      rw [List.append_assoc]
      exact h
    rw [List.length_cons, Nat.succ_add, lastAddr]
    refine (hstep l₀ n (l₁ ++ l₂) h List.mem_cons_self _ prev).trans ?_
    exact ih hnext (fun l n' l' hl hn' => hstep l n' l' hl (List.mem_cons_of_mem n hn')) (some n.1)

/-- A loop over the list comes to a node if it goes on behind all the nodes before. -/
theorem walk_to (h : kl.Holds (l₁ ++ (a, x) :: l₂))
    (hstep : ∀ l n l', kl.Holds (l ++ n :: l') → n ∈ l₁ → ∀ fuel prev,
      f (fuel + 1) (some n.1) prev = f fuel (headAddr none l') (some n.1)) :
    ∃ fuel, f (kl.next + 1) kl.first none = f (fuel + 1) (some a) (lastAddr none l₁) := by
  have hle := h.length_le_next
  rw [List.length_append, List.length_cons] at hle
  -- the bound of the loops is one more than the nodes that there can be
  have hwalk := walk (show kl.Holds ([] ++ (l₁ ++ (a, x) :: l₂)) from h) hstep
    (kl.next - l₁.length + 1) none
  rw [show l₁.length + (kl.next - l₁.length + 1) = kl.next + 1 by omega] at hwalk
  rw [h.first_eq]
  exact ⟨_, hwalk⟩

/-- A loop over the list comes to its end if it goes on behind all the nodes. -/
theorem walk_past (h : kl.Holds l)
    (hstep : ∀ l₁ n l₂, kl.Holds (l₁ ++ n :: l₂) → n ∈ l → ∀ fuel prev,
      f (fuel + 1) (some n.1) prev = f fuel (headAddr none l₂) (some n.1)) :
    ∃ fuel, f (kl.next + 1) kl.first none = f fuel none (lastAddr none l) := by
  have hwalk := walk (show kl.Holds ([] ++ (l ++ [])) by rwa [List.append_nil]) hstep
    (kl.next + 1 - l.length) none
  rw [Nat.add_sub_cancel' (Nat.le_succ_of_le h.length_le_next), List.append_nil] at hwalk
  rw [h.first_eq]
  exact ⟨_, hwalk⟩

end Walk

end Holds

end KList

end MiaVita.Framework
