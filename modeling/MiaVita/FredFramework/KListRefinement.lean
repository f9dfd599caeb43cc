import MiaVita.FredFramework.KList
import MiaVita.Lib.Cursor

/-!
# A `klist` is a list (`fred_framework`, `klist.c`)

Interceptors, rules, filter chains and aggregation buffers all are `klist`s. A list is changed by
those who have it, and at the same time by an iterator that goes over it. `Numbered` and `Cursor`
say what this means for a list without links; a node is known by its place in the order in which the
nodes were made.

The memory follows these step by step (`KList.Models`, `Traversal.Models`), which gives the result,
`klist_refines`: the links list the data of the list forwards and backwards, and an iterator that
has come to the end has visited what was in the list when it was made, except for what others
removed before it came there, once and in order, and nothing that it put in itself.
-/

namespace MiaVita.Framework

open LinkedList Fallible

/-! ### The links -/

namespace KList

/-- The data of the nodes that a link leads to, one after the other. -/
def follow (kl : KList) (link : LinkedList.Node ℕ ℕ → Option ℕ) :
    ℕ → Option ℕ → Except Crash (List ℕ)
  | _, none => .ok []
  | 0, some _ => .error .endless
  | fuel + 1, some a => do
    let n ← kl.node (some a)
    let rest ← follow kl link fuel (link n)
    return n.data :: rest

/-- The links list the data forwards from `first` and backwards from `last`, and end in `NULL`. -/
def Lists (kl : KList) (data : List ℕ) : Prop :=
  ∀ fuel, data.length ≤ fuel →
    kl.follow LinkedList.Node.front fuel kl.first = .ok data ∧
      kl.follow LinkedList.Node.back fuel kl.last = .ok data.reverse

private theorem follow_none (kl : KList) (link : LinkedList.Node ℕ ℕ → Option ℕ) (fuel : ℕ) :
    kl.follow link fuel none = .ok [] := by
  cases fuel <;> rfl

variable {kl : KList} {l : List (ℕ × ℕ)}

private theorem follow_front {prev : Option ℕ} (h : Linked kl.nodes prev none l) (fuel : ℕ) :
    kl.follow LinkedList.Node.front (l.length + fuel) (headAddr none l) = .ok (l.map Prod.snd) := by
  induction l generalizing prev with
  | nil => exact follow_none kl _ _
  | cons n l ih =>
    rw [List.length_cons, Nat.succ_add, headAddr, follow, node_mk h.1, ok_bind, ih h.2]
    rfl

private theorem follow_back {next : Option ℕ} (h : Linked kl.nodes none next l) (fuel : ℕ) :
    kl.follow LinkedList.Node.back (l.length + fuel) (lastAddr none l) =
      .ok (l.map Prod.snd).reverse := by
  induction l using List.reverseRecOn generalizing next with
  | nil => exact follow_none kl _ _
  | append_singleton l n ih =>
    obtain ⟨hl, hn, -⟩ := linked_append.mp h
    rw [List.length_append, List.length_singleton, Nat.add_right_comm, lastAddr_concat, follow,
      node_mk hn, ok_bind, ih hl, List.map_append, List.reverse_append]
    rfl

private theorem Holds.lists (h : kl.Holds l) : kl.Lists (l.map Prod.snd) := by
  intro fuel hfuel
  rw [List.length_map] at hfuel
  obtain ⟨k, rfl⟩ := Nat.exists_eq_add_of_le hfuel
  rw [h.first_eq, h.last_eq]
  exact ⟨follow_front h.linked k, follow_back h.linked k⟩

/-! ### The number of nodes -/

private theorem writeFront_next {kl' : KList} {p q : Option ℕ} (h : kl.writeFront p q = .ok kl') :
    kl'.next = kl.next := by
  rw [writeFront_ok h]

private theorem writeBack_next {kl' : KList} {p q : Option ℕ} (h : kl.writeBack p q = .ok kl') :
    kl'.next = kl.next := by
  rw [writeBack_ok h]

private theorem addKlistNodeToKlist_next {kl' : KList} {kn : ℕ}
    (h : kl.addKlistNodeToKlist kn = .ok kl') :
    kl'.next = kl.next := by
  rw [addKlistNodeToKlist] at h
  split_ifs at h
  · cases h
    rfl
  · obtain ⟨kl₁, h₁, h⟩ := bind_eq_ok.mp h
    obtain ⟨kl₂, h₂, h⟩ := bind_eq_ok.mp h
    cases h
    exact (writeFront_next h₂).trans (writeBack_next h₁)

private theorem removeKlistNodeFromKlist_next {kl' : KList} {kn : ℕ}
    (h : kl.removeKlistNodeFromKlist kn = .ok kl') : kl'.next = kl.next := by
  rw [removeKlistNodeFromKlist] at h
  split_ifs at h
  · cases h
    rfl
  · obtain ⟨n, -, h⟩ := bind_eq_ok.mp h
    dsimp only at h
    exact (writeBack_next h :)
  · obtain ⟨n, -, h⟩ := bind_eq_ok.mp h
    dsimp only at h
    exact (writeFront_next h :)
  · obtain ⟨n, -, h⟩ := bind_eq_ok.mp h
    obtain ⟨kl₁, h₁, h⟩ := bind_eq_ok.mp h
    obtain ⟨n', -, h⟩ := bind_eq_ok.mp h
    exact (writeBack_next h).trans (writeFront_next h₁)

private theorem klistIteratorInsertBefore_next {kl' : KList} {cur : Option ℕ} {data : ℕ}
    (h : kl.klistIteratorInsertBefore cur data = .ok kl') : kl'.next = kl.next + 1 := by
  rw [klistIteratorInsertBefore] at h
  obtain ⟨kl₁, h₁, h⟩ := bind_eq_ok.mp h
  obtain ⟨n, -, h⟩ := bind_eq_ok.mp h
  obtain ⟨kl₂, h₂, h⟩ := bind_eq_ok.mp h
  obtain ⟨n', -, h⟩ := bind_eq_ok.mp h
  have hlast : kl'.next = kl₂.next := by
    dsimp only at h
    split_ifs at h
    · obtain ⟨kl₃, h₃, h⟩ := bind_eq_ok.mp h
      exact (writeBack_next h).trans (writeFront_next h₃)
    · exact writeBack_next h
  rw [hlast, writeBack_next h₂, writeFront_next h₁]
  split_ifs <;> rfl

private theorem klistIteratorRemoveCurrent_next {kl' : KList} {cur cur' data : Option ℕ}
    (h : kl.klistIteratorRemoveCurrent cur = .ok (kl', cur', data)) : kl'.next = kl.next := by
  cases cur with
  | none =>
    cases h
    rfl
  | some kn =>
    obtain ⟨n, -, h⟩ := bind_eq_ok.mp h
    obtain ⟨kl₁, h₁, h⟩ := bind_eq_ok.mp h
    cases h
    exact removeKlistNodeFromKlist_next h₁

/-! ### Changes -/

/-- A change to a list by those who have it. -/
def listStep (kl : KList) : Numbered.Call ℕ → Except Crash KList
  | .add data => (kl.makeKlistNode data).1.addKlistNodeToKlist (kl.makeKlistNode data).2
  | .remove kn => kl.removeKlistNodeFromKlist kn

private theorem Holds.add (h : kl.Holds l) (data : ℕ) :
    ∃ kl', kl.listStep (.add data) = .ok kl' ∧ kl'.Holds (l ++ [(kl.next, data)]) ∧
      kl'.next = kl.next + 1 := by
  obtain ⟨kl', hkl', hholds⟩ := h.push data
  exact ⟨kl', hkl', hholds, addKlistNodeToKlist_next hkl'⟩

private theorem Holds.delete (h : kl.Holds l) {kn : ℕ} (hkn : kn ∈ l.map Prod.fst) :
    ∃ kl', kl.listStep (.remove kn) = .ok kl' ∧ kl'.Holds (Numbered.without kn l) ∧
      kl'.next = kl.next := by
  obtain ⟨⟨kn, x⟩, hmem, rfl⟩ := List.mem_map.mp hkn
  obtain ⟨l₁, l₂, rfl⟩ := List.append_of_mem hmem
  obtain ⟨hl₁, hl₂⟩ := h.addr_notMem
  obtain ⟨kl', hkl', hholds⟩ := h.remove
  refine ⟨kl', hkl', ?_, removeKlistNodeFromKlist_next hkl'⟩
  rwa [Numbered.without_append, Numbered.without_cons_self, Numbered.without_of_notMem hl₁,
    Numbered.without_of_notMem hl₂]

/-- The list in memory is the given one. -/
structure Models (kl : KList) (l : Numbered ℕ) : Prop where
  holds : kl.Holds l.items
  next_eq : kl.next = l.made

private theorem models_listStep (kl : KList) (l : Numbered ℕ) (c : Numbered.Call ℕ)
    (h : kl.Models l)
    (hc : l.Allowed c) : ∃ kl', kl.listStep c = .ok kl' ∧ kl'.Models (l.step c) := by
  cases c with
  | add data =>
    obtain ⟨kl', hkl', hholds, hnext⟩ := h.holds.add data
    rw [h.next_eq] at hholds hnext
    exact ⟨kl', hkl', hholds, hnext⟩
  | remove kn =>
    obtain ⟨kl', hkl', hholds, hnext⟩ := h.holds.delete hc
    exact ⟨kl', hkl', hholds, hnext.trans h.next_eq⟩

private theorem models_run {calls : List (Numbered.Call ℕ)}
    (hcalls : Run.AllSteps Numbered.step Numbered.Allowed .empty calls) :
    ∃ kl, Run.execM listStep makeKlist calls = .ok kl ∧
      kl.Models (Run.exec Numbered.step .empty calls) :=
  Run.simulation_allSteps models_listStep ⟨holds_makeKlist, rfl⟩ hcalls

end KList

/-! ### An iterator -/

/-- A list with an iterator: the nodes that the iterator returned or removed, those that others
removed before it came to them, and those that it put in. -/
structure Traversal where
  list : KList
  cur : Option ℕ
  visited : List ℕ
  skipped : List ℕ
  inserted : List ℕ

/-- `make_klist_iterator`. -/
def makeKlistIterator (kl : KList) : Traversal := ⟨kl, kl.first, [], [], []⟩

/-- A call, of the iterator or of others. -/
def Traversal.step (t : Traversal) : Cursor.Call ℕ → Except Crash Traversal
  | .list (.add data) => do
    let kl ← t.list.listStep (.add data)
    return { t with list := kl }
  | .list (.remove kn) => do
    let kl ← t.list.listStep (.remove kn)
    return { t with
      list := kl
      skipped := if kn ∈ t.visited then t.skipped else t.skipped ++ [kn] }
  | .next => do
    let (node, cur) ← t.list.klistIteratorNext t.cur
    return { t with cur, visited := t.visited ++ node.toList }
  | .removeCurrent => do
    let (kl, cur, _) ← t.list.klistIteratorRemoveCurrent t.cur
    return { t with list := kl, cur, visited := t.visited ++ t.cur.toList }
  | .insertBefore data => do
    let kl ← t.list.klistIteratorInsertBefore t.cur data
    return { t with list := kl, inserted := t.inserted ++ [t.list.next] }

namespace Traversal

/-- The list in memory and its iterator are the given ones. -/
structure Models (t : Traversal) (c : Cursor ℕ) : Prop where
  holds : t.list.Holds c.items
  next_eq : t.list.next = c.made
  cur_eq : t.cur = headAddr none c.ahead
  visited_eq : t.visited = c.visited
  skipped_eq : t.skipped = c.skipped
  inserted_eq : t.inserted = c.inserted

variable {t : Traversal} {c : Cursor ℕ}

private theorem models_start {kl : KList} {l : Numbered ℕ} (h : kl.Models l) :
    (makeKlistIterator kl).Models (.start l) :=
  ⟨h.holds, h.next_eq, h.holds.first_eq, rfl, rfl, rfl⟩

private theorem Models.exists_list (h : t.Models c) :
    ∃ kl : KList, t = ⟨kl, headAddr none c.ahead, c.visited, c.skipped, c.inserted⟩ ∧
      kl.Holds c.items ∧ kl.next = c.made := by
  obtain ⟨kl, cur, visited, skipped, inserted⟩ := t
  obtain ⟨hholds, hnext, hcur, hvisited, hskipped, hinserted⟩ := h
  dsimp only at hcur hvisited hskipped hinserted
  rw [hcur, hvisited, hskipped, hinserted]
  exact ⟨kl, rfl, hholds, hnext⟩

/-- A node at the end, with the iterator at the end or not. -/
private theorem models_add (h : t.Models c) (data : ℕ) :
    ∃ t', t.step (.list (.add data)) = .ok t' ∧ t'.Models (c.add data) := by
  obtain ⟨kl, hkl, hholds, hnext⟩ := h.holds.add data
  rw [h.next_eq] at hholds hnext
  rw [← Cursor.items_add] at hholds
  rw [step, hkl, ok_bind]
  refine ⟨_, rfl, ?_⟩
  obtain ⟨passed, ahead, made, visited, skipped, inserted⟩ := c
  cases ahead with
  | nil => exact ⟨hholds, hnext, h.cur_eq, h.visited_eq, h.skipped_eq, h.inserted_eq⟩
  | cons n l => exact ⟨hholds, hnext, h.cur_eq, h.visited_eq, h.skipped_eq, h.inserted_eq⟩

/-- A node that is not the current one is removed by others. -/
private theorem models_remove (h : t.Models c) {kn : ℕ} (hkn : c.Allowed (.list (.remove kn))) :
    ∃ t', t.step (.list (.remove kn)) = .ok t' ∧ t'.Models (c.remove kn) := by
  obtain ⟨hmem, hcur⟩ := hkn
  obtain ⟨kl, hkl, hholds, hnext⟩ := h.holds.delete hmem
  rw [step, hkl, ok_bind]
  refine ⟨_, rfl, ?_, hnext.trans h.next_eq, ?_, h.visited_eq, ?_, h.inserted_eq⟩
  · rwa [← Cursor.items_remove] at hholds
  · obtain ⟨passed, ahead, made, visited, skipped, inserted⟩ := c
    refine h.cur_eq.trans ?_
    cases ahead with
    | nil => rfl
    | cons n l =>
      have hne : n.1 ≠ kn := fun heq => hcur (congrArg some heq)
      dsimp only [Cursor.remove, Numbered.without]
      rw [List.filter_cons_of_pos (by simpa using hne)]
      rfl
  · dsimp only [Cursor.remove]
    rw [h.visited_eq, h.skipped_eq]

/-- **One call** on the memory is one on the list. -/
theorem models_step (t : Traversal) (c : Cursor ℕ) (e : Cursor.Call ℕ) (h : t.Models c)
    (he : c.Allowed e) : ∃ t', t.step e = .ok t' ∧ t'.Models (c.step e) := by
  cases e with
  | list e =>
    cases e with
    | add data => exact models_add h data
    | remove kn => exact models_remove h he
  | next =>
    obtain ⟨kl, rfl, hholds, hnext⟩ := h.exists_list
    obtain ⟨passed, ahead, made, visited, skipped, inserted⟩ := c
    cases ahead with
    | nil =>
      refine ⟨_, rfl, hholds, hnext, rfl, ?_, rfl, rfl⟩
      exact List.append_nil visited
    | cons n l =>
      rw [step, headAddr, hholds.iteratorNext, ok_bind]
      refine ⟨_, rfl, ?_, hnext, rfl, rfl, rfl, rfl⟩
      simpa [Cursor.items, Cursor.step] using hholds
  | removeCurrent =>
    obtain ⟨kl, rfl, hholds, hnext⟩ := h.exists_list
    obtain ⟨passed, ahead, made, visited, skipped, inserted⟩ := c
    cases ahead with
    | nil =>
      refine ⟨_, rfl, hholds, hnext, rfl, ?_, rfl, rfl⟩
      exact List.append_nil visited
    | cons n l =>
      obtain ⟨kl', hkl', hholds'⟩ := hholds.removeCurrent
      have hnext' := KList.klistIteratorRemoveCurrent_next hkl'
      rw [step, headAddr, hkl', ok_bind]
      exact ⟨_, rfl, hholds', hnext'.trans hnext, rfl, rfl, rfl, rfl⟩
  | insertBefore data =>
    obtain ⟨kl, rfl, hholds, hnext⟩ := h.exists_list
    obtain ⟨passed, ahead, made, visited, skipped, inserted⟩ := c
    cases ahead with
    | nil => exact absurd rfl he
    | cons n l =>
      obtain rfl : kl.next = made := hnext
      obtain ⟨kl', hkl', hholds'⟩ := hholds.insertBefore data
      have hnext' := KList.klistIteratorInsertBefore_next hkl'
      rw [step, headAddr, hkl', ok_bind]
      refine ⟨_, rfl, ?_, hnext', rfl, rfl, rfl, rfl⟩
      simpa [Cursor.items, Cursor.step] using hholds'

/-- **Every run** on the memory is one on the list. -/
theorem models_run {kl : KList} {l : Numbered ℕ} (h : kl.Models l) {calls : List (Cursor.Call ℕ)}
    (hcalls : Run.AllSteps Cursor.step Cursor.Allowed (.start l) calls) :
    ∃ t, Run.execM step (makeKlistIterator kl) calls = .ok t ∧
      t.Models (Run.exec Cursor.step (.start l) calls) :=
  Run.simulation_allSteps models_step (models_start h) hcalls

end Traversal

/-- **A `klist` is a list.** Some changes are made to a new list, then an iterator is made, and more
calls follow, of the iterator and of others. Then the links list the data of the list, forwards and
backwards, and an iterator that has come to the end has visited the nodes that were there when it
was made, except for those that were removed before it came to them, in order and once; and none
that it put in itself. -/
theorem klist_refines (before : List (Numbered.Call ℕ)) (calls : List (Cursor.Call ℕ))
    (hbefore : Run.AllSteps Numbered.step Numbered.Allowed .empty before)
    (hcalls : Run.AllSteps Cursor.step Cursor.Allowed
      (.start (Run.exec Numbered.step .empty before)) calls) :
    ∃ kl t, Run.execM KList.listStep makeKlist before = .ok kl ∧
      kl.Lists ((Run.exec Numbered.step .empty before).items.map Prod.snd) ∧
      Run.execM Traversal.step (makeKlistIterator kl) calls = .ok t ∧
      t.list.Lists ((Run.exec Cursor.step (.start (Run.exec Numbered.step .empty before))
        calls).items.map Prod.snd) ∧
      t.visited.Nodup ∧ (∀ a ∈ t.inserted, a ∉ t.visited) ∧
      (t.cur = none →
        t.visited.filter (· ∈ (Run.exec Numbered.step .empty before).items.map Prod.fst) =
          ((Run.exec Numbered.step .empty before).items.map Prod.fst).filter (· ∉ t.skipped)) := by
  obtain ⟨kl, hkl, hmodels⟩ := KList.models_run hbefore
  obtain ⟨t, ht, hmodels'⟩ := Traversal.models_run hmodels hcalls
  have hsound := Cursor.sound_run (Run.exec Numbered.step .empty before) calls
  refine ⟨kl, t, hkl, hmodels.holds.lists, ht, hmodels'.holds.lists, ?_, ?_, fun hend => ?_⟩
  · rw [hmodels'.visited_eq]
    exact hsound.visited_nodup
  · rw [hmodels'.visited_eq, hmodels'.inserted_eq]
    exact fun a ha => hsound.inserted_notMem_visited ha
  · rw [hmodels'.visited_eq, hmodels'.skipped_eq]
    refine hsound.visited_eq ?_
    rw [hmodels'.cur_eq] at hend
    cases hahead : (Run.exec Cursor.step (.start (Run.exec Numbered.step .empty before))
        calls).ahead with
    | nil => rfl
    | cons n l =>
      rw [hahead] at hend
      cases hend

/-- An iterator over three nodes returns the first one, puts a node before the second one and
removes that; the third one is removed by others before. -/
theorem klist_refines_three :
    Run.AllSteps Numbered.step Numbered.Allowed .empty [.add 10, .add 20, .add 30] ∧
      Run.AllSteps Cursor.step Cursor.Allowed
        (.start (Run.exec Numbered.step .empty [.add 10, .add 20, .add 30]))
        [.next, .insertBefore 15, .list (.remove 2), .removeCurrent] ∧
      ∃ kl t, Run.execM KList.listStep makeKlist [.add 10, .add 20, .add 30] = .ok kl ∧
        kl.Lists [10, 20, 30] ∧
        Run.execM Traversal.step (makeKlistIterator kl)
          [.next, .insertBefore 15, .list (.remove 2), .removeCurrent] = .ok t ∧
        t.list.Lists [10, 15] ∧
        t.visited.Nodup ∧ (∀ a ∈ t.inserted, a ∉ t.visited) ∧
        (t.cur = none →
          t.visited.filter (· ∈ [0, 1, 2]) = [0, 1, 2].filter (· ∉ t.skipped)) :=
  ⟨by decide, by decide, klist_refines [.add 10, .add 20, .add 30]
    [.next, .insertBefore 15, .list (.remove 2), .removeCurrent] (by decide) (by decide)⟩

end MiaVita.Framework
