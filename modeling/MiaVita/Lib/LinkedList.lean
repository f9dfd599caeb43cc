import Mathlib.Data.List.Basic
import Mathlib.Logic.Function.Basic

/-!
# Doubly linked lists in a heap

A heap gives the node at an address. `Represents h first last l` says that the nodes of `l`, a list
of addresses with their data, are linked forwards from `first` and backwards from `last`. A part of
such a list is a segment (`Linked`): it knows the address in front of it and the address behind it,
so that a list is cut and put together at any place (`linked_append`).

The three operations are `Represents.push` (behind the last node), `Represents.erase` and
`Represents.insert` (before a node). Each is stated with the writes that it takes; a write through a
null link is none at all, which makes one statement of the cases at the two ends.
-/

namespace LinkedList

/-- A node: its datum, the next node and the previous one. -/
structure Node (ι α : Type*) where
  data : α
  front : Option ι
  back : Option ι

/-- What is at each address. -/
abbrev Heap (ι α : Type*) := ι → Option (Node ι α)

/-! ### Segments -/

section Segments

variable {ι α : Type*}

/-- The address of the first node of a segment, `next` being the one behind the segment. -/
def headAddr (next : Option ι) : List (ι × α) → Option ι
  | [] => next
  | (a, _) :: _ => some a

/-- The address of the last node of a segment, `prev` being the one in front of the segment. -/
def lastAddr (prev : Option ι) : List (ι × α) → Option ι
  | [] => prev
  | (a, _) :: l => lastAddr (some a) l

@[simp] theorem headAddr_append (next : Option ι) (l₁ l₂ : List (ι × α)) :
    headAddr next (l₁ ++ l₂) = headAddr (headAddr next l₂) l₁ := by
  cases l₁ <;> rfl

@[simp] theorem lastAddr_append (prev : Option ι) (l₁ l₂ : List (ι × α)) :
    lastAddr prev (l₁ ++ l₂) = lastAddr (lastAddr prev l₁) l₂ := by
  induction l₁ generalizing prev with
  | nil => rfl
  | cons n l₁ ih => exact ih (some n.1)

@[simp] theorem lastAddr_concat (prev : Option ι) (l : List (ι × α)) (n : ι × α) :
    lastAddr prev (l ++ [n]) = some n.1 := by
  rw [lastAddr_append]
  rfl

theorem headAddr_of_ne_nil {l : List (ι × α)} (hl : l ≠ []) (p q : Option ι) :
    headAddr p l = headAddr q l := by
  cases l with
  | nil => exact absurd rfl hl
  | cons n l => rfl

theorem lastAddr_of_ne_nil {l : List (ι × α)} (hl : l ≠ []) (p q : Option ι) :
    lastAddr p l = lastAddr q l := by
  cases l with
  | nil => exact absurd rfl hl
  | cons n l => rfl

theorem exists_headAddr {l : List (ι × α)} (hl : l ≠ []) (p : Option ι) :
    ∃ a x l', l = (a, x) :: l' ∧ headAddr p l = some a := by
  cases l with
  | nil => exact absurd rfl hl
  | cons n l => exact ⟨n.1, n.2, l, rfl, rfl⟩

theorem exists_lastAddr {l : List (ι × α)} (hl : l ≠ []) (p : Option ι) :
    ∃ a x l', l = l' ++ [(a, x)] ∧ lastAddr p l = some a := by
  rcases List.eq_nil_or_concat l with rfl | ⟨l, n, rfl⟩
  · exact absurd rfl hl
  · rw [List.concat_eq_append]
    exact ⟨n.1, n.2, l, rfl, lastAddr_concat p l n⟩

/-- A segment of a list is linked, in both directions. -/
def Linked (h : Heap ι α) (prev next : Option ι) : List (ι × α) → Prop
  | [] => True
  | (a, x) :: l => h a = some ⟨x, headAddr next l, prev⟩ ∧ Linked h (some a) next l

/-- Two segments one behind the other are one. -/
theorem linked_append {h : Heap ι α} {prev next : Option ι} {l₁ l₂ : List (ι × α)} :
    Linked h prev next (l₁ ++ l₂) ↔
      Linked h prev (headAddr next l₂) l₁ ∧ Linked h (lastAddr prev l₁) next l₂ := by
  induction l₁ generalizing prev with
  | nil => exact (and_iff_right trivial).symm
  | cons n l₁ ih => rw [List.cons_append, Linked, Linked, ih, headAddr_append, and_assoc, lastAddr]

/-- A segment depends on its own nodes only. -/
theorem Linked.congr {h h' : Heap ι α} {prev next : Option ι} {l : List (ι × α)}
    (hl : Linked h prev next l) (hh : ∀ a ∈ l.map Prod.fst, h' a = h a) :
    Linked h' prev next l := by
  induction l generalizing prev with
  | nil => trivial
  | cons n l ih =>
    obtain ⟨hn, hl⟩ := hl
    obtain ⟨hfirst, hrest⟩ := List.forall_mem_cons.mp hh
    exact ⟨hfirst.trans hn, ih hl hrest⟩

/-- Two segments that start at one address and reach the end of a list are the same. -/
theorem Linked.unique {h : Heap ι α} {prev prev' : Option ι} {l l' : List (ι × α)}
    (hl : Linked h prev none l) (hl' : Linked h prev' none l')
    (hhead : headAddr none l = headAddr none l') : l = l' := by
  induction l generalizing prev prev' l' with
  | nil =>
    cases l' with
    | nil => rfl
    | cons n l' => cases hhead
  | cons n l ih =>
    cases l' with
    | nil => cases hhead
    | cons n' l' =>
      obtain ⟨a, x⟩ := n
      obtain ⟨a', x'⟩ := n'
      cases hhead
      obtain ⟨hn, hl⟩ := hl
      obtain ⟨hn', hl'⟩ := hl'
      have hnode := Option.some.inj (hn.symm.trans hn')
      rw [Node.mk.injEq] at hnode
      rw [hnode.1, ih hl hl' hnode.2.1]

end Segments

/-! ### Writes -/

variable {ι α : Type*} [DecidableEq ι]

/-- The link to the next node is set, at an address that may be null. -/
def setFront (h : Heap ι α) (p q : Option ι) : Heap ι α :=
  match p with
  | none => h
  | some a => Function.update h a ((h a).map fun n => { n with front := q })

/-- The link to the previous node is set, at an address that may be null. -/
def setBack (h : Heap ι α) (p q : Option ι) : Heap ι α :=
  match p with
  | none => h
  | some a => Function.update h a ((h a).map fun n => { n with back := q })

theorem setFront_of_ne {h : Heap ι α} {p q : Option ι} {a : ι} (hp : p ≠ some a) :
    setFront h p q a = h a := by
  cases p with
  | none => rfl
  | some b => exact Function.update_of_ne (fun hab => hp (congrArg some hab.symm)) _ _

theorem setBack_of_ne {h : Heap ι α} {p q : Option ι} {a : ι} (hp : p ≠ some a) :
    setBack h p q a = h a := by
  cases p with
  | none => rfl
  | some b => exact Function.update_of_ne (fun hab => hp (congrArg some hab.symm)) _ _

/-- A write to a link allocates nothing. -/
theorem setFront_eq_none {h : Heap ι α} {a : ι} (ha : h a = none) (p q : Option ι) :
    setFront h p q a = none := by
  by_cases hp : p = some a
  · rw [hp, setFront, Function.update_self, ha]
    rfl
  · rw [setFront_of_ne hp, ha]

theorem setBack_eq_none {h : Heap ι α} {a : ι} (ha : h a = none) (p q : Option ι) :
    setBack h p q a = none := by
  by_cases hp : p = some a
  · rw [hp, setBack, Function.update_self, ha]
    rfl
  · rw [setBack_of_ne hp, ha]

theorem exists_setFront {h : Heap ι α} {a : ι} {n : Node ι α} (ha : h a = some n)
    (p q : Option ι) : ∃ n', setFront h p q a = some n' := by
  by_cases hp : p = some a
  · rw [hp, setFront, Function.update_self, ha]
    exact ⟨_, rfl⟩
  · rw [setFront_of_ne hp]
    exact ⟨n, ha⟩

/-- The links of a new node. -/
theorem setFront_update (h : Heap ι α) (a : ι) (n : Node ι α) (q : Option ι) :
    setFront (Function.update h a (some n)) (some a) q =
      Function.update h a (some { n with front := q }) := by
  rw [setFront, Function.update_self, Function.update_idem]
  rfl

theorem setBack_update (h : Heap ι α) (a : ι) (n : Node ι α) (q : Option ι) :
    setBack (Function.update h a (some n)) (some a) q =
      Function.update h a (some { n with back := q }) := by
  rw [setBack, Function.update_self, Function.update_idem]
  rfl

omit [DecidableEq ι] in
theorem lastAddr_ne {l : List (ι × α)} {a : ι} (ha : a ∉ l.map Prod.fst) :
    lastAddr none l ≠ some a := by
  rcases List.eq_nil_or_concat l with rfl | ⟨l, n, rfl⟩
  · nofun
  · rw [List.concat_eq_append] at ha ⊢
    rw [lastAddr_concat]
    rintro h
    exact ha (by simp [← Option.some.inj h])

omit [DecidableEq ι] in
theorem headAddr_ne {l : List (ι × α)} {a : ι} (ha : a ∉ l.map Prod.fst) :
    headAddr none l ≠ some a := by
  cases l with
  | nil => nofun
  | cons n l =>
    intro h
    exact ha (by simp [← Option.some.inj h])

/-- A write outside of a segment. -/
theorem update_of_notMem {l : List (ι × α)} {a b : ι} (ha : a ∉ l.map Prod.fst)
    (hb : b ∈ l.map Prod.fst) (h : Heap ι α) (n : Option (Node ι α)) :
    Function.update h a n b = h b := by
  rw [Function.update_of_ne]
  rintro rfl
  exact ha hb

/-- A segment gets another one behind it. -/
theorem Linked.relink_front {h : Heap ι α} {prev next : Option ι} {l : List (ι × α)}
    (hl : Linked h prev next l) (hnodup : (l.map Prod.fst).Nodup) (next' : Option ι) :
    Linked (setFront h (lastAddr none l) next') prev next' l := by
  rcases List.eq_nil_or_concat l with rfl | ⟨l, n, rfl⟩
  · trivial
  rw [List.concat_eq_append] at hl hnodup ⊢
  rw [List.map_append, List.nodup_append] at hnodup
  obtain ⟨hl, hn⟩ := linked_append.mp hl
  rw [lastAddr_concat]
  refine linked_append.mpr ⟨hl.congr fun a ha => ?_, ?_, trivial⟩
  · refine setFront_of_ne fun heq => ?_
    exact hnodup.2.2 a ha n.1 (by simp) (Option.some.inj heq).symm
  · rw [setFront, Function.update_self, hn.1]
    rfl

/-- A segment gets another one in front of it. -/
theorem Linked.relink_back {h : Heap ι α} {prev next : Option ι} {l : List (ι × α)}
    (hl : Linked h prev next l) (hnodup : (l.map Prod.fst).Nodup) (prev' : Option ι) :
    Linked (setBack h (headAddr none l) prev') prev' next l := by
  cases l with
  | nil => trivial
  | cons n l =>
    obtain ⟨hn, hl⟩ := hl
    rw [List.map_cons, List.nodup_cons] at hnodup
    refine ⟨?_, hl.congr fun a ha => setBack_of_ne fun heq => ?_⟩
    · rw [headAddr, setBack, Function.update_self, hn]
      rfl
    · rw [← Option.some.inj heq] at ha
      exact hnodup.1 ha

/-! ### Lists -/

/-- **The list in a heap** with the given ends. -/
structure Represents (h : Heap ι α) (first last : Option ι) (l : List (ι × α)) : Prop where
  first_eq : first = headAddr none l
  last_eq : last = lastAddr none l
  linked : Linked h none none l
  nodup : (l.map Prod.fst).Nodup

namespace Represents

variable {h : Heap ι α} {first last : Option ι} {l l₁ l₂ : List (ι × α)} {a b : ι} {x y : α}

omit [DecidableEq ι] in
theorem nil (h : Heap ι α) : Represents h none none [] := ⟨rfl, rfl, trivial, List.nodup_nil⟩

omit [DecidableEq ι] in
/-- The node at an address of the list. -/
theorem node (hl : Represents h first last (l₁ ++ (a, x) :: l₂)) :
    h a = some ⟨x, headAddr none l₂, lastAddr none l₁⟩ :=
  (linked_append.mp hl.linked).2.1

omit [DecidableEq ι] in
/-- The ends determine the list. -/
theorem unique {l' : List (ι × α)} (hl : Represents h first last l)
    (hl' : Represents h first last l') : l = l' :=
  hl.linked.unique hl'.linked (hl.first_eq.symm.trans hl'.first_eq)

/-- **A node behind the last one.** -/
theorem push (hl : Represents h first last l) (ha : a ∉ l.map Prod.fst) :
    Represents (setFront (Function.update h a (some ⟨x, none, last⟩)) last (some a))
      (headAddr (some a) l) (some a) (l ++ [(a, x)]) := by
  have hfresh : Linked (Function.update h a (some ⟨x, none, last⟩)) none none l :=
    hl.linked.congr fun b hb => update_of_notMem ha hb h _
  refine ⟨(headAddr_append none l [(a, x)]).symm, (lastAddr_concat none l (a, x)).symm, ?_, ?_⟩
  · rw [hl.last_eq] at hfresh ⊢
    refine linked_append.mpr ⟨hfresh.relink_front hl.nodup (some a), ?_, trivial⟩
    rw [setFront_of_ne (lastAddr_ne ha), Function.update_self]
    rfl
  · rw [List.map_append, List.nodup_append]
    refine ⟨hl.nodup, by simp, fun b hb c hc => ?_⟩
    rw [List.map_singleton, List.mem_singleton] at hc
    rintro rfl
    rw [hc] at hb
    exact ha hb

/-- **A node less**: its neighbours are linked to each other. -/
theorem erase (hl : Represents h first last (l₁ ++ (a, x) :: l₂)) :
    Represents
      (setBack (setFront h (lastAddr none l₁) (headAddr none l₂)) (headAddr none l₂)
        (lastAddr none l₁))
      (headAddr none (l₁ ++ l₂)) (lastAddr none (l₁ ++ l₂)) (l₁ ++ l₂) := by
  have hnodup := hl.nodup
  rw [List.map_append, List.map_cons, List.nodup_append, List.nodup_cons] at hnodup
  obtain ⟨hnodup₁, ⟨ha, hnodup₂⟩, hdisj⟩ := hnodup
  obtain ⟨hl₁, -, hl₂⟩ := linked_append.mp hl.linked
  refine ⟨rfl, rfl, linked_append.mpr ⟨?_, ?_⟩, ?_⟩
  · refine (hl₁.relink_front hnodup₁ (headAddr none l₂)).congr fun b hb => ?_
    exact setBack_of_ne (headAddr_ne fun hb' => hdisj b hb b (List.mem_cons_of_mem a hb') rfl)
  · refine Linked.relink_back (hl₂.congr fun b hb => ?_) hnodup₂ _
    exact setFront_of_ne (lastAddr_ne fun hb' => hdisj b hb' b (List.mem_cons_of_mem a hb) rfl)
  · rw [List.map_append, List.nodup_append]
    exact ⟨hnodup₁, hnodup₂, fun b hb c hc => hdisj b hb c (List.mem_cons_of_mem a hc)⟩

/-- **A node before another one.** -/
theorem insert (hl : Represents h first last (l₁ ++ (a, x) :: l₂))
    (hb : b ∉ (l₁ ++ (a, x) :: l₂).map Prod.fst) :
    Represents
      (setBack
        (setFront (Function.update h b (some ⟨y, some a, lastAddr none l₁⟩)) (lastAddr none l₁)
          (some b))
        (some a) (some b))
      (headAddr (some b) l₁) last (l₁ ++ (b, y) :: (a, x) :: l₂) := by
  have hnodup := hl.nodup
  rw [List.map_append, List.nodup_append] at hnodup
  obtain ⟨hnodup₁, hnodup₂, hdisj⟩ := hnodup
  rw [List.map_append, List.mem_append, not_or] at hb
  obtain ⟨hb₁, hb₂⟩ := hb
  have hba : b ≠ a := fun hab => hb₂ (by simp [hab])
  obtain ⟨hl₁, hl₂⟩ := linked_append.mp hl.linked
  refine ⟨(headAddr_append none l₁ ((b, y) :: (a, x) :: l₂)).symm, ?_,
    linked_append.mpr ⟨?_, ?_, ?_⟩, ?_⟩
  · rw [hl.last_eq, lastAddr_append, lastAddr_append]
    rfl
  · have hfresh : Linked (Function.update h b (some ⟨y, some a, lastAddr none l₁⟩)) none _ l₁ :=
      hl₁.congr fun c hc => update_of_notMem hb₁ hc h _
    refine (hfresh.relink_front hnodup₁ (some b)).congr fun c hc => ?_
    exact setBack_of_ne fun hac =>
      hdisj c hc a (by simp) (Option.some.inj hac).symm
  · rw [setBack_of_ne fun hab => hba (Option.some.inj hab).symm, setFront_of_ne (lastAddr_ne hb₁),
      Function.update_self]
    rfl
  · refine Linked.relink_back (hl₂.congr fun c hc => ?_) hnodup₂ (some b)
    rw [setFront_of_ne (lastAddr_ne fun hc' => hdisj c hc' c hc rfl), update_of_notMem hb₂ hc]
  · rw [List.map_append, List.map_cons, List.nodup_append, List.nodup_cons]
    refine ⟨hnodup₁, ⟨hb₂, hnodup₂⟩, fun c hc d hd hcd => ?_⟩
    rcases List.mem_cons.mp hd with hd | hd
    · rw [hcd, hd] at hc
      exact hb₁ hc
    · exact hdisj c hc d hd hcd

end Represents

end LinkedList
