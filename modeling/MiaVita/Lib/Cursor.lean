import Mathlib.Data.List.Nodup
import MiaVita.Lib.Run

/-!
# Lists that change under a cursor

The elements of a list are told apart by numbers, which are given out in the order in which the
elements come in (`Numbered`). Elements are added at the end and removed anywhere.

A cursor goes over such a list (`Cursor`): it has passed a part of the list and has the rest ahead.
It can step, remove the element it is at, and put a new one before it; meanwhile the list goes on
changing. The cursor keeps a record of the elements it stepped over or removed (`visited`), of those
it put in itself (`inserted`), and of those that were removed by others before it came to them
(`skipped`).

What a cursor visits and what it has ahead is, all the time, one list without repetition. Without
the elements that came in later, it is the list that was there at the start, without those that were
skipped (`Cursor.Sound`, `Cursor.sound_run`).
-/

variable {α : Type*}

/-- A list of elements with their numbers, and how many numbers have been given out. -/
structure Numbered (α : Type*) where
  items : List (ℕ × α)
  made : ℕ
  nodup : (items.map Prod.fst).Nodup
  below : ∀ a ∈ items.map Prod.fst, a < made

namespace Numbered

/-- A change to a list. -/
inductive Call (α : Type*) where
  | add (x : α)
  | remove (a : ℕ)

/-- A list without the element of a number. -/
def without (a : ℕ) (l : List (ℕ × α)) : List (ℕ × α) := l.filter fun n => n.1 ≠ a

private theorem map_without (a : ℕ) (l : List (ℕ × α)) :
    (without a l).map Prod.fst = (l.map Prod.fst).filter fun b => b ≠ a := by
  rw [without, List.filter_map]
  rfl

private theorem filter_ne_of_notMem {a : ℕ} {l : List ℕ} (ha : a ∉ l) :
    (l.filter fun b => b ≠ a) = l := by
  refine List.filter_eq_self.mpr fun b hb => decide_eq_true ?_
  rintro rfl
  exact ha hb

theorem without_append (a : ℕ) (l₁ l₂ : List (ℕ × α)) :
    without a (l₁ ++ l₂) = without a l₁ ++ without a l₂ := List.filter_append ..

theorem without_of_notMem {a : ℕ} {l : List (ℕ × α)} (ha : a ∉ l.map Prod.fst) :
    without a l = l := by
  refine List.filter_eq_self.mpr fun n hn => decide_eq_true ?_
  rintro rfl
  exact ha (List.mem_map_of_mem hn)

theorem without_cons_self (a : ℕ) (x : α) (l : List (ℕ × α)) :
    without a ((a, x) :: l) = without a l := List.filter_cons_of_neg (by simp)

/-- The number of an element that comes in is not in use. -/
theorem nodup_concat {l : List ℕ} {made : ℕ} (hnodup : l.Nodup) (hbelow : ∀ a ∈ l, a < made) :
    (l ++ [made]).Nodup := by
  rw [← List.concat_eq_append]
  exact hnodup.concat fun hmem => Nat.lt_irrefl made (hbelow made hmem)

private theorem below_concat {l : List ℕ} {made : ℕ} (hbelow : ∀ a ∈ l, a < made) :
    ∀ a ∈ l ++ [made], a < made + 1 := by
  intro a ha
  rcases List.mem_append.mp ha with ha | ha
  · exact Nat.lt_succ_of_lt (hbelow a ha)
  · rw [List.mem_singleton.mp ha]
    exact Nat.lt_succ_self made

/-- No element. -/
def empty : Numbered α := ⟨[], 0, List.nodup_nil, by simp⟩

/-- An element more, at the end. -/
def add (l : Numbered α) (x : α) : Numbered α where
  items := l.items ++ [(l.made, x)]
  made := l.made + 1
  nodup := by
    rw [List.map_append]
    exact nodup_concat l.nodup l.below
  below := by
    rw [List.map_append]
    exact below_concat l.below

/-- An element less. -/
def remove (l : Numbered α) (a : ℕ) : Numbered α where
  items := without a l.items
  made := l.made
  nodup := by
    rw [map_without]
    exact l.nodup.filter _
  below := by
    intro b hb
    rw [map_without] at hb
    exact l.below b (List.mem_of_mem_filter hb)

/-- One change. -/
def step (l : Numbered α) : Call α → Numbered α
  | .add x => l.add x
  | .remove a => l.remove a

/-- Only elements of the list are removed. -/
def Allowed (l : Numbered α) : Call α → Prop
  | .add _ => True
  | .remove a => a ∈ l.items.map Prod.fst

instance (l : Numbered α) : ∀ c : Call α, Decidable (l.Allowed c)
  | .add _ => inferInstanceAs (Decidable True)
  | .remove a => inferInstanceAs (Decidable (a ∈ l.items.map Prod.fst))

end Numbered

/-- A cursor, with its list and its record. -/
structure Cursor (α : Type*) where
  passed : List (ℕ × α)
  ahead : List (ℕ × α)
  made : ℕ
  visited : List ℕ
  skipped : List ℕ
  inserted : List ℕ

namespace Cursor

open Numbered

/-- What can happen. -/
inductive Call (α : Type*) where
  | list (c : Numbered.Call α)
  | next
  | removeCurrent
  | insertBefore (x : α)

/-- The cursor at the start of a list. -/
def start (l : Numbered α) : Cursor α := ⟨[], l.items, l.made, [], [], []⟩

/-- The list. -/
def items (c : Cursor α) : List (ℕ × α) := c.passed ++ c.ahead

/-- The number of the element that the cursor is at. -/
def current (c : Cursor α) : Option ℕ := c.ahead.head?.map Prod.fst

/-- The numbers of the elements that the cursor visited or has ahead. -/
def way (c : Cursor α) : List ℕ := c.visited ++ c.ahead.map Prod.fst

/-- An element more, at the end. A cursor that is at the end stays behind it. -/
def add (c : Cursor α) (x : α) : Cursor α :=
  match c.ahead with
  | [] => { c with passed := c.passed ++ [(c.made, x)], made := c.made + 1 }
  | n :: l => { c with ahead := n :: l ++ [(c.made, x)], made := c.made + 1 }

/-- An element less. -/
def remove (c : Cursor α) (a : ℕ) : Cursor α :=
  { c with
    passed := without a c.passed
    ahead := without a c.ahead
    skipped := if a ∈ c.visited then c.skipped else c.skipped ++ [a] }

theorem items_add (c : Cursor α) (x : α) : (c.add x).items = c.items ++ [(c.made, x)] := by
  obtain ⟨passed, ahead, made, visited, skipped, inserted⟩ := c
  cases ahead <;> simp [add, items]

theorem items_remove (c : Cursor α) (a : ℕ) : (c.remove a).items = without a c.items :=
  (without_append a c.passed c.ahead).symm

/-- One thing that happens. -/
def step (c : Cursor α) : Call α → Cursor α
  | .list (.add x) => c.add x
  | .list (.remove a) => c.remove a
  | .next =>
    match c.ahead with
    | [] => c
    | n :: l => { c with passed := c.passed ++ [n], ahead := l, visited := c.visited ++ [n.1] }
  | .removeCurrent =>
    match c.ahead with
    | [] => c
    | n :: l => { c with ahead := l, visited := c.visited ++ [n.1] }
  | .insertBefore x =>
    { c with
      passed := c.passed ++ [(c.made, x)]
      made := c.made + 1
      inserted := c.inserted ++ [c.made] }

/-- Only elements of the list are removed, and not the one that the cursor is at; an element is put
in only before another one. -/
def Allowed (c : Cursor α) : Call α → Prop
  | .list (.remove a) => a ∈ c.items.map Prod.fst ∧ c.current ≠ some a
  | .insertBefore _ => c.current ≠ none
  | _ => True

instance (c : Cursor α) : ∀ e : Call α, Decidable (c.Allowed e)
  | .list (.add _) => inferInstanceAs (Decidable True)
  | .list (.remove a) =>
    inferInstanceAs (Decidable (a ∈ c.items.map Prod.fst ∧ c.current ≠ some a))
  | .next => inferInstanceAs (Decidable True)
  | .removeCurrent => inferInstanceAs (Decidable True)
  | .insertBefore _ => inferInstanceAs (Decidable (c.current ≠ none))

/-- **The way of a cursor** that started at the elements `created`: the elements that it visited or
has ahead, where `made` numbers have been given out. -/
structure Way (created way : List ℕ) (made : ℕ) (skipped inserted : List ℕ) : Prop where
  nodup : way.Nodup
  below : ∀ a ∈ way, a < made
  created_below : ∀ a ∈ created, a < made
  inserted_below : ∀ a ∈ inserted, a < made
  inserted_notMem : ∀ a ∈ inserted, a ∉ way
  way_created : way.filter (· ∈ created) = created.filter (· ∉ skipped)

namespace Way

variable {created way skipped inserted : List ℕ} {made : ℕ}

/-- An element comes in that is not on the way. -/
theorem grow (h : Way created way made skipped inserted) :
    Way created way (made + 1) skipped inserted where
  nodup := h.nodup
  below a ha := Nat.lt_succ_of_lt (h.below a ha)
  created_below a ha := Nat.lt_succ_of_lt (h.created_below a ha)
  inserted_below a ha := Nat.lt_succ_of_lt (h.inserted_below a ha)
  inserted_notMem := h.inserted_notMem
  way_created := h.way_created

/-- An element comes in at the end of the way. -/
theorem extend (h : Way created way made skipped inserted) :
    Way created (way ++ [made]) (made + 1) skipped inserted where
  nodup := nodup_concat h.nodup h.below
  below := below_concat h.below
  created_below := h.grow.created_below
  inserted_below := h.grow.inserted_below
  inserted_notMem a ha := by
    rw [List.mem_append, List.mem_singleton, not_or]
    exact ⟨h.inserted_notMem a ha, Nat.ne_of_lt (h.inserted_below a ha)⟩
  way_created := by
    have hfresh : made ∉ created := fun hmem => Nat.lt_irrefl made (h.created_below made hmem)
    rw [List.filter_append, h.way_created, List.filter_cons_of_neg (by simpa using hfresh),
      List.filter_nil, List.append_nil]

/-- The cursor puts an element in. -/
theorem insert (h : Way created way made skipped inserted) :
    Way created way (made + 1) skipped (inserted ++ [made]) where
  nodup := h.nodup
  below := h.grow.below
  created_below := h.grow.created_below
  inserted_below := below_concat h.inserted_below
  inserted_notMem a ha := by
    rcases List.mem_append.mp ha with ha | ha
    · exact h.inserted_notMem a ha
    · rw [List.mem_singleton.mp ha]
      exact fun hmem => Nat.lt_irrefl made (h.below made hmem)
  way_created := h.way_created

/-- An element is removed before the cursor comes to it. -/
theorem skip (h : Way created way made skipped inserted) (a : ℕ) :
    Way created (way.filter fun b => b ≠ a) made (skipped ++ [a]) inserted where
  nodup := h.nodup.filter _
  below b hb := h.below b (List.mem_of_mem_filter hb)
  created_below := h.created_below
  inserted_below := h.inserted_below
  inserted_notMem b hb hmem := h.inserted_notMem b hb (List.mem_of_mem_filter hmem)
  way_created := by
    -- the two filters of the way change places, and that by `a` joins that by `skipped`
    rw [List.filter_comm, h.way_created, List.filter_filter]
    refine List.filter_congr fun b _ => ?_
    simp [and_comm]

end Way

/-- The way of the cursor. -/
def Sound (created : List ℕ) (c : Cursor α) : Prop :=
  Way created c.way c.made c.skipped c.inserted

private theorem sound_start (l : Numbered α) : (start l).Sound (l.items.map Prod.fst) where
  nodup := l.nodup
  below := l.below
  created_below := l.below
  inserted_below a ha := absurd ha List.not_mem_nil
  inserted_notMem a ha := absurd ha List.not_mem_nil
  way_created := by
    refine (List.filter_eq_self.mpr fun a ha => decide_eq_true ha).trans ?_
    exact (List.filter_eq_self.mpr fun a _ => decide_eq_true List.not_mem_nil).symm

variable {created : List ℕ} {c : Cursor α}

private theorem Sound.add (h : c.Sound created) (x : α) : (c.add x).Sound created := by
  obtain ⟨passed, ahead, made, visited, skipped, inserted⟩ := c
  cases ahead with
  | nil => exact h.grow
  | cons n l =>
    have hway : (Cursor.add ⟨passed, n :: l, made, visited, skipped, inserted⟩ x).way =
        way ⟨passed, n :: l, made, visited, skipped, inserted⟩ ++ [made] := by
      simp [Cursor.add, way]
    have hextend := h.extend
    rw [← hway] at hextend
    exact hextend

private theorem Sound.remove (h : c.Sound created) (a : ℕ) : (c.remove a).Sound created := by
  obtain ⟨passed, ahead, made, visited, skipped, inserted⟩ := c
  have hway : way (Cursor.remove ⟨passed, ahead, made, visited, skipped, inserted⟩ a) =
      visited ++ (ahead.map Prod.fst).filter fun b => b ≠ a := by
    rw [Cursor.remove, way, map_without]
  rw [Sound, hway]
  by_cases ha : a ∈ visited
  · -- the cursor has been there, so that the element is not ahead
    have hahead : a ∉ ahead.map Prod.fst := fun hmem =>
      (List.nodup_append.mp h.nodup).2.2 a ha a hmem rfl
    rw [filter_ne_of_notMem hahead, Cursor.remove, if_pos ha]
    exact h
  · have hskip := h.skip a
    rw [way, List.filter_append, filter_ne_of_notMem ha] at hskip
    rw [Cursor.remove, if_neg ha]
    exact hskip

/-- The step over an element, or its removal, takes it from what is ahead to what was visited. -/
theorem Sound.visit {passed passed' l : List (ℕ × α)} {n : ℕ × α} {made : ℕ}
    {visited skipped inserted : List ℕ}
    (h : Sound created ⟨passed, n :: l, made, visited, skipped, inserted⟩) :
    Sound created ⟨passed', l, made, visited ++ [n.1], skipped, inserted⟩ := by
  have hway : way ⟨passed', l, made, visited ++ [n.1], skipped, inserted⟩ =
      way ⟨passed, n :: l, made, visited, skipped, inserted⟩ := List.append_assoc ..
  rw [Sound, hway]
  exact h

/-- **One thing that happens** keeps the way. -/
theorem Sound.step (h : c.Sound created) (e : Call α) : (c.step e).Sound created := by
  cases e with
  | list e =>
    cases e with
    | add x => exact h.add x
    | remove a => exact h.remove a
  | next =>
    obtain ⟨passed, ahead, made, visited, skipped, inserted⟩ := c
    cases ahead with
    | nil => exact h
    | cons n l => exact h.visit
  | removeCurrent =>
    obtain ⟨passed, ahead, made, visited, skipped, inserted⟩ := c
    cases ahead with
    | nil => exact h
    | cons n l => exact h.visit
  | insertBefore x => exact h.insert

/-- **Every run** keeps the way. -/
theorem sound_run (l : Numbered α) (calls : List (Call α)) :
    (Run.exec step (start l) calls).Sound (l.items.map Prod.fst) :=
  Run.always (fun _ e h => h.step e) (sound_start l) calls

theorem Sound.visited_nodup (h : c.Sound created) : c.visited.Nodup :=
  (List.nodup_append.mp h.nodup).1

theorem Sound.inserted_notMem_visited (h : c.Sound created) {a : ℕ} (ha : a ∈ c.inserted) :
    a ∉ c.visited := fun hmem => h.inserted_notMem a ha (List.mem_append_left _ hmem)

/-- **At the end** of the list the cursor has visited the elements that were there at the start,
except for those that were skipped, in their order. -/
theorem Sound.visited_eq (h : c.Sound created) (hend : c.ahead = []) :
    c.visited.filter (· ∈ created) = created.filter (· ∉ c.skipped) := by
  have hway := h.way_created
  rwa [way, hend, List.map_nil, List.append_nil] at hway

end Cursor
