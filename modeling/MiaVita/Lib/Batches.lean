import Mathlib.Data.List.Basic
import Mathlib.Logic.Function.Basic
import MiaVita.Lib.Run

/-!
# Collecting items in batches, by key

`Batches` is a sequence of items cut into batches, of which the last is still open: an item is
added to the open batch, and the open batch is closed, unless it is empty. Neither loses, repeats
or reorders an item (`items_add`, `items_close`), and no closed batch is empty, which the type
says.

A table of such sequences has one for each key. `Op.step` adds an item under its key, and closes
the batch if it is `full`, or closes the open batches of all keys; after any run the sequence of a
key has the items of that key, in order (`items_exec`), and no batch was full before its last item
(`tight_step`).
-/

/-- A sequence of items in batches, oldest first, the last of them still open. -/
structure Batches (α : Type*) where
  closed : List (List α)
  pending : List α
  ne_nil : ∀ g ∈ closed, g ≠ []

namespace Batches

variable {α κ : Type*}

/-- No items at all. -/
def empty : Batches α := ⟨[], [], by simp⟩

/-- All the items. -/
def items (b : Batches α) : List α := b.closed.flatten ++ b.pending

/-- An item goes to the open batch. -/
def add (b : Batches α) (x : α) : Batches α := { b with pending := b.pending ++ [x] }

/-- The open batch is closed, if there is anything in it. -/
def close (b : Batches α) : Batches α :=
  match h : b.pending with
  | [] => b
  | x :: xs =>
    { closed := b.closed ++ [x :: xs]
      pending := []
      ne_nil := by
        intro g hg
        rcases List.mem_append.mp hg with hg | hg
        · exact b.ne_nil g hg
        · rw [List.mem_singleton.mp hg]
          exact List.cons_ne_nil x xs }

theorem close_of_nil {b : Batches α} (h : b.pending = []) : b.close = b := by
  rw [close]
  split
  · rfl
  · simp_all

theorem closed_close {b : Batches α} (h : b.pending ≠ []) :
    b.close.closed = b.closed ++ [b.pending] := by
  rw [close]
  split
  · contradiction
  · simp_all

@[simp] theorem pending_close (b : Batches α) : b.close.pending = [] := by
  rw [close]
  split
  · assumption
  · rfl

@[simp] theorem items_add (b : Batches α) (x : α) : (b.add x).items = b.items ++ [x] :=
  (List.append_assoc _ _ _).symm

@[simp] theorem items_close (b : Batches α) : b.close.items = b.items := by
  by_cases h : b.pending = []
  · rw [close_of_nil h]
  · rw [items, closed_close h, pending_close, List.flatten_append, List.append_nil,
      List.flatten_singleton, items]

section Table

variable (key : α → κ) (full : List α → Bool)

/-- What happens to a table of batches. -/
inductive Op (α : Type*) where
  | item (x : α)
  | closeAll

/-- The item of an operation, if it adds one. -/
def Op.item? : Op α → Option α
  | item x => some x
  | closeAll => none

variable [DecidableEq κ]

/-- One operation on a table. -/
def Op.step (a : κ → Batches α) : Op α → κ → Batches α
  | item x =>
    let b := (a (key x)).add x
    Function.update a (key x) (if full b.pending then b.close else b)
  | closeAll => fun k => (a k).close

/-- The items added under a key, in order. -/
def itemsFor (ops : List (Op α)) (k : κ) : List α :=
  (ops.filterMap Op.item?).filter fun x => key x = k

/-- One operation adds its item under its key, and nothing else. -/
theorem items_step (a : κ → Batches α) (op : Op α) (k : κ) :
    (op.step key full a k).items = (a k).items ++ itemsFor key [op] k := by
  cases op with
  | item x =>
    simp only [Op.step, itemsFor, Op.item?, List.filterMap_cons, List.filterMap_nil]
    by_cases hk : k = key x
    · subst hk
      rw [Function.update_self, List.filter_singleton]
      split <;> simp
    · rw [Function.update_of_ne hk, List.filter_singleton]
      simp [Ne.symm hk]
  | closeAll => simp [Op.step, itemsFor, Op.item?]

/-- **Nothing is lost, repeated or reordered**: after any run the batches of a key are a partition
of the items added under it. -/
theorem items_exec (a : κ → Batches α) (ops : List (Op α)) (k : κ) :
    (Run.exec (Op.step key full) a ops k).items = (a k).items ++ itemsFor key ops k := by
  induction ops generalizing a with
  | nil => simp [itemsFor]
  | cons op ops ih =>
    have hsplit : itemsFor key (op :: ops) k = itemsFor key [op] k ++ itemsFor key ops k := by
      rw [itemsFor, itemsFor, itemsFor, ← List.filter_append, ← List.filterMap_append,
        List.singleton_append]
    rw [Run.exec_cons, ih, items_step, hsplit, List.append_assoc]

/-- No batch is full before its last item, and the open one is not full at all. -/
structure Tight (b : Batches α) : Prop where
  closed : ∀ g ∈ b.closed, g.dropLast = [] ∨ full g.dropLast = false
  pending : b.pending = [] ∨ full b.pending = false

variable {full}

/-- Closing the open batch, which was not full before its last item. -/
theorem Tight.close {b : Batches α} (h : ∀ g ∈ b.closed, g.dropLast = [] ∨ full g.dropLast = false)
    (hpending : b.pending.dropLast = [] ∨ full b.pending.dropLast = false) :
    b.close.Tight full := by
  refine ⟨fun g hg => ?_, .inl (pending_close b)⟩
  by_cases hb : b.pending = []
  · rw [close_of_nil hb] at hg
    exact h g hg
  · rw [closed_close hb, List.mem_append, List.mem_singleton] at hg
    obtain hg | rfl := hg
    exacts [h g hg, hpending]

/-- Every operation keeps the batches tight, if a batch that is full stays so with more items. -/
theorem tight_step (hfull : ∀ g x, full g = true → full (g ++ [x]) = true) {a : κ → Batches α}
    (h : ∀ k, (a k).Tight full) (op : Op α) (k : κ) : (op.step key full a k).Tight full := by
  cases op with
  | item x =>
    simp only [Op.step, Function.update_apply]
    have hdrop : ((a (key x)).add x).pending.dropLast = (a (key x)).pending :=
      List.dropLast_concat
    split_ifs with hk hfull
    · exact Tight.close (h (key x)).closed (by rw [hdrop]; exact (h (key x)).pending)
    · exact ⟨(h (key x)).closed, .inr (by simpa using hfull)⟩
    · exact h k
  | closeAll =>
    refine Tight.close (h k).closed ?_
    obtain hnil | hopen := (h k).pending
    · exact .inl (by rw [hnil]; rfl)
    · by_cases hnil : (a k).pending = []
      · exact .inl (by rw [hnil]; rfl)
      · refine .inr (Bool.not_eq_true _ ▸ fun hdrop => ?_)
        have hmore := hfull _ ((a k).pending.getLast hnil) hdrop
        rw [List.dropLast_append_getLast, hopen] at hmore
        cases hmore

end Table

end Batches
