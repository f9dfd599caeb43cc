import Mathlib.Data.List.Basic
import Mathlib.Data.List.Induction
import Mathlib.Data.List.Infix

/-!
# Sliding windows with a total on each side

A window of size `w` is a middle between two bounded queues of `w` items. The first items fill the
queue before the middle, then the middle, then the queue behind it; from then on each item moves
everything on by one place. Every queue keeps a total of what it holds, which is adjusted when an
item comes and when the oldest one goes (`Tally`).

What a window holds does not depend on how the totals are kept: after `n` items the middle is the
item at `centre w n`, with up to `w` items on both sides (`spans_moved`). The totals are those of
the items in the queues, as long as the tally is right on consecutive items (`totals_moved`).
-/

/-- How a total is kept: of nothing, with an item more, and without the oldest one. -/
structure Window.Tally (α σ : Type*) where
  zero : σ
  plus : σ → α → σ
  minus : σ → Option α → σ

/-- A bounded queue, its oldest item first, with a total. -/
structure Window.Queue (α σ : Type*) where
  maxSize : ℕ
  items : List α
  total : σ

/-- A middle between two queues. -/
structure Window (α σ : Type*) where
  before : Window.Queue α σ
  after : Window.Queue α σ
  middle : Option α

namespace Window

variable {α σ : Type*} (t : Tally α σ)

/-- An empty queue. -/
def Queue.new (size : ℕ) : Queue α σ := ⟨size, [], t.zero⟩

/-- A full queue drops its oldest item for a new one. -/
def Queue.add (q : Queue α σ) (x : α) : Queue α σ :=
  let total := if q.maxSize > q.items.length then q.total else t.minus q.total q.items.head?
  let items := if q.maxSize > q.items.length then q.items else q.items.tail
  { q with items := items ++ [x], total := t.plus total x }

/-- An empty window. -/
def new (size : ℕ) : Window α σ := ⟨.new t size, .new t size, none⟩

/-- One item more. -/
def add (win : Window α σ) (x : α) : Window α σ :=
  if win.before.items.length ≠ win.before.maxSize then { win with before := win.before.add t x }
  else
    match win.middle with
    | none => { win with middle := some x }
    | some m =>
      if win.after.items.length ≠ win.after.maxSize then { win with after := win.after.add t x }
      else ⟨win.before.add t m, win.after.add t x, win.after.items.head?⟩

/-- The window after some items. -/
def moved (size : ℕ) (xs : List α) : Window α σ := xs.foldl (add t) (new t size)

variable {t}

/-! ### Queues -/

namespace Queue

/-- A queue of `w` places with some items in it. -/
structure Contains (w : ℕ) (q : Queue α σ) (xs : List α) : Prop where
  maxSize : q.maxSize = w
  items : q.items = xs
  length : xs.length ≤ w

variable {w : ℕ} {q : Queue α σ} {xs : List α}

variable (t) in
private theorem contains_new (w : ℕ) : (Queue.new t w).Contains w [] := ⟨rfl, rfl, Nat.zero_le w⟩

private theorem Contains.not_full_iff (h : q.Contains w xs) :
    q.items.length ≠ q.maxSize ↔ xs.length < w := by
  rw [h.items, h.maxSize]
  have := h.length
  omega

private theorem Contains.room_iff (h : q.Contains w xs) :
    q.maxSize > q.items.length ↔ xs.length < w := by
  rw [h.items, h.maxSize]

private theorem add_items (q : Queue α σ) (x : α) :
    (q.add t x).items = (if q.maxSize > q.items.length then q.items else q.items.tail) ++ [x] := rfl

private theorem add_total (q : Queue α σ) (x : α) :
    (q.add t x).total =
      t.plus (if q.maxSize > q.items.length then q.total else t.minus q.total q.items.head?) x :=
  rfl

/-- A queue with room. -/
theorem Contains.add_of_lt (h : q.Contains w xs) (hlt : xs.length < w) (x : α) :
    (q.add t x).Contains w (xs ++ [x]) := by
  refine ⟨h.maxSize, ?_, ?_⟩
  · rw [add_items, if_pos (h.room_iff.mpr hlt), h.items]
  · rw [List.length_append]
    exact hlt

/-- A full queue. -/
theorem Contains.add_of_full {oldest : α} (h : q.Contains w (oldest :: xs))
    (hfull : (oldest :: xs).length = w) (x : α) : (q.add t x).Contains w (xs ++ [x]) := by
  refine ⟨h.maxSize, ?_, ?_⟩
  · rw [add_items, if_neg (h.room_iff.not.mpr hfull.not_lt), h.items, List.tail_cons]
  · rw [List.length_append]
    exact hfull.le

end Queue

/-! ### What a window holds -/

/-- Where the middle of the window is after `n` items. -/
def centre (w n : ℕ) : ℕ := max w (n - 1 - w)

theorem centre_of_le {w n : ℕ} (h : n ≤ 2 * w + 1) : centre w n = w := by
  rw [centre]
  omega

theorem centre_of_ge {w n : ℕ} (h : 2 * w + 1 ≤ n) : centre w n = n - 1 - w := by
  rw [centre]
  omega

/-- **What the window holds**: the middle is at the centre, if there are that many items, and the
queues hold what is on both sides of it. -/
structure Spans (w : ℕ) (win : Window α σ) (xs : List α) : Prop where
  before : win.before.Contains w ((xs.take (centre w xs.length)).drop (centre w xs.length - w))
  middle : win.middle = xs[centre w xs.length]?
  after : win.after.Contains w (xs.drop (centre w xs.length + 1))

section Spans

variable {w : ℕ} {win : Window α σ} {xs : List α}

/-- Until the window is full, its middle is at `w`. -/
theorem spans_iff_of_le (h : xs.length ≤ 2 * w + 1) :
    win.Spans w xs ↔ win.before.Contains w (xs.take w) ∧ win.middle = xs[w]? ∧
      win.after.Contains w (xs.drop (w + 1)) := by
  have hc := centre_of_le h
  constructor
  · rintro ⟨hbefore, hmiddle, hafter⟩
    rw [hc] at hbefore hmiddle hafter
    rw [Nat.sub_self, List.drop_zero] at hbefore
    exact ⟨hbefore, hmiddle, hafter⟩
  · rintro ⟨hbefore, hmiddle, hafter⟩
    refine ⟨?_, ?_, ?_⟩ <;> rw [hc]
    · rwa [Nat.sub_self, List.drop_zero]
    · exact hmiddle
    · exact hafter

variable (t) in
private theorem spans_new (w : ℕ) : (Window.new t w).Spans w [] := by
  rw [spans_iff_of_le (Nat.zero_le _), List.take_nil]
  exact ⟨Queue.contains_new t w, rfl, Queue.contains_new t w⟩

/-- A full window, with the items that it holds. -/
theorem spans_full_iff {front before after : List α} {m : α} (hbefore : before.length = w)
    (hafter : after.length = w) :
    win.Spans w (front ++ before ++ m :: after) ↔
      win.before.Contains w before ∧ win.middle = some m ∧ win.after.Contains w after := by
  have hc : centre w (front ++ before ++ m :: after).length = (front ++ before).length := by
    simp only [centre, List.length_append, List.length_cons]
    omega
  have hskip : (front ++ before).length - w = front.length := by
    rw [List.length_append]
    omega
  have hback : (front ++ before).length + 1 = (front ++ before ++ [m]).length := by
    simp [Nat.add_assoc]
  have hsplit : front ++ before ++ m :: after = front ++ before ++ [m] ++ after := by
    rw [List.append_assoc _ [m], List.singleton_append]
  have htake : ((front ++ before ++ m :: after).take (front ++ before).length).drop
      ((front ++ before).length - w) = before := by
    rw [hskip, List.take_left, List.drop_left]
  have hmiddle : (front ++ before ++ m :: after)[(front ++ before).length]? = some m := by
    rw [List.getElem?_append_right (Nat.le_refl _), Nat.sub_self, List.getElem?_cons_zero]
  have hdrop : (front ++ before ++ m :: after).drop ((front ++ before).length + 1) = after := by
    rw [hback, hsplit, List.drop_left]
  constructor
  · rintro ⟨h₁, h₂, h₃⟩
    rw [hc, htake] at h₁
    rw [hc, hmiddle] at h₂
    rw [hc, hdrop] at h₃
    exact ⟨h₁, h₂, h₃⟩
  · rintro ⟨h₁, h₂, h₃⟩
    refine ⟨?_, ?_, ?_⟩ <;> rw [hc]
    · rwa [htake]
    · rwa [hmiddle]
    · rwa [hdrop]

/-- Items that fill a window. -/
theorem exists_full (hpos : 0 < w) (hn : 2 * w < xs.length) :
    ∃ front oldest before m next after, xs = front ++ oldest :: before ++ m :: next :: after ∧
      (oldest :: before).length = w ∧ (next :: after).length = w := by
  obtain ⟨front, last, rfl, hlast⟩ : ∃ front last, xs = front ++ last ∧ last.length = 2 * w + 1 :=
    ⟨_, _, (List.take_append_drop (xs.length - (2 * w + 1)) xs).symm, by
      rw [List.length_drop]
      omega⟩
  obtain ⟨before, back, rfl, hbefore⟩ : ∃ before back, last = before ++ back ∧ before.length = w :=
    ⟨_, _, (List.take_append_drop w last).symm, by
      rw [List.length_take]
      omega⟩
  rw [List.length_append] at hlast
  obtain ⟨oldest, before, rfl⟩ := List.exists_cons_of_length_pos (hbefore ▸ hpos)
  obtain ⟨m, back, rfl⟩ := List.exists_cons_of_length_pos (by omega : 0 < back.length)
  have hm : (m :: back).length = back.length + 1 := rfl
  obtain ⟨next, after, rfl⟩ := List.exists_cons_of_length_pos (by omega : 0 < back.length)
  exact ⟨front, oldest, before, m, next, after, (List.append_assoc _ _ _).symm, hbefore, by omega⟩

/-! Where an item goes. -/

private theorem Spans.add_of_lt (h : win.Spans w xs) (hn : xs.length < w) (x : α) :
    win.add t x = { win with before := win.before.add t x } := by
  obtain ⟨hbefore, -, -⟩ := (spans_iff_of_le (by omega)).mp h
  refine if_pos (hbefore.not_full_iff.mpr ?_)
  rw [List.length_take]
  omega

private theorem Spans.before_full (h : win.Spans w xs) (hn : w ≤ xs.length) :
    ¬ win.before.items.length ≠ win.before.maxSize := by
  rw [h.before.not_full_iff, List.length_drop, List.length_take, centre]
  omega

private theorem Spans.add_of_eq (h : win.Spans w xs) (hn : xs.length = w) (x : α) :
    win.add t x = { win with middle := some x } := by
  have hmiddle := h.middle
  rw [centre_of_le (by omega), List.getElem?_eq_none hn.le] at hmiddle
  rw [add, if_neg (h.before_full hn.ge), hmiddle]

private theorem Spans.add_of_le (h : win.Spans w xs) (hlt : w < xs.length) (hn : xs.length ≤ 2 * w)
    (x : α) : win.add t x = { win with after := win.after.add t x } := by
  obtain ⟨-, hmiddle, hafter⟩ := (spans_iff_of_le (by omega)).mp h
  have hroom : (xs.drop (w + 1)).length < w := by
    rw [List.length_drop]
    omega
  rw [List.getElem?_eq_getElem hlt] at hmiddle
  rw [add, if_neg (h.before_full hlt.le), hmiddle]
  exact if_pos (hafter.not_full_iff.mpr hroom)

private theorem add_of_full {before after : List α} {m : α} (hbefore : win.before.Contains w before)
    (hmiddle : win.middle = some m) (hafter : win.after.Contains w after)
    (hfull : before.length = w) (hfull' : after.length = w) (x : α) :
    win.add t x = ⟨win.before.add t m, win.after.add t x, win.after.items.head?⟩ := by
  rw [add, if_neg (hbefore.not_full_iff.not.mpr hfull.not_lt), hmiddle]
  exact if_neg (hafter.not_full_iff.not.mpr hfull'.not_lt)

/-- **One item more.** -/
theorem Spans.add (h : win.Spans w xs) (hpos : 0 < w) (x : α) :
    (win.add t x).Spans w (xs ++ [x]) := by
  have hlen : (xs ++ [x]).length = xs.length + 1 := List.length_append
  rcases Nat.lt_trichotomy xs.length w with hn | hn | hn
  · -- the first items go into the queue before the middle
    obtain ⟨hbefore, hmiddle, hafter⟩ := (spans_iff_of_le (by omega)).mp h
    rw [List.take_of_length_le hn.le] at hbefore
    rw [h.add_of_lt hn, spans_iff_of_le (by omega), List.take_of_length_le (by omega)]
    refine ⟨hbefore.add_of_lt hn x, ?_, ?_⟩
    · rw [hmiddle, List.getElem?_eq_none (by omega), List.getElem?_eq_none (by omega)]
    · rw [List.drop_of_length_le (by omega)] at hafter ⊢
      exact hafter
  · -- the next one is the middle
    obtain ⟨hbefore, -, hafter⟩ := (spans_iff_of_le (by omega)).mp h
    rw [h.add_of_eq hn, spans_iff_of_le (by omega), List.take_append_of_le_length hn.ge]
    refine ⟨hbefore, ?_, ?_⟩
    · rw [← hn, List.getElem?_concat_length]
    · rw [List.drop_of_length_le (by omega)] at hafter ⊢
      exact hafter
  rcases Nat.lt_or_ge (2 * w) xs.length with hn' | hn'
  · -- the full window moves on
    obtain ⟨front, oldest, before, m, next, after, rfl, hbefore, hafter⟩ := exists_full hpos hn'
    obtain ⟨h₁, h₂, h₃⟩ := (spans_full_iff hbefore hafter).mp h
    have hnext : front ++ oldest :: before ++ m :: next :: after ++ [x] =
        (front ++ [oldest]) ++ (before ++ [m]) ++ next :: (after ++ [x]) := by simp
    rw [hnext, spans_full_iff (by simpa using hbefore) (by simpa using hafter),
      add_of_full h₁ h₂ h₃ hbefore hafter, h₃.items]
    exact ⟨h₁.add_of_full hbefore m, rfl, h₃.add_of_full hafter x⟩
  · -- those behind the middle
    obtain ⟨hbefore, hmiddle, hafter⟩ := (spans_iff_of_le (by omega)).mp h
    rw [h.add_of_le hn hn', spans_iff_of_le (by omega), List.take_append_of_le_length hn.le,
      List.drop_append_of_le_length hn, List.getElem?_append_left hn]
    refine ⟨hbefore, hmiddle, hafter.add_of_lt ?_ x⟩
    rw [List.length_drop]
    omega

variable (t) in
/-- **The window after any items.** -/
theorem spans_moved (hpos : 0 < w) (xs : List α) : (moved t w xs).Spans w xs := by
  induction xs using List.reverseRecOn with
  | nil => exact spans_new t w
  | append_singleton xs x ih =>
    rw [moved, List.foldl_append]
    exact ih.add hpos x

end Spans

/-! ### The totals -/

variable (t) in
/-- The tally computes `value` on consecutive items of a list, up to `w` of them. -/
structure Tally.RightOn (value : List α → σ) (w : ℕ) (xs : List α) : Prop where
  zero : t.zero = value []
  plus : ∀ part x, part ++ [x] <:+: xs → part.length + 1 ≤ w →
    t.plus (value part) x = value (part ++ [x])
  minus : ∀ x part, x :: part <:+: xs → part.length + 1 ≤ w →
    t.minus (value (x :: part)) (some x) = value part

private theorem Tally.RightOn.of_infix {value : List α → σ} {w : ℕ} {xs part : List α}
    (h : t.RightOn value w xs) (hpart : part <:+: xs) : t.RightOn value w part :=
  ⟨h.zero, fun part' x h' => h.plus part' x (h'.trans hpart),
    fun x part' h' => h.minus x part' (h'.trans hpart)⟩

/-- The total of a queue is that of its items. -/
def Queue.Totals (value : List α → σ) (q : Queue α σ) : Prop := q.total = value q.items

section Totals

variable {value : List α → σ} {w : ℕ} {q : Queue α σ} {part xs : List α} {x : α}

private theorem Queue.Totals.add_of_lt (h : q.Totals value) (ht : t.RightOn value w xs)
    (hq : q.Contains w part) (hlt : part.length < w) (hpart : part ++ [x] <:+: xs) :
    (q.add t x).Totals value := by
  rw [Totals, (hq.add_of_lt hlt x).items, add_total, if_pos (hq.room_iff.mpr hlt), h, hq.items]
  exact ht.plus part x hpart hlt

/-- A full queue loses its oldest item. The new one need not be the next one in the list. -/
theorem Queue.Totals.add_of_full {oldest : α} (h : q.Totals value) (ht : t.RightOn value w xs)
    (hq : q.Contains w (oldest :: part)) (hfull : (oldest :: part).length = w)
    (hold : oldest :: part <:+: xs) (hpart : part ++ [x] <:+: xs) : (q.add t x).Totals value := by
  rw [Totals, (hq.add_of_full hfull x).items, add_total, if_neg (hq.room_iff.not.mpr hfull.not_lt),
    h, hq.items, List.head?_cons, ht.minus oldest part hold hfull.le]
  exact ht.plus part x hpart hfull.le

/-- The totals of both queues. -/
structure Totals (value : List α → σ) (win : Window α σ) : Prop where
  before : win.before.Totals value
  after : win.after.Totals value

/-- **One item more** keeps the totals right. -/
theorem Totals.add {win : Window α σ} (h : win.Totals value) (hspans : win.Spans w xs)
    (hpos : 0 < w) (ht : t.RightOn value w (xs ++ [x])) : (win.add t x).Totals value := by
  rcases Nat.lt_trichotomy xs.length w with hn | hn | hn
  · obtain ⟨hbefore, -, -⟩ := (spans_iff_of_le (by omega)).mp hspans
    rw [List.take_of_length_le hn.le] at hbefore
    rw [hspans.add_of_lt hn]
    exact ⟨h.before.add_of_lt ht hbefore hn List.infix_rfl, h.after⟩
  · rw [hspans.add_of_eq hn]
    exact ⟨h.before, h.after⟩
  rcases Nat.lt_or_ge (2 * w) xs.length with hn' | hn'
  · obtain ⟨front, oldest, before, m, next, after, rfl, hbefore, hafter⟩ := exists_full hpos hn'
    obtain ⟨h₁, h₂, h₃⟩ := (spans_full_iff hbefore hafter).mp hspans
    rw [add_of_full h₁ h₂ h₃ hbefore hafter]
    exact ⟨h.before.add_of_full ht h₁ hbefore ⟨front, m :: next :: after ++ [x], by simp⟩
        ⟨front ++ [oldest], next :: after ++ [x], by simp⟩,
      h.after.add_of_full ht h₃ hafter ⟨front ++ oldest :: before ++ [m], [x], by simp⟩
        ⟨front ++ oldest :: before ++ [m, next], [], by simp⟩⟩
  · obtain ⟨-, -, hafter⟩ := (spans_iff_of_le (by omega)).mp hspans
    have hroom : (xs.drop (w + 1)).length < w := by
      rw [List.length_drop]
      omega
    rw [hspans.add_of_le hn hn']
    refine ⟨h.before, h.after.add_of_lt ht hafter hroom ?_⟩
    rw [← List.drop_append_of_le_length hn]
    exact (List.drop_suffix _ _).isInfix

/-- **The totals after any items.** -/
theorem totals_moved (hpos : 0 < w) (ht : t.RightOn value w xs) : (moved t w xs).Totals value := by
  induction xs using List.reverseRecOn with
  | nil => exact ⟨ht.zero, ht.zero⟩
  | append_singleton xs x ih =>
    have hrest := ih (ht.of_infix (List.infix_append' [] xs [x]))
    rw [moved, List.foldl_append]
    exact hrest.add (spans_moved t hpos xs) hpos ht

end Totals

end Window
