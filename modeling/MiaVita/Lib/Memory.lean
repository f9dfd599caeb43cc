import MiaVita.Lib.Bytes
import MiaVita.Lib.Fallible

/-!
# Bounded memory

A C object is the list of its bytes, and an address in it an offset. `load` and `store` are the
accesses a program makes: they succeed inside the object and stop the program with a `Fault`
outside of it, so that a program that runs to an `ok` has made every access in bounds.

`Safe` says that a program does not stop with a fault. Over `load` and `store` it is a condition
on offsets (`safe_load_bind`, `safe_store_bind`), which is how the exact preconditions of a
sequence of accesses are found. `IndexSafe` rules out one kind of fault only, and follows the
program from access to access (`IndexSafe.bind`).
-/

namespace Memory

open Bytes Fallible

/-- What stops a program. -/
inductive Fault where
  /-- A read of `n` bytes at `i` that leaves the object. -/
  | read (i n : ℕ)
  /-- A write of `n` bytes at `i` that leaves the object. -/
  | write (i n : ℕ)
  /-- An array index outside of the array. -/
  | index (i : ℕ)
  /-- An access through a null pointer. -/
  | null
  /-- An access through a pointer that was never assigned. -/
  | uninitialised
  /-- A block freed for the second time. -/
  | doubleFree
  /-- The program stopped the machine itself. -/
  | panic
  deriving DecidableEq, Repr

variable {α β : Type}

/-- The `n` bytes at offset `i`, decoded. -/
def load (decode : List UInt8 → α) (m : List UInt8) (i n : ℕ) : Except Fault α :=
  if i + n ≤ m.length then .ok (decode (slice m i n)) else .error (.read i n)

/-- The object with `xs` written at offset `i`. -/
def store (m : List UInt8) (i : ℕ) (xs : List UInt8) : Except Fault (List UInt8) :=
  if i + xs.length ≤ m.length then .ok (patch m i xs) else .error (.write i xs.length)

theorem load_eq {decode : List UInt8 → α} {m : List UInt8} {i n : ℕ} (h : i + n ≤ m.length) :
    load decode m i n = .ok (decode (slice m i n)) := if_pos h

theorem load_eq_ok {decode : List UInt8 → α} {m : List UInt8} {i n : ℕ} {a : α} :
    load decode m i n = .ok a ↔ i + n ≤ m.length ∧ decode (slice m i n) = a := by
  rw [load]
  split_ifs with h
  · rw [Except.ok.injEq, and_iff_right h]
  · exact iff_of_false (fun h' => nomatch h') fun h' => h h'.1

theorem store_eq {m xs : List UInt8} {i : ℕ} (h : i + xs.length ≤ m.length) :
    store m i xs = .ok (patch m i xs) := if_pos h

/-- A read inside the middle piece of an object. -/
theorem load_mid {decode : List UInt8 → α} {a b c : List UInt8} {i n : ℕ}
    (h : i + n ≤ b.length) :
    load decode (a ++ (b ++ c)) (a.length + i) n = .ok (decode (slice b i n)) := by
  rw [load_eq (by simp only [List.length_append]; omega), slice_append_right,
    slice_append_left h]

/-- A write that stays inside the first piece of an object. -/
theorem store_left {a xs : List UInt8} (b : List UInt8) {i : ℕ} (h : i + xs.length ≤ a.length) :
    store (a ++ b) i xs = .ok (patch a i xs ++ b) := by
  rw [store_eq (by rw [List.length_append]; omega), patch_append_left h]

/-- The first piece copied into a fresh block. -/
theorem store_fresh_left (a : List UInt8) (n : ℕ) :
    store (List.replicate (a.length + n) 0) 0 a = .ok (a ++ List.replicate n 0) := by
  rw [List.replicate_add, store_left _ (by rw [List.length_replicate, Nat.zero_add]),
    patch_zero_of_length_eq List.length_replicate.symm]

/-- The second piece copied behind it, with room to spare. -/
theorem store_fresh_mid (a b : List UInt8) (n : ℕ) :
    store (a ++ List.replicate (b.length + n) 0) a.length b =
      .ok (a ++ (b ++ List.replicate n 0)) := by
  have hfresh : patch (List.replicate (b.length + n) 0) 0 b = b ++ List.replicate n 0 := by
    have hleft := store_fresh_left b n
    rwa [store_eq (by simp), Except.ok.injEq] at hleft
  have hp := patch_append_right a (List.replicate (b.length + n) 0) b 0
  rw [Nat.add_zero, hfresh] at hp
  rw [store_eq (by simp), hp]

/-- The second piece copied behind it. -/
theorem store_fresh_right (a b : List UInt8) :
    store (a ++ List.replicate b.length 0) a.length b = .ok (a ++ b) := by
  simpa using store_fresh_mid a b 0

/-- One byte written behind the first piece of an object. -/
theorem store_singleton (a b : List UInt8) (x y : UInt8) :
    store (a ++ y :: b) a.length [x] = .ok (a ++ x :: b) := by
  have hp := patch_append_right a (y :: b) [x] 0
  rw [Nat.add_zero] at hp
  rw [store_eq (by simp), hp]
  rfl

theorem store_singleton_end (a : List UInt8) (x : UInt8) :
    store a a.length [x] = .error (.write a.length 1) :=
  if_neg (by simp)

/-- A read behind the first piece of an object. -/
theorem load_right {decode : List UInt8 → α} {b : List UInt8} {i n : ℕ} (h : i + n ≤ b.length)
    (a : List UInt8) : load decode (a ++ b) (a.length + i) n = .ok (decode (slice b i n)) := by
  rw [load_eq (by rw [List.length_append]; omega), slice_append_right]

/-! ### What a program leaves alone -/

/-- Only the cells in `W` may differ. -/
structure Frame (W : ℕ → Prop) (m m' : List UInt8) : Prop where
  length_eq : m'.length = m.length
  getElem?_eq : ∀ k, ¬ W k → m'[k]? = m[k]?

namespace Frame

variable {W W' : ℕ → Prop} {m m' m'' : List UInt8}

theorem refl (W : ℕ → Prop) (m : List UInt8) : Frame W m m := ⟨rfl, fun _ _ => rfl⟩

theorem trans (h : Frame W m m') (h' : Frame W m' m'') : Frame W m m'' :=
  ⟨h'.length_eq.trans h.length_eq, fun k hk => (h'.getElem?_eq k hk).trans (h.getElem?_eq k hk)⟩

theorem mono (h : Frame W m m') (hW : ∀ k, W k → W' k) : Frame W' m m' :=
  ⟨h.length_eq, fun k hk => h.getElem?_eq k fun hk' => hk (hW k hk')⟩

/-- A region without a cell in `W` is the same as before. -/
theorem slice_eq (h : Frame W m m') {j n : ℕ} (hj : ∀ k, j ≤ k → k < j + n → ¬ W k) :
    slice m' j n = slice m j n := by
  refine List.ext_getElem? fun k => ?_
  rw [getElem?_slice, getElem?_slice]
  split_ifs with hk
  · exact h.getElem?_eq (j + k) (hj _ (by omega) (by omega))
  · rfl

theorem drop (h : Frame W m m') (n : ℕ) : Frame (fun k => W (n + k)) (m.drop n) (m'.drop n) := by
  refine ⟨by rw [List.length_drop, List.length_drop, h.length_eq], fun k hk => ?_⟩
  rw [List.getElem?_drop, List.getElem?_drop, h.getElem?_eq (n + k) hk]

theorem prepend {b b' : List UInt8} (h : Frame W b b') (a : List UInt8) :
    Frame (fun k => a.length ≤ k ∧ W (k - a.length)) (a ++ b) (a ++ b') := by
  refine ⟨by rw [List.length_append, List.length_append, h.length_eq], fun k hk => ?_⟩
  by_cases hka : k < a.length
  · rw [List.getElem?_append_left hka, List.getElem?_append_left hka]
  · rw [List.getElem?_append_right (by omega), List.getElem?_append_right (by omega),
      h.getElem?_eq _ fun hW => hk ⟨by omega, hW⟩]

/-- If nothing is written to the first piece of an object, it is there afterwards. -/
theorem append_left {a b : List UInt8} (h : Frame W (a ++ b) m') (ha : ∀ k < a.length, ¬ W k) :
    ∃ b', m' = a ++ b' ∧ Frame (fun k => W (a.length + k)) b b' := by
  have hlen := h.length_eq
  rw [List.length_append] at hlen
  have hfirst : m'.take a.length = a := by
    have hslice := h.slice_eq (j := 0) (n := a.length) fun k _ hk => ha k (by omega)
    rw [slice_append_left (by omega), slice_zero_length] at hslice
    exact hslice
  refine ⟨m'.drop a.length, ?_, ?_⟩
  · nth_rewrite 1 [← hfirst]
    rw [List.take_append_drop]
  · have hdrop := h.drop a.length
    rwa [List.drop_left] at hdrop

end Frame

/-- **What a write does**: it is in bounds, it leaves its bytes, and it changes no others. -/
theorem store_spec {m m' xs : List UInt8} {i : ℕ} (h : store m i xs = .ok m') :
    i + xs.length ≤ m.length ∧ slice m' i xs.length = xs ∧
      Frame (fun k => i ≤ k ∧ k < i + xs.length) m m' := by
  rw [store] at h
  split_ifs at h with hi
  cases h
  refine ⟨hi, slice_patch_self hi, length_patch hi, fun k hk => ?_⟩
  rw [getElem?_patch hi]
  split_ifs with h₁ h₂
  · rfl
  · exact absurd ⟨by omega, h₂⟩ hk
  · rfl

/-! ### Runs without a fault -/

/-- The program ends with a result. -/
def Safe (x : Except Fault α) : Prop := ∃ a, x = .ok a

@[simp] theorem safe_ok (a : α) : Safe (.ok a : Except Fault α) := ⟨a, rfl⟩

@[simp] theorem not_safe_error (e : Fault) : ¬ Safe (.error e : Except Fault α) := by
  rintro ⟨a, h⟩
  cases h

/-- A second part whose condition does not depend on what the first one gives. -/
theorem safe_bind_iff_and {x : Except Fault α} {f : α → Except Fault β} {P : Prop}
    (h : ∀ a, x = .ok a → (Safe (f a) ↔ P)) : Safe (x >>= f) ↔ Safe x ∧ P := by
  constructor
  · rintro ⟨b, hb⟩
    obtain ⟨a, ha, hf⟩ := bind_eq_ok.mp hb
    exact ⟨⟨a, ha⟩, (h a ha).mp ⟨b, hf⟩⟩
  · rintro ⟨⟨a, rfl⟩, hP⟩
    exact (h a rfl).mpr hP

/-- A second part that ends whenever the first one does adds no condition. -/
theorem safe_bind_iff_left {x : Except Fault α} {f : α → Except Fault β}
    (h : ∀ a, x = .ok a → Safe (f a)) : Safe (x >>= f) ↔ Safe x := by
  rw [safe_bind_iff_and fun a ha => iff_of_true (h a ha) trivial, and_true]

theorem safe_bind_ok {x : Except Fault α} {f : α → β} :
    Safe (x >>= fun a => .ok (f a)) ↔ Safe x :=
  safe_bind_iff_left fun a _ => safe_ok (f a)

theorem safe_load_bind {decode : List UInt8 → α} {m : List UInt8} {i n : ℕ}
    {f : α → Except Fault β} :
    Safe (load decode m i n >>= f) ↔
      i + n ≤ m.length ∧ Safe (f (decode (slice m i n))) := by
  by_cases h : i + n ≤ m.length
  · rw [load_eq h, ok_bind, and_iff_right h]
  · rw [load, if_neg h, error_bind]
    exact iff_of_false (not_safe_error _) fun h' => h h'.1

theorem safe_store_bind {m xs : List UInt8} {i : ℕ} {f : List UInt8 → Except Fault β} :
    Safe (store m i xs >>= f) ↔ i + xs.length ≤ m.length ∧ Safe (f (patch m i xs)) := by
  by_cases h : i + xs.length ≤ m.length
  · rw [store_eq h, ok_bind, and_iff_right h]
  · rw [store, if_neg h, error_bind]
    exact iff_of_false (not_safe_error _) fun h' => h h'.1

/-! ### Array indices -/

/-- A program does not stop at an array index out of range; it may stop otherwise. -/
def IndexSafe (x : Except Fault α) : Prop := ∀ i, x ≠ .error (.index i)

theorem indexSafe_ok (a : α) : IndexSafe (.ok a : Except Fault α) := fun _ h => nomatch h

theorem indexSafe_load (decode : List UInt8 → α) (m : List UInt8) (i n : ℕ) :
    IndexSafe (load decode m i n) := by
  intro k h
  rw [load] at h
  split_ifs at h
  cases h

theorem indexSafe_store (m : List UInt8) (i : ℕ) (xs : List UInt8) : IndexSafe (store m i xs) := by
  intro k h
  rw [store] at h
  split_ifs at h
  cases h

/-- A sequence is safe if both parts are. -/
theorem IndexSafe.bind {x : Except Fault α} {f : α → Except Fault β} (hx : IndexSafe x)
    (hf : ∀ a, x = .ok a → IndexSafe (f a)) : IndexSafe (x >>= f) := by
  intro i h
  cases x with
  | error e =>
    cases h
    exact hx i rfl
  | ok a => exact hf a rfl i h

end Memory
