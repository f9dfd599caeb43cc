import Mathlib.Data.List.Nodup
import Mathlib.Data.List.Perm.Basic
import Mathlib.Order.Lattice

/-!
# Lists in order of priority

`Ordered key arrived order` says that `order` holds what has arrived, by decreasing key, and in the
order of arrival where the keys are equal. A newcomer goes in front of the first element with a
lower key (`Ordered.insert`); whatever leaves, leaves both lists (`Ordered.erase`).
-/

namespace PriorityOrder

variable {α κ : Type*} [LinearOrder κ]

/-- What has arrived, by decreasing key and then by arrival. -/
structure Ordered (key : α → κ) (arrived order : List α) : Prop where
  perm : order.Perm arrived
  sorted : order.Pairwise fun x y => key y ≤ key x
  ties : ∀ k, (order.filter fun x => key x = k) = arrived.filter fun x => key x = k

namespace Ordered

variable {key : α → κ} {arrived order hi lo : List α} {y : α}

theorem nil (key : α → κ) : Ordered key [] [] := ⟨.refl [], .nil, fun _ => rfl⟩

/-- Only the keys of what has arrived matter. -/
theorem congr {key' : α → κ} (h : Ordered key arrived order)
    (hkey : ∀ x ∈ arrived, key' x = key x) : Ordered key' arrived order := by
  have hkey' : ∀ x ∈ order, key' x = key x := fun x hx => hkey x (h.perm.mem_iff.mp hx)
  refine ⟨h.perm, ?_, fun k => ?_⟩
  · refine h.sorted.imp_of_mem fun {x y} hx hy hle => ?_
    rwa [hkey' x hx, hkey' y hy]
  · have hfilter : ∀ l : List α, (∀ x ∈ l, key' x = key x) →
        (l.filter fun x => key' x = k) = l.filter fun x => key x = k := by
      intro l hl
      refine List.filter_congr fun x hx => ?_
      rw [hl x hx]
    rw [hfilter order hkey', hfilter arrived hkey, h.ties k]

/-- With one key, the order is that of arrival. -/
theorem eq_arrived (h : Ordered key arrived order) {k : κ} (hk : ∀ x ∈ arrived, key x = k) :
    order = arrived := by
  have hall : ∀ l : List α, (∀ x ∈ l, key x = k) → (l.filter fun x => key x = k) = l :=
    fun l hl => List.filter_eq_self.mpr fun x hx => decide_eq_true (hl x hx)
  calc order = order.filter fun x => key x = k :=
        (hall order fun x hx => hk x (h.perm.mem_iff.mp hx)).symm
    _ = arrived.filter fun x => key x = k := h.ties k
    _ = arrived := hall arrived hk

/-- **A newcomer** goes behind all that have a key at least as high, and in front of a lower one. -/
theorem insert (h : Ordered key arrived (hi ++ lo)) (hhi : ∀ x ∈ hi, key y ≤ key x)
    (hlo : ∀ x ∈ lo.head?, key x < key y) : Ordered key (arrived ++ [y]) (hi ++ y :: lo) := by
  obtain ⟨hsorted₁, hsorted₂, hcross⟩ := List.pairwise_append.mp h.sorted
  have hlower : ∀ x ∈ lo, key x < key y := by
    intro x hx
    cases lo with
    | nil => cases hx
    | cons z lo =>
      have hz : key z < key y := hlo z rfl
      rcases List.mem_cons.mp hx with rfl | hx
      · exact hz
      · exact lt_of_le_of_lt ((List.pairwise_cons.mp hsorted₂).1 x hx) hz
  refine ⟨?_, ?_, fun k => ?_⟩
  · exact (List.perm_middle.trans (h.perm.cons y)).trans (List.perm_append_singleton y arrived).symm
  · refine List.pairwise_append.mpr ⟨hsorted₁, ?_, fun x hx z hz => ?_⟩
    · exact List.pairwise_cons.mpr ⟨fun x hx => le_of_lt (hlower x hx), hsorted₂⟩
    · rcases List.mem_cons.mp hz with rfl | hz
      · exact hhi x hx
      · exact hcross x hx z hz
  · have hties := h.ties k
    rw [List.filter_append] at hties
    rw [List.filter_append, List.filter_append, ← hties]
    by_cases hk : key y = k
    · -- nothing behind the newcomer has its key
      have hnone : lo.filter (fun x => key x = k) = [] := by
        rw [List.filter_eq_nil_iff]
        intro x hx
        simpa [← hk] using ne_of_lt (hlower x hx)
      simp [hk, hnone]
    · simp [hk]

/-- **One less.** -/
theorem erase [DecidableEq α] (h : Ordered key arrived order) (hnodup : arrived.Nodup) (x : α) :
    Ordered key (arrived.erase x) (order.erase x) := by
  have hnodup' : order.Nodup := h.perm.nodup_iff.mpr hnodup
  refine ⟨h.perm.erase x, h.sorted.sublist List.erase_sublist, fun k => ?_⟩
  rw [hnodup.erase_eq_filter, hnodup'.erase_eq_filter, List.filter_comm, h.ties k, List.filter_comm]

end Ordered

end PriorityOrder
