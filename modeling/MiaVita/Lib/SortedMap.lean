import Mathlib.Algebra.BigOperators.Group.List.Basic
import Mathlib.Algebra.Ring.Nat
import Mathlib.Order.Lattice

/-!
# Maps that are sorted by a key

A map is a list of entries in the order of their keys, and no two entries have the same key. Two
names can have the same key: then `put` keeps the name that is there and replaces the value only.

Putting entries with different keys loses nothing (`putAll_perm`), and otherwise a value is lost: if
every value has a weight, the weight of the map is less than that of all values (`weight_putAll_le`,
`nodup_of_weight_putAll`). What is under some of the keys depends on what was put under these keys
only (`filter_putAll`).
-/

namespace SortedMap

variable {ι α κ : Type*} [LinearOrder κ] (key : ι → κ)

/-- An entry is put in. -/
def put (k : ι) (v : α) : List (ι × α) → List (ι × α)
  | [] => [(k, v)]
  | (k', v') :: m =>
    if key k < key k' then (k, v) :: (k', v') :: m
    else if key k = key k' then (k', v) :: m
    else (k', v') :: put k v m

/-- The keys of a map. -/
def keys (m : List (ι × α)) : List κ := m.map fun e => key e.1

/-- The keys are in order. -/
def Ordered (m : List (ι × α)) : Prop := (keys key m).Pairwise (· < ·)

variable {key} {k : ι} {v : α} {m : List (ι × α)}

theorem ordered_nil : Ordered key ([] : List (ι × α)) := List.Pairwise.nil

/-- **A new key** comes in with its entry. -/
theorem put_perm (h : key k ∉ keys key m) : (put key k v m).Perm ((k, v) :: m) := by
  induction m with
  | nil => exact List.Perm.refl _
  | cons e m ih =>
    obtain ⟨k', v'⟩ := e
    rw [keys, List.map_cons, List.mem_cons, not_or] at h
    rw [put, if_neg h.1]
    split_ifs with hlt
    · exact List.Perm.refl _
    · exact ((ih h.2).cons (k', v')).trans (List.Perm.swap _ _ _)

/-- **An old key** stays where it is, and its value is replaced. -/
theorem put_of_mem (hm : Ordered key m) (h : key k ∈ keys key m) :
    ∃ m₁ k' v' m₂, m = m₁ ++ (k', v') :: m₂ ∧ key k' = key k ∧
      put key k v m = m₁ ++ (k', v) :: m₂ := by
  induction m with
  | nil => exact absurd h List.not_mem_nil
  | cons e m ih =>
    obtain ⟨k', v'⟩ := e
    obtain ⟨hlt, hm⟩ := List.pairwise_cons.mp hm
    rcases List.mem_cons.mp h with h | h
    · refine ⟨[], k', v', m, rfl, h.symm, ?_⟩
      rw [put, if_neg (not_lt_of_ge h.ge), if_pos h]
      rfl
    · obtain ⟨m₁, k₁, v₁, m₂, rfl, hk₁, hput⟩ := ih hm h
      refine ⟨(k', v') :: m₁, k₁, v₁, m₂, rfl, hk₁, ?_⟩
      rw [put, if_neg (not_lt_of_gt (hlt _ h)), if_neg (hlt _ h).ne', hput]
      rfl

private theorem mem_keys_put {x : κ} (hm : Ordered key m) :
    x ∈ keys key (put key k v m) ↔ x = key k ∨ x ∈ keys key m := by
  by_cases h : key k ∈ keys key m
  · obtain ⟨m₁, k', v', m₂, rfl, -, hput⟩ := put_of_mem (v := v) hm h
    have hkeys : keys key (m₁ ++ (k', v) :: m₂) = keys key (m₁ ++ (k', v') :: m₂) := by
      simp [keys]
    rw [hput, hkeys]
    constructor
    · exact Or.inr
    · rintro (rfl | hx)
      · exact h
      · exact hx
  · rw [keys, ((put_perm (v := v) h).map fun e => key e.1).mem_iff]
    exact List.mem_cons

private theorem ordered_put (hm : Ordered key m) : Ordered key (put key k v m) := by
  induction m with
  | nil => exact List.pairwise_singleton _ _
  | cons e m ih =>
    obtain ⟨k', v'⟩ := e
    obtain ⟨hlt, hrest⟩ := List.pairwise_cons.mp hm
    rw [put]
    split_ifs with h₁ h₂
    · refine List.pairwise_cons.mpr ⟨fun x hx => ?_, hm⟩
      rcases List.mem_cons.mp hx with rfl | hx
      · exact h₁
      · exact h₁.trans (hlt x hx)
    · exact hm
    · refine List.pairwise_cons.mpr ⟨fun x hx => ?_, ih hrest⟩
      rcases (mem_keys_put hrest).mp hx with rfl | hx
      · exact lt_of_le_of_ne (not_lt.mp h₁) (Ne.symm h₂)
      · exact hlt x hx

private theorem eq_or_mem_of_mem_put {e : ι × α} (hm : Ordered key m) (he : e ∈ put key k v m) :
    (key k = key e.1 ∧ v = e.2) ∨ e ∈ m := by
  by_cases h : key k ∈ keys key m
  · obtain ⟨m₁, k', v', m₂, rfl, hk', hput⟩ := put_of_mem (v := v) hm h
    rw [hput, List.mem_append, List.mem_cons] at he
    rcases he with he | rfl | he
    · exact .inr (List.mem_append_left _ he)
    · exact .inl ⟨hk'.symm, rfl⟩
    · exact .inr (List.mem_append_right _ (List.mem_cons_of_mem _ he))
  · rcases List.mem_cons.mp ((put_perm h).mem_iff.mp he) with rfl | he
    · exact .inl ⟨rfl, rfl⟩
    · exact .inr he

/-- A key before all others comes first. -/
theorem put_of_forall_lt (h : ∀ x ∈ keys key m, key k < x) : put key k v m = (k, v) :: m := by
  cases m with
  | nil => rfl
  | cons e m => exact if_pos (h (key e.1) List.mem_cons_self)

/-- What an entry does to a part of the keys. -/
theorem filter_put (p : κ → Bool) (hm : Ordered key m) :
    (put key k v m).filter (fun e => p (key e.1)) =
      if p (key k) then put key k v (m.filter fun e => p (key e.1))
      else m.filter fun e => p (key e.1) := by
  induction m with
  | nil =>
    rw [put, List.filter_cons]
    rfl
  | cons e m ih =>
    obtain ⟨k', v'⟩ := e
    obtain ⟨hlt, hrest⟩ := List.pairwise_cons.mp hm
    rcases lt_trichotomy (key k) (key k') with h | h | h
    · -- the new entry is in front of the part, too
      have hfront : ∀ x ∈ keys key (((k', v') :: m).filter fun e => p (key e.1)), key k < x := by
        intro x hx
        obtain ⟨e, he, rfl⟩ := List.mem_map.mp hx
        rcases List.mem_cons.mp (List.mem_of_mem_filter he) with rfl | he
        · exact h
        · exact h.trans (hlt _ (List.mem_map_of_mem he))
      rw [put, if_pos h, put_of_forall_lt hfront, List.filter_cons]
    · rw [put, if_neg h.not_lt, if_pos h, List.filter_cons, List.filter_cons, h]
      cases p (key k') with
      | false => rfl
      | true => rw [if_pos rfl, if_pos rfl, if_pos rfl, put, if_neg h.not_lt, if_pos h]
    · rw [put, if_neg h.not_gt, if_neg h.ne', List.filter_cons, List.filter_cons, ih hrest]
      cases p (key k') with
      | false => rfl
      | true =>
        rw [if_pos rfl, if_pos rfl, put, if_neg h.not_gt, if_neg h.ne']
        split_ifs <;> rfl

/-! ### Many entries -/

variable (key) in
/-- Entries are put in one after the other. -/
def putAll (data : ι → α) (m : List (ι × α)) (ks : List ι) : List (ι × α) :=
  ks.foldl (fun m k => put key k (data k) m) m

variable {data : ι → α} {ks : List ι}

private theorem putAll_cons :
    putAll key data m (k :: ks) = putAll key data (put key k (data k) m) ks := rfl

/-- **Different keys**: nothing is lost. -/
theorem putAll_perm_append (hm : Ordered key m) (hks : (ks.map key).Nodup)
    (hdisj : ∀ k ∈ ks, key k ∉ keys key m) :
    (putAll key data m ks).Perm (m ++ ks.map fun k => (k, data k)) := by
  induction ks generalizing m with
  | nil =>
    rw [List.map_nil, List.append_nil]
    exact List.Perm.refl _
  | cons k ks ih =>
    obtain ⟨hk, hdisj⟩ := List.forall_mem_cons.mp hdisj
    obtain ⟨hnotMem, hks⟩ := List.nodup_cons.mp hks
    refine (ih (ordered_put hm) hks fun k' hk' hmem => ?_).trans ?_
    · rcases (mem_keys_put hm).mp hmem with heq | hmem
      · exact hnotMem (heq ▸ List.mem_map_of_mem hk')
      · exact hdisj k' hk' hmem
    · refine ((put_perm hk).append_right _).trans ?_
      exact List.perm_middle.symm

theorem putAll_perm (hks : (ks.map key).Nodup) :
    (putAll key data [] ks).Perm (ks.map fun k => (k, data k)) :=
  putAll_perm_append ordered_nil hks fun _ _ => List.not_mem_nil

/-- Each value is that of an entry with its key. -/
theorem exists_mem_of_mem_putAll {e : ι × α} (hm : Ordered key m)
    (he : e ∈ putAll key data m ks) :
    (∃ k ∈ ks, key k = key e.1 ∧ data k = e.2) ∨ e ∈ m := by
  induction ks generalizing m with
  | nil => exact .inr he
  | cons k ks ih =>
    rcases ih (ordered_put hm) he with ⟨k', hk', h⟩ | he
    · exact .inl ⟨k', List.mem_cons_of_mem k hk', h⟩
    · rcases eq_or_mem_of_mem_put hm he with h | he
      · exact .inl ⟨k, List.mem_cons_self, h⟩
      · exact .inr he

/-- **A part of the keys** is what was put under them. -/
theorem filter_putAll (p : κ → Bool) (hm : Ordered key m) :
    (putAll key data m ks).filter (fun e => p (key e.1)) =
      putAll key data (m.filter fun e => p (key e.1)) (ks.filter fun k => p (key k)) := by
  induction ks generalizing m with
  | nil => rfl
  | cons k ks ih =>
    rw [putAll_cons, ih (ordered_put hm), filter_put p hm]
    cases hp : p (key k) with
    | false => simp [hp]
    | true => simp [hp, putAll_cons]

/-- The weight of the values in a map. -/
def weight (w : α → ℕ) (m : List (ι × α)) : ℕ := (m.map fun e => w e.2).sum

variable {w : α → ℕ}

private theorem weight_put_of_notMem (h : key k ∉ keys key m) :
    weight w (put key k v m) = weight w m + w v := by
  rw [weight, ((put_perm h).map fun e => w e.2).sum_eq, List.map_cons, List.sum_cons, Nat.add_comm]
  rfl

/-- A value that is replaced is missing. -/
theorem weight_put_of_mem (hm : Ordered key m) (h : key k ∈ keys key m) :
    ∃ e ∈ m, weight w (put key k v m) + w e.2 = weight w m + w v := by
  obtain ⟨m₁, k', v', m₂, rfl, -, hput⟩ := put_of_mem (v := v) hm h
  refine ⟨(k', v'), by simp, ?_⟩
  simp only [hput, weight, List.map_append, List.map_cons, List.sum_append, List.sum_cons]
  omega

private theorem weight_put_le (hm : Ordered key m) :
    weight w (put key k v m) ≤ weight w m + w v := by
  by_cases h : key k ∈ keys key m
  · obtain ⟨e, -, he⟩ := weight_put_of_mem (w := w) (v := v) hm h
    omega
  · exact (weight_put_of_notMem h).le

theorem weight_putAll_le (hm : Ordered key m) :
    weight w (putAll key data m ks) ≤ weight w m + (ks.map fun k => w (data k)).sum := by
  induction ks generalizing m with
  | nil => exact Nat.le_refl _
  | cons k ks ih =>
    have hrest := ih (ordered_put (k := k) (v := data k) hm)
    have hput := weight_put_le (k := k) (v := data k) (w := w) hm
    rw [List.map_cons, List.sum_cons]
    exact hrest.trans (by omega)

private theorem nodup_and_notMem_of_weight_putAll (hm : Ordered key m) (hmpos : ∀ e ∈ m, 0 < w e.2)
    (hpos : ∀ k ∈ ks, 0 < w (data k))
    (h : weight w (putAll key data m ks) = weight w m + (ks.map fun k => w (data k)).sum) :
    (ks.map key).Nodup ∧ ∀ k ∈ ks, key k ∉ keys key m := by
  induction ks generalizing m with
  | nil => exact ⟨List.nodup_nil, fun k hk => absurd hk List.not_mem_nil⟩
  | cons k ks ih =>
    obtain ⟨hk, hpos⟩ := List.forall_mem_cons.mp hpos
    have hm' : Ordered key (put key k (data k) m) := ordered_put hm
    have hle : weight w (putAll key data (put key k (data k) m) ks) ≤ _ := weight_putAll_le hm'
    rw [putAll_cons, List.map_cons, List.sum_cons] at h
    by_cases hmem : key k ∈ keys key m
    · -- the value that is replaced is missing in the end
      obtain ⟨e, he, hput⟩ := weight_put_of_mem (w := w) (v := data k) hm hmem
      have := hmpos e he
      omega
    · have hput := weight_put_of_notMem (w := w) (v := data k) hmem
      have hmpos' : ∀ e ∈ put key k (data k) m, 0 < w e.2 := by
        intro e he
        rcases List.mem_cons.mp ((put_perm hmem).mem_iff.mp he) with rfl | he
        · exact hk
        · exact hmpos e he
      obtain ⟨hnodup, hdisj⟩ := ih hm' hmpos' hpos (h.trans (by omega))
      constructor
      · refine List.nodup_cons.mpr ⟨fun hmem' => ?_, hnodup⟩
        obtain ⟨k', hk', heq⟩ := List.mem_map.mp hmem'
        exact hdisj k' hk' ((mem_keys_put hm).mpr (Or.inl heq))
      · refine List.forall_mem_cons.mpr ⟨hmem, fun k' hk' hmem' => ?_⟩
        exact hdisj k' hk' ((mem_keys_put hm).mpr (Or.inr hmem'))

/-- **Nothing is lost only if the keys are different**, where every value has a weight. -/
theorem nodup_of_weight_putAll (hpos : ∀ k ∈ ks, 0 < w (data k))
    (h : weight w (putAll key data [] ks) = (ks.map fun k => w (data k)).sum) :
    (ks.map key).Nodup := by
  refine (nodup_and_notMem_of_weight_putAll ordered_nil
    (fun e he => absurd he List.not_mem_nil) hpos ?_).1
  rw [h]
  exact (Nat.zero_add _).symm

end SortedMap
