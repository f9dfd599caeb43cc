import MiaVita.Lib.Memory

/-!
# Allocated blocks

What a program has allocated and not freed, seen only by the addresses of the blocks. An address is
never given out twice, so that a block freed for the second time is one that is not allocated.

`Owns p bs` says that the blocks `bs`, each of them once, are what is allocated. Allocating adds a
block to them (`Owns.alloc`) and freeing one of them succeeds and takes it away (`Owns.free`); a
program that starts and ends with `Owns p []` has leaked nothing.
-/

namespace Blocks

open Memory

/-- The allocated blocks, and the address of the next one. -/
structure Pool where
  next : ℕ
  live : List ℕ

/-- Nothing is allocated. -/
def Pool.empty : Pool := ⟨0, []⟩

/-- A block is allocated at `p.next`. -/
def Pool.alloc (p : Pool) : Pool := ⟨p.next + 1, p.next :: p.live⟩

/-- A block is freed. -/
def Pool.free (p : Pool) (a : ℕ) : Except Fault Pool :=
  if a ∈ p.live then .ok { p with live := p.live.erase a } else .error .doubleFree

/-- The blocks `bs` are the ones that are allocated. -/
structure Owns (p : Pool) (bs : List ℕ) : Prop where
  perm : p.live.Perm bs
  nodup : bs.Nodup
  below : ∀ a ∈ bs, a < p.next

variable {p : Pool} {bs : List ℕ} {a : ℕ}

theorem owns_empty : Owns .empty [] := ⟨.refl _, List.nodup_nil, fun _ h => nomatch h⟩

/-- **Allocating** adds a block that is none of the others. -/
theorem Owns.alloc (h : Owns p bs) : Owns p.alloc (p.next :: bs) where
  perm := h.perm.cons p.next
  nodup := List.nodup_cons.mpr ⟨fun hmem => Nat.lt_irrefl _ (h.below _ hmem), h.nodup⟩
  below := List.forall_mem_cons.mpr
    ⟨Nat.lt_succ_self _, fun a ha => Nat.lt_succ_of_lt (h.below a ha)⟩

/-- **Freeing** a block that is allocated. -/
theorem Owns.free (h : Owns p bs) (ha : a ∈ bs) :
    ∃ p', p.free a = .ok p' ∧ Owns p' (bs.erase a) := by
  refine ⟨_, if_pos (h.perm.mem_iff.mpr ha), h.perm.erase a, h.nodup.erase a, fun b hb => ?_⟩
  exact h.below b (List.mem_of_mem_erase hb)

/-- Freeing the block that is named first. -/
theorem Owns.free_head (h : Owns p (a :: bs)) : ∃ p', p.free a = .ok p' ∧ Owns p' bs := by
  have hfree := h.free List.mem_cons_self
  rwa [List.erase_cons_head] at hfree

end Blocks
