import Mathlib.Data.List.Basic

/-!
# Programs that keep their state when they fail

A program of type `EStateM ε σ α` that raises an exception leaves the state as it is at that moment,
and whoever catches the exception goes on with that state. So it is of interest where such a program
leaves the state, whether it ends or fails (`after`).

A program moves along a relation if it leads every state to a related one (`Along`). For a relation
that is reflexive and transitive this is kept by sequencing and by loops, wherever they fail.
-/

namespace Exceptional

universe u

variable {ε σ α β : Type u}

/-- The state that a program leaves. -/
def after (x : EStateM ε σ α) (s : σ) : σ :=
  match x.run s with
  | .ok _ s' => s'
  | .error _ s' => s'

/-- A computation that may fail, as a part of a program. -/
def attempt : Except ε α → EStateM ε σ α
  | .ok a => pure a
  | .error e => throw e

/-! ### Where a program leads -/

theorem after_ok_bind (a : α) (f : α → EStateM ε σ β) (s : σ) :
    after (attempt (.ok a) >>= f) s = after (f a) s := rfl

theorem after_error_bind (e : ε) (f : α → EStateM ε σ β) (s : σ) :
    after (attempt (.error e) >>= f) s = s := rfl

theorem after_get_bind (f : σ → EStateM ε σ β) (s : σ) : after (get >>= f) s = after (f s) s := rfl

theorem after_modify_bind (g : σ → σ) (f : PUnit → EStateM ε σ β) (s : σ) :
    after (modify g >>= f) s = after (f ⟨⟩) (g s) := rfl

private theorem after_bind_of_ok {x : EStateM ε σ α} {a : α} {s s' : σ} (h : x.run s = .ok a s')
    (f : α → EStateM ε σ β) : after (x >>= f) s = after (f a) s' := by
  have hbind : (x >>= f).run s = (f a).run s' := by
    change EStateM.bind x f s = _
    rw [EStateM.bind, show x s = .ok a s' from h]
    rfl
  rw [after, hbind]
  rfl

private theorem after_bind_of_error {x : EStateM ε σ α} {e : ε} {s s' : σ}
    (h : x.run s = .error e s') (f : α → EStateM ε σ β) : after (x >>= f) s = s' := by
  have hbind : (x >>= f).run s = .error e s' := by
    change EStateM.bind x f s = _
    rw [EStateM.bind, show x s = .error e s' from h]
  rw [after, hbind]

/-- A loop of changes to the state does not fail. -/
theorem run_forM_modify (g : α → σ → σ) (l : List α) (s : σ) :
    (l.forM fun a => modify (g a) : EStateM ε σ PUnit).run s =
      .ok ⟨⟩ (l.foldl (fun s a => g a s) s) := by
  induction l generalizing s with
  | nil => rfl
  | cons a l ih => exact ih (g a s)

theorem after_forM_modify_bind (g : α → σ → σ) (l : List α) (f : PUnit → EStateM ε σ β) (s : σ) :
    after ((l.forM fun a => modify (g a)) >>= f) s =
      after (f ⟨⟩) (l.foldl (fun s a => g a s) s) :=
  after_bind_of_ok (run_forM_modify g l s) f

/-! ### Moving along a relation -/

/-- The program leads every state to a related one. -/
def Along (R : σ → σ → Prop) (x : EStateM ε σ α) : Prop := ∀ s, R s (after x s)

section Rules

variable {R : σ → σ → Prop} (hrefl : ∀ s, R s s) (htrans : ∀ s t u, R s t → R t u → R s u)

include htrans in
/-- **Sequence rule.** -/
theorem Along.bind {x : EStateM ε σ α} {f : α → EStateM ε σ β} (hx : Along R x)
    (hf : ∀ a, Along R (f a)) : Along R (x >>= f) := by
  intro s
  have hs := hx s
  cases h : x.run s with
  | ok a s' =>
    rw [after, h] at hs
    rw [after_bind_of_ok h]
    exact htrans s s' _ hs (hf a s')
  | error e s' =>
    rw [after, h] at hs
    rw [after_bind_of_error h]
    exact hs

include hrefl htrans in
/-- **Loop rule.** -/
theorem Along.forM {f : α → EStateM ε σ PUnit} {l : List α} (hf : ∀ a ∈ l, Along R (f a)) :
    Along R (l.forM f) := by
  induction l with
  | nil => exact hrefl
  | cons a l ih =>
    obtain ⟨ha, hl⟩ := List.forall_mem_cons.mp hf
    exact Along.bind htrans ha fun _ => ih hl

end Rules

end Exceptional
