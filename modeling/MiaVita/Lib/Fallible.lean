import Mathlib.Data.List.Basic

/-!
# Programs that may fail

A loop whose body looks something up and goes on with what it found is a loop over what is found
(`Fallible.foldlM_of_mapM`), whatever else the body does and however it fails.

A program with more checks fails more often, and otherwise does the same (`Fallible.Refines`); this
is kept by sequencing.
-/

namespace Fallible

universe u v

variable {α β σ : Type u} {φ ψ : Type v}

@[simp] theorem ok_bind (a : α) (f : α → Except φ β) : (Except.ok a >>= f) = f a := rfl

@[simp] theorem error_bind (e : φ) (f : α → Except φ β) :
    ((Except.error e : Except φ α) >>= f) = .error e := rfl

/-- A sequence ends with a result exactly when both of its parts do. -/
theorem bind_eq_ok {x : Except φ α} {f : α → Except φ β} {b : β} :
    (x >>= f) = .ok b ↔ ∃ a, x = .ok a ∧ f a = .ok b := by
  cases x with
  | error e => exact iff_of_false (fun h => nomatch h) fun h => nomatch h.choose_spec.1
  | ok a =>
    constructor
    · exact fun h => ⟨a, rfl, h⟩
    · rintro ⟨a', ha', h⟩
      cases ha'
      exact h

/-- A failure can be found without looking at results. -/
theorem eq_error_of_map {x : Except φ α} {e : φ} (h : x.map (fun _ => ()) = .error e) :
    x = .error e := by
  cases x with
  | error e' =>
    cases h
    rfl
  | ok a => cases h

theorem toOption_eq_some {x : Except φ α} {a : α} : x.toOption = some a ↔ x = .ok a := by
  cases x with
  | error e => simp [Except.toOption]
  | ok a' => simp [Except.toOption]

/-- A result can be found from what is computed of it. -/
theorem exists_ok_of_toOption {x : Except φ α} {g : α → β} {b : β}
    (h : x.toOption.map g = some b) : ∃ a, x = .ok a ∧ g a = b := by
  cases x with
  | error e => cases h
  | ok a => exact ⟨a, rfl, Option.some.inj h⟩

/-- One program gives what another one gives, wherever it does not fail. -/
def Refines (x y : Except φ α) : Prop := ∀ a, x = .ok a → y = .ok a

namespace Refines

theorem refl (x : Except φ α) : Refines x x := fun _ h => h

theorem bind {x y : Except φ α} {f g : α → Except φ β} (h : Refines x y)
    (hfg : ∀ a, Refines (f a) (g a)) : Refines (x >>= f) (y >>= g) := by
  intro b hb
  obtain ⟨a, ha, hb⟩ := bind_eq_ok.mp hb
  exact bind_eq_ok.mpr ⟨a, h a ha, hfg a b hb⟩

theorem ite {c : Prop} [Decidable c] {x x' y y' : Except φ α} (hx : Refines x x')
    (hy : Refines y y') : Refines (if c then x else y) (if c then x' else y') := by
  split_ifs
  · exact hx
  · exact hy

end Refines

/-- Everything is found if each one is. -/
theorem mapM_ok {g : α → Except φ β} {as : List α} (h : ∀ a ∈ as, ∃ b, g a = .ok b) :
    ∃ bs, as.mapM g = .ok bs := by
  induction as with
  | nil => exact ⟨[], List.mapM_nil⟩
  | cons a as ih =>
    obtain ⟨⟨b, hb⟩, has⟩ := List.forall_mem_cons.mp h
    obtain ⟨bs, hbs⟩ := ih has
    refine ⟨b :: bs, ?_⟩
    rw [List.mapM_cons, hb, hbs]
    rfl

/-- **A loop over what is found.** -/
theorem foldlM_of_mapM {g : α → Except φ β} {body : σ → α → Except ψ σ} {step : σ → β → Except ψ σ}
    (hbody : ∀ a b, g a = .ok b → ∀ s, body s a = step s b) {as : List α} {bs : List β}
    (h : as.mapM g = .ok bs) (s : σ) : as.foldlM body s = bs.foldlM step s := by
  induction as generalizing bs s with
  | nil =>
    rw [List.mapM_nil] at h
    cases h
    rfl
  | cons a as ih =>
    rw [List.mapM_cons] at h
    obtain ⟨b, hb, h⟩ := bind_eq_ok.mp h
    obtain ⟨bs', hbs', h⟩ := bind_eq_ok.mp h
    cases h
    rw [List.foldlM_cons, List.foldlM_cons, hbody a b hb]
    congr 1
    funext s'
    exact ih hbs' s'

/-- A loop in a loop. -/
theorem foldlM_flatMap {g : α → List β} {step : σ → β → Except φ σ} (as : List α) (s : σ) :
    (as.flatMap g).foldlM step s = as.foldlM (fun s a => (g a).foldlM step s) s := by
  induction as generalizing s with
  | nil => rfl
  | cons a as ih =>
    rw [List.flatMap_cons, List.foldlM_append, List.foldlM_cons]
    congr 1
    funext s'
    exact ih s'

end Fallible
