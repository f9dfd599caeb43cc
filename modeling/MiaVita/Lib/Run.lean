import MiaVita.Lib.Fallible

/-!
# Runs of a step function

A system is a total step function on a state and an event; a run is the list of its events.
`Run.exec` gives the state a run ends in and `Run.AllSteps` says that every step of a run is
taken in a state, and with an event, that meets a condition. The one induction over runs is
`Run.invariant`: what holds at the start and is kept by every admissible step holds at the
end of every admissible run. `Run.allSteps_of_take` turns the reading "at every moment of the
run" into the stepwise condition.

A step function may also fail; `Run.execM` is then a run that ends, and `Run.simulation` carries a
relation to a total step function along it. `Run.lockstep` compares two systems that both may fail.

`Run.part_exec` and `Run.allSteps_part` forget what a run records beside the state it is about.

`Run.exec_iff` and `Run.execM_iff` are for a property that no step can mend: if a step destroys it
exactly when it does not meet `C`, then a run keeps it exactly when all its steps meet `C`.
`Run.forall_take_iff` is for one that has to hold at every moment and that a later step may mend,
`Run.forall_reachedM_iff` for such a property where a run may also fail, and `Run.allStepsM_congr`
for one that each step has to meet by itself. `Run.execM_ne_error_iff` is for a kind of failure that
no run should end with.
-/

namespace Run

variable {σ ε : Type*} (step : σ → ε → σ)

/-- The state a run ends in. -/
def exec (s : σ) (es : List ε) : σ := es.foldl step s

/-- Every step of the run meets `C` in the state it is taken in. -/
def AllSteps (C : σ → ε → Prop) : σ → List ε → Prop
  | _, [] => True
  | s, e :: es => C s e ∧ AllSteps C (step s e) es

instance decidableAllSteps (C : σ → ε → Prop) [∀ s e, Decidable (C s e)] :
    ∀ (s : σ) (es : List ε), Decidable (AllSteps step C s es)
  | _, [] => inferInstanceAs (Decidable True)
  | s, e :: es =>
    have := decidableAllSteps C (step s e) es
    inferInstanceAs (Decidable (_ ∧ _))

@[simp] theorem exec_nil (s : σ) : exec step s [] = s := rfl

@[simp] theorem exec_cons (s : σ) (e : ε) (es : List ε) :
    exec step s (e :: es) = exec step (step s e) es := rfl

theorem exec_append (s : σ) (es es' : List ε) :
    exec step s (es ++ es') = exec step (exec step s es) es' := List.foldl_append

variable {step}

/-- **Invariant rule**: a property kept by every admissible step holds at the end of every
admissible run. -/
theorem invariant {P : σ → Prop} {C : σ → ε → Prop}
    (hstep : ∀ s e, P s → C s e → P (step s e)) {s : σ} {es : List ε} (hs : P s)
    (hes : AllSteps step C s es) : P (exec step s es) := by
  induction es generalizing s with
  | nil => exact hs
  | cons e es ih => exact ih (hstep s e hs hes.1) hes.2

/-- The invariant rule where every step is admissible. -/
theorem always {P : σ → Prop} (hstep : ∀ s e, P s → P (step s e)) {s : σ} (hs : P s)
    (es : List ε) : P (exec step s es) := by
  induction es generalizing s with
  | nil => exact hs
  | cons e es ih => exact ih (hstep s e hs)

/-- All steps meet two conditions if they meet each of them. -/
theorem AllSteps.and {C D : σ → ε → Prop} {s : σ} {es : List ε} (hC : AllSteps step C s es)
    (hD : AllSteps step D s es) : AllSteps step (fun s e => C s e ∧ D s e) s es := by
  induction es generalizing s with
  | nil => trivial
  | cons e es ih => exact ⟨⟨hC.1, hD.1⟩, ih hC.2 hD.2⟩

theorem AllSteps.imp {C D : σ → ε → Prop} (h : ∀ s e, C s e → D s e) {s : σ} {es : List ε}
    (hC : AllSteps step C s es) : AllSteps step D s es := by
  induction es generalizing s with
  | nil => trivial
  | cons e es ih => exact ⟨h s e hC.1, ih hC.2⟩

/-- A condition may be replaced by one that says the same in all states that a run comes to. -/
theorem allSteps_congr {I : σ → Prop} {C D : σ → ε → Prop} (hI : ∀ s e, I s → I (step s e))
    (h : ∀ s e, I s → (C s e ↔ D s e)) {s : σ} (hs : I s) (es : List ε) :
    AllSteps step C s es ↔ AllSteps step D s es := by
  induction es generalizing s with
  | nil => exact Iff.rfl
  | cons e es ih => exact and_congr (h s e hs) (ih (hI s e hs))

theorem allSteps_and {C D : σ → ε → Prop} {s : σ} {es : List ε} :
    AllSteps step (fun s e => C s e ∧ D s e) s es ↔
      AllSteps step C s es ∧ AllSteps step D s es := by
  constructor
  · exact fun h => ⟨h.imp fun _ _ => And.left, h.imp fun _ _ => And.right⟩
  · exact fun h => h.1.and h.2

/-- The steps of the second part of a run. -/
theorem AllSteps.append_right {C : σ → ε → Prop} {s : σ} {es es' : List ε}
    (h : AllSteps step C s (es ++ es')) : AllSteps step C (exec step s es) es' := by
  induction es generalizing s with
  | nil => exact h
  | cons e es ih => exact ih h.2

/-- A condition on the events alone. -/
theorem allSteps_of_forall {C : ε → Prop} {es : List ε} (h : ∀ e ∈ es, C e) (s : σ) :
    AllSteps step (fun _ e => C e) s es := by
  induction es generalizing s with
  | nil => trivial
  | cons e es ih =>
    obtain ⟨he, hes⟩ := List.forall_mem_cons.mp h
    exact ⟨he, ih hes (step s e)⟩

/-- What holds at every moment of a run holds before and after each of its steps. -/
theorem allSteps_of_take {B : σ → Prop} {s : σ} {es : List ε}
    (h : ∀ n, B (exec step s (es.take n))) :
    AllSteps step (fun s e => B s ∧ B (step s e)) s es := by
  induction es generalizing s with
  | nil => trivial
  | cons e es ih =>
    refine ⟨⟨h 0, ?_⟩, ih fun n => ?_⟩
    · simpa using h 1
    · simpa using h (n + 1)

/-- **Exactness rule**: if an admissible step destroys `G` exactly when it does not meet `C`, then
an admissible run keeps `G` if and only if all its steps meet `C`. The invariant `I` is what the
steps may rely on. -/
theorem exec_iff {I G : σ → Prop} {A C : σ → ε → Prop} (hI : ∀ s e, I s → A s e → I (step s e))
    (hstep : ∀ s e, I s → A s e → (G (step s e) ↔ G s ∧ C s e)) {s : σ} (hs : I s) {es : List ε}
    (hes : AllSteps step A s es) : G (exec step s es) ↔ G s ∧ AllSteps step C s es := by
  induction es generalizing s with
  | nil => exact (and_iff_left trivial).symm
  | cons e es ih =>
    rw [exec_cons, ih (hI s e hs hes.1) hes.2, hstep s e hs hes.1, AllSteps, and_assoc]

/-- **Exactness rule, at every moment**: if a step from a state with `P` leads to one with `P`
exactly when it meets `C`, then `P` holds all along a run if and only if all its steps meet `C`. -/
theorem forall_take_iff {P : σ → Prop} {C : σ → ε → Prop}
    (hstep : ∀ s e, P s → (P (step s e) ↔ C s e)) {s : σ} (hs : P s) (es : List ε) :
    (∀ n, P (exec step s (es.take n))) ↔ AllSteps step C s es := by
  induction es generalizing s with
  | nil => simpa [AllSteps] using hs
  | cons e es ih =>
    constructor
    · intro h
      have hnext : P (step s e) := by simpa using h 1
      exact ⟨(hstep s e hs).mp hnext, (ih hnext).mp fun n => by simpa using h (n + 1)⟩
    · rintro ⟨he, hes⟩ n
      have hnext := (hstep s e hs).mpr he
      cases n with
      | zero => exact hs
      | succ n => exact (ih hnext).mpr hes n

/-! ### A part of the state -/

section Part

variable {τ : Type*} {part : τ → σ} {step' : τ → ε → τ}

/-- A part of the state that each step changes as `step` does runs as by itself. -/
theorem part_exec (h : ∀ t e, part (step' t e) = step (part t) e) (t : τ) (es : List ε) :
    part (exec step' t es) = exec step (part t) es := by
  induction es generalizing t with
  | nil => rfl
  | cons e es ih => rw [exec_cons, ih, h, exec_cons]

theorem allSteps_part (h : ∀ t e, part (step' t e) = step (part t) e) {C : σ → ε → Prop} (t : τ)
    (es : List ε) :
    AllSteps step' (fun t e => C (part t) e) t es ↔ AllSteps step C (part t) es := by
  induction es generalizing t with
  | nil => rfl
  | cons e es ih => rw [AllSteps, AllSteps, ih, h]

end Part

/-! ### Steps that may fail -/

/-- The state a run ends in, if none of its steps fails. -/
def execM {φ : Type*} (stepM : σ → ε → Except φ σ) (s : σ) (es : List ε) : Except φ σ :=
  es.foldlM stepM s

section Fallible

variable {φ : Type*} {stepM : σ → ε → Except φ σ}

@[simp] theorem execM_nil (s : σ) : execM stepM s [] = .ok s := rfl

/-- A run that succeeds is a step that succeeds and a run that succeeds. -/
theorem execM_cons_ok {s s' : σ} {e : ε} {es : List ε} :
    execM stepM s (e :: es) = .ok s' ↔ ∃ s₁, stepM s e = .ok s₁ ∧ execM stepM s₁ es = .ok s' := by
  rw [execM, List.foldlM_cons]
  exact Fallible.bind_eq_ok

/-- Behind a step that succeeds comes the rest of the run. -/
theorem execM_cons_of_ok {s s₁ : σ} {e : ε} (h : stepM s e = .ok s₁) (es : List ε) :
    execM stepM s (e :: es) = execM stepM s₁ es := by
  rw [execM, List.foldlM_cons, h]
  rfl

/-- Behind a step that fails comes nothing. -/
theorem execM_cons_of_error {s : σ} {e : ε} {f : φ} (h : stepM s e = .error f) (es : List ε) :
    execM stepM s (e :: es) = .error f := by
  rw [execM, List.foldlM_cons, h]
  rfl

/-- Behind a run that succeeds comes the rest of the run. -/
theorem execM_append_of_ok {s s₁ : σ} {es : List ε} (h : execM stepM s es = .ok s₁)
    (es' : List ε) : execM stepM s (es ++ es') = execM stepM s₁ es' := by
  induction es generalizing s with
  | nil =>
    cases h
    rfl
  | cons e es ih =>
    obtain ⟨s₂, hs₂, h⟩ := execM_cons_ok.mp h
    rw [List.cons_append, execM_cons_of_ok hs₂, ih h]

theorem execM_append_ok {s s₁ s' : σ} {es es' : List ε} (h : execM stepM s es = .ok s₁)
    (h' : execM stepM s₁ es' = .ok s') : execM stepM s (es ++ es') = .ok s' :=
  (execM_append_of_ok h es').trans h'

variable (stepM) in
/-- Every step that the run comes to meets `C` in the state it is taken in. -/
def AllStepsM (C : σ → ε → Prop) : σ → List ε → Prop
  | _, [] => True
  | s, e :: es => C s e ∧ ∀ s', stepM s e = .ok s' → AllStepsM C s' es

instance decidableAllStepsM (C : σ → ε → Prop) [∀ s e, Decidable (C s e)] :
    ∀ (s : σ) (es : List ε), Decidable (AllStepsM stepM C s es)
  | _, [] => inferInstanceAs (Decidable True)
  | s, e :: es =>
    match hs : stepM s e with
    | .error _ =>
      decidable_of_iff (C s e) ⟨fun h => ⟨h, fun s' hs' => by rw [hs] at hs'; cases hs'⟩, And.left⟩
    | .ok s₁ =>
      have := decidableAllStepsM C s₁ es
      decidable_of_iff (C s e ∧ AllStepsM stepM C s₁ es)
        (and_congr_right' ⟨fun h s' hs' => by rw [hs] at hs'; cases hs'; exact h, fun h => h s₁ hs⟩)

/-- A condition on the events alone, for steps that may fail. -/
theorem allStepsM_of_forall {C : ε → Prop} {es : List ε} (h : ∀ e ∈ es, C e) (s : σ) :
    AllStepsM stepM (fun _ e => C e) s es := by
  induction es generalizing s with
  | nil => trivial
  | cons e es ih =>
    obtain ⟨he, hes⟩ := List.forall_mem_cons.mp h
    exact ⟨he, fun s' _ => ih hes s'⟩

/-- **Invariant rule** for runs that succeed. -/
theorem invariantM {P : σ → Prop} {C : ε → Prop}
    (hstep : ∀ s e s', P s → C e → stepM s e = .ok s' → P s') {s s' : σ} {es : List ε} (hs : P s)
    (hes : ∀ e ∈ es, C e) (h : execM stepM s es = .ok s') : P s' := by
  induction es generalizing s with
  | nil =>
    cases h
    exact hs
  | cons e es ih =>
    obtain ⟨s₁, hs₁, h⟩ := execM_cons_ok.mp h
    exact ih (hstep s e s₁ hs (hes e List.mem_cons_self) hs₁)
      (fun e' he' => hes e' (List.mem_cons_of_mem e he')) h

/-- **Progress rule**: if every admissible step succeeds and keeps a property, so does every
admissible run. -/
theorem progressM {P : σ → Prop} {C : σ → ε → Prop}
    (hstep : ∀ s e, P s → C s e → ∃ s', stepM s e = .ok s' ∧ P s') {s : σ} {es : List ε} (hs : P s)
    (hes : AllStepsM stepM C s es) : ∃ s', execM stepM s es = .ok s' ∧ P s' := by
  induction es generalizing s with
  | nil => exact ⟨s, rfl, hs⟩
  | cons e es ih =>
    obtain ⟨s₁, hs₁, hP⟩ := hstep s e hs hes.1
    obtain ⟨s', hs', hP'⟩ := ih hP (hes.2 s₁ hs₁)
    exact ⟨s', execM_cons_ok.mpr ⟨s₁, hs₁, hs'⟩, hP'⟩

/-- The progress rule where every step is admissible. -/
theorem alwaysM {P : σ → Prop} (hstep : ∀ s e, P s → ∃ s', stepM s e = .ok s' ∧ P s') {s : σ}
    (hs : P s) (es : List ε) : ∃ s', execM stepM s es = .ok s' ∧ P s' := by
  induction es generalizing s with
  | nil => exact ⟨s, rfl, hs⟩
  | cons e es ih =>
    obtain ⟨s₁, hs₁, hP⟩ := hstep s e hs
    rw [execM_cons_of_ok hs₁]
    exact ih hP

/-- **Failure rule**: if every step from a state with `P` keeps `P`, or fails in one of certain
ways, then a run can only fail in these ways. -/
theorem execM_error {P : σ → Prop} {B : φ → Prop}
    (hok : ∀ s e s', P s → stepM s e = .ok s' → P s')
    (herror : ∀ s e f, P s → stepM s e = .error f → B f) {s : σ} {es : List ε} {f : φ} (hs : P s)
    (h : execM stepM s es = .error f) : B f := by
  induction es generalizing s with
  | nil => cases h
  | cons e es ih =>
    rw [execM, List.foldlM_cons] at h
    cases hstep : stepM s e with
    | error f' =>
      rw [hstep] at h
      cases h
      exact herror s e f hs hstep
    | ok s' =>
      rw [hstep] at h
      exact ih (hok s e s' hs hstep) h

/-- **Exactness rule for a kind of failure**: if a step fails in one of certain ways exactly when it
does not meet `C`, then a run never fails in these ways if and only if all its steps meet `C`. The
run may still fail in other ways. -/
theorem execM_ne_error_iff {ι : Type*} {bad : ι → φ} {I : σ → Prop} {C : σ → ε → Prop}
    (hI : ∀ s e s', I s → stepM s e = .ok s' → I s')
    (hstep : ∀ s e, I s → ((∀ i, stepM s e ≠ .error (bad i)) ↔ C s e)) {s : σ} (hs : I s)
    (es : List ε) : (∀ i, execM stepM s es ≠ .error (bad i)) ↔ AllStepsM stepM C s es := by
  induction es generalizing s with
  | nil => exact iff_of_true (by rintro i ⟨⟩) trivial
  | cons e es ih =>
    rw [AllStepsM, ← hstep s e hs]
    cases he : stepM s e with
    | error f =>
      rw [execM_cons_of_error he]
      exact (and_iff_left (by rintro s' ⟨⟩)).symm
    | ok s₁ =>
      rw [execM_cons_of_ok he, ih (hI s e s₁ hs he), and_iff_right (by rintro i ⟨⟩)]
      constructor
      · rintro h s' ⟨⟩
        exact h
      · exact fun h => h s₁ rfl

/-- **Exactness rule** for runs that succeed. -/
theorem execM_iff {I G : σ → Prop} {C : σ → ε → Prop}
    (hI : ∀ s e s', I s → stepM s e = .ok s' → I s')
    (hstep : ∀ s e s', I s → stepM s e = .ok s' → (G s' ↔ G s ∧ C s e)) {s s' : σ} (hs : I s)
    {es : List ε} (h : execM stepM s es = .ok s') : G s' ↔ G s ∧ AllStepsM stepM C s es := by
  induction es generalizing s with
  | nil =>
    cases h
    exact (and_iff_left trivial).symm
  | cons e es ih =>
    obtain ⟨s₁, hs₁, h⟩ := execM_cons_ok.mp h
    have hrest :
        (∀ s', stepM s e = .ok s' → AllStepsM stepM C s' es) ↔ AllStepsM stepM C s₁ es := by
      constructor
      · exact fun h' => h' s₁ hs₁
      · intro h' s₂ hs₂
        rw [hs₁] at hs₂
        cases hs₂
        exact h'
    rw [ih (hI s e s₁ hs hs₁) h, hstep s e s₁ hs hs₁, AllStepsM, hrest, and_assoc]

/-- **Exactness rule, at every moment**, for steps that may fail: if an admissible step succeeds
with `P` exactly when it meets `C`, then an admissible run never fails and has `P` all along if and
only if all its steps meet `C`. The invariant `I` is what the steps may rely on as long as `P`
holds. -/
theorem forall_takeM_iff {I P : σ → Prop} {A C : σ → ε → Prop}
    (hI : ∀ s e s', I s → A s e → stepM s e = .ok s' → P s' → I s')
    (hstep : ∀ s e, I s → A s e → ((∃ s', stepM s e = .ok s' ∧ P s') ↔ C s e)) {s : σ} (hs : I s)
    (hP : P s) {es : List ε} (hes : AllStepsM stepM A s es) :
    (∀ n, ∃ s', execM stepM s (es.take n) = .ok s' ∧ P s') ↔ AllStepsM stepM C s es := by
  induction es generalizing s with
  | nil => exact iff_of_true (fun n => ⟨s, by simp, hP⟩) trivial
  | cons e es ih =>
    constructor
    · intro h
      obtain ⟨s', hs', hP'⟩ := h 1
      obtain ⟨s₁, he, hnil⟩ := execM_cons_ok.mp hs'
      cases hnil
      refine ⟨(hstep s e hs hes.1).mp ⟨s', he, hP'⟩, fun s₂ he₂ => ?_⟩
      cases he.symm.trans he₂
      refine (ih (hI s e s' hs hes.1 he hP') hP' (hes.2 s' he)).mp fun n => ?_
      obtain ⟨s₂, hs₂, hP₂⟩ := h (n + 1)
      obtain ⟨s₁, he₁, hrun⟩ := execM_cons_ok.mp hs₂
      cases he.symm.trans he₁
      exact ⟨s₂, hrun, hP₂⟩
    · rintro ⟨he, hrest⟩ n
      obtain ⟨s₁, hs₁, hP₁⟩ := (hstep s e hs hes.1).mpr he
      cases n with
      | zero => exact ⟨s, rfl, hP⟩
      | succ n =>
        obtain ⟨s', hs', hP'⟩ :=
          (ih (hI s e s₁ hs hes.1 hs₁ hP₁) hP₁ (hes.2 s₁ hs₁)).mpr (hrest s₁ hs₁) n
        exact ⟨s', execM_cons_ok.mpr ⟨s₁, hs₁, hs'⟩, hP'⟩

/-- **Exactness rule, wherever a run comes to**: if from a state with `P` a step that succeeds leads
to one with `P` exactly when it meets `C`, then all states that a run comes to have `P` if and only
if all its steps meet `C`. A step that fails has to meet `C`. -/
theorem forall_reachedM_iff {P : σ → Prop} {C : σ → ε → Prop}
    (hstep : ∀ s e, P s → ((∀ s', stepM s e = .ok s' → P s') ↔ C s e)) {s : σ} (hs : P s)
    (es : List ε) :
    (∀ n s', execM stepM s (es.take n) = .ok s' → P s') ↔ AllStepsM stepM C s es := by
  induction es generalizing s with
  | nil =>
    refine iff_of_true (fun n s' h => ?_) trivial
    rw [List.take_nil] at h
    cases h
    exact hs
  | cons e es ih =>
    constructor
    · intro h
      refine ⟨(hstep s e hs).mp fun s' he => h 1 s' ?_, fun s₁ he => ?_⟩
      · exact execM_cons_ok.mpr ⟨s', he, rfl⟩
      · have hs₁ : P s₁ := h 1 s₁ (execM_cons_ok.mpr ⟨s₁, he, rfl⟩)
        exact (ih hs₁).mp fun n s' hrun => h (n + 1) s' (execM_cons_ok.mpr ⟨s₁, he, hrun⟩)
    · rintro ⟨he, hrest⟩ n s' hrun
      cases n with
      | zero =>
        cases hrun
        exact hs
      | succ n =>
        obtain ⟨s₁, hs₁, hrun⟩ := execM_cons_ok.mp hrun
        exact (ih ((hstep s e hs).mpr he s₁ hs₁)).mpr (hrest s₁ hs₁) n s' hrun

/-- The steps of the first part of a run. -/
theorem AllStepsM.append_left {C : σ → ε → Prop} {s : σ} {es : List ε} (es' : List ε)
    (h : AllStepsM stepM C s (es ++ es')) : AllStepsM stepM C s es := by
  induction es generalizing s with
  | nil => trivial
  | cons e es ih => exact ⟨h.1, fun s' hs' => ih (h.2 s' hs')⟩

theorem AllStepsM.append_right {C : σ → ε → Prop} {s s' : σ} {es es' : List ε}
    (h : AllStepsM stepM C s (es ++ es')) (hrun : execM stepM s es = .ok s') :
    AllStepsM stepM C s' es' := by
  induction es generalizing s with
  | nil =>
    cases hrun
    exact h
  | cons e es ih =>
    obtain ⟨s₁, hs₁, hrun⟩ := execM_cons_ok.mp hrun
    exact ih (h.2 s₁ hs₁) hrun

/-- A step that a run comes to meets what all its steps meet. -/
theorem AllStepsM.reached {C : σ → ε → Prop} {s s' : σ} {es : List ε} (h : AllStepsM stepM C s es)
    {n : ℕ} {e : ε} (he : es[n]? = some e) (hrun : execM stepM s (es.take n) = .ok s') :
    C s' e := by
  induction es generalizing s n with
  | nil => simp at he
  | cons e' es ih =>
    cases n with
    | zero =>
      cases hrun
      cases he
      exact h.1
    | succ n =>
      obtain ⟨s₁, hs₁, hrun⟩ := execM_cons_ok.mp hrun
      exact ih (h.2 s₁ hs₁) he hrun

end Fallible

section Simulation

variable {φ τ : Type*} {stepM : σ → ε → Except φ σ} {step' : τ → ε → τ} {R : σ → τ → Prop}

/-- **Simulation rule**: if every step that is admissible for another system succeeds and keeps a
relation to its step there, so does every admissible run. -/
theorem simulation_allSteps {C : τ → ε → Prop}
    (hstep : ∀ s a e, R s a → C a e → ∃ s', stepM s e = .ok s' ∧ R s' (step' a e)) {s : σ} {a : τ}
    {es : List ε} (hs : R s a) (hes : AllSteps step' C a es) :
    ∃ s', execM stepM s es = .ok s' ∧ R s' (exec step' a es) := by
  induction es generalizing s a with
  | nil => exact ⟨s, rfl, hs⟩
  | cons e es ih =>
    obtain ⟨s₁, hs₁, hR⟩ := hstep s a e hs hes.1
    obtain ⟨s', hs', hR'⟩ := ih hR hes.2
    exact ⟨s', execM_cons_ok.mpr ⟨s₁, hs₁, hs'⟩, hR'⟩

/-- The simulation rule for steps that are admissible by the state they are taken in. -/
theorem simulation_allStepsM {C : σ → ε → Prop}
    (hstep : ∀ s a e, R s a → C s e → ∃ s', stepM s e = .ok s' ∧ R s' (step' a e)) {s : σ} {a : τ}
    {es : List ε} (hs : R s a) (hes : AllStepsM stepM C s es) :
    ∃ s', execM stepM s es = .ok s' ∧ R s' (exec step' a es) := by
  induction es generalizing s a with
  | nil => exact ⟨s, rfl, hs⟩
  | cons e es ih =>
    obtain ⟨s₁, hs₁, hR⟩ := hstep s a e hs hes.1
    obtain ⟨s', hs', hR'⟩ := ih hR (hes.2 s₁ hs₁)
    exact ⟨s', execM_cons_ok.mpr ⟨s₁, hs₁, hs'⟩, hR'⟩

/-- The simulation rule where the admissible steps are those of certain events. -/
theorem simulation {C : ε → Prop}
    (hstep : ∀ s a e, R s a → C e → ∃ s', stepM s e = .ok s' ∧ R s' (step' a e)) {s : σ} {a : τ}
    {es : List ε} (hs : R s a) (hes : ∀ e ∈ es, C e) :
    ∃ s', execM stepM s es = .ok s' ∧ R s' (exec step' a es) :=
  simulation_allSteps (C := fun _ e => C e) hstep hs (allSteps_of_forall hes a)

end Simulation

section Lockstep

variable {φ ψ τ η : Type*} {stepM : σ → ε → Except φ σ} {stepM' : τ → η → Except ψ τ}
  {R : σ → τ → Prop} {E : φ → ψ → Prop}

/-- The two succeed with related states, or fail for related reasons. -/
def Agree (R : σ → τ → Prop) (E : φ → ψ → Prop) : Except φ σ → Except ψ τ → Prop
  | .ok s, .ok a => R s a
  | .error x, .error y => E x y
  | _, _ => False

theorem Agree.of_ok {x : Except φ σ} {a : τ} (h : Agree R E x (.ok a)) :
    ∃ s, x = .ok s ∧ R s a := by
  cases x with
  | ok s => exact ⟨s, rfl, h⟩
  | error e => exact h.elim

theorem Agree.of_error {x : Except φ σ} {y : ψ} (h : Agree R E x (.error y)) :
    ∃ e, x = .error e ∧ E e y := by
  cases x with
  | ok s => exact h.elim
  | error e => exact ⟨e, rfl, h⟩

theorem Agree.of_error_left {x : φ} {y : Except ψ τ} (h : Agree R E (.error x) y) :
    ∃ e, y = .error e ∧ E x e := by
  cases y with
  | ok a => exact h.elim
  | error e => exact ⟨e, rfl, h⟩

/-- What holds of the second state besides. -/
theorem Agree.and {P : τ → Prop} {x : Except φ σ} {y : Except ψ τ} (h : Agree R E x y)
    (hP : ∀ a, y = .ok a → P a) : Agree (fun s a => R s a ∧ P a) E x y := by
  cases y with
  | ok a =>
    obtain ⟨s, rfl, hs⟩ := h.of_ok
    exact ⟨hs, hP a rfl⟩
  | error e =>
    obtain ⟨x, rfl, hx⟩ := h.of_error
    exact hx

/-- **Lockstep rule**: if the admissible steps of two systems agree, so do their admissible runs. -/
theorem lockstep (g : ε → η) {C : ε → Prop}
    (hstep : ∀ s a e, R s a → C e → Agree R E (stepM s e) (stepM' a (g e))) {s : σ} {a : τ}
    {es : List ε} (hs : R s a) (hes : ∀ e ∈ es, C e) :
    Agree R E (execM stepM s es) (execM stepM' a (es.map g)) := by
  induction es generalizing s a with
  | nil => exact hs
  | cons e es ih =>
    obtain ⟨he, hes⟩ := List.forall_mem_cons.mp hes
    have hagree := hstep s a e hs he
    rw [List.map_cons]
    cases h : stepM s e with
    | ok s' =>
      cases h' : stepM' a (g e) with
      | ok a' =>
        rw [h, h'] at hagree
        rw [execM_cons_of_ok h, execM_cons_of_ok h']
        exact ih hagree hes
      | error y =>
        rw [h, h'] at hagree
        exact hagree.elim
    | error x =>
      cases h' : stepM' a (g e) with
      | ok a' =>
        rw [h, h'] at hagree
        exact hagree.elim
      | error y =>
        rw [h, h'] at hagree
        rw [execM_cons_of_error h, execM_cons_of_error h']
        exact hagree

end Lockstep

end Run
