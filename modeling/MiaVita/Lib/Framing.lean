import MiaVita.Lib.Run
import Mathlib.Algebra.Ring.Nat
import Mathlib.Data.List.Infix

/-!
# Frames in a stream

A stream arrives in pieces of any size and is kept until a frame has come as a whole. A `Framer`
says how its end is found: `scan` gives the length of the frame at the start of what is there, and
does not change its mind when more arrives. The reader looks for a frame only when there are enough
elements, and it gives up when the first one is not the mark that a frame starts with.

`Framer.Framed` is the invariant of a reader whose stream consists of frames: those it has taken are
the first ones, and what it keeps and what is to come are the others.

A reader may also be set onto a stream at any place. `Lost` says that it comes to a place where a
frame should start and none does; `badStart_iff` is that it gives up, in some order of events, if
and only if this is so.
-/

/-- How frames are found: the element they start with, the least number of elements for which it is
worth looking, and the length of the frame at the start of a list. -/
structure Framer (α : Type*) where
  mark : α
  minimum : ℕ
  minimum_pos : 0 < minimum
  scan : List α → Option ℕ
  scan_pos : ∀ {xs n}, scan xs = some n → 0 < n
  scan_append : ∀ {xs n}, scan xs = some n → ∀ ys, n ≤ xs.length ∧ scan (xs ++ ys) = some n
  scan_of_append : ∀ {xs ys n}, scan (xs ++ ys) = some n → n ≤ xs.length → scan xs = some n

namespace Framer

variable {α : Type*}

/-! ### The reader -/

/-- What has arrived and is not used yet, what is to come, and the frames taken so far. -/
structure Reader (α : Type*) where
  pending : List α
  toCome : List α
  frames : List (List α)

/-- The next `n` elements arrive, or the reader looks for a frame. -/
inductive Event where
  | receive (n : ℕ)
  | look

/-- Why a reader stops: there is no room for what arrives, or what there is does not start with the
mark. -/
inductive Ended where
  | overflow
  | badStart
  deriving DecidableEq

variable [DecidableEq α] (f : Framer α) (capacity : ℕ)

/-- The length of the frame that the reader takes next, if it has come. -/
def look (pending : List α) : Except Ended (Option ℕ) :=
  if pending.length < f.minimum then .ok none
  else if pending.head? ≠ some f.mark then .error .badStart
  else .ok (f.scan pending)

/-- One event. -/
def step (r : Reader α) : Event → Except Ended (Reader α)
  | .receive n =>
    if r.pending.length + (r.toCome.take n).length ≤ capacity then
      .ok { r with pending := r.pending ++ r.toCome.take n, toCome := r.toCome.drop n }
    else .error .overflow
  | .look =>
    match f.look r.pending with
    | .error e => .error e
    | .ok none => .ok r
    | .ok (some n) =>
      .ok { r with pending := r.pending.drop n, frames := r.frames ++ [r.pending.take n] }

/-- There is room for what arrives. -/
def Fits (r : Reader α) : Event → Prop
  | .receive n => r.pending.length + (r.toCome.take n).length ≤ capacity
  | .look => True

variable {f capacity} {r : Reader α} {pending : List α}

private theorem look_of_lt (h : pending.length < f.minimum) : f.look pending = .ok none := if_pos h

private theorem look_scan (h : f.minimum ≤ pending.length) (hmark : pending.head? = some f.mark) :
    f.look pending = .ok (f.scan pending) := by
  rw [look, if_neg h.not_gt, if_neg (not_not.mpr hmark)]

/-- A frame is taken only if there are enough elements and they start with the mark. -/
theorem look_eq_some {n : ℕ} (h : f.look pending = .ok (some n)) :
    f.minimum ≤ pending.length ∧ pending.head? = some f.mark ∧ f.scan pending = some n := by
  rw [look] at h
  split_ifs at h with hmin hmark
  · cases h
  · exact ⟨Nat.le_of_not_lt hmin, not_not.mp hmark, Except.ok.inj h⟩

theorem look_eq_error {e : Ended} (h : f.look pending = .error e) :
    f.minimum ≤ pending.length ∧ pending.head? ≠ some f.mark ∧ e = .badStart := by
  rw [look] at h
  split_ifs at h with hmin hmark
  exact ⟨Nat.le_of_not_lt hmin, hmark, (Except.error.inj h).symm⟩

/-- Nothing is taken if there are too few elements, or if there is no end among them. -/
theorem look_eq_none (h : f.look pending = .ok none) :
    pending.length < f.minimum ∨ pending.head? = some f.mark ∧ f.scan pending = none := by
  rw [look] at h
  split_ifs at h with hmin hmark
  · exact .inl hmin
  · exact .inr ⟨not_not.mp hmark, Except.ok.inj h⟩

private theorem step_receive {n : ℕ} (h : r.pending.length + (r.toCome.take n).length ≤ capacity) :
    f.step capacity r (.receive n) =
      .ok { r with pending := r.pending ++ r.toCome.take n, toCome := r.toCome.drop n } := if_pos h

theorem step_look_error {e : Ended} (h : f.look r.pending = .error e) :
    f.step capacity r .look = .error e := by
  rw [step, h]

theorem step_look_none (h : f.look r.pending = .ok none) : f.step capacity r .look = .ok r := by
  rw [step, h]

theorem step_look_some {n : ℕ} (h : f.look r.pending = .ok (some n)) :
    f.step capacity r .look =
      .ok { r with pending := r.pending.drop n, frames := r.frames ++ [r.pending.take n] } := by
  rw [step, h]

omit [DecidableEq α] in
/-- What the reader keeps of the stream behind a frame. -/
theorem drop_append_toCome {n : ℕ} (hscan : f.scan r.pending = some n) :
    r.pending.drop n ++ r.toCome = (r.pending ++ r.toCome).drop n :=
  (List.drop_append_of_le_length (f.scan_append hscan []).1).symm

/-- A step leaves the stream as it is, or drops something from its start. -/
theorem step_stream {e : Event} {r' : Reader α} (h : f.step capacity r e = .ok r') :
    ∃ n, r'.pending ++ r'.toCome = (r.pending ++ r.toCome).drop n := by
  cases e with
  | receive n =>
    rw [step] at h
    split_ifs at h
    cases h
    exact ⟨0, by rw [List.append_assoc, List.take_append_drop, List.drop_zero]⟩
  | look =>
    cases hlook : f.look r.pending with
    | error e => cases h.symm.trans (step_look_error hlook)
    | ok found =>
      cases found with
      | none =>
        cases h.symm.trans (step_look_none hlook)
        exact ⟨0, rfl⟩
      | some n =>
        cases h.symm.trans (step_look_some hlook)
        exact ⟨n, drop_append_toCome (look_eq_some hlook).2.2⟩

/-! ### Streams of frames -/

section Frames

omit [DecidableEq α]

variable (f) in
/-- A frame: it starts with the mark, and its end is found at its end. -/
def IsFrame (x : List α) : Prop := x.head? = some f.mark ∧ f.scan x = some x.length

/-- No frame is found in a part of one. -/
theorem IsFrame.scan_of_lt {x : List α} (h : f.IsFrame x) (hfirst : pending <+: x)
    (hlt : pending.length < x.length) : f.scan pending = none := by
  obtain ⟨rest, rfl⟩ := hfirst
  by_contra hsome
  obtain ⟨n, hn⟩ := Option.ne_none_iff_exists'.mp hsome
  obtain ⟨hle, hscan⟩ := f.scan_append hn rest
  have := Option.some.inj (hscan.symm.trans h.2)
  omega

/-- **The invariant**: the frames that have been taken are the first ones, and what is kept and what
is to come are the others. -/
structure Framed (xs : List (List α)) (r : Reader α) (later : List (List α)) : Prop where
  split : xs = r.frames ++ later
  stream_eq : r.pending ++ r.toCome = later.flatten

private theorem framed_start (xs : List (List α)) : Framed xs ⟨[], xs.flatten, []⟩ xs := ⟨rfl, rfl⟩

/-- A frame, as far as it has come: a part of it, or all of it and more. -/
theorem part_or_whole {toCome x later : List α} (h : pending ++ toCome = x ++ later) :
    (pending <+: x ∧ pending.length < x.length) ∨ ∃ rest, pending = x ++ rest := by
  obtain ⟨missing, rfl, -⟩ | ⟨rest, rfl, -⟩ := List.append_eq_append_iff.mp h
  · rcases missing.eq_nil_or_concat with rfl | ⟨_, _, rfl⟩
    · exact .inr ⟨[], by rw [List.append_nil, List.append_nil]⟩
    · exact .inl ⟨List.prefix_append _ _, by simp⟩
  · exact .inr ⟨rest, rfl⟩

end Frames

/-- A frame that has come as a whole is found. -/
theorem IsFrame.look_append {x : List α} (h : f.IsFrame x) {rest : List α}
    (hle : f.minimum ≤ (x ++ rest).length) : f.look (x ++ rest) = .ok (some x.length) := by
  have hmark : (x ++ rest).head? = some f.mark := by
    rw [List.head?_append, h.1]
    rfl
  rw [look_scan hle hmark, (f.scan_append h.2 rest).2]

section Framed

variable {xs later : List (List α)}

/-- **What the reader finds**: nothing as long as there are too few elements or the next frame has
not come as a whole, and then this frame. -/
theorem Framed.look_eq (hxs : ∀ x ∈ xs, f.IsFrame x) (h : Framed xs r later) :
    f.look r.pending = .ok none ∧
        (r.pending.length < f.minimum ∨ ∀ x ∈ later.head?, r.pending.length < x.length) ∨
      ∃ x later' rest, later = x :: later' ∧ r.pending = x ++ rest ∧
        f.minimum ≤ r.pending.length ∧ f.look r.pending = .ok (some x.length) := by
  by_cases hmin : r.pending.length < f.minimum
  · exact .inl ⟨look_of_lt hmin, .inl hmin⟩
  have hle : f.minimum ≤ r.pending.length := Nat.le_of_not_lt hmin
  have hpos := f.minimum_pos
  cases later with
  | nil =>
    have hnil : r.pending = [] := (List.append_eq_nil_iff.mp h.stream_eq).1
    rw [hnil] at hle
    exact absurd hle hpos.not_ge
  | cons x later =>
    have hx : f.IsFrame x := hxs x (by rw [h.split]; simp)
    rcases part_or_whole h.stream_eq with ⟨hfirst, hlt⟩ | ⟨rest, hrest⟩
    · -- what there is starts as the frame does
      have hmark : r.pending.head? = some f.mark := by
        obtain ⟨rest, hrest⟩ := hfirst
        rw [← hx.1, ← hrest, List.head?_append_of_ne_nil]
        exact List.ne_nil_of_length_pos (by omega)
      refine .inl ⟨?_, .inr (by simpa using hlt)⟩
      rw [look_scan hle hmark, hx.scan_of_lt hfirst hlt]
    · rw [hrest] at hle ⊢
      exact .inr ⟨x, later, rest, rfl, rfl, hle, hx.look_append hle⟩

/-- When the reader waits. -/
theorem Framed.look_eq_none_iff (hxs : ∀ x ∈ xs, f.IsFrame x) (h : Framed xs r later) :
    f.look r.pending = .ok none ↔
      r.pending.length < f.minimum ∨ ∀ x ∈ later.head?, r.pending.length < x.length := by
  obtain ⟨hlook, hwait⟩ | ⟨x, later', rest, rfl, hrest, hle, hlook⟩ := h.look_eq hxs
  · exact iff_of_true hlook hwait
  · refine iff_of_false (by rw [hlook]; nofun) ?_
    rintro (hmin | hlt)
    · omega
    · have := hlt x rfl
      rw [hrest, List.length_append] at this
      omega

/-- **One event**: a reader with room for what arrives goes on, and takes the next frame or none. -/
theorem Framed.step (hxs : ∀ x ∈ xs, f.IsFrame x) (h : Framed xs r later) {e : Event}
    (hfits : Fits capacity r e) :
    ∃ r' later', f.step capacity r e = .ok r' ∧ Framed xs r' later' := by
  cases e with
  | receive n =>
    refine ⟨_, later, step_receive hfits, h.split, ?_⟩
    rw [List.append_assoc, List.take_append_drop]
    exact h.stream_eq
  | look =>
    obtain ⟨hlook, -⟩ | ⟨x, later', rest, rfl, hrest, -, hlook⟩ := h.look_eq hxs
    · exact ⟨r, later, step_look_none hlook, h⟩
    · refine ⟨_, later', step_look_some hlook, ?_, ?_⟩
      · rw [hrest, List.take_left, List.append_assoc]
        exact h.split
      · have hstream := h.stream_eq
        rw [hrest, List.flatten_cons, List.append_assoc] at hstream
        rw [hrest, List.drop_left]
        exact List.append_cancel_left hstream

/-- When everything has come and the reader waits, it has taken all frames, unless something is left
that is too short for it to look. -/
theorem Framed.done (hxs : ∀ x ∈ xs, f.IsFrame x) (h : Framed xs r later) (hcome : r.toCome = [])
    (hwait : f.look r.pending = .ok none) :
    later = [] ∨ 0 < r.pending.length ∧ r.pending.length < f.minimum := by
  cases later with
  | nil => exact .inl rfl
  | cons x later =>
    have hx : x ≠ [] := by
      rintro rfl
      cases (hxs [] (by rw [h.split]; simp)).1
    have hpending : r.pending = x ++ later.flatten := by
      rw [← List.append_nil r.pending, ← hcome, h.stream_eq, List.flatten_cons]
    refine .inr ((h.look_eq_none_iff hxs).mp hwait |>.elim (fun hmin => ⟨?_, hmin⟩) fun hlt => ?_)
    · rw [hpending, List.length_append]
      have := List.length_pos_of_ne_nil hx
      omega
    · have := hlt x rfl
      rw [hpending, List.length_append] at this
      omega

/-- **A system that runs as a reader does** on a stream of frames, with room for what arrives, goes
on, and the reader has taken the first frames. -/
theorem execM_framed {σ ε φ : Type*} {stepM : σ → ε → Except φ σ} {R : σ → Reader α → Prop}
    {E : φ → Ended → Prop} {C : σ → ε → Prop} (g : ε → Event) (hxs : ∀ x ∈ xs, f.IsFrame x)
    (hstep : ∀ s r later e, R s r → Framed xs r later → C s e →
      Fits capacity r (g e) ∧ Run.Agree R E (stepM s e) (f.step capacity r (g e)))
    {s : σ} (hs : R s ⟨[], xs.flatten, []⟩) {es : List ε} (hes : Run.AllStepsM stepM C s es) :
    ∃ s', Run.execM stepM s es = .ok s' ∧ ∃ r later, R s' r ∧ Framed xs r later := by
  refine Run.progressM (P := fun s => ∃ r later, R s r ∧ Framed xs r later) ?_
    ⟨_, _, hs, framed_start xs⟩ hes
  rintro s e ⟨r, later, hR, hframed⟩ hC
  obtain ⟨hfits, hagree⟩ := hstep s r later e hR hframed hC
  obtain ⟨r', later', hr', hframed'⟩ := hframed.step hxs hfits
  rw [hr'] at hagree
  obtain ⟨s', hs', hR'⟩ := hagree.of_ok
  exact ⟨s', hs', r', later', hR', hframed'⟩

end Framed

/-! ### A reader that starts anywhere -/

/-- The reader comes to a place where it looks for a frame and none starts. -/
inductive Lost (f : Framer α) (capacity : ℕ) : List α → Prop where
  | here {xs : List α} (hmin : f.minimum ≤ xs.length) (hmark : xs.head? ≠ some f.mark) :
    Lost f capacity xs
  | later {xs : List α} {n : ℕ} (hscan : f.scan xs = some n) (hfits : n ≤ capacity)
    (hrest : Lost f capacity (xs.drop n)) : Lost f capacity xs

section Lost

variable {xs : List α}

omit [DecidableEq α] in
theorem Lost.minimum_le (h : Lost f capacity xs) : f.minimum ≤ xs.length := by
  induction h with
  | here hmin hmark => exact hmin
  | later hscan hfits hrest ih =>
    rw [List.length_drop] at ih
    omega

omit [DecidableEq α] in
/-- Behind a frame that is found the reader is as lost as before. -/
theorem Lost.of_scan {n : ℕ} (h : Lost f capacity xs) (hmark : xs.head? = some f.mark)
    (hscan : f.scan xs = some n) : Lost f capacity (xs.drop n) := by
  cases h with
  | here hmin hne => exact absurd hmark hne
  | later hscan' hfits hrest =>
    cases hscan.symm.trans hscan'
    exact hrest

/-- A reader that has everything and waits is not lost. -/
theorem not_lost_of_look (h : f.look xs = .ok none) : ¬ Lost f capacity xs := by
  intro hlost
  obtain hlt | ⟨hmark, hscan⟩ := look_eq_none h
  · exact absurd hlost.minimum_le hlt.not_ge
  · cases hlost with
    | here hmin hne => exact hne hmark
    | later hscan' hfits hrest => cases hscan.symm.trans hscan'

/-- Nor is one that has no room left for the end of the frame it is in. -/
theorem not_lost_of_full (hcap : f.minimum ≤ capacity) (h : f.look pending = .ok none)
    (hfull : pending.length = capacity) (rest : List α) :
    ¬ Lost f capacity (pending ++ rest) := by
  intro hlost
  have hpos := f.minimum_pos
  obtain hlt | ⟨hmark, hscan⟩ := look_eq_none h
  · omega
  · have hhead : (pending ++ rest).head? = some f.mark := by
      rw [List.head?_append, hmark]
      rfl
    cases hlost with
    | here hmin hne => exact hne hhead
    | later hscan' hfits hrest =>
      cases hscan.symm.trans (f.scan_of_append hscan' (by omega))

/-- The reader is not lost, and has room for what it keeps. -/
structure OnTrack (f : Framer α) (capacity : ℕ) (r : Reader α) : Prop where
  not_lost : ¬ Lost f capacity (r.pending ++ r.toCome)
  room : r.pending.length ≤ capacity

/-- **A reader that is not lost** goes on, or there is no room for what arrives. -/
theorem OnTrack.step (h : OnTrack f capacity r) (e : Event) :
    (∃ r', f.step capacity r e = .ok r' ∧ OnTrack f capacity r') ∨
      f.step capacity r e = .error .overflow := by
  obtain ⟨hlost, hroom⟩ := h
  cases e with
  | receive n =>
    by_cases hfits : r.pending.length + (r.toCome.take n).length ≤ capacity
    · refine .inl ⟨_, step_receive hfits, ?_, ?_⟩
      · rwa [List.append_assoc, List.take_append_drop]
      · rwa [List.length_append]
    · exact .inr (if_neg hfits)
  | look =>
    refine .inl ?_
    cases hlook : f.look r.pending with
    | error e =>
      -- what there is does not start with the mark, nor does what comes with it
      obtain ⟨hmin, hmark, -⟩ := look_eq_error hlook
      have hpos := f.minimum_pos
      refine absurd (.here ?_ ?_) hlost
      · rw [List.length_append]
        omega
      · rwa [List.head?_append_of_ne_nil _ (List.ne_nil_of_length_pos (by omega))]
    | ok found =>
      cases found with
      | none => exact ⟨r, step_look_none hlook, hlost, hroom⟩
      | some n =>
        obtain ⟨-, -, hscan⟩ := look_eq_some hlook
        have hle := (f.scan_append hscan r.toCome).1
        refine ⟨_, step_look_some hlook, ?_, ?_⟩
        · rw [drop_append_toCome hscan]
          exact fun h => hlost (.later (f.scan_append hscan r.toCome).2 (by omega) h)
        · rw [List.length_drop]
          omega

/-- So it never gives up. -/
theorem OnTrack.run (h : OnTrack f capacity r) (es : List Event) :
    Run.execM (f.step capacity) r es ≠ .error .badStart := by
  intro hrun
  have hbad : Ended.badStart = .overflow := by
    refine Run.execM_error (B := fun e => e = Ended.overflow) ?_ ?_ h hrun
    · intro r e r' hr hstep
      obtain ⟨r'', hstep', hr'⟩ | hover := hr.step e
      · cases hstep.symm.trans hstep'
        exact hr'
      · cases hstep.symm.trans hover
    · intro r e ended hr hstep
      obtain ⟨r'', hstep', -⟩ | hover := hr.step e
      · cases hstep.symm.trans hstep'
      · exact Except.error.inj (hstep.symm.trans hover)
  cases hbad

/-- A reader that waited for one more element and finds a frame waits again. -/
theorem look_drop_of_concat {x : α} {n : ℕ} (hwait : f.look pending = .ok none)
    (hscan : f.scan (pending ++ [x]) = some n) :
    f.look ((pending ++ [x]).drop n) = .ok none := by
  have hpos := f.minimum_pos
  have hn := f.scan_pos hscan
  refine look_of_lt ?_
  rw [List.length_drop, List.length_append, List.length_singleton]
  obtain hlt | ⟨-, hnone⟩ := look_eq_none hwait
  · omega
  · -- the end of the frame is the element that has come last
    have hlast : pending.length < n := by
      by_contra hle
      cases hnone.symm.trans (f.scan_of_append hscan (Nat.le_of_not_lt hle))
    omega

/-- **A reader that is lost** gives up, if it looks for a frame whenever an element has come. -/
theorem exists_badStart (hcap : f.minimum ≤ capacity) (hwait : f.look r.pending = .ok none)
    (hroom : r.pending.length ≤ capacity) (h : Lost f capacity (r.pending ++ r.toCome)) :
    ∃ es, (∀ e ∈ es, e = .receive 1 ∨ e = .look) ∧
      Run.execM (f.step capacity) r es = .error .badStart := by
  obtain ⟨pending, toCome, frames⟩ := r
  induction toCome generalizing pending frames with
  | nil =>
    rw [List.append_nil] at h
    exact absurd h (not_lost_of_look hwait)
  | cons x toCome ih =>
    have hlt : pending.length < capacity := by
      refine Nat.lt_of_le_of_ne hroom fun hfull => ?_
      exact not_lost_of_full hcap hwait hfull _ h
    have hreceive : f.step capacity ⟨pending, x :: toCome, frames⟩ (.receive 1) =
        .ok ⟨pending ++ [x], toCome, frames⟩ := step_receive hlt
    have hlen : (pending ++ [x]).length ≤ capacity := by
      rw [List.length_append]
      exact hlt
    rw [← List.singleton_append, ← List.append_assoc] at h
    cases hlook : f.look (pending ++ [x]) with
    | error e =>
      obtain ⟨-, -, rfl⟩ := look_eq_error hlook
      refine ⟨[.receive 1, .look], by simp, ?_⟩
      rw [Run.execM_cons_of_ok hreceive]
      exact Run.execM_cons_of_error (step_look_error hlook) []
    | ok found =>
      cases found with
      | none =>
        obtain ⟨es, hes, hrun⟩ := ih (pending ++ [x]) frames hlook hlen h
        refine ⟨.receive 1 :: es, by simpa using hes, ?_⟩
        rw [Run.execM_cons_of_ok hreceive, hrun]
      | some n =>
        obtain ⟨-, hmark, hscan⟩ := look_eq_some hlook
        have hlost : Lost f capacity ((pending ++ [x]).drop n ++ toCome) := by
          have hscan' := f.scan_append hscan toCome
          rw [← List.drop_append_of_le_length hscan'.1]
          exact h.of_scan (by rw [List.head?_append, hmark]; rfl) hscan'.2
        obtain ⟨es, hes, hrun⟩ := ih ((pending ++ [x]).drop n)
          (frames ++ [(pending ++ [x]).take n]) (look_drop_of_concat hwait hscan)
          (by rw [List.length_drop]; omega) hlost
        refine ⟨.receive 1 :: .look :: es, by simpa using hes, ?_⟩
        rw [Run.execM_cons_of_ok hreceive, Run.execM_cons_of_ok (step_look_some hlook), hrun]

/-- **When a reader gives up.** A reader that has nothing yet gives up for some order of events if
and only if it is lost on what is to come. The events may be restricted, as long as single elements
may arrive. -/
theorem badStart_iff {A : Event → Prop} (hreceive : A (.receive 1)) (hlook : A .look)
    (hcap : f.minimum ≤ capacity) (xs : List α) (frames : List (List α)) :
    (∃ es, (∀ e ∈ es, A e) ∧ Run.execM (f.step capacity) ⟨[], xs, frames⟩ es = .error .badStart) ↔
      Lost f capacity xs := by
  constructor
  · rintro ⟨es, -, hrun⟩
    by_contra hlost
    have htrack : OnTrack f capacity ⟨[], xs, frames⟩ := ⟨hlost, Nat.zero_le _⟩
    exact htrack.run es hrun
  · intro hlost
    have hstart : f.look [] = .ok none := look_of_lt f.minimum_pos
    obtain ⟨es, hes, hrun⟩ :=
      exists_badStart (r := ⟨[], xs, frames⟩) hcap hstart (Nat.zero_le _) hlost
    refine ⟨es, fun e he => ?_, hrun⟩
    rcases hes e he with rfl | rfl
    · exact hreceive
    · exact hlook

/-- **A system that runs as a reader does** never stops for the reason `bad`, if and only if the
reader is not lost. -/
theorem never_bad_iff {σ ε φ : Type*} {stepM : σ → ε → Except φ σ} {R : σ → Reader α → Prop}
    {E : φ → Ended → Prop} {C : ε → Prop} (g : ε → Event) (k : Event → ε)
    (hstep : ∀ s r e, R s r → C e → Run.Agree R E (stepM s e) (f.step capacity r (g e)))
    (hinv : ∀ e, g (k e) = e) (hreceive : C (k (.receive 1))) (hlook : C (k .look)) {bad : φ}
    (hbad : ∀ x y, E x y → (x = bad ↔ y = .badStart)) (hcap : f.minimum ≤ capacity) {s : σ}
    {xs : List α} {frames : List (List α)} (hs : R s ⟨[], xs, frames⟩) :
    (∀ es, (∀ e ∈ es, C e) → Run.execM stepM s es ≠ .error bad) ↔ ¬ Lost f capacity xs := by
  constructor
  · intro h hlost
    obtain ⟨es, hes, hrun⟩ :=
      (badStart_iff (A := fun e => C (k e)) hreceive hlook hcap xs frames).mpr hlost
    have hes' : ∀ e ∈ es.map k, C e := by simpa using hes
    have hid : (es.map k).map g = es := by simp [Function.comp_def, hinv]
    have hagree := Run.lockstep g hstep hs hes'
    rw [hid, hrun] at hagree
    obtain ⟨x, hx, hsame⟩ := hagree.of_error
    exact h _ hes' (hx.trans (congrArg _ ((hbad x _ hsame).mpr rfl)))
  · intro hlost es hes hrun
    have hagree := Run.lockstep g hstep hs hes
    rw [hrun] at hagree
    obtain ⟨y, hy, hsame⟩ := hagree.of_error_left
    obtain rfl := (hbad bad y hsame).mp rfl
    have htrack : OnTrack f capacity ⟨[], xs, frames⟩ := ⟨hlost, Nat.zero_le _⟩
    exact htrack.run _ hy

omit [DecidableEq α] in
/-- Pieces that a system throws away. -/
theorem execM_discard {σ ε φ : Type*} {stepM : σ → ε → Except φ σ} (state : List α → σ)
    (discard : ℕ → ε) (h : ∀ xs n, stepM (state xs) (discard n) = .ok (state (xs.drop n)))
    (xs : List α) (ns : List ℕ) (es : List ε) :
    Run.execM stepM (state xs) (ns.map discard ++ es) =
      Run.execM stepM (state (xs.drop ns.sum)) es := by
  induction ns generalizing xs with
  | nil => rfl
  | cons n ns ih =>
    rw [List.map_cons, List.cons_append, Run.execM_cons_of_ok (h xs n), ih, List.drop_drop,
      List.sum_cons]

omit [DecidableEq α] in
/-- A stream of frames has no place to be lost at. -/
theorem not_lost_of_frames {xs : List (List α)} (hxs : ∀ x ∈ xs, f.IsFrame x) :
    ¬ Lost f capacity xs.flatten := by
  induction xs with
  | nil =>
    intro hlost
    exact absurd hlost.minimum_le f.minimum_pos.not_ge
  | cons x xs ih =>
    obtain ⟨hx, hxs⟩ := List.forall_mem_cons.mp hxs
    intro hlost
    rw [List.flatten_cons] at hlost
    have hrest := hlost.of_scan (by rw [List.head?_append, hx.1]; rfl)
      (f.scan_append hx.2 xs.flatten).2
    rw [List.drop_left] at hrest
    exact ih hxs hrest

end Lost

/-! ### Frames that end with a mark -/

section Delimited

variable (mark last : α) (minimum : ℕ) (hpos : 0 < minimum)

/-- The number of elements up to the first `last`. -/
def scanLast : List α → Option ℕ
  | [] => none
  | x :: xs => if x = last then some 1 else (scanLast xs).map (· + 1)

variable {last}

theorem scanLast_eq_none_iff {xs : List α} : scanLast last xs = none ↔ last ∉ xs := by
  induction xs with
  | nil => simp [scanLast]
  | cons x xs ih =>
    rw [scanLast]
    split_ifs with hx
    · simp [hx]
    · rw [Option.map_eq_none_iff, ih, List.mem_cons, not_or, and_iff_right (Ne.symm hx)]

/-- The first `last` is behind elements that are not `last`. -/
theorem scanLast_append {xs : List α} (h : last ∉ xs) (ys : List α) :
    scanLast last (xs ++ last :: ys) = some (xs.length + 1) := by
  induction xs with
  | nil => exact if_pos rfl
  | cons x xs ih =>
    obtain ⟨hx, hxs⟩ := not_or.mp (List.mem_cons.not.mp h)
    rw [List.cons_append, scanLast, if_neg (Ne.symm hx), ih hxs]
    rfl

private theorem scanLast_append_of_notMem {xs : List α} (h : last ∉ xs) (ys : List α) :
    scanLast last (xs ++ ys) = (scanLast last ys).map (· + xs.length) := by
  induction xs with
  | nil => simp
  | cons x xs ih =>
    obtain ⟨hx, hxs⟩ := not_or.mp (List.mem_cons.not.mp h)
    rw [List.cons_append, scanLast, if_neg (Ne.symm hx), ih hxs, Option.map_map]
    rfl

theorem scanLast_eq_some {xs : List α} {n : ℕ} (h : scanLast last xs = some n) :
    ∃ body rest, xs = body ++ last :: rest ∧ last ∉ body ∧ n = body.length + 1 := by
  have hmem : last ∈ xs := by
    by_contra hnot
    cases h.symm.trans (scanLast_eq_none_iff.mpr hnot)
  obtain ⟨body, rest, rfl, hbody⟩ := List.eq_append_cons_of_mem hmem
  exact ⟨body, rest, rfl, hbody, Option.some.inj (h.symm.trans (scanLast_append hbody rest))⟩

variable (last)

/-- Frames from `mark` to the next `last`. -/
def delimited : Framer α where
  mark := mark
  minimum := minimum
  minimum_pos := hpos
  scan := scanLast last
  scan_pos := by
    intro xs n h
    obtain ⟨body, rest, -, -, rfl⟩ := scanLast_eq_some h
    exact Nat.succ_pos _
  scan_append := by
    intro xs n h ys
    obtain ⟨body, rest, rfl, hbody, rfl⟩ := scanLast_eq_some h
    refine ⟨by simp, ?_⟩
    rw [List.append_assoc, List.cons_append, scanLast_append hbody]
  scan_of_append := by
    intro xs ys n h hn
    by_cases hmem : last ∈ xs
    · obtain ⟨body, rest, rfl, hbody⟩ := List.eq_append_cons_of_mem hmem
      rwa [List.append_assoc, List.cons_append, scanLast_append hbody,
        ← scanLast_append hbody rest] at h
    · rw [scanLast_append_of_notMem hmem] at h
      obtain ⟨k, hk, rfl⟩ := Option.map_eq_some_iff.mp h
      obtain ⟨body, rest, -, -, rfl⟩ := scanLast_eq_some hk
      omega

end Delimited

end Framer
