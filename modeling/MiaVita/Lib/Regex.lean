import Mathlib.Data.List.Basic

/-!
# Regular expressions with groups, matched by backtracking

A pattern is matched from left to right; where there is a choice, the matcher tries the greedy one
first and comes back to the others if the rest of the pattern then fails. What remains to be matched
is a continuation, so that `Regex.run` is the search itself. `Regex.find` looks for the leftmost
place at which the pattern matches and returns what its groups have captured there.

`Regex.Matches` says that the first choices are the right ones; a pattern is then followed part by
part, without looking at the alternatives.
-/

/-- Patterns. Repetition is of the characters of a class. -/
inductive Regex where
  | literal (cs : List Char)
  | oneOrMore (p : Char → Bool)
  | optional (r : Regex)
  | group (i : ℕ) (r : Regex)
  | append (r s : Regex)

namespace Regex

/-- One pattern after the other. -/
def seq : List Regex → Regex
  | [] => literal []
  | r :: rs => append r (seq rs)

/-- What the groups have captured. -/
abbrev Groups := ℕ → Option (List Char)

/-- No group has captured anything. -/
def Groups.empty : Groups := fun _ => none

/-- A literal at the start of a text. -/
def dropLiteral : List Char → List Char → Option (List Char)
  | [], cs => some cs
  | _ :: _, [] => none
  | l :: ls, c :: cs => if l = c then dropLiteral ls cs else none

section Search

variable {α : Type*}

/-- Take as many characters of the class as possible, and fewer if that fails. -/
def runMany (p : Char → Bool) : List Char → (List Char → Option α) → Option α
  | [], k => k []
  | c :: cs, k => if p c then runMany p cs k <|> k (c :: cs) else k (c :: cs)

/-- Match the pattern at the start of the text, and then the continuation. -/
def run : Regex → List Char → Groups → (List Char → Groups → Option α) → Option α
  | literal l, cs, g, k => (dropLiteral l cs).bind fun rest => k rest g
  | oneOrMore p, cs, g, k =>
    match cs with
    | [] => none
    | c :: cs => if p c then runMany p cs fun rest => k rest g else none
  | optional r, cs, g, k => r.run cs g k <|> k cs g
  | group i r, cs, g, k =>
    r.run cs g fun rest g => k rest (Function.update g i (cs.take (cs.length - rest.length)))
  | append r s, cs, g, k => r.run cs g fun rest g => s.run rest g k

end Search

/-- The groups of the leftmost match. -/
def find (r : Regex) : List Char → Option Groups
  | [] => r.run [] .empty fun _ g => some g
  | c :: cs => (r.run (c :: cs) .empty fun _ g => some g) <|> find r cs

/-- **The first choices** of the matcher lead from one text to the other: whatever is matched
afterwards, if it succeeds there, it is the result. -/
def Matches (r : Regex) (cs : List Char) (g : Groups) (rest : List Char) (g' : Groups) : Prop :=
  ∀ (α : Type) (k : List Char → Groups → Option α) (x : α),
    k rest g' = some x → r.run cs g k = some x

variable {r s : Regex} {cs rest rest' : List Char} {g g' g'' : Groups}

private theorem dropLiteral_append (l rest : List Char) :
    dropLiteral l (l ++ rest) = some rest := by
  induction l with
  | nil => rfl
  | cons c l ih => simpa [dropLiteral] using ih

private theorem matches_of_dropLiteral {l : List Char} (h : dropLiteral l cs = some rest)
    (g : Groups) :
    (literal l).Matches cs g rest g := by
  intro α k x hk
  rw [run, h, Option.bind_some, hk]

theorem matches_literal (l rest : List Char) (g : Groups) :
    (literal l).Matches (l ++ rest) g rest g :=
  matches_of_dropLiteral (dropLiteral_append l rest) g

/-- All characters of the class that there are. -/
theorem matches_oneOrMore {p : Char → Bool} {ds : List Char} (hne : ds ≠ [])
    (hds : ∀ c ∈ ds, p c = true) (hrest : ∀ c ∈ rest.head?, p c = false) (g : Groups) :
    (oneOrMore p).Matches (ds ++ rest) g rest g := by
  intro α k x h
  have hmany : ∀ ds : List Char, (∀ c ∈ ds, p c = true) →
      runMany p (ds ++ rest) (fun rest => k rest g) = some x := by
    intro ds hds
    induction ds with
    | nil =>
      cases rest with
      | nil => exact h
      | cons c rest => rw [List.nil_append, runMany, if_neg (by simp [hrest c rfl]), h]
    | cons c ds ih =>
      obtain ⟨hc, hds⟩ := List.forall_mem_cons.mp hds
      rw [List.cons_append, runMany, if_pos hc, ih hds]
      rfl
  obtain ⟨c, ds, rfl⟩ := List.exists_cons_of_ne_nil hne
  obtain ⟨hc, hds⟩ := List.forall_mem_cons.mp hds
  rw [List.cons_append, run, if_pos hc, hmany ds hds]

theorem Matches.optional (h : r.Matches cs g rest g') :
    (Regex.optional r).Matches cs g rest g' := by
  intro α k x hk
  rw [run, h α k x hk]
  rfl

/-- A literal that is not there is left out. -/
theorem matches_optional_literal_none {l : List Char} (h : dropLiteral l cs = none) (g : Groups) :
    (Regex.optional (literal l)).Matches cs g cs g := by
  intro α k x hk
  rw [run, run, h, Option.bind_none, hk]
  rfl

/-- A literal that may be left out never fails. -/
theorem exists_matches_optional_literal (l cs : List Char) (g : Groups) :
    ∃ rest, (Regex.optional (literal l)).Matches cs g rest g := by
  cases h : dropLiteral l cs with
  | none => exact ⟨cs, matches_optional_literal_none h g⟩
  | some rest => exact ⟨rest, (matches_of_dropLiteral h g).optional⟩

theorem Matches.append (h : r.Matches cs g rest g') (h' : s.Matches rest g' rest' g'') :
    (Regex.append r s).Matches cs g rest' g'' := by
  intro α k x hk
  exact h α _ x (h' α k x hk)

theorem matches_seq_nil (cs : List Char) (g : Groups) : (seq []).Matches cs g cs g :=
  matches_literal [] cs g

theorem Matches.seq_cons {rs : List Regex} (h : r.Matches cs g rest g')
    (h' : (seq rs).Matches rest g' rest' g'') : (seq (r :: rs)).Matches cs g rest' g'' :=
  h.append h'

private theorem Matches.group {text : List Char} (h : r.Matches (text ++ rest) g rest g') (i : ℕ) :
    (Regex.group i r).Matches (text ++ rest) g rest (Function.update g' i text) := by
  intro α k x hk
  refine h α _ x ?_
  rwa [List.length_append, Nat.add_sub_cancel, List.take_left]

/-- A literal and a group, and the rest of the pattern. -/
theorem Matches.field {l text : List Char} {i : ℕ} {rs : List Regex}
    (h : r.Matches (text ++ rest) g rest g)
    (h' : (seq rs).Matches rest (Function.update g i text) rest' g'') :
    (seq (literal l :: Regex.group i r :: rs)).Matches (l ++ (text ++ rest)) g rest' g'' :=
  .seq_cons (matches_literal l _ g) (.seq_cons (h.group i) h')

/-- A pattern that matches at the start of the text is found there. -/
theorem Matches.find (rest : List Char) (h : r.Matches cs .empty rest g) : r.find cs = some g := by
  have hrun := h _ (fun _ g => some g) g rfl
  cases cs with
  | nil => exact hrun
  | cons c cs =>
    rw [Regex.find, hrun]
    rfl

end Regex
