import MiaVita.FredFramework.ProcRegistry

/-!
# Memory safety of the request parser (`fred_framework`, `parse_request` of `proc_registry.c`)

Anybody may write up to 800 bytes to the file. `parse_request` cuts the fields out of the 800 bytes
of its buffer, whatever they are, and copies each of them to an array on the stack without looking
at its length.

A number is read from an array up to the first character that is no digit, which may be a leftover
of the field itself. `strtolKept` asks for more: there has to be a zero in the array. The parser
with `strtolKept` instead of `simple_strtol` ends without a fault exactly if all reads and writes
are inside the arrays and a terminating zero is in each array that a number is read from.

`memorySafe_iff` says for which bytes that is so. A line with a destination port is never among
them, because of what is cleared behind the port.
-/

namespace MiaVita.Framework

open Memory CText Fallible

/-! ### The parser, with stricter reads of numbers -/

/-- `simple_strtol` on an array in which a zero is left; another one is read behind its end. -/
def strtolKept (arr : List Char) : Except Fault ℤ :=
  if nul ∈ arr then strtol arr else .error (.read arr.length 1)

section Refinement

variable {read read' : List Char → Except Fault ℤ} (h : ∀ arr, Refines (read arr) (read' arr))

include h

private theorem refines_numberField (arr f : List Char) (cleared : ℕ) (bit filterBy : UInt8) :
    Refines (numberField read arr f cleared bit filterBy)
      (numberField read' arr f cleared bit filterBy) :=
  .ite (.refl _) <| (Refines.refl _).bind fun arr => (h arr).bind fun _ => .refl _

private theorem refines_parseRule (sz : Sizes) (req : List Char) :
    Refines (parseRule read sz req) (parseRule read' sz req) := by
  have hnumber := refines_numberField h
  refine (Refines.refl _).bind fun name => .ite (.refl _) ?_
  refine (Refines.refl _).bind fun f => (hnumber _ _ _ _ _).bind fun proto => ?_
  refine (Refines.refl _).bind fun f => (hnumber _ _ _ _ _).bind fun daddr => ?_
  refine (Refines.refl _).bind fun f => (hnumber _ _ _ _ _).bind fun saddr => ?_
  refine (Refines.refl _).bind fun f => (hnumber _ _ _ _ _).bind fun dport => ?_
  exact (Refines.refl _).bind fun f => (hnumber _ _ _ _ _).bind fun sport => .refl _

private theorem refines_parseRequest (sz : Sizes) (req : List Char) :
    Refines (parseRequestWith read sz req) (parseRequestWith read' sz req) := by
  cases req with
  | nil => exact .refl _
  | cons c cs =>
    refine .ite (refines_parseRule h sz _) (.ite ?_ (.refl _))
    exact (Refines.refl _).bind fun f => .ite (.refl _) <|
      (Refines.refl _).bind fun arr => (h arr).bind fun _ => .refl _

/-- **A stricter read of numbers** makes the parser fail more often, and nothing else. -/
theorem refines_procfileWrite (sz : Sizes) (buffer : List Char) :
    Refines (procfileWriteWith read sz buffer) (procfileWriteWith read' sz buffer) :=
  .ite (.refl _) <| (Refines.refl _).bind fun req =>
    (refines_parseRequest h sz req).bind fun _ => .refl _

end Refinement

private theorem refines_strtolKept (arr : List Char) :
    Fallible.Refines (strtolKept arr) (strtol arr) := by
  intro z hz
  rw [strtolKept] at hz
  split_ifs at hz
  exact hz

/-- All accesses of a `write` are inside the arrays of the source, and each number is read from an
array that still ends with a zero. -/
def MemorySafe (buffer : List Char) : Prop :=
  Safe (procfileWriteWith strtolKept procRegistrySizes buffer)

/-- What is safe in this sense ends in the source, with the same result. -/
theorem MemorySafe.procfileWrite_eq {buffer : List Char} (h : MemorySafe buffer) :
    ∃ x, procfileWriteWith strtolKept procRegistrySizes buffer = .ok x ∧
      procfileWrite procRegistrySizes buffer = .ok x := by
  obtain ⟨x, hx⟩ := h
  exact ⟨x, hx, refines_procfileWrite refines_strtolKept procRegistrySizes buffer x hx⟩

/-! ### Requests that fit -/

/-- The fields behind `stop` are found in the buffer, and are no longer than given. -/
def FieldsFit (req : List Char) : ℕ → List ℕ → Prop
  | _, [] => True
  | stop, width :: widths =>
    ∃ f stop', field ':' req (stop + 1) = .ok (f, stop') ∧ f.length ≤ width ∧
      FieldsFit req stop' widths

/-- The fields of a rule: three characters for the protocol, fifteen for an address, none for the
destination port and five for the source port. -/
def ruleWidths : List ℕ := [3, 15, 15, 0, 5]

/-- The request that a buffer of 800 bytes starts with has fields that fit. -/
def RequestFits (req : List Char) : Prop :=
  (req.head? = some 'R' →
    ∃ name stop, field ':' req 2 = .ok (name, stop) ∧ (name = [] ∨ FieldsFit req stop ruleWidths)) ∧
  (req.head? = some 'U' → ∃ f stop, field ':' req 2 = .ok (f, stop) ∧ f.length ≤ 19)

private theorem safe_field_bind {α : Type} {req : List Char} {start : ℕ}
    {g : List Char × ℕ → Except Fault α} :
    Safe (field ':' req start >>= g) ↔
      ∃ f stop, field ':' req start = .ok (f, stop) ∧ Safe (g (f, stop)) := by
  cases hfield : field ':' req start with
  | error e =>
    rw [error_bind]
    exact iff_of_false (not_safe_error e) fun ⟨f, stop, h, _⟩ => nomatch h
  | ok x =>
    rw [ok_bind]
    constructor
    · exact fun h => ⟨x.1, x.2, rfl, h⟩
    · rintro ⟨f, stop, h, hsafe⟩
      cases h
      exact hsafe

/-- A zero is left behind a field exactly if the field is shorter than the array. -/
private theorem safe_strtolKept_iff {f : List Char} (hf : nul ∉ f) (n : ℕ) :
    Safe (strtolKept (f ++ zeros (n - f.length))) ↔ f.length < n := by
  have hmem : nul ∈ f ++ zeros (n - f.length) ↔ f.length < n := by
    rw [List.mem_append, or_iff_right hf, zeros, List.mem_replicate, and_iff_left rfl]
    omega
  rw [strtolKept]
  split_ifs with h
  · exact iff_of_true (safe_strtol h) (hmem.mp h)
  · exact iff_of_false (not_safe_error _) fun hlt => h (hmem.mpr hlt)

variable {f : List Char} {n k : ℕ} {bit filterBy : UInt8}

/-- A number is copied and read, and what is cleared lies in the array. -/
private theorem safe_numberField_iff (hf : nul ∉ f) :
    Safe (numberField strtolKept (zeros n) f k bit filterBy) ↔
      f = [] ∨ f.length < n ∧ k ≤ n := by
  rw [numberField]
  split_ifs with hne
  · exact iff_of_true (safe_ok _) (.inl hne)
  · rw [or_iff_right hne]
    by_cases hle : f.length ≤ n
    · rw [memcpy_zeros hle, ok_bind, safe_bind_iff_and (P := k ≤ n),
        safe_strtolKept_iff hf]
      intro z _
      have hlen : (f ++ zeros (n - f.length)).length = n := by
        rw [List.length_append, length_zeros]
        omega
      rw [clear, hlen]
      split_ifs with hk
      · exact iff_of_true (safe_ok _) hk
      · exact iff_of_false (not_safe_error _) hk
    · rw [memcpy, length_zeros, if_neg hle, error_bind]
      exact iff_of_false (not_safe_error _) fun h => hle (le_of_lt h.1)

/-- Where the whole array is cleared, or nothing was written, the array has zeros. -/
private theorem zeros_of_numberField {arr : List Char} {z : ℤ} {filterBy' : UInt8}
    (h : numberField strtolKept (zeros n) f k bit filterBy = .ok (z, arr, filterBy'))
    (hk : f = [] ∨ k = n) : arr = zeros n := by
  rw [numberField] at h
  split_ifs at h with hne
  · cases h
    rfl
  · obtain rfl := hk.resolve_left hne
    obtain ⟨arr₁, harr₁, h⟩ := bind_eq_ok.mp h
    obtain ⟨z', -, h⟩ := bind_eq_ok.mp h
    obtain ⟨arr₂, harr₂, h⟩ := bind_eq_ok.mp h
    cases h
    have hle : f.length ≤ k := by
      rw [memcpy, length_zeros] at harr₁
      split_ifs at harr₁ with hle
      exact hle
    rw [memcpy_zeros hle] at harr₁
    cases harr₁
    rw [clear_memcpy hle le_rfl] at harr₂
    cases harr₂
    rfl

/-- The longest field that an array takes: one character less than it has, and none at all if more
is cleared than it has. -/
private def width (n k : ℕ) : ℕ := if k ≤ n then n - 1 else 0

private theorem le_width_iff (hn : 0 < n) :
    f.length ≤ width n k ↔ f = [] ∨ f.length < n ∧ k ≤ n := by
  rw [width, ← List.length_eq_zero_iff]
  split_ifs with hk
  · omega
  · omega

/-- One field of a rule: it is found, it is no longer than its array allows, and what follows is
safe. -/
private theorem safe_field_number {α : Type} {req : List Char} {stop : ℕ} {widths : List ℕ}
    {g : List Char × ℕ → ℤ × List Char × UInt8 → Except Fault α} (hn : 0 < n)
    (hg : ∀ x y, x.1.length ≤ width n k →
      numberField strtolKept (zeros n) x.1 k bit filterBy = .ok y →
      (Safe (g x y) ↔ FieldsFit req x.2 widths)) :
    Safe (field ':' req (stop + 1) >>= fun x =>
        numberField strtolKept (zeros n) x.1 k bit filterBy >>= g x) ↔
      FieldsFit req stop (width n k :: widths) := by
  rw [safe_field_bind, FieldsFit]
  refine exists_congr fun f => exists_congr fun stop' => and_congr_right fun hfield => ?_
  have hiff : Safe (numberField strtolKept (zeros n) f k bit filterBy) ↔
      f.length ≤ width n k := by
    rw [le_width_iff hn]
    exact safe_numberField_iff (nul_notMem_of_field hfield)
  rw [safe_bind_iff_and fun y hy => hg (f, stop') y (hiff.mp ⟨y, hy⟩) hy, hiff]

private theorem safe_parseRule_iff (req : List Char) :
    Safe (parseRule strtolKept procRegistrySizes req) ↔
      ∃ name stop, field ':' req 2 = .ok (name, stop) ∧
        (name = [] ∨ FieldsFit req stop ruleWidths) := by
  rw [parseRule, safe_field_bind]
  refine exists_congr fun name => exists_congr fun stop => and_congr_right fun hname => ?_
  dsimp only
  by_cases hne : name = []
  · rw [if_pos hne]
    exact iff_of_true (safe_ok none) (.inl hne)
  rw [if_neg hne, or_iff_right hne]
  change _ ↔ FieldsFit req stop [width 4 0, width 16 16, width 16 0, width 6 7, width 6 0]
  refine safe_field_number (n := 4) (by decide) fun x y _ _ => ?_
  refine safe_field_number (n := 16) (by decide) fun x y hx hy => ?_
  -- all of `addr_s` is cleared between the two addresses
  rw [zeros_of_numberField hy (.inr rfl)]
  refine safe_field_number (n := 16) (by decide) fun x y _ _ => ?_
  refine safe_field_number (n := 6) (by decide) fun x y hx hy => ?_
  -- seven bytes of `port_s` would be cleared, which has six: there was no destination port
  rw [zeros_of_numberField hy (.inl (List.length_eq_zero_iff.mp (Nat.le_zero.mp hx)))]
  refine safe_field_number (n := 6) (by decide) fun x y _ _ => ?_
  exact iff_of_true (safe_ok _) trivial

private theorem safe_parseRuleId_iff (req : List Char) :
    Safe (parseRuleId strtolKept procRegistrySizes req) ↔
      ∃ f stop, field ':' req 2 = .ok (f, stop) ∧ f.length ≤ 19 := by
  rw [parseRuleId, safe_field_bind]
  refine exists_congr fun f => exists_congr fun stop => and_congr_right fun hfield => ?_
  dsimp only
  by_cases hne : f = []
  · rw [if_pos hne, hne]
    exact iff_of_true (safe_ok none) (Nat.zero_le 19)
  rw [if_neg hne]
  by_cases hle : f.length ≤ procRegistrySizes.ruleid
  · rw [memcpy_zeros hle, ok_bind]
    refine safe_bind_ok.trans ((safe_strtolKept_iff (nul_notMem_of_field hfield) _).trans ?_)
    exact Nat.lt_succ_iff
  · rw [memcpy, length_zeros, if_neg hle, error_bind]
    refine iff_of_false (not_safe_error _) fun h => hle ?_
    exact le_trans h (by decide)

private theorem safe_parseRequest_iff {req : List Char} (hreq : req ≠ []) :
    Safe (parseRequestWith strtolKept procRegistrySizes req) ↔ RequestFits req := by
  obtain ⟨c, cs, rfl⟩ := List.exists_cons_of_ne_nil hreq
  rw [parseRequestWith, RequestFits, List.head?_cons, Option.some.injEq, Option.some.injEq]
  split_ifs with hR hU
  · rw [safe_parseRule_iff]
    have hU : c ≠ 'U' := by
      rw [hR]
      decide
    exact ⟨fun h => ⟨fun _ => h, fun hc => absurd hc hU⟩, fun h => h.1 hR⟩
  · rw [safe_parseRuleId_iff]
    exact ⟨fun h => ⟨fun hc => absurd hc hR, fun _ => h⟩, fun h => h.2 hU⟩
  · exact iff_of_true (safe_ok none) ⟨fun hc => absurd hc hR, fun hc => absurd hc hU⟩

/-- **A request is handled safely** exactly if each field that is looked for is found in the buffer
and is no longer than the array that it goes to allows. -/
theorem memorySafe_iff {buffer : List Char} (h : buffer.length ≤ maxRegistryLine) :
    MemorySafe buffer ↔ RequestFits (buffer ++ zeros (maxRegistryLine - buffer.length)) := by
  have hne : buffer ++ zeros (maxRegistryLine - buffer.length) ≠ [] := by
    intro hnil
    have hlen := congrArg List.length hnil
    rw [List.length_append, length_zeros, Nat.add_sub_cancel' h] at hlen
    exact absurd hlen (by decide)
  rw [MemorySafe, procfileWriteWith, if_neg (Nat.not_lt.mpr h), memcpy_zeros h, ok_bind,
    ← safe_parseRequest_iff hne]
  exact safe_bind_ok

/-- A rule for the protocol and a source port. -/
theorem memorySafe_mkrule :
    "R:aggregation:17::::57843".toList.length ≤ maxRegistryLine ∧
      MemorySafe "R:aggregation:17::::57843".toList := by
  have hlen : "R:aggregation:17::::57843".toList.length ≤ maxRegistryLine := by decide
  refine ⟨hlen, (memorySafe_iff hlen).mpr ⟨fun _ => ?_, fun h => absurd h (by decide)⟩⟩
  exact ⟨"aggregation".toList, 13, rfl, .inr ⟨"17".toList, 16, rfl, by decide, [], 17, rfl,
    by decide, [], 18, rfl, by decide, [], 19, rfl, by decide, "57843".toList, 25, rfl, by decide,
    trivial⟩⟩

/-- **Three ways out of the arrays**: any destination port clears one byte too many, a source port
of six digits leaves no zero in `port_s`, and 800 bytes without a zero are read beyond. -/
theorem parser_leaves_arrays :
    procfileWrite procRegistrySizes "R:aggregation::::9:".toList = .error (.write 0 7) ∧
      ¬ MemorySafe "R:aggregation::::9:".toList ∧
      ¬ MemorySafe "R:aggregation:::::123456".toList ∧
      procfileWrite procRegistrySizes (List.replicate 800 'R') = .error (.read 800 1) ∧
      ¬ MemorySafe (List.replicate 800 'R') := by
  have hunsafe : ∀ {buffer : List Char} {e : Fault},
      procfileWriteWith strtolKept procRegistrySizes buffer = .error e → ¬ MemorySafe buffer := by
    intro buffer e h
    rw [MemorySafe, h]
    exact not_safe_error e
  exact ⟨by decide +kernel, hunsafe (e := .write 0 7) (by decide +kernel),
    hunsafe (e := .read 6 1) (by decide +kernel), by decide +kernel,
    hunsafe (e := .read 800 1) (by decide +kernel)⟩

end MiaVita.Framework
