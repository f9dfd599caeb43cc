import MiaVita.Rt2501.FilterTable

/-!
# Writing to `/proc/synch_filters` (`rt2501`, `proc_filters.c`)

What is written to the file is a command: `R`, a byte, and a `filter` of 16 bytes, which is added to
the table; or `U`, a byte, and the index of a filter, which is removed. `procfile_write` copies it
to an array of 18 bytes on the stack first and looks at it then.

Of the format it tests little. The copy has the length that the user gives, whatever the size of the
array. The length of `R` is tested, that of `U` is not: if no index was written, it is the zero that
the array was initialised with, so that a lone `U` removes the first filter. And a command that is
not known is answered as if it had been carried out.

`procfile_write_exact_iff` says for which commands the file does what it should, given what the
table can do (`Handles`).
-/

namespace MiaVita.Rt2501

open Bytes Memory Fallible

/-! ### The source -/

/-- `sizeof(filter)`. -/
abbrev sizeofFilter : ℕ := 16

/-- `EINVAL`. -/
def einval : ℤ := 22

/-- The table, and the bytes of the filters that it points to. -/
structure Filters where
  table : Table
  blocks : UInt32 → List UInt8

/-- `procfile_write`, where `kmalloc` returns `f`: the filters, and the value that is returned. -/
def Filters.procfileWrite (s : Filters) (f : UInt32) (buffer : List UInt8) :
    Except Fault (Filters × ℤ) := do
  let internalBuffer ← store (List.replicate (2 + sizeofFilter) 0) 0 buffer
  let count := buffer.length
  if internalBuffer[0]?.getD 0 = 0x52 then -- 'R'
    if ((count : ℤ) - 2) % 2 ^ 32 ≠ sizeofFilter then return (s, -einval)
    else if f = 0 then return (s, 0)
    else do
      let table ← Rt2501.procfileWrite s.table (.register f)
      let blocks := Function.update s.blocks f (slice internalBuffer 2 sizeofFilter)
      return (⟨table, blocks⟩, count)
  else if internalBuffer[0]?.getD 0 = 0x55 then -- 'U'
    let i := internalBuffer[2]?.getD 0
    if i ≥ s.table.nfilters then return (s, -einval)
    else do
      let table ← Rt2501.procfileWrite s.table (.unregister i)
      return ({ s with table }, count)
  else return (s, count)

/-! ### What the file should do -/

/-- A command. -/
inductive Command where
  | register (filter : List UInt8)
  | unregister (index : UInt8)

/-- **The format**, with `n` filters in the table. -/
def command? (n : ℕ) (buffer : List UInt8) : Option Command :=
  if buffer[0]? = some 0x52 ∧ buffer.length = 2 + sizeofFilter then
    some (.register (buffer.drop 2))
  else if buffer[0]? = some 0x55 ∧ buffer.length = 3 ∧ (buffer[2]?.getD 0).toNat < n then
    some (.unregister (buffer[2]?.getD 0))
  else none

/-- **The answer** that a command should get: it is carried out, or there is no memory for the
filter; what is no command is rejected, and the table stays. -/
def Answers (s : Filters) (f : UInt32) (out : Filters × ℤ) : Option Command → Prop
  | some (.register filter) =>
    if f = 0 then out.1 = s
    else 0 ≤ out.2 ∧ out.1.table.filters = s.table.filters ++ [f] ∧ out.1.blocks f = filter
  | some (.unregister index) =>
    0 ≤ out.2 ∧ out.1.table.filters = s.table.filters.eraseIdx index.toNat
  | none => out.2 < 0 ∧ out.1 = s

/-- What the code can do: a filter is added to less than 255, and removed as `unregister_filter` can
remove it; of what is no command only `R` is noticed, and `U` with an index, or a zero in its place,
that is out of range. -/
def Carried (t : Table) (f : UInt32) (buffer : List UInt8) : Option Command → Prop
  | some (.register _) => f ≠ 0 → t.live.length < 255
  | some (.unregister index) => Handles t (.unregister index)
  | none => buffer[0]? = some 0x52 ∨
      buffer[0]? = some 0x55 ∧ t.live.length ≤ (buffer[2]?.getD 0).toNat

/-! ### One command -/

/-- What is behind the copied bytes are zeros. -/
private theorem getD_patch_replicate {n : ℕ} {buffer : List UInt8} (h : buffer.length ≤ n) (k : ℕ) :
    (patch (List.replicate n 0) 0 buffer)[k]?.getD 0 = buffer[k]?.getD 0 := by
  rw [getElem?_patch (by rwa [Nat.zero_add, List.length_replicate]), if_neg (Nat.not_lt_zero k),
    Nat.zero_add, Nat.sub_zero]
  split_ifs with hk
  · rfl
  · rw [List.getElem?_eq_none (Nat.le_of_not_lt hk), List.getElem?_replicate]
    split_ifs <;> rfl

/-- The first byte is no zero that stands for a missing one. -/
private theorem getD_eq_iff {buffer : List UInt8} {k : ℕ} {c : UInt8} (hc : c ≠ 0) :
    buffer[k]?.getD 0 = c ↔ buffer[k]? = some c := by
  cases buffer[k]? with
  | none => exact iff_of_false (Ne.symm hc) nofun
  | some x => simp

namespace Filters

variable {s : Filters} {f : UInt32} {buffer : List UInt8}

/-- A command that is too long leaves the array. -/
private theorem procfileWrite_long (s : Filters) (f : UInt32)
    (h : ¬ buffer.length ≤ 2 + sizeofFilter) :
    s.procfileWrite f buffer = .error (.write 0 buffer.length) := by
  rw [Filters.procfileWrite, store, if_neg (by rwa [Nat.zero_add, List.length_replicate])]
  rfl

/-- What is done with the others, for a table that is a list of filters. -/
def reply (s : Filters) (f : UInt32) (buffer : List UInt8) : Filters × ℤ :=
  if buffer[0]? = some 0x52 then
    if buffer.length ≠ 2 + sizeofFilter then (s, -einval)
    else if f = 0 then (s, 0)
    else (⟨Table.Sound.added s.table f, Function.update s.blocks f (buffer.drop 2)⟩, buffer.length)
  else if buffer[0]? = some 0x55 then
    if s.table.live.length ≤ (buffer[2]?.getD 0).toNat then (s, -einval)
    else (⟨Table.Sound.removed s.table (buffer[2]?.getD 0).toNat, s.blocks⟩, buffer.length)
  else (s, buffer.length)

theorem procfileWrite_eq (hs : s.table.Sound) (f : UInt32)
    (h : buffer.length ≤ 2 + sizeofFilter) :
    s.procfileWrite f buffer = .ok (s.reply f buffer) := by
  have hcopy : store (List.replicate (2 + sizeofFilter) 0) 0 buffer =
      .ok (patch (List.replicate (2 + sizeofFilter) 0) 0 buffer) :=
    store_eq (by rwa [Nat.zero_add, List.length_replicate])
  have hcount : (((buffer.length : ℤ) - 2) % 2 ^ 32 ≠ (sizeofFilter : ℤ)) ↔
      buffer.length ≠ 2 + sizeofFilter := by
    have hle : buffer.length ≤ 18 := h
    change _ ≠ (16 : ℤ) ↔ _ ≠ 18
    omega
  have hge : (buffer[2]?.getD 0 ≥ s.table.nfilters) ↔
      s.table.live.length ≤ (buffer[2]?.getD 0).toNat := by
    rw [ge_iff_le, UInt8.le_iff_toNat_le, hs.nfilters_eq]
  rw [Filters.procfileWrite, hcopy, ok_bind, reply]
  simp only [getD_patch_replicate h, getD_eq_iff (by decide : (0x52 : UInt8) ≠ 0),
    getD_eq_iff (by decide : (0x55 : UInt8) ≠ 0), hcount, hge]
  split_ifs with hR hlen hf hU hi
  · rfl
  · rfl
  · have hlen : buffer.length = 2 + sizeofFilter := not_not.mp hlen
    rw [hs.procfileWrite_register, patch_zero_of_length_eq (by rw [hlen, List.length_replicate])]
    have hslice : slice buffer 2 sizeofFilter = buffer.drop 2 :=
      List.take_of_length_le (by rw [List.length_drop]; omega)
    rw [hslice]
    rfl
  · rfl
  · rw [hs.procfileWrite_unregister (Nat.lt_of_not_le hi)]
    rfl
  · rfl

/-- The table with a filter more lists it at its end, unless the counter wraps around. -/
private theorem filters_added_iff {t : Table} (h : t.Sound) (f : UInt32) :
    (Table.Sound.added t f).filters = t.filters ++ [f] ↔ t.live.length < 255 := by
  rw [← h.correct_added_iff f, Table.correct_iff_filters_eq (h.heap_added f), h.filters_eq]
  rfl

private theorem filters_removed_iff {t : Table} (h : t.Sound) {index : UInt8}
    (hi : index.toNat < t.live.length) :
    (Table.Sound.removed t index.toNat).filters = t.filters.eraseIdx index.toNat ↔
      Handles t (.unregister index) := by
  rw [Handles, forall_prop_of_true hi, ← h.correct_removed_iff hi,
    Table.correct_iff_filters_eq rfl, h.filters_eq]
  rfl

end Filters

/-! ### The three kinds of bytes -/

section Kinds

variable {n : ℕ} {s s' : Filters} {f : UInt32} {buffer : List UInt8}

private theorem command?_register (hR : buffer[0]? = some 0x52)
    (hlen : buffer.length = 2 + sizeofFilter) :
    command? n buffer = some (.register (buffer.drop 2)) := if_pos ⟨hR, hlen⟩

private theorem command?_unregister (hU : buffer[0]? = some 0x55) (hlen : buffer.length = 3)
    (hi : (buffer[2]?.getD 0).toNat < n) :
    command? n buffer = some (.unregister (buffer[2]?.getD 0)) := by
  rw [command?, if_neg fun h => absurd (hU.symm.trans h.1) (by decide), if_pos ⟨hU, hlen, hi⟩]

private theorem command?_none (hR : ¬ (buffer[0]? = some 0x52 ∧ buffer.length = 2 + sizeofFilter))
    (hU : ¬ (buffer[0]? = some 0x55 ∧ buffer.length = 3 ∧ (buffer[2]?.getD 0).toNat < n)) :
    command? n buffer = none := by
  rw [command?, if_neg hR, if_neg hU]

/-- An error is the right answer to what is no command. -/
private theorem answers_einval : Answers s f (s, -einval) none := ⟨(by decide : -einval < 0), rfl⟩

/-- A count of bytes is not. -/
private theorem not_answers_count (count : ℕ) : ¬ Answers s f (s', count) none := fun h =>
  (Int.natCast_nonneg count).not_gt h.1

/-- What starts with `R`. -/
private theorem answers_reply_of_R (hs : s.table.Sound) (hR : buffer[0]? = some 0x52) :
    Answers s f (s.reply f buffer) (command? s.table.live.length buffer) ↔
      Carried s.table f buffer (command? s.table.live.length buffer) := by
  rw [Filters.reply, if_pos hR]
  by_cases hlen : buffer.length = 2 + sizeofFilter
  · rw [command?_register hR hlen, if_neg (not_not.mpr hlen), Answers, Carried]
    by_cases hf : f = 0
    · rw [if_pos hf, if_pos hf]
      exact iff_of_true rfl fun h => absurd hf h
    · rw [if_neg hf, if_neg hf, forall_prop_of_true hf, ← Filters.filters_added_iff hs f]
      refine ⟨fun h => h.2.1, fun h => ⟨Int.natCast_nonneg _, h, ?_⟩⟩
      exact Function.update_self f _ s.blocks
  · have hU : ¬ buffer[0]? = some 0x55 := fun h => absurd (hR.symm.trans h) (by decide)
    rw [command?_none (fun h => hlen h.2) (fun h => hU h.1), if_pos hlen]
    exact iff_of_true answers_einval (.inl hR)

/-- What starts with `U`: the index is tested, the length is not. -/
private theorem answers_reply_of_U (hs : s.table.Sound) (hU : buffer[0]? = some 0x55) :
    Answers s f (s.reply f buffer) (command? s.table.live.length buffer) ↔
      Carried s.table f buffer (command? s.table.live.length buffer) := by
  have hR : ¬ buffer[0]? = some 0x52 := fun h => absurd (hU.symm.trans h) (by decide)
  rw [Filters.reply, if_neg hR, if_pos hU]
  by_cases hi : s.table.live.length ≤ (buffer[2]?.getD 0).toNat
  · rw [command?_none (fun h => hR h.1) (fun h => hi.not_gt h.2.2), if_pos hi]
    exact iff_of_true answers_einval (.inr ⟨hU, hi⟩)
  · have hlt := Nat.lt_of_not_le hi
    rw [if_neg hi]
    by_cases hlen : buffer.length = 3
    · rw [command?_unregister hU hlen hlt, Answers, Carried, ← Filters.filters_removed_iff hs hlt]
      exact and_iff_right (Int.natCast_nonneg _)
    · -- the filter is removed all the same
      rw [command?_none (fun h => hR h.1) (fun h => hlen h.2.1)]
      exact iff_of_false (not_answers_count _) fun h => h.elim hR fun h => hi h.2

/-- What starts with anything else is not noticed. -/
private theorem answers_reply_of_ne (hR : ¬ buffer[0]? = some 0x52)
    (hU : ¬ buffer[0]? = some 0x55) :
    Answers s f (s.reply f buffer) (command? s.table.live.length buffer) ↔
      Carried s.table f buffer (command? s.table.live.length buffer) := by
  rw [Filters.reply, if_neg hR, if_neg hU, command?_none (fun h => hR h.1) (fun h => hU h.1)]
  exact iff_of_false (not_answers_count _) fun h => h.elim hR fun h => hU h.1

end Kinds

/-- **The file does what it should**, exactly where the command is not too long and the code can
carry it out. For any table of filters, any bytes that are written and any block that `kmalloc`
returns: no write leaves the array; a filter is added for `R`, a byte and 16 bytes, and removed for
`U`, a byte and the index of one; everything else is rejected, and changes nothing. This holds if
and only if there are at most 18 bytes, and: for a registration there are less than 255 filters; for
a removal the filter is the last one, or the one before it and the two pointers differ in the lowest
byte only; and what is no command starts with `R`, or with `U` and the third byte, or the zero in
its place, is not the index of a filter. -/
theorem procfile_write_exact_iff (s : Filters) (hs : s.table.Sound) (f : UInt32)
    (buffer : List UInt8) :
    (∃ out, s.procfileWrite f buffer = .ok out ∧
        Answers s f out (command? s.table.live.length buffer)) ↔
      buffer.length ≤ 2 + sizeofFilter ∧
        Carried s.table f buffer (command? s.table.live.length buffer) := by
  by_cases hlong : buffer.length ≤ 2 + sizeofFilter
  · rw [Filters.procfileWrite_eq hs f hlong, and_iff_right hlong]
    simp only [Except.ok.injEq, exists_eq_left']
    by_cases hR : buffer[0]? = some 0x52
    · exact answers_reply_of_R hs hR
    by_cases hU : buffer[0]? = some 0x55
    · exact answers_reply_of_U hs hU
    · exact answers_reply_of_ne hR hU
  · refine iff_of_false ?_ fun h => hlong h.1
    rintro ⟨out, hout, -⟩
    rw [Filters.procfileWrite_long s f hlong] at hout
    cases hout

/-- No filters. -/
def noFilters : Filters := ⟨initTable, fun _ => []⟩

/-- A filter of zeros, at 0x1000. -/
def oneFilter : Filters :=
  ⟨Table.Sound.added initTable 0x1000,
    Function.update noFilters.blocks 0x1000 (List.replicate sizeofFilter 0)⟩

/-- The first filter is added. -/
theorem procfile_write_exact_first :
    ∃ out, noFilters.procfileWrite 0x1000 (0x52 :: 0x3a :: List.replicate sizeofFilter 0) =
        .ok out ∧
      Answers noFilters 0x1000 out (some (.register (List.replicate sizeofFilter 0))) :=
  (procfile_write_exact_iff noFilters sound_initTable 0x1000
    (0x52 :: 0x3a :: List.replicate sizeofFilter 0)).mpr ⟨by decide, fun _ => by decide⟩

/-- **Three commands that are none**: a byte too many is written behind the array, a lone `U`
removes the first filter, and `X` is reported as written. -/
theorem procfile_write_lenient :
    noFilters.procfileWrite 0x1000 (0x52 :: 0x3a :: List.replicate (sizeofFilter + 1) 0) =
        .error (.write 0 19) ∧
      (oneFilter.table.filters = [0x1000] ∧
        (oneFilter.procfileWrite 0 [0x55]).map (fun out => (out.1.table.filters, out.2)) =
          .ok ([], 1)) ∧
      (noFilters.procfileWrite 0 [0x58]).map Prod.snd = .ok 1 :=
  ⟨Filters.procfileWrite_long noFilters 0x1000 (by decide),
    ⟨by decide +kernel, by decide +kernel⟩, by decide +kernel⟩

end MiaVita.Rt2501
