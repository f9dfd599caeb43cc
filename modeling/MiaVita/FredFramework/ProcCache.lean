import MiaVita.FredFramework.KList
import MiaVita.Lib.Bytes
import MiaVita.Lib.CText
import MiaVita.Lib.Fallible

/-!
# The cache of the list (`fred_framework`, `proc_entry.c`)

The text of `/proc/interceptor_list` is kept in a buffer. It is put together block by block; in
front of most blocks the code asks whether so many bytes are left, and if not, takes a buffer twice
as large. The old one is freed without its contents having been copied, so that what was written so
far is lost. An append that does not fit is a write behind the buffer.

`Cache.fillBlocks_iff` says what is left of it: blocks are found behind a text exactly if as many
bytes are left as they ask for, `room`.
-/

namespace MiaVita.Framework

open CText Bytes Fallible

/-- What stops a read of the file. -/
inductive ProcFault where
  | crash (c : Crash)
  /-- An access outside of an array. -/
  | buffer (f : Memory.Fault)

/-- `proc_file_contents_cache`, without the mark `dirty` (`Manager.dirty`). -/
structure Cache where
  bufferSize : ℕ
  bufferOffset : ℕ
  fileBuffer : List Char

/-- What is appended after one question for room: the bytes that are asked for, and the pieces. -/
structure Block where
  need : ℕ
  pieces : List (List Char)

/-- What a block appends. -/
def Block.text (b : Block) : List Char := b.pieces.flatten

namespace Cache

/-- `realloc_proc_contents`. A buffer that `kmalloc` has room for is far from `2 ^ 32` bytes. -/
def reallocProcContents (c : Cache) : Cache :=
  { c with bufferSize := 2 * c.bufferSize, fileBuffer := zeros (2 * c.bufferSize) }

/-- `if (proc_contents.buffer_size - proc_contents.buffer_offset < need) realloc_proc_contents();`
No append leaves the offset behind the end, so that the difference is never negative. -/
def reserve (c : Cache) (need : ℕ) : Cache :=
  if c.bufferSize - c.bufferOffset < need then c.reallocProcContents else c

/-- `append_to_buffer`. -/
def appendToBuffer (c : Cache) (buff : List Char) : Except ProcFault Cache :=
  if c.bufferOffset + buff.length ≤ c.fileBuffer.length then
    .ok { c with
      fileBuffer := patch c.fileBuffer c.bufferOffset buff
      bufferOffset := c.bufferOffset + buff.length }
  else .error (.buffer (.write c.bufferOffset buff.length))

/-- The pieces of a block, one after the other. -/
def fillBlock (c : Cache) (b : Block) : Except ProcFault Cache :=
  b.pieces.foldlM appendToBuffer (c.reserve b.need)

/-- `file_buffer[0..buffer_offset)`. -/
def text (c : Cache) : List Char := c.fileBuffer.take c.bufferOffset

end Cache

/-- The bytes that have to be left for some blocks, one after the other. -/
def room : List Block → ℕ
  | [] => 0
  | b :: bs => max b.need (b.text.length + room bs)

namespace Cache

variable {c c' : Cache} {t p : List Char} {b : Block} {bs : List Block}

/-! ### The offset -/

/-- The buffer has the size that is noted, and the offset is not behind it. -/
structure Sound (c : Cache) : Prop where
  size : c.fileBuffer.length = c.bufferSize
  offset : c.bufferOffset ≤ c.bufferSize

theorem Sound.reserve (h : c.Sound) (need : ℕ) :
    (c.reserve need).Sound ∧ (c.reserve need).bufferOffset = c.bufferOffset := by
  rw [Cache.reserve]
  split_ifs
  · refine ⟨⟨length_zeros _, ?_⟩, rfl⟩
    have hle := h.offset
    change c.bufferOffset ≤ 2 * c.bufferSize
    omega
  · exact ⟨h, rfl⟩

theorem Sound.append (h : c.Sound) (hc' : c.appendToBuffer p = .ok c') :
    c'.Sound ∧ c'.bufferOffset = c.bufferOffset + p.length ∧ c'.bufferSize = c.bufferSize := by
  rw [appendToBuffer] at hc'
  split_ifs at hc' with hfits
  cases hc'
  refine ⟨⟨?_, ?_⟩, rfl, rfl⟩
  · exact (length_patch hfits).trans h.size
  · exact h.size ▸ hfits

private theorem Sound.appendAll (h : c.Sound) {ps : List (List Char)}
    (hc' : ps.foldlM appendToBuffer c = .ok c') :
    c'.Sound ∧ c'.bufferOffset = c.bufferOffset + ps.flatten.length ∧
      c'.bufferSize = c.bufferSize := by
  induction ps generalizing c with
  | nil =>
    cases hc'
    exact ⟨h, rfl, rfl⟩
  | cons p ps ih =>
    rw [List.foldlM_cons] at hc'
    obtain ⟨c₁, hc₁, hc'⟩ := bind_eq_ok.mp hc'
    obtain ⟨h₁, hoffset₁, hsize₁⟩ := h.append hc₁
    obtain ⟨h', hoffset, hsize⟩ := ih h₁ hc'
    rw [List.flatten_cons, List.length_append]
    exact ⟨h', by omega, hsize.trans hsize₁⟩

/-- **The offset counts what is appended**, whatever becomes of it. -/
theorem Sound.fillBlocks (h : c.Sound) (hc' : bs.foldlM fillBlock c = .ok c') :
    c'.Sound ∧ c'.bufferOffset = c.bufferOffset + (bs.flatMap Block.text).length := by
  induction bs generalizing c with
  | nil =>
    cases hc'
    exact ⟨h, rfl⟩
  | cons b bs ih =>
    rw [List.foldlM_cons] at hc'
    obtain ⟨c₁, hc₁, hc'⟩ := bind_eq_ok.mp hc'
    obtain ⟨hreserve, hsame⟩ := h.reserve b.need
    obtain ⟨h₁, hoffset₁, -⟩ := hreserve.appendAll hc₁
    obtain ⟨h', hoffset⟩ := ih h₁ hc'
    rw [List.flatMap_cons, List.length_append, Block.text]
    exact ⟨h', by omega⟩

/-! ### A buffer that was lost -/

/-- The buffer has been replaced after something was written. -/
structure Lost (c : Cache) : Prop extends c.Sound where
  first : c.fileBuffer.head? = some nul
  written : 0 < c.bufferOffset

private theorem Lost.head?_text (h : c.Lost) : c.text.head? = some nul := by
  rw [text, List.head?_take, if_neg (Nat.ne_of_gt h.written), h.first]

private theorem lost_reallocProcContents (h : c.Sound) (hwritten : 0 < c.bufferOffset) :
    c.reallocProcContents.Lost := by
  have hle := h.offset
  refine ⟨⟨length_zeros _, ?_⟩, ?_, hwritten⟩
  · change c.bufferOffset ≤ 2 * c.bufferSize
    omega
  · change (zeros (2 * c.bufferSize)).head? = some nul
    rw [zeros_of_pos (by omega), List.head?_cons]

private theorem Lost.reserve (h : c.Lost) (need : ℕ) : (c.reserve need).Lost := by
  rw [Cache.reserve]
  split_ifs
  · exact lost_reallocProcContents h.toSound h.written
  · exact h

private theorem Lost.append (h : c.Lost) (hc' : c.appendToBuffer p = .ok c') : c'.Lost := by
  have hsound := h.toSound.append hc'
  rw [appendToBuffer] at hc'
  split_ifs at hc' with hfits
  cases hc'
  refine ⟨hsound.1, ?_, Nat.add_pos_left h.written _⟩
  have hfirst := h.first
  rw [List.head?_eq_getElem?] at hfirst ⊢
  rw [getElem?_patch hfits, if_pos h.written, hfirst]

private theorem Lost.appendAll (h : c.Lost) {ps : List (List Char)}
    (hc' : ps.foldlM appendToBuffer c = .ok c') : c'.Lost := by
  induction ps generalizing c with
  | nil =>
    cases hc'
    exact h
  | cons p ps ih =>
    rw [List.foldlM_cons] at hc'
    obtain ⟨c₁, hc₁, hc'⟩ := bind_eq_ok.mp hc'
    exact ih (h.append hc₁) hc'

private theorem Lost.fillBlocks (h : c.Lost) (hc' : bs.foldlM fillBlock c = .ok c') : c'.Lost := by
  induction bs generalizing c with
  | nil =>
    cases hc'
    exact h
  | cons b bs ih =>
    rw [List.foldlM_cons] at hc'
    obtain ⟨c₁, hc₁, hc'⟩ := bind_eq_ok.mp hc'
    exact ih ((h.reserve b.need).appendAll hc₁) hc'

/-! ### A buffer that is kept -/

/-- The buffer holds the text `t`, and zeros behind it. -/
structure Holds (c : Cache) (t : List Char) : Prop where
  buffer : c.fileBuffer = t ++ zeros (c.bufferSize - t.length)
  offset : c.bufferOffset = t.length
  fits : t.length ≤ c.bufferSize

theorem Holds.sound (h : c.Holds t) : c.Sound := by
  refine ⟨?_, h.offset ▸ h.fits⟩
  have hle := h.fits
  rw [h.buffer, List.length_append, length_zeros]
  omega

theorem Holds.text_eq (h : c.Holds t) : c.text = t := by
  rw [text, h.buffer, h.offset, List.take_left]

/-- **One append.** -/
theorem Holds.append (h : c.Holds t) {p : List Char} (hp : t.length + p.length ≤ c.bufferSize) :
    ∃ c', c.appendToBuffer p = .ok c' ∧ c'.Holds (t ++ p) ∧ c'.bufferSize = c.bufferSize := by
  refine ⟨⟨c.bufferSize, c.bufferOffset + p.length, patch c.fileBuffer c.bufferOffset p⟩, ?_,
    ⟨?_, ?_, ?_⟩, rfl⟩
  · rw [appendToBuffer, if_pos (by rwa [h.offset, h.sound.size])]
  · change patch c.fileBuffer c.bufferOffset p = t ++ p ++ zeros (c.bufferSize - (t ++ p).length)
    rw [patch, h.buffer, h.offset, List.take_left, List.drop_append, List.drop_eq_nil_of_le
      (Nat.le_add_right _ _), Nat.add_sub_cancel_left, List.nil_append, zeros, List.drop_replicate,
      List.length_append, Nat.sub_sub, zeros]
  · change c.bufferOffset + p.length = (t ++ p).length
    rw [h.offset, List.length_append]
  · rwa [List.length_append]

private theorem Holds.appendAll (h : c.Holds t) (ps : List (List Char))
    (hps : t.length + ps.flatten.length ≤ c.bufferSize) :
    ∃ c', ps.foldlM appendToBuffer c = .ok c' ∧ c'.Holds (t ++ ps.flatten) ∧
      c'.bufferSize = c.bufferSize := by
  induction ps generalizing c t with
  | nil => exact ⟨c, rfl, by rwa [List.flatten_nil, List.append_nil], rfl⟩
  | cons p ps ih =>
    rw [List.flatten_cons, List.length_append] at hps
    obtain ⟨c₁, hc₁, h₁, hsize₁⟩ := h.append (show t.length + p.length ≤ c.bufferSize by omega)
    obtain ⟨c', hc', h', hsize⟩ := ih h₁ (by rw [List.length_append, hsize₁]; omega)
    refine ⟨c', ?_, ?_, hsize.trans hsize₁⟩
    · rw [List.foldlM_cons, hc₁]
      exact hc'
    · rwa [List.flatten_cons, ← List.append_assoc]

/-- **Blocks that have room.** -/
theorem Holds.fillBlocks (h : c.Holds t) (hbs : t.length + room bs ≤ c.bufferSize) :
    ∃ c', bs.foldlM fillBlock c = .ok c' ∧ c'.Holds (t ++ bs.flatMap Block.text) ∧
      c'.bufferSize = c.bufferSize := by
  induction bs generalizing c t with
  | nil => exact ⟨c, rfl, by rwa [List.flatMap_nil, List.append_nil], rfl⟩
  | cons b bs ih =>
    rw [room, Block.text] at hbs
    have hreserve : c.reserve b.need = c := if_neg (by rw [h.offset]; omega)
    obtain ⟨c₁, hc₁, h₁, hsize₁⟩ := h.appendAll b.pieces (by omega)
    obtain ⟨c', hc', h', hsize⟩ := ih h₁ (by rw [List.length_append, hsize₁]; omega)
    refine ⟨c', ?_, ?_, hsize.trans hsize₁⟩
    · rw [List.foldlM_cons, fillBlock, hreserve, hc₁]
      exact hc'
    · rwa [List.flatMap_cons, Block.text, ← List.append_assoc]

/-- **Blocks are found behind a text exactly if they have room.** -/
theorem fillBlocks_iff (h : c.Holds t) {x : Char} (hx : t.head? = some x) (hnul : x ≠ nul) :
    (∃ c', bs.foldlM fillBlock c = .ok c' ∧ c'.text = t ++ bs.flatMap Block.text) ↔
      t.length + room bs ≤ c.bufferSize := by
  constructor
  · rintro ⟨c', hc', htext⟩
    induction bs generalizing c t with
    | nil => exact h.fits
    | cons b bs ih =>
      rw [List.foldlM_cons] at hc'
      obtain ⟨c₁, hc₁, hc'⟩ := bind_eq_ok.mp hc'
      have hne : t ≠ [] := by
        rintro rfl
        cases hx
      have hwritten : 0 < c.bufferOffset := h.offset ▸ List.length_pos_iff.mpr hne
      by_cases hneed : c.bufferSize - c.bufferOffset < b.need
      · -- the text in front of the block is lost
        have hlost : c'.Lost := by
          rw [fillBlock, reserve, if_pos hneed] at hc₁
          exact ((lost_reallocProcContents h.sound hwritten).appendAll hc₁).fillBlocks hc'
        have hhead := hlost.head?_text
        rw [htext, List.head?_append_of_ne_nil _ hne, hx, Option.some.injEq] at hhead
        exact absurd hhead hnul
      · rw [fillBlock, reserve, if_neg hneed] at hc₁
        obtain ⟨hsound, hoffset, hsize⟩ := h.sound.appendAll hc₁
        have hle := hsound.offset
        rw [hoffset, hsize, h.offset] at hle
        obtain ⟨c₂, hc₂, h₁, -⟩ := h.appendAll b.pieces hle
        cases hc₁.symm.trans hc₂
        have hrest := ih h₁ (by rw [List.head?_append_of_ne_nil _ hne, hx]) hc' (by
          rw [htext, List.flatMap_cons, Block.text, List.append_assoc])
        rw [List.length_append, hsize] at hrest
        rw [h.offset] at hneed
        rw [room, Block.text]
        have hfits := h.fits
        omega
  · intro hbs
    obtain ⟨c', hc', h', -⟩ := h.fillBlocks hbs
    exact ⟨c', hc', h'.text_eq⟩

end Cache

end MiaVita.Framework
