import MiaVita.FredFramework.ProcView
import MiaVita.Rt2501.Mkfilter

/-!
# The list of the filters (`rt2501`, `proc_filters.c`)

`/proc/synch_filters` shows a heading of 48 bytes and a line of 49 for each filter. The text is put
together in a buffer of 1024 bytes by the functions of `/proc/interceptor_list`, which lose what has
been written when the buffer is doubled. Here the question for room comes in front of each line and
of each end of a line, and asks for one byte more than is appended. So the list is right exactly if
the whole of it is shorter than the buffer (`fill_proc_contents_iff`): with 19 filters it is, with
20 the heading and all lines but the last one are gone.

A line is built with `sprintf` in an array of blanks. The zero that `sprintf` leaves is looked for
with `strlen` and replaced by a blank each time.
-/

namespace MiaVita.Rt2501

open Bytes CText Memory Fallible
open Framework (Cache Block ProcFault Ipv4 nipquad ntohs room)

/-! ### The source -/

/-- `sprintf` to a place of an array. -/
def sprintfAt (buff : List Char) (pos : ℕ) (text : List Char) : Except Fault (List Char) :=
  if pos + (text ++ [nul]).length ≤ buff.length then .ok (patch buff pos (text ++ [nul]))
  else .error (.write pos (text ++ [nul]).length)

/-- `strlen`, over the rest of an array. -/
def strlen : List Char → ℕ → Except Fault ℕ
  | [], n => .error (.read n 1)
  | c :: cs, n => if c = nul then .ok n else strlen cs (n + 1)

/-- A field of a line: `sprintf(buff + pos, …); buff[strlen(buff)] = ' ';` -/
def printAt (buff : List Char) (pos : ℕ) (text : List Char) : Except Fault (List Char) := do
  let buff ← sprintfAt buff pos text
  let n ← strlen buff 0
  return buff.set n ' '

/-- A field that is printed if a value is not zero. -/
def printIfSet {α : Type} [DecidableEq α] [OfNat α 0] (v : α) (buff : List Char) (pos : ℕ)
    (text : List Char) : Except Fault (List Char) :=
  if v ≠ 0 then printAt buff pos text else .ok buff

/-- The line of a filter. -/
def filterLine (i : ℕ) (f : FilterFields) : Except Fault (List Char) := do
  let buff := List.replicate 48 ' '
  let buff ← printAt buff 0 (Decimal.ofNat i)
  let buff ← printIfSet f.srcAddr buff 4 (nipquad f.srcAddr).dotted
  let buff ← printIfSet f.dstAddr buff 20 (nipquad f.dstAddr).dotted
  let buff ← printIfSet f.srcPort buff 36 (Decimal.ofNat (ntohs f.srcPort).toNat)
  printIfSet f.dstPort buff 42 (Decimal.ofNat (ntohs f.dstPort).toNat)

/-- An access to memory while the list is built. -/
def inList {α : Type} (x : Except Fault α) : Except ProcFault α :=
  match x with
  | .error f => .error (.buffer f)
  | .ok a => .ok a

/-- `if(buffer_offset + n >= buffer_size) realloc_proc_contents();` -/
def makeRoom (c : Cache) (n : ℕ) : Cache :=
  if c.bufferOffset + n ≥ c.bufferSize then c.reallocProcContents else c

/-- `chains[i]`, and the filter that it points to. -/
def filterOf (s : Filters) (i : ℕ) : Except Fault FilterFields := do
  let f ← loadPtr s.table.chains i
  if f = 0 then .error .null else return filterAt (s.blocks f)

/-- One turn of the loop of `fill_proc_contents`. -/
def fillFilter (s : Filters) (c : Cache) (i : ℕ) : Except ProcFault Cache := do
  let f ← inList (filterOf s i)
  let buff ← inList (filterLine i f)
  let c ← (makeRoom c 48).appendToBuffer buff
  (makeRoom c 1).appendToBuffer ['\n']

/-- The heading. -/
def heading : List Char := " ID Src Address     Dst Address    SP   DP     \n".toList

/-- `fill_proc_contents`. -/
def fillProcContents (s : Filters) (c : Cache) : Except ProcFault Cache := do
  let fileBuffer ← inList (clear c.fileBuffer c.bufferSize)
  let c ← Cache.appendToBuffer ⟨c.bufferSize, 0, fileBuffer⟩ heading
  (List.range s.table.nfilters.toNat).foldlM (fillFilter s) c

/-! ### What the list should be -/

/-- A text with blanks behind it. -/
def column (k : ℕ) (text : List Char) : List Char := text ++ List.replicate (k - text.length) ' '

/-- An address, if there is one. -/
def addrText (addr : UInt32) : List Char := if addr = 0 then [] else (nipquad addr).dotted

/-- A port, if there is one. -/
def portText (port : UInt16) : List Char :=
  if port = 0 then [] else Decimal.ofNat (ntohs port).toNat

/-- The line of a filter: its number, and its addresses and ports in columns. -/
def row (i : ℕ) (f : FilterFields) : List Char :=
  column 4 (Decimal.ofNat i) ++ (column 16 (addrText f.srcAddr) ++
    (column 16 (addrText f.dstAddr) ++ (column 6 (portText f.srcPort) ++
      column 6 (portText f.dstPort))))

/-- The filter of an entry of the table. -/
def Filters.entry (s : Filters) (i : ℕ) : FilterFields :=
  filterAt (s.blocks (slot s.table.chains i))

/-- **The list**: the heading, and a line for each filter in the order of the table. -/
def Filters.listing (s : Filters) : List Char :=
  heading ++ ((List.range s.table.nfilters.toNat).map fun i => row i (s.entry i) ++ ['\n']).flatten

/-! ### Texts and columns -/

private theorem nul_notMem_ofNat (n : ℕ) : nul ∉ Decimal.ofNat n := fun h =>
  absurd (Decimal.isDigit_of_mem_ofNat h) (by decide)

private theorem nul_notMem_dotted (ip : Ipv4) : nul ∉ ip.dotted := by
  have hdot : nul ≠ '.' := by decide
  simp [Ipv4.dotted, List.intercalate, List.intersperse, nul_notMem_ofNat, hdot]

/-- A text that leaves a blank in its column, so that `sprintf` has room for its zero. -/
structure InColumn (k : ℕ) (text : List Char) : Prop where
  length_lt : text.length < k
  noNul : nul ∉ text

private theorem inColumn_dotted (addr : UInt32) : InColumn 16 (nipquad addr).dotted := by
  have hlength := Framework.length_dotted_lt (nipquad addr)
  rw [List.length_append, List.length_singleton] at hlength
  exact ⟨Nat.lt_of_succ_lt_succ hlength, nul_notMem_dotted _⟩

private theorem inColumn_port (port : UInt16) : InColumn 6 (Decimal.ofNat (ntohs port).toNat) := by
  have hlength := Framework.length_port_lt (ntohs port)
  rw [List.length_append, List.length_singleton] at hlength
  exact ⟨Nat.lt_of_succ_lt_succ hlength, nul_notMem_ofNat _⟩

private theorem inColumn_id {i : ℕ} (hi : i < 256) : InColumn 4 (Decimal.ofNat i) :=
  ⟨Nat.lt_succ_of_le ((Decimal.length_ofNat_le_iff (by decide)).mpr (hi.trans (by decide))),
    nul_notMem_ofNat i⟩

/-- Nothing at all also leaves a blank. -/
private theorem InColumn.ifSet {α : Type} [DecidableEq α] [OfNat α 0] {k : ℕ} {text : List Char}
    (h : InColumn k text) (v : α) : InColumn k (if v = 0 then [] else text) := by
  split_ifs
  · exact ⟨Nat.zero_lt_of_lt h.length_lt, List.not_mem_nil⟩
  · exact h

private theorem inColumn_addrText (addr : UInt32) : InColumn 16 (addrText addr) :=
  (inColumn_dotted addr).ifSet addr

private theorem inColumn_portText (port : UInt16) : InColumn 6 (portText port) :=
  (inColumn_port port).ifSet port

private theorem InColumn.length_column {k : ℕ} {text : List Char} (h : InColumn k text) :
    (column k text).length = k := by
  have hlt := h.length_lt
  rw [column, List.length_append, List.length_replicate]
  omega

private theorem InColumn.nul_notMem_column {k : ℕ} {text : List Char} (h : InColumn k text) :
    nul ∉ column k text := by
  rw [column, List.mem_append, List.mem_replicate, not_or]
  exact ⟨h.noNul, fun hnul => absurd hnul.2 (by decide)⟩

private theorem length_row {i : ℕ} (hi : i < 256) (f : FilterFields) : (row i f).length = 48 := by
  simp only [row, List.length_append, (inColumn_id hi).length_column,
    (inColumn_addrText _).length_column, (inColumn_portText _).length_column]

/-! ### One line -/

private theorem strlen_append {front : List Char} (h : nul ∉ front) (rest : List Char) (n : ℕ) :
    strlen (front ++ nul :: rest) n = .ok (n + front.length) := by
  induction front generalizing n with
  | nil => rfl
  | cons c front ih =>
    obtain ⟨hc, hfront⟩ := not_or.mp (List.mem_cons.not.mp h)
    rw [List.cons_append, strlen, if_neg (Ne.symm hc), ih hfront, List.length_cons]
    congr 1
    omega

/-- **One field**: a text takes the place of blanks. -/
theorem printAt_column {front text : List Char} {k : ℕ} (hfront : nul ∉ front)
    (htext : InColumn k text) (back : List Char) :
    printAt (front ++ (column k [] ++ back)) front.length text =
      .ok (front ++ (column k text ++ back)) := by
  obtain ⟨hlt, htext⟩ := htext
  obtain ⟨m, hm⟩ : ∃ m, k = text.length + (m + 1) := ⟨k - text.length - 1, by omega⟩
  have hblank : column k [] = List.replicate (text.length + 1) ' ' ++ List.replicate m ' ' := by
    rw [column, List.nil_append, ← List.replicate_add]
    congr 1
    rw [List.length_nil]
    omega
  have hcolumn : column k text = text ++ ' ' :: List.replicate m ' ' := by
    rw [column, ← List.replicate_succ]
    congr 2
    omega
  have hlength : (text ++ [nul]).length = (List.replicate (text.length + 1) ' ').length := by
    rw [List.length_append, List.length_replicate, List.length_singleton]
  have hprint : sprintfAt (front ++ (column k [] ++ back)) front.length text =
      .ok (front ++ text ++ nul :: (List.replicate m ' ' ++ back)) := by
    rw [sprintfAt, hblank, if_pos (by simp only [List.length_append] at hlength ⊢; omega)]
    have hpatch : patch (front ++ (List.replicate (text.length + 1) ' ' ++ List.replicate m ' ' ++
        back)) front.length (text ++ [nul]) = _ := patch_append_right front _ (text ++ [nul]) 0
    rw [hpatch, List.append_assoc, patch_append_left (by rw [Nat.zero_add, hlength]),
      patch_zero_of_length_eq hlength]
    simp
  rw [printAt, hprint, ok_bind, strlen_append (by simp [hfront, htext]), ok_bind, Nat.zero_add,
    List.set_append_right _ _ (Nat.le_refl _), Nat.sub_self, List.set_cons_zero, hcolumn]
  simp only [List.append_assoc, List.cons_append]
  rfl

/-- The columns in front of a field. -/
structure Front (front : List Char) (pos : ℕ) : Prop where
  length : front.length = pos
  noNul : nul ∉ front

private theorem Front.concat {front text : List Char} {pos k : ℕ} (h : Front front pos)
    (htext : InColumn k text) : Front (front ++ column k text) (pos + k) := by
  refine ⟨?_, ?_⟩
  · rw [List.length_append, h.length, htext.length_column]
  · rw [List.mem_append, not_or]
    exact ⟨h.noNul, htext.nul_notMem_column⟩

/-- **One field** behind some columns, which stays blank if the value is zero. -/
theorem Front.printIfSet {α : Type} [DecidableEq α] [OfNat α 0] {front text : List Char} {pos : ℕ}
    (h : Front front pos) (v : α) {k : ℕ} (htext : InColumn k text) (back : List Char) :
    printIfSet v (front ++ (column k [] ++ back)) pos text =
      .ok (front ++ column k (if v = 0 then [] else text) ++ back) := by
  rw [Rt2501.printIfSet, List.append_assoc, ← h.length]
  by_cases hv : v = 0
  · rw [if_neg (not_not.mpr hv), if_pos hv]
  · rw [if_pos hv, if_neg hv, printAt_column h.noNul htext]

/-- **The line of a filter** is its row. -/
theorem filterLine_eq {i : ℕ} (hi : i < 256) (f : FilterFields) :
    filterLine i f = .ok (row i f) := by
  have hblank : List.replicate 48 ' ' = [] ++ (column 4 [] ++ (column 16 [] ++ (column 16 [] ++
      (column 6 [] ++ (column 6 [] ++ []))))) := by decide
  have hid : printAt (List.replicate 48 ' ') 0 (Decimal.ofNat i) = _ :=
    hblank ▸ printAt_column List.not_mem_nil (inColumn_id hi) _
  have h₀ : Front [] 0 := ⟨rfl, List.not_mem_nil⟩
  have h₁ := h₀.concat (inColumn_id hi)
  have h₂ := h₁.concat (inColumn_addrText f.srcAddr)
  have h₃ := h₂.concat (inColumn_addrText f.dstAddr)
  have h₄ := h₃.concat (inColumn_portText f.srcPort)
  rw [filterLine, hid, ok_bind, ← List.append_assoc,
    h₁.printIfSet f.srcAddr (inColumn_dotted _), ok_bind, ← addrText,
    h₂.printIfSet f.dstAddr (inColumn_dotted _), ok_bind, ← addrText,
    h₃.printIfSet f.srcPort (inColumn_port _), ok_bind, ← portText,
    h₄.printIfSet f.dstPort (inColumn_port _), ← portText, row]
  simp only [List.nil_append, List.append_nil, List.append_assoc]

/-! ### The list in blocks -/

/-- The room that is asked for, and what is appended, for one filter. -/
def lineBlocks (s : Filters) (i : ℕ) : List Block := [⟨49, [row i (s.entry i)]⟩, ⟨2, [['\n']]⟩]

private theorem makeRoom_eq (c : Cache) (n : ℕ) : makeRoom c n = c.reserve (n + 1) := by
  rw [makeRoom, Cache.reserve]
  exact if_congr (by omega) rfl rfl

section Blocks

variable {s : Filters}

private theorem filterOf_eq (hs : s.table.Sound) {i : ℕ} (hi : i < s.table.live.length) :
    filterOf s i = .ok (s.entry i) := by
  have hlen := hs.length_chains
  have hlt := hs.length_live_lt
  have hne : slot s.table.chains i ≠ 0 := by
    rw [hs.slot_eq hi]
    exact hs.ne_zero _ (List.getElem_mem hi)
  rw [filterOf, loadPtr_eq (by omega), ok_bind, if_neg hne]
  rfl

/-- **One turn of the loop** fills two blocks. -/
theorem fillFilter_eq (hs : s.table.Sound) {i : ℕ} (hi : i < s.table.live.length) (c : Cache) :
    fillFilter s c i = (lineBlocks s i).foldlM Cache.fillBlock c := by
  have hlt := hs.length_live_lt
  rw [fillFilter, filterOf_eq hs hi, inList, ok_bind, filterLine_eq (by omega), inList,
    ok_bind]
  simp only [makeRoom_eq, lineBlocks, Cache.fillBlock, List.foldlM_cons, List.foldlM_nil, bind_pure]

/-- The whole loop. -/
private theorem foldlM_fillFilter (hs : s.table.Sound) {is : List ℕ}
    (his : ∀ i ∈ is, i < s.table.live.length) (c : Cache) :
    is.foldlM (fillFilter s) c = (is.flatMap (lineBlocks s)).foldlM Cache.fillBlock c := by
  induction is generalizing c with
  | nil => rfl
  | cons i is ih =>
    obtain ⟨hi, his⟩ := List.forall_mem_cons.mp his
    rw [List.foldlM_cons, List.flatMap_cons, List.foldlM_append, fillFilter_eq hs hi]
    exact bind_congr fun c' => ih his c'

private theorem text_lineBlocks (is : List ℕ) :
    (is.flatMap (lineBlocks s)).flatMap Block.text =
      (is.map fun i => row i (s.entry i) ++ ['\n']).flatten := by
  induction is with
  | nil => rfl
  | cons i is ih =>
    rw [List.flatMap_cons, List.flatMap_append, ih]
    simp [lineBlocks, Block.text]

/-- **The room that some lines need**: their length, and one byte. -/
theorem room_lineBlocks {is : List ℕ} (his : ∀ i ∈ is, i < 256) :
    room (is.flatMap (lineBlocks s)) = if is = [] then 0 else 49 * is.length + 1 := by
  induction is with
  | nil => rfl
  | cons i is ih =>
    obtain ⟨hi, his⟩ := List.forall_mem_cons.mp his
    have hrow := length_row hi (s.entry i)
    rw [List.flatMap_cons, if_neg (List.cons_ne_nil i is)]
    change max 49 ((row i (s.entry i) ++ []).length +
      max 2 ((['\n'] : List Char).length + room (is.flatMap (lineBlocks s)))) = _
    rw [ih his, List.append_nil, hrow, List.length_singleton, List.length_cons]
    split_ifs with hnil
    · rw [hnil]
      rfl
    · omega

end Blocks

/-! ### Rebuilding the list -/

/-- The buffer that `create_proc_file` allocates. -/
def freshCache : Cache := ⟨1024, 0, zeros 1024⟩

private theorem length_listing {s : Filters} (hs : s.table.Sound) :
    s.listing.length = 48 + 49 * s.table.live.length := by
  have hlt := hs.length_live_lt
  have hline : ∀ n ≤ 256, ((List.range n).map fun i => row i (s.entry i) ++ ['\n']).flatten.length =
      49 * n := by
    intro n hn
    induction n with
    | zero => rfl
    | succ n ih =>
      rw [List.range_succ, List.map_append, List.flatten_append, List.length_append, ih (by omega)]
      simp only [List.map_cons, List.map_nil, List.flatten_cons, List.flatten_nil, List.append_nil,
        List.length_append, length_row (by omega : n < 256), List.length_singleton]
      omega
  rw [Filters.listing, List.length_append, hs.nfilters_eq, hline _ hlt.le]
  rfl

section Fill

variable {s : Filters} {c c' : Cache}

/-- `memset` over the whole buffer. -/
private theorem clear_of_sound (hc : c.Sound) :
    clear c.fileBuffer c.bufferSize = .ok (zeros c.bufferSize) := by
  rw [clear, if_pos hc.size.ge, List.drop_eq_nil_of_le hc.size.le, List.append_nil]

/-- The heading goes to the start of the buffer. -/
private theorem heading_holds (hc : c.Sound) (hsize : 1024 ≤ c.bufferSize) :
    ∃ c₀, Cache.Holds c₀ heading ∧ c₀.bufferSize = c.bufferSize ∧
      fillProcContents s c =
        (List.range s.table.nfilters.toNat).foldlM (fillFilter s) c₀ := by
  have hempty : Cache.Holds ⟨c.bufferSize, 0, zeros c.bufferSize⟩ [] := ⟨rfl, rfl, Nat.zero_le _⟩
  have hlength : heading.length = 48 := by decide
  have hroom : ([] : List Char).length + heading.length ≤ c.bufferSize := by
    rw [List.length_nil, hlength]
    omega
  obtain ⟨c₀, hc₀, hholds, hsame⟩ := hempty.append hroom
  refine ⟨c₀, hholds, hsame, ?_⟩
  rw [fillProcContents, clear_of_sound hc, inList, ok_bind, hc₀, ok_bind]

/-- **One rebuild** gives the list exactly if it is shorter than the buffer, or has no lines. -/
theorem fillProcContents_iff (hc : c.Sound) (hsize : 1024 ≤ c.bufferSize) (hs : s.table.Sound) :
    (∃ c', fillProcContents s c = .ok c' ∧ c'.text = s.listing) ↔
      s.table.live.length = 0 ∨ 48 + 49 * s.table.live.length < c.bufferSize := by
  obtain ⟨c₀, hholds, hsame, hfill⟩ := heading_holds (s := s) hc hsize
  have hlt := hs.length_live_lt
  have hmem : ∀ i ∈ List.range s.table.live.length, i < s.table.live.length := fun i =>
    List.mem_range.mp
  have hlength : heading.length = 48 := by decide
  rw [hfill, hs.nfilters_eq, foldlM_fillFilter hs hmem, Filters.listing, hs.nfilters_eq,
    ← text_lineBlocks, Cache.fillBlocks_iff hholds (rfl : heading.head? = some ' ') (by decide),
    room_lineBlocks fun i hi => (hmem i hi).trans hlt, List.length_range, hlength, hsame]
  split_ifs with hnil
  · exact iff_of_true (by omega) (.inl (List.range_eq_nil.mp hnil))
  · rw [or_iff_right fun hzero => hnil (List.range_eq_nil.mpr hzero)]
    omega

private theorem sound_makeRoom (h : c.Sound) (n : ℕ) :
    (makeRoom c n).Sound ∧ c.bufferSize ≤ (makeRoom c n).bufferSize := by
  rw [makeRoom_eq]
  refine ⟨(h.reserve (n + 1)).1, ?_⟩
  rw [Cache.reserve]
  split_ifs
  · change c.bufferSize ≤ 2 * c.bufferSize
    omega
  · exact Nat.le_refl _

private theorem sound_fillFilter (h : c.Sound) {i : ℕ} (hc' : fillFilter s c i = .ok c') :
    c'.Sound ∧ c.bufferSize ≤ c'.bufferSize := by
  obtain ⟨f, -, hc'⟩ := bind_eq_ok.mp hc'
  obtain ⟨buff, -, hc'⟩ := bind_eq_ok.mp hc'
  obtain ⟨c₁, hc₁, hc'⟩ := bind_eq_ok.mp hc'
  obtain ⟨hroom, hle⟩ := sound_makeRoom h 48
  obtain ⟨h₁, -, hsize₁⟩ := hroom.append hc₁
  obtain ⟨hroom₁, hle₁⟩ := sound_makeRoom h₁ 1
  obtain ⟨h', -, hsize'⟩ := hroom₁.append hc'
  exact ⟨h', by omega⟩

/-- **The buffer only grows**, whatever the table. -/
theorem sound_fillProcContents (h : c.Sound) (hc' : fillProcContents s c = .ok c') :
    c'.Sound ∧ c.bufferSize ≤ c'.bufferSize := by
  rw [fillProcContents, clear_of_sound h, inList, ok_bind] at hc'
  obtain ⟨c₀, hc₀, hc'⟩ := bind_eq_ok.mp hc'
  have hempty : Cache.Sound ⟨c.bufferSize, 0, zeros c.bufferSize⟩ :=
    ⟨length_zeros _, Nat.zero_le _⟩
  obtain ⟨h₀, -, hsize₀⟩ := hempty.append hc₀
  refine Run.invariantM (P := fun c' => c'.Sound ∧ c.bufferSize ≤ c'.bufferSize)
    (C := fun _ => True) ?_ ⟨h₀, hsize₀.ge⟩ (fun _ _ => trivial) hc'
  rintro c₁ i c₂ ⟨h₁, hle₁⟩ - hc₂
  obtain ⟨h₂, hle₂⟩ := sound_fillFilter h₁ hc₂
  exact ⟨h₂, hle₁.trans hle₂⟩

/-- There is room for what is appended, because a buffer that is too small is doubled. -/
private theorem exists_append (h : c.Sound) {buff : List Char} (hle : buff.length ≤ c.bufferSize) :
    ∃ c', (makeRoom c buff.length).appendToBuffer buff = .ok c' := by
  obtain ⟨hsound, -⟩ := sound_makeRoom h buff.length
  refine ⟨_, if_pos ?_⟩
  have hoffset := h.offset
  rw [hsound.size, makeRoom]
  split_ifs with hfull
  · change c.bufferOffset + _ ≤ 2 * c.bufferSize
    omega
  · omega

/-- One turn of the loop stays inside of the buffer. -/
private theorem exists_fillFilter (hs : s.table.Sound) (h : c.Sound) (hsize : 1024 ≤ c.bufferSize)
    {i : ℕ} (hi : i < s.table.live.length) :
    ∃ c', fillFilter s c i = .ok c' ∧ c'.Sound ∧ 1024 ≤ c'.bufferSize := by
  have hlt := hs.length_live_lt
  have hrow := length_row (by omega : i < 256) (s.entry i)
  obtain ⟨c₁, hc₁⟩ := exists_append h (by omega : (row i (s.entry i)).length ≤ c.bufferSize)
  rw [hrow] at hc₁
  obtain ⟨hroom, hgrown⟩ := sound_makeRoom h 48
  obtain ⟨h₁, -, hsize₁⟩ := hroom.append hc₁
  have hend : (['\n'] : List Char).length ≤ c₁.bufferSize := by
    rw [List.length_singleton]
    omega
  obtain ⟨c', hc'⟩ := exists_append h₁ hend
  have hline : fillFilter s c i = .ok c' := by
    rw [fillFilter, filterOf_eq hs hi, inList, ok_bind, filterLine_eq (by omega), inList,
      ok_bind, hc₁]
    exact hc'
  obtain ⟨h', hle'⟩ := sound_fillFilter h hline
  exact ⟨c', hline, h', hsize.trans hle'⟩

/-- **A rebuild never leaves the buffer.** -/
theorem exists_fillProcContents (hc : c.Sound) (hsize : 1024 ≤ c.bufferSize)
    (hs : s.table.Sound) : ∃ c', fillProcContents s c = .ok c' := by
  obtain ⟨c₀, hholds, hsame, hfill⟩ := heading_holds (s := s) hc hsize
  rw [hfill, hs.nfilters_eq]
  have hstep : ∀ (c : Cache) i, (c.Sound ∧ 1024 ≤ c.bufferSize) → i < s.table.live.length →
      ∃ c', fillFilter s c i = .ok c' ∧ c'.Sound ∧ 1024 ≤ c'.bufferSize := by
    rintro c i ⟨h, hle⟩ hi
    exact exists_fillFilter hs h hle hi
  obtain ⟨c', hc', -⟩ := Run.progressM hstep ⟨hholds.sound, hsame ▸ hsize⟩
    (Run.allStepsM_of_forall (fun i => List.mem_range.mp) c₀)
  exact ⟨c', hc'⟩

private theorem sound_freshCache : freshCache.Sound := ⟨length_zeros _, Nat.zero_le _⟩

end Fill

/-- **All filters are listed, exactly if the list is shorter than the buffer.** Any tables that have
been listed before, from the buffer of 1024 bytes on, and any table of filters: the text is the
heading and a line for each filter, in the order of the table, and none of it is behind the end of
the buffer, if and only if there are no filters or 48 bytes and 49 for each filter are less than the
size that the buffer has by then. -/
theorem fill_proc_contents_iff (earlier : List Filters) (c : Cache)
    (hc : Run.execM (fun c s => fillProcContents s c) freshCache earlier = .ok c) (s : Filters)
    (hs : s.table.Sound) :
    (∃ c', fillProcContents s c = .ok c' ∧ c'.text = s.listing ∧
        c'.bufferOffset = 48 + 49 * s.table.live.length ∧ c'.bufferOffset ≤ c'.bufferSize) ↔
      s.table.live.length = 0 ∨ 48 + 49 * s.table.live.length < c.bufferSize := by
  obtain ⟨hsound, hsize⟩ : c.Sound ∧ 1024 ≤ c.bufferSize := by
    refine Run.invariantM (P := fun c => c.Sound ∧ 1024 ≤ c.bufferSize) (C := fun _ => True) ?_
      ⟨sound_freshCache, Nat.le_refl _⟩ (fun _ _ => trivial) hc
    rintro c₁ s₁ c₂ ⟨h₁, hle₁⟩ - hc₂
    obtain ⟨h₂, hle₂⟩ := sound_fillProcContents h₁ hc₂
    exact ⟨h₂, hle₁.trans hle₂⟩
  rw [← fillProcContents_iff hsound hsize hs]
  constructor
  · rintro ⟨c', hc', htext, -, -⟩
    exact ⟨c', hc', htext⟩
  · rintro ⟨c', hc', htext⟩
    have hsound' := (sound_fillProcContents hsound hc').1
    have hlength := congrArg List.length htext
    rw [Cache.text, List.length_take, hsound'.size, Nat.min_eq_left hsound'.offset,
      length_listing hs] at hlength
    exact ⟨c', hc', htext, hlength, hsound'.offset⟩

/-- The address of a filter. -/
def address (i : ℕ) : UInt32 := UInt32.ofNat (0x1000 + 32 * i)

private theorem toNat_address {i : ℕ} (hi : i < 256) : (address i).toNat = 0x1000 + 32 * i := by
  rw [address, UInt32.toNat_ofNat']
  omega

/-- Some filters of zeros. -/
def someFilters (n : ℕ) : Filters where
  table := (List.range n).foldl (fun t i => Table.Sound.added t (address i)) initTable
  blocks := fun _ => List.replicate sizeofFilter 0

private theorem sound_someFilters {n : ℕ} (hn : n ≤ 255) :
    (someFilters n).table.Sound ∧ (someFilters n).table.live = (List.range n).map address := by
  induction n with
  | zero => exact ⟨sound_initTable, rfl⟩
  | succ n ih =>
    obtain ⟨h, hlive⟩ := ih (Nat.le_of_succ_le hn)
    have htable : (someFilters (n + 1)).table =
        Table.Sound.added (someFilters n).table (address n) := by
      rw [someFilters, List.range_succ, List.foldl_append]
      rfl
    have hlength : (someFilters n).table.live.length = n := by
      rw [hlive, List.length_map, List.length_range]
    have hne : address n ≠ 0 := fun h0 => by
      have hnat := toNat_address (Nat.lt_succ_of_le (Nat.le_of_succ_le hn))
      rw [h0, UInt32.toNat_zero] at hnat
      omega
    have hfresh : address n ∉ (someFilters n).table.heap := by
      rw [h.heap_eq, hlive, List.mem_map]
      rintro ⟨i, hi, heq⟩
      have hi' := List.mem_range.mp hi
      have hnat := congrArg UInt32.toNat heq
      rw [toNat_address (by omega), toNat_address (by omega)] at hnat
      omega
    rw [htable]
    refine ⟨h.step (r := .register (address n)) ⟨hne, hfresh, ?_⟩ (h.procfileWrite_register _)
      ((h.correct_added_iff _).mpr ?_), ?_⟩
    · change _ < 256
      omega
    · omega
    · rw [Table.Sound.added, hlive, List.range_succ, List.map_append]
      rfl

/-- Nineteen filters are listed. -/
theorem fill_proc_contents_nineteen :
    ∃ c, fillProcContents (someFilters 19) freshCache = .ok c ∧
      c.text = (someFilters 19).listing := by
  obtain ⟨hs, hlive⟩ := sound_someFilters (by decide : 19 ≤ 255)
  have hiff := fill_proc_contents_iff [] freshCache rfl (someFilters 19) hs
  rw [hlive, List.length_map, List.length_range] at hiff
  obtain ⟨c, hc, htext, -⟩ := hiff.mpr (.inr (by decide))
  exact ⟨c, hc, htext⟩

/-- **The twentieth filter erases the others**: the list is not the one that it should be. -/
theorem twentieth_filter_erases :
    ∃ c, fillProcContents (someFilters 20) freshCache = .ok c ∧
      c.text ≠ (someFilters 20).listing := by
  obtain ⟨hs, hlive⟩ := sound_someFilters (by decide : 20 ≤ 255)
  obtain ⟨c, hc⟩ := exists_fillProcContents sound_freshCache (Nat.le_refl 1024) hs
  have hiff := fillProcContents_iff sound_freshCache (Nat.le_refl 1024) hs
  rw [hlive, List.length_map, List.length_range] at hiff
  exact ⟨c, hc, fun htext => absurd (hiff.mp ⟨c, hc, htext⟩) (by decide)⟩

end MiaVita.Rt2501
