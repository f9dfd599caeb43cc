import MiaVita.Lib.Memory
import MiaVita.Lib.Run

/-!
# The filter table of the driver (`rt2501`, `filter_chains.c`)

`chains` is an array of 256 pointers of four bytes each, little-endian, and `nfilters` an 8-bit
counter. A filter goes in behind the last one; a filter that goes out is freed, and the pointers
behind it move down by one place. But `memmove` counts bytes, and the byte count passed to it is the
number of pointers to move: with `k` filters behind the one removed, `k` bytes are moved instead of
`4 * k`.

The table is modelled as memory. `live` is a history variable: the filters that the table should
hold, in registration order. Main result: `filterTable_iff`, which says in which runs the table
holds them.
-/

namespace MiaVita.Rt2501

open Bytes Memory Fallible

/-! ### The table -/

/-- `MAX_FILTERS`. -/
abbrev maxFilters : ℕ := 256

/-- The driver's globals, the filters on the heap (given by their addresses), and the filters that
are registered. -/
structure Table where
  /-- `filter* chains[MAX_FILTERS]`. -/
  chains : List UInt8
  nfilters : UInt8
  heap : List UInt32
  live : List UInt32

/-- `chains` and `nfilters` before the first request. -/
def initTable : Table := ⟨List.replicate (4 * maxFilters) 0, 0, [], []⟩

/-- `chains[index]`. -/
def loadPtr (chains : List UInt8) (index : ℕ) : Except Fault UInt32 :=
  load (fun bs => UInt32.ofNat (leVal bs)) chains (4 * index) 4

/-- `register_filter`. -/
def registerFilter (f : UInt32) (t : Table) : Except Fault Table := do
  let chains ← store t.chains (4 * t.nfilters.toNat) (le 4 f.toNat)
  return { t with chains, nfilters := t.nfilters + 1 }

/-- `memmove` inside one object. -/
def memmove (m : List UInt8) (dest src n : ℕ) : Except Fault (List UInt8) := do
  let bs ← load id m src n
  store m dest bs

/-- `unregister_filter`. The byte count is an `int`, converted to a 32-bit `size_t`. -/
def unregisterFilter (index : UInt8) (t : Table) : Except Fault Table := do
  let f ← loadPtr t.chains index.toNat
  if f = 0 then return t
  let heap := t.heap.erase f
  let nfilters := t.nfilters - 1
  let count := ((nfilters.toNat : ℤ) - index.toNat) % 2 ^ 32
  let chains ←
    memmove t.chains (4 * index.toNat) (4 * (index.toNat + 1)) count.toNat
  return { t with chains, nfilters, heap }

/-- A write to the `/proc` file: `R` with a filter, for which `kmalloc` returns `f`, or `U`. -/
inductive Request where
  | register (f : UInt32)
  | unregister (index : UInt8)

/-- `procfile_write`. -/
def procfileWrite (t : Table) : Request → Except Fault Table
  | .register f => registerFilter f { t with heap := t.heap ++ [f], live := t.live ++ [f] }
  | .unregister index =>
    if index ≥ t.nfilters then return t
    else unregisterFilter index { t with live := t.live.eraseIdx index.toNat }

/-! ### What the table should hold -/

/-- The pointer in a slot. -/
def slot (chains : List UInt8) (i : ℕ) : UInt32 :=
  UInt32.ofNat (leVal (slice chains (4 * i) 4))

/-- `chains[0..nfilters)`. -/
def Table.filters (t : Table) : List UInt32 := (List.range t.nfilters.toNat).map (slot t.chains)

/-- **The table is the list of the live filters**: the counter is their number, the entries are
their pointers in registration order, and none of them has been freed. -/
structure Table.Correct (t : Table) : Prop where
  nfilters_eq : t.nfilters.toNat = t.live.length
  filters_eq : t.filters = t.live
  allocated : ∀ f ∈ t.filters, f ∈ t.heap

/-- What `kmalloc` and the users grant: a block is not null and not in use, and at most
`MAX_FILTERS` filters are alive. -/
def Granted (t : Table) : Request → Prop
  | .register f => f ≠ 0 ∧ f ∉ t.heap ∧ t.live.length < maxFilters
  | .unregister _ => True

/-- What the table can do: hold 255 filters, remove the last one, and remove the one before it if
the two pointers differ in the lowest byte only. -/
def Handles (t : Table) : Request → Prop
  | .register _ => t.live.length < 255
  | .unregister index => index.toNat < t.live.length → index.toNat + 1 = t.live.length ∨
      index.toNat + 2 = t.live.length ∧
        (slot t.chains index.toNat).toNat / 256 = (slot t.chains (index.toNat + 1)).toNat / 256

instance : ∀ (t : Table) (r : Request), Decidable (Granted t r)
  | t, .register f => inferInstanceAs (Decidable (f ≠ 0 ∧ f ∉ t.heap ∧ t.live.length < maxFilters))
  | _, .unregister _ => inferInstanceAs (Decidable True)

instance : ∀ (t : Table) (r : Request), Decidable (Handles t r)
  | t, .register _ => inferInstanceAs (Decidable (t.live.length < 255))
  | t, .unregister index => inferInstanceAs (Decidable (index.toNat < t.live.length →
      index.toNat + 1 = t.live.length ∨ index.toNat + 2 = t.live.length ∧
        (slot t.chains index.toNat).toNat / 256 = (slot t.chains (index.toNat + 1)).toNat / 256))

/-! ### Pointers in memory -/

private theorem toNat_slot (chains : List UInt8) (i : ℕ) :
    (slot chains i).toNat = leVal (slice chains (4 * i) 4) := by
  have hlt := leVal_lt (slice chains (4 * i) 4)
  have hlen := length_slice_le chains (4 * i) 4
  have hpow := Nat.pow_le_pow_right (by decide : 0 < 256) hlen
  rw [slot, UInt32.toNat_ofNat', Nat.mod_eq_of_lt (by omega)]

theorem loadPtr_eq {chains : List UInt8} {i : ℕ} (h : 4 * (i + 1) ≤ chains.length) :
    loadPtr chains i = .ok (slot chains i) := load_eq (by omega)

/-- A write that ends below a slot, or starts behind it, leaves it alone. -/
private theorem slot_patch_of_disjoint {chains xs : List UInt8} {i j : ℕ}
    (h : i + xs.length ≤ chains.length) (hd : 4 * (j + 1) ≤ i ∨ i + xs.length ≤ 4 * j) :
    slot (patch chains i xs) j = slot chains j := by
  rw [slot, slice_patch_of_disjoint h (by omega), slot]

/-- A pointer written to a slot. -/
theorem slot_patch_self {chains : List UInt8} {i : ℕ} (h : 4 * (i + 1) ≤ chains.length)
    (f : UInt32) : slot (patch chains (4 * i) (le 4 f.toNat)) i = f := by
  have hfits : 4 * i + (le 4 f.toNat).length ≤ chains.length := by
    rw [length_le]
    omega
  have hself := slice_patch_self hfits
  have hlt : f.toNat < 256 ^ 4 := f.toNat_lt
  rw [length_le] at hself
  rw [slot, hself, leVal_le_of_lt hlt, UInt32.ofNat_toNat]

/-- The lowest byte of a pointer, and the rest of it. -/
private theorem toNat_slot_split {chains : List UInt8} {i : ℕ} (h : 4 * (i + 1) ≤ chains.length) :
    (slot chains i).toNat = leVal (slice chains (4 * i) 1) +
      256 * leVal (slice chains (4 * i + 1) 3) := by
  have hsplit := leVal_append (slice chains (4 * i) 1) (slice chains (4 * i + 1) 3)
  rw [← slice_add, length_slice (by omega), pow_one] at hsplit
  rw [toNat_slot, ← hsplit]

/-- **One byte moved** from a slot to the one below: the lowest byte of its pointer replaces that of
the other. -/
theorem toNat_slot_moved {chains : List UInt8} {i : ℕ} (h : 4 * (i + 2) ≤ chains.length) :
    (slot (patch chains (4 * i) (slice chains (4 * (i + 1)) 1)) i).toNat =
      (slot chains (i + 1)).toNat % 256 + 256 * ((slot chains i).toNat / 256) := by
  have hlen : (slice chains (4 * (i + 1)) 1).length = 1 := length_slice (by omega)
  have hfits : 4 * i + (slice chains (4 * (i + 1)) 1).length ≤ chains.length := by
    omega
  have hself := slice_patch_self hfits
  rw [hlen] at hself
  have hb := leVal_lt (slice chains (4 * (i + 1)) 1)
  have ha := leVal_lt (slice chains (4 * i) 1)
  rw [length_slice (by omega), pow_one] at ha hb
  rw [toNat_slot_split (by rw [length_patch hfits]; omega), hself,
    slice_patch_of_disjoint hfits (by omega), toNat_slot_split (i := i + 1) (by omega),
    toNat_slot_split (i := i) (by omega)]
  omega

/-! ### One request -/

private theorem Table.filters_eq_iff {t : Table} {l : List UInt32}
    (hlen : t.nfilters.toNat = l.length) :
    t.filters = l ↔ ∀ j (hj : j < l.length), slot t.chains j = l[j] := by
  rw [Table.filters, hlen]
  constructor
  · intro h j hj
    have hget : ((List.range l.length).map (slot t.chains))[j]? = l[j]? := by rw [h]
    simpa [hj] using hget
  · intro h
    refine List.ext_getElem (by simp) fun j hj hj' => ?_
    rw [List.getElem_map, List.getElem_range, h j hj']

/-- If what is allocated are the live filters, only the entries can be wrong. -/
theorem Table.correct_iff_filters_eq {t : Table} (h : t.heap = t.live) :
    t.Correct ↔ t.filters = t.live := by
  refine ⟨fun h' => h'.filters_eq, fun h' => ⟨?_, h', ?_⟩⟩
  · rw [← h', Table.filters, List.length_map, List.length_range]
  · rw [h', h]
    exact fun _ hf => hf

/-- What the requests rely on as long as the table is correct. -/
structure Table.Sound (t : Table) : Prop extends Table.Correct t where
  length_chains : t.chains.length = 1024
  heap_eq : t.heap = t.live
  nodup : t.live.Nodup
  ne_zero : ∀ f ∈ t.live, f ≠ 0

theorem sound_initTable : initTable.Sound where
  nfilters_eq := rfl
  filters_eq := rfl
  allocated := nofun
  length_chains := List.length_replicate
  heap_eq := rfl
  nodup := List.nodup_nil
  ne_zero := nofun

namespace Table.Sound

variable {t : Table}

theorem slot_eq (h : t.Sound) {j : ℕ} (hj : j < t.live.length) : slot t.chains j = t.live[j] :=
  (filters_eq_iff h.nfilters_eq).mp h.filters_eq j hj

/-- The counter has 8 bits. -/
theorem length_live_lt (h : t.Sound) : t.live.length < 256 := by
  rw [← h.nfilters_eq]
  exact t.nfilters.toNat_lt

/-- The table with one filter more. -/
def added (t : Table) (f : UInt32) : Table where
  chains := patch t.chains (4 * t.live.length) (le 4 f.toNat)
  nfilters := t.nfilters + 1
  heap := t.heap ++ [f]
  live := t.live ++ [f]

/-- The table after a removal, with the bytes that `memmove` has moved. -/
def removed (t : Table) (i : ℕ) : Table where
  chains := patch t.chains (4 * i) (slice t.chains (4 * (i + 1)) (t.live.length - 1 - i))
  nfilters := t.nfilters - 1
  heap := t.live.eraseIdx i
  live := t.live.eraseIdx i

theorem procfileWrite_register (h : t.Sound) (f : UInt32) :
    procfileWrite t (.register f) = .ok (added t f) := by
  have hlen := h.length_chains
  have hlt := h.length_live_lt
  have hstore : store t.chains (4 * t.live.length) (le 4 f.toNat) = _ :=
    store_eq (by rw [length_le]; omega)
  rw [procfileWrite, registerFilter, h.nfilters_eq, hstore]
  rfl

theorem procfileWrite_unregister (h : t.Sound) {index : UInt8} (hi : index.toNat < t.live.length) :
    procfileWrite t (.unregister index) = .ok (removed t index.toNat) := by
  have hlen := h.length_chains
  have hlt := h.length_live_lt
  have hn := h.nfilters_eq
  have hge : ¬ index ≥ t.nfilters := by
    rw [ge_iff_le, UInt8.le_iff_toNat_le]
    omega
  have hf : t.live[index.toNat] ≠ 0 := h.ne_zero _ (List.getElem_mem hi)
  have hsub : (t.nfilters - 1).toNat = t.live.length - 1 := by
    rw [UInt8.toNat_sub, hn]
    change (256 - 1 + t.live.length) % 256 = _
    omega
  have hcount : (((t.nfilters - 1).toNat : ℤ) - index.toNat) % 2 ^ 32 =
      ((t.live.length - 1 - index.toNat : ℕ) : ℤ) := by
    rw [hsub]
    omega
  have hslice : (slice t.chains (4 * (index.toNat + 1)) (t.live.length - 1 - index.toNat)).length =
      t.live.length - 1 - index.toNat := length_slice (by omega)
  have hmove : memmove t.chains (4 * index.toNat) (4 * (index.toNat + 1))
      (t.live.length - 1 - index.toNat) = .ok (removed t index.toNat).chains := by
    rw [memmove, load_eq (by omega), ok_bind, store_eq (by rw [id, hslice]; omega)]
    rfl
  have hload : loadPtr t.chains index.toNat = .ok t.live[index.toNat] := by
    rw [loadPtr_eq (by omega), h.slot_eq hi]
  rw [procfileWrite, if_neg hge, unregisterFilter, hload, ok_bind, if_neg hf]
  dsimp only
  rw [hcount, Int.toNat_natCast, hmove, ok_bind, h.heap_eq, h.nodup.erase_getElem index.toNat hi]
  rfl

private theorem procfileWrite_of_le (h : t.Sound) {index : UInt8}
    (hi : t.live.length ≤ index.toNat) :
    procfileWrite t (.unregister index) = .ok t := by
  rw [← h.nfilters_eq] at hi
  exact if_pos hi

theorem heap_added (h : t.Sound) (f : UInt32) : (added t f).heap = (added t f).live := by
  rw [added, h.heap_eq]

/-- **A registration** keeps the table correct unless the counter wraps around. -/
theorem correct_added_iff (h : t.Sound) (f : UInt32) :
    (added t f).Correct ↔ t.live.length < 255 := by
  have hlen := h.length_chains
  have hlt := h.length_live_lt
  have hn : (t.nfilters + 1).toNat = (t.live.length + 1) % 256 := by
    rw [UInt8.toNat_add, h.nfilters_eq]
    rfl
  constructor
  · intro h'
    have hn' : (t.nfilters + 1).toNat = (t.live ++ [f]).length := h'.nfilters_eq
    rw [List.length_append, List.length_singleton] at hn'
    omega
  · intro h255
    have hn' : (added t f).nfilters.toNat = (added t f).live.length := by
      rw [added, List.length_append, List.length_singleton, hn]
      omega
    rw [correct_iff_filters_eq (h.heap_added f), filters_eq_iff hn']
    intro j hj
    rw [added, List.length_append, List.length_singleton] at hj
    rcases Nat.lt_succ_iff_lt_or_eq.mp hj with hj | rfl
    · exact (slot_patch_of_disjoint (by rw [length_le]; omega) (by omega)).trans
        ((h.slot_eq hj).trans (List.getElem_append_left hj).symm)
    · exact (slot_patch_self (by omega) f).trans (by simp [added])

private theorem nfilters_removed (h : t.Sound) {i : ℕ} (hi : i < t.live.length) :
    (removed t i).nfilters.toNat = (removed t i).live.length := by
  have hlt := h.length_live_lt
  rw [removed, UInt8.toNat_sub, h.nfilters_eq, List.length_eraseIdx_of_lt hi]
  change (256 - 1 + t.live.length) % 256 = _
  omega

/-- The slots below the one removed stay. -/
private theorem slot_removed_of_lt (h : t.Sound) {i j : ℕ} (hi : i < t.live.length) (hj : j < i) :
    slot (removed t i).chains j = t.live[j] := by
  have hlen := h.length_chains
  have hlt := h.length_live_lt
  have hslice : (slice t.chains (4 * (i + 1)) (t.live.length - 1 - i)).length =
      t.live.length - 1 - i := length_slice (by omega)
  rw [removed, slot_patch_of_disjoint (by omega) (by omega), h.slot_eq (by omega)]

/-- **The last slot in use is not written to** if there are two filters or more behind the one
removed: the bytes moved end below it. -/
theorem slot_removed_last (h : t.Sound) {i : ℕ} (hi : i + 2 < t.live.length) :
    slot (removed t i).chains (t.live.length - 2) = t.live[t.live.length - 2] := by
  have hlen := h.length_chains
  have hlt := h.length_live_lt
  have hslice : (slice t.chains (4 * (i + 1)) (t.live.length - 1 - i)).length =
      t.live.length - 1 - i := length_slice (by omega)
  rw [removed, slot_patch_of_disjoint (by omega) (by omega), h.slot_eq (by omega)]

/-- **A removal** keeps the table correct only at its end. -/
theorem correct_removed_iff (h : t.Sound) {i : ℕ} (hi : i < t.live.length) :
    (removed t i).Correct ↔ i + 1 = t.live.length ∨ i + 2 = t.live.length ∧
      (slot t.chains i).toNat / 256 = (slot t.chains (i + 1)).toNat / 256 := by
  have hlen := h.length_chains
  have hlt := h.length_live_lt
  have hn := h.nfilters_removed hi
  have herase : (removed t i).live = t.live.eraseIdx i := rfl
  have herased : (t.live.eraseIdx i).length = t.live.length - 1 := List.length_eraseIdx_of_lt hi
  have hiff : (removed t i).Correct ↔
      ∀ j (hj : j < (t.live.eraseIdx i).length), slot (removed t i).chains j =
        (t.live.eraseIdx i)[j] := by
    rw [← herase, ← filters_eq_iff hn, correct_iff_filters_eq rfl]
  rw [hiff]
  obtain hlast | hlast | hlast : i + 1 = t.live.length ∨ i + 2 = t.live.length ∨
    i + 2 < t.live.length := by omega
  · -- nothing is moved
    refine iff_of_true (fun j hj => ?_) (.inl hlast)
    rw [h.slot_removed_of_lt hi (by omega), List.getElem_eraseIdx_of_lt _ (by omega)]
  · -- one byte is moved
    have hmoved : (slot (removed t i).chains i).toNat =
        (slot t.chains (i + 1)).toNat % 256 + 256 * ((slot t.chains i).toNat / 256) := by
      have hone : t.live.length - 1 - i = 1 := by omega
      rw [removed, hone]
      exact toNat_slot_moved (by omega)
    have hslot : slot t.chains (i + 1) = t.live[i + 1] := h.slot_eq (by omega)
    constructor
    · intro h'
      have hi' := h' i (by omega)
      rw [List.getElem_eraseIdx_of_ge _ (by omega), ← hslot] at hi'
      rw [hi'] at hmoved
      exact .inr ⟨hlast, by omega⟩
    · rintro (h' | ⟨-, h'⟩) j hj
      · omega
      obtain hj | rfl : j < i ∨ j = i := by omega
      · rw [h.slot_removed_of_lt hi hj, List.getElem_eraseIdx_of_lt _ hj]
      · rw [List.getElem_eraseIdx_of_ge _ (by omega), ← hslot]
        apply UInt32.toNat_inj.mp
        omega
  · -- the last pointer does not move, and it should
    refine iff_of_false (fun h' => ?_) (by omega)
    have hlast' := h' (t.live.length - 2) (by omega)
    rw [h.slot_removed_last hlast, List.getElem_eraseIdx_of_ge _ (by omega),
      h.nodup.getElem_inj_iff] at hlast'
    omega

/-- A request that the table can handle leaves it sound. -/
theorem step {t' : Table} (h : t.Sound) {r : Request} (hgranted : Granted t r)
    (hr : procfileWrite t r = .ok t') (hcorrect : t'.Correct) : t'.Sound := by
  cases r with
  | register f =>
    obtain ⟨hf, hfresh, -⟩ := hgranted
    have hlen := h.length_chains
    have hlt := h.length_live_lt
    rw [h.procfileWrite_register] at hr
    cases hr
    refine ⟨hcorrect, ?_, h.heap_added f, ?_, ?_⟩
    · rw [added, length_patch (by rw [length_le]; omega), hlen]
    · rw [h.heap_eq] at hfresh
      exact List.nodup_append.mpr
        ⟨h.nodup, List.nodup_singleton f, fun a ha b hb hab => hfresh (by simp_all)⟩
    · intro g hg
      rcases List.mem_append.mp hg with hg | hg
      · exact h.ne_zero g hg
      · rwa [List.mem_singleton.mp hg]
  | unregister index =>
    by_cases hi : index.toNat < t.live.length
    · have hlen := h.length_chains
      have hlt := h.length_live_lt
      rw [h.procfileWrite_unregister hi] at hr
      cases hr
      refine ⟨hcorrect, ?_, rfl, h.nodup.eraseIdx _, fun f hf => ?_⟩
      · rw [removed, length_patch (by rw [length_slice (by omega)]; omega), hlen]
      · exact h.ne_zero f (List.mem_of_mem_eraseIdx hf)
    · rw [h.procfileWrite_of_le (by omega)] at hr
      cases hr
      exact h

/-- **The step lemma**: which requests keep the table correct. -/
theorem step_iff (h : t.Sound) (r : Request) :
    (∃ t', procfileWrite t r = .ok t' ∧ t'.Correct) ↔ Handles t r := by
  cases r with
  | register f =>
    rw [h.procfileWrite_register]
    constructor
    · rintro ⟨t', ht', hcorrect⟩
      cases ht'
      exact (h.correct_added_iff f).mp hcorrect
    · exact fun h' => ⟨_, rfl, (h.correct_added_iff f).mpr h'⟩
  | unregister index =>
    by_cases hi : index.toNat < t.live.length
    · rw [h.procfileWrite_unregister hi]
      constructor
      · rintro ⟨t', ht', hcorrect⟩ -
        cases ht'
        exact (h.correct_removed_iff hi).mp hcorrect
      · exact fun h' => ⟨_, rfl, (h.correct_removed_iff hi).mpr (h' hi)⟩
    · exact iff_of_true ⟨t, h.procfileWrite_of_le (by omega), h.toCorrect⟩ fun h' => absurd h' hi

end Table.Sound

/-! ### Runs -/

/-- **The filter table is a list** all along a run of requests if and only if no more than 255
filters are ever registered and every removal is one of the last filter, or of the one before it if
the two pointers differ in the lowest byte only. -/
theorem filterTable_iff {rs : List Request}
    (hrs : Run.AllStepsM procfileWrite Granted initTable rs) :
    (∀ n, ∃ t, Run.execM procfileWrite initTable (rs.take n) = .ok t ∧ t.Correct) ↔
      Run.AllStepsM procfileWrite Handles initTable rs :=
  Run.forall_takeM_iff (fun _ _ _ h hgranted hr hcorrect => h.step hgranted hr hcorrect)
    (fun _ r h _ => h.step_iff r) sound_initTable sound_initTable.toCorrect hrs

/-- Three filters are registered. The one before the last is removed, which differs from the last
one in the lowest byte only, then another one is registered and removed. -/
def lastOnesRemoved : List Request :=
  [.register 0x1000, .register 0x1120, .register 0x1140, .unregister 1, .register 0x1230,
    .unregister 2]

theorem filterTable_lastOnesRemoved :
    ∃ t, Run.execM procfileWrite initTable lastOnesRemoved = .ok t ∧ t.Correct :=
  by
  have hgranted : Run.AllStepsM procfileWrite Granted initTable lastOnesRemoved := by
    decide +kernel
  exact (filterTable_iff hgranted).mpr (by decide +kernel) 6

/-- The first of three filters is removed: the second one is in the table twice then, and the third
one is lost. -/
theorem filterTable_duplicates :
    ∃ t, Run.execM procfileWrite initTable
        [.register 0x1000, .register 0x1120, .register 0x1230, .unregister 0] = .ok t ∧
      t.filters = [0x1120, 0x1120] ∧ t.live = [0x1120, 0x1230] ∧ ¬ t.Correct := by
  have hrun : (Run.execM procfileWrite initTable
      [.register 0x1000, .register 0x1120, .register 0x1230, .unregister 0]).toOption.map
        (fun t => (t.filters, t.live)) = some ([0x1120, 0x1120], [0x1120, 0x1230]) := by
    decide +kernel
  obtain ⟨t, ht, heq⟩ := Fallible.exists_ok_of_toOption hrun
  obtain ⟨hfilters, hlive⟩ := Prod.mk.inj heq
  refine ⟨t, ht, hfilters, hlive, fun h => ?_⟩
  have heq := h.filters_eq
  rw [hfilters, hlive] at heq
  exact absurd heq (by decide)

end MiaVita.Rt2501
