import MiaVita.Lib.RingWindow
import MiaVita.Lib.Run
import Mathlib.Data.UInt

/-!
# The circular sample buffer (`interruption/proc_entry.c`)

The interrupt handler stores samples with `write_to_buffer`, the sender thread drains them
with `read_nsamples`; both share `last_write`, `last_read` and `CIRC_BUFFER`.

The reader is given twice, as the code is run twice over: `Ring.readNsamples` is the function
called with nothing in between, and `Reader` with `readerStep` is the same text cut at every
access to one of the three shared objects, so that the interrupt handler can come in at any
of them. `exec_call_eq_readNsamples` says that the second, left alone, computes the first.

Index arithmetic is that of `uint32_t`: counts and allocation sizes wrap modulo `2 ^ 32`.
-/

namespace MiaVita

/-! ### Data -/

/-- `sample_t`: one reading of the four channels, packed in three words. -/
structure Sample where
  timestamp : Int64
  seqNumber : Int32
  data : Vector UInt32 3
  deriving DecidableEq

/-- `sizeof(sample_t)`. -/
def sizeofSample : UInt32 := 24

/-- `CIRC_BUF_SIZE`. -/
abbrev circBufSize : ℕ := 1024

/-- `quick_module`: the index modulo the (power of two) buffer size. -/
def quickModule (index : UInt32) : UInt32 := index &&& 1023

theorem toNat_quickModule (i : UInt32) : (quickModule i).toNat = i.toNat % 1024 := by
  rw [quickModule, UInt32.toNat_and]
  exact Nat.and_two_pow_sub_one_eq_mod _ 10

/-- The cell of `CIRC_BUFFER` an index reaches through `quick_module`. -/
def cell (index : UInt32) : Fin circBufSize :=
  ⟨(quickModule index).toNat, by rw [toNat_quickModule]; exact Nat.mod_lt _ (by decide)⟩

theorem cell_eq_ofNat (i : UInt32) : cell i = Fin.ofNat circBufSize i.toNat :=
  Fin.ext (toNat_quickModule i)

/-- The three shared objects of the file. -/
structure Ring where
  lastWrite : UInt32
  lastRead : UInt32
  circBuffer : Fin circBufSize → Sample

/-- The state the module is loaded in: both indices at `0`. -/
def Ring.start (circBuffer : Fin circBufSize → Sample) : Ring := ⟨0, 0, circBuffer⟩

/-- What kernel code can leave behind for somebody to notice. -/
inductive Signal where
  | printk (text : String)
  | crash
  deriving DecidableEq

/-- `write_to_buffer`: advance `last_write`, then fill the cell it points to. The second
component is what the writer signals; outside of `__DEBUG__` builds the function has no
`printk`, `BUG` or `panic`. -/
def Ring.writeToBuffer (r : Ring) (value : Vector UInt32 3) (timestamp : Int64)
    (seqNumber : Int32) : Ring × List Signal :=
  let w := quickModule (r.lastWrite + 1)
  ({ r with
      lastWrite := w
      circBuffer := Function.update r.circBuffer (cell w)
        ⟨timestamp, seqNumber, #v[value[0], value[1], value[2]]⟩ }, [])

/-- What a call of `read_nsamples` gives back: its return value and the array behind
`be_samples`. -/
structure ReadResult where
  ret : UInt32
  beSamples : List Sample
  deriving DecidableEq

/-- `return 0`. -/
def ReadResult.nothing : ReadResult := ⟨0, []⟩

/-- The texts `read_nsamples` prints. -/
def kmallocFailed : Signal := .printk "Cannot read samples. Kmalloc failed."

@[inherit_doc kmallocFailed]
def lastReadDiffers : Signal :=
  .printk "Last read is different from last write. Should be due to concorrency problem"

/-! ### The reader, uninterrupted -/

/-- The number of samples the reader decides to copy. `LAST_INDEX` is the unparenthesised
`CIRC_BUF_SIZE - 1`, harmless in the one place it is used. -/
def samplesToCopy (lastRead lastWrite : UInt32) : UInt32 :=
  if lastRead > lastWrite then (1024 - 1 - lastRead) + (lastWrite - 0) + 1
  else lastWrite - lastRead

/-- The copy loop: the `n` samples after `last_read`. -/
def Ring.copySamples (r : Ring) (n : UInt32) : List Sample :=
  (List.range n.toNat).map fun i => r.circBuffer (cell (r.lastRead + 1 + UInt32.ofNat i))

/-- `read_nsamples` with nothing in between; `kmalloc` says which sizes are granted. -/
def Ring.readNsamples (kmalloc : UInt32 → Bool) (r : Ring) : ReadResult × Ring × List Signal :=
  if r.lastRead = r.lastWrite then (.nothing, r, [])
  else
    let n := samplesToCopy r.lastRead r.lastWrite
    if kmalloc (n * sizeofSample) then
      let r' := { r with lastRead := quickModule (r.lastRead + n) }
      (⟨n, r.copySamples n⟩, r', if r'.lastRead ≠ r.lastWrite then [lastReadDiffers] else [])
    else (.nothing, r, [kmallocFailed])

/-! ### The reader, cut at every shared access -/

/-- Where `read_nsamples` stands, with the locals that are still needed: `tmp` is
`last_write_tmp`, `n` is `samples_to_copy`, `i` and `acc` the loop counter and the filled part
of the array, `r` and `w` a value of `last_read` or `last_write` just loaded. Each constructor
but `idle` stands before one access to a shared object (`alloc`: before the `kmalloc`). -/
inductive Reader where
  | idle
  | entry
  | eqRead (tmp : UInt32)
  | eqWrite (tmp r : UInt32)
  | gtRead (tmp : UInt32)
  | gtWrite (tmp r : UInt32)
  | wrapRead (tmp : UInt32)
  | wrapWrite (tmp r : UInt32)
  | aheadWrite (tmp : UInt32)
  | aheadRead (tmp w : UInt32)
  | alloc (tmp n : UInt32)
  | copyRead (tmp n i : UInt32) (acc : List Sample)
  | copyCell (tmp n i : UInt32) (acc : List Sample) (r : UInt32)
  | advanceRead (tmp n : UInt32) (acc : List Sample)
  | advanceWrite (tmp n : UInt32) (acc : List Sample) (r : UInt32)
  | check (tmp n : UInt32) (acc : List Sample)
  deriving DecidableEq

/-- The whole system: the shared objects, the reader, and the history the properties speak
about (`written` and `consumed` record, they are never read by the code). -/
structure Sys where
  ring : Ring
  reader : Reader
  /-- The samples passed to `write_to_buffer` so far. -/
  written : List Sample
  /-- How many of them `last_read` has moved past. -/
  consumed : ℕ
  /-- The results of the calls of `read_nsamples` that have returned. -/
  returned : List ReadResult
  log : List Signal

/-- The largest request `kmalloc` can grant. -/
def kmallocMax : UInt32 := 4 * 1024 * 1024

/-- A call returns: the reader is idle again. -/
def Sys.ret (s : Sys) (res : ReadResult) (log : List Signal) : Sys :=
  { s with reader := .idle, returned := s.returned ++ [res], log := s.log ++ log }

/-- The loop test `i < samples_to_copy`, on locals only. -/
def loopTest (tmp n i : UInt32) (acc : List Sample) : Reader :=
  if i < n then .copyRead tmp n i acc else .advanceRead tmp n acc

/-- One access of the reader, and the local computation up to the next. `grant` is the luck of
a `kmalloc`; requests above `kmallocMax` fail whatever it says. -/
def readerStep (s : Sys) (grant : Bool) : Sys :=
  match s.reader with
  | .idle => s
  | .entry => { s with reader := .eqRead s.ring.lastWrite }
  | .eqRead tmp => { s with reader := .eqWrite tmp s.ring.lastRead }
  | .eqWrite tmp r =>
    if r = s.ring.lastWrite then s.ret .nothing [] else { s with reader := .gtRead tmp }
  | .gtRead tmp => { s with reader := .gtWrite tmp s.ring.lastRead }
  | .gtWrite tmp r =>
    if r > s.ring.lastWrite then { s with reader := .wrapRead tmp }
    else { s with reader := .aheadWrite tmp }
  | .wrapRead tmp => { s with reader := .wrapWrite tmp s.ring.lastRead }
  | .wrapWrite tmp r =>
    { s with reader := .alloc tmp ((1024 - 1 - r) + (s.ring.lastWrite - 0) + 1) }
  | .aheadWrite tmp => { s with reader := .aheadRead tmp s.ring.lastWrite }
  | .aheadRead tmp w => { s with reader := .alloc tmp (w - s.ring.lastRead) }
  | .alloc tmp n =>
    if grant ∧ n * sizeofSample ≤ kmallocMax then { s with reader := loopTest tmp n 0 [] }
    else s.ret .nothing [kmallocFailed]
  | .copyRead tmp n i acc => { s with reader := .copyCell tmp n i acc s.ring.lastRead }
  | .copyCell tmp n i acc r =>
    { s with reader := loopTest tmp n (i + 1) (acc ++ [s.ring.circBuffer (cell (r + 1 + i))]) }
  | .advanceRead tmp n acc => { s with reader := .advanceWrite tmp n acc s.ring.lastRead }
  | .advanceWrite tmp n acc r =>
    { s with
        ring := { s.ring with lastRead := quickModule (r + n) }
        reader := .check tmp n acc
        consumed := s.consumed + n.toNat }
  | .check tmp n acc =>
    s.ret ⟨n, acc⟩ (if s.ring.lastRead ≠ tmp then [lastReadDiffers] else [])

/-- What can happen next: a sample interrupt, the reader thread calling `read_nsamples`, or one
access of the call that is running. -/
inductive Event where
  | write (x : Sample)
  | call
  | access (grant : Bool)
  deriving DecidableEq

/-- One step of the system. The reader is one thread: a call while one is running is not
possible, and the event changes nothing. -/
def Sys.step (s : Sys) : Event → Sys
  | .write x =>
    let (ring, signals) := s.ring.writeToBuffer x.data x.timestamp x.seqNumber
    { s with ring := ring, written := s.written ++ [x], log := s.log ++ signals }
  | .call => if s.reader = .idle then { s with reader := .entry } else s
  | .access grant => readerStep s grant

/-- The state the module is loaded in, before anything is written or read. -/
def Sys.start (circBuffer : Fin circBufSize → Sample) : Sys :=
  ⟨.start circBuffer, .idle, [], 0, [], []⟩

/-- The samples written and not yet consumed, as a number. -/
def Sys.pending (s : Sys) : ℕ := s.written.length - s.consumed

/-- The samples written and not yet consumed, read off the shared objects: the cells after
`last_read` up to `last_write`. -/
def Ring.unread (r : Ring) : List Sample :=
  RingWindow.window r.circBuffer r.lastRead.toNat ((r.lastWrite - r.lastRead).toNat % 1024)

/-! ### What a write does -/

theorem Ring.writeToBuffer_fst (r : Ring) (x : Sample) :
    (r.writeToBuffer x.data x.timestamp x.seqNumber).1 =
      { r with
        lastWrite := quickModule (r.lastWrite + 1)
        circBuffer := Function.update r.circBuffer
          (Fin.ofNat circBufSize (r.lastWrite.toNat + 1)) x } := by
  have hdata : #v[x.data[0], x.data[1], x.data[2]] = x.data := by
    refine Vector.ext fun i hi => ?_
    match i, hi with
    | 0, _ => rfl
    | 1, _ => rfl
    | 2, _ => rfl
  have hcell : cell (quickModule (r.lastWrite + 1)) =
      Fin.ofNat circBufSize (r.lastWrite.toNat + 1) := by
    rw [cell_eq_ofNat, toNat_quickModule, UInt32.toNat_add, UInt32.toNat_one]
    refine Fin.ext ?_
    change (r.lastWrite.toNat + 1) % 2 ^ 32 % 1024 % 1024 = (r.lastWrite.toNat + 1) % 1024
    omega
  rw [writeToBuffer, hdata, hcell]

/-! ### The cut reader, left alone -/

/-- Some number of accesses, with every `kmalloc` in luck, leads from `s` to `s'`. -/
def Sys.Reaches (s s' : Sys) : Prop :=
  ∃ k, Run.exec Sys.step s (List.replicate k (.access true)) = s'

private theorem Sys.Reaches.refl (s : Sys) : s.Reaches s := ⟨0, rfl⟩

/-- One access first. -/
private theorem Sys.Reaches.access {s s' : Sys} (h : (readerStep s true).Reaches s') :
    s.Reaches s' := by
  obtain ⟨k, hk⟩ := h
  exact ⟨k + 1, by rw [List.replicate_succ, Run.exec_cons]; exact hk⟩

/-- The copy loop, from any iteration on, ends with the whole array. -/
private theorem reaches_copySamples (s : Sys) (tmp n : UInt32) {d : ℕ} :
    ∀ {i : UInt32}, n.toNat = i.toNat + d → ∀ {s' : Sys},
      Sys.Reaches { s with reader := .advanceRead tmp n (s.ring.copySamples n) } s' →
      Sys.Reaches { s with reader := loopTest tmp n i (s.ring.copySamples i) } s' := by
  induction d with
  | zero =>
    intro i hi s' h
    obtain rfl : n = i := UInt32.toNat_inj.mp hi
    rwa [loopTest, if_neg (by simp)]
  | succ d ih =>
    intro i hi s' h
    have hlt : i < n := UInt32.lt_iff_toNat_lt.mpr (by omega)
    have hbound : n.toNat < 2 ^ 32 := n.toNat_lt
    have hsucc : (i + 1).toNat = i.toNat + 1 := by
      rw [UInt32.toNat_add, UInt32.toNat_one]
      omega
    have hcopy : s.ring.copySamples (i + 1) =
        s.ring.copySamples i ++ [s.ring.circBuffer (cell (s.ring.lastRead + 1 + i))] := by
      rw [Ring.copySamples, Ring.copySamples, hsucc, List.range_succ, List.map_append]
      simp
    rw [loopTest, if_pos hlt]
    refine .access (.access ?_)
    have := ih (i := i + 1) (by omega) h
    rwa [hcopy] at this

/-- Both branches load the two indices again, and arrive at the `kmalloc` with the same count. -/
private theorem reaches_alloc (s : Sys) (tmp : UInt32) {s' : Sys}
    (h : Sys.Reaches
      { s with reader := .alloc tmp (samplesToCopy s.ring.lastRead s.ring.lastWrite) } s') :
    Sys.Reaches { s with reader := .gtRead tmp } s' := by
  refine .access (.access ?_)
  by_cases hgt : s.ring.lastRead > s.ring.lastWrite
  · rw [samplesToCopy, if_pos hgt] at h
    simp only [readerStep, hgt, if_true]
    exact .access (.access h)
  · rw [samplesToCopy, if_neg hgt] at h
    simp only [readerStep, hgt, if_false]
    exact .access (.access h)

/-- **The cut reader refines the function.** A call of `read_nsamples` that is never
interrupted does, access by access, what `Ring.readNsamples` computes at once. -/
theorem exec_call_eq_readNsamples (s : Sys) (hidle : s.reader = .idle) :
    Sys.Reaches (s.step .call)
      (let out := s.ring.readNsamples (fun size => size ≤ kmallocMax)
       { s with
         ring := out.2.1
         consumed := s.consumed + out.1.ret.toNat
         returned := s.returned ++ [out.1]
         log := s.log ++ out.2.2 }) := by
  have hcall : s.step .call = { s with reader := .entry } := if_pos hidle
  rw [hcall, Ring.readNsamples]
  refine .access (.access (.access ?_))
  by_cases heq : s.ring.lastRead = s.ring.lastWrite
  · simp only [readerStep, heq, if_true, Sys.ret, ReadResult.nothing, ← hidle]
    exact .refl _
  simp only [readerStep, heq, if_false]
  refine reaches_alloc s _ (.access ?_)
  set n := samplesToCopy s.ring.lastRead s.ring.lastWrite with hn
  by_cases hk : n * sizeofSample ≤ kmallocMax
  · simp only [readerStep, hk, and_self, if_true, decide_true]
    have hzero : s.ring.copySamples 0 = [] := rfl
    rw [← hzero]
    refine reaches_copySamples s _ n (d := n.toNat) (by simp) ?_
    refine .access (.access (.access ?_))
    simp only [readerStep, Sys.ret, ← hidle]
    exact .refl _
  · simp only [readerStep, hk, and_false, if_false, decide_false, Sys.ret,
      ReadResult.nothing, ← hidle]
    exact .refl _

end MiaVita
