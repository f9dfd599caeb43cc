import MiaVita.Interruption.ProcEntry

/-!
# The sample ring is a lossless queue under interrupts

`read_nsamples` loads `last_write` up to four times without a snapshot, so the emptiness test,
the choice of branch and the count can each see a different value. As long as the writer never
gets a whole buffer ahead of the reader, none of this loses or repeats a sample:
`sampleRing_lossless`.

The argument is one invariant (`Sys.Inv`) over the positions of the reader. A count taken in
the right branch is the number of samples pending at the last load; a count taken in the branch
for `last_read < last_write` after the writer wrapped is a little below `2 ^ 32`, its allocation
size wraps to a little below `2 ^ 32` too, and `kmalloc` refuses it
(`aheadCount_or_refused`).
-/

namespace MiaVita

open RingWindow

/-! ### The invariant -/

/-- The array filled so far: `i` of the `n` samples, all of them still pending. -/
structure Copied (consumed : ℕ) (written : List Sample) (n i : UInt32) (acc : List Sample) :
    Prop where
  pending : consumed + n.toNat ≤ written.length
  le : i.toNat ≤ n.toNat
  acc_eq : acc = (written.drop consumed).take i.toNat

/-- What the locals of the running call are worth. `last_read` moves only by the reader's own
hand, so a loaded value of it stays current; a loaded `last_write` is the index of some moment
since, and `gtRead` on, of a moment with something pending. -/
def ReaderInv (consumed : ℕ) (written : List Sample) : Reader → Prop
  | .idle => True
  | .entry => True
  | .eqRead _ => True
  | .eqWrite _ r => r.toNat = consumed % 1024
  | .gtRead _ => consumed < written.length
  | .gtWrite _ r => r.toNat = consumed % 1024 ∧ consumed < written.length
  | .wrapRead _ => 1024 ≤ consumed % 1024 + (written.length - consumed)
  | .wrapWrite _ r =>
    r.toNat = consumed % 1024 ∧ 1024 ≤ consumed % 1024 + (written.length - consumed)
  | .aheadWrite _ => consumed < written.length
  | .aheadRead _ w => ∃ m, consumed < m ∧ m ≤ written.length ∧ w.toNat = m % 1024
  | .alloc _ n => consumed + n.toNat ≤ written.length ∨ kmallocMax < n * sizeofSample
  | .copyRead _ n i acc => Copied consumed written n i acc ∧ i < n
  | .copyCell _ n i acc r =>
    Copied consumed written n i acc ∧ i < n ∧ r.toNat = consumed % 1024
  | .advanceRead _ n acc => Copied consumed written n n acc
  | .advanceWrite _ n acc r => Copied consumed written n n acc ∧ r.toNat = consumed % 1024
  | .check _ n acc => n.toNat = acc.length ∧ acc.length ≤ 1023

/-- The samples already consumed whose call has not returned yet. -/
def Reader.inFlight : Reader → List Sample
  | .check _ _ acc => acc
  | _ => []

/-- The invariant of the ring. -/
structure Sys.Inv (s : Sys) : Prop where
  consumed_le : s.consumed ≤ s.written.length
  lastRead_eq : s.ring.lastRead.toNat = s.consumed % 1024
  lastWrite_eq : s.ring.lastWrite.toNat = s.written.length % 1024
  holds : Holds s.ring.circBuffer s.consumed (s.written.drop s.consumed)
  results : ∀ res ∈ s.returned,
    res.ret.toNat = res.beSamples.length ∧ res.beSamples.length ≤ 1023
  history : (s.returned.map (·.beSamples)).flatten ++ s.reader.inFlight =
    s.written.take s.consumed
  reader_inv : ReaderInv s.consumed s.written s.reader

theorem Sys.inv_start (circBuffer : Fin circBufSize → Sample) : (Sys.start circBuffer).Inv where
  consumed_le := le_rfl
  lastRead_eq := rfl
  lastWrite_eq := rfl
  holds := holds_nil _ _
  results := by simp [Sys.start]
  history := rfl
  reader_inv := trivial

/-! ### A write keeps it -/

private theorem Copied.write {consumed : ℕ} {written : List Sample} {n i : UInt32}
    {acc : List Sample} (h : Copied consumed written n i acc) (x : Sample) :
    Copied consumed (written ++ [x]) n i acc where
  pending := by
    rw [List.length_append]
    exact h.pending.trans (Nat.le_add_right _ _)
  le := h.le
  acc_eq := by
    have h₁ := h.pending
    have h₂ := h.le
    rw [List.drop_append_of_le_length (by omega), List.take_append_of_le_length]
    · exact h.acc_eq
    · rw [List.length_drop]
      omega

/-- Nothing the reader knows is spoiled by a sample more. -/
private theorem ReaderInv.write {consumed : ℕ} {written : List Sample} {pc : Reader}
    (h : ReaderInv consumed written pc) (x : Sample) :
    ReaderInv consumed (written ++ [x]) pc := by
  have hlen : (written ++ [x]).length = written.length + 1 := by simp
  cases pc with
  | idle | entry | eqRead | eqWrite | check => exact h
  | gtRead | aheadWrite => exact Nat.lt_of_lt_of_le h (by omega)
  | gtWrite => exact ⟨h.1, Nat.lt_of_lt_of_le h.2 (by omega)⟩
  | wrapRead =>
    simp only [ReaderInv] at h ⊢
    omega
  | wrapWrite =>
    simp only [ReaderInv] at h ⊢
    omega
  | aheadRead =>
    obtain ⟨m, h₁, h₂, h₃⟩ := h
    exact ⟨m, h₁, by omega, h₃⟩
  | alloc => exact h.imp_left fun hn => by omega
  | copyRead => exact ⟨h.1.write x, h.2⟩
  | copyCell => exact ⟨h.1.write x, h.2⟩
  | advanceRead => exact Copied.write h x
  | advanceWrite => exact ⟨h.1.write x, h.2⟩

/-- `write_to_buffer` keeps the invariant while it does not fill the last free cell. -/
theorem Sys.Inv.write {s : Sys} (h : s.Inv) (x : Sample) (hroom : s.pending < 1023) :
    (s.step (.write x)).Inv := by
  have hle := h.consumed_le
  have hstep : s.step (.write x) =
      { s with
        ring := { s.ring with
          lastWrite := quickModule (s.ring.lastWrite + 1)
          circBuffer := Function.update s.ring.circBuffer
            (Fin.ofNat circBufSize (s.ring.lastWrite.toNat + 1)) x }
        written := s.written ++ [x]
        log := s.log ++ [] } := by
    rw [← Ring.writeToBuffer_fst]
    rfl
  rw [hstep]
  refine ⟨?_, h.lastRead_eq, ?_, ?_, h.results, ?_, h.reader_inv.write x⟩
  · simp only [List.length_append, List.length_singleton]
    omega
  · have := h.lastWrite_eq
    simp only [toNat_quickModule, UInt32.toNat_add, UInt32.toNat_one, List.length_append,
      List.length_singleton]
    omega
  · have hpush := h.holds.push (by
      rw [List.length_drop]
      exact Nat.lt_of_lt_of_le hroom (by decide)) x
    have hcell : Fin.ofNat circBufSize (s.consumed + (s.written.drop s.consumed).length + 1) =
        Fin.ofNat circBufSize (s.ring.lastWrite.toNat + 1) := by
      have hw := h.lastWrite_eq
      refine Fin.ext ?_
      rw [List.length_drop]
      change (s.consumed + (s.written.length - s.consumed) + 1) % 1024 =
        (s.ring.lastWrite.toNat + 1) % 1024
      omega
    simp only [List.drop_append_of_le_length hle]
    rw [← hcell]
    exact hpush
  · simp only [List.take_append_of_le_length hle]
    exact h.history

/-! ### An access of the reader keeps it -/

/-- **The right branch.** With the writer wrapped, the count is the number of samples pending
at the load of `last_write`. -/
theorem toNat_wrapCount {r w : UInt32} {consumed len : ℕ} (hr : r.toNat = consumed % 1024)
    (hw : w.toNat = len % 1024) (hle : consumed ≤ len) (hbound : len - consumed ≤ 1023)
    (hwrap : 1024 ≤ consumed % 1024 + (len - consumed)) :
    ((1024 - 1 - r) + (w - 0) + 1).toNat = len - consumed := by
  simp only [UInt32.toNat_add, UInt32.toNat_sub, UInt32.toNat_ofNat, hr, hw]
  omega

/-- **The other branch, and the wrong one.** The count loaded in the branch for
`last_read < last_write` is the number of samples pending at that load, or, if the writer has
wrapped since the test, so large that its size in bytes cannot be allocated. -/
theorem aheadCount_or_refused {r w : UInt32} {consumed m : ℕ} (hr : r.toNat = consumed % 1024)
    (hw : w.toNat = m % 1024) (hlt : consumed < m) (hbound : m - consumed ≤ 1023) :
    (w - r).toNat = m - consumed ∨ kmallocMax < (w - r) * sizeofSample := by
  have hsub : (w - r).toNat = (2 ^ 32 - r.toNat + w.toNat) % 2 ^ 32 := UInt32.toNat_sub w r
  rcases Nat.lt_or_ge w.toNat r.toNat with hwrap | hahead
  · right
    obtain ⟨k, hk, hk', hcount⟩ : ∃ k, 0 < k ∧ k ≤ 1023 ∧ (w - r).toNat = 2 ^ 32 - k :=
      ⟨r.toNat - w.toNat, by omega, by omega, by omega⟩
    have hmul : ((w - r) * sizeofSample).toNat = (w - r).toNat * 24 % 2 ^ 32 :=
      UInt32.toNat_mul _ _
    have hmax : kmallocMax.toNat = 4194304 := by decide
    -- the size is `24 k` below `2 ^ 32`
    have hsize : (2 ^ 32 - k) * 24 = 2 ^ 32 * 23 + (2 ^ 32 - 24 * k) := by omega
    rw [UInt32.lt_iff_toNat_lt, hmul, hcount, hmax, hsize, Nat.mul_add_mod,
      Nat.mod_eq_of_lt (by omega)]
    omega
  · left
    rw [hsub]
    omega

/-- Returning what is in flight keeps the invariant. -/
private theorem Sys.Inv.ret {s : Sys} (h : s.Inv) {res : ReadResult}
    (hflight : s.reader.inFlight = res.beSamples)
    (hres : res.ret.toNat = res.beSamples.length ∧ res.beSamples.length ≤ 1023)
    (log : List Signal) : (s.ret res log).Inv := by
  refine ⟨h.consumed_le, h.lastRead_eq, h.lastWrite_eq, h.holds, ?_, ?_, trivial⟩
  · intro res' hmem
    rcases List.mem_append.mp hmem with hold | hnew
    · exact h.results res' hold
    · rw [List.mem_singleton.mp hnew]
      exact hres
  · have hist := h.history
    rw [hflight] at hist
    simpa [Sys.ret, Reader.inFlight] using hist

private theorem Sys.Inv.ret_nothing {s : Sys} (h : s.Inv) (hflight : s.reader.inFlight = [])
    (log : List Signal) : (s.ret .nothing log).Inv :=
  h.ret hflight (by simp [ReadResult.nothing]) log

/-- A step that only moves the reader on keeps the invariant if the new position's own part
holds. -/
theorem Sys.Inv.moveTo {s : Sys} (h : s.Inv) (hflight : s.reader.inFlight = []) {pc : Reader}
    (hflight' : pc.inFlight = []) (hpc : ReaderInv s.consumed s.written pc) :
    Sys.Inv { s with reader := pc } := by
  refine ⟨h.consumed_le, h.lastRead_eq, h.lastWrite_eq, h.holds, h.results, ?_, hpc⟩
  have := h.history
  rw [hflight] at this
  simp only [hflight']
  exact this

private theorem loopTest_inv {consumed : ℕ} {written : List Sample} {n i : UInt32}
    {acc : List Sample} (tmp : UInt32) (h : Copied consumed written n i acc) :
    (loopTest tmp n i acc).inFlight = [] ∧ ReaderInv consumed written (loopTest tmp n i acc) := by
  rw [loopTest]
  split_ifs with hi
  · exact ⟨rfl, h, hi⟩
  · have hni : i = n := by
      have := h.le
      rw [UInt32.lt_iff_toNat_lt] at hi
      exact UInt32.toNat_inj.mp (by omega)
    subst hni
    exact ⟨rfl, h⟩

/-- The next cell of the copy loop is the next pending sample. -/
private theorem Sys.Inv.copied_succ {s : Sys} (h : s.Inv) {n i r : UInt32} {acc : List Sample}
    (hc : Copied s.consumed s.written n i acc) (hi : i < n) (hr : r.toNat = s.consumed % 1024) :
    Copied s.consumed s.written n (i + 1) (acc ++ [s.ring.circBuffer (cell (r + 1 + i))]) := by
  have hpend := hc.pending
  have hn : n.toNat < 2 ^ 32 := n.toNat_lt
  rw [UInt32.lt_iff_toNat_lt] at hi
  have hsucc : (i + 1).toNat = i.toNat + 1 := by
    rw [UInt32.toNat_add, UInt32.toNat_one]
    omega
  have hi' : i.toNat < (s.written.drop s.consumed).length := by
    rw [List.length_drop]
    omega
  have hcell : cell (r + 1 + i) = Fin.ofNat circBufSize (s.consumed + i.toNat + 1) := by
    rw [cell_eq_ofNat, UInt32.toNat_add, UInt32.toNat_add, UInt32.toNat_one, hr]
    refine Fin.ext ?_
    change ((s.consumed % 1024 + 1) % 2 ^ 32 + i.toNat) % 2 ^ 32 % 1024 =
      (s.consumed + i.toNat + 1) % 1024
    omega
  refine ⟨hpend, by omega, ?_⟩
  rw [hsucc, List.take_add_one, List.getElem?_eq_getElem hi', hcell, h.holds i.toNat hi', hc.acc_eq]
  rfl

/-- Moving `last_read` past the copied samples. -/
private theorem Sys.Inv.advance {s : Sys} (h : s.Inv) (hbound : s.pending ≤ 1023)
    (hflight : s.reader.inFlight = []) {tmp n r : UInt32} {acc : List Sample}
    (hc : Copied s.consumed s.written n n acc) (hr : r.toNat = s.consumed % 1024) :
    Sys.Inv
      { s with
        ring := { s.ring with lastRead := quickModule (r + n) }
        reader := .check tmp n acc
        consumed := s.consumed + n.toNat } := by
  have hpend := hc.pending
  have hn : n.toNat ≤ 1023 := by
    rw [Sys.pending] at hbound
    omega
  have hacc : acc.length = n.toNat := by
    rw [hc.acc_eq, List.length_take, List.length_drop]
    omega
  refine ⟨hpend, ?_, h.lastWrite_eq, ?_, h.results, ?_, hacc.symm, by omega⟩
  · simp only [toNat_quickModule, UInt32.toNat_add, hr]
    omega
  · have := h.holds.drop n.toNat
    rwa [List.drop_drop] at this
  · have hist := h.history
    rw [hflight, List.append_nil] at hist
    simp only [Reader.inFlight, hist, hc.acc_eq]
    rw [List.take_add]

/-- Every access of the reader keeps the invariant. -/
theorem Sys.Inv.access {s : Sys} (h : s.Inv) (hbound : s.pending ≤ 1023) (grant : Bool) :
    (readerStep s grant).Inv := by
  have hle := h.consumed_le
  have hrd := h.lastRead_eq
  have hwr := h.lastWrite_eq
  have hpc := h.reader_inv
  rw [Sys.pending] at hbound
  rw [readerStep]
  cases hreader : s.reader with
  | idle => simpa only [hreader] using h
  | entry => exact h.moveTo (by rw [hreader]; rfl) rfl trivial
  | eqRead tmp => exact h.moveTo (by rw [hreader]; rfl) rfl hrd
  | eqWrite tmp r =>
    rw [hreader] at hpc
    dsimp only
    split_ifs with heq
    · exact h.ret_nothing (by rw [hreader]; rfl) _
    · refine h.moveTo (by rw [hreader]; rfl) rfl ?_
      -- equal indices would mean nothing pending, the bound excluding a whole lap
      have hne : r.toNat ≠ s.ring.lastWrite.toNat := fun h' => heq (UInt32.toNat_inj.mp h')
      simp only [ReaderInv] at hpc ⊢
      omega
  | gtRead tmp =>
    rw [hreader] at hpc
    exact h.moveTo (by rw [hreader]; rfl) rfl ⟨hrd, hpc⟩
  | gtWrite tmp r =>
    rw [hreader] at hpc
    obtain ⟨hr, hlt⟩ := hpc
    dsimp only
    split_ifs with hgt
    · refine h.moveTo (by rw [hreader]; rfl) rfl ?_
      rw [gt_iff_lt, UInt32.lt_iff_toNat_lt] at hgt
      simp only [ReaderInv]
      omega
    · exact h.moveTo (by rw [hreader]; rfl) rfl hlt
  | wrapRead tmp =>
    rw [hreader] at hpc
    exact h.moveTo (by rw [hreader]; rfl) rfl ⟨hrd, hpc⟩
  | wrapWrite tmp r =>
    rw [hreader] at hpc
    refine h.moveTo (by rw [hreader]; rfl) rfl (Or.inl ?_)
    rw [toNat_wrapCount hpc.1 hwr hle hbound hpc.2]
    omega
  | aheadWrite tmp =>
    rw [hreader] at hpc
    exact h.moveTo (by rw [hreader]; rfl) rfl ⟨s.written.length, hpc, le_rfl, hwr⟩
  | aheadRead tmp w =>
    rw [hreader] at hpc
    obtain ⟨m, hlt, hm, hw⟩ := hpc
    refine h.moveTo (by rw [hreader]; rfl) rfl ?_
    exact (aheadCount_or_refused hrd hw hlt (by omega)).imp_left fun hn => by omega
  | alloc tmp n =>
    rw [hreader] at hpc
    dsimp only
    split_ifs with hk
    · have hpend : s.consumed + n.toNat ≤ s.written.length :=
        hpc.resolve_right fun hbig => absurd hk.2 (UInt32.not_le.mpr hbig)
      have hc : Copied s.consumed s.written n 0 [] := ⟨hpend, by simp, by simp⟩
      obtain ⟨hfl, hinv⟩ := loopTest_inv tmp hc
      exact h.moveTo (by rw [hreader]; rfl) hfl hinv
    · exact h.ret_nothing (by rw [hreader]; rfl) _
  | copyRead tmp n i acc =>
    rw [hreader] at hpc
    exact h.moveTo (by rw [hreader]; rfl) rfl ⟨hpc.1, hpc.2, hrd⟩
  | copyCell tmp n i acc r =>
    rw [hreader] at hpc
    obtain ⟨hfl, hinv⟩ := loopTest_inv tmp (h.copied_succ hpc.1 hpc.2.1 hpc.2.2)
    exact h.moveTo (by rw [hreader]; rfl) hfl hinv
  | advanceRead tmp n acc =>
    rw [hreader] at hpc
    exact h.moveTo (by rw [hreader]; rfl) rfl ⟨hpc, hrd⟩
  | advanceWrite tmp n acc r =>
    rw [hreader] at hpc
    exact h.advance hbound (by rw [hreader]; rfl) hpc.1 hpc.2
  | check tmp n acc =>
    rw [hreader] at hpc
    refine h.ret ?_ ?_ _
    · rw [hreader]
      rfl
    · exact hpc

/-! ### Whole runs -/

/-- One step of the system keeps the invariant if at most 1023 samples are pending before and
after it. -/
private theorem Sys.Inv.step {s : Sys} {e : Event} (h : s.Inv)
    (hbound : s.pending ≤ 1023 ∧ (s.step e).pending ≤ 1023) : (s.step e).Inv := by
  cases e with
  | write x =>
    refine h.write x ?_
    have hle := h.consumed_le
    have hafter : (s.step (.write x)).pending = s.pending + 1 := by
      simp only [Sys.pending, Sys.step, List.length_append, List.length_singleton]
      omega
    omega
  | call =>
    rw [Sys.step]
    split_ifs with hidle
    · exact h.moveTo (by rw [hidle]; rfl) rfl trivial
    · exact h
  | access grant => exact h.access hbound.1 grant

/-- With the invariant, the cells between the indices are the samples not yet consumed. -/
theorem Sys.Inv.unread_eq {s : Sys} (h : s.Inv) (hbound : s.pending ≤ 1023) :
    s.ring.unread = s.written.drop s.consumed := by
  have hle := h.consumed_le
  have hrd := h.lastRead_eq
  have hwr := h.lastWrite_eq
  rw [Sys.pending] at hbound
  have hn : (s.ring.lastWrite - s.ring.lastRead).toNat % 1024 = s.written.length - s.consumed := by
    rw [UInt32.toNat_sub]
    omega
  have hbase : window s.ring.circBuffer s.ring.lastRead.toNat (s.written.length - s.consumed) =
      window s.ring.circBuffer s.consumed (s.written.length - s.consumed) := by
    rw [window, window]
    refine List.map_congr_left fun i _ => ?_
    congr 1
    refine Fin.ext ?_
    change (s.ring.lastRead.toNat + i + 1) % 1024 = (s.consumed + i + 1) % 1024
    omega
  rw [Ring.unread, hn, hbase, h.holds.window_eq (by rw [List.length_drop]),
    List.take_of_length_le (by rw [List.length_drop])]

/-- **The sample ring is a lossless FIFO.** In every run of sample interrupts and of one
reader, cut at each of its accesses, in which at no moment more than 1023 samples are pending:
whenever no call is running, the arrays returned so far followed by the samples in the ring are
the samples written, in order; and no call has returned more than 1023 samples. -/
theorem sampleRing_lossless (circBuffer : Fin circBufSize → Sample) (es : List Event)
    (hpending : ∀ k, (Run.exec Sys.step (.start circBuffer) (es.take k)).pending ≤ 1023) :
    let s := Run.exec Sys.step (.start circBuffer) es
    (s.reader = .idle →
      (s.returned.map (·.beSamples)).flatten ++ s.ring.unread = s.written) ∧
    ∀ res ∈ s.returned, res.ret.toNat = res.beSamples.length ∧ res.ret.toNat ≤ 1023 := by
  intro s
  have hinv : s.Inv :=
    Run.invariant (fun _ _ h hb => Sys.Inv.step h hb) (Sys.inv_start circBuffer)
      (Run.allSteps_of_take (B := fun s : Sys => s.pending ≤ 1023) hpending)
  have hend : s.pending ≤ 1023 := by
    have := hpending es.length
    rwa [List.take_length] at this
  constructor
  · intro hidle
    have hist := hinv.history
    rw [hidle] at hist
    change _ ++ [] = _ at hist
    rw [List.append_nil] at hist
    rw [hist, hinv.unread_eq hend, List.take_append_drop]
  · intro res hres
    obtain ⟨hret, hlen⟩ := hinv.results res hres
    exact ⟨hret, by omega⟩

/-- No more samples are pending than there were events. -/
private theorem pending_exec_le (circBuffer : Fin circBufSize → Sample) (es : List Event) :
    (Run.exec Sys.step (.start circBuffer) es).pending ≤ es.length := by
  have hstep : ∀ (s : Sys) (e : Event), (s.step e).written.length ≤ s.written.length + 1 := by
    intro s e
    cases e with
    | write x => simp [Sys.step]
    | call =>
      rw [Sys.step]
      split_ifs <;> simp
    | access grant =>
      rw [Sys.step, readerStep]
      split <;> (try split_ifs) <;> simp [Sys.ret]
  have hrun : ∀ (s : Sys), (Run.exec Sys.step s es).written.length ≤
      s.written.length + es.length := by
    induction es with
    | nil => simp
    | cons e es ih =>
      intro s
      have h₁ := ih (s.step e)
      have h₂ := hstep s e
      rw [Run.exec_cons, List.length_cons]
      omega
  have := hrun (.start circBuffer)
  simp only [Sys.start, List.length_nil, Nat.zero_add] at this
  rw [Sys.pending]
  exact (Nat.sub_le _ _).trans this

/-- A call that a second sample interrupts between its two tests. -/
def interruptedCall (x y : Sample) : List Event :=
  .write x :: .call :: List.replicate 4 (.access true) ++
    .write y :: List.replicate 11 (.access true)

/-- The second sample is copied with the first, and only the final check notices. -/
theorem sampleRing_lossless_interrupted :
    let s := Run.exec Sys.step (.start fun _ => ⟨0, 0, #v[0, 0, 0]⟩)
      (interruptedCall ⟨1, 1, #v[1, 2, 3]⟩ ⟨2, 2, #v[4, 5, 6]⟩)
    s.reader = .idle ∧ s.log = [lastReadDiffers] ∧
      s.returned = [⟨2, [⟨1, 1, #v[1, 2, 3]⟩, ⟨2, 2, #v[4, 5, 6]⟩]⟩] ∧
      (s.returned.map (·.beSamples)).flatten ++ s.ring.unread = s.written := by
  have hbound : ∀ k, (Run.exec Sys.step (.start fun _ => ⟨0, 0, #v[0, 0, 0]⟩)
      ((interruptedCall ⟨1, 1, #v[1, 2, 3]⟩ ⟨2, 2, #v[4, 5, 6]⟩).take k)).pending ≤ 1023 := by
    intro k
    refine (pending_exec_le _ _).trans ?_
    rw [List.length_take]
    exact (Nat.min_le_right _ _).trans (by decide)
  obtain ⟨hfifo, -⟩ := sampleRing_lossless _ _ hbound
  exact ⟨by decide, by decide, by decide, hfifo (by decide)⟩

end MiaVita
