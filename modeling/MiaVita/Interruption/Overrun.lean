import MiaVita.Interruption.ProcEntry

/-!
# Overrun of the sample ring

The head of `proc_entry.c` asks the writer to crash when an incremented `last_write` becomes
equal to `last_read`: equal indices mean "empty" to the reader. `write_to_buffer` has no such
test, so a reader that sleeps through 1024 samples finds the ring empty, and one that sleeps
through more finds the last few.

Runs here are sequences of whole calls (`Call`), with `kmalloc` succeeding. `reports` lists what
each read gives back beside the samples written since the read before; `overrunNeverSilent_iff`
says for exactly which sequences no read is silently short.
-/

namespace MiaVita

open RingWindow

/-- A call of `write_to_buffer` or of `read_nsamples`, run to its end. -/
inductive Call where
  | write (x : Sample)
  | read
  deriving DecidableEq

/-- What can be said about one read: its result, the samples written since the previous read,
and what the writer has signalled by then. -/
structure ReadReport where
  result : ReadResult
  unread : List Sample
  signals : List Signal

/-- The reports of the reads of a sequence of calls. -/
def reports : Ring → List Sample → List Signal → List Call → List ReadReport
  | _, _, _, [] => []
  | r, unread, signals, .write x :: cs =>
    let (r', new) := r.writeToBuffer x.data x.timestamp x.seqNumber
    reports r' (unread ++ [x]) (signals ++ new) cs
  | r, unread, signals, .read :: cs =>
    let (result, r', _) := r.readNsamples fun _ => true
    ⟨result, unread, signals⟩ :: reports r' [] signals cs

/-- The samples written before each read and after the previous one, `unread` being those
written already. -/
def batches : List Sample → List Call → List (List Sample)
  | _, [] => []
  | unread, .write x :: cs => batches (unread ++ [x]) cs
  | unread, .read :: cs => unread :: batches [] cs

/-- A read is not silent about an overrun: it returns `0` only if nothing was written since the
previous read, and else returns all that was written, unless the writer has signalled. -/
def ReadReport.NotSilent (rep : ReadReport) : Prop :=
  (rep.result.ret = 0 → rep.unread = []) ∧
    (rep.unread ≠ [] →
      (rep.result.beSamples = rep.unread ∧ rep.result.ret.toNat = rep.unread.length) ∨
        rep.signals ≠ [])

/-- No read of the sequence is silent about an overrun. -/
def OverrunNeverSilent (circBuffer : Fin circBufSize → Sample) (cs : List Call) : Prop :=
  ∀ rep ∈ reports (.start circBuffer) [] [] cs, rep.NotSilent

/-! ### One read -/

/-- The count is the distance of the indices around the ring. -/
private theorem toNat_samplesToCopy {r w : UInt32} (hr : r.toNat < 1024) (hw : w.toNat < 1024)
    (hne : r ≠ w) : (samplesToCopy r w).toNat = (w.toNat + 1024 - r.toNat) % 1024 := by
  have hne' : r.toNat ≠ w.toNat := fun h => hne (UInt32.toNat_inj.mp h)
  rw [samplesToCopy]
  split_ifs with hgt <;> rw [gt_iff_lt, UInt32.lt_iff_toNat_lt] at hgt
  · simp only [UInt32.toNat_add, UInt32.toNat_sub, UInt32.toNat_ofNat]
    omega
  · rw [UInt32.toNat_sub]
    omega

/-- The copy loop reads the window after `last_read`. -/
private theorem copySamples_eq_window (r : Ring) (n : UInt32) :
    r.copySamples n = window r.circBuffer r.lastRead.toNat n.toNat := by
  rw [Ring.copySamples, window]
  refine List.map_congr_left fun i hi => ?_
  have hi' := List.mem_range.mp hi
  have hn : n.toNat < 2 ^ 32 := n.toNat_lt
  congr 1
  rw [cell_eq_ofNat, UInt32.toNat_add, UInt32.toNat_add, UInt32.toNat_one, UInt32.toNat_ofNat']
  refine Fin.ext ?_
  change ((r.lastRead.toNat + 1) % 2 ^ 32 + i % 2 ^ 32) % 2 ^ 32 % 1024 =
    (r.lastRead.toNat + i + 1) % 1024
  omega

/-- The ring after `unread` was written over a base position both indices were at: the cells
are vouched for only while the writer has not lapped. -/
structure Ring.Behind (r : Ring) (base : ℕ) (unread : List Sample) : Prop where
  lastRead_eq : r.lastRead.toNat = base % 1024
  lastWrite_eq : r.lastWrite.toNat = (base + unread.length) % 1024
  holds : unread.length ≤ 1023 → Holds r.circBuffer base unread

private theorem Ring.behind_start (circBuffer : Fin circBufSize → Sample) :
    (Ring.start circBuffer).Behind 0 [] where
  lastRead_eq := rfl
  lastWrite_eq := rfl
  holds _ := holds_nil _ _

private theorem Ring.Behind.write {r : Ring} {base : ℕ} {unread : List Sample}
    (h : r.Behind base unread) (x : Sample) :
    (r.writeToBuffer x.data x.timestamp x.seqNumber).1.Behind base (unread ++ [x]) := by
  have hlw := h.lastWrite_eq
  rw [Ring.writeToBuffer_fst]
  refine ⟨h.lastRead_eq, ?_, fun hlen => ?_⟩
  · simp only [toNat_quickModule, UInt32.toNat_add, UInt32.toNat_one, List.length_append,
      List.length_singleton]
    omega
  · rw [List.length_append, List.length_singleton] at hlen
    have hcell : Fin.ofNat circBufSize (base + unread.length + 1) =
        Fin.ofNat circBufSize (r.lastWrite.toNat + 1) := by
      refine Fin.ext ?_
      change (base + unread.length + 1) % 1024 = (r.lastWrite.toNat + 1) % 1024
      omega
    have hroom : unread.length < circBufSize := Nat.lt_of_lt_of_le hlen (by decide)
    have := (h.holds (by omega)).push hroom x
    rwa [hcell] at this

/-- **What one read gives back**: the number of unread samples modulo the size of the ring, all
of them when they fit, and a ring with both indices together again. -/
theorem Ring.Behind.read {r : Ring} {base : ℕ} {unread : List Sample}
    (h : r.Behind base unread) :
    let out := r.readNsamples fun _ => true
    out.1.ret.toNat = unread.length % 1024 ∧
      (unread.length ≤ 1023 → out.1.beSamples = unread) ∧
      out.2.1.Behind (base + unread.length) [] := by
  have hlr := h.lastRead_eq
  have hlw := h.lastWrite_eq
  intro out
  by_cases heq : r.lastRead = r.lastWrite
  · have hout : out = (.nothing, r, []) := by
      simp only [out, Ring.readNsamples, if_pos heq]
    have hmod : unread.length % 1024 = 0 := by
      rw [heq] at hlr
      omega
    rw [hout]
    refine ⟨by simpa [ReadResult.nothing] using hmod.symm, fun hlen => ?_, ?_⟩
    · have : unread.length = 0 := by omega
      rw [List.length_eq_zero_iff.mp this]
      rfl
    · exact ⟨by rw [heq, hlw], hlw, fun _ => holds_nil _ _⟩
  · have hn := toNat_samplesToCopy (by omega) (by omega) heq
    set n := samplesToCopy r.lastRead r.lastWrite with hdef
    have hn' : n.toNat = unread.length % 1024 := by omega
    refine ⟨?_, fun hlen => ?_, ?_⟩
    · simpa only [out, Ring.readNsamples, heq, if_false, if_true] using hn'
    · have hcopy : out.1.beSamples = r.copySamples n := by
        simp only [out, Ring.readNsamples, heq, if_false, if_true, ← hdef]
      have hbase : window r.circBuffer r.lastRead.toNat n.toNat =
          window r.circBuffer base n.toNat := by
        refine List.map_congr_left fun i _ => ?_
        congr 1
        refine Fin.ext ?_
        change (r.lastRead.toNat + i + 1) % 1024 = (base + i + 1) % 1024
        omega
      rw [hcopy, copySamples_eq_window, hbase, (h.holds hlen).window_eq (by omega),
        List.take_of_length_le (by omega)]
    · have hring : out.2.1 = { r with lastRead := quickModule (r.lastRead + n) } := by
        simp only [out, Ring.readNsamples, heq, if_false, if_true, ← hdef]
      rw [hring]
      refine ⟨?_, by simpa using hlw, fun _ => holds_nil _ _⟩
      simp only [toNat_quickModule, UInt32.toNat_add, hlr, hn']
      omega

/-! ### Whole sequences -/

/-- A read is silent about an overrun exactly when a whole lap is unread. -/
private theorem Ring.Behind.notSilent_iff {r : Ring} {base : ℕ} {unread : List Sample}
    (h : r.Behind base unread) :
    (ReadReport.mk (r.readNsamples fun _ => true).1 unread []).NotSilent ↔
      unread.length ≤ 1023 := by
  obtain ⟨hret, hall, -⟩ := h.read
  constructor
  · rintro ⟨-, hall'⟩
    by_contra hlong
    have hne : unread ≠ [] := by
      rintro rfl
      simp at hlong
    rcases hall' hne with ⟨-, hcount⟩ | hsig
    · simp only at hcount
      omega
    · exact hsig rfl
  · intro hlen
    refine ⟨fun hzero => ?_, fun _ => Or.inl ⟨hall hlen, ?_⟩⟩
    · simp only at hzero
      rw [hzero, UInt32.toNat_zero] at hret
      have hnil : unread.length = 0 := by omega
      exact List.length_eq_zero_iff.mp hnil
    · simp only
      omega

/-- From any ring between two reads: no later read is silent exactly when no later batch is a
whole lap long. -/
private theorem Ring.Behind.reports_notSilent_iff {r : Ring} {base : ℕ} {unread : List Sample}
    (h : r.Behind base unread) (cs : List Call) :
    (∀ rep ∈ reports r unread [] cs, rep.NotSilent) ↔
      ∀ batch ∈ batches unread cs, batch.length ≤ 1023 := by
  induction cs generalizing r base unread with
  | nil => simp [reports, batches]
  | cons c cs ih =>
    cases c with
    | write x => exact ih (h.write x)
    | read =>
      simp only [reports, batches, List.forall_mem_cons]
      exact and_congr h.notSilent_iff (ih h.read.2.2)

/-- **Overrun is never silent, exactly on the sequences without one.** For every sequence of
calls: each read returns `0` only if nothing was written since the previous one, and else
everything that was or after a signal of the writer, if and only if never more than 1023
samples are written between two reads. -/
theorem overrunNeverSilent_iff (circBuffer : Fin circBufSize → Sample) (cs : List Call) :
    OverrunNeverSilent circBuffer cs ↔ ∀ batch ∈ batches [] cs, batch.length ≤ 1023 :=
  (Ring.behind_start circBuffer).reports_notSilent_iff cs

/-- A read after 1024 samples is silent about them. -/
theorem overrun_silent_after_1024 :
    ¬ OverrunNeverSilent (fun _ => ⟨0, 0, #v[0, 0, 0]⟩)
      (List.replicate 1024 (.write ⟨7, 7, #v[7, 7, 7]⟩) ++ [.read]) := by
  have hbatches : ∀ (n : ℕ) (unread : List Sample) (x : Sample),
      batches unread (List.replicate n (.write x) ++ [.read]) =
        [unread ++ List.replicate n x] := by
    intro n unread x
    induction n generalizing unread with
    | zero => simp [batches]
    | succ n ih =>
      rw [List.replicate_succ, List.cons_append, batches, ih, List.append_assoc,
        List.replicate_succ]
      rfl
  intro h
  have := ((Ring.behind_start _).reports_notSilent_iff _).mp h
  rw [hbatches] at this
  have hlen := this _ (List.mem_singleton_self _)
  rw [List.nil_append, List.length_replicate] at hlen
  exact absurd hlen (by decide)

end MiaVita
