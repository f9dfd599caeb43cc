import MiaVita.KernelSender.SenderLoop

/-!
# The sender thread empties the buffer

`sender_accounts` says that the thread loses nothing, which a thread that does nothing does not do
either. Here is the other half: after a run in which the buffer did not overflow, from the top of
the loop, with every call successful and no interrupt in between, the thread sends whatever is in
the buffer and goes to sleep (`sender_drains`).

The call of `read_nsamples` is the uninterrupted one of `exec_call_eq_readNsamples`, so that what it
does to the ring is known at once (`Sys.Inv.unread_readNsamples`); the loop behind it is followed
sample by sample (`SenderThread.Inv.reaches_msleep`). Which samples were sent needs no argument of
its own: the accounts before and after are of the same samples.
-/

namespace MiaVita

open Fallible

variable {par : SenderParams} {s : SenderThread}

/-! ### Lucky steps -/

/-- What the kernel answers if all goes well: the thread is not to stop, and every call succeeds. -/
def SenderThread.luck (s : SenderThread) : ℤ :=
  match s.pc with
  | .shouldStop => 0
  | _ => 1

/-- Some number of steps of the thread leads from `s` to `s'`, all of them lucky and no interrupt
between them. -/
def SenderThread.Reaches (par : SenderParams) (s s' : SenderThread) : Prop :=
  ∃ k, Run.execM (fun s (_ : Unit) => s.threadStep par s.luck) s (List.replicate k ()) = .ok s'

private theorem SenderThread.Reaches.refl (par : SenderParams) (s : SenderThread) :
    s.Reaches par s :=
  ⟨0, rfl⟩

/-- One step first. -/
private theorem SenderThread.Reaches.head {s₁ s' : SenderThread}
    (h : s.threadStep par s.luck = .ok s₁) (h' : s₁.Reaches par s') : s.Reaches par s' := by
  obtain ⟨k, hk⟩ := h'
  exact ⟨k + 1, Run.execM_cons_ok.mpr ⟨s₁, h, hk⟩⟩

private theorem SenderThread.Reaches.trans {s₁ s' : SenderThread} (h : s.Reaches par s₁)
    (h' : s₁.Reaches par s') : s.Reaches par s' := by
  obtain ⟨k, hk⟩ := h
  obtain ⟨k', hk'⟩ := h'
  refine ⟨k + k', ?_⟩
  rw [List.replicate_add]
  exact Run.execM_append_ok hk hk'

/-- An idle reader makes no accesses. -/
private theorem exec_access_idle {s : Sys} (h : s.reader = .idle) (k : ℕ) :
    Run.exec Sys.step s (List.replicate k (.access true)) = s := by
  have hstep : s.step (.access true) = s := by rw [Sys.step, readerStep, h]
  induction k with
  | zero => rfl
  | succ k ih => rw [List.replicate_succ, Run.exec_cons, hstep, ih]

/-! ### One iteration -/

/-- The thread makes the accesses of `read_nsamples` until it returns. -/
private theorem SenderThread.Inv.reaches_returned {t : Sys} {k : ℕ} :
    ∀ {s : SenderThread} {array : Option ℕ}, s.Inv par → s.pc = .readNsamples array →
      Run.exec Sys.step s.sys (List.replicate k (.access true)) = t → t.reader = .idle →
      ∃ s', s.Reaches par s' ∧ s'.Inv par ∧ s'.sys = t ∧ s'.offered = s.offered ∧
        (s'.pc = .msleep ∨ ∃ a samples len, s'.pc = .preparePacket a samples len 0) := by
  induction k with
  | zero =>
    intro s array h hpc ht hidle
    have hfits := h.fits
    rw [hpc] at hfits
    exact absurd ((congrArg Sys.reader ht).trans hidle) hfits.1
  | succ k ih =>
    intro s array h hpc ht hidle
    obtain ⟨s₁, hs₁, h₁⟩ := h.readNsamples hpc 1
    have hluck : s.threadStep par s.luck = .ok s₁ := by
      rw [SenderThread.luck, hpc]
      exact hs₁
    rw [List.replicate_succ, Run.exec_cons] at ht
    change Run.exec Sys.step (readerStep s.sys true) _ = t at ht
    simp only [SenderThread.threadStep, hpc, ne_eq, one_ne_zero, not_false_eq_true,
      decide_true] at hs₁
    by_cases hdone : (readerStep s.sys true).reader = .idle
    · rw [if_pos hdone] at hs₁
      rw [exec_access_idle hdone] at ht
      obtain ⟨pool, pc, rfl, hpc₁⟩ := SenderThread.readReturned_spec hs₁
      exact ⟨_, .head hluck (.refl _ _), h₁, ht, rfl, hpc₁⟩
    · rw [if_neg hdone] at hs₁
      cases hs₁
      obtain ⟨s', hreach, hs'⟩ := ih h₁ rfl ht hidle
      exact ⟨s', .head hluck hreach, hs'⟩

/-- The loop over the samples ends, with a packet made of each of them. -/
private theorem SenderThread.Inv.reaches_msleep {array : ℕ} {samples : List Sample} {len : UInt32}
    {d : ℕ} :
    ∀ {s : SenderThread} {i : UInt32}, samples.length = i.toNat + d → s.Inv par →
      s.pc = .preparePacket array samples len i →
      ∃ s', ∃ xs : List Sample, s.Reaches par s' ∧ s'.Inv par ∧ s'.pc = .msleep ∧ s'.sys = s.sys ∧
        s'.offered = s.offered ++ xs.map (·, true) := by
  induction d with
  | zero =>
    intro s i hd h hpc
    obtain ⟨-, hlen, hi⟩ : SenderPc.Fits (.preparePacket array samples len i) s.sys.reader :=
      hpc ▸ h.fits
    rw [UInt32.lt_iff_toNat_lt] at hi
    omega
  | succ d ih =>
    intro s i hd h hpc
    obtain ⟨-, hlen, hi⟩ : SenderPc.Fits (.preparePacket array samples len i) s.sys.reader :=
      hpc ▸ h.fits
    have hlt : i.toNat < samples.length := by omega
    -- the packet is made
    obtain ⟨s₁, hs₁, h₁⟩ := h.preparePacket hpc 1
    have hluck : s.threadStep par s.luck = .ok s₁ := by
      rw [SenderThread.luck, hpc]
      exact hs₁
    simp only [SenderThread.threadStep, hpc, List.getElem?_eq_getElem hlt, MiaVita.preparePacket,
      ne_eq, one_ne_zero, not_false_eq_true, decide_true, if_true] at hs₁
    cases hs₁
    -- and sent
    obtain ⟨s₂, hs₂, h₂⟩ := h₁.sendIt rfl 1
    have hluck₂ := hs₂
    obtain ⟨pool, -, hs₂⟩ := bind_eq_ok.mp hs₂
    obtain ⟨pool', pc, rfl, hpc₂ | hpc₂⟩ := SenderThread.nextSample_spec hs₂
    · exact ⟨_, [samples[i.toNat]], .head hluck (.head hluck₂ (.refl _ _)), h₂, hpc₂, rfl, rfl⟩
    · have hd' : samples.length = (i + 1).toNat + d := by
        rw [toNat_succ_of_lt hi]
        omega
      obtain ⟨s', xs, hreach, h', hpc', hsys, hoffered⟩ := ih hd' h₂ hpc₂
      refine ⟨s', samples[i.toNat] :: xs, .head hluck (.head hluck₂ hreach), h', hpc', hsys, ?_⟩
      rw [hoffered]
      simp

/-- The number of samples that an undisturbed call copies is the number of those pending. -/
private theorem Sys.Inv.toNat_samplesToCopy {s : Sys} (h : s.Inv) (hbound : s.pending ≤ 1023) :
    (samplesToCopy s.ring.lastRead s.ring.lastWrite).toNat = s.pending := by
  have hle := h.consumed_le
  have hrd := h.lastRead_eq
  have hwr := h.lastWrite_eq
  rw [Sys.pending] at hbound ⊢
  rw [samplesToCopy]
  split_ifs with hgt
  · rw [gt_iff_lt, UInt32.lt_iff_toNat_lt] at hgt
    exact toNat_wrapCount hrd hwr hle hbound (by omega)
  · rw [gt_iff_lt, UInt32.lt_iff_toNat_lt] at hgt
    rw [UInt32.toNat_sub]
    omega

/-- An undisturbed call empties the buffer. -/
private theorem Sys.Inv.unread_readNsamples {s : Sys} (h : s.Inv) (hbound : s.pending ≤ 1023) :
    (s.ring.readNsamples fun size => size ≤ kmallocMax).2.1.unread = [] := by
  have hcount := h.toNat_samplesToCopy hbound
  -- equal indices delimit no cells
  have hnil : ∀ r : Ring, r.lastRead = r.lastWrite → r.unread = [] := by
    intro r heq
    rw [Ring.unread, heq, UInt32.sub_self]
    rfl
  rw [Ring.readNsamples]
  split_ifs with heq
  · exact hnil _ heq
  have hk : samplesToCopy s.ring.lastRead s.ring.lastWrite * sizeofSample ≤ kmallocMax := by
    rw [UInt32.le_iff_toNat_le, UInt32.toNat_mul, hcount]
    have hmax : kmallocMax.toNat = 4194304 := by decide
    have hsize : sizeofSample.toNat = 24 := by decide
    rw [hmax, hsize, Nat.mod_eq_of_lt (by omega)]
    omega
  rw [if_pos (decide_eq_true hk)]
  refine hnil _ (UInt32.toNat_inj.mp ?_)
  have hle := h.consumed_le
  have hrd := h.lastRead_eq
  have hwr := h.lastWrite_eq
  rw [Sys.pending] at hcount
  simp only [toNat_quickModule, UInt32.toNat_add, hcount, hrd, hwr]
  omega

/-- **An iteration that nothing disturbs empties the buffer.** After any run in which each sample
found room in the buffer, if the thread is at the top of its loop and every call succeeds, then it
goes to sleep after finitely many steps; by then it has sent a packet of each sample that was in the
buffer, in order, the buffer is empty, and nothing is allocated. -/
theorem sender_drains (par : SenderParams) (circBuffer : Fin circBufSize → Sample)
    (es : List ThreadEvent)
    (hroom : Run.AllStepsM (SenderThread.step par) SenderThread.HasRoom (.start circBuffer) es) :
    ∃ s, Run.execM (SenderThread.step par) (.start circBuffer) es = .ok s ∧
      (s.pc = .shouldStop → ∃ s', s.Reaches par s' ∧ s'.pc = .msleep ∧
        s'.sent.map Prod.fst = s.sent.map Prod.fst ++
          s.sys.ring.unread.filterMap (fun x => par.packetOf (x, true)) ∧
        s'.sys.ring.unread = [] ∧ s'.pool.live = []) := by
  obtain ⟨s, hrun, hinv⟩ := SenderThread.inv_execM hroom
  refine ⟨s, hrun, fun hpc => ?_⟩
  have hidle : s.sys.reader = .idle := by
    have hfits := hinv.fits
    rwa [hpc] at hfits
  -- the call of `read_nsamples`
  obtain ⟨s₁, hs₁, hinv₁⟩ := hinv.thread 0
  have hluck : s.threadStep par s.luck = .ok s₁ := by
    rw [SenderThread.luck, hpc]
    exact hs₁
  simp only [SenderThread.threadStep, hpc, ne_eq, not_true_eq_false, if_false] at hs₁
  cases hs₁
  obtain ⟨k, hk⟩ := exec_call_eq_readNsamples s.sys hidle
  obtain ⟨s₂, hreach₂, hinv₂, hsys₂, hoffered₂, hpc₂⟩ := hinv₁.reaches_returned rfl hk hidle
  -- the loop over the samples
  obtain ⟨s₃, xs, hreach₃, hinv₃, hpc₃, hsys₃, hoffered₃⟩ :
      ∃ s', ∃ xs : List Sample, s₂.Reaches par s' ∧ s'.Inv par ∧ s'.pc = .msleep ∧
        s'.sys = s₂.sys ∧ s'.offered = s₂.offered ++ xs.map (·, true) := by
    rcases hpc₂ with hpc₂ | ⟨a, samples, len, hpc₂⟩
    · exact ⟨s₂, [], .refl _ _, hinv₂, hpc₂, rfl, (List.append_nil _).symm⟩
    · exact SenderThread.Inv.reaches_msleep (d := samples.length) (by simp) hinv₂ hpc₂
  rw [hsys₂] at hsys₃
  have hempty : s₃.sys.ring.unread = [] := by
    rw [hsys₃]
    exact hinv.sys.unread_readNsamples hinv.room
  have hblocks : s₃.pc.blocks = [] := by rw [hpc₃]; rfl
  -- both accounts are of the same samples, so the new ones are those that were in the buffer
  have hxs : xs = s.sys.ring.unread := by
    have hbefore := hinv.accounts
    have hafter := hinv₃.accounts
    rw [hempty, SenderThread.inHand, hpc₃, hsys₃, hoffered₃, hoffered₂] at hafter
    rw [SenderThread.inHand, hpc] at hbefore
    have hflight : s.sys.reader.inFlight = [] := by rw [hidle]; rfl
    simp only [SenderPc.inHand, hflight, List.append_nil, List.map_append, List.map_map,
      Function.comp_def, List.map_id'] at hbefore hafter
    exact List.append_cancel_left (hafter.trans hbefore.symm)
  refine ⟨s₃, .head hluck (hreach₂.trans hreach₃), hpc₃, ?_, hempty,
    (hblocks ▸ hinv₃.owns.perm).eq_nil⟩
  have hbefore := hinv.packets
  have hafter := hinv₃.packets
  rw [hpc₃, hoffered₃, hoffered₂, List.filterMap_append, ← hbefore, hpc, hxs,
    List.filterMap_map] at hafter
  simpa only [SenderPc.packet, List.append_nil, Function.comp_def] using hafter

theorem sender_drains_two :
    let par : SenderParams := ⟨"127.0.0.1", 57843, 7⟩
    let x : Sample := ⟨1, 1, #v[1, 2, 3]⟩
    let y : Sample := ⟨2, 2, #v[4, 5, 6]⟩
    ∃ s s', Run.execM (SenderThread.step par) (.start fun _ => x)
        [.thread 0, .thread 0, .sample x, .sample y] = .ok s ∧
      s.Reaches par s' ∧ s'.pc = .msleep ∧
      s'.sent.map Prod.fst = [x, y].filterMap (fun x => par.packetOf (x, true)) := by
  intro par x y
  have hpc : (Run.execM (SenderThread.step par) (.start fun _ => x)
      [.thread 0, .thread 0, .sample x, .sample y]).toOption.map
        (fun s => (s.pc, s.sys.ring.unread, s.sent)) = some (.shouldStop, [x, y], []) := by decide
  obtain ⟨s, hrun, hdrains⟩ := sender_drains par (fun _ => x)
    [.thread 0, .thread 0, .sample x, .sample y] (by decide)
  rw [hrun] at hpc
  obtain ⟨hpc, hrest⟩ := Prod.mk.inj (Option.some.inj hpc)
  obtain ⟨hunread, hsent⟩ := Prod.mk.inj hrest
  obtain ⟨s', hreach, hpc', hpackets, -⟩ := hdrains hpc
  refine ⟨s, s', hrun, hreach, hpc', ?_⟩
  rw [hpackets, hunread, hsent]
  rfl

end MiaVita
