import MiaVita.Interruption.Handler

/-!
# Pulses of the GPS that are lost

The status bits of the two pins are set by their edges at any time, also while the handler runs. The
handler serves one of them and clears both. A pulse whose bit is cleared by a run of the handler
that has not served it is gone: when the ADC is pending as well, since its bit is asked first, and
when the pulse comes between the last look at the status and the clear.

`Watched` keeps, beside the handler, the number of pulses. The invariant (`Watched.Inv`) is that
every pulse counted by the code, and the one that waits in the status bit, is a pulse that came;
no step can make good for one that is lost, so that a run accounts for all of them exactly when no
step loses one (`pps_accounted_iff`).
-/

namespace MiaVita

/-! ### The bits -/

/-- The bit of the GPS is set in the status. -/
def Gpio.SdaPending (g : Gpio) : Prop := g.intStatus &&& sdaMask ≠ 0

instance (g : Gpio) : Decidable g.SdaPending := inferInstanceAs (Decidable (_ ≠ _))

/-- An edge on a pin sets its bit. -/
def Gpio.edge (g : Gpio) (mask : BitVec 32) : Gpio := { g with intStatus := g.intStatus ||| mask }

private theorem sdaPending_scl_edge (g : Gpio) : (g.edge sclMask).SdaPending ↔ g.SdaPending := by
  have hdisjoint : sclMask &&& sdaMask = 0#32 := by decide
  rw [Gpio.SdaPending, Gpio.edge, BitVec.and_or_distrib_right, hdisjoint, BitVec.or_zero]
  rfl

private theorem sdaPending_sda_edge (g : Gpio) : (g.edge sdaMask).SdaPending := by
  have hself : (g.intStatus ||| sdaMask) &&& sdaMask = sdaMask := by
    rw [BitVec.and_or_distrib_right, BitVec.and_self]
    ext i hi
    simp
  rw [Gpio.SdaPending, Gpio.edge, hself]
  decide

private theorem not_sdaPending_clear (g : Gpio) : ¬ g.clear.SdaPending := by
  have hmask : ~~~gpioaEnMask &&& sdaMask = 0#32 := by decide
  rw [Gpio.SdaPending, Gpio.clear, BitVec.not_or, BitVec.and_assoc, BitVec.and_assoc, hmask,
    BitVec.and_zero, BitVec.and_zero]
  exact not_not.mpr rfl

private theorem sdaMask_and_ne_zero (g : Gpio) : sdaMask &&& g.intStatus ≠ 0 ↔ g.SdaPending := by
  rw [BitVec.and_comm]
  rfl

/-! ### What the branches leave alone -/

private theorem serveScl_frame (i : Inputs) (n : Node) :
    (serveScl i n).1.gpio.intStatus = n.gpio.intStatus ∧
      (serveScl i n).1.elapsedSecs = n.elapsedSecs := by
  simp only [serveScl, handleAdcInt]
  split_ifs <;> exact ⟨rfl, rfl⟩

private theorem serveSda_frame (i : Inputs) (n : Node) :
    (serveSda i n).1.gpio.intStatus = n.gpio.intStatus ∧
      (serveSda i n).1.elapsedSecs = n.elapsedSecs + 1 := by
  simp only [serveSda, handleGpsInt]
  split_ifs <;> exact ⟨rfl, rfl⟩

/-! ### Runs -/

/-- An edge on one of the pins, or an access of the handler. -/
inductive IntEvent where
  | adcEdge
  | ppsEdge
  | handler (i : Inputs)

/-- One event. -/
def intStep (h : Handler) : IntEvent → Handler
  | .adcEdge => { h with node.gpio := h.node.gpio.edge sclMask }
  | .ppsEdge => { h with node.gpio := h.node.gpio.edge sdaMask }
  | .handler i => (handlerStep i h).1

/-- Whether an event is a pulse. -/
def IntEvent.isPps : IntEvent → Bool
  | ppsEdge => true
  | _ => false

/-- A pulse finds its status bit cleared. -/
def NoMerge (h : Handler) : IntEvent → Prop
  | .ppsEdge => ¬ h.node.gpio.SdaPending
  | _ => True

/-- **No pulse is lost**: when the handler clears the status and the bit of the GPS is set, then it
is the GPS that this run of the handler has served. -/
def NoLoss (h : Handler) : IntEvent → Prop
  | .handler _ => ∀ served, h.pc = .clear served → h.node.gpio.SdaPending → served = .gps
  | _ => True

/-- The handler, and the number of pulses so far. -/
structure Watched where
  handler : Handler
  pulses : ℕ

/-- One event, counted if it is a pulse. -/
def watchedStep (w : Watched) (e : IntEvent) : Watched :=
  ⟨intStep w.handler e, w.pulses + if e.isPps then 1 else 0⟩

namespace Watched

/-- A pulse waits in the status bit to be served. -/
def Waiting (w : Watched) : Prop :=
  w.handler.node.gpio.SdaPending ∧ w.handler.pc ≠ .clear .gps

instance (w : Watched) : Decidable w.Waiting := inferInstanceAs (Decidable (_ ∧ _))

/-- The seconds counted and the pulse that waits. -/
def counted (w : Watched) : ℕ := w.handler.node.elapsedSecs + if w.Waiting then 1 else 0

/-- **The invariant**: from `base` seconds on no more is counted than pulses came, and the bit of a
pulse that has been served is set until it is cleared. -/
structure Inv (base : ℕ) (w : Watched) : Prop where
  le : w.counted ≤ base + w.pulses
  served : w.handler.pc = .clear .gps → w.handler.node.gpio.SdaPending

/-- All pulses are accounted for. -/
private def Accounted (base : ℕ) (w : Watched) : Prop := w.counted = base + w.pulses

/-- The pulse waits, or it does not. -/
private theorem counted_of_waiting {w : Watched} (h : w.Waiting) :
    w.counted = w.handler.node.elapsedSecs + 1 := by
  rw [counted, if_pos h]

private theorem counted_of_not_waiting {w : Watched} (h : ¬ w.Waiting) :
    w.counted = w.handler.node.elapsedSecs := by
  rw [counted, if_neg h, Nat.add_zero]

private theorem counted_of_ne (n : Node) {pc : HandlerPc} (pulses : ℕ) (hpc : pc ≠ .clear .gps) :
    (Watched.mk ⟨n, pc⟩ pulses).counted =
      n.elapsedSecs + if n.gpio.SdaPending then 1 else 0 := by
  have hwaiting : (Watched.mk ⟨n, pc⟩ pulses).Waiting ↔ n.gpio.SdaPending := and_iff_left hpc
  simp only [counted, hwaiting]

/-- What is counted depends on the seconds and on whether a pulse waits. -/
private theorem counted_congr {w w' : Watched}
    (hsecs : w'.handler.node.elapsedSecs = w.handler.node.elapsedSecs)
    (hwaiting : w'.Waiting ↔ w.Waiting) : w'.counted = w.counted := by
  simp only [counted, hsecs, hwaiting]

/-- An access that is not the clear: the pulse that waits is served, or it goes on waiting. -/
private theorem step_counted_access (n : Node) (pulses : ℕ) (i : Inputs) {pc : HandlerPc}
    (hpc : ∀ served, pc ≠ .clear served) :
    (watchedStep ⟨⟨n, pc⟩, pulses⟩ (.handler i)).counted =
      (Watched.mk ⟨n, pc⟩ pulses).counted := by
  rw [watchedStep, intStep, counted_of_ne n pulses (hpc .gps)]
  cases pc with
  | entry => exact counted_of_ne _ _ (by decide : HandlerPc.testScl ≠ .clear .gps)
  | testScl =>
    by_cases hscl : sclMask &&& n.gpio.intStatus ≠ 0
    · obtain ⟨hstatus, hsecs⟩ := serveScl_frame i n
      have hpending : (serveScl i n).1.gpio.SdaPending ↔ n.gpio.SdaPending := by
        rw [Gpio.SdaPending, hstatus]
        rfl
      rw [handlerStep_scl hscl,
        counted_of_ne _ _ (by decide : HandlerPc.clear .adc ≠ .clear .gps), hsecs]
      simp only [hpending]
    · rw [handlerStep_not_scl hscl]
      exact counted_of_ne _ _ (by decide : HandlerPc.testSda ≠ .clear .gps)
  | testSda =>
    by_cases hsda : sdaMask &&& n.gpio.intStatus ≠ 0
    · rw [handlerStep_sda hsda, counted_of_not_waiting fun h => h.2 rfl,
        if_pos ((sdaMask_and_ne_zero _).mp hsda)]
      exact (serveSda_frame i n).2
    · rw [handlerStep_not_sda hsda]
      exact counted_of_ne _ _ (by decide : HandlerPc.clear .nothing ≠ .clear .gps)
  | clear served => exact absurd rfl (hpc served)
  | enable => exact counted_of_ne _ _ (by decide : HandlerPc.entry ≠ .clear .gps)

/-- The clear: a pulse that waits is lost. -/
private theorem step_counted_clear (n : Node) (pulses : ℕ) (i : Inputs) (served : Served) :
    (watchedStep ⟨⟨n, .clear served⟩, pulses⟩ (.handler i)).counted = n.elapsedSecs :=
  counted_of_not_waiting fun h => not_sdaPending_clear n.gpio h.1

/-- **One event**: it counts as much as it brings, or it merges or loses a pulse and counts
less. -/
theorem step_counted {w : Watched} (e : IntEvent)
    (hserved : w.handler.pc = .clear .gps → w.handler.node.gpio.SdaPending) :
    (NoMerge w.handler e ∧ NoLoss w.handler e) ∧
        (watchedStep w e).counted + w.pulses = w.counted + (watchedStep w e).pulses ∨
      ¬ (NoMerge w.handler e ∧ NoLoss w.handler e) ∧
        (watchedStep w e).counted + w.pulses < w.counted + (watchedStep w e).pulses := by
  obtain ⟨⟨n, pc⟩, pulses⟩ := w
  cases e with
  | adcEdge =>
    refine .inl ⟨⟨trivial, trivial⟩, ?_⟩
    have hsame : (watchedStep ⟨⟨n, pc⟩, pulses⟩ .adcEdge).counted =
        (Watched.mk ⟨n, pc⟩ pulses).counted :=
      counted_congr rfl (and_congr_left fun _ => sdaPending_scl_edge n.gpio)
    rw [hsame]
    rfl
  | ppsEdge =>
    by_cases hpending : n.gpio.SdaPending
    · -- the pulse merges with the one before
      refine .inr ⟨fun h => h.1 hpending, ?_⟩
      have hsame : (watchedStep ⟨⟨n, pc⟩, pulses⟩ .ppsEdge).counted =
          (Watched.mk ⟨n, pc⟩ pulses).counted :=
        counted_congr rfl (and_congr_left fun _ => iff_of_true (sdaPending_sda_edge _) hpending)
      rw [hsame]
      exact Nat.lt_succ_self _
    · refine .inl ⟨⟨hpending, trivial⟩, ?_⟩
      have hpc : pc ≠ .clear .gps := fun h => hpending (hserved h)
      rw [counted_of_waiting (w := watchedStep ⟨⟨n, pc⟩, pulses⟩ .ppsEdge)
        ⟨sdaPending_sda_edge _, hpc⟩, counted_of_not_waiting fun h => hpending h.1]
      exact Nat.add_right_comm _ _ _
  | handler i =>
    by_cases hpc : ∃ served, pc = .clear served
    · obtain ⟨served, rfl⟩ := hpc
      rw [step_counted_clear]
      by_cases hwaiting : (Watched.mk ⟨n, .clear served⟩ pulses).Waiting
      · -- the pulse is cleared unserved
        refine .inr ⟨fun h => hwaiting.2 ?_, ?_⟩
        · exact congrArg HandlerPc.clear (h.2 served rfl hwaiting.1)
        · rw [counted_of_waiting hwaiting]
          exact Nat.add_lt_add_right (Nat.lt_succ_self _) _
      · refine .inl ⟨⟨trivial, ?_⟩, ?_⟩
        · rintro served' hserved' hpending
          cases hserved'
          by_contra hne
          exact hwaiting ⟨hpending, fun h => hne (HandlerPc.clear.inj h)⟩
        · rw [counted_of_not_waiting hwaiting]
          rfl
    · refine .inl ⟨⟨trivial, fun served h => absurd ⟨served, h⟩ hpc⟩, ?_⟩
      rw [step_counted_access n pulses i fun served h => hpc ⟨served, h⟩]
      rfl

/-- The handler stands at the clear of a pulse only after it has seen the bit. -/
private theorem step_served {w : Watched} (e : IntEvent)
    (hserved : w.handler.pc = .clear .gps → w.handler.node.gpio.SdaPending) :
    (watchedStep w e).handler.pc = .clear .gps →
      (watchedStep w e).handler.node.gpio.SdaPending := by
  obtain ⟨⟨n, pc⟩, pulses⟩ := w
  cases e with
  | adcEdge => exact fun h => (sdaPending_scl_edge n.gpio).mpr (hserved h)
  | ppsEdge => exact fun _ => sdaPending_sda_edge n.gpio
  | handler i =>
    rw [watchedStep, intStep]
    cases pc with
    | testScl =>
      by_cases hscl : sclMask &&& n.gpio.intStatus ≠ 0
      · rw [handlerStep_scl hscl]
        nofun
      · rw [handlerStep_not_scl hscl]
        nofun
    | testSda =>
      by_cases hsda : sdaMask &&& n.gpio.intStatus ≠ 0
      · rw [handlerStep_sda hsda, Gpio.SdaPending, (serveSda_frame i n).1]
        exact fun _ => (sdaMask_and_ne_zero _).mp hsda
      · rw [handlerStep_not_sda hsda]
        nofun
    | entry => nofun
    | clear served => nofun
    | enable => nofun

private theorem Inv.step {base : ℕ} {w : Watched} (e : IntEvent) (h : w.Inv base) :
    (watchedStep w e).Inv base := by
  refine ⟨?_, step_served e h.served⟩
  have hle := h.le
  obtain ⟨-, heq⟩ | ⟨-, hlt⟩ := step_counted e h.served <;> omega

/-- One event that does not merge pulses keeps all of them accounted for exactly when it loses
none. -/
private theorem accounted_step {base : ℕ} {w : Watched} (e : IntEvent) (h : w.Inv base)
    (hmerge : NoMerge w.handler e) :
    (watchedStep w e).Accounted base ↔ w.Accounted base ∧ NoLoss w.handler e := by
  have hle := h.le
  rw [Accounted, Accounted]
  obtain ⟨⟨-, hloss⟩, heq⟩ | ⟨hbad, hlt⟩ := step_counted e h.served
  · rw [and_iff_left hloss]
    omega
  · rw [and_comm, iff_false_right fun h => hbad ⟨hmerge, h.1⟩]
    omega

end Watched

/-! ### Whole runs -/

/-- The run of the handler beside the count of its pulses. -/
private theorem exec_watchedStep (w : Watched) (es : List IntEvent) :
    Run.exec watchedStep w es =
      ⟨Run.exec intStep w.handler es, w.pulses + es.countP IntEvent.isPps⟩ := by
  induction es generalizing w with
  | nil => rfl
  | cons e es ih =>
    rw [Run.exec_cons, ih, Run.exec_cons, List.countP_cons, Nat.add_comm _ (ite _ _ _),
      ← Nat.add_assoc]
    rfl

/-- **Every pulse is counted, exactly when none is lost.** From any state in which no bit is pending
and the handler does not run, in any order of edges and accesses of the handler in which no two
pulses merge in the status bit: when no bit is pending any more, the counter of seconds has grown by
the number of pulses if and only if, whenever the handler cleared the status with the bit of the GPS
set, it had served the GPS. -/
theorem pps_accounted_iff (n : Node) (es : List IntEvent)
    (hstart : n.gpio.intStatus &&& gpioaEnMask = 0)
    (hmerge : Run.AllSteps intStep NoMerge ⟨n, .entry⟩ es)
    (hquiet : (Run.exec intStep ⟨n, .entry⟩ es).node.gpio.intStatus &&& gpioaEnMask = 0) :
    (Run.exec intStep ⟨n, .entry⟩ es).node.elapsedSecs =
        n.elapsedSecs + es.countP IntEvent.isPps ↔
      Run.AllSteps intStep NoLoss ⟨n, .entry⟩ es := by
  have hquiet' : ∀ g : Gpio, g.intStatus &&& gpioaEnMask = 0 → ¬ g.SdaPending := by
    intro g hg hpending
    apply hpending
    have hmask : gpioaEnMask &&& sdaMask = sdaMask := by decide
    rw [← hmask, ← BitVec.and_assoc, hg]
    exact BitVec.zero_and
  have hcounted : (Watched.mk ⟨n, .entry⟩ 0).counted = n.elapsedSecs :=
    Watched.counted_of_not_waiting fun h => hquiet' _ hstart h.1
  have hinv : (Watched.mk ⟨n, .entry⟩ 0).Inv n.elapsedSecs := ⟨hcounted.le, fun h => nomatch h⟩
  have hpart : ∀ w e, (watchedStep w e).handler = intStep w.handler e := fun _ _ => rfl
  have hexact := Run.exec_iff (fun w e h _ => h.step e) (fun w e => Watched.accounted_step e) hinv
    ((Run.allSteps_part hpart _ es).mpr hmerge)
  rw [exec_watchedStep, Watched.Accounted,
    Watched.counted_of_not_waiting fun h => hquiet' _ hquiet h.1, Nat.zero_add,
    and_iff_right (show Watched.Accounted _ _ from hcounted)] at hexact
  exact hexact.trans (Run.allSteps_part hpart _ es)

/-- The first second. -/
def quietInputs : Inputs := inputsAt ⟨0, 0, le_rfl, by decide⟩

/-- A pulse alone is counted. -/
theorem pps_accounted_single :
    (Run.exec intStep ⟨quietNode, .entry⟩
        (.ppsEdge :: List.replicate 5 (.handler quietInputs))).node.elapsedSecs =
      quietNode.elapsedSecs + 1 := by
  have hmerge : Run.AllSteps intStep NoMerge ⟨quietNode, .entry⟩
      (.ppsEdge :: List.replicate 5 (.handler quietInputs)) :=
    ⟨(by decide : ¬ quietNode.gpio.SdaPending), trivial, trivial, trivial, trivial, trivial,
      trivial⟩
  exact (pps_accounted_iff quietNode _ (by decide) hmerge (by decide)).mpr
    ⟨trivial, nofun, nofun, nofun, fun _ h _ => (HandlerPc.clear.inj h).symm, nofun, trivial⟩

/-- **A pulse is lost** when the ADC is pending as well: the handler serves the ADC, clears both
bits and returns, and the second is not counted. -/
theorem pps_lost_with_adc :
    let es := [.ppsEdge, .adcEdge] ++ List.replicate 4 (.handler quietInputs)
    Run.AllSteps intStep NoMerge ⟨quietNode, .entry⟩ es ∧
      (Run.exec intStep ⟨quietNode, .entry⟩ es).pc = .entry ∧
      (Run.exec intStep ⟨quietNode, .entry⟩ es).node.gpio.intStatus &&& gpioaEnMask = 0 ∧
      es.countP IntEvent.isPps = 1 ∧
      (Run.exec intStep ⟨quietNode, .entry⟩ es).node.elapsedSecs = quietNode.elapsedSecs :=
  ⟨⟨(by decide : ¬ quietNode.gpio.SdaPending), trivial, trivial, trivial, trivial, trivial,
    trivial⟩, rfl, by decide, rfl, rfl⟩

end MiaVita
