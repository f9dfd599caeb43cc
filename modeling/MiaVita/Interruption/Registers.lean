import MiaVita.Interruption.Pps

/-!
# What the handler leaves in the pin registers

The registers of the pins are shared: each bit belongs to a pin, and two of them, 13 and 14, to this
module. The handler clears and sets these two in the enable register by reading the register,
changing the two bits and writing it back. Of the trigger register it wants to know one bit, the
flag with which user programs mark that they use the FPGA. The test is an assignment, and what it
writes back has no other bit than this one.

`Entered` keeps, beside the handler, the registers as they were when it was entered and whether it
has come to one of its two branches since. The invariant (`Entered.Inv`) gives both registers in
terms of these at each access. At the return the enable register is always as it should be; the
trigger register is so exactly if no branch was taken or no foreign bit was set in it
(`registers_kept_iff`).
-/

namespace MiaVita

/-! ### Masks -/

section Masks

variable {w : ℕ} (mask a b : BitVec w)

/-- `a` and `b` have the same bits outside `mask`. -/
def AgreeOutside : Prop := a &&& ~~~mask = b &&& ~~~mask

instance : Decidable (AgreeOutside mask a b) := inferInstanceAs (Decidable (_ = _))

/-- Bits that are cleared and set again are in the mask. -/
private theorem agreeOutside_clear_set : AgreeOutside mask a (a &&& ~~~mask ||| mask) := by
  ext i hi
  cases hmask : mask[i] <;> simp [hmask]

private theorem or_mask_and_mask : (a ||| mask) &&& mask = mask := by
  ext i hi
  cases hmask : mask[i] <;> simp [hmask]

/-- A word cut down to the bits of `b` keeps its bits outside the mask if it has none but those. -/
private theorem agreeOutside_and_iff :
    AgreeOutside mask a (a &&& b) ↔ a &&& ~~~(b ||| mask) = 0 := by
  rw [AgreeOutside, BitVec.eq_of_getElem_eq_iff, BitVec.eq_of_getElem_eq_iff]
  refine forall₂_congr fun i hi => ?_
  cases hmask : mask[i] <;> cases ha : a[i] <;> cases hb : b[i] <;> simp [hmask, ha, hb]

end Masks

/-! ### What the branches do to the registers -/

/-- Both branches end with the flag alone in the trigger register. -/
private theorem serveScl_gpio (i : Inputs) (n : Node) :
    (serveScl i n).1.gpio = { n.gpio with intrTrigger := n.gpio.intrTrigger &&& 1 } := by
  simp only [serveScl, handleAdcInt]
  split_ifs <;> rfl

private theorem serveSda_gpio (i : Inputs) (n : Node) :
    (serveSda i n).1.gpio = { n.gpio with intrTrigger := n.gpio.intrTrigger &&& 1 } := by
  simp only [serveSda, handleGpsInt]
  split_ifs <;> rfl

/-! ### The registers at the entry -/

/-- The handler, the registers it was entered with, and whether it has taken one of its branches
since. -/
structure Entered where
  handler : Handler
  before : Gpio
  served : Bool

/-- One event. -/
def enteredStep (s : Entered) (e : IntEvent) : Entered :=
  match e, s.handler.pc with
  | .handler _, .entry => ⟨intStep s.handler e, s.handler.node.gpio, false⟩
  | .handler _, .testScl =>
    ⟨intStep s.handler e, s.before, sclMask &&& s.handler.node.gpio.intStatus ≠ 0⟩
  | .handler _, .testSda =>
    ⟨intStep s.handler e, s.before, sdaMask &&& s.handler.node.gpio.intStatus ≠ 0⟩
  | _, _ => ⟨intStep s.handler e, s.before, s.served⟩

/-- The handler returns: the event is its last access. -/
def Returns (s : Entered) : IntEvent → Prop
  | .handler _ => s.handler.pc = .enable
  | _ => False

/-- The bits of the trigger register that are neither the flag nor of the two pins. -/
def Gpio.foreignTrigger (g : Gpio) : BitVec 32 := g.intrTrigger &&& ~~~(1 ||| gpioaEnMask)

/-- **The foreign configuration is kept**: if the event is the return of the handler, the enable and
the trigger register have outside the two pins the bits they had at the entry, and the two pins are
enabled. -/
def RegistersKept (s : Entered) (e : IntEvent) : Prop :=
  Returns s e →
    AgreeOutside gpioaEnMask s.before.intrEn (intStep s.handler e).node.gpio.intrEn ∧
      AgreeOutside gpioaEnMask s.before.intrTrigger (intStep s.handler e).node.gpio.intrTrigger ∧
      (intStep s.handler e).node.gpio.intrEn &&& gpioaEnMask = gpioaEnMask

/-- A handler that has taken a branch was entered with no foreign bit set. -/
def NoForeignTrigger (s : Entered) (e : IntEvent) : Prop :=
  Returns s e → s.served = true → s.before.foreignTrigger = 0

namespace Entered

/-- **The invariant**: inside the handler both registers are given by those at the entry. A branch
is taken only behind the two tests. -/
structure Inv (s : Entered) : Prop where
  intrEn : s.handler.pc ≠ .entry →
    s.handler.node.gpio.intrEn = s.before.intrEn &&& ~~~gpioaEnMask
  intrTrigger : s.handler.pc ≠ .entry → s.handler.node.gpio.intrTrigger =
    if s.served then s.before.intrTrigger &&& 1 else s.before.intrTrigger
  served : s.handler.pc = .testScl ∨ s.handler.pc = .testSda → s.served = false

section Branches

variable {n n' : Node} {before : Gpio} {pc : HandlerPc}

/-- A test that fails leaves the registers. -/
private theorem Inv.passed (h : Inv ⟨⟨n, pc⟩, before, false⟩) (hpc : pc ≠ .entry)
    (pc' : HandlerPc) :
    Inv ⟨⟨n, pc'⟩, before, false⟩ :=
  ⟨fun _ => h.intrEn hpc, fun _ => h.intrTrigger hpc, fun _ => rfl⟩

/-- A branch that is taken leaves the flag alone in the trigger register. -/
private theorem Inv.taken (h : Inv ⟨⟨n, pc⟩, before, false⟩) (hpc : pc ≠ .entry)
    (hgpio : n'.gpio = { n.gpio with intrTrigger := n.gpio.intrTrigger &&& 1 }) (branch : Served) :
    Inv ⟨⟨n', .clear branch⟩, before, true⟩ := by
  refine ⟨fun _ => ?_, fun _ => ?_, ?_⟩
  · rw [hgpio]
    exact h.intrEn hpc
  · rw [hgpio]
    exact congrArg (· &&& 1) (h.intrTrigger hpc)
  · rintro (hpc | hpc) <;> cases hpc

end Branches

private theorem Inv.step {s : Entered} (h : s.Inv) (e : IntEvent) : (enteredStep s e).Inv := by
  obtain ⟨⟨n, pc⟩, before, served⟩ := s
  cases e with
  | adcEdge => exact ⟨h.intrEn, h.intrTrigger, h.served⟩
  | ppsEdge => exact ⟨h.intrEn, h.intrTrigger, h.served⟩
  | handler i =>
    cases pc with
    | entry => exact ⟨fun _ => rfl, fun _ => rfl, fun _ => rfl⟩
    | testScl =>
      obtain rfl : served = false := h.served (.inl rfl)
      by_cases hscl : sclMask &&& n.gpio.intStatus ≠ 0
      · simp only [enteredStep, intStep, handlerStep_scl hscl, decide_eq_true hscl]
        exact h.taken (by decide) (serveScl_gpio i n) .adc
      · simp only [enteredStep, intStep, handlerStep_not_scl hscl, decide_eq_false hscl]
        exact h.passed (by decide) .testSda
    | testSda =>
      obtain rfl : served = false := h.served (.inr rfl)
      by_cases hsda : sdaMask &&& n.gpio.intStatus ≠ 0
      · simp only [enteredStep, intStep, handlerStep_sda hsda, decide_eq_true hsda]
        exact h.taken (by decide) (serveSda_gpio i n) .gps
      · simp only [enteredStep, intStep, handlerStep_not_sda hsda, decide_eq_false hsda]
        exact h.passed (by decide) (.clear .nothing)
    | clear branch =>
      have hpc : HandlerPc.clear branch ≠ .entry := by rintro ⟨⟩
      refine ⟨fun _ => h.intrEn hpc, fun _ => h.intrTrigger hpc, ?_⟩
      rintro (hpc | hpc) <;> cases hpc
    | enable =>
      refine ⟨fun h => absurd rfl h, fun h => absurd rfl h, ?_⟩
      rintro (hpc | hpc) <;> cases hpc

/-- **The return**: the enable register is as it should be, the trigger register if no branch was
taken or no foreign bit was there to be cleared. -/
theorem Inv.kept_iff {s : Entered} (h : s.Inv) (e : IntEvent) :
    RegistersKept s e ↔ NoForeignTrigger s e := by
  obtain ⟨⟨n, pc⟩, before, served⟩ := s
  refine forall_congr' fun hreturns => ?_
  cases e with
  | adcEdge => exact hreturns.elim
  | ppsEdge => exact hreturns.elim
  | handler i =>
    obtain rfl : pc = .enable := hreturns
    have hen : (intStep ⟨n, .enable⟩ (.handler i)).node.gpio.intrEn =
        before.intrEn &&& ~~~gpioaEnMask ||| gpioaEnMask :=
      congrArg (· ||| gpioaEnMask) (h.intrEn nofun)
    have htrigger : (intStep ⟨n, .enable⟩ (.handler i)).node.gpio.intrTrigger =
        if served then before.intrTrigger &&& 1 else before.intrTrigger := h.intrTrigger nofun
    rw [hen, htrigger, and_iff_right (agreeOutside_clear_set _ _),
      and_iff_left (or_mask_and_mask _ _)]
    cases served with
    | false => exact iff_of_true rfl nofun
    | true => exact (agreeOutside_and_iff _ _ _).trans (imp_iff_right rfl).symm

end Entered

/-! ### Whole runs -/

/-- **Foreign configuration survives, exactly where there is none to lose.** From any registers, in
any order of edges and accesses of the handler: each return of the handler leaves the enable and the
trigger register as they were at its entry, but for the two pins, which are enabled, if and only if
each handler that served a pin had been entered with no bit set in the trigger register but the flag
and those of the two pins. -/
theorem registers_kept_iff (n : Node) (es : List IntEvent) :
    Run.AllSteps enteredStep RegistersKept ⟨⟨n, .entry⟩, n.gpio, false⟩ es ↔
      Run.AllSteps enteredStep NoForeignTrigger ⟨⟨n, .entry⟩, n.gpio, false⟩ es := by
  have hstart : Entered.Inv ⟨⟨n, .entry⟩, n.gpio, false⟩ :=
    ⟨fun h => absurd rfl h, fun h => absurd rfl h, fun _ => rfl⟩
  exact Run.allSteps_congr (fun _ e h => h.step e) (fun _ e h => h.kept_iff e) hstart es

/-- A node with the ADC pending, and pin 5 triggered by level. -/
def levelNode : Node :=
  { quietNode with gpio.intStatus := sclMask, gpio.intrTrigger := 0x20 }

/-- **The pin of another driver becomes edge triggered**: an interrupt of the ADC clears its bit. -/
theorem trigger_cleared :
    (interrupt quietInputs levelNode).1.gpio.intrTrigger = 0 ∧
      ¬ Run.AllSteps enteredStep RegistersKept ⟨⟨levelNode, .entry⟩, levelNode.gpio, false⟩
        (List.replicate 4 (.handler quietInputs)) := by
  refine ⟨by decide, ?_⟩
  rintro ⟨-, -, -, h, -⟩
  exact absurd (h rfl).2.1 (by decide)

end MiaVita
