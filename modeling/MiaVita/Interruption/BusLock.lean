import MiaVita.Interruption.Handler
import MiaVita.Lib.Run
import Mathlib.Logic.Function.Basic

/-!
# The lock of the FPGA bus (`interruption/modified_binaries`)

`sdctl` and `xuartctl` use the bus of the FPGA too. Among themselves they take a semaphore; towards
the interrupt handler, which cannot wait, they set bit 0 of the trigger register while they hold
it. The two steps of `sbuslock` are to take the semaphore and to set the bit. Those of `sbusunlock`
are to give the semaphore back and to clear the bit, in this order: in between another process can
run the whole of `sbuslock`, and the bit that is then cleared is the other one's.

The processes are indexed by any type; between two steps of one, any other may run, and the
interrupt handler as well. The semaphore does its work (`owner_unique`), and the bit is set whenever
a process owns the bus exactly if no process clears it while another owns the bus
(`bus_protected_iff`).

Left out are the end of a process, which gives its semaphore back, and the writes to the pins that
follow the setting of the bit.
-/

namespace MiaVita

/-! ### The processes -/

/-- Where a process is: outside of both functions, in `sbuslock` with the semaphore taken, or in
`sbusunlock` with the semaphore given back. -/
inductive LockPc where
  | outside
  | mark
  | unmark
  deriving DecidableEq

/-- A process: its place, and its variable `sbuslocked`. -/
structure BusProcess where
  pc : LockPc
  sbuslocked : Bool
  deriving DecidableEq

/-- The two functions. `sbuspreempt` and `sbusyield` call one and then the other. -/
inductive LockCall where
  | sbuslock
  | sbusunlock

/-- The processes, the semaphore and the node. -/
structure Bus (ι : Type*) where
  sem : ℕ
  node : Node
  processes : ι → BusProcess

/-- No process has called a function, and the semaphore has been created. -/
def Bus.start {ι : Type*} (node : Node) : Bus ι := ⟨1, node, fun _ => ⟨.outside, false⟩⟩

/-- Mark the FPGA bus as used. -/
def Gpio.markUsed (g : Gpio) : Gpio := { g with intrTrigger := g.intrTrigger ||| 1 }

/-- Mark the FPGA bus as free. -/
def Gpio.markFree (g : Gpio) : Gpio := { g with intrTrigger := g.intrTrigger &&& 0xFFFFFFFE }

/-- The bit is set. -/
def Gpio.FpgaUsed (g : Gpio) : Prop := g.intrTrigger &&& 1 ≠ 0

instance (g : Gpio) : Decidable g.FpgaUsed := inferInstanceAs (Decidable (_ ≠ _))

/-- The handler is entered with these status bits. -/
def Node.pending (n : Node) (status : BitVec 32) : Node :=
  { n with gpio.intStatus := status }

/-- A process makes a step, the first one of `call` if it is outside, or the handler runs. -/
inductive BusEvent (ι : Type*) where
  | process (p : ι) (call : LockCall)
  | interrupt (i : Inputs) (status : BitVec 32)

variable {ι : Type*} [DecidableEq ι]

/-- A process after a step. -/
def Bus.setProcess (s : Bus ι) (p : ι) (x : BusProcess) : Bus ι :=
  { s with processes := Function.update s.processes p x }

/-- One step of `sbuslock` or `sbusunlock`. -/
def processStep (s : Bus ι) (p : ι) (call : LockCall) : Bus ι :=
  match s.processes p, call with
  | ⟨.outside, sbuslocked⟩, .sbuslock =>
    -- the process waits for the semaphore
    if s.sem = 0 then s
    else { s.setProcess p ⟨.mark, sbuslocked⟩ with sem := s.sem - 1 }
  | ⟨.outside, sbuslocked⟩, .sbusunlock =>
    if ¬ sbuslocked then s
    else { s.setProcess p ⟨.unmark, sbuslocked⟩ with sem := s.sem + 1 }
  | ⟨.mark, _⟩, _ => { s.setProcess p ⟨.outside, true⟩ with node.gpio := s.node.gpio.markUsed }
  | ⟨.unmark, _⟩, _ => { s.setProcess p ⟨.outside, false⟩ with node.gpio := s.node.gpio.markFree }

/-- One event. -/
def busStep (s : Bus ι) : BusEvent ι → Bus ι
  | .process p call => processStep s p call
  | .interrupt i status => { s with node := (interrupt i (s.node.pending status)).1 }

/-! ### The bit and the handler -/

/-- `is_fpga_used` asks for the bit. -/
private theorem isFpgaUsed_eq_true (g : Gpio) :
    (isFpgaUsed g).1 = true ↔ g.FpgaUsed := decide_eq_true_iff

private theorem fpgaUsed_markUsed (g : Gpio) : g.markUsed.FpgaUsed := by
  have hself : (g.intrTrigger ||| 1) &&& 1 = 1#32 := by
    rw [BitVec.and_or_distrib_right, BitVec.and_self]
    ext i hi
    simp
  rw [Gpio.FpgaUsed, Gpio.markUsed, hself]
  decide

private theorem not_fpgaUsed_markFree (g : Gpio) : ¬ g.markFree.FpgaUsed := by
  have hmask : 0xFFFFFFFE &&& 1 = 0#32 := by decide
  rw [Gpio.FpgaUsed, Gpio.markFree, BitVec.and_assoc, hmask, BitVec.and_zero]
  exact not_not.mpr rfl

/-- What a run of the handler does to the trigger register: at most, it asks for the bit. -/
private theorem interrupt_intrTrigger (i : Inputs) (n : Node) :
    (interrupt i n).1.gpio.intrTrigger = n.gpio.intrTrigger ∨
      (interrupt i n).1.gpio.intrTrigger = n.gpio.intrTrigger &&& 1 := by
  simp only [interrupt, serveScl, serveSda, handleAdcInt, handleGpsInt]
  split_ifs <;> first | exact .inl rfl | exact .inr rfl

/-- **The handler leaves the bit** as it is. -/
theorem fpgaUsed_interrupt (i : Inputs) (n : Node) :
    (interrupt i n).1.gpio.FpgaUsed ↔ n.gpio.FpgaUsed := by
  rw [Gpio.FpgaUsed, Gpio.FpgaUsed]
  obtain h | h := interrupt_intrTrigger i n
  · rw [h]
  · rw [h, BitVec.and_assoc, BitVec.and_self]

/-- All that the handler does when it finds the bit set is to print. -/
private theorem interrupt_printed (i : Inputs) {n : Node} (h : n.gpio.FpgaUsed) :
    ∀ x ∈ (interrupt i n).2, ∃ text, x = .printk text := by
  have hused : (isFpgaUsed n.gpio.disable).1 = true := (isFpgaUsed_eq_true _).mpr h
  simp only [interrupt, serveScl, serveSda, handleAdcInt, handleGpsInt, hused, if_true]
  split_ifs with hscl hsda hlost
  · exact calculateUsecs_printed _ _ _ _
  · simp
  · simp
  · simp [unknownInterruption]

/-! ### Steps -/

/-- The process owns the bus: `sbuslock` has returned and `sbusunlock` has not been called since. -/
def BusProcess.Owns (x : BusProcess) : Prop := x = ⟨.outside, true⟩

instance (x : BusProcess) : Decidable x.Owns := inferInstanceAs (Decidable (_ = _))

/-- The process has taken the semaphore and not given it back. -/
private def BusProcess.Holds (x : BusProcess) : Prop := x.pc = .mark ∨ x.Owns

/-- What a step of a process can do. -/
inductive ProcessStep (s : Bus ι) (p : ι) : Bus ι → Prop where
  | wait (hpc : (s.processes p).pc = .outside) : ProcessStep s p s
  | acquire (hpc : (s.processes p).pc = .outside) (hsem : s.sem ≠ 0) (locked : Bool) :
    ProcessStep s p { s.setProcess p ⟨.mark, locked⟩ with sem := s.sem - 1 }
  | mark (hpc : (s.processes p).pc = .mark) :
    ProcessStep s p { s.setProcess p ⟨.outside, true⟩ with node.gpio := s.node.gpio.markUsed }
  | release (howns : (s.processes p).Owns) :
    ProcessStep s p { s.setProcess p ⟨.unmark, true⟩ with sem := s.sem + 1 }
  | unmark (hpc : (s.processes p).pc = .unmark) :
    ProcessStep s p { s.setProcess p ⟨.outside, false⟩ with node.gpio := s.node.gpio.markFree }

private theorem processStep_cases (s : Bus ι) (p : ι) (call : LockCall) :
    ProcessStep s p (processStep s p call) := by
  obtain ⟨⟨pc, locked⟩, hp⟩ : ∃ x, s.processes p = x := ⟨_, rfl⟩
  have hpc : (s.processes p).pc = pc := congrArg BusProcess.pc hp
  cases pc with
  | outside =>
    cases call with
    | sbuslock =>
      by_cases hsem : s.sem = 0
      · simpa [processStep, hp, hsem] using .wait hpc
      · simpa [processStep, hp, hsem] using .acquire hpc hsem locked
    | sbusunlock =>
      cases locked with
      | false => simpa [processStep, hp] using .wait hpc
      | true => simpa [processStep, hp] using .release hp
  | mark => simpa [processStep, hp] using .mark hpc
  | unmark => simpa [processStep, hp] using .unmark hpc

namespace Bus

private theorem processes_setProcess_self (s : Bus ι) (p : ι) (x : BusProcess) :
    (s.setProcess p x).processes p = x := Function.update_self ..

private theorem processes_setProcess_of_ne (s : Bus ι) {p q : ι} (h : q ≠ p) (x : BusProcess) :
    (s.setProcess p x).processes q = s.processes q := Function.update_of_ne h ..

/-! ### The semaphore -/

/-- **The invariant of the semaphore**: it is free and no process holds it, or it is taken and one
process holds it. -/
private def Exclusive (s : Bus ι) : Prop :=
  (s.sem = 1 ∧ ∀ q, ¬ (s.processes q).Holds) ∨
    (s.sem = 0 ∧ ∃ p, ∀ q, (s.processes q).Holds → q = p)

omit [DecidableEq ι] in
/-- If a process holds the semaphore, it is the only one. -/
private theorem Exclusive.of_holds {s : Bus ι} (h : s.Exclusive) {p : ι}
    (hp : (s.processes p).Holds) :
    s.sem = 0 ∧ ∀ q, (s.processes q).Holds → q = p := by
  obtain ⟨-, hfree⟩ | ⟨hsem, p', htaken⟩ := h
  · exact absurd hp (hfree p)
  · exact ⟨hsem, fun q hq => (htaken q hq).trans (htaken p hp).symm⟩

private theorem Exclusive.process {s s' : Bus ι} {p : ι} (h : s.Exclusive)
    (hstep : ProcessStep s p s') :
    s'.Exclusive := by
  cases hstep with
  | wait => exact h
  | acquire hpc hsem locked =>
    obtain ⟨hone, hfree⟩ | ⟨hzero, -⟩ := h
    · refine .inr ⟨by rw [hone], p, fun q hq => ?_⟩
      by_contra hne
      exact hfree q (by rwa [← processes_setProcess_of_ne s hne])
    · exact absurd hzero hsem
  | mark hpc =>
    obtain ⟨hzero, honly⟩ := h.of_holds (.inl hpc)
    refine .inr ⟨hzero, p, fun q hq => ?_⟩
    by_contra hne
    exact hne (honly q (by rwa [← processes_setProcess_of_ne s hne]))
  | release howns =>
    obtain ⟨hzero, honly⟩ := h.of_holds (.inr howns)
    refine .inl ⟨by rw [hzero], fun q hq => ?_⟩
    by_cases hqp : q = p
    · rw [hqp, processes_setProcess_self] at hq
      obtain hq | hq := hq <;> cases hq
    · exact hqp (honly q (by rwa [← processes_setProcess_of_ne s hqp]))
  | unmark hpc =>
    -- the process does not hold the semaphore, before and after
    have hholds : ∀ q, ((s.setProcess p ⟨.outside, false⟩).processes q).Holds →
        (s.processes q).Holds := by
      intro q hq
      by_cases hqp : q = p
      · rw [hqp, processes_setProcess_self] at hq
        obtain hq | hq := hq <;> cases hq
      · rwa [← processes_setProcess_of_ne s hqp]
    obtain ⟨hone, hfree⟩ | ⟨hzero, p', honly⟩ := h
    · exact .inl ⟨hone, fun q hq => hfree q (hholds q hq)⟩
    · exact .inr ⟨hzero, p', fun q hq => honly q (hholds q hq)⟩

private theorem Exclusive.step {s : Bus ι} (e : BusEvent ι) (h : s.Exclusive) :
    (busStep s e).Exclusive := by
  cases e with
  | process p call => exact h.process (processStep_cases s p call)
  | interrupt i status => exact h

/-- **One owner at a time**, in every interleaving. -/
theorem owner_unique (node : Node) (es : List (BusEvent ι)) {p q : ι}
    (hp : ((Run.exec busStep (.start node) es).processes p).Owns)
    (hq : ((Run.exec busStep (.start node) es).processes q).Owns) : p = q := by
  have hstart : (Bus.start node : Bus ι).Exclusive := by
    refine .inl ⟨rfl, fun q hq => ?_⟩
    obtain hq | hq := hq <;> cases hq
  have h := Run.always (fun s e h => Exclusive.step e h) hstart es
  exact (h.of_holds (.inr hq)).2 p (.inr hp)

/-- One process owns the bus, and the other one waits for it. -/
theorem owner_unique_waiting :
    let es : List (BusEvent Bool) := [.process false .sbuslock, .process false .sbuslock,
      .process true .sbuslock, .process true .sbuslock]
    ((Run.exec busStep (.start quietNode) es).processes false).Owns ∧
      ∀ q, ((Run.exec busStep (.start quietNode) es).processes q).Owns → q = false := by
  intro es
  exact ⟨rfl, fun q hq => owner_unique quietNode es hq rfl⟩

/-! ### The bit -/

/-- **The owner is protected**: while a process owns the bus, the bit is set. -/
def Protected (s : Bus ι) : Prop := ∀ p, (s.processes p).Owns → s.node.gpio.FpgaUsed

/-- The bit is not cleared while a process owns the bus. -/
def NoLateClear (s : Bus ι) : BusEvent ι → Prop
  | .process p _ => (s.processes p).pc = .unmark → ∀ q, ¬ (s.processes q).Owns
  | .interrupt _ _ => True

/-- The handler does not use the bus while a process owns it. -/
def HandlerKeepsOff (s : Bus ι) : BusEvent ι → Prop
  | .process _ _ => True
  | .interrupt i status => ∀ p, (s.processes p).Owns →
      ∀ call, Effect.fpga call ∉ (interrupt i (s.node.pending status)).2

/-- Processes that own the bus after a step of one that does not. -/
private theorem owns_setProcess {s : Bus ι} {p q : ι} {x : BusProcess} (hx : ¬ x.Owns) :
    ((s.setProcess p x).processes q).Owns ↔ q ≠ p ∧ (s.processes q).Owns := by
  by_cases hqp : q = p
  · rw [hqp, processes_setProcess_self]
    exact iff_of_false hx fun h => h.1 rfl
  · rw [processes_setProcess_of_ne s hqp, and_iff_right hqp]

/-- A step of a process: only a late clear takes the protection away. -/
private theorem Protected.process {s s' : Bus ι} {p : ι} (h : s.Protected)
    (hstep : ProcessStep s p s') :
    s'.Protected ↔ ((s.processes p).pc = .unmark → ∀ q, ¬ (s.processes q).Owns) := by
  cases hstep with
  | wait hpc => exact iff_of_true h fun hpc' => nomatch hpc.symm.trans hpc'
  | acquire hpc hsem locked =>
    refine iff_of_true (fun q hq => h q ?_) fun hpc' => nomatch hpc.symm.trans hpc'
    exact ((owns_setProcess (x := ⟨.mark, locked⟩) nofun).mp hq).2
  | mark hpc =>
    exact iff_of_true (fun _ _ => fpgaUsed_markUsed _) fun hpc' => nomatch hpc.symm.trans hpc'
  | release howns =>
    refine iff_of_true (fun q hq => h q ?_) fun hpc' => ?_
    · exact ((owns_setProcess (x := ⟨.unmark, true⟩) nofun).mp hq).2
    · rw [howns] at hpc'
      nomatch hpc'
  | unmark hpc =>
    have howns := fun q => owns_setProcess (s := s) (p := p) (q := q) (x := ⟨.outside, false⟩) nofun
    constructor
    · intro h' _ q hq
      have hne : q ≠ p := by
        rintro rfl
        rw [hq] at hpc
        nomatch hpc
      exact not_fpgaUsed_markFree _ (h' q ((howns q).mpr ⟨hne, hq⟩))
    · intro hnone q hq
      exact absurd ((howns q).mp hq).2 (hnone hpc q)

private theorem Protected.step {s : Bus ι} (e : BusEvent ι) (h : s.Protected) :
    (busStep s e).Protected ↔ NoLateClear s e := by
  cases e with
  | process p call => exact h.process (processStep_cases s p call)
  | interrupt i status =>
    refine iff_of_true (fun p hp => ?_) trivial
    exact (fpgaUsed_interrupt i (s.node.pending status)).mpr (h p hp)

omit [DecidableEq ι] in
/-- A protected owner is not disturbed by the handler. -/
private theorem Protected.handlerKeepsOff {s : Bus ι} (h : s.Protected) (e : BusEvent ι) :
    HandlerKeepsOff s e := by
  cases e with
  | process p call => trivial
  | interrupt i status =>
    intro p hp
    exact not_fpga_of_printk (interrupt_printed i (n := s.node.pending status) (h p hp))

end Bus

/-- **When the bit protects every owner of the bus.** In any interleaving of the steps of any number
of processes with the interrupt handler: the bit is set at every moment at which a process owns the
bus, and the handler never uses the bus then, if and only if no process clears the bit while another
process owns the bus. -/
theorem bus_protected_iff (node : Node) (es : List (BusEvent ι)) :
    ((∀ k, (Run.exec busStep (.start node) (es.take k)).Protected) ∧
        Run.AllSteps busStep Bus.HandlerKeepsOff (.start node) es) ↔
      Run.AllSteps busStep Bus.NoLateClear (.start node) es := by
  have hstart : (Bus.start node : Bus ι).Protected := fun p hp => nomatch hp
  have hexact := Run.forall_take_iff (fun s e h => Bus.Protected.step (s := s) e h) hstart es
  constructor
  · rintro ⟨hprotected, -⟩
    exact hexact.mp hprotected
  · intro hclear
    have hprotected := hexact.mpr hclear
    have hsteps := Run.allSteps_of_take hprotected
    exact ⟨hprotected, hsteps.imp fun s e h => h.1.handlerKeepsOff e⟩

/-- **An owner without protection.** One process gives the semaphore back, another locks the bus,
and the first one clears the bit: the handler then reads the converter while the second owns the
bus. -/
theorem bus_unprotected :
    let s : Bus Bool := Run.exec busStep (.start quietNode) [
      .process false .sbuslock, .process false .sbuslock, .process false .sbusunlock,
      .process true .sbuslock, .process true .sbuslock, .process false .sbusunlock]
    let i := inputsAt ⟨0, 0, Int.le_refl 0, by decide⟩
    (s.processes true).Owns ∧ ¬ s.node.gpio.FpgaUsed ∧
      .fpga (.readFourChannels i.adc) ∈ (interrupt i (s.node.pending sclMask)).2 :=
  ⟨rfl, by decide, by decide⟩

end MiaVita
