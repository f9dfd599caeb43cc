import MiaVita.Interruption.Fpga

/-!
# The interrupt handler (`interruption/int.c`)

One interrupt line serves two sources: the ADC, 50 times a second, on pin SCL and the pulse of the
GPS, once a second, on pin SDA. `interrupt` masks both pins, asks the status register which of them
it was, SCL first, calls the handler of that one, clears the status of both and unmasks them.

The handler is given twice. `interrupt` is the function with nothing in between; `Handler` with
`handlerStep` is the same text cut at every access to the pin registers, so that an edge can set a
status bit at any of them. `handlerSteps_eq_interrupt` says that the second, left alone, computes
the first.

What the code cannot decide are the arguments `Inputs`: the time of day and what the FPGA answers.
The counter of elapsed seconds is declared in a header of the patched kernel. It is set with
`set_seconds(uint64_t)` and taken to be of that width, so that it does not overflow. The handlers of
the two sources run with interrupts disabled and are one step each.
-/

namespace MiaVita

/-! ### Data -/

/-- `struct timeval`, as `do_gettimeofday` fills it. -/
structure Timeval where
  sec : ℤ
  usec : ℤ
  usec_nonneg : 0 ≤ usec
  usec_lt : usec < 1000000

/-- What a run of the handler finds outside: the time, the six words of a conversion, and the
registers of the upper pins. -/
structure Inputs where
  time : Timeval
  adc : AdcWords
  dio : UInt16
  dir : UInt16

/-- The pin registers the handler uses. Of `gpio_int_clear`, whose written bits are cleared in the
status, only what it reads as is kept. -/
structure Gpio where
  intrEn : BitVec 32
  intStatus : BitVec 32
  intClear : BitVec 32
  intrTrigger : BitVec 32

/-- `SCL_MASK`, the ADC. -/
def sclMask : BitVec 32 := 1 <<< 14

/-- `SDA_MASK`, the GPS. -/
def sdaMask : BitVec 32 := 1 <<< 13

/-- `GPIOA_EN_MASK`. -/
def gpioaEnMask : BitVec 32 := sclMask ||| sdaMask

/-- The registers, the variables of the module and the sample buffer. -/
structure Node where
  gpio : Gpio
  counterScl : UInt32
  counterSda : UInt32
  counterSeconds : UInt32
  counter : UInt32
  muxState : UInt16
  secInPps : ℤ
  usecInPps : ℤ
  elapsedSecs : ℕ
  elapsedUsecs : UInt64
  ring : Ring

/-- The module is loaded: its own variables are zero. -/
def Node.start (gpio : Gpio) (elapsedSecs : ℕ) (elapsedUsecs : UInt64) (ring : Ring) : Node :=
  ⟨gpio, 0, 0, 0, 0, 0, 0, 0, elapsedSecs, elapsedUsecs, ring⟩

/-- What a handler does besides changing the state. -/
inductive Effect where
  | printk (text : String)
  | fpga (call : FpgaCall)
  | writeToBuffer (value : Vector UInt32 3) (timestamp : Int64) (seqNumber : Int32)
  deriving DecidableEq

/-- A time, and zeros from the FPGA. -/
def inputsAt (time : Timeval) : Inputs := ⟨time, ⟨0, 0, 0, 0, 0, 0⟩, 0, 0⟩

/-- A node with no bit pending. -/
def quietNode : Node :=
  .start ⟨gpioaEnMask, 0, 0, 0⟩ 0 0 (.start fun _ => ⟨0, 0, #v[0, 0, 0]⟩)

/-! ### The two sources -/

/-- `is_fpga_used`: bit 0 of the trigger register is the flag. The expression is an assignment, so
that all other bits of the register are cleared. -/
def isFpgaUsed (g : Gpio) : Bool × Gpio :=
  let p := g.intrTrigger &&& 0x1
  (p ≠ 0, { g with intrTrigger := p })

/-- `calculate_usecs`: the microseconds since the last pulse, and what it prints. -/
def calculateUsecs (currentSec currentUsec baseSec baseUsec : ℤ) : UInt64 × List Effect :=
  if baseSec = currentSec then (UInt64.ofInt (currentUsec - baseUsec), [])
  else if baseSec + 1 = currentSec then (UInt64.ofInt (1000000 - baseUsec + currentUsec), [])
  else
    (0, if baseSec ≠ 0 then
      [.printk ("There occurrent an error calculating the number of usecs passed " ++
        "since last PPS")] else [])

/-- `handle_gps_int`. -/
def handleGpsInt (i : Inputs) (n : Node) : Node × List Effect :=
  let (used, gpio) := isFpgaUsed n.gpio
  let lost := if 54 < n.counterScl then
    [.printk "We have lost some packets in this second\n"] else []
  let n := { n with
    gpio
    secInPps := i.time.sec
    usecInPps := i.time.usec
    counterSeconds := n.counterSeconds + 1
    elapsedUsecs := 0
    elapsedSecs := n.elapsedSecs + 1
    counterScl := 0 }
  if used then (n, lost)
  else ({ n with muxState := 0 }, lost ++
    [.fpga (.writeDio26 false i.dio i.dir), .fpga .writeWatchdog])

/-- The timestamp `handle_adc_int` computes, in an `int64_t`. -/
def adcTimestamp (elapsedSecs : ℕ) (elapsedUsecs : UInt64) : Int64 :=
  Int64.ofNat (elapsedSecs * 1000000 + elapsedUsecs.toNat)

/-- `handle_adc_int`. Its other way to tell the time is switched off by a constant. -/
def handleAdcInt (i : Inputs) (n : Node) : Node × List Effect :=
  let (fpgaBusy, gpio) := isFpgaUsed n.gpio
  let (usecs, printed) := calculateUsecs i.time.sec i.time.usec n.secInPps n.usecInPps
  let n := { n with gpio, elapsedUsecs := usecs, counter := n.counter + 1 }
  if fpgaBusy then (n, printed)
  else
    let mux := if n.muxState = 0 then [.fpga (.writeDio26 true i.dio i.dir)] else []
    let valueBuffer := readFourChannels i.adc
    let timestamp := adcTimestamp n.elapsedSecs n.elapsedUsecs
    ({ n with
        muxState := if n.muxState = 0 then 1 else n.muxState
        ring := (n.ring.writeToBuffer valueBuffer timestamp n.counter.toInt32).1 },
      printed ++ mux ++ [.fpga (.readFourChannels i.adc),
        .writeToBuffer valueBuffer timestamp n.counter.toInt32])

/-! ### The handler -/

/-- Disable interruptions. -/
def Gpio.disable (g : Gpio) : Gpio := { g with intrEn := g.intrEn &&& ~~~gpioaEnMask }

/-- Clear the GPIO interruption. The register is read, and what is written clears the status. -/
def Gpio.clear (g : Gpio) : Gpio :=
  { g with intStatus := g.intStatus &&& ~~~(g.intClear ||| gpioaEnMask) }

/-- Enable interruptions. -/
def Gpio.enable (g : Gpio) : Gpio := { g with intrEn := g.intrEn ||| gpioaEnMask }

/-- The branch of an ADC interrupt. -/
def serveScl (i : Inputs) (n : Node) : Node × List Effect :=
  handleAdcInt i { n with counterScl := n.counterScl + 1 }

/-- The branch of a GPS interrupt. -/
def serveSda (i : Inputs) (n : Node) : Node × List Effect :=
  handleGpsInt i { n with counterSda := n.counterSda + 1 }

/-- What is printed when neither bit is set. -/
def unknownInterruption : List Effect :=
  [.printk ("------------- ERROR Received unknown interruption " ++
    "------------------- ??\n")]

/-- `interrupt`. -/
def interrupt (i : Inputs) (n : Node) : Node × List Effect :=
  let n := { n with gpio := n.gpio.disable }
  let (n, effects) :=
    if sclMask &&& n.gpio.intStatus ≠ 0 then serveScl i n
    else if sdaMask &&& n.gpio.intStatus ≠ 0 then serveSda i n
    else (n, unknownInterruption)
  ({ n with gpio := n.gpio.clear.enable }, effects)

/-! ### The handler, access by access -/

/-- Which branch a run of the handler has taken. -/
inductive Served where
  | adc
  | gps
  | nothing
  deriving DecidableEq

/-- Where the handler stands: at an access to a pin register. Between two runs it stands at its
entry. The branch taken is remembered, the code does not read it. -/
inductive HandlerPc where
  | entry
  | testScl
  | testSda
  | clear (served : Served)
  | enable
  deriving DecidableEq

/-- The handler in the middle of its text. -/
structure Handler where
  node : Node
  pc : HandlerPc

/-- One access. -/
def handlerStep (i : Inputs) (h : Handler) : Handler × List Effect :=
  match h.pc with
  | .entry => (⟨{ h.node with gpio := h.node.gpio.disable }, .testScl⟩, [])
  | .testScl =>
    if sclMask &&& h.node.gpio.intStatus ≠ 0 then
      let (n, effects) := serveScl i h.node
      (⟨n, .clear .adc⟩, effects)
    else (⟨h.node, .testSda⟩, [])
  | .testSda =>
    -- the status is read a second time
    if sdaMask &&& h.node.gpio.intStatus ≠ 0 then
      let (n, effects) := serveSda i h.node
      (⟨n, .clear .gps⟩, effects)
    else (⟨h.node, .clear .nothing⟩, unknownInterruption)
  | .clear _ => (⟨{ h.node with gpio := h.node.gpio.clear }, .enable⟩, [])
  | .enable => (⟨{ h.node with gpio := h.node.gpio.enable }, .entry⟩, [])

section Access

variable {i : Inputs} {n : Node}

theorem handlerStep_entry :
    handlerStep i ⟨n, .entry⟩ = (⟨{ n with gpio := n.gpio.disable }, .testScl⟩, []) := rfl

theorem handlerStep_scl (h : sclMask &&& n.gpio.intStatus ≠ 0) :
    handlerStep i ⟨n, .testScl⟩ = (⟨(serveScl i n).1, .clear .adc⟩, (serveScl i n).2) := if_pos h

theorem handlerStep_not_scl (h : ¬ sclMask &&& n.gpio.intStatus ≠ 0) :
    handlerStep i ⟨n, .testScl⟩ = (⟨n, .testSda⟩, []) := if_neg h

theorem handlerStep_sda (h : sdaMask &&& n.gpio.intStatus ≠ 0) :
    handlerStep i ⟨n, .testSda⟩ = (⟨(serveSda i n).1, .clear .gps⟩, (serveSda i n).2) := if_pos h

theorem handlerStep_not_sda (h : ¬ sdaMask &&& n.gpio.intStatus ≠ 0) :
    handlerStep i ⟨n, .testSda⟩ = (⟨n, .clear .nothing⟩, unknownInterruption) := if_neg h

theorem handlerStep_clear (served : Served) :
    handlerStep i ⟨n, .clear served⟩ = (⟨{ n with gpio := n.gpio.clear }, .enable⟩, []) := rfl

theorem handlerStep_enable :
    handlerStep i ⟨n, .enable⟩ = (⟨{ n with gpio := n.gpio.enable }, .entry⟩, []) := rfl

end Access

/-- `n` accesses, with what they do. -/
def handlerSteps (i : Inputs) : ℕ → Handler → Handler × List Effect
  | 0, h => (h, [])
  | k + 1, h =>
    let (h, effects) := handlerStep i h
    let (h, rest) := handlerSteps i k h
    (h, effects ++ rest)

/-- **The handler left alone** computes `interrupt`, in four accesses if the ADC is pending and in
five if not. -/
theorem handlerSteps_eq_interrupt (i : Inputs) (n : Node) :
    handlerSteps i (if sclMask &&& n.gpio.intStatus ≠ 0 then 4 else 5) ⟨n, .entry⟩ =
      (⟨(interrupt i n).1, .entry⟩, (interrupt i n).2) := by
  have hstatus : n.gpio.disable.intStatus = n.gpio.intStatus := rfl
  by_cases hscl : sclMask &&& n.gpio.intStatus ≠ 0
  · rw [if_pos hscl]
    simp only [handlerSteps, handlerStep_entry, handlerStep_scl (n := { n with
      gpio := n.gpio.disable }) hscl, handlerStep_clear, handlerStep_enable, interrupt, hstatus,
      if_pos hscl, List.nil_append, List.append_nil]
  · rw [if_neg hscl]
    by_cases hsda : sdaMask &&& n.gpio.intStatus ≠ 0
    · simp only [handlerSteps, handlerStep_entry, handlerStep_not_scl (n := { n with
        gpio := n.gpio.disable }) hscl,
        handlerStep_sda (n := { n with gpio := n.gpio.disable }) hsda, handlerStep_clear,
        handlerStep_enable, interrupt, hstatus, if_neg hscl, if_pos hsda, List.nil_append,
        List.append_nil]
    · simp only [handlerSteps, handlerStep_entry, handlerStep_not_scl (n := { n with
        gpio := n.gpio.disable }) hscl,
        handlerStep_not_sda (n := { n with gpio := n.gpio.disable }) hsda, handlerStep_clear,
        handlerStep_enable, interrupt, hstatus, if_neg hscl, if_neg hsda, List.nil_append,
        List.append_nil]

/-! ### One interrupt after the other -/

/-- The two sources. -/
inductive Source where
  | adc
  | gps
  deriving DecidableEq

/-- The status bit of a source. -/
def Source.mask : Source → BitVec 32
  | adc => sclMask
  | gps => sdaMask

/-- An interrupt with one pending bit, the trigger register as the processes that share it have
left it, and what the handler finds outside. -/
structure Irq where
  source : Source
  trigger : BitVec 32
  inputs : Inputs

/-- The handler finds the FPGA in use. -/
def Irq.Busy (e : Irq) : Prop := e.trigger &&& 0x1 ≠ 0

instance (e : Irq) : Decidable e.Busy := inferInstanceAs (Decidable (_ ≠ _))

/-- The node when the handler is entered. -/
def Node.raise (n : Node) (e : Irq) : Node :=
  { n with gpio := { n.gpio with intStatus := e.source.mask, intrTrigger := e.trigger } }

/-- The handler serves an interrupt. -/
def irqRun (n : Node) (e : Irq) : Node × List Effect := interrupt e.inputs (n.raise e)

/-- The node when the handler asks for the source, with the pins masked. -/
def Node.entered (n : Node) (e : Irq) : Node :=
  { n.raise e with gpio := (n.raise e).gpio.disable }

/-- The node when the handler is left, with the status cleared. -/
def Node.left (n : Node) : Node := { n with gpio := n.gpio.clear.enable }

/-- What `calculate_usecs` prints is no access to anything. -/
theorem calculateUsecs_printed (currentSec currentUsec baseSec baseUsec : ℤ) :
    ∀ x ∈ (calculateUsecs currentSec currentUsec baseSec baseUsec).2, ∃ text, x = .printk text := by
  rw [calculateUsecs]
  split_ifs <;> simp

theorem not_fpga_of_printk {xs : List Effect} (h : ∀ x ∈ xs, ∃ text, x = .printk text)
    (call : FpgaCall) : Effect.fpga call ∉ xs := by
  intro hmem
  obtain ⟨text, htext⟩ := h _ hmem
  cases htext

/-- The variables of the module that an interrupt leaves behind. -/
structure Leaves (n : Node) (counter : UInt32) (muxState : UInt16) (secInPps usecInPps : ℤ)
    (elapsedSecs : ℕ) : Prop where
  counter_eq : n.counter = counter
  muxState_eq : n.muxState = muxState
  secInPps_eq : n.secInPps = secInPps
  usecInPps_eq : n.usecInPps = usecInPps
  elapsedSecs_eq : n.elapsedSecs = elapsedSecs

section Served

variable (n : Node) {e : Irq}

theorem irqRun_of_adc (h : e.source = .adc) :
    irqRun n e =
      ((serveScl e.inputs (n.entered e)).1.left, (serveScl e.inputs (n.entered e)).2) := by
  have hscl : sclMask &&& (n.raise e).gpio.disable.intStatus ≠ 0 := by
    change sclMask &&& e.source.mask ≠ 0
    rw [h]
    decide
  rw [irqRun, interrupt]
  simp only [if_pos hscl]
  rfl

theorem irqRun_of_gps (h : e.source = .gps) :
    irqRun n e =
      ((serveSda e.inputs (n.entered e)).1.left, (serveSda e.inputs (n.entered e)).2) := by
  have hscl : ¬ sclMask &&& (n.raise e).gpio.disable.intStatus ≠ 0 := by
    change ¬ sclMask &&& e.source.mask ≠ 0
    rw [h]
    decide
  have hsda : sdaMask &&& (n.raise e).gpio.disable.intStatus ≠ 0 := by
    change sdaMask &&& e.source.mask ≠ 0
    rw [h]
    decide
  rw [irqRun, interrupt]
  simp only [if_neg hscl, if_pos hsda]
  rfl

theorem isFpgaUsed_entered (e : Irq) : (isFpgaUsed (n.entered e).gpio).1 = decide e.Busy := rfl

/-- **An ADC interrupt that finds the FPGA in use** only counts. -/
theorem irqRun_adc_busy (hsource : e.source = .adc) (hbusy : e.Busy) :
    Leaves (irqRun n e).1 (n.counter + 1) n.muxState n.secInPps n.usecInPps n.elapsedSecs ∧
      (irqRun n e).2 = (calculateUsecs e.inputs.time.sec e.inputs.time.usec n.secInPps
        n.usecInPps).2 := by
  have hused := (isFpgaUsed_entered n e).trans (decide_eq_true hbusy)
  rw [irqRun_of_adc n hsource, serveScl, handleAdcInt]
  simp only [hused, if_true]
  exact ⟨⟨rfl, rfl, rfl, rfl, rfl⟩, rfl⟩

/-- **An ADC interrupt that finds the FPGA free** writes a sample. -/
theorem irqRun_adc_free (hsource : e.source = .adc) (hfree : ¬ e.Busy) :
    Leaves (irqRun n e).1 (n.counter + 1) (if n.muxState = 0 then 1 else n.muxState) n.secInPps
        n.usecInPps n.elapsedSecs ∧
      (irqRun n e).2 =
        (calculateUsecs e.inputs.time.sec e.inputs.time.usec n.secInPps n.usecInPps).2 ++
        (if n.muxState = 0 then [.fpga (.writeDio26 true e.inputs.dio e.inputs.dir)] else []) ++
        [.fpga (.readFourChannels e.inputs.adc),
          .writeToBuffer (readFourChannels e.inputs.adc)
            (adcTimestamp n.elapsedSecs (calculateUsecs e.inputs.time.sec e.inputs.time.usec
              n.secInPps n.usecInPps).1) (n.counter + 1).toInt32] := by
  have hused := (isFpgaUsed_entered n e).trans (decide_eq_false hfree)
  rw [irqRun_of_adc n hsource, serveScl, handleAdcInt]
  simp only [hused, Bool.false_eq_true, if_false]
  exact ⟨⟨rfl, rfl, rfl, rfl, rfl⟩, rfl⟩

/-- **A GPS interrupt** starts a second, and switches the multiplexer if it may. -/
theorem irqRun_gps (hsource : e.source = .gps) :
    Leaves (irqRun n e).1 n.counter (if e.Busy then n.muxState else 0) e.inputs.time.sec
        e.inputs.time.usec (n.elapsedSecs + 1) ∧
      ∃ printed : List Effect, (∀ x ∈ printed, ∃ text, x = .printk text) ∧
        (irqRun n e).2 = printed ++ if e.Busy then [] else
          [.fpga (.writeDio26 false e.inputs.dio e.inputs.dir), .fpga .writeWatchdog] := by
  have hprinted : ∀ x ∈ (if 54 < n.counterScl then
      [.printk "We have lost some packets in this second\n"] else [] : List Effect),
      ∃ text, x = .printk text := by
    split_ifs <;> simp
  by_cases hbusy : e.Busy
  · have hused := (isFpgaUsed_entered n e).trans (decide_eq_true hbusy)
    rw [irqRun_of_gps n hsource, serveSda, handleGpsInt]
    simp only [hused, if_true, if_pos hbusy, List.append_nil]
    exact ⟨⟨rfl, rfl, rfl, rfl, rfl⟩, _, hprinted, rfl⟩
  · have hused := (isFpgaUsed_entered n e).trans (decide_eq_false hbusy)
    rw [irqRun_of_gps n hsource, serveSda, handleGpsInt]
    simp only [hused, Bool.false_eq_true, if_false, if_neg hbusy]
    exact ⟨⟨rfl, rfl, rfl, rfl, rfl⟩, _, hprinted, rfl⟩

end Served

end MiaVita
