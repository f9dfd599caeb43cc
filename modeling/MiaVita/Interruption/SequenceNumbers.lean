import MiaVita.Interruption.Handler

/-!
# Sequence numbers and the bus over runs of interrupts

Interrupts of both sources in any order, each finding the FPGA in use or free. Every ADC interrupt
counts, and those that find the FPGA free write a sample with the count; so the gaps in the sequence
numbers tell how many samples are missing. The multiplexer is switched to the converter by the first
such interrupt of a second and back by the pulse, and `mux_state` is what the code remembers of it.

`Logged` keeps, for every interrupt, what the handler did. The invariant of a run
(`Logged.Inv`) says what is in the log and that `mux_state` is not ahead of the pin.
-/

namespace MiaVita

/-! ### The log of a run -/

/-- The node, and every interrupt so far with what its handler did. -/
structure Logged where
  node : Node
  log : List (Irq × List Effect)

/-- One interrupt. -/
def loggedStep (s : Logged) (e : Irq) : Logged :=
  ⟨(irqRun s.node e).1, s.log ++ [(e, (irqRun s.node e).2)]⟩

/-- The sample that an effect passes to `write_to_buffer`. -/
def Effect.sample : Effect → Option Sample
  | writeToBuffer value timestamp seqNumber => some ⟨timestamp, seqNumber, value⟩
  | _ => none

/-- The accesses of an effect to the bus. -/
def Effect.accesses : Effect → List BusAccess
  | fpga call => call.accesses
  | _ => []

/-- What the handler did in all interrupts of a log. -/
def effectsOf (log : List (Irq × List Effect)) : List Effect := log.flatMap Prod.snd

/-- The samples written, in order. -/
def samplesOf (log : List (Irq × List Effect)) : List Sample :=
  (effectsOf log).filterMap Effect.sample

/-- The ADC interrupts, numbered from 1. -/
def numbered (es : List Irq) : List (Irq × ℕ) := (es.filter (·.source = .adc)).zipIdx 1

/-- **The sequence numbers account for the interrupts**, and the bus is used as it should be. -/
structure AccountsFor (es : List Irq) (log : List (Irq × List Effect)) : Prop where
  /-- The log is that of these interrupts. -/
  irqs : log.map Prod.fst = es
  /-- The samples are those of the ADC interrupts that found the flag clear, one for each and in
  order, and the sample of the `k`-th ADC interrupt has the number `k` modulo `2 ^ 32`. -/
  samples : (samplesOf log).map (fun x => (x.data, x.seqNumber)) =
    ((numbered es).filter fun x => ¬ x.1.Busy).map fun x =>
      (readFourChannels x.1.inputs.adc, Int32.ofNat x.2)
  /-- Between two consecutive samples as many ADC interrupts were skipped as their numbers say. -/
  gaps : ∀ before x y after, samplesOf log = before ++ x :: y :: after →
    ∃ pre e skipped e' post, es.filter (·.source = .adc) = pre ++ e :: (skipped ++ e' :: post) ∧
      (pre.filter fun e => ¬ e.Busy).length = before.length ∧ ¬ e.Busy ∧ ¬ e'.Busy ∧
      (∀ s ∈ skipped, s.Busy) ∧ y.seqNumber - x.seqNumber - 1 = Int32.ofNat skipped.length
  /-- Whenever the converter is read, DIO26 was last written with 1. -/
  multiplexed : ∀ before w after, effectsOf log = before ++ .fpga (.readFourChannels w) :: after →
    lastDio26 (before.flatMap Effect.accesses) = some true
  /-- An interrupt that found the flag set has not used the bus. -/
  untouched : ∀ x ∈ log, x.1.Busy → ∀ call, Effect.fpga call ∉ x.2

/-! ### The pin along a list of effects -/

/-- Every read of the converter in a list of effects finds DIO26 at 1, if it was last written with
`last` before. -/
def Multiplexed : Option Bool → List Effect → Prop
  | _, [] => True
  | last, x :: xs =>
    (∀ w, x = .fpga (.readFourChannels w) → last = some true) ∧
      Multiplexed ((lastDio26 x.accesses).or last) xs

private theorem multiplexed_append (last : Option Bool) (xs ys : List Effect) :
    Multiplexed last (xs ++ ys) ↔
      Multiplexed last xs ∧ Multiplexed ((lastDio26 (xs.flatMap Effect.accesses)).or last) ys := by
  induction xs generalizing last with
  | nil => exact (and_iff_right trivial).symm
  | cons x xs ih =>
    rw [List.cons_append, Multiplexed, Multiplexed, ih, List.flatMap_cons, lastDio26_append,
      Option.or_assoc, and_assoc]

/-- Effects that do not use the bus ask nothing and change nothing. -/
private theorem multiplexed_of_not_fpga (last : Option Bool) {xs : List Effect}
    (h : ∀ call, Effect.fpga call ∉ xs) :
    Multiplexed last xs ∧ lastDio26 (xs.flatMap Effect.accesses) = none := by
  induction xs generalizing last with
  | nil => exact ⟨trivial, rfl⟩
  | cons x xs ih =>
    have hx : x.accesses = [] := by
      cases x with
      | fpga call => exact absurd List.mem_cons_self (h call)
      | printk text => rfl
      | writeToBuffer value timestamp seqNumber => rfl
    have hread : ∀ w, x ≠ .fpga (.readFourChannels w) := by
      rintro w rfl
      exact h _ List.mem_cons_self
    obtain ⟨hxs, hlast⟩ := ih last fun call hmem => h call (List.mem_cons_of_mem _ hmem)
    rw [Multiplexed, List.flatMap_cons, hx]
    exact ⟨⟨fun w hw => absurd hw (hread w), hxs⟩, hlast⟩

private theorem samples_of_printk {xs : List Effect} (h : ∀ x ∈ xs, ∃ text, x = .printk text) :
    xs.filterMap Effect.sample = [] := by
  rw [List.filterMap_eq_nil_iff]
  intro x hx
  obtain ⟨text, rfl⟩ := h x hx
  rfl

/-! ### One interrupt -/

/-- The sample of an ADC interrupt that finds the FPGA free. -/
theorem samples_adc_free (n : Node) {e : Irq} (hsource : e.source = .adc) (hfree : ¬ e.Busy) :
    (irqRun n e).2.filterMap Effect.sample =
      [⟨adcTimestamp n.elapsedSecs (calculateUsecs e.inputs.time.sec e.inputs.time.usec n.secInPps
        n.usecInPps).1, (n.counter + 1).toInt32, readFourChannels e.inputs.adc⟩] := by
  have hmux : (if n.muxState = 0 then [.fpga (.writeDio26 true e.inputs.dio e.inputs.dir)]
      else [] : List Effect).filterMap Effect.sample = [] := by
    split_ifs <;> rfl
  rw [(irqRun_adc_free n hsource hfree).2, List.filterMap_append, List.filterMap_append,
    samples_of_printk (calculateUsecs_printed _ _ _ _), hmux]
  rfl

/-- A GPS interrupt writes no sample. -/
theorem samples_gps (n : Node) {e : Irq} (hsource : e.source = .gps) :
    (irqRun n e).2.filterMap Effect.sample = [] := by
  obtain ⟨-, printed, hprinted, heffects⟩ := irqRun_gps n hsource
  rw [heffects, List.filterMap_append, samples_of_printk hprinted]
  split_ifs <;> rfl

/-- What one interrupt does: it counts if it is one of the ADC, writes a sample if the FPGA is free
as well, leaves the bus alone if it is not, and reads the converter only behind the multiplexer. -/
structure Serves (n : Node) (e : Irq) : Prop where
  counter_eq : (irqRun n e).1.counter = if e.source = .adc then n.counter + 1 else n.counter
  samples_eq : ((irqRun n e).2.filterMap Effect.sample).map (fun x => (x.data, x.seqNumber)) =
    if e.source = .adc ∧ ¬ e.Busy then
      [(readFourChannels e.inputs.adc, (n.counter + 1).toInt32)] else []
  untouched : e.Busy → ∀ call, Effect.fpga call ∉ (irqRun n e).2
  multiplexed : ∀ last, (n.muxState ≠ 0 → last = some true) →
    Multiplexed last (irqRun n e).2 ∧ ((irqRun n e).1.muxState ≠ 0 →
      (lastDio26 ((irqRun n e).2.flatMap Effect.accesses)).or last = some true)

private theorem serves_adc_busy (n : Node) {e : Irq} (hsource : e.source = .adc) (hbusy : e.Busy) :
    Serves n e := by
  obtain ⟨hleaves, heffects⟩ := irqRun_adc_busy n hsource hbusy
  have hprinted := calculateUsecs_printed e.inputs.time.sec e.inputs.time.usec n.secInPps
    n.usecInPps
  rw [← heffects] at hprinted
  refine ⟨?_, ?_, fun _ => not_fpga_of_printk hprinted, fun last hlast => ?_⟩
  · rw [hleaves.counter_eq, if_pos hsource]
  · rw [samples_of_printk hprinted, if_neg fun h => h.2 hbusy]
    rfl
  · obtain ⟨hmux, hnone⟩ := multiplexed_of_not_fpga last (not_fpga_of_printk hprinted)
    rw [hleaves.muxState_eq, hnone]
    exact ⟨hmux, hlast⟩

private theorem serves_adc_free (n : Node) {e : Irq} (hsource : e.source = .adc)
    (hfree : ¬ e.Busy) :
    Serves n e := by
  obtain ⟨hleaves, heffects⟩ := irqRun_adc_free n hsource hfree
  have hprinted := calculateUsecs_printed e.inputs.time.sec e.inputs.time.usec n.secInPps
    n.usecInPps
  generalize (calculateUsecs e.inputs.time.sec e.inputs.time.usec n.secInPps n.usecInPps).2 =
    printed at hprinted heffects
  refine ⟨?_, ?_, fun h => absurd h hfree, fun last hlast => ?_⟩
  · rw [hleaves.counter_eq, if_pos hsource]
  · rw [if_pos (show e.source = .adc ∧ ¬ e.Busy from ⟨hsource, hfree⟩),
      samples_adc_free n hsource hfree]
    rfl
  · obtain ⟨hquiet, hnone⟩ := multiplexed_of_not_fpga last (not_fpga_of_printk hprinted)
    rw [heffects, List.append_assoc, multiplexed_append, hnone, List.flatMap_append,
      lastDio26_append, hnone, Option.or_none]
    by_cases hmux : n.muxState = 0
    · -- the multiplexer is switched first
      rw [if_pos hmux]
      have hswitch := lastDio26_accesses (.writeDio26 true e.inputs.dio e.inputs.dir)
      refine ⟨⟨hquiet, nofun, fun w _ => ?_, nofun, trivial⟩, fun _ => ?_⟩
      · rw [Effect.accesses, hswitch]
        rfl
      · simp only [List.cons_append, List.nil_append, List.flatMap_cons, Effect.accesses,
          lastDio26_append, hswitch]
        rfl
    · -- it is still switched
      obtain rfl := hlast hmux
      rw [if_neg hmux]
      exact ⟨⟨hquiet, fun _ _ => rfl, nofun, trivial⟩, fun _ => rfl⟩

private theorem serves_gps (n : Node) {e : Irq} (hsource : e.source = .gps) : Serves n e := by
  obtain ⟨hleaves, printed, hprinted, heffects⟩ := irqRun_gps n hsource
  have hadc : e.source ≠ .adc := by
    rw [hsource]
    nofun
  have hcounter :
      (irqRun n e).1.counter = if e.source = .adc then n.counter + 1 else n.counter := by
    rw [hleaves.counter_eq, if_neg hadc]
  have hsamples : ((irqRun n e).2.filterMap Effect.sample).map (fun x => (x.data, x.seqNumber)) =
      if e.source = .adc ∧ ¬ e.Busy then
        [(readFourChannels e.inputs.adc, (n.counter + 1).toInt32)] else [] := by
    rw [samples_gps n hsource, if_neg fun h => hadc h.1]
    rfl
  by_cases hbusy : e.Busy
  · rw [if_pos hbusy, List.append_nil] at heffects
    rw [← heffects] at hprinted
    refine ⟨hcounter, hsamples, fun _ => not_fpga_of_printk hprinted, fun last hlast => ?_⟩
    · obtain ⟨hmux, hnone⟩ := multiplexed_of_not_fpga last (not_fpga_of_printk hprinted)
      rw [hleaves.muxState_eq, if_pos hbusy, hnone]
      exact ⟨hmux, hlast⟩
  · rw [if_neg hbusy] at heffects
    refine ⟨hcounter, hsamples, fun h => absurd h hbusy, fun last hlast => ?_⟩
    · obtain ⟨hquiet, -⟩ := multiplexed_of_not_fpga last (not_fpga_of_printk hprinted)
      rw [heffects, multiplexed_append, hleaves.muxState_eq, if_neg hbusy]
      exact ⟨⟨hquiet, nofun, nofun, trivial⟩, fun h => absurd rfl h⟩

theorem serves (n : Node) (e : Irq) : Serves n e := by
  cases hsource : e.source with
  | adc =>
    by_cases hbusy : e.Busy
    · exact serves_adc_busy n hsource hbusy
    · exact serves_adc_free n hsource hbusy
  | gps => exact serves_gps n hsource

/-! ### Whole runs -/

namespace Logged

/-- The invariant of a run from the loading of the module on. -/
structure Inv (s : Logged) : Prop where
  counter_eq : s.node.counter =
    UInt32.ofNat ((s.log.map Prod.fst).filter (·.source = .adc)).length
  samples_eq : (samplesOf s.log).map (fun x => (x.data, x.seqNumber)) =
    ((numbered (s.log.map Prod.fst)).filter fun x => ¬ x.1.Busy).map fun x =>
      (readFourChannels x.1.inputs.adc, Int32.ofNat x.2)
  mux : s.node.muxState ≠ 0 → lastDio26 ((effectsOf s.log).flatMap Effect.accesses) = some true
  multiplexed : Multiplexed none (effectsOf s.log)
  untouched : ∀ x ∈ s.log, x.1.Busy → ∀ call, Effect.fpga call ∉ x.2

theorem inv_start (gpio : Gpio) (elapsedSecs : ℕ) (elapsedUsecs : UInt64) (ring : Ring) :
    (Logged.mk (.start gpio elapsedSecs elapsedUsecs ring) []).Inv where
  counter_eq := rfl
  samples_eq := rfl
  mux h := absurd rfl h
  multiplexed := trivial
  untouched _ h := absurd h List.not_mem_nil

theorem effectsOf_step (s : Logged) (e : Irq) :
    effectsOf (loggedStep s e).log = effectsOf s.log ++ (irqRun s.node e).2 := by
  rw [loggedStep, effectsOf, List.flatMap_append, List.flatMap_singleton]
  rfl

private theorem numbered_append (es : List Irq) (e : Irq) :
    numbered (es ++ [e]) = numbered es ++
      if e.source = .adc then [(e, (es.filter (·.source = .adc)).length + 1)] else [] := by
  rw [numbered, List.filter_append, List.zipIdx_append, List.filter_singleton]
  split_ifs with h
  · simp [h, numbered, Nat.add_comm]
  · simp [h, numbered]

theorem Inv.step {s : Logged} (h : s.Inv) (e : Irq) : (loggedStep s e).Inv := by
  have hserves := serves s.node e
  have hirqs : (loggedStep s e).log.map Prod.fst = s.log.map Prod.fst ++ [e] := by
    rw [loggedStep, List.map_append]
    rfl
  have hcount : (n : ℕ) → UInt32.ofNat n + 1 = UInt32.ofNat (n + 1) := fun n =>
    (UInt32.ofNat_add n 1).symm
  refine ⟨?_, ?_, ?_, ?_, ?_⟩
  · rw [hirqs, List.filter_append, List.length_append]
    refine hserves.counter_eq.trans ?_
    rw [h.counter_eq, List.filter_singleton]
    split_ifs with hadc
    · simp [hadc]
    · simp [hadc]
  · rw [samplesOf, effectsOf_step, List.filterMap_append, List.map_append, hserves.samples_eq,
      hirqs, numbered_append, List.filter_append, List.map_append]
    refine congrArg₂ (· ++ ·) h.samples_eq ?_
    by_cases hadc : e.source = .adc
    · by_cases hbusy : e.Busy
      · simp [hadc, hbusy]
      · rw [h.counter_eq, hcount]
        simp [hadc, hbusy]
    · simp [hadc]
  · rw [effectsOf_step, List.flatMap_append, lastDio26_append]
    exact (hserves.multiplexed _ h.mux).2
  · rw [effectsOf_step, multiplexed_append]
    refine ⟨h.multiplexed, (hserves.multiplexed _ fun hmux => ?_).1⟩
    rw [h.mux hmux]
    rfl
  · rw [loggedStep, List.forall_mem_append, List.forall_mem_singleton]
    exact ⟨h.untouched, hserves.untouched⟩

end Logged

/-- Reads in a list of effects that is multiplexed. -/
private theorem Multiplexed.split {last : Option Bool} {xs before after : List Effect}
    {w : AdcWords}
    (h : Multiplexed last xs) (hxs : xs = before ++ .fpga (.readFourChannels w) :: after) :
    (lastDio26 (before.flatMap Effect.accesses)).or last = some true := by
  rw [hxs, multiplexed_append] at h
  exact h.2.1 w rfl

/-- Two entries that follow each other in what is left of a numbered list have only dropped entries
between them. -/
private theorem exists_skipped {α : Type*} {p : α → Bool} {xs : List α}
    {before after : List (α × ℕ)}
    {x y : α × ℕ} (h : (xs.zipIdx 1).filter (fun x => p x.1) = before ++ x :: y :: after) :
    ∃ pre skipped post, xs = pre ++ x.1 :: (skipped ++ y.1 :: post) ∧
      (pre.filter p).length = before.length ∧ p x.1 = true ∧ p y.1 = true ∧
      (∀ s ∈ skipped, p s = false) ∧ y.2 = x.2 + skipped.length + 1 := by
  obtain ⟨l₁, l₂, hzip, hbefore, h₂⟩ := List.filter_eq_append_iff.mp h
  obtain ⟨m₁, m₂, rfl, hm₁, hx, h₃⟩ := List.filter_eq_cons_iff.mp h₂
  obtain ⟨k₁, k₂, rfl, hk₁, hy, -⟩ := List.filter_eq_cons_iff.mp h₃
  rw [← List.append_assoc] at hzip
  obtain ⟨pre, rest₁, rfl, hpre, hrest₁⟩ := List.zipIdx_eq_append_iff.mp hzip
  obtain ⟨a, rest₂, rfl, rfl, hrest₂⟩ := List.zipIdx_eq_cons_iff.mp hrest₁.symm
  obtain ⟨skipped, rest₃, rfl, hskipped, hrest₃⟩ := List.zipIdx_eq_append_iff.mp hrest₂.symm
  obtain ⟨b, rest, rfl, rfl, -⟩ := List.zipIdx_eq_cons_iff.mp hrest₃.symm
  refine ⟨pre, skipped, rest, rfl, ?_, hx, hy, fun s hs => ?_, by simp only; omega⟩
  · have hfilter : (pre.zipIdx 1).filter (fun x => p x.1) = before := by
      rw [← hpre, List.filter_append, hbefore, List.filter_eq_nil_iff.mpr hm₁, List.append_nil]
    have hfst := List.filter_map (f := Prod.fst) (l := pre.zipIdx 1) (p := p)
    rw [List.zipIdx_map_fst] at hfst
    rw [hfst, List.length_map, ← hfilter]
    rfl
  · rw [← List.zipIdx_map_fst (1 + pre.length + 1) skipped, ← hskipped] at hs
    obtain ⟨x, hx', rfl⟩ := List.mem_map.mp hs
    exact Bool.eq_false_iff.mpr (hk₁ x hx')

/-- The log is that of the interrupts of the run. -/
theorem irqs_exec (s : Logged) (es : List Irq) :
    (Run.exec loggedStep s es).log.map Prod.fst = s.log.map Prod.fst ++ es := by
  induction es generalizing s with
  | nil => exact (List.append_nil _).symm
  | cons e es ih =>
    rw [Run.exec_cons, ih, loggedStep, List.map_append, List.append_assoc]
    rfl

/-- **The sequence numbers account for every ADC interrupt.** In every run of interrupts from the
loading of the module on, of either source, in any order, and each finding the FPGA in use or
free. -/
theorem sequenceNumbers_account (gpio : Gpio) (elapsedSecs : ℕ) (elapsedUsecs : UInt64)
    (ring : Ring) (es : List Irq) :
    AccountsFor es (Run.exec loggedStep
      ⟨.start gpio elapsedSecs elapsedUsecs ring, []⟩ es).log := by
  have hinv := Run.always (fun s e (h : s.Inv) => h.step e)
    (Logged.inv_start gpio elapsedSecs elapsedUsecs ring) es
  have hirqs : (Run.exec loggedStep ⟨.start gpio elapsedSecs elapsedUsecs ring, []⟩ es).log.map
    Prod.fst = es := irqs_exec _ es
  generalize Run.exec loggedStep ⟨.start gpio elapsedSecs elapsedUsecs ring, []⟩ es = s at *
  have hsamples := hinv.samples_eq
  rw [hirqs] at hsamples
  refine ⟨hirqs, hsamples, ?_, ?_, hinv.untouched⟩
  · intro before x y after hsplit
    -- the two samples are those of two numbered interrupts
    rw [hsplit, List.map_append, List.map_cons, List.map_cons] at hsamples
    obtain ⟨before', rest, hrest, hbefore, h₁⟩ := List.map_eq_append_iff.mp hsamples.symm
    obtain ⟨⟨e, k⟩, rest₁, rfl, hx, h₂⟩ := List.map_eq_cons_iff.mp h₁
    obtain ⟨⟨e', k'⟩, rest₂, rfl, hy, -⟩ := List.map_eq_cons_iff.mp h₂
    rw [numbered] at hrest
    obtain ⟨pre, skipped, post, hadc, hlen, he, he', hskipped, hk⟩ :=
      exists_skipped (p := fun e : Irq => ¬ e.Busy) hrest
    refine ⟨pre, e, skipped, e', post, hadc, ?_, by simpa using he, by simpa using he', ?_, ?_⟩
    · rw [hlen, ← List.length_map, hbefore, List.length_map]
    · intro s hs
      simpa using hskipped s hs
    · have hk' : k' = skipped.length + 1 + k := by simp only at hk; omega
      rw [← (Prod.mk.inj hx).2, ← (Prod.mk.inj hy).2, hk', Int32.ofNat_add, Int32.ofNat_add,
        Int32.add_sub_cancel]
      exact Int32.add_sub_cancel _ _
  · intro before w after hsplit
    have hread := hinv.multiplexed.split hsplit
    rwa [Option.or_none] at hread

end MiaVita
