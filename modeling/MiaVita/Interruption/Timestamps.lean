import MiaVita.Interruption.SequenceNumbers
import Mathlib.Data.List.Chain

/-!
# Timestamps across the pulses of the GPS

The seconds of a timestamp are counted by the pulses and its microseconds are read off the clock of
the kernel, as the time since the last pulse. The two clocks drift: if more than a second of the
kernel's passes between two pulses, then a sample before the second pulse may get a later time than
one after it. With `d` the kernel's time from its pulse to a sample, the next sample, `k` pulses
later and `d'` after the last of them, has a timestamp that is not smaller exactly when
`d ≤ k * 1000000 + d'` (`timestamps_nondecreasing_iff`).
-/

namespace MiaVita

/-! ### The clock of the kernel -/

/-- A reading of the clock in microseconds. -/
def Timeval.micros (t : Timeval) : ℤ := t.sec * 1000000 + t.usec

/-- What the readings of a run tell: the last pulse, the last reading, and of the last sample its
distance from its pulse and the pulses since. -/
structure Beat where
  pulse : ℤ
  now : ℤ
  last : Option (ℤ × ℕ)

/-- The first pulse. -/
def Beat.start (t : Timeval) : Beat := ⟨t.micros, t.micros, none⟩

/-- The next interrupt. -/
def Beat.next (b : Beat) (e : Irq) : Beat :=
  match e.source with
  | .gps => ⟨e.inputs.time.micros, e.inputs.time.micros, b.last.map fun x => (x.1, x.2 + 1)⟩
  | .adc => ⟨b.pulse, e.inputs.time.micros, some (e.inputs.time.micros - b.pulse, 0)⟩

/-- **The clock of the kernel is not ahead**: the last sample was no later after its pulse than a
second for each pulse since, and the time of this one. -/
def InTime (b : Beat) (e : Irq) : Prop :=
  e.source = .adc → ∀ x ∈ b.last, x.1 ≤ x.2 * 1000000 + (e.inputs.time.micros - b.pulse)

instance (b : Beat) (e : Irq) : Decidable (InTime b e) := inferInstanceAs (Decidable (_ → _))

/-- `calculate_usecs` does not take its error branch. -/
def NoErrorBranch (s : Logged) (e : Irq) : Prop :=
  e.source = .adc → e.inputs.time.sec - s.node.secInPps = 0 ∨
    e.inputs.time.sec - s.node.secInPps = 1

instance (s : Logged) (e : Irq) : Decidable (NoErrorBranch s e) :=
  inferInstanceAs (Decidable (_ → _ ∨ _))

/-- The timestamps fit an `int64_t`. -/
def FitsInt64 (s : Logged) (_ : Irq) : Prop := (s.node.elapsedSecs + 2) * 1000000 ≤ 2 ^ 63

instance (s : Logged) (e : Irq) : Decidable (FitsInt64 s e) := inferInstanceAs (Decidable (_ ≤ _))

private theorem toNat_ofInt_of_lt {x : ℤ} (hx : 0 ≤ x) (hlt : x < 2000000) :
    (UInt64.ofInt x).toNat = x.toNat := by
  rw [UInt64.ofInt, UInt64.toNat_ofNat']
  omega

/-- The microseconds since the pulse. -/
private theorem toNat_calculateUsecs {t : Timeval} {sec usec : ℤ} (husec : 0 ≤ usec)
    (hlt : usec < 1000000)
    (hle : sec * 1000000 + usec ≤ t.micros) (hsec : t.sec - sec = 0 ∨ t.sec - sec = 1) :
    ((calculateUsecs t.sec t.usec sec usec).1.toNat : ℤ) = t.micros - (sec * 1000000 + usec) ∧
      (calculateUsecs t.sec t.usec sec usec).1.toNat < 2000000 := by
  have h₀ := t.usec_nonneg
  have h₁ := t.usec_lt
  rw [Timeval.micros] at hle ⊢
  rw [calculateUsecs]
  obtain hsec | hsec := hsec
  · rw [if_pos (by omega), toNat_ofInt_of_lt (by omega) (by omega)]
    omega
  · rw [if_neg (by omega), if_pos (by omega), toNat_ofInt_of_lt (by omega) (by omega)]
    omega

private theorem toInt_adcTimestamp {elapsedSecs : ℕ} {usecs : UInt64}
    (hfits : (elapsedSecs + 2) * 1000000 ≤ 2 ^ 63) (husecs : usecs.toNat < 2000000) :
    (adcTimestamp elapsedSecs usecs).toInt = elapsedSecs * 1000000 + usecs.toNat := by
  rw [adcTimestamp, Int64.toInt_ofNat_of_lt (by omega)]
  push_cast
  rfl

/-! ### Runs -/

/-- The timestamps handed to `write_to_buffer`, in order. -/
def timestampsOf (log : List (Irq × List Effect)) : List Int64 :=
  (samplesOf log).map Sample.timestamp

/-- The run, and what its readings tell. -/
structure Timed where
  logged : Logged
  beat : Beat

/-- One interrupt. -/
def timedStep (s : Timed) (e : Irq) : Timed := ⟨loggedStep s.logged e, s.beat.next e⟩

/-- The interrupts that are considered. -/
structure Admissible (s : Timed) (e : Irq) : Prop where
  free : ¬ e.Busy
  le : s.beat.now ≤ e.inputs.time.micros
  noError : NoErrorBranch s.logged e
  fits : FitsInt64 s.logged e

namespace Timed

/-- **The invariant**: the node has the readings of the last pulse, and its last timestamp is that
of the last sample. -/
structure Inv (s : Timed) : Prop where
  usec_nonneg : 0 ≤ s.logged.node.usecInPps
  usec_lt : s.logged.node.usecInPps < 1000000
  pulse_eq : s.beat.pulse = s.logged.node.secInPps * 1000000 + s.logged.node.usecInPps
  pulse_le : s.beat.pulse ≤ s.beat.now
  none_iff : s.beat.last = none → timestampsOf s.logged.log = []
  some_iff : ∀ d k, s.beat.last = some (d, k) → ∃ ts t, timestampsOf s.logged.log = ts ++ [t] ∧
    t.toInt = (s.logged.node.elapsedSecs - k) * 1000000 + d

private theorem timestampsOf_step (s : Logged) (e : Irq) :
    timestampsOf (loggedStep s e).log = timestampsOf s.log ++
      ((irqRun s.node e).2.filterMap Effect.sample).map Sample.timestamp := by
  rw [timestampsOf, samplesOf, Logged.effectsOf_step, List.filterMap_append, List.map_append]
  rfl

/-- A pulse writes no timestamp. -/
private theorem timestampsOf_gps (s : Logged) {e : Irq} (hsource : e.source = .gps) :
    timestampsOf (loggedStep s e).log = timestampsOf s.log := by
  rw [timestampsOf_step, samples_gps s.node hsource, List.map_nil, List.append_nil]

/-- A sample gets the time since its pulse. -/
private theorem timestampsOf_adc {s : Timed} {e : Irq} (h : s.Inv) (hadm : Admissible s e)
    (hsource : e.source = .adc) :
    ∃ t : Int64, timestampsOf (loggedStep s.logged e).log = timestampsOf s.logged.log ++ [t] ∧
      t.toInt = s.logged.node.elapsedSecs * 1000000 + (e.inputs.time.micros - s.beat.pulse) := by
  have hle := h.pulse_le.trans hadm.le
  rw [h.pulse_eq] at hle ⊢
  obtain ⟨husecs, hlt⟩ := toNat_calculateUsecs h.usec_nonneg h.usec_lt hle (hadm.noError hsource)
  refine ⟨_, by rw [timestampsOf_step, samples_adc_free _ hsource hadm.free]; rfl, ?_⟩
  rw [← husecs]
  exact toInt_adcTimestamp hadm.fits hlt

/-- The pulse after which the run is considered. -/
private theorem inv_start (s : Logged) {e : Irq} (hsource : e.source = .gps)
    (hlog : timestampsOf s.log = []) :
    (Timed.mk (loggedStep s e) (.start e.inputs.time)).Inv := by
  have hleaves := (irqRun_gps s.node hsource).1
  refine ⟨?_, ?_, ?_, le_rfl, fun _ => ?_, nofun⟩
  · rw [loggedStep, hleaves.usecInPps_eq]
    exact e.inputs.time.usec_nonneg
  · rw [loggedStep, hleaves.usecInPps_eq]
    exact e.inputs.time.usec_lt
  · rw [loggedStep, hleaves.usecInPps_eq, hleaves.secInPps_eq]
    rfl
  · rw [timestampsOf_gps s hsource, hlog]

private theorem Inv.step {s : Timed} {e : Irq} (h : s.Inv) (hadm : Admissible s e) :
    (timedStep s e).Inv := by
  cases hsource : e.source with
  | gps =>
    have hleaves := (irqRun_gps s.logged.node hsource).1
    have hnext : s.beat.next e = ⟨e.inputs.time.micros, e.inputs.time.micros,
        s.beat.last.map fun x => (x.1, x.2 + 1)⟩ := by rw [Beat.next, hsource]
    rw [timedStep, hnext]
    refine ⟨?_, ?_, ?_, le_rfl, fun hnone => ?_, fun d k hsome => ?_⟩
    · rw [loggedStep, hleaves.usecInPps_eq]
      exact e.inputs.time.usec_nonneg
    · rw [loggedStep, hleaves.usecInPps_eq]
      exact e.inputs.time.usec_lt
    · rw [loggedStep, hleaves.usecInPps_eq, hleaves.secInPps_eq]
      rfl
    · rw [timestampsOf_gps _ hsource]
      exact h.none_iff (Option.map_eq_none_iff.mp hnone)
    · obtain ⟨⟨d, k⟩, hlast, heq⟩ := Option.map_eq_some_iff.mp hsome
      cases heq
      obtain ⟨ts, t, hts, ht⟩ := h.some_iff d k hlast
      refine ⟨ts, t, by rw [timestampsOf_gps _ hsource, hts], ?_⟩
      rw [loggedStep, hleaves.elapsedSecs_eq, ht]
      push_cast
      ring
  | adc =>
    have hleaves := (irqRun_adc_free s.logged.node hsource hadm.free).1
    obtain ⟨t, hts, ht⟩ := timestampsOf_adc h hadm hsource
    have hnext : s.beat.next e = ⟨s.beat.pulse, e.inputs.time.micros,
        some (e.inputs.time.micros - s.beat.pulse, 0)⟩ := by rw [Beat.next, hsource]
    rw [timedStep, hnext]
    refine ⟨?_, ?_, ?_, h.pulse_le.trans hadm.le, fun hnone => absurd hnone (Option.some_ne_none _),
      fun d k hsome => ?_⟩
    · rw [loggedStep, hleaves.usecInPps_eq]
      exact h.usec_nonneg
    · rw [loggedStep, hleaves.usecInPps_eq]
      exact h.usec_lt
    · rw [loggedStep, hleaves.usecInPps_eq, hleaves.secInPps_eq]
      exact h.pulse_eq
    · cases hsome
      refine ⟨_, t, hts, ?_⟩
      rw [loggedStep, hleaves.elapsedSecs_eq, ht]
      simp

/-- **One interrupt** keeps the timestamps non-decreasing exactly when it is in time. -/
theorem nondecreasing_step {s : Timed} {e : Irq} (h : s.Inv) (hadm : Admissible s e) :
    (timestampsOf (timedStep s e).logged.log).IsChain (· ≤ ·) ↔
      (timestampsOf s.logged.log).IsChain (· ≤ ·) ∧ InTime s.beat e := by
  cases hsource : e.source with
  | gps =>
    have hintime : InTime s.beat e := fun hadc => by rw [hsource] at hadc; cases hadc
    rw [timedStep, timestampsOf_gps _ hsource, and_iff_left hintime]
  | adc =>
    obtain ⟨t', hts', ht'⟩ := timestampsOf_adc h hadm hsource
    rw [timedStep, hts', InTime, imp_iff_right hsource]
    cases hlast : s.beat.last with
    | none =>
      rw [h.none_iff hlast]
      simp
    | some x =>
      obtain ⟨d, k⟩ := x
      obtain ⟨ts, t, hts, ht⟩ := h.some_iff d k hlast
      rw [hts, List.append_assoc, List.singleton_append, List.isChain_append_cons_cons]
      have hle : t ≤ t' ↔ d ≤ k * 1000000 + (e.inputs.time.micros - s.beat.pulse) := by
        rw [Int64.le_iff_toInt_le, ht, ht']
        omega
      simp [hle]

end Timed

/-- Readings that do not decrease, along a run. -/
private theorem allSteps_now_le {t : Timed} {es : List Irq}
    (h : (t.beat.now :: es.map fun e => e.inputs.time.micros).Pairwise (· ≤ ·)) :
    Run.AllSteps timedStep (fun s e => s.beat.now ≤ e.inputs.time.micros) t es := by
  induction es generalizing t with
  | nil => trivial
  | cons e es ih =>
    rw [List.map_cons] at h
    obtain ⟨hhead, htail⟩ := List.pairwise_cons.mp h
    refine ⟨hhead _ List.mem_cons_self, ih ?_⟩
    have hnow : (timedStep t e).beat.now = e.inputs.time.micros := by
      rw [timedStep, Beat.next]
      cases e.source <;> rfl
    rw [hnow]
    exact htail

/-- **When the recorded timestamps do not go backwards.** In any run of ADC and GPS interrupts that
starts with a GPS interrupt, finds the FPGA free, reads the clock of the kernel in non-decreasing
order and never comes to the error branch of `calculate_usecs`, with timestamps that fit an
`int64_t`: the timestamps handed to `write_to_buffer` are non-decreasing if and only if at every ADC
interrupt the one before it was no later after its pulse than a second for each pulse since, and the
time of this one after its own. -/
theorem timestamps_nondecreasing_iff (n : Node) (e : Irq) (es : List Irq)
    (hsource : e.source = .gps) (hfree : ∀ e' ∈ e :: es, ¬ e'.Busy)
    (hmono : ((e :: es).map fun e => e.inputs.time.micros).Pairwise (· ≤ ·))
    (hbranch : Run.AllSteps loggedStep NoErrorBranch ⟨n, []⟩ (e :: es))
    (hfits : Run.AllSteps loggedStep FitsInt64 ⟨n, []⟩ (e :: es)) :
    (timestampsOf (Run.exec loggedStep ⟨n, []⟩ (e :: es)).log).IsChain (· ≤ ·) ↔
      Run.AllSteps Beat.next InTime (.start e.inputs.time) es := by
  obtain ⟨t, ht⟩ : ∃ t : Timed, t = ⟨loggedStep ⟨n, []⟩ e, .start e.inputs.time⟩ := ⟨_, rfl⟩
  have hlogged : ∀ t e, (timedStep t e).logged = loggedStep t.logged e := fun _ _ => rfl
  have hbeat : ∀ t e, (timedStep t e).beat = t.beat.next e := fun _ _ => rfl
  have hinv : t.Inv := by
    rw [ht]
    exact Timed.inv_start ⟨n, []⟩ hsource rfl
  have hadm : Run.AllSteps timedStep Admissible t es := by
    have hfree' : Run.AllSteps timedStep (fun _ e => ¬ e.Busy) t es :=
      Run.allSteps_of_forall (List.forall_mem_cons.mp hfree).2 t
    have hle : Run.AllSteps timedStep (fun s e => s.beat.now ≤ e.inputs.time.micros) t es :=
      allSteps_now_le (by rw [ht]; exact hmono)
    have hbranch' : Run.AllSteps timedStep (fun s e => NoErrorBranch s.logged e) t es :=
      (Run.allSteps_part hlogged t es).mpr (by rw [ht]; exact hbranch.2)
    have hfits' : Run.AllSteps timedStep (fun s e => FitsInt64 s.logged e) t es :=
      (Run.allSteps_part hlogged t es).mpr (by rw [ht]; exact hfits.2)
    exact ((hfree'.and hle).and (hbranch'.and hfits')).imp
      fun s e h => ⟨h.1.1, h.1.2, h.2.1, h.2.2⟩
  have hexact := Run.exec_iff (G := fun s => (timestampsOf s.logged.log).IsChain (· ≤ ·))
    (fun s e h hadm => h.step hadm) (fun s e => Timed.nondecreasing_step) hinv hadm
  have hstart : (timestampsOf t.logged.log).IsChain (· ≤ ·) := by
    rw [ht, Timed.timestampsOf_gps ⟨n, []⟩ hsource]
    exact .nil
  rw [and_iff_right hstart, Run.part_exec hlogged, Run.allSteps_part hbeat, ht] at hexact
  exact hexact

/-- An interrupt at a time of the first seconds, with the FPGA free. -/
def irqAt (source : Source) (sec : ℤ) (usec : Fin 1000000) : Irq :=
  ⟨source, 0, inputsAt ⟨sec, usec, by omega, by omega⟩⟩

/-- Two seconds of 1000000 microseconds each, with a sample in both. -/
theorem timestamps_nondecreasing_steady :
    (timestampsOf (Run.exec loggedStep ⟨quietNode, []⟩ [irqAt .gps 0 0, irqAt .adc 0 20000,
      irqAt .gps 1 0, irqAt .adc 1 20000]).log).IsChain (· ≤ ·) := by
  refine (timestamps_nondecreasing_iff quietNode (irqAt .gps 0 0) _ rfl ?_ ?_ ?_ ?_).mpr ?_ <;>
    decide

/-- **Timestamps do go backwards**: a sample 1000040 microseconds after its pulse, the next pulse
ten microseconds later, and a sample ten microseconds after that. -/
theorem timestamps_backwards :
    let es := [irqAt .gps 0 0, irqAt .adc 1 40, irqAt .gps 1 50, irqAt .adc 1 60]
    (∀ e ∈ es, ¬ e.Busy) ∧ (es.map fun e => e.inputs.time.micros).Pairwise (· ≤ ·) ∧
      Run.AllSteps loggedStep NoErrorBranch ⟨quietNode, []⟩ es ∧
      timestampsOf (Run.exec loggedStep ⟨quietNode, []⟩ es).log = [2000040, 2000010] :=
  ⟨by decide, by decide, by decide, by decide⟩

end MiaVita
