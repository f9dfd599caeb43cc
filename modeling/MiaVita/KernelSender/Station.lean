import MiaVita.Interruption.Pps
import MiaVita.Interruption.SequenceNumbers
import MiaVita.KernelSender.SenderLoop

/-!
# A station: the interrupts and the sender thread

The interrupt handlers of `interruption` and the thread of `kernel_sender` run on one node and share
the sample buffer. A handler is not interrupted by the thread; the thread is interrupted anywhere.

The thread has no influence on what the handlers do (`Station.log_execM`): what is in the buffer
does not matter to them. So the samples that the thread works on are those of the same interrupts
without a thread, and the sequence numbers of `MiaVita.Interruption.SequenceNumbers` go out with
them: what leaves the node is, in order and without repetition, taken from the ADC interrupts that
found the FPGA free, each with its own number (`station_sends_numbered`).
-/

namespace MiaVita

open Memory Fallible

/-! ### The buffer does not matter to a handler -/

section Ring

variable (n : Node) (e : Irq)

/-- What a handler does, and what it leaves behind but for the buffer, do not depend on it. -/
private theorem irqRun_withRing (r : Ring) :
    (irqRun { n with ring := r } e).2 = (irqRun n e).2 ∧
      ∃ r', (irqRun { n with ring := r } e).1 = { (irqRun n e).1 with ring := r' } := by
  cases hsource : e.source with
  | adc =>
    rw [irqRun_of_adc _ hsource, irqRun_of_adc _ hsource]
    simp only [serveScl, handleAdcInt]
    by_cases hbusy : e.Busy
    · have hused := fun n => (isFpgaUsed_entered n e).trans (decide_eq_true hbusy)
      simp only [hused, if_true]
      exact ⟨rfl, _, rfl⟩
    · have hused := fun n => (isFpgaUsed_entered n e).trans (decide_eq_false hbusy)
      simp only [hused, Bool.false_eq_true, if_false]
      exact ⟨rfl, _, rfl⟩
  | gps =>
    rw [irqRun_of_gps _ hsource, irqRun_of_gps _ hsource]
    simp only [serveSda, handleGpsInt]
    by_cases hbusy : e.Busy
    · have hused := fun n => (isFpgaUsed_entered n e).trans (decide_eq_true hbusy)
      simp only [hused, if_true]
      exact ⟨rfl, _, rfl⟩
    · have hused := fun n => (isFpgaUsed_entered n e).trans (decide_eq_false hbusy)
      simp only [hused, Bool.false_eq_true, if_false]
      exact ⟨rfl, _, rfl⟩

/-- A handler writes the sample that it reports. -/
private theorem ring_irqRun_free (hsource : e.source = .adc) (hfree : ¬ e.Busy) :
    ∃ x : Sample, (irqRun n e).2.filterMap Effect.sample = [x] ∧
      (irqRun n e).1.ring = (n.ring.writeToBuffer x.data x.timestamp x.seqNumber).1 := by
  refine ⟨_, samples_adc_free n hsource hfree, ?_⟩
  have hused := (isFpgaUsed_entered n e).trans (decide_eq_false hfree)
  rw [irqRun_of_adc n hsource, serveScl, handleAdcInt]
  simp only [hused, Bool.false_eq_true, if_false]
  rfl

/-- Any other handler leaves the buffer alone. -/
private theorem ring_irqRun_quiet (h : ¬ (e.source = .adc ∧ ¬ e.Busy)) :
    (irqRun n e).2.filterMap Effect.sample = [] ∧ (irqRun n e).1.ring = n.ring := by
  refine ⟨?_, ?_⟩
  · have hsamples := (serves n e).samples_eq
    rwa [if_neg h, List.map_eq_nil_iff] at hsamples
  cases hsource : e.source with
  | adc =>
    have hbusy : e.Busy := Decidable.not_not.mp fun hfree => h ⟨hsource, hfree⟩
    have hused := (isFpgaUsed_entered n e).trans (decide_eq_true hbusy)
    rw [irqRun_of_adc n hsource, serveScl, handleAdcInt]
    simp only [hused, if_true]
    rfl
  | gps =>
    rw [irqRun_of_gps n hsource, serveSda, handleGpsInt]
    dsimp only
    split_ifs <;> rfl

end Ring

/-! ### The station -/

/-- The node and the thread. The buffer is the one of `sender`; `log` records what the handlers
did. -/
structure Station where
  node : Node
  log : List (Irq × List Effect)
  sender : SenderThread

/-- A handler runs, on the buffer as the thread has left it. -/
def Station.interrupt (s : Station) (e : Irq) : Station :=
  let (node, effects) := irqRun { s.node with ring := s.sender.sys.ring } e
  { node := node
    log := s.log ++ [(e, effects)]
    sender := { s.sender with sys := { s.sender.sys with
      ring := node.ring
      written := s.sender.sys.written ++ effects.filterMap Effect.sample } } }

/-- What happens next on the node. -/
inductive StationEvent where
  | irq (e : Irq)
  | thread (r : ℤ)

/-- One step of the station. -/
def Station.step (par : SenderParams) (s : Station) : StationEvent → Except Fault Station
  | .irq e => .ok (s.interrupt e)
  | .thread r => do
    let sender ← s.sender.threadStep par r
    return { s with sender := sender }

/-- Both modules are loaded. -/
def Station.start (gpio : Gpio) (elapsedSecs : ℕ) (elapsedUsecs : UInt64)
    (circBuffer : Fin circBufSize → Sample) : Station :=
  ⟨.start gpio elapsedSecs elapsedUsecs (.start circBuffer), [], .start circBuffer⟩

/-- The interrupt of an event. -/
def StationEvent.irq? : StationEvent → Option Irq
  | .irq e => some e
  | .thread _ => none

/-- A handler that writes a sample finds room for it. -/
def Station.HasRoom (s : Station) : StationEvent → Prop
  | .irq e => e.source = .adc ∧ ¬ e.Busy → s.sender.sys.pending < 1023
  | .thread _ => True

instance (s : Station) (e : StationEvent) : Decidable (s.HasRoom e) :=
  match e with
  | .irq _ => inferInstanceAs (Decidable (_ → _))
  | .thread _ => inferInstanceAs (Decidable True)

/-! ### What the thread sees of a handler -/

variable {par : SenderParams} {s : Station}

/-- A handler that writes a sample is a sample interrupt to the thread. -/
private theorem Station.sender_interrupt_free (s : Station) {e : Irq} (hsource : e.source = .adc)
    (hfree : ¬ e.Busy) :
    ∃ x : Sample, (s.interrupt e).sender =
      { s.sender with sys := s.sender.sys.step (.write x) } := by
  obtain ⟨x, hx, hring⟩ :=
    ring_irqRun_free { s.node with ring := s.sender.sys.ring } e hsource hfree
  refine ⟨x, ?_⟩
  rw [Station.interrupt]
  simp only [hx, hring, Sys.step, Ring.writeToBuffer, List.append_nil]

/-- Any other handler is nothing to it. -/
private theorem Station.sender_interrupt_quiet (s : Station) {e : Irq}
    (h : ¬ (e.source = .adc ∧ ¬ e.Busy)) : (s.interrupt e).sender = s.sender := by
  obtain ⟨hx, hring⟩ := ring_irqRun_quiet { s.node with ring := s.sender.sys.ring } e h
  rw [Station.interrupt]
  simp only [hx, hring, List.append_nil]

/-! ### Whole runs -/

/-- The invariant of the thread, which has got the samples that the handlers report. -/
structure Station.Inv (par : SenderParams) (s : Station) : Prop where
  sender : s.sender.Inv par
  written : s.sender.sys.written = samplesOf s.log

private theorem Station.Inv.step (s : Station) (e : StationEvent) (h : s.Inv par)
    (hroom : s.HasRoom e) :
    ∃ s', s.step par e = .ok s' ∧ s'.Inv par := by
  cases e with
  | irq e =>
    refine ⟨_, rfl, ?_, ?_⟩
    · by_cases hadc : e.source = .adc ∧ ¬ e.Busy
      · obtain ⟨x, hx⟩ := s.sender_interrupt_free hadc.1 hadc.2
        rw [hx]
        exact h.sender.sample x (hroom hadc)
      · rw [s.sender_interrupt_quiet hadc]
        exact h.sender
    · rw [samplesOf, Station.interrupt, effectsOf, List.flatMap_append, List.filterMap_append,
        List.flatMap_singleton]
      exact congrArg (· ++ _) h.written
  | thread r =>
    obtain ⟨sender, hstep, hinv⟩ := h.sender.thread r
    refine ⟨{ s with sender := sender }, ?_, hinv, ?_⟩
    · rw [Station.step, hstep]
      rfl
    · exact (SenderThread.written_threadStep hstep).trans h.written

/-- **The thread does not disturb the handlers**: the log is that of the interrupts alone. -/
theorem Station.log_execM {es : List StationEvent} {s' : Station} {t : Logged}
    (hlog : s.log = t.log) (hnode : ∃ r, s.node = { t.node with ring := r })
    (h : Run.execM (Station.step par) s es = .ok s') :
    s'.log = (Run.exec loggedStep t (es.filterMap StationEvent.irq?)).log := by
  induction es generalizing s t with
  | nil =>
    cases h
    exact hlog
  | cons e es ih =>
    obtain ⟨s₁, h₁, hrest⟩ := Run.execM_cons_ok.mp h
    cases e with
    | irq e =>
      cases h₁
      obtain ⟨r, hr⟩ := hnode
      obtain ⟨heffects, r', hr'⟩ := irqRun_withRing t.node e s.sender.sys.ring
      have hnode' : { s.node with ring := s.sender.sys.ring } =
          { t.node with ring := s.sender.sys.ring } := by rw [hr]
      refine ih ?_ ⟨r', ?_⟩ hrest
      · simp only [Station.interrupt, loggedStep, hnode', heffects, hlog]
      · simp only [Station.interrupt, loggedStep, hnode', hr']
    | thread r =>
      obtain ⟨sender, -, hs₁⟩ := bind_eq_ok.mp h₁
      cases hs₁
      exact ih (s := { s with sender := sender }) hlog hnode hrest

/-- The samples that the thread works on are those of the interrupts alone. -/
theorem Station.accounts_execM {gpio : Gpio} {elapsedSecs : ℕ} {elapsedUsecs : UInt64}
    {circBuffer : Fin circBufSize → Sample} {es : List StationEvent}
    (hroom : Run.AllStepsM (Station.step par) Station.HasRoom
      (.start gpio elapsedSecs elapsedUsecs circBuffer) es) :
    ∃ s, Run.execM (Station.step par) (.start gpio elapsedSecs elapsedUsecs circBuffer) es =
        .ok s ∧ s.sender.Inv par ∧
      s.sender.offered.map Prod.fst ++ s.sender.inHand ++ s.sender.sys.ring.unread =
        samplesOf (Run.exec loggedStep
          ⟨.start gpio elapsedSecs elapsedUsecs (.start circBuffer), []⟩
          (es.filterMap StationEvent.irq?)).log := by
  have hstart : (Station.start gpio elapsedSecs elapsedUsecs circBuffer).Inv par :=
    ⟨SenderThread.inv_start par circBuffer, rfl⟩
  obtain ⟨s, hrun, hinv⟩ := Run.progressM Station.Inv.step hstart hroom
  refine ⟨s, hrun, hinv.sender, ?_⟩
  rw [hinv.sender.accounts, hinv.written, ← Station.log_execM rfl ⟨_, rfl⟩ hrun]

/-! ### What leaves the node -/

/-- The number and the bytes in a packet. -/
def Packet.numbered (p : Packet) : UInt32 × List UInt8 := ((ntohpkt p).seq, p.samples)

/-- The packets are those of some of the samples that were offered, in order. -/
private theorem numbered_filterMap_packetOf (offered : List (Sample × Bool)) :
    (offered.filterMap par.packetOf).map Packet.numbered =
      ((offered.filter Prod.snd).map Prod.fst).map fun x =>
        (x.seqNumber.toUInt32, memWords x.data) := by
  induction offered with
  | nil => rfl
  | cons x offered ih =>
    obtain ⟨x, kmalloc⟩ := x
    cases kmalloc with
    | false => exact ih
    | true =>
      simp only [List.filter_cons, List.map_cons, if_true, ← ih]
      simp [SenderParams.packetOf, preparePacket, Packet.numbered, ntohpkt]

/-- The ADC interrupts that found the FPGA free, numbered among all of the ADC. -/
def freeConversions (es : List Irq) : List (Irq × ℕ) := (numbered es).filter fun x => ¬ x.1.Busy

/-- The numbers go up. -/
private theorem pairwise_freeConversions {es : List Irq}
    (h : (es.filter (·.source = .adc)).length < 2 ^ 32) :
    ((freeConversions es).map fun x => UInt32.ofNat x.2).Pairwise (· < ·) := by
  have hsub : ((freeConversions es).map Prod.snd).Sublist
      (List.range' 1 (es.filter (·.source = .adc)).length) := by
    rw [← List.zipIdx_map_snd]
    exact List.filter_sublist.map Prod.snd
  have hlt := (List.pairwise_lt_range' (s := 1) 1).sublist hsub
  rw [List.pairwise_map] at hlt ⊢
  refine hlt.imp_of_mem fun {x y} _ hy hxy => ?_
  have hy' := List.mem_range'_1.mp (hsub.subset (List.mem_map_of_mem hy))
  rw [UInt32.lt_iff_toNat_lt, UInt32.toNat_ofNat', UInt32.toNat_ofNat']
  omega

/-- **What leaves the node is numbered by the converter.** In every interleaving of interrupts of
either source and of the sender thread in which a sample always finds room: the samples that were
offered for sending, are in the hands of the thread or in the buffer are those of the ADC interrupts
that found the FPGA free, each with its own number; the packets that were sent are taken from them
in order, the reading of an interrupt together with its number; and before the counter wraps the
numbers on the wire go up. -/
theorem station_sends_numbered (par : SenderParams) (gpio : Gpio) (elapsedSecs : ℕ)
    (elapsedUsecs : UInt64) (circBuffer : Fin circBufSize → Sample) (es : List StationEvent)
    (hroom : Run.AllStepsM (Station.step par) Station.HasRoom
      (.start gpio elapsedSecs elapsedUsecs circBuffer) es) :
    ∃ s, Run.execM (Station.step par) (.start gpio elapsedSecs elapsedUsecs circBuffer) es =
        .ok s ∧
      let irqs := es.filterMap StationEvent.irq?
      (s.sender.offered.map Prod.fst ++ s.sender.inHand ++ s.sender.sys.ring.unread).map
          (fun x => (x.data, x.seqNumber)) =
        (freeConversions irqs).map (fun x =>
          (readFourChannels x.1.inputs.adc, Int32.ofNat x.2)) ∧
      (s.sender.sent.map fun x => x.1.numbered).Sublist ((freeConversions irqs).map fun x =>
        (UInt32.ofNat x.2, memWords (readFourChannels x.1.inputs.adc))) ∧
      ((irqs.filter (·.source = .adc)).length < 2 ^ 32 →
        (s.sender.sent.map fun x => (ntohpkt x.1).seq).Pairwise (· < ·)) := by
  obtain ⟨s, hrun, hinv, haccounts⟩ := Station.accounts_execM hroom
  refine ⟨s, hrun, ?_⟩
  set irqs := es.filterMap StationEvent.irq? with hirqs
  have hlogged := Run.always (fun s e (h : s.Inv) => h.step e)
    (Logged.inv_start gpio elapsedSecs elapsedUsecs (.start circBuffer)) irqs
  have hsamples := hlogged.samples_eq
  rw [irqs_exec, ← haccounts] at hsamples
  have hsent : (s.sender.sent.map fun x => x.1.numbered).Sublist
      ((freeConversions irqs).map fun x =>
        (UInt32.ofNat x.2, memWords (readFourChannels x.1.inputs.adc))) := by
    have hpackets := congrArg (List.map Packet.numbered) hinv.packets
    rw [numbered_filterMap_packetOf, List.map_append, List.map_map] at hpackets
    -- the samples of the packets are among those that were offered, which come first
    have hoffered : ((s.sender.offered.filter Prod.snd).map Prod.fst).Sublist
        (s.sender.offered.map Prod.fst ++ s.sender.inHand ++ s.sender.sys.ring.unread) := by
      rw [List.append_assoc]
      exact (List.filter_sublist.map Prod.fst).trans (List.sublist_append_left _ _)
    have hnumbers := congrArg (List.map fun x : Vector UInt32 3 × Int32 =>
      (x.2.toUInt32, memWords x.1)) hsamples
    rw [List.map_map, List.map_map] at hnumbers
    have hsub := hoffered.map fun x => (x.seqNumber.toUInt32, memWords x.data)
    rw [← hpackets] at hsub
    exact ((List.sublist_append_left _ _).trans hsub).trans (hnumbers ▸ .refl _)
  refine ⟨hsamples, hsent, fun hlt => ?_⟩
  have hseq := hsent.map Prod.fst
  rw [List.map_map, List.map_map] at hseq
  exact (pairwise_freeConversions hlt).sublist hseq

/-- An interrupt of the ADC. -/
def conversion (trigger : BitVec 32) (adc : AdcWords) : Irq :=
  ⟨.adc, trigger, { quietInputs with adc := adc }⟩

/-- Three conversions, the second of which finds the FPGA in use and the third of which comes while
the thread is reading the first. -/
def busyRun (w₁ w₂ w₃ : AdcWords) : List StationEvent :=
  [.thread 0, .thread 0, .irq (conversion 0 w₁), .irq (conversion 1 w₂), .thread 0, .thread 1,
    .thread 1, .thread 1, .irq (conversion 0 w₃)] ++ List.replicate 16 (.thread 1)

/-- The packets of the first and the third are sent, with the numbers 1 and 3. -/
theorem station_sends_numbered_busy :
    let par : SenderParams := ⟨"127.0.0.1", 57843, 7⟩
    let start : Station := .start ⟨gpioaEnMask, 0, 0, 0⟩ 0 0 fun _ => ⟨0, 0, #v[0, 0, 0]⟩
    let w : AdcWords := ⟨1, 2, 3, 4, 5, 6⟩
    ∃ s, Run.execM (Station.step par) start (busyRun w w w) = .ok s ∧
      (s.sender.sent.map fun x => (ntohpkt x.1).seq) = [1, 3] ∧
      (s.sender.sent.map fun x => (ntohpkt x.1).seq).Pairwise (· < ·) := by
  intro par start w
  have hsent : (Run.execM (Station.step par) start (busyRun w w w)).toOption.map
      (fun s => s.sender.sent.map fun x => (ntohpkt x.1).seq) = some [1, 3] := by decide
  obtain ⟨s, hrun, -, -, hseq⟩ := station_sends_numbered par ⟨gpioaEnMask, 0, 0, 0⟩ 0 0
    (fun _ => ⟨0, 0, #v[0, 0, 0]⟩) (busyRun w w w) (by decide)
  rw [hrun] at hsent
  exact ⟨s, hrun, Option.some.inj hsent, hseq (by decide)⟩

end MiaVita
