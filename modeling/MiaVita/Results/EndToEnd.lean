import MiaVita.KernelSender.Station
import MiaVita.Results.ReadJson
import Mathlib.Data.List.TakeWhile
import Mathlib.Tactic.FinCases

/-!
# From the converter to the results

A station converts, numbers, buffers and sends; the network delivers what it likes of that, as often
and in whatever order it likes; the receiver writes a file; and the reader of the results takes the
samples out of it again. Each of these steps has its own module, and here they are put together.

Nothing is invented on the way: every sample that is read has the value and the time of one
conversion of the run (`samples_genuine`). And nothing is lost but by the network and for want of
memory: if the thread is done, no packet was dropped for want of memory and the network delivers
each once, the samples that are read are those of all conversions that found the FPGA free
(`samples_complete`). Both are about runs in which the buffer does not overflow.

The value of a reading is `Reading.emitted`, which differs from it for the most negative one, and
its time is in milliseconds, an hour less than that of the sample (`expectedOf`).
-/

namespace MiaVita.Results

open Bytes

/-! ### The readings in a sample -/

/-- Three bytes in two's complement, the first the most significant. -/
def readingOfBytes (b₀ b₁ b₂ : UInt8) : Reading :=
  let n := b₀.toNat * 65536 + b₁.toNat * 256 + b₂.toNat
  ⟨if n < 2 ^ 23 then n else (n : ℤ) - 2 ^ 24, by
    have h₀ := b₀.toNat_lt
    have h₁ := b₁.toNat_lt
    have h₂ := b₂.toNat_lt
    dsimp only [n]
    split_ifs <;> omega⟩

/-- The reading of a channel in the data of a sample. -/
def dataReading (data : Vector UInt32 3) (c : Fin 4) : Reading :=
  let bs := memWords data
  readingOfBytes (bs.getD (3 * c) 0) (bs.getD (3 * c + 1) 0) (bs.getD (3 * c + 2) 0)

/-- What the sink makes of three bytes. -/
private theorem asInt_signExtend_bytes (b₀ b₁ b₂ : UInt8) :
    asInt (signExtend (sampleWord b₂ b₁ b₀)) = (readingOfBytes b₀ b₁ b₂).emitted := by
  have h₀ := b₀.toNat_lt
  have h₁ := b₁.toNat_lt
  have h₂ := b₂.toNat_lt
  have hword : (sampleWord b₂ b₁ b₀).toNat =
      b₀.toNat * 65536 + b₁.toNat * 256 + b₂.toNat := by
    have hval : leVal [b₂, b₁, b₀, 0] = b₀.toNat * 65536 + b₁.toNat * 256 + b₂.toNat := by
      simp only [leVal, UInt8.toNat_zero]
      omega
    rw [sampleWord, loadU32, UInt32.toNat_ofNat']
    change leVal [_, _, _, _] % _ = _
    rw [hval, Nat.mod_eq_of_lt (by omega)]
  rw [asInt_signExtend (toNat_sampleWord_lt _ _ _), hword, Reading.emitted, readingOfBytes]
  simp only
  split_ifs <;> omega

/-- What is to be read of a sample: its time, in milliseconds, and a channel. -/
def expectedOf (c : Fin 4) (x : MiaVita.Sample) : ℤ × JavaFloat :=
  (x.timestamp.toUInt64.toNat / 1000 - 3600000, .finite (dataReading x.data c).emitted)

/-- The channels that the sink finds in a packet. -/
theorem channelOf_jsonRecord (p : Packet) (c : Fin 4) :
    channelOf (jsonRecord p) c = (readingOfBytes (p.samples.getD (3 * c) 0)
      (p.samples.getD (3 * c + 1) 0) (p.samples.getD (3 * c + 2) 0)).emitted := by
  match c with
  | 0 | 1 | 2 | 3 =>
    simp only [channelOf, jsonRecord, asInt_signExtend_bytes]
    rfl

/-- The packet of a sample is read as the sample. -/
private theorem expected_packetOf {par : SenderParams} {x : MiaVita.Sample} {p : Packet}
    (h : par.packetOf (x, true) = some p) (c : Fin 4) : expected c p = expectedOf c x := by
  rw [expected, channelOf_jsonRecord]
  rw [SenderParams.packetOf, preparePacket, if_pos rfl] at h
  obtain rfl := Option.some.inj h
  simp only [expectedOf, dataReading, jsonRecord, ntohpkt, swap64_swap64]

/-- The packets of some samples, where there was memory for each. -/
private theorem expected_filterMap_packetOf {par : SenderParams}
    {offered : List (MiaVita.Sample × Bool)} (h : ∀ x ∈ offered, x.2 = true) (c : Fin 4) :
    (offered.filterMap par.packetOf).map (expected c) =
      (offered.map Prod.fst).map (expectedOf c) := by
  induction offered with
  | nil => rfl
  | cons x offered ih =>
    obtain ⟨x, kmalloc⟩ := x
    obtain ⟨hx, hrest⟩ := List.forall_mem_cons.mp h
    cases hx
    obtain ⟨p, hp⟩ : ∃ p, par.packetOf (x, true) = some p := ⟨_, rfl⟩
    rw [List.filterMap_cons_some hp, List.map_cons, ih hrest, expected_packetOf hp]
    rfl

/-! ### The network -/

/-- The sessions consist of datagrams that were sent: some of them may be missing, some may have
come more than once, and in any order. -/
def FromNetwork (sent : List Packet) (sessions : List (List (List UInt8))) : Prop :=
  ∀ received ∈ sessions, ∀ bs ∈ received, ∃ p ∈ sent, bs = p.toBytes

private theorem toBytes_ne_nil (p : Packet) : p.toBytes ≠ [] := by
  intro h
  have := p.length_toBytes
  rw [h] at this
  exact absurd this (by decide)

/-- Packets that were sent are received as they are. -/
theorem receivedPackets_map_toBytes (ps : List Packet) :
    receivedPackets (ps.map Packet.toBytes) = ps := by
  have hall : ∀ bs ∈ ps.map Packet.toBytes, decide (bs ≠ []) = true := by
    intro bs hbs
    obtain ⟨p, -, rfl⟩ := List.mem_map.mp hbs
    exact decide_eq_true (toBytes_ne_nil p)
  rw [receivedPackets, List.takeWhile_eq_self_iff.mpr hall, List.map_map]
  exact (List.map_congr_left fun p _ => p.ofBytes_toBytes).trans (List.map_id ps)

/-- Packets that are received were sent. -/
private theorem FromNetwork.mem_packetsOf {sent : List Packet} {sessions : List (List (List UInt8))}
    (h : FromNetwork sent sessions) {p : Packet} (hp : p ∈ packetsOf sessions) : p ∈ sent := by
  rw [packetsOf, List.mem_flatMap] at hp
  obtain ⟨received, hreceived, hp⟩ := hp
  rw [receivedPackets, List.mem_map] at hp
  obtain ⟨bs, hbs, hofBytes⟩ := hp
  obtain ⟨q, hsent, hbytes⟩ := h received hreceived bs ((List.takeWhile_sublist _).subset hbs)
  rw [hbytes, q.ofBytes_toBytes] at hofBytes
  exact hofBytes ▸ hsent

private theorem FromNetwork.receivedPackets_ne_nil {sent : List Packet}
    {sessions : List (List (List UInt8))} (h : FromNetwork sent sessions)
    (hne : ∀ received ∈ sessions, received ≠ []) :
    ∀ received ∈ sessions, receivedPackets received ≠ [] := by
  intro received hreceived
  obtain ⟨bs, rest, rfl⟩ := List.exists_cons_of_ne_nil (hne received hreceived)
  obtain ⟨p, -, rfl⟩ := h _ hreceived bs List.mem_cons_self
  rw [receivedPackets, List.takeWhile_cons_of_pos (by simpa using toBytes_ne_nil p)]
  exact List.cons_ne_nil _ _

/-- Each packet once and in order, in any number of sessions. -/
private theorem packetsOf_eq {ps : List Packet} {sessions : List (List (List UInt8))}
    (h : sessions.flatten = ps.map Packet.toBytes) : packetsOf sessions = ps := by
  induction sessions generalizing ps with
  | nil => exact (List.map_eq_nil_iff.mp h.symm).symm
  | cons received sessions ih =>
    rw [List.flatten_cons] at h
    obtain ⟨ps₁, ps₂, rfl, hreceived, hrest⟩ := List.map_eq_append_iff.mp h.symm
    rw [packetsOf, List.flatMap_cons, ← hreceived, receivedPackets_map_toBytes]
    exact congrArg (ps₁ ++ ·) (ih hrest.symm)

/-! ### The samples that are read -/

/-- `getAllSamples`, on the file of some sessions. -/
theorem getAllSamples_fileOf {sessions : List (List (List UInt8))}
    (hne : ∀ received ∈ sessions, receivedPackets received ≠ []) (c : Fin 4) :
    getAllSamples (fileOf sessions) (c + 1) =
      if (packetsOf sessions).length < 2 then .error .indexOutOfBounds
      else .ok ((samplesOf c (packetsOf sessions)).mergeSort fun s₁ s₂ => s₁.ts ≤ s₂.ts) := by
  rw [getAllSamples, readSamples_fileOf c sessions hne]
  change (if (samplesOf c (packetsOf sessions)).length < 2 then _ else _) = _
  rw [samplesOf, List.length_map]

/-- Sorting by the time of a sample is stable on what is read of it. -/
private theorem isStableSort_read (c : Fin 4) (ps : List Packet) :
    IsStableSort Prod.fst
      (((samplesOf c ps).mergeSort fun s₁ s₂ => s₁.ts ≤ s₂.ts).map Sample.read)
      (ps.map (expected c)) := by
  have hle : (fun s₁ s₂ : Sample => decide (s₁.ts ≤ s₂.ts)) =
      fun s₁ s₂ => decide ((Prod.fst ∘ Sample.read) s₁ ≤ (Prod.fst ∘ Sample.read) s₂) := by
    funext s₁ s₂
    exact decide_eq_decide.mpr Int64.le_iff_toInt_le
  have hexpected : ps.map (expected c) = (samplesOf c ps).map Sample.read := by
    rw [samplesOf, List.map_map]
    exact List.map_congr_left fun p _ => (read_sampleOf c p).symm
  rw [hexpected, hle]
  exact (isStableSort_mergeSort _ _).map

section Run

variable {par : SenderParams} {gpio : Gpio} {elapsedSecs : ℕ} {elapsedUsecs : UInt64}
  {circBuffer : Fin circBufSize → MiaVita.Sample} {es : List StationEvent}

/-- The samples of the conversions of a run, as the handlers write them. -/
def conversionSamples (gpio : Gpio) (elapsedSecs : ℕ) (elapsedUsecs : UInt64)
    (circBuffer : Fin circBufSize → MiaVita.Sample) (irqs : List Irq) : List MiaVita.Sample :=
  MiaVita.samplesOf (Run.exec loggedStep
    ⟨.start gpio elapsedSecs elapsedUsecs (.start circBuffer), []⟩ irqs).log

/-- Each of them is of a conversion that found the FPGA free, and has its number. -/
private theorem map_conversionSamples (irqs : List Irq) :
    (conversionSamples gpio elapsedSecs elapsedUsecs circBuffer irqs).map
        (fun x => (x.data, x.seqNumber)) =
      (freeConversions irqs).map fun x =>
        (readFourChannels x.1.inputs.adc, Int32.ofNat x.2) := by
  have hlogged := Run.always (fun s e (h : s.Inv) => h.step e)
    (Logged.inv_start gpio elapsedSecs elapsedUsecs (.start circBuffer)) irqs
  have hsamples := hlogged.samples_eq
  rw [irqs_exec] at hsamples
  exact hsamples

/-- A packet that was sent is that of a sample. -/
private theorem exists_sample_of_sent {s : Station} (h : s.sender.Inv par) {p : Packet}
    (hp : p ∈ s.sender.sent.map Prod.fst) :
    ∃ x ∈ s.sender.offered.map Prod.fst, par.packetOf (x, true) = some p := by
  have hmem : p ∈ s.sender.offered.filterMap par.packetOf :=
    h.packets ▸ List.mem_append_left _ hp
  obtain ⟨⟨x, kmalloc⟩, hx, hpacket⟩ := List.mem_filterMap.mp hmem
  cases kmalloc with
  | false => cases hpacket
  | true => exact ⟨x, List.mem_map_of_mem hx, hpacket⟩

end Run

/-- **Nothing is invented.** Take any run of a station in which a sample always finds room in the
buffer, and any sessions of the receiver with datagrams from it, whatever the network has lost,
repeated or reordered. Every sample that is read from the file is, in its time and its value, that
of one conversion of the run, one that found the FPGA free. -/
theorem samples_genuine (par : SenderParams) (gpio : Gpio) (elapsedSecs : ℕ)
    (elapsedUsecs : UInt64) (circBuffer : Fin circBufSize → MiaVita.Sample)
    (es : List StationEvent)
    (hroom : Run.AllStepsM (Station.step par) Station.HasRoom
      (.start gpio elapsedSecs elapsedUsecs circBuffer) es) :
    ∃ s, Run.execM (Station.step par) (.start gpio elapsedSecs elapsedUsecs circBuffer) es =
        .ok s ∧
      ∀ sessions, FromNetwork (s.sender.sent.map Prod.fst) sessions →
        (∀ received ∈ sessions, received ≠ []) → ∀ (c : Fin 4) samples,
        getAllSamples (fileOf sessions) (c + 1) = .ok samples → ∀ y ∈ samples,
        let irqs := es.filterMap StationEvent.irq?
        ∃ e ∈ freeConversions irqs,
          ∃ x ∈ conversionSamples gpio elapsedSecs elapsedUsecs circBuffer irqs,
            x.data = readFourChannels e.1.inputs.adc ∧ x.seqNumber = Int32.ofNat e.2 ∧
            y.read = expectedOf c x := by
  obtain ⟨s, hrun, hinv, haccounts⟩ := Station.accounts_execM hroom
  refine ⟨s, hrun, fun sessions hnetwork hne c samples hsamples y hy => ?_⟩
  intro irqs
  rw [getAllSamples_fileOf (hnetwork.receivedPackets_ne_nil hne)] at hsamples
  split_ifs at hsamples
  cases hsamples
  -- back from the sample to its packet, and from the packet to the sample on the node
  rw [(List.mergeSort_perm _ _).mem_iff, samplesOf, List.mem_map] at hy
  obtain ⟨p, hp, rfl⟩ := hy
  obtain ⟨x, hx, hpacket⟩ := exists_sample_of_sent hinv (hnetwork.mem_packetsOf hp)
  have hxs : x ∈ conversionSamples gpio elapsedSecs elapsedUsecs circBuffer irqs := by
    rw [conversionSamples, ← haccounts, List.append_assoc]
    exact List.mem_append_left _ hx
  have hmap := List.mem_map_of_mem (f := fun x : MiaVita.Sample => (x.data, x.seqNumber)) hxs
  rw [map_conversionSamples] at hmap
  obtain ⟨e, he, heq⟩ := List.mem_map.mp hmap
  obtain ⟨hdata, hseq⟩ := Prod.mk.inj heq
  exact ⟨e, he, x, hxs, hdata.symm, hseq.symm,
    (read_sampleOf c p).trans (expected_packetOf hpacket c)⟩

/-- The station of the examples. -/
def exampleStart : Station :=
  .start ⟨gpioaEnMask, 0, 0, 0⟩ 0 0 fun _ => ⟨0, 0, Vector.replicate 3 0⟩

/-- Two packets, each received twice and in the wrong order. -/
theorem samples_genuine_twice :
    let par : SenderParams := ⟨"127.0.0.1", 57843, 7⟩
    let w : AdcWords := ⟨1, 2, 3, 4, 5, 6⟩
    ∃ s, Run.execM (Station.step par) exampleStart (busyRun w w w) = .ok s ∧
      let bytes := (s.sender.sent.map Prod.fst).map Packet.toBytes
      ∃ samples, getAllSamples (fileOf [bytes.reverse ++ bytes]) 1 = .ok samples ∧
        ∀ y ∈ samples, ∃ e ∈ freeConversions ((busyRun w w w).filterMap StationEvent.irq?),
          ∃ x : MiaVita.Sample, x.data = readFourChannels e.1.inputs.adc ∧
            x.seqNumber = Int32.ofNat e.2 ∧ y.read = expectedOf 0 x := by
  intro par w
  have htwo : (Run.execM (Station.step par) exampleStart (busyRun w w w)).toOption.map
      (fun s => s.sender.sent.length) = some 2 := by decide
  obtain ⟨s, hrun, hgenuine⟩ := samples_genuine par ⟨gpioaEnMask, 0, 0, 0⟩ 0 0
    (fun _ => ⟨0, 0, Vector.replicate 3 0⟩) (busyRun w w w) (by decide)
  rw [exampleStart, hrun] at htwo
  have hlen : s.sender.sent.length = 2 := Option.some.inj htwo
  refine ⟨s, hrun, ?_⟩
  intro bytes
  have hnetwork : FromNetwork (s.sender.sent.map Prod.fst) [bytes.reverse ++ bytes] := by
    rintro _ hreceived bs hbs
    rw [List.mem_singleton.mp hreceived, List.mem_append, List.mem_reverse, or_self] at hbs
    obtain ⟨p, hp, rfl⟩ := List.mem_map.mp hbs
    exact ⟨p, hp, rfl⟩
  have hne : ∀ received ∈ [bytes.reverse ++ bytes], received ≠ [] := by
    intro received hreceived
    rw [List.mem_singleton.mp hreceived, ← List.length_pos_iff]
    simp [bytes, hlen]
  have hpackets : (packetsOf [bytes.reverse ++ bytes]).length = 4 := by
    have hflatten : [bytes.reverse ++ bytes].flatten =
        ((s.sender.sent.map Prod.fst).reverse ++ s.sender.sent.map Prod.fst).map
          Packet.toBytes := by
      simp [bytes]
    rw [packetsOf_eq hflatten]
    simp [hlen]
  refine ⟨_, (getAllSamples_fileOf (hnetwork.receivedPackets_ne_nil hne) 0).trans
    (if_neg (by omega)), fun y hy => ?_⟩
  obtain ⟨e, he, x, -, hx⟩ := hgenuine _ hnetwork hne 0 _
    ((getAllSamples_fileOf (hnetwork.receivedPackets_ne_nil hne) 0).trans
      (if_neg (by omega))) y hy
  exact ⟨e, he, x, hx⟩

/-- **Nothing is lost** but by the network and for want of memory. Take any run of a station in
which a sample always finds room in the buffer. If the thread is done with all samples, there was
memory for every packet, at least two were sent and the receiver gets each of them once and in
order, in sessions that are not empty, then the samples that are read are those of all conversions
that found the FPGA free, sorted by time. -/
theorem samples_complete (par : SenderParams) (gpio : Gpio) (elapsedSecs : ℕ)
    (elapsedUsecs : UInt64) (circBuffer : Fin circBufSize → MiaVita.Sample)
    (es : List StationEvent)
    (hroom : Run.AllStepsM (Station.step par) Station.HasRoom
      (.start gpio elapsedSecs elapsedUsecs circBuffer) es) :
    ∃ s, Run.execM (Station.step par) (.start gpio elapsedSecs elapsedUsecs circBuffer) es =
        .ok s ∧
      (s.sender.inHand ++ s.sender.sys.ring.unread = [] → s.sender.pc.packet = [] →
        (∀ x ∈ s.sender.offered, x.2 = true) → 2 ≤ s.sender.sent.length →
        ∀ sessions : List (List (List UInt8)), (∀ received ∈ sessions, received ≠ []) →
        sessions.flatten = (s.sender.sent.map Prod.fst).map Packet.toBytes → ∀ c : Fin 4,
        ∃ samples, getAllSamples (fileOf sessions) (c + 1) = .ok samples ∧
          IsStableSort Prod.fst (samples.map Sample.read)
            ((conversionSamples gpio elapsedSecs elapsedUsecs circBuffer
              (es.filterMap StationEvent.irq?)).map (expectedOf c))) := by
  obtain ⟨s, hrun, hinv, haccounts⟩ := Station.accounts_execM hroom
  refine ⟨s, hrun, fun hrest hpacket hmemory htwo sessions hne hflatten c => ?_⟩
  have hpackets := packetsOf_eq hflatten
  have hnetwork : FromNetwork (s.sender.sent.map Prod.fst) sessions := by
    intro received hreceived bs hbs
    have hmem : bs ∈ (s.sender.sent.map Prod.fst).map Packet.toBytes :=
      hflatten ▸ List.mem_flatten.mpr ⟨received, hreceived, hbs⟩
    obtain ⟨p, hp, rfl⟩ := List.mem_map.mp hmem
    exact ⟨p, hp, rfl⟩
  have hlen : ¬ (packetsOf sessions).length < 2 := by
    rw [hpackets, List.length_map]
    omega
  refine ⟨_, (getAllSamples_fileOf (hnetwork.receivedPackets_ne_nil hne) c).trans (if_neg hlen), ?_⟩
  have hall : (conversionSamples gpio elapsedSecs elapsedUsecs circBuffer
      (es.filterMap StationEvent.irq?)).map (expectedOf c) =
      (packetsOf sessions).map (expected c) := by
    have hsent := hinv.packets
    rw [hpacket, List.append_nil] at hsent
    rw [conversionSamples, ← haccounts, List.append_assoc, hrest, List.append_nil, hpackets, hsent,
      expected_filterMap_packetOf hmemory]
  rw [hall]
  exact isStableSort_read c _

theorem samples_complete_busy :
    let par : SenderParams := ⟨"127.0.0.1", 57843, 7⟩
    let w : AdcWords := ⟨1, 2, 3, 4, 5, 6⟩
    ∃ s, Run.execM (Station.step par) exampleStart (busyRun w w w) = .ok s ∧
      ∃ samples, getAllSamples (fileOf [(s.sender.sent.map Prod.fst).map Packet.toBytes]) 1 =
          .ok samples ∧
        IsStableSort Prod.fst (samples.map Sample.read)
          ((conversionSamples ⟨gpioaEnMask, 0, 0, 0⟩ 0 0 (fun _ => ⟨0, 0, Vector.replicate 3 0⟩)
            ((busyRun w w w).filterMap StationEvent.irq?)).map (expectedOf 0)) := by
  intro par w
  have hend : (Run.execM (Station.step par) exampleStart (busyRun w w w)).toOption.map
      (fun s => (s.sender.inHand ++ s.sender.sys.ring.unread, s.sender.pc.packet,
        s.sender.offered.all Prod.snd, s.sender.sent.length)) = some ([], [], true, 2) := by decide
  obtain ⟨s, hrun, hcomplete⟩ := samples_complete par ⟨gpioaEnMask, 0, 0, 0⟩ 0 0
    (fun _ => ⟨0, 0, Vector.replicate 3 0⟩) (busyRun w w w) (by decide)
  rw [exampleStart, hrun] at hend
  obtain ⟨hrest, hend⟩ := Prod.mk.inj (Option.some.inj hend)
  obtain ⟨hpacket, hend⟩ := Prod.mk.inj hend
  obtain ⟨hmemory, hlen⟩ := Prod.mk.inj hend
  refine ⟨s, hrun, hcomplete hrest hpacket (List.all_eq_true.mp hmemory) hlen.ge _ ?_
    List.flatten_singleton 0⟩
  intro received hreceived
  rw [List.mem_singleton.mp hreceived, ← List.length_pos_iff, List.length_map, List.length_map,
    hlen]
  decide

end MiaVita.Results
