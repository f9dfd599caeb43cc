import MiaVita.Interruption.SampleFifo
import MiaVita.KernelSender.Packet
import MiaVita.Lib.Blocks
import MiaVita.Lib.Fallible

/-!
# The sender thread (`kernel_sender/sender_kthread.c`)

`main_loop` makes a socket and then, until it is asked to stop, empties the sample buffer, puts each
sample into a packet of its own, sends it and goes to sleep. The sample interrupt may come in at any
access to the buffer; `read_nsamples` is the reader of `MiaVita.Interruption.ProcEntry`, access by
access.

The thread is cut at the calls whose outcome it does not decide: what such a call returns is the
argument of the step. It allocates two kinds of blocks, the array that `read_nsamples` hands out and
one packet after the other, and both are accounted for (`Blocks.Pool`).

`SenderThread.Inv` follows a sample through the thread. Two facts come of it, for every interleaving
in which the buffer does not overflow: no sample is lost, repeated or reordered between the
interrupt and the socket, unless the `kmalloc` of its packet fails (`sender_accounts`), and no block
is leaked or freed twice (`sender_frees_all`).
-/

namespace MiaVita

open Memory Blocks Fallible

deriving instance DecidableEq for Packet

/-! ### The thread -/

/-- The parameters of the module that the thread uses. -/
structure SenderParams where
  bindIp : String
  sport : UInt16
  nodeId : UInt16

/-- Where the thread stands: at a call that it waits for the result of. `array` is the block with
the samples that were read, `len` their number and `i` the loop variable; `block` is the packet. -/
inductive SenderPc where
  | sockCreate
  | bind
  | shouldStop
  | readNsamples (array : Option ℕ)
  | preparePacket (array : ℕ) (samples : List Sample) (len i : UInt32)
  | sendIt (array : ℕ) (samples : List Sample) (len i : UInt32) (block : ℕ) (pkt : Packet)
  | msleep
  | exited
  deriving DecidableEq

/-- The buffer with its reader, the thread, and what it has allocated. `offered` and `sent` only
record: the samples that `prepare_packet` was called for, each with the luck of its `kmalloc`, and
the packets passed to `sock_sendmsg`, each with what it returned. -/
structure SenderThread where
  sys : Sys
  pc : SenderPc
  pool : Pool
  seq : UInt32
  offered : List (Sample × Bool)
  sent : List (Packet × ℤ)

/-- `__FILE__`, without the directory in which the module is compiled. -/
def senderFile : String := "sender_kthread.c"

/-- A line of the kernel log. -/
def SenderThread.printk (s : SenderThread) (text : String) : SenderThread :=
  { s with sys := { s.sys with log := s.sys.log ++ [.printk text] } }

/-- The `kmalloc` of `read_nsamples` is the next access, and it succeeds. -/
def Sys.allocates (s : Sys) (grant : Bool) : Bool :=
  match s.reader with
  | .alloc _ n => grant && decide (n * sizeofSample ≤ kmallocMax)
  | _ => false

/-- The end of the loop over the samples: its test, and behind it `kfree(samples)`. -/
def SenderThread.nextSample (s : SenderThread) (array : ℕ) (samples : List Sample)
    (len i : UInt32) : Except Fault SenderThread :=
  if i < len then .ok { s with pc := .preparePacket array samples len i }
  else do
    let pool ← s.pool.free array
    return { s with pool := pool, pc := .msleep }

/-- `read_nsamples` has returned. The variable `samples` is not initialised; it is only assigned if
there is a `kmalloc`. -/
def SenderThread.readReturned (s : SenderThread) (array : Option ℕ) : Except Fault SenderThread :=
  match s.sys.returned.getLast? with
  | none => .error .uninitialised
  | some res =>
    if 0 < res.ret then
      match array with
      | some a => s.nextSample a res.beSamples res.ret 0
      | none => .error .uninitialised
    else .ok { s with pc := .msleep }

/-- The next step of the thread; `r` is what the call returns that it stands at, `0` being the null
pointer of a `kmalloc`. -/
def SenderThread.threadStep (par : SenderParams) (s : SenderThread) (r : ℤ) :
    Except Fault SenderThread :=
  match s.pc with
  | .sockCreate =>
    if r < 0 then .ok { s.printk "Unable to create socket.\n" with pc := .exited }
    else .ok { s with pc := .bind }
  | .bind =>
    if r < 0 then
      .ok { s.printk ("Unable to bind socket to " ++ par.bindIp ++ ":" ++
        toString par.sport.toNat ++ ".\n") with pc := .exited }
    else .ok { s with pc := .shouldStop }
  | .shouldStop =>
    if r ≠ 0 then .ok { s with pc := .exited }
    else .ok { s with sys := s.sys.step .call, pc := .readNsamples none }
  | .readNsamples array =>
    let sys := readerStep s.sys (r ≠ 0)
    let allocated := s.sys.allocates (r ≠ 0)
    let pool := if allocated then s.pool.alloc else s.pool
    let array := if allocated then some s.pool.next else array
    let s := { s with sys := sys, pool := pool, pc := .readNsamples array }
    if sys.reader = .idle then s.readReturned array else .ok s
  | .preparePacket array samples len i =>
    match samples[i.toNat]? with
    | none => .error (.index i.toNat)
    | some sample =>
      let made := MiaVita.preparePacket (r ≠ 0) sample s.seq par.nodeId.toUInt8
      let s := { s with seq := s.seq + 1, offered := s.offered ++ [(sample, decide (r ≠ 0))] }
      match made with
      | none =>
        ((s.printk (senderFile ++ ":127 Failed to allocate packet.\n")).printk
          "Was not able to prepare the packet to send\n").nextSample array samples len (i + 1)
      | some pkt =>
        .ok { s with
          pool := s.pool.alloc
          pc := .sendIt array samples len i s.pool.next pkt }
  | .sendIt array samples len i block pkt => do
    let s := if r < 0 then s.printk ("FAILED TO SEND MESSAGE THROUGH SOCKET. ERROR " ++
      toString (-r) ++ "\n") else s
    let pool ← s.pool.free block
    { s with pool := pool, sent := s.sent ++ [(pkt, r)] }.nextSample array samples len (i + 1)
  | .msleep => .ok { s with pc := .shouldStop }
  | .exited => .ok s

/-- What happens next: a sample interrupt, or a step of the thread. -/
inductive ThreadEvent where
  | sample (x : Sample)
  | thread (r : ℤ)

/-- One step of the system. -/
def SenderThread.step (par : SenderParams) (s : SenderThread) :
    ThreadEvent → Except Fault SenderThread
  | .sample x => .ok { s with sys := s.sys.step (.write x) }
  | .thread r => s.threadStep par r

/-- `init_module` has started the thread. -/
def SenderThread.start (circBuffer : Fin circBufSize → Sample) : SenderThread :=
  ⟨.start circBuffer, .sockCreate, .empty, 0, [], []⟩

/-! ### What the properties speak about -/

/-- The samples that were read and that `prepare_packet` was not called for yet. -/
def SenderPc.inHand : SenderPc → List Sample
  | .preparePacket _ samples _ i => samples.drop i.toNat
  | .sendIt _ samples _ i _ _ => samples.drop (i.toNat + 1)
  | _ => []

/-- The samples between the buffer and `prepare_packet`: the thread has them, or its call of
`read_nsamples` is about to return them. -/
def SenderThread.inHand (s : SenderThread) : List Sample := s.pc.inHand ++ s.sys.reader.inFlight

/-- The packet that was made and not sent yet. -/
def SenderPc.packet : SenderPc → List Packet
  | .sendIt _ _ _ _ _ pkt => [pkt]
  | _ => []

/-- The blocks that the thread has to free. -/
def SenderPc.blocks : SenderPc → List ℕ
  | .readNsamples array => array.toList
  | .preparePacket array _ _ _ => [array]
  | .sendIt array _ _ _ block _ => [block, array]
  | _ => []

/-- The packet of a sample, if there was memory for it. -/
def SenderParams.packetOf (par : SenderParams) (x : Sample × Bool) : Option Packet :=
  preparePacket x.2 x.1 0 par.nodeId.toUInt8

/-- A sample interrupt finds room in the buffer. -/
def SenderThread.HasRoom (s : SenderThread) : ThreadEvent → Prop
  | .sample _ => s.sys.pending < 1023
  | .thread _ => True

instance (s : SenderThread) (e : ThreadEvent) : Decidable (SenderThread.HasRoom s e) :=
  match e with
  | .sample _ => inferInstanceAs (Decidable (_ < _))
  | .thread _ => inferInstanceAs (Decidable True)

/-- The samples that arrive in a run. -/
def ThreadEvent.arriving : ThreadEvent → Option Sample
  | .sample x => some x
  | .thread _ => none

/-! ### The array of a running call -/

/-- The number of samples in the array that was allocated. -/
def Reader.arrayLen : Reader → Option UInt32
  | .copyRead _ n _ _ | .copyCell _ n _ _ _ | .advanceRead _ n _ | .advanceWrite _ n _ _
  | .check _ n _ => some n
  | _ => none

/-- An array of no samples is never asked for. -/
def Reader.Counted : Reader → Prop
  | .alloc _ n | .copyRead _ n _ _ | .copyCell _ n _ _ _ | .advanceRead _ n _
  | .advanceWrite _ n _ _ | .check _ n _ => n ≠ 0
  | _ => True

/-- A running call of `read_nsamples` goes on. It has an array from the `kmalloc` on. -/
structure ReaderGoesOn (s : Sys) (grant : Bool) (s' : Sys) : Prop where
  busy : s'.reader ≠ .idle
  returned : s'.returned = s.returned
  counted : s'.reader.Counted
  array : s'.reader.arrayLen.isSome = (s.allocates grant || s.reader.arrayLen.isSome)

/-- It returns, with some samples exactly if it has an array. -/
structure ReaderReturns (s : Sys) (grant : Bool) (s' : Sys) (res : ReadResult) : Prop where
  idle : s'.reader = .idle
  returned : s'.returned = s.returned ++ [res]
  allocates : s.allocates grant = false
  array : 0 < res.ret ↔ s.reader.arrayLen.isSome

private theorem ReaderGoesOn.loopTest {s : Sys} {grant : Bool} {n : UInt32} (hn : n ≠ 0)
    (harray : (s.allocates grant || s.reader.arrayLen.isSome) = true) (tmp i : UInt32)
    (acc : List Sample) : ReaderGoesOn s grant { s with reader := loopTest tmp n i acc } := by
  rw [MiaVita.loopTest]
  split_ifs
  · exact ⟨by simp, rfl, hn, harray.symm⟩
  · exact ⟨by simp, rfl, hn, harray.symm⟩

private theorem ReaderReturns.nothing {s : Sys} {grant : Bool}
    (hallocates : s.allocates grant = false)
    (harray : s.reader.arrayLen = none) (log : List Signal) :
    ReaderReturns s grant (s.ret .nothing log) .nothing :=
  ⟨rfl, rfl, hallocates, by rw [harray]; decide⟩

/-- An access of a running call. That the count is not zero at the `kmalloc` needs the invariant
of the ring: it was taken with something pending. -/
private theorem readerStep_goesOn_or_returns {s : Sys} (h : s.Inv) (hbound : s.pending ≤ 1023)
    (hbusy : s.reader ≠ .idle) (hcounted : s.reader.Counted) (grant : Bool) :
    ReaderGoesOn s grant (readerStep s grant) ∨
      ∃ res, ReaderReturns s grant (readerStep s grant) res := by
  have hle := h.consumed_le
  have hpc := h.reader_inv
  rw [Sys.pending] at hbound
  -- most accesses only move the reader on, before the `kmalloc` or behind it
  have hbefore : ∀ pc : Reader, pc ≠ .idle → pc.arrayLen = none → pc.Counted →
      s.reader.arrayLen = none → s.allocates grant = false →
      ReaderGoesOn s grant { s with reader := pc } := fun pc hidle hnone hc hnone' hall =>
    ⟨hidle, rfl, hc, by rw [hnone, hall, hnone']; rfl⟩
  rw [readerStep]
  cases hreader : s.reader with
  | idle => exact absurd hreader hbusy
  | entry | eqRead | gtRead | wrapRead | aheadWrite =>
    refine .inl (hbefore _ (by simp) rfl trivial (by rw [hreader]; rfl) ?_)
    rw [Sys.allocates, hreader]
  | eqWrite tmp r =>
    dsimp only
    split_ifs
    · exact .inr ⟨_, .nothing (by rw [Sys.allocates, hreader]) (by rw [hreader]; rfl) _⟩
    · refine .inl (hbefore _ (by simp) rfl trivial (by rw [hreader]; rfl) ?_)
      rw [Sys.allocates, hreader]
  | gtWrite tmp r =>
    dsimp only
    split_ifs
    all_goals
      refine .inl (hbefore _ (by simp) rfl trivial (by rw [hreader]; rfl) ?_)
      rw [Sys.allocates, hreader]
  | wrapWrite tmp r =>
    rw [hreader] at hpc
    refine .inl (hbefore _ (by simp) rfl ?_ (by rw [hreader]; rfl) ?_)
    · intro hzero
      have hcount := toNat_wrapCount hpc.1 h.lastWrite_eq hle hbound hpc.2
      rw [hzero] at hcount
      have := hpc.2
      have hmod := Nat.mod_lt s.consumed (show 0 < 1024 by decide)
      simp only [UInt32.toNat_zero] at hcount
      omega
    · rw [Sys.allocates, hreader]
  | aheadRead tmp w =>
    rw [hreader] at hpc
    obtain ⟨m, hlt, hm, hw⟩ := hpc
    refine .inl (hbefore _ (by simp) rfl ?_ (by rw [hreader]; rfl) ?_)
    · intro hzero
      rcases aheadCount_or_refused h.lastRead_eq hw hlt (by omega) with hcount | hbig
      · rw [hzero, UInt32.toNat_zero] at hcount
        omega
      · rw [hzero] at hbig
        exact absurd hbig (by decide)
    · rw [Sys.allocates, hreader]
  | alloc tmp n =>
    rw [hreader] at hcounted
    have hall : s.allocates grant = (grant && decide (n * sizeofSample ≤ kmallocMax)) := by
      rw [Sys.allocates, hreader]
    dsimp only
    split_ifs with hk
    · refine .inl (.loopTest hcounted ?_ tmp 0 [])
      rw [hall, hk.1, decide_eq_true hk.2]
      rfl
    · refine .inr ⟨_, .nothing ?_ (by rw [hreader]; rfl) _⟩
      rw [hall, Bool.and_eq_false_iff, decide_eq_false_iff_not]
      rw [not_and_or, Bool.not_eq_true] at hk
      exact hk
  | copyRead | advanceRead | advanceWrite =>
    rw [hreader] at hcounted
    refine .inl ⟨by simp, rfl, hcounted, ?_⟩
    rw [Sys.allocates, hreader]
    rfl
  | copyCell tmp n i acc r =>
    rw [hreader] at hcounted
    refine .inl (.loopTest hcounted ?_ tmp (i + 1) _)
    rw [Sys.allocates, hreader]
    rfl
  | check tmp n acc =>
    rw [hreader] at hcounted
    refine .inr ⟨_, rfl, rfl, by rw [Sys.allocates, hreader], ?_⟩
    rw [hreader]
    exact ⟨fun _ => rfl, fun _ => UInt32.pos_iff_ne_zero.mpr hcounted⟩

private theorem written_readerStep (s : Sys) (grant : Bool) :
    (readerStep s grant).written = s.written := by
  rw [readerStep]
  split <;> (try split_ifs) <;> rfl

private theorem pending_readerStep_le (s : Sys) (grant : Bool) :
    (readerStep s grant).pending ≤ s.pending := by
  have hconsumed : s.consumed ≤ (readerStep s grant).consumed := by
    rw [readerStep]
    split <;> (try split_ifs) <;> simp [Sys.ret]
  rw [Sys.pending, Sys.pending, written_readerStep]
  exact Nat.sub_le_sub_left hconsumed _

/-! ### The invariant of the thread -/

/-- What the position of the thread says about the reader, and the loop about its variables. -/
def SenderPc.Fits : SenderPc → Reader → Prop
  | .readNsamples array, pc =>
    pc ≠ .idle ∧ pc.Counted ∧ pc.arrayLen.isSome = array.isSome
  | .preparePacket _ samples len i, pc => pc = .idle ∧ len.toNat = samples.length ∧ i < len
  | .sendIt _ samples len i _ _, pc => pc = .idle ∧ len.toNat = samples.length ∧ i < len
  | _, pc => pc = .idle

/-- The samples that `read_nsamples` has returned are those that `prepare_packet` was called for and
those in hand; the packets are those of the former; and the thread owns what it has allocated. -/
structure SenderThread.Inv (par : SenderParams) (s : SenderThread) : Prop where
  sys : s.sys.Inv
  room : s.sys.pending ≤ 1023
  fits : s.pc.Fits s.sys.reader
  stream : s.offered.map Prod.fst ++ s.pc.inHand = (s.sys.returned.map (·.beSamples)).flatten
  packets : s.sent.map Prod.fst ++ s.pc.packet = s.offered.filterMap par.packetOf
  owns : Owns s.pool s.pc.blocks

variable {par : SenderParams} {s : SenderThread}

theorem SenderThread.inv_start (par : SenderParams) (circBuffer : Fin circBufSize → Sample) :
    (SenderThread.start circBuffer).Inv par :=
  ⟨Sys.inv_start circBuffer, Nat.zero_le _, rfl, rfl, rfl, owns_empty⟩

/-- The invariant, with the position of the thread known. -/
private theorem SenderThread.Inv.position {pc : SenderPc} (h : s.Inv par) (hpc : s.pc = pc) :
    pc.Fits s.sys.reader ∧
      s.offered.map Prod.fst ++ pc.inHand = (s.sys.returned.map (·.beSamples)).flatten ∧
      s.sent.map Prod.fst ++ pc.packet = s.offered.filterMap par.packetOf ∧
      Owns s.pool pc.blocks :=
  hpc ▸ ⟨h.fits, h.stream, h.packets, h.owns⟩

/-- Moving on with nothing in hand. -/
private theorem SenderThread.Inv.moveTo (h : s.Inv par) (hhand : s.pc.inHand = [])
    (hpkt : s.pc.packet = [])
    (hblocks : s.pc.blocks = []) (pc : SenderPc) (hfits : pc.Fits s.sys.reader)
    (hhand' : pc.inHand = []) (hpkt' : pc.packet = []) (hblocks' : pc.blocks = []) :
    SenderThread.Inv par { s with pc := pc } where
  sys := h.sys
  room := h.room
  fits := hfits
  stream := by rw [hhand', ← hhand]; exact h.stream
  packets := by rw [hpkt', ← hpkt]; exact h.packets
  owns := by rw [hblocks', ← hblocks]; exact h.owns

/-- The log is not part of it. -/
private theorem Sys.Inv.withLog {s : Sys} (h : s.Inv) (log : List Signal) :
    Sys.Inv { s with log := log } :=
  ⟨h.consumed_le, h.lastRead_eq, h.lastWrite_eq, h.holds, h.results, h.history, h.reader_inv⟩

private theorem SenderThread.Inv.printk (h : s.Inv par) (text : String) : (s.printk text).Inv par :=
  ⟨h.sys.withLog _, h.room, h.fits, h.stream, h.packets, h.owns⟩

/-- A sample interrupt. -/
theorem SenderThread.Inv.sample (h : s.Inv par) (x : Sample) (hroom : s.sys.pending < 1023) :
    SenderThread.Inv par { s with sys := s.sys.step (.write x) } where
  sys := h.sys.write x hroom
  room := by
    have hpend : (s.sys.step (.write x)).pending = s.sys.written.length + 1 - s.sys.consumed :=
      congrArg (· - s.sys.consumed) (List.length_append ..)
    rw [Sys.pending] at hroom
    rw [hpend]
    omega
  fits := h.fits
  stream := h.stream
  packets := h.packets
  owns := h.owns

/-- The test of the loop, with the samples from `i` on still to come. -/
private theorem SenderThread.Inv.nextSample {array : ℕ} {samples : List Sample} {len i : UInt32}
    (hsys : s.sys.Inv) (hroom : s.sys.pending ≤ 1023) (hidle : s.sys.reader = .idle)
    (hlen : len.toNat = samples.length)
    (hstream : s.offered.map Prod.fst ++ samples.drop i.toNat =
      (s.sys.returned.map (·.beSamples)).flatten)
    (hpackets : s.sent.map Prod.fst = s.offered.filterMap par.packetOf)
    (howns : Owns s.pool [array]) :
    ∃ s', s.nextSample array samples len i = .ok s' ∧ s'.Inv par := by
  rw [SenderThread.nextSample]
  split_ifs with hi
  · refine ⟨_, rfl, hsys, hroom, ⟨hidle, hlen, hi⟩, hstream, ?_, howns⟩
    exact (List.append_nil _).trans hpackets
  · obtain ⟨pool, hfree, hpool⟩ := howns.free_head
    have hdone : samples.drop i.toNat = [] := by
      refine List.drop_eq_nil_of_le ?_
      rw [UInt32.lt_iff_toNat_lt] at hi
      omega
    rw [hdone] at hstream
    rw [hfree]
    exact ⟨_, rfl, hsys, hroom, hidle, hstream, (List.append_nil _).trans hpackets, hpool⟩

/-- The index behind the one in use. -/
theorem toNat_succ_of_lt {i len : UInt32} (h : i < len) : (i + 1).toNat = i.toNat + 1 := by
  have := len.toNat_lt
  rw [UInt32.lt_iff_toNat_lt] at h
  rw [UInt32.toNat_add, UInt32.toNat_one]
  omega

private theorem Sys.arrayLen_of_allocates {s : Sys} {grant : Bool} (h : s.allocates grant = true) :
    s.reader.arrayLen = none := by
  rw [Sys.allocates] at h
  split at h
  · next hreader => rw [hreader]; rfl
  · exact absurd h Bool.false_ne_true

/-- An access after which `read_nsamples` goes on. -/
private theorem SenderThread.Inv.access {array : Option ℕ} (h : s.Inv par)
    (hpc : s.pc = .readNsamples array) {grant : Bool}
    (hgo : ReaderGoesOn s.sys grant (readerStep s.sys grant)) :
    SenderThread.Inv par { s with
      sys := readerStep s.sys grant
      pool := if s.sys.allocates grant then s.pool.alloc else s.pool
      pc := .readNsamples (if s.sys.allocates grant then some s.pool.next else array) } := by
  obtain ⟨⟨-, -, harray⟩, hstream, hpackets, howns⟩ := h.position hpc
  refine ⟨h.sys.access h.room grant, (pending_readerStep_le s.sys grant).trans h.room,
    ⟨hgo.busy, hgo.counted, hgo.array.trans ?_⟩, ?_, hpackets, ?_⟩
  · rw [harray]
    cases s.sys.allocates grant <;> rfl
  · change _ = ((readerStep s.sys grant).returned.map (·.beSamples)).flatten
    rw [hgo.returned]
    exact hstream
  · cases hall : s.sys.allocates grant with
    | false => exact howns
    | true =>
      have hnone : array = none := by
        rw [Sys.arrayLen_of_allocates hall] at harray
        exact Option.isNone_iff_eq_none.mp (Option.not_isSome_iff_eq_none.mp (by
          rw [← harray]; exact Bool.false_ne_true) ▸ rfl)
      subst hnone
      exact howns.alloc

/-- The thread behind a call that has returned `res`: with samples there is an array. -/
private theorem SenderThread.Inv.readReturned {array : Option ℕ} {grant : Bool} {res : ReadResult}
    (h : s.Inv par) (hpc : s.pc = .readNsamples array)
    (hret : ReaderReturns s.sys grant (readerStep s.sys grant) res) :
    ∃ s', SenderThread.readReturned { s with
        sys := readerStep s.sys grant
        pc := .readNsamples array } array = .ok s' ∧ s'.Inv par := by
  obtain ⟨⟨-, -, harray⟩, hstream, hpackets, howns⟩ := h.position hpc
  have hsys := h.sys.access h.room grant
  have hroom := (pending_readerStep_le s.sys grant).trans h.room
  have hlast : (readerStep s.sys grant).returned.getLast? = some res := by
    rw [hret.returned, List.getLast?_concat]
  -- the samples of the call are the ones behind those of the calls before it
  have hstream' : s.offered.map Prod.fst ++ res.beSamples =
      ((readerStep s.sys grant).returned.map (·.beSamples)).flatten := by
    rw [hret.returned, List.map_append, List.flatten_append, ← hstream]
    simp [SenderPc.inHand]
  obtain ⟨hlen, -⟩ := hsys.results res (List.mem_of_getLast? hlast)
  simp only [SenderThread.readReturned, hlast]
  by_cases hpos : 0 < res.ret
  · obtain ⟨a, rfl⟩ : ∃ a, array = some a :=
      Option.isSome_iff_exists.mp (harray ▸ hret.array.mp hpos)
    rw [if_pos hpos]
    refine SenderThread.Inv.nextSample hsys hroom hret.idle hlen hstream' ?_ howns
    exact (List.append_nil _).symm.trans hpackets
  · have hnone : array = none := by
      cases array with
      | none => rfl
      | some a => exact absurd (hret.array.mpr harray) hpos
    have hnil : res.beSamples = [] := by
      rw [UInt32.lt_iff_toNat_lt, hlen] at hpos
      exact List.eq_nil_of_length_eq_zero (by simpa using hpos)
    subst hnone
    rw [hnil] at hstream'
    rw [if_neg hpos]
    exact ⟨_, rfl, hsys, hroom, hret.idle, hstream', hpackets, howns⟩

theorem SenderThread.Inv.readNsamples {array : Option ℕ} (h : s.Inv par)
    (hpc : s.pc = .readNsamples array) (r : ℤ) :
    ∃ s', s.threadStep par r = .ok s' ∧ s'.Inv par := by
  obtain ⟨⟨hbusy, hcounted, -⟩, -⟩ := h.position hpc
  simp only [SenderThread.threadStep, hpc]
  rcases readerStep_goesOn_or_returns h.sys h.room hbusy hcounted (decide (r ≠ 0)) with
    hgo | ⟨res, hret⟩
  · rw [if_neg hgo.busy]
    exact ⟨_, rfl, h.access hpc hgo⟩
  · rw [if_pos hret.idle, hret.allocates]
    exact h.readReturned hpc hret

/-- `prepare_packet` for the sample at `i`, which is inside the array. -/
theorem SenderThread.Inv.preparePacket {array : ℕ} {samples : List Sample} {len i : UInt32}
    (h : s.Inv par) (hpc : s.pc = .preparePacket array samples len i) (r : ℤ) :
    ∃ s', s.threadStep par r = .ok s' ∧ s'.Inv par := by
  obtain ⟨⟨hidle, hlen, hi⟩, hstream, hpackets, howns⟩ := h.position hpc
  have hlt : i.toNat < samples.length := hlen ▸ UInt32.lt_iff_toNat_lt.mp hi
  have hstream' : ∀ kmalloc : Bool, (s.offered ++ [(samples[i.toNat], kmalloc)]).map Prod.fst ++
      samples.drop (i.toNat + 1) = (s.sys.returned.map (·.beSamples)).flatten := by
    intro kmalloc
    rw [← hstream, SenderPc.inHand, List.drop_eq_getElem_cons hlt, List.map_append,
      List.append_assoc]
    rfl
  have hsent : s.sent.map Prod.fst = s.offered.filterMap par.packetOf :=
    (List.append_nil _).symm.trans hpackets
  simp only [SenderThread.threadStep, hpc, List.getElem?_eq_getElem hlt]
  by_cases hr : r ≠ 0
  · -- the packet is made, and waits to be sent
    simp only [MiaVita.preparePacket, hr, decide_true, if_true, ne_eq, not_false_eq_true]
    refine ⟨_, rfl, h.sys, h.room, ⟨hidle, hlen, hi⟩, hstream' true, ?_, howns.alloc⟩
    rw [List.filterMap_append, ← hsent]
    rfl
  · simp only [MiaVita.preparePacket, hr, decide_false, if_false, Bool.false_eq_true]
    refine SenderThread.Inv.nextSample ((h.sys.withLog _).withLog _) h.room hidle hlen ?_ ?_ howns
    · rw [toNat_succ_of_lt hi]
      exact hstream' false
    · refine hsent.trans ?_
      simp only [SenderThread.printk, List.filterMap_append]
      exact (List.append_nil _).symm

/-- `send_it` and `kfree(pkt)`. -/
theorem SenderThread.Inv.sendIt {array block : ℕ} {samples : List Sample} {len i : UInt32}
    {pkt : Packet} (h : s.Inv par) (hpc : s.pc = .sendIt array samples len i block pkt) (r : ℤ) :
    ∃ s', s.threadStep par r = .ok s' ∧ s'.Inv par := by
  obtain ⟨⟨hidle, hlen, hi⟩, hstream, hpackets, howns⟩ := h.position hpc
  obtain ⟨pool, hfree, hpool⟩ := Owns.free_head howns
  have hstream' : s.offered.map Prod.fst ++ samples.drop (i + 1).toNat =
      (s.sys.returned.map (·.beSamples)).flatten := by
    rw [toNat_succ_of_lt hi]
    exact hstream
  have hpackets' : (s.sent ++ [(pkt, r)]).map Prod.fst = s.offered.filterMap par.packetOf := by
    rw [List.map_append]
    exact hpackets
  simp only [SenderThread.threadStep, hpc]
  split_ifs
  · simp only [SenderThread.printk, hfree]
    exact SenderThread.Inv.nextSample (h.sys.withLog _) h.room hidle hlen hstream' hpackets' hpool
  · simp only [hfree]
    exact SenderThread.Inv.nextSample h.sys h.room hidle hlen hstream' hpackets' hpool

/-- **Every step of the thread succeeds** and keeps the invariant. -/
theorem SenderThread.Inv.thread (h : s.Inv par) (r : ℤ) :
    ∃ s', s.threadStep par r = .ok s' ∧ s'.Inv par := by
  have hfits := h.fits
  -- outside of the loop over the samples nothing is in hand and nothing is allocated
  have hmove := h.moveTo
  cases hpc : s.pc with
  | readNsamples array => exact h.readNsamples hpc r
  | preparePacket array samples len i => exact h.preparePacket hpc r
  | sendIt array samples len i block pkt => exact h.sendIt hpc r
  | sockCreate =>
    rw [hpc] at hfits hmove
    simp only [SenderThread.threadStep, hpc]
    split_ifs
    · exact ⟨_, rfl, (hmove rfl rfl rfl .exited hfits rfl rfl rfl).printk _⟩
    · exact ⟨_, rfl, hmove rfl rfl rfl _ hfits rfl rfl rfl⟩
  | bind =>
    rw [hpc] at hfits hmove
    simp only [SenderThread.threadStep, hpc]
    split_ifs
    · exact ⟨_, rfl, (hmove rfl rfl rfl .exited hfits rfl rfl rfl).printk _⟩
    · exact ⟨_, rfl, hmove rfl rfl rfl _ hfits rfl rfl rfl⟩
  | shouldStop =>
    rw [hpc] at hmove
    obtain ⟨hfits, hstream, hpackets, howns⟩ := h.position hpc
    have hcall : s.sys.step .call = { s.sys with reader := .entry } := if_pos hfits
    simp only [SenderThread.threadStep, hpc]
    split_ifs
    · exact ⟨_, rfl, hmove rfl rfl rfl _ hfits rfl rfl rfl⟩
    · rw [hcall]
      have hflight : s.sys.reader.inFlight = [] := by
        rw [show s.sys.reader = .idle from hfits]
        rfl
      exact ⟨_, rfl, h.sys.moveTo hflight rfl trivial, h.room,
        ⟨by simp, trivial, rfl⟩, hstream, hpackets, howns⟩
  | msleep =>
    rw [hpc] at hfits hmove
    simp only [SenderThread.threadStep, hpc]
    exact ⟨_, rfl, hmove rfl rfl rfl _ hfits rfl rfl rfl⟩
  | exited =>
    simp only [SenderThread.threadStep, hpc]
    exact ⟨_, rfl, h⟩

private theorem SenderThread.Inv.step (s : SenderThread) (e : ThreadEvent) (h : s.Inv par)
    (hroom : s.HasRoom e) :
    ∃ s', SenderThread.step par s e = .ok s' ∧ s'.Inv par := by
  cases e with
  | sample x => exact ⟨_, rfl, h.sample x hroom⟩
  | thread r => exact h.thread r

/-! ### Whole runs -/

/-- The test of the loop only frees the array and moves the thread on. -/
theorem SenderThread.nextSample_spec {s' : SenderThread} {array : ℕ} {samples : List Sample}
    {len i : UInt32} (h : s.nextSample array samples len i = .ok s') :
    ∃ pool pc, s' = { s with pool := pool, pc := pc } ∧
      (pc = .msleep ∨ pc = .preparePacket array samples len i) := by
  rw [SenderThread.nextSample] at h
  split_ifs at h
  · cases h
    exact ⟨_, _, rfl, .inr rfl⟩
  · obtain ⟨pool, -, h⟩ := bind_eq_ok.mp h
    cases h
    exact ⟨_, _, rfl, .inl rfl⟩

theorem SenderThread.readReturned_spec {s' : SenderThread} {array : Option ℕ}
    (h : s.readReturned array = .ok s') :
    ∃ pool pc, s' = { s with pool := pool, pc := pc } ∧
      (pc = .msleep ∨ ∃ a samples len, pc = .preparePacket a samples len 0) := by
  rw [SenderThread.readReturned] at h
  split at h
  · cases h
  · split_ifs at h
    · cases array with
      | none => cases h
      | some a =>
        obtain ⟨pool, pc, hs', hpc⟩ := SenderThread.nextSample_spec h
        exact ⟨pool, pc, hs', hpc.imp_right fun hpc => ⟨_, _, _, hpc⟩⟩
    · cases h
      exact ⟨_, _, rfl, .inl rfl⟩

/-- The thread does not write into the buffer. -/
theorem SenderThread.written_threadStep {s' : SenderThread} {r : ℤ}
    (h : s.threadStep par r = .ok s') :
    s'.sys.written = s.sys.written := by
  rw [SenderThread.threadStep] at h
  split at h
  · split_ifs at h <;> cases h <;> rfl
  · split_ifs at h <;> cases h <;> rfl
  · split_ifs at h
    · cases h
      rfl
    · cases h
      dsimp only [Sys.step]
      split_ifs <;> rfl
  · by_cases hidle : (readerStep s.sys (decide (r ≠ 0))).reader = .idle
    · simp only [hidle, if_true] at h
      obtain ⟨pool, pc, rfl, -⟩ := SenderThread.readReturned_spec h
      exact written_readerStep _ _
    · simp only [hidle, if_false] at h
      cases h
      exact written_readerStep _ _
  · split at h
    · cases h
    · dsimp only at h
      split at h
      · obtain ⟨pool, pc, rfl, -⟩ := SenderThread.nextSample_spec h
        rfl
      · cases h
        rfl
  · obtain ⟨pool, -, h⟩ := bind_eq_ok.mp h
    obtain ⟨pool, pc, rfl, -⟩ := SenderThread.nextSample_spec h
    dsimp only
    split_ifs <;> rfl
  · cases h
    rfl
  · cases h
    rfl

/-- The samples written are the ones that have arrived. -/
private theorem written_execM {es : List ThreadEvent} : ∀ {s s' : SenderThread},
    Run.execM (SenderThread.step par) s es = .ok s' →
      s'.sys.written = s.sys.written ++ es.filterMap ThreadEvent.arriving := by
  induction es with
  | nil =>
    intro s s' h
    cases h
    simp
  | cons e es ih =>
    intro s s' h
    obtain ⟨s₁, h₁, hrest⟩ := Run.execM_cons_ok.mp h
    rw [ih hrest]
    cases e with
    | sample x =>
      cases h₁
      simp [Sys.step, Ring.writeToBuffer, ThreadEvent.arriving]
    | thread r => rw [SenderThread.written_threadStep h₁]; rfl

/-- With the invariant, what was offered, what is in hand and what is unread is what was written. -/
theorem SenderThread.Inv.accounts (h : s.Inv par) :
    s.offered.map Prod.fst ++ s.inHand ++ s.sys.ring.unread = s.sys.written := by
  rw [SenderThread.inHand, ← List.append_assoc, h.stream, h.sys.history, h.sys.unread_eq h.room,
    List.take_append_drop]

theorem SenderThread.inv_execM {circBuffer : Fin circBufSize → Sample} {es : List ThreadEvent}
    (hroom : Run.AllStepsM (SenderThread.step par) SenderThread.HasRoom (.start circBuffer) es) :
    ∃ s, Run.execM (SenderThread.step par) (.start circBuffer) es = .ok s ∧ s.Inv par :=
  Run.progressM SenderThread.Inv.step (SenderThread.inv_start par circBuffer) hroom

/-- **No sample is lost, repeated or reordered by the sender.** In every interleaving of sample
interrupts and of the thread, with whatever the kernel answers it, in which an interrupt always
finds room: the samples that `prepare_packet` was called for, those in the hands of the thread and
those still in the buffer are, in this order, the samples that have arrived; and the packets sent
are those of the samples for which `prepare_packet` found memory. -/
theorem sender_accounts (par : SenderParams) (circBuffer : Fin circBufSize → Sample)
    (es : List ThreadEvent)
    (hroom : Run.AllStepsM (SenderThread.step par) SenderThread.HasRoom (.start circBuffer) es) :
    ∃ s, Run.execM (SenderThread.step par) (.start circBuffer) es = .ok s ∧
      s.offered.map Prod.fst ++ s.inHand ++ s.sys.ring.unread =
        es.filterMap ThreadEvent.arriving ∧
      s.sent.map Prod.fst ++ s.pc.packet = s.offered.filterMap par.packetOf := by
  obtain ⟨s, hrun, hinv⟩ := SenderThread.inv_execM hroom
  refine ⟨s, hrun, ?_, hinv.packets⟩
  rw [hinv.accounts, written_execM hrun]
  rfl

/-- Two samples, the second one arriving between two accesses of `read_nsamples`. There is no memory
for the packet of the first, and the packet of the second is not accepted by the socket. -/
def unluckyRun (x y : Sample) : List ThreadEvent :=
  [.thread 0, .thread 0, .sample x, .thread 0, .thread 1, .thread 1, .thread 1, .sample y] ++
    List.replicate 12 (.thread 1) ++ [.thread 0, .thread 1, .thread (-105), .thread 0, .thread 1]

theorem sender_accounts_unlucky :
    let par : SenderParams := ⟨"127.0.0.1", 57843, 7⟩
    let x : Sample := ⟨1, 1, #v[1, 2, 3]⟩
    let y : Sample := ⟨2, 2, #v[4, 5, 6]⟩
    ∃ s, Run.execM (SenderThread.step par) (.start fun _ => x) (unluckyRun x y) = .ok s ∧
      s.offered.map Prod.fst ++ s.inHand ++ s.sys.ring.unread = [x, y] ∧
      s.sent.map Prod.fst ++ s.pc.packet = s.offered.filterMap par.packetOf :=
  sender_accounts _ _ _ (by decide)

/-- **The sender leaks nothing and frees nothing twice.** No step of such a run fails: no block is
freed that is not allocated, no array is used that was not assigned, none is read outside of its
bounds. The blocks allocated at any moment are the array and the packet that the thread is working
on, so none is left when the thread is at the top of its loop, asleep or gone. -/
theorem sender_frees_all (par : SenderParams) (circBuffer : Fin circBufSize → Sample)
    (es : List ThreadEvent)
    (hroom : Run.AllStepsM (SenderThread.step par) SenderThread.HasRoom (.start circBuffer) es) :
    ∃ s, Run.execM (SenderThread.step par) (.start circBuffer) es = .ok s ∧
      s.pool.live.Perm s.pc.blocks ∧ s.pc.blocks.Nodup ∧
      (s.pc ∈ [.shouldStop, .msleep, .exited] → s.pool.live = []) := by
  obtain ⟨s, hrun, hinv⟩ := SenderThread.inv_execM hroom
  refine ⟨s, hrun, hinv.owns.perm, hinv.owns.nodup, fun hpc => ?_⟩
  have hblocks : s.pc.blocks = [] := by
    simp only [List.mem_cons, List.not_mem_nil, or_false] at hpc
    rcases hpc with hpc | hpc | hpc <;> rw [hpc] <;> rfl
  exact (hblocks ▸ hinv.owns.perm).eq_nil

theorem sender_frees_all_unlucky :
    let par : SenderParams := ⟨"127.0.0.1", 57843, 7⟩
    let x : Sample := ⟨1, 1, #v[1, 2, 3]⟩
    let y : Sample := ⟨2, 2, #v[4, 5, 6]⟩
    ∃ s, Run.execM (SenderThread.step par) (.start fun _ => x) (unluckyRun x y) = .ok s ∧
      s.pool.live.Perm s.pc.blocks ∧ s.pc.blocks.Nodup ∧
      (s.pc ∈ [.shouldStop, .msleep, .exited] → s.pool.live = []) :=
  sender_frees_all _ _ _ (by decide)

end MiaVita
