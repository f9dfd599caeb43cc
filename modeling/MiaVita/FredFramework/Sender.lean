import MiaVita.FredFramework.BufferList
import MiaVita.FredFramework.Consuela
import MiaVita.Lib.Run

/-!
# The aggregating sender over whole runs

Both hooks and the flush thread, in any order: a packet reaches the hook of one of the levels, or
the thread makes a pass over the buffers of one. Where the packets come from is left open, so that
a run may hand the aggregates of the application level on to the IP level, as the kernel does when
both are switched on. Every allocation may fail; an allocation that is not asked for counts as
granted.

Beside the buffers a level keeps a history (`held`): the packets taken for each destination that
have not left yet. The invariant `Keeps` says that the buffer of a destination holds the
difference chain of just these packets, and that it has room for them with a byte to spare. Every
aggregate is logged with the packets it was made of, and `Aggregate.Sound` says that these are
what its bytes contain.
-/

namespace MiaVita

open Bytes Memory StampChain Fallible

deriving instance DecidableEq for Level

/-! ### Runs -/

/-- `aggregation_local_out_hook` or `aggregation_post_routing_hook`. -/
def Level.hook (size : ℕ) (ifaAddress : UInt32) (created : Bool) (expand : Expand) :
    Level → List (Option AggregateBuffer) → SkBuff →
      Except Fault (Verdict × SkBuff × List (Option AggregateBuffer))
  | app => aggregationLocalOutHook size ifaAddress created expand
  | ip => aggregationPostRoutingHook size ifaAddress created expand

/-- A packet for the hook of a level, in a socket buffer with some room around it. -/
structure Offer where
  level : Level
  packet : IpPacket
  takes : level.Takes packet
  headroom : ℕ
  tailroom : ℕ

namespace Offer

variable (o : Offer)

/-- The socket buffer the hook is given. -/
def skb : SkBuff := ⟨o.headroom, o.packet.bytes, o.tailroom⟩

/-- Where the packet goes. -/
def daddr : UInt32 := daddrOf o.packet.bytes

/-- The number of bytes the hook buffers of the packet. -/
def len : ℕ := (o.level.recordOf o.packet).bytes.length

end Offer

/-- A packet of a protocol that the hook of a level passes on. -/
structure Bystander where
  level : Level
  skb : SkBuff
  long : sizeofIphdr ≤ skb.data.length
  passed : match level with
    | .app => protocolOf skb.data ≠ ipprotoUdp
    | .ip => supported (protocolOf skb.data) = false

/-- What happens to the sender. `created` and `expand` are the outcomes of the allocations a hook
may ask for: of a new buffer, and of the two expansions of the socket buffer. -/
inductive SenderEvent where
  | packet (o : Offer) (ifaAddress : UInt32) (created : Bool) (expand : Expand)
  | bystander (p : Bystander) (ifaAddress : UInt32) (created : Bool) (expand : Expand)
  | pass (level : Level) (allocs : ℕ → FlushAllocs)

/-- The level an event is about. -/
def SenderEvent.level : SenderEvent → Level
  | packet o _ _ _ => o.level
  | bystander p _ _ _ => p.level
  | pass level _ => level

/-- Every allocation a hook may ask for is granted. -/
abbrev Granted (created : Bool) (expand : Expand) : Prop :=
  created = true ∧ expand.tail = true ∧ expand.head = true

/-- An aggregate that has left, and the packets it was made of, newest first. -/
structure Aggregate where
  level : Level
  packets : List IpPacket
  bytes : List UInt8

/-- One level: its list of buffers, and the packets taken for each destination and not sent yet,
newest first. The latter record, they are never read by the code. -/
structure LevelState where
  buffers : List (Option AggregateBuffer)
  held : UInt32 → List IpPacket

/-- Whether there is a buffer with data for `d`. -/
def hasData (buffers : List (Option AggregateBuffer)) (d : UInt32) : Bool :=
  buffers.any fun b => b.any fun b => b.ip = d ∧ 0 < b.bufferDataLen

/-- An event at its level: the aggregates that leave, and the level afterwards. -/
def SenderEvent.apply (size : ℕ) (sourceIp : UInt32) (ls : LevelState) :
    SenderEvent → Except Fault (List Aggregate × LevelState)
  | packet o ifaAddress created expand => do
    let (verdict, skb, buffers) ←
      o.level.hook size ifaAddress created expand ls.buffers o.skb
    let packets := o.packet :: ls.held o.daddr
    .ok (if verdict = .accept ∧ Granted created expand then [⟨o.level, packets, skb.data⟩] else [],
      ⟨buffers, Function.update ls.held o.daddr (if verdict = .stolen then packets else [])⟩)
  | bystander p ifaAddress created expand => do
    let (_, _, buffers) ← p.level.hook size ifaAddress created expand ls.buffers p.skb
    .ok ([], ⟨buffers, ls.held⟩)
  | pass level allocs => do
    let (sent, buffers) ← buildAndSendPackets level.proto sourceIp allocs ls.buffers
    .ok (sent.map fun bytes => ⟨level, ls.held (daddrOf bytes), bytes⟩,
      ⟨buffers, fun d => if hasData buffers d then ls.held d else []⟩)

/-- The sender: its two levels and everything that has left as an aggregate. -/
structure Sender where
  levels : Level → LevelState
  aggregates : List Aggregate

/-- The module is loaded: no buffers. -/
def Sender.start : Sender := ⟨fun _ => ⟨[], fun _ => []⟩, []⟩

/-- One event, with the buffer size configured for its level. -/
def senderStep (size : Level → ℕ) (sourceIp : UInt32) (s : Sender) (e : SenderEvent) :
    Except Fault Sender := do
  let (sent, ls) ← e.apply (size e.level) sourceIp (s.levels e.level)
  .ok ⟨Function.update s.levels e.level ls, s.aggregates ++ sent⟩

/-! ### The hooks -/

private theorem Level.hook_eq (level : Level) (size : ℕ) (ifaAddress : UInt32) (created : Bool)
    (expand : Expand) (buffers : List (Option AggregateBuffer)) {skb : SkBuff} {p : IpPacket}
    (hskb : skb.data = p.bytes) (hp : level.Takes p) :
    level.hook size ifaAddress created expand buffers skb =
      getBufferFor size created (daddrOf p.bytes) buffers >>= fun r =>
        pushTo (level.push ifaAddress expand) r.1 r.2 skb := by
  cases level with
  | app =>
    have hprotocol : protocolOf p.bytes = ipprotoUdp := hp
    rw [hook, aggregationLocalOutHook, hskb, p.ipProtocol_bytes, hprotocol, ok_bind,
      if_neg (by decide), p.ipDaddr_bytes, ok_bind]
    rfl
  | ip =>
    rw [hook, aggregationPostRoutingHook, hskb, p.ipDaddr_bytes, ok_bind]
    rfl

/-- A packet of an unsupported protocol is passed on as it is. -/
private theorem pushIpPacket_unsupported {ifaAddress : UInt32} {expand : Expand}
    {b b' : AggregateBuffer}
    {skb skb' : SkBuff} {verdict : Verdict} (hlen : sizeofIphdr ≤ skb.data.length)
    (hprotocol : supported (protocolOf skb.data) = false)
    (h : pushIpPacket ifaAddress expand b skb = .ok (verdict, skb', b')) : b' = b := by
  simp only [sizeofIphdr] at hlen
  rw [pushIpPacket] at h
  obtain ⟨totLen, -, h⟩ := bind_eq_ok.mp h
  obtain ⟨peeked, -, h⟩ := bind_eq_ok.mp h
  split_ifs at h with hpeeked
  · cases h
    rfl
  · rw [ipProtocol_eq (by omega), ok_bind, hprotocol, if_pos rfl] at h
    cases h
    rfl

/-! ### The invariant of a level -/

/-- There is data for the destination of a buffer if there is any in it. -/
private theorem OnePerIp.hasData_iff {buffers : List (Option AggregateBuffer)} {b : AggregateBuffer}
    (h : OnePerIp buffers) (hb : some b ∈ buffers) :
    hasData buffers b.ip = true ↔ b.data ≠ [] := by
  have hpos : 0 < b.bufferDataLen ↔ b.data ≠ [] := by
    rw [← b.length_data, List.length_pos_iff]
  rw [← hpos, hasData, List.any_eq_true]
  constructor
  · rintro ⟨x, hx, hany⟩
    cases x with
    | none => cases hany
    | some c =>
      obtain ⟨hip, hdata⟩ : c.ip = b.ip ∧ 0 < c.bufferDataLen := by simpa using hany
      rwa [h.eq_of_ip_eq hb hx hip.symm]
  · intro hdata
    exact ⟨some b, hb, by simpa using hdata⟩

/-- **The invariant of a level**: the buffers are the table of the difference chains of the packets
taken for each destination, and in each a byte more would fit. -/
structure Keeps (size : ℕ) (level : Level) (buffers : List (Option AggregateBuffer))
    (held : UInt32 → List IpPacket) : Prop extends
    Stored size buffers fun d => chain ((held d).map level.recordOf) where
  takes : ∀ d, ∀ p ∈ held d, level.Takes p
  lt : ∀ d, held d = [] ∨ (chain ((held d).map level.recordOf)).length < size

private theorem keeps_nil (size : ℕ) (level : Level) : Keeps size level [] fun _ => [] where
  toStored := stored_nil size
  takes _ _ h := absurd h List.not_mem_nil
  lt _ := .inl rfl

theorem eq_nil_of_chain {level : Level} {ps : List IpPacket}
    (h : chain (ps.map level.recordOf) = []) : ps = [] := by
  simpa using h

namespace Keeps

variable {size : ℕ} {level : Level} {buffers : List (Option AggregateBuffer)}
  {held : UInt32 → List IpPacket}

/-- The buffer of a destination is replaced by one that holds other packets for it. -/
private theorem replaced {pre post : List (Option AggregateBuffer)} {b b' : AggregateBuffer}
    {ps : List IpPacket} (h : Keeps size level (pre ++ some b :: post) held)
    (hholds : b'.Holds b.ip size (chain (ps.map level.recordOf)))
    (htakes : ∀ p ∈ ps, level.Takes p)
    (hlt : ps = [] ∨ (chain (ps.map level.recordOf)).length < size) :
    Keeps size level (pre ++ some b' :: post) (Function.update held b.ip ps) := by
  have hstored := h.replace hholds
  refine ⟨?_, ?_, ?_⟩
  · have hupdate := Function.comp_update (fun ps => chain (List.map level.recordOf ps)) held b.ip ps
    rw [← Function.comp_def (fun ps => chain (List.map level.recordOf ps)), hupdate]
    exact hstored
  · intro d
    by_cases hd : d = b.ip
    · rw [hd, Function.update_self]
      exact htakes
    · rw [Function.update_of_ne hd]
      exact h.takes d
  · intro d
    by_cases hd : d = b.ip
    · rw [hd, Function.update_self]
      exact hlt
    · rw [Function.update_of_ne hd]
      exact h.lt d

/-- The walk keeps the invariant, and ends at a buffer unless its allocation failed. -/
private theorem walk (h : Keeps size level buffers held) {created : Bool} {d : UInt32} {i : ℕ}
    {buffers' : List (Option AggregateBuffer)}
    (hget : MiaVita.getBufferFor size created d buffers = .ok (i, buffers')) :
    Keeps size level buffers' held ∧
      ((∃ pre b post, buffers' = pre ++ some b :: post ∧ b.ip = d ∧ i = pre.length) ∨
        created = false ∧ buffers'[i]? = some none ∧ held d = []) := by
  obtain ⟨hstored, hfound⟩ := h.getBufferFor hget
  exact ⟨⟨hstored, h.takes, h.lt⟩, hfound.imp_right fun ⟨hcreated, hnone, hnil⟩ =>
    ⟨hcreated, hnone, eq_nil_of_chain hnil⟩⟩

end Keeps

/-! ### What an event does -/

section Packet

variable {size : ℕ} {sourceIp : UInt32} {o : Offer} {ifaAddress : UInt32} {created : Bool}
  {expand : Expand} {ls ls' : LevelState} {sent : List Aggregate}

/-- The bytes an aggregate of the packets held and the new one has behind its header. -/
def Offer.stacked (o : Offer) (held : UInt32 → List IpPacket) : List UInt8 :=
  chain ((o.packet :: held o.daddr).map o.level.recordOf)

/-- **A packet at its hook**: it is stacked if it fits; otherwise it is passed on, and if every
allocation is granted then as the aggregate of what was stacked. -/
theorem Keeps.packet (h : Keeps size o.level ls.buffers ls.held)
    (hok : (SenderEvent.packet o ifaAddress created expand).apply size sourceIp ls =
      .ok (sent, ls')) :
    Keeps size o.level ls'.buffers ls'.held ∧
      ((o.stacked ls.held).length < size ∧ sent = [] ∧
          ls'.held o.daddr = o.packet :: ls.held o.daddr ∨
        size ≤ (o.stacked ls.held).length ∧ Granted created expand ∧
          sent = [⟨o.level, o.packet :: ls.held o.daddr,
            aggregateHeader o.level.proto (sizeofIphdr + (o.stacked ls.held).length) ifaAddress
              o.daddr ++ o.stacked ls.held⟩] ∨
        ¬ Granted created expand ∧ sent = []) := by
  rw [SenderEvent.apply] at hok
  obtain ⟨⟨verdict, skb, buffers⟩, hhook, hok⟩ := bind_eq_ok.mp hok
  rw [o.level.hook_eq _ _ _ _ _ (show o.skb.data = o.packet.bytes from rfl) o.takes] at hhook
  obtain ⟨⟨i, found⟩, hget, hpush⟩ := bind_eq_ok.mp hhook
  obtain ⟨hkeeps, ⟨pre, b, post, rfl, hip, rfl⟩ | ⟨rfl, hnone, hheld⟩⟩ := h.walk hget
  swap
  · -- there is no buffer, and none could be made
    simp only [pushTo, hnone] at hpush
    cases hpush
    cases hok
    refine ⟨?_, .inr (.inr ⟨by simp, by simp⟩)⟩
    have hsame : Function.update ls.held o.daddr [] = ls.held := by
      rw [← hheld]
      exact Function.update_eq_self _ _
    simp only [reduceCtorEq, if_false]
    rw [hsame]
    exact hkeeps
  have hb : b.Holds o.daddr size (chain ((ls.held o.daddr).map o.level.recordOf)) := by
    have := hkeeps.holds b (by simp)
    rwa [show b.ip = o.daddr from hip] at this
  have hip : b.ip = o.daddr := hip
  have hps := hkeeps.takes o.daddr
  rw [pushTo_append] at hpush
  by_cases hfit : (o.stacked ls.held).length < size
  · obtain ⟨b', hstolen, hb'⟩ := o.level.push_stolen ifaAddress expand
      (show o.skb.data = o.packet.bytes from rfl) o.takes hps hb hfit
    rw [hstolen, ok_bind] at hpush
    cases hpush
    cases hok
    refine ⟨?_, .inl ⟨hfit, by simp, by simp⟩⟩
    rw [← hip] at hb' ⊢
    exact hkeeps.replaced hb' (List.forall_mem_cons.mpr ⟨o.takes, by rw [hip]; exact hps⟩)
      (.inr (by rw [hip]; exact hfit))
  · have hfull := Nat.le_of_not_lt hfit
    obtain ⟨skb', b', haccept, hb', hdata⟩ := o.level.push_accept ifaAddress expand
      (show o.skb.data = o.packet.bytes from rfl) o.takes hps hb hfull
    rw [haccept, ok_bind] at hpush
    cases hpush
    cases hok
    refine ⟨?_, ?_⟩
    · simp only [reduceCtorEq, if_false]
      rw [← hip] at hb' ⊢
      exact hkeeps.replaced hb' (by simp) (.inl rfl)
    · by_cases hgranted : Granted created expand
      · refine .inr (.inl ⟨hfull, hgranted, ?_⟩)
        have hexpand : expand = .ok := by
          obtain ⟨-, htail, hhead⟩ := hgranted
          cases expand
          simp only at htail hhead
          rw [htail, hhead]
          rfl
        rw [if_pos ⟨rfl, hgranted⟩, hdata hexpand]
        rfl
      · exact .inr (.inr ⟨hgranted, if_neg fun h => hgranted h.2⟩)

end Packet

/-- What a pass does to a node of the list: nothing, or it empties the buffer. -/
def PassedOver (x y : Option AggregateBuffer) : Prop :=
  y = x ∨ ∃ b, x = some b ∧ y = some b.resetBuffer

/-- **A pass that returns** has left alone or emptied every buffer, and sent what was in some of
them. -/
theorem buildAndSendFrom_cases {proto : ℕ} {sourceIp : UInt32} {allocs : ℕ → FlushAllocs} {i : ℕ}
    {buffered : Buffered} {buffers buffers' : List (Option AggregateBuffer)}
    {sent : List (List UInt8)} (hbuffered : ∀ block, buffered ≠ .live block)
    (h : buildAndSendFrom proto sourceIp allocs i buffered buffers = .ok (sent, buffers')) :
    List.Forall₂ PassedOver buffers buffers' ∧
      ∀ bytes ∈ sent, ∃ b, some b ∈ buffers ∧ b.data ≠ [] ∧
        bytes = aggregateHeader proto (sizeofIphdr + b.data.length) sourceIp b.ip ++ b.data := by
  induction buffers generalizing i buffered sent buffers' with
  | nil =>
    cases h
    exact ⟨.nil, by simp⟩
  | cons x buffers ih =>
    cases x with
    | none => cases h
    | some b =>
      have hrest : ∀ {sent : List (List UInt8)}, (∀ bytes ∈ sent, ∃ b, some b ∈ buffers ∧
          b.data ≠ [] ∧ bytes = aggregateHeader proto (sizeofIphdr + b.data.length) sourceIp b.ip ++
            b.data) → ∀ bytes ∈ sent, ∃ b', some b' ∈ some b :: buffers ∧ b'.data ≠ [] ∧
          bytes = aggregateHeader proto (sizeofIphdr + b'.data.length) sourceIp b'.ip ++
            b'.data := by
        intro sent h bytes hbytes
        obtain ⟨b', hmem, hb'⟩ := h bytes hbytes
        exact ⟨b', List.mem_cons_of_mem _ hmem, hb'⟩
      rw [buildAndSendFrom] at h
      obtain hmv | ⟨-, hdata, hmv⟩ := b.mvData_cases (allocs i).mv
      · -- nothing was moved out
        simp only [hmv, Option.elim_none] at h
        cases buffered with
        | live block => exact absurd rfl (hbuffered block)
        | freed => cases h
        | null =>
          obtain ⟨⟨sent₁, buffers₁⟩, hnext, h⟩ := bind_eq_ok.mp h
          cases h
          obtain ⟨hpassed, hsent⟩ := ih (by simp) hnext
          exact ⟨.cons (.inl rfl) hpassed, hrest hsent⟩
      · simp only [hmv, Option.elim_some] at h
        split_ifs at h with hpacket
        · obtain ⟨packet, hbuild, h⟩ := bind_eq_ok.mp h
          obtain ⟨⟨sent₁, buffers₁⟩, hnext, h⟩ := bind_eq_ok.mp h
          cases h
          obtain ⟨hpassed, hsent⟩ := ih (by simp) hnext
          refine ⟨.cons (.inr ⟨b, rfl, rfl⟩) hpassed, List.forall_mem_cons.mpr ⟨?_, hrest hsent⟩⟩
          have hshort := (safe_buildPacket_iff proto sourceIp b.ip b.data).mp ⟨packet, hbuild⟩
          rw [buildPacket_eq proto sourceIp b.ip hshort] at hbuild
          cases hbuild
          exact ⟨b, List.mem_cons_self, hdata, rfl⟩
        · obtain ⟨⟨sent₁, buffers₁⟩, hnext, h⟩ := bind_eq_ok.mp h
          cases h
          obtain ⟨hpassed, hsent⟩ := ih (by simp) hnext
          exact ⟨.cons (.inr ⟨b, rfl, rfl⟩) hpassed, hrest hsent⟩

theorem map_ip_of_passedOver {buffers buffers' : List (Option AggregateBuffer)}
    (h : List.Forall₂ PassedOver buffers buffers') :
    ips buffers' = ips buffers := by
  induction h with
  | nil => rfl
  | cons hxy _ ih =>
    rw [ips, ips, List.map_cons, List.map_cons, ← ips, ← ips, ih]
    obtain rfl | ⟨b, rfl, rfl⟩ := hxy
    · rfl
    · rfl

/-- Every node comes from one that was passed over. -/
private theorem exists_of_passedOver {buffers buffers' : List (Option AggregateBuffer)}
    (h : List.Forall₂ PassedOver buffers buffers') {b' : AggregateBuffer}
    (hb' : some b' ∈ buffers') :
    some b' ∈ buffers ∨ ∃ b, some b ∈ buffers ∧ b' = b.resetBuffer := by
  induction h with
  | nil => exact absurd hb' List.not_mem_nil
  | cons hxy _ ih =>
    obtain rfl | hmem := List.mem_cons.mp hb'
    · obtain rfl | ⟨b, rfl, hreset⟩ := hxy
      · exact .inl List.mem_cons_self
      · exact .inr ⟨b, List.mem_cons_self, Option.some.inj hreset⟩
    · obtain hmem | ⟨b, hmem, hreset⟩ := ih hmem
      · exact .inl (List.mem_cons_of_mem _ hmem)
      · exact .inr ⟨b, List.mem_cons_of_mem _ hmem, hreset⟩

section Pass

variable {size : ℕ} {level : Level} {sourceIp : UInt32} {allocs : ℕ → FlushAllocs}
  {ls ls' : LevelState} {sent : List Aggregate}

/-- The history of a buffer that a pass has emptied is empty. -/
private theorem Keeps.passedOver {buffers buffers' : List (Option AggregateBuffer)}
    {held : UInt32 → List IpPacket} (h : Keeps size level buffers held)
    (hpassed : List.Forall₂ PassedOver buffers buffers') :
    Keeps size level buffers' fun d => if hasData buffers' d then held d else [] := by
  have hips := map_ip_of_passedOver hpassed
  have hunique := (onePerIp_congr hips).mpr h.unique
  refine ⟨h.of_ips hips ?_ ?_, ?_, ?_⟩
  · intro b' hb'
    have hdata := hunique.hasData_iff hb'
    obtain hmem | ⟨b, hmem, rfl⟩ := exists_of_passedOver hpassed hb'
    · have hholds := h.holds b' hmem
      by_cases hd : hasData buffers' b'.ip = true
      · rw [if_pos hd]
        exact hholds
      · rw [if_neg hd]
        refine ⟨rfl, hholds.len_eq, ?_⟩
        by_contra hne
        exact hd (hdata.mpr hne)
    · rw [if_neg fun hd => hdata.mp hd b.data_resetBuffer]
      exact (h.holds b hmem).reset
  · intro d hnil
    rw [eq_nil_of_chain hnil, ite_self]
    rfl
  · intro d p hp
    split_ifs at hp with hd
    · exact h.takes d p hp
    · exact absurd hp List.not_mem_nil
  · intro d
    split_ifs with hd
    · exact h.lt d
    · exact .inl rfl

/-- **A pass**: every aggregate that is sent is that of the packets held for its destination. -/
theorem Keeps.pass (h : Keeps size level ls.buffers ls.held)
    (hok : (SenderEvent.pass level allocs).apply size sourceIp ls = .ok (sent, ls')) :
    Keeps size level ls'.buffers ls'.held ∧
      ∀ a ∈ sent, ∃ d, ls.held d ≠ [] ∧ a = ⟨level, ls.held d,
        aggregateHeader level.proto
          (sizeofIphdr + (chain ((ls.held d).map level.recordOf)).length) sourceIp d ++
          chain ((ls.held d).map level.recordOf)⟩ := by
  rw [SenderEvent.apply] at hok
  obtain ⟨⟨out, buffers'⟩, hpass, hok⟩ := bind_eq_ok.mp hok
  cases hok
  obtain ⟨hpassed, hsent⟩ := buildAndSendFrom_cases (by simp) hpass
  refine ⟨h.passedOver hpassed, ?_⟩
  intro a ha
  obtain ⟨bytes, hbytes, rfl⟩ := List.mem_map.mp ha
  obtain ⟨b, hb, hdata, rfl⟩ := hsent bytes hbytes
  have hholds := h.holds b hb
  have hproto : level.proto < 256 := by cases level <;> decide
  have hd := (fields_aggregateHeader hproto (sizeofIphdr + b.data.length) sourceIp b.ip
    b.data).2.2.2
  refine ⟨b.ip, ?_, ?_⟩
  · intro hnil
    rw [hholds.data_eq, hnil] at hdata
    exact hdata rfl
  · rw [hd, ← hholds.data_eq]

end Pass

/-- **A packet of another protocol** can at most add an empty buffer. -/
theorem Keeps.bystander {size : ℕ} {sourceIp : UInt32} {p : Bystander} {ifaAddress : UInt32}
    {created : Bool} {expand : Expand} {ls ls' : LevelState} {sent : List Aggregate}
    (h : Keeps size p.level ls.buffers ls.held)
    (hok : (SenderEvent.bystander p ifaAddress created expand).apply size sourceIp ls =
      .ok (sent, ls')) :
    Keeps size p.level ls'.buffers ls'.held ∧ sent = [] := by
  rw [SenderEvent.apply] at hok
  obtain ⟨⟨verdict, skb', buffers⟩, hhook, hok⟩ := bind_eq_ok.mp hok
  cases hok
  refine ⟨?_, rfl⟩
  obtain ⟨level, skb, hlen, hpassed⟩ := p
  simp only [sizeofIphdr] at hlen
  cases level with
  | app =>
    simp only [Level.hook, aggregationLocalOutHook] at hhook
    rw [ipProtocol_eq (by omega), ok_bind, if_pos hpassed] at hhook
    cases hhook
    exact h
  | ip =>
    simp only [Level.hook, aggregationPostRoutingHook] at hhook
    obtain ⟨daddr, -, hhook⟩ := bind_eq_ok.mp hhook
    obtain ⟨⟨i, found⟩, hget, hpush⟩ := bind_eq_ok.mp hhook
    obtain ⟨hkeeps, ⟨pre, b, post, rfl, hip, rfl⟩ | ⟨rfl, hnone, hheld⟩⟩ := h.walk hget
    · rw [pushTo_append] at hpush
      obtain ⟨⟨verdict', skb'', b'⟩, hb', hpush⟩ := bind_eq_ok.mp hpush
      cases hpush
      rw [pushIpPacket_unsupported hlen hpassed hb']
      exact hkeeps
    · simp only [pushTo, hnone] at hpush
      cases hpush
      exact hkeeps

/-! ### The sender -/

/-- **What an aggregate contains**: behind its header it has the difference chain of its packets,
and all but the newest of them have been in a buffer together. -/
structure Aggregate.Sound (size : ℕ) (a : Aggregate) : Prop where
  ne_nil : a.packets ≠ []
  takes : ∀ p ∈ a.packets, a.level.Takes p
  tail_lt : a.packets.tail = [] ∨
    (chain (a.packets.tail.map a.level.recordOf)).length < size
  bytes_eq : ∃ saddr d, a.bytes =
    aggregateHeader a.level.proto (sizeofIphdr + (chain (a.packets.map a.level.recordOf)).length)
      saddr d ++ chain (a.packets.map a.level.recordOf)

/-- The invariant of the sender. -/
structure Sender.Inv (size : Level → ℕ) (s : Sender) : Prop where
  keeps : ∀ level, Keeps (size level) level (s.levels level).buffers (s.levels level).held
  sound : ∀ a ∈ s.aggregates, a.Sound (size a.level)

theorem Sender.inv_start (size : Level → ℕ) : Sender.start.Inv size where
  keeps level := keeps_nil (size level) level
  sound _ h := absurd h List.not_mem_nil

private theorem length_chain_tail_lt {level : Level} {size : ℕ} {ps : List IpPacket}
    (h : (chain (ps.map level.recordOf)).length < size) :
    (chain (ps.tail.map level.recordOf)).length < size := by
  cases ps with
  | nil => exact h
  | cons p ps =>
    rw [length_chain] at h ⊢
    rw [List.map_cons, List.map_cons, List.sum_cons] at h
    exact Nat.lt_of_le_of_lt (Nat.le_add_left _ _) h

/-- **One event at its level** keeps the invariant, and what leaves is sound. -/
theorem Keeps.apply {size : ℕ} {sourceIp : UInt32} {e : SenderEvent} {ls ls' : LevelState}
    {sent : List Aggregate} (h : Keeps size e.level ls.buffers ls.held)
    (hok : e.apply size sourceIp ls = .ok (sent, ls')) :
    Keeps size e.level ls'.buffers ls'.held ∧ ∀ a ∈ sent, a.level = e.level ∧ a.Sound size := by
  cases e with
  | packet o ifaAddress created expand =>
    obtain ⟨hkeeps, hcases⟩ := h.packet hok
    refine ⟨hkeeps, ?_⟩
    obtain ⟨-, rfl, -⟩ | ⟨-, -, rfl⟩ | ⟨-, rfl⟩ := hcases
    · simp
    · rw [List.forall_mem_singleton]
      exact ⟨rfl, List.cons_ne_nil _ _, List.forall_mem_cons.mpr ⟨o.takes, h.takes o.daddr⟩,
        h.lt o.daddr, ifaAddress, o.daddr, rfl⟩
    · simp
  | bystander p ifaAddress created expand =>
    obtain ⟨hkeeps, rfl⟩ := h.bystander hok
    exact ⟨hkeeps, by simp⟩
  | pass level allocs =>
    obtain ⟨hkeeps, hsent⟩ := h.pass hok
    refine ⟨hkeeps, ?_⟩
    intro a ha
    obtain ⟨d, hne, rfl⟩ := hsent a ha
    refine ⟨rfl, hne, h.takes d, ?_, sourceIp, d, rfl⟩
    exact (h.lt d).imp (fun hnil => absurd hnil hne) length_chain_tail_lt

section Step

variable {size : Level → ℕ} {sourceIp : UInt32} {s s' : Sender} {e : SenderEvent}

/-- A step is an event at its level. -/
theorem senderStep_ok (h : senderStep size sourceIp s e = .ok s') :
    ∃ sent ls, e.apply (size e.level) sourceIp (s.levels e.level) = .ok (sent, ls) ∧
      s' = ⟨Function.update s.levels e.level ls, s.aggregates ++ sent⟩ := by
  obtain ⟨⟨sent, ls⟩, happly, h⟩ := bind_eq_ok.mp h
  cases h
  exact ⟨sent, ls, happly, rfl⟩

theorem Sender.Inv.step (hinv : s.Inv size) (h : senderStep size sourceIp s e = .ok s') :
    s'.Inv size := by
  obtain ⟨sent, ls, happly, rfl⟩ := senderStep_ok h
  obtain ⟨hkeeps, hsent⟩ := (hinv.keeps e.level).apply happly
  constructor
  · intro level
    by_cases hlevel : level = e.level
    · subst hlevel
      simp only [Function.update_self]
      exact hkeeps
    · simp only [Function.update_of_ne hlevel]
      exact hinv.keeps level
  · intro a ha
    obtain ha | ha := List.mem_append.mp ha
    · exact hinv.sound a ha
    · obtain ⟨hlevel, hsound⟩ := hsent a ha
      rw [hlevel]
      exact hsound

/-- **The invariant over whole runs.** -/
theorem Sender.Inv.exec {es : List SenderEvent} (hinv : s.Inv size)
    (h : Run.execM (senderStep size sourceIp) s es = .ok s') : s'.Inv size :=
  Run.invariantM (P := Sender.Inv size) (C := fun _ => True) (fun _ _ _ hinv _ => hinv.step) hinv
    (fun _ _ => trivial) h

end Step

/-! ### Whose packets leave -/

/-- What is true of the packet of an event, if it is one that the hook takes. -/
def SenderEvent.Carries (Q : Level → IpPacket → Prop) : SenderEvent → Prop
  | packet o _ _ _ => Q o.level o.packet
  | _ => True

/-- All packets held or sent are of the kind `Q`. -/
structure Sender.All (Q : Level → IpPacket → Prop) (s : Sender) : Prop where
  held : ∀ level d, ∀ p ∈ (s.levels level).held d, Q level p
  sent : ∀ a ∈ s.aggregates, ∀ p ∈ a.packets, Q a.level p

section All

variable {Q : Level → IpPacket → Prop} {size : Level → ℕ} {sourceIp : UInt32} {s s' : Sender}

/-- An event adds no other packet than its own. -/
private theorem SenderEvent.apply_all {size : ℕ} {e : SenderEvent} {ls ls' : LevelState}
    {sent : List Aggregate} (he : e.Carries Q) (hheld : ∀ d, ∀ p ∈ ls.held d, Q e.level p)
    (hok : e.apply size sourceIp ls = .ok (sent, ls')) :
    (∀ d, ∀ p ∈ ls'.held d, Q e.level p) ∧ ∀ a ∈ sent, ∀ p ∈ a.packets, Q a.level p := by
  cases e with
  | packet o ifaAddress created expand =>
    obtain ⟨⟨verdict, skb, buffers⟩, -, hok⟩ := bind_eq_ok.mp hok
    cases hok
    have hall : ∀ p ∈ o.packet :: ls.held o.daddr, Q o.level p :=
      List.forall_mem_cons.mpr ⟨he, hheld o.daddr⟩
    constructor
    · intro d p hp
      by_cases hd : d = o.daddr
      · subst hd
        simp only [Function.update_self] at hp
        split_ifs at hp
        · exact hall p hp
        · exact absurd hp List.not_mem_nil
      · simp only [Function.update_of_ne hd] at hp
        exact hheld d p hp
    · intro a ha
      split_ifs at ha
      · rw [List.mem_singleton.mp ha]
        exact hall
      · exact absurd ha List.not_mem_nil
  | bystander p ifaAddress created expand =>
    obtain ⟨⟨verdict, skb, buffers⟩, -, hok⟩ := bind_eq_ok.mp hok
    cases hok
    exact ⟨hheld, by simp⟩
  | pass level allocs =>
    obtain ⟨⟨out, buffers⟩, -, hok⟩ := bind_eq_ok.mp hok
    cases hok
    constructor
    · intro d p hp
      simp only at hp
      split_ifs at hp
      · exact hheld d p hp
      · exact absurd hp List.not_mem_nil
    · intro a ha
      obtain ⟨bytes, -, rfl⟩ := List.mem_map.mp ha
      exact hheld _

private theorem Sender.All.step {e : SenderEvent} (hall : s.All Q) (he : e.Carries Q)
    (h : senderStep size sourceIp s e = .ok s') : s'.All Q := by
  obtain ⟨sent, ls, happly, rfl⟩ := senderStep_ok h
  obtain ⟨hheld, hsent⟩ := SenderEvent.apply_all he (hall.held e.level) happly
  constructor
  · intro level
    by_cases hlevel : level = e.level
    · subst hlevel
      simp only [Function.update_self]
      exact hheld
    · simp only [Function.update_of_ne hlevel]
      exact hall.held level
  · intro a ha
    obtain ha | ha := List.mem_append.mp ha
    · exact hall.sent a ha
    · exact hsent a ha

/-- **Over whole runs** only packets of the run are held and sent. -/
theorem Sender.All.exec {es : List SenderEvent} (hall : s.All Q) (hes : ∀ e ∈ es, e.Carries Q)
    (h : Run.execM (senderStep size sourceIp) s es = .ok s') : s'.All Q :=
  Run.invariantM (fun _ _ _ hall he => hall.step he) hall hes h

end All

/-! ### A hook that is granted its allocations -/

private theorem none_notMem_of_getBufferFor {size : ℕ} {d : UInt32} {i : ℕ}
    {buffers buffers' : List (Option AggregateBuffer)}
    (h : getBufferFor size true d buffers = .ok (i, buffers')) (hnone : none ∉ buffers) :
    none ∉ buffers' := by
  obtain ⟨pre, b, post, -, -, -, rfl⟩ | ⟨-, -, rfl⟩ := getBufferFor_cases h
  · exact hnone
  · simpa [createAggregateBuffer] using hnone

/-- **The hook returns** while no buffer is missing, and then none is missing. -/
theorem Keeps.packet_returns {size : ℕ} {o : Offer} {ls : LevelState} (sourceIp ifaAddress : UInt32)
    (expand : Expand) (h : Keeps size o.level ls.buffers ls.held) (hnone : none ∉ ls.buffers) :
    ∃ sent ls', (SenderEvent.packet o ifaAddress true expand).apply size sourceIp ls =
      .ok (sent, ls') ∧ none ∉ ls'.buffers := by
  obtain ⟨⟨i, found⟩, hget⟩ := getBufferFor_returns size true o.daddr hnone
  have hnone' := none_notMem_of_getBufferFor hget hnone
  obtain ⟨hkeeps, ⟨pre, b, post, rfl, hip, rfl⟩ | ⟨hcreated, -, -⟩⟩ := h.walk hget
  swap
  · cases hcreated
  have hb : b.Holds o.daddr size (chain ((ls.held o.daddr).map o.level.recordOf)) := by
    have := hkeeps.holds b (by simp)
    rwa [hip] at this
  have hpush : ∃ r, o.level.push ifaAddress expand b o.skb = .ok r := by
    by_cases hfit : (o.stacked ls.held).length < size
    · obtain ⟨b', hstolen, -⟩ := o.level.push_stolen ifaAddress expand
        (show o.skb.data = o.packet.bytes from rfl) o.takes (hkeeps.takes o.daddr) hb hfit
      exact ⟨_, hstolen⟩
    · obtain ⟨skb', b', haccept, -⟩ := o.level.push_accept ifaAddress expand
        (show o.skb.data = o.packet.bytes from rfl) o.takes (hkeeps.takes o.daddr) hb
        (Nat.le_of_not_lt hfit)
      exact ⟨_, haccept⟩
  obtain ⟨⟨verdict, skb', b'⟩, hpush⟩ := hpush
  have hhook := o.level.hook_eq size ifaAddress true expand ls.buffers
    (show o.skb.data = o.packet.bytes from rfl) o.takes
  rw [show daddrOf o.packet.bytes = o.daddr from rfl, hget, ok_bind, pushTo_append, hpush,
    ok_bind] at hhook
  refine ⟨_, _, by rw [SenderEvent.apply, hhook, ok_bind], ?_⟩
  simpa using hnone'

end MiaVita
