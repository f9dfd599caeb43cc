import MiaVita.FredFramework.Sender

/-!
# Buffers that cannot be created (`aggregation/aggregation.c`)

The hooks look for the buffer of a packet's destination and create one if there is none.
`get_app_buffer_for` and `get_ip_buffer_for` add what `create_aggregate_buffer` returns to their
list without looking at it; if there was no memory, that is `NULL`. The packet is passed on, but the
node stays, and the next walk that comes to it reads through a null pointer: that of a later packet
for another destination, and every pass of the flush thread.

The runs here are more general than those of `Sender`: any socket buffer may reach a hook, and
nothing is assumed about it. `NotPoisoned` is what one would like to have of them, and
`notPoisoned_iff` says that only runs in which no creation fails have it.
-/

namespace MiaVita

open Bytes Memory Fallible

/-! ### Runs -/

/-- What reaches the aggregation module: a packet at one of the hooks, with the outcomes of the
allocations that the hook may ask for, or a pass of the flush thread. -/
inductive HookEvent where
  | hook (level : Level) (skb : SkBuff) (ifaAddress : UInt32) (created : Bool) (expand : Expand)
  | pass (level : Level) (allocs : ℕ → FlushAllocs)

/-- `app_buffers` and `ip_buffers`. -/
abbrev BufferLists := Level → List (Option AggregateBuffer)

/-- `init_buffers`. -/
def initBuffers : BufferLists := fun _ => []

/-- One event. -/
def packetStep (size : Level → ℕ) (sourceIp : UInt32) (s : BufferLists) :
    HookEvent → Except Fault BufferLists
  | .hook level skb ifaAddress created expand => do
    let (_, _, buffers) ← level.hook (size level) ifaAddress created expand (s level) skb
    .ok (Function.update s level buffers)
  | .pass level allocs => do
    let (_, buffers) ← buildAndSendPackets level.proto sourceIp allocs (s level)
    .ok (Function.update s level buffers)

/-- The hook looks for the buffer of the destination `d`. -/
def Level.LooksFor (level : Level) (skb : SkBuff) (d : UInt32) : Prop :=
  (level = .app → ipProtocol skb.data 0 = .ok ipprotoUdp) ∧ ipDaddr skb.data 0 = .ok d

/-- A buffer is to be created, and there is no memory for it. -/
def CreationFails (s : BufferLists) : HookEvent → Prop
  | .hook level skb _ created _ => created = false ∧ none ∉ s level ∧
      ∃ d, level.LooksFor skb d ∧ ∀ b, some b ∈ s level → b.ip ≠ d
  | .pass _ _ => False

/-- What should be true of a run: wherever it comes to, all the entries are buffers, with at most
one for a destination; and a packet whose buffer cannot be created is passed on as it is, and leaves
everything as if it had never been seen. -/
structure NotPoisoned (size : Level → ℕ) (sourceIp : UInt32) (es : List HookEvent) : Prop where
  live : ∀ n s, Run.execM (packetStep size sourceIp) initBuffers (es.take n) = .ok s →
    ∀ level, none ∉ s level
  one : ∀ n s, Run.execM (packetStep size sourceIp) initBuffers (es.take n) = .ok s →
    ∀ level, OnePerIp (s level)
  ignored : ∀ n s level skb ifaAddress created expand,
    Run.execM (packetStep size sourceIp) initBuffers (es.take n) = .ok s →
    es[n]? = some (.hook level skb ifaAddress created expand) →
    CreationFails s (.hook level skb ifaAddress created expand) →
    level.hook (size level) ifaAddress created expand (s level) skb = .ok (.accept, skb, s level)

/-! ### The destination of a buffer -/

section Ip

variable {b b' : AggregateBuffer} {skb skb' : SkBuff} {ifaAddress : UInt32} {expand : Expand}
  {verdict : Verdict}

private theorem ip_of_storeAt {i : ℕ} {xs : List UInt8} (h : b.storeAt i xs = .ok b') :
    b'.ip = b.ip := by
  rw [AggregateBuffer.storeAt] at h
  split_ifs at h
  cases h
  rfl

private theorem ip_of_restamp {m : List UInt8} {pdu pushed : ℕ}
    (h : restamp b pdu m pushed = .ok b') :
    b'.ip = b.ip := by
  obtain ⟨new, -, h⟩ := bind_eq_ok.mp h
  obtain ⟨old, -, h⟩ := bind_eq_ok.mp h
  exact ip_of_storeAt h

private theorem ip_of_pushOrPanic {m : List UInt8} {start len : ℕ}
    (h : pushOrPanic b m start len = .ok b') : b'.ip = b.ip := by
  obtain ⟨bytes, -, h⟩ := bind_eq_ok.mp h
  rw [AggregateBuffer.pushBytes] at h
  split_ifs at h
  cases h
  rfl

private theorem ip_of_flushBuffer {protocol len : ℕ}
    (h : flushBuffer protocol len ifaAddress expand skb b = .ok (skb', b')) : b'.ip = b.ip := by
  obtain ⟨skb₁, hflush⟩ := flushBuffer_returns protocol len ifaAddress expand skb b
  cases hflush.symm.trans h
  rfl

private theorem ip_of_pushAppPacket
    (h : pushAppPacket ifaAddress expand b skb = .ok (verdict, skb', b')) :
    b'.ip = b.ip := by
  obtain ⟨protocol, -, h⟩ := bind_eq_ok.mp h
  split_ifs at h
  · cases h
    rfl
  obtain ⟨ihl, -, h⟩ := bind_eq_ok.mp h
  obtain ⟨totLen, -, h⟩ := bind_eq_ok.mp h
  obtain ⟨b₁, hb₁, h⟩ := bind_eq_ok.mp h
  -- a new timestamp is written to the bytes of the buffer only
  have hip : b₁.ip = b.ip := by
    rw [restampUdp] at hb₁
    split at hb₁
    · cases hb₁
      rfl
    · exact ip_of_restamp hb₁
  rw [← hip]
  split_ifs at h
  · obtain ⟨⟨skb₂, b₂⟩, hflush, h⟩ := bind_eq_ok.mp h
    cases h
    obtain ⟨_, -, hflush⟩ := bind_eq_ok.mp hflush
    obtain ⟨_, -, hflush⟩ := bind_eq_ok.mp hflush
    exact ip_of_flushBuffer hflush
  · obtain ⟨b₂, hpush, h⟩ := bind_eq_ok.mp h
    cases h
    exact ip_of_pushOrPanic hpush

private theorem ip_of_pushIpPacket
    (h : pushIpPacket ifaAddress expand b skb = .ok (verdict, skb', b')) :
    b'.ip = b.ip := by
  obtain ⟨totLen, -, h⟩ := bind_eq_ok.mp h
  obtain ⟨peeked, -, h⟩ := bind_eq_ok.mp h
  split_ifs at h
  · cases h
    rfl
  obtain ⟨protocol, -, h⟩ := bind_eq_ok.mp h
  split_ifs at h
  · cases h
    rfl
  obtain ⟨ihl, -, h⟩ := bind_eq_ok.mp h
  obtain ⟨b₁, hb₁, h⟩ := bind_eq_ok.mp h
  have hip : b₁.ip = b.ip := by
    cases peeked with
    | pdu address => exact ip_of_restamp hb₁
    | nothing =>
      cases hb₁
      rfl
    | unsupported =>
      cases hb₁
      rfl
  rw [← hip]
  split_ifs at h
  · obtain ⟨⟨skb₂, b₂⟩, hflush, h⟩ := bind_eq_ok.mp h
    cases h
    obtain ⟨_, -, hflush⟩ := bind_eq_ok.mp hflush
    exact ip_of_flushBuffer hflush
  · obtain ⟨b₂, hpush, h⟩ := bind_eq_ok.mp h
    cases h
    exact ip_of_pushOrPanic hpush

/-- A buffer keeps its destination. -/
private theorem ip_of_push (level : Level)
    (h : level.push ifaAddress expand b skb = .ok (verdict, skb', b')) : b'.ip = b.ip := by
  cases level with
  | app => exact ip_of_pushAppPacket h
  | ip => exact ip_of_pushIpPacket h

end Ip

/-! ### The hooks and the pass -/

section Hook

variable {level : Level} {size : ℕ} {ifaAddress : UInt32} {created : Bool} {expand : Expand}
  {buffers buffers' : List (Option AggregateBuffer)} {skb skb' : SkBuff} {verdict : Verdict}
  {d : UInt32} {i : ℕ}

/-- A walk that finds no buffer has come to no entry without one. -/
private theorem none_notMem_of_walk (h : getBufferFor size created d buffers = .ok (i, buffers'))
    (habsent : ∀ b, some b ∈ buffers → b.ip ≠ d) : none ∉ buffers := by
  induction buffers generalizing i buffers' with
  | nil => exact List.not_mem_nil
  | cons x buffers ih =>
    cases x with
    | none => cases h
    | some ab =>
      rw [getBufferFor, if_neg (habsent ab List.mem_cons_self)] at h
      obtain ⟨⟨j, rest⟩, hrest, -⟩ := bind_eq_ok.mp h
      have hnone := ih hrest fun b hb => habsent b (List.mem_cons_of_mem _ hb)
      exact fun hmem => hnone ((List.mem_cons.mp hmem).resolve_left (by simp))

/-- A walk past buffers for other destinations adds an entry. -/
private theorem getBufferFor_of_absent (hnone : none ∉ buffers)
    (habsent : ∀ b, some b ∈ buffers → b.ip ≠ d) :
    getBufferFor size created d buffers =
      .ok (buffers.length, buffers ++ [createAggregateBuffer size d created]) := by
  obtain ⟨⟨i, found⟩, hget⟩ := getBufferFor_returns size created d hnone
  obtain ⟨pre, b, post, rfl, hip, -, -⟩ | ⟨-, rfl, rfl⟩ := getBufferFor_cases hget
  · exact absurd hip (habsent b (by simp))
  · exact hget

/-- The hook, on a packet whose buffer it looks for. -/
private theorem hook_of_looksFor (h : level.LooksFor skb d) :
    level.hook size ifaAddress created expand buffers skb =
      getBufferFor size created d buffers >>= fun r =>
        pushTo (level.push ifaAddress expand) r.1 r.2 skb := by
  obtain ⟨hprotocol, hdaddr⟩ := h
  cases level with
  | app =>
    rw [Level.hook, aggregationLocalOutHook, hprotocol rfl, ok_bind, if_neg (by decide), hdaddr,
      ok_bind]
    rfl
  | ip =>
    rw [Level.hook, aggregationPostRoutingHook, hdaddr, ok_bind]
    rfl

/-- Any other packet changes nothing. -/
private theorem hook_cases (h : level.hook size ifaAddress created expand buffers skb =
      .ok (verdict, skb', buffers')) :
    buffers' = buffers ∨ ∃ d, level.LooksFor skb d := by
  cases level with
  | app =>
    rw [Level.hook, aggregationLocalOutHook] at h
    obtain ⟨protocol, hprotocol, h⟩ := bind_eq_ok.mp h
    split_ifs at h with hudp
    · cases h
      exact .inl rfl
    · obtain ⟨d, hdaddr, -⟩ := bind_eq_ok.mp h
      rw [not_not.mp hudp] at hprotocol
      exact .inr ⟨d, fun _ => hprotocol, hdaddr⟩
  | ip =>
    rw [Level.hook, aggregationPostRoutingHook] at h
    obtain ⟨d, hdaddr, -⟩ := bind_eq_ok.mp h
    exact .inr ⟨d, fun hlevel => absurd hlevel (by decide), hdaddr⟩

/-- **What a hook does to the list**: the destinations stay as they are, or an entry is added for
one that had none; it is empty if the buffer could not be created. -/
theorem ips_of_hook (h : level.hook size ifaAddress created expand buffers skb =
      .ok (verdict, skb', buffers')) :
    ips buffers' = ips buffers ∨
      ∃ d, level.LooksFor skb d ∧ none ∉ buffers ∧ (∀ b, some b ∈ buffers → b.ip ≠ d) ∧
        ips buffers' = ips buffers ++ [if created then some d else none] := by
  obtain rfl | ⟨d, hlooks⟩ := hook_cases h
  · exact .inl rfl
  rw [hook_of_looksFor hlooks] at h
  obtain ⟨⟨i, found⟩, hget, hpush⟩ := bind_eq_ok.mp h
  obtain ⟨pre, b, post, rfl, hip, rfl, rfl⟩ | ⟨habsent, rfl, rfl⟩ := getBufferFor_cases hget
  · rw [pushTo_append] at hpush
    obtain ⟨⟨verdict₁, skb₁, b₁⟩, hb₁, hpush⟩ := bind_eq_ok.mp hpush
    cases hpush
    left
    rw [ips, ips, List.map_append, List.map_append, List.map_cons, List.map_cons,
      Option.map_some, Option.map_some, ip_of_push level hb₁]
  · refine .inr ⟨d, hlooks, none_notMem_of_walk hget habsent, habsent, ?_⟩
    cases created with
    | false =>
      -- the hook tests what it got, and pushes nothing
      have hnode : (buffers ++ [createAggregateBuffer size d false])[buffers.length]? =
          some none := by
        simp [createAggregateBuffer]
      simp only [pushTo, hnode] at hpush
      cases hpush
      rw [ips, List.map_append]
      rfl
    | true =>
      obtain ⟨b, hcreate, hb⟩ := AggregateBuffer.holds_create size d
      rw [hcreate, pushTo_append] at hpush
      obtain ⟨⟨verdict₁, skb₁, b₁⟩, hb₁, hpush⟩ := bind_eq_ok.mp hpush
      cases hpush
      rw [ips, List.map_append, List.map_singleton, Option.map_some, ip_of_push level hb₁,
        hb.ip_eq]
      rfl

/-- **A buffer that cannot be created**: the packet is passed on, and the list has an entry without
a buffer from then on. -/
theorem hook_of_creationFails (hlooks : level.LooksFor skb d) (hnone : none ∉ buffers)
    (habsent : ∀ b, some b ∈ buffers → b.ip ≠ d) :
    level.hook size ifaAddress false expand buffers skb =
      .ok (.accept, skb, buffers ++ [none]) := by
  have hnode : (buffers ++ [none])[buffers.length]? = some (none : Option AggregateBuffer) := by
    simp
  rw [hook_of_looksFor hlooks, getBufferFor_of_absent hnone habsent, ok_bind]
  simp only [createAggregateBuffer, Bool.false_eq_true, if_false, pushTo, hnode]

end Hook

/-! ### Steps and runs -/

section Step

variable {size : Level → ℕ} {sourceIp : UInt32} {s s' : BufferLists} {e : HookEvent}

/-- **What an event does to a list.** -/
theorem ips_of_packetStep (h : packetStep size sourceIp s e = .ok s') (level : Level) :
    ips (s' level) = ips (s level) ∨
      ∃ skb ifaAddress created expand d, e = .hook level skb ifaAddress created expand ∧
        level.LooksFor skb d ∧ none ∉ s level ∧ (∀ b, some b ∈ s level → b.ip ≠ d) ∧
        ips (s' level) = ips (s level) ++ [if created then some d else none] := by
  cases e with
  | hook level' skb ifaAddress created expand =>
    obtain ⟨⟨verdict, skb', buffers⟩, hhook, h⟩ := bind_eq_ok.mp h
    cases h
    by_cases hlevel : level = level'
    · subst hlevel
      rw [Function.update_self]
      refine (ips_of_hook hhook).imp_right ?_
      rintro ⟨d, hlooks⟩
      exact ⟨skb, ifaAddress, created, expand, d, rfl, hlooks⟩
    · rw [Function.update_of_ne hlevel]
      exact .inl rfl
  | pass level' allocs =>
    obtain ⟨⟨sent, buffers⟩, hpass, h⟩ := bind_eq_ok.mp h
    cases h
    -- a pass empties buffers, and leaves the nodes in the list
    left
    by_cases hlevel : level = level'
    · subst hlevel
      rw [Function.update_self]
      exact map_ip_of_passedOver (buildAndSendFrom_cases (by simp) hpass).1
    · rw [Function.update_of_ne hlevel]

/-- There is at most one buffer for a destination, whatever happens. -/
private theorem onePerIp_step (h : packetStep size sourceIp s e = .ok s')
    (hs : ∀ level, OnePerIp (s level)) (level : Level) : OnePerIp (s' level) := by
  obtain hips | ⟨skb, ifaAddress, created, expand, d, -, -, -, habsent, hips⟩ :=
    ips_of_packetStep h level
  · exact (onePerIp_congr hips).mpr (hs level)
  · refine onePerIp_concat (hs level) (fun d' hd' => ?_) habsent hips
    split_ifs at hd'
    · exact (Option.some.inj hd').symm
    · cases hd'

private theorem onePerIp_exec {es : List HookEvent}
    (h : Run.execM (packetStep size sourceIp) initBuffers es = .ok s) (level : Level) :
    OnePerIp (s level) := by
  have hinit : ∀ level, OnePerIp (initBuffers level) := fun _ => List.Pairwise.nil
  exact Run.invariantM (P := fun s : BufferLists => ∀ level, OnePerIp (s level))
    (C := fun _ => True) (fun _ _ _ hs _ hstep => onePerIp_step hstep hs) hinit
    (fun _ _ => trivial) h level

/-- **A step leaves an entry without a buffer** exactly if a creation fails in it. -/
theorem live_step_iff (hs : ∀ level, none ∉ s level) :
    (∀ s', packetStep size sourceIp s e = .ok s' → ∀ level, none ∉ s' level) ↔
      ¬ CreationFails s e := by
  constructor
  · intro h hfails
    cases e with
    | pass level allocs => exact hfails
    | hook level skb ifaAddress created expand =>
      obtain ⟨rfl, hnone, d, hlooks, habsent⟩ := hfails
      have hstep : packetStep size sourceIp s (.hook level skb ifaAddress false expand) =
          .ok (Function.update s level (s level ++ [none])) := by
        rw [packetStep, hook_of_creationFails hlooks hnone habsent, ok_bind]
      refine h _ hstep level ?_
      rw [Function.update_self]
      exact List.mem_append_right _ (List.mem_singleton_self none)
  · intro hfails s' h level hnone
    -- an entry without a buffer is new, and so comes from a creation
    rw [← none_mem_ips_iff] at hnone
    obtain hips | ⟨skb, ifaAddress, created, expand, d, rfl, hlooks, hlive, habsent, hips⟩ :=
      ips_of_packetStep h level
    · rw [hips, none_mem_ips_iff] at hnone
      exact hs level hnone
    · rw [hips, List.mem_append, none_mem_ips_iff, List.mem_singleton] at hnone
      have hcreated := hnone.resolve_left hlive
      split_ifs at hcreated with htrue
      exact hfails ⟨Bool.eq_false_iff.mpr htrue, hlive, d, hlooks, habsent⟩

end Step

/-- **A run is not poisoned** exactly if no creation of a buffer that it asks for fails. -/
theorem notPoisoned_iff (size : Level → ℕ) (sourceIp : UInt32) (es : List HookEvent) :
    NotPoisoned size sourceIp es ↔
      Run.AllStepsM (packetStep size sourceIp) (fun s e => ¬ CreationFails s e) initBuffers es := by
  have hlive : (∀ n s, Run.execM (packetStep size sourceIp) initBuffers (es.take n) = .ok s →
        ∀ level, none ∉ s level) ↔
      Run.AllStepsM (packetStep size sourceIp) (fun s e => ¬ CreationFails s e) initBuffers es :=
    Run.forall_reachedM_iff (P := fun s : BufferLists => ∀ level, none ∉ s level)
      (fun s e hs => live_step_iff hs) (fun level => List.not_mem_nil) es
  constructor
  · exact fun h => hlive.mp h.live
  · intro h
    refine ⟨hlive.mpr h, fun n s hrun level => onePerIp_exec hrun level, ?_⟩
    intro n s level skb ifaAddress created expand hrun he hfails
    exact absurd hfails (h.reached he hrun)

/-- A datagram for 10.0.0.x. -/
def datagramTo (x : UInt8) : SkBuff where
  headroom := 0
  data := [0x45, 0, 0, 36, 0, 0, 0, 0, 64, 17, 0, 0, 10, 0, 0, 1, 10, 0, 0, x,
    0, 7, 0, 9, 0, 16, 0, 0, 0, 0, 0, 0, 0, 0, 0, 5]
  tailroom := 0

/-- **One failed creation**: the packet is passed on, and the next packet for another destination
stops the kernel, as does the next pass of the flush thread. -/
theorem creation_poisons :
    (∃ s, Run.execM (packetStep (fun _ => 100) 7) initBuffers
        [.hook .app (datagramTo 2) 7 false .ok] = .ok s ∧ s .app = [none]) ∧
    Run.execM (packetStep (fun _ => 100) 7) initBuffers
        [.hook .app (datagramTo 2) 7 false .ok, .hook .app (datagramTo 3) 7 true .ok] =
      .error .null ∧
    Run.execM (packetStep (fun _ => 100) 7) initBuffers
        [.hook .app (datagramTo 2) 7 false .ok, .pass .app FlushAllocs.ok] = .error .null ∧
    ¬ NotPoisoned (fun _ => 100) 7
      [.hook .app (datagramTo 2) 7 false .ok, .hook .app (datagramTo 3) 7 true .ok] := by
  have hfirst : Run.execM (packetStep (fun _ => 100) 7) initBuffers
      [.hook .app (datagramTo 2) 7 false .ok] = .ok (Function.update initBuffers .app [none]) := rfl
  refine ⟨⟨_, hfirst, rfl⟩, rfl, rfl, fun h => ?_⟩
  exact h.live 1 _ hfirst .app (List.mem_singleton_self none)

end MiaVita
