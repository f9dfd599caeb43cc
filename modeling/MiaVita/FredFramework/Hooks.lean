import MiaVita.FredFramework.Headers
import MiaVita.FredFramework.Registry

/-!
# The netfilter hooks (`fred_framework`, `hooks.c`)

A hook goes through the chain of its entry point and calls the callback of each filter that matches
the packet, until one of them decides something else than `NF_ACCEPT`. The five hooks of the source
are copies of one function, `nfIpHook` here.

A callback may do anything to the packet and to the rest of the system, which are the world `σ`
here; it does not change the chains. A hook is compared with `dispatch`, which has a list of filters
instead of a chain, and `Dispatched` says in terms of the calls that were made what such a list
gives.

The main result, `hooks_dispatch_by_priority`, reads the hooks off what the chains hold after any
history of registrations.
-/

namespace MiaVita.Framework

open LinkedList PriorityOrder Memory Bytes Fallible

/-! ### Matching -/

section Matching

variable {α : Type}

/-- A read from the packet. -/
def packetRead : Except Fault α → Except Crash α
  | .ok a => .ok a
  | .error e => .error (.packet e)

/-- `iph->saddr`, as the processor loads it. -/
def ipSaddrBe (m : List UInt8) (iph : ℕ) : Except Fault UInt32 :=
  load (fun bs => UInt32.ofNat (leVal bs)) m (iph + 12) 4

/-- `iph->daddr`, as the processor loads it. -/
def ipDaddrBe (m : List UInt8) (iph : ℕ) : Except Fault UInt32 :=
  load (fun bs => UInt32.ofNat (leVal bs)) m (iph + 16) 4

/-- `udph->source`, as the processor loads it. -/
def udpSourceBe (m : List UInt8) (udph : ℕ) : Except Fault UInt16 :=
  load (fun bs => UInt16.ofNat (leVal bs)) m udph 2

/-- `udph->dest`, as the processor loads it. -/
def udpDestBe (m : List UInt8) (udph : ℕ) : Except Fault UInt16 :=
  load (fun bs => UInt16.ofNat (leVal bs)) m (udph + 2) 2

/-- One criterion, `!((sp->filter_by & bit) && x != field)`. -/
def criterion [DecidableEq α] (sp : FilterSpecs) (bit : UInt8) (x : α) (field : Except Fault α) :
    Except Crash Bool :=
  if sp.filterBy &&& bit = 0 then .ok true
  else do
    let y ← packetRead field
    return decide (x = y)

/-- An address of the outer header against the specification of a filter. -/
def matchAddr (s : Chains) (bit : UInt8) (wanted : FilterSpecs → UInt32)
    (field : List UInt8 → ℕ → Except Fault UInt32) (f : ℕ) (skb : List UInt8) :
    Except Crash Bool := do
  let r ← s.filter f
  let sp ← s.spec r.filterSpecs
  criterion sp bit (wanted sp) (field skb 0)

/-- `match_src_addr`. -/
def matchSrcAddr (s : Chains) : ℕ → List UInt8 → Except Crash Bool :=
  matchAddr s filterBySrcAddr FilterSpecs.srcAddr ipSaddrBe

/-- `match_dst_addr`. -/
def matchDstAddr (s : Chains) : ℕ → List UInt8 → Except Crash Bool :=
  matchAddr s filterByDstAddr FilterSpecs.dstAddr ipDaddrBe

/-- The header whose ports are compared: inside an aggregate of IP packets, the first of them. -/
def innerHeader (skb : List UInt8) : Except Crash ℕ := do
  let protocol ← packetRead (ipProtocol skb 0)
  if protocol = agregatedIpEncapIpProto then do
    let ihl ← packetRead (ipIhl skb 0)
    return 4 * ihl
  else return 0

/-- `match_ports`. -/
def matchPorts (s : Chains) (f : ℕ) (skb : List UInt8) : Except Crash Bool := do
  let r ← s.filter f
  let iph ← innerHeader skb
  let protocol ← packetRead (ipProtocol skb iph)
  if protocol = agregatedApplicationEncapUdpProto ∨ protocol = ipprotoUdp then do
    let ihl ← packetRead (ipIhl skb iph)
    let sp ← s.spec r.filterSpecs
    let dst ← criterion sp filterByDstPort sp.dstPort (udpDestBe skb (iph + 4 * ihl))
    if dst then criterion sp filterBySrcPort sp.srcPort (udpSourceBe skb (iph + 4 * ihl))
    else return false
  else return false

/-- `match_filter`. -/
def matchFilter (s : Chains) (f : ℕ) (skb : List UInt8) : Except Crash Bool := do
  let src ← matchSrcAddr s f skb
  if src then do
    let dst ← matchDstAddr s f skb
    if dst then matchPorts s f skb
    else return false
  else return false

/-- Nothing matches a filter that was freed: looking is an access to it. -/
private theorem matchFilter_of_freed {s : Chains} {f : ℕ} (h : s.filters f = none)
    (skb : List UInt8) :
    matchFilter s f skb = .error (.freed f) := by
  rw [matchFilter, matchSrcAddr, matchAddr, Chains.filter, h]
  rfl

/-- The same for a filter whose specification was freed. -/
theorem matchFilter_of_freed_specs {s : Chains} {f : ℕ} {r : Filter} (hf : s.filters f = some r)
    (h : s.specs r.filterSpecs = none) (skb : List UInt8) :
    matchFilter s f skb = .error (.freed r.filterSpecs) := by
  rw [matchFilter, matchSrcAddr, matchAddr, Chains.filter_ok hf, ok_bind, Chains.spec, h]
  rfl

/-- The comparison of the ports, given the specification. -/
def portsMatch (sp : FilterSpecs) (skb : List UInt8) : Except Crash Bool := do
  let iph ← innerHeader skb
  let protocol ← packetRead (ipProtocol skb iph)
  if protocol = agregatedApplicationEncapUdpProto ∨ protocol = ipprotoUdp then do
    let ihl ← packetRead (ipIhl skb iph)
    let dst ← criterion sp filterByDstPort sp.dstPort (udpDestBe skb (iph + 4 * ihl))
    if dst then criterion sp filterBySrcPort sp.srcPort (udpSourceBe skb (iph + 4 * ihl))
    else return false
  else return false

/-- Whether a packet has what a specification asks for. -/
def specsMatch (sp : FilterSpecs) (skb : List UInt8) : Except Crash Bool := do
  let src ← criterion sp filterBySrcAddr sp.srcAddr (ipSaddrBe skb 0)
  if src then do
    let dst ← criterion sp filterByDstAddr sp.dstAddr (ipDaddrBe skb 0)
    if dst then portsMatch sp skb
    else return false
  else return false

/-- **A filter that is allocated with its specification** matches what the specification asks for.
-/
theorem matchFilter_eq {s : Chains} {f : ℕ} {r : Filter} {sp : FilterSpecs}
    (hf : s.filters f = some r) (hsp : s.specs r.filterSpecs = some sp) (skb : List UInt8) :
    matchFilter s f skb = specsMatch sp skb := by
  rw [matchFilter, specsMatch, matchSrcAddr, matchDstAddr, matchAddr, matchAddr, matchPorts,
    portsMatch]
  simp only [Chains.filter_ok hf, Chains.spec_ok hsp, ok_bind]

/-- A computation that does not touch what was freed. -/
def NotFreed (x : Except Crash α) : Prop := ∀ p, x ≠ .error (.freed p)

private theorem notFreed_ok (a : α) : NotFreed (.ok a : Except Crash α) := fun _ h => nomatch h

private theorem NotFreed.bind {β : Type} {x : Except Crash α} {g : α → Except Crash β}
    (hx : NotFreed x) (hg : ∀ a, NotFreed (g a)) : NotFreed (x >>= g) := by
  cases x with
  | error e =>
    intro p h
    exact hx p (by rw [error_bind] at h; cases h; rfl)
  | ok a => exact hg a

private theorem notFreed_packetRead (x : Except Fault α) : NotFreed (packetRead x) := by
  cases x with
  | error e => exact fun _ h => nomatch h
  | ok a => exact notFreed_ok a

private theorem notFreed_criterion [DecidableEq α] (sp : FilterSpecs) (bit : UInt8) (x : α)
    (field : Except Fault α) : NotFreed (criterion sp bit x field) := by
  rw [criterion]
  split_ifs
  · exact notFreed_ok true
  · exact (notFreed_packetRead field).bind fun y => notFreed_ok _

private theorem notFreed_ite {c : Prop} [Decidable c] {x y : Except Crash α} (hx : NotFreed x)
    (hy : NotFreed y) : NotFreed (if c then x else y) := by
  split_ifs
  · exact hx
  · exact hy

/-- Reading a packet touches nothing but the packet. -/
theorem notFreed_specsMatch (sp : FilterSpecs) (skb : List UInt8) :
    NotFreed (specsMatch sp skb) := by
  have hinner : NotFreed (innerHeader skb) :=
    (notFreed_packetRead _).bind fun protocol => notFreed_ite
      ((notFreed_packetRead _).bind fun ihl => notFreed_ok _) (notFreed_ok _)
  have hports : NotFreed (portsMatch sp skb) :=
    hinner.bind fun iph => (notFreed_packetRead _).bind fun protocol => notFreed_ite
      ((notFreed_packetRead _).bind fun ihl => (notFreed_criterion sp _ _ _).bind fun dst =>
        notFreed_ite (notFreed_criterion sp _ _ _) (notFreed_ok _)) (notFreed_ok _)
  exact (notFreed_criterion sp _ _ _).bind fun src => notFreed_ite
    ((notFreed_criterion sp _ _ _).bind fun dst => notFreed_ite hports (notFreed_ok _))
    (notFreed_ok _)

end Matching

/-! ### The hooks -/

/-- `NF_ACCEPT`. -/
abbrev nfAccept : UInt32 := 1

/-- What the hooks work with: where the packet is in the world, and what the callback behind a
function pointer does when it is called with a specification. -/
structure Interceptors (σ : Type) where
  packet : σ → List UInt8
  apply : ℕ → ℕ → σ → UInt32 × σ

/-- What a hook did: the filters whose callbacks it called, with their verdicts, then its own
verdict and what the callbacks made of the world. -/
structure Outcome (σ : Type) where
  calls : List (ℕ × UInt32)
  verdict : UInt32
  world : σ

section Hooks

variable {σ : Type} (s : Chains) (io : Interceptors σ)

/-- The loop of a hook. -/
def nfIpHookLoop (kl : KList) : ℕ → Option ℕ → σ → Except Crash (Outcome σ)
  | _, none, w => .ok ⟨[], nfAccept, w⟩
  | 0, some _, _ => .error .endless
  | fuel + 1, some cur, w => do
    let it ← kl.klistIteratorNext (some cur)
    let n ← kl.node it.1
    let found ← matchFilter s n.data (io.packet w)
    if found then do
      let r ← s.filter n.data
      let ret := io.apply r.applyFilter r.filterSpecs w
      if ret.1 ≠ nfAccept then .ok ⟨[(n.data, ret.1)], ret.1, ret.2⟩
      else do
        let out ← nfIpHookLoop kl fuel it.2 ret.2
        return { out with calls := (n.data, ret.1) :: out.calls }
    else nfIpHookLoop kl fuel it.2 w

/-- The body of the hooks, for the chain of one entry point. -/
def nfIpHook (chain : EntryPoint) (w : σ) : Except Crash (Outcome σ) :=
  let c := s.chains chain
  if c.len = 0 then .ok ⟨[], nfAccept, w⟩
  else nfIpHookLoop s io c.filters (c.filters.next + 1) c.filters.first w

/-- `nf_ip_local_out_hook`. -/
def nfIpLocalOutHook : σ → Except Crash (Outcome σ) := nfIpHook s io .localOut

/-- `nf_ip_local_in_hook`. -/
def nfIpLocalInHook : σ → Except Crash (Outcome σ) := nfIpHook s io .localIn

/-- `nf_ip_forward_hook`. -/
def nfIpForwardHook : σ → Except Crash (Outcome σ) := nfIpHook s io .forward

/-- `nf_ip_pre_routing_hook`. -/
def nfIpPreRoutingHook : σ → Except Crash (Outcome σ) := nfIpHook s io .preRouting

/-- `nf_ip_post_routing_hook`. -/
def nfIpPostRoutingHook : σ → Except Crash (Outcome σ) := nfIpHook s io .postRouting

/-- `init_hooks`: the hook that netfilter calls at an entry point. -/
def hookAt : EntryPoint → σ → Except Crash (Outcome σ)
  | .localOut => nfIpLocalOutHook s io
  | .localIn => nfIpLocalInHook s io
  | .forward => nfIpForwardHook s io
  | .preRouting => nfIpPreRoutingHook s io
  | .postRouting => nfIpPostRoutingHook s io

private theorem hookAt_eq (c : EntryPoint) : hookAt s io c = nfIpHook s io c := by
  cases c <;> rfl

/-- The callback of a filter. -/
def callback (f : ℕ) (w : σ) : UInt32 × σ :=
  match s.filters f with
  | some r => io.apply r.applyFilter r.filterSpecs w
  | none => (nfAccept, w)

end Hooks

/-! ### Dispatching over a list of filters -/

section Dispatch

variable {σ : Type} (test : ℕ → σ → Except Crash Bool) (call : ℕ → σ → UInt32 × σ)

/-- The filters of a list that match are called one after the other, up to and including the first
one with another verdict than `NF_ACCEPT`. -/
def dispatch : List ℕ → σ → Except Crash (Outcome σ)
  | [], w => .ok ⟨[], nfAccept, w⟩
  | f :: fs, w => do
    let found ← test f w
    if found then
      if (call f w).1 ≠ nfAccept then .ok ⟨[(f, (call f w).1)], (call f w).1, (call f w).2⟩
      else do
        let out ← dispatch fs (call f w).2
        return { out with calls := (f, (call f w).1) :: out.calls }
    else dispatch fs w

/-- The calls that are due to the filters `matching`, and the verdict: the filters are called in
order; all but the last one accept; the verdict is that of the last one, or `NF_ACCEPT` if none was
called; and if the verdict is `NF_ACCEPT`, they were all called. -/
structure Dispatched (matching : List ℕ) (calls : List (ℕ × UInt32)) (verdict : UInt32) :
    Prop where
  in_order : calls.map Prod.fst <+: matching
  accepted : ∀ c ∈ calls.dropLast, c.2 = nfAccept
  verdict_eq : verdict = (calls.getLast?.map Prod.snd).getD nfAccept
  all_called : verdict = nfAccept → calls.map Prod.fst = matching

/-- One more filter in front that accepts. -/
private theorem Dispatched.cons {matching : List ℕ} {calls : List (ℕ × UInt32)} {verdict : UInt32}
    (h : Dispatched matching calls verdict) (f : ℕ) :
    Dispatched (f :: matching) ((f, nfAccept) :: calls) verdict := by
  have hmap : ((f, nfAccept) :: calls).map Prod.fst = f :: calls.map Prod.fst := rfl
  refine ⟨?_, ?_, ?_, fun hv => ?_⟩
  · rw [hmap, List.prefix_cons_inj]
    exact h.in_order
  · cases calls with
    | nil =>
      intro c hc
      cases hc
    | cons d calls =>
      rw [List.dropLast_cons_cons]
      exact List.forall_mem_cons.mpr ⟨rfl, h.accepted⟩
  · cases calls with
    | nil => exact h.verdict_eq
    | cons d calls =>
      rw [List.getLast?_cons_cons]
      exact h.verdict_eq
  · rw [hmap, h.all_called hv]

variable {test call}

/-- **Dispatching calls what it has to**, where the test has the same outcome all along. -/
theorem dispatch_spec {I : σ → Prop} {m : ℕ → Bool} {fs : List ℕ}
    (hm : ∀ f ∈ fs, ∀ w, I w → test f w = .ok (m f))
    (hI : ∀ f w, I w → (call f w).1 = nfAccept → I (call f w).2) {w : σ} (hw : I w) :
    ∃ out, dispatch test call fs w = .ok out ∧
      Dispatched (fs.filter m) out.calls out.verdict := by
  induction fs generalizing w with
  | nil => exact ⟨_, rfl, List.prefix_refl [], by simp, rfl, fun _ => rfl⟩
  | cons f fs ih =>
    obtain ⟨hf, hfs⟩ := List.forall_mem_cons.mp hm
    rw [dispatch, hf w hw, ok_bind]
    by_cases hmatch : m f = true
    · rw [if_pos hmatch, List.filter_cons_of_pos hmatch]
      by_cases hv : (call f w).1 = nfAccept
      · obtain ⟨out, hout, hd⟩ := ih hfs (hI f w hw hv)
        rw [if_neg (not_not.mpr hv), hout, ok_bind, hv]
        exact ⟨_, rfl, hd.cons f⟩
      · rw [if_pos hv]
        refine ⟨_, rfl, ?_, by simp, rfl, fun h => absurd h hv⟩
        simp
    · rw [if_neg hmatch, List.filter_cons_of_neg hmatch]
      exact ih hfs hw

/-- Dispatching touches nothing that was freed if no test does. -/
theorem notFreed_dispatch {fs : List ℕ} (h : ∀ f ∈ fs, ∀ w, NotFreed (test f w)) (w : σ) :
    NotFreed (dispatch test call fs w) := by
  induction fs generalizing w with
  | nil => exact notFreed_ok _
  | cons f fs ih =>
    obtain ⟨hf, hfs⟩ := List.forall_mem_cons.mp h
    exact (hf w).bind fun found => notFreed_ite
      (notFreed_ite (notFreed_ok _) ((ih hfs _).bind fun out => notFreed_ok _)) (ih hfs w)

/-- If all callbacks accept and leave the world alone, dispatching comes to the test that fails. -/
theorem dispatch_freed {fs : List ℕ} {w : σ} (hcall : ∀ f, call f w = (nfAccept, w))
    (htest : ∀ f ∈ fs, (∃ b, test f w = .ok b) ∨ ∃ p, test f w = .error (.freed p))
    (hfreed : ∃ f ∈ fs, ∃ p, test f w = .error (.freed p)) :
    ∃ p, dispatch test call fs w = .error (.freed p) := by
  induction fs with
  | nil =>
    obtain ⟨f, hf, -⟩ := hfreed
    cases hf
  | cons f fs ih =>
    obtain ⟨hf, hfs⟩ := List.forall_mem_cons.mp htest
    rw [dispatch, hcall f]
    rcases hf with ⟨b, hb⟩ | ⟨p, hp⟩
    · obtain ⟨g, hg, p, hp⟩ := hfreed
      have hg' : g ∈ fs := by
        refine (List.mem_cons.mp hg).resolve_left fun hgf => ?_
        rw [hgf, hb] at hp
        cases hp
      obtain ⟨p, hp⟩ := ih hfs ⟨g, hg', p, hp⟩
      refine ⟨p, ?_⟩
      rw [hb, ok_bind, if_neg (not_not.mpr rfl), hp]
      cases b <;> rfl
    · exact ⟨p, by rw [hp, error_bind]⟩

end Dispatch

section Chains

variable {σ : Type} {s : Chains} {io : Interceptors σ}

/-- A hook from some place of its chain on. -/
private theorem nfIpHookLoop_eq {kl : KList} {l₁ l₂ : List (ℕ × ℕ)} (h : kl.Holds (l₁ ++ l₂))
    {fuel : ℕ} (hfuel : l₂.length ≤ fuel) (w : σ) :
    nfIpHookLoop s io kl fuel (headAddr none l₂) w =
      dispatch (fun f w => matchFilter s f (io.packet w)) (callback s io) (l₂.map Prod.snd) w := by
  induction l₂ generalizing l₁ fuel w with
  | nil => rw [headAddr, nfIpHookLoop, List.map_nil, dispatch]
  | cons n l₂ ih =>
    obtain ⟨a, x⟩ := n
    obtain ⟨fuel, rfl⟩ : ∃ k, fuel = k + 1 := ⟨fuel - 1, by rw [List.length_cons] at hfuel; omega⟩
    have h' : kl.Holds ((l₁ ++ [(a, x)]) ++ l₂) := by
      rw [List.append_assoc]
      exact h
    have ih' := fun w => ih h' (Nat.le_of_succ_le_succ hfuel) w
    rw [headAddr, nfIpHookLoop, h.iteratorNext, ok_bind, h.node_ok, ok_bind, List.map_cons,
      dispatch]
    dsimp only
    cases hx : s.filters x with
    | none => rw [matchFilter_of_freed hx, error_bind, error_bind]
    | some r =>
      have hcall : ∀ w, callback s io x w = io.apply r.applyFilter r.filterSpecs w := by
        intro w
        rw [callback, hx]
      rw [Chains.filter_ok hx, ok_bind, hcall]
      simp only [ih']

/-- **A hook dispatches over the filters of its chain.** -/
theorem hookAt_dispatch {order : EntryPoint → List ℕ} (h : s.Contains order) (c : EntryPoint)
    (w : σ) : hookAt s io c w =
      dispatch (fun f w => matchFilter s f (io.packet w)) (callback s io) (order c) w := by
  obtain ⟨l, hl, horder⟩ := h.chain c
  rw [hookAt_eq, nfIpHook]
  split_ifs with hlen
  · have hnil : order c = [] := by
      rw [← List.length_eq_zero_iff, ← h.len c, hlen]
      rfl
    rw [hnil, dispatch]
  · rw [hl.first_eq, nfIpHookLoop_eq (show KList.Holds _ ([] ++ l) from hl)
      (Nat.le_succ_of_le hl.length_le_next), horder]

end Chains

/-! ### The result -/

/-- **The hooks dispatch in priority order.** After every history of registrations, an entry point
that has ten filters refuses another one, without any change to the chains, and one that has fewer
takes it; and the hook of each entry point goes through the filters registered there, by decreasing
priority and in the order of registration among equals, whatever the packet and whatever the
callbacks do. As long as they leave the packet alone that they accept, it calls those that match it,
up to and including the first with another verdict than `NF_ACCEPT`, which is the verdict of the
hook. -/
theorem hooks_dispatch_by_priority {es : List FilterEvent}
    (hes : Run.AllSteps Registry.step Registry.Admissible .init es) :
    ∃ s, Run.execM Chains.step initChains es = .ok s ∧
      (∀ f c, (Run.exec Registry.step .init es).entryPoint f = some c →
        f ∉ (Run.exec Registry.step .init es).registered c →
        ∃ s' ret, s.registerFilter f = .ok (s', ret) ∧
          (ret = 0 ↔ ((Run.exec Registry.step .init es).registered c).length =
            maxFiltersPerChain) ∧ (ret = 0 → s' = s)) ∧
      ∀ c, ∃ order,
        Ordered s.priority ((Run.exec Registry.step .init es).registered c) order ∧
        ∀ (σ : Type) (io : Interceptors σ) (w : σ),
          hookAt s io c w =
            dispatch (fun f w => matchFilter s f (io.packet w)) (callback s io) order w ∧
          ∀ m : ℕ → Bool, (∀ f ∈ order, matchFilter s f (io.packet w) = .ok (m f)) →
            (∀ f w, (callback s io f w).1 = nfAccept →
              io.packet (callback s io f w).2 = io.packet w) →
            ∃ out, hookAt s io c w = .ok out ∧
              Dispatched (order.filter m) out.calls out.verdict := by
  obtain ⟨s, hs, order, h⟩ := registers_init.run hes
  refine ⟨s, hs, fun f c hf hnew => ?_, fun c => ⟨order c, h.ordered c, fun σ io w => ?_⟩⟩
  · obtain ⟨s', ret, hs', hret, hsame, -⟩ := h.register hf hnew
    exact ⟨s', ret, hs', hret, hsame⟩
  · refine ⟨hookAt_dispatch h.toContains c w, fun m hm hpacket => ?_⟩
    rw [hookAt_dispatch h.toContains c w]
    refine dispatch_spec (I := fun u => io.packet u = io.packet w) (fun f hf u hu => ?_)
      (fun f u hu hv => (hpacket f u hv).trans hu) rfl
    rw [hu]
    exact hm f hf

/-- Two filters at one entry point, the second one with more priority. -/
def twoRegistrations : List FilterEvent :=
  [.createFilter 0 ⟨0x7f, filterAtLocalOut, 0, 0⟩, .createFilter 1 ⟨0xff, filterAtLocalOut, 0, 0⟩,
    .register 0, .register 1]

theorem hooks_dispatch_two :
    ∃ s, Run.execM Chains.step initChains twoRegistrations = .ok s ∧
      ∃ order, Ordered s.priority [0, 1] order ∧
        ∀ (σ : Type) (io : Interceptors σ) (w : σ), hookAt s io .localOut w =
          dispatch (fun f w => matchFilter s f (io.packet w)) (callback s io) order w := by
  have hes : Run.AllSteps Registry.step Registry.Admissible .init twoRegistrations := by
    refine ⟨fun c => ?_, fun c => ?_, ⟨⟨_, rfl⟩, fun c => ?_⟩, ⟨⟨_, rfl⟩, fun c => ?_⟩, trivial⟩
    · exact List.not_mem_nil
    · exact List.not_mem_nil
    · exact List.not_mem_nil
    · cases c <;> decide
  obtain ⟨s, hs, -, hhooks⟩ := hooks_dispatch_by_priority hes
  obtain ⟨order, horder, hdispatch⟩ := hhooks .localOut
  exact ⟨s, hs, order, horder, fun σ io w => (hdispatch σ io w).1⟩

end MiaVita.Framework
