import MiaVita.FredFramework.Unregistration

/-!
# Creating a rule (`fred_framework`, `interceptor_manager.c`, `rule_manager.c`)

A request for a rule goes to the first interceptor with the name that it gives. The interceptor
makes a rule with filters for some entry points (`Made`), or none at all, and `register_rule` puts
the rule into the list of the rule manager and its filters into the chains, one after the other. A
chain has room for ten filters. `register_rule` only reports that a filter was refused, and
`create_rule` returns 1 all the same.

* `Registry.registered_exec_register` says which filters of a rule are accepted: at each entry point
  as many as there is room for.
* `allOrNothing_iff`: a request is all or nothing exactly if there is room for everything.
-/

namespace MiaVita.Framework

open LinkedList Fallible

namespace InterceptorManager

/-- The loop of `create_rule`; `create` is what the callback of a descriptor makes of the
specification. -/
def createRuleLoop (s : InterceptorManager) (interceptorName : List Char)
    (create : ℕ → Option Made) : ℕ → Option ℕ → Except Crash (InterceptorManager × ℕ)
  | _, none => .ok (s, 0)
  | 0, some _ => .error .endless
  | fuel + 1, some cur => do
    let it ← s.intList.klistIteratorNext (some cur)
    let n ← s.intList.node it.1
    let idName ← s.manager.descriptorName n.data
    if interceptorName = idName then
      match create n.data with
      | none => .ok (s, 0)
      | some r => do
        let s' ← s.step (.registerRule r)
        return (s', 1)
    else createRuleLoop s interceptorName create fuel it.2

/-- `create_rule`, with the value that it returns. -/
def createRule (s : InterceptorManager) (interceptorName : List Char) (create : ℕ → Option Made) :
    Except Crash (InterceptorManager × ℕ) :=
  s.createRuleLoop interceptorName create (s.intList.next + 1) s.intList.first

/-- The descriptor that a request with a name goes to. -/
def target (s : InterceptorManager) (l : List (ℕ × ℕ)) (name : List Char) : Option ℕ :=
  (l.find? fun n => s.manager.names n.2 = some name).map Prod.snd

/-- The rule is listed, and all its filters are in their chains. -/
structure Registered (s : InterceptorManager) (n : Made) : Prop where
  listed : s.manager.ruleList.Has n.rule
  chained : ∀ f ∈ n.filters, ∃ c, chainOf f.filterAt = some c ∧
    (s.manager.chains.chains c).filters.Has f.address

/-- What a request for a rule should do: register the rule that is made, as a whole, and return 1,
or return 0 and leave the list of the rules and the chains as they are. -/
def AllOrNothing (s : InterceptorManager) (l : List (ℕ × ℕ)) (name : List Char)
    (create : ℕ → Option Made) : Prop :=
  ∃ s' ret, s.createRule name create = .ok (s', ret) ∧
    ((ret = 1 ∧ ∃ n, (s.target l name).bind create = some n ∧ s'.Registered n) ∨
      (ret = 0 ∧ s'.manager.ruleList = s.manager.ruleList ∧
        s'.manager.chains.chains = s.manager.chains.chains))

/-- Every filter has an entry point, and the chain there has room for all of them. -/
structure HasRoomFor (s : InterceptorManager) (n : Made) : Prop where
  placed : ∀ f ∈ n.filters, ∃ c, chainOf f.filterAt = some c
  room : ∀ c, (s.manager.chains.chains c).len.toNat +
    n.filters.countP (fun f => chainOf f.filterAt = some c) ≤ maxFiltersPerChain

/-! ### The search -/

variable {s s' : InterceptorManager} {a : Registry} {order : EntryPoint → List ℕ}
  {rs : List (ℕ × Rule)} {l : List (ℕ × ℕ)} {name : List Char} {create : ℕ → Option Made}

/-- The search goes on behind an interceptor with another name. -/
private theorem createRuleLoop_other (create : ℕ → Option Made) {l₁ l₂ : List (ℕ × ℕ)} {n : ℕ × ℕ}
    (hl : s.intList.Holds (l₁ ++ n :: l₂))
    (hother : ∃ other, s.manager.names n.2 = some other ∧ name ≠ other) (fuel : ℕ) :
    s.createRuleLoop name create (fuel + 1) (some n.1) =
      s.createRuleLoop name create fuel (headAddr none l₂) := by
  obtain ⟨other, hother, hne⟩ := hother
  rw [createRuleLoop, hl.iteratorNext, ok_bind, hl.node_ok, ok_bind,
    Manager.descriptorName_ok hother, ok_bind, if_neg hne]

/-- **What a request does**: nothing if nobody has the name or nothing is made, and otherwise the
rule that is made gets registered. -/
theorem createRule_eq (h : Managed s a order rs l) :
    s.createRule name create =
      match (s.target l name).bind create with
      | none => .ok (s, 0)
      | some n => s.step (.registerRule n) >>= fun s' => .ok (s', 1) := by
  rw [createRule, target]
  cases hfind : l.find? fun n => decide (s.manager.names n.2 = some name) with
  | none =>
    have hne : ∀ n ∈ l, s.manager.names n.2 ≠ some name := by simpa using hfind
    have hother := h.others (fun _ hn => hn) hne
    obtain ⟨fuel, hwalk⟩ := h.interceptors.walk_past
      (f := fun fuel it _ => s.createRuleLoop name create fuel it)
      fun _ n _ hn hmem fuel _ => createRuleLoop_other create hn (hother n hmem) fuel
    rw [hwalk, createRuleLoop]
    rfl
  | some n =>
    obtain ⟨hname, l₁, l₂, rfl, hne⟩ := List.find?_eq_some_iff_append.mp hfind
    have hl := h.interceptors
    have hother := h.others (fun _ hn => List.mem_append_left _ hn) fun n hn => by
      simpa using hne n hn
    obtain ⟨fuel, hwalk⟩ := hl.walk_to (f := fun fuel it _ => s.createRuleLoop name create fuel it)
      fun _ n _ hn hmem fuel _ => createRuleLoop_other create hn (hother n hmem) fuel
    rw [hwalk, createRuleLoop, hl.iteratorNext, ok_bind, hl.node_ok, ok_bind,
      Manager.descriptorName_ok (of_decide_eq_true hname), ok_bind, if_pos rfl]
    rfl

end InterceptorManager

/-! ### What is accepted -/

private theorem Registers.has_iff {s : Chains} {a : Registry} {order : EntryPoint → List ℕ}
    (h : Registers s a order) (c : EntryPoint) (f : ℕ) :
    (s.chains c).filters.Has f ↔ f ∈ a.registered c := by
  obtain ⟨l, hl, hmap⟩ := h.chain c
  rw [hl.has_iff, hmap]
  exact (h.ordered c).perm.mem_iff

private theorem Lists.has_iff {m : Manager} {rs : List (ℕ × Rule)} (h : Lists m rs) (r : ℕ) :
    m.ruleList.Has r ↔ r ∈ rs.map Prod.fst := by
  obtain ⟨l, hl, hmap⟩ := h.list
  rw [hl.has_iff, hmap]

/-- A rule that was registered last is listed. -/
private theorem Lists.has_last {m : Manager} {rs : List (ℕ × Rule)} {x : ℕ × Rule}
    (h : Lists m (rs ++ [x])) : m.ruleList.Has x.1 :=
  (h.has_iff x.1).mpr (List.mem_map_of_mem (List.mem_append_right rs (List.mem_singleton_self x)))

/-- A list without repetitions is cut short unless it fits. -/
private theorem forall_mem_take_iff {α : Type*} {l : List α} (hl : l.Nodup) (k : ℕ) :
    (∀ x ∈ l, x ∈ l.take k) ↔ l.length ≤ k := by
  constructor
  · intro h
    calc l.length ≤ (l.take k).length := (List.subperm_of_subset hl h).length_le
      _ ≤ k := List.length_take_le k l
  · intro h x hx
    rwa [List.take_of_length_le h]

namespace Made

variable {n : Made} {a : Registry}

/-- The addresses of the filters that a rule has for an entry point. -/
def addressesAt (n : Made) (c : EntryPoint) : List ℕ :=
  (n.filters.filter fun f => chainOf f.filterAt = some c).map NewFilter.address

private theorem length_addressesAt (n : Made) (c : EntryPoint) :
    (n.addressesAt c).length = n.filters.countP fun f => chainOf f.filterAt = some c := by
  rw [addressesAt, List.length_map, ← List.countP_eq_length_filter]

private theorem nodup_addressesAt (hnodup : n.addresses.Nodup) (c : EntryPoint) :
    (n.addressesAt c).Nodup :=
  (List.filter_sublist.map NewFilter.address).nodup hnodup

/-- A filter has the entry point that it is made for. -/
private theorem entryPoint_made (a : Registry) (hnodup : n.addresses.Nodup) {f : NewFilter}
    (hf : f ∈ n.filters) :
    (Run.exec Registry.step a n.events).entryPoint f.address = chainOf f.filterAt := by
  obtain ⟨-, -, -, hnew⟩ :=
    Registry.exec_create (a.step (.createFilterSpecs n.sp n.specs)) n.sp n.filters
  rw [events, Run.exec_cons, Registry.entryPoint, hnew hnodup f hf, Option.bind_some]

theorem filter_addresses (a : Registry) (hnodup : n.addresses.Nodup) (c : EntryPoint) :
    (n.addresses.filter fun f => (Run.exec Registry.step a n.events).entryPoint f = some c) =
      n.addressesAt c := by
  rw [addresses, List.filter_map, addressesAt]
  refine congrArg (List.map NewFilter.address) (List.filter_congr fun f hf => ?_)
  rw [Function.comp_apply, entryPoint_made a hnodup hf]

/-- **What is accepted of a rule**: at each entry point as many filters as there is room for. -/
theorem registered_made (a : Registry) (hnodup : n.addresses.Nodup) (c : EntryPoint) :
    (Run.exec Registry.step (Run.exec Registry.step a n.events)
      (n.addresses.map .register)).registered c =
      a.registered c ++ (n.addressesAt c).take (maxFiltersPerChain - (a.registered c).length) := by
  rw [Registry.registered_exec_register, (a.extends_made hnodup).registered,
    filter_addresses a hnodup]

/-- All the filters are accepted exactly if they all have an entry point and there is room. -/
private theorem forall_registered_iff (ha : a.Valid) (hnodup : n.addresses.Nodup)
    (hnew : ∀ f ∈ n.addresses, ∀ c, f ∉ a.registered c) :
    (∀ f ∈ n.filters, ∃ c, chainOf f.filterAt = some c ∧
      f.address ∈ (Run.exec Registry.step (Run.exec Registry.step a n.events)
        (n.addresses.map .register)).registered c) ↔
      (∀ f ∈ n.filters, ∃ c, chainOf f.filterAt = some c) ∧
        ∀ c, (a.registered c).length + (n.addressesAt c).length ≤ maxFiltersPerChain := by
  -- a chain never has too many filters, so that the subtraction is exact
  have hroom : ∀ c, (a.registered c).length + (n.addressesAt c).length ≤ maxFiltersPerChain ↔
      (n.addressesAt c).length ≤ maxFiltersPerChain - (a.registered c).length := by
    intro c
    have := ha.limit c
    omega
  -- the filters are new, so that what is there afterwards has just been accepted
  have hmem : ∀ c, ∀ f ∈ n.filters,
      (f.address ∈ (Run.exec Registry.step (Run.exec Registry.step a n.events)
        (n.addresses.map .register)).registered c ↔
        f.address ∈ (n.addressesAt c).take (maxFiltersPerChain - (a.registered c).length)) := by
    intro c f hf
    rw [registered_made a hnodup, List.mem_append]
    exact or_iff_right (hnew f.address (List.mem_map_of_mem hf) c)
  constructor
  · intro h
    refine ⟨fun f hf => ?_, fun c => ?_⟩
    · obtain ⟨c, hc, -⟩ := h f hf
      exact ⟨c, hc⟩
    · rw [hroom, ← forall_mem_take_iff (nodup_addressesAt hnodup c)]
      intro x hx
      obtain ⟨f, hf, rfl⟩ := List.mem_map.mp hx
      obtain ⟨hfn, hc⟩ := List.mem_filter.mp hf
      obtain ⟨d, hd, hmem'⟩ := h f hfn
      obtain rfl : d = c := Option.some.inj (hd.symm.trans (of_decide_eq_true hc))
      exact (hmem d f hfn).mp hmem'
  · rintro ⟨hplaced, hlen⟩ f hf
    obtain ⟨c, hc⟩ := hplaced f hf
    refine ⟨c, hc, (hmem c f hf).mpr ?_⟩
    refine (forall_mem_take_iff (nodup_addressesAt hnodup c) _).mpr ((hroom c).mp (hlen c)) _ ?_
    exact List.mem_map_of_mem (List.mem_filter.mpr ⟨hf, decide_eq_true hc⟩)

end Made

/-! ### All or nothing -/

namespace InterceptorManager

variable {s s' : InterceptorManager} {a : Registry} {order : EntryPoint → List ℕ}
  {rs : List (ℕ × Rule)} {l : List (ℕ × ℕ)} {n : Made}

/-- A rule is registered as a whole exactly if there is room for it. -/
private theorem registered_iff (h : Managed s a order rs l) (hn : s.Admissible (.registerRule n))
    (hs' : s.step (.registerRule n) = .ok s') : s'.Registered n ↔ s.HasRoomFor n := by
  obtain ⟨s₁, order', hs₁, h', -⟩ := h.registerRule hn
  cases hs₁.symm.trans hs'
  obtain ⟨-, -, -, hnodup, hfree⟩ := hn
  have hregisters := h.holding.toRegisters
  have hregisters' := h'.holding.toRegisters
  rw [hregisters.filters] at hfree
  have hnew : ∀ f ∈ n.addresses, ∀ c, f ∉ a.registered c := fun f hf c hmem =>
    h.holding.toOwns.notMem_of_free hfree f (h.holding.covered c f hmem) hf
  -- the counter of a chain is the number of its filters
  have hlen : ∀ c, (s.manager.chains.chains c).len.toNat = (a.registered c).length := fun c =>
    (hregisters.len c).trans (hregisters.length_eq c)
  have hiff := Made.forall_registered_iff hregisters.toValid hnodup hnew
  constructor
  · intro hs'
    obtain ⟨hplaced, hroom⟩ := hiff.mp fun f hf => by
      obtain ⟨c, hc, hhas⟩ := hs'.chained f hf
      exact ⟨c, hc, (hregisters'.has_iff c _).mp hhas⟩
    refine ⟨hplaced, fun c => ?_⟩
    rw [hlen, ← n.length_addressesAt]
    exact hroom c
  · intro hroom
    refine ⟨h'.holding.toLists.has_last, fun f hf => ?_⟩
    obtain ⟨c, hc, hmem⟩ := hiff.mpr ⟨hroom.placed, fun c => by
      rw [← hlen, n.length_addressesAt]
      exact hroom.room c⟩ f hf
    exact ⟨c, hc, (hregisters'.has_iff c _).mpr hmem⟩

/-- **A request is all or nothing** exactly if there is room for the rule that is made. -/
theorem allOrNothing_iff (h : Managed s a order rs l) (name : List Char) (create : ℕ → Option Made)
    (hcreate : ∀ n, (s.target l name).bind create = some n → s.Admissible (.registerRule n)) :
    s.AllOrNothing l name create ↔
      ∀ n, (s.target l name).bind create = some n → s.HasRoomFor n := by
  rw [AllOrNothing, createRule_eq h]
  cases hmade : (s.target l name).bind create with
  | none =>
    refine ⟨fun _ n hn => absurd hn (by simp), fun _ => ?_⟩
    exact ⟨s, 0, rfl, .inr ⟨rfl, rfl, rfl⟩⟩
  | some n =>
    obtain ⟨s', -, hs', -⟩ := h.registerRule (hcreate n hmade)
    have hiff := registered_iff h (hcreate n hmade) hs'
    dsimp only
    rw [hs', ok_bind]
    constructor
    · -- the request returns 1, so that only the first half of `AllOrNothing` is possible
      rintro ⟨s₁, ret, hret, ⟨rfl, m, hm, hregistered⟩ | ⟨rfl, -⟩⟩ m' hm'
      · cases hret
        cases hm
        cases hm'
        exact hiff.mp hregistered
      · cases hret
    · intro hroom
      exact ⟨s', 1, rfl, .inl ⟨rfl, n, rfl, hiff.mpr (hroom n rfl)⟩⟩

/-- What the aggregation module makes: one filter behind the routing and one for what is sent. -/
def aggregationMade : Made where
  rule := 0
  interceptor := 0
  sp := 0
  specs := ⟨0, 0, 0, 0, 0, 0⟩
  filters := [⟨0, 0xff, filterAtPostRt, 0⟩, ⟨1, 0xff, filterAtLocalOut, 1⟩]

/-- A rule with ten filters behind the routing. -/
def tenMade : Made where
  rule := 1
  interceptor := 0
  sp := 1
  specs := ⟨0, 0, 0, 0, 0, 0⟩
  filters := (List.range 10).map fun k => ⟨k + 2, 0xff, filterAtPostRt, 0⟩

/-- The state with the interceptor of the aggregation module, as it is left by the request for the
rule with the ten filters. -/
def postRoutingFull : Except Crash (InterceptorManager × ℕ) := do
  let s ← (start twoModules.names).registerInterceptor 0
  s.createRule "aggregation".toList fun _ => some tenMade

private theorem target_aggregation {s : InterceptorManager}
    (hname : s.manager.names 0 = some "aggregation".toList) :
    s.target [(0, 0)] "aggregation".toList = some 0 := by
  rw [target, List.find?_cons]
  simp only [hname, decide_true, Option.map_some]

/-- What is read of a state that a run comes to. -/
private theorem read_of_run {α : Type} {x : Except Crash (InterceptorManager × ℕ)}
    {s : InterceptorManager}
    {ret : ℕ} {v : α} (hx : x = .ok (s, ret)) (read : InterceptorManager → α)
    (hread : (x.map fun y => read y.1) = .ok v) : read s = v := by
  subst hx
  cases hread
  rfl

private theorem admissible_made {s : InterceptorManager}
    (h : Managed s .init (fun _ => []) [] [(0, 0)])
    (hnames : s.manager.names = twoModules.names) (hrules : s.manager.rules = fun _ => none)
    {n : Made} (hinterceptor : n.interceptor = 0) (hnodup : n.addresses.Nodup) :
    s.Admissible (.registerRule n) := by
  have hregisters := h.holding.toRegisters
  refine ⟨⟨"aggregation".toList, ?_⟩, by rw [hrules], by rw [hregisters.specs]; rfl, hnodup,
    fun f _ => by rw [hregisters.filters]; rfl⟩
  rw [hnames, hinterceptor]
  rfl

theorem allOrNothing_aggregation :
    ∃ s, Managed s .init (fun _ => []) [] [(0, 0)] ∧
      s.AllOrNothing [(0, 0)] "aggregation".toList fun _ => some aggregationMade := by
  obtain ⟨s, hs, hnames, h⟩ := aggregation_registered
  cases hs
  refine ⟨_, h, (allOrNothing_iff h _ _ fun n hn => ?_).mpr fun n hn => ?_⟩
  · cases hn
    exact admissible_made h hnames rfl rfl (by decide)
  · cases hn
    refine ⟨?_, fun c => ?_⟩
    · exact List.forall_mem_cons.mpr
        ⟨⟨.postRouting, rfl⟩, List.forall_mem_singleton.mpr ⟨.localOut, rfl⟩⟩
    · cases c <;> decide

/-- **A rule that is registered in part**: the chain behind the routing is full, and the request for
the rule of the aggregation module returns 1. The rule is listed, and of its filters only the one
for what is sent is in a chain. -/
theorem createRule_in_part :
    ∃ s s' a order rs, postRoutingFull = .ok (s, 1) ∧ Managed s a order rs [(0, 0)] ∧
      s.createRule "aggregation".toList (fun _ => some aggregationMade) = .ok (s', 1) ∧
      s'.manager.ruleList.Has 0 ∧ (s'.manager.chains.chains .localOut).filters.Has 1 ∧
      ¬ (s'.manager.chains.chains .postRouting).filters.Has 0 ∧
      ¬ s.AllOrNothing [(0, 0)] "aggregation".toList fun _ => some aggregationMade := by
  obtain ⟨s₀, hs₀, hnames, h₀⟩ := aggregation_registered
  have hten : s₀.Admissible (.registerRule tenMade) := by
    cases hs₀
    exact admissible_made h₀ hnames rfl rfl (by decide)
  obtain ⟨s, order, hs, h, -⟩ := h₀.registerRule hten
  have hfull : postRoutingFull = .ok (s, 1) := by
    rw [postRoutingFull, hs₀, ok_bind, createRule_eq h₀, target_aggregation (by rw [hnames]; rfl)]
    dsimp only [Option.bind_some]
    rw [hs, ok_bind]
  -- What the second request reads of the state is evaluated.
  have hname : s.manager.names 0 = some "aggregation".toList :=
    read_of_run hfull (fun s => s.manager.names 0) rfl
  have hadmissible : s.Admissible (.registerRule aggregationMade) := by
    refine ⟨⟨_, hname⟩, read_of_run hfull (fun s => s.manager.rules 0) rfl,
      read_of_run hfull (fun s => s.manager.chains.specs 0) rfl, by decide, ?_⟩
    exact List.forall_mem_cons.mpr ⟨read_of_run hfull (fun s => s.manager.chains.filters 0) rfl,
      List.forall_mem_singleton.mpr (read_of_run hfull (fun s => s.manager.chains.filters 1) rfl)⟩
  obtain ⟨s', order', hs', h', -⟩ := h.registerRule hadmissible
  have hcreate : s.createRule "aggregation".toList (fun _ => some aggregationMade) =
      .ok (s', 1) := by
    rw [createRule_eq h, target_aggregation hname]
    dsimp only [Option.bind_some]
    rw [hs', ok_bind]
  have hregisters := h'.holding.toRegisters
  have hpost : ¬ (s'.manager.chains.chains .postRouting).filters.Has 0 := by
    rw [hregisters.has_iff]
    decide
  refine ⟨s, s', _, order, _, hfull, h, hcreate, h'.holding.toLists.has_last,
    (hregisters.has_iff .localOut 1).mpr (by decide), hpost, ?_⟩
  rintro ⟨s₁, ret, hret, ⟨rfl, n, hn, hregistered⟩ | ⟨rfl, -⟩⟩
  · cases hcreate.symm.trans hret
    rw [target_aggregation hname] at hn
    cases hn
    obtain ⟨c, hc, hhas⟩ := hregistered.chained _ List.mem_cons_self
    cases hc
    exact hpost hhas
  · cases hcreate.symm.trans hret

end InterceptorManager

end MiaVita.Framework
