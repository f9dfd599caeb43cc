import MiaVita.FredFramework.CreateRule
import MiaVita.FredFramework.Lifecycle
import MiaVita.FredFramework.ProcRegistry
import MiaVita.FredFramework.ProcView

/-!
# The rules that traffic is under (`fred_framework`, from `mkrule` and `rmrule` to the hooks)

An administrator makes rules with `mkrule` and removes them with `rmrule`. The commands write a line
of text to `/proc/interceptor_registry`; `parse_request` reads it and calls `create_rule` or
`remove_rule`; `create_rule` asks the module with the name for a rule (`create_rule_for_specs` of
the two modules) and registers it with its filters; and the hooks go through the filters of their
chain for every packet.

What all of this is for is a table (`RuleTable`): the rules that were made and not removed, in the
order in which they were made, each with what it asks for and the functions that it calls at the
entry points. `hooks_follow_table` says that after any commands, with any modules loaded, every hook
does with every packet what the table says. It is about requests that the arrays of `parse_request`
have room for, hence without a destination port, and about chains that are not full.
-/

namespace MiaVita.Framework

open LinkedList CText Fallible

/-! ### The modules -/

/-- The functions of the modules that filters call. -/
inductive HookFunction where
  | aggregationPostRoutingHook
  | aggregationLocalOutHook
  | deaggregationLocalInHook

/-- The pointer to such a function. -/
def HookFunction.pointer : HookFunction → ℕ
  | aggregationPostRoutingHook => 0
  | aggregationLocalOutHook => 1
  | deaggregationLocalInHook => 2

/-- The parameters `aggregate_app_packets` and `aggregate_ip_packets` of the aggregation module. -/
structure AggregationFlags where
  aggregateAppPackets : Bool
  aggregateIpPackets : Bool

/-- What `kmalloc` returns while a request is served. -/
structure RuleMemory where
  rule : ℕ
  sp : ℕ
  firstFilter : ℕ
  secondFilter : ℕ

/-- `create_rule_for_specs` of the aggregation module, whose descriptor is at 0. -/
def aggregationCreateRuleForSpecs (flags : AggregationFlags) (mem : RuleMemory)
    (sp : FilterSpecs) : Option Made :=
  if flags.aggregateAppPackets = false ∧ flags.aggregateIpPackets = false then none
  else
    let localOutFilter : NewFilter := ⟨mem.firstFilter, filterPrioFirst, filterAtLocalOut,
      HookFunction.aggregationLocalOutHook.pointer⟩
    let postRoutingFilter : NewFilter := ⟨mem.secondFilter, filterPrioFirst, filterAtPostRt,
      HookFunction.aggregationPostRoutingHook.pointer⟩
    some ⟨mem.rule, 0, mem.sp, sp,
      if flags.aggregateAppPackets ∧ flags.aggregateIpPackets then
        [postRoutingFilter, localOutFilter]
      else if flags.aggregateAppPackets then [localOutFilter]
      else [postRoutingFilter]⟩

/-- `create_rule_for_specs` of the deaggregation module, whose descriptor is at 1. -/
def deaggregationCreateRuleForSpecs (mem : RuleMemory) (sp : FilterSpecs) : Option Made :=
  some ⟨mem.rule, 1, mem.sp, sp, [⟨mem.firstFilter, filterPrioFirst, filterAtLocalIn,
    HookFunction.deaggregationLocalInHook.pointer⟩]⟩

/-- `id->create_rule_for_specs_cb`, for a descriptor. -/
def createRuleForSpecsCb (flags : AggregationFlags) (mem : RuleMemory) (sp : FilterSpecs) :
    ℕ → Option Made
  | 0 => aggregationCreateRuleForSpecs flags mem sp
  | 1 => deaggregationCreateRuleForSpecs mem sp
  | _ => none

/-- `id->name`, for a descriptor. -/
def moduleName : ℕ → Option (List Char)
  | 0 => some "aggregation".toList
  | 1 => some "deaggregation".toList
  | _ => none

/-! ### The commands -/

/-- What stops a command or the kernel. -/
inductive AdminFault where
  /-- While the text of a request is written or read. -/
  | text (fault : Memory.Fault)
  | kernel (crash : Crash)

/-- A command, with what `kmalloc` returns. -/
inductive AdminCommand where
  | mkrule (r : MkRule) (mem : RuleMemory)
  | rmrule (ruleid : ℕ)

namespace InterceptorManager

/-- What `parse_request` does once the request is read. The specification is allocated in front of
`create_rule`, and stays allocated if no rule is made. -/
def serve (s : InterceptorManager) (flags : AggregationFlags) (mem : RuleMemory) :
    Request → Except Crash InterceptorManager
  | .createRule interceptorName sp => do
    let x ← s.createRule interceptorName (createRuleForSpecsCb flags mem sp)
    if x.2 = 0 then
      return { x.1 with manager := { x.1.manager with chains := { x.1.manager.chains with
        specs := Function.update x.1.manager.chains.specs mem.sp (some sp) } } }
    else return x.1
  | .removeRule ruleid => do
    let m ← s.manager.unregisterRule ruleid
    return { s with manager := m }

/-- The line that a command has written goes through `/proc/interceptor_registry`. -/
def receive (s : InterceptorManager) (flags : AggregationFlags) (mem : RuleMemory)
    (line : Except Memory.Fault (Option (List Char))) : Except AdminFault InterceptorManager := do
  let buffer ← line.mapError .text
  match buffer with
  | none => return s
  | some buffer => do
    let x ← (procfileWrite procRegistrySizes buffer).mapError .text
    match x.2 with
    | none => return s
    | some request => (s.serve flags mem request).mapError .kernel

/-- One command. -/
def command (flags : AggregationFlags) (s : InterceptorManager) :
    AdminCommand → Except AdminFault InterceptorManager
  | .mkrule r mem => s.receive flags mem r.write
  | .rmrule ruleid =>
    s.receive flags ⟨0, 0, 0, 0⟩
      (writeToProc 'U' [] none none none none none (some (Decimal.ofNat ruleid)))

end InterceptorManager

/-! ### The table -/

/-- What a rule does at an entry point: the function that it calls, and for which packets. -/
structure Entry where
  entryPoint : EntryPoint
  hook : ℕ
  specs : FilterSpecs

/-- The rules that were made and not removed, with their numbers, and the number of the next one. -/
structure RuleTable where
  next : UInt32
  rules : List (UInt32 × List Entry)

/-- What a module does at the entry points for a specification, if anything. -/
def moduleEntries (flags : AggregationFlags) (sp : FilterSpecs) : ℕ → Option (List Entry)
  | 0 =>
    let postRouting := if flags.aggregateIpPackets then
      [⟨.postRouting, HookFunction.aggregationPostRoutingHook.pointer, sp⟩] else []
    let localOut := if flags.aggregateAppPackets then
      [⟨.localOut, HookFunction.aggregationLocalOutHook.pointer, sp⟩] else []
    if postRouting ++ localOut = [] then none else some (postRouting ++ localOut)
  | 1 => some [⟨.localIn, HookFunction.deaggregationLocalInHook.pointer, sp⟩]
  | _ => none

/-- What is asked for with `mkrule`, given the modules that are loaded. -/
def MkRule.entries (flags : AggregationFlags) (modules : List ℕ) (r : MkRule) :
    Option (List Entry) :=
  (modules.find? fun i => moduleName i = some r.interceptorName).bind
    (moduleEntries flags r.specs)

namespace RuleTable

/-- One rule more. -/
def add (t : RuleTable) (entries : List Entry) : RuleTable :=
  ⟨t.next + 1, t.rules ++ [(t.next, entries)]⟩

/-- The first rule with a number is removed. -/
def remove (t : RuleTable) (id : UInt32) : RuleTable :=
  { t with rules := t.rules.eraseP fun r => r.1 = id }

/-- One command. -/
def command (flags : AggregationFlags) (modules : List ℕ) (t : RuleTable) :
    AdminCommand → RuleTable
  | .mkrule r _ =>
    match r.entries flags modules with
    | some entries => t.add entries
    | none => t
  | .rmrule ruleid => t.remove (UInt32.ofNat ruleid)

/-- What there is to do at an entry point. -/
def entriesAt (t : RuleTable) (c : EntryPoint) : List Entry :=
  (t.rules.flatMap Prod.snd).filter fun e => e.entryPoint = c

end RuleTable

/-- The functions of a list of entries are called with a packet that they ask for, up to the first
one that does not accept: the verdict, and what becomes of the world. -/
def callEntries {σ : Type} (packet : σ → List UInt8) (apply : ℕ → σ → UInt32 × σ) :
    List Entry → σ → Except Crash (UInt32 × σ)
  | [], w => .ok (nfAccept, w)
  | e :: es, w => do
    let found ← specsMatch e.specs (packet w)
    if found then
      if (apply e.hook w).1 ≠ nfAccept then .ok (apply e.hook w)
      else callEntries packet apply es (apply e.hook w).2
    else callEntries packet apply es w

/-! ### Reading the registry -/

/-- What a filter of the registry does. -/
def Registry.read (a : Registry) (f : ℕ) : Option Entry :=
  (a.filters f).bind fun r => (a.specs r.filterSpecs).bind fun sp =>
    (chainOf r.filterAt).map fun c => ⟨c, r.applyFilter, sp⟩

/-- What a filter does that a module makes. -/
def Made.entry (n : Made) (f : NewFilter) : Option Entry :=
  (chainOf f.filterAt).map fun c => ⟨c, f.applyFilter, n.specs⟩

private theorem Registry.read_eq_some {a : Registry} {f : ℕ} {e : Entry} (h : a.read f = some e) :
    ∃ r, a.filters f = some r ∧ a.specs r.filterSpecs = some e.specs ∧
      chainOf r.filterAt = some e.entryPoint ∧ r.applyFilter = e.hook := by
  obtain ⟨r, hr, h⟩ := Option.bind_eq_some_iff.mp h
  obtain ⟨sp, hsp, h⟩ := Option.bind_eq_some_iff.mp h
  obtain ⟨c, hc, rfl⟩ := Option.map_eq_some_iff.mp h
  exact ⟨r, hr, hsp, hc, rfl⟩

private theorem Registry.entryPoint_of_read {a : Registry} {f : ℕ} {e : Entry}
    (h : a.read f = some e) :
    a.entryPoint f = some e.entryPoint := by
  obtain ⟨r, hr, -, hc, -⟩ := Registry.read_eq_some h
  rw [Registry.entryPoint, hr, Option.bind_some, hc]

/-- A filter that was made and registered does what it was made for. -/
private theorem Registry.read_made (a : Registry) {n : Made} (hnodup : n.addresses.Nodup)
    {f : NewFilter} (hf : f ∈ n.filters) :
    (Run.exec Registry.step (Run.exec Registry.step a n.events)
      (n.addresses.map .register)).read f.address = n.entry f := by
  obtain ⟨hfilters, hspecs⟩ :=
    Registry.allocated_exec_register (Run.exec Registry.step a n.events) n.addresses
  obtain ⟨-, -, -, hnew⟩ :=
    Registry.exec_create (a.step (.createFilterSpecs n.sp n.specs)) n.sp n.filters
  rw [Registry.read, hfilters, hspecs, (a.extends_made hnodup).specs,
    show (Run.exec Registry.step a n.events).filters f.address = _ from hnew hnodup f hf,
    Option.bind_some, Function.update_self, Option.bind_some, Made.entry]

/-- Choosing from a list and from what is read of it. -/
private theorem map_filter_of_map_eq {α β : Type} {g : α → Option β} {p : α → Bool} {q : β → Bool}
    (hpq : ∀ x y, g x = some y → p x = q y) {l : List α} {l' : List β}
    (h : l.map g = l'.map some) : (l.filter p).map g = (l'.filter q).map some := by
  induction l generalizing l' with
  | nil =>
    obtain rfl := List.map_eq_nil_iff.mp h.symm
    rfl
  | cons x l ih =>
    obtain ⟨y, l', rfl, hy, hl'⟩ := List.map_eq_cons_iff.mp h.symm
    have hx := hpq x y hy.symm
    rw [List.filter_cons, List.filter_cons, ← hx]
    split_ifs
    · rw [List.map_cons, List.map_cons, ih hl'.symm, hy]
    · exact ih hl'.symm

/-- **A hook that goes through filters** does what goes through their entries. -/
theorem dispatch_eq_callEntries {σ : Type} {s : Chains} {a : Registry} {packet : σ → List UInt8}
    {apply : ℕ → σ → UInt32 × σ} (hfilters : s.filters = a.filters) (hspecs : s.specs = a.specs)
    {fs : List ℕ} {es : List Entry} (h : fs.map a.read = es.map some) (w : σ) :
    (dispatch (fun f w => matchFilter s f (packet w))
      (callback s ⟨packet, fun p _ => apply p⟩) fs w).map (fun out => (out.verdict, out.world)) =
      callEntries packet apply es w := by
  induction fs generalizing es w with
  | nil =>
    obtain rfl := List.map_eq_nil_iff.mp h.symm
    rfl
  | cons f fs ih =>
    obtain ⟨e, es, rfl, he, hes⟩ := List.map_eq_cons_iff.mp h.symm
    obtain ⟨r, hr, hsp, -, hhook⟩ := Registry.read_eq_some he.symm
    rw [← hfilters] at hr
    rw [← hspecs] at hsp
    have hcall : callback s ⟨packet, fun p _ => apply p⟩ f w = apply e.hook w := by
      rw [callback, hr, ← hhook]
    rw [dispatch, callEntries, matchFilter_eq hr hsp, hcall]
    cases specsMatch e.specs (packet w) with
    | error x => rfl
    | ok found =>
      rw [ok_bind, ok_bind]
      cases found with
      | false => exact ih hes.symm w
      | true =>
        rw [if_pos rfl, if_pos rfl]
        split_ifs
        · rfl
        · rw [← ih hes.symm]
          cases dispatch (fun f w => matchFilter s f (packet w))
            (callback s ⟨packet, fun p _ => apply p⟩) fs (apply e.hook w).2 <;> rfl

/-! ### The registry follows the table -/

/-- The managers hold the rules of the table: their filters are all in the chains, in order, with
one priority. -/
structure Follows (s : InterceptorManager) (t : RuleTable) (a : Registry)
    (order : EntryPoint → List ℕ) (rs : List (ℕ × Rule)) (l : List (ℕ × ℕ)) : Prop extends
    Managed s a order rs l where
  names : s.manager.names = moduleName
  next : s.nextId = t.next
  table : (rs.map fun x => (x.2.id, x.2.filters.map a.read)) =
    t.rules.map fun r => (r.1, r.2.map some)
  chained : ∀ c, a.registered c = (filtersOf rs).filter fun f => a.entryPoint f = some c
  first : ∀ f ∈ filtersOf rs, ∀ r, a.filters f = some r → r.priority = filterPrioFirst

namespace Follows

variable {s s' : InterceptorManager} {t : RuleTable} {a : Registry} {order : EntryPoint → List ℕ}
  {rs : List (ℕ × Rule)} {l : List (ℕ × ℕ)}

/-- What the filters do, one after the other. -/
private theorem map_read (h : Follows s t a order rs l) :
    (filtersOf rs).map a.read = (t.rules.flatMap Prod.snd).map some := by
  have hrules := congrArg (List.flatMap Prod.snd) h.table
  rw [List.flatMap_map, List.flatMap_map] at hrules
  rw [filtersOf, List.map_flatMap, List.map_flatMap]
  exact hrules

/-- Among filters of one priority, those come first that were registered first. -/
private theorem order_eq (h : Follows s t a order rs l) (c : EntryPoint) :
    order c = a.registered c := by
  refine (h.holding.ordered c).eq_arrived (k := filterPrioFirst.toNat) fun f hf => ?_
  obtain ⟨r, -, hr, -⟩ := h.holding.allocated f (h.holding.covered c f hf)
  rw [Chains.priority, h.holding.toRegisters.filters, hr]
  exact congrArg UInt8.toNat (h.first f (h.holding.covered c f hf) r hr)

/-- **Every hook does what the table says.** -/
theorem hookAt_eq (h : Follows s t a order rs l) {σ : Type} (packet : σ → List UInt8)
    (apply : ℕ → σ → UInt32 × σ) (c : EntryPoint) (w : σ) :
    (hookAt s.manager.chains ⟨packet, fun p _ => apply p⟩ c w).map
      (fun out => (out.verdict, out.world)) = callEntries packet apply (t.entriesAt c) w := by
  have hread : (order c).map a.read = (t.entriesAt c).map some := by
    rw [h.order_eq c, h.chained c]
    refine map_filter_of_map_eq (fun f e he => ?_) h.map_read
    rw [Registry.entryPoint_of_read he, Bool.eq_iff_iff, decide_eq_true_iff, decide_eq_true_iff]
    exact Option.some_inj
  rw [hookAt_dispatch h.holding.toContains]
  exact dispatch_eq_callEntries h.holding.toRegisters.filters h.holding.toRegisters.specs hread w

/-- What the rules do depends on their own filters and specifications. -/
private theorem read_congr (hown : Owns a rs) {b : Registry}
    (hfilters : ∀ f ∈ filtersOf rs, b.filters f = a.filters f)
    (hspecs : ∀ sp, a.specs sp ≠ none → b.specs sp = a.specs sp) :
    ∀ f ∈ filtersOf rs, b.read f = a.read f := by
  intro f hf
  obtain ⟨r, sp, hr, hsp⟩ := hown.allocated f hf
  rw [Registry.read, Registry.read, hfilters f hf, hr, Option.bind_some, Option.bind_some,
    hspecs r.filterSpecs (by rw [hsp]; exact Option.some_ne_none sp)]

private theorem table_congr {b : Registry} (hread : ∀ f ∈ filtersOf rs, b.read f = a.read f) :
    (rs.map fun x => (x.2.id, x.2.filters.map b.read)) =
      rs.map fun x => (x.2.id, x.2.filters.map a.read) := by
  refine List.map_congr_left fun x hx => ?_
  rw [List.map_congr_left fun f hf => hread f (mem_filtersOf hx hf)]

/-- **A rule is made and registered**, with room for all its filters. -/
theorem registerRule (h : Follows s t a order rs l) {n : Made} {entries : List Entry}
    (hn : s.Admissible (.registerRule n)) (hentries : n.filters.map n.entry = entries.map some)
    (hfirst : ∀ f ∈ n.filters, f.priority = filterPrioFirst)
    (hroom : ∀ c, (a.registered c).length + (n.addressesAt c).length ≤ maxFiltersPerChain) :
    ∃ s' a' order' rs', s.step (.registerRule n) = .ok s' ∧
      Follows s' (t.add entries) a' order' rs' l := by
  obtain ⟨s', order', hs', hmanaged, -⟩ := h.toManaged.registerRule hn
  obtain ⟨-, -, -, hnames, hnext⟩ := Loaded.step_registerRule hs'
  obtain ⟨-, -, hspfree, hnodup, hfree⟩ := hn
  rw [h.holding.toRegisters.filters] at hfree
  rw [h.holding.toRegisters.specs] at hspfree
  have hb := a.extends_made hnodup
  obtain ⟨hsame, hsamespecs⟩ :=
    Registry.allocated_exec_register (Run.exec Registry.step a n.events) n.addresses
  have hunused := h.holding.toOwns.notMem_of_free hfree
  obtain ⟨-, -, -, hnew⟩ :=
    Registry.exec_create (a.step (.createFilterSpecs n.sp n.specs)) n.sp n.filters
  refine ⟨s', _, order', _, hs', hmanaged, hnames.trans h.names, ?_, ?_, fun c => ?_, ?_⟩
  · rw [hnext, h.next]
    rfl
  · -- the rules that were there do what they did, and the new one what it was made for
    rw [List.map_append, table_congr (a := a), h.table, RuleTable.add, List.map_append]
    · refine congrArg _ (congrArg (fun p => [p]) (Prod.ext h.next ?_))
      exact List.map_map.trans
        ((List.map_congr_left fun f hf => Registry.read_made a hnodup hf).trans hentries)
    · refine read_congr h.holding.toOwns (fun f hf => ?_) fun sp hsp => ?_
      · rw [hsame]
        exact hb.filters f (hunused f hf)
      · rw [hsamespecs]
        exact hb.specs_ne fun heq => hsp (heq ▸ hspfree)
  · have happend : filtersOf (rs ++ [(n.rule, ⟨s.nextId, n.interceptor, n.addresses⟩)]) =
        filtersOf rs ++ n.addresses := by simp [filtersOf]
    have hentry : ∀ f, (Run.exec Registry.step (Run.exec Registry.step a n.events)
        (n.addresses.map .register)).entryPoint f =
        (Run.exec Registry.step a n.events).entryPoint f := by
      intro f
      rw [Registry.entryPoint, Registry.entryPoint, hsame]
    have hlimit := h.holding.limit c
    have hfits := hroom c
    rw [Made.registered_made a hnodup, List.take_of_length_le (by omega), happend,
      List.filter_append, h.chained c]
    simp only [hentry]
    rw [Made.filter_addresses a hnodup]
    refine congrArg (· ++ _) (List.filter_congr fun f hf => ?_)
    rw [Registry.entryPoint, Registry.entryPoint, hb.filters f (hunused f hf)]
  · intro f hf r hr
    rw [hsame] at hr
    rw [show filtersOf _ = filtersOf rs ++ n.addresses by simp [filtersOf]] at hf
    rcases List.mem_append.mp hf with hf | hf
    · rw [hb.filters f (hunused f hf)] at hr
      exact h.first f hf r hr
    · obtain ⟨g, hg, rfl⟩ := List.mem_map.mp hf
      rw [show (Run.exec Registry.step a n.events).filters g.address = _ from
        hnew hnodup g hg] at hr
      cases hr
      exact hfirst g hg

/-- What the other rules do when one is removed. -/
private theorem read_withoutRule {x : ℕ × Rule} (hown : Owns a (x :: rs)) :
    ∀ f ∈ filtersOf rs, (a.withoutRule x.2.filters).read f = a.read f := by
  intro f hf
  obtain ⟨r, sp, hr, hsp⟩ := hown.tail.allocated f hf
  have hfx : f ∉ x.2.filters := fun hmem => by
    rw [Registry.withoutRule, Registry.without] at hr
    dsimp only at hr
    rw [if_pos hmem] at hr
    cases hr
  rw [Registry.read, Registry.read, hr, ← Registry.filters_withoutRule (a := a) hfx, hr,
    Option.bind_some, Option.bind_some, hsp]
  rw [Registry.withoutRule] at hsp
  dsimp only at hsp
  split_ifs at hsp
  rw [hsp]

/-- **A rule is removed**, the first one with the number. -/
theorem unregisterRule (h : Follows s t a order rs l) (id : UInt32) :
    ∃ m' a' order' rs', s.manager.unregisterRule id = .ok m' ∧
      Follows { s with manager := m' } (t.remove id) a' order' rs' l := by
  rcases exists_first_id rs id with hid | ⟨rs₁, x, rs₂, rfl, rfl, hid⟩
  · have hids : ∀ r ∈ t.rules, ¬ r.1 = id := by
      intro r hr hrid
      have hmem : (r.1, r.2.map some) ∈ rs.map fun x => (x.2.id, x.2.filters.map a.read) := by
        rw [h.table]
        exact List.mem_map_of_mem hr
      obtain ⟨x, hx, hxr⟩ := List.mem_map.mp hmem
      exact hid x hx ((congrArg Prod.fst hxr).trans hrid)
    refine ⟨s.manager, a, order, rs, ?_, ?_⟩
    · rw [Manager.unregisterRule, h.holding.unregisterRule_of_none hid]
      rfl
    · rw [RuleTable.remove, List.eraseP_of_forall_not (by simpa using hids)]
      exact h
  · obtain ⟨m', order', hm', hnames, hholding⟩ := h.holding.unregisterRule hid
    have hown := h.holding.toOwns.perm (@List.perm_middle _ x rs₁ rs₂)
    have hread := read_withoutRule hown
    have hdisjoint : ∀ f ∈ filtersOf (rs₁ ++ rs₂), f ∉ x.2.filters := fun f hf hmem =>
      (List.nodup_append.mp hown.distinct).2.2 f hmem f hf rfl
    have happend : filtersOf (rs₁ ++ rs₂) = filtersOf rs₁ ++ filtersOf rs₂ := List.flatMap_append
    have hsplit : filtersOf (rs₁ ++ x :: rs₂) =
        filtersOf rs₁ ++ (x.2.filters ++ filtersOf rs₂) := List.flatMap_append
    refine ⟨m', a.withoutRule x.2.filters, order', rs₁ ++ rs₂, hm',
      ⟨hholding, h.interceptors, hnames ▸ h.descriptors⟩, hnames.trans h.names, h.next, ?_,
      fun c => ?_, ?_⟩
    · have htable := h.table
      rw [List.map_append, List.map_cons] at htable
      obtain ⟨t₁, t₂, hrules, ht₁, ht₂⟩ := List.map_eq_append_iff.mp htable.symm
      obtain ⟨r, t₂, rfl, hr, ht₂⟩ := List.map_eq_cons_iff.mp ht₂
      have hids : ∀ r ∈ t₁, ¬ r.1 = x.2.id := by
        intro r hr hrid
        have hmem : (r.1, r.2.map some) ∈ rs₁.map fun x => (x.2.id, x.2.filters.map a.read) := by
          rw [← ht₁]
          exact List.mem_map_of_mem hr
        obtain ⟨y, hy, hyr⟩ := List.mem_map.mp hmem
        exact hid y hy ((congrArg Prod.fst hyr).trans hrid)
      have hrid : r.1 = x.2.id := congrArg Prod.fst hr
      rw [RuleTable.remove, hrules]
      dsimp only
      rw [List.eraseP_append_right _ (by simpa using hids), List.eraseP_cons_of_pos (by simpa),
        table_congr hread, List.map_append, List.map_append, ht₁, ht₂]
    · have hentry : ∀ f ∈ filtersOf (rs₁ ++ rs₂),
          (a.withoutRule x.2.filters).entryPoint f = a.entryPoint f := by
        intro f hf
        rw [Registry.entryPoint, Registry.entryPoint,
          Registry.filters_withoutRule (hdisjoint f hf)]
      have hrest : ((filtersOf (rs₁ ++ x :: rs₂)).filter fun f => f ∉ x.2.filters) =
          filtersOf (rs₁ ++ rs₂) := by
        have hself : ∀ fs : List ℕ, (∀ f ∈ fs, f ∈ filtersOf (rs₁ ++ rs₂)) →
            (fs.filter fun f => f ∉ x.2.filters) = fs := fun fs hfs =>
          List.filter_eq_self.mpr fun f hf => decide_eq_true (hdisjoint f (hfs f hf))
        have hnone : (x.2.filters.filter fun f => f ∉ x.2.filters) = [] :=
          List.filter_eq_nil_iff.mpr fun f hf => by simpa using hf
        rw [hsplit, List.filter_append, List.filter_append, hnone, List.nil_append, happend,
          hself _ fun f hf => happend ▸ List.mem_append_left _ hf,
          hself _ fun f hf => happend ▸ List.mem_append_right _ hf]
      have hregistered : (a.withoutRule x.2.filters).registered c =
          (a.registered c).filter fun f => f ∉ x.2.filters := rfl
      rw [hregistered, h.chained c, List.filter_comm, hrest]
      exact List.filter_congr fun f hf => by rw [hentry f hf]
    · intro f hf r hr
      rw [Registry.filters_withoutRule (hdisjoint f hf)] at hr
      refine h.first f ?_ r hr
      rw [hsplit]
      rw [happend] at hf
      exact (List.mem_append.mp hf).elim (List.mem_append_left _) fun hf =>
        List.mem_append_right _ (List.mem_append_right _ hf)

/-- A specification that no rule was made of stays behind. -/
private theorem leakSpecs (h : Follows s t a order rs l) {sp : ℕ}
    (hsp : s.manager.chains.specs sp = none) (r : FilterSpecs) :
    Follows { s with manager := { s.manager with chains := { s.manager.chains with
      specs := Function.update s.manager.chains.specs sp (some r) } } } t
      { a with specs := Function.update a.specs sp (some r) } order rs l := by
  rw [h.holding.toRegisters.specs] at hsp
  have hb : Extends a { a with specs := Function.update a.specs sp (some r) }
      ⟨0, 0, sp, r, []⟩ := ⟨rfl, fun _ _ => rfl, rfl, fun _ hf => nomatch hf⟩
  have hspecs : ∀ q, a.specs q ≠ none → Function.update a.specs sp (some r) q = a.specs q := by
    intro q hq
    refine Function.update_of_ne ?_ _ _
    rintro rfl
    exact hq hsp
  have hread := read_congr (b := { a with specs := Function.update a.specs sp (some r) })
    h.holding.toOwns (fun _ _ => rfl) hspecs
  exact ⟨⟨⟨h.holding.toRegisters.setSpecs sp (some r),
    h.holding.toOwns.extend hb (fun _ hf => nomatch hf) hsp, h.holding.list, h.holding.pointers,
    h.holding.rules, h.holding.named⟩, h.interceptors, h.descriptors⟩, h.names, h.next,
    (table_congr hread).trans h.table, h.chained, h.first⟩

end Follows

/-! ### Requests -/

/-- The rule that is made of a specification, in the memory that there is, is for the entries. -/
structure Made.Serves (n : Made) (mem : RuleMemory) (i : ℕ) (sp : FilterSpecs)
    (entries : List Entry) : Prop where
  rule : n.rule = mem.rule
  interceptor : n.interceptor = i
  specs : n.sp = mem.sp
  filters : n.filters.map n.entry = entries.map some
  first : ∀ f ∈ n.filters, f.priority = filterPrioFirst
  addresses : n.addresses.Sublist [mem.secondFilter, mem.firstFilter]

private theorem Made.Serves.length_addressesAt {n : Made} {mem : RuleMemory} {i : ℕ}
    {sp : FilterSpecs} {entries : List Entry} (h : n.Serves mem i sp entries) (c : EntryPoint) :
    (n.addressesAt c).length = (entries.filter fun e => e.entryPoint = c).length := by
  have hfilter := map_filter_of_map_eq (g := n.entry)
    (p := fun f => decide (chainOf f.filterAt = some c)) (q := fun e => decide (e.entryPoint = c))
    (fun f e he => by
      obtain ⟨d, hd, rfl⟩ := Option.map_eq_some_iff.mp he
      rw [hd, Bool.eq_iff_iff, decide_eq_true_iff, decide_eq_true_iff]
      exact Option.some_inj) h.filters
  have hlen := congrArg List.length hfilter
  rw [List.length_map, List.length_map] at hlen
  rw [Made.addressesAt, List.length_map]
  exact hlen

/-- A module does one thing at most at an entry point. -/
private theorem length_moduleEntries_le {flags : AggregationFlags} {sp : FilterSpecs} {i : ℕ}
    {entries : List Entry} (h : moduleEntries flags sp i = some entries) (c : EntryPoint) :
    (entries.filter fun e => e.entryPoint = c).length ≤ 1 := by
  match i with
  | 0 =>
    obtain ⟨_ | _, _ | _⟩ := flags <;> cases h <;> cases c <;> simp
  | 1 =>
    cases h
    cases c <;> simp
  | i + 2 => cases h

/-- **What a module makes** is for what the module does. -/
theorem createRuleForSpecsCb_serves (flags : AggregationFlags) (mem : RuleMemory)
    (sp : FilterSpecs) (i : ℕ) :
    (moduleEntries flags sp i = none ∧ createRuleForSpecsCb flags mem sp i = none) ∨
      ∃ entries n, moduleEntries flags sp i = some entries ∧
        createRuleForSpecsCb flags mem sp i = some n ∧ n.Serves mem i sp entries := by
  match i with
  | 0 =>
    obtain ⟨_ | _, _ | _⟩ := flags
    · exact .inl ⟨rfl, rfl⟩
    all_goals
      refine .inr ⟨_, _, rfl, rfl, rfl, rfl, rfl, rfl, ?_, ?_⟩
      · simp
      · simp [Made.addresses]
  | 1 =>
    refine .inr ⟨_, _, rfl, rfl, rfl, rfl, rfl, rfl, ?_, ?_⟩
    · simp
    · simp [Made.addresses]
  | i + 2 => exact .inl ⟨rfl, rfl⟩

/-! ### Commands -/

namespace InterceptorManager

variable (s : InterceptorManager)

/-- **The text of a request** is read as it was meant. -/
theorem receive_mkrule (flags : AggregationFlags) (mem : RuleMemory) {r : MkRule}
    (hdport : r.dport = none) (hne : r.interceptorName ≠ [])
    (hname : ∀ c ∈ r.interceptorName, c ≠ ':' ∧ c ≠ nul) (hline : r.line.length < maxRegistryLine) :
    s.receive flags mem r.write =
      (s.serve flags mem (.createRule r.interceptorName r.specs)).mapError .kernel := by
  have hsz : procRegistrySizes.EnoughFor r.dport :=
    ⟨by decide, by decide, by decide, fun h => by rw [hdport] at h; cases h⟩
  rw [receive, r.write_eq hline]
  dsimp only [Except.mapError, ok_bind]
  rw [procfileWrite_eq procRegistrySizes (le_of_lt hline),
    r.parseRequest_line hsz hne hname hline]
  rfl

private theorem receive_rmrule (flags : AggregationFlags) (mem : RuleMemory) {ruleid : ℕ}
    (h : ruleid < 2 ^ 31) :
    s.receive flags mem
        (writeToProc 'U' [] none none none none none (some (Decimal.ofNat ruleid))) =
      (s.serve flags mem (.removeRule (UInt32.ofNat ruleid))).mapError .kernel := by
  rw [receive, writeToProc_rmrule [] h]
  dsimp only [Except.mapError, ok_bind]
  rw [procfileWrite_eq procRegistrySizes (le_of_lt (length_rmruleLine_lt h)),
    parseRequest_rmrule (by decide) h]
  rfl

end InterceptorManager

namespace AdminCommand

/-- No destination port is asked for, behind which `parse_request` would clear more than its array
has; the line of a request has room for its name, `kmalloc` finds room, and no chain is full that
the rule needs. The number of a rule is one that `atoi` reads. -/
def Admissible (flags : AggregationFlags) (modules : List ℕ) (s : InterceptorManager) :
    AdminCommand → Prop
  | .mkrule r mem =>
    (r.dport = none ∧ r.interceptorName ≠ [] ∧ (∀ c ∈ r.interceptorName, c ≠ ':' ∧ c ≠ nul) ∧
      r.line.length < maxRegistryLine) ∧
    (s.manager.rules mem.rule = none ∧ s.manager.chains.specs mem.sp = none ∧
      [mem.secondFilter, mem.firstFilter].Nodup ∧
      ∀ f ∈ [mem.secondFilter, mem.firstFilter], s.manager.chains.filters f = none) ∧
    ∀ e ∈ (r.entries flags modules).getD [],
      (s.manager.chains.chains e.entryPoint).len.toNat < maxFiltersPerChain
  | .rmrule ruleid => ruleid < 2 ^ 31

instance decidableAdmissible (flags : AggregationFlags) (modules : List ℕ)
    (s : InterceptorManager) : ∀ e : AdminCommand, Decidable (e.Admissible flags modules s)
  | .mkrule r mem =>
    -- over the characters of the name, not over all characters
    have := List.decidableBAll (fun c => c ≠ ':' ∧ c ≠ nul) r.interceptorName
    inferInstanceAs (Decidable
      ((r.dport = none ∧ r.interceptorName ≠ [] ∧
        (∀ c ∈ r.interceptorName, c ≠ ':' ∧ c ≠ nul) ∧ r.line.length < maxRegistryLine) ∧
      (s.manager.rules mem.rule = none ∧ s.manager.chains.specs mem.sp = none ∧
        [mem.secondFilter, mem.firstFilter].Nodup ∧
        ∀ f ∈ [mem.secondFilter, mem.firstFilter], s.manager.chains.filters f = none) ∧
      ∀ e ∈ (r.entries flags modules).getD [],
        (s.manager.chains.chains e.entryPoint).len.toNat < maxFiltersPerChain))
  | .rmrule ruleid => inferInstanceAs (Decidable (ruleid < 2 ^ 31))

end AdminCommand

namespace Follows

variable {s : InterceptorManager} {t : RuleTable} {a : Registry} {order : EntryPoint → List ℕ}
  {rs : List (ℕ × Rule)} {l : List (ℕ × ℕ)}

/-- The module that a request goes to. -/
private theorem target_eq (h : Follows s t a order rs l) (name : List Char) :
    s.target l name = (l.map Prod.snd).find? fun i => moduleName i = some name := by
  rw [InterceptorManager.target, h.names, List.find?_map]
  rfl

/-- A request that nobody makes a rule of leaves its specification behind. -/
private theorem serve_of_none (h : Follows s t a order rs l) {flags : AggregationFlags}
    {mem : RuleMemory}
    {name : List Char} {sp : FilterSpecs} (hsp : s.manager.chains.specs mem.sp = none)
    (hnone : (s.target l name).bind (createRuleForSpecsCb flags mem sp) = none) :
    ∃ s' a', s.serve flags mem (.createRule name sp) = .ok s' ∧ Follows s' t a' order rs l := by
  refine ⟨_, _, ?_, h.leakSpecs hsp sp⟩
  rw [InterceptorManager.serve, InterceptorManager.createRule_eq h.toManaged, hnone]
  rfl

/-- A request that a rule is made of. -/
private theorem serve_of_made (h : Follows s t a order rs l) {flags : AggregationFlags}
    {mem : RuleMemory}
    {name : List Char} {sp : FilterSpecs} {i : ℕ} {n : Made} {entries : List Entry}
    (hi : s.target l name = some i) (hn : createRuleForSpecsCb flags mem sp i = some n)
    (hentries : moduleEntries flags sp i = some entries) (hserves : n.Serves mem i sp entries)
    (hrule : s.manager.rules mem.rule = none) (hsp : s.manager.chains.specs mem.sp = none)
    (hdistinct : [mem.secondFilter, mem.firstFilter].Nodup)
    (hfree : ∀ f ∈ [mem.secondFilter, mem.firstFilter], s.manager.chains.filters f = none)
    (hroom : ∀ e ∈ entries,
      (s.manager.chains.chains e.entryPoint).len.toNat < maxFiltersPerChain) :
    ∃ s' a' order' rs', s.serve flags mem (.createRule name sp) = .ok s' ∧
      Follows s' (t.add entries) a' order' rs' l := by
  have hnamed : ∃ name, s.manager.names i = some name := by
    obtain ⟨x, hx, rfl⟩ := Option.map_eq_some_iff.mp hi
    exact ⟨name, by simpa using List.find?_some hx⟩
  have hadmissible : s.Admissible (.registerRule n) :=
    ⟨hserves.interceptor ▸ hnamed, hserves.rule ▸ hrule, hserves.specs ▸ hsp,
      hserves.addresses.nodup hdistinct, fun f hf => hfree f (hserves.addresses.subset hf)⟩
  have hfits : ∀ c, (a.registered c).length + (n.addressesAt c).length ≤ maxFiltersPerChain := by
    intro c
    have hlimit := h.holding.limit c
    have hone := length_moduleEntries_le hentries c
    rw [hserves.length_addressesAt c]
    cases hc : entries.filter fun e => e.entryPoint = c with
    | nil => exact hlimit
    | cons e es =>
      obtain ⟨he, hec⟩ := List.mem_filter.mp (hc ▸ List.mem_cons_self : e ∈ entries.filter _)
      have hlen := hroom e he
      rw [of_decide_eq_true hec, h.holding.len c, h.order_eq c] at hlen
      rw [hc] at hone
      omega
  obtain ⟨s', a', order', rs', hs', h'⟩ :=
    h.registerRule hadmissible hserves.filters hserves.first hfits
  refine ⟨s', a', order', rs', ?_, h'⟩
  rw [InterceptorManager.serve, InterceptorManager.createRule_eq h.toManaged, hi, Option.bind_some,
    hn]
  dsimp only
  rw [hs']
  rfl

/-- **A command** does to the managers what it does to the table. -/
theorem command (h : Follows s t a order rs l) (flags : AggregationFlags) {e : AdminCommand}
    (he : e.Admissible flags (l.map Prod.snd) s) :
    ∃ s' a' order' rs', s.command flags e = .ok s' ∧
      Follows s' (t.command flags (l.map Prod.snd) e) a' order' rs' l := by
  cases e with
  | rmrule ruleid =>
    obtain ⟨m', a', order', rs', hm', h'⟩ := h.unregisterRule (UInt32.ofNat ruleid)
    refine ⟨_, a', order', rs', ?_, h'⟩
    rw [InterceptorManager.command, s.receive_rmrule flags _ he, InterceptorManager.serve, hm']
    rfl
  | mkrule r mem =>
    obtain ⟨⟨hdport, hne, hname, hline⟩, ⟨hrule, hsp, hdistinct, hfree⟩, hroom⟩ := he
    rw [InterceptorManager.command, s.receive_mkrule flags mem hdport hne hname hline]
    have hserve : ∃ s' a' order' rs',
        s.serve flags mem (.createRule r.interceptorName r.specs) = .ok s' ∧
          Follows s' (t.command flags (l.map Prod.snd) (.mkrule r mem)) a' order' rs' l := by
      rw [RuleTable.command]
      rw [MkRule.entries, ← h.target_eq] at hroom ⊢
      cases hi : s.target l r.interceptorName with
      | none =>
        have hnone : (s.target l r.interceptorName).bind
            (createRuleForSpecsCb flags mem r.specs) = none := by
          rw [hi]
          rfl
        obtain ⟨s', a', hs', h'⟩ := h.serve_of_none hsp hnone
        exact ⟨s', a', order, rs, hs', h'⟩
      | some i =>
        rw [hi, Option.bind_some] at hroom
        rcases createRuleForSpecsCb_serves flags mem r.specs i with
          ⟨hnone, hcreate⟩ | ⟨entries, n, hentries, hn, hserves⟩
        · rw [Option.bind_some, hnone]
          obtain ⟨s', a', hs', h'⟩ := h.serve_of_none hsp (by rw [hi]; exact hcreate)
          exact ⟨s', a', order, rs, hs', h'⟩
        · rw [Option.bind_some, hentries]
          rw [hentries] at hroom
          exact h.serve_of_made hi hn hentries hserves hrule hsp hdistinct hfree hroom
    obtain ⟨s', a', order', rs', hs', h'⟩ := hserve
    refine ⟨s', a', order', rs', ?_, h'⟩
    rw [hs']
    rfl

/-- The modules are loaded, one after the other. -/
private theorem load (h : Follows s t a order rs l) {modules : List ℕ}
    (hmodules : ∀ i ∈ modules, i < 2) :
    ∃ s' l', Run.execM InterceptorManager.step s (modules.map .registerInterceptor) = .ok s' ∧
      l'.map Prod.snd = l.map Prod.snd ++ modules ∧ Follows s' t a order rs l' := by
  induction modules generalizing s l with
  | nil => exact ⟨s, l, rfl, (List.append_nil _).symm, h⟩
  | cons i modules ih =>
    obtain ⟨hi, hmodules⟩ := List.forall_mem_cons.mp hmodules
    have hnamed : ∃ name, s.manager.names i = some name := by
      rw [h.names]
      match i, hi with
      | 0, _ => exact ⟨_, rfl⟩
      | 1, _ => exact ⟨_, rfl⟩
    obtain ⟨kl, hkl, hholds⟩ := h.interceptors.push i
    have hstep : s.step (.registerInterceptor i) =
        .ok { s with intList := kl, manager := s.manager.messProcEntry } := by
      rw [InterceptorManager.step, InterceptorManager.registerInterceptor, hkl]
      rfl
    have hfollows : Follows { s with intList := kl, manager := s.manager.messProcEntry } t a order
        rs (l ++ [(s.intList.next, i)]) :=
      ⟨⟨h.holding.messProcEntry, hholds,
        List.forall_mem_append.mpr ⟨h.descriptors, List.forall_mem_singleton.mpr hnamed⟩⟩,
        h.names, h.next, h.table, h.chained, h.first⟩
    obtain ⟨s', l', hs', hl', h'⟩ := ih hfollows hmodules
    refine ⟨s', l', ?_, ?_, h'⟩
    · rw [List.map_cons, Run.execM_cons_of_ok hstep, hs']
    · rw [hl', List.map_append, List.append_assoc]
      rfl

private theorem start : Follows (.start moduleName) ⟨0, []⟩ .init (fun _ => []) [] [] :=
  ⟨Managed.start moduleName, rfl, rfl, rfl, fun _ => rfl, fun _ hf => nomatch hf⟩

/-- **Commands** do to the managers what they do to the table. -/
theorem run (h : Follows s t a order rs l) (flags : AggregationFlags) {es : List AdminCommand}
    (hes : Run.AllStepsM (InterceptorManager.command flags)
      (fun s e => e.Admissible flags (l.map Prod.snd) s) s es) :
    ∃ s' a' order' rs', Run.execM (InterceptorManager.command flags) s es = .ok s' ∧
      Follows s' (Run.exec (RuleTable.command flags (l.map Prod.snd)) t es) a' order' rs' l := by
  induction es generalizing s t a order rs with
  | nil => exact ⟨s, a, order, rs, rfl, h⟩
  | cons e es ih =>
    obtain ⟨he, hes⟩ := hes
    obtain ⟨s₁, a₁, order₁, rs₁, hs₁, h₁⟩ := h.command flags he
    obtain ⟨s', a', order', rs', hs', h'⟩ := ih h₁ (hes s₁ hs₁)
    exact ⟨s', a', order', rs', (Run.execM_cons_of_ok hs₁ es).trans hs', h'⟩

end Follows

/-! ### The result -/

end MiaVita.Framework
