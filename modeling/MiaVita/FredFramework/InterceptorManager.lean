import MiaVita.FredFramework.Rules
import MiaVita.Lib.Fallible

/-!
# The interceptor manager (`fred_framework`, `interceptor_manager.c`, `make_rule` of `rule.c`)

The interceptor manager keeps the registered interceptors in a list, and the rule manager the rules
that they made. Modules register and unregister their interceptors, and rules are made, registered
and removed again; a change of either list marks the file that shows them as dirty.

An interceptor makes a rule from a specification and filters that it allocates. `Made` is all that
is allocated for one, at addresses where nothing is.

`Managed` says that both lists are sound. `Managed.step` is the one result about the events: what
they come to is managed again, and dirty unless nothing has changed.
-/

namespace MiaVita.Framework

open LinkedList Fallible

/-! ### The functions -/

/-- The two managers, with the descriptors of the modules (`Manager.names`) and the counter of
`make_rule`. -/
structure InterceptorManager where
  manager : Manager
  intList : KList
  nextId : UInt32

/-- A filter that an interceptor makes. -/
structure NewFilter where
  address : ℕ
  priority : UInt8
  filterAt : UInt8
  applyFilter : ℕ

/-- A rule that an interceptor makes of a specification, with the addresses of what is allocated. -/
structure Made where
  rule : ℕ
  interceptor : ℕ
  sp : ℕ
  specs : FilterSpecs
  filters : List NewFilter

namespace Made

/-- `create_filter`, called for one of the filters. -/
def create (sp : ℕ) (f : NewFilter) : FilterEvent :=
  .createFilter f.address ⟨f.priority, f.filterAt, sp, f.applyFilter⟩

/-- The addresses of the filters. -/
def addresses (n : Made) : List ℕ := n.filters.map NewFilter.address

/-- The specification and the filters are created. -/
def events (n : Made) : List FilterEvent :=
  .createFilterSpecs n.sp n.specs :: n.filters.map (create n.sp)

end Made

namespace InterceptorManager

/-- `start_interceptor_manager`, `start_rule_manager` and `init_chains`, with the descriptors of the
modules that there are. -/
def start (names : ℕ → Option (List Char)) : InterceptorManager where
  manager := ⟨initChains, makeKlist, fun _ => none, names, true⟩
  intList := makeKlist
  nextId := 0

/-- `register_interceptor`. -/
def registerInterceptor (s : InterceptorManager) (i : ℕ) : Except Crash InterceptorManager := do
  let kl ← (s.intList.makeKlistNode i).1.addKlistNodeToKlist (s.intList.makeKlistNode i).2
  return { s with intList := kl, manager := s.manager.messProcEntry }

/-- The search of `unregister_interceptor`, with the node `kn` that it has come to. -/
def findInterceptor (s : InterceptorManager) (name : List Char) :
    ℕ → Option ℕ → Option ℕ → Except Crash (Option ℕ)
  | _, none, kn => .ok kn
  | 0, some _, _ => .error .endless
  | fuel + 1, some cur, _ => do
    let it ← s.intList.klistIteratorNext (some cur)
    let n ← s.intList.node it.1
    let idName ← s.manager.descriptorName n.data
    if name = idName then return it.1
    else findInterceptor s name fuel it.2 it.1

/-- `unregister_interceptor`, with the value that it returns. If no interceptor has the name, it is
the last one that is removed. -/
def unregisterInterceptor (s : InterceptorManager) (name : List Char) :
    Except Crash (InterceptorManager × ℕ) := do
  let found ← s.findInterceptor name (s.intList.next + 1) s.intList.first none
  match found with
  | none => .ok (s, 0)
  | some kn => do
    let m ← s.manager.unregisterRulesForInterceptor name s.manager.ruleList.next
    let kl ← s.intList.removeKlistNodeFromKlist kn
    return ({ s with manager := m.messProcEntry, intList := kl }, 1)

/-- `make_rule`, which numbers the rules. -/
def allocateRule (s : InterceptorManager) (n : Made) (chains : Chains) : InterceptorManager where
  manager :=
    { s.manager with
      chains := chains
      rules := Function.update s.manager.rules n.rule
        (some ⟨s.nextId, n.interceptor, n.addresses⟩) }
  intList := s.intList
  nextId := s.nextId + 1

/-- The specification, the filters and the rule are allocated. -/
def makeRule (s : InterceptorManager) (n : Made) : Except Crash InterceptorManager := do
  let chains ← Run.execM Chains.step s.manager.chains n.events
  return s.allocateRule n chains

end InterceptorManager

/-! ### Runs -/

/-- What changes the lists. -/
inductive ManagerEvent where
  | registerInterceptor (i : ℕ)
  | unregisterInterceptor (name : List Char)
  /-- A rule is made and registered. -/
  | registerRule (n : Made)
  | unregisterRule (id : UInt32)

namespace InterceptorManager

/-- One change. -/
def step (s : InterceptorManager) : ManagerEvent → Except Crash InterceptorManager
  | .registerInterceptor i => s.registerInterceptor i
  | .unregisterInterceptor name => do
    let x ← s.unregisterInterceptor name
    return x.1
  | .registerRule n => do
    let s ← s.makeRule n
    let m ← s.manager.registerRule n.rule
    return { s with manager := m }
  | .unregisterRule id => do
    let m ← s.manager.unregisterRule id
    return { s with manager := m }

/-- A descriptor has a name, and `kmalloc` finds room. -/
def Admissible (s : InterceptorManager) : ManagerEvent → Prop
  | .registerInterceptor i => ∃ name, s.manager.names i = some name
  | .unregisterInterceptor _ => True
  | .registerRule n =>
    (∃ name, s.manager.names n.interceptor = some name) ∧ s.manager.rules n.rule = none ∧
      s.manager.chains.specs n.sp = none ∧ n.addresses.Nodup ∧
      ∀ f ∈ n.addresses, s.manager.chains.filters f = none
  | .unregisterRule _ => True

instance decidableNamed (o : Option (List Char)) : Decidable (∃ name, o = some name) :=
  decidable_of_iff _ Option.isSome_iff_exists

instance decidableAdmissible (s : InterceptorManager) : DecidablePred s.Admissible
  | .registerInterceptor i => inferInstanceAs (Decidable (∃ name, s.manager.names i = some name))
  | .unregisterInterceptor _ | .unregisterRule _ => inferInstanceAs (Decidable True)
  | .registerRule n => inferInstanceAs (Decidable
    ((∃ name, s.manager.names n.interceptor = some name) ∧ s.manager.rules n.rule = none ∧
      s.manager.chains.specs n.sp = none ∧ n.addresses.Nodup ∧
      ∀ f ∈ n.addresses, s.manager.chains.filters f = none))

end InterceptorManager

/-- The rule manager holds the rules `rs`, and `int_list` the descriptors of `l`. -/
structure Managed (s : InterceptorManager) (a : Registry) (order : EntryPoint → List ℕ)
    (rs : List (ℕ × Rule)) (l : List (ℕ × ℕ)) : Prop where
  holding : Holding s.manager a order rs
  interceptors : s.intList.Holds l
  descriptors : ∀ n ∈ l, ∃ name, s.manager.names n.2 = some name

/-! ### Making rules -/

/-- The registry `b` is `a` with what was allocated for a rule. -/
structure Extends (a b : Registry) (n : Made) : Prop where
  registered : b.registered = a.registered
  filters : ∀ f ∉ n.addresses, b.filters f = a.filters f
  specs : b.specs = Function.update a.specs n.sp (some n.specs)
  made : ∀ f ∈ n.addresses, ∃ r, b.filters f = some r ∧ r.filterSpecs = n.sp

namespace Registry

variable {a : Registry}

theorem exec_create (a : Registry) (sp : ℕ) (fs : List NewFilter) :
    (Run.exec step a (fs.map (Made.create sp))).registered = a.registered ∧
      (Run.exec step a (fs.map (Made.create sp))).specs = a.specs ∧
      (∀ g ∉ fs.map NewFilter.address,
        (Run.exec step a (fs.map (Made.create sp))).filters g = a.filters g) ∧
      ((fs.map NewFilter.address).Nodup → ∀ f ∈ fs,
        (Run.exec step a (fs.map (Made.create sp))).filters f.address =
          some ⟨f.priority, f.filterAt, sp, f.applyFilter⟩) := by
  induction fs generalizing a with
  | nil => exact ⟨rfl, rfl, fun g _ => rfl, fun _ f hf => nomatch hf⟩
  | cons f fs ih =>
    obtain ⟨hregistered, hspecs, hother, hnew⟩ := ih (a.step (Made.create sp f))
    rw [List.map_cons, List.map_cons, Run.exec_cons]
    refine ⟨hregistered, hspecs, fun g hg => ?_, fun hnodup => ?_⟩
    · obtain ⟨hgf, hg⟩ := not_or.mp fun h => hg (List.mem_cons.mpr h)
      rw [hother g hg]
      exact Function.update_of_ne hgf _ _
    · obtain ⟨hf, hfs⟩ := List.nodup_cons.mp hnodup
      refine List.forall_mem_cons.mpr ⟨?_, hnew hfs⟩
      rw [hother f.address hf]
      exact Function.update_self _ _ _

private theorem allSteps_create {sp : ℕ} {fs : List NewFilter}
    (h : ∀ f ∈ fs, ∀ c, f.address ∉ a.registered c) :
    Run.AllSteps step Admissible a (fs.map (Made.create sp)) := by
  induction fs generalizing a with
  | nil => trivial
  | cons f fs ih =>
    obtain ⟨hf, hfs⟩ := List.forall_mem_cons.mp h
    exact ⟨hf, ih hfs⟩

/-- What the steps of `Made.events` come to. -/
theorem extends_made (a : Registry) {n : Made} (hnodup : n.addresses.Nodup) :
    Extends a (Run.exec step a n.events) n := by
  obtain ⟨hregistered, hspecs, hother, hnew⟩ :=
    exec_create (a.step (.createFilterSpecs n.sp n.specs)) n.sp n.filters
  refine ⟨hregistered, hother, hspecs, fun f hf => ?_⟩
  obtain ⟨g, hg, rfl⟩ := List.mem_map.mp hf
  exact ⟨_, hnew hnodup g hg, rfl⟩

end Registry

section Extends

variable {a b : Registry} {n : Made} {rs : List (ℕ × Rule)}

theorem Extends.specsOf_made (h : Extends a b n) {f : ℕ} (hf : f ∈ n.addresses) :
    b.specsOf f = some n.sp := by
  obtain ⟨r, hr, hsp⟩ := h.made f hf
  rw [Registry.specsOf, hr, Option.map_some, hsp]

theorem Extends.specs_ne (h : Extends a b n) {sp : ℕ} (hsp : sp ≠ n.sp) :
    b.specs sp = a.specs sp := by
  rw [h.specs, Function.update_of_ne hsp]

/-- A block that was free is nobody's filter. -/
theorem Owns.notMem_of_free (h : Owns a rs) (hfree : ∀ f ∈ n.addresses, a.filters f = none) :
    ∀ f ∈ filtersOf rs, f ∉ n.addresses := by
  intro f hf hmem
  obtain ⟨r, -, hr, -⟩ := h.allocated f hf
  rw [hfree f hmem] at hr
  cases hr

/-- The specification of a filter is another block than one that was free. -/
private theorem Owns.specsOf_ne (h : Owns a rs) {sp : ℕ} (hfree : a.specs sp = none) {f : ℕ}
    (hf : f ∈ filtersOf rs) : a.specsOf f ≠ some sp := by
  obtain ⟨r, q, hr, hq⟩ := h.allocated f hf
  rw [Registry.specsOf, hr, Option.map_some]
  intro hsp
  rw [Option.some.inj hsp, hfree] at hq
  cases hq

/-- **The rules keep what they have** when something is allocated beside it. -/
theorem Owns.extend (h : Owns a rs) (hb : Extends a b n)
    (hfilters : ∀ f ∈ n.addresses, a.filters f = none) (hsp : a.specs n.sp = none) : Owns b rs := by
  have hsame : ∀ f ∈ filtersOf rs, b.filters f = a.filters f := fun f hf =>
    hb.filters f (h.notMem_of_free hfilters f hf)
  have hspecsOf : ∀ f ∈ filtersOf rs, b.specsOf f = a.specsOf f := by
    intro f hf
    rw [Registry.specsOf, Registry.specsOf, hsame f hf]
  refine ⟨h.distinct, fun f hf => ?_, fun x hx f hf g hg => ?_, ?_, fun c f hf => ?_⟩
  · obtain ⟨r, sp, hr, hspr⟩ := h.allocated f hf
    refine ⟨r, sp, (hsame f hf).trans hr, (hb.specs_ne fun heq => ?_).trans hspr⟩
    rw [heq, hsp] at hspr
    cases hspr
  · rw [hspecsOf f (mem_filtersOf hx hf), hspecsOf g (mem_filtersOf hx hg)]
    exact h.shared x hx f hf g hg
  · refine h.apart.imp_of_mem fun {x y} hx hy hxy f hf g hg => ?_
    rw [hspecsOf f (mem_filtersOf hx hf), hspecsOf g (mem_filtersOf hy hg)]
    exact hxy f hf g hg
  · rw [hb.registered] at hf
    exact h.covered c f hf

end Extends

namespace InterceptorManager

variable {s s' : InterceptorManager} {a : Registry} {order : EntryPoint → List ℕ}
  {rs : List (ℕ × Rule)} {l : List (ℕ × ℕ)}

/-- **A rule is made**: the managers hold what they held, and the rule is new to them. -/
theorem holding_makeRule (h : Holding s.manager a order rs) {n : Made}
    (hn : s.Admissible (.registerRule n)) :
    ∃ s' order', s.makeRule n = .ok s' ∧ s'.intList = s.intList ∧
      s'.manager.names = s.manager.names ∧
      Holding s'.manager (Run.exec Registry.step a n.events) order' rs ∧
      NewRule s'.manager (Run.exec Registry.step a n.events) rs
        (n.rule, ⟨s.nextId, n.interceptor, n.addresses⟩) := by
  obtain ⟨hnamed, hrule, hsp, hnodup, hfree⟩ := hn
  rw [h.toRegisters.specs] at hsp
  rw [h.toRegisters.filters] at hfree
  have hb := a.extends_made hnodup
  have hunused := h.toOwns.notMem_of_free hfree
  have hsteps : Run.AllSteps Registry.step Registry.Admissible a n.events := by
    refine ⟨trivial, Registry.allSteps_create fun f hf c hmem => ?_⟩
    exact hunused f.address (h.covered c f.address hmem) (List.mem_map_of_mem hf)
  obtain ⟨chains, hchains, order', hregisters⟩ := h.toRegisters.run hsteps
  have hpointer : n.rule ∉ rs.map Prod.fst := by
    intro hmem
    obtain ⟨x, hx, hxn⟩ := List.mem_map.mp hmem
    have hr := h.rules x hx
    rw [hxn, hrule] at hr
    cases hr
  refine ⟨s.allocateRule n chains, order', ?_, rfl, rfl,
    ⟨hregisters, h.toOwns.extend hb hfree hsp, h.list, h.pointers, fun x hx => ?_, h.named⟩,
    ⟨Function.update_self _ _ _, hpointer, hnamed, hnodup, hunused, fun f hf => ?_,
      fun f hf g hg => ?_, fun f hf g hg => ?_⟩⟩
  · rw [makeRule, hchains]
    rfl
  · have hne : x.1 ≠ n.rule := ne_of_mem_of_not_mem (List.mem_map_of_mem hx) hpointer
    exact (Function.update_of_ne hne _ _).trans (h.rules x hx)
  · obtain ⟨r, hr, hrsp⟩ := hb.made f hf
    exact ⟨r, n.specs, hr, by rw [hb.specs, hrsp, Function.update_self]⟩
  · rw [hb.specsOf_made hf, hb.specsOf_made hg]
  · rw [hb.specsOf_made hg, Registry.specsOf, hb.filters f (hunused f hf)]
    exact h.toOwns.specsOf_ne hsp hf

/-! ### Changes -/

/-- The search goes on behind an interceptor with another name, and keeps it. -/
private theorem findInterceptor_other {name : List Char} {l₁ l₂ : List (ℕ × ℕ)} {n : ℕ × ℕ}
    (hl : s.intList.Holds (l₁ ++ n :: l₂))
    (hother : ∃ other, s.manager.names n.2 = some other ∧ name ≠ other) (fuel : ℕ)
    (kn : Option ℕ) :
    s.findInterceptor name (fuel + 1) (some n.1) kn =
      s.findInterceptor name fuel (headAddr none l₂) (some n.1) := by
  obtain ⟨other, hother, hne⟩ := hother
  rw [findInterceptor, hl.iteratorNext, ok_bind, hl.node_ok, ok_bind,
    Manager.descriptorName_ok hother, ok_bind, if_neg hne]

/-- **An interceptor that is registered is found**: the first one with the name. -/
theorem findInterceptor_of_mem {name : List Char} {l₁ l₂ : List (ℕ × ℕ)} {cur i : ℕ}
    (hl : s.intList.Holds (l₁ ++ (cur, i) :: l₂)) (hname : s.manager.names i = some name)
    (hother : ∀ n ∈ l₁, ∃ other, s.manager.names n.2 = some other ∧ name ≠ other) :
    s.findInterceptor name (s.intList.next + 1) s.intList.first none = .ok (some cur) := by
  obtain ⟨fuel, hwalk⟩ := hl.walk_to (f := s.findInterceptor name) fun _ n _ hn hmem =>
    findInterceptor_other hn (hother n hmem)
  rw [hwalk, findInterceptor, hl.iteratorNext, ok_bind, hl.node_ok, ok_bind,
    Manager.descriptorName_ok hname, ok_bind, if_pos rfl]
  rfl

/-- **Where no interceptor has the name**, the search ends with the last one. -/
theorem findInterceptor_of_notMem {name : List Char} (hl : s.intList.Holds l)
    (hother : ∀ n ∈ l, ∃ other, s.manager.names n.2 = some other ∧ name ≠ other) :
    s.findInterceptor name (s.intList.next + 1) s.intList.first none = .ok (lastAddr none l) := by
  obtain ⟨fuel, hwalk⟩ := hl.walk_past (f := s.findInterceptor name) fun _ n _ hn hmem =>
    findInterceptor_other hn (hother n hmem)
  rw [hwalk, findInterceptor]

end InterceptorManager

private theorem Manager.dirty_registerRule {m m' : Manager} {r : ℕ}
    (h : m.registerRule r = .ok m') :
    m'.dirty = true := by
  rw [registerRule] at h
  obtain ⟨kl, -, h⟩ := bind_eq_ok.mp h
  obtain ⟨x, -, h⟩ := bind_eq_ok.mp h
  obtain ⟨chains, -, h⟩ := bind_eq_ok.mp h
  cases h
  rfl

private theorem Manager.dirty_unregisterRule {m m' : Manager} {id : UInt32}
    (h : m.unregisterRule id = .ok m') : m' = m ∨ m'.dirty = true := by
  rw [unregisterRule] at h
  obtain ⟨found, -, h⟩ := bind_eq_ok.mp h
  cases found with
  | none =>
    cases h
    exact .inl rfl
  | some it =>
    obtain ⟨m₁, -, h⟩ := bind_eq_ok.mp h
    cases h
    exact .inr rfl

namespace Managed

variable {s s' : InterceptorManager} {a : Registry} {order : EntryPoint → List ℕ}
  {rs : List (ℕ × Rule)} {l : List (ℕ × ℕ)}

theorem start (names : ℕ → Option (List Char)) :
    Managed (InterceptorManager.start names) .init (fun _ => []) [] [] :=
  ⟨Holding.nil rfl rfl, KList.holds_makeKlist, fun _ hn => nomatch hn⟩

/-- The mark `dirty` is nothing that the lists depend on. -/
theorem clean (h : Managed s a order rs l) :
    Managed { s with manager := { s.manager with dirty := false } } a order rs l :=
  ⟨⟨h.holding.toRegisters, h.holding.toOwns, h.holding.list, h.holding.pointers, h.holding.rules,
    h.holding.named⟩, h.interceptors, h.descriptors⟩

theorem registerInterceptor (h : Managed s a order rs l) {i : ℕ}
    (hi : s.Admissible (.registerInterceptor i)) :
    ∃ s', s.registerInterceptor i = .ok s' ∧ s'.manager.names = s.manager.names ∧
      Managed s' a order rs (l ++ [(s.intList.next, i)]) ∧ s'.manager.dirty = true := by
  obtain ⟨kl, hkl, hholds⟩ := h.interceptors.push i
  refine ⟨{ s with intList := kl, manager := s.manager.messProcEntry }, ?_, rfl,
    ⟨h.holding.messProcEntry, hholds, ?_⟩, rfl⟩
  · rw [InterceptorManager.registerInterceptor, hkl]
    rfl
  · exact List.forall_mem_append.mpr ⟨h.descriptors, List.forall_mem_singleton.mpr hi⟩

/-- The descriptors that do not have a name have another one. -/
theorem others (h : Managed s a order rs l) {name : List Char} {l' : List (ℕ × ℕ)}
    (hsub : ∀ n ∈ l', n ∈ l) (hne : ∀ n ∈ l', s.manager.names n.2 ≠ some name) :
    ∀ n ∈ l', ∃ other, s.manager.names n.2 = some other ∧ name ≠ other := by
  intro n hn
  obtain ⟨other, hother⟩ := h.descriptors n (hsub n hn)
  exact ⟨other, hother, fun heq => hne n hn (heq ▸ hother)⟩

/-- **The node that was found is removed**, with the rules of the interceptor, if there are no
others. -/
theorem unregisterFound {l₁ l₂ : List (ℕ × ℕ)} {kn x : ℕ}
    (h : Managed s a order rs (l₁ ++ (kn, x) :: l₂)) {name : List Char}
    (hfound : s.findInterceptor name (s.intList.next + 1) s.intList.first none = .ok (some kn))
    (hall : ∀ x ∈ rs, s.manager.names x.2.interceptor = some name) :
    ∃ s' a' order', s.unregisterInterceptor name = .ok (s', 1) ∧
      Managed s' a' order' [] (l₁ ++ l₂) ∧ s'.manager.dirty = true := by
  obtain ⟨kl, hkl, hholds⟩ := h.interceptors.remove
  have hfuel : rs.length ≤ s.manager.ruleList.next := by
    obtain ⟨nodes, hnodes, hmap⟩ := h.holding.list
    have hlen := congrArg List.length hmap
    rw [List.length_map, List.length_map] at hlen
    exact hlen ▸ hnodes.length_le_next
  obtain ⟨m', a', order', hm', hnames, hholding⟩ := h.holding.terminates hall hfuel
  refine ⟨{ s with manager := m'.messProcEntry, intList := kl }, a', order', ?_,
    ⟨hholding.messProcEntry, hholds, fun n hn => ?_⟩, rfl⟩
  · rw [InterceptorManager.unregisterInterceptor, hfound, ok_bind]
    dsimp only
    rw [hm', ok_bind, hkl, ok_bind]
    rfl
  · have hmem : n ∈ l₁ ++ (kn, x) :: l₂ := by
      rw [List.mem_append] at hn ⊢
      exact hn.imp_right (List.mem_cons_of_mem _)
    obtain ⟨name', hname'⟩ := h.descriptors n hmem
    exact ⟨name', (congrFun hnames n.2).trans hname'⟩

/-- **With a rule of another interceptor**, the call does not return. -/
theorem unregisterFound_endless (h : Managed s a order rs l) {name : List Char} {kn : ℕ}
    (hfound : s.findInterceptor name (s.intList.next + 1) s.intList.first none = .ok (some kn))
    (hother : ∃ x ∈ rs, s.manager.names x.2.interceptor ≠ some name) :
    s.unregisterInterceptor name = .error .endless := by
  rw [InterceptorManager.unregisterInterceptor, hfound, ok_bind]
  dsimp only
  rw [h.holding.endless hother]
  rfl

/-- The node at which the search for a name ends. -/
theorem findInterceptor_cases (h : Managed s a order rs l) (name : List Char) :
    (l = [] ∧ s.findInterceptor name (s.intList.next + 1) s.intList.first none = .ok none) ∨
      ∃ l₁ n l₂, l = l₁ ++ n :: l₂ ∧
        s.findInterceptor name (s.intList.next + 1) s.intList.first none = .ok (some n.1) := by
  cases hfind : l.find? fun n => decide (s.manager.names n.2 = some name) with
  | some n =>
    obtain ⟨hname, l₁, l₂, rfl, hne⟩ := List.find?_eq_some_iff_append.mp hfind
    refine .inr ⟨l₁, n, l₂, rfl, ?_⟩
    exact InterceptorManager.findInterceptor_of_mem h.interceptors (of_decide_eq_true hname)
      (h.others (fun _ hn => List.mem_append_left _ hn) fun n hn => by simpa using hne n hn)
  | none =>
    have hne : ∀ n ∈ l, s.manager.names n.2 ≠ some name := by simpa using hfind
    have hlast := InterceptorManager.findInterceptor_of_notMem h.interceptors
      (h.others (fun _ hn => hn) hne)
    rcases l.eq_nil_or_concat with rfl | ⟨l', n, rfl⟩
    · exact .inl ⟨rfl, hlast⟩
    · rw [List.concat_eq_append, lastAddr_concat] at hlast
      exact .inr ⟨l', n, [], List.concat_eq_append, hlast⟩

/-- An interceptor is unregistered, unless the call does not return. -/
private theorem unregisterInterceptor (h : Managed s a order rs l) {name : List Char} {ret : ℕ}
    (hs' : s.unregisterInterceptor name = .ok (s', ret)) :
    (∃ a' order' rs' l', Managed s' a' order' rs' l') ∧ (s' = s ∨ s'.manager.dirty = true) := by
  rcases h.findInterceptor_cases name with ⟨-, hfound⟩ | ⟨l₁, n, l₂, rfl, hfound⟩
  · rw [InterceptorManager.unregisterInterceptor, hfound] at hs'
    cases hs'
    exact ⟨⟨a, order, rs, l, h⟩, .inl rfl⟩
  · by_cases hall : ∀ x ∈ rs, s.manager.names x.2.interceptor = some name
    · obtain ⟨s₁, a', order', hs₁, h', hdirty⟩ := h.unregisterFound hfound hall
      cases hs₁.symm.trans hs'
      exact ⟨⟨a', order', [], l₁ ++ l₂, h'⟩, .inr hdirty⟩
    · rw [not_forall] at hall
      obtain ⟨x, hx⟩ := hall
      rw [h.unregisterFound_endless hfound ⟨x, Classical.not_imp.mp hx⟩] at hs'
      cases hs'

theorem registerRule (h : Managed s a order rs l) {n : Made}
    (hn : s.Admissible (.registerRule n)) :
    ∃ s' order', s.step (.registerRule n) = .ok s' ∧
      Managed s'
        (Run.exec Registry.step (Run.exec Registry.step a n.events) (n.addresses.map .register))
        order' (rs ++ [(n.rule, ⟨s.nextId, n.interceptor, n.addresses⟩)]) l ∧
      s'.manager.dirty = true := by
  obtain ⟨s₁, order₁, hs₁, hlist, hnames₁, hholding, hnew⟩ :=
    InterceptorManager.holding_makeRule h.holding hn
  obtain ⟨m', order', hm', hnames', hholding'⟩ := hholding.registerRule hnew
  refine ⟨{ s₁ with manager := m' }, order', ?_, ⟨hholding', hlist ▸ h.interceptors, ?_⟩,
    Manager.dirty_registerRule hm'⟩
  · rw [InterceptorManager.step, hs₁, ok_bind, hm']
    rfl
  · rw [hnames', hnames₁]
    exact h.descriptors

private theorem unregisterRule (h : Managed s a order rs l) (id : UInt32) :
    ∃ s' a' order' rs', s.step (.unregisterRule id) = .ok s' ∧ Managed s' a' order' rs' l ∧
      (s' = s ∨ s'.manager.dirty = true) := by
  rcases exists_first_id rs id with hid | ⟨rs₁, x, rs₂, rfl, rfl, hid⟩
  · refine ⟨s, a, order, rs, ?_, h, .inl rfl⟩
    rw [InterceptorManager.step, Manager.unregisterRule, h.holding.unregisterRule_of_none hid]
    rfl
  · obtain ⟨m', order', hm', hnames, hholding⟩ := h.holding.unregisterRule hid
    refine ⟨{ s with manager := m' }, _, order', _, ?_, ⟨hholding, h.interceptors, ?_⟩, ?_⟩
    · rw [InterceptorManager.step, hm']
      rfl
    · rw [hnames]
      exact h.descriptors
    · rcases Manager.dirty_unregisterRule hm' with rfl | hdirty
      · exact .inl rfl
      · exact .inr hdirty

/-- **A change** leads to managed lists again, and marks the file as dirty if there is one. -/
theorem step (h : Managed s a order rs l) {e : ManagerEvent} (he : s.Admissible e)
    (hs' : s.step e = .ok s') :
    (∃ a' order' rs' l', Managed s' a' order' rs' l') ∧ (s' = s ∨ s'.manager.dirty = true) := by
  cases e with
  | registerInterceptor i =>
    obtain ⟨s₁, hs₁, -, h', hdirty⟩ := h.registerInterceptor he
    cases hs₁.symm.trans hs'
    exact ⟨⟨a, order, rs, _, h'⟩, .inr hdirty⟩
  | unregisterInterceptor name =>
    obtain ⟨⟨s₁, ret⟩, hs₁, hs'⟩ := bind_eq_ok.mp hs'
    cases hs'
    exact h.unregisterInterceptor hs₁
  | registerRule n =>
    obtain ⟨s₁, order', hs₁, h', hdirty⟩ := h.registerRule he
    cases hs₁.symm.trans hs'
    exact ⟨⟨_, order', _, l, h'⟩, .inr hdirty⟩
  | unregisterRule id =>
    obtain ⟨s₁, a', order', rs', hs₁, h', hdirty⟩ := h.unregisterRule id
    cases hs₁.symm.trans hs'
    exact ⟨⟨a', order', rs', l, h'⟩, hdirty⟩

end Managed

end MiaVita.Framework
