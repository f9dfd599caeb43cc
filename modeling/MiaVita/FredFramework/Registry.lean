import MiaVita.FredFramework.Chains
import MiaVita.Lib.Run

/-!
# The registry of filters

What the chains are for: `Registry` has, at each entry point, the filters that are registered there
in the order of their registration. `Registers s a order` says that the chains `s` hold the filters
of the registry `a`, by decreasing priority and in the order of registration among equals.

Filters are made, registered, unregistered and freed (`FilterEvent`). `Registers.step` follows the
chains and the registry through one such event, one lemma for each function of the source, and
`Registers.run` through every history of them.
-/

namespace MiaVita.Framework

open PriorityOrder Fallible

/-! ### Events -/

/-- What is done to the filters; a specification is freed through a filter that has it. -/
inductive FilterEvent where
  | createFilterSpecs (sp : ℕ) (r : FilterSpecs)
  | createFilter (f : ℕ) (r : Filter)
  | register (f : ℕ)
  | unregister (f : ℕ)
  | freeFilterSpecs (f : ℕ)
  | freeFilter (f : ℕ)

/-- The step of the chains. -/
def Chains.step (s : Chains) : FilterEvent → Except Crash Chains
  | .createFilterSpecs sp r => .ok { s with specs := Function.update s.specs sp (some r) }
  | .createFilter f r => .ok { s with filters := Function.update s.filters f (some r) }
  | .register f => do
    let x ← s.registerFilter f
    return x.1
  | .unregister f => s.unregisterFilter f
  | .freeFilterSpecs f => do
    let r ← s.filter f
    s.freeFilterSpecs r.filterSpecs
  | .freeFilter f => s.freeFilter f

/-- What the chains are for: at each entry point, the filters in the order of their registration. -/
structure Registry where
  filters : ℕ → Option Filter
  specs : ℕ → Option FilterSpecs
  registered : EntryPoint → List ℕ

namespace Registry

/-- Nothing is registered. -/
def init : Registry := ⟨fun _ => none, fun _ => none, fun _ => []⟩

/-- The entry point of a filter. -/
def entryPoint (a : Registry) (f : ℕ) : Option EntryPoint :=
  (a.filters f).bind fun r => chainOf r.filterAt

/-- The step of the registry. An entry point takes ten filters. -/
def step (a : Registry) : FilterEvent → Registry
  | .createFilterSpecs sp r => { a with specs := Function.update a.specs sp (some r) }
  | .createFilter f r => { a with filters := Function.update a.filters f (some r) }
  | .register f =>
    match a.entryPoint f with
    | some c =>
      if (a.registered c).length < maxFiltersPerChain then
        { a with registered := Function.update a.registered c (a.registered c ++ [f]) }
      else a
    | none => a
  | .unregister f =>
    match a.entryPoint f with
    | some c => { a with registered := Function.update a.registered c ((a.registered c).erase f) }
    | none => a
  | .freeFilterSpecs f =>
    match a.filters f with
    | some r => { a with specs := Function.update a.specs r.filterSpecs none }
    | none => a
  | .freeFilter f => { a with filters := Function.update a.filters f none }

/-- The histories in question: the filters are allocated, none is registered while it is registered
already, a registered filter stays what it is, and nothing is freed that is not allocated. The place
of what was freed may be used again. -/
def Admissible (a : Registry) : FilterEvent → Prop
  | .createFilterSpecs _ _ => True
  | .createFilter f _ => ∀ c, f ∉ a.registered c
  | .register f => (∃ r, a.filters f = some r) ∧ ∀ c, f ∉ a.registered c
  | .unregister f => ∃ r, a.filters f = some r
  | .freeFilterSpecs f => ∃ r sp, a.filters f = some r ∧ a.specs r.filterSpecs = some sp
  | .freeFilter f => (∃ r, a.filters f = some r) ∧ ∀ c, f ∉ a.registered c

/-- A filter is registered once, at its own entry point, and none has more than ten. -/
structure Valid (a : Registry) : Prop where
  nodup : ∀ c, (a.registered c).Nodup
  place : ∀ c, ∀ f ∈ a.registered c, a.entryPoint f = some c
  limit : ∀ c, (a.registered c).length ≤ maxFiltersPerChain

end Registry

/-- The chains hold what is registered, by priority. -/
structure Registers (s : Chains) (a : Registry) (order : EntryPoint → List ℕ) : Prop extends
    s.Contains order, a.Valid where
  filters : s.filters = a.filters
  specs : s.specs = a.specs
  ordered : ∀ c, Ordered s.priority (a.registered c) (order c)

theorem registers_init : Registers initChains .init fun _ => [] where
  toContains := Chains.contains_initChains
  nodup _ := List.nodup_nil
  place _ _ h := nomatch h
  limit _ := Nat.zero_le _
  filters := rfl
  specs := rfl
  ordered _ := .nil _

namespace Registers

variable {s : Chains} {a : Registry} {order : EntryPoint → List ℕ} {f : ℕ} {c : EntryPoint}

theorem length_eq (h : Registers s a order) (c : EntryPoint) :
    (order c).length = (a.registered c).length := (h.ordered c).perm.length_eq

/-- A filter with an entry point is there. -/
private theorem filter_of_entryPoint (h : Registers s a order) (hf : a.entryPoint f = some c) :
    ∃ r, s.filters f = some r ∧ chainOf r.filterAt = some c := by
  rw [Registry.entryPoint, Option.bind_eq_some_iff, ← h.filters] at hf
  exact hf

theorem live (h : Registers s a order) (c : EntryPoint) :
    ∀ f ∈ order c, ∃ r, s.filters f = some r := by
  intro f hf
  obtain ⟨r, hr, -⟩ := h.filter_of_entryPoint (h.place c f ((h.ordered c).perm.mem_iff.mp hf))
  exact ⟨r, hr⟩

/-- One entry point changed. -/
private theorem update (h : Registers s a order) {s' : Chains} {fs rs : List ℕ}
    (hs' : s'.Contains (Function.update order c fs)) (hfilters : s'.filters = s.filters)
    (hspecs : s'.specs = s.specs) (hordered : Ordered s.priority rs fs) (hnodup : rs.Nodup)
    (hplace : ∀ f ∈ rs, a.entryPoint f = some c) (hlimit : rs.length ≤ maxFiltersPerChain) :
    Registers s' { a with registered := Function.update a.registered c rs }
      (Function.update order c fs) := by
  have hpriority : s'.priority = s.priority := by
    funext g
    rw [Chains.priority, Chains.priority, hfilters]
  refine ⟨hs', ⟨fun d => ?_, fun d => ?_, fun d => ?_⟩, hfilters.trans h.filters,
    hspecs.trans h.specs, fun d => ?_⟩
  all_goals
    dsimp only
    by_cases hd : d = c
  · subst hd
    rwa [Function.update_self]
  · rw [Function.update_of_ne hd]
    exact h.nodup d
  · subst hd
    rw [Function.update_self]
    exact hplace
  · rw [Function.update_of_ne hd]
    exact h.place d
  · subst hd
    rwa [Function.update_self]
  · rw [Function.update_of_ne hd]
    exact h.limit d
  · subst hd
    rw [Function.update_self, Function.update_self, hpriority]
    exact hordered
  · rw [Function.update_of_ne hd, Function.update_of_ne hd, hpriority]
    exact h.ordered d

/-- **A registration** is refused exactly at a full chain, and then changes nothing. -/
theorem register (h : Registers s a order) (hf : a.entryPoint f = some c)
    (hnew : f ∉ a.registered c) :
    ∃ s' ret, s.registerFilter f = .ok (s', ret) ∧
      (ret = 0 ↔ (a.registered c).length = maxFiltersPerChain) ∧ (ret = 0 → s' = s) ∧
      ∃ order', Registers s' (a.step (.register f)) order' := by
  obtain ⟨r, hr, hchain⟩ := h.filter_of_entryPoint hf
  rw [Chains.registerFilter, Chains.filter_ok hr, ok_bind, hchain, Registry.step, hf]
  dsimp only
  by_cases hfull : (a.registered c).length = maxFiltersPerChain
  · rw [h.registerFilterIn_full ((h.length_eq c).trans hfull), if_neg (by rw [hfull]; decide)]
    exact ⟨s, 0, rfl, iff_of_true rfl hfull, fun _ => rfl, order, h⟩
  · have hlt : (a.registered c).length < maxFiltersPerChain := by
      have hle := h.limit c
      omega
    obtain ⟨s', hi, lo, hs', hfilters, hspecs, hcut, hcontains, hhi, hlo⟩ :=
      h.toContains.registerFilterIn hr (h.live c) (by rw [h.length_eq c]; exact hlt)
    rw [hs', if_pos hlt]
    refine ⟨s', 1, rfl, iff_of_false (by decide) hfull, fun h' => absurd h' (by decide), _,
      h.update hcontains hfilters hspecs ?_ ?_ ?_ ?_⟩
    · have hordered := h.ordered c
      rw [hcut] at hordered
      exact hordered.insert hhi hlo
    · exact List.nodup_append.mpr ⟨h.nodup c, List.nodup_singleton f, fun g hg g' hg' hgg' =>
        hnew (by rwa [← List.mem_singleton.mp hg', ← hgg'])⟩
    · intro g hg
      rcases List.mem_append.mp hg with hg | hg
      · exact h.place c g hg
      · rwa [List.mem_singleton.mp hg]
    · rw [List.length_append, List.length_singleton]
      exact hlt

/-- **A filter unregistered.** -/
theorem unregister (h : Registers s a order) {r : Filter} (hf : a.filters f = some r) :
    ∃ s', s.unregisterFilter f = .ok s' ∧
      ∃ order', Registers s' (a.step (.unregister f)) order' := by
  have hr : s.filters f = some r := h.filters ▸ hf
  have hentry : a.entryPoint f = chainOf r.filterAt := by
    rw [Registry.entryPoint, hf]
    rfl
  rw [Chains.unregisterFilter, Chains.filter_ok hr, ok_bind, Registry.step, hentry]
  cases hchain : chainOf r.filterAt with
  | none => exact ⟨s, rfl, order, h⟩
  | some c =>
    obtain ⟨s', hs', hfilters, hspecs, hcontains⟩ :=
      h.toContains.unregisterFilterIn (c := c) (f := f)
    refine ⟨s', hs', _,
      h.update hcontains hfilters hspecs ((h.ordered c).erase (h.nodup c) f) ?_ ?_ ?_⟩
    · exact (h.nodup c).erase f
    · exact fun g hg => h.place c g (List.mem_of_mem_erase hg)
    · exact le_trans List.length_erase_le (h.limit c)

/-- What is at a place that no registered filter has may change. -/
private theorem setFilter (h : Registers s a order) (hf : ∀ c, f ∉ a.registered c)
    (r : Option Filter) :
    Registers { s with filters := Function.update s.filters f r }
      { a with filters := Function.update a.filters f r } order := by
  have hne : ∀ c, ∀ g ∈ a.registered c, g ≠ f := by
    rintro c g hg rfl
    exact hf c hg
  refine ⟨h.toContains.congr rfl, ⟨h.nodup, fun c g hg => ?_, h.limit⟩, ?_, h.specs, fun c => ?_⟩
  · rw [Registry.entryPoint]
    dsimp only
    rw [Function.update_of_ne (hne c g hg)]
    exact h.place c g hg
  · dsimp only
    rw [h.filters]
  · refine (h.ordered c).congr fun g hg => ?_
    rw [Chains.priority, Chains.priority]
    dsimp only
    rw [Function.update_of_ne (hne c g hg)]

/-- The specifications may change. -/
theorem setSpecs (h : Registers s a order) (sp : ℕ) (r : Option FilterSpecs) :
    Registers { s with specs := Function.update s.specs sp r }
      { a with specs := Function.update a.specs sp r } order := by
  refine ⟨h.toContains.congr rfl, ⟨h.nodup, h.place, h.limit⟩, h.filters, ?_, h.ordered⟩
  dsimp only
  rw [h.specs]

/-- **The chains follow the registry.** -/
theorem step (h : Registers s a order) {e : FilterEvent} (he : a.Admissible e) :
    ∃ s', s.step e = .ok s' ∧ ∃ order', Registers s' (a.step e) order' := by
  cases e with
  | createFilterSpecs sp r => exact ⟨_, rfl, order, h.setSpecs sp (some r)⟩
  | createFilter f r => exact ⟨_, rfl, order, h.setFilter he (some r)⟩
  | register f =>
    obtain ⟨⟨r, hf⟩, hnew⟩ := he
    cases hentry : a.entryPoint f with
    | none =>
      -- an invalid `filter_at` is refused
      have hchain : chainOf r.filterAt = none := by rwa [Registry.entryPoint, hf] at hentry
      have hr : s.filters f = some r := h.filters ▸ hf
      rw [Chains.step, Chains.registerFilter, Chains.filter_ok hr, ok_bind, hchain, Registry.step,
        hentry]
      exact ⟨s, rfl, order, h⟩
    | some c =>
      obtain ⟨s', ret, hs', -, -, horder'⟩ := h.register hentry (hnew c)
      refine ⟨s', ?_, horder'⟩
      rw [Chains.step, hs']
      rfl
  | unregister f =>
    obtain ⟨r, hf⟩ := he
    exact h.unregister hf
  | freeFilterSpecs f =>
    obtain ⟨r, sp, hr, hsp⟩ := he
    have hr' : s.filters f = some r := h.filters ▸ hr
    have hsp' : s.specs r.filterSpecs = some sp := h.specs ▸ hsp
    rw [Chains.step, Chains.filter_ok hr', ok_bind, Chains.freeFilterSpecs, Chains.spec_ok hsp',
      ok_bind, Registry.step, hr]
    exact ⟨_, rfl, order, h.setSpecs r.filterSpecs none⟩
  | freeFilter f =>
    obtain ⟨⟨r, hr⟩, hf⟩ := he
    have hr' : s.filters f = some r := h.filters ▸ hr
    rw [Chains.step, Chains.freeFilter, Chains.filter_ok hr', ok_bind]
    exact ⟨_, rfl, order, h.setFilter hf none⟩

/-- **The chains follow the registry along every history.** -/
theorem run (h : Registers s a order) {es : List FilterEvent}
    (hes : Run.AllSteps Registry.step Registry.Admissible a es) :
    ∃ s', Run.execM Chains.step s es = .ok s' ∧
      ∃ order', Registers s' (Run.exec Registry.step a es) order' := by
  have hstep : ∀ (s : Chains) (a : Registry) (e : FilterEvent), (∃ order, Registers s a order) →
      a.Admissible e → ∃ s', s.step e = .ok s' ∧ ∃ order', Registers s' (a.step e) order' := by
    rintro s a e ⟨order, h⟩ he
    exact h.step he
  exact Run.simulation_allSteps hstep ⟨order, h⟩ hes

end Registers

end MiaVita.Framework
