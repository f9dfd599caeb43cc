import MiaVita.FredFramework.Registry

/-!
# Rules (`fred_framework`, `rule.c`, `rule_manager.c`)

A rule is a set of filters that an interceptor made for one specification, which they share. The
rule manager keeps the registered rules in a list; a rule that is registered has its filters put
into the chains, and one that is removed has them taken out and freed, together with the
specification.

`Holding m a order rs` says that the manager `m` holds the rules `rs`: they are in its list, in that
order, the filters in the chains (the registry `a`) are filters of these rules, and each rule has
its filters and its specification for itself (`Owns`). Registering a rule leads from such a state to
another (`Holding.registerRule`), and so does the removal of a rule: it is taken out of the list
(`Holding.unlist`), and then its filters are unregistered and freed (`Unlisted.freeRule`).

`unregister_rules_for_interceptor` goes on to the next rule only by removing the current one. It
stays forever at a rule of another interceptor, and so it ends exactly if there is none.
-/

namespace MiaVita.Framework

open LinkedList Fallible

/-! ### The functions -/

/-- `rule`: its interceptor and its filters are pointers; `number_of_filters` is the length. -/
structure Rule where
  id : UInt32
  interceptor : ℕ
  filters : List ℕ

/-- The rule manager, over the chains, with the rules that are allocated and the names of the
interceptors; `dirty` is the mark that `mess_proc_entry` sets. -/
structure Manager where
  chains : Chains
  ruleList : KList
  rules : ℕ → Option Rule
  names : ℕ → Option (List Char)
  dirty : Bool

namespace Manager

/-- `*r`. -/
def rule (m : Manager) (r : ℕ) : Except Crash Rule :=
  match m.rules r with
  | some x => .ok x
  | none => .error (.freed r)

/-- `i->name`, for a descriptor. -/
def descriptorName (m : Manager) (i : ℕ) : Except Crash (List Char) :=
  match m.names i with
  | some name => .ok name
  | none => .error (.freed i)

/-- The loop of `free_rule_and_unregister_filters`, from the `i`-th filter on, step by step. -/
def removal : ℕ → List ℕ → List FilterEvent
  | _, [] => []
  | i, f :: fs =>
    .unregister f ::
      ((if i = 0 then [.freeFilterSpecs f] else []) ++ .freeFilter f :: removal (i + 1) fs)

/-- `free_rule_and_unregister_filters`. -/
def freeRuleAndUnregisterFilters (m : Manager) (r : ℕ) : Except Crash Manager := do
  let x ← m.rule r
  let chains ← Run.execM Chains.step m.chains (removal 0 x.filters)
  return { m with chains := chains, rules := Function.update m.rules r none }

/-- `mess_proc_entry`. -/
def messProcEntry (m : Manager) : Manager := { m with dirty := true }

/-- `register_rule`. A filter that is refused is only reported. -/
def registerRule (m : Manager) (r : ℕ) : Except Crash Manager := do
  let kl ← (m.ruleList.makeKlistNode r).1.addKlistNodeToKlist (m.ruleList.makeKlistNode r).2
  let x ← m.rule r
  let chains ← Run.execM Chains.step m.chains (x.filters.map .register)
  return { m with chains := chains, ruleList := kl }.messProcEntry

/-- `if (r) free_rule_and_unregister_filters(r)`, behind a node that was removed. -/
def freeRemoved (m : Manager) (it : KList × Option ℕ × Option ℕ) : Except Crash Manager :=
  match it.2.2 with
  | some r => freeRuleAndUnregisterFilters { m with ruleList := it.1 } r
  | none => .ok { m with ruleList := it.1 }

/-- The search of `unregister_rule`, up to the removal from the list. -/
def unregisterRuleLoop (m : Manager) (id : UInt32) :
    ℕ → Option ℕ → Except Crash (Option (KList × Option ℕ × Option ℕ))
  | _, none => .ok none
  | 0, some _ => .error .endless
  | fuel + 1, some cur => do
    let n ← m.ruleList.node (some cur)
    let x ← m.rule n.data
    if x.id = id then do
      let it ← m.ruleList.klistIteratorRemoveCurrent (some cur)
      return some it
    else do
      let it ← m.ruleList.klistIteratorNext (some cur)
      unregisterRuleLoop m id fuel it.2

/-- `unregister_rule`. -/
def unregisterRule (m : Manager) (id : UInt32) : Except Crash Manager := do
  let found ← m.unregisterRuleLoop id (m.ruleList.next + 1) m.ruleList.first
  match found with
  | some it => do
    let m' ← m.freeRemoved it
    return m'.messProcEntry
  | none => .ok m

/-- The loop of `unregister_rules_for_interceptor`. -/
def unregisterRulesLoop (name : List Char) : ℕ → Manager → Option ℕ → Except Crash Manager
  | _, m, none => .ok m
  | 0, _, some _ => .error .endless
  | fuel + 1, m, some cur => do
    let n ← m.ruleList.node (some cur)
    let x ← m.rule n.data
    let owner ← m.descriptorName x.interceptor
    if name = owner then do
      let it ← m.ruleList.klistIteratorRemoveCurrent (some cur)
      let m' ← m.freeRemoved it
      unregisterRulesLoop name fuel m'.messProcEntry it.2.1
    else unregisterRulesLoop name fuel m (some cur)

/-- `unregister_rules_for_interceptor`, for at most `fuel` rounds of its loop. -/
def unregisterRulesForInterceptor (m : Manager) (name : List Char) (fuel : ℕ) :
    Except Crash Manager :=
  unregisterRulesLoop name fuel m m.ruleList.first

theorem rule_ok {m : Manager} {r : ℕ} {x : Rule} (h : m.rules r = some x) : m.rule r = .ok x := by
  rw [rule, h]

theorem descriptorName_ok {m : Manager} {i : ℕ} {name : List Char} (h : m.names i = some name) :
    m.descriptorName i = .ok name := by
  rw [descriptorName, h]

end Manager

/-! ### Removing filters from the registry -/

namespace Registry

variable {a : Registry} {f : ℕ} {fs : List ℕ}

/-- The registry without some filters. -/
def without (a : Registry) (fs : List ℕ) : Registry :=
  { a with
    filters := fun g => if g ∈ fs then none else a.filters g
    registered := fun c => (a.registered c).filter (· ∉ fs) }

/-- A filter leaves all entry points. -/
theorem step_unregister (h : a.Valid) (f : ℕ) :
    a.step (.unregister f) = { a with registered := fun c => (a.registered c).filter (· ≠ f) } := by
  have hself : ∀ d, f ∉ a.registered d → (a.registered d).filter (· ≠ f) = a.registered d := by
    intro d hd
    refine List.filter_eq_self.mpr fun g hg => ?_
    simpa using ne_of_mem_of_not_mem hg hd
  rw [step]
  cases hc : a.entryPoint f with
  | none =>
    have hnot : ∀ d, f ∉ a.registered d := by
      intro d hd
      rw [h.place d f hd] at hc
      cases hc
    simp only [hself _ (hnot _)]
  | some c =>
    dsimp only
    congr 1
    funext d
    by_cases hd : d = c
    · subst hd
      rw [Function.update_self, (h.nodup d).erase_eq_filter]
      refine List.filter_congr fun g _ => ?_
      rw [Bool.eq_iff_iff]
      simp
    · have hnot : f ∉ a.registered d := by
        intro hmem
        rw [h.place d f hmem] at hc
        exact hd (Option.some.inj hc)
      rw [Function.update_of_ne hd, hself d hnot]

private theorem Valid.without (h : a.Valid) (fs : List ℕ) : (a.without fs).Valid := by
  refine ⟨fun c => (h.nodup c).filter _, fun c f hf => ?_, fun c => ?_⟩
  · obtain ⟨hf, hfs⟩ := List.mem_filter.mp hf
    have hplace := h.place c f hf
    rw [entryPoint] at hplace ⊢
    dsimp only [Registry.without]
    rwa [if_neg (of_decide_eq_true hfs)]
  · exact le_trans (List.length_filter_le _ _) (h.limit c)

private theorem filters_without_singleton {g : ℕ} (h : g ≠ f) :
    (a.without [f]).filters g = a.filters g :=
  if_neg fun hmem => h (List.mem_singleton.mp hmem)

/-- One filter unregistered and freed. -/
private theorem step_freeFilter (h : a.Valid) (f : ℕ) :
    (a.step (.unregister f)).step (.freeFilter f) = a.without [f] := by
  rw [step_unregister h, step, without]
  dsimp only
  congr 1
  · funext g
    by_cases hg : g = f
    · rw [hg, Function.update_self, if_pos (List.mem_singleton_self f)]
    · rw [Function.update_of_ne hg]
      exact (filters_without_singleton hg).symm
  · funext c
    refine List.filter_congr fun g _ => ?_
    simp

private theorem without_without (a : Registry) (f : ℕ) (fs : List ℕ) :
    (a.without [f]).without fs = a.without (f :: fs) := by
  rw [without, without, without]
  dsimp only
  congr 1
  · funext g
    by_cases hg : g ∈ fs <;> by_cases hf : g = f <;> simp [hg, hf]
  · funext c
    rw [List.filter_filter]
    refine List.filter_congr fun g _ => ?_
    rw [Bool.eq_iff_iff]
    simp [not_or, and_comm]

/-- **The loop behind the first filter**: each is unregistered, then freed. -/
theorem exec_removal (h : a.Valid) {i : ℕ} (hi : i ≠ 0) (hnodup : fs.Nodup)
    (hlive : ∀ f ∈ fs, ∃ r, a.filters f = some r) :
    Run.AllSteps step Admissible a (Manager.removal i fs) ∧
      Run.exec step a (Manager.removal i fs) = a.without fs := by
  induction fs generalizing a i with
  | nil =>
    refine ⟨trivial, ?_⟩
    simp [Manager.removal, without]
  | cons f fs ih =>
    obtain ⟨hf, hfs⟩ := List.nodup_cons.mp hnodup
    obtain ⟨⟨r, hr⟩, hrest⟩ := List.forall_mem_cons.mp hlive
    have hlive' : ∀ g ∈ fs, ∃ r, (a.without [f]).filters g = some r := by
      intro g hg
      obtain ⟨t, ht⟩ := hrest g hg
      exact ⟨t, (filters_without_singleton (ne_of_mem_of_not_mem hg hf)).trans ht⟩
    have hfree : (a.step (.unregister f)).Admissible (.freeFilter f) := by
      rw [step_unregister h]
      exact ⟨⟨r, hr⟩, fun c hmem => by simpa using (List.mem_filter.mp hmem).2⟩
    obtain ⟨hsteps, hexec⟩ := ih (h.without [f]) (Nat.succ_ne_zero i) hfs hlive'
    rw [Manager.removal, if_neg hi, List.nil_append]
    rw [← step_freeFilter h f] at hsteps hexec
    refine ⟨⟨⟨r, hr⟩, hfree, hsteps⟩, ?_⟩
    rw [Run.exec_cons, Run.exec_cons, hexec, step_freeFilter h f, without_without]

/-- The specification of a filter. -/
def specsOf (a : Registry) (f : ℕ) : Option ℕ := (a.filters f).map Filter.filterSpecs

/-- The registry without the filters of a rule and without the specification of the first of them.
-/
def withoutRule (a : Registry) (fs : List ℕ) : Registry :=
  { a.without fs with
    specs := fun sp => if fs.head?.bind a.specsOf = some sp then none else a.specs sp }

/-- **A rule removed**: its filters are gone, and the specification of the first one. -/
theorem exec_removal_zero (h : a.Valid) (hnodup : fs.Nodup)
    (hlive : ∀ f ∈ fs, ∃ r sp, a.filters f = some r ∧ a.specs r.filterSpecs = some sp) :
    Run.AllSteps step Admissible a (Manager.removal 0 fs) ∧
      Run.exec step a (Manager.removal 0 fs) = a.withoutRule fs := by
  cases fs with
  | nil =>
    refine ⟨trivial, ?_⟩
    simp [Manager.removal, withoutRule, without]
  | cons f fs =>
    obtain ⟨hf, hfs⟩ := List.nodup_cons.mp hnodup
    obtain ⟨⟨r, sp, hr, hsp⟩, hrest⟩ := List.forall_mem_cons.mp hlive
    -- freeing the specification changes nothing that the other steps look at
    let b : Registry := { a with specs := Function.update a.specs r.filterSpecs none }
    have hb : b.Valid := ⟨h.nodup, h.place, h.limit⟩
    have hstep : (a.step (.unregister f)).step (.freeFilterSpecs f) = b.step (.unregister f) := by
      rw [step_unregister h, step_unregister hb, step]
      dsimp only
      rw [hr]
    have hlive' : ∀ g ∈ fs, ∃ r, (b.without [f]).filters g = some r := by
      intro g hg
      obtain ⟨t, -, ht, -⟩ := hrest g hg
      exact ⟨t, (filters_without_singleton (ne_of_mem_of_not_mem hg hf)).trans ht⟩
    have hspecs : (a.step (.unregister f)).Admissible (.freeFilterSpecs f) := by
      rw [step_unregister h]
      exact ⟨r, sp, hr, hsp⟩
    have hfree : ((a.step (.unregister f)).step (.freeFilterSpecs f)).Admissible
        (.freeFilter f) := by
      rw [hstep, step_unregister hb]
      exact ⟨⟨r, hr⟩, fun c hmem => by simpa using (List.mem_filter.mp hmem).2⟩
    obtain ⟨hsteps, hexec⟩ := exec_removal (hb.without [f]) Nat.one_ne_zero hfs hlive'
    rw [← step_freeFilter hb f, ← hstep] at hsteps hexec
    rw [Manager.removal, if_pos rfl]
    refine ⟨⟨⟨r, hr⟩, hspecs, hfree, hsteps⟩, hexec.trans ?_⟩
    rw [hstep, step_freeFilter hb f, without_without, withoutRule]
    have hhead : (f :: fs).head?.bind a.specsOf = some r.filterSpecs := by
      rw [List.head?_cons, Option.bind_some, specsOf, hr]
      rfl
    rw [hhead]
    dsimp only [without, b]
    congr 1
    funext q
    by_cases hq : q = r.filterSpecs
    · rw [hq, Function.update_self, if_pos rfl]
    · rw [Function.update_of_ne hq, if_neg fun h => hq (Option.some.inj h).symm]

theorem filters_withoutRule (h : f ∉ fs) : (a.withoutRule fs).filters f = a.filters f := if_neg h

theorem specsOf_withoutRule (h : f ∉ fs) : (a.withoutRule fs).specsOf f = a.specsOf f := by
  rw [specsOf, specsOf, filters_withoutRule h]

end Registry

/-! ### The rules that are registered -/

/-- The filters of some rules. -/
def filtersOf (rs : List (ℕ × Rule)) : List ℕ := rs.flatMap fun x => x.2.filters

/-- Each rule has its filters and its specification for itself, they are allocated, and every
registered filter belongs to a rule. -/
structure Owns (a : Registry) (rs : List (ℕ × Rule)) : Prop where
  distinct : (filtersOf rs).Nodup
  allocated : ∀ f ∈ filtersOf rs, ∃ r sp, a.filters f = some r ∧ a.specs r.filterSpecs = some sp
  shared : ∀ x ∈ rs, ∀ f ∈ x.2.filters, ∀ g ∈ x.2.filters, a.specsOf f = a.specsOf g
  apart : rs.Pairwise fun x y =>
    ∀ f ∈ x.2.filters, ∀ g ∈ y.2.filters, a.specsOf f ≠ a.specsOf g
  covered : ∀ c, ∀ f ∈ a.registered c, f ∈ filtersOf rs

/-- **Without its first rule**, the other rules have what they had. -/
theorem Owns.tail {a : Registry} {x : ℕ × Rule} {rs : List (ℕ × Rule)} (h : Owns a (x :: rs)) :
    Owns (a.withoutRule x.2.filters) rs := by
  have hcons : filtersOf (x :: rs) = x.2.filters ++ filtersOf rs := rfl
  have hdistinct := h.distinct
  have hallocated := h.allocated
  rw [hcons] at hdistinct hallocated
  obtain ⟨-, hrs, hdisjoint⟩ := List.nodup_append.mp hdistinct
  have hnot : ∀ f ∈ filtersOf rs, f ∉ x.2.filters := fun f hf hfx => hdisjoint f hfx f hf rfl
  have hmem : ∀ y ∈ rs, ∀ f ∈ y.2.filters, f ∈ filtersOf rs := fun y hy f hf =>
    List.mem_flatMap.mpr ⟨y, hy, hf⟩
  have hspecsOf : ∀ f ∈ filtersOf rs, (a.withoutRule x.2.filters).specsOf f = a.specsOf f :=
    fun f hf => Registry.specsOf_withoutRule (hnot f hf)
  obtain ⟨hx, hapart⟩ := List.pairwise_cons.mp h.apart
  refine ⟨hrs, fun f hf => ?_, fun y hy f hf g hg => ?_, ?_, fun c f hf => ?_⟩
  · obtain ⟨r, sp, hr, hsp⟩ := hallocated f (List.mem_append_right _ hf)
    refine ⟨r, sp, (Registry.filters_withoutRule (hnot f hf)).trans hr, ?_⟩
    -- the specification that is freed is that of the removed rule
    refine (if_neg fun hfreed => ?_).trans hsp
    rw [Option.bind_eq_some_iff] at hfreed
    obtain ⟨g, hg, hspecs⟩ := hfreed
    obtain ⟨y, hy, hfy⟩ := List.mem_flatMap.mp hf
    refine hx y hy g (List.mem_of_head? hg) f hfy (hspecs.trans ?_)
    rw [Registry.specsOf, hr]
    rfl
  · rw [hspecsOf f (hmem y hy f hf), hspecsOf g (hmem y hy g hg)]
    exact h.shared y (List.mem_cons_of_mem x hy) f hf g hg
  · refine hapart.imp_of_mem fun {y z} hy hz hyz f hf g hg => ?_
    rw [hspecsOf f (hmem y hy f hf), hspecsOf g (hmem z hz g hg)]
    exact hyz f hf g hg
  · obtain ⟨hf, hfx⟩ := List.mem_filter.mp hf
    have hcovered := h.covered c f hf
    rw [hcons] at hcovered
    exact (List.mem_append.mp hcovered).resolve_left (of_decide_eq_true hfx)

theorem mem_filtersOf {rs : List (ℕ × Rule)} {x : ℕ × Rule} {f : ℕ} (hx : x ∈ rs)
    (hf : f ∈ x.2.filters) : f ∈ filtersOf rs := List.mem_flatMap.mpr ⟨x, hx, hf⟩

/-- The first rule with an id, if there is one. -/
theorem exists_first_id (rs : List (ℕ × Rule)) (id : UInt32) :
    (∀ y ∈ rs, y.2.id ≠ id) ∨ ∃ rs₁ x rs₂, rs = rs₁ ++ x :: rs₂ ∧ x.2.id = id ∧
      ∀ y ∈ rs₁, y.2.id ≠ id := by
  cases hfind : rs.find? fun y => y.2.id = id with
  | none => exact .inl (by simpa using hfind)
  | some x =>
    obtain ⟨hx, rs₁, rs₂, hrs, hall⟩ := List.find?_eq_some_iff_append.mp hfind
    exact .inr ⟨rs₁, x, rs₂, hrs, by simpa using hx, fun y hy => by simpa using hall y hy⟩

/-- The order of the rules does not matter. -/
theorem Owns.perm {a : Registry} {rs rs' : List (ℕ × Rule)} (h : Owns a rs) (hrs : rs.Perm rs') :
    Owns a rs' := by
  have hfilters : (filtersOf rs).Perm (filtersOf rs') := hrs.flatMap_right _
  have hapart : ∀ {x y : ℕ × Rule},
      (∀ f ∈ x.2.filters, ∀ g ∈ y.2.filters, a.specsOf f ≠ a.specsOf g) →
        ∀ f ∈ y.2.filters, ∀ g ∈ x.2.filters, a.specsOf f ≠ a.specsOf g :=
    fun hxy f hf g hg => (hxy g hg f hf).symm
  exact ⟨hfilters.nodup_iff.mp h.distinct, fun f hf => h.allocated f (hfilters.mem_iff.mpr hf),
    fun x hx => h.shared x (hrs.mem_iff.mpr hx), (hrs.pairwise_iff hapart).mp h.apart,
    fun c f hf => hfilters.mem_iff.mp (h.covered c f hf)⟩

/-- The list of the manager is `rs`, with the rules that it points to. -/
structure Lists (m : Manager) (rs : List (ℕ × Rule)) : Prop where
  list : ∃ l, m.ruleList.Holds l ∧ l.map Prod.snd = rs.map Prod.fst
  pointers : (rs.map Prod.fst).Nodup
  rules : ∀ x ∈ rs, m.rules x.1 = some x.2
  named : ∀ x ∈ rs, ∃ name, m.names x.2.interceptor = some name

/-- The manager holds the rules `rs`, and the chains the filters of the registry `a`. -/
structure Holding (m : Manager) (a : Registry) (order : EntryPoint → List ℕ)
    (rs : List (ℕ × Rule)) : Prop extends Registers m.chains a order, Owns a rs, Lists m rs

namespace Lists

variable {m : Manager} {rs rs₁ rs₂ : List (ℕ × Rule)} {x : ℕ × Rule}

theorem rule_ok (h : Lists m rs) (hx : x ∈ rs) : m.rule x.1 = .ok x.2 :=
  Manager.rule_ok (h.rules x hx)

/-- The node of a rule. -/
private theorem node_of_append (h : Lists m (rs₁ ++ x :: rs₂)) :
    ∃ l₁ cur l₂, m.ruleList.Holds (l₁ ++ (cur, x.1) :: l₂) ∧ l₁.map Prod.snd = rs₁.map Prod.fst ∧
      l₂.map Prod.snd = rs₂.map Prod.fst := by
  obtain ⟨l, hl, hmap⟩ := h.list
  rw [List.map_append, List.map_cons, List.map_eq_append_iff] at hmap
  obtain ⟨l₁, l', rfl, hl₁, hmap⟩ := hmap
  rw [List.map_eq_cons_iff] at hmap
  obtain ⟨⟨cur, r⟩, l₂, rfl, hr, hl₂⟩ := hmap
  obtain rfl : r = x.1 := hr
  exact ⟨l₁, cur, l₂, hl, hl₁, hl₂⟩

end Lists

/-- A rule has been taken out of the list, and nothing else was done yet. -/
structure Unlisted (m : Manager) (a : Registry) (order : EntryPoint → List ℕ) (x : ℕ × Rule)
    (rs : List (ℕ × Rule)) : Prop extends
    Registers m.chains a order, Owns a (x :: rs), Lists m rs where
  rule : m.rules x.1 = some x.2
  pointer : x.1 ∉ rs.map Prod.fst

/-- The steps of the removal of a rule are those that it takes to have it gone. -/
theorem Owns.removal {a : Registry} {x : ℕ × Rule} {rs : List (ℕ × Rule)} (h : Owns a (x :: rs))
    (ha : a.Valid) :
    Run.AllSteps Registry.step Registry.Admissible a (Manager.removal 0 x.2.filters) ∧
      Run.exec Registry.step a (Manager.removal 0 x.2.filters) = a.withoutRule x.2.filters :=
  Registry.exec_removal_zero ha (List.nodup_append.mp h.distinct).1
    fun f hf => h.allocated f (List.mem_append_left (filtersOf rs) hf)

/-- The rule itself freed. -/
theorem Lists.freeRule {m : Manager} {rs : List (ℕ × Rule)} {r : ℕ} (h : Lists m rs)
    (hr : r ∉ rs.map Prod.fst) (s : Chains) :
    Lists { m with chains := s, rules := Function.update m.rules r none } rs := by
  refine ⟨h.list, h.pointers, fun y hy => ?_, h.named⟩
  have hne : y.1 ≠ r := ne_of_mem_of_not_mem (List.mem_map_of_mem hy) hr
  exact (Function.update_of_ne hne _ _).trans (h.rules y hy)

/-- **An unlisted rule is freed with its filters.** -/
theorem Unlisted.freeRule {m : Manager} {a : Registry} {order : EntryPoint → List ℕ}
    {x : ℕ × Rule} {rs : List (ℕ × Rule)} (h : Unlisted m a order x rs) :
    ∃ m' order', m.freeRuleAndUnregisterFilters x.1 = .ok m' ∧ m'.ruleList = m.ruleList ∧
      m'.names = m.names ∧ Holding m' (a.withoutRule x.2.filters) order' rs := by
  obtain ⟨hsteps, hexec⟩ := h.toOwns.removal h.toValid
  obtain ⟨s', hs', order', hregisters⟩ := h.toRegisters.run hsteps
  rw [hexec] at hregisters
  refine ⟨{ m with chains := s', rules := Function.update m.rules x.1 none }, order', ?_, rfl, rfl,
    hregisters, h.toOwns.tail, h.toLists.freeRule h.pointer s'⟩
  rw [Manager.freeRuleAndUnregisterFilters, Manager.rule_ok h.rule, ok_bind, hs', ok_bind]
  rfl

namespace Holding

variable {m : Manager} {a : Registry} {order : EntryPoint → List ℕ} {rs rs₁ rs₂ : List (ℕ × Rule)}
  {x : ℕ × Rule} {name : List Char}

/-- **A rule is taken out of the list.** -/
theorem unlist (h : Holding m a order (rs₁ ++ x :: rs₂)) {l₁ l₂ : List (ℕ × ℕ)} {cur : ℕ}
    (hl : m.ruleList.Holds (l₁ ++ (cur, x.1) :: l₂)) (hl₁ : l₁.map Prod.snd = rs₁.map Prod.fst)
    (hl₂ : l₂.map Prod.snd = rs₂.map Prod.fst) :
    ∃ kl, m.ruleList.klistIteratorRemoveCurrent (some cur) =
        .ok (kl, headAddr none l₂, some x.1) ∧ kl.Holds (l₁ ++ l₂) ∧
      Unlisted { m with ruleList := kl } a order x (rs₁ ++ rs₂) := by
  obtain ⟨kl, hkl, hholds⟩ := hl.removeCurrent
  have hsub : ∀ y ∈ rs₁ ++ rs₂, y ∈ rs₁ ++ x :: rs₂ := by
    intro y hy
    rw [List.mem_append] at hy ⊢
    exact hy.imp_right (List.mem_cons_of_mem x)
  have hperm : (rs₁ ++ x :: rs₂).Perm (x :: (rs₁ ++ rs₂)) := List.perm_middle
  have hpointers := (hperm.map Prod.fst).nodup_iff.mp h.pointers
  rw [List.map_cons, List.nodup_cons] at hpointers
  refine ⟨kl, hkl, hholds, h.toRegisters, h.toOwns.perm hperm, ⟨⟨l₁ ++ l₂, hholds, ?_⟩,
    hpointers.2, fun y hy => h.rules y (hsub y hy), fun y hy => h.named y (hsub y hy)⟩,
    h.rules x (by simp), hpointers.1⟩
  rw [List.map_append, List.map_append, hl₁, hl₂]

/-- The current rule of an iterator at the start of the list. -/
private theorem first_eq (h : Holding m a order (x :: rs)) :
    ∃ cur l, m.ruleList.first = some cur ∧ m.ruleList.Holds ((cur, x.1) :: l) ∧
      l.map Prod.snd = rs.map Prod.fst := by
  obtain ⟨l₁, cur, l₂, hl, hl₁, hl₂⟩ :=
    Lists.node_of_append (show Lists m ([] ++ x :: rs) from h.toLists)
  obtain rfl := List.map_eq_nil_iff.mp hl₁
  exact ⟨cur, l₂, hl.first_eq, hl, hl₂⟩

/-- **The first rule taken out**: the iterator goes on at the new start of the list. -/
theorem unlistFirst (h : Holding m a order (x :: rs)) :
    ∃ cur l kl, m.ruleList.first = some cur ∧ m.ruleList.Holds ((cur, x.1) :: l) ∧
      m.ruleList.klistIteratorRemoveCurrent (some cur) = .ok (kl, kl.first, some x.1) ∧
      Unlisted { m with ruleList := kl } a order x rs := by
  obtain ⟨cur, l, hfirst, hl, hmap⟩ := h.first_eq
  obtain ⟨kl, hkl, hholds, hunlisted⟩ := unlist (show Holding m a order ([] ++ x :: rs) from h)
    (show KList.Holds _ ([] ++ (cur, x.1) :: l) from hl) rfl hmap
  refine ⟨cur, l, kl, hfirst, hl, ?_, hunlisted⟩
  rw [hkl, hholds.first_eq]
  rfl

theorem messProcEntry (h : Holding m a order rs) : Holding m.messProcEntry a order rs :=
  ⟨h.toRegisters, h.toOwns, h.list, h.pointers, h.rules, h.named⟩

end Holding

/-! ### Registering rules -/

/-- One filter gets registered, or is refused. -/
theorem Registry.step_register (a : Registry) (f : ℕ) :
    (a.step (.register f)).filters = a.filters ∧ (a.step (.register f)).specs = a.specs ∧
      ∀ c, ∀ g ∈ (a.step (.register f)).registered c, g ∈ a.registered c ∨ g = f := by
  rw [Registry.step]
  split
  · rename_i c _
    split_ifs
    · refine ⟨rfl, rfl, fun d g hg => ?_⟩
      dsimp only at hg
      by_cases hd : d = c
      · subst hd
        rw [Function.update_self] at hg
        exact (List.mem_append.mp hg).imp_right List.mem_singleton.mp
      · rw [Function.update_of_ne hd] at hg
        exact .inl hg
    · exact ⟨rfl, rfl, fun d g hg => .inl hg⟩
  · exact ⟨rfl, rfl, fun d g hg => .inl hg⟩

/-- Filters that are not registered get registered, or are refused. -/
private theorem Registry.exec_register {a : Registry} {fs : List ℕ} (hnodup : fs.Nodup)
    (hlive : ∀ f ∈ fs, ∃ r, a.filters f = some r) (hnew : ∀ f ∈ fs, ∀ c, f ∉ a.registered c) :
    Run.AllSteps Registry.step Registry.Admissible a (fs.map .register) ∧
      (Run.exec Registry.step a (fs.map .register)).filters = a.filters ∧
      (Run.exec Registry.step a (fs.map .register)).specs = a.specs := by
  induction fs generalizing a with
  | nil => exact ⟨trivial, rfl, rfl⟩
  | cons f fs ih =>
    obtain ⟨hf, hfs⟩ := List.nodup_cons.mp hnodup
    obtain ⟨⟨r, hr⟩, hlive⟩ := List.forall_mem_cons.mp hlive
    obtain ⟨hfnew, hnew⟩ := List.forall_mem_cons.mp hnew
    obtain ⟨hfilters, hspecs, hregistered⟩ := a.step_register f
    have hnew' : ∀ g ∈ fs, ∀ c, g ∉ (a.step (.register f)).registered c := by
      intro g hg c hmem
      rcases hregistered c g hmem with hmem | rfl
      · exact hnew g hg c hmem
      · exact hf hg
    obtain ⟨hsteps, hfilters', hspecs'⟩ := ih hfs (hfilters ▸ hlive) hnew'
    exact ⟨⟨⟨⟨r, hr⟩, hfnew⟩, hsteps⟩, hfilters'.trans hfilters, hspecs'.trans hspecs⟩

/-- **What is accepted**: at each entry point as many of the filters as there is room for, in their
order. -/
theorem Registry.registered_exec_register (a : Registry) (fs : List ℕ) (c : EntryPoint) :
    (Run.exec Registry.step a (fs.map .register)).registered c =
      a.registered c ++ (fs.filter fun f => a.entryPoint f = some c).take
        (maxFiltersPerChain - (a.registered c).length) := by
  induction fs generalizing a with
  | nil => simp
  | cons f fs ih =>
    have hentry : ∀ g, (a.step (.register f)).entryPoint g = a.entryPoint g := by
      intro g
      rw [entryPoint, (a.step_register f).1, entryPoint]
    rw [List.map_cons, Run.exec_cons, ih]
    simp only [hentry]
    rw [Registry.step]
    cases hf : a.entryPoint f with
    | none => rw [List.filter_cons_of_neg (by simp [hf])]
    | some d =>
      dsimp only
      by_cases hroom : (a.registered d).length < maxFiltersPerChain
      · rw [if_pos hroom]
        dsimp only
        by_cases hd : c = d
        · subst hd
          obtain ⟨k, hk⟩ := Nat.exists_eq_add_of_lt hroom
          rw [Function.update_self, List.filter_cons_of_pos (by simp [hf]), List.length_append,
            List.length_singleton, List.append_assoc]
          rw [show maxFiltersPerChain - (a.registered c).length = k + 1 by omega,
            show maxFiltersPerChain - ((a.registered c).length + 1) = k by omega,
            List.take_succ_cons]
          rfl
        · rw [Function.update_of_ne hd, List.filter_cons_of_neg (by simp [hf, Ne.symm hd])]
      · rw [if_neg hroom]
        by_cases hd : c = d
        · subst hd
          rw [Nat.sub_eq_zero_of_le (Nat.le_of_not_lt hroom), List.take_zero, List.take_zero]
        · rw [List.filter_cons_of_neg (by simp [hf, Ne.symm hd])]

/-- A rule that an interceptor has just made: it is nowhere registered, and its filters have a
specification of their own. -/
structure NewRule (m : Manager) (a : Registry) (rs : List (ℕ × Rule)) (x : ℕ × Rule) : Prop where
  rule : m.rules x.1 = some x.2
  pointer : x.1 ∉ rs.map Prod.fst
  named : ∃ name, m.names x.2.interceptor = some name
  distinct : x.2.filters.Nodup
  unused : ∀ f ∈ filtersOf rs, f ∉ x.2.filters
  allocated : ∀ f ∈ x.2.filters, ∃ r sp, a.filters f = some r ∧ a.specs r.filterSpecs = some sp
  shared : ∀ f ∈ x.2.filters, ∀ g ∈ x.2.filters, a.specsOf f = a.specsOf g
  apart : ∀ f ∈ filtersOf rs, ∀ g ∈ x.2.filters, a.specsOf f ≠ a.specsOf g

namespace Holding

variable {m : Manager} {a : Registry} {order : EntryPoint → List ℕ} {rs rs₁ rs₂ : List (ℕ × Rule)}
  {x : ℕ × Rule} {name : List Char}

/-- `start_rule_manager` and `init_chains`: no rule is registered. -/
theorem nil (hchains : m.chains.chains = initChains.chains) (hlist : m.ruleList = makeKlist) :
    Holding m ⟨m.chains.filters, m.chains.specs, fun _ => []⟩ (fun _ => []) [] where
  toContains := Chains.contains_initChains.congr hchains
  nodup _ := List.nodup_nil
  place _ _ h := nomatch h
  limit _ := Nat.zero_le _
  filters := rfl
  specs := rfl
  ordered _ := .nil _
  distinct := List.nodup_nil
  allocated _ h := nomatch h
  shared _ h := nomatch h
  apart := .nil
  covered _ _ h := nomatch h
  list := ⟨[], hlist ▸ KList.holds_makeKlist, rfl⟩
  pointers := List.nodup_nil
  rules _ h := nomatch h
  named _ h := nomatch h

/-- **A new rule registered.** -/
theorem registerRule (h : Holding m a order rs) (hx : NewRule m a rs x) :
    ∃ m' order', m.registerRule x.1 = .ok m' ∧ m'.names = m.names ∧
      Holding m' (Run.exec Registry.step a (x.2.filters.map .register)) order' (rs ++ [x]) := by
  obtain ⟨l, hl, hmap⟩ := h.list
  obtain ⟨kl, hkl, hholds⟩ := hl.push x.1
  have hlive : ∀ f ∈ x.2.filters, ∃ r, a.filters f = some r := by
    intro f hf
    obtain ⟨r, -, hr, -⟩ := hx.allocated f hf
    exact ⟨r, hr⟩
  have hnew : ∀ f ∈ x.2.filters, ∀ c, f ∉ a.registered c := fun f hf c hmem =>
    hx.unused f (h.covered c f hmem) hf
  obtain ⟨hsteps, hfilters, hspecs⟩ := Registry.exec_register hx.distinct hlive hnew
  obtain ⟨s', hs', order', hregisters⟩ := h.toRegisters.run hsteps
  have hspecsOf : (Run.exec Registry.step a (x.2.filters.map .register)).specsOf = a.specsOf := by
    funext f
    rw [Registry.specsOf, Registry.specsOf, hfilters]
  have happend : filtersOf (rs ++ [x]) = filtersOf rs ++ x.2.filters := by simp [filtersOf]
  refine ⟨{ m with chains := s', ruleList := kl, dirty := true }, order', ?_, rfl, hregisters, ?_,
    ⟨l ++ [(m.ruleList.next, x.1)], hholds, ?_⟩, ?_, ?_, ?_⟩
  · rw [Manager.registerRule, hkl, ok_bind, Manager.rule_ok hx.rule, ok_bind, hs', ok_bind]
    rfl
  · refine ⟨?_, ?_, ?_, ?_, ?_⟩
    · rw [happend]
      exact List.nodup_append.mpr ⟨h.distinct, hx.distinct, fun f hf g hg hfg =>
        hx.unused f hf (hfg ▸ hg)⟩
    · rw [happend, hfilters, hspecs]
      exact List.forall_mem_append.mpr ⟨h.allocated, hx.allocated⟩
    · rw [hspecsOf]
      exact List.forall_mem_append.mpr ⟨h.shared, List.forall_mem_singleton.mpr hx.shared⟩
    · rw [hspecsOf]
      refine List.pairwise_append.mpr ⟨h.apart, List.pairwise_singleton _ _, fun y hy z hz => ?_⟩
      obtain rfl := List.mem_singleton.mp hz
      exact fun f hf => hx.apart f (List.mem_flatMap.mpr ⟨y, hy, hf⟩)
    · intro c f hf
      rw [happend]
      rw [Registry.registered_exec_register] at hf
      rcases List.mem_append.mp hf with hf | hf
      · exact List.mem_append_left _ (h.covered c f hf)
      · exact List.mem_append_right _ (List.mem_filter.mp (List.mem_of_mem_take hf)).1
  · rw [List.map_append, List.map_append, hmap]
    rfl
  · rw [List.map_append]
    exact List.nodup_append.mpr ⟨h.pointers, List.nodup_singleton x.1, fun r hr q hq hrq =>
      hx.pointer (by rw [← List.mem_singleton.mp hq, ← hrq]; exact hr)⟩
  · exact List.forall_mem_append.mpr ⟨h.rules, List.forall_mem_singleton.mpr hx.rule⟩
  · exact List.forall_mem_append.mpr ⟨h.named, List.forall_mem_singleton.mpr hx.named⟩

/-! ### Unregistering one rule -/

/-- The search goes on behind a rule with another id. -/
private theorem unregisterRuleLoop_other {id : UInt32} {l₁ l₂ : List (ℕ × ℕ)} {n : ℕ × ℕ}
    (hl : m.ruleList.Holds (l₁ ++ n :: l₂)) (hother : ∃ y, m.rules n.2 = some y ∧ y.id ≠ id)
    (fuel : ℕ) :
    m.unregisterRuleLoop id (fuel + 1) (some n.1) =
      m.unregisterRuleLoop id fuel (headAddr none l₂) := by
  obtain ⟨y, hy, hid⟩ := hother
  rw [Manager.unregisterRuleLoop, hl.node_ok, ok_bind, Manager.rule_ok hy, ok_bind, if_neg hid,
    hl.iteratorNext, ok_bind]

/-- The nodes of rules with another id. -/
private theorem other_of_map (h : Lists m rs) {id : UInt32} {l : List (ℕ × ℕ)}
    (hsub : ∀ y ∈ rs₁, y ∈ rs)
    (hid : ∀ y ∈ rs₁, y.2.id ≠ id) (hl : l.map Prod.snd = rs₁.map Prod.fst) :
    ∀ n ∈ l, ∃ y, m.rules n.2 = some y ∧ y.id ≠ id := by
  intro n hn
  have hmem : n.2 ∈ rs₁.map Prod.fst := hl ▸ List.mem_map_of_mem hn
  obtain ⟨y, hy, hyn⟩ := List.mem_map.mp hmem
  exact ⟨y.2, hyn ▸ h.rules y (hsub y hy), hid y hy⟩

/-- **`unregister_rule` with an id that no rule has** changes nothing. -/
theorem unregisterRule_of_none (h : Holding m a order rs) {id : UInt32}
    (hid : ∀ y ∈ rs, y.2.id ≠ id) :
    m.unregisterRuleLoop id (m.ruleList.next + 1) m.ruleList.first = .ok none := by
  obtain ⟨l, hl, hmap⟩ := h.list
  have hother := other_of_map h.toLists (fun _ hy => hy) hid hmap
  obtain ⟨fuel, hwalk⟩ := hl.walk_past (f := fun fuel it _ => m.unregisterRuleLoop id fuel it)
    fun _ n _ hn hmem fuel _ => unregisterRuleLoop_other hn (hother n hmem) fuel
  rw [hwalk, Manager.unregisterRuleLoop]

/-- **`unregister_rule` takes the first rule with the id.** -/
theorem unregisterRule_unlist (h : Holding m a order (rs₁ ++ x :: rs₂))
    (hid : ∀ y ∈ rs₁, y.2.id ≠ x.2.id) :
    ∃ kl next, m.unregisterRuleLoop x.2.id (m.ruleList.next + 1) m.ruleList.first =
        .ok (some (kl, next, some x.1)) ∧
      Unlisted { m with ruleList := kl } a order x (rs₁ ++ rs₂) := by
  obtain ⟨l₁, cur, l₂, hl, hl₁, hl₂⟩ := h.toLists.node_of_append
  obtain ⟨kl, hkl, -, hunlisted⟩ := h.unlist hl hl₁ hl₂
  refine ⟨kl, headAddr none l₂, ?_, hunlisted⟩
  have hother := other_of_map h.toLists (fun y hy => List.mem_append_left _ hy) hid hl₁
  obtain ⟨fuel, hwalk⟩ := hl.walk_to (f := fun fuel it _ => m.unregisterRuleLoop x.2.id fuel it)
    fun _ n _ hn hmem fuel _ => unregisterRuleLoop_other hn (hother n hmem) fuel
  rw [hwalk, Manager.unregisterRuleLoop, hl.node_ok, ok_bind, h.rule_ok (by simp), ok_bind,
    if_pos rfl, hkl]
  rfl

/-- **`unregister_rule` removes the first rule with the id.** -/
theorem unregisterRule (h : Holding m a order (rs₁ ++ x :: rs₂))
    (hid : ∀ y ∈ rs₁, y.2.id ≠ x.2.id) :
    ∃ m' order', m.unregisterRule x.2.id = .ok m' ∧ m'.names = m.names ∧
      Holding m' (a.withoutRule x.2.filters) order' (rs₁ ++ rs₂) := by
  obtain ⟨kl, next, hloop, hunlisted⟩ := h.unregisterRule_unlist hid
  obtain ⟨m', order', hm', -, hnames, h'⟩ := hunlisted.freeRule
  have hfree : m.freeRemoved (kl, next, some x.1) = .ok m' := hm'
  refine ⟨m'.messProcEntry, order', ?_, hnames, h'.messProcEntry⟩
  rw [Manager.unregisterRule, hloop, ok_bind]
  dsimp only
  rw [hfree]
  rfl

/-! ### Unregistering the rules of an interceptor -/

/-- A rule of the interceptor at the start of the list is removed, and the next one is looked at. -/
private theorem loop_of_named (h : Holding m a order (x :: rs))
    (hname : m.names x.2.interceptor = some name) :
    ∃ m' a' order', m'.names = m.names ∧ Holding m' a' order' rs ∧ ∀ fuel,
      Manager.unregisterRulesLoop name (fuel + 1) m m.ruleList.first =
        Manager.unregisterRulesLoop name fuel m' m'.ruleList.first := by
  obtain ⟨cur, l, kl, hfirst, hl, hkl, hunlisted⟩ := h.unlistFirst
  obtain ⟨m', order', hm', hlist, hnames, h'⟩ := hunlisted.freeRule
  have hfree : m.freeRemoved (kl, kl.first, some x.1) = .ok m' := hm'
  refine ⟨m'.messProcEntry, _, order', hnames, h'.messProcEntry, fun fuel => ?_⟩
  rw [hfirst, Manager.unregisterRulesLoop, hl.node_first, ok_bind, h.rule_ok List.mem_cons_self,
    ok_bind, Manager.descriptorName_ok hname, ok_bind, if_pos rfl, hkl, ok_bind, hfree, ok_bind]
  rw [Manager.messProcEntry, hlist]

/-- At a rule of another interceptor the loop stays. -/
private theorem loop_of_other (h : Holding m a order (x :: rs))
    (hname : m.names x.2.interceptor ≠ some name) (fuel : ℕ) :
    Manager.unregisterRulesLoop name fuel m m.ruleList.first = .error .endless := by
  obtain ⟨cur, l, hfirst, hl, -⟩ := h.first_eq
  obtain ⟨owner, howner⟩ := h.named x List.mem_cons_self
  have hne : name ≠ owner := by
    rintro rfl
    exact hname howner
  rw [hfirst]
  induction fuel with
  | zero => rw [Manager.unregisterRulesLoop]
  | succ fuel ih =>
    rw [Manager.unregisterRulesLoop, hl.node_first, ok_bind,
      h.rule_ok List.mem_cons_self, ok_bind, Manager.descriptorName_ok howner, ok_bind, if_neg hne]
    exact ih

/-- **With a rule of another interceptor**, the loop has no end. -/
theorem endless (h : Holding m a order rs) (hother : ∃ x ∈ rs, m.names x.2.interceptor ≠ some name)
    (fuel : ℕ) : m.unregisterRulesForInterceptor name fuel = .error .endless := by
  rw [Manager.unregisterRulesForInterceptor]
  induction rs generalizing m a order fuel with
  | nil =>
    obtain ⟨x, hx, -⟩ := hother
    cases hx
  | cons x rs ih =>
    by_cases hname : m.names x.2.interceptor = some name
    · obtain ⟨m', a', order', hnames, h', hloop⟩ := h.loop_of_named hname
      obtain ⟨y, hy, hother⟩ := hother
      have hy' : y ∈ rs := (List.mem_cons.mp hy).resolve_left fun hyx => hother (hyx ▸ hname)
      cases fuel with
      | zero =>
        obtain ⟨cur, l, hfirst, -, -⟩ := h.first_eq
        rw [hfirst, Manager.unregisterRulesLoop]
      | succ fuel =>
        rw [hloop fuel]
        exact ih h' ⟨y, hy', hnames ▸ hother⟩ fuel
    · exact h.loop_of_other hname fuel

/-- **With rules of the interceptor only**, they are all removed. -/
theorem terminates (h : Holding m a order rs)
    (hall : ∀ x ∈ rs, m.names x.2.interceptor = some name) {fuel : ℕ} (hfuel : rs.length ≤ fuel) :
    ∃ m' a' order', m.unregisterRulesForInterceptor name fuel = .ok m' ∧ m'.names = m.names ∧
      Holding m' a' order' [] := by
  rw [Manager.unregisterRulesForInterceptor]
  induction rs generalizing m a order fuel with
  | nil =>
    obtain ⟨l, hl, hmap⟩ := h.list
    obtain rfl := List.map_eq_nil_iff.mp hmap
    refine ⟨m, a, order, ?_, rfl, h⟩
    rw [hl.first_eq, headAddr, Manager.unregisterRulesLoop]
  | cons x rs ih =>
    obtain ⟨hx, hall⟩ := List.forall_mem_cons.mp hall
    obtain ⟨m₁, a₁, order₁, hnames, h₁, hloop⟩ := h.loop_of_named hx
    obtain ⟨fuel, rfl⟩ := Nat.exists_eq_succ_of_ne_zero (Nat.ne_of_gt (Nat.zero_lt_of_lt hfuel))
    obtain ⟨m', a', order', hm', hnames', h'⟩ :=
      ih h₁ (hnames ▸ hall) (Nat.le_of_succ_le_succ hfuel)
    exact ⟨m', a', order', (hloop fuel).trans hm', hnames'.trans hnames, h'⟩

end Holding

/-- What `unregister_rules_for_interceptor` should do: end, and leave the rules of the other
interceptors, in their order, with exactly their filters in the chains. -/
def RemovesRulesOf (m : Manager) (a : Registry) (rs : List (ℕ × Rule)) (name : List Char) : Prop :=
  ∃ fuel m', m.unregisterRulesForInterceptor name fuel = .ok m' ∧
    ∃ a' order', Holding m' a' order' (rs.filter fun x => m.names x.2.interceptor ≠ some name) ∧
      ∀ c, a'.registered c = (a.registered c).filter
        (· ∈ filtersOf (rs.filter fun x => m.names x.2.interceptor ≠ some name))

/-- **The rules of an interceptor are removed exactly if there are no others.** -/
theorem removesRulesOf_iff {m : Manager} {a : Registry} {order : EntryPoint → List ℕ}
    {rs : List (ℕ × Rule)} (h : Holding m a order rs) (name : List Char) :
    RemovesRulesOf m a rs name ↔ ∀ x ∈ rs, m.names x.2.interceptor = some name := by
  constructor
  · rintro ⟨fuel, m', hm', -⟩
    by_contra hother
    rw [not_forall] at hother
    obtain ⟨x, hx⟩ := hother
    rw [h.endless ⟨x, Classical.not_imp.mp hx⟩] at hm'
    cases hm'
  · intro hall
    obtain ⟨m', a', order', hm', -, h'⟩ := h.terminates hall le_rfl
    have hnone : (rs.filter fun x => m.names x.2.interceptor ≠ some name) = [] := by
      refine List.filter_eq_nil_iff.mpr fun x hx => ?_
      simpa using hall x hx
    refine ⟨rs.length, m', hm', a', order', ?_, fun c => ?_⟩
    · rw [hnone]
      exact h'
    · have hempty : a'.registered c = [] :=
        List.eq_nil_iff_forall_not_mem.mpr fun f hf => nomatch h'.covered c f hf
      rw [hnone, hempty]
      exact (List.filter_eq_nil_iff.mpr fun f _ => by simp [filtersOf]).symm

/-- The rule of the aggregation module, with its filter behind the routing. -/
def aggregationRule : Rule := ⟨0, 0, [0]⟩

/-- Two modules are loaded; the first one has made a rule. -/
def twoModules : Manager where
  chains :=
    { initChains with
      filters := fun f => if f = 0 then some ⟨0xff, filterAtPostRt, 0, 0⟩ else none
      specs := fun sp => if sp = 0 then some ⟨0, 0, 0, 0, 0, 0⟩ else none }
  ruleList := makeKlist
  rules r := if r = 0 then some aggregationRule else none
  names i :=
    if i = 0 then some "aggregation".toList
    else if i = 1 then some "deaggregation".toList else none
  dirty := false

/-- The rule gets registered. -/
theorem twoModules_registerRule :
    ∃ m a order, twoModules.registerRule 0 = .ok m ∧ m.names = twoModules.names ∧
      Holding m a order [(0, aggregationRule)] := by
  have hfilters : ∀ f ∈ aggregationRule.filters, f = 0 := fun f hf => List.mem_singleton.mp hf
  have hnew : NewRule twoModules ⟨twoModules.chains.filters, twoModules.chains.specs, fun _ => []⟩
      [] (0, aggregationRule) := by
    refine ⟨rfl, List.not_mem_nil, ⟨_, rfl⟩, List.nodup_singleton 0, fun f hf => (nomatch hf),
      fun f hf => ?_, fun f hf g hg => ?_, fun f hf => (nomatch hf)⟩
    · obtain rfl := hfilters f hf
      exact ⟨_, _, rfl, rfl⟩
    · rw [hfilters f hf, hfilters g hg]
  obtain ⟨m, order, hm, hnames, h⟩ := (Holding.nil rfl rfl).registerRule hnew
  exact ⟨m, _, order, hm, hnames, h⟩

theorem removesRulesOf_aggregation :
    ∃ m a order, Holding m a order [(0, aggregationRule)] ∧
      RemovesRulesOf m a [(0, aggregationRule)] "aggregation".toList := by
  obtain ⟨m, a, order, -, hnames, h⟩ := twoModules_registerRule
  refine ⟨m, a, order, h, (removesRulesOf_iff h _).mpr fun x hx => ?_⟩
  rw [List.mem_singleton.mp hx, hnames]
  rfl

/-- **A module that is unloaded while another one has a rule** hangs. -/
theorem unregisterRules_endless :
    ∃ m a order, twoModules.registerRule 0 = .ok m ∧ Holding m a order [(0, aggregationRule)] ∧
      (∀ fuel,
        m.unregisterRulesForInterceptor "deaggregation".toList fuel = .error .endless) ∧
      ¬ RemovesRulesOf m a [(0, aggregationRule)] "deaggregation".toList := by
  obtain ⟨m, a, order, hm, hnames, h⟩ := twoModules_registerRule
  have hother : ∃ x ∈ [(0, aggregationRule)],
      m.names x.2.interceptor ≠ some "deaggregation".toList := by
    refine ⟨_, List.mem_singleton_self _, ?_⟩
    rw [hnames]
    decide
  refine ⟨m, a, order, hm, h, h.endless hother, ?_⟩
  rintro ⟨fuel, m', hm', -⟩
  rw [h.endless hother fuel] at hm'
  cases hm'

end MiaVita.Framework
