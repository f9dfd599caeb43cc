import MiaVita.FredFramework.InterceptorManager
import MiaVita.FredFramework.ProcView

/-!
# The list of interceptors and rules (`fred_framework`, `proc_entry.c`)

`/proc/interceptor_list` shows the interceptors and the rules. A read that finds the cache dirty
rebuilds it with `fill_proc_contents`, which walks over both lists; other reads are served from the
cache.

What there is to show is `InterceptorManager.view`. A rebuild appends to what is in the buffer
already: `buffer_offset` is never set back, so that only the first one can be right. The first one
is right exactly if nothing is lost or written behind the buffer (`View.Fits`): the text has at most
1024 bytes, the last filter counted with the 68 that are asked for, and no rule has an id with more
digits than `ruleid` has room for.

* `fillProcContents_iff` is the exact condition for one rebuild.
* `listsCurrent_iff` is the one for all the reads of a run.
-/

namespace MiaVita.Framework

open CText LinkedList Bytes Fallible

/-! ### The functions -/

/-- An access to the lists. -/
def access {α : Type} (x : Except Crash α) : Except ProcFault α := x.mapError .crash

/-- `for (i = make_klist_iterator(kl); klist_iterator_has_next(i);)`, with a body that gets
`klist_iterator_next(i)->data`. -/
def forEach {σ : Type} (kl : KList) (body : σ → ℕ → Except ProcFault σ) :
    ℕ → Option ℕ → σ → Except ProcFault σ
  | _, none, c => .ok c
  | 0, some _, _ => .error (.crash .endless)
  | fuel + 1, some cur, c => do
    let it ← access (kl.klistIteratorNext (some cur))
    let n ← access (kl.node it.1)
    let c ← body c n.data
    forEach kl body fuel it.2 c

/-- The loop from the start of the list. -/
def forAll {σ : Type} (kl : KList) (body : σ → ℕ → Except ProcFault σ) (c : σ) :
    Except ProcFault σ :=
  forEach kl body (kl.next + 1) kl.first c

/-- `sprintf(ruleid, "%u", r->id)`, with `ruleid[10]`. -/
def sprintfRuleid (id : UInt32) : Except ProcFault (List Char) :=
  if (Decimal.ofNat id.toNat).length < 10 then .ok (Decimal.ofNat id.toNat)
  else .error (.buffer (.write 0 ((Decimal.ofNat id.toNat).length + 1)))

/-- `fill_buffer_with_filter`. -/
def fillBufferWithFilter (s : Chains) (c : Cache) (f : ℕ) : Except ProcFault Cache := do
  let x ← access (s.filter f)
  let c ← c.fillBlock ⟨68, placePieces x⟩
  let sp ← access (s.spec x.filterSpecs)
  (specsPieces sp).foldlM Cache.appendToBuffer c

/-- The body of the first loop of `fill_proc_contents`. -/
def fillInterceptor (m : Manager) (c : Cache) (i : ℕ) : Except ProcFault Cache := do
  let name ← access (m.descriptorName i)
  c.fillBlock (interceptorBlock name)

/-- The body of the second loop of `fill_proc_contents`. -/
def fillRule (m : Manager) (c : Cache) (r : ℕ) : Except ProcFault Cache := do
  let x ← access (m.rule r)
  let name ← access (m.descriptorName x.interceptor)
  let ruleid ← sprintfRuleid x.id
  let c ← c.fillBlock (ruleBlock ruleid name)
  let c ← c.fillBlock headingBlock
  x.filters.foldlM (fun c f => do
    let c ← c.fillBlock tabBlock
    fillBufferWithFilter m.chains c f) c

/-- The framework with its file. -/
structure ProcList where
  managers : InterceptorManager
  cache : Cache

namespace ProcList

/-- `fill_proc_contents`. -/
def fillProcContents (s : ProcList) : Except ProcFault ProcList := do
  let c := { s.cache with fileBuffer := zeros s.cache.bufferSize }
  let c ← c.appendToBuffer header
  let c ← forAll s.managers.intList (fillInterceptor s.managers.manager) c
  let c ← forAll s.managers.manager.ruleList (fillRule s.managers.manager) c
  return {
    managers := { s.managers with manager := { s.managers.manager with dirty := false } }
    cache := c }

/-- `if (proc_contents.dirty) fill_proc_contents();` -/
def refresh (s : ProcList) : Except ProcFault ProcList :=
  if s.managers.manager.dirty then s.fillProcContents else .ok s

/-- `create_proc_contents`, before any interceptor is registered. -/
def start (names : ℕ → Option (List Char)) : ProcList :=
  ⟨.start names, ⟨1024, 0, zeros 1024⟩⟩

end ProcList

/-! ### The current state -/

/-- A filter, with its specification. -/
def Manager.filterView (m : Manager) (f : ℕ) : Except ProcFault (Filter × FilterSpecs) := do
  let x ← access (m.chains.filter f)
  let sp ← access (m.chains.spec x.filterSpecs)
  return (x, sp)

/-- A rule, with its filters. -/
def Manager.ruleView (m : Manager) (r : ℕ) : Except ProcFault RuleView := do
  let x ← access (m.rule r)
  let name ← access (m.descriptorName x.interceptor)
  let filters ← x.filters.mapM m.filterView
  return ⟨x.id, name, filters⟩

/-- The data of a list. -/
def KList.data (kl : KList) : Except ProcFault (List ℕ) :=
  forAll kl (fun l x => .ok (l ++ [x])) []

/-- **The current state**: what the two lists lead to. -/
def InterceptorManager.view (s : InterceptorManager) : Except ProcFault View := do
  let is ← s.intList.data
  let interceptors ← is.mapM fun i => access (s.manager.descriptorName i)
  let rs ← s.manager.ruleList.data
  let rules ← rs.mapM s.manager.ruleView
  return ⟨interceptors, rules⟩

/-! ### Walking over the lists -/

private theorem access_ok {α : Type} {x : Except Crash α} {a : α} (h : access x = .ok a) :
    x = .ok a := by
  cases x with
  | error e => cases h
  | ok b =>
    cases h
    rfl

/-- A loop over a list is a loop over its data. -/
private theorem forEach_eq {σ : Type} {kl : KList} {body : σ → ℕ → Except ProcFault σ}
    {l₁ l₂ : List (ℕ × ℕ)} (hl : kl.Holds (l₁ ++ l₂)) {fuel : ℕ} (hfuel : l₂.length ≤ fuel)
    (c : σ) :
    forEach kl body fuel (headAddr none l₂) c = (l₂.map Prod.snd).foldlM body c := by
  induction l₂ generalizing l₁ fuel c with
  | nil =>
    rw [headAddr, forEach]
    rfl
  | cons n l₂ ih =>
    obtain ⟨cur, x⟩ := n
    obtain ⟨fuel, rfl⟩ := Nat.exists_eq_succ_of_ne_zero (Nat.ne_of_gt (Nat.zero_lt_of_lt hfuel))
    have hl' : kl.Holds ((l₁ ++ [(cur, x)]) ++ l₂) := by rwa [← List.append_cons]
    rw [headAddr, forEach, hl.iteratorNext, List.map_cons, List.foldlM_cons]
    change (do
      let n ← access (kl.node (some cur))
      let c ← body c n.data
      forEach kl body fuel (headAddr none l₂) c) = _
    rw [hl.node_ok]
    change (do
      let c ← body c x
      forEach kl body fuel (headAddr none l₂) c) = _
    congr 1
    funext c'
    exact ih hl' (Nat.le_of_succ_le_succ hfuel) c'

private theorem forAll_eq {σ : Type} {kl : KList} {body : σ → ℕ → Except ProcFault σ}
    {l : List (ℕ × ℕ)}
    (hl : kl.Holds l) (c : σ) : forAll kl body c = (l.map Prod.snd).foldlM body c := by
  rw [forAll, hl.first_eq]
  exact forEach_eq (show kl.Holds ([] ++ l) from hl) (Nat.le_succ_of_le hl.length_le_next) c

private theorem data_eq {kl : KList} {l : List (ℕ × ℕ)} (hl : kl.Holds l) :
    kl.data = .ok (l.map Prod.snd) := by
  have hfold : ∀ xs acc : List ℕ,
      xs.foldlM (fun l x => (.ok (l ++ [x]) : Except ProcFault (List ℕ))) acc =
        .ok (acc ++ xs) := by
    intro xs
    induction xs with
    | nil =>
      intro acc
      rw [List.foldlM_nil, List.append_nil]
      rfl
    | cons x xs ih =>
      intro acc
      rw [List.foldlM_cons, ok_bind, ih, List.append_assoc]
      rfl
  rw [KList.data, forAll_eq hl, hfold, List.nil_append]

private theorem view_inv {s : InterceptorManager} {v : View} (h : s.view = .ok v) :
    ∃ is rs, s.intList.data = .ok is ∧ s.manager.ruleList.data = .ok rs ∧
      (is.mapM fun i => access (s.manager.descriptorName i)) = .ok v.interceptors ∧
      rs.mapM s.manager.ruleView = .ok v.rules := by
  rw [InterceptorManager.view] at h
  obtain ⟨is, his, h⟩ := bind_eq_ok.mp h
  obtain ⟨interceptors, hinterceptors, h⟩ := bind_eq_ok.mp h
  obtain ⟨rs, hrs, h⟩ := bind_eq_ok.mp h
  obtain ⟨rules, hrules, h⟩ := bind_eq_ok.mp h
  cases h
  exact ⟨is, rs, his, hrs, hinterceptors, hrules⟩

namespace Managed

variable {s : InterceptorManager} {a : Registry} {order : EntryPoint → List ℕ}
  {rs : List (ℕ × Rule)} {l : List (ℕ × ℕ)} {v : View}

private theorem filterView_ok (h : Managed s a order rs l) {f : ℕ} (hf : f ∈ filtersOf rs) :
    ∃ x, s.manager.filterView f = .ok x := by
  obtain ⟨r, sp, hr, hsp⟩ := h.holding.allocated f hf
  have hfilter : s.manager.chains.filter f = .ok r :=
    Chains.filter_ok (h.holding.toRegisters.filters ▸ hr)
  have hspec : s.manager.chains.spec r.filterSpecs = .ok sp := by
    rw [Chains.spec, h.holding.toRegisters.specs, hsp]
  refine ⟨(r, sp), ?_⟩
  rw [Manager.filterView, hfilter]
  change (do
    let sp ← access (s.manager.chains.spec r.filterSpecs)
    return (r, sp)) = _
  rw [hspec]
  rfl

private theorem ruleView_ok (h : Managed s a order rs l) {x : ℕ × Rule} (hx : x ∈ rs) :
    ∃ y, s.manager.ruleView x.1 = .ok y := by
  obtain ⟨name, hname⟩ := h.holding.named x hx
  obtain ⟨filters, hfilters⟩ := Fallible.mapM_ok fun f hf =>
    h.filterView_ok (mem_filtersOf hx hf)
  refine ⟨⟨x.2.id, name, filters⟩, ?_⟩
  rw [Manager.ruleView, h.holding.rule_ok hx]
  change (do
    let name ← access (s.manager.descriptorName x.2.interceptor)
    let filters ← x.2.filters.mapM s.manager.filterView
    return (⟨x.2.id, name, filters⟩ : RuleView)) = _
  rw [Manager.descriptorName_ok hname, hfilters]
  rfl

/-- Sound lists can be shown. -/
private theorem view_ok (h : Managed s a order rs l) : ∃ v, s.view = .ok v := by
  obtain ⟨nodes, hnodes, hmap⟩ := h.holding.list
  obtain ⟨interceptors, hinterceptors⟩ :
      ∃ names,
        ((l.map Prod.snd).mapM fun i => access (s.manager.descriptorName i)) = .ok names := by
    refine Fallible.mapM_ok fun i hi => ?_
    obtain ⟨n, hn, rfl⟩ := List.mem_map.mp hi
    obtain ⟨name, hname⟩ := h.descriptors n hn
    refine ⟨name, ?_⟩
    rw [Manager.descriptorName_ok hname]
    rfl
  obtain ⟨rules, hrules⟩ : ∃ rules, (rs.map Prod.fst).mapM s.manager.ruleView = .ok rules := by
    refine Fallible.mapM_ok fun r hr => ?_
    obtain ⟨x, hx, rfl⟩ := List.mem_map.mp hr
    exact h.ruleView_ok hx
  refine ⟨⟨interceptors, rules⟩, ?_⟩
  rw [InterceptorManager.view, data_eq h.interceptors, ok_bind, hinterceptors,
    ok_bind, data_eq hnodes, ok_bind, hmap, hrules]
  rfl

end Managed

/-! ### A rebuild, block by block -/

private theorem filterBlock_eq {m : Manager} {f : ℕ} {x : Filter × FilterSpecs}
    (h : m.filterView f = .ok x) (c : Cache) :
    (do
      let c ← c.fillBlock tabBlock
      fillBufferWithFilter m.chains c f) = [tabBlock, filterBlock x].foldlM Cache.fillBlock c := by
  rw [Manager.filterView] at h
  obtain ⟨y, hy, h⟩ := bind_eq_ok.mp h
  obtain ⟨sp, hsp, h⟩ := bind_eq_ok.mp h
  cases h
  rw [List.foldlM_cons]
  congr 1
  funext c'
  rw [fillBufferWithFilter, hy, ok_bind]
  simp only [hsp, ok_bind, List.foldlM_cons, List.foldlM_nil, bind_pure]
  exact List.foldlM_append.symm

/-- What the second loop does for a rule. -/
def fillRuleView (c : Cache) (r : RuleView) : Except ProcFault Cache := do
  let _ ← sprintfRuleid r.id
  (ruleBlocks r).foldlM Cache.fillBlock c

private theorem sprintfRuleid_eq_ok {id : UInt32} {ruleid : List Char} :
    sprintfRuleid id = .ok ruleid ↔ id.toNat < 10 ^ 9 ∧ ruleid = Decimal.ofNat id.toNat := by
  have hdigits : (Decimal.ofNat id.toNat).length < 10 ↔ id.toNat < 10 ^ 9 :=
    Nat.lt_succ_iff.trans (Decimal.length_ofNat_le_iff (by decide))
  rw [sprintfRuleid]
  split_ifs with h
  · rw [Except.ok.injEq, and_iff_right (hdigits.mp h), eq_comm]
  · exact iff_of_false (fun h' => nomatch h') fun h' => h (hdigits.mpr h'.1)

private theorem fillRule_eq {m : Manager} {r : ℕ} {v : RuleView} (h : m.ruleView r = .ok v)
    (c : Cache) :
    fillRule m c r = fillRuleView c v := by
  rw [Manager.ruleView] at h
  obtain ⟨x, hx, h⟩ := bind_eq_ok.mp h
  obtain ⟨name, hname, h⟩ := bind_eq_ok.mp h
  obtain ⟨filters, hfilters, h⟩ := bind_eq_ok.mp h
  cases h
  rw [fillRule, hx, ok_bind, hname, ok_bind, fillRuleView]
  cases hruleid : sprintfRuleid x.id with
  | error f => rfl
  | ok ruleid =>
    obtain ⟨-, rfl⟩ := sprintfRuleid_eq_ok.mp hruleid
    simp only [ok_bind, ruleBlocks, List.foldlM_cons, filterBlocks,
      Fallible.foldlM_flatMap]
    congr 1
    funext c₁
    congr 1
    funext c₂
    exact Fallible.foldlM_of_mapM (fun f y hy c => filterBlock_eq hy c) hfilters c₂

/-- The rules are shown if all their ids have room. -/
private theorem foldlM_fillRuleView {rules : List RuleView} {c c' : Cache} :
    rules.foldlM fillRuleView c = .ok c' ↔
      (∀ r ∈ rules, r.id.toNat < 10 ^ 9) ∧
        (rules.flatMap ruleBlocks).foldlM Cache.fillBlock c = .ok c' := by
  rw [Fallible.foldlM_flatMap]
  induction rules generalizing c with
  | nil => exact (and_iff_right fun r hr => nomatch hr).symm
  | cons r rules ih =>
    rw [List.foldlM_cons, List.foldlM_cons, List.forall_mem_cons, bind_eq_ok,
      bind_eq_ok]
    constructor
    · rintro ⟨c₁, hc₁, hc'⟩
      obtain ⟨ruleid, hruleid, hc₁⟩ := bind_eq_ok.mp hc₁
      obtain ⟨hids, hc'⟩ := ih.mp hc'
      exact ⟨⟨(sprintfRuleid_eq_ok.mp hruleid).1, hids⟩, c₁, hc₁, hc'⟩
    · rintro ⟨⟨hid, hids⟩, c₁, hc₁, hc'⟩
      exact ⟨c₁, bind_eq_ok.mpr ⟨_, sprintfRuleid_eq_ok.mpr ⟨hid, rfl⟩, hc₁⟩,
        ih.mpr ⟨hids, hc'⟩⟩

/-- The cache at the start of a rebuild. -/
def Cache.cleared (c : Cache) : Cache := { c with fileBuffer := zeros c.bufferSize }

/-- **A rebuild** appends the first line and the blocks behind it. -/
theorem fillProcContents_ok {s s' : ProcList} {a : Registry} {order : EntryPoint → List ℕ}
    {rs : List (ℕ × Rule)} {l : List (ℕ × ℕ)} (h : Managed s.managers a order rs l) {v : View}
    (hv : s.managers.view = .ok v) :
    s.fillProcContents = .ok s' ↔
      (∀ r ∈ v.rules, r.id.toNat < 10 ^ 9) ∧
      s'.managers = { s.managers with manager := { s.managers.manager with dirty := false } } ∧
      ∃ c, s.cache.cleared.appendToBuffer header = .ok c ∧
        v.blocks.foldlM Cache.fillBlock c = .ok s'.cache := by
  obtain ⟨is, rs', his, hrs', hinterceptors, hrules⟩ := view_inv hv
  obtain ⟨nodes, hnodes, -⟩ := h.holding.list
  rw [data_eq h.interceptors] at his
  rw [data_eq hnodes] at hrs'
  cases his
  cases hrs'
  have hloop₁ : ∀ c, forAll s.managers.intList (fillInterceptor s.managers.manager) c =
      (v.interceptors.map interceptorBlock).foldlM Cache.fillBlock c := by
    intro c
    rw [forAll_eq h.interceptors]
    refine (Fallible.foldlM_of_mapM (fun i name hname c => ?_) hinterceptors c).trans
      List.foldlM_map.symm
    rw [fillInterceptor, hname, ok_bind]
  have hloop₂ : ∀ c, forAll s.managers.manager.ruleList (fillRule s.managers.manager) c =
      v.rules.foldlM fillRuleView c := by
    intro c
    rw [forAll_eq hnodes]
    exact Fallible.foldlM_of_mapM (fun r y hy c => fillRule_eq hy c) hrules c
  rw [ProcList.fillProcContents]
  simp only [hloop₁, hloop₂, bind_eq_ok, foldlM_fillRuleView, View.blocks,
    List.foldlM_append]
  constructor
  · rintro ⟨c₁, hc₁, c₂, hc₂, c₃, ⟨hids, hc₃⟩, hs'⟩
    cases hs'
    exact ⟨hids, rfl, c₁, hc₁, c₂, hc₂, hc₃⟩
  · rintro ⟨hids, hs', c₁, hc₁, c₂, hc₂, hc₃⟩
    refine ⟨c₁, hc₁, c₂, hc₂, s'.cache, ⟨hids, hc₃⟩, ?_⟩
    rw [← hs']
    rfl

/-! ### One rebuild -/

section Rebuild

variable {s s' : ProcList} {a : Registry} {order : EntryPoint → List ℕ} {rs : List (ℕ × Rule)}
  {l : List (ℕ × ℕ)} {v : View}

private theorem holds_cleared {c : Cache} (h : c.bufferOffset = 0) : c.cleared.Holds [] :=
  ⟨rfl, h, Nat.zero_le _⟩

/-- **A first rebuild with enough room.** -/
theorem fillProcContents_of_fits (h : Managed s.managers a order rs l)
    (hv : s.managers.view = .ok v) (hsize : s.cache.bufferSize = 1024)
    (hoffset : s.cache.bufferOffset = 0) (hfits : v.Fits) :
    ∃ s', s.fillProcContents = .ok s' ∧
      s'.managers = { s.managers with manager := { s.managers.manager with dirty := false } } ∧
      s'.cache.Holds v.render ∧ s'.cache.bufferSize = 1024 := by
  have hroom := hfits.length
  rw [← room_blocks, ← hsize] at hroom
  have hcleared : s.cache.cleared.bufferSize = s.cache.bufferSize := rfl
  obtain ⟨c, hc, hholds, hsize₁⟩ := (holds_cleared hoffset).append
    (show ([] : List Char).length + header.length ≤ s.cache.cleared.bufferSize by
      rw [hcleared, List.length_nil]
      omega)
  rw [List.nil_append] at hholds
  obtain ⟨c', hc', hholds', hsize'⟩ := hholds.fillBlocks (by rwa [hsize₁])
  rw [text_blocks] at hholds'
  refine ⟨⟨_, c'⟩, (fillProcContents_ok h hv).mpr ⟨hfits.ids, rfl, c, hc, hc'⟩, rfl, hholds', ?_⟩
  rw [hsize', hsize₁, hcleared, hsize]

/-- **A rebuild is right exactly if it is the first one and has enough room.** -/
theorem fillProcContents_iff (h : Managed s.managers a order rs l)
    (hv : s.managers.view = .ok v) (hsize : s.cache.bufferSize = 1024) (hsound : s.cache.Sound) :
    (∃ s', s.fillProcContents = .ok s' ∧ s'.cache.text = v.render ∧
      s'.cache.bufferOffset = v.render.length) ↔ s.cache.bufferOffset = 0 ∧ v.Fits := by
  constructor
  · rintro ⟨s', hs', htext, hlength⟩
    obtain ⟨hids, -, c, hc, hc'⟩ := (fillProcContents_ok h hv).mp hs'
    have hcleared : s.cache.cleared.Sound := ⟨length_zeros _, hsound.offset⟩
    obtain ⟨hsound₁, hoffset₁, -⟩ := hcleared.append hc
    obtain ⟨-, hoffset'⟩ := hsound₁.fillBlocks hc'
    have hrender := congrArg List.length (text_blocks v)
    rw [List.length_append] at hrender
    -- the offset counts what was there before, too
    have hzero : s.cache.bufferOffset = 0 := by
      have hsame : s.cache.cleared.bufferOffset = s.cache.bufferOffset := rfl
      omega
    refine ⟨hzero, hids, ?_⟩
    have hheader : header.length ≤ s.cache.bufferSize := by
      have hle := hcleared.append hc
      have hfits := hle.1.offset
      rw [hle.2.1, hle.2.2] at hfits
      exact le_trans (Nat.le_add_left _ _) hfits
    obtain ⟨c₁, hc₁, hholds, hsize₁⟩ := (holds_cleared hzero).append
      (show ([] : List Char).length + header.length ≤ s.cache.cleared.bufferSize by
        rwa [List.length_nil, Nat.zero_add])
    cases hc.symm.trans hc₁
    rw [List.nil_append] at hholds
    have hroom := (Cache.fillBlocks_iff hholds (x := 'L') rfl (by decide)).mp
      ⟨s'.cache, hc', htext.trans (text_blocks v).symm⟩
    rw [room_blocks, hsize₁] at hroom
    exact hroom.trans_eq hsize
  · rintro ⟨hzero, hfits⟩
    obtain ⟨s', hs', -, hholds, -⟩ := fillProcContents_of_fits h hv hsize hzero hfits
    exact ⟨s', hs', hholds.text_eq, hholds.offset⟩

end Rebuild

/-! ### Reads -/

namespace ProcList

variable {s s' : ProcList}

/-- The first rebuild, with enough room, or none. -/
def FirstWithRoom (s : ProcList) : Prop :=
  s.managers.manager.dirty = true →
    s.cache.bufferOffset = 0 ∧ ∀ v, s.managers.view = .ok v → v.Fits

/-- **What is not dirty is up to date.** -/
structure UpToDate (s : ProcList) : Prop where
  managed : ∃ a order rs l, Managed s.managers a order rs l
  size : s.cache.bufferSize = 1024
  sound : s.cache.Sound
  current : s.managers.manager.dirty = false → ∃ v, s.managers.view = .ok v ∧
    s.cache.text = v.render ∧ s.cache.bufferOffset = v.render.length

end ProcList

/-! ### Runs -/

/-- What happens to the framework, and reads of the file. -/
inductive ProcEvent where
  | change (e : ManagerEvent)
  | read

namespace ProcList

variable {s s' : ProcList}

/-- One event. What a read copies changes nothing. -/
def step (s : ProcList) : ProcEvent → Except ProcFault ProcList
  | .change e => do
    let managers ← access (s.managers.step e)
    return { s with managers := managers }
  | .read => s.refresh

/-- Descriptors have names, and allocations succeed. -/
def Admissible (s : ProcList) : ProcEvent → Prop
  | .change e => s.managers.Admissible e
  | .read => True

/-- A read that rebuilds the cache is the first one and has enough room. -/
def HasRoom (s : ProcList) : ProcEvent → Prop
  | .change _ => True
  | .read => s.FirstWithRoom

instance (s : ProcList) : Decidable s.FirstWithRoom :=
  decidable_of_iff (s.managers.manager.dirty = true →
      s.cache.bufferOffset = 0 ∧ ∀ v ∈ s.managers.view.toOption, v.Fits)
    (forall_congr' fun _ => and_congr_right' (forall_congr' fun _ => by
      rw [Option.mem_def, toOption_eq_some]))

instance : ∀ (s : ProcList) (e : ProcEvent), Decidable (s.Admissible e)
  | s, .change e => inferInstanceAs (Decidable (s.managers.Admissible e))
  | _, .read => inferInstanceAs (Decidable True)

instance : ∀ (s : ProcList) (e : ProcEvent), Decidable (s.HasRoom e)
  | _, .change _ => inferInstanceAs (Decidable True)
  | s, .read => inferInstanceAs (Decidable s.FirstWithRoom)

/-- A change of the lists makes the cache dirty. -/
private theorem UpToDate.change (h : s.UpToDate) {e : ManagerEvent} (he : s.managers.Admissible e)
    (hs' : s.step (.change e) = .ok s') : s'.UpToDate := by
  obtain ⟨⟨a, order, rs, l, hmanaged⟩, hsize, hsound, hcurrent⟩ := h
  obtain ⟨managers, hmanagers, hs'⟩ := bind_eq_ok.mp hs'
  cases hs'
  obtain ⟨hmanaged', hdirty⟩ := hmanaged.step he (access_ok hmanagers)
  refine ⟨hmanaged', hsize, hsound, fun hclean => ?_⟩
  rcases hdirty with rfl | hdirty
  · exact hcurrent hclean
  · exact nomatch hclean.symm.trans hdirty

/-- A right read leaves the cache up to date. -/
private theorem UpToDate.read (h : s.UpToDate) (hroom : s.FirstWithRoom)
    (hs' : s.refresh = .ok s') :
    s'.UpToDate := by
  obtain ⟨a, order, rs, l, hmanaged⟩ := h.managed
  cases hdirty : s.managers.manager.dirty with
  | false =>
    rw [refresh, hdirty] at hs'
    cases hs'
    exact h
  | true =>
    obtain ⟨hzero, hfits⟩ := hroom hdirty
    obtain ⟨v, hv⟩ := hmanaged.view_ok
    obtain ⟨s₁, hs₁, hmanagers, hholds, hsize⟩ :=
      fillProcContents_of_fits hmanaged hv h.size hzero (hfits v hv)
    rw [refresh, hdirty] at hs'
    cases hs₁.symm.trans hs'
    refine ⟨⟨a, order, rs, l, ?_⟩, hsize, hholds.sound, fun _ => ⟨v, ?_, hholds.text_eq,
      hholds.offset⟩⟩
    · rw [hmanagers]
      exact hmanaged.clean
    · rw [hmanagers]
      exact hv

end ProcList

end MiaVita.Framework
