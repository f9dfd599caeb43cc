import MiaVita.FredFramework.KList
import MiaVita.Lib.PriorityOrder

/-!
# Filters and filter chains (`fred_framework`, `filter.c`, `chains.c`)

Each of the five entry points of a packet has a chain of filters, kept by decreasing priority. A
filter and its specification are blocks of their own, which the chain only points to; they are at
their addresses here (`Chains.filters`, `Chains.specs`) as long as they are allocated, and an access
to one that is not stops the kernel.

`Chains.Contains s order` says that the chain of each entry point `c` holds the filters `order c`.
`Contains.registerFilterIn` and `Contains.unregisterFilterIn` are what the two functions do to it;
they rely on nothing but the filters that they look at being allocated.
-/

namespace MiaVita.Framework

open LinkedList PriorityOrder Fallible

/-! ### Filters -/

/-- `FILTER_BY_L4_PROTO`. -/
abbrev filterByL4Proto : UInt8 := 0x01

/-- `FILTER_BY_DST_PORT`. -/
abbrev filterByDstPort : UInt8 := 0x02

/-- `FILTER_BY_SRC_PORT`. -/
abbrev filterBySrcPort : UInt8 := 0x04

/-- `FILTER_BY_DST_ADDR`. -/
abbrev filterByDstAddr : UInt8 := 0x08

/-- `FILTER_BY_SRC_ADDR`. -/
abbrev filterBySrcAddr : UInt8 := 0x10

/-- `FILTER_AT_LOCAL_IN`. -/
abbrev filterAtLocalIn : UInt8 := 0x01

/-- `FILTER_AT_LOCAL_OUT`. -/
abbrev filterAtLocalOut : UInt8 := 0x02

/-- `FILTER_AT_FWD`. -/
abbrev filterAtFwd : UInt8 := 0x04

/-- `FILTER_AT_POST_RT`. -/
abbrev filterAtPostRt : UInt8 := 0x08

/-- `FILTER_AT_PRE_RT`. -/
abbrev filterAtPreRt : UInt8 := 0x10

/-- `filter_specs`; the addresses and ports in network byte order, as the processor loads them. -/
structure FilterSpecs where
  filterBy : UInt8
  protocol : UInt8
  dstAddr : UInt32
  srcAddr : UInt32
  dstPort : UInt16
  srcPort : UInt16
  deriving DecidableEq

/-- `filter`: its specification is a pointer, and so is its callback. -/
structure Filter where
  priority : UInt8
  filterAt : UInt8
  filterSpecs : ℕ
  applyFilter : ℕ
  deriving DecidableEq

/-! ### Chains -/

/-- The entry points, in the order of the array `chains`. -/
inductive EntryPoint where
  | localOut
  | localIn
  | forward
  | preRouting
  | postRouting
  deriving DecidableEq

/-- The chain that `register_filter` and `unregister_filter` choose for a `filter_at`. -/
def chainOf (filterAt : UInt8) : Option EntryPoint :=
  if filterAt = filterAtLocalIn then some .localIn
  else if filterAt = filterAtLocalOut then some .localOut
  else if filterAt = filterAtFwd then some .forward
  else if filterAt = filterAtPostRt then some .postRouting
  else if filterAt = filterAtPreRt then some .preRouting
  else none

/-- `MAX_FILTERS_PER_CHAIN`. -/
abbrev maxFiltersPerChain : ℕ := 10

/-- `filter_chain`. -/
structure FilterChain where
  filters : KList
  len : UInt8

/-- The array `chains`, and the filters and specifications that are allocated. -/
structure Chains where
  chains : EntryPoint → FilterChain
  filters : ℕ → Option Filter
  specs : ℕ → Option FilterSpecs

/-- `init_chains`, with no filter made yet. -/
def initChains : Chains := ⟨fun _ => ⟨makeKlist, 0⟩, fun _ => none, fun _ => none⟩

namespace Chains

/-- `*f`. -/
def filter (s : Chains) (f : ℕ) : Except Crash Filter :=
  match s.filters f with
  | some r => .ok r
  | none => .error (.freed f)

/-- `*sp`. -/
def spec (s : Chains) (sp : ℕ) : Except Crash FilterSpecs :=
  match s.specs sp with
  | some r => .ok r
  | none => .error (.freed sp)

/-- The loop of `__register_filter`: the chain with the filter in it. -/
def registerFilterLoop (s : Chains) (kl : KList) (f : ℕ) : ℕ → Option ℕ → Except Crash KList
  | _, none => (kl.makeKlistNode f).1.addKlistNodeToKlist (kl.makeKlistNode f).2
  | 0, some _ => .error .endless
  | fuel + 1, some cur => do
    let n ← kl.node (some cur)
    let r ← s.filter f
    let temp ← s.filter n.data
    if temp.priority < r.priority then kl.klistIteratorInsertBefore (some cur) f
    else do
      let it ← kl.klistIteratorNext (some cur)
      registerFilterLoop s kl f fuel it.2

/-- `__register_filter`. A list with more nodes than were ever made would have no end. -/
def registerFilterIn (s : Chains) (chain : EntryPoint) (f : ℕ) : Except Crash (Chains × ℕ) :=
  let c := s.chains chain
  if c.len.toNat = maxFiltersPerChain then .ok (s, 0)
  else do
    let kl ← s.registerFilterLoop c.filters f (c.filters.next + 1) c.filters.first
    return ({ s with chains := Function.update s.chains chain ⟨kl, c.len + 1⟩ }, 1)

/-- `register_filter`. -/
def registerFilter (s : Chains) (f : ℕ) : Except Crash (Chains × ℕ) := do
  let r ← s.filter f
  match chainOf r.filterAt with
  | some chain => s.registerFilterIn chain f
  | none => .ok (s, 0)

/-- The loop of `__unregister_filter`: the chain without the filter, or nothing if it is not there.
-/
def unregisterFilterLoop (kl : KList) (f : ℕ) : ℕ → Option ℕ → Except Crash (Option KList)
  | _, none => .ok none
  | 0, some _ => .error .endless
  | fuel + 1, some cur => do
    let n ← kl.node (some cur)
    if n.data = f then do
      let it ← kl.klistIteratorRemoveCurrent (some cur)
      return some it.1
    else do
      let it ← kl.klistIteratorNext (some cur)
      unregisterFilterLoop kl f fuel it.2

/-- `__unregister_filter`. -/
def unregisterFilterIn (s : Chains) (chain : EntryPoint) (f : ℕ) : Except Crash Chains := do
  let c := s.chains chain
  let found ← unregisterFilterLoop c.filters f (c.filters.next + 1) c.filters.first
  match found with
  | some kl => .ok { s with chains := Function.update s.chains chain ⟨kl, c.len - 1⟩ }
  | none => .ok s

/-- `unregister_filter`. -/
def unregisterFilter (s : Chains) (f : ℕ) : Except Crash Chains := do
  let r ← s.filter f
  match chainOf r.filterAt with
  | some chain => s.unregisterFilterIn chain f
  | none => .ok s

/-- `free_filter_specs`. -/
def freeFilterSpecs (s : Chains) (sp : ℕ) : Except Crash Chains := do
  let _ ← s.spec sp
  return { s with specs := Function.update s.specs sp none }

/-- `free_filter`. -/
def freeFilter (s : Chains) (f : ℕ) : Except Crash Chains := do
  let _ ← s.filter f
  return { s with filters := Function.update s.filters f none }

/-- The priority of a filter. -/
def priority (s : Chains) (f : ℕ) : ℕ :=
  match s.filters f with
  | some r => r.priority.toNat
  | none => 0

/-! ### The two loops -/

theorem filter_ok {s : Chains} {f : ℕ} {r : Filter} (h : s.filters f = some r) :
    s.filter f = .ok r := by
  rw [filter, h]

theorem spec_ok {s : Chains} {sp : ℕ} {r : FilterSpecs} (h : s.specs sp = some r) :
    s.spec sp = .ok r := by
  rw [spec, h]

private theorem priority_eq {s : Chains} {f : ℕ} {r : Filter} (h : s.filters f = some r) :
    s.priority f = r.priority.toNat := by
  rw [priority, h]

/-- **Where a filter goes**: behind the filters of at least its priority, in front of the first one
with less. -/
theorem registerFilterLoop_spec {s : Chains} {kl : KList} {f : ℕ} {r : Filter}
    (hf : s.filters f = some r) {l₁ l₂ : List (ℕ × ℕ)} (h : kl.Holds (l₁ ++ l₂))
    (hlive : ∀ n ∈ l₂, ∃ t, s.filters n.2 = some t) (hhi : ∀ n ∈ l₁, s.priority f ≤ s.priority n.2)
    {fuel : ℕ} (hfuel : l₂.length ≤ fuel) :
    ∃ kl' hi lo, s.registerFilterLoop kl f fuel (headAddr none l₂) = .ok kl' ∧
      kl'.Holds (hi ++ (kl.next, f) :: lo) ∧ hi ++ lo = l₁ ++ l₂ ∧
      (∀ n ∈ hi, s.priority f ≤ s.priority n.2) ∧
      ∀ n ∈ lo.head?, s.priority n.2 < s.priority f := by
  induction l₂ generalizing l₁ fuel with
  | nil =>
    rw [List.append_nil] at h
    obtain ⟨kl', hkl', hholds⟩ := h.push f
    refine ⟨kl', l₁, [], ?_, hholds, rfl, hhi, by simp⟩
    rw [headAddr, registerFilterLoop]
    exact hkl'
  | cons n l₂ ih =>
    obtain ⟨a, x⟩ := n
    obtain ⟨t, ht⟩ := hlive (a, x) List.mem_cons_self
    obtain ⟨fuel, rfl⟩ : ∃ k, fuel = k + 1 := ⟨fuel - 1, by rw [List.length_cons] at hfuel; omega⟩
    rw [headAddr, registerFilterLoop, h.node_ok, ok_bind, filter_ok hf, ok_bind, filter_ok ht,
      ok_bind]
    by_cases hlt : t.priority < r.priority
    · obtain ⟨kl', hkl', hholds⟩ := h.insertBefore f
      refine ⟨kl', l₁, (a, x) :: l₂, ?_, hholds, rfl, hhi, ?_⟩
      · rw [if_pos hlt, hkl']
      · rintro n ⟨⟩
        rw [priority_eq ht, priority_eq hf]
        exact hlt
    · have h' : kl.Holds ((l₁ ++ [(a, x)]) ++ l₂) := by
        rw [List.append_assoc]
        exact h
      rw [if_neg hlt, h.iteratorNext, ok_bind]
      obtain ⟨kl', hi, lo, hkl', hholds, happend, hhi', hlo⟩ :=
        ih h' (fun n hn => hlive n (List.mem_cons_of_mem _ hn))
          (fun n hn => by
            rcases List.mem_append.mp hn with hn | hn
            · exact hhi n hn
            · rw [List.mem_singleton.mp hn, priority_eq ht, priority_eq hf]
              exact Nat.le_of_not_lt hlt)
          (Nat.le_of_succ_le_succ hfuel)
      refine ⟨kl', hi, lo, hkl', hholds, ?_, hhi', hlo⟩
      rw [happend, List.append_assoc]
      rfl

/-- The search goes on behind another filter. -/
private theorem unregisterFilterLoop_other {kl : KList} {f : ℕ} {l₁ l₂ : List (ℕ × ℕ)} {n : ℕ × ℕ}
    (h : kl.Holds (l₁ ++ n :: l₂)) (hn : n.2 ≠ f) (fuel : ℕ) :
    unregisterFilterLoop kl f (fuel + 1) (some n.1) =
      unregisterFilterLoop kl f fuel (headAddr none l₂) := by
  rw [unregisterFilterLoop, h.node_ok, ok_bind, if_neg hn, h.iteratorNext, ok_bind]

/-- The search for a filter that is not in the chain. -/
private theorem unregisterFilterLoop_of_notMem {kl : KList} {f : ℕ} {l : List (ℕ × ℕ)}
    (h : kl.Holds l) (hf : f ∉ l.map Prod.snd) :
    unregisterFilterLoop kl f (kl.next + 1) kl.first = .ok none := by
  obtain ⟨fuel, hwalk⟩ := h.walk_past (f := fun fuel it _ => unregisterFilterLoop kl f fuel it)
    fun _ n _ hn hmem fuel _ => unregisterFilterLoop_other hn
      (ne_of_mem_of_not_mem (List.mem_map_of_mem hmem) hf) fuel
  rw [hwalk, unregisterFilterLoop]

/-- The search for a filter that is there. -/
private theorem unregisterFilterLoop_of_mem {kl : KList} {f a : ℕ} {l₁ l₂ : List (ℕ × ℕ)}
    (h : kl.Holds (l₁ ++ (a, f) :: l₂)) (hf : f ∉ l₁.map Prod.snd) :
    ∃ kl', unregisterFilterLoop kl f (kl.next + 1) kl.first = .ok (some kl') ∧
      kl'.Holds (l₁ ++ l₂) := by
  obtain ⟨kl', hkl', hholds⟩ := h.removeCurrent
  obtain ⟨fuel, hwalk⟩ := h.walk_to (f := fun fuel it _ => unregisterFilterLoop kl f fuel it)
    fun _ n _ hn hmem fuel _ => unregisterFilterLoop_other hn
      (ne_of_mem_of_not_mem (List.mem_map_of_mem hmem) hf) fuel
  refine ⟨kl', ?_, hholds⟩
  rw [hwalk, unregisterFilterLoop, h.node_ok, ok_bind, if_pos rfl, hkl']
  rfl

/-! ### What the chains hold -/

/-- The chain of each entry point holds the given filters, and its counter is right. -/
structure Contains (s : Chains) (order : EntryPoint → List ℕ) : Prop where
  chain : ∀ c, ∃ l, (s.chains c).filters.Holds l ∧ l.map Prod.snd = order c
  len : ∀ c, (s.chains c).len.toNat = (order c).length

theorem contains_initChains : initChains.Contains fun _ => [] :=
  ⟨fun _ => ⟨[], KList.holds_makeKlist, rfl⟩, fun _ => rfl⟩

namespace Contains

variable {s : Chains} {order : EntryPoint → List ℕ} {c : EntryPoint} {f : ℕ}

/-- The chains depend on the array alone. -/
theorem congr {s' : Chains} (h : s.Contains order) (hs' : s'.chains = s.chains) :
    s'.Contains order := by
  refine ⟨fun c => ?_, fun c => ?_⟩
  · rw [hs']
    exact h.chain c
  · rw [hs']
    exact h.len c

/-- One chain replaced. -/
private theorem update (h : s.Contains order) {kl : KList} {len : UInt8} {l : List (ℕ × ℕ)}
    {fs : List ℕ} (hkl : kl.Holds l) (hl : l.map Prod.snd = fs) (hlen : len.toNat = fs.length) :
    Contains { s with chains := Function.update s.chains c ⟨kl, len⟩ }
      (Function.update order c fs) := by
  refine ⟨fun d => ?_, fun d => ?_⟩
  · dsimp only
    by_cases hd : d = c
    · subst hd
      rw [Function.update_self, Function.update_self]
      exact ⟨l, hkl, hl⟩
    · rw [Function.update_of_ne hd, Function.update_of_ne hd]
      exact h.chain d
  · dsimp only
    by_cases hd : d = c
    · subst hd
      rw [Function.update_self, Function.update_self]
      exact hlen
    · rw [Function.update_of_ne hd, Function.update_of_ne hd]
      exact h.len d

/-- **A full chain takes no filter.** -/
theorem registerFilterIn_full (h : s.Contains order) (hfull : (order c).length = 10) :
    s.registerFilterIn c f = .ok (s, 0) := by
  rw [registerFilterIn, h.len c]
  exact if_pos hfull

/-- **A chain that is not full takes the filter**, in front of the first one with less priority. -/
theorem registerFilterIn (h : s.Contains order) {r : Filter} (hf : s.filters f = some r)
    (hlive : ∀ g ∈ order c, ∃ t, s.filters g = some t) (hlt : (order c).length < 10) :
    ∃ s' hi lo, s.registerFilterIn c f = .ok (s', 1) ∧ s'.filters = s.filters ∧
      s'.specs = s.specs ∧ order c = hi ++ lo ∧
      s'.Contains (Function.update order c (hi ++ f :: lo)) ∧
      (∀ g ∈ hi, s.priority f ≤ s.priority g) ∧ ∀ g ∈ lo.head?, s.priority g < s.priority f := by
  obtain ⟨l, hl, horder⟩ := h.chain c
  have hlive' : ∀ n ∈ l, ∃ t, s.filters n.2 = some t := fun n hn =>
    hlive n.2 (horder ▸ List.mem_map_of_mem hn)
  obtain ⟨kl', hi, lo, hloop, hkl', happend, hhi, hlo⟩ :=
    registerFilterLoop_spec hf (show KList.Holds _ ([] ++ l) from hl) hlive'
      (fun n hn => by cases hn) (Nat.le_succ_of_le hl.length_le_next)
  have hlen : ((s.chains c).len + 1).toNat = (order c).length + 1 := by
    rw [UInt8.toNat_add, h.len c]
    exact Nat.mod_eq_of_lt (by rw [UInt8.toNat_one]; omega)
  have hcut : order c = hi.map Prod.snd ++ lo.map Prod.snd := by
    rw [← horder, ← List.map_append, happend]
    rfl
  refine ⟨{ s with chains := Function.update s.chains c ⟨kl', (s.chains c).len + 1⟩ },
    hi.map Prod.snd, lo.map Prod.snd, ?_, rfl, rfl, hcut, ?_, ?_, ?_⟩
  · rw [Chains.registerFilterIn, h.len c, if_neg (ne_of_lt hlt), hl.first_eq, hloop]
    rfl
  · refine h.update hkl' ?_ ?_
    · rw [List.map_append, List.map_cons]
    · rw [hlen, hcut]
      simp only [List.length_append, List.length_cons]
      omega
  · intro g hg
    obtain ⟨n, hn, rfl⟩ := List.mem_map.mp hg
    exact hhi n hn
  · intro g hg
    rw [List.head?_map, Option.mem_map] at hg
    obtain ⟨n, hn, rfl⟩ := hg
    exact hlo n hn

/-- **A filter leaves its chain**; if it is not there, nothing changes. -/
theorem unregisterFilterIn (h : s.Contains order) :
    ∃ s', s.unregisterFilterIn c f = .ok s' ∧ s'.filters = s.filters ∧ s'.specs = s.specs ∧
      s'.Contains (Function.update order c ((order c).erase f)) := by
  obtain ⟨l, hl, horder⟩ := h.chain c
  rw [Chains.unregisterFilterIn]
  by_cases hf : f ∈ order c
  · obtain ⟨fs, gs, hcut, hfs⟩ := List.eq_append_cons_of_mem hf
    have hmap := horder.trans hcut
    rw [List.map_eq_append_iff] at hmap
    obtain ⟨l₂, l', rfl, rfl, hmap⟩ := hmap
    rw [List.map_eq_cons_iff] at hmap
    obtain ⟨⟨a, x⟩, l₃, rfl, rfl, rfl⟩ := hmap
    obtain ⟨kl', hloop, hkl'⟩ := unregisterFilterLoop_of_mem hl hfs
    have hlen : ((s.chains c).len - 1).toNat = (order c).length - 1 := by
      rw [UInt8.toNat_sub_of_le _ _ ?_, h.len c]
      · rfl
      · rw [UInt8.le_iff_toNat_le, h.len c]
        exact List.length_pos_of_mem hf
    refine ⟨{ s with chains := Function.update s.chains c ⟨kl', (s.chains c).len - 1⟩ }, ?_, rfl,
      rfl, h.update hkl' ?_ ?_⟩
    · rw [hloop]
      rfl
    · rw [hcut, List.erase_append_right _ hfs, List.erase_cons_head, List.map_append]
    · rw [hlen, List.length_erase_of_mem hf]
  · refine ⟨s, ?_, rfl, rfl, ?_⟩
    · rw [unregisterFilterLoop_of_notMem hl (by rwa [horder])]
      rfl
    · rw [List.erase_of_not_mem hf, Function.update_eq_self]
      exact h

end Contains

end Chains

end MiaVita.Framework
