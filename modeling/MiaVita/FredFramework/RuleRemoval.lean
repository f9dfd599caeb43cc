import MiaVita.FredFramework.Matching
import MiaVita.FredFramework.Rules

/-!
# Packets during the removal of a rule

The filters of a rule share one specification, and `free_rule_and_unregister_filters` frees it when
only the first of them has left its chain. A packet that arrives before the others have left theirs
makes a hook look at the freed specification.

A packet may arrive between any two steps of a removal. `Removal` is the state of the process that
removes rules: it may be in the middle of `free_rule_and_unregister_filters`, with some of its steps
left, and in the loop of `unregister_rules_for_interceptor`. A packet is a hook that runs on the
chains as they are. Run without packets, the steps are the function of the source (`exec_removal`).

The registry tells which specifications a hook can reach (`Accessible`). All of them are allocated
at every step of a removal if the rule has no filter in a chain but the first one
(`accessible_removal`), and if it has another one, a packet comes to it after two steps
(`exists_freed_of_second`).
-/

namespace MiaVita.Framework

open LinkedList Fallible

/-! ### Removing in steps -/

/-- The process that removes rules. -/
structure Removal where
  manager : Manager
  /-- The rule that is being freed, and the steps that are left of it. -/
  job : Option (ℕ × List FilterEvent)
  /-- The name and the iterator of `unregister_rules_for_interceptor`. -/
  loop : Option (List Char × Option ℕ)

/-- What may happen: a packet comes to an entry point, in some state of the world; one of the two
functions is called; the process makes its next step. -/
inductive RemovalEvent (σ : Type) where
  | packet (c : EntryPoint) (w : σ)
  | unregisterRule (id : UInt32)
  | unregisterRulesForInterceptor (name : List Char)
  | next

namespace Removal

variable {σ : Type}

/-- `free_rule_and_unregister_filters` is entered for the rule that was taken out of the list. -/
def start (st : Removal) (it : KList × Option ℕ × Option ℕ) : Except Crash Removal :=
  match it.2.2 with
  | some r => do
    let x ← st.manager.rule r
    return { st with
      manager := { st.manager with ruleList := it.1 }
      job := some (r, Manager.removal 0 x.filters) }
  | none => .ok { st with manager := { st.manager with ruleList := it.1 }.messProcEntry }

/-- The next round of `unregister_rules_for_interceptor`. -/
def nextRound (st : Removal) (name : List Char) : Option ℕ → Except Crash Removal
  | none => .ok { st with loop := none }
  | some cur => do
    let n ← st.manager.ruleList.node (some cur)
    let x ← st.manager.rule n.data
    let owner ← st.manager.descriptorName x.interceptor
    if name = owner then do
      let it ← st.manager.ruleList.klistIteratorRemoveCurrent (some cur)
      start { st with loop := some (name, it.2.1) } it
    else .ok st

/-- The next step of the process; freeing the rule itself is the last one of a removal. -/
def next (st : Removal) : Except Crash Removal :=
  match st.job with
  | some (r, e :: es) => do
    let chains ← st.manager.chains.step e
    return { st with
      manager := { st.manager with chains := chains }
      job := some (r, es) }
  | some (r, []) =>
    .ok { st with
      manager :=
        { st.manager with rules := Function.update st.manager.rules r none }.messProcEntry
      job := none }
  | none =>
    match st.loop with
    | some (name, cur) => st.nextRound name cur
    | none => .ok st

/-- One event. A function is called only if the process is not busy with another. -/
def step (io : Interceptors σ) (st : Removal) : RemovalEvent σ → Except Crash Removal
  | .packet c w => do
    let _ ← hookAt st.manager.chains io c w
    return st
  | .unregisterRule id =>
    if st.job.isNone ∧ st.loop.isNone then do
      let found ← st.manager.unregisterRuleLoop id (st.manager.ruleList.next + 1)
        st.manager.ruleList.first
      match found with
      | some it => st.start it
      | none => .ok st
    else .ok st
  | .unregisterRulesForInterceptor name =>
    if st.job.isNone ∧ st.loop.isNone then
      .ok { st with loop := some (name, st.manager.ruleList.first) }
    else .ok st
  | .next => st.next

/-- One of the steps that are left. -/
private theorem step_next (io : Interceptors σ) {m : Manager} {s : Chains} {e : FilterEvent}
    (h : m.chains.step e = .ok s) (r : ℕ) (es : List FilterEvent)
    (l : Option (List Char × Option ℕ)) :
    step io ⟨m, some (r, e :: es), l⟩ .next = .ok ⟨{ m with chains := s }, some (r, es), l⟩ := by
  rw [step, next]
  dsimp only
  rw [h]
  rfl

/-- The steps that are left, one after the other, and the end of the removal. -/
private theorem exec_next (io : Interceptors σ) {m : Manager} {s : Chains} {es : List FilterEvent}
    (h : Run.execM Chains.step m.chains es = .ok s) (r : ℕ) (l : Option (List Char × Option ℕ)) :
    Run.execM (step io) ⟨m, some (r, es), l⟩ (List.replicate (es.length + 1) .next) =
      .ok ⟨{ m with chains := s, rules := Function.update m.rules r none }.messProcEntry, none, l⟩
    := by
  induction es generalizing m with
  | nil =>
    cases h
    rfl
  | cons e es ih =>
    obtain ⟨s₁, hs₁, h⟩ := Run.execM_cons_ok.mp h
    rw [List.length_cons, List.replicate_succ, Run.execM_cons_of_ok (step_next io hs₁ r es l)]
    exact ih h

/-- **The steps of a removal**, one after the other, are `free_rule_and_unregister_filters`. -/
theorem exec_removal (io : Interceptors σ) {m m' : Manager} {r : ℕ} {x : Rule}
    (hr : m.rules r = some x) (h : m.freeRuleAndUnregisterFilters r = .ok m')
    (l : Option (List Char × Option ℕ)) :
    ∃ es, Run.execM (step io) ⟨m, some (r, Manager.removal 0 x.filters), l⟩ es =
      .ok ⟨m'.messProcEntry, none, l⟩ := by
  rw [Manager.freeRuleAndUnregisterFilters, Manager.rule_ok hr, ok_bind] at h
  cases hs : Run.execM Chains.step m.chains (Manager.removal 0 x.filters) with
  | error e =>
    rw [hs] at h
    cases h
  | ok s =>
    rw [hs] at h
    cases h
    exact ⟨_, exec_next io hs r l⟩

end Removal

/-! ### What a hook can reach -/

namespace Registry

/-- Every registered filter is allocated, and so is its specification. -/
def Accessible (a : Registry) : Prop :=
  ∀ c, ∀ f ∈ a.registered c, ∃ r sp, a.filters f = some r ∧ a.specs r.filterSpecs = some sp

end Registry

section Reach

variable {σ : Type} {s : Chains} {a : Registry} {order : EntryPoint → List ℕ}

/-- A hook touches nothing that was freed if all it can reach is allocated. -/
private theorem Registers.notFreed_hookAt (h : Registers s a order) (ha : a.Accessible)
    (io : Interceptors σ) (c : EntryPoint) (w : σ) : NotFreed (hookAt s io c w) := by
  rw [hookAt_dispatch h.toContains]
  refine notFreed_dispatch (fun f hf w => ?_) w
  obtain ⟨r, sp, hr, hsp⟩ := ha c f ((h.ordered c).perm.mem_iff.mp hf)
  rw [matchFilter_eq (h.filters ▸ hr) (h.specs ▸ hsp)]
  exact notFreed_specsMatch sp _

/-- Callbacks that accept everything; the world is the packet. -/
def acceptAll : Interceptors (List UInt8) := ⟨id, fun _ _ w => (nfAccept, w)⟩

/-- All fields of the datagram can be read. -/
private theorem specsMatch_plainPacket (sp : FilterSpecs) :
    ∃ b, specsMatch sp plainPacket = .ok b := by
  obtain ⟨b, hb, -⟩ := @decides_specsMatch sp _ _ wellFormed_plainPacket (by decide)
  exact ⟨b, hb⟩

/-- **A freed specification that a hook can reach** is touched by the hook of some packet. -/
theorem Registers.exists_freed (h : Registers s a order) {c : EntryPoint} {f : ℕ} {r : Filter}
    (hf : f ∈ a.registered c) (hr : a.filters f = some r) (hfreed : a.specs r.filterSpecs = none) :
    ∃ p, hookAt s acceptAll c plainPacket = .error (.freed p) := by
  rw [hookAt_dispatch h.toContains]
  refine dispatch_freed (fun g => ?_) (fun g hg => ?_) ⟨f, ?_, r.filterSpecs, ?_⟩
  · rw [callback]
    split <;> rfl
  · obtain ⟨t, ht⟩ := h.live c g hg
    cases hsp : s.specs t.filterSpecs with
    | none => exact .inr ⟨_, matchFilter_of_freed_specs ht hsp _⟩
    | some sp =>
      obtain ⟨b, hb⟩ := specsMatch_plainPacket sp
      exact .inl ⟨b, (matchFilter_eq ht hsp _).trans hb⟩
  · exact (h.ordered c).perm.mem_iff.mpr hf
  · exact matchFilter_of_freed_specs (h.filters ▸ hr) (h.specs ▸ hfreed) _

end Reach

/-! ### The registry during a removal -/

/-- No rule has a filter in a chain but the first one. -/
def FirstOnly (a : Registry) (rs : List (ℕ × Rule)) : Prop :=
  ∀ x ∈ rs, ∀ f ∈ x.2.filters.tail, ∀ c, f ∉ a.registered c

section Registry

variable {a : Registry} {x : ℕ × Rule} {rs rs' : List (ℕ × Rule)}

private theorem Owns.accessible (h : Owns a rs) : a.Accessible := fun c f hf =>
  h.allocated f (h.covered c f hf)

private theorem FirstOnly.mono (h : FirstOnly a rs) (hsub : ∀ x ∈ rs', x ∈ rs) : FirstOnly a rs' :=
  fun x hx => h x (hsub x hx)

private theorem FirstOnly.withoutRule (h : FirstOnly a rs) (fs : List ℕ) :
    FirstOnly (a.withoutRule fs) rs := fun x hx f hf c hmem =>
  h x hx f hf c (List.mem_filter.mp hmem).1

/-- The steps behind the first filter. -/
private theorem mem_removal {i : ℕ} (hi : i ≠ 0) {fs : List ℕ} {e : FilterEvent}
    (he : e ∈ Manager.removal i fs) : ∃ f ∈ fs, e = .unregister f ∨ e = .freeFilter f := by
  induction fs generalizing i with
  | nil => cases he
  | cons f fs ih =>
    rw [Manager.removal, if_neg hi, List.nil_append, List.mem_cons, List.mem_cons] at he
    rcases he with rfl | rfl | he
    · exact ⟨f, List.mem_cons_self, .inl rfl⟩
    · exact ⟨f, List.mem_cons_self, .inr rfl⟩
    · obtain ⟨g, hg, he⟩ := ih (Nat.succ_ne_zero i) he
      exact ⟨g, List.mem_cons_of_mem f hg, he⟩

/-- The registry while the rule with the filters `f :: fs` is removed from `a`, once `f` has left
its chain: the other filters and their specifications are as they were. -/
structure Underway (a : Registry) (f : ℕ) (fs : List ℕ) (b : Registry) : Prop where
  filters : ∀ g ∉ f :: fs, b.filters g = a.filters g
  first : b.filters f = a.filters f ∨ b.filters f = none
  specs : ∀ q, a.specsOf f ≠ some q → b.specs q = a.specs q
  registered : ∀ c, ∀ g ∈ b.registered c, g ∈ a.registered c ∧ g ≠ f

/-- Unregistering adds nothing. -/
private theorem mem_registered_unregister {b : Registry} {f g : ℕ} {c : EntryPoint}
    (hg : g ∈ (b.step (.unregister f)).registered c) : g ∈ b.registered c := by
  rw [Registry.step] at hg
  split at hg
  · rename_i d _
    dsimp only at hg
    by_cases hc : c = d
    · subst hc
      rw [Function.update_self] at hg
      exact List.mem_of_mem_erase hg
    · rwa [Function.update_of_ne hc] at hg
  · exact hg

/-- One step of the removal. -/
private theorem Underway.step {b : Registry} {f : ℕ} {fs : List ℕ} (h : Underway a f fs b)
    {e : FilterEvent}
    (he : e = .freeFilterSpecs f ∨ ∃ g ∈ f :: fs, e = .unregister g ∨ e = .freeFilter g) :
    Underway a f fs (b.step e) := by
  rcases he with rfl | ⟨g, hg, rfl | rfl⟩
  · rw [Registry.step]
    split
    · rename_i r hr
      refine ⟨h.filters, h.first, fun q hq => ?_, h.registered⟩
      have hne : q ≠ r.filterSpecs := by
        rintro rfl
        rcases h.first with hsame | hnone
        · exact hq (by rw [Registry.specsOf, ← hsame, hr]; rfl)
        · rw [hr] at hnone
          cases hnone
      exact (Function.update_of_ne hne _ _).trans (h.specs q hq)
    · exact h
  · have hsame : (b.step (.unregister g)).filters = b.filters ∧
        (b.step (.unregister g)).specs = b.specs := by
      rw [Registry.step]
      split <;> exact ⟨rfl, rfl⟩
    exact ⟨hsame.1 ▸ h.filters, hsame.1 ▸ h.first, hsame.2 ▸ h.specs,
      fun c k hk => h.registered c k (mem_registered_unregister hk)⟩
  · refine ⟨fun k hk => ?_, ?_, h.specs, h.registered⟩
    · have hne : k ≠ g := (ne_of_mem_of_not_mem hg hk).symm
      exact (Function.update_of_ne hne _ _).trans (h.filters k hk)
    · rw [Registry.step]
      dsimp only
      by_cases hfg : f = g
      · subst hfg
        exact .inr (Function.update_self _ _ _)
      · rw [Function.update_of_ne hfg]
        exact h.first

/-- The first steps of the removal, up to any of them. -/
private theorem underway_exec {f : ℕ} {fs : List ℕ} (ha : a.Valid) {es es' : List FilterEvent}
    (hes : es ++ es' = [.freeFilterSpecs f] ++ .freeFilter f :: Manager.removal 1 fs) :
    Underway a f fs (Run.exec Registry.step (a.step (.unregister f)) es) := by
  -- from the first step on, the first filter is in no chain
  have hstart : Underway a f fs (a.step (.unregister f)) := by
    rw [Registry.step_unregister ha]
    refine ⟨fun _ _ => rfl, .inl rfl, fun _ _ => rfl, fun c g hg => ?_⟩
    obtain ⟨hg, hgf⟩ := List.mem_filter.mp hg
    exact ⟨hg, of_decide_eq_true hgf⟩
  have hevents : ∀ e ∈ es,
      e = .freeFilterSpecs f ∨ ∃ g ∈ f :: fs, e = .unregister g ∨ e = .freeFilter g := by
    intro e he
    have hmem : e ∈ [.freeFilterSpecs f] ++ .freeFilter f :: Manager.removal 1 fs :=
      hes ▸ List.mem_append_left es' he
    rw [List.mem_append, List.mem_singleton, List.mem_cons] at hmem
    rcases hmem with rfl | rfl | hmem
    · exact .inl rfl
    · exact .inr ⟨f, List.mem_cons_self, .inr rfl⟩
    · obtain ⟨g, hg, hge⟩ := mem_removal Nat.one_ne_zero hmem
      exact .inr ⟨g, List.mem_cons_of_mem f hg, hge⟩
  exact Run.invariant (C := fun _ e => e = .freeFilterSpecs f ∨
      ∃ g ∈ f :: fs, e = .unregister g ∨ e = .freeFilter g)
    (fun b e hb he => hb.step he) hstart (Run.allSteps_of_forall hevents _)

/-- **All that a hook can reach stays allocated** during the removal of a rule, if no rule has a
filter in a chain but the first one. -/
theorem accessible_removal (h : Owns a (x :: rs)) (ha : a.Valid) (hfirst : FirstOnly a (x :: rs))
    {es es' : List FilterEvent} (hes : es ++ es' = Manager.removal 0 x.2.filters) :
    (Run.exec Registry.step a es).Accessible := by
  cases es with
  | nil => exact h.accessible
  | cons e es =>
    cases hfs : x.2.filters with
    | nil =>
      rw [hfs] at hes
      cases hes
    | cons f fs =>
      rw [hfs, Manager.removal, if_pos rfl, List.cons_append, List.cons.injEq] at hes
      obtain ⟨rfl, hes⟩ := hes
      have hrun : Underway a f fs (Run.exec Registry.step (a.step (.unregister f)) es) :=
        underway_exec ha hes
      rw [Run.exec_cons]
      intro c g hg
      obtain ⟨hga, hgf⟩ := hrun.registered c g hg
      have hnot : g ∉ f :: fs := by
        intro hmem
        refine hfirst x List.mem_cons_self g ?_ c hga
        rw [hfs]
        exact (List.mem_cons.mp hmem).resolve_left hgf
      obtain ⟨r, sp, hr, hsp⟩ := h.allocated g (h.covered c g hga)
      refine ⟨r, sp, (hrun.filters g hnot).trans hr, (hrun.specs _ fun hshared => ?_).trans hsp⟩
      -- its specification would be that of another rule
      have hcovered := h.covered c g hga
      rw [filtersOf, List.flatMap_cons, hfs] at hcovered
      obtain ⟨y, hy, hgy⟩ := List.mem_flatMap.mp ((List.mem_append.mp hcovered).resolve_left hnot)
      refine (List.pairwise_cons.mp h.apart).1 y hy f (hfs ▸ List.mem_cons_self) g hgy ?_
      rw [hshared, Registry.specsOf, hr]
      rfl

end Registry

/-! ### Rules with one filter in a chain -/

namespace Removal

/-- The loop of `unregister_rules_for_interceptor` is at the start of the list. -/
def AtFirst (st : Removal) : Prop :=
  ∀ name cur, st.loop = some (name, cur) → cur = st.manager.ruleList.first

/-- The process while no rule has a filter in a chain but the first one: between two removals, or
with the steps `es` of the removal of `x` made and the steps `es'` left. -/
inductive Steady (st : Removal) : Prop where
  | idle {a : Registry} {order : EntryPoint → List ℕ} {rs : List (ℕ × Rule)}
      (holding : Holding st.manager a order rs) (first : FirstOnly a rs) (job : st.job = none)
      (loop : st.AtFirst)
  | busy {a : Registry} {order : EntryPoint → List ℕ} {x : ℕ × Rule} {rs : List (ℕ × Rule)}
      {es es' : List FilterEvent} (steps : es ++ es' = Manager.removal 0 x.2.filters)
      (owns : Owns a (x :: rs)) (valid : a.Valid) (first : FirstOnly a (x :: rs))
      (registers : Registers st.manager.chains (Run.exec Registry.step a es) order)
      (lists : Lists st.manager rs) (pointer : x.1 ∉ rs.map Prod.fst)
      (job : st.job = some (x.1, es')) (loop : st.AtFirst)

/-- The removal of a rule begins. -/
private theorem steady_start (st : Removal) {kl : KList} {next : Option ℕ} {a : Registry}
    {order : EntryPoint → List ℕ} {x : ℕ × Rule} {rs : List (ℕ × Rule)}
    (h : Unlisted { st.manager with ruleList := kl } a order x rs) (hfirst : FirstOnly a (x :: rs))
    (hloop : ∀ name cur, st.loop = some (name, cur) → cur = kl.first) :
    ∃ st', st.start (kl, next, some x.1) = .ok st' ∧ Steady st' := by
  rw [start]
  dsimp only
  rw [show st.manager.rule x.1 = .ok x.2 from Manager.rule_ok h.rule, ok_bind]
  exact ⟨_, rfl, .busy (show [] ++ Manager.removal 0 x.2.filters = _ from rfl) h.toOwns h.toValid
    hfirst h.toRegisters h.toLists h.pointer rfl hloop⟩

/-- A rule in front of the others. -/
private theorem mem_middle {rs₁ rs₂ : List (ℕ × Rule)} {x : ℕ × Rule} :
    ∀ y ∈ x :: (rs₁ ++ rs₂), y ∈ rs₁ ++ x :: rs₂ := fun _ hy => List.perm_middle.mem_iff.mpr hy

/-- A round of the loop of `unregister_rules_for_interceptor`, at the start of the list. -/
private theorem steady_nextRound {st : Removal} {a : Registry} {order : EntryPoint → List ℕ}
    {rs : List (ℕ × Rule)} (h : Holding st.manager a order rs) (hfirst : FirstOnly a rs)
    (hjob : st.job = none) (hloop : st.AtFirst) (name : List Char) :
    ∃ st', st.nextRound name st.manager.ruleList.first = .ok st' ∧ Steady st' := by
  cases rs with
  | nil =>
    obtain ⟨l, hlist, hmap⟩ := h.list
    obtain rfl := List.map_eq_nil_iff.mp hmap
    rw [hlist.first_eq, headAddr, nextRound]
    refine ⟨_, rfl, .idle h hfirst hjob fun _ _ hloop => ?_⟩
    cases hloop
  | cons x rs =>
    obtain ⟨cur, l, kl, hcur, hlist, hkl, hunlisted⟩ := h.unlistFirst
    obtain ⟨owner, howner⟩ := h.named x List.mem_cons_self
    rw [hcur, nextRound, hlist.node_first, ok_bind, h.rule_ok List.mem_cons_self, ok_bind,
      Manager.descriptorName_ok howner, ok_bind]
    split_ifs
    · rw [hkl, ok_bind]
      refine steady_start { st with loop := some (name, kl.first) } hunlisted hfirst ?_
      rintro name' cur' h
      cases h
      rfl
    · exact ⟨st, rfl, .idle h hfirst hjob hloop⟩

/-- **The next step of the process.** -/
theorem Steady.next {st : Removal} (h : Steady st) : ∃ st', st.next = .ok st' ∧ Steady st' := by
  cases h with
  | @busy a order x rs es es' hes hown ha hfirst hreg hlist hpointer hjob hloop =>
    obtain ⟨hsteps, hexec⟩ := hown.removal ha
    rw [Removal.next, hjob]
    cases es' with
    | nil =>
      -- the rule itself is freed
      rw [List.append_nil] at hes
      rw [hes, hexec] at hreg
      have hholding : Holding { st.manager with
          rules := Function.update st.manager.rules x.1 none } _ order rs :=
        ⟨hreg, hown.tail, hlist.freeRule hpointer st.manager.chains⟩
      exact ⟨_, rfl, .idle hholding.messProcEntry
        ((hfirst.mono fun y hy => List.mem_cons_of_mem x hy).withoutRule _) rfl hloop⟩
    | cons e es' =>
      rw [← hes] at hsteps
      obtain ⟨s', hs', order', hreg'⟩ := hreg.step hsteps.append_right.1
      dsimp only
      rw [hs', ok_bind]
      have hes' : (es ++ [e]) ++ es' = Manager.removal 0 x.2.filters := by
        rw [List.append_assoc]
        exact hes
      have hregisters : Registers s' (Run.exec Registry.step a (es ++ [e])) order' := by
        rw [Run.exec_append]
        exact hreg'
      exact ⟨_, rfl, .busy hes' hown ha hfirst hregisters
        ⟨hlist.list, hlist.pointers, hlist.rules, hlist.named⟩ hpointer rfl hloop⟩
  | @idle a order rs hholding hfirst hjob hloop =>
    rw [Removal.next, hjob]
    dsimp only
    cases hl : st.loop with
    | none => exact ⟨st, rfl, .idle hholding hfirst hjob hloop⟩
    | some l =>
      obtain ⟨name, cur⟩ := l
      obtain rfl := hloop name cur hl
      exact steady_nextRound hholding hfirst hjob hloop name

/-- **Every event** leaves the process as it was described, or is a packet that is cut off. -/
theorem Steady.step {σ : Type} (io : Interceptors σ) {st : Removal} (h : Steady st)
    (e : RemovalEvent σ) :
    (∃ st', st.step io e = .ok st' ∧ Steady st') ∨
      ∃ f, st.step io e = .error f ∧ ∀ p, f ≠ .freed p := by
  cases e with
  | packet c w =>
    have haccess : ∃ a order, Registers st.manager.chains a order ∧ a.Accessible := by
      cases h with
      | idle hholding => exact ⟨_, _, hholding.toRegisters, hholding.toOwns.accessible⟩
      | busy hes hown ha hfirst hreg => exact ⟨_, _, hreg, accessible_removal hown ha hfirst hes⟩
    obtain ⟨a, order, hreg, ha⟩ := haccess
    have hfreed := hreg.notFreed_hookAt ha io c w
    rw [Removal.step]
    cases hhook : hookAt st.manager.chains io c w with
    | ok out => exact .inl ⟨st, rfl, h⟩
    | error f => exact .inr ⟨f, rfl, fun p hp => hfreed p (hhook.trans (congrArg _ hp))⟩
  | unregisterRule id =>
    refine .inl ?_
    rw [Removal.step]
    split_ifs with hidle
    · cases h with
      | busy _ _ _ _ _ _ _ hjob => simp [hjob] at hidle
      | @idle a order rs hholding hfirst hjob hloop =>
        rcases exists_first_id rs id with hnone | ⟨rs₁, x, rs₂, rfl, rfl, hid⟩
        · rw [hholding.unregisterRule_of_none hnone, ok_bind]
          exact ⟨st, rfl, .idle hholding hfirst hjob hloop⟩
        · obtain ⟨kl, next, hfound, hunlisted⟩ := hholding.unregisterRule_unlist hid
          rw [hfound, ok_bind]
          refine steady_start _ hunlisted (hfirst.mono mem_middle) fun name cur h => ?_
          rw [h] at hidle
          cases hidle.2
    · exact ⟨st, rfl, h⟩
  | unregisterRulesForInterceptor name =>
    refine .inl ?_
    rw [Removal.step]
    split_ifs with hidle
    · cases h with
      | busy _ _ _ _ _ _ _ hjob => simp [hjob] at hidle
      | idle hholding hfirst hjob hloop =>
        refine ⟨_, rfl, .idle hholding hfirst hjob ?_⟩
        rintro name' cur' h
        cases h
        rfl
    · exact ⟨st, rfl, h⟩
  | next => exact .inl h.next

/-! ### Rules with several filters in chains -/

variable {m : Manager} {a : Registry} {order : EntryPoint → List ℕ}
  {rs rs₁ rs₂ : List (ℕ × Rule)} {x : ℕ × Rule}

/-- The call of `unregister_rule` for a rule. -/
private theorem step_unregisterRule {σ : Type} (io : Interceptors σ)
    (h : Holding m a order (rs₁ ++ x :: rs₂)) (hid : ∀ y ∈ rs₁, y.2.id ≠ x.2.id) :
    ∃ kl, Unlisted { m with ruleList := kl } a order x (rs₁ ++ rs₂) ∧
      step io ⟨m, none, none⟩ (.unregisterRule x.2.id) =
        .ok ⟨{ m with ruleList := kl }, some (x.1, Manager.removal 0 x.2.filters), none⟩ := by
  obtain ⟨kl, next, hfound, hunlisted⟩ := h.unregisterRule_unlist hid
  refine ⟨kl, hunlisted, ?_⟩
  rw [step, if_pos ⟨rfl, rfl⟩, hfound, ok_bind]
  dsimp only [start]
  rw [show m.rule x.1 = .ok x.2 from Manager.rule_ok hunlisted.rule]
  rfl

/-- **A second filter in a chain**: after two steps of the removal, a packet makes its hook look at
the freed specification. -/
theorem exists_freed_of_second (h : Holding m a order (rs₁ ++ x :: rs₂))
    (hid : ∀ y ∈ rs₁, y.2.id ≠ x.2.id) {c : EntryPoint} {f : ℕ} (hf : f ∈ x.2.filters.tail)
    (hc : f ∈ a.registered c) :
    ∃ p, Run.execM (step acceptAll) ⟨m, none, none⟩
      [.unregisterRule x.2.id, .next, .next, .packet c plainPacket] = .error (.freed p) := by
  obtain ⟨kl, hunlisted, hcall⟩ := step_unregisterRule acceptAll h hid
  obtain ⟨hsteps, -⟩ := hunlisted.toOwns.removal hunlisted.toValid
  have hmem : f ∈ x.2.filters := List.mem_of_mem_tail hf
  have hdistinct : x.2.filters.Nodup := (List.nodup_append.mp hunlisted.distinct).1
  obtain ⟨r, sp, hr, hsp⟩ := hunlisted.allocated f (List.mem_append_left _ hmem)
  have hshared := hunlisted.shared x List.mem_cons_self f hmem
  cases hfs : x.2.filters with
  | nil =>
    rw [hfs] at hmem
    cases hmem
  | cons g fs =>
    rw [hfs, Manager.removal, if_pos rfl, List.singleton_append] at hsteps hcall
    rw [hfs] at hf hdistinct
    have hfg : f ≠ g := by
      rintro rfl
      exact (List.nodup_cons.mp hdistinct).1 hf
    obtain ⟨hunregister, hspecs, -⟩ := hsteps
    obtain ⟨s₁, hs₁, order₁, hreg₁⟩ := hunlisted.toRegisters.step hunregister
    obtain ⟨s₂, hs₂, order₂, hreg₂⟩ := hreg₁.step hspecs
    have hg : a.specsOf g = some r.filterSpecs := by
      rw [← hshared g (hfs ▸ List.mem_cons_self), Registry.specsOf, hr]
      rfl
    obtain ⟨t, ht, htr⟩ := Option.map_eq_some_iff.mp hg
    have hreg : Registers s₂ { a with
        specs := Function.update a.specs r.filterSpecs none
        registered := fun c => (a.registered c).filter (· ≠ g) } order₂ := by
      rw [Registry.step_unregister hunlisted.toValid, Registry.step] at hreg₂
      dsimp only at hreg₂
      rw [ht] at hreg₂
      dsimp only at hreg₂
      rwa [htr] at hreg₂
    obtain ⟨p, hp⟩ := hreg.exists_freed (c := c) (f := f) (r := r)
      (List.mem_filter.mpr ⟨hc, decide_eq_true hfg⟩) hr (Function.update_self _ _ _)
    refine ⟨p, ?_⟩
    rw [Run.execM_cons_of_ok hcall, Run.execM_cons_of_ok (step_next acceptAll hs₁ _ _ _),
      Run.execM_cons_of_ok (step_next acceptAll hs₂ _ _ _)]
    refine Run.execM_cons_of_error ?_ []
    rw [step]
    dsimp only
    rw [hp]
    rfl

/-- A rule with another filter in a chain can be removed while a packet arrives. -/
private theorem exists_freed (h : Holding m a order rs) (hrs : ¬ FirstOnly a rs) :
    ∃ es p, Run.execM (step acceptAll) ⟨m, none, none⟩ es = .error (.freed p) := by
  -- `unregister_rule` takes the first rule with the id; if it is another one, it is out of the way
  induction hn : rs.length using Nat.strong_induction_on generalizing m a order rs with
  | _ n ih =>
    have hsecond : ∃ x ∈ rs, ∃ f ∈ x.2.filters.tail, ∃ c, f ∈ a.registered c := by
      simpa [FirstOnly] using hrs
    obtain ⟨x, hx, f, hf, c, hc⟩ := hsecond
    rcases exists_first_id rs x.2.id with hnone | ⟨rs₁, y, rs₂, rfl, hy, hid⟩
    · exact absurd rfl (hnone x hx)
    rw [← hy] at hid
    by_cases hxy : x = y
    · subst hxy
      obtain ⟨p, hp⟩ := exists_freed_of_second h hid hf hc
      exact ⟨_, p, hp⟩
    · obtain ⟨kl, hunlisted, hcall⟩ := step_unregisterRule acceptAll h hid
      obtain ⟨m', order', hm', -, -, h'⟩ := hunlisted.freeRule
      obtain ⟨es, hes⟩ := exec_removal acceptAll hunlisted.rule hm' none
      have hx' : x ∈ rs₁ ++ rs₂ :=
        (List.mem_cons.mp (List.perm_middle.mem_iff.mp hx)).resolve_left hxy
      have hfy : f ∉ y.2.filters := by
        intro hfy
        have hdisjoint := (List.nodup_append.mp hunlisted.distinct).2.2
        exact hdisjoint f hfy f (mem_filtersOf hx' (List.mem_of_mem_tail hf)) rfl
      have hrs' : ¬ FirstOnly (a.withoutRule y.2.filters) (rs₁ ++ rs₂) := fun hfirst =>
        hfirst x hx' f hf c (List.mem_filter.mpr ⟨hc, decide_eq_true hfy⟩)
      obtain ⟨es', p, hp⟩ := ih (rs₁ ++ rs₂).length
        (by rw [← hn, List.length_append, List.length_append, List.length_cons]; omega)
        h'.messProcEntry hrs' rfl
      refine ⟨.unregisterRule y.2.id :: (es ++ es'), p, ?_⟩
      rw [Run.execM_cons_of_ok hcall, Run.execM_append_of_ok hes, hp]

end Removal

/-! ### The result -/

/-- In no interleaving of packets with the removal of rules does a hook touch what was freed. -/
def RemovalSafe (m : Manager) : Prop :=
  ∀ (σ : Type) (io : Interceptors σ) (es : List (RemovalEvent σ)),
    NotFreed (Run.execM (Removal.step io) ⟨m, none, none⟩ es)

/-- **Removing rules is safe exactly if no rule has a filter in a chain but its first one.** -/
theorem removalSafe_iff {m : Manager} {a : Registry} {order : EntryPoint → List ℕ}
    {rs : List (ℕ × Rule)} (h : Holding m a order rs) : RemovalSafe m ↔ FirstOnly a rs := by
  constructor
  · intro hsafe
    by_contra hrs
    obtain ⟨es, p, hp⟩ := Removal.exists_freed h hrs
    exact hsafe _ acceptAll es p hp
  · intro hfirst σ io es p hp
    have hstart : Removal.Steady ⟨m, none, none⟩ := .idle h hfirst rfl fun _ _ h => nomatch h
    refine Run.execM_error (P := Removal.Steady) (B := fun f => ∀ p, f ≠ .freed p)
      (fun st e st' hst hok => ?_) (fun st e f hst herror => ?_) hstart hp p rfl
    · rcases hst.step io e with ⟨st'', hst'', hsteady⟩ | ⟨f, hf, -⟩
      · rw [hok] at hst''
        cases hst''
        exact hsteady
      · rw [hok] at hf
        cases hf
    · rcases hst.step io e with ⟨st', hst', -⟩ | ⟨f', hf', hfreed⟩
      · rw [herror] at hst'
        cases hst'
      · rw [herror] at hf'
        cases hf'
        exact hfreed

theorem removalSafe_aggregation :
    ∃ m a order, Holding m a order [(0, aggregationRule)] ∧ RemovalSafe m := by
  obtain ⟨m, a, order, -, -, h⟩ := twoModules_registerRule
  refine ⟨m, a, order, h, (removalSafe_iff h).mpr fun x hx f hf => ?_⟩
  rw [List.mem_singleton.mp hx] at hf
  cases hf

/-- A rule of the aggregation module that is aggregating at both levels: one filter behind the
routing, one for the packets of the machine itself. -/
def bothLevelsRule : Rule := ⟨0, 0, [0, 1]⟩

/-- The module has made the rule. -/
def bothLevels : Manager where
  chains :=
    { initChains with
      filters := fun f =>
        if f = 0 then some ⟨0xff, filterAtPostRt, 0, 0⟩
        else if f = 1 then some ⟨0xff, filterAtLocalOut, 0, 1⟩ else none
      specs := fun sp => if sp = 0 then some ⟨0, 0, 0, 0, 0, 0⟩ else none }
  ruleList := makeKlist
  rules r := if r = 0 then some bothLevelsRule else none
  names i := if i = 0 then some "aggregation".toList else none
  dirty := false

/-- The rule gets registered, with both of its filters. -/
private theorem bothLevels_registerRule :
    ∃ m a order, bothLevels.registerRule 0 = .ok m ∧ Holding m a order [(0, bothLevelsRule)] ∧
      1 ∈ a.registered .localOut := by
  have hfilters : ∀ f ∈ bothLevelsRule.filters, f = 0 ∨ f = 1 := fun f hf => by
    simpa [bothLevelsRule] using hf
  have hspecs : ∀ f ∈ bothLevelsRule.filters,
      ∃ r, bothLevels.chains.filters f = some r ∧ r.filterSpecs = 0 := by
    intro f hf
    rcases hfilters f hf with rfl | rfl
    · exact ⟨_, rfl, rfl⟩
    · exact ⟨_, rfl, rfl⟩
  have hnew : NewRule bothLevels ⟨bothLevels.chains.filters, bothLevels.chains.specs, fun _ => []⟩
      [] (0, bothLevelsRule) := by
    refine ⟨rfl, List.not_mem_nil, ⟨_, rfl⟩, by decide, fun f hf => (nomatch hf), fun f hf => ?_,
      fun f hf g hg => ?_, fun f hf => (nomatch hf)⟩
    · obtain ⟨r, hr, hr0⟩ := hspecs f hf
      refine ⟨r, ⟨0, 0, 0, 0, 0, 0⟩, hr, ?_⟩
      rw [hr0]
      rfl
    · obtain ⟨r, hr, hr0⟩ := hspecs f hf
      obtain ⟨t, ht, ht0⟩ := hspecs g hg
      rw [Registry.specsOf, Registry.specsOf]
      dsimp only
      rw [hr, ht, Option.map_some, Option.map_some, hr0, ht0]
  obtain ⟨m, order, hm, -, h⟩ := (Holding.nil rfl rfl).registerRule hnew
  exact ⟨m, _, order, hm, h, List.mem_singleton_self 1⟩

/-- **A packet between two steps**: the rule is unregistered, its first filter leaves its chain, the
specification is freed, and a packet of the machine itself comes to the second filter. -/
theorem removal_not_safe :
    ∃ m a order p, bothLevels.registerRule 0 = .ok m ∧ Holding m a order [(0, bothLevelsRule)] ∧
      Run.execM (Removal.step acceptAll) ⟨m, none, none⟩
        [.unregisterRule 0, .next, .next, .packet .localOut plainPacket] = .error (.freed p) ∧
      ¬ RemovalSafe m := by
  obtain ⟨m, a, order, hm, h, hmem⟩ := bothLevels_registerRule
  obtain ⟨p, hp⟩ := Removal.exists_freed_of_second
    (show Holding m a order ([] ++ _ :: []) from h) (fun y hy => nomatch hy)
    (show 1 ∈ bothLevelsRule.filters.tail by decide) hmem
  exact ⟨m, a, order, p, hm, h, hp, fun hsafe => hsafe _ acceptAll _ p hp⟩

end MiaVita.Framework
