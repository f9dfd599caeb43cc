import MiaVita.FredFramework.InterceptorManager

/-!
# Unregistering an interceptor (`fred_framework`, `interceptor_manager.c`)

A module that is unloaded unregisters its interceptor by name. `unregister_interceptor` searches the
list and keeps the node that it looks at, so that behind the loop the node is there whether or not
it has the name: a name that nobody has removes the last interceptor of the list, whoever it is.
Only an empty list is left alone.

`UnregistersNamed` is what the call is for, and `unregistersNamed_iff` says when it does that.
-/

namespace MiaVita.Framework

open LinkedList

variable {s s' : InterceptorManager} {a : Registry} {order : EntryPoint → List ℕ}
  {rs : List (ℕ × Rule)} {l : List (ℕ × ℕ)}

/-- What `unregister_interceptor` should do: take the interceptor with the name out of the list and
return 1, or return 0 and leave everything as it is if there is none. -/
structure UnregistersNamed (s : InterceptorManager) (a : Registry) (order : EntryPoint → List ℕ)
    (rs : List (ℕ × Rule)) (l : List (ℕ × ℕ)) (name : List Char) : Prop where
  registered : ∀ l₁ n l₂, l = l₁ ++ n :: l₂ → s.manager.names n.2 = some name →
    ∃ s' a' order' rs', s.unregisterInterceptor name = .ok (s', 1) ∧
      Managed s' a' order' rs' (l₁ ++ l₂)
  unknown : (∀ n ∈ l, s.manager.names n.2 ≠ some name) →
    ∃ s', s.unregisterInterceptor name = .ok (s', 0) ∧ Managed s' a order rs l

/-- The interceptors in front of another one have other names. -/
private theorem names_ne_of_nodup {names : ℕ → Option (List Char)} {l₁ l₂ : List (ℕ × ℕ)}
    {n : ℕ × ℕ}
    (h : ((l₁ ++ n :: l₂).map fun n => names n.2).Nodup) : ∀ m ∈ l₁, names m.2 ≠ names n.2 := by
  rw [List.map_append, List.map_cons] at h
  obtain ⟨-, -, hdisjoint⟩ := List.nodup_append.mp h
  exact fun m hm => hdisjoint _ (List.mem_map_of_mem hm) _ List.mem_cons_self

namespace Managed

/-- An empty list is left alone. -/
private theorem unregister_empty (h : Managed s a order rs []) (name : List Char) :
    s.unregisterInterceptor name = .ok (s, 0) := by
  rw [InterceptorManager.unregisterInterceptor,
    InterceptorManager.findInterceptor_of_notMem h.interceptors fun n hn =>
      absurd hn List.not_mem_nil]
  rfl

/-- **A name that nobody has**: unless the call does not return, the last interceptor is gone. -/
theorem unregister_unknown {n : ℕ × ℕ} (h : Managed s a order rs (l ++ [n])) {name : List Char}
    (hne : ∀ m ∈ l ++ [n], s.manager.names m.2 ≠ some name) :
    s.unregisterInterceptor name = .error .endless ∨
      ∃ s' a' order', s.unregisterInterceptor name = .ok (s', 1) ∧ Managed s' a' order' [] l := by
  have hlast := InterceptorManager.findInterceptor_of_notMem h.interceptors
    (h.others (fun _ hn => hn) hne)
  rw [lastAddr_concat] at hlast
  by_cases hall : ∀ x ∈ rs, s.manager.names x.2.interceptor = some name
  · obtain ⟨s', a', order', hs', h', -⟩ := h.unregisterFound hlast hall
    rw [List.append_nil] at h'
    exact .inr ⟨s', a', order', hs', h'⟩
  · rw [not_forall] at hall
    obtain ⟨x, hx⟩ := hall
    exact .inl (h.unregisterFound_endless hlast ⟨x, Classical.not_imp.mp hx⟩)

/-- The interceptor with a name is found. -/
private theorem find_of_name {l₁ l₂ : List (ℕ × ℕ)} {n : ℕ × ℕ}
    (h : Managed s a order rs (l₁ ++ n :: l₂))
    (hdistinct : ((l₁ ++ n :: l₂).map fun n => s.manager.names n.2).Nodup) {name : List Char}
    (hname : s.manager.names n.2 = some name) :
    s.findInterceptor name (s.intList.next + 1) s.intList.first none = .ok (some n.1) := by
  refine InterceptorManager.findInterceptor_of_mem h.interceptors hname
    (h.others (fun _ hm => List.mem_append_left _ hm) fun m hm => ?_)
  rw [← hname]
  exact names_ne_of_nodup hdistinct m hm

end Managed

/-- If the call does what it is for, and there are interceptors, then one of them has the name. -/
private theorem UnregistersNamed.exists_name {name : List Char}
    (hspec : UnregistersNamed s a order rs l name) (h : Managed s a order rs l)
    (hl : l ≠ []) : ∃ n ∈ l, s.manager.names n.2 = some name := by
  obtain ⟨l', n, rfl⟩ := l.eq_nil_or_concat.resolve_left hl
  rw [List.concat_eq_append] at *
  by_contra hnone
  have hne : ∀ m ∈ l' ++ [n], s.manager.names m.2 ≠ some name := fun m hm hm' =>
    hnone ⟨m, hm, hm'⟩
  obtain ⟨s₁, hs₁, -⟩ := hspec.unknown hne
  rcases h.unregister_unknown hne with herror | ⟨s₂, -, -, hs₂, -⟩
  · rw [herror] at hs₁
    cases hs₁
  · rw [hs₂] at hs₁
    cases hs₁

/-- **Unregistering does what it is for** exactly if there is no interceptor at all, or if there is
one with the name and all the rules are its own. -/
theorem unregistersNamed_iff (h : Managed s a order rs l)
    (hdistinct : (l.map fun n => s.manager.names n.2).Nodup) (name : List Char) :
    UnregistersNamed s a order rs l name ↔
      l = [] ∨ (∃ n ∈ l, s.manager.names n.2 = some name) ∧
        ∀ x ∈ rs, s.manager.names x.2.interceptor = some name := by
  constructor
  · intro hspec
    refine or_iff_not_imp_left.mpr fun hl => ?_
    obtain ⟨n, hn, hname⟩ := hspec.exists_name h hl
    refine ⟨⟨n, hn, hname⟩, ?_⟩
    obtain ⟨l₁, l₂, rfl⟩ := List.append_of_mem hn
    obtain ⟨s', -, -, -, hs', -⟩ := hspec.registered l₁ n l₂ rfl hname
    -- at a rule of another interceptor the loop over the rules does not go on
    by_contra hall
    rw [not_forall] at hall
    obtain ⟨x, hx⟩ := hall
    rw [h.unregisterFound_endless (h.find_of_name hdistinct hname)
      ⟨x, Classical.not_imp.mp hx⟩] at hs'
    cases hs'
  · rintro (rfl | ⟨⟨m, hm, hname⟩, hall⟩)
    · refine ⟨fun l₁ n l₂ hcut => ?_, fun _ => ⟨s, h.unregister_empty name, h⟩⟩
      exact absurd hcut.symm (List.append_ne_nil_of_right_ne_nil l₁ (List.cons_ne_nil n l₂))
    · refine ⟨?_, fun hne => absurd hname (hne m hm)⟩
      -- names are distinct, so that the first one with the name is the one
      rintro l₁ n l₂ rfl hn
      obtain ⟨s', a', order', hs', h', -⟩ :=
        h.unregisterFound (h.find_of_name hdistinct hn) hall
      exact ⟨s', a', order', [], hs', h'⟩

/-- The aggregation module is loaded, and has registered its interceptor. -/
theorem aggregation_registered :
    ∃ s, (InterceptorManager.start twoModules.names).registerInterceptor 0 = .ok s ∧
      s.manager.names = twoModules.names ∧ Managed s .init (fun _ => []) [] [(0, 0)] := by
  obtain ⟨s, hs, hnames, h, -⟩ := (Managed.start twoModules.names).registerInterceptor
    (i := 0) ⟨_, rfl⟩
  exact ⟨s, hs, hnames, h⟩

theorem unregistersNamed_aggregation :
    ∃ s, Managed s .init (fun _ => []) [] [(0, 0)] ∧
      UnregistersNamed s .init (fun _ => []) [] [(0, 0)] "aggregation".toList := by
  obtain ⟨s, -, hnames, h⟩ := aggregation_registered
  refine ⟨s, h, (unregistersNamed_iff h (List.nodup_singleton _) _).mpr
    (.inr ⟨⟨(0, 0), ?_, ?_⟩, ?_⟩)⟩
  · exact List.mem_singleton_self _
  · rw [hnames]
    rfl
  · exact fun x hx => absurd hx List.not_mem_nil

/-- **A name that nobody has registered**: the aggregation module is still loaded, and its
interceptor is gone. -/
theorem unregister_removes_other :
    ∃ s s' a' order', (InterceptorManager.start twoModules.names).registerInterceptor 0 = .ok s ∧
      Managed s .init (fun _ => []) [] [(0, 0)] ∧
      s.unregisterInterceptor "deaggregation".toList = .ok (s', 1) ∧
      Managed s' a' order' [] [] ∧
      ¬ UnregistersNamed s .init (fun _ => []) [] [(0, 0)] "deaggregation".toList := by
  obtain ⟨s, hs, hnames, h⟩ := aggregation_registered
  have hne : ∀ m ∈ [] ++ [((0 : ℕ), (0 : ℕ))],
      s.manager.names m.2 ≠ some "deaggregation".toList := by
    intro m hm
    rw [List.mem_singleton.mp hm, hnames]
    decide
  have hnone : ¬ ∃ n ∈ [((0 : ℕ), (0 : ℕ))], s.manager.names n.2 = some "deaggregation".toList := by
    rintro ⟨n, hn, hname⟩
    exact hne n hn hname
  have hlast := InterceptorManager.findInterceptor_of_notMem h.interceptors
    (h.others (fun _ hn => hn) hne)
  obtain ⟨s', a', order', hs', h', -⟩ := Managed.unregisterFound
    (show Managed s _ _ _ ([] ++ (0, 0) :: []) from h) hlast fun x hx => absurd hx List.not_mem_nil
  exact ⟨s, s', a', order', hs, h, hs', h', fun hspec =>
    hnone (hspec.exists_name h (List.cons_ne_nil _ _))⟩

end MiaVita.Framework
