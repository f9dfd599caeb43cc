import MiaVita.FredFramework.Stacking

/-!
# The list of buffers

Each level of aggregation keeps its buffers in a list, one for each destination that it has sent
to. A hook walks to the buffer of the destination of its packet, and pushes the packet there.

`Stored size buffers content` says what such a list is for: it is a table of bytes, with at most
one buffer for a destination (`OnePerIp`). The walk keeps the table (`Stored.getBufferFor`), a
push changes the row of one destination (`Stored.replace`), and a pass may empty rows
(`Stored.of_ips`).
-/

namespace MiaVita

open Memory Fallible

variable {buffers buffers' pre post : List (Option AggregateBuffer)} {b b' c : AggregateBuffer}

/-! ### The walk and the push -/

/-- `pushTo` on the buffer it finds. -/
theorem pushTo_append (push : Push) (pre : List (Option AggregateBuffer)) (b : AggregateBuffer)
    (post : List (Option AggregateBuffer)) (skb : SkBuff) :
    pushTo push pre.length (pre ++ some b :: post) skb =
      push b skb >>= fun r => .ok (r.1, r.2.1, pre ++ some r.2.2 :: post) := by
  have hget : (pre ++ some b :: post)[pre.length]? = some (some b) := by simp
  have hset : ∀ b', (pre ++ some b :: post).set pre.length (some b') = pre ++ some b' :: post := by
    intro b'
    rw [List.set_append_right _ _ le_rfl, Nat.sub_self, List.set_cons_zero]
  simp only [pushTo, hget, hset]

/-- The walk ends at the first buffer for the destination, or adds a node at the end. -/
theorem getBufferFor_cases {size : ℕ} {created : Bool} {d : UInt32} {i : ℕ}
    (h : getBufferFor size created d buffers = .ok (i, buffers')) :
    (∃ pre b post, buffers = pre ++ some b :: post ∧ b.ip = d ∧ i = pre.length ∧
        buffers' = buffers) ∨
      (∀ b, some b ∈ buffers → b.ip ≠ d) ∧ i = buffers.length ∧
        buffers' = buffers ++ [createAggregateBuffer size d created] := by
  induction buffers generalizing i buffers' with
  | nil =>
    cases h
    exact .inr ⟨by simp, rfl, rfl⟩
  | cons x buffers ih =>
    cases x with
    | none => cases h
    | some ab =>
      rw [getBufferFor] at h
      split_ifs at h with hip
      · cases h
        exact .inl ⟨[], ab, buffers, rfl, hip, rfl, rfl⟩
      · obtain ⟨⟨j, rest⟩, hrest, h⟩ := bind_eq_ok.mp h
        cases h
        obtain ⟨pre, b, post, rfl, hb, rfl, rfl⟩ | ⟨habsent, rfl, rfl⟩ := ih hrest
        · exact .inl ⟨some ab :: pre, b, post, rfl, hb, rfl, rfl⟩
        · refine .inr ⟨?_, rfl, rfl⟩
          intro b hb
          obtain hb | hb := List.mem_cons.mp hb
          · cases hb
            exact hip
          · exact habsent b hb

theorem getBufferFor_returns (size : ℕ) (created : Bool) (d : UInt32) (h : none ∉ buffers) :
    ∃ r, getBufferFor size created d buffers = .ok r := by
  induction buffers with
  | nil => exact ⟨_, rfl⟩
  | cons x buffers ih =>
    cases x with
    | none => exact absurd List.mem_cons_self h
    | some ab =>
      rw [getBufferFor]
      by_cases hip : ab.ip = d
      · exact ⟨_, if_pos hip⟩
      · obtain ⟨r, hr⟩ := ih fun hmem => h (List.mem_cons_of_mem _ hmem)
        exact ⟨_, (if_neg hip).trans (by rw [hr, ok_bind])⟩

/-! ### The destinations in a list -/

/-- The destinations of the buffers; an entry without a buffer has none. -/
def ips (buffers : List (Option AggregateBuffer)) : List (Option UInt32) :=
  buffers.map (Option.map AggregateBuffer.ip)

theorem none_mem_ips_iff : none ∈ ips buffers ↔ none ∈ buffers := by
  rw [ips, List.mem_map]
  constructor
  · rintro ⟨x, hx, hnone⟩
    rwa [Option.map_eq_none_iff.mp hnone] at hx
  · exact fun h => ⟨none, h, rfl⟩

private theorem some_mem_ips_iff {d : UInt32} :
    some d ∈ ips buffers ↔ ∃ b, some b ∈ buffers ∧ b.ip = d := by
  rw [ips, List.mem_map]
  constructor
  · rintro ⟨x, hx, hd⟩
    obtain ⟨b, rfl, hip⟩ := Option.map_eq_some_iff.mp hd
    exact ⟨b, hx, hip⟩
  · rintro ⟨b, hb, rfl⟩
    exact ⟨some b, hb, rfl⟩

/-- There is at most one buffer for a destination. -/
def OnePerIp (buffers : List (Option AggregateBuffer)) : Prop :=
  (buffers.map (Option.map AggregateBuffer.ip)).Pairwise fun x y => ∀ d ∈ x, d ∉ y

theorem onePerIp_congr (h : ips buffers' = ips buffers) : OnePerIp buffers' ↔ OnePerIp buffers := by
  rw [OnePerIp, OnePerIp]
  exact iff_of_eq (congrArg _ h)

/-- One more entry, for a destination that had none. -/
theorem onePerIp_concat {d : UInt32} {x : Option UInt32} (h : OnePerIp buffers)
    (hx : ∀ d' ∈ x, d' = d) (habsent : ∀ b, some b ∈ buffers → b.ip ≠ d)
    (hips : ips buffers' = ips buffers ++ [x]) : OnePerIp buffers' := by
  have hpairwise : (ips buffers ++ [x]).Pairwise fun x y => ∀ d ∈ x, d ∉ y := by
    refine List.pairwise_append.mpr ⟨h, List.pairwise_singleton _ _, ?_⟩
    intro y hy z hz d' hd' hd''
    rw [List.mem_singleton.mp hz] at hd''
    obtain ⟨o, ho, rfl⟩ := List.mem_map.mp hy
    obtain ⟨b, rfl, hb⟩ := Option.mem_map.mp hd'
    exact habsent b ho (hb.trans (hx d' hd''))
  rw [← hips] at hpairwise
  exact hpairwise

private theorem mem_replaced : some c ∈ pre ++ some b :: post ↔ c = b ∨ some c ∈ pre ++ post := by
  rw [List.mem_append, List.mem_cons, List.mem_append, Option.some.injEq]
  tauto

/-- The other buffers are for other destinations. -/
private theorem OnePerIp.ip_ne (h : OnePerIp (pre ++ some b :: post))
    (hc : some c ∈ pre ++ post) : c.ip ≠ b.ip := by
  obtain ⟨-, hafter, hcross⟩ := List.pairwise_append.mp (List.pairwise_map.mp h)
  intro hip
  obtain hc | hc := List.mem_append.mp hc
  · exact hcross _ hc (some b) List.mem_cons_self c.ip rfl (congrArg some hip.symm)
  · exact (List.pairwise_cons.mp hafter).1 _ hc b.ip rfl (congrArg some hip)

/-- Two buffers for one destination are one. -/
theorem OnePerIp.eq_of_ip_eq (h : OnePerIp buffers) (hb : some b ∈ buffers)
    (hc : some c ∈ buffers) (hip : b.ip = c.ip) : b = c := by
  obtain ⟨pre, post, rfl⟩ := List.append_of_mem hb
  obtain rfl | hc := mem_replaced.mp hc
  · rfl
  · exact absurd hip.symm (h.ip_ne hc)

/-! ### The table of bytes -/

/-- There is at most one buffer for a destination, of the given size and with the bytes of the
destination; where there is none, there are no bytes. -/
structure Stored (size : ℕ) (buffers : List (Option AggregateBuffer))
    (content : UInt32 → List UInt8) : Prop where
  unique : OnePerIp buffers
  holds : ∀ b, some b ∈ buffers → b.Holds b.ip size (content b.ip)
  absent : ∀ d, (∀ b, some b ∈ buffers → b.ip ≠ d) → content d = []

theorem stored_nil (size : ℕ) : Stored size [] fun _ => [] where
  unique := .nil
  holds _ h := absurd h List.not_mem_nil
  absent _ _ := rfl

namespace Stored

variable {size : ℕ} {content content' : UInt32 → List UInt8} {d : UInt32}

/-- The same destinations with other bytes, and with none where there were none. -/
theorem of_ips (h : Stored size buffers content) (hips : ips buffers' = ips buffers)
    (hholds : ∀ b, some b ∈ buffers' → b.Holds b.ip size (content' b.ip))
    (hnil : ∀ d, content d = [] → content' d = []) : Stored size buffers' content' where
  unique := (onePerIp_congr hips).mpr h.unique
  holds := hholds
  absent d hd := by
    refine hnil d (h.absent d fun b hb hip => ?_)
    have hmem : some d ∈ ips buffers' := hips ▸ some_mem_ips_iff.mpr ⟨b, hb, hip⟩
    obtain ⟨b', hb', hip'⟩ := some_mem_ips_iff.mp hmem
    exact hd b' hb' hip'

/-- A new node, with an empty buffer or without one. -/
private theorem add (h : Stored size buffers content) (created : Bool)
    (habsent : ∀ b, some b ∈ buffers → b.ip ≠ d) :
    Stored size (buffers ++ [createAggregateBuffer size d created]) content := by
  have hnew : ∀ b, createAggregateBuffer size d created = some b → b.Holds d size [] := by
    intro b hb
    cases created with
    | false => cases hb
    | true =>
      obtain ⟨b₀, hcreate, hholds⟩ := AggregateBuffer.holds_create size d
      rw [hcreate] at hb
      cases hb
      exact hholds
  refine ⟨?_, ?_, ?_⟩
  · refine onePerIp_concat h.unique ?_ habsent (List.map_append ..)
    intro d' hd'
    obtain ⟨b, hb, rfl⟩ := Option.mem_map.mp hd'
    exact (hnew b hb).ip_eq
  · intro b hb
    obtain hb | hb := List.mem_append.mp hb
    · exact h.holds b hb
    · have hholds := hnew b (List.mem_singleton.mp hb).symm
      rw [hholds.ip_eq, h.absent d habsent]
      exact hholds
  · intro d' hd'
    exact h.absent d' fun b hb => hd' b (List.mem_append_left _ hb)

/-- The buffer of a destination is replaced by one that holds other bytes for it. -/
theorem replace {bytes : List UInt8} (h : Stored size (pre ++ some b :: post) content)
    (hholds : b'.Holds b.ip size bytes) :
    Stored size (pre ++ some b' :: post) (Function.update content b.ip bytes) := by
  have hip := hholds.ip_eq
  refine ⟨?_, ?_, ?_⟩
  · have hunique := h.unique
    rw [OnePerIp, List.map_append, List.map_cons, Option.map_some] at hunique ⊢
    rw [hip]
    exact hunique
  · intro c hc
    obtain rfl | hc := mem_replaced.mp hc
    · rw [hip, Function.update_self]
      exact hholds
    · rw [Function.update_of_ne (h.unique.ip_ne hc)]
      exact h.holds c (mem_replaced.mpr (.inr hc))
  · intro d hd
    have hne : d ≠ b.ip := by
      rintro rfl
      exact hd b' (mem_replaced.mpr (.inl rfl)) hip
    rw [Function.update_of_ne hne]
    refine h.absent d fun c hc => ?_
    obtain rfl | hc := mem_replaced.mp hc
    · exact hne.symm
    · exact hd c (mem_replaced.mpr (.inr hc))

/-- The walk keeps the table, and ends at a buffer unless its allocation failed. -/
theorem getBufferFor (h : Stored size buffers content) {created : Bool} {i : ℕ}
    (hget : MiaVita.getBufferFor size created d buffers = .ok (i, buffers')) :
    Stored size buffers' content ∧
      ((∃ pre b post, buffers' = pre ++ some b :: post ∧ b.ip = d ∧ i = pre.length) ∨
        created = false ∧ buffers'[i]? = some none ∧ content d = []) := by
  obtain ⟨pre, b, post, hbuffers, hb, hi, rfl⟩ | ⟨habsent, hi, rfl⟩ := getBufferFor_cases hget
  · exact ⟨h, .inl ⟨pre, b, post, hbuffers, hb, hi⟩⟩
  · refine ⟨h.add created habsent, ?_⟩
    cases created with
    | false => exact .inr ⟨rfl, by rw [hi]; simp [createAggregateBuffer], h.absent d habsent⟩
    | true =>
      obtain ⟨b, hcreate, hb⟩ := AggregateBuffer.holds_create size d
      exact .inl ⟨buffers, b, [], by rw [hcreate], hb.ip_eq, hi⟩

/-- The buffers for a destination: none, or one with its bytes. -/
theorem filter_ip (h : Stored size buffers content) (d : UInt32) :
    buffers.filter (fun b => b.any fun b => b.ip = d) = [] ∧ content d = [] ∨
      ∃ b, buffers.filter (fun b => b.any fun b => b.ip = d) = [some b] ∧
        b.Holds d size (content d) := by
  by_cases hd : ∃ b, some b ∈ buffers ∧ b.ip = d
  · obtain ⟨b, hb, rfl⟩ := hd
    refine .inr ⟨b, ?_, h.holds b hb⟩
    obtain ⟨pre, post, rfl⟩ := List.append_of_mem hb
    have hothers : (pre ++ post).filter (fun c => c.any fun c => c.ip = b.ip) = [] := by
      refine List.filter_eq_nil_iff.mpr fun x hx => ?_
      cases x with
      | none => simp
      | some c => simpa using h.unique.ip_ne hx
    rw [List.filter_append, List.append_eq_nil_iff] at hothers
    rw [List.filter_append, List.filter_cons_of_pos (by simp), hothers.1, hothers.2]
    rfl
  · have hne : ∀ b, some b ∈ buffers → b.ip ≠ d := fun b hb hip => hd ⟨b, hb, hip⟩
    refine .inl ⟨List.filter_eq_nil_iff.mpr fun x hx => ?_, h.absent d hne⟩
    cases x with
    | none => simp
    | some b => simpa using hne b hx

end Stored

end MiaVita
