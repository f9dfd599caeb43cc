import MiaVita.Lib.Bytes
import Mathlib.Algebra.Group.Basic
import Mathlib.Tactic.Abel

/-!
# Difference chains of timestamps

A stack of time-stamped records can be sent with one absolute time, that of the newest record,
and differences for the rest: newest first, `t₀, t₀ - t₁, t₁ - t₂, …`. Over any commutative group
(`deltas`, `recover`) subtracting along the list gives the times back.

`Stamped` is a record that carries its own time, as eight big-endian bytes at a known offset,
and `chain` the concatenation of a stack of such records, newest first, with the times replaced
by the chain of their differences. A new record goes on top by rewriting the time of the
previous top in place (`patch_chain_cons`) and prepending (`chain_cons`).

A time can also travel by itself along a path of nodes (`passOn`), as an age on the way from one
node to the next; `foldl_passOn` says what arrives.
-/

namespace StampChain

/-! ### Differences in a group -/

section Group

variable {G : Type*} [AddCommGroup G]

/-- The differences of a list of times, newest first, to the one before each, the first of them
to `t`. -/
def gaps (t : G) : List G → List G
  | [] => []
  | u :: us => (t - u) :: gaps u us

/-- The newest time, then the differences. -/
def deltas : List G → List G
  | [] => []
  | t :: ts => t :: gaps t ts

/-- The times whose differences are given, the newest of them below `t`. -/
def recoverBelow (t : G) : List G → List G
  | [] => []
  | d :: ds => (t - d) :: recoverBelow (t - d) ds

/-- Prefix subtraction: the first entry is a time, every further one a difference. -/
def recover : List G → List G
  | [] => []
  | t :: ds => t :: recoverBelow t ds

@[simp] theorem length_gaps (t : G) (ts : List G) : (gaps t ts).length = ts.length := by
  induction ts generalizing t with
  | nil => rfl
  | cons u us ih => rw [gaps, List.length_cons, ih, List.length_cons]

@[simp] theorem length_deltas (ts : List G) : (deltas ts).length = ts.length := by
  cases ts with
  | nil => rfl
  | cons t ts => rw [deltas, List.length_cons, length_gaps, List.length_cons]

private theorem recoverBelow_gaps (t : G) (ts : List G) : recoverBelow t (gaps t ts) = ts := by
  induction ts generalizing t with
  | nil => rfl
  | cons u us ih => rw [gaps, recoverBelow, sub_sub_cancel, ih]

/-- **Prefix subtraction recovers the times.** -/
theorem recover_deltas (ts : List G) : recover (deltas ts) = ts := by
  cases ts with
  | nil => rfl
  | cons t ts => rw [deltas, recover, recoverBelow_gaps]

private theorem gaps_eq_self_iff (t : G) (ts : List G) :
    gaps t ts = ts ↔ (t :: ts).IsChain fun newer older => newer - older = older := by
  induction ts generalizing t with
  | nil => simp [gaps]
  | cons u us ih => rw [gaps, List.cons.injEq, List.isChain_cons_cons, ih]

/-- The differences are the times themselves if each time is the double of the one before it. -/
theorem deltas_eq_self_iff (ts : List G) :
    deltas ts = ts ↔ ts.IsChain fun newer older => newer - older = older := by
  cases ts with
  | nil => simp [deltas]
  | cons t ts => rw [deltas, List.cons.injEq, and_iff_right rfl, gaps_eq_self_iff]

/-! ### Times that are passed on

A creation time travels along a path of nodes whose clocks do not agree. Each sender turns it into
an age, by its own clock, and each receiver the age into a creation time, by its own clock. -/

/-- What a hop makes of a creation time, from the clock readings at its two ends. -/
def passOn (t : G) (clocks : G × G) : G := clocks.2 - (clocks.1 - t)

/-- The time spent at the nodes: from creation to the first transmission, and from each reception to
the next transmission. -/
def residence (t : G) : List (G × G) → G
  | [] => 0
  | (sent, received) :: rest => (sent - t) + residence received rest

/-- The last reading of a clock at a reception. -/
def lastReception (t : G) : List (G × G) → G
  | [] => t
  | (_, received) :: rest => lastReception received rest

omit [AddCommGroup G] in
theorem lastReception_eq (t : G) {clocks : List (G × G)} (h : clocks ≠ []) :
    lastReception t clocks = (clocks.getLast h).2 := by
  induction clocks generalizing t with
  | nil => exact absurd rfl h
  | cons c rest ih =>
    cases rest with
    | nil => rfl
    | cons c' rest => exact ih c.2 (List.cons_ne_nil c' rest)

private theorem foldl_passOn_sub (t d : G) (clocks : List (G × G)) :
    clocks.foldl passOn (t - d) = lastReception t clocks - residence t clocks - d := by
  induction clocks generalizing t d with
  | nil => simp [lastReception, residence]
  | cons c rest ih =>
    have hpass : passOn (t - d) c = c.2 - (c.1 - t + d) := by
      rw [passOn]
      abel
    rw [List.foldl_cons, hpass, ih, lastReception, residence]
    abel

/-- **The times telescope**: what arrives is the last reading less the time spent at the nodes. -/
theorem foldl_passOn (t : G) (clocks : List (G × G)) :
    clocks.foldl passOn t = lastReception t clocks - residence t clocks := by
  have h := foldl_passOn_sub t 0 clocks
  rwa [sub_zero, sub_zero] at h

/-- What arrives does not depend on the clock of a node in between: shifting its two readings
changes nothing. -/
theorem foldl_passOn_shift (t k : G) (before after : List (G × G)) (a b : G × G) :
    (before ++ (a.1, a.2 + k) :: (b.1 + k, b.2) :: after).foldl passOn t =
      (before ++ a :: b :: after).foldl passOn t := by
  have hpass : ∀ u, passOn (passOn u (a.1, a.2 + k)) (b.1 + k, b.2) = passOn (passOn u a) b := by
    intro u
    simp only [passOn]
    abel
  simp only [List.foldl_append, List.foldl_cons, hpass]

end Group

/-! ### Records that carry their time -/

open Bytes

/-- A record with a time in its bytes, eight of them, big-endian, from `off` on. -/
structure Stamped where
  bytes : List UInt8
  off : ℕ
  fits : off + 8 ≤ bytes.length

namespace Stamped

/-- The time a record carries. -/
def time (r : Stamped) : UInt64 := UInt64.ofNat (beVal (slice r.bytes r.off 8))

/-- The bytes of the record with its time replaced. -/
def stamp (r : Stamped) (t : UInt64) : List UInt8 := patch r.bytes r.off (be 8 t.toNat)

@[simp] theorem length_stamp (r : Stamped) (t : UInt64) :
    (r.stamp t).length = r.bytes.length :=
  length_patch (by rw [length_be]; exact r.fits)

/-- The field of a record holds its time. -/
theorem slice_bytes (r : Stamped) : slice r.bytes r.off 8 = be 8 r.time.toNat := by
  have hlen : (slice r.bytes r.off 8).length = 8 := length_slice r.fits
  have hlt := beVal_lt (slice r.bytes r.off 8)
  rw [hlen] at hlt
  rw [time, UInt64.toNat_ofNat', Nat.mod_eq_of_lt (by omega)]
  nth_rewrite 1 [← be_beVal (slice r.bytes r.off 8)]
  rw [hlen]

/-- A record stamped with its own time is the record. -/
@[simp] theorem stamp_time (r : Stamped) : r.stamp r.time = r.bytes := by
  rw [stamp, ← slice_bytes, patch_slice_self r.fits]

/-- The field of a stamped record holds the new time. -/
theorem time_stamp (r : Stamped) (t : UInt64) :
    UInt64.ofNat (beVal (slice (r.stamp t) r.off 8)) = t := by
  have hfits : r.off + (be 8 t.toNat).length ≤ r.bytes.length := by
    rw [length_be]
    exact r.fits
  have hslice := slice_patch_self hfits
  have hlt : t.toNat < 256 ^ 8 := t.toNat_lt
  rw [length_be] at hslice
  rw [stamp, hslice, beVal_be_of_lt hlt, UInt64.ofNat_toNat]

end Stamped

/-! ### Chains of records -/

/-- The bytes of a stack of records under a newer one of time `t`. -/
def below (t : UInt64) (rs : List Stamped) : List UInt8 :=
  (List.zipWith Stamped.stamp rs (gaps t (rs.map Stamped.time))).flatten

/-- The bytes of a stack of records, newest first, with the chain of their differences in place
of their times. -/
def chain (rs : List Stamped) : List UInt8 :=
  (List.zipWith Stamped.stamp rs (deltas (rs.map Stamped.time))).flatten

@[simp] theorem below_nil (t : UInt64) : below t [] = [] := rfl

private theorem below_cons (t : UInt64) (r : Stamped) (rs : List Stamped) :
    below t (r :: rs) = r.stamp (t - r.time) ++ below r.time rs := rfl

theorem chain_cons (r : Stamped) (rs : List Stamped) :
    chain (r :: rs) = r.bytes ++ below r.time rs := by
  have h : chain (r :: rs) = r.stamp r.time ++ below r.time rs := rfl
  rw [h, Stamped.stamp_time]

theorem length_flatten_stamp {rs : List Stamped} {ts : List UInt64} (h : ts.length = rs.length) :
    (List.zipWith Stamped.stamp rs ts).flatten.length =
      (rs.map fun r => r.bytes.length).sum := by
  induction rs generalizing ts with
  | nil => simp
  | cons r rs ih =>
    obtain ⟨t, ts, rfl⟩ := List.exists_cons_of_length_eq_add_one h
    rw [List.zipWith_cons_cons, List.flatten_cons, List.length_append, Stamped.length_stamp,
      ih (by simpa using h), List.map_cons, List.sum_cons]

theorem length_chain (rs : List Stamped) :
    (chain rs).length = (rs.map fun r => r.bytes.length).sum :=
  length_flatten_stamp (by simp)

theorem chain_ne_nil {rs : List Stamped} (h : rs ≠ []) : chain rs ≠ [] := by
  obtain ⟨r, rs, rfl⟩ := List.exists_cons_of_ne_nil h
  intro h'
  have hlen := congrArg List.length h'
  have hfits := r.fits
  rw [chain_cons, List.length_append, List.length_nil] at hlen
  omega

@[simp] theorem chain_eq_nil_iff {rs : List Stamped} : chain rs = [] ↔ rs = [] := by
  constructor
  · intro h
    by_contra hne
    exact chain_ne_nil hne h
  · rintro rfl
    rfl

/-- **Rewriting the top**: replacing the top record's time by its difference to `t` makes the
stack one that lies under a record of time `t`. -/
theorem patch_chain_cons (t : UInt64) (r : Stamped) (rs : List Stamped) :
    patch (chain (r :: rs)) r.off (be 8 (t - r.time).toNat) = below t (r :: rs) := by
  rw [chain_cons, patch_append_left (by rw [length_be]; exact r.fits), below_cons]
  rfl

/-- The time at the head of a chain is the newest record's own. -/
theorem slice_chain_cons (r : Stamped) (rs : List Stamped) :
    slice (chain (r :: rs)) r.off 8 = be 8 r.time.toNat := by
  rw [chain_cons, slice_append_left r.fits, r.slice_bytes]

end StampChain
