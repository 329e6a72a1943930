import Mathlib.Data.List.Range
import Mathlib.Data.List.Rotate
import Mathlib.Tactic

/-!
# Cyclic scans

A cursor into a list is reduced modulo the length of the list, and the list
is scanned once around from there for the first element with a property.
The cursor may be stale: it may lie beyond the end of a list which shrank.

A scheduler which sets the cursor just past what it picked lets an eligible
element wait only for the elements between the cursor and itself.  `waiting`
bounds their number also when the list grows at its end.
-/

namespace CyclicScan

variable {α : Type*} {l : List α} {cursor idx : ℕ} {p : α → Bool} {a : α}

/-- The first position, going once around `l` from `cursor`, whose element
satisfies `p`. -/
def find? (l : List α) (cursor : ℕ) (p : α → Bool) : Option (ℕ × α) :=
  (List.range l.length).findSome? fun cnt =>
    let idx := (cursor % l.length + cnt) % l.length
    (l[idx]?).bind fun a => if p a then some (idx, a) else none

theorem exists_offset {n pos : ℕ} (start : ℕ) (hpos : pos < n) :
    ∃ cnt < n, (start % n + cnt) % n = pos := by
  have hn : 0 < n := by omega
  have hstart : start % n < n := Nat.mod_lt _ hn
  by_cases hle : start % n ≤ pos
  · refine ⟨pos - start % n, by omega, ?_⟩
    rw [Nat.add_sub_cancel' hle]
    exact Nat.mod_eq_of_lt hpos
  · refine ⟨pos + n - start % n, by omega, ?_⟩
    rw [show start % n + (pos + n - start % n) = pos + n by omega,
      Nat.add_mod_right]
    exact Nat.mod_eq_of_lt hpos

/-- Going once around `l` from `start` visits the rotated list. -/
theorem map_range_eq_rotate (l : List α) (start : ℕ) :
    (List.range l.length).map (fun cnt => l[(start + cnt) % l.length]?) =
      (l.rotate start).map some := by
  apply List.ext_getElem
  · simp
  · intro cnt hcnt hcnt'
    simp [List.getElem_rotate, Nat.add_comm start cnt]

theorem find?_eq_some (hfind : find? l cursor p = some (idx, a)) :
    l[idx]? = some a ∧ p a = true := by
  rcases List.exists_of_findSome?_eq_some hfind with ⟨cnt, _, hcnt⟩
  rcases Option.bind_eq_some_iff.mp hcnt with ⟨b, hget, hif⟩
  split at hif
  next hp =>
    simp only [Option.some.injEq, Prod.mk.injEq] at hif
    rcases hif with ⟨rfl, rfl⟩
    exact ⟨hget, hp⟩
  next => simp at hif

theorem mem_of_find? (hfind : find? l cursor p = some (idx, a)) : a ∈ l :=
  List.mem_of_getElem? (find?_eq_some hfind).1

theorem find?_eq_none : find? l cursor p = none ↔ ∀ a ∈ l, p a = false := by
  rw [find?, List.findSome?_eq_none_iff]
  constructor
  · intro hnone a ha
    rcases List.mem_iff_getElem.mp ha with ⟨pos, hpos, rfl⟩
    rcases exists_offset cursor hpos with ⟨cnt, hcnt, hidx⟩
    have hstep := hnone cnt (List.mem_range.mpr hcnt)
    simp only [hidx, List.getElem?_eq_getElem hpos, Option.bind_some] at hstep
    simpa using hstep
  · intro hall cnt _
    rw [Option.bind_eq_none_iff]
    intro a hget
    simp [hall a (List.mem_of_getElem? hget)]

/-! ## What the scan finds -/

/-- Element `a` at position `idx` is the first with `p`, going once around `l`
from `cursor`: it is found after `cnt` steps and none of the elements passed
before has `p`. -/
def First (l : List α) (cursor : ℕ) (p : α → Prop) (idx : ℕ) (a : α) : Prop :=
  ∃ cnt < l.length, idx = (cursor + cnt) % l.length ∧ l[idx]? = some a ∧ p a ∧
    ∀ passed < cnt, ∀ b, l[(cursor + passed) % l.length]? = some b → ¬p b

theorem find?_first (hfind : find? l cursor p = some (idx, a)) :
    First l cursor (fun b => p b = true) idx a := by
  obtain ⟨before, cnt, after, hrange, hcnt, hbefore⟩ := List.findSome?_eq_some_iff.mp hfind
  have hlength : before.length = cnt ∧ cnt < l.length := by
    have hget : (List.range l.length)[before.length]? = some cnt := by
      simp [hrange]
    rw [List.getElem?_eq_some_iff] at hget
    obtain ⟨hlt, heq⟩ := hget
    rw [List.getElem_range] at heq
    rw [List.length_range] at hlt
    omega
  have hpassed : ∀ passed < cnt, passed ∈ before := by
    intro passed hlt
    have hsplit : before = List.range cnt := by
      have htake := congrArg (List.take before.length) hrange
      rw [List.take_left', List.take_range] at htake
      · rw [← htake, hlength.1, Nat.min_eq_left hlength.2.le]
      · rfl
    rw [hsplit]
    exact List.mem_range.mpr hlt
  obtain ⟨hget, hp⟩ := find?_eq_some hfind
  refine ⟨cnt, hlength.2, ?_, hget, hp, ?_⟩
  · rcases Option.bind_eq_some_iff.mp hcnt with ⟨b, _, hif⟩
    split at hif
    next =>
      simp only [Nat.mod_add_mod, Option.some.injEq, Prod.mk.injEq] at hif
      exact hif.1.symm
    next => simp at hif
  · intro passed hlt b hb hpb
    have hnone := hbefore passed (hpassed passed hlt)
    simp only [Nat.mod_add_mod, hb, Option.bind_some] at hnone
    simp [hpb] at hnone

/-! ## Waiting for an element -/

/-- Steps from `cursor`, going around a list of length `n`, to position `pos`. -/
def distance (n cursor pos : ℕ) : ℕ := (pos + n - cursor % n) % n

section Distance

variable {n pos : ℕ}

theorem distance_lt (hn : 0 < n) : distance n cursor pos < n :=
  Nat.mod_lt _ hn

theorem add_distance (hpos : pos < n) : (cursor + distance n cursor pos) % n = pos := by
  have hstart : cursor % n < n := Nat.mod_lt _ (by omega)
  unfold distance
  rw [Nat.add_mod, Nat.mod_mod, ← Nat.add_mod, ← Nat.mod_add_mod,
    show cursor % n + (pos + n - cursor % n) = pos + n by omega, Nat.add_mod_right]
  exact Nat.mod_eq_of_lt hpos

theorem distance_unique {steps : ℕ} (hsteps : steps < n)
    (hpos : (cursor + steps) % n = pos) : distance n cursor pos = steps := by
  have hn : 0 < n := by omega
  have hdistance : distance n cursor pos < n := distance_lt hn
  have hreach : (cursor + distance n cursor pos) % n = pos :=
    add_distance (hpos ▸ Nat.mod_lt _ hn)
  have hmod : distance n cursor pos ≡ steps [MOD n] :=
    Nat.ModEq.add_left_cancel' cursor (hreach.trans hpos.symm)
  exact Nat.ModEq.eq_of_lt_of_lt hmod hdistance hsteps

theorem distance_succ_le (hcursor : cursor ≤ n) (hpos : pos < n) :
    distance (n + 1) cursor pos ≤ distance n cursor pos + 1 := by
  by_cases hahead : cursor ≤ pos
  · have hnew : distance (n + 1) cursor pos = pos - cursor := by
      apply distance_unique (by omega)
      rw [show cursor + (pos - cursor) = pos by omega]
      exact Nat.mod_eq_of_lt (by omega)
    have hold : distance n cursor pos = pos - cursor := by
      apply distance_unique (by omega)
      rw [show cursor + (pos - cursor) = pos by omega]
      exact Nat.mod_eq_of_lt hpos
    omega
  · have hnew : distance (n + 1) cursor pos = pos + n + 1 - cursor := by
      apply distance_unique (by omega)
      rw [show cursor + (pos + n + 1 - cursor) = pos + (n + 1) by omega, Nat.add_mod_right]
      exact Nat.mod_eq_of_lt (by omega)
    have hold : distance n cursor pos = pos + n - cursor := by
      apply distance_unique (by omega)
      rw [show cursor + (pos + n - cursor) = pos + n by omega, Nat.add_mod_right]
      exact Nat.mod_eq_of_lt hpos
    omega

end Distance

section Waiting

variable [DecidableEq α] {k : ℕ} {b : α}

/-- How often, at most, other elements are picked before `a`, in a list which
can grow at its end to `k` elements. -/
def waiting (k : ℕ) (l : List α) (cursor : ℕ) (a : α) : ℕ :=
  if a ∈ l ∧ cursor ≤ l.length then
    distance l.length cursor (l.idxOf a) + (k - l.length)
  else k - 1

theorem waiting_le (hlength : l.length ≤ k) : waiting k l cursor a ≤ k - 1 := by
  unfold waiting
  split
  next hmem =>
    have hpos := List.length_pos_of_mem hmem.1
    have hlt : distance l.length cursor (l.idxOf a) < l.length := distance_lt hpos
    omega
  next => exact le_rfl

theorem waiting_append_le (hlength : l.length < k) :
    waiting k (l ++ [b]) cursor a ≤ waiting k l cursor a := by
  by_cases hmem : a ∈ l ∧ cursor ≤ l.length
  · have hpos : l.idxOf a < l.length := List.idxOf_lt_length_iff.mpr hmem.1
    have hstep := distance_succ_le hmem.2 hpos
    have happend : a ∈ l ++ [b] ∧ cursor ≤ (l ++ [b]).length := by
      refine ⟨List.mem_append_left _ hmem.1, ?_⟩
      rw [List.length_append]
      omega
    unfold waiting
    rw [if_pos hmem, if_pos happend, List.idxOf_append_of_mem hmem.1, List.length_append,
      List.length_singleton]
    omega
  · have hle : waiting k (l ++ [b]) cursor a ≤ k - 1 :=
      waiting_le (by rw [List.length_append, List.length_singleton]; omega)
    have hstale : waiting k l cursor a = k - 1 := if_neg hmem
    rwa [hstale]

/-- Picking another element while `a` is eligible brings the cursor closer to
`a`. -/
theorem waiting_pick {q : α → Prop} (hfirst : First l cursor q idx b) (ha : a ∈ l) (hqa : q a)
    (hne : b ≠ a) (hlength : l.length ≤ k) :
    waiting k l (idx + 1) a + 1 ≤ waiting k l cursor a := by
  obtain ⟨cnt, hcnt, rfl, hget, -, hbefore⟩ := hfirst
  have hpos : l.idxOf a < l.length := List.idxOf_lt_length_iff.mpr ha
  have hreach : (cursor + distance l.length cursor (l.idxOf a)) % l.length = l.idxOf a :=
    add_distance hpos
  have hlt : distance l.length cursor (l.idxOf a) < l.length := distance_lt (by omega)
  have hself : l[l.idxOf a]? = some a := by
    rw [List.getElem?_eq_getElem hpos, List.getElem_idxOf]
  have hpassed : cnt < distance l.length cursor (l.idxOf a) := by
    by_contra hle
    by_cases heq : distance l.length cursor (l.idxOf a) = cnt
    · rw [heq] at hreach
      rw [hreach, hself, Option.some.injEq] at hget
      exact hne hget.symm
    · refine hbefore (distance l.length cursor (l.idxOf a)) (by omega) a ?_ hqa
      rw [hreach, hself]
  have hcloser : distance l.length ((cursor + cnt) % l.length + 1) (l.idxOf a) =
      distance l.length cursor (l.idxOf a) - cnt - 1 := by
    apply distance_unique (by omega)
    rw [add_assoc, Nat.mod_add_mod]
    rw [show cursor + cnt + (1 + (distance l.length cursor (l.idxOf a) - cnt - 1)) =
      cursor + distance l.length cursor (l.idxOf a) by omega]
    exact hreach
  have hnear : (cursor + cnt) % l.length + 1 ≤ l.length := Nat.mod_lt _ (by omega)
  unfold waiting
  rw [if_pos ⟨ha, hnear⟩, hcloser]
  split <;> omega

end Waiting

end CyclicScan
