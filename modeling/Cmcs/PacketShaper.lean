import Mathlib.Algebra.Order.Group.Defs
import Mathlib.Data.List.Basic
import Mathlib.Tactic

/-!
# Greedy shapers

A shaper releases the items of a stream in order, each one no earlier than its
arrival and at least a given gap behind the release before it.  The greedy
shaper releases each item as early as these two rules allow, and so each of its
releases is the arrival of some earlier item, or the start, plus the gaps since.
-/

namespace PacketShaper

variable {R : Type*} [AddCommGroup R] [LinearOrder R]

/-- An item which arrives at `time` and has to stay `gap` behind its
predecessor. -/
structure Arrival (R : Type*) where
  time : R
  gap : R
  deriving DecidableEq

def release (last : R) (arrival : Arrival R) : R := max arrival.time (last + arrival.gap)

def lastRelease (start : R) (arrivals : List (Arrival R)) : R :=
  arrivals.foldl release start

def releases : R → List (Arrival R) → List R
  | _, [] => []
  | last, arrival :: rest => release last arrival :: releases (release last arrival) rest

variable {start t : R} {arrivals : List (Arrival R)} {arrival : Arrival R}

theorem lastRelease_concat :
    lastRelease start (arrivals ++ [arrival]) = release (lastRelease start arrivals) arrival := by
  rw [lastRelease, List.foldl_append]
  rfl

theorem releases_append (start : R) (arrivals more : List (Arrival R)) :
    releases start (arrivals ++ more) =
      releases start arrivals ++ releases (lastRelease start arrivals) more := by
  induction arrivals generalizing start with
  | nil => rfl
  | cons arrival rest ih => rw [List.cons_append, releases, ih, releases, List.cons_append]; rfl

theorem releases_concat :
    releases start (arrivals ++ [arrival]) =
      releases start arrivals ++ [release (lastRelease start arrivals) arrival] := by
  rw [releases_append]
  rfl

theorem length_releases : (releases start arrivals).length = arrivals.length := by
  induction arrivals generalizing start with
  | nil => rfl
  | cons arrival rest ih => rw [releases, List.length_cons, List.length_cons, ih]

variable [IsOrderedAddMonoid R]

theorem le_release (hgap : 0 ≤ arrival.gap) (last : R) : last ≤ release last arrival :=
  (le_add_of_nonneg_right hgap).trans (le_max_right _ _)

theorem le_lastRelease_of_mem (hgaps : ∀ a ∈ arrivals, 0 ≤ a.gap) :
    ∀ t ∈ releases start arrivals, t ≤ lastRelease start arrivals := by
  induction arrivals using List.reverseRecOn with
  | nil =>
      intro t ht
      simp [releases] at ht
  | append_singleton arrivals arrival ih =>
      intro t ht
      rw [lastRelease_concat]
      rw [releases_concat, List.mem_append, List.mem_singleton] at ht
      cases ht with
      | inl hbefore =>
          exact (ih (fun a ha => hgaps a (by simp [ha])) t hbefore).trans
            (le_release (hgaps arrival (by simp)) _)
      | inr hlast => exact hlast.le

/-- At `t` the last of the arrivals has kept all gaps, those since the start and
those behind each arrival. -/
def Due (start : R) (arrivals : List (Arrival R)) (t : R) : Prop :=
  start + (arrivals.map Arrival.gap).sum ≤ t ∧
    ∀ before arrival after, arrivals = before ++ arrival :: after →
      arrival.time + (after.map Arrival.gap).sum ≤ t

theorem lastRelease_le_iff {start t : R} {arrivals : List (Arrival R)} :
    lastRelease start arrivals ≤ t ↔ Due start arrivals t := by
  induction arrivals using List.reverseRecOn generalizing t with
  | nil => simp [lastRelease, Due]
  | append_singleton arrivals last ih =>
      rw [lastRelease_concat, release, max_le_iff, ← le_sub_iff_add_le, ih, Due, Due,
        List.map_append, List.sum_append, List.map_singleton, List.sum_singleton,
        le_sub_iff_add_le, add_assoc]
      constructor
      · rintro ⟨hlast, hstart, hsplits⟩
        refine ⟨hstart, fun before arrival after hsplit => ?_⟩
        rcases List.eq_nil_or_concat after with rfl | ⟨after, final, rfl⟩
        · obtain ⟨-, heq⟩ := List.append_inj' hsplit rfl
          obtain rfl : last = arrival := by simpa using heq
          simpa using hlast
        · rw [List.concat_eq_append] at hsplit ⊢
          rw [← List.cons_append, ← List.append_assoc] at hsplit
          obtain ⟨hbefore, heq⟩ := List.append_inj' hsplit rfl
          obtain rfl : last = final := by simpa using heq
          rw [List.map_append, List.sum_append, List.map_singleton, List.sum_singleton,
            ← add_assoc, ← le_sub_iff_add_le]
          exact hsplits before arrival after hbefore
      · rintro ⟨hstart, hsplits⟩
        refine ⟨?_, hstart, fun before arrival after hsplit => ?_⟩
        · simpa using hsplits arrivals last [] rfl
        · have hwhole := hsplits before arrival (after ++ [last]) (by simp [hsplit])
          rw [List.map_append, List.sum_append, List.map_singleton, List.sum_singleton,
            ← add_assoc] at hwhole
          exact le_sub_iff_add_le.mpr hwhole

omit [IsOrderedAddMonoid R] in
theorem getElem?_releases {k : ℕ} (hk : k < arrivals.length) :
    (releases start arrivals)[k]? = some (lastRelease start (arrivals.take (k + 1))) := by
  induction arrivals generalizing start k with
  | nil => simp at hk
  | cons arrival rest ih =>
      cases k with
      | zero => simp [releases, lastRelease]
      | succ k =>
          rw [releases, List.getElem?_cons_succ, ih (by simpa using hk), List.take_succ_cons]
          rfl

end PacketShaper
