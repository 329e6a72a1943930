import Cmcs.PhaseCover
import Mathlib.Tactic

/-!
# The names of phases

A name is built from truncated boundaries, so short phases may share one.  A phase
which is not idle lasts as long as both margins and the minimum analysis window
together, and its name tells it from all others of this kind.
-/

namespace Cmcs

namespace RunTest

open Text TimePartition

theorem truncated_lt_truncated {x y : ℚ} (hxy : x + 2 ≤ y) : truncated x < truncated y := by
  have hx := (abs_lt.mp (abs_sub_truncated_lt x)).1
  have hy := (abs_lt.mp (abs_sub_truncated_lt y)).2
  have hcast : (truncated x : ℚ) < truncated y := by linarith
  exact_mod_cast hcast

theorem phaseName_eq (tS tE : ℚ) :
    phaseName tS tE = "Phase_".toList ++
      (ofInt (truncated tS) ++ 's' :: '-' :: (ofInt (truncated tE) ++ ['s'])) := by
  have hdash : "s-".toList = ['s', '-'] := by decide
  have hend : "s".toList = ['s'] := by decide
  unfold phaseName
  rw [hdash, hend]
  simp only [List.append_assoc, List.cons_append, List.nil_append]

theorem start_of_phaseName_eq {tS tE tS' tE' : ℚ} (heq : phaseName tS tE = phaseName tS' tE') :
    truncated tS = truncated tS' := by
  have hseparator : ∀ z : ℤ, 's' ∉ ofInt z := by
    intro z hmem
    cases mem_ofInt hmem with
    | inl hminus => exact absurd hminus (by decide)
    | inr hdigit => exact absurd hdigit (by decide)
  rw [phaseName_eq, phaseName_eq, List.append_cancel_left_eq] at heq
  exact ofInt_injective (append_cons_inj (hseparator _) (hseparator _) heq).1

section Phases

variable {vns : Vns} {phases : List Phase}

theorem name_of_mem (hphases : vns.derivePhases = some phases) {ph : Phase} (hph : ph ∈ phases) :
    ph.name = phaseName ph.start ph.stop := by
  obtain ⟨table, -, rfl⟩ := Option.map_eq_some_iff.mp hphases
  obtain ⟨p, -, rfl⟩ := List.mem_map.mp hph
  rfl

theorem pairwise_phases (hphases : vns.derivePhases = some phases) :
    phases.Pairwise fun ph ph' => ph.stop ≤ ph'.start := by
  obtain ⟨table, -, rfl⟩ := Option.map_eq_some_iff.mp hphases
  rw [List.pairwise_map]
  exact pairwise_adjacent (sorted_boundaries table)

theorem window_le (hwindows : validatePhases phases = none) {ph : Phase} (hph : ph ∈ phases)
    (hactive : ¬ph.isIdle = true) :
    minAnalysisWindow + trafficWarmupSkip + trafficCooldownSkip ≤ ph.stop - ph.start := by
  have hcheck := List.findSome?_eq_none_iff.mp hwindows ph hph
  rw [Phase.checkWindow, if_neg hactive] at hcheck
  by_contra hshort
  rw [if_pos (by linarith)] at hcheck
  exact Option.some_ne_none _ hcheck

theorem pairwise_names (hphases : vns.derivePhases = some phases)
    (hwindows : validatePhases phases = none) :
    phases.Pairwise fun ph ph' =>
      ¬ph.isIdle = true → ¬ph'.isIdle = true → ph.name ≠ ph'.name := by
  refine (pairwise_phases hphases).imp_of_mem fun {ph ph'} hph hph' hle hactive _ heq => ?_
  rw [name_of_mem hphases hph, name_of_mem hphases hph'] at heq
  have hlong := window_le hwindows hph hactive
  norm_num [minAnalysisWindow, trafficWarmupSkip, trafficCooldownSkip] at hlong
  have hgap : ph.start + 2 ≤ ph'.start := by linarith
  exact (truncated_lt_truncated hgap).ne (start_of_phaseName_eq heq)

end Phases

end RunTest

end Cmcs
