import Cmcs.PortLedger
import Mathlib.Algebra.Order.Field.Rat
import Mathlib.Algebra.Order.AbsoluteValue.Basic
import Mathlib.Tactic

/-!
# Weighted fairness of the residual capacity

A VN which is backlogged since it joined the active set keeps its deficit
between `-L` and one quantum.  Two such VNs take part in the same replenishment
rounds, so their Phase-2 service, each divided by its weight, differs by a
constant.
-/

namespace Cmcs
namespace Port

variable {P : Type} [IngressPacket P] {k : ℕ} {p p' q : Port P k} {e : Event P k}
variable {events segment : List (Event P k)} {L : ℕ} {i j : Fin k}

open TransitionSystem

/-- A step in which VN `i` stays in the active set and, if the step calls
`select_vn`, is non-empty at the call. -/
def BackloggedStep (i : Fin k) (p : Port P k) (e : Event P k) (p' : Port P k) : Prop :=
  Step p e p' ∧ i ∈ p'.info.activeSet ∧
    ∀ sel, e = .select sel → i ∈ p.info.activeSet ∧ (p.vn i).size ≠ 0

/-- The run `events` from `start` to `p` ends with a stretch in which VN `i`
is backlogged, from the time it last joined the active set. -/
def BackloggedSinceJoin (start : Port P k) (i : Fin k) (events : List (Event P k))
    (p : Port P k) : Prop :=
  ∃ before after q, events = before ++ after ∧ Run Step start before q ∧
    i ∉ q.info.activeSet ∧ Run (BackloggedStep i) q after p

structure DeficitInRange (L : ℕ) (i : Fin k) (p : Port P k) : Prop where
  lower : -(L : ℤ) ≤ (p.vn i).weightedDeficit
  upper : (p.vn i).weightedDeficit ≤ (p.vn i).weight * quantum

theorem BackloggedStep.not_resets (hstep : BackloggedStep i p e p') :
    e.resets i = false := by
  rcases hstep with ⟨hstep, hactive, _⟩
  cases hstep with
  | sweep now =>
      simp only [Event.resets, List.contains_eq_mem, decide_eq_false_iff_not]
      intro hevicted
      simp only [Port.sweep, LogicalQueueInfo.sweep_eq, List.mem_filter] at hactive
      have hidle := (List.mem_filter.mp hevicted).2
      simp [hidle] at hactive
  | _ => rfl

theorem BackloggedStep.weightedDeficit_eq (hwf : p.WellFormed)
    (hstep : BackloggedStep i p e p') :
    (p'.vn i).weightedDeficit = (p.vn i).weightedDeficit +
      ((p.vn i).weight * quantum * e.rounds i - e.dwrrCharge i) := by
  rw [weightedDeficit_step hwf hstep.1, hstep.not_resets]
  simp

theorem DeficitInRange.step (hwf : p.WellFormed)
    (hphys : ∀ i, ∀ qe ∈ p.phys i, qe.pktSize ≤ L) (hstep : BackloggedStep i p e p')
    (hrange : DeficitInRange L i p) : DeficitInRange L i p' := by
  have hdeficit := hstep.weightedDeficit_eq hwf
  have hweight := weight_step hwf hstep.1 i
  rcases hrange with ⟨hlower, hupper⟩
  have hquantum : 0 < (p.vn i).weight * quantum :=
    Int.mul_pos (hwf.weight_pos i) (by decide)
  rcases hstep with ⟨hstep, _, hbacklog⟩
  cases e with
  | select sel =>
      rcases hstep.selectVn_eq with ⟨lq', hselect⟩
      have hspec := p.info.selectVn_selected hwf.nodup hselect
      rcases hbacklog sel rfl with ⟨hactive, hsize⟩
      have hrounds : (Event.select sel).rounds i = sel.rounds := by
        simp [Event.rounds, Selection.roundsOf, roundsFor, hspec.active_eq, hactive]
      have hcharge : (Event.select sel).dwrrCharge i = 0 ∨
          (Event.select sel).dwrrCharge i ≤ L ∧
          0 < (p.vn i).weightedDeficit + (p.vn i).weight * quantum * sel.rounds := by
        by_cases hsel : sel.phase = .dwrr ∧ sel.vn = i
        · have hhead := hphys sel.vn sel.head (List.mem_of_head? hspec.head_eq)
          refine Or.inr ⟨?_, ?_⟩
          · simp only [Event.dwrrCharge, Selection.dwrrCharge, if_pos hsel]
            exact_mod_cast hhead
          · have hpos := hspec.dwrr_deficit hsel.1
            rwa [hsel.2] at hpos
        · exact Or.inl (if_neg hsel)
      have hnonneg := (Event.select sel).dwrrCharge_nonneg i
      rw [hrounds] at hdeficit
      cases hcases : sel.rounds with
      | zero =>
          rw [hcases] at hdeficit hcharge
          simp only [Nat.cast_zero, mul_zero, zero_sub, add_zero] at hdeficit hcharge
          constructor
          · rw [hdeficit]
            omega
          · rw [hdeficit, hweight]
            omega
      | succ r =>
          -- before the last round no non-empty member had a positive deficit
          have hwaited := hspec.dwrr_waited r (by omega) i hactive hsize
          rw [hcases] at hdeficit hcharge
          push_cast at hdeficit hcharge
          have hgrow : 0 ≤ (p.vn i).weight * quantum * (r : ℤ) :=
            mul_nonneg hquantum.le (Int.natCast_nonneg r)
          rw [mul_add, mul_one] at hdeficit hcharge
          constructor
          · rw [hdeficit]
            omega
          · rw [hdeficit, hweight]
            have hwait : (p.vn i).weightedDeficit +
                (p.vn i).weight * quantum * (r : ℤ) ≤ 0 := hwaited
            omega
  | _ =>
      change (p'.vn i).weightedDeficit = _ + (_ * 0 - 0) at hdeficit
      rw [mul_zero, sub_zero, add_zero] at hdeficit
      constructor
      · rwa [hdeficit]
      · rwa [hdeficit, hweight]

structure BackloggedState (L : ℕ) (i : Fin k) (p : Port P k) : Prop where
  wellFormed : p.WellFormed
  phys_le : ∀ i, ∀ qe ∈ p.phys i, qe.pktSize ≤ L
  range : DeficitInRange L i p

theorem BackloggedState.run (hstate : BackloggedState L i p)
    (hsize : ∀ e ∈ events, e.SizeAtMost L) (hrun : Run (BackloggedStep i) p events p') :
    BackloggedState L i p' := by
  induction hrun with
  | nil => exact hstate
  | snoc _ hstep ih =>
      have hq := ih fun e he => hsize e (by simp [he])
      exact
        { wellFormed := hq.wellFormed.step hstep.1
          phys_le := phys_le_step hstep.1 (hsize _ (by simp)) hq.phys_le
          range := hq.range.step hq.wellFormed hq.phys_le hstep }

theorem BackloggedState.of_sinceJoin {capacity : ℕ} {weights : Fin k → ℤ} {now : Ticks}
    (hweights : ∀ i, 0 < weights i) (hsize : ∀ e ∈ events, e.SizeAtMost L)
    (hjoin : BackloggedSinceJoin (initial capacity weights now) i events p) :
    BackloggedState L i p ∧ (p.vn i).weight = weights i := by
  rcases hjoin with ⟨before, after, q, rfl, hbefore, hinactive, hafter⟩
  have hwf : (initial capacity weights now : Port P k).WellFormed :=
    wellFormed_initial capacity hweights now
  have hq := hwf.run hbefore
  have hphys : ∀ i, ∀ qe ∈ q.phys i, qe.pktSize ≤ L := by
    have hboth := hbefore.history (I := fun l s =>
      (∀ e ∈ l, e.SizeAtMost L) → ∀ i, ∀ qe ∈ s.phys i, qe.pktSize ≤ L)
      (fun l s e s' _ ih hstep hl =>
        phys_le_step hstep (hl e (by simp)) (ih fun e' he' => hl e' (by simp [he'])))
      (fun _ i qe hqe => by simp [initial] at hqe)
    exact hboth fun e he => hsize e (by simp [he])
  have hzero : (q.vn i).weightedDeficit = 0 := hq.inactive i hinactive
  have hstate : BackloggedState L i q :=
    { wellFormed := hq
      phys_le := hphys
      range := ⟨by rw [hzero]; omega, by
        rw [hzero]
        exact (Int.mul_pos (hq.weight_pos i) (by decide)).le⟩ }
  have hafterStep : Run Step q after p := hafter.mono fun _ _ _ _ h => h.1
  refine ⟨hstate.run (fun e he => hsize e (by simp [he])) hafter, ?_⟩
  rw [weight_run hq hafterStep, weight_run hwf hbefore]
  rfl

/-! ## Two backlogged VNs -/

theorem rounds_eq_of_backlogged (hwf : p.WellFormed) (hi : BackloggedStep i p e p')
    (hj : BackloggedStep j p e p') : e.rounds i = e.rounds j := by
  rcases hi with ⟨hstep, _, hi⟩
  rcases hj with ⟨_, _, hj⟩
  cases hstep with
  | @select sel lq' _ _ hselect =>
      have hspec := p.info.selectVn_selected hwf.nodup hselect
      simp [Event.rounds, Selection.roundsOf, roundsFor, hspec.active_eq, (hi sel rfl).1, (hj sel rfl).1]
  | _ => rfl

theorem weightedDeficit_run (hwf : p.WellFormed)
    (hrun : Run (BackloggedStep i) p events p') :
    (p'.vn i).weightedDeficit = (p.vn i).weightedDeficit +
      ((p.vn i).weight * quantum * tally (Event.rounds i) events -
        tally (Event.dwrrCharge i) events) := by
  induction hrun with
  | nil => simp
  | @snoc events q q' e hbefore hstep ih =>
      have hplain : Run Step p events q := hbefore.mono fun _ _ _ _ h => h.1
      have hq := hwf.run hplain
      rw [hstep.weightedDeficit_eq hq, ih, weight_run hwf hplain]
      simp only [tally_append, tally_singleton]
      ring

/-- The service of a backlogged VN is its weight times `Q` times the number of
rounds, up to one quantum and one packet. -/
theorem service_near_rounds {w : ℤ} (hw : 0 < w) {d d' s r : ℤ}
    (hledger : d' = d + (w * quantum * r - s))
    (hd : -(L : ℤ) ≤ d ∧ d ≤ w * quantum) (hd' : -(L : ℤ) ≤ d' ∧ d' ≤ w * quantum) :
    |(s : ℚ) / w - quantum * r| ≤ quantum + L / w := by
  have hwq : (0 : ℚ) < w := by exact_mod_cast hw
  have hservice : (s : ℚ) / w - quantum * r = ((d : ℚ) - d') / w := by
    have hs : (s : ℚ) = d - d' + w * quantum * r := by
      have hint : s = d - d' + w * quantum * r := by omega
      exact_mod_cast hint
    rw [hs]
    field_simp
    ring
  have hspread : |(d : ℚ) - d'| ≤ w * quantum + L := by
    have hint : |d - d'| ≤ w * quantum + L := abs_le.mpr ⟨by omega, by omega⟩
    exact_mod_cast hint
  rw [hservice, abs_div, abs_of_pos hwq, div_le_iff₀ hwq, add_mul, div_mul_cancel₀ _ hwq.ne']
  linarith

/-- Weighted fairness.  Over a segment in which `i` and `j` are backlogged since
they last joined the active set, the bytes which Phase 2 charged to them, divided
by their w, differ by at most `2 Q + L / w_i + L / w_j`. -/
theorem weighted_fairness {capacity : ℕ} {w : Fin k → ℤ} {now : Ticks}
    (hweights : ∀ i, 0 < w i) {before : List (Event P k)}
    (hsize : ∀ e ∈ before ++ segment, e.SizeAtMost L)
    (hi : BackloggedSinceJoin (initial capacity w now) i before q)
    (hj : BackloggedSinceJoin (initial capacity w now) j before q)
    (hsegment : Run (fun s e s' => BackloggedStep i s e s' ∧ BackloggedStep j s e s')
      q segment p) :
    |(tally (Event.dwrrCharge i) segment : ℚ) / w i -
        tally (Event.dwrrCharge j) segment / w j| ≤
      2 * quantum + L / w i + L / w j := by
  have hbefore : ∀ e ∈ before, e.SizeAtMost L := fun e he => hsize e (by simp [he])
  have hwithin : ∀ e ∈ segment, e.SizeAtMost L := fun e he => hsize e (by simp [he])
  rcases BackloggedState.of_sinceJoin hweights hbefore hi with ⟨hqi, hwi⟩
  rcases BackloggedState.of_sinceJoin hweights hbefore hj with ⟨hqj, hwj⟩
  have hruni : Run (BackloggedStep i) q segment p := hsegment.mono fun _ _ _ _ h => h.1
  have hrunj : Run (BackloggedStep j) q segment p := hsegment.mono fun _ _ _ _ h => h.2
  have hpi := hqi.run hwithin hruni
  have hpj := hqj.run hwithin hrunj
  have hrounds : tally (Event.rounds i) segment = tally (Event.rounds j) segment := by
    have hq := hqi.wellFormed
    clear hpi hpj hruni hrunj hwithin hsize
    induction hsegment with
    | nil => rfl
    | @snoc events s s' e hrun hstep ih =>
        have hs := hq.run (hrun.mono fun _ _ _ _ h => h.1.1)
        simp only [tally_append, tally_singleton, ih,
          rounds_eq_of_backlogged hs hstep.1 hstep.2]
  have hstep : Run Step q segment p := hruni.mono fun _ _ _ _ h => h.1
  have hsi := service_near_rounds (hweights i)
    (hwi ▸ weightedDeficit_run hqi.wellFormed hruni)
    ⟨hqi.range.lower, hwi ▸ hqi.range.upper⟩
    ⟨hpi.range.lower, by
      have hupper := hpi.range.upper
      rwa [weight_run hqi.wellFormed hstep, hwi] at hupper⟩
  have hsj := service_near_rounds (hweights j)
    (hwj ▸ weightedDeficit_run hqj.wellFormed hrunj)
    ⟨hqj.range.lower, hwj ▸ hqj.range.upper⟩
    ⟨hpj.range.lower, by
      have hupper := hpj.range.upper
      rwa [weight_run hqj.wellFormed hstep, hwj] at hupper⟩
  rw [hrounds] at hsi
  have hi' := abs_le.mp hsi
  have hj' := abs_le.mp hsj
  apply abs_le.mpr
  constructor <;> linarith [hi'.1, hi'.2, hj'.1, hj'.2]

theorem weighted_fairness_one_decision :
    |(tally (Event.dwrrCharge (P := ℕ) (0 : Fin 2))
        [.select ⟨0, .dwrr, 1, [0, 1], ⟨some 100, 1, 100⟩⟩] : ℚ) / (1 : ℤ) -
        tally (Event.dwrrCharge (P := ℕ) (1 : Fin 2))
          [.select ⟨0, .dwrr, 1, [0, 1], ⟨some 100, 1, 100⟩⟩] / (1 : ℤ)| ≤
      2 * quantum + (100 : ℕ) / (1 : ℤ) + (100 : ℕ) / (1 : ℤ) := by
  have hfirst : Step (initial 64 (fun _ => 1) 0 : Port ℕ 2) (.push 0 1 (some 100) true)
      ((initial 64 (fun _ => 1) 0 : Port ℕ 2).push 0 1 (some 100)) := Step.push _ 0 1 _
  have hsecond : Step ((initial 64 (fun _ => 1) 0 : Port ℕ 2).push 0 1 (some 100))
      (.push 1 1 (some 100) true)
      (((initial 64 (fun _ => 1) 0 : Port ℕ 2).push 0 1 (some 100)).push 1 1 (some 100)) :=
    Step.push _ 1 1 _
  have hselect := Step.select (p := ((initial 64 (fun _ => 1) 0 : Port ℕ 2).push 0 1
    (some 100)).push 1 1 (some 100)) rfl (by decide) rfl
  have hnopush : ∀ {v c item a} {sel : Selection ℕ 2},
      Event.push v c item a = .select sel → False := by simp
  have hzero : BackloggedSinceJoin (initial 64 (fun _ => 1) 0 : Port ℕ 2) 0
      [.push 0 1 (some 100) true, .push 1 1 (some 100) true] _ :=
    ⟨[], _, _, rfl, Run.nil, by decide,
      Run.snoc (Run.single ⟨hfirst, by decide, fun _ h => (hnopush h).elim⟩)
        ⟨hsecond, by decide, fun _ h => (hnopush h).elim⟩⟩
  have hone : BackloggedSinceJoin (initial 64 (fun _ => 1) 0 : Port ℕ 2) 1
      [.push 0 1 (some 100) true, .push 1 1 (some 100) true] _ :=
    ⟨[.push 0 1 (some 100) true], _, _, rfl, Run.single hfirst, by decide,
      Run.single ⟨hsecond, by decide, fun _ h => (hnopush h).elim⟩⟩
  refine weighted_fairness (L := 100) (w := fun _ => 1) (by decide) ?_ hzero hone
    (Run.single ⟨⟨hselect, by decide, fun _ _ => by decide⟩,
      ⟨hselect, by decide, fun _ _ => by decide⟩⟩)
  simp [Event.SizeAtMost, ingressSize, IngressPacket.getIngressLength]

end Port
end Cmcs
