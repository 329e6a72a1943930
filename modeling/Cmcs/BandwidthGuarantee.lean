import Cmcs.PortLedger
import Mathlib.Tactic

/-!
# Bandwidth guarantee of the two-phase scheduler

The credit of a VN never exceeds its unclaimed queued bytes by more than the
green bytes which the capacity check rejected.  Hence a Phase-2 decision, which
finds no non-empty VN with credit, sees a total credit of at most the rejected
bytes; after the last Phase-2 decision every selected byte is charged to a
credit, and the busy-period bound on the green arrivals limits the total.
-/

namespace Cmcs
namespace Port

variable {P : Type} [IngressPacket P] {k : ℕ} {p p' : Port P k} {e : Event P k}
variable {events : List (Event P k)} {L : ℕ}

open TransitionSystem

def greenPushed (e : Event P k) : ℤ := ∑ i, e.greenOffered i

def greenDropped (e : Event P k) : ℤ := ∑ i, e.greenRejected i

omit [IngressPacket P] in
def bytesSelected (e : Event P k) : ℤ := ∑ i, e.selectedBytes i

/-- In every contiguous segment of the run the green bytes pushed are at most
`B` plus the bytes selected. -/
def GreenWithinService (B : ℤ) (events : List (Event P k)) : Prop :=
  ∀ before segment after, events = before ++ segment ++ after →
    tally greenPushed segment ≤ B + tally bytesSelected segment

theorem greenWithinService_of_le {B : ℤ} (htotal : tally greenPushed events ≤ B) :
    GreenWithinService B events := by
  intro before segment after hsplit
  have hpushed : ∀ l : List (Event P k), 0 ≤ tally greenPushed l := fun l =>
    tally_nonneg _ _ fun e => Finset.sum_nonneg fun i _ => e.greenOffered_nonneg i
  have hselected : 0 ≤ tally bytesSelected segment :=
    tally_nonneg _ _ fun e => Finset.sum_nonneg fun i _ =>
      add_nonneg (e.greenCharge_nonneg i) (e.dwrrCharge_nonneg i)
  have hbefore := hpushed before
  have hafter := hpushed after
  rw [hsplit, tally_append, tally_append] at htotal
  omega

/-! ## What a selection needs -/

theorem greenCharge_cases (hwf : p.WellFormed) (hstep : Step p e p') (i : Fin k) :
    e.greenCharge i = 0 ∨
      0 < (p.vn i).greenCredit ∧ ∃ qe ∈ p.phys i, e.greenCharge i = qe.pktSize := by
  cases hstep with
  | @select sel lq' _ _ hselect =>
      have hspec := p.info.selectVn_selected hwf.nodup hselect
      simp only [Event.greenCharge, Selection.greenCharge]
      by_cases hsel : sel.phase = .green ∧ sel.vn = i
      · rcases hsel with ⟨hphase, hvn⟩
        subst i
        refine Or.inr ⟨hspec.green_credit hphase, sel.head, ?_, by simp [hphase]⟩
        exact List.mem_of_head? hspec.head_eq
      · exact Or.inl (if_neg hsel)
  | _ => exact Or.inl rfl

/-- Phase 2 runs only when no decision is pending and no non-empty VN has
credit. -/
theorem dwrrCharge_cases (hwf : p.WellFormed) (hstep : Step p e p') :
    (∀ i, e.dwrrCharge i = 0) ∨
      ((∀ i, e.greenCharge i = 0) ∧ (∀ i, e.greenOffered i = 0) ∧
        p.info.pendingVn = none ∧
        ∀ i, (p.vn i).size ≠ 0 → (p.vn i).greenCredit ≤ 0) := by
  cases hstep with
  | @select sel lq' hfree _ hselect =>
      have hspec := p.info.selectVn_selected hwf.nodup hselect
      cases hphase : sel.phase with
      | green =>
          refine Or.inl fun i => ?_
          simp [Event.dwrrCharge, Selection.dwrrCharge, hphase]
      | dwrr =>
          refine Or.inr ⟨fun i => ?_, fun _ => rfl, hfree, fun i hi => ?_⟩
          · simp [Event.greenCharge, Selection.greenCharge, hphase]
          · exact hspec.dwrr_credit hphase i (hwf.active i hi) hi
  | _ => exact Or.inl fun _ => rfl

/-! ## Lower bound -/

theorem greenCredit_lower_step (hwf : p.WellFormed) (hstep : Step p e p')
    (hphys : ∀ i, ∀ qe ∈ p.phys i, qe.pktSize ≤ L) {i : Fin k}
    (hlower : 1 - (L : ℤ) ≤ (p.vn i).greenCredit) :
    1 - (L : ℤ) ≤ (p'.vn i).greenCredit := by
  rw [greenCredit_step hwf hstep]
  have hoffered := e.greenOffered_nonneg i
  cases greenCharge_cases hwf hstep i with
  | inl hzero => omega
  | inr hcharge =>
      rcases hcharge with ⟨hpos, qe, hqe, heq⟩
      have hle := hphys i qe hqe
      omega

theorem greenCredit_lower_run (hwf : p.WellFormed) (hrun : Run Step p events p')
    (hsize : ∀ e ∈ events, e.SizeAtMost L)
    (hphys : ∀ i, ∀ qe ∈ p.phys i, qe.pktSize ≤ L)
    (hlower : ∀ i, 1 - (L : ℤ) ≤ (p.vn i).greenCredit) :
    ∀ i, 1 - (L : ℤ) ≤ (p'.vn i).greenCredit := by
  have hall : p'.WellFormed ∧ (∀ i, ∀ qe ∈ p'.phys i, qe.pktSize ≤ L) ∧
      ∀ i, 1 - (L : ℤ) ≤ (p'.vn i).greenCredit := by
    induction hrun with
    | nil => exact ⟨hwf, hphys, hlower⟩
    | snoc _ hstep ih =>
        rcases ih fun e he => hsize e (by simp [he]) with ⟨hs, hq, hc⟩
        exact ⟨hs.step hstep, phys_le_step hstep (hsize _ (by simp)) hq,
          fun i => greenCredit_lower_step hs hstep hq (hc i)⟩
  exact hall.2.2

/-! ## Upper bound -/

/-- Credit is backed by unclaimed bytes, up to what was rejected. -/
theorem greenCredit_le_unselected (hwf : p.WellFormed) (hrun : Run Step p events p')
    (hstart : ∀ i, (p.vn i).greenCredit ≤ 0) (i : Fin k) :
    (p'.vn i).greenCredit ≤ p'.unselectedBytes i + tally (Event.greenRejected i) events := by
  induction hrun with
  | nil =>
      have hunselected := p.unselectedBytes_nonneg i
      have hcredit := hstart i
      simp only [tally_nil]
      omega
  | @snoc events q q' e hbefore hstep ih =>
      have hq := hwf.run hbefore
      have hrejected : 0 ≤ tally (Event.greenRejected i) (events ++ [e]) :=
        tally_nonneg _ _ fun e => e.greenRejected_nonneg i
      have hunselected := q'.unselectedBytes_nonneg i
      rw [greenCredit_step hq hstep]
      cases dwrrCharge_cases hq hstep with
      | inl hgreen =>
          have hbytes := unselectedBytes_step hq hstep i
          have hoffered := e.greenOffered_le i
          rw [tally_append, tally_singleton]
          unfold Event.selectedBytes at hbytes
          rw [hgreen i] at hbytes
          omega
      | inr hdwrr =>
          rcases hdwrr with ⟨hcharge, hoffered, _, hcredit⟩
          rw [hcharge i, hoffered i]
          by_cases hempty : (q.vn i).size = 0
          · have hzero : q.unselectedBytes i = 0 := by
              have hnil : q.phys i = [] := by
                rw [← List.length_eq_zero_iff, ← hq.size_eq]
                exact hempty
              simp [unselectedBytes, queuedBytes, pendingBytes, hnil]
            rw [tally_append, tally_singleton] at hrejected ⊢
            have hnew := e.greenRejected_nonneg i
            omega
          · have hle := hcredit i hempty
            omega

/-- After the last Phase-2 decision the total credit moves with the green
bytes pushed and the bytes selected. -/
theorem exists_busy_period (hwf : p.WellFormed) (hrun : Run Step p events p')
    (hstart : ∀ i, (p.vn i).greenCredit ≤ 0) :
    ∃ before after, events = before ++ after ∧
      ∑ i, (p'.vn i).greenCredit ≤
        tally greenDropped before + (tally greenPushed after - tally bytesSelected after) := by
  induction hrun with
  | nil =>
      refine ⟨[], [], rfl, ?_⟩
      simpa using Finset.sum_nonpos fun i _ => hstart i
  | @snoc events q q' e hbefore hstep ih =>
      have hq := hwf.run hbefore
      have hsum : ∑ i, (q'.vn i).greenCredit = ∑ i, (q.vn i).greenCredit +
          (greenPushed e - ∑ i, e.greenCharge i) := by
        simp only [greenCredit_step hq hstep, Finset.sum_add_distrib,
          Finset.sum_sub_distrib, greenPushed]
      cases dwrrCharge_cases hq hstep with
      | inl hgreen =>
          rcases ih with ⟨before, after, hsplit, hle⟩
          refine ⟨before, after ++ [e], by rw [hsplit, List.append_assoc], ?_⟩
          have hselected : bytesSelected e = ∑ i, e.greenCharge i := by
            simp [bytesSelected, Event.selectedBytes, hgreen]
          simp only [tally_append, tally_singleton, hselected, hsum]
          omega
      | inr hdwrr =>
          rcases hdwrr with ⟨hcharge, hoffered, hfree, hcredit⟩
          refine ⟨events ++ [e], [], by simp, ?_⟩
          have hbound : ∀ i, (q.vn i).greenCredit ≤ tally (Event.greenRejected i) events := by
            intro i
            by_cases hempty : (q.vn i).size = 0
            · have hnil : q.phys i = [] := by
                rw [← List.length_eq_zero_iff, ← hq.size_eq]
                exact hempty
              have hback := greenCredit_le_unselected hwf hbefore hstart i
              simpa [unselectedBytes, queuedBytes, pendingBytes, hnil] using hback
            · exact (hcredit i hempty).trans
                (tally_nonneg _ _ fun e => e.greenRejected_nonneg i)
          have htotal : ∑ i, (q.vn i).greenCredit ≤ tally greenDropped events := by
            have hdropped : tally greenDropped events =
                ∑ i, tally (Event.greenRejected i) events := tally_sum _ _
            rw [hdropped]
            exact Finset.sum_le_sum fun i _ => hbound i
          have hdrop : 0 ≤ greenDropped e :=
            Finset.sum_nonneg fun i _ => e.greenRejected_nonneg i
          simp only [hsum, greenPushed, hcharge, hoffered, tally_append, tally_singleton,
            tally_nil, Finset.sum_const_zero]
          omega

theorem greenCredit_le (hwf : p.WellFormed) (hrun : Run Step p events p')
    (hstart : ∀ i, (p.vn i).greenCredit ≤ 0) {B : ℤ} (hB : GreenWithinService B events)
    (hlower : ∀ i, 1 - (L : ℤ) ≤ (p'.vn i).greenCredit) (i : Fin k) :
    (p'.vn i).greenCredit ≤ B + tally greenDropped events + ((k : ℤ) - 1) * (L - 1) := by
  rcases exists_busy_period hwf hrun hstart with ⟨before, after, hsplit, htotal⟩
  have hsegment := hB before after [] (by simpa using hsplit)
  have hdropped : tally greenDropped before ≤ tally greenDropped events := by
    have hrest : 0 ≤ tally greenDropped after :=
      tally_nonneg _ _ fun e => Finset.sum_nonneg fun i _ => e.greenRejected_nonneg i
    rw [hsplit, tally_append]
    omega
  have hothers : ((k : ℤ) - 1) * (1 - L) ≤
      ∑ j ∈ Finset.univ.erase i, (p'.vn j).greenCredit := by
    have hcard : ((Finset.univ.erase i).card : ℤ) = (k : ℤ) - 1 := by
      have hk := i.pos
      rw [Finset.card_erase_of_mem (Finset.mem_univ i), Finset.card_univ, Fintype.card_fin]
      omega
    calc
      ((k : ℤ) - 1) * (1 - L) = ∑ _j ∈ Finset.univ.erase i, (1 - (L : ℤ)) := by
        rw [Finset.sum_const, nsmul_eq_mul, hcard]
      _ ≤ ∑ j ∈ Finset.univ.erase i, (p'.vn j).greenCredit :=
        Finset.sum_le_sum fun j _ => hlower j
  have hsplitSum := Finset.add_sum_erase Finset.univ (fun j => (p'.vn j).greenCredit)
    (Finset.mem_univ i)
  linarith

/-- Bandwidth guarantee.  In every state of a run each credit lies between
`1 - L` and `B + D + (k - 1) (L - 1)`, where `D` counts the green bytes rejected
so far, and over every segment a VN is selected for its green bytes up to
`B + D + k (L - 1)`. -/
theorem bandwidth_guarantee {capacity : ℕ} {weights : Fin k → ℤ} {now : Ticks}
    (hweights : ∀ i, 0 < weights i)
    (hrun : Run Step (initial capacity weights now) events p)
    (hL : 1 ≤ L) (hsize : ∀ e ∈ events, e.SizeAtMost L)
    {B : ℤ} (hB : GreenWithinService B events) :
    (∀ before after q, events = before ++ after →
      Run Step (initial capacity weights now) before q → ∀ i,
        1 - (L : ℤ) ≤ (q.vn i).greenCredit ∧
        (q.vn i).greenCredit ≤
          B + tally greenDropped before + ((k : ℤ) - 1) * (L - 1)) ∧
    ∀ before segment after, events = before ++ segment ++ after → ∀ i,
      tally (Event.greenOffered i) segment - B - tally greenDropped (before ++ segment) -
          k * ((L : ℤ) - 1) ≤
        tally (Event.selectedBytes i) segment := by
  have hwf : (initial capacity weights now : Port P k).WellFormed :=
    wellFormed_initial capacity hweights now
  have hstart : ∀ i, ((initial capacity weights now : Port P k).vn i).greenCredit = 0 :=
    fun _ => rfl
  have hstates : ∀ before after q, events = before ++ after →
      Run Step (initial capacity weights now) before q → ∀ i,
        1 - (L : ℤ) ≤ (q.vn i).greenCredit ∧
        (q.vn i).greenCredit ≤
          B + tally greenDropped before + ((k : ℤ) - 1) * (L - 1) := by
    intro before after q hsplit hbefore i
    have hlower := greenCredit_lower_run (L := L) hwf hbefore
      (fun e he => hsize e (by simp [hsplit, he])) (fun i qe hqe => by simp [initial] at hqe)
      (fun i => by rw [hstart i]; omega)
    refine ⟨hlower i, ?_⟩
    apply greenCredit_le hwf hbefore (fun i => (hstart i).le) _ hlower
    intro first segment last heq
    exact hB first segment (last ++ after) (by rw [hsplit, heq]; simp)
  refine ⟨hstates, ?_⟩
  intro before segment after hsplit i
  rw [hsplit] at hrun
  rcases hrun.of_append with ⟨q', hboth, _⟩
  rcases hboth.of_append with ⟨q, hbefore, hsegment⟩
  have hfirst := (hstates before (segment ++ after) q (by simp [hsplit]) hbefore i).1
  have hlast := (hstates (before ++ segment) after q' hsplit hboth i).2
  have hcredit := greenCredit_run (hwf.run hbefore) hsegment i
  have hdwrr : 0 ≤ tally (Event.dwrrCharge i) segment :=
    tally_nonneg _ _ fun e => e.dwrrCharge_nonneg i
  have hselected : tally (Event.selectedBytes i) segment =
      tally (Event.greenCharge i) segment + tally (Event.dwrrCharge i) segment :=
    tally_add _ _ _
  have hbound : ((k : ℤ) - 1) * (L - 1) + (L - 1) = k * ((L : ℤ) - 1) := by ring
  linarith

def firstVn : Fin 2 := (Fin.last 0).castSucc

def secondVn : Fin 2 := Fin.last 1

/-- The second VN sends yellow and green packets while the first sends a green one. -/
def twoSenders : List (Event ℕ 2) :=
  [.push firstVn 0 (some 100) true, .push secondVn 1 (some 60) true,
    .push secondVn 0 (some 80) true,
    .select ⟨firstVn, .green, 0, [firstVn, secondVn], ⟨some 100, 0, 100⟩⟩,
    .release 5 firstVn ⟨some 100, 0, 100⟩,
    .select ⟨secondVn, .green, 0, [firstVn, secondVn], ⟨some 60, 1, 60⟩⟩]

/-- The yellow packet of the second VN spends the credit of its green one. -/
theorem bandwidth_guarantee_two_senders :
    ∃ p, Run Step (initial 64 (fun _ => 1) 0 : Port ℕ 2) twoSenders p ∧
      (∀ i, 1 - ((100 : ℕ) : ℤ) ≤ (p.vn i).greenCredit ∧
        (p.vn i).greenCredit ≤ 180 + 0 + ((2 : ℕ) - 1) * ((100 : ℕ) - 1)) ∧
      ∀ before segment after, twoSenders = before ++ segment ++ after → ∀ i,
        tally (Event.greenOffered i) segment - 180 - tally greenDropped (before ++ segment) -
            (2 : ℕ) * ((100 : ℕ) - 1) ≤ tally (Event.selectedBytes i) segment := by
  have hpushes := ((Run.single (Step.push (initial 64 (fun _ => 1) 0 : Port ℕ 2) firstVn 0
    (some 100))).snoc (Step.push _ secondVn 1 (some 60))).snoc (Step.push _ secondVn 0 (some 80))
  have hselect := hpushes.snoc (Step.select rfl (by decide) rfl)
  have hrelease := hselect.snoc (@Step.release _ _ _ _ 5 _ _ rfl rfl (by decide +kernel))
  have hrun := hrelease.snoc (Step.select rfl (by decide) rfl)
  refine ⟨_, hrun, ?_⟩
  have hsize : ∀ e ∈ twoSenders, e.SizeAtMost 100 := by
    simp [twoSenders, Event.SizeAtMost, ingressSize, IngressPacket.getIngressLength]
  have hB : GreenWithinService 180 twoSenders := greenWithinService_of_le (by decide)
  have hbound := bandwidth_guarantee (by decide) hrun (by decide) hsize hB
  exact ⟨hbound.1 _ [] _ rfl hrun, hbound.2⟩

end Port
end Cmcs
