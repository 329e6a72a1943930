import Cmcs.BacklogService
import Mathlib.Tactic

/-!
# Bandwidth guarantee in time

The bucket of a logical queue bounds how far the bytes selected can fall behind
the green bytes: either the queue has been empty, and then nothing is left of
what came before, or it has been busy since, and then it was served at the
configured rate.  If the green packets of all VNs together conform to a rate
which the queue is served at, every VN gets the bandwidth of its green packets.
-/

namespace Cmcs

open TransitionSystem

namespace Port

variable {P : Type} [IngressPacket P] {k : ℕ} {p q start : Port P k}
variable {events segment : List (TimedEvent P k)} {r delay sigma rho : ℚ} {L : ℕ} {B : ℤ}

/-- In every contiguous segment the green bytes pushed are at most `B` plus the
bytes selected and the green bytes rejected. -/
def GreenServed (B : ℤ) (events : List (Event P k)) : Prop :=
  ∀ before segment after, events = before ++ segment ++ after →
    tally greenPushed segment ≤ B + tally bytesSelected segment + tally greenDropped segment

/-- The green bits pushed in a segment are at most a burst plus a rate times its
length in seconds. -/
def GreenCurve (sigma rho : ℚ) (events : List (TimedEvent P k)) : Prop :=
  ∀ before segment after, events = before ++ segment ++ after →
    ∀ a ∈ segment.head?, ∀ z ∈ segment.getLast?,
      8 * (tally greenPushed (segment.map Prod.snd) : ℚ) ≤ sigma + rho * seconds (z.1 - a.1)

/-! ## Segments which end empty -/

theorem unselectedBytes_run {labels : List (Event P k)} (hwf : p.WellFormed)
    (hrun : Run Step p labels q) (i : Fin k) :
    q.unselectedBytes i = p.unselectedBytes i +
      (tally (Event.acceptedBytes i) labels - tally (Event.selectedBytes i) labels) := by
  have hstep : ∀ (s : Port P k) (e : Event P k) (s' : Port P k), s.WellFormed ∧ Step s e s' →
      s'.unselectedBytes i = s.unselectedBytes i + (e.acceptedBytes i - e.selectedBytes i) :=
    fun _ _ _ h => unselectedBytes_step h.1 h.2 i
  have hsum := (hrun.strengthen (fun _ _ _ hs hst => WellFormed.step hs hst) hwf).account hstep
  rw [hsum, ← tally_sub]
  rfl

theorem greenPushed_le_of_empty {labels : List (Event P k)} (hwf : p.WellFormed)
    (hrun : Run Step p labels q) (hempty : labels = [] ∨ q.info.size = 0) :
    tally greenPushed labels ≤ tally bytesSelected labels + tally greenDropped labels := by
  cases hempty with
  | inl hnil => simp [hnil]
  | inr hsize =>
      have hqwf := hwf.run hrun
      unfold greenPushed bytesSelected greenDropped
      rw [tally_sum, tally_sum, tally_sum, ← Finset.sum_add_distrib]
      refine Finset.sum_le_sum fun i _ => ?_
      have hzero : q.unselectedBytes i = 0 := by
        have hi : (q.info.vnQueues i).size = 0 := by
          have hle := Finset.single_le_sum (f := fun j => (q.info.vnQueues j).size)
            (fun _ _ => Nat.zero_le _) (Finset.mem_univ i)
          rw [← hqwf.total, hsize] at hle
          exact Nat.le_zero.mp hle
        have hnil : q.phys i = [] := by
          rw [← List.length_eq_zero_iff, ← hqwf.size_eq]
          exact hi
        simp [unselectedBytes, queuedBytes, pendingBytes, hnil]
      have hrun' := unselectedBytes_run hwf hrun i
      have hstart := p.unselectedBytes_nonneg i
      have hoffered : tally (Event.greenOffered i) labels ≤
          tally (Event.acceptedBytes i) labels + tally (Event.greenRejected i) labels := by
        rw [← tally_add]
        exact List.sum_le_sum fun e _ => e.greenOffered_le i
      omega

/-- The last state of a run without packets splits it: behind it the queue is
busy. -/
theorem exists_busy_suffix (hrun : Run TimedStep p segment q)
    (hrate : ∀ pre post q', segment = pre ++ post → Run TimedStep p pre q' →
      q'.info.size ≠ 0 → q'.info.dequeueRateBps = r) :
    ∃ first second q', segment = first ++ second ∧ Run TimedStep p first q' ∧
      (first = [] ∨ q'.info.size = 0) ∧ Run (BusyStep r) q' second q := by
  induction hrun with
  | nil => exact ⟨[], [], p, rfl, Run.nil, Or.inl rfl, Run.nil⟩
  | @snoc segment p₁ p₂ x hbefore hstep ih =>
      by_cases hsize : p₂.info.size = 0
      · exact ⟨segment ++ [x], [], p₂, by simp, Run.snoc hbefore hstep, Or.inr hsize, Run.nil⟩
      · obtain ⟨first, second, q', rfl, hfirst, hempty, hbusy⟩ := ih fun pre post q' hsplit =>
          hrate pre (post ++ [x]) q' (by simp [hsplit])
        refine ⟨first, second ++ [x], q', by simp, hfirst, hempty, Run.snoc hbusy ⟨hstep, hsize, ?_⟩⟩
        exact hrate _ [] p₂ (by simp) (Run.snoc hbefore hstep) hsize

/-! ## Segments which stay busy -/

omit [IngressPacket P] in
theorem pendingBytes_nonneg (p : Port P k) (i : Fin k) : 0 ≤ p.pendingBytes i := by
  unfold pendingBytes
  split
  · cases (p.phys i).head? with
    | none => exact le_rfl
    | some qe => exact Int.natCast_nonneg _
  · exact le_rfl

omit [IngressPacket P] in
theorem sum_pendingBytes_le (hp : p.Moderate L) : ∑ i, p.pendingBytes i ≤ L := by
  cases hpending : p.info.pendingVn with
  | none =>
      refine (Finset.sum_nonpos fun i _ => ?_).trans (Int.natCast_nonneg L)
      simp [pendingBytes, hpending]
  | some v =>
      have hothers : ∀ i ∈ Finset.univ, i ≠ v → p.pendingBytes i = 0 := by
        intro i _ hi
        simp [pendingBytes, hpending, Ne.symm hi]
      rw [Finset.sum_eq_single v hothers (by simp)]
      unfold pendingBytes
      rw [if_pos hpending]
      cases hhead : (p.phys v).head? with
      | none => exact Int.natCast_nonneg L
      | some qe =>
          have hle := hp.packets v qe (List.mem_of_head? hhead)
          simpa using hle

theorem bytesReleased_le {labels : List (Event P k)} (hp : p.Moderate L)
    (hrun : Run Step p labels q) :
    tally bytesReleased labels ≤ tally bytesSelected labels + L := by
  have hsum := sum_pendingBytes_le hp
  have hlast : 0 ≤ ∑ i, q.pendingBytes i := Finset.sum_nonneg fun i _ => q.pendingBytes_nonneg i
  have hrun' : ∑ i, q.pendingBytes i = ∑ i, p.pendingBytes i +
      (tally bytesSelected labels - tally bytesReleased labels) := by
    unfold bytesSelected bytesReleased
    rw [tally_sum, tally_sum, ← Finset.sum_sub_distrib, ← Finset.sum_add_distrib]
    exact Finset.sum_congr rfl fun i _ => pendingBytes_run hp.wellFormed hrun i
  omega

omit [IngressPacket P] in
theorem bytesSelected_nonneg (e : Event P k) : 0 ≤ bytesSelected e :=
  Finset.sum_nonneg fun i _ => add_nonneg (e.greenCharge_nonneg i) (e.dwrrCharge_nonneg i)

theorem greenDropped_nonneg (e : Event P k) : 0 ≤ greenDropped e :=
  Finset.sum_nonneg fun i _ => e.greenRejected_nonneg i

/-- While the queue holds packets its rate is `r`: it is never set to another one,
and if it is created with another one, setting it comes first. -/
structure FixedRate (r : ℚ) (start : Port P k) (events : List (TimedEvent P k)) : Prop where
  set : ∀ x ∈ events, ∀ bps : ℕ, x.2 = .setRate bps → (bps : ℚ) = r
  created : start.info.dequeueRateBps = r ∨
    start.info.size = 0 ∧ ∀ x ∈ events.head?, ∃ bps, x.2 = .setRate bps

theorem FixedRate.rate (hfixed : FixedRate r start events) (hwf : start.WellFormed)
    {before after : List (TimedEvent P k)} (hsplit : events = before ++ after)
    (hrun : Run TimedStep start before p) (hsize : p.info.size ≠ 0) :
    p.info.dequeueRateBps = r := by
  have hall : p.info.dequeueRateBps = r ∨ before = [] ∧ start.info.size = 0 := by
    clear hsize
    subst events
    induction hrun generalizing after with
    | nil => exact hfixed.created.imp id fun h => ⟨rfl, h.1⟩
    | @snoc before p₁ p₂ x hbefore hstep ih =>
        have hkeeps := (bucket_step (wellFormed_timed hwf hbefore) hstep).2.2
        have hmem : x ∈ before ++ [x] ++ after := by simp
        by_cases hset : ∃ bps, x.2 = .setRate bps
        · obtain ⟨bps, hx⟩ := hset
          unfold TimedStep at hstep
          rw [hx] at hstep
          cases hstep with
          | setRate => exact Or.inl (hfixed.set x hmem bps hx)
        · have hkeep : x.2.KeepsRate := by
            cases hx : x.2 with
            | setRate bps => exact absurd ⟨bps, hx⟩ hset
            | _ => trivial
          rw [hkeeps hkeep]
          rcases ih (by simpa using hfixed) with hrate | ⟨rfl, -⟩
          · exact Or.inl hrate
          · cases hfixed.created with
            | inl hrate =>
                obtain rfl := hbefore.eq_of_nil
                exact Or.inl hrate
            | inr hhead => exact absurd (hhead.2 x rfl) hset
  rcases hall with hrate | ⟨rfl, hempty⟩
  · exact hrate
  · obtain rfl := hrun.eq_of_nil
    exact absurd hempty hsize

/-- What a queue is assumed to go through: its packets, the clock, its rate and
the attention of its worker. -/
structure Conditions (L : ℕ) (r delay : ℚ) (start : Port P k) (events : List (TimedEvent P k)) :
    Prop where
  moderate : start.Moderate L
  rate_nonneg : 0 ≤ r
  delay_nonneg : 0 ≤ delay
  stamped : Stamped start events
  attended : Attended delay start events
  sizes : ∀ x ∈ events, x.2.SizeAtMost L
  fixed : FixedRate r start events

/-- Attendance and the arrival curve of the green packets bound how far the
service falls behind. -/
theorem greenServed_of_attended (hcond : Conditions L r delay start events)
    (hrun : Run TimedStep start events p) (hcurve : GreenCurve sigma rho events)
    (hsigma : 0 ≤ sigma) (hrho : rho ≤ r)
    (hB : sigma + 2 * (r * delay) + start.info.tau + 16 * L ≤ 8 * B) :
    GreenServed B (events.map Prod.snd) := by
  intro before segment after hsplit
  obtain ⟨front, third, rfl, hfront, rfl⟩ := List.map_eq_append_iff.mp hsplit
  obtain ⟨first, second, rfl, rfl, rfl⟩ := List.map_eq_append_iff.mp hfront
  obtain ⟨q₁, hrun₁, hrun₂⟩ := hrun.of_append
  obtain ⟨q₀, hbefore, hsegment⟩ := hrun₁.of_append
  have hq₀ := (hcond.moderate.run hbefore fun x hx => hcond.sizes x (by simp [hx])).1
  obtain ⟨empty, busy, q', rfl, hempty, hcases, hbusy⟩ := exists_busy_suffix hsegment
    fun pre post q' hsplit hpre => hcond.fixed.rate hcond.moderate.wellFormed
      (show _ = (first ++ pre) ++ (post ++ third) by rw [hsplit]; simp) (hbefore.append hpre)
  have hpushed := greenPushed_le_of_empty hq₀.wellFormed (run_of_timed hempty)
    (hcases.imp_left fun hnil => by simp [hnil])
  have hdropped := tally_nonneg greenDropped (busy.map Prod.snd) greenDropped_nonneg
  have hselected := tally_nonneg bytesSelected (busy.map Prod.snd) bytesSelected_nonneg
  have hL : (0 : ℚ) ≤ L := Nat.cast_nonneg L
  have hrdelay := mul_nonneg hcond.rate_nonneg hcond.delay_nonneg
  have htau := hcond.moderate.tau_nonneg
  rw [List.map_append, tally_append, tally_append, tally_append]
  cases busy with
  | nil =>
      have hB' : (0 : ℚ) ≤ B := by linarith
      have hB'' : 0 ≤ B := by exact_mod_cast hB'
      simp only [List.map_nil, tally_nil]
      omega
  | cons x rest =>
      obtain ⟨q₂, hstep, hrest⟩ := hbusy.of_cons
      have hx : Run TimedStep start ((first ++ empty) ++ [x]) q₂ :=
        Run.snoc (hbefore.append hempty) hstep.1
      have hassoc : first ++ (empty ++ x :: rest) ++ third =
          (first ++ empty) ++ x :: (rest ++ third) := by simp
      obtain ⟨z, hz⟩ : ∃ z, (x :: rest).getLast? = some z :=
        ⟨_, List.getLast?_eq_some_getLast (List.cons_ne_nil x rest)⟩
      have hservice := backlog_service hcond.moderate hcond.rate_nonneg hcond.delay_nonneg
        (hassoc ▸ hcond.stamped) (hassoc ▸ hcond.attended) (hassoc ▸ hcond.sizes) hx hstep.2 hrest
        z hz
      have hgreen := hcurve (first ++ empty) (x :: rest) third (by simp) x rfl z hz
      have hcreated : (0 : ℚ) ≤ seconds (z.1 - x.1) := by
        have hsorted := (List.pairwise_append.mp (hassoc ▸ hcond.stamped).sorted).2.1
        have hle : x.1 ≤ z.1 := by
          rcases List.mem_cons.mp (List.mem_of_getLast? hz) with rfl | hmem
          · exact le_rfl
          · exact (List.pairwise_cons.mp hsorted).1 z (by simp [hmem])
        rw [seconds_sub]
        exact sub_nonneg.mpr (seconds_mono hle)
      have hscale := mul_le_mul_of_nonneg_right hrho hcreated
      have hq₂ := (hcond.moderate.run hx fun y hy => hcond.sizes y (by
        rw [hassoc]
        simp only [List.mem_append, List.mem_cons, List.not_mem_nil, or_false] at hy ⊢
        tauto)).1
      have hreleased : (tally bytesReleased (rest.map Prod.snd) : ℚ) ≤
          tally bytesSelected (rest.map Prod.snd) + L := by
        exact_mod_cast bytesReleased_le hq₂ (run_of_timed (run_of_busy hrest))
      have hfirst := bytesSelected_nonneg x.2
      have htotal : (tally greenPushed ((x :: rest).map Prod.snd) : ℚ) ≤
          B + tally bytesSelected (rest.map Prod.snd) := by linarith
      have htotal' : tally greenPushed ((x :: rest).map Prod.snd) ≤
          B + tally bytesSelected (rest.map Prod.snd) := by exact_mod_cast htotal
      have hcons : tally bytesSelected ((x :: rest).map Prod.snd) =
          bytesSelected x.2 + tally bytesSelected (rest.map Prod.snd) := by
        simp [tally]
      omega

/-! ## The guarantee -/

theorem greenCredit_le_of_served {labels : List (Event P k)} (hwf : p.WellFormed)
    (hrun : Run Step p labels q) (hstart : ∀ i, (p.vn i).greenCredit ≤ 0)
    (hB : GreenServed B labels) (hlower : ∀ i, 1 - (L : ℤ) ≤ (q.vn i).greenCredit) (i : Fin k) :
    (q.vn i).greenCredit ≤ B + tally greenDropped labels + ((k : ℤ) - 1) * (L - 1) := by
  obtain ⟨before, after, hsplit, htotal⟩ := exists_busy_period hwf hrun hstart
  have hserved := hB before after [] (by simpa using hsplit)
  have hall : tally greenDropped labels =
      tally greenDropped before + tally greenDropped after := by rw [hsplit, tally_append]
  have hothers : ((k : ℤ) - 1) * (1 - L) ≤
      ∑ j ∈ Finset.univ.erase i, (q.vn j).greenCredit := by
    have hcard : ((Finset.univ.erase i).card : ℤ) = (k : ℤ) - 1 := by
      have hk := i.pos
      rw [Finset.card_erase_of_mem (Finset.mem_univ i), Finset.card_univ, Fintype.card_fin]
      omega
    rw [← hcard, ← nsmul_eq_mul]
    exact Finset.card_nsmul_le_sum _ _ _ fun j _ => hlower j
  have hsum := Finset.add_sum_erase Finset.univ (fun j => (q.vn j).greenCredit)
    (Finset.mem_univ i)
  linarith

/-- Over every segment a VN is selected for its green bytes up to
`B + D + k (L - 1)`, where `D` counts the green bytes rejected so far. -/
theorem selectedBytes_in_time (hcond : Conditions L r delay start events)
    (hrun : Run TimedStep start events p) (hcurve : GreenCurve sigma rho events)
    (hsigma : 0 ≤ sigma) (hrho : rho ≤ r)
    (hB : sigma + 2 * (r * delay) + start.info.tau + 16 * L ≤ 8 * B) (hL : 1 ≤ L)
    (hcredit : ∀ i, (start.vn i).greenCredit = 0) {before segment after : List (TimedEvent P k)}
    (hsplit : events = before ++ segment ++ after) (i : Fin k) :
    tally (Event.greenOffered i) (segment.map Prod.snd) - B -
        tally greenDropped ((before ++ segment).map Prod.snd) - k * ((L : ℤ) - 1) ≤
      tally (Event.selectedBytes i) (segment.map Prod.snd) := by
  have hserved := greenServed_of_attended hcond hrun hcurve hsigma hrho hB
  have hwf := hcond.moderate.wellFormed
  rw [hsplit] at hrun
  obtain ⟨q₁, hboth, -⟩ := hrun.of_append
  obtain ⟨q₀, hbefore, hsegment⟩ := hboth.of_append
  have hlower : ∀ (front : List (TimedEvent P k)) (q' : Port P k), front ⊆ events →
      Run TimedStep start front q' → ∀ j, 1 - (L : ℤ) ≤ (q'.vn j).greenCredit := by
    intro front q' hsub hfront
    refine greenCredit_lower_run hwf (run_of_timed hfront) (fun e he => ?_)
      hcond.moderate.packets (fun j => by rw [hcredit j]; omega)
    obtain ⟨x, hx, rfl⟩ := List.mem_map.mp he
    exact hcond.sizes x (hsub hx)
  have hfirst := hlower before q₀ (by simp [hsplit]) hbefore i
  have hservedSoFar : GreenServed B ((before ++ segment).map Prod.snd) := by
    intro front middle back heq
    refine hserved front middle (back ++ after.map Prod.snd) ?_
    rw [hsplit, List.map_append, heq, List.append_assoc]
  have hlast := greenCredit_le_of_served hwf (run_of_timed hboth) (fun j => (hcredit j).le)
    hservedSoFar (hlower (before ++ segment) q₁ (by simp [hsplit]) hboth) i
  have hledger := greenCredit_run (wellFormed_timed hwf hbefore) (run_of_timed hsegment) i
  have hdwrr : 0 ≤ tally (Event.dwrrCharge i) (segment.map Prod.snd) :=
    tally_nonneg _ _ fun e => e.dwrrCharge_nonneg i
  have hselected : tally (Event.selectedBytes i) (segment.map Prod.snd) =
      tally (Event.greenCharge i) (segment.map Prod.snd) +
        tally (Event.dwrrCharge i) (segment.map Prod.snd) := tally_add _ _ _
  have hbound : ((k : ℤ) - 1) * (L - 1) + (L - 1) = k * ((L : ℤ) - 1) := by ring
  linarith

/-- The same for the packets which leave: all but the last one selected. -/
theorem releasedBytes_in_time (hcond : Conditions L r delay start events)
    (hrun : Run TimedStep start events p) (hcurve : GreenCurve sigma rho events)
    (hsigma : 0 ≤ sigma) (hrho : rho ≤ r)
    (hB : sigma + 2 * (r * delay) + start.info.tau + 16 * L ≤ 8 * B) (hL : 1 ≤ L)
    (hcredit : ∀ i, (start.vn i).greenCredit = 0) {before segment after : List (TimedEvent P k)}
    (hsplit : events = before ++ segment ++ after) (i : Fin k) :
    tally (Event.greenOffered i) (segment.map Prod.snd) - B -
        tally greenDropped ((before ++ segment).map Prod.snd) - k * ((L : ℤ) - 1) - L ≤
      tally (Event.releasedBytes i) (segment.map Prod.snd) := by
  have hselected := selectedBytes_in_time hcond hrun hcurve hsigma hrho hB hL hcredit hsplit i
  rw [hsplit] at hrun
  obtain ⟨q₁, hboth, -⟩ := hrun.of_append
  obtain ⟨q₀, hbefore, hsegment⟩ := hboth.of_append
  have hpending := pendingBytes_run (wellFormed_timed hcond.moderate.wellFormed hbefore)
    (run_of_timed hsegment) i
  have hfirst := q₀.pendingBytes_nonneg i
  have hq₁ := (hcond.moderate.run hboth fun x hx => hcond.sizes x (by
    rw [hsplit]
    exact List.mem_append_left _ hx)).1
  have hlast := (Finset.single_le_sum (fun j _ => q₁.pendingBytes_nonneg j)
    (Finset.mem_univ i)).trans (sum_pendingBytes_le hq₁)
  omega

end Port

end Cmcs
