import Cmcs.DequeueConformance
import Mathlib.Tactic

/-!
# Rate 0

The setters document rate 0 as no rate limiting.  The bucket has no such case:
at rate 0 it does not drain, so it keeps the level of the time of the setting
and adds every packet which leaves.
-/

namespace Cmcs

open LeakyBucket TransitionSystem

variable {P : Type} {m k : ℕ}

/-- The call does not set the rate of queue `q`. -/
def Op.KeepsRateOf (q : ℕ) : Op P m → Prop
  | .setRate q' _ _ => q' ≠ q
  | .setRateForAll _ => False
  | _ => True

namespace Port

variable [IngressPacket P] {p p' : Port P k} {e : Event P k} {events : List (Event P k)}

theorem level_nonneg_step (hstep : Step p e p') (hwf : p.WellFormed) (hlevel : 0 ≤ p.info.X) :
    0 ≤ p'.info.X := by
  have hbucket := congrArg Bucket.level (bucket_step hwf hstep).1
  cases hreleased : e.released with
  | none =>
      rw [hreleased] at hbucket
      have hsame : p'.info.X = p.info.X := hbucket
      rwa [hsame]
  | some d =>
      rw [hreleased] at hbucket
      have hpour : p'.info.X =
          max 0 (p.bucket.decayed p.info.dequeueRateBps (seconds d.1)) + d.2.2.pktSize * 8 :=
        hbucket
      rw [hpour]
      positivity

theorem level_nonneg_run {capacity : ℕ} {weights : Fin k → ℤ} {now : Ticks}
    (hweights : ∀ i, 0 < weights i)
    (hrun : Run Step (initial capacity weights now) events p) : 0 ≤ p.info.X := by
  have hwf : (initial capacity weights now : Port P k).WellFormed :=
    wellFormed_initial capacity hweights now
  have hall := hrun.invariant (I := fun q => q.WellFormed ∧ 0 ≤ q.info.X)
    (fun _ _ _ hq hstep => ⟨hq.1.step hstep, level_nonneg_step hstep hq.1 hq.2⟩)
    ⟨hwf, le_rfl⟩
  exact hall.2

omit [IngressPacket P] in
theorem decayedLevel_of_rate_zero (hrate : p.info.dequeueRateBps = 0) (now : Ticks) :
    p.info.decayedLevel now = p.info.X := by
  simp [LogicalQueueInfo.decayedLevel, hrate]

/-- At rate 0 the level grows by everything that leaves. -/
theorem level_run_of_rate_zero (hwf : p.WellFormed) (hrun : Run Step p events p')
    (hkeeps : ∀ e ∈ events, e.KeepsRate) (hrate : p.info.dequeueRateBps = 0)
    (hlevel : 0 ≤ p.info.X) :
    p'.info.dequeueRateBps = 0 ∧ p'.info.X = p.info.X + bitsOf (releases events) := by
  obtain ⟨hsame, hbucket⟩ := bucket_run hwf hrun hkeeps
  rw [hrate] at hsame hbucket
  refine ⟨hsame, ?_⟩
  have hvolume : ∀ arrival ∈ (releases events).map dequeueArrival, 0 ≤ arrival.volume := by
    intro arrival harrival
    obtain ⟨d, -, rfl⟩ := List.mem_map.mp harrival
    simp only [dequeueArrival]
    positivity
  have hstart : 0 ≤ p.bucket.level := hlevel
  have hfill := (Bucket.level_fill_zero hstart hvolume).1
  rw [volume_map_dequeueArrival] at hfill
  exact (congrArg Bucket.level hbucket).trans hfill

end Port

namespace QueueingLogicVN

variable [IngressPacket P] {cfg : Config m k} {s s₁ s₂ : QueueingLogicVN P m k} {capacity : ℕ}
variable {ops later : List (Op P m)} {history more : List (Call P m k)} {q : ℕ}

theorem step_keepsRate (hcoh : s.Coherent cfg)
    (hwf : ∀ q p, s.port cfg q = some p → p.WellFormed) {op : Op P m}
    {calls : List (Call P m k)} (hstep : s.step cfg op = some (s₁, calls))
    (hop : op.KeepsRateOf q) : ∀ e ∈ logOf q (calls.flatMap Call.log), e.KeepsRate := by
  intro e he
  cases e with
  | setRate bps =>
      cases setRate_of_step hcoh hwf hstep (mem_logOf.mp he) with
      | inl hone =>
          obtain ⟨now, rfl⟩ := hone
          exact absurd rfl hop
      | inr hall =>
          subst op
          exact absurd hop (by simp [Op.KeepsRateOf])
  | _ => trivial

theorem run_keepsRate (hcoh : s.Coherent cfg)
    (hwf : ∀ q p, s.port cfg q = some p → p.WellFormed)
    (hrun : run cfg s later = some (s₁, more)) (hkeeps : ∀ op ∈ later, op.KeepsRateOf q) :
    ∀ e ∈ logOf q (more.flatMap Call.log), e.KeepsRate := by
  have hall := run_induction_from hcoh hwf (I := fun ops _ history =>
    (∀ op ∈ ops, op.KeepsRateOf q) → ∀ e ∈ logOf q (history.flatMap Call.log), e.KeepsRate)
    (by simp) ?_ hrun
  · exact hall hkeeps
  · intro ops s' history s'' call hbefore ih hstep _ _ hkeeps e he
    obtain ⟨hadvances, hwf'⟩ := advances_run hcoh hwf hbefore
    have hlast := step_keepsRate hadvances.coherent hwf' hstep (hkeeps call.op (by simp))
    rw [List.flatMap_singleton] at hlast
    rw [List.flatMap_append, List.flatMap_singleton, logOf_append] at he
    cases List.mem_append.mp he with
    | inl hold => exact ih (fun op hop => hkeeps op (List.mem_append_left _ hop)) e hold
    | inr hnew => exact hlast e hnew

/-- At rate 0 a scan which reaches the queue serves it exactly while the level
at the setting and all that has left since are within the ceiling. -/
theorem disabled_rate_iff (hrun : run cfg (initial capacity) ops = some (s, history))
    {lq : LogicalQueueInfo k} (hlq : s.logicalQueuesInfo q = some lq)
    (hrate : lq.dequeueRateBps = 0) (hlater : run cfg s later = some (s₁, more))
    (hkeeps : ∀ op ∈ later, op.KeepsRateOf q) {w : Fin m} {now : Ticks}
    {outcome : ScanOutcome P k} {log : Log P k}
    (hscan : s₁.scan w now = some (s₂, outcome, log)) (hattempt : Attempted q log) :
    ((∃ v qe, outcome = .output q v qe) ∧ .defer now ∉ logOf q log) ↔
      lq.X + bitsOf (more.filterMap (Call.dequeued q)) ≤ defaultTau := by
  have hcoh := run_coherent hrun
  have hwf := run_wellFormed hrun
  obtain ⟨phys, capacity', created, rest, hport, -, hrest⟩ := exists_run_port hrun hlq
  have hlevel : 0 ≤ lq.X := Port.level_nonneg_run cfg.vnWeights_pos hrest
  have htau : lq.tau = defaultTau :=
    Port.tau_run (Port.wellFormed_initial capacity' cfg.vnWeights_pos created) hrest
  obtain ⟨hadvances, hwf₁⟩ := advances_run hcoh hwf hlater
  have hlife := hadvances.life q
  rw [hport] at hlife
  obtain ⟨p, hport₁, hsteps⟩ := Port.Life.run_of_some hlife
  have hp := hwf q _ hport
  obtain ⟨hrate₁, hX⟩ := Port.level_run_of_rate_zero hp hsteps
    (run_keepsRate hcoh hwf hlater hkeeps) hrate hlevel
  rw [releases_from hcoh hwf hlater q] at hX
  have htau₁ : p.info.tau = defaultTau := (Port.tau_run hp hsteps).trans htau
  have hspec := scan_spec hadvances.coherent hwf₁ hscan
  have hdefer := hspec.defer_iff hport₁ (hwf₁ q p hport₁) hattempt
  rw [Port.decayedLevel_of_rate_zero hrate₁, htau₁, hX] at hdefer
  rw [hspec.output_iff hport₁ (hwf₁ q p hport₁) hattempt, and_self, hdefer, not_lt]

/-! ## The sixth packet -/

def disabledOps : List (Op ℕ 1) :=
  (List.replicate 6 (.pushFront 0 0 1 (some 1514) 2)) ++ List.replicate 5 (.scan (Fin.last 0) 3)

/-- After five packets of 1514 bytes at rate 0 the sixth stays in its queue. -/
theorem exists_blocked :
    ∃ s history lq s₁ more s₂ outcome log,
      run Config.single (initial 64) [.setRate 0 0 1] = some (s, history) ∧
      s.logicalQueuesInfo 0 = some lq ∧ lq.dequeueRateBps = 0 ∧
      run Config.single s disabledOps = some (s₁, more) ∧
      s₁.scan 0 4 = some (s₂, outcome, log) ∧
      Attempted 0 log ∧ outcome.packet = none := by
  have heval : ((run Config.single (initial 64) [.setRate 0 0 1]).bind fun first =>
      (first.1.logicalQueuesInfo 0).bind fun lq =>
        (run Config.single first.1 disabledOps).bind fun later =>
          (later.1.scan 0 4).map fun scanned =>
            (lq.dequeueRateBps, later.1.queueSize 0, scanned.2.1.packet.isNone)) =
      some (0, 1, true) := by
    decide +kernel
  obtain ⟨⟨s, history⟩, hrun, heval⟩ := Option.bind_eq_some_iff.mp heval
  obtain ⟨lq, hlq, heval⟩ := Option.bind_eq_some_iff.mp heval
  obtain ⟨⟨s₁, more⟩, hlater, heval⟩ := Option.bind_eq_some_iff.mp heval
  obtain ⟨⟨s₂, outcome, log⟩, hscan, heq⟩ := Option.map_eq_some_iff.mp heval
  simp only [Prod.mk.injEq] at heq
  obtain ⟨hrate, hsize, hpacket⟩ := heq
  have hboth : run Config.single (initial 64) ([.setRate 0 0 1] ++ disabledOps) =
      some (s₁, history ++ more) :=
    exec_append_eq_some.mpr ⟨s, history, more, hrun, hlater, rfl⟩
  have hattempt : Attempted 0 log := by
    apply attempted_of_scan hboth hscan
    · rw [hsize]
      exact Nat.one_ne_zero
    · intro qid v qe heq
      simp [heq, ScanOutcome.packet] at hpacket
  exact ⟨s, history, lq, s₁, more, s₂, outcome, log, hrun, hlq, hrate, hlater, hscan,
    hattempt, Option.isNone_iff_eq_none.mp hpacket⟩

theorem disabled_rate_iff_blocked :
    ∃ s history lq s₁ more s₂ outcome log,
      run Config.single (initial 64) [.setRate 0 0 1] = some (s, history) ∧
      s.logicalQueuesInfo 0 = some lq ∧
      run Config.single s disabledOps = some (s₁, more) ∧
      s₁.scan 0 4 = some (s₂, outcome, log) ∧
      (((∃ v qe, outcome = .output 0 v qe) ∧ .defer 4 ∉ logOf 0 log) ↔
        lq.X + bitsOf (more.filterMap (Call.dequeued 0)) ≤ defaultTau) := by
  obtain ⟨s, history, lq, s₁, more, s₂, outcome, log, hrun, hlq, hrate, hlater, hscan,
    hattempt, -⟩ := exists_blocked
  exact ⟨s, history, lq, s₁, more, s₂, outcome, log, hrun, hlq, hlater, hscan,
    disabled_rate_iff hrun hlq hrate hlater (by simp [disabledOps, Op.KeepsRateOf]) hscan
      hattempt⟩

theorem not_disabled_rate :
    ¬∀ (cfg : Config 1 1) capacity (ops later : List (Op ℕ 1)) s history s₁ more q lq w now s₂
        outcome log,
      run cfg (initial capacity) ops = some (s, history) →
      s.logicalQueuesInfo q = some lq → lq.dequeueRateBps = 0 →
      run cfg s later = some (s₁, more) → (∀ op ∈ later, op.KeepsRateOf q) →
      s₁.scan w now = some (s₂, outcome, log) → Attempted q log →
        (∃ v qe, outcome = .output q v qe) ∧ .defer now ∉ logOf q log := by
  intro hall
  obtain ⟨s, history, lq, s₁, more, s₂, outcome, log, hrun, hlq, hrate, hlater, hscan,
    hattempt, hpacket⟩ := exists_blocked
  obtain ⟨⟨v, qe, houtput⟩, -⟩ := hall Config.single 64 _ _ s history s₁ more 0 lq 0 4 s₂
    outcome log hrun hlq hrate hlater (by simp [disabledOps, Op.KeepsRateOf]) hscan hattempt
  rw [houtput] at hpacket
  simp [ScanOutcome.packet] at hpacket

end QueueingLogicVN

end Cmcs
