import Cmcs.BandwidthGuarantee
import Cmcs.QueueingRun
import Mathlib.Tactic

/-!
# Bounds on the deficits

A deficit never falls below `1 - L`.  From above a VN holds one quantum, and one
more for each replenishment round which the others ran while it was an empty
member of the active set: a round is triggered by the non-empty members but
applied to all.  A round in which the VN is non-empty starts the count anew,
because the VN then had no positive deficit before it.
-/

namespace Cmcs

open TransitionSystem

variable {P : Type} {m k : ℕ}

/-- What the log of a queue tells of a VN: its packets, and the replenishment
rounds which it received while empty since it last joined the active set or was
non-empty in a round. -/
structure Silence where
  queued : ℕ := 0
  rounds : ℤ := 0

def Silence.next (i : Fin k) (s : Silence) : Event P k → Silence
  | .push v _ _ accepted =>
      if v = i ∧ accepted = true then { s with queued := s.queued + 1 } else s
  | .release _ v _ => if v = i then { s with queued := s.queued - 1 } else s
  | .sweep _ evicted => if evicted.contains i then { s with rounds := 0 } else s
  | .select sel =>
      if s.queued = 0 then { s with rounds := s.rounds + sel.roundsOf i }
      else if sel.rounds = 0 then s
      else { s with rounds := 0 }
  | _ => s

def silence (i : Fin k) (events : List (Event P k)) : Silence :=
  events.foldl (Silence.next i) {}

def silentRounds (i : Fin k) (events : List (Event P k)) : ℤ := (silence i events).rounds

theorem silence_concat (i : Fin k) (events : List (Event P k)) (e : Event P k) :
    silence i (events ++ [e]) = (silence i events).next i e := by
  simp [silence]

namespace Port

variable [IngressPacket P] {p p' : Port P k} {e : Event P k} {events : List (Event P k)}
variable {L : ℕ} {i : Fin k}

/-! ## Lower bound -/

theorem dwrrCharge_le (hwf : p.WellFormed) (hstep : Step p e p')
    (hphys : ∀ i, ∀ qe ∈ p.phys i, qe.pktSize ≤ L) (i : Fin k) :
    e.dwrrCharge i = 0 ∨ e.dwrrCharge i ≤ L ∧
      0 < (p.vn i).weightedDeficit + (p.vn i).weight * quantum * e.rounds i := by
  cases hstep with
  | @select sel lq' _ _ hselect =>
      have hspec := p.info.selectVn_selected hwf.nodup hselect
      by_cases hsel : sel.phase = .dwrr ∧ sel.vn = i
      · obtain ⟨hphase, rfl⟩ := hsel
        have hhead := hphys sel.vn sel.head (List.mem_of_head? hspec.head_eq)
        have hpos := hspec.dwrr_deficit hphase
        refine Or.inr ⟨?_, ?_⟩
        · simp only [Event.dwrrCharge, Selection.dwrrCharge, hphase, and_self, if_true]
          exact_mod_cast hhead
        · simpa [Event.rounds, Selection.roundsOf, roundsFor, hspec.active_eq,
            hspec.vn_mem] using hpos
      · exact Or.inl (if_neg hsel)
  | _ => exact Or.inl rfl

omit [IngressPacket P] in
theorem rounds_nonneg (e : Event P k) (i : Fin k) : 0 ≤ e.rounds i := by
  cases e with
  | select sel =>
      simp only [Event.rounds, Selection.roundsOf, roundsFor]
      split
      · exact Int.natCast_nonneg _
      · exact le_rfl
  | _ => exact le_rfl

theorem weightedDeficit_lower_step (hwf : p.WellFormed) (hstep : Step p e p') (hL : 1 ≤ L)
    (hphys : ∀ i, ∀ qe ∈ p.phys i, qe.pktSize ≤ L)
    (hlower : 1 - (L : ℤ) ≤ (p.vn i).weightedDeficit) :
    1 - (L : ℤ) ≤ (p'.vn i).weightedDeficit := by
  rw [weightedDeficit_step hwf hstep]
  have hquantum : 0 ≤ (p.vn i).weight * quantum * e.rounds i :=
    mul_nonneg (Int.mul_pos (hwf.weight_pos i) (by decide)).le (rounds_nonneg e i)
  split
  · omega
  · cases dwrrCharge_le hwf hstep hphys i with
    | inl hzero => omega
    | inr hcharge => omega

/-! ## Upper bound -/

/-- The count of the log agrees with the queue, and the deficit is within it. -/
structure SilenceBound (i : Fin k) (events : List (Event P k)) (p : Port P k) : Prop where
  queued : (silence i events).queued = (p.vn i).size
  rounds_nonneg : 0 ≤ silentRounds i events
  deficit_le : (p.vn i).weightedDeficit ≤
    (p.vn i).weight * quantum * (1 + silentRounds i events)

omit [IngressPacket P] in
theorem SilenceBound.of_next {counts : Silence}
    (hnext : (silence i events).next i e = counts)
    (hqueued : counts.queued = (p'.vn i).size) (hnonneg : 0 ≤ counts.rounds)
    (hle : (p'.vn i).weightedDeficit ≤ (p'.vn i).weight * quantum * (1 + counts.rounds)) :
    SilenceBound i (events ++ [e]) p' := by
  have hcounts : silence i (events ++ [e]) = counts := (silence_concat i events e).trans hnext
  rw [← hcounts] at hqueued hnonneg hle
  exact ⟨hqueued, hnonneg, hle⟩

omit [IngressPacket P] in
theorem SilenceBound.congr (hbound : SilenceBound i events p)
    (hsize : (p'.vn i).size = (p.vn i).size)
    (hdeficit : (p'.vn i).weightedDeficit = (p.vn i).weightedDeficit)
    (hweight : (p'.vn i).weight = (p.vn i).weight)
    (hquiet : (silence i events).next i e = silence i events) :
    SilenceBound i (events ++ [e]) p' := by
  apply SilenceBound.of_next hquiet
  · rw [hbound.queued, hsize]
  · exact hbound.rounds_nonneg
  · rw [hdeficit, hweight]
    exact hbound.deficit_le

omit [IngressPacket P] in
theorem SilenceBound.sweep (hwf : p.WellFormed) (hbound : SilenceBound i events p)
    (now : Ticks) :
    SilenceBound i (events ++ [.sweep now (p.info.evicted now)]) (p.sweep now) := by
  have hquantum : 0 < (p.vn i).weight * quantum :=
    Int.mul_pos (hwf.weight_pos i) (by decide)
  by_cases hevicted : (p.info.evicted now).contains i = true
  · have hreset : (silence i events).next i
        (.sweep now (p.info.evicted now) : Event P k) =
        { silence i events with rounds := 0 } := if_pos hevicted
    apply SilenceBound.of_next hreset
    · simpa [Port.sweep, LogicalQueueInfo.sweep_eq] using hbound.queued
    · exact le_rfl
    · have hmem : i ∈ p.info.evicted now := by simpa using hevicted
      simp only [Port.sweep, LogicalQueueInfo.sweep_eq, Port.vn, hmem, if_true]
      simpa using hquantum.le
  · have hmem : i ∉ p.info.evicted now := by simpa using hevicted
    apply hbound.congr
    · simp [Port.sweep, LogicalQueueInfo.sweep_eq]
    · simp [Port.sweep, LogicalQueueInfo.sweep_eq, hmem]
    · simp [Port.sweep, LogicalQueueInfo.sweep_eq]
    · exact if_neg hevicted

theorem SilenceBound.select (hwf : p.WellFormed) (hbound : SilenceBound i events p)
    {sel : Selection P k} (hstep : Step p (.select sel) p') :
    SilenceBound i (events ++ [.select sel]) p' := by
  obtain ⟨lq', hselect⟩ := hstep.selectVn_eq
  have hspec := p.info.selectVn_selected hwf.nodup hselect
  have hquantum : 0 < (p.vn i).weight * quantum :=
    Int.mul_pos (hwf.weight_pos i) (by decide)
  have hdeficit := weightedDeficit_step hwf hstep i
  have hweight := weight_step hwf hstep i
  have hsize : (p'.vn i).size = (p.vn i).size := by
    cases hstep with
    | select _ _ hselect' =>
        rw [(p.info.selectVn_selected hwf.nodup hselect').result]
  have hcharge := (Event.select sel).dwrrCharge_nonneg i
  have hrounds := Port.rounds_nonneg (Event.select sel) i
  rcases hbound with ⟨hqueued, hnonneg, hle⟩
  simp only [Event.resets, Bool.false_eq_true, if_false, Event.rounds] at hdeficit hrounds
  rw [mul_add, mul_one] at hle
  by_cases hempty : (p.vn i).size = 0
  · -- an empty member is credited but not charged
    have hnext : (silence i events).next i (.select sel) =
        { silence i events with rounds := (silence i events).rounds + sel.roundsOf i } :=
      if_pos (hqueued.trans hempty)
    apply SilenceBound.of_next hnext
    · rw [hsize]
      exact hqueued
    · exact add_nonneg hnonneg hrounds
    · rw [hdeficit, hweight]
      simp only [silentRounds] at hle
      rw [mul_add, mul_one, mul_add]
      omega
  · have hactive := hwf.active i hempty
    have hroundsOf : sel.roundsOf i = sel.rounds := by
      simp [Selection.roundsOf, roundsFor, hspec.active_eq, hactive]
    have hqueued' : (silence i events).queued ≠ 0 := by rwa [hqueued]
    cases hcases : sel.rounds with
    | zero =>
        have hnext : (silence i events).next i (.select sel) = silence i events := by
          simp [Silence.next, hqueued', hcases]
        rw [hroundsOf, hcases, Nat.cast_zero, mul_zero] at hdeficit
        apply SilenceBound.of_next hnext
        · rw [hsize]
          exact hqueued
        · exact hnonneg
        · rw [hdeficit, hweight, mul_add, mul_one]
          simp only [silentRounds] at hle
          omega
    | succ r =>
        -- before the last round the VN had no positive deficit
        have hwaited := hspec.dwrr_waited r (by omega) i hactive hempty
        have hnext : (silence i events).next i (.select sel) =
            { silence i events with rounds := 0 } := by
          simp [Silence.next, hqueued', hcases]
        rw [hroundsOf, hcases] at hdeficit
        push_cast at hdeficit
        rw [mul_add, mul_one] at hdeficit
        apply SilenceBound.of_next hnext
        · rw [hsize]
          exact hqueued
        · exact le_rfl
        · rw [hdeficit, hweight, add_zero, mul_one]
          simp only [Port.vn] at hcharge hdeficit ⊢
          omega

theorem SilenceBound.step (hwf : p.WellFormed) (hbound : SilenceBound i events p)
    (hstep : Step p e p') : SilenceBound i (events ++ [e]) p' := by
  cases hstep with
  | push v color item =>
      by_cases hjoin : v = i ∧ (!p.full v) = true
      · have hnext : (silence i events).next i (.push v color item (!p.full v)) =
            { silence i events with queued := (silence i events).queued + 1 } := if_pos hjoin
        have hfull : p.full v = false ∧ v = i := ⟨by simpa using hjoin.2, hjoin.1⟩
        apply SilenceBound.of_next hnext
        · rw [push_vn]
          simp only [if_pos hfull, hbound.queued]
        · exact hbound.rounds_nonneg
        · rw [push_vn]
          exact hbound.deficit_le
      · have hfull : ¬(p.full v = false ∧ v = i) := fun h => hjoin ⟨h.2, by simp [h.1]⟩
        apply hbound.congr
        · rw [push_vn]
          simp only [if_neg hfull, add_zero]
        · rw [push_vn]
        · rw [push_vn]
        · exact if_neg hjoin
  | sweep now => exact hbound.sweep hwf now
  | select hfree hsize hselect => exact hbound.select hwf (Step.select hfree hsize hselect)
  | defer => exact hbound.congr rfl rfl rfl rfl
  | @release now v qe _ hhead =>
      by_cases hv : v = i
      · subst v
        have hnext : (silence i events).next i (.release now i qe) =
            { silence i events with queued := (silence i events).queued - 1 } := if_pos rfl
        apply SilenceBound.of_next hnext
        · simp [Port.release, LogicalQueueInfo.depart_eq, LogicalQueueInfo.conform,
            hbound.queued]
        · exact hbound.rounds_nonneg
        · simpa [Port.release, LogicalQueueInfo.depart_eq, LogicalQueueInfo.conform,
            silentRounds] using hbound.deficit_le
      · apply hbound.congr
        · simp [Port.release, LogicalQueueInfo.depart_eq, LogicalQueueInfo.conform, hv]
        · simp [Port.release, LogicalQueueInfo.depart_eq, LogicalQueueInfo.conform]
        · simp [Port.release, LogicalQueueInfo.depart_eq, LogicalQueueInfo.conform]
        · exact if_neg hv
  | setVnCapacity v c =>
      have hvn := p.info.setVnCapacity_vnQueues v i c
      apply hbound.congr
      · simp only [Port.vn, hvn]
      · simp only [Port.vn, hvn]
      · simp only [Port.vn, hvn]
      · rfl
  | setQueueCapacity => exact hbound.congr rfl rfl rfl rfl
  | setRate => exact hbound.congr rfl rfl rfl rfl

/-! ## Runs of one queue -/

structure DeficitState (L : ℕ) (events : List (Event P k)) (p : Port P k) : Prop where
  wellFormed : p.WellFormed
  phys_le : ∀ i, ∀ qe ∈ p.phys i, qe.pktSize ≤ L
  lower : ∀ i, 1 - (L : ℤ) ≤ (p.vn i).weightedDeficit
  upper : ∀ i, SilenceBound i events p

omit [IngressPacket P] in
theorem deficitState_initial (hL : 1 ≤ L) (capacity : ℕ) {weights : Fin k → ℤ}
    (hweights : ∀ i, 0 < weights i) (now : Ticks) :
    DeficitState L [] (initial capacity weights now : Port P k) where
  wellFormed := wellFormed_initial capacity hweights now
  phys_le i qe hqe := by simp [initial] at hqe
  lower i := by
    simp only [initial, LogicalQueueInfo.new, Port.vn]
    omega
  upper i :=
    { queued := rfl
      rounds_nonneg := le_rfl
      deficit_le := by
        have hquantum : 0 < weights i * quantum := Int.mul_pos (hweights i) (by decide)
        simpa [initial, LogicalQueueInfo.new, silentRounds, silence] using hquantum.le }

theorem deficitState_run (hL : 1 ≤ L) {capacity : ℕ} {weights : Fin k → ℤ} {now : Ticks}
    (hweights : ∀ i, 0 < weights i) (hsize : ∀ e ∈ events, e.SizeAtMost L)
    (hrun : Run Step (initial capacity weights now) events p) : DeficitState L events p := by
  induction hrun with
  | nil => exact deficitState_initial hL capacity hweights now
  | snoc _ hstep ih =>
      have hq := ih fun e he => hsize e (by simp [he])
      exact
        { wellFormed := hq.wellFormed.step hstep
          phys_le := phys_le_step hstep (hsize _ (by simp)) hq.phys_le
          lower := fun i =>
            weightedDeficit_lower_step hq.wellFormed hstep hL hq.phys_le (hq.lower i)
          upper := fun i => (hq.upper i).step hq.wellFormed hstep }

end Port

/-! ## Reachable states of the scheduler -/

def Op.SizeAtMost [IngressPacket P] (L : ℕ) : Op P m → Prop
  | .pushFront _ _ _ item _ => ingressSize item ≤ L
  | _ => True

namespace QueueingLogicVN

variable [IngressPacket P] {cfg : Config m k} {s : QueueingLogicVN P m k} {capacity L : ℕ}
variable {ops : List (Op P m)} {history : List (Call P m k)} {q : ℕ} {lq : LogicalQueueInfo k}

theorem StepSpec.sizeAtMost {s' : QueueingLogicVN P m k} {call : Call P m k}
    (hspec : StepSpec cfg s s' call) (hop : call.op.SizeAtMost L) :
    ∀ e ∈ logOf q call.log, e.SizeAtMost L := by
  intro e he
  cases hspec with
  | pushFront v hv hpush =>
      cases List.mem_append.mp (mem_logOf.mp he) with
      | inl hcreation =>
          have hcontrol := creation_control _ _ _ hcreation
          cases e with
          | push => exact absurd hcontrol (by simp [Event.Control])
          | _ => trivial
      | inr hlast =>
          simp only [List.mem_singleton, Prod.mk.injEq] at hlast
          rw [hlast.2]
          exact hop
  | scan hscan =>
      have hat := hscan.scannedAt q e he
      cases e with
      | push => exact absurd hat (by simp [Event.ScannedAt])
      | _ => trivial
  | setter _ hlog =>
      have hcontrol := hlog _ (mem_logOf.mp he)
      cases e with
      | push => exact absurd hcontrol (by simp [Event.Control])
      | _ => trivial

theorem deficitState_of_run (hL : 1 ≤ L) (hops : ∀ op ∈ ops, op.SizeAtMost L)
    (hrun : run cfg (initial capacity) ops = some (s, history))
    (hlq : s.logicalQueuesInfo q = some lq) :
    ∃ phys, s.port cfg q = some ⟨lq, phys⟩ ∧
      Port.DeficitState L (logOf q (history.flatMap Call.log)) ⟨lq, phys⟩ := by
  obtain ⟨phys, capacity', created, rest, hport, hlog, hrest⟩ := exists_run_port hrun hlq
  have hsize : ∀ e ∈ logOf q (history.flatMap Call.log), e.SizeAtMost L :=
    forall_log_run (A := fun op => op.SizeAtMost L)
      (fun _ _ _ hspec hop => hspec.sizeAtMost hop) hrun hops
  refine ⟨phys, hport, ?_⟩
  rw [hlog] at hsize ⊢
  have hstate := Port.deficitState_run hL cfg.vnWeights_pos
    (fun e he => hsize e (List.mem_cons_of_mem _ he)) hrest
  exact
    { wellFormed := hstate.wellFormed
      phys_le := hstate.phys_le
      lower := hstate.lower
      upper := fun i =>
        { queued := (hstate.upper i).queued
          rounds_nonneg := (hstate.upper i).rounds_nonneg
          deficit_le := (hstate.upper i).deficit_le } }

theorem weight_of_run (hrun : run cfg (initial capacity) ops = some (s, history))
    (hlq : s.logicalQueuesInfo q = some lq) (i : Fin k) :
    (lq.vnQueues i).weight = cfg.vnWeights i := by
  obtain ⟨phys, capacity', created, rest, -, -, hport⟩ := exists_run_port hrun hlq
  exact Port.weight_run (Port.wellFormed_initial capacity' cfg.vnWeights_pos created) hport i

/-- Every deficit lies between `1 - L` and one quantum plus one for each silent
round.  A VN without silent rounds holds at most one quantum. -/
theorem deficit_bounds (hL : 1 ≤ L) (hops : ∀ op ∈ ops, op.SizeAtMost L)
    (hrun : run cfg (initial capacity) ops = some (s, history))
    (hlq : s.logicalQueuesInfo q = some lq) (i : Fin k) :
    1 - (L : ℤ) ≤ (lq.vnQueues i).weightedDeficit ∧
      (lq.vnQueues i).weightedDeficit ≤ cfg.vnWeights i * quantum *
        (1 + silentRounds i (logOf q (history.flatMap Call.log))) := by
  obtain ⟨phys, -, hstate⟩ := deficitState_of_run hL hops hrun hlq
  rw [← weight_of_run hrun hlq i]
  exact ⟨hstate.lower i, (hstate.upper i).deficit_le⟩

/-! ## A VN which is credited while empty -/

def Config.pair : Config 1 2 where
  mapToWorker _ := Fin.last 0
  vnWeights _ := 1
  vnWeights_pos _ := Int.one_pos

/-- VN 0 sends one packet and falls silent, VN 1 goes on and needs a new round. -/
def silentOps : List (Op ℕ 1) :=
  [.pushFront 0 0 1 (some 100) 1, .pushFront 0 1 1 (some 1514) 2,
    .pushFront 0 1 1 (some 1514) 3, .scan (Fin.last 0) 4, .scan (Fin.last 0) 5,
    .scan (Fin.last 0) 6]

theorem silentOps_deficit :
    ((run Config.pair (initial 64) silentOps).bind fun result =>
      (result.1.logicalQueuesInfo 0).map fun lq => (lq.vnQueues 0).weightedDeficit) =
        some 2928 := by
  decide +kernel

theorem silentOps_sizeAtMost : ∀ op ∈ silentOps, op.SizeAtMost 1514 := by
  simp [silentOps, Op.SizeAtMost, ingressSize, IngressPacket.getIngressLength]

theorem deficit_bounds_silent :
    ∃ s history lq, run Config.pair (initial 64) silentOps = some (s, history) ∧
      s.logicalQueuesInfo 0 = some lq ∧
      1 - 1514 ≤ (lq.vnQueues 0).weightedDeficit ∧
      (lq.vnQueues 0).weightedDeficit ≤ Config.pair.vnWeights 0 * quantum *
        (1 + silentRounds 0 (logOf 0 (history.flatMap Call.log))) := by
  obtain ⟨⟨s, history⟩, hrun, hrest⟩ := Option.bind_eq_some_iff.mp silentOps_deficit
  obtain ⟨lq, hlq, -⟩ := Option.map_eq_some_iff.mp hrest
  exact ⟨s, history, lq, hrun, hlq,
    deficit_bounds (by decide) silentOps_sizeAtMost hrun hlq 0⟩

/-- One quantum does not bound the deficit of an empty active VN. -/
theorem not_deficit_le_quantum :
    ¬∀ (cfg : Config 1 2) (capacity L : ℕ) (ops : List (Op ℕ 1)) s history,
      1 ≤ L → (∀ op ∈ ops, op.SizeAtMost L) →
        run cfg (initial capacity) ops = some (s, history) →
          ∀ q lq, s.logicalQueuesInfo q = some lq → ∀ i,
            1 - (L : ℤ) ≤ (lq.vnQueues i).weightedDeficit ∧
              (lq.vnQueues i).weightedDeficit ≤ cfg.vnWeights i * quantum := by
  intro hall
  obtain ⟨⟨s, history⟩, hrun, hrest⟩ := Option.bind_eq_some_iff.mp silentOps_deficit
  obtain ⟨lq, hlq, hdeficit⟩ := Option.map_eq_some_iff.mp hrest
  have hle := (hall Config.pair 64 1514 silentOps s history (by decide)
    silentOps_sizeAtMost hrun 0 lq hlq 0).2
  rw [hdeficit] at hle
  exact absurd hle (by decide)

end QueueingLogicVN

end Cmcs
