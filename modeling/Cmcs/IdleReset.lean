import Cmcs.ChargeLedger
import Cmcs.DeficitBound
import Cmcs.RepresentationInvariant
import Mathlib.Tactic

/-!
# Reactivation after idling

The sweep which resets the deficit of an idle VN runs only when the queue is
non-empty and decides for another packet.  From the push which ends the idle
time to the first decision after it the VN is non-empty and not pending, so
nothing touches its deficit: that decision finds the deficit of the idle time.
It is zero if a decision of the queue fell late enough into the idle time, and
else only if the VN had spent exactly what the rounds since its last reset gave it.
-/

namespace Cmcs

open TransitionSystem

variable {P : Type} {m k : ℕ}

namespace Port

variable [IngressPacket P] {p p' : Port P k} {e : Event P k} {events : List (Event P k)}
variable {v : Fin k}

/-! ## What a sweep leaves behind -/

/-- No sweep so far has found an empty member idle for too long. -/
def Unexpired (events : List (Event P k)) (p : Port P k) : Prop :=
  ∀ i ∈ p.info.activeSet, (p.vn i).size = 0 → ∀ now evicted, .sweep now evicted ∈ events →
    now - (p.vn i).emptySince < vnIdleTimeout

theorem Unexpired.step (hwf : p.WellFormed)
    (hsorted : ((events ++ [e]).filterMap Event.time).Pairwise (· ≤ ·))
    (hold : Unexpired events p) (hstep : Step p e p') : Unexpired (events ++ [e]) p' := by
  intro i hi hsize now evicted hsweep
  cases empty_member_step hwf hstep hi hsize with
  | inl hbefore =>
      obtain ⟨hactive, hsize', hsince, -⟩ := hbefore
      rw [hsince]
      cases List.mem_append.mp hsweep with
      | inl hpast => exact hold i hactive hsize' now evicted hpast
      | inr hlast =>
          rw [List.mem_singleton] at hlast
          subst e
          cases hstep with
          | sweep now =>
              -- the survivors of this sweep are not idle
              simp only [Port.sweep, LogicalQueueInfo.sweep_eq] at hi
              by_contra hexpired
              have hidle : p.info.isIdle now i = true :=
                p.info.isIdle_iff.mpr ⟨hsize', not_lt.mp hexpired⟩
              have hstays := (List.mem_filter.mp hi).2
              simp [hidle] at hstays
  | inr hrelease =>
      obtain ⟨released, qe, rfl, hsince⟩ := hrelease
      have hpast : .sweep now evicted ∈ events := by
        cases List.mem_append.mp hsweep with
        | inl hpast => exact hpast
        | inr hlast => simp at hlast
      rw [List.filterMap_append, List.pairwise_append] at hsorted
      have hle : now ≤ released := hsorted.2.2 now
        (List.mem_filterMap.mpr ⟨_, hpast, rfl⟩) released (by simp [Event.time])
      rw [hsince]
      exact lt_of_le_of_lt (sub_nonpos.mpr hle) (by decide)

theorem unexpired_run (hwf : p.WellFormed) (hrun : Run Step p events p')
    (hsorted : (events.filterMap Event.time).Pairwise (· ≤ ·)) (hstart : Unexpired [] p) :
    Unexpired events p' := by
  have hall := hrun.history (I := fun events q =>
    (events.filterMap Event.time).Pairwise (· ≤ ·) → Unexpired events q) ?_ fun _ => hstart
  · exact hall hsorted
  · intro events q e q' hbefore ih hstep hsorted
    have hpast : (events.filterMap Event.time).Pairwise (· ≤ ·) := by
      rw [List.filterMap_append] at hsorted
      exact (List.pairwise_append.mp hsorted).1
    exact (ih hpast).step (hwf.run hbefore) hsorted hstep

/-! ## From the push to the next decision -/

/-- VN `v` is waiting for a decision with deficit `d`. -/
structure Awaiting (v : Fin k) (d : ℤ) (p : Port P k) : Prop where
  nonempty : (p.vn v).size ≠ 0
  undecided : p.info.pendingVn ≠ some v
  deficit : (p.vn v).weightedDeficit = d

variable {d : ℤ}

omit [IngressPacket P] in
theorem Awaiting.sweep (hawait : Awaiting v d p) (now : Ticks) : Awaiting v d (p.sweep now) := by
  have hstays : v ∉ p.info.evicted now := fun hevicted =>
    hawait.nonempty (p.info.size_eq_zero_of_mem_evicted hevicted)
  constructor
  · simpa [Port.sweep, LogicalQueueInfo.sweep_eq] using hawait.nonempty
  · simpa [Port.sweep, LogicalQueueInfo.sweep_eq] using hawait.undecided
  · simpa [Port.sweep, LogicalQueueInfo.sweep_eq, hstays] using hawait.deficit

theorem Awaiting.step (hawait : Awaiting v d p) (hstep : Step p e p')
    (hquiet : e.isSelect = false) : Awaiting v d p' := by
  cases hstep with
  | push u color item =>
      constructor
      · have hsize := hawait.nonempty
        rw [push_vn]
        simp only
        omega
      · rw [push_pendingVn]
        exact hawait.undecided
      · rw [push_vn]
        exact hawait.deficit
  | sweep now => exact hawait.sweep now
  | select => exact absurd hquiet (by simp [Event.isSelect])
  | defer => exact hawait
  | @release now u qe hpending hhead =>
      have hne : u ≠ v := by
        intro heq
        subst u
        exact hawait.undecided hpending
      constructor
      · simpa [Port.release, LogicalQueueInfo.depart_eq, LogicalQueueInfo.conform, hne] using
          hawait.nonempty
      · simp [Port.release, LogicalQueueInfo.depart_eq, LogicalQueueInfo.conform]
      · simpa [Port.release, LogicalQueueInfo.depart_eq, LogicalQueueInfo.conform] using
          hawait.deficit
  | setVnCapacity u c =>
      have hvn := p.info.setVnCapacity_vnQueues u v c
      constructor
      · simpa [Port.vn, hvn] using hawait.nonempty
      · exact hawait.undecided
      · simpa [Port.vn, hvn] using hawait.deficit
  | setQueueCapacity => exact ⟨hawait.nonempty, hawait.undecided, hawait.deficit⟩
  | setRate => exact ⟨hawait.nonempty, hawait.undecided, hawait.deficit⟩

theorem Awaiting.run (hawait : Awaiting v d p) (hrun : Run Step p events p')
    (hquiet : ∀ e ∈ events, e.isSelect = false) : Awaiting v d p' := by
  induction hrun with
  | nil => exact hawait
  | snoc _ hstep ih =>
      have hbefore := ih fun e he => hquiet e (List.mem_append_left _ he)
      exact hbefore.step hstep (hquiet _ (by simp))

/-- An accepted packet for an empty VN waits, with the deficit which it finds. -/
theorem awaiting_push (hwf : p.WellFormed) (hempty : (p.vn v).size = 0)
    (haccepted : p.full v = false) (color : ℕ) (item : Option P) :
    Awaiting v (p.vn v).weightedDeficit (p.push v color item) := by
  constructor
  · rw [push_vn]
    simp [haccepted]
  · rw [push_pendingVn]
    exact fun hpending => hwf.pending v hpending hempty
  · rw [push_vn]

end Port

namespace QueueingLogicVN

variable [IngressPacket P] {cfg : Config m k} {s s₁ s₂ : QueueingLogicVN P m k} {capacity : ℕ}
variable {ops : List (Op P m)} {history : List (Call P m k)} {q : ℕ} {v : Fin k}

/-! ## Clock readings in the log -/

theorem times_sorted (hrun : run cfg (initial capacity) ops = some (s, history))
    (hsorted : (ops.filterMap Op.reading).Pairwise (· ≤ ·)) (q : ℕ) :
    ((logOf q (history.flatMap Call.log)).filterMap Event.time).Pairwise (· ≤ ·) := by
  have hall := run_induction (I := fun ops _ history =>
    (ops.filterMap Op.reading).Pairwise (· ≤ ·) →
      (∀ t ∈ (logOf q (history.flatMap Call.log)).filterMap Event.time,
        t ∈ ops.filterMap Op.reading) ∧
      ((logOf q (history.flatMap Call.log)).filterMap Event.time).Pairwise (· ≤ ·))
    (by simp) ?_ hrun
  · exact (hall hsorted).2
  · intro ops s history s' call _ ih _ hspec hsorted
    have hcall : ∀ t ∈ (logOf q call.log).filterMap Event.time,
        call.op.reading = some t := by
      intro t ht
      obtain ⟨e, he, htime⟩ := List.mem_filterMap.mp ht
      exact hspec.time he htime
    rw [List.filterMap_append, List.pairwise_append] at hsorted
    obtain ⟨hmem, hpast⟩ := ih hsorted.1
    rw [List.flatMap_append, List.flatMap_singleton, logOf_append, List.filterMap_append]
    constructor
    · intro t ht
      rw [List.filterMap_append]
      cases List.mem_append.mp ht with
      | inl hold => exact List.mem_append_left _ (hmem t hold)
      | inr hnew => exact List.mem_append_right _ (by simp [hcall t hnew])
    · refine List.pairwise_append.mpr ⟨hpast, ?_, ?_⟩
      · refine List.pairwise_iff_getElem.mpr fun i j hi hj _ => ?_
        have hfirst := hcall _ (List.getElem_mem hi)
        have hsecond := hcall _ (List.getElem_mem hj)
        rw [hfirst, Option.some.injEq] at hsecond
        exact hsecond.le
      · intro t ht u hu
        exact hsorted.2.2 t (hmem t ht) u (by simp [hcall u hu])

/-! ## Reactivation -/

def deficitOf (s : QueueingLogicVN P m k) (q : ℕ) (v : Fin k) : ℤ :=
  ((s.logicalQueuesInfo q).map fun lq => (lq.vnQueues v).weightedDeficit).getD 0

/-- A run in which VN `v` of queue `q`, empty for at least the idle timeout,
accepts a packet at reading `now`, and after further calls a scan at reading
`later` makes the first decision at `q` since, from the record `lq`. -/
structure Reactivated (cfg : Config m k) (capacity : ℕ) (q : ℕ) (v : Fin k) (now later : Ticks)
    (s : QueueingLogicVN P m k) (history : List (Call P m k)) (lq : LogicalQueueInfo k) :
    Prop where
  sorted : ∃ ops, run cfg (initial capacity) ops = some (s, history) ∧
    ((ops.filterMap Op.reading) ++ [now]).Pairwise (· ≤ ·)
  empty : ∀ lq, s.logicalQueuesInfo q = some lq → (lq.vnQueues v).size = 0
  idle : ∀ emptied, lastDequeue q v history = some emptied → vnIdleTimeout ≤ now - emptied
  decided : ∃ color item s₁ ops s₂ more w outcome log s₃,
    s.pushFront cfg q v color item now = some (s₁, true) ∧
    run cfg s₁ ops = some (s₂, more) ∧
    (now :: ops.filterMap Op.reading ++ [later]).Pairwise (· ≤ ·) ∧
    (∀ e ∈ logOf q (more.flatMap Call.log), e.isSelect = false) ∧
    s₂.logicalQueuesInfo q = some lq ∧
    s₂.scan w later = some (s₃, outcome, log) ∧ ∃ e ∈ logOf q log, e.isSelect = true

/-- Some decision of the queue fell into the idle time, late enough for its
sweep to erase the VN. -/
def SweptOut (q : ℕ) (v : Fin k) (history : List (Call P m k)) : Prop :=
  ∀ emptied, lastDequeue q v history = some emptied →
    ∃ now evicted, .sweep now evicted ∈ logOf q (history.flatMap Call.log) ∧
      vnIdleTimeout ≤ now - emptied

/-- The packets of the VN which were charged in Phase 2 since its last reset have
taken exactly what the rounds since then gave it. -/
def SpentAll (cfg : Config m k) (q : ℕ) (v : Fin k) (history : List (Call P m k)) : Prop :=
  tally (Event.dwrrCharge v) (sinceReset v (logOf q (history.flatMap Call.log))) =
    cfg.vnWeights v * quantum *
      tally (Event.rounds v) (sinceReset v (logOf q (history.flatMap Call.log)))

/-- The deficit of a VN is what the log tells of it since its last reset. -/
theorem deficitOf_eq_ledger (hrun : run cfg (initial capacity) ops = some (s, history))
    (q : ℕ) (v : Fin k) :
    s.deficitOf q v =
      cfg.vnWeights v * quantum *
          tally (Event.rounds v) (sinceReset v (logOf q (history.flatMap Call.log))) -
        tally (Event.dwrrCharge v) (sinceReset v (logOf q (history.flatMap Call.log))) := by
  cases hlq : s.logicalQueuesInfo q with
  | none =>
      have hport := (port_eq_none (run_coherent hrun)).mpr hlq
      rw [log_eq_nil_of_port hrun hport]
      simp [deficitOf, hlq, sinceReset, tally]
  | some lq =>
      obtain ⟨phys, capacity', created, rest, -, hlog, hrest⟩ := exists_run_port hrun hlq
      have hwf := Port.wellFormed_initial (P := P) capacity' cfg.vnWeights_pos created
      have hdeficit := Port.weightedDeficit_since_reset hwf hrest v rfl
      rw [hlog, sinceReset_create v created rest _ rfl, sinceReset_create v created rest _ rfl]
      simpa [deficitOf, hlq, Port.vn, Port.initial, LogicalQueueInfo.new] using hdeficit

theorem deficitOf_eq_zero (hrun : run cfg (initial capacity) ops = some (s, history))
    (hsorted : (ops.filterMap Op.reading).Pairwise (· ≤ ·))
    (hempty : ∀ lq, s.logicalQueuesInfo q = some lq → (lq.vnQueues v).size = 0)
    (hswept : SweptOut q v history) : s.deficitOf q v = 0 := by
  cases hlq : s.logicalQueuesInfo q with
  | none => simp [deficitOf, hlq]
  | some lq =>
      obtain ⟨phys, capacity', created, rest, hport, hlog, hrest⟩ := exists_run_port hrun hlq
      have hwf := run_wellFormed hrun q _ hport
      have hunexpired : Port.Unexpired rest ⟨lq, phys⟩ := by
        apply Port.unexpired_run
          (Port.wellFormed_initial capacity' cfg.vnWeights_pos created) hrest
        · have htimes := times_sorted hrun hsorted q
          rw [hlog] at htimes
          exact (List.pairwise_cons.mp htimes).2
        · intro i hi
          simp [Port.initial, LogicalQueueInfo.new] at hi
      have hinactive : v ∉ lq.activeSet := by
        intro hactive
        have hlast := empty_since_run hrun hport v hactive (hempty lq hlq)
        obtain ⟨now, evicted, hsweep, htimeout⟩ := hswept _ hlast
        rw [hlog] at hsweep
        have hsweep' : .sweep now evicted ∈ rest := by simpa using hsweep
        have hlt := hunexpired v hactive (hempty lq hlq) now evicted hsweep'
        exact absurd htimeout (not_le.mpr hlt)
      simpa [deficitOf, hlq] using hwf.inactive v hinactive

theorem pushFront_step (hcoh : s.Coherent cfg) {color : ℕ} {item : Option P} {now : Ticks}
    {accepted : Bool}
    (hpush : s.pushFront cfg q v color item now = some (s₁, accepted)) :
    ∃ p p₁, s₁.port cfg q = some p₁ ∧ Port.Step p (.push v color item accepted) p₁ ∧
      (s.port cfg q = some p ∨ s.logicalQueuesInfo q = none ∧
        ∃ capacity', p = Port.initial capacity' cfg.vnWeights now) := by
  obtain ⟨-, p, hport, hinfo⟩ := getLogicalQueue_advances hcoh q now
  rw [pushFront_eq (vnIndex_eq_some.mpr rfl) hport hinfo] at hpush
  simp only [Option.some.injEq, Prod.mk.injEq] at hpush
  obtain ⟨rfl, rfl⟩ := hpush
  refine ⟨p, p.push v color item, (port_write _ _ q).trans (if_pos rfl),
    Port.Step.push p v color item, ?_⟩
  cases hlq : s.logicalQueuesInfo q with
  | some lq =>
      have hsame : s.getLogicalQueue cfg q (cfg.mapToWorker q) now = (s, lq) := by
        simp [getLogicalQueue, hlq]
      rw [hsame] at hport
      exact Or.inl hport
  | none =>
      rw [port_register hcoh hlq, if_pos rfl, Option.some.injEq] at hport
      exact Or.inr ⟨rfl, s.capacity, hport.symm⟩

/-- The first decision after a reactivation finds the deficit of the idle time. -/
theorem deficit_at_decision {now later : Ticks} {lq : LogicalQueueInfo k}
    (hreactivated : Reactivated cfg capacity q v now later s history lq) :
    ((lq.sweep later).vnQueues v).weightedDeficit = s.deficitOf q v := by
  obtain ⟨ops, hrun, -⟩ := hreactivated.sorted
  obtain ⟨color, item, s₁, ops', s₂, more, w, outcome, log, s₃, hpush, hmore, -, hquiet,
    hlq, -, -⟩ := hreactivated.decided
  have hcoh := run_coherent hrun
  have hwf := run_wellFormed hrun
  have hv : vnIndex (v : ℕ) = some v := vnIndex_eq_some.mpr rfl
  have hadvances := pushFront_advances hcoh hv hpush
  obtain ⟨p, p₁, hport₁, hstep, hport⟩ := pushFront_step hcoh hpush
  have hfound : p.WellFormed ∧ (p.vn v).size = 0 ∧
      (p.vn v).weightedDeficit = s.deficitOf q v := by
    cases hport with
    | inl hsome =>
        have hlq := (port_eq_some.mp hsome).1
        exact ⟨hwf q p hsome, hreactivated.empty p.info hlq, by simp [deficitOf, hlq]⟩
    | inr hnone =>
        obtain ⟨hlq, capacity', rfl⟩ := hnone
        refine ⟨Port.wellFormed_initial capacity' cfg.vnWeights_pos now, rfl, ?_⟩
        simp [deficitOf, hlq, Port.initial, LogicalQueueInfo.new]
  obtain ⟨hwfp, hempty, hdeficit⟩ := hfound
  have hawait : Port.Awaiting v (s.deficitOf q v) p₁ := by
    generalize haccepted : true = accepted at hstep
    rw [← hdeficit]
    cases hstep with
    | push _ color item =>
        exact Port.awaiting_push hwfp hempty (by simpa using haccepted) color item
  have hwf₁ := hadvances.wellFormed hwf
  have hlife := (advances_run hadvances.coherent hwf₁ hmore).1.life q
  rw [hport₁] at hlife
  obtain ⟨p₂, hport₂, hsteps⟩ := Port.Life.run_of_some hlife
  have hinfo₂ : p₂.info = lq := by
    have hsome := (port_eq_some.mp hport₂).1
    rw [hlq, Option.some.injEq] at hsome
    exact hsome.symm
  have hswept := ((hawait.run hsteps hquiet).sweep later).deficit
  rw [← hinfo₂]
  exact hswept

/-- Stale deficit survives idling exactly when no decision of the queue fell
late into the idle time and the VN had not spent exactly what it was given. -/
theorem deficit_reset_iff {now later : Ticks} {lq : LogicalQueueInfo k}
    (hreactivated : Reactivated cfg capacity q v now later s history lq) :
    ((lq.sweep later).vnQueues v).weightedDeficit = 0 ↔
      SweptOut q v history ∨ SpentAll cfg q v history := by
  rw [deficit_at_decision hreactivated]
  obtain ⟨ops, hrun, hsorted⟩ := hreactivated.sorted
  have hledger := deficitOf_eq_ledger hrun q v
  constructor
  · intro hzero
    rw [hledger, sub_eq_zero] at hzero
    exact Or.inr hzero.symm
  · intro hcondition
    cases hcondition with
    | inl hswept =>
        exact deficitOf_eq_zero hrun (List.pairwise_append.mp hsorted).1 hreactivated.empty
          hswept
    | inr hspent => exact hledger.trans (sub_eq_zero.mpr hspent.symm)

/-! ## A port which is idle with its VN -/

def idleOps : List (Op ℕ 1) := [.pushFront 0 0 1 (some 100) 1, .scan (Fin.last 0) 2]

/-- The packet after half a second without traffic is decided with the deficit
of 1414 bytes which the first packet left. -/
theorem exists_stale :
    ∃ s lq, ∃ history : List (Call ℕ 1 1),
      Reactivated Config.single 4 0 0 500000003 500000004 s history lq ∧
      ((lq.sweep 500000004).vnQueues 0).weightedDeficit = 1414 := by
  have heval : ((run Config.single (initial 4) idleOps).bind fun first =>
      (first.1.pushFront Config.single 0 0 1 (some 100) 500000003).bind fun pushed =>
        (pushed.1.scan 0 500000004).bind fun scanned =>
          (pushed.1.logicalQueuesInfo 0).bind fun lq =>
            (first.1.logicalQueuesInfo 0).map fun before =>
              (pushed.2, (before.vnQueues 0).size, lastDequeue 0 0 first.2,
                (logOf 0 scanned.2.2).any Event.isSelect,
                ((lq.sweep 500000004).vnQueues 0).weightedDeficit)) =
      some (true, 0, some 2, true, 1414) := by
    decide +kernel
  obtain ⟨⟨s, history⟩, hrun, heval⟩ := Option.bind_eq_some_iff.mp heval
  obtain ⟨⟨s₁, accepted⟩, hpush, heval⟩ := Option.bind_eq_some_iff.mp heval
  obtain ⟨⟨s₃, outcome, log⟩, hscan, heval⟩ := Option.bind_eq_some_iff.mp heval
  obtain ⟨lq, hlq, heval⟩ := Option.bind_eq_some_iff.mp heval
  obtain ⟨before, hbefore, heq⟩ := Option.map_eq_some_iff.mp heval
  simp only [Prod.mk.injEq] at heq
  obtain ⟨rfl, hsize, hlast, hselect, hdeficit⟩ := heq
  refine ⟨s, lq, history, ?_, hdeficit⟩
  constructor
  · exact ⟨idleOps, hrun, by decide⟩
  · intro lq' hlq'
    rw [hbefore, Option.some.injEq] at hlq'
    rwa [← hlq']
  · intro emptied hemptied
    rw [hlast, Option.some.injEq] at hemptied
    rw [← hemptied]
    decide
  · refine ⟨1, some 100, s₁, [], s₁, [], 0, outcome, log, s₃, hpush, rfl, by decide, by simp,
      hlq, hscan, ?_⟩
    exact List.any_eq_true.mp hselect

theorem deficit_reset_iff_idle :
    ∃ s lq, ∃ history : List (Call ℕ 1 1),
      Reactivated Config.single 4 0 0 500000003 500000004 s history lq ∧
      (((lq.sweep 500000004).vnQueues 0).weightedDeficit = 0 ↔
        SweptOut 0 0 history ∨ SpentAll Config.single 0 0 history) := by
  obtain ⟨s, lq, history, hreactivated, -⟩ := exists_stale
  exact ⟨s, lq, history, hreactivated, deficit_reset_iff hreactivated⟩

theorem not_deficit_reset :
    ¬∀ (cfg : Config 1 1) capacity q v now later s (history : List (Call ℕ 1 1)) lq,
      Reactivated cfg capacity q v now later s history lq →
        ((lq.sweep later).vnQueues v).weightedDeficit = 0 := by
  intro hall
  obtain ⟨s, lq, history, hreactivated, hdeficit⟩ := exists_stale
  have hzero := hall Config.single 4 0 0 500000003 500000004 s history lq hreactivated
  rw [hdeficit] at hzero
  contradiction

end QueueingLogicVN

end Cmcs
