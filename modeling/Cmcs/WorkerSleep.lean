import Cmcs.DequeueConformance
import Mathlib.Tactic

/-!
# Sleeping workers

The threads which call `pop_back`, together with the scheduler they share.  A
scan without an output puts its thread to sleep on the condition variable of
the worker, with the deadline which the scan has computed.  Only an accepted
push notifies; the rate setters do not, although a higher rate releases the
head packets earlier than the deadline says.
-/

namespace Cmcs

open LeakyBucket TransitionSystem

variable {P : Type} {m k : ℕ}

inductive WorkerThread
  | running
  | asleep (deadline : WithTop Ticks) (notified : Bool)
  deriving DecidableEq

/-- `notify_one`, which is lost on a thread which does not wait. -/
def WorkerThread.notify : WorkerThread → WorkerThread
  | .running => .running
  | .asleep deadline _ => .asleep deadline true

/-- The thread may go on at clock reading `now`. -/
def WorkerThread.Woken (now : Ticks) : WorkerThread → Prop
  | .running => False
  | .asleep deadline notified => notified = true ∨ deadline ≤ now

instance (now : Ticks) : (thread : WorkerThread) → Decidable (thread.Woken now)
  | .running => isFalse id
  | .asleep deadline notified =>
      have : Decidable (deadline ≤ now) := WithTop.decidableLE deadline now
      inferInstanceAs (Decidable (notified = true ∨ deadline ≤ now))

structure Workers (P : Type) (m k : ℕ) where
  scheduler : QueueingLogicVN P m k
  threads : Fin m → WorkerThread := fun _ => .running
  clock : Ticks

/-- A call of the scheduler, which may be the scan of a running thread, or the
end of a sleep. -/
inductive Act (P : Type) (m : ℕ)
  | call (op : Op P m)
  | wake (w : Fin m) (now : Ticks)

namespace Workers

variable (cfg : Config m k) (st : Workers P m k)

def threadsAfter (threads : Fin m → WorkerThread) (call : Call P m k) : Fin m → WorkerThread :=
  match call.op, call.result with
  | .pushFront q _ _ _ _, .pushed true =>
      Function.update threads (cfg.mapToWorker q) (threads (cfg.mapToWorker q)).notify
  | .scan w _, .scanned outcome =>
      match outcome.deadline with
      | some deadline => Function.update threads w (.asleep deadline false)
      | none => threads
  | _, _ => threads

/-- Only a running thread scans. -/
def Ready : Op P m → Prop
  | .scan w _ => st.threads w = .running
  | _ => True

instance : (op : Op P m) → Decidable (st.Ready op)
  | .scan w _ => inferInstanceAs (Decidable (st.threads w = .running))
  | .pushFront .. | .setVnCapacity .. | .setQueueCapacity .. | .setCapacityForAll ..
  | .setRate .. | .setRateForAll .. => isTrue trivial

def step [IngressPacket P] : Act P m → Option (Workers P m k × List (Call P m k))
  | .call op =>
      if st.Ready op ∧ st.clock ≤ op.reading.getD st.clock then
        (st.scheduler.step cfg op).map fun (s, calls) =>
          ({ scheduler := s
             threads := calls.foldl (threadsAfter cfg) st.threads
             clock := op.reading.getD st.clock }, calls)
      else none
  | .wake w now =>
      if (st.threads w).Woken now ∧ st.clock ≤ now then
        some ({ st with threads := Function.update st.threads w .running, clock := now }, [])
      else none

def run [IngressPacket P] (acts : List (Act P m)) :
    Option (Workers P m k × List (Call P m k)) :=
  exec (fun st act => step cfg st act) st acts

def initial (capacity : ℕ) (clock : Ticks) : Workers P m k where
  scheduler := QueueingLogicVN.initial capacity
  clock := clock

/-- No thread sleeps through the release of a packet: where a scan would now or
later dequeue a packet, the deadline has come by then or the thread has been
notified. -/
def Prompt [IngressPacket P] : Prop :=
  ∀ w deadline, st.threads w = .asleep deadline false →
    ∀ now, st.clock ≤ now → ∀ s' q v qe log,
      st.scheduler.scan w now = some (s', .output q v qe, log) → deadline ≤ now

/-- Rate `bps` is a raise for a queue which holds packets and whose worker is
asleep and not notified. -/
def Raised (q bps : ℕ) : Prop :=
  ∃ lq deadline, st.scheduler.logicalQueuesInfo q = some lq ∧ lq.size ≠ 0 ∧
    lq.dequeueRateBps < bps ∧ st.threads (cfg.mapToWorker q) = .asleep deadline false

def Raises : Act P m → Prop
  | .call (.setRate q bps _) => st.Raised cfg q bps
  | .call (.setRateForAll bps) => ∃ q, st.Raised cfg q bps
  | _ => False

end Workers

def Act.PositiveRate : Act P m → Prop
  | .call (.setRate _ bps _) => 0 < bps
  | .call (.setRateForAll bps) => 0 < bps
  | _ => True

/-! ## One logical queue -/

/-- Events after which the head packet of the queue cannot leave earlier: no
packet joins or leaves, and a new rate is positive and, if there are packets, no
raise over `rate`. -/
def Event.Calm (rate : ℚ) (size : ℕ) : Event P k → Prop
  | .push _ _ _ accepted => accepted = false
  | .release .. => False
  | .setRate bps => 0 < bps ∧ (size ≠ 0 → (bps : ℚ) ≤ rate)
  | _ => True

/-- The event does not come later than `clock` and does not stop the queue. -/
def Event.Punctual (clock : Ticks) : Event P k → Prop
  | .create now => now ≤ clock
  | .release now _ _ => now ≤ clock
  | .setRate bps => 0 < bps
  | _ => True

theorem Event.ScannedAt.calm {e : Event P k} {now : Ticks} (he : e.ScannedAt now)
    (hreleased : e.released = none) (rate : ℚ) (size : ℕ) : e.Calm rate size := by
  cases e with
  | release => simp [Event.released] at hreleased
  | push => simp [Event.ScannedAt] at he
  | setRate => simp [Event.ScannedAt] at he
  | _ => trivial

theorem calm_of_quiet {events : List (Event P k)} {now : Ticks}
    (hat : ∀ e ∈ events, e.ScannedAt now) (hquiet : releases events = []) (rate : ℚ)
    (size : ℕ) : ∀ e ∈ events, e.Calm rate size := by
  intro e he
  exact (hat e he).calm (List.filterMap_eq_nil_iff.mp hquiet e he) rate size

theorem seconds_le_iff {t : Ticks} {r : ℚ} : r ≤ seconds t ↔ r * 10 ^ 9 ≤ t := by
  rw [seconds, le_div_iff₀ (by norm_num)]

theorem toTicks_eq_floor {r : ℚ} (hr : 0 ≤ r) : toTicks r = ⌊r * 10 ^ 9⌋ := by
  have hnum : 0 ≤ (r * 10 ^ 9).num := Rat.num_nonneg.mpr (by positivity)
  rw [toTicks, Int.tdiv_eq_ediv_of_nonneg hnum, Rat.floor_def']

theorem toTicks_le {r : ℚ} (hr : 0 ≤ r) : (toTicks r : ℚ) ≤ r * 10 ^ 9 := by
  rw [toTicks_eq_floor hr]
  exact Int.floor_le _

namespace Port

/-- The bucket of the queue is up to date with the clock and drains. -/
structure Timed (clock : Ticks) (p : Port P k) : Prop where
  LCT_le : p.info.LCT ≤ clock
  rate_pos : 0 < p.info.dequeueRateBps

/-- From `clock` on the queue lets no packet pass before `deadline`. -/
def ClosedUntil (clock : Ticks) (deadline : WithTop Ticks) (p : Port P k) : Prop :=
  p.info.size ≠ 0 → ∀ t, clock ≤ t → p.info.decayedLevel t ≤ p.info.tau → deadline ≤ t

variable [IngressPacket P] {p p' : Port P k} {e : Event P k} {events : List (Event P k)}
variable {clock : Ticks} {deadline : WithTop Ticks}

theorem size_step (hwf : p.WellFormed) (hstep : Step p e p') {rate : ℚ} {size : ℕ}
    (hcalm : e.Calm rate size) : p'.info.size = p.info.size := by
  cases hstep with
  | push v color item =>
      have hfull : p.full v = true := by simpa [Event.Calm] using hcalm
      rw [push_size, if_pos hfull, add_zero]
  | sweep now => simp [Port.sweep, LogicalQueueInfo.sweep_eq]
  | select _ _ hselect =>
      have hspec := p.info.selectVn_selected hwf.nodup hselect
      rw [hspec.result]
  | release => exact absurd hcalm (by simp [Event.Calm])
  | _ => rfl

/-- Calm events leave the bucket and the packets alone and do not raise the rate. -/
theorem calm_run (hwf : p.WellFormed) (hrun : Run Step p events p')
    (hcalm : ∀ e ∈ events, e.Calm p.info.dequeueRateBps p.info.size) :
    p'.bucket = p.bucket ∧ p'.info.tau = p.info.tau ∧ p'.info.size = p.info.size ∧
      (0 < p.info.dequeueRateBps → 0 < p'.info.dequeueRateBps) ∧
      (p.info.size ≠ 0 → p'.info.dequeueRateBps ≤ p.info.dequeueRateBps) := by
  induction hrun with
  | nil => exact ⟨rfl, rfl, rfl, id, fun _ => le_rfl⟩
  | @snoc events q q' e hbefore hstep ih =>
      obtain ⟨hbucket, htau, hsize, hpos, hle⟩ := ih fun e he =>
        hcalm e (List.mem_append_left _ he)
      have he := hcalm e (by simp)
      have hq := hwf.run hbefore
      obtain ⟨hbucket', htau', hrate'⟩ := bucket_step hq hstep
      have hreleased : e.released = none := by
        cases e with
        | release => exact absurd he (by simp [Event.Calm])
        | _ => rfl
      rw [hreleased] at hbucket'
      refine ⟨hbucket'.trans hbucket, htau'.trans htau, (size_step hq hstep he).trans hsize, ?_⟩
      cases hstep with
      | setRate bps => exact ⟨fun _ => Nat.cast_pos.mpr he.1, he.2⟩
      | _ =>
          rw [hrate' trivial]
          exact ⟨hpos, hle⟩

/-- The bucket, full to at least the same level, drains no faster. -/
theorem ClosedUntil.calm (hclosed : p.ClosedUntil clock deadline) (htimed : p.Timed clock)
    (hwf : p.WellFormed) (hrun : Run Step p events p')
    (hcalm : ∀ e ∈ events, e.Calm p.info.dequeueRateBps p.info.size) :
    p'.ClosedUntil clock deadline := by
  obtain ⟨hbucket, htau, hsize, -, hle⟩ := calm_run hwf hrun hcalm
  intro hsize' t ht hlevel
  rw [hsize] at hsize'
  apply hclosed hsize' t ht
  have helapsed : 0 ≤ seconds t - seconds p.info.LCT :=
    sub_nonneg.mpr (seconds_mono (htimed.LCT_le.trans ht))
  have hdrain := mul_le_mul_of_nonneg_left (hle hsize') helapsed
  rw [decayedLevel_eq, hbucket, htau] at hlevel
  rw [decayedLevel_eq]
  simp only [Bucket.decayed, bucket] at hlevel ⊢
  linarith

omit [IngressPacket P] in
theorem ClosedUntil.later {clock' : Ticks} (hclosed : p.ClosedUntil clock deadline)
    (hclock : clock ≤ clock') : p.ClosedUntil clock' deadline := fun hsize t ht =>
  hclosed hsize t (hclock.trans ht)

omit [IngressPacket P] in
theorem ClosedUntil.earlier {deadline' : WithTop Ticks} (hclosed : p.ClosedUntil clock deadline)
    (hdeadline : deadline' ≤ deadline) : p.ClosedUntil clock deadline' :=
  fun hsize t ht hlevel => hdeadline.trans (hclosed hsize t ht hlevel)

omit [IngressPacket P] in
/-- The wake time, rounded down to a tick, is not after the release of the head
packet. -/
theorem closedUntil_wakeTime {now : Ticks} (hrate : 0 < p.info.dequeueRateBps)
    (hblocked : p.info.tau < p.info.decayedLevel now) :
    p.ClosedUntil now (p.info.wakeTime now) := by
  intro _ t _ hlevel
  rw [LogicalQueueInfo.wakeTime, if_neg hrate.ne', WithTop.coe_le_coe]
  have hexcess : 0 ≤ (p.info.decayedLevel now - p.info.tau) / p.info.dequeueRateBps :=
    div_nonneg (sub_nonneg.mpr hblocked.le) hrate.le
  have hround := toTicks_le hexcess
  have hwait : (p.info.decayedLevel now - p.info.tau) / p.info.dequeueRateBps ≤
      seconds (t - now) := by
    rw [div_le_iff₀ hrate, seconds_sub]
    simp only [LogicalQueueInfo.decayedLevel, seconds_sub] at hlevel ⊢
    linarith
  have hticks := hround.trans (seconds_le_iff.mp hwait)
  have hcast : toTicks ((p.info.decayedLevel now - p.info.tau) / p.info.dequeueRateBps) ≤
      t - now := by
    exact_mod_cast hticks
  linarith

theorem timed_step (hwf : p.WellFormed) (hstep : Step p e p') (htimed : p.Timed clock)
    (he : e.Punctual clock) : p'.Timed clock := by
  obtain ⟨hbucket, -, hrate⟩ := bucket_step hwf hstep
  have hlast := congrArg Bucket.last hbucket
  have hLCT : e.released = none → p'.info.LCT = p.info.LCT := by
    intro hnone
    rw [hnone] at hlast
    have hseconds : seconds p'.info.LCT = seconds p.info.LCT := hlast
    simpa [seconds, div_left_inj'] using hseconds
  cases hstep with
  | release =>
      refine ⟨he, ?_⟩
      rw [hrate trivial]
      exact htimed.rate_pos
  | setRate bps => exact ⟨htimed.LCT_le, Nat.cast_pos.mpr he⟩
  | _ =>
      refine ⟨(hLCT rfl).trans_le htimed.LCT_le, ?_⟩
      rw [hrate trivial]
      exact htimed.rate_pos

theorem size_ne_zero_of_release (hwf : p.WellFormed) {now : Ticks} {v : Fin k} {qe : QE P}
    (hrun : Run Step p (events ++ [.release now v qe]) p')
    (hcalm : ∀ e ∈ events, e.Calm p.info.dequeueRateBps p.info.size) : p.info.size ≠ 0 := by
  obtain ⟨q, hbefore, hstep⟩ := hrun.of_concat
  obtain ⟨-, -, hsize, -⟩ := calm_run hwf hbefore hcalm
  have hq := hwf.run hbefore
  cases hstep with
  | release hpending =>
      have hv := hq.pending v hpending
      have hle := Finset.single_le_sum
        (fun i _ => Nat.zero_le (q.info.vnQueues i).size) (Finset.mem_univ v)
      have htotal := hq.total
      omega

section Slots

variable {weights : Fin k → ℤ} {o o' : Option (Port P k)}

theorem timed_life (hweights : ∀ v, 0 < weights v) (hrun : Run (Life weights) o events o')
    (hwf : ∀ p, o = some p → p.WellFormed) (htimed : ∀ p, o = some p → p.Timed clock)
    (hpunctual : ∀ e ∈ events, e.Punctual clock) : ∀ p, o' = some p → p.Timed clock := by
  induction hrun with
  | nil => exact htimed
  | @snoc events o₁ o₂ e hbefore hstep ih =>
      rintro p rfl
      have he := hpunctual e (by simp)
      cases hstep with
      | create capacity now =>
          refine ⟨he, ?_⟩
          norm_num [initial, LogicalQueueInfo.new, defaultDequeueRate]
      | live hstep =>
          have hwf₁ := Life.wellFormed_run hweights hbefore hwf
          have htimed₁ := ih fun e he => hpunctual e (List.mem_append_left _ he)
          exact timed_step (hwf₁ _ rfl) hstep (htimed₁ _ rfl) he

def slotRate (o : Option (Port P k)) : ℚ :=
  (o.map fun p => p.info.dequeueRateBps).getD defaultDequeueRate

def slotSize (o : Option (Port P k)) : ℕ := (o.map fun p => p.info.size).getD 0

/-- Calm events do not open a closed queue, and a new queue is empty. -/
theorem closedUntil_life (hweights : ∀ v, 0 < weights v)
    (hrun : Run (Life weights) o events (some p'))
    (hwf : ∀ p, o = some p → p.WellFormed) (htimed : ∀ p, o = some p → p.Timed clock)
    (hclosed : ∀ p, o = some p → p.ClosedUntil clock deadline)
    (hcalm : ∀ e ∈ events, e.Calm (slotRate o) (slotSize o)) :
    p'.ClosedUntil clock deadline := by
  cases o with
  | some p =>
      obtain ⟨q, heq, hsteps⟩ := Life.run_of_some hrun
      simp only [Option.some.injEq] at heq
      subst q
      exact (hclosed p rfl).calm (htimed p rfl) (hwf p rfl) hsteps hcalm
  | none =>
      obtain ⟨capacity, now, rest, rfl, hsteps⟩ := Life.created_of_run hrun
      have hinit := wellFormed_initial (P := P) capacity hweights now
      obtain ⟨-, -, hsize, -⟩ := calm_run hinit hsteps fun e he =>
        hcalm e (List.mem_cons_of_mem _ he)
      exact fun hne => absurd hsize hne

end Slots

omit [IngressPacket P] in
theorem wakeTime_congr (hbucket : p'.bucket = p.bucket) (htau : p'.info.tau = p.info.tau)
    (hrate : p'.info.dequeueRateBps = p.info.dequeueRateBps) (now : Ticks) :
    p'.info.wakeTime now = p.info.wakeTime now := by
  simp only [LogicalQueueInfo.wakeTime, decayedLevel_eq, hbucket, htau, hrate]

end Port

/-! ## The deadline of a scan -/

section Deadline

variable [IngressPacket P] {p : Port P k} {now : Ticks}

theorem visit_wakeTime (hsize : p.info.size ≠ 0) (hwf : p.WellFormed) {visit : Visit P k}
    (hvisit : p.info.visit now p.phys = some visit) (hserved : visit.served = none) :
    visit.wakeTime = p.info.wakeTime now := by
  have hvisited := visit_visited hsize hwf hvisit
  obtain ⟨hrun, hquiet, -⟩ := hvisited.deferred hserved
  have hkeeps : ∀ e ∈ visit.events, e.KeepsRate := fun e he =>
    (hvisited.scannedAt e he).keepsRate
  have hsame := Port.wakeTime_congr (Port.bucket_run_of_quiet hwf hrun hquiet)
    (Port.tau_run hwf hrun) (Port.bucket_run hwf hrun hkeeps).1 now
  have hreported : visit.wakeTime = visit.queue.wakeTime now := by
    unfold LogicalQueueInfo.visit at hvisit
    rcases Option.bind_eq_some_iff.mp hvisit with ⟨⟨sel, lq, events⟩, -, hrest⟩
    rcases Option.bind_eq_some_iff.mp hrest with ⟨head, -, houtcome⟩
    split at houtcome
    next =>
      simp only [Option.some.injEq] at houtcome
      rw [← houtcome]
    next =>
      simp only [Option.some.injEq] at houtcome
      rw [← houtcome] at hserved
      simp at hserved
  exact hreported.trans hsame

/-- The scan loop sleeps no longer than any non-empty candidate asks for. -/
theorem scanLoop_wakeTime {wInfo : WorkerInfo P k} {cs : List ℕ}
    {queues : ℕ → Option (LogicalQueueInfo k)}
    (hwf : ∀ q p, wInfo.port queues q = some p → p.WellFormed)
    {scanned : ScanState P k} (hscan : wInfo.scanLoop now cs queues = some scanned)
    (hselected : scanned.selected = none) {c : ℕ} (hc : c ∈ cs) {q : ℕ}
    {lq : LogicalQueueInfo k}
    (hq : wInfo.logicalQueueIds[(wInfo.workerRrPtr + c) % wInfo.logicalQueueIds.length]? =
      some q)
    (hlq : queues q = some lq) (hsize : lq.size ≠ 0) :
    scanned.nextWakeUpTime ≤ lq.wakeTime now := by
  induction cs generalizing queues scanned lq with
  | nil => simp at hc
  | cons c' cs ih =>
      cases wInfo.scanLoop_cons now hscan with
      | empty hid hlq' hempty hloop =>
          cases List.mem_cons.mp hc with
          | inl heq =>
              subst c'
              rw [hid, Option.some.injEq] at hq
              subst q
              rw [hlq, Option.some.injEq] at hlq'
              subst hlq'
              exact absurd hempty hsize
          | inr hmem => exact ih hwf hloop hselected hmem hlq hsize
      | served => simp at hselected
      | @deferred qid p visit rest hid hport hsize' hvisit hserved hloop =>
          have hp := hwf qid p hport
          have hreported := visit_wakeTime hsize' hp hvisit hserved
          have hlater := WorkerInfo.port_update_wellFormed hwf hport
            (visit_visited hsize' hp hvisit) hserved
          by_cases hqq : q = qid
          · subst q
            have hinfo := (wInfo.port_eq_some.mp hport).1
            rw [hlq, Option.some.injEq] at hinfo
            subst lq
            exact (min_le_left _ _).trans_eq hreported
          · have hmem : c ∈ cs := by
              cases List.mem_cons.mp hc with
              | inl heq =>
                  subst c'
                  rw [hid, Option.some.injEq] at hq
                  exact absurd hq.symm hqq
              | inr hmem => exact hmem
            refine (min_le_right _ _).trans (ih hlater hloop hselected hmem ?_ hsize)
            rwa [Function.update_of_ne hqq]

end Deadline

namespace QueueingLogicVN

variable [IngressPacket P] {cfg : Config m k} {s s' : QueueingLogicVN P m k}
variable {q : ℕ} {p : Port P k} {now : Ticks}

/-- No queue of the worker opens before the deadline with which a scan ends. -/
theorem closedUntil_of_scan (hcoh : s.Coherent cfg)
    (hwf : ∀ q p, s.port cfg q = some p → p.WellFormed) {outcome : ScanOutcome P k}
    {log : Log P k} (hscan : s.scan (cfg.mapToWorker q) now = some (s', outcome, log))
    {deadline : WithTop Ticks} (hdeadline : outcome.deadline = some deadline)
    (hport : s.port cfg q = some p) (hrate : 0 < p.info.dequeueRateBps) :
    p.ClosedUntil now deadline := by
  intro hsize
  have hspec := scan_spec hcoh hwf hscan
  have hnone : ∀ qid v qe, outcome ≠ .output qid v qe := by
    rintro qid v qe rfl
    simp [ScanOutcome.deadline] at hdeadline
  have hdefer := (hspec.waited hnone).2 q p rfl hport hsize
  have hblocked := (hspec.defer_iff hport (hwf q p hport) ⟨_, hdefer, trivial⟩).mp hdefer
  refine (Port.closedUntil_wakeTime hrate hblocked).earlier ?_ hsize
  cases scan_cases hscan with
  | idle hworker => exact absurd (size_eq_zero_of_worker hcoh hport hworker) hsize
  | waited _ hloop hselected =>
      simp only [ScanOutcome.deadline, Option.some.injEq] at hdeadline
      rw [← hdeadline]
      obtain ⟨c, hc, hq⟩ := exists_candidate hcoh hport
      exact scanLoop_wakeTime (fun q p hp => hwf q p (port_of_worker hcoh hp).2) hloop
        hselected hc hq (port_eq_some.mp hport).1 hsize
  | output => exact absurd rfl (hnone _ _ _)

end QueueingLogicVN

/-! ## The invariant -/

namespace Workers

variable [IngressPacket P] {cfg : Config m k} {st st' : Workers P m k}

structure Inv (cfg : Config m k) (st : Workers P m k) : Prop where
  coherent : st.scheduler.Coherent cfg
  wellFormed : ∀ q p, st.scheduler.port cfg q = some p → p.WellFormed
  timed : ∀ q p, st.scheduler.port cfg q = some p → p.Timed st.clock
  closed : ∀ q p deadline, st.scheduler.port cfg q = some p →
    st.threads (cfg.mapToWorker q) = .asleep deadline false → p.ClosedUntil st.clock deadline

omit [IngressPacket P] in
theorem inv_initial (capacity : ℕ) (clock : Ticks) :
    (initial capacity clock : Workers P m k).Inv cfg where
  coherent := QueueingLogicVN.coherent_initial capacity
  wellFormed := by simp [initial]
  timed := by simp [initial]
  closed := by simp [initial]

theorem Inv.prompt (hinv : st.Inv cfg) : st.Prompt := by
  intro w deadline hthread now hnow s' q v qe log hscan
  have hspec := QueueingLogicVN.scan_spec hinv.coherent hinv.wellFormed hscan
  obtain ⟨rfl, ⟨before, hlog, hquiet⟩, -⟩ := hspec.output q v qe rfl
  have hlife := hspec.advances.life q
  cases hport : st.scheduler.port cfg q with
  | none =>
      simp [hspec.log_eq_nil hport] at hlog
  | some p =>
      rw [hport] at hlife
      obtain ⟨p', -, hsteps⟩ := Port.Life.run_of_some hlife
      have hwf := hinv.wellFormed q p hport
      have hopen := (Port.attempt_level hwf hsteps
        (fun e he => (hspec.scannedAt q e he).keepsRate) hlog hquiet).2 v qe rfl
      have hat : ∀ e ∈ before, e.ScannedAt now := fun e he =>
        hspec.scannedAt q e (by simp [hlog, he])
      have hsize := Port.size_ne_zero_of_release hwf (hlog ▸ hsteps)
        (calm_of_quiet hat hquiet _ _)
      exact hinv.closed q p deadline hport hthread hsize now hnow hopen

section Call

variable {s' : QueueingLogicVN P m k} {call : Call P m k} {clock : Ticks}

/-- A call leads on from the invariant if it leaves every queue of a sleeping
worker closed. -/
theorem Inv.advance (hinv : st.Inv cfg) (hclock : st.clock ≤ clock)
    (hadvances : QueueingLogicVN.Advances cfg st.scheduler s' call.log)
    (hpunctual : ∀ q, ∀ e ∈ logOf q call.log, e.Punctual clock)
    {threads : Fin m → WorkerThread}
    (hcalm : ∀ q deadline, threads (cfg.mapToWorker q) = .asleep deadline false →
      (∀ e ∈ logOf q call.log, e.Calm (Port.slotRate (st.scheduler.port cfg q))
        (Port.slotSize (st.scheduler.port cfg q))) ∧
      ∀ p, st.scheduler.port cfg q = some p → p.ClosedUntil clock deadline) :
    Inv cfg { scheduler := s', threads := threads, clock := clock } := by
  have htimed : ∀ q p, st.scheduler.port cfg q = some p → p.Timed clock := fun q p hport =>
    ⟨(hinv.timed q p hport).LCT_le.trans hclock, (hinv.timed q p hport).rate_pos⟩
  refine ⟨hadvances.coherent, hadvances.wellFormed hinv.wellFormed, ?_, ?_⟩
  · intro q
    exact Port.timed_life cfg.vnWeights_pos (hadvances.life q) (hinv.wellFormed q) (htimed q)
      (hpunctual q)
  · intro q p deadline hport hthread
    obtain ⟨hevents, hclosed⟩ := hcalm q deadline hthread
    have hlife := hadvances.life q
    rw [hport] at hlife
    exact Port.closedUntil_life cfg.vnWeights_pos hlife (hinv.wellFormed q) (htimed q) hclosed
      hevents

omit [IngressPacket P] in
/-- A queue of a worker which slept before stays closed as time passes. -/
theorem Inv.closed_later (hinv : st.Inv cfg) (hclock : st.clock ≤ clock) {q : ℕ}
    {deadline : WithTop Ticks}
    (hthread : st.threads (cfg.mapToWorker q) = .asleep deadline false) :
    ∀ p, st.scheduler.port cfg q = some p → p.ClosedUntil clock deadline := fun p hport =>
  (hinv.closed q p deadline hport hthread).later hclock

theorem punctual_of_spec (hinv : st.Inv cfg)
    (hstep : st.scheduler.step cfg call.op = some (s', [call]))
    (hspec : QueueingLogicVN.StepSpec cfg st.scheduler s' call)
    (hrates : (Act.call call.op).PositiveRate) (q : ℕ) :
    ∀ e ∈ logOf q call.log, e.Punctual (call.op.reading.getD st.clock) := by
  intro e he
  cases e with
  | create now =>
      rw [hspec.time he rfl]
      exact le_rfl
  | release now v qe =>
      rw [hspec.time he rfl]
      exact le_rfl
  | setRate bps =>
      have hmem : (q, .setRate bps) ∈ [call].flatMap Call.log := by
        rw [List.flatMap_singleton]
        exact QueueingLogicVN.mem_logOf.mp he
      cases QueueingLogicVN.setRate_of_step hinv.coherent hinv.wellFormed hstep hmem with
      | inl hone =>
          obtain ⟨now, hop⟩ := hone
          rw [hop] at hrates
          exact hrates
      | inr hall =>
          rw [hall] at hrates
          exact hrates
  | _ => trivial

omit [IngressPacket P] in
theorem calm_setRate {q bps : ℕ} {deadline : WithTop Ticks} (hbps : 0 < bps)
    (hraised : ¬ st.Raised cfg q bps)
    (hthread : st.threads (cfg.mapToWorker q) = .asleep deadline false) :
    (Event.setRate bps : Event P k).Calm (Port.slotRate (st.scheduler.port cfg q))
      (Port.slotSize (st.scheduler.port cfg q)) := by
  refine ⟨hbps, fun hsize => ?_⟩
  cases hport : st.scheduler.port cfg q with
  | none => simp [Port.slotSize, hport] at hsize
  | some p =>
      rw [hport] at hsize
      by_contra hlt
      exact hraised ⟨p.info, deadline, (QueueingLogicVN.port_eq_some.mp hport).1, hsize,
        not_le.mp hlt, hthread⟩

omit [IngressPacket P] in
theorem Inv.pushFront (hinv : st.Inv cfg) {q vn color : ℕ} {item : Option P} {now : Ticks}
    {accepted : Bool} {v : Fin k} (hclock : st.clock ≤ clock) {i : ℕ} {deadline : WithTop Ticks}
    (hthread : threadsAfter cfg st.threads
      ⟨.pushFront q vn color item now, .pushed accepted,
        st.scheduler.creation q now ++ [(q, .push v color item accepted)]⟩
      (cfg.mapToWorker i) = .asleep deadline false) (rate : ℚ) (size : ℕ) :
    (∀ e ∈ logOf i (st.scheduler.creation q now ++ [(q, .push v color item accepted)]),
        e.Calm rate size) ∧
      ∀ p, st.scheduler.port cfg i = some p → p.ClosedUntil clock deadline := by
  have hcreation : ∀ e, (i, e) ∈ st.scheduler.creation q now → e.Calm rate size := by
    intro e he
    have hcontrol := QueueingLogicVN.creation_control q now _ he
    cases e with
    | setRate => exact absurd he (QueueingLogicVN.setRate_notMem_creation _ _ _ _)
    | push => exact absurd hcontrol (by simp [Event.Control])
    | release => exact absurd hcontrol (by simp [Event.Control])
    | _ => trivial
  cases accepted with
  | false =>
      refine ⟨?_, hinv.closed_later hclock hthread⟩
      intro e he
      cases List.mem_append.mp (QueueingLogicVN.mem_logOf.mp he) with
      | inl hmem => exact hcreation e hmem
      | inr hlast =>
          simp only [List.mem_singleton, Prod.mk.injEq] at hlast
          rw [hlast.2]
          rfl
  | true =>
      simp only [threadsAfter] at hthread
      by_cases hw : cfg.mapToWorker i = cfg.mapToWorker q
      · rw [hw, Function.update_self] at hthread
        cases hbefore : st.threads (cfg.mapToWorker q) with
        | running => simp [hbefore, WorkerThread.notify] at hthread
        | asleep => simp [hbefore, WorkerThread.notify] at hthread
      · rw [Function.update_of_ne hw] at hthread
        refine ⟨?_, hinv.closed_later hclock hthread⟩
        intro e he
        cases List.mem_append.mp (QueueingLogicVN.mem_logOf.mp he) with
        | inl hmem => exact hcreation e hmem
        | inr hlast =>
            simp only [List.mem_singleton, Prod.mk.injEq] at hlast
            exact absurd (by rw [hlast.1]) hw

theorem Inv.scan (hinv : st.Inv cfg) {w : Fin m} {now : Ticks} {outcome : ScanOutcome P k}
    {log : Log P k} (hready : st.threads w = .running) (hclock : st.clock ≤ now)
    (hscan : st.scheduler.scan w now = some (s', outcome, log)) {q : ℕ}
    {deadline : WithTop Ticks}
    (hthread : threadsAfter cfg st.threads ⟨.scan w now, .scanned outcome, log⟩
      (cfg.mapToWorker q) = .asleep deadline false) (rate : ℚ) (size : ℕ) :
    (∀ e ∈ logOf q log, e.Calm rate size) ∧
      ∀ p, st.scheduler.port cfg q = some p → p.ClosedUntil now deadline := by
  have hspec := QueueingLogicVN.scan_spec hinv.coherent hinv.wellFormed hscan
  simp only [threadsAfter] at hthread
  by_cases hw : cfg.mapToWorker q = w
  · -- the scan has just ended the thread's turn with this deadline
    subst w
    cases hdeadline : outcome.deadline with
    | none => simp [hdeadline, hready] at hthread
    | some deadline' =>
        rw [hdeadline] at hthread
        simp only [Function.update_self, WorkerThread.asleep.injEq, and_true] at hthread
        subst deadline'
        have hnone : ∀ qid v qe, outcome ≠ .output qid v qe := by
          rintro qid v qe rfl
          simp [ScanOutcome.deadline] at hdeadline
        refine ⟨calm_of_quiet (hspec.scannedAt q) ((hspec.waited hnone).1 q) rate size, ?_⟩
        intro p hport
        exact QueueingLogicVN.closedUntil_of_scan hinv.coherent hinv.wellFormed hscan hdeadline
          hport (hinv.timed q p hport).rate_pos
  · have hbefore : st.threads (cfg.mapToWorker q) = .asleep deadline false := by
      cases hdeadline : outcome.deadline with
      | none => rwa [hdeadline] at hthread
      | some deadline' =>
          rw [hdeadline] at hthread
          simpa [Function.update_of_ne hw] using hthread
    have hquiet : releases (logOf q log) = [] := by
      cases outcome with
      | output qid v qe =>
          obtain ⟨hqid, -, hothers⟩ := hspec.output qid v qe rfl
          exact hothers q fun heq => hw (heq ▸ hqid)
      | wait => exact (hspec.waited (by simp)).1 q
      | waitUntil => exact (hspec.waited (by simp)).1 q
    exact ⟨calm_of_quiet (hspec.scannedAt q) hquiet rate size,
      hinv.closed_later hclock hbefore⟩

theorem Inv.setter (hinv : st.Inv cfg)
    (hcontrol : ∀ entry ∈ call.log, entry.2.Control call.op.reading)
    (hstep : st.scheduler.step cfg call.op = some (s', [call]))
    (hrates : (Act.call call.op).PositiveRate) (hraises : ¬ st.Raises cfg (.call call.op))
    {q : ℕ} {deadline : WithTop Ticks}
    (hthread : st.threads (cfg.mapToWorker q) = .asleep deadline false) :
    ∀ e ∈ logOf q call.log, e.Calm (Port.slotRate (st.scheduler.port cfg q))
      (Port.slotSize (st.scheduler.port cfg q)) := by
  intro e he
  have hmem := QueueingLogicVN.mem_logOf.mp he
  have hallowed := hcontrol _ hmem
  cases e with
  | setRate bps =>
      rw [← List.flatMap_singleton Call.log call] at hmem
      cases QueueingLogicVN.setRate_of_step hinv.coherent hinv.wellFormed hstep hmem with
      | inl hone =>
          obtain ⟨now, hop⟩ := hone
          rw [hop] at hrates hraises
          exact calm_setRate hrates hraises hthread
      | inr hall =>
          rw [hall] at hrates hraises
          exact calm_setRate hrates (fun hraised => hraises ⟨q, hraised⟩) hthread
  | push => exact absurd hallowed (by simp [Event.Control])
  | release => exact absurd hallowed (by simp [Event.Control])
  | _ => trivial

end Call

theorem Inv.step (hinv : st.Inv cfg) {act : Act P m} {calls : List (Call P m k)}
    (hrates : act.PositiveRate) (hraises : ¬ st.Raises cfg act)
    (hstep : st.step cfg act = some (st', calls)) : st'.Inv cfg := by
  cases act with
  | wake w now =>
      simp only [Workers.step] at hstep
      split at hstep
      next hwoken =>
        simp only [Option.some.injEq, Prod.mk.injEq] at hstep
        obtain ⟨rfl, -⟩ := hstep
        refine ⟨hinv.coherent, hinv.wellFormed, ?_, ?_⟩
        · intro q p hport
          have htimed := hinv.timed q p hport
          exact ⟨htimed.LCT_le.trans hwoken.2, htimed.rate_pos⟩
        · intro q p deadline hport hthread
          by_cases hw : cfg.mapToWorker q = w
          · simp [hw] at hthread
          · simp only [Function.update_of_ne hw] at hthread
            exact hinv.closed_later hwoken.2 hthread p hport
      next => simp at hstep
  | call op =>
      simp only [Workers.step] at hstep
      split at hstep
      next hguard =>
        obtain ⟨⟨s', calls'⟩, hcall, heq⟩ := Option.map_eq_some_iff.mp hstep
        simp only [Prod.mk.injEq] at heq
        obtain ⟨rfl, rfl⟩ := heq
        obtain ⟨call, rfl, rfl, hadvances, hspec⟩ :=
          QueueingLogicVN.step_spec hinv.coherent hinv.wellFormed hcall
        refine hinv.advance hguard.2 hadvances (punctual_of_spec hinv hcall hspec hrates) ?_
        intro q deadline hthread
        simp only [List.foldl_cons, List.foldl_nil] at hthread
        cases hspec with
        | pushFront v hv hpush => exact hinv.pushFront hguard.2 hthread _ _
        | @scan w now outcome log hscan =>
            have hrun := QueueingLogicVN.scan_of_step hcall
            exact hinv.scan hguard.1 hguard.2 hrun hthread _ _
        | @setter op log hsetter hcontrol =>
            have hsame : threadsAfter cfg st.threads ⟨op, .done, log⟩ = st.threads := by
              cases op <;> rfl
            rw [hsame] at hthread
            exact ⟨hinv.setter hcontrol hcall hrates hraises hthread,
              hinv.closed_later hguard.2 hthread⟩
      next => simp at hstep

/-! ## Runs -/

/-- No rate setter of the run raises the rate of a queue with packets whose
worker is asleep and not notified. -/
def NeverRaises (cfg : Config m k) (capacity : ℕ) (clock : Ticks) (acts : List (Act P m)) :
    Prop :=
  ∀ before act after st calls, acts = before ++ act :: after →
    run cfg (initial capacity clock) before = some (st, calls) → ¬ st.Raises cfg act

section Runs

variable {capacity : ℕ} {clock : Ticks} {acts : List (Act P m)} {calls : List (Call P m k)}

theorem inv_run (hrates : ∀ act ∈ acts, act.PositiveRate)
    (hraises : NeverRaises cfg capacity clock acts)
    (hrun : run cfg (initial capacity clock) acts = some (st, calls)) : st.Inv cfg := by
  have heach : ExecEach (fun st act => step cfg st act) (initial capacity clock)
      (fun st act => act.PositiveRate ∧ ¬ st.Raises cfg act) acts := by
    intro before act after st calls hsplit hbefore
    exact ⟨hrates act (by simp [hsplit]), hraises before act after st calls hsplit hbefore⟩
  refine heach.invariant (I := fun st => st.Inv cfg) (inv_initial capacity clock) ?_ hrun
  intro st act st' calls hinv hact hstep
  exact hinv.step hact.1 hact.2 hstep

/-- Over every interleaving of pushes, setters and worker steps in which no rate
setter raises the rate of a queue of a sleeping worker, no thread sleeps through
the release of a packet. -/
theorem no_missed_wake_up (hrates : ∀ act ∈ acts, act.PositiveRate)
    (hraises : NeverRaises cfg capacity clock acts)
    (hrun : run cfg (initial capacity clock) acts = some (st, calls)) : st.Prompt :=
  (inv_run hrates hraises hrun).prompt

end Runs

/-! ## The sixth packet, and a higher rate -/

/-- Five packets of 1514 bytes leave at once, the sixth puts the worker to
sleep. -/
def burstActs : List (Act ℕ 1) :=
  List.replicate 6 (.call (.pushFront 0 0 1 (some 1514) 1)) ++
    List.replicate 6 (.call (.scan (Fin.last 0) 2))

theorem no_missed_wake_up_burst :
    ∃ st calls, run Config.single (initial 64 0) burstActs = some (st, calls) ∧
      st.threads 0 = .asleep (1211202 : Ticks) false ∧ st.Prompt := by
  have heval : ((run Config.single (initial 64 0) burstActs).bind fun result =>
      some (result.1.threads 0)) = some (.asleep (1211202 : Ticks) false) := by
    decide +kernel
  obtain ⟨⟨st, calls⟩, hrun, hthread⟩ := Option.bind_eq_some_iff.mp heval
  have hmem : ∀ act ∈ burstActs, act.PositiveRate ∧ ∀ st : Workers ℕ 1 1,
      ¬ st.Raises Config.single act := by
    intro act hact
    simp only [burstActs, List.mem_append, List.mem_replicate] at hact
    rcases hact with ⟨-, rfl⟩ | ⟨-, rfl⟩
    · exact ⟨trivial, fun _ => id⟩
    · exact ⟨trivial, fun _ => id⟩
  refine ⟨st, calls, hrun, Option.some.inj hthread,
    no_missed_wake_up (fun act hact => (hmem act hact).1) ?_ hrun⟩
  intro before act after st calls hsplit _
  exact (hmem act (by simp [hsplit])).2 st

/-- The rate is raised to 1 Gbit/s while the worker sleeps: the sixth packet may
leave 100 microseconds later, but the worker sleeps for more than a millisecond. -/
theorem not_no_missed_wake_up :
    ¬ ∀ (cfg : Config 1 1) (capacity : ℕ) (clock : Ticks) (acts : List (Act ℕ 1))
      (st : Workers ℕ 1 1) (calls : List (Call ℕ 1 1)),
      (∀ act ∈ acts, act.PositiveRate) →
        run cfg (initial capacity clock) acts = some (st, calls) → st.Prompt := by
  intro hall
  have heval : ((run Config.single (initial 64 0)
      (burstActs ++ [.call (.setRate 0 1000000000 3)])).bind fun result =>
        (result.1.scheduler.scan 0 100000).bind fun scanned =>
          scanned.2.1.packet.map fun packet => (result.1.threads 0, result.1.clock, packet)) =
      some (.asleep (1211202 : Ticks) false, 3, 0, 0, ⟨some 1514, 1, 1514⟩) := by
    decide +kernel
  obtain ⟨⟨st, calls⟩, hrun, hrest⟩ := Option.bind_eq_some_iff.mp heval
  obtain ⟨⟨s', outcome, log⟩, hscan, houtcome⟩ := Option.bind_eq_some_iff.mp hrest
  have hrates : ∀ act ∈ burstActs ++ [.call (.setRate 0 1000000000 3)], act.PositiveRate := by
    intro act hact
    simp only [burstActs, List.mem_append, List.mem_replicate, List.mem_singleton] at hact
    rcases hact with (⟨-, rfl⟩ | ⟨-, rfl⟩) | rfl
    · trivial
    · trivial
    · norm_num [Act.PositiveRate]
  have hprompt := hall Config.single 64 0 _ st calls hrates hrun
  cases outcome with
  | output q v qe =>
      simp only [ScanOutcome.packet, Option.map_some, Option.some.injEq, Prod.mk.injEq]
        at houtcome
      obtain ⟨hthread, hclock, rfl, rfl, rfl⟩ := houtcome
      have hle := hprompt 0 _ hthread 100000 (by rw [hclock]; decide) s' 0 0 _ log hscan
      exact absurd hle (by decide)
  | wait => simp [ScanOutcome.packet] at houtcome
  | waitUntil => simp [ScanOutcome.packet] at houtcome

end Workers

end Cmcs
