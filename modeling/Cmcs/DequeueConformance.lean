import Cmcs.LeakyBucket
import Cmcs.QueueingRun
import Mathlib.Tactic

/-!
# Conformance law of the dequeue leaky bucket

The bucket of a logical queue is a leaky bucket whose arrivals are the packets
which the queue releases.  At a constant rate its stored level and time are
those of the library's bucket filled with all dequeues so far, so the library's
window law says when a scan defers the queue.
-/

namespace Cmcs

open LeakyBucket TransitionSystem

variable {P : Type} {m k : ℕ}

/-- A dequeue as an arrival at the bucket, in seconds and bits. -/
def dequeueArrival (d : Ticks × Fin k × QE P) : Arrival ℚ where
  time := seconds d.1
  volume := d.2.2.pktSize * 8

def bitsOf (dequeues : List (Ticks × Fin k × QE P)) : ℚ :=
  (dequeues.map fun d => (d.2.2.pktSize : ℚ) * 8).sum

theorem volume_map_dequeueArrival (dequeues : List (Ticks × Fin k × QE P)) :
    volume (dequeues.map dequeueArrival) = bitsOf dequeues := by
  simp [volume, bitsOf, dequeueArrival, Function.comp_def]

theorem seconds_sub (t u : Ticks) : seconds (t - u) = seconds t - seconds u := by
  simp only [seconds, Int.cast_sub]
  ring

theorem seconds_mono {t u : Ticks} (htu : t ≤ u) : seconds t ≤ seconds u := by
  unfold seconds
  have hcast : (t : ℚ) ≤ u := by exact_mod_cast htu
  linarith

def Event.KeepsRate : Event P k → Prop
  | .setRate _ => False
  | _ => True

namespace Port

def bucket (p : Port P k) : Bucket ℚ where
  level := p.info.X
  last := seconds p.info.LCT

theorem decayedLevel_eq (p : Port P k) (now : Ticks) :
    p.info.decayedLevel now = p.bucket.decayed p.info.dequeueRateBps (seconds now) := by
  simp only [LogicalQueueInfo.decayedLevel, Bucket.decayed, bucket, seconds_sub]
  ring

variable [IngressPacket P] {p p' : Port P k} {e : Event P k} {events : List (Event P k)}

/-- A step touches the bucket only by a release, its ceiling never, and the rate
only by the setter. -/
theorem bucket_step (hwf : p.WellFormed) (hstep : Step p e p') :
    p'.bucket =
        p.bucket.fill p.info.dequeueRateBps (e.released.toList.map dequeueArrival) ∧
      p'.info.tau = p.info.tau ∧
      (e.KeepsRate → p'.info.dequeueRateBps = p.info.dequeueRateBps) := by
  cases hstep with
  | push v color item =>
      unfold Port.push bucket
      cases hfull : p.full v <;>
        simp [Event.released, LogicalQueueInfo.accrue_eq, LogicalQueueInfo.accept_eq]
  | sweep now => simp [Port.sweep, LogicalQueueInfo.sweep_eq, bucket, Event.released]
  | select _ _ hselect =>
      have hspec := p.info.selectVn_selected hwf.nodup hselect
      rw [hspec.result]
      simp [bucket, Event.released]
  | defer => simp [Event.released]
  | @release now v qe _ _ =>
      have hlevel := congrArg (max 0) (p.decayedLevel_eq now)
      simpa [Port.release, LogicalQueueInfo.depart_eq, LogicalQueueInfo.conform, bucket,
        Event.released, dequeueArrival, Bucket.fill, Bucket.pour] using hlevel
  | setVnCapacity => simp [bucket, Event.released, LogicalQueueInfo.modifyVn]
  | setQueueCapacity => simp [bucket, Event.released, LogicalQueueInfo.setCapacities]
  | setRate => simp [bucket, Event.released, Event.KeepsRate]

theorem tau_run (hwf : p.WellFormed) (hrun : Run Step p events p') :
    p'.info.tau = p.info.tau := by
  induction hrun with
  | nil => rfl
  | snoc hbefore hstep ih => rw [(bucket_step (hwf.run hbefore) hstep).2.1, ih]

theorem bucket_run (hwf : p.WellFormed) (hrun : Run Step p events p')
    (hkeeps : ∀ e ∈ events, e.KeepsRate) :
    p'.info.dequeueRateBps = p.info.dequeueRateBps ∧
      p'.bucket =
        p.bucket.fill p.info.dequeueRateBps ((releases events).map dequeueArrival) := by
  induction hrun with
  | nil => exact ⟨rfl, rfl⟩
  | @snoc events q q' e hbefore hstep ih =>
      obtain ⟨hrate, hbucket⟩ := ih fun e he => hkeeps e (List.mem_append_left _ he)
      have hq := hwf.run hbefore
      constructor
      · rw [(bucket_step hq hstep).2.2 (hkeeps e (by simp)), hrate]
      · rw [(bucket_step hq hstep).1, hrate, hbucket, releases_append, releases_singleton,
          List.map_append]
        simp [Bucket.fill]

theorem bucket_run_of_quiet (hwf : p.WellFormed) (hrun : Run Step p events p')
    (hquiet : releases events = []) : p'.bucket = p.bucket := by
  induction hrun with
  | nil => rfl
  | @snoc events q q' e hbefore hstep ih =>
      rw [releases_append, releases_singleton, List.append_eq_nil_iff] at hquiet
      rw [(bucket_step (hwf.run hbefore) hstep).1, hquiet.2, ih hquiet.1]
      rfl

theorem attempt_level (hwf : p.WellFormed) (hrun : Run Step p events p')
    (hkeeps : ∀ e ∈ events, e.KeepsRate) {before after : List (Event P k)}
    (hsplit : events = before ++ e :: after) (hquiet : releases before = []) {now : Ticks} :
    (e = .defer now → p.info.tau < p.info.decayedLevel now) ∧
      ∀ v qe, e = .release now v qe → p.info.decayedLevel now ≤ p.info.tau := by
  subst events
  obtain ⟨q, hbefore, hrest⟩ := hrun.of_append
  obtain ⟨q', hstep, -⟩ := hrest.of_cons
  have hkeeps' : ∀ e ∈ before, e.KeepsRate := fun e he =>
    hkeeps e (List.mem_append_left _ he)
  have hrate := (bucket_run hwf hbefore hkeeps').1
  have hbucket := bucket_run_of_quiet hwf hbefore hquiet
  have htau := tau_run hwf hbefore
  have hlevel : q.info.decayedLevel now = p.info.decayedLevel now := by
    rw [decayedLevel_eq, decayedLevel_eq, hbucket, hrate]
  constructor
  · intro he
    subst e
    cases hstep with
    | defer _ hdefer =>
        rw [← hlevel, ← htau]
        exact hdefer
  · intro v qe he
    subst e
    cases hstep with
    | release _ _ hrelease =>
        rw [← hlevel, ← htau]
        exact hrelease

end Port

def Event.IsAttempt : Event P k → Prop
  | .defer _ => True
  | .release .. => True
  | _ => False

def Attempted (q : ℕ) (log : Log P k) : Prop := ∃ e ∈ logOf q log, e.IsAttempt

theorem Event.ScannedAt.keepsRate {e : Event P k} {now : Ticks} (he : e.ScannedAt now) :
    e.KeepsRate := by
  cases e with
  | setRate => exact absurd he (by simp [Event.ScannedAt])
  | _ => trivial

theorem Event.ScannedAt.attempt {e : Event P k} {now : Ticks} (he : e.ScannedAt now)
    (hattempt : e.IsAttempt) : e = .defer now ∨ ∃ v qe, e = .release now v qe := by
  cases e with
  | defer t =>
      simp only [Event.ScannedAt] at he
      exact Or.inl (by rw [he])
  | release t v qe =>
      simp only [Event.ScannedAt] at he
      exact Or.inr ⟨v, qe, by rw [he]⟩
  | _ => exact absurd hattempt (by simp [Event.IsAttempt])

namespace QueueingLogicVN

variable [IngressPacket P] {cfg : Config m k} {s s' : QueueingLogicVN P m k}
variable {capacity : ℕ} {ops : List (Op P m)} {history : List (Call P m k)}
variable {q : ℕ} {r : ℚ}

/-- In every state of the run in which `q` is registered its rate is `r`. -/
def ConstantRate (cfg : Config m k) (capacity : ℕ) (ops : List (Op P m)) (q : ℕ) (r : ℚ) :
    Prop :=
  ∀ before after s history, ops = before ++ after →
    run cfg (initial capacity) before = some (s, history) →
      ∀ lq, s.logicalQueuesInfo q = some lq → lq.dequeueRateBps = r

/-- A scan's log shows at most one release of a queue, and shows it last. -/
theorem ScanSpec.quiet_before {w : Fin m} {now : Ticks} {outcome : ScanOutcome P k}
    {log : Log P k} (hscan : ScanSpec cfg s s' w now outcome log) {e : Event P k}
    {before after : List (Event P k)} (hsplit : logOf q log = before ++ e :: after) :
    releases before = [] := by
  have hprefix : ∀ first : List (Event P k),
      releases (before ++ first) = [] → releases before = [] := by
    intro first hnil
    rw [releases_append, List.append_eq_nil_iff] at hnil
    exact hnil.1
  by_cases houtput : ∃ v qe, outcome = .output q v qe
  · obtain ⟨v, qe, houtput⟩ := houtput
    obtain ⟨-, ⟨quiet, hlog, hquiet⟩, -⟩ := hscan.output q v qe houtput
    rw [hlog] at hsplit
    rcases List.eq_nil_or_concat after with hnil | ⟨after', last, hafter⟩
    · subst after
      rw [← (List.append_inj' hsplit rfl).1]
      exact hquiet
    · subst after
      rw [List.concat_eq_append, ← List.cons_append, ← List.append_assoc] at hsplit
      rw [(List.append_inj' hsplit rfl).1] at hquiet
      exact hprefix _ hquiet
  · have hnone : releases (logOf q log) = [] := by
      cases outcome with
      | output qid v qe =>
          apply (hscan.output qid v qe rfl).2.2
          intro heq
          exact houtput ⟨v, qe, by rw [heq]⟩
      | wait => exact (hscan.waited (by simp)).1 q
      | waitUntil => exact (hscan.waited (by simp)).1 q
    rw [hsplit] at hnone
    exact hprefix _ hnone

/-- The bucket of the registered queue `q`, which is `p`: filled at rate `r`
with all dequeues so far, each of which conformed. -/
structure Metered (r : ℚ) (ops : List (Op P m)) (dequeues : List (Ticks × Fin k × QE P))
    (p : Port P k) (created : Ticks) : Prop where
  reading : created ∈ ops.filterMap Op.reading
  created_le : ∀ d ∈ dequeues, created ≤ d.1
  tau : p.info.tau = defaultTau
  bucket : p.bucket = Bucket.fill r ⟨0, seconds created⟩ (dequeues.map dequeueArrival)
  conforms : Conforms r defaultTau ⟨0, seconds created⟩ (dequeues.map dequeueArrival)

/-- The first call which touches the queue creates its bucket. -/
theorem metered_of_create {call : Call P m k} (hspec : StepSpec cfg s s' call)
    (hdequeues : history.filterMap (Call.dequeued q) = [])
    {p : Port P k}
    (hlife : Run (Port.Life cfg.vnWeights) none (logOf q call.log) (some p)) :
    ∃ created, Metered r (ops ++ [call.op])
      ((history ++ [call]).filterMap (Call.dequeued q)) p created := by
  obtain ⟨capacity', created, rest, hevents, hrest⟩ := Port.Life.created_of_run hlife
  have hcreate : (q, .create created) ∈ call.log :=
    mem_logOf.mp (by rw [hevents]; exact List.mem_cons_self)
  have hreading : call.op.reading = some created ∧ call.dequeued q = none := by
    cases hspec with
    | pushFront v hv hpush =>
        cases List.mem_append.mp hcreate with
        | inl hcreation => exact ⟨creation_control _ _ _ hcreation, rfl⟩
        | inr hlast => simp at hlast
    | scan hscan =>
        have hat := hscan.scannedAt q _ (mem_logOf.mpr hcreate)
        exact absurd hat (by simp [Event.ScannedAt])
    | @setter op log hop hlog =>
        refine ⟨hlog _ hcreate, ?_⟩
        cases op with
        | scan => exact absurd hop (by simp [Op.IsSetter])
        | _ => rfl
  have hquiet : releases rest = [] := by
    have hall := hspec.releases_eq q
    rw [hevents, hreading.2, ← List.singleton_append, releases_append] at hall
    exact (List.append_eq_nil_iff.mp hall).2
  have hinit := Port.wellFormed_initial (P := P) capacity' cfg.vnWeights_pos created
  have hnil : (history ++ [call]).filterMap (Call.dequeued q) = [] := by
    simp [hdequeues, hreading.2]
  rw [hnil]
  refine ⟨created, ?_⟩
  constructor
  · simp [hreading.1]
  · simp
  · exact Port.tau_run hinit hrest
  · exact Port.bucket_run_of_quiet hinit hrest hquiet
  · exact conforms_nil r defaultTau _

/-- Only a scan dequeues, and the departure ends its events at the queue. -/
theorem StepSpec.release_of_dequeued {call : Call P m k} (hspec : StepSpec cfg s s' call)
    {now : Ticks} {v : Fin k} {qe : QE P} (hdequeued : call.dequeued q = some (now, v, qe)) :
    call.op.reading = some now ∧ (∀ e ∈ logOf q call.log, e.ScannedAt now) ∧
      ∃ before, logOf q call.log = before ++ [.release now v qe] ∧ releases before = [] := by
  cases hspec with
  | pushFront => simp [Call.dequeued] at hdequeued
  | @setter op log hop =>
      cases op with
      | scan => exact absurd hop (by simp [Op.IsSetter])
      | _ => simp [Call.dequeued] at hdequeued
  | @scan w now' outcome log hscan =>
      cases outcome with
      | wait => simp [Call.dequeued] at hdequeued
      | waitUntil => simp [Call.dequeued] at hdequeued
      | output qid v' qe' =>
          simp only [Call.dequeued, Option.ite_none_right_eq_some, Option.some.injEq,
            Prod.mk.injEq] at hdequeued
          obtain ⟨rfl, rfl, rfl, rfl⟩ := hdequeued
          exact ⟨rfl, hscan.scannedAt qid, (hscan.output qid v' qe' rfl).2.1⟩

theorem Metered.next {call : Call P m k} (hspec : StepSpec cfg s s' call) {p p' : Port P k}
    {created : Ticks} (hwf : p.WellFormed) (hrate : p.info.dequeueRateBps = r)
    (hsorted : ((ops ++ [call.op]).filterMap Op.reading).Pairwise (· ≤ ·))
    (hmetered : Metered r ops (history.filterMap (Call.dequeued q)) p created)
    (hrun : Run Port.Step p (logOf q call.log) p') :
    Metered r (ops ++ [call.op]) ((history ++ [call]).filterMap (Call.dequeued q)) p'
      created := by
  have hreleases := hspec.releases_eq q
  have htau := (Port.tau_run hwf hrun).trans hmetered.tau
  have hreading : created ∈ (ops ++ [call.op]).filterMap Op.reading := by
    rw [List.filterMap_append]
    exact List.mem_append_left _ hmetered.reading
  rw [filterMap_concat]
  cases hdequeued : call.dequeued q with
  | none =>
      rw [Option.toList_none, List.append_nil]
      rw [hdequeued] at hreleases
      refine ⟨hreading, hmetered.created_le, htau, ?_, hmetered.conforms⟩
      rw [Port.bucket_run_of_quiet hwf hrun hreleases, hmetered.bucket]
  | some d =>
      obtain ⟨now, v, qe⟩ := d
      obtain ⟨hnow, hat, before, hlog, hbefore⟩ := hspec.release_of_dequeued hdequeued
      have hkeeps : ∀ e ∈ logOf q call.log, e.KeepsRate := fun e he => (hat e he).keepsRate
      have hlevel := (Port.attempt_level hwf hrun hkeeps hlog hbefore).2 v qe rfl
      rw [Port.decayedLevel_eq, hrate, hmetered.tau, hmetered.bucket] at hlevel
      have hcreated : created ≤ now := by
        rw [List.filterMap_append] at hsorted
        exact (List.pairwise_append.mp hsorted).2.2 created hmetered.reading now
          (by simp [hnow])
      rw [hdequeued] at hreleases
      constructor
      · exact hreading
      · intro d hd
        cases List.mem_append.mp hd with
        | inl hold => exact hmetered.created_le d hold
        | inr hnew =>
            rw [List.mem_singleton.mp hnew]
            exact hcreated
      · exact htau
      · rw [(Port.bucket_run hwf hrun hkeeps).2, hrate, hmetered.bucket, hreleases,
          List.map_append, Bucket.fill_append]
      · rw [List.map_append]
        exact hmetered.conforms.concat hlevel

theorem ConstantRate.init {op : Op P m}
    (hconst : ConstantRate (k := k) cfg capacity (ops ++ [op]) q r) :
    ConstantRate cfg capacity ops q r := by
  intro before after s history hsplit hrun
  exact hconst before (after ++ [op]) s history (by simp [hsplit]) hrun

theorem metered_run (hrun : run cfg (initial capacity) ops = some (s, history))
    (hsorted : (ops.filterMap Op.reading).Pairwise (· ≤ ·))
    (hconst : ConstantRate cfg capacity ops q r) {p : Port P k}
    (hport : s.port cfg q = some p) :
    ∃ created, Metered r ops (history.filterMap (Call.dequeued q)) p created := by
  have hall := run_induction (I := fun ops s history =>
    (ops.filterMap Op.reading).Pairwise (· ≤ ·) → ConstantRate cfg capacity ops q r →
      ∀ p, s.port cfg q = some p →
        ∃ created, Metered r ops (history.filterMap (Call.dequeued q)) p created)
    ?_ ?_ hrun
  · exact hall hsorted hconst p hport
  · intro _ _ p hport
    simp [port, WorkerInfo.port, initial] at hport
  · intro ops s history s' call hbefore ih hcall hspec hsorted hconst p' hport'
    have hlife := hcall.life q
    rw [hport'] at hlife
    have hsorted' : (ops.filterMap Op.reading).Pairwise (· ≤ ·) := by
      rw [List.filterMap_append] at hsorted
      exact (List.pairwise_append.mp hsorted).1
    cases hport : s.port cfg q with
    | none =>
        rw [hport] at hlife
        have hdequeues : history.filterMap (Call.dequeued q) = [] := by
          rw [← releases_run hbefore, log_eq_nil_of_port hbefore hport]
          rfl
        exact metered_of_create hspec hdequeues hlife
    | some p =>
        rw [hport] at hlife
        obtain ⟨p'', heq, hstep⟩ := Port.Life.run_of_some hlife
        simp only [Option.some.injEq] at heq
        subst p''
        obtain ⟨created, hmetered⟩ := ih hsorted' hconst.init p hport
        have hrate := hconst ops [call.op] s history rfl hbefore p.info
          (port_eq_some.mp hport).1
        have hwf := run_wellFormed hbefore q p hport
        exact ⟨created, hmetered.next hspec hwf hrate hsorted hstep⟩

omit [IngressPacket P] in
theorem Metered.lt_decayedLevel_iff {p : Port P k} {created now : Ticks}
    {dequeues : List (Ticks × Fin k × QE P)}
    (hmetered : Metered r ops dequeues p created) (hrate : p.info.dequeueRateBps = r)
    (hr : 0 < r) (hnow : created ≤ now) :
    p.info.tau < p.info.decayedLevel now ↔
      ∃ before a rest, dequeues = before ++ a :: rest ∧
        defaultTau < bitsOf (a :: rest) - r * seconds (now - a.1) := by
  have hdrained : ∀ t, created ≤ t →
      Bucket.decayed r ⟨0, seconds created⟩ (seconds t) ≤ 0 := by
    intro t ht
    have hle := seconds_mono ht
    simp only [Bucket.decayed]
    nlinarith
  have htau : (0 : ℚ) ≤ defaultTau := by norm_num [defaultTau]
  rw [Port.decayedLevel_eq, hrate, hmetered.tau, hmetered.bucket, lt_decayed_iff]
  · constructor
    · intro hwindow
      obtain ⟨before, first, rest, hsplit, hlt⟩ := hwindow
      obtain ⟨before', tail, hdequeues, -, htail⟩ := List.map_eq_append_iff.mp hsplit
      obtain ⟨a, rest', rfl, rfl, rfl⟩ := List.map_eq_cons_iff.mp htail
      refine ⟨before', a, rest', hdequeues, ?_⟩
      rw [excess, ← List.map_cons, volume_map_dequeueArrival] at hlt
      rwa [seconds_sub]
    · intro hwindow
      obtain ⟨before, a, rest, rfl, hlt⟩ := hwindow
      refine ⟨before.map dequeueArrival, dequeueArrival a, rest.map dequeueArrival, ?_, ?_⟩
      · simp
      · rw [excess, ← List.map_cons, volume_map_dequeueArrival]
        rwa [seconds_sub] at hlt
  · intro arrival harrival
    have hmem := List.mem_of_head? harrival
    obtain ⟨d, hd, rfl⟩ := List.mem_map.mp hmem
    exact hdrained d.1 (hmetered.created_le d hd)
  · intro _
    exact (hdrained now hnow).trans htau

/-- The conformance law of queue `q` after the calls `ops`, with the dequeues
so far. -/
structure DequeueLaw (cfg : Config m k) (s : QueueingLogicVN P m k) (ops : List (Op P m))
    (dequeues : List (Ticks × Fin k × QE P)) (q : ℕ) (r : ℚ) : Prop where
  deferred_iff : ∀ w now s' outcome log, (∀ t ∈ ops.filterMap Op.reading, t ≤ now) →
    s.scan w now = some (s', outcome, log) → Attempted q log →
      (.defer now ∈ logOf q log ↔
        ∃ before a rest, dequeues = before ++ a :: rest ∧
          defaultTau < bitsOf (a :: rest) - r * seconds (now - a.1))
  attempted : ∀ now s' outcome log,
    s.scan (cfg.mapToWorker q) now = some (s', outcome, log) → s.queueSize q ≠ 0 →
      (∀ qid v qe, outcome ≠ .output qid v qe) → Attempted q log
  window : ∀ before segment after first last, dequeues = before ++ segment ++ after →
    segment.head? = some first → segment.getLast? = some last →
      bitsOf segment ≤
        defaultTau + last.2.2.pktSize * 8 + r * seconds (last.1 - first.1)
  not_deferred : ∀ w now s' outcome log (bits : ℚ),
    (∀ t ∈ ops.filterMap Op.reading, t ≤ now) →
    s.scan w now = some (s', outcome, log) →
    (∀ before a rest, dequeues = before ++ a :: rest →
      bitsOf (a :: rest) + bits ≤ defaultTau + bits + r * seconds (now - a.1)) →
    .defer now ∉ logOf q log

theorem ScanSpec.attempt_level {w : Fin m} {now : Ticks} {outcome : ScanOutcome P k}
    {log : Log P k} (hspec : ScanSpec cfg s s' w now outcome log) {p : Port P k}
    (hport : s.port cfg q = some p) (hwf : p.WellFormed) {e : Event P k}
    (he : e ∈ logOf q log) :
    (e = .defer now → p.info.tau < p.info.decayedLevel now) ∧
      ∀ v qe, e = .release now v qe → p.info.decayedLevel now ≤ p.info.tau := by
  have hlife := hspec.advances.life q
  rw [hport] at hlife
  obtain ⟨p', -, hsteps⟩ := Port.Life.run_of_some hlife
  have hkeeps : ∀ e ∈ logOf q log, e.KeepsRate := fun e he =>
    (hspec.scannedAt q e he).keepsRate
  obtain ⟨before, after, hsplit⟩ := List.append_of_mem he
  exact Port.attempt_level hwf hsteps hkeeps hsplit (hspec.quiet_before hsplit)

/-- A scan which attempts a registered queue defers it exactly when the level of
its bucket exceeds the ceiling. -/
theorem ScanSpec.defer_iff {w : Fin m} {now : Ticks} {outcome : ScanOutcome P k}
    {log : Log P k} (hspec : ScanSpec cfg s s' w now outcome log) {p : Port P k}
    (hport : s.port cfg q = some p) (hwf : p.WellFormed) (hattempt : Attempted q log) :
    .defer now ∈ logOf q log ↔ p.info.tau < p.info.decayedLevel now := by
  constructor
  · intro hdefer
    exact (hspec.attempt_level hport hwf hdefer).1 rfl
  · intro hlt
    obtain ⟨e, he, hattempt⟩ := hattempt
    cases (hspec.scannedAt q e he).attempt hattempt with
    | inl hdefer => exact hdefer ▸ he
    | inr hrelease =>
        obtain ⟨v, qe, hrelease⟩ := hrelease
        exact absurd ((hspec.attempt_level hport hwf he).2 v qe hrelease) (not_le.mpr hlt)

/-- A queue which a scan attempts is deferred, or it is the one served. -/
theorem ScanSpec.output_iff {w : Fin m} {now : Ticks} {outcome : ScanOutcome P k}
    {log : Log P k} (hspec : ScanSpec cfg s s' w now outcome log) {p : Port P k}
    (hport : s.port cfg q = some p) (hwf : p.WellFormed) (hattempt : Attempted q log) :
    (∃ v qe, outcome = .output q v qe) ↔ .defer now ∉ logOf q log := by
  constructor
  · intro houtput hdefer
    obtain ⟨v, qe, rfl⟩ := houtput
    have hlt := (hspec.defer_iff hport hwf hattempt).mp hdefer
    obtain ⟨-, ⟨before, hlog, -⟩, -⟩ := hspec.output q v qe rfl
    have hmem : .release now v qe ∈ logOf q log := by
      rw [hlog]
      simp
    have hle := (hspec.attempt_level hport hwf hmem).2 v qe rfl
    exact absurd hlt (not_lt.mpr hle)
  · intro hnone
    obtain ⟨e, he, hattempt⟩ := hattempt
    cases (hspec.scannedAt q e he).attempt hattempt with
    | inl hdefer => exact absurd (hdefer ▸ he) hnone
    | inr hrelease =>
        obtain ⟨v, qe, rfl⟩ := hrelease
        have hreleased : (now, v, qe) ∈ releases (logOf q log) :=
          List.mem_filterMap.mpr ⟨_, he, rfl⟩
        by_contra hother
        have hquiet : releases (logOf q log) = [] := by
          cases outcome with
          | output qid v' qe' =>
              apply (hspec.output qid v' qe' rfl).2.2
              intro heq
              exact hother ⟨v', qe', by rw [heq]⟩
          | wait => exact (hspec.waited (by simp)).1 q
          | waitUntil => exact (hspec.waited (by simp)).1 q
        rw [hquiet] at hreleased
        simp at hreleased

theorem deferred_iff_of_scan (hrun : run cfg (initial capacity) ops = some (s, history))
    (hr : 0 < r) (hsorted : (ops.filterMap Op.reading).Pairwise (· ≤ ·))
    (hconst : ConstantRate cfg capacity ops q r) {w : Fin m} {now : Ticks}
    {outcome : ScanOutcome P k} {log : Log P k}
    (hnow : ∀ t ∈ ops.filterMap Op.reading, t ≤ now)
    (hscan : s.scan w now = some (s', outcome, log)) (hattempt : Attempted q log) :
    .defer now ∈ logOf q log ↔
      ∃ before a rest, history.filterMap (Call.dequeued q) = before ++ a :: rest ∧
        defaultTau < bitsOf (a :: rest) - r * seconds (now - a.1) := by
  have hspec := scan_spec (run_coherent hrun) (run_wellFormed hrun) hscan
  cases hport : s.port cfg q with
  | none =>
      obtain ⟨e, he, -⟩ := hattempt
      simp [hspec.log_eq_nil hport] at he
  | some p =>
      have hwf := run_wellFormed hrun q p hport
      have hrate := hconst ops [] s history (by simp) hrun p.info (port_eq_some.mp hport).1
      obtain ⟨created, hmetered⟩ := metered_run hrun hsorted hconst hport
      rw [← hmetered.lt_decayedLevel_iff hrate hr (hnow created hmetered.reading)]
      exact hspec.defer_iff hport hwf hattempt

theorem attempted_of_scan (hrun : run cfg (initial capacity) ops = some (s, history))
    {now : Ticks} {outcome : ScanOutcome P k} {log : Log P k}
    (hscan : s.scan (cfg.mapToWorker q) now = some (s', outcome, log))
    (hsize : s.queueSize q ≠ 0) (houtcome : ∀ qid v qe, outcome ≠ .output qid v qe) :
    Attempted q log := by
  have hspec := scan_spec (run_coherent hrun) (run_wellFormed hrun) hscan
  cases hlq : s.logicalQueuesInfo q with
  | none => simp [queueSize, hlq] at hsize
  | some lq =>
      obtain ⟨phys, hport⟩ := exists_port (run_coherent hrun) hlq
      have hne : lq.size ≠ 0 := by simpa [queueSize, hlq] using hsize
      exact ⟨.defer now, (hspec.waited houtcome).2 q _ rfl hport hne, trivial⟩

theorem window_of_run (hrun : run cfg (initial capacity) ops = some (s, history))
    (hsorted : (ops.filterMap Op.reading).Pairwise (· ≤ ·))
    (hconst : ConstantRate cfg capacity ops q r)
    {before segment after : List (Ticks × Fin k × QE P)} {first last : Ticks × Fin k × QE P}
    (hsplit : history.filterMap (Call.dequeued q) = before ++ segment ++ after)
    (hfirst : segment.head? = some first) (hlast : segment.getLast? = some last) :
    bitsOf segment ≤ defaultTau + last.2.2.pktSize * 8 + r * seconds (last.1 - first.1) := by
  have htau : (0 : ℚ) ≤ defaultTau := by norm_num [defaultTau]
  cases hport : s.port cfg q with
  | none =>
      rw [← releases_run hrun, log_eq_nil_of_port hrun hport, releases_nil] at hsplit
      have hsegment : segment = [] := by
        have hnil := (List.append_eq_nil_iff.mp hsplit.symm).1
        exact (List.append_eq_nil_iff.mp hnil).2
      simp [hsegment] at hfirst
  | some p =>
      obtain ⟨created, hmetered⟩ := metered_run hrun hsorted hconst hport
      have hfirst' : (segment.map dequeueArrival).head? = some (dequeueArrival first) := by
        rw [List.head?_map, hfirst]
        rfl
      have hlast' : (segment.map dequeueArrival).getLast? = some (dequeueArrival last) := by
        rw [List.getLast?_map, hlast]
        rfl
      have hwindow := hmetered.conforms.volume_le htau
        (by rw [hsplit, List.map_append, List.map_append]) hfirst' hlast'
      rw [volume_map_dequeueArrival] at hwindow
      rw [seconds_sub]
      exact hwindow

/-- The conformance law holds after every sequence of calls with non-decreasing
clock readings which keeps the rate of the queue at `r`. -/
theorem dequeue_conformance (cfg : Config m k) (capacity : ℕ) (ops : List (Op P m)) (q : ℕ)
    (r : ℚ) (hops : ∀ op ∈ ops, op.VnBelow k) (hr : 0 < r)
    (hsorted : (ops.filterMap Op.reading).Pairwise (· ≤ ·))
    (hconst : ConstantRate cfg capacity ops q r) :
    ∃ s history, run cfg (initial capacity) ops = some (s, history) ∧
      DequeueLaw cfg s ops (history.filterMap (Call.dequeued q)) q r := by
  obtain ⟨s, history, hrun⟩ := run_isSome cfg capacity ops hops
  refine ⟨s, history, hrun, ?_⟩
  constructor
  · intro w now s' outcome log hnow hscan hattempt
    exact deferred_iff_of_scan hrun hr hsorted hconst hnow hscan hattempt
  · intro now s' outcome log hscan hsize houtcome
    exact attempted_of_scan hrun hscan hsize houtcome
  · intro before segment after first last hsplit hfirst hlast
    exact window_of_run hrun hsorted hconst hsplit hfirst hlast
  · intro w now s' outcome log bits hnow hscan hroom hdefer
    have hattempt : Attempted q log := ⟨.defer now, hdefer, trivial⟩
    obtain ⟨before, a, rest, hsplit, hlt⟩ :=
      (deferred_iff_of_scan hrun hr hsorted hconst hnow hscan hattempt).mp hdefer
    have hle := hroom before a rest hsplit
    linarith

/-- At 30 Mbps five packets of 1514 bytes leave at once.  The sixth is deferred at
first, and the seventh is not yet dequeued. -/
def sevenAtThirtyMbps : List (Op ℕ 1) :=
  .setRate 0 30000000 1 :: List.replicate 7 (.pushFront 0 0 1 (some 1514) 2) ++
    List.replicate 6 (.scan (Fin.last 0) 3) ++ [.scan (Fin.last 0) 403740]

theorem constantRate_sevenAtThirtyMbps :
    ConstantRate Config.single 64 sevenAtThirtyMbps 0 30000000 := by
  have hrates : ∀ n < 16, ∀ rate ∈ ((run Config.single (initial (P := ℕ) 64)
      (sevenAtThirtyMbps.take n)).bind fun result =>
        (result.1.logicalQueuesInfo 0).map fun lq => lq.dequeueRateBps), rate = 30000000 := by
    decide +kernel
  intro before after s history hsplit hrun lq hlq
  have hlength : before.length + after.length = 15 := by
    rw [← List.length_append, ← hsplit]
    rfl
  have hrate := hrates before.length (by omega)
  rw [hsplit, List.take_left, hrun] at hrate
  exact hrate _ (by simp [hlq])

/-- The law of the six dequeues, and the deferral which it forces. -/
theorem dequeue_conformance_seven_packets :
    ∃ s history s' outcome log,
      run Config.single (initial 64) sevenAtThirtyMbps = some (s, history) ∧
      DequeueLaw Config.single s sevenAtThirtyMbps (history.filterMap (Call.dequeued 0)) 0
        30000000 ∧
      (history.filterMap (Call.dequeued 0)).map Prod.fst = [3, 3, 3, 3, 3, 403740] ∧
      s.scan (Fin.last 0) 403740 = some (s', outcome, log) ∧ .defer 403740 ∈ logOf 0 log := by
  obtain ⟨s, history, hrun, hlaw⟩ := dequeue_conformance Config.single 64 sevenAtThirtyMbps 0
    30000000 (by simp [sevenAtThirtyMbps, Op.VnBelow]) (by norm_num) (by decide)
    constantRate_sevenAtThirtyMbps
  have heval : ((run Config.single (initial 64) sevenAtThirtyMbps).bind fun r =>
      (r.1.scan (Fin.last 0) 403740).map fun next =>
        ((r.2.filterMap (Call.dequeued 0)).map fun d => (d.1, d.2.2.pktSize),
          r.1.queueSize 0, next.2.1.packet.isNone)) =
      some (List.replicate 5 (3, 1514) ++ [(403740, 1514)], 1, true) := by
    decide +kernel
  rw [hrun] at heval
  obtain ⟨⟨s', outcome, log⟩, hscan, heq⟩ := Option.map_eq_some_iff.mp heval
  simp only [Prod.mk.injEq] at heq
  obtain ⟨hdequeues, hsize, hpacket⟩ := heq
  have htimes := congrArg (List.map Prod.fst) hdequeues
  rw [List.map_map] at htimes
  refine ⟨s, history, s', outcome, log, hrun, hlaw, htimes, hscan, ?_⟩
  have hattempt : Attempted 0 log := by
    refine hlaw.attempted 403740 s' outcome log hscan (by omega) fun q v qe houtcome => ?_
    rw [houtcome] at hpacket
    exact absurd hpacket (by simp [ScanOutcome.packet])
  refine (hlaw.deferred_iff _ 403740 s' outcome log (by decide) hscan hattempt).mpr ?_
  -- the six packets exceed the ceiling although the bucket drained since the first
  have hbits : bitsOf (history.filterMap (Call.dequeued 0)) = 72672 := by
    have hsizes := congrArg (List.map fun d : Ticks × ℕ => (d.2 : ℚ) * 8) hdequeues
    rw [List.map_map] at hsizes
    exact (congrArg List.sum hsizes).trans (by norm_num)
  cases hlist : history.filterMap (Call.dequeued 0) with
  | nil => simp [hlist] at htimes
  | cons a rest =>
      refine ⟨[], a, rest, rfl, ?_⟩
      rw [hlist] at htimes hbits
      obtain ⟨ha, -⟩ := List.cons.inj htimes
      rw [hbits, show a.1 = 3 from ha]
      norm_num [seconds, defaultTau]

end QueueingLogicVN

end Cmcs
