import Cmcs.BandwidthGuarantee
import Cmcs.DequeueConformance
import Mathlib.Tactic

/-!
# Service of a backlogged queue

A run of one logical queue whose events carry clock readings.  As long as the
queue holds packets and its worker attends to it in time, so that the bucket is
not drained empty between two visits, the bits released fall behind the
configured rate by a constant only.
-/

namespace Cmcs

open TransitionSystem

abbrev TimedEvent (P : Type) (k : ℕ) := Ticks × Event P k

namespace Port

variable {P : Type} [IngressPacket P] {k : ℕ} {p p' q q' start : Port P k}
variable {events segment before after : List (TimedEvent P k)} {x y : TimedEvent P k}
variable {r delay : ℚ} {L : ℕ}

def bytesReleased (e : Event P k) : ℤ := ∑ i, e.releasedBytes i

def TimedStep (p : Port P k) (x : TimedEvent P k) (p' : Port P k) : Prop := Step p x.2 p'

/-- A step into a state with packets, at rate `r`. -/
def BusyStep (r : ℚ) (p : Port P k) (x : TimedEvent P k) (p' : Port P k) : Prop :=
  Step p x.2 p' ∧ p'.info.size ≠ 0 ∧ p'.info.dequeueRateBps = r

omit [IngressPacket P] in
def AttemptFree (events : List (TimedEvent P k)) : Prop := ∀ x ∈ events, ¬x.2.IsAttempt

/-- The stamps are sorted and agree with the clock readings of the events. -/
structure Stamped (start : Port P k) (events : List (TimedEvent P k)) : Prop where
  sorted : events.Pairwise fun x y => x.1 ≤ y.1
  time : ∀ x ∈ events, ∀ t ∈ x.2.time, t = x.1
  created : ∀ x ∈ events, start.info.LCT ≤ x.1

/-- The worker attends to the queue: while the queue holds packets no two visits
are more than `delay` seconds apart, and a visit which leaves packets behind is
followed by the next one before the bucket has run dry. -/
structure Attended (delay : ℚ) (start : Port P k) (events : List (TimedEvent P k)) : Prop where
  prompt : ∀ before x quiet y after p, events = before ++ x :: (quiet ++ y :: after) →
    Run TimedStep start (before ++ [x]) p → p.info.size ≠ 0 → AttemptFree quiet →
      seconds (y.1 - x.1) ≤ delay
  wet : ∀ before x quiet y after p, events = before ++ x :: (quiet ++ y :: after) →
    Run TimedStep start (before ++ [x]) p → p.info.size ≠ 0 → AttemptFree quiet →
      x.2.IsAttempt → y.2.IsAttempt → 0 ≤ p.info.decayedLevel y.1

theorem run_of_busy (hrun : Run (BusyStep r) p segment p') : Run TimedStep p segment p' :=
  hrun.mono fun _ _ _ _ hstep => hstep.1

theorem run_of_timed (hrun : Run TimedStep p events p') :
    Run Step p (events.map Prod.snd) p' := by
  induction hrun with
  | nil => exact Run.nil
  | snoc _ hstep ih =>
      rw [List.map_append]
      exact Run.snoc ih hstep

theorem timed_of_run {labels : List (Event P k)} (hrun : Run Step p labels p')
    {events : List (TimedEvent P k)} (hevents : events.map Prod.snd = labels) :
    Run TimedStep p events p' := by
  induction hrun generalizing events with
  | nil =>
      rw [List.map_eq_nil_iff] at hevents
      rw [hevents]
      exact Run.nil
  | @snoc labels p₁ p₂ e _ hstep ih =>
      obtain ⟨first, second, rfl, hfirst, hsecond⟩ := List.map_eq_append_iff.mp hevents
      obtain ⟨x, rfl, rfl⟩ := List.map_eq_singleton_iff.mp hsecond
      exact Run.snoc (ih hfirst) hstep

theorem wellFormed_timed (hwf : p.WellFormed) (hrun : Run TimedStep p events p') :
    p'.WellFormed :=
  hwf.run (run_of_timed hrun)

/-- States with packets, as far as the run shows them. -/
theorem busy_last (hsize : p.info.size ≠ 0 ∧ p.info.dequeueRateBps = r)
    (hrun : Run (BusyStep r) p segment p') :
    p'.info.size ≠ 0 ∧ p'.info.dequeueRateBps = r := by
  cases hrun with
  | nil => exact hsize
  | snoc _ hstep => exact hstep.2

/-! ## The level of the bucket -/

theorem seconds_add (a b c : Ticks) : seconds (a - b) + seconds (b - c) = seconds (a - c) := by
  simp only [seconds_sub]
  ring

theorem seconds_le_seconds {t u : Ticks} : seconds t ≤ seconds u ↔ t ≤ u := by
  refine ⟨fun hle => ?_, seconds_mono⟩
  by_contra hlt
  have hcast : (u : ℚ) < t := by exact_mod_cast not_le.mp hlt
  unfold seconds at hle
  linarith

/-- A release into a bucket which is not empty raises the level by the bits
released, everything else leaves it alone. -/
theorem decayedLevel_step (hwf : p.WellFormed) (hstep : Step p x.2 p')
    (hrate : p'.info.dequeueRateBps = p.info.dequeueRateBps)
    (hwet : ∀ now v qe, x.2 = .release now v qe → 0 ≤ p.info.decayedLevel now) (t : Ticks) :
    p'.info.decayedLevel t = p.info.decayedLevel t + 8 * bytesReleased x.2 := by
  have hbucket := (bucket_step hwf hstep).1
  rw [decayedLevel_eq, decayedLevel_eq, hrate, hbucket]
  cases hx : x.2 with
  | release now v qe =>
      have hlevel := hwet now v qe hx
      rw [decayedLevel_eq] at hlevel
      simp [Event.released, LeakyBucket.Bucket.fill, LeakyBucket.Bucket.pour,
        LeakyBucket.Bucket.decayed, dequeueArrival, bytesReleased, Event.releasedBytes] at hlevel ⊢
      rw [max_eq_right (by linarith)]
      ring
  | _ => simp [Event.released, bytesReleased, Event.releasedBytes]

theorem decayedLevel_run (hwf : q.WellFormed) (hrate : q.info.dequeueRateBps = r)
    (hrun : Run (BusyStep r) q segment p)
    (hwet : ∀ pre y post q', segment = pre ++ y :: post → Run (BusyStep r) q pre q' →
      ∀ now v qe, y.2 = .release now v qe → 0 ≤ q'.info.decayedLevel now) (t : Ticks) :
    p.info.decayedLevel t =
      q.info.decayedLevel t + 8 * tally bytesReleased (segment.map Prod.snd) := by
  induction hrun with
  | nil => simp
  | @snoc segment p₁ p₂ y hbefore hstep ih =>
      have hsame : p₂.info.dequeueRateBps = p₁.info.dequeueRateBps := by
        rw [hstep.2.2]
        cases hbefore with
        | nil => exact hrate.symm
        | snoc _ hprev => exact hprev.2.2.symm
      rw [decayedLevel_step (hwf.run (run_of_timed (run_of_busy hbefore))) hstep.1 hsame
        (hwet segment y [] p₁ rfl hbefore), ih ?_, List.map_append, tally_append]
      · simp only [List.map_cons, List.map_nil, tally_singleton, Int.cast_add]
        ring
      · intro pre z post q' hsplit
        exact hwet pre z (post ++ [y]) q' (by simp [hsplit])

theorem decayedLevel_of_quiet (hwf : q.WellFormed) (hrate : q.info.dequeueRateBps = r)
    (hrun : Run (BusyStep r) q segment p) (hquiet : AttemptFree segment) (t : Ticks) :
    p.info.decayedLevel t = q.info.decayedLevel t := by
  have hlevel := decayedLevel_run hwf hrate hrun ?_ t
  · have hzero : tally bytesReleased (segment.map Prod.snd) = 0 := by
      refine List.sum_eq_zero fun n hn => ?_
      obtain ⟨e, he, rfl⟩ := List.mem_map.mp hn
      obtain ⟨y, hy, rfl⟩ := List.mem_map.mp he
      have hfree := hquiet y hy
      cases hevent : y.2 with
      | release now v qe => simp [hevent, Event.IsAttempt] at hfree
      | _ => simp [bytesReleased, Event.releasedBytes]
    rw [hlevel, hzero, Int.cast_zero, mul_zero, add_zero]
  · intro pre y post q' hsplit _ now v qe hy
    exact absurd (by rw [hy]; trivial) (hquiet y (by simp [hsplit]))

/-! ## What holds in every state -/

/-- Packets are at most `L` bytes long and the bucket was last filled to at most
one packet above its ceiling. -/
structure Moderate (L : ℕ) (p : Port P k) : Prop where
  wellFormed : p.WellFormed
  packets : ∀ i, ∀ qe ∈ p.phys i, qe.pktSize ≤ L
  level : p.info.X ≤ p.info.tau + 8 * L
  tau_nonneg : 0 ≤ p.info.tau

theorem Moderate.step (hp : p.Moderate L) (hstep : Step p x.2 p') (hsize : x.2.SizeAtMost L) :
    p'.Moderate L := by
  have hbucket := bucket_step hp.wellFormed hstep
  refine ⟨hp.wellFormed.step hstep, phys_le_step hstep hsize hp.packets, ?_, ?_⟩
  · rw [hbucket.2.1]
    have hX : p'.info.X = p'.bucket.level := rfl
    rw [hX, hbucket.1]
    cases hevent : x.2 with
    | release now v qe =>
        rw [hevent] at hstep
        cases hstep with
        | release hpending hhead hlevel =>
            have hpkt : (qe.pktSize : ℚ) ≤ L := by
              exact_mod_cast hp.packets v qe (List.mem_of_head? hhead)
            rw [decayedLevel_eq] at hlevel
            have hmax := max_le hp.tau_nonneg hlevel
            simp only [Event.released, Option.toList_some, List.map_cons, List.map_nil,
              LeakyBucket.Bucket.fill, List.foldl_cons, List.foldl_nil, LeakyBucket.Bucket.pour,
              dequeueArrival]
            linarith
    | _ => exact hp.level
  · rw [hbucket.2.1]
    exact hp.tau_nonneg

theorem Moderate.run (hp : p.Moderate L) (hrun : Run TimedStep p events p')
    (hsize : ∀ x ∈ events, x.2.SizeAtMost L) :
    p'.Moderate L ∧ p'.info.tau = p.info.tau := by
  induction hrun with
  | nil => exact ⟨hp, rfl⟩
  | snoc _ hstep ih =>
      obtain ⟨hbefore, htau⟩ := ih fun x hx => hsize x (by simp [hx])
      exact ⟨hbefore.step hstep (hsize _ (by simp)),
        ((bucket_step hbefore.wellFormed hstep).2.1).trans htau⟩

theorem LCT_le {t : Ticks} (hwf : p.WellFormed) (hrun : Run TimedStep p events p')
    (hstart : p.info.LCT ≤ t) (htimes : ∀ x ∈ events, ∀ s ∈ x.2.time, s ≤ t) :
    p'.info.LCT ≤ t := by
  induction hrun with
  | nil => exact hstart
  | @snoc events p₁ p₂ x hbefore hstep ih =>
      have hp := ih fun x hx => htimes x (by simp [hx])
      have hbucket := (bucket_step (wellFormed_timed hwf hbefore) hstep).1
      have hlast : seconds p₂.info.LCT = p₂.bucket.last := rfl
      rw [← seconds_le_seconds, hlast, hbucket]
      cases hevent : x.2 with
      | release now v qe =>
          exact seconds_mono (htimes x (by simp) now (by rw [hevent]; rfl))
      | _ => exact seconds_mono hp

theorem Stamped.LCT_le (hstamped : Stamped start (before ++ x :: after))
    (hwf : start.WellFormed) (hrun : Run TimedStep start before p) : p.info.LCT ≤ x.1 := by
  refine Port.LCT_le hwf hrun (hstamped.created x (by simp)) fun y hy s hs => ?_
  rw [hstamped.time y (by simp [hy]) s hs]
  exact (List.pairwise_append.mp hstamped.sorted).2.2 y hy x (by simp)

/-- The level right after a visit, however full or empty the visit found it. -/
theorem decayedLevel_visit (hp : p.Moderate L) (hr : 0 ≤ r) (hstep : Step p x.2 p')
    (hsize : x.2.SizeAtMost L) (hattempt : x.2.IsAttempt)
    (hrate : p.info.dequeueRateBps = r) (hrate' : p'.info.dequeueRateBps = r)
    (htime : ∀ t ∈ x.2.time, t = x.1) (hLCT : p.info.LCT ≤ x.1) (t : Ticks) :
    p'.info.decayedLevel t ≤ p.info.tau + 8 * L - r * seconds (t - x.1) := by
  have hbucket := bucket_step hp.wellFormed hstep
  have hnew := hp.step hstep hsize
  have hX : p'.info.X ≤ p.info.tau + 8 * L := by
    rw [← hbucket.2.1]
    exact hnew.level
  cases hevent : x.2 with
  | defer now =>
      rw [hevent] at hstep
      cases hstep with
      | defer =>
          have helapsed := mul_le_mul_of_nonneg_left
            (seconds_mono (sub_le_sub_left hLCT t)) hr
          rw [LogicalQueueInfo.decayedLevel, hrate]
          linarith
  | release now v qe =>
      have hnow := htime now (by rw [hevent]; rfl)
      rw [hevent] at hstep
      cases hstep with
      | release =>
          have hlct : (p.release now v qe).info.LCT = now := by
            simp [Port.release, LogicalQueueInfo.depart_eq, LogicalQueueInfo.conform]
          rw [LogicalQueueInfo.decayedLevel, hrate', hlct, ← hnow]
          linarith
  | _ => simp [hevent, Event.IsAttempt] at hattempt

/-! ## Visits of a busy period -/

theorem exists_first {α : Type*} (A : α → Prop) (l : List α) :
    (∀ a ∈ l, ¬A a) ∨ ∃ pre a post, l = pre ++ a :: post ∧ A a ∧ ∀ b ∈ pre, ¬A b := by
  induction l with
  | nil => exact Or.inl (by simp)
  | cons b l ih =>
      by_cases hb : A b
      · exact Or.inr ⟨[], b, l, rfl, hb, by simp⟩
      · cases ih with
        | inl hnone => exact Or.inl (by simpa [hb] using hnone)
        | inr hsome =>
            obtain ⟨pre, a, post, rfl, ha, hpre⟩ := hsome
            exact Or.inr ⟨b :: pre, a, post, rfl, ha, by simpa [hb] using hpre⟩

theorem exists_last {α : Type*} (A : α → Prop) (l : List α) :
    (∀ a ∈ l, ¬A a) ∨ ∃ pre a post, l = pre ++ a :: post ∧ A a ∧ ∀ b ∈ post, ¬A b := by
  cases exists_first A l.reverse with
  | inl hnone => exact Or.inl fun a ha => hnone a (List.mem_reverse.mpr ha)
  | inr hsome =>
      obtain ⟨pre, a, post, hsplit, ha, hpre⟩ := hsome
      refine Or.inr ⟨post.reverse, a, pre.reverse, ?_, ha, fun b hb =>
        hpre b (List.mem_reverse.mp hb)⟩
      rw [← List.reverse_reverse l, hsplit]
      simp

/-- A stretch without a visit is short. -/
theorem Attended.gap (hattended : Attended delay start (before ++ x :: (segment ++ after)))
    (hdelay : 0 ≤ delay) (hrun : Run TimedStep start (before ++ [x]) q)
    (hsize : q.info.size ≠ 0) (hquiet : AttemptFree segment) :
    ∀ z ∈ (x :: segment).getLast?, seconds (z.1 - x.1) ≤ delay := by
  intro z hz
  rcases List.eq_nil_or_concat segment with rfl | ⟨quiet, last, rfl⟩
  · obtain rfl : x = z := by simpa using hz
    simpa [seconds] using hdelay
  · obtain rfl : last = z := by simpa [List.getLast?_cons] using hz
    refine hattended.prompt before x quiet last after q (by simp) hrun hsize fun y hy => ?_
    exact hquiet y (by simp [hy])

/-- Behind a visit of a busy period the next one finds the bucket not yet dry. -/
theorem Attended.not_dry
    (hattended : Attended delay start (before ++ x :: (segment ++ y :: after)))
    (hwf : start.WellFormed) (hrun : Run TimedStep start (before ++ [x]) q)
    (hq : q.info.size ≠ 0 ∧ q.info.dequeueRateBps = r) (hx : x.2.IsAttempt)
    (hbusy : Run (BusyStep r) q segment p) (hy : y.2.IsAttempt) :
    0 ≤ p.info.decayedLevel y.1 := by
  rcases exists_last (fun z : TimedEvent P k => z.2.IsAttempt) segment with
    hquiet | ⟨pre, z, quiet, rfl, hz, hquiet⟩
  · rw [decayedLevel_of_quiet (wellFormed_timed hwf hrun) hq.2 hbusy hquiet]
    exact hattended.wet before x segment y after q rfl hrun hq.1 hquiet hx hy
  · have hsplit : pre ++ z :: quiet = (pre ++ [z]) ++ quiet := by simp
    rw [hsplit] at hbusy
    obtain ⟨q', hfirst, hsecond⟩ := hbusy.of_append
    have hq' := busy_last hq hfirst
    have hrun' : Run TimedStep start ((before ++ x :: pre) ++ [z]) q' := by
      have hboth := hrun.append (run_of_busy hfirst)
      simpa using hboth
    rw [decayedLevel_of_quiet (wellFormed_timed hwf hrun') hq'.2 hsecond hquiet]
    exact hattended.wet (before ++ x :: pre) z quiet y after q' (by simp) hrun' hq'.1 hquiet hz hy

/-! ## The service of a busy period -/

omit [IngressPacket P] in
theorem bytesReleased_nonneg (e : Event P k) : 0 ≤ bytesReleased e := by
  refine Finset.sum_nonneg fun i _ => ?_
  cases e with
  | release now v qe =>
      simp only [Event.releasedBytes]
      split
      · exact Int.natCast_nonneg _
      · exact le_rfl
  | _ => exact le_rfl

omit [IngressPacket P] in
theorem tally_le_of_append (first second : List (TimedEvent P k)) :
    tally bytesReleased (first.map Prod.snd) ≤
      tally bytesReleased ((first ++ second).map Prod.snd) := by
  rw [List.map_append, tally_append]
  exact le_add_of_nonneg_right (tally_nonneg _ _ bytesReleased_nonneg)

/-- From one visit of a busy period to a later one. -/
theorem visits_service {v u : TimedEvent P k}
    (hstart : start.Moderate L) (hr : 0 ≤ r)
    (hstamped : Stamped start (before ++ v :: (segment ++ u :: after)))
    (hattended : Attended delay start (before ++ v :: (segment ++ u :: after)))
    (hsizes : ∀ y ∈ before ++ v :: (segment ++ u :: after), y.2.SizeAtMost L)
    (hrun : Run TimedStep start before p) (hp : p.info.dequeueRateBps = r)
    (hstep : BusyStep r p v q) (hbusy : Run (BusyStep r) q segment q')
    (hv : v.2.IsAttempt) (hu : u.2.IsAttempt) :
    r * seconds (u.1 - v.1) ≤
      start.info.tau + 8 * L + 8 * tally bytesReleased (segment.map Prod.snd) := by
  obtain ⟨hmoderate, htau⟩ := hstart.run hrun fun y hy => hsizes y (by simp [hy])
  have hvisit := decayedLevel_visit hmoderate hr hstep.1 (hsizes v (by simp)) hv hp hstep.2.2
    (hstamped.time v (by simp)) (hstamped.LCT_le hstart.wellFormed hrun) u.1
  have hrun' : Run TimedStep start (before ++ [v]) q := Run.snoc hrun hstep.1
  have hdry := hattended.not_dry hstart.wellFormed hrun' hstep.2 hv hbusy hu
  have hlevel := decayedLevel_run (wellFormed_timed hstart.wellFormed hrun') hstep.2.2 hbusy ?_ u.1
  · rw [hlevel] at hdry
    rw [htau] at hvisit
    linarith
  · intro pre y post q'' hsplit hpre now v' qe hy
    obtain rfl : now = y.1 := hstamped.time y (by simp [hsplit]) now (by rw [hy]; rfl)
    have hattended' := hattended
    rw [hsplit, List.append_assoc, List.cons_append] at hattended'
    exact hattended'.not_dry hstart.wellFormed hrun' hstep.2 hv hpre (by rw [hy]; trivial)

/-- In a busy period the bits released fall behind the rate by at most the two
delays around the visits and what the bucket may have held. -/
theorem backlog_service (hstart : start.Moderate L) (hr : 0 ≤ r) (hdelay : 0 ≤ delay)
    (hstamped : Stamped start (before ++ x :: (segment ++ after)))
    (hattended : Attended delay start (before ++ x :: (segment ++ after)))
    (hsizes : ∀ y ∈ before ++ x :: (segment ++ after), y.2.SizeAtMost L)
    (hrun : Run TimedStep start (before ++ [x]) q)
    (hq : q.info.size ≠ 0 ∧ q.info.dequeueRateBps = r)
    (hbusy : Run (BusyStep r) q segment p) :
    ∀ z ∈ (x :: segment).getLast?, r * seconds (z.1 - x.1) ≤
      2 * (r * delay) + (start.info.tau + 8 * L) +
        8 * tally bytesReleased (segment.map Prod.snd) := by
  intro z hz
  have htau := hstart.tau_nonneg
  have hrdelay := mul_nonneg hr hdelay
  have hreleased : (0 : ℚ) ≤ tally bytesReleased (segment.map Prod.snd) := by
    exact_mod_cast tally_nonneg bytesReleased (segment.map Prod.snd) bytesReleased_nonneg
  have hL : (0 : ℚ) ≤ L := Nat.cast_nonneg L
  have hscale : ∀ {d : ℚ}, d ≤ delay → r * d ≤ r * delay := fun hd =>
    mul_le_mul_of_nonneg_left hd hr
  rcases exists_first (fun y : TimedEvent P k => y.2.IsAttempt) segment with
    hquiet | ⟨pre, v, rest, rfl, hv, hpre⟩
  · have hgap := hscale (hattended.gap hdelay hrun hq.1 hquiet z hz)
    linarith
  · obtain ⟨q₁, hbusy₁, hbusy₂⟩ := hbusy.of_append
    obtain ⟨q₂, hstep, hbusy₃⟩ := hbusy₂.of_cons
    have hq₁ := busy_last hq hbusy₁
    have hrun₁ : Run TimedStep start (before ++ x :: pre) q₁ := by
      have hboth := hrun.append (run_of_busy hbusy₁)
      simpa using hboth
    have hrun₂ : Run TimedStep start ((before ++ x :: pre) ++ [v]) q₂ := Run.snoc hrun₁ hstep.1
    have hfirst := hscale (hattended.prompt before x pre v (rest ++ after) q (by simp) hrun hq.1 hpre)
    have hsplit : before ++ x :: (pre ++ v :: rest ++ after) =
        (before ++ x :: pre) ++ v :: (rest ++ after) := by simp
    rw [hsplit] at hstamped hattended hsizes
    have hz' : z ∈ (v :: rest).getLast? := by
      rw [← List.cons_append, List.getLast?_append_of_ne_nil _ (by simp)] at hz
      exact hz
    rcases exists_last (fun y : TimedEvent P k => y.2.IsAttempt) rest with
      hquiet | ⟨mid, u, tail, rfl, hu, htail⟩
    · have hlast := hscale (hattended.gap hdelay hrun₂ hstep.2.1 hquiet z hz')
      rw [← seconds_add z.1 v.1 x.1, mul_add]
      linarith
    · obtain ⟨q₃, hbusy₄, hbusy₅⟩ := hbusy₃.of_append
      obtain ⟨q₄, hstep', -⟩ := hbusy₅.of_cons
      have hrun₃ : Run TimedStep start (((before ++ x :: pre) ++ v :: mid) ++ [u]) q₄ := by
        have hboth := (hrun₂.append (run_of_busy hbusy₄)).snoc hstep'.1
        simpa using hboth
      have hsplit' : (before ++ x :: pre) ++ v :: (mid ++ u :: tail ++ after) =
          ((before ++ x :: pre) ++ v :: mid) ++ u :: (tail ++ after) := by simp
      have hz'' : z ∈ (u :: tail).getLast? := by
        rw [← List.cons_append, List.getLast?_append_of_ne_nil _ (by simp)] at hz'
        exact hz'
      have hlast := hscale ((hsplit' ▸ hattended).gap hdelay hrun₃ hstep'.2.1 htail z hz'')
      have hassoc : mid ++ u :: tail ++ after = mid ++ u :: (tail ++ after) := by simp
      rw [hassoc] at hstamped hattended hsizes
      have hservice := visits_service hstart hr hstamped hattended hsizes hrun₁ hq₁.2 hstep hbusy₄
        hv hu
      have hmid : (tally bytesReleased (mid.map Prod.snd) : ℚ) ≤
          tally bytesReleased ((pre ++ v :: (mid ++ u :: tail)).map Prod.snd) := by
        have htotal : tally bytesReleased (mid.map Prod.snd) ≤
            tally bytesReleased ((pre ++ v :: (mid ++ u :: tail)).map Prod.snd) := by
          have hbefore := tally_nonneg bytesReleased (pre.map Prod.snd) bytesReleased_nonneg
          have hvisit := bytesReleased_nonneg v.2
          have hmore := tally_le_of_append mid (u :: tail)
          rw [List.map_append, List.map_cons, ← List.singleton_append, tally_append, tally_append,
            tally_singleton]
          omega
        exact_mod_cast htotal
      rw [← seconds_add z.1 u.1 x.1, ← seconds_add u.1 v.1 x.1, mul_add, mul_add]
      linarith

end Port

end Cmcs
