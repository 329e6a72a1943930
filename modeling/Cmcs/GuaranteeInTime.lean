import Cmcs.ChargeLedger
import Cmcs.DeficitBound
import Cmcs.TimedGuarantee
import Mathlib.Tactic

/-!
# The bandwidth guarantee of a run in time

Every run of `QueueingLogicVN` with a clock which does not run backwards takes
each logical queue through a run whose events carry clock readings.  What is left
to assume is what the environment decides: the rate which the control plane sets,
how promptly the worker scans, and the green packets which arrive.
-/

namespace Cmcs

open TransitionSystem

variable {P : Type} {m k : ℕ}

/-- The events of queue `q` with the clock readings of the calls which caused them.
A call without one happens at the last reading before it. -/
def timeline (q : ℕ) : Ticks → List (Call P m k) → List (TimedEvent P k)
  | _, [] => []
  | last, call :: rest =>
      (logOf q call.log).map (fun e => (call.op.reading.getD last, e)) ++
        timeline q (call.op.reading.getD last) rest

section Timeline

variable {q : ℕ} {last : Ticks} {history : List (Call P m k)}

theorem map_snd_timeline (q : ℕ) (last : Ticks) (history : List (Call P m k)) :
    (timeline q last history).map Prod.snd = logOf q (history.flatMap Call.log) := by
  induction history generalizing last with
  | nil => rfl
  | cons call rest ih =>
      rw [timeline, List.map_append, ih, List.flatMap_cons, logOf_append, List.map_map]
      congr 1
      exact List.map_id _

theorem timeline_sorted (hlast : ∀ t ∈ (history.map Call.op).filterMap Op.reading, last ≤ t)
    (hsorted : ((history.map Call.op).filterMap Op.reading).Pairwise (· ≤ ·)) :
    (∀ x ∈ timeline q last history, last ≤ x.1) ∧
      (timeline q last history).Pairwise fun x y => x.1 ≤ y.1 := by
  induction history generalizing last with
  | nil => exact ⟨by simp [timeline], List.Pairwise.nil⟩
  | cons call rest ih =>
      rw [List.map_cons] at hlast hsorted
      have hnext : last ≤ call.op.reading.getD last ∧
          (∀ t ∈ (rest.map Call.op).filterMap Op.reading, call.op.reading.getD last ≤ t) ∧
          ((rest.map Call.op).filterMap Op.reading).Pairwise (· ≤ ·) := by
        cases hreading : call.op.reading with
        | none =>
            rw [List.filterMap_cons_none hreading] at hlast hsorted
            exact ⟨le_rfl, hlast, hsorted⟩
        | some t =>
            rw [List.filterMap_cons_some hreading] at hlast hsorted
            rw [List.pairwise_cons] at hsorted
            exact ⟨hlast t (by simp), hsorted.1, hsorted.2⟩
      obtain ⟨hstamps, hrest⟩ := ih hnext.2.1 hnext.2.2
      have hfirst : ∀ x ∈ (logOf q call.log).map (fun e => (call.op.reading.getD last, e)),
          x.1 = call.op.reading.getD last := by
        intro x hx
        obtain ⟨e, -, rfl⟩ := List.mem_map.mp hx
        rfl
      rw [timeline]
      constructor
      · intro x hx
        rcases List.mem_append.mp hx with hx | hx
        · rw [hfirst x hx]
          exact hnext.1
        · exact hnext.1.trans (hstamps x hx)
      · rw [List.pairwise_append]
        refine ⟨List.pairwise_of_forall_mem_list fun x hx y hy => ?_, hrest, fun x hx y hy => ?_⟩
        · rw [hfirst x hx, hfirst y hy]
        · rw [hfirst x hx]
          exact hstamps y hy

theorem mem_timeline {x : TimedEvent P k} (hx : x ∈ timeline q last history) :
    ∃ call ∈ history, x.2 ∈ logOf q call.log ∧
      ∀ t, call.op.reading = some t → x.1 = t := by
  induction history generalizing last with
  | nil => simp [timeline] at hx
  | cons call rest ih =>
      rw [timeline] at hx
      rcases List.mem_append.mp hx with hx | hx
      · obtain ⟨e, he, rfl⟩ := List.mem_map.mp hx
        exact ⟨call, by simp, he, fun t ht => by rw [ht]; rfl⟩
      · obtain ⟨call', hcall', hrest⟩ := ih hx
        exact ⟨call', by simp [hcall'], hrest⟩

end Timeline

namespace QueueingLogicVN

variable [IngressPacket P] {cfg : Config m k} {s s' : QueueingLogicVN P m k}
variable {capacity : ℕ} {ops : List (Op P m)} {history : List (Call P m k)} {q : ℕ}

theorem map_op_run (hrun : run cfg (initial capacity) ops = some (s, history)) :
    history.map Call.op = ops := by
  apply run_induction (I := fun ops _ history => history.map Call.op = ops) rfl ?_ hrun
  intro ops s history s' call _ hmap _ _
  rw [List.map_append, hmap, List.map_singleton]

theorem time_run (hrun : run cfg (initial capacity) ops = some (s, history)) :
    ∀ call ∈ history, ∀ e ∈ logOf q call.log, ∀ t ∈ e.time, call.op.reading = some t := by
  apply run_induction (I := fun _ _ history => ∀ call ∈ history, ∀ e ∈ logOf q call.log,
    ∀ t ∈ e.time, call.op.reading = some t) (by simp) ?_ hrun
  intro ops s history s' call _ hbefore _ hspec call' hcall' e he t ht
  rcases List.mem_append.mp hcall' with hcall' | hcall'
  · exact hbefore call' hcall' e he t ht
  · obtain rfl : call' = call := by simpa using hcall'
    exact hspec.time he ht

/-- Until the first reading nothing happens to a queue. -/
def startOf (ops : List (Op P m)) : Ticks := (ops.filterMap Op.reading).head?.getD 0

omit [IngressPacket P] in
theorem startOf_le (hsorted : (ops.filterMap Op.reading).Pairwise (· ≤ ·)) :
    ∀ t ∈ ops.filterMap Op.reading, startOf ops ≤ t := by
  rw [startOf]
  cases hreadings : ops.filterMap Op.reading with
  | nil => simp
  | cons first others =>
      rw [hreadings] at hsorted
      intro t ht
      rcases List.mem_cons.mp ht with rfl | ht
      · exact le_rfl
      · exact (List.pairwise_cons.mp hsorted).1 t ht

theorem timed_run (hrun : run cfg (initial capacity) ops = some (s, history))
    (hsorted : (ops.filterMap Op.reading).Pairwise (· ≤ ·)) {created : Ticks}
    {rest : List (TimedEvent P k)}
    (htimeline : timeline q (startOf ops) history = (created, .create created) :: rest) :
    ∃ capacity' p, Run Port.TimedStep (Port.initial capacity' cfg.vnWeights created) rest p ∧
      Port.Stamped (Port.initial capacity' cfg.vnWeights created) rest := by
  have hlabels := map_snd_timeline q (startOf ops) history
  rw [htimeline, List.map_cons] at hlabels
  cases hport : s.port cfg q with
  | none => simp [log_eq_nil_of_port hrun hport] at hlabels
  | some p =>
      obtain ⟨capacity', created', labels, hlog, hlife⟩ := run_port hrun hport
      rw [hlog, List.cons.injEq, Event.create.injEq] at hlabels
      obtain ⟨rfl, hlabels⟩ := hlabels
      refine ⟨capacity', p, Port.timed_of_run hlife hlabels, ?_⟩
      have hmap := map_op_run hrun
      have hstart : ∀ t ∈ (history.map Call.op).filterMap Op.reading, startOf ops ≤ t := by
        rw [hmap]
        exact startOf_le hsorted
      have hall := (timeline_sorted (q := q) hstart (by rwa [hmap])).2
      rw [htimeline, List.pairwise_cons] at hall
      refine ⟨hall.2, fun x hx t ht => ?_, fun x hx => hall.1 x hx⟩
      have hmem : x ∈ timeline q (startOf ops) history := by
        rw [htimeline]
        exact List.mem_cons_of_mem _ hx
      obtain ⟨call, hcall, hlog', hreading⟩ := mem_timeline hmem
      exact (hreading t (time_run hrun call hcall x.2 hlog' t ht)).symm

/-- The control plane sets the rate `r` and the worker lets no packet wait `delay`
seconds for a visit. -/
structure Served (r delay : ℚ) (start : Port P k) (events : List (TimedEvent P k)) : Prop where
  fixed : Port.FixedRate r start events
  attended : Port.Attended delay start events

theorem conditions_of_run (hrun : run cfg (initial capacity) ops = some (s, history))
    (hsorted : (ops.filterMap Op.reading).Pairwise (· ≤ ·)) {L : ℕ}
    (hsizes : ∀ op ∈ ops, op.SizeAtMost L) {created : Ticks} {rest : List (TimedEvent P k)}
    (htimeline : timeline q (startOf ops) history = (created, .create created) :: rest)
    {r delay : ℚ} (hr : 0 ≤ r) (hdelay : 0 ≤ delay)
    (hserved : ∀ c, Served r delay (Port.initial c cfg.vnWeights created) rest) :
    ∃ c p, Run Port.TimedStep (Port.initial c cfg.vnWeights created) rest p ∧
      Port.Conditions L r delay (Port.initial c cfg.vnWeights created) rest := by
  obtain ⟨c, p, hlife, hstamped⟩ := timed_run hrun hsorted htimeline
  have hsize : ∀ x ∈ rest, x.2.SizeAtMost L := by
    intro x hx
    have hmem : x.2 ∈ logOf q (history.flatMap Call.log) := by
      rw [← map_snd_timeline q (startOf ops) history, htimeline]
      exact List.mem_map_of_mem (List.mem_cons_of_mem _ hx)
    exact forall_log_run (A := fun op => op.SizeAtMost L)
      (fun _ _ _ hspec hop => hspec.sizeAtMost hop) hrun hsizes x.2 hmem
  have hmoderate : (Port.initial c cfg.vnWeights created : Port P k).Moderate L := by
    refine ⟨Port.wellFormed_initial c cfg.vnWeights_pos created, by simp [Port.initial], ?_, ?_⟩
    · simp only [Port.initial, LogicalQueueInfo.new, defaultTau]
      positivity
    · norm_num [Port.initial, LogicalQueueInfo.new, defaultTau]
  exact ⟨c, p, hlife, hmoderate, hr, hdelay, hstamped, (hserved c).attended, hsize,
    (hserved c).fixed⟩

/-- The bandwidth guarantee in time.  If the green packets of all VNs arrive at a
rate which the port is served at, then over every stretch of time a VN transmits
at least its green bytes, up to a constant and the green bytes rejected. -/
theorem bandwidth_in_time (hrun : run cfg (initial capacity) ops = some (s, history))
    (hsorted : (ops.filterMap Op.reading).Pairwise (· ≤ ·)) {L : ℕ} (hL : 1 ≤ L)
    (hsizes : ∀ op ∈ ops, op.SizeAtMost L) {created : Ticks} {rest : List (TimedEvent P k)}
    (htimeline : timeline q (startOf ops) history = (created, .create created) :: rest)
    {r delay sigma rho : ℚ} (hr : 0 ≤ r) (hdelay : 0 ≤ delay)
    (hserved : ∀ c, Served r delay (Port.initial c cfg.vnWeights created) rest)
    (hcurve : Port.GreenCurve sigma rho rest) (hsigma : 0 ≤ sigma) (hrho : rho ≤ r)
    {B : ℤ} (hB : sigma + 2 * (r * delay) + defaultTau + 16 * L ≤ 8 * B) :
    ∀ before segment after, rest = before ++ segment ++ after → ∀ i,
      tally (Event.greenOffered i) (segment.map Prod.snd) - B -
          tally Port.greenDropped ((before ++ segment).map Prod.snd) - k * ((L : ℤ) - 1) - L ≤
        bytesTaken i (releases (segment.map Prod.snd)) := by
  obtain ⟨c, p, hlife, hcond⟩ := conditions_of_run hrun hsorted hsizes htimeline hr hdelay hserved
  intro before segment after hsplit i
  rw [← tally_releasedBytes]
  exact Port.releasedBytes_in_time hcond hlife hcurve hsigma hrho hB hL (fun _ => rfl) hsplit i

/-! ## A worker which comes often enough -/

instance (e : Event P k) : Decidable e.IsAttempt :=
  match e with
  | .defer _ => inferInstanceAs (Decidable True)
  | .release .. => inferInstanceAs (Decidable True)
  | .create _ => inferInstanceAs (Decidable False)
  | .push .. => inferInstanceAs (Decidable False)
  | .sweep .. => inferInstanceAs (Decidable False)
  | .select _ => inferInstanceAs (Decidable False)
  | .setVnCapacity .. => inferInstanceAs (Decidable False)
  | .setQueueCapacity _ => inferInstanceAs (Decidable False)
  | .setRate _ => inferInstanceAs (Decidable False)

/-- The events up to the next visit, and the visit. -/
def untilAttempt : List (TimedEvent P k) → List (TimedEvent P k)
  | [] => []
  | x :: events => if x.2.IsAttempt then [x] else x :: untilAttempt events

/-- From no event to the next visit does more than `d` ticks pass. -/
def Frequent (d : Ticks) : List (TimedEvent P k) → Prop
  | [] => True
  | x :: events => (∀ y ∈ untilAttempt events, y.1 - x.1 ≤ d) ∧ Frequent d events

instance decidableFrequent (d : Ticks) :
    (events : List (TimedEvent P k)) → Decidable (Frequent d events)
  | [] => inferInstanceAs (Decidable True)
  | x :: events =>
      have := decidableFrequent d events
      inferInstanceAs (Decidable ((∀ y ∈ untilAttempt events, y.1 - x.1 ≤ d) ∧ Frequent d events))

omit [IngressPacket P] in
theorem mem_untilAttempt {quiet after : List (TimedEvent P k)} {y : TimedEvent P k}
    (hquiet : Port.AttemptFree quiet) : y ∈ untilAttempt (quiet ++ y :: after) := by
  induction quiet with
  | nil =>
      rw [List.nil_append, untilAttempt]
      split <;> exact List.mem_cons_self
  | cons x quiet ih =>
      rw [List.cons_append, untilAttempt, if_neg (hquiet x List.mem_cons_self)]
      exact List.mem_cons_of_mem _ (ih fun z hz => hquiet z (List.mem_cons_of_mem _ hz))

omit [IngressPacket P] in
theorem Frequent.sub_le {d : Ticks} {before quiet after : List (TimedEvent P k)}
    {x y : TimedEvent P k} (hfrequent : Frequent d (before ++ x :: (quiet ++ y :: after)))
    (hquiet : Port.AttemptFree quiet) : y.1 - x.1 ≤ d := by
  induction before with
  | nil => exact hfrequent.1 y (mem_untilAttempt hquiet)
  | cons z before ih => exact ih hfrequent.2

/-- The level which a release leaves lasts for the transmission of its packet. -/
theorem wet_of_release {start p : Port P k} {before : List (TimedEvent P k)}
    {x : TimedEvent P k} {r : ℚ} (hrun : Run Port.TimedStep start (before ++ [x]) p)
    (hrate : p.info.dequeueRateBps = r) {v : Fin k} {qe : QE P}
    (hx : x.2 = .release x.1 v qe) {t : Ticks} (hsoon : r * seconds (t - x.1) ≤ 8 * qe.pktSize) :
    0 ≤ p.info.decayedLevel t := by
  obtain ⟨q, -, hlast⟩ := hrun.of_append
  have hstep : Port.TimedStep q x p := by
    rw [← List.nil_append [x]] at hlast
    obtain ⟨q', hnil, hstep⟩ := hlast.of_concat
    obtain rfl := hnil.eq_of_nil
    exact hstep
  unfold Port.TimedStep at hstep
  rw [hx] at hstep
  cases hstep with
  | release hpending hhead hlevel =>
      have hX : (q.release x.1 v qe).info.X = max 0 (q.info.decayedLevel x.1) + qe.pktSize * 8 := rfl
      have hLCT : (q.release x.1 v qe).info.LCT = x.1 := rfl
      have hmax := le_max_left 0 (q.info.decayedLevel x.1)
      rw [LogicalQueueInfo.decayedLevel, hX, hLCT, hrate]
      linarith

/-- A worker which never lets more time pass than it takes to send the packet which it
released last. -/
theorem attended_of_frequent {start : Port P k} {events : List (TimedEvent P k)} {r : ℚ}
    {d : Ticks} (hwf : start.WellFormed) (hr : 0 ≤ r) (hfixed : Port.FixedRate r start events)
    (hfrequent : Frequent d events)
    (hreleases : ∀ x ∈ events, x.2.IsAttempt → ∃ v qe, x.2 = .release x.1 v qe ∧
      r * seconds d ≤ 8 * qe.pktSize) : Port.Attended (seconds d) start events where
  prompt before x quiet y after p hsplit _ _ hquiet := by
    rw [hsplit] at hfrequent
    exact seconds_mono (hfrequent.sub_le hquiet)
  wet before x quiet y after p hsplit hrun hsize hquiet hx _ := by
    obtain ⟨v, qe, hrelease, hsend⟩ := hreleases x (by simp [hsplit]) hx
    have hconcat : events = (before ++ [x]) ++ (quiet ++ y :: after) := by simp [hsplit]
    have hrate := hfixed.rate hwf hconcat hrun hsize
    rw [hsplit] at hfrequent
    have hle := seconds_mono (hfrequent.sub_le hquiet)
    exact wet_of_release hrun hrate hrelease ((mul_le_mul_of_nonneg_left hle hr).trans hsend)

/-- Green packets which arrive along a line of slope `rho` obey its token bucket. -/
theorem greenCurve_of_line {rho a b : ℚ} {events : List (TimedEvent P k)}
    (hline : ∀ n < events.length, ∀ x ∈ events[n]?,
      rho * seconds x.1 - a ≤ 8 * tally Port.greenPushed ((events.take n).map Prod.snd) ∧
        8 * tally Port.greenPushed ((events.take (n + 1)).map Prod.snd) ≤
          rho * seconds x.1 + b) : Port.GreenCurve (a + b) rho events := by
  intro before segment after hsplit x hx z hz
  obtain ⟨tail, rfl⟩ := List.head?_eq_some_iff.mp hx
  obtain ⟨front, hfront⟩ := List.getLast?_eq_some_iff.mp hz
  have hfirst := (hline before.length (by simp [hsplit]) x (by simp [hsplit])).1
  have hlast := (hline (before ++ front).length (by simp [hsplit, hfront]) z
    (by simp [hsplit, hfront])).2
  have hwhole : events.take ((before ++ front).length + 1) = before ++ (x :: tail) := by
    have hlength : (before ++ front).length + 1 = (before ++ (x :: tail)).length := by
      simp [hfront, Nat.add_assoc]
    rw [hsplit, hlength, List.take_left]
  have hbefore : events.take before.length = before := by simp [hsplit]
  rw [hbefore] at hfirst
  rw [hwhole, List.map_append, tally_append] at hlast
  push_cast at hlast
  rw [seconds_sub]
  linarith

deriving instance DecidableEq for Selection, Event

/-- Every millisecond a green packet of VN 0 arrives and is sent, at 12.112 Mbps.  VN 1
has a yellow packet which waits for all of them. -/
def steadyOps : List (Op ℕ 1) :=
  [.setRate 0 12112000 1, .pushFront 0 1 1 (some 1514) 1] ++
    (List.range 14).flatMap fun n =>
      [.pushFront 0 0 0 (some 1514) (1000000 * (n + 1)), .scan (Fin.last 0) (1000000 * (n + 1))]

def steadyPacket : QE ℕ := ⟨some 1514, 0, 1514⟩

def steadyRound (t : Ticks) : List (TimedEvent ℕ 2) :=
  [(t, .push Port.firstVn 0 (some 1514) true), (t, .sweep t []),
    (t, .select ⟨Port.firstVn, .green, 0, [Port.secondVn, Port.firstVn], steadyPacket⟩),
    (t, .release t Port.firstVn steadyPacket)]

def steadyTimeline : List (TimedEvent ℕ 2) :=
  (1, .setRate 12112000) :: (1, .push Port.secondVn 1 (some 1514) true) ::
    (List.range 14).flatMap fun n => steadyRound (1000000 * (n + 1))

theorem mem_steadyTimeline {x : TimedEvent ℕ 2} (hx : x ∈ steadyTimeline) :
    x = (1, .setRate 12112000) ∨ x = (1, .push Port.secondVn 1 (some 1514) true) ∨
      ∃ t, x ∈ steadyRound t := by
  rcases List.mem_cons.mp hx with rfl | hx
  · exact Or.inl rfl
  rcases List.mem_cons.mp hx with rfl | hx
  · exact Or.inr (Or.inl rfl)
  obtain ⟨n, -, hn⟩ := List.mem_flatMap.mp hx
  exact Or.inr (Or.inr ⟨_, hn⟩)

theorem fixedRate_steady (c : ℕ) :
    Port.FixedRate 12112000 (Port.initial c Config.pair.vnWeights 1) steadyTimeline where
  set x hx bps hset := by
    rcases mem_steadyTimeline hx with rfl | rfl | ⟨t, ht⟩
    · obtain rfl := Event.setRate.inj hset
      norm_num
    · simp at hset
    · have hnone : ∀ y ∈ steadyRound t, y.2 ≠ .setRate bps := by simp [steadyRound]
      exact absurd hset (hnone x ht)
  created := Or.inr ⟨rfl, by simp [steadyTimeline]⟩

theorem served_steady (c : ℕ) :
    Served 12112000 (seconds 1000000) (Port.initial c Config.pair.vnWeights 1)
      steadyTimeline := by
  refine ⟨fixedRate_steady c, attended_of_frequent
    (Port.wellFormed_initial c Config.pair.vnWeights_pos 1) (by norm_num) (fixedRate_steady c)
    (by decide +kernel) fun x hx hattempt => ?_⟩
  rcases mem_steadyTimeline hx with rfl | rfl | ⟨t, ht⟩
  · exact absurd hattempt id
  · exact absurd hattempt id
  · have hrelease : ∀ y ∈ steadyRound t, y.2.IsAttempt →
        y.2 = .release y.1 Port.firstVn steadyPacket := by
      simp [steadyRound, Event.IsAttempt]
    refine ⟨Port.firstVn, steadyPacket, hrelease x ht hattempt, ?_⟩
    norm_num [seconds, steadyPacket]

theorem sizeAtMost_steady : ∀ op ∈ steadyOps, op.SizeAtMost 1514 := by
  intro op hop
  simp only [steadyOps, List.mem_append, List.mem_cons, List.not_mem_nil, or_false,
    List.mem_flatMap] at hop
  rcases hop with (rfl | rfl) | ⟨n, -, rfl | rfl⟩ <;>
    simp [Op.SizeAtMost, ingressSize, IngressPacket.getIngressLength]

/-- The bound of the whole run leaves VN 0 more than 3000 bytes. -/
theorem bandwidth_in_time_steady :
    ∃ s history, run Config.pair (initial 64) steadyOps = some (s, history) ∧
      timeline 0 1 history = (1, .create 1) :: steadyTimeline ∧
      ∀ before segment after, steadyTimeline = before ++ segment ++ after → ∀ i : Fin 2,
        tally (Event.greenOffered i) (segment.map Prod.snd) - 13626 -
            tally Port.greenDropped ((before ++ segment).map Prod.snd) -
              (2 : ℕ) * ((1514 : ℕ) - 1 : ℤ) - (1514 : ℕ) ≤
          bytesTaken i (releases (segment.map Prod.snd)) := by
  have heval : (run Config.pair (initial 64) steadyOps).map (fun r => timeline 0 1 r.2) =
      some ((1, .create 1) :: steadyTimeline) := by
    decide +kernel
  obtain ⟨⟨s, history⟩, hrun, htimeline⟩ := Option.map_eq_some_iff.mp heval
  refine ⟨s, history, hrun, htimeline, ?_⟩
  have hcurve : Port.GreenCurve (12112 + 0) 12112000 steadyTimeline :=
    greenCurve_of_line (by decide +kernel)
  exact bandwidth_in_time hrun (by decide) (by decide) sizeAtMost_steady htimeline (by norm_num)
    (by norm_num [seconds]) served_steady hcurve (by norm_num) le_rfl
    (by norm_num [defaultTau, seconds])

end QueueingLogicVN

end Cmcs
