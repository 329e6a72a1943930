import Cmcs.PortLedger
import Cmcs.QueueingLogicVN
import Mathlib.Tactic

/-!
# One scan of `pop_back`, queue by queue

A scan does to each logical queue a run of that queue's own transition system,
and its log shows which.  The specification is proved for one visit and carried
over the loop by induction on the candidate offsets.
-/

namespace Cmcs

open TransitionSystem

variable {P : Type} {k : ℕ}

def Event.released : Event P k → Option (Ticks × Fin k × QE P)
  | .release now v qe => some (now, v, qe)
  | _ => none

/-- The events which a scan at reading `now` can show. -/
def Event.ScannedAt (now : Ticks) : Event P k → Prop
  | .sweep t _ => t = now
  | .defer t => t = now
  | .release t _ _ => t = now
  | .select _ => True
  | _ => False

def releases (events : List (Event P k)) : List (Ticks × Fin k × QE P) :=
  events.filterMap Event.released

def logOf (q : ℕ) (log : Log P k) : List (Event P k) :=
  log.filterMap fun entry => if entry.1 = q then some entry.2 else none

section Logs

variable (q : ℕ) (log more : Log P k)

@[simp] theorem releases_nil : releases ([] : List (Event P k)) = [] := rfl

@[simp] theorem releases_singleton (e : Event P k) : releases [e] = e.released.toList := by
  unfold releases
  cases he : e.released <;> simp [he]

@[simp] theorem releases_append (events rest : List (Event P k)) :
    releases (events ++ rest) = releases events ++ releases rest :=
  List.filterMap_append

@[simp] theorem logOf_nil : logOf q ([] : Log P k) = [] := rfl

@[simp] theorem logOf_append : logOf q (log ++ more) = logOf q log ++ logOf q more :=
  List.filterMap_append

theorem logOf_map (qid : ℕ) (events : List (Event P k)) :
    logOf q (events.map fun e => (qid, e)) = if qid = q then events else [] := by
  unfold logOf
  rw [List.filterMap_map]
  by_cases hq : qid = q
  · simp [hq]
  · simp [hq]

theorem logOf_singleton (qid : ℕ) (e : Event P k) :
    logOf q [(qid, e)] = if qid = q then [e] else [] :=
  logOf_map q qid [e]

end Logs

namespace Port

/-- The dequeue of `pop_back` from the deque of VN `v`, after the bucket has
been updated. -/
def departed (p : Port P k) (v : Fin k) (now : Ticks) : Port P k where
  info := p.info.depart v now
  phys := Function.update p.phys v (p.phys v).tail

/-- One slot of `logical_queues_info` over its life: the lazy creation, then
the steps of the queue. -/
inductive Life [IngressPacket P] (weights : Fin k → ℤ) :
    Option (Port P k) → Event P k → Option (Port P k) → Prop
  | create (capacity : ℕ) (now : Ticks) :
      Life weights none (.create now) (some (initial capacity weights now))
  | live {p p' : Port P k} {e : Event P k} (hstep : Step p e p') :
      Life weights (some p) e (some p')

section Life

variable [IngressPacket P] {weights : Fin k → ℤ} {p p' : Port P k}
variable {o o' : Option (Port P k)} {events : List (Event P k)}

theorem Life.of_run (hrun : Run Step p events p') :
    Run (Life weights) (some p) events (some p') := by
  induction hrun with
  | nil => exact Run.nil
  | snoc _ hstep ih => exact Run.snoc ih (Life.live hstep)

/-- The life of a slot is empty or a run of the queue from its creation. -/
theorem Life.cases_run (hrun : Run (Life weights) none events o) :
    (events = [] ∧ o = none) ∨
      ∃ capacity now rest p, events = .create now :: rest ∧ o = some p ∧
        Run Step (initial capacity weights now) rest p := by
  induction hrun with
  | nil => exact Or.inl ⟨rfl, rfl⟩
  | snoc _ hstep ih =>
      cases hstep with
      | create capacity now =>
          cases ih with
          | inl hnone =>
              refine Or.inr ⟨capacity, now, [], _, ?_, rfl, Run.nil⟩
              rw [hnone.1]
              rfl
          | inr hsome =>
              rcases hsome with ⟨_, _, _, _, _, heq, _⟩
              simp at heq
      | live hstep =>
          cases ih with
          | inl hnone => simp at hnone
          | inr hsome =>
              rcases hsome with ⟨capacity, now, rest, q, hevents, heq, hrest⟩
              simp only [Option.some.injEq] at heq
              subst q
              refine Or.inr ⟨capacity, now, rest ++ [_], _, ?_, rfl, Run.snoc hrest hstep⟩
              rw [hevents]
              rfl

theorem Life.created_of_run (hrun : Run (Life weights) none events (some p)) :
    ∃ capacity now rest, events = .create now :: rest ∧
      Run Step (initial capacity weights now) rest p := by
  cases Life.cases_run hrun with
  | inl hnone => simp at hnone
  | inr hsome =>
      obtain ⟨capacity, now, rest, q, hevents, heq, hrest⟩ := hsome
      simp only [Option.some.injEq] at heq
      subst q
      exact ⟨capacity, now, rest, hevents, hrest⟩

theorem Life.eq_nil_of_none (hrun : Run (Life weights) none events none) : events = [] := by
  cases Life.cases_run hrun with
  | inl hnone => exact hnone.1
  | inr hsome =>
      obtain ⟨_, _, _, _, _, heq, _⟩ := hsome
      simp at heq

theorem Life.run_of_some (hrun : Run (Life weights) (some p) events o) :
    ∃ p', o = some p' ∧ Run Step p events p' := by
  induction hrun with
  | nil => exact ⟨p, rfl, Run.nil⟩
  | snoc _ hstep ih =>
      obtain ⟨q, rfl, hbefore⟩ := ih
      cases hstep with
      | live hstep => exact ⟨_, rfl, Run.snoc hbefore hstep⟩

theorem Life.wellFormed_run (hweights : ∀ v, 0 < weights v)
    (hrun : Run (Life weights) o events o') (hwf : ∀ p, o = some p → p.WellFormed) :
    ∀ p, o' = some p → p.WellFormed := by
  refine hrun.invariant (I := fun o => ∀ p, o = some p → p.WellFormed) ?_ hwf
  intro o e o' ho hstep p hp
  cases hstep with
  | create capacity now =>
      simp only [Option.some.injEq] at hp
      subst p
      exact wellFormed_initial capacity hweights now
  | live hstep =>
      simp only [Option.some.injEq] at hp
      subst p
      exact (ho _ rfl).step hstep

end Life

end Port

/-! ## One visit -/

section Visit

variable [IngressPacket P] {p : Port P k} {now : Ticks}

theorem decision_run (hsize : p.info.size ≠ 0) (hwf : p.WellFormed) {sel : Fin k}
    {lq : LogicalQueueInfo k} {events : List (Event P k)}
    (hdecision : p.info.decision now p.phys = some (sel, lq, events)) :
    Run Port.Step p events { p with info := lq } ∧ lq.pendingVn = some sel ∧
      lq.size = p.info.size ∧ releases events = [] ∧ ∀ e ∈ events, e.ScannedAt now := by
  unfold LogicalQueueInfo.decision at hdecision
  cases hpending : p.info.pendingVn with
  | some v =>
      simp only [hpending, Option.some.injEq, Prod.mk.injEq] at hdecision
      rcases hdecision with ⟨rfl, rfl, rfl⟩
      exact ⟨Run.nil, hpending, rfl, rfl, by simp⟩
  | none =>
      simp only [hpending] at hdecision
      rcases Option.bind_eq_some_iff.mp hdecision with ⟨⟨choice, lq'⟩, hselect, heq⟩
      simp only [Option.some.injEq, Prod.mk.injEq] at heq
      rcases heq with ⟨rfl, rfl, rfl⟩
      have hswept := hwf.sweep now
      have hfree : (p.sweep now).info.pendingVn = none := by
        simp [Port.sweep, LogicalQueueInfo.sweep_eq, hpending]
      have htotal : (p.sweep now).info.size = p.info.size := by
        simp [Port.sweep, LogicalQueueInfo.sweep_eq]
      have hspec := (p.sweep now).info.selectVn_selected hswept.nodup hselect
      have hrun : Run Port.Step p [.sweep now (p.info.evicted now)] (p.sweep now) :=
        Run.single (Port.Step.sweep p now)
      refine ⟨Run.snoc hrun (Port.Step.select hfree (htotal ▸ hsize) hselect), rfl, ?_,
        rfl, by simp [Event.ScannedAt]⟩
      have hlq' : lq'.size = (p.sweep now).info.size := by
        rw [hspec.result]
      exact hlq'.trans htotal

omit [IngressPacket P] in
theorem decision_isSome (now : Ticks) (hsize : p.info.size ≠ 0) (hwf : p.WellFormed) :
    ∃ sel lq events, p.info.decision now p.phys = some (sel, lq, events) := by
  unfold LogicalQueueInfo.decision
  cases hpending : p.info.pendingVn with
  | some v => exact ⟨v, p.info, [], rfl⟩
  | none =>
      have hswept := hwf.sweep now
      have htotal : (p.sweep now).info.size = p.info.size := by
        simp [Port.sweep, LogicalQueueInfo.sweep_eq]
      rcases Port.exists_nonempty hswept (htotal ▸ hsize) with ⟨j, hj⟩
      have hhead : ∀ i, ((p.sweep now).vn i).size ≠ 0 → p.phys i ≠ [] := by
        intro i hi hnil
        apply hi
        rw [hswept.size_eq i]
        simp [Port.sweep, hnil]
      rcases (p.sweep now).info.selectVn_isSome hswept.nodup hswept.weight_pos hhead
        (hswept.active j hj) hj with ⟨choice, lq', hselect⟩
      have hselect' : (p.info.sweep now).selectVn p.phys = some (choice, lq') := hselect
      refine ⟨choice.vn, { lq' with pendingVn := some choice.vn },
        [.sweep now (p.info.evicted now), .select choice], ?_⟩
      simp [hselect']

/-- What a visit leaves behind: a deferred decision, or a bucket which has let
the head packet of the served VN pass. -/
structure Visited (p : Port P k) (now : Ticks) (visit : Visit P k) : Prop where
  size_eq : visit.queue.size = p.info.size
  scannedAt : ∀ e ∈ visit.events, e.ScannedAt now
  deferred : visit.served = none →
    Run Port.Step p visit.events ⟨visit.queue, p.phys⟩ ∧ releases visit.events = [] ∧
      .defer now ∈ visit.events
  served : ∀ v, visit.served = some v →
    Run Port.Step p visit.events (Port.departed ⟨visit.queue, p.phys⟩ v now) ∧
      ∃ qe before, (p.phys v).head? = some qe ∧
        visit.events = before ++ [.release now v qe] ∧ releases before = []

theorem visit_visited (hsize : p.info.size ≠ 0) (hwf : p.WellFormed) {visit : Visit P k}
    (hvisit : p.info.visit now p.phys = some visit) : Visited p now visit := by
  unfold LogicalQueueInfo.visit at hvisit
  rcases Option.bind_eq_some_iff.mp hvisit with ⟨⟨sel, lq, events⟩, hdecision, hrest⟩
  rcases Option.bind_eq_some_iff.mp hrest with ⟨head, hhead, houtcome⟩
  rcases decision_run hsize hwf hdecision with ⟨hrun, hpending, htotal, hreleases, htimes⟩
  have htimes' : ∀ last : Event P k, last.ScannedAt now →
      ∀ e ∈ events ++ [last], e.ScannedAt now := by
    intro last hlast e he
    cases List.mem_append.mp he with
    | inl hbefore => exact htimes e hbefore
    | inr he => exact List.mem_singleton.mp he ▸ hlast
  split at houtcome
  next hlevel =>
    simp only [Option.some.injEq] at houtcome
    subst visit
    refine ⟨htotal, htimes' _ rfl, fun _ => ⟨?_, ?_, by simp⟩, fun v hv => by simp at hv⟩
    · exact Run.snoc hrun (Port.Step.defer hpending hlevel)
    · simp [hreleases, Event.released]
  next hlevel =>
    simp only [Option.some.injEq] at houtcome
    subst visit
    refine ⟨htotal, htimes' _ rfl, fun hnone => by simp at hnone, fun v hv => ?_⟩
    simp only [Option.some.injEq] at hv
    subst v
    refine ⟨?_, head, events, hhead, rfl, hreleases⟩
    exact Run.snoc hrun (Port.Step.release hpending hhead (not_lt.mp hlevel))

theorem visit_isSome (now : Ticks) (hsize : p.info.size ≠ 0) (hwf : p.WellFormed) :
    ∃ visit, p.info.visit now p.phys = some visit := by
  rcases decision_isSome now hsize hwf with ⟨sel, lq, events, hdecision⟩
  rcases decision_run hsize hwf hdecision with ⟨hrun, hpending, -, -, -⟩
  have hne : p.phys sel ≠ [] := (hwf.run hrun).pending_ne_nil hpending
  rcases Option.isSome_iff_exists.mp (List.isSome_head?.mpr (by simpa using hne)) with ⟨head, hhead⟩
  unfold LogicalQueueInfo.visit
  rw [hdecision]
  simp only [Option.bind_eq_bind, Option.bind_some, hhead]
  split
  · exact ⟨_, rfl⟩
  · exact ⟨_, rfl⟩

end Visit

/-! ## The scan loop -/

namespace WorkerInfo

variable (wInfo : WorkerInfo P k) (now : Ticks)

def port (queues : ℕ → Option (LogicalQueueInfo k)) (q : ℕ) : Option (Port P k) :=
  (queues q).bind fun lq => (wInfo.physicalQueues q).map fun phys => ⟨lq, phys⟩

def portAfter (scanned : ScanState P k) (q : ℕ) : Option (Port P k) :=
  match scanned.selected with
  | none => wInfo.port scanned.queues q
  | some (_, qid, v) =>
      if q = qid then (wInfo.port scanned.queues q).map fun p => p.departed v now
      else wInfo.port scanned.queues q

theorem port_eq_some {queues : ℕ → Option (LogicalQueueInfo k)} {q : ℕ} {p : Port P k} :
    wInfo.port queues q = some p ↔
      queues q = some p.info ∧ wInfo.physicalQueues q = some p.phys := by
  rcases p with ⟨info, phys⟩
  simp [port, Option.bind_eq_some_iff]

theorem port_update (queues : ℕ → Option (LogicalQueueInfo k)) (qid q : ℕ)
    (lq : LogicalQueueInfo k) :
    wInfo.port (Function.update queues qid (some lq)) q =
      if q = qid then (wInfo.physicalQueues q).map fun phys => ⟨lq, phys⟩
      else wInfo.port queues q := by
  by_cases hq : q = qid
  · subst q
    simp [port]
  · simp [port, hq]

/-- What the scan loop over the offsets `cs` does: a run of every queue, sizes
unchanged until the selected packet leaves, at most one packet selected, and no
non-empty candidate passed over without a deferral. -/
structure Scanned [IngressPacket P] (weights : Fin k → ℤ) (cs : List ℕ)
    (queues : ℕ → Option (LogicalQueueInfo k)) (scanned : ScanState P k) : Prop where
  run : ∀ q, Run (Port.Life weights) (wInfo.port queues q) (logOf q scanned.log)
    (wInfo.portAfter now scanned q)
  size_eq : ∀ q, (scanned.queues q).map (fun lq => lq.size) =
    (queues q).map fun lq => lq.size
  frame : ∀ q, q ∉ wInfo.logicalQueueIds →
    scanned.queues q = queues q ∧ logOf q scanned.log = []
  scannedAt : ∀ q, ∀ e ∈ logOf q scanned.log, e.ScannedAt now
  waited : scanned.selected = none →
    (∀ q, releases (logOf q scanned.log) = []) ∧
      ∀ c ∈ cs, ∀ q lq, wInfo.logicalQueueIds[(wInfo.workerRrPtr + c) %
          wInfo.logicalQueueIds.length]? = some q →
        queues q = some lq → lq.size ≠ 0 → .defer now ∈ logOf q scanned.log
  served : ∀ j qid v, scanned.selected = some (j, qid, v) →
    qid ∈ wInfo.logicalQueueIds ∧
      ∃ p qe before, wInfo.port scanned.queues qid = some p ∧ p.info.size ≠ 0 ∧
        (p.phys v).head? = some qe ∧
        logOf qid scanned.log = before ++ [.release now v qe] ∧ releases before = [] ∧
        ∀ q, q ≠ qid → releases (logOf q scanned.log) = []

/-- What the loop does with its first candidate: it passes over an empty queue,
ends at a queue which lets its packet go, and goes on behind a deferral. -/
inductive LoopStep (c : ℕ) (cs : List ℕ) (queues : ℕ → Option (LogicalQueueInfo k)) :
    ScanState P k → Prop
  | empty {qid : ℕ} {lq : LogicalQueueInfo k} {scanned : ScanState P k}
      (hid : wInfo.logicalQueueIds[(wInfo.workerRrPtr + c) % wInfo.logicalQueueIds.length]? =
        some qid)
      (hlq : queues qid = some lq) (hsize : lq.size = 0)
      (hloop : wInfo.scanLoop now cs queues = some scanned) : LoopStep c cs queues scanned
  | served {qid : ℕ} {p : Port P k} {visit : Visit P k} {v : Fin k}
      (hid : wInfo.logicalQueueIds[(wInfo.workerRrPtr + c) % wInfo.logicalQueueIds.length]? =
        some qid)
      (hport : wInfo.port queues qid = some p) (hsize : p.info.size ≠ 0)
      (hvisit : p.info.visit now p.phys = some visit) (hserved : visit.served = some v) :
      LoopStep c cs queues
        { queues := Function.update queues qid (some visit.queue)
          selected := some ((wInfo.workerRrPtr + c) % wInfo.logicalQueueIds.length, qid, v)
          log := visit.events.map fun e => (qid, e) }
  | deferred {qid : ℕ} {p : Port P k} {visit : Visit P k} {rest : ScanState P k}
      (hid : wInfo.logicalQueueIds[(wInfo.workerRrPtr + c) % wInfo.logicalQueueIds.length]? =
        some qid)
      (hport : wInfo.port queues qid = some p) (hsize : p.info.size ≠ 0)
      (hvisit : p.info.visit now p.phys = some visit) (hserved : visit.served = none)
      (hloop : wInfo.scanLoop now cs (Function.update queues qid (some visit.queue)) =
        some rest) :
      LoopStep c cs queues
        { rest with
          nextWakeUpTime := min visit.wakeTime rest.nextWakeUpTime
          log := (visit.events.map fun e => (qid, e)) ++ rest.log }

theorem scanLoop_cons {c : ℕ} {cs : List ℕ} {queues : ℕ → Option (LogicalQueueInfo k)}
    {scanned : ScanState P k} (hscan : wInfo.scanLoop now (c :: cs) queues = some scanned) :
    wInfo.LoopStep now c cs queues scanned := by
  rw [scanLoop] at hscan
  rcases Option.bind_eq_some_iff.mp hscan with ⟨qid, hid, hscan⟩
  rcases Option.bind_eq_some_iff.mp hscan with ⟨lq, hlq, hscan⟩
  split at hscan
  next hsize => exact .empty hid hlq hsize hscan
  next hsize =>
    rcases Option.bind_eq_some_iff.mp hscan with ⟨phys, hphys, hscan⟩
    rcases Option.bind_eq_some_iff.mp hscan with ⟨visit, hvisit, hscan⟩
    have hport : wInfo.port queues qid = some ⟨lq, phys⟩ :=
      wInfo.port_eq_some.mpr ⟨hlq, hphys⟩
    cases hserved : visit.served with
    | some v =>
        simp only [hserved, Option.some.injEq] at hscan
        rw [← hscan]
        exact .served hid hport hsize hvisit hserved
    | none =>
        simp only [hserved] at hscan
        rcases Option.bind_eq_some_iff.mp hscan with ⟨rest, hloop, heq⟩
        simp only [Option.some.injEq] at heq
        rw [← heq]
        exact .deferred hid hport hsize hvisit hserved hloop

variable {wInfo now} [IngressPacket P] {weights : Fin k → ℤ} {cs : List ℕ} {c : ℕ}
variable {queues : ℕ → Option (LogicalQueueInfo k)} {scanned : ScanState P k}

private theorem scanned_nil : wInfo.Scanned now weights [] queues { queues := queues } where
  run _ := Run.nil
  size_eq _ := rfl
  frame _ _ := ⟨rfl, rfl⟩
  scannedAt q e he := by simp at he
  waited _ := ⟨fun _ => rfl, fun c hc => by simp at hc⟩
  served j qid v hselected := by simp at hselected

private theorem scanned_empty {qid : ℕ} {lq : LogicalQueueInfo k}
    (hid : wInfo.logicalQueueIds[(wInfo.workerRrPtr + c) % wInfo.logicalQueueIds.length]? =
      some qid)
    (hlq : queues qid = some lq) (hsize : lq.size = 0)
    (hrest : wInfo.Scanned now weights cs queues scanned) :
    wInfo.Scanned now weights (c :: cs) queues scanned := by
  refine ⟨hrest.run, hrest.size_eq, hrest.frame, hrest.scannedAt, ?_, hrest.served⟩
  intro hnone
  refine ⟨(hrest.waited hnone).1, fun c' hc' q lq' hq hlq' hsize' => ?_⟩
  cases List.mem_cons.mp hc' with
  | inl heq =>
      subst c'
      rw [hid, Option.some.injEq] at hq
      subst q
      rw [hlq, Option.some.injEq] at hlq'
      subst lq'
      exact absurd hsize hsize'
  | inr hmem => exact (hrest.waited hnone).2 c' hmem q lq' hq hlq' hsize'

private theorem scanned_served {qid j : ℕ} {p : Port P k} {visit : Visit P k} {v : Fin k}
    (hqid : qid ∈ wInfo.logicalQueueIds) (hport : wInfo.port queues qid = some p)
    (hsize : p.info.size ≠ 0) (hvisited : Visited p now visit)
    (hserved : visit.served = some v) :
    wInfo.Scanned now weights cs queues
      { queues := Function.update queues qid (some visit.queue)
        selected := some (j, qid, v)
        log := visit.events.map fun e => (qid, e) } := by
  rcases wInfo.port_eq_some.mp hport with ⟨hlq, hphys⟩
  rcases hvisited.served v hserved with ⟨hrun, qe, before, hhead, hevents, hreleases⟩
  constructor
  · intro q
    rw [logOf_map]
    by_cases hq : q = qid
    · subst q
      simp only [portAfter, if_true, port_update, hphys, Option.map_some, hport]
      exact Port.Life.of_run hrun
    · simp only [portAfter, if_neg hq, if_neg (Ne.symm hq), port_update]
      exact Run.nil
  · intro q
    by_cases hq : q = qid
    · subst q
      simp [hlq, hvisited.size_eq]
    · simp [hq]
  · intro q hq
    have hne : q ≠ qid := fun heq => hq (heq ▸ hqid)
    simp [logOf_map, hne, Ne.symm hne]
  · intro q e he
    rw [logOf_map] at he
    split at he
    · exact hvisited.scannedAt e he
    · simp at he
  · intro hnone
    simp at hnone
  · intro j' qid' v' hselected
    simp only [Option.some.injEq, Prod.mk.injEq] at hselected
    rcases hselected with ⟨rfl, rfl, rfl⟩
    refine ⟨hqid, ⟨visit.queue, p.phys⟩, qe, before, ?_, ?_, hhead, ?_, hreleases, ?_⟩
    · simp [port_update, hphys]
    · simpa [hvisited.size_eq] using hsize
    · rw [logOf_map, if_pos rfl, hevents]
    · intro q hq
      rw [logOf_map, if_neg (Ne.symm hq)]
      rfl

private theorem scanned_deferred {qid : ℕ} {p : Port P k} {visit : Visit P k}
    (hid : wInfo.logicalQueueIds[(wInfo.workerRrPtr + c) % wInfo.logicalQueueIds.length]? =
      some qid)
    (hport : wInfo.port queues qid = some p)
    (hvisited : Visited p now visit) (hserved : visit.served = none)
    (hrest : wInfo.Scanned now weights cs (Function.update queues qid (some visit.queue))
      scanned)
    (wake : WithTop Ticks) :
    wInfo.Scanned now weights (c :: cs) queues
      { scanned with
        nextWakeUpTime := wake
        log := (visit.events.map fun e => (qid, e)) ++ scanned.log } := by
  have hqid : qid ∈ wInfo.logicalQueueIds := List.mem_of_getElem? hid
  rcases wInfo.port_eq_some.mp hport with ⟨hlq, hphys⟩
  rcases hvisited.deferred hserved with ⟨hrun, hreleases, hdefer⟩
  have hlog : ∀ q, logOf q ((visit.events.map fun e => (qid, e)) ++ scanned.log) =
      (if qid = q then visit.events else []) ++ logOf q scanned.log := by
    intro q
    rw [logOf_append, logOf_map]
  have hnone : ∀ q, releases (logOf q ((visit.events.map fun e => (qid, e)) ++ scanned.log)) =
      releases (logOf q scanned.log) := by
    intro q
    rw [hlog, releases_append]
    split
    · rw [hreleases, List.nil_append]
    · rfl
  have hsizes : ∀ q, (Function.update queues qid (some visit.queue) q).map
      (fun lq => lq.size) = (queues q).map fun lq => lq.size := by
    intro q
    by_cases hq : q = qid
    · subst q
      simp [hlq, hvisited.size_eq]
    · simp [hq]
  constructor
  · intro q
    have hlater := hrest.run q
    rw [port_update] at hlater
    rw [hlog]
    by_cases hq : q = qid
    · subst q
      simp only [if_true, hphys, Option.map_some] at hlater
      simp only [if_true, hport]
      exact (Port.Life.of_run hrun).append hlater
    · rw [if_neg hq] at hlater
      rw [if_neg (Ne.symm hq), List.nil_append]
      exact hlater
  · intro q
    rw [hrest.size_eq q, hsizes q]
  · intro q hq
    have hne : q ≠ qid := fun heq => hq (heq ▸ hqid)
    simpa [logOf_map, hne, Ne.symm hne] using hrest.frame q hq
  · intro q e he
    rw [hlog] at he
    cases List.mem_append.mp he with
    | inl hvisit =>
        split at hvisit
        · exact hvisited.scannedAt e hvisit
        · simp at hvisit
    | inr hlater => exact hrest.scannedAt q e hlater
  · intro hselected
    rcases hrest.waited hselected with ⟨hquiet, hall⟩
    refine ⟨fun q => (hnone q).trans (hquiet q), fun c' hc' q lq hq hlq' hsize => ?_⟩
    rw [hlog]
    by_cases heq : q = qid
    · subst q
      rw [if_pos rfl]
      exact List.mem_append_left _ hdefer
    · cases List.mem_cons.mp hc' with
      | inl hc =>
          subst c'
          rw [hid, Option.some.injEq] at hq
          exact absurd hq.symm heq
      | inr hmem =>
          refine List.mem_append_right _ (hall c' hmem q lq hq ?_ hsize)
          rwa [Function.update_of_ne heq]
  · intro j qid' v hselected
    rcases hrest.served j qid' v hselected with
      ⟨hmem, p', qe, before, hp', hsize, hhead, hlast, hbefore, hothers⟩
    refine ⟨hmem, p', qe, (if qid = qid' then visit.events else []) ++ before, hp', hsize,
      hhead, ?_, ?_, fun q hq => (hnone q).trans (hothers q hq)⟩
    · rw [hlog, hlast, List.append_assoc]
    · rw [releases_append, hbefore, List.append_nil]
      split
      · exact hreleases
      · rfl

theorem port_update_wellFormed {qid : ℕ} {p : Port P k} {visit : Visit P k}
    (hwf : ∀ q p, wInfo.port queues q = some p → p.WellFormed)
    (hport : wInfo.port queues qid = some p) (hvisited : Visited p now visit)
    (hserved : visit.served = none) :
    ∀ q p', wInfo.port (Function.update queues qid (some visit.queue)) q = some p' →
      p'.WellFormed := by
  intro q p' hp'
  rw [port_update] at hp'
  split at hp'
  next hq =>
    subst q
    rw [(wInfo.port_eq_some.mp hport).2, Option.map_some, Option.some.injEq] at hp'
    subst p'
    exact (hwf qid p hport).run (hvisited.deferred hserved).1
  next => exact hwf q p' hp'

theorem scanLoop_scanned
    (hwf : ∀ q p, wInfo.port queues q = some p → p.WellFormed)
    (hscan : wInfo.scanLoop now cs queues = some scanned) :
    wInfo.Scanned now weights cs queues scanned := by
  induction cs generalizing queues scanned with
  | nil =>
      simp only [scanLoop, Option.some.injEq] at hscan
      subst scanned
      exact scanned_nil
  | cons c cs ih =>
      cases wInfo.scanLoop_cons now hscan with
      | empty hid hlq hsize hloop => exact scanned_empty hid hlq hsize (ih hwf hloop)
      | served hid hport hsize hvisit hserved =>
          have hvisited := visit_visited hsize (hwf _ _ hport) hvisit
          exact scanned_served (List.mem_of_getElem? hid) hport hsize hvisited hserved
      | deferred hid hport hsize hvisit hserved hloop =>
          have hvisited := visit_visited hsize (hwf _ _ hport) hvisit
          have hlater := port_update_wellFormed hwf hport hvisited hserved
          exact scanned_deferred hid hport hvisited hserved (ih hlater hloop) _

/-- The loop never runs into undefined behaviour. -/
theorem scanLoop_isSome (hcs : cs ≠ [] → wInfo.logicalQueueIds ≠ [])
    (hids : ∀ q ∈ wInfo.logicalQueueIds, ∃ p, wInfo.port queues q = some p)
    (hwf : ∀ q p, wInfo.port queues q = some p → p.WellFormed) :
    ∃ scanned, wInfo.scanLoop now cs queues = some scanned := by
  induction cs generalizing queues with
  | nil => exact ⟨_, rfl⟩
  | cons c cs ih =>
      have hne := hcs (by simp)
      have hlt : (wInfo.workerRrPtr + c) % wInfo.logicalQueueIds.length <
          wInfo.logicalQueueIds.length :=
        Nat.mod_lt _ (List.length_pos_iff.mpr hne)
      have hid := List.getElem?_eq_getElem hlt
      have hqid := List.mem_of_getElem? hid
      generalize wInfo.logicalQueueIds[(wInfo.workerRrPtr + c) %
        wInfo.logicalQueueIds.length] = qid at hid hqid
      rcases hids qid hqid with ⟨p, hport⟩
      rcases wInfo.port_eq_some.mp hport with ⟨hlq, hphys⟩
      rw [scanLoop]
      simp only [hid, hlq, hphys, Option.bind_eq_bind, Option.bind_some]
      split
      next => exact ih (fun _ => hne) hids hwf
      next hsize =>
        have hp := hwf qid p hport
        rcases visit_isSome now hsize hp with ⟨visit, hvisit⟩
        have hvisited := visit_visited hsize hp hvisit
        simp only [hvisit, Option.bind_some]
        cases hserved : visit.served with
        | some v => exact ⟨_, rfl⟩
        | none =>
            have hids' : ∀ q ∈ wInfo.logicalQueueIds,
                ∃ p, wInfo.port (Function.update queues qid (some visit.queue)) q = some p := by
              intro q hq
              by_cases heq : q = qid
              · exact ⟨⟨visit.queue, p.phys⟩, by simp [port_update, heq, hphys]⟩
              · simpa [port_update, heq] using hids q hq
            have hwf' := port_update_wellFormed hwf hport hvisited hserved
            rcases ih (fun _ => hne) hids' hwf' with ⟨rest, hloop⟩
            simp only [hloop, Option.bind_some]
            exact ⟨_, rfl⟩

end WorkerInfo

end Cmcs
