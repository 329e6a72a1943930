import Cmcs.CounterWidth
import Cmcs.ScanOrder
import Mathlib.Tactic

/-!
# The scheduler on `int` counters

`push_front` and `pop_back` again, with the checked functions on the counters in
the place of the exact ones; `none` is now also signed overflow.  The calls agree
with those on exact integers where every check which they come to passes, and
which queues a scan comes to can be read off the state before it.
-/

namespace Cmcs

open CheckedInt TransitionSystem

variable {P : Type} {m k : ℕ}

/-! ## The calls -/

namespace LogicalQueueInfo

variable (lq : LogicalQueueInfo k) (now : Ticks) (phys : Fin k → List (QE P))

def decisionInt : Option (Fin k × LogicalQueueInfo k × List (Event P k)) :=
  match lq.pendingVn with
  | some sel => some (sel, lq, [])
  | none => do
      let (sel, lq') ← (lq.sweep now).selectVnInt phys
      some (sel.vn, { lq' with pendingVn := some sel.vn },
        [.sweep now (lq.evicted now), .select sel])

def visitInt : Option (Visit P k) := do
  let (sel, lq, events) ← lq.decisionInt now phys
  let head ← (phys sel).head?
  if lq.tau < lq.decayedLevel now then
    some { queue := lq, wakeTime := lq.wakeTime now, events := events ++ [.defer now] }
  else
    some { queue := lq.conform now head.pktSize, served := some sel,
           events := events ++ [.release now sel head] }

end LogicalQueueInfo

namespace WorkerInfo

def scanLoopInt (wInfo : WorkerInfo P k) (now : Ticks) :
    List ℕ → (ℕ → Option (LogicalQueueInfo k)) → Option (ScanState P k)
  | [], queues => some { queues := queues }
  | c :: cs, queues => do
      let j := (wInfo.workerRrPtr + c) % wInfo.logicalQueueIds.length
      let qid ← wInfo.logicalQueueIds[j]?
      let lq ← queues qid
      if lq.size = 0 then scanLoopInt wInfo now cs queues
      else
        let phys ← wInfo.physicalQueues qid
        let visit ← lq.visitInt now phys
        let queues := Function.update queues qid (some visit.queue)
        match visit.served with
        | some sel =>
            some { queues := queues, selected := some (j, qid, sel),
                   log := visit.events.map fun e => (qid, e) }
        | none =>
            let rest ← scanLoopInt wInfo now cs queues
            some { rest with
              nextWakeUpTime := min visit.wakeTime rest.nextWakeUpTime
              log := (visit.events.map fun e => (qid, e)) ++ rest.log }

end WorkerInfo

namespace QueueingLogicVN

variable (cfg : Config m k) (s : QueueingLogicVN P m k)

def pushFrontInt [IngressPacket P] (q vn color : ℕ) (item : Option P) (now : Ticks) :
    Option (QueueingLogicVN P m k × Bool) := do
  let w := cfg.mapToWorker q
  let (s, lq) := s.getLogicalQueue cfg q w now
  let v ← vnIndex vn
  let pktSize := ingressSize item
  let lq ← lq.accrueInt v color pktSize
  if (lq.vnQueues v).capacity ≤ (lq.vnQueues v).size then
    some (s.setQueue q lq, false)
  else
    let wInfo := s.workersInfo w
    let deques ← wInfo.physicalQueues q
    let deques := Function.update deques v (deques v ++ [⟨item, color, pktSize⟩])
    some ((s.setQueue q (lq.accept v)).setWorker w
      { wInfo with
        physicalQueues := Function.update wInfo.physicalQueues q (some deques)
        size := wInfo.size + 1 }, true)

def scanInt (w : Fin m) (now : Ticks) :
    Option (QueueingLogicVN P m k × ScanOutcome P k × Log P k) :=
  let wInfo := s.workersInfo w
  if wInfo.size = 0 then some (s, .wait, [])
  else do
    let n := wInfo.logicalQueueIds.length
    let scanned ← wInfo.scanLoopInt now (List.range n) s.logicalQueuesInfo
    let s := { s with logicalQueuesInfo := scanned.queues }
    match scanned.selected with
    | none => some (s, .waitUntil scanned.nextWakeUpTime, scanned.log)
    | some (j, qid, v) =>
        let lq ← scanned.queues qid
        let deques ← wInfo.physicalQueues qid
        let qe ← (deques v).head?
        let deques := Function.update deques v (deques v).tail
        some ((s.setQueue qid (lq.depart v now)).setWorker w
          { wInfo with
            size := wInfo.size - 1
            workerRrPtr := (j + 1) % n
            physicalQueues := Function.update wInfo.physicalQueues qid (some deques) },
          .output qid v qe, scanned.log)

/-- The setters touch no counter. -/
def stepInt [IngressPacket P] (op : Op P m) :
    Option (QueueingLogicVN P m k × List (Call P m k)) :=
  match op with
  | .pushFront q vn color item now => do
      let v ← vnIndex vn
      let (s', accepted) ← s.pushFrontInt cfg q vn color item now
      some (s', [⟨op, .pushed accepted,
        s.creation q now ++ [(q, .push v color item accepted)]⟩])
  | .scan w now => do
      let (s', outcome, log) ← s.scanInt w now
      some (s', [⟨op, .scanned outcome, log⟩])
  | op => s.step cfg op

def runInt [IngressPacket P] (ops : List (Op P m)) :
    Option (QueueingLogicVN P m k × List (Call P m k)) :=
  TransitionSystem.exec (fun s op => stepInt cfg s op) s ops

end QueueingLogicVN

/-! ## One visit -/

namespace LogicalQueueInfo

variable {lq : LogicalQueueInfo k} {now : Ticks} {phys : Fin k → List (QE P)}

/-- Every check passes in the decision which a visit takes, unless one is pending. -/
def DecisionFits (lq : LogicalQueueInfo k) (now : Ticks) (phys : Fin k → List (QE P)) : Prop :=
  lq.pendingVn = none → ∀ sel lq', (lq.sweep now).selectVn phys = some (sel, lq') →
    (lq.sweep now).SelectFits sel

theorem decisionInt_eq_some (hnodup : (lq.sweep now).activeSet.Nodup)
    (hphys : ∀ i, ∀ qe ∈ phys i, Fits 32 qe.pktSize)
    {decided : Fin k × LogicalQueueInfo k × List (Event P k)} :
    lq.decisionInt now phys = some decided ↔
      lq.decision now phys = some decided ∧ lq.DecisionFits now phys := by
  unfold decisionInt decision DecisionFits
  cases hpending : lq.pendingVn with
  | some sel => simp
  | none =>
      simp only [Option.bind_eq_bind, Option.bind_eq_some_iff, Prod.exists, forall_const]
      constructor
      · intro h
        obtain ⟨sel, lq', hselect, heq⟩ := h
        obtain ⟨hexact, hfits⟩ := ((lq.sweep now).selectVnInt_eq_some hnodup hphys).mp hselect
        refine ⟨⟨sel, lq', hexact, heq⟩, ?_⟩
        intro sel' lq'' hselect'
        rw [hexact, Option.some.injEq, Prod.mk.injEq] at hselect'
        rw [← hselect'.1]
        exact hfits
      · intro h
        obtain ⟨⟨sel, lq', hexact, heq⟩, hfits⟩ := h
        exact ⟨sel, lq', ((lq.sweep now).selectVnInt_eq_some hnodup hphys).mpr
          ⟨hexact, hfits sel lq' hexact⟩, heq⟩

theorem visitInt_eq_some (hnodup : (lq.sweep now).activeSet.Nodup)
    (hphys : ∀ i, ∀ qe ∈ phys i, Fits 32 qe.pktSize) {visit : Visit P k} :
    lq.visitInt now phys = some visit ↔
      lq.visit now phys = some visit ∧ lq.DecisionFits now phys := by
  unfold visitInt LogicalQueueInfo.visit
  simp only [Option.bind_eq_bind, Option.bind_eq_some_iff, decisionInt_eq_some hnodup hphys]
  constructor
  · intro h
    obtain ⟨decided, ⟨hdecision, hfits⟩, hrest⟩ := h
    exact ⟨⟨decided, hdecision, hrest⟩, hfits⟩
  · intro h
    obtain ⟨⟨decided, hdecision, hrest⟩, hfits⟩ := h
    exact ⟨decided, ⟨hdecision, hfits⟩, hrest⟩

end LogicalQueueInfo

/-! ## The queues which a scan comes to -/

/-- A scan goes past an empty queue and past one whose bucket holds its packet back. -/
def Passed (now : Ticks) (queues : ℕ → Option (LogicalQueueInfo k)) (q : ℕ) : Prop :=
  ∀ lq, queues q = some lq → lq.size = 0 ∨ lq.tau < lq.decayedLevel now

/-- The scan over the candidates `order` comes to `q`. -/
def Reached (now : Ticks) (queues : ℕ → Option (LogicalQueueInfo k)) (order : List ℕ)
    (q : ℕ) : Prop :=
  ∃ before after, order = before ++ q :: after ∧ ∀ q' ∈ before, Passed now queues q'

section Reached

variable {now : Ticks} {queues : ℕ → Option (LogicalQueueInfo k)} {order : List ℕ} {q qid : ℕ}

theorem reached_cons :
    Reached now queues (qid :: order) q ↔
      q = qid ∨ Passed now queues qid ∧ Reached now queues order q := by
  constructor
  · intro h
    obtain ⟨before, after, hsplit, hpassed⟩ := h
    cases before with
    | nil =>
        simp only [List.nil_append, List.cons.injEq] at hsplit
        exact Or.inl hsplit.1.symm
    | cons first before =>
        simp only [List.cons_append, List.cons.injEq] at hsplit
        obtain ⟨rfl, rfl⟩ := hsplit
        exact Or.inr ⟨hpassed qid (by simp), before, after, rfl,
          fun q' hq' => hpassed q' (by simp [hq'])⟩
  · intro h
    rcases h with rfl | ⟨hqid, before, after, rfl, hpassed⟩
    · exact ⟨[], order, rfl, by simp⟩
    · refine ⟨qid :: before, after, rfl, ?_⟩
      intro q' hq'
      cases List.mem_cons.mp hq' with
      | inl heq => exact heq ▸ hqid
      | inr hmem => exact hpassed q' hmem

theorem passed_update {lq lq' : LogicalQueueInfo k} (hlq : queues qid = some lq)
    (hsame : lq.SameLevel lq') (q : ℕ) :
    Passed now (Function.update queues qid (some lq')) q ↔ Passed now queues q := by
  unfold Passed
  by_cases hq : q = qid
  · subst q
    simp only [Function.update_self, hlq, Option.some.injEq, forall_eq', hsame.size, hsame.tau,
      hsame.decayedLevel]
  · simp only [Function.update_of_ne hq]

theorem reached_update {lq lq' : LogicalQueueInfo k} (hlq : queues qid = some lq)
    (hsame : lq.SameLevel lq') :
    Reached now (Function.update queues qid (some lq')) order q ↔
      Reached now queues order q := by
  simp only [Reached, passed_update hlq hsame]

end Reached

/-! ## One scan -/

namespace WorkerInfo

variable {wInfo : WorkerInfo P k} {now : Ticks} {queues : ℕ → Option (LogicalQueueInfo k)}

/-- Every check passes in the decisions which a scan over `order` takes. -/
def LoopFits (wInfo : WorkerInfo P k) (now : Ticks) (order : List ℕ)
    (queues : ℕ → Option (LogicalQueueInfo k)) : Prop :=
  ∀ q p, Reached now queues order q → wInfo.port queues q = some p → p.info.size ≠ 0 →
    p.info.DecisionFits now p.phys

theorem loopFits_cons {qid : ℕ} {order : List ℕ} {p : Port P k}
    (hport : wInfo.port queues qid = some p) :
    wInfo.LoopFits now (qid :: order) queues ↔
      (p.info.size ≠ 0 → p.info.DecisionFits now p.phys) ∧
        (Passed now queues qid → wInfo.LoopFits now order queues) := by
  unfold LoopFits
  simp only [reached_cons]
  constructor
  · intro h
    exact ⟨h qid p (Or.inl rfl) hport,
      fun hpassed q p' hreached => h q p' (Or.inr ⟨hpassed, hreached⟩)⟩
  · intro h q p' hreached hport'
    rcases hreached with rfl | ⟨hpassed, hreached⟩
    · rw [hport, Option.some.injEq] at hport'
      exact hport' ▸ h.1
    · exact h.2 hpassed q p' hreached hport'

/-- Behind a deferral, which leaves a decision pending, the scan goes on. -/
theorem loopFits_deferred {qid : ℕ} {order : List ℕ} {p : Port P k} {lq : LogicalQueueInfo k}
    (hport : wInfo.port queues qid = some p) (hsame : p.info.SameLevel lq)
    (hpending : lq.pendingVn.isSome) (hfits : p.info.DecisionFits now p.phys) :
    wInfo.LoopFits now order (Function.update queues qid (some lq)) ↔
      wInfo.LoopFits now order queues := by
  unfold LoopFits
  simp only [reached_update (wInfo.port_eq_some.mp hport).1 hsame, wInfo.port_update]
  constructor
  · intro h q p' hreached hport'
    by_cases hq : q = qid
    · subst q
      rw [hport, Option.some.injEq] at hport'
      exact fun _ => hport' ▸ hfits
    · exact h q p' hreached (by rw [if_neg hq, hport'])
  · intro h q p' hreached hport'
    split at hport'
    next hq =>
      obtain ⟨phys, -, rfl⟩ := Option.map_eq_some_iff.mp hport'
      intro _ hfree
      simp only [Option.isSome_iff_ne_none] at hpending
      exact absurd hfree hpending
    next => exact h q p' hreached hport'

/-- Nothing happens to a queue which the scan does not come to. -/
theorem reached_of_mem_log [IngressPacket P] {cs order : List ℕ}
    (hwf : ∀ q p, wInfo.port queues q = some p → p.WellFormed)
    (horder : cs.map (fun c => wInfo.logicalQueueIds[(wInfo.workerRrPtr + c) %
      wInfo.logicalQueueIds.length]?) = order.map some) {scanned : ScanState P k}
    (hscan : wInfo.scanLoop now cs queues = some scanned) {q : ℕ} {e : Event P k}
    (hmem : (q, e) ∈ scanned.log) : Reached now queues order q := by
  induction cs generalizing queues order scanned with
  | nil =>
      simp only [scanLoop, Option.some.injEq] at hscan
      rw [← hscan] at hmem
      simp at hmem
  | cons c cs ih =>
      cases order with
      | nil => simp at horder
      | cons first order =>
          simp only [List.map_cons, List.cons.injEq] at horder
          obtain ⟨hfirst, horder⟩ := horder
          have hof : ∀ {events : List (Event P k)} {qid : ℕ},
              wInfo.logicalQueueIds[(wInfo.workerRrPtr + c) %
                wInfo.logicalQueueIds.length]? = some qid →
              (q, e) ∈ events.map (fun e => (qid, e)) → q = first := by
            intro events qid hid hmem
            obtain ⟨e', -, heq⟩ := List.mem_map.mp hmem
            rw [hfirst, Option.some.injEq] at hid
            rw [hid]
            exact (Prod.mk.inj heq).1.symm
          rw [reached_cons]
          cases wInfo.scanLoop_cons now hscan with
          | @empty qid lq _ hid hlq hsize hloop =>
              obtain rfl : qid = first := Option.some.inj (hid.symm.trans hfirst)
              refine Or.inr ⟨?_, ih hwf horder hloop hmem⟩
              intro lq' hlq'
              rw [hlq, Option.some.injEq] at hlq'
              exact Or.inl (hlq' ▸ hsize)
          | served hid => exact Or.inl (hof hid hmem)
          | @deferred qid p visit rest hid hport hsize hvisit hserved hloop =>
              cases List.mem_append.mp hmem with
              | inl hhere => exact Or.inl (hof hid hhere)
              | inr hlater =>
                  obtain rfl : qid = first := Option.some.inj (hid.symm.trans hfirst)
                  have hp := hwf qid p hport
                  have hlq := (wInfo.port_eq_some.mp hport).1
                  cases visit_cases hp hvisit with
                  | served v hsome => simp [hsome] at hserved
                  | deferred _ hblocked hsame =>
                      have hreached := ih (port_update_wellFormed hwf hport
                        (visit_visited hsize hp hvisit) hserved) horder hloop hlater
                      refine Or.inr ⟨?_, (reached_update hlq hsame).mp hreached⟩
                      intro lq' hlq'
                      rw [hlq, Option.some.injEq] at hlq'
                      exact Or.inr (hlq' ▸ hblocked)

theorem scanLoopInt_eq_some [IngressPacket P] {cs order : List ℕ}
    (hwf : ∀ q p, wInfo.port queues q = some p → p.WellFormed)
    (hphys : ∀ q phys, wInfo.physicalQueues q = some phys →
      ∀ i, ∀ qe ∈ phys i, Fits 32 qe.pktSize)
    (hids : ∀ q ∈ order, ∃ p, wInfo.port queues q = some p)
    (horder : cs.map (fun c => wInfo.logicalQueueIds[(wInfo.workerRrPtr + c) %
      wInfo.logicalQueueIds.length]?) = order.map some) {scanned : ScanState P k} :
    wInfo.scanLoopInt now cs queues = some scanned ↔
      wInfo.scanLoop now cs queues = some scanned ∧ wInfo.LoopFits now order queues := by
  induction cs generalizing queues order scanned with
  | nil =>
      obtain rfl : order = [] := by simpa using horder.symm
      have hfits : wInfo.LoopFits now [] queues := by
        intro q p hreached
        obtain ⟨before, after, hsplit, -⟩ := hreached
        simp at hsplit
      simp [scanLoop, scanLoopInt, hfits]
  | cons c cs ih =>
      cases order with
      | nil => simp at horder
      | cons qid order =>
          simp only [List.map_cons, List.cons.injEq] at horder
          obtain ⟨hid, horder⟩ := horder
          obtain ⟨p, hport⟩ := hids qid (by simp)
          obtain ⟨hlq, hqphys⟩ := wInfo.port_eq_some.mp hport
          have hlater : ∀ q ∈ order, ∃ p, wInfo.port queues q = some p :=
            fun q hq => hids q (by simp [hq])
          rw [scanLoop, scanLoopInt, loopFits_cons hport]
          simp only [hid, hlq, hqphys, Option.bind_eq_bind, Option.bind_some]
          by_cases hsize : p.info.size = 0
          · have hpassed : Passed now queues qid := by
              intro lq hlq'
              rw [hlq, Option.some.injEq] at hlq'
              exact Or.inl (hlq' ▸ hsize)
            simp only [hsize, if_true, ne_eq, not_true_eq_false, false_implies, true_and,
              hpassed, true_implies]
            exact ih hwf hlater horder
          · have hp := hwf qid p hport
            have hint : ∀ visit, p.info.visitInt now p.phys = some visit ↔
                p.info.visit now p.phys = some visit ∧ p.info.DecisionFits now p.phys :=
              fun visit => p.info.visitInt_eq_some (hp.sweep now).nodup (hphys qid p.phys hqphys)
            -- the rest of the scan behind a deferral
            have hrest : ∀ {visit}, p.info.visit now p.phys = some visit →
                visit.served = none → p.info.DecisionFits now p.phys → ∀ rest,
                  wInfo.scanLoopInt now cs (Function.update queues qid (some visit.queue)) =
                    some rest ↔
                  wInfo.scanLoop now cs (Function.update queues qid (some visit.queue)) =
                    some rest ∧ wInfo.LoopFits now order queues := by
              intro visit hvisit hserved hfits rest
              cases visit_cases hp hvisit with
              | served v hsome => simp [hsome] at hserved
              | deferred _ _ hsame hpending =>
                  rw [← loopFits_deferred hport hsame hpending hfits]
                  refine ih (port_update_wellFormed hwf hport
                    (visit_visited hsize hp hvisit) hserved) ?_ horder
                  intro q hq
                  obtain ⟨p', hp'⟩ := hlater q hq
                  rw [wInfo.port_update]
                  split
                  · exact ⟨_, by rw [(wInfo.port_eq_some.mp hp').2, Option.map_some]⟩
                  · exact ⟨p', hp'⟩
            simp only [hsize, if_false, ne_eq, not_false_eq_true, true_implies,
              Option.bind_eq_some_iff, hint]
            constructor
            · intro h
              obtain ⟨visit, ⟨hvisit, hfits⟩, houtcome⟩ := h
              cases visit_cases hp hvisit with
              | deferred hserved =>
                  simp only [hserved, Option.bind_eq_some_iff] at houtcome
                  obtain ⟨rest, hloop, heq⟩ := houtcome
                  obtain ⟨hexact, horderFits⟩ := (hrest hvisit hserved hfits rest).mp hloop
                  refine ⟨⟨visit, hvisit, ?_⟩, hfits, fun _ => horderFits⟩
                  simp only [hserved, Option.bind_eq_some_iff]
                  exact ⟨rest, hexact, heq⟩
              | served v hserved hlevel =>
                  refine ⟨⟨visit, hvisit, ?_⟩, hfits, fun hpassed => ?_⟩
                  · simp only [hserved] at houtcome ⊢
                    exact houtcome
                  · cases hpassed p.info hlq with
                    | inl hzero => exact absurd hzero hsize
                    | inr hblocked => exact absurd hlevel (not_le.mpr hblocked)
            · intro h
              obtain ⟨⟨visit, hvisit, houtcome⟩, hfits, horderFits⟩ := h
              refine ⟨visit, ⟨hvisit, hfits⟩, ?_⟩
              cases visit_cases hp hvisit with
              | deferred hserved hblocked =>
                  simp only [hserved, Option.bind_eq_some_iff] at houtcome ⊢
                  obtain ⟨rest, hloop, heq⟩ := houtcome
                  have hpassed : Passed now queues qid := by
                    intro lq hlq'
                    rw [hlq, Option.some.injEq] at hlq'
                    exact Or.inr (hlq' ▸ hblocked)
                  exact ⟨rest, (hrest hvisit hserved hfits rest).mpr
                    ⟨hloop, horderFits hpassed⟩, heq⟩
              | served v hserved =>
                  simp only [hserved] at houtcome ⊢
                  exact houtcome

end WorkerInfo

/-! ## One call -/

namespace QueueingLogicVN

variable [IngressPacket P] {cfg : Config m k} {s s' : QueueingLogicVN P m k} {op : Op P m}

/-- Every check to which the call comes passes in the state before it. -/
def IntFits (cfg : Config m k) (s : QueueingLogicVN P m k) : Op P m → Prop
  | .pushFront q vn color item now => ∀ v, vnIndex vn = some v → color = 0 →
      Fits 32 (((s.getLogicalQueue cfg q (cfg.mapToWorker q) now).2.vnQueues v).greenCredit +
        ingressSize item)
  | .scan w now => (s.workersInfo w).LoopFits now
      ((s.workersInfo w).logicalQueueIds.rotate (s.workersInfo w).workerRrPtr)
      s.logicalQueuesInfo
  | _ => True

theorem pushFrontInt_eq_some {q vn color : ℕ} {item : Option P} {now : Ticks}
    (hsize : Fits 32 (ingressSize item)) {v : Fin k} (hv : vnIndex vn = some v)
    {result : QueueingLogicVN P m k × Bool} :
    s.pushFrontInt cfg q vn color item now = some result ↔
      s.pushFront cfg q vn color item now = some result ∧
        s.IntFits cfg (.pushFront q vn color item now) := by
  have hfits : s.IntFits cfg (.pushFront q vn color item now) ↔ (color = 0 →
      Fits 32 (((s.getLogicalQueue cfg q (cfg.mapToWorker q) now).2.vnQueues v).greenCredit +
        ingressSize item)) := by
    simp [IntFits, hv]
  rw [hfits]
  unfold pushFrontInt pushFront
  simp only [hv, Option.bind_eq_bind, Option.bind_some, Option.bind_eq_some_iff,
    LogicalQueueInfo.accrueInt_eq_some _ hsize]
  constructor
  · intro h
    obtain ⟨lq, ⟨rfl, hroom⟩, hrest⟩ := h
    exact ⟨hrest, hroom⟩
  · intro h
    exact ⟨_, ⟨rfl, h.2⟩, h.1⟩

/-- The packets in the queues have sizes which `int` can hold. -/
def SizesFit (cfg : Config m k) (s : QueueingLogicVN P m k) : Prop :=
  ∀ q p, s.port cfg q = some p → ∀ i, ∀ qe ∈ p.phys i, Fits 32 qe.pktSize

omit [IngressPacket P] in
theorem SizesFit.physicalQueues (hcoh : s.Coherent cfg) (hsizes : s.SizesFit cfg) {w : Fin m}
    {q : ℕ} {phys : Fin k → List (QE P)}
    (hphys : (s.workersInfo w).physicalQueues q = some phys) :
    ∀ i, ∀ qe ∈ phys i, Fits 32 qe.pktSize := by
  obtain ⟨hlq, rfl⟩ := (hcoh.deques w q).mp (by rw [hphys]; rfl)
  obtain ⟨lq, hlq⟩ := Option.isSome_iff_exists.mp hlq
  exact hsizes q ⟨lq, phys⟩ (port_eq_some.mpr ⟨hlq, hphys⟩)

omit [IngressPacket P] in
theorem loopFits_of_idle (hcoh : s.Coherent cfg) {w : Fin m} {now : Ticks}
    (hworker : (s.workersInfo w).size = 0) :
    (s.workersInfo w).LoopFits now
      ((s.workersInfo w).logicalQueueIds.rotate (s.workersInfo w).workerRrPtr)
      s.logicalQueuesInfo := by
  intro q p hreached hport hsize
  obtain ⟨before, after, hsplit, -⟩ := hreached
  have hq : q ∈ (s.workersInfo w).logicalQueueIds :=
    List.mem_rotate.mp (by rw [hsplit]; simp)
  rw [hcoh.size_eq w, List.sum_eq_zero_iff] at hworker
  have hzero := hworker _ (List.mem_map_of_mem hq)
  rw [queueSize, (WorkerInfo.port_eq_some _).mp hport |>.1] at hzero
  exact absurd hzero hsize

theorem scanInt_eq_some (hcoh : s.Coherent cfg)
    (hwf : ∀ q p, s.port cfg q = some p → p.WellFormed) (hsizes : s.SizesFit cfg) {w : Fin m}
    {now : Ticks} {result : QueueingLogicVN P m k × ScanOutcome P k × Log P k} :
    s.scanInt w now = some result ↔
      s.scan w now = some result ∧ s.IntFits cfg (.scan w now : Op P m) := by
  unfold scanInt scan IntFits
  simp only
  by_cases hworker : (s.workersInfo w).size = 0
  · simp only [hworker, if_true, loopFits_of_idle hcoh hworker, and_true]
  · have hids : ∀ q ∈ (s.workersInfo w).logicalQueueIds.rotate (s.workersInfo w).workerRrPtr,
        ∃ p, (s.workersInfo w).port s.logicalQueuesInfo q = some p := by
      intro q hq
      obtain ⟨hlq, rfl⟩ := (hcoh.mem_ids w q).mp (List.mem_rotate.mp hq)
      obtain ⟨lq, hlq⟩ := Option.isSome_iff_exists.mp hlq
      obtain ⟨phys, hport⟩ := exists_port hcoh hlq
      exact ⟨_, hport⟩
    have hloop : ∀ scanned,
        (s.workersInfo w).scanLoopInt now
            (List.range (s.workersInfo w).logicalQueueIds.length) s.logicalQueuesInfo =
              some scanned ↔
          (s.workersInfo w).scanLoop now
            (List.range (s.workersInfo w).logicalQueueIds.length) s.logicalQueuesInfo =
              some scanned ∧
            (s.workersInfo w).LoopFits now
              ((s.workersInfo w).logicalQueueIds.rotate (s.workersInfo w).workerRrPtr)
              s.logicalQueuesInfo :=
      fun scanned => WorkerInfo.scanLoopInt_eq_some
        (fun q p hp => hwf q p (port_of_worker hcoh hp).2) (fun _ _ => hsizes.physicalQueues hcoh) hids
        (CyclicScan.map_range_eq_rotate _ _)
    simp only [hworker, if_false, Option.bind_eq_bind, Option.bind_eq_some_iff, hloop]
    constructor
    · intro h
      obtain ⟨scanned, ⟨hscan, hfits⟩, hrest⟩ := h
      exact ⟨⟨scanned, hscan, hrest⟩, hfits⟩
    · intro h
      obtain ⟨⟨scanned, hscan, hrest⟩, hfits⟩ := h
      exact ⟨scanned, ⟨hscan, hfits⟩, hrest⟩

theorem reached_of_scan (hcoh : s.Coherent cfg)
    (hwf : ∀ q p, s.port cfg q = some p → p.WellFormed) {w : Fin m} {now : Ticks}
    {outcome : ScanOutcome P k} {log : Log P k}
    (hscan : s.scan w now = some (s', outcome, log)) {q : ℕ} {e : Event P k}
    (hmem : (q, e) ∈ log) :
    Reached now s.logicalQueuesInfo
      ((s.workersInfo w).logicalQueueIds.rotate (s.workersInfo w).workerRrPtr) q := by
  have hwfw : ∀ q p, (s.workersInfo w).port s.logicalQueuesInfo q = some p → p.WellFormed :=
    fun q p hp => hwf q p (port_of_worker hcoh hp).2
  have hcandidates := CyclicScan.map_range_eq_rotate (s.workersInfo w).logicalQueueIds
    (s.workersInfo w).workerRrPtr
  cases scan_cases hscan with
  | idle => simp at hmem
  | waited _ hloop => exact WorkerInfo.reached_of_mem_log hwfw hcandidates hloop hmem
  | output _ hloop => exact WorkerInfo.reached_of_mem_log hwfw hcandidates hloop hmem

theorem stepInt_eq_some (hcoh : s.Coherent cfg)
    (hwf : ∀ q p, s.port cfg q = some p → p.WellFormed) (hsizes : s.SizesFit cfg)
    (hop : op.SizeAtMost (2 ^ 31 - 1)) {result : QueueingLogicVN P m k × List (Call P m k)} :
    s.stepInt cfg op = some result ↔ s.step cfg op = some result ∧ s.IntFits cfg op := by
  cases op with
  | pushFront q vn color item now =>
      have hsize : Fits 32 (ingressSize item) := by
        have hle : ingressSize item ≤ 2 ^ 31 - 1 := hop
        rw [fits_32_iff]
        omega
      cases hv : (vnIndex vn : Option (Fin k)) with
      | none => simp [stepInt, step, hv]
      | some v =>
          simp only [stepInt, step, hv, Option.bind_eq_bind, Option.bind_some,
            Option.bind_eq_some_iff, pushFrontInt_eq_some hsize hv]
          constructor
          · intro h
            obtain ⟨pushed, ⟨hpush, hfits⟩, hrest⟩ := h
            exact ⟨⟨pushed, hpush, hrest⟩, hfits⟩
          · intro h
            obtain ⟨⟨pushed, hpush, hrest⟩, hfits⟩ := h
            exact ⟨pushed, ⟨hpush, hfits⟩, hrest⟩
  | scan w now =>
      simp only [stepInt, step, Option.bind_eq_bind, Option.bind_eq_some_iff,
        scanInt_eq_some hcoh hwf hsizes]
      constructor
      · intro h
        obtain ⟨scanned, ⟨hscan, hfits⟩, hrest⟩ := h
        exact ⟨⟨scanned, hscan, hrest⟩, hfits⟩
      · intro h
        obtain ⟨⟨scanned, hscan, hrest⟩, hfits⟩ := h
        exact ⟨scanned, ⟨hscan, hfits⟩, hrest⟩
  | _ => exact (and_iff_left trivial).symm

/-! ## Runs -/

section Runs

variable {capacity : ℕ} {ops : List (Op P m)} {history : List (Call P m k)}

theorem sizesFit_of_run (hops : ∀ op ∈ ops, op.SizeAtMost (2 ^ 31 - 1))
    (hrun : run cfg (initial capacity) ops = some (s, history)) : s.SizesFit cfg := by
  intro q p hport i qe hqe
  obtain ⟨phys, hport', hstate⟩ :=
    deficitState_of_run (by decide) hops hrun (port_eq_some.mp hport).1
  rw [hport, Option.some.injEq] at hport'
  have hle := hstate.phys_le i qe (hport' ▸ hqe)
  rw [fits_32_iff]
  omega

/-- The calls of a run on `int` counters are those on exact integers, with every check
passed. -/
theorem runInt_eq_some (hops : ∀ op ∈ ops, op.SizeAtMost (2 ^ 31 - 1)) :
    runInt cfg (initial capacity) ops = some (s, history) ↔
      run cfg (initial capacity) ops = some (s, history) ∧
        EachCall cfg capacity (fun s op => s.IntFits cfg op) ops := by
  apply exec_checked_iff
  intro before op after s history hsplit hbefore result
  have hsizes : ∀ op ∈ before, op.SizeAtMost (2 ^ 31 - 1) :=
    fun op hop => hops op (by simp [hsplit, hop])
  exact stepInt_eq_some (run_coherent hbefore) (run_wellFormed hbefore)
    (sizesFit_of_run hsizes hbefore) (hops op (by simp [hsplit]))

end Runs

end QueueingLogicVN

end Cmcs
