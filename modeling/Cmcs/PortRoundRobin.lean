import Cmcs.ScanOrder
import Mathlib.Tactic

/-!
# Bounded waiting across the ports of one worker

`worker_rr_ptr` moves only when a packet leaves, and to just past its queue.  A
ready queue therefore waits for at most one packet of each other queue.  The
pointer is wrapped with the number of queues of the moment and reused after the
list has grown; the measure `waiting` of the cyclic scan allows for that.
-/

namespace CyclicScan

variable {α : Type*} [DecidableEq α] {l : List α} {cursor k : ℕ} {a : α}

theorem waiting_mod (hcursor : cursor ≤ l.length) :
    waiting k l (cursor % l.length) a = waiting k l cursor a := by
  unfold waiting
  by_cases ha : a ∈ l
  · have hpos := List.length_pos_of_mem ha
    have hwrapped := (Nat.mod_lt cursor hpos).le
    rw [if_pos ⟨ha, hwrapped⟩, if_pos ⟨ha, hcursor⟩, distance, Nat.mod_mod, distance]
  · rw [if_neg fun h => ha h.1, if_neg fun h => ha h.1]

end CyclicScan

namespace Cmcs

open TransitionSystem

variable {P : Type} {m k : ℕ}

/-- The call is a scan of worker `w` which dequeued a packet. -/
def Call.servedBy (w : Fin m) (call : Call P m k) : Bool :=
  match call.op, call.result with
  | .scan w' _, .scanned (.output ..) => w' = w
  | _, _ => false

namespace QueueingLogicVN

variable {cfg : Config m k} {s s' : QueueingLogicVN P m k} {w : Fin m} {q b : ℕ}

/-- The pointer of worker `w` stays and its list stays or grows by one queue. -/
structure WorkerKept (s s' : QueueingLogicVN P m k) (w : Fin m) : Prop where
  rrPtr : (s'.workersInfo w).workerRrPtr = (s.workersInfo w).workerRrPtr
  ids : (s'.workersInfo w).logicalQueueIds = (s.workersInfo w).logicalQueueIds ∨
    ∃ q, (s'.workersInfo w).logicalQueueIds = (s.workersInfo w).logicalQueueIds ++ [q]

theorem WorkerKept.of_eq (hworkers : s'.workersInfo = s.workersInfo) : WorkerKept s s' w :=
  ⟨by rw [hworkers], Or.inl (by rw [hworkers])⟩

theorem getLogicalQueue_kept (q : ℕ) (w' : Fin m) (now : Ticks) :
    WorkerKept s (s.getLogicalQueue cfg q w' now).1 w := by
  unfold getLogicalQueue
  cases s.logicalQueuesInfo q with
  | some lq => exact .of_eq rfl
  | none =>
      by_cases hw : w = w'
      · subst w'
        exact ⟨by simp, Or.inr ⟨q, by simp⟩⟩
      · exact ⟨by simp [hw], Or.inl (by simp [hw])⟩

theorem pushFront_kept [IngressPacket P] {vn color : ℕ} {item : Option P} {now : Ticks}
    {accepted : Bool} (hpush : s.pushFront cfg q vn color item now = some (s', accepted)) :
    WorkerKept s s' w := by
  have hkept : WorkerKept s (s.getLogicalQueue cfg q (cfg.mapToWorker q) now).1 w :=
    getLogicalQueue_kept q _ now
  simp only [pushFront] at hpush
  generalize s.getLogicalQueue cfg q (cfg.mapToWorker q) now = found at hpush hkept
  obtain ⟨v, -, hrest⟩ := Option.bind_eq_some_iff.mp hpush
  split at hrest
  next =>
    simp only [Option.some.injEq, Prod.mk.injEq] at hrest
    rw [← hrest.1]
    exact ⟨hkept.rrPtr, hkept.ids⟩
  next =>
    obtain ⟨deques, -, hrest⟩ := Option.bind_eq_some_iff.mp hrest
    simp only [Option.some.injEq, Prod.mk.injEq] at hrest
    rw [← hrest.1]
    by_cases hw : w = cfg.mapToWorker q
    · subst w
      constructor
      · simpa [setWorker] using hkept.rrPtr
      · simpa [setWorker] using hkept.ids
    · constructor
      · simpa [setWorker, setQueue, hw] using hkept.rrPtr
      · simpa [setWorker, setQueue, hw] using hkept.ids

variable [IngressPacket P]

/-- What a call means for worker `w`: a packet leaves from its first ready queue,
or the pointer stays. -/
inductive WorkerStep (cfg : Config m k) (s s' : QueueingLogicVN P m k) (w : Fin m) :
    Call P m k → Prop
  | served {now : Ticks} {j q : ℕ} {v : Fin k} {qe : QE P} {log : Log P k}
      (hfirst : CyclicScan.First (s.workersInfo w).logicalQueueIds
        (s.workersInfo w).workerRrPtr (s.Ready cfg now) j q)
      (hptr : (s'.workersInfo w).workerRrPtr =
        (j + 1) % (s.workersInfo w).logicalQueueIds.length)
      (hids : (s'.workersInfo w).logicalQueueIds = (s.workersInfo w).logicalQueueIds) :
      WorkerStep cfg s s' w ⟨.scan w now, .scanned (.output q v qe), log⟩
  | kept {call : Call P m k} (hserved : call.servedBy w = false) (hkept : WorkerKept s s' w) :
      WorkerStep cfg s s' w call

omit [IngressPacket P] in
theorem scan_kept {w' : Fin m} {now : Ticks} {outcome : ScanOutcome P k} {log : Log P k}
    (hscan : s.scan w' now = some (s', outcome, log))
    (hother : w' = w → ∀ q v qe, outcome ≠ .output q v qe) : WorkerKept s s' w := by
  cases scan_cases hscan with
  | idle => exact .of_eq rfl
  | waited => exact .of_eq rfl
  | output =>
      have hw : w ≠ w' := fun heq => hother heq.symm _ _ _ rfl
      exact ⟨by simp [setWorker, setQueue, hw], Or.inl (by simp [setWorker, setQueue, hw])⟩

theorem step_worker (hcoh : s.Coherent cfg)
    (hwf : ∀ q p, s.port cfg q = some p → p.WellFormed) {call : Call P m k}
    (hstep : s.step cfg call.op = some (s', [call])) (w : Fin m) :
    WorkerStep cfg s s' w call := by
  obtain ⟨op, result, log⟩ := call
  cases op with
  | pushFront q vn color item now =>
      obtain ⟨v, accepted, -, hpush, hcall⟩ := step_pushFront hstep
      exact .kept rfl (pushFront_kept hpush)
  | scan w' now =>
      obtain ⟨outcome, log', hscan, hcall⟩ := step_scan hstep
      simp only [List.cons.injEq, Call.mk.injEq, true_and, and_true] at hcall
      obtain ⟨rfl, rfl⟩ := hcall
      by_cases hw : w' = w
      · subst w'
        cases outcome with
        | output q v qe =>
            obtain ⟨j, hfirst, hptr, hids⟩ := scan_first hcoh hwf hscan
            exact .served hfirst hptr hids
        | wait => exact .kept rfl (scan_kept hscan (by simp))
        | waitUntil => exact .kept rfl (scan_kept hscan (by simp))
      · refine .kept ?_ (scan_kept hscan fun heq => absurd heq hw)
        cases outcome <;> simp [Call.servedBy, hw]
  | setVnCapacity q vn c now =>
      obtain ⟨v, -, hset, hcall⟩ := step_setVnCapacity hstep
      have hkept : WorkerKept s (s.getLogicalQueue cfg q (cfg.mapToWorker q) now).1 w :=
        getLogicalQueue_kept q _ now
      unfold setVnCapacity at hset
      obtain ⟨v', -, hset⟩ := Option.bind_eq_some_iff.mp hset
      simp only [Option.some.injEq] at hset
      rw [← hset]
      exact .kept rfl ⟨hkept.rrPtr, hkept.ids⟩
  | setQueueCapacity q c now =>
      have hkept : WorkerKept s (s.getLogicalQueue cfg q (cfg.mapToWorker q) now).1 w :=
        getLogicalQueue_kept q _ now
      simp only [step, Option.some.injEq, Prod.mk.injEq] at hstep
      rw [← hstep.1]
      exact .kept rfl ⟨hkept.rrPtr, hkept.ids⟩
  | setCapacityForAll c =>
      simp only [step, Option.some.injEq, Prod.mk.injEq] at hstep
      rw [← hstep.1]
      exact .kept rfl (.of_eq rfl)
  | setRate q bps now =>
      have hkept : WorkerKept s (s.getLogicalQueue cfg q (cfg.mapToWorker q) now).1 w :=
        getLogicalQueue_kept q _ now
      simp only [step, Option.some.injEq, Prod.mk.injEq] at hstep
      rw [← hstep.1]
      exact .kept rfl ⟨hkept.rrPtr, hkept.ids⟩
  | setRateForAll bps =>
      simp only [step, Option.some.injEq, Prod.mk.injEq] at hstep
      rw [← hstep.1]
      exact .kept rfl (.of_eq rfl)

/-! ## Runs -/

section Runs

variable {start : QueueingLogicVN P m k} {ops : List (Op P m)} {calls : List (Call P m k)}

/-- Queue `b` is ready at every scan of its worker in the run. -/
def ReadyThroughout (cfg : Config m k) (start : QueueingLogicVN P m k) (ops : List (Op P m))
    (b : ℕ) : Prop :=
  ∀ before now after s calls, ops = before ++ .scan (cfg.mapToWorker b) now :: after →
    run cfg start before = some (s, calls) → s.Ready cfg now b

omit [IngressPacket P] in
theorem mem_ids_of_ready (hcoh : s.Coherent cfg) {now : Ticks} (hready : s.Ready cfg now b) :
    b ∈ (s.workersInfo (cfg.mapToWorker b)).logicalQueueIds := by
  obtain ⟨p, hport, -⟩ := hready
  exact (hcoh.mem_ids _ b).mpr ⟨by simp [(port_eq_some.mp hport).1], rfl⟩

omit [IngressPacket P] in
theorem WorkerStep.length_ids_le {call : Call P m k} (hworker : WorkerStep cfg s s' w call) :
    (s.workersInfo w).logicalQueueIds.length ≤ (s'.workersInfo w).logicalQueueIds.length := by
  cases hworker with
  | served _ _ hids => rw [hids]
  | kept _ hkept =>
      cases hkept.ids with
      | inl hsame => rw [hsame]
      | inr hgrown =>
          obtain ⟨q, hids⟩ := hgrown
          rw [hids, List.length_append]
          omega

omit [IngressPacket P] in
/-- A packet of another queue is paid out of the measure, in which a queue registered
later is allowed for from the start. -/
theorem WorkerStep.waiting_le (hcoh : s.Coherent cfg) {call : Call P m k}
    (hworker : WorkerStep cfg s s' (cfg.mapToWorker b) call)
    (hready : ∀ now, call.op = .scan (cfg.mapToWorker b) now → s.Ready cfg now b)
    (hnone : call.dequeued b = none) {n : ℕ}
    (hn : (s'.workersInfo (cfg.mapToWorker b)).logicalQueueIds.length ≤ n) :
    (if call.servedBy (cfg.mapToWorker b) = true then 1 else 0) +
        CyclicScan.waiting n (s'.workersInfo (cfg.mapToWorker b)).logicalQueueIds
          (s'.workersInfo (cfg.mapToWorker b)).workerRrPtr b ≤
      CyclicScan.waiting n (s.workersInfo (cfg.mapToWorker b)).logicalQueueIds
        (s.workersInfo (cfg.mapToWorker b)).workerRrPtr b := by
  cases hworker with
  | kept hserved hkept =>
      rw [hserved, hkept.rrPtr, if_neg Bool.false_ne_true, zero_add]
      cases hkept.ids with
      | inl hsame => rw [hsame]
      | inr hgrown =>
          obtain ⟨q, hids⟩ := hgrown
          rw [hids, List.length_append, List.length_singleton] at hn
          rw [hids]
          exact CyclicScan.waiting_append_le (by omega)
  | @served now j q v qe log hfirst hptr hids =>
      have hnow := hready now rfl
      have hne : q ≠ b := by
        intro heq
        simp [Call.dequeued, heq] at hnone
      rw [hids] at hn ⊢
      have hpick := CyclicScan.waiting_pick hfirst (mem_ids_of_ready hcoh hnow) hnow hne hn
      have hj : j + 1 ≤ (s.workersInfo (cfg.mapToWorker b)).logicalQueueIds.length := by
        obtain ⟨cnt, hcnt, rfl, -⟩ := hfirst
        exact Nat.mod_lt _ (by omega)
      rw [hptr, CyclicScan.waiting_mod hj]
      simp only [Call.servedBy, decide_true, if_true]
      omega

theorem waiting_run (hcoh : start.Coherent cfg)
    (hwf : ∀ q p, start.port cfg q = some p → p.WellFormed)
    (hrun : run cfg start ops = some (s, calls)) (hready : ReadyThroughout cfg start ops b)
    (hnone : ∀ call ∈ calls, call.dequeued b = none) {n : ℕ}
    (hn : (s.workersInfo (cfg.mapToWorker b)).logicalQueueIds.length ≤ n) :
    calls.countP (Call.servedBy (cfg.mapToWorker b)) +
        CyclicScan.waiting n (s.workersInfo (cfg.mapToWorker b)).logicalQueueIds
          (s.workersInfo (cfg.mapToWorker b)).workerRrPtr b ≤ n - 1 := by
  revert hready hnone hn
  refine run_induction_from (I := fun ops s calls => ReadyThroughout cfg start ops b →
    (∀ call ∈ calls, call.dequeued b = none) →
    (s.workersInfo (cfg.mapToWorker b)).logicalQueueIds.length ≤ n →
    calls.countP (Call.servedBy (cfg.mapToWorker b)) +
        CyclicScan.waiting n (s.workersInfo (cfg.mapToWorker b)).logicalQueueIds
          (s.workersInfo (cfg.mapToWorker b)).workerRrPtr b ≤ n - 1) hcoh hwf ?_ ?_ hrun
  · intro _ _ hn
    simpa using CyclicScan.waiting_le hn
  · intro ops s calls s' call hbefore ih hstep _ _ hready hnone hn
    obtain ⟨hadvances, hwf'⟩ := advances_run hcoh hwf hbefore
    have hworker := step_worker hadvances.coherent hwf' hstep (cfg.mapToWorker b)
    have hearlier := ih
      (fun before now after s calls hsplit => hready before now (after ++ [call.op]) s calls
        (by simp [hsplit]))
      (fun call hcall => hnone call (List.mem_append_left _ hcall))
      (hworker.length_ids_le.trans hn)
    have hpaid := hworker.waiting_le hadvances.coherent
      (fun now hop => hready ops now [] s calls (by rw [hop]) hbefore)
      (hnone call (by simp)) hn
    rw [List.countP_append, List.countP_singleton]
    omega

/-- A queue which is ready at every scan of its worker waits for at most one packet
less than the worker has queues at the end. -/
theorem bounded_waiting_of_ports {capacity : ℕ} {before segment : List (Op P m)}
    {history : List (Call P m k)} (b : ℕ)
    (hbefore : run cfg (initial capacity) before = some (start, history))
    (hsegment : run cfg start segment = some (s, calls))
    (hready : ReadyThroughout cfg start segment b)
    (hnone : ∀ call ∈ calls, call.dequeued b = none) :
    calls.countP (Call.servedBy (cfg.mapToWorker b)) ≤
      (s.workersInfo (cfg.mapToWorker b)).logicalQueueIds.length - 1 := by
  have hwait := waiting_run (run_coherent hbefore) (run_wellFormed hbefore) hsegment hready
    hnone (le_refl _)
  omega

end Runs

def twoPorts : List (Op ℕ 1) :=
  [.pushFront 0 0 1 (some 1514) 1, .pushFront 1 0 1 (some 1514) 1]

/-- One packet of queue 0 leaves before the packet of queue 1. -/
theorem bounded_waiting_of_two_ports :
    ∃ start history s calls, run Config.single (initial 64) twoPorts = some (start, history) ∧
      run Config.single start [.scan (Fin.last 0) 2] = some (s, calls) ∧
      calls.countP (Call.servedBy (Fin.last 0)) = 1 ∧
      calls.countP (Call.servedBy (Config.single.mapToWorker 1)) ≤
        (s.workersInfo (Config.single.mapToWorker 1)).logicalQueueIds.length - 1 := by
  have heval : ((run Config.single (initial 64) twoPorts).bind fun r =>
      (r.1.port Config.single 1).bind fun p =>
        (run Config.single r.1 [.scan (Fin.last 0) 2]).map fun r' =>
          (p.info.size, decide (p.info.decayedLevel 2 ≤ p.info.tau),
            r'.2.all fun call => (call.dequeued 1).isNone,
            r'.2.countP (Call.servedBy (Fin.last 0)))) = some (1, true, true, 1) := by
    decide +kernel
  obtain ⟨⟨start, history⟩, hbefore, hrest⟩ := Option.bind_eq_some_iff.mp heval
  obtain ⟨p, hport, hrest⟩ := Option.bind_eq_some_iff.mp hrest
  obtain ⟨⟨s, calls⟩, hsegment, heq⟩ := Option.map_eq_some_iff.mp hrest
  simp only [Prod.mk.injEq, decide_eq_true_eq, List.all_eq_true, Option.isNone_iff_eq_none]
    at heq
  obtain ⟨hsize, hlevel, hnone, hcount⟩ := heq
  refine ⟨start, history, s, calls, hbefore, hsegment, hcount,
    bounded_waiting_of_ports 1 hbefore hsegment ?_ hnone⟩
  intro before now after st out hsplit hrun
  cases before with
  | nil =>
      simp only [List.nil_append, List.cons.injEq, Op.scan.injEq] at hsplit
      obtain ⟨⟨-, rfl⟩, -⟩ := hsplit
      simp only [run, exec_nil, Option.some.injEq, Prod.mk.injEq] at hrun
      rw [← hrun.1]
      exact ⟨p, hport, by rw [hsize]; decide, hlevel⟩
  | cons op before => simp at hsplit

end QueueingLogicVN

end Cmcs
