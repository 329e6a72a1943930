import Cmcs.PortMachine
import Mathlib.Order.WithBot
import Mathlib.Tactic

/-!
# `QueueingLogicVN`: the three-layer scheduler

All logical queues, all workers and the operations on them, each under the one
lock of the class.  `pop_back` is modelled one scan at a time: a scan reads the
clock once and either outputs a packet or ends in one of the two waits, during
which the lock is free.

A result `none` is undefined behaviour: an index outside a vector, an entry
missing from a map, the front of an empty deque, or a `select_vn` which does not
return.  Besides its result every operation reports what happened to which
logical queue, in the labels of the queue's own transition system.
-/

namespace Cmcs

/-- What the constructor is given: `map_to_worker` and the weights, which the
command line parser accepts only when positive. -/
structure Config (m k : ℕ) where
  mapToWorker : ℕ → Fin m
  vnWeights : Fin k → ℤ
  vnWeights_pos : ∀ i, 0 < vnWeights i

def Config.single : Config 1 1 where
  mapToWorker _ := 0
  vnWeights _ := 1
  vnWeights_pos _ := Int.one_pos

structure QueueingLogicVN (P : Type) (m k : ℕ) where
  capacity : ℕ
  logicalQueuesInfo : ℕ → Option (LogicalQueueInfo k) := fun _ => none
  workersInfo : Fin m → WorkerInfo P k := fun _ => {}

abbrev Log (P : Type) (k : ℕ) := List (ℕ × Event P k)

inductive ScanOutcome (P : Type) (k : ℕ)
  | wait
  | waitUntil (nextWakeUpTime : WithTop Ticks)
  | output (q : ℕ) (v : Fin k) (qe : QE P)

/-- The calls of the data plane, the egress threads and the control plane.
Calls which may create a logical queue carry the clock reading for it. -/
inductive Op (P : Type) (m : ℕ)
  | pushFront (q vn color : ℕ) (item : Option P) (now : Ticks)
  | scan (w : Fin m) (now : Ticks)
  | setVnCapacity (q vn c : ℕ) (now : Ticks)
  | setQueueCapacity (q c : ℕ) (now : Ticks)
  | setCapacityForAll (c : ℕ)
  | setRate (q bps : ℕ) (now : Ticks)
  | setRateForAll (bps : ℕ)

inductive Result (P : Type) (k : ℕ)
  | pushed (accepted : Bool)
  | scanned (outcome : ScanOutcome P k)
  | done

/-- One entry of the history of a run: a call, its result and what happened to
the logical queues in it. -/
structure Call (P : Type) (m k : ℕ) where
  op : Op P m
  result : Result P k
  log : Log P k

variable {P : Type} {m k : ℕ}

/-- Indexing of a vector with `k` entries. -/
def vnIndex (vn : ℕ) : Option (Fin k) := if h : vn < k then some ⟨vn, h⟩ else none

namespace QueueingLogicVN

variable (cfg : Config m k) (s : QueueingLogicVN P m k)

/-- `get_logical_queue`, with the lazy creation of both sides. -/
def getLogicalQueue (q : ℕ) (w : Fin m) (now : Ticks) :
    QueueingLogicVN P m k × LogicalQueueInfo k :=
  match s.logicalQueuesInfo q with
  | some lq => (s, lq)
  | none =>
      let lq := LogicalQueueInfo.new s.capacity cfg.vnWeights now
      let wInfo := s.workersInfo w
      ({ s with
          logicalQueuesInfo := Function.update s.logicalQueuesInfo q (some lq)
          workersInfo := Function.update s.workersInfo w
            { wInfo with
              physicalQueues := Function.update wInfo.physicalQueues q
                (some ((wInfo.physicalQueues q).getD fun _ => []))
              logicalQueueIds := wInfo.logicalQueueIds ++ [q] } }, lq)

def creation (q : ℕ) (now : Ticks) : Log P k :=
  if (s.logicalQueuesInfo q).isSome then [] else [(q, .create now)]

def setQueue (q : ℕ) (lq : LogicalQueueInfo k) : QueueingLogicVN P m k :=
  { s with logicalQueuesInfo := Function.update s.logicalQueuesInfo q (some lq) }

def setWorker (w : Fin m) (wInfo : WorkerInfo P k) : QueueingLogicVN P m k :=
  { s with workersInfo := Function.update s.workersInfo w wInfo }

/-- `push_front`; the flag is the returned 1 or 0. -/
def pushFront [IngressPacket P] (q vn color : ℕ) (item : Option P) (now : Ticks) :
    Option (QueueingLogicVN P m k × Bool) := do
  let w := cfg.mapToWorker q
  let (s, lq) := s.getLogicalQueue cfg q w now
  let v ← vnIndex vn
  let pktSize := ingressSize item
  let lq := lq.accrue v color pktSize
  if (lq.vnQueues v).capacity ≤ (lq.vnQueues v).size then
    some (s.setQueue q lq, false)
  else
    let wInfo := s.workersInfo w
    let deques ← wInfo.physicalQueues q
    let deques := Function.update deques v (deques v ++ [⟨item, color, pktSize⟩])
    some ((s.setQueue q (lq.accept v)).setWorker w
      { wInfo with
        physicalQueues := Function.update wInfo.physicalQueues q (some deques)
        size := wInfo.size + 1 }, true)

/-! ## `pop_back` -/

end QueueingLogicVN

/-- What one visit of the scan loop does to a non-empty logical queue: its new
state, its wake time if it is blocked, and the VN served if it is not. -/
structure Visit (P : Type) (k : ℕ) where
  queue : LogicalQueueInfo k
  wakeTime : WithTop Ticks := ⊤
  served : Option (Fin k) := none
  events : List (Event P k)

namespace LogicalQueueInfo

variable (lq : LogicalQueueInfo k) (now : Ticks) (phys : Fin k → List (QE P))

/-- The cached decision, or the sweep followed by `select_vn`. -/
def decision : Option (Fin k × LogicalQueueInfo k × List (Event P k)) :=
  match lq.pendingVn with
  | some sel => some (sel, lq, [])
  | none => do
      let (sel, lq') ← (lq.sweep now).selectVn phys
      some (sel.vn, { lq' with pendingVn := some sel.vn },
        [.sweep now (lq.evicted now), .select sel])

def visit : Option (Visit P k) := do
  let (sel, lq, events) ← lq.decision now phys
  let head ← (phys sel).head?
  if lq.tau < lq.decayedLevel now then
    some { queue := lq, wakeTime := lq.wakeTime now, events := events ++ [.defer now] }
  else
    some { queue := lq.conform now head.pktSize, served := some sel,
           events := events ++ [.release now sel head] }

end LogicalQueueInfo

/-- The state of the scan loop: the queues visited so far are updated, and
`selected` holds the position, the id and the VN which ended the loop. -/
structure ScanState (P : Type) (k : ℕ) where
  queues : ℕ → Option (LogicalQueueInfo k)
  nextWakeUpTime : WithTop Ticks := ⊤
  selected : Option (ℕ × ℕ × Fin k) := none
  log : Log P k := []

namespace WorkerInfo

/-- The loop over the candidate offsets `cs` of one scan. -/
def scanLoop (wInfo : WorkerInfo P k) (now : Ticks) :
    List ℕ → (ℕ → Option (LogicalQueueInfo k)) → Option (ScanState P k)
  | [], queues => some { queues := queues }
  | c :: cs, queues => do
      let j := (wInfo.workerRrPtr + c) % wInfo.logicalQueueIds.length
      let qid ← wInfo.logicalQueueIds[j]?
      let lq ← queues qid
      if lq.size = 0 then scanLoop wInfo now cs queues
      else
        let phys ← wInfo.physicalQueues qid
        let visit ← lq.visit now phys
        let queues := Function.update queues qid (some visit.queue)
        match visit.served with
        | some sel =>
            some { queues := queues, selected := some (j, qid, sel),
                   log := visit.events.map fun e => (qid, e) }
        | none =>
            let rest ← scanLoop wInfo now cs queues
            some { rest with
              nextWakeUpTime := min visit.wakeTime rest.nextWakeUpTime
              log := (visit.events.map fun e => (qid, e)) ++ rest.log }

end WorkerInfo

namespace QueueingLogicVN

variable (cfg : Config m k) (s : QueueingLogicVN P m k)

/-- One iteration of the outer loop of `pop_back(w, ...)` at clock reading
`now`. -/
def scan (w : Fin m) (now : Ticks) :
    Option (QueueingLogicVN P m k × ScanOutcome P k × Log P k) :=
  let wInfo := s.workersInfo w
  if wInfo.size = 0 then some (s, .wait, [])
  else do
    let n := wInfo.logicalQueueIds.length
    let scanned ← wInfo.scanLoop now (List.range n) s.logicalQueuesInfo
    let s := { s with logicalQueuesInfo := scanned.queues }
    match scanned.selected with
    | none => some (s, .waitUntil scanned.nextWakeUpTime, scanned.log)
    | some (j, qid, v) =>
        let lq ← scanned.queues qid
        let deques ← wInfo.physicalQueues qid
        let qe ← (deques v).head?
        let deques := Function.update deques v (deques v).tail
        some ((s.setQueue qid (lq.depart v now)).setWorker w
          { wInfo with
            size := wInfo.size - 1
            workerRrPtr := (j + 1) % n
            physicalQueues := Function.update wInfo.physicalQueues qid (some deques) },
          .output qid v qe, scanned.log)

/-! ## Capacity and rate setters -/

def setVnCapacity (q vn c : ℕ) (now : Ticks) : Option (QueueingLogicVN P m k) := do
  let (s, lq) := s.getLogicalQueue cfg q (cfg.mapToWorker q) now
  let v ← vnIndex vn
  some (s.setQueue q (lq.modifyVn v fun sq => { sq with capacity := c }))

def setQueueCapacity (q c : ℕ) (now : Ticks) : QueueingLogicVN P m k :=
  let (s, lq) := s.getLogicalQueue cfg q (cfg.mapToWorker q) now
  s.setQueue q (lq.setCapacities c)

def setCapacityForAll (c : ℕ) : QueueingLogicVN P m k :=
  { s with
    logicalQueuesInfo := fun q => (s.logicalQueuesInfo q).map fun lq => lq.setCapacities c
    capacity := c }

def setRate (q bps : ℕ) (now : Ticks) : QueueingLogicVN P m k :=
  let (s, lq) := s.getLogicalQueue cfg q (cfg.mapToWorker q) now
  s.setQueue q { lq with dequeueRateBps := bps }

def setRateForAll (bps : ℕ) : QueueingLogicVN P m k :=
  { s with
    logicalQueuesInfo := fun q =>
      (s.logicalQueuesInfo q).map fun lq => { lq with dequeueRateBps := bps } }

/-! ## Calls and runs -/

def registered : List ℕ :=
  (List.finRange m).flatMap fun w => (s.workersInfo w).logicalQueueIds

def step [IngressPacket P] (op : Op P m) :
    Option (QueueingLogicVN P m k × List (Call P m k)) :=
  match op with
  | .pushFront q vn color item now => do
      let v ← vnIndex vn
      let (s', accepted) ← s.pushFront cfg q vn color item now
      some (s', [⟨op, .pushed accepted,
        s.creation q now ++ [(q, .push v color item accepted)]⟩])
  | .scan w now => do
      let (s', outcome, log) ← s.scan w now
      some (s', [⟨op, .scanned outcome, log⟩])
  | .setVnCapacity q vn c now => do
      let v ← vnIndex vn
      let s' ← s.setVnCapacity cfg q vn c now
      some (s', [⟨op, .done, s.creation q now ++ [(q, .setVnCapacity v c)]⟩])
  | .setQueueCapacity q c now =>
      some (s.setQueueCapacity cfg q c now,
        [⟨op, .done, s.creation q now ++ [(q, .setQueueCapacity c)]⟩])
  | .setCapacityForAll c =>
      some (s.setCapacityForAll c,
        [⟨op, .done, s.registered.map fun q => (q, .setQueueCapacity c)⟩])
  | .setRate q bps now =>
      some (s.setRate cfg q bps now,
        [⟨op, .done, s.creation q now ++ [(q, .setRate bps)]⟩])
  | .setRateForAll bps =>
      some (s.setRateForAll bps,
        [⟨op, .done, s.registered.map fun q => (q, .setRate bps)⟩])

def run [IngressPacket P] (ops : List (Op P m)) :
    Option (QueueingLogicVN P m k × List (Call P m k)) :=
  TransitionSystem.exec (fun s op => step cfg s op) s ops

def initial (capacity : ℕ) : QueueingLogicVN P m k where
  capacity := capacity

end QueueingLogicVN

end Cmcs
