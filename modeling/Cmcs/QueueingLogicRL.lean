import Cmcs.QueueingData
import Cmcs.TransitionRun
import Mathlib.Data.List.Sort
import Mathlib.Tactic

/-!
# `QueueingLogicRL`: the rate-limited queueing block

The queueing block of the standard `simple_switch` target, from which the
VN-aware scheduler was derived.  Each worker has one priority queue, ordered by
the time at which an element may leave, and a logical queue spaces the elements
which it accepts by the ticks of one element at its rate.

The priority queue is the list of its elements with the top first.  `pop_back` is
modelled one pass of its loop at a time: a pass reads the clock once and either
takes the top or ends in one of the two waits.  A result `none` is the exception
of `queues_info.at`.
-/

namespace Cmcs

namespace QueueingLogicRL

structure QE (P : Type) where
  e : P
  queueId : ℕ
  send : Ticks
  id : ℕ

/-- The comparison of the priority queue, whose top is the least element. -/
def QEComp {P : Type} (lhs rhs : QE P) : Prop :=
  if lhs.send = rhs.send then rhs.id < lhs.id else rhs.send < lhs.send

instance {P : Type} (lhs rhs : QE P) : Decidable (QEComp lhs rhs) := by
  unfold QEComp
  infer_instance

def rateToTicks (pps : ℕ) : Ticks := if pps = 0 then 0 else toTicks (1 / pps)

structure QueueInfo where
  size : ℕ := 0
  capacity : ℕ
  queueRatePps : ℕ
  pktDelayTicks : Ticks
  lastSent : Ticks

def QueueInfo.new (capacity queueRatePps : ℕ) (now : Ticks) : QueueInfo where
  capacity := capacity
  queueRatePps := queueRatePps
  pktDelayTicks := rateToTicks queueRatePps
  lastSent := now

def QueueInfo.setRate (info : QueueInfo) (pps : ℕ) : QueueInfo :=
  { info with queueRatePps := pps, pktDelayTicks := rateToTicks pps }

/-- `get_next_tp` at clock reading `now`. -/
def QueueInfo.getNextTp (info : QueueInfo) (now : Ticks) : Ticks :=
  max now (info.lastSent + info.pktDelayTicks)

/-- `wrapping_counter` is a `size_t`. -/
structure WorkerInfo (P : Type) where
  queue : List (QE P) := []
  wrappingCounter : ℕ := 0

/-- `queue.emplace`, which also takes the next id. -/
def WorkerInfo.emplace {P : Type} (wInfo : WorkerInfo P) (item : P) (q : ℕ) (send : Ticks) :
    WorkerInfo P where
  queue := wInfo.queue.orderedInsert (fun a b => QEComp b a)
    ⟨item, q, send, wInfo.wrappingCounter⟩
  wrappingCounter := (wInfo.wrappingCounter + 1) % 2 ^ 64

inductive PopOutcome (P : Type)
  | wait
  | waitUntil (send : Ticks)
  | output (q : ℕ) (item : P)
  deriving DecidableEq

/-- The calls on the block.  A call which may create a logical queue carries the
clock reading of the creation. -/
inductive Op (P : Type) (m : ℕ)
  | pushFront (q : ℕ) (item : P) (created now : Ticks)
  | popBack (w : Fin m) (now : Ticks)
  | setCapacity (q c : ℕ) (created : Ticks)
  | setCapacityForAll (c : ℕ)
  | setRate (q pps : ℕ) (created : Ticks)
  | setRateForAll (pps : ℕ)

inductive Result (P : Type)
  | pushed (accepted : Bool)
  | popped (outcome : PopOutcome P)
  | done
  deriving DecidableEq

structure Call (P : Type) (m : ℕ) where
  op : Op P m
  result : Result P

end QueueingLogicRL

structure QueueingLogicRL (P : Type) (m : ℕ) where
  capacity : ℕ
  queueRatePps : ℕ := 0
  queuesInfo : ℕ → Option QueueingLogicRL.QueueInfo := fun _ => none
  workersInfo : Fin m → QueueingLogicRL.WorkerInfo P := fun _ => {}

namespace QueueingLogicRL

variable {P : Type} {m : ℕ} (mapToWorker : ℕ → Fin m) (s : QueueingLogicRL P m)

def initial (capacity : ℕ) : QueueingLogicRL P m where
  capacity := capacity

/-- The entry which `get_queue` finds, or creates at clock reading `now`.  Every
caller stores it. -/
def getQueue (q : ℕ) (now : Ticks) : QueueInfo :=
  match s.queuesInfo q with
  | some info => info
  | none => .new s.capacity s.queueRatePps now

def setQueue (q : ℕ) (info : QueueInfo) : QueueingLogicRL P m :=
  { s with queuesInfo := Function.update s.queuesInfo q (some info) }

def setWorker (w : Fin m) (wInfo : WorkerInfo P) : QueueingLogicRL P m :=
  { s with workersInfo := Function.update s.workersInfo w wInfo }

/-- `push_front`; the flag is the returned 1 or 0. -/
def pushFront (q : ℕ) (item : P) (created now : Ticks) : QueueingLogicRL P m × Bool :=
  let info := s.getQueue q created
  if info.capacity ≤ info.size then (s.setQueue q info, false)
  else
    let w := mapToWorker q
    let lastSent := info.getNextTp now
    ((s.setQueue q { info with lastSent := lastSent, size := info.size + 1 }).setWorker w
      ((s.workersInfo w).emplace item q lastSent), true)

/-- One pass of the loop of `pop_back(w, ...)`, with the rest of the call if the
top may leave. -/
def popBack (w : Fin m) (now : Ticks) : Option (QueueingLogicRL P m × PopOutcome P) :=
  match (s.workersInfo w).queue with
  | [] => some (s, .wait)
  | top :: rest =>
      if top.send ≤ now then
        (s.queuesInfo top.queueId).map fun info =>
          ((s.setQueue top.queueId { info with size := info.size - 1 }).setWorker w
            { s.workersInfo w with queue := rest }, .output top.queueId top.e)
      else some (s, .waitUntil top.send)

def size (q : ℕ) : ℕ :=
  match s.queuesInfo q with
  | some info => info.size
  | none => 0

def setCapacity (q c : ℕ) (created : Ticks) : QueueingLogicRL P m :=
  s.setQueue q { s.getQueue q created with capacity := c }

def setCapacityForAll (c : ℕ) : QueueingLogicRL P m :=
  { s with
    queuesInfo := fun q => (s.queuesInfo q).map fun info => { info with capacity := c }
    capacity := c }

def setRate (q pps : ℕ) (created : Ticks) : QueueingLogicRL P m :=
  s.setQueue q ((s.getQueue q created).setRate pps)

def setRateForAll (pps : ℕ) : QueueingLogicRL P m :=
  { s with
    queuesInfo := fun q => (s.queuesInfo q).map fun info => info.setRate pps
    queueRatePps := pps }

def step (op : Op P m) : Option (QueueingLogicRL P m × List (Call P m)) :=
  match op with
  | .pushFront q item created now =>
      let (s', accepted) := s.pushFront mapToWorker q item created now
      some (s', [⟨op, .pushed accepted⟩])
  | .popBack w now => (s.popBack w now).map fun r => (r.1, [⟨op, .popped r.2⟩])
  | .setCapacity q c created => some (s.setCapacity q c created, [⟨op, .done⟩])
  | .setCapacityForAll c => some (s.setCapacityForAll c, [⟨op, .done⟩])
  | .setRate q pps created => some (s.setRate q pps created, [⟨op, .done⟩])
  | .setRateForAll pps => some (s.setRateForAll pps, [⟨op, .done⟩])

def run (ops : List (Op P m)) : Option (QueueingLogicRL P m × List (Call P m)) :=
  TransitionSystem.exec (fun s op => step mapToWorker s op) s ops

end QueueingLogicRL

end Cmcs
