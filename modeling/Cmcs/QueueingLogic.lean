import Cmcs.TransitionRun
import Mathlib.Data.Fintype.Basic
import Mathlib.Tactic

/-!
# `QueueingLogic`: the basic queueing block

Logical queues with a capacity each, one deque for each worker, no rates.  Both
`push_front` and `pop_back` block.  They are modelled one pass of their loop at a
time: a pass which finds the logical queue full, or the deque empty, ends in the
wait on the condition variable.  A waiting push keeps its element until it resumes;
a waiting pop holds nothing, and its next pass is another `popBack` of the worker.
-/

namespace Cmcs

namespace QueueingLogic

structure QE (P : Type) where
  e : P
  queueId : ℕ

structure QueueInfo where
  size : ℕ := 0
  capacity : ℕ

/-- The oldest element comes first, where the code has `back`. -/
structure WorkerInfo (P : Type) where
  queue : List (QE P) := []

inductive Op (P : Type) (m : ℕ)
  | pushFront (q : ℕ) (item : P)
  | resume (i : ℕ)
  | popBack (w : Fin m)
  | setCapacity (q c : ℕ)
  | setCapacityForAll (c : ℕ)

inductive Result (P : Type)
  | pushed
  | waitNotFull
  | waitNotEmpty
  | popped (q : ℕ) (item : P)
  | done
  deriving DecidableEq

end QueueingLogic

/-- `waiting` holds the pushes inside `q_not_full.wait`, oldest first, with the ids of
their queues. -/
structure QueueingLogic (P : Type) (m : ℕ) where
  capacity : ℕ
  waiting : List (ℕ × P) := []
  queuesInfo : ℕ → Option QueueingLogic.QueueInfo := fun _ => none
  workersInfo : Fin m → QueueingLogic.WorkerInfo P := fun _ => {}

namespace QueueingLogic

variable {P : Type} {m : ℕ} (mapToWorker : ℕ → Fin m) (s : QueueingLogic P m)

def initial (capacity : ℕ) : QueueingLogic P m where
  capacity := capacity

/-- The entry which `get_queue` finds or creates.  Every caller stores it. -/
def getQueue (q : ℕ) : QueueInfo :=
  match s.queuesInfo q with
  | some info => info
  | none => { capacity := s.capacity }

def setQueue (q : ℕ) (info : QueueInfo) : QueueingLogic P m :=
  { s with queuesInfo := Function.update s.queuesInfo q (some info) }

def setWorker (w : Fin m) (wInfo : WorkerInfo P) : QueueingLogic P m :=
  { s with workersInfo := Function.update s.workersInfo w wInfo }

/-- The rest of `push_front` behind its loop. -/
def emplaceFront (q : ℕ) (item : P) : QueueingLogic P m :=
  let info := s.getQueue q
  let w := mapToWorker q
  (s.setQueue q { info with size := info.size + 1 }).setWorker w
    { queue := (s.workersInfo w).queue ++ [⟨item, q⟩] }

def isFull (q : ℕ) : Bool := (s.getQueue q).capacity ≤ (s.getQueue q).size

/-- The first pass of the loop of `push_front`, with the rest of the call if the queue
has room. -/
def pushFront (q : ℕ) (item : P) : QueueingLogic P m × Result P :=
  if s.isFull q then
    ({ s.setQueue q (s.getQueue q) with waiting := s.waiting ++ [(q, item)] }, .waitNotFull)
  else (s.emplaceFront mapToWorker q item, .pushed)

/-- A later pass of the waiting push `i`.  `notify_one` wakes some push which waits for
the queue, and a push may also wake by itself, so that any of them may come next. -/
def resume (i : ℕ) : Option (QueueingLogic P m × Result P) :=
  s.waiting[i]?.map fun push =>
    if s.isFull push.1 then (s, .waitNotFull)
    else
      ({ s.emplaceFront mapToWorker push.1 push.2 with waiting := s.waiting.eraseIdx i },
        .pushed)

/-- One pass of the loop of `pop_back(w, ...)`, with the rest of the call if the
deque is not empty. -/
def popBack (w : Fin m) : Option (QueueingLogic P m × Result P) :=
  match (s.workersInfo w).queue with
  | [] => some (s, .waitNotEmpty)
  | oldest :: rest =>
      (s.queuesInfo oldest.queueId).map fun info =>
        ((s.setQueue oldest.queueId { info with size := info.size - 1 }).setWorker w
          { queue := rest }, .popped oldest.queueId oldest.e)

def size (q : ℕ) : ℕ :=
  match s.queuesInfo q with
  | some info => info.size
  | none => 0

def setCapacity (q c : ℕ) : QueueingLogic P m :=
  s.setQueue q { s.getQueue q with capacity := c }

def setCapacityForAll (c : ℕ) : QueueingLogic P m :=
  { s with
    queuesInfo := fun q => (s.queuesInfo q).map fun info => { info with capacity := c }
    capacity := c }

def step (op : Op P m) : Option (QueueingLogic P m × List (Result P)) :=
  match op with
  | .pushFront q item =>
      let (s', result) := s.pushFront mapToWorker q item
      some (s', [result])
  | .resume i => (s.resume mapToWorker i).map fun r => (r.1, [r.2])
  | .popBack w => (s.popBack w).map fun r => (r.1, [r.2])
  | .setCapacity q c => some (s.setCapacity q c, [.done])
  | .setCapacityForAll c => some (s.setCapacityForAll c, [.done])

def run (ops : List (Op P m)) : Option (QueueingLogic P m × List (Result P)) :=
  TransitionSystem.exec (fun s op => step mapToWorker s op) s ops

example : ((initial 1 : QueueingLogic Char 1).run (fun _ => 0)
    [.pushFront 7 'a', .pushFront 7 'b', .popBack 0, .resume 0, .popBack 0]).map Prod.snd =
      some [.pushed, .waitNotFull, .popped 7 'a', .pushed, .popped 7 'b'] := by
  decide

end QueueingLogic

end Cmcs
