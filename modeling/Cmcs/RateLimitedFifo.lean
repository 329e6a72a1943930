import Cmcs.QueueingData
import Cmcs.TransitionRun
import Mathlib.Data.List.Rotate
import Mathlib.Order.WithBot
import Mathlib.Tactic

/-!
# A rate-limited FIFO scheduler

What a user of `QueueingLogicVN` with a single VN has in mind: one FIFO queue
with a capacity and a leaky bucket for each logical queue, and a round robin
over the queues of each worker.  There are no VNs, colors, credits, deficits or
decisions here.
-/

namespace Cmcs

/-- The packets with their sizes, and the water level `X` at the time `LCT` of
the last departure. -/
structure FifoQueue (P : Type) where
  packets : List (Option P × ℕ) := []
  capacity : ℕ
  LCT : Ticks
  X : ℚ := 0
  dequeueRateBps : ℚ := defaultDequeueRate
  tau : ℚ := defaultTau

namespace FifoQueue

variable {P : Type} (fq : FifoQueue P) (now : Ticks)

def level : ℚ := fq.X - seconds (now - fq.LCT) * fq.dequeueRateBps

/-- The head packet and the queue after its departure, if the bucket lets it
pass. -/
def pop : Option (Option P × FifoQueue P) :=
  match fq.packets with
  | [] => none
  | (item, size) :: rest =>
      if fq.level now ≤ fq.tau then
        some (item, { fq with
          packets := rest
          X := max 0 (fq.level now) + size * 8
          LCT := now })
      else none

/-- When a blocked head packet may leave, as the clock computes it. -/
def releaseTime : WithTop Ticks :=
  if fq.packets.isEmpty then ⊤
  else if fq.dequeueRateBps = 0 then ((now + infiniteTicks : Ticks) : WithTop Ticks)
  else
    ((now + toTicks ((fq.level now - fq.tau) / fq.dequeueRateBps) : Ticks) : WithTop Ticks)

end FifoQueue

structure FifoWorker where
  queueIds : List ℕ := []
  rrPtr : ℕ := 0

@[ext]
structure RateLimitedFifo (P : Type) (m : ℕ) where
  capacity : ℕ
  queues : ℕ → Option (FifoQueue P) := fun _ => none
  workers : Fin m → FifoWorker := fun _ => {}

inductive FifoOp (P : Type) (m : ℕ)
  | push (q : ℕ) (item : Option P) (now : Ticks)
  | scan (w : Fin m) (now : Ticks)
  | setCapacity (q c : ℕ) (now : Ticks)
  | setCapacityForAll (c : ℕ)
  | setRate (q bps : ℕ) (now : Ticks)
  | setRateForAll (bps : ℕ)

inductive FifoResult (P : Type)
  | pushed (accepted : Bool)
  | wait
  | waitUntil (nextWakeUpTime : WithTop Ticks)
  | output (q : ℕ) (item : Option P)
  | done
  deriving DecidableEq

namespace RateLimitedFifo

variable {P : Type} {m : ℕ} (mapToWorker : ℕ → Fin m) (s : RateLimitedFifo P m)

def initial (capacity : ℕ) : RateLimitedFifo P m where
  capacity := capacity

def setQueue (q : ℕ) (fq : FifoQueue P) : RateLimitedFifo P m :=
  { s with queues := Function.update s.queues q (some fq) }

def getQueue (q : ℕ) (now : Ticks) : RateLimitedFifo P m × FifoQueue P :=
  match s.queues q with
  | some fq => (s, fq)
  | none =>
      let fq : FifoQueue P := { capacity := s.capacity, LCT := now }
      let worker := s.workers (mapToWorker q)
      ({ s.setQueue q fq with
          workers := Function.update s.workers (mapToWorker q)
            { worker with queueIds := worker.queueIds ++ [q] } }, fq)

def push [IngressPacket P] (q : ℕ) (item : Option P) (now : Ticks) :
    RateLimitedFifo P m × Bool :=
  let (s, fq) := s.getQueue mapToWorker q now
  if fq.capacity ≤ fq.packets.length then (s, false)
  else (s.setQueue q { fq with packets := fq.packets ++ [(item, ingressSize item)] }, true)

/-! ## Round robin -/

def isEmpty (q : ℕ) : Bool := (s.queues q).all fun fq => fq.packets.isEmpty

def pop (now : Ticks) (q : ℕ) : Option (ℕ × Option P × FifoQueue P) :=
  (s.queues q).bind fun fq => (fq.pop now).map fun popped => (q, popped)

def releaseTime (now : Ticks) (q : ℕ) : WithTop Ticks :=
  (s.queues q).elim ⊤ fun fq => fq.releaseTime now

variable {s} in
theorem pop_of_queue {q : ℕ} {fq : FifoQueue P} (hqueue : s.queues q = some fq) (now : Ticks) :
    s.pop now q = (fq.pop now).map fun popped => (q, popped) := by
  rw [pop, hqueue, Option.bind_some]

variable {s} in
theorem releaseTime_of_queue {q : ℕ} {fq : FifoQueue P} (hqueue : s.queues q = some fq)
    (now : Ticks) : s.releaseTime now q = fq.releaseTime now := by
  rw [releaseTime, hqueue, Option.elim_some]

/-- The queues of worker `w` in round-robin order. -/
def order (w : Fin m) : List ℕ := (s.workers w).queueIds.rotate (s.workers w).rrPtr

/-- One scan of a worker: the first queue in round-robin order which lets a
packet pass is served, and the next round starts behind it. -/
def scan (w : Fin m) (now : Ticks) : RateLimitedFifo P m × FifoResult P :=
  if (s.order w).all s.isEmpty then (s, .wait)
  else
    match (s.order w).findSome? (s.pop now) with
    | none => (s, .waitUntil (((s.order w).map (s.releaseTime now)).foldr min ⊤))
    | some (q, item, fq) =>
        let ids := (s.workers w).queueIds
        ({ s.setQueue q fq with
            workers := Function.update s.workers w
              { queueIds := ids, rrPtr := (ids.idxOf q + 1) % ids.length } },
          .output q item)

/-! ## Steps and runs -/

def modifyQueue (q : ℕ) (now : Ticks) (f : FifoQueue P → FifoQueue P) : RateLimitedFifo P m :=
  let (s, fq) := s.getQueue mapToWorker q now
  s.setQueue q (f fq)

def step [IngressPacket P] : FifoOp P m → RateLimitedFifo P m × FifoResult P
  | .push q item now =>
      let (s', accepted) := s.push mapToWorker q item now
      (s', .pushed accepted)
  | .scan w now => s.scan w now
  | .setCapacity q c now =>
      (s.modifyQueue mapToWorker q now fun fq => { fq with capacity := c }, .done)
  | .setCapacityForAll c =>
      ({ s with
          queues := fun q => (s.queues q).map fun fq => { fq with capacity := c }
          capacity := c }, .done)
  | .setRate q bps now =>
      (s.modifyQueue mapToWorker q now fun fq => { fq with dequeueRateBps := bps }, .done)
  | .setRateForAll bps =>
      ({ s with
          queues := fun q => (s.queues q).map fun fq => { fq with dequeueRateBps := bps } },
        .done)

/-- The scheduler as a machine; it never fails. -/
def next [IngressPacket P] (op : FifoOp P m) :
    Option (RateLimitedFifo P m × List (FifoResult P)) :=
  some ((s.step mapToWorker op).1, [(s.step mapToWorker op).2])

def run [IngressPacket P] (ops : List (FifoOp P m)) :
    Option (RateLimitedFifo P m × List (FifoResult P)) :=
  TransitionSystem.exec (fun s op => next mapToWorker s op) s ops

end RateLimitedFifo

end Cmcs
