import Mathlib.Algebra.Order.Field.Rat
import Mathlib.Data.Fintype.Basic
import Mathlib.Tactic

/-!
# Data of the VN-aware packet scheduler

The records of `QueueingLogicVN` and the updates which its operations make to
one logical queue.  Time points and durations are counted in the nanosecond
ticks of the clock, byte counters are exact integers and the water level of the
dequeue bucket is an exact rational.  The two `duration_cast`s are `seconds` and
the truncating `toTicks`.

A VN id is an element of `Fin k` with `k = nb_vns`, so an id outside the vector
`vn_queues` can only enter at the entry points which take a raw number.

The updates are cut out of the operations: `accrue` and `accept` are the two
halves of `push_front`, before and after the capacity check; `decayedLevel`
(`X_prime`), `wakeTime` and `conform` belong to the rate check of `pop_back` and
`depart` to the dequeue after it.
-/

namespace Cmcs

abbrev Ticks := ℤ

def timePointMin : Ticks := -2 ^ 63

def vnIdleTimeout : Ticks := 500 * 1000000

def quantum : ℤ := 1514

def defaultDequeueRate : ℚ := 10 * 1000000

def defaultTau : ℚ := 4 * 1514 * 8

def seconds (d : Ticks) : ℚ := d / 10 ^ 9

def toTicks (s : ℚ) : Ticks := (s * 10 ^ 9).num.tdiv (s * 10 ^ 9).den

/-- What the cast makes of an infinite duration.  C++ leaves it undefined; this is the
least tick count, which the conversion instruction of common processors yields, so that
a deadline computed from it has passed. -/
def infiniteTicks : Ticks := -2 ^ 63

class IngressPacket (P : Type) where
  getIngressLength : P → ℕ

/-- In concrete runs a packet is just its length. -/
instance : IngressPacket ℕ where
  getIngressLength n := n

variable {P : Type} {k : ℕ}

/-- `item ? item->get_ingress_length() : 0`.  A null item is a sentinel. -/
def ingressSize [IngressPacket P] : Option P → ℕ
  | some packet => IngressPacket.getIngressLength packet
  | none => 0

structure QE (P : Type) where
  e : Option P
  color : ℕ
  pktSize : ℕ
  deriving DecidableEq

structure VNQueueInfo where
  size : ℕ := 0
  capacity : ℕ
  greenCredit : ℤ := 0
  weightedDeficit : ℤ := 0
  weight : ℤ
  emptySince : Ticks := timePointMin
  deriving DecidableEq

/-- Per-logical-queue scheduling and rate-limiting state.  `pendingVn` is the
code's `int` with `-1` for no pending decision. -/
structure LogicalQueueInfo (k : ℕ) where
  vnQueues : Fin k → VNQueueInfo
  size : ℕ := 0
  LCT : Ticks
  X : ℚ := 0
  dequeueRateBps : ℚ := defaultDequeueRate
  tau : ℚ := defaultTau
  pendingVn : Option (Fin k) := none
  greenScanIdx : ℕ := 0
  wrrIdx : ℕ := 0
  activeSet : List (Fin k) := []

inductive Phase
  | green
  | dwrr
  deriving DecidableEq

/-- What one call of `select_vn` did.  The code returns `vn` alone; the other
fields record which packet was charged in which phase, after how many
replenishment rounds and for which active set. -/
structure Selection (P : Type) (k : ℕ) where
  vn : Fin k
  phase : Phase
  rounds : ℕ
  active : List (Fin k)
  head : QE P

/-- What `rounds` replenishments of the active set give VN `i`, in multiples of
its weight times the quantum. -/
def roundsFor (active : List (Fin k)) (rounds : ℕ) (i : Fin k) : ℤ :=
  if i ∈ active then rounds else 0

namespace Selection

variable (sel : Selection P k) (i : Fin k)

def greenCharge : ℤ := if sel.phase = .green ∧ sel.vn = i then sel.head.pktSize else 0

def dwrrCharge : ℤ := if sel.phase = .dwrr ∧ sel.vn = i then sel.head.pktSize else 0

def roundsOf : ℤ := roundsFor sel.active sel.rounds i

end Selection

namespace LogicalQueueInfo

variable (lq : LogicalQueueInfo k)

def new (capacity : ℕ) (weights : Fin k → ℤ) (now : Ticks) : LogicalQueueInfo k where
  vnQueues i := { capacity := capacity, weight := weights i }
  LCT := now

def modifyVn (v : Fin k) (f : VNQueueInfo → VNQueueInfo) : LogicalQueueInfo k :=
  { lq with vnQueues := Function.update lq.vnQueues v (f (lq.vnQueues v)) }

def accrue (v : Fin k) (color pktSize : ℕ) : LogicalQueueInfo k :=
  if color = 0 then
    lq.modifyVn v fun sq => { sq with greenCredit := sq.greenCredit + pktSize }
  else lq

def accept (v : Fin k) : LogicalQueueInfo k :=
  let joined := if v ∈ lq.activeSet then lq else
    { lq with activeSet := lq.activeSet ++ [v] }
  { joined.modifyVn v fun sq => { sq with size := sq.size + 1 } with
    size := lq.size + 1 }

def decayedLevel (now : Ticks) : ℚ :=
  lq.X - seconds (now - lq.LCT) * lq.dequeueRateBps

/-- `wake_time` of a blocked queue.  At rate 0 `wait_secs` is infinite. -/
def wakeTime (now : Ticks) : WithTop Ticks :=
  if lq.dequeueRateBps = 0 then ((now + infiniteTicks : Ticks) : WithTop Ticks) else
    ((now + toTicks ((lq.decayedLevel now - lq.tau) / lq.dequeueRateBps) : Ticks) :
      WithTop Ticks)

/-- The compliant branch of the rate check, for a head packet of `pktSize`. -/
def conform (now : Ticks) (pktSize : ℕ) : LogicalQueueInfo k :=
  { lq with
    X := max 0 (lq.decayedLevel now) + pktSize * 8
    LCT := now
    pendingVn := none }

def depart (v : Fin k) (now : Ticks) : LogicalQueueInfo k :=
  { lq.modifyVn v fun sq =>
      if sq.size - 1 = 0 then { sq with size := sq.size - 1, emptySince := now }
      else { sq with size := sq.size - 1 } with
    size := lq.size - 1 }

def setCapacities (c : ℕ) : LogicalQueueInfo k :=
  { lq with vnQueues := fun i => { lq.vnQueues i with capacity := c } }

/-! ## The updates, field by field -/

section Updates

variable (v i : Fin k) (f : VNQueueInfo → VNQueueInfo)

theorem modifyVn_vnQueues :
    (lq.modifyVn v f).vnQueues i =
      if i = v then f (lq.vnQueues i) else lq.vnQueues i := by
  by_cases hi : i = v
  · subst i
    simp [modifyVn]
  · simp [modifyVn, hi]

theorem setVnCapacity_vnQueues (c : ℕ) :
    (lq.modifyVn v fun sq => { sq with capacity := c }).vnQueues i =
      { lq.vnQueues i with capacity := if i = v then c else (lq.vnQueues i).capacity } := by
  rw [modifyVn_vnQueues]
  split <;> rfl

theorem accrue_eq (color pktSize : ℕ) :
    lq.accrue v color pktSize =
      { lq with
        vnQueues := fun i => { lq.vnQueues i with
          greenCredit := (lq.vnQueues i).greenCredit +
            if color = 0 ∧ v = i then (pktSize : ℤ) else 0 } } := by
  unfold accrue
  split
  next hcolor =>
    simp only [modifyVn, mk.injEq, and_true]
    funext i
    by_cases hi : i = v
    · subst i
      simp [hcolor]
    · simp [hi, Ne.symm hi]
  next hcolor => simp [hcolor]

theorem accept_eq :
    lq.accept v =
      { lq with
        vnQueues := fun i => { lq.vnQueues i with
          size := (lq.vnQueues i).size + if v = i then 1 else 0 }
        size := lq.size + 1
        activeSet := if v ∈ lq.activeSet then lq.activeSet else
          lq.activeSet ++ [v] } := by
  have hvn : Function.update lq.vnQueues v
      { lq.vnQueues v with size := (lq.vnQueues v).size + 1 } =
      fun i => { lq.vnQueues i with
        size := (lq.vnQueues i).size + if v = i then 1 else 0 } := by
    funext i
    by_cases hi : i = v
    · subst i
      simp
    · simp [hi, Ne.symm hi]
  unfold accept
  split <;> simp only [modifyVn, hvn]

theorem depart_eq (now : Ticks) :
    lq.depart v now =
      { lq with
        vnQueues := fun i => { lq.vnQueues i with
          size := (lq.vnQueues i).size - if v = i then 1 else 0
          emptySince := if v = i ∧ (lq.vnQueues i).size - 1 = 0 then now
            else (lq.vnQueues i).emptySince }
        size := lq.size - 1 } := by
  simp only [depart, modifyVn, mk.injEq, and_true]
  funext i
  by_cases hi : i = v
  · subst i
    by_cases hzero : (lq.vnQueues v).size - 1 = 0 <;> simp [hzero]
  · simp [hi, Ne.symm hi]

end Updates

end LogicalQueueInfo

structure WorkerInfo (P : Type) (k : ℕ) where
  size : ℕ := 0
  workerRrPtr : ℕ := 0
  logicalQueueIds : List ℕ := []
  physicalQueues : ℕ → Option (Fin k → List (QE P)) := fun _ => none

end Cmcs
