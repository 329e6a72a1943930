import Cmcs.SelectVn
import Cmcs.TransitionRun
import Mathlib.Tactic

/-!
# One logical queue as a transition system

A logical queue together with its physical deques changes in a small number of
ways: a packet is offered, the idle sweep runs, `select_vn` decides, the rate
check defers the decision, the decided packet leaves, or the control plane
writes a capacity or the rate.  The labels carry what happened, so that a
statement about a run can count the bytes which its labels show.

Every step uses the functions of the scheduler itself.  The order of the steps
is free here, within their guards; that `pop_back` produces such runs is a
theorem about the whole scheduler.
-/

namespace Cmcs

/-- What can happen to one logical queue.  The creation by `get_logical_queue`
comes first and is no step of an existing queue. -/
inductive Event (P : Type) (k : ℕ)
  | create (now : Ticks)
  | push (v : Fin k) (color : ℕ) (item : Option P) (accepted : Bool)
  | sweep (now : Ticks) (evicted : List (Fin k))
  | select (sel : Selection P k)
  | defer (now : Ticks)
  | release (now : Ticks) (v : Fin k) (qe : QE P)
  | setVnCapacity (v : Fin k) (c : ℕ)
  | setQueueCapacity (c : ℕ)
  | setRate (bps : ℕ)

structure Port (P : Type) (k : ℕ) where
  info : LogicalQueueInfo k
  phys : Fin k → List (QE P)

variable {P : Type} {k : ℕ}

namespace Port

variable (p : Port P k)

def initial (capacity : ℕ) (weights : Fin k → ℤ) (now : Ticks) : Port P k where
  info := LogicalQueueInfo.new capacity weights now
  phys _ := []

section Push

variable [IngressPacket P] (v : Fin k) (color : ℕ) (item : Option P)

def element (color : ℕ) (item : Option P) : QE P := ⟨item, color, ingressSize item⟩

def full (v : Fin k) : Bool := (p.info.vnQueues v).capacity ≤ (p.info.vnQueues v).size

def push : Port P k :=
  let credited := p.info.accrue v color (ingressSize item)
  if p.full v then { p with info := credited }
  else
    { info := credited.accept v
      phys := Function.update p.phys v (p.phys v ++ [element color item]) }

end Push

def sweep (now : Ticks) : Port P k := { p with info := p.info.sweep now }

/-- The bucket update and the dequeue of the head packet of VN `v`. -/
def release (now : Ticks) (v : Fin k) (qe : QE P) : Port P k where
  info := (p.info.conform now qe.pktSize).depart v now
  phys := Function.update p.phys v (p.phys v).tail

inductive Step [IngressPacket P] : Port P k → Event P k → Port P k → Prop
  | push (p : Port P k) (v : Fin k) (color : ℕ) (item : Option P) :
      Step p (.push v color item (!p.full v)) (p.push v color item)
  | sweep (p : Port P k) (now : Ticks) :
      Step p (.sweep now (p.info.evicted now)) (p.sweep now)
  | select {p : Port P k} {sel : Selection P k} {lq' : LogicalQueueInfo k}
      (hfree : p.info.pendingVn = none) (hsize : p.info.size ≠ 0)
      (hselect : p.info.selectVn p.phys = some (sel, lq')) :
      Step p (.select sel) { p with info := { lq' with pendingVn := some sel.vn } }
  | defer {p : Port P k} {now : Ticks} {v : Fin k}
      (hpending : p.info.pendingVn = some v)
      (hlevel : p.info.tau < p.info.decayedLevel now) :
      Step p (.defer now) p
  | release {p : Port P k} {now : Ticks} {v : Fin k} {qe : QE P}
      (hpending : p.info.pendingVn = some v)
      (hhead : (p.phys v).head? = some qe)
      (hlevel : p.info.decayedLevel now ≤ p.info.tau) :
      Step p (.release now v qe) (p.release now v qe)
  | setVnCapacity (p : Port P k) (v : Fin k) (c : ℕ) :
      Step p (.setVnCapacity v c)
        { p with info := p.info.modifyVn v fun sq => { sq with capacity := c } }
  | setQueueCapacity (p : Port P k) (c : ℕ) :
      Step p (.setQueueCapacity c) { p with info := p.info.setCapacities c }
  | setRate (p : Port P k) (bps : ℕ) :
      Step p (.setRate bps) { p with info := { p.info with dequeueRateBps := bps } }

end Port

end Cmcs
