import Cmcs.ColorMarker
import Cmcs.QueueingRun
import Mathlib.Tactic

/-!
# The threads of `SimpleSwitch`

The receiver, the ingress thread, the four egress threads and the transmit
thread, with the three buffers between them.  A step is what one thread does
under one lock, so a thread which has taken a packet out of a buffer holds it
until a later step of its own.  The control plane sets capacities and rates at
any time, and the destructor pushes its null items at any time.

Packets are neither cloned nor resubmitted nor recirculated nor multicast.
-/

namespace Cmcs

open TransitionSystem

namespace SimpleSwitch

/-- A packet with the fields of its PHV which the switch itself reads. -/
structure Packet where
  packetId : ℕ
  headers : MyIngress.Packet
  phv : MyIngress.Marked := ⟨0, 0, 0⟩
  egressPort : ℕ := 0
  deriving DecidableEq

instance : IngressPacket Packet where
  getIngressLength packet := packet.headers.packetLength.toNat

inductive PacketType
  | normal
  | resubmit
  | recirculate
  | sentinel

/-- The two deques, the oldest item first.  A null item is a sentinel. -/
structure InputBuffer where
  capacityHi : ℕ := 1024
  capacityLo : ℕ := 1024
  queueHi : List (Option Packet) := []
  queueLo : List (Option Packet) := []

/-- `push_front`; the flag is the returned 1 or 0, and `none` means that the
caller waits. -/
def InputBuffer.pushFront (b : InputBuffer) (packetType : PacketType)
    (item : Option Packet) : Option (InputBuffer × Bool) :=
  match packetType with
  | .normal =>
      if b.queueLo.length = b.capacityLo then none
      else some ({ b with queueLo := b.queueLo ++ [item] }, true)
  | .sentinel =>
      if b.queueHi.length = b.capacityHi then none
      else some ({ b with queueHi := b.queueHi ++ [item] }, true)
  | .resubmit | .recirculate =>
      if b.queueHi.length = b.capacityHi then some (b, false)
      else some ({ b with queueHi := b.queueHi ++ [item] }, true)

/-- `pop_back`; the caller waits while both deques are empty. -/
def InputBuffer.popBack (b : InputBuffer) : Option (Option Packet × InputBuffer) :=
  match b.queueHi, b.queueLo with
  | item :: queueHi, _ => some (item, { b with queueHi := queueHi })
  | [], item :: queueLo => some (item, { b with queueLo := queueLo })
  | [], [] => none

/-- A thread waits for a packet, holds one, or has left its loop. -/
inductive Thread
  | ready
  | busy (packet : Packet)
  | done
  deriving DecidableEq

def Thread.after : Option Packet → Thread
  | some packet => .busy packet
  | none => .done

def Thread.afterScan {k : ℕ} : Result Packet k → Thread
  | .scanned (.output _ _ qe) => .after qe.e
  | _ => .ready

def egressThreadMapper (egressPort : ℕ) : Fin 4 := ⟨egressPort % 4, Nat.mod_lt _ (by decide)⟩

structure VnWeights (k : ℕ) where
  weight : Fin k → ℤ
  weight_pos : ∀ i, 0 < weight i

def equalWeights (k : ℕ) : VnWeights k where
  weight _ := 1
  weight_pos _ := Int.one_pos

def VnWeights.config {k : ℕ} (weights : VnWeights k) : Config 4 k where
  mapToWorker := egressThreadMapper
  vnWeights := weights.weight
  vnWeights_pos := weights.weight_pos

/-- The VN id of `enqueue`, clamped to VN 0. -/
def vnIdOf (nbVns : ℕ) (phv : MyIngress.Marked) : ℕ :=
  if nbVns ≤ phv.vnId.toNat then 0 else phv.vnId.toNat

def Packet.queuedAt {k : ℕ} (q : ℕ) (v : Fin k) (packet : Packet) : Bool :=
  packet.egressPort = q ∧ vnIdOf k packet.phv = v

/-- `enqueue`, up to its call of `push_front`. -/
def enqueue (nbVns egressPort : ℕ) (packet : Packet) (now : Ticks) : Op Packet 4 :=
  let packet := { packet with egressPort := egressPort }
  .pushFront egressPort (vnIdOf nbVns packet.phv) packet.phv.color.toNat (some packet) now

/-- The egress pipeline: `egress_spec` starts out different from the drop port
and the program leaves it alone. -/
def egress (packet : Packet) : Option Packet :=
  let packet :=
    { packet with phv := { packet.phv with egressSpec := MyIngress.dropPort + 1 } }
  if packet.phv.egressSpec = MyIngress.dropPort then none else some packet

end SimpleSwitch

open SimpleSwitch in
structure SimpleSwitch (k : ℕ) where
  packetId : ℕ := 0
  inputBuffer : InputBuffer := {}
  ingressThread : Thread := .ready
  registers : MyIngress.Registers := .zero
  egressBuffers : QueueingLogicVN Packet 4 k := .initial 64
  egressThread : Fin 4 → Thread := fun _ => .ready
  outputBuffer : List (Option Packet) := []
  transmitThread : Thread := .ready

namespace SimpleSwitch

variable {k : ℕ}

def outputCapacity : ℕ := 128

/-- What a step did, with the entry which it adds to the history of the egress
buffers. -/
inductive Action (k : ℕ)
  | receive (packet : Packet)
  | ingressPop (item : Option Packet)
  | drop (packet : Packet)
  | enqueue (packet : Packet) (call : Call Packet 4 k)
  | egressPop (w : Fin 4) (call : Call Packet 4 k)
  | egressPush (w : Fin 4) (packet : Packet)
  | transmitPop (item : Option Packet)
  | transmit (packet : Packet)
  | control (call : Call Packet 4 k)
  | stopIngress
  | stopEgress (call : Call Packet 4 k)
  | stopTransmit

/-- The steps of the threads, of the control plane and of the destructor. -/
inductive Step (weights : VnWeights k) : SimpleSwitch k → Action k → SimpleSwitch k → Prop
  | receive {s : SimpleSwitch k} {b : InputBuffer} (headers : MyIngress.Packet)
      (hpush : s.inputBuffer.pushFront .normal (some { packetId := s.packetId, headers }) =
        some (b, true)) :
      Step weights s (.receive { packetId := s.packetId, headers })
        { s with packetId := s.packetId + 1, inputBuffer := b }
  | ingressPop {s : SimpleSwitch k} {item : Option Packet} {b : InputBuffer}
      (hready : s.ingressThread = .ready)
      (hpop : s.inputBuffer.popBack = some (item, b)) :
      Step weights s (.ingressPop item)
        { s with inputBuffer := b, ingressThread := .after item }
  | drop {s : SimpleSwitch k} {packet : Packet} {regs : MyIngress.Registers}
      {phv : MyIngress.Marked}
      (hbusy : s.ingressThread = .busy packet)
      (happly : MyIngress.apply s.registers packet.headers = (regs, phv))
      (hdrop : phv.egressSpec = MyIngress.dropPort) :
      Step weights s (.drop { packet with phv := phv })
        { s with registers := regs, ingressThread := .ready }
  | enqueue {s : SimpleSwitch k} {packet : Packet} {regs : MyIngress.Registers}
      {phv : MyIngress.Marked} {egressBuffers : QueueingLogicVN Packet 4 k}
      {call : Call Packet 4 k} (now : Ticks)
      (hbusy : s.ingressThread = .busy packet)
      (happly : MyIngress.apply s.registers packet.headers = (regs, phv))
      (hforward : phv.egressSpec ≠ MyIngress.dropPort)
      (hpush : s.egressBuffers.step weights.config
        (enqueue k phv.egressSpec.toNat { packet with phv := phv } now) =
          some (egressBuffers, [call])) :
      Step weights s
        (.enqueue { packet with phv := phv, egressPort := phv.egressSpec.toNat } call)
        { s with
          registers := regs
          ingressThread := .ready
          egressBuffers := egressBuffers }
  | egressPop {s : SimpleSwitch k} {egressBuffers : QueueingLogicVN Packet 4 k}
      {call : Call Packet 4 k} (w : Fin 4) (now : Ticks)
      (hready : s.egressThread w = .ready)
      (hscan : s.egressBuffers.step weights.config (.scan w now) =
        some (egressBuffers, [call])) :
      Step weights s (.egressPop w call)
        { s with
          egressBuffers := egressBuffers
          egressThread := Function.update s.egressThread w (.afterScan call.result) }
  | egressPush {s : SimpleSwitch k} {packet' : Packet} (w : Fin 4) (packet : Packet)
      (hbusy : s.egressThread w = .busy packet)
      (hegress : egress packet = some packet')
      (hroom : s.outputBuffer.length < outputCapacity) :
      Step weights s (.egressPush w packet')
        { s with
          outputBuffer := s.outputBuffer ++ [some packet']
          egressThread := Function.update s.egressThread w .ready }
  | transmitPop {s : SimpleSwitch k} {item : Option Packet} {rest : List (Option Packet)}
      (hready : s.transmitThread = .ready)
      (hpop : s.outputBuffer = item :: rest) :
      Step weights s (.transmitPop item)
        { s with outputBuffer := rest, transmitThread := .after item }
  | transmit {s : SimpleSwitch k} {packet : Packet}
      (hbusy : s.transmitThread = .busy packet) :
      Step weights s (.transmit packet) { s with transmitThread := .ready }
  | control {s : SimpleSwitch k} {op : Op Packet 4}
      {egressBuffers : QueueingLogicVN Packet 4 k} {call : Call Packet 4 k}
      (hsetter : op.IsSetter)
      (hset : s.egressBuffers.step weights.config op = some (egressBuffers, [call])) :
      Step weights s (.control call) { s with egressBuffers := egressBuffers }
  | stopIngress {s : SimpleSwitch k} {b : InputBuffer}
      (hpush : s.inputBuffer.pushFront .sentinel none = some (b, true)) :
      Step weights s .stopIngress { s with inputBuffer := b }
  | stopEgress {s : SimpleSwitch k} {egressBuffers : QueueingLogicVN Packet 4 k}
      {call : Call Packet 4 k} (w : Fin 4) (now : Ticks)
      (hpush : s.egressBuffers.step weights.config (.pushFront w 0 0 none now) =
        some (egressBuffers, [call])) :
      Step weights s (.stopEgress call) { s with egressBuffers := egressBuffers }
  | stopTransmit {s : SimpleSwitch k} (hroom : s.outputBuffer.length < outputCapacity) :
      Step weights s .stopTransmit { s with outputBuffer := s.outputBuffer ++ [none] }

/-! ## What the labels of a run show -/

namespace Action

def call : Action k → Option (Call Packet 4 k)
  | .enqueue _ call => some call
  | .egressPop _ call => some call
  | .control call => some call
  | .stopEgress call => some call
  | _ => none

def received : Action k → Option Packet
  | .receive packet => some packet
  | _ => none

def ingressed : Action k → Option Packet
  | .drop packet => some packet
  | .enqueue packet _ => some packet
  | _ => none

/-- The packet which `enqueue` has placed on port `q` with VN id `v`, and whether
`push_front` has accepted it. -/
def placed (q : ℕ) (v : Fin k) : Action k → Option (Packet × Bool)
  | .enqueue packet call =>
      match call.result with
      | .pushed accepted => if packet.queuedAt q v then some (packet, accepted) else none
      | _ => none
  | _ => none

def transmitted : Action k → Option Packet
  | .transmit packet => some packet
  | _ => none

end Action

def Reaches (weights : VnWeights k) (actions : List (Action k)) (s : SimpleSwitch k) : Prop :=
  Run (Step weights) {} actions s

end SimpleSwitch

end Cmcs
