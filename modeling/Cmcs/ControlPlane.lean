import Cmcs.SwitchRun
import Mathlib.Tactic

/-!
# The control plane of the egress buffers

The Thrift calls which set capacities and rates, interleaved with the places in
the switch which index the egress buffers: `enqueue`, which clamps the VN id of
the metadata, and the egress threads.  The arguments of a call go through
`SimpleSwitchHandler` and `SimpleSwitch` to `QueueingLogicVN` with no check on
the way.

`set_egress_priority_queue_rate` is a stub which does nothing.
-/

namespace Cmcs

open TransitionSystem

namespace SimpleSwitch

variable {P : Type} {k : ℕ}

/-! ## The setters of `SimpleSwitch` -/

def setEgressVnQueueDepth (port vnId depthPkts : ℕ) (now : Ticks) : Op P 4 :=
  .setVnCapacity port vnId depthPkts now

def setEgressQueueDepth (port depthPkts : ℕ) (now : Ticks) : Op P 4 :=
  .setQueueCapacity port depthPkts now

def setAllEgressQueueDepths (depthPkts : ℕ) : Op P 4 := .setCapacityForAll depthPkts

def setEgressQueueRate (port ratePps : ℕ) (now : Ticks) : Op P 4 := .setRate port ratePps now

def setAllEgressQueueRates (ratePps : ℕ) : Op P 4 := .setRateForAll ratePps

/-- The calls of `SimpleSwitchHandler`, with their arguments as they arrive. -/
inductive ThriftCall
  | setEgressPriorityQueueDepth (portNum priority depthPkts : BitVec 32)
  | setEgressQueueDepth (portNum depthPkts : BitVec 32)
  | setAllEgressQueueDepths (depthPkts : BitVec 32)
  | setEgressQueueRate (portNum : BitVec 32) (ratePps : BitVec 64)
  | setAllEgressQueueRates (ratePps : BitVec 64)

/-- The conversion of an `int32_t` to `size_t`. -/
def toSizeT (x : BitVec 32) : ℕ := (x.signExtend 64).toNat

/-- The depth goes through `uint32_t`, the rate through `uint64_t`. -/
def ThriftCall.op (now : Ticks) : ThriftCall → Op P 4
  | .setEgressPriorityQueueDepth portNum priority depthPkts =>
      SimpleSwitch.setEgressVnQueueDepth (toSizeT portNum) (toSizeT priority)
        depthPkts.toNat now
  | .setEgressQueueDepth portNum depthPkts =>
      SimpleSwitch.setEgressQueueDepth (toSizeT portNum) depthPkts.toNat now
  | .setAllEgressQueueDepths depthPkts =>
      SimpleSwitch.setAllEgressQueueDepths depthPkts.toNat
  | .setEgressQueueRate portNum ratePps =>
      SimpleSwitch.setEgressQueueRate (toSizeT portNum) ratePps.toNat now
  | .setAllEgressQueueRates ratePps => SimpleSwitch.setAllEgressQueueRates ratePps.toNat

/-- The VN ids which a call names. -/
def ThriftCall.vnId : ThriftCall → Option ℕ
  | .setEgressPriorityQueueDepth _ priority _ => some (toSizeT priority)
  | _ => none

/-! ## The data plane, for any P4 program -/

/-- The two fields of the metadata which `enqueue` reads, where the program
declares them. -/
structure Metadata where
  vnId : Option ℕ := none
  color : Option ℕ := none

/-- The VN id of `enqueue`, clamped to VN 0. -/
def Metadata.clampedVnId (nbVns : ℕ) (metadata : Metadata) : ℕ :=
  if nbVns ≤ metadata.vnId.getD 0 then 0 else metadata.vnId.getD 0

def enqueueOp (nbVns egressPort : ℕ) (metadata : Metadata) (packet : P) (now : Ticks) :
    Op P 4 :=
  .pushFront egressPort (metadata.clampedVnId nbVns) (metadata.color.getD 0) (some packet) now

/-- With the metadata of the repository's program this is the `enqueue` above. -/
theorem enqueue_eq_enqueueOp (nbVns egressPort : ℕ) (packet : Packet) (now : Ticks) :
    enqueue nbVns egressPort packet now =
      enqueueOp nbVns egressPort ⟨some packet.phv.vnId.toNat, some packet.phv.color.toNat⟩
        { packet with egressPort := egressPort } now := rfl

/-- `size(logical_queue_id, vn_queue_id)`; an entry which is not in the map
counts as empty. -/
def vnSize (egressBuffers : QueueingLogicVN P 4 k) (q vn : ℕ) : Option ℕ :=
  match egressBuffers.logicalQueuesInfo q with
  | none => some 0
  | some lq => (vnIndex vn).map fun v => (lq.vnQueues v).size

/-- The egress buffers, and what each egress thread has been given by its last
`pop_back`, if that was a packet. -/
structure EgressSide (P : Type) (k : ℕ) where
  egressBuffers : QueueingLogicVN P 4 k := .initial 64
  popped : Fin 4 → Option (ℕ × ℕ) := fun _ => none

/-- The places which index the egress buffers, each under one lock.  The two
size reads are made when the program has the queueing metadata. -/
inductive Access (P : Type)
  | thrift (call : ThriftCall) (now : Ticks)
  | enqueueSize (egressPort : ℕ) (metadata : Metadata)
  | enqueue (egressPort : ℕ) (metadata : Metadata) (packet : P) (now : Ticks)
  | popBack (w : Fin 4) (now : Ticks)
  | dequeueSize (w : Fin 4)

def poppedAfter : Result P k → Option (ℕ × ℕ)
  | .scanned (.output q v qe) => qe.e.map fun _ => (q, v)
  | _ => none

namespace EgressSide

variable [IngressPacket P] (weights : VnWeights k) (s : EgressSide P k)

/-- A result `none` is an index out of range, as in `QueueingLogicVN.step`. -/
def step : Access P → Option (EgressSide P k × List (Call P 4 k))
  | .thrift call now => do
      let (egressBuffers, calls) ← s.egressBuffers.step weights.config (call.op now)
      some ({ s with egressBuffers := egressBuffers }, calls)
  | .enqueueSize egressPort metadata => do
      let _ ← vnSize s.egressBuffers egressPort (metadata.clampedVnId k)
      some (s, [])
  | .enqueue egressPort metadata packet now => do
      let (egressBuffers, calls) ←
        s.egressBuffers.step weights.config (enqueueOp k egressPort metadata packet now)
      some ({ s with egressBuffers := egressBuffers }, calls)
  | .popBack w now => do
      let (egressBuffers, calls) ← s.egressBuffers.step weights.config (.scan w now)
      some ({ egressBuffers := egressBuffers
              popped := calls.foldl
                (fun popped call => Function.update popped w (poppedAfter call.result))
                s.popped }, calls)
  | .dequeueSize w =>
      match s.popped w with
      | none => some (s, [])
      | some (q, vn) => do
          let _ ← vnSize s.egressBuffers q vn
          some (s, [])

def run (accesses : List (Access P)) : Option (EgressSide P k × List (Call P 4 k)) :=
  exec (fun s access => step weights s access) {} accesses

/-- The capacities of the VNs of logical queue `q`, if it exists. -/
def capacities (q : ℕ) : Option (Fin k → ℕ) :=
  (s.egressBuffers.logicalQueuesInfo q).map fun lq i => (lq.vnQueues i).capacity

end EgressSide

/-- Every VN which the step names exists. -/
def Access.InRange (k : ℕ) : Access P → Prop
  | .thrift call _ => ∀ vn ∈ call.vnId, vn < k
  | _ => True

/-! ## One step -/

theorem vnBelow_op (call : ThriftCall) (now : Ticks) :
    (call.op now : Op P 4).VnBelow k ↔ ∀ vn ∈ call.vnId, vn < k := by
  cases call <;>
    simp [ThriftCall.op, ThriftCall.vnId, Op.VnBelow, SimpleSwitch.setEgressVnQueueDepth,
      SimpleSwitch.setEgressQueueDepth, SimpleSwitch.setAllEgressQueueDepths,
      SimpleSwitch.setEgressQueueRate, SimpleSwitch.setAllEgressQueueRates]

theorem clampedVnId_lt (hk : 0 < k) (metadata : Metadata) : metadata.clampedVnId k < k := by
  unfold Metadata.clampedVnId
  split
  · exact hk
  · omega

theorem vnSize_isSome (egressBuffers : QueueingLogicVN P 4 k) (q : ℕ) {vn : ℕ} (hvn : vn < k) :
    ∃ size, vnSize egressBuffers q vn = some size := by
  unfold vnSize
  split
  · exact ⟨0, rfl⟩
  · simp [vnIndex, hvn]

theorem poppedAfter_lt {result : Result P k} {q vn : ℕ}
    (hpopped : poppedAfter result = some (q, vn)) : vn < k := by
  unfold poppedAfter at hpopped
  split at hpopped
  next v _ =>
    obtain ⟨_, -, heq⟩ := Option.map_eq_some_iff.mp hpopped
    simp only [Prod.mk.injEq] at heq
    exact heq.2 ▸ v.isLt
  next => simp at hpopped

namespace EgressSide

variable [IngressPacket P] {weights : VnWeights k} {s s' : EgressSide P k}
variable {access : Access P} {calls : List (Call P 4 k)}

structure Inv (weights : VnWeights k) (s : EgressSide P k) : Prop where
  coherent : s.egressBuffers.Coherent weights.config
  wellFormed : ∀ q p, s.egressBuffers.port weights.config q = some p → p.WellFormed
  popped : ∀ w q vn, s.popped w = some (q, vn) → vn < k

omit [IngressPacket P] in
theorem inv_initial : Inv weights ({} : EgressSide P k) where
  coherent := QueueingLogicVN.coherent_initial 64
  wellFormed := by simp
  popped := by simp

theorem inRange_of_step (hstep : step weights s access = some (s', calls)) :
    access.InRange k := by
  cases access with
  | thrift call now =>
      obtain ⟨⟨egressBuffers, calls'⟩, hcall, -⟩ := Option.bind_eq_some_iff.mp hstep
      exact (vnBelow_op call now).mp (QueueingLogicVN.vnBelow_of_step hcall)
  | _ => trivial

namespace Inv

theorem step_isSome (hinv : Inv weights s) (hk : 0 < k) (hrange : access.InRange k) :
    ∃ s' calls, step weights s access = some (s', calls) := by
  have hop : ∀ op : Op P 4, op.VnBelow k →
      ∃ r, s.egressBuffers.step weights.config op = some r := by
    intro op hvn
    obtain ⟨egressBuffers, calls, hstep⟩ :=
      QueueingLogicVN.step_isSome hinv.coherent hinv.wellFormed hvn
    exact ⟨_, hstep⟩
  cases access with
  | thrift call now =>
      obtain ⟨r, hr⟩ := hop _ ((vnBelow_op call now).mpr hrange)
      exact ⟨_, _, Option.bind_eq_some_iff.mpr ⟨r, hr, rfl⟩⟩
  | enqueueSize egressPort metadata =>
      obtain ⟨size, hsize⟩ :=
        vnSize_isSome s.egressBuffers egressPort (clampedVnId_lt hk metadata)
      exact ⟨_, _, Option.bind_eq_some_iff.mpr ⟨size, hsize, rfl⟩⟩
  | enqueue egressPort metadata packet now =>
      obtain ⟨r, hr⟩ := hop (enqueueOp k egressPort metadata packet now)
        (clampedVnId_lt hk metadata)
      exact ⟨_, _, Option.bind_eq_some_iff.mpr ⟨r, hr, rfl⟩⟩
  | popBack w now =>
      obtain ⟨r, hr⟩ := hop (.scan w now) trivial
      exact ⟨_, _, Option.bind_eq_some_iff.mpr ⟨r, hr, rfl⟩⟩
  | dequeueSize w =>
      cases hpopped : s.popped w with
      | none => exact ⟨s, [], by simp only [EgressSide.step, hpopped]⟩
      | some found =>
          obtain ⟨q, vn⟩ := found
          obtain ⟨size, hsize⟩ := vnSize_isSome s.egressBuffers q (hinv.popped w q vn hpopped)
          refine ⟨s, [], ?_⟩
          simp only [EgressSide.step, hpopped, hsize, Option.bind_eq_bind, Option.bind_some]

/-- A call of the egress buffers which leaves the threads alone. -/
theorem withBuffers (hinv : Inv weights s) {op : Op P 4}
    {egressBuffers : QueueingLogicVN P 4 k}
    (hstep : s.egressBuffers.step weights.config op = some (egressBuffers, calls)) :
    Inv weights { s with egressBuffers := egressBuffers } := by
  obtain ⟨call, -, -, hadvances, -⟩ :=
    QueueingLogicVN.step_spec hinv.coherent hinv.wellFormed hstep
  exact ⟨hadvances.coherent, hadvances.wellFormed hinv.wellFormed, hinv.popped⟩

theorem step (hinv : Inv weights s) (hstep : step weights s access = some (s', calls)) :
    Inv weights s' := by
  cases access with
  | thrift call now =>
      obtain ⟨⟨egressBuffers, calls'⟩, hcall, heq⟩ := Option.bind_eq_some_iff.mp hstep
      simp only [Option.some.injEq, Prod.mk.injEq] at heq
      rw [← heq.1]
      exact hinv.withBuffers hcall
  | enqueue egressPort metadata packet now =>
      obtain ⟨⟨egressBuffers, calls'⟩, hcall, heq⟩ := Option.bind_eq_some_iff.mp hstep
      simp only [Option.some.injEq, Prod.mk.injEq] at heq
      rw [← heq.1]
      exact hinv.withBuffers hcall
  | enqueueSize egressPort metadata =>
      obtain ⟨size, -, heq⟩ := Option.bind_eq_some_iff.mp hstep
      simp only [Option.some.injEq, Prod.mk.injEq] at heq
      rwa [← heq.1]
  | popBack w now =>
      obtain ⟨⟨egressBuffers, calls'⟩, hcall, heq⟩ := Option.bind_eq_some_iff.mp hstep
      obtain ⟨call, rfl, -⟩ :=
        QueueingLogicVN.step_spec hinv.coherent hinv.wellFormed hcall
      simp only [Option.some.injEq, Prod.mk.injEq, List.foldl_cons, List.foldl_nil] at heq
      rw [← heq.1]
      refine ⟨(hinv.withBuffers hcall).coherent, (hinv.withBuffers hcall).wellFormed, ?_⟩
      intro w' q vn hpopped
      simp only [Function.update_apply] at hpopped
      split at hpopped
      next => exact poppedAfter_lt hpopped
      next => exact hinv.popped w' q vn hpopped
  | dequeueSize w =>
      simp only [EgressSide.step] at hstep
      split at hstep
      next =>
        simp only [Option.some.injEq, Prod.mk.injEq] at hstep
        rwa [← hstep.1]
      next =>
        obtain ⟨size, -, heq⟩ := Option.bind_eq_some_iff.mp hstep
        simp only [Option.some.injEq, Prod.mk.injEq] at heq
        rwa [← heq.1]

end Inv

/-! ## Runs -/

section Runs

variable {accesses : List (Access P)}

theorem inv_run (hrun : run weights accesses = some (s, calls)) : Inv weights s := by
  refine exec_invariant (I := fun _ s _ => Inv weights s) inv_initial ?_ hrun
  intro _ _ _ _ _ _ _ hinv hstep
  exact hinv.step hstep

theorem run_isSome (hk : 0 < k) (hrange : ∀ access ∈ accesses, access.InRange k) :
    ∃ s calls, run weights accesses = some (s, calls) := by
  refine exec_total (I := fun accesses => ∀ access ∈ accesses, access.InRange k) ?_ ?_
    accesses hrange
  · intro accesses access hall access' haccess'
    exact hall access' (List.mem_append_left _ haccess')
  · intro accesses s calls access hrun hall
    exact (inv_run hrun).step_isSome hk (hall access (by simp))

theorem inRange_of_run (hrun : run weights accesses = some (s, calls)) :
    ∀ access ∈ accesses, access.InRange k := by
  refine exec_invariant (I := fun accesses _ _ => ∀ access ∈ accesses, access.InRange k)
    (by simp) ?_ hrun
  intro accesses s calls access s' calls' _ hall hstep access' haccess'
  cases List.mem_append.mp haccess' with
  | inl hbefore => exact hall access' hbefore
  | inr hlast =>
      rw [List.mem_singleton.mp hlast]
      exact inRange_of_step hstep

/-- Every call of the run which names a VN that does not exist is carried out
and changes the capacity of no VN. -/
def MissingVnsIgnored (weights : VnWeights k) (accesses : List (Access P)) : Prop :=
  ∀ before call now after vn, accesses = before ++ .thrift call now :: after →
    call.vnId = some vn → k ≤ vn →
      ∃ s calls s' calls', run weights before = some (s, calls) ∧
        step weights s (.thrift call now) = some (s', calls') ∧
          ∀ q c, s.capacities q = some c → s'.capacities q = some c

/-- No index is out of range, and calls which name a missing VN change nothing,
exactly in the runs in which no call names a missing VN. -/
theorem control_plane_in_range (hk : 0 < k) (weights : VnWeights k)
    (accesses : List (Access P)) :
    ((∃ s calls, run weights accesses = some (s, calls)) ∧
        MissingVnsIgnored weights accesses) ↔
      ∀ access ∈ accesses, access.InRange k := by
  constructor
  · intro hsafe
    obtain ⟨⟨s, calls, hrun⟩, -⟩ := hsafe
    exact inRange_of_run hrun
  · intro hrange
    refine ⟨run_isSome hk hrange, ?_⟩
    intro before call now after vn hsplit hvn hle
    have hlt := hrange (.thrift call now) (by simp [hsplit]) vn hvn
    exact absurd hlt (Nat.not_lt.mpr hle)

end Runs

/-- The control plane resizes VN 1 of port 1, the program marks a packet for
port 1 with VN id 7. -/
def resizeAccesses : List (Access ℕ) :=
  [.thrift (.setEgressPriorityQueueDepth 1 1 32) 0, .enqueueSize 1 ⟨some 7, none⟩,
    .enqueue 1 ⟨some 7, none⟩ 1514 1, .thrift (.setEgressQueueRate 1 5000000) 2,
    .popBack 1 3, .dequeueSize 1, .thrift (.setAllEgressQueueDepths 16) 4]

theorem control_plane_in_range_two :
    (∃ s calls, run (equalWeights 2) resizeAccesses = some (s, calls)) ∧
      MissingVnsIgnored (equalWeights 2) resizeAccesses := by
  refine (control_plane_in_range (by decide) (equalWeights 2) resizeAccesses).mpr ?_
  intro access haccess
  simp only [resizeAccesses, List.mem_cons, List.not_mem_nil, or_false] at haccess
  rcases haccess with rfl | rfl | rfl | rfl | rfl | rfl | rfl <;>
    simp [Access.InRange, ThriftCall.vnId, toSizeT]

/-- With one VN, a call for priority 1 indexes `vn_queues` behind its end. -/
theorem not_control_plane_in_range :
    ¬ ∀ (k : ℕ) (weights : VnWeights k) (accesses : List (Access ℕ)), 0 < k →
      (∃ s calls, run weights accesses = some (s, calls)) ∧
        MissingVnsIgnored weights accesses := by
  intro hall
  obtain ⟨⟨s, calls, hrun⟩, -⟩ :=
    hall 1 (equalWeights 1) [.thrift (.setEgressPriorityQueueDepth 0 1 64) 0] Nat.one_pos
  have hnone : run (equalWeights 1) ([.thrift (.setEgressPriorityQueueDepth 0 1 64) 0] :
      List (Access ℕ)) = none := rfl
  rw [hnone] at hrun
  simp at hrun

/-! ## The priority argument -/

/-- As long as the VNs fit into half of `size_t`, a priority is in range where
its signed value is. -/
theorem toSizeT_lt_iff (hk : k ≤ 2 ^ 63) (x : BitVec 32) :
    toSizeT x < k ↔ 0 ≤ x.toInt ∧ x.toInt < k := by
  have hsign : (x.signExtend 64).toInt = x.toInt :=
    BitVec.toInt_signExtend_of_le (by decide)
  have htoInt := BitVec.toInt_eq_toNat_cond (x.signExtend 64)
  have hlt := (x.signExtend 64).isLt
  unfold toSizeT
  rw [hsign] at htoInt
  split at htoInt <;> omega

end EgressSide

end SimpleSwitch

end Cmcs
