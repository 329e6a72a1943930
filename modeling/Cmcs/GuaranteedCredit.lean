import Cmcs.BucketIsolation
import Cmcs.ChargeLedger
import Cmcs.MarkerBucket
import Cmcs.SwitchRun
import Mathlib.Tactic

/-!
# Which packets earn guaranteed credit

A packet earns credit for a VN and a port when `push_front` is called for them
with color 0, accepted or not.  The packets which the classifier assigns to the VN
earn no more than its contract allows.  Three other kinds of packets earn credit
without a contract: packets which miss the classifier, for VN 3, packets which are
not IPv4, for VN 0, and packets of VNs which the switch does not have, for VN 0.
-/

namespace Cmcs

open TransitionSystem LeakyBucket

namespace MyIngress

def Packet.time (x : Packet) : ℤ := x.ingressGlobalTimestamp.toInt

def Packet.lengthBits (x : Packet) : ℤ := 8 * x.packetLength.toNat

def Packet.classified (i : ℕ) (x : Packet) : Bool :=
  x.metered.any fun (vnId, _, _) => vnId.toNat = i

/-- With these marks a packet earns credit for VN `i` on port `p`. -/
def Marked.earns (nbVns p i : ℕ) (phv : Marked) : Bool :=
  phv.egressSpec ≠ dropPort ∧ phv.egressSpec.toNat = p ∧
    SimpleSwitch.vnIdOf nbVns phv = i ∧ phv.color = 0

/-- The packets of a trace which earn credit for VN `i` on port `p`. -/
def credited (nbVns p i : ℕ) (trace : List Packet) : List Packet :=
  ((markAll .zero trace).filter fun (_, phv) => phv.earns nbVns p i).map Prod.fst

def bitsWithin (s t : ℤ) (earned : List Packet) : ℤ :=
  ((earned.filter fun x => s ≤ x.time ∧ x.time ≤ t).map Packet.lengthBits).sum

/-- What the tables and the clock are assumed to do, for VN `i` with rate `g` on
port `p`: VN ids and ports fit the registers, nothing overflows, and no dropped
packet shares the bucket of the pair. -/
structure Contract (i p : Fin 8) (g : BitVec 48) (trace : List Packet) : Prop where
  vn_below : ∀ x ∈ trace, ∀ vnId leakRate egressSpec,
    x.metered = some (vnId, leakRate, egressSpec) → vnId.toNat < 8
  rate : ∀ x ∈ trace, ∀ vnId leakRate egressSpec,
    x.metered = some (vnId, leakRate, egressSpec) → vnId.toNat = i → leakRate = g
  rate_nonneg : 0 ≤ g.toInt
  port : ∀ x ∈ trace, x.ipv4Lpm.egressSpec.toNat < 8 ∨ x.ipv4Lpm.egressSpec = dropPort
  time_nonneg : ∀ x ∈ trace, 0 ≤ x.time
  sorted : trace.Pairwise fun x y => x.time ≤ y.time
  length : ∀ x ∈ trace, x.lengthBits < 2 ^ 32
  fits : overflows (bucketOf i p) .zero trace = false
  dropped : p = 7 → ∀ x ∈ trace, x.ipv4Lpm.egressSpec = dropPort → x.classified (i + 1) = false

/-! ## The marks of a packet -/

theorem mem_markAll {regs : Registers} {trace : List Packet} {x : Packet} {phv : Marked}
    (hmem : (x, phv) ∈ markAll regs trace) :
    x ∈ trace ∧ ∃ regs', phv = (apply regs' x).2 := by
  induction trace generalizing regs with
  | nil => simp [markAll] at hmem
  | cons y trace ih =>
      cases List.mem_cons.mp hmem with
      | inl hfirst =>
          obtain ⟨rfl, rfl⟩ := Prod.mk.inj hfirst
          exact ⟨List.mem_cons_self, regs, rfl⟩
      | inr hrest =>
          obtain ⟨hx, hmarks⟩ := ih hrest
          exact ⟨List.mem_cons_of_mem y hx, hmarks⟩

theorem map_fst_markAll (regs : Registers) (trace : List Packet) :
    (markAll regs trace).map Prod.fst = trace := by
  induction trace generalizing regs with
  | nil => rfl
  | cons x trace ih => simp [markAll, ih]

/-- The marks by kind of packet, without the color of a metered one. -/
theorem marks_cases (regs : Registers) (x : Packet) :
    (x.ipv4Valid = false ∧ (apply regs x).2 = ⟨0, 0, 0⟩) ∨
      (x.ipv4Valid = true ∧ x.vnClassifier = none ∧
        (apply regs x).2 = ⟨x.ipv4Lpm.egressSpec, 3, 0⟩) ∨
      ∃ vnId leakRate, x.metered = some (vnId, leakRate, x.ipv4Lpm.egressSpec) ∧
        (apply regs x).2.egressSpec = x.ipv4Lpm.egressSpec ∧ (apply regs x).2.vnId = vnId := by
  unfold apply Packet.metered
  cases hvalid : x.ipv4Valid with
  | false => exact Or.inl ⟨rfl, rfl⟩
  | true =>
      cases hvn : x.vnClassifier with
      | none => exact Or.inr (Or.inl ⟨rfl, rfl, rfl⟩)
      | some action =>
          apply Or.inr ∘ Or.inr
          refine ⟨action.params.1, action.params.2, rfl, ?_⟩
          simp only [if_true]
          split <;> exact ⟨rfl, rfl⟩

theorem classified_iff {x : Packet} {i : ℕ} :
    x.classified i = true ↔
      ∃ vnId leakRate, x.metered = some (vnId, leakRate, x.ipv4Lpm.egressSpec) ∧
        vnId.toNat = i := by
  unfold Packet.classified
  cases hmetered : x.metered with
  | none => simp
  | some params =>
      obtain ⟨vnId, leakRate, egressSpec⟩ := params
      have hegress := (metered_eq_some.mp hmetered).2.1
      simp [hegress]

/-! ## Packets with a contract -/

variable {nbVns : ℕ} {i p : Fin 8} {g : BitVec 48} {trace : List Packet}

def meteringOf (g : BitVec 48) (x : Packet) : Metering :=
  ⟨x.ingressGlobalTimestamp, g, x.bits⟩

theorem meteredIn_of_contract (hcontract : Contract i p g trace) {x : Packet}
    (hx : x ∈ trace) :
    x.meteredIn (bucketOf i p) =
      if x.classified i = true ∧ x.ipv4Lpm.egressSpec.toNat = p then some (meteringOf g x)
      else none := by
  unfold Packet.meteredIn
  cases hmetered : x.metered with
  | none => simp [Packet.classified, hmetered]
  | some params =>
      obtain ⟨vnId, leakRate, egressSpec⟩ := params
      have hegress := (metered_eq_some.mp hmetered).2.1
      have hclassified : ∀ j, x.classified j = true ↔ vnId.toNat = j := by
        intro j
        simp [Packet.classified, hmetered]
      have hport := hcontract.port x hx
      rw [hegress] at hport ⊢
      simp only [Option.bind_some, hclassified,
        bucketIndex_eq_bucketOf (hcontract.vn_below x hx _ _ _ hmetered) hport]
      -- no dropped packet of the following VN is in the trace
      have hnext : ¬(egressSpec = dropPort ∧ p = 7 ∧ vnId.toNat = i + 1) := by
        rintro ⟨hdrop, hp, hvn⟩
        have hnot := hcontract.dropped hp x hx (hegress.trans hdrop)
        rw [← Bool.not_eq_true, hclassified] at hnot
        exact hnot hvn
      simp only [or_iff_left hnext]
      split
      next hflow =>
        rw [hcontract.rate x hx _ _ _ hmetered hflow.1]
        rfl
      next => rfl

/-- The marks say of a classified packet that it earns credit exactly when they
say green. -/
theorem earns_of_classified (hi : (i : ℕ) < nbVns) {x : Packet}
    (hclassified : x.classified i = true) (regs : Registers) :
    (apply regs x).2.earns nbVns p i = true ↔
      x.ipv4Lpm.egressSpec.toNat = p ∧ (apply regs x).2.color = 0 := by
  obtain ⟨vnId, leakRate, hmetered, hvn⟩ := classified_iff.mp hclassified
  have hdrop : x.ipv4Lpm.egressSpec.toNat = p → x.ipv4Lpm.egressSpec ≠ dropPort := by
    intro hport heq
    rw [heq] at hport
    have h511 : dropPort.toNat = 511 := rfl
    omega
  obtain ⟨hvalid, -, action, hvn', hparams⟩ := metered_eq_some.mp hmetered
  rcases marks_cases regs x with ⟨hinvalid, -⟩ | ⟨-, hmiss, -⟩ | ⟨vnId', _, hmetered', hegress, hmark⟩
  · simp [hvalid] at hinvalid
  · simp [hmiss] at hvn'
  · rw [hmetered, Option.some.injEq, Prod.mk.injEq] at hmetered'
    have hclamp : SimpleSwitch.vnIdOf nbVns (apply regs x).2 = i := by
      rw [SimpleSwitch.vnIdOf, hmark, ← hmetered'.1, hvn, if_neg (not_le.mpr hi)]
    simp only [Marked.earns, hegress, hclamp, decide_eq_true_eq]
    tauto

theorem filterMap_eq_map_filter {α β γ : Type} {f : α × β → Option γ} {P : α × β → Bool}
    {Q : α → Bool} {h : α → γ} {l : List (α × β)}
    (hf : ∀ a ∈ l, f a = if P a = true ∧ Q a.1 = true then some (h a.1) else none) :
    l.filterMap f = (((l.filter P).map Prod.fst).filter Q).map h := by
  induction l with
  | nil => rfl
  | cons a l ih =>
      have hrest := ih fun b hb => hf b (List.mem_cons_of_mem a hb)
      have ha := hf a List.mem_cons_self
      cases hP : P a <;> cases hQ : Q a.1 <;> simp [ha, hP, hQ, hrest]

theorem greens_of_contract (hcontract : Contract i p g trace) (hi : (i : ℕ) < nbVns) :
    greens (bucketOf i p) .zero trace =
      ((credited nbVns p i trace).filter (Packet.classified i)).map (meteringOf g) := by
  apply filterMap_eq_map_filter
  intro marked hmarked
  obtain ⟨x, phv⟩ := marked
  obtain ⟨hx, regs, rfl⟩ := mem_markAll hmarked
  simp only [greenIn, meteredIn_of_contract hcontract hx]
  by_cases hclassified : x.classified i = true
  · simp only [earns_of_classified hi hclassified regs, hclassified, true_and, and_true]
    by_cases hcolor : (apply regs x).2.color = 0
    · simp only [hcolor, if_true, and_true]
    · simp only [hcolor, if_false, and_false]
  · simp [hclassified]

theorem mem_credited {x : Packet} (hx : x ∈ credited nbVns p i trace) :
    x ∈ trace ∧ ∃ regs, (apply regs x).2.earns nbVns p i = true := by
  obtain ⟨⟨y, phv⟩, hmem, rfl⟩ := List.mem_map.mp hx
  obtain ⟨hmarked, hearns⟩ := List.mem_filter.mp hmem
  obtain ⟨hy, regs, rfl⟩ := mem_markAll hmarked
  exact ⟨hy, regs, hearns⟩

theorem credited_sublist (nbVns p i : ℕ) (trace : List Packet) :
    (credited nbVns p i trace).Sublist trace := by
  have hsub := (List.filter_sublist (p := fun (a : Packet × Marked) => a.2.earns nbVns p i)
    (l := markAll .zero trace)).map Prod.fst
  rwa [map_fst_markAll] at hsub

theorem classified_bound (hcontract : Contract i p g trace) (hi : (i : ℕ) < nbVns) {s t : ℤ}
    (hst : s ≤ t) {L : ℕ} (hL : ∀ x ∈ trace, x.lengthBits ≤ L) :
    bitsWithin s t ((credited nbVns p i trace).filter (Packet.classified i)) ≤
      tau.toInt + L + g.toInt * (t - s) := by
  let earned := (credited nbVns p i trace).filter (Packet.classified i)
  have hsub : earned.Sublist trace :=
    (List.filter_sublist (l := credited nbVns p i trace)).trans
      (credited_sublist nbVns p i trace)
  have hgreens : (greens (bucketOf i p) .zero trace).map Metering.arrival =
      earned.map fun x => ⟨x.time, x.bits.toInt⟩ := by
    rw [greens_of_contract hcontract hi, List.map_map]
    rfl
  have hmetered : ∀ a ∈ trace.filterMap (Packet.meteredIn (bucketOf i p)),
      a.leakRate.toInt = g.toInt ∧ 0 ≤ a.time.toInt := by
    intro a ha
    obtain ⟨x, hx, hxa⟩ := List.mem_filterMap.mp ha
    rw [meteredIn_of_contract hcontract hx, Option.ite_none_right_eq_some] at hxa
    rw [← Option.some.inj hxa.2]
    exact ⟨rfl, hcontract.time_nonneg x hx⟩
  have hconforms := (bucket_covers hcontract.rate_nonneg hcontract.fits hmetered).2
  rw [hgreens] at hconforms
  have hbits : ∀ x ∈ earned, x.bits.toInt = x.lengthBits := by
    intro x hx
    have hlength := hcontract.length x (hsub.subset hx)
    apply bits_eq_length
    rw [Packet.lengthBits] at hlength
    omega
  have hsorted : (earned.map fun x => (⟨x.time, x.bits.toInt⟩ : Arrival ℤ)).Pairwise
      fun a b => a.time ≤ b.time :=
    List.pairwise_map.mpr (hcontract.sorted.sublist hsub)
  have hvolume : ∀ a ∈ earned.map fun x => (⟨x.time, x.bits.toInt⟩ : Arrival ℤ),
      a.volume ≤ L := by
    intro a ha
    obtain ⟨x, hx, rfl⟩ := List.mem_map.mp ha
    exact (hbits x hx).trans_le (hL x (hsub.subset hx))
  have hbound := hconforms.volume_interval_le (by decide) hcontract.rate_nonneg hsorted hst
    (Int.natCast_nonneg L) hvolume
  rw [List.filter_map, volume, List.map_map] at hbound
  have hsame : bitsWithin s t earned =
      ((earned.filter fun x => s ≤ x.time ∧ x.time ≤ t).map fun x => x.bits.toInt).sum := by
    rw [bitsWithin]
    congr 1
    apply List.map_congr_left
    intro x hx
    exact (hbits x (List.mem_filter.mp hx).1).symm
  change bitsWithin s t earned ≤ _
  rw [hsame]
  exact hbound

/-! ## Packets without a contract -/

/-- What earns credit for VN `i` on port `p` without being classified to VN `i`. -/
inductive Uncontracted (nbVns : ℕ) (i p : Fin 8) (x : Packet) : Prop
  | notIpv4 (hvalid : x.ipv4Valid = false) (hi : i = 0) (hp : p = 0)
  | classifierMiss (hvalid : x.ipv4Valid = true) (hmiss : x.vnClassifier = none)
      (hi : i = 3 ∨ nbVns ≤ 3 ∧ i = 0)
  | clampedVn (vnId : BitVec 8) (leakRate : BitVec 48) (egressSpec : BitVec 9)
      (hmetered : x.metered = some (vnId, leakRate, egressSpec)) (hvn : nbVns ≤ vnId.toNat)
      (hi : i = 0)

theorem uncontracted_of_credited {x : Packet} (hx : x ∈ credited nbVns p i trace) (hnot : x.classified i = false) :
    Uncontracted nbVns i p x := by
  obtain ⟨-, regs, hearns⟩ := mem_credited hx
  rw [Marked.earns, decide_eq_true_eq] at hearns
  obtain ⟨-, hport, hvn, -⟩ := hearns
  rw [SimpleSwitch.vnIdOf] at hvn
  rcases marks_cases regs x with ⟨hvalid, hmarks⟩ | ⟨hvalid, hmiss, hmarks⟩ |
    ⟨vnId, leakRate, hmetered, hegress, hmark⟩
  · rw [hmarks] at hport hvn
    apply Uncontracted.notIpv4 hvalid
    · apply Fin.ext
      rw [← hvn]
      split <;> rfl
    · exact Fin.ext hport.symm
  · rw [hmarks] at hvn
    apply Uncontracted.classifierMiss hvalid hmiss
    rw [Fin.ext_iff, Fin.ext_iff, ← hvn]
    split
    next hfew => exact Or.inr ⟨hfew, rfl⟩
    next => exact Or.inl rfl
  · rw [hmark] at hvn
    have hother : vnId.toNat ≠ i := by
      intro heq
      rw [classified_iff.mpr ⟨vnId, leakRate, hmetered, heq⟩] at hnot
      simp at hnot
    split at hvn
    next hclamped =>
      exact Uncontracted.clampedVn vnId leakRate _ hmetered hclamped (Fin.ext hvn.symm)
    next => exact absurd hvn hother

/-- Only the classifier earns credit in a trace which it matches throughout. -/
theorem classified_of_metered
    (hall : ∀ x ∈ trace, ∃ vnId leakRate egressSpec,
      x.metered = some (vnId, leakRate, egressSpec) ∧ vnId.toNat < nbVns)
    {x : Packet} (hx : x ∈ credited nbVns p i trace) : x.classified i = true := by
  obtain ⟨vnId, leakRate, egressSpec, hmetered, hlt⟩ := hall x (mem_credited hx).1
  obtain ⟨hvalid, -, action, haction, -⟩ := metered_eq_some.mp hmetered
  by_contra hnot
  cases uncontracted_of_credited hx (Bool.not_eq_true _ ▸ hnot) with
  | notIpv4 hinvalid => simp [hvalid] at hinvalid
  | classifierMiss _ hmiss => simp [haction] at hmiss
  | clampedVn vnId' _ _ hmetered' hclamped =>
      rw [hmetered] at hmetered'
      obtain ⟨rfl, -⟩ := Prod.mk.inj (Option.some.inj hmetered')
      omega

end MyIngress

/-! ## The credit counters -/

namespace QueueingLogicVN

variable {P : Type} {m k : ℕ} {cfg : Config m k} {s s' : QueueingLogicVN P m k}

def greenCredit (s : QueueingLogicVN P m k) (q : ℕ) (v : Fin k) : ℤ :=
  match s.logicalQueuesInfo q with
  | some lq => (lq.vnQueues v).greenCredit
  | none => 0

theorem greenCredit_getLogicalQueue (cfg : Config m k) (s : QueueingLogicVN P m k) (q : ℕ)
    (w : Fin m) (now : Ticks) (v : Fin k) :
    ((s.getLogicalQueue cfg q w now).2.vnQueues v).greenCredit = s.greenCredit q v ∧
      ∀ q', (s.getLogicalQueue cfg q w now).1.greenCredit q' v = s.greenCredit q' v := by
  unfold getLogicalQueue greenCredit
  cases hlq : s.logicalQueuesInfo q with
  | some lq => exact ⟨rfl, fun _ => rfl⟩
  | none =>
      constructor
      · rfl
      · intro q'
        by_cases hq : q' = q
        · subst q'
          simp [hlq, LogicalQueueInfo.new]
        · simp [hq]

theorem greenCredit_write (s : QueueingLogicVN P m k) (q q' : ℕ) (p : Port P k)
    (size rrPtr : ℕ) (v : Fin k) :
    (s.write cfg q p size rrPtr).greenCredit q' v =
      if q = q' then (p.vn v).greenCredit else s.greenCredit q' v := by
  unfold greenCredit write setQueue setWorker
  by_cases hq : q = q'
  · simp [hq, Port.vn]
  · simp [hq, Ne.symm hq]

theorem pushFront_greenCredit [IngressPacket P] (hcoh : s.Coherent cfg) {q vn color : ℕ}
    {item : Option P} {now : Ticks} {accepted : Bool}
    (hpush : s.pushFront cfg q vn color item now = some (s', accepted)) {i : Fin k}
    (hi : (i : ℕ) = vn) (q' : ℕ) (v : Fin k) :
    s'.greenCredit q' v = s.greenCredit q' v +
      (Op.pushFront q vn color item now : Op P m).greenBytes q' v := by
  obtain ⟨hcredit, hothers⟩ :=
    greenCredit_getLogicalQueue cfg s q (cfg.mapToWorker q) now v
  obtain ⟨-, p, hport, hinfo⟩ := getLogicalQueue_advances hcoh q now
  rw [pushFront_eq (vnIndex_eq_some.mpr hi) hport hinfo] at hpush
  simp only [Option.some.injEq, Prod.mk.injEq] at hpush
  rw [← hpush.1, greenCredit_write]
  split
  next hq =>
    subst q'
    rw [Port.push_vn, ← hcredit, ← hinfo, Op.greenBytes, ← hi]
    simp only [true_and, Fin.ext_iff, and_comm, Port.vn]
  next hq => simp [hothers, Op.greenBytes, hq]

end QueueingLogicVN

namespace SimpleSwitch

variable {k : ℕ} {weights : VnWeights k} {s s' : SimpleSwitch k} {actions : List (Action k)}

def traceOf (actions : List (Action k)) : List MyIngress.Packet :=
  (actions.filterMap Action.ingressed).map Packet.headers

def Action.credited (p i : ℕ) : Action k → Option MyIngress.Packet
  | .enqueue packet _ => if packet.phv.earns k p i then some packet.headers else none
  | _ => none

theorem credited_run (hrun : Reaches weights actions s) (p i : ℕ) :
    actions.filterMap (Action.credited p i) = MyIngress.credited k p i (traceOf actions) := by
  have hmarks := (marker_run hrun).2
  have hstep : ∀ action ∈ actions, action.credited p i =
      action.ingressed.bind fun packet =>
        if packet.phv.earns k p i then some packet.headers else none := by
    intro action haction
    obtain ⟨s, s', hstep⟩ := hrun.exists_step_of_mem haction
    cases hstep with
    | drop hbusy happly hdrop => simp [Action.credited, Action.ingressed,
        MyIngress.Marked.earns, hdrop]
    | _ => rfl
  rw [MyIngress.credited, traceOf, hmarks, List.filterMap_congr hstep,
    ← List.filterMap_filterMap, List.filter_map, List.map_map]
  generalize actions.filterMap Action.ingressed = packets
  induction packets with
  | nil => rfl
  | cons packet packets ih =>
      cases hearns : packet.phv.earns k p i with
      | true => simpa [hearns] using ih
      | false => simpa [hearns] using ih

theorem greenCredit_enqueue (hrun : Reaches weights actions s) {packet : Packet}
    {call : Call Packet 4 k} (hstep : Step weights s (.enqueue packet call) s') (p : ℕ) (v : Fin k) :
    s'.egressBuffers.greenCredit p v = s.egressBuffers.greenCredit p v +
      if packet.phv.earns k p v then (packet.headers.packetLength.toNat : ℤ) else 0 := by
  cases hstep with
  | enqueue now hbusy happly hforward hpush =>
      obtain ⟨i, hi, accepted, haccepted, rfl⟩ := step_pushFront hpush
      obtain ⟨ops, hops⟩ := run_history hrun
      have hcoh := QueueingLogicVN.run_coherent hops
      rw [QueueingLogicVN.pushFront_greenCredit hcoh haccepted hi]
      congr 1
      simp only [Op.greenBytes, MyIngress.Marked.earns, decide_eq_true_eq, hforward, ne_eq,
        not_false_eq_true, true_and, BitVec.toNat_eq]
      rfl

/-- The credit of VN `i` on port `p` in a run: what adds to it, how much of that the
contract of VN `i` covers, and what the rest is. -/
structure CreditConformance (weights : VnWeights k) (actions : List (Action k)) (i p : Fin 8)
    (hi : (i : ℕ) < k) (g : BitVec 48) : Prop where
  credit : ∀ before packet call after, actions = before ++ .enqueue packet call :: after →
    ∃ s s', Reaches weights before s ∧ Step weights s (.enqueue packet call) s' ∧
      s'.egressBuffers.greenCredit p ⟨i, hi⟩ = s.egressBuffers.greenCredit p ⟨i, hi⟩ +
        if packet.phv.earns k p i then (packet.headers.packetLength.toNat : ℤ) else 0
  credited : actions.filterMap (Action.credited p i) =
    MyIngress.credited k p i (traceOf actions)
  classified_bound : ∀ (s t : ℤ) (L : ℕ), s ≤ t →
    (∀ x ∈ traceOf actions, x.lengthBits ≤ L) →
      MyIngress.bitsWithin s t
          ((MyIngress.credited k p i (traceOf actions)).filter
            (MyIngress.Packet.classified i)) ≤
        MyIngress.tau.toInt + L + g.toInt * (t - s)
  uncontracted : ∀ x ∈ MyIngress.credited k p i (traceOf actions), x.classified i = false →
    MyIngress.Uncontracted k i p x
  bound : i ≠ 0 → i ≠ 3 → ∀ (s t : ℤ) (L : ℕ), s ≤ t →
    (∀ x ∈ traceOf actions, x.lengthBits ≤ L) →
      MyIngress.bitsWithin s t (MyIngress.credited k p i (traceOf actions)) ≤
        MyIngress.tau.toInt + L + g.toInt * (t - s)

/-- The guaranteed credit of a VN in every run of the switch. -/
theorem guaranteed_credit (hrun : Reaches weights actions s) {i p : Fin 8}
    (hi : (i : ℕ) < k) {g : BitVec 48}
    (hcontract : MyIngress.Contract i p g (traceOf actions)) :
    CreditConformance weights actions i p hi g := by
  constructor
  · intro before packet call after hsplit
    rw [hsplit] at hrun
    obtain ⟨s, hbefore, hafter⟩ := Run.of_append hrun
    obtain ⟨s', hstep, -⟩ := Run.of_cons hafter
    exact ⟨s, s', hbefore, hstep, greenCredit_enqueue hbefore hstep p ⟨i, hi⟩⟩
  · exact credited_run hrun p i
  · intro s t L hst hL
    exact MyIngress.classified_bound hcontract hi hst hL
  · intro x hx hnot
    exact MyIngress.uncontracted_of_credited hx hnot
  · intro hi0 hi3 s t L hst hL
    have hall : ∀ x ∈ MyIngress.credited k p i (traceOf actions), x.classified i = true := by
      intro x hx
      by_contra hnot
      cases MyIngress.uncontracted_of_credited hx (Bool.not_eq_true _ ▸ hnot) with
      | notIpv4 _ hzero => exact hi0 hzero
      | classifierMiss _ _ hdefault =>
          cases hdefault with
          | inl hthree => exact hi3 hthree
          | inr hfew => exact hi0 hfew.2
      | clampedVn _ _ _ _ _ hzero => exact hi0 hzero
    rw [← List.filter_eq_self.mpr hall]
    exact MyIngress.classified_bound hcontract hi hst hL

/-! ## Credit without a contract -/

def unclassified : MyIngress.Packet where
  ipv4Valid := true
  ipv4Lpm := .ipv4Forward 1
  vnClassifier := none
  ingressGlobalTimestamp := 1
  packetLength := 1514

theorem contract_unclassified :
    MyIngress.Contract 3 1 10 (List.replicate 6 unclassified) := by
  have hmem : ∀ x ∈ List.replicate 6 unclassified, x = unclassified :=
    fun x hx => List.eq_of_mem_replicate hx
  have hmetered : unclassified.metered = none := rfl
  constructor
  case vn_below =>
    intro x hx vnId leakRate egressSpec hsome
    rw [hmem x hx, hmetered] at hsome
    simp at hsome
  case rate =>
    intro x hx vnId leakRate egressSpec hsome
    rw [hmem x hx, hmetered] at hsome
    simp at hsome
  all_goals decide +kernel

/-- Six packets which no entry of the classifier matches earn the default VN more
credit at one instant than its burst limit and one packet. -/
theorem not_guaranteed_credit :
    ¬∀ (actions : List (Action 8)) (s : SimpleSwitch 8),
      Reaches (equalWeights 8) actions s → MyIngress.Contract 3 1 10 (traceOf actions) →
        ∀ (s t : ℤ) (L : ℕ), s ≤ t → (∀ x ∈ traceOf actions, x.lengthBits ≤ L) →
          MyIngress.bitsWithin s t (MyIngress.credited 8 1 3 (traceOf actions)) ≤
            MyIngress.tau.toInt + L + (10 : BitVec 48).toInt * (t - s) := by
  intro hall
  obtain ⟨actions, s, hrun, htrace, -⟩ :=
    exists_run (equalWeights 8) (by decide) (List.replicate 6 unclassified)
  have hbound := hall actions s hrun
  rw [traceOf, htrace] at hbound
  exact absurd (hbound contract_unclassified 1 1 12112 le_rfl (by decide +kernel))
    (by decide +kernel)

def classifiedPacket : MyIngress.Packet where
  ipv4Valid := true
  ipv4Lpm := .ipv4Forward 2
  vnClassifier := some (.setVnParams 1 10)
  ingressGlobalTimestamp := 1
  packetLength := 1514

theorem contract_classified :
    MyIngress.Contract 1 2 10 (List.replicate 6 classifiedPacket) := by
  have hmem : ∀ x ∈ List.replicate 6 classifiedPacket, x = classifiedPacket :=
    fun x hx => List.eq_of_mem_replicate hx
  have hmetered : classifiedPacket.metered = some (1, 10, 2) := rfl
  constructor
  case vn_below =>
    intro x hx vnId leakRate egressSpec hsome
    rw [hmem x hx, hmetered, Option.some.injEq, Prod.mk.injEq] at hsome
    rw [← hsome.1]
    decide
  case rate =>
    intro x hx vnId leakRate egressSpec hsome hvn
    rw [hmem x hx, hmetered, Option.some.injEq, Prod.mk.injEq, Prod.mk.injEq] at hsome
    exact hsome.2.1.symm
  all_goals decide +kernel

theorem guaranteed_credit_six_packets :
    ∃ (actions : List (Action 2)) (s : SimpleSwitch 2), Reaches (equalWeights 2) actions s ∧
      CreditConformance (equalWeights 2) actions 1 2 (by decide) 10 ∧
        (actions.filterMap (Action.credited 2 1)).length = 5 := by
  obtain ⟨actions, s, hrun, htrace, -⟩ :=
    exists_run (equalWeights 2) (by decide) (List.replicate 6 classifiedPacket)
  have hconforms := guaranteed_credit (i := 1) (p := 2) (g := 10) hrun (by decide)
    (by rw [traceOf, htrace]; exact contract_classified)
  refine ⟨actions, s, hrun, hconforms, ?_⟩
  have hcredited := hconforms.credited
  rw [traceOf, htrace] at hcredited
  rw [show ((2 : Fin 8) : ℕ) = 2 from rfl, show ((1 : Fin 8) : ℕ) = 1 from rfl] at hcredited
  rw [hcredited]
  decide +kernel

end SimpleSwitch

end Cmcs
