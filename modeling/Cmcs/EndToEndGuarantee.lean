import Cmcs.GuaranteeInTime
import Cmcs.GuaranteedCredit
import Mathlib.Tactic

/-!
# The bandwidth guarantee from the color marker to the wire

The contracts of the color marker limit the green packets of a port, whatever the
traffic is.  Packets reach the egress buffers within a bounded latency of their
timestamps, so that the green packets which a port is offered obey an arrival curve,
and the worker which serves the port at the sum of the contracted rates transmits
them.
-/

namespace Cmcs

open TransitionSystem

/-! ## Green bytes between two clock readings -/

section Window

variable {P : Type} [IngressPacket P] {m k : ℕ} {q : ℕ} {lo hi : Ticks} {i : Fin k}

def greenAt (lo hi : Ticks) (i : Fin k) (x : TimedEvent P k) : ℤ :=
  if lo ≤ x.1 ∧ x.1 ≤ hi then x.2.greenOffered i else 0

/-- The green bytes offered by a call between two clock readings. -/
def Op.greenAt (lo hi : Ticks) (q : ℕ) (i : Fin k) (op : Op P m) : ℤ :=
  if ∃ t ∈ op.reading, lo ≤ t ∧ t ≤ hi then op.greenBytes q i else 0

theorem greenAt_nonneg (x : TimedEvent P k) : 0 ≤ greenAt lo hi i x := by
  unfold greenAt
  split
  · exact x.2.greenOffered_nonneg i
  · exact le_rfl

theorem sum_greenAt_of_stamp (t : Ticks) (events : List (Event P k)) :
    ((events.map fun e => (t, e)).map (greenAt lo hi i)).sum =
      if lo ≤ t ∧ t ≤ hi then tally (Event.greenOffered i) events else 0 := by
  rw [List.map_map]
  split
  next hin =>
    unfold tally
    congr 1
    apply List.map_congr_left
    intro e _
    simp [greenAt, hin]
  next hout =>
    apply List.sum_eq_zero
    intro n hn
    obtain ⟨e, -, rfl⟩ := List.mem_map.mp hn
    simp [greenAt, hout]

theorem Op.greenBytes_of_reading {op : Op P m} (hreading : op.reading = none) :
    op.greenBytes q i = 0 := by
  cases op with
  | pushFront => simp [Op.reading] at hreading
  | _ => rfl

theorem sum_greenAt_timeline {last : Ticks} {history : List (Call P m k)}
    (hcalls : ∀ call ∈ history,
      tally (Event.greenOffered i) (logOf q call.log) = call.op.greenBytes q i) :
    ((timeline q last history).map (greenAt lo hi i)).sum =
      (history.map fun call => call.op.greenAt lo hi q i).sum := by
  induction history generalizing last with
  | nil => rfl
  | cons call rest ih =>
      rw [timeline, List.map_append, List.sum_append, ih fun c hc => hcalls c (by simp [hc]),
        sum_greenAt_of_stamp, hcalls call (by simp), List.map_cons, List.sum_cons]
      congr 1
      cases hreading : call.op.reading with
      | none => simp [Op.greenAt, hreading, Op.greenBytes_of_reading hreading]
      | some t => simp [Op.greenAt, hreading]

omit [IngressPacket P] in
theorem between_ends {segment : List (TimedEvent P k)}
    (hsorted : segment.Pairwise fun x y => x.1 ≤ y.1) {a z : TimedEvent P k}
    (ha : a ∈ segment.head?) (hz : z ∈ segment.getLast?) :
    ∀ x ∈ segment, a.1 ≤ x.1 ∧ x.1 ≤ z.1 := by
  obtain ⟨tail, rfl⟩ := List.head?_eq_some_iff.mp ha
  obtain ⟨front, hfront⟩ := List.getLast?_eq_some_iff.mp hz
  intro x hx
  constructor
  · rcases List.mem_cons.mp hx with rfl | hx
    · exact le_rfl
    · exact (List.pairwise_cons.mp hsorted).1 x hx
  · rw [hfront] at hx hsorted
    rcases List.mem_append.mp hx with hx | hx
    · exact (List.pairwise_append.mp hsorted).2.2 x hx z (by simp)
    · rw [List.mem_singleton.mp hx]

theorem tally_segment_le {events before segment after : List (TimedEvent P k)}
    (hsplit : events = before ++ segment ++ after)
    (hin : ∀ x ∈ segment, lo ≤ x.1 ∧ x.1 ≤ hi) :
    tally (Event.greenOffered i) (segment.map Prod.snd) ≤
      (events.map (greenAt lo hi i)).sum := by
  have hsame : tally (Event.greenOffered i) (segment.map Prod.snd) =
      (segment.map (greenAt lo hi i)).sum := by
    unfold tally
    rw [List.map_map]
    congr 1
    apply List.map_congr_left
    intro x hx
    simp [greenAt, hin x hx]
  have hnonneg : ∀ l : List (TimedEvent P k), 0 ≤ (l.map (greenAt lo hi i)).sum := by
    intro l
    apply List.sum_nonneg
    intro n hn
    obtain ⟨x, -, rfl⟩ := List.mem_map.mp hn
    exact greenAt_nonneg x
  rw [hsame, hsplit, List.map_append, List.map_append, List.sum_append, List.sum_append]
  linarith [hnonneg before, hnonneg after]

end Window

namespace QueueingLogicVN

variable {P : Type} [IngressPacket P] {m k : ℕ} {cfg : Config m k} {s : QueueingLogicVN P m k}
variable {capacity : ℕ} {ops : List (Op P m)} {history : List (Call P m k)}

theorem greenOffered_call (hrun : run cfg (initial capacity) ops = some (s, history)) (q : ℕ)
    (i : Fin k) : ∀ call ∈ history,
      tally (Event.greenOffered i) (logOf q call.log) = call.op.greenBytes q i := by
  apply run_induction (I := fun _ _ history => ∀ call ∈ history,
    tally (Event.greenOffered i) (logOf q call.log) = call.op.greenBytes q i) (by simp) ?_ hrun
  intro ops s history s' call _ hbefore _ hspec call' hcall'
  rcases List.mem_append.mp hcall' with hcall' | hcall'
  · exact hbefore call' hcall'
  · obtain rfl : call' = call := by simpa using hcall'
    exact hspec.greenOffered_eq q i

end QueueingLogicVN

/-! ## From the marker to the port -/

namespace SimpleSwitch

variable {k : ℕ} {weights : VnWeights k} {s s' : SimpleSwitch k} {action : Action k}
variable {actions : List (Action k)}

def egressCalls (actions : List (Action k)) : List (Call Packet 4 k) :=
  actions.filterMap Action.call

/-- The green bytes offered to VN `i` of port `p` between two clock readings. -/
def greenBytesBetween (actions : List (Action k)) (lo hi : Ticks) (p : ℕ) (i : Fin k) : ℤ :=
  ((egressCalls actions).map fun call => call.op.greenAt lo hi p i).sum

/-- A packet reaches `push_front` at most `J` ticks after its timestamp, which counts
microseconds from `epoch`. -/
def IngressWithin (epoch J : ℤ) (actions : List (Action k)) : Prop :=
  ∀ packet call, .enqueue packet call ∈ actions → ∀ now ∈ call.op.reading,
    epoch + 1000 * packet.headers.time ≤ now ∧ now ≤ epoch + 1000 * packet.headers.time + J

/-- The timestamps of the packets which can be pushed between `lo` and `hi`. -/
def earliest (epoch J lo : ℤ) : ℤ := -((epoch + J - lo) / 1000)

def latest (epoch hi : ℤ) : ℤ := (hi - epoch) / 1000

def creditedAt (p i : ℕ) (first last : ℤ) (action : Action k) : ℤ :=
  ((action.credited p i).map fun x =>
    if first ≤ x.time ∧ x.time ≤ last then x.lengthBits else 0).getD 0

theorem sum_creditedAt (p i : ℕ) (first last : ℤ) :
    (actions.map (creditedAt p i first last)).sum =
      MyIngress.bitsWithin first last (actions.filterMap (Action.credited p i)) := by
  induction actions with
  | nil => rfl
  | cons action actions ih =>
      rw [List.map_cons, List.sum_cons, ih, List.filterMap_cons]
      cases hcredited : action.credited p i with
      | none => simp [creditedAt, hcredited]
      | some x =>
          by_cases hin : first ≤ x.time ∧ x.time ≤ last
          · simp [creditedAt, hcredited, MyIngress.bitsWithin, hin]
          · simp [creditedAt, hcredited, MyIngress.bitsWithin, hin]

theorem creditedAt_nonneg (p i : ℕ) (first last : ℤ) (action : Action k) :
    0 ≤ creditedAt p i first last action := by
  unfold creditedAt
  cases action.credited p i with
  | none => exact le_rfl
  | some x =>
      simp only [Option.map_some, Option.getD_some, MyIngress.Packet.lengthBits]
      split <;> omega

theorem time_mem_window {epoch J time lo hi now : ℤ}
    (hlatency : epoch + 1000 * time ≤ now ∧ now ≤ epoch + 1000 * time + J)
    (hin : lo ≤ now ∧ now ≤ hi) :
    earliest epoch J lo ≤ time ∧ time ≤ latest epoch hi := by
  obtain ⟨hearly, hlate⟩ := hlatency
  obtain ⟨hlo, hhi⟩ := hin
  unfold earliest latest
  constructor
  · omega
  · omega

theorem greenBytes_enqueue {packet : Packet} {call : Call Packet 4 k}
    (hstep : Step weights s (.enqueue packet call) s') (p : ℕ) (i : Fin k) :
    call.op.greenBytes p i =
      if packet.phv.earns k p i then (packet.headers.packetLength.toNat : ℤ) else 0 := by
  cases hstep with
  | enqueue now hbusy happly hforward hpush =>
      obtain ⟨v, hv, accepted, -, rfl⟩ := step_pushFront hpush
      simp only [Op.greenBytes, MyIngress.Marked.earns, decide_eq_true_eq, hforward, ne_eq,
        not_false_eq_true, true_and, BitVec.toNat_eq]
      rfl

theorem greenBytes_call (hstep : Step weights s action s') {call : Call Packet 4 k}
    (hcall : action.call = some call) (p : ℕ) (i : Fin k) :
    call.op.greenBytes p i = 0 ∨ ∃ packet, action = .enqueue packet call := by
  cases hstep with
  | enqueue => exact Or.inr ⟨_, by rw [Option.some.inj hcall]⟩
  | egressPop w now hready hscan =>
      obtain ⟨outcome, log, rfl⟩ := step_scan hscan
      obtain rfl := Option.some.inj hcall
      exact Or.inl rfl
  | @control op egressBuffers call' hsetter hset =>
      obtain ⟨log, rfl⟩ := step_setter hsetter hset
      obtain rfl := Option.some.inj hcall
      cases op with
      | pushFront => exact hsetter.elim
      | _ => exact Or.inl rfl
  | stopEgress w now hpush =>
      obtain ⟨v, hv, accepted, -, rfl⟩ := step_pushFront hpush
      obtain rfl := Option.some.inj hcall
      exact Or.inl (by simp [Op.greenBytes, ingressSize])
  | _ => simp [Action.call] at hcall

theorem greenAt_le (hrun : Reaches weights actions s) {epoch J : ℤ}
    (hingress : IngressWithin epoch J actions) (haction : action ∈ actions)
    {call : Call Packet 4 k} (hcall : action.call = some call) (p : ℕ) (i : Fin k)
    (lo hi : Ticks) :
    8 * call.op.greenAt lo hi p i ≤
      creditedAt p i (earliest epoch J lo) (latest epoch hi) action := by
  have hnonneg := creditedAt_nonneg p i (earliest epoch J lo) (latest epoch hi) action
  obtain ⟨s, s', hstep⟩ := hrun.exists_step_of_mem haction
  unfold Op.greenAt
  split
  next hin =>
    obtain ⟨now, hreading, hin⟩ := hin
    cases greenBytes_call hstep hcall p i with
    | inl hzero => rwa [hzero, mul_zero]
    | inr henqueue =>
        obtain ⟨packet, rfl⟩ := henqueue
        have htime := time_mem_window (hingress packet call haction now hreading) hin
        rw [greenBytes_enqueue hstep]
        cases hearns : packet.phv.earns k p i with
        | true => simp [creditedAt, Action.credited, hearns, htime, MyIngress.Packet.lengthBits]
        | false => simpa using hnonneg
  next => rwa [mul_zero]

theorem greenBytesBetween_le (hrun : Reaches weights actions s) {epoch J : ℤ}
    (hingress : IngressWithin epoch J actions) (p : ℕ) (i : Fin k) (lo hi : Ticks) :
    8 * greenBytesBetween actions lo hi p i ≤
      MyIngress.bitsWithin (earliest epoch J lo) (latest epoch hi)
        (MyIngress.credited k p i (traceOf actions)) := by
  have hall : ∀ more ⊆ actions,
      8 * greenBytesBetween more lo hi p i ≤
        (more.map (creditedAt p i (earliest epoch J lo) (latest epoch hi))).sum := by
    intro more hmore
    induction more with
    | nil => exact le_rfl
    | cons action more ih =>
        obtain ⟨haction, hmore⟩ := List.cons_subset.mp hmore
        have hrest := ih hmore
        rw [greenBytesBetween, egressCalls, List.filterMap_cons, List.map_cons, List.sum_cons,
          ← egressCalls]
        rw [greenBytesBetween] at hrest
        cases hcall : action.call with
        | none =>
            have hnonneg := creditedAt_nonneg p i (earliest epoch J lo) (latest epoch hi) action
            simp only
            linarith
        | some call =>
            have hfirst := greenAt_le hrun hingress haction hcall p i lo hi
            simp only [List.map_cons, List.sum_cons]
            linarith
  have hbound := hall actions (List.Subset.refl _)
  rwa [sum_creditedAt, credited_run hrun] at hbound

/-- VN `i` may send `g i` bits per microsecond to port `p`, and all its green packets
come out of the classifier. -/
structure Guarantees (weights : VnWeights k) (p : Fin 8) (hk : k ≤ 8) (g : Fin k → BitVec 48)
    (actions : List (Action k)) : Prop where
  contract : ∀ i, MyIngress.Contract (Fin.castLE hk i) p (g i) (traceOf actions)
  classified : ∀ i : Fin k, ∀ x ∈ MyIngress.credited k p i (traceOf actions),
    x.classified i = true

/-- The guaranteed rates of all VNs in bits per second. -/
def guaranteedRate (g : Fin k → BitVec 48) : ℚ := 10 ^ 6 * ∑ i, ((g i).toInt : ℚ)

/-- The burst of all VNs: a full bucket and a packet each, and what is credited
during the latency `J`. -/
def guaranteedBurst (L : ℕ) (J : ℤ) (g : Fin k → BitVec 48) : ℚ :=
  ∑ i, (defaultTau + 8 * L + (g i).toInt * J / 1000)

theorem latest_sub_earliest (epoch J lo hi : ℤ) :
    1000 * (latest epoch hi - earliest epoch J lo) ≤ hi - lo + J := by
  unfold latest earliest
  omega

/-- The green bits of one VN between two clock readings. -/
theorem greenBytesBetween_le_contract (hrun : Reaches weights actions s) {p : Fin 8} {hk : k ≤ 8}
    {g : Fin k → BitVec 48} (hguarantees : Guarantees weights p hk g actions) {epoch J : ℤ}
    (hingress : IngressWithin epoch J actions) {L : ℕ}
    (hsizes : ∀ x ∈ traceOf actions, x.packetLength.toNat ≤ L) (i : Fin k) {lo hi : Ticks}
    (hle : lo ≤ hi) (hJ : 0 ≤ J) :
    8 * (greenBytesBetween actions lo hi p i : ℚ) ≤
      defaultTau + 8 * L + (g i).toInt * (hi - lo + J) / 1000 := by
  have hcontract := hguarantees.contract i
  have hg : (0 : ℚ) ≤ (g i).toInt := by exact_mod_cast hcontract.rate_nonneg
  have hwindow : (latest epoch hi - earliest epoch J lo : ℚ) ≤ (hi - lo + J) / 1000 := by
    have hint := latest_sub_earliest epoch J lo hi
    have hcast : (1000 * (latest epoch hi - earliest epoch J lo) : ℚ) ≤ hi - lo + J := by
      exact_mod_cast hint
    linarith
  have hall : 8 * (greenBytesBetween actions lo hi p i : ℚ) ≤
      MyIngress.bitsWithin (earliest epoch J lo) (latest epoch hi)
        (MyIngress.credited k p i (traceOf actions)) := by
    exact_mod_cast greenBytesBetween_le hrun hingress p i lo hi
  refine hall.trans ?_
  have hspan : (0 : ℚ) ≤ hi - lo + J := by
    have hint : (0 : ℤ) ≤ hi - lo + J := add_nonneg (sub_nonneg.mpr hle) hJ
    exact_mod_cast hint
  by_cases horder : earliest epoch J lo ≤ latest epoch hi
  · have hbound := MyIngress.classified_bound hcontract (by exact i.isLt) horder (L := 8 * L)
      fun x hx => by
        have hsize := hsizes x hx
        unfold MyIngress.Packet.lengthBits
        push_cast
        omega
    rw [show (Fin.castLE hk i : ℕ) = i from rfl,
      List.filter_eq_self.mpr (hguarantees.classified i)] at hbound
    have hcast : (MyIngress.bitsWithin (earliest epoch J lo) (latest epoch hi)
        (MyIngress.credited k p i (traceOf actions)) : ℚ) ≤
          MyIngress.tau.toInt + 8 * L +
            (g i).toInt * (latest epoch hi - earliest epoch J lo) := by
      exact_mod_cast hbound
    have htau : (MyIngress.tau.toInt : ℚ) = defaultTau := by
      norm_num [MyIngress.toInt_tau, defaultTau]
    have hrate := mul_le_mul_of_nonneg_left hwindow hg
    rw [htau] at hcast
    linarith [mul_div_assoc ((g i).toInt : ℚ) (hi - lo + J) 1000]
  · have hempty : MyIngress.bitsWithin (earliest epoch J lo) (latest epoch hi)
        (MyIngress.credited k p i (traceOf actions)) = 0 := by
      unfold MyIngress.bitsWithin
      rw [List.filter_eq_nil_iff.mpr]
      · rfl
      · intro x _ hin
        have hboth : earliest epoch J lo ≤ x.time ∧ x.time ≤ latest epoch hi := by simpa using hin
        exact horder (hboth.1.trans hboth.2)
    rw [hempty]
    have hpos : (0 : ℚ) ≤ (g i).toInt * (hi - lo + J) / 1000 := by positivity
    have htau : (0 : ℚ) ≤ defaultTau := by norm_num [defaultTau]
    push_cast
    linarith [(Nat.cast_nonneg L : (0 : ℚ) ≤ L)]

/-- The green packets of port `p` obey an arrival curve. -/
theorem greenCurve_of_guarantees (hrun : Reaches weights actions s) {p : Fin 8} {hk : k ≤ 8}
    {g : Fin k → BitVec 48} (hguarantees : Guarantees weights p hk g actions) {epoch J : ℤ}
    (hingress : IngressWithin epoch J actions) (hJ : 0 ≤ J) {L : ℕ}
    (hsizes : ∀ x ∈ traceOf actions, x.packetLength.toNat ≤ L)
    (hsorted : (((egressCalls actions).map Call.op).filterMap Op.reading).Pairwise (· ≤ ·))
    {start created : Ticks} {rest : List (TimedEvent Packet k)}
    (hstart : ∀ t ∈ ((egressCalls actions).map Call.op).filterMap Op.reading, start ≤ t)
    (htimeline : timeline p start (egressCalls actions) = (created, .create created) :: rest) :
    Port.GreenCurve (guaranteedBurst L J g) (guaranteedRate g) rest := by
  intro before segment after hsplit a ha z hz
  have hevents : timeline p start (egressCalls actions) =
      ((created, .create created) :: before) ++ segment ++ after := by
    rw [htimeline, hsplit]
    rfl
  have hall := (timeline_sorted (q := p) hstart hsorted).2
  rw [hevents] at hall
  have hin := between_ends (List.pairwise_append.mp (List.pairwise_append.mp hall).1).2.1 ha hz
  obtain ⟨ops, hops⟩ := run_history hrun
  rw [← egressCalls] at hops
  have hvn : ∀ i : Fin k,
      8 * (tally (Event.greenOffered i) (segment.map Prod.snd) : ℚ) ≤
        defaultTau + 8 * L + (g i).toInt * J / 1000 +
          (g i).toInt * (10 ^ 6 * seconds (z.1 - a.1)) := by
    intro i
    have hsegment := tally_segment_le (i := i) hevents hin
    rw [sum_greenAt_timeline (QueueingLogicVN.greenOffered_call hops p i)] at hsegment
    have hcast : (tally (Event.greenOffered i) (segment.map Prod.snd) : ℚ) ≤
        greenBytesBetween actions a.1 z.1 p i := by exact_mod_cast hsegment
    have hle : a.1 ≤ z.1 := (hin a (List.mem_of_mem_head? ha)).2
    have hbound := greenBytesBetween_le_contract hrun hguarantees hingress hsizes i hle hJ
    have hspan : (g i).toInt * (z.1 - a.1 + J) / 1000 = (g i).toInt * (J : ℚ) / 1000 +
        (g i).toInt * (10 ^ 6 * seconds (z.1 - a.1)) := by
      unfold seconds
      push_cast
      ring
    linarith
  have hpushed : (tally Port.greenPushed (segment.map Prod.snd) : ℚ) =
      ∑ i, (tally (Event.greenOffered i) (segment.map Prod.snd) : ℚ) := by
    unfold Port.greenPushed
    rw [tally_sum]
    push_cast
    rfl
  rw [hpushed, Finset.mul_sum, guaranteedBurst, guaranteedRate, Finset.mul_sum, Finset.sum_mul,
    ← Finset.sum_add_distrib]
  refine Finset.sum_le_sum fun i _ => (hvn i).trans_eq ?_
  ring

theorem guaranteedRate_nonneg {p : Fin 8} {hk : k ≤ 8} {g : Fin k → BitVec 48}
    (hguarantees : Guarantees weights p hk g actions) : 0 ≤ guaranteedRate g := by
  have hsum : (0 : ℚ) ≤ ∑ i, ((g i).toInt : ℚ) := Finset.sum_nonneg fun i _ => by
    exact_mod_cast (hguarantees.contract i).rate_nonneg
  unfold guaranteedRate
  positivity

theorem guaranteedBurst_nonneg {p : Fin 8} {hk : k ≤ 8} {g : Fin k → BitVec 48} {L : ℕ} {J : ℤ}
    (hguarantees : Guarantees weights p hk g actions) (hJ : 0 ≤ J) :
    0 ≤ guaranteedBurst L J g := by
  refine Finset.sum_nonneg fun i _ => ?_
  have hg : (0 : ℚ) ≤ (g i).toInt := by exact_mod_cast (hguarantees.contract i).rate_nonneg
  have hJ' : (0 : ℚ) ≤ J := by exact_mod_cast hJ
  have htau : (0 : ℚ) ≤ defaultTau := by norm_num [defaultTau]
  positivity

theorem sizeAtMost_call (hrun : Reaches weights actions s) {L : ℕ}
    (hsizes : ∀ x ∈ traceOf actions, x.packetLength.toNat ≤ L) :
    ∀ call ∈ egressCalls actions, call.op.SizeAtMost L := by
  intro call hmem
  obtain ⟨action, haction, hcall⟩ := List.mem_filterMap.mp hmem
  obtain ⟨s, s', hstep⟩ := hrun.exists_step_of_mem haction
  cases hstep with
  | @enqueue packet regs phv egressBuffers call' now hbusy happly hforward hpush =>
      have hsize : packet.headers.packetLength.toNat ≤ L := hsizes _
        (List.mem_map.mpr ⟨_, List.mem_filterMap.mpr ⟨_, haction, rfl⟩, rfl⟩)
      obtain ⟨v, hv, accepted, -, rfl⟩ := step_pushFront hpush
      obtain rfl := Option.some.inj hcall
      exact hsize
  | egressPop w now hready hscan =>
      obtain ⟨outcome, log, rfl⟩ := step_scan hscan
      obtain rfl := Option.some.inj hcall
      trivial
  | @control op egressBuffers call' hsetter hset =>
      obtain ⟨log, rfl⟩ := step_setter hsetter hset
      obtain rfl := Option.some.inj hcall
      cases op with
      | pushFront => exact hsetter.elim
      | _ => trivial
  | stopEgress w now hpush =>
      obtain ⟨v, hv, accepted, -, rfl⟩ := step_pushFront hpush
      obtain rfl := Option.some.inj hcall
      exact Nat.zero_le L
  | _ => simp [Action.call] at hcall

/-- The bandwidth guarantee of a port from the marker to the wire.  If packets reach the
egress buffers in time, the worker attends to the port and the port is served at the sum
of the guaranteed rates, then over every stretch of time every VN transmits at least its
green bytes, up to a constant and the green bytes rejected. -/
theorem end_to_end_bandwidth (hrun : Reaches weights actions s) {p : Fin 8} {hk : k ≤ 8}
    {g : Fin k → BitVec 48} (hguarantees : Guarantees weights p hk g actions) {epoch J : ℤ}
    (hingress : IngressWithin epoch J actions) (hJ : 0 ≤ J) {L : ℕ} (hL : 1 ≤ L)
    (hsizes : ∀ x ∈ traceOf actions, x.packetLength.toNat ≤ L)
    (hsorted : (((egressCalls actions).map Call.op).filterMap Op.reading).Pairwise (· ≤ ·))
    {created : Ticks} {rest : List (TimedEvent Packet k)}
    (htimeline : timeline p (QueueingLogicVN.startOf ((egressCalls actions).map Call.op))
      (egressCalls actions) = (created, .create created) :: rest)
    {r delay : ℚ} (hdelay : 0 ≤ delay) (hr : guaranteedRate g ≤ r)
    (hserved : ∀ c, QueueingLogicVN.Served r delay
      (Port.initial c weights.weight created) rest)
    {B : ℤ} (hB : guaranteedBurst L J g + 2 * (r * delay) + defaultTau + 16 * L ≤ 8 * B) :
    ∀ before segment after, rest = before ++ segment ++ after → ∀ i,
      tally (Event.greenOffered i) (segment.map Prod.snd) - B -
          tally Port.greenDropped ((before ++ segment).map Prod.snd) - k * ((L : ℤ) - 1) - L ≤
        bytesTaken i (releases (segment.map Prod.snd)) := by
  obtain ⟨ops, hops⟩ := run_history hrun
  rw [← egressCalls] at hops
  have hmap := QueueingLogicVN.map_op_run hops
  subst ops
  have hsizes' : ∀ op ∈ (egressCalls actions).map Call.op, op.SizeAtMost L := by
    intro op hop
    obtain ⟨call, hcall, rfl⟩ := List.mem_map.mp hop
    exact sizeAtMost_call hrun hsizes call hcall
  have hcurve := greenCurve_of_guarantees hrun hguarantees hingress hJ hsizes hsorted
    (QueueingLogicVN.startOf_le hsorted) htimeline
  obtain ⟨c, q, hlife, hcond⟩ := QueueingLogicVN.conditions_of_run hops hsorted hsizes' htimeline
    ((guaranteedRate_nonneg hguarantees).trans hr) hdelay hserved
  intro before segment after hsplit i
  rw [← tally_releasedBytes]
  exact Port.releasedBytes_in_time hcond hlife hcurve (guaranteedBurst_nonneg hguarantees hJ) hr hB
    hL (fun _ => rfl) hsplit i

theorem op_of_enqueue (hrun : Reaches weights actions s) {packet : Packet}
    {call : Call Packet 4 k} (hmem : .enqueue packet call ∈ actions) :
    ∃ q vn color now, call.op = .pushFront q vn color (some packet) now := by
  obtain ⟨s₁, s₂, hstep⟩ := hrun.exists_step_of_mem hmem
  cases hstep with
  | enqueue now hbusy happly hforward hpush =>
      obtain ⟨v, hv, accepted, -, rfl⟩ := step_pushFront hpush
      exact ⟨_, _, _, _, rfl⟩

theorem ingressWithin_of_ops (hrun : Reaches weights actions s) {epoch J : ℤ}
    (hops : ∀ op ∈ (egressCalls actions).map Call.op, ∀ q vn color packet now,
      op = .pushFront q vn color (some packet) now →
        epoch + 1000 * packet.headers.time ≤ now ∧
          now ≤ epoch + 1000 * packet.headers.time + J) :
    IngressWithin epoch J actions := by
  intro packet call hmem now hnow
  obtain ⟨q, vn, color, now', hop⟩ := op_of_enqueue hrun hmem
  rw [hop] at hnow
  obtain rfl : now' = now := Option.some.inj hnow
  exact hops call.op (List.mem_map_of_mem (List.mem_filterMap.mpr ⟨_, hmem, rfl⟩))
    q vn color packet now' hop

/-- Every millisecond a packet is sent to port 2, the first one of VN 0 and the others of
VN 1, which may send 12 Mbps. -/
def steadyHeaders (n : ℕ) : MyIngress.Packet where
  ipv4Valid := true
  ipv4Lpm := .ipv4Forward 2
  vnClassifier := some (if n = 0 then .setVnParams 0 0 else .setVnParams 1 12)
  ingressGlobalTimestamp := BitVec.ofNat 48 (1000 * (n + 1))
  packetLength := 1514

def steadyPacket (n : ℕ) : Packet where
  packetId := n
  headers := steadyHeaders n
  phv := ⟨2, if n = 0 then 0 else 1, 0⟩
  egressPort := 2

def steadyTime (n : ℕ) : Ticks := 1000000 * (n + 1) + 1000

def steadyTrace (count : ℕ) : List MyIngress.Packet := (List.range count).map steadyHeaders

/-- From the second packet on the worker scans when a packet has been queued. -/
def steadyRound (n : ℕ) : List (Op Packet 4) :=
  .pushFront 2 (if n = 0 then 0 else 1) 0 (some (steadyPacket n)) (steadyTime n) ::
    if n = 0 then [] else [.scan (egressThreadMapper 2) (steadyTime n)]

def steadyOps (count : ℕ) : List (Op Packet 4) :=
  .setRate 2 12112000 (steadyTime 0) :: (List.range count).flatMap steadyRound

theorem marked_steady :
    ∀ n < 25, (MyIngress.apply (MyIngress.runRegs .zero (steadyTrace n)) (steadyHeaders n)).2 =
      (steadyPacket n).phv := by
  decide +kernel

theorem enqueue_steady (n : ℕ) :
    enqueue 2 2 ⟨(steadyTrace n).length, steadyHeaders n, (steadyPacket n).phv, 0⟩
        (steadyTime n) =
      .pushFront 2 (if n = 0 then 0 else 1) 0 (some (steadyPacket n)) (steadyTime n) := by
  have hlength : (steadyTrace n).length = n := by simp [steadyTrace]
  rw [hlength]
  cases n <;> rfl

theorem exists_steady_run {count : ℕ} (hcount : count ≤ 25) :
    ∃ actions s, Forwarded (equalWeights 2) (steadyTrace count) (steadyOps count) actions s := by
  induction count with
  | zero =>
      have hsetter : (Op.setRate 2 12112000 (steadyTime 0) : Op Packet 4).IsSetter := trivial
      exact (Forwarded.nil (equalWeights 2)).control hsetter trivial
  | succ n ih =>
      obtain ⟨actions, s, hforwarded⟩ := ih (by omega)
      obtain ⟨actions₁, s₁, hqueued⟩ := hforwarded.enqueue (by decide) (steadyHeaders n)
        (marked_steady n (by omega)) (show (2 : BitVec 9) ≠ MyIngress.dropPort by decide)
        (steadyTime n)
      have htrace : steadyTrace (n + 1) = steadyTrace n ++ [steadyHeaders n] := by
        simp [steadyTrace, List.range_succ]
      have hops : steadyOps (n + 1) = steadyOps n ++ steadyRound n := by
        simp [steadyOps, List.range_succ]
      rw [show (steadyPacket n).phv.egressSpec.toNat = 2 from rfl, enqueue_steady] at hqueued
      rw [htrace, hops, steadyRound]
      cases n with
      | zero => exact ⟨actions₁, s₁, hqueued⟩
      | succ n =>
          obtain ⟨actions₂, s₂, hscanned⟩ := hqueued.scan (egressThreadMapper 2) (steadyTime (n + 1))
          refine ⟨actions₂, s₂, ?_⟩
          simpa using hscanned

def steadyVn (n : ℕ) : Fin 2 := if n = 0 then Port.firstVn else Port.secondVn

def steadyElement (n : ℕ) : QE Packet := ⟨some (steadyPacket n), 0, 1514⟩

/-- The packet of the round before is sent. -/
def steadyEvents (n : ℕ) : List (Event Packet 2) :=
  [.push Port.secondVn 0 (some (steadyPacket (n + 1))) true, .sweep (steadyTime (n + 1)) [],
    .select ⟨steadyVn n, .green, 0, [Port.firstVn, Port.secondVn], steadyElement n⟩,
    .release (steadyTime (n + 1)) (steadyVn n) (steadyElement n)]

def steadyTimeline : List (TimedEvent Packet 2) :=
  (steadyTime 0, .setRate 12112000) ::
    (steadyTime 0, .push Port.firstVn 0 (some (steadyPacket 0)) true) ::
    (List.range 24).flatMap fun n => (steadyEvents n).map fun e => (steadyTime (n + 1), e)

theorem timeline_steady {calls : List (Call Packet 4 2)} {s : QueueingLogicVN Packet 4 2}
    (hrun : QueueingLogicVN.run (equalWeights 2).config (.initial 64) (steadyOps 25) =
      some (s, calls)) :
    timeline 2 (steadyTime 0) calls = (steadyTime 0, .create (steadyTime 0)) :: steadyTimeline := by
  have heval : (QueueingLogicVN.run (equalWeights 2).config (.initial 64) (steadyOps 25)).map
      (fun r => timeline 2 (steadyTime 0) r.2) =
        some ((steadyTime 0, .create (steadyTime 0)) :: steadyTimeline) := by
    decide +kernel
  rw [hrun] at heval
  exact Option.some.inj heval

theorem mem_steadyTimeline {x : TimedEvent Packet 2} (hx : x ∈ steadyTimeline) :
    x.2 = .setRate 12112000 ∨ (∃ v n, x.2 = .push v 0 (some (steadyPacket n)) true) ∨
      ∃ n, x.2 = .sweep x.1 [] ∨
        x.2 = .select ⟨steadyVn n, .green, 0, [Port.firstVn, Port.secondVn], steadyElement n⟩ ∨
          x.2 = .release x.1 (steadyVn n) (steadyElement n) := by
  rcases List.mem_cons.mp hx with rfl | hx
  · exact Or.inl rfl
  rcases List.mem_cons.mp hx with rfl | hx
  · exact Or.inr (Or.inl ⟨_, _, rfl⟩)
  obtain ⟨n, -, hn⟩ := List.mem_flatMap.mp hx
  obtain ⟨e, he, rfl⟩ := List.mem_map.mp hn
  simp only [steadyEvents, List.mem_cons, List.not_mem_nil, or_false] at he
  rcases he with rfl | he
  · exact Or.inr (Or.inl ⟨_, _, rfl⟩)
  · exact Or.inr (Or.inr ⟨n, he⟩)

theorem fixedRate_steady (c : ℕ) :
    Port.FixedRate 12112000 (Port.initial c (equalWeights 2).weight (steadyTime 0))
      steadyTimeline where
  set x hx bps hset := by
    rcases mem_steadyTimeline hx with h | ⟨v, n, h⟩ | ⟨n, h | h | h⟩
    · rw [h] at hset
      obtain rfl := Event.setRate.inj hset
      norm_num
    all_goals
      rw [h] at hset
      simp at hset
  created := Or.inr ⟨rfl, by simp [steadyTimeline]⟩

theorem served_steady (c : ℕ) :
    QueueingLogicVN.Served 12112000 (seconds 1000000)
      (Port.initial c (equalWeights 2).weight (steadyTime 0)) steadyTimeline := by
  refine ⟨fixedRate_steady c, QueueingLogicVN.attended_of_frequent
    (Port.wellFormed_initial c (equalWeights 2).weight_pos (steadyTime 0)) (by norm_num)
    (fixedRate_steady c) (by decide +kernel) fun x hx hattempt => ?_⟩
  rcases mem_steadyTimeline hx with h | ⟨v, n, h⟩ | ⟨n, h | h | h⟩
  case inr.inr.inr.inr =>
    refine ⟨steadyVn n, steadyElement n, h, ?_⟩
    norm_num [seconds, steadyElement]
  all_goals
    rw [h] at hattempt
    exact absurd hattempt id

def steadyRates : Fin 2 → BitVec 48 := ![0, 12]

theorem metered_steady : ∀ x ∈ steadyTrace 25,
    x.metered = some (0, 0, 2) ∨ x.metered = some (1, 12, 2) := by
  decide +kernel

theorem guarantees_steady {actions : List (Action 2)} (htrace : traceOf actions = steadyTrace 25) :
    Guarantees (equalWeights 2) 2 (by decide) steadyRates actions := by
  constructor
  · rw [htrace]
    intro i
    constructor
    case vn_below =>
      intro x hx vnId leakRate egressSpec hsome
      obtain hmetered | hmetered := metered_steady x hx
      all_goals
        rw [hmetered] at hsome
        obtain ⟨rfl, -⟩ := Prod.mk.inj (Option.some.inj hsome)
        decide
    case rate =>
      intro x hx vnId leakRate egressSpec hsome
      obtain hmetered | hmetered := metered_steady x hx
      all_goals
        rw [hmetered] at hsome
        obtain ⟨rfl, hrest⟩ := Prod.mk.inj (Option.some.inj hsome)
        obtain ⟨rfl, -⟩ := Prod.mk.inj hrest
        revert i
        decide
    case dropped => simp
    all_goals
      revert i
      decide +kernel
  · rw [htrace]
    intro i x hx
    have hi : ((Fin.castLE (by decide) i : Fin 8) : ℕ) = i := rfl
    rw [← hi] at hx ⊢
    refine MyIngress.classified_of_metered (fun y hy => ?_) hx
    obtain hmetered | hmetered := metered_steady y hy
    all_goals exact ⟨_, _, _, hmetered, by decide⟩

theorem prompt_steady : ∀ op ∈ steadyOps 25, ∀ q vn color packet now,
    op = .pushFront q vn color (some packet) now →
      0 + 1000 * packet.headers.time ≤ now ∧ now ≤ 0 + 1000 * packet.headers.time + 1000 := by
  have htimes : ∀ n < 25, 0 + 1000 * (steadyPacket n).headers.time ≤ steadyTime n ∧
      steadyTime n ≤ 0 + 1000 * (steadyPacket n).headers.time + 1000 := by
    decide +kernel
  intro op hop q vn color packet now heq
  rw [heq, steadyOps, List.mem_cons, List.mem_flatMap] at hop
  obtain hset | ⟨n, hn, hround⟩ := hop
  · simp at hset
  · obtain ⟨rfl, rfl⟩ : packet = steadyPacket n ∧ now = steadyTime n := by
      rcases List.mem_cons.mp hround with hpush | hscan
      · simp only [Op.pushFront.injEq, Option.some.injEq] at hpush
        exact hpush.2.2.2
      · split at hscan <;> simp at hscan
    exact htimes n (List.mem_range.mp hn)

/-- The bound of the whole run leaves VN 1 more than 4500 bytes. -/
theorem end_to_end_bandwidth_steady :
    ∃ actions s, Reaches (equalWeights 2) actions s ∧
      timeline 2 (steadyTime 0) (egressCalls actions) =
        (steadyTime 0, .create (steadyTime 0)) :: steadyTimeline ∧
      ∀ before segment after, steadyTimeline = before ++ segment ++ after → ∀ i : Fin 2,
        tally (Event.greenOffered i) (segment.map Prod.snd) - 27254 -
            tally Port.greenDropped ((before ++ segment).map Prod.snd) -
              (2 : ℕ) * ((1514 : ℕ) - 1 : ℤ) - (1514 : ℕ) ≤
          bytesTaken i (releases (segment.map Prod.snd)) := by
  obtain ⟨actions, s, hforwarded⟩ := exists_steady_run le_rfl
  have hrun := hforwarded.run
  have hops : (egressCalls actions).map Call.op = steadyOps 25 := hforwarded.calls
  have htrace : traceOf actions = steadyTrace 25 := hforwarded.trace
  have htimeline : timeline 2 (steadyTime 0) (egressCalls actions) =
      (steadyTime 0, .create (steadyTime 0)) :: steadyTimeline := by
    obtain ⟨ops, hrun'⟩ := run_history hrun
    obtain rfl : _ = ops := QueueingLogicVN.map_op_run hrun'
    rw [← egressCalls, hops] at hrun'
    exact timeline_steady hrun'
  refine ⟨actions, s, hrun, htimeline, ?_⟩
  have hingress : IngressWithin 0 1000 actions := by
    refine ingressWithin_of_ops hrun ?_
    rw [hops]
    exact prompt_steady
  have hzero : (0 : BitVec 48).toInt = 0 := rfl
  have htwelve : (12 : BitVec 48).toInt = 12 := rfl
  refine end_to_end_bandwidth hrun (guarantees_steady htrace) hingress (by decide) (L := 1514)
    (by decide) ?_ ?_ ?_ (by norm_num [seconds]) ?_ served_steady ?_
  · rw [htrace]
    decide +kernel
  · rw [hops]
    decide +kernel
  · rw [hops]
    exact htimeline
  · norm_num [guaranteedRate, steadyRates, hzero, htwelve]
  · norm_num [guaranteedBurst, defaultTau, steadyRates, seconds, hzero, htwelve]

end SimpleSwitch

end Cmcs
