import Cmcs.DeliveryAtRate
import Cmcs.QueueingLogic
import Mathlib.Tactic

/-!
# Without rates `QueueingLogicRL` behaves as `QueueingLogic`

As long as no rate other than 0 is set and the clock does not run backwards, the
priority queue of a worker is ordered by arrival.  The calls then do what they do on
`QueueingLogic` if the pushes which are refused are left out there, as the rate calls
are: `QueueingLogic` does not refuse such a push, it lets it wait.
-/

namespace Cmcs

open TransitionSystem

namespace QueueingLogicRL

variable {P : Type} {m : ℕ} {mapToWorker : ℕ → Fin m}
variable {s s' : QueueingLogicRL P m} {u : QueueingLogic P m} {history : List (Call P m)}

def Op.Unlimited : Op P m → Prop
  | .setRate _ pps _ => pps = 0
  | .setRateForAll pps => pps = 0
  | _ => True

/-- The clock readings of a call, in their order. -/
def Op.readings : Op P m → List Ticks
  | .pushFront _ _ created now => [created, now]
  | .popBack _ now => [now]
  | .setCapacity _ _ created => [created]
  | .setRate _ _ created => [created]
  | _ => []

/-- The same call on `QueueingLogic`, which has no rates.  A push which was refused is
not made. -/
def Call.basicOp (call : Call P m) : List (QueueingLogic.Op P m) :=
  match call.op, call.result with
  | .pushFront _ _ _ _, .pushed false => []
  | .pushFront q item _ _, _ => [.pushFront q item]
  | .popBack w _, _ => [.popBack w]
  | .setCapacity q c _, _ => [.setCapacity q c]
  | .setCapacityForAll c, _ => [.setCapacityForAll c]
  | .setRate _ _ _, _ => []
  | .setRateForAll _, _ => []

/-- What the call returns, in terms of `QueueingLogic`, which never waits for a
time. -/
def Call.basic (call : Call P m) : List (QueueingLogic.Result P) :=
  match call.op, call.result with
  | _, .pushed true => [.pushed]
  | _, .pushed false => []
  | _, .popped .wait => [.waitNotEmpty]
  | _, .popped (.output q item) => [.popped q item]
  | _, .popped (.waitUntil _) => []
  | .setRate .., .done => []
  | .setRateForAll _, .done => []
  | _, .done => [.done]

/-! ## What is seen of a queue without rate -/

structure Meter.Unlimited (meter : Meter P) (t : Ticks) : Prop where
  rate : meter.rate = 0
  created : ∀ r ∈ meter.created, r ≤ t
  accepted : ∀ a ∈ meter.accepted, a.2.gap = 0 ∧ a.2.time ≤ t

theorem Meter.Unlimited.touch {meter : Meter P} {t now : Ticks} (hmeter : meter.Unlimited t)
    (hnow : now ≤ t) : (meter.touch now).Unlimited t where
  rate := hmeter.rate
  created := by
    intro r hr
    obtain rfl : meter.created.getD now = r := by simpa [Meter.touch] using hr
    cases hcreated : meter.created with
    | none => exact hnow
    | some c => exact hmeter.created c hcreated
  accepted := hmeter.accepted

theorem Meter.Unlimited.record {meter : Meter P} {t : Ticks} (hmeter : meter.Unlimited t) (q : ℕ)
    {call : Call P m} (hop : call.op.Unlimited) (hreadings : ∀ r ∈ call.op.readings, r ≤ t) :
    (meter.record q call).Unlimited t := by
  obtain ⟨op, result⟩ := call
  unfold Meter.record
  split
  next qid item created now accepted heq _ =>
    obtain rfl : op = _ := heq
    have hcreated : created ≤ t := hreadings created (by simp [Op.readings])
    have hnow : now ≤ t := hreadings now (by simp [Op.readings])
    split_ifs
    · have htouched := hmeter.touch hcreated
      refine ⟨htouched.rate, htouched.created, fun a ha => ?_⟩
      rcases List.mem_append.mp ha with ha | ha
      · exact hmeter.accepted a ha
      · obtain rfl : a = _ := List.mem_singleton.mp ha
        exact ⟨by rw [hmeter.rate]; rfl, hnow⟩
    · exact hmeter.touch hcreated
    · exact hmeter
  next =>
    split_ifs
    · exact ⟨hmeter.rate, hmeter.created, hmeter.accepted⟩
    · exact hmeter
  next qid c created heq =>
    obtain rfl : op = _ := heq
    split_ifs
    · exact hmeter.touch (hreadings created (by simp [Op.readings]))
    · exact hmeter
  next qid pps created heq =>
    obtain rfl : op = _ := heq
    split_ifs
    · have htouched := hmeter.touch (hreadings created (by simp [Op.readings]))
      exact ⟨hop, htouched.created, htouched.accepted⟩
    · exact hmeter
  next pps heq =>
    obtain rfl : op = _ := heq
    exact ⟨hop, hmeter.created, hmeter.accepted⟩
  next => exact hmeter

theorem meterOf_unlimited (q : ℕ) {t : Ticks} (hops : ∀ call ∈ history, call.op.Unlimited)
    (hreadings : ∀ call ∈ history, ∀ r ∈ call.op.readings, r ≤ t) :
    (meterOf q history).Unlimited t := by
  induction history using List.reverseRecOn with
  | nil => exact ⟨rfl, by simp [meterOf], by simp [meterOf]⟩
  | append_singleton history call ih =>
      rw [meterOf_concat]
      exact (ih (fun c hc => hops c (by simp [hc])) fun c hc => hreadings c (by simp [hc])).record
        q (hops call (by simp)) (hreadings call (by simp))

/-- No element waits beyond the latest reading. -/
theorem Inv.send_le (hinv : Inv mapToWorker s history) {t : Ticks}
    (hmeter : ∀ q, (meterOf q history).Unlimited t) {w : Fin m} {qe : QE P}
    (hqe : qe ∈ (s.workersInfo w).queue) : qe.send ≤ t := by
  have hwaits : qe ∈ queued mapToWorker s qe.queueId := by
    rw [queued, hinv.owned w qe hqe]
    exact List.mem_filter.mpr ⟨hqe, by simp⟩
  refine ((hinv.queues qe.queueId).le_lastSent t qe hwaits).trans ?_
  rw [(hinv.queues qe.queueId).lastSent, PacketShaper.lastRelease_le_iff]
  have hgaps : ∀ arrivals : List (PacketShaper.Arrival Ticks),
      (∀ a ∈ arrivals, a ∈ (meterOf qe.queueId history).accepted.map Prod.snd) →
        (arrivals.map PacketShaper.Arrival.gap).sum = 0 := by
    intro arrivals hsub
    refine List.sum_eq_zero fun gap hgap => ?_
    obtain ⟨a, ha, rfl⟩ := List.mem_map.mp hgap
    obtain ⟨b, hb, rfl⟩ := List.mem_map.mp (hsub a ha)
    exact ((hmeter qe.queueId).accepted b hb).1
  refine ⟨?_, fun before arrival after hsplit => ?_⟩
  · rw [hgaps _ fun a ha => ha, add_zero]
    cases hcreated : (meterOf qe.queueId history).created with
    | none => exact le_rfl
    | some c => exact (hmeter qe.queueId).created c hcreated
  · rw [hgaps after fun a ha => by simp [hsplit, ha], add_zero]
    obtain ⟨b, hb, rfl⟩ := List.mem_map.mp
      (show arrival ∈ (meterOf qe.queueId history).accepted.map Prod.snd by simp [hsplit])
    exact ((hmeter qe.queueId).accepted b hb).2

/-! ## The simulation -/

end QueueingLogicRL

namespace QueueingLogic

variable {P : Type} {m : ℕ} (u : QueueingLogic P m)

theorem getQueue_setQueue (q : ℕ) (info : QueueInfo) (q' : ℕ) :
    (u.setQueue q info).getQueue q' = if q' = q then info else u.getQueue q' := by
  by_cases hq : q' = q <;> simp [getQueue, setQueue, hq]

@[simp] theorem getQueue_setWorker (w : Fin m) (wInfo : WorkerInfo P) (q : ℕ) :
    (u.setWorker w wInfo).getQueue q = u.getQueue q := rfl

@[simp] theorem workersInfo_setQueue (q : ℕ) (info : QueueInfo) :
    (u.setQueue q info).workersInfo = u.workersInfo := rfl

theorem workersInfo_setWorker (w : Fin m) (wInfo : WorkerInfo P) (w' : Fin m) :
    (u.setWorker w wInfo).workersInfo w' = if w' = w then wInfo else u.workersInfo w' := by
  by_cases hw : w' = w
  · subst w'
    simp [setWorker]
  · simp [setWorker, hw]

theorem step_pushFront (mapToWorker : ℕ → Fin m) (q : ℕ) (item : P) :
    u.step mapToWorker (.pushFront q item) =
      some ((u.pushFront mapToWorker q item).1, [(u.pushFront mapToWorker q item).2]) := rfl

theorem getQueue_setCapacityForAll (c q : ℕ) :
    (u.setCapacityForAll c).getQueue q = { u.getQueue q with capacity := c } := by
  simp only [setCapacityForAll, getQueue]
  cases u.queuesInfo q <;> rfl

end QueueingLogic

namespace QueueingLogicRL

variable {P : Type} {m : ℕ} {mapToWorker : ℕ → Fin m}
variable {s s' : QueueingLogicRL P m} {u : QueueingLogic P m} {history : List (Call P m)}

def QueueInfo.basic (info : QueueInfo) : QueueingLogic.QueueInfo where
  size := info.size
  capacity := info.capacity

def QE.basic (qe : QE P) : QueueingLogic.QE P where
  e := qe.e
  queueId := qe.queueId

/-- The priority queues hold the elements of the deques in their order, and no push
waits. -/
structure Refines (s : QueueingLogicRL P m) (u : QueueingLogic P m) : Prop where
  capacity : u.capacity = s.capacity
  waiting : u.waiting = []
  queues : ∀ q t, u.getQueue q = (s.getQueue q t).basic
  workers : ∀ w, (u.workersInfo w).queue = (s.workersInfo w).queue.map QE.basic

namespace Refines

theorem initial (capacity : ℕ) :
    Refines (initial capacity : QueueingLogicRL P m) (.initial capacity) where
  capacity := rfl
  waiting := rfl
  queues _ _ := rfl
  workers _ := rfl

theorem setQueue (href : Refines s u) (q : ℕ) (info : QueueInfo) :
    Refines (s.setQueue q info) (u.setQueue q info.basic) where
  capacity := href.capacity
  waiting := href.waiting
  queues q' t := by
    rw [getQueue_setQueue, QueueingLogic.getQueue_setQueue]
    split
    · rfl
    · exact href.queues q' t
  workers := href.workers

theorem setWorker (href : Refines s u) (w : Fin m) {wInfo : WorkerInfo P}
    {uInfo : QueueingLogic.WorkerInfo P} (hqueue : uInfo.queue = wInfo.queue.map QE.basic) :
    Refines (s.setWorker w wInfo) (u.setWorker w uInfo) where
  capacity := href.capacity
  waiting := href.waiting
  queues := href.queues
  workers w' := by
    rw [workersInfo_setWorker, QueueingLogic.workersInfo_setWorker]
    split
    · exact hqueue
    · exact href.workers w'

theorem setCapacityForAll (href : Refines s u) (c : ℕ) :
    Refines (s.setCapacityForAll c) (u.setCapacityForAll c) where
  capacity := rfl
  waiting := href.waiting
  queues q t := by
    rw [getQueue_setCapacityForAll, QueueingLogic.getQueue_setCapacityForAll, href.queues q t]
    rfl
  workers := href.workers

theorem setQueue_same (href : Refines s u) {q : ℕ} {info : QueueInfo} {created : Ticks}
    (hsame : info.basic = (s.getQueue q created).basic) : Refines (s.setQueue q info) u where
  capacity := href.capacity
  waiting := href.waiting
  queues q' t := by
    rw [getQueue_setQueue]
    split
    next hq =>
      subst q'
      rw [href.queues q created, hsame]
    next => exact href.queues q' t
  workers := href.workers

theorem setRate (href : Refines s u) (q pps : ℕ) (created : Ticks) :
    Refines (s.setRate q pps created) u :=
  href.setQueue_same (show _ = (s.getQueue q created).basic from rfl)

theorem setRateForAll (href : Refines s u) (pps : ℕ) : Refines (s.setRateForAll pps) u where
  capacity := href.capacity
  waiting := href.waiting
  queues q t := by
    rw [getQueue_setRateForAll]
    exact href.queues q t
  workers := href.workers

theorem isFull (href : Refines s u) (q : ℕ) (created : Ticks) :
    u.isFull q = decide ((s.getQueue q created).capacity ≤ (s.getQueue q created).size) := by
  rw [QueueingLogic.isFull, href.queues q created]
  rfl

/-- The simulation of a push which is accepted. -/
theorem accepted (href : Refines s u) (hinv : Inv mapToWorker s history) {q : ℕ} {item : P}
    {created now : Ticks} (hroom : (s.getQueue q created).size < (s.getQueue q created).capacity)
    (hwrap : acceptedBy mapToWorker (mapToWorker q) history < 2 ^ 64)
    (hnow : ∀ qe ∈ (s.workersInfo (mapToWorker q)).queue, qe.send ≤ now) :
    Refines (s.pushFront mapToWorker q item created now).1 (u.pushFront mapToWorker q item).1 ∧
      (u.pushFront mapToWorker q item).2 = .pushed := by
  have hentry := href.queues q created
  have hfull : u.isFull q = false := by
    rw [href.isFull q created]
    exact decide_eq_false (not_le.mpr hroom)
  simp only [QueueingLogicRL.pushFront, QueueingLogic.pushFront, hfull, if_neg (not_le.mpr hroom),
    Bool.false_eq_true, if_false, QueueingLogic.emplaceFront, hentry, QueueInfo.basic]
  refine ⟨(href.setQueue q _).setWorker _ ?_, trivial⟩
  rw [emplace_queue, PriorityQueue.push_eq_concat, List.map_append, href.workers]
  · rfl
  · intro qe hqe
    rw [QE.key, QE.key, Prod.Lex.toLex_le_toLex]
    have hsend : qe.send ≤ (s.getQueue q created).getNextTp now :=
      (hnow qe hqe).trans (le_max_left _ _)
    cases lt_or_eq_of_le hsend with
    | inl hlt => exact Or.inl hlt
    | inr heq =>
        refine Or.inr ⟨heq, ?_⟩
        change qe.id ≤ (s.workersInfo (mapToWorker q)).wrappingCounter
        rw [hinv.counter, Nat.mod_eq_of_lt hwrap]
        exact (hinv.ids _ qe hqe).le

/-- The simulation of a pop, which never waits for a time. -/
theorem popBack (href : Refines s u) (hinv : Inv mapToWorker s history) {w : Fin m}
    {now : Ticks} {outcome : PopOutcome P}
    (hnow : ∀ qe ∈ (s.workersInfo w).queue, qe.send ≤ now)
    (hpop : s.popBack w now = some (s', outcome)) :
    ∃ u', Refines s' u' ∧ u.step mapToWorker (.popBack w) =
      some (u', Call.basic (⟨.popBack w now, .popped outcome⟩ : Call P m)) := by
  have hworker := href.workers w
  cases popBack_cases hpop with
  | wait hqueue =>
      refine ⟨u, href, ?_⟩
      rw [hqueue, List.map_nil] at hworker
      simp only [QueueingLogic.step, QueueingLogic.popBack, hworker, Option.map_some, Call.basic]
  | @waitUntil top rest hqueue hsend =>
      exact absurd (hnow top (by simp [hqueue])) (not_le.mpr hsend)
  | @output top rest info hqueue hsend hinfo =>
      have hentry := href.queues top.queueId now
      have hfound : ∃ found, u.queuesInfo top.queueId = some found ∧ found = info.basic := by
        rw [QueueingLogic.getQueue, getQueue, hinfo] at hentry
        cases hslot : u.queuesInfo top.queueId with
        | some found => exact ⟨found, rfl, by simpa [hslot] using hentry⟩
        | none =>
            have hempty : info.size = 0 := by
              rw [hslot] at hentry
              exact (congrArg QueueingLogic.QueueInfo.size hentry).symm
            have hsize := hinv.size_top_ne_zero hqueue
            rw [QueueingLogicRL.size, hinfo] at hsize
            exact absurd hempty hsize
      obtain ⟨found, hslot, rfl⟩ := hfound
      rw [hqueue, List.map_cons] at hworker
      refine ⟨(u.setQueue top.queueId
        (QueueInfo.basic { info with size := info.size - 1 })).setWorker w
          { queue := rest.map QE.basic }, (href.setQueue _ _).setWorker w rfl, ?_⟩
      simp only [QueueingLogic.step, QueueingLogic.popBack, hworker, QE.basic, hslot,
        Option.map_some, Call.basic]
      rfl

end Refines

theorem step_pushFront (s : QueueingLogicRL P m) (q : ℕ) (item : P) (created now : Ticks) :
    s.step mapToWorker (.pushFront q item created now) =
      some ((s.pushFront mapToWorker q item created now).1,
        [⟨.pushFront q item created now,
          .pushed (s.pushFront mapToWorker q item created now).2⟩]) := rfl

theorem exists_result {op : Op P m} {calls : List (Call P m)}
    (hstep : s.step mapToWorker op = some (s', calls)) : ∃ result, calls = [⟨op, result⟩] := by
  cases op with
  | popBack w now =>
      obtain ⟨popped, -, heq⟩ := Option.map_eq_some_iff.mp hstep
      exact ⟨_, (Prod.mk.inj heq).2.symm⟩
  | _ => exact ⟨_, (Prod.mk.inj (Option.some.inj hstep)).2.symm⟩

theorem waitUntil_of_step {op : Op P m} {t : Ticks}
    (hstep : s.step mapToWorker op = some (s', [⟨op, .popped (.waitUntil t)⟩])) :
    ∃ w now, op = .popBack w now ∧ ∃ top rest,
      (s.workersInfo w).queue = top :: rest ∧ now < top.send := by
  cases op with
  | popBack w now =>
      obtain ⟨⟨t', outcome⟩, hpop, heq⟩ := Option.map_eq_some_iff.mp hstep
      obtain ⟨-, heq⟩ := Prod.mk.inj heq
      simp only [List.cons.injEq, Call.mk.injEq, Result.popped.injEq, and_true, true_and] at heq
      subst outcome
      cases popBack_cases hpop with
      | @waitUntil top rest hqueue hsend => exact ⟨w, now, rfl, top, rest, hqueue, hsend⟩
  | _ => simp [step] at hstep

theorem step_refines (href : Refines s u) (hinv : Inv mapToWorker s history) {op : Op P m}
    {calls : List (Call P m)} (hop : op.Unlimited)
    (hwrap : ∀ w, op.pushesTo mapToWorker w → acceptedBy mapToWorker w history < 2 ^ 64)
    (hnow : ∀ t ∈ op.readings.getLast?, ∀ w, ∀ qe ∈ (s.workersInfo w).queue, qe.send ≤ t)
    (hstep : s.step mapToWorker op = some (s', calls)) :
    ∃ u', u.run mapToWorker (calls.flatMap Call.basicOp) =
      some (u', calls.flatMap Call.basic) ∧ Refines s' u' := by
  cases op with
  | pushFront q item created now =>
      rw [step_pushFront] at hstep
      obtain ⟨rfl, rfl⟩ := Prod.mk.inj (Option.some.inj hstep)
      by_cases hroom : (s.getQueue q created).size < (s.getQueue q created).capacity
      · obtain ⟨href', hresult⟩ := href.accepted hinv hroom
          (hwrap _ (by simp [Op.pushesTo])) (hnow now (by simp [Op.readings]) _)
        have haccepted : (s.pushFront mapToWorker q item created now).2 = true := by
          simp only [pushFront, if_neg (not_le.mpr hroom)]
        refine ⟨_, ?_, href'⟩
        rw [haccepted, List.flatMap_singleton, List.flatMap_singleton, Call.basicOp,
          QueueingLogic.run, exec_singleton, QueueingLogic.step_pushFront, hresult, Call.basic]
      · have hrefused : s.pushFront mapToWorker q item created now =
            (s.setQueue q (s.getQueue q created), false) := by
          simp only [pushFront, if_pos (not_lt.mp hroom)]
        rw [hrefused]
        exact ⟨u, rfl, href.setQueue_same rfl⟩
  | popBack w now =>
      obtain ⟨⟨t, outcome⟩, hpop, heq⟩ := Option.map_eq_some_iff.mp hstep
      obtain ⟨rfl, rfl⟩ := Prod.mk.inj heq
      obtain ⟨u', href', hstep'⟩ := href.popBack hinv (hnow now (by simp [Op.readings]) w) hpop
      refine ⟨u', ?_, href'⟩
      rw [List.flatMap_singleton, List.flatMap_singleton, Call.basicOp, QueueingLogic.run,
        exec_singleton, hstep']
  | setCapacity q c created =>
      obtain ⟨rfl, rfl⟩ := Prod.mk.inj (Option.some.inj hstep)
      refine ⟨_, exec_singleton _ _, ?_⟩
      rw [QueueingLogic.setCapacity, href.queues q created]
      exact href.setQueue q _
  | setCapacityForAll c =>
      obtain ⟨rfl, rfl⟩ := Prod.mk.inj (Option.some.inj hstep)
      exact ⟨_, exec_singleton _ _, href.setCapacityForAll c⟩
  | setRate q pps created =>
      obtain ⟨rfl, rfl⟩ := Prod.mk.inj (Option.some.inj hstep)
      exact ⟨u, rfl, href.setRate q pps created⟩
  | setRateForAll pps =>
      obtain ⟨rfl, rfl⟩ := Prod.mk.inj (Option.some.inj hstep)
      exact ⟨u, rfl, href.setRateForAll pps⟩

/-- No rate other than 0 is ever set and the clock does not run backwards. -/
structure UnlimitedRun (mapToWorker : ℕ → Fin m) (ops : List (Op P m)) : Prop where
  counter : WithinCounter mapToWorker ops
  unlimited : ∀ op ∈ ops, op.Unlimited
  sorted : (ops.flatMap Op.readings).Pairwise (· ≤ ·)

theorem UnlimitedRun.before {ops : List (Op P m)} {op : Op P m}
    (hops : UnlimitedRun mapToWorker (ops ++ [op])) : UnlimitedRun mapToWorker ops where
  counter := hops.counter.before
  unlimited o ho := hops.unlimited o (by simp [ho])
  sorted := by
    have hsorted := hops.sorted
    rw [List.flatMap_append] at hsorted
    exact (List.pairwise_append.mp hsorted).1

theorem UnlimitedRun.meters {ops : List (Op P m)} {op : Op P m}
    (hops : UnlimitedRun mapToWorker (ops ++ [op])) (hmap : history.map Call.op = ops)
    {t : Ticks} (ht : t ∈ op.readings.getLast?) (q : ℕ) : (meterOf q history).Unlimited t := by
  have hmem : ∀ call ∈ history, call.op ∈ ops := fun call hcall => by
    rw [← hmap]
    exact List.mem_map_of_mem hcall
  refine meterOf_unlimited q (fun call hcall => hops.unlimited _ (by simp [hmem call hcall])) ?_
  intro call hcall r hr
  have hsorted := hops.sorted
  rw [List.flatMap_append, List.pairwise_append] at hsorted
  refine hsorted.2.2 r (List.mem_flatMap.mpr ⟨call.op, hmem call hcall, hr⟩) t ?_
  rw [List.flatMap_singleton]
  exact List.mem_of_getLast? ht

/-- A push which is refused would have to wait. -/
theorem waits_of_refused (href : Refines s u) {q : ℕ} {item : P} {created now : Ticks}
    (hstep : s.step mapToWorker (.pushFront q item created now) =
      some (s', [⟨.pushFront q item created now, .pushed false⟩])) :
    (u.pushFront mapToWorker q item).2 = .waitNotFull := by
  rw [step_pushFront, Option.some.injEq, Prod.mk.injEq] at hstep
  have hrefused : (s.pushFront mapToWorker q item created now).2 = false := by
    simpa using hstep.2
  have hfull : (s.getQueue q created).capacity ≤ (s.getQueue q created).size := by
    by_contra hroom
    simp [pushFront, hroom] at hrefused
  rw [QueueingLogic.pushFront, href.isFull q created, decide_eq_true hfull]
  rfl

/-- What a run shows of the same run on `QueueingLogic`. -/
structure Corresponds (mapToWorker : ℕ → Fin m) (capacity : ℕ) (s : QueueingLogicRL P m)
    (history : List (Call P m)) (u : QueueingLogic P m) : Prop where
  run : QueueingLogic.run mapToWorker (.initial capacity) (history.flatMap Call.basicOp) =
    some (u, history.flatMap Call.basic)
  refines : Refines s u
  ready : ∀ call ∈ history, ∀ t, call.result ≠ .popped (.waitUntil t)
  refused : ∀ before q item created now after,
    history = before ++ ⟨.pushFront q item created now, .pushed false⟩ :: after →
      ∀ u' results, QueueingLogic.run mapToWorker (.initial capacity)
        (before.flatMap Call.basicOp) = some (u', results) →
          (u'.pushFront mapToWorker q item).2 = .waitNotFull

theorem Corresponds.step {capacity : ℕ} {op : Op P m} {calls : List (Call P m)}
    (hbefore : Corresponds mapToWorker capacity s history u) (hinv : Inv mapToWorker s history)
    (hop : op.Unlimited)
    (hwrap : ∀ w, op.pushesTo mapToWorker w → acceptedBy mapToWorker w history < 2 ^ 64)
    (hnow : ∀ t ∈ op.readings.getLast?, ∀ w, ∀ qe ∈ (s.workersInfo w).queue, qe.send ≤ t)
    (hstep : s.step mapToWorker op = some (s', calls)) :
    ∃ u', Corresponds mapToWorker capacity s' (history ++ calls) u' := by
  obtain ⟨u', hlast, href⟩ := step_refines hbefore.refines hinv hop hwrap hnow hstep
  obtain ⟨result, rfl⟩ := exists_result hstep
  refine ⟨u', ?_, href, ?_, ?_⟩
  · rw [List.flatMap_append, List.flatMap_append]
    exact exec_append_eq_some.mpr ⟨u, _, _, hbefore.run, hlast, rfl⟩
  · intro call hcall t hresult
    cases List.mem_append.mp hcall with
    | inl hold => exact hbefore.ready call hold t hresult
    | inr hnew =>
        obtain rfl := List.mem_singleton.mp hnew
        obtain rfl : result = .popped (.waitUntil t) := hresult
        obtain ⟨w, now, rfl, top, rest, hqueue, hsend⟩ := waitUntil_of_step hstep
        exact absurd (hnow now (by simp [Op.readings]) w top (by simp [hqueue]))
          (not_le.mpr hsend)
  · intro before q item created now after hsplit u'' results hrun
    rcases List.eq_nil_or_concat after with rfl | ⟨after, last, rfl⟩
    · obtain ⟨rfl, heq⟩ := List.append_inj' hsplit rfl
      obtain ⟨rfl, rfl⟩ := Call.mk.inj (List.singleton_inj.mp heq)
      rw [hbefore.run, Option.some.injEq, Prod.mk.injEq] at hrun
      rw [← hrun.1]
      exact waits_of_refused hbefore.refines hstep
    · rw [List.concat_eq_append, ← List.cons_append, ← List.append_assoc] at hsplit
      exact hbefore.refused before q item created now after (List.append_inj' hsplit rfl).1 u''
        results hrun

/-- Without rates the calls, less the pushes which are refused, do what they do on
`QueueingLogic`, where no push has to wait, and a push is refused exactly where it would
have to wait there.  No call waits for a time. -/
theorem behaves_as_queueingLogic (mapToWorker : ℕ → Fin m) (capacity : ℕ) (ops : List (Op P m))
    (hops : UnlimitedRun mapToWorker ops) :
    ∃ s history u, run mapToWorker (initial capacity) ops = some (s, history) ∧
      history.map Call.op = ops ∧
      QueueingLogic.run mapToWorker (.initial capacity) (history.flatMap Call.basicOp) =
        some (u, history.flatMap Call.basic) ∧
      (∀ q, s.size q = u.size q) ∧ u.waiting = [] ∧
      (∀ call ∈ history, ∀ t, call.result ≠ .popped (.waitUntil t)) ∧
      ∀ before q item created now after,
        history = before ++ ⟨.pushFront q item created now, .pushed false⟩ :: after →
          ∀ u' results, QueueingLogic.run mapToWorker (.initial capacity)
            (before.flatMap Call.basicOp) = some (u', results) →
              (u'.pushFront mapToWorker q item).2 = .waitNotFull := by
  obtain ⟨s, history, hrun⟩ := run_isSome mapToWorker capacity ops hops.counter
  have hall := exec_invariant
    (I := fun ops (s : QueueingLogicRL P m) history => UnlimitedRun mapToWorker ops →
      ∃ u, Corresponds mapToWorker capacity s history u)
    (fun _ => ⟨_, rfl, Refines.initial capacity, by simp, by simp⟩) ?_ hrun
  · obtain ⟨u, hcorresponds⟩ := hall hops
    refine ⟨s, history, u, hrun, (inv_of_run hops.counter hrun).1, hcorresponds.run,
      fun q => ?_, hcorresponds.refines.waiting, hcorresponds.ready, hcorresponds.refused⟩
    have hentry := congrArg QueueingLogic.QueueInfo.size (hcorresponds.refines.queues q 0)
    simp only [QueueingLogic.getQueue, getQueue, QueueInfo.basic] at hentry
    rw [size, QueueingLogic.size]
    cases hs : s.queuesInfo q <;> cases hu : u.queuesInfo q <;>
      simp_all [QueueInfo.new]
  · intro ops s history op s' calls hrun ih hstep hunlimited
    obtain ⟨u, hbefore⟩ := ih hunlimited.before
    obtain ⟨hmap, hinv⟩ := inv_of_run hunlimited.before.counter hrun
    have hwrap : ∀ w, op.pushesTo mapToWorker w → acceptedBy mapToWorker w history < 2 ^ 64 := by
      intro w hw
      have hle := hunlimited.counter w
      have hbefore : acceptedBy mapToWorker w history ≤ _ := acceptedBy_le hmap w
      rw [List.countP_append, List.countP_singleton, if_pos hw] at hle
      omega
    exact hbefore.step hinv (hunlimited.unlimited op (by simp)) hwrap
      (fun t ht w qe hqe => hinv.send_le (hunlimited.meters hmap ht) hqe) hstep

/-- The push of `b` finds the queue full and is refused. -/
theorem behaves_as_queueingLogic_full_queue :
    ∃ s history u, run (fun _ => (0 : Fin 1)) (initial 1)
        [.setRate 7 0 0, .pushFront 7 'a' 1 1, .pushFront 7 'b' 2 2, .popBack 0 3,
          .pushFront 7 'c' 4 4, .popBack 0 5] = some (s, history) ∧
      QueueingLogic.run (fun _ => (0 : Fin 1)) (.initial 1) (history.flatMap Call.basicOp) =
        some (u, history.flatMap Call.basic) ∧
      history.flatMap Call.basic = [.pushed, .popped 7 'a', .pushed, .popped 7 'c'] ∧
      (∀ q, s.size q = u.size q) ∧ u.waiting = [] := by
  have heval : (run (fun _ => (0 : Fin 1)) (initial 1)
      [.setRate 7 0 0, .pushFront 7 'a' 1 1, .pushFront 7 'b' 2 2, .popBack 0 3,
        .pushFront 7 'c' 4 4, .popBack 0 5]).map (fun result => result.2.flatMap Call.basic) =
          some [.pushed, .popped 7 'a', .pushed, .popped 7 'c'] := by
    decide +kernel
  obtain ⟨s, history, u, hrun, -, hbasic, hsize, hwaiting, -, -⟩ :=
    behaves_as_queueingLogic (fun _ => (0 : Fin 1)) 1 [.setRate 7 0 0, .pushFront 7 'a' 1 1,
      .pushFront 7 'b' 2 2, .popBack 0 3, .pushFront 7 'c' 4 4, .popBack 0 5] {
        counter := fun w => by
          have hw : w = 0 := Subsingleton.elim w 0
          subst w
          decide
        unlimited := by simp [Op.Unlimited]
        sorted := by decide }
  rw [hrun, Option.map_some, Option.some.injEq] at heval
  exact ⟨s, history, u, hrun, hbasic, heval, hsize, hwaiting⟩

end QueueingLogicRL

end Cmcs
