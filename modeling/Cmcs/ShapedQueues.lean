import Cmcs.PacketShaper
import Cmcs.PriorityQueue
import Cmcs.QueueingLogicRL
import Mathlib.Data.Prod.Lex
import Mathlib.Tactic

/-!
# Order and rate of `QueueingLogicRL`

What an observer of the calls can write down about one logical queue, and the
invariant which connects it with the state: the elements which wait are those
accepted and not yet taken, in this order, and they wait for the releases of the
greedy shaper.  The ids order elements with one send time until the counter of
the worker wraps, hence the bound on the number of pushes.
-/

namespace Cmcs

open TransitionSystem

namespace QueueingLogicRL

variable {P : Type} {m : ℕ}

theorem rateToTicks_nonneg (pps : ℕ) : 0 ≤ rateToTicks pps := by
  unfold rateToTicks
  split
  · exact le_rfl
  · refine Int.tdiv_nonneg (Rat.num_nonneg.mpr ?_) (Int.natCast_nonneg _)
    positivity

/-! ## The priority queue -/

def QE.key (qe : QE P) : Ticks ×ₗ ℕ := toLex (qe.send, qe.id)

theorem qeComp_iff {lhs rhs : QE P} : QEComp lhs rhs ↔ rhs.key < lhs.key := by
  rw [QEComp, QE.key, QE.key, Prod.Lex.toLex_lt_toLex]
  split
  next heq => simp [heq]
  next hne => simp [Ne.symm hne]

theorem emplace_queue (wInfo : WorkerInfo P) (item : P) (q : ℕ) (send : Ticks) :
    (wInfo.emplace item q send).queue =
      PriorityQueue.push QE.key ⟨item, q, send, wInfo.wrappingCounter⟩ wInfo.queue := by
  unfold WorkerInfo.emplace PriorityQueue.push
  simp only [qeComp_iff]

/-! ## What the calls show of one queue -/

/-- The clock reading of the creation, the rate in force, the elements accepted
and the elements taken with the readings at which they were. -/
structure Meter (P : Type) where
  created : Option Ticks := none
  rate : ℕ := 0
  accepted : List (P × PacketShaper.Arrival Ticks) := []
  taken : List (P × Ticks) := []

def Meter.touch (meter : Meter P) (now : Ticks) : Meter P :=
  { meter with created := some (meter.created.getD now) }

def Meter.record (q : ℕ) (meter : Meter P) (call : Call P m) : Meter P :=
  match call.op, call.result with
  | .pushFront qid item created now, .pushed accepted =>
      if qid = q then
        if accepted then
          { meter.touch created with
            accepted := meter.accepted ++ [(item, ⟨now, rateToTicks meter.rate⟩)] }
        else meter.touch created
      else meter
  | .popBack _ now, .popped (.output qid item) =>
      if qid = q then { meter with taken := meter.taken ++ [(item, now)] } else meter
  | .setCapacity qid _ created, _ => if qid = q then meter.touch created else meter
  | .setRate qid pps created, _ =>
      if qid = q then { meter.touch created with rate := pps } else meter
  | .setRateForAll pps, _ => { meter with rate := pps }
  | _, _ => meter

def meterOf (q : ℕ) (history : List (Call P m)) : Meter P :=
  history.foldl (Meter.record q) {}

theorem meterOf_concat (q : ℕ) (history : List (Call P m)) (call : Call P m) :
    meterOf q (history ++ [call]) = (meterOf q history).record q call :=
  List.foldl_concat ..

/-- When the greedy shaper releases the elements accepted, for a queue created at
`start`. -/
def Meter.releases (meter : Meter P) (start : Ticks) : List Ticks :=
  PacketShaper.releases start (meter.accepted.map Prod.snd)

/-- The elements of queue `q` which wait, the next one first. -/
def queued (mapToWorker : ℕ → Fin m) (s : QueueingLogicRL P m) (q : ℕ) : List (QE P) :=
  (s.workersInfo (mapToWorker q)).queue.filter fun qe => qe.queueId = q

/-- One queue and what was seen of it.  The entry is what `get_queue` returns at
a given clock reading. -/
structure QueueInv (entry : Ticks → QueueInfo) (waiting : List (QE P)) (meter : Meter P) :
    Prop where
  size : ∀ t, (entry t).size = waiting.length
  delay : ∀ t, (entry t).pktDelayTicks = rateToTicks meter.rate
  lastSent : ∀ t, (entry t).lastSent =
    PacketShaper.lastRelease (meter.created.getD t) (meter.accepted.map Prod.snd)
  gaps : ∀ a ∈ meter.accepted.map Prod.snd, 0 ≤ a.gap
  fifo : meter.accepted.map Prod.fst = meter.taken.map Prod.fst ++ waiting.map QE.e
  released : ∀ t, ∃ sent, meter.releases (meter.created.getD t) = sent ++ waiting.map QE.send ∧
    List.Forall₂ (· ≤ ·) sent (meter.taken.map Prod.snd)

namespace QueueInv

variable {entry : Ticks → QueueInfo} {waiting : List (QE P)} {meter : Meter P}

theorem le_lastSent (hinv : QueueInv entry waiting meter) (t : Ticks) :
    ∀ qe ∈ waiting, qe.send ≤ (entry t).lastSent := by
  intro qe hqe
  rcases hinv.released t with ⟨sent, hsplit, -⟩
  rw [hinv.lastSent]
  refine PacketShaper.le_lastRelease_of_mem hinv.gaps _ ?_
  rw [← Meter.releases, hsplit]
  exact List.mem_append_right sent (List.mem_map_of_mem hqe)

theorem touch (hinv : QueueInv entry waiting meter) (now : Ticks) :
    QueueInv (fun _ => entry now) waiting (meter.touch now) where
  size _ := hinv.size now
  delay _ := hinv.delay now
  lastSent _ := hinv.lastSent now
  gaps := hinv.gaps
  fifo := hinv.fifo
  released _ := hinv.released now

theorem capacity (hinv : QueueInv entry waiting meter) (c : ℕ) :
    QueueInv (fun t => { entry t with capacity := c }) waiting meter where
  size := hinv.size
  delay := hinv.delay
  lastSent := hinv.lastSent
  gaps := hinv.gaps
  fifo := hinv.fifo
  released := hinv.released

theorem setRate (hinv : QueueInv entry waiting meter) (pps : ℕ) :
    QueueInv (fun t => (entry t).setRate pps) waiting { meter with rate := pps } where
  size := hinv.size
  delay _ := rfl
  lastSent := hinv.lastSent
  gaps := hinv.gaps
  fifo := hinv.fifo
  released := hinv.released

theorem push (hinv : QueueInv entry waiting meter) (created now : Ticks) (item : P)
    (q id : ℕ) :
    QueueInv (fun _ => { entry created with
        lastSent := (entry created).getNextTp now, size := (entry created).size + 1 })
      (waiting ++ [⟨item, q, (entry created).getNextTp now, id⟩])
      { meter.touch created with
        accepted := meter.accepted ++ [(item, ⟨now, rateToTicks meter.rate⟩)] } := by
  have htp : (entry created).getNextTp now =
      PacketShaper.release ((entry created).lastSent) ⟨now, rateToTicks meter.rate⟩ := by
    rw [← hinv.delay created]
    rfl
  constructor
  · intro t
    rw [List.length_append, ← hinv.size created]
    rfl
  · intro t
    exact hinv.delay created
  · intro t
    rw [List.map_append, List.map_singleton, PacketShaper.lastRelease_concat]
    change (entry created).getNextTp now = _
    rw [htp, hinv.lastSent created]
    rfl
  · intro a ha
    rw [List.map_append, List.mem_append, List.map_singleton, List.mem_singleton] at ha
    cases ha with
    | inl hbefore => exact hinv.gaps a hbefore
    | inr hlast =>
        rw [hlast]
        exact rateToTicks_nonneg meter.rate
  · simp [hinv.fifo, Meter.touch]
  · intro t
    rcases hinv.released created with ⟨sent, hsplit, hsent⟩
    refine ⟨sent, ?_, hsent⟩
    rw [Meter.releases, List.map_append, List.map_singleton, PacketShaper.releases_concat]
    change meter.releases (meter.created.getD created) ++ _ = _
    rw [hsplit, List.map_append, List.append_assoc, List.map_singleton, htp,
      hinv.lastSent created]
    rfl

theorem pop {top : QE P} {rest : List (QE P)} (hinv : QueueInv entry (top :: rest) meter)
    {now : Ticks} (hsend : top.send ≤ now) :
    QueueInv (fun t => { entry t with size := (entry t).size - 1 }) rest
      { meter with taken := meter.taken ++ [(top.e, now)] } where
  size t := by
    change (entry t).size - 1 = _
    rw [hinv.size t]
    rfl
  delay := hinv.delay
  lastSent := hinv.lastSent
  gaps := hinv.gaps
  fifo := by simp [hinv.fifo]
  released t := by
    rcases hinv.released t with ⟨sent, hsplit, hsent⟩
    refine ⟨sent ++ [top.send], ?_, ?_⟩
    · change meter.releases (meter.created.getD t) = _
      rw [hsplit, List.map_cons, List.append_assoc, List.singleton_append]
    · rw [List.map_append]
      exact List.rel_append hsent (.cons hsend .nil)

end QueueInv

/-! ## The state -/

section State

variable (mapToWorker : ℕ → Fin m) (s : QueueingLogicRL P m)

theorem getQueue_setQueue (q : ℕ) (info : QueueInfo) (q' : ℕ) :
    (s.setQueue q info).getQueue q' =
      if q' = q then fun _ => info else s.getQueue q' := by
  funext t
  by_cases hq : q' = q <;> simp [getQueue, setQueue, hq]

@[simp] theorem getQueue_setWorker (w : Fin m) (wInfo : WorkerInfo P) (q : ℕ) :
    (s.setWorker w wInfo).getQueue q = s.getQueue q := rfl

@[simp] theorem workersInfo_setQueue (q : ℕ) (info : QueueInfo) :
    (s.setQueue q info).workersInfo = s.workersInfo := rfl

theorem workersInfo_setWorker (w : Fin m) (wInfo : WorkerInfo P) (w' : Fin m) :
    (s.setWorker w wInfo).workersInfo w' = if w' = w then wInfo else s.workersInfo w' := by
  by_cases hw : w' = w
  · subst w'
    simp [setWorker]
  · simp [setWorker, hw]

theorem getQueue_setCapacityForAll (c q : ℕ) :
    (s.setCapacityForAll c).getQueue q =
      fun t => { s.getQueue q t with capacity := c } := by
  funext t
  simp only [setCapacityForAll, getQueue]
  cases s.queuesInfo q <;> rfl

theorem getQueue_setRateForAll (pps q : ℕ) :
    (s.setRateForAll pps).getQueue q = fun t => (s.getQueue q t).setRate pps := by
  funext t
  simp only [setRateForAll, getQueue]
  cases s.queuesInfo q <;> rfl

end State

variable {mapToWorker : ℕ → Fin m} {s s' : QueueingLogicRL P m}
variable {history : List (Call P m)} {call : Call P m}

theorem queued_congr {q : ℕ}
    (hqueue : (s'.workersInfo (mapToWorker q)).queue = (s.workersInfo (mapToWorker q)).queue) :
    queued mapToWorker s' q = queued mapToWorker s q := by
  rw [queued, queued, hqueue]

def Call.acceptedBy (mapToWorker : ℕ → Fin m) (w : Fin m) (call : Call P m) : Bool :=
  match call.op, call.result with
  | .pushFront q _ _ _, .pushed true => mapToWorker q = w
  | _, _ => false

def acceptedBy (mapToWorker : ℕ → Fin m) (w : Fin m) (history : List (Call P m)) : ℕ :=
  history.countP (Call.acceptedBy mapToWorker w)

theorem acceptedBy_concat (w : Fin m) :
    acceptedBy mapToWorker w (history ++ [call]) =
      acceptedBy mapToWorker w history + if call.acceptedBy mapToWorker w then 1 else 0 := by
  rw [acceptedBy, List.countP_append, List.countP_singleton]
  rfl

/-- The invariant of the block.  It is kept as long as no counter has wrapped. -/
structure Inv (mapToWorker : ℕ → Fin m) (s : QueueingLogicRL P m)
    (history : List (Call P m)) : Prop where
  owned : ∀ w, ∀ qe ∈ (s.workersInfo w).queue, mapToWorker qe.queueId = w
  ordered : ∀ w, PriorityQueue.Ordered QE.key (s.workersInfo w).queue
  counter : ∀ w, (s.workersInfo w).wrappingCounter = acceptedBy mapToWorker w history % 2 ^ 64
  ids : ∀ w, ∀ qe ∈ (s.workersInfo w).queue, qe.id < acceptedBy mapToWorker w history
  queues : ∀ q, QueueInv (s.getQueue q) (queued mapToWorker s q) (meterOf q history)

namespace Inv

theorem initial (mapToWorker : ℕ → Fin m) (capacity : ℕ) :
    Inv mapToWorker (initial capacity : QueueingLogicRL P m) [] where
  owned w qe hqe := by simp [QueueingLogicRL.initial] at hqe
  ordered _ := List.Pairwise.nil
  counter _ := rfl
  ids w qe hqe := by simp [QueueingLogicRL.initial] at hqe
  queues q := {
    size := fun _ => rfl
    delay := fun _ => rfl
    lastSent := fun _ => rfl
    gaps := by simp [meterOf]
    fifo := rfl
    released := fun _ => ⟨[], rfl, .nil⟩ }

theorem of_workersInfo (hinv : Inv mapToWorker s history)
    (hworkers : s'.workersInfo = s.workersInfo)
    (hcall : ∀ w, call.acceptedBy mapToWorker w = false)
    (hqueues : ∀ q, QueueInv (s'.getQueue q) (queued mapToWorker s q)
      ((meterOf q history).record q call)) :
    Inv mapToWorker s' (history ++ [call]) where
  owned := by rw [hworkers]; exact hinv.owned
  ordered := by rw [hworkers]; exact hinv.ordered
  counter w := by
    rw [hworkers, acceptedBy_concat, hcall w]
    exact hinv.counter w
  ids w := by
    rw [hworkers, acceptedBy_concat, hcall w]
    exact hinv.ids w
  queues q := by
    rw [meterOf_concat, queued_congr (s := s) (by rw [hworkers])]
    exact hqueues q

theorem of_setQueue (hinv : Inv mapToWorker s history) (q : ℕ) (info : QueueInfo)
    (hcall : ∀ w, call.acceptedBy mapToWorker w = false)
    (hself : QueueInv (fun _ => info) (queued mapToWorker s q) ((meterOf q history).record q call))
    (hother : ∀ q', q' ≠ q → (meterOf q' history).record q' call = meterOf q' history) :
    Inv mapToWorker (s.setQueue q info) (history ++ [call]) := by
  refine hinv.of_workersInfo rfl hcall fun q' => ?_
  rw [getQueue_setQueue]
  by_cases hq : q' = q
  · subst q'
    rw [if_pos rfl]
    exact hself
  · rw [if_neg hq, hother q' hq]
    exact hinv.queues q'

theorem setQueue_idle {q : ℕ} (hinv : Inv mapToWorker s history) (item : P)
    (created now : Ticks) :
    Inv mapToWorker (s.setQueue q (s.getQueue q created))
      (history ++ [⟨.pushFront q item created now, .pushed false⟩]) := by
  refine hinv.of_setQueue q _ (fun _ => rfl) ?_ fun q' hq => ?_
  · simp only [Meter.record, if_true, Bool.false_eq_true, if_false]
    exact (hinv.queues q).touch created
  · simp [Meter.record, Ne.symm hq]

theorem setCapacity (hinv : Inv mapToWorker s history) (q c : ℕ) (created : Ticks) :
    Inv mapToWorker (s.setCapacity q c created)
      (history ++ [⟨.setCapacity q c created, .done⟩]) := by
  refine hinv.of_setQueue q _ (fun _ => rfl) ?_ fun q' hq => ?_
  · simp only [Meter.record, if_true]
    exact ((hinv.queues q).touch created).capacity c
  · simp [Meter.record, Ne.symm hq]

theorem setRate (hinv : Inv mapToWorker s history) (q pps : ℕ) (created : Ticks) :
    Inv mapToWorker (s.setRate q pps created)
      (history ++ [⟨.setRate q pps created, .done⟩]) := by
  refine hinv.of_setQueue q _ (fun _ => rfl) ?_ fun q' hq => ?_
  · simp only [Meter.record, if_true]
    exact ((hinv.queues q).touch created).setRate pps
  · simp [Meter.record, Ne.symm hq]

theorem setCapacityForAll (hinv : Inv mapToWorker s history) (c : ℕ) :
    Inv mapToWorker (s.setCapacityForAll c) (history ++ [⟨.setCapacityForAll c, .done⟩]) := by
  refine hinv.of_workersInfo rfl (fun _ => rfl) fun q => ?_
  rw [getQueue_setCapacityForAll]
  exact (hinv.queues q).capacity c

theorem setRateForAll (hinv : Inv mapToWorker s history) (pps : ℕ) :
    Inv mapToWorker (s.setRateForAll pps) (history ++ [⟨.setRateForAll pps, .done⟩]) := by
  refine hinv.of_workersInfo rfl (fun _ => rfl) fun q => ?_
  rw [getQueue_setRateForAll]
  exact (hinv.queues q).setRate pps

theorem wait (hinv : Inv mapToWorker s history) (w : Fin m) (now : Ticks)
    {outcome : PopOutcome P} (houtcome : ∀ q item, outcome ≠ .output q item) :
    Inv mapToWorker s (history ++ [⟨.popBack w now, .popped outcome⟩]) := by
  refine hinv.of_workersInfo rfl (fun _ => rfl) fun q => ?_
  cases outcome with
  | output q item => exact absurd rfl (houtcome q item)
  | wait => exact hinv.queues q
  | waitUntil send => exact hinv.queues q

theorem queued_emplace (hinv : Inv mapToWorker s history) (q : ℕ) (item : P) (created now : Ticks)
    (hwrap : acceptedBy mapToWorker (mapToWorker q) history < 2 ^ 64) (info : QueueInfo) (q' : ℕ) :
    queued mapToWorker ((s.setQueue q info).setWorker (mapToWorker q)
        ((s.workersInfo (mapToWorker q)).emplace item q ((s.getQueue q created).getNextTp now))) q' =
      queued mapToWorker s q' ++ if q' = q then
        [⟨item, q, (s.getQueue q created).getNextTp now,
          acceptedBy mapToWorker (mapToWorker q) history⟩] else [] := by
  have hid : (s.workersInfo (mapToWorker q)).wrappingCounter =
      acceptedBy mapToWorker (mapToWorker q) history := by
    rw [hinv.counter, Nat.mod_eq_of_lt hwrap]
  simp only [queued, workersInfo_setWorker, workersInfo_setQueue]
  by_cases hq : q' = q
  · subst q'
    rw [if_pos rfl, if_pos rfl, emplace_queue, hid]
    refine PriorityQueue.filter_push (hinv.ordered _) (by simp) ?_
    intro qe hqe hown
    have hwaits : qe ∈ queued mapToWorker s q := List.mem_filter.mpr ⟨hqe, hown⟩
    have hsend := (hinv.queues q).le_lastSent created qe hwaits
    have hdelay : 0 ≤ (s.getQueue q created).pktDelayTicks := by
      rw [(hinv.queues q).delay]
      exact rateToTicks_nonneg _
    have htp : qe.send ≤ (s.getQueue q created).getNextTp now :=
      hsend.trans ((le_add_of_nonneg_right hdelay).trans (le_max_right _ _))
    rw [QE.key, QE.key, Prod.Lex.toLex_le_toLex]
    cases lt_or_eq_of_le htp with
    | inl hlt => exact Or.inl hlt
    | inr heq => exact Or.inr ⟨heq, (hinv.ids _ qe hqe).le⟩
  · rw [if_neg hq, List.append_nil]
    by_cases hw : mapToWorker q' = mapToWorker q
    · rw [if_pos hw, emplace_queue, hw]
      exact PriorityQueue.filter_push_of_neg (by simpa using Ne.symm hq)
    · rw [if_neg hw]

theorem push (hinv : Inv mapToWorker s history) (q : ℕ) (item : P) (created now : Ticks)
    (hwrap : acceptedBy mapToWorker (mapToWorker q) history < 2 ^ 64) :
    Inv mapToWorker
      ((s.setQueue q { s.getQueue q created with
          lastSent := (s.getQueue q created).getNextTp now
          size := (s.getQueue q created).size + 1 }).setWorker (mapToWorker q)
        ((s.workersInfo (mapToWorker q)).emplace item q ((s.getQueue q created).getNextTp now)))
      (history ++ [⟨.pushFront q item created now, .pushed true⟩]) := by
  have hcount : ∀ w, acceptedBy mapToWorker w
      (history ++ [⟨.pushFront q item created now, .pushed true⟩]) =
        acceptedBy mapToWorker w history + if w = mapToWorker q then 1 else 0 := by
    intro w
    rw [acceptedBy_concat]
    simp [Call.acceptedBy, eq_comm]
  constructor
  · intro w qe hqe
    rw [workersInfo_setWorker] at hqe
    split at hqe
    next hw =>
      rw [emplace_queue] at hqe
      rcases PriorityQueue.mem_push.mp hqe with rfl | hqe
      · exact hw.symm
      · exact (hinv.owned _ qe hqe).trans hw.symm
    next => exact hinv.owned w qe hqe
  · intro w
    rw [workersInfo_setWorker]
    split
    next =>
      rw [emplace_queue]
      exact (hinv.ordered _).push
    next => exact hinv.ordered w
  · intro w
    rw [workersInfo_setWorker, hcount]
    split
    next hw =>
      subst w
      change ((s.workersInfo (mapToWorker q)).wrappingCounter + 1) % 2 ^ 64 = _
      rw [hinv.counter, Nat.mod_add_mod]
    next => exact hinv.counter w
  · intro w qe hqe
    rw [hcount]
    rw [workersInfo_setWorker] at hqe
    split at hqe
    next hw =>
      subst w
      rw [if_pos rfl]
      rw [emplace_queue] at hqe
      rcases PriorityQueue.mem_push.mp hqe with rfl | hqe
      · change (s.workersInfo (mapToWorker q)).wrappingCounter < _
        rw [hinv.counter, Nat.mod_eq_of_lt hwrap]
        exact Nat.lt_succ_self _
      · exact (hinv.ids _ qe hqe).trans (Nat.lt_succ_self _)
    next hw =>
      rw [if_neg hw]
      exact hinv.ids w qe hqe
  · intro q'
    rw [meterOf_concat, hinv.queued_emplace q item created now hwrap, getQueue_setWorker,
      getQueue_setQueue]
    by_cases hq : q' = q
    · subst q'
      simp only [if_true, Meter.record]
      exact (hinv.queues q).push created now item q _
    · simp only [hq, Ne.symm hq, if_false, Meter.record, List.append_nil]
      exact hinv.queues q'

theorem pop (hinv : Inv mapToWorker s history) {w : Fin m} {now : Ticks} {top : QE P}
    {rest : List (QE P)} (hqueue : (s.workersInfo w).queue = top :: rest)
    (hsend : top.send ≤ now) {info : QueueInfo} (hinfo : s.queuesInfo top.queueId = some info) :
    Inv mapToWorker
      ((s.setQueue top.queueId { info with size := info.size - 1 }).setWorker w
        { s.workersInfo w with queue := rest })
      (history ++ [⟨.popBack w now, .popped (.output top.queueId top.e)⟩]) := by
  have hcount : ∀ w', acceptedBy mapToWorker w'
      (history ++ [⟨.popBack w now, .popped (.output top.queueId top.e)⟩]) =
        acceptedBy mapToWorker w' history := by
    intro w'
    rw [acceptedBy_concat]
    rfl
  have howner : mapToWorker top.queueId = w := hinv.owned w top (by simp [hqueue])
  have hentry : ∀ t, s.getQueue top.queueId t = info := fun t => by rw [getQueue, hinfo]
  have hsub : ∀ w' qe, qe ∈ (if w' = w then ({ s.workersInfo w with queue := rest } : WorkerInfo P)
      else s.workersInfo w').queue → qe ∈ (s.workersInfo w').queue := by
    intro w' qe hqe
    split at hqe
    next hw =>
      rw [hw, hqueue]
      exact List.mem_cons_of_mem _ hqe
    next => exact hqe
  constructor
  · intro w' qe hqe
    rw [workersInfo_setWorker] at hqe
    exact hinv.owned w' qe (hsub w' qe hqe)
  · intro w'
    rw [workersInfo_setWorker]
    split
    next hw =>
      have hordered := (hinv.ordered w).tail
      rwa [hqueue] at hordered
    next => exact hinv.ordered w'
  · intro w'
    rw [workersInfo_setWorker, hcount]
    split
    next hw =>
      rw [hw]
      exact hinv.counter w
    next => exact hinv.counter w'
  · intro w' qe hqe
    rw [hcount]
    rw [workersInfo_setWorker] at hqe
    exact hinv.ids w' qe (hsub w' qe hqe)
  · intro q
    rw [meterOf_concat, getQueue_setWorker, getQueue_setQueue]
    by_cases hq : q = top.queueId
    · subst q
      have hwaits : queued mapToWorker s top.queueId =
          top :: rest.filter fun qe => qe.queueId = top.queueId := by
        rw [queued, howner, hqueue, List.filter_cons_of_pos (by simp)]
      have hself := hinv.queues top.queueId
      rw [hwaits] at hself
      simp only [if_true, Meter.record, queued, workersInfo_setWorker, howner]
      simpa only [hentry] using hself.pop hsend
    · have hkept : queued mapToWorker ((s.setQueue top.queueId
          { info with size := info.size - 1 }).setWorker w
            { s.workersInfo w with queue := rest }) q = queued mapToWorker s q := by
        simp only [queued, workersInfo_setWorker, workersInfo_setQueue]
        split
        next hw => rw [hw, hqueue, List.filter_cons_of_neg (by simpa using Ne.symm hq)]
        next => rfl
      rw [hkept, if_neg hq]
      simp only [Meter.record, Ne.symm hq, if_false]
      exact hinv.queues q

theorem size_eq (hinv : Inv mapToWorker s history) (q : ℕ) :
    s.size q = (queued mapToWorker s q).length := by
  have hsize := (hinv.queues q).size 0
  rw [← hsize, QueueingLogicRL.size, getQueue]
  cases s.queuesInfo q <;> rfl

theorem exists_entry (hinv : Inv mapToWorker s history) {w : Fin m} {top : QE P}
    (htop : top ∈ (s.workersInfo w).queue) : ∃ info, s.queuesInfo top.queueId = some info := by
  have hwaits : top ∈ queued mapToWorker s top.queueId := by
    rw [queued, hinv.owned w top htop]
    exact List.mem_filter.mpr ⟨htop, by simp⟩
  have hpos := List.length_pos_of_mem hwaits
  rw [← hinv.size_eq, QueueingLogicRL.size] at hpos
  cases hentry : s.queuesInfo top.queueId with
  | none => simp [hentry] at hpos
  | some info => exact ⟨info, rfl⟩

end Inv

/-- What one pass of `pop_back` does. -/
inductive PopCases (s : QueueingLogicRL P m) (w : Fin m) (now : Ticks) :
    QueueingLogicRL P m → PopOutcome P → Prop
  | wait (hqueue : (s.workersInfo w).queue = []) : PopCases s w now s .wait
  | waitUntil {top : QE P} {rest : List (QE P)} (hqueue : (s.workersInfo w).queue = top :: rest)
      (hsend : now < top.send) : PopCases s w now s (.waitUntil top.send)
  | output {top : QE P} {rest : List (QE P)} {info : QueueInfo}
      (hqueue : (s.workersInfo w).queue = top :: rest) (hsend : top.send ≤ now)
      (hinfo : s.queuesInfo top.queueId = some info) :
      PopCases s w now
        ((s.setQueue top.queueId { info with size := info.size - 1 }).setWorker w
          { s.workersInfo w with queue := rest }) (.output top.queueId top.e)

theorem popBack_cases {w : Fin m} {now : Ticks} {outcome : PopOutcome P}
    (hpop : s.popBack w now = some (s', outcome)) : PopCases s w now s' outcome := by
  unfold popBack at hpop
  split at hpop
  next hqueue =>
    obtain ⟨rfl, rfl⟩ : s = s' ∧ PopOutcome.wait = outcome := by simpa using hpop
    exact .wait hqueue
  next top rest hqueue =>
    split at hpop
    next hsend =>
      obtain ⟨info, hinfo, heq⟩ := Option.map_eq_some_iff.mp hpop
      obtain ⟨rfl, rfl⟩ := Prod.mk.inj heq
      exact .output hqueue hsend hinfo
    next hsend =>
      obtain ⟨rfl, rfl⟩ : s = s' ∧ PopOutcome.waitUntil top.send = outcome := by
        simpa using hpop
      exact .waitUntil hqueue (not_le.mp hsend)

theorem popBack_isSome (hinv : Inv mapToWorker s history) (w : Fin m) (now : Ticks) :
    ∃ s' outcome, s.popBack w now = some (s', outcome) := by
  unfold popBack
  split
  next => exact ⟨s, .wait, rfl⟩
  next top rest hqueue =>
    split
    next =>
      have htop : top ∈ (s.workersInfo w).queue := by simp [hqueue]
      obtain ⟨info, hinfo⟩ := hinv.exists_entry htop
      rw [hinfo]
      exact ⟨_, _, rfl⟩
    next => exact ⟨s, .waitUntil top.send, rfl⟩

/-! ## Steps and runs -/

def Op.pushesTo (mapToWorker : ℕ → Fin m) (w : Fin m) : Op P m → Bool
  | .pushFront q _ _ _ => mapToWorker q = w
  | _ => false

/-- No counter wraps. -/
def WithinCounter (mapToWorker : ℕ → Fin m) (ops : List (Op P m)) : Prop :=
  ∀ w, ops.countP (Op.pushesTo mapToWorker w) ≤ 2 ^ 64

theorem WithinCounter.before {ops : List (Op P m)} {op : Op P m}
    (hops : WithinCounter mapToWorker (ops ++ [op])) : WithinCounter mapToWorker ops := by
  intro w
  have hle := hops w
  rw [List.countP_append] at hle
  omega

theorem step_op {op : Op P m} {calls : List (Call P m)}
    (hstep : s.step mapToWorker op = some (s', calls)) : calls.map Call.op = [op] := by
  cases op with
  | popBack w now =>
      obtain ⟨r, -, heq⟩ := Option.map_eq_some_iff.mp hstep
      rw [← (Prod.mk.inj heq).2]
      rfl
  | _ =>
      obtain ⟨-, rfl⟩ := Prod.mk.inj (Option.some.inj hstep)
      rfl

theorem acceptedBy_le {ops : List (Op P m)} (hops : history.map Call.op = ops) (w : Fin m) :
    acceptedBy mapToWorker w history ≤ ops.countP (Op.pushesTo mapToWorker w) := by
  rw [← hops, List.countP_map, acceptedBy]
  refine List.countP_mono_left fun call _ hcall => ?_
  unfold Call.acceptedBy at hcall
  split at hcall
  next hop _ => simpa [hop, Op.pushesTo] using hcall
  next => simp at hcall

theorem step_inv (hinv : Inv mapToWorker s history) {op : Op P m} {calls : List (Call P m)}
    (hwrap : ∀ w, op.pushesTo mapToWorker w → acceptedBy mapToWorker w history < 2 ^ 64)
    (hstep : s.step mapToWorker op = some (s', calls)) :
    Inv mapToWorker s' (history ++ calls) := by
  cases op with
  | pushFront q item created now =>
      simp only [step, Option.some.injEq, Prod.mk.injEq] at hstep
      obtain ⟨rfl, rfl⟩ := hstep
      simp only [pushFront]
      split
      next => exact hinv.setQueue_idle item created now
      next => exact hinv.push q item created now (hwrap _ (by simp [Op.pushesTo]))
  | popBack w now =>
      obtain ⟨⟨t, outcome⟩, hpop, heq⟩ := Option.map_eq_some_iff.mp hstep
      obtain ⟨rfl, rfl⟩ := Prod.mk.inj heq
      cases popBack_cases hpop with
      | wait => exact hinv.wait w now (by simp)
      | waitUntil => exact hinv.wait w now (by simp)
      | output hqueue hsend hinfo => exact hinv.pop hqueue hsend hinfo
  | setCapacity q c created =>
      obtain ⟨rfl, rfl⟩ := Prod.mk.inj (Option.some.inj hstep)
      exact hinv.setCapacity q c created
  | setCapacityForAll c =>
      obtain ⟨rfl, rfl⟩ := Prod.mk.inj (Option.some.inj hstep)
      exact hinv.setCapacityForAll c
  | setRate q pps created =>
      obtain ⟨rfl, rfl⟩ := Prod.mk.inj (Option.some.inj hstep)
      exact hinv.setRate q pps created
  | setRateForAll pps =>
      obtain ⟨rfl, rfl⟩ := Prod.mk.inj (Option.some.inj hstep)
      exact hinv.setRateForAll pps

theorem inv_of_run {capacity : ℕ} {ops : List (Op P m)} (hops : WithinCounter mapToWorker ops)
    (hrun : run mapToWorker (initial capacity) ops = some (s, history)) :
    history.map Call.op = ops ∧ Inv mapToWorker s history := by
  have hall := exec_invariant
    (I := fun ops s history => WithinCounter mapToWorker ops →
      history.map Call.op = ops ∧ Inv mapToWorker s history)
    (fun _ => ⟨rfl, Inv.initial mapToWorker capacity⟩) ?_ hrun
  · exact hall hops
  · intro ops s history op s' calls _ ih hstep hwithin
    obtain ⟨hmap, hinv⟩ := ih hwithin.before
    refine ⟨by rw [List.map_append, hmap, step_op hstep], step_inv hinv (fun w hw => ?_) hstep⟩
    have hle := hwithin w
    have hbefore : acceptedBy mapToWorker w history ≤ _ := acceptedBy_le hmap w
    rw [List.countP_append, List.countP_singleton, if_pos hw] at hle
    omega

theorem run_isSome (mapToWorker : ℕ → Fin m) (capacity : ℕ) (ops : List (Op P m))
    (hops : WithinCounter mapToWorker ops) :
    ∃ s history, run mapToWorker (initial capacity) ops = some (s, history) := by
  refine exec_total (I := WithinCounter mapToWorker) (fun _ _ => WithinCounter.before) ?_ ops hops
  intro ops s history op hrun hwithin
  have hinv := (inv_of_run hwithin.before hrun).2
  cases op with
  | popBack w now =>
      obtain ⟨s', outcome, hpop⟩ := popBack_isSome hinv w now
      exact ⟨s', [⟨.popBack w now, .popped outcome⟩], by rw [step, hpop]; rfl⟩
  | _ => exact ⟨_, _, rfl⟩

end QueueingLogicRL

end Cmcs
