import Cmcs.ShapedQueues
import Mathlib.Tactic

/-!
# Delivery of `QueueingLogicRL`

Each logical queue hands out what it accepted, once and in order, and no element
before the gaps of its rate have passed.  A pass of `pop_back` waits only if no
element of the worker is due, and then until the first one is.
-/

namespace Cmcs

open TransitionSystem

namespace QueueingLogicRL

variable {P : Type} {m : ℕ} {mapToWorker : ℕ → Fin m}
variable {s : QueueingLogicRL P m} {history : List (Call P m)}

/-- The arrivals of the first `n` elements accepted. -/
def Meter.arrivals (meter : Meter P) (n : ℕ) : List (PacketShaper.Arrival Ticks) :=
  (meter.accepted.map Prod.snd).take n

/-- The `k`-th element accepted may leave at `t`. -/
def Meter.Due (meter : Meter P) (k : ℕ) (t : Ticks) : Prop :=
  PacketShaper.Due (meter.created.getD 0) (meter.arrivals (k + 1)) t

def Meter.pending (meter : Meter P) : List P :=
  (meter.accepted.map Prod.fst).drop meter.taken.length

/-- At its next element the queue may be served at `t`. -/
def Meter.NextDue (meter : Meter P) (t : Ticks) : Prop := meter.Due meter.taken.length t

theorem Meter.due_iff {meter : Meter P} {k : ℕ} {t r : Ticks}
    (hrelease : (meter.releases (meter.created.getD 0))[k]? = some r) :
    meter.Due k t ↔ r ≤ t := by
  obtain ⟨hk, -⟩ := List.getElem?_eq_some_iff.mp hrelease
  rw [Meter.releases, PacketShaper.length_releases] at hk
  rw [Meter.releases, PacketShaper.getElem?_releases hk] at hrelease
  rw [Meter.Due, ← PacketShaper.lastRelease_le_iff, Meter.arrivals, Option.some.inj hrelease]

/-- The gaps behind a queue's creation add up to at least `d` for each element. -/
theorem Meter.Due.le_of_gaps {meter : Meter P} {k : ℕ} {t d : Ticks} (hdue : meter.Due k t)
    (hk : k < meter.accepted.length) (hgaps : ∀ a ∈ meter.accepted, d ≤ a.2.gap) :
    meter.created.getD 0 + (k + 1) * d ≤ t := by
  have hlength : (meter.arrivals (k + 1)).length = k + 1 := by
    rw [Meter.arrivals, List.length_take, List.length_map]
    omega
  have hsum := List.card_nsmul_le_sum ((meter.arrivals (k + 1)).map PacketShaper.Arrival.gap) d ?_
  · rw [List.length_map, hlength, nsmul_eq_mul] at hsum
    have hfirst := hdue.1
    push_cast at hsum
    linarith
  · intro gap hgap
    obtain ⟨a, ha, rfl⟩ := List.mem_map.mp hgap
    obtain ⟨b, hb, rfl⟩ := List.mem_map.mp (List.mem_of_mem_take ha)
    exact hgaps b hb

namespace QueueInv

variable {entry : Ticks → QueueInfo} {waiting : List (QE P)} {meter : Meter P}

theorem taken_due (hinv : QueueInv entry waiting meter) {k : ℕ} {item : P} {t : Ticks}
    (htaken : meter.taken[k]? = some (item, t)) : meter.Due k t := by
  rcases hinv.released 0 with ⟨sent, hsplit, hsent⟩
  obtain ⟨hk, hget⟩ := List.getElem?_eq_some_iff.mp htaken
  have hlength := hsent.length_eq
  rw [List.length_map] at hlength
  have hks : k < sent.length := by omega
  have hle := hsent.get hks (by simpa using hk)
  rw [Meter.due_iff (r := sent[k])]
  · simpa [hget] using hle
  · rw [hsplit, List.getElem?_append_left hks, List.getElem?_eq_getElem hks]

theorem nextDue_iff {top : QE P} {rest : List (QE P)}
    (hinv : QueueInv entry (top :: rest) meter) (t : Ticks) :
    meter.NextDue t ↔ top.send ≤ t := by
  rcases hinv.released 0 with ⟨sent, hsplit, hsent⟩
  have hlength := hsent.length_eq
  rw [List.length_map] at hlength
  refine Meter.due_iff ?_
  rw [hsplit, ← hlength, List.getElem?_append_right le_rfl]
  simp

theorem pending_eq (hinv : QueueInv entry waiting meter) :
    meter.pending = waiting.map QE.e := by
  rw [Meter.pending, hinv.fifo, List.drop_append_of_le_length (by simp)]
  simp

end QueueInv

/-- Queue `q` hands out what it accepted, once and in order, and each element only
when it is due. -/
structure Delivery (s : QueueingLogicRL P m) (history : List (Call P m)) (q : ℕ) : Prop where
  fifo : (meterOf q history).accepted.map Prod.fst =
    (meterOf q history).taken.map Prod.fst ++ (meterOf q history).pending
  size : s.size q = (meterOf q history).pending.length
  due : ∀ k item t, (meterOf q history).taken[k]? = some (item, t) → (meterOf q history).Due k t
  rate : ∀ d : Ticks, (∀ a ∈ (meterOf q history).accepted, d ≤ a.2.gap) →
    ∀ (k : ℕ) item t, (meterOf q history).taken[k]? = some (item, t) →
      (meterOf q history).created.getD 0 + (k + 1) * d ≤ t

theorem Inv.delivery (hinv : Inv mapToWorker s history) (q : ℕ) : Delivery s history q where
  fifo := by rw [(hinv.queues q).pending_eq, (hinv.queues q).fifo]
  size := by rw [(hinv.queues q).pending_eq, List.length_map, hinv.size_eq]
  due _ _ _ := (hinv.queues q).taken_due
  rate d hgaps k item t htaken := by
    refine ((hinv.queues q).taken_due htaken).le_of_gaps ?_ hgaps
    have hlength := congrArg List.length (hinv.queues q).fifo
    have hk := (List.getElem?_eq_some_iff.mp htaken).1
    simp only [List.length_map, List.length_append] at hlength
    omega

/-- In order, once, and no faster than the rate. -/
theorem delivery_at_rate (mapToWorker : ℕ → Fin m) (capacity : ℕ) (ops : List (Op P m))
    (hops : WithinCounter mapToWorker ops) :
    ∃ s history, run mapToWorker (initial capacity) ops = some (s, history) ∧
      ∀ q, Delivery s history q := by
  obtain ⟨s, history, hrun⟩ := run_isSome mapToWorker capacity ops hops
  exact ⟨s, history, hrun, (inv_of_run hops hrun).2.delivery⟩

theorem delivery_at_rate_two_elements :
    ∃ s history, run (fun _ => (0 : Fin 1)) (initial 4)
        [.setRate 7 1000 0, .pushFront 7 'a' 0 5, .pushFront 7 'b' 0 6,
          .popBack 0 1000000] = some (s, history) ∧ ∀ q, Delivery s history q :=
  delivery_at_rate _ 4 _ (fun w => by
    have hw : w = 0 := Subsingleton.elim w 0
    subst w
    decide)

/-! ## What a pass does -/

/-- A pass waits if the worker has no element, sleeps until the first one is due,
or serves a queue whose next element is due no later than any other. -/
def PopLaw (mapToWorker : ℕ → Fin m) (s : QueueingLogicRL P m) (history : List (Call P m))
    (w : Fin m) (now : Ticks) : PopOutcome P → Prop
  | .wait => ∀ q, mapToWorker q = w → s.size q = 0
  | .waitUntil t => now < t ∧
      (∃ q, mapToWorker q = w ∧ s.size q ≠ 0 ∧ (meterOf q history).NextDue t) ∧
      ∀ q, mapToWorker q = w → s.size q ≠ 0 → ∀ t', (meterOf q history).NextDue t' → t ≤ t'
  | .output q item => mapToWorker q = w ∧ (meterOf q history).pending.head? = some item ∧
      (meterOf q history).NextDue now ∧
      ∀ q', mapToWorker q' = w → s.size q' ≠ 0 →
        ∀ t', (meterOf q' history).NextDue t' → (meterOf q history).NextDue t'

section Pop

variable {w : Fin m} {top : QE P} {rest : List (QE P)}

theorem Inv.queued_top (hinv : Inv mapToWorker s history)
    (hqueue : (s.workersInfo w).queue = top :: rest) :
    mapToWorker top.queueId = w ∧
      queued mapToWorker s top.queueId = top :: rest.filter fun qe => qe.queueId = top.queueId := by
  have howner : mapToWorker top.queueId = w := hinv.owned w top (by simp [hqueue])
  refine ⟨howner, ?_⟩
  rw [queued, howner, hqueue, List.filter_cons_of_pos (by simp)]

theorem Inv.nextDue_top (hinv : Inv mapToWorker s history)
    (hqueue : (s.workersInfo w).queue = top :: rest) (t : Ticks) :
    (meterOf top.queueId history).NextDue t ↔ top.send ≤ t := by
  have hself := hinv.queues top.queueId
  rw [(hinv.queued_top hqueue).2] at hself
  exact hself.nextDue_iff t

/-- No queue of the worker is due before the top of its priority queue. -/
theorem Inv.top_le (hinv : Inv mapToWorker s history)
    (hqueue : (s.workersInfo w).queue = top :: rest) {q : ℕ} (hq : mapToWorker q = w)
    (hsize : s.size q ≠ 0) {t : Ticks} (hdue : (meterOf q history).NextDue t) :
    top.send ≤ t := by
  have hself := hinv.queues q
  cases hwaiting : queued mapToWorker s q with
  | nil => exact absurd (by rw [hinv.size_eq, hwaiting, List.length_nil]) hsize
  | cons first others =>
      rw [hwaiting] at hself
      have hmem : first ∈ (s.workersInfo w).queue := by
        have hfirst : first ∈ queued mapToWorker s q := by simp [hwaiting]
        rw [queued, hq] at hfirst
        exact List.mem_of_mem_filter hfirst
      have hordered := hinv.ordered w
      rw [hqueue] at hordered hmem
      have hkey := hordered.head_le first hmem
      rw [QE.key, QE.key, Prod.Lex.toLex_le_toLex] at hkey
      have hfirst := (hself.nextDue_iff t).mp hdue
      rcases hkey with hlt | ⟨heq, -⟩
      · exact hlt.le.trans hfirst
      · exact heq.le.trans hfirst

theorem Inv.size_top_ne_zero (hinv : Inv mapToWorker s history)
    (hqueue : (s.workersInfo w).queue = top :: rest) : s.size top.queueId ≠ 0 := by
  rw [hinv.size_eq, (hinv.queued_top hqueue).2]
  exact Nat.succ_ne_zero _

theorem Inv.popLaw (hinv : Inv mapToWorker s history) {s' : QueueingLogicRL P m} {now : Ticks}
    {outcome : PopOutcome P} (hpop : s.popBack w now = some (s', outcome)) :
    PopLaw mapToWorker s history w now outcome := by
  cases popBack_cases hpop with
  | wait hqueue =>
      intro q hq
      rw [hinv.size_eq, queued, hq, hqueue, List.filter_nil, List.length_nil]
  | waitUntil hqueue hsend =>
      refine ⟨hsend, ⟨_, (hinv.queued_top hqueue).1, hinv.size_top_ne_zero hqueue,
        (hinv.nextDue_top hqueue _).mpr le_rfl⟩, ?_⟩
      intro q hq hsize t hdue
      exact hinv.top_le hqueue hq hsize hdue
  | @output top rest info hqueue hsend hinfo =>
      refine ⟨(hinv.queued_top hqueue).1, ?_, (hinv.nextDue_top hqueue now).mpr hsend, ?_⟩
      · rw [(hinv.queues top.queueId).pending_eq, (hinv.queued_top hqueue).2]
        rfl
      · intro q hq hsize t hdue
        exact (hinv.nextDue_top hqueue t).mpr (hinv.top_le hqueue hq hsize hdue)

end Pop

/-- Work conservation and wake-up time: in every reachable state a pass of
`pop_back` returns the element which is due first, if it is due, and sleeps until
it is otherwise. -/
theorem pop_earliest_due (mapToWorker : ℕ → Fin m) (capacity : ℕ) (ops : List (Op P m))
    (hops : WithinCounter mapToWorker ops) (w : Fin m) (now : Ticks) :
    ∃ s history s' outcome, run mapToWorker (initial capacity) ops = some (s, history) ∧
      s.popBack w now = some (s', outcome) ∧ PopLaw mapToWorker s history w now outcome := by
  obtain ⟨s, history, hrun⟩ := run_isSome mapToWorker capacity ops hops
  have hinv := (inv_of_run hops hrun).2
  obtain ⟨s', outcome, hpop⟩ := popBack_isSome hinv w now
  exact ⟨s, history, s', outcome, hrun, hpop, hinv.popLaw hpop⟩

theorem pop_earliest_due_two_queues :
    ∃ s history s' outcome, run (fun _ => (0 : Fin 1)) (initial 4)
        [.setRate 7 1000 0, .pushFront 7 'a' 0 5, .pushFront 8 'b' 5 6] = some (s, history) ∧
      s.popBack 0 9 = some (s', outcome) ∧ PopLaw (fun _ => (0 : Fin 1)) s history 0 9 outcome :=
  pop_earliest_due _ 4 _ (fun w => by
    have hw : w = 0 := Subsingleton.elim w 0
    subst w
    decide) 0 9

end QueueingLogicRL

end Cmcs
