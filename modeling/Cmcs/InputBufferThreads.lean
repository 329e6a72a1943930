import Cmcs.Monitor
import Cmcs.SimpleSwitch
import Mathlib.Tactic

/-!
# The input buffer under threads

`InputBuffer` is a monitor with three condition variables.  `push_front` and
`pop_back` unlock the mutex before they notify, so that other threads may come in
between.
-/

namespace Cmcs

open TransitionSystem

namespace SimpleSwitch.InputBuffer

inductive Cvar
  | canPushHi
  | canPushLo
  | canPop
  deriving DecidableEq

inductive Request
  | push (packetType : PacketType) (item : Option Packet)
  | pop

/-- What `push_front` returns, or what `pop_back` writes. -/
inductive Outcome
  | returned (accepted : Bool)
  | popped (item : Option Packet)

def Request.cvar : Request → Cvar
  | .push .normal _ => .canPushLo
  | .push _ _ => .canPushHi
  | .pop => .canPop

/-- One pass under the lock. -/
def attempt (b : InputBuffer) : Request → Option (InputBuffer × Outcome × Option Cvar)
  | .push packetType item =>
      (b.pushFront packetType item).map fun (b, accepted) =>
        (b, .returned accepted, if accepted then some .canPop else none)
  | .pop =>
      b.popBack.map fun (item, b') =>
        (b', .popped item, some (if b.queueHi = [] then .canPushLo else .canPushHi))

def program : Monitor.Program InputBuffer Request Cvar Outcome where
  cvar := Request.cvar
  attempt := attempt

/-- The items in the buffer and the room in its two queues. -/
def avail (c : Cvar) (b : InputBuffer) : ℕ :=
  match c with
  | .canPop => b.queueHi.length + b.queueLo.length
  | .canPushHi => b.capacityHi - b.queueHi.length
  | .canPushLo => b.capacityLo - b.queueLo.length

/-- The queues keep within their capacities, which nothing changes. -/
structure Within (hi lo : ℕ) (b : InputBuffer) : Prop where
  capacityHi : b.capacityHi = hi
  capacityLo : b.capacityLo = lo
  queueHi : b.queueHi.length ≤ b.capacityHi
  queueLo : b.queueLo.length ≤ b.capacityLo

/-- What one pass does when it completes. -/
inductive Completes (b : InputBuffer) : Request → InputBuffer → Outcome → Option Cvar → Prop
  | normal (item : Option Packet) (hroom : b.queueLo.length ≠ b.capacityLo) :
      Completes b (.push .normal item) { b with queueLo := b.queueLo ++ [item] }
        (.returned true) (some .canPop)
  | high {packetType : PacketType} (item : Option Packet) (htype : packetType ≠ .normal)
      (hroom : b.queueHi.length ≠ b.capacityHi) :
      Completes b (.push packetType item) { b with queueHi := b.queueHi ++ [item] }
        (.returned true) (some .canPop)
  | refused {packetType : PacketType} (item : Option Packet)
      (htype : packetType = .resubmit ∨ packetType = .recirculate)
      (hfull : b.queueHi.length = b.capacityHi) :
      Completes b (.push packetType item) b (.returned false) none
  | popHi {item : Option Packet} {queueHi : List (Option Packet)}
      (hqueue : b.queueHi = item :: queueHi) :
      Completes b .pop { b with queueHi := queueHi } (.popped item) (some .canPushHi)
  | popLo {item : Option Packet} {queueLo : List (Option Packet)} (hhi : b.queueHi = [])
      (hqueue : b.queueLo = item :: queueLo) :
      Completes b .pop { b with queueLo := queueLo } (.popped item) (some .canPushLo)

variable {b b' : InputBuffer} {r : Request} {out : Outcome} {n : Option Cvar} {hi lo : ℕ}

theorem completes_of_attempt (hdone : program.attempt b r = some (b', out, n)) :
    Completes b r b' out n := by
  obtain ⟨capacityHi, capacityLo, queueHi, queueLo⟩ := b
  cases r with
  | push packetType item =>
      simp only [program, attempt, Option.map_eq_some_iff, Prod.exists, Prod.mk.injEq] at hdone
      obtain ⟨b₁, accepted, hpush, rfl, rfl, rfl⟩ := hdone
      cases packetType with
      | normal =>
          simp only [pushFront, Option.ite_none_left_eq_some, Option.some.injEq,
            Prod.mk.injEq] at hpush
          obtain ⟨hroom, rfl, rfl⟩ := hpush
          exact .normal item hroom
      | sentinel =>
          simp only [pushFront, Option.ite_none_left_eq_some, Option.some.injEq,
            Prod.mk.injEq] at hpush
          obtain ⟨hroom, rfl, rfl⟩ := hpush
          exact .high item nofun hroom
      | resubmit =>
          simp only [pushFront] at hpush
          split at hpush
          next hfull =>
            obtain ⟨rfl, rfl⟩ := Prod.mk.inj (Option.some.inj hpush)
            exact .refused item (Or.inl rfl) hfull
          next hroom =>
            obtain ⟨rfl, rfl⟩ := Prod.mk.inj (Option.some.inj hpush)
            exact .high item nofun hroom
      | recirculate =>
          simp only [pushFront] at hpush
          split at hpush
          next hfull =>
            obtain ⟨rfl, rfl⟩ := Prod.mk.inj (Option.some.inj hpush)
            exact .refused item (Or.inr rfl) hfull
          next hroom =>
            obtain ⟨rfl, rfl⟩ := Prod.mk.inj (Option.some.inj hpush)
            exact .high item nofun hroom
  | pop =>
      simp only [program, attempt, Option.map_eq_some_iff, Prod.exists, Prod.mk.injEq] at hdone
      obtain ⟨item, b₁, hpop, rfl, rfl, rfl⟩ := hdone
      cases queueHi with
      | cons first queueHi =>
          obtain ⟨rfl, rfl⟩ := Prod.mk.inj (Option.some.inj hpop)
          exact .popHi rfl
      | nil =>
          cases queueLo with
          | nil => cases hpop
          | cons first queueLo =>
              obtain ⟨rfl, rfl⟩ := Prod.mk.inj (Option.some.inj hpop)
              exact .popLo rfl rfl

/-- When a pass does not complete. -/
inductive Waits (b : InputBuffer) : Request → Prop
  | normal (item : Option Packet) (hfull : b.queueLo.length = b.capacityLo) :
      Waits b (.push .normal item)
  | sentinel (item : Option Packet) (hfull : b.queueHi.length = b.capacityHi) :
      Waits b (.push .sentinel item)
  | pop (hhi : b.queueHi = []) (hlo : b.queueLo = []) : Waits b .pop

theorem waits_iff : program.attempt b r = none ↔ Waits b r := by
  obtain ⟨capacityHi, capacityLo, queueHi, queueLo⟩ := b
  constructor
  · intro hblocked
    cases r with
    | push packetType item =>
        simp only [program, attempt, Option.map_eq_none_iff] at hblocked
        cases packetType with
        | normal => exact .normal item (by simpa [pushFront] using hblocked)
        | sentinel => exact .sentinel item (by simpa [pushFront] using hblocked)
        | resubmit =>
            simp only [pushFront] at hblocked
            split at hblocked <;> cases hblocked
        | recirculate =>
            simp only [pushFront] at hblocked
            split at hblocked <;> cases hblocked
    | pop =>
        simp only [program, attempt, Option.map_eq_none_iff] at hblocked
        cases queueHi with
        | cons => cases hblocked
        | nil =>
            cases queueLo with
            | cons => cases hblocked
            | nil => exact .pop rfl rfl
  · intro hwaits
    cases hwaits with
    | normal item hfull => simpa [program, attempt, pushFront] using hfull
    | sentinel item hfull => simpa [program, attempt, pushFront] using hfull
    | pop hhi hlo =>
        obtain rfl : queueHi = [] := hhi
        obtain rfl : queueLo = [] := hlo
        rfl

theorem not_blocking {packetType : PacketType} {item : Option Packet}
    (htype : packetType = .resubmit ∨ packetType = .recirculate) :
    ¬Monitor.Blocking program (.push packetType item) := by
  rintro ⟨b, hblocked⟩
  rcases htype with rfl | rfl
  · cases waits_iff.mp hblocked
  · cases waits_iff.mp hblocked

theorem Within.completes (hb : Within hi lo b) (hdone : Completes b r b' out n) :
    Within hi lo b' := by
  obtain ⟨hcapHi, hcapLo, hqueueHi, hqueueLo⟩ := hb
  cases hdone with
  | normal item hroom =>
      refine ⟨hcapHi, hcapLo, hqueueHi, ?_⟩
      rw [List.length_append, List.length_singleton]
      exact lt_of_le_of_ne hqueueLo hroom
  | high item htype hroom =>
      refine ⟨hcapHi, hcapLo, ?_, hqueueLo⟩
      rw [List.length_append, List.length_singleton]
      exact lt_of_le_of_ne hqueueHi hroom
  | refused => exact ⟨hcapHi, hcapLo, hqueueHi, hqueueLo⟩
  | popHi hqueue =>
      refine ⟨hcapHi, hcapLo, ?_, hqueueLo⟩
      rw [hqueue, List.length_cons] at hqueueHi
      exact (Nat.le_succ _).trans hqueueHi
  | popLo hhi hqueue =>
      refine ⟨hcapHi, hcapLo, hqueueHi, ?_⟩
      rw [hqueue, List.length_cons] at hqueueLo
      exact (Nat.le_succ _).trans hqueueLo

theorem accounts (hi lo : ℕ) : Monitor.Accounts program avail (Within hi lo) where
  keeps b r b' out n hb hdone := hb.completes (completes_of_attempt hdone)
  blocked b r hb hblocking := by
    rw [waits_iff]
    have hwithin := hb.queueHi
    have hwithin' := hb.queueLo
    constructor
    · intro hwaits
      cases hwaits with
      | normal item hfull => simp [program, Request.cvar, avail, hfull]
      | sentinel item hfull => simp [program, Request.cvar, avail, hfull]
      | pop hhi hlo => simp [program, Request.cvar, avail, hhi, hlo]
    · intro hnone
      cases r with
      | pop =>
          simp only [program, Request.cvar, avail, Nat.add_eq_zero_iff,
            List.length_eq_zero_iff] at hnone
          exact .pop hnone.1 hnone.2
      | push packetType item =>
          cases packetType with
          | normal =>
              simp only [program, Request.cvar, avail] at hnone
              exact .normal item (by omega)
          | sentinel =>
              simp only [program, Request.cvar, avail] at hnone
              exact .sentinel item (by omega)
          | resubmit => exact absurd hblocking (not_blocking (Or.inl rfl))
          | recirculate => exact absurd hblocking (not_blocking (Or.inr rfl))
  notifies b r b' out n hb hdone c := by
    have hwithin := hb.queueHi
    have hwithin' := hb.queueLo
    cases completes_of_attempt hdone with
    | normal item hroom =>
        cases c with
        | canPop =>
            simp only [avail, List.length_append, List.length_singleton, Monitor.unit, if_true]
            omega
        | canPushHi => exact Nat.le_add_right _ _
        | canPushLo =>
            simp only [avail, List.length_append, List.length_singleton]
            omega
    | high item htype hroom =>
        cases c with
        | canPop =>
            simp only [avail, List.length_append, List.length_singleton, Monitor.unit, if_true]
            omega
        | canPushHi =>
            simp only [avail, List.length_append, List.length_singleton]
            omega
        | canPushLo => exact Nat.le_add_right _ _
    | refused => exact Nat.le_add_right _ _
    | popHi hqueue =>
        cases c with
        | canPop =>
            simp only [avail, hqueue, List.length_cons]
            omega
        | canPushHi =>
            simp only [avail, hqueue, List.length_cons, Monitor.unit, if_true]
            omega
        | canPushLo => exact Nat.le_add_right _ _
    | popLo hhi hqueue =>
        cases c with
        | canPop =>
            simp only [avail, hqueue, List.length_cons]
            omega
        | canPushHi => exact Nat.le_add_right _ _
        | canPushLo =>
            simp only [avail, hqueue, List.length_cons, Monitor.unit, if_true]
            omega
  takes b r b' out n hb hblocking hdone := by
    have hwithin := hb.queueHi
    have hwithin' := hb.queueLo
    cases completes_of_attempt hdone with
    | normal item hroom =>
        simp only [program, Request.cvar, avail, List.length_append, List.length_singleton]
        omega
    | @high packetType item htype hroom =>
        have hcvar : (Request.push packetType item).cvar = .canPushHi := by
          cases packetType with
          | normal => exact absurd rfl htype
          | _ => rfl
        simp only [program, hcvar, avail, List.length_append, List.length_singleton]
        omega
    | refused item htype => exact absurd hblocking (not_blocking htype)
    | popHi hqueue =>
        simp only [program, Request.cvar, avail, hqueue, List.length_cons]
        omega
    | popLo hhi hqueue =>
        simp only [program, Request.cvar, avail, hhi, hqueue, List.length_cons]
        omega

/-! ## Runs -/

/-- An operation which has completed, with the buffer before and after it. -/
abbrev Completed := InputBuffer × Request × Outcome × InputBuffer

def isHigh : PacketType → Bool
  | .normal => false
  | _ => true

def queue (high : Bool) (b : InputBuffer) : List (Option Packet) :=
  if high then b.queueHi else b.queueLo

/-- The item which an operation has put into the queue of a priority. -/
def accepted (high : Bool) : Completed → Option (Option Packet)
  | (_, .push packetType item, .returned true, _) =>
      if isHigh packetType = high then some item else none
  | _ => none

/-- The item which an operation has taken out of it: `pop_back` takes the high
priority queue if it has items. -/
def taken (high : Bool) : Completed → Option (Option Packet)
  | (before, .pop, .popped item, _) =>
      if (before.queueHi ≠ []) = high then some item else none
  | _ => none

theorem order_step (high : Bool) {entry : Completed}
    (hstep : Monitor.Sequential program b entry b') :
    queue high b ++ (accepted high entry).toList = (taken high entry).toList ++ queue high b' := by
  obtain ⟨r, out, n, rfl, hdone⟩ := hstep
  cases completes_of_attempt hdone with
  | normal item hroom => cases high <;> simp [queue, accepted, taken, isHigh]
  | @high packetType item htype hroom =>
      have hhigh : isHigh packetType = true := by
        cases packetType with
        | normal => exact absurd rfl htype
        | _ => rfl
      cases high <;> simp [queue, accepted, taken, hhigh]
  | refused => simp [accepted, taken]
  | popHi hqueue => cases high <;> simp [queue, accepted, taken, hqueue]
  | popLo hhi hqueue => cases high <;> simp [queue, accepted, taken, hhi, hqueue]

/-- The input buffer in every interleaving of any number of threads, with wake-ups
for no reason. -/
structure Arbitrated (hi lo : ℕ) (labels : List (Monitor.Label InputBuffer Request Cvar Outcome))
    (s : Monitor.State InputBuffer Request Cvar) : Prop where
  within : Within hi lo s.data
  order : ∀ high, (labels.filterMap Monitor.Label.completed).filterMap (accepted high) =
    (labels.filterMap Monitor.Label.completed).filterMap (taken high) ++ queue high s.data
  settles : ∀ more s', Run (Monitor.Step program) s more s' →
    (∀ label ∈ more, label.IsInternal) → more.length ≤ 3 * Multiset.card s.threads
  settled : Monitor.Settled program s → ∀ t ∈ s.threads, ∃ r, t = .waiting r ∧ Waits s.data r

theorem arbitrated (hi lo : ℕ) {labels : List (Monitor.Label InputBuffer Request Cvar Outcome)}
    {s : Monitor.State InputBuffer Request Cvar}
    (hrun : Run (Monitor.Step program)
      ⟨{ capacityHi := hi, capacityLo := lo }, 0⟩ labels s) :
    Arbitrated hi lo labels s := by
  have hpromised := Monitor.promised_of_run (accounts hi lo) ⟨rfl, rfl, Nat.zero_le _, Nat.zero_le _⟩
    hrun
  refine ⟨hpromised.inv, fun high => ?_, fun more s' hmore hinternal =>
    Monitor.length_le_of_internal hmore hinternal, fun hsettled t ht => ?_⟩
  · have hconserved := (Monitor.linearize hrun).conserve (queue high)
      fun _ _ _ hstep => order_step high hstep
    have hempty : queue high { capacityHi := hi, capacityLo := lo } = [] := by
      cases high <;> rfl
    rwa [hempty, List.nil_append] at hconserved
  · obtain ⟨r, hr, hblocked⟩ := hpromised.of_settled (accounts hi lo) hsettled t ht
    exact ⟨r, hr, waits_iff.mp hblocked⟩

/-- The ingress thread waits for the sentinel which the destructor sends. -/
theorem arbitrated_one_sentinel :
    ∃ labels, Arbitrated 1024 1024 labels ⟨{}, 0⟩ ∧
      (labels.filterMap Monitor.Label.completed).filterMap (taken true) = [none] := by
  have hwaits : program.attempt {} .pop = none := rfl
  have hpush : program.attempt {} (.push .sentinel none) =
      some ({ queueHi := [none] }, .returned true, some .canPop) := rfl
  have hpop : program.attempt { queueHi := [none] } .pop =
      some ({}, .popped none, some .canPushHi) := rfl
  have hstart : Run (Monitor.Step program) ⟨{}, 0⟩ [] ⟨{}, 0⟩ := Run.nil
  have hwaiting := (hstart.snoc (Monitor.Step.call _ _ Request.pop)).snoc
    (Monitor.Step.wait .ready hwaits)
  have hpushed := (hwaiting.snoc (Monitor.Step.call _ _ (Request.push .sentinel none))).snoc
    (Monitor.Step.complete .ready hpush)
  have hwoken := hpushed.snoc (Monitor.Step.wake _ 0 Request.pop)
  have hpopped := (hwoken.snoc (Monitor.Step.complete .woken hpop)).snoc
    (Monitor.Step.idle fun r hr => absurd hr (Multiset.notMem_zero _))
  exact ⟨_, arbitrated 1024 1024 hpopped, by decide⟩

end SimpleSwitch.InputBuffer

end Cmcs
