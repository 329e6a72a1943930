import Cmcs.TransitionRun
import Mathlib.Data.Multiset.Count
import Mathlib.Tactic

/-!
# Monitors with condition variables

Any number of threads call the operations of an object which a mutex protects.  An
operation either completes under the lock, and then notifies at most one waiter of
some condition variable, or waits for its own condition variable and tries again
when it is woken.  A waiter may also wake up for no reason, and other threads may
take the lock between a notification and the waiter's next try.

The wake-up rule says that no notification is lost: while a thread waits, the units
which it could take are promised to threads which are awake.  The settling rule
bounds what is left to run once no more calls come in.
-/

namespace Monitor

open TransitionSystem

variable {D R C O : Type*}

/-- The operations: their condition variables, and one try under the lock, which
fails if the operation has to wait. -/
structure Program (D R C O : Type*) where
  cvar : R → C
  attempt : D → R → Option (D × O × Option C)

/-- What a thread inside an operation is about to do. -/
inductive Thread (R C : Type*)
  | ready (r : R)
  | waiting (r : R)
  | woken (r : R)
  | notifying (c : C)
  deriving DecidableEq

structure State (D R C : Type*) where
  data : D
  threads : Multiset (Thread R C) := 0

inductive Label (D R C O : Type*)
  | call (r : R)
  | complete (before : D) (r : R) (out : O) (after : D)
  | wait (r : R)
  | notify (c : C)
  | spurious (r : R)

/-- The thread which still has to notify after an operation. -/
def notifier : Option C → Multiset (Thread R C)
  | some c => {.notifying c}
  | none => 0

/-- A thread which tries its operation when it gets the lock. -/
inductive Trying (r : R) : Thread R C → Prop
  | ready : Trying r (.ready r)
  | woken : Trying r (.woken r)

variable (prog : Program D R C O)

/-- The steps of all threads. -/
inductive Step : State D R C → Label D R C O → State D R C → Prop
  | call (d : D) (threads : Multiset (Thread R C)) (r : R) :
      Step ⟨d, threads⟩ (.call r) ⟨d, .ready r ::ₘ threads⟩
  | complete {d d' : D} {threads : Multiset (Thread R C)} {t : Thread R C} {r : R} {out : O}
      {c : Option C} (htry : Trying r t) (hdone : prog.attempt d r = some (d', out, c)) :
      Step ⟨d, t ::ₘ threads⟩ (.complete d r out d') ⟨d', notifier c + threads⟩
  | wait {d : D} {threads : Multiset (Thread R C)} {t : Thread R C} {r : R}
      (htry : Trying r t) (hblocked : prog.attempt d r = none) :
      Step ⟨d, t ::ₘ threads⟩ (.wait r) ⟨d, .waiting r ::ₘ threads⟩
  | wake (d : D) (threads : Multiset (Thread R C)) (r : R) :
      Step ⟨d, .notifying (prog.cvar r) ::ₘ .waiting r ::ₘ threads⟩ (.notify (prog.cvar r))
        ⟨d, .woken r ::ₘ threads⟩
  | idle {d : D} {threads : Multiset (Thread R C)} {c : C}
      (hnone : ∀ r, .waiting r ∈ threads → prog.cvar r ≠ c) :
      Step ⟨d, .notifying c ::ₘ threads⟩ (.notify c) ⟨d, threads⟩
  | spurious (d : D) (threads : Multiset (Thread R C)) (r : R) :
      Step ⟨d, .waiting r ::ₘ threads⟩ (.spurious r) ⟨d, .woken r ::ₘ threads⟩

/-- What the operations have done to the object, in the order of the lock. -/
def Label.completed : Label D R C O → Option (D × R × O × D)
  | .complete before r out after => some (before, r, out, after)
  | _ => none

/-- Neither a new call nor a wake-up without a notification. -/
def Label.IsInternal : Label D R C O → Prop
  | .call _ => False
  | .spurious _ => False
  | _ => True

/-! ## Linearization -/

/-- One operation after the other. -/
def Sequential (d : D) (entry : D × R × O × D) (d' : D) : Prop :=
  ∃ r out c, entry = (d, r, out, d') ∧ prog.attempt d r = some (d', out, c)

variable {prog}

theorem linearize {start s : State D R C} {labels : List (Label D R C O)}
    (hrun : Run (Step prog) start labels s) :
    Run (Sequential prog) start.data (labels.filterMap Label.completed) s.data := by
  induction hrun with
  | nil => exact Run.nil
  | snoc hbefore hstep ih =>
      rw [filterMap_concat]
      cases hstep with
      | complete htry hdone => exact Run.snoc ih ⟨_, _, _, rfl, hdone⟩
      | _ => simpa [Label.completed] using ih

/-! ## No lost wake-ups -/

section Waiting

variable (prog)

/-- A thread waits for `c`. -/
def Waited (c : C) (threads : Multiset (Thread R C)) : Prop :=
  ∃ r, .waiting r ∈ threads ∧ prog.cvar r = c

/-- A request which sometimes has to wait. -/
def Blocking (r : R) : Prop := ∃ d, prog.attempt d r = none

variable {prog} {c : C} {t : Thread R C} {threads : Multiset (Thread R C)}

theorem Waited.cons (h : Waited prog c threads) : Waited prog c (t ::ₘ threads) := by
  obtain ⟨r, hr, hc⟩ := h
  exact ⟨r, Multiset.mem_cons_of_mem hr, hc⟩

theorem Waited.of_cons (h : Waited prog c (t ::ₘ threads))
    (ht : ∀ r, t = .waiting r → prog.cvar r ≠ c) : Waited prog c threads := by
  obtain ⟨r, hr, hc⟩ := h
  cases Multiset.mem_cons.mp hr with
  | inl heq => exact absurd hc (ht r heq.symm)
  | inr hmem => exact ⟨r, hmem, hc⟩

theorem mem_notifier {notified : Option C} (hmem : t ∈ notifier notified + threads) :
    t ∈ threads ∨ ∃ c, t = .notifying c := by
  cases Multiset.mem_add.mp hmem with
  | inl hnotifier =>
      cases notified with
      | none => simp [notifier] at hnotifier
      | some c => exact Or.inr ⟨c, Multiset.mem_singleton.mp hnotifier⟩
  | inr hmem => exact Or.inl hmem

/-- Who waits or is woken after an operation has done so before. -/
theorem waiting_of_notifier {notified : Option C} {r : R}
    (hmem : .waiting r ∈ notifier notified + threads ∨ .woken r ∈ notifier notified + threads) :
    .waiting r ∈ threads ∨ .woken r ∈ threads := by
  refine hmem.imp (fun h => ?_) (fun h => ?_)
  · rcases mem_notifier h with hold | ⟨c, hc⟩
    · exact hold
    · cases hc
  · rcases mem_notifier h with hold | ⟨c, hc⟩
    · exact hold
    · cases hc

end Waiting

section WakeUp

variable [DecidableEq C] (prog)

/-- A thread which is awake and will take, or has announced, a unit of `c`. -/
def Awake (c : C) : Thread R C → Bool
  | .woken r => prog.cvar r = c
  | .notifying c' => c' = c
  | _ => false

def awake (c : C) (threads : Multiset (Thread R C)) : ℕ :=
  threads.countP fun t => Awake prog c t

def unit (c : C) (notified : Option C) : ℕ := if notified = some c then 1 else 0

/-- The units which an object has for each condition.  A request waits if there are
none of its own, an operation which adds one notifies, and an operation which may
have had to wait takes one. -/
structure Accounts (avail : C → D → ℕ) (I : D → Prop) : Prop where
  keeps : ∀ d r d' out n, I d → prog.attempt d r = some (d', out, n) → I d'
  blocked : ∀ d r, I d → Blocking prog r →
    (prog.attempt d r = none ↔ avail (prog.cvar r) d = 0)
  notifies : ∀ d r d' out n, I d → prog.attempt d r = some (d', out, n) → ∀ c,
    avail c d' ≤ avail c d + unit c n
  takes : ∀ d r d' out n, I d → Blocking prog r → prog.attempt d r = some (d', out, n) →
    avail (prog.cvar r) d' + 1 ≤ avail (prog.cvar r) d + unit (prog.cvar r) n

/-- While a thread waits, the units of its condition are promised to threads which
are awake. -/
structure Promised (avail : C → D → ℕ) (I : D → Prop) (s : State D R C) : Prop where
  inv : I s.data
  blocking : ∀ r, .waiting r ∈ s.threads ∨ .woken r ∈ s.threads → Blocking prog r
  promised : ∀ c, Waited prog c s.threads → avail c s.data ≤ awake prog c s.threads

variable {prog} {avail : C → D → ℕ} {I : D → Prop} {c : C} {t : Thread R C} {r : R}
variable {threads : Multiset (Thread R C)} {s s' : State D R C} {label : Label D R C O}
variable {labels : List (Label D R C O)}

@[simp] theorem awake_cons :
    awake prog c (t ::ₘ threads) =
      awake prog c threads + if Awake prog c t = true then 1 else 0 :=
  Multiset.countP_cons _ _ _

@[simp] theorem awake_notifier (notified : Option C) :
    awake prog c (notifier notified + threads) = unit c notified + awake prog c threads := by
  unfold awake
  rw [Multiset.countP_add]
  congr 1
  cases notified with
  | none => rfl
  | some c' =>
      rw [notifier, Multiset.countP_eq_card_filter, Multiset.filter_singleton]
      by_cases hc : c' = c
      · simp [unit, Awake, hc]
      · simp [unit, Awake, hc]

theorem Promised.step (haccounts : Accounts prog avail I) (hp : Promised prog avail I s)
    (hstep : Step prog s label s') : Promised prog avail I s' := by
  obtain ⟨hinv, hblocking, hpromised⟩ := hp
  cases hstep with
  | call d threads r =>
      refine ⟨hinv, fun r' hr' => hblocking r' (by simpa using hr'), fun c hc => ?_⟩
      simpa [Awake] using hpromised c (hc.of_cons nofun)
  | @complete d d' threads t r out n htry hdone =>
      refine ⟨haccounts.keeps d r d' out n hinv hdone, fun r' hr' => ?_, fun c hc => ?_⟩
      · exact hblocking r' ((waiting_of_notifier hr').imp
          Multiset.mem_cons_of_mem Multiset.mem_cons_of_mem)
      · have hbefore : Waited prog c threads := by
          obtain ⟨r', hr', hc⟩ := hc
          rcases mem_notifier hr' with hmem | ⟨_, heq⟩
          · exact ⟨r', hmem, hc⟩
          · cases heq
        have hunits : avail c d ≤ awake prog c (t ::ₘ threads) := hpromised c hbefore.cons
        have hnotifies := haccounts.notifies d r d' out n hinv hdone c
        change avail c d' ≤ _
        rw [awake_notifier]
        cases htry with
        | ready =>
            simp only [awake_cons, Awake, Bool.false_eq_true, if_false] at hunits
            omega
        | woken =>
            have htakes := haccounts.takes d r d' out n hinv (hblocking r (Or.inr (by simp))) hdone
            by_cases hr : prog.cvar r = c
            · subst hr
              simp only [awake_cons, Awake, decide_true, if_true] at hunits
              omega
            · simp only [awake_cons, Awake, hr, decide_false, Bool.false_eq_true, if_false]
                at hunits
              omega
  | @wait d threads t r htry hblocked =>
      refine ⟨hinv, fun r' hr' => ?_, fun c hc => ?_⟩
      · by_cases hrr : r' = r
        · exact hrr ▸ ⟨d, hblocked⟩
        · refine hblocking r' (hr'.imp (fun h => ?_) (fun h => ?_))
          · exact Multiset.mem_cons_of_mem (by simpa [hrr] using h)
          · exact Multiset.mem_cons_of_mem (by simpa using h)
      · change avail c d ≤ _
        by_cases hr : prog.cvar r = c
        · have hzero := (haccounts.blocked d r hinv ⟨d, hblocked⟩).mp hblocked
          rw [← hr, hzero]
          exact Nat.zero_le _
        · have hbefore : Waited prog c threads := hc.of_cons fun r' heq => by
            cases heq
            exact hr
          have hunits := hpromised c hbefore.cons
          cases htry with
          | ready => simpa [Awake] using hunits
          | woken => simpa [Awake, hr] using hunits
  | wake d threads r =>
      refine ⟨hinv, fun r' hr' => ?_, fun c hc => ?_⟩
      · by_cases hrr : r' = r
        · exact hrr ▸ hblocking r (Or.inl (by simp))
        · exact hblocking r' (by simpa [hrr] using hr')
      · simpa [Awake] using hpromised c (hc.of_cons nofun).cons.cons
  | @idle d threads c' hnone =>
      refine ⟨hinv, fun r' hr' => hblocking r' (by simpa using hr'), fun c hc => ?_⟩
      have hne : c' ≠ c := by
        obtain ⟨r', hr', hc⟩ := hc
        exact fun heq => hnone r' hr' (hc.trans heq.symm)
      simpa [Awake, hne] using hpromised c hc.cons
  | spurious d threads r =>
      refine ⟨hinv, fun r' hr' => ?_, fun c hc => ?_⟩
      · by_cases hrr : r' = r
        · exact hrr ▸ hblocking r (Or.inl (by simp))
        · exact hblocking r' (by simpa [hrr] using hr')
      · have hunits : avail c d ≤ awake prog c (.waiting r ::ₘ threads) :=
          hpromised c (hc.of_cons nofun).cons
        change avail c d ≤ _
        simp only [awake_cons, Awake, Bool.false_eq_true, if_false] at hunits ⊢
        omega

/-- The wake-up rule. -/
theorem promised_of_run {d : D} (haccounts : Accounts prog avail I) (hd : I d)
    (hrun : Run (Step prog) ⟨d, 0⟩ labels s) : Promised prog avail I s :=
  hrun.invariant (fun _ _ _ hs hstep => hs.step haccounts hstep)
    ⟨hd, by simp, fun c hc => by obtain ⟨r, hr, -⟩ := hc; simp at hr⟩

/-! ## Settling -/

/-- No thread can move on its own. -/
def Settled (prog : Program D R C O) (s : State D R C) : Prop :=
  ∀ label s', label.IsInternal → ¬Step prog s label s'

omit [DecidableEq C] in
theorem exists_step (ht : t ∈ s.threads) (hwaiting : ∀ r, t ≠ .waiting r) :
    ∃ (label : Label D R C O) (s' : State D R C), label.IsInternal ∧ Step prog s label s' := by
  obtain ⟨threads, hthreads⟩ := Multiset.exists_cons_of_mem ht
  obtain ⟨d, all⟩ := s
  obtain rfl : all = t ::ₘ threads := hthreads
  have htrying : ∀ r, Trying r t →
      ∃ (label : Label D R C O) (s' : State D R C), label.IsInternal ∧
        Step prog ⟨d, t ::ₘ threads⟩ label s' := by
    intro r htry
    cases hattempt : prog.attempt d r with
    | none => exact ⟨.wait r, _, trivial, Step.wait htry hattempt⟩
    | some result =>
        obtain ⟨d', out, n⟩ := result
        exact ⟨.complete d r out d', _, trivial, Step.complete htry hattempt⟩
  cases t with
  | ready r => exact htrying r .ready
  | woken r => exact htrying r .woken
  | waiting r => exact absurd rfl (hwaiting r)
  | notifying c =>
      by_cases hwaited : Waited prog c threads
      · obtain ⟨r, hr, rfl⟩ := hwaited
        obtain ⟨rest, rfl⟩ := Multiset.exists_cons_of_mem hr
        exact ⟨.notify _, _, trivial, Step.wake d rest r⟩
      · exact ⟨.notify c, _, trivial, Step.idle fun r hr hc => hwaited ⟨r, hr, hc⟩⟩

/-- When no thread can move, whoever is left waits for a reason. -/
theorem Promised.of_settled (haccounts : Accounts prog avail I) (hp : Promised prog avail I s)
    (hsettled : Settled prog s) :
    ∀ t ∈ s.threads, ∃ r, t = .waiting r ∧ prog.attempt s.data r = none := by
  have hwaiting : ∀ t ∈ s.threads, ∃ r, t = .waiting r := by
    intro t ht
    by_contra hnot
    obtain ⟨label, s', hinternal, hstep⟩ := exists_step ht fun r hr => hnot ⟨r, hr⟩
    exact hsettled label s' hinternal hstep
  intro t ht
  obtain ⟨r, rfl⟩ := hwaiting t ht
  refine ⟨r, rfl, (haccounts.blocked s.data r hp.inv (hp.blocking r (Or.inl ht))).mpr ?_⟩
  have hasleep : awake prog (prog.cvar r) s.threads = 0 := by
    refine Multiset.countP_eq_zero.mpr fun t' ht' => ?_
    obtain ⟨r', rfl⟩ := hwaiting t' ht'
    simp [Awake]
  have hpromised := hp.promised (prog.cvar r) ⟨r, ht, rfl⟩
  omega

/-- What a thread can still do without a new call. -/
def weight : Thread R C → ℕ
  | .ready _ => 3
  | .woken _ => 3
  | .waiting _ => 2
  | .notifying _ => 2

def totalWeight (s : State D R C) : ℕ := (s.threads.map weight).sum

omit [DecidableEq C] in
theorem weight_notifier (notified : Option C) :
    ((notifier notified : Multiset (Thread R C)).map weight).sum ≤ 2 := by
  cases notified with
  | none => simp [notifier]
  | some c => simp [notifier, weight]

omit [DecidableEq C] in
theorem totalWeight_step (hinternal : label.IsInternal) (hstep : Step prog s label s') :
    totalWeight s' + 1 ≤ totalWeight s := by
  unfold totalWeight
  cases hstep with
  | call => exact hinternal.elim
  | @complete d d' threads t r out n htry hdone =>
      have hnotifier := weight_notifier (R := R) n
      rw [Multiset.map_add, Multiset.sum_add, Multiset.map_cons, Multiset.sum_cons]
      cases htry with
      | ready =>
          simp only [weight]
          omega
      | woken =>
          simp only [weight]
          omega
  | wait htry _ =>
      cases htry with
      | ready => simp [weight]
      | woken => simp [weight]
  | wake =>
      simp only [Multiset.map_cons, Multiset.sum_cons, weight]
      omega
  | idle => simp [weight]
  | spurious => exact hinternal.elim

omit [DecidableEq C] in
/-- The settling rule: without new calls and needless wake-ups, the threads make at
most three steps each. -/
theorem length_le_of_internal (hrun : Run (Step prog) s labels s')
    (hinternal : ∀ label ∈ labels, label.IsInternal) :
    labels.length ≤ 3 * Multiset.card s.threads := by
  have hall : labels.length + totalWeight s' ≤ totalWeight s := by
    induction hrun with
    | nil => simp
    | @snoc labels s₁ s₂ label hbefore hstep ih =>
        have hlast := totalWeight_step (hinternal label (by simp)) hstep
        have hfirst := ih fun l hl => hinternal l (by simp [hl])
        rw [List.length_append, List.length_singleton]
        omega
  have hweight : totalWeight s ≤ 3 * Multiset.card s.threads := by
    unfold totalWeight
    have hbound := Multiset.sum_le_card_nsmul (s.threads.map weight) 3 fun n hn => by
      obtain ⟨t, -, rfl⟩ := Multiset.mem_map.mp hn
      cases t with
      | _ => simp [weight]
    rw [Multiset.card_map, smul_eq_mul] at hbound
    omega
  omega

end WakeUp

end Monitor
