import Mathlib.Algebra.BigOperators.Group.List.Basic
import Mathlib.Tactic

/-!
# Runs of labelled transition systems

A system is a relation `step : S → E → S → Prop`.  A run is a finite list of
labels together with the states it connects.  The rules below are the only
inductions over runs that a development needs: an invariant rule, an
accounting rule for a quantity which every step changes by an amount that the
label shows, a potential rule which bounds a number of steps, and a conservation
rule for what every step takes in, holds and hands out.

The second half is about partial deterministic machines, functions which read
an input and return the next state and some outputs, or fail, and about the
simulation of one machine by another.
-/

namespace TransitionSystem

variable {S E M : Type*}

/-- `Run step start events s`: the labels `events`, in this order, lead from
`start` to `s`. -/
inductive Run (step : S → E → S → Prop) (start : S) : List E → S → Prop
  | nil : Run step start [] start
  | snoc {events : List E} {s s' : S} {event : E}
      (hrun : Run step start events s) (hstep : step s event s') :
      Run step start (events ++ [event]) s'

/-- What the labels of a run show after one more step. -/
theorem filterMap_concat {O : Type*} (f : E → Option O) (es : List E) (e : E) :
    (es ++ [e]).filterMap f = es.filterMap f ++ (f e).toList := by
  rw [List.filterMap_append]
  cases he : f e with
  | none => rw [List.filterMap_cons_none he, Option.toList_none, List.filterMap_nil]
  | some o => rw [List.filterMap_cons_some he, Option.toList_some, List.filterMap_nil]

namespace Run

variable {step : S → E → S → Prop} {a b c : S} {es fs : List E} {e : E}

theorem single (hstep : step a e b) : Run step a [e] b := by
  simpa using Run.snoc Run.nil hstep

theorem append (hab : Run step a es b) (hbc : Run step b fs c) :
    Run step a (es ++ fs) c := by
  induction hbc with
  | nil => simpa using hab
  | snoc _ hstep ih =>
      rw [← List.append_assoc]
      exact Run.snoc ih hstep

theorem cons (hstep : step a e b) (hrun : Run step b es c) :
    Run step a (e :: es) c :=
  append (single hstep) hrun

theorem eq_of_nil (hrun : Run step a [] b) : a = b := by
  generalize hes : ([] : List E) = es at hrun
  cases hrun with
  | nil => rfl
  | snoc => simp at hes

theorem of_concat (hrun : Run step a (es ++ [e]) c) :
    ∃ b, Run step a es b ∧ step b e c := by
  generalize hfs : es ++ [e] = fs at hrun
  cases hrun with
  | nil => simp at hfs
  | @snoc events s s' event hbefore hstep =>
      obtain ⟨rfl, hlast⟩ := List.append_inj' hfs rfl
      obtain rfl : e = event := by simpa using hlast
      exact ⟨s, hbefore, hstep⟩

theorem of_append (hrun : Run step a (es ++ fs) c) :
    ∃ b, Run step a es b ∧ Run step b fs c := by
  induction fs using List.reverseRecOn generalizing c with
  | nil => exact ⟨c, by simpa using hrun, Run.nil⟩
  | append_singleton fs f ih =>
      rw [← List.append_assoc] at hrun
      rcases of_concat hrun with ⟨d, hbefore, hstep⟩
      rcases ih hbefore with ⟨b, hab, hbd⟩
      exact ⟨b, hab, Run.snoc hbd hstep⟩

theorem of_cons (hrun : Run step a (e :: es) c) :
    ∃ b, step a e b ∧ Run step b es c := by
  have hsplit : Run step a ([e] ++ es) c := hrun
  rcases of_append hsplit with ⟨b, hfirst, hrest⟩
  have hconcat : Run step a ([] ++ [e]) b := hfirst
  rcases of_concat hconcat with ⟨a', hnil, hstep⟩
  have heq := eq_of_nil hnil
  subst a'
  exact ⟨b, hstep, hrest⟩

theorem mono {step' : S → E → S → Prop}
    (hle : ∀ s s' event, event ∈ es → step s event s' → step' s event s')
    (hrun : Run step a es b) : Run step' a es b := by
  induction hrun with
  | nil => exact Run.nil
  | @snoc events s s' event _ hstep ih =>
      refine Run.snoc (ih fun s s' e he => hle s s' e (by simp [he])) ?_
      exact hle _ _ _ (by simp) hstep

theorem invariant {I : S → Prop}
    (hstep : ∀ s event s', I s → step s event s' → I s')
    (hrun : Run step a es b) (hstart : I a) : I b := by
  induction hrun with
  | nil => exact hstart
  | snoc _ hs ih => exact hstep _ _ _ ih hs

theorem history {I : List E → S → Prop}
    (hstep : ∀ events s event s', Run step a events s → I events s →
      step s event s' → I (events ++ [event]) s')
    (hrun : Run step a es b) (hstart : I [] a) : I es b := by
  induction hrun with
  | nil => exact hstart
  | snoc hbefore hs ih => exact hstep _ _ _ _ hbefore ih hs

theorem exists_step_of_mem (hrun : Run step a es b) (he : e ∈ es) :
    ∃ s s', step s e s' := by
  obtain ⟨before, after, rfl⟩ := List.append_of_mem he
  obtain ⟨s, _, hafter⟩ := of_append hrun
  obtain ⟨s', hstep, _⟩ := of_cons hafter
  exact ⟨s, s', hstep⟩

theorem strengthen {I : S → Prop}
    (hstep : ∀ s event s', I s → step s event s' → I s')
    (hrun : Run step a es b) (hstart : I a) :
    Run (fun s event s' => I s ∧ step s event s') a es b := by
  induction hrun with
  | nil => exact Run.nil
  | snoc hbefore hs ih =>
      exact Run.snoc ih ⟨invariant hstep hbefore hstart, hs⟩

/-- The accounting rule: a quantity which each step changes by what its label
shows has changed by the sum over the labels of the run. -/
theorem account [AddMonoid M] {value : S → M} {change : E → M}
    (hstep : ∀ s event s', step s event s' →
      value s' = value s + change event)
    (hrun : Run step a es b) :
    value b = value a + (es.map change).sum := by
  induction hrun with
  | nil => simp
  | snoc _ hs ih =>
      rw [hstep _ _ _ hs, ih, List.map_append, List.sum_append]
      simp [add_assoc]

/-- The potential rule: if each step which counts is paid for by a drop of a
potential or by a credit of its own, then no more steps count than the potential
at the start and the credits of the run pay for. -/
theorem amortize {counted : E → Bool} {potential : S → ℕ} {credit : E → ℕ}
    (hstep : ∀ s event s', step s event s' →
      (if counted event then 1 else 0) + potential s' ≤ potential s + credit event)
    (hrun : Run step a es b) :
    es.countP counted + potential b ≤ potential a + (es.map credit).sum := by
  induction hrun with
  | nil => simp
  | snoc _ hs ih =>
      have hlast := hstep _ _ _ hs
      rw [List.countP_append, List.map_append, List.sum_append, List.countP_singleton,
        List.map_singleton, List.sum_singleton]
      omega

/-- The conservation rule: what was held and was taken in since is, in this
order, what has been handed out and is held now, if that is so for each step. -/
theorem conserve {O : Type*} (held : S → List O) {taken given : E → Option O}
    (hstep : ∀ s event s', step s event s' →
      held s ++ (taken event).toList = (given event).toList ++ held s')
    (hrun : Run step a es b) :
    held a ++ es.filterMap taken = es.filterMap given ++ held b := by
  induction hrun with
  | nil => simp
  | snoc _ hs ih =>
      rw [filterMap_concat, filterMap_concat, ← List.append_assoc, ih, List.append_assoc,
        hstep _ _ _ hs, List.append_assoc]

end Run

theorem filterMap_sublist {O : Type*} {f g : E → Option O}
    (hfg : ∀ e o, f e = some o → g e = some o) (es : List E) :
    (es.filterMap f).Sublist (es.filterMap g) := by
  induction es with
  | nil => exact List.Sublist.refl _
  | cons e es ih =>
      cases hf : f e with
      | none =>
          rw [List.filterMap_cons_none hf]
          exact ih.trans ((List.sublist_cons_self e es).filterMap g)
      | some o =>
          rw [List.filterMap_cons_some hf, List.filterMap_cons_some (hfg e o hf)]
          exact ih.cons_cons o

/-! ## Partial deterministic machines -/

section Exec

variable {A O : Type*} {next : S → A → Option (S × List O)}

def exec (next : S → A → Option (S × List O)) : S → List A → Option (S × List O)
  | s, [] => some (s, [])
  | s, input :: inputs =>
      (next s input).bind fun r =>
        (exec next r.1 inputs).map fun r' => (r'.1, r.2 ++ r'.2)

@[simp] theorem exec_nil (s : S) : exec next s [] = some (s, []) := rfl

theorem exec_cons_eq_some {s s'' : S} {input : A} {inputs : List A} {out : List O} :
    exec next s (input :: inputs) = some (s'', out) ↔
      ∃ s' out₁ out₂, next s input = some (s', out₁) ∧
        exec next s' inputs = some (s'', out₂) ∧ out = out₁ ++ out₂ := by
  simp only [exec, Option.bind_eq_some_iff, Option.map_eq_some_iff, Prod.exists,
    Prod.mk.injEq]
  constructor
  · intro h
    rcases h with ⟨s', out₁, hnext, t, out₂, hexec, rfl, rfl⟩
    exact ⟨s', out₁, out₂, hnext, hexec, rfl⟩
  · intro h
    rcases h with ⟨s', out₁, out₂, hnext, hexec, rfl⟩
    exact ⟨s', out₁, hnext, s'', out₂, hexec, rfl, rfl⟩

theorem exec_singleton (s : S) (input : A) : exec next s [input] = next s input := by
  simp [exec]

theorem exec_append_eq_some {s s'' : S} {first second : List A} {out : List O} :
    exec next s (first ++ second) = some (s'', out) ↔
      ∃ s' out₁ out₂, exec next s first = some (s', out₁) ∧
        exec next s' second = some (s'', out₂) ∧ out = out₁ ++ out₂ := by
  induction first generalizing s out with
  | nil => simp
  | cons input first ih =>
      simp only [List.cons_append, exec_cons_eq_some, ih]
      constructor
      · intro h
        rcases h with ⟨t, o₁, o₂, hnext, ⟨s', o₃, o₄, hfirst, hsecond, rfl⟩, rfl⟩
        exact ⟨s', o₁ ++ o₃, o₄, ⟨t, o₁, o₃, hnext, hfirst, rfl⟩, hsecond,
          by simp⟩
      · intro h
        rcases h with ⟨s', _, o₄, ⟨t, o₁, o₃, hnext, hfirst, rfl⟩, hsecond, rfl⟩
        exact ⟨t, o₁, o₃ ++ o₄, hnext, ⟨s', o₃, o₄, hfirst, hsecond, rfl⟩,
          by simp⟩

theorem exec_concat_eq_some {s s'' : S} {inputs : List A} {input : A} {out : List O} :
    exec next s (inputs ++ [input]) = some (s'', out) ↔
      ∃ s' out₁ out₂, exec next s inputs = some (s', out₁) ∧
        next s' input = some (s'', out₂) ∧ out = out₁ ++ out₂ := by
  simp only [exec_append_eq_some, exec_cons_eq_some, exec_nil, Option.some.injEq,
    Prod.mk.injEq]
  constructor
  · intro h
    rcases h with ⟨s', o₁, o₂, hfirst, ⟨t, o₃, o₄, hnext, ⟨rfl, rfl⟩, rfl⟩, rfl⟩
    exact ⟨s', o₁, o₃, hfirst, hnext, by simp⟩
  · intro h
    rcases h with ⟨s', o₁, o₂, hfirst, hnext, rfl⟩
    exact ⟨s', o₁, o₂, hfirst, ⟨s'', o₂, [], hnext, ⟨rfl, rfl⟩, by simp⟩, rfl⟩

theorem exec_invariant {start : S} {I : List A → S → List O → Prop}
    (hstart : I [] start [])
    (hnext : ∀ inputs s out input s' out',
      exec next start inputs = some (s, out) → I inputs s out →
      next s input = some (s', out') → I (inputs ++ [input]) s' (out ++ out'))
    {inputs : List A} {s : S} {out : List O}
    (hexec : exec next start inputs = some (s, out)) : I inputs s out := by
  induction inputs using List.reverseRecOn generalizing s out with
  | nil =>
      obtain ⟨rfl, rfl⟩ : start = s ∧ [] = out := by simpa using hexec
      exact hstart
  | append_singleton inputs input ih =>
      rcases exec_concat_eq_some.mp hexec with ⟨s', o₁, o₂, hbefore, hlast, rfl⟩
      exact hnext _ _ _ _ _ _ hbefore (ih hbefore) hlast

/-- A machine never fails on admissible inputs when each admissible input is
accepted in every state reached by admissible inputs. -/
theorem exec_total {start : S} {I : List A → Prop}
    (hinit : ∀ inputs input, I (inputs ++ [input]) → I inputs)
    (hnext : ∀ inputs s out input, exec next start inputs = some (s, out) →
      I (inputs ++ [input]) → ∃ s' out', next s input = some (s', out'))
    (inputs : List A) (hadm : I inputs) :
    ∃ s out, exec next start inputs = some (s, out) := by
  induction inputs using List.reverseRecOn with
  | nil => exact ⟨start, [], rfl⟩
  | append_singleton inputs input ih =>
      rcases ih (hinit _ _ hadm) with ⟨s, out, hexec⟩
      rcases hnext _ _ _ _ hexec hadm with ⟨s', out', hlast⟩
      exact ⟨s', out ++ out',
        exec_concat_eq_some.mpr ⟨s, out, out', hexec, hlast, rfl⟩⟩

/-- Each input of the run meets `C` in the state which it finds. -/
def ExecEach (next : S → A → Option (S × List O)) (start : S) (C : S → A → Prop)
    (inputs : List A) : Prop :=
  ∀ before input after s out, inputs = before ++ input :: after →
    exec next start before = some (s, out) → C s input

theorem ExecEach.before {start : S} {C : S → A → Prop} {inputs rest : List A}
    (heach : ExecEach next start C (inputs ++ rest)) : ExecEach next start C inputs := by
  intro before input after s out hsplit hexec
  exact heach before input (after ++ rest) s out (by simp [hsplit]) hexec

/-- An invariant which every input meeting `C` keeps. -/
theorem ExecEach.invariant {start : S} {C : S → A → Prop} {I : S → Prop} (hstart : I start)
    (hnext : ∀ s input s' out, I s → C s input → next s input = some (s', out) → I s')
    {inputs : List A} (heach : ExecEach next start C inputs) {s : S} {out : List O}
    (hexec : exec next start inputs = some (s, out)) : I s := by
  have hall := exec_invariant (I := fun inputs s _ => ExecEach next start C inputs → I s)
    (fun _ => hstart) ?_ hexec
  · exact hall heach
  · intro inputs s out input s' out' hbefore ih hlast heach
    exact hnext s input s' out' (ih heach.before)
      (heach inputs input [] s out rfl hbefore) hlast

theorem execEach_concat_iff {start : S} {C : S → A → Prop} {inputs : List A} {input : A} :
    ExecEach next start C (inputs ++ [input]) ↔
      ExecEach next start C inputs ∧
        ∀ s out, exec next start inputs = some (s, out) → C s input := by
  constructor
  · intro heach
    exact ⟨heach.before, fun s out hexec => heach inputs input [] s out rfl hexec⟩
  · intro h before other after s out hsplit hexec
    obtain ⟨hbefore, hlast⟩ := h
    rcases List.eq_nil_or_concat after with rfl | ⟨after, last, rfl⟩
    · obtain ⟨rfl, heq⟩ := List.append_inj' hsplit rfl
      rw [← List.singleton_inj.mp heq]
      exact hlast s out hexec
    · rw [List.concat_eq_append, ← List.cons_append, ← List.append_assoc] at hsplit
      exact hbefore before other after s out (List.append_inj' hsplit rfl).1 hexec

/-- A machine which checks `C` before each step, on the inputs of a run. -/
theorem exec_checked_iff {next' : S → A → Option (S × List O)} {start : S}
    {C : S → A → Prop} {inputs : List A}
    (hnext : ∀ before input after s out, inputs = before ++ input :: after →
      exec next start before = some (s, out) → ∀ result,
        (next' s input = some result ↔ next s input = some result ∧ C s input))
    {s : S} {out : List O} :
    exec next' start inputs = some (s, out) ↔
      exec next start inputs = some (s, out) ∧ ExecEach next start C inputs := by
  induction inputs using List.reverseRecOn generalizing s out with
  | nil => simp [ExecEach]
  | append_singleton inputs input ih =>
      have hbefore : ∀ t o, exec next' start inputs = some (t, o) ↔
          exec next start inputs = some (t, o) ∧ ExecEach next start C inputs :=
        fun t o => ih fun before other after t o hsplit =>
          hnext before other (after ++ [input]) t o (by simp [hsplit])
      rw [exec_concat_eq_some, exec_concat_eq_some, execEach_concat_iff]
      constructor
      · intro h
        obtain ⟨t, o₁, o₂, hfirst, hlast, rfl⟩ := h
        obtain ⟨hexec, heach⟩ := (hbefore t o₁).mp hfirst
        obtain ⟨hstep, hcheck⟩ := (hnext inputs input [] t o₁ rfl hexec _).mp hlast
        refine ⟨⟨t, o₁, o₂, hexec, hstep, rfl⟩, heach, ?_⟩
        intro t' o' hexec'
        rw [hexec, Option.some.injEq, Prod.mk.injEq] at hexec'
        exact hexec'.1 ▸ hcheck
      · intro h
        obtain ⟨⟨t, o₁, o₂, hexec, hstep, rfl⟩, heach, hcheck⟩ := h
        exact ⟨t, o₁, o₂, (hbefore t o₁).mpr ⟨hexec, heach⟩,
          (hnext inputs input [] t o₁ rfl hexec _).mpr ⟨hstep, hcheck t o₁ hexec⟩, rfl⟩

/-- The simulation rule: if related states answer corresponding inputs with
corresponding outputs and stay related, so do they over runs. -/
theorem exec_simulation {T B Q : Type*} {next' : T → B → Option (T × List Q)}
    {R : S → T → Prop} {f : A → B} {g : O → Q}
    (hnext : ∀ s t input s' out, R s t → next s input = some (s', out) →
      ∃ t', next' t (f input) = some (t', out.map g) ∧ R s' t')
    {s s' : S} {t : T} (hR : R s t) {inputs : List A} {out : List O}
    (hexec : exec next s inputs = some (s', out)) :
    ∃ t', exec next' t (inputs.map f) = some (t', out.map g) ∧ R s' t' := by
  induction inputs generalizing s t out with
  | nil =>
      obtain ⟨rfl, rfl⟩ : s = s' ∧ [] = out := by simpa using hexec
      exact ⟨t, rfl, hR⟩
  | cons input inputs ih =>
      rcases exec_cons_eq_some.mp hexec with ⟨s₁, out₁, out₂, hfirst, hrest, rfl⟩
      rcases hnext _ _ _ _ _ hR hfirst with ⟨t₁, hfirst', hR₁⟩
      rcases ih hR₁ hrest with ⟨t', hrest', hR'⟩
      refine ⟨t', ?_, hR'⟩
      rw [List.map_cons, List.map_append]
      exact exec_cons_eq_some.mpr ⟨t₁, _, _, hfirst', hrest', rfl⟩

end Exec

end TransitionSystem
