import Mathlib.Algebra.BigOperators.Group.List.Basic
import Mathlib.Algebra.Order.Ring.Defs
import Mathlib.Tactic

/-!
# Leaky buckets and sliding windows

A bucket stores one level and the time at which it was recorded.  The level
drains at a fixed rate and is clamped at zero before an arrival is added.
The theorem of this module says what the two stored numbers mean: the decayed
level is the largest excess, over all windows which start at an arrival and
end now, of the accepted volume over the drained volume.
-/

namespace LeakyBucket

variable {R : Type*} [CommRing R] [LinearOrder R]

structure Arrival (R : Type*) where
  time : R
  volume : R

structure Bucket (R : Type*) where
  level : R
  last : R

def Bucket.decayed (rate : R) (bucket : Bucket R) (t : R) : R :=
  bucket.level - rate * (t - bucket.last)

def Bucket.pour (rate : R) (bucket : Bucket R) (arrival : Arrival R) : Bucket R where
  level := max 0 (bucket.decayed rate arrival.time) + arrival.volume
  last := arrival.time

def Bucket.fill (rate : R) (bucket : Bucket R) (history : List (Arrival R)) : Bucket R :=
  history.foldl (Bucket.pour rate) bucket

def volume (history : List (Arrival R)) : R :=
  (history.map Arrival.volume).sum

/-- By how much the arrivals from `first` on exceed what has drained by `t`. -/
def excess (rate : R) (first : Arrival R) (rest : List (Arrival R)) (t : R) : R :=
  volume (first :: rest) - rate * (t - first.time)

@[simp] theorem Bucket.fill_nil (rate : R) (bucket : Bucket R) :
    bucket.fill rate [] = bucket := rfl

theorem Bucket.fill_append (rate : R) (bucket : Bucket R) (first second : List (Arrival R)) :
    bucket.fill rate (first ++ second) = (bucket.fill rate first).fill rate second :=
  List.foldl_append

@[simp] theorem Bucket.fill_concat (rate : R) (bucket : Bucket R)
    (history : List (Arrival R)) (arrival : Arrival R) :
    bucket.fill rate (history ++ [arrival]) =
      (bucket.fill rate history).pour rate arrival := by
  simp [Bucket.fill]

omit [LinearOrder R] in
@[simp] theorem volume_append (first second : List (Arrival R)) :
    volume (first ++ second) = volume first + volume second := by
  simp [volume]

omit [LinearOrder R] in
@[simp] theorem volume_singleton (arrival : Arrival R) :
    volume [arrival] = arrival.volume := by
  simp [volume]

omit [LinearOrder R] in
theorem excess_concat (rate : R) (first : Arrival R) (rest : List (Arrival R))
    (arrival : Arrival R) (t : R) :
    excess rate first (rest ++ [arrival]) t =
      excess rate first rest arrival.time + arrival.volume -
        rate * (t - arrival.time) := by
  have hvolume : volume (first :: (rest ++ [arrival])) =
      volume (first :: rest) + arrival.volume := by
    rw [← List.cons_append, volume_append, volume_singleton]
  unfold excess
  rw [hvolume]
  ring

theorem exists_excess_eq_decayed (rate : R) (bucket : Bucket R)
    {history : List (Arrival R)} (hne : history ≠ [])
    (hempty : ∀ arrival ∈ history.head?, bucket.decayed rate arrival.time ≤ 0)
    (t : R) :
    ∃ before first rest, history = before ++ first :: rest ∧
      excess rate first rest t = (bucket.fill rate history).decayed rate t := by
  induction history using List.reverseRecOn generalizing t with
  | nil => exact absurd rfl hne
  | append_singleton history arrival ih =>
      by_cases hlevel : (bucket.fill rate history).decayed rate arrival.time ≤ 0
      · -- the bucket had run dry: the window starts at the new arrival
        refine ⟨history, arrival, [], rfl, ?_⟩
        rw [Bucket.fill_concat]
        simp only [Bucket.decayed, Bucket.pour, excess, volume_singleton]
        rw [max_eq_left (by simpa only [Bucket.decayed] using hlevel)]
        ring
      · have hhistory : history ≠ [] := by
          rintro rfl
          exact hlevel (hempty arrival (by simp))
        have hhead : ∀ other ∈ history.head?, bucket.decayed rate other.time ≤ 0 := by
          intro other hother
          apply hempty
          rw [List.head?_append, Option.mem_def.mp hother]
          rfl
        rcases ih hhistory hhead arrival.time with ⟨before, first, rest, rfl, heq⟩
        refine ⟨before, first, rest ++ [arrival], by simp, ?_⟩
        rw [excess_concat, heq, Bucket.fill_concat]
        simp only [Bucket.decayed, Bucket.pour] at hlevel ⊢
        rw [max_eq_right (le_of_lt (not_le.mp hlevel))]

variable [IsStrictOrderedRing R]

theorem Bucket.level_fill_zero {bucket : Bucket R} (hlevel : 0 ≤ bucket.level)
    {history : List (Arrival R)} (hvolume : ∀ arrival ∈ history, 0 ≤ arrival.volume) :
    (bucket.fill 0 history).level = bucket.level + volume history ∧
      0 ≤ (bucket.fill 0 history).level := by
  induction history using List.reverseRecOn with
  | nil => simpa [volume] using hlevel
  | append_singleton history arrival ih =>
      obtain ⟨heq, hnonneg⟩ := ih fun other hother =>
        hvolume other (List.mem_append_left _ hother)
      have harrival := hvolume arrival (by simp)
      simp only [Bucket.fill_concat, Bucket.pour, Bucket.decayed, zero_mul, sub_zero,
        max_eq_right hnonneg, volume_append, volume_singleton]
      constructor
      · rw [heq]
        ring
      · exact add_nonneg hnonneg harrival

/-- The decayed level bounds the excess of every window. -/
theorem excess_le_decayed (rate : R) (bucket : Bucket R)
    {before rest : List (Arrival R)} {first : Arrival R} (t : R) :
    excess rate first rest t ≤
      (bucket.fill rate (before ++ first :: rest)).decayed rate t := by
  induction rest using List.reverseRecOn generalizing t with
  | nil =>
      rw [Bucket.fill_concat]
      simp only [excess, Bucket.decayed, Bucket.pour, volume_singleton]
      have hclamp := le_max_left 0
        ((bucket.fill rate before).level -
          rate * (first.time - (bucket.fill rate before).last))
      linarith
  | append_singleton rest arrival ih =>
      rw [excess_concat, ← List.cons_append, ← List.append_assoc, Bucket.fill_concat]
      have hbefore := ih arrival.time
      simp only [Bucket.decayed, Bucket.pour] at hbefore ⊢
      have hclamp := le_max_right 0
        ((bucket.fill rate (before ++ first :: rest)).level - rate *
          (arrival.time - (bucket.fill rate (before ++ first :: rest)).last))
      linarith

/-- The level exceeds a ceiling exactly when some window does.  The ceiling is
nonnegative and the bucket starts out empty. -/
theorem lt_decayed_iff (rate ceiling : R) (bucket : Bucket R)
    {history : List (Arrival R)} {t : R}
    (hempty : ∀ arrival ∈ history.head?, bucket.decayed rate arrival.time ≤ 0)
    (hnow : history = [] → bucket.decayed rate t ≤ ceiling) :
    ceiling < (bucket.fill rate history).decayed rate t ↔
      ∃ before first rest, history = before ++ first :: rest ∧
        ceiling < excess rate first rest t := by
  constructor
  · intro hlt
    have hne : history ≠ [] := by
      rintro rfl
      exact absurd (hnow rfl) (not_le.mpr hlt)
    rcases exists_excess_eq_decayed rate bucket hne hempty t with
      ⟨before, first, rest, hsplit, heq⟩
    exact ⟨before, first, rest, hsplit, heq ▸ hlt⟩
  · intro hwindow
    rcases hwindow with ⟨before, first, rest, rfl, hlt⟩
    exact hlt.trans_le (excess_le_decayed rate bucket t)

/-! ## Conforming histories -/

def Conforms (rate ceiling : R) (bucket : Bucket R) (history : List (Arrival R)) : Prop :=
  ∀ before arrival after, history = before ++ arrival :: after →
    (bucket.fill rate before).decayed rate arrival.time ≤ ceiling

omit [IsStrictOrderedRing R] in
theorem conforms_nil (rate ceiling : R) (bucket : Bucket R) :
    Conforms rate ceiling bucket [] := by
  intro before arrival after hsplit
  simp at hsplit

omit [IsStrictOrderedRing R] in
theorem Conforms.concat {rate ceiling : R} {bucket : Bucket R} {history : List (Arrival R)}
    (hconforms : Conforms rate ceiling bucket history) {arrival : Arrival R}
    (hlevel : (bucket.fill rate history).decayed rate arrival.time ≤ ceiling) :
    Conforms rate ceiling bucket (history ++ [arrival]) := by
  intro before other after hsplit
  rcases List.eq_nil_or_concat after with hnil | ⟨after', last, hafter⟩
  · subst after
    obtain ⟨hbefore, hother⟩ := List.append_inj' hsplit rfl
    simp only [List.cons.injEq, and_true] at hother
    rw [← hbefore, ← hother]
    exact hlevel
  · subst after
    rw [List.concat_eq_append, ← List.cons_append, ← List.append_assoc] at hsplit
    exact hconforms before other after' (List.append_inj' hsplit rfl).1

/-- In a conforming history no window is overdrawn by more than its last
arrival. -/
theorem Conforms.volume_le {rate ceiling : R} {bucket : Bucket R}
    {history : List (Arrival R)} (hconforms : Conforms rate ceiling bucket history)
    (hceiling : 0 ≤ ceiling) {before segment after : List (Arrival R)}
    (hsplit : history = before ++ segment ++ after) {first last : Arrival R}
    (hfirst : segment.head? = some first) (hlast : segment.getLast? = some last) :
    volume segment ≤ ceiling + last.volume + rate * (last.time - first.time) := by
  obtain ⟨rest, rfl⟩ := List.head?_eq_some_iff.mp hfirst
  rcases List.eq_nil_or_concat rest with hnil | ⟨middle, last', hrest⟩
  · subst rest
    simp only [List.getLast?_singleton, Option.some.injEq] at hlast
    subst last
    simpa using hceiling
  · subst rest
    rw [List.concat_eq_append, ← List.cons_append] at hlast hsplit ⊢
    rw [List.getLast?_concat, Option.some.injEq] at hlast
    subst last'
    have hlevel := hconforms (before ++ first :: middle) last after (by simp [hsplit])
    have hexcess : excess rate first middle last.time ≤ ceiling :=
      (excess_le_decayed rate bucket last.time).trans hlevel
    rw [volume_append, volume_singleton]
    unfold excess at hexcess
    linarith

/-! ## Time intervals -/

omit [IsStrictOrderedRing R] [CommRing R] in
/-- In a sequence ordered by time, the part in an interval is a segment. -/
theorem eq_append_filter {α : Type*} (time : α → R) {s t : R} (hst : s ≤ t) {l : List α}
    (hsorted : l.Pairwise fun a b => time a ≤ time b) :
    l = l.filter (fun a => time a < s) ++ l.filter (fun a => s ≤ time a ∧ time a ≤ t) ++
      l.filter (fun a => t < time a) := by
  induction l with
  | nil => rfl
  | cons a l ih =>
      obtain ⟨hfirst, hrest⟩ := List.pairwise_cons.mp hsorted
      have hnone : ∀ P : α → Bool, (∀ b, time a ≤ time b → P b = false) →
          l.filter P = [] := by
        intro P hP
        apply List.filter_eq_nil_iff.mpr
        intro b hb
        simp [hP b (hfirst b hb)]
      by_cases hbefore : time a < s
      · have hle : time a ≤ t := hbefore.le.trans hst
        simpa [hbefore, not_le.mpr hbefore, not_lt.mpr hle] using ih hrest
      · have hearly := hnone (fun b => time b < s) fun b hb => by
          simpa using (not_lt.mp hbefore).trans hb
        rw [hearly] at ih
        by_cases hwithin : time a ≤ t
        · simpa [hbefore, hwithin, not_lt.mp hbefore, not_lt.mpr hwithin, hearly]
            using ih hrest
        · have hwindow := hnone (fun b => decide (s ≤ time b) && decide (time b ≤ t))
            fun b hb => by simpa using fun _ => (not_le.mp hwithin).trans_le hb
          simp only [Bool.decide_and, hwindow] at ih ⊢
          simpa [hbefore, hwithin, not_le.mp hwithin, hearly, hwindow] using ih hrest

/-- No segment holds more than the ceiling and what drains from its first arrival to
its last. -/
def Bounded (rate ceiling : R) (history : List (Arrival R)) : Prop :=
  ∀ before segment after first last, history = before ++ segment ++ after →
    segment.head? = some first → segment.getLast? = some last →
      volume segment ≤ ceiling + rate * (last.time - first.time)

omit [IsStrictOrderedRing R] [CommRing R] in
theorem time_le_of_segment {history before segment after : List (Arrival R)}
    {first last : Arrival R} (hsorted : history.Pairwise fun a b => a.time ≤ b.time)
    (hsplit : history = before ++ segment ++ after) (hfirst : segment.head? = some first)
    (hlast : segment.getLast? = some last) : first.time ≤ last.time := by
  obtain ⟨rest, rfl⟩ := List.head?_eq_some_iff.mp hfirst
  rw [hsplit, List.append_assoc, List.pairwise_append] at hsorted
  have hsegment := (List.pairwise_append.mp hsorted.2.1).1
  cases List.mem_cons.mp (List.mem_of_getLast? hlast) with
  | inl heq => rw [heq]
  | inr hmem => exact (List.pairwise_cons.mp hsegment).1 last hmem

theorem Bounded.volume_interval_le {rate ceiling : R} {history : List (Arrival R)}
    (hbounded : Bounded rate ceiling history) (hceiling : 0 ≤ ceiling) (hrate : 0 ≤ rate)
    (hsorted : history.Pairwise fun a b => a.time ≤ b.time) {s t : R} (hst : s ≤ t) :
    volume (history.filter fun a => s ≤ a.time ∧ a.time ≤ t) ≤ ceiling + rate * (t - s) := by
  have hsplit := eq_append_filter Arrival.time hst hsorted
  cases hfirst : (history.filter fun a => s ≤ a.time ∧ a.time ≤ t).head? with
  | none =>
      have hdrained : 0 ≤ rate * (t - s) := mul_nonneg hrate (sub_nonneg.mpr hst)
      rw [List.head?_eq_none_iff.mp hfirst]
      simp only [volume, List.map_nil, List.sum_nil]
      linarith
  | some first =>
      have hne : (history.filter fun a => s ≤ a.time ∧ a.time ≤ t) ≠ [] := by
        intro hnil
        rw [hnil] at hfirst
        simp at hfirst
      have hlast := List.getLast?_eq_some_getLast hne
      have hbound := hbounded _ _ _ _ _ hsplit hfirst hlast
      have hfirstMem := List.mem_filter.mp (List.mem_of_mem_head? hfirst)
      have hlastMem := List.mem_filter.mp (List.getLast_mem hne)
      simp only [decide_eq_true_eq] at hfirstMem hlastMem
      have hspan := mul_le_mul_of_nonneg_left
        (sub_le_sub hlastMem.2.2 hfirstMem.2.1) hrate
      linarith

/-- Over every time interval a conforming history holds at most the ceiling, one
largest arrival and what drains in the interval. -/
theorem Conforms.volume_interval_le {rate ceiling : R} {bucket : Bucket R}
    {history : List (Arrival R)} (hconforms : Conforms rate ceiling bucket history)
    (hceiling : 0 ≤ ceiling) (hrate : 0 ≤ rate)
    (hsorted : history.Pairwise fun a b => a.time ≤ b.time) {s t largest : R} (hst : s ≤ t)
    (hlargest : 0 ≤ largest) (hvolume : ∀ a ∈ history, a.volume ≤ largest) :
    volume (history.filter fun a => s ≤ a.time ∧ a.time ≤ t) ≤
      ceiling + largest + rate * (t - s) := by
  apply Bounded.volume_interval_le _ (add_nonneg hceiling hlargest) hrate hsorted hst
  intro before segment after first last hsplit hfirst hlast
  have hbound := hconforms.volume_le hceiling hsplit hfirst hlast
  have hlastVolume := hvolume last (by
    rw [hsplit]
    exact List.mem_append_left _ (List.mem_append_right _ (List.mem_of_getLast? hlast)))
  linarith

/-! ## Histories within the ceiling -/

omit [IsStrictOrderedRing R] in
@[simp] theorem Bucket.last_fill_concat (rate : R) (bucket : Bucket R)
    (history : List (Arrival R)) (arrival : Arrival R) :
    (bucket.fill rate (history ++ [arrival])).last = arrival.time := by
  rw [Bucket.fill_concat]
  rfl

omit [IsStrictOrderedRing R] in
theorem Bucket.decayed_fill_concat (rate : R) (bucket : Bucket R)
    (history : List (Arrival R)) (arrival : Arrival R) :
    (bucket.fill rate (history ++ [arrival])).decayed rate arrival.time =
      (bucket.fill rate (history ++ [arrival])).level := by
  rw [Bucket.decayed, Bucket.last_fill_concat, sub_self, mul_zero, sub_zero]

/-- No segment exceeds the ceiling exactly if no arrival raises the level above it.
The bucket starts out empty. -/
theorem bounded_iff_level (rate ceiling : R) (bucket : Bucket R) {history : List (Arrival R)}
    (hempty : ∀ arrival ∈ history.head?, bucket.decayed rate arrival.time ≤ 0) :
    Bounded rate ceiling history ↔
      ∀ before arrival after, history = before ++ arrival :: after →
        (bucket.fill rate (before ++ [arrival])).level ≤ ceiling := by
  constructor
  · intro hbounded before arrival after hsplit
    have hhead : ∀ other ∈ (before ++ [arrival]).head?, bucket.decayed rate other.time ≤ 0 := by
      intro other hother
      apply hempty
      rw [hsplit, List.append_cons, List.head?_append, Option.mem_def.mp hother]
      rfl
    obtain ⟨first, start, rest, hwindow, hexcess⟩ := exists_excess_eq_decayed rate bucket
      (List.append_ne_nil_of_right_ne_nil before (List.cons_ne_nil arrival [])) hhead arrival.time
    have hlast : (start :: rest).getLast? = some arrival := by
      have hgetLast := congrArg List.getLast? hwindow
      rw [List.getLast?_concat, List.getLast?_append_of_ne_nil _ (List.cons_ne_nil _ _)] at hgetLast
      exact hgetLast.symm
    have hvolume := hbounded first (start :: rest) after start arrival
      (by rw [hsplit, List.append_cons, hwindow]) rfl hlast
    rw [← Bucket.decayed_fill_concat, ← hexcess, excess]
    linarith
  · intro hlevels before segment after first last hsplit hfirst hlast
    obtain ⟨rest, rfl⟩ := List.head?_eq_some_iff.mp hfirst
    obtain ⟨init, hinit⟩ := List.getLast?_eq_some_iff.mp hlast
    have hlevel := hlevels (before ++ init) last after (by rw [hsplit, hinit]; simp)
    rw [← Bucket.decayed_fill_concat, List.append_assoc, ← hinit] at hlevel
    have hexcess := (excess_le_decayed rate bucket last.time).trans hlevel
    rw [excess] at hexcess
    linarith

theorem bounded_of_volume_le {rate ceiling : R} {history : List (Arrival R)} (hrate : 0 ≤ rate)
    (hsorted : history.Pairwise fun a b => a.time ≤ b.time)
    (hvolume : ∀ a ∈ history, 0 ≤ a.volume) (htotal : volume history ≤ ceiling) :
    Bounded rate ceiling history := by
  intro before segment after first last hsplit hfirst hlast
  have hnonneg : ∀ part, (∀ a ∈ part, a ∈ history) → 0 ≤ volume part := by
    intro part hpart
    apply List.sum_nonneg
    intro x hx
    obtain ⟨a, ha, rfl⟩ := List.mem_map.mp hx
    exact hvolume a (hpart a ha)
  have hbefore := hnonneg before fun a ha => by simp [hsplit, ha]
  have hafter := hnonneg after fun a ha => by simp [hsplit, ha]
  rw [hsplit, volume_append, volume_append] at htotal
  have hspan := time_le_of_segment hsorted hsplit hfirst hlast
  have hdrained := mul_nonneg hrate (sub_nonneg.mpr hspan)
  linarith

end LeakyBucket
