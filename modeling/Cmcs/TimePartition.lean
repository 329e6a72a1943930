import Mathlib.Data.List.Chain
import Mathlib.Data.List.Pairwise
import Mathlib.Order.Defs.LinearOrder
import Mathlib.Tactic

/-!
# Partitions of a time axis

The adjacent pairs of a strictly increasing list of boundaries cut the time between
the first and the last into half-open cells.  Nothing with its ends among the
boundaries begins or ends inside a cell, so what holds at one instant of a cell
holds at all of them.
-/

namespace TimePartition

variable {α β : Type*}

/-- Each element of a list with its successor. -/
def adjacent (l : List β) : List (β × β) := l.zip l.tail

@[simp] theorem adjacent_nil : adjacent ([] : List β) = [] := rfl

@[simp] theorem adjacent_singleton (a : β) : adjacent [a] = [] := rfl

@[simp] theorem adjacent_cons_cons (a b : β) (l : List β) :
    adjacent (a :: b :: l) = (a, b) :: adjacent (b :: l) := rfl

theorem mem_of_adjacent {l : List β} {p : β × β} (hp : p ∈ adjacent l) :
    p.1 ∈ l ∧ p.2 ∈ l :=
  ⟨(List.of_mem_zip hp).1, List.mem_of_mem_tail (List.of_mem_zip hp).2⟩

theorem forall_adjacent_iff {R : β → β → Prop} (l : List β) :
    (∀ p ∈ adjacent l, R p.1 p.2) ↔ l.IsChain R := by
  induction l with
  | nil => simp
  | cons a l ih =>
      cases l with
      | nil => simp
      | cons b l => rw [adjacent_cons_cons, List.forall_mem_cons, ih, List.isChain_cons_cons]

theorem isChain_adjacent (l : List β) :
    (adjacent l).IsChain fun p p' => p.2 = p'.1 := by
  induction l with
  | nil => simp
  | cons a l ih =>
      cases l with
      | nil => simp
      | cons b l =>
          cases l with
          | nil => simp
          | cons c l =>
              rw [adjacent_cons_cons, adjacent_cons_cons, List.isChain_cons_cons]
              exact ⟨rfl, ih⟩

/-- `t` lies in the half-open interval `[start, stop)`. -/
def Within [LinearOrder α] (start stop t : α) : Prop := start ≤ t ∧ t < stop

instance [LinearOrder α] (start stop t : α) : Decidable (Within start stop t) :=
  inferInstanceAs (Decidable (_ ∧ _))

variable [LinearOrder α]

/-! ## The cells -/

section Cells

variable {l : List α} {p : α × α} {t t' a b : α}

theorem lt_of_adjacent (hsorted : l.Pairwise (· < ·)) (hp : p ∈ adjacent l) : p.1 < p.2 :=
  (forall_adjacent_iff l).mpr (List.isChain_iff_pairwise.mpr hsorted) p hp

theorem not_inside (hsorted : l.Pairwise (· < ·)) (hp : p ∈ adjacent l) (ha : a ∈ l) :
    a ≤ p.1 ∨ p.2 ≤ a := by
  induction l with
  | nil => simp at ha
  | cons b l ih =>
      cases l with
      | nil => simp at hp
      | cons c l =>
          have hlater := (List.pairwise_cons.mp hsorted).2
          rw [adjacent_cons_cons, List.mem_cons] at hp
          cases hp with
          | inl hfirst =>
              subst p
              cases List.mem_cons.mp ha with
              | inl heq => exact Or.inl heq.le
              | inr hmem =>
                  refine Or.inr ?_
                  cases List.mem_cons.mp hmem with
                  | inl heq => exact heq.ge
                  | inr hmem => exact ((List.pairwise_cons.mp hlater).1 a hmem).le
          | inr hrest =>
              cases List.mem_cons.mp ha with
              | inr hmem => exact ih hlater hrest hmem
              | inl heq =>
                  subst a
                  exact Or.inl ((List.pairwise_cons.mp hsorted).1 _ (mem_of_adjacent hrest).1).le

theorem pairwise_adjacent (hsorted : l.Pairwise (· < ·)) :
    (adjacent l).Pairwise fun p p' => p.2 ≤ p'.1 := by
  induction l with
  | nil => simp
  | cons a l ih =>
      cases l with
      | nil => simp
      | cons b l =>
          have hlater := (List.pairwise_cons.mp hsorted).2
          rw [adjacent_cons_cons, List.pairwise_cons]
          refine ⟨fun p hp => ?_, ih hlater⟩
          cases List.mem_cons.mp (mem_of_adjacent hp).1 with
          | inl heq => exact heq.ge
          | inr hmem => exact ((List.pairwise_cons.mp hlater).1 _ hmem).le

/-- The cells cover exactly the time from the first boundary to the last one. -/
theorem exists_cell_iff (hsorted : l.Pairwise (· < ·)) (t : α) :
    (∃ p ∈ adjacent l, Within p.1 p.2 t) ↔ (∃ a ∈ l, a ≤ t) ∧ ∃ b ∈ l, t < b := by
  constructor
  · intro hcell
    obtain ⟨p, hp, hstart, hstop⟩ := hcell
    exact ⟨⟨p.1, (mem_of_adjacent hp).1, hstart⟩, p.2, (mem_of_adjacent hp).2, hstop⟩
  · intro hbounds
    obtain ⟨⟨a, ha, hat⟩, b, hb, htb⟩ := hbounds
    induction l generalizing a with
    | nil => simp at ha
    | cons c l ih =>
        have hfirst : c ≤ t := by
          cases List.mem_cons.mp ha with
          | inl heq => exact heq ▸ hat
          | inr hmem => exact ((List.pairwise_cons.mp hsorted).1 a hmem).le.trans hat
        have hb' : b ∈ l := by
          cases List.mem_cons.mp hb with
          | inl heq => exact absurd (heq ▸ htb) (not_lt.mpr hfirst)
          | inr hmem => exact hmem
        cases l with
        | nil => simp at hb'
        | cons d l =>
            rw [adjacent_cons_cons]
            by_cases hd : t < d
            · exact ⟨(c, d), List.mem_cons_self, hfirst, hd⟩
            · obtain ⟨p, hp, hwithin⟩ := ih (List.pairwise_cons.mp hsorted).2 d
                List.mem_cons_self (not_lt.mp hd) hb'
              exact ⟨p, List.mem_cons_of_mem _ hp, hwithin⟩

/-- What contains one instant of a cell contains all of them. -/
theorem within_congr (hsorted : l.Pairwise (· < ·)) (hp : p ∈ adjacent l)
    (ht : Within p.1 p.2 t) (ht' : Within p.1 p.2 t') (ha : a ∈ l) (hb : b ∈ l) :
    Within a b t ↔ Within a b t' := by
  have hstart : ∀ {t}, Within p.1 p.2 t → (a ≤ t ↔ a ≤ p.1) := fun ht => by
    cases not_inside hsorted hp ha with
    | inl hle => exact iff_of_true (hle.trans ht.1) hle
    | inr hge =>
        have hlt := lt_of_lt_of_le ht.2 hge
        exact iff_of_false hlt.not_ge (lt_of_le_of_lt ht.1 hlt).not_ge
  have hstop : ∀ {t}, Within p.1 p.2 t → (t < b ↔ p.1 < b) := fun ht => by
    cases not_inside hsorted hp hb with
    | inl hle => exact iff_of_false (not_lt.mpr (hle.trans ht.1)) hle.not_gt
    | inr hge => exact iff_of_true (lt_of_lt_of_le ht.2 hge) (lt_of_le_of_lt ht.1
        (lt_of_lt_of_le ht.2 hge))
  unfold Within
  rw [hstart ht, hstart ht', hstop ht, hstop ht']

end Cells

/-! ## Intervals which follow one another -/

section Intervals

variable {start stop : β → α} {l : List β} {t : α}

/-- A list ordered by start times with a gap between neighbours has a gap between any
two elements, also where an interval ends before it starts. -/
theorem pairwise_of_adjacent (hsorted : l.Pairwise fun a b => start a ≤ start b)
    (hgaps : ∀ p ∈ adjacent l, stop p.1 ≤ start p.2) :
    l.Pairwise fun a b => stop a ≤ start b := by
  have hchain : l.IsChain fun a b => stop a ≤ start b :=
    (forall_adjacent_iff (R := fun a b => stop a ≤ start b) l).mp hgaps
  induction l with
  | nil => exact List.Pairwise.nil
  | cons a l ih =>
      obtain ⟨hfirst, hlater⟩ := List.pairwise_cons.mp hsorted
      have hgaps' : ∀ p ∈ adjacent l, stop p.1 ≤ start p.2 := by
        intro p hp
        apply hgaps
        cases l with
        | nil => simp at hp
        | cons b l => exact List.mem_cons_of_mem _ hp
      refine List.pairwise_cons.mpr ⟨fun b hb => ?_, ih hlater hgaps' hchain.tail⟩
      cases l with
      | nil => simp at hb
      | cons c l =>
          have hgap : stop a ≤ start c := (List.isChain_cons_cons.mp hchain).1
          cases List.mem_cons.mp hb with
          | inl heq => exact heq ▸ hgap
          | inr hmem => exact hgap.trans ((List.pairwise_cons.mp hlater).1 b hmem)

theorem filter_within_of_mem (hgaps : l.Pairwise fun a b => stop a ≤ start b) {b : β}
    (hb : b ∈ l) (ht : Within (start b) (stop b) t) :
    l.filter (fun a => Within (start a) (stop a) t) = [b] := by
  induction l with
  | nil => simp at hb
  | cons a l ih =>
      obtain ⟨hfirst, hlater⟩ := List.pairwise_cons.mp hgaps
      cases List.mem_cons.mp hb with
      | inl heq =>
          subst a
          rw [List.filter_cons_of_pos (by simpa using ht), List.cons_inj_right,
            List.filter_eq_nil_iff]
          intro c hc
          simp only [decide_eq_true_eq]
          exact fun hwithin => absurd (ht.2.trans_le (hfirst c hc)) (not_lt.mpr hwithin.1)
      | inr hmem =>
          rw [List.filter_cons_of_neg, ih hlater hmem]
          simp only [decide_eq_true_eq]
          exact fun hwithin => absurd (hwithin.2.trans_le (hfirst b hmem)) (not_lt.mpr ht.1)

end Intervals

end TimePartition
