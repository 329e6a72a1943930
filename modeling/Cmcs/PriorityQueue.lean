import Mathlib.Data.List.Sort
import Mathlib.Tactic

/-!
# Priority queues kept as sorted lists

The elements of a priority queue in the order in which they leave it: the least
key first, and elements with one key in the order of their insertion.  The rules
say what an insertion does to a part of the queue whose elements are all before
the new one, so that a part which grows in key order behaves as a FIFO queue.
-/

namespace PriorityQueue

variable {α κ : Type*} [LinearOrder κ] (key : α → κ)

def push (a : α) (l : List α) : List α :=
  l.orderedInsert (fun a b => key a < key b) a

def Ordered (l : List α) : Prop := l.Pairwise fun a b => key a ≤ key b

variable {key} {a : α} {l : List α}

theorem mem_push {b : α} : b ∈ push key a l ↔ b = a ∨ b ∈ l :=
  List.mem_orderedInsert _

theorem push_cons_of_lt {b : α} (h : key a < key b) : push key a (b :: l) = a :: b :: l := by
  rw [push, List.orderedInsert_cons, if_pos h]

theorem push_cons_of_le {b : α} (h : key b ≤ key a) :
    push key a (b :: l) = b :: push key a l := by
  rw [push, List.orderedInsert_cons, if_neg (not_lt.mpr h)]
  rfl

theorem Ordered.push (hl : Ordered key l) : Ordered key (push key a l) := by
  induction l with
  | nil => exact List.pairwise_singleton _ _
  | cons b l ih =>
      rw [Ordered, List.pairwise_cons] at hl
      cases lt_or_ge (key a) (key b) with
      | inl hlt =>
          rw [push_cons_of_lt hlt, Ordered, List.pairwise_cons, List.pairwise_cons]
          refine ⟨?_, hl⟩
          intro c hc
          rcases List.mem_cons.mp hc with rfl | hc
          · exact hlt.le
          · exact hlt.le.trans (hl.1 c hc)
      | inr hle =>
          rw [push_cons_of_le hle, Ordered, List.pairwise_cons]
          refine ⟨?_, ih hl.2⟩
          intro c hc
          rcases mem_push.mp hc with rfl | hc
          · exact hle
          · exact hl.1 c hc

theorem Ordered.tail (hl : Ordered key l) : Ordered key l.tail :=
  List.Pairwise.tail hl

theorem Ordered.head_le (hl : Ordered key (a :: l)) : ∀ b ∈ a :: l, key a ≤ key b := by
  intro b hb
  rcases List.mem_cons.mp hb with rfl | hb
  · exact le_rfl
  · exact (List.pairwise_cons.mp hl).1 b hb

theorem push_eq_concat (hlast : ∀ b ∈ l, key b ≤ key a) : push key a l = l ++ [a] := by
  induction l with
  | nil => rfl
  | cons b l ih =>
      rw [push_cons_of_le (hlast b (by simp)), ih fun c hc => hlast c (by simp [hc]),
        List.cons_append]

theorem filter_push (hl : Ordered key l) {p : α → Bool} (hp : p a)
    (hlast : ∀ b ∈ l, p b → key b ≤ key a) :
    (push key a l).filter p = l.filter p ++ [a] := by
  induction l with
  | nil =>
      rw [push_eq_concat (by simp)]
      simp [hp]
  | cons b l ih =>
      cases lt_or_ge (key a) (key b) with
      | inl hlt =>
          have hnone : (b :: l).filter p = [] := by
            rw [List.filter_eq_nil_iff]
            intro c hc hpc
            exact absurd (hlast c hc hpc) (not_le.mpr (hlt.trans_le (hl.head_le c hc)))
          rw [push_cons_of_lt hlt, List.filter_cons_of_pos hp, hnone, List.nil_append]
      | inr hle =>
          rw [push_cons_of_le hle, List.filter_cons, List.filter_cons,
            ih hl.tail fun c hc => hlast c (by simp [hc])]
          split <;> rfl

theorem filter_push_of_neg {p : α → Bool} (hp : ¬ p a) :
    (push key a l).filter p = l.filter p := by
  induction l with
  | nil => simp [push, hp]
  | cons b l ih =>
      cases lt_or_ge (key a) (key b) with
      | inl hlt => rw [push_cons_of_lt hlt, List.filter_cons_of_neg hp]
      | inr hle => rw [push_cons_of_le hle, List.filter_cons, List.filter_cons, ih]

end PriorityQueue
