import Cmcs.MarkerBucket
import Mathlib.Tactic

/-!
# The conformance law of the color marker

With positive timestamps the sentinel 0 in the register of the last conformance
time means that the bucket has marked nothing green yet.  The registers then
hold exactly the leaky bucket of the green packets, and the color of a packet is
a statement about all windows which end at its arrival.
-/

namespace Cmcs

namespace MyIngress

open LeakyBucket

variable {i : Fin 64} {g : ℤ} {trace : List Packet}

/-- The registers hold no more than the exact bucket does. -/
def BucketState.CoveredBy (g : ℤ) (b : BucketState) (history : List Metering) : Prop :=
  ∀ t, 0 < t → b.level g t ≤ max 0 ((stored g history).decayed g t)

theorem BucketState.CoveredBy.concat {b : BucketState} {history : List Metering}
    (hcovered : b.CoveredBy g history) {a : Metering} (htime : 0 < a.time.toInt)
    {X : BitVec 48} (hX : X.toInt = max 0 (b.level g a.time.toInt) + a.bits.toInt) :
    BucketState.CoveredBy g ⟨a.time, X⟩ (history ++ [a]) := by
  intro t ht
  have hbefore := max_le (le_max_left 0 _) (hcovered a.time.toInt htime)
  have hsentinel : a.time ≠ 0 := by
    intro hzero
    rw [hzero] at htime
    exact absurd htime (by decide)
  apply le_max_of_le_right
  rw [decayed_concat, BucketState.level, hX, if_neg hsentinel]
  linarith

theorem bucket_coveredBy (hoverflow : overflows i .zero trace = false)
    (hmetered : ∀ a ∈ trace.filterMap (Packet.meteredIn i),
      a.leakRate.toInt = g ∧ 0 < a.time.toInt) :
    ((runRegs .zero trace).bucket i).CoveredBy g (greens i .zero trace) := by
  apply bucket_induction (P := fun b history => b.CoveredBy g history) hoverflow
  · intro t ht
    simp [BucketState.level]
  · intro b history a X ha hlevel hX hcovered
    obtain ⟨hrate, htime⟩ := hmetered a ha
    rw [hrate] at hX
    exact hcovered.concat htime hX

theorem lt_level_iff (hg : 0 ≤ g) (hoverflow : overflows i .zero trace = false)
    (hmetered : ∀ a ∈ trace.filterMap (Packet.meteredIn i),
      a.leakRate.toInt = g ∧ 0 < a.time.toInt) {t : ℤ} (ht : 0 < t) :
    tau.toInt < ((runRegs .zero trace).bucket i).level g t ↔
      tau.toInt < (stored g (greens i .zero trace)).decayed g t := by
  have hcovers := (bucket_covers hg hoverflow fun a ha =>
    ⟨(hmetered a ha).1, (hmetered a ha).2.le⟩).1 t ht.le
  have hcovered := bucket_coveredBy hoverflow hmetered t ht
  have htau : (0 : ℤ) < tau.toInt := by decide
  constructor
  · intro hlevel
    cases le_max_iff.mp hcovered with
    | inl hempty => omega
    | inr hle => exact hlevel.trans_le hle
  · intro hdecayed
    cases le_max_iff.mp hcovers with
    | inl hempty => omega
    | inr hle => exact hdecayed.trans_le hle

theorem lt_decayed_iff_window (hg : 0 ≤ g) {history : List Metering}
    (htimes : ∀ m ∈ history, 0 < m.time.toInt) {t : ℤ} (ht : 0 < t) :
    tau.toInt < (stored g history).decayed g t ↔
      ∃ earlier m rest, history = earlier ++ m :: rest ∧
        tau.toInt < bitSum (m :: rest) - g * (t - m.time.toInt) := by
  have hempty : ∀ s, 0 < s → Bucket.decayed g ⟨0, 0⟩ s ≤ 0 := by
    intro s hs
    have hdrained := mul_nonneg hg hs.le
    simp [Bucket.decayed, hdrained]
  rw [stored, LeakyBucket.lt_decayed_iff]
  · constructor
    · intro hwindow
      obtain ⟨before, first, rest, hsplit, hlt⟩ := hwindow
      obtain ⟨earlier, window, rfl, -, hwindow⟩ := List.map_eq_append_iff.mp hsplit
      obtain ⟨m, rest, rfl, rfl, rfl⟩ := List.map_eq_cons_iff.mp hwindow
      refine ⟨earlier, m, rest, rfl, ?_⟩
      rw [← volume_arrivals]
      exact hlt
    · intro hwindow
      obtain ⟨earlier, m, rest, rfl, hlt⟩ := hwindow
      refine ⟨earlier.map Metering.arrival, m.arrival, rest.map Metering.arrival,
        by simp, ?_⟩
      rw [← volume_arrivals] at hlt
      exact hlt
  · intro first hfirst
    rw [List.head?_map] at hfirst
    obtain ⟨m, hm, rfl⟩ := Option.map_eq_some_iff.mp hfirst
    exact hempty _ (htimes m (List.mem_of_mem_head? hm))
  · intro hnil
    exact (hempty t ht).trans (by decide)

theorem mem_of_mem_greens {regs : Registers} {m : Metering}
    (hm : m ∈ greens i regs trace) : m ∈ trace.filterMap (Packet.meteredIn i) := by
  induction trace using List.reverseRecOn with
  | nil => simp [greens, markAll] at hm
  | append_singleton trace x ih =>
      rw [greens_concat, List.mem_append] at hm
      rw [List.filterMap_append, List.mem_append]
      cases hm with
      | inl hbefore => exact Or.inl (ih hbefore)
      | inr hlast =>
          apply Or.inr
          rw [Option.mem_toList, greenIn, Option.ite_none_right_eq_some] at hlast
          exact List.mem_filterMap.mpr ⟨x, List.mem_singleton.mpr rfl, hlast.2⟩

theorem green_or_yellow (regs : Registers) {x : Packet} {a : Metering}
    (hx : x.meteredIn i = some a) :
    (apply regs x).2.color = 0 ∨ (apply regs x).2.color = 1 := by
  rw [color_apply regs hx]
  split
  · exact Or.inl rfl
  · exact Or.inr rfl

/-- In exact integers: a packet is green if and only if it finds the level at or below
`tau`. -/
theorem color_eq_zero_iff {before after : List Packet} {x : Packet} {a : Metering}
    (hoverflow : overflows i .zero (before ++ x :: after) = false)
    (hx : x.meteredIn i = some a) :
    (apply (runRegs .zero before) x).2.color = 0 ↔
      ((runRegs .zero before).bucket i).level a.leakRate.toInt a.time.toInt ≤ tau.toInt := by
  rw [overflows_append, overflows, Bool.or_eq_false_iff, Bool.or_eq_false_iff] at hoverflow
  have hfits := hoverflow.2.1
  rw [hx, Option.any_some] at hfits
  rw [color_apply _ hx]
  by_cases hlevel : ((runRegs .zero before).bucket i).level a.leakRate.toInt
      a.time.toInt ≤ tau.toInt
  · obtain ⟨_, _, _, _, _, hbits⟩ := meteredIn_eq_some.mp hx
    obtain ⟨X, hmeter, -⟩ := BucketState.meter_of_le hfits (hbits ▸ toInt_bits x) hlevel
    simp [hmeter, hlevel]
  · simp [BucketState.meter_of_lt hfits (not_le.mp hlevel), hlevel]

/-- The color of a packet says whether some window of earlier green packets
exceeds the contract at its arrival. -/
theorem yellow_iff (hg : 0 ≤ g) (hoverflow : overflows i .zero trace = false)
    (hmetered : ∀ a ∈ trace.filterMap (Packet.meteredIn i),
      a.leakRate.toInt = g ∧ 0 < a.time.toInt)
    {before after : List Packet} {x : Packet} {a : Metering}
    (hsplit : trace = before ++ x :: after) (hx : x.meteredIn i = some a) :
    (apply (runRegs .zero before) x).2.color = 1 ↔
      ∃ earlier m rest, greens i .zero before = earlier ++ m :: rest ∧
        tau.toInt < bitSum (m :: rest) - g * (a.time.toInt - m.time.toInt) := by
  rw [hsplit] at hoverflow
  have hgreen := color_eq_zero_iff hoverflow hx
  rw [overflows_append, Bool.or_eq_false_iff] at hoverflow
  rw [hsplit, List.filterMap_append, List.filterMap_cons_some hx] at hmetered
  obtain ⟨hrate, htime⟩ := hmetered a (by simp)
  have hmetered : ∀ b ∈ before.filterMap (Packet.meteredIn i),
      b.leakRate.toInt = g ∧ 0 < b.time.toInt := by
    intro b hb
    exact hmetered b (List.mem_append_left _ hb)
  have htimes : ∀ m ∈ greens i .zero before, 0 < m.time.toInt := by
    intro m hm
    exact (hmetered m (mem_of_mem_greens hm)).2
  rw [← lt_decayed_iff_window hg htimes htime, ← lt_level_iff hg hoverflow.1 hmetered htime,
    ← not_le, ← hrate, ← hgreen]
  cases green_or_yellow (runRegs .zero before) hx with
  | inl hzero => simp [hzero]
  | inr hone => simp [hone]

/-- For every bucket and every trace whose packets in this bucket have one rate:
the condition for yellow, the bound on the green bits of every window, and the
packets which are certain to be green. -/
theorem marker_conformance (i : Fin 64) (g : BitVec 48) (trace : List Packet)
    (hg : 0 ≤ g.toInt) (hoverflow : overflows i .zero trace = false)
    (hmetered : ∀ a ∈ trace.filterMap (Packet.meteredIn i),
      a.leakRate = g ∧ 0 < a.time.toInt) :
    (∀ before x after a, trace = before ++ x :: after → x.meteredIn i = some a →
      ((apply (runRegs .zero before) x).2.color = 1 ↔
        ∃ earlier m rest, greens i .zero before = earlier ++ m :: rest ∧
          tau.toInt < bitSum (m :: rest) - g.toInt * (a.time.toInt - m.time.toInt))) ∧
    (∀ before window after m n, greens i .zero trace = before ++ window ++ after →
      window.head? = some m → window.getLast? = some n →
        bitSum window ≤
          tau.toInt + n.bits.toInt + g.toInt * (n.time.toInt - m.time.toInt)) ∧
    (∀ before x after a, trace = before ++ x :: after → x.meteredIn i = some a →
      (∀ earlier m rest, greens i .zero before = earlier ++ m :: rest →
        bitSum (m :: rest) - g.toInt * (a.time.toInt - m.time.toInt) ≤ tau.toInt) →
          (apply (runRegs .zero before) x).2.color = 0) := by
  have hexact : ∀ a ∈ trace.filterMap (Packet.meteredIn i),
      a.leakRate.toInt = g.toInt ∧ 0 < a.time.toInt := by
    intro a ha
    exact ⟨congrArg BitVec.toInt (hmetered a ha).1, (hmetered a ha).2⟩
  constructor
  · intro before x after a hsplit hx
    exact yellow_iff hg hoverflow hexact hsplit hx
  constructor
  · intro before window after m n hsplit hfirst hlast
    apply window_le hg hoverflow _ hsplit hfirst hlast
    intro a ha
    exact ⟨(hexact a ha).1, (hexact a ha).2.le⟩
  · intro before x after a hsplit hx hwindows
    cases green_or_yellow (runRegs .zero before) hx with
    | inl hgreen => exact hgreen
    | inr hyellow =>
        obtain ⟨earlier, m, rest, hgreens, hlt⟩ :=
          (yellow_iff hg hoverflow hexact hsplit hx).mp hyellow
        exact absurd (hwindows earlier m rest hgreens) (not_le.mpr hlt)

def packetOfVn1 : Packet where
  ipv4Valid := true
  ipv4Lpm := .ipv4Forward 2
  vnClassifier := some (.setVnParams 1 10)
  ingressGlobalTimestamp := 1
  packetLength := 1514

theorem marker_conformance_six_packets :
    (apply (runRegs .zero (List.replicate 5 packetOfVn1)) packetOfVn1).2.color = 1 ∧
      ∃ earlier m rest,
        greens 10 .zero (List.replicate 5 packetOfVn1) = earlier ++ m :: rest ∧
          tau.toInt < bitSum (m :: rest) - 10 * (1 - m.time.toInt) := by
  have hlaw := (marker_conformance 10 10 (List.replicate 6 packetOfVn1) (by decide)
    (by decide +kernel) (by decide +kernel)).1 (List.replicate 5 packetOfVn1) packetOfVn1 []
      ⟨1, 10, 12112⟩ rfl (by decide +kernel)
  have hyellow : (apply (runRegs .zero (List.replicate 5 packetOfVn1)) packetOfVn1).2.color =
      1 := by
    decide +kernel
  exact ⟨hyellow, hlaw.mp hyellow⟩

end MyIngress

end Cmcs
