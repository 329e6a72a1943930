import Cmcs.MarkerConformance
import Mathlib.Tactic

/-!
# The width of the color marker

Nothing bounds the time since the last green packet, and this time multiplied by
the rate has to fit into an `int<48>`.  The intermediate results may wrap without
harm.  What counts is `X_prime`: in every reachable state it is the exact level
unless more than `2 ^ 47` bits have drained beyond the stored level.  After that
an empty bucket reads as a full one, and as yellow packets leave the registers
alone it does so until the product has wrapped back.
-/

namespace Cmcs

namespace MyIngress

namespace BucketState

/-- `X_prime` as the program computes it. -/
def XPrime (b : BucketState) (a : Metering) : BitVec 48 :=
  b.X - (a.time - if b.LCT = 0 then a.time else b.LCT) * a.leakRate

/-- The bits which drain between the last green packet and this one. -/
def drained (b : BucketState) (g t : ℤ) : ℤ :=
  g * if b.LCT = 0 then 0 else t - b.LCT.toInt

/-- What holds of the registers of a bucket at time `now`, wrapped or not. -/
structure InRange (b : BucketState) (now : ℤ) : Prop where
  X_nonneg : 0 ≤ b.X.toInt
  X_lt : b.X.toInt < 2 ^ 20
  LCT_le : b.LCT.toInt ≤ now

variable {b : BucketState} {a : Metering} {now : ℤ}

theorem InRange.mono (hrange : b.InRange now) {later : ℤ} (hle : now ≤ later) :
    b.InRange later :=
  ⟨hrange.X_nonneg, hrange.X_lt, hrange.LCT_le.trans hle⟩

theorem meter_eq (b : BucketState) (a : Metering) :
    b.meter a =
      if tau.slt (b.XPrime a) then (b, false)
      else (⟨a.time, if (b.XPrime a).slt 0 then a.bits else b.XPrime a + a.bits⟩, true) := by
  have hwater : waterLevel b.LCT b.X a.time a.leakRate a.bits =
      if tau.slt (b.XPrime a) then none
      else some (if (b.XPrime a).slt 0 then a.bits else b.XPrime a + a.bits) := rfl
  rw [meter, hwater]
  by_cases hyellow : tau.slt (b.XPrime a) = true
  · rw [if_pos hyellow, if_pos hyellow]
  · rw [if_neg hyellow, if_neg hyellow]

/-- The subtraction and the multiplication may wrap: only the last result counts. -/
theorem toInt_XPrime (b : BucketState) (a : Metering) :
    (b.XPrime a).toInt = (b.level a.leakRate.toInt a.time.toInt).bmod (2 ^ 48) := by
  unfold XPrime level
  split
  next =>
    rw [BitVec.sub_self, BitVec.zero_mul, BitVec.sub_zero, mul_zero, sub_zero,
      BitVec.toInt_bmod_cancel]
  next =>
    rw [BitVec.toInt_sub, BitVec.toInt_mul, BitVec.toInt_sub, Int.sub_bmod_bmod,
      Int.sub_bmod, Int.bmod_mul_bmod, ← Int.sub_bmod, mul_comm]

theorem toInt_XPrime_eq_iff (b : BucketState) (a : Metering) :
    (b.XPrime a).toInt = b.level a.leakRate.toInt a.time.toInt ↔
      -2 ^ 47 ≤ b.level a.leakRate.toInt a.time.toInt ∧
        b.level a.leakRate.toInt a.time.toInt < 2 ^ 47 := by
  rw [toInt_XPrime]
  constructor
  · intro hexact
    rw [← hexact]
    constructor
    · exact Int.le_bmod (by decide)
    · exact Int.bmod_lt (by decide)
  · intro hfits
    exact Int.bmod_eq_of_le hfits.1 hfits.2

/-- The stretch in which a drained bucket reads as a full one. -/
theorem meter_of_wrapped
    (hwrapped : 2 ^ 47 + b.X.toInt < b.drained a.leakRate.toInt a.time.toInt)
    (hstretch : b.drained a.leakRate.toInt a.time.toInt <
      2 ^ 48 - tau.toInt + b.X.toInt) :
    b.meter a = (b, false) := by
  have hlevel : b.level a.leakRate.toInt a.time.toInt =
      b.X.toInt - b.drained a.leakRate.toInt a.time.toInt := rfl
  rw [toInt_tau] at hstretch
  have hshifted : (b.XPrime a).toInt =
      b.level a.leakRate.toInt a.time.toInt + 2 ^ 48 := by
    rw [toInt_XPrime, ← Int.add_bmod_right]
    apply Int.bmod_eq_of_le <;> omega
  have hyellow : tau.slt (b.XPrime a) = true := by
    rw [BitVec.slt_iff_toInt_lt, hshifted, toInt_tau]
    omega
  rw [meter_eq, if_pos hyellow]

/-- One packet keeps the range, whether its level wraps or not. -/
theorem InRange.meter (hrange : b.InRange now) (hnow : now ≤ a.time.toInt)
    (hbits : 0 ≤ a.bits.toInt ∧ a.bits.toInt < 2 ^ 19) :
    (b.meter a).1.InRange a.time.toInt := by
  rw [meter_eq]
  split
  next hyellow => exact hrange.mono hnow
  next hgreen =>
    rw [BitVec.slt_iff_toInt_lt, not_lt, toInt_tau] at hgreen
    have hlevel : (if (b.XPrime a).slt 0 then a.bits else b.XPrime a + a.bits).toInt =
        max 0 (b.XPrime a).toInt + a.bits.toInt := by
      split
      next hneg =>
        rw [slt_zero_iff] at hneg
        rw [max_eq_left hneg.le, zero_add]
      next hneg =>
        rw [slt_zero_iff, not_lt] at hneg
        rw [max_eq_right hneg, BitVec.toInt_add_of_not_saddOverflow]
        simp only [BitVec.saddOverflow, Bool.or_eq_true, decide_eq_true_eq]
        omega
    constructor
    · change 0 ≤ (ite _ _ _ : BitVec 48).toInt
      rw [hlevel]
      omega
    · change (ite _ _ _ : BitVec 48).toInt < _
      rw [hlevel]
      omega
    · exact le_refl _

end BucketState

/-! ## Traces -/

variable {i : Fin 64} {trace : List Packet}

theorem toInt_bits_lt {x : Packet} (hlength : x.packetLength.toNat < 2 ^ 16) :
    0 ≤ x.bits.toInt ∧ x.bits.toInt < 2 ^ 19 := by
  rw [bits_eq_length (by omega)]
  omega

theorem inRange_bucket {now : ℤ} (hnow : 0 ≤ now)
    (hlength : ∀ x ∈ trace, x.packetLength.toNat < 2 ^ 16)
    (hsorted : (trace.filterMap (Packet.meteredIn i)).Pairwise
      fun a b => a.time.toInt ≤ b.time.toInt)
    (hpositive : ∀ a ∈ trace.filterMap (Packet.meteredIn i), 0 < a.time.toInt)
    (hlast : ∀ a ∈ trace.filterMap (Packet.meteredIn i), a.time.toInt ≤ now) :
    ((runRegs .zero trace).bucket i).InRange now := by
  induction trace using List.reverseRecOn generalizing now with
  | nil => exact ⟨le_refl 0, (by decide : (0 : ℤ) < 2 ^ 20), hnow⟩
  | append_singleton trace x ih =>
      rw [List.filterMap_append] at hsorted hpositive hlast
      rw [List.pairwise_append] at hsorted
      have hearlier := fun a (ha : a ∈ trace.filterMap (Packet.meteredIn i)) =>
        List.mem_append_left ([x].filterMap (Packet.meteredIn i)) ha
      have hbefore := fun now (hnow : 0 ≤ now) => ih hnow
        (fun y hy => hlength y (List.mem_append_left _ hy)) hsorted.1
        (fun a ha => hpositive a (hearlier a ha))
      rw [runRegs_concat, bucket_apply]
      cases hx : x.meteredIn i with
      | none => exact hbefore now hnow fun a ha => hlast a (hearlier a ha)
      | some a =>
          have hmem : a ∈ [x].filterMap (Packet.meteredIn i) := by simp [hx]
          obtain ⟨_, _, _, _, _, hbits⟩ := meteredIn_eq_some.mp hx
          have hrange := hbefore a.time.toInt
            (hpositive a (List.mem_append_right _ hmem)).le
            (fun m hm => hsorted.2.2 m hm a hmem)
          have hfits := toInt_bits_lt (hlength x (by simp))
          rw [← hbits] at hfits
          exact (hrange.meter (le_refl _) hfits).mono (hlast a (List.mem_append_right _ hmem))

/-- In every reachable state, whatever has wrapped before: `X_prime` is exact and
every packet at an exact level of at most `tau` is green if and only if no more
than `2 ^ 47` bits have drained beyond the stored level. -/
theorem XPrime_exact_iff (i : Fin 64) (g : BitVec 48) {trace before after : List Packet}
    {x : Packet} {a : Metering} (hrate : 1 ≤ g.toInt ∧ g.toInt ≤ 100000)
    (hmetered : ∀ m ∈ trace.filterMap (Packet.meteredIn i),
      m.leakRate = g ∧ 0 < m.time.toInt)
    (hsorted : (trace.filterMap (Packet.meteredIn i)).Pairwise
      fun m n => m.time.toInt ≤ n.time.toInt)
    (hlength : ∀ y ∈ trace, y.packetLength.toNat < 2 ^ 16)
    (hsplit : trace = before ++ x :: after) (hx : x.meteredIn i = some a) :
    ((((runRegs .zero before).bucket i).XPrime a).toInt =
        ((runRegs .zero before).bucket i).level g.toInt a.time.toInt ∧
      (((runRegs .zero before).bucket i).level g.toInt a.time.toInt ≤ tau.toInt →
        (apply (runRegs .zero before) x).2.color = 0)) ↔
      ((runRegs .zero before).bucket i).drained g.toInt a.time.toInt ≤
        2 ^ 47 + ((runRegs .zero before).bucket i).X.toInt := by
  rw [hsplit, List.filterMap_append, List.filterMap_cons_some hx] at hmetered hsorted
  rw [List.pairwise_append] at hsorted
  obtain ⟨hg, htime⟩ := hmetered a (by simp)
  subst hg
  have hrange : ((runRegs .zero before).bucket i).InRange a.time.toInt := by
    apply inRange_bucket htime.le
    · intro y hy
      exact hlength y (hsplit ▸ List.mem_append_left _ hy)
    · exact hsorted.1
    · intro m hm
      exact (hmetered m (List.mem_append_left _ hm)).2
    · intro m hm
      exact hsorted.2.2 m hm a (by simp)
  rw [color_apply _ hx]
  generalize (runRegs .zero before).bucket i = b at hrange ⊢
  have hlevel : b.level a.leakRate.toInt a.time.toInt =
      b.X.toInt - b.drained a.leakRate.toInt a.time.toInt := rfl
  have hdrained : 0 ≤ b.drained a.leakRate.toInt a.time.toInt := by
    unfold BucketState.drained
    apply mul_nonneg (by omega)
    split
    next => exact le_refl 0
    next => exact sub_nonneg.mpr hrange.LCT_le
  have hX := hrange.X_lt
  have hexact := BucketState.toInt_XPrime_eq_iff b a
  constructor
  · intro hboth
    have hfits := hexact.mp hboth.1
    omega
  · intro hfits
    have heq := hexact.mpr (by omega)
    refine ⟨heq, ?_⟩
    intro hle
    rw [← heq, ← not_lt, ← BitVec.slt_iff_toInt_lt] at hle
    rw [BucketState.meter_eq, if_neg hle]
    rfl

def packetAt (t : BitVec 48) : Packet :=
  { packetOfVn1 with
    vnClassifier := some (.setVnParams 1 100000)
    ingressGlobalTimestamp := t }

/-- At 100000 Mbps an idle time of a little more than 23 minutes is too long: the
level wraps to a positive value, and the packet is yellow. -/
theorem XPrime_wraps_after_idling :
    [packetAt 1, packetAt 1407500001].filterMap (Packet.meteredIn 10) =
        [⟨1, 100000, 12112⟩, ⟨1407500001, 100000, 12112⟩] ∧
      ((runRegs .zero [packetAt 1]).bucket 10).level 100000 1407500001 =
        -140749999987888 ∧
      (((runRegs .zero [packetAt 1]).bucket 10).XPrime ⟨1407500001, 100000, 12112⟩).toInt =
        140724976722768 ∧
      (apply (runRegs .zero [packetAt 1]) (packetAt 1407500001)).2.color = 1 := by
  decide +kernel

/-- After one second the level is exact. -/
theorem XPrime_exact_after_one_second :
    (((runRegs .zero [packetAt 1]).bucket 10).XPrime ⟨1000001, 100000, 12112⟩).toInt =
        ((runRegs .zero [packetAt 1]).bucket 10).level 100000 1000001 ∧
      (((runRegs .zero [packetAt 1]).bucket 10).level 100000 1000001 ≤ tau.toInt →
        (apply (runRegs .zero [packetAt 1]) (packetAt 1000001)).2.color = 0) :=
  (XPrime_exact_iff 10 100000 (by decide) (by decide +kernel) (by decide +kernel)
    (by decide +kernel) (show _ = [packetAt 1] ++ packetAt 1000001 :: [] from rfl)
    (by decide +kernel)).mpr (by decide +kernel)

end MyIngress

end Cmcs
