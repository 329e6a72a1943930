import Cmcs.ColorMarker
import Cmcs.LeakyBucket
import Mathlib.Tactic

/-!
# The marker's registers as a leaky bucket

As long as no `int<48>` operation overflows, the two registers of a bucket hold
a leaky bucket which is filled by the green packets alone.  The sentinel value 0
of the last conformance time stands for a bucket which does not drain.  Hence
the registers never hold less than the exact bucket does, and they hold the same
when no packet arrives at time 0.
-/

namespace Cmcs

namespace MyIngress

open LeakyBucket

def Metering.arrival (a : Metering) : Arrival ℤ where
  time := a.time.toInt
  volume := a.bits.toInt

def bitSum (window : List Metering) : ℤ :=
  (window.map fun a => a.bits.toInt).sum

namespace BucketState

/-- `X_prime` in exact integers, for a packet at time `t`. -/
def level (b : BucketState) (g t : ℤ) : ℤ :=
  b.X.toInt - g * if b.LCT = 0 then 0 else t - b.LCT.toInt

/-- Whether a packet makes one of the `int<48>` operations behind `X_prime`
overflow.  The addition of a packet length to a level of at most `tau` cannot. -/
def overflows (b : BucketState) (a : Metering) : Bool :=
  let LCT := if b.LCT = 0 then a.time else b.LCT
  a.time.ssubOverflow LCT || (a.time - LCT).smulOverflow a.leakRate ||
    b.X.ssubOverflow ((a.time - LCT) * a.leakRate)

end BucketState

def overflows (i : Fin 64) : Registers → List Packet → Bool
  | _, [] => false
  | regs, x :: trace =>
      (x.meteredIn i).any (regs.bucket i).overflows || overflows i (apply regs x).1 trace

def greenIn (i : Fin 64) (marked : Packet × Marked) : Option Metering :=
  if marked.2.color = 0 then marked.1.meteredIn i else none

/-- What bucket `i` has seen of the packets which it marked green. -/
def greens (i : Fin 64) (regs : Registers) (trace : List Packet) : List Metering :=
  (markAll regs trace).filterMap (greenIn i)

/-! ## One packet -/

theorem toInt_tau : tau.toInt = 48448 := rfl

theorem slt_zero_iff (X : BitVec 48) : X.slt 0 = true ↔ X.toInt < 0 :=
  BitVec.slt_iff_toInt_lt

theorem toInt_bits (x : Packet) : 0 ≤ x.bits.toInt ∧ x.bits.toInt < 2 ^ 32 := by
  have hlt := (x.packetLength * 8).isLt
  have hnat : x.bits.toNat = (x.packetLength * 8).toNat := by
    rw [Packet.bits, BitVec.toNat_setWidth, Nat.mod_eq_of_lt (by omega)]
  rw [BitVec.toInt_eq_toNat_cond, hnat]
  constructor <;> split <;> omega

theorem bits_eq_length {x : Packet} (hlength : 8 * x.packetLength.toNat < 2 ^ 32) :
    x.bits.toInt = 8 * x.packetLength.toNat := by
  have hmul : (x.packetLength * 8).toNat = 8 * x.packetLength.toNat := by
    rw [BitVec.toNat_mul]
    change x.packetLength.toNat * 8 % 2 ^ 32 = _
    omega
  rw [Packet.bits, BitVec.toInt_eq_toNat_cond, BitVec.toNat_setWidth, hmul]
  split <;> omega

theorem meteredIn_eq_some {i : Fin 64} {x : Packet} {a : Metering} :
    x.meteredIn i = some a ↔
      ∃ vnId egressSpec, x.metered = some (vnId, a.leakRate, egressSpec) ∧
        (bucketIndex vnId egressSpec).toNat = i ∧
        a.time = x.ingressGlobalTimestamp ∧ a.bits = x.bits := by
  unfold Packet.meteredIn
  rw [Option.bind_eq_some_iff]
  constructor
  · intro hmetered
    obtain ⟨⟨vnId, leakRate, egressSpec⟩, hmetered, hif⟩ := hmetered
    simp only [Option.ite_none_right_eq_some, Option.some.injEq] at hif
    obtain ⟨hindex, rfl⟩ := hif
    exact ⟨vnId, egressSpec, hmetered, hindex, rfl, rfl⟩
  · intro hmetered
    obtain ⟨vnId, egressSpec, hmetered, hindex, htime, hbits⟩ := hmetered
    refine ⟨_, hmetered, ?_⟩
    simp only [if_pos hindex, ← htime, ← hbits]

theorem color_apply (regs : Registers) {i : Fin 64} {x : Packet} {a : Metering}
    (hmetered : x.meteredIn i = some a) :
    (apply regs x).2.color = if ((regs.bucket i).meter a).2 then 0 else 1 := by
  obtain ⟨vnId, egressSpec, hx, hindex, htime, hbits⟩ := meteredIn_eq_some.mp hmetered
  have ha : a = ⟨x.ingressGlobalTimestamp, a.leakRate, x.bits⟩ := by
    rw [← htime, ← hbits]
  rw [marked_apply regs x hx hindex, ← ha]

namespace BucketState

variable {b : BucketState} {a : Metering}

theorem toInt_level (hoverflow : b.overflows a = false) :
    (b.X - (a.time - if b.LCT = 0 then a.time else b.LCT) * a.leakRate).toInt =
      b.level a.leakRate.toInt a.time.toInt := by
  simp only [overflows, Bool.or_eq_false_iff] at hoverflow
  obtain ⟨⟨helapsed, hdrained⟩, hlevel⟩ := hoverflow
  rw [BitVec.toInt_sub_of_not_ssubOverflow (Bool.not_eq_true _ ▸ hlevel),
    BitVec.toInt_mul_of_not_smulOverflow (Bool.not_eq_true _ ▸ hdrained),
    BitVec.toInt_sub_of_not_ssubOverflow (Bool.not_eq_true _ ▸ helapsed)]
  unfold level
  split
  · simp
  · ring

theorem meter_of_lt (hoverflow : b.overflows a = false)
    (hlevel : tau.toInt < b.level a.leakRate.toInt a.time.toInt) :
    b.meter a = (b, false) := by
  have hyellow : waterLevel b.LCT b.X a.time a.leakRate a.bits = none := by
    have hslt := hlevel
    rw [← toInt_level hoverflow, ← BitVec.slt_iff_toInt_lt] at hslt
    simp only [waterLevel, hslt, if_true]
  rw [meter, hyellow]

theorem meter_of_le (hoverflow : b.overflows a = false)
    (hbits : 0 ≤ a.bits.toInt ∧ a.bits.toInt < 2 ^ 32)
    (hlevel : b.level a.leakRate.toInt a.time.toInt ≤ tau.toInt) :
    ∃ X, b.meter a = (⟨a.time, X⟩, true) ∧
      X.toInt = max 0 (b.level a.leakRate.toInt a.time.toInt) + a.bits.toInt := by
  have hexact := toInt_level hoverflow
  generalize hX : b.X - (a.time - if b.LCT = 0 then a.time else b.LCT) * a.leakRate = X
    at hexact
  have hgreen : waterLevel b.LCT b.X a.time a.leakRate a.bits =
      some (if X.slt 0 then a.bits else X + a.bits) := by
    have hslt : ¬tau.slt X = true := by
      rw [BitVec.slt_iff_toInt_lt, hexact]
      exact not_lt.mpr hlevel
    simp only [waterLevel, hX, hslt]
    rfl
  refine ⟨_, by rw [meter, hgreen], ?_⟩
  rw [← hexact] at hlevel ⊢
  split
  next hneg =>
    rw [slt_zero_iff] at hneg
    rw [max_eq_left hneg.le, zero_add]
  next hneg =>
    rw [slt_zero_iff, not_lt] at hneg
    rw [toInt_tau] at hlevel
    rw [max_eq_right hneg, BitVec.toInt_add_of_not_saddOverflow]
    simp only [BitVec.saddOverflow, Bool.or_eq_true, decide_eq_true_eq]
    omega

end BucketState

/-! ## Traces -/

theorem runRegs_concat (regs : Registers) (trace : List Packet) (x : Packet) :
    runRegs regs (trace ++ [x]) = (apply (runRegs regs trace) x).1 := by
  rw [runRegs_append]
  rfl

theorem overflows_append (i : Fin 64) (regs : Registers) (first second : List Packet) :
    overflows i regs (first ++ second) =
      (overflows i regs first || overflows i (runRegs regs first) second) := by
  induction first generalizing regs with
  | nil => rfl
  | cons x first ih => simp [overflows, ih, runRegs, Bool.or_assoc]

theorem greens_append (i : Fin 64) (regs : Registers) (first second : List Packet) :
    greens i regs (first ++ second) =
      greens i regs first ++ greens i (runRegs regs first) second := by
  rw [greens, markAll_append, List.filterMap_append]
  rfl

theorem greens_concat (i : Fin 64) (regs : Registers) (trace : List Packet) (x : Packet) :
    greens i regs (trace ++ [x]) =
      greens i regs trace ++ (greenIn i (x, (apply (runRegs regs trace) x).2)).toList := by
  rw [greens_append]
  rfl

/-- The last packet of a trace leaves the bucket and its green history alone, or it
is marked green at a level of at most `tau`. -/
theorem bucket_concat {i : Fin 64} {trace : List Packet} {x : Packet}
    (hoverflow : overflows i .zero (trace ++ [x]) = false) :
    ((runRegs .zero (trace ++ [x])).bucket i = (runRegs .zero trace).bucket i ∧
      greens i .zero (trace ++ [x]) = greens i .zero trace) ∨
    ∃ a X, x.meteredIn i = some a ∧
      ((runRegs .zero trace).bucket i).level a.leakRate.toInt a.time.toInt ≤ tau.toInt ∧
      X.toInt = max 0 (((runRegs .zero trace).bucket i).level a.leakRate.toInt
        a.time.toInt) + a.bits.toInt ∧
      (runRegs .zero (trace ++ [x])).bucket i = ⟨a.time, X⟩ ∧
      greens i .zero (trace ++ [x]) = greens i .zero trace ++ [a] := by
  rw [overflows_append, Bool.or_eq_false_iff] at hoverflow
  rw [runRegs_concat, bucket_apply, greens_concat]
  cases hmetered : x.meteredIn i with
  | none => exact Or.inl ⟨rfl, by simp [greenIn, hmetered]⟩
  | some a =>
      have hfits : ((runRegs .zero trace).bucket i).overflows a = false := by
        simpa [overflows, hmetered] using hoverflow.2
      rw [greenIn, color_apply _ hmetered, hmetered]
      by_cases hlevel : ((runRegs .zero trace).bucket i).level a.leakRate.toInt
          a.time.toInt ≤ tau.toInt
      · have hbits : 0 ≤ a.bits.toInt ∧ a.bits.toInt < 2 ^ 32 := by
          obtain ⟨_, _, _, _, _, hbits⟩ := meteredIn_eq_some.mp hmetered
          rw [hbits]
          exact toInt_bits x
        obtain ⟨X, hmeter, hX⟩ := BucketState.meter_of_le hfits hbits hlevel
        refine Or.inr ⟨a, X, rfl, hlevel, hX, ?_, ?_⟩
        · simp only [hmeter]
        · simp [hmeter]
      · apply Or.inl
        simp [BucketState.meter_of_lt hfits (not_le.mp hlevel)]

/-- A property of a bucket and its green history holds after every trace if each
green packet preserves it. -/
theorem bucket_induction {P : BucketState → List Metering → Prop} {i : Fin 64}
    {trace : List Packet} (hoverflow : overflows i .zero trace = false)
    (hzero : P ⟨0, 0⟩ [])
    (hgreen : ∀ b history a X, a ∈ trace.filterMap (Packet.meteredIn i) →
      b.level a.leakRate.toInt a.time.toInt ≤ tau.toInt →
      X.toInt = max 0 (b.level a.leakRate.toInt a.time.toInt) + a.bits.toInt →
      P b history → P ⟨a.time, X⟩ (history ++ [a])) :
    P ((runRegs .zero trace).bucket i) (greens i .zero trace) := by
  induction trace using List.reverseRecOn with
  | nil => exact hzero
  | append_singleton trace x ih =>
      have hprefix := hoverflow
      rw [overflows_append, Bool.or_eq_false_iff] at hprefix
      have hbefore := ih hprefix.1 fun b history a X ha =>
        hgreen b history a X (by
          rw [List.filterMap_append]
          exact List.mem_append_left _ ha)
      cases bucket_concat hoverflow with
      | inl hsame => rwa [hsame.1, hsame.2]
      | inr hnew =>
          obtain ⟨a, X, hmetered, hlevel, hX, hbucket, hgreens⟩ := hnew
          rw [hbucket, hgreens]
          apply hgreen _ _ a X _ hlevel hX hbefore
          rw [List.mem_filterMap]
          exact ⟨x, by simp, hmetered⟩

/-! ## The exact bucket -/

def stored (g : ℤ) (history : List Metering) : Bucket ℤ :=
  Bucket.fill g ⟨0, 0⟩ (history.map Metering.arrival)

theorem volume_arrivals (window : List Metering) :
    volume (window.map Metering.arrival) = bitSum window := by
  simp [volume, bitSum, Metering.arrival, Function.comp_def]

theorem decayed_concat (g : ℤ) (history : List Metering) (a : Metering) (t : ℤ) :
    (stored g (history ++ [a])).decayed g t =
      max 0 ((stored g history).decayed g a.time.toInt) + a.bits.toInt -
        g * (t - a.time.toInt) := by
  simp [stored, Bucket.decayed, Bucket.pour, Metering.arrival]

/-- The registers hold at least what the exact bucket holds. -/
def BucketState.Covers (g : ℤ) (b : BucketState) (history : List Metering) : Prop :=
  ∀ t, 0 ≤ t → (stored g history).decayed g t ≤ max 0 (b.level g t)

variable {i : Fin 64} {g : ℤ} {trace : List Packet}

theorem covers_zero (hg : 0 ≤ g) : BucketState.Covers g ⟨0, 0⟩ [] := by
  intro t ht
  have hdrained := mul_nonneg hg ht
  simp [stored, Bucket.decayed, hdrained]

theorem BucketState.Covers.concat (hg : 0 ≤ g) {b : BucketState} {history : List Metering}
    (hcovers : b.Covers g history) {a : Metering} (htime : 0 ≤ a.time.toInt)
    {X : BitVec 48} (hX : X.toInt = max 0 (b.level g a.time.toInt) + a.bits.toInt) :
    BucketState.Covers g ⟨a.time, X⟩ (history ++ [a]) := by
  intro t ht
  have hbefore := max_le (le_max_left 0 _) (hcovers a.time.toInt htime)
  apply le_max_of_le_right
  rw [decayed_concat, BucketState.level, hX]
  split
  next hsentinel =>
    -- a green packet at time 0 leaves a bucket which does not drain
    have hzero : a.time.toInt = 0 := by rw [show a.time = 0 from hsentinel]; rfl
    have hdrained := mul_nonneg hg ht
    rw [hzero] at hbefore ⊢
    rw [sub_zero, mul_zero, sub_zero]
    linarith
  next => linarith

/-- Besides, every green packet found the exact bucket at or below `tau`. -/
theorem bucket_covers (hg : 0 ≤ g) (hoverflow : overflows i .zero trace = false)
    (hmetered : ∀ a ∈ trace.filterMap (Packet.meteredIn i),
      a.leakRate.toInt = g ∧ 0 ≤ a.time.toInt) :
    ((runRegs .zero trace).bucket i).Covers g (greens i .zero trace) ∧
      Conforms g tau.toInt ⟨0, 0⟩ ((greens i .zero trace).map Metering.arrival) := by
  apply bucket_induction
    (P := fun b history => b.Covers g history ∧
      Conforms g tau.toInt ⟨0, 0⟩ (history.map Metering.arrival)) hoverflow
  · exact ⟨covers_zero hg, conforms_nil _ _ _⟩
  · intro b history a X ha hlevel hX hinv
    obtain ⟨hcovers, hconforms⟩ := hinv
    obtain ⟨hrate, htime⟩ := hmetered a ha
    rw [hrate] at hlevel hX
    constructor
    · exact hcovers.concat hg htime hX
    · rw [List.map_append]
      apply hconforms.concat
      exact (hcovers a.time.toInt htime).trans (max_le (by decide) hlevel)

theorem window_le (hg : 0 ≤ g) (hoverflow : overflows i .zero trace = false)
    (hmetered : ∀ a ∈ trace.filterMap (Packet.meteredIn i),
      a.leakRate.toInt = g ∧ 0 ≤ a.time.toInt)
    {before window after : List Metering}
    (hsplit : greens i .zero trace = before ++ window ++ after) {m n : Metering}
    (hfirst : window.head? = some m) (hlast : window.getLast? = some n) :
    bitSum window ≤
      tau.toInt + n.bits.toInt + g * (n.time.toInt - m.time.toInt) := by
  have hconforms := (bucket_covers hg hoverflow hmetered).2
  have hmapped : (greens i .zero trace).map Metering.arrival =
      before.map Metering.arrival ++ window.map Metering.arrival ++
        after.map Metering.arrival := by
    rw [hsplit, List.map_append, List.map_append]
  have hhead : (window.map Metering.arrival).head? = some m.arrival := by
    rw [List.head?_map, hfirst, Option.map_some]
  have hend : (window.map Metering.arrival).getLast? = some n.arrival := by
    rw [List.getLast?_map, hlast, Option.map_some]
  have hvolume := hconforms.volume_le (by decide) hmapped hhead hend
  rwa [volume_arrivals] at hvolume

end MyIngress

end Cmcs
