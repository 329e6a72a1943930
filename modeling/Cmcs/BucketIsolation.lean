import Cmcs.ColorMarker
import Mathlib.Tactic

/-!
# Isolation of the color marker's buckets

The colors of one flow are a function of the flow and of one bucket, as long as
no other packet reaches that bucket.  Forwarded packets of other flows never do.
A dropped packet is metered as well, and with the drop port 511 its index is one
below the first bucket of its VN: the bucket of the preceding VN at port 7.
-/

namespace Cmcs

namespace MyIngress

def bucketOf (v p : Fin 8) : Fin 64 := ⟨8 * v + p, by omega⟩

/-- Timestamp, length and rate of a packet which is classified to VN `v` and
forwarded to port `p`. -/
def Packet.flow (v p : Fin 8) (x : Packet) : Option (BitVec 48 × BitVec 32 × BitVec 48) :=
  x.metered.bind fun (vnId, leakRate, _) =>
    if vnId.toNat = v ∧ x.ipv4Lpm = .ipv4Forward (BitVec.ofNat 9 p) then
      some (x.ingressGlobalTimestamp, x.packetLength, leakRate)
    else none

def flowMetering (f : BitVec 48 × BitVec 32 × BitVec 48) : Metering where
  time := f.1
  leakRate := f.2.2
  bits := (f.2.1 * 8).setWidth 48

def colors (v p : Fin 8) (regs : Registers) (trace : List Packet) : List (BitVec 2) :=
  (markAll regs trace).filterMap fun (x, marks) => (x.flow v p).map fun _ => marks.color

/-- VN ids and forwarding ports are below 8, and a dropped packet belongs to a
VN which satisfies `D`. -/
structure Admissible (D : ℕ → Prop) (trace : List Packet) : Prop where
  vn_below : ∀ x ∈ trace, ∀ vnId leakRate egressSpec,
    x.metered = some (vnId, leakRate, egressSpec) → vnId.toNat < 8
  lpm : ∀ x ∈ trace, x.ipv4Lpm = .drop ∨
    ∃ port : BitVec 9, x.ipv4Lpm = .ipv4Forward port ∧ port.toNat < 8
  dropped : ∀ x ∈ trace, x.ipv4Lpm = .drop → ∀ vnId leakRate egressSpec,
    x.metered = some (vnId, leakRate, egressSpec) → D vnId.toNat

/-- Over all admissible traces, whatever else they contain, the flow `(v, p)`
alone decides the colors of its packets. -/
def Isolated (D : ℕ → Prop) (v p : Fin 8) : Prop :=
  ∀ regs A B, Admissible D A → Admissible D B →
    A.filterMap (Packet.flow v p) = B.filterMap (Packet.flow v p) →
      colors v p regs A = colors v p regs B

theorem toNat_bucketIndex (vnId : BitVec 8) (egressSpec : BitVec 9) :
    (bucketIndex vnId egressSpec).toNat = (vnId.toNat * 8 + egressSpec.toNat) % 256 := by
  simp [bucketIndex, BitVec.toNat_add, BitVec.toNat_mul, BitVec.toNat_setWidth]

/-- With VN ids and ports below 8 the index of a bucket belongs to one VN and port,
except that dropped packets get the last bucket of the preceding VN. -/
theorem bucketIndex_eq_bucketOf {v p : Fin 8} {vnId : BitVec 8} {egressSpec : BitVec 9}
    (hvn : vnId.toNat < 8) (hegress : egressSpec.toNat < 8 ∨ egressSpec = dropPort) :
    (bucketIndex vnId egressSpec).toNat = bucketOf v p ↔
      vnId.toNat = v ∧ egressSpec.toNat = p ∨
        egressSpec = dropPort ∧ p = 7 ∧ vnId.toNat = v + 1 := by
  have hvalue : (bucketOf v p : ℕ) = 8 * v + p := rfl
  have hp7 : p = 7 ↔ (p : ℕ) = 7 := Fin.ext_iff
  have hdrop : dropPort.toNat = 511 := rfl
  rw [toNat_bucketIndex, hvalue, hp7]
  cases hegress with
  | inl hport =>
      have hne : egressSpec ≠ dropPort := by
        intro heq
        rw [heq, hdrop] at hport
        omega
      simp only [hne, false_and, or_false]
      omega
  | inr heq =>
      rw [heq, hdrop]
      simp only [true_and]
      omega

/-- Only the flow `(v, p)` and, at port 7, the dropped packets of VN `v + 1`
reach the bucket of `(v, p)`. -/
theorem bucketIndex_eq_iff {v p : Fin 8} {D : ℕ → Prop} {trace : List Packet}
    (hadm : Admissible D trace) (hD : p = 7 → (v : ℕ) < 7 → ¬D (v + 1)) {x : Packet}
    (hx : x ∈ trace)
    {vnId : BitVec 8} {leakRate : BitVec 48} {egressSpec : BitVec 9}
    (hmetered : x.metered = some (vnId, leakRate, egressSpec)) :
    (bucketIndex vnId egressSpec).toNat = bucketOf v p ↔
      vnId.toNat = v ∧ x.ipv4Lpm = .ipv4Forward (BitVec.ofNat 9 p) := by
  have hvn := hadm.vn_below x hx vnId leakRate egressSpec hmetered
  have hegress := (metered_eq_some.mp hmetered).2.1
  cases hadm.lpm x hx with
  | inl hdrop =>
      have hspec : egressSpec = dropPort := by
        rw [← hegress, hdrop]
        rfl
      rw [bucketIndex_eq_bucketOf hvn (Or.inr hspec), hspec, hdrop]
      constructor
      · intro hreached
        cases hreached with
        | inl hport => exact absurd hport.2 (by have := p.isLt; simp [dropPort]; omega)
        | inr hnext =>
            have hdropped := hadm.dropped x hx hdrop vnId leakRate egressSpec hmetered
            rw [hnext.2.2] at hdropped hvn
            exact absurd hdropped (hD hnext.2.1 (by omega))
      · intro hflow
        exact absurd hflow.2 (by simp)
  | inr hforward =>
      obtain ⟨port, hforward, hport⟩ := hforward
      have hspec : egressSpec = port := by
        rw [← hegress, hforward]
        rfl
      have hne : port ≠ dropPort := by
        rintro rfl
        exact absurd hport (by decide)
      have hpe : port = BitVec.ofNat 9 p ↔ port.toNat = p := by
        rw [← BitVec.toNat_inj, BitVec.toNat_ofNat, Nat.mod_eq_of_lt (by omega)]
      rw [bucketIndex_eq_bucketOf hvn (Or.inl (hspec ▸ hport)), hspec, hforward,
        LpmAction.ipv4Forward.injEq, hpe]
      simp [hne]

theorem meteredIn_eq_flow {v p : Fin 8} {D : ℕ → Prop} {trace : List Packet}
    (hadm : Admissible D trace) (hD : p = 7 → (v : ℕ) < 7 → ¬D (v + 1)) {x : Packet}
    (hx : x ∈ trace) :
    x.meteredIn (bucketOf v p) = (x.flow v p).map flowMetering := by
  unfold Packet.meteredIn Packet.flow
  cases hmetered : x.metered with
  | none => rfl
  | some params =>
      obtain ⟨vnId, leakRate, egressSpec⟩ := params
      simp only [Option.bind_some, bucketIndex_eq_iff hadm hD hx hmetered]
      split <;> rfl

theorem colors_eq_verdicts {v p : Fin 8} (regs : Registers) {trace : List Packet}
    (halone : ∀ x ∈ trace, x.meteredIn (bucketOf v p) = (x.flow v p).map flowMetering) :
    colors v p regs trace =
      ((regs.bucket (bucketOf v p)).verdicts
        ((trace.filterMap (Packet.flow v p)).map flowMetering)).map
          fun green => if green then 0 else 1 := by
  induction trace generalizing regs with
  | nil => rfl
  | cons x trace ih =>
      have hx := halone x List.mem_cons_self
      have hrest := ih (apply regs x).1 fun y hy => halone y (List.mem_cons_of_mem x hy)
      have hbucket := bucket_apply regs x (bucketOf v p)
      unfold colors at hrest ⊢
      cases hflow : x.flow v p with
      | none =>
          rw [hflow, Option.map_none] at hx
          rw [hx] at hbucket
          simp only at hbucket
          rw [hbucket] at hrest
          simp [markAll, hflow, hrest]
      | some f =>
          rw [hflow, Option.map_some] at hx
          rw [hx] at hbucket
          simp only at hbucket
          rw [hbucket] at hrest
          -- the mark of `x` is the verdict of its bucket
          unfold Packet.meteredIn at hx
          obtain ⟨⟨vnId, leakRate, egressSpec⟩, hmetered, hif⟩ :=
            Option.bind_eq_some_iff.mp hx
          simp only at hif
          split at hif
          next hindex =>
            simp only [Option.some.injEq] at hif
            have hmark := marked_apply regs x hmetered hindex
            rw [hif] at hmark
            simp [markAll, hflow, hrest, hmark, BucketState.verdicts]
          next => simp at hif

theorem isolated_of_not_reached {D : ℕ → Prop} {v p : Fin 8}
    (hD : p = 7 → (v : ℕ) < 7 → ¬D (v + 1)) : Isolated D v p := by
  intro regs A B hA hB hflow
  rw [colors_eq_verdicts regs fun x hx => meteredIn_eq_flow hA hD hx,
    colors_eq_verdicts regs fun x hx => meteredIn_eq_flow hB hD hx, hflow]

/-! ## The bucket shared with dropped packets -/

def droppedPacket (v : Fin 8) : Packet where
  ipv4Valid := true
  ipv4Lpm := .drop
  vnClassifier := some (.setVnParams (BitVec.ofNat 8 (v + 1)) 10)
  ingressGlobalTimestamp := 1
  packetLength := 1514

def packetToPort7 (v : Fin 8) : Packet where
  ipv4Valid := true
  ipv4Lpm := .ipv4Forward 7
  vnClassifier := some (.setVnParams (BitVec.ofNat 8 v) 10)
  ingressGlobalTimestamp := 1
  packetLength := 1514

theorem colors_after_dropped : ∀ v : Fin 8, (v : ℕ) < 7 →
    colors v 7 .zero [packetToPort7 v] = [0] ∧
      colors v 7 .zero (List.replicate 5 (droppedPacket v) ++ [packetToPort7 v]) = [1] := by
  decide +kernel

theorem flow_after_dropped : ∀ v : Fin 8,
    [packetToPort7 v].filterMap (Packet.flow v 7) =
      (List.replicate 5 (droppedPacket v) ++ [packetToPort7 v]).filterMap
        (Packet.flow v 7) := by
  decide +kernel

theorem admissible_of_mem {D : ℕ → Prop} {v : Fin 8} (hv : (v : ℕ) < 7) (hD : D (v + 1))
    {trace : List Packet} (htrace : ∀ x ∈ trace, x = droppedPacket v ∨ x = packetToPort7 v) :
    Admissible D trace := by
  have hdropped : (droppedPacket v).metered =
      some (BitVec.ofNat 8 (v + 1), 10, dropPort) := rfl
  have hforwarded : (packetToPort7 v).metered = some (BitVec.ofNat 8 v, 10, 7) := rfl
  have hnat : ∀ n < 8, (BitVec.ofNat 8 n).toNat = n := by
    intro n hn
    rw [BitVec.toNat_ofNat, Nat.mod_eq_of_lt (by omega)]
  constructor
  · intro x hx vnId leakRate egressSpec hmetered
    cases htrace x hx with
    | inl heq =>
        rw [heq, hdropped, Option.some.injEq, Prod.mk.injEq] at hmetered
        rw [← hmetered.1, hnat _ (by omega)]
        omega
    | inr heq =>
        rw [heq, hforwarded, Option.some.injEq, Prod.mk.injEq] at hmetered
        rw [← hmetered.1, hnat _ (by omega)]
        omega
  · intro x hx
    cases htrace x hx with
    | inl heq => exact Or.inl (heq ▸ rfl)
    | inr heq => exact Or.inr ⟨7, heq ▸ rfl, by decide⟩
  · intro x hx hdrop vnId leakRate egressSpec hmetered
    cases htrace x hx with
    | inl heq =>
        rw [heq, hdropped, Option.some.injEq, Prod.mk.injEq] at hmetered
        rwa [← hmetered.1, hnat _ (by omega)]
    | inr heq =>
        rw [heq] at hdrop
        exact absurd hdrop (by simp [packetToPort7])

theorem mem_after_dropped (v : Fin 8) :
    ∀ x ∈ List.replicate 5 (droppedPacket v) ++ [packetToPort7 v],
      x = droppedPacket v ∨ x = packetToPort7 v := by
  intro x hx
  cases List.mem_append.mp hx with
  | inl hdropped => exact Or.inl (List.eq_of_mem_replicate hdropped)
  | inr hlast => exact Or.inr (List.mem_singleton.mp hlast)

theorem not_isolated {D : ℕ → Prop} {v : Fin 8} (hv : (v : ℕ) < 7) (hD : D (v + 1)) :
    ¬Isolated D v 7 := by
  intro hisolated
  have hsame := hisolated .zero [packetToPort7 v]
    (List.replicate 5 (droppedPacket v) ++ [packetToPort7 v])
    (admissible_of_mem hv hD (by simp))
    (admissible_of_mem hv hD (mem_after_dropped v)) (flow_after_dropped v)
  rw [(colors_after_dropped v hv).1, (colors_after_dropped v hv).2] at hsame
  simp at hsame

/-- A pair `(v, p)` is isolated exactly when it is not `(v, 7)` with a following
VN whose packets may be dropped. -/
theorem isolated_iff (D : ℕ → Prop) (v p : Fin 8) :
    Isolated D v p ↔ ¬(p = 7 ∧ (v : ℕ) < 7 ∧ D (v + 1)) := by
  constructor
  · intro hisolated hreached
    obtain ⟨rfl, hv, hD⟩ := hreached
    exact not_isolated hv hD hisolated
  · intro hreached
    apply isolated_of_not_reached
    intro hp hv hD
    exact hreached ⟨hp, hv, hD⟩

/-- The flow of VN 0 to port 7 with and without five dropped packets of VN 1. -/
theorem not_bucket_isolation :
    ¬∀ v p : Fin 8, Isolated (fun _ => True) v p := by
  intro hall
  have hsame := hall 0 7 .zero [packetToPort7 0]
    (List.replicate 5 (droppedPacket 0) ++ [packetToPort7 0])
    (admissible_of_mem (v := 0) (by decide) trivial (by simp))
    (admissible_of_mem (by decide) trivial (mem_after_dropped 0)) (by decide +kernel)
  revert hsame
  decide +kernel

end MyIngress

end Cmcs
