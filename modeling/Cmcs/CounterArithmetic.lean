import Cmcs.CheckedInt
import Cmcs.SelectVn
import Mathlib.Tactic

/-!
# The counters as 32-bit integers

`green_credit`, `weighted_deficit` and `weight` are `int`.  The functions which
change them are stated again with checked arithmetic: `none` is now also signed
overflow.  Each agrees with the exact function where its results fit, and is
undefined elsewhere.
-/

namespace Cmcs

open CheckedInt

variable {P : Type} {k : ℕ}

theorem fits_size {n : ℕ} (hn : n ≤ 65535) : Fits 32 (n : ℤ) := by
  rw [fits_32_iff]
  omega

namespace LogicalQueueInfo

variable (lq : LogicalQueueInfo k)

/-! ## The functions on `int` -/

/-- `sq.green_credit += (int)pkt_size`. -/
def accrueInt (v : Fin k) (color pktSize : ℕ) : Option (LogicalQueueInfo k) :=
  if color = 0 then
    (checked 32 ((lq.vnQueues v).greenCredit + ofUnsigned 32 pktSize)).map fun greenCredit =>
      lq.modifyVn v fun sq => { sq with greenCredit := greenCredit }
  else some lq

def chargeGreenInt (idx : ℕ) (i : Fin k) (headSz : ℕ) : Option (LogicalQueueInfo k) :=
  (checked 32 ((lq.vnQueues i).greenCredit - ofUnsigned 32 headSz)).map fun greenCredit =>
    { lq.modifyVn i fun sq => { sq with greenCredit := greenCredit } with
      greenScanIdx := idx + 1 }

def chargeDeficitInt (idx : ℕ) (i : Fin k) (headSz : ℕ) : Option (LogicalQueueInfo k) :=
  (checked 32 ((lq.vnQueues i).weightedDeficit - ofUnsigned 32 headSz)).map
    fun weightedDeficit =>
      { lq.modifyVn i fun sq => { sq with weightedDeficit := weightedDeficit } with
        wrrIdx := idx + 1 }

/-- `lq.vn_queues[i].weighted_deficit += lq.vn_queues[i].weight * (int)Q`. -/
def replenishVnInt (i : Fin k) : Option (LogicalQueueInfo k) :=
  (checked 32 ((lq.vnQueues i).weight * quantum)).bind fun product =>
    (checked 32 ((lq.vnQueues i).weightedDeficit + product)).map fun weightedDeficit =>
      lq.modifyVn i fun sq => { sq with weightedDeficit := weightedDeficit }

def replenishInt : Option (LogicalQueueInfo k) :=
  lq.activeSet.foldlM (fun lq i => lq.replenishVnInt i) lq

def dwrrLoopInt (phys : Fin k → List (QE P)) :
    ℕ → ℕ → LogicalQueueInfo k → Option (Selection P k × LogicalQueueInfo k)
  | 0, _, _ => none
  | fuel + 1, rounds, lq =>
      match CyclicScan.find? lq.activeSet lq.wrrIdx lq.hasDeficit with
      | some (idx, i) =>
          (phys i).head?.bind fun head =>
            (lq.chargeDeficitInt idx i head.pktSize).map fun lq' =>
              (⟨i, .dwrr, rounds, lq.activeSet, head⟩, lq')
      | none => lq.replenishInt.bind fun lq' => dwrrLoopInt phys fuel (rounds + 1) lq'

def selectVnInt (phys : Fin k → List (QE P)) :
    Option (Selection P k × LogicalQueueInfo k) :=
  if lq.activeSet = [] then none
  else
    match CyclicScan.find? lq.activeSet lq.greenScanIdx lq.hasGreenCredit with
    | some (idx, i) =>
        (phys i).head?.bind fun head =>
          (lq.chargeGreenInt idx i head.pktSize).map fun lq' =>
            (⟨i, .green, 0, lq.activeSet, head⟩, lq')
    | none => dwrrLoopInt phys lq.dwrrFuel 0 lq

/-! ## Where they agree with the exact functions -/

section Exact

variable {lq' : LogicalQueueInfo k} {v i : Fin k} {color idx n : ℕ}

theorem accrueInt_eq_some (hn : Fits 32 n) :
    lq.accrueInt v color n = some lq' ↔
      lq' = lq.accrue v color n ∧
        (color = 0 → Fits 32 ((lq.vnQueues v).greenCredit + n)) := by
  unfold accrueInt accrue
  split
  next hcolor =>
    rw [ofUnsigned_eq (by decide) hn]
    exact map_checked_eq_some.trans
      (and_congr Iff.rfl ⟨fun hfits _ => hfits, fun hfits => hfits hcolor⟩)
  next hcolor => simp [hcolor, eq_comm]

theorem chargeGreenInt_eq_some (hn : Fits 32 n) :
    lq.chargeGreenInt idx i n = some lq' ↔
      lq' = lq.chargeGreen idx i n ∧ Fits 32 ((lq.vnQueues i).greenCredit - n) := by
  rw [chargeGreenInt, ofUnsigned_eq (by decide) hn]
  exact map_checked_eq_some

theorem chargeDeficitInt_eq_some (hn : Fits 32 n) :
    lq.chargeDeficitInt idx i n = some lq' ↔
      lq' = lq.chargeDeficit idx i n ∧ Fits 32 ((lq.vnQueues i).weightedDeficit - n) := by
  rw [chargeDeficitInt, ofUnsigned_eq (by decide) hn]
  exact map_checked_eq_some

/-- The two checks of one member in a replenishment. -/
def ReplenishFits (i : Fin k) : Prop :=
  Fits 32 ((lq.vnQueues i).weight * quantum) ∧
    Fits 32 ((lq.vnQueues i).weightedDeficit + (lq.vnQueues i).weight * quantum)

theorem replenishVnInt_eq_some :
    lq.replenishVnInt i = some lq' ↔
      (lq' = lq.modifyVn i fun sq =>
        { sq with weightedDeficit := sq.weightedDeficit + sq.weight * quantum }) ∧
        lq.ReplenishFits i := by
  rw [replenishVnInt, bind_checked_eq_some, map_checked_eq_some, ReplenishFits]
  tauto

theorem replenishInt_eq_some (hnodup : lq.activeSet.Nodup) :
    lq.replenishInt = some lq' ↔
      lq' = lq.replenish ∧ ∀ i ∈ lq.activeSet, lq.ReplenishFits i := by
  rw [replenishInt, foldlM_eq_some_iff fun lq i lq' => lq.replenishVnInt_eq_some]
  refine and_congr Iff.rfl ?_
  -- a member is still as it was when its turn comes
  have hturn : ∀ before i after, lq.activeSet = before ++ i :: after →
      ((before.foldl (fun lq i => lq.modifyVn i fun sq =>
        { sq with weightedDeficit := sq.weightedDeficit + sq.weight * quantum }) lq).vnQueues i) =
        lq.vnQueues i := by
    intro before i after hsplit
    rw [hsplit, List.nodup_append] at hnodup
    have hi : i ∉ before := fun hmem => hnodup.2.2 i hmem i (by simp) rfl
    rw [foldl_replenish_eq lq before hnodup.1]
    simp [hi]
  constructor
  · intro hall i hi
    obtain ⟨before, after, hsplit⟩ := List.append_of_mem hi
    have hfits := hall before i after hsplit
    rwa [ReplenishFits, hturn before i after hsplit] at hfits
  · intro hall before i after hsplit
    rw [ReplenishFits, hturn before i after hsplit]
    exact hall i (by simp [hsplit])

theorem le_rounds_of_dwrrLoop {lq : LogicalQueueInfo k} {phys : Fin k → List (QE P)}
    {fuel r : ℕ} {sel : Selection P k} (hloop : dwrrLoop phys fuel r lq = some (sel, lq')) :
    r ≤ sel.rounds := by
  induction fuel generalizing r lq with
  | zero => simp [dwrrLoop] at hloop
  | succ fuel ih =>
      rw [dwrrLoop] at hloop
      split at hloop
      next =>
        obtain ⟨head, -, heq⟩ := Option.map_eq_some_iff.mp hloop
        simp only [Prod.mk.injEq] at heq
        rw [← heq.1]
      next => exact (Nat.le_succ r).trans (ih hloop)

/-- The checks of the rounds which follow round `r`, and of the charge. -/
structure RoundsFit (r : ℕ) (sel : Selection P k) : Prop where
  rounds : ∀ n, r ≤ n → n < sel.rounds → ∀ i ∈ lq.activeSet,
    Fits 32 ((lq.vnQueues i).weight * quantum) ∧
      Fits 32 ((lq.vnQueues i).weightedDeficit +
        (lq.vnQueues i).weight * quantum * ((n + 1 : ℕ) : ℤ))
  charge : Fits 32 ((lq.vnQueues sel.vn).weightedDeficit +
    (lq.vnQueues sel.vn).weight * quantum * sel.rounds - sel.head.pktSize)

theorem replenishFits_replenished (hi : i ∈ lq.activeSet) :
    (lq.replenished n).ReplenishFits i ↔
      Fits 32 ((lq.vnQueues i).weight * quantum) ∧
        Fits 32 ((lq.vnQueues i).weightedDeficit +
          (lq.vnQueues i).weight * quantum * ((n + 1 : ℕ) : ℤ)) := by
  simp only [ReplenishFits, replenished, roundsFor, hi, if_true]
  rw [add_assoc, ← mul_add_one]
  push_cast
  rfl

theorem dwrrLoopInt_eq_some {phys : Fin k → List (QE P)} (hnodup : lq.activeSet.Nodup)
    (hphys : ∀ i, ∀ qe ∈ phys i, Fits 32 qe.pktSize) {fuel r : ℕ} {sel : Selection P k} :
    dwrrLoopInt phys fuel r (lq.replenished r) = some (sel, lq') ↔
      dwrrLoop phys fuel r (lq.replenished r) = some (sel, lq') ∧ lq.RoundsFit r sel := by
  induction fuel generalizing r with
  | zero => simp [dwrrLoop, dwrrLoopInt]
  | succ fuel ih =>
      rw [dwrrLoop, dwrrLoopInt]
      cases hfind : CyclicScan.find? (lq.replenished r).activeSet (lq.replenished r).wrrIdx
          (lq.replenished r).hasDeficit with
      | some found =>
          obtain ⟨idx, i⟩ := found
          have hi : i ∈ lq.activeSet := CyclicScan.mem_of_find? hfind
          have hdeficit : ((lq.replenished r).vnQueues i).weightedDeficit =
              (lq.vnQueues i).weightedDeficit + (lq.vnQueues i).weight * quantum * r := by
            simp [replenished, roundsFor, hi]
          simp only [Option.bind_eq_some_iff, Option.map_eq_some_iff, Prod.mk.injEq]
          constructor
          · intro h
            obtain ⟨head, hhead, lq'', hcharge, rfl, rfl⟩ := h
            have hfits := (chargeDeficitInt_eq_some _
              (hphys i head (List.mem_of_head? hhead))).mp hcharge
            rw [hdeficit] at hfits
            refine ⟨⟨head, hhead, rfl, hfits.1.symm⟩, ?_, hfits.2⟩
            intro n hle hlt
            exact absurd hlt (Nat.not_lt.mpr hle)
          · intro h
            obtain ⟨⟨head, hhead, rfl, rfl⟩, hfits⟩ := h
            refine ⟨head, hhead, _, (chargeDeficitInt_eq_some _
              (hphys i head (List.mem_of_head? hhead))).mpr ⟨rfl, ?_⟩, rfl, rfl⟩
            rw [hdeficit]
            exact hfits.charge
      | none =>
          simp only [replenish_replenished lq hnodup, Option.bind_eq_some_iff]
          constructor
          · intro h
            obtain ⟨lq'', hreplenish, hloop⟩ := h
            obtain ⟨rfl, hround⟩ :=
              ((lq.replenished r).replenishInt_eq_some hnodup).mp hreplenish
            rw [replenish_replenished lq hnodup] at hloop
            obtain ⟨hexact, hrest⟩ := ih.mp hloop
            refine ⟨hexact, ?_, hrest.charge⟩
            intro n hle hlt i hi
            by_cases hn : n = r
            · subst n
              exact (lq.replenishFits_replenished hi).mp (hround i hi)
            · exact hrest.rounds n (by omega) hlt i hi
          · intro h
            obtain ⟨hexact, hfits⟩ := h
            have hlt : r < sel.rounds := le_rounds_of_dwrrLoop hexact
            refine ⟨lq.replenished (r + 1),
              ((lq.replenished r).replenishInt_eq_some hnodup).mpr ⟨?_, ?_⟩,
              ih.mpr ⟨hexact, ?_, hfits.charge⟩⟩
            · rw [replenish_replenished lq hnodup]
            · intro i hi
              exact (lq.replenishFits_replenished hi).mpr (hfits.rounds r le_rfl hlt i hi)
            · intro n hle
              exact hfits.rounds n (by omega)

/-- The checks of one call of `select_vn`. -/
structure SelectFits (sel : Selection P k) : Prop where
  green : sel.phase = .green →
    Fits 32 ((lq.vnQueues sel.vn).greenCredit - sel.head.pktSize)
  dwrr : sel.phase = .dwrr → lq.RoundsFit 0 sel

theorem selectVnInt_eq_some {phys : Fin k → List (QE P)} (hnodup : lq.activeSet.Nodup)
    (hphys : ∀ i, ∀ qe ∈ phys i, Fits 32 qe.pktSize) {sel : Selection P k} :
    lq.selectVnInt phys = some (sel, lq') ↔
      lq.selectVn phys = some (sel, lq') ∧ lq.SelectFits sel := by
  unfold selectVnInt selectVn
  split
  next => simp
  next =>
    cases hfind : CyclicScan.find? lq.activeSet lq.greenScanIdx lq.hasGreenCredit with
    | some found =>
        obtain ⟨idx, i⟩ := found
        simp only [Option.bind_eq_some_iff, Option.map_eq_some_iff, Prod.mk.injEq]
        constructor
        · intro h
          obtain ⟨head, hhead, lq'', hcharge, rfl, rfl⟩ := h
          have hfits := (chargeGreenInt_eq_some _
            (hphys i head (List.mem_of_head? hhead))).mp hcharge
          exact ⟨⟨head, hhead, rfl, hfits.1.symm⟩, fun _ => hfits.2,
            fun hphase => by contradiction⟩
        · intro h
          obtain ⟨⟨head, hhead, rfl, rfl⟩, hfits⟩ := h
          exact ⟨head, hhead, _, (chargeGreenInt_eq_some _
            (hphys i head (List.mem_of_head? hhead))).mpr ⟨rfl, hfits.green rfl⟩, rfl, rfl⟩
    | none =>
        have hloop : dwrrLoopInt phys lq.dwrrFuel 0 (lq.replenished 0) = some (sel, lq') ↔
            dwrrLoop phys lq.dwrrFuel 0 (lq.replenished 0) = some (sel, lq') ∧
              lq.RoundsFit 0 sel := lq.dwrrLoopInt_eq_some hnodup hphys
        rw [replenished_zero] at hloop
        simp only
        rw [hloop]
        refine and_congr_right fun hexact => ?_
        have hphase : sel.phase = .dwrr := by
          rw [← replenished_zero lq] at hexact
          exact (lq.dwrrLoop_eq_some hnodup hexact).2.1
        exact ⟨fun hfits => ⟨fun hgreen => by simp [hphase] at hgreen, fun _ => hfits⟩,
          fun hfits => hfits.dwrr hphase⟩

end Exact

end LogicalQueueInfo

end Cmcs
