import Mathlib.Tactic

/-!
# The Color Marker Bank

`MyIngress` with its two register arrays.  A packet carries what the program
reads of it and the actions which the two tables select for it, so a trace
covers every content of the tables and every change of them.  All arithmetic is
the program's: `bit<8>` and `bit<9>` for the index and the port, `int<48>` for
the bucket, `bit<32>` for the packet length.

A register array of the target has no defined value outside its 64 entries and
ignores a write there.
-/

namespace Cmcs

namespace MyIngress

def tau : BitVec 48 := 4 * 1514 * 8

/-- What `mark_to_drop` writes into `egress_spec`. -/
def dropPort : BitVec 9 := 511

inductive LpmAction
  | ipv4Forward (port : BitVec 9)
  | drop
  | noAction
  deriving DecidableEq

inductive VnAction
  | setVnParams (vnId : BitVec 8) (guaranteedBandwidth : BitVec 48)
  | noAction
  deriving DecidableEq

/-- A packet with the selected actions; `none` is a miss in `vn_classifier`.
`unspecified` is what the two register reads return out of range. -/
structure Packet where
  ipv4Valid : Bool
  ipv4Lpm : LpmAction
  vnClassifier : Option VnAction
  ingressGlobalTimestamp : BitVec 48
  packetLength : BitVec 32
  unspecified : BitVec 48 × BitVec 48 := (0, 0)
  deriving DecidableEq

structure Registers where
  LCTReg : Fin 64 → BitVec 48
  XReg : Fin 64 → BitVec 48

structure Marked where
  egressSpec : BitVec 9
  vnId : BitVec 8
  color : BitVec 2
  deriving DecidableEq

def Registers.zero : Registers where
  LCTReg _ := 0
  XReg _ := 0

def readReg (reg : Fin 64 → BitVec 48) (index : BitVec 8) (unspecified : BitVec 48) :
    BitVec 48 :=
  if h : index.toNat < 64 then reg ⟨index.toNat, h⟩ else unspecified

def writeReg (reg : Fin 64 → BitVec 48) (index : BitVec 8) (value : BitVec 48) :
    Fin 64 → BitVec 48 :=
  if h : index.toNat < 64 then Function.update reg ⟨index.toNat, h⟩ value else reg

def LpmAction.egressSpec : LpmAction → BitVec 9
  | ipv4Forward port => port
  | drop => dropPort
  | noAction => 0

def VnAction.params : VnAction → BitVec 8 × BitVec 48
  | setVnParams vnId guaranteedBandwidth => (vnId, guaranteedBandwidth)
  | noAction => (0, 0)

def Packet.bits (x : Packet) : BitVec 48 := (x.packetLength * 8).setWidth 48

def bucketIndex (vnId : BitVec 8) (egressSpec : BitVec 9) : BitVec 8 :=
  vnId * 8 + egressSpec.setWidth 8

/-- The leaky-bucket check on the two register values: the new water level of a
green packet, `none` for a yellow one. -/
def waterLevel (LCT X t_a leakRate T : BitVec 48) : Option (BitVec 48) :=
  let LCT := if LCT = 0 then t_a else LCT
  let X_prime := X - (t_a - LCT) * leakRate
  if tau.slt X_prime then none
  else some (if X_prime.slt 0 then T else X_prime + T)

/-- `MyIngress.apply`. -/
def apply (regs : Registers) (x : Packet) : Registers × Marked :=
  if x.ipv4Valid then
    let egressSpec := x.ipv4Lpm.egressSpec
    match x.vnClassifier with
    | some action =>
        let (vnId, leakRate) := action.params
        let index := bucketIndex vnId egressSpec
        let t_a := x.ingressGlobalTimestamp
        let LCT := readReg regs.LCTReg index x.unspecified.1
        let X := readReg regs.XReg index x.unspecified.2
        match waterLevel LCT X t_a leakRate x.bits with
        | none => (regs, ⟨egressSpec, vnId, 1⟩)
        | some level =>
            ({ LCTReg := writeReg regs.LCTReg index t_a
               XReg := writeReg regs.XReg index level }, ⟨egressSpec, vnId, 0⟩)
    | none => (regs, ⟨egressSpec, 3, 0⟩)
  else (regs, ⟨0, 0, 0⟩)

def runRegs (regs : Registers) (trace : List Packet) : Registers :=
  trace.foldl (fun regs x => (apply regs x).1) regs

def markAll : Registers → List Packet → List (Packet × Marked)
  | _, [] => []
  | regs, x :: trace => (x, (apply regs x).2) :: markAll (apply regs x).1 trace

theorem runRegs_append (regs : Registers) (first second : List Packet) :
    runRegs regs (first ++ second) = runRegs (runRegs regs first) second :=
  List.foldl_append

theorem markAll_append (regs : Registers) (first second : List Packet) :
    markAll regs (first ++ second) =
      markAll regs first ++ markAll (runRegs regs first) second := by
  induction first generalizing regs with
  | nil => rfl
  | cons x first ih => simp [markAll, runRegs, ih]

/-! ## One bucket at a time -/

/-- VN, rate and port of a packet which goes through the bucket check. -/
def Packet.metered (x : Packet) : Option (BitVec 8 × BitVec 48 × BitVec 9) :=
  if x.ipv4Valid then
    x.vnClassifier.map fun action =>
      (action.params.1, action.params.2, x.ipv4Lpm.egressSpec)
  else none

structure Metering where
  time : BitVec 48
  leakRate : BitVec 48
  bits : BitVec 48
  deriving DecidableEq

structure BucketState where
  LCT : BitVec 48
  X : BitVec 48
  deriving DecidableEq

/-- The effect of one packet on its bucket; the flag says green. -/
def BucketState.meter (b : BucketState) (a : Metering) : BucketState × Bool :=
  match waterLevel b.LCT b.X a.time a.leakRate a.bits with
  | none => (b, false)
  | some level => (⟨a.time, level⟩, true)

def Registers.bucket (regs : Registers) (i : Fin 64) : BucketState :=
  ⟨regs.LCTReg i, regs.XReg i⟩

def Packet.meteredIn (i : Fin 64) (x : Packet) : Option Metering :=
  x.metered.bind fun (vnId, leakRate, egressSpec) =>
    if (bucketIndex vnId egressSpec).toNat = i then
      some ⟨x.ingressGlobalTimestamp, leakRate, x.bits⟩
    else none

theorem readReg_eq {reg : Fin 64 → BitVec 48} {index : BitVec 8} {i : Fin 64}
    (hindex : index.toNat = i) (unspecified : BitVec 48) :
    readReg reg index unspecified = reg i := by
  have hlt : index.toNat < 64 := hindex ▸ i.isLt
  simp only [readReg, hlt, dif_pos]
  congr 1
  exact Fin.ext hindex

theorem writeReg_eq (reg : Fin 64 → BitVec 48) (index : BitVec 8) (value : BitVec 48)
    (i : Fin 64) :
    writeReg reg index value i = if index.toNat = i then value else reg i := by
  unfold writeReg
  split
  next h =>
    by_cases hi : index.toNat = i
    · simp [hi]
    · have hne : i ≠ ⟨index.toNat, h⟩ := fun heq => hi (by rw [heq])
      simp [hi, hne]
  next h =>
    have hi : index.toNat ≠ i := fun heq => h (heq ▸ i.isLt)
    simp [hi]

theorem metered_eq_some {x : Packet} {vnId : BitVec 8} {leakRate : BitVec 48}
    {egressSpec : BitVec 9} :
    x.metered = some (vnId, leakRate, egressSpec) ↔
      x.ipv4Valid = true ∧ x.ipv4Lpm.egressSpec = egressSpec ∧
        ∃ action, x.vnClassifier = some action ∧ action.params = (vnId, leakRate) := by
  unfold Packet.metered
  cases hvalid : x.ipv4Valid with
  | false => simp
  | true =>
      cases hvn : x.vnClassifier with
      | none => simp
      | some action =>
          simp only [if_true, Option.map_some, Option.some.injEq, true_and,
            exists_eq_left', Prod.ext_iff]
          tauto

/-- A packet changes the bucket which it is metered in and no other. -/
theorem bucket_apply (regs : Registers) (x : Packet) (i : Fin 64) :
    (apply regs x).1.bucket i =
      match x.meteredIn i with
      | some a => ((regs.bucket i).meter a).1
      | none => regs.bucket i := by
  unfold apply Packet.meteredIn Packet.metered
  cases hvalid : x.ipv4Valid with
  | false => simp
  | true =>
      cases hvn : x.vnClassifier with
      | none => simp
      | some action =>
          simp only [if_true, Option.map_some, Option.bind_some]
          by_cases hi : (bucketIndex action.params.1 x.ipv4Lpm.egressSpec).toNat = i
          · rw [if_pos hi]
            simp only [readReg_eq hi, BucketState.meter, Registers.bucket]
            cases waterLevel (regs.LCTReg i) (regs.XReg i) x.ingressGlobalTimestamp
                action.params.2 x.bits with
            | none => rfl
            | some level => simp [writeReg_eq, hi]
          · rw [if_neg hi]
            cases waterLevel (readReg regs.LCTReg _ x.unspecified.1)
                (readReg regs.XReg _ x.unspecified.2) x.ingressGlobalTimestamp
                action.params.2 x.bits with
            | none => rfl
            | some level => simp [Registers.bucket, writeReg_eq, hi]

theorem marked_apply (regs : Registers) (x : Packet) {i : Fin 64} {vnId : BitVec 8}
    {leakRate : BitVec 48} {egressSpec : BitVec 9}
    (hmetered : x.metered = some (vnId, leakRate, egressSpec))
    (hi : (bucketIndex vnId egressSpec).toNat = i) :
    (apply regs x).2 =
      ⟨egressSpec, vnId,
        if ((regs.bucket i).meter ⟨x.ingressGlobalTimestamp, leakRate, x.bits⟩).2 then 0
        else 1⟩ := by
  obtain ⟨hvalid, hegress, action, hvn, hparams⟩ := metered_eq_some.mp hmetered
  simp only [apply, hvalid, if_true, hvn, hparams, hegress, readReg_eq hi,
    BucketState.meter, Registers.bucket]
  cases Option.eq_none_or_eq_some (waterLevel (regs.LCTReg i) (regs.XReg i)
      x.ingressGlobalTimestamp leakRate x.bits) with
  | inl hyellow => simp [hyellow]
  | inr hgreen =>
      obtain ⟨level, hgreen⟩ := hgreen
      simp [hgreen]

/-! ## Runs of one bucket -/

def BucketState.verdicts : BucketState → List Metering → List Bool
  | _, [] => []
  | b, a :: rest => (b.meter a).2 :: BucketState.verdicts (b.meter a).1 rest

end MyIngress

end Cmcs
