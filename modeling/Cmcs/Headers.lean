import Cmcs.BitFormat
import Cmcs.ColorMarker
import Cmcs.OnesComplement
import Mathlib.Tactic

/-!
# Headers on the wire

The headers of `color_markers.p4`, its parser, its checksum update and its deparser.
A packet on the wire is a list of bits.  When `extract` runs out of bits the parser
stops, the header stays invalid and what has not been extracted is payload.
-/

namespace Cmcs

namespace DataPlane

def typeIpv4 : BitVec 16 := 0x800

structure Ethernet where
  dstAddr : BitVec 48
  srcAddr : BitVec 48
  etherType : BitVec 16
  deriving DecidableEq

structure Ipv4 where
  version : BitVec 4
  ihl : BitVec 4
  diffserv : BitVec 8
  totalLen : BitVec 16
  identification : BitVec 16
  flags : BitVec 3
  fragOffset : BitVec 13
  ttl : BitVec 8
  protocol : BitVec 8
  hdrChecksum : BitVec 16
  srcAddr : BitVec 32
  dstAddr : BitVec 32
  deriving DecidableEq

/-- The fields of a header in their order. -/
def Ethernet.fields : Ethernet ≃ BitVec 48 × BitVec 48 × BitVec 16 where
  toFun h := (h.dstAddr, h.srcAddr, h.etherType)
  invFun x := ⟨x.1, x.2.1, x.2.2⟩
  left_inv _ := rfl
  right_inv _ := rfl

def Ipv4.fields : Ipv4 ≃ BitVec 4 × BitVec 4 × BitVec 8 × BitVec 16 × BitVec 16 × BitVec 3 ×
    BitVec 13 × BitVec 8 × BitVec 8 × BitVec 16 × BitVec 32 × BitVec 32 where
  toFun h := (h.version, h.ihl, h.diffserv, h.totalLen, h.identification, h.flags,
    h.fragOffset, h.ttl, h.protocol, h.hdrChecksum, h.srcAddr, h.dstAddr)
  invFun x := ⟨x.1, x.2.1, x.2.2.1, x.2.2.2.1, x.2.2.2.2.1, x.2.2.2.2.2.1, x.2.2.2.2.2.2.1,
    x.2.2.2.2.2.2.2.1, x.2.2.2.2.2.2.2.2.1, x.2.2.2.2.2.2.2.2.2.1, x.2.2.2.2.2.2.2.2.2.2.1,
    x.2.2.2.2.2.2.2.2.2.2.2⟩
  left_inv _ := rfl
  right_inv _ := rfl

open BitFormat in
def ethernet : BitFormat Ethernet := ((word 48).pair ((word 48).pair (word 16))).as Ethernet.fields

open BitFormat in
def ipv4 : BitFormat Ipv4 :=
  ((word 4).pair <| (word 4).pair <| (word 8).pair <| (word 16).pair <| (word 16).pair <|
    (word 3).pair <| (word 13).pair <| (word 8).pair <| (word 8).pair <| (word 16).pair <|
    (word 32).pair (word 32)).as Ipv4.fields

/-- `headers`; an invalid header is `none`. -/
structure Headers where
  ethernet : Option Ethernet := none
  ipv4 : Option Ipv4 := none
  deriving DecidableEq

/-- `MyParser`: the headers and the rest of the packet. -/
def parse (bits : List Bool) : Headers × List Bool :=
  match ethernet.extract bits with
  | none => ({}, bits)
  | some (eth, rest) =>
      if eth.etherType = typeIpv4 then
        match ipv4.extract rest with
        | none => ({ ethernet := some eth }, rest)
        | some (ip, payload) => ({ ethernet := some eth, ipv4 := some ip }, payload)
      else ({ ethernet := some eth }, rest)

/-- `emit`: nothing for an invalid header. -/
def emit {α : Type} (f : BitFormat α) : Option α → List Bool
  | some h => f.encode h
  | none => []

/-- `MyDeparser`, with the payload behind the headers. -/
def deparse (hdr : Headers) (payload : List Bool) : List Bool :=
  emit ethernet hdr.ethernet ++ emit ipv4 hdr.ipv4 ++ payload

/-- Sixteen bits each, a last word with fewer bits padded at the end. -/
def words : List Bool → List ℕ
  | [] => []
  | bit :: bits =>
      (BitFormat.ofBits 16 ((bit :: bits).take 16 ++
        List.replicate (16 - (bit :: bits).length) false)).toNat :: words ((bit :: bits).drop 16)
termination_by bits => bits.length
decreasing_by simp only [List.length_drop, List.length_cons]; omega

/-- The fields which `update_checksum` reads. -/
def Ipv4.checksumData (h : Ipv4) : List Bool :=
  BitFormat.toBits h.version ++ BitFormat.toBits h.ihl ++ BitFormat.toBits h.diffserv ++
    BitFormat.toBits h.totalLen ++ BitFormat.toBits h.identification ++
    BitFormat.toBits h.flags ++ BitFormat.toBits h.fragOffset ++ BitFormat.toBits h.ttl ++
    BitFormat.toBits h.protocol ++ BitFormat.toBits h.srcAddr ++ BitFormat.toBits h.dstAddr

/-- `csum16`. -/
def csum16 (bits : List Bool) : BitVec 16 :=
  BitVec.ofNat 16 (OnesComplement.checksum (2 ^ 16) (by decide) (words bits))

/-- `MyComputeChecksum`. -/
def computeChecksum (hdr : Headers) : Headers :=
  { hdr with ipv4 := hdr.ipv4.map fun h => { h with hdrChecksum := csum16 h.checksumData } }

/-! ## Round trips -/

theorem parse_cases (bits : List Bool) :
    (bits.length < 112 ∧ parse bits = ({}, bits)) ∨
    (∃ eth rest, bits = ethernet.encode eth ++ rest ∧
      (eth.etherType ≠ typeIpv4 ∨ rest.length < 160) ∧
      parse bits = ({ ethernet := some eth }, rest)) ∨
    ∃ eth ip payload, bits = ethernet.encode eth ++ ipv4.encode ip ++ payload ∧
      eth.etherType = typeIpv4 ∧
      parse bits = ({ ethernet := some eth, ipv4 := some ip }, payload) := by
  unfold parse
  cases heth : ethernet.extract bits with
  | none => exact Or.inl ⟨ethernet.extract_eq_none.mp heth, rfl⟩
  | some result =>
      obtain ⟨eth, rest⟩ := result
      obtain rfl := ethernet.extract_eq_some.mp heth
      right
      by_cases htype : eth.etherType = typeIpv4
      · simp only [htype, if_true]
        cases hip : ipv4.extract rest with
        | none => exact Or.inl ⟨eth, rest, rfl, Or.inr (ipv4.extract_eq_none.mp hip), rfl⟩
        | some result =>
            obtain ⟨ip, payload⟩ := result
            obtain rfl := ipv4.extract_eq_some.mp hip
            exact Or.inr ⟨eth, ip, payload, by rw [List.append_assoc], htype, rfl⟩
      · simp only [htype, if_false]
        exact Or.inl ⟨eth, rest, rfl, Or.inl htype, rfl⟩

/-- The deparser puts back what the parser took apart, whatever the packet is. -/
theorem deparse_parse (bits : List Bool) : deparse (parse bits).1 (parse bits).2 = bits := by
  rcases parse_cases bits with ⟨-, hparse⟩ | ⟨eth, rest, hbits, -, hparse⟩ |
    ⟨eth, ip, payload, hbits, -, hparse⟩
  · rw [hparse]
    rfl
  · rw [hparse, hbits]
    simp [deparse, emit]
  · rw [hparse, hbits]
    rfl

theorem parse_deparse {eth : Ethernet} (htype : eth.etherType = typeIpv4) (ip : Ipv4)
    (payload : List Bool) :
    parse (deparse { ethernet := some eth, ipv4 := some ip } payload) =
      ({ ethernet := some eth, ipv4 := some ip }, payload) := by
  have heth : ethernet.extract (ethernet.encode eth ++ (ipv4.encode ip ++ payload)) =
      some (eth, ipv4.encode ip ++ payload) := ethernet.extract_append eth _
  have hip : ipv4.extract (ipv4.encode ip ++ payload) = some (ip, payload) :=
    ipv4.extract_append ip payload
  simp only [deparse, emit, List.append_assoc]
  rw [parse, heth]
  simp only [htype, if_true]
  rw [hip]

/-! ## The checksum -/

@[simp] theorem words_nil : words [] = [] := by
  rw [words]

theorem words_block {block : List Bool} (hblock : block.length = 16) (rest : List Bool) :
    words (block ++ rest) = (BitFormat.ofBits 16 block).toNat :: words rest := by
  cases block with
  | nil => simp at hblock
  | cons bit bits =>
      rw [List.cons_append, words, ← List.cons_append, List.take_left' hblock,
        List.drop_left' hblock]
      have hpad : 16 - ((bit :: bits) ++ rest).length = 0 := by
        rw [List.length_append]
        omega
      rw [hpad, List.replicate_zero, List.append_nil]

theorem words_append {first : List Bool} {n : ℕ} (hfirst : first.length = 16 * n)
    (rest : List Bool) : words (first ++ rest) = words first ++ words rest := by
  induction n generalizing first with
  | zero =>
      obtain rfl := List.length_eq_zero_iff.mp hfirst
      simp
  | succ n ih =>
      have hblock : (first.take 16).length = 16 := by
        rw [List.length_take]
        omega
      have hdrop : (first.drop 16).length = 16 * n := by
        rw [List.length_drop]
        omega
      rw [← List.take_append_drop 16 first, List.append_assoc, words_block hblock,
        words_block hblock, ih hdrop, List.cons_append]

theorem words_toBits (x : BitVec 16) : words (BitFormat.toBits x) = [x.toNat] := by
  rw [← List.append_nil (BitFormat.toBits x), words_block (BitFormat.length_toBits x),
    BitFormat.ofBits_toBits, words_nil]

theorem toNat_csum16 (bits : List Bool) :
    (csum16 bits).toNat = OnesComplement.checksum (2 ^ 16) (by decide) (words bits) := by
  rw [csum16, BitVec.toNat_ofNat]
  exact Nat.mod_eq_of_lt (OnesComplement.checksum_lt _)

/-- The options of the header, which the parser leaves in the payload. -/
def Ipv4.options (h : Ipv4) (payload : List Bool) : List Bool :=
  payload.take (32 * (h.ihl.toNat - 5))

/-- A receiver's test of the header checksum, over the 32-bit words which `ihl` counts. -/
def Ipv4.Verifies (h : Ipv4) (payload : List Bool) : Prop :=
  5 ≤ h.ihl.toNat ∧ 32 * h.ihl.toNat ≤ (ipv4.encode h ++ payload).length ∧
    OnesComplement.Verifies (2 ^ 16) (by decide)
      (words ((ipv4.encode h ++ payload).take (32 * h.ihl.toNat)))

/-- The options are all there, and their words add up to zero. -/
def Ipv4.OptionsCancel (h : Ipv4) (payload : List Bool) : Prop :=
  5 ≤ h.ihl.toNat ∧ 32 * (h.ihl.toNat - 5) ≤ payload.length ∧
    2 ^ 16 - 1 ∣ (words (h.options payload)).sum

theorem Ipv4.optionsCancel_of_ihl {h : Ipv4} (hihl : h.ihl = 5) (payload : List Bool) :
    h.OptionsCancel payload := by
  have hfive : h.ihl.toNat = 5 := by
    rw [hihl]
    rfl
  simp [Ipv4.OptionsCancel, Ipv4.options, hfive]

/-- The bits before the checksum and behind it. -/
def Ipv4.front (h : Ipv4) : List Bool :=
  BitFormat.toBits h.version ++ BitFormat.toBits h.ihl ++ BitFormat.toBits h.diffserv ++
    BitFormat.toBits h.totalLen ++ BitFormat.toBits h.identification ++
    BitFormat.toBits h.flags ++ BitFormat.toBits h.fragOffset ++ BitFormat.toBits h.ttl ++
    BitFormat.toBits h.protocol

def Ipv4.back (h : Ipv4) : List Bool :=
  BitFormat.toBits h.srcAddr ++ BitFormat.toBits h.dstAddr

theorem Ipv4.encode_eq (h : Ipv4) :
    ipv4.encode h = h.front ++ (BitFormat.toBits h.hdrChecksum ++ h.back) := by
  simp only [Ipv4.front, Ipv4.back, List.append_assoc]
  rfl

theorem Ipv4.checksumData_eq (h : Ipv4) : h.checksumData = h.front ++ h.back := by
  simp only [Ipv4.checksumData, Ipv4.front, Ipv4.back, List.append_assoc]

theorem Ipv4.length_front (h : Ipv4) : h.front.length = 16 * 5 := by
  simp [Ipv4.front]

theorem verifies_fixed (h : Ipv4) :
    OnesComplement.Verifies (2 ^ 16) (by decide)
      (words (ipv4.encode { h with hdrChecksum := csum16 h.checksumData })) := by
  have hwords : words (ipv4.encode { h with hdrChecksum := csum16 h.checksumData }) =
      words h.front ++ OnesComplement.checksum (2 ^ 16) (by decide)
        (words h.front ++ words h.back) :: words h.back := by
    rw [Ipv4.encode_eq, words_append (Ipv4.length_front _),
      words_append (n := 1) (BitFormat.length_toBits _), words_toBits, toNat_csum16,
      Ipv4.checksumData_eq, words_append h.length_front]
    rfl
  rw [hwords]
  exact OnesComplement.verifies_checksum _ _

/-- The update covers the fixed part of the header: the header verifies exactly if its
options, which it does not sum, add up to zero. -/
theorem verifies_csum16 (h : Ipv4) (payload : List Bool) :
    { h with hdrChecksum := csum16 h.checksumData }.Verifies payload ↔
      h.OptionsCancel payload := by
  unfold Ipv4.Verifies Ipv4.OptionsCancel
  refine and_congr_right fun hihl => ?_
  have hencode : (ipv4.encode { h with hdrChecksum := csum16 h.checksumData }).length =
      16 * 10 := ipv4.length_encode _
  have hlength : 32 * h.ihl.toNat = 160 + 32 * (h.ihl.toNat - 5) := by
    change 5 ≤ h.ihl.toNat at hihl
    omega
  refine and_congr ?_ ?_
  · change 32 * h.ihl.toNat ≤ _ ↔ _
    rw [List.length_append, hencode, hlength]
    omega
  · change OnesComplement.Verifies _ _ (words (List.take (32 * h.ihl.toNat) _)) ↔ _
    rw [hlength, List.take_append, List.take_of_length_le (by omega), hencode,
      Nat.add_sub_cancel_left, words_append hencode]
    exact OnesComplement.verifies_append (verifies_fixed h) _

end DataPlane

end Cmcs
