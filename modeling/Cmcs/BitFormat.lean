import Mathlib.Data.BitVec
import Mathlib.Logic.Equiv.Defs
import Mathlib.Tactic

/-!
# Formats of fixed width

A format writes a value as a fixed number of bits, most significant bit first, and
reads it back; both round trips are fields.  Formats of bit vectors, of pairs and of
records are built from each other, and a reader which extracts headers from a packet
and a writer which emits them undo each other.
-/

namespace BitFormat

/-- The bits of a word, the most significant first. -/
def toBits {w : ℕ} (x : BitVec w) : List Bool := List.ofFn fun i : Fin w => x.getMsbD i

def ofBits (w : ℕ) (bits : List Bool) : BitVec w := (BitVec.ofBoolListBE bits).setWidth w

@[simp] theorem length_toBits {w : ℕ} (x : BitVec w) : (toBits x).length = w := by
  simp [toBits]

theorem getMsbD_ofBits {w : ℕ} {bits : List Bool} (hbits : bits.length = w) (i : ℕ) :
    (ofBits w bits).getMsbD i = bits.getD i false := by
  subst hbits
  rw [ofBits, BitVec.setWidth_eq, BitVec.getMsbD_ofBoolListBE]

@[simp] theorem ofBits_toBits {w : ℕ} (x : BitVec w) : ofBits w (toBits x) = x := by
  apply BitVec.eq_of_getMsbD_eq
  intro i hi
  rw [getMsbD_ofBits (length_toBits x)]
  simp [toBits, hi]

theorem toBits_ofBits {w : ℕ} {bits : List Bool} (hbits : bits.length = w) :
    toBits (ofBits w bits) = bits := by
  apply List.ext_getElem
  · rw [length_toBits, hbits]
  · intro i _ hi
    simp [toBits, getMsbD_ofBits hbits, hi]

end BitFormat

/-- A format of fixed width. -/
structure BitFormat (α : Type*) where
  width : ℕ
  encode : α → List Bool
  decode : List Bool → α
  length_encode : ∀ a, (encode a).length = width
  decode_encode : ∀ a, decode (encode a) = a
  encode_decode : ∀ bits, bits.length = width → encode (decode bits) = bits

namespace BitFormat

variable {α β : Type*}

attribute [simp] length_encode decode_encode

def word (w : ℕ) : BitFormat (BitVec w) where
  width := w
  encode := toBits
  decode := ofBits w
  length_encode := length_toBits
  decode_encode := ofBits_toBits
  encode_decode _ := toBits_ofBits

/-- The first value, then the second. -/
def pair (f : BitFormat α) (g : BitFormat β) : BitFormat (α × β) where
  width := f.width + g.width
  encode x := f.encode x.1 ++ g.encode x.2
  decode bits := (f.decode (bits.take f.width), g.decode (bits.drop f.width))
  length_encode x := by simp
  decode_encode x := by
    rw [List.take_left' (f.length_encode x.1), List.drop_left' (f.length_encode x.1),
      f.decode_encode, g.decode_encode]
  encode_decode bits hbits := by
    rw [f.encode_decode, g.encode_decode, List.take_append_drop]
    · rw [List.length_drop, hbits, Nat.add_sub_cancel_left]
    · rw [List.length_take, hbits]
      exact min_eq_left (Nat.le_add_right _ _)

/-- A record is written as what it corresponds to. -/
def as (f : BitFormat α) (e : β ≃ α) : BitFormat β where
  width := f.width
  encode b := f.encode (e b)
  decode bits := e.symm (f.decode bits)
  length_encode b := f.length_encode (e b)
  decode_encode b := by rw [f.decode_encode, e.symm_apply_apply]
  encode_decode bits hbits := by rw [e.apply_symm_apply, f.encode_decode bits hbits]

variable (f : BitFormat α)

/-- Reads a value off the front, unless the packet is too short. -/
def extract (bits : List Bool) : Option (α × List Bool) :=
  if bits.length < f.width then none
  else some (f.decode (bits.take f.width), bits.drop f.width)

theorem extract_append (a : α) (rest : List Bool) :
    f.extract (f.encode a ++ rest) = some (a, rest) := by
  rw [extract, if_neg (by simp), List.take_left' (f.length_encode a),
    List.drop_left' (f.length_encode a), f.decode_encode]

theorem extract_eq_some {bits rest : List Bool} {a : α} :
    f.extract bits = some (a, rest) ↔ bits = f.encode a ++ rest := by
  constructor
  · intro hextract
    rw [extract, Option.ite_none_left_eq_some] at hextract
    obtain ⟨hlong, heq⟩ := hextract
    obtain ⟨rfl, rfl⟩ := Prod.mk.inj (Option.some.inj heq)
    rw [f.encode_decode, List.take_append_drop]
    rw [List.length_take]
    exact min_eq_left (not_lt.mp hlong)
  · rintro rfl
    exact f.extract_append a rest

theorem extract_eq_none {bits : List Bool} : f.extract bits = none ↔ bits.length < f.width := by
  simp [extract]

end BitFormat
