import Cmcs.P4Info
import Cmcs.Text
import Mathlib.Data.List.TakeWhile
import Mathlib.Tactic

/-!
# Numbers and addresses as byte strings

The functions of `convert.py`.  Texts are compared with the patterns of the module; the
system's `inet_aton` and `inet_pton` do the rest.  `\d` is read as the ASCII digits; texts with
digits of other scripts, which Python's `\d` also takes and for which the conversion then
raises, are left out.
-/

namespace Cmcs

namespace ControlPlane

open HexBytes

abbrev Bytes := List (BitVec 8)

def bitwidthToBytes (bitwidth : ℕ) : ℕ := (bitwidth + 7) / 8

/-- What a negative number's complement looks like. -/
def complement (number : ℤ) (bitwidth : ℕ) : ℤ :=
  if number < 0 then 2 ^ bitwidth + number else number

def encodeNum (number : ℤ) (bitwidth : ℕ) : Raises Bytes :=
  if number < 0 ∧ 2 * number < -2 ^ bitwidth then
    .error (.raised (.negativeNumber number bitwidth))
  else if 2 ^ bitwidth ≤ complement number bitwidth then
    .error (.raised (.doesNotFit (complement number bitwidth) bitwidth))
  else
    let numStr := ofNat (complement number bitwidth).toNat
    match fromHex (List.replicate (bitwidthToBytes bitwidth * 2 - numStr.length) '0' ++
        numStr) with
    | some bytes => .ok bytes
    | none => .error .valueError

def decodeNum (encodedNumber : Bytes) : Raises ℕ :=
  match toNat (hex encodedNumber) with
  | some number => .ok number
  | none => .error .valueError

/-! ## Link addresses -/

/-- `$` in a pattern also stands before a newline at the end. -/
def dropNewline (text : List Char) : List Char :=
  if text.getLast? = some '\n' then text.dropLast else text

def isHexDigit (c : Char) : Bool := (digitValue c).isSome

def matchesMac (text : List Char) : Bool :=
  let groups := (dropNewline text).splitOn ':'
  groups.length = 6 ∧ ∀ group ∈ groups, group.length = 2 ∧ group.all isHexDigit

def encodeMac (text : List Char) : Raises Bytes :=
  match fromHex (text.filter (· ≠ ':')) with
  | some bytes => .ok bytes
  | none => .error .valueError

/-- The elements of `bytes` are integers, which have no `hex()`. -/
def decodeMac (encodedMacAddr : Bytes) : Raises (List Char) :=
  match encodedMacAddr with
  | [] => .ok []
  | _ :: _ => .error .attributeError

/-! ## IPv4 addresses -/

def matchesIPv4 (text : List Char) : Bool :=
  let groups := (dropNewline text).splitOn '.'
  groups.length = 4 ∧
    ∀ group ∈ groups, 1 ≤ group.length ∧ group.length ≤ 3 ∧ group.all Char.isDigit

/-- A number of C without a sign: after `0x` in hexadecimal, after `0` in octal. -/
def cNumber : List Char → Option ℕ
  | [] => none
  | '0' :: c :: digits =>
      if c = 'x' ∨ c = 'X' then toNat digits
      else if (c :: digits).all fun d => '0' ≤ d ∧ d ≤ '7' then
        some (number 8 ((c :: digits).map fun d => d.toNat - 48))
      else none
  | digits => if digits.all Char.isDigit then some (Text.toNat digits) else none

/-- The last `k` bytes of a number. -/
def lastBytes (k n : ℕ) : Bytes :=
  (List.range k).reverse.map fun i => BitVec.ofNat 8 (n / 256 ^ i)

/-- `inet_aton`: up to four numbers, of which the last one fills the rest of the address.
What follows white space is not read. -/
def inetAton (text : List Char) : Option Bytes := do
  let numbers ← ((text.takeWhile fun c => !isSpace c).splitOn '.').mapM cNumber
  let last ← numbers.getLast?
  let first := numbers.dropLast
  if numbers.length ≤ 4 ∧ (∀ n ∈ first, n ≤ 255) ∧ last < 256 ^ (4 - first.length) then
    some (first.map (BitVec.ofNat 8) ++ lastBytes (4 - first.length) last)
  else none

example : inetAton "010.0.4.4".toList = some [8, 0, 4, 4] := by decide +kernel

def encodeIPv4 (text : List Char) : Raises Bytes :=
  if '\x00' ∈ text then .error .valueError
  else
    match inetAton text with
    | some bytes => .ok bytes
    | none => .error .osError

/-- `inet_ntoa` -/
def inetNtoa (bytes : Bytes) : List Char :=
  ['.'].intercalate (bytes.map fun byte => Text.ofNat byte.toNat)

def decodeIPv4 (encodedIpAddr : Bytes) : Raises (List Char) :=
  if encodedIpAddr.length = 4 then .ok (inetNtoa encodedIpAddr) else .error .osError

/-! ## IPv6 addresses -/

def hexGroup (group : List Char) : Option Bytes :=
  if group.length ≤ 4 then (toNat group).map (lastBytes 2) else none

/-- A dotted quad without superfluous zeros. -/
def dottedQuad (text : List Char) : Option Bytes := do
  let groups := text.splitOn '.'
  if groups.length = 4 ∧ ∀ group ∈ groups, group ≠ [] ∧ group.all Char.isDigit ∧
      Text.ofNat (Text.toNat group) = group ∧ Text.toNat group ≤ 255 then
    some (groups.map fun group => BitVec.ofNat 8 (Text.toNat group))
  else none

def groupBytes : List (List Char) → Option Bytes
  | [] => some []
  | [group] => hexGroup group <|> dottedQuad group
  | group :: groups => do
      let bytes ← hexGroup group
      let rest ← groupBytes groups
      some (bytes ++ rest)

/-- The text before the first `::` and behind it. -/
def breakDouble : List Char → Option (List Char × List Char)
  | [] => none
  | ':' :: ':' :: rest => some ([], rest)
  | c :: rest => (breakDouble rest).map fun parts => (c :: parts.1, parts.2)

/-- `inet_pton(AF_INET6)`. -/
def inetPton6 (text : List Char) : Option Bytes :=
  match breakDouble text with
  | none => do
      let bytes ← groupBytes (text.splitOn ':')
      if bytes.length = 16 then some bytes else none
  | some (left, right) => do
      let before ← if left = [] then some [] else
        ((left.splitOn ':').mapM hexGroup).map List.flatten
      let behind ← if right = [] then some [] else groupBytes (right.splitOn ':')
      if before.length + behind.length ≤ 14 then
        some (before ++ List.replicate (16 - before.length - behind.length) 0 ++ behind)
      else none

def matchesIPv6 (text : List Char) : Raises Bool :=
  if '\x00' ∈ text then .error .valueError else .ok (inetPton6 text).isSome

def encodeIPv6 (text : List Char) : Raises Bytes :=
  if '\x00' ∈ text then .error .valueError
  else
    match inetPton6 text with
    | some bytes => .ok bytes
    | none => .error .osError

/-! ## Any value -/

/-- A string which is none of the addresses is taken as it is. -/
inductive Encoded
  | bytes (bytes : Bytes)
  | str (text : List Char)
  deriving DecidableEq

def Encoded.len : Encoded → ℕ
  | .bytes b => b.length
  | .str t => t.length

/-- A list of one element stands for the element. -/
def unwrap : Json → Json
  | .list [x] => x
  | x => x

def encodeStr (text : List Char) : Raises Encoded :=
  if matchesMac text then (encodeMac text).map Encoded.bytes
  else if matchesIPv4 text then (encodeIPv4 text).map Encoded.bytes
  else do
    if ← matchesIPv6 text then (encodeIPv6 text).map Encoded.bytes
    else pure (Encoded.str text)

/-- The bytes by the type of the value. -/
def encodeByType (x : Json) (bitwidth : ℕ) : Raises Encoded :=
  match unwrap x with
  | .str text => encodeStr text
  | .int number => (encodeNum number bitwidth).map Encoded.bytes
  | x => .error (.raised (.encodingNotSupported x.typeName))

def encode (x : Json) (bitwidth : ℕ) : Raises Encoded := do
  let encodedBytes ← encodeByType x bitwidth
  if encodedBytes.len = bitwidthToBytes bitwidth then pure encodedBytes
  else .error .assertionError

/-! ## Numbers -/

theorem bitwidthToBytes_pos {bitwidth : ℕ} (hbitwidth : 0 < bitwidth) :
    0 < bitwidthToBytes bitwidth := by
  unfold bitwidthToBytes
  omega

theorem two_pow_le (bitwidth : ℕ) : 2 ^ bitwidth ≤ 256 ^ bitwidthToBytes bitwidth := by
  have hpow : (256 : ℕ) ^ bitwidthToBytes bitwidth = 2 ^ (8 * bitwidthToBytes bitwidth) := by
    rw [pow_mul]
    norm_num
  rw [hpow]
  refine Nat.pow_le_pow_right (by decide) ?_
  unfold bitwidthToBytes
  omega

/-- The numbers of a bit width, and those which are written as their complements. -/
def InRange (number : ℤ) (bitwidth : ℕ) : Prop :=
  -2 ^ (bitwidth - 1) ≤ number ∧ number < 2 ^ bitwidth

theorem inRange_iff {number : ℤ} {bitwidth : ℕ} (hbitwidth : 0 < bitwidth) :
    InRange number bitwidth ↔
      ¬(number < 0 ∧ 2 * number < -2 ^ bitwidth) ∧ complement number bitwidth < 2 ^ bitwidth := by
  obtain ⟨w, rfl⟩ := Nat.exists_eq_add_of_lt hbitwidth
  have hpos : (0 : ℤ) < 2 ^ (0 + w) := by positivity
  have hsucc : (2 : ℤ) ^ (0 + w + 1) = 2 * 2 ^ (0 + w) := by rw [pow_succ, mul_comm]
  unfold InRange complement
  rw [Nat.add_sub_cancel]
  split <;> omega

theorem complement_eq {number : ℤ} {bitwidth : ℕ} (hbitwidth : 0 < bitwidth)
    (hrange : InRange number bitwidth) : complement number bitwidth = number % 2 ^ bitwidth := by
  obtain ⟨w, rfl⟩ := Nat.exists_eq_add_of_lt hbitwidth
  obtain ⟨hlow, hhigh⟩ := hrange
  have hpos : (0 : ℤ) < 2 ^ (0 + w) := by positivity
  have hsucc : (2 : ℤ) ^ (0 + w + 1) = 2 * 2 ^ (0 + w) := by rw [pow_succ, mul_comm]
  rw [Nat.add_sub_cancel] at hlow
  unfold complement
  split
  next hneg =>
    rw [← Int.add_emod_left]
    exact (Int.emod_eq_of_lt (by omega) (by omega)).symm
  next hnonneg => exact (Int.emod_eq_of_lt (by omega) hhigh).symm

theorem exists_encodeNum {number : ℤ} {bitwidth : ℕ} (hbitwidth : 0 < bitwidth)
    (hrange : InRange number bitwidth) :
    ∃ bytes, encodeNum number bitwidth = .ok bytes ∧
      bytes.length = bitwidthToBytes bitwidth ∧ (value bytes : ℤ) = number % 2 ^ bitwidth := by
  obtain ⟨hlow, hhigh⟩ := (inRange_iff hbitwidth).mp hrange
  have hnonneg : 0 ≤ complement number bitwidth := by
    rw [complement_eq hbitwidth hrange]
    exact Int.emod_nonneg _ (by positivity)
  have hlt : (complement number bitwidth).toNat < 256 ^ bitwidthToBytes bitwidth := by
    have hbound := two_pow_le bitwidth
    zify at hbound ⊢
    rw [Int.toNat_of_nonneg hnonneg]
    exact lt_of_lt_of_le hhigh hbound
  obtain ⟨bytes, hbytes, hlength, hvalue⟩ := fromHex_padded (bitwidthToBytes_pos hbitwidth) hlt
  refine ⟨bytes, ?_, hlength, ?_⟩
  · rw [encodeNum, if_neg hlow, if_neg (not_le.mpr hhigh)]
    simp only [hbytes]
  · rw [hvalue, Int.toNat_of_nonneg hnonneg, complement_eq hbitwidth hrange]

/-- What is encoded is in the range, its bytes are those of the residue, and there are as
many as the bit width takes. -/
theorem encodeNum_eq_ok {number : ℤ} {bitwidth : ℕ} (hbitwidth : 0 < bitwidth) {bytes : Bytes} :
    encodeNum number bitwidth = .ok bytes ↔ InRange number bitwidth ∧
      bytes.length = bitwidthToBytes bitwidth ∧ (value bytes : ℤ) = number % 2 ^ bitwidth := by
  constructor
  · intro hencode
    have hrange : InRange number bitwidth := by
      rw [inRange_iff hbitwidth]
      unfold encodeNum at hencode
      split at hencode
      next => cases hencode
      next hlow =>
        split at hencode
        next => cases hencode
        next hhigh => exact ⟨hlow, not_le.mp hhigh⟩
    obtain ⟨bytes', hencode', hlength, hvalue⟩ := exists_encodeNum hbitwidth hrange
    obtain rfl := Except.ok.inj (hencode'.symm.trans hencode)
    exact ⟨hrange, hlength, hvalue⟩
  · rintro ⟨hrange, hlength, hvalue⟩
    obtain ⟨bytes', hencode, hlength', hvalue'⟩ := exists_encodeNum hbitwidth hrange
    rw [hencode, eq_of_value (hlength'.trans hlength.symm) (by zify; rw [hvalue', hvalue])]

theorem decodeNum_eq {bytes : Bytes} (hne : bytes ≠ []) : decodeNum bytes = .ok (value bytes) := by
  obtain ⟨digits, hdigits, hnumber, -⟩ := digits_hex bytes
  have hhex : hex bytes ≠ [] := by
    obtain ⟨byte, bytes, rfl⟩ := List.exists_cons_of_ne_nil hne
    simp [hex]
  rw [decodeNum, toNat_of_digits hhex hdigits, hnumber]

/-! ## Addresses -/

theorem mem_intercalate {sep c : Char} {parts : List (List Char)}
    (hc : c ∈ [sep].intercalate parts) : c = sep ∨ ∃ part ∈ parts, c ∈ part := by
  induction parts with
  | nil => simp at hc
  | cons part parts ih =>
      cases parts with
      | nil =>
          rw [List.intercalate_singleton] at hc
          exact Or.inr ⟨part, List.mem_cons_self, hc⟩
      | cons next parts =>
          rw [List.intercalate_cons_cons, List.mem_append, List.mem_append,
            List.mem_singleton] at hc
          rcases hc with (hc | hc) | hc
          · exact Or.inr ⟨part, List.mem_cons_self, hc⟩
          · exact Or.inl hc
          · obtain hsep | ⟨part', hpart', hc⟩ := ih hc
            · exact Or.inl hsep
            · exact Or.inr ⟨part', List.mem_cons_of_mem _ hpart', hc⟩

theorem dropNewline_eq_self {text : List Char} (htext : '\n' ∉ text) : dropNewline text = text :=
  if_neg fun hlast => htext (List.mem_of_getLast? hlast)

theorem cNumber_ofNat (byte : BitVec 8) : cNumber (Text.ofNat byte.toNat) = some byte.toNat := by
  have hall : ∀ n < 256, cNumber (Text.ofNat n) = some n := by decide +kernel
  exact hall _ byte.isLt

theorem mem_inetNtoa {bytes : Bytes} {c : Char} (hc : c ∈ inetNtoa bytes) :
    c = '.' ∨ c.isDigit = true := by
  obtain hsep | ⟨part, hpart, hc⟩ := mem_intercalate hc
  · exact Or.inl hsep
  · obtain ⟨byte, -, rfl⟩ := List.mem_map.mp hpart
    exact Or.inr (Text.isDigit_of_mem_ofNat hc)

theorem not_mem_inetNtoa {bytes : Bytes} {c : Char} (hdot : c ≠ '.') (hdigit : c.isDigit = false) :
    c ∉ inetNtoa bytes := by
  intro hc
  obtain rfl | hc := mem_inetNtoa hc
  · exact hdot rfl
  · exact absurd hc (by simp [hdigit])

theorem splitOn_inetNtoa {bytes : Bytes} (hne : bytes ≠ []) :
    (inetNtoa bytes).splitOn '.' = bytes.map fun byte => Text.ofNat byte.toNat := by
  refine List.splitOn_intercalate '.' (fun group hgroup => ?_) (by simpa using hne)
  obtain ⟨byte, -, rfl⟩ := List.mem_map.mp hgroup
  exact fun hdot => absurd (Text.isDigit_of_mem_ofNat hdot) (by decide)

theorem matchesIPv4_inetNtoa {bytes : Bytes} (hlength : bytes.length = 4) :
    matchesIPv4 (inetNtoa bytes) = true := by
  have hne : bytes ≠ [] := List.ne_nil_of_length_pos (by omega)
  rw [matchesIPv4, dropNewline_eq_self (not_mem_inetNtoa (by decide) (by decide)),
    splitOn_inetNtoa hne]
  simp only [List.length_map, hlength, true_and, decide_eq_true_eq]
  intro group hgroup
  obtain ⟨byte, -, rfl⟩ := List.mem_map.mp hgroup
  have hlt : byte.toNat < 10 ^ 3 := lt_of_lt_of_le byte.isLt (by decide)
  exact ⟨Nat.length_toDigits_pos, (Nat.length_toDigits_le_iff (by decide) (by decide)).mpr hlt,
    List.all_eq_true.mpr fun c hc => Text.isDigit_of_mem_ofNat hc⟩

theorem inetAton_inetNtoa {bytes : Bytes} (hlength : bytes.length = 4) :
    inetAton (inetNtoa bytes) = some bytes := by
  have hne : bytes ≠ [] := List.ne_nil_of_length_pos (by omega)
  have hspace : ((inetNtoa bytes).takeWhile fun c => !isSpace c) = inetNtoa bytes := by
    refine List.takeWhile_eq_self_iff.mpr fun c hc => ?_
    obtain rfl | hdigit := mem_inetNtoa hc
    · decide
    · have hrange := Text.toNat_of_isDigit hdigit
      have hblank : c ≠ ' ' := by
        rintro rfl
        exact absurd hdigit (by decide)
      simp only [isSpace, hblank, false_or, Bool.not_eq_true', decide_eq_false_iff_not]
      omega
  have hnumbers : (bytes.map fun byte => Text.ofNat byte.toNat).mapM cNumber =
      some (bytes.map BitVec.toNat) := by
    rw [mapM_eq_some_iff, List.forall₂_map_left_iff, List.forall₂_map_right_iff,
      List.forall₂_same]
    exact fun byte _ => cNumber_ofNat byte
  obtain ⟨a, b, c, d, rfl⟩ := List.length_eq_four.mp hlength
  rw [inetAton, hspace, splitOn_inetNtoa hne, hnumbers]
  have hbound : ∀ byte : BitVec 8, byte.toNat ≤ 255 := fun byte => Nat.le_of_lt_succ byte.isLt
  simp [lastBytes, hbound, d.isLt]

theorem encodeStr_inetNtoa {bytes : Bytes} (hlength : bytes.length = 4) :
    encodeStr (inetNtoa bytes) = .ok (.bytes bytes) := by
  have hmac : matchesMac (inetNtoa bytes) = false := by
    rw [matchesMac, dropNewline_eq_self (not_mem_inetNtoa (by decide) (by decide)),
      List.splitOn_eq_singleton (not_mem_inetNtoa (by decide) (by decide))]
    rfl
  rw [encodeStr, hmac, matchesIPv4_inetNtoa hlength, encodeIPv4,
    if_neg (not_mem_inetNtoa (by decide) (by decide)), inetAton_inetNtoa hlength]
  rfl

/-- The text of a link address. -/
def macText (bytes : Bytes) : List Char := [':'].intercalate (bytes.map fun byte => hex [byte])

theorem isHexDigit_of_mem_hex {bytes : Bytes} {c : Char} (hc : c ∈ hex bytes) :
    isHexDigit c = true := by
  obtain ⟨digits, hdigits, -⟩ := digits_hex bytes
  obtain ⟨i, hi, rfl⟩ := List.mem_iff_getElem.mp hc
  have hdigit := hdigits.get hi (hdigits.length_eq ▸ hi)
  rw [List.get_eq_getElem] at hdigit
  rw [isHexDigit, hdigit]
  rfl

theorem splitOn_macText {bytes : Bytes} (hne : bytes ≠ []) :
    (macText bytes).splitOn ':' = bytes.map fun byte => hex [byte] := by
  refine List.splitOn_intercalate ':' (fun group hgroup => ?_) (by simpa using hne)
  obtain ⟨byte, -, rfl⟩ := List.mem_map.mp hgroup
  exact fun hcolon => absurd (isHexDigit_of_mem_hex hcolon) (by decide)

theorem not_newline_mem_macText (bytes : Bytes) : '\n' ∉ macText bytes := by
  intro hc
  obtain hsep | ⟨part, hpart, hc⟩ := mem_intercalate hc
  · exact absurd hsep (by decide)
  · obtain ⟨byte, -, rfl⟩ := List.mem_map.mp hpart
    exact absurd (isHexDigit_of_mem_hex hc) (by decide)

theorem filter_intercalate {sep : Char} {parts : List (List Char)}
    (hparts : ∀ part ∈ parts, sep ∉ part) :
    ([sep].intercalate parts).filter (· ≠ sep) = parts.flatten := by
  induction parts with
  | nil => rfl
  | cons part parts ih =>
      have hpart : part.filter (· ≠ sep) = part :=
        List.filter_eq_self.mpr fun c hc =>
          decide_eq_true fun heq : c = sep => hparts part List.mem_cons_self (heq ▸ hc)
      cases parts with
      | nil => simpa using hpart
      | cons next parts =>
          rw [List.intercalate_cons_cons, List.filter_append, List.filter_append, hpart,
            ih fun part hpart => hparts part (List.mem_cons_of_mem _ hpart), List.flatten_cons]
          simp

theorem encodeStr_macText {bytes : Bytes} (hlength : bytes.length = 6) :
    encodeStr (macText bytes) = .ok (.bytes bytes) := by
  have hne : bytes ≠ [] := List.ne_nil_of_length_pos (by omega)
  have hmac : matchesMac (macText bytes) = true := by
    rw [matchesMac, dropNewline_eq_self (not_newline_mem_macText bytes), splitOn_macText hne]
    simp only [List.length_map, hlength, true_and, decide_eq_true_eq]
    intro group hgroup
    obtain ⟨byte, -, rfl⟩ := List.mem_map.mp hgroup
    exact ⟨rfl, List.all_eq_true.mpr fun c hc => isHexDigit_of_mem_hex hc⟩
  have hfilter : (macText bytes).filter (· ≠ ':') = hex bytes := by
    rw [macText, filter_intercalate]
    · rw [hex, List.flatMap_def]
      rfl
    · intro part hpart
      obtain ⟨byte, -, rfl⟩ := List.mem_map.mp hpart
      exact fun hcolon => absurd (isHexDigit_of_mem_hex hcolon) (by decide)
  rw [encodeStr, hmac, encodeMac, hfilter, fromHex_hex]
  rfl

/-! ## Values of a configuration -/

theorem encode_eq_ok {x : Json} {bitwidth : ℕ} {e : Encoded} :
    encode x bitwidth = .ok e ↔
      encodeByType x bitwidth = .ok e ∧ e.len = bitwidthToBytes bitwidth := by
  rw [encode, PyError.bind_eq_ok]
  constructor
  · rintro ⟨e', he', hassert⟩
    split at hassert
    next hlen =>
      obtain rfl := Except.ok.inj hassert
      exact ⟨he', hlen⟩
    next => cases hassert
  · rintro ⟨he, hlen⟩
    exact ⟨e, he, if_pos hlen⟩

theorem encode_str {x : Json} {text : List Char} (hx : unwrap x = .str text) {bytes : Bytes}
    {bitwidth : ℕ} (htext : encodeStr text = .ok (.bytes bytes))
    (hlength : bytes.length = bitwidthToBytes bitwidth) :
    encode x bitwidth = .ok (.bytes bytes) := by
  refine encode_eq_ok.mpr ⟨?_, hlength⟩
  rw [encodeByType, hx]
  exact htext

theorem encode_int {x : Json} {number : ℤ} (hx : unwrap x = .int number) {bytes : Bytes}
    {bitwidth : ℕ} (hnumber : encodeNum number bitwidth = .ok bytes)
    (hlength : bytes.length = bitwidthToBytes bitwidth) :
    encode x bitwidth = .ok (.bytes bytes) := by
  refine encode_eq_ok.mpr ⟨?_, hlength⟩
  rw [encodeByType, hx]
  simp only [hnumber]
  rfl

theorem encodeNum_of_encode {number : ℤ} {bitwidth : ℕ} {e : Encoded}
    (hencode : encode (.int number) bitwidth = .ok e) :
    ∃ bytes, e = .bytes bytes ∧ encodeNum number bitwidth = .ok bytes := by
  have hnumber : (encodeNum number bitwidth).map Encoded.bytes = .ok e :=
    (encode_eq_ok.mp hencode).1
  cases hbytes : encodeNum number bitwidth with
  | error e => simp [hbytes, Except.map] at hnumber
  | ok bytes =>
      rw [hbytes] at hnumber
      exact ⟨bytes, (Except.ok.inj hnumber).symm, rfl⟩

/-- What `encode` and the decoders do to each other.  Numbers come back as their residues,
IPv4 addresses as they were written, but no link address comes back at all. -/
theorem encode_roundTrip (bitwidth : ℕ) (hbitwidth : 0 < bitwidth) :
    (∀ number : ℤ, (∃ e, encode (.int number) bitwidth = .ok e) ↔ InRange number bitwidth) ∧
    (∀ (number : ℤ) (e : Encoded), encode (.int number) bitwidth = .ok e →
      ∃ bytes n, e = .bytes bytes ∧ bytes.length = bitwidthToBytes bitwidth ∧
        decodeNum bytes = .ok n ∧ (n : ℤ) = number % 2 ^ bitwidth) ∧
    (∀ bytes : Bytes, bytes.length = 4 → ∃ text, decodeIPv4 bytes = .ok text ∧
      encode (.str text) 32 = .ok (.bytes bytes)) ∧
    ∀ bytes : Bytes, bytes.length = 6 → encode (.str (macText bytes)) 48 = .ok (.bytes bytes) ∧
      decodeMac bytes = .error .attributeError := by
  refine ⟨fun number => ⟨?_, fun hrange => ?_⟩, fun number e hencode => ?_, fun bytes hlength => ?_,
    fun bytes hlength => ⟨?_, ?_⟩⟩
  · rintro ⟨e, hencode⟩
    obtain ⟨bytes, -, hbytes⟩ := encodeNum_of_encode hencode
    exact ((encodeNum_eq_ok hbitwidth).mp hbytes).1
  · obtain ⟨bytes, hbytes, hlength, -⟩ := exists_encodeNum hbitwidth hrange
    exact ⟨.bytes bytes, encode_int rfl hbytes hlength⟩
  · obtain ⟨bytes, rfl, hbytes⟩ := encodeNum_of_encode hencode
    obtain ⟨-, hlength, hvalue⟩ := (encodeNum_eq_ok hbitwidth).mp hbytes
    have hpos := bitwidthToBytes_pos hbitwidth
    exact ⟨bytes, value bytes, rfl, hlength,
      decodeNum_eq (List.ne_nil_of_length_pos (by omega)), hvalue⟩
  · exact ⟨inetNtoa bytes, if_pos hlength, encode_str rfl (encodeStr_inetNtoa hlength) hlength⟩
  · exact encode_str rfl (encodeStr_macText hlength) hlength
  · obtain ⟨byte, bytes, rfl⟩ := List.exists_cons_of_ne_nil
      (List.ne_nil_of_length_pos (by omega : 0 < bytes.length))
    rfl

theorem encode_roundTrip_port : ∃ e, encode (.int 511) 9 = .ok e :=
  ((encode_roundTrip 9 (by decide)).1 511).mpr ⟨by decide, by decide⟩

end ControlPlane

end Cmcs
