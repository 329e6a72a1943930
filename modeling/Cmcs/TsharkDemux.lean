import Cmcs.TsharkOutput
import Mathlib.Tactic

/-!
# Attribution of the blocks to the filters

A header line is recognised by a substring search for the filters, in the order of the
filters.  The filter of one address is a substring of the header of another if its
address is a textual prefix of the other, as with `10.0.0.1` and `10.0.0.10`: then the
block goes to the shorter address if that comes first.
-/

namespace Cmcs

namespace RunTest

open Text

structure Ipv4 where
  a : Fin 256
  b : Fin 256
  c : Fin 256
  d : Fin 256
  deriving DecidableEq

def Ipv4.text (ip : Ipv4) : List Char :=
  ofNat ip.a ++ '.' :: (ofNat ip.b ++ '.' :: (ofNat ip.c ++ '.' :: ofNat ip.d))

def filterField : List Char := "ip.src == ".toList

/-- `'ip.src == {ip}'` -/
def filterText (ip : Ipv4) : List Char := filterField ++ ip.text

/-- The statistics which tshark prints for one filter. -/
structure Block where
  source : Ipv4
  pad : ℕ
  dataLines : List (List Char)
  isLine : ∀ line ∈ dataLines, IsLine line
  isData : ∀ line ∈ dataLines, ¬headerMark <:+: line

def headerStart : List Char := ['|', ' '] ++ headerMark ++ [' ']

def headerEnd (pad : ℕ) : List Char := List.replicate pad ' ' ++ ['|']

/-- `| Col 1: <filter_str>  |` -/
def Block.header (block : Block) : List Char :=
  headerStart ++ filterText block.source ++ headerEnd block.pad

def Block.lines (block : Block) : List (List Char) := block.header :: block.dataLines

def Block.text (block : Block) : List Char := unlines block.lines

/-! ## Headers and filters -/

section Header

variable {ip ip' : Ipv4} {block : Block}

theorem mem_text {c : Char} (hc : c ∈ ip.text) : c.isDigit = true ∨ c = '.' := by
  simp only [Ipv4.text, List.mem_append, List.mem_cons] at hc
  rcases hc with hc | hc | hc | hc | hc | hc | hc
  · exact Or.inl (isDigit_of_mem_ofNat hc)
  · exact Or.inr hc
  · exact Or.inl (isDigit_of_mem_ofNat hc)
  · exact Or.inr hc
  · exact Or.inl (isDigit_of_mem_ofNat hc)
  · exact Or.inr hc
  · exact Or.inl (isDigit_of_mem_ofNat hc)

theorem notMem_text {c : Char} (hdigit : c.isDigit = false) (hpoint : c ≠ '.') : c ∉ ip.text := by
  intro hc
  cases mem_text hc with
  | inl hd => exact absurd hd (by simp [hdigit])
  | inr hp => exact hpoint hp

theorem text_injective : Function.Injective Ipv4.text := by
  intro ip ip' heq
  have hpoint : ∀ n : ℕ, '.' ∉ ofNat n := fun n hmem =>
    absurd (isDigit_of_mem_ofNat hmem) (by decide)
  obtain ⟨ha, heq⟩ := append_cons_inj (hpoint _) (hpoint _) heq
  obtain ⟨hb, heq⟩ := append_cons_inj (hpoint _) (hpoint _) heq
  obtain ⟨hc, hd⟩ := append_cons_inj (hpoint _) (hpoint _) heq
  cases ip
  cases ip'
  simp only [Ipv4.mk.injEq, Fin.ext_iff]
  exact ⟨ofNat_injective ha, ofNat_injective hb, ofNat_injective hc, ofNat_injective hd⟩

theorem filterText_injective : Function.Injective filterText := fun _ _ heq =>
  text_injective (List.append_cancel_left heq)

theorem prefix_append_of_notMem {l l' tail : List Char} (hhead : ∀ c ∈ tail.head?, c ∉ l)
    (hbegins : l <+: l' ++ tail) : l <+: l' := by
  obtain ⟨rest, heq⟩ := hbegins
  rcases List.append_eq_append_iff.mp heq with ⟨more, hl', -⟩ | ⟨more, hl, htail⟩
  · exact ⟨more, hl'.symm⟩
  · cases more with
    | nil => exact ⟨[], by simpa using hl⟩
    | cons c more =>
        refine absurd ?_ (hhead c (by rw [htail]; rfl))
        rw [hl]
        simp

theorem exists_filterText_eq :
    ∃ rest, ∀ ip, filterText ip = 'i' :: (rest ++ ip.text) ∧ 'i' ∉ rest ++ ip.text := by
  have hfield : filterField = 'i' :: filterField.tail ∧ 'i' ∉ filterField.tail := by decide
  refine ⟨filterField.tail, fun ip => ⟨?_, ?_⟩⟩
  · rw [filterText, ← List.cons_append, ← hfield.1]
  · rw [List.mem_append, not_or]
    exact ⟨hfield.2, notMem_text (by decide) (by decide)⟩

theorem mem_headerEnd {c : Char} {pad : ℕ} (hc : c ∈ headerEnd pad) : c = ' ' ∨ c = '|' := by
  rw [headerEnd, List.mem_append, List.mem_replicate, List.mem_singleton] at hc
  exact hc.imp And.right id

/-- The header of a block names every filter whose address is a prefix of the address
of the block. -/
theorem infix_header_iff : filterText ip <:+: block.header ↔ ip.text <+: block.source.text := by
  constructor
  · intro hinfix
    obtain ⟨front, back, heq⟩ := hinfix
    obtain ⟨rest, hfilter⟩ := exists_filterText_eq
    obtain ⟨hip, hi⟩ := hfilter ip
    obtain ⟨hsource, hi'⟩ := hfilter block.source
    have hstart : 'i' ∉ headerStart := by decide
    have hend : 'i' ∉ headerEnd block.pad := fun hmem =>
      absurd (mem_headerEnd hmem) (by decide)
    -- The letter `i` stands in a header once, so both filters begin at the same place.
    have hfront : 'i' ∉ front := by
      have htotal := congrArg (List.count 'i') heq
      have hstart' := List.count_eq_zero.mpr hstart
      have hend' := List.count_eq_zero.mpr hend
      have hrest := List.count_eq_zero.mpr hi'
      rw [Block.header, hip, hsource] at htotal
      simp only [List.count_append, List.count_cons_self] at htotal hrest
      rw [← List.count_eq_zero]
      omega
    have hsplit : front ++ 'i' :: (rest ++ (ip.text ++ back)) =
        headerStart ++ 'i' :: (rest ++ (block.source.text ++ headerEnd block.pad)) := by
      rw [Block.header, hip, hsource] at heq
      simpa only [List.append_assoc, List.cons_append] using heq
    obtain ⟨-, heq⟩ := append_cons_inj hfront hstart hsplit
    refine prefix_append_of_notMem ?_ ⟨back, List.append_cancel_left heq⟩
    intro c hc
    cases mem_headerEnd (List.mem_of_mem_head? hc) with
    | inl hspace => exact hspace ▸ notMem_text (by decide) (by decide)
    | inr hbar => exact hbar ▸ notMem_text (by decide) (by decide)
  · intro hbegins
    obtain ⟨rest, heq⟩ := hbegins
    refine ⟨headerStart, rest ++ headerEnd block.pad, ?_⟩
    rw [Block.header, filterText, filterText, ← heq]
    simp only [List.append_assoc]

theorem headerMark_infix : headerMark <:+: block.header := by
  refine ⟨['|', ' '], [' '] ++ filterText block.source ++ headerEnd block.pad, ?_⟩
  rw [Block.header, headerStart]
  simp only [List.append_assoc]

theorem not_isLineEnd_of_mem_text {c : Char} (hc : c ∈ ip.text) : isLineEnd c = false := by
  cases mem_text hc with
  | inl hdigit =>
      have hrange := toNat_of_isDigit hdigit
      simp only [isLineEnd, List.mem_cons, List.not_mem_nil, or_false,
        decide_eq_false_iff_not]
      omega
  | inr hpoint =>
      subst c
      decide

theorem isLine_header : IsLine block.header := by
  intro c hc
  have hstart : IsLine (headerStart ++ filterField) := by decide
  rw [Block.header, filterText, ← List.append_assoc, List.mem_append, List.mem_append] at hc
  rcases hc with (hc | hc) | hc
  · exact hstart c hc
  · exact not_isLineEnd_of_mem_text hc
  · cases mem_headerEnd hc with
    | inl hspace => exact hspace ▸ (by decide)
    | inr hbar => exact hbar ▸ (by decide)

theorem isLine_of_mem_lines : ∀ line ∈ block.lines, IsLine line := by
  rw [Block.lines, List.forall_mem_cons]
  exact ⟨isLine_header, block.isLine⟩

end Header

/-! ## The loop over the lines -/

/-- The filters which are passed to tshark, in this order. -/
def filterOrder (order : List (ℕ × Ipv4)) : List (ℕ × List Char) :=
  order.map fun item => (item.1, filterText item.2)

/-- The VN to which a block goes: the first whose address is a prefix of its address. -/
def Block.owner (order : List (ℕ × Ipv4)) (block : Block) : Option ℕ :=
  (order.find? fun item => item.2.text <+: block.source.text).map Prod.fst

/-- What tshark prints: some lines, and then the blocks. -/
def tsharkOutput (preamble : List (List Char)) (blocks : List Block) : List Char :=
  unlines (preamble ++ blocks.flatMap Block.lines)

section Loop

variable {order : List (ℕ × Ipv4)} {block : Block} {current : Option ℕ} {vnid : ℕ}
variable {data : List (List Char)}

def fltToVnid (order : List (ℕ × Ipv4)) : List (List Char × ℕ) :=
  order.map fun item => (filterText item.2, item.1)

theorem headerMark_infix_withNewline {line : List Char} :
    headerMark <:+: withNewline line ↔ headerMark <:+: line :=
  infix_concat_iff_of_notMem (by decide)

theorem find_filter (order : List (ℕ × Ipv4)) (block : Block) :
    ((fltToVnid order).find? fun item => item.1 <:+: withNewline block.header).map Prod.snd =
      block.owner order := by
  have hnewline : ∀ ip, '\n' ∉ filterText ip := by
    intro ip hmem
    cases List.mem_append.mp hmem with
    | inl hfield => exact absurd hfield (by decide)
    | inr htext => exact notMem_text (by decide) (by decide) htext
  have hsame : ∀ ip, filterText ip <:+: withNewline block.header ↔
      ip.text <+: block.source.text := fun ip =>
    (infix_concat_iff_of_notMem (hnewline ip)).trans infix_header_iff
  rw [fltToVnid, List.find?_map, Option.map_map, Block.owner]
  simp only [Function.comp_def, hsame]

theorem demux_none (hdata : ∀ line ∈ data, ¬headerMark <:+: line)
    (dict : List (ℕ × List (List Char))) (rest : List (List Char)) :
    demux (fltToVnid order) none dict (data.map withNewline ++ rest) =
      demux (fltToVnid order) none dict rest := by
  induction data with
  | nil => rfl
  | cons line data ih =>
      rw [List.forall_mem_cons, ← headerMark_infix_withNewline] at hdata
      rw [List.map_cons, List.cons_append, demux, if_neg hdata.1]
      exact ih hdata.2

theorem demux_data (hdata : ∀ line ∈ data, ¬headerMark <:+: line)
    (dict : List (ℕ × List (List Char))) (before rest : List (List Char)) :
    demux (fltToVnid order) (some vnid) (Dict.modify dict vnid fun lines => lines ++ before)
        (data.map withNewline ++ rest) =
      demux (fltToVnid order) (some vnid)
        (Dict.modify dict vnid fun lines => lines ++ (before ++ data.map withNewline)) rest := by
  induction data generalizing before with
  | nil => simp
  | cons line data ih =>
      rw [List.forall_mem_cons, ← headerMark_infix_withNewline] at hdata
      have hlater := ih hdata.2 (before ++ [withNewline line])
      rw [List.map_cons, List.cons_append, demux, if_neg hdata.1]
      simp only [Dict.modify_modify, List.append_assoc, List.singleton_append] at hlater ⊢
      exact hlater

/-- A block goes to its owner as a whole. -/
theorem demux_block (howner : block.owner order = some vnid)
    (dict : List (ℕ × List (List Char))) (rest : List (List Char)) :
    demux (fltToVnid order) current dict (block.lines.map withNewline ++ rest) =
      demux (fltToVnid order) (some vnid)
        (Dict.modify dict vnid fun lines => lines ++ block.lines.map withNewline) rest := by
  rw [Block.lines, List.map_cons, List.cons_append, demux,
    if_pos (headerMark_infix_withNewline.mpr headerMark_infix), find_filter, howner, Option.some_or]
  exact demux_data block.isData dict [withNewline block.header] rest

theorem lookup_demux {blocks : List Block} (howner : ∀ block ∈ blocks, (block.owner order).isSome)
    (dict : List (ℕ × List (List Char))) (vnid : ℕ) :
    (demux (fltToVnid order) current dict
        ((blocks.flatMap Block.lines).map withNewline)).lookup vnid =
      (dict.lookup vnid).map fun lines => lines ++
        ((blocks.filter fun block => block.owner order = some vnid).flatMap
          Block.lines).map withNewline := by
  induction blocks generalizing current dict with
  | nil => simp [demux]
  | cons block blocks ih =>
      rw [List.forall_mem_cons] at howner
      obtain ⟨owner, hblock⟩ := Option.isSome_iff_exists.mp howner.1
      rw [List.flatMap_cons, List.map_append, demux_block hblock, ih howner.2,
        Dict.lookup_modify]
      by_cases heq : vnid = owner
      · subst owner
        rw [if_pos rfl, Option.map_map, List.filter_cons_of_pos (by simpa using hblock),
          List.flatMap_cons, List.map_append]
        congr 1
        funext lines
        exact List.append_assoc _ _ _
      · rw [if_neg heq, List.filter_cons_of_neg]
        rw [decide_eq_true_eq, hblock, Option.some.injEq]
        exact fun h => heq h.symm

theorem lookup_parseTsharkMultiFilter {preamble : List (List Char)} {blocks : List Block}
    (hvnids : (order.map Prod.fst).Nodup) (haddresses : (order.map Prod.snd).Nodup)
    (hpreamble : ∀ line ∈ preamble, IsLine line ∧ ¬headerMark <:+: line)
    (howner : ∀ block ∈ blocks, (block.owner order).isSome) (hvnid : vnid ∈ order.map Prod.fst) :
    (parseTsharkMultiFilter (tsharkOutput preamble blocks) (filterOrder order)).lookup vnid =
      some (unlines ((blocks.filter fun block => block.owner order = some vnid).flatMap
        Block.lines)) := by
  have hfilters : Dict.ofList ((filterOrder order).map fun item => (item.2, item.1)) =
      fltToVnid order := by
    rw [filterOrder, List.map_map]
    change Dict.ofList (fltToVnid order) = fltToVnid order
    apply Dict.ofList_eq_self
    have hkeys : (fltToVnid order).map Prod.fst = (order.map Prod.snd).map filterText := by
      rw [fltToVnid, List.map_map, List.map_map]
      rfl
    rw [hkeys]
    exact haddresses.map filterText_injective
  have hdict : Dict.ofList ((filterOrder order).map fun item =>
      (item.1, ([] : List (List Char)))) = order.map fun item => (item.1, []) := by
    rw [filterOrder, List.map_map]
    change Dict.ofList (order.map fun item => (item.1, ([] : List (List Char)))) = _
    apply Dict.ofList_eq_self
    rwa [List.map_map]
  have hlines : ∀ line ∈ preamble ++ blocks.flatMap Block.lines, IsLine line := by
    intro line hline
    rw [List.mem_append, List.mem_flatMap] at hline
    rcases hline with hline | ⟨block, -, hline⟩
    · exact (hpreamble line hline).1
    · exact isLine_of_mem_lines line hline
  have hempty : (order.map fun item => (item.1, ([] : List (List Char)))).lookup vnid =
      some [] := by
    rw [Dict.lookup_eq_some_iff (by rwa [List.map_map])]
    obtain ⟨item, hitem, rfl⟩ := List.mem_map.mp hvnid
    exact List.mem_map.mpr ⟨item, hitem, rfl⟩
  rw [parseTsharkMultiFilter, hfilters, hdict, tsharkOutput, linesWithEnds_unlines hlines,
    List.map_append, demux_none fun line hline => (hpreamble line hline).2,
    Dict.lookup_map_snd, lookup_demux howner, hempty]
  rfl

end Loop

/-! ## The samples of a block -/

section Samples

variable {order : List (ℕ × Ipv4)} {blocks : List Block} {block : Block} {vnid : ℕ}

/-- A filter before the one of the block is a textual prefix of it. -/
def Masked (order : List (ℕ × Ipv4)) (block : Block) : Prop :=
  ∃ before vnid after, order = before ++ (vnid, block.source) :: after ∧
    ∃ item ∈ before, item.2.text <+: block.source.text

theorem owner_of_not_masked (hmask : ¬Masked order block) (hvnid : (vnid, block.source) ∈ order) :
    block.owner order = some vnid := by
  obtain ⟨before, after, rfl⟩ := List.append_of_mem hvnid
  have hbefore : (before.find? fun item => item.2.text <+: block.source.text) = none := by
    rw [List.find?_eq_none]
    intro item hitem hbegins
    exact hmask ⟨before, vnid, after, rfl, item, hitem, of_decide_eq_true hbegins⟩
  rw [Block.owner, List.find?_append, hbefore, Option.none_or, List.find?_cons_of_pos (by simp)]
  rfl

/-- A block which is not masked goes to the VN of its own address. -/
theorem owner_eq_iff (hvnids : (order.map Prod.fst).Nodup)
    (haddresses : (order.map Prod.snd).Nodup) (hmask : ¬Masked order block) {vnid' : ℕ} {ip : Ipv4}
    (hvnid : (vnid, block.source) ∈ order) (hvnid' : (vnid', ip) ∈ order) :
    block.owner order = some vnid' ↔ block.source = ip := by
  rw [owner_of_not_masked hmask hvnid, Option.some.injEq]
  constructor
  · intro heq
    have hitem := List.inj_on_of_nodup_map hvnids hvnid hvnid' heq
    exact congrArg Prod.snd hitem
  · intro heq
    have hitem := List.inj_on_of_nodup_map haddresses hvnid hvnid' heq
    exact congrArg Prod.fst hitem

/-- A masked filter owns no block at all. -/
theorem owner_ne_of_masked (hvnids : (order.map Prod.fst).Nodup)
    (haddresses : (order.map Prod.snd).Nodup) (hmask : Masked order block)
    (hvnid : (vnid, block.source) ∈ order) (other : Block) :
    other.owner order ≠ some vnid := by
  obtain ⟨before, vnid', after, rfl, item, hitem, hbegins⟩ := hmask
  intro howner
  obtain ⟨found, hfind, rfl⟩ := Option.map_eq_some_iff.mp howner
  have hother : found.2.text <+: other.source.text := by
    have htext := List.find?_some hfind
    exact of_decide_eq_true htext
  have hsource : found.2 = block.source := by
    have hitem := List.inj_on_of_nodup_map hvnids (List.mem_of_find?_eq_some hfind) hvnid rfl
    exact congrArg Prod.snd hitem
  rw [hsource] at hother
  have hbefore : found ∈ before := by
    rw [List.find?_append] at hfind
    cases hfirst : before.find? fun item => item.2.text <+: other.source.text with
    | none =>
        rw [List.find?_eq_none] at hfirst
        exact absurd (decide_eq_true (hbegins.trans hother)) (hfirst item hitem)
    | some first =>
        rw [hfirst, Option.some_or, Option.some.injEq] at hfind
        exact hfind ▸ List.mem_of_find?_eq_some hfirst
  rw [List.map_append, List.nodup_append'] at haddresses
  refine haddresses.2.2 (List.mem_map_of_mem hbefore) ?_
  rw [hsource]
  simp

/-- The samples of the blocks together; a block without samples does not matter. -/
theorem parse_filter (tMin tMax : ℚ) (blocks : List Block) :
    parseTsharkIoStat (unlines (blocks.flatMap Block.lines)) tMin tMax =
      parseTsharkIoStat (unlines ((blocks.filter fun block =>
        parseTsharkIoStat block.text tMin tMax ≠ some []).flatMap Block.lines)) tMin tMax := by
  have hlines : ∀ blocks : List Block, ∀ line ∈ blocks.flatMap Block.lines, IsLine line := by
    intro blocks line hline
    obtain ⟨block, -, hmem⟩ := List.mem_flatMap.mp hline
    exact isLine_of_mem_lines line hmem
  induction blocks with
  | nil => rfl
  | cons block blocks ih =>
      rw [List.flatMap_cons, parseTsharkIoStat_append isLine_of_mem_lines (hlines _), ih]
      by_cases hempty : parseTsharkIoStat block.text tMin tMax = some []
      · rw [List.filter_cons_of_neg (by simpa using hempty)]
        rw [Block.text] at hempty
        rw [hempty]
        simp
      · rw [List.filter_cons_of_pos (by simpa using hempty), List.flatMap_cons,
          parseTsharkIoStat_append isLine_of_mem_lines (hlines _)]

end Samples

/-- Every VN gets the samples of its own block and no others if and only if no block with
samples has an earlier filter which is a textual prefix of its own. -/
theorem demux_exact_iff {order : List (ℕ × Ipv4)} {preamble : List (List Char)}
    {blocks : List Block} (hvnids : (order.map Prod.fst).Nodup)
    (haddresses : (order.map Prod.snd).Nodup)
    (hpreamble : ∀ line ∈ preamble, IsLine line ∧ ¬headerMark <:+: line)
    (hblocks : (blocks.map Block.source).Perm (order.map Prod.snd)) (tMin tMax : ℚ) :
    (∀ vnid ip, (vnid, ip) ∈ order → ∀ block ∈ blocks, block.source = ip →
      ∃ raw, (parseTsharkMultiFilter (tsharkOutput preamble blocks)
          (filterOrder order)).lookup vnid = some raw ∧
        parseTsharkIoStat raw tMin tMax = parseTsharkIoStat block.text tMin tMax) ↔
      ∀ block ∈ blocks, Masked order block → parseTsharkIoStat block.text tMin tMax = some [] := by
  have hsource : ∀ block ∈ blocks, ∃ vnid, (vnid, block.source) ∈ order := by
    intro block hblock
    have hmem := hblocks.mem_iff.mp (List.mem_map_of_mem hblock)
    obtain ⟨item, hitem, heq⟩ := List.mem_map.mp hmem
    exact ⟨item.1, heq ▸ hitem⟩
  have howner : ∀ block ∈ blocks, (block.owner order).isSome := by
    intro block hblock
    obtain ⟨vnid, hvnid⟩ := hsource block hblock
    rw [Block.owner, Option.isSome_map, List.find?_isSome]
    exact ⟨_, hvnid, by simp⟩
  have hlookup : ∀ vnid ip, (vnid, ip) ∈ order →
      (parseTsharkMultiFilter (tsharkOutput preamble blocks) (filterOrder order)).lookup vnid =
        some (unlines ((blocks.filter fun block => block.owner order = some vnid).flatMap
          Block.lines)) := fun vnid ip hvnid =>
    lookup_parseTsharkMultiFilter hvnids haddresses hpreamble howner
      (List.mem_map.mpr ⟨(vnid, ip), hvnid, rfl⟩)
  constructor
  · intro hexact block hblock hmask
    obtain ⟨vnid, hvnid⟩ := hsource block hblock
    obtain ⟨raw, hraw, hsamples⟩ := hexact vnid block.source hvnid block hblock rfl
    have hnone : (blocks.filter fun block => block.owner order = some vnid) = [] := by
      rw [List.filter_eq_nil_iff]
      intro other _
      rw [decide_eq_true_eq]
      exact owner_ne_of_masked hvnids haddresses hmask hvnid other
    rw [hlookup vnid block.source hvnid, hnone, Option.some.injEq] at hraw
    rw [← hsamples, ← hraw]
    rfl
  · intro hmasked vnid ip hvnid block hblock hip
    subst ip
    refine ⟨_, hlookup vnid block.source hvnid, ?_⟩
    have hsame : (blocks.filter fun other => other.owner order = some vnid).filter
          (fun other => parseTsharkIoStat other.text tMin tMax ≠ some []) =
        (blocks.filter fun other => other.source = block.source).filter
          (fun other => parseTsharkIoStat other.text tMin tMax ≠ some []) := by
      rw [List.filter_filter, List.filter_filter]
      refine List.filter_congr fun other hother => ?_
      rw [Bool.eq_iff_iff]
      simp only [Bool.and_eq_true, decide_eq_true_eq]
      refine and_congr_right fun hsamples => ?_
      obtain ⟨vnid', hvnid'⟩ := hsource other hother
      exact owner_eq_iff hvnids haddresses
        (fun hmask => hsamples (hmasked other hother hmask)) hvnid' hvnid
    have hown : (blocks.filter fun other => other.source = block.source) = [block] :=
      Dict.filter_eq_singleton (hblocks.nodup_iff.mpr haddresses) hblock
    rw [parse_filter, hsame, hown, ← parse_filter]
    simp [Block.text]

/-! ## Addresses of which one is a prefix of the other -/

def vn1Block : Block where
  source := ⟨10, 0, 0, 1⟩
  pad := 10
  dataLines := ["|  5 <>  6 |    850 |  1250000 |".toList]
  isLine := by decide
  isData := by decide

def vn2Block : Block where
  source := ⟨10, 0, 0, 10⟩
  pad := 9
  dataLines := ["|  5 <>  6 |     85 |   125000 |".toList]
  isLine := by decide
  isData := by decide

def bothVns : List (ℕ × Ipv4) := [(1, ⟨10, 0, 0, 1⟩), (2, ⟨10, 0, 0, 10⟩)]

/-- VN 1 gets the samples of both blocks and VN 2 none. -/
theorem demux_prefix_address :
    let demuxed := parseTsharkMultiFilter (tsharkOutput [] [vn1Block, vn2Block])
      (filterOrder bothVns)
    parseTsharkIoStat vn1Block.text 4 20 = some [(5, 10)] ∧
      ((demuxed.lookup 1).bind fun raw => parseTsharkIoStat raw 4 20) =
        some [(5, 10), (5, 1)] ∧
      parseTsharkIoStat vn2Block.text 4 20 = some [(5, 1)] ∧
      ((demuxed.lookup 2).bind fun raw => parseTsharkIoStat raw 4 20) = some [] := by
  decide +kernel

theorem demux_exact_iff_prefix_address :
    (∀ vnid ip, (vnid, ip) ∈ bothVns → ∀ block ∈ [vn2Block, vn1Block], block.source = ip →
      ∃ raw, (parseTsharkMultiFilter (tsharkOutput [] [vn2Block, vn1Block])
          (filterOrder bothVns)).lookup vnid = some raw ∧
        parseTsharkIoStat raw 4 20 = parseTsharkIoStat block.text 4 20) ↔
      ∀ block ∈ [vn2Block, vn1Block], Masked bothVns block →
        parseTsharkIoStat block.text 4 20 = some [] :=
  demux_exact_iff (by decide) (by decide) (by simp) (by decide) 4 20

end RunTest

end Cmcs
