import Cmcs.PhaseNames
import Cmcs.ResultFiles
import Mathlib.Tactic

/-!
# The throughput files are read back

A file has one row for each sample of its VN.  The fields of a row need no quotes, and
the name in it leads back to the phase because phases which are not idle have
different names.
-/

namespace Cmcs

namespace RunTest

open Text

/-! ## Rows -/

/-- The characters of the fields lie between `'-'` and `'z'`. -/
def FieldChar (c : Char) : Prop := 45 ≤ c.toNat ∧ c.toNat ≤ 122

instance (c : Char) : Decidable (FieldChar c) := inferInstanceAs (Decidable (_ ∧ _))

structure FieldText (field : List Char) : Prop where
  ne_nil : field ≠ []
  chars : ∀ c ∈ field, FieldChar c

theorem fieldText_iff {field : List Char} :
    FieldText field ↔ field ≠ [] ∧ field.all fun c => FieldChar c := by
  simp only [List.all_eq_true, decide_eq_true_eq]
  exact ⟨fun hfield => ⟨hfield.ne_nil, hfield.chars⟩, fun hfield => ⟨hfield.1, hfield.2⟩⟩

instance (field : List Char) : Decidable (FieldText field) := decidable_of_iff' _ fieldText_iff

def fieldNames : List (List Char) :=
  ["phase_name".toList, "proto".toList, "t_start_sec".toList, "throughput_mbps".toList]

def throughputRow (name : List Char) (proto : Proto) (sample : ℚ × ℚ) : List (List Char) :=
  [name, proto.text, Decimal.fixed 1 sample.1, Decimal.fixed 4 sample.2]

section Rows

variable {field : List Char} {c : Char}

theorem fieldChar_of_isDigit (hc : c.isDigit = true) : FieldChar c := by
  have hrange := toNat_of_isDigit hc
  constructor <;> omega

theorem fieldChar_of_mem_ofInt {z : ℤ} (hc : c ∈ ofInt z) : FieldChar c := by
  cases mem_ofInt hc with
  | inl hminus => exact hminus ▸ (by decide)
  | inr hdigit => exact fieldChar_of_isDigit hdigit

theorem fieldChar_of_mem_phaseName {tS tE : ℚ} (hc : c ∈ phaseName tS tE) : FieldChar c := by
  rw [phaseName_eq] at hc
  simp only [List.mem_append, List.mem_cons, List.not_mem_nil, or_false] at hc
  have hbegin : FieldText "Phase_".toList := by decide
  rcases hc with hc | hc | rfl | rfl | hc | rfl
  · exact hbegin.chars c hc
  · exact fieldChar_of_mem_ofInt hc
  · decide
  · decide
  · exact fieldChar_of_mem_ofInt hc
  · decide

theorem fieldChar_of_mem_units {n N : ℕ} (hc : c ∈ Decimal.units n N) : FieldChar c := by
  rw [Decimal.units, List.mem_append, List.mem_cons] at hc
  rcases hc with hc | rfl | hc
  · exact fieldChar_of_isDigit (isDigit_of_mem_ofNat hc)
  · decide
  · exact fieldChar_of_isDigit (Decimal.isDigit_of_mem_leftpad hc)

theorem fieldChar_of_mem_fixed {n : ℕ} {x : ℚ} (hc : c ∈ Decimal.fixed n x) : FieldChar c := by
  unfold Decimal.fixed at hc
  split at hc
  · cases List.mem_cons.mp hc with
    | inl hminus => exact hminus ▸ (by decide)
    | inr hunits => exact fieldChar_of_mem_units hunits
  · exact fieldChar_of_mem_units hc

theorem fixed_ne_nil (n : ℕ) (x : ℚ) : Decimal.fixed n x ≠ [] := by
  have hunits : ∀ N, Decimal.units n N ≠ [] := by
    intro N
    simp [Decimal.units]
  unfold Decimal.fixed
  split
  · exact List.cons_ne_nil _ _
  · exact hunits _

theorem phaseName_ne_nil (tS tE : ℚ) : phaseName tS tE ≠ [] := by
  rw [phaseName_eq]
  simp

theorem fieldText_of_mem_row {tS tE : ℚ} {proto : Proto} {sample : ℚ × ℚ}
    (hfield : field ∈ throughputRow (phaseName tS tE) proto sample) : FieldText field := by
  have hproto : FieldText proto.text := by
    cases proto <;> decide
  rw [throughputRow] at hfield
  simp only [List.mem_cons, List.not_mem_nil, or_false] at hfield
  rcases hfield with rfl | rfl | rfl | rfl
  · exact ⟨phaseName_ne_nil _ _, fun c hc => fieldChar_of_mem_phaseName hc⟩
  · exact hproto
  · exact ⟨fixed_ne_nil _ _, fun c hc => fieldChar_of_mem_fixed hc⟩
  · exact ⟨fixed_ne_nil _ _, fun c hc => fieldChar_of_mem_fixed hc⟩

theorem FieldText.plain (hfield : FieldText field) : Csv.Plain field := by
  refine ⟨hfield.ne_nil, fun c hc => ?_⟩
  have hrange := hfield.chars c hc
  have hne : ∀ d : Char, d.toNat < 45 → c ≠ d := by
    rintro d hd rfl
    exact absurd hrange.1 (not_le.mpr hd)
  refine ⟨hne ',' (by decide), hne '"' (by decide), ?_⟩
  rw [Csv.isNewline, Bool.or_eq_false_iff, decide_eq_false_iff_not, decide_eq_false_iff_not]
  exact ⟨hne '\n' (by decide), hne '\r' (by decide)⟩

theorem isLine_of_fieldText {fields : List (List Char)}
    (hfields : ∀ field ∈ fields, FieldText field) : IsLine (Csv.line fields) := by
  intro c hc
  have hrange : 44 ≤ c.toNat ∧ c.toNat ≤ 122 := by
    cases Csv.mem_line hc with
    | inl hcomma => exact hcomma ▸ (by decide)
    | inr hfield =>
        obtain ⟨field, hfield, hmem⟩ := hfield
        have hchar := (hfields field hfield).chars c hmem
        exact ⟨le_trans (by decide) hchar.1, hchar.2⟩
  simp only [isLineEnd, List.mem_cons, List.not_mem_nil, or_false, decide_eq_false_iff_not]
  omega

end Rows

/-! ## Writing -/

/-- The protocol of an active VN. -/
def Phase.proto (ph : Phase) (vnid : ℕ) : Proto :=
  ((ph.flowMap.lookup vnid).map Session.proto).getD .udp

/-- A sample with the phase it is written for and the index of this phase. -/
abbrev Entry := (Phase × ℕ) × (ℚ × ℚ)

def phaseEntries (allResults : ℕ → ℕ → List (ℚ × ℚ)) (vnid : ℕ) (item : Phase × ℕ) :
    List Entry :=
  if item.1.isIdle = true ∨ vnid ∉ item.1.activeVnids then []
  else (allResults item.2 vnid).map fun sample => (item, sample)

def entries (allResults : ℕ → ℕ → List (ℚ × ℚ)) (phases : List Phase) (vnid : ℕ) :
    List Entry :=
  phases.zipIdx.flatMap (phaseEntries allResults vnid)

def rowOf (vnid : ℕ) (entry : Entry) : List (List Char) :=
  throughputRow entry.1.1.name (entry.1.1.proto vnid) entry.2

section Writing

variable {allResults : ℕ → ℕ → List (ℚ × ℚ)} {phases : List Phase} {vnid : ℕ}

theorem throughputLine_eq (name : List Char) (proto : Proto) (sample : ℚ × ℚ) :
    throughputLine name proto sample = Csv.line (throughputRow name proto sample) := by
  simp [throughputLine, throughputRow, Csv.line, List.intercalate_cons_cons]

theorem phaseLines_eq {item : Phase × ℕ}
    (hactive : item.1.activeVnids = item.1.flowMap.map Prod.fst) :
    phaseLines allResults vnid item =
      some ((phaseEntries allResults vnid item).map fun entry => Csv.line (rowOf vnid entry)) := by
  unfold phaseLines phaseEntries
  split
  next => rfl
  next hwritten =>
    rw [not_or, not_not, hactive] at hwritten
    cases hlookup : item.1.flowMap.lookup vnid with
    | none => exact absurd hwritten.2 (Dict.lookup_eq_none_iff.mp hlookup)
    | some sess =>
        rw [Option.bind_eq_bind, Option.bind_some, List.map_map, Option.some.injEq]
        refine List.map_congr_left fun sample _ => ?_
        rw [throughputLine_eq, Function.comp_apply, rowOf, Phase.proto, hlookup]
        rfl

theorem mapM_phaseLines {items : List (Phase × ℕ)}
    (hactive : ∀ item ∈ items, item.1.activeVnids = item.1.flowMap.map Prod.fst) :
    items.mapM (phaseLines allResults vnid) =
      some (items.map fun item =>
        (phaseEntries allResults vnid item).map fun entry => Csv.line (rowOf vnid entry)) := by
  induction items with
  | nil => rfl
  | cons item items ih =>
      rw [List.forall_mem_cons] at hactive
      rw [List.mapM_cons, phaseLines_eq hactive.1, ih hactive.2]
      rfl

theorem throughputHeader_eq : throughputHeader = Csv.line fieldNames := by decide

/-- The content of a file with these rows. -/
def fileOf (rows : List (List (List Char))) : List Char :=
  unlines ((fieldNames :: rows).map Csv.line)

theorem throughputText_eq
    (hactive : ∀ ph ∈ phases, ph.activeVnids = ph.flowMap.map Prod.fst) :
    throughputText allResults phases vnid =
      some (fileOf ((entries allResults phases vnid).map (rowOf vnid))) := by
  have hitems : ∀ item ∈ phases.zipIdx, item.1.activeVnids = item.1.flowMap.map Prod.fst :=
    fun item hitem => hactive item.1 (List.fst_mem_of_mem_zipIdx hitem)
  rw [throughputText, mapM_phaseLines hitems, Option.map_some, throughputHeader_eq, fileOf,
    entries, List.map_cons, List.map_map, List.map_flatMap, List.flatMap_def]
  rfl

end Writing

/-! ## Reading -/

/-- `results[idx][vnid]` -/
def valuesAt (results : Results) (idx vnid : ℕ) : Option (List ℚ) :=
  (results.lookup idx).bind fun result => result.lookup vnid

def addValue (results : Results) (idx vnid : ℕ) (value : ℚ) : Results :=
  Dict.modify results idx fun result =>
    Dict.modify result vnid fun values => values ++ [value]

/-- In `results'` the values of `results` are followed by the added ones. -/
def Extended (results results' : Results) (added : ℕ → ℕ → List ℚ) : Prop :=
  ∀ idx vnid, valuesAt results' idx vnid =
    (valuesAt results idx vnid).map fun values => values ++ added idx vnid

/-- The values which entries hold for a phase. -/
def valuesOf (idx : ℕ) (entries : List Entry) : List ℚ :=
  (entries.filter fun entry => entry.1.2 = idx).map fun entry => Decimal.rounded 4 entry.2.2

section Reading

variable {results : Results} {names : List (List Char × ℕ)} {vnid : ℕ}

theorem Extended.refl (results : Results) : Extended results results fun _ _ => [] := by
  intro idx vnid
  simp

theorem Extended.trans {results results' results'' : Results} {added added' : ℕ → ℕ → List ℚ}
    (hfirst : Extended results results' added) (hlater : Extended results' results'' added') :
    Extended results results'' fun idx vnid => added idx vnid ++ added' idx vnid := by
  intro idx vnid
  rw [hlater, hfirst, Option.map_map]
  congr 1
  funext values
  rw [Function.comp_apply, List.append_assoc]

theorem Extended.isSome_iff {results results' : Results} {added : ℕ → ℕ → List ℚ}
    (hextended : Extended results results' added) (idx vnid : ℕ) :
    (valuesAt results' idx vnid).isSome = (valuesAt results idx vnid).isSome := by
  rw [hextended, Option.isSome_map]

theorem extended_addValue (results : Results) (idx vnid : ℕ) (value : ℚ) :
    Extended results (addValue results idx vnid value) fun idx' vnid' =>
      if idx' = idx ∧ vnid' = vnid then [value] else [] := by
  intro idx' vnid'
  rw [valuesAt, addValue, Dict.lookup_modify, valuesAt]
  by_cases hidx : idx' = idx
  · rw [if_pos hidx, Option.bind_map]
    cases results.lookup idx' with
    | none => simp
    | some result =>
        rw [Option.bind_some, Option.bind_some, Function.comp_apply, Dict.lookup_modify]
        by_cases hvnid : vnid' = vnid
        · simp [hidx, hvnid]
        · simp [hvnid]
  · simp [hidx]

theorem nodup_fieldNames : fieldNames.Nodup := by decide

theorem addRow_eq {entry : Entry} (hname : names.lookup entry.1.1.name = some entry.1.2)
    (hvalues : (valuesAt results entry.1.2 vnid).isSome = true) :
    addRow names vnid results (fieldNames.zip ((rowOf vnid entry).map some)) =
      some (addValue results entry.1.2 vnid (Decimal.rounded 4 entry.2.2)) := by
  have hkeys : ((fieldNames.zip ((rowOf vnid entry).map some)).map Prod.fst).Nodup := by
    have hlength : fieldNames.length ≤ ((rowOf vnid entry).map some).length := le_refl 4
    rw [List.map_fst_zip hlength]
    exact nodup_fieldNames
  have hphName : (fieldNames.zip ((rowOf vnid entry).map some)).lookup "phase_name".toList =
      some (some entry.1.1.name) := by
    rw [Dict.lookup_eq_some_iff hkeys]
    simp only [fieldNames, rowOf, throughputRow, List.map_cons, List.zip_cons_cons,
      List.mem_cons, true_or]
  have hcell : (fieldNames.zip ((rowOf vnid entry).map some)).lookup "throughput_mbps".toList =
      some (some (Decimal.fixed 4 entry.2.2)) := by
    rw [Dict.lookup_eq_some_iff hkeys]
    simp only [fieldNames, rowOf, throughputRow, List.map_cons, List.zip_cons_cons,
      List.mem_cons, true_or, or_true]
  obtain ⟨values, hvalues⟩ := Option.isSome_iff_exists.mp hvalues
  obtain ⟨result, hresult, hlookup⟩ := Option.bind_eq_some_iff.mp hvalues
  have hmem : vnid ∈ result.map Prod.fst := by
    by_contra habsent
    rw [Dict.lookup_eq_none_iff.mpr habsent] at hlookup
    exact Option.some_ne_none _ hlookup.symm
  rw [addRow, hphName, hcell]
  simp only [Option.bind_eq_bind, Option.bind_some, Decimal.float_fixed (by decide : 0 < 4), hname,
    hresult, if_pos hmem, addValue]

theorem loadFile_fileOf {rows : List (List (List Char))}
    (hrows : ∀ row ∈ rows, row.length = fieldNames.length ∧ ∀ field ∈ row, FieldText field) :
    loadFile names vnid results (fileOf rows) =
      rows.foldlM (fun results row =>
        addRow names vnid results (fieldNames.zip (row.map some))) results := by
  have hnames : ∀ field ∈ fieldNames, FieldText field := by decide
  have hall : ∀ row ∈ fieldNames :: rows, row ≠ [] ∧ ∀ field ∈ row, FieldText field := by
    intro row hrow
    cases List.mem_cons.mp hrow with
    | inl heq => exact heq ▸ ⟨List.cons_ne_nil _ _, hnames⟩
    | inr hmem =>
        refine ⟨List.ne_nil_of_length_pos ?_, (hrows row hmem).2⟩
        rw [(hrows row hmem).1]
        decide
  have hlines : ∀ line ∈ (fieldNames :: rows).map Csv.line, IsLine line := by
    intro line hline
    obtain ⟨row, hrow, rfl⟩ := List.mem_map.mp hline
    exact isLine_of_fieldText (hall row hrow).2
  have hrecords := Csv.records_lines fun row hrow =>
    ⟨(hall row hrow).1, fun field hfield => ((hall row hrow).2 field hfield).plain⟩
  rw [loadFile, fileOf, fileLines_unlines hlines, List.map_map]
  change (Csv.records {} ((fieldNames :: rows).map fun row => Csv.line row ++ ['\n'])).bind _ = _
  rw [hrecords, Option.bind_some,
    Csv.dictRows_of_length nodup_fieldNames (List.cons_ne_nil _ _) fun row hrow =>
      (hrows row hrow).1, List.foldlM_map]

/-- Entries whose phases are in the results are all added, in their order. -/
theorem foldlM_addRow {entries : List Entry}
    (hnames : ∀ entry ∈ entries, names.lookup entry.1.1.name = some entry.1.2)
    (hvalues : ∀ entry ∈ entries, (valuesAt results entry.1.2 vnid).isSome = true) :
    ∃ results', entries.foldlM (fun results entry =>
        addRow names vnid results (fieldNames.zip ((rowOf vnid entry).map some))) results =
          some results' ∧
      Extended results results' fun idx vnid' =>
        if vnid' = vnid then valuesOf idx entries else [] := by
  induction entries generalizing results with
  | nil =>
      refine ⟨results, rfl, ?_⟩
      simpa [valuesOf] using Extended.refl results
  | cons entry entries ih =>
      rw [List.forall_mem_cons] at hnames hvalues
      have hadd := extended_addValue results entry.1.2 vnid (Decimal.rounded 4 entry.2.2)
      have hkept : ∀ later ∈ entries,
          (valuesAt (addValue results entry.1.2 vnid (Decimal.rounded 4 entry.2.2))
            later.1.2 vnid).isSome = true := by
        intro later hlater
        rw [hadd.isSome_iff]
        exact hvalues.2 later hlater
      obtain ⟨results', hfold, hextended⟩ := ih hnames.2 hkept
      refine ⟨results', ?_, ?_⟩
      · rw [List.foldlM_cons, addRow_eq hnames.1 hvalues.1, Option.bind_eq_bind,
          Option.bind_some, hfold]
      · have hboth := hadd.trans hextended
        intro idx vnid'
        rw [hboth]
        congr 2
        funext values
        congr 1
        by_cases hvnid : vnid' = vnid
        · by_cases hidx : entry.1.2 = idx
          · simp [valuesOf, hvnid, hidx]
          · simp [valuesOf, hvnid, hidx, Ne.symm hidx]
        · simp [hvnid]

end Reading

/-! ## The phases of a configuration -/

section Phases

variable {vns : Vns} {phases : List Phase} {item : Phase × ℕ} {vnid : ℕ}
variable {allResults : ℕ → ℕ → List (ℚ × ℚ)}

theorem activeVnids_eq (hphases : vns.derivePhases = some phases) {ph : Phase}
    (hph : ph ∈ phases) : ph.activeVnids = ph.flowMap.map Prod.fst := by
  obtain ⟨table, -, rfl⟩ := Option.map_eq_some_iff.mp hphases
  obtain ⟨p, -, rfl⟩ := List.mem_map.mp hph
  rfl

theorem nodup_activeVnids (hphases : vns.derivePhases = some phases) {ph : Phase}
    (hph : ph ∈ phases) : ph.activeVnids.Nodup := by
  rw [activeVnids_eq hphases hph]
  obtain ⟨table, htable, rfl⟩ := Option.map_eq_some_iff.mp hphases
  obtain ⟨p, -, rfl⟩ := List.mem_map.mp hph
  refine nodup_flowMap ?_
  rw [keys_table htable]
  exact vns.nodup

theorem mem_items_of_active (hphases : vns.derivePhases = some phases) {ph : Phase}
    (hph : ph ∈ phases) (hv : vnid ∈ ph.activeVnids) : vnid ∈ vns.items.map Prod.fst := by
  obtain ⟨table, htable, rfl⟩ := Option.map_eq_some_iff.mp hphases
  obtain ⟨p, -, rfl⟩ := List.mem_map.mp hph
  obtain ⟨sess, hentry⟩ := mem_activeVnids.mp hv
  obtain ⟨sessions, hmem, -⟩ := mem_flowMap.mp hentry
  rw [← keys_table htable]
  exact List.mem_map_of_mem hmem

theorem mem_phaseEntries {entry : Entry} (hentry : entry ∈ phaseEntries allResults vnid item) :
    entry.1 = item ∧ ¬item.1.isIdle = true ∧ vnid ∈ item.1.activeVnids := by
  unfold phaseEntries at hentry
  split at hentry
  next => exact absurd hentry List.not_mem_nil
  next hwritten =>
    rw [not_or, not_not] at hwritten
    obtain ⟨sample, -, rfl⟩ := List.mem_map.mp hentry
    exact ⟨rfl, hwritten⟩

theorem mem_entries {entry : Entry} (hentry : entry ∈ entries allResults phases vnid) :
    entry.1 ∈ phases.zipIdx ∧ ¬entry.1.1.isIdle = true ∧ vnid ∈ entry.1.1.activeVnids := by
  obtain ⟨item, hitem, hmem⟩ := List.mem_flatMap.mp hentry
  obtain ⟨rfl, hwritten⟩ := mem_phaseEntries hmem
  exact ⟨hitem, hwritten⟩

theorem nodup_indices (phases : List Phase) : (phases.zipIdx.map Prod.snd).Nodup := by
  rw [List.zipIdx_map_snd]
  exact List.nodup_range'

theorem mem_activePhases :
    item ∈ activePhases phases ↔ item ∈ phases.zipIdx ∧ ¬item.1.isIdle = true := by
  rw [activePhases, List.mem_filter, decide_eq_true_eq]

theorem lookup_nameToIdx (hphases : vns.derivePhases = some phases)
    (hwindows : validatePhases phases = none) (hitem : item ∈ phases.zipIdx)
    (hactive : ¬item.1.isIdle = true) : (nameToIdx phases).lookup item.1.name = some item.2 := by
  have hpairwise : phases.zipIdx.Pairwise fun a b =>
      ¬a.1.isIdle = true → ¬b.1.isIdle = true → a.1.name ≠ b.1.name := by
    have hnames := pairwise_names hphases hwindows
    rwa [← List.zipIdx_map_fst 0 phases, List.pairwise_map] at hnames
  have hdistinct : (activePhases phases).Pairwise fun a b => a.1.name ≠ b.1.name := by
    refine (hpairwise.filter _).imp_of_mem fun ha hb hne => hne ?_ ?_
    · exact (mem_activePhases.mp ha).2
    · exact (mem_activePhases.mp hb).2
  have hnodup : (((activePhases phases).map fun item => (item.1.name, item.2)).map
      Prod.fst).Nodup := by
    rw [List.map_map, List.Nodup, List.pairwise_map]
    exact hdistinct
  rw [nameToIdx, Dict.ofList_eq_self hnodup, Dict.lookup_eq_some_iff hnodup]
  exact List.mem_map_of_mem (mem_activePhases.mpr ⟨hitem, hactive⟩)

theorem valuesAt_emptyResults (hphases : vns.derivePhases = some phases)
    (hitem : item ∈ phases.zipIdx) (hactive : ¬item.1.isIdle = true)
    (hv : vnid ∈ item.1.activeVnids) : valuesAt (emptyResults phases) item.2 vnid = some [] := by
  have hindices : (((activePhases phases).map fun item =>
      (item.2, Dict.ofList (item.1.activeVnids.map fun vnid => (vnid, ([] : List ℚ))))).map
        Prod.fst).Nodup := by
    rw [List.map_map]
    exact (nodup_indices phases).sublist (List.filter_sublist.map _)
  have hvnids : ((item.1.activeVnids.map fun vnid => (vnid, ([] : List ℚ))).map Prod.fst).Nodup := by
    rw [List.map_map]
    change (item.1.activeVnids.map id).Nodup
    rw [List.map_id]
    exact nodup_activeVnids hphases (List.fst_mem_of_mem_zipIdx hitem)
  have hlookup : (emptyResults phases).lookup item.2 =
      some (item.1.activeVnids.map fun vnid => (vnid, [])) := by
    rw [emptyResults, Dict.ofList_eq_self hindices, Dict.lookup_eq_some_iff hindices,
      ← Dict.ofList_eq_self hvnids]
    exact List.mem_map_of_mem (mem_activePhases.mpr ⟨hitem, hactive⟩)
  rw [valuesAt, hlookup, Option.bind_some, Dict.lookup_eq_some_iff hvnids]
  exact List.mem_map_of_mem hv

theorem valuesOf_entries (hitem : item ∈ phases.zipIdx) (hactive : ¬item.1.isIdle = true)
    (hv : vnid ∈ item.1.activeVnids) :
    valuesOf item.2 (entries allResults phases vnid) =
      (allResults item.2 vnid).map fun sample => Decimal.rounded 4 sample.2 := by
  have hothers : ∀ items : List (Phase × ℕ), item.2 ∉ items.map Prod.snd →
      (items.flatMap (phaseEntries allResults vnid)).filter (fun entry => entry.1.2 = item.2) =
        [] := by
    intro items habsent
    refine List.filter_eq_nil_iff.mpr fun entry hentry heq => habsent ?_
    obtain ⟨other, hother, hmem⟩ := List.mem_flatMap.mp hentry
    obtain ⟨rfl, -⟩ := mem_phaseEntries hmem
    exact List.mem_map.mpr ⟨_, hother, of_decide_eq_true heq⟩
  have hown : (phaseEntries allResults vnid item).filter (fun entry => entry.1.2 = item.2) =
      (allResults item.2 vnid).map fun sample => (item, sample) := by
    rw [List.filter_eq_self.mpr fun entry hentry => by
        rw [(mem_phaseEntries hentry).1, decide_eq_true_eq],
      phaseEntries, if_neg (by rw [not_or, not_not]; exact ⟨hactive, hv⟩)]
  obtain ⟨front, back, hsplit⟩ := List.append_of_mem hitem
  have hnodup := nodup_indices phases
  rw [hsplit, List.map_append, List.map_cons, List.nodup_middle, List.nodup_cons,
    List.mem_append, not_or] at hnodup
  rw [valuesOf, entries, hsplit, List.flatMap_append, List.flatMap_cons, List.filter_append,
    List.filter_append, hothers front hnodup.1.1, hothers back hnodup.1.2, hown,
    List.nil_append, List.append_nil, List.map_map]
  rfl

end Phases

/-! ## All files -/

section Files

variable {vns : Vns} {phases : List Phase} {items : List (ℕ × VnEntry)} {files : Files}
variable {allResults : ℕ → ℕ → List (ℚ × ℚ)} {results : Results}

theorem throughputPath_injective : Function.Injective throughputPath := by
  intro v v' heq
  unfold throughputPath at heq
  rw [List.append_left_inj, List.append_right_inj] at heq
  exact ofNat_injective heq

/-- What the file of a VN holds after the run. -/
def written (allResults : ℕ → ℕ → List (ℚ × ℚ)) (phases : List Phase) (vnid : ℕ) :
    List Char :=
  fileOf ((entries allResults phases vnid).map (rowOf vnid))

theorem foldlM_writeVn (allResults : ℕ → ℕ → List (ℚ × ℚ))
    (hactive : ∀ ph ∈ phases, ph.activeVnids = ph.flowMap.map Prod.fst)
    (items : List (ℕ × VnEntry)) (files : Files) :
    ∃ files', items.foldlM (writeVn allResults phases) files = some files' ∧
      ∀ v, files' (throughputPath v) =
        if v ∈ items.map Prod.fst then some (written allResults phases v)
        else files (throughputPath v) := by
  induction items generalizing files with
  | nil => exact ⟨files, rfl, fun v => by simp⟩
  | cons item items ih =>
      obtain ⟨files', hfold, hfiles⟩ := ih (Function.update files (throughputPath item.1)
        (some (written allResults phases item.1)))
      refine ⟨files', ?_, fun v => ?_⟩
      · rw [List.foldlM_cons, writeVn, throughputText_eq hactive, Option.map_some,
          Option.bind_eq_bind, Option.bind_some]
        exact hfold
      · rw [hfiles]
        by_cases hv : v = item.1
        · subst v
          rw [Function.update_self, ite_self, List.map_cons, if_pos List.mem_cons_self]
        · rw [Function.update_of_ne (throughputPath_injective.ne hv)]
          simp only [List.map_cons, List.mem_cons, hv, false_or]

theorem loadFile_written (hphases : vns.derivePhases = some phases)
    (hwindows : validatePhases phases = none) {vnid : ℕ}
    (hvalues : ∀ entry ∈ entries allResults phases vnid,
      (valuesAt results entry.1.2 vnid).isSome = true) :
    ∃ results', loadFile (nameToIdx phases) vnid results (written allResults phases vnid) =
        some results' ∧
      Extended results results' fun idx vnid' =>
        if vnid' = vnid then valuesOf idx (entries allResults phases vnid) else [] := by
  have hrows : ∀ row ∈ (entries allResults phases vnid).map (rowOf vnid),
      row.length = fieldNames.length ∧ ∀ field ∈ row, FieldText field := by
    intro row hrow
    obtain ⟨entry, hentry, rfl⟩ := List.mem_map.mp hrow
    have hph := List.fst_mem_of_mem_zipIdx (mem_entries hentry).1
    refine ⟨rfl, fun field hfield => ?_⟩
    rw [rowOf, name_of_mem hphases hph] at hfield
    exact fieldText_of_mem_row hfield
  have hnames : ∀ entry ∈ entries allResults phases vnid,
      (nameToIdx phases).lookup entry.1.1.name = some entry.1.2 := by
    intro entry hentry
    obtain ⟨hitem, hactive, -⟩ := mem_entries hentry
    exact lookup_nameToIdx hphases hwindows hitem hactive
  rw [written, loadFile_fileOf hrows, List.foldlM_map]
  exact foldlM_addRow hnames hvalues

theorem foldlM_loadVn (hphases : vns.derivePhases = some phases)
    (hwindows : validatePhases phases = none) (hnodup : (items.map Prod.fst).Nodup)
    (hfiles : ∀ item ∈ items,
      files (throughputPath item.1) = some (written allResults phases item.1))
    (hvalues : ∀ item ∈ items, ∀ entry ∈ entries allResults phases item.1,
      (valuesAt results entry.1.2 item.1).isSome = true) :
    ∃ results', items.foldlM (loadVn phases files) results = some results' ∧
      Extended results results' fun idx v =>
        if v ∈ items.map Prod.fst then valuesOf idx (entries allResults phases v) else [] := by
  induction items generalizing results with
  | nil =>
      refine ⟨results, rfl, ?_⟩
      simpa using Extended.refl results
  | cons item items ih =>
      rw [List.forall_mem_cons] at hfiles hvalues
      rw [List.map_cons, List.nodup_cons] at hnodup
      obtain ⟨results₁, hload, hfirst⟩ := loadFile_written hphases hwindows hvalues.1
      have hkept : ∀ later ∈ items, ∀ entry ∈ entries allResults phases later.1,
          (valuesAt results₁ entry.1.2 later.1).isSome = true := by
        intro later hlater entry hentry
        rw [hfirst.isSome_iff]
        exact hvalues.2 later hlater entry hentry
      obtain ⟨results', hfold, hlater⟩ := ih hnodup.2 hfiles.2 hkept
      refine ⟨results', ?_, ?_⟩
      · have hstep : loadVn phases files results item = some results₁ := by
          rw [loadVn, hfiles.1]
          exact hload
        rw [List.foldlM_cons, hstep, Option.bind_eq_bind, Option.bind_some, hfold]
      · have hboth := hfirst.trans hlater
        intro idx v
        rw [hboth]
        congr 2
        funext values
        congr 1
        by_cases hv : v = item.1
        · subst v
          simp only [List.map_cons, List.mem_cons_self, if_true, hnodup.1, if_false,
            List.append_nil]
        · simp only [List.map_cons, List.mem_cons, hv, if_false, false_or, List.nil_append]

end Files

/-- The samples written for a phase and a VN are read back in their order, rounded to the
decimals of the file, and nothing else is read for them. -/
theorem loadCsvResults_writeCsv {vns : Vns} {phases : List Phase}
    (hphases : vns.derivePhases = some phases) (hwindows : validatePhases phases = none)
    (allResults : ℕ → ℕ → List (ℚ × ℚ)) (files : Files) :
    ∃ files' results, vns.writeCsv allResults phases files = some files' ∧
      vns.loadCsvResults phases files' = some results ∧
      ∀ idx ph, phases[idx]? = some ph → ¬ph.isIdle = true → ∀ v ∈ ph.activeVnids,
        (results.lookup idx).bind (fun result => result.lookup v) =
          some ((allResults idx v).map fun sample => Decimal.rounded 4 sample.2) := by
  have hactive : ∀ ph ∈ phases, ph.activeVnids = ph.flowMap.map Prod.fst :=
    fun ph hph => activeVnids_eq hphases hph
  obtain ⟨files', hwrite, hfiles⟩ :=
    foldlM_writeVn allResults hactive vns.items files
  have hwritten : ∀ item ∈ vns.items,
      files' (throughputPath item.1) = some (written allResults phases item.1) := by
    intro item hitem
    rw [hfiles, if_pos (List.mem_map_of_mem hitem)]
  have hempty : ∀ item ∈ vns.items, ∀ entry ∈ entries allResults phases item.1,
      (valuesAt (emptyResults phases) entry.1.2 item.1).isSome = true := by
    intro item _ entry hentry
    obtain ⟨hmem, hidle, hv⟩ := mem_entries hentry
    rw [valuesAt_emptyResults hphases hmem hidle hv, Option.isSome_some]
  obtain ⟨results, hload, hextended⟩ :=
    foldlM_loadVn hphases hwindows vns.nodup hwritten hempty
  refine ⟨files', results, hwrite, hload, fun idx ph hph hidle v hv => ?_⟩
  have hitem : (ph, idx) ∈ phases.zipIdx := List.mk_mem_zipIdx_iff_getElem?.mpr hph
  have hvn := mem_items_of_active hphases (List.fst_mem_of_mem_zipIdx hitem) hv
  have hvalues := hextended idx v
  simp only [valuesAt_emptyResults hphases hitem hidle hv, Option.map_some, List.nil_append,
    if_pos hvn, valuesOf_entries hitem hidle hv] at hvalues
  exact hvalues

/-- Between the sessions of VN 1 there are two idle phases of one name, which an empty
session of VN 2 separates. -/
def idleTwice : Vns where
  items :=
    [(1, ⟨some [⟨0, 10, .udp, some "1M".toList, none⟩, ⟨51 / 5, 41 / 2, .tcp, none, none⟩]⟩),
      (2, ⟨some [⟨101 / 10, 101 / 10, .tcp, none, none⟩]⟩)]
  nodup := by decide

theorem loadCsvResults_writeCsv_idleTwice :
    ∃ phases files results, idleTwice.derivePhases = some phases ∧
      phases.map Phase.isIdle = [false, true, true, false] ∧
      idleTwice.writeCsv (fun idx v => [(idx, v + 1 / 3)]) phases (fun _ => none) = some files ∧
      idleTwice.loadCsvResults phases files = some results ∧
      (results.lookup 3).bind (fun result => result.lookup 1) = some [13333 / 10000] := by
  have heval : (idleTwice.derivePhases.map fun phases =>
      (phases.map Phase.isIdle, validatePhases phases,
        phases[3]?.map fun ph => (ph.isIdle, ph.activeVnids))) =
      some ([false, true, true, false], none, some (false, [1])) := by
    decide +kernel
  obtain ⟨phases, hphases, heq⟩ := Option.map_eq_some_iff.mp heval
  rw [Prod.mk.injEq, Prod.mk.injEq] at heq
  obtain ⟨hidle, hwindows, hlast⟩ := heq
  obtain ⟨ph, hph, heq⟩ := Option.map_eq_some_iff.mp hlast
  rw [Prod.mk.injEq] at heq
  obtain ⟨files, results, hwrite, hload, hvalues⟩ := loadCsvResults_writeCsv hphases hwindows
    (fun idx v => [((idx : ℚ), (v : ℚ) + 1 / 3)]) (fun _ => none)
  have hread := hvalues 3 ph hph (by rw [heq.1]; exact Bool.false_ne_true) 1 (by rw [heq.2]; simp)
  have hrounded : Decimal.rounded 4 (((1 : ℕ) : ℚ) + 1 / 3) = 13333 / 10000 := by
    decide +kernel
  refine ⟨phases, files, results, hphases, hidle, hwrite, hload, ?_⟩
  rw [hread, List.map_singleton, hrounded]

end RunTest

end Cmcs
