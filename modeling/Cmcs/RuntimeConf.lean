import Cmcs.ForwardingPipeline
import Cmcs.SimpleController
import Mathlib.Tactic

/-!
# From the runtime configuration to the tables

What a runtime configuration for `color_markers.p4` says, and that the switch which has
been programmed with it does what it says, in whatever order the entries are written.

The compiler's description of the program and the switch are parameters.  The switch is
known by what its tables hold after a call which it accepts.
-/

namespace Cmcs

namespace ControlPlane

open HexBytes DataPlane

/-! ## Words as bytes -/

theorem length_lastBytes (k n : ℕ) : (lastBytes k n).length = k := by
  simp [lastBytes]

theorem value_lastBytes (k n : ℕ) : value (lastBytes k n) = n % 256 ^ k := by
  induction k with
  | zero => simp [lastBytes, value, number, Nat.mod_one]
  | succ k ih =>
      have hsucc : lastBytes (k + 1) n = BitVec.ofNat 8 (n / 256 ^ k) :: lastBytes k n := by
        rw [lastBytes, List.range_succ, List.reverse_append]
        rfl
      have hmod : n % 256 ^ (k + 1) = n % 256 ^ k + 256 ^ k * (n / 256 ^ k % 256) := by
        rw [pow_succ, Nat.mod_mul]
      rw [hsucc, value_cons, length_lastBytes, ih, BitVec.toNat_ofNat, hmod, add_comm]

/-- The bytes of a word, the most significant first. -/
def wordBytes {w : ℕ} (x : BitVec w) : Bytes := lastBytes (bitwidthToBytes w) x.toNat

def word (w : ℕ) (bytes : Bytes) : BitVec w := BitVec.ofNat w (value bytes)

theorem length_wordBytes {w : ℕ} (x : BitVec w) : (wordBytes x).length = bitwidthToBytes w :=
  length_lastBytes _ _

theorem value_wordBytes {w : ℕ} (x : BitVec w) : value (wordBytes x) = x.toNat := by
  rw [wordBytes, value_lastBytes]
  exact Nat.mod_eq_of_lt (lt_of_lt_of_le x.isLt (two_pow_le w))

@[simp] theorem word_wordBytes {w : ℕ} (x : BitVec w) : word w (wordBytes x) = x := by
  rw [word, value_wordBytes, BitVec.ofNat_toNat, BitVec.setWidth_eq]

theorem encodeNum_toNat {w : ℕ} (hw : 0 < w) (x : BitVec w) :
    encodeNum x.toNat w = .ok (wordBytes x) := by
  refine (encodeNum_eq_ok hw).mpr ⟨⟨?_, ?_⟩, length_wordBytes x, ?_⟩
  · exact le_trans (neg_nonpos.mpr (by positivity)) (Int.natCast_nonneg _)
  · exact_mod_cast x.isLt
  · rw [value_wordBytes]
    exact (Int.emod_eq_of_lt (Int.natCast_nonneg _) (by exact_mod_cast x.isLt)).symm

theorem encodeNum_toInt {w : ℕ} (hw : 0 < w) (x : BitVec w) :
    encodeNum x.toInt w = .ok (wordBytes x) := by
  refine (encodeNum_eq_ok hw).mpr ⟨⟨BitVec.le_toInt x, ?_⟩, length_wordBytes x, ?_⟩
  · refine lt_of_lt_of_le BitVec.toInt_lt ?_
    exact pow_le_pow_right₀ (by decide) (Nat.sub_le w 1)
  · have hmod : (x.toNat : ℤ) % 2 ^ w = x.toNat :=
      Int.emod_eq_of_lt (Int.natCast_nonneg _) (by exact_mod_cast x.isLt)
    have hbmod : Int.bmod x.toNat (2 ^ w) % (2 ^ w : ℕ) = x.toNat % (2 ^ w : ℕ) := Int.bmod_emod
    push_cast at hbmod
    rw [value_wordBytes, BitVec.toInt_eq_toNat_bmod, hbmod, hmod]

/-! ## The configuration -/

/-- The entries of a configuration for the two tables. -/
inductive ConfEntry
  | default (action : Forwarding)
  | route (entry : MatchTable.LpmEntry 32 Forwarding)
  | classify (srcAddr dstAddr : BitVec 32) (vnId : BitVec 8) (guaranteedBandwidth : BitVec 48)

/-- A quoted name. -/
def quoted (name : String) : Json := .str name.toList

def ipv4Address (x : BitVec 32) : Json := .str (inetNtoa (wordBytes x))

def macAddress (x : BitVec 48) : Json := .str (macText (wordBytes x))

def actionName : Forwarding → String
  | .ipv4Forward _ _ => "MyIngress.ipv4_forward"
  | .drop => "MyIngress.drop"
  | .noAction => "NoAction"

def actionParams : Forwarding → List (List Char × Json)
  | .ipv4Forward dstAddr port =>
      [("dstAddr".toList, macAddress dstAddr), ("port".toList, .int port.toNat)]
  | _ => []

/-- An entry of `table_entries`. -/
def entryJson (table : String) (key : List (List Char × Json)) (action : String)
    (params : List (List Char × Json)) : Json :=
  .dict (("table".toList, quoted table) :: key ++
    [("action_name".toList, quoted action), ("action_params".toList, .dict params)])

def matchKey (fields : List (List Char × Json)) : List (List Char × Json) :=
  [("match".toList, .dict fields)]

def ConfEntry.toJson : ConfEntry → Json
  | .default action =>
      entryJson "MyIngress.ipv4_lpm" [("default_action".toList, .bool true)] (actionName action)
        (actionParams action)
  | .route entry =>
      entryJson "MyIngress.ipv4_lpm"
        (matchKey [("hdr.ipv4.dstAddr".toList,
          .list [ipv4Address entry.value, .int entry.prefixLen])])
        (actionName entry.action) (actionParams entry.action)
  | .classify srcAddr dstAddr vnId guaranteedBandwidth =>
      entryJson "MyIngress.vn_classifier"
        (matchKey [("hdr.ipv4.srcAddr".toList, .list [ipv4Address srcAddr]),
          ("hdr.ipv4.dstAddr".toList, .list [ipv4Address dstAddr])])
        "MyIngress.set_vn_params"
        [("vn_id_param".toList, .int vnId.toNat),
          ("guaranteed_bandwidth_param".toList, .int guaranteedBandwidth.toInt)]

/-- The document of a configuration. -/
def confJson (p4infoFile bmv2JsonFile : List Char) (conf : List ConfEntry) : Json :=
  .dict [("target".toList, quoted "bmv2"), ("p4info".toList, .str p4infoFile),
    ("bmv2_json".toList, .str bmv2JsonFile),
    ("table_entries".toList, .list (conf.map ConfEntry.toJson))]

/-! ## The messages -/

/-- The numbers which the compiler has given to the parts of the program. -/
structure Layout where
  ipv4Lpm : ℕ
  lpmDstAddr : ℕ
  vnClassifier : ℕ
  vnSrcAddr : ℕ
  vnDstAddr : ℕ
  ipv4Forward : ℕ
  forwardDstAddr : ℕ
  forwardPort : ℕ
  drop : ℕ
  noAction : ℕ
  setVnParams : ℕ
  vnIdParam : ℕ
  guaranteedBandwidthParam : ℕ

/-- The description of `color_markers.p4` with these numbers. -/
structure Layout.Describes (l : Layout) (p4info : P4Info) : Prop where
  unambiguous : p4info.Unambiguous
  lpmTable : ∃ a, (⟨⟨l.ipv4Lpm, "MyIngress.ipv4_lpm".toList, a⟩,
    [⟨l.lpmDstAddr, "hdr.ipv4.dstAddr".toList, 32, .lpm⟩]⟩ : TableInfo) ∈ p4info.tables
  vnTable : ∃ a, (⟨⟨l.vnClassifier, "MyIngress.vn_classifier".toList, a⟩,
    [⟨l.vnSrcAddr, "hdr.ipv4.srcAddr".toList, 32, .exact⟩,
      ⟨l.vnDstAddr, "hdr.ipv4.dstAddr".toList, 32, .exact⟩]⟩ : TableInfo) ∈ p4info.tables
  forwardAction : ∃ a, (⟨⟨l.ipv4Forward, "MyIngress.ipv4_forward".toList, a⟩,
    [⟨l.forwardDstAddr, "dstAddr".toList, 48⟩, ⟨l.forwardPort, "port".toList, 9⟩]⟩ : ActionInfo) ∈
      p4info.actions
  dropAction : ∃ a, (⟨⟨l.drop, "MyIngress.drop".toList, a⟩, []⟩ : ActionInfo) ∈ p4info.actions
  noActionAction : ∃ a, (⟨⟨l.noAction, "NoAction".toList, a⟩, []⟩ : ActionInfo) ∈ p4info.actions
  vnAction : ∃ a, (⟨⟨l.setVnParams, "MyIngress.set_vn_params".toList, a⟩,
    [⟨l.vnIdParam, "vn_id_param".toList, 8⟩,
      ⟨l.guaranteedBandwidthParam, "guaranteed_bandwidth_param".toList, 48⟩]⟩ : ActionInfo) ∈
      p4info.actions

/-- Numbers of one kind are distinct. -/
structure Layout.Distinct (l : Layout) : Prop where
  tables : l.ipv4Lpm ≠ l.vnClassifier
  fields : l.vnSrcAddr ≠ l.vnDstAddr
  actions : [l.ipv4Forward, l.drop, l.noAction, l.setVnParams].Nodup
  forwardParams : l.forwardDstAddr ≠ l.forwardPort
  vnParams : l.vnIdParam ≠ l.guaranteedBandwidthParam

namespace Layout

variable (l : Layout)

def forwardingMessage : Forwarding → TableAction
  | .ipv4Forward dstAddr port =>
      ⟨l.ipv4Forward, [⟨l.forwardDstAddr, wordBytes dstAddr⟩, ⟨l.forwardPort, wordBytes port⟩]⟩
  | .drop => ⟨l.drop, []⟩
  | .noAction => ⟨l.noAction, []⟩

def message : ConfEntry → TableEntry
  | .default action => ⟨l.ipv4Lpm, [], some (l.forwardingMessage action), true, 0⟩
  | .route entry =>
      ⟨l.ipv4Lpm, [⟨l.lpmDstAddr, .lpm (wordBytes entry.value) entry.prefixLen⟩],
        some (l.forwardingMessage entry.action), false, 0⟩
  | .classify srcAddr dstAddr vnId guaranteedBandwidth =>
      ⟨l.vnClassifier, [⟨l.vnSrcAddr, .exact (wordBytes srcAddr)⟩,
        ⟨l.vnDstAddr, .exact (wordBytes dstAddr)⟩],
        some ⟨l.setVnParams, [⟨l.vnIdParam, wordBytes vnId⟩,
          ⟨l.guaranteedBandwidthParam, wordBytes guaranteedBandwidth⟩]⟩, false, 0⟩

end Layout

/-! ## Looking up the description -/

theorem getPreamble_of_mem {α : Type} {preamble : α → Preamble} {objects : List α}
    (hunambiguous : Preamble.Unambiguous preamble objects) {x : α} (hx : x ∈ objects)
    {name : String} (hname : (preamble x).name = name.toList) (hne : name ≠ "")
    (entityType : String) :
    getPreamble entityType (objects.map preamble) (quoted name) = .ok (preamble x) := by
  have htext : (quoted name).isText (preamble x).name = true :=
    isText_eq_true.mpr (congrArg Json.str hname.symm)
  cases hfind : (objects.map preamble).find? fun pre => pre.isCalled (quoted name) with
  | none =>
      have hmiss := List.find?_eq_none.mp hfind _ (List.mem_map_of_mem hx)
      exact absurd (by simp [Preamble.isCalled, htext]) hmiss
  | some pre =>
      obtain ⟨y, hy, rfl⟩ := List.mem_map.mp (List.mem_of_find?_eq_some hfind)
      have hcalled : (preamble y).isCalled (quoted name) = true := by
        simpa using List.find?_some hfind
      obtain rfl := eq_of_isCalled hunambiguous hy hx hcalled htext
      have htruthy : (quoted name).truthy = true := by simpa [quoted, Json.truthy] using hne
      rw [getPreamble, htruthy, hfind]

/-- Looking through the parts of the objects with a name, which are all the same. -/
theorem find?_flatMap_of_mem {α β : Type} {objects : List α} {parts : α → List β} {p : α → Bool}
    {q : β → Bool} {x : α} {b : β} (hx : x ∈ objects) (hpx : p x = true)
    (hsame : ∀ y ∈ objects, p y = true → y = x) (hfind : (parts x).find? q = some b) :
    ((objects.filter p).flatMap parts).find? q = some b := by
  have hmem : x ∈ objects.filter p := List.mem_filter.mpr ⟨hx, hpx⟩
  cases hfilter : objects.filter p with
  | nil => simp [hfilter] at hmem
  | cons y rest =>
      have hy : y ∈ objects.filter p := by simp [hfilter]
      obtain ⟨hy, hpy⟩ := List.mem_filter.mp hy
      obtain rfl := hsame y hy hpy
      rw [List.flatMap_cons, List.find?_append, hfind, Option.some_or]

theorem getMatchField_of_mem {p4info : P4Info} (hunambiguous : p4info.Unambiguous) {t : TableInfo}
    (ht : t ∈ p4info.tables) {tableName : String} (hname : t.preamble.name = tableName.toList)
    {name : List Char} {mf : MatchField}
    (hfind : t.matchFields.find? (fun mf => mf.name = name) = some mf) :
    p4info.getMatchField (quoted tableName) name = .ok mf := by
  have hfound : (p4info.matchFieldsOf (quoted tableName)).find? (fun mf => mf.name = name) =
      some mf := by
    refine find?_flatMap_of_mem ht (isText_eq_true.mpr (congrArg Json.str hname.symm))
      (fun y hy hyname => ?_) hfind
    have hy' := Json.str.inj (isText_eq_true.mp hyname)
    exact hunambiguous.tables y hy t ht (Or.inl (hy'.symm.trans hname.symm))
  rw [P4Info.getMatchField, hfound]

theorem getActionParam_of_mem {p4info : P4Info} (hunambiguous : p4info.Unambiguous)
    {a : ActionInfo} (ha : a ∈ p4info.actions) {actionName : String}
    (hname : a.preamble.name = actionName.toList) {name : List Char} {param : Param}
    (hfind : a.params.find? (fun p => p.name = name) = some param) :
    p4info.getActionParam (quoted actionName) name = .ok param := by
  have hfound : (p4info.paramsOf (quoted actionName)).find? (fun p => p.name = name) =
      some param := by
    refine find?_flatMap_of_mem ha (isText_eq_true.mpr (congrArg Json.str hname.symm))
      (fun y hy hyname => ?_) hfind
    have hy' := Json.str.inj (isText_eq_true.mp hyname)
    exact hunambiguous.actions y hy a ha (Or.inl (hy'.symm.trans hname.symm))
  rw [P4Info.getActionParam, hfound]

/-! ## From the entries to the messages -/

theorem encodeField_of_encode {x : Json} {bitwidth : ℕ} {bytes : Bytes}
    (hencode : encode x bitwidth = .ok (.bytes bytes)) : encodeField x bitwidth = .ok bytes := by
  rw [encodeField, hencode]
  rfl

theorem encodeField_ipv4Address (x : BitVec 32) :
    encodeField (ipv4Address x) 32 = .ok (wordBytes x) :=
  encodeField_of_encode
    (encode_str rfl (encodeStr_inetNtoa (length_wordBytes x)) (length_wordBytes x))

theorem encodeField_singleton (x : BitVec 32) :
    encodeField (.list [ipv4Address x]) 32 = .ok (wordBytes x) :=
  encodeField_of_encode
    (encode_str rfl (encodeStr_inetNtoa (length_wordBytes x)) (length_wordBytes x))

theorem encodeField_macAddress (x : BitVec 48) :
    encodeField (macAddress x) 48 = .ok (wordBytes x) :=
  encodeField_of_encode
    (encode_str rfl (encodeStr_macText (length_wordBytes x)) (length_wordBytes x))

theorem encodeField_toNat {w : ℕ} (hw : 0 < w) (x : BitVec w) :
    encodeField (.int x.toNat) w = .ok (wordBytes x) :=
  encodeField_of_encode (encode_int rfl (encodeNum_toNat hw x) (length_wordBytes x))

theorem encodeField_toInt {w : ℕ} (hw : 0 < w) (x : BitVec w) :
    encodeField (.int x.toInt) w = .ok (wordBytes x) :=
  encodeField_of_encode (encode_int rfl (encodeNum_toInt hw x) (length_wordBytes x))

theorem getActionParamPb_of_mem {p4info : P4Info} (hunambiguous : p4info.Unambiguous)
    {a : ActionInfo} (ha : a ∈ p4info.actions) {actionName : String}
    (hname : a.preamble.name = actionName.toList) {name : List Char} (param : Param)
    (hfind : a.params.find? (fun p => p.name = name) = some param) {x : Json} {bytes : Bytes}
    (hvalue : encodeField x param.bitwidth = .ok bytes) :
    p4info.getActionParamPb (quoted actionName) (name, x) = .ok ⟨param.id, bytes⟩ := by
  rw [P4Info.getActionParamPb, getActionParam_of_mem hunambiguous ha hname hfind]
  simp only [PyError.bind_eq_ok]
  exact ⟨param, rfl, bytes, hvalue, rfl⟩

theorem getMatchFieldPb_of_mem {p4info : P4Info} (hunambiguous : p4info.Unambiguous)
    {t : TableInfo} (ht : t ∈ p4info.tables) {tableName : String}
    (hname : t.preamble.name = tableName.toList) {name : List Char} (mf : MatchField)
    (hfind : t.matchFields.find? (fun mf => mf.name = name) = some mf) {x : Json}
    {fmt : FieldMatchType} (hvalue : matchValue mf x = .ok fmt) :
    p4info.getMatchFieldPb (quoted tableName) (name, x) = .ok ⟨mf.id, fmt⟩ := by
  rw [P4Info.getMatchFieldPb, getMatchField_of_mem hunambiguous ht hname hfind]
  simp only [PyError.bind_eq_ok]
  exact ⟨mf, rfl, fmt, hvalue, rfl⟩

theorem checkPriority_of_mem {p4info : P4Info} (hunambiguous : p4info.Unambiguous)
    {t : TableInfo} (ht : t ∈ p4info.tables) {tableName : String}
    (hname : t.preamble.name = tableName.toList) {name : List Char} (mf : MatchField)
    (hfind : t.matchFields.find? (fun mf => mf.name = name) = some mf)
    (hmatch : mf.matchType ∉ matchTypesWithPriority) (runtimeJson : List Char) (x : Json) :
    p4info.checkPriority (quoted tableName) runtimeJson (name, x) = .ok () := by
  rw [P4Info.checkPriority, getMatchField_of_mem hunambiguous ht hname hfind,
    PyError.bind_eq_ok]
  exact ⟨mf, rfl, if_neg hmatch⟩

variable {l : Layout} {p4info : P4Info} {runtimeJson : List Char}

theorem getTablesId_of_mem (hunambiguous : p4info.Unambiguous) {t : TableInfo}
    (ht : t ∈ p4info.tables) {name : String} (hname : t.preamble.name = name.toList)
    (hne : name ≠ "") : p4info.getTablesId (quoted name) = .ok t.preamble.id := by
  rw [P4Info.getTablesId, getPreamble_of_mem hunambiguous.tables ht hname hne]
  rfl

theorem buildAction_of_mem (hunambiguous : p4info.Unambiguous) {a : ActionInfo}
    (ha : a ∈ p4info.actions) {name : String} (hname : a.preamble.name = name.toList)
    (hne : name ≠ "") {items : List (List Char × Json)} {params : List ActionParam}
    (hparams : List.Forall₂ (fun item p => p4info.getActionParamPb (quoted name) item = .ok p)
      items params) :
    p4info.buildAction (quoted name) (.dict items) = .ok (some ⟨a.preamble.id, params⟩) := by
  have htruthy : (quoted name).truthy = true := by simpa [quoted, Json.truthy] using hne
  have hbuild : p4info.buildParams (quoted name) (.dict items) = .ok params := by
    cases hparams with
    | nil => rfl
    | cons hfirst hrest =>
        rw [P4Info.buildParams, if_pos (by simp [Json.truthy])]
        exact PyError.mapM_eq_ok.mpr (List.Forall₂.cons hfirst hrest)
  rw [P4Info.buildAction, if_pos htruthy, P4Info.getActionsId,
    getPreamble_of_mem hunambiguous.actions ha hname hne]
  simp only [PyError.bind_eq_ok]
  exact ⟨a.preamble.id, ⟨_, rfl, rfl⟩, params, hbuild, rfl⟩

theorem buildAction_forwarding (hdescribes : l.Describes p4info) (action : Forwarding) :
    p4info.buildAction (quoted (actionName action)) (.dict (actionParams action)) =
      .ok (some (l.forwardingMessage action)) := by
  cases action with
  | ipv4Forward dstAddr port =>
      obtain ⟨a, ha⟩ := hdescribes.forwardAction
      refine buildAction_of_mem hdescribes.unambiguous ha rfl (by decide) ?_
      exact .cons (getActionParamPb_of_mem hdescribes.unambiguous ha rfl
          ⟨l.forwardDstAddr, "dstAddr".toList, 48⟩ (by rfl) (encodeField_macAddress dstAddr))
        (.cons (getActionParamPb_of_mem hdescribes.unambiguous ha rfl
          ⟨l.forwardPort, "port".toList, 9⟩ (by rfl) (encodeField_toNat (by decide) port)) .nil)
  | drop =>
      obtain ⟨a, ha⟩ := hdescribes.dropAction
      exact buildAction_of_mem hdescribes.unambiguous ha rfl (by decide) .nil
  | noAction =>
      obtain ⟨a, ha⟩ := hdescribes.noActionAction
      exact buildAction_of_mem hdescribes.unambiguous ha rfl (by decide) .nil

section Entry

variable (table action : String) (fields params : List (List Char × Json))

/-- An entry with a key, and one for the default action. -/
def keyed : Json := entryJson table (matchKey fields) action params

def defaulted : Json := entryJson table [("default_action".toList, .bool true)] action params

theorem tableEntryToString_keyed : tableEntryToString (keyed table action fields params) = .ok () :=
  rfl

theorem tableEntryToString_defaulted :
    tableEntryToString (defaulted table action params) = .ok () := rfl

theorem validateTableEntry_keyed (p4info : P4Info) (runtimeJson : List Char) :
    validateTableEntry (keyed table action fields params) p4info runtimeJson =
      fields.forM (p4info.checkPriority (quoted table) runtimeJson) := rfl

theorem validateTableEntry_defaulted (p4info : P4Info) (runtimeJson : List Char) :
    validateTableEntry (defaulted table action params) p4info runtimeJson = .ok () := rfl

theorem insertTableEntry_keyed (p4info : P4Info) :
    insertTableEntry (keyed table action fields params) p4info =
      p4info.buildTableEntry (quoted table) (.dict fields) .null (quoted action) (.dict params)
        .null := rfl

theorem insertTableEntry_defaulted (p4info : P4Info) :
    insertTableEntry (defaulted table action params) p4info =
      p4info.buildTableEntry (quoted table) .null (.bool true) (quoted action) (.dict params)
        .null := rfl

variable {table action fields params}

theorem tableEntryOf_match {tableId : ℕ} {fms : List FieldMatch} {act : Option TableAction}
    (hne : fields ≠ []) (hid : p4info.getTablesId (quoted table) = .ok tableId)
    (hfields : List.Forall₂
      (fun item fm => p4info.getMatchFieldPb (quoted table) item = .ok fm) fields fms)
    (hpriority : ∀ item ∈ fields, p4info.checkPriority (quoted table) runtimeJson item = .ok ())
    (haction : p4info.buildAction (quoted action) (.dict params) = .ok act) :
    tableEntryOf p4info runtimeJson (keyed table action fields params) =
      .ok ⟨tableId, fms, act, false, 0⟩ := by
  have hbuild : p4info.buildMatch (quoted table) (.dict fields) = .ok fms := by
    rw [P4Info.buildMatch, if_pos (by simpa [Json.truthy] using hne)]
    exact PyError.mapM_eq_ok.mpr hfields
  rw [tableEntryOf, tableEntryToString_keyed, validateTableEntry_keyed, insertTableEntry_keyed,
    PyError.forM_eq_ok.mpr hpriority, P4Info.buildTableEntry, hid, hbuild, haction]
  rfl

theorem tableEntryOf_default {tableId : ℕ} {act : Option TableAction}
    (hid : p4info.getTablesId (quoted table) = .ok tableId)
    (haction : p4info.buildAction (quoted action) (.dict params) = .ok act) :
    tableEntryOf p4info runtimeJson (defaulted table action params) =
      .ok ⟨tableId, [], act, true, 0⟩ := by
  rw [tableEntryOf, tableEntryToString_defaulted, validateTableEntry_defaulted,
    insertTableEntry_defaulted, P4Info.buildTableEntry, hid, haction]
  rfl

end Entry

theorem matchValue_lpm {mf : MatchField} (hmf : mf.matchType = .lpm) (hwidth : mf.bitwidth = 32)
    (entry : MatchTable.LpmEntry 32 Forwarding) :
    matchValue mf (.list [ipv4Address entry.value, .int entry.prefixLen]) =
      .ok (.lpm (wordBytes entry.value) entry.prefixLen) := by
  have hrange : -2 ^ 31 ≤ (entry.prefixLen : ℤ) ∧ (entry.prefixLen : ℤ) < 2 ^ 31 := by
    have hle := entry.prefixLen_le
    omega
  rw [matchValue, hmf, hwidth]
  simp only [lpmValue, PyError.bind_eq_ok]
  exact ⟨_, rfl, _, encodeField_ipv4Address entry.value, _, rfl, _,
    PyError.bind_eq_ok.mpr ⟨_, rfl, if_pos hrange⟩, rfl⟩

theorem matchValue_exact {mf : MatchField} (hmf : mf.matchType = .exact)
    (hwidth : mf.bitwidth = 32) (x : BitVec 32) :
    matchValue mf (.list [ipv4Address x]) = .ok (.exact (wordBytes x)) := by
  rw [matchValue, hmf, hwidth]
  simp only [encodeField_singleton]
  rfl

/-- No entry of such a configuration raises, and its message says what it says. -/
theorem tableEntryOf_toJson (hdescribes : l.Describes p4info) (runtimeJson : List Char)
    (entry : ConfEntry) :
    tableEntryOf p4info runtimeJson entry.toJson = .ok (l.message entry) := by
  have hunambiguous := hdescribes.unambiguous
  cases entry with
  | default action =>
      obtain ⟨a, ht⟩ := hdescribes.lpmTable
      exact tableEntryOf_default (getTablesId_of_mem hunambiguous ht rfl (by decide))
        (buildAction_forwarding hdescribes action)
  | route entry =>
      obtain ⟨a, ht⟩ := hdescribes.lpmTable
      let key : MatchField := ⟨l.lpmDstAddr, "hdr.ipv4.dstAddr".toList, 32, .lpm⟩
      refine tableEntryOf_match (by simp) (getTablesId_of_mem hunambiguous ht rfl (by decide)) ?_ ?_
        (buildAction_forwarding hdescribes entry.action)
      · exact .cons (getMatchFieldPb_of_mem hunambiguous ht rfl key (by rfl)
          (matchValue_lpm rfl rfl entry)) .nil
      · intro item hitem
        rw [List.mem_singleton] at hitem
        subst hitem
        exact checkPriority_of_mem hunambiguous ht rfl key (by rfl)
          (by simp [key, matchTypesWithPriority]) runtimeJson _
  | classify srcAddr dstAddr vnId guaranteedBandwidth =>
      obtain ⟨a, ht⟩ := hdescribes.vnTable
      obtain ⟨a', hact⟩ := hdescribes.vnAction
      let src : MatchField := ⟨l.vnSrcAddr, "hdr.ipv4.srcAddr".toList, 32, .exact⟩
      let dst : MatchField := ⟨l.vnDstAddr, "hdr.ipv4.dstAddr".toList, 32, .exact⟩
      refine tableEntryOf_match (by simp) (getTablesId_of_mem hunambiguous ht rfl (by decide)) ?_ ?_
        (buildAction_of_mem hunambiguous hact rfl (by decide) ?_)
      · exact .cons (getMatchFieldPb_of_mem hunambiguous ht rfl src (by rfl)
            (matchValue_exact rfl rfl srcAddr))
          (.cons (getMatchFieldPb_of_mem hunambiguous ht rfl dst (by rfl)
            (matchValue_exact rfl rfl dstAddr)) .nil)
      · intro item hitem
        rw [List.mem_cons, List.mem_singleton] at hitem
        rcases hitem with rfl | rfl
        · exact checkPriority_of_mem hunambiguous ht rfl src (by rfl)
            (by simp [src, matchTypesWithPriority]) runtimeJson _
        · exact checkPriority_of_mem hunambiguous ht rfl dst (by rfl)
            (by simp [dst, matchTypesWithPriority]) runtimeJson _
      · exact .cons (getActionParamPb_of_mem hunambiguous hact rfl
            ⟨l.vnIdParam, "vn_id_param".toList, 8⟩ (by rfl) (encodeField_toNat (by decide) vnId))
          (.cons (getActionParamPb_of_mem hunambiguous hact rfl
            ⟨l.guaranteedBandwidthParam, "guaranteed_bandwidth_param".toList, 48⟩ (by rfl)
            (encodeField_toInt (by decide) guaranteedBandwidth)) .nil)

/-! ## The switch -/

namespace Layout

/-- The value of a parameter. -/
def param (a : TableAction) (id : ℕ) : Option Bytes :=
  (a.params.find? fun p => p.paramId = id).map ActionParam.value

/-- What the action of a message is. -/
def forwardingOf (l : Layout) (a : TableAction) : Option Forwarding :=
  if a.actionId = l.ipv4Forward then do
    let dstAddr ← param a l.forwardDstAddr
    let port ← param a l.forwardPort
    some (.ipv4Forward (word 48 dstAddr) (word 9 port))
  else if a.actionId = l.drop then some .drop
  else if a.actionId = l.noAction then some .noAction
  else none

def vnActionOf (l : Layout) (a : TableAction) : Option MyIngress.VnAction :=
  if a.actionId = l.setVnParams then do
    let vnId ← param a l.vnIdParam
    let guaranteedBandwidth ← param a l.guaranteedBandwidthParam
    some (.setVnParams (word 8 vnId) (word 48 guaranteedBandwidth))
  else if a.actionId = l.noAction then some .noAction
  else none

/-- The prefix which a message matches. -/
def prefixOf (l : Layout) (e : TableEntry) : Option (Bytes × ℤ) :=
  match e.matchFields with
  | [⟨id, .lpm bytes prefixLen⟩] => if id = l.lpmDstAddr then some (bytes, prefixLen) else none
  | _ => none

def routeOf (l : Layout) (e : TableEntry) : Option (MatchTable.LpmEntry 32 Forwarding) := do
  let key ← l.prefixOf e
  let a ← e.action
  let action ← l.forwardingOf a
  if hlen : key.2.toNat ≤ 32 then some ⟨word 32 key.1, key.2.toNat, hlen, action⟩ else none

def exactValue (e : TableEntry) (id : ℕ) : Option Bytes :=
  match e.matchFields.find? fun fm => fm.fieldId = id with
  | some ⟨_, .exact bytes⟩ => some bytes
  | _ => none

def classOf (l : Layout) (e : TableEntry) :
    Option ((BitVec 32 × BitVec 32) × MyIngress.VnAction) := do
  let srcAddr ← exactValue e l.vnSrcAddr
  let dstAddr ← exactValue e l.vnDstAddr
  let a ← e.action
  let action ← l.vnActionOf a
  some ((word 32 srcAddr, word 32 dstAddr), action)

end Layout

/-- A switch with the program, by its tables.  A new pipeline has empty tables; an entry is
inserted if there is none with its key, and may be kept at any place; the default action
is replaced. -/
structure Switch (l : Layout) (σ : Type) where
  serve : σ → Call → Option σ
  tables : σ → Tables
  arbitration : ∀ {s s' deviceId high low},
    serve s (.masterArbitrationUpdate deviceId high low) = some s' → tables s' = tables s
  pipeline : ∀ {s s' deviceId low p4info file},
    serve s (.setForwardingPipelineConfig deviceId low p4info file) = some s' → tables s' = {}
  insertRoute : ∀ {s s' deviceId low e},
    serve s (.write ⟨deviceId, low, .insert, e⟩) = some s' → e.tableId = l.ipv4Lpm →
      ∃ route, l.routeOf e = some route ∧
        route.key ∉ (tables s).ipv4Lpm.map MatchTable.LpmEntry.key ∧
        (tables s').ipv4Lpm.Perm (route :: (tables s).ipv4Lpm) ∧
        (tables s').defaultAction = (tables s).defaultAction ∧
        (tables s').vnClassifier = (tables s).vnClassifier
  insertClass : ∀ {s s' deviceId low e},
    serve s (.write ⟨deviceId, low, .insert, e⟩) = some s' → e.tableId = l.vnClassifier →
      ∃ c, l.classOf e = some c ∧ c.1 ∉ (tables s).vnClassifier.map Prod.fst ∧
        (tables s').vnClassifier.Perm (c :: (tables s).vnClassifier) ∧
        (tables s').defaultAction = (tables s).defaultAction ∧
        (tables s').ipv4Lpm = (tables s).ipv4Lpm
  modifyDefault : ∀ {s s' deviceId low e},
    serve s (.write ⟨deviceId, low, .modify, e⟩) = some s' → e.tableId = l.ipv4Lpm →
      ∃ a action, e.action = some a ∧ l.forwardingOf a = some action ∧
        tables s' = { tables s with defaultAction := action }

/-! ## What the tables hold -/

def ConfEntry.routeOf : ConfEntry → Option (MatchTable.LpmEntry 32 Forwarding)
  | .route entry => some entry
  | _ => none

def ConfEntry.classOf : ConfEntry → Option ((BitVec 32 × BitVec 32) × MyIngress.VnAction)
  | .classify srcAddr dstAddr vnId guaranteedBandwidth =>
      some ((srcAddr, dstAddr), .setVnParams vnId guaranteedBandwidth)
  | _ => none

def ConfEntry.defaultAfter (entry : ConfEntry) (action : Forwarding) : Forwarding :=
  match entry with
  | .default action' => action'
  | _ => action

def routes (conf : List ConfEntry) : List (MatchTable.LpmEntry 32 Forwarding) :=
  conf.filterMap ConfEntry.routeOf

def classes (conf : List ConfEntry) : List ((BitVec 32 × BitVec 32) × MyIngress.VnAction) :=
  conf.filterMap ConfEntry.classOf

/-- The last default action of the configuration, or that of the program. -/
def defaultAction (conf : List ConfEntry) : Forwarding :=
  conf.foldl (fun action entry => entry.defaultAfter action) .drop

theorem routes_append (conf : List ConfEntry) (entry : ConfEntry) :
    routes (conf ++ [entry]) = routes conf ++ entry.routeOf.toList := by
  rw [routes, List.filterMap_append, ← routes]
  cases entry <;> rfl

theorem classes_append (conf : List ConfEntry) (entry : ConfEntry) :
    classes (conf ++ [entry]) = classes conf ++ entry.classOf.toList := by
  rw [classes, List.filterMap_append, ← classes]
  cases entry <;> rfl

theorem defaultAction_append (conf : List ConfEntry) (entry : ConfEntry) :
    defaultAction (conf ++ [entry]) = entry.defaultAfter (defaultAction conf) := by
  rw [defaultAction, List.foldl_append]
  rfl

/-- The tables with the entries of a configuration. -/
structure Holds (conf : List ConfEntry) (t : Tables) : Prop where
  routes : t.ipv4Lpm.Perm (routes conf)
  routeKeys : (t.ipv4Lpm.map MatchTable.LpmEntry.key).Nodup
  defaultAction : t.defaultAction = defaultAction conf
  classes : t.vnClassifier.Perm (classes conf)
  classKeys : (t.vnClassifier.map Prod.fst).Nodup

theorem forwardingOf_message {l : Layout} (hl : l.Distinct) (action : Forwarding) :
    l.forwardingOf (l.forwardingMessage action) = some action := by
  have hactions := hl.actions
  simp only [List.nodup_cons, List.mem_cons, List.not_mem_nil, or_false, not_or] at hactions
  obtain ⟨⟨hdrop, hnoAction, -⟩, ⟨hdrop', -⟩, -⟩ := hactions
  cases action with
  | ipv4Forward dstAddr port =>
      simp [Layout.forwardingOf, Layout.forwardingMessage, Layout.param, hl.forwardParams]
  | drop => simp [Layout.forwardingOf, Layout.forwardingMessage, Ne.symm hdrop]
  | noAction =>
      simp [Layout.forwardingOf, Layout.forwardingMessage, Ne.symm hnoAction, Ne.symm hdrop']

theorem routeOf_message {l : Layout} (hl : l.Distinct)
    (entry : MatchTable.LpmEntry 32 Forwarding) :
    l.routeOf (l.message (.route entry)) = some entry := by
  have hlen := entry.prefixLen_le
  simp [Layout.routeOf, Layout.prefixOf, Layout.message, forwardingOf_message hl, hlen]

theorem classOf_message {l : Layout} (hl : l.Distinct) (srcAddr dstAddr : BitVec 32)
    (vnId : BitVec 8) (guaranteedBandwidth : BitVec 48) :
    l.classOf (l.message (.classify srcAddr dstAddr vnId guaranteedBandwidth)) =
      some ((srcAddr, dstAddr), .setVnParams vnId guaranteedBandwidth) := by
  simp [Layout.classOf, Layout.exactValue, Layout.message, Layout.vnActionOf, Layout.param,
    hl.fields, hl.vnParams]

variable {σ : Type} {sw : Switch l σ}

theorem Holds.write {conf : List ConfEntry} {entry : ConfEntry} {s s' : σ} {deviceId : ℕ}
    (hl : l.Distinct) (hholds : Holds conf (sw.tables s))
    (hserve : sw.serve s (writeTableEntry deviceId (l.message entry)) = some s') :
    Holds (conf ++ [entry]) (sw.tables s') := by
  cases entry with
  | default action =>
      obtain ⟨a, action', ha, haction, htables⟩ := sw.modifyDefault hserve rfl
      obtain rfl := Option.some.inj ha
      obtain rfl := Option.some.inj ((forwardingOf_message hl action).symm.trans haction)
      rw [htables]
      refine ⟨?_, hholds.routeKeys, ?_, ?_, hholds.classKeys⟩
      · rw [routes_append]
        simpa [ConfEntry.routeOf] using hholds.routes
      · rw [defaultAction_append]
        rfl
      · rw [classes_append]
        simpa [ConfEntry.classOf] using hholds.classes
  | route entry =>
      obtain ⟨route, hroute, hfresh, hperm, hdefault, hclasses⟩ := sw.insertRoute hserve rfl
      obtain rfl := Option.some.inj ((routeOf_message hl entry).symm.trans hroute)
      refine ⟨?_, ?_, ?_, ?_, by rw [hclasses]; exact hholds.classKeys⟩
      · rw [routes_append]
        exact (hperm.trans (hholds.routes.cons entry)).trans (List.perm_append_singleton _ _).symm
      · rw [(hperm.map _).nodup_iff, List.map_cons, List.nodup_cons]
        exact ⟨hfresh, hholds.routeKeys⟩
      · rw [hdefault, hholds.defaultAction, defaultAction_append]
        rfl
      · rw [hclasses, classes_append]
        simpa [ConfEntry.classOf] using hholds.classes
  | classify srcAddr dstAddr vnId guaranteedBandwidth =>
      obtain ⟨c, hc, hfresh, hperm, hdefault, hroutes⟩ := sw.insertClass hserve rfl
      obtain rfl := Option.some.inj
        ((classOf_message hl srcAddr dstAddr vnId guaranteedBandwidth).symm.trans hc)
      refine ⟨?_, by rw [hroutes]; exact hholds.routeKeys, ?_, ?_, ?_⟩
      · rw [hroutes, routes_append]
        simpa [ConfEntry.routeOf] using hholds.routes
      · rw [hdefault, hholds.defaultAction, defaultAction_append]
        rfl
      · rw [classes_append]
        exact (hperm.trans (hholds.classes.cons _)).trans (List.perm_append_singleton _ _).symm
      · rw [(hperm.map _).nodup_iff, List.map_cons, List.nodup_cons]
        exact ⟨hfresh, hholds.classKeys⟩

theorem Holds.writes {conf : List ConfEntry} {entries : List ConfEntry} {s s' : σ} {deviceId : ℕ}
    (hl : l.Distinct) (hholds : Holds conf (sw.tables s))
    (hserve : (entries.map fun entry => writeTableEntry deviceId (l.message entry)).foldlM
      sw.serve s = some s') : Holds (conf ++ entries) (sw.tables s') := by
  induction entries generalizing conf s with
  | nil =>
      obtain rfl := Option.some.inj hserve
      simpa using hholds
  | cons entry entries ih =>
      rw [List.map_cons, List.foldlM_cons] at hserve
      obtain ⟨mid, hmid, hrest⟩ := Option.bind_eq_some_iff.mp hserve
      simpa using ih (hholds.write hl hmid) hrest

/-! ## What the switch does with packets -/

/-- The tables do what the configuration says: the longest of its prefixes decides, the
default action where there is none, and a pair of addresses has its virtual network. -/
structure Obeys (conf : List ConfEntry) (t : Tables) : Prop where
  hit : ∀ dstAddr entry, MatchTable.IsLongest dstAddr (routes conf) entry →
    t.route dstAddr = entry.action
  miss : ∀ dstAddr, (∀ entry ∈ routes conf, ¬entry.Matches dstAddr) →
    t.route dstAddr = defaultAction conf
  known : ∀ srcAddr dstAddr action, ((srcAddr, dstAddr), action) ∈ classes conf →
    t.classify srcAddr dstAddr = some action
  unknown : ∀ srcAddr dstAddr, (srcAddr, dstAddr) ∉ (classes conf).map Prod.fst →
    t.classify srcAddr dstAddr = none

theorem obeys_of_holds {conf : List ConfEntry} {t : Tables} (hholds : Holds conf t) :
    Obeys conf t := by
  have hrouteKeys : ((routes conf).map MatchTable.LpmEntry.key).Nodup :=
    (hholds.routes.map _).nodup_iff.mp hholds.routeKeys
  have hclassKeys : ((classes conf).map Prod.fst).Nodup :=
    (hholds.classes.map _).nodup_iff.mp hholds.classKeys
  have hroute : ∀ dstAddr, t.route dstAddr =
      (MatchTable.lpm (routes conf) dstAddr).getD (defaultAction conf) := by
    intro dstAddr
    rw [Tables.route, MatchTable.lpm_perm hholds.routeKeys hholds.routes, hholds.defaultAction]
  have hclassify : ∀ srcAddr dstAddr, t.classify srcAddr dstAddr =
      MatchTable.exact (classes conf) (srcAddr, dstAddr) := fun srcAddr dstAddr =>
    MatchTable.exact_perm hholds.classKeys hholds.classes _
  refine ⟨fun dstAddr entry hlongest => ?_, fun dstAddr hmiss => ?_,
    fun srcAddr dstAddr action hmem => ?_, fun srcAddr dstAddr hkey => ?_⟩
  · rw [hroute, MatchTable.lpm, (MatchTable.longest_eq_some hrouteKeys).mpr hlongest]
    rfl
  · rw [hroute, MatchTable.lpm, MatchTable.longest_eq_none.mpr hmiss]
    rfl
  · rw [hclassify, MatchTable.exact_eq_some hclassKeys]
    exact hmem
  · rw [hclassify, Option.eq_none_iff_forall_ne_some]
    intro action haction
    rw [MatchTable.exact_eq_some hclassKeys] at haction
    exact hkey (List.mem_map_of_mem haction)

/-- The files which the configuration names. -/
structure Files.Ready (files : Files) (p4info : P4Info) (p4infoFile bmv2JsonFile : List Char) :
    Prop where
  p4infoFile_ne_nil : p4infoFile ≠ []
  bmv2JsonFile_ne_nil : bmv2JsonFile ≠ []
  p4infoFile_exists : files.pathExists p4infoFile = true
  bmv2JsonFile_exists : files.pathExists bmv2JsonFile = true
  isJson : files.isJson bmv2JsonFile = .ok true
  p4info_eq : files.p4info p4infoFile = .ok p4info

variable {files : Files} {p4infoFile bmv2JsonFile : List Char} {conf : List ConfEntry}

theorem checkFile_p4info (files : Files) (p4infoFile bmv2JsonFile : List Char)
    (conf : List ConfEntry) :
    checkFile files (confJson p4infoFile bmv2JsonFile conf) "p4info".toList =
      if !files.pathExists p4infoFile then .error (.raised (.fileDoesNotExist p4infoFile))
      else .ok () := rfl

theorem checkFile_bmv2Json (files : Files) (p4infoFile bmv2JsonFile : List Char)
    (conf : List ConfEntry) :
    checkFile files (confJson p4infoFile bmv2JsonFile conf) "bmv2_json".toList =
      if !files.pathExists bmv2JsonFile then .error (.raised (.fileDoesNotExist bmv2JsonFile))
      else if "bmv2_json".toList = "bmv2_json".toList then checkJson files bmv2JsonFile
      else .ok () := rfl

theorem checkSwitchConf_confJson (hready : files.Ready p4info p4infoFile bmv2JsonFile)
    (conf : List ConfEntry) :
    checkSwitchConf files (confJson p4infoFile bmv2JsonFile conf) = .ok () := by
  have hrequired : requiredKeys.forM (checkRequired (confJson p4infoFile bmv2JsonFile conf)) =
      .ok () := by
    obtain ⟨c, file, rfl⟩ := List.exists_cons_of_ne_nil hready.p4infoFile_ne_nil
    obtain ⟨c', file', rfl⟩ := List.exists_cons_of_ne_nil hready.bmv2JsonFile_ne_nil
    rfl
  have hfiles : requiredKeys.forM
      (checkFile files (confJson p4infoFile bmv2JsonFile conf)) = .ok () := by
    refine PyError.forM_eq_ok.mpr fun key hkey => ?_
    rw [requiredKeys, List.mem_cons, List.mem_singleton] at hkey
    rcases hkey with rfl | rfl
    · rw [checkFile_p4info, hready.p4infoFile_exists]
      rfl
    · rw [checkFile_bmv2Json, hready.bmv2JsonFile_exists, checkJson, hready.isJson]
      rfl
  simp only [checkSwitchConf, PyError.bind_eq_ok]
  exact ⟨(), rfl, (), hrequired, hfiles⟩

theorem prepare_confJson (hready : files.Ready p4info p4infoFile bmv2JsonFile)
    (conf : List ConfEntry) :
    prepare files (confJson p4infoFile bmv2JsonFile conf) = .ok (p4info, bmv2JsonFile) := by
  simp only [prepare, PyError.bind_eq_ok]
  exact ⟨(), checkSwitchConf_confJson hready conf, p4infoFile, rfl, p4info, hready.p4info_eq,
    bmv2JsonFile, rfl, rfl⟩

/-- What is called for a configuration, none of which raises. -/
theorem steps_confJson (hdescribes : l.Describes p4info) (deviceId : ℕ) (runtimeJson : List Char)
    (conf : List ConfEntry) :
    steps deviceId runtimeJson (confJson p4infoFile bmv2JsonFile conf) p4info bmv2JsonFile =
      (.setForwardingPipelineConfig deviceId 1 p4info bmv2JsonFile ::
        conf.map fun entry => writeTableEntry deviceId (l.message entry)).map Except.ok := by
  have hsteps : steps deviceId runtimeJson (confJson p4infoFile bmv2JsonFile conf) p4info
      bmv2JsonFile = .ok (.setForwardingPipelineConfig deviceId 1 p4info bmv2JsonFile) ::
        (conf.map ConfEntry.toJson).map (fun entry =>
          (tableEntryOf p4info runtimeJson entry).map (writeTableEntry deviceId)) ++ [] ++ [] :=
    rfl
  rw [hsteps, List.append_nil, List.append_nil, List.map_cons, List.map_map, List.map_map]
  congr 1
  refine List.map_congr_left fun entry _ => ?_
  rw [Function.comp_apply, tableEntryOf_toJson hdescribes]
  rfl

theorem outcome_execute (server : σ → Call → Option σ) (calls : List Call) (s : σ) :
    (execute server s (calls.map Except.ok)).outcome = .finished ∨
      (execute server s (calls.map Except.ok)).outcome = .rpcError := by
  induction calls generalizing s with
  | nil => exact Or.inl rfl
  | cons call calls ih =>
      rw [List.map_cons, execute]
      cases server s call with
      | none => exact Or.inr rfl
      | some s' => exact ih s'

/-- Programming a switch.  Whatever the entries are and in whatever order they stand, no
exception is raised or caught; and unless the switch refuses a call, its tables then do what the
configuration says, whatever they held before and wherever the switch keeps the entries. -/
theorem programSwitch_obeys (sw : Switch l σ) (hl : l.Distinct)
    (hdescribes : l.Describes p4info) (hready : files.Ready p4info p4infoFile bmv2JsonFile)
    (deviceId : ℕ) (runtimeJson : List Char) (conf : List ConfEntry) (s : σ) (run : RunResult σ)
    (hrun : programSwitch files deviceId runtimeJson (confJson p4infoFile bmv2JsonFile conf)
      sw.serve s = run) :
    (∀ e, run.outcome ≠ .raised e) ∧ (∀ e, run.outcome ≠ .refused e) ∧
      (run.outcome = .finished → Obeys conf (sw.tables run.state)) := by
  rw [programSwitch, checkSwitchConf_confJson hready, prepare_confJson hready] at hrun
  subst hrun
  unfold connect
  cases hanswer : sw.serve s (.masterArbitrationUpdate deviceId 0 1) with
  | none => simp
  | some s₁ =>
      simp only [steps_confJson hdescribes]
      have houtcome := outcome_execute sw.serve
        (.setForwardingPipelineConfig deviceId 1 p4info bmv2JsonFile ::
          conf.map fun entry => writeTableEntry deviceId (l.message entry)) s₁
      refine ⟨fun e => ?_, fun e => ?_, fun hfinished => ?_⟩
      · rcases houtcome with houtcome | houtcome <;> rw [houtcome] <;> simp
      · rcases houtcome with houtcome | houtcome <;> rw [houtcome] <;> simp
      obtain ⟨hcalls, hstate⟩ := (execute_eq_finished s₁ _).mp hfinished
      rw [← List.map_injective_iff.mpr (fun _ _ => Except.ok.inj) hcalls, List.foldlM_cons] at hstate
      obtain ⟨s₂, hpipeline, hwrites⟩ := Option.bind_eq_some_iff.mp hstate
      have hempty : Holds [] (sw.tables s₂) := by
        rw [sw.pipeline hpipeline]
        exact ⟨.nil, List.nodup_nil, rfl, .nil, List.nodup_nil⟩
      exact obeys_of_holds (by simpa using hempty.writes hl hwrites)

/-! ## A switch of tables -/

section TableSwitch

variable (l : Layout)

def serveTables (t : Tables) : Call → Option Tables
  | .masterArbitrationUpdate _ _ _ => some t
  | .setForwardingPipelineConfig _ _ _ _ => some {}
  | .write ⟨_, _, .insert, e⟩ =>
      if e.tableId = l.ipv4Lpm then do
        let route ← l.routeOf e
        if route.key ∈ t.ipv4Lpm.map MatchTable.LpmEntry.key then none
        else some { t with ipv4Lpm := route :: t.ipv4Lpm }
      else if e.tableId = l.vnClassifier then do
        let c ← l.classOf e
        if c.1 ∈ t.vnClassifier.map Prod.fst then none
        else some { t with vnClassifier := c :: t.vnClassifier }
      else none
  | .write ⟨_, _, .modify, e⟩ =>
      if e.tableId = l.ipv4Lpm then do
        let a ← e.action
        let action ← l.forwardingOf a
        some { t with defaultAction := action }
      else none
  | .writePre _ => some t
  | .shutdown => some t

/-- A switch which is nothing but its tables. -/
def tableSwitch (hl : l.Distinct) : Switch l Tables where
  serve := serveTables l
  tables := id
  arbitration hserve := by
    obtain rfl := Option.some.inj hserve
    rfl
  pipeline hserve := by
    obtain rfl := Option.some.inj hserve
    rfl
  insertRoute {t t' _ _ e} hserve htable := by
    rw [serveTables, if_pos htable] at hserve
    obtain ⟨route, hroute, hinsert⟩ := Option.bind_eq_some_iff.mp hserve
    rw [Option.ite_none_left_eq_some] at hinsert
    obtain ⟨hfresh, hinsert⟩ := hinsert
    obtain rfl := Option.some.inj hinsert
    exact ⟨route, hroute, hfresh, List.Perm.refl _, rfl, rfl⟩
  insertClass {t t' _ _ e} hserve htable := by
    rw [serveTables, if_neg (fun hlpm => hl.tables (hlpm.symm.trans htable)), if_pos htable]
      at hserve
    obtain ⟨c, hc, hinsert⟩ := Option.bind_eq_some_iff.mp hserve
    rw [Option.ite_none_left_eq_some] at hinsert
    obtain ⟨hfresh, hinsert⟩ := hinsert
    obtain rfl := Option.some.inj hinsert
    exact ⟨c, hc, hfresh, List.Perm.refl _, rfl, rfl⟩
  modifyDefault {t t' _ _ e} hserve htable := by
    rw [serveTables, if_pos htable] at hserve
    obtain ⟨a, ha, hrest⟩ := Option.bind_eq_some_iff.mp hserve
    obtain ⟨action, haction, hmodify⟩ := Option.bind_eq_some_iff.mp hrest
    exact ⟨a, action, ha, haction, (Option.some.inj hmodify).symm⟩

end TableSwitch

/-- The numbers in the order of the program. -/
def someLayout : Layout := ⟨1, 1, 2, 1, 2, 1, 1, 2, 2, 3, 4, 1, 2⟩

theorem distinct_someLayout : someLayout.Distinct :=
  ⟨by decide, by decide, by decide, by decide, by decide⟩

theorem describes_someP4Info : someLayout.Describes someP4Info :=
  ⟨unambiguous_someP4Info, ⟨"ipv4_lpm".toList, by decide⟩, ⟨"vn_classifier".toList, by decide⟩,
    ⟨"ipv4_forward".toList, by decide⟩, ⟨"drop".toList, by decide⟩,
    ⟨"NoAction".toList, by decide⟩, ⟨"set_vn_params".toList, by decide⟩⟩

/-- Some entries of `s1-runtime.json`. -/
def s1Conf : List ConfEntry :=
  [.default .drop, .route ⟨0x0a000404#32, 32, le_rfl, .ipv4Forward 0x080000000444#48 4#9⟩,
    .classify 0x0a000101#32 0x0a000404#32 0#8 3#48]

theorem ready_someFiles : someFiles.Ready someP4Info
    "color_markers.p4.p4info.txtpb".toList "color_markers.json".toList :=
  ⟨by decide, by decide, rfl, rfl, rfl, rfl⟩

def s1Run : RunResult Tables :=
  programSwitch someFiles 0 "s1-runtime.json".toList
    (confJson "color_markers.p4.p4info.txtpb".toList "color_markers.json".toList s1Conf)
    (tableSwitch someLayout distinct_someLayout).serve {}

theorem isFinished_s1Run : s1Run.outcome.isFinished = true := by
  decide +kernel

/-- The entries of the repository's configuration. -/
theorem programSwitch_obeys_s1 :
    Obeys s1Conf ((tableSwitch someLayout distinct_someLayout).tables s1Run.state) :=
  (programSwitch_obeys (tableSwitch someLayout distinct_someLayout) distinct_someLayout
    describes_someP4Info ready_someFiles 0 "s1-runtime.json".toList s1Conf {} s1Run
    (by rw [s1Run])).2.2 (Outcome.isFinished_iff.mp isFinished_s1Run)

end ControlPlane

end Cmcs
