import Cmcs.Convert
import Mathlib.Tactic

/-!
# Table entries

The messages of P4Runtime for the entries of a runtime configuration, as
`P4InfoHelper.buildTableEntry` and the functions of `simple_controller.py` make them.
-/

namespace Cmcs

namespace ControlPlane

/-! ## Messages -/

inductive FieldMatchType
  | exact (value : Bytes)
  | lpm (value : Bytes) (prefixLen : ℤ)
  | ternary (value mask : Bytes)
  | range (low high : Bytes)
  deriving DecidableEq

structure FieldMatch where
  fieldId : ℕ
  fieldMatchType : FieldMatchType
  deriving DecidableEq

structure ActionParam where
  paramId : ℕ
  value : Bytes
  deriving DecidableEq

structure TableAction where
  actionId : ℕ
  params : List ActionParam
  deriving DecidableEq

structure TableEntry where
  tableId : ℕ
  matchFields : List FieldMatch
  action : Option TableAction
  isDefaultAction : Bool
  priority : ℤ
  deriving DecidableEq

structure Replica where
  egressPort : ℕ
  instanceId : ℕ
  deriving DecidableEq

inductive PacketReplicationEngineEntry
  | multicastGroup (multicastGroupId : ℕ) (replicas : List Replica)
  | cloneSession (sessionId : ℕ) (packetLengthBytes : ℤ) (replicas : List Replica)
  deriving DecidableEq

/-! ## Fields of messages -/

/-- A field of bytes takes no string. -/
def Encoded.toField : Encoded → Raises Bytes
  | .bytes b => .ok b
  | .str _ => .error .typeError

def int32 (x : Json) : Raises ℤ := do
  let n ← x.integer
  if -2 ^ 31 ≤ n ∧ n < 2 ^ 31 then pure n else .error .valueError

def uint32 (x : Json) : Raises ℕ := do
  let n ← x.integer
  if 0 ≤ n ∧ n < 2 ^ 32 then pure n.toNat else .error .valueError

/-- A field which is not set is zero. -/
def priorityField (priority : Json) : Raises ℤ :=
  if priority.isNull then pure 0 else int32 priority

def encodeField (x : Json) (bitwidth : ℕ) : Raises Bytes := do
  let encoded ← encode x bitwidth
  encoded.toField

/-! ## `P4InfoHelper` -/

def lpmValue (bitwidth : ℕ) (value : Json) : Raises FieldMatchType := do
  let first ← value.index 0
  let bytes ← encodeField first bitwidth
  let second ← value.index 1
  let prefixLen ← int32 second
  pure (.lpm bytes prefixLen)

def pairValue (make : Bytes → Bytes → FieldMatchType) (bitwidth : ℕ) (value : Json) :
    Raises FieldMatchType := do
  let first ← value.index 0
  let bytes ← encodeField first bitwidth
  let second ← value.index 1
  let bytes' ← encodeField second bitwidth
  pure (make bytes bytes')

def matchValue (mf : MatchField) (value : Json) : Raises FieldMatchType :=
  match mf.matchType with
  | .exact => (encodeField value mf.bitwidth).map FieldMatchType.exact
  | .lpm => lpmValue mf.bitwidth value
  | .ternary => pairValue FieldMatchType.ternary mf.bitwidth value
  | .range => pairValue FieldMatchType.range mf.bitwidth value
  | matchType => .error (.raised (.unsupportedMatchType matchType))

namespace P4Info

variable (p4info : P4Info)

def getMatchFieldPb (tableName : Json) (item : List Char × Json) : Raises FieldMatch := do
  let p4infoMatch ← p4info.getMatchField tableName item.1
  let fieldMatchType ← matchValue p4infoMatch item.2
  pure ⟨p4infoMatch.id, fieldMatchType⟩

def getActionParamPb (actionName : Json) (item : List Char × Json) : Raises ActionParam := do
  let p4infoParam ← p4info.getActionParam actionName item.1
  let value ← encodeField item.2 p4infoParam.bitwidth
  pure ⟨p4infoParam.id, value⟩

def buildMatch (tableName matchFields : Json) : Raises (List FieldMatch) :=
  if matchFields.truthy then do
    let items ← matchFields.items
    items.mapM (p4info.getMatchFieldPb tableName)
  else pure []

def buildParams (actionName actionParams : Json) : Raises (List ActionParam) :=
  if actionParams.truthy then do
    let items ← actionParams.items
    items.mapM (p4info.getActionParamPb actionName)
  else pure []

def buildAction (actionName actionParams : Json) : Raises (Option TableAction) :=
  if actionName.truthy then do
    let actionId ← p4info.getActionsId actionName
    let params ← p4info.buildParams actionName actionParams
    pure (some ⟨actionId, params⟩)
  else pure none

/-- `buildTableEntry`; an argument which is left out is null. -/
def buildTableEntry (tableName matchFields defaultAction actionName actionParams priority : Json) :
    Raises TableEntry := do
  let tableId ← p4info.getTablesId tableName
  let priority ← priorityField priority
  let fields ← p4info.buildMatch tableName matchFields
  let action ← p4info.buildAction actionName actionParams
  pure ⟨tableId, fields, action, defaultAction.truthy, priority⟩

end P4Info

def buildReplica (replica : Json) : Raises Replica := do
  let egressPort ← replica.item "egress_port".toList
  let egressPort ← uint32 egressPort
  let instanceId ← replica.item "instance".toList
  let instanceId ← uint32 instanceId
  pure ⟨egressPort, instanceId⟩

def buildReplicas (replicas : Json) : Raises (List Replica) := do
  let replicas ← replicas.elements
  replicas.mapM buildReplica

def buildMulticastGroupEntry (multicastGroupId replicas : Json) :
    Raises PacketReplicationEngineEntry := do
  let multicastGroupId ← uint32 multicastGroupId
  let replicas ← buildReplicas replicas
  pure (.multicastGroup multicastGroupId replicas)

def buildCloneSessionEntry (cloneSessionId replicas packetLengthBytes : Json) :
    Raises PacketReplicationEngineEntry := do
  let sessionId ← uint32 cloneSessionId
  let packetLengthBytes ← int32 packetLengthBytes
  let replicas ← buildReplicas replicas
  pure (.cloneSession sessionId packetLengthBytes replicas)

/-! ## Entries of the configuration -/

/-- `for key in x: x[key]` -/
def subscripts : Json → Raises Unit
  | .dict _ => .ok ()
  | .list elements => elements.forM (Json.subscript elements)
  | .str [] => .ok ()
  | _ => .error .typeError

def matchToString (flow : Json) : Raises Unit := do
  let hasMatch ← flow.contains "match".toList
  if hasMatch then do
    let fields ← flow.item "match".toList
    subscripts fields
  else pure ()

/-- What `tableEntryToString` raises; its text goes to the terminal. -/
def tableEntryToString (flow : Json) : Raises Unit := do
  matchToString flow
  let actionParams ← flow.item "action_params".toList
  subscripts actionParams
  let _ ← flow.item "table".toList
  let _ ← flow.item "action_name".toList
  pure ()

def matchTypesWithPriority : List MatchType := [.ternary, .range, .optional]

def P4Info.checkPriority (p4info : P4Info) (tableName : Json) (runtimeJson : List Char)
    (item : List Char × Json) : Raises Unit := do
  let p4infoMatch ← p4info.getMatchField tableName item.1
  if p4infoMatch.matchType ∈ matchTypesWithPriority then
    .error (.raised (.priorityRequired tableName runtimeJson))
  else pure ()

def validateTableEntry (flow : Json) (p4info : P4Info) (runtimeJson : List Char) :
    Raises Unit := do
  let tableName ← flow.item "table".toList
  let matchFields ← flow.get "match".toList
  let priority ← flow.get "priority".toList
  if !matchFields.isNull && (priority.isNull || priority.isZero) then do
    let items ← matchFields.items
    items.forM (p4info.checkPriority tableName runtimeJson)
  else pure ()

/-- The message which `insertTableEntry` writes. -/
def insertTableEntry (flow : Json) (p4info : P4Info) : Raises TableEntry := do
  let tableName ← flow.item "table".toList
  let matchFields ← flow.get "match".toList
  let actionName ← flow.item "action_name".toList
  let defaultAction ← flow.get "default_action".toList
  let actionParams ← flow.item "action_params".toList
  let priority ← flow.get "priority".toList
  p4info.buildTableEntry tableName matchFields defaultAction actionName actionParams priority

/-- The body of the loop over the table entries. -/
def tableEntryOf (p4info : P4Info) (runtimeJson : List Char) (flow : Json) :
    Raises TableEntry := do
  tableEntryToString flow
  validateTableEntry flow p4info runtimeJson
  insertTableEntry flow p4info

/-- `'%d' % x` -/
def formatNumber : Json → Raises Unit
  | .int _ | .bool _ | .float _ => .ok ()
  | _ => .error .typeError

def replicaToString (replica : Json) : Raises Unit := do
  let egressPort ← replica.item "egress_port".toList
  formatNumber egressPort

def replicasToString (rule : Json) : Raises Unit := do
  let replicas ← rule.item "replicas".toList
  let replicas ← replicas.elements
  replicas.forM replicaToString

/-- The body of the loop over the multicast groups. -/
def groupEntryOf (rule : Json) : Raises PacketReplicationEngineEntry := do
  let multicastGroupId ← rule.item "multicast_group_id".toList
  replicasToString rule
  let replicas ← rule.item "replicas".toList
  buildMulticastGroupEntry multicastGroupId replicas

/-- `rule.get('packet_length_bytes', 0)` -/
def packetLengthOf (rule : Json) : Raises Json := do
  let given ← rule.contains "packet_length_bytes".toList
  if given then rule.item "packet_length_bytes".toList else pure (.int 0)

/-- The body of the loop over the clone sessions. -/
def cloneEntryOf (rule : Json) : Raises PacketReplicationEngineEntry := do
  let cloneSessionId ← rule.item "clone_session_id".toList
  replicasToString rule
  let replicas ← rule.item "replicas".toList
  let packetLengthBytes ← packetLengthOf rule
  buildCloneSessionEntry cloneSessionId replicas packetLengthBytes

/-! ## What the messages conform to -/

/-- The kind of the field, and the number of bytes of its values. -/
def FieldMatchType.Fits (mf : MatchField) : FieldMatchType → Prop
  | .exact value => mf.matchType = .exact ∧ value.length = bitwidthToBytes mf.bitwidth
  | .lpm value _ => mf.matchType = .lpm ∧ value.length = bitwidthToBytes mf.bitwidth
  | .ternary value mask => mf.matchType = .ternary ∧
      value.length = bitwidthToBytes mf.bitwidth ∧ mask.length = bitwidthToBytes mf.bitwidth
  | .range low high => mf.matchType = .range ∧
      low.length = bitwidthToBytes mf.bitwidth ∧ high.length = bitwidthToBytes mf.bitwidth

/-- Of several matching entries the priority chooses. -/
def FieldMatchType.NeedsPriority : FieldMatchType → Prop
  | .exact _ | .lpm _ _ => False
  | .ternary _ _ | .range _ _ => True

structure TableEntry.Conforms (p4info : P4Info) (e : TableEntry) : Prop where
  table : ∃ t ∈ p4info.tables, t.preamble.id = e.tableId ∧ ∀ fm ∈ e.matchFields,
    ∃ mf ∈ t.matchFields, mf.id = fm.fieldId ∧ fm.fieldMatchType.Fits mf
  action : ∀ a ∈ e.action, ∃ info ∈ p4info.actions, info.preamble.id = a.actionId ∧
    ∀ p ∈ a.params, ∃ param ∈ info.params, param.id = p.paramId ∧
      p.value.length = bitwidthToBytes param.bitwidth
  priority : (∃ fm ∈ e.matchFields, fm.fieldMatchType.NeedsPriority) → e.priority ≠ 0

/-- No name is a name or an alias of anything else of its kind. -/
def Preamble.Unambiguous {α : Type} (preamble : α → Preamble) (objects : List α) : Prop :=
  ∀ x ∈ objects, ∀ y ∈ objects,
    (preamble x).name = (preamble y).name ∨ (preamble x).aliasName = (preamble y).name → x = y

structure P4Info.Unambiguous (p4info : P4Info) : Prop where
  tables : Preamble.Unambiguous TableInfo.preamble p4info.tables
  actions : Preamble.Unambiguous ActionInfo.preamble p4info.actions

theorem isText_eq_true {x : Json} {text : List Char} : x.isText text = true ↔ x = .str text := by
  cases x <;> simp [Json.isText]

theorem getPreamble_eq_ok {entityType : String} {preambles : List Preamble} {name : Json}
    {pre : Preamble} (hget : getPreamble entityType preambles name = .ok pre) :
    pre ∈ preambles ∧ pre.isCalled name = true := by
  unfold getPreamble at hget
  split at hget
  next found _ hfind =>
    obtain rfl := Except.ok.inj hget
    exact ⟨List.mem_of_find?_eq_some hfind, by simpa using List.find?_some hfind⟩
  next => cases hget

theorem eq_of_isCalled {α : Type} {preamble : α → Preamble} {objects : List α}
    (hunambiguous : Preamble.Unambiguous preamble objects) {x y : α} (hx : x ∈ objects)
    (hy : y ∈ objects) {name : Json} (hcalled : (preamble x).isCalled name = true)
    (hname : name.isText (preamble y).name = true) : x = y := by
  rw [isText_eq_true] at hname
  subst hname
  rw [Preamble.isCalled, Bool.or_eq_true, isText_eq_true, isText_eq_true, Json.str.injEq,
    Json.str.injEq] at hcalled
  exact hunambiguous x hx y hy (hcalled.imp Eq.symm Eq.symm)

theorem length_of_encodeField {x : Json} {bitwidth : ℕ} {bytes : Bytes}
    (hencode : encodeField x bitwidth = .ok bytes) : bytes.length = bitwidthToBytes bitwidth := by
  obtain ⟨e, he, hfield⟩ := PyError.bind_eq_ok.mp hencode
  have hlen := (encode_eq_ok.mp he).2
  cases e with
  | bytes b =>
      obtain rfl := Except.ok.inj hfield
      exact hlen
  | str t => cases hfield

theorem fits_of_matchValue {mf : MatchField} {value : Json} {fmt : FieldMatchType}
    (hvalue : matchValue mf value = .ok fmt) : fmt.Fits mf := by
  unfold matchValue at hvalue
  split at hvalue
  next hexact =>
    cases hbytes : encodeField value mf.bitwidth with
    | error e => simp [hbytes, Except.map] at hvalue
    | ok bytes =>
        rw [hbytes] at hvalue
        obtain rfl := Except.ok.inj hvalue
        exact ⟨hexact, length_of_encodeField hbytes⟩
  next hlpm =>
    simp only [lpmValue, PyError.bind_eq_ok] at hvalue
    obtain ⟨first, -, bytes, hbytes, second, -, prefixLen, -, hpure⟩ := hvalue
    obtain rfl := Except.ok.inj hpure
    exact ⟨hlpm, length_of_encodeField hbytes⟩
  next hternary =>
    simp only [pairValue, PyError.bind_eq_ok] at hvalue
    obtain ⟨first, -, bytes, hbytes, second, -, bytes', hbytes', hpure⟩ := hvalue
    obtain rfl := Except.ok.inj hpure
    exact ⟨hternary, length_of_encodeField hbytes, length_of_encodeField hbytes'⟩
  next hrange =>
    simp only [pairValue, PyError.bind_eq_ok] at hvalue
    obtain ⟨first, -, bytes, hbytes, second, -, bytes', hbytes', hpure⟩ := hvalue
    obtain rfl := Except.ok.inj hpure
    exact ⟨hrange, length_of_encodeField hbytes, length_of_encodeField hbytes'⟩
  next => cases hvalue

/-- The matching kinds which need a priority are those which the validation looks for. -/
theorem FieldMatchType.Fits.needsPriority {mf : MatchField} {fmt : FieldMatchType}
    (hfits : fmt.Fits mf) (hneeds : fmt.NeedsPriority) :
    mf.matchType ∈ matchTypesWithPriority := by
  cases fmt with
  | exact value => exact absurd hneeds id
  | lpm value prefixLen => exact absurd hneeds id
  | ternary value mask => simp [matchTypesWithPriority, hfits.1]
  | range low high => simp [matchTypesWithPriority, hfits.1]

namespace P4Info

variable {p4info : P4Info} {tableName actionName matchFields actionParams : Json}

theorem getMatchField_eq_ok {name : List Char} {mf : MatchField}
    (hget : p4info.getMatchField tableName name = .ok mf) :
    ∃ t ∈ p4info.tables, tableName.isText t.preamble.name = true ∧ mf ∈ t.matchFields := by
  unfold getMatchField at hget
  split at hget
  next found hfind =>
    obtain rfl := Except.ok.inj hget
    have hmem := List.mem_of_find?_eq_some hfind
    rw [matchFieldsOf, List.mem_flatMap] at hmem
    obtain ⟨t, ht, hmf⟩ := hmem
    obtain ⟨ht, hname⟩ := List.mem_filter.mp ht
    exact ⟨t, ht, hname, hmf⟩
  next => cases hget

theorem getActionParam_eq_ok {name : List Char} {param : Param}
    (hget : p4info.getActionParam actionName name = .ok param) :
    ∃ a ∈ p4info.actions, actionName.isText a.preamble.name = true ∧ param ∈ a.params := by
  unfold getActionParam at hget
  split at hget
  next found hfind =>
    obtain rfl := Except.ok.inj hget
    have hmem := List.mem_of_find?_eq_some hfind
    rw [paramsOf, List.mem_flatMap] at hmem
    obtain ⟨a, ha, hparam⟩ := hmem
    obtain ⟨ha, hname⟩ := List.mem_filter.mp ha
    exact ⟨a, ha, hname, hparam⟩
  next => cases hget

/-- A match field of the message and the item of the configuration which it is made of. -/
theorem mem_buildMatch {fields : List FieldMatch}
    (hbuild : p4info.buildMatch tableName matchFields = .ok fields) {fm : FieldMatch}
    (hfm : fm ∈ fields) :
    ∃ items item mf, matchFields = .dict items ∧ item ∈ items ∧
      p4info.getMatchField tableName item.1 = .ok mf ∧ mf.id = fm.fieldId ∧
      fm.fieldMatchType.Fits mf := by
  unfold buildMatch at hbuild
  split at hbuild
  next =>
    obtain ⟨items, hitems, hfields⟩ := PyError.bind_eq_ok.mp hbuild
    have hdict : matchFields = .dict items := by
      cases matchFields with
      | dict items' =>
          obtain rfl := Except.ok.inj hitems
          rfl
      | _ => cases hitems
    obtain ⟨item, hitem, hpb⟩ := PyError.exists_of_mem_mapM hfields hfm
    obtain ⟨mf, hmf, hpb⟩ := PyError.bind_eq_ok.mp hpb
    obtain ⟨fmt, hfmt, hpure⟩ := PyError.bind_eq_ok.mp hpb
    obtain rfl := Except.ok.inj hpure
    exact ⟨items, item, mf, hdict, hitem, hmf, rfl, fits_of_matchValue hfmt⟩
  next =>
    obtain rfl := Except.ok.inj hbuild
    simp at hfm

theorem mem_buildParams {params : List ActionParam}
    (hbuild : p4info.buildParams actionName actionParams = .ok params) {p : ActionParam}
    (hp : p ∈ params) :
    ∃ name param, p4info.getActionParam actionName name = .ok param ∧ param.id = p.paramId ∧
      p.value.length = bitwidthToBytes param.bitwidth := by
  unfold buildParams at hbuild
  split at hbuild
  next =>
    obtain ⟨items, -, hparams⟩ := PyError.bind_eq_ok.mp hbuild
    obtain ⟨item, hitem, hpb⟩ := PyError.exists_of_mem_mapM hparams hp
    obtain ⟨param, hparam, hpb⟩ := PyError.bind_eq_ok.mp hpb
    obtain ⟨value, hvalue, hpure⟩ := PyError.bind_eq_ok.mp hpb
    obtain rfl := Except.ok.inj hpure
    exact ⟨item.1, param, hparam, rfl, length_of_encodeField hvalue⟩
  next =>
    obtain rfl := Except.ok.inj hbuild
    simp at hp

end P4Info

theorem priorityField_eq_zero {priority : Json} (hfield : priorityField priority = .ok 0) :
    (priority.isNull || priority.isZero) = true := by
  unfold priorityField at hfield
  split at hfield
  next hnull => simp [hnull]
  next =>
    obtain ⟨n, hn, hrange⟩ := PyError.bind_eq_ok.mp hfield
    split at hrange
    next =>
      obtain rfl := Except.ok.inj hrange
      cases priority with
      | bool b => cases b <;> simp_all [Json.integer, Json.isZero]
      | int z => simp_all [Json.integer, Json.isZero]
      | _ => cases hn
    next => cases hrange

/-- Whatever the configuration contains: an entry which is written conforms to the
program. -/
theorem conforms_of_tableEntryOf {p4info : P4Info} (hp4info : p4info.Unambiguous)
    {runtimeJson : List Char} {flow : Json} {e : TableEntry}
    (hentry : tableEntryOf p4info runtimeJson flow = .ok e) : e.Conforms p4info := by
  simp only [tableEntryOf, validateTableEntry, insertTableEntry, P4Info.buildTableEntry,
    PyError.bind_eq_ok] at hentry
  obtain ⟨_, -, _, ⟨tableName, htable, matchFields, hmatch, priority, hpriority, hcheck⟩,
    tableName', htable', matchFields', hmatch', actionName, -, defaultAction, -, actionParams, -,
    priority', hpriority', tableId, hid, n, hn, fields, hfields, action, haction, hpure⟩ := hentry
  obtain rfl := Except.ok.inj (htable.symm.trans htable')
  obtain rfl := Except.ok.inj (hmatch.symm.trans hmatch')
  obtain rfl := Except.ok.inj (hpriority.symm.trans hpriority')
  obtain rfl := Except.ok.inj hpure
  refine ⟨?_, fun a ha => ?_, ?_⟩
  · obtain ⟨pre, hpre, hpureId⟩ := PyError.bind_eq_ok.mp hid
    obtain rfl := Except.ok.inj hpureId
    obtain ⟨hmem, hcalled⟩ := getPreamble_eq_ok hpre
    obtain ⟨t, ht, rfl⟩ := List.mem_map.mp hmem
    refine ⟨t, ht, rfl, fun fm hfm => ?_⟩
    obtain ⟨items, item, mf, -, -, hmf, hmfId, hfits⟩ := P4Info.mem_buildMatch hfields hfm
    obtain ⟨t', ht', hname, hmem'⟩ := P4Info.getMatchField_eq_ok hmf
    obtain rfl := eq_of_isCalled hp4info.tables ht ht' hcalled hname
    exact ⟨mf, hmem', hmfId, hfits⟩
  · unfold P4Info.buildAction at haction
    split at haction
    next =>
      simp only [PyError.bind_eq_ok] at haction
      obtain ⟨actionId, hactionId, params, hparams, hpureAction⟩ := haction
      obtain rfl := Except.ok.inj hpureAction
      obtain rfl := Option.some.inj ha
      obtain ⟨pre, hpre, hpureId⟩ := PyError.bind_eq_ok.mp hactionId
      obtain rfl := Except.ok.inj hpureId
      obtain ⟨hmem, hcalled⟩ := getPreamble_eq_ok hpre
      obtain ⟨info, hinfo, rfl⟩ := List.mem_map.mp hmem
      refine ⟨info, hinfo, rfl, fun p hp => ?_⟩
      obtain ⟨name, param, hparam, hparamId, hlength⟩ := P4Info.mem_buildParams hparams hp
      obtain ⟨info', hinfo', hname, hmem'⟩ := P4Info.getActionParam_eq_ok hparam
      obtain rfl := eq_of_isCalled hp4info.actions hinfo hinfo' hcalled hname
      exact ⟨param, hmem', hparamId, hlength⟩
    next =>
      obtain rfl := Except.ok.inj haction
      cases ha
  · rintro ⟨fm, hfm, hneeds⟩ rfl
    obtain ⟨items, item, mf, rfl, hitem, hmf, -, hfits⟩ := P4Info.mem_buildMatch hfields hfm
    rw [if_pos (by simpa [Json.isNull] using priorityField_eq_zero hn)] at hcheck
    obtain ⟨items', hitems, hall⟩ := PyError.bind_eq_ok.mp hcheck
    obtain rfl := Except.ok.inj hitems
    have hok := PyError.forM_eq_ok.mp hall item hitem
    obtain ⟨mf', hmf', hpriorityCheck⟩ := PyError.bind_eq_ok.mp hok
    obtain rfl := Except.ok.inj (hmf.symm.trans hmf')
    rw [if_pos (hfits.needsPriority hneeds)] at hpriorityCheck
    cases hpriorityCheck

end ControlPlane

end Cmcs
