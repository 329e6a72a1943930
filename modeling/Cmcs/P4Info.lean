import Cmcs.HexBytes
import Cmcs.JsonValue
import Mathlib.Tactic

/-!
# The description of a P4 program

`P4Info` as the compiler writes it: the tables with their match fields and the actions
with their parameters, and how `P4InfoHelper` looks them up.  A table or an action is
found by its name or its alias, but a match field and a parameter only by the name.
-/

namespace Cmcs

namespace ControlPlane

inductive MatchType
  | unspecified
  | exact
  | lpm
  | ternary
  | range
  | optional
  deriving DecidableEq

structure Preamble where
  id : ℕ
  name : List Char
  aliasName : List Char
  deriving DecidableEq

structure MatchField where
  id : ℕ
  name : List Char
  bitwidth : ℕ
  matchType : MatchType
  deriving DecidableEq

structure TableInfo where
  preamble : Preamble
  matchFields : List MatchField
  deriving DecidableEq

structure Param where
  id : ℕ
  name : List Char
  bitwidth : ℕ
  deriving DecidableEq

structure ActionInfo where
  preamble : Preamble
  params : List Param
  deriving DecidableEq

structure P4Info where
  tables : List TableInfo
  actions : List ActionInfo
  deriving DecidableEq

/-- The exceptions of `p4runtime_lib`, with what their texts show. -/
inductive ControllerError
  | negativeNumber (number : ℤ) (bitwidth : ℕ)
  | doesNotFit (number : ℤ) (bitwidth : ℕ)
  | encodingNotSupported (typeName : String)
  | couldNotFind (name : Json) (entityType : String)
  | noMatchField (tableName : Json) (name : List Char)
  | noParam (actionName : Json) (name : List Char)
  | unsupportedMatchType (matchType : MatchType)
  | priorityRequired (tableName : Json) (runtimeJson : List Char)
  | missingTarget
  | unknownTarget (target : Json)
  | missingKey (key : List Char)
  | fileDoesNotExist (file : List Char)
  | invalidJson (file : List Char)

abbrev Raises (α : Type) := Except (PyError ControllerError) α

def Preamble.isCalled (pre : Preamble) (name : Json) : Bool :=
  name.isText pre.name || name.isText pre.aliasName

/-- `get` with a name, for the preambles of the objects of one kind. -/
def getPreamble (entityType : String) (preambles : List Preamble) (name : Json) :
    Raises Preamble :=
  match name.truthy, preambles.find? fun pre => pre.isCalled name with
  | true, some pre => .ok pre
  | _, _ => .error (.raised (.couldNotFind name entityType))

namespace P4Info

variable (p4info : P4Info)

def getTablesId (name : Json) : Raises ℕ := do
  let pre ← getPreamble "tables" (p4info.tables.map TableInfo.preamble) name
  pure pre.id

def getActionsId (name : Json) : Raises ℕ := do
  let pre ← getPreamble "actions" (p4info.actions.map ActionInfo.preamble) name
  pure pre.id

/-- The match fields of the tables with the name. -/
def matchFieldsOf (tableName : Json) : List MatchField :=
  (p4info.tables.filter fun t => tableName.isText t.preamble.name).flatMap TableInfo.matchFields

def getMatchField (tableName : Json) (name : List Char) : Raises MatchField :=
  match (p4info.matchFieldsOf tableName).find? fun mf => mf.name = name with
  | some mf => .ok mf
  | none => .error (.raised (.noMatchField tableName name))

def paramsOf (actionName : Json) : List Param :=
  (p4info.actions.filter fun a => actionName.isText a.preamble.name).flatMap ActionInfo.params

def getActionParam (actionName : Json) (name : List Char) : Raises Param :=
  match (p4info.paramsOf actionName).find? fun p => p.name = name with
  | some p => .ok p
  | none => .error (.raised (.noParam actionName name))

end P4Info

end ControlPlane

end Cmcs
