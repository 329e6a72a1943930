import Mathlib.Tactic

/-!
# Values of JSON documents

What `json.load` returns, and the operations of Python on it.  An operation raises when
the value is not of the type it needs.  `NaN`, the infinities and texts with lone
surrogates, which `json.load` also reads, are left out.
-/

inductive Json
  | null
  | bool (b : Bool)
  | int (n : ℤ)
  | float (x : ℚ)
  | str (text : List Char)
  | list (elements : List Json)
  | dict (items : List (List Char × Json))

/-- What Python raises by itself, and what a program raises. -/
inductive PyError (ε : Type)
  | typeError
  | keyError (key : List Char)
  | indexError
  | attributeError
  | valueError
  | osError
  | assertionError
  | raised (e : ε)
  deriving DecidableEq

/-- An exception of Python itself, in a program which raises others. -/
def PyError.lift {ε : Type} : PyError Empty → PyError ε
  | .typeError => .typeError
  | .keyError key => .keyError key
  | .indexError => .indexError
  | .attributeError => .attributeError
  | .valueError => .valueError
  | .osError => .osError
  | .assertionError => .assertionError

namespace Json

variable {ε : Type}

/-- `type(x).__name__` -/
def typeName : Json → String
  | null => "NoneType"
  | bool _ => "bool"
  | int _ => "int"
  | float _ => "float"
  | str _ => "str"
  | list _ => "list"
  | dict _ => "dict"

def isNull : Json → Bool
  | null => true
  | _ => false

/-- `bool(x)` -/
def truthy : Json → Bool
  | null => false
  | bool b => b
  | int n => n ≠ 0
  | float x => x ≠ 0
  | str text => text ≠ []
  | list elements => !elements.isEmpty
  | dict items => !items.isEmpty

/-- `x == 0` -/
def isZero : Json → Bool
  | bool b => !b
  | int n => n = 0
  | float x => x = 0
  | _ => false

/-- `x == text` for a string. -/
def isText (text : List Char) : Json → Bool
  | str text' => text' = text
  | _ => false

/-- `key in x` for a string. -/
def contains (key : List Char) : Json → Except (PyError ε) Bool
  | dict items => .ok (items.lookup key).isSome
  | list elements => .ok (elements.any fun x => x.isText key)
  | str text => .ok (decide (key <:+: text))
  | _ => .error .typeError

/-- `x[key]` for a string. -/
def item (key : List Char) : Json → Except (PyError ε) Json
  | dict items =>
      match items.lookup key with
      | some x => .ok x
      | none => .error (.keyError key)
  | _ => .error .typeError

/-- `x.get(key)` -/
def get (key : List Char) : Json → Except (PyError ε) Json
  | dict items => .ok ((items.lookup key).getD null)
  | _ => .error .attributeError

/-- `x.items()` -/
def items : Json → Except (PyError ε) (List (List Char × Json))
  | dict items => .ok items
  | _ => .error .attributeError

/-- `x[i]` for a natural number.  The keys of a document are strings. -/
def index (i : ℕ) : Json → Except (PyError ε) Json
  | list elements =>
      match elements[i]? with
      | some x => .ok x
      | none => .error .indexError
  | str text =>
      match text[i]? with
      | some c => .ok (str [c])
      | none => .error .indexError
  | dict _ => .error (.keyError (Nat.toDigits 10 i))
  | _ => .error .typeError

/-- `for y in x` -/
def elements : Json → Except (PyError ε) (List Json)
  | list elements => .ok elements
  | str text => .ok (text.map fun c => str [c])
  | dict items => .ok (items.map fun item => str item.1)
  | _ => .error .typeError

/-- `x[key]` for an element `key` of the list: no value, but what it raises. -/
def subscript (elements : List Json) : Json → Except (PyError ε) Unit
  | bool b => if (if b then 1 else 0) < elements.length then .ok () else .error .indexError
  | int n =>
      if -elements.length ≤ n ∧ n < elements.length then .ok () else .error .indexError
  | _ => .error .typeError

/-- `len(x)` -/
def len : Json → Except (PyError ε) ℕ
  | list elements => .ok elements.length
  | str text => .ok text.length
  | dict items => .ok items.length
  | _ => .error .typeError

/-- `x` as an integer: a truth value is one, a fraction is none. -/
def integer : Json → Except (PyError ε) ℤ
  | bool b => .ok (if b then 1 else 0)
  | int n => .ok n
  | _ => .error .typeError

end Json

/-! ## Programs which raise -/

namespace PyError

variable {ε α β : Type}

theorem bind_eq_ok {x : Except ε α} {f : α → Except ε β} {b : β} :
    (x >>= f) = .ok b ↔ ∃ a, x = .ok a ∧ f a = .ok b := by
  cases x with
  | error e => simp [bind, Except.bind]
  | ok a => simp [bind, Except.bind]

theorem forM_eq_ok {f : α → Except ε Unit} {l : List α} :
    l.forM f = .ok () ↔ ∀ a ∈ l, f a = .ok () := by
  induction l with
  | nil => simp [pure, Except.pure]
  | cons a l ih =>
      change (f a >>= fun _ => l.forM f) = .ok () ↔ _
      rw [bind_eq_ok, List.forall_mem_cons, ih]
      exact ⟨fun ⟨_, hfirst, hrest⟩ => ⟨hfirst, hrest⟩, fun ⟨hfirst, hrest⟩ => ⟨(), hfirst, hrest⟩⟩

theorem mapM_eq_ok {f : α → Except ε β} {l : List α} {l' : List β} :
    l.mapM f = .ok l' ↔ List.Forall₂ (fun a b => f a = .ok b) l l' := by
  induction l generalizing l' with
  | nil => simp [pure, Except.pure, eq_comm]
  | cons a l ih =>
      rw [List.mapM_cons, List.forall₂_cons_left_iff]
      simp only [bind_eq_ok, ih]
      constructor
      · rintro ⟨b, hb, rest, hrest, hl'⟩
        exact ⟨b, rest, hb, hrest, (Except.ok.inj hl').symm⟩
      · rintro ⟨b, rest, hb, hrest, rfl⟩
        exact ⟨b, hb, rest, hrest, rfl⟩

theorem exists_of_mem_mapM {f : α → Except ε β} {l : List α} {l' : List β}
    (hmap : l.mapM f = .ok l') {b : β} (hb : b ∈ l') : ∃ a ∈ l, f a = .ok b := by
  rw [mapM_eq_ok] at hmap
  induction hmap with
  | nil => simp at hb
  | cons hfirst _ ih =>
      rcases List.mem_cons.mp hb with rfl | hb
      · exact ⟨_, List.mem_cons_self, hfirst⟩
      · obtain ⟨a, ha, hfa⟩ := ih hb
        exact ⟨a, List.mem_cons_of_mem _ ha, hfa⟩

end PyError
