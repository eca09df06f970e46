import Graft.Text.Blank

/-! # Value types

A declaration may say what its variable holds.  Three types are numeric and
unboxed, two are boxed values of any kind, and one is *hidden*: a variable whose
reads and writes run code of its own, so that only the interpreter may touch it.
-/

namespace Graft

/-- What is known of the values of a variable or a term. -/
inductive ValueType where
  | double
  | int
  | unsigned
  /-- A box. -/
  | scalar
  /-- Nothing is known; values are boxes. -/
  | any
  /-- Access runs code that is not in the program text. -/
  | hidden
deriving DecidableEq, Repr

/-- Why a text is no type. -/
inductive TypeError where
  | missing
  | unknown (text : String)
deriving DecidableEq, Repr

instance : Inhabited ValueType := ⟨.any⟩

namespace ValueType

def isInteger : ValueType → Bool
  | int | unsigned => true
  | _ => false

def isNumeric (t : ValueType) : Bool := t.isInteger || t == double

def isHidden (t : ValueType) : Bool := t == hidden

def isBoxed : ValueType → Bool
  | scalar | any => true
  | _ => false

/-- May a value of the first type be used where the second is wanted?  A hidden
value may be used nowhere, every other one as a double or as a box. -/
def coercesTo (source target : ValueType) : Bool :=
  if source = target then !source.isHidden
  else match target with
    | double | scalar | any => source.isNumeric || source.isBoxed
    | int | unsigned | hidden => false

/-- All types, in the order in which they are listed to users. -/
def all : List ValueType := [double, int, unsigned, scalar, any, hidden]

def name : ValueType → String
  | double => "Double"
  | int => "Int"
  | unsigned => "UInt"
  | scalar => "Scalar"
  | any => "Any"
  | hidden => "Opaque"

/-- The type of that name. -/
def ofName? (text : String) : Option ValueType := all.find? fun t => t.name == text

/-- The type that a text names, blanks around the name apart. -/
def parse (text : String) : Except TypeError ValueType :=
  let word := String.ofList (Text.trim text.toList)
  if word = "" then .error .missing
  else match ofName? word with
    | some t => .ok t
    | none => .error (.unknown word)

@[simp]
theorem ofName?_name (t : ValueType) : ofName? t.name = some t := by
  cases t <;> rfl

end ValueType

/-- The wording of a refused type. -/
def TypeError.message : TypeError → String
  | .missing => "missing type name"
  | .unknown text => "'" ++ text ++ "' does not name a type"

end Graft
