import Graft.Term.Basic
import Graft.Text.Quoted

/-! # Diagnoses

Why a run of terms cannot be compiled.  A failed run is dropped as a whole, or ends
the compilation, as the options say.
-/

namespace Graft

/-- The reason for which a run of terms was refused. -/
inductive Diagnosis where
  /-- Text and undefined values are no constants of compiled code. -/
  | unsupportedConstant (value : Constant)
  /-- The target of an assignment is not a box; with no type, it is not even a value. -/
  | notAssignable (found : Option ValueType)
  /-- The value of an assignment is missing. -/
  | voidValue
  /-- The operand of an operator is missing. -/
  | voidNumber
  /-- An operator with two operands has no place for its result. -/
  | missingBinaryTarget
  /-- An operator with one operand has no place for its result. -/
  | missingUnaryTarget
  | unimplementedContext (context : Context)
  /-- A term that must be found in the graph does not say where it came from. -/
  | missingOrigin (description : String)
  | unresolvedContext
  /-- A term whose value is wanted has none. -/
  | missingScalar
  | unknownDeclaration (decl : DeclId)
  | emptyRun
deriving Repr

/-- A constant in a diagnosis. -/
def Constant.describe : Constant → String
  | double _ => "double"
  | int _ => "int"
  | uint _ => "uint"
  | str s => "string " ++ Text.quote s
  | undefined => "undef"

/-- The wording of a diagnosis. -/
def Diagnosis.message : Diagnosis → String
  | unsupportedConstant c => "Unable to emit this type of constant: " ++ c.describe
  | notAssignable found =>
    "Can only assign to scalars, got a " ++ (found.elim "void" ValueType.name)
  | voidValue => "Cannot assign a void value"
  | voidNumber => "Cannot use a void value as a number"
  | missingBinaryTarget => "Binary OP without target"
  | missingUnaryTarget => "Unary OP without target"
  | unimplementedContext c => c.title ++ " context not implemented"
  | missingOrigin what => "term has no originating instruction: " ++ what
  | unresolvedContext => "internal error: context not resolved before emission"
  | missingScalar => "internal error: scalar context produced no value"
  | unknownDeclaration d => "internal error: unknown declaration " ++ toString d.index
  | emptyRun => "internal error: empty batch"

/-- A term in a diagnosis. -/
def Term.describe : Term → String
  | .op _ c _ _ => c.name ++ " op"
  | .statement _ _ => "statement"
  | .sequence _ _ => "statement sequence"
  | .leaf _ (.constant _) => "constant"
  | .leaf _ (.lexical _) | .leaf _ (.declaration _) => "variable"
  | .leaf _ (.global name) => "global " ++ name
  | .leaf _ .hostTree | .control _ _ _ => "control-flow node"

end Graft
