import Graft.Decimal.Positional
import Graft.Term.Basic
import Graft.Text.Quoted

/-! # Outlines

A term as indented text, one line a term, two blanks a level.  A line names the
term and, where it says something, the context of its evaluation.
-/

namespace Graft

/-- A literal in an outline. -/
def Constant.label : Constant → String
  | double x => "constant double " ++ Decimal.text x
  | int i => "constant int " ++ toString i.toInt
  | uint u => "constant uint " ++ toString u.toNat
  | str s => "constant string " ++ Text.quote s
  | undefined => "constant undef"

/-- A variable in an outline, with its type and slot. -/
def Scope.label (scope : Scope) (d : DeclId) : String :=
  match scope.get? d with
  | some v => v.name ++ " : " ++ v.type.name ++ " @ " ++ v.slot.text
  | none => "<unknown declaration " ++ toString d.index ++ ">"

def Leaf.label (scope : Scope) : Leaf → String
  | constant c => c.label
  | declaration d => "my " ++ scope.label d
  | lexical d => "lexical " ++ scope.label d
  | global name => "global " ++ name
  | hostTree => "optree"

def Control.label : Control → String
  | whileLoop => "while"
  | doWhile => "do-while"
  | forLoop => "for"
  | foreach => "foreach"
  | block => "block"
  | map => "map"
  | grep => "grep"

namespace Term

/-- The name of a term in an outline. -/
def label (scope : Scope) : Term → String
  | leaf _ l => l.label scope
  | op a c b ts =>
    c.kind.name ++ " " ++ c.name ++ (if (op a c b ts).isAssigning then "=" else "")
  | statement _ _ => "statement"
  | sequence _ _ => "sequence"
  | control _ f _ => f.label

/-- The context, where it is neither open nor void. -/
def contextMark (t : Term) : String :=
  match t.context with
  | .unresolved | .void => ""
  | c => " <" ++ c.name ++ ">"

/-- The line of one term, without what is below it. -/
def line (scope : Scope) (level : Nat) (t : Term) : String :=
  String.ofList (List.replicate (2 * level) ' ') ++ t.label scope ++ t.contextMark ++ "\n"

mutual

/-- The lines of a term and of all terms below it. -/
def outlineFrom (scope : Scope) (level : Nat) : Term → String
  | leaf a l => (leaf a l).line scope level
  | op a c b ts => (op a c b ts).line scope level ++ outlinesFrom scope (level + 1) ts
  | statement a t => (statement a t).line scope level ++ t.outlineFrom scope (level + 1)
  | sequence a ts => (sequence a ts).line scope level ++ outlinesFrom scope (level + 1) ts
  | control a f ts => (control a f ts).line scope level ++ outlinesFrom scope (level + 1) ts

def outlinesFrom (scope : Scope) (level : Nat) : List Term → String
  | [] => ""
  | t :: ts => t.outlineFrom scope level ++ outlinesFrom scope level ts

end

/-- The outline of a term. -/
def outline (scope : Scope) (t : Term) : String := t.outlineFrom scope 0

end Term

end Graft
