import Oberon.Syntax.Node
import Oberon.Syntax.Parser

/-!
# Reading several items from one token list

A reader reads modules and expressions from one token list, each from where the one before it
stopped, also if that one failed.  It has no budget for each construct: it counts the procedures,
types and expressions that it is inside of, and every one that is entered is left again, however
it ends.
-/

namespace Oberon

namespace Cursor

def enter (c : Cursor) : Cursor :=
  { c with depth := c.depth + 1 }

def leave (c : Cursor) : Cursor :=
  { c with depth := c.depth - 1 }

end Cursor

namespace Reader

open Oberon.Parser

def nested {α : Type} (what : Nesting) (item : Parser α) : Parser α := fun c =>
  if c.depth = maxNesting then .error ⟨.lessNesting what, c⟩
  else
    match item.run c.enter with
    | .ok (x, c) => .ok (x, c.leave)
    | .error failure => .error { failure with cursor := failure.cursor.leave }

/-- An expression; the count of open constructs reaches its limit before `fuel` is used up. -/
def expression : (fuel : Nat) → Parser Expression
  | 0 => fail (.lessNesting .expressions)
  | fuel + 1 => nested .expressions (simpleExpression (expression fuel))

def type : (fuel : Nat) → Parser TypeExpr
  | 0 => fail (.lessNesting .types)
  | fuel + 1 => nested .types (typeForm (expression fuel) (type fuel))

def procedure : (fuel : Nat) → Parser ProcedureDeclaration
  | 0 => fail (.lessNesting .procedures)
  | fuel + 1 => nested .procedures (procedureBody (expression fuel) (type fuel) (procedure fuel))

def wholeModule : Parser Module :=
  whole (moduleBody (expression (maxNesting + 1)) (type (maxNesting + 1))
    (procedure (maxNesting + 1)))

def wholeExpression : Parser Expression :=
  whole (expression (maxNesting + 1))

inductive Call where
  | module
  | expression
deriving DecidableEq, Repr

def Call.run : Call → Cursor → Except SyntaxError Node × Cursor
  | module, c =>
    let (result, c) := wholeModule.runAt c
    (result.map .root, c)
  | expression, c =>
    let (result, c) := wholeExpression.runAt c
    (result.map .expression, c)

def after (calls : List Call) (c : Cursor) : Cursor :=
  calls.foldl (fun c call => (call.run c).2) c

def answers : List Call → Cursor → List (Except SyntaxError Node)
  | [], _ => []
  | call :: calls, c =>
    let (result, c) := call.run c
    result :: answers calls c

end Reader

end Oberon
