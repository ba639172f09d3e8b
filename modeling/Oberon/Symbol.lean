import Oberon.Scope

/-!
# Symbols

What declared names stand for.  A name is declared at most once in a scope, so the first declaration
counts.
-/

namespace Oberon

inductive SymbolKind where
  | module
  | constant
  | type
  | variable
  | parameter
  | procedure
deriving DecidableEq, Repr

namespace SymbolKind

def all : List SymbolKind :=
  [.module, .constant, .type, .variable, .parameter, .procedure]

def text : SymbolKind → String
  | .module => "module"
  | .constant => "constant"
  | .type => "type"
  | .variable => "variable"
  | .parameter => "parameter"
  | .procedure => "procedure"

end SymbolKind

structure Symbol where
  kind : SymbolKind
  exported : Bool
deriving DecidableEq, Repr

namespace Predeclared

def types : List String :=
  ["BOOLEAN", "CHAR", "INTEGER", "REAL", "LONGINT", "LONGREAL", "BYTE", "SET"]

def boolean? : String → Option Bool
  | "TRUE" => some true
  | "FALSE" => some false
  | _ => none

def booleanText : Bool → String
  | true => "TRUE"
  | false => "FALSE"

end Predeclared

inductive SymbolError where
  /-- The name is declared in the innermost scope already. -/
  | alreadyDefined (name : String)
  /-- A symbol needs a name. -/
  | invalidIdentifier (name : String)
  /-- The outermost scope cannot be left. -/
  | underflow
deriving DecidableEq, Repr

abbrev SymbolTable :=
  Scopes Symbol

namespace SymbolTable

/-- A table whose outermost scope holds the predeclared types and boolean constants. -/
def predeclared : SymbolTable where
  inner := []
  outermost :=
    Predeclared.types.map (fun name => (name, ⟨.type, false⟩)) ++
      [("TRUE", ⟨.constant, false⟩), ("FALSE", ⟨.constant, false⟩)]

def insert (table : SymbolTable) (name : String) (symbol : Symbol) :
    Except SymbolError SymbolTable :=
  if name = "" then .error (.invalidIdentifier name)
  else if table.isLocal name then .error (.alreadyDefined name)
  else .ok (table.bind name symbol)

def drop (table : SymbolTable) : Except SymbolError SymbolTable :=
  match table.pop? with
  | some outer => .ok outer
  | none => .error .underflow

end SymbolTable

end Oberon
