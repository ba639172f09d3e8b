import Oberon.Decimal.Text
import Oberon.Symbol
import Oberon.Syntax

/-!
# Values of constants

Constants are integers of 64 bits, reals, booleans and strings.
-/

namespace Oberon

inductive ValueType where
  | integer
  | real
  | boolean
  | string
deriving DecidableEq, Repr

def ValueType.text : ValueType → String
  | integer => "INTEGER"
  | real => "REAL"
  | boolean => "BOOLEAN"
  | string => "string"

inductive Value where
  | integer (value : Int64)
  | real (value : Float)
  | boolean (value : Bool)
  | string (content : String)
deriving DecidableEq

namespace Value

def type : Value → ValueType
  | integer _ => .integer
  | real _ => .real
  | boolean _ => .boolean
  | string _ => .string

def text : Value → String
  | integer value => Int.repr value.toInt
  | real value => Real.valueText value
  | boolean value => Predeclared.booleanText value
  | string content => "\"" ++ content ++ "\""

def toReal? : Value → Option Float
  | integer value => some (Float.ofInt value.toInt)
  | real value => some value
  | _ => none

end Value

def Number.value : Number → Value
  | integer value => .integer value
  | real value => .real value

end Oberon
