import Oberon.Error
import Oberon.Syntax.Parser
import Oberon.Token.Scanner

/-!
# From source text to trees

A source text starts on line one.  It is split into tokens and then parsed, so a lexical error
anywhere comes before any syntax error.
-/

namespace Oberon

namespace Source

def tokens (source : String) : Except Error (List LocatedToken) :=
  match Scanner.scan source 1 with
  | .ok (tokens, _) => .ok tokens
  | .error failure => .error (.lexical failure.error)

def moduleOfTokens (tokens : List LocatedToken) : Except Error Module :=
  (Parser.parseModule tokens).mapError .grammatical

def module (source : String) : Except Error Module :=
  (tokens source).bind moduleOfTokens

def expression (source : String) : Except Error Expression :=
  (tokens source).bind fun tokens => (Parser.parseExpression tokens).mapError .grammatical

end Source

end Oberon
