import ConceptResolution.Text.Chars
import ConceptResolution.Ty.Print

namespace ConceptResolution

inductive SyntaxError where
  /-- Another token was wanted than the one found. -/
  | expected (wanted found : String)
  | expectedType (found : String)
  | trailing (found : String)
  /-- A quote without a name after it. -/
  | unnamedParam
  | notParam (found : Ty)
  | witnessWithoutConcept (v : TyVar)
  | notConceptName (found : Ty)
  | notConceptParam (found : Ty)
  | unnamedInstance
  | unnamedMethod
  | unnamedCall
  /-- Overlap modifiers in front of something else than an instance. -/
  | misplacedOverlap
  | unknownDeclaration (text : String)

namespace SyntaxError

/-- How the text ahead is quoted in a message: its first twelve characters, blanks at its ends
apart. -/
def describe (text : List Char) : String :=
  match Text.trim text with
  | [] => "end of input"
  | cs => "`" ++ String.ofList (cs.take 12) ++ "`"

def message : SyntaxError → String
  | .expected wanted found => "expected `" ++ wanted ++ "`, found " ++ found
  | .expectedType found => "expected a type, found " ++ found
  | .trailing found => "unexpected trailing input " ++ found
  | .unnamedParam => "expected a type parameter name after `'`"
  | .notParam t => "expected a type parameter like `'t`, found `" ++ t.text ++ "`"
  | .witnessWithoutConcept v => "witness parameter `" ++ v.name ++ "` needs at least one concept"
  | .notConceptName t => "expected a concept name, found `" ++ t.text ++ "`"
  | .notConceptParam t => "concept parameters must be variables, found `" ++ t.text ++ "`"
  | .unnamedInstance => "expected an instance name"
  | .unnamedMethod => "expected a method name"
  | .unnamedCall => "expected a method name after `call`"
  | .misplacedOverlap => "overlap modifiers only apply to `instance`"
  | .unknownDeclaration text => "unknown declaration `" ++ text ++ "`"

end SyntaxError

end ConceptResolution
