import ConceptResolution.Declaration.Registry
import ConceptResolution.Syntax.Type

/-!
Reading declarations, one to a line:

    concept Ord['a] : Eq['a] { lt, default le }
    type string : Eq[string] + Show[string]
    overlappable instance ListEq[assoc 't, witness 'w: Eq['t]] : Eq[list['t]]
    given 's, witness 'e: Eq['s]
    resolve ['t, witness 'w: Eq['t]] (int)
    call ne : Eq[list[int]]
-/

namespace ConceptResolution

inductive Statement where
  | concept (c : Concept)
  | decl (i : Instance)
  /-- Types of a pattern satisfy some concepts. -/
  | type (pattern : Ty) (concepts : List Ty)
  /-- Parameters in scope at every query. -/
  | given (params : List Param)
  /-- Complete an argument list. -/
  | resolve (params : List Param) (supplied : List Ty)
  /-- Call a method of a concept on a witness for it. -/
  | call (method : String) (concept : Ty)

namespace Scan

def word (text : String) : Scan SyntaxError Bool :=
  keyword text.toList

def symbol (text : String) : Scan SyntaxError Bool :=
  eat text.toList

def name (missing : SyntaxError) : Scan SyntaxError String := do
  match ← ident with
  | [] => fail missing
  | cs => return String.ofList cs

def paramKind : Scan SyntaxError ParamKind := do
  if ← word "witness" then return .witness
  else if ← word "assoc" then return .associated
  else return .ordinary

def paramVar : Scan SyntaxError TyVar := do
  match ← ty with
  | .var v => if v.isParam then return v else fail (.notParam (.var v))
  | t => fail (.notParam t)

def optionalSum : Scan SyntaxError (List Ty) := do
  if ← symbol ":" then tySum else return []

/-- A parameter: `'x`, `assoc 'x` or `witness 'x: C + D`. -/
def declParam : Scan SyntaxError Param := do
  let kind ← paramKind
  let v ← paramVar
  let constraints ← optionalSum
  if kind = .witness ∧ constraints.isEmpty then fail (.witnessWithoutConcept v)
  else return ⟨v, kind, constraints⟩

def declParams : Scan SyntaxError (List Param) :=
  sepBy [','] declParam

def bracketedParams : Scan SyntaxError (List Param) := do
  expect ['[']
  if ← symbol "]" then
    return []
  else
    let params ← declParams
    expect [']']
    return params

/-- The methods up to a closing brace, each with a flag for a default body. The last one may be
followed by a comma. -/
def methodsWithin : Nat → Scan SyntaxError (List (Bool × String))
  | 0 => fail .unnamedMethod
  | n + 1 => do
    if ← symbol "\x7d" then
      return []
    else
      let isDefault ← word "default"
      let method ← name .unnamedMethod
      if ← symbol "," then
        return (isDefault, method) :: (← methodsWithin n)
      else
        expect ['\x7d']
        return [(isDefault, method)]

def methods : Scan SyntaxError (List (Bool × String)) := do
  if ← symbol "\x7b" then
    fun text => methodsWithin (text.length + 1) text
  else
    return []

def conceptParam : Ty → Scan SyntaxError TyVar
  | .var v => return v
  | t => fail (.notConceptParam t)

def concept : Scan SyntaxError Concept := do
  let applied ← ty
  match applied.head? with
  | none => fail (.notConceptName applied)
  | some conceptName =>
    let params ← applied.args.mapM conceptParam
    let supers ← optionalSum
    let declared ← methods
    return {
      name := conceptName
      params
      supers
      methods := declared.map Prod.snd
      defaults := (declared.filter Prod.fst).map Prod.snd }

def decl (overlap : Overlap) : Scan SyntaxError Instance := do
  let declName ← name .unnamedInstance
  let params ← if (← peek) = some '[' then bracketedParams else pure []
  expect [':']
  let provides ← tySum
  let implemented ← methods
  return { name := declName, params, provides, overlap, methods := implemented.map Prod.snd }

def overlapWithin : Nat → Overlap → Scan SyntaxError Overlap
  | 0, overlap => return overlap
  | n + 1, overlap => do
    if ← word "overlapping" then overlapWithin n { overlap with overlapping := true }
    else if ← word "overlappable" then overlapWithin n { overlap with overlappable := true }
    else return overlap

def overlap : Scan SyntaxError Overlap :=
  fun text => overlapWithin text.length .neither text

/-- A statement, without what may follow it. `whole` is quoted if no statement starts here. -/
def statement (whole : List Char) : Scan SyntaxError Statement := do
  let flags ← overlap
  if flags ≠ .neither then
    if ← word "instance" then return .decl (← decl flags)
    else fail .misplacedOverlap
  else if ← word "instance" then
    return .decl (← decl .neither)
  else if ← word "concept" then
    return .concept (← concept)
  else if ← word "type" then
    let pattern ← ty
    expect [':']
    return .type pattern (← tySum)
  else if ← word "given" then
    return .given (← declParams)
  else if ← word "resolve" then
    let params ← bracketedParams
    return .resolve params (← tuple)
  else if ← word "call" then
    let method ← name .unnamedCall
    expect [':']
    return .call method (← ty)
  else
    fail (.unknownDeclaration (String.ofList (Text.trim whole)))

end Scan

def Statement.read (line : List Char) : Except SyntaxError Statement :=
  Scan.run (do let s ← Scan.statement line; Scan.expectEnd; return s) line

end ConceptResolution
