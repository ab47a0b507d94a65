import ConceptResolution.Document.Fault
import ConceptResolution.Search.Scope
import ConceptResolution.Syntax.Declaration

namespace ConceptResolution

inductive Question where
  | resolve (params : List Param) (supplied : List Ty)
  | call (method : String) (concept : Ty)

structure Query where
  question : Question
  source : SourceLine

structure Document where
  registry : Registry
  /-- Parameters in scope at every query. -/
  givens : List Param
  queries : List Query

namespace Document

def empty : Document := ⟨.empty, [], []⟩

def ask (d : Document) (q : Query) : Document :=
  { d with queries := d.queries ++ [q] }

def add (d : Document) (source : SourceLine) : Statement → Document
  | .concept c => { d with registry := d.registry.addConcept c }
  | .decl i => { d with registry := d.registry.addInstance i }
  | .type pattern concepts =>
    { d with registry := concepts.foldl (fun r c => r.addTypeConcept pattern c) d.registry }
  | .given params => { d with givens := d.givens ++ params }
  | .resolve params supplied => d.ask ⟨.resolve params supplied, source⟩
  | .call method concept => d.ask ⟨.call method concept, source⟩

def stripComment (line : List Char) : List Char :=
  line.takeWhile (· ≠ '#')

/-- Take a line into account. A line that is blank, comments apart, says nothing. -/
def addLine (file : String) (d : Document) (line : List Char × Nat) :
    Except Fault Document :=
  let source : SourceLine := ⟨file, line.2, String.ofList line.1⟩
  let content := stripComment line.1
  if content.all Text.isBlank then .ok d
  else
    match Statement.read content with
    | .ok s => .ok (d.add source s)
    | .error e => .error (.malformed e source)

def read (file text : String) : Except Fault Document :=
  (Text.lines text.toList).zipIdx.foldlM (addLine file) empty

def scope (d : Document) : Scope :=
  .ofParams d.registry.instances d.givens

end Document

end ConceptResolution
