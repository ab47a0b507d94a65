import ConceptResolution.Document.Basic
import ConceptResolution.Hierarchy.Dispatch
import ConceptResolution.Search.Completion

namespace ConceptResolution

namespace Document

def site (d : Document) (options : Options) : Site :=
  ⟨d.registry.model, d.scope, options⟩

/-- Why a list of arguments could not be completed: inference is repeated for its diagnostics. -/
def explain (site : Site) (params : List Param) (supplied : List Ty) (source : SourceLine) :
    Search Fault := do
  match interleave supplied params with
  | none => return .argumentCount (ordinaryCount params) supplied.length source
  | some args =>
    match ← site.infer params args .empty .empty with
    | .ok _ => return .unresolved [] source
    | .error diagnostics => return .unresolved diagnostics source

def answerResolve (site : Site) (params : List Param) (supplied : List Ty) (source : SourceLine) :
    Search (Except Fault String) := do
  match ← site.completeArgs supplied params true with
  | some args => return .ok ("[" ++ Ty.listText args ++ "]")
  | none => return .error (← explain site params supplied source)

def answerCall (site : Site) (method : String) (concept : Ty) (source : SourceLine) :
    Search (Except Fault String) := do
  match ← site.resolveUnder [concept] .empty .empty with
  | .error diagnostics => return .error (.unresolved diagnostics source)
  | .ok v =>
    match site.model.dispatch? v.ty concept method with
    | some plan => return .ok plan.text
    | none => return .error (.noMethod v.ty method concept source)

/-- The answer to a query. No query knows what another one remembered. -/
def answer (d : Document) (options : Options) (q : Query) : Except Fault String :=
  let site := d.site options
  let search := match q.question with
    | .resolve params supplied => answerResolve site params supplied q.source
    | .call method concept => answerCall site method concept q.source
  (search.run .empty).1

end Document

end ConceptResolution
