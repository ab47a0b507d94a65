import ConceptResolution.Search.Goal

namespace ConceptResolution

inductive Cause where
  | unsatisfiable
  /-- Several instances satisfy the concept and none is preferred. -/
  | ambiguous (names : List String)

structure Diagnostic where
  concept : Ty
  cause : Cause
  /-- The instances that were being resolved, outermost first. -/
  within : List String

namespace Diagnostic

def unsatisfiable (concept : Ty) (trail : Trail) : Diagnostic :=
  ⟨concept, .unsatisfiable, trail.names⟩

def ambiguous (concept : Ty) (names : List String) (trail : Trail) : Diagnostic :=
  ⟨concept, .ambiguous names, trail.names⟩

def isAmbiguous (d : Diagnostic) : Bool :=
  match d.cause with
  | .unsatisfiable => false
  | .ambiguous _ => true

def names (d : Diagnostic) : List String :=
  match d.cause with
  | .unsatisfiable => []
  | .ambiguous names => names

def message (d : Diagnostic) : String :=
  let problem := match d.cause with
    | .unsatisfiable => "no instance satisfies `" ++ d.concept.text ++ "`"
    | .ambiguous names =>
      "ambiguous instances for `" ++ d.concept.text ++ "`: " ++
        ", ".intercalate (names.map fun n => "`" ++ n ++ "`")
  match d.within.getLast? with
  | some inner => problem ++ " (required by `" ++ inner ++ "`)"
  | none => problem

end Diagnostic

end ConceptResolution
