import ConceptResolution.Hierarchy.Closure

namespace ConceptResolution

namespace ConceptModel

variable (M : ConceptModel)

/-- The concepts a type satisfies: a given variable its constraints, an instance what it provides,
and any other type what it declares, each with its superconcepts. -/
def conceptsOf (givens : List Param) (t : Ty) : List Ty :=
  match t with
  | .var v =>
    match givens.find? fun p => p.var == v with
    | some p => M.expand p.constraints
    | none => []
  | t =>
    match M.instanceOf? t with
    | some i => M.expand (i.providesAt t)
    | none => M.expand (M.declared t)

def satisfies (givens : List Param) (t concept : Ty) : Bool :=
  (M.conceptsOf givens t).contains concept

/-- The concepts of a list that the others do not imply; of concepts that imply each other the first
is kept. `before` holds the concepts that precede the list. -/
def coverFrom (before : List Ty) : List Ty → List Ty
  | [] => []
  | c :: after =>
    if before.any (fun d => M.implies d c) ||
        after.any (fun d => M.implies d c && !M.implies c d) then
      coverFrom (before ++ [c]) after
    else
      c :: coverFrom (before ++ [c]) after

/-- The concepts that the argument of a parameter has to satisfy under a substitution: its distinct
constraints less those implied by others. -/
def required (p : Param) (s : Subst) : List Ty :=
  M.coverFrom [] (s.applyAll p.constraints).eraseDups

end ConceptModel

end ConceptResolution
