import ConceptResolution.Search.Inference

namespace ConceptResolution

namespace Param

def isOrdinary (p : Param) : Bool :=
  p.kind == .ordinary

def isAssociated (p : Param) : Bool :=
  p.kind == .associated

end Param

def ordinaryCount (params : List Param) : Nat :=
  params.countP Param.isOrdinary

def handOut : List Ty → List Param → List (Option Ty)
  | _, [] => []
  | supplied, p :: params =>
    if p.isOrdinary then supplied.head? :: handOut supplied.tail params
    else none :: handOut supplied params

def interleave (supplied : List Ty) (params : List Param) : Option (List (Option Ty)) :=
  if ordinaryCount params = supplied.length then some (handOut supplied params) else none

/-- Whether associated parameters may stand for themselves: there are some, and no witness to
determine them. -/
def mayStayOpen (params : List Param) : Bool :=
  params.any Param.isAssociated && !params.any Param.isWitness

/-- Infer all arguments from the supplied ordinary ones. With `keepOpen`, associated parameters that
nothing determines may stand for themselves. -/
def Site.completeArgs (site : Site) (supplied : List Ty) (params : List Param) (keepOpen : Bool) :
    Search (Option (List Ty)) := do
  match interleave supplied params with
  | none => return none
  | some args =>
    match ← site.infer params args .empty .empty with
    | .ok s => return some (params.map fun p => s.lookup p.var)
    | .error _ =>
      if keepOpen && mayStayOpen params then
        return some ((args.zip params).map fun a => a.1.getD a.2.ty)
      else
        return none

end ConceptResolution
