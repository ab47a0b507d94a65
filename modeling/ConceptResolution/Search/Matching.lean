import ConceptResolution.Search.Candidate

namespace ConceptResolution

structure Options where
  /-- How many goals may be nested in one another. -/
  maxDepth : Nat
  /-- Whether to prefer instances whose witnesses say more about their type arguments. -/
  preferMentions : Bool

def Options.standard : Options := ⟨32, true⟩

structure Site where
  model : ConceptModel
  scope : Scope
  options : Options

namespace Site

variable (site : Site)

/-- Make the first provided concept that can be equal a required one, under a substitution. -/
def meet (provided : List Ty) (s : Subst) (concept : Ty) : Option Subst :=
  provided.findSome? fun p => (unify site.scope.bound p concept s).toOption

def meetAll (required : List Ty) (i : Instantiated) : Option Subst :=
  required.foldlM (site.meet (site.model.expand i.provides)) .empty

def viable? (required : List Ty) (i : Instantiated) : Option Viable :=
  (site.meetAll required i).map fun s => ⟨i, s.apply i.ty, s⟩

/-- The evidence in scope that provides everything required. -/
def matching (required : List Ty) : Search (List Viable) := do
  return (← Search.instantiateAll site.scope.evidence).filterMap (site.viable? required)

def anyProvides (concept : Ty) : List Evidence → Search Bool
  | [] => return false
  | e :: es => do
    if (site.meetAll [concept] (← Search.instantiate e)).isSome then return true
    else anyProvides concept es

/-- The first of some concepts that no evidence in scope provides. -/
def unprovided? : List Ty → Search (Option Ty)
  | [] => return none
  | c :: cs => do
    if ← site.anyProvides c site.scope.evidence then unprovided? cs
    else return some c

end Site

end ConceptResolution
