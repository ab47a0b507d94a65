import ConceptResolution.Subst.Basic

namespace ConceptResolution

structure Concept where
  name : String
  params : List TyVar
  /-- The superconcepts, over the parameters. -/
  supers : List Ty
  methods : List String
  /-- The methods that have a default body. -/
  defaults : List String

namespace Concept

def ty (c : Concept) : Ty :=
  .generic c.name c.params

def supersAt (c : Concept) (applied : Ty) : List Ty :=
  (Subst.ofList (c.params.zip applied.args)).applyAll c.supers

end Concept

end ConceptResolution
