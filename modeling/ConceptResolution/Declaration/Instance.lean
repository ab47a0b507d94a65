import ConceptResolution.Declaration.Param

namespace ConceptResolution

structure Overlap where
  /-- It may displace other instances. -/
  overlapping : Bool
  /-- It may be displaced by other instances. -/
  overlappable : Bool
  deriving DecidableEq

def Overlap.neither : Overlap := ⟨false, false⟩

structure Instance where
  name : String
  params : List Param
  /-- The concepts this instance provides, over its parameters. -/
  provides : List Ty
  overlap : Overlap
  /-- The methods this instance implements itself. -/
  methods : List String

namespace Instance

def ty (i : Instance) : Ty :=
  .generic i.name (i.params.map Param.var)

def providesAt (i : Instance) (applied : Ty) : List Ty :=
  (Subst.ofList ((i.params.map Param.var).zip applied.args)).applyAll i.provides

end Instance

end ConceptResolution
