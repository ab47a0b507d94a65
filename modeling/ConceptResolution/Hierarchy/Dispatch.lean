import ConceptResolution.Hierarchy.Closure

namespace ConceptResolution

inductive Dispatch where
  /-- The instance implements the method itself. -/
  | direct (target : Ty) (method : String)
  /-- The witness is a parameter and is called through. -/
  | receiver (witness : TyVar) (method : String)
  /-- The instance relies on the default body that a concept declares. -/
  | default (concept witness : Ty) (method : String)

def Dispatch.text : Dispatch → String
  | .direct target method => target.text ++ "::" ++ method
  | .receiver witness method => witness.name ++ "." ++ method
  | .default concept witness method =>
    concept.text ++ "::default::" ++ method ++ "<" ++ witness.text ++ ">"

namespace ConceptModel

variable (M : ConceptModel)

def declaresMethod (method : String) (concept : Ty) : Bool :=
  (M.conceptOf? concept).any fun c => c.methods.contains method

def declaresDefault (method : String) (concept : Ty) : Bool :=
  (M.conceptOf? concept).any fun c => c.defaults.contains method

def implementsMethod (method : String) (witness : Ty) : Bool :=
  (M.instanceOf? witness).any fun i => i.methods.contains method

/-- The call of a method, if the witness implements it or the concept or a superconcept has it. -/
def dispatch? (witness concept : Ty) (method : String) : Option Dispatch :=
  let concepts := concept :: M.superClosure concept
  match witness with
  | .var v => if concepts.any (M.declaresMethod method) then some (.receiver v method) else none
  | witness =>
    if M.implementsMethod method witness then some (.direct witness method)
    else (concepts.find? (M.declaresDefault method)).map fun owner => .default owner witness method

end ConceptModel

end ConceptResolution
