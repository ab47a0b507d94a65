import ConceptResolution.Declaration.Concept
import ConceptResolution.Declaration.Instance
import ConceptResolution.Index

namespace ConceptResolution

/-- Put an entry in the place of the one with the same name, or at the end if there is none. -/
def putNamed {α : Type} (name : α → String) (a : α) : List α → List α
  | [] => [a]
  | b :: bs => if name b = name a then a :: bs else b :: putNamed name a bs

/-- An index of entries by name. Of several with one name the first counts. -/
def indexByName {α : Type} (name : α → String) (as : List α) : Index String α :=
  .ofList (as.map fun a => (name a, a))

theorem find?_indexByName {α : Type} (name : α → String) (as : List α) (n : String) :
    (indexByName name as).find? n = as.find? fun a => name a == n := by
  rw [indexByName, Index.find?_ofList]
  induction as with
  | nil => rfl
  | cons a as ih =>
      rw [List.map_cons, List.lookup_cons, List.find?_cons, ih, BEq.comm]

structure Registry where
  concepts : List Concept
  /-- In the order in which their names were first registered. -/
  instances : List Instance
  /-- Pairs of a pattern and a concept that every type of this pattern satisfies. -/
  typeConcepts : List (Ty × Ty)

namespace Registry

def empty : Registry := ⟨[], [], []⟩

instance : Inhabited Registry := ⟨empty⟩

def addConcept (r : Registry) (c : Concept) : Registry :=
  { r with concepts := putNamed Concept.name c r.concepts }

def addInstance (r : Registry) (i : Instance) : Registry :=
  { r with instances := putNamed Instance.name i r.instances }

def addTypeConcept (r : Registry) (pattern concept : Ty) : Registry :=
  { r with typeConcepts := r.typeConcepts ++ [(pattern, concept)] }

def concept? (r : Registry) (name : String) : Option Concept :=
  r.concepts.find? fun c => c.name == name

def instance? (r : Registry) (name : String) : Option Instance :=
  r.instances.find? fun i => i.name == name

end Registry

end ConceptResolution
