import ConceptResolution.Hierarchy.Closure

namespace ConceptResolution

/-- Whatever may serve as a witness. -/
inductive Evidence where
  /-- A witness parameter of the enclosing scope. -/
  | given (param : Param)
  | declared (decl : Instance)

namespace Evidence

def name : Evidence → String
  | given p => p.var.name
  | declared i => i.name

def overlap : Evidence → Overlap
  | given _ => .neither
  | declared i => i.overlap

def isGiven : Evidence → Bool
  | given _ => true
  | declared _ => false

end Evidence

structure Scope where
  /-- In the order in which it is tried; no two pieces share a name. -/
  evidence : List Evidence
  /-- The witness parameters among the evidence. -/
  givens : List Param
  /-- Variables that stand for fixed though unknown types. -/
  bound : List TyVar

namespace Scope

def empty : Scope := ⟨[], [], []⟩

instance : Inhabited Scope := ⟨empty⟩

/-- Add a piece of evidence unless its name is taken. -/
def add (s : Scope) (e : Evidence) : Scope :=
  if s.evidence.any fun f => f.name == e.name then s
  else
    { s with
      evidence := s.evidence ++ [e]
      givens := match e with
        | .given p => s.givens ++ [p]
        | .declared _ => s.givens }

def bind (s : Scope) (v : TyVar) : Scope :=
  if v ∈ s.bound then s else { s with bound := s.bound ++ [v] }

def isBound (s : Scope) (v : TyVar) : Bool :=
  s.bound.contains v

/-- Every parameter of a scope is bound in it, and its witness parameters are evidence. -/
def enter (s : Scope) (p : Param) : Scope :=
  if p.isWitness then (s.bind p.var).add (.given p) else s.bind p.var

/-- The scope of some parameters: their witnesses come first, then all declared instances. -/
def ofParams (instances : List Instance) (params : List Param) : Scope :=
  (instances.map Evidence.declared).foldl add (params.foldl enter empty)

/-- An argument is fixed if it is known and is not a variable that is free here. -/
def isFixed (s : Scope) : Option Ty → Bool
  | none => false
  | some (.var v) => s.isBound v
  | some _ => true

end Scope

end ConceptResolution
