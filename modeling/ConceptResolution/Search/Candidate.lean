import ConceptResolution.Search.Diagnostic
import ConceptResolution.Search.Fresh
import ConceptResolution.Search.Scope

namespace ConceptResolution

/-- A piece of evidence whose own parameters have been renamed to fresh variables. -/
structure Instantiated where
  source : Evidence
  /-- The renamed parameters. -/
  params : List Param
  /-- The concepts provided, over the renamed parameters. -/
  provides : List Ty
  /-- The evidence as a type, over the renamed parameters. -/
  ty : Ty
  params_of_isGiven : source.isGiven = true → params = []

/-- A candidate that fits so far: the type it stands at and the substitution that makes it fit. -/
structure Viable where
  candidate : Instantiated
  ty : Ty
  subst : Subst

def Viable.name (v : Viable) : String :=
  v.candidate.source.name

inductive Verdict where
  | viable (v : Viable)
  | rejected (name : String) (diagnostics : List Diagnostic)

namespace Verdict

def viable? : Verdict → Option Viable
  | viable v => some v
  | rejected _ _ => none

def diagnostics : Verdict → List Diagnostic
  | viable _ => []
  | rejected _ ds => ds

end Verdict

/-- Rename the parameters of a piece of evidence; a given witness is used as it is. -/
def Evidence.instantiate (e : Evidence) (supply : VarSupply) : Instantiated × VarSupply :=
  match e with
  | .given p => (⟨.given p, [], p.constraints, p.ty, fun _ => rfl⟩, supply)
  | .declared i =>
    let old := i.params.map Param.var
    let (new, supply) := supply.mintAll old
    let rename := Subst.ofList (old.zip (new.map .var))
    let params := i.params.map fun p =>
      ⟨rename.applyVar p.var, p.kind, rename.applyAll p.constraints⟩
    (⟨.declared i, params, rename.applyAll i.provides, rename.apply i.ty, nofun⟩, supply)

/-- A failed attempt: the depth at which it was made, and what it reported. -/
structure Failure where
  depth : Nat
  diagnostics : List Diagnostic

/-- What a search remembers from one attempt to the next. -/
structure Memory where
  failures : Index Goal Failure
  /-- How many goals have been rejected because they were being worked on already. -/
  cycles : Nat
  supply : VarSupply

namespace Memory

def empty : Memory := ⟨.empty, 0, ⟨0⟩⟩

instance : Inhabited Memory := ⟨empty⟩

/-- What a goal's failure reported. A failure counts at the depth at which it was noted, and deeper.
-/
def known? (m : Memory) (goal : Goal) (depth : Nat) : Option (List Diagnostic) :=
  match m.failures.find? goal with
  | some f => if f.depth ≤ depth then some f.diagnostics else none
  | none => none

def remember (m : Memory) (goal : Goal) (f : Failure) : Memory :=
  { m with failures := m.failures.insert goal f }

def countCycle (m : Memory) : Memory :=
  { m with cycles := m.cycles + 1 }

end Memory

abbrev Search := StateM Memory

namespace Search

def instantiate (e : Evidence) : Search Instantiated :=
  modifyGet fun m =>
    let (i, supply) := e.instantiate m.supply
    (i, { m with supply })

def instantiateAll : List Evidence → Search (List Instantiated)
  | [] => return []
  | e :: es => return (← instantiate e) :: (← instantiateAll es)

end Search

end ConceptResolution
