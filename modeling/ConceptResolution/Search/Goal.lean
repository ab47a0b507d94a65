import ConceptResolution.Subst.Basic
import ConceptResolution.Ty.Fingerprint
import ConceptResolution.Ty.Print

namespace ConceptResolution

/-- The fresh variables of some types, each once, in order of first occurrence. -/
def freshVars (ts : List Ty) : List TyVar :=
  (Ty.varsAll ts).eraseDups.filter TyVar.isFresh

def canonicalVar (fresh : List TyVar) (v : TyVar) : TyVar :=
  match fresh.idxOf? v with
  | some i => ⟨String.ofList ('?' :: Nat.toDigits 10 i)⟩
  | none => v

def renameFresh (fresh : List TyVar) (ts : List Ty) : List Ty :=
  ts.map (Ty.subst fun v => .var (canonicalVar fresh v))

/-- Rename fresh variables by order of first occurrence, so that goals that differ in nothing else
become equal. -/
def canonical (ts : List Ty) : List Ty :=
  renameFresh (freshVars ts) ts

/-- An instance with the concepts it is wanted for. -/
structure Goal where
  name : String
  concepts : List Ty
  deriving DecidableEq

instance : Fingerprint Goal where
  fingerprint g := Ty.mixAllInto (Fingerprint.mixText 0 g.name) g.concepts

namespace Goal

def of (name : String) (concepts : List Ty) : Goal :=
  ⟨name, canonical concepts⟩

def text (g : Goal) : String :=
  g.name ++ "@" ++ Ty.sumText g.concepts

end Goal

inductive TrailError where
  /-- The goal is being worked on already. -/
  | repeated (goal : Goal)
  | tooDeep (limit : Nat)

def TrailError.message : TrailError → String
  | .repeated goal => "`" ++ goal.text ++ "` is already being resolved"
  | .tooDeep limit => "instance nesting exceeds " ++ toString limit ++ " levels"

/-- The goals that are being worked on, outermost first. -/
structure Trail where
  goals : List Goal

namespace Trail

def empty : Trail := ⟨[]⟩

instance : Inhabited Trail := ⟨empty⟩

def depth (t : Trail) : Nat :=
  t.goals.length

def names (t : Trail) : List String :=
  t.goals.map Goal.name

def extend (t : Trail) (goal : Goal) (maxDepth : Nat) : Except TrailError Trail :=
  if goal ∈ t.goals then .error (.repeated goal)
  else if maxDepth ≤ t.depth then .error (.tooDeep maxDepth)
  else .ok ⟨t.goals ++ [goal]⟩

def text (t : Trail) : String :=
  "[" ++ " -> ".intercalate (t.goals.map Goal.text) ++ "]"

end Trail

end ConceptResolution
