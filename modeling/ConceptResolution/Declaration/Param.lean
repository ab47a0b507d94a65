import ConceptResolution.Subst.Basic
import ConceptResolution.Ty.Print

namespace ConceptResolution

inductive ParamKind where
  /-- Stands for an instance and is solved by search. -/
  | witness
  /-- Is determined by other parameters. -/
  | associated
  /-- Has to be supplied. -/
  | ordinary
  deriving DecidableEq

def ParamKind.text : ParamKind → String
  | .witness => "witness"
  | .associated => "assoc"
  | .ordinary => "ordinary"

structure Param where
  var : TyVar
  kind : ParamKind
  constraints : List Ty

namespace Param

def ordinary (v : TyVar) : Param := ⟨v, .ordinary, []⟩

def associated (v : TyVar) : Param := ⟨v, .associated, []⟩

def witness (v : TyVar) (constraints : List Ty) : Param := ⟨v, .witness, constraints⟩

def isWitness (p : Param) : Bool :=
  p.kind == .witness

def ty (p : Param) : Ty :=
  .var p.var

/-- Substitution reaches the constraints; the parameter keeps its name. -/
def apply (s : Subst) (p : Param) : Param :=
  { p with constraints := s.applyAll p.constraints }

/-- The written form of a parameter: `witness 'w: Eq['t] + Show['t]`. -/
def text (p : Param) : String :=
  let head := match p.kind with
    | .witness => "witness "
    | .associated => "assoc "
    | .ordinary => ""
  let tail := if p.constraints.isEmpty then "" else ": " ++ Ty.sumText p.constraints
  head ++ p.var.name ++ tail

end Param

end ConceptResolution
