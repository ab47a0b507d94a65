import ConceptResolution.Roster
import ConceptResolution.Subst.Compose
import ConceptResolution.Ty.Print

/-!
Unification of a provided type with a required one, under a substitution found so far. Rigid
variables unify with nothing but themselves.
-/

namespace ConceptResolution

inductive UnifyError where
  /-- The types start differently. -/
  | mismatch (provided required : Ty)
  /-- The types start alike and differ in the number of their parts. -/
  | arity (provided required : Ty)
  /-- The variable occurs in the type it would have to equal. -/
  | occurs (v : TyVar) (t : Ty)
  | rigid (v : TyVar) (t : Ty)
  /-- The levels are used up, as happens where the substitution makes types infinite. -/
  | cyclic (provided required : Ty)

def UnifyError.message : UnifyError → String
  | .mismatch p r => "`" ++ p.text ++ "` does not unify with `" ++ r.text ++ "`"
  | .arity p r => "`" ++ p.text ++ "` and `" ++ r.text ++ "` have different numbers of arguments"
  | .occurs v t => "`" ++ v.name ++ "` occurs in `" ++ t.text ++ "` (infinite type)"
  | .rigid v t => "bound parameter `" ++ v.name ++ "` cannot be unified with `" ++ t.text ++ "`"
  | .cyclic p r => "`" ++ p.text ++ "` and `" ++ r.text ++ "` are infinite under the substitution"

def bindVar (rigid : List TyVar) (v : TyVar) (t : Ty) (s : Subst) : Except UnifyError Subst :=
  if t = .var v then .ok s
  else if v ∈ rigid then .error (.rigid v t)
  else if t.mentions v then .error (.occurs v t)
  else .ok ((Subst.single v t).compose s)

/-- Of two variables the provided one is bound if it may be, so that the required name survives. -/
def bindVars (rigid : List TyVar) (v w : TyVar) (s : Subst) : Except UnifyError Subst :=
  if v = w then .ok s
  else if v ∉ rigid then bindVar rigid v (.var w) s
  else if w ∉ rigid then bindVar rigid w (.var v) s
  else .error (.rigid v (.var w))

/-- The parts that have to unify, pair by pair, for two types to unify that start alike. -/
def partsOf : Ty → Ty → Except UnifyError (List (Ty × Ty))
  | .const a, .const b =>
    if a = b then .ok [] else .error (.mismatch (.const a) (.const b))
  | .app a ts, .app b us =>
    if a ≠ b then .error (.mismatch (.app a ts) (.app b us))
    else if ts.length ≠ us.length then .error (.arity (.app a ts) (.app b us))
    else .ok (ts.zip us)
  | .fn ps p, .fn qs q =>
    if ps.length ≠ qs.length then .error (.arity (.fn ps p) (.fn qs q))
    else .ok (ps.zip qs ++ [(p, q)])
  | .tuple ts, .tuple us =>
    if ts.length ≠ us.length then .error (.arity (.tuple ts) (.tuple us))
    else .ok (ts.zip us)
  | t, u => .error (.mismatch t u)

def unifyWithin (rigid : List TyVar) : Nat → Ty → Ty → Subst → Except UnifyError Subst
  | 0, provided, required, _ => .error (.cyclic provided required)
  | levels + 1, provided, required, s =>
    match s.apply provided, s.apply required with
    | .var v, .var w => bindVars rigid v w s
    | .var v, t => bindVar rigid v t s
    | t, .var v => bindVar rigid v t s
    | t, u => do
      (← partsOf t u).foldlM (fun s pair => unifyWithin rigid levels pair.1 pair.2 s) s

/-- No fewer than the different variables of a list. Among many, repetitions are left out. -/
def varBound (vs : List TyVar) : Nat :=
  if vs.length ≤ 4096 then vs.length else (Roster.ofList vs).size

/-- Enough levels under a substitution in solved form: every variable that gets bound at most
doubles the height of the types that are still to be looked at. -/
def unifyLevels (provided required : Ty) (s : Subst) : Nat :=
  let images := s.bindings.map Prod.snd
  let n := varBound (provided.vars ++ required.vars ++ Ty.varsAll images)
  let height := provided.height + required.height + Ty.heightAll images
  (n + 1) * (height * Nat.pow 2 n + 1)

def unify (rigid : List TyVar) (provided required : Ty) (s : Subst) : Except UnifyError Subst :=
  unifyWithin rigid (unifyLevels provided required s) provided required s

end ConceptResolution
