/-!
Types as witness search sees them. Ordinary types, concept requirements such as `Eq[list['t]]` and
instances such as `ListEq[int, IntEq]` all share one representation.
-/

namespace ConceptResolution

/-- A type variable, known by its full spelling: `'t` for a parameter, `?t0` for a fresh one. -/
structure TyVar where
  name : String
  deriving DecidableEq, Inhabited

namespace TyVar

/-- Fresh variables, the ones minted during search, are spelled with a leading question mark. -/
def isFresh (v : TyVar) : Bool :=
  v.name.toList.head? == some '?'

/-- Parameters, the ones a user writes, are spelled with a leading quote. -/
def isParam (v : TyVar) : Bool :=
  v.name.toList.head? == some '\''

end TyVar

/-- A named type without arguments is a `const`; `app` with an empty argument list is a different
type. -/
inductive Ty where
  | const (name : String)
  | var (v : TyVar)
  | fn (params : List Ty) (result : Ty)
  | app (head : String) (args : List Ty)
  | tuple (elems : List Ty)

namespace Ty

@[elab_as_elim, induction_eliminator]
theorem induction {motive : Ty → Prop}
    (const : ∀ name, motive (.const name))
    (var : ∀ v, motive (.var v))
    (fn : ∀ params result, (∀ t ∈ params, motive t) → motive result →
      motive (.fn params result))
    (app : ∀ head args, (∀ t ∈ args, motive t) → motive (.app head args))
    (tuple : ∀ elems, (∀ t ∈ elems, motive t) → motive (.tuple elems)) :
    ∀ t, motive t :=
  @Ty.rec motive (fun ts => ∀ t ∈ ts, motive t) const var fn app tuple
    (fun _ h => nomatch h)
    (fun _ _ hhead htail => List.forall_mem_cons.2 ⟨hhead, htail⟩)

mutual

def beq : Ty → Ty → Bool
  | .const a, .const b => a == b
  | .var v, .var w => v == w
  | .fn ps r, .fn qs q => beqAll ps qs && r.beq q
  | .app a ts, .app b us => a == b && beqAll ts us
  | .tuple ts, .tuple us => beqAll ts us
  | _, _ => false

def beqAll : List Ty → List Ty → Bool
  | [], [] => true
  | t :: ts, u :: us => t.beq u && beqAll ts us
  | _, _ => false

end

private theorem beqAll_iff {ts : List Ty} (h : ∀ t ∈ ts, ∀ u, t.beq u = true ↔ t = u) :
    ∀ us, beqAll ts us = true ↔ ts = us := by
  induction ts with
  | nil => intro us; cases us <;> simp [beqAll]
  | cons t ts ih =>
      intro us
      obtain ⟨ht, hts⟩ := List.forall_mem_cons.1 h
      cases us with
      | nil => simp [beqAll]
      | cons u us => simp [beqAll, ht, ih hts]

theorem beq_iff (t u : Ty) : t.beq u = true ↔ t = u := by
  induction t generalizing u with
  | const name => cases u <;> simp [beq]
  | var v => cases u <;> simp [beq]
  | fn params result hparams hresult => cases u <;> simp [beq, beqAll_iff hparams, hresult]
  | app head args hargs => cases u <;> simp [beq, beqAll_iff hargs]
  | tuple elems helems => cases u <;> simp [beq, beqAll_iff helems]

instance : DecidableEq Ty :=
  fun t u => decidable_of_iff _ (beq_iff t u)

def unit : Ty := .tuple []

instance : Inhabited Ty := ⟨unit⟩

def bool : Ty := .const "bool"

def int : Ty := .const "int"

def string : Ty := .const "string"

def list (t : Ty) : Ty := .app "list" [t]

/-- A named type over arguments is a constant when there are none. -/
def named (name : String) (args : List Ty) : Ty :=
  if args.isEmpty then .const name else .app name args

/-- A named type over its own parameters. -/
def generic (name : String) (params : List TyVar) : Ty :=
  named name (params.map .var)

def head? : Ty → Option String
  | .const name | .app name _ => some name
  | _ => none

def args : Ty → List Ty
  | .app _ ts => ts
  | _ => []

/-- How many types stand directly inside this one; a function counts its result. -/
def arity : Ty → Nat
  | .const _ | .var _ => 0
  | .app _ ts | .tuple ts => ts.length
  | .fn ps _ => ps.length + 1

def var? : Ty → Option TyVar
  | .var v => some v
  | _ => none

/-- How much a type argument says: a bare variable nothing, a closed name the most. -/
def specificity : Ty → Nat
  | .var _ => 0
  | .const _ | .app _ [] | .tuple [] => 2
  | .app _ (_ :: _) | .tuple (_ :: _) | .fn _ _ => 1

mutual

/-- The variables of a type from left to right, repeated as often as they occur. -/
def vars : Ty → List TyVar
  | .const _ => []
  | .var v => [v]
  | .fn ps r => varsAll ps ++ r.vars
  | .app _ ts => varsAll ts
  | .tuple ts => varsAll ts

def varsAll : List Ty → List TyVar
  | [] => []
  | t :: ts => t.vars ++ varsAll ts

end

theorem varsAll_eq_flatMap (ts : List Ty) : varsAll ts = ts.flatMap vars := by
  induction ts with
  | nil => rfl
  | cons t ts ih => simp [varsAll, ih]

def distinctVars (t : Ty) : List TyVar :=
  t.vars.eraseDups

mutual

def mentions (v : TyVar) : Ty → Bool
  | .const _ => false
  | .var w => v == w
  | .fn ps r => mentionsAny v ps || r.mentions v
  | .app _ ts => mentionsAny v ts
  | .tuple ts => mentionsAny v ts

def mentionsAny (v : TyVar) : List Ty → Bool
  | [] => false
  | t :: ts => t.mentions v || mentionsAny v ts

end

private theorem mentionsAny_iff {v : TyVar} {ts : List Ty}
    (h : ∀ t ∈ ts, t.mentions v = true ↔ v ∈ t.vars) :
    mentionsAny v ts = true ↔ v ∈ varsAll ts := by
  induction ts with
  | nil => simp [mentionsAny, varsAll]
  | cons t ts ih =>
      obtain ⟨ht, hts⟩ := List.forall_mem_cons.1 h
      simp [mentionsAny, varsAll, ht, ih hts]

theorem mentions_iff {v : TyVar} {t : Ty} : t.mentions v = true ↔ v ∈ t.vars := by
  induction t with
  | const name => simp [mentions, vars]
  | var w => simp [mentions, vars]
  | fn params result hparams hresult =>
      simp [mentions, vars, mentionsAny_iff hparams, hresult]
  | app head args hargs => simpa [mentions, vars] using mentionsAny_iff hargs
  | tuple elems helems => simpa [mentions, vars] using mentionsAny_iff helems

mutual

/-- How deep types are nested in a type. -/
def height : Ty → Nat
  | .const _ => 1
  | .var _ => 1
  | .fn ps r => max (heightAll ps) r.height + 1
  | .app _ ts => heightAll ts + 1
  | .tuple ts => heightAll ts + 1

def heightAll : List Ty → Nat
  | [] => 0
  | t :: ts => max t.height (heightAll ts)

end

end Ty

end ConceptResolution
