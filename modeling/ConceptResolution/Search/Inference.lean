import ConceptResolution.Hierarchy.Satisfaction
import ConceptResolution.Search.Preference

/-!
Inference of witnesses. The witness parameters of a generic call are solved by search among the
evidence in scope; a generic instance found there has witness parameters of its own, which are
inferred in turn, one level deeper on the trail of goals.
-/

namespace ConceptResolution

/-- Inference of the parameters that no argument is known for, under a substitution and inside a
trail of goals. -/
abbrev Infer :=
  List Param → List (Option Ty) → Subst → Trail → Search (Except (List Diagnostic) Subst)

abbrev Judge :=
  Trail → Viable → Search Verdict

/-- One round over the witnesses that are still open. -/
structure Round where
  subst : Subst
  /-- The witnesses the round has not solved. -/
  pending : List Param
  diagnostics : List Diagnostic
  progressed : Bool

/-- The parameters of a call once its known arguments are in the substitution. -/
structure Unsolved where
  subst : Subst
  witnesses : List Param
  associated : List Param

/-- A parameter stands for the type of the witness found for it, and so does the variable that the
parameter was known as before. -/
def Subst.withWitness (s : Subst) (p : Param) (v : Viable) : Subst :=
  let witness := Subst.single p.var v.ty
  let binding := match s.get? p.var with
    | some (.var earlier) => witness.insert earlier v.ty
    | _ => witness
  v.subst.compose (binding.compose s)

namespace Site

variable (site : Site)

def violated? (s : Subst) (p : Param) : Option Ty :=
  (s.applyAll p.constraints).find? fun c =>
    !site.model.satisfies site.scope.givens (s.lookup p.var) c

/-- Infer a candidate's own parameters and check that they keep their constraints. -/
def complete (infer : Infer) (v : Viable) (trail : Trail) : Search Verdict := do
  let params := v.candidate.params
  match ← infer params (params.map fun p => v.subst.get? p.var) v.subst trail with
  | .error diagnostics => return .rejected v.name diagnostics
  | .ok s =>
    match params.findSome? (site.violated? s) with
    | some constraint => return .rejected v.name [.unsatisfiable constraint trail]
    | none => return .viable ⟨v.candidate, s.apply v.candidate.ty, s⟩

/-- Judge a candidate. A given witness and an instance without parameters stand as they are. A goal
that is known to fail, is being worked on already or lies too deep is rejected at once; a new
failure is remembered unless it came from a cycle. -/
def judge (infer : Infer) : Judge := fun trail v => do
  if v.candidate.source.isGiven || v.candidate.params.isEmpty then
    return .viable v
  else
    let goal := Goal.of v.name (v.subst.applyAll v.candidate.provides)
    let memory ← get
    match memory.known? goal trail.depth with
    | some diagnostics => return .rejected v.name diagnostics
    | none =>
      match trail.extend goal site.options.maxDepth with
      | .error (.repeated _) =>
        modify Memory.countCycle
        return .rejected v.name []
      | .error (.tooDeep _) => return .rejected v.name []
      | .ok inner =>
        let verdict ← site.complete infer v inner
        match verdict with
        | .viable _ => return verdict
        | .rejected _ diagnostics =>
          if (← get).cycles = memory.cycles then
            modify fun m => m.remember goal ⟨trail.depth, diagnostics⟩
          return verdict

def judgeAll (judge : Judge) (trail : Trail) : List Viable → Search (List Verdict)
  | [] => return []
  | v :: vs => return (← judge trail v) :: (← judgeAll judge trail vs)

/-- The one viable candidate, or the preferred one of several. A single rejected candidate tells
why. -/
def choose (concept : Ty) (trail : Trail) (verdicts : List Verdict) :
    Except (List Diagnostic) Viable :=
  match verdicts.filterMap Verdict.viable? with
  | [] =>
    let reasons := match verdicts with
      | [verdict] => verdict.diagnostics
      | _ => []
    .error (.unsatisfiable concept trail :: reasons)
  | viable =>
    match site.preferred viable with
    | [] => .error []
    | [winner] => .ok winner
    | winners => .error [.ambiguous concept (winners.map Viable.name) trail]

/-- Search for evidence that provides everything required. -/
def resolveWith (judge : Judge) (required : List Ty) (trail : Trail) :
    Search (Except (List Diagnostic) Viable) := do
  match required with
  | [] => return .error []
  | concept :: _ =>
    match ← site.matching required with
    | [] =>
      let missing ← site.unprovided? required
      return .error [.unsatisfiable (missing.getD concept) trail]
    | candidates => return site.choose concept trail (← judgeAll judge trail candidates)

/-- Put the known arguments into the substitution, each under what is known before it, and sort out
the parameters that are open. There is no way on if an ordinary parameter is open. -/
def unsolved? : List (Param × Option Ty) → Subst → Option Unsolved
  | [], s => some ⟨s, [], []⟩
  | (p, arg) :: rest, s =>
    let known := match arg with
      | some t => some (s.apply t)
      | none => s.get? p.var
    if site.scope.isFixed known then
      match known with
      | some t =>
        unsolved? rest (if s.get? p.var = some t then s else (Subst.single p.var t).compose s)
      | none => unsolved? rest s
    else
      match p.kind with
      | .witness => (unsolved? rest s).map fun u => { u with witnesses := p :: u.witnesses }
      | .associated => (unsolved? rest s).map fun u => { u with associated := p :: u.associated }
      | .ordinary => none

/-- Try to solve a witness parameter. Nothing is searched for one that another witness has fixed,
nor for one that nothing is required of. -/
def attempt (judge : Judge) (trail : Trail) (r : Round) (p : Param) : Search Round := do
  if site.scope.isFixed (r.subst.get? p.var) then
    return r
  else
    match site.model.required p r.subst with
    | [] => return { r with pending := r.pending ++ [p] }
    | required =>
      match ← site.resolveWith judge required trail with
      | .ok v => return { r with subst := r.subst.withWitness p v, progressed := true }
      | .error diagnostics =>
        return { r with
          pending := r.pending ++ [p]
          diagnostics := r.diagnostics ++ diagnostics }

def round (judge : Judge) (trail : Trail) (witnesses : List Param) (s : Subst) : Search Round :=
  witnesses.foldlM (site.attempt judge trail) ⟨s, [], [], false⟩

/-- Rounds until no witness is pending or a round solves none. Every round but the last solves a
witness, so there are at most as many as witnesses. -/
def rounds (judge : Judge) (trail : Trail) :
    Nat → List Param → Subst → Search (Except (List Diagnostic) Subst)
  | _, [], s => return .ok s
  | 0, _ :: _, _ => return .error []
  | n + 1, witnesses, s => do
    let r ← site.round judge trail witnesses s
    if r.pending.isEmpty then return .ok r.subst
    else if r.progressed then rounds judge trail n r.pending r.subst
    else return .error r.diagnostics

def inferWith (judge : Judge) : Infer := fun params args seed trail => do
  if params.length ≠ args.length then
    return .error []
  else
    match site.unsolved? (params.zip args) seed with
    | none => return .error []
    | some u =>
      match ← site.rounds judge trail u.witnesses.length u.witnesses u.subst with
      | .error diagnostics => return .error diagnostics
      | .ok s =>
        if u.associated.any fun p => s.lookup p.var == p.ty then return .error []
        else return .ok s

/-- Judgement that nests so many goals at most. -/
def judgeWithin : Nat → Judge
  | 0 => site.judge fun _ _ _ _ => return .error []
  | levels + 1 => site.judge (site.inferWith (judgeWithin levels))

/-- The judgement on candidates that are tried inside a trail of goals. -/
def judgeBelow (trail : Trail) : Judge :=
  site.judgeWithin (site.options.maxDepth - trail.depth)

def satisfy (candidates : List Viable) (trail : Trail) : Search (List Verdict) :=
  judgeAll (site.judgeBelow trail) trail candidates

def resolve (required : List Ty) (trail : Trail) : Search (Except (List Diagnostic) Viable) :=
  site.resolveWith (site.judgeBelow trail) required trail

/-- Infer the witness and associated parameters of a call. An argument that is missing or a free
variable is open, and no ordinary parameter may be. The substitution that results extends the given
one. -/
def infer : Infer := fun params args seed trail =>
  site.inferWith (site.judgeBelow trail) params args seed trail

/-- Search for evidence under a substitution, which the result extends. -/
def resolveUnder (required : List Ty) (seed : Subst) (trail : Trail) :
    Search (Except (List Diagnostic) Viable) := do
  match ← site.resolve (seed.applyAll required) trail with
  | .ok v => return .ok { v with subst := v.subst.compose seed }
  | .error diagnostics => return .error diagnostics

end Site

end ConceptResolution
