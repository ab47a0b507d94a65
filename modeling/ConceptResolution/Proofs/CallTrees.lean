import ConceptResolution.Proofs.Remembering
import ConceptResolution.Search.Completion

/-!
The search as rules that know of no limit on levels or rounds: what a call of inference comes to,
and which calls of inference it takes. A derivation by these rules is a run that has come to its
end. No run nests its calls more deeply than the trail of goals may still grow, none returns to a
goal that it is working on, and none goes over its witnesses more often than there are witnesses.
-/

namespace ConceptResolution

/-- A call of inference: the trail it is made in, the number of witnesses that are open at its
start, the rounds it takes over them, and the calls that are made on its behalf, in order. -/
inductive CallTree where
  | mk (trail : Trail) (witnesses rounds : Nat) (nested : List CallTree)

namespace CallTree

mutual

def nesting : CallTree → Nat
  | mk _ _ _ nested => nestingAll nested + 1

def nestingAll : List CallTree → Nat
  | [] => 0
  | c :: cs => max c.nesting (nestingAll cs)

end

theorem nestingAll_append (cs ds : List CallTree) :
    nestingAll (cs ++ ds) = max (nestingAll cs) (nestingAll ds) := by
  induction cs with
  | nil => simp [nestingAll]
  | cons c cs ih => rw [List.cons_append, nestingAll, nestingAll, ih, Nat.max_assoc]

/-- A call that is made inside a trail of goals: its own trail adds one goal that is new, it takes
no more rounds than it has witnesses, and the same holds of the calls that it makes in turn. -/
inductive Inside : Trail → CallTree → Prop
  | intro {goal : Goal} {trail inner : Trail} {witnesses rounds : Nat} {nested : List CallTree}
      (hnew : goal ∉ trail.goals) (htrail : inner.goals = trail.goals ++ [goal])
      (hrounds : rounds ≤ witnesses) (hnested : ∀ c ∈ nested, Inside inner c) :
      Inside trail (mk inner witnesses rounds nested)

structure Orderly (trail : Trail) (depth : Nat) (calls : List CallTree) : Prop where
  inside : ∀ c ∈ calls, Inside trail c
  nesting : nestingAll calls ≤ depth

theorem orderly_nil (trail : Trail) (depth : Nat) : Orderly trail depth [] :=
  ⟨by simp, Nat.zero_le depth⟩

theorem Orderly.append {trail : Trail} {depth : Nat} {calls calls' : List CallTree}
    (h : Orderly trail depth calls) (h' : Orderly trail depth calls') :
    Orderly trail depth (calls ++ calls') :=
  ⟨List.forall_mem_append.2 ⟨h.inside, h'.inside⟩,
    nestingAll_append calls calls' ▸ Nat.max_le.2 ⟨h.nesting, h'.nesting⟩⟩

/-- A call in a trail that takes no more rounds than it has witnesses, and whose calls are nested so
deeply at most. -/
def Bounded (trail : Trail) (depth : Nat) : CallTree → Prop
  | mk inner witnesses rounds nested =>
    inner = trail ∧ rounds ≤ witnesses ∧ Orderly trail depth nested

theorem Bounded.orderly {trail inner : Trail} {goal : Goal} {maxDepth : Nat} {c : CallTree}
    (h : c.Bounded inner (maxDepth - inner.depth))
    (hextend : trail.extend goal maxDepth = .ok inner) :
    Orderly trail (maxDepth - trail.depth) [c] := by
  obtain ⟨inner', witnesses, rounds, nested⟩ := c
  obtain ⟨rfl, hrounds, hnested⟩ := h
  have hdepth := Trail.depth_of_extend hextend
  obtain ⟨hnew, hless, hinner⟩ := Trail.extend_eq_ok_iff.1 hextend
  refine ⟨?_, ?_⟩
  · intro c hc
    rw [List.mem_singleton.1 hc]
    exact .intro hnew (by rw [hinner]) hrounds hnested.inside
  · have hnesting := hnested.nesting
    simp only [nestingAll, nesting]
    omega

end CallTree

namespace Site

variable (site : Site)

mutual

inductive Judges : Trail → Viable → Memory → Verdict × Memory → List CallTree → Prop
  | plain {trail : Trail} {v : Viable} {m : Memory} (hparams : v.candidate.params.isEmpty = true) :
      Judges trail v m (.viable v, m) []
  | known {trail : Trail} {v : Viable} {m : Memory} {diagnostics : List Diagnostic}
      (hparams : v.candidate.params.isEmpty = false)
      (hknown : m.known? v.goal trail.depth = some diagnostics) :
      Judges trail v m (.rejected v.name diagnostics, m) []
  | repeated {trail : Trail} {v : Viable} {m : Memory} {goal : Goal}
      (hparams : v.candidate.params.isEmpty = false) (hknown : m.known? v.goal trail.depth = none)
      (hextend : trail.extend v.goal site.options.maxDepth = .error (.repeated goal)) :
      Judges trail v m (.rejected v.name [], m.countCycle) []
  | tooDeep {trail : Trail} {v : Viable} {m : Memory} {limit : Nat}
      (hparams : v.candidate.params.isEmpty = false) (hknown : m.known? v.goal trail.depth = none)
      (hextend : trail.extend v.goal site.options.maxDepth = .error (.tooDeep limit)) :
      Judges trail v m (.rejected v.name [], m) []
  | entered {trail inner : Trail} {v : Viable} {m m' : Memory}
      {result : Except (List Diagnostic) Subst} {call : CallTree}
      (hparams : v.candidate.params.isEmpty = false) (hknown : m.known? v.goal trail.depth = none)
      (hextend : trail.extend v.goal site.options.maxDepth = .ok inner)
      (hinfer : Infers v.candidate.params (v.candidate.params.map fun p => v.subst.get? p.var)
        v.subst inner m (result, m') call) :
      Judges trail v m (site.verdict v inner result,
        m'.note m v.goal trail.depth (site.verdict v inner result)) [call]

inductive JudgesAll :
    Trail → List Viable → Memory → List Verdict × Memory → List CallTree → Prop
  | nil {trail : Trail} {m : Memory} : JudgesAll trail [] m ([], m) []
  | cons {trail : Trail} {v : Viable} {vs : List Viable} {m m₁ m₂ : Memory} {verdict : Verdict}
      {verdicts : List Verdict} {calls calls' : List CallTree}
      (hhead : Judges trail v m (verdict, m₁) calls)
      (htail : JudgesAll trail vs m₁ (verdicts, m₂) calls') :
      JudgesAll trail (v :: vs) m (verdict :: verdicts, m₂) (calls ++ calls')

inductive Resolves : List Ty → Trail → Memory → Except (List Diagnostic) Viable × Memory →
    List CallTree → Prop
  | nothing {trail : Trail} {m : Memory} : Resolves [] trail m (.error [], m) []
  | unmatched {concept : Ty} {rest : List Ty} {trail : Trail} {m m₁ m₂ : Memory}
      {missing : Option Ty}
      (hmatching : (site.matching (concept :: rest)).run m = ([], m₁))
      (hmissing : (site.unprovided? (concept :: rest)).run m₁ = (missing, m₂)) :
      Resolves (concept :: rest) trail m
        (.error [.unsatisfiable (missing.getD concept) trail], m₂) []
  | matched {concept : Ty} {rest : List Ty} {trail : Trail} {m m₁ m₂ : Memory} {v : Viable}
      {vs : List Viable} {verdicts : List Verdict} {calls : List CallTree}
      (hmatching : (site.matching (concept :: rest)).run m = (v :: vs, m₁))
      (hjudges : JudgesAll trail (v :: vs) m₁ (verdicts, m₂) calls) :
      Resolves (concept :: rest) trail m (site.choose concept trail verdicts, m₂) calls

inductive Tries : Trail → List Param → Round → Memory → Round × Memory → List CallTree → Prop
  | done {trail : Trail} {r : Round} {m : Memory} : Tries trail [] r m (r, m) []
  | fixed {trail : Trail} {p : Param} {ps : List Param} {r : Round} {m : Memory}
      {out : Round × Memory} {calls : List CallTree}
      (hfixed : site.scope.isFixed (r.subst.get? p.var) = true)
      (htail : Tries trail ps r m out calls) : Tries trail (p :: ps) r m out calls
  | idle {trail : Trail} {p : Param} {ps : List Param} {r : Round} {m : Memory}
      {out : Round × Memory} {calls : List CallTree}
      (hopen : site.scope.isFixed (r.subst.get? p.var) = false)
      (hrequired : site.model.required p r.subst = [])
      (htail : Tries trail ps { r with pending := r.pending ++ [p] } m out calls) :
      Tries trail (p :: ps) r m out calls
  | tried {trail : Trail} {p : Param} {ps : List Param} {r : Round} {m m₁ : Memory}
      {answer : Except (List Diagnostic) Viable} {out : Round × Memory}
      {calls calls' : List CallTree}
      (hopen : site.scope.isFixed (r.subst.get? p.var) = false)
      (hrequired : site.model.required p r.subst ≠ [])
      (hresolves : Resolves (site.model.required p r.subst) trail m (answer, m₁) calls)
      (htail : Tries trail ps (answered r p answer) m₁ out calls') :
      Tries trail (p :: ps) r m out (calls ++ calls')

/-- Rounds, so many of them, until no witness is pending or a round has solved none. -/
inductive Repeats : Trail → List Param → Subst → Memory →
    Except (List Diagnostic) Subst × Memory → Nat → List CallTree → Prop
  | solved {trail : Trail} {s : Subst} {m : Memory} : Repeats trail [] s m (.ok s, m) 0 []
  | stuck {trail : Trail} {p : Param} {ps : List Param} {s : Subst} {m m₁ : Memory} {r : Round}
      {calls : List CallTree} (hround : Tries trail (p :: ps) ⟨s, [], [], false⟩ m (r, m₁) calls)
      (hpending : r.pending ≠ []) (hstuck : r.progressed = false) :
      Repeats trail (p :: ps) s m (.error r.diagnostics, m₁) 1 calls
  | again {trail : Trail} {p : Param} {ps : List Param} {s : Subst} {m m₁ : Memory} {r : Round}
      {out : Except (List Diagnostic) Subst × Memory} {n : Nat} {calls calls' : List CallTree}
      (hround : Tries trail (p :: ps) ⟨s, [], [], false⟩ m (r, m₁) calls)
      (hprogress : r.pending = [] ∨ r.progressed = true)
      (hrest : Repeats trail r.pending r.subst m₁ out n calls') :
      Repeats trail (p :: ps) s m out (n + 1) (calls ++ calls')

inductive Infers : List Param → List (Option Ty) → Subst → Trail → Memory →
    Except (List Diagnostic) Subst × Memory → CallTree → Prop
  | mismatched {params : List Param} {args : List (Option Ty)} {seed : Subst} {trail : Trail}
      {m : Memory} (hlength : params.length ≠ args.length) :
      Infers params args seed trail m (.error [], m) (.mk trail 0 0 [])
  | unfixed {params : List Param} {args : List (Option Ty)} {seed : Subst} {trail : Trail}
      {m : Memory} (hlength : params.length = args.length)
      (hunsolved : site.unsolved? (params.zip args) seed = none) :
      Infers params args seed trail m (.error [], m) (.mk trail 0 0 [])
  | repeats {params : List Param} {args : List (Option Ty)} {seed : Subst} {trail : Trail}
      {m m' : Memory} {u : Unsolved} {result : Except (List Diagnostic) Subst} {n : Nat}
      {calls : List CallTree} (hlength : params.length = args.length)
      (hunsolved : site.unsolved? (params.zip args) seed = some u)
      (hrepeats : Repeats trail u.witnesses u.subst m (result, m') n calls) :
      Infers params args seed trail m (determined u.associated result, m')
        (.mk trail u.witnesses.length n calls)

end

inductive ResolvesUnder : List Ty → Subst → Trail → Memory →
    Except (List Diagnostic) Viable × Memory → List CallTree → Prop
  | resolved {required : List Ty} {seed : Subst} {trail : Trail} {m m' : Memory}
      {answer : Except (List Diagnostic) Viable} {calls : List CallTree}
      (hresolves : site.Resolves (seed.applyAll required) trail m (answer, m') calls) :
      ResolvesUnder required seed trail m
        (answer.map fun v => { v with subst := v.subst.compose seed }, m') calls

inductive Completes : List Ty → List Param → Bool → Memory → Option (List Ty) × Memory →
    List CallTree → Prop
  | miscounted {supplied : List Ty} {params : List Param} {keepOpen : Bool} {m : Memory}
      (hargs : interleave supplied params = none) :
      Completes supplied params keepOpen m (none, m) []
  | inferred {supplied : List Ty} {params : List Param} {keepOpen : Bool} {m m' : Memory}
      {args : List (Option Ty)} {result : Except (List Diagnostic) Subst} {call : CallTree}
      (hargs : interleave supplied params = some args)
      (hinfer : site.Infers params args .empty .empty m (result, m') call) :
      Completes supplied params keepOpen m (completed params args keepOpen result, m') [call]

variable {site}

private theorem pending_answered_le (r : Round) (p : Param)
    (answer : Except (List Diagnostic) Viable) :
    (answered r p answer).pending.length + (answered r p answer).progressed.toNat ≤
      r.pending.length + r.progressed.toNat + 1 := by
  have hprogressed := r.progressed.toNat_le
  cases answer with
  | ok v =>
      simp only [answered, Bool.toNat_true]
      omega
  | error diagnostics =>
      simp only [answered, List.length_append, List.length_singleton]
      omega

theorem Tries.pending_le {trail : Trail} {ps : List Param} {r : Round} {m : Memory}
    {out : Round × Memory} {calls : List CallTree} (h : site.Tries trail ps r m out calls) :
    out.1.pending.length + out.1.progressed.toNat ≤
      r.pending.length + r.progressed.toNat + ps.length := by
  match h with
  | .done => exact Nat.le_refl _
  | .fixed hfixed htail => exact htail.pending_le.trans (by simp)
  | .idle hopen hrequired htail => exact htail.pending_le.trans (by simp; omega)
  | .tried hopen hrequired hresolves htail =>
      exact htail.pending_le.trans ((Nat.add_le_add_right (pending_answered_le r _ _) _).trans
        (by simp; omega))

theorem Repeats.rounds_le {trail : Trail} {ps : List Param} {s : Subst} {m : Memory}
    {out : Except (List Diagnostic) Subst × Memory} {n : Nat} {calls : List CallTree}
    (h : site.Repeats trail ps s m out n calls) : n ≤ ps.length := by
  match h with
  | .solved => exact Nat.le_refl _
  | .stuck hround hpending hstuck => simp
  | .again hround hprogress hrest =>
      have hrounds := hrest.rounds_le
      have hpending := hround.pending_le
      rcases hprogress with hempty | hprogress
      · simp only [hempty, List.length_nil, List.length_cons] at hrounds ⊢
        omega
      · simp only [hprogress, List.length_nil, List.length_cons, Bool.toNat_true,
          Bool.toNat_false] at hpending ⊢
        omega

mutual

theorem Judges.orderly {trail : Trail} {v : Viable} {m : Memory} {out : Verdict × Memory}
    {calls : List CallTree} (h : site.Judges trail v m out calls) :
    CallTree.Orderly trail (site.options.maxDepth - trail.depth) calls := by
  match h with
  | .plain _ => exact CallTree.orderly_nil _ _
  | .known _ _ => exact CallTree.orderly_nil _ _
  | .repeated _ _ _ => exact CallTree.orderly_nil _ _
  | .tooDeep _ _ _ => exact CallTree.orderly_nil _ _
  | .entered hparams hknown hextend hinfer => exact hinfer.bounded.orderly hextend

theorem JudgesAll.orderly {trail : Trail} {vs : List Viable} {m : Memory}
    {out : List Verdict × Memory} {calls : List CallTree}
    (h : site.JudgesAll trail vs m out calls) :
    CallTree.Orderly trail (site.options.maxDepth - trail.depth) calls := by
  match h with
  | .nil => exact CallTree.orderly_nil _ _
  | .cons hhead htail => exact hhead.orderly.append htail.orderly

theorem Resolves.orderly {required : List Ty} {trail : Trail} {m : Memory}
    {out : Except (List Diagnostic) Viable × Memory} {calls : List CallTree}
    (h : site.Resolves required trail m out calls) :
    CallTree.Orderly trail (site.options.maxDepth - trail.depth) calls := by
  match h with
  | .nothing => exact CallTree.orderly_nil _ _
  | .unmatched _ _ => exact CallTree.orderly_nil _ _
  | .matched hmatching hjudges => exact hjudges.orderly

theorem Tries.orderly {trail : Trail} {ps : List Param} {r : Round} {m : Memory}
    {out : Round × Memory} {calls : List CallTree} (h : site.Tries trail ps r m out calls) :
    CallTree.Orderly trail (site.options.maxDepth - trail.depth) calls := by
  match h with
  | .done => exact CallTree.orderly_nil _ _
  | .fixed hfixed htail => exact htail.orderly
  | .idle hopen hrequired htail => exact htail.orderly
  | .tried hopen hrequired hresolves htail => exact hresolves.orderly.append htail.orderly

theorem Repeats.orderly {trail : Trail} {ps : List Param} {s : Subst} {m : Memory}
    {out : Except (List Diagnostic) Subst × Memory} {n : Nat} {calls : List CallTree}
    (h : site.Repeats trail ps s m out n calls) :
    CallTree.Orderly trail (site.options.maxDepth - trail.depth) calls := by
  match h with
  | .solved => exact CallTree.orderly_nil _ _
  | .stuck hround hpending hstuck => exact hround.orderly
  | .again hround hprogress hrest => exact hround.orderly.append hrest.orderly

theorem Infers.bounded {params : List Param} {args : List (Option Ty)} {seed : Subst}
    {trail : Trail} {m : Memory} {out : Except (List Diagnostic) Subst × Memory} {call : CallTree}
    (h : site.Infers params args seed trail m out call) :
    call.Bounded trail (site.options.maxDepth - trail.depth) := by
  match h with
  | .mismatched _ => exact ⟨rfl, Nat.le_refl _, CallTree.orderly_nil _ _⟩
  | .unfixed _ _ => exact ⟨rfl, Nat.le_refl _, CallTree.orderly_nil _ _⟩
  | .repeats hlength hunsolved hrepeats => exact ⟨rfl, hrepeats.rounds_le, hrepeats.orderly⟩

end

end Site

end ConceptResolution
