import ConceptResolution.Proofs.Rigidity

namespace ConceptResolution

private theorem map_filterMap_sublist {α β γ : Type} {f : α → Option β} {g : β → γ}
    {h : α → γ} (hf : ∀ a b, f a = some b → g b = h a) (as : List α) :
    ((as.filterMap f).map g).Sublist (as.map h) := by
  induction as with
  | nil => exact .slnil
  | cons a as ih =>
      cases hfa : f a with
      | none =>
          rw [List.filterMap_cons_none hfa]
          exact ih.cons _
      | some b =>
          rw [List.filterMap_cons_some hfa, List.map_cons, List.map_cons, hf a b hfa]
          exact ih.cons_cons _

namespace Site

variable (site : Site)

/-- The candidates that are left after matching and judgement. -/
def survivors (required : List Ty) (trail : Trail) : Search (List Viable) := do
  return (← site.satisfy (← site.matching required) trail).filterMap Verdict.viable?

/-- How the search for a concept may end, by the candidates that survive it. -/
inductive Outcome (concept : Ty) (trail : Trail) (survivors : List Viable) :
    Except (List Diagnostic) Viable → Prop
  | chosen (v : Viable) (hkept : site.preferred survivors = [v]) :
    Outcome concept trail survivors (.ok v)
  | unsatisfied (hnone : survivors = []) (missing : Ty) (reasons : List Diagnostic) :
    Outcome concept trail survivors (.error (.unsatisfiable missing trail :: reasons))
  | ambiguous (hkept : 2 ≤ (site.preferred survivors).length) :
    Outcome concept trail survivors
      (.error [.ambiguous concept ((site.preferred survivors).map Viable.name) trail])

variable {site}

theorem returns_instantiateAll (es : List Evidence) :
    Search.Returns (Search.instantiateAll es) fun is => is.map Instantiated.source = es := by
  induction es with
  | nil => exact Search.returns_pure rfl
  | cons e es ih =>
      have hfirst : Search.Returns (Search.instantiate e) fun i => i.source = e := by
        intro m
        cases e <;> rfl
      refine hfirst.bind fun i hi => ih.bind fun is his => Search.returns_pure ?_
      rw [List.map_cons, hi, his]

theorem returns_matching_sublist (required : List Ty) :
    Search.Returns (site.matching required) fun vs =>
      (vs.map fun v => v.candidate.source).Sublist site.scope.evidence := by
  refine (returns_instantiateAll _).bind fun is his => Search.returns_pure ?_
  rw [← his]
  refine map_filterMap_sublist (fun i v hv => ?_) is
  obtain ⟨s, -, rfl⟩ := Option.map_eq_some_iff.1 hv
  rfl

def JudgeKeeps (judge : Judge) : Prop :=
  ∀ (trail : Trail) (v : Viable), Search.Returns (judge trail v) fun verdict =>
    ∀ v', verdict.viable? = some v' → v'.candidate = v.candidate

theorem judgeKeeps_judge (infer : Infer) : JudgeKeeps (site.judge infer) := by
  intro trail v
  refine returns_judge rfl fun inner => ?_
  rw [complete_eq]
  refine (Search.returns_true _).bind fun result _ => Search.returns_pure fun v' hv' => ?_
  obtain ⟨s, -, rfl⟩ := eq_of_viable_verdict hv'
  rfl

theorem judgeKeeps_judgeBelow (trail : Trail) : JudgeKeeps (site.judgeBelow trail) := by
  unfold judgeBelow
  -- without levels to spare the inference below fails, but judgement keeps the candidate as well
  cases site.options.maxDepth - trail.depth with
  | zero => exact judgeKeeps_judge _
  | succ levels => exact judgeKeeps_judge _

theorem returns_judgeAll_sublist {judge : Judge} (h : JudgeKeeps judge) (trail : Trail)
    (vs : List Viable) :
    Search.Returns (judgeAll judge trail vs) fun verdicts =>
      ((verdicts.filterMap Verdict.viable?).map Viable.candidate).Sublist
        (vs.map Viable.candidate) := by
  induction vs with
  | nil => exact Search.returns_pure .slnil
  | cons v vs ih =>
      refine (h trail v).bind fun verdict hverdict => ih.bind fun verdicts hverdicts =>
        Search.returns_pure ?_
      cases hviable : verdict.viable? with
      | none =>
          rw [List.filterMap_cons_none hviable]
          exact hverdicts.cons _
      | some v' =>
          rw [List.filterMap_cons_some hviable, List.map_cons, List.map_cons, hverdict v' hviable]
          exact hverdicts.cons_cons _

theorem returns_survivors_sublist (required : List Ty) (trail : Trail) :
    Search.Returns (site.survivors required trail) fun vs =>
      (vs.map fun v => v.candidate.source).Sublist site.scope.evidence := by
  refine (returns_matching_sublist required).bind fun vs hvs =>
    (returns_judgeAll_sublist (judgeKeeps_judgeBelow trail) trail vs).bind fun verdicts hverdicts =>
      Search.returns_pure ?_
  have hsources := hverdicts.map Instantiated.source
  rw [List.map_map, List.map_map] at hsources
  exact hsources.trans hvs

theorem outcome_choose (concept : Ty) (trail : Trail) (verdicts : List Verdict) :
    site.Outcome concept trail (verdicts.filterMap Verdict.viable?)
      (site.choose concept trail verdicts) := by
  unfold choose
  cases hviable : verdicts.filterMap Verdict.viable? with
  | nil => exact .unsatisfied rfl concept _
  | cons v vs =>
      have hkept := site.preferred_ne_nil (List.cons_ne_nil v vs)
      simp only
      split
      · next hnone => exact absurd hnone hkept
      · next winner hwinner => exact .chosen winner hwinner
      · next winners hnone hmany =>
        refine .ambiguous ?_
        match hall : site.preferred (v :: vs) with
        | [] => exact absurd hall hnone
        | [winner] => exact absurd hall (hmany winner)
        | _ :: _ :: _ => simp

theorem outcome_resolve (concept : Ty) (rest : List Ty) (trail : Trail) (m : Memory) :
    site.Outcome concept trail ((site.survivors (concept :: rest) trail).run m).1
      ((site.resolve (concept :: rest) trail).run m).1 := by
  change site.Outcome concept trail
    (((site.satisfy ((site.matching (concept :: rest)).run m).1 trail).run
      ((site.matching (concept :: rest)).run m).2).1.filterMap Verdict.viable?) _
  unfold resolve resolveWith
  simp only [StateT.run_bind]
  cases (site.matching (concept :: rest)).run m with
  | mk vs m' =>
      cases vs with
      | nil => exact .unsatisfied rfl _ _
      | cons v vs => exact outcome_choose concept trail _

section

variable {concept : Ty} {trail : Trail} {survivors : List Viable}
  {result : Except (List Diagnostic) Viable}

/-- The answer survives, and an ambiguity that comes first in a report is all of the report. -/
theorem Outcome.answer_or_report (h : site.Outcome concept trail survivors result) :
    (∃ v ∈ survivors, result = .ok v) ∨
      ∃ d ds, result = .error (d :: ds) ∧ d.within = trail.names ∧
        ∀ names, d.cause = .ambiguous names →
          ds = [] ∧ d.concept = concept ∧ 2 ≤ names.length ∧
            names.Sublist (survivors.map Viable.name) := by
  cases h with
  | chosen v hv =>
      have hmem : v ∈ site.preferred survivors := hv ▸ List.mem_singleton_self v
      exact .inl ⟨v, (site.preferred_sublist survivors).mem hmem, rfl⟩
  | unsatisfied _ missing reasons =>
      exact .inr ⟨_, reasons, rfl, rfl, fun _ hcause => by cases hcause⟩
  | ambiguous hmany =>
      refine .inr ⟨_, [], rfl, rfl, fun names hcause => ?_⟩
      cases hcause
      rw [List.length_map]
      exact ⟨rfl, rfl, hmany, (site.preferred_sublist survivors).map Viable.name⟩

theorem Outcome.exists_ok_iff (h : site.Outcome concept trail survivors result)
    (hplain : ∀ v ∈ survivors, v.candidate.source.overlap = .neither) :
    (∃ v, result = .ok v) ↔ survivors.length = 1 := by
  have hkept : site.preferred survivors = survivors := by
    refine preferred_eq_self site fun you hyou me hme => ?_
    simp [mayDisplace, hplain you hyou, hplain me hme, Overlap.neither]
  cases h with
  | chosen v hv =>
      rw [hkept] at hv
      simp [hv]
  | unsatisfied hnone => simp [hnone]
  | ambiguous hmany =>
      rw [hkept] at hmany
      simp only [reduceCtorEq, exists_false, false_iff]
      omega

end

/-- A search for evidence answers with a survivor, or it reports; an ambiguity is between several
pieces of evidence, told by their names in the order of the scope. -/
theorem resolve_outcome {site : Site} (hscope : site.scope.Built) {required : List Ty}
    (hrequired : required ≠ []) (trail : Trail) (m : Memory) :
    let survivors := ((site.survivors required trail).run m).1
    let result := ((site.resolve required trail).run m).1
    ((∃ v ∈ survivors, result = .ok v) ∨
      ∃ d ds, result = .error (d :: ds) ∧ d.within = trail.names ∧
        ∀ names, d.cause = .ambiguous names →
          ds = [] ∧ required.head? = some d.concept ∧ 2 ≤ names.length ∧ names.Nodup ∧
            names.Sublist (site.scope.evidence.map Evidence.name)) ∧
    ((∀ e ∈ site.scope.evidence, e.overlap = .neither) →
      ((∃ v, result = .ok v) ↔ survivors.length = 1)) ∧
    (survivors ≠ [] → site.preferred survivors ≠ []) := by
  intro survivors result
  obtain ⟨concept, rest, rfl⟩ := List.exists_cons_of_ne_nil hrequired
  have hend : site.Outcome concept trail survivors result := outcome_resolve concept rest trail m
  have horder : (survivors.map fun v => v.candidate.source).Sublist site.scope.evidence :=
    returns_survivors_sublist (concept :: rest) trail m
  have hnames : (survivors.map Viable.name).Sublist (site.scope.evidence.map Evidence.name) := by
    have hmapped := horder.map Evidence.name
    rwa [List.map_map] at hmapped
  have hplain : (∀ e ∈ site.scope.evidence, e.overlap = .neither) →
      ∀ v ∈ survivors, v.candidate.source.overlap = .neither :=
    fun h v hv => h _ (horder.mem (List.mem_map.2 ⟨v, hv, rfl⟩))
  refine ⟨?_, fun h => hend.exists_ok_iff (hplain h), site.preferred_ne_nil⟩
  refine hend.answer_or_report.imp_right fun ⟨d, ds, hresult, hwithin, hambiguous⟩ =>
    ⟨d, ds, hresult, hwithin, fun names hcause => ?_⟩
  obtain ⟨hds, hconcept, hmany, hkept⟩ := hambiguous names hcause
  have hsublist := hkept.trans hnames
  exact ⟨hds, congrArg some hconcept.symm, hmany, hscope.tidy.nodup.sublist hsublist, hsublist⟩

theorem resolve_outcome_rivals :
    let rival : Evidence := .declared ⟨"IntEq", [], [.app "Eq" [.int]], .neither, []⟩
    let scope := (Scope.ofParams Registry.ordered.instances []).add rival
    let site : Site := ⟨Registry.ordered.model, scope, .standard⟩
    let survivors := ((site.survivors [.app "Eq" [.int]] .empty).run .empty).1
    let result := ((site.resolve [.app "Eq" [.int]] .empty).run .empty).1
    survivors.map Viable.name = ["IntOrd", "IntEq"] ∧ (¬∃ v, result = .ok v) ∧
      ∃ d ds, result = .error (d :: ds) ∧ d.within = [] := by
  intro rival scope site survivors result
  have hnames : survivors.map Viable.name = ["IntOrd", "IntEq"] := by decide +kernel
  have hplain : ∀ e ∈ scope.evidence, e.overlap = .neither := by decide +kernel
  obtain ⟨hend, hunique, -⟩ := @resolve_outcome site
    (.add (.ofParams Registry.ordered.instances []) rival) _
    (List.cons_ne_nil (.app "Eq" [.int]) []) .empty .empty
  have hnone : ¬∃ v, result = .ok v := by
    rw [hunique hplain, ← List.length_map Viable.name, hnames]
    decide
  refine ⟨hnames, hnone, ?_⟩
  rcases hend with ⟨v, -, hv⟩ | ⟨d, ds, hresult, hwithin, -⟩
  · exact absurd ⟨v, hv⟩ hnone
  · exact ⟨d, ds, hresult, hwithin⟩

end Site

end ConceptResolution
