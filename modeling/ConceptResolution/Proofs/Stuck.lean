import ConceptResolution.Proofs.Outcome
import ConceptResolution.Proofs.Termination

namespace ConceptResolution

structure RoundStart where
  witnesses : List Param
  subst : Subst
  memory : Memory

namespace Site

variable (site : Site)

/-- A round that solves a witness and leaves others open, for the next round to go over. -/
def Advances (trail : Trail) (a b : RoundStart) : Prop :=
  b.witnesses ≠ [] ∧ ∃ diagnostics,
    (site.round (site.judgeBelow trail) trail a.witnesses a.subst).run a.memory =
      (⟨b.subst, b.witnesses, diagnostics, true⟩, b.memory)

/-- A round that solves nothing, parameter by parameter. One that is fixed by now is passed over,
and each other one gets a report: an empty one if nothing is required of it, and what the search for
its requirement reports if there is one. -/
inductive Stalls (trail : Trail) (s : Subst) :
    List Param → Memory → List (Param × List Diagnostic) → Memory → Prop
  | done {m : Memory} : Stalls trail s [] m [] m
  | fixed {p : Param} {ps : List Param} {m m' : Memory} {reports : List (Param × List Diagnostic)}
      (hfixed : site.scope.isFixed (s.get? p.var) = true) (htail : Stalls trail s ps m reports m') :
      Stalls trail s (p :: ps) m reports m'
  | idle {p : Param} {ps : List Param} {m m' : Memory} {reports : List (Param × List Diagnostic)}
      (hopen : site.scope.isFixed (s.get? p.var) = false) (hrequired : site.model.required p s = [])
      (htail : Stalls trail s ps m reports m') : Stalls trail s (p :: ps) m ((p, []) :: reports) m'
  | failed {p : Param} {ps : List Param} {m m₁ m' : Memory} {diagnostics : List Diagnostic}
      {reports : List (Param × List Diagnostic)}
      (hopen : site.scope.isFixed (s.get? p.var) = false) (hrequired : site.model.required p s ≠ [])
      (hresolve : (site.resolve (site.model.required p s) trail).run m = (.error diagnostics, m₁))
      (htail : Stalls trail s ps m₁ reports m') :
      Stalls trail s (p :: ps) m ((p, diagnostics) :: reports) m'

variable {site}

theorem ne_nil_of_resolve {required : List Ty} (hrequired : required ≠ []) {trail : Trail}
    {m m' : Memory} {diagnostics : List Diagnostic}
    (h : (site.resolve required trail).run m = (.error diagnostics, m')) : diagnostics ≠ [] := by
  obtain ⟨concept, rest, rfl⟩ := List.exists_cons_of_ne_nil hrequired
  have hend := site.outcome_resolve concept rest trail m
  rw [h] at hend
  cases hend with
  | unsatisfied _ missing reasons => exact List.cons_ne_nil _ _
  | ambiguous _ => exact List.cons_ne_nil _ _

section Stalls

variable {trail : Trail} {s : Subst} {ps : List Param} {m m' : Memory}
  {reports : List (Param × List Diagnostic)}

theorem Stalls.map_fst (h : site.Stalls trail s ps m reports m') :
    reports.map Prod.fst = ps.filter fun p => !site.scope.isFixed (s.get? p.var) := by
  induction h with
  | done => rfl
  | fixed hfixed _ ih => rw [ih, List.filter_cons_of_neg (by simp [hfixed])]
  | idle hopen _ _ ih => rw [List.map_cons, ih, List.filter_cons_of_pos (by simp [hopen])]
  | failed hopen _ _ _ ih => rw [List.map_cons, ih, List.filter_cons_of_pos (by simp [hopen])]

theorem Stalls.report_ne_nil (h : site.Stalls trail s ps m reports m') :
    ∀ report ∈ reports, site.model.required report.1 s ≠ [] → report.2 ≠ [] := by
  induction h with
  | done => simp
  | fixed _ _ ih => exact ih
  | idle _ hrequired _ ih =>
      exact List.forall_mem_cons.2 ⟨fun hsome => absurd hrequired hsome, ih⟩
  | failed _ hrequired hresolve _ ih =>
      exact List.forall_mem_cons.2 ⟨fun _ => ne_nil_of_resolve hrequired hresolve, ih⟩

end Stalls

theorem answered_eq_error {r : Round} {p : Param} {answer : Except (List Diagnostic) Viable}
    (h : (answered r p answer).progressed = false) :
    r.progressed = false ∧ ∃ diagnostics, answer = .error diagnostics := by
  cases answer with
  | ok v => cases h
  | error diagnostics => exact ⟨h, diagnostics, rfl⟩

def stalled (r : Round) (reports : List (Param × List Diagnostic)) : Round :=
  ⟨r.subst, r.pending ++ reports.map Prod.fst, r.diagnostics ++ reports.flatMap Prod.snd, false⟩

theorem stalled_nil {r : Round} (h : r.progressed = false) : stalled r [] = r := by
  simp [stalled, ← h]

theorem stalled_waiting (r : Round) (p : Param) (reports : List (Param × List Diagnostic)) :
    stalled { r with pending := r.pending ++ [p] } reports = stalled r ((p, []) :: reports) := by
  simp [stalled]

theorem stalled_answered (r : Round) (p : Param) (diagnostics : List Diagnostic)
    (reports : List (Param × List Diagnostic)) :
    stalled (answered r p (.error diagnostics)) reports =
      stalled r ((p, diagnostics) :: reports) := by
  simp [stalled, answered]

/-- A round that has made no progress in the end has made none on the way, and has tried every
parameter under the substitution that it started with. -/
theorem Tries.exists_stalls {trail : Trail} {ps : List Param} {r : Round} {m : Memory}
    {out : Round × Memory} {calls : List CallTree} (h : site.Tries trail ps r m out calls)
    (hstuck : out.1.progressed = false) :
    r.progressed = false ∧ ∃ reports, site.Stalls trail r.subst ps m reports out.2 ∧
      out.1 = stalled r reports := by
  match h with
  | .done => exact ⟨hstuck, [], .done, (stalled_nil hstuck).symm⟩
  | .fixed hfixed htail =>
      obtain ⟨hstart, reports, hstalls, hout⟩ := htail.exists_stalls hstuck
      exact ⟨hstart, reports, .fixed hfixed hstalls, hout⟩
  | .idle hopen hrequired htail =>
      obtain ⟨hstart, reports, hstalls, hout⟩ := htail.exists_stalls hstuck
      exact ⟨hstart, _, .idle hopen hrequired hstalls, hout.trans (stalled_waiting ..)⟩
  | .tried hopen hrequired hresolves htail =>
      obtain ⟨hprogressed, reports, hstalls, hout⟩ := htail.exists_stalls hstuck
      obtain ⟨hstart, diagnostics, rfl⟩ := answered_eq_error hprogressed
      have hresolve := (site.resolve_ends _ trail _).unique hresolves
      exact ⟨hstart, _, .failed hopen hrequired hresolve.symm hstalls,
        hout.trans (stalled_answered ..)⟩

variable (site) in
theorem attemptsKeep_sublist (judge : Judge) (trail : Trail) (witnesses : List Param) :
    site.AttemptsKeep judge trail fun ps _ _ => ps.Sublist witnesses where
  fixed := fun h _ => ((List.sublist_cons_self _ _).append_left _).trans h
  tried := fun _ _ h =>
    ⟨fun _ _ => ((List.sublist_cons_self _ _).append_left _).trans h, fun _ _ => h⟩

theorem Advances.sublist {trail : Trail} {a b : RoundStart} (h : site.Advances trail a b) :
    b.witnesses.Sublist a.witnesses := by
  obtain ⟨-, diagnostics, hround⟩ := h
  have hkeeps := attemptsKeep_sublist site (site.judgeBelow trail) trail a.witnesses
  have hpending := hkeeps.round a.witnesses ⟨a.subst, [], [], false⟩ a.memory (.refl _)
  rw [round] at hround
  rwa [hround] at hpending

theorem sublist_of_advances {trail : Trail} {a b : RoundStart}
    (h : Relation.ReflTransGen (site.Advances trail) a b) : b.witnesses.Sublist a.witnesses := by
  induction h with
  | refl => exact .refl _
  | tail _ hstep ih => exact hstep.sublist.trans ih

theorem Repeats.exists_stuck {trail : Trail} {ps : List Param} {s : Subst} {m : Memory}
    {out : Except (List Diagnostic) Subst × Memory} {n : Nat} {calls : List CallTree}
    (h : site.Repeats trail ps s m out n calls) {diagnostics : List Diagnostic}
    (hout : out.1 = .error diagnostics) :
    ∃ last reports, Relation.ReflTransGen (site.Advances trail) ⟨ps, s, m⟩ last ∧
      (site.round (site.judgeBelow trail) trail last.witnesses last.subst).run last.memory =
        (⟨last.subst, reports.map Prod.fst, diagnostics, false⟩, out.2) ∧
      site.Stalls trail last.subst last.witnesses last.memory reports out.2 ∧ reports ≠ [] ∧
      diagnostics = reports.flatMap Prod.snd := by
  match h with
  | .solved => cases hout
  | .stuck (r := r) hround hpending hstuck =>
      obtain ⟨-, reports, hstalls, hr⟩ := hround.exists_stalls hstuck
      have hr : r = ⟨s, reports.map Prod.fst, reports.flatMap Prod.snd, false⟩ := hr
      subst hr
      cases hout
      refine ⟨_, reports, .refl, hround.run_eq (Nat.le_refl _), hstalls, ?_, rfl⟩
      rintro rfl
      exact hpending rfl
  | .again (r := r) hround hprogress hrest =>
      have hpending : r.pending ≠ [] := by
        intro hempty
        rw [hempty] at hrest
        cases hrest
        cases hout
      have hprogressed := hprogress.resolve_left hpending
      obtain ⟨last, reports, hadvances, hlast⟩ := hrest.exists_stuck hout
      refine ⟨last, reports, .head ⟨hpending, r.diagnostics, ?_⟩ hadvances, hlast⟩
      rw [← hprogressed]
      exact hround.run_eq (Nat.le_refl _)

theorem witnesses_sublist_of_unsolved? {pairs : List (Param × Option Ty)} {s : Subst} {u : Unsolved}
    (h : site.unsolved? pairs s = some u) : u.witnesses.Sublist (pairs.map Prod.fst) :=
  (witnesses_of_unsolved? h).trans List.filter_sublist

end Site

/-- Inference that fails has not got to its rounds, or it has got through them and an associated
parameter is left, and then it has nothing to report. Or else it is stuck: after rounds that each
solved something there is one that leaves the substitution as it was, in which nothing is required
of a witness that is open or the search for just what is required fails. The diagnostics are those
of these searches, in the order of the parameters, and there is one at least for every witness of
which something is required. -/
theorem infer_stuck {site : Site} {params : List Param} {args : List (Option Ty)} {seed : Subst}
    {trail : Trail} {m m' : Memory} {diagnostics : List Diagnostic}
    (h : (site.infer params args seed trail).run m = (.error diagnostics, m')) :
    (diagnostics = [] ∧ (params.length ≠ args.length ∨
      site.unsolved? (params.zip args) seed = none ∨
      ∃ u s, site.unsolved? (params.zip args) seed = some u ∧
        (site.rounds (site.judgeBelow trail) trail u.witnesses.length u.witnesses u.subst).run m =
          (.ok s, m') ∧ ∃ p ∈ u.associated, s.lookup p.var = p.ty)) ∨
    ∃ u last reports, params.length = args.length ∧
      site.unsolved? (params.zip args) seed = some u ∧
      Relation.ReflTransGen (site.Advances trail) ⟨u.witnesses, u.subst, m⟩ last ∧
      (site.round (site.judgeBelow trail) trail last.witnesses last.subst).run last.memory =
        (⟨last.subst, reports.map Prod.fst, diagnostics, false⟩, m') ∧
      site.Stalls trail last.subst last.witnesses last.memory reports m' ∧ reports ≠ [] ∧
      diagnostics = reports.flatMap Prod.snd ∧ (reports.map Prod.fst).Sublist params ∧
      ∀ report ∈ reports, site.model.required report.1 last.subst ≠ [] → report.2 ≠ [] := by
  obtain ⟨call, hinfers⟩ := (site.infer_ends params args seed trail m).runs
  rw [h] at hinfers
  generalize hout : ((Except.error diagnostics : Except (List Diagnostic) Subst), m') = out
    at hinfers
  cases hinfers with
  | mismatched hlength =>
      cases hout
      exact .inl ⟨rfl, .inl hlength⟩
  | unfixed hlength hunsolved =>
      cases hout
      exact .inl ⟨rfl, .inr (.inl hunsolved)⟩
  | @repeats _ _ _ _ _ _ u result n calls hlength hunsolved hrepeats =>
      obtain ⟨hresult, rfl⟩ := Prod.mk.inj hout
      cases result with
      | ok s =>
          rw [Site.determined] at hresult
          split at hresult
          · next hleft =>
            cases hresult
            obtain ⟨p, hp, hopen⟩ := List.any_eq_true.1 hleft
            refine .inl ⟨rfl, .inr (.inr ⟨u, s, hunsolved, ?_, p, hp, eq_of_beq hopen⟩)⟩
            exact hrepeats.run_eq (Nat.le_refl _) hrepeats.rounds_le
          · cases hresult
      | error diagnostics' =>
          cases hresult
          obtain ⟨last, reports, hadvances, hround, hstalls, hsome, hreports⟩ :=
            hrepeats.exists_stuck rfl
          have hopen : (reports.map Prod.fst).Sublist last.witnesses :=
            hstalls.map_fst ▸ List.filter_sublist
          have hfirst : u.witnesses.Sublist params := by
            have hamong := Site.witnesses_sublist_of_unsolved? hunsolved
            rwa [List.map_fst_zip hlength.le] at hamong
          exact .inr ⟨u, last, reports, hlength, hunsolved, hadvances, hround, hstalls, hsome,
            hreports, hopen.trans ((Site.sublist_of_advances hadvances).trans hfirst),
            hstalls.report_ne_nil⟩

/-- Of four witnesses the one that there is evidence for is solved, nothing is known of another, and
the search for each of the other two reports. -/
theorem infer_stuck_siblings :
    let site := Registry.ordered.site [] .standard
    let params : List Param :=
      [.witness ⟨"'a"⟩ [.app "Eq" [.string]], .witness ⟨"'b"⟩ [.app "Eq" [.int]],
      .witness ⟨"'c"⟩ [],
        .witness ⟨"'d"⟩ [.app "Ord" [.list .int]]]
    let start : RoundStart := ⟨params, .empty, .empty⟩
    ∃ diagnostics m',
      (site.infer params (params.map fun _ => none) .empty .empty).run .empty =
        (.error diagnostics, m') ∧
      diagnostics.map Diagnostic.concept = [.app "Eq" [.string], .app "Ord" [.list .int]] ∧
      ∃ last reports, Relation.ReflTransGen (site.Advances .empty) start last ∧
        site.Stalls .empty last.subst last.witnesses last.memory reports m' ∧
        diagnostics = reports.flatMap Prod.snd := by
  intro site params start
  let out := (site.infer params (params.map fun _ => none) .empty .empty).run .empty
  have hconcepts : (out.1.mapError (List.map Diagnostic.concept)).map (fun _ => ()) =
      .error [.app "Eq" [.string], .app "Ord" [.list .int]] := by
    decide +kernel
  cases hout : out with
  | mk result m' =>
      rw [hout] at hconcepts
      cases result with
      | ok s => cases hconcepts
      | error diagnostics =>
          refine ⟨diagnostics, m', hout, Except.error.inj hconcepts, ?_⟩
          rcases infer_stuck hout with ⟨rfl, -⟩ |
            ⟨u, last, reports, -, hu, hadvances, -, hstalls, -,
            hreports, -⟩
          · cases hconcepts
          · cases hu
            exact ⟨last, reports, hadvances, hstalls, hreports⟩

end ConceptResolution
