import ConceptResolution.Proofs.CallTrees
import ConceptResolution.Proofs.Levels
import ConceptResolution.Proofs.Resolution

namespace ConceptResolution

theorem Search.run_bind_of_eq {α β : Type} {x : Search α} {f : α → Search β} {m m' : Memory} {a : α}
    {out : β × Memory} (hx : x.run m = (a, m')) (hf : (f a).run m' = out) :
    (x >>= f).run m = out := by
  rw [StateT.run_bind, hx]
  exact hf

namespace Site

variable {site : Site}

variable (site) in
theorem complete_run_eq {infer : Infer} {v : Viable} {trail : Trail} {m m' : Memory}
    {result : Except (List Diagnostic) Subst}
    (h : (infer v.candidate.params (v.candidate.params.map fun p => v.subst.get? p.var) v.subst
      trail).run m = (result, m')) :
    (site.complete infer v trail).run m = (site.verdict v trail result, m') := by
  rw [complete_eq]
  exact Search.run_bind_of_eq h rfl

theorem rounds_nil (judge : Judge) (trail : Trail) (fuel : Nat) (s : Subst) :
    site.rounds judge trail fuel [] s = pure (.ok s) := by
  cases fuel <;> rfl

mutual

theorem Judges.run_eq {trail : Trail} {v : Viable} {m : Memory} {out : Verdict × Memory}
    {calls : List CallTree} (h : site.Judges trail v m out calls) {levels : Nat}
    (hlevels : site.options.maxDepth - trail.depth ≤ levels) :
    (site.judgeWithin levels trail v).run m = out := by
  match h with
  | .plain hparams => rw [judgeWithin_eq, run_judge_of_isEmpty hparams]
  | .known hparams hknown => rw [judgeWithin_eq, run_judge hparams, hknown]
  | .repeated hparams hknown hextend => rw [judgeWithin_eq, run_judge hparams, hknown, hextend]
  | .tooDeep hparams hknown hextend => rw [judgeWithin_eq, run_judge hparams, hknown, hextend]
  | .entered hparams hknown hextend hinfer =>
      have hdepth := Trail.depth_of_extend hextend
      obtain ⟨-, hless, -⟩ := Trail.extend_eq_ok_iff.1 hextend
      cases levels with
      | zero => omega
      | succ levels =>
          have hrun := complete_run_eq site
            (hinfer.run_eq (by omega : site.options.maxDepth - _ ≤ levels))
          rw [judgeWithin, run_judge hparams, hknown, hextend]
          simp only [hrun]

theorem JudgesAll.run_eq {trail : Trail} {vs : List Viable} {m : Memory}
    {out : List Verdict × Memory} {calls : List CallTree}
    (h : site.JudgesAll trail vs m out calls) {levels : Nat}
    (hlevels : site.options.maxDepth - trail.depth ≤ levels) :
    (judgeAll (site.judgeWithin levels) trail vs).run m = out := by
  match h with
  | .nil => rfl
  | .cons hhead htail =>
      exact Search.run_bind_of_eq (hhead.run_eq hlevels)
        (Search.run_bind_of_eq (htail.run_eq hlevels) rfl)

theorem Resolves.run_eq {required : List Ty} {trail : Trail} {m : Memory}
    {out : Except (List Diagnostic) Viable × Memory} {calls : List CallTree}
    (h : site.Resolves required trail m out calls) {levels : Nat}
    (hlevels : site.options.maxDepth - trail.depth ≤ levels) :
    (site.resolveWith (site.judgeWithin levels) required trail).run m = out := by
  match h with
  | .nothing => rfl
  | .unmatched hmatching hmissing =>
      exact Search.run_bind_of_eq hmatching (Search.run_bind_of_eq hmissing rfl)
  | .matched hmatching hjudges =>
      exact Search.run_bind_of_eq hmatching (Search.run_bind_of_eq (hjudges.run_eq hlevels) rfl)

theorem Tries.run_eq {trail : Trail} {ps : List Param} {r : Round} {m : Memory}
    {out : Round × Memory} {calls : List CallTree} (h : site.Tries trail ps r m out calls)
    {levels : Nat} (hlevels : site.options.maxDepth - trail.depth ≤ levels) :
    (ps.foldlM (site.attempt (site.judgeWithin levels) trail) r).run m = out := by
  match h with
  | .done => rfl
  | .fixed hfixed htail =>
      rw [List.foldlM_cons, attempt_eq, if_pos hfixed]
      exact htail.run_eq hlevels
  | .idle hopen hrequired htail =>
      rw [List.foldlM_cons, attempt_eq, if_neg (by simp [hopen]), hrequired, resolveWith, pure_bind,
        answered_error_nil]
      exact htail.run_eq hlevels
  | .tried hopen hrequired hresolves htail =>
      rw [List.foldlM_cons, attempt_eq, if_neg (by simp [hopen]), bind_assoc]
      exact Search.run_bind_of_eq (hresolves.run_eq hlevels) (htail.run_eq hlevels)

theorem Repeats.run_eq {trail : Trail} {ps : List Param} {s : Subst} {m : Memory}
    {out : Except (List Diagnostic) Subst × Memory} {n : Nat} {calls : List CallTree}
    (h : site.Repeats trail ps s m out n calls) {levels fuel : Nat}
    (hlevels : site.options.maxDepth - trail.depth ≤ levels) (hfuel : n ≤ fuel) :
    (site.rounds (site.judgeWithin levels) trail fuel ps s).run m = out := by
  match h, fuel with
  | .solved, _ =>
      rw [rounds_nil]
      rfl
  | .stuck hround hpending hstuck, fuel + 1 =>
      refine Search.run_bind_of_eq (hround.run_eq hlevels) ?_
      rw [if_neg (by simpa using hpending), if_neg (by simp [hstuck])]
      rfl
  | .again hround hprogress hrest, fuel + 1 =>
      have hrun := hrest.run_eq hlevels (Nat.le_of_succ_le_succ hfuel)
      refine Search.run_bind_of_eq (hround.run_eq hlevels) ?_
      split
      · next hempty => rwa [List.isEmpty_iff.1 hempty, rounds_nil] at hrun
      · next hpending =>
        rw [if_pos (hprogress.resolve_left (by simpa using hpending))]
        exact hrun

theorem Infers.run_eq {params : List Param} {args : List (Option Ty)} {seed : Subst}
    {trail : Trail} {m : Memory} {out : Except (List Diagnostic) Subst × Memory} {call : CallTree}
    (h : site.Infers params args seed trail m out call) {levels : Nat}
    (hlevels : site.options.maxDepth - trail.depth ≤ levels) :
    (site.inferWith (site.judgeWithin levels) params args seed trail).run m = out := by
  match h with
  | .mismatched hlength =>
      rw [inferWith_eq, if_pos hlength]
      rfl
  | .unfixed hlength hunsolved =>
      rw [inferWith_eq, if_neg (by simpa using hlength), hunsolved]
      rfl
  | .repeats hlength hunsolved hrepeats =>
      rw [inferWith_eq, if_neg (by simpa using hlength), hunsolved]
      exact Search.run_bind_of_eq (hrepeats.run_eq hlevels hrepeats.rounds_le) rfl

end

def JudgeEnds (site : Site) (judge : Judge) (trail : Trail) : Prop :=
  ∀ (v : Viable) (m : Memory), ∃ calls, site.Judges trail v m ((judge trail v).run m) calls

def InferEnds (site : Site) (infer : Infer) (trail : Trail) : Prop :=
  ∀ (params : List Param) (args : List (Option Ty)) (seed : Subst) (m : Memory),
    ∃ call, site.Infers params args seed trail m ((infer params args seed trail).run m) call

section Runs

variable {judge : Judge} {infer : Infer} {trail : Trail}

theorem judgeEnds_judge
    (h : ∀ {goal : Goal} {inner : Trail}, trail.extend goal site.options.maxDepth = .ok inner →
      site.InferEnds infer inner) : site.JudgeEnds (site.judge infer) trail := by
  intro v m
  cases hparams : v.candidate.params.isEmpty with
  | true =>
      rw [run_judge_of_isEmpty hparams]
      exact ⟨[], .plain hparams⟩
  | false =>
      rw [run_judge hparams]
      split
      · next hknown => exact ⟨[], .known hparams hknown⟩
      · next hknown =>
        split
        · next hextend => exact ⟨[], .repeated hparams hknown hextend⟩
        · next hextend => exact ⟨[], .tooDeep hparams hknown hextend⟩
        · next inner hextend =>
          obtain ⟨call, hcall⟩ := h hextend v.candidate.params
            (v.candidate.params.map fun p => v.subst.get? p.var) v.subst m
          have hrun : (site.complete infer v inner).run m = _ := complete_run_eq site rfl
          rw [hrun]
          exact ⟨[call], .entered hparams hknown hextend hcall⟩

theorem exists_judgesAll (h : site.JudgeEnds judge trail) (vs : List Viable) (m : Memory) :
    ∃ calls, site.JudgesAll trail vs m ((judgeAll judge trail vs).run m) calls := by
  induction vs generalizing m with
  | nil => exact ⟨[], .nil⟩
  | cons v vs ih =>
      obtain ⟨calls, hhead⟩ := h v m
      obtain ⟨calls', htail⟩ := ih ((judge trail v).run m).2
      exact ⟨calls ++ calls', .cons hhead htail⟩

theorem exists_resolves (h : site.JudgeEnds judge trail) (required : List Ty) (m : Memory) :
    ∃ calls, site.Resolves required trail m ((site.resolveWith judge required trail).run m)
      calls := by
  cases required with
  | nil => exact ⟨[], .nothing⟩
  | cons concept rest =>
      cases hmatching : (site.matching (concept :: rest)).run m with
      | mk vs m₁ =>
          cases vs with
          | nil =>
              have hrun : (site.resolveWith judge (concept :: rest) trail).run m =
                  (.error [.unsatisfiable
                    (((site.unprovided? (concept :: rest)).run m₁).1.getD concept) trail],
                    ((site.unprovided? (concept :: rest)).run m₁).2) :=
                Search.run_bind_of_eq hmatching rfl
              rw [hrun]
              exact ⟨[], .unmatched hmatching rfl⟩
          | cons v vs =>
              obtain ⟨calls, hjudges⟩ := exists_judgesAll h (v :: vs) m₁
              have hrun : (site.resolveWith judge (concept :: rest) trail).run m =
                  (site.choose concept trail ((judgeAll judge trail (v :: vs)).run m₁).1,
                    ((judgeAll judge trail (v :: vs)).run m₁).2) :=
                Search.run_bind_of_eq hmatching rfl
              rw [hrun]
              exact ⟨calls, .matched hmatching hjudges⟩

theorem exists_tries (h : site.JudgeEnds judge trail) (ps : List Param) (r : Round) (m : Memory) :
    ∃ calls, site.Tries trail ps r m ((ps.foldlM (site.attempt judge trail) r).run m) calls := by
  induction ps generalizing r m with
  | nil => exact ⟨[], .done⟩
  | cons p ps ih =>
      rw [List.foldlM_cons, attempt_eq]
      split
      · next hfixed =>
        obtain ⟨calls, htail⟩ := ih r m
        exact ⟨calls, .fixed hfixed htail⟩
      · next hopen =>
        have hopen := Bool.eq_false_iff.2 hopen
        by_cases hrequired : site.model.required p r.subst = []
        · obtain ⟨calls, htail⟩ := ih { r with pending := r.pending ++ [p] } m
          rw [hrequired, resolveWith, pure_bind, answered_error_nil]
          exact ⟨calls, .idle hopen hrequired htail⟩
        · obtain ⟨calls, hresolves⟩ := exists_resolves h (site.model.required p r.subst) m
          rw [bind_assoc]
          obtain ⟨calls', htail⟩ := ih (answered r p
            ((site.resolveWith judge (site.model.required p r.subst) trail).run m).1)
            ((site.resolveWith judge (site.model.required p r.subst) trail).run m).2
          exact ⟨calls ++ calls', .tried hopen hrequired hresolves htail⟩

theorem exists_repeats (h : site.JudgeEnds judge trail) {fuel : Nat} {ps : List Param}
    (hfuel : ps.length ≤ fuel) (s : Subst) (m : Memory) :
    ∃ n calls, site.Repeats trail ps s m ((site.rounds judge trail fuel ps s).run m) n calls := by
  induction fuel generalizing ps s m with
  | zero =>
      rw [List.eq_nil_of_length_eq_zero (Nat.le_zero.1 hfuel)]
      exact ⟨0, [], .solved⟩
  | succ fuel ih =>
      cases ps with
      | nil => exact ⟨0, [], .solved⟩
      | cons p ps =>
          obtain ⟨calls, hround⟩ := exists_tries h (p :: ps) ⟨s, [], [], false⟩ m
          have hpending := hround.pending_le
          cases hr : (site.round judge trail (p :: ps) s).run m with
          | mk r m₁ =>
              have hrun : (site.rounds judge trail (fuel + 1) (p :: ps) s).run m =
                  ((if r.pending.isEmpty then return .ok r.subst
                    else if r.progressed then site.rounds judge trail fuel r.pending r.subst
                    else return .error r.diagnostics :
                      Search (Except (List Diagnostic) Subst)).run m₁) :=
                Search.run_bind_of_eq hr rfl
              rw [round] at hr
              rw [hr] at hround hpending
              rw [hrun]
              split
              · next hempty =>
                have hempty := List.isEmpty_iff.1 hempty
                have hrest : site.Repeats trail r.pending r.subst m₁ (.ok r.subst, m₁) 0 [] :=
                  hempty ▸ .solved
                exact ⟨1, calls ++ [], .again hround (.inl hempty) hrest⟩
              · next hwaiting =>
                split
                · next hprogressed =>
                  simp only [hprogressed, Bool.toNat_true, List.length_nil, Bool.toNat_false,
                    List.length_cons] at hpending hfuel
                  have hless : r.pending.length ≤ fuel := by omega
                  obtain ⟨n, calls', hrest⟩ := ih hless r.subst m₁
                  exact ⟨n + 1, calls ++ calls', .again hround (.inr hprogressed) hrest⟩
                · next hstuck =>
                  exact ⟨1, calls, .stuck hround (by simpa using hwaiting)
                    (Bool.eq_false_iff.2 hstuck)⟩

theorem inferEnds_inferWith (h : site.JudgeEnds judge trail) :
    site.InferEnds (site.inferWith judge) trail := by
  intro params args seed m
  rw [inferWith_eq]
  split
  · next hlength => exact ⟨_, .mismatched hlength⟩
  · next hlength =>
    have hlength := Decidable.not_not.1 hlength
    split
    · next hunsolved => exact ⟨_, .unfixed hlength hunsolved⟩
    · next u hunsolved =>
      obtain ⟨n, calls, hrepeats⟩ := exists_repeats h (Nat.le_refl u.witnesses.length) u.subst m
      exact ⟨_, .repeats hlength hunsolved hrepeats⟩

theorem judgeEnds_judgeWithin {levels : Nat}
    (hlevels : site.options.maxDepth - trail.depth ≤ levels) :
    site.JudgeEnds (site.judgeWithin levels) trail := by
  induction levels generalizing trail with
  | zero =>
      refine judgeEnds_judge fun hextend => ?_
      obtain ⟨-, hless, -⟩ := Trail.extend_eq_ok_iff.1 hextend
      omega
  | succ levels ih =>
      refine judgeEnds_judge fun hextend => inferEnds_inferWith (ih ?_)
      have hdepth := Trail.depth_of_extend hextend
      omega

end Runs

/-- A search ends: a run of it comes to an outcome, every run comes to this one, and every run makes
calls that are as they should be. -/
structure Ends {α C : Type} (Runs : α × Memory → C → Prop) (out : α × Memory) (Calls : C → Prop) :
    Prop where
  runs : ∃ calls, Runs out calls
  unique : ∀ {out' : α × Memory} {calls : C}, Runs out' calls → out' = out
  calls : ∀ {out' : α × Memory} {calls : C}, Runs out' calls → Calls calls

variable (site)

theorem judgeEnds_judgeBelow (trail : Trail) : site.JudgeEnds (site.judgeBelow trail) trail :=
  judgeEnds_judgeWithin (Nat.le_refl _)

theorem satisfy_ends (candidates : List Viable) (trail : Trail) (m : Memory) :
    Ends (site.JudgesAll trail candidates m) ((site.satisfy candidates trail).run m)
      (CallTree.Orderly trail (site.options.maxDepth - trail.depth)) where
  runs := exists_judgesAll (site.judgeEnds_judgeBelow trail) candidates m
  unique h := (h.run_eq (Nat.le_refl _)).symm
  calls h := h.orderly

theorem resolve_ends (required : List Ty) (trail : Trail) (m : Memory) :
    Ends (site.Resolves required trail m) ((site.resolve required trail).run m)
      (CallTree.Orderly trail (site.options.maxDepth - trail.depth)) where
  runs := exists_resolves (site.judgeEnds_judgeBelow trail) required m
  unique h := (h.run_eq (Nat.le_refl _)).symm
  calls h := h.orderly

theorem infer_ends (params : List Param) (args : List (Option Ty)) (seed : Subst) (trail : Trail)
    (m : Memory) :
    Ends (site.Infers params args seed trail m) ((site.infer params args seed trail).run m)
      (CallTree.Bounded trail (site.options.maxDepth - trail.depth)) where
  runs := inferEnds_inferWith (site.judgeEnds_judgeBelow trail) params args seed m
  unique h := (h.run_eq (Nat.le_refl _)).symm
  calls h := h.bounded

theorem resolveUnder_ends (required : List Ty) (seed : Subst) (trail : Trail) (m : Memory) :
    Ends (site.ResolvesUnder required seed trail m) ((site.resolveUnder required seed trail).run m)
      (CallTree.Orderly trail (site.options.maxDepth - trail.depth)) where
  runs := by
    obtain ⟨calls, hresolves⟩ := (site.resolve_ends (seed.applyAll required) trail m).runs
    rw [resolveUnder_eq]
    exact ⟨calls, .resolved hresolves⟩
  unique := by
    rintro out' calls ⟨hresolves⟩
    have hrun := (site.resolve_ends (seed.applyAll required) trail m).unique hresolves
    rw [resolveUnder_eq]
    exact Eq.symm (Search.run_bind_of_eq hrun.symm rfl)
  calls := by
    rintro out' calls ⟨hresolves⟩
    exact hresolves.orderly

theorem completeArgs_ends (supplied : List Ty) (params : List Param) (keepOpen : Bool)
    (m : Memory) :
    Ends (site.Completes supplied params keepOpen m)
      ((site.completeArgs supplied params keepOpen).run m)
      fun calls => calls.length ≤ 1 ∧
        ∀ call ∈ calls, call.Bounded .empty site.options.maxDepth where
  runs := by
    rw [completeArgs_eq]
    cases hargs : interleave supplied params with
    | none => exact ⟨[], .miscounted hargs⟩
    | some args =>
        obtain ⟨call, hinfer⟩ := (site.infer_ends params args .empty .empty m).runs
        exact ⟨[call], .inferred hargs hinfer⟩
  unique := by
    intro out' calls h
    rw [completeArgs_eq]
    cases h with
    | miscounted hargs =>
        rw [hargs]
        rfl
    | inferred hargs hinfer =>
        have hrun := (site.infer_ends params _ .empty .empty m).unique hinfer
        rw [hargs]
        exact Eq.symm (Search.run_bind_of_eq hrun.symm rfl)
  calls := by
    intro out' calls h
    cases h with
    | miscounted hargs => exact ⟨Nat.zero_le _, by simp⟩
    | inferred hargs hinfer =>
        refine ⟨Nat.le_refl _, fun call hcall => ?_⟩
        rw [List.mem_singleton.1 hcall]
        exact hinfer.bounded

end Site

/-- The search for superconcepts ends wherever there are finitely many, and but for it every search
does: unification before its levels are used up, and satisfaction, resolution, inference and
completion with a run of finitely many calls. Calls of inference are nested no more deeply than the
trail of goals may still grow, each inside a goal that is not on the trail of its caller, and none
takes more rounds than it has open witnesses. -/
theorem search_ends (site : Site) :
    (∀ concept, {d | site.model.Reaches concept d}.Finite → site.model.Ends concept) ∧
      (∀ (provided met : List Ty) (s : Subst),
        met.foldlM (site.meet provided) .empty = some s →
        ∀ p r, Finished (unify site.scope.bound p r s)) ∧
      (∀ candidates trail m,
        Site.Ends (site.JudgesAll trail candidates m) ((site.satisfy candidates trail).run m)
          (CallTree.Orderly trail (site.options.maxDepth - trail.depth))) ∧
      (∀ required trail m,
        Site.Ends (site.Resolves required trail m) ((site.resolve required trail).run m)
          (CallTree.Orderly trail (site.options.maxDepth - trail.depth))) ∧
      (∀ params args seed trail m,
        Site.Ends (site.Infers params args seed trail m) ((site.infer params args seed trail).run m)
          (CallTree.Bounded trail (site.options.maxDepth - trail.depth))) ∧
      (∀ required seed trail m,
        Site.Ends (site.ResolvesUnder required seed trail m)
          ((site.resolveUnder required seed trail).run m)
          (CallTree.Orderly trail (site.options.maxDepth - trail.depth))) ∧
      ∀ supplied params keepOpen m,
        Site.Ends (site.Completes supplied params keepOpen m)
          ((site.completeArgs supplied params keepOpen).run m)
          fun calls => calls.length ≤ 1 ∧
            ∀ call ∈ calls, call.Bounded .empty site.options.maxDepth := by
  refine ⟨fun _ => ConceptModel.ends_iff_finite.2, ?_, site.satisfy_ends, site.resolve_ends,
    site.infer_ends, site.resolveUnder_ends, site.completeArgs_ends⟩
  intro provided met s hmet p r
  obtain ⟨pairs, -, -, hrun⟩ := Site.unifies_of_foldlM_meet hmet
  exact finished_unify p r (hrun.sound Subst.idempotent_empty).1

/-- What holds of a list holds of what is in it, and that of a list of it: a goal that grows. -/
def Registry.growing : Registry where
  concepts := [⟨"C", [⟨"'a"⟩], [], [], []⟩]
  instances :=
    [⟨"Grow", [.associated ⟨"'t"⟩, .witness ⟨"'w"⟩ [.app "C" [.list (.var ⟨"'t"⟩)]]],
      [.app "C" [.var ⟨"'t"⟩]], .neither, []⟩]
  typeConcepts := []

/-- A goal that grows on every level is given up where the trail of goals is full. -/
theorem search_ends_growing :
    let site := Registry.growing.site [] ⟨3, true⟩
    let required : List Ty := [.app "C" [.int]]
    site.model.Ends (.app "C" [.int]) ∧
      ((site.resolve required .empty).run .empty).1.toOption.isNone = true ∧
      ∃ calls,
        site.Resolves required .empty .empty ((site.resolve required .empty).run .empty) calls ∧
        CallTree.Orderly .empty 3 calls := by
  intro site required
  have hfinite : site.model.Finitary := Registry.Flat.finitary (by decide)
  obtain ⟨hsupers, -, -, hresolve, -⟩ := search_ends site
  obtain ⟨calls, hcalls⟩ := (hresolve required .empty .empty).runs
  exact ⟨hsupers _ (hfinite _), by decide +kernel, calls, hcalls,
    (hresolve required .empty .empty).calls hcalls⟩

end ConceptResolution
