import ConceptResolution.Proofs.Candidates
import ConceptResolution.Proofs.Preference
import ConceptResolution.Proofs.Rounds
import ConceptResolution.Search.Completion

namespace ConceptResolution

open VarSupply

theorem Trail.depth_of_extend {trail inner : Trail} {goal : Goal} {maxDepth : Nat}
    (h : trail.extend goal maxDepth = .ok inner) : inner.depth = trail.depth + 1 := by
  unfold Trail.extend at h
  split at h
  · cases h
  · split at h
    · cases h
    · cases h
      simp [Trail.depth]

def Viable.goal (v : Viable) : Goal :=
  .of v.name (v.subst.applyAll v.candidate.provides)

namespace Memory

/-- A memory after a goal has been settled: a failure that no cycle took part in is remembered. -/
def note (after before : Memory) (goal : Goal) (depth : Nat) : Verdict → Memory
  | .viable _ => after
  | .rejected _ diagnostics =>
    if after.cycles = before.cycles then after.remember goal ⟨depth, diagnostics⟩ else after

theorem cycles_note (after before : Memory) (goal : Goal) (depth : Nat) (verdict : Verdict) :
    (after.note before goal depth verdict).cycles = after.cycles := by
  unfold note
  split
  · rfl
  · split <;> rfl

theorem supply_note (after before : Memory) (goal : Goal) (depth : Nat) (verdict : Verdict) :
    (after.note before goal depth verdict).supply = after.supply := by
  unfold note
  split
  · rfl
  · split <;> rfl

end Memory

namespace Site

variable {site : Site}

theorem run_judge_of_isEmpty {infer : Infer} {trail : Trail} {v : Viable}
    (h : v.candidate.params.isEmpty = true) (m : Memory) :
    (site.judge infer trail v).run m = (.viable v, m) := by
  unfold judge
  rw [h, Bool.or_true, if_pos rfl]
  rfl

theorem isGiven_of_params {i : Instantiated} (h : i.params.isEmpty = false) :
    i.source.isGiven = false := by
  refine Bool.eq_false_iff.2 fun hgiven => ?_
  rw [i.params_of_isGiven hgiven] at h
  cases h

theorem run_judge {infer : Infer} {trail : Trail} {v : Viable}
    (h : v.candidate.params.isEmpty = false) (m : Memory) :
    (site.judge infer trail v).run m =
      match m.known? v.goal trail.depth with
      | some diagnostics => (.rejected v.name diagnostics, m)
      | none =>
        match trail.extend v.goal site.options.maxDepth with
        | .error (.repeated _) => (.rejected v.name [], m.countCycle)
        | .error (.tooDeep _) => (.rejected v.name [], m)
        | .ok inner =>
          (((site.complete infer v inner).run m).1,
            ((site.complete infer v inner).run m).2.note m v.goal trail.depth
              ((site.complete infer v inner).run m).1) := by
  have hsteps : (site.judge infer trail v).run m =
      (match m.known? v.goal trail.depth with
      | some diagnostics => pure (.rejected v.name diagnostics)
      | none =>
        match trail.extend v.goal site.options.maxDepth with
        | .error (.repeated _) => do
          modify Memory.countCycle
          return .rejected v.name []
        | .error (.tooDeep _) => return .rejected v.name []
        | .ok inner => do
          let verdict ← site.complete infer v inner
          match verdict with
          | .viable _ => return verdict
          | .rejected _ diagnostics =>
            if (← get).cycles = m.cycles then
              modify fun n => n.remember v.goal ⟨trail.depth, diagnostics⟩
            return verdict : Search Verdict).run m := by
    unfold judge
    rw [isGiven_of_params h, h, Bool.or_false, if_neg Bool.false_ne_true]
    rfl
  rw [hsteps]
  cases m.known? v.goal trail.depth with
  | some diagnostics => rfl
  | none =>
      cases trail.extend v.goal site.options.maxDepth with
      | error e => cases e <;> rfl
      | ok inner =>
          simp only [StateT.run_bind]
          cases (site.complete infer v inner).run m with
          | mk verdict n =>
              cases verdict with
              | viable v' => rfl
              | rejected name diagnostics =>
                  change StateT.run (if n.cycles = m.cycles then _ else _) n = _
                  rw [Memory.note]
                  split <;> rfl

variable (site) in
def verdict (v : Viable) (trail : Trail) : Except (List Diagnostic) Subst → Verdict
  | .error diagnostics => .rejected v.name diagnostics
  | .ok s =>
    match v.candidate.params.findSome? (site.violated? s) with
    | some constraint => .rejected v.name [.unsatisfiable constraint trail]
    | none => .viable ⟨v.candidate, s.apply v.candidate.ty, s⟩

theorem complete_eq (infer : Infer) (v : Viable) (trail : Trail) :
    site.complete infer v trail =
      (infer v.candidate.params (v.candidate.params.map fun p => v.subst.get? p.var) v.subst
        trail >>= fun result => pure (site.verdict v trail result)) := by
  refine bind_congr fun result => ?_
  cases result with
  | error diagnostics => rfl
  | ok s =>
      simp only [verdict]
      cases v.candidate.params.findSome? (site.violated? s) <;> rfl

theorem eq_of_viable_verdict {v v' : Viable} {trail : Trail}
    {result : Except (List Diagnostic) Subst}
    (h : (site.verdict v trail result).viable? = some v') :
    ∃ s, result = .ok s ∧ v' = ⟨v.candidate, s.apply v.candidate.ty, s⟩ := by
  cases result with
  | error diagnostics => cases h
  | ok s =>
      rw [verdict] at h
      split at h
      · cases h
      · exact ⟨s, rfl, (Option.some.inj h).symm⟩

def completed (params : List Param) (args : List (Option Ty)) (keepOpen : Bool) :
    Except (List Diagnostic) Subst → Option (List Ty)
  | .ok s => some (params.map fun p => s.lookup p.var)
  | .error _ =>
    if keepOpen && mayStayOpen params then some ((args.zip params).map fun a => a.1.getD a.2.ty)
    else none

theorem completeArgs_eq (supplied : List Ty) (params : List Param) (keepOpen : Bool) :
    site.completeArgs supplied params keepOpen =
      match interleave supplied params with
      | none => pure none
      | some args => site.infer params args .empty .empty >>= fun result =>
          pure (completed params args keepOpen result) := by
  unfold completeArgs
  cases interleave supplied params with
  | none => rfl
  | some args =>
      refine bind_congr fun result => ?_
      cases result with
      | ok s => rfl
      | error diagnostics => exact (apply_ite pure _ _ _).symm

theorem resolveUnder_eq (required : List Ty) (seed : Subst) (trail : Trail) :
    site.resolveUnder required seed trail =
      site.resolve (seed.applyAll required) trail >>= fun answer =>
        pure (answer.map fun v => { v with subst := v.subst.compose seed }) := by
  refine bind_congr fun answer => ?_
  cases answer <;> rfl

variable (site)

/-- Inference, inside a trail of goals, that has solved all witnesses where it succeeds. -/
def InferSound (I : Memory → Prop) (infer : Infer) (trail : Trail) : Prop :=
  ∀ (F : Prop) (params : List Param) (args : List (Option Ty)) (A : TyVar → Prop) (seed : Subst)
    (n : Nat), site.Frame F params A n →
    (∀ u, site.unsolved? (params.zip args) seed = some u →
      site.Solves F params A n seed u.witnesses u.subst n) →
    Search.Ensures I (infer params args seed trail) n fun result k => n ≤ k ∧
      ∀ s, result = .ok s → site.Solves F params A n seed [] s k

/-- Judgement, inside a trail of goals, that turns candidates into answers. -/
def JudgeSound (I : Memory → Prop) (judge : Judge) (trail : Trail) : Prop :=
  ∀ (required : List Ty) (v : Viable) (n n' k : Nat), site.Candidate required n n' v →
    (∀ c ∈ required, ∀ x ∈ c.vars, Old n x) → n ≤ n' → n' ≤ k →
    Search.Ensures I (judge trail v) k fun verdict k' => k ≤ k' ∧
      ∀ v', verdict.viable? = some v' → site.Resolved required n k' v'

/-- What is noted of a candidate, in the end, keeps to the invariant. -/
def NoteSound (I : Memory → Prop) (infer : Infer) (trail : Trail) : Prop :=
  ∀ (required : List Ty) (v : Viable) (n n' : Nat) (inner : Trail) (m : Memory),
    site.Candidate required n n' v → (∀ c ∈ required, ∀ x ∈ c.vars, Old n x) → n ≤ n' →
    n' ≤ m.supply.next → v.candidate.params.isEmpty = false →
    trail.extend v.goal site.options.maxDepth = .ok inner → I m →
    I ((site.complete infer v inner).run m).2 →
    I (((site.complete infer v inner).run m).2.note m v.goal trail.depth
      ((site.complete infer v inner).run m).1)

variable {site} {I : Memory → Prop}

theorem Candidate.get?_eq_none {required : List Ty} {v : Viable} {n n' : Nat}
    (h : site.Candidate required n n' v) (hsite : site.WellScoped)
    (hold : ∀ c ∈ required, ∀ x ∈ c.vars, Old n x) :
    ∀ p ∈ v.candidate.params, p.isWitness = true → v.subst.get? p.var = none := by
  intro p hp hwitness
  refine Subst.get?_eq_none_iff.2 fun hdomain => ?_
  exact (h.occurs hsite hold (.inl hdomain)).2 ⟨p, hp, hwitness, rfl⟩

theorem Candidate.solves_unsolved {required : List Ty} {v : Viable} {n n' : Nat}
    (h : site.Candidate required n n' v) (hsite : site.WellScoped)
    (hold : ∀ c ∈ required, ∀ x ∈ c.vars, Old n x) (k : Nat) {u : Unsolved}
    (hu : site.unsolved? (v.candidate.params.zip (v.candidate.params.map fun p =>
      v.subst.get? p.var)) v.subst = some u) :
    site.Solves (site.Fit required) v.candidate.params (site.Known required n n') k v.subst
      u.witnesses u.subst k := by
  rw [unsolved?_get? h.idempotent] at hu
  split at hu
  · cases hu
  · cases hu
    have hwitnesses : (v.candidate.params.filter fun p =>
        p.isWitness && !site.scope.isFixed (v.subst.get? p.var)) =
        v.candidate.params.filter Param.isWitness := by
      refine List.filter_congr fun p hp => ?_
      cases hwitness : p.isWitness with
      | false => rfl
      | true => simp [h.get?_eq_none hsite hold p hp hwitness, Scope.isFixed]
    simp only [hwitnesses]
    exact h.solves hsite hold k

theorem ensures_complete (hsite : site.WellScoped) {infer : Infer} {trail : Trail}
    (hinfer : site.InferSound I infer trail) {required : List Ty} {v : Viable} {n n' k : Nat}
    (h : site.Candidate required n n' v) (hold : ∀ c ∈ required, ∀ x ∈ c.vars, Old n x)
    (hn : n ≤ n') (hk : n' ≤ k) :
    Search.Ensures I (site.complete infer v trail) k fun verdict k' => k ≤ k' ∧
      ∀ v', verdict.viable? = some v' → site.Resolved required n k' v' := by
  rw [complete_eq]
  refine (hinfer _ _ _ _ _ k (h.frame hsite hold hn hk) fun u hu =>
    h.solves_unsolved hsite hold k hu).bind fun result k' ⟨hk', hresult⟩ =>
      Search.ensures_pure ⟨hk', fun v' hv' => ?_⟩
  obtain ⟨s, hs, rfl⟩ := eq_of_viable_verdict hv'
  exact h.resolved hsite hn hk (hresult s hs)

theorem Candidate.resolved_of_isEmpty {required : List Ty} {v : Viable} {n n' k : Nat}
    (h : site.Candidate required n n' v) (hsite : site.WellScoped)
    (hold : ∀ c ∈ required, ∀ x ∈ c.vars, Old n x) (hn : n ≤ n') (hk : n' ≤ k)
    (hempty : v.candidate.params.isEmpty = true) : site.Resolved required n k v := by
  have hsolves := h.solves hsite hold k
  rw [List.isEmpty_iff.1 hempty] at hsolves
  have hresolved := h.resolved hsite hn hk (by rw [List.isEmpty_iff.1 hempty]; exact hsolves)
  rwa [← h.ty] at hresolved

theorem judgeSound_judge (hsite : site.WellScoped) {infer : Infer} {trail : Trail}
    (hinfer : ∀ inner : Trail, inner.depth = trail.depth + 1 → site.InferSound I infer inner)
    (hcount : ∀ m, I m → I m.countCycle) (hnote : site.NoteSound I infer trail) :
    site.JudgeSound I (site.judge infer) trail := by
  intro required v n n' k h hold hn hk m hm hsupply
  cases hempty : v.candidate.params.isEmpty with
  | true =>
      rw [run_judge_of_isEmpty hempty, hsupply]
      refine ⟨hm, Nat.le_refl _, Nat.le_refl k, fun v' hv' => ?_⟩
      obtain rfl : v = v' := by simpa [Verdict.viable?] using hv'
      exact h.resolved_of_isEmpty hsite hold hn hk hempty
  | false =>
      have hrejected : ∀ name diagnostics v',
          (Verdict.rejected name diagnostics).viable? = some v' →
          site.Resolved required n k v' := fun _ _ _ hv' => by cases hv'
      rw [run_judge hempty]
      split
      · exact ⟨hm, Nat.le_refl _, hsupply.ge, hsupply ▸ hrejected _ _⟩
      · split
        · exact ⟨hcount m hm, Nat.le_succ _, hsupply.ge, hsupply ▸ hrejected _ _⟩
        · exact ⟨hm, Nat.le_refl _, hsupply.ge, hsupply ▸ hrejected _ _⟩
        · next inner hinner =>
          obtain ⟨hI, hcycles, hresult⟩ := ensures_complete hsite
            (hinfer inner (Trail.depth_of_extend hinner)) h hold hn hk m hm hsupply
          have hI := hnote required v n n' inner m h hold hn (hsupply ▸ hk) hempty hinner hm hI
          refine ⟨hI, ?_, ?_⟩
          · rw [Memory.cycles_note]
            exact hcycles
          · rw [Memory.supply_note]
            exact hresult

theorem ensures_judgeAll {judge : Judge} {trail : Trail} (hjudge : site.JudgeSound I judge trail)
    {required : List Ty} {n n' k : Nat} (hold : ∀ c ∈ required, ∀ x ∈ c.vars, Old n x)
    {vs : List Viable} (hvs : ∀ v ∈ vs, site.Candidate required n n' v) (hn : n ≤ n')
    (hk : n' ≤ k) :
    Search.Ensures I (judgeAll judge trail vs) k fun verdicts k' => k ≤ k' ∧
      ∀ v ∈ verdicts.filterMap Verdict.viable?, site.Resolved required n k' v := by
  induction vs generalizing k with
  | nil => exact Search.ensures_pure ⟨Nat.le_refl k, by simp⟩
  | cons v vs ih =>
      obtain ⟨hv, hvs⟩ := List.forall_mem_cons.1 hvs
      refine (hjudge required v n n' k hv hold hn hk).bind fun verdict k' ⟨hk', hverdict⟩ => ?_
      refine (ih hvs (hk.trans hk')).bind fun verdicts k'' ⟨hk'', hverdicts⟩ => ?_
      rw [List.forall_mem_filterMap] at hverdicts
      refine Search.ensures_pure ⟨hk'.trans hk'', List.forall_mem_filterMap.2 ?_⟩
      exact List.forall_mem_cons.2 ⟨fun v' hv' => (hverdict v' hv').mono hk'', hverdicts⟩

theorem mem_of_choose {concept : Ty} {trail : Trail} {verdicts : List Verdict} {v : Viable}
    (h : site.choose concept trail verdicts = .ok v) : v ∈ verdicts.filterMap Verdict.viable? := by
  unfold choose at h
  split at h
  · cases h
  · split at h
    · cases h
    · next winner hwinner =>
      cases h
      exact (site.preferred_sublist _).mem (hwinner ▸ List.mem_singleton_self v)
    · cases h

theorem ensures_resolveWith (hI : Memory.IgnoresSupply I) {judge : Judge} {trail : Trail}
    (hjudge : site.JudgeSound I judge trail) {required : List Ty} {n : Nat}
    (hold : ∀ c ∈ required, ∀ x ∈ c.vars, Old n x) :
    Search.Ensures I (site.resolveWith judge required trail) n fun result k => n ≤ k ∧
      ∀ v, result = .ok v → site.Resolved required n k v := by
  cases required with
  | nil => exact Search.ensures_pure ⟨Nat.le_refl n, fun v hv => by cases hv⟩
  | cons concept rest =>
      refine (ensures_matching hI (concept :: rest) n).bind fun vs k ⟨hk, hvs⟩ => ?_
      cases vs with
      | nil =>
          refine (ensures_unprovided? hI _ k).bind fun missing k' hk' => ?_
          exact Search.ensures_pure ⟨hk.trans hk', fun v hv => by cases hv⟩
      | cons v vs =>
          refine (ensures_judgeAll hjudge hold hvs hk (Nat.le_refl k)).bind
            fun verdicts k' ⟨hk', hverdicts⟩ => ?_
          exact Search.ensures_pure ⟨hk.trans hk', fun v hv => hverdicts v (mem_of_choose hv)⟩

section Rounds

variable {F : Prop} {params : List Param} {A : TyVar → Prop} {n : Nat} {seed : Subst}
  {judge : Judge} {trail : Trail}

theorem Solves.not_occurs_of_not_isFixed {before rest : List Param} {s : Subst} {p : Param}
    {k : Nat}
    (h : site.Solves F params A n seed (before ++ p :: rest) s k) (hsite : site.WellScoped)
    (hframe : site.Frame F params A n) (hopen : ¬site.scope.isFixed (s.get? p.var) = true) :
    ¬s.Occurs p.var := by
  refine (h.untouched p (by simp)).resolve_right fun ⟨_, hevidence⟩ => hopen ?_
  exact isFixed_get?_of_isEvidence hsite
    (hframe.free p (h.sublist.subset (by simp)) (h.witness p (by simp))) hevidence

theorem Solves.old_of_required {before rest : List Param} {s : Subst} {p : Param} {k : Nat}
    (h : site.Solves F params A n seed (before ++ p :: rest) s k)
    (hframe : site.Frame F params A n) :
    ∀ c ∈ site.model.required p s, ∀ x ∈ c.vars, Old k x := fun _ hc _ hx =>
  h.old_of_mem_vars_required hframe (h.sublist.subset (by simp)) (h.witness p (by simp)) hc hx

theorem attemptsEnsure_solves (hI : Memory.IgnoresSupply I) (hsite : site.WellScoped)
    (hjudge : site.JudgeSound I judge trail) (hframe : site.Frame F params A n) :
    site.AttemptsEnsure I judge trail (site.Solves F params A n seed) where
  mono := fun h hk => h.mono hk
  fixed := fun h hfixed => h.skip hfixed
  tried := fun h hopen => by
    have hnot := h.not_occurs_of_not_isFixed hsite hframe hopen
    exact (ensures_resolveWith hI hjudge (h.old_of_required hframe)).mono
      fun answer k' ⟨hk', hanswer⟩ =>
        ⟨hk', fun v hv => h.found hsite hframe hnot (hanswer v hv) hk'⟩

end Rounds

theorem inferSound_inferWith (hI : Memory.IgnoresSupply I) (hsite : site.WellScoped) {judge : Judge}
    {trail : Trail} (hjudge : site.JudgeSound I judge trail) :
    site.InferSound I (site.inferWith judge) trail := by
  intro F params args A seed n hframe hstart
  exact (attemptsEnsure_solves hI hsite hjudge hframe).inferWith hstart

theorem inferSound_error (trail : Trail) :
    site.InferSound I (fun _ _ _ _ => return .error []) trail := by
  intro F params args A seed n _ _
  exact Search.ensures_pure ⟨Nat.le_refl n, fun s hs => by cases hs⟩

/-- Whatever is remembered, judgement on any level is sound. -/
theorem judgeSound_judgeWithin (hsite : site.WellScoped) (levels : Nat) (trail : Trail) :
    site.JudgeSound (fun _ => True) (site.judgeWithin levels) trail := by
  have hcount : ∀ m : Memory, True → True := fun _ _ => trivial
  induction levels generalizing trail with
  | zero =>
      refine judgeSound_judge hsite (fun inner _ => inferSound_error inner) hcount ?_
      exact fun _ _ _ _ _ _ _ _ _ _ _ _ _ _ => trivial
  | succ levels ih =>
      refine judgeSound_judge hsite (fun inner _ => ?_) hcount ?_
      · exact inferSound_inferWith (fun _ _ _ => trivial) hsite (ih inner)
      · exact fun _ _ _ _ _ _ _ _ _ _ _ _ _ _ => trivial

end Site

end ConceptResolution
