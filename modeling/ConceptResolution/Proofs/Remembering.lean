import ConceptResolution.Proofs.Calls

/-!
What may be remembered. A failure is kept only where no goal was found to be worked on already, and
then the goal fails in every other place as well that is no less deep, unless the search is hindered
there.
-/

namespace ConceptResolution

namespace Trail

variable {trail trail' inner : Trail} {goal : Goal} {maxDepth : Nat}

theorem extend_eq_ok_iff : trail.extend goal maxDepth = .ok inner ↔
    goal ∉ trail.goals ∧ trail.depth < maxDepth ∧ inner = ⟨trail.goals ++ [goal]⟩ := by
  unfold extend
  split
  · next hmem => simp [hmem]
  · next hmem =>
    split
    · next hdeep =>
      constructor
      · exact fun h => by cases h
      · exact fun h => absurd h.2.1 (Nat.not_lt.2 hdeep)
    · next hdeep =>
      rw [Except.ok.injEq]
      constructor
      · exact fun h => ⟨hmem, Nat.not_le.1 hdeep, h.symm⟩
      · exact fun h => h.2.2.symm

theorem mem_of_extend_eq_repeated {goal' : Goal}
    (h : trail.extend goal maxDepth = .error (.repeated goal')) : goal ∈ trail.goals := by
  unfold extend at h
  split at h
  · assumption
  · split at h <;> cases h

theorem le_of_extend_eq_tooDeep {limit : Nat}
    (h : trail.extend goal maxDepth = .error (.tooDeep limit)) : maxDepth ≤ trail.depth := by
  unfold extend at h
  split at h
  · cases h
  · split at h
    · assumption
    · cases h

end Trail

namespace Site

variable (site : Site)

def inferBelow (judges : Nat → Judge) : Nat → Infer
  | 0 => fun _ _ _ _ => return .error []
  | levels + 1 => site.inferWith (judges levels)

theorem judgeWithin_eq (levels : Nat) :
    site.judgeWithin levels = site.judge (site.inferBelow site.judgeWithin levels) := by
  cases levels <;> rfl

theorem judgeAfreshWithin_eq (levels : Nat) : site.judgeAfreshWithin levels =
    site.judgeAfresh (site.inferBelow site.judgeAfreshWithin levels) := by
  cases levels <;> rfl

/-- A goal that is answered nowhere from some depth on, unless the search is hindered. -/
def Doomed (goal : Goal) (depth : Nat) : Prop :=
  ∀ (required : List Ty) (n : Nat) (v : Viable) (trail : Trail) (levels : Nat) (m : Memory),
    site.Trial required n m.supply.next v → v.candidate.params.isEmpty = false → v.goal = goal →
    depth ≤ trail.depth → site.options.maxDepth ≤ levels + trail.depth →
    ((site.judgeAfreshWithin levels trail v).run m).2.cycles = m.cycles →
    ((site.judgeAfreshWithin levels trail v).run m).1.viable? = none

/-- Only failures are remembered that are failures elsewhere. -/
def Honest (m : Memory) : Prop :=
  ∀ goal f, m.failures.find? goal = some f → site.Doomed goal f.depth

variable {site}

theorem honest_empty : site.Honest .empty := by
  intro goal f h
  rw [Memory.empty, Index.find?_empty] at h
  cases h

theorem ignoresSupply_honest : Memory.IgnoresSupply site.Honest :=
  fun _ _ h => h

theorem Honest.remember {m : Memory} (h : site.Honest m) {goal : Goal} {f : Failure}
    (hgoal : site.Doomed goal f.depth) : site.Honest (m.remember goal f) := by
  intro goal' f' hf'
  rw [Memory.remember, Index.find?_insert] at hf'
  split at hf'
  · next heq =>
    cases hf'
    exact heq ▸ hgoal
  · exact h goal' f' hf'

theorem Honest.doomed_of_known? {m : Memory} (h : site.Honest m) {goal : Goal} {depth : Nat}
    {diagnostics : List Diagnostic} (hknown : m.known? goal depth = some diagnostics) :
    ∃ depth' ≤ depth, site.Doomed goal depth' := by
  unfold Memory.known? at hknown
  split at hknown
  · next f hf =>
    split at hknown
    · next hle => exact ⟨f.depth, hle, h goal f hf⟩
    · cases hknown
  · cases hknown

theorem inferSound_inferBelow {I : Memory → Prop} (hI : Memory.IgnoresSupply I)
    (hsite : site.WellScoped) {judges : Nat → Judge} {levels : Nat} {trail : Trail}
    (h : ∀ lower < levels, lower + 1 = levels → site.JudgeSound I (judges lower) trail) :
    site.InferSound I (site.inferBelow judges levels) trail := by
  cases levels with
  | zero => exact inferSound_error trail
  | succ lower => exact inferSound_inferWith hI hsite (h lower (Nat.lt_succ_self lower) rfl)

theorem inferSound_inferAfreshBelow (hsite : site.WellScoped) (levels : Nat) (trail : Trail) :
    site.InferSound (fun _ => True) (site.inferBelow site.judgeAfreshWithin levels) trail :=
  inferSound_inferBelow ignoresSupply_true hsite fun lower _ _ =>
    judgeSound_judgeAfreshWithin hsite lower trail

theorem run_judgeAfresh_of_unhindered {infer : Infer} {trail : Trail} {v : Viable} {m : Memory}
    (hparams : v.candidate.params.isEmpty = false)
    (hinfer : ∀ inner, m.cycles ≤ ((site.complete infer v inner).run m).2.cycles)
    (hfree : ((site.judgeAfresh infer trail v).run m).2.cycles = m.cycles) :
    ∃ inner, trail.extend v.goal site.options.maxDepth = .ok inner ∧
      (site.judgeAfresh infer trail v).run m = (site.complete infer v inner).run m ∧
      ∀ w, ((site.complete infer v inner).run m).1.viable? = some w →
        site.leavesOpen w = false := by
  rw [run_judgeAfresh hparams] at hfree ⊢
  cases hinner : trail.extend v.goal site.options.maxDepth with
  | error e =>
      rw [hinner] at hfree
      exact absurd hfree (Nat.succ_ne_self _)
  | ok inner =>
      rw [hinner] at hfree
      simp only at hfree ⊢
      have hle := hinfer inner
      split at hfree
      · exact absurd hfree (Nat.ne_of_gt (Nat.lt_succ_of_le hle))
      · next hopen =>
        rw [if_neg hopen]
        refine ⟨inner, rfl, rfl, fun w hw => ?_⟩
        rw [hw] at hopen
        exact Bool.eq_false_iff.2 hopen

variable (site) in
/-- Judgement with a memory on some level: it remembers nothing but failures that are failures
elsewhere, and answers as judgement without a memory does. The latter may take place deeper in the
trail, and inside more goals under the premise `G`. -/
structure Faithful (levels : Nat) : Prop where
  sound : ∀ trail : Trail, site.options.maxDepth ≤ levels + trail.depth →
    site.JudgeSound site.Honest (site.judgeWithin levels) trail
  lockstep : ∀ (levels' : Nat) (trail trail' : Trail) (G : Prop),
    site.options.maxDepth ≤ levels + trail.depth → site.options.maxDepth ≤ levels' + trail'.depth →
    trail.depth ≤ trail'.depth → (G → trail.goals ⊆ trail'.goals) →
    site.JudgeLockstep site.Honest G (site.judgeWithin levels) (site.judgeAfreshWithin levels')
      trail trail'

section Levels

variable {levels levels' : Nat} {trail trail' inner inner' : Trail}

theorem inferSound_of_faithful (hsite : site.WellScoped)
    (hlower : ∀ lower < levels, site.Faithful lower)
    (hlevels : site.options.maxDepth ≤ levels + trail.depth)
    (hinner : inner.depth = trail.depth + 1) :
    site.InferSound site.Honest (site.inferBelow site.judgeWithin levels) inner :=
  inferSound_inferBelow ignoresSupply_honest hsite fun lower hlt heq =>
    (hlower lower hlt).sound inner (by omega)

theorem IsCall.lockstep_completeBelow (hsite : site.WellScoped) (hnamed : site.Named)
    (hlower : ∀ lower < levels, site.Faithful lower)
    (hlevels : site.options.maxDepth ≤ levels + trail.depth)
    (hlevels' : site.options.maxDepth ≤ levels' + trail'.depth)
    (hdepth : trail.depth ≤ trail'.depth) {C G : Prop} (hgoals : G → trail.goals ⊆ trail'.goals)
    {goal : Goal} (hinner : trail.extend goal site.options.maxDepth = .ok inner)
    (hinner' : trail'.extend goal site.options.maxDepth = .ok inner') {F F' : Prop}
    {A A' : TyVar → Prop} {k k' : Nat} {v w : Viable} {i : Instance} {r r' : TyVar → TyVar}
    {ρ : Renaming} (h : site.IsCall F A k v i r) (h' : site.IsCall F' A' k' w i r')
    (htwin : Twin C i r r' ρ v.subst w.subst)
    (hcandidate : C → ∀ τ : Renaming, τ.Agrees ρ k → w.candidate = v.candidate.rename τ)
    (hρ : ρ.Aligned k k') :
    Search.Lockstep site.Honest G ρ
      (site.complete (site.inferBelow site.judgeWithin levels) v inner) k
      (site.complete (site.inferBelow site.judgeAfreshWithin levels') w inner') k'
      fun τ a b => VerdictTwin site C τ a b := by
  obtain ⟨-, hlt, rfl⟩ := Trail.extend_eq_ok_iff.1 hinner
  obtain ⟨-, hlt', rfl⟩ := Trail.extend_eq_ok_iff.1 hinner'
  have hdeeper : ∀ t : Trail, (⟨t.goals ++ [goal]⟩ : Trail).depth = t.depth + 1 := fun t => by
    simp [Trail.depth]
  cases levels with
  | zero => omega
  | succ lower =>
      cases levels' with
      | zero => omega
      | succ lower' =>
          obtain ⟨hsound, hlockstep⟩ := hlower lower (Nat.lt_succ_self lower)
          have hjudge := hlockstep lower' ⟨trail.goals ++ [goal]⟩ ⟨trail'.goals ++ [goal]⟩ G
            (by rw [hdeeper]; omega) (by rw [hdeeper]; omega) (by rw [hdeeper, hdeeper]; omega)
            fun hG => List.append_subset.2 ⟨fun x hx => List.mem_append_left _ (hgoals hG hx),
              List.subset_append_right _ _⟩
          exact h.lockstep_complete hsite hnamed ignoresSupply_honest
            (hsound ⟨trail.goals ++ [goal]⟩ (by rw [hdeeper]; omega))
            (judgeSound_judgeAfreshWithin hsite lower' _) hjudge h' htwin hcandidate hρ

theorem Trial.cycles_complete_le (hsite : site.WellScoped) {required : List Ty} {n : Nat}
    {v : Viable} {m : Memory} (h : site.Trial required n m.supply.next v) (levels : Nat)
    (inner : Trail) : m.cycles ≤
      ((site.complete (site.inferBelow site.judgeAfreshWithin levels) v inner).run m).2.cycles := by
  obtain ⟨hold, n', hv, hn, hk⟩ := h
  exact (ensures_complete hsite (inferSound_inferAfreshBelow hsite levels inner) hv hold hn hk m
    trivial rfl).2.1

/-- A candidate that is rejected, where no goal is found to be worked on already, is rejected as
well wherever else it is wanted for the same goal. -/
theorem noteSound_inferBelow (hsite : site.WellScoped) (hnamed : site.Named)
    (hlower : ∀ lower < levels, site.Faithful lower)
    (hlevels : site.options.maxDepth ≤ levels + trail.depth) :
    site.NoteSound site.Honest (site.inferBelow site.judgeWithin levels) trail := by
  intro required v n n' inner m hv hold hn hk hparams hinner hm hm'
  unfold Memory.note
  split
  · exact hm'
  · next name diagnostics hverdict =>
    split
    · next hcycles =>
      refine hm'.remember fun required' n₁ w trail' levels' m' hw hparams' hgoal hdepth hlevels'
        hfree => ?_
      have htrial : site.Trial required n m.supply.next v := ⟨hold, n', hv, hn, hk⟩
      obtain ⟨i, r, A, hcall⟩ := htrial.exists_isCall hsite hparams
      obtain ⟨i', r', A', hcall'⟩ := hw.exists_isCall hsite hparams'
      obtain ⟨rfl, ρ, hρ, htwin⟩ := hcall.exists_twin hcall' hnamed.tidy hgoal.symm
      rw [judgeAfreshWithin_eq] at hfree ⊢
      obtain ⟨inner', hinner', hrun, hopen⟩ := run_judgeAfresh_of_unhindered hparams'
        (hw.cycles_complete_le hsite levels') hfree
      rw [hrun] at hfree ⊢
      obtain ⟨τ, -, -, hsame⟩ := hcall.lockstep_completeBelow
        (G := False) hsite hnamed hlower hlevels
        hlevels' hdepth False.elim hinner (hgoal ▸ hinner') hcall' htwin False.elim hρ m m' hm rfl
        rfl hfree (.inr hcycles)
      refine Option.eq_none_iff_forall_ne_some.2 fun w' hw' => ?_
      have hrejected := hsame.rejected (by rw [hverdict]; rfl) w' hw'
      rw [hopen w' hw'] at hrejected
      cases hrejected
    · exact hm'

theorem judgeLockstep_judgeWithin (hsite : site.WellScoped) (hnamed : site.Named)
    (hlower : ∀ lower < levels, site.Faithful lower)
    (hlevels : site.options.maxDepth ≤ levels + trail.depth)
    (hlevels' : site.options.maxDepth ≤ levels' + trail'.depth)
    (hdepth : trail.depth ≤ trail'.depth) {G : Prop} (hgoals : G → trail.goals ⊆ trail'.goals) :
    site.JudgeLockstep site.Honest G (site.judgeWithin levels) (site.judgeAfreshWithin levels')
      trail trail' := by
  rintro required required' v n k n' k' ρ hv hv' hρ m m' hm rfl rfl hfree hcycles
  have hsame : (v.rename ρ).candidate.params.isEmpty = v.candidate.params.isEmpty :=
    List.isEmpty_map
  cases hparams : v.candidate.params.isEmpty with
  | true =>
      rw [judgeWithin_eq, judgeAfreshWithin_eq, run_judge_of_isEmpty hparams,
        run_judgeAfresh_of_isEmpty (hsame.trans hparams)]
      exact ⟨ρ, hρ, .refl ρ _, rfl⟩
  | false =>
      have hparams' := hsame.trans hparams
      have hgoal := Viable.goal_rename ρ v
      have hahead :=
        ensures_judge (judgeSound_judgeAfreshWithin hsite levels' trail') hv' m' trivial
        rfl
      have hdoomed := fun depth (hle : depth ≤ trail.depth) (hd : site.Doomed v.goal depth) =>
        hd required' n' (v.rename ρ) trail' levels' m' hv' hparams' hgoal (hle.trans hdepth)
          hlevels' hfree
      have hfree' := hfree
      rw [judgeAfreshWithin_eq] at hfree'
      obtain ⟨inner', hinner', hrun, -⟩ := run_judgeAfresh_of_unhindered hparams'
        (hv'.cycles_complete_le hsite levels') hfree'
      obtain ⟨hnew, hlt, -⟩ := Trail.extend_eq_ok_iff.1 hinner'
      rw [judgeWithin_eq] at hcycles ⊢
      rw [run_judge hparams] at hcycles ⊢
      split
      · next diagnostics hknown =>
        -- the failure is remembered, and the other search finds it anew
        obtain ⟨depth, hle, hd⟩ := hm.doomed_of_known? hknown
        obtain ⟨τ, hτ, hagrees⟩ := hρ.exists_ahead hahead.2.2.1
        exact ⟨τ, hτ, hagrees, hdoomed depth hle hd⟩
      · next hknown =>
        rw [hknown] at hcycles
        split
        · next hrepeated =>
          rw [hrepeated] at hcycles
          have hmem := Trail.mem_of_extend_eq_repeated hrepeated
          have hG := hcycles.resolve_right (Nat.succ_ne_self _)
          exact absurd (hgoals hG hmem) (hgoal ▸ hnew)
        · next hdeep =>
          have hle := Trail.le_of_extend_eq_tooDeep hdeep
          omega
        · next inner hinner =>
          rw [hinner] at hcycles
          rw [judgeAfreshWithin_eq, hrun]
          rw [hrun] at hfree'
          simp only [Memory.cycles_note] at hcycles
          obtain ⟨i, r, A, hcall⟩ := hv.exists_isCall hsite hparams
          obtain ⟨i', r', A', hcall'⟩ := hv'.exists_isCall hsite hparams'
          obtain ⟨rfl, htwin⟩ := hcall.twin_rename hcall'
          have hcandidate : True → ∀ τ : Renaming, τ.Agrees ρ m.supply.next →
              (v.rename ρ).candidate = v.candidate.rename τ := fun _ τ hτ =>
            (congrArg Viable.candidate (hv.rename_eq hsite hτ)).symm
          obtain ⟨τ, hτ, hagrees, hverdict⟩ :=
            hcall.lockstep_completeBelow hsite hnamed hlower hlevels
            hlevels' hdepth hgoals hinner (hgoal ▸ hinner') hcall' htwin hcandidate hρ m m' hm rfl
            rfl hfree' hcycles
          refine ⟨τ, ?_, hagrees, hverdict.same trivial⟩
          rwa [Memory.supply_note]

/-- On every level, judgement with a memory answers as judgement without one does. -/
theorem faithful (hsite : site.WellScoped) (hnamed : site.Named) (levels : Nat) :
    site.Faithful levels := by
  induction levels using Nat.strong_induction_on with
  | _ levels ih =>
      refine
        ⟨fun trail hlevels => ?_, fun levels' trail trail' G hlevels hlevels' hdepth hgoals => ?_⟩
      · rw [judgeWithin_eq]
        exact judgeSound_judge hsite
          (fun inner hinner => inferSound_of_faithful hsite ih hlevels hinner)
          (fun _ hm => hm) (noteSound_inferBelow hsite hnamed ih hlevels)
      · exact judgeLockstep_judgeWithin hsite hnamed ih hlevels hlevels' hdepth hgoals

end Levels

end Site

end ConceptResolution
