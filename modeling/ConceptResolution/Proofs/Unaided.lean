import ConceptResolution.Proofs.Soundness
import ConceptResolution.Search.Completion

/-!
The search without a memory, which solves every goal anew and takes note of what hinders it: of a
goal that is cut off, since it is being worked on already or lies too deep, and of a witness that
leaves an associated parameter open.
-/

namespace ConceptResolution

namespace Site

variable (site : Site)

def leavesOpen (v : Viable) : Bool :=
  v.candidate.params.any fun p => p.isAssociated && !site.scope.isFixed (v.subst.get? p.var)

/-- Judgement that remembers nothing but the number of hindrances. -/
def judgeAfresh (infer : Infer) : Judge := fun trail v => do
  if v.candidate.params.isEmpty then
    return .viable v
  else
    match trail.extend v.goal site.options.maxDepth with
    | .error _ =>
      modify Memory.countCycle
      return .rejected v.name []
    | .ok inner =>
      let verdict ← site.complete infer v inner
      if verdict.viable?.any site.leavesOpen then
        modify Memory.countCycle
      return verdict

def judgeAfreshWithin : Nat → Judge
  | 0 => site.judgeAfresh fun _ _ _ _ => return .error []
  | levels + 1 => site.judgeAfresh (site.inferWith (judgeAfreshWithin levels))

/-- A search for what is required that nothing remembered takes part in. -/
def resolveAfresh (required : List Ty) (trail : Trail) :
    Search (Except (List Diagnostic) Viable) :=
  site.resolveWith (site.judgeAfreshWithin (site.options.maxDepth - trail.depth)) required trail

/-- Nothing hinders the search for what is required: no goal is cut off, and no witness leaves an
associated parameter open. -/
def Unhindered (required : List Ty) (trail : Trail) : Prop :=
  ((site.resolveAfresh required trail).run .empty).2.cycles = 0

instance (required : List Ty) (trail : Trail) : Decidable (site.Unhindered required trail) :=
  inferInstanceAs (Decidable (_ = _))

variable {site}

theorem run_judgeAfresh_of_isEmpty {infer : Infer} {trail : Trail} {v : Viable}
    (h : v.candidate.params.isEmpty = true) (m : Memory) :
    (site.judgeAfresh infer trail v).run m = (.viable v, m) := by
  unfold judgeAfresh
  rw [if_pos h]
  rfl

theorem run_judgeAfresh {infer : Infer} {trail : Trail} {v : Viable}
    (h : v.candidate.params.isEmpty = false) (m : Memory) :
    (site.judgeAfresh infer trail v).run m =
      match trail.extend v.goal site.options.maxDepth with
      | .error _ => (.rejected v.name [], m.countCycle)
      | .ok inner =>
        (((site.complete infer v inner).run m).1,
          if ((site.complete infer v inner).run m).1.viable?.any site.leavesOpen then
            ((site.complete infer v inner).run m).2.countCycle
          else ((site.complete infer v inner).run m).2) := by
  unfold judgeAfresh
  rw [if_neg (by simp [h])]
  cases trail.extend v.goal site.options.maxDepth with
  | error e => rfl
  | ok inner =>
      simp only [StateT.run_bind]
      cases (site.complete infer v inner).run m with
      | mk verdict n =>
          change StateT.run (do
            if verdict.viable?.any site.leavesOpen then modify Memory.countCycle
            return verdict : Search Verdict) n = _
          cases verdict.viable?.any site.leavesOpen <;> rfl

theorem judgeSound_judgeAfresh (hsite : site.WellScoped) {infer : Infer} {trail : Trail}
    (hinfer : ∀ inner : Trail, inner.depth = trail.depth + 1 →
      site.InferSound (fun _ => True) infer inner) :
    site.JudgeSound (fun _ => True) (site.judgeAfresh infer) trail := by
  intro required v n n' k h hold hn hk m _ hsupply
  cases hempty : v.candidate.params.isEmpty with
  | true =>
      rw [run_judgeAfresh_of_isEmpty hempty, hsupply]
      refine ⟨trivial, Nat.le_refl _, Nat.le_refl k, fun v' hv' => ?_⟩
      obtain rfl : v = v' := by simpa [Verdict.viable?] using hv'
      exact h.resolved_of_isEmpty hsite hold hn hk hempty
  | false =>
      rw [run_judgeAfresh hempty]
      split
      · exact ⟨trivial, Nat.le_succ _, hsupply.ge, fun v' hv' => by cases hv'⟩
      · next inner hinner =>
        obtain ⟨-, hcycles, hresult⟩ := ensures_complete hsite
          (hinfer inner (Trail.depth_of_extend hinner)) h hold hn hk m trivial hsupply
        refine ⟨trivial, ?_, ?_⟩
        · split
          · exact hcycles.trans (Nat.le_succ _)
          · exact hcycles
        · split
          · exact hresult
          · exact hresult

theorem judgeSound_judgeAfreshWithin (hsite : site.WellScoped) (levels : Nat) (trail : Trail) :
    site.JudgeSound (fun _ => True) (site.judgeAfreshWithin levels) trail := by
  induction levels generalizing trail with
  | zero => exact judgeSound_judgeAfresh hsite fun inner _ => inferSound_error inner
  | succ levels ih =>
      exact judgeSound_judgeAfresh hsite fun inner _ =>
        inferSound_inferWith (fun _ _ _ => trivial) hsite (ih inner)

end Site

end ConceptResolution
