import ConceptResolution.Proofs.Remembering
import ConceptResolution.Search.Completion

/-!
The judgements that a search makes, in their order and with those that each of them takes in turn.
What is remembered changes within a judgement only; between two of them a search does no more than
mint variables.
-/

namespace ConceptResolution

/-- A judgement as it takes place: the candidate and the trail, the memory before and after, and the
judgements that are made on its behalf. -/
structure Judgement where
  trail : Trail
  tried : Viable
  before : Memory
  nested : List Judgement
  verdict : Verdict
  after : Memory

/-- What is remembered is the same, whatever variables have been minted. -/
structure Memory.SameRecord (m m' : Memory) : Prop where
  failures : m'.failures = m.failures
  cycles : m'.cycles = m.cycles

theorem Memory.SameRecord.of_eq {m m' : Memory} (h : m' = m) : m.SameRecord m' :=
  h ▸ ⟨rfl, rfl⟩

theorem Memory.SameRecord.refl (m : Memory) : m.SameRecord m :=
  .of_eq rfl

theorem Memory.SameRecord.trans {m m' m'' : Memory} (h : m.SameRecord m') (h' : m'.SameRecord m'') :
    m.SameRecord m'' :=
  ⟨h'.failures.trans h.failures, h'.cycles.trans h.cycles⟩

theorem Memory.ignoresSupply_sameRecord (m : Memory) : Memory.IgnoresSupply m.SameRecord :=
  fun _ _ h => ⟨h.failures, h.cycles⟩

/-- Judgements of a kind that lead from one memory to another, each from what the one before it has
left. -/
inductive Follow (P : Judgement → Prop) : Memory → List Judgement → Memory → Prop
  | stop {m m' : Memory} (h : m.SameRecord m') : Follow P m [] m'
  | next {m m' : Memory} {j : Judgement} {js : List Judgement} (h : m.SameRecord j.before)
      (hj : P j)
      (hrest : Follow P j.after js m') : Follow P m (j :: js) m'

namespace Follow

variable {P : Judgement → Prop} {m m' m'' : Memory} {js js' : List Judgement}

theorem of_sameRecord (h : m.SameRecord m') (hrest : Follow P m' js m'') : Follow P m js m'' := by
  cases hrest with
  | stop h' => exact .stop (h.trans h')
  | next h' hj hrest => exact .next (h.trans h') hj hrest

theorem append (h : Follow P m js m') (h' : Follow P m' js' m'') : Follow P m (js ++ js') m'' := by
  induction h with
  | stop hsame => exact h'.of_sameRecord hsame
  | next hsame hj _ ih => exact .next hsame hj (ih h')

theorem forall_mem (h : Follow P m js m') : ∀ j ∈ js, P j := by
  induction h with
  | stop _ => simp
  | next _ hj _ ih => exact List.forall_mem_cons.2 ⟨hj, ih⟩

theorem mono {Q : Judgement → Prop} (h : Follow P m js m') (hPQ : ∀ j, P j → Q j) :
    Follow Q m js m' := by
  induction h with
  | stop hsame => exact .stop hsame
  | next hsame hj _ ih => exact .next hsame (hPQ _ hj) ih

end Follow

namespace Site

section Listing

variable (site : Site) (judge : Judge) (trail : Trail) (record : Viable → Memory → Judgement)

def judgementsOn : List Viable → Memory → List Judgement
  | [], _ => []
  | v :: vs, m => record v m :: judgementsOn vs (record v m).after

def judgementsToResolve (required : List Ty) (m : Memory) : List Judgement :=
  if required.isEmpty then []
  else
    let found := (site.matching required).run m
    judgementsOn record found.1 found.2

def judgementsToTry (r : Round) (p : Param) (m : Memory) : List Judgement :=
  if site.scope.isFixed (r.subst.get? p.var) then []
  else site.judgementsToResolve record (site.model.required p r.subst) m

def judgementsInRound : List Param → Round → Memory → List Judgement
  | [], _, _ => []
  | p :: ps, r, m =>
    let tried := (site.attempt judge trail r p).run m
    site.judgementsToTry record r p m ++ judgementsInRound ps tried.1 tried.2

def judgementsInRounds : Nat → List Param → Subst → Memory → List Judgement
  | 0, _, _, _ => []
  | n + 1, witnesses, s, m =>
    let r := (site.round judge trail witnesses s).run m
    site.judgementsInRound judge trail record witnesses ⟨s, [], [], false⟩ m ++
      if r.1.pending.isEmpty ∨ r.1.progressed = false then []
      else judgementsInRounds n r.1.pending r.1.subst r.2

def judgementsToInfer (params : List Param) (args : List (Option Ty)) (seed : Subst) (m : Memory) :
    List Judgement :=
  if params.length ≠ args.length then []
  else
    match site.unsolved? (params.zip args) seed with
    | none => []
    | some u =>
      site.judgementsInRounds judge trail record u.witnesses.length u.witnesses u.subst m

end Listing

/-- The trail inside which a candidate is completed, if judgement gets that far. -/
def entered? (site : Site) (trail : Trail) (v : Viable) (m : Memory) : Option Trail :=
  if v.candidate.params.isEmpty then none
  else
    match m.known? v.goal trail.depth with
    | some _ => none
    | none => (trail.extend v.goal site.options.maxDepth).toOption

/-- The goal of the candidate is being worked on already. -/
def RejectsAsCycle (site : Site) (trail : Trail) (v : Viable) (m : Memory) : Prop :=
  v.candidate.params.isEmpty = false ∧ m.known? v.goal trail.depth = none ∧
    ∃ goal, trail.extend v.goal site.options.maxDepth = .error (.repeated goal)

def judgement (site : Site) : Nat → Trail → Viable → Memory → Judgement
  | 0, trail, v, m =>
    let out := (site.judgeWithin 0 trail v).run m
    ⟨trail, v, m, [], out.1, out.2⟩
  | levels + 1, trail, v, m =>
    let out := (site.judgeWithin (levels + 1) trail v).run m
    let nested := match site.entered? trail v m with
      | none => []
      | some inner =>
        site.judgementsToInfer (site.judgeWithin levels) inner (site.judgement levels inner)
          v.candidate.params (v.candidate.params.map fun p => v.subst.get? p.var) v.subst m
    ⟨trail, v, m, nested, out.1, out.2⟩

section Follow

variable {site : Site} {judge : Judge} {trail : Trail} {record : Viable → Memory → Judgement}
  {P : Judgement → Prop}

variable (site) in
theorem sameRecord_matching (required : List Ty) (m : Memory) :
    m.SameRecord ((site.matching required).run m).2 :=
  (ensures_matching m.ignoresSupply_sameRecord required _ m (.refl m) rfl).1

variable (site) in
theorem sameRecord_unprovided? (required : List Ty) (m : Memory) :
    m.SameRecord ((site.unprovided? required).run m).2 :=
  (ensures_unprovided? m.ignoresSupply_sameRecord required _ m (.refl m) rfl).1

/-- Judgements are recorded as they take place, and are of a kind. -/
structure Records (P : Judgement → Prop) (judge : Judge) (trail : Trail)
    (record : Viable → Memory → Judgement) : Prop where
  kind : ∀ v m, P (record v m)
  before : ∀ v m, (record v m).before = m
  run : ∀ v m, (judge trail v).run m = ((record v m).verdict, (record v m).after)

theorem follow_judgementsOn (h : Records P judge trail record) (vs : List Viable) (m : Memory) :
    Follow P m (judgementsOn record vs m) ((judgeAll judge trail vs).run m).2 := by
  induction vs generalizing m with
  | nil => exact .stop (.refl m)
  | cons v vs ih =>
      have hlast : ((judgeAll judge trail (v :: vs)).run m).2 =
          ((judgeAll judge trail vs).run (record v m).after).2 := by
        rw [judgeAll, StateT.run_bind, h.run]
        rfl
      rw [hlast]
      exact .next (.of_eq (h.before v m)) (h.kind v m) (ih _)

theorem follow_judgementsToResolve (h : Records P judge trail record) (required : List Ty)
    (m : Memory) : Follow P m (site.judgementsToResolve record required m)
      ((site.resolveWith judge required trail).run m).2 := by
  cases required with
  | nil => exact .stop (.refl m)
  | cons c cs =>
      have hmatching := sameRecord_matching site (c :: cs) m
      rw [judgementsToResolve, if_neg (by simp), resolveWith, StateT.run_bind]
      cases hfound : (site.matching (c :: cs)).run m with
      | mk vs m₁ =>
          rw [hfound] at hmatching
          cases vs with
          | nil =>
              exact .stop (hmatching.trans (sameRecord_unprovided? site (c :: cs) m₁))
          | cons v vs => exact (follow_judgementsOn h (v :: vs) m₁).of_sameRecord hmatching

theorem follow_judgementsToTry (h : Records P judge trail record) (r : Round) (p : Param)
    (m : Memory) : Follow P m (site.judgementsToTry record r p m)
      ((site.attempt judge trail r p).run m).2 := by
  rw [judgementsToTry, attempt_eq]
  split
  · exact .stop (.refl m)
  · exact follow_judgementsToResolve h (site.model.required p r.subst) m

theorem follow_judgementsInRound (h : Records P judge trail record) (ps : List Param) (r : Round)
    (m : Memory) : Follow P m (site.judgementsInRound judge trail record ps r m)
      ((ps.foldlM (site.attempt judge trail) r).run m).2 := by
  induction ps generalizing r m with
  | nil => exact .stop (.refl m)
  | cons p ps ih => exact (follow_judgementsToTry h r p m).append (ih _ _)

theorem run_rounds_cons {n : Nat} {p : Param} {ps : List Param} {s : Subst} {m : Memory}
    {r : Round × Memory} (h : (site.round judge trail (p :: ps) s).run m = r) :
    (site.rounds judge trail (n + 1) (p :: ps) s).run m =
      (if r.1.pending.isEmpty then pure (.ok r.1.subst)
      else if r.1.progressed then site.rounds judge trail n r.1.pending r.1.subst
      else pure (.error r.1.diagnostics) : Search _).run r.2 :=
  h ▸ rfl

theorem follow_judgementsInRounds (h : Records P judge trail record) (n : Nat)
    (witnesses : List Param) (s : Subst) (m : Memory) :
    Follow P m (site.judgementsInRounds judge trail record n witnesses s m)
      ((site.rounds judge trail n witnesses s).run m).2 := by
  induction n generalizing witnesses s m with
  | zero => cases witnesses <;> exact .stop (.refl m)
  | succ n ih =>
      cases witnesses with
      | nil => exact .stop (.refl m)
      | cons p ps =>
          have hround : Follow P m _ ((site.round judge trail (p :: ps) s).run m).2 :=
            follow_judgementsInRound h (p :: ps) ⟨s, [], [], false⟩ m
          rw [run_rounds_cons rfl, judgementsInRounds]
          refine hround.append ?_
          generalize (site.round judge trail (p :: ps) s).run m = r
          cases hpending : r.1.pending.isEmpty with
          | true => exact .stop (.refl r.2)
          | false =>
              cases hprogressed : r.1.progressed with
              | true => exact ih r.1.pending r.1.subst r.2
              | false => exact .stop (.refl r.2)

theorem follow_judgementsToInfer (h : Records P judge trail record) (params : List Param)
    (args : List (Option Ty)) (seed : Subst) (m : Memory) :
    Follow P m (site.judgementsToInfer judge trail record params args seed m)
      ((site.inferWith judge params args seed trail).run m).2 := by
  rw [judgementsToInfer, inferWith_eq]
  split
  · exact .stop (.refl m)
  · cases site.unsolved? (params.zip args) seed with
    | none => exact .stop (.refl m)
    | some u => exact follow_judgementsInRounds h u.witnesses.length u.witnesses u.subst m

end Follow

variable {site : Site} {trail inner : Trail} {v : Viable} {m : Memory}

/-- Where judgement does not get inside the goal, inference plays no part in it, and nothing changes
but the count of cycles. -/
theorem exists_run_judge_eq (h : site.entered? trail v m = none) :
    ∃ verdict m', (∀ infer, (site.judge infer trail v).run m = (verdict, m')) ∧
      (m' = m ∨ m' = m.countCycle ∧ site.RejectsAsCycle trail v m) := by
  unfold entered? at h
  split at h
  · next hparams => exact ⟨_, m, fun infer => run_judge_of_isEmpty hparams m, .inl rfl⟩
  · next hparams =>
    have hjudge (infer : Infer) : (site.judge infer trail v).run m = _ :=
      run_judge (Bool.eq_false_iff.2 hparams) m
    split at h
    · next diagnostics hknown => exact ⟨_, m, fun infer => by rw [hjudge, hknown], .inl rfl⟩
    · next hknown =>
      cases hextend : trail.extend v.goal site.options.maxDepth with
      | ok inner => simp [hextend, Except.toOption] at h
      | error e =>
          cases e with
          | repeated goal =>
              exact ⟨_, _, fun infer => by rw [hjudge, hknown, hextend],
                .inr ⟨rfl, Bool.eq_false_iff.2 hparams, hknown, goal, hextend⟩⟩
          | tooDeep limit =>
              exact ⟨_, _, fun infer => by rw [hjudge, hknown, hextend], .inl rfl⟩

theorem of_entered? (h : site.entered? trail v m = some inner) :
    v.candidate.params.isEmpty = false ∧ m.known? v.goal trail.depth = none ∧
      trail.extend v.goal site.options.maxDepth = .ok inner := by
  unfold entered? at h
  split at h
  · cases h
  · next hparams =>
    split at h
    · cases h
    · next hknown =>
      cases hextend : trail.extend v.goal site.options.maxDepth with
      | ok inner' =>
          rw [hextend] at h
          cases h
          exact ⟨Bool.eq_false_iff.2 hparams, hknown, rfl⟩
      | error e =>
          rw [hextend] at h
          cases h

theorem run_complete_snd (infer : Infer) (v : Viable) (inner : Trail) (m : Memory) :
    ((site.complete infer v inner).run m).2 =
      ((infer v.candidate.params (v.candidate.params.map fun p => v.subst.get? p.var) v.subst
        inner).run m).2 := by
  rw [complete_eq]
  rfl

end Site

/-- What is known of a judgement and of those that it takes: either it is made at once, or by
inference inside its goal, which takes the nested ones, and is noted then. -/
inductive Judgement.Lawful (site : Site) : Judgement → Prop
  | immediate {j : Judgement} {infer : Infer}
      (hentered : site.entered? j.trail j.tried j.before = none) (hnested : j.nested = [])
      (hrun : (site.judge infer j.trail j.tried).run j.before = (j.verdict, j.after)) :
      Lawful site j
  | entered {j : Judgement} {inner : Trail} {m : Memory}
      (hentered : site.entered? j.trail j.tried j.before = some inner)
      (hfollow : Follow (·.trail = inner) j.before j.nested m)
      (hnested : ∀ k ∈ j.nested, Lawful site k)
      (hafter : j.after = m.note j.before j.tried.goal j.trail.depth j.verdict) : Lawful site j

namespace Site

variable {site : Site} {trail inner : Trail} {v : Viable} {m : Memory}

theorem lawful_of_entered? {infer : Infer} {nested : List Judgement}
    (h : site.entered? trail v m = some inner)
    (hfollow : Follow (fun j => j.trail = inner ∧ j.Lawful site) m nested
      ((infer v.candidate.params (v.candidate.params.map fun p => v.subst.get? p.var) v.subst
        inner).run m).2) :
    Judgement.Lawful site ⟨trail, v, m, nested, ((site.judge infer trail v).run m).1,
      ((site.judge infer trail v).run m).2⟩ := by
  obtain ⟨hparams, hknown, hextend⟩ := of_entered? h
  have hnested : ∀ j ∈ nested, j.Lawful site := fun j hj => (hfollow.forall_mem j hj).2
  refine .entered h (hfollow.mono fun _ hj => hj.1) hnested ?_
  rw [run_judge hparams, hknown, hextend, ← run_complete_snd]

/-- On whatever level, a judgement is recorded as it takes place, and it is lawful. -/
theorem records_judgement (levels : Nat) (trail : Trail) :
    Records (fun j => j.trail = trail ∧ j.Lawful site) (site.judgeWithin levels) trail
      (site.judgement levels trail) := by
  induction levels generalizing trail with
  | zero =>
      refine ⟨fun v m => ⟨rfl, ?_⟩, fun _ _ => rfl, fun _ _ => rfl⟩
      cases h : site.entered? trail v m with
      | none => exact .immediate h rfl rfl
      | some inner => exact lawful_of_entered? h (.stop (.refl m))
  | succ levels ih =>
      refine ⟨fun v m => ⟨rfl, ?_⟩, fun _ _ => rfl, fun _ _ => rfl⟩
      rw [judgement]
      cases h : site.entered? trail v m with
      | none => exact .immediate h rfl rfl
      | some inner => exact lawful_of_entered? h (follow_judgementsToInfer (ih inner) _ _ _ m)

end Site

/-- A call on a search from outside. -/
inductive Request where
  | filter (required : List Ty)
  | satisfy (candidates : List Viable) (trail : Trail)
  | resolve (required : List Ty) (trail : Trail)
  | infer (params : List Param) (args : List (Option Ty)) (seed : Subst) (trail : Trail)
  | resolveUnder (required : List Ty) (seed : Subst) (trail : Trail)
  | completeArgs (supplied : List Ty) (params : List Param) (keepOpen : Bool)

namespace Site

variable (site : Site)

def serve (m : Memory) : Request → Memory
  | .filter required => ((site.matching required).run m).2
  | .satisfy candidates trail => ((site.satisfy candidates trail).run m).2
  | .resolve required trail => ((site.resolve required trail).run m).2
  | .infer params args seed trail => ((site.infer params args seed trail).run m).2
  | .resolveUnder required seed trail => ((site.resolveUnder required seed trail).run m).2
  | .completeArgs supplied params keepOpen => ((site.completeArgs supplied params keepOpen).run m).2

def judgementBelow (trail : Trail) : Viable → Memory → Judgement :=
  site.judgement (site.options.maxDepth - trail.depth) trail

def judgementsFor (m : Memory) : Request → List Judgement
  | .filter _ => []
  | .satisfy candidates trail => judgementsOn (site.judgementBelow trail) candidates m
  | .resolve required trail => site.judgementsToResolve (site.judgementBelow trail) required m
  | .infer params args seed trail =>
    site.judgementsToInfer (site.judgeBelow trail) trail
      (site.judgementBelow trail) params args seed m
  | .resolveUnder required seed trail =>
    site.judgementsToResolve (site.judgementBelow trail) (seed.applyAll required) m
  | .completeArgs supplied params _ =>
    match interleave supplied params with
    | none => []
    | some args =>
      site.judgementsToInfer (site.judgeBelow .empty) .empty
        (site.judgementBelow .empty) params args
        .empty m

variable {site}

theorem records_judgementBelow (trail : Trail) :
    Records (·.Lawful site) (site.judgeBelow trail) trail (site.judgementBelow trail) :=
  { records_judgement _ trail with kind := fun v m => ((records_judgement _ trail).kind v m).2 }

theorem follow_judgementsFor (m : Memory) (request : Request) :
    Follow (·.Lawful site) m (site.judgementsFor m request) (site.serve m request) := by
  cases request with
  | filter required => exact .stop (sameRecord_matching site required m)
  | satisfy candidates trail =>
      exact follow_judgementsOn (records_judgementBelow trail) candidates m
  | resolve required trail =>
      exact follow_judgementsToResolve (records_judgementBelow trail) required m
  | infer params args seed trail =>
      exact follow_judgementsToInfer (records_judgementBelow trail) params args seed m
  | resolveUnder required seed trail =>
      rw [serve, resolveUnder_eq]
      exact follow_judgementsToResolve (records_judgementBelow trail) (seed.applyAll required) m
  | completeArgs supplied params keepOpen =>
      rw [serve, completeArgs_eq, judgementsFor]
      cases interleave supplied params with
      | none => exact .stop (.refl m)
      | some args =>
          exact follow_judgementsToInfer (records_judgementBelow .empty) params args .empty m

end Site

/-- A moment of a session: between two calls, or at the start or the end of a judgement. -/
inductive Moment where
  | idle (m : Memory)
  | starts (j : Judgement)
  | ends (j : Judgement)

def Moment.memory : Moment → Memory
  | idle m => m
  | starts j => j.before
  | ends j => j.after

namespace Judgement

mutual

def moments : Judgement → List Moment
  | ⟨trail, tried, before, nested, verdict, after⟩ =>
    .starts ⟨trail, tried, before, nested, verdict, after⟩ :: momentsAll nested ++
      [.ends ⟨trail, tried, before, nested, verdict, after⟩]

def momentsAll : List Judgement → List Moment
  | [] => []
  | j :: js => j.moments ++ momentsAll js

end

theorem moments_eq (j : Judgement) :
    j.moments = .starts j :: momentsAll j.nested ++ [.ends j] := by
  cases j
  rfl

theorem starts_mem_moments (j : Judgement) : .starts j ∈ j.moments := by
  simp [moments_eq]

theorem ends_mem_moments (j : Judgement) : .ends j ∈ j.moments := by
  simp [moments_eq]

theorem mem_momentsAll_iff {x : Moment} {js : List Judgement} :
    x ∈ momentsAll js ↔ ∃ j ∈ js, x ∈ j.moments := by
  induction js with
  | nil => simp [momentsAll]
  | cons j js ih => simp [momentsAll, ih]

theorem starts_mem_moments_iff {j k : Judgement} :
    .starts k ∈ j.moments ↔ k = j ∨ ∃ l ∈ j.nested, .starts k ∈ l.moments := by
  rw [moments_eq]
  simp [mem_momentsAll_iff]

/-- A judgement is made on behalf of another one, by way of further ones perhaps. -/
def Within : Judgement → Judgement → Prop :=
  Relation.TransGen fun k j => k ∈ j.nested

end Judgement

def Site.moments (site : Site) : Memory → List Request → List Moment
  | m, [] => [.idle m]
  | m, request :: requests =>
    .idle m :: Judgement.momentsAll (site.judgementsFor m request) ++
      site.moments (site.serve m request) requests

end ConceptResolution
