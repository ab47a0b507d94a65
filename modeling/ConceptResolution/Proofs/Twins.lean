import ConceptResolution.Proofs.Lockstep

/-!
Two calls of one instance. As long as the parameters of both stand for the same types, up to a
renaming, their witnesses are solved alike.
-/

namespace ConceptResolution

open VarSupply

theorem Scope.isFixed_get? {scope : Scope} {v : TyVar} (hv : v ∉ scope.bound) (s : Subst) :
    scope.isFixed (s.get? v) = scope.isFixed (some (s.lookup v)) := by
  cases h : s.get? v with
  | some t => rw [Subst.lookup_of_get? h]
  | none => simp [Subst.lookup, h, Scope.isFixed, Scope.isBound, hv]

theorem Subst.rename_withWitness (ρ : Renaming) (s : Subst) {p p' : Param}
    (hp : p'.var = ρ.map p.var) (v : Viable) :
    (s.withWitness p v).rename ρ = (s.rename ρ).withWitness p' (v.rename ρ) := by
  unfold withWitness
  rw [rename_compose, rename_compose, hp, get?_rename]
  rcases s.get? p.var with _ | _ | w | _
  · rfl
  · rfl
  · simp only [rename_insert]
    rfl
  all_goals rfl

namespace Site

variable (site : Site)

/-- The parameters of two calls of an instance stand for the same types up to a renaming. Under the
premise `C` the calls are the same altogether. -/
structure Twin (C : Prop) (i : Instance) (r r' : TyVar → TyVar) (ρ : Renaming) (s s' : Subst) :
    Prop where
  lookup : ∀ p ∈ i.params, (s.lookup (r p.var)).rename ρ.map = s'.lookup (r' p.var)
  same : C → s' = s.rename ρ ∧ ∀ p ∈ i.params, r' p.var = ρ.map (r p.var)

/-- A call of an instance whose parameters have been renamed, before and while its witnesses are
solved. -/
structure Call (i : Instance) (r : TyVar → TyVar) (F : Prop) (A : TyVar → Prop) (n : Nat)
    (seed : Subst) : Prop where
  declared : .declared i ∈ site.scope.evidence
  frame : site.Frame F (i.params.map (Param.rename r)) A n
  injective : ∀ p ∈ i.params, ∀ q ∈ i.params, r p.var = r q.var → p.var = q.var
  fresh : ∀ p ∈ i.params, (r p.var).isFresh = true

/-- A candidate with parameters is a call of an instance. A parameter that the candidate speaks of
is one that a provided concept mentions. -/
structure IsCall (F : Prop) (A : TyVar → Prop) (k : Nat) (v : Viable) (i : Instance)
    (r : TyVar → TyVar) : Prop where
  candidate : v.candidate = ⟨.declared i, i.params.map (Param.rename r),
    i.provides.map (Ty.rename r), i.ty.rename r, nofun⟩
  call : site.Call i r F A k v.subst
  idempotent : v.subst.Idempotent
  start : ∀ u, site.unsolved? ((i.params.map (Param.rename r)).zip
    ((i.params.map (Param.rename r)).map fun p => v.subst.get? p.var)) v.subst = some u →
    site.Solves F (i.params.map (Param.rename r)) A k v.subst u.witnesses u.subst k
  provides : ∀ c ∈ i.provides, ∀ x ∈ c.vars, ∃ p ∈ i.params, p.var = x
  old : ∀ x, v.subst.Occurs x → Old k x
  apart : ∀ p ∈ i.params, v.subst.Occurs (r p.var) → p.var ∈ Ty.varsAll i.provides

variable {site} {I : Memory → Prop} {G C : Prop} {i : Instance} {r r' : TyVar → TyVar}
  {ρ τ : Renaming} {s s' : Subst} {k k' n n' : Nat} {F F' : Prop} {A A' : TyVar → Prop}
  {seed seed' : Subst}

theorem Call.notMem_bound (h : site.Call i r F A n seed) (hsite : site.WellScoped) {p : Param}
    (hp : p ∈ i.params) : r p.var ∉ site.scope.bound := by
  intro hbound
  have hfresh := h.fresh p hp
  rw [hsite.bound _ hbound] at hfresh
  cases hfresh

theorem Call.old (h : site.Call i r F A n seed) {p : Param} (hp : p ∈ i.params) :
    Old n (r p.var) :=
  h.frame.old _ (h.frame.param (p.rename r) (List.mem_map_of_mem hp))

theorem Twin.congr (h : Twin C i r r' ρ s s') (hτ : τ.Agrees ρ k)
    (hr : ∀ p ∈ i.params, Old k (r p.var)) (hs : ∀ x, s.Occurs x → Old k x) :
    Twin C i r r' τ s s' where
  lookup p hp := by
    rw [← h.lookup p hp]
    refine hτ.rename fun x hx => ?_
    rcases Subst.eq_or_occurs_of_mem_vars_lookup hx with rfl | hx
    · exact hr p hp
    · exact hs x hx
  same hC := by
    obtain ⟨hsame, hparams⟩ := h.same hC
    refine ⟨hsame.trans (Subst.rename_congr fun x hx => (hτ x (hs x hx)).symm), fun p hp => ?_⟩
    rw [hparams p hp, hτ _ (hr p hp)]

theorem Twin.isFixed (h : Twin C i r r' ρ s s') (hsite : site.WellScoped) (hnamed : site.Named)
    (hcall : site.Call i r F A n seed) (hcall' : site.Call i r' F' A' n' seed') {p : Param}
    (hp : p ∈ i.params) :
    site.scope.isFixed (s'.get? (r' p.var)) = site.scope.isFixed (s.get? (r p.var)) := by
  rw [Scope.isFixed_get? (hcall'.notMem_bound hsite hp), Scope.isFixed_get?
    (hcall.notMem_bound hsite hp), ← h.lookup p hp]
  exact hnamed.isFixed_rename ρ (some (s.lookup (r p.var)))

theorem Twin.apply (h : Twin C i r r' ρ s s') {c : Ty}
    (hc : ∀ v ∈ c.vars, ∃ p ∈ i.params, p.var = v) :
    s'.apply (c.rename r') = (s.apply (c.rename r)).rename ρ.map := by
  unfold Subst.apply Ty.rename
  rw [Ty.subst_subst, Ty.subst_subst, Ty.subst_subst]
  refine Ty.subst_congr fun v hv => ?_
  obtain ⟨p, hp, rfl⟩ := hc v hv
  exact (h.lookup p hp).symm

theorem Twin.applyAll (h : Twin C i r r' ρ s s') (hsite : site.WellScoped)
    (hi : .declared i ∈ site.scope.evidence) {p : Param} (hp : p ∈ i.params) :
    s'.applyAll (p.rename r').constraints =
      (s.applyAll (p.rename r).constraints).map (Ty.rename ρ.map) := by
  simp only [Param.rename, Subst.applyAll, List.map_map]
  exact List.map_congr_left fun c hc => h.apply fun v hv =>
    (((hsite.declared i hi).constraints p hp c hc).2 v hv).1

theorem Twin.required (h : Twin C i r r' ρ s s') (hsite : site.WellScoped) (hnamed : site.Named)
    (hi : .declared i ∈ site.scope.evidence) {p : Param} (hp : p ∈ i.params) :
    site.model.required (p.rename r') s' =
      (site.model.required (p.rename r) s).map (Ty.rename ρ.map) := by
  rw [ConceptModel.required, h.applyAll hsite hi hp,
    eraseDups_map_of_injective (Ty.rename_injective ρ.injective)]
  exact hnamed.model.coverFrom_rename ρ [] _

theorem Twin.violated? (h : Twin C i r r' ρ s s') (hsite : site.WellScoped) (hnamed : site.Named)
    (hi : .declared i ∈ site.scope.evidence) {p : Param} (hp : p ∈ i.params) :
    site.violated? s' (p.rename r') = (site.violated? s (p.rename r)).map (Ty.rename ρ.map) := by
  rw [Site.violated?, Site.violated?, h.applyAll hsite hi hp, List.find?_map]
  refine congrArg (Option.map _) (List.find?_congr fun c _ => congrArg not ?_)
  have hvar : s'.lookup (p.rename r').var = (s.lookup (p.rename r).var).rename ρ.map :=
    (h.lookup p hp).symm
  rw [hvar]
  exact hnamed.satisfies_rename ρ _ c

theorem Twin.withWitness (h : Twin C i r r' ρ s s') (hcall : site.Call i r F A n seed)
    (hcall' : site.Call i r' F' A' n' seed') {p : Param} (hp : p ∈ i.params)
    {before after before' after' : List Param} {k₁ k₁' : Nat} {v : Viable}
    (hs : site.Solves F (i.params.map (Param.rename r)) A n seed
      (before ++ p.rename r :: after) s k)
    (hs' : site.Solves F' (i.params.map (Param.rename r')) A' n' seed'
      (before' ++ p.rename r' :: after') s' k')
    (hopen : ¬s.Occurs (r p.var)) (hopen' : ¬s'.Occurs (r' p.var))
    (hv : site.Resolved (site.model.required (p.rename r) s) k k₁ v)
    (hv' : site.Resolved (site.model.required (p.rename r') s') k' k₁' (v.rename ρ)) :
    Twin C i r r' ρ (s.withWitness (p.rename r) v) (s'.withWitness (p.rename r') (v.rename ρ)) where
  lookup q hq := by
    have happly := (hs.withWitness hcall.frame hopen hv).2.2 (.var (r q.var))
    have happly' := (hs'.withWitness hcall'.frame hopen' hv').2.2 (.var (r' q.var))
    simp only [Subst.apply_var] at happly happly'
    rw [happly, happly', ← Subst.apply_rename, ← h.lookup q hq]
    refine congrArg (Subst.apply _) ?_
    rcases Decidable.em (q.var = p.var) with heq | hne
    · rw [heq, Subst.lookup_of_not_occurs hopen]
      have hself := h.lookup p hp
      rw [Subst.lookup_of_not_occurs hopen, Subst.lookup_of_not_occurs hopen'] at hself
      rw [hself]
      change ((Subst.single (r p.var) v.ty).lookup (r p.var)).rename ρ.map =
        (Subst.single (r' p.var) (v.ty.rename ρ.map)).lookup (r' p.var)
      rw [Subst.lookup_single, Subst.lookup_single, if_pos rfl, if_pos rfl]
    · have hvars : ∀ {s : Subst} {r : TyVar → TyVar}, ¬s.Occurs (r p.var) →
          (∀ p ∈ i.params, ∀ q ∈ i.params, r p.var = r q.var → p.var = q.var) →
          r p.var ∉ (s.lookup (r q.var)).vars := by
        intro s r hopen hinj hx
        rcases Subst.eq_or_occurs_of_mem_vars_lookup hx with hx | hx
        · exact hne (hinj p hp q hq hx).symm
        · exact hopen hx
      rw [h.lookup q hq]
      change (Ty.rename ρ.map ((Subst.single (r p.var) v.ty).apply _)) =
        (Subst.single (r' p.var) _).apply _
      rw [Subst.apply_single_of_notMem (hvars hopen hcall.injective),
        Subst.apply_single_of_notMem (hvars hopen' hcall'.injective), h.lookup q hq]
  same hC := by
    obtain ⟨hsame, hparams⟩ := h.same hC
    refine ⟨?_, hparams⟩
    rw [hsame]
    exact (Subst.rename_withWitness ρ s (hparams p hp) v).symm

/-- The same parameters of an instance, as they stand in two calls of it. -/
def Paired (i : Instance) (r r' : TyVar → TyVar) (ps ps' : List Param) : Prop :=
  ∃ qs : List Param, qs ⊆ i.params ∧ ps = qs.map (Param.rename r) ∧ ps' = qs.map (Param.rename r')

theorem Paired.append {ps ps' : List Param} (h : Paired i r r' ps ps') {p : Param}
    (hp : p ∈ i.params) : Paired i r r' (ps ++ [p.rename r]) (ps' ++ [p.rename r']) := by
  obtain ⟨qs, hqs, rfl, rfl⟩ := h
  refine ⟨qs ++ [p], List.append_subset.2 ⟨hqs, by simpa using hp⟩, by simp, by simp⟩

theorem Paired.length_eq {ps ps' : List Param} (h : Paired i r r' ps ps') :
    ps'.length = ps.length := by
  obtain ⟨qs, -, rfl, rfl⟩ := h
  rw [List.length_map, List.length_map]

/-- Two rounds that have solved the same witnesses. -/
structure RoundTwin (C : Prop) (i : Instance) (r r' : TyVar → TyVar) (ρ : Renaming) (a b : Round) :
    Prop where
  subst : Twin C i r r' ρ a.subst b.subst
  pending : Paired i r r' a.pending b.pending
  progressed : b.progressed = a.progressed

section Rounds

variable {judge judge' : Judge} {trail trail' : Trail}

theorem Solves.old_of_twin {pending : List Param}
    (hs : site.Solves F (i.params.map (Param.rename r)) A n seed pending s k)
    (hcall : site.Call i r F A n seed) : (∀ x, s.Occurs x → Old k x) ∧
      ∀ p ∈ i.params, Old k (r p.var) :=
  ⟨fun _ hx => hs.old_of_occurs hcall.frame hx, fun _ hp => (hcall.old hp).mono hs.le⟩

theorem RoundTwin.congr {a b : Round} (h : RoundTwin C i r r' ρ a b) (hτ : τ.Agrees ρ k)
    (hr : ∀ p ∈ i.params, Old k (r p.var)) (hs : ∀ x, a.subst.Occurs x → Old k x) :
    RoundTwin C i r r' τ a b :=
  ⟨h.subst.congr hτ hr hs, h.pending, h.progressed⟩

theorem RoundTwin.waiting {a b : Round} (h : RoundTwin C i r r' ρ a b) {p : Param}
    (hp : p ∈ i.params) (ds ds' : List Diagnostic) :
    RoundTwin C i r r' ρ { a with pending := a.pending ++ [p.rename r], diagnostics := ds }
      { b with pending := b.pending ++ [p.rename r'], diagnostics := ds' } :=
  ⟨h.subst, h.pending.append hp, h.progressed⟩

theorem RoundTwin.answered {a b : Round} (h : RoundTwin C i r r' ρ a b) {p : Param}
    (hp : p ∈ i.params) {x y : Except (List Diagnostic) Viable}
    (hxy : y.toOption = x.toOption.map (Viable.rename ρ))
    (hfound : ∀ v w, x = .ok v → y = .ok w → w = v.rename ρ →
      Twin C i r r' ρ (a.subst.withWitness (p.rename r) v) (b.subst.withWitness (p.rename r') w)) :
    RoundTwin C i r r' ρ (answered a (p.rename r) x) (answered b (p.rename r') y) := by
  cases x with
  | error ds =>
      cases y with
      | error ds' => exact h.waiting hp _ _
      | ok w => cases hxy
  | ok v =>
      cases y with
      | error ds' => cases hxy
      | ok w =>
          have hvw : w = v.rename ρ := Option.some.inj hxy
          exact ⟨hfound v w rfl rfl hvw, h.pending, rfl⟩

theorem lockstep_attempt (hsite : site.WellScoped) (hnamed : site.Named)
    (hI : Memory.IgnoresSupply I) (hsound : site.JudgeSound I judge trail)
    (hsound' : site.JudgeSound (fun _ => True) judge' trail')
    (hjudge : site.JudgeLockstep I G judge judge' trail trail')
    (hcall : site.Call i r F A n seed) (hcall' : site.Call i r' F' A' n' seed') {a b : Round}
    {p : Param} (hp : p ∈ i.params) {rest rest' : List Param}
    (hs : site.Solves F (i.params.map (Param.rename r)) A n seed
      (a.pending ++ p.rename r :: rest) a.subst k)
    (hs' : site.Solves F' (i.params.map (Param.rename r')) A' n' seed'
      (b.pending ++ p.rename r' :: rest') b.subst k')
    (hab : RoundTwin C i r r' ρ a b) (hρ : ρ.Aligned k k') :
    Search.Lockstep I G ρ (site.attempt judge trail a (p.rename r)) k
      (site.attempt judge' trail' b (p.rename r')) k' fun τ a b =>
      RoundTwin C i r r' τ a b := by
  have hfixed : site.scope.isFixed (b.subst.get? (p.rename r').var) =
      site.scope.isFixed (a.subst.get? (p.rename r).var) :=
    hab.subst.isFixed hsite hnamed hcall hcall' hp
  have hrequired := hab.subst.required hsite hnamed hcall.declared hp
  rw [attempt_eq, attempt_eq, hfixed]
  split
  · exact Search.lockstep_pure hρ hab
  · next hopen =>
    have hnot := hs.not_occurs_of_not_isFixed hsite hcall.frame hopen
    have hnot' := hs'.not_occurs_of_not_isFixed hsite hcall'.frame (hfixed ▸ hopen)
    have hold := hs.old_of_required hcall.frame
    have hold' := hs'.old_of_required hcall'.frame
    have hresolve := hnamed.lockstep_resolveWith hsite hI hsound hsound' hjudge hold hρ
    have hx := ensures_resolveWith hI hsound hold
    have hy := ensures_resolveWith ignoresSupply_true hsound' hold'
    have hanswered : ∀ (τ : Renaming) (x y : Except (List Diagnostic) Viable) (k₁ k₁' : Nat),
        (k ≤ k₁ ∧ ∀ v, x = .ok v →
          site.Resolved (site.model.required (p.rename r) a.subst) k k₁ v) →
        (k' ≤ k₁' ∧ ∀ v, y = .ok v →
          site.Resolved (site.model.required (p.rename r') b.subst) k' k₁' v) →
        τ.Agrees ρ k → y.toOption = x.toOption.map (Viable.rename τ) →
        RoundTwin C i r r' τ (answered a (p.rename r) x) (answered b (p.rename r') y) := by
      intro τ x y k₁ k₁' hx hy hτ hxy
      obtain ⟨hsold, hrold⟩ := hs.old_of_twin hcall
      have hab' := hab.congr hτ hrold hsold
      refine hab'.answered hp hxy fun v w hv hw hvw => ?_
      subst hvw
      exact hab'.subst.withWitness hcall hcall' hp hs hs' hnot hnot' (hx.2 v hv) (hy.2 _ hw)
    rw [hrequired] at hy hanswered ⊢
    exact hresolve.map hx hy hanswered

theorem lockstep_round (hsite : site.WellScoped) (hnamed : site.Named)
    (hI : Memory.IgnoresSupply I) (hsound : site.JudgeSound I judge trail)
    (hsound' : site.JudgeSound (fun _ => True) judge' trail')
    (hjudge : site.JudgeLockstep I G judge judge' trail trail')
    (hcall : site.Call i r F A n seed) (hcall' : site.Call i r' F' A' n' seed') {a b : Round}
    {qs : List Param} (hqs : qs ⊆ i.params)
    (hs : site.Solves F (i.params.map (Param.rename r)) A n seed
      (a.pending ++ qs.map (Param.rename r)) a.subst k)
    (hs' : site.Solves F' (i.params.map (Param.rename r')) A' n' seed'
      (b.pending ++ qs.map (Param.rename r')) b.subst k')
    (hab : RoundTwin C i r r' ρ a b) (hρ : ρ.Aligned k k') :
    Search.Lockstep I G ρ ((qs.map (Param.rename r)).foldlM (site.attempt judge trail) a) k
      ((qs.map (Param.rename r')).foldlM (site.attempt judge' trail') b) k' fun τ a b =>
      RoundTwin C i r r' τ a b := by
  induction qs generalizing a b ρ k k' with
  | nil => exact Search.lockstep_pure hρ hab
  | cons p qs ih =>
      obtain ⟨hp, hqs⟩ := List.cons_subset.1 hqs
      rw [List.map_cons] at hs hs' ⊢
      rw [List.map_cons, List.foldlM_cons, List.foldlM_cons]
      have hkeeps : site.AttemptsEnsure I judge trail
          (site.Solves F (i.params.map (Param.rename r)) A n seed) :=
        attemptsEnsure_solves hI hsite hsound hcall.frame
      have hkeeps' : site.AttemptsEnsure (fun _ => True) judge' trail'
          (site.Solves F' (i.params.map (Param.rename r')) A' n' seed') :=
        attemptsEnsure_solves ignoresSupply_true hsite hsound' hcall'.frame
      refine (lockstep_attempt hsite hnamed hI hsound hsound' hjudge hcall hcall' hp hs hs' hab
        hρ).bind (hkeeps.attempt hs) (hkeeps'.attempt hs') (fun _ _ h => h.1)
        (fun x _ hx => ?_) (fun x _ hx => ?_) ?_
      · exact (hkeeps.round hx.2).mono fun _ _ _ => trivial
      · exact (hkeeps'.round hx.2).mono fun _ _ _ => trivial
      · intro τ x y k₁ k₁' hx hy hτ _ hxy
        exact ih hqs hx.2 hy.2 hxy hτ

/-- Two calls that both fail, or whose witnesses have been solved alike. -/
def ResultTwin (C : Prop) (i : Instance) (r r' : TyVar → TyVar) (ρ : Renaming) :
    Except (List Diagnostic) Subst → Except (List Diagnostic) Subst → Prop
  | .ok s, .ok s' => Twin C i r r' ρ s s'
  | .error _, .error _ => True
  | _, _ => False

theorem lockstep_rounds (hsite : site.WellScoped) (hnamed : site.Named)
    (hI : Memory.IgnoresSupply I) (hsound : site.JudgeSound I judge trail)
    (hsound' : site.JudgeSound (fun _ => True) judge' trail')
    (hjudge : site.JudgeLockstep I G judge judge' trail trail')
    (hcall : site.Call i r F A n seed) (hcall' : site.Call i r' F' A' n' seed') {fuel : Nat}
    {ps ps' : List Param} (hps : Paired i r r' ps ps')
    (hs : site.Solves F (i.params.map (Param.rename r)) A n seed ps s k)
    (hs' : site.Solves F' (i.params.map (Param.rename r')) A' n' seed' ps' s' k')
    (htwin : Twin C i r r' ρ s s') (hρ : ρ.Aligned k k') :
    Search.Lockstep I G ρ (site.rounds judge trail fuel ps s) k
      (site.rounds judge' trail' fuel ps' s') k' fun τ a b => ResultTwin C i r r' τ a b := by
  induction fuel generalizing ps ps' s s' ρ k k' with
  | zero =>
      obtain ⟨qs, -, rfl, rfl⟩ := hps
      cases qs with
      | nil => exact Search.lockstep_pure hρ htwin
      | cons p qs => exact Search.lockstep_pure hρ trivial
  | succ fuel ih =>
      obtain ⟨qs, hqs, rfl, rfl⟩ := hps
      cases qs with
      | nil => exact Search.lockstep_pure hρ htwin
      | cons p qs =>
          have hkeeps : site.AttemptsEnsure I judge trail
              (site.Solves F (i.params.map (Param.rename r)) A n seed) :=
            attemptsEnsure_solves hI hsite hsound hcall.frame
          have hkeeps' : site.AttemptsEnsure (fun _ => True) judge' trail'
              (site.Solves F' (i.params.map (Param.rename r')) A' n' seed') :=
            attemptsEnsure_solves ignoresSupply_true hsite hsound' hcall'.frame
          have hrest : ∀ {J : Memory → Prop} {judge : Judge} {trail : Trail}
              {Q : List Param → Subst → Nat → Prop} {k : Nat} {x : Round},
              site.AttemptsEnsure J judge trail Q → Q x.pending x.subst k →
              Search.Ensures J (if x.pending.isEmpty then return .ok x.subst
                else if x.progressed then site.rounds judge trail fuel x.pending x.subst
                else return .error x.diagnostics) k fun _ _ => True := by
            intro J judge trail Q k x hkeeps hx
            split
            · exact Search.ensures_pure trivial
            · split
              · exact (hkeeps.rounds hx).mono fun _ _ _ => trivial
              · exact Search.ensures_pure trivial
          refine (lockstep_round (a := ⟨s, [], [], false⟩)
            (b := ⟨s', [], [], false⟩) hsite hnamed hI
            hsound hsound' hjudge hcall hcall' hqs hs hs'
            ⟨htwin, ⟨[], List.nil_subset _, rfl, rfl⟩, rfl⟩ hρ).bind (hkeeps.round hs)
            (hkeeps'.round hs') (fun _ _ h => h.1) (fun x _ hx => hrest hkeeps hx.2)
            (fun x _ hx => hrest hkeeps' hx.2) ?_
          intro τ x y k₁ k₁' hx hy hτ _ hxy
          have hempty : y.pending.isEmpty = x.pending.isEmpty := by
            obtain ⟨ps, -, hps, hps'⟩ := hxy.pending
            rw [hps, hps', List.isEmpty_map, List.isEmpty_map]
          rw [hempty, hxy.progressed]
          split
          · exact Search.lockstep_pure hτ hxy.subst
          · split
            · exact ih hxy.pending hx.2 hy.2 hxy.subst hτ
            · exact Search.lockstep_pure hτ trivial

variable {v w : Viable}

variable (site) in
/-- Two calls that are inferred alike. Where they are not the same altogether, the first one may
fail for an associated parameter that the second one leaves open. -/
def InferTwin (C : Prop) (i : Instance) (r r' : TyVar → TyVar) (ρ : Renaming) :
    Except (List Diagnostic) Subst → Except (List Diagnostic) Subst → Prop
  | .ok s, .ok s' => Twin C i r r' ρ s s'
  | .error _, .error _ => True
  | .ok _, .error _ => ¬C
  | .error _, .ok s' => ¬C ∧ ∃ p ∈ i.params, p.isAssociated = true ∧
    site.scope.isFixed (s'.get? (r' p.var)) = false

theorem Twin.paired_open (h : Twin C i r r' ρ s s') (hsite : site.WellScoped) (hnamed : site.Named)
    (hcall : site.Call i r F A n seed) (hcall' : site.Call i r' F' A' n' seed') (kind : ParamKind) :
    Paired i r r'
      ((i.params.map (Param.rename r)).filter fun p =>
        p.kind == kind && !site.scope.isFixed (s.get? p.var))
      ((i.params.map (Param.rename r')).filter fun p =>
        p.kind == kind && !site.scope.isFixed (s'.get? p.var)) := by
  refine ⟨i.params.filter fun p => p.kind == kind && !site.scope.isFixed (s.get? (r p.var)),
    List.filter_subset_self _, List.filter_map, ?_⟩
  rw [List.filter_map]
  refine congrArg (List.map _) (List.filter_congr fun p hp => ?_)
  simp only [Function.comp_apply, Param.rename, h.isFixed hsite hnamed hcall hcall' hp]

theorem Twin.any_ordinary (h : Twin C i r r' ρ s s') (hsite : site.WellScoped)
    (hnamed : site.Named) (hcall : site.Call i r F A n seed)
    (hcall' : site.Call i r' F' A' n' seed') :
    ((i.params.map (Param.rename r')).any fun p =>
      p.isOrdinary && !site.scope.isFixed (s'.get? p.var)) =
    (i.params.map (Param.rename r)).any fun p =>
      p.isOrdinary && !site.scope.isFixed (s.get? p.var) := by
  rw [List.any_map, List.any_map, Bool.eq_iff_iff, List.any_eq_true, List.any_eq_true]
  refine exists_congr fun p => and_congr_right fun hp => ?_
  simp only [Function.comp_apply, Param.isOrdinary, Param.rename,
    h.isFixed hsite hnamed hcall hcall' hp]

/-- An associated parameter that still stands for itself does so in the other call, or it is open
there. -/
theorem Twin.inferTwin (h : Twin C i r r' ρ s s') (hsite : site.WellScoped)
    (hcall : site.Call i r F A n seed) (hcall' : site.Call i r' F' A' n' seed')
    {ps ps' : List Param}
    (hps : Paired i r r' ps ps') (hassociated : ∀ p ∈ ps, p.isAssociated = true) :
    InferTwin site C i r r' ρ (determined ps (.ok s)) (determined ps' (.ok s')) := by
  obtain ⟨qs, hqs, rfl, rfl⟩ := hps
  have hopen : ∀ p ∈ qs, s.lookup (r p.var) = .var (r p.var) →
      s'.lookup (r' p.var) = .var (ρ.map (r p.var)) := by
    intro p hp heq
    rw [← h.lookup p (hqs hp), heq]
    rfl
  have hsame : C → ((qs.map (Param.rename r')).any fun p => s'.lookup p.var == p.ty) =
      (qs.map (Param.rename r)).any fun p => s.lookup p.var == p.ty := by
    intro hC
    rw [List.any_map, List.any_map, Bool.eq_iff_iff, List.any_eq_true, List.any_eq_true]
    refine exists_congr fun p => and_congr_right fun hp => ?_
    have hvar := (h.same hC).2 p (hqs hp)
    simp only [Function.comp_apply, Param.rename, Param.ty, beq_iff_eq]
    rw [← h.lookup p (hqs hp), hvar]
    exact (Ty.rename_injective ρ.injective).eq_iff (b := .var (r p.var))
  rw [determined, determined]
  split
  · next hany =>
    split
    · trivial
    · next hnone =>
      refine ⟨fun hC => hnone ((hsame hC).trans hany), ?_⟩
      rw [List.any_map, List.any_eq_true] at hany
      obtain ⟨p, hp, heq⟩ := hany
      have hlookup := hopen p hp (by simpa [Param.rename, Param.ty] using heq)
      refine ⟨p, hqs hp, hassociated (p.rename r) (List.mem_map_of_mem hp), ?_⟩
      have hfresh : (ρ.map (r p.var)).isFresh = true := by
        rw [ρ.isFresh_map, hcall.fresh p (hqs hp)]
      rw [Scope.isFixed_get? (hcall'.notMem_bound hsite (hqs hp)), hlookup]
      refine Bool.eq_false_iff.2 fun hbound => ?_
      have hmem : ρ.map (r p.var) ∈ site.scope.bound := by
        simpa [Scope.isFixed, Scope.isBound] using hbound
      rw [hsite.bound _ hmem] at hfresh
      cases hfresh
  · next hnone =>
    split
    · next hany => exact fun hC => hnone ((hsame hC).symm.trans hany)
    · exact h

theorem ResultTwin.inferTwin {x y : Except (List Diagnostic) Subst}
    (h : ResultTwin C i r r' ρ x y) (hsite : site.WellScoped)
    (hcall : site.Call i r F A n seed) (hcall' : site.Call i r' F' A' n' seed')
    {ps ps' : List Param}
    (hps : Paired i r r' ps ps') (hassociated : ∀ p ∈ ps, p.isAssociated = true) :
    InferTwin site C i r r' ρ (determined ps x) (determined ps' y) := by
  cases x with
  | error ds =>
      cases y with
      | error ds' => exact h
      | ok s' => exact h.elim
  | ok s =>
      cases y with
      | error ds' => exact h.elim
      | ok s' => exact Twin.inferTwin h hsite hcall hcall' hps hassociated

theorem lockstep_inferWith (hsite : site.WellScoped) (hnamed : site.Named)
    (hI : Memory.IgnoresSupply I) (hsound : site.JudgeSound I judge trail)
    (hsound' : site.JudgeSound (fun _ => True) judge' trail')
    (hjudge : site.JudgeLockstep I G judge judge' trail trail')
    (h : site.IsCall F A k v i r) (h' : site.IsCall F' A' k' w i r')
    (htwin : Twin C i r r' ρ v.subst w.subst) (hρ : ρ.Aligned k k') :
    Search.Lockstep I G ρ
      (site.inferWith judge (i.params.map (Param.rename r))
        ((i.params.map (Param.rename r)).map fun p => v.subst.get? p.var) v.subst trail) k
      (site.inferWith judge' (i.params.map (Param.rename r'))
        ((i.params.map (Param.rename r')).map fun p => w.subst.get? p.var) w.subst trail') k'
      fun τ a b => InferTwin site C i r r' τ a b := by
  have hany := htwin.any_ordinary hsite hnamed h.call h'.call
  have hwitnesses : Paired i r r'
      ((i.params.map (Param.rename r)).filter fun p =>
        p.isWitness && !site.scope.isFixed (v.subst.get? p.var))
      ((i.params.map (Param.rename r')).filter fun p =>
        p.isWitness && !site.scope.isFixed (w.subst.get? p.var)) :=
    htwin.paired_open hsite hnamed h.call h'.call .witness
  have hassociated : Paired i r r'
      ((i.params.map (Param.rename r)).filter fun p =>
        p.isAssociated && !site.scope.isFixed (v.subst.get? p.var))
      ((i.params.map (Param.rename r')).filter fun p =>
        p.isAssociated && !site.scope.isFixed (w.subst.get? p.var)) :=
    htwin.paired_open hsite hnamed h.call h'.call .associated
  have hstart := h.start
  have hstart' := h'.start
  rw [unsolved?_get? h.idempotent] at hstart
  rw [unsolved?_get? h'.idempotent, hany] at hstart'
  rw [inferWith_eq, inferWith_eq, if_neg (by simp), if_neg (by simp), unsolved?_get? h.idempotent,
    unsolved?_get? h'.idempotent, hany]
  split at hstart
  · next hordinary =>
    rw [if_pos hordinary, if_pos hordinary]
    have hfailed : InferTwin site C i r r' ρ (.error []) (.error []) := trivial
    exact Search.lockstep_pure hρ hfailed
  · next hordinary =>
    rw [if_neg hordinary] at hstart'
    rw [if_neg hordinary, if_neg hordinary]
    have hsolves := hstart _ rfl
    have hsolves' := hstart' _ rfl
    simp only [hwitnesses.length_eq]
    refine (lockstep_rounds hsite hnamed hI hsound hsound' hjudge h.call h'.call hwitnesses hsolves
      hsolves' htwin hρ).map ((attemptsEnsure_solves hI hsite hsound h.call.frame).rounds hsolves)
      ((attemptsEnsure_solves ignoresSupply_true hsite hsound' h'.call.frame).rounds hsolves') ?_
    intro τ x y _ _ _ _ _ hxy
    exact hxy.inferTwin hsite h.call h'.call hassociated fun p hp =>
      (Bool.and_eq_true_iff.1 (List.mem_filter.1 hp).2).1

theorem Twin.findSome?_violated? (h : Twin C i r r' ρ s s') (hsite : site.WellScoped)
    (hnamed : site.Named) (hi : .declared i ∈ site.scope.evidence) {qs : List Param}
    (hqs : qs ⊆ i.params) :
    (qs.map (Param.rename r')).findSome? (site.violated? s') =
      ((qs.map (Param.rename r)).findSome? (site.violated? s)).map (Ty.rename ρ.map) := by
  induction qs with
  | nil => rfl
  | cons p qs ih =>
      obtain ⟨hp, hqs⟩ := List.cons_subset.1 hqs
      rw [List.map_cons, List.map_cons, List.findSome?_cons, List.findSome?_cons,
        h.violated? hsite hnamed hi hp]
      cases site.violated? s (p.rename r) with
      | none => exact ih hqs
      | some c => rfl

structure VerdictTwin (site : Site) (C : Prop) (ρ : Renaming) (a b : Verdict) : Prop where
  same : C → b.viable? = a.viable?.map (Viable.rename ρ)
  rejected : a.viable? = none → ∀ w, b.viable? = some w → site.leavesOpen w = true

theorem IsCall.params (h : site.IsCall F A k v i r) :
    v.candidate.params = i.params.map (Param.rename r) := by
  rw [h.candidate]

theorem InferTwin.verdict {x y : Except (List Diagnostic) Subst}
    (hxy : InferTwin site C i r r' ρ x y) (hsite : site.WellScoped) (hnamed : site.Named)
    (h : site.IsCall F A k v i r) (h' : site.IsCall F' A' k' w i r')
    (hcandidate : C → w.candidate = v.candidate.rename ρ) (trail trail' : Trail) :
    VerdictTwin site C ρ (site.verdict v trail x) (site.verdict w trail' y) := by
  cases x with
  | error ds =>
      cases y with
      | error ds' => exact ⟨fun _ => rfl, fun _ w hw => by cases hw⟩
      | ok t' =>
          obtain ⟨hC, p, hp, hassociated, hopen⟩ := hxy
          refine ⟨fun hc => absurd hc hC, fun _ u hu => ?_⟩
          rw [Site.verdict] at hu
          split at hu
          · cases hu
          · cases hu
            refine List.any_eq_true.2 ⟨p.rename r', h'.params ▸ List.mem_map_of_mem hp, ?_⟩
            simp only [Param.rename, hopen, Bool.not_false, Bool.and_true]
            exact hassociated
  | ok t =>
      cases y with
      | error ds' => exact ⟨fun hc => absurd hc hxy, fun _ w hw => by cases hw⟩
      | ok t' =>
          have htt' : Twin C i r r' ρ t t' := hxy
          have hviolated := htt'.findSome?_violated? hsite hnamed h.call.declared
            (List.Subset.refl i.params)
          rw [Site.verdict, Site.verdict, h.params, h'.params, hviolated]
          cases (i.params.map (Param.rename r)).findSome? (site.violated? t) with
          | some c => exact ⟨fun _ => rfl, fun _ w hw => by cases hw⟩
          | none =>
              refine ⟨fun hC => ?_, fun h => by cases h⟩
              obtain ⟨rfl, -⟩ := htt'.same hC
              simp only [Verdict.viable?, Option.map_some, Viable.rename, hcandidate hC]
              rw [← Subst.apply_rename]
              rfl

theorem IsCall.lockstep_complete (hsite : site.WellScoped) (hnamed : site.Named)
    (hI : Memory.IgnoresSupply I) (hsound : site.JudgeSound I judge trail)
    (hsound' : site.JudgeSound (fun _ => True) judge' trail')
    (hjudge : site.JudgeLockstep I G judge judge' trail trail')
    (h : site.IsCall F A k v i r) (h' : site.IsCall F' A' k' w i r')
    (htwin : Twin C i r r' ρ v.subst w.subst)
    (hcandidate : C → ∀ τ : Renaming, τ.Agrees ρ k → w.candidate = v.candidate.rename τ)
    (hρ : ρ.Aligned k k') :
    Search.Lockstep I G ρ (site.complete (site.inferWith judge) v trail) k
      (site.complete (site.inferWith judge') w trail') k' fun τ a b =>
      VerdictTwin site C τ a b := by
  rw [complete_eq, complete_eq, h.params, h'.params]
  refine (lockstep_inferWith hsite hnamed hI hsound hsound' hjudge h h' htwin hρ).map
    (inferSound_inferWith hI hsite hsound F _ _ A v.subst k h.call.frame h.start)
    (inferSound_inferWith ignoresSupply_true hsite hsound' F' _ _ A' w.subst k' h'.call.frame
      h'.start) ?_
  intro τ x y _ _ _ _ hagrees hxy
  exact hxy.verdict hsite hnamed h h' (fun hC => hcandidate hC τ hagrees) trail trail'

end Rounds

end Site

end ConceptResolution
