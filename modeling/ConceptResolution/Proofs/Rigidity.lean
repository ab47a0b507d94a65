import ConceptResolution.Proofs.Resolution
import ConceptResolution.Proofs.Sessions

namespace ConceptResolution

namespace Search

variable {α β : Type}

/-- Every run has such a result, whatever is remembered. -/
def Returns (x : Search α) (Q : α → Prop) : Prop :=
  ∀ m : Memory, Q (x.run m).1

theorem returns_pure {a : α} {Q : α → Prop} (h : Q a) : Returns (pure a) Q :=
  fun _ => h

theorem Returns.bind {x : Search α} {f : α → Search β} {Q : α → Prop} {R : β → Prop}
    (h : Returns x Q) (hf : ∀ a, Q a → Returns (f a) R) : Returns (x >>= f) R :=
  fun m => hf _ (h m) (x.run m).2

theorem returns_true (x : Search α) : Returns x fun _ => True :=
  fun _ => trivial

end Search

namespace Site

variable (site : Site) (V : TyVar → Prop)

/-- The variables in `V` that are free in the scope are bound, if any are, and to types over `V`. -/
def Confined (s : Subst) : Prop :=
  s.Within (fun x => V x ∧ x ∉ site.scope.bound) V

structure ConfinedParam (p : Param) : Prop where
  var : V p.var
  free : p.var ∉ site.scope.bound
  constraints : ∀ c ∈ p.constraints, ∀ x ∈ c.vars, V x

structure ConfinedViable (v : Viable) : Prop where
  params : ∀ p ∈ v.candidate.params, site.ConfinedParam V p
  source : ∀ x ∈ v.candidate.ty.vars, V x
  ty : ∀ x ∈ v.ty.vars, V x
  subst : site.Confined V v.subst

/-- Whatever the evidence in scope speaks of, its parameters renamed, is in `V`. -/
structure Speaks : Prop where
  bound : ∀ x ∈ site.scope.bound, x.isFresh = false
  fresh : ∀ x : TyVar, x.isFresh = true → V x
  provides : ∀ {n n' : Nat} {i : Instantiated}, i.Of n n' → i.source ∈ site.scope.evidence →
    ∀ c ∈ site.model.expand i.provides, ∀ x ∈ c.vars, V x
  constraints : ∀ {n n' : Nat} {i : Instantiated}, i.Of n n' → i.source ∈ site.scope.evidence →
    ∀ p ∈ i.params, ∀ c ∈ p.constraints, ∀ x ∈ c.vars, V x
  ty : ∀ {n n' : Nat} {i : Instantiated}, i.Of n n' → i.source ∈ site.scope.evidence →
    ∀ x ∈ i.ty.vars, V x

def InferConfined (infer : Infer) : Prop :=
  ∀ (params : List Param) (args : List (Option Ty)) (seed : Subst) (trail : Trail),
    (∀ p ∈ params, site.ConfinedParam V p) → (∀ t, some t ∈ args → ∀ x ∈ t.vars, V x) →
    site.Confined V seed →
    Search.Returns (infer params args seed trail) fun result =>
      ∀ s, result = .ok s → site.Confined V s

def JudgeConfined (judge : Judge) : Prop :=
  ∀ (trail : Trail) (v : Viable), site.ConfinedViable V v →
    Search.Returns (judge trail v) fun verdict =>
      ∀ v', verdict.viable? = some v' → site.ConfinedViable V v'

variable {site} {V}

theorem Confined.notMem_bound {s : Subst} (h : site.Confined V s) :
    ∀ x ∈ s.domain, x ∉ site.scope.bound :=
  fun _ hx => (Subst.Within.of_mem_domain h hx).2

theorem Confined.apply {s : Subst} (h : site.Confined V s) {t : Ty} (ht : ∀ x ∈ t.vars, V x) :
    ∀ x ∈ (s.apply t).vars, V x :=
  Subst.Within.of_mem_vars_apply h ht

theorem Confined.withWitness {s : Subst} (hs : site.Confined V s) {p : Param}
    (hp : site.ConfinedParam V p) (hopen : ¬site.scope.isFixed (s.get? p.var) = true) {v : Viable}
    (hv : site.ConfinedViable V v) : site.Confined V (s.withWitness p v) := by
  refine within_withWitness hs ⟨hp.var, hp.free⟩ (fun earlier hget => ?_) hv.ty hv.subst
  refine ⟨(hs p.var _ hget).2 earlier (by simp [Ty.vars]), ?_⟩
  rwa [hget, Scope.isFixed, Scope.isBound, List.contains_iff_mem] at hopen

theorem ConfinedParam.required {p : Param} (hp : site.ConfinedParam V p) {s : Subst}
    (hs : site.Confined V s) : ∀ c ∈ site.model.required p s, ∀ x ∈ c.vars, V x := by
  intro c hc
  obtain ⟨d, hd, rfl⟩ := exists_of_mem_required hc
  exact hs.apply (hp.constraints d hd)

theorem Candidate.confined {required : List Ty} {n n' : Nat} {v : Viable}
    (h : site.Candidate required n n' v) (hspeaks : site.Speaks V)
    (hrequired : ∀ c ∈ required, ∀ x ∈ c.vars, V x) : site.ConfinedViable V v := by
  have hsubst : site.Confined V v.subst := by
    have hoccurs : ∀ x, v.subst.Occurs x → V x := by
      intro x hx
      rcases h.exists_of_occurs hx with ⟨c, hc, hx⟩ | ⟨c, hc, hx⟩
      · exact hrequired c hc x hx
      · exact hspeaks.provides h.of h.source c hc x hx
    intro x t ht
    have hdomain := Subst.mem_domain_iff.2 ⟨t, ht⟩
    exact ⟨⟨hoccurs x (.inl hdomain), h.notMem_bound hdomain⟩,
      fun w hw => hoccurs w (.inr ⟨x, t, ht, hw⟩)⟩
  refine ⟨fun p hp => ?_, hspeaks.ty h.of h.source, ?_, hsubst⟩
  · have hfresh := (h.of.new_param hp).isFresh
    refine ⟨hspeaks.fresh _ hfresh, fun hmem => ?_, hspeaks.constraints h.of h.source p hp⟩
    rw [hspeaks.bound p.var hmem] at hfresh
    cases hfresh
  · rw [h.ty]
    exact hsubst.apply (hspeaks.ty h.of h.source)

theorem returns_matching (hspeaks : site.Speaks V) {required : List Ty}
    (hrequired : ∀ c ∈ required, ∀ x ∈ c.vars, V x) :
    Search.Returns (site.matching required) fun vs => ∀ v ∈ vs, site.ConfinedViable V v := by
  intro m v hv
  obtain ⟨_, hcandidate⟩ := exists_candidate_of_mem_matching hv
  exact hcandidate.confined hspeaks hrequired

section Judgement

variable {infer : Infer} {judge : Judge} {trail : Trail}

theorem returns_complete (h : site.InferConfined V infer) {v : Viable}
    (hv : site.ConfinedViable V v) :
    Search.Returns (site.complete infer v trail) fun verdict =>
      ∀ v', verdict.viable? = some v' → site.ConfinedViable V v' := by
  have hargs : ∀ t, some t ∈ v.candidate.params.map (fun p => v.subst.get? p.var) →
      ∀ x ∈ t.vars, V x := by
    intro t ht
    obtain ⟨p, -, hget⟩ := List.mem_map.1 ht
    exact (hv.subst p.var t hget).2
  rw [complete_eq]
  refine (h _ _ _ trail hv.params hargs hv.subst).bind fun result hresult =>
    Search.returns_pure fun v' hv' => ?_
  obtain ⟨s, hok, rfl⟩ := eq_of_viable_verdict hv'
  have hs := hresult s hok
  exact ⟨hv.params, hv.source, hs.apply hv.source, hs⟩

/-- A viable verdict is on a candidate without parameters, which stands as it is, or on one that has
been completed. -/
theorem returns_judge {Q : Viable → Prop} {v : Viable} (hself : Q v)
    (hcomplete : ∀ inner, Search.Returns (site.complete infer v inner) fun verdict =>
      ∀ v', verdict.viable? = some v' → Q v') :
    Search.Returns (site.judge infer trail v) fun verdict =>
      ∀ v', verdict.viable? = some v' → Q v' := by
  intro m v' hv'
  cases hempty : v.candidate.params.isEmpty with
  | true =>
      rw [run_judge_of_isEmpty hempty] at hv'
      cases hv'
      exact hself
  | false =>
      rw [run_judge hempty] at hv'
      split at hv'
      · cases hv'
      · split at hv'
        · cases hv'
        · cases hv'
        · exact hcomplete _ m v' hv'

theorem judgeConfined_judge (h : site.InferConfined V infer) :
    site.JudgeConfined V (site.judge infer) :=
  fun _ _ hv => returns_judge hv fun _ => returns_complete h hv

theorem returns_judgeAll_of {Q : Viable → Prop}
    (h : ∀ v, Q v → Search.Returns (judge trail v) fun verdict =>
      ∀ v', verdict.viable? = some v' → Q v') {vs : List Viable} (hvs : ∀ v ∈ vs, Q v) :
    Search.Returns (judgeAll judge trail vs) fun verdicts =>
      ∀ v ∈ verdicts.filterMap Verdict.viable?, Q v := by
  induction vs with
  | nil => exact Search.returns_pure (by simp)
  | cons v vs ih =>
      obtain ⟨hv, hvs⟩ := List.forall_mem_cons.1 hvs
      refine (h v hv).bind fun verdict hverdict => (ih hvs).bind fun verdicts hverdicts =>
        Search.returns_pure (List.forall_mem_filterMap.2 ?_)
      exact List.forall_mem_cons.2 ⟨hverdict, List.forall_mem_filterMap.1 hverdicts⟩

theorem returns_resolveWith_of {Q : Viable → Prop} {required : List Ty}
    (hmatching : Search.Returns (site.matching required) fun vs => ∀ v ∈ vs, Q v)
    (h : ∀ v, Q v → Search.Returns (judge trail v) fun verdict =>
      ∀ v', verdict.viable? = some v' → Q v') :
    Search.Returns (site.resolveWith judge required trail) fun result =>
      ∀ v, result = .ok v → Q v := by
  cases required with
  | nil => exact Search.returns_pure fun v hv => by cases hv
  | cons concept rest =>
      refine hmatching.bind fun vs hvs => ?_
      cases vs with
      | nil =>
          exact (Search.returns_true _).bind fun _ _ =>
            Search.returns_pure fun v hv => by cases hv
      | cons v vs =>
          exact (returns_judgeAll_of h hvs).bind fun verdicts hverdicts =>
            Search.returns_pure fun v hv => hverdicts v (mem_of_choose hv)

theorem returns_judgeAll (h : site.JudgeConfined V judge) {vs : List Viable}
    (hvs : ∀ v ∈ vs, site.ConfinedViable V v) :
    Search.Returns (judgeAll judge trail vs) fun verdicts =>
      ∀ v ∈ verdicts.filterMap Verdict.viable?, site.ConfinedViable V v :=
  returns_judgeAll_of (h trail) hvs

theorem returns_resolveWith (h : site.JudgeConfined V judge) (hspeaks : site.Speaks V)
    {required : List Ty} (hrequired : ∀ c ∈ required, ∀ x ∈ c.vars, V x) :
    Search.Returns (site.resolveWith judge required trail) fun result =>
      ∀ v, result = .ok v → site.ConfinedViable V v :=
  returns_resolveWith_of (returns_matching hspeaks hrequired) (h trail)

end Judgement

section Rounds

variable (site) {judge : Judge} {trail : Trail} {P : Subst → Prop} {A : Param → Prop}

/-- A property of substitutions stays true under a witness that is found for an open parameter. -/
def SolvingKeeps (judge : Judge) (trail : Trail) (P : Subst → Prop) (A : Param → Prop) : Prop :=
  ∀ (s : Subst) (p : Param), P s → A p → ¬site.scope.isFixed (s.get? p.var) = true →
    Search.Returns (site.resolveWith judge (site.model.required p s) trail) fun answer =>
      ∀ v, answer = .ok v → P (s.withWitness p v)

variable {site}

theorem SolvingKeeps.attemptsKeep (h : site.SolvingKeeps judge trail P A) :
    site.AttemptsKeep judge trail fun ps s _ => P s ∧ ∀ p ∈ ps, A p where
  fixed := fun ⟨hs, hps⟩ _ =>
    ⟨hs, fun p hp => hps p (((List.sublist_cons_self _ _).append_left _).subset hp)⟩
  tried := fun hopen m ⟨hs, hps⟩ => by
    have hp := hps _ (List.mem_append_right _ List.mem_cons_self)
    refine ⟨fun v hv => ⟨h _ _ hs hp hopen m v hv, fun q hq => ?_⟩, fun _ _ => ⟨hs, hps⟩⟩
    exact hps q (((List.sublist_cons_self _ _).append_left _).subset hq)

theorem returns_inferWith (h : site.SolvingKeeps judge trail P A) {params : List Param}
    {args : List (Option Ty)} {seed : Subst}
    (hstart : ∀ u, site.unsolved? (params.zip args) seed = some u →
      P u.subst ∧ ∀ p ∈ u.witnesses, A p) :
    Search.Returns (site.inferWith judge params args seed trail) fun result =>
      ∀ s, result = .ok s → P s := by
  rw [inferWith_eq]
  split
  · exact Search.returns_pure fun s hs => by cases hs
  · split
    · exact Search.returns_pure fun s hs => by cases hs
    · next u hu =>
      have hrounds : Search.Returns (site.rounds judge trail u.witnesses.length u.witnesses u.subst)
          fun result => ∀ s, result = .ok s → P s := fun m s hs =>
        ((h.attemptsKeep.rounds _ u.witnesses u.subst m (hstart u hu)).1 s hs).1
      exact hrounds.bind fun result hresult =>
        Search.returns_pure fun s hs => hresult s (ok_of_determined hs)

end Rounds

section Inference

variable {judge : Judge}

theorem inferConfined_inferWith (h : site.JudgeConfined V judge) (hspeaks : site.Speaks V) :
    site.InferConfined V (site.inferWith judge) := by
  intro params args seed trail hparams hargs hseed
  have hsolving : site.SolvingKeeps judge trail (site.Confined V) (site.ConfinedParam V) := by
    intro s p hs hp hopen m v hv
    exact hs.withWitness hp hopen (returns_resolveWith h hspeaks (hp.required hs) m v hv)
  refine returns_inferWith hsolving fun u hu =>
    start_of_unsolved? (fun p hp => ⟨hp.var, hp.free⟩) (fun pair hpair => ?_) hseed hu
  obtain ⟨hp, harg⟩ := List.of_mem_zip hpair
  exact ⟨hparams pair.1 hp, fun t ht => hargs t (ht ▸ harg)⟩

theorem judgeConfined_judgeWithin (hspeaks : site.Speaks V) (levels : Nat) :
    site.JudgeConfined V (site.judgeWithin levels) := by
  induction levels with
  | zero =>
      have hfails : site.InferConfined V fun _ _ _ _ => return .error [] := fun _ _ _ _ _ _ _ =>
        Search.returns_pure fun s hs => by cases hs
      exact judgeConfined_judge hfails
  | succ levels ih => exact judgeConfined_judge (inferConfined_inferWith ih hspeaks)

end Inference

theorem speaks_any (hbound : ∀ x ∈ site.scope.bound, x.isFresh = false) :
    site.Speaks fun _ => True where
  bound := hbound
  fresh _ _ := trivial
  provides _ _ _ _ _ _ := trivial
  constraints _ _ _ _ _ _ _ _ := trivial
  ty _ _ _ _ := trivial

end Site

/-- No search binds a variable of its scope, in whatever state of memory and under whatever
declarations: neither matching, nor judgement on what matching has found, nor resolution, nor
inference of parameters outside the scope. -/
theorem scope_rigid {site : Site} (hbound : ∀ x ∈ site.scope.bound, x.isFresh = false) :
    (∀ (required : List Ty) (m : Memory), ∀ v ∈ ((site.matching required).run m).1,
      ∀ x ∈ v.subst.domain, x ∉ site.scope.bound) ∧
      (∀ (required : List Ty) (m : Memory), ∀ candidates ⊆ ((site.matching required).run m).1,
        ∀ (trail : Trail) (m' : Memory),
        ∀ v ∈ ((site.satisfy candidates trail).run m').1.filterMap Verdict.viable?,
        ∀ x ∈ v.subst.domain, x ∉ site.scope.bound) ∧
      (∀ (required : List Ty) (trail : Trail) (m : Memory) (v : Viable),
        ((site.resolve required trail).run m).1 = .ok v →
        ∀ x ∈ v.subst.domain, x ∉ site.scope.bound) ∧
      ∀ (params : List Param) (args : List (Option Ty)) (seed : Subst) (trail : Trail) (m : Memory)
        (s : Subst), (∀ p ∈ params, p.var ∉ site.scope.bound) →
        (∀ x ∈ seed.domain, x ∉ site.scope.bound) →
        ((site.infer params args seed trail).run m).1 = .ok s →
        ∀ x ∈ s.domain, x ∉ site.scope.bound := by
  have hspeaks := Site.speaks_any hbound
  have hjudge : ∀ trail, site.JudgeConfined (fun _ => True) (site.judgeBelow trail) := fun trail =>
    Site.judgeConfined_judgeWithin hspeaks _
  refine ⟨fun required m v hv => ?_, fun required m candidates hsub trail m' v hv => ?_,
    fun required trail m v hv => ?_, fun params args seed trail m s hparams hseed hs => ?_⟩
  · exact (Site.returns_matching hspeaks (by simp) m v hv).subst.notMem_bound
  · have hcandidates : ∀ v ∈ candidates, site.ConfinedViable (fun _ => True) v := fun v hv =>
      Site.returns_matching hspeaks (by simp) m v (hsub hv)
    exact (Site.returns_judgeAll (hjudge trail) hcandidates m' v hv).subst.notMem_bound
  · exact (Site.returns_resolveWith (hjudge trail) hspeaks (by simp) m v hv).subst.notMem_bound
  · have hconfined : site.Confined (fun _ => True) seed := fun x t ht =>
      ⟨⟨trivial, hseed x (Subst.mem_domain_iff.2 ⟨t, ht⟩)⟩, fun _ _ => trivial⟩
    exact (Site.inferConfined_inferWith (hjudge trail) hspeaks params args seed trail
      (fun p hp => ⟨trivial, hparams p hp, by simp⟩) (by simp) hconfined m s hs).notMem_bound

/-- Inside a generic function over a type and a witness of its equality, lists of that type are
compared by means of that witness; what is bound on the way are variables of others. -/
theorem scope_rigid_list :
    let t : TyVar := ⟨"'t"⟩
    let e : TyVar := ⟨"'e"⟩
    let u : TyVar := ⟨"'u"⟩
    let w : TyVar := ⟨"'w"⟩
    let scope : List Param := [.ordinary t, .witness e [.app "Eq" [.var t]]]
    let params : List Param := [.ordinary u, .witness w [.app "Eq" [.var u]]]
    let site := Registry.ordered.site scope .standard
    site.scope.bound = [t, e] ∧ (∀ x ∈ site.scope.bound, x.isFresh = false) ∧
      (∃ v, ((site.resolve [.app "Eq" [.list (.var t)]] .empty).run .empty).1 = .ok v ∧
        v.ty = .app "ListEq" [.var t, .var e] ∧ ∀ x ∈ v.subst.domain, x ∉ site.scope.bound) ∧
      ∃ s, ((site.infer params [some (.list (.var t)), none] .empty .empty).run .empty).1 = .ok s ∧
        s.lookup w = .app "ListEq" [.var t, .var e] ∧ ∀ x ∈ s.domain, x ∉ site.scope.bound := by
  intro t e u w scope params site
  have hbound : ∀ x ∈ site.scope.bound, x.isFresh = false := by decide +kernel
  obtain ⟨-, -, hresolve, hinfer⟩ := scope_rigid hbound
  refine ⟨by decide +kernel, hbound, ?_, ?_⟩
  · have hrun : ((site.resolve [.app "Eq" [.list (.var t)]] .empty).run .empty).1.toOption.any
        (fun v => v.ty == .app "ListEq" [.var t, .var e]) := by
      decide +kernel
    cases h : ((site.resolve [.app "Eq" [.list (.var t)]] .empty).run .empty).1 with
    | error diagnostics => simp [h, Except.toOption] at hrun
    | ok v => exact ⟨v, rfl, by simpa [h, Except.toOption] using hrun, hresolve _ _ _ v h⟩
  · have hrun : ((site.infer params [some (.list (.var t)), none] .empty .empty).run
        .empty).1.toOption.any (fun s => s.lookup w == .app "ListEq" [.var t, .var e]) := by
      decide +kernel
    cases h : ((site.infer params [some (.list (.var t)), none] .empty .empty).run .empty).1 with
    | error diagnostics => simp [h, Except.toOption] at hrun
    | ok s =>
        refine ⟨s, rfl, by simpa [h, Except.toOption] using hrun, ?_⟩
        exact hinfer params _ .empty _ _ s (by decide +kernel) (by decide) h

end ConceptResolution
