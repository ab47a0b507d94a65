import ConceptResolution.Proofs.Remembering

namespace ConceptResolution

open VarSupply

namespace Subst

variable {D V : TyVar → Prop} {s : Subst} {v : TyVar} {t : Ty}

/-- A substitution of variables that have been minted, if ever, by the time the supply has got to a
number. -/
def Met (k : Nat) (s : Subst) : Prop :=
  s.Within (Old k) (Old k)

theorem Met.mono {k k' : Nat} (h : s.Met k) (hk : k ≤ k') : s.Met k' :=
  Within.mono h (fun _ hx => hx.mono hk) fun _ hx => hx.mono hk

theorem met_of_occurs {k : Nat} (h : ∀ x, s.Occurs x → Old k x) : s.Met k :=
  s.within_occurs.mono h h

theorem Met.withWitness {k : Nat} (h : s.Met k) {p : Param} (hp : Old k p.var) {v : Viable}
    (hty : ∀ x ∈ v.ty.vars, Old k x) (hv : v.subst.Met k) : (s.withWitness p v).Met k :=
  Site.within_withWitness h hp
    (fun x hx => (h p.var _ hx).2 x (by simp [Ty.vars])) hty hv

end Subst

def Ty.Met (k : Nat) (t : Ty) : Prop :=
  ∀ x ∈ t.vars, Old k x

theorem Ty.Met.mono {k k' : Nat} {t : Ty} (h : t.Met k) (hk : k ≤ k') : t.Met k' :=
  fun x hx => (h x hx).mono hk

theorem Subst.Met.apply {k : Nat} {s : Subst} (hs : s.Met k) {t : Ty} (ht : t.Met k) :
    (s.apply t).Met k :=
  Within.of_mem_vars_apply hs ht

structure Param.Met (k : Nat) (p : Param) : Prop where
  var : Old k p.var
  constraints : ∀ c ∈ p.constraints, c.Met k

theorem Param.Met.mono {k k' : Nat} {p : Param} (h : p.Met k) (hk : k ≤ k') : p.Met k' :=
  ⟨h.var.mono hk, fun c hc => (h.constraints c hc).mono hk⟩

namespace Site

variable {site : Site} {I : Memory → Prop} {judge : Judge} {trail : Trail} {k : Nat}

variable (site) in
theorem met_required {p : Param} (hp : p.Met k) {s : Subst} (hs : s.Met k) :
    ∀ c ∈ site.model.required p s, c.Met k := by
  intro c hc
  obtain ⟨d, hd, rfl⟩ := exists_of_mem_required hc
  exact hs.apply (hp.constraints d hd)

theorem Resolved.met {required : List Ty} {n : Nat} {v : Viable} (h : site.Resolved required n k v)
    (hsite : site.WellScoped) (hold : ∀ c ∈ required, c.Met n) (hn : n ≤ k) :
    v.ty.Met k ∧ v.subst.Met k :=
  ⟨fun x hx => old_of_known hsite hold hn (h.vars_ty x hx),
    Subst.met_of_occurs fun x hx => old_of_known hsite hold hn (h.occurs x hx)⟩

theorem attemptsEnsure_met (hI : Memory.IgnoresSupply I) (hsite : site.WellScoped)
    (hjudge : site.JudgeSound I judge trail) :
    site.AttemptsEnsure I judge trail fun ps s k => s.Met k ∧ ∀ p ∈ ps, p.Met k where
  mono := fun ⟨hs, hps⟩ hk => ⟨hs.mono hk, fun p hp => (hps p hp).mono hk⟩
  fixed := fun ⟨hs, hps⟩ _ =>
    ⟨hs, fun p hp => hps p (((List.sublist_cons_self _ _).append_left _).subset hp)⟩
  tried := fun ⟨hs, hps⟩ _ => by
    have hp := hps _ (List.mem_append_right _ List.mem_cons_self)
    have hold := met_required site hp hs
    refine (ensures_resolveWith hI hjudge hold).mono fun answer k' ⟨hk', hanswer⟩ =>
      ⟨hk', fun v hv => ?_⟩
    obtain ⟨hty, hsubst⟩ := (hanswer v hv).met hsite hold hk'
    refine ⟨(hs.mono hk').withWitness (hp.var.mono hk') hty hsubst, fun q hq => ?_⟩
    exact (hps q (((List.sublist_cons_self _ _).append_left _).subset hq)).mono hk'

theorem met_inferWith (hI : Memory.IgnoresSupply I) (hsite : site.WellScoped)
    (hjudge : site.JudgeSound I judge trail) {params : List Param} (hparams : ∀ p ∈ params, p.Met k)
    {args : List (Option Ty)} (hargs : ∀ t, some t ∈ args → t.Met k) {seed : Subst}
    (hseed : seed.Met k) :
    Search.Ensures I (site.inferWith judge params args seed trail) k fun _ k' => k ≤ k' := by
  have hpairs : ∀ pair ∈ params.zip args, pair.1.Met k ∧ ∀ t, pair.2 = some t → t.Met k := by
    intro pair hpair
    obtain ⟨hp, harg⟩ := List.of_mem_zip hpair
    exact ⟨hparams pair.1 hp, fun t ht => hargs t (ht ▸ harg)⟩
  exact ((attemptsEnsure_met hI hsite hjudge).inferWith fun u hu =>
    start_of_unsolved? (fun _ => Param.Met.var) hpairs hseed hu).mono fun _ _ h => h.1

theorem judgeSound_judgeBelow (hsite : site.WellScoped) (hnamed : site.Named) (trail : Trail) :
    site.JudgeSound site.Honest (site.judgeBelow trail) trail :=
  (faithful hsite hnamed _).sound trail (by omega)

variable (site) in
/-- What is remembered after some calls, next to the candidates that have been issued. An argument
of a call speaks of no fresh variable that is still to be minted, and only candidates that have been
issued are sent to be judged. -/
inductive Session : List Viable → Memory → Prop
  | start : Session [] .empty
  | filter {issued : List Viable} {m : Memory} (required : List Ty) (h : Session issued m)
      (hold : ∀ c ∈ required, c.Met m.supply.next) :
      Session (issued ++ ((site.matching required).run m).1) ((site.matching required).run m).2
  | satisfy {issued : List Viable} {m : Memory} (candidates : List Viable) (trail : Trail)
      (h : Session issued m) (hissued : candidates ⊆ issued) :
      Session issued ((site.satisfy candidates trail).run m).2
  | resolve {issued : List Viable} {m : Memory} (required : List Ty) (trail : Trail)
      (h : Session issued m) (hold : ∀ c ∈ required, c.Met m.supply.next) :
      Session issued ((site.resolve required trail).run m).2
  | infer {issued : List Viable} {m : Memory} (params : List Param) (args : List (Option Ty))
      (seed : Subst) (trail : Trail) (h : Session issued m)
      (hparams : ∀ p ∈ params, p.Met m.supply.next)
      (hargs : ∀ t, some t ∈ args → t.Met m.supply.next) (hseed : seed.Met m.supply.next) :
      Session issued ((site.infer params args seed trail).run m).2
  | resolveUnder {issued : List Viable} {m : Memory} (required : List Ty) (seed : Subst)
      (trail : Trail) (h : Session issued m) (hold : ∀ c ∈ required, c.Met m.supply.next)
      (hseed : seed.Met m.supply.next) :
      Session issued ((site.resolveUnder required seed trail).run m).2
  | completeArgs {issued : List Viable} {m : Memory} (supplied : List Ty) (params : List Param)
      (keepOpen : Bool) (h : Session issued m) (hsupplied : ∀ t ∈ supplied, t.Met m.supply.next)
      (hparams : ∀ p ∈ params, p.Met m.supply.next) :
      Session issued ((site.completeArgs supplied params keepOpen).run m).2

theorem ensures_resolve (hsite : site.WellScoped) (hnamed : site.Named) {required : List Ty}
    (hold : ∀ c ∈ required, c.Met k) (trail : Trail) :
    Search.Ensures site.Honest (site.resolve required trail) k fun _ k' => k ≤ k' :=
  (ensures_resolveWith ignoresSupply_honest (judgeSound_judgeBelow hsite hnamed trail) hold).mono
    fun _ _ h => h.1

theorem ensures_resolveUnder (hsite : site.WellScoped) (hnamed : site.Named) {required : List Ty}
    (hold : ∀ c ∈ required, c.Met k) {seed : Subst} (hseed : seed.Met k) (trail : Trail) :
    Search.Ensures site.Honest (site.resolveUnder required seed trail) k fun _ k' => k ≤ k' := by
  have hunder : ∀ c ∈ seed.applyAll required, c.Met k :=
    List.forall_mem_map.2 fun c hc => hseed.apply (hold c hc)
  refine (ensures_resolve hsite hnamed hunder trail).bind fun result k' hk' => ?_
  cases result with
  | ok v => exact Search.ensures_pure hk'
  | error diagnostics => exact Search.ensures_pure hk'

theorem mem_supplied_of_mem_handOut {supplied : List Ty} {params : List Param} {t : Ty}
    (h : some t ∈ handOut supplied params) : t ∈ supplied := by
  induction params generalizing supplied with
  | nil => simp [handOut] at h
  | cons p params ih =>
      rw [handOut] at h
      split at h
      · rcases List.mem_cons.1 h with h | h
        · exact List.mem_of_mem_head? h.symm
        · exact List.mem_of_mem_tail (ih h)
      · rcases List.mem_cons.1 h with h | h
        · cases h
        · exact ih h

theorem ensures_completeArgs (hsite : site.WellScoped) (hnamed : site.Named) {supplied : List Ty}
    (hsupplied : ∀ t ∈ supplied, t.Met k) {params : List Param} (hparams : ∀ p ∈ params, p.Met k)
    (keepOpen : Bool) :
    Search.Ensures site.Honest (site.completeArgs supplied params keepOpen) k
      fun _ k' => k ≤ k' := by
  unfold completeArgs
  split
  · exact Search.ensures_pure (Nat.le_refl k)
  · next args hargs =>
    unfold interleave at hargs
    split at hargs
    · cases hargs
      refine (met_inferWith ignoresSupply_honest hsite (judgeSound_judgeBelow hsite hnamed .empty)
        hparams (fun t ht => hsupplied t (mem_supplied_of_mem_handOut ht))
        Subst.within_empty).bind fun result k' hk' => ?_
      cases result with
      | ok s => exact Search.ensures_pure hk'
      | error diagnostics =>
          simp only
          split
          · exact Search.ensures_pure hk'
          · exact Search.ensures_pure hk'
    · cases hargs

/-- In every session, what is remembered are failures that are failures elsewhere, and what has been
issued are candidates. -/
theorem Session.honest (hsite : site.WellScoped) (hnamed : site.Named) {issued : List Viable}
    {m : Memory} (h : site.Session issued m) : site.Honest m ∧
      ∀ v ∈ issued, ∃ required n, site.Trial required n m.supply.next v := by
  have hlater : ∀ {issued : List Viable} {k k' : Nat}, k ≤ k' →
      (∀ v ∈ issued, ∃ required n, site.Trial required n k v) →
      ∀ v ∈ issued, ∃ required n, site.Trial required n k' v := by
    intro issued k k' hk hissued v hv
    obtain ⟨required, n, htrial⟩ := hissued v hv
    exact ⟨required, n, htrial.mono hk⟩
  induction h with
  | start => exact ⟨honest_empty, by simp⟩
  | @filter issued m required h hold ih =>
      obtain ⟨hm, hissued⟩ := ih
      obtain ⟨hm', -, hk, hvs⟩ := ensures_matching ignoresSupply_honest required _ m hm rfl
      refine ⟨hm', List.forall_mem_append.2 ⟨hlater hk hissued, fun v hv => ?_⟩⟩
      exact ⟨required, m.supply.next, hold, _, hvs v hv, hk, Nat.le_refl _⟩
  | @satisfy issued m candidates trail h hcandidates ih =>
      obtain ⟨hm, hissued⟩ := ih
      obtain ⟨hm', -, hk⟩ := ensures_judgeAll_of_trials (judgeSound_judgeBelow hsite hnamed trail)
        (fun v hv => hissued v (hcandidates hv)) m hm rfl
      exact ⟨hm', hlater hk hissued⟩
  | @resolve issued m required trail h hold ih =>
      obtain ⟨hm, hissued⟩ := ih
      obtain ⟨hm', -, hk⟩ := ensures_resolve hsite hnamed hold trail m hm rfl
      exact ⟨hm', hlater hk hissued⟩
  | @infer issued m params args seed trail h hparams hargs hseed ih =>
      obtain ⟨hm, hissued⟩ := ih
      obtain ⟨hm', -, hk⟩ := met_inferWith ignoresSupply_honest hsite
        (judgeSound_judgeBelow hsite hnamed trail) hparams hargs hseed m hm rfl
      exact ⟨hm', hlater hk hissued⟩
  | @resolveUnder issued m required seed trail h hold hseed ih =>
      obtain ⟨hm, hissued⟩ := ih
      obtain ⟨hm', -, hk⟩ := ensures_resolveUnder hsite hnamed hold hseed trail m hm rfl
      exact ⟨hm', hlater hk hissued⟩
  | @completeArgs issued m supplied params keepOpen h hsupplied hparams ih =>
      obtain ⟨hm, hissued⟩ := ih
      obtain ⟨hm', -, hk⟩ := ensures_completeArgs hsite hnamed hsupplied hparams keepOpen m hm rfl
      exact ⟨hm', hlater hk hissued⟩

end Site

end ConceptResolution
