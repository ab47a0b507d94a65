import ConceptResolution.Proofs.Witnesses

namespace ConceptResolution

open VarSupply

namespace Instantiated

variable {site : Site} {n n' : Nat} {i : Instantiated}

private theorem new_of_plain {params : List Param} {ρ : TyVar → TyVar}
    (hnew : ∀ p ∈ params, New n n' (ρ p.var))
    (hinj : ∀ p ∈ params, ∀ q ∈ params, ρ p.var = ρ q.var → p.var = q.var) {c : Ty}
    (hc : ∀ x ∈ c.vars, Plain params x) {x : TyVar} (hx : x ∈ (c.rename ρ).vars) :
    New n n' x ∧ ¬IsWitnessVar (params.map (Param.rename ρ)) x := by
  obtain ⟨y, hy, rfl⟩ := Ty.mem_vars_rename.1 hx
  obtain ⟨⟨p, hp, rfl⟩, hplain⟩ := hc y hy
  refine ⟨hnew p hp, ?_⟩
  rintro ⟨q', hq', hwitness, heq⟩
  obtain ⟨q, hq, rfl⟩ := List.mem_map.1 hq'
  exact hplain q hq hwitness (hinj q hq p hp heq)

theorem Of.provides (h : i.Of n n') (hsource : i.source ∈ site.scope.evidence)
    (hsite : site.WellScoped) {c : Ty} (hc : c ∈ i.provides) :
    site.model.fits c = true ∧ ∀ x ∈ c.vars, (x ∈ site.scope.bound ∨ New n n' x) ∧
      ¬IsWitnessVar i.params x := by
  cases h with
  | given p =>
      obtain ⟨hfits, hvars⟩ := (hsite.given p hsource).2 c hc
      exact ⟨hfits, fun x hx => ⟨.inl (hvars x hx), by simp [IsWitnessVar]⟩⟩
  | declared i ρ hnew hinj =>
      obtain ⟨d, hd, rfl⟩ := List.mem_map.1 hc
      obtain ⟨hfits, hplain⟩ := (hsite.declared i hsource).provides d hd
      refine ⟨ConceptModel.fits_subst_iff.2 ⟨hfits, fun x _ => rfl⟩, fun x hx => ?_⟩
      exact (new_of_plain hnew hinj hplain hx).imp_left .inr

theorem Of.constraints (h : i.Of n n') (hsource : i.source ∈ site.scope.evidence)
    (hsite : site.WellScoped) {p : Param} (hp : p ∈ i.params) {c : Ty} (hc : c ∈ p.constraints) :
    site.model.fits c = true ∧ ∀ x ∈ c.vars, New n n' x ∧ ¬IsWitnessVar i.params x := by
  cases h with
  | given p => cases hp
  | declared i ρ hnew hinj =>
      obtain ⟨q, hq, rfl⟩ := List.mem_map.1 hp
      obtain ⟨d, hd, rfl⟩ := List.mem_map.1 hc
      obtain ⟨hfits, hplain⟩ := (hsite.declared i hsource).constraints q hq d hd
      exact ⟨ConceptModel.fits_subst_iff.2 ⟨hfits, fun x _ => rfl⟩, fun x hx =>
        new_of_plain hnew hinj hplain hx⟩

theorem Of.new_param (h : i.Of n n') {p : Param} (hp : p ∈ i.params) : New n n' p.var := by
  cases h with
  | given p => cases hp
  | declared i ρ hnew hinj =>
      obtain ⟨q, hq, rfl⟩ := List.mem_map.1 hp
      exact hnew q hq

theorem Of.isEvidence (h : i.Of n n') (hsource : i.source ∈ site.scope.evidence) :
    site.IsEvidence i.ty := by
  cases h with
  | given p => exact .inl ⟨p, hsource, rfl⟩
  | declared i ρ hnew hinj =>
      refine .inr ⟨i, (i.params.map Param.var).map fun v => .var (ρ v), hsource, by simp, ?_⟩
      simp [Instance.ty, Ty.generic, Ty.rename, Site.subst_named, Function.comp_def, Ty.subst]

theorem Of.vars_ty (h : i.Of n n') (hsource : i.source ∈ site.scope.evidence)
    (hgivens : ∀ p, .given p ∈ site.scope.evidence → p.var ∈ site.scope.bound) {x : TyVar}
    (hx : x ∈ i.ty.vars) : x ∈ site.scope.bound ∨ New n n' x := by
  cases h with
  | given p =>
      rw [show x = p.var by simpa [Param.ty, Ty.vars] using hx]
      exact .inl (hgivens p hsource)
  | declared i ρ hnew hinj =>
      obtain ⟨y, hy, rfl⟩ := Ty.mem_vars_rename.1 hx
      obtain ⟨p, hp, rfl⟩ := Instance.mem_vars_ty_iff.1 hy
      exact .inr (hnew p hp)

theorem Of.nodup (h : i.Of n n') (hsource : i.source ∈ site.scope.evidence)
    (hdistinct : site.Distinct) : (i.params.map Param.var).Nodup := by
  cases h with
  | given p => exact List.nodup_nil
  | declared i ρ hnew hinj =>
      have hmap : (i.params.map (Param.rename ρ)).map Param.var =
          (i.params.map Param.var).map ρ := by
        simp [Param.rename, Function.comp_def]
      rw [hmap]
      refine (hdistinct i hsource).map_on fun x hx y hy heq => ?_
      obtain ⟨p, hp, rfl⟩ := List.mem_map.1 hx
      obtain ⟨q, hq, rfl⟩ := List.mem_map.1 hy
      exact hinj p hp q hq heq

/-- Evidence whose witness parameters are solved witnesses whatever it provides. -/
theorem Of.backs (h : i.Of n n') (hsource : i.source ∈ site.scope.evidence)
    (hsite : site.WellScoped) (hfinite : site.model.Finitary) {s : Subst}
    (hrigid : ∀ x ∈ site.scope.bound, s.lookup x = .var x)
    (hparams : site.Distinct → ∀ p ∈ i.params, p.isWitness = true → ∀ c ∈ p.constraints,
      site.Backs (s.lookup p.var) (s.apply c))
    {c : Ty} (hc : c ∈ site.model.expand i.provides) : site.Backs (s.apply i.ty) (s.apply c) := by
  cases h with
  | given p => exact (Site.backs_given hsite hsource hc).subst hrigid
  | declared i ρ hnew hinj =>
      refine Site.backs_declared hsite hfinite hsource hc fun hdistinct p hp hwitness d hd => ?_
      exact hparams hdistinct (p.rename ρ) (List.mem_map_of_mem hp) hwitness (d.rename ρ)
        (List.mem_map_of_mem hd)

end Instantiated

namespace Site

variable {site : Site}

section Candidate

variable {required : List Ty} {n n' k k' : Nat} {v : Viable}

theorem Candidate.of_mem_expand (h : site.Candidate required n n' v) (hsite : site.WellScoped)
    {c : Ty} (hc : c ∈ site.model.expand v.candidate.provides) :
    site.model.fits c = true ∧ ∀ x ∈ c.vars, (x ∈ site.scope.bound ∨ New n n' x) ∧
      ¬IsWitnessVar v.candidate.params x := by
  obtain ⟨d, hd, hreach⟩ := ConceptModel.reaches_of_mem_expand hc
  obtain ⟨hfits, hvars⟩ := h.of.provides h.source hsite hd
  exact ⟨hsite.closed.fits_of_reaches hfits hreach, fun x hx =>
    hvars x (hsite.closed.mem_vars_of_reaches hfits hreach hx)⟩

theorem Candidate.idempotent (h : site.Candidate required n n' v) : v.subst.Idempotent := by
  obtain ⟨pairs, -, -, hrun⟩ := h.met
  exact (hrun.sound Subst.idempotent_empty).1

theorem Candidate.exists_apply_eq (h : site.Candidate required n n' v) {c : Ty}
    (hc : c ∈ required) :
    ∃ d ∈ site.model.expand v.candidate.provides, v.subst.apply d = v.subst.apply c := by
  obtain ⟨pairs, rfl, hprovided, hrun⟩ := h.met
  obtain ⟨pair, hpair, rfl⟩ := List.mem_map.1 hc
  exact ⟨pair.1, hprovided pair hpair, (hrun.sound Subst.idempotent_empty).2.2 pair hpair⟩

theorem Candidate.notMem_bound (h : site.Candidate required n n' v) {x : TyVar}
    (hx : x ∈ v.subst.domain) : x ∉ site.scope.bound := by
  obtain ⟨pairs, -, -, hrun⟩ := h.met
  exact (hrun.notMem_rigid hx).resolve_left fun hempty => by cases hempty

theorem Candidate.rigid (h : site.Candidate required n n' v) {x : TyVar}
    (hx : x ∈ site.scope.bound) : v.subst.lookup x = .var x :=
  Subst.lookup_of_notMem fun hdomain => h.notMem_bound hdomain hx

theorem Candidate.exists_of_occurs (h : site.Candidate required n n' v) {x : TyVar}
    (hx : v.subst.Occurs x) :
    (∃ c ∈ required, x ∈ c.vars) ∨
      ∃ c ∈ site.model.expand v.candidate.provides, x ∈ c.vars := by
  obtain ⟨pairs, rfl, hprovided, hrun⟩ := h.met
  rcases hrun.occurs hx with hempty | ⟨pair, hpair, hx | hx⟩
  · exact absurd hempty (Subst.not_occurs_empty x)
  · exact .inr ⟨pair.1, hprovided pair hpair, hx⟩
  · exact .inl ⟨pair.2, List.mem_map_of_mem hpair, hx⟩

theorem Candidate.occurs (h : site.Candidate required n n' v) (hsite : site.WellScoped)
    (hold : ∀ c ∈ required, ∀ x ∈ c.vars, Old n x) {x : TyVar} (hx : v.subst.Occurs x) :
    site.Known required n n' x ∧ ¬IsWitnessVar v.candidate.params x := by
  rcases h.exists_of_occurs hx with ⟨c, hc, hx⟩ | ⟨c, hc, hx⟩
  · refine ⟨.inl ⟨c, hc, hx⟩, ?_⟩
    rintro ⟨p, hp, -, rfl⟩
    exact (hold c hc p.var hx).not_new (h.of.new_param hp)
  · obtain ⟨hknown, hnot⟩ := (h.of_mem_expand hsite hc).2 x hx
    exact ⟨.inr hknown, hnot⟩

theorem Candidate.fits (h : site.Candidate required n n' v) (hsite : site.WellScoped)
    (hrequired : ∀ c ∈ required, site.model.fits c = true) : v.subst.Fits site.model := by
  obtain ⟨pairs, rfl, hprovided, hrun⟩ := h.met
  refine hrun.fits Subst.idempotent_empty Subst.fits_empty fun pair hpair => ?_
  exact ⟨(h.of_mem_expand hsite (hprovided pair hpair)).1,
    hrequired pair.2 (List.mem_map_of_mem hpair)⟩

theorem old_of_known (hsite : site.WellScoped) (hold : ∀ c ∈ required, ∀ x ∈ c.vars, Old n x)
    (hn : n ≤ n') {x : TyVar} (hx : site.Known required n n' x) : Old n' x := by
  rcases hx with ⟨c, hc, hx⟩ | hbound | hnew
  · exact (hold c hc x hx).mono hn
  · exact old_of_not_isFresh (hsite.bound x hbound)
  · exact hnew.old

theorem Candidate.frame (h : site.Candidate required n n' v) (hsite : site.WellScoped)
    (hold : ∀ c ∈ required, ∀ x ∈ c.vars, Old n x) (hn : n ≤ n') (hk : n' ≤ k) :
    site.Frame (site.Fit required) v.candidate.params (site.Known required n n') k where
  old x hx := (old_of_known hsite hold hn hx).mono hk
  bound x hx := .inr (.inl hx)
  param p hp := .inr (.inr (h.of.new_param hp))
  free := by
    intro p hp _ hbound
    have hfresh := (h.of.new_param hp).isFresh
    simp [hsite.bound p.var hbound] at hfresh
  constraint := by
    intro p hp _ c hc x hx
    exact ((h.of.constraints h.source hsite hp hc).2 x hx).imp_left fun hnew => .inr (.inr hnew)
  fit hfit := ⟨hfit.1, fun p hp _ c hc => (h.of.constraints h.source hsite hp hc).1⟩

theorem Candidate.solves (h : site.Candidate required n n' v) (hsite : site.WellScoped)
    (hold : ∀ c ∈ required, ∀ x ∈ c.vars, Old n x) (k : Nat) :
    site.Solves (site.Fit required) v.candidate.params (site.Known required n n') k v.subst
      (v.candidate.params.filter Param.isWitness) v.subst k where
  le := Nat.le_refl k
  idempotent := h.idempotent
  occurs _ hx := .inl (h.occurs hsite hold hx).1
  rigid _ hx := h.rigid hx
  extends_seed := .refl h.idempotent
  sublist := List.filter_sublist
  witness _ hp := (List.mem_filter.1 hp).2
  untouched p hp := .inl fun hx => (h.occurs hsite hold hx).2
    ⟨p, (List.mem_filter.1 hp).1, (List.mem_filter.1 hp).2, rfl⟩
  solved _ hp hwitness := .inl (List.mem_filter.2 ⟨hp, hwitness⟩)
  fits hfit x _ _ := h.fits hsite hfit.2 x
  backs _ _ _ hp hwitness := .inl (List.mem_filter.2 ⟨hp, hwitness⟩)

/-- A candidate all of whose witnesses are solved is an answer. -/
theorem Candidate.resolved (h : site.Candidate required n n' v) (hsite : site.WellScoped)
    (hn : n ≤ n') (hk : n' ≤ k) {s : Subst}
    (hs : site.Solves (site.Fit required) v.candidate.params (site.Known required n n') k v.subst []
      s k') :
    site.Resolved required n k' ⟨v.candidate, s.apply v.candidate.ty, s⟩ := by
  have hknown : ∀ x, s.Occurs x → site.Known required n k' x := by
    intro x hx
    rcases hs.occurs x hx with hx | hnew
    · exact hx.mono (Nat.le_refl n) (hk.trans hs.le)
    · exact .inr (.inr (hnew.mono (hn.trans hk) (Nat.le_refl k')))
  refine ⟨h.source, h.of.mono (Nat.le_refl n) (hk.trans hs.le), hs.idempotent, hknown, hs.rigid,
    fun x hx => ?_, ?_, fun hfit x hx => ?_, fun hfit c hc => ?_⟩
  · rcases Subst.mem_vars_or_occurs_of_mem_vars_apply hx with hx | hx
    · exact .inr ((h.of.vars_ty h.source hsite.bound_of_given hx).imp_right fun hnew =>
        hnew.mono (Nat.le_refl n) (hk.trans hs.le))
    · exact hknown x hx
  · exact (h.of.isEvidence h.source).subst hsite hs.rigid
  · rcases Classical.em (s.Occurs x) with hoccurs | hnot
    · rcases hs.occurs x hoccurs with hA | hnew
      · refine hs.fits hfit x hA ?_
        rintro ⟨p, hp, -, rfl⟩
        exact hx.not_new (h.of.new_param hp)
      · exact absurd hnew (hx.mono (hn.trans hk)).not_new
    · rw [Subst.lookup_of_not_occurs hnot]
      rfl
  · obtain ⟨d, hd, heq⟩ := h.exists_apply_eq hc
    have hsame : s.apply c = s.apply d := by
      rw [← hs.extends_seed c, ← hs.extends_seed d, heq]
    rw [hsame]
    refine h.of.backs h.source hsite hfit.1 hs.rigid (fun hdistinct p hp hwitness => ?_) hd
    refine (hs.backs hfit (h.of.nodup h.source hdistinct) p hp hwitness).resolve_left ?_
    exact List.not_mem_nil

end Candidate

end Site

end ConceptResolution
