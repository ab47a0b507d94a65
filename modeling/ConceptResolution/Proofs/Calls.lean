import ConceptResolution.Proofs.Twins

namespace ConceptResolution

open VarSupply

theorem Instantiated.Of.exists_declared {n n' : Nat} {i : Instantiated} (h : i.Of n n')
    (hparams : i.params.isEmpty = false) : ∃ (d : Instance) (r : TyVar → TyVar),
      i = ⟨.declared d, d.params.map (Param.rename r), d.provides.map (Ty.rename r),
        d.ty.rename r, nofun⟩ ∧ (∀ p ∈ d.params, New n n' (r p.var)) ∧
      ∀ p ∈ d.params, ∀ q ∈ d.params, r p.var = r q.var → p.var = q.var := by
  cases h with
  | given p => cases hparams
  | declared d r hnew hinj => exact ⟨d, r, rfl, hnew, hinj⟩

namespace Site

variable {site : Site} {F F' : Prop} {A A' : TyVar → Prop} {n k k' : Nat} {v w : Viable}
  {i i' : Instance} {r r' : TyVar → TyVar} {ρ : Renaming}

theorem Candidate.mem_vars_of_occurs {required : List Ty} {n' : Nat}
    (h : site.Candidate required n n' v) (hsite : site.WellScoped) {x : TyVar}
    (hx : v.subst.Occurs x) :
    (∃ c ∈ required, x ∈ c.vars) ∨ ∃ c ∈ v.candidate.provides, x ∈ c.vars := by
  refine (h.exists_of_occurs hx).imp_right ?_
  rintro ⟨c, hc, hx⟩
  obtain ⟨d, hd, hreach⟩ := ConceptModel.reaches_of_mem_expand hc
  have hfits := (h.of.provides h.source hsite hd).1
  exact ⟨d, hd, hsite.closed.mem_vars_of_reaches hfits hreach hx⟩

theorem Trial.exists_isCall {required : List Ty} (h : site.Trial required n k v)
    (hsite : site.WellScoped) (hparams : v.candidate.params.isEmpty = false) :
    ∃ (i : Instance) (r : TyVar → TyVar) (A : TyVar → Prop),
      site.IsCall (site.Fit required) A k v i r := by
  have hsubst := fun x hx => h.old_of_occurs hsite (x := x) hx
  obtain ⟨hold, n', hv, hn, hk⟩ := h
  obtain ⟨i, r, hi, hnew, hinj⟩ := hv.of.exists_declared hparams
  have hdeclared : .declared i ∈ site.scope.evidence := by
    have hsource := hv.source
    rwa [hi] at hsource
  have hframe := hv.frame hsite hold hn hk
  have hstart := fun u hu => hv.solves_unsolved hsite hold k (u := u) hu
  rw [hi] at hframe hstart
  refine ⟨i, r, site.Known required n n', hi, ⟨hdeclared, hframe, hinj, fun p hp => ?_⟩,
    hv.idempotent, hstart, fun c hc x hx => ?_, hsubst, fun p hp hx => ?_⟩
  · exact (hnew p hp).isFresh
  · exact (((hsite.declared i hdeclared).provides c hc).2 x hx).1
  · rcases hv.mem_vars_of_occurs hsite hx with ⟨c, hc, hx⟩ | ⟨c, hc, hx⟩
    · exact absurd (hnew p hp) (hold c hc _ hx).not_new
    · rw [hi] at hc
      obtain ⟨d, hd, rfl⟩ := List.mem_map.1 hc
      obtain ⟨y, hy, heq⟩ := Ty.mem_vars_rename.1 hx
      obtain ⟨q, hq, rfl⟩ := (((hsite.declared i hdeclared).provides d hd).2 y hy).1
      exact Ty.mem_varsAll_iff.2 ⟨d, hd, hinj p hp q hq heq ▸ hy⟩

theorem IsCall.name (h : site.IsCall F A k v i r) : v.name = i.name := by
  rw [Viable.name, h.candidate]
  rfl

theorem IsCall.goal (h : site.IsCall F A k v i r) :
    v.goal = .of i.name (v.subst.applyAll (i.provides.map (Ty.rename r))) := by
  rw [Viable.goal, h.name, h.candidate]

theorem Viable.goal_rename (ρ : Renaming) (v : Viable) : (v.rename ρ).goal = v.goal := by
  have hprovides : (v.rename ρ).subst.applyAll (v.rename ρ).candidate.provides =
      (v.subst.applyAll v.candidate.provides).map (Ty.rename ρ.map) :=
    Subst.applyAll_rename ρ v.subst v.candidate.provides
  rw [Viable.goal, hprovides, Goal.of_rename]
  rfl

theorem IsCall.twin_rename (h : site.IsCall F A k v i r)
    (h' : site.IsCall F' A' k' (v.rename ρ) i' r') :
    i' = i ∧ Twin True i r r' ρ v.subst (v.rename ρ).subst := by
  have hcandidate := h'.candidate
  rw [Viable.rename, h.candidate] at hcandidate
  simp only [Instantiated.rename, Instantiated.mk.injEq, Evidence.declared.injEq, List.map_map]
    at hcandidate
  obtain ⟨rfl, hparams, -, -⟩ := hcandidate
  have hvar : ∀ p ∈ i.params, r' p.var = ρ.map (r p.var) := fun p hp =>
    (congrArg Param.var (List.map_inj_left.1 hparams p hp)).symm
  refine ⟨rfl, fun p hp => ?_, fun _ => ⟨rfl, hvar⟩⟩
  rw [hvar p hp]
  exact (Subst.lookup_rename ρ v.subst (r p.var)).symm

variable (v i r) in
private def offered : List Ty :=
  v.subst.applyAll (i.provides.map (Ty.rename r))

private theorem mem_varsAll_offered_iff {x : TyVar} : x ∈ Ty.varsAll (offered v i r) ↔
    ∃ y ∈ Ty.varsAll i.provides, x ∈ (v.subst.lookup (r y)).vars := by
  simp only [Ty.mem_varsAll_iff, offered, Subst.applyAll, List.mem_map, Subst.apply]
  constructor
  · rintro ⟨_, ⟨_, ⟨c, hc, rfl⟩, rfl⟩, hx⟩
    obtain ⟨z, hz, hx⟩ := Ty.mem_vars_subst.1 hx
    obtain ⟨y, hy, rfl⟩ := Ty.mem_vars_rename.1 hz
    exact ⟨y, ⟨c, hc, hy⟩, hx⟩
  · rintro ⟨y, ⟨c, hc, hy⟩, hx⟩
    have hry : r y ∈ (c.rename r).vars := Ty.mem_vars_rename.2 ⟨y, hy, rfl⟩
    exact ⟨_, ⟨_, ⟨c, hc, rfl⟩, rfl⟩, Ty.mem_vars_subst.2 ⟨r y, hry, hx⟩⟩

private theorem IsCall.old_of_offered (h : site.IsCall F A k v i r) {x : TyVar}
    (hx : x ∈ Ty.varsAll (offered v i r)) : Old k x := by
  obtain ⟨y, hy, hx⟩ := mem_varsAll_offered_iff.1 hx
  obtain ⟨c, hc, hy⟩ := Ty.mem_varsAll_iff.1 hy
  obtain ⟨p, hp, rfl⟩ := h.provides c hc y hy
  rcases Subst.eq_or_occurs_of_mem_vars_lookup hx with rfl | hx
  · exact h.call.old hp
  · exact h.old x hx

private theorem IsCall.notMem_offered (h : site.IsCall F A k v i r) {p : Param} (hp : p ∈ i.params)
    (hapart : p.var ∉ Ty.varsAll i.provides) : r p.var ∉ Ty.varsAll (offered v i r) := by
  intro hx
  obtain ⟨y, hy, hx⟩ := mem_varsAll_offered_iff.1 hx
  rcases Subst.eq_or_occurs_of_mem_vars_lookup hx with heq | hx
  · obtain ⟨c, hc, hyc⟩ := Ty.mem_varsAll_iff.1 hy
    obtain ⟨q, hq, rfl⟩ := h.provides c hc y hyc
    exact hapart (h.call.injective p hp q hq heq ▸ hy)
  · exact hapart (h.apart p hp hx)

private theorem IsCall.lookup_of_apart (h : site.IsCall F A k v i r) {p : Param}
    (hp : p ∈ i.params) (hapart : p.var ∉ Ty.varsAll i.provides) :
    v.subst.lookup (r p.var) = .var (r p.var) :=
  Subst.lookup_of_not_occurs fun hx => hapart (h.apart p hp hx)

variable (v i r r') in
/-- Variables in the same place of two calls: either what is offered speaks of them, or they stand
for a parameter that no provided concept mentions. -/
private def Facing (σ : TyVar → TyVar) (x y : TyVar) : Prop :=
  (x ∈ Ty.varsAll (offered v i r) ∧ y = σ x) ∨
    ∃ p ∈ i.params, p.var ∉ Ty.varsAll i.provides ∧ x = r p.var ∧ y = r' p.var

private theorem Facing.eq_iff_eq {σ : TyVar → TyVar} {x y x' y' : TyVar}
    (hx : Facing v i r r' σ x y) (hx' : Facing v i r r' σ x' y') (h : site.IsCall F A k v i r)
    (h' : site.IsCall F' A' k' w i r')
    (hmem : ∀ x ∈ Ty.varsAll (offered v i r), σ x ∈ Ty.varsAll (offered w i r'))
    (hinj : ∀ x ∈ Ty.varsAll (offered v i r), ∀ y ∈ Ty.varsAll (offered v i r),
      σ x = σ y → x = y) : x = x' ↔ y = y' := by
  rcases hx with ⟨hx, rfl⟩ | ⟨p, hp, hapart, rfl, rfl⟩ <;>
    rcases hx' with ⟨hx', rfl⟩ | ⟨q, hq, hapart', rfl, rfl⟩
  · exact ⟨congrArg σ, hinj x hx x' hx'⟩
  · constructor
    · exact fun heq => absurd (heq ▸ hx) (h.notMem_offered hq hapart')
    · exact fun heq => absurd (heq ▸ hmem x hx) (h'.notMem_offered hq hapart')
  · constructor
    · exact fun heq => absurd (heq ▸ hx') (h.notMem_offered hp hapart)
    · exact fun heq => absurd (heq ▸ hmem x' hx') (h'.notMem_offered hp hapart)
  · constructor
    · exact fun heq => congrArg r' (h.call.injective p hp q hq heq)
    · exact fun heq => congrArg r (h'.call.injective p hp q hq heq)

private theorem IsCall.exists_aligned (h : site.IsCall F A k v i r)
    (h' : site.IsCall F' A' k' w i r') (hgoal : v.goal = w.goal) :
    ∃ ρ : Renaming, ρ.Aligned k k' ∧
      (offered v i r).map (Ty.rename ρ.map) = offered w i r' ∧
      ∀ p ∈ i.params, p.var ∉ Ty.varsAll i.provides → ρ.map (r p.var) = r' p.var := by
  have hcanonical : canonical (offered v i r) = canonical (offered w i r') := by
    rw [h.goal, h'.goal] at hgoal
    exact congrArg Goal.concepts hgoal
  obtain ⟨σ, hσ, hinj, hnamed, hfresh⟩ := exists_rename_of_canonical_eq hcanonical
  have hmem : ∀ x ∈ Ty.varsAll (offered v i r), σ x ∈ Ty.varsAll (offered w i r') := by
    intro x hx
    rw [← hσ, Ty.varsAll_map_rename]
    exact List.mem_map_of_mem hx
  -- what is offered is lined up by its canonical form, and the other parameters one by one
  let spoken := (Ty.varsAll (offered v i r)).map fun x => (x, σ x)
  let silent := (i.params.filter fun p => p.var ∉ Ty.varsAll i.provides).map fun p =>
    (r p.var, r' p.var)
  have hfacing : ∀ a ∈ spoken ++ silent, Facing v i r r' σ a.1 a.2 := by
    intro a ha
    rcases List.mem_append.1 ha with ha | ha
    · obtain ⟨x, hx, rfl⟩ := List.mem_map.1 ha
      exact .inl ⟨hx, rfl⟩
    · obtain ⟨p, hp, rfl⟩ := List.mem_map.1 ha
      obtain ⟨hp, hapart⟩ := List.mem_filter.1 hp
      exact .inr ⟨p, hp, of_decide_eq_true hapart, rfl, rfl⟩
  have hmatch : ∀ a ∈ spoken ++ silent, ∀ b ∈ spoken ++ silent, (a.1 = b.1 ↔ a.2 = b.2) :=
    fun a ha b hb => (hfacing a ha).eq_iff_eq (hfacing b hb) h h' hmem hinj
  have hself : ∀ a ∈ spoken ++ silent, a.1.isFresh = false → a.2 = a.1 := by
    intro a ha hself
    rcases hfacing a ha with ⟨ha₁, ha₂⟩ | ⟨p, hp, -, ha₁, -⟩
    · rw [ha₂, hnamed a.1 ha₁ hself]
    · rw [ha₁, h.call.fresh p hp] at hself
      cases hself
  have hkind : ∀ a ∈ spoken ++ silent, a.2.isFresh = a.1.isFresh := by
    intro a ha
    rcases hfacing a ha with ⟨ha₁, ha₂⟩ | ⟨p, hp, -, ha₁, ha₂⟩
    · rw [ha₂, hfresh a.1 ha₁]
    · rw [ha₁, ha₂, h.call.fresh p hp, h'.call.fresh p hp]
  have hold : ∀ a ∈ spoken ++ silent, Old k' a.2 := by
    intro a ha
    rcases hfacing a ha with ⟨ha₁, ha₂⟩ | ⟨p, hp, -, -, ha₂⟩
    · exact ha₂ ▸ h'.old_of_offered (hmem a.1 ha₁)
    · exact ha₂ ▸ h'.call.old hp
  obtain ⟨ρ, hρ, hmap⟩ :=
    Renaming.exists_aligned_of_pairs k k' (spoken ++ silent) hmatch hself hkind hold
  refine ⟨ρ, hρ, ?_, fun p hp hapart => ?_⟩
  · rw [← hσ]
    refine List.map_congr_left fun t ht => Ty.rename_congr fun x hx => ?_
    have hx' : x ∈ Ty.varsAll (offered v i r) := Ty.mem_varsAll_iff.2 ⟨t, ht, hx⟩
    exact hmap (x, σ x) (List.mem_append_left _ (List.mem_map_of_mem hx')) (h.old_of_offered hx')
  · refine hmap (r p.var, r' p.var) (List.mem_append_right _ ?_) (h.call.old hp)
    exact List.mem_map_of_mem (List.mem_filter.2 ⟨hp, decide_eq_true hapart⟩)

/-- Two calls for one goal are calls of one instance at the same types. -/
theorem IsCall.exists_twin (h : site.IsCall F A k v i r) (h' : site.IsCall F' A' k' w i' r')
    (htidy : site.scope.Tidy) (hgoal : v.goal = w.goal) :
    i' = i ∧ ∃ ρ : Renaming, ρ.Aligned k k' ∧ Twin False i r r' ρ v.subst w.subst := by
  have hname : i'.name = i.name := by
    have hgoal' := congrArg Goal.name hgoal
    rw [h.goal, h'.goal] at hgoal'
    exact hgoal'.symm
  have hsame := htidy.eq_of_name_eq h'.call.declared h.call.declared hname
  rw [Evidence.declared.injEq] at hsame
  subst hsame
  obtain ⟨ρ, hρ, hoffered, hsilent⟩ := h.exists_aligned h' hgoal
  refine ⟨rfl, ρ, hρ, fun p hp => ?_, False.elim⟩
  rcases Classical.em (p.var ∈ Ty.varsAll i'.provides) with hmem | hapart
  · obtain ⟨c, hc, hpc⟩ := Ty.mem_varsAll_iff.1 hmem
    simp only [offered, Subst.applyAll, List.map_map] at hoffered
    have hsubst := List.map_inj_left.1 hoffered c hc
    simp only [Function.comp_apply, Ty.rename, Subst.apply, Ty.subst_subst] at hsubst
    exact Ty.subst_eq_subst_iff.1 hsubst p.var hpc
  · rw [h.lookup_of_apart hp hapart, h'.lookup_of_apart hp hapart, ← hsilent p hp hapart]
    rfl

end Site

end ConceptResolution
