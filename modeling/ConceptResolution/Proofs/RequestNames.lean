import ConceptResolution.Proofs.Completion
import ConceptResolution.Proofs.Solvability

namespace ConceptResolution

namespace Site

variable {site : Site}

theorem meet_alike {provided : List Ty} {s s' : Subst} {c c' : Ty}
    (h : ∀ p ∈ provided, (∃ s₁, unify site.scope.bound p c s = .ok s₁) ↔
      ∃ s₁, unify site.scope.bound p c' s' = .ok s₁) :
    site.meet provided s c = none ∧ site.meet provided s' c' = none ∨
      ∃ p ∈ provided, ∃ s₁ s₁', unify site.scope.bound p c s = .ok s₁ ∧
        unify site.scope.bound p c' s' = .ok s₁' ∧
        site.meet provided s c = some s₁ ∧ site.meet provided s' c' = some s₁' := by
  induction provided with
  | nil => exact .inl ⟨rfl, rfl⟩
  | cons p provided ih =>
      obtain ⟨hp, hprovided⟩ := List.forall_mem_cons.1 h
      cases hu : unify site.scope.bound p c s with
      | ok s₁ =>
          obtain ⟨s₁', hu'⟩ := hp.1 ⟨s₁, hu⟩
          refine .inr ⟨p, List.mem_cons_self, s₁, s₁', hu, hu', ?_, ?_⟩
          · simp [meet, hu, Except.toOption]
          · simp [meet, hu', Except.toOption]
      | error e =>
          cases hu' : unify site.scope.bound p c' s' with
          | ok s₁' =>
              obtain ⟨s₁, hs₁⟩ := hp.2 ⟨s₁', hu'⟩
              rw [hu] at hs₁
              cases hs₁
          | error e' =>
              have hskip : site.meet (p :: provided) s c = site.meet provided s c := by
                simp [meet, hu, Except.toOption]
              have hskip' : site.meet (p :: provided) s' c' = site.meet provided s' c' := by
                simp [meet, hu', Except.toOption]
              rw [hskip, hskip']
              rcases ih hprovided with hnone | ⟨q, hq, hmeet⟩
              · exact .inl hnone
              · exact .inr ⟨q, List.mem_cons_of_mem p hq, hmeet⟩

/-- A renaming that is one to one on some variables, and leaves those of the scope and of what is
provided as they are. -/
structure Respects (site : Site) (provided : List Ty) (σ : TyVar → TyVar) (W : Set TyVar) :
    Prop where
  injOn : W.InjOn σ
  bound : ∀ v ∈ site.scope.bound, v ∈ W ∧ σ v = v
  provided : ∀ p ∈ provided, ∀ v ∈ p.vars, v ∈ W ∧ σ v = v

theorem Respects.isSome_foldlM_meet {provided required : List Ty} {σ : TyVar → TyVar}
    {W : Set TyVar} (h : site.Respects provided σ W)
    (hrequired : ∀ c ∈ required, ∀ v ∈ c.vars, v ∈ W) {pairs : List (Ty × Ty)}
    (hpairs : ∀ pair ∈ pairs, ∀ v, v ∈ pair.1.vars ∨ v ∈ pair.2.vars → v ∈ W)
    {s s' : Subst} (hs : Unifies site.scope.bound pairs .empty s)
    (hs' : Unifies site.scope.bound (pairs.map (renamePair σ)) .empty s') :
    ((required.map (Ty.rename σ)).foldlM (site.meet provided) s').isSome =
      (required.foldlM (site.meet provided) s).isSome := by
  -- by induction on the requirements, with what has been met so far as solvable pairs
  induction required generalizing pairs s s' with
  | nil => rfl
  | cons c required ih =>
      obtain ⟨hc, hrequired⟩ := List.forall_mem_cons.1 hrequired
      have hfix : ∀ p ∈ provided, p.rename σ = p := fun p hp =>
        Ty.subst_eq_self_iff.2 fun v hv => congrArg Ty.var (h.provided p hp v hv).2
      have hmore : ∀ p ∈ provided, ∀ pair ∈ pairs ++ [(p, c)], ∀ v,
          v ∈ pair.1.vars ∨ v ∈ pair.2.vars → v ∈ W := by
        intro p hp
        refine List.forall_mem_append.2 ⟨hpairs, List.forall_mem_singleton.2 fun v hv => ?_⟩
        exact hv.elim (fun hv => (h.provided p hp v hv).1) (hc v)
      have halike : ∀ p ∈ provided, (∃ s₁, unify site.scope.bound p c s = .ok s₁) ↔
          ∃ s₁, unify site.scope.bound p (c.rename σ) s' = .ok s₁ := by
        intro p hp
        have hrename := solvable_map_renamePair_iff h.injOn h.bound (hmore p hp)
        rw [List.map_append, List.map_singleton, renamePair, hfix p hp] at hrename
        rw [hs.exists_unify_iff, hs'.exists_unify_iff, hrename]
      rw [List.map_cons, List.foldlM_cons, List.foldlM_cons]
      rcases meet_alike halike with ⟨hnone, hnone'⟩ | ⟨p, hp, s₁, s₁', hu, hu', hsome, hsome'⟩
      · rw [hnone, hnone']
        rfl
      · rw [hsome, hsome']
        refine ih hrequired (hmore p hp) (hs.append (Unifies.of_unify hu)) ?_
        rw [List.map_append, List.map_singleton, renamePair, hfix p hp]
        exact hs'.append (Unifies.of_unify hu')

theorem run_matching_candidates (site : Site) (required : List Ty) (m : Memory) :
    ((site.matching required).run m).1.map Viable.candidate =
      ((Search.instantiateAll site.scope.evidence).run m).1.filter fun i =>
        (site.meetAll required i).isSome := by
  change (((Search.instantiateAll site.scope.evidence).run m).1.filterMap
    (site.viable? required)).map Viable.candidate = _
  induction ((Search.instantiateAll site.scope.evidence).run m).1 with
  | nil => rfl
  | cons i is ih =>
      rw [List.filterMap_cons, List.filter_cons, viable?]
      cases site.meetAll required i with
      | none => exact ih
      | some s => exact congrArg (i :: ·) ih

/-- The variable occurs in what some evidence provides, superconcepts included, when a search has
instantiated all. -/
def Offers (site : Site) (m : Memory) (v : TyVar) : Prop :=
  ∃ i ∈ ((Search.instantiateAll site.scope.evidence).run m).1,
    ∃ c ∈ site.model.expand i.provides, v ∈ c.vars

instance (site : Site) (m : Memory) (v : TyVar) : Decidable (site.Offers m v) :=
  inferInstanceAs (Decidable (∃ i ∈ _, _))

/-- A parameter of some evidence is renamed to this variable when a search instantiates all. -/
def Mints (site : Site) (m : Memory) (v : TyVar) : Prop :=
  ∃ i ∈ ((Search.instantiateAll site.scope.evidence).run m).1, ∃ p ∈ i.params, p.var = v

theorem ProvidesScoped.mem_bound_or_mints (h : site.ProvidesScoped) {m : Memory} {v : TyVar}
    (hv : site.Offers m v) : v ∈ site.scope.bound ∨ site.Mints m v := by
  obtain ⟨_, his⟩ := Search.exists_of_mem_instantiateAll site.scope.evidence m
  obtain ⟨i, hi, c, hc, hv⟩ := hv
  obtain ⟨hsource, hof⟩ := his i hi
  exact (h.mem_vars_expand hof hsource hc hv).imp_right fun hp => ⟨i, hi, hp⟩

/-- A renaming of the free variables of some requirements to other free variables, one to one, that
keeps clear of what the evidence offers. -/
structure Renames (site : Site) (m : Memory) (required : List Ty) (σ : TyVar → TyVar) : Prop where
  bound : ∀ v ∈ site.scope.bound, σ v = v
  free : ∀ v ∈ Ty.varsAll required, v ∉ site.scope.bound →
    σ v ∉ site.scope.bound ∧ ¬site.Offers m v ∧ ¬site.Offers m (σ v)
  injOn : ∀ v ∈ Ty.varsAll required, ∀ w ∈ Ty.varsAll required, σ v = σ w → v = w

instance (site : Site) (m : Memory) (required : List Ty) (σ : TyVar → TyVar) :
    Decidable (site.Renames m required σ) :=
  decidable_of_iff (_ ∧ _ ∧ _)
    ⟨fun h => ⟨h.1, h.2.1, h.2.2⟩, fun h => ⟨h.bound, h.free, h.injOn⟩⟩

section

variable {m : Memory} {required : List Ty} {σ : TyVar → TyVar} {v w : TyVar}

def renameOnly (vs : List TyVar) (σ : TyVar → TyVar) (v : TyVar) : TyVar :=
  if v ∈ vs then σ v else v

theorem map_rename_renameOnly (required : List Ty) (σ : TyVar → TyVar) :
    required.map (Ty.rename (renameOnly (Ty.varsAll required) σ)) =
      required.map (Ty.rename σ) := by
  refine List.map_congr_left fun c hc => Ty.subst_congr fun v hv => congrArg Ty.var ?_
  exact if_pos (Ty.mem_varsAll_iff.2 ⟨c, hc, hv⟩)

def Stands (site : Site) (m : Memory) (v : TyVar) : Prop :=
  v ∈ site.scope.bound ∨ site.Offers m v

theorem Renames.renameOnly_of_stands (h : site.Renames m required σ) (hv : site.Stands m v) :
    renameOnly (Ty.varsAll required) σ v = v := by
  rw [renameOnly]
  split
  · next hmem =>
    by_cases hbound : v ∈ site.scope.bound
    · exact h.bound v hbound
    · exact absurd (hv.resolve_left hbound) (h.free v hmem hbound).2.1
  · rfl

theorem Renames.eq_of_renameOnly_eq (h : site.Renames m required σ)
    (hv : v ∈ Ty.varsAll required) (hw : site.Stands m w)
    (hvw : renameOnly (Ty.varsAll required) σ v = w) : v = w := by
  by_cases hbound : v ∈ site.scope.bound
  · rwa [h.renameOnly_of_stands (.inl hbound)] at hvw
  · obtain ⟨hfree, -, hnot⟩ := h.free v hv hbound
    rw [renameOnly, if_pos hv] at hvw
    rw [hvw] at hfree hnot
    exact (hw.elim hfree hnot).elim

theorem Renames.injOn_renameOnly (h : site.Renames m required σ) :
    {v | site.Stands m v ∨ v ∈ Ty.varsAll required}.InjOn
      (renameOnly (Ty.varsAll required) σ) := by
  rintro v (hv | hv) w (hw | hw) hvw
  · rwa [h.renameOnly_of_stands hv, h.renameOnly_of_stands hw] at hvw
  · rw [h.renameOnly_of_stands hv] at hvw
    exact (h.eq_of_renameOnly_eq hw hv hvw.symm).symm
  · rw [h.renameOnly_of_stands hw] at hvw
    exact h.eq_of_renameOnly_eq hv hw hvw
  · rw [renameOnly, renameOnly, if_pos hv, if_pos hw] at hvw
    exact h.injOn v hv w hw hvw

theorem Renames.respects (h : site.Renames m required σ) {provided : List Ty}
    (hprovided : ∀ c ∈ provided, ∀ v ∈ c.vars, site.Offers m v) :
    site.Respects provided (renameOnly (Ty.varsAll required) σ)
      {v | site.Stands m v ∨ v ∈ Ty.varsAll required} where
  injOn := h.injOn_renameOnly
  bound _ hv := ⟨.inl (.inl hv), h.renameOnly_of_stands (.inl hv)⟩
  provided c hc v hv :=
    have hstands : site.Stands m v := .inr (hprovided c hc v hv)
    ⟨.inl hstands, h.renameOnly_of_stands hstands⟩

theorem Renames.candidates_eq (h : site.Renames m required σ) :
    ((site.matching (required.map (Ty.rename σ))).run m).1.map Viable.candidate =
      ((site.matching required).run m).1.map Viable.candidate := by
  rw [← map_rename_renameOnly, run_matching_candidates, run_matching_candidates]
  refine List.filter_congr fun i hi => ?_
  have hrespects := h.respects fun c hc v hv => ⟨i, hi, c, hc, hv⟩
  have hrequired : ∀ c ∈ required, ∀ v ∈ c.vars, site.Stands m v ∨ v ∈ Ty.varsAll required :=
    fun c hc v hv => .inr (Ty.mem_varsAll_iff.2 ⟨c, hc, hv⟩)
  have hstart : Unifies site.scope.bound [] .empty .empty := .done .empty
  exact hrespects.isSome_foldlM_meet hrequired (List.forall_mem_nil _) hstart hstart

end

/-- Matching keeps the same evidence in the same order under every name that is clear of what the
evidence offers; in scoped declarations those are all names but the minted ones. -/
theorem matching_rename (site : Site) (m : Memory) :
    (∀ required σ, site.Renames m required σ →
      ((site.matching (required.map (Ty.rename σ))).run m).1.map Viable.candidate =
        ((site.matching required).run m).1.map Viable.candidate) ∧
      (site.ProvidesScoped → ∀ v, site.Offers m v → v ∈ site.scope.bound ∨ site.Mints m v) :=
  ⟨fun _ _ h => h.candidates_eq, fun h _ hv => h.mem_bound_or_mints hv⟩

theorem matching_rename_list :
    let site := Registry.ordered.site [.witness ⟨"'s"⟩ [.app "Ord" [.var ⟨"'s"⟩]]] .standard
    let σ : TyVar → TyVar := fun v => if v = ⟨"'x"⟩ then ⟨"?t7"⟩ else v
    let required : List Ty := [.app "Eq" [.list (.var ⟨"'x"⟩)]]
    required.map (Ty.rename σ) = [.app "Eq" [.list (.var ⟨"?t7"⟩)]] ∧
      ((site.matching (required.map (Ty.rename σ))).run .empty).1.map Viable.candidate =
        ((site.matching required).run .empty).1.map Viable.candidate ∧
      ((site.matching required).run .empty).1.map Viable.name = ["ListEq"] ∧
      ∀ v, site.Offers .empty v → v ∈ site.scope.bound ∨ site.Mints .empty v := by
  intro site σ required
  have hsite : Registry.ordered.WellScoped [.witness ⟨"'s"⟩ [.app "Ord" [.var ⟨"'s"⟩]]] := by
    decide +kernel
  obtain ⟨hmatching, hoffers⟩ := matching_rename site .empty
  exact ⟨by decide, hmatching required σ (by decide +kernel), by decide +kernel,
    hoffers (hsite.site .standard).scoped.providesScoped⟩

/-- A variable of a request that is minted for the parameter of an instance meanwhile. The instance
is kept for any other name of it. -/
theorem not_matching_rename_of_minted :
    let r : Registry :=
      ⟨[⟨"Foo", [⟨"'a"⟩], [], [], []⟩],
        [⟨"I", [.associated ⟨"'t"⟩], [.app "Foo" [.var ⟨"'t"⟩]], .neither, []⟩], []⟩
    let site := r.site [] .standard
    let σ : TyVar → TyVar := fun v => if v = ⟨"?t0"⟩ then ⟨"'x"⟩ else v
    let required : List Ty := [.app "Foo" [.list (.var ⟨"?t0"⟩)]]
    site.ProvidesScoped ∧
      ((site.matching required).run .empty).1.map Viable.name = [] ∧
      ((site.matching (required.map (Ty.rename σ))).run .empty).1.map Viable.name = ["I"] := by
  intro r site σ required
  have hscope : r.WellScoped [] := by decide +kernel
  exact ⟨(hscope.site .standard).scoped.providesScoped, by decide +kernel, by decide +kernel⟩

end Site

end ConceptResolution
