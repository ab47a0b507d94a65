import ConceptResolution.Proofs.Arity
import ConceptResolution.Search.Matching

namespace ConceptResolution

/-- The variable of a parameter, and of none that is a witness. -/
def Plain (params : List Param) (v : TyVar) : Prop :=
  (∃ p ∈ params, p.var = v) ∧ ∀ p ∈ params, p.isWitness = true → p.var ≠ v

instance (params : List Param) (v : TyVar) : Decidable (Plain params v) :=
  inferInstanceAs (Decidable (_ ∧ _))

structure Instance.WellScoped (M : ConceptModel) (i : Instance) : Prop where
  provides : ∀ c ∈ i.provides, M.fits c = true ∧ ∀ v ∈ c.vars, Plain i.params v
  constraints : ∀ p ∈ i.params, ∀ c ∈ p.constraints,
    M.fits c = true ∧ ∀ v ∈ c.vars, Plain i.params v

instance (M : ConceptModel) (i : Instance) : Decidable (i.WellScoped M) :=
  decidable_of_iff (_ ∧ _) ⟨fun h => ⟨h.1, h.2⟩, fun h => ⟨h.provides, h.constraints⟩⟩

structure Param.WellScoped (M : ConceptModel) (scope : List Param) (p : Param) : Prop where
  named : p.var.isFresh = false
  constraints : ∀ c ∈ p.constraints, M.fits c = true ∧ ∀ v ∈ c.vars, ∃ q ∈ scope, q.var = v

instance (M : ConceptModel) (scope : List Param) (p : Param) : Decidable (p.WellScoped M scope) :=
  decidable_of_iff (_ ∧ _) ⟨fun h => ⟨h.1, h.2⟩, fun h => ⟨h.named, h.constraints⟩⟩

structure Registry.WellScoped (r : Registry) (scope : List Param) : Prop where
  supers : ∀ c ∈ r.concepts, ∀ s ∈ c.supers, r.model.fits s = true ∧ ∀ v ∈ s.vars, v ∈ c.params
  instances : ∀ i ∈ r.instances, i.WellScoped r.model
  scope : ∀ p ∈ scope, p.WellScoped r.model scope

instance (r : Registry) (scope : List Param) : Decidable (r.WellScoped scope) :=
  decidable_of_iff (_ ∧ _ ∧ _)
    ⟨fun h => ⟨h.1, h.2.1, h.2.2⟩, fun h => ⟨h.supers, h.instances, h.scope⟩⟩

structure Site.WellScoped (site : Site) : Prop where
  closed : site.model.Closed
  declared : ∀ i, .declared i ∈ site.scope.evidence → i.WellScoped site.model
  given : ∀ p, .given p ∈ site.scope.evidence → p.var ∈ site.scope.bound ∧
    ∀ c ∈ p.constraints, site.model.fits c = true ∧ ∀ v ∈ c.vars, v ∈ site.scope.bound
  bound : ∀ v ∈ site.scope.bound, v.isFresh = false

theorem Site.WellScoped.bound_of_given {site : Site} (h : site.WellScoped) (p : Param)
    (hp : .given p ∈ site.scope.evidence) : p.var ∈ site.scope.bound :=
  (h.given p hp).1

def Registry.site (r : Registry) (scope : List Param) (options : Options) : Site :=
  ⟨r.model, .ofParams r.instances scope, options⟩

namespace Scope

theorem bound_add (s : Scope) (e : Evidence) : (s.add e).bound = s.bound := by
  unfold add
  split <;> rfl

theorem mem_bound_bind {s : Scope} {v w : TyVar} : w ∈ (s.bind v).bound ↔ w ∈ s.bound ∨ w = v := by
  unfold bind
  split
  · next hv =>
    constructor
    · exact .inl
    · rintro (hw | rfl)
      · exact hw
      · exact hv
  · simp

theorem mem_bound_enter {s : Scope} {p : Param} {w : TyVar} :
    w ∈ (s.enter p).bound ↔ w ∈ s.bound ∨ w = p.var := by
  unfold enter
  split
  · rw [bound_add, mem_bound_bind]
  · exact mem_bound_bind

theorem evidence_bind (s : Scope) (v : TyVar) : (s.bind v).evidence = s.evidence := by
  unfold bind
  split <;> rfl

theorem mem_evidence_add {s : Scope} {e f : Evidence} (h : f ∈ (s.add e).evidence) :
    f ∈ s.evidence ∨ f = e := by
  unfold add at h
  split at h
  · exact .inl h
  · simpa using h

theorem mem_evidence_enter {s : Scope} {p : Param} {e : Evidence}
    (h : e ∈ (s.enter p).evidence) : e ∈ s.evidence ∨ e = .given p ∧ p.isWitness = true := by
  unfold enter at h
  split at h
  · next hp =>
    have h := mem_evidence_add h
    rw [evidence_bind] at h
    exact h.imp_right fun he => ⟨he, hp⟩
  · rw [evidence_bind] at h
    exact .inl h

private theorem mem_bound_foldl_enter {params : List Param} {s : Scope} {v : TyVar} :
    v ∈ (params.foldl enter s).bound ↔ v ∈ s.bound ∨ ∃ p ∈ params, p.var = v := by
  induction params generalizing s with
  | nil => simp
  | cons p params ih =>
      rw [List.foldl_cons, ih, mem_bound_enter, or_assoc]
      simp [eq_comm]

private theorem mem_evidence_foldl_enter {params : List Param} {s : Scope} {e : Evidence}
    (h : e ∈ (params.foldl enter s).evidence) :
    e ∈ s.evidence ∨ ∃ p ∈ params, e = .given p ∧ p.isWitness = true := by
  induction params generalizing s with
  | nil => exact .inl h
  | cons p params ih =>
      rcases ih h with h | ⟨q, hq, h⟩
      · refine (mem_evidence_enter h).imp_right fun h => ⟨p, List.mem_cons_self, h⟩
      · exact .inr ⟨q, List.mem_cons_of_mem p hq, h⟩

private theorem bound_foldl_add (es : List Evidence) (s : Scope) :
    (es.foldl add s).bound = s.bound := by
  induction es generalizing s with
  | nil => rfl
  | cons e es ih => rw [List.foldl_cons, ih, bound_add]

private theorem mem_evidence_foldl_add {es : List Evidence} {s : Scope} {f : Evidence}
    (h : f ∈ (es.foldl add s).evidence) : f ∈ s.evidence ∨ f ∈ es := by
  induction es generalizing s with
  | nil => exact .inl h
  | cons e es ih =>
      rcases ih h with h | h
      · exact (mem_evidence_add h).imp_right fun he => List.mem_cons.2 (.inl he)
      · exact .inr (List.mem_cons_of_mem e h)

theorem mem_bound_ofParams {instances : List Instance} {params : List Param} {v : TyVar} :
    v ∈ (ofParams instances params).bound ↔ ∃ p ∈ params, p.var = v := by
  rw [ofParams, bound_foldl_add, mem_bound_foldl_enter]
  simp [empty]

theorem mem_of_given_mem_ofParams {instances : List Instance} {params : List Param} {p : Param}
    (h : .given p ∈ (ofParams instances params).evidence) : p ∈ params ∧ p.isWitness = true := by
  rcases mem_evidence_foldl_add h with h | h
  · rcases mem_evidence_foldl_enter h with h | ⟨q, hq, h, hw⟩
    · cases h
    · cases h
      exact ⟨hq, hw⟩
  · simp at h

theorem mem_of_declared_mem_ofParams {instances : List Instance} {params : List Param}
    {i : Instance} (h : .declared i ∈ (ofParams instances params).evidence) : i ∈ instances := by
  rcases mem_evidence_foldl_add h with h | h
  · rcases mem_evidence_foldl_enter h with h | ⟨q, -, h, -⟩
    · cases h
    · cases h
  · simpa using h

/-- No two pieces of evidence share a name, and the givens are those among the evidence. -/
structure Tidy (s : Scope) : Prop where
  nodup : (s.evidence.map Evidence.name).Nodup
  mem_givens_iff : ∀ p, p ∈ s.givens ↔ .given p ∈ s.evidence

theorem tidy_empty : empty.Tidy :=
  ⟨List.nodup_nil, by simp [empty]⟩

theorem Tidy.bind {s : Scope} (h : s.Tidy) (v : TyVar) : (s.bind v).Tidy := by
  unfold Scope.bind
  split
  · exact h
  · exact ⟨h.nodup, h.mem_givens_iff⟩

theorem Tidy.add {s : Scope} (h : s.Tidy) (e : Evidence) : (s.add e).Tidy := by
  unfold Scope.add
  split
  · exact h
  · next hnew =>
    refine ⟨?_, fun p => ?_⟩
    · rw [List.map_append, List.nodup_append]
      refine ⟨h.nodup, by simp, ?_⟩
      intro name hname name' hname' heq
      obtain ⟨f, hf, rfl⟩ := List.mem_map.1 hname
      rw [List.map_singleton, List.mem_singleton] at hname'
      exact hnew (List.any_eq_true.2 ⟨f, hf, by simp [heq, hname']⟩)
    · cases e with
      | given q => simp [h.mem_givens_iff]
      | declared i => simp [h.mem_givens_iff]

theorem Tidy.enter {s : Scope} (h : s.Tidy) (p : Param) : (s.enter p).Tidy := by
  unfold Scope.enter
  split
  · exact (h.bind p.var).add _
  · exact h.bind p.var

theorem Tidy.addAll {s : Scope} (h : s.Tidy) (es : List Evidence) :
    (es.foldl Scope.add s).Tidy := by
  induction es generalizing s with
  | nil => exact h
  | cons e es ih => exact ih (h.add e)

theorem Tidy.enterAll {s : Scope} (h : s.Tidy) (params : List Param) :
    (params.foldl Scope.enter s).Tidy := by
  induction params generalizing s with
  | nil => exact h
  | cons p params ih => exact ih (h.enter p)

theorem tidy_ofParams (instances : List Instance) (params : List Param) :
    (ofParams instances params).Tidy :=
  (tidy_empty.enterAll params).addAll _

/-- The scopes that can be built: from nothing, from parameters and declared instances, and by
adding evidence and binding variables one at a time. -/
inductive Built : Scope → Prop
  | empty : Built .empty
  | ofParams (instances : List Instance) (params : List Param) : Built (.ofParams instances params)
  | add {s : Scope} (h : Built s) (e : Evidence) : Built (s.add e)
  | bind {s : Scope} (h : Built s) (v : TyVar) : Built (s.bind v)

theorem Built.tidy {s : Scope} (h : s.Built) : s.Tidy := by
  induction h with
  | empty => exact tidy_empty
  | ofParams instances params => exact tidy_ofParams instances params
  | add _ e ih => exact ih.add e
  | bind _ v ih => exact ih.bind v

theorem Tidy.eq_of_name_eq {s : Scope} (h : s.Tidy) {e f : Evidence} (he : e ∈ s.evidence)
    (hf : f ∈ s.evidence) (hname : e.name = f.name) : e = f :=
  List.inj_on_of_nodup_map h.nodup he hf hname

private theorem subset_evidence_add (s : Scope) (e : Evidence) :
    s.evidence ⊆ (s.add e).evidence := by
  unfold add
  split
  · exact List.Subset.refl _
  · exact List.subset_append_left _ _

private theorem subset_evidence_addAll (es : List Evidence) (s : Scope) :
    s.evidence ⊆ (es.foldl add s).evidence := by
  induction es generalizing s with
  | nil => exact List.Subset.refl _
  | cons e es ih => exact List.Subset.trans (subset_evidence_add s e) (ih (s.add e))

private theorem exists_name_eq_add (s : Scope) (e : Evidence) :
    ∃ f ∈ (s.add e).evidence, f.name = e.name := by
  unfold add
  split
  · next h => simpa using h
  · exact ⟨e, by simp, rfl⟩

private theorem find?_of_declared_mem_addAll {is : List Instance} {s : Scope} (hs : s.Tidy)
    {i : Instance} (h : .declared i ∈ ((is.map Evidence.declared).foldl add s).evidence) :
    .declared i ∈ s.evidence ∨ (is.find? fun j => j.name == i.name) = some i := by
  induction is generalizing s with
  | nil => exact .inl h
  | cons j is ih =>
      rw [List.map_cons, List.foldl_cons] at h
      rcases Decidable.em (j.name = i.name) with hname | hname
      · -- evidence of this name is in scope from here on, and it can only be `i` itself
        obtain ⟨f, hf, hfname⟩ := exists_name_eq_add s (.declared j)
        have hfi : f = .declared i := by
          refine ((hs.add _).addAll _).eq_of_name_eq (subset_evidence_addAll _ _ hf) h ?_
          exact hfname.trans hname
        rcases mem_evidence_add (hfi ▸ hf) with hmem | heq
        · exact .inl hmem
        · cases heq
          exact .inr (by simp)
      · rw [List.find?_cons_of_neg (by simpa using hname)]
        refine (ih (hs.add _) h).imp_left fun hmem => ?_
        rcases mem_evidence_add hmem with hmem | heq
        · exact hmem
        · cases heq
          exact absurd rfl hname

theorem find?_of_declared_mem_ofParams {instances : List Instance} {params : List Param}
    {i : Instance} (h : .declared i ∈ (ofParams instances params).evidence) :
    (instances.find? fun j => j.name == i.name) = some i := by
  refine (find?_of_declared_mem_addAll (tidy_empty.enterAll params) h).resolve_left fun hmem => ?_
  rcases mem_evidence_foldl_enter hmem with hmem | ⟨q, -, hq, -⟩
  · cases hmem
  · cases hq

end Scope

theorem Registry.WellScoped.site {r : Registry} {scope : List Param} (h : r.WellScoped scope)
    (options : Options) : (r.site scope options).WellScoped where
  closed := by
    intro name c hc
    exact h.supers c (Registry.mem_of_model_concept? hc).1
  declared i hi := h.instances i (Scope.mem_of_declared_mem_ofParams hi)
  given := by
    intro p hp
    obtain ⟨hp, -⟩ := Scope.mem_of_given_mem_ofParams hp
    refine ⟨Scope.mem_bound_ofParams.2 ⟨p, hp, rfl⟩, fun c hc => ?_⟩
    obtain ⟨hfits, hvars⟩ := (h.scope p hp).constraints c hc
    exact ⟨hfits, fun v hv => Scope.mem_bound_ofParams.2 (hvars v hv)⟩
  bound := by
    intro v hv
    obtain ⟨p, hp, rfl⟩ := Scope.mem_bound_ofParams.1 hv
    exact (h.scope p hp).named

end ConceptResolution
