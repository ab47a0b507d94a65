import ConceptResolution.Hierarchy.Closure
import ConceptResolution.Proofs.Solvability

/-!
What a type declares by the patterns it matches. A pattern is not renamed apart from the type, and
so it matches where it can be instantiated to the type without touching a variable that both of them
mention; where they share none, it does not matter how the variables of the type are called.
-/

namespace ConceptResolution

/-- A substitution that turns a pattern into a type and leaves the variables alone that both
mention. -/
structure Match (pattern t : Ty) (θ : Subst) : Prop where
  equal : θ.apply pattern = t
  fixes : ∀ v ∈ pattern.vars, v ∈ t.vars → θ.lookup v = .var v

/-- No variable of the pattern occurs in the type. -/
def Apart (pattern t : Ty) : Prop :=
  ∀ v ∈ pattern.vars, v ∉ t.vars

namespace Registry

def contribution? (t : Ty) (entry : Ty × Ty) : Option Ty :=
  match unify t.vars entry.1 t .empty with
  | .ok s => some (s.apply entry.2)
  | .error _ => none

theorem declared_eq_filterMap (r : Registry) (t : Ty) :
    r.declared t = r.typeConcepts.filterMap (contribution? t) := rfl

end Registry

section

variable {pattern concept t : Ty} {θ : Subst}

theorem Apart.match_iff (h : Apart pattern t) : Match pattern t θ ↔ θ.apply pattern = t :=
  ⟨Match.equal, fun hequal => ⟨hequal, fun v hv ht => absurd ht (h v hv)⟩⟩

theorem match_of_unify (h : unify t.vars pattern t .empty = .ok θ) : Match pattern t θ := by
  obtain ⟨hfixes, -, hequal⟩ := unifier_of_unify Subst.idempotent_empty h
  have hfix : ∀ v ∈ t.vars, θ.lookup v = .var v := fun v hv => hfixes v ⟨hv, rfl⟩
  exact ⟨hequal.trans (Subst.apply_eq_self_iff.2 hfix), fun v _ hv => hfix v hv⟩

/-- A match can do without all variables but those of the pattern, and is a unifier then. -/
theorem Match.exists_unify (h : Match pattern t θ) :
    ∃ s, unify t.vars pattern t .empty = .ok s := by
  let small : TyVar → Ty := fun v => if v ∈ pattern.vars then θ.lookup v else .var v
  have hfix : ∀ v ∈ t.vars, small v = .var v := by
    intro v hv
    rcases Decidable.em (v ∈ pattern.vars) with hpattern | hpattern
    · rw [← h.fixes v hpattern hv]
      exact if_pos hpattern
    · exact if_neg hpattern
  have hequal : pattern.subst small = t.subst small := by
    rw [Ty.subst_eq_self_iff.2 hfix, ← h.equal]
    exact Ty.subst_congr fun v hv => if_pos hv
  refine (Unifies.done Subst.empty).exists_unify_iff.2 ⟨small, hfix, fun pair hpair => ?_⟩
  cases List.mem_singleton.1 hpair
  exact hequal

theorem Match.apply_eq {θ' : Subst} (h : Match pattern t θ) (h' : Match pattern t θ')
    (hconcept : ∀ v ∈ concept.vars, v ∈ pattern.vars) : θ.apply concept = θ'.apply concept :=
  Ty.subst_congr fun v hv =>
    Ty.subst_eq_subst_iff.1 (h.equal.trans h'.equal.symm) v (hconcept v hv)

theorem contribution?_eq_some_iff (hconcept : ∀ v ∈ concept.vars, v ∈ pattern.vars) {e : Ty} :
    Registry.contribution? t (pattern, concept) = some e ↔
      ∃ θ, Match pattern t θ ∧ θ.apply concept = e := by
  unfold Registry.contribution?
  constructor
  · intro h
    split at h
    · next s hs => exact ⟨s, match_of_unify hs, Option.some.inj h⟩
    · cases h
  · rintro ⟨θ, hθ, rfl⟩
    obtain ⟨s, hs⟩ := hθ.exists_unify
    simp only [hs]
    rw [(match_of_unify hs).apply_eq hθ hconcept]

theorem exists_apply_eq_subst (hconcept : ∀ v ∈ concept.vars, v ∈ pattern.vars)
    (h : θ.apply pattern = t) (f : TyVar → Ty) :
    ∃ θ' : Subst, θ'.apply pattern = t.subst f ∧ θ'.apply concept = (θ.apply concept).subst f := by
  let θ' := Subst.tabulate pattern.vars fun v => (θ.lookup v).subst f
  have happly : ∀ u : Ty, (∀ v ∈ u.vars, v ∈ pattern.vars) → θ'.apply u = (θ.apply u).subst f := by
    intro u hu
    rw [Subst.apply, Subst.apply, Ty.subst_subst]
    exact Ty.subst_congr fun v hv => by rw [Subst.lookup_tabulate, if_pos (hu v hv)]
  exact ⟨θ', h ▸ happly pattern fun _ => id, happly concept hconcept⟩

theorem contribution?_rename (hconcept : ∀ v ∈ concept.vars, v ∈ pattern.vars) {σ : TyVar → TyVar}
    (hinj : {v | v ∈ t.vars}.InjOn σ) (h : Apart pattern t) (h' : Apart pattern (t.rename σ)) :
    Registry.contribution? (t.rename σ) (pattern, concept) =
      (Registry.contribution? t (pattern, concept)).map (Ty.rename σ) := by
  have hthere : ∀ e, Registry.contribution? t (pattern, concept) = some e →
      Registry.contribution? (t.rename σ) (pattern, concept) = some (e.rename σ) := by
    intro e he
    obtain ⟨θ, hθ, rfl⟩ := (contribution?_eq_some_iff hconcept).1 he
    obtain ⟨θ', hequal, hconcept'⟩ := exists_apply_eq_subst hconcept hθ.equal (.var ∘ σ)
    exact (contribution?_eq_some_iff hconcept).2 ⟨θ', h'.match_iff.2 hequal, hconcept'⟩
  cases hown : Registry.contribution? t (pattern, concept) with
  | some e => exact hthere e hown
  | none =>
      refine Option.eq_none_iff_forall_ne_some.2 fun e he => ?_
      obtain ⟨θ, hθ, -⟩ := (contribution?_eq_some_iff hconcept).1 he
      let back : TyVar → Ty := fun v => .var (Function.invFunOn σ {v | v ∈ t.vars} v)
      have hback : (t.rename σ).subst back = t := by
        rw [Ty.subst_rename]
        exact Ty.subst_eq_self_iff.2 fun v hv => congrArg Ty.var (hinj.leftInvOn_invFunOn hv)
      obtain ⟨θ', hequal, -⟩ := exists_apply_eq_subst hconcept hθ.equal back
      have hsome := (contribution?_eq_some_iff hconcept).2
        ⟨θ', h.match_iff.2 (hequal.trans hback), rfl⟩
      rw [hown] at hsome
      cases hsome

end

/-- What a type declares comes from the pairs whose pattern matches it, in their order, and is the
concept of each pair under the match. Where pattern and type have no variable in common, to match is
to be turned into the type by any substitution, and if the variables of the type are renamed
injectively the pair declares the same concept, renamed. -/
theorem declared_matches {pattern concept : Ty}
    (hconcept : ∀ v ∈ concept.vars, v ∈ pattern.vars) (t : Ty) :
    (∀ r : Registry, r.declared t = r.typeConcepts.filterMap (Registry.contribution? t)) ∧
      (∀ e, Registry.contribution? t (pattern, concept) = some e ↔
        ∃ θ, Match pattern t θ ∧ θ.apply concept = e) ∧
      (Apart pattern t →
        (∀ e, Registry.contribution? t (pattern, concept) = some e ↔
          ∃ θ : Subst, θ.apply pattern = t ∧ θ.apply concept = e) ∧
        ∀ σ : TyVar → TyVar, {v | v ∈ t.vars}.InjOn σ → Apart pattern (t.rename σ) →
          Registry.contribution? (t.rename σ) (pattern, concept) =
            (Registry.contribution? t (pattern, concept)).map (Ty.rename σ)) := by
  refine ⟨fun r => r.declared_eq_filterMap t, fun e => contribution?_eq_some_iff hconcept,
    fun hapart => ⟨fun e => ?_, fun σ hinj h' => contribution?_rename hconcept hinj hapart h'⟩⟩
  simp only [contribution?_eq_some_iff hconcept, hapart.match_iff]

/-- The variable of the pattern occurs twice, at different depths, and stands for a type with
variables of its own, which change places. -/
theorem declared_matches_nested :
    let k : TyVar := ⟨"'k"⟩
    let x : TyVar := ⟨"'x"⟩
    let y : TyVar := ⟨"'y"⟩
    let pattern : Ty := .app "map" [.var k, .list (.var k)]
    let concept : Ty := .app "Keyed" [.var k]
    let t : Ty := .app "map" [.tuple [.var x, .var y], .list (.tuple [.var x, .var y])]
    let σ : TyVar → TyVar := fun v => if v = x then y else x
    let r : Registry := ⟨[], [], [(.list (.var k), .app "Show" [.var k]), (pattern, concept)]⟩
    (∀ v ∈ concept.vars, v ∈ pattern.vars) ∧ Apart pattern t ∧ {v | v ∈ t.vars}.InjOn σ ∧
      Apart pattern (t.rename σ) ∧ r.declared t = [.app "Keyed" [.tuple [.var x, .var y]]] ∧
      Registry.contribution? t (pattern, concept) = some (.app "Keyed" [.tuple [.var x, .var y]]) ∧
      Registry.contribution? (t.rename σ) (pattern, concept) =
        (Registry.contribution? t (pattern, concept)).map (Ty.rename σ) := by
  intro k x y pattern concept t σ r
  have hconcept : ∀ v ∈ concept.vars, v ∈ pattern.vars := by decide
  have hapart : Apart pattern t := by unfold Apart; decide
  have hinj : {v | v ∈ t.vars}.InjOn σ := by
    have hall : ∀ v ∈ t.vars, ∀ w ∈ t.vars, σ v = σ w → v = w := by decide
    exact fun v hv w hw => hall v hv w hw
  have hapart' : Apart pattern (t.rename σ) := by unfold Apart; decide
  obtain ⟨-, -, hown⟩ := declared_matches hconcept t
  obtain ⟨hiff, hrename⟩ := hown hapart
  refine ⟨hconcept, hapart, hinj, hapart', by decide +kernel, (hiff _).2 ?_,
    hrename σ hinj hapart'⟩
  exact ⟨.single k (.tuple [.var x, .var y]), by decide, by decide⟩

/-- A type that a pattern can be instantiated to declares nothing if its own variable has the name
of the one in the pattern, and does so under another name. -/
theorem not_declared_of_shared :
    let v : TyVar := ⟨"'t"⟩
    let pattern : Ty := .list (.var v)
    let concept : Ty := .app "Show" [.list (.var v)]
    let t : Ty := .list (.list (.var v))
    let σ : TyVar → TyVar := fun _ => ⟨"'x"⟩
    let r : Registry := ⟨[], [], [(pattern, concept)]⟩
    (∀ v ∈ concept.vars, v ∈ pattern.vars) ∧ (Subst.single v (.list (.var v))).apply pattern = t ∧
      r.declared t = [] ∧ (∀ v ∈ t.vars, ∀ w ∈ t.vars, σ v = σ w → v = w) ∧
      r.declared (t.rename σ) = [.app "Show" [t.rename σ]] := by
  decide +kernel

end ConceptResolution
