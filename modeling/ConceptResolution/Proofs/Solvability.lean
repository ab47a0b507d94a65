import ConceptResolution.Proofs.Fresh
import ConceptResolution.Proofs.Unifiers
import Mathlib.Data.Set.Function

namespace ConceptResolution

/-- Something in place of the variables makes the types of every pair equal, and leaves the rigid
variables alone. -/
def Solvable (rigid : List TyVar) (pairs : List (Ty × Ty)) : Prop :=
  ∃ f : TyVar → Ty, (∀ v ∈ rigid, f v = .var v) ∧ ∀ pair ∈ pairs, pair.1.subst f = pair.2.subst f

namespace Subst

def tabulate (vs : List TyVar) (f : TyVar → Ty) : Subst :=
  .ofList (vs.map fun v => (v, f v))

theorem lookup_tabulate (vs : List TyVar) (f : TyVar → Ty) (v : TyVar) :
    (tabulate vs f).lookup v = if v ∈ vs then f v else .var v := by
  have hkeys : (vs.map fun v => (v, f v)).map Prod.fst = vs := by
    simp [Function.comp_def]
  rw [tabulate]
  split
  · next hv =>
    have hget := get?_eq_some_lookup (mem_domain_ofList (by rwa [hkeys]))
    obtain ⟨w, -, hw⟩ := List.mem_map.1 (mem_of_get?_ofList hget)
    obtain ⟨rfl, hlookup⟩ := Prod.mk.inj hw
    exact hlookup.symm
  · next hv =>
    refine lookup_of_notMem fun hdomain => hv ?_
    obtain ⟨t, ht⟩ := mem_domain_iff.1 hdomain
    rw [← hkeys]
    exact List.mem_map_of_mem (mem_of_get?_ofList ht)

end Subst

section

variable {rigid : List TyVar} {pairs : List (Ty × Ty)} {s : Subst} {p r : Ty}

def pairVars (pairs : List (Ty × Ty)) : List TyVar :=
  pairs.flatMap fun pair => pair.1.vars ++ pair.2.vars

theorem Solvable.exists_subst (h : Solvable rigid pairs) : ∃ θ : Subst,
    (∀ v ∈ rigid, θ.lookup v = .var v) ∧ ∀ pair ∈ pairs, θ.apply pair.1 = θ.apply pair.2 := by
  obtain ⟨f, hrigid, hequal⟩ := h
  refine ⟨.tabulate (pairVars pairs) f, fun v hv => ?_, fun pair hpair => ?_⟩
  · rw [Subst.lookup_tabulate, hrigid v hv, ite_self]
  · have hagree : ∀ t, (∀ v ∈ t.vars, v ∈ pairVars pairs) →
        (Subst.tabulate (pairVars pairs) f).apply t = t.subst f :=
      fun t ht => Ty.subst_congr fun v hv => by rw [Subst.lookup_tabulate, if_pos (ht v hv)]
    rw [hagree pair.1, hagree pair.2, hequal pair hpair]
    · exact fun v hv => List.mem_flatMap.2 ⟨pair, hpair, List.mem_append_right _ hv⟩
    · exact fun v hv => List.mem_flatMap.2 ⟨pair, hpair, List.mem_append_left _ hv⟩

theorem solvable_iff : Solvable rigid pairs ↔ ∃ θ : Subst,
    (∀ v ∈ rigid, θ.lookup v = .var v) ∧ ∀ pair ∈ pairs, θ.apply pair.1 = θ.apply pair.2 :=
  ⟨Solvable.exists_subst, fun ⟨θ, hrigid, hequal⟩ => ⟨θ.lookup, hrigid, hequal⟩⟩

theorem Unifies.solvable {s' : Subst} (h : Unifies rigid pairs .empty s') :
    Solvable rigid pairs := by
  have hempty := Subst.idempotent_empty
  exact ⟨s'.lookup, fun v hv => h.lookup_of_mem_rigid hempty hv rfl, (h.sound hempty).2.2⟩

/-- What a run over some pairs has come up with is no obstacle to a solution of one more. -/
theorem Unifies.exists_unify_iff (h : Unifies rigid pairs .empty s) :
    (∃ s', unify rigid p r s = .ok s') ↔ Solvable rigid (pairs ++ [(p, r)]) := by
  have hempty := Subst.idempotent_empty
  constructor
  · rintro ⟨s', hs'⟩
    exact (h.append (Unifies.of_unify hs')).solvable
  · intro hsolvable
    obtain ⟨θ, hrigid, hequal⟩ := hsolvable.exists_subst
    have hstands := h.extends_of_equal hempty (fun t => by rw [Subst.apply_empty])
      fun pair hpair => hequal pair (List.mem_append_left _ hpair)
    exact exists_unify_eq_ok (h.sound hempty).1
      ⟨fun v hv => hrigid v hv.1, hstands, hequal (p, r) (by simp)⟩

end

theorem Ty.subst_rename (f : TyVar → Ty) (σ : TyVar → TyVar) (t : Ty) :
    (t.rename σ).subst f = t.subst (f ∘ σ) :=
  Ty.subst_subst _ f t

def renamePair (σ : TyVar → TyVar) (pair : Ty × Ty) : Ty × Ty :=
  (pair.1.rename σ, pair.2.rename σ)

theorem solvable_map_renamePair_iff {rigid : List TyVar} {pairs : List (Ty × Ty)}
    {σ : TyVar → TyVar} {W : Set TyVar} (hinj : W.InjOn σ) (hrigid : ∀ v ∈ rigid, v ∈ W ∧ σ v = v)
    (hpairs : ∀ pair ∈ pairs, ∀ v, v ∈ pair.1.vars ∨ v ∈ pair.2.vars → v ∈ W) :
    Solvable rigid (pairs.map (renamePair σ)) ↔ Solvable rigid pairs := by
  constructor
  · rintro ⟨f, hf, hequal⟩
    refine ⟨f ∘ σ, fun v hv => ?_, fun pair hpair => ?_⟩
    · rw [Function.comp_apply, (hrigid v hv).2, hf v hv]
    · rw [← Ty.subst_rename, ← Ty.subst_rename]
      exact hequal _ (List.mem_map_of_mem hpair)
  · rintro ⟨f, hf, hequal⟩
    have hback : ∀ v ∈ W, Function.invFunOn σ W (σ v) = v := hinj.leftInvOn_invFunOn
    have hundo : ∀ t : Ty, (∀ v ∈ t.vars, v ∈ W) →
        (t.rename σ).subst (f ∘ Function.invFunOn σ W) = t.subst f := by
      intro t ht
      rw [Ty.subst_rename]
      exact Ty.subst_congr fun v hv => congrArg f (hback v (ht v hv))
    refine ⟨f ∘ Function.invFunOn σ W, fun v hv => ?_, List.forall_mem_map.2 fun pair hpair => ?_⟩
    · have hv' := hback v (hrigid v hv).1
      rw [(hrigid v hv).2] at hv'
      rw [Function.comp_apply, hv', hf v hv]
    · rw [renamePair, hundo pair.1 fun v hv => hpairs pair hpair v (.inl hv),
        hundo pair.2 fun v hv => hpairs pair hpair v (.inr hv)]
      exact hequal pair hpair

end ConceptResolution
