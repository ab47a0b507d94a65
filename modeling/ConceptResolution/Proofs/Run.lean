import ConceptResolution.Proofs.Fresh
import ConceptResolution.Proofs.Unification
import ConceptResolution.Search.Inference

namespace ConceptResolution

open VarSupply

def Memory.IgnoresSupply (I : Memory → Prop) : Prop :=
  ∀ m supply, I m → I { m with supply }

namespace Search

variable {α β : Type} {I : Memory → Prop}

/-- Every run from a number of the supply keeps the invariant, takes no cycle back, has such a
result and gets to such a number. -/
def Ensures (I : Memory → Prop) (x : Search α) (n : Nat) (Q : α → Nat → Prop) : Prop :=
  ∀ m : Memory, I m → m.supply.next = n →
    I (x.run m).2 ∧ m.cycles ≤ (x.run m).2.cycles ∧ Q (x.run m).1 (x.run m).2.supply.next

theorem Ensures.mono {x : Search α} {n : Nat} {Q R : α → Nat → Prop} (h : Ensures I x n Q)
    (hQR : ∀ a k, Q a k → R a k) : Ensures I x n R :=
  fun m hI hm => (h m hI hm).imp_right (And.imp_right (hQR _ _))

theorem ensures_pure {a : α} {n : Nat} {Q : α → Nat → Prop} (h : Q a n) :
    Ensures I (pure a) n Q := by
  rintro m hI rfl
  exact ⟨hI, Nat.le_refl _, h⟩

theorem Ensures.bind {x : Search α} {f : α → Search β} {n : Nat} {Q : α → Nat → Prop}
    {R : β → Nat → Prop} (h : Ensures I x n Q) (hf : ∀ a k, Q a k → Ensures I (f a) k R) :
    Ensures I (x >>= f) n R := by
  intro m hI hm
  obtain ⟨hI', hcycles, hQ⟩ := h m hI hm
  obtain ⟨hI'', hcycles', hR⟩ := hf _ _ hQ (x.run m).2 hI' rfl
  exact ⟨hI'', Nat.le_trans hcycles hcycles', hR⟩

end Search

/-- A piece of evidence with its parameters renamed to variables that are new from one number of the
supply to another. -/
inductive Instantiated.Of (n n' : Nat) : Instantiated → Prop
  | given (p : Param) : Of n n' ⟨.given p, [], p.constraints, p.ty, fun _ => rfl⟩
  | declared (i : Instance) (ρ : TyVar → TyVar) (hnew : ∀ p ∈ i.params, New n n' (ρ p.var))
      (hinj : ∀ p ∈ i.params, ∀ q ∈ i.params, ρ p.var = ρ q.var → p.var = q.var) :
      Of n n' ⟨.declared i, i.params.map (Param.rename ρ), i.provides.map (Ty.rename ρ),
        i.ty.rename ρ, nofun⟩

theorem Instantiated.Of.mono {n n' m m' : Nat} {i : Instantiated} (h : i.Of n n') (hm : m ≤ n)
    (hm' : n' ≤ m') : i.Of m m' := by
  cases h with
  | given p => exact .given p
  | declared i ρ hnew hinj => exact .declared i ρ (fun p hp => (hnew p hp).mono hm hm') hinj

namespace Search

variable {I : Memory → Prop}

theorem ensures_instantiate (hI : Memory.IgnoresSupply I) (e : Evidence) (n : Nat) :
    Ensures I (instantiate e) n fun i n' => n ≤ n' ∧ i.source = e ∧ i.Of n n' := by
  rintro m hm rfl
  refine ⟨hI m _ hm, Nat.le_refl _, ?_⟩
  cases e with
  | given p => exact ⟨Nat.le_refl _, rfl, .given p⟩
  | declared i =>
      obtain ⟨ρ, hρ, hnew, hinj⟩ := Evidence.instantiate_declared i m.supply
      have hrun : (instantiate (.declared i)).run m =
          ((Evidence.declared i).instantiate m.supply |>.1,
            { m with supply := ((Evidence.declared i).instantiate m.supply).2 }) := rfl
      rw [hrun, hρ]
      exact ⟨Nat.le_add_right _ _, rfl, .declared i ρ hnew hinj⟩

theorem ensures_instantiateAll (hI : Memory.IgnoresSupply I) (es : List Evidence) (n : Nat) :
    Ensures I (instantiateAll es) n fun is n' =>
      n ≤ n' ∧ ∀ i ∈ is, i.source ∈ es ∧ i.Of n n' := by
  induction es generalizing n with
  | nil => exact ensures_pure ⟨Nat.le_refl n, by simp⟩
  | cons e es ih =>
      refine (ensures_instantiate hI e n).bind fun i k ⟨hk, hsource, hi⟩ => ?_
      refine (ih k).bind fun is k' ⟨hk', his⟩ => ensures_pure ⟨Nat.le_trans hk hk', ?_⟩
      refine List.forall_mem_cons.2 ⟨⟨?_, hi.mono (Nat.le_refl n) hk'⟩, fun j hj => ?_⟩
      · exact List.mem_cons.2 (.inl hsource)
      · exact ⟨List.mem_cons_of_mem e (his j hj).1, (his j hj).2.mono hk (Nat.le_refl k')⟩

theorem exists_of_mem_instantiateAll (es : List Evidence) (m : Memory) :
    ∃ n', ∀ i ∈ ((instantiateAll es).run m).1, i.source ∈ es ∧ i.Of m.supply.next n' := by
  have hkeep : Memory.IgnoresSupply fun _ => True := fun _ _ => id
  obtain ⟨-, -, -, his⟩ := ensures_instantiateAll hkeep es m.supply.next m trivial rfl
  exact ⟨_, his⟩

end Search

namespace Site

variable {site : Site} {I : Memory → Prop}

theorem unifies_of_foldlM_meet {provided required : List Ty} {s s' : Subst}
    (h : required.foldlM (site.meet provided) s = some s') :
    ∃ pairs : List (Ty × Ty), pairs.map Prod.snd = required ∧ (∀ pair ∈ pairs, pair.1 ∈ provided) ∧
      Unifies site.scope.bound pairs s s' := by
  induction required generalizing s with
  | nil =>
      cases h
      exact ⟨[], rfl, by simp, .done _⟩
  | cons c required ih =>
      rw [List.foldlM_cons] at h
      obtain ⟨s₁, hmeet, hrest⟩ := Option.bind_eq_some_iff.1 h
      obtain ⟨p, hp, hunify⟩ := List.exists_of_findSome?_eq_some hmeet
      obtain ⟨pairs, rfl, hpairs, hrun⟩ := ih hrest
      have hfirst : unify site.scope.bound p c s = .ok s₁ := by
        cases hu : unify site.scope.bound p c s with
        | error e => simp [hu, Except.toOption] at hunify
        | ok s₂ => simpa [hu, Except.toOption] using hunify
      exact ⟨(p, c) :: pairs, rfl, List.forall_mem_cons.2 ⟨hp, hpairs⟩,
        (Unifies.of_unify hfirst).append hrun⟩

variable (site)

/-- A candidate for some concepts as matching finds it: evidence in scope with new parameters, and a
substitution that unifies every concept with one that the evidence provides. -/
structure Candidate (required : List Ty) (n n' : Nat) (v : Viable) : Prop where
  source : v.candidate.source ∈ site.scope.evidence
  of : v.candidate.Of n n'
  ty : v.ty = v.subst.apply v.candidate.ty
  met : ∃ pairs : List (Ty × Ty), pairs.map Prod.snd = required ∧
    (∀ pair ∈ pairs, pair.1 ∈ site.model.expand v.candidate.provides) ∧
    Unifies site.scope.bound pairs .empty v.subst

variable {site}

theorem ensures_matching (hI : Memory.IgnoresSupply I) (required : List Ty) (n : Nat) :
    Search.Ensures I (site.matching required) n fun vs n' =>
      n ≤ n' ∧ ∀ v ∈ vs, site.Candidate required n n' v := by
  refine (Search.ensures_instantiateAll hI site.scope.evidence n).bind fun is n' ⟨hn, his⟩ =>
    Search.ensures_pure ⟨hn, fun v hv => ?_⟩
  obtain ⟨i, hi, hv⟩ := List.mem_filterMap.1 hv
  obtain ⟨s, hs, rfl⟩ := Option.map_eq_some_iff.1 hv
  exact ⟨(his i hi).1, (his i hi).2, rfl, unifies_of_foldlM_meet hs⟩

theorem exists_candidate_of_mem_matching {required : List Ty} {m : Memory} {v : Viable}
    (h : v ∈ ((site.matching required).run m).1) :
    ∃ n', site.Candidate required m.supply.next n' v := by
  have hkeep : Memory.IgnoresSupply fun _ => True := fun _ _ => id
  obtain ⟨-, -, -, hvs⟩ := ensures_matching hkeep required m.supply.next m trivial rfl
  exact ⟨_, hvs v h⟩

theorem ensures_anyProvides (hI : Memory.IgnoresSupply I) (concept : Ty) (es : List Evidence)
    (n : Nat) : Search.Ensures I (site.anyProvides concept es) n fun _ n' => n ≤ n' := by
  induction es generalizing n with
  | nil => exact Search.ensures_pure (Nat.le_refl n)
  | cons e es ih =>
      refine (Search.ensures_instantiate hI e n).bind fun i k ⟨hk, _⟩ => ?_
      split
      · exact Search.ensures_pure hk
      · exact (ih k).mono fun _ n' hn => Nat.le_trans hk hn

theorem ensures_unprovided? (hI : Memory.IgnoresSupply I) (concepts : List Ty) (n : Nat) :
    Search.Ensures I (site.unprovided? concepts) n fun _ n' => n ≤ n' := by
  induction concepts generalizing n with
  | nil => exact Search.ensures_pure (Nat.le_refl n)
  | cons c cs ih =>
      refine (ensures_anyProvides hI c site.scope.evidence n).bind fun b k hk => ?_
      split
      · exact (ih k).mono fun _ n' hn => Nat.le_trans hk hn
      · exact Search.ensures_pure hk

end Site

end ConceptResolution
