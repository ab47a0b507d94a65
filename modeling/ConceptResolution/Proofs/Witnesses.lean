import ConceptResolution.Proofs.Derivation
import ConceptResolution.Proofs.Run

namespace ConceptResolution

open VarSupply

def IsWitnessVar (params : List Param) (v : TyVar) : Prop :=
  ∃ p ∈ params, p.isWitness = true ∧ p.var = v

namespace Site

variable (site : Site)

/-- The variables that the answer to a requirement may speak of: those of the requirement, those
bound in the scope, and new ones. -/
def Known (required : List Ty) (n n' : Nat) (v : TyVar) : Prop :=
  (∃ c ∈ required, v ∈ c.vars) ∨ v ∈ site.scope.bound ∨ New n n' v

/-- A requirement that respects the declared arities, in a hierarchy without endless branches. -/
def Fit (required : List Ty) : Prop :=
  site.model.Finitary ∧ ∀ c ∈ required, site.model.fits c = true

/-- An answer to a requirement. -/
structure Resolved (required : List Ty) (n n' : Nat) (v : Viable) : Prop where
  source : v.candidate.source ∈ site.scope.evidence
  of : v.candidate.Of n n'
  idempotent : v.subst.Idempotent
  occurs : ∀ x, v.subst.Occurs x → site.Known required n n' x
  rigid : ∀ x ∈ site.scope.bound, v.subst.lookup x = .var x
  vars_ty : ∀ x ∈ v.ty.vars, site.Known required n n' x
  evidence : site.IsEvidence v.ty
  fits : site.Fit required → ∀ x, Old n x → site.model.fits (v.subst.lookup x) = true
  backs : site.Fit required → ∀ c ∈ required, site.Backs v.ty (v.subst.apply c)

/-- The parameters of a call before inference. The variables in `A` are known so far. Witnesses
stand for themselves, and no constraint mentions them. What is said about arities is said under the
premise `F`. -/
structure Frame (F : Prop) (params : List Param) (A : TyVar → Prop) (n : Nat) : Prop where
  old : ∀ x, A x → Old n x
  bound : ∀ x ∈ site.scope.bound, A x
  param : ∀ p ∈ params, A p.var
  free : ∀ p ∈ params, p.isWitness = true → p.var ∉ site.scope.bound
  constraint : ∀ p ∈ params, p.isWitness = true → ∀ c ∈ p.constraints, ∀ x ∈ c.vars,
    A x ∧ ¬IsWitnessVar params x
  fit : F → site.model.Finitary ∧
    ∀ p ∈ params, p.isWitness = true → ∀ c ∈ p.constraints, site.model.fits c = true

/-- A substitution that has solved the witnesses of a call that are not pending. A pending one is
untouched, unless it shares its name with one that is solved. -/
structure Solves (F : Prop) (params : List Param) (A : TyVar → Prop) (n : Nat) (seed : Subst)
    (pending : List Param) (s : Subst) (k : Nat) : Prop where
  le : n ≤ k
  idempotent : s.Idempotent
  occurs : ∀ x, s.Occurs x → A x ∨ New n k x
  rigid : ∀ x ∈ site.scope.bound, s.lookup x = .var x
  extends_seed : s.Extends seed
  sublist : pending.Sublist params
  witness : ∀ p ∈ pending, p.isWitness = true
  untouched : ∀ p ∈ pending, ¬s.Occurs p.var ∨
    ¬(params.map Param.var).Nodup ∧ site.IsEvidence (s.lookup p.var)
  solved : ∀ p ∈ params, p.isWitness = true → p ∈ pending ∨ site.IsEvidence (s.lookup p.var)
  fits : F → ∀ x, A x → ¬IsWitnessVar params x → site.model.fits (s.lookup x) = true
  backs : F → (params.map Param.var).Nodup → ∀ p ∈ params, p.isWitness = true →
    p ∈ pending ∨ ∀ c ∈ p.constraints, site.Backs (s.lookup p.var) (s.apply c)

variable {site}

theorem Known.mono {required : List Ty} {n n' m m' : Nat} {x : TyVar}
    (h : site.Known required n n' x) (hm : m ≤ n) (hm' : n' ≤ m') : site.Known required m m' x :=
  h.imp_right (Or.imp_right fun hx => hx.mono hm hm')

theorem Resolved.mono {required : List Ty} {n k k' : Nat} {v : Viable}
    (h : site.Resolved required n k v) (hk : k ≤ k') : site.Resolved required n k' v where
  source := h.source
  of := h.of.mono (Nat.le_refl n) hk
  idempotent := h.idempotent
  occurs x hx := (h.occurs x hx).mono (Nat.le_refl n) hk
  rigid := h.rigid
  vars_ty x hx := (h.vars_ty x hx).mono (Nat.le_refl n) hk
  evidence := h.evidence
  fits := h.fits
  backs := h.backs

section Requirement

variable {F : Prop} {params : List Param} {A : TyVar → Prop} {n k : Nat} {seed s : Subst}
  {pending : List Param} {p : Param}

theorem exists_of_mem_required {c : Ty} (h : c ∈ site.model.required p s) :
    ∃ d ∈ p.constraints, c = s.apply d := by
  have hmem := List.mem_eraseDups.1 (ConceptModel.subset_of_mem_coverFrom h)
  obtain ⟨d, hd, rfl⟩ := List.mem_map.1 hmem
  exact ⟨d, hd, rfl⟩

theorem exists_required_reaches (hfinite : site.model.Finitary) {c : Ty} (hc : c ∈ p.constraints) :
    ∃ d ∈ site.model.required p s, site.model.Reaches d (s.apply c) :=
  hfinite.exists_reaches_of_mem (List.mem_eraseDups.2 (List.mem_map_of_mem hc))

theorem Solves.old_of_occurs (h : site.Solves F params A n seed pending s k)
    (hframe : site.Frame F params A n) {x : TyVar} (hx : s.Occurs x) : Old k x := by
  rcases h.occurs x hx with hA | hnew
  · exact (hframe.old x hA).mono h.le
  · exact hnew.old

theorem Solves.mem_vars_required (h : site.Solves F params A n seed pending s k)
    (hframe : site.Frame F params A n) (hp : p ∈ params) (hwitness : p.isWitness = true) {c : Ty}
    (hc : c ∈ site.model.required p s) {x : TyVar} (hx : x ∈ c.vars) :
    (A x ∨ New n k x) ∧ s.lookup x = .var x ∧ (IsWitnessVar params x → s.Occurs x) := by
  obtain ⟨d, hd, rfl⟩ := exists_of_mem_required hc
  refine ⟨?_, h.idempotent.lookup_of_mem_vars_apply hx, fun hw => ?_⟩
  · rcases Subst.mem_vars_or_occurs_of_mem_vars_apply hx with hx | hx
    · exact .inl (hframe.constraint p hp hwitness d hd x hx).1
    · exact h.occurs x hx
  · rcases Subst.mem_vars_or_occurs_of_mem_vars_apply hx with hx | hx
    · exact absurd hw (hframe.constraint p hp hwitness d hd x hx).2
    · exact hx

theorem Solves.old_of_mem_vars_required (h : site.Solves F params A n seed pending s k)
    (hframe : site.Frame F params A n) (hp : p ∈ params) (hwitness : p.isWitness = true) {c : Ty}
    (hc : c ∈ site.model.required p s) {x : TyVar} (hx : x ∈ c.vars) : Old k x := by
  rcases (h.mem_vars_required hframe hp hwitness hc hx).1 with hA | hnew
  · exact (hframe.old x hA).mono h.le
  · exact hnew.old

theorem Solves.fit_required (h : site.Solves F params A n seed pending s k)
    (hframe : site.Frame F params A n) (hp : p ∈ params) (hwitness : p.isWitness = true) (hF : F) :
    site.Fit (site.model.required p s) := by
  obtain ⟨hfinite, hfits⟩ := hframe.fit hF
  refine ⟨hfinite, fun c hc => ?_⟩
  obtain ⟨d, hd, rfl⟩ := exists_of_mem_required hc
  refine ConceptModel.fits_subst_iff.2 ⟨hfits p hp hwitness d hd, fun x hx => ?_⟩
  obtain ⟨hA, hnot⟩ := hframe.constraint p hp hwitness d hd x hx
  exact h.fits hF x hA hnot

end Requirement

section Found

variable {F : Prop} {params before after : List Param} {A : TyVar → Prop} {n k k' : Nat}
  {seed s : Subst} {p : Param} {v : Viable}

theorem withWitness_of_not_occurs (hopen : ¬s.Occurs p.var) :
    s.withWitness p v = v.subst.compose ((Subst.single p.var v.ty).compose s) := by
  have hget : s.get? p.var = none := Subst.get?_eq_none_iff.2 fun hp => hopen (.inl hp)
  rw [Subst.withWitness, hget]

theorem Solves.lookup_of_known (h : site.Solves F params A n seed (before ++ p :: after) s k)
    (hframe : site.Frame F params A n) (hopen : ¬s.Occurs p.var) {x : TyVar}
    (hx : site.Known (site.model.required p s) k k' x) : s.lookup x = .var x ∧ x ≠ p.var := by
  have hp : p ∈ params := h.sublist.subset (by simp)
  have hwitness := h.witness p (by simp)
  rcases hx with ⟨c, hc, hx⟩ | hbound | hnew
  · obtain ⟨-, hlookup, hoccurs⟩ := h.mem_vars_required hframe hp hwitness hc hx
    refine ⟨hlookup, ?_⟩
    rintro rfl
    exact hopen (hoccurs ⟨p, hp, hwitness, rfl⟩)
  · refine ⟨h.rigid x hbound, ?_⟩
    rintro rfl
    exact hframe.free p hp hwitness hbound
  · refine ⟨Subst.lookup_of_not_occurs fun hx => (h.old_of_occurs hframe hx).not_new hnew, ?_⟩
    rintro rfl
    exact ((hframe.old p.var (hframe.param p hp)).mono h.le).not_new hnew

/-- To add a witness is to substitute it for its parameter, and then what was found on the way. -/
theorem Solves.withWitness (h : site.Solves F params A n seed (before ++ p :: after) s k)
    (hframe : site.Frame F params A n) (hopen : ¬s.Occurs p.var)
    (hv : site.Resolved (site.model.required p s) k k' v) :
    (s.withWitness p v).Idempotent ∧ (s.withWitness p v).Extends s ∧
      ∀ t, (s.withWitness p v).apply t =
        v.subst.apply ((Subst.single p.var v.ty).apply (s.apply t)) := by
  have hknown : ∀ x, site.Known (site.model.required p s) k k' x → s.lookup x = .var x ∧
      x ≠ p.var := fun x hx => h.lookup_of_known hframe hopen hx
  have hnot : p.var ∉ v.ty.vars := fun hp => (hknown p.var (hv.vars_ty p.var hp)).2 rfl
  have hsingle := Subst.idempotent_single hnot
  have hfix : (Subst.single p.var v.ty).Untouched s := by
    intro x hx
    rcases Subst.occurs_single_iff.1 hx with rfl | hx
    · exact Subst.lookup_of_not_occurs hopen
    · exact (hknown x (hv.vars_ty x hx)).1
  have hidem := Subst.idempotent_compose hsingle h.idempotent hfix
  have hfix' : v.subst.Untouched ((Subst.single p.var v.ty).compose s) := by
    intro x hx
    obtain ⟨hlookup, hne⟩ := hknown x (hv.occurs x hx)
    rw [Subst.lookup_compose hsingle h.idempotent hfix, hlookup]
    exact Subst.lookup_single_of_ne v.ty hne
  rw [withWitness_of_not_occurs hopen]
  refine ⟨Subst.idempotent_compose hv.idempotent hidem hfix', ?_, fun t => ?_⟩
  · exact (Subst.extends_compose hv.idempotent hidem hfix').trans
      (Subst.extends_compose hsingle h.idempotent hfix)
  · rw [Subst.apply_compose hv.idempotent hidem hfix',
      Subst.apply_compose hsingle h.idempotent hfix]

theorem Solves.exists_apply_withWitness
    (h : site.Solves F params A n seed (before ++ p :: after) s k)
    (hframe : site.Frame F params A n) (hopen : ¬s.Occurs p.var)
    (hv : site.Resolved (site.model.required p s) k k' v) :
    ∃ f : TyVar → Ty, (∀ x ∈ site.scope.bound, f x = .var x) ∧
      ∀ t, (s.withWitness p v).apply t = (s.apply t).subst f := by
  obtain ⟨-, -, happly⟩ := h.withWitness hframe hopen hv
  refine ⟨fun x => v.subst.apply ((Subst.single p.var v.ty).lookup x), fun x hx => ?_, fun t => ?_⟩
  · have hknown : site.Known (site.model.required p s) k k' x := .inr (.inl hx)
    have hne := (h.lookup_of_known hframe hopen hknown).2
    simp only [Subst.lookup_single_of_ne v.ty hne]
    exact hv.rigid x hx
  · exact (happly t).trans (Subst.apply_apply v.subst (Subst.single p.var v.ty) (s.apply t))

theorem Solves.lookup_withWitness (h : site.Solves F params A n seed (before ++ p :: after) s k)
    (hframe : site.Frame F params A n) (hopen : ¬s.Occurs p.var)
    (hv : site.Resolved (site.model.required p s) k k' v) :
    (s.withWitness p v).lookup p.var = v.subst.apply v.ty := by
  obtain ⟨-, -, happly⟩ := h.withWitness hframe hopen hv
  have hp := happly (.var p.var)
  rwa [Subst.apply_var, Subst.apply_var, Subst.lookup_of_not_occurs hopen, Subst.apply_var,
    Subst.lookup_single, if_pos rfl] at hp

theorem Solves.apply_withWitness (h : site.Solves F params A n seed (before ++ p :: after) s k)
    (hframe : site.Frame F params A n) (hopen : ¬s.Occurs p.var)
    (hv : site.Resolved (site.model.required p s) k k' v) {t : Ty} (ht : p.var ∉ t.vars) :
    (s.withWitness p v).apply t = v.subst.apply (s.apply t) := by
  obtain ⟨-, -, happly⟩ := h.withWitness hframe hopen hv
  rw [happly, Subst.apply_single_of_notMem]
  intro hp
  exact (Subst.mem_vars_or_occurs_of_mem_vars_apply hp).elim ht hopen

theorem occurs_withWitness (hopen : ¬s.Occurs p.var)
    (hv : site.Resolved (site.model.required p s) k k' v) {x : TyVar}
    (hx : (s.withWitness p v).Occurs x) :
    x = p.var ∨ s.Occurs x ∨ site.Known (site.model.required p s) k k' x := by
  rw [withWitness_of_not_occurs hopen] at hx
  rcases hx.of_compose with hx | hx
  · exact .inr (.inr (hv.occurs x hx))
  · rcases hx.of_compose with hx | hx
    · exact (Subst.occurs_single_iff.1 hx).imp_right fun hx => .inr (hv.vars_ty x hx)
    · exact .inr (.inl hx)

theorem Solves.known_required (h : site.Solves F params A n seed (before ++ p :: after) s k)
    (hframe : site.Frame F params A n) {x : TyVar}
    (hx : site.Known (site.model.required p s) k k' x) : A x ∨ New n k x ∨ New k k' x := by
  rcases hx with ⟨c, hc, hx⟩ | hbound | hnew
  · rcases (h.mem_vars_required hframe (h.sublist.subset (by simp)) (h.witness p (by simp)) hc
      hx).1 with hA | hnew
    · exact .inl hA
    · exact .inr (.inl hnew)
  · exact .inl (hframe.bound x hbound)
  · exact .inr (.inr hnew)

theorem Solves.not_occurs_withWitness
    (h : site.Solves F params A n seed (before ++ p :: after) s k)
    (hframe : site.Frame F params A n) (hopen : ¬s.Occurs p.var)
    (hv : site.Resolved (site.model.required p s) k k' v) {q : Param} (hq : q ∈ params)
    (hwitness : q.isWitness = true) (hne : q.var ≠ p.var) (hqopen : ¬s.Occurs q.var) :
    ¬(s.withWitness p v).Occurs q.var := by
  intro hx
  rcases occurs_withWitness hopen hv hx with heq | hx | hx
  · exact hne heq
  · exact hqopen hx
  · rcases hx with ⟨c, hc, hx⟩ | hbound | hnew
    · exact hqopen ((h.mem_vars_required hframe (h.sublist.subset (by simp))
        (h.witness p (by simp)) hc hx).2.2 ⟨q, hq, hwitness, rfl⟩)
    · exact hframe.free q hq hwitness hbound
    · exact ((hframe.old q.var (hframe.param q hq)).mono h.le).not_new hnew

theorem Solves.fits_withWitness (h : site.Solves F params A n seed (before ++ p :: after) s k)
    (hframe : site.Frame F params A n) (hopen : ¬s.Occurs p.var)
    (hv : site.Resolved (site.model.required p s) k k' v) (hF : F) {x : TyVar} (hx : A x)
    (hnot : ¬IsWitnessVar params x) :
    site.model.fits ((s.withWitness p v).lookup x) = true := by
  have hp : p ∈ params := h.sublist.subset (by simp)
  have hwitness := h.witness p (by simp)
  have hxp : p.var ∉ (Ty.var x).vars := by
    rw [Ty.vars, List.mem_singleton]
    rintro rfl
    exact hnot ⟨p, hp, hwitness, rfl⟩
  have happly := h.apply_withWitness hframe hopen hv hxp
  rw [Subst.apply_var, Subst.apply_var] at happly
  rw [happly]
  refine ConceptModel.fits_subst_iff.2 ⟨h.fits hF x hx hnot, fun y hy => ?_⟩
  refine hv.fits (h.fit_required hframe hp hwitness hF) y ?_
  rcases Subst.eq_or_occurs_of_mem_vars_lookup hy with rfl | hy
  · exact (hframe.old y hx).mono h.le
  · exact h.old_of_occurs hframe hy

/-- The witness that is found meets all constraints on its parameter, those left out of the
requirement included. -/
theorem Solves.backs_withWitness (h : site.Solves F params A n seed (before ++ p :: after) s k)
    (hsite : site.WellScoped) (hframe : site.Frame F params A n) (hopen : ¬s.Occurs p.var)
    (hv : site.Resolved (site.model.required p s) k k' v) (hF : F) {c : Ty}
    (hc : c ∈ p.constraints) :
    site.Backs ((s.withWitness p v).lookup p.var) ((s.withWitness p v).apply c) := by
  have hp : p ∈ params := h.sublist.subset (by simp)
  have hwitness := h.witness p (by simp)
  have hfit := h.fit_required hframe hp hwitness hF
  have hcp : p.var ∉ c.vars := fun hx =>
    (hframe.constraint p hp hwitness c hc p.var hx).2 ⟨p, hp, hwitness, rfl⟩
  obtain ⟨d, hd, hreach⟩ := exists_required_reaches (s := s) hfit.1 hc
  have hfits : site.model.fits (v.subst.apply d) = true :=
    ConceptModel.fits_subst_iff.2 ⟨hfit.2 d hd, fun x hx =>
      hv.fits hfit x (h.old_of_mem_vars_required hframe hp hwitness hd hx)⟩
  have hbacks : site.Backs v.ty (v.subst.apply (s.apply c)) :=
    (hv.backs hfit d hd).of_reaches hfit.1 hsite.closed hfits
      (hsite.closed.reaches_subst (hfit.2 d hd) hreach v.subst.lookup)
  have hsubst := hbacks.subst (f := v.subst.lookup) hv.rigid
  rw [h.lookup_withWitness hframe hopen hv, h.apply_withWitness hframe hopen hv hcp]
  exact hv.idempotent (s.apply c) ▸ hsubst

theorem Solves.found (h : site.Solves F params A n seed (before ++ p :: after) s k)
    (hsite : site.WellScoped) (hframe : site.Frame F params A n) (hopen : ¬s.Occurs p.var)
    (hv : site.Resolved (site.model.required p s) k k' v) (hk : k ≤ k') :
    site.Solves F params A n seed (before ++ after) (s.withWitness p v) k' := by
  obtain ⟨hidem, hext, -⟩ := h.withWitness hframe hopen hv
  obtain ⟨f, hf, happly⟩ := h.exists_apply_withWitness hframe hopen hv
  have hlookup : ∀ x, (s.withWitness p v).lookup x = (s.lookup x).subst f :=
    fun x => happly (.var x)
  have hfound : site.IsEvidence ((s.withWitness p v).lookup p.var) := by
    rw [h.lookup_withWitness hframe hopen hv]
    exact hv.evidence.subst hsite hv.rigid
  have hkeep : ∀ q : Param, site.IsEvidence (s.lookup q.var) →
      site.IsEvidence ((s.withWitness p v).lookup q.var) := by
    intro q hq
    rw [hlookup]
    exact hq.subst hsite hf
  have hsub : (before ++ after).Sublist (before ++ p :: after) :=
    (List.Sublist.refl before).append (List.sublist_cons_self p after)
  have hmem : ∀ q ∈ before ++ p :: after, q = p ∨ q ∈ before ++ after := by
    intro q hq
    simp only [List.mem_append, List.mem_cons] at hq ⊢
    tauto
  refine ⟨h.le.trans hk, hidem, ?_, ?_, hext.trans h.extends_seed, hsub.trans h.sublist,
    fun q hq => h.witness q (hsub.subset hq), ?_, ?_, ?_, ?_⟩
  · intro x hx
    rcases occurs_withWitness hopen hv hx with rfl | hx | hx
    · exact .inl (hframe.param p (h.sublist.subset (by simp)))
    · exact (h.occurs x hx).imp_right fun hx => hx.mono (Nat.le_refl n) hk
    · rcases h.known_required hframe hx with hA | hnew | hnew
      · exact .inl hA
      · exact .inr (hnew.mono (Nat.le_refl n) hk)
      · exact .inr (hnew.mono h.le (Nat.le_refl k'))
  · intro x hx
    rw [hlookup, h.rigid x hx]
    exact hf x hx
  · intro q hq
    have hqparams := h.sublist.subset (hsub.subset hq)
    have hwitness := h.witness q (hsub.subset hq)
    rcases h.untouched q (hsub.subset hq) with hqopen | ⟨hdup, hevidence⟩
    · rcases Decidable.em (q.var = p.var) with heq | hne
      · refine .inr ⟨fun hnodup => ?_, heq ▸ hfound⟩
        have hpending := hnodup.sublist (h.sublist.map Param.var)
        rw [List.map_append, List.map_cons, List.nodup_middle, List.nodup_cons,
          ← List.map_append] at hpending
        exact hpending.1 (List.mem_map.2 ⟨q, hq, heq⟩)
      · exact .inl (h.not_occurs_withWitness hframe hopen hv hqparams hwitness hne hqopen)
    · exact .inr ⟨hdup, hkeep q hevidence⟩
  · intro q hq hwitness
    rcases h.solved q hq hwitness with hpending | hevidence
    · rcases hmem q hpending with rfl | hpending
      · exact .inr hfound
      · exact .inl hpending
    · exact .inr (hkeep q hevidence)
  · intro hF x hx hnot
    exact h.fits_withWitness hframe hopen hv hF hx hnot
  · intro hF hnodup q hq hwitness
    rcases h.backs hF hnodup q hq hwitness with hpending | hbacks
    · rcases hmem q hpending with rfl | hpending
      · exact .inr fun c hc => h.backs_withWitness hsite hframe hopen hv hF hc
      · exact .inl hpending
    · refine .inr fun c hc => ?_
      rw [hlookup, happly]
      exact (hbacks c hc).subst hf

end Found

section NotFound

variable {F : Prop} {params before after pending : List Param} {A : TyVar → Prop} {n k k' : Nat}
  {seed s : Subst} {p : Param}

theorem Solves.mono (h : site.Solves F params A n seed pending s k) (hk : k ≤ k') :
    site.Solves F params A n seed pending s k' :=
  { h with
    le := h.le.trans hk
    occurs := fun x hx => (h.occurs x hx).imp_right fun hnew => hnew.mono (Nat.le_refl n) hk }

/-- Only a witness that shares its name with another one is fixed before it has been solved. -/
theorem Solves.skip (h : site.Solves F params A n seed (before ++ p :: after) s k)
    (hfixed : site.scope.isFixed (s.get? p.var) = true) :
    site.Solves F params A n seed (before ++ after) s k := by
  have hdup : ¬(params.map Param.var).Nodup ∧ site.IsEvidence (s.lookup p.var) := by
    refine (h.untouched p (by simp)).resolve_left fun hopen => ?_
    have hget : s.get? p.var = none := Subst.get?_eq_none_iff.2 fun hp => hopen (.inl hp)
    rw [hget] at hfixed
    cases hfixed
  have hsub : (before ++ after).Sublist (before ++ p :: after) :=
    (List.Sublist.refl before).append (List.sublist_cons_self p after)
  refine { h with
    sublist := hsub.trans h.sublist
    witness := fun q hq => h.witness q (hsub.subset hq)
    untouched := fun q hq => h.untouched q (hsub.subset hq)
    solved := fun q hq hwitness => ?_
    backs := fun _ hnodup => absurd hnodup hdup.1 }
  refine (h.solved q hq hwitness).elim (fun hpending => ?_) .inr
  simp only [List.mem_append, List.mem_cons] at hpending ⊢
  rcases hpending with hbefore | rfl | hafter
  · exact .inl (.inl hbefore)
  · exact .inr hdup.2
  · exact .inl (.inr hafter)

end NotFound

end Site

end ConceptResolution
