import ConceptResolution.Proofs.Levels

namespace ConceptResolution

/-- A substitution that makes two types equal, with everything that `s` has decided standing under
it and the fixed variables left alone. -/
structure Unifier (fixed : TyVar → Prop) (provided required : Ty) (s θ : Subst) : Prop where
  fixes : ∀ v, fixed v → θ.lookup v = .var v
  stands : θ.Extends s
  equal : θ.apply provided = θ.apply required

namespace Subst

theorem extends_single {θ : Subst} {v : TyVar} {t : Ty} (h : θ.lookup v = θ.apply t) :
    θ.Extends (single v t) := by
  intro u
  rw [apply_apply]
  refine Ty.subst_congr fun w _ => ?_
  rw [lookup_single]
  split
  · next hw => rw [hw, h]
  · exact apply_var θ w

theorem Extends.compose {θ outer inner : Subst} (h : θ.Extends outer) (h' : θ.Extends inner)
    (houter : outer.Idempotent) (hinner : inner.Idempotent) (hfix : outer.Untouched inner) :
    θ.Extends (outer.compose inner) := by
  intro t
  rw [apply_compose houter hinner hfix, h, h']

end Subst

namespace Unifies

variable {rigid : List TyVar} {pairs : List (Ty × Ty)} {s s' : Subst}

/-- A run commits itself to nothing that its pairs do not force. -/
theorem extends_of_equal (h : Unifies rigid pairs s s') (hs : s.Idempotent) {θ : Subst}
    (hθ : θ.Extends s) (hequal : ∀ pair ∈ pairs, θ.apply pair.1 = θ.apply pair.2) :
    θ.Extends s' := by
  induction h with
  | done s => exact hθ
  | same _ _ ih => exact ih hs hθ (List.forall_mem_cons.1 hequal).2
  | @bind p r t v rest s s' h _ hoccurs _ ih =>
      obtain ⟨hhead, hrest⟩ := List.forall_mem_cons.1 hequal
      have hsingle := Subst.idempotent_single hoccurs
      have hfix := untouched_of_bind hs h
      have hlookup : θ.lookup v = θ.apply t := by
        rw [← hθ p, ← hθ r] at hhead
        rcases h with ⟨hp, hr⟩ | ⟨hp, hr⟩
        · rwa [hp, hr] at hhead
        · rw [hp, hr] at hhead
          exact hhead.symm
      exact ih (Subst.idempotent_compose hsingle hs hfix)
        ((Subst.extends_single hlookup).compose hθ hsingle hs hfix) hrest
  | @parts p r pairs rest s s' h _ ih =>
      obtain ⟨hhead, hrest⟩ := List.forall_mem_cons.1 hequal
      rw [← hθ p, ← hθ r] at hhead
      refine ih hs hθ fun pair hpair => ?_
      rcases List.mem_append.1 hpair with hpair | hpair
      · exact (subst_eq_iff_of_partsOf h θ.lookup).1 hhead pair hpair
      · exact hrest pair hpair

theorem lookup_of_mem_rigid (h : Unifies rigid pairs s s') (hs : s.Idempotent) {v : TyVar}
    (hv : v ∈ rigid) (hopen : s.lookup v = .var v) : s'.lookup v = .var v := by
  induction h with
  | done s => exact hopen
  | same _ _ ih => exact ih hs hopen
  | bind h hrigid hoccurs _ ih =>
      have hsingle := Subst.idempotent_single hoccurs
      have hfix := untouched_of_bind hs h
      refine ih (Subst.idempotent_compose hsingle hs hfix) ?_
      rw [Subst.lookup_compose hsingle hs hfix, hopen, Subst.apply_var]
      refine Subst.lookup_single_of_ne _ ?_
      rintro rfl
      exact hrigid hv
  | parts _ _ ih => exact ih hs hopen

end Unifies

namespace Ty

theorem exists_eq_var_of_subst_eq_var {f : TyVar → Ty} {t : Ty} {v : TyVar}
    (h : t.subst f = .var v) : ∃ w, t = .var w := by
  cases t with
  | var w => exact ⟨w, rfl⟩
  | _ => simp [subst] at h

private theorem height_le_heightAll_subst {f : TyVar → Ty} {v : TyVar} {ts : List Ty}
    (h : ∀ t ∈ ts, v ∈ t.vars → t ≠ .var v → (f v).height < (t.subst f).height)
    (hv : v ∈ varsAll ts) : (f v).height ≤ heightAll (ts.map (subst f)) := by
  obtain ⟨t, ht, hv⟩ := mem_varsAll_iff.1 hv
  refine Nat.le_trans ?_ (height_le_heightAll (List.mem_map_of_mem ht))
  rcases Decidable.em (t = .var v) with rfl | hne
  · exact Nat.le_refl _
  · exact (h t ht hv hne).le

theorem height_lt_height_subst {f : TyVar → Ty} {v : TyVar} {t : Ty} (hv : v ∈ t.vars)
    (ht : t ≠ .var v) : (f v).height < (t.subst f).height := by
  induction t with
  | const name => simp [vars] at hv
  | var w => exact absurd (by simpa [vars, eq_comm] using hv) ht
  | fn params result hparams hresult =>
      simp only [subst, substAll_eq_map, height]
      rcases List.mem_append.1 hv with hv | hv
      · have hall := height_le_heightAll_subst hparams hv
        omega
      · have hall : (f v).height ≤ heightAll ([result].map (subst f)) :=
          height_le_heightAll_subst (by simpa using hresult) (by simpa [varsAll] using hv)
        simp only [List.map_cons, List.map_nil, heightAll] at hall
        omega
  | app head args hargs =>
      simp only [subst, substAll_eq_map, height]
      exact Nat.lt_succ_of_le (height_le_heightAll_subst hargs hv)
  | tuple elems helems =>
      simp only [subst, substAll_eq_map, height]
      exact Nat.lt_succ_of_le (height_le_heightAll_subst helems hv)

end Ty

section Failure

variable {rigid : List TyVar} {s θ : Subst}

theorem bindVar_eq_error {v : TyVar} {t : Ty} {e : UnifyError}
    (h : bindVar rigid v t s = .error e) : t ≠ .var v ∧ (v ∈ rigid ∨ v ∈ t.vars) := by
  unfold bindVar at h
  split at h
  · cases h
  · next ht =>
    refine ⟨ht, ?_⟩
    split at h
    · next hv => exact .inl hv
    · split at h
      · next hv => exact .inr (Ty.mentions_iff.1 hv)
      · cases h

theorem lookup_ne_of_error {v : TyVar} {t : Ty} {e : UnifyError}
    (h : bindVar rigid v t s = .error e) (hfixes : v ∈ rigid → θ.lookup v = .var v)
    (ht : ∀ w, t ≠ .var w) : θ.lookup v ≠ θ.apply t := by
  intro hequal
  obtain ⟨hne, hv | hv⟩ := bindVar_eq_error h
  · rw [hfixes hv] at hequal
    obtain ⟨w, hw⟩ := Ty.exists_eq_var_of_subst_eq_var hequal.symm
    exact ht w hw
  · exact absurd (congrArg Ty.height hequal) (Ty.height_lt_height_subst hv hne).ne

theorem bindVars_ne_of_error {v w : TyVar} {e : UnifyError}
    (h : bindVars rigid v w s = .error e) : v ≠ w ∧ v ∈ rigid ∧ w ∈ rigid := by
  have hopen : ∀ {x y : TyVar}, x ∉ rigid → bindVar rigid x (.var y) s ≠ .error e := by
    intro x y hx herror
    obtain ⟨hne, hrigid | hoccurs⟩ := bindVar_eq_error herror
    · exact hx hrigid
    · exact hne (by rw [show x = y by simpa [Ty.vars] using hoccurs])
  unfold bindVars at h
  split at h
  · cases h
  · next hvw =>
    split at h
    · next hv => exact absurd h (hopen hv)
    · next hv =>
      split at h
      · next hw => exact absurd h (hopen hw)
      · next hw => exact ⟨hvw, Decidable.not_not.1 hv, Decidable.not_not.1 hw⟩

theorem exists_partsOf_of_subst_eq {t u : Ty} {f : TyVar → Ty} (h : t.subst f = u.subst f)
    (ht : ∀ v, t ≠ .var v) (hu : ∀ v, u ≠ .var v) : ∃ pairs, partsOf t u = .ok pairs := by
  have hlength : ∀ {ts us : List Ty}, ts.map (Ty.subst f) = us.map (Ty.subst f) →
      ¬ts.length ≠ us.length := by
    intro ts us heq hne
    exact hne (by simpa using congrArg List.length heq)
  cases t with
  | var v => exact absurd rfl (ht v)
  | const a =>
      cases u with
      | const b =>
          obtain rfl : a = b := by simpa [Ty.subst] using h
          exact ⟨_, if_pos rfl⟩
      | var v => exact absurd rfl (hu v)
      | _ => simp [Ty.subst] at h
  | fn ps p =>
      cases u with
      | fn qs q =>
          simp only [Ty.subst, Ty.substAll_eq_map, Ty.fn.injEq] at h
          exact ⟨_, if_neg (hlength h.1)⟩
      | var v => exact absurd rfl (hu v)
      | _ => simp [Ty.subst] at h
  | app a ts =>
      cases u with
      | app b us =>
          simp only [Ty.subst, Ty.substAll_eq_map, Ty.app.injEq] at h
          obtain ⟨rfl, hargs⟩ := h
          exact ⟨_, (if_neg (not_not.2 rfl)).trans (if_neg (hlength hargs))⟩
      | var v => exact absurd rfl (hu v)
      | _ => simp [Ty.subst] at h
  | tuple ts =>
      cases u with
      | tuple us =>
          simp only [Ty.subst, Ty.substAll_eq_map, Ty.tuple.injEq] at h
          exact ⟨_, if_neg (hlength h)⟩
      | var v => exact absurd rfl (hu v)
      | _ => simp [Ty.subst] at h

/-- Where there is a substitution that makes two types equal, nothing but a lack of levels keeps
unification from finding one. -/
theorem exists_cyclic_of_error {levels : Nat} {p r : Ty} {e : UnifyError} (hs : s.Idempotent)
    (hfixes : ∀ v ∈ rigid, s.lookup v = .var v → θ.lookup v = .var v) (hθ : θ.Extends s)
    (hequal : θ.apply p = θ.apply r) (h : unifyWithin rigid levels p r s = .error e) :
    ∃ t u, e = .cyclic t u := by
  induction levels generalizing p r s e with
  | zero =>
      cases h
      exact ⟨p, r, rfl⟩
  | succ levels ih =>
      have hopen : ∀ {q : Ty} {v : TyVar}, s.apply q = .var v → s.lookup v = .var v := by
        intro q v hq
        exact hs.lookup_of_mem_vars_apply (t := q) (by simp [hq, Ty.vars])
      rw [← hθ p, ← hθ r] at hequal
      unfold unifyWithin at h
      split at h
      · next v w hp hr =>
        obtain ⟨hne, hv, hw⟩ := bindVars_ne_of_error h
        rw [hp, hr, Subst.apply_var, Subst.apply_var, hfixes v hv (hopen hp),
          hfixes w hw (hopen hr)] at hequal
        exact absurd (Ty.var.inj hequal) hne
      · next hp hr =>
        rw [hp, Subst.apply_var] at hequal
        exact absurd hequal (lookup_ne_of_error h (fun hv => hfixes _ hv (hopen hp)) hr)
      · next hr hp =>
        rw [hr, Subst.apply_var] at hequal
        exact absurd hequal.symm (lookup_ne_of_error h (fun hv => hfixes _ hv (hopen hr)) hp)
      · next hp hr hboth =>
        obtain ⟨pairs, hparts⟩ := exists_partsOf_of_subst_eq hequal hp hr
        rw [hparts] at h
        obtain ⟨before, pair, after, s₁, rfl, hbefore, hpair⟩ := exists_error_of_foldlM h
        have hrun := Unifies.of_foldlM Unifies.of_unifyWithin hbefore
        have hpairs := (subst_eq_iff_of_partsOf hparts θ.lookup).1 hequal
        exact ih (hrun.sound hs).1 (fun v hv hopen => hfixes v hv (hrun.lookup_eq_var hs hopen))
          (hrun.extends_of_equal hs hθ fun a ha => hpairs a (List.mem_append_left _ ha))
          (hpairs pair (by simp)) hpair

theorem exists_unify_eq_ok {p r : Ty} (hs : s.Idempotent)
    (h : Unifier (fun v => v ∈ rigid ∧ s.lookup v = .var v) p r s θ) :
    ∃ s', unify rigid p r s = .ok s' := by
  cases hrun : unify rigid p r s with
  | ok s' => exact ⟨s', rfl⟩
  | error e =>
      obtain ⟨t, u, rfl⟩ := exists_cyclic_of_error hs (fun v hv hopen => h.fixes v ⟨hv, hopen⟩)
        h.stands h.equal hrun
      exact absurd hrun (finished_unify p r hs t u)

theorem unifier_of_unify {p r : Ty} {s' : Subst} (hs : s.Idempotent)
    (h : unify rigid p r s = .ok s') :
    Unifier (fun v => v ∈ rigid ∧ s.lookup v = .var v) p r s s' := by
  have hrun := Unifies.of_unify h
  obtain ⟨-, hext, hequal⟩ := hrun.sound hs
  exact ⟨fun v hv => hrun.lookup_of_mem_rigid hs hv.1 hv.2, hext, hequal _ List.mem_cons_self⟩

theorem exists_unify_swap {p r : Ty} {s' : Subst} (hs : s.Idempotent)
    (h : unify rigid p r s = .ok s') : ∃ s'', unify rigid r p s = .ok s'' := by
  obtain ⟨hfixes, hstands, hequal⟩ := unifier_of_unify hs h
  exact exists_unify_eq_ok hs ⟨hfixes, hstands, hequal.symm⟩

end Failure

/-- Unification under an idempotent substitution finds a most general unifier wherever there is a
unifier at all. It fails only where there is none, and does so from either side. -/
theorem unify_complete {rigid : List TyVar} {provided required : Ty} {s : Subst}
    (hs : s.Idempotent) :
    (∀ θ, Unifier (· ∈ rigid) provided required s θ →
      ∃ s', unify rigid provided required s = .ok s' ∧
        ∀ θ', Unifier (· ∈ rigid) provided required s θ' → θ'.Extends s') ∧
      (∀ e, unify rigid provided required s = .error e →
        ¬∃ θ, Unifier (· ∈ rigid) provided required s θ) ∧
      ((∃ s', unify rigid provided required s = .ok s') ↔
        ∃ s', unify rigid required provided s = .ok s') := by
  have hfinds : ∀ θ, Unifier (· ∈ rigid) provided required s θ →
      ∃ s', unify rigid provided required s = .ok s' := fun θ hθ =>
    exists_unify_eq_ok hs ⟨fun v hv => hθ.fixes v hv.1, hθ.stands, hθ.equal⟩
  refine ⟨fun θ hθ => ?_, ?_, ?_⟩
  · obtain ⟨s', hs'⟩ := hfinds θ hθ
    refine ⟨s', hs', fun θ' hθ' => ?_⟩
    exact (Unifies.of_unify hs').extends_of_equal hs hθ'.stands (by simpa using hθ'.equal)
  · rintro e herror ⟨θ, hθ⟩
    obtain ⟨s', hs'⟩ := hfinds θ hθ
    rw [hs'] at herror
    cases herror
  · constructor
    · rintro ⟨s', hs'⟩
      exact exists_unify_swap hs hs'
    · rintro ⟨s', hs'⟩
      exact exists_unify_swap hs hs'

/-- Both sides bind a variable here, and one unifier gives the variable that is left open a list. -/
theorem unify_complete_map :
    let a : TyVar := ⟨"'a"⟩
    let b : TyVar := ⟨"'b"⟩
    let c : TyVar := ⟨"'c"⟩
    let rigid : TyVar := ⟨"'s"⟩
    let k : TyVar := ⟨"?k0"⟩
    let v : TyVar := ⟨"?v1"⟩
    let provided : Ty := .app "Map" [.var k, .list (.var v), .var v]
    let required : Ty := .app "Map" [.list (.var a), .var b, .var rigid]
    let s := Subst.single a (.var c)
    let θ := Subst.ofList [(a, .int), (c, .int), (k, .list .int), (v, .var rigid),
      (b, .list (.var rigid))]
    s.Idempotent ∧ Unifier (· ∈ [rigid]) provided required s θ ∧
      ∃ s', unify [rigid] provided required s = .ok s' ∧ θ.Extends s' ∧
        ∃ s'', unify [rigid] required provided s = .ok s'' := by
  intro a b c rigid k v provided required s θ
  have hs : s.Idempotent := Subst.idempotent_single (by decide)
  have hθ : Unifier (· ∈ [rigid]) provided required s θ := by
    refine ⟨?_, Subst.extends_single (by decide), by decide⟩
    intro w hw
    rw [List.mem_singleton.1 hw]
    decide
  obtain ⟨hfinds, -, hswap⟩ := @unify_complete [rigid] provided required s hs
  obtain ⟨s', hs', hgeneral⟩ := hfinds θ hθ
  exact ⟨hs, hθ, s', hs', hgeneral θ hθ, hswap.1 ⟨s', hs'⟩⟩

end ConceptResolution
