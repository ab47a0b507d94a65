import ConceptResolution.Proofs.Fresh
import ConceptResolution.Unification
import Mathlib.Data.List.Nodup

namespace ConceptResolution

/-- An injective renaming of variables that moves fresh variables only. -/
structure Renaming where
  map : TyVar → TyVar
  injective : Function.Injective map
  named : ∀ v, v.isFresh = false → map v = v

namespace Renaming

theorem isFresh_map (ρ : Renaming) (v : TyVar) : (ρ.map v).isFresh = v.isFresh := by
  cases hv : v.isFresh with
  | false => rw [ρ.named v hv, hv]
  | true =>
      cases hw : (ρ.map v).isFresh with
      | true => rfl
      | false =>
          have hfix : ρ.map v = v := ρ.injective (ρ.named _ hw)
          rw [hfix, hv] at hw
          exact hw.symm

theorem map_eq_iff_of_named (ρ : Renaming) {v w : TyVar} (hw : w.isFresh = false) :
    ρ.map v = w ↔ v = w := by
  constructor
  · intro h
    rw [← ρ.named w hw] at h
    exact ρ.injective h
  · rintro rfl
    exact ρ.named v hw

theorem map_map_eq_self (ρ : Renaming) {vs : List TyVar} (h : ∀ v ∈ vs, v.isFresh = false) :
    vs.map ρ.map = vs := by
  rw [List.map_congr_left fun v hv => ρ.named v (h v hv), List.map_id']

end Renaming

section Lists

variable {α β : Type} [DecidableEq α] [DecidableEq β] {f : α → β}

theorem contains_map_of_injective (hf : Function.Injective f) (as : List α) (a : α) :
    (as.map f).contains (f a) = as.contains a := by
  rw [Bool.eq_iff_iff, List.contains_iff_mem, List.contains_iff_mem, List.mem_map_of_injective hf]

theorem eraseDups_map_of_injective (hf : Function.Injective f) :
    ∀ as : List α, (as.map f).eraseDups = as.eraseDups.map f
  | [] => rfl
  | a :: as => by
      have hfilter : (as.map f).filter (fun b => !b == f a) =
          (as.filter fun b => !b == a).map f := by
        rw [List.filter_map]
        refine congrArg (List.map f) (List.filter_congr fun b _ => ?_)
        simp [hf.eq_iff]
      rw [List.map_cons, List.eraseDups_cons, List.eraseDups_cons, hfilter, List.map_cons,
        eraseDups_map_of_injective hf]
termination_by as => as.length
decreasing_by exact Nat.lt_succ_of_le (List.length_filter_le ..)

end Lists

namespace Ty

theorem rename_rename (σ τ : TyVar → TyVar) (t : Ty) :
    (t.rename σ).rename τ = t.rename fun v => τ (σ v) :=
  subst_subst _ _ t

theorem rename_congr {σ τ : TyVar → TyVar} {t : Ty} (h : ∀ v ∈ t.vars, σ v = τ v) :
    t.rename σ = t.rename τ :=
  subst_congr fun v hv => congrArg var (h v hv)

theorem rename_eq_self {σ : TyVar → TyVar} {t : Ty} (h : ∀ v ∈ t.vars, σ v = v) :
    t.rename σ = t :=
  (rename_congr h).trans t.subst_var

theorem rename_injective {σ : TyVar → TyVar} (hσ : Function.Injective σ) :
    Function.Injective (rename σ) := by
  intro t u h
  have hleft : ∀ t : Ty, (t.rename σ).rename (Function.invFun σ) = t := by
    intro t
    rw [rename_rename]
    exact rename_eq_self fun v _ => Function.leftInverse_invFun hσ v
  rw [← hleft t, h, hleft u]

theorem vars_rename (σ : TyVar → TyVar) (t : Ty) : (t.rename σ).vars = t.vars.map σ := by
  unfold rename
  induction t with
  | const name => rfl
  | var v => rfl
  | fn params result hparams hresult =>
      simp only [subst, vars, substAll_eq_map, varsAll_eq_flatMap, hresult, List.map_append,
        List.map_flatMap, List.flatMap_map]
      rw [List.flatMap_congr hparams]
  | app head args hargs =>
      simp only [subst, vars, substAll_eq_map, varsAll_eq_flatMap, List.map_flatMap,
        List.flatMap_map]
      rw [List.flatMap_congr hargs]
  | tuple elems helems =>
      simp only [subst, vars, substAll_eq_map, varsAll_eq_flatMap, List.map_flatMap,
        List.flatMap_map]
      rw [List.flatMap_congr helems]

theorem varsAll_map_rename (σ : TyVar → TyVar) (ts : List Ty) :
    varsAll (ts.map (rename σ)) = (varsAll ts).map σ := by
  induction ts with
  | nil => rfl
  | cons t ts ih => rw [List.map_cons, varsAll, vars_rename, ih, varsAll, List.map_append]

theorem heightAll_map_rename {σ : TyVar → TyVar} {ts : List Ty}
    (h : ∀ t ∈ ts, (t.rename σ).height = t.height) :
    heightAll (ts.map (rename σ)) = heightAll ts := by
  induction ts with
  | nil => rfl
  | cons t ts ih =>
      obtain ⟨ht, hts⟩ := List.forall_mem_cons.1 h
      rw [List.map_cons, heightAll, ht, ih hts, heightAll]

theorem height_rename (σ : TyVar → TyVar) (t : Ty) : (t.rename σ).height = t.height := by
  induction t with
  | const name => rfl
  | var v => rfl
  | fn params result hparams hresult =>
      have hall := heightAll_map_rename hparams
      simp only [rename, subst, substAll_eq_map, height] at hall hresult ⊢
      rw [hresult]
      exact congrArg (fun n => max n result.height + 1) hall
  | app head args hargs =>
      have hall := heightAll_map_rename hargs
      simp only [rename, subst, substAll_eq_map, height] at hall ⊢
      exact congrArg (· + 1) hall
  | tuple elems helems =>
      have hall := heightAll_map_rename helems
      simp only [rename, subst, substAll_eq_map, height] at hall ⊢
      exact congrArg (· + 1) hall

theorem head?_rename (σ : TyVar → TyVar) (t : Ty) : (t.rename σ).head? = t.head? := by
  cases t <;> rfl

theorem args_rename (σ : TyVar → TyVar) (t : Ty) : (t.rename σ).args = t.args.map (rename σ) := by
  cases t with
  | app head args => exact substAll_eq_map _ args
  | _ => rfl

theorem arity_rename (σ : TyVar → TyVar) (t : Ty) : (t.rename σ).arity = t.arity := by
  cases t <;> simp [rename, subst, substAll_eq_map, arity]

theorem specificity_rename (σ : TyVar → TyVar) (t : Ty) :
    (t.rename σ).specificity = t.specificity := by
  cases t with
  | app head args => cases args <;> rfl
  | tuple elems => cases elems <;> rfl
  | _ => rfl

theorem mentions_rename (ρ : Renaming) (v : TyVar) (t : Ty) :
    (t.rename ρ.map).mentions (ρ.map v) = t.mentions v := by
  rw [Bool.eq_iff_iff, mentions_iff, mentions_iff, vars_rename,
    List.mem_map_of_injective ρ.injective]

end Ty

namespace Subst

theorem ext_bindings {s s' : Subst} (h : s.bindings = s'.bindings) : s = s' := by
  cases s
  cases s'
  cases h
  rfl

def rename (ρ : Renaming) (s : Subst) : Subst :=
  ⟨s.bindings.map fun b => (ρ.map b.1, b.2.rename ρ.map), by
    simpa [Function.comp_def] using List.Nodup.map ρ.injective s.nodup⟩

variable (ρ : Renaming)

theorem bindings_rename (s : Subst) :
    (s.rename ρ).bindings = s.bindings.map fun b => (ρ.map b.1, b.2.rename ρ.map) := rfl

theorem domain_rename (s : Subst) : (s.rename ρ).domain = s.domain.map ρ.map := by
  simp [domain, rename, Function.comp_def]

theorem get?_rename (s : Subst) (v : TyVar) :
    (s.rename ρ).get? (ρ.map v) = (s.get? v).map (Ty.rename ρ.map) := by
  ext t
  simp only [get?_eq_some_iff, rename, List.mem_map, Prod.mk.injEq, Option.map_eq_some_iff]
  constructor
  · rintro ⟨⟨w, u⟩, hmem, hv, rfl⟩
    obtain rfl := ρ.injective hv
    exact ⟨u, hmem, rfl⟩
  · rintro ⟨u, hmem, rfl⟩
    exact ⟨(v, u), hmem, rfl, rfl⟩

theorem lookup_rename (s : Subst) (v : TyVar) :
    (s.rename ρ).lookup (ρ.map v) = (s.lookup v).rename ρ.map := by
  rw [lookup, lookup, get?_rename]
  cases s.get? v <;> rfl

theorem apply_rename (s : Subst) (t : Ty) :
    (s.rename ρ).apply (t.rename ρ.map) = (s.apply t).rename ρ.map := by
  unfold apply
  rw [Ty.rename, Ty.rename, Ty.subst_subst, Ty.subst_subst]
  exact Ty.subst_congr fun v _ => s.lookup_rename ρ v

theorem applyAll_rename (s : Subst) (ts : List Ty) :
    (s.rename ρ).applyAll (ts.map (Ty.rename ρ.map)) = (s.applyAll ts).map (Ty.rename ρ.map) := by
  simp only [applyAll, List.map_map]
  exact List.map_congr_left fun t _ => s.apply_rename ρ t

theorem rename_empty : empty.rename ρ = empty := rfl

theorem rename_single (v : TyVar) (t : Ty) :
    (single v t).rename ρ = single (ρ.map v) (t.rename ρ.map) := rfl

theorem rename_mapImages (s : Subst) {f g : Ty → Ty}
    (h : ∀ t, (f t).rename ρ.map = g (t.rename ρ.map)) :
    (s.mapImages f).rename ρ = (s.rename ρ).mapImages g := by
  refine ext_bindings ?_
  simp only [rename, mapImages, List.map_map]
  exact List.map_congr_left fun b _ => congrArg (Prod.mk _) (h b.2)

theorem rename_override (base top : Subst) :
    (base.override top).rename ρ = (base.rename ρ).override (top.rename ρ) := by
  refine ext_bindings ?_
  have hfilter : ((base.rename ρ).bindings.filter fun b => !(top.rename ρ).domain.contains b.1) =
      (base.bindings.filter fun b => !top.domain.contains b.1).map fun b =>
        (ρ.map b.1, b.2.rename ρ.map) := by
    rw [bindings_rename, List.filter_map]
    refine congrArg (List.map _) (List.filter_congr fun b _ => ?_)
    simp only [Function.comp_apply, domain_rename, contains_map_of_injective ρ.injective]
  simp only [override, hfilter]
  simp only [rename, List.map_append]

theorem rename_insert (s : Subst) (v : TyVar) (t : Ty) :
    (s.insert v t).rename ρ = (s.rename ρ).insert (ρ.map v) (t.rename ρ.map) := by
  rw [insert, rename_override, rename_single, insert]

theorem rename_dropTrivial (s : Subst) : s.dropTrivial.rename ρ = (s.rename ρ).dropTrivial := by
  refine ext_bindings ?_
  simp only [rename, dropTrivial, filter, List.filter_map]
  refine congrArg (List.map _) (List.filter_congr fun b _ => ?_)
  have hiff : b.2.rename ρ.map = .var (ρ.map b.1) ↔ b.2 = .var b.1 :=
    (Ty.rename_injective ρ.injective).eq_iff (b := .var b.1)
  rw [Function.comp_apply, Bool.eq_iff_iff, bne_iff_ne, bne_iff_ne, ne_eq, ne_eq, hiff]

theorem rename_selfApply (s : Subst) : s.selfApply.rename ρ = (s.rename ρ).selfApply := by
  rw [selfApply_eq, selfApply_eq]
  exact s.rename_mapImages ρ fun t => (s.apply_rename ρ t).symm

theorem rename_inj {s s' : Subst} : (s.rename ρ).bindings = (s'.rename ρ).bindings ↔
    s.bindings = s'.bindings := by
  refine (List.map_injective_iff.2 ?_).eq_iff
  rintro ⟨v, t⟩ ⟨w, u⟩ h
  obtain ⟨hv, ht⟩ := Prod.mk.inj h
  exact Prod.ext (ρ.injective hv) (Ty.rename_injective ρ.injective ht)

theorem rename_settle (n : Nat) (s : Subst) : (settle n s).rename ρ = settle n (s.rename ρ) := by
  induction n generalizing s with
  | zero => rfl
  | succ n ih =>
      rw [settle, settle, ← rename_selfApply]
      simp only [rename_inj]
      split
      · rfl
      · exact ih s.selfApply

theorem size_rename (s : Subst) : (s.rename ρ).size = s.size :=
  List.length_map _

theorem rename_normalize (s : Subst) : s.normalize.rename ρ = (s.rename ρ).normalize := by
  rw [normalize, rename_dropTrivial, rename_settle, rename_dropTrivial, normalize,
    ← rename_dropTrivial, size_rename]

theorem rename_compose (outer inner : Subst) :
    (outer.compose inner).rename ρ = (outer.rename ρ).compose (inner.rename ρ) := by
  rw [compose, rename_normalize, rename_override,
    inner.rename_mapImages ρ fun t => (outer.apply_rename ρ t).symm, compose]

end Subst

section Unification

variable (ρ : Renaming)

/-- What a unification comes to under a renaming, its errors left aside. -/
private def renamed (result : Except UnifyError Subst) : Option Subst :=
  result.toOption.map (Subst.rename ρ)

private theorem bindVar_rename (rigid : List TyVar) (v : TyVar) (t : Ty) (s : Subst) :
    (bindVar (rigid.map ρ.map) (ρ.map v) (t.rename ρ.map) (s.rename ρ)).toOption =
      renamed ρ (bindVar rigid v t s) := by
  have hvar : t.rename ρ.map = .var (ρ.map v) ↔ t = .var v :=
    (Ty.rename_injective ρ.injective).eq_iff (b := .var v)
  unfold bindVar
  simp only [hvar, List.mem_map_of_injective ρ.injective, Ty.mentions_rename]
  split_ifs
  · rfl
  · rfl
  · rfl
  · simp [renamed, Except.toOption, Subst.rename_compose, Subst.rename_single]

private theorem bindVars_rename (rigid : List TyVar) (v w : TyVar) (s : Subst) :
    (bindVars (rigid.map ρ.map) (ρ.map v) (ρ.map w) (s.rename ρ)).toOption =
      renamed ρ (bindVars rigid v w s) := by
  unfold bindVars
  simp only [ρ.injective.eq_iff, List.mem_map_of_injective ρ.injective]
  split_ifs
  · rfl
  · rfl
  · exact bindVar_rename ρ rigid w (.var v) s
  · exact bindVar_rename ρ rigid v (.var w) s

private theorem partsOf_rename (t u : Ty) :
    (partsOf (t.rename ρ.map) (u.rename ρ.map)).toOption =
      (partsOf t u).toOption.map (List.map (Prod.map (Ty.rename ρ.map) (Ty.rename ρ.map))) := by
  have hzip : ∀ ts us : List Ty, (Ty.substAll (fun v => .var (ρ.map v)) ts).zip
      (Ty.substAll (fun v => .var (ρ.map v)) us) =
        (ts.zip us).map (Prod.map (Ty.rename ρ.map) (Ty.rename ρ.map)) := by
    intro ts us
    rw [Ty.substAll_eq_map, Ty.substAll_eq_map, List.zip_map]
    rfl
  have hlength : ∀ ts : List Ty, (Ty.substAll (fun v => .var (ρ.map v)) ts).length = ts.length :=
    fun ts => by rw [Ty.substAll_eq_map, List.length_map]
  cases t with
  | const a =>
      cases u with
      | const b =>
          simp only [Ty.rename, Ty.subst, partsOf]
          split <;> rfl
      | _ => rfl
  | var v => rfl
  | fn ps p =>
      cases u with
      | fn qs q =>
          simp only [Ty.rename, Ty.subst, partsOf, hlength, hzip]
          split
          · rfl
          · simp [Except.toOption, Ty.rename]
      | _ => rfl
  | app a ts =>
      cases u with
      | app b us =>
          simp only [Ty.rename, Ty.subst, partsOf, hlength, hzip]
          split_ifs <;> rfl
      | _ => rfl
  | tuple ts =>
      cases u with
      | tuple us =>
          simp only [Ty.rename, Ty.subst, partsOf, hlength, hzip]
          split <;> rfl
      | _ => rfl

private theorem toOption_bind {α β : Type} (x : Except UnifyError α)
    (f : α → Except UnifyError β) :
    (x >>= f).toOption = x.toOption.bind fun a => (f a).toOption := by
  cases x <;> rfl

private theorem foldlM_rename {rigid : List TyVar} {levels : Nat}
    (h : ∀ p r s, (unifyWithin (rigid.map ρ.map) levels (p.rename ρ.map) (r.rename ρ.map)
      (s.rename ρ)).toOption = renamed ρ (unifyWithin rigid levels p r s))
    (pairs : List (Ty × Ty)) (s : Subst) :
    ((pairs.map (Prod.map (Ty.rename ρ.map) (Ty.rename ρ.map))).foldlM
      (fun s pair => unifyWithin (rigid.map ρ.map) levels pair.1 pair.2 s) (s.rename ρ)).toOption =
      renamed ρ (pairs.foldlM (fun s pair => unifyWithin rigid levels pair.1 pair.2 s) s) := by
  induction pairs generalizing s with
  | nil => rfl
  | cons pair pairs ih =>
      rw [List.map_cons, List.foldlM_cons, List.foldlM_cons, toOption_bind, renamed, toOption_bind,
        Option.map_bind]
      refine (congrArg (fun x => Option.bind x _) (h pair.1 pair.2 s)).trans ?_
      rw [renamed, Option.bind_map]
      exact congrArg (Option.bind _) (funext ih)

private theorem unifyWithin_rename (rigid : List TyVar) (levels : Nat) (p r : Ty) (s : Subst) :
    (unifyWithin (rigid.map ρ.map) levels (p.rename ρ.map) (r.rename ρ.map)
      (s.rename ρ)).toOption = renamed ρ (unifyWithin rigid levels p r s) := by
  induction levels generalizing p r s with
  | zero => rfl
  | succ levels ih =>
      have hparts : ∀ t u : Ty,
          (partsOf (t.rename ρ.map) (u.rename ρ.map) >>= fun pairs => pairs.foldlM
            (fun s pair => unifyWithin (rigid.map ρ.map) levels pair.1 pair.2 s)
            (s.rename ρ)).toOption =
          renamed ρ (partsOf t u >>= fun pairs => pairs.foldlM
            (fun s pair => unifyWithin rigid levels pair.1 pair.2 s) s) := by
        intro t u
        rw [toOption_bind, renamed, toOption_bind, Option.map_bind, partsOf_rename, Option.bind_map]
        exact congrArg (Option.bind _) (funext fun pairs => foldlM_rename ρ ih pairs s)
      rw [unifyWithin, unifyWithin, Subst.apply_rename, Subst.apply_rename]
      cases s.apply p with
      | var v =>
          cases s.apply r with
          | var w => exact bindVars_rename ρ rigid v w s
          | _ => exact bindVar_rename ρ rigid v _ s
      | _ =>
          cases s.apply r with
          | var w => exact bindVar_rename ρ rigid w _ s
          | _ => exact hparts _ _

private theorem length_ofList_map {α : Type} [DecidableEq α] [Fingerprint α] {f : α → α}
    (hf : Function.Injective f) (as : List α) :
    (Roster.ofList (as.map f)).size = (Roster.ofList as).size := by
  have hsize : ∀ as : List α, (Roster.ofList as).size = as.eraseDups.length := by
    intro as
    rw [← Roster.toList_ofList, Roster.toList, List.length_reverse, Roster.size]
  rw [hsize, hsize, eraseDups_map_of_injective hf, List.length_map]

private theorem unifyLevels_rename (p r : Ty) (s : Subst) :
    unifyLevels (p.rename ρ.map) (r.rename ρ.map) (s.rename ρ) = unifyLevels p r s := by
  have himages : (s.rename ρ).bindings.map Prod.snd =
      (s.bindings.map Prod.snd).map (Ty.rename ρ.map) := by
    simp [Subst.bindings_rename, Function.comp_def]
  have hbound : ∀ vs : List TyVar, varBound (vs.map ρ.map) = varBound vs := by
    intro vs
    rw [varBound, varBound, List.length_map, length_ofList_map ρ.injective]
  have hheight : ∀ ts : List Ty, Ty.heightAll (ts.map (Ty.rename ρ.map)) = Ty.heightAll ts :=
    fun ts => Ty.heightAll_map_rename fun t _ => t.height_rename ρ.map
  simp only [unifyLevels, himages, Ty.vars_rename, Ty.varsAll_map_rename, ← List.map_append, hbound,
    Ty.height_rename, hheight]

theorem unify_rename (rigid : List TyVar) (p r : Ty) (s : Subst) :
    (unify (rigid.map ρ.map) (p.rename ρ.map) (r.rename ρ.map) (s.rename ρ)).toOption =
      (unify rigid p r s).toOption.map (Subst.rename ρ) := by
  rw [unify, unify, unifyLevels_rename]
  exact unifyWithin_rename ρ rigid _ p r s

end Unification

end ConceptResolution
