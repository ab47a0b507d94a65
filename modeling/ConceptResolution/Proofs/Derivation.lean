import ConceptResolution.Proofs.Fresh
import ConceptResolution.Proofs.Scoping

namespace ConceptResolution

/-- A type over the parameters of an instance, at arguments for them. -/
def Instance.at (i : Instance) (args : List Ty) (t : Ty) : Ty :=
  (Subst.ofList ((i.params.map Param.var).zip args)).apply t

theorem Instance.mem_vars_ty_iff {i : Instance} {x : TyVar} :
    x ∈ i.ty.vars ↔ ∃ p ∈ i.params, p.var = x := by
  rw [Instance.ty, Ty.generic, Ty.named]
  split
  · next hempty =>
      have hnil : i.params = [] := by simpa using hempty
      simp [hnil, Ty.vars]
  · simp [Ty.vars, Ty.varsAll_eq_flatMap, eq_comm]

namespace Site

variable (site : Site)

/-- A given witness, or a declared instance at arguments. -/
def IsEvidence (t : Ty) : Prop :=
  (∃ p, .given p ∈ site.scope.evidence ∧ t = p.ty) ∨
    ∃ i args, .declared i ∈ site.scope.evidence ∧ args.length = i.params.length ∧
      t = .named i.name args

/-- Evidence provides a concept by what it declares, whatever its arguments are. -/
inductive Provides : Ty → Ty → Prop
  | given {p : Param} {c : Ty} (hp : .given p ∈ site.scope.evidence)
      (hc : c ∈ site.model.expand p.constraints) : Provides p.ty c
  | declared {i : Instance} {args : List Ty} {c : Ty} (hi : .declared i ∈ site.scope.evidence)
      (hlength : args.length = i.params.length)
      (hc : c ∈ site.model.expand (i.providesAt (.named i.name args))) :
      Provides (.named i.name args) c

/-- Evidence witnesses a concept if it provides it and its witness arguments witness what is
required of them. -/
inductive Derives : Ty → Ty → Prop
  | given {p : Param} {c : Ty} (hp : .given p ∈ site.scope.evidence)
      (hc : c ∈ site.model.expand p.constraints) : Derives p.ty c
  | declared {i : Instance} {args : List Ty} {c : Ty} (hi : .declared i ∈ site.scope.evidence)
      (hlength : args.length = i.params.length)
      (hc : c ∈ site.model.expand (i.providesAt (.named i.name args)))
      (hargs : ∀ pair ∈ i.params.zip args, pair.1.isWitness = true →
        ∀ d ∈ pair.1.constraints, Derives pair.2 (i.at args d)) :
      Derives (.named i.name args) c

/-- No instance in scope has two parameters of one name. -/
def Distinct : Prop :=
  ∀ i, .declared i ∈ site.scope.evidence → (i.params.map Param.var).Nodup

/-- A type witnesses a concept, and goes on to do so whatever the variables that are not bound in
the scope come to stand for. Where parameters share a name, only what evidence provides counts. -/
def Backs (t c : Ty) : Prop :=
  ∀ f : TyVar → Ty, (∀ v ∈ site.scope.bound, f v = .var v) →
    site.Provides (t.subst f) (c.subst f) ∧ (site.Distinct → site.Derives (t.subst f) (c.subst f))

variable {site}

theorem Provides.of_reaches {t c d : Ty} (hprovides : site.Provides t c)
    (hfinite : site.model.Finitary) (h : site.model.Reaches c d) : site.Provides t d := by
  cases hprovides with
  | given hp hc => exact .given hp (hfinite.mem_expand_of_reaches hc h)
  | declared hi hlength hc => exact .declared hi hlength (hfinite.mem_expand_of_reaches hc h)

theorem Derives.of_reaches {t c d : Ty} (hderives : site.Derives t c)
    (hfinite : site.model.Finitary) (h : site.model.Reaches c d) : site.Derives t d := by
  cases hderives with
  | given hp hc => exact .given hp (hfinite.mem_expand_of_reaches hc h)
  | declared hi hlength hc hargs =>
      exact .declared hi hlength (hfinite.mem_expand_of_reaches hc h) hargs

theorem Backs.of_reaches {t c d : Ty} (hbacks : site.Backs t c) (hfinite : site.model.Finitary)
    (hclosed : site.model.Closed) (hfits : site.model.fits c = true)
    (h : site.model.Reaches c d) : site.Backs t d := by
  intro f hf
  obtain ⟨hprovides, hderives⟩ := hbacks f hf
  have hreach := hclosed.reaches_subst hfits h f
  exact ⟨hprovides.of_reaches hfinite hreach, fun hdistinct =>
    (hderives hdistinct).of_reaches hfinite hreach⟩

theorem Backs.subst {t c : Ty} (hbacks : site.Backs t c) {f : TyVar → Ty}
    (hf : ∀ v ∈ site.scope.bound, f v = .var v) : site.Backs (t.subst f) (c.subst f) := by
  intro g hg
  rw [Ty.subst_subst, Ty.subst_subst]
  refine hbacks _ fun v hv => ?_
  rw [hf v hv]
  exact hg v hv

theorem Backs.derives {t c : Ty} (hbacks : site.Backs t c) (hdistinct : site.Distinct) :
    site.Derives t c := by
  have h := (hbacks .var fun v _ => rfl).2 hdistinct
  rwa [Ty.subst_var, Ty.subst_var] at h

theorem Backs.provides {t c : Ty} (hbacks : site.Backs t c) : site.Provides t c := by
  have h := (hbacks .var fun v _ => rfl).1
  rwa [Ty.subst_var, Ty.subst_var] at h

theorem backs_given (hsite : site.WellScoped) {p : Param} (hp : .given p ∈ site.scope.evidence)
    {c : Ty} (hc : c ∈ site.model.expand p.constraints) : site.Backs p.ty c := by
  obtain ⟨hbound, hconstraints⟩ := hsite.given p hp
  intro f hf
  obtain ⟨d, hd, hreach⟩ := ConceptModel.reaches_of_mem_expand hc
  obtain ⟨hfits, hvars⟩ := hconstraints d hd
  have hfix : c.subst f = c := Ty.subst_eq_self_iff.2 fun v hv =>
    hf v (hvars v (hsite.closed.mem_vars_of_reaches hfits hreach hv))
  have hty : p.ty.subst f = p.ty := hf p.var hbound
  rw [hfix, hty]
  exact ⟨.given hp hc, fun _ => .given hp hc⟩

theorem args_named (name : String) (args : List Ty) : (Ty.named name args).args = args := by
  cases args <;> rfl

theorem head?_named (name : String) (args : List Ty) :
    (Ty.named name args).head? = some name := by
  cases args <;> rfl

theorem subst_named (f : TyVar → Ty) (name : String) (args : List Ty) :
    (Ty.named name args).subst f = .named name (args.map (Ty.subst f)) := by
  cases args with
  | nil => rfl
  | cons t ts => simp [Ty.named, Ty.subst, Ty.substAll_eq_map]

private theorem applyAt {i : Instance} (f : TyVar → Ty) {t : Ty}
    (ht : ∀ v ∈ t.vars, Plain i.params v) :
    (Subst.ofList ((i.params.map Param.var).zip ((i.params.map Param.var).map f))).apply t =
      t.subst f :=
  Ty.subst_congr fun v hv => Subst.lookup_ofList_zip_map f (List.mem_map.2 (ht v hv).1)

/-- A declared instance, renamed and at some arguments, witnesses what it provides there if its
witness arguments do their part. -/
theorem backs_declared (hsite : site.WellScoped) (hfinite : site.model.Finitary) {i : Instance}
    (hi : .declared i ∈ site.scope.evidence) {ρ : TyVar → TyVar} {g : TyVar → Ty} {c : Ty}
    (hc : c ∈ site.model.expand (i.provides.map (Ty.rename ρ)))
    (hargs : site.Distinct → ∀ p ∈ i.params, p.isWitness = true → ∀ d ∈ p.constraints,
      site.Backs (g (ρ p.var)) ((d.rename ρ).subst g)) :
    site.Backs ((i.ty.rename ρ).subst g) (c.subst g) := by
  intro f hf
  obtain ⟨hprovides, hconstraints⟩ := hsite.declared i hi
  let h : TyVar → Ty := fun v => (g v).subst f
  let args := (i.params.map Param.var).map fun v => h (ρ v)
  have hlength : args.length = i.params.length := by simp [args]
  have hty : ((i.ty.rename ρ).subst g).subst f = .named i.name args := by
    simp [Instance.ty, Ty.generic, Ty.rename, subst_named, args, h, Ty.subst, Function.comp_def]
  have hat : ∀ t : Ty, (∀ v ∈ t.vars, Plain i.params v) → i.at args t = (t.rename ρ).subst h := by
    intro t ht
    rw [Instance.at, applyAt _ ht, Ty.rename, Ty.subst_subst]
    rfl
  have hmem : (c.subst g).subst f ∈ site.model.expand (i.providesAt (.named i.name args)) := by
    have hfits : ∀ d ∈ i.provides.map (Ty.rename ρ), site.model.fits d = true := by
      intro d hd
      obtain ⟨e, he, rfl⟩ := List.mem_map.1 hd
      exact ConceptModel.fits_subst_iff.2 ⟨(hprovides e he).1, fun v _ => rfl⟩
    have hprovidesAt : i.providesAt (.named i.name args) =
        (i.provides.map (Ty.rename ρ)).map (Ty.subst h) := by
      rw [Instance.providesAt, args_named, Subst.applyAll, List.map_map]
      exact List.map_congr_left fun d hd => hat d (hprovides d hd).2
    rw [hprovidesAt, Ty.subst_subst]
    exact hsite.closed.mem_expand_subst hfinite hfits hc h
  rw [hty]
  refine ⟨.declared hi hlength hmem, fun hdistinct => .declared hi hlength hmem ?_⟩
  intro pair hpair hwitness d hd
  simp only [args, List.map_map, ← List.map_prod_left_eq_zip] at hpair
  obtain ⟨p, hp, rfl⟩ := List.mem_map.1 hpair
  rw [hat d (hconstraints p hp d hd).2]
  have hbacks := ((hargs hdistinct p hp hwitness d hd) f hf).2 hdistinct
  rwa [Ty.subst_subst] at hbacks

theorem Derives.of_declared (htidy : site.scope.Tidy) {i : Instance}
    (hi : .declared i ∈ site.scope.evidence) (args : List Ty) {c : Ty}
    (h : site.Derives (.named i.name args) c) :
    c ∈ site.model.expand (i.providesAt (.named i.name args)) ∧
      ∀ pair ∈ i.params.zip args, pair.1.isWitness = true →
        ∀ d ∈ pair.1.constraints, site.Derives pair.2 (i.at args d) := by
  generalize ht : Ty.named i.name args = t at h
  cases h with
  | given hp hc => cases args <;> cases ht
  | @declared j args' c hj hlength hc hargs =>
      have hhead := congrArg Ty.head? ht
      have hargs' := congrArg Ty.args ht
      rw [args_named, args_named] at hargs'
      rw [head?_named, head?_named, Option.some.injEq] at hhead
      cases htidy.eq_of_name_eq hi hj hhead
      cases hargs'
      exact ⟨hc, hargs⟩

theorem IsEvidence.subst {t : Ty} (ht : site.IsEvidence t) (hsite : site.WellScoped)
    {f : TyVar → Ty}
    (hf : ∀ v ∈ site.scope.bound, f v = .var v) : site.IsEvidence (t.subst f) := by
  rcases ht with ⟨p, hp, rfl⟩ | ⟨i, args, hi, hlength, rfl⟩
  · exact .inl ⟨p, hp, hf p.var (hsite.bound_of_given p hp)⟩
  · rw [subst_named]
    exact .inr ⟨i, args.map (Ty.subst f), hi, by rw [List.length_map, hlength], rfl⟩

theorem isFixed_of_isEvidence (hsite : site.WellScoped) {t : Ty} (ht : site.IsEvidence t) :
    site.scope.isFixed (some t) = true := by
  rcases ht with ⟨p, hp, rfl⟩ | ⟨i, args, hi, hlength, rfl⟩
  · exact List.contains_iff_mem.2 (hsite.bound_of_given p hp)
  · cases args <;> rfl

theorem isFixed_get?_of_isEvidence (hsite : site.WellScoped) {s : Subst} {v : TyVar}
    (hfree : v ∉ site.scope.bound) (h : site.IsEvidence (s.lookup v)) :
    site.scope.isFixed (s.get? v) = true := by
  cases hget : s.get? v with
  | some t => exact isFixed_of_isEvidence hsite (Subst.lookup_of_get? hget ▸ h)
  | none =>
      have hfixed := isFixed_of_isEvidence hsite h
      rw [Subst.lookup_of_notMem (Subst.get?_eq_none_iff.1 hget)] at hfixed
      exact absurd (List.contains_iff_mem.1 hfixed) hfree

end Site

end ConceptResolution
