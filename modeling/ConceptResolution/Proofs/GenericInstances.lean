import ConceptResolution.Proofs.Covers
import ConceptResolution.Proofs.Derivation

namespace ConceptResolution

namespace ConceptModel

/-- A named type, with as many arguments as the concept of this name declares if there is one. -/
def Applies (M : ConceptModel) (t : Ty) : Prop :=
  ∃ name ∈ t.head?, M.fitsHead name t.args.length = true

instance (M : ConceptModel) (t : Ty) : Decidable (M.Applies t) := by
  unfold Applies
  infer_instance

/-- The superconcepts of every concept are applications over its parameters. -/
def Regular (M : ConceptModel) : Prop :=
  ∀ name c, M.concept? name = some c → ∀ s ∈ c.supers, M.Applies s ∧ ∀ v ∈ s.vars, v ∈ c.params

variable {M : ConceptModel} {c d : Ty}

theorem Applies.subst (h : M.Applies c) (f : TyVar → Ty) : M.Applies (c.subst f) := by
  obtain ⟨name, hname, hfits⟩ := h
  obtain ⟨hhead, hargs⟩ := Ty.head?_subst f hname
  exact ⟨name, hhead, by rwa [hargs, List.length_map]⟩

theorem Applies.length_args (h : M.Applies c) {decl : Concept}
    (hdecl : M.conceptOf? c = some decl) :
    c.args.length = decl.params.length := by
  obtain ⟨name, hname, hfits⟩ := h
  rw [conceptOf?, Option.mem_def.1 hname, Option.bind_some] at hdecl
  have hlength : decl.params.length = c.args.length := by simpa [fitsHead, hdecl] using hfits
  exact hlength.symm

theorem Regular.applies_of_mem_supers (hM : M.Regular) (h : d ∈ M.supers c) : M.Applies d := by
  obtain ⟨decl, hdecl, s, hs, rfl⟩ := exists_of_mem_supers h
  obtain ⟨name, hname⟩ := conceptOf?_eq_some hdecl
  exact (hM name decl hname s hs).1.subst _

theorem Regular.applies_of_reaches (hM : M.Regular) (hc : M.Applies c) (h : M.Reaches c d) :
    M.Applies d := by
  cases h with
  | refl => exact hc
  | tail _ hstep => exact hM.applies_of_mem_supers hstep

theorem Regular.supers_subst (hM : M.Regular) (hc : M.Applies c) (f : TyVar → Ty) :
    M.supers (c.subst f) = (M.supers c).map (Ty.subst f) := by
  cases hdecl : M.conceptOf? c with
  | none =>
      obtain ⟨name, hname, -⟩ := hc
      have hsame : M.conceptOf? (c.subst f) = M.conceptOf? c := by
        rw [conceptOf?, conceptOf?, (Ty.head?_subst f hname).1, Option.mem_def.1 hname]
      simp [supers, hsame, hdecl]
  | some decl =>
      obtain ⟨name, hname⟩ := conceptOf?_eq_some hdecl
      obtain ⟨hsubst, hargs⟩ := conceptOf?_subst f hdecl
      rw [supers_eq_supersAt hsubst, supers_eq_supersAt hdecl]
      exact supersAt_subst hargs (hc.length_args hdecl).ge fun s hs => (hM name decl hname s hs).2

theorem Regular.reaches_subst_iff (hM : M.Regular) (hc : M.Applies c) (f : TyVar → Ty) {e : Ty} :
    M.Reaches (c.subst f) e ↔ ∃ d, M.Reaches c d ∧ d.subst f = e := by
  have hstep : ∀ {d}, M.Reaches c d → M.supers (d.subst f) = (M.supers d).map (Ty.subst f) :=
    fun hd => hM.supers_subst (hM.applies_of_reaches hc hd) f
  constructor
  · intro h
    induction h with
    | refl => exact ⟨c, .refl, rfl⟩
    | tail _ hup ih =>
        obtain ⟨d, hd, rfl⟩ := ih
        rw [hstep hd] at hup
        obtain ⟨d', hd', rfl⟩ := List.mem_map.1 hup
        exact ⟨d', hd.tail hd', rfl⟩
  · rintro ⟨d, hd, rfl⟩
    induction hd with
    | refl => exact .refl
    | tail hd hup ih => exact ih.tail (hstep hd ▸ List.mem_map_of_mem hup)

theorem Regular.mem_expand_subst_iff (hM : M.Regular) (hfinite : M.Finitary) {cs : List Ty}
    (hcs : ∀ c ∈ cs, M.Applies c) (f : TyVar → Ty) {e : Ty} :
    e ∈ M.expand (cs.map (Ty.subst f)) ↔ ∃ d ∈ M.expand cs, d.subst f = e := by
  simp only [hfinite.mem_expand_iff, List.mem_map]
  constructor
  · rintro ⟨_, ⟨c, hc, rfl⟩, hreach⟩
    obtain ⟨d, hd, hde⟩ := (hM.reaches_subst_iff (hcs c hc) f).1 hreach
    exact ⟨d, ⟨c, hc, hd⟩, hde⟩
  · rintro ⟨d, ⟨c, hc, hd⟩, hde⟩
    exact ⟨c.subst f, ⟨c, hc, rfl⟩, (hM.reaches_subst_iff (hcs c hc) f).2 ⟨d, hd, hde⟩⟩

end ConceptModel

theorem Instance.head?_subst_ty (i : Instance) (f : TyVar → Ty) :
    (i.ty.subst f).head? = some i.name ∧ (i.ty.subst f).args = (i.params.map Param.var).map f := by
  rw [Instance.ty, Ty.generic, Site.subst_named, Site.head?_named, Site.args_named, List.map_map]
  exact ⟨rfl, rfl⟩

theorem Instance.providesAt_subst_ty {i : Instance}
    (h : ∀ c ∈ i.provides, ∀ v ∈ c.vars, ∃ p ∈ i.params, p.var = v) (f : TyVar → Ty) :
    i.providesAt (i.ty.subst f) = i.provides.map (Ty.subst f) := by
  rw [Instance.providesAt, (i.head?_subst_ty f).2]
  exact List.map_congr_left fun c hc => Ty.subst_congr fun v hv =>
    Subst.lookup_ofList_zip_map f (List.mem_map.2 (h c hc v hv))

namespace ConceptModel

variable {M : ConceptModel} {i : Instance}

theorem conceptsOf_subst_ty (hi : M.instance? i.name = some i)
    (h : ∀ c ∈ i.provides, ∀ v ∈ c.vars, ∃ p ∈ i.params, p.var = v) (givens : List Param)
    (f : TyVar → Ty) :
    M.conceptsOf givens (i.ty.subst f) = M.expand (i.provides.map (Ty.subst f)) := by
  obtain ⟨hhead, -⟩ := i.head?_subst_ty f
  have hinstance : M.instanceOf? (i.ty.subst f) = some i := by
    rw [instanceOf?, hhead, Option.bind_some, hi]
  rw [← Instance.providesAt_subst_ty h f]
  unfold conceptsOf
  split
  · next v hv =>
    rw [hv] at hhead
    cases hhead
  · rw [hinstance]

/-- Between two substitutions, the first of which may rename the parameters, superconcepts can be
looked up just as well as after both. -/
theorem Regular.mem_conceptsOf_iff (hM : M.Regular) (hfinite : M.Finitary)
    (hi : M.instance? i.name = some i)
    (hprovides : ∀ c ∈ i.provides, M.Applies c ∧ ∀ v ∈ c.vars, ∃ p ∈ i.params, p.var = v)
    (givens : List Param) (f : TyVar → Ty) (s : Subst) {e : Ty} :
    e ∈ M.conceptsOf givens (s.apply (i.ty.subst f)) ↔
      ∃ d ∈ M.expand (i.provides.map (Ty.subst f)), s.apply d = e := by
  have happlies : ∀ c ∈ i.provides.map (Ty.subst f), M.Applies c := by
    intro c hc
    obtain ⟨d, hd, rfl⟩ := List.mem_map.1 hc
    exact (hprovides d hd).1.subst f
  have hboth : i.provides.map (Ty.subst fun v => (f v).subst s.lookup) =
      (i.provides.map (Ty.subst f)).map (Ty.subst s.lookup) := by
    rw [List.map_map]
    exact List.map_congr_left fun c _ => (c.subst_subst f s.lookup).symm
  rw [Subst.apply, Ty.subst_subst, conceptsOf_subst_ty hi (fun c hc => (hprovides c hc).2), hboth]
  exact hM.mem_expand_subst_iff hfinite happlies s.lookup

end ConceptModel

/-- An instance provides, taken to any types, what its instance type satisfies there, and so it does
when its parameters have been renamed to fresh variables before. -/
theorem conceptsOf_instantiated {M : ConceptModel} (hfinite : M.Finitary) (hM : M.Regular)
    {i : Instance} (hi : M.instance? i.name = some i)
    (hprovides : ∀ c ∈ i.provides, M.Applies c ∧ ∀ v ∈ c.vars, ∃ p ∈ i.params, p.var = v)
    (s : Subst) (givens : List Param) :
    (∀ e, e ∈ M.conceptsOf givens (s.apply i.ty) ↔ ∃ d ∈ M.expand i.provides, s.apply d = e) ∧
      ∀ supply e,
        let fresh := ((Evidence.declared i).instantiate supply).1
        e ∈ M.conceptsOf givens (s.apply fresh.ty) ↔
          ∃ d ∈ M.expand fresh.provides, s.apply d = e := by
  have hconcepts : ∀ f e, e ∈ M.conceptsOf givens (s.apply (i.ty.subst f)) ↔
      ∃ d ∈ M.expand (i.provides.map (Ty.subst f)), s.apply d = e :=
    fun f e => hM.mem_conceptsOf_iff hfinite hi hprovides givens f s
  refine ⟨fun e => ?_, fun supply e => ?_⟩
  · have hsame := hconcepts .var e
    rwa [Ty.subst_var, List.map_congr_left fun c _ => c.subst_var, List.map_id'] at hsame
  · obtain ⟨ρ, hρ, -⟩ := Evidence.instantiate_declared i supply
    rw [hρ]
    exact hconcepts (fun v => .var (ρ v)) e

def Instance.pair : Instance :=
  ⟨"Pair", [.associated ⟨"'t"⟩, .associated ⟨"'u"⟩, .witness ⟨"'w"⟩ [.app "Less" [.var ⟨"'t"⟩]]],
    [.app "Less" [.var ⟨"'t"⟩], .app "Equal" [.var ⟨"'u"⟩]], .neither, []⟩

def Registry.paired : Registry :=
  { Registry.circular with
    instances := [.pair, ⟨"Whole", [], [.app "Sorted" [.int]], .neither, []⟩] }

theorem Registry.regular_paired : Registry.paired.model.Regular := by
  intro name c hc
  have hall : ∀ c ∈ Registry.paired.concepts, ∀ s ∈ c.supers,
      Registry.paired.model.Applies s ∧ ∀ v ∈ s.vars, v ∈ c.params := by
    decide +kernel
  exact hall c (Registry.mem_of_model_concept? hc).1

/-- Six concepts of the generic instance become three of the instance at two equal types. -/
theorem conceptsOf_instantiated_paired :
    let M := Registry.paired.model
    let s := Subst.ofList [(⟨"'t"⟩, .int), (⟨"'u"⟩, .int), (⟨"'w"⟩, .const "Whole")]
    M.Finitary ∧ M.Regular ∧ M.instance? Instance.pair.name = some .pair ∧
      (∀ c ∈ Instance.pair.provides,
        M.Applies c ∧ ∀ v ∈ c.vars, ∃ p ∈ Instance.pair.params, p.var = v) ∧
      (M.expand Instance.pair.provides).length = 6 ∧
      (M.conceptsOf [] (s.apply Instance.pair.ty)).length = 3 ∧
      ∀ e, e ∈ M.conceptsOf [] (s.apply Instance.pair.ty) ↔
        ∃ d ∈ M.expand Instance.pair.provides, s.apply d = e := by
  intro M s
  have hfinite : M.Finitary := Registry.Flat.finitary (by decide)
  have hM : M.Regular := Registry.regular_paired
  have hi : M.instance? Instance.pair.name = some .pair := rfl
  have hprovides : ∀ c ∈ Instance.pair.provides,
      M.Applies c ∧ ∀ v ∈ c.vars, ∃ p ∈ Instance.pair.params, p.var = v := by
    decide +kernel
  exact ⟨hfinite, hM, hi, hprovides, by decide +kernel, by decide +kernel,
    (conceptsOf_instantiated hfinite hM hi hprovides s []).1⟩

end ConceptResolution
