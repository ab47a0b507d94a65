import ConceptResolution.Proofs.Hierarchy
import ConceptResolution.Proofs.Unification

namespace ConceptResolution

namespace ConceptModel

variable (M : ConceptModel)

def fitsHead (name : String) (n : Nat) : Bool :=
  (M.concept? name).all fun c => c.params.length == n

mutual

/-- Whether every concept that a type mentions has as many arguments there as it declares. -/
def fits : Ty → Bool
  | .const name => M.fitsHead name 0
  | .var _ => true
  | .fn ps r => fitsAll ps && fits r
  | .app head ts => M.fitsHead head ts.length && fitsAll ts
  | .tuple ts => fitsAll ts

def fitsAll : List Ty → Bool
  | [] => true
  | t :: ts => fits t && fitsAll ts

end

/-- The superconcepts of every concept are over its parameters, and fit. -/
def Closed : Prop :=
  ∀ name c, M.concept? name = some c →
    ∀ s ∈ c.supers, M.fits s = true ∧ ∀ v ∈ s.vars, v ∈ c.params

variable {M}

theorem fitsAll_iff {ts : List Ty} : M.fitsAll ts = true ↔ ∀ t ∈ ts, M.fits t = true := by
  induction ts with
  | nil => simp [fitsAll]
  | cons t ts ih => simp [fitsAll, ih]

private theorem fitsAll_map_iff {f : TyVar → Ty} {ts : List Ty}
    (h : ∀ t ∈ ts, M.fits (t.subst f) = true ↔
      M.fits t = true ∧ ∀ v ∈ t.vars, M.fits (f v) = true) :
    M.fitsAll (ts.map (Ty.subst f)) = true ↔
      M.fitsAll ts = true ∧ ∀ v ∈ ts.flatMap Ty.vars, M.fits (f v) = true := by
  simp only [fitsAll_iff, List.mem_map, forall_exists_index, and_imp, forall_apply_eq_imp_iff₂,
    List.mem_flatMap]
  constructor
  · intro hall
    exact ⟨fun t ht => ((h t ht).1 (hall t ht)).1,
      fun v t ht hv => ((h t ht).1 (hall t ht)).2 v hv⟩
  · rintro ⟨hts, hvars⟩ t ht
    exact (h t ht).2 ⟨hts t ht, fun v hv => hvars v t ht hv⟩

theorem fits_subst_iff {f : TyVar → Ty} {t : Ty} :
    M.fits (t.subst f) = true ↔ M.fits t = true ∧ ∀ v ∈ t.vars, M.fits (f v) = true := by
  induction t with
  | const name => simp [Ty.subst, fits, Ty.vars]
  | var v => simp [Ty.subst, fits, Ty.vars]
  | fn params result hparams hresult =>
      simp only [Ty.subst, Ty.substAll_eq_map, fits, Bool.and_eq_true, fitsAll_map_iff hparams,
        hresult, Ty.vars, Ty.varsAll_eq_flatMap, List.mem_append]
      constructor
      · rintro ⟨⟨hps, hpvars⟩, hr, hrvars⟩
        exact ⟨⟨hps, hr⟩, fun v hv => hv.elim (hpvars v) (hrvars v)⟩
      · rintro ⟨⟨hps, hr⟩, hvars⟩
        exact ⟨⟨hps, fun v hv => hvars v (.inl hv)⟩, hr, fun v hv => hvars v (.inr hv)⟩
  | app head args hargs =>
      simp only [Ty.subst, Ty.substAll_eq_map, fits, Bool.and_eq_true, fitsAll_map_iff hargs,
        List.length_map, Ty.vars, Ty.varsAll_eq_flatMap, and_assoc]
  | tuple elems helems =>
      simp only [Ty.subst, Ty.substAll_eq_map, fits, fitsAll_map_iff helems, Ty.vars,
        Ty.varsAll_eq_flatMap]

theorem fits_of_mem_args {t u : Ty} (h : M.fits t = true) (hu : u ∈ t.args) : M.fits u = true := by
  cases t with
  | app head ts =>
      simp only [fits, Bool.and_eq_true, fitsAll_iff] at h
      exact h.2 u hu
  | _ => simp [Ty.args] at hu

theorem length_args_of_fits {t : Ty} {c : Concept} (h : M.fits t = true)
    (hc : M.conceptOf? t = some c) : t.args.length = c.params.length := by
  cases t with
  | const name =>
      have hname : M.concept? name = some c := hc
      simp only [fits, fitsHead, hname, Option.all_some, beq_iff_eq] at h
      exact h.symm
  | app head ts =>
      have hhead : M.concept? head = some c := hc
      simp only [fits, fitsHead, hhead, Option.all_some, Bool.and_eq_true, beq_iff_eq] at h
      exact h.1.symm
  | _ => simp [conceptOf?, Ty.head?] at hc

theorem conceptOf?_eq_some {t : Ty} {c : Concept} (h : M.conceptOf? t = some c) :
    ∃ name, M.concept? name = some c := by
  obtain ⟨name, -, hname⟩ := Option.bind_eq_some_iff.1 h
  exact ⟨name, hname⟩

theorem exists_of_mem_supers {c d : Ty} (h : d ∈ M.supers c) :
    ∃ decl, M.conceptOf? c = some decl ∧ ∃ s ∈ decl.supers,
      d = (Subst.ofList (decl.params.zip c.args)).apply s := by
  unfold supers at h
  split at h
  · next decl hdecl =>
    obtain ⟨s, hs, rfl⟩ := List.mem_map.1 h
    exact ⟨decl, hdecl, s, hs, rfl⟩
  · cases h

theorem Closed.lookup_mem_args (hM : M.Closed) {c : Ty} (hc : M.fits c = true) {decl : Concept}
    (hdecl : M.conceptOf? c = some decl) {s : Ty} (hs : s ∈ decl.supers) {w : TyVar}
    (hw : w ∈ s.vars) : (Subst.ofList (decl.params.zip c.args)).lookup w ∈ c.args := by
  obtain ⟨name, hname⟩ := conceptOf?_eq_some hdecl
  have hlength := (length_args_of_fits hc hdecl).ge
  have hget := Subst.get?_eq_some_lookup
    (Subst.mem_domain_ofList_zip hlength ((hM name decl hname s hs).2 w hw))
  exact (List.of_mem_zip (Subst.mem_of_get?_ofList hget)).2

theorem Closed.mem_vars_of_mem_supers (hM : M.Closed) {c d : Ty} (hc : M.fits c = true)
    (h : d ∈ M.supers c) {v : TyVar} (hv : v ∈ d.vars) : ∃ t ∈ c.args, v ∈ t.vars := by
  obtain ⟨decl, hdecl, s, hs, rfl⟩ := exists_of_mem_supers h
  obtain ⟨w, hw, hvw⟩ := Ty.mem_vars_subst.1 hv
  exact ⟨_, hM.lookup_mem_args hc hdecl hs hw, hvw⟩

theorem Closed.fits_of_mem_supers (hM : M.Closed) {c d : Ty} (hc : M.fits c = true)
    (h : d ∈ M.supers c) : M.fits d = true := by
  obtain ⟨decl, hdecl, s, hs, rfl⟩ := exists_of_mem_supers h
  obtain ⟨name, hname⟩ := conceptOf?_eq_some hdecl
  refine fits_subst_iff.2 ⟨(hM name decl hname s hs).1, fun w hw => ?_⟩
  exact fits_of_mem_args hc (hM.lookup_mem_args hc hdecl hs hw)

theorem conceptOf?_subst {t : Ty} {decl : Concept} (f : TyVar → Ty)
    (h : M.conceptOf? t = some decl) :
    M.conceptOf? (t.subst f) = some decl ∧ (t.subst f).args = t.args.map (Ty.subst f) := by
  obtain ⟨name, hname, hdecl⟩ := Option.bind_eq_some_iff.1 h
  obtain ⟨hhead, hargs⟩ := Ty.head?_subst f hname
  exact ⟨Option.bind_eq_some_iff.2 ⟨name, hhead, hdecl⟩, hargs⟩

theorem supers_eq_supersAt {c : Ty} {decl : Concept} (h : M.conceptOf? c = some decl) :
    M.supers c = decl.supersAt c := by
  rw [supers, h]

theorem supersAt_subst {decl : Concept} {c : Ty} {f : TyVar → Ty}
    (hargs : (c.subst f).args = c.args.map (Ty.subst f))
    (hlength : decl.params.length ≤ c.args.length)
    (hvars : ∀ s ∈ decl.supers, ∀ v ∈ s.vars, v ∈ decl.params) :
    decl.supersAt (c.subst f) = (decl.supersAt c).map (Ty.subst f) := by
  rw [Concept.supersAt, Concept.supersAt, hargs]
  exact Subst.applyAll_ofList_zip_map f hlength hvars

theorem Closed.mem_supers_subst (hM : M.Closed) {c d : Ty} (hc : M.fits c = true)
    (h : d ∈ M.supers c) (f : TyVar → Ty) : d.subst f ∈ M.supers (c.subst f) := by
  cases hdecl : M.conceptOf? c with
  | none => simp [supers, hdecl] at h
  | some decl =>
      obtain ⟨name, hname⟩ := conceptOf?_eq_some hdecl
      obtain ⟨hsubst, hargs⟩ := conceptOf?_subst f hdecl
      have hvars : ∀ s ∈ decl.supers, ∀ v ∈ s.vars, v ∈ decl.params :=
        fun s hs => (hM name decl hname s hs).2
      rw [supers_eq_supersAt hdecl] at h
      rw [supers_eq_supersAt hsubst,
        supersAt_subst hargs (length_args_of_fits hc hdecl).ge hvars]
      exact List.mem_map_of_mem h

theorem mem_vars_of_mem_args {t u : Ty} (hu : u ∈ t.args) {v : TyVar} (hv : v ∈ u.vars) :
    v ∈ t.vars := by
  cases t with
  | app head ts =>
      simp only [Ty.vars, Ty.varsAll_eq_flatMap, List.mem_flatMap]
      exact ⟨u, hu, hv⟩
  | _ => simp [Ty.args] at hu

theorem Closed.fits_of_reaches (hM : M.Closed) {c d : Ty} (hc : M.fits c = true)
    (h : M.Reaches c d) : M.fits d = true := by
  induction h with
  | refl => exact hc
  | tail _ hstep ih => exact hM.fits_of_mem_supers ih hstep

theorem Closed.mem_vars_of_reaches (hM : M.Closed) {c d : Ty} (hc : M.fits c = true)
    (h : M.Reaches c d) {v : TyVar} (hv : v ∈ d.vars) : v ∈ c.vars := by
  induction h with
  | refl => exact hv
  | tail hreach hstep ih =>
      obtain ⟨t, ht, hvt⟩ := hM.mem_vars_of_mem_supers (hM.fits_of_reaches hc hreach) hstep hv
      exact ih (mem_vars_of_mem_args ht hvt)

theorem Closed.reaches_subst (hM : M.Closed) {c d : Ty} (hc : M.fits c = true)
    (h : M.Reaches c d) (f : TyVar → Ty) : M.Reaches (c.subst f) (d.subst f) := by
  induction h with
  | refl => exact .refl
  | tail hreach hstep ih =>
      exact ih.tail (hM.mem_supers_subst (hM.fits_of_reaches hc hreach) hstep f)

theorem Closed.mem_expand_subst (hM : M.Closed) (hfinite : M.Finitary) {cs : List Ty} {d : Ty}
    (hcs : ∀ c ∈ cs, M.fits c = true) (h : d ∈ M.expand cs) (f : TyVar → Ty) :
    d.subst f ∈ M.expand (cs.map (Ty.subst f)) := by
  obtain ⟨c, hc, hreach⟩ := reaches_of_mem_expand h
  exact hfinite.mem_expand_iff.2
    ⟨c.subst f, List.mem_map_of_mem hc, hM.reaches_subst (hcs c hc) hreach f⟩

end ConceptModel

theorem Registry.mem_of_model_concept? {r : Registry} {name : String} {c : Concept}
    (h : r.model.concept? name = some c) : c ∈ r.concepts ∧ c.name = name := by
  rw [r.model_concept?] at h
  exact ⟨List.mem_of_find?_eq_some h, by simpa using List.find?_some h⟩

theorem Registry.mem_of_conceptOf? {r : Registry} {t : Ty} {c : Concept}
    (h : r.model.conceptOf? t = some c) : c ∈ r.concepts ∧ t.head? = some c.name := by
  obtain ⟨name, hname, hc⟩ := Option.bind_eq_some_iff.1 h
  obtain ⟨hmem, rfl⟩ := mem_of_model_concept? hc
  exact ⟨hmem, hname⟩

variable {M : ConceptModel}

theorem fits_of_partsOf {t u : Ty} {pairs : List (Ty × Ty)} (h : partsOf t u = .ok pairs)
    (ht : M.fits t = true) (hu : M.fits u = true) {pair : Ty × Ty} (hpair : pair ∈ pairs) :
    M.fits pair.1 = true ∧ M.fits pair.2 = true := by
  have hzip : ∀ {ts us : List Ty}, (∀ a ∈ ts, M.fits a = true) → (∀ a ∈ us, M.fits a = true) →
      pair ∈ ts.zip us → M.fits pair.1 = true ∧ M.fits pair.2 = true := fun hts hus hmem =>
    (List.of_mem_zip hmem).imp (hts _) (hus _)
  cases alike_of_partsOf h with
  | const name => cases hpair
  | app head hlength =>
      simp only [ConceptModel.fits, Bool.and_eq_true, ConceptModel.fitsAll_iff] at ht hu
      exact hzip ht.2 hu.2 hpair
  | fn p q hlength =>
      simp only [ConceptModel.fits, Bool.and_eq_true, ConceptModel.fitsAll_iff] at ht hu
      rcases List.mem_append.1 hpair with hpair | hpair
      · exact hzip ht.1 hu.1 hpair
      · cases List.mem_singleton.1 hpair
        exact ⟨ht.2, hu.2⟩
  | tuple hlength =>
      simp only [ConceptModel.fits, ConceptModel.fitsAll_iff] at ht hu
      exact hzip ht hu hpair

/-- Every image fits. -/
def Subst.Fits (M : ConceptModel) (s : Subst) : Prop :=
  ∀ v, M.fits (s.lookup v) = true

theorem Subst.fits_empty : Subst.empty.Fits M :=
  fun _ => rfl

theorem Subst.Fits.apply {s : Subst} (hs : s.Fits M) {t : Ty} (ht : M.fits t = true) :
    M.fits (s.apply t) = true :=
  ConceptModel.fits_subst_iff.2 ⟨ht, fun v _ => hs v⟩

theorem Unifies.fits {rigid : List TyVar} {pairs : List (Ty × Ty)} {s s' : Subst}
    (h : Unifies rigid pairs s s') (hs : s.Idempotent) (hfits : s.Fits M)
    (hpairs : ∀ pair ∈ pairs, M.fits pair.1 = true ∧ M.fits pair.2 = true) : s'.Fits M := by
  induction h with
  | done s => exact hfits
  | same _ _ ih => exact ih hs hfits (List.forall_mem_cons.1 hpairs).2
  | @bind p r t v rest s s' h _ hoccurs _ ih =>
      obtain ⟨⟨hp, hr⟩, hpairs⟩ := List.forall_mem_cons.1 hpairs
      have hsingle := Subst.idempotent_single hoccurs
      have hfix := untouched_of_bind hs h
      refine ih (Subst.idempotent_compose hsingle hs hfix) (fun w => ?_) hpairs
      have ht : M.fits t = true := by
        rcases h with ⟨-, rfl⟩ | ⟨rfl, -⟩
        · exact hfits.apply hr
        · exact hfits.apply hp
      rw [Subst.lookup_compose hsingle hs hfix]
      refine Subst.Fits.apply (fun u => ?_) (hfits w)
      rw [Subst.lookup_single]
      split
      · exact ht
      · rfl
  | parts h _ ih =>
      obtain ⟨⟨hp, hr⟩, hpairs⟩ := List.forall_mem_cons.1 hpairs
      refine ih hs hfits fun pair hpair => ?_
      rcases List.mem_append.1 hpair with hpair | hpair
      · exact fits_of_partsOf h (hfits.apply hp) (hfits.apply hr) hpair
      · exact hpairs pair hpair

end ConceptResolution
