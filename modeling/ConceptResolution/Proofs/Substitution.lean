import ConceptResolution.Subst.Compose
import ConceptResolution.Subst.Lemmas

namespace ConceptResolution

namespace Ty

theorem mem_vars_subst {f : TyVar → Ty} {t : Ty} {w : TyVar} :
    w ∈ (t.subst f).vars ↔ ∃ v ∈ t.vars, w ∈ (f v).vars := by
  induction t with
  | const name => simp [subst, vars]
  | var v => simp [subst, vars]
  | fn params result hparams hresult =>
      simp only [subst, vars, substAll_eq_map, varsAll_eq_flatMap, List.flatMap_map,
        List.mem_append,
        List.mem_flatMap, hresult]
      constructor
      · rintro (⟨t, ht, hw⟩ | ⟨v, hv, hw⟩)
        · obtain ⟨v, hv, hvw⟩ := (hparams t ht).1 hw
          exact ⟨v, .inl ⟨t, ht, hv⟩, hvw⟩
        · exact ⟨v, .inr hv, hw⟩
      · rintro ⟨v, ⟨t, ht, hv⟩ | hv, hw⟩
        · exact .inl ⟨t, ht, (hparams t ht).2 ⟨v, hv, hw⟩⟩
        · exact .inr ⟨v, hv, hw⟩
  | app head args hargs =>
      simp only [subst, vars, substAll_eq_map, varsAll_eq_flatMap, List.flatMap_map,
        List.mem_flatMap]
      constructor
      · rintro ⟨t, ht, hw⟩
        obtain ⟨v, hv, hvw⟩ := (hargs t ht).1 hw
        exact ⟨v, ⟨t, ht, hv⟩, hvw⟩
      · rintro ⟨v, ⟨t, ht, hv⟩, hw⟩
        exact ⟨t, ht, (hargs t ht).2 ⟨v, hv, hw⟩⟩
  | tuple elems helems =>
      simp only [subst, vars, substAll_eq_map, varsAll_eq_flatMap, List.flatMap_map,
        List.mem_flatMap]
      constructor
      · rintro ⟨t, ht, hw⟩
        obtain ⟨v, hv, hvw⟩ := (helems t ht).1 hw
        exact ⟨v, ⟨t, ht, hv⟩, hvw⟩
      · rintro ⟨v, ⟨t, ht, hv⟩, hw⟩
        exact ⟨t, ht, (helems t ht).2 ⟨v, hv, hw⟩⟩

theorem mem_varsAll_iff {ts : List Ty} {v : TyVar} : v ∈ varsAll ts ↔ ∃ t ∈ ts, v ∈ t.vars := by
  rw [varsAll_eq_flatMap, List.mem_flatMap]

theorem head?_subst {t : Ty} {name : String} (f : TyVar → Ty) (h : t.head? = some name) :
    (t.subst f).head? = some name ∧ (t.subst f).args = t.args.map (subst f) := by
  cases t with
  | const n => exact ⟨h, rfl⟩
  | app head ts => exact ⟨h, substAll_eq_map f ts⟩
  | _ => cases h

theorem subst_eq_subst_iff {f g : TyVar → Ty} {t : Ty} :
    t.subst f = t.subst g ↔ ∀ v ∈ t.vars, f v = g v := by
  constructor
  · intro h
    induction t with
    | const name => simp [vars]
    | var v => simpa [vars, subst] using h
    | fn params result hparams hresult =>
        simp only [subst, substAll_eq_map, fn.injEq, List.map_inj_left] at h
        simp only [vars, varsAll_eq_flatMap, List.mem_append, List.mem_flatMap]
        rintro v (⟨t, ht, hv⟩ | hv)
        · exact hparams t ht (h.1 t ht) v hv
        · exact hresult h.2 v hv
    | app head args hargs =>
        simp only [subst, substAll_eq_map, app.injEq, true_and, List.map_inj_left] at h
        simp only [vars, varsAll_eq_flatMap, List.mem_flatMap]
        rintro v ⟨t, ht, hv⟩
        exact hargs t ht (h t ht) v hv
    | tuple elems helems =>
        simp only [subst, substAll_eq_map, tuple.injEq, List.map_inj_left] at h
        simp only [vars, varsAll_eq_flatMap, List.mem_flatMap]
        rintro v ⟨t, ht, hv⟩
        exact helems t ht (h t ht) v hv
  · exact subst_congr

theorem subst_eq_self_iff {f : TyVar → Ty} {t : Ty} :
    t.subst f = t ↔ ∀ v ∈ t.vars, f v = .var v := by
  rw [← subst_eq_subst_iff, subst_var]

end Ty

namespace Subst

/-- A substitution speaks of the variables it binds and of those in their images. -/
def Occurs (s : Subst) (v : TyVar) : Prop :=
  v ∈ s.domain ∨ ∃ w t, s.get? w = some t ∧ v ∈ t.vars

def Idempotent (s : Subst) : Prop :=
  ∀ t, s.apply (s.apply t) = s.apply t

def Solved (s : Subst) : Prop :=
  ∀ v t, s.get? v = some t → ∀ w ∈ t.vars, w ∉ s.domain

/-- What an earlier substitution has decided stands under a later one. -/
def Extends (later earlier : Subst) : Prop :=
  ∀ t, later.apply (earlier.apply t) = later.apply t

theorem apply_apply (outer inner : Subst) (t : Ty) :
    outer.apply (inner.apply t) = t.subst fun v => outer.apply (inner.lookup v) :=
  t.subst_subst inner.lookup outer.lookup

theorem apply_eq_self_iff {s : Subst} {t : Ty} :
    s.apply t = t ↔ ∀ v ∈ t.vars, s.lookup v = .var v :=
  Ty.subst_eq_self_iff

theorem get?_eq_some_lookup {s : Subst} {v : TyVar} (h : v ∈ s.domain) :
    s.get? v = some (s.lookup v) := by
  obtain ⟨t, ht⟩ := mem_domain_iff.1 h
  rw [ht, lookup_of_get? ht]

theorem lookup_of_not_occurs {s : Subst} {v : TyVar} (h : ¬s.Occurs v) : s.lookup v = .var v :=
  lookup_of_notMem fun hv => h (.inl hv)

theorem eq_or_occurs_of_mem_vars_lookup {s : Subst} {v w : TyVar} (h : w ∈ (s.lookup v).vars) :
    w = v ∨ s.Occurs w := by
  cases hv : s.get? v with
  | none =>
      rw [lookup, hv] at h
      exact .inl (by simpa [Ty.vars] using h)
  | some t => exact .inr (.inr ⟨v, t, hv, lookup_of_get? hv ▸ h⟩)

theorem mem_vars_or_occurs_of_mem_vars_apply {s : Subst} {t : Ty} {w : TyVar}
    (h : w ∈ (s.apply t).vars) : w ∈ t.vars ∨ s.Occurs w := by
  obtain ⟨v, hv, hw⟩ := Ty.mem_vars_subst.1 h
  rcases eq_or_occurs_of_mem_vars_lookup hw with rfl | hw
  · exact .inl hv
  · exact .inr hw

theorem idempotent_iff {s : Subst} :
    s.Idempotent ↔ ∀ v, ∀ w ∈ (s.lookup v).vars, s.lookup w = .var w := by
  constructor
  · intro h v
    exact apply_eq_self_iff.1 (h (.var v))
  · intro h t
    rw [apply_apply]
    exact Ty.subst_congr fun v _ => apply_eq_self_iff.2 (h v)

theorem Idempotent.apply_lookup {s : Subst} (h : s.Idempotent) (v : TyVar) :
    s.apply (s.lookup v) = s.lookup v :=
  h (.var v)

theorem Idempotent.lookup_of_mem_vars_apply {s : Subst} (h : s.Idempotent) {t : Ty} {w : TyVar}
    (hw : w ∈ (s.apply t).vars) : s.lookup w = .var w :=
  apply_eq_self_iff.1 (h t) w hw

theorem idempotent_empty : empty.Idempotent := by
  intro t
  simp

theorem not_occurs_empty (v : TyVar) : ¬empty.Occurs v := by
  rintro (hv | ⟨w, t, hw, -⟩)
  · simp [domain, empty] at hv
  · simp at hw

theorem Extends.refl {s : Subst} (h : s.Idempotent) : s.Extends s := h

theorem Extends.trans {s s' s'' : Subst} (h' : s''.Extends s') (h : s'.Extends s) :
    s''.Extends s := by
  intro t
  rw [← h' (s.apply t), h t, h' t]

theorem solved_iff {s : Subst} : s.Solved ↔ s.Idempotent ∧ ∀ v, s.get? v ≠ some (.var v) := by
  constructor
  · intro h
    refine ⟨idempotent_iff.2 fun v w hw => ?_, fun v hv => ?_⟩
    · cases hv : s.get? v with
      | none =>
          have hlookup : s.lookup v = .var v := lookup_of_notMem (get?_eq_none_iff.1 hv)
          rw [hlookup] at hw
          rw [show w = v by simpa [Ty.vars] using hw, hlookup]
      | some t => exact lookup_of_notMem (h v t hv w (lookup_of_get? hv ▸ hw))
    · exact h v (.var v) hv v (by simp [Ty.vars]) (mem_domain_iff.2 ⟨_, hv⟩)
  · rintro ⟨hidem, htrivial⟩ v t hv w hw hdomain
    have hfix : s.lookup w = .var w := idempotent_iff.1 hidem v w (lookup_of_get? hv ▸ hw)
    exact htrivial w (hfix ▸ get?_eq_some_lookup hdomain)

theorem lookup_dropTrivial (s : Subst) (v : TyVar) : s.dropTrivial.lookup v = s.lookup v := by
  rw [lookup, lookup, dropTrivial, get?_filter]
  cases s.get? v with
  | none => rfl
  | some t =>
      rcases Decidable.em (t = .var v) with rfl | ht
      · simp [Option.filter]
      · simp [Option.filter, ht]

theorem get?_dropTrivial_ne (s : Subst) (v : TyVar) : s.dropTrivial.get? v ≠ some (.var v) := by
  rw [dropTrivial, get?_filter]
  intro h
  simpa using Option.filter_eq_some_iff.1 h

theorem Idempotent.selfApply_eq_self {s : Subst} (h : s.Idempotent) : s.selfApply = s := by
  refine selfApply_eq_of_bindings_eq ?_
  rw [selfApply_eq]
  refine (List.map_congr_left fun b hb => ?_).trans (List.map_id _)
  have hb' : s.get? b.1 = some b.2 := get?_eq_some_iff.2 hb
  exact Prod.ext rfl ((lookup_of_get? hb').symm ▸ h.apply_lookup b.1)

theorem Idempotent.settle_eq_self {s : Subst} (h : s.Idempotent) (n : Nat) : settle n s = s := by
  cases n with
  | zero => rfl
  | succ n => rw [settle, if_pos (by rw [h.selfApply_eq_self])]

theorem Idempotent.lookup_normalize {s : Subst} (h : s.Idempotent) (v : TyVar) :
    s.normalize.lookup v = s.lookup v := by
  have hdrop : s.dropTrivial.Idempotent := by
    refine idempotent_iff.2 fun u w hw => ?_
    rw [lookup_dropTrivial] at hw ⊢
    exact idempotent_iff.1 h u w hw
  rw [normalize, lookup_dropTrivial, hdrop.settle_eq_self, lookup_dropTrivial]

/-- What a substitution binds is in `D`, and what its images mention is in `V`. -/
def Within (D V : TyVar → Prop) (s : Subst) : Prop :=
  ∀ v t, s.get? v = some t → D v ∧ ∀ w ∈ t.vars, V w

theorem within_occurs (s : Subst) : s.Within s.Occurs s.Occurs := by
  intro v t hv
  exact ⟨.inl (mem_domain_iff.2 ⟨t, hv⟩), fun w hw => .inr ⟨v, t, hv, hw⟩⟩

section Within

variable {D V : TyVar → Prop} {s s' outer inner : Subst} {v : TyVar} {t : Ty}

theorem within_empty : empty.Within D V := by
  intro v t hv
  rw [get?_empty] at hv
  cases hv

theorem within_single (hv : D v) (ht : ∀ w ∈ t.vars, V w) : (single v t).Within D V := by
  intro w u hu
  rw [get?_single] at hu
  split at hu
  · next heq =>
    cases hu
    exact ⟨heq ▸ hv, ht⟩
  · cases hu

theorem Within.insert (h : s.Within D V) (hv : D v) (ht : ∀ w ∈ t.vars, V w) :
    (s.insert v t).Within D V := by
  intro w u hu
  rw [get?_insert] at hu
  split at hu
  · next heq =>
    cases hu
    exact ⟨heq ▸ hv, ht⟩
  · exact h w u hu

theorem Within.mono {D' V' : TyVar → Prop} (h : s.Within D V) (hD : ∀ v, D v → D' v)
    (hV : ∀ v, V v → V' v) : s.Within D' V' := by
  intro v t hv
  exact ⟨hD v (h v t hv).1, fun w hw => hV w ((h v t hv).2 w hw)⟩

theorem Within.of_mem_domain (h : s.Within D V) {v : TyVar} (hv : v ∈ s.domain) : D v := by
  obtain ⟨t, ht⟩ := mem_domain_iff.1 hv
  exact (h v t ht).1

theorem Within.of_occurs (h : s.Within V V) {v : TyVar} (hv : s.Occurs v) : V v := by
  rcases hv with hv | ⟨w, t, hw, hv⟩
  · exact h.of_mem_domain hv
  · exact (h w t hw).2 v hv

theorem Within.of_mem_vars_apply (h : s.Within D V) {t : Ty} (ht : ∀ v ∈ t.vars, V v) :
    ∀ v ∈ (s.apply t).vars, V v := by
  intro v hv
  obtain ⟨u, hu, hvu⟩ := Ty.mem_vars_subst.1 hv
  cases hget : s.get? u with
  | none =>
      rw [lookup_of_notMem (get?_eq_none_iff.1 hget)] at hvu
      rw [show v = u by simpa [Ty.vars] using hvu]
      exact ht u hu
  | some t => exact (h u t hget).2 v (lookup_of_get? hget ▸ hvu)

theorem Within.dropTrivial (h : s.Within D V) : s.dropTrivial.Within D V := by
  intro v t hv
  rw [Subst.dropTrivial, get?_filter] at hv
  exact h v t (Option.filter_eq_some_iff.1 hv).1

theorem Within.mapImages (h : s.Within D V) (h' : s'.Within D V) :
    (s.mapImages s'.apply).Within D V := by
  intro v t hv
  rw [get?_mapImages] at hv
  obtain ⟨u, hu, rfl⟩ := Option.map_eq_some_iff.1 hv
  exact ⟨(h v u hu).1, h'.of_mem_vars_apply (h v u hu).2⟩

theorem Within.override (h : s.Within D V) (h' : s'.Within D V) : (s.override s').Within D V := by
  intro v t hv
  rw [get?_override, Option.or_eq_some_iff] at hv
  rcases hv with hv | ⟨-, hv⟩
  · exact h' v t hv
  · exact h v t hv

theorem Within.settle {n : Nat} (h : s.Within D V) : (settle n s).Within D V := by
  induction n generalizing s with
  | zero => exact h
  | succ n ih =>
      rw [Subst.settle]
      split
      · exact h
      · rw [selfApply_eq]
        exact ih (h.mapImages h)

theorem Within.compose (houter : outer.Within D V) (hinner : inner.Within D V) :
    (outer.compose inner).Within D V :=
  ((hinner.mapImages houter).override houter).dropTrivial.settle.dropTrivial

theorem Occurs.of_compose {v : TyVar} (h : (outer.compose inner).Occurs v) :
    outer.Occurs v ∨ inner.Occurs v := by
  let V : TyVar → Prop := fun v => outer.Occurs v ∨ inner.Occurs v
  have houter : outer.Within V V := outer.within_occurs.mono (fun _ => .inl) fun _ => .inl
  have hinner : inner.Within V V := inner.within_occurs.mono (fun _ => .inr) fun _ => .inr
  exact (houter.compose hinner).of_occurs h

theorem mem_domain_of_compose {v : TyVar} (h : v ∈ (outer.compose inner).domain) :
    v ∈ outer.domain ∨ v ∈ inner.domain := by
  let D : TyVar → Prop := fun v => v ∈ outer.domain ∨ v ∈ inner.domain
  have houter : outer.Within D fun _ => True :=
    fun v t hv => ⟨.inl (mem_domain_iff.2 ⟨t, hv⟩), fun _ _ => trivial⟩
  have hinner : inner.Within D fun _ => True :=
    fun v t hv => ⟨.inr (mem_domain_iff.2 ⟨t, hv⟩), fun _ _ => trivial⟩
  exact (houter.compose hinner).of_mem_domain h

end Within

/-- The variables that one substitution speaks of stand for themselves under another one. -/
def Untouched (outer inner : Subst) : Prop :=
  ∀ v, outer.Occurs v → inner.lookup v = .var v

theorem Untouched.apply_apply_apply {outer inner : Subst} (hfix : outer.Untouched inner)
    (hinner : inner.Idempotent) (t : Ty) :
    inner.apply (outer.apply (inner.apply t)) = outer.apply (inner.apply t) := by
  refine apply_eq_self_iff.2 fun v hv => ?_
  rcases mem_vars_or_occurs_of_mem_vars_apply hv with hv | hv
  · exact hinner.lookup_of_mem_vars_apply hv
  · exact hfix v hv

theorem lookup_compose {outer inner : Subst} (houter : outer.Idempotent)
    (hinner : inner.Idempotent) (hfix : outer.Untouched inner) (v : TyVar) :
    (outer.compose inner).lookup v = outer.apply (inner.lookup v) := by
  have hraw : ∀ w, ((inner.mapImages outer.apply).override outer).lookup w =
      outer.apply (inner.lookup w) := by
    intro w
    rw [lookup, get?_override, get?_mapImages]
    cases hw : outer.get? w with
    | none =>
        cases hw' : inner.get? w with
        | none => simp [lookup, hw, hw']
        | some t => simp [lookup, hw']
    | some t =>
        rw [hfix w (.inl (mem_domain_iff.2 ⟨t, hw⟩))]
        simp [lookup_of_get? hw]
  have hidem : ((inner.mapImages outer.apply).override outer).Idempotent := by
    refine idempotent_iff.2 fun u w hw => ?_
    rw [hraw] at hw ⊢
    have hinnerw : inner.lookup w = .var w :=
      apply_eq_self_iff.1 (hfix.apply_apply_apply hinner (.var u)) w hw
    rw [hinnerw]
    exact houter.lookup_of_mem_vars_apply hw
  exact (hidem.lookup_normalize v).trans (hraw v)

theorem apply_compose {outer inner : Subst} (houter : outer.Idempotent)
    (hinner : inner.Idempotent) (hfix : outer.Untouched inner) (t : Ty) :
    (outer.compose inner).apply t = outer.apply (inner.apply t) := by
  rw [apply_apply]
  exact Ty.subst_congr fun v _ => lookup_compose houter hinner hfix v

theorem idempotent_compose {outer inner : Subst} (houter : outer.Idempotent)
    (hinner : inner.Idempotent) (hfix : outer.Untouched inner) :
    (outer.compose inner).Idempotent := by
  intro t
  rw [apply_compose houter hinner hfix, apply_compose houter hinner hfix,
    hfix.apply_apply_apply hinner, houter]

theorem extends_compose {outer inner : Subst} (houter : outer.Idempotent)
    (hinner : inner.Idempotent) (hfix : outer.Untouched inner) :
    (outer.compose inner).Extends inner := by
  intro t
  rw [apply_compose houter hinner hfix, apply_compose houter hinner hfix, hinner]

theorem solved_compose {outer inner : Subst} (houter : outer.Idempotent)
    (hinner : inner.Idempotent) (hfix : outer.Untouched inner) : (outer.compose inner).Solved :=
  solved_iff.2 ⟨idempotent_compose houter hinner hfix, get?_dropTrivial_ne _⟩

theorem lookup_single (v w : TyVar) (t : Ty) :
    (single v t).lookup w = if w = v then t else .var w := by
  rw [lookup, get?_single]
  split <;> rfl

theorem lookup_single_of_ne {v w : TyVar} (t : Ty) (h : w ≠ v) :
    (single v t).lookup w = .var w := by
  rw [lookup_single, if_neg h]

theorem occurs_single_iff {v w : TyVar} {t : Ty} : (single v t).Occurs w ↔ w = v ∨ w ∈ t.vars := by
  constructor
  · rintro (hw | ⟨u, t', hu, hw⟩)
    · exact .inl (by simpa [domain, single] using hw)
    · rw [get?_single] at hu
      split at hu
      · exact .inr (Option.some.inj hu ▸ hw)
      · cases hu
  · rintro (rfl | hw)
    · exact .inl (by simp [domain, single])
    · exact .inr ⟨v, t, by simp [get?_single], hw⟩

theorem apply_single_of_notMem {v : TyVar} {t u : Ty} (h : v ∉ u.vars) :
    (single v t).apply u = u := by
  refine apply_eq_self_iff.2 fun w hw => lookup_single_of_ne t ?_
  rintro rfl
  exact h hw

theorem idempotent_single {v : TyVar} {t : Ty} (h : v ∉ t.vars) : (single v t).Idempotent := by
  refine idempotent_iff.2 fun u w hw => ?_
  rw [lookup_single] at hw
  split at hw
  · exact lookup_single_of_ne t fun hwv => h (hwv ▸ hw)
  · next huv =>
    rw [show w = u by simpa [Ty.vars] using hw]
    exact lookup_single_of_ne t huv

theorem mem_of_get?_ofList {bindings : List (TyVar × Ty)} {v : TyVar} {t : Ty}
    (h : (ofList bindings).get? v = some t) : (v, t) ∈ bindings := by
  rw [get?_ofList, List.lookup_eq_some_iff] at h
  obtain ⟨before, after, h, -⟩ := h
  have hmem : (v, t) ∈ bindings.reverse := by simp [h]
  exact List.mem_reverse.1 hmem

theorem mem_domain_ofList {bindings : List (TyVar × Ty)} {v : TyVar}
    (h : v ∈ bindings.map Prod.fst) : v ∈ (ofList bindings).domain := by
  refine Decidable.byContradiction fun hnot => ?_
  rw [← get?_eq_none_iff, get?_ofList, List.lookup_eq_none_iff] at hnot
  obtain ⟨b, hb, rfl⟩ := List.mem_map.1 h
  simpa using hnot b (List.mem_reverse.2 hb)

theorem get?_ofList_zip_map (vs : List TyVar) (ts : List Ty) (f : Ty → Ty) (v : TyVar) :
    (ofList (vs.zip (ts.map f))).get? v = ((ofList (vs.zip ts)).get? v).map f := by
  rw [get?_ofList, get?_ofList, List.zip_map_right, ← List.map_reverse]
  induction (vs.zip ts).reverse with
  | nil => rfl
  | cons b bs ih =>
      rw [List.map_cons, List.lookup_cons, List.lookup_cons, ih]
      cases hv : v == b.1 <;> simp [hv]

theorem apply_ofList_zip_map {vs : List TyVar} {ts : List Ty} {f : TyVar → Ty} {t : Ty}
    (h : ∀ v ∈ t.vars, v ∈ (ofList (vs.zip ts)).domain ∨ f v = .var v) :
    (ofList (vs.zip (ts.map (Ty.subst f)))).apply t = ((ofList (vs.zip ts)).apply t).subst f := by
  rw [apply, apply, Ty.subst_subst]
  refine Ty.subst_congr fun v hv => ?_
  rw [lookup, lookup, get?_ofList_zip_map]
  cases hget : (ofList (vs.zip ts)).get? v with
  | some u => rfl
  | none =>
      rcases h v hv with hdomain | hf
      · exact absurd hdomain (get?_eq_none_iff.1 hget)
      · exact hf.symm

theorem mem_domain_ofList_zip {vs : List TyVar} {ts : List Ty} (h : vs.length ≤ ts.length)
    {v : TyVar} (hv : v ∈ vs) : v ∈ (ofList (vs.zip ts)).domain := by
  refine mem_domain_ofList ?_
  rwa [List.map_fst_zip h]

theorem applyAll_ofList_zip_map {vs : List TyVar} {ts us : List Ty} (f : TyVar → Ty)
    (hlength : vs.length ≤ ts.length) (hvars : ∀ u ∈ us, ∀ v ∈ u.vars, v ∈ vs) :
    (ofList (vs.zip (ts.map (Ty.subst f)))).applyAll us =
      ((ofList (vs.zip ts)).applyAll us).map (Ty.subst f) := by
  rw [applyAll, applyAll, List.map_map]
  exact List.map_congr_left fun u hu => apply_ofList_zip_map fun v hv =>
    .inl (mem_domain_ofList_zip hlength (hvars u hu v hv))

theorem lookup_ofList_zip_map {vs : List TyVar} (f : TyVar → Ty) {v : TyVar} (hv : v ∈ vs) :
    (ofList (vs.zip (vs.map f))).lookup v = f v := by
  have hlength : vs.length ≤ (vs.map f).length := List.length_map f ▸ Nat.le_refl _
  obtain ⟨t, ht⟩ := mem_domain_iff.1 (mem_domain_ofList_zip hlength hv)
  have hmem := mem_of_get?_ofList ht
  rw [← List.map_prod_left_eq_zip, List.mem_map] at hmem
  obtain ⟨w, -, heq⟩ := hmem
  cases heq
  exact lookup_of_get? ht

end Subst

end ConceptResolution
