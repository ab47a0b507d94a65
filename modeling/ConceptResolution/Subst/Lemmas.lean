import ConceptResolution.Subst.Basic

namespace ConceptResolution

namespace Subst

theorem get?_eq_none_iff {s : Subst} {v : TyVar} : s.get? v = none ↔ v ∉ s.domain := by
  simp only [get?, List.lookup_eq_none_iff, domain, List.mem_map, bne_iff_ne, ne_eq]
  constructor
  · rintro h ⟨b, hb, rfl⟩
    exact h b hb rfl
  · intro h b hb hv
    exact h ⟨b, hb, hv.symm⟩

theorem get?_eq_some_iff {s : Subst} {v : TyVar} {t : Ty} :
    s.get? v = some t ↔ (v, t) ∈ s.bindings := by
  rw [get?, List.lookup_eq_some_iff]
  constructor
  · rintro ⟨l, m, h, -⟩
    simp [h]
  · intro h
    obtain ⟨l, m, hlm⟩ := List.append_of_mem h
    refine ⟨l, m, hlm, fun b hb => ?_⟩
    have hnodup := s.nodup
    rw [hlm, List.map_append, List.map_cons, List.nodup_append] at hnodup
    simpa using (hnodup.2.2 b.1 (List.mem_map_of_mem hb) v (by simp)).symm

theorem mem_domain_iff {s : Subst} {v : TyVar} : v ∈ s.domain ↔ ∃ t, s.get? v = some t := by
  simp [get?_eq_some_iff, domain]

@[simp]
theorem get?_empty (v : TyVar) : empty.get? v = none := rfl

theorem get?_single (v w : TyVar) (t : Ty) :
    (single v t).get? w = if w = v then some t else none := by
  by_cases h : w = v
  · simp [single, get?, h]
  · simp [single, get?, List.lookup_cons, h, beq_eq_false_iff_ne.2 h]

theorem get?_filter (s : Subst) (p : TyVar × Ty → Bool) (v : TyVar) :
    (s.filter p).get? v = (s.get? v).filter fun t => p (v, t) := by
  ext t
  simp [get?_eq_some_iff, filter, Option.filter_eq_some_iff]

theorem get?_mapImages (s : Subst) (f : Ty → Ty) (v : TyVar) :
    (s.mapImages f).get? v = (s.get? v).map f := by
  ext t
  simp only [get?_eq_some_iff, mapImages, List.mem_map, Prod.mk.injEq, Option.map_eq_some_iff]
  constructor
  · rintro ⟨b, hb, rfl, rfl⟩
    exact ⟨b.2, hb, rfl⟩
  · rintro ⟨u, hu, rfl⟩
    exact ⟨(v, u), hu, rfl, rfl⟩

theorem get?_override (base top : Subst) (v : TyVar) :
    (base.override top).get? v = (top.get? v).or (base.get? v) := by
  ext t
  simp only [get?_eq_some_iff, override, List.mem_append, List.mem_filter, Bool.not_eq_true',
    List.contains_eq_mem, decide_eq_false_iff_not]
  cases h : top.get? v with
  | none =>
      have hdomain := get?_eq_none_iff.1 h
      have htop : (v, t) ∉ top.bindings := fun ht => by
        rw [get?_eq_some_iff.2 ht] at h
        simp at h
      simp [htop, hdomain, get?_eq_some_iff]
  | some u =>
      have hdomain := mem_domain_iff.2 ⟨u, h⟩
      simp only [hdomain, not_true_eq_false, and_false, or_false]
      rw [← get?_eq_some_iff, h, Option.some_or]

theorem get?_insert (s : Subst) (v w : TyVar) (t : Ty) :
    (s.insert v t).get? w = if w = v then some t else s.get? w := by
  rw [insert, get?_override, get?_single]
  split <;> simp

theorem get?_insertIfNew (s : Subst) (v w : TyVar) (t : Ty) :
    (s.insertIfNew v t).get? w = (s.get? w).or (if w = v then some t else none) := by
  unfold insertIfNew
  split
  · next h =>
    obtain ⟨u, hu⟩ := Option.isSome_iff_exists.1 h
    by_cases hw : w = v <;> simp [hw, hu]
  · next h =>
    have hnone : s.bindings.lookup v = none := Option.not_isSome_iff_eq_none.1 h
    by_cases hw : w = v
    · simp [get?, hw, hnone]
    · simp [get?, List.lookup_cons, hw, beq_eq_false_iff_ne.2 hw]

theorem get?_ofList (bindings : List (TyVar × Ty)) (v : TyVar) :
    (ofList bindings).get? v = bindings.reverse.lookup v := by
  induction bindings with
  | nil => rfl
  | cons b bindings ih =>
      have hcons : ofList (b :: bindings) = (ofList bindings).insertIfNew b.1 b.2 := rfl
      rw [hcons, get?_insertIfNew, ih, List.reverse_cons, List.lookup_append, List.lookup_cons]
      by_cases h : v = b.1 <;> simp [h, beq_eq_false_iff_ne.2]

theorem lookup_of_get? {s : Subst} {v : TyVar} {t : Ty} (h : s.get? v = some t) :
    s.lookup v = t := by
  simp [lookup, h]

theorem lookup_of_notMem {s : Subst} {v : TyVar} (h : v ∉ s.domain) : s.lookup v = .var v := by
  simp [lookup, get?_eq_none_iff.2 h]

@[simp]
theorem apply_var (s : Subst) (v : TyVar) : s.apply (.var v) = s.lookup v := rfl

@[simp]
theorem apply_empty (t : Ty) : empty.apply t = t :=
  t.subst_var

theorem agrees_iff {s t : Subst} : s.agrees t = true ↔ ∀ v, s.get? v = t.get? v := by
  simp only [agrees, Bool.and_eq_true, List.all_eq_true, beq_iff_eq, Prod.forall]
  constructor
  · rintro ⟨hst, hts⟩ v
    ext u
    constructor
    · exact fun h => hst v u (get?_eq_some_iff.1 h)
    · exact fun h => hts v u (get?_eq_some_iff.1 h)
  · intro h
    constructor
    · exact fun v u hu => h v ▸ get?_eq_some_iff.2 hu
    · exact fun v u hu => (h v).symm ▸ get?_eq_some_iff.2 hu

end Subst

end ConceptResolution
