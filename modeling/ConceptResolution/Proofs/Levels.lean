import ConceptResolution.Proofs.Unification
import Mathlib.Algebra.Group.Nat.Defs
import Mathlib.Data.Finset.Card
import Mathlib.Data.Finset.Dedup

/-!
Unification under an idempotent substitution comes to an end before its levels are used up. What it
works on may grow from one level to the next, since what has been bound is filled in; but it grows
only when a variable is bound, then at most to twice the height, and there are only so many
variables.
-/

namespace ConceptResolution

/-- Unification has come to an end, with a substitution or with a reason why there is none. -/
def Finished (result : Except UnifyError Subst) : Prop :=
  ∀ t u, result ≠ .error (.cyclic t u)

namespace Ty

theorem height_pos (t : Ty) : 0 < t.height := by
  cases t <;> simp [height]

theorem heightAll_le_iff {ts : List Ty} {n : Nat} :
    heightAll ts ≤ n ↔ ∀ t ∈ ts, t.height ≤ n := by
  induction ts with
  | nil => simp [heightAll]
  | cons t ts ih => simp [heightAll, ih]

theorem height_le_heightAll {ts : List Ty} {t : Ty} (h : t ∈ ts) : t.height ≤ heightAll ts :=
  heightAll_le_iff.1 (Nat.le_refl _) t h

private theorem heightAll_map_subst_le {f : TyVar → Ty} {n : Nat} {ts : List Ty}
    (h : ∀ t ∈ ts, (t.subst f).height ≤ t.height + n) :
    heightAll (ts.map (subst f)) ≤ heightAll ts + n := by
  rw [heightAll_le_iff]
  intro u hu
  obtain ⟨t, ht, rfl⟩ := List.mem_map.1 hu
  exact (h t ht).trans (Nat.add_le_add_right (height_le_heightAll ht) n)

theorem height_subst_le {f : TyVar → Ty} {n : Nat} (hf : ∀ v, (f v).height ≤ n + 1) (t : Ty) :
    (t.subst f).height ≤ t.height + n := by
  induction t with
  | const name => simp [subst, height]
  | var v => simpa [subst, height, Nat.add_comm] using hf v
  | fn params result hparams hresult =>
      have hall := heightAll_map_subst_le hparams
      simp only [subst, substAll_eq_map, height]
      omega
  | app head args hargs =>
      have hall := heightAll_map_subst_le hargs
      simp only [subst, substAll_eq_map, height]
      omega
  | tuple elems helems =>
      have hall := heightAll_map_subst_le helems
      simp only [subst, substAll_eq_map, height]
      omega

end Ty

theorem height_lt_of_partsOf {t u : Ty} {pairs : List (Ty × Ty)} (h : partsOf t u = .ok pairs)
    {pair : Ty × Ty} (hpair : pair ∈ pairs) :
    pair.1.height < t.height ∧ pair.2.height < u.height := by
  have hzip : ∀ {ts us : List Ty}, pair ∈ ts.zip us →
      pair.1.height ≤ Ty.heightAll ts ∧ pair.2.height ≤ Ty.heightAll us := fun hmem =>
    (List.of_mem_zip hmem).imp Ty.height_le_heightAll Ty.height_le_heightAll
  cases alike_of_partsOf h with
  | const name => cases hpair
  | app head hlength => exact (hzip hpair).imp Nat.lt_succ_of_le Nat.lt_succ_of_le
  | fn p q hlength =>
      simp only [Ty.height]
      rcases List.mem_append.1 hpair with hpair | hpair
      · obtain ⟨ht, hu⟩ := hzip hpair
        omega
      · rw [List.mem_singleton.1 hpair]
        dsimp only
        omega
  | tuple hlength => exact (hzip hpair).imp Nat.lt_succ_of_le Nat.lt_succ_of_le

section Parts

variable {s : Subst} {p r : Ty} {pairs : List (Ty × Ty)} {pair : Ty × Ty}

theorem mem_of_mem_vars_partsOf {V : Finset TyVar} (hspoken : ∀ v, s.Occurs v → v ∈ V)
    (hp : ∀ v ∈ p.vars, v ∈ V) (hr : ∀ v ∈ r.vars, v ∈ V)
    (h : partsOf (s.apply p) (s.apply r) = .ok pairs) (hpair : pair ∈ pairs) :
    (∀ v ∈ pair.1.vars, v ∈ V) ∧ ∀ v ∈ pair.2.vars, v ∈ V := by
  obtain ⟨hleft, hright⟩ := mem_of_partsOf h hpair
  exact ⟨fun v hv =>
      (Subst.mem_vars_or_occurs_of_mem_vars_apply (hleft v hv)).elim (hp v) (hspoken v),
    fun v hv => (Subst.mem_vars_or_occurs_of_mem_vars_apply (hright v hv)).elim (hr v) (hspoken v)⟩

theorem apply_eq_self_of_partsOf (hs : s.Idempotent)
    (h : partsOf (s.apply p) (s.apply r) = .ok pairs) (hpair : pair ∈ pairs) :
    s.apply pair.1 = pair.1 ∧ s.apply pair.2 = pair.2 := by
  obtain ⟨hleft, hright⟩ := mem_of_partsOf h hpair
  exact ⟨Subst.apply_eq_self_iff.2 fun v hv => hs.lookup_of_mem_vars_apply (hleft v hv),
    Subst.apply_eq_self_iff.2 fun v hv => hs.lookup_of_mem_vars_apply (hright v hv)⟩

theorem height_apply_lt_of_partsOf (hs : s.Idempotent)
    (h : partsOf (s.apply p) (s.apply r) = .ok pairs) (hpair : pair ∈ pairs) :
    (s.apply pair.1).height < (s.apply p).height ∧
      (s.apply pair.2).height < (s.apply r).height := by
  obtain ⟨hleft, hright⟩ := apply_eq_self_of_partsOf hs h hpair
  rw [hleft, hright]
  exact height_lt_of_partsOf h hpair

end Parts

namespace Subst

theorem Untouched.lookup_eq_var {outer inner : Subst} (hfix : outer.Untouched inner)
    (houter : outer.Idempotent) (hinner : inner.Idempotent) {w : TyVar}
    (h : (outer.compose inner).lookup w = .var w) : inner.lookup w = .var w := by
  rw [lookup_compose houter hinner hfix] at h
  cases hw : inner.lookup w with
  | var u =>
      rw [hw, apply_var] at h
      have hmem : w ∈ (outer.lookup u).vars := by simp [h, Ty.vars]
      rcases eq_or_occurs_of_mem_vars_lookup hmem with rfl | hoccurs
      · rfl
      · exact hw ▸ hfix w hoccurs
  | const name => simp [hw, apply, Ty.subst] at h
  | fn params result => simp [hw, apply, Ty.subst] at h
  | app head args => simp [hw, apply, Ty.subst] at h
  | tuple elems => simp [hw, apply, Ty.subst] at h

/-- How many of some variables a substitution leaves alone. -/
def unbound (V : Finset TyVar) (s : Subst) : Nat :=
  (V.filter fun v => s.lookup v = .var v).card

end Subst

namespace Unifies

variable {rigid : List TyVar}

theorem lookup_eq_var {pairs : List (Ty × Ty)} {s s' : Subst} (h : Unifies rigid pairs s s')
    (hs : s.Idempotent) {w : TyVar} (hw : s'.lookup w = .var w) : s.lookup w = .var w := by
  induction h with
  | done s => exact hw
  | same _ _ ih => exact ih hs hw
  | bind h _ hoccurs _ ih =>
      have hsingle := Subst.idempotent_single hoccurs
      have hfix := untouched_of_bind hs h
      exact hfix.lookup_eq_var hsingle hs (ih (Subst.idempotent_compose hsingle hs hfix) hw)
  | parts _ _ ih => exact ih hs hw

theorem mem_of_occurs {V : Finset TyVar} {pairs : List (Ty × Ty)} {s s' : Subst}
    (h : Unifies rigid pairs s s') (hspoken : ∀ v, s.Occurs v → v ∈ V)
    (hpairs : ∀ pair ∈ pairs, (∀ v ∈ pair.1.vars, v ∈ V) ∧ ∀ v ∈ pair.2.vars, v ∈ V) {v : TyVar}
    (hv : s'.Occurs v) : v ∈ V := by
  rcases h.occurs hv with hv | ⟨pair, hpair, hv⟩
  · exact hspoken v hv
  · exact hv.elim ((hpairs pair hpair).1 v) ((hpairs pair hpair).2 v)

section Growth

variable {V : Finset TyVar} {p r t : Ty} {v : TyVar} {s : Subst}

private theorem unbound_lt_of_bind (hs : s.Idempotent)
    (h : s.apply p = .var v ∧ s.apply r = t ∨ s.apply p = t ∧ s.apply r = .var v)
    (hoccurs : v ∉ t.vars) (hv : v ∈ V) :
    ((Subst.single v t).compose s).unbound V < s.unbound V := by
  have hsingle := Subst.idempotent_single hoccurs
  have hfix := untouched_of_bind hs h
  refine Finset.card_lt_card ((Finset.ssubset_iff_of_subset fun w hw => ?_).2 ⟨v, ?_, ?_⟩)
  · obtain ⟨hw, hopen⟩ := Finset.mem_filter.1 hw
    exact Finset.mem_filter.2 ⟨hw, hfix.lookup_eq_var hsingle hs hopen⟩
  · exact Finset.mem_filter.2 ⟨hv, hfix v (Subst.occurs_single_iff.2 (.inl rfl))⟩
  · intro hmem
    have hopen := (Finset.mem_filter.1 hmem).2
    rw [Subst.lookup_compose hsingle hs hfix, hfix v (Subst.occurs_single_iff.2 (.inl rfl)),
      Subst.apply_var, Subst.lookup_single, if_pos rfl] at hopen
    simp [hopen, Ty.vars] at hoccurs

private theorem height_apply_bind_le (hs : s.Idempotent)
    (h : s.apply p = .var v ∧ s.apply r = t ∨ s.apply p = t ∧ s.apply r = .var v)
    (hoccurs : v ∉ t.vars) (u : Ty) :
    (((Subst.single v t).compose s).apply u).height ≤ (s.apply u).height + t.height := by
  rw [Subst.apply_compose (Subst.idempotent_single hoccurs) hs (untouched_of_bind hs h)]
  refine Ty.height_subst_le (fun w => ?_) _
  rw [Subst.lookup_single]
  split
  · exact Nat.le_succ _
  · simp [Ty.height]

/-- A run that binds some variables makes nothing higher than by a factor of two for each. -/
theorem height_apply_le {pairs : List (Ty × Ty)} {s s' : Subst} (hrun : Unifies rigid pairs s s')
    (hs : s.Idempotent) (hspoken : ∀ v, s.Occurs v → v ∈ V)
    (hpairs : ∀ pair ∈ pairs, (∀ v ∈ pair.1.vars, v ∈ V) ∧ ∀ v ∈ pair.2.vars, v ∈ V) {n : Nat}
    (hheight : ∀ pair ∈ pairs, (s.apply pair.1).height ≤ n ∧ (s.apply pair.2).height ≤ n) :
    ∃ k, s'.unbound V + k ≤ s.unbound V ∧ (k = 0 → s' = s) ∧
      ∀ u m, n ≤ m → (s.apply u).height ≤ m → (s'.apply u).height ≤ 2 ^ k * m := by
  induction hrun generalizing n with
  | done s => exact ⟨0, Nat.le_refl _, fun _ => rfl, fun u m _ hu => by simpa using hu⟩
  | same _ _ ih =>
      exact ih hs hspoken (List.forall_mem_cons.1 hpairs).2 (List.forall_mem_cons.1 hheight).2
  | @bind p r t v rest s s' h _ hoccurs _ ih =>
      obtain ⟨⟨hp, hr⟩, hrest⟩ := List.forall_mem_cons.1 hpairs
      obtain ⟨⟨hpheight, hrheight⟩, hrestheight⟩ := List.forall_mem_cons.1 hheight
      have ht : t.height ≤ n := by
        rcases h with ⟨-, rfl⟩ | ⟨rfl, -⟩
        · exact hrheight
        · exact hpheight
      have hgrow := height_apply_bind_le hs h hoccurs
      have hmem : ∀ w, (Subst.single v t).Occurs w → w ∈ V := fun w hw =>
        (occurs_of_bind h hw).elim (hp w) fun hw => hw.elim (hr w) (hspoken w)
      have hless := unbound_lt_of_bind hs h hoccurs (hmem v (Subst.occurs_single_iff.2 (.inl rfl)))
      obtain ⟨k, hk, -, hbound⟩ := ih (n := 2 * n)
        (Subst.idempotent_compose (Subst.idempotent_single hoccurs) hs (untouched_of_bind hs h))
        (fun w hw => hw.of_compose.elim (hmem w) (hspoken w)) hrest
        (fun pair hpair => by
          have := hrestheight pair hpair
          have := hgrow pair.1
          have := hgrow pair.2
          omega)
      refine ⟨k + 1, by omega, by simp, fun u m hm hu => ?_⟩
      have hdouble := hbound u (2 * m) (by omega) ((hgrow u).trans (by omega))
      rwa [Nat.pow_succ, Nat.mul_assoc]
  | @parts p r pairs rest s s' h _ ih =>
      obtain ⟨⟨hp, hr⟩, hrest⟩ := List.forall_mem_cons.1 hpairs
      obtain ⟨⟨hpheight, hrheight⟩, hrestheight⟩ := List.forall_mem_cons.1 hheight
      refine ih hs hspoken (fun pair hpair => ?_) fun pair hpair => ?_
      · rcases List.mem_append.1 hpair with hpair | hpair
        · exact mem_of_mem_vars_partsOf hspoken hp hr h hpair
        · exact hrest pair hpair
      · rcases List.mem_append.1 hpair with hpair | hpair
        · obtain ⟨hlower, hlower'⟩ := height_apply_lt_of_partsOf hs h hpair
          exact ⟨hlower.le.trans hpheight, hlower'.le.trans hrheight⟩
        · exact hrestheight pair hpair

end Growth

end Unifies

theorem exists_error_of_foldlM {ε α β : Type} {f : β → α → Except ε β} {as : List α} {b : β} {e : ε}
    (h : as.foldlM f b = .error e) :
    ∃ before a after c,
      as = before ++ a :: after ∧ before.foldlM f b = .ok c ∧ f c a = .error e := by
  induction as generalizing b with
  | nil => cases h
  | cons a as ih =>
      rw [List.foldlM_cons] at h
      cases hfirst : f b a with
      | error e' =>
          rw [hfirst] at h
          cases h
          exact ⟨[], a, as, b, rfl, rfl, hfirst⟩
      | ok b' =>
          rw [hfirst] at h
          obtain ⟨before, a', after, c, rfl, hbefore, herror⟩ := ih h
          refine ⟨a :: before, a', after, c, rfl, ?_, herror⟩
          rw [List.foldlM_cons, hfirst]
          exact hbefore

section Levels

variable {rigid : List TyVar}

theorem finished_bindVar (v : TyVar) (t : Ty) (s : Subst) : Finished (bindVar rigid v t s) := by
  intro t' u'
  unfold bindVar
  split_ifs <;> simp

theorem finished_bindVars (v w : TyVar) (s : Subst) : Finished (bindVars rigid v w s) := by
  intro t u
  unfold bindVars
  split_ifs
  · simp
  · simp
  · exact finished_bindVar w (.var v) s t u
  · exact finished_bindVar v (.var w) s t u

theorem partsOf_ne_cyclic (t u t' u' : Ty) : partsOf t u ≠ .error (.cyclic t' u') := by
  unfold partsOf
  repeat' split
  all_goals simp

/-- Enough levels for types of this height with so many variables unbound. Nothing gets higher than
`limit` while the variables last, and without a variable being bound every level is lower than the
one before. -/
theorem finished_unifyWithin {V : Finset TyVar} {limit levels n : Nat} {p r : Ty} {s : Subst}
    (hs : s.Idempotent) (hspoken : ∀ v, s.Occurs v → v ∈ V) (hp : ∀ v ∈ p.vars, v ∈ V)
    (hr : ∀ v ∈ r.vars, v ∈ V) (hpheight : (s.apply p).height ≤ n)
    (hrheight : (s.apply r).height ≤ n) (hlimit : 2 ^ s.unbound V * n ≤ limit)
    (hlevels : s.unbound V * (limit + 1) + (s.apply p).height ≤ levels) :
    Finished (unifyWithin rigid levels p r s) := by
  induction levels generalizing p r s n with
  | zero =>
      have hpos := (s.apply p).height_pos
      omega
  | succ levels ih =>
      unfold unifyWithin
      split
      · exact finished_bindVars _ _ _
      · exact finished_bindVar _ _ _
      · exact finished_bindVar _ _ _
      · intro t u herror
        cases hparts : partsOf (s.apply p) (s.apply r) with
        | error e =>
            rw [hparts] at herror
            cases herror
            exact partsOf_ne_cyclic _ _ _ _ hparts
        | ok pairs =>
            rw [hparts] at herror
            -- whichever pair is meant to use up the levels, there are enough left for it
            obtain ⟨before, pair, after, s₁, rfl, hbefore, hpair⟩ := exists_error_of_foldlM herror
            have hrun := Unifies.of_foldlM Unifies.of_unifyWithin hbefore
            have hvars := fun a (ha : a ∈ before ++ pair :: after) =>
              mem_of_mem_vars_partsOf hspoken hp hr hparts ha
            have hlower := fun a (ha : a ∈ before ++ pair :: after) =>
              height_apply_lt_of_partsOf hs hparts ha
            have hhere : pair ∈ before ++ pair :: after := by simp
            obtain ⟨k, hk, hsame, hbound⟩ := hrun.height_apply_le hs hspoken (n := n)
              (fun a ha => hvars a (List.mem_append_left _ ha)) (fun a ha => by
                have := hlower a (List.mem_append_left _ ha)
                omega)
            obtain ⟨hlower₁, hlower₂⟩ := hlower pair hhere
            have hleft := hbound pair.1 n (Nat.le_refl n) (by omega)
            have hright := hbound pair.2 n (Nat.le_refl n) (by omega)
            have hpow : 2 ^ s₁.unbound V * (2 ^ k * n) ≤ limit := by
              rw [← Nat.mul_assoc, ← Nat.pow_add]
              exact (Nat.mul_le_mul_right n (Nat.pow_le_pow_right (by decide) hk)).trans hlimit
            have hheight : 2 ^ k * n ≤ limit :=
              (Nat.le_mul_of_pos_left _ (Nat.two_pow_pos _)).trans hpow
            have hspoken₁ : ∀ v, s₁.Occurs v → v ∈ V := fun v =>
              hrun.mem_of_occurs hspoken fun a ha => hvars a (List.mem_append_left _ ha)
            refine ih (hrun.sound hs).1 hspoken₁ (hvars pair hhere).1 (hvars pair hhere).2 hleft
              hright hpow ?_ t u hpair
            rcases Nat.eq_zero_or_pos k with hzero | hpos
            · rw [hsame hzero]
              omega
            · have hmul : (s₁.unbound V + 1) * (limit + 1) ≤ s.unbound V * (limit + 1) :=
                Nat.mul_le_mul_right _ (by omega)
              rw [Nat.add_mul, Nat.one_mul] at hmul
              omega

private theorem card_toFinset_le_varBound (vs : List TyVar) : vs.toFinset.card ≤ varBound vs := by
  unfold varBound
  split
  · exact vs.toFinset_card_le
  · refine Nat.le_of_eq ?_
    have hset : vs.toFinset = (Roster.ofList vs).latest.toFinset := by
      ext v
      rw [List.mem_toFinset, List.mem_toFinset, Roster.mem_latest, ← Roster.mem_toList,
        Roster.toList_ofList, List.mem_eraseDups]
    rw [hset, List.toFinset_card_of_nodup (Roster.ofList vs).nodup, Roster.size]

private theorem height_apply_le_add (s : Subst) (t : Ty) :
    (s.apply t).height ≤ t.height + Ty.heightAll (s.bindings.map Prod.snd) := by
  refine Ty.height_subst_le (fun v => ?_) t
  cases hv : s.get? v with
  | none => simp [Subst.lookup, hv, Ty.height]
  | some u =>
      rw [Subst.lookup_of_get? hv]
      have hmem : u ∈ s.bindings.map Prod.snd :=
        List.mem_map.2 ⟨(v, u), Subst.get?_eq_some_iff.1 hv, rfl⟩
      exact Nat.le_succ_of_le (Ty.height_le_heightAll hmem)

theorem finished_unify (provided required : Ty) {s : Subst} (hs : s.Idempotent) :
    Finished (unify rigid provided required s) := by
  let images := s.bindings.map Prod.snd
  let names := provided.vars ++ required.vars ++ Ty.varsAll images
  let height := provided.height + required.height + Ty.heightAll images
  have himage : ∀ {v w t}, s.get? w = some t → v ∈ t.vars → v ∈ names := by
    intro v w t hw hv
    refine List.mem_append_right _ (Ty.mem_varsAll_iff.2 ⟨t, ?_, hv⟩)
    exact List.mem_map.2 ⟨(w, t), Subst.get?_eq_some_iff.1 hw, rfl⟩
  let V := names.toFinset ∪ s.domain.toFinset
  let limit := height * 2 ^ varBound names
  have hnames : ∀ {v}, v ∈ names → v ∈ V := fun hv =>
    Finset.mem_union_left _ (List.mem_toFinset.2 hv)
  -- a variable that `s` binds and nothing mentions is not counted: it is bound already
  have hunbound : s.unbound V ≤ varBound names := by
    refine (Finset.card_le_card fun v hv => ?_).trans (card_toFinset_le_varBound names)
    obtain ⟨hmem, hopen⟩ := Finset.mem_filter.1 hv
    rcases Finset.mem_union.1 hmem with hmem | hmem
    · exact hmem
    · refine List.mem_toFinset.2 (himage (Subst.get?_eq_some_lookup (List.mem_toFinset.1 hmem)) ?_)
      simp [hopen, Ty.vars]
  have hlimit : height ≤ limit := Nat.le_mul_of_pos_right _ (Nat.two_pow_pos _)
  have hp : (s.apply provided).height ≤ height :=
    (height_apply_le_add s provided).trans (by simp only [height, images]; omega)
  have hr : (s.apply required).height ≤ height :=
    (height_apply_le_add s required).trans (by simp only [height, images]; omega)
  have hpow : 2 ^ s.unbound V * height ≤ limit := by
    rw [Nat.mul_comm]
    exact Nat.mul_le_mul_left height (Nat.pow_le_pow_right (by decide) hunbound)
  refine finished_unifyWithin (V := V) hs ?_ ?_ ?_ hp hr hpow ?_
  · rintro v (hv | ⟨w, t, hw, hv⟩)
    · exact Finset.mem_union_right _ (List.mem_toFinset.2 hv)
    · exact hnames (himage hw hv)
  · exact fun v hv => hnames (List.mem_append_left _ (List.mem_append_left _ hv))
  · exact fun v hv => hnames (List.mem_append_left _ (List.mem_append_right _ hv))
  · have hmul : s.unbound V * (limit + 1) ≤ varBound names * (limit + 1) :=
      Nat.mul_le_mul_right _ hunbound
    have hlevels : unifyLevels provided required s =
        varBound names * (limit + 1) + (limit + 1) := Nat.succ_mul _ _
    omega

end Levels

end ConceptResolution
