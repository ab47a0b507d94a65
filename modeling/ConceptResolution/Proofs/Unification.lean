import ConceptResolution.Proofs.Substitution
import ConceptResolution.Unification

namespace ConceptResolution

private theorem map_eq_map_iff_zip {f : Ty → Ty} {ts us : List Ty} (h : ts.length = us.length) :
    ts.map f = us.map f ↔ ∀ pair ∈ ts.zip us, f pair.1 = f pair.2 := by
  induction ts generalizing us with
  | nil =>
      cases us with
      | nil => simp
      | cons u us => simp at h
  | cons t ts ih =>
      cases us with
      | nil => simp at h
      | cons u us => simp [ih (Nat.succ.inj h)]

/-- Two types that start alike, and the pairs of their parts. -/
inductive Alike : Ty → Ty → List (Ty × Ty) → Prop
  | const (name : String) : Alike (.const name) (.const name) []
  | app (head : String) {ts us : List Ty} (hlength : ts.length = us.length) :
      Alike (.app head ts) (.app head us) (ts.zip us)
  | fn {ps qs : List Ty} (p q : Ty) (hlength : ps.length = qs.length) :
      Alike (.fn ps p) (.fn qs q) (ps.zip qs ++ [(p, q)])
  | tuple {ts us : List Ty} (hlength : ts.length = us.length) :
      Alike (.tuple ts) (.tuple us) (ts.zip us)

theorem alike_of_partsOf {t u : Ty} {pairs : List (Ty × Ty)} (h : partsOf t u = .ok pairs) :
    Alike t u pairs := by
  unfold partsOf at h
  split at h
  · split at h
    · next hname =>
      cases h
      exact hname ▸ .const _
    · cases h
  · split at h
    · cases h
    · split at h
      · cases h
      · next hhead hlength =>
        cases h
        exact Decidable.not_not.1 hhead ▸ .app _ (Decidable.not_not.1 hlength)
  · split at h
    · cases h
    · next hlength =>
      cases h
      exact .fn _ _ (Decidable.not_not.1 hlength)
  · split at h
    · cases h
    · next hlength =>
      cases h
      exact .tuple (Decidable.not_not.1 hlength)
  · cases h

theorem subst_eq_iff_of_partsOf {t u : Ty} {pairs : List (Ty × Ty)} (h : partsOf t u = .ok pairs)
    (f : TyVar → Ty) : t.subst f = u.subst f ↔ ∀ pair ∈ pairs, pair.1.subst f = pair.2.subst f := by
  cases alike_of_partsOf h with
  | const name => simp
  | app head hlength => simp [Ty.subst, Ty.substAll_eq_map, map_eq_map_iff_zip hlength]
  | fn p q hlength =>
      simp only [Ty.subst, Ty.substAll_eq_map, Ty.fn.injEq, map_eq_map_iff_zip hlength,
        List.forall_mem_append, List.forall_mem_singleton]
  | tuple hlength => simp [Ty.subst, Ty.substAll_eq_map, map_eq_map_iff_zip hlength]

theorem mem_of_partsOf {t u : Ty} {pairs : List (Ty × Ty)} (h : partsOf t u = .ok pairs)
    {pair : Ty × Ty} (hpair : pair ∈ pairs) :
    (∀ v ∈ pair.1.vars, v ∈ t.vars) ∧ ∀ v ∈ pair.2.vars, v ∈ u.vars := by
  have hzip : ∀ {ts us : List Ty}, pair ∈ ts.zip us →
      (∀ v ∈ pair.1.vars, v ∈ Ty.varsAll ts) ∧ ∀ v ∈ pair.2.vars, v ∈ Ty.varsAll us := by
    intro ts us hmem
    obtain ⟨ht, hu⟩ := List.of_mem_zip hmem
    exact
      ⟨fun v hv => Ty.mem_varsAll_iff.2 ⟨_, ht, hv⟩, fun v hv => Ty.mem_varsAll_iff.2 ⟨_, hu, hv⟩⟩
  cases alike_of_partsOf h with
  | const name => cases hpair
  | app head hlength => exact hzip hpair
  | fn p q hlength =>
      rcases List.mem_append.1 hpair with hpair | hpair
      · exact ⟨fun v hv => List.mem_append_left _ ((hzip hpair).1 v hv),
          fun v hv => List.mem_append_left _ ((hzip hpair).2 v hv)⟩
      · cases List.mem_singleton.1 hpair
        exact ⟨fun v => List.mem_append_right _, fun v => List.mem_append_right _⟩
  | tuple hlength => exact hzip hpair

/-- `Unifies rigid pairs s s'`: to make the pairs equal in turn, `s` is carried on to `s'`. -/
inductive Unifies (rigid : List TyVar) : List (Ty × Ty) → Subst → Subst → Prop
  | done (s : Subst) : Unifies rigid [] s s
  | same {p r : Ty} {rest : List (Ty × Ty)} {s s' : Subst} (h : s.apply p = s.apply r)
      (tail : Unifies rigid rest s s') : Unifies rigid ((p, r) :: rest) s s'
  | bind {p r t : Ty} {v : TyVar} {rest : List (Ty × Ty)} {s s' : Subst}
      (h : s.apply p = .var v ∧ s.apply r = t ∨ s.apply p = t ∧ s.apply r = .var v)
      (hrigid : v ∉ rigid) (hoccurs : v ∉ t.vars)
      (tail : Unifies rigid rest ((Subst.single v t).compose s) s') :
      Unifies rigid ((p, r) :: rest) s s'
  | parts {p r : Ty} {pairs rest : List (Ty × Ty)} {s s' : Subst}
      (h : partsOf (s.apply p) (s.apply r) = .ok pairs)
      (tail : Unifies rigid (pairs ++ rest) s s') : Unifies rigid ((p, r) :: rest) s s'

namespace Unifies

variable {rigid : List TyVar}

theorem append {pairs pairs' : List (Ty × Ty)} {s s' s'' : Subst} (h : Unifies rigid pairs s s')
    (h' : Unifies rigid pairs' s' s'') : Unifies rigid (pairs ++ pairs') s s'' := by
  induction h with
  | done s => exact h'
  | same h _ ih => exact .same h (ih h')
  | bind h hrigid hoccurs _ ih => exact .bind h hrigid hoccurs (ih h')
  | parts h _ ih =>
      have htail := ih h'
      rw [List.append_assoc] at htail
      exact .parts h htail

theorem of_bindVar {p r t : Ty} {v : TyVar} {s s' : Subst}
    (h : s.apply p = .var v ∧ s.apply r = t ∨ s.apply p = t ∧ s.apply r = .var v)
    (hbind : bindVar rigid v t s = .ok s') : Unifies rigid [(p, r)] s s' := by
  unfold bindVar at hbind
  split at hbind
  · next ht =>
    cases hbind
    refine .same ?_ (.done s)
    rcases h with ⟨hp, hr⟩ | ⟨hp, hr⟩
    · rw [hp, hr, ht]
    · rw [hp, hr, ht]
  · split at hbind
    · cases hbind
    · split at hbind
      · cases hbind
      · next hrigid hmentions =>
        cases hbind
        exact .bind h hrigid (fun hv => hmentions (Ty.mentions_iff.2 hv)) (.done _)

theorem of_bindVars {p r : Ty} {v w : TyVar} {s s' : Subst} (hp : s.apply p = .var v)
    (hr : s.apply r = .var w) (hbind : bindVars rigid v w s = .ok s') :
    Unifies rigid [(p, r)] s s' := by
  unfold bindVars at hbind
  split at hbind
  · next hvw =>
    cases hbind
    exact .same (by rw [hp, hr, hvw]) (.done s)
  · split at hbind
    · exact of_bindVar (.inl ⟨hp, hr⟩) hbind
    · split at hbind
      · exact of_bindVar (.inr ⟨hp, hr⟩) hbind
      · cases hbind

theorem of_foldlM {parts : Ty → Ty → Subst → Except UnifyError Subst}
    (hparts : ∀ {p r : Ty} {s s' : Subst}, parts p r s = .ok s' → Unifies rigid [(p, r)] s s')
    {pairs : List (Ty × Ty)} {s s' : Subst}
    (h : pairs.foldlM (fun s pair => parts pair.1 pair.2 s) s = .ok s') :
    Unifies rigid pairs s s' := by
  induction pairs generalizing s with
  | nil =>
      cases h
      exact .done _
  | cons pair pairs ih =>
      rw [List.foldlM_cons] at h
      cases hfirst : parts pair.1 pair.2 s with
      | error e =>
          rw [hfirst] at h
          cases h
      | ok s₁ =>
          rw [hfirst] at h
          exact (hparts hfirst).append (ih h)

theorem of_unifyWithin {levels : Nat} {p r : Ty} {s s' : Subst}
    (h : unifyWithin rigid levels p r s = .ok s') : Unifies rigid [(p, r)] s s' := by
  induction levels generalizing p r s s' with
  | zero => cases h
  | succ levels ih =>
      unfold unifyWithin at h
      split at h
      · next hp hr => exact of_bindVars hp hr h
      · next hp _ => exact of_bindVar (.inl ⟨hp, rfl⟩) h
      · next hr _ => exact of_bindVar (.inr ⟨rfl, hr⟩) h
      · cases hparts : partsOf (s.apply p) (s.apply r) with
        | error e =>
            rw [hparts] at h
            cases h
        | ok pairs =>
            rw [hparts] at h
            refine .parts hparts ?_
            rw [List.append_nil]
            exact of_foldlM ih h

theorem of_unify {p r : Ty} {s s' : Subst} (h : unify rigid p r s = .ok s') :
    Unifies rigid [(p, r)] s s' :=
  of_unifyWithin h

theorem untouched_of_bind {p r t : Ty} {v : TyVar} {s : Subst} (hs : s.Idempotent)
    (h : s.apply p = .var v ∧ s.apply r = t ∨ s.apply p = t ∧ s.apply r = .var v) :
    (Subst.single v t).Untouched s := by
  intro w hw
  have hvar : ∀ u, s.apply u = .var v → s.lookup v = .var v := fun u hu =>
    hs.lookup_of_mem_vars_apply (t := u) (by simp [hu, Ty.vars])
  have hty : ∀ u, s.apply u = t → w ∈ t.vars → s.lookup w = .var w := by
    rintro u rfl hwt
    exact hs.lookup_of_mem_vars_apply hwt
  rcases Subst.occurs_single_iff.1 hw with rfl | hw
  · rcases h with ⟨hp, -⟩ | ⟨-, hr⟩
    · exact hvar p hp
    · exact hvar r hr
  · rcases h with ⟨-, hr⟩ | ⟨hp, -⟩
    · exact hty r hr hw
    · exact hty p hp hw

theorem occurs_of_bind {p r t : Ty} {v w : TyVar} {s : Subst}
    (h : s.apply p = .var v ∧ s.apply r = t ∨ s.apply p = t ∧ s.apply r = .var v)
    (hw : (Subst.single v t).Occurs w) : w ∈ p.vars ∨ w ∈ r.vars ∨ s.Occurs w := by
  have hmem : w ∈ (s.apply p).vars ∨ w ∈ (s.apply r).vars := by
    rcases Subst.occurs_single_iff.1 hw with rfl | hw
    · rcases h with ⟨hp, -⟩ | ⟨-, hr⟩
      · exact .inl (by simp [hp, Ty.vars])
      · exact .inr (by simp [hr, Ty.vars])
    · rcases h with ⟨-, hr⟩ | ⟨hp, -⟩
      · exact .inr (hr ▸ hw)
      · exact .inl (hp ▸ hw)
  rcases hmem with hmem | hmem
  · exact (Subst.mem_vars_or_occurs_of_mem_vars_apply hmem).imp_right .inr
  · exact .inr (Subst.mem_vars_or_occurs_of_mem_vars_apply hmem)

theorem sound {pairs : List (Ty × Ty)} {s s' : Subst} (h : Unifies rigid pairs s s')
    (hs : s.Idempotent) :
    s'.Idempotent ∧ s'.Extends s ∧ ∀ pair ∈ pairs, s'.apply pair.1 = s'.apply pair.2 := by
  induction h with
  | done s => exact ⟨hs, .refl hs, by simp⟩
  | @same p r rest s s' h _ ih =>
      obtain ⟨hidem, hext, htail⟩ := ih hs
      refine ⟨hidem, hext, List.forall_mem_cons.2 ⟨?_, htail⟩⟩
      calc
        s'.apply p = s'.apply (s.apply p) := (hext p).symm
        _ = s'.apply (s.apply r) := by rw [h]
        _ = s'.apply r := hext r
  | @bind p r t v rest s s' h _ hoccurs _ ih =>
      have hsingle := Subst.idempotent_single hoccurs
      have hfix := untouched_of_bind hs h
      have hcompose := Subst.extends_compose hsingle hs hfix
      obtain ⟨hidem, hext, htail⟩ := ih (Subst.idempotent_compose hsingle hs hfix)
      refine ⟨hidem, hext.trans hcompose, List.forall_mem_cons.2 ⟨?_, htail⟩⟩
      -- the new binding makes both sides `t`, and whatever comes later keeps them equal
      have happly : ∀ u, s.apply u = .var v ∨ s.apply u = t →
          ((Subst.single v t).compose s).apply u = t := by
        intro u hu
        rw [Subst.apply_compose hsingle hs hfix]
        rcases hu with hu | hu
        · rw [hu, Subst.apply_var, Subst.lookup_single, if_pos rfl]
        · rw [hu, Subst.apply_single_of_notMem hoccurs]
      have hp : ((Subst.single v t).compose s).apply p = t := happly p (h.imp And.left And.left)
      have hr : ((Subst.single v t).compose s).apply r = t :=
        happly r (h.symm.imp And.right And.right)
      rw [← hext p, ← hext r, hp, hr]
  | @parts p r pairs rest s s' h _ ih =>
      obtain ⟨hidem, hext, hpairs⟩ := ih hs
      refine ⟨hidem, hext, List.forall_mem_cons.2 ⟨?_, fun pair hpair =>
        hpairs pair (List.mem_append_right _ hpair)⟩⟩
      have hparts : s'.apply (s.apply p) = s'.apply (s.apply r) :=
        (subst_eq_iff_of_partsOf h s'.lookup).2 fun pair hpair =>
          hpairs pair (List.mem_append_left _ hpair)
      rw [← hext p, ← hext r, hparts]

theorem solved {pairs : List (Ty × Ty)} {s s' : Subst} (h : Unifies rigid pairs s s')
    (hs : s.Solved) : s'.Solved := by
  induction h with
  | done s => exact hs
  | same _ _ ih => exact ih hs
  | bind h _ hoccurs _ ih =>
      have hidem := (Subst.solved_iff.1 hs).1
      exact ih (Subst.solved_compose (Subst.idempotent_single hoccurs) hidem
        (untouched_of_bind hidem h))
  | parts _ _ ih => exact ih hs

theorem notMem_rigid {pairs : List (Ty × Ty)} {s s' : Subst} (h : Unifies rigid pairs s s')
    {v : TyVar} (hv : v ∈ s'.domain) : v ∈ s.domain ∨ v ∉ rigid := by
  induction h with
  | done s => exact .inl hv
  | same _ _ ih => exact ih hv
  | bind _ hrigid _ _ ih =>
      rcases ih hv with hv | hv
      · rcases Subst.mem_domain_of_compose hv with hv | hv
        · rw [show v = _ by simpa [Subst.domain, Subst.single] using hv]
          exact .inr hrigid
        · exact .inl hv
      · exact .inr hv
  | parts _ _ ih => exact ih hv

theorem occurs {pairs : List (Ty × Ty)} {s s' : Subst} (h : Unifies rigid pairs s s') {v : TyVar}
    (hv : s'.Occurs v) : s.Occurs v ∨ ∃ pair ∈ pairs, v ∈ pair.1.vars ∨ v ∈ pair.2.vars := by
  induction h with
  | done s => exact .inl hv
  | same _ _ ih =>
      rcases ih hv with hv | ⟨pair, hpair, hv⟩
      · exact .inl hv
      · exact .inr ⟨pair, List.mem_cons_of_mem _ hpair, hv⟩
  | bind h _ _ _ ih =>
      rcases ih hv with hv | ⟨pair, hpair, hv⟩
      · rcases hv.of_compose with hv | hv
        · rcases occurs_of_bind h hv with hv | hv | hv
          · exact .inr ⟨_, List.mem_cons_self, .inl hv⟩
          · exact .inr ⟨_, List.mem_cons_self, .inr hv⟩
          · exact .inl hv
        · exact .inl hv
      · exact .inr ⟨pair, List.mem_cons_of_mem _ hpair, hv⟩
  | parts h _ ih =>
      rcases ih hv with hv | ⟨pair, hpair, hv⟩
      · exact .inl hv
      · rcases List.mem_append.1 hpair with hpair | hpair
        · have hmem : v ∈ (_ : Ty).vars ∨ v ∈ (_ : Ty).vars :=
            hv.imp ((mem_of_partsOf h hpair).1 v) ((mem_of_partsOf h hpair).2 v)
          rcases hmem with hmem | hmem
          · rcases Subst.mem_vars_or_occurs_of_mem_vars_apply hmem with hv | hv
            · exact .inr ⟨_, List.mem_cons_self, .inl hv⟩
            · exact .inl hv
          · rcases Subst.mem_vars_or_occurs_of_mem_vars_apply hmem with hv | hv
            · exact .inr ⟨_, List.mem_cons_self, .inr hv⟩
            · exact .inl hv
        · exact .inr ⟨pair, List.mem_cons_of_mem _ hpair, hv⟩

end Unifies

/-- Unification under an idempotent substitution extends it, idempotently, to one that makes the two
types equal. It binds no rigid variable and speaks of no variable that it was not given. -/
theorem unify_sound {rigid : List TyVar} {provided required : Ty} {s s' : Subst}
    (hs : s.Idempotent) (h : unify rigid provided required s = .ok s') :
    s'.apply provided = s'.apply required ∧
      s'.Idempotent ∧
      (s.Solved → s'.Solved) ∧
      s'.Extends s ∧
      (∀ v ∈ s'.domain, v ∉ s.domain → v ∉ rigid) ∧
      ∀ v, s'.Occurs v → v ∈ provided.vars ∨ v ∈ required.vars ∨ s.Occurs v := by
  have hrun := Unifies.of_unify h
  obtain ⟨hidem, hext, hpairs⟩ := hrun.sound hs
  refine ⟨hpairs _ List.mem_cons_self, hidem, hrun.solved, hext, ?_, ?_⟩
  · intro v hv hnew
    exact (hrun.notMem_rigid hv).resolve_left hnew
  · intro v hv
    rcases hrun.occurs hv with hv | ⟨pair, hpair, hv⟩
    · exact .inr (.inr hv)
    · cases List.mem_singleton.1 hpair
      exact hv.imp_right .inl

theorem unify_sound_map :
    let a : TyVar := ⟨"'a"⟩
    let b : TyVar := ⟨"'b"⟩
    let c : TyVar := ⟨"'c"⟩
    let rigid : TyVar := ⟨"'s"⟩
    let k : TyVar := ⟨"?k0"⟩
    let v : TyVar := ⟨"?v1"⟩
    let provided : Ty := .app "Map" [.var k, .list (.var v), .var v]
    let required : Ty := .app "Map" [.list (.var a), .var b, .var rigid]
    let s := Subst.single a (.var c)
    ∃ s', s.Idempotent ∧ unify [rigid] provided required s = .ok s' ∧
      s'.apply provided = .app "Map" [.list (.var c), .list (.var rigid), .var rigid] ∧
      s'.apply provided = s'.apply required ∧ s'.Idempotent ∧ (s.Solved → s'.Solved) ∧
      s'.Extends s ∧ (∀ v ∈ s'.domain, v ∉ s.domain → v ∉ [rigid]) ∧
      ∀ v, s'.Occurs v → v ∈ provided.vars ∨ v ∈ required.vars ∨ s.Occurs v := by
  intro a b c rigid k v provided required s
  have hs : s.Idempotent := Subst.idempotent_single (by decide)
  have hrun : (unify [rigid] provided required s).toOption.any (fun s' =>
      s'.apply provided == .app "Map" [.list (.var c), .list (.var rigid), .var rigid]) := by
    decide +kernel
  cases h : unify [rigid] provided required s with
  | error e => simp [h, Except.toOption] at hrun
  | ok s' =>
      refine ⟨s', hs, rfl, ?_, unify_sound hs h⟩
      simpa [h, Except.toOption] using hrun

end ConceptResolution
