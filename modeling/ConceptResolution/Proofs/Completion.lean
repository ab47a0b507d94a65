import ConceptResolution.Proofs.Rigidity
import ConceptResolution.Search.Completion
import Mathlib.Data.List.Zip

/-!
Completing an argument list keeps the arguments that were supplied. They are put into the
substitution one after the other, and whatever is found later for a witness is composed with it; a
supplied argument survives that as long as nobody binds its variables and nobody binds its parameter
anew.
-/

namespace ConceptResolution

namespace Subst

variable {s outer inner : Subst} {v : TyVar} {t : Ty}

private theorem get?_dropTrivial_of_ne (h : s.get? v = some t) (hne : t ≠ .var v) :
    s.dropTrivial.get? v = some t := by
  rw [dropTrivial, get?_filter, h]
  exact Option.filter_eq_some_iff.2 ⟨rfl, by simpa using hne⟩

private theorem domain_mapImages (s : Subst) (f : Ty → Ty) : (s.mapImages f).domain = s.domain := by
  simp [domain, mapImages]

private theorem get?_settle (n : Nat) (h : s.get? v = some t) (ht : ∀ x ∈ t.vars, x ∉ s.domain) :
    (settle n s).get? v = some t := by
  induction n generalizing s with
  | zero => exact h
  | succ n ih =>
      rw [settle]
      split
      · exact h
      · rw [selfApply_eq]
        refine ih ?_ (by rwa [domain_mapImages])
        rw [get?_mapImages, h, Option.map_some,
          apply_eq_self_iff.2 fun x hx => lookup_of_notMem (ht x hx)]

/-- Normal forms keep a binding to a type that no other binding reaches into. -/
theorem get?_normalize (h : s.get? v = some t) (ht : ∀ x ∈ t.vars, x ∉ s.domain) :
    s.normalize.get? v = some t := by
  have hne : t ≠ .var v := by
    rintro rfl
    exact ht v (by simp [Ty.vars]) (mem_domain_iff.2 ⟨_, h⟩)
  have hdrop : ∀ x ∈ s.dropTrivial.domain, x ∈ s.domain := by
    intro x hx
    obtain ⟨u, hu⟩ := mem_domain_iff.1 hx
    rw [dropTrivial, get?_filter] at hu
    exact mem_domain_iff.2 ⟨u, (Option.filter_eq_some_iff.1 hu).1⟩
  exact get?_dropTrivial_of_ne (get?_settle _ (get?_dropTrivial_of_ne h hne) fun x hx hdomain =>
    ht x hx (hdrop x hdomain)) hne

theorem get?_compose (h : (outer.get? v).or ((inner.get? v).map outer.apply) = some t)
    (ht : ∀ x ∈ t.vars, x ∉ outer.domain ∧ x ∉ inner.domain) :
    (outer.compose inner).get? v = some t := by
  refine get?_normalize (by rwa [get?_override, get?_mapImages]) fun x hx hdomain => ?_
  obtain ⟨u, hu⟩ := mem_domain_iff.1 hdomain
  rw [get?_override, get?_mapImages, Option.or_eq_some_iff] at hu
  rcases hu with hu | ⟨-, hu⟩
  · exact (ht x hx).1 (mem_domain_iff.2 ⟨u, hu⟩)
  · obtain ⟨u', hu', -⟩ := Option.map_eq_some_iff.1 hu
    exact (ht x hx).2 (mem_domain_iff.2 ⟨u', hu'⟩)

theorem get?_compose_of_outer (h : outer.get? v = some t)
    (ht : ∀ x ∈ t.vars, x ∉ outer.domain ∧ x ∉ inner.domain) :
    (outer.compose inner).get? v = some t :=
  get?_compose (by rw [h, Option.some_or]) ht

theorem get?_compose_of_inner (h : inner.get? v = some t) (hv : v ∉ outer.domain)
    (ht : ∀ x ∈ t.vars, x ∉ outer.domain ∧ x ∉ inner.domain) :
    (outer.compose inner).get? v = some t := by
  refine get?_compose ?_ ht
  rw [get?_eq_none_iff.2 hv, Option.none_or, h, Option.map_some,
    apply_eq_self_iff.2 fun x hx => lookup_of_notMem (ht x hx).1]

end Subst

/-- The arguments in the places of the ordinary parameters. -/
def ordinaryArgs (params : List Param) (args : List Ty) : List Ty :=
  ((params.zip args).filter fun a => a.1.isOrdinary).map Prod.snd

theorem length_handOut (supplied : List Ty) (params : List Param) :
    (handOut supplied params).length = params.length := by
  induction params generalizing supplied with
  | nil => rfl
  | cons p params ih =>
      rw [handOut]
      split
      · exact congrArg (· + 1) (ih supplied.tail)
      · exact congrArg (· + 1) (ih supplied)

theorem ordinaryArgs_filled {supplied : List Ty} {params : List Param}
    (hcount : ordinaryCount params = supplied.length) {fill : Option Ty × Param → Ty}
    (h : ∀ a ∈ (handOut supplied params).zip params, ∀ t, a.1 = some t → a.2.isOrdinary = true →
      fill a = t) :
    ordinaryArgs params (((handOut supplied params).zip params).map fill) = supplied := by
  induction params generalizing supplied with
  | nil => simpa [ordinaryArgs, ordinaryCount, eq_comm] using hcount
  | cons p params ih =>
      rw [ordinaryCount, List.countP_cons] at hcount
      cases hp : p.isOrdinary with
      | true =>
          rw [if_pos hp] at hcount
          obtain ⟨t, rest, rfl⟩ := List.exists_cons_of_length_eq_add_one hcount.symm
          simp only [handOut, hp, ite_true, List.head?_cons, List.tail_cons,
            List.zip_cons_cons] at h ⊢
          obtain ⟨hhead, hrest⟩ := List.forall_mem_cons.1 h
          simp only [ordinaryArgs, List.map_cons, List.zip_cons_cons, List.filter_cons, hp,
            ite_true,
            hhead t rfl hp]
          exact congrArg (t :: ·) (ih (Nat.succ.inj hcount) hrest)
      | false =>
          rw [if_neg (by simp [hp])] at hcount
          simp only [handOut, hp, Bool.false_eq_true, ite_false, List.zip_cons_cons] at h ⊢
          simp only [ordinaryArgs, List.map_cons, List.zip_cons_cons, List.filter_cons, hp,
            Bool.false_eq_true, ite_false]
          exact ih hcount (List.forall_mem_cons.1 h).2

namespace Site

variable {site : Site}

variable (site) in
/-- Not a given variable, unless that one is named like a variable of the scope. -/
def Elsewhere (v x : TyVar) : Prop :=
  v ∈ site.scope.bound ∨ x ≠ v

variable (site) in
/-- A parameter has its argument. Nothing that the argument mentions is bound, and no image mentions
the parameter, unless it is named like a variable of the scope. -/
structure Settled (v : TyVar) (t : Ty) (s : Subst) : Prop where
  get? : s.get? v = some t
  within : s.Within (· ∉ t.vars) (site.Elsewhere v)

section Settled

variable {v : TyVar} {t : Ty} {s : Subst}

theorem Elsewhere.ne {x : TyVar} (h : site.Elsewhere v x) (hx : x ∉ site.scope.bound) : x ≠ v := by
  rintro rfl
  exact h.elim hx fun hne => hne rfl

theorem elsewhere_of_mem_bound {x : TyVar} (hx : x ∈ site.scope.bound) : site.Elsewhere v x := by
  rcases Decidable.em (x = v) with rfl | hne
  · exact .inl hx
  · exact .inr hne

theorem Settled.compose {outer : Subst} (h : site.Settled v t s)
    (houter : outer.Within (fun x => x ≠ v ∧ x ∉ t.vars) (site.Elsewhere v)) :
    site.Settled v t (outer.compose s) where
  get? := by
    refine Subst.get?_compose_of_inner h.get? (fun hv => (houter.of_mem_domain hv).1 rfl)
      fun x hx => ⟨fun hdomain => (houter.of_mem_domain hdomain).2 hx, fun hdomain =>
        h.within.of_mem_domain hdomain hx⟩
  within := (houter.mono (fun _ => And.right) fun _ => id).compose h.within

theorem Settled.withWitness (h : site.Settled v t s) (ht : ∀ x ∈ t.vars, x ∈ site.scope.bound)
    {p : Param} (hp : p.var ≠ v ∧ p.var ∉ t.vars)
    (hopen : ¬site.scope.isFixed (s.get? p.var) = true) {w : Viable}
    (hw : site.ConfinedViable (site.Elsewhere v) w) : site.Settled v t (s.withWitness p w) := by
  have hfree : ∀ x, site.Elsewhere v x → x ∉ site.scope.bound → x ≠ v ∧ x ∉ t.vars :=
    fun x hx hbound => ⟨hx.ne hbound, fun hmem => hbound (ht x hmem)⟩
  have hsubst : w.subst.Within (fun x => x ≠ v ∧ x ∉ t.vars) (site.Elsewhere v) :=
    hw.subst.mono (fun x hx => hfree x hx.1 hx.2) fun _ => id
  obtain ⟨binding, heq, hbinding⟩ := exists_withWitness s p w
  rw [heq]
  refine (h.compose (hbinding _ _ hp (fun earlier hget => ?_) hw.ty)).compose hsubst
  have hearlier : site.Elsewhere v earlier :=
    (h.within p.var _ hget).2 earlier (by simp [Ty.vars])
  refine hfree earlier hearlier ?_
  rwa [hget, Scope.isFixed, Scope.isBound, List.contains_iff_mem] at hopen

theorem Settled.required (h : site.Settled v t s) (p : Param) :
    ∀ c ∈ site.model.required p s, ∀ x ∈ c.vars, site.Elsewhere v x := by
  intro c hc x hx
  obtain ⟨d, -, rfl⟩ := exists_of_mem_required hc
  obtain ⟨y, -, hxy⟩ := Ty.mem_vars_subst.1 hx
  cases hget : s.get? y with
  | none =>
      rw [Subst.lookup_of_notMem (Subst.get?_eq_none_iff.1 hget)] at hxy
      obtain rfl : x = y := by simpa [Ty.vars] using hxy
      refine .inr ?_
      rintro rfl
      rw [h.get?] at hget
      cases hget
  | some u => exact (h.within y u hget).2 x (Subst.lookup_of_get? hget ▸ hxy)

theorem solvingKeeps_settled {judge : Judge} {trail : Trail}
    (hspeaks : site.Speaks (site.Elsewhere v))
    (hjudge : site.JudgeConfined (site.Elsewhere v) judge)
    (ht : ∀ x ∈ t.vars, x ∈ site.scope.bound) :
    site.SolvingKeeps judge trail (site.Settled v t) fun p => p.var ≠ v ∧ p.var ∉ t.vars := by
  intro s p hs hp hopen m w hw
  exact hs.withWitness ht hp hopen (returns_resolveWith hjudge hspeaks (hs.required p) m w hw)

theorem Settled.unsolved? {pairs : List (Param × Option Ty)} {u : Unsolved}
    (h : site.Settled v t s)
    (hpairs : ∀ pair ∈ pairs, pair.1.var ≠ v ∧ pair.1.var ∉ t.vars ∧
      ∀ t', pair.2 = some t' → ∀ x ∈ t'.vars, site.Elsewhere v x)
    (hu : site.unsolved? pairs s = some u) : site.Settled v t u.subst := by
  refine of_unsolved? (fun pair hpair s t' hs hknown => ?_) h hu
  obtain ⟨hne, hnot, harg⟩ := hpairs pair hpair
  exact hs.compose (Subst.within_single ⟨hne, hnot⟩ (of_mem_vars_known hs.within harg hknown))

theorem settled_of_unsolved? {pairs : List (Param × Option Ty)} {u : Unsolved} {p : Param}
    (hs : s.Within (· ∉ t.vars) (site.Elsewhere p.var)) (hmem : (p, some t) ∈ pairs)
    (hnodup : (pairs.map fun pair => pair.1.var).Nodup)
    (ht : ∀ x ∈ t.vars, x ∈ site.scope.bound)
    (hpairs : ∀ pair ∈ pairs, pair.1.var ∉ t.vars ∧
      ∀ t', pair.2 = some t' → ∀ x ∈ t'.vars, x ∈ site.scope.bound)
    (hu : site.unsolved? pairs s = some u) : site.Settled p.var t u.subst := by
  induction pairs generalizing s u with
  | nil => cases hmem
  | cons pair pairs ih =>
      obtain ⟨q, arg⟩ := pair
      obtain ⟨⟨hnot, harg⟩, hrest⟩ := List.forall_mem_cons.1 hpairs
      obtain ⟨hdistinct, hnodup⟩ := List.nodup_cons.1 hnodup
      have hvars : ∀ t', known s q arg = some t' → ∀ x ∈ t'.vars, site.Elsewhere p.var x :=
        fun t' => of_mem_vars_known hs fun t' ht' x hx => elsewhere_of_mem_bound (harg t' ht' x hx)
      rcases List.mem_cons.1 hmem with heq | hmem
      · cases heq
        have happly : s.apply t = t := Subst.apply_eq_self_iff.2 fun x hx =>
          Subst.lookup_of_notMem fun hdomain => hs.of_mem_domain hdomain hx
        have hknown : known s p (some t) = some t := congrArg some happly
        rcases unsolved?_cons hu with ⟨-, t', ht', hu⟩ | ⟨hopen, -⟩
        · rw [hknown] at ht'
          cases ht'
          refine Settled.unsolved? ?_ (fun pair hpair => ⟨fun heq => ?_, (hrest pair hpair).1,
            fun t' ht' x hx => elsewhere_of_mem_bound ((hrest pair hpair).2 t' ht' x hx)⟩) hu
          · split
            · next hget => exact ⟨hget, hs⟩
            · have hsingle : (Subst.single p.var t).Within (· ∉ t.vars) (site.Elsewhere p.var) :=
                Subst.within_single hnot (hvars t hknown)
              refine ⟨Subst.get?_compose_of_outer (by simp [Subst.get?_single]) fun x hx => ?_,
                hsingle.compose hs⟩
              exact ⟨fun hdomain => hsingle.of_mem_domain hdomain hx, fun hdomain =>
                hs.of_mem_domain hdomain hx⟩
          · exact hdistinct (List.mem_map.2 ⟨pair, hpair, heq⟩)
        · rw [hknown] at hopen
          cases t with
          | var x => simp [Scope.isFixed, Scope.isBound, ht x (by simp [Ty.vars])] at hopen
          | _ => simp [Scope.isFixed] at hopen
      · rcases unsolved?_cons hu with ⟨-, t', hknown, hu⟩ | ⟨-, -, u', hu', hsubst, -⟩
        · refine ih ?_ hmem hnodup hrest hu
          split
          · exact hs
          · exact Subst.Within.compose (Subst.within_single hnot (hvars t' hknown)) hs
        · rw [hsubst]
          exact ih hs hmem hnodup hrest hu'

end Settled

structure Scoped (site : Site) : Prop where
  closed : site.model.Closed
  bound : ∀ x ∈ site.scope.bound, x.isFresh = false
  given : ∀ p, .given p ∈ site.scope.evidence → p.var ∈ site.scope.bound ∧
    ∀ c ∈ p.constraints, site.model.fits c = true ∧ ∀ x ∈ c.vars, x ∈ site.scope.bound
  provides : ∀ i, .declared i ∈ site.scope.evidence → ∀ c ∈ i.provides,
    site.model.fits c = true ∧ ∀ x ∈ c.vars, ∃ p ∈ i.params, p.var = x
  constraints : ∀ i, .declared i ∈ site.scope.evidence → ∀ p ∈ i.params, ∀ c ∈ p.constraints,
    ∀ x ∈ c.vars, ∃ q ∈ i.params, q.var = x

theorem WellScoped.scoped (h : site.WellScoped) : site.Scoped where
  closed := h.closed
  bound := h.bound
  given := h.given
  provides i hi c hc := ((h.declared i hi).provides c hc).imp_right fun hvars x hx => (hvars x hx).1
  constraints i hi p hp c hc x hx := (((h.declared i hi).constraints p hp c hc).2 x hx).1

/-- What evidence provides is over its own parameters, or over the scope for a given witness. -/
structure ProvidesScoped (site : Site) : Prop where
  closed : site.model.Closed
  given : ∀ p, .given p ∈ site.scope.evidence → ∀ c ∈ p.constraints,
    site.model.fits c = true ∧ ∀ x ∈ c.vars, x ∈ site.scope.bound
  declared : ∀ i, .declared i ∈ site.scope.evidence → ∀ c ∈ i.provides,
    site.model.fits c = true ∧ ∀ x ∈ c.vars, ∃ p ∈ i.params, p.var = x

theorem Scoped.providesScoped (h : site.Scoped) : site.ProvidesScoped where
  closed := h.closed
  given p hp := (h.given p hp).2
  declared := h.provides

theorem ProvidesScoped.mem_vars_expand (h : site.ProvidesScoped) {n n' : Nat} {i : Instantiated}
    (hof : i.Of n n') (hsource : i.source ∈ site.scope.evidence) {c : Ty}
    (hc : c ∈ site.model.expand i.provides) {x : TyVar} (hx : x ∈ c.vars) :
    x ∈ site.scope.bound ∨ ∃ p ∈ i.params, p.var = x := by
  obtain ⟨d, hd, hreach⟩ := ConceptModel.reaches_of_mem_expand hc
  cases hof with
  | given p =>
      obtain ⟨hfits, hvars⟩ := h.given p hsource d hd
      exact .inl (hvars x (h.closed.mem_vars_of_reaches hfits hreach hx))
  | declared i ρ hnew hinj =>
      obtain ⟨d', hd', rfl⟩ := List.mem_map.1 hd
      obtain ⟨hfits, hvars⟩ := h.declared i hsource d' hd'
      have hfits' : site.model.fits (d'.rename ρ) = true :=
        ConceptModel.fits_subst_iff.2 ⟨hfits, fun _ _ => rfl⟩
      obtain ⟨y, hy, rfl⟩ := Ty.mem_vars_rename.1 (h.closed.mem_vars_of_reaches hfits' hreach hx)
      obtain ⟨p, hp, rfl⟩ := hvars y hy
      exact .inr ⟨p.rename ρ, List.mem_map_of_mem hp, rfl⟩

theorem Scoped.speaks (h : site.Scoped) {V : TyVar → Prop} (hbound : ∀ x ∈ site.scope.bound, V x)
    (hfresh : ∀ x : TyVar, x.isFresh = true → V x) : site.Speaks V where
  bound := h.bound
  fresh := hfresh
  provides := by
    intro n n' i hof hsource c hc x hx
    rcases h.providesScoped.mem_vars_expand hof hsource hc hx with hx | ⟨p, hp, rfl⟩
    · exact hbound x hx
    · exact hfresh _ (hof.new_param hp).isFresh
  constraints := by
    intro n n' i hof hsource p hp c hc x hx
    cases hof with
    | given p => cases hp
    | declared i ρ hnew hinj =>
        obtain ⟨q, hq, rfl⟩ := List.mem_map.1 hp
        obtain ⟨d, hd, rfl⟩ := List.mem_map.1 hc
        obtain ⟨y, hy, rfl⟩ := Ty.mem_vars_rename.1 hx
        obtain ⟨p, hp, rfl⟩ := h.constraints i hsource q hq d hd y hy
        exact hfresh _ (hnew p hp).isFresh
  ty := by
    intro n n' i hof hsource x hx
    rcases hof.vars_ty hsource (fun p hp => (h.given p hp).1) hx with hx | hnew
    · exact hbound x hx
    · exact hfresh x hnew.isFresh

theorem lookup_of_infer (hsite : site.Scoped) {params : List Param} {args : List (Option Ty)}
    (hnodup : (params.map Param.var).Nodup) (hlength : args.length = params.length)
    (hargs : ∀ t, some t ∈ args → ∀ x ∈ t.vars, x ∈ site.scope.bound ∧ x ∉ params.map Param.var)
    {p : Param} (hp : p.isOrdinary = true) (hfresh : p.var.isFresh = false) {t : Ty}
    (hmem : (p, some t) ∈ params.zip args) {trail : Trail} {m : Memory} {s : Subst}
    (h : ((site.infer params args .empty trail).run m).1 = .ok s) : s.lookup p.var = t := by
  obtain ⟨hparam, harg⟩ := List.of_mem_zip hmem
  have hspeaks : site.Speaks (site.Elsewhere p.var) := by
    refine hsite.speaks (fun x => elsewhere_of_mem_bound) fun x hx => .inr ?_
    rintro rfl
    rw [hx] at hfresh
    cases hfresh
  have hvars : (params.zip args).map (fun pair => pair.1.var) = params.map Param.var :=
    calc
      (params.zip args).map (fun pair => pair.1.var) =
          ((params.zip args).map Prod.fst).map Param.var := (List.map_map ..).symm
      _ = params.map Param.var := by rw [List.map_fst_zip hlength.ge]
  have hother : ∀ q ∈ params, q.var ∉ t.vars := fun q hq hx =>
    (hargs t harg q.var hx).2 (List.mem_map_of_mem hq)
  have hsolving : site.SolvingKeeps (site.judgeBelow trail) trail (site.Settled p.var t)
      fun q => q.var ≠ p.var ∧ q.var ∉ t.vars :=
    solvingKeeps_settled hspeaks (judgeConfined_judgeWithin hspeaks _)
      fun x hx => (hargs t harg x hx).1
  refine Subst.lookup_of_get? (returns_inferWith hsolving (fun u hu => ⟨?_, ?_⟩) m s h).get?
  · refine settled_of_unsolved? Subst.within_empty hmem (hvars ▸ hnodup)
      (fun x hx => (hargs t harg x hx).1) (fun pair hpair => ?_) hu
    obtain ⟨hq, harg'⟩ := List.of_mem_zip hpair
    exact ⟨hother pair.1 hq, fun t' ht' x hx => (hargs t' (ht' ▸ harg') x hx).1⟩
  · intro q hq
    obtain ⟨hwitness, arg, hpair⟩ := exists_of_mem_witnesses hu hq
    have hq' := (List.of_mem_zip hpair).1
    refine ⟨fun heq => ?_, hother q hq'⟩
    obtain rfl := List.inj_on_of_nodup_map hnodup hq' hparam heq
    simp only [Param.isOrdinary, Param.isWitness, beq_iff_eq] at hp hwitness
    rw [hp] at hwitness
    cases hwitness

/-- A completed argument list fills up the one that the supplied arguments were handed out to: from
inference, or with every open parameter standing for itself. -/
theorem exists_fill_of_completeArgs {supplied : List Ty} {params : List Param} {keepOpen : Bool}
    {m : Memory} {args : List Ty}
    (h : ((site.completeArgs supplied params keepOpen).run m).1 = some args) :
    ordinaryCount params = supplied.length ∧
      ∃ fill : Option Ty × Param → Ty, args = ((handOut supplied params).zip params).map fill ∧
        ((∃ s, ((site.infer params (handOut supplied params) .empty .empty).run m).1 = .ok s ∧
          fill = fun a => s.lookup a.2.var) ∨ fill = fun a => a.1.getD a.2.ty) := by
  rw [completeArgs_eq] at h
  unfold interleave at h
  split at h
  · cases h
  · next args' hargs =>
    split at hargs
    · next hcount =>
      cases hargs
      refine ⟨hcount, ?_⟩
      rw [StateT.run_bind] at h
      cases hinfer : (site.infer params (handOut supplied params) .empty .empty).run m with
      | mk result m' =>
          rw [hinfer] at h
          replace h : completed params (handOut supplied params) keepOpen result = some args := h
          cases result with
          | ok s =>
              cases h
              refine ⟨fun a => s.lookup a.2.var, ?_, .inl ⟨s, rfl, rfl⟩⟩
              have hparams : ((handOut supplied params).zip params).map Prod.snd = params :=
                List.map_snd_zip (length_handOut supplied params).ge
              calc
                params.map (fun p => s.lookup p.var) =
                    (((handOut supplied params).zip params).map Prod.snd).map
                      fun p => s.lookup p.var := by rw [hparams]
                _ = _ := List.map_map ..
          | error diagnostics =>
              rw [completed] at h
              split at h
              · cases h
                exact ⟨fun a => a.1.getD a.2.ty, rfl, .inr rfl⟩
              · cases h
    · cases hargs

end Site

/-- A completed argument list has an argument for every parameter, and the ones that were supplied
in the places of the ordinary parameters; provided that they are over the variables of the scope and
mention no variable that a parameter is named after as well. -/
theorem completeArgs_keeps {site : Site} (hsite : site.Scoped) {params : List Param}
    (hnodup : (params.map Param.var).Nodup)
    (hnamed : ∀ p ∈ params, p.isOrdinary = true → p.var.isFresh = false) {supplied : List Ty}
    (hsupplied : ∀ t ∈ supplied, ∀ x ∈ t.vars, x ∈ site.scope.bound ∧ x ∉ params.map Param.var)
    {keepOpen : Bool} {m : Memory} {args : List Ty}
    (h : ((site.completeArgs supplied params keepOpen).run m).1 = some args) :
    args.length = params.length ∧ ordinaryArgs params args = supplied := by
  obtain ⟨hcount, fill, rfl, hfill⟩ := Site.exists_fill_of_completeArgs h
  refine ⟨by simp [length_handOut], ordinaryArgs_filled hcount fun a ha t ht hp => ?_⟩
  rcases hfill with ⟨s, hinfer, rfl⟩ | rfl
  · obtain ⟨harg, hparam⟩ := List.of_mem_zip ha
    refine Site.lookup_of_infer hsite hnodup (length_handOut supplied params)
      (fun t ht => hsupplied t (Site.mem_supplied_of_mem_handOut ht)) hp (hnamed a.2 hparam hp) ?_
      hinfer
    rw [← ht, ← List.zip_swap]
    exact List.mem_map.2 ⟨a, ha, rfl⟩
  · simp [ht]

/-- A generic function over a type whose equality is witnessed calls another one at lists of its
type. -/
theorem completeArgs_keeps_list :
    let a : TyVar := ⟨"'a"⟩
    let e : TyVar := ⟨"'e"⟩
    let t : TyVar := ⟨"'t"⟩
    let w : TyVar := ⟨"'w"⟩
    let scope : List Param := [.ordinary a, .witness e [.app "Eq" [.var a]]]
    let params : List Param := [.witness w [.app "Eq" [.var t]], .ordinary t]
    let site := Registry.ordered.site scope .standard
    let supplied : List Ty := [.list (.var a)]
    ∃ args, ((site.completeArgs supplied params false).run .empty).1 = some args ∧
      args = [.app "ListEq" [.var a, .var e], .list (.var a)] ∧
      args.length = params.length ∧ ordinaryArgs params args = supplied := by
  intro a e t w scope params site supplied
  have hsite : Registry.ordered.WellScoped scope := by decide +kernel
  have hrun : ((site.completeArgs supplied params false).run .empty).1 =
      some [.app "ListEq" [.var a, .var e], .list (.var a)] := by
    decide +kernel
  refine ⟨_, hrun, rfl, ?_⟩
  exact completeArgs_keeps (hsite.site .standard).scoped (by decide +kernel) (by decide +kernel)
    (by decide +kernel) hrun

/-- Inside a function over two types, to call a function over two types of the same names with the
two types exchanged: the first argument is taken for the second parameter. -/
theorem not_keeps_of_captured :
    let a : TyVar := ⟨"'a"⟩
    let b : TyVar := ⟨"'b"⟩
    let params : List Param := [.ordinary a, .ordinary b]
    let site := Registry.empty.site params .standard
    let supplied : List Ty := [.var b, .var a]
    (params.map Param.var).Nodup ∧
      ∃ args, ((site.completeArgs supplied params false).run .empty).1 = some args ∧
        args = [.var b, .var b] ∧ ordinaryArgs params args ≠ supplied := by
  intro a b params site supplied
  refine ⟨by decide +kernel, _, ?_, rfl, by decide +kernel⟩
  decide +kernel

end ConceptResolution
