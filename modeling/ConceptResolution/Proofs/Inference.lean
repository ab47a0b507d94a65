import ConceptResolution.Proofs.Resolution

namespace ConceptResolution

namespace Site

variable {site : Site}

def Here (site : Site) (params : List Param) (x : TyVar) : Prop :=
  (∃ p ∈ params, p.var = x) ∨ x ∈ site.scope.bound

structure Supplied (site : Site) (params : List Param) (s : Subst) : Prop where
  within : s.Within (fun v => ∃ p ∈ params, p.kind = .ordinary ∧ p.var = v)
    (· ∈ site.scope.bound)
  fits : s.Fits site.model

theorem Supplied.solved {params : List Param} {s : Subst} (h : site.Supplied params s)
    (hfree : ∀ p ∈ params, p.var ∉ site.scope.bound) : s.Solved := by
  intro v t hv w hw hdomain
  obtain ⟨p, hp, -, rfl⟩ := h.within.of_mem_domain hdomain
  exact hfree p hp ((h.within v t hv).2 p.var hw)

theorem supplied_empty (params : List Param) : site.Supplied params .empty :=
  ⟨fun v t hv => by simp at hv, Subst.fits_empty⟩

theorem Supplied.add {params : List Param} {s : Subst} (h : site.Supplied params s)
    (hfree : ∀ p ∈ params, p.var ∉ site.scope.bound) {p : Param} (hp : p ∈ params)
    (hkind : p.kind = .ordinary) (hget : s.get? p.var = none) {t : Ty}
    (hfits : site.model.fits t = true) (hvars : ∀ x ∈ t.vars, x ∈ site.scope.bound) :
    site.Supplied params ((Subst.single p.var t).compose s) := by
  have hidem := (Subst.solved_iff.1 (h.solved hfree)).1
  have hnot : p.var ∉ t.vars := fun hx => hfree p hp (hvars p.var hx)
  have hlookup : ∀ x ∈ site.scope.bound, s.lookup x = .var x := by
    intro x hx
    refine Subst.lookup_of_notMem fun hdomain => ?_
    obtain ⟨q, hq, -, rfl⟩ := h.within.of_mem_domain hdomain
    exact hfree q hq hx
  have hfix : (Subst.single p.var t).Untouched s := by
    intro x hx
    rcases Subst.occurs_single_iff.1 hx with rfl | hx
    · exact Subst.lookup_of_notMem (Subst.get?_eq_none_iff.1 hget)
    · exact hlookup x (hvars x hx)
  refine ⟨Subst.Within.compose (fun v u hv => ?_) h.within, fun x => ?_⟩
  · rw [Subst.get?_single] at hv
    split at hv
    · next heq =>
      cases hv
      exact ⟨⟨p, hp, hkind, heq.symm⟩, hvars⟩
    · cases hv
  · rw [Subst.lookup_compose (Subst.idempotent_single hnot) hidem hfix]
    refine Subst.Fits.apply (fun y => ?_) (h.fits x)
    rw [Subst.lookup_single]
    split
    · exact hfits
    · rfl

theorem unsolved?_of_supplied {params : List Param}
    (hfree : ∀ p ∈ params, p.var ∉ site.scope.bound) {rest : List (Param × Option Ty)} {s : Subst}
    {u : Unsolved} (hs : site.Supplied params s) (hrest : ∀ pair ∈ rest, pair.1 ∈ params)
    (hnodup : (rest.map fun pair => pair.1.var).Nodup)
    (hopen : ∀ pair ∈ rest, s.get? pair.1.var = none)
    (hargs : ∀ pair ∈ rest, ∀ t, pair.2 = some t → pair.1.kind = .ordinary ∧
      site.model.fits t = true ∧ ∀ x ∈ t.vars, x ∈ site.scope.bound)
    (h : site.unsolved? rest s = some u) :
    site.Supplied params u.subst ∧ u.witnesses = (rest.map Prod.fst).filter Param.isWitness := by
  induction rest generalizing s u with
  | nil =>
      cases h
      exact ⟨hs, rfl⟩
  | cons pair rest ih =>
      obtain ⟨p, arg⟩ := pair
      obtain ⟨hp, hrest'⟩ := List.forall_mem_cons.1 hrest
      obtain ⟨hget, hopen'⟩ := List.forall_mem_cons.1 hopen
      obtain ⟨harg, hargs'⟩ := List.forall_mem_cons.1 hargs
      obtain ⟨hnot, hnodup'⟩ := List.nodup_cons.1 hnodup
      rw [List.map_cons, List.filter_cons]
      rcases unsolved?_cons h with ⟨-, t, ht, hu⟩ | ⟨-, -, u', hu', hsubst, hwitnesses⟩
      · cases arg with
        | none => rw [known, hget] at ht; cases ht
        | some t' =>
            obtain ⟨hkind, hfits, hvars⟩ := harg t' rfl
            have ht' : t = t' := by
              rw [known, Option.some.injEq] at ht
              rw [← ht]
              refine Subst.apply_eq_self_iff.2 fun x hx => Subst.lookup_of_notMem fun hdomain => ?_
              obtain ⟨q, hq, -, rfl⟩ := hs.within.of_mem_domain hdomain
              exact hfree q hq (hvars q.var hx)
            subst ht'
            rw [hget, if_neg (by simp)] at hu
            have hwitness : ¬p.isWitness = true := by
              rw [Param.isWitness, show p.kind = .ordinary from hkind]
              decide
            rw [if_neg hwitness]
            have hs := hs.add hfree hp hkind hget hfits hvars
            refine ih hs hrest' hnodup' (fun q hq => ?_) hargs'
              hu
            refine Subst.get?_eq_none_iff.2 fun hdomain => ?_
            rcases Subst.mem_domain_of_compose hdomain with hdomain | hdomain
            · refine hnot (List.mem_map.2 ⟨q, hq, ?_⟩)
              simpa [Subst.domain, Subst.single] using hdomain
            · exact Subst.get?_eq_none_iff.1 (hopen' q hq) hdomain
      · obtain ⟨hs', hwitnesses'⟩ := ih hs hrest' hnodup' hopen' hargs' hu'
        rw [hsubst, hwitnesses, hwitnesses']
        exact ⟨hs', rfl⟩

theorem Supplied.solves {params : List Param} {s : Subst} (h : site.Supplied params s)
    (hfree : ∀ p ∈ params, p.var ∉ site.scope.bound)
    (hnodup : (params.map Param.var).Nodup) (n : Nat) :
    site.Solves True params (site.Here params) n .empty (params.filter Param.isWitness) s n where
  le := Nat.le_refl n
  idempotent := (Subst.solved_iff.1 (h.solved hfree)).1
  occurs x hx := by
    refine .inl (Subst.Within.of_occurs (V := site.Here params) (h.within.mono ?_ fun _ => .inr) hx)
    rintro v ⟨p, hp, -, rfl⟩
    exact .inl ⟨p, hp, rfl⟩
  rigid x hx := by
    refine Subst.lookup_of_notMem fun hdomain => ?_
    obtain ⟨p, hp, -, rfl⟩ := h.within.of_mem_domain hdomain
    exact hfree p hp hx
  extends_seed t := by rw [Subst.apply_empty]
  sublist := List.filter_sublist
  witness p hp := (List.mem_filter.1 hp).2
  untouched p hp := by
    obtain ⟨hp, hwitness⟩ := List.mem_filter.1 hp
    refine .inl ?_
    rintro (hdomain | ⟨v, t, hv, hx⟩)
    · obtain ⟨q, hq, hkind, heq⟩ := h.within.of_mem_domain hdomain
      cases List.inj_on_of_nodup_map hnodup hq hp heq
      simp [Param.isWitness, hkind] at hwitness
    · exact hfree p hp ((h.within v t hv).2 p.var hx)
  solved p hp hwitness := .inl (List.mem_filter.2 ⟨hp, hwitness⟩)
  fits _ x _ _ := h.fits x
  backs _ _ p hp hwitness := .inl (List.mem_filter.2 ⟨hp, hwitness⟩)

theorem frame_here {params : List Param} (hsite : site.WellScoped) (hfinite : site.model.Finitary)
    (hnamed : ∀ p ∈ params, p.var.isFresh = false)
    (hfree : ∀ p ∈ params, p.var ∉ site.scope.bound)
    (hconstraints : ∀ p ∈ params, p.isWitness = true → ∀ c ∈ p.constraints,
      site.model.fits c = true ∧ ∀ x ∈ c.vars, Plain params x ∨ x ∈ site.scope.bound) (n : Nat) :
    site.Frame True params (site.Here params) n where
  old x hx := by
    rcases hx with ⟨p, hp, rfl⟩ | hx
    · exact VarSupply.old_of_not_isFresh (hnamed p hp)
    · exact VarSupply.old_of_not_isFresh (hsite.bound x hx)
  bound x hx := .inr hx
  param p hp := .inl ⟨p, hp, rfl⟩
  free p hp _ := hfree p hp
  constraint p hp hwitness c hc x hx := by
    rcases (hconstraints p hp hwitness c hc).2 x hx with hplain | hx
    · refine ⟨.inl hplain.1, ?_⟩
      rintro ⟨q, hq, hqwitness, heq⟩
      exact hplain.2 q hq hqwitness heq
    · refine ⟨.inr hx, ?_⟩
      rintro ⟨q, hq, -, rfl⟩
      exact hfree q hq hx
  fit _ := ⟨hfinite, fun p hp hwitness c hc => (hconstraints p hp hwitness c hc).1⟩

theorem solves_unsolved_here {params : List Param} {args : List (Option Ty)}
    (hfree : ∀ p ∈ params, p.var ∉ site.scope.bound) (hnodup : (params.map Param.var).Nodup)
    (hlength : params.length = args.length)
    (hargs : ∀ pair ∈ params.zip args, ∀ t, pair.2 = some t → pair.1.kind = .ordinary ∧
      site.model.fits t = true ∧ ∀ x ∈ t.vars, x ∈ site.scope.bound) (n : Nat) {u : Unsolved}
    (hu : site.unsolved? (params.zip args) .empty = some u) :
    site.Solves True params (site.Here params) n .empty u.witnesses u.subst n := by
  have hfst : (params.zip args).map Prod.fst = params := List.map_fst_zip hlength.le
  have hvars : ((params.zip args).map fun pair => pair.1.var) = params.map Param.var := by
    rw [← hfst, List.map_map, hfst]
    rfl
  obtain ⟨hsupplied, hwitnesses⟩ := unsolved?_of_supplied hfree (supplied_empty params)
    (fun pair hpair => (List.of_mem_zip hpair).1) (hvars ▸ hnodup) (fun _ _ => rfl) hargs hu
  rw [hwitnesses, hfst]
  exact hsupplied.solves hfree hnodup n

end Site

theorem Site.Provides.satisfies {r : Registry} {scope : List Param} {options : Options} {t c : Ty}
    (h : (r.site scope options).Provides t c) :
    r.model.satisfies (Scope.ofParams r.instances scope).givens t c = true := by
  have htidy := Scope.tidy_ofParams r.instances scope
  refine List.contains_iff_mem.2 ?_
  cases h with
  | @given p c hp hc =>
      have hfind : ((Scope.ofParams r.instances scope).givens.find? fun q => q.var == p.var) =
          some p := by
        have hgiven : p ∈ (Scope.ofParams r.instances scope).givens := (htidy.mem_givens_iff p).2 hp
        cases hfind : (Scope.ofParams r.instances scope).givens.find? fun q => q.var == p.var with
        | none => exact absurd (List.find?_eq_none.1 hfind p hgiven) (by simp)
        | some q =>
            have hq := (htidy.mem_givens_iff q).1 (List.mem_of_find?_eq_some hfind)
            have hvar : q.var = p.var := by simpa using List.find?_some hfind
            have hname : (Evidence.given q).name = (Evidence.given p).name :=
              congrArg TyVar.name hvar
            cases htidy.eq_of_name_eq hq hp hname
            rfl
      rw [Param.ty, ConceptModel.conceptsOf, hfind]
      exact hc
  | @declared i args c hi hlength hc =>
      have hinstance : r.model.instanceOf? (.named i.name args) = some i := by
        rw [ConceptModel.instanceOf?, Site.head?_named, Option.bind_some, r.model_instance?]
        exact Scope.find?_of_declared_mem_ofParams hi
      have hne : ∀ v, Ty.named i.name args = .var v → False := by
        cases args <;> exact fun v hv => by cases hv
      rw [ConceptModel.conceptsOf.eq_2 _ _ _ hne, hinstance]
      exact hc

/-- Every witness that inference finds is evidence in scope that satisfies all constraints on its
parameter, at the types that the other parameters have come to stand for. The constraints must not
mention witnesses, and what is supplied and required must respect the declared arities. -/
theorem infer_satisfies {r : Registry} {scope params : List Param} {options : Options}
    {args : List (Option Ty)} {trail : Trail} {memory : Memory} {s : Subst}
    (hscope : r.WellScoped scope) (hfinite : r.model.Finitary)
    (hnodup : (params.map Param.var).Nodup)
    (hnames : ∀ p ∈ params, p.var.isFresh = false ∧ ∀ q ∈ scope, q.var ≠ p.var)
    (hconstraints : ∀ p ∈ params, p.isWitness = true → ∀ c ∈ p.constraints,
      r.model.fits c = true ∧ ∀ x ∈ c.vars, Plain params x ∨ ∃ q ∈ scope, q.var = x)
    (hargs : ∀ pair ∈ params.zip args, ∀ t, pair.2 = some t → pair.1.kind = .ordinary ∧
      r.model.fits t = true ∧ ∀ x ∈ t.vars, ∃ q ∈ scope, q.var = x)
    (h : (((r.site scope options).infer params args .empty trail).run memory).1 = .ok s) :
    ∀ p ∈ params, p.isWitness = true →
      (r.site scope options).IsEvidence (s.lookup p.var) ∧
      ∀ c ∈ p.constraints, r.model.satisfies (Scope.ofParams r.instances scope).givens
        (s.lookup p.var) (s.apply c) = true := by
  have hsite := hscope.site options
  have hbound : ∀ x, x ∈ (r.site scope options).scope.bound ↔ ∃ q ∈ scope, q.var = x :=
    fun x => Scope.mem_bound_ofParams
  have hfree : ∀ p ∈ params, p.var ∉ (r.site scope options).scope.bound := by
    intro p hp hx
    obtain ⟨q, hq, heq⟩ := (hbound p.var).1 hx
    exact (hnames p hp).2 q hq heq
  have hframe := Site.frame_here hsite hfinite (fun p hp => (hnames p hp).1) hfree
    (fun p hp hwitness c hc => (hconstraints p hp hwitness c hc).imp_right fun hvars x hx =>
      (hvars x hx).imp_right (hbound x).2) memory.supply.next
  rcases Decidable.em (params.length = args.length) with hlength | hlength
  · have hstart := fun u => Site.solves_unsolved_here (u := u) hfree hnodup hlength
      (fun pair hpair t ht => (hargs pair hpair t ht).imp_right
        (And.imp_right fun hclosed x hx => (hbound x).2 (hclosed x hx))) memory.supply.next
    obtain ⟨-, -, -, hresult⟩ := Site.inferSound_inferWith (fun _ _ _ => trivial) hsite
      (Site.judgeSound_judgeWithin hsite _ trail) True params args _ .empty _ hframe hstart memory
      trivial rfl
    have hsolves := hresult s h
    intro p hp hwitness
    refine ⟨(hsolves.solved p hp hwitness).resolve_left List.not_mem_nil, fun c hc => ?_⟩
    have hbacks := (hsolves.backs trivial hnodup p hp hwitness).resolve_left List.not_mem_nil c hc
    exact hbacks.provides.satisfies
  · have hrun : (((r.site scope options).infer params args .empty trail).run memory).1 =
        .error [] := by
      rw [Site.infer, Site.inferWith, if_pos hlength]
      rfl
    rw [hrun] at h
    cases h

theorem infer_satisfies_list :
    let scope : List Param := [.witness ⟨"'s"⟩ [.app "Ord" [.var ⟨"'s"⟩]]]
    let site := Registry.ordered.site scope .standard
    let params : List Param := [.ordinary ⟨"'t"⟩, .witness ⟨"'w"⟩ [.app "Eq" [.var ⟨"'t"⟩]]]
    let args : List (Option Ty) := [some (.list (.list (.var ⟨"'s"⟩))), none]
    ∃ s, ((site.infer params args .empty .empty).run .empty).1 = .ok s ∧
      s.lookup ⟨"'w"⟩ = .app "ListEq" [.list (.var ⟨"'s"⟩),
        .app "ListEq" [.var ⟨"'s"⟩, .var ⟨"'s"⟩]] ∧
      ∀ p ∈ params, p.isWitness = true → site.IsEvidence (s.lookup p.var) ∧
        ∀ c ∈ p.constraints,
          site.model.satisfies site.scope.givens (s.lookup p.var) (s.apply c) = true := by
  intro scope site params args
  have hrun : ((site.infer params args .empty .empty).run .empty).1.toOption.any (fun s =>
      s.lookup ⟨"'w"⟩ == .app "ListEq" [.list (.var ⟨"'s"⟩),
        .app "ListEq" [.var ⟨"'s"⟩, .var ⟨"'s"⟩]]) := by
    decide +kernel
  cases h : ((site.infer params args .empty .empty).run .empty).1 with
  | error diagnostics => simp [h, Except.toOption] at hrun
  | ok s =>
      refine ⟨s, rfl, by simpa [h, Except.toOption] using hrun, ?_⟩
      refine infer_satisfies (by decide +kernel) (Registry.Flat.finitary (by decide))
        (by decide +kernel) (by decide +kernel) (by decide +kernel) ?_ h
      intro pair hpair t ht
      rcases List.mem_cons.1 hpair with rfl | hpair
      · cases ht
        decide +kernel
      · rw [List.mem_singleton.1 hpair] at ht
        cases ht

def Param.entangled : List Param :=
  [.witness ⟨"'w"⟩ [.app "Eq" [.var ⟨"'v"⟩]], .witness ⟨"'v"⟩ [.app "Show" [.int]]]

def Registry.entangled : Registry where
  concepts := [⟨"Eq", [⟨"'a"⟩], [], [], []⟩, ⟨"Show", [⟨"'a"⟩], [], [], []⟩]
  instances :=
    [⟨"IntEq", [], [.app "Eq" [.int]], .neither, []⟩,
      ⟨"IntShow", [], [.app "Show" [.int]], .neither, []⟩]
  typeConcepts := []

/-- A witness that the constraint of another one mentions may be taken for an ordinary type: it
counts as fixed then, and its own constraints are not looked at. -/
theorem not_satisfies_of_entangled :
    let r := Registry.entangled
    let site := r.site [] .standard
    let params := Param.entangled
    r.WellScoped [] ∧ r.model.Finitary ∧ (params.map Param.var).Nodup ∧
      (∀ p ∈ params, p.var.isFresh = false ∧ ∀ c ∈ p.constraints, r.model.fits c = true ∧
        ∀ x ∈ c.vars, x ∈ params.map Param.var) ∧
      ∃ s, ((site.infer params [none, none] .empty .empty).run .empty).1 = .ok s ∧
        ∃ p ∈ params, p.isWitness = true ∧ ∃ c ∈ p.constraints,
          r.model.satisfies site.scope.givens (s.lookup p.var) (s.apply c) = false := by
  intro r site params
  refine ⟨by decide +kernel, Registry.Flat.finitary (by decide), by decide +kernel,
    by decide +kernel, ?_⟩
  have hrun : ((site.infer params [none, none] .empty .empty).run .empty).1.toOption.any
      (fun s => params.any fun p => p.isWitness && p.constraints.any fun c =>
        !r.model.satisfies site.scope.givens (s.lookup p.var) (s.apply c)) := by
    decide +kernel
  cases h : ((site.infer params [none, none] .empty .empty).run .empty).1 with
  | error diagnostics => simp [h, Except.toOption] at hrun
  | ok s =>
      refine ⟨s, rfl, ?_⟩
      simpa [h, Except.toOption] using hrun

end ConceptResolution
