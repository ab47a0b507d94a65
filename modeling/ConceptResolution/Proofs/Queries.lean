import ConceptResolution.Document.Answer
import ConceptResolution.Proofs.Completion

namespace ConceptResolution

namespace Subst

/-- The first witness that is found is bound to its parameter as it stands under what was found
along with it, as long as neither of them speaks of the parameter. -/
theorem lookup_withWitness_empty {p : Param} {v : Viable} (hidem : v.subst.Idempotent)
    (hsubst : ¬v.subst.Occurs p.var) (hty : p.var ∉ v.ty.vars) :
    (empty.withWitness p v).lookup p.var = v.subst.apply v.ty := by
  have hsingle := idempotent_single hty
  have hstart : (single p.var v.ty).Untouched empty := fun x _ =>
    lookup_of_not_occurs (not_occurs_empty x)
  have hbinding : ∀ x, ((single p.var v.ty).compose empty).lookup x =
    (single p.var v.ty).lookup x := by
    intro x
    rw [lookup_compose hsingle idempotent_empty hstart, lookup_of_not_occurs (not_occurs_empty x),
      apply_var]
  have hfix : v.subst.Untouched ((single p.var v.ty).compose empty) := by
    intro x hx
    rw [hbinding]
    exact lookup_single_of_ne v.ty fun heq => hsubst (heq ▸ hx)
  rw [Site.withWitness_of_not_occurs (not_occurs_empty p.var),
    lookup_compose hidem (idempotent_compose hsingle idempotent_empty hstart) hfix, hbinding,
    lookup_single, if_pos rfl]

end Subst

theorem ConceptModel.required_witness_single (M : ConceptModel) (w : TyVar) (c : Ty) :
    M.required (.witness w [c]) .empty = [c] := by
  have heach : (Subst.empty.applyAll [c]).eraseDups = [c] := by
    simp [Subst.applyAll, List.eraseDups_cons]
  rw [required, Param.witness, heach]
  simp [coverFrom]

namespace Site

variable {site : Site}

section Single

variable {p : Param} {s : Subst} {trail : Trail}

theorem rounds_single (judge : Judge) (fuel : Nat)
    (hopen : ¬site.scope.isFixed (s.get? p.var) = true) :
    site.rounds judge trail (fuel + 1) [p] s =
      site.resolveWith judge (site.model.required p s) trail >>= fun answer =>
        pure (answer.map (s.withWitness p)) := by
  have hround : site.round judge trail [p] s =
      site.resolveWith judge (site.model.required p s) trail >>= fun answer =>
        pure (answered ⟨s, [], [], false⟩ p answer) := by
    rw [round, List.foldlM_cons, attempt_eq, if_neg hopen]
    exact bind_pure _
  rw [rounds, hround, bind_assoc]
  · refine bind_congr fun answer => ?_
    cases answer <;> rfl
  · simp

theorem infer_single (hp : p.isWitness = true)
    (hopen : ¬site.scope.isFixed (s.get? p.var) = true) :
    site.infer [p] [none] s trail =
      site.resolve (site.model.required p s) trail >>= fun answer =>
        pure (answer.map (s.withWitness p)) := by
  have hkind : p.kind = .witness := by simpa [Param.isWitness] using hp
  have hunsolved : site.unsolved? [(p, none)] s = some ⟨s, [p], []⟩ := by
    rw [unsolved?_cons_eq, known, if_neg hopen, hkind]
    rfl
  rw [infer, inferWith_eq, if_neg (by simp), List.zip_cons_cons, List.zip_nil_right, hunsolved]
  refine (congrArg (· >>= _) (rounds_single _ 0 hopen)).trans ?_
  rw [bind_assoc]
  refine bind_congr fun answer => ?_
  cases answer <;> rfl

theorem completeArgs_single (w : TyVar) (c : Ty) (keepOpen : Bool) :
    site.completeArgs [] [.witness w [c]] keepOpen =
      site.resolve [c] .empty >>= fun answer =>
        pure (answer.toOption.map fun v =>
          [(Subst.empty.withWitness (.witness w [c]) v).lookup w]) := by
  have hrequired := site.model.required_witness_single w c
  have hinterleave : interleave [] [.witness w [c]] = some [none] := rfl
  rw [completeArgs_eq, hinterleave]
  refine (congrArg (· >>= _) (infer_single rfl (by simp [Scope.isFixed]))).trans ?_
  rw [hrequired, bind_assoc]
  refine bind_congr fun answer => ?_
  cases answer with
  | ok v => rfl
  | error diagnostics => cases keepOpen <;> rfl

end Single

theorem returns_complete_ty (infer : Infer) (v : Viable) (trail : Trail) :
    Search.Returns (site.complete infer v trail) fun verdict =>
      ∀ v', verdict.viable? = some v' → v'.ty = v'.subst.apply v'.candidate.ty := by
  rw [complete_eq]
  refine (Search.returns_true _).bind fun result _ => Search.returns_pure fun v' hv' => ?_
  obtain ⟨s, -, rfl⟩ := eq_of_viable_verdict hv'
  rfl

theorem returns_resolve_ty (required : List Ty) (trail : Trail) :
    Search.Returns (site.resolve required trail) fun result =>
      ∀ v, result = .ok v → v.ty = v.subst.apply v.candidate.ty := by
  refine returns_resolveWith_of ?_ fun v hv => ?_
  · intro m v hv
    obtain ⟨_, hcandidate⟩ := exists_candidate_of_mem_matching hv
    exact hcandidate.ty
  · rw [judgeBelow]
    cases site.options.maxDepth - trail.depth with
    | zero => exact returns_judge hv fun inner => returns_complete_ty _ v inner
    | succ levels => exact returns_judge hv fun inner => returns_complete_ty _ v inner

theorem lookup_of_resolve (hsite : site.WellScoped) {c : Ty} (hc : ∀ x ∈ c.vars, x.isFresh = false)
    {p : Param} (hp : p.var.isFresh = false) (hfree : p.var ∉ site.scope.bound)
    (hapart : p.var ∉ c.vars) {trail : Trail} {m : Memory} {v : Viable}
    (h : ((site.resolve [c] trail).run m).1 = .ok v) :
    (Subst.empty.withWitness p v).lookup p.var = v.ty := by
  have hspeaks : site.Speaks (· ≠ p.var) := by
    refine hsite.scoped.speaks (fun x hx heq => hfree (heq ▸ hx)) fun x hx heq => ?_
    rw [heq, hp] at hx
    cases hx
  have hconfined : site.ConfinedViable (· ≠ p.var) v :=
    returns_resolveWith (judgeConfined_judgeWithin hspeaks _) hspeaks
      (by simpa using fun x hx (heq : x = p.var) => hapart (heq ▸ hx)) m v h
  have hsubst : ¬v.subst.Occurs p.var := fun hx =>
    Subst.Within.of_occurs (hconfined.subst.mono (fun _ => And.left) fun _ => id) hx rfl
  have hold : ∀ d ∈ [c], ∀ x ∈ d.vars, VarSupply.Old m.supply.next x := by
    simpa using fun x hx => VarSupply.old_of_not_isFresh (hc x hx)
  obtain ⟨-, -, -, hresolved⟩ := ensures_resolveWith (fun _ _ _ => trivial)
    (judgeSound_judgeWithin hsite _ trail) hold m trivial rfl
  have hidem := (hresolved v h).idempotent
  calc
    (Subst.empty.withWitness p v).lookup p.var = v.subst.apply v.ty :=
      Subst.lookup_withWitness_empty hidem hsubst fun hx => hconfined.ty p.var hx rfl
    _ = v.ty := by rw [returns_resolve_ty [c] trail m v h, hidem]

/-- A request for a single witness parameter and a call come to the same end, on the same witness
and with the same memory. -/
theorem run_completeArgs_single (hsite : site.WellScoped) {c : Ty}
    (hc : ∀ x ∈ c.vars, x.isFresh = false) {w : TyVar} (hw : w.isFresh = false)
    (hfree : w ∉ site.scope.bound) (hapart : w ∉ c.vars) (keepOpen : Bool) (m : Memory) :
    (site.completeArgs [] [.witness w [c]] keepOpen).run m =
      ((((site.resolveUnder [c] .empty .empty).run m).1.toOption.map fun v => [v.ty]),
        ((site.resolveUnder [c] .empty .empty).run m).2) := by
  have happly : Subst.empty.applyAll [c] = [c] := by simp [Subst.applyAll]
  rw [completeArgs_single, resolveUnder_eq, happly, StateT.run_bind, StateT.run_bind]
  cases hrun : (site.resolve [c] .empty).run m with
  | mk answer m' =>
      cases answer with
      | error diagnostics => rfl
      | ok v =>
          have hlookup : (Subst.empty.withWitness (.witness w [c]) v).lookup w = v.ty :=
            lookup_of_resolve hsite hc hw hfree hapart (by rw [hrun])
          exact congrArg (fun t => (some [t], m')) hlookup

end Site

namespace Document

variable {d : Document} {options : Options} {source : SourceLine}

theorem answer_resolve_of_completeArgs {params : List Param} {supplied args : List Ty}
    (h : (((d.site options).completeArgs supplied params true).run .empty).1 = some args) :
    d.answer options ⟨.resolve params supplied, source⟩ = .ok ("[" ++ Ty.listText args ++ "]") := by
  change ((answerResolve _ params supplied source).run .empty).1 = _
  rw [answerResolve, StateT.run_bind]
  cases hrun : ((d.site options).completeArgs supplied params true).run .empty with
  | mk result m =>
      rw [hrun] at h
      cases h
      rfl

theorem answer_call_of_resolveUnder {method : String} {c : Ty} {v : Viable}
    (h : (((d.site options).resolveUnder [c] .empty .empty).run .empty).1 = .ok v) :
    d.answer options ⟨.call method c, source⟩ =
      match d.registry.model.dispatch? v.ty c method with
      | some plan => .ok plan.text
      | none => .error (.noMethod v.ty method c source) := by
  change ((answerCall _ method c source).run .empty).1 = _
  rw [answerCall, StateT.run_bind]
  cases hrun : ((d.site options).resolveUnder [c] .empty .empty).run .empty with
  | mk result m =>
      rw [hrun] at h
      cases h
      have hmodel : (d.site options).model = d.registry.model := rfl
      simp only [bind, hmodel]
      cases d.registry.model.dispatch? v.ty c method <;> rfl

end Document

/-- A witness parameter of some concept is given a witness exactly if a call finds that one for the
concept; so the call goes to the witness that is printed. The variable of the parameter is no
variable of the concept or the scope. -/
theorem queries_agree {d : Document} (options : Options) (hscope : d.registry.WellScoped d.givens)
    {c : Ty} (hc : ∀ x ∈ c.vars, x.isFresh = false) {w : TyVar} (hw : w.isFresh = false)
    (hapart : w ∉ c.vars) (hgivens : ∀ p ∈ d.givens, p.var ≠ w) (t : Ty) :
    let site := d.site options
    let given := ((site.completeArgs [] [.witness w [c]] true).run .empty).1
    (given = some [t] ↔
      ∃ v, ((site.resolveUnder [c] .empty .empty).run .empty).1 = .ok v ∧ v.ty = t) ∧
      (given = some [t] → ∀ source : SourceLine,
        d.answer options ⟨.resolve [.witness w [c]] [], source⟩ = .ok ("[" ++ t.text ++ "]") ∧
        ∀ method, d.answer options ⟨.call method c, source⟩ =
          match d.registry.model.dispatch? t c method with
          | some plan => .ok plan.text
          | none => .error (.noMethod t method c source)) := by
  intro site given
  have hfree : w ∉ site.scope.bound := by
    intro hmem
    obtain ⟨p, hp, heq⟩ := Scope.mem_bound_ofParams.1 hmem
    exact hgivens p hp heq
  have hgiven : given =
      ((site.resolveUnder [c] .empty .empty).run .empty).1.toOption.map fun v => [v.ty] :=
    congrArg Prod.fst (Site.run_completeArgs_single
      (hscope.site options) hc hw hfree hapart true .empty)
  have hiff : given = some [t] ↔
      ∃ v, ((site.resolveUnder [c] .empty .empty).run .empty).1 = .ok v ∧ v.ty = t := by
    rw [hgiven]
    cases ((site.resolveUnder [c] .empty .empty).run .empty).1 with
    | error diagnostics => simp [Except.toOption]
    | ok v => simp [Except.toOption]
  refine ⟨hiff, fun hsome source => ⟨?_, fun method => ?_⟩⟩
  · exact Document.answer_resolve_of_completeArgs hsome
  · obtain ⟨v, hv, rfl⟩ := hiff.1 hsome
    exact Document.answer_call_of_resolveUnder hv

def Document.comparing : Document where
  registry := {
    concepts := [⟨"Eq", [⟨"'a"⟩], [], ["eq", "ne"], ["ne"]⟩]
    instances :=
      [⟨"IntEq", [], [.app "Eq" [.int]], .neither, ["eq"]⟩,
        ⟨"ListEq", [.associated ⟨"'t"⟩, .witness ⟨"'e"⟩ [.app "Eq" [.var ⟨"'t"⟩]]],
          [.app "Eq" [.list (.var ⟨"'t"⟩)]], .neither, ["eq"]⟩]
    typeConcepts := [] }
  givens := [.ordinary ⟨"'a"⟩, .witness ⟨"'e"⟩ [.app "Eq" [.var ⟨"'a"⟩]]]
  queries := []

theorem queries_agree_list :
    let d := Document.comparing
    let c : Ty := .app "Eq" [.list (.var ⟨"'a"⟩)]
    let t : Ty := .app "ListEq" [.var ⟨"'a"⟩, .var ⟨"'e"⟩]
    (∃ v, (((d.site .standard).resolveUnder [c] .empty .empty).run .empty).1 = .ok v ∧ v.ty = t) ∧
      ∀ source : SourceLine,
        d.answer .standard ⟨.resolve [.witness ⟨"'w"⟩ [c]] [], source⟩ = .ok "[ListEq['a, 'e]]" ∧
        d.answer .standard ⟨.call "ne" c, source⟩ =
          .ok "Eq[list['a]]::default::ne<ListEq['a, 'e]>" := by
  intro d c t
  have hgiven : (((d.site .standard).completeArgs [] [.witness ⟨"'w"⟩ [c]] true).run .empty).1 =
      some [t] := by
    decide +kernel
  obtain ⟨hiff, hanswers⟩ := queries_agree (d := d) .standard (by decide +kernel) (c := c)
    (by decide +kernel) (w := ⟨"'w"⟩) (by decide +kernel) (by decide +kernel) (by decide +kernel) t
  have hprinted : "[" ++ t.text ++ "]" = "[ListEq['a, 'e]]" := by decide +kernel
  have hplan : (d.registry.model.dispatch? t c "ne").map Dispatch.text =
      some "Eq[list['a]]::default::ne<ListEq['a, 'e]>" := by
    decide +kernel
  refine ⟨hiff.1 hgiven, fun source => ?_⟩
  obtain ⟨hresolve, hcall⟩ := hanswers hgiven source
  refine ⟨hprinted ▸ hresolve, ?_⟩
  obtain ⟨plan, hplan, htext⟩ := Option.map_eq_some_iff.1 hplan
  rw [hcall "ne", hplan]
  exact congrArg Except.ok htext

end ConceptResolution
