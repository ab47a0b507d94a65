import ConceptResolution.Proofs.FiniteHierarchy
import ConceptResolution.Proofs.Soundness

namespace ConceptResolution

/-- Whatever the search remembers and inside whatever trail of goals, the witness that it finds can
be derived for every concept required. -/
theorem resolve_derives {r : Registry} {scope : List Param} {options : Options} {required : List Ty}
    {trail : Trail} {memory : Memory} {v : Viable} (hscope : r.WellScoped scope)
    (hparams : ∀ i ∈ r.instances, (i.params.map Param.var).Nodup) (hfinite : r.model.Finitary)
    (hrequired : ∀ c ∈ required, r.model.fits c = true ∧ ∀ x ∈ c.vars, x.isFresh = false)
    (h : (((r.site scope options).resolve required trail).run memory).1 = .ok v) :
    ∀ c ∈ required, (r.site scope options).Derives v.ty (v.subst.apply c) := by
  intro c hc
  have hsite := hscope.site options
  have hold : ∀ c ∈ required, ∀ x ∈ c.vars, VarSupply.Old memory.supply.next x :=
    fun c hc x hx => VarSupply.old_of_not_isFresh ((hrequired c hc).2 x hx)
  obtain ⟨-, -, -, hresolved⟩ := Site.ensures_resolveWith (fun _ _ _ => trivial)
    (Site.judgeSound_judgeWithin hsite _ trail) hold memory trivial rfl
  have hdistinct : (r.site scope options).Distinct :=
    fun i hi => hparams i (Scope.mem_of_declared_mem_ofParams hi)
  exact ((hresolved v h).backs ⟨hfinite, fun c hc => (hrequired c hc).1⟩ c hc).derives hdistinct

def Registry.ordered : Registry where
  concepts := [⟨"Eq", [⟨"'a"⟩], [], [], []⟩, ⟨"Ord", [⟨"'a"⟩], [.app "Eq" [.var ⟨"'a"⟩]], [], []⟩]
  instances :=
    [⟨"IntOrd", [], [.app "Ord" [.int]], .neither, []⟩,
      ⟨"ListEq", [.associated ⟨"'t"⟩, .witness ⟨"'e"⟩ [.app "Eq" [.var ⟨"'t"⟩]]],
        [.app "Eq" [.list (.var ⟨"'t"⟩)]], .neither, []⟩]
  typeConcepts := []

theorem resolve_derives_list :
    let site := Registry.ordered.site [.witness ⟨"'s"⟩ [.app "Ord" [.var ⟨"'s"⟩]]] .standard
    let required : List Ty := [.app "Eq" [.list (.list .int)]]
    ∃ v, ((site.resolve required .empty).run .empty).1 = .ok v ∧
      v.ty = .app "ListEq" [.list .int, .app "ListEq" [.int, .const "IntOrd"]] ∧
      ∀ c ∈ required, site.Derives v.ty (v.subst.apply c) := by
  intro site required
  have hrun : ((site.resolve required .empty).run .empty).1.toOption.any (fun v =>
      v.ty == .app "ListEq" [.list .int, .app "ListEq" [.int, .const "IntOrd"]]) := by
    decide +kernel
  cases h : ((site.resolve required .empty).run .empty).1 with
  | error diagnostics => simp [h, Except.toOption] at hrun
  | ok v =>
      refine ⟨v, rfl, by simpa [h, Except.toOption] using hrun, ?_⟩
      exact resolve_derives (by decide +kernel) (by decide +kernel)
        (Registry.Flat.finitary (by decide)) (by decide +kernel) h

def Instance.anything : Instance :=
  ⟨"K", [.associated ⟨"'k"⟩], [.var ⟨"'k"⟩, .app "Y" [.var ⟨"'k"⟩]], .neither, []⟩

def Instance.both : Instance :=
  ⟨"I", [.associated ⟨"'t"⟩, .associated ⟨"'u"⟩,
      .witness ⟨"'w"⟩ [.var ⟨"'t"⟩, .app "Eq" [.var ⟨"'u"⟩]]],
    [.app "Foo" [.var ⟨"'t"⟩, .var ⟨"'u"⟩], .app "Y" [.int]], ⟨true, false⟩, []⟩

def Instance.outer : Instance :=
  ⟨"J", [.associated ⟨"'t"⟩, .associated ⟨"'u"⟩,
      .witness ⟨"'f"⟩ [.app "Foo" [.var ⟨"'t"⟩, .var ⟨"'u"⟩]],
      .witness ⟨"'b"⟩ [.app "Baz" [.var ⟨"'u"⟩]]],
    [.app "Bar" [.var ⟨"'t"⟩, .var ⟨"'u"⟩], .app "Y" [.int]], ⟨true, false⟩, []⟩

def Registry.deferred : Registry where
  concepts :=
    [⟨"Eq", [⟨"'a"⟩], [], [], []⟩, ⟨"Ord", [⟨"'a"⟩], [.app "Eq" [.var ⟨"'a"⟩]], [], []⟩,
      ⟨"Y", [⟨"'a"⟩], [], [], []⟩, ⟨"Foo", [⟨"'a"⟩, ⟨"'b"⟩], [], [], []⟩,
      ⟨"Bar", [⟨"'a"⟩, ⟨"'b"⟩], [], [], []⟩, ⟨"Baz", [⟨"'a"⟩], [], [], []⟩]
  instances :=
    [.anything, .both, ⟨"BazInt", [], [.app "Baz" [.int], .app "Y" [.int]], ⟨true, false⟩, []⟩,
      .outer]
  typeConcepts := []

/-- A concept that is required without its arguments seems to imply a superconcept that it is not
implied by any more once the arguments of that one are known. -/
theorem not_derives_of_misapplied :
    let r := Registry.deferred
    let site := r.site [] .standard
    let required : List Ty := [.app "Bar" [.const "Ord", .var ⟨"'a"⟩]]
    r.WellScoped [] ∧ (∀ i ∈ r.instances, (i.params.map Param.var).Nodup) ∧ r.model.Finitary ∧
      (∀ c ∈ required, ∀ x ∈ c.vars, x.isFresh = false) ∧
      ∃ v, ((site.resolve required .empty).run .empty).1 = .ok v ∧
        ∃ c ∈ required, ¬site.Derives v.ty (v.subst.apply c) := by
  intro r site required
  refine ⟨by decide +kernel, by decide +kernel, Registry.Flat.finitary (by decide),
    by decide +kernel, ?_⟩
  let both : List Ty := [.const "Ord", .int, .named "K" [.const "Ord"]]
  let outer : List Ty := [.const "Ord", .int, .named "I" both, .const "BazInt"]
  have hrun : ((site.resolve required .empty).run .empty).1.toOption.any (fun v =>
      v.ty == .named "J" outer) := by
    decide +kernel
  cases h : ((site.resolve required .empty).run .empty).1 with
  | error diagnostics => simp [h, Except.toOption] at hrun
  | ok v =>
      have hty : v.ty = .named "J" outer := by simpa [h, Except.toOption] using hrun
      refine ⟨v, rfl, _, List.mem_cons_self, fun hderives => ?_⟩
      have htidy : site.scope.Tidy := Scope.tidy_ofParams r.instances []
      have hevidence : site.scope.evidence = r.instances.map .declared := rfl
      have hmem : ∀ i ∈ r.instances, .declared i ∈ site.scope.evidence :=
        fun i hi => hevidence ▸ List.mem_map_of_mem hi
      rw [hty] at hderives
      have houter := Site.Derives.of_declared htidy
        (hmem .outer (by simp [r, Registry.deferred])) outer hderives
      have hboth := Site.Derives.of_declared htidy
        (hmem .both (by simp [r, Registry.deferred])) both
        (houter.2 _ (.tail _ (.tail _ (.head _))) rfl _ (.head _))
      have hanything := Site.Derives.of_declared htidy
        (hmem .anything (by simp [r, Registry.deferred])) [.const "Ord"]
        (hboth.2 _ (.tail _ (.tail _ (.head _))) rfl _ (.tail _ (.head _)))
      exact absurd hanything.1 (by decide +kernel)

end ConceptResolution
