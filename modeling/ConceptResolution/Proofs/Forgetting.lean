import ConceptResolution.Proofs.Sessions

namespace ConceptResolution

open VarSupply

instance (t : Ty) : Decidable t.IsNamed :=
  inferInstanceAs (Decidable (∀ v ∈ t.vars, v.isFresh = false))

structure Registry.Named (r : Registry) : Prop where
  supers : ∀ c ∈ r.concepts, ∀ s ∈ c.supers, s.IsNamed
  provides : ∀ i ∈ r.instances, ∀ c ∈ i.provides, c.IsNamed
  constraints : ∀ i ∈ r.instances, ∀ p ∈ i.params, ∀ c ∈ p.constraints, c.IsNamed
  typeConcepts : ∀ entry ∈ r.typeConcepts, entry.1.IsNamed ∧ entry.2.IsNamed

instance (r : Registry) : Decidable r.Named :=
  decidable_of_iff (_ ∧ _ ∧ _ ∧ _) ⟨fun h => ⟨h.1, h.2.1, h.2.2.1, h.2.2.2⟩,
    fun h => ⟨h.supers, h.provides, h.constraints, h.typeConcepts⟩⟩

theorem Registry.Named.declared_rename {r : Registry} (h : r.Named) (ρ : Renaming) (t : Ty) :
    r.declared (t.rename ρ.map) = (r.declared t).map (Ty.rename ρ.map) := by
  rw [declared, declared, List.map_filterMap]
  refine List.filterMap_congr fun entry hentry => ?_
  obtain ⟨hpattern, hconcept⟩ := h.typeConcepts entry hentry
  have hunify := unify_rename ρ t.vars entry.1 t .empty
  rw [hpattern.rename_eq_self, ← Ty.vars_rename, Subst.rename_empty] at hunify
  have happly : ∀ s : Subst, (s.rename ρ).apply entry.2 = (s.apply entry.2).rename ρ.map := by
    intro s
    rw [← Subst.apply_rename, hconcept.rename_eq_self]
  revert hunify
  cases unify t.vars entry.1 t .empty with
  | error e =>
      cases unify (t.rename ρ.map).vars entry.1 (t.rename ρ.map) .empty with
      | error e' => exact fun _ => rfl
      | ok s' => exact fun hunify => by cases hunify
  | ok s =>
      cases unify (t.rename ρ.map).vars entry.1 (t.rename ρ.map) .empty with
      | error e' => exact fun hunify => by cases hunify
      | ok s' =>
          intro hunify
          cases hunify
          exact congrArg some (happly s)

theorem Registry.Named.site {r : Registry} (h : r.Named) {scope : List Param}
    (hscope : r.WellScoped scope) (options : Options) : (r.site scope options).Named where
  model := by
    refine ⟨fun name c hc => ?_, fun name i hi => ?_, h.declared_rename⟩
    · exact h.supers c (Registry.mem_of_model_concept? hc).1
    · have hfind : r.instance? name = some i := (congrFun r.model_instance? name).symm.trans hi
      exact h.provides i (List.mem_of_find?_eq_some hfind)
  tidy := Scope.tidy_ofParams r.instances scope
  declared i hi := by
    have hmem := Scope.mem_of_declared_mem_ofParams hi
    exact ⟨h.provides i hmem, h.constraints i hmem⟩
  given p hp := by
    obtain ⟨hp, -⟩ := Scope.mem_of_given_mem_ofParams hp
    refine ⟨(hscope.scope p hp).named, fun c hc v hv => ?_⟩
    obtain ⟨q, hq, rfl⟩ := ((hscope.scope p hp).constraints c hc).2 v hv
    exact (hscope.scope q hq).named
  bound v hv := by
    obtain ⟨p, hp, rfl⟩ := Scope.mem_bound_ofParams.1 hv
    exact (hscope.scope p hp).named

/-- The same evidence at the same type, up to the names of fresh variables, or no answer at all. -/
structure SameAnswer (a b : Except (List Diagnostic) Viable) : Prop where
  isOk : b.isOk = a.isOk
  same : ∀ v w, a = .ok v → b = .ok w → w.candidate.source = v.candidate.source ∧
    ∃ ρ : Renaming, v.ty.rename ρ.map = w.ty

theorem sameAnswer_of_rename {a b : Except (List Diagnostic) Viable} {σ τ : Renaming}
    (h : a.toOption.map (Viable.rename σ) = b.toOption.map (Viable.rename τ)) : SameAnswer a b := by
  cases a with
  | error ds =>
      cases b with
      | error ds' => exact ⟨rfl, fun v w hv => by cases hv⟩
      | ok w => cases h
  | ok v =>
      cases b with
      | error ds' => cases h
      | ok w =>
          have hsame : v.rename σ = w.rename τ := Option.some.inj h
          have hsource := congrArg (fun v : Viable => v.candidate.source) hsame
          have hty : [v.ty].map (Ty.rename σ.map) = [w.ty].map (Ty.rename τ.map) :=
            congrArg (fun v : Viable => [v.ty]) hsame
          have hcanonical : canonical [v.ty] = canonical [w.ty] := by
            rw [← canonical_rename σ, hty, canonical_rename τ]
          obtain ⟨ρ, hρ⟩ := Renaming.exists_of_canonical_eq hcanonical
          refine ⟨rfl, ?_⟩
          rintro _ _ ⟨⟩ ⟨⟩
          exact ⟨hsource.symm, ρ, List.head_eq_of_cons_eq hρ⟩

/-- A search that nothing hinders answers as the one without a memory. -/
theorem Site.Honest.resolve_eq {site : Site} (hsite : site.WellScoped) (hnamed : site.Named)
    {required : List Ty} (hrequired : ∀ c ∈ required, c.IsNamed) {trail : Trail}
    (hfree : site.Unhindered required trail) {m : Memory} (hm : site.Honest m) :
    ∃ τ : Renaming, ((site.resolveAfresh required trail).run .empty).1.toOption =
      ((site.resolve required trail).run m).1.toOption.map (Viable.rename τ) := by
  obtain ⟨ρ, hρ, -⟩ := Renaming.exists_aligned_of_pairs m.supply.next 0 [] (by simp) (by simp)
    (by simp) (by simp)
  have hold : ∀ c ∈ required, ∀ x ∈ c.vars, Old m.supply.next x :=
    fun c hc x hx => old_of_not_isFresh (hrequired c hc x hx)
  have hjudge := (faithful hsite hnamed (site.options.maxDepth - trail.depth)).lockstep
    (site.options.maxDepth - trail.depth) trail trail True (by omega) (by omega) (Nat.le_refl _)
    fun _ => List.Subset.refl _
  have hlockstep := hnamed.lockstep_resolveWith hsite ignoresSupply_honest
    (judgeSound_judgeBelow hsite hnamed trail)
    (judgeSound_judgeAfreshWithin hsite (site.options.maxDepth - trail.depth) trail) hjudge hold hρ
  rw [Ty.map_rename_eq_self ρ hrequired] at hlockstep
  obtain ⟨τ, -, -, hτ⟩ := hlockstep m .empty hm rfl rfl hfree (.inl trivial)
  exact ⟨τ, hτ⟩

/-- Remembered failures change no answer: after any calls, a search that nothing hinders finds what
it finds with an empty memory. -/
theorem resolve_sameAnswer {r : Registry} {scope : List Param} {options : Options}
    (hscope : r.WellScoped scope) (hnamed : r.Named) {issued : List Viable} {m : Memory}
    (hsession : (r.site scope options).Session issued m) {required : List Ty}
    (hrequired : ∀ c ∈ required, c.IsNamed) {trail : Trail}
    (hfree : (r.site scope options).Unhindered required trail) :
    SameAnswer (((r.site scope options).resolve required trail).run m).1
      (((r.site scope options).resolve required trail).run .empty).1 := by
  have hsite := hscope.site options
  have hsiteNamed := hnamed.site hscope options
  have hhonest := (hsession.honest hsite hsiteNamed).1
  obtain ⟨σ, hσ⟩ := hhonest.resolve_eq hsite hsiteNamed hrequired hfree
  obtain ⟨τ, hτ⟩ := Site.honest_empty.resolve_eq hsite hsiteNamed hrequired hfree
  exact sameAnswer_of_rename (hσ.symm.trans hτ)

def Registry.guarded : Registry where
  concepts :=
    [⟨"Eq", [⟨"'a"⟩], [], [], []⟩, ⟨"Hash", [⟨"'a"⟩], [], [], []⟩, ⟨"Key", [⟨"'a"⟩], [], [], []⟩]
  instances :=
    [⟨"HashEq", [.associated ⟨"'t"⟩, .witness ⟨"'h"⟩ [.app "Hash" [.var ⟨"'t"⟩]]],
        [.app "Eq" [.var ⟨"'t"⟩]], .neither, []⟩,
      ⟨"IntEq", [], [.app "Eq" [.int]], .neither, []⟩,
      ⟨"ListKey", [.associated ⟨"'t"⟩, .witness ⟨"'e"⟩ [.app "Eq" [.var ⟨"'t"⟩]]],
        [.app "Key" [.list (.var ⟨"'t"⟩)]], .neither, []⟩]
  typeConcepts := []

theorem resolve_sameAnswer_list :
    let site := Registry.guarded.site [] .standard
    let m := ((site.resolve [.app "Eq" [.int]] .empty).run .empty).2
    let required : List Ty := [.app "Key" [.list .int]]
    (m.failures.find? (.of "HashEq" [.app "Eq" [.int]])).isSome = true ∧
      ((site.resolve required .empty).run m).1.isOk = true ∧
      SameAnswer ((site.resolve required .empty).run m).1
        ((site.resolve required .empty).run .empty).1 := by
  intro site m required
  have hold : ∀ c ∈ [Ty.app "Eq" [.int]], c.Met Memory.empty.supply.next := by
    simp [Ty.Met, Ty.vars, Ty.varsAll, Ty.int]
  have hsession : site.Session [] m := .resolve [.app "Eq" [.int]] .empty .start hold
  refine ⟨by decide +kernel, by decide +kernel, ?_⟩
  exact resolve_sameAnswer (by decide +kernel) (by decide +kernel) hsession (by decide +kernel)
    (by decide +kernel)

def Registry.tiered : Registry where
  concepts :=
    [⟨"C", [⟨"'a"⟩], [], [], []⟩, ⟨"D", [⟨"'a"⟩], [], [], []⟩, ⟨"E", [⟨"'a"⟩], [], [], []⟩]
  instances :=
    [⟨"Top", [.witness ⟨"'w"⟩ [.app "D" [.int]]], [.app "C" [.int]], .neither, []⟩,
      ⟨"A", [], [.app "D" [.int]], .neither, []⟩,
      ⟨"B", [.witness ⟨"'v"⟩ [.app "E" [.int]]], [.app "D" [.int]], .neither, []⟩,
      ⟨"IntE", [], [.app "E" [.int]], .neither, []⟩]
  typeConcepts := []

/-- Two witnesses are ambiguous, which is remembered, and one of them lies too deep elsewhere. -/
theorem not_sameAnswer_of_deep :
    let site := Registry.tiered.site [] ⟨2, true⟩
    let required : List Ty := [.app "C" [.int]]
    let trail : Trail := ⟨[.of "X" [.int]]⟩
    Registry.tiered.WellScoped [] ∧ Registry.tiered.Named ∧ (∀ c ∈ required, c.IsNamed) ∧
      ∃ issued m, site.Session issued m ∧
        ¬SameAnswer ((site.resolve required trail).run m).1
          ((site.resolve required trail).run .empty).1 := by
  intro site required trail
  have hold : ∀ c ∈ required, c.Met Memory.empty.supply.next := by
    simp [required, Ty.Met, Ty.vars, Ty.varsAll, Ty.int]
  refine ⟨by decide +kernel, by decide +kernel, by decide +kernel, [],
    ((site.resolve required .empty).run .empty).2,
    .resolve required .empty .start hold, fun h => ?_⟩
  have hdiffers : ((site.resolve required trail).run .empty).1.isOk ≠
      ((site.resolve required trail).run ((site.resolve required .empty).run .empty).2).1.isOk := by
    decide +kernel
  exact hdiffers h.isOk

end ConceptResolution
