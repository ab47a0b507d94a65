import ConceptResolution.Proofs.Outcome
import ConceptResolution.Proofs.RequestNames

namespace ConceptResolution

namespace Site

variable {site : Site}

theorem isSome_meetAll_singleton_iff {c : Ty} {i : Instantiated} :
    (site.meetAll [c] i).isSome = true ↔
      ∃ p ∈ site.model.expand i.provides, ∃ θ : Subst,
        (∀ x ∈ site.scope.bound, θ.lookup x = .var x) ∧ θ.apply p = θ.apply c := by
  have hmeet : site.meetAll [c] i = site.meet (site.model.expand i.provides) .empty c := by
    simp [meetAll]
  have hunify : ∀ p, (unify site.scope.bound p c .empty).toOption.isSome = true ↔
      ∃ s, unify site.scope.bound p c .empty = .ok s := by
    intro p
    cases unify site.scope.bound p c .empty <;> simp [Except.toOption]
  rw [hmeet, meet, List.isSome_findSome?, List.any_eq_true]
  refine exists_congr fun p => and_congr_right fun _ => ?_
  rw [hunify, (Unifies.done .empty).exists_unify_iff, solvable_iff, List.nil_append]
  simp only [List.forall_mem_singleton]

theorem nodup_names_matching (hscope : site.scope.Built) (required : List Ty) (m : Memory) :
    (((site.matching required).run m).1.map Viable.name).Nodup := by
  have horder : (((site.matching required).run m).1.map fun v => v.candidate.source).Sublist
      site.scope.evidence := returns_matching_sublist required m
  have hnames := horder.map Evidence.name
  rw [List.map_map] at hnames
  exact hscope.tidy.nodup.sublist hnames

end Site

/-- Matching finds evidence in the order of the scope, its parameters renamed to new variables, each
piece at most once and with an idempotent substitution that makes all that is required equal to
something it provides, superconcepts included. For a single concept it finds all the evidence for
which there is such a substitution. -/
theorem matching_exact {site : Site} (hscope : site.scope.Built) (required : List Ty) (m : Memory) :
    let instantiated := ((Search.instantiateAll site.scope.evidence).run m).1
    let found := ((site.matching required).run m).1
    instantiated.map Instantiated.source = site.scope.evidence ∧
      (∃ n, ∀ i ∈ instantiated, i.Of m.supply.next n) ∧
      (found.map Viable.candidate).Sublist instantiated ∧
      (found.map Viable.name).Nodup ∧
      (∀ v ∈ found, v.subst.Idempotent ∧ v.ty = v.subst.apply v.candidate.ty ∧
        ∀ c ∈ required, ∃ p ∈ site.model.expand v.candidate.provides,
          v.subst.apply p = v.subst.apply c) ∧
      ∀ c, required = [c] → ∀ i ∈ instantiated,
        (i ∈ found.map Viable.candidate ↔
          ∃ p ∈ site.model.expand i.provides, ∃ θ : Subst,
            (∀ x ∈ site.scope.bound, θ.lookup x = .var x) ∧ θ.apply p = θ.apply c) := by
  intro instantiated found
  have hfound : found.map Viable.candidate =
      instantiated.filter fun i => (site.meetAll required i).isSome :=
    site.run_matching_candidates required m
  obtain ⟨n, hnew⟩ := Search.exists_of_mem_instantiateAll site.scope.evidence m
  refine ⟨Site.returns_instantiateAll _ m, ⟨n, fun i hi => (hnew i hi).2⟩,
    hfound ▸ List.filter_sublist, Site.nodup_names_matching hscope required m, fun v hv => ?_,
    fun c hc i hi => ?_⟩
  · obtain ⟨_, hcandidate⟩ := Site.exists_candidate_of_mem_matching hv
    exact ⟨hcandidate.idempotent, hcandidate.ty, fun c hc => hcandidate.exists_apply_eq hc⟩
  · subst hc
    rw [hfound, List.mem_filter, Site.isSome_meetAll_singleton_iff]
    exact and_iff_right hi

/-- Inside a function over an ordered type the order of this type serves for its equality. The one
of integers does not, since the type cannot be taken for that of integers. -/
theorem matching_exact_ordered :
    let s : TyVar := ⟨"'s"⟩
    let scope : List Param := [.ordinary s, .witness ⟨"'o"⟩ [.app "Ord" [.var s]]]
    let site := Registry.ordered.site scope .standard
    let c : Ty := .app "Eq" [.var s]
    let found := ((site.matching [c]).run .empty).1
    found.map Viable.name = ["'o"] ∧
      (∀ v ∈ found, v.subst.Idempotent ∧
        ∃ p ∈ site.model.expand v.candidate.provides, v.subst.apply p = v.subst.apply c) ∧
      ¬∃ p ∈ site.model.expand [.app "Ord" [.int]], ∃ θ : Subst,
        (∀ x ∈ site.scope.bound, θ.lookup x = .var x) ∧ θ.apply p = θ.apply c := by
  intro s scope site c found
  let order : Instantiated :=
    ⟨.declared ⟨"IntOrd", [], [.app "Ord" [.int]], .neither, []⟩, [], [.app "Ord" [.int]],
      .const "IntOrd", nofun⟩
  have hnames : found.map Viable.name = ["'o"] := by decide +kernel
  have horder : order ∈ ((Search.instantiateAll site.scope.evidence).run .empty).1 :=
    List.mem_of_getElem? (by rfl : _[1]? = some order)
  obtain ⟨-, -, -, -, hsound, hcomplete⟩ := @matching_exact site
    (.ofParams Registry.ordered.instances scope) [c] .empty
  refine ⟨hnames, fun v hv => ?_, fun hequal => ?_⟩
  · obtain ⟨hidem, -, hprovided⟩ := hsound v hv
    exact ⟨hidem, hprovided c List.mem_cons_self⟩
  · obtain ⟨v, hv, hcandidate⟩ := List.mem_map.1 ((hcomplete c rfl order horder).2 hequal)
    have hname : v.name ∈ found.map Viable.name := List.mem_map_of_mem hv
    rw [hnames, Viable.name, hcandidate] at hname
    exact absurd hname (by decide)

end ConceptResolution
